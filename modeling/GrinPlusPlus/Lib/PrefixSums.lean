import Mathlib.Algebra.BigOperators.Group.List.Basic
import Mathlib.Data.Set.Card
import Mathlib.Data.List.GetD
import Mathlib.Data.Set.Finite.Lattice

/-!
# Prefix sums and ranks

Sums over the front of a list, stored in advance, and how they are looked up: the rank of a
number in an ascending list, that is how many members do not exceed it, is the length of the
front that a filter would keep (`PrefixSums.take_countP`). So the sum at that rank is the sum
over what the filter keeps, `PrefixSums.lookup_countP`.

What such a sum counts, when each member has a set of its own and these do not meet, is their
union: `PrefixSums.ncard_exists_mem`.
-/

namespace PrefixSums

variable {ι α : Type}

/-- The sums over the fronts of a list, without the empty one. -/
def prefixSums (ws : List ℕ) : List ℕ :=
  (ws.scanl (· + ·) 0).tail

@[simp] theorem length_prefixSums (ws : List ℕ) : (prefixSums ws).length = ws.length := by
  rw [prefixSums, List.length_tail, List.length_scanl, Nat.add_sub_cancel]

theorem foldl_add (ws : List ℕ) (a : ℕ) : ws.foldl (· + ·) a = a + ws.sum := by
  induction ws generalizing a with
  | nil => rfl
  | cons w ws ih => rw [List.foldl_cons, ih, List.sum_cons, Nat.add_assoc]

/-- The sum at a place. -/
theorem getD_prefixSums {ws : List ℕ} {k : ℕ} (hk : k < ws.length) :
    (prefixSums ws).getD k 0 = (ws.take (k + 1)).sum := by
  have hlt : k + 1 < (ws.scanl (· + ·) 0).length := by
    rw [List.length_scanl]
    omega
  rw [prefixSums, List.getD_eq_getElem?_getD, List.getElem?_tail, List.getElem?_eq_getElem hlt,
    Option.getD_some, List.getElem_scanl, foldl_add, Nat.zero_add]

/-- The last sum is the sum of all. -/
theorem getLastD_prefixSums (ws : List ℕ) : (prefixSums ws).getLastD 0 = ws.sum := by
  rcases ws.eq_nil_or_concat with rfl | ⟨init, w, rfl⟩
  · rfl
  · rw [prefixSums, List.concat_eq_append, List.scanl_append, List.scanl_singleton,
      List.tail_append_of_ne_nil List.scanl_ne_nil, List.tail_cons, List.getLastD_concat,
      foldl_add, List.sum_append, List.sum_singleton, Nat.zero_add]

/-- **Appending** one more number needs the last sum only. -/
theorem prefixSums_append (ws : List ℕ) (w : ℕ) :
    prefixSums (ws ++ [w]) = prefixSums ws ++ [(prefixSums ws).getLastD 0 + w] := by
  rw [getLastD_prefixSums, prefixSums, List.scanl_append, List.scanl_singleton,
    List.tail_append_of_ne_nil List.scanl_ne_nil, List.tail_cons, foldl_add, Nat.zero_add,
    prefixSums]

/-- How sums are looked up by a rank: nothing at rank zero, the last one behind the end. -/
def lookup (sums : List ℕ) (rank : ℕ) : ℕ :=
  if rank = 0 then 0
  else if sums.length < rank then sums.getLastD 0
  else sums.getD (rank - 1) 0

theorem lookup_prefixSums (ws : List ℕ) (rank : ℕ) :
    lookup (prefixSums ws) rank = (ws.take rank).sum := by
  rw [lookup]
  split_ifs with hzero hlt
  · rw [hzero, List.take_zero, List.sum_nil]
  · rw [length_prefixSums] at hlt
    rw [getLastD_prefixSums, List.take_of_length_le hlt.le]
  · rw [length_prefixSums] at hlt
    rw [getD_prefixSums (by omega), Nat.sub_add_cancel (Nat.one_le_iff_ne_zero.2 hzero)]

/-- **The rank is where a filter stops**, when what the filter keeps comes first. -/
theorem take_countP {xs : List ι} {keep : ι → Bool}
    (h : xs.Pairwise fun x y => keep y = true → keep x = true) :
    xs.take (xs.countP keep) = xs.filter keep := by
  induction xs with
  | nil => rfl
  | cons x xs ih =>
    obtain ⟨hfirst, hrest⟩ := List.pairwise_cons.1 h
    by_cases hx : keep x = true
    · rw [List.countP_cons_of_pos hx, List.filter_cons_of_pos hx, List.take_succ_cons, ih hrest]
    · have hnone : ∀ y ∈ xs, ¬keep y = true := fun y hy hkeep => hx (hfirst y hy hkeep)
      rw [List.countP_cons_of_neg hx, List.filter_cons_of_neg hx, List.countP_eq_zero.2 hnone,
        List.take_zero, List.filter_eq_nil_iff.2 hnone]

theorem lookup_countP {xs : List ι} {keep : ι → Bool} (w : ι → ℕ)
    (h : xs.Pairwise fun x y => keep y = true → keep x = true) :
    lookup (prefixSums (xs.map w)) (xs.countP keep) = ((xs.filter keep).map w).sum := by
  rw [lookup_prefixSums, ← List.map_take, take_countP h]

/-! ### Counting -/

/-- **A sum of sizes counts a union** of sets that do not meet. -/
theorem ncard_exists_mem {rs : List ι} {A : ι → Set α} (hfin : ∀ r ∈ rs, (A r).Finite)
    (hapart : rs.Pairwise fun r r' => ∀ x ∈ A r, x ∉ A r') :
    {x | ∃ r ∈ rs, x ∈ A r}.ncard = (rs.map fun r => (A r).ncard).sum := by
  induction rs with
  | nil => simp
  | cons r rs ih =>
    obtain ⟨hfirst, hrest⟩ := List.pairwise_cons.1 hapart
    have hfin' : ∀ r' ∈ rs, (A r').Finite := fun r' hr' => hfin r' (List.mem_cons_of_mem _ hr')
    have hunion : {x | ∃ r' ∈ r :: rs, x ∈ A r'} = A r ∪ {x | ∃ r' ∈ rs, x ∈ A r'} := by
      ext x
      simp
    have hrestFin : {x | ∃ r' ∈ rs, x ∈ A r'}.Finite := by
      have hset : {x | ∃ r' ∈ rs, x ∈ A r'} = ⋃ r' ∈ {r' | r' ∈ rs}, A r' := by
        ext x
        simp
      rw [hset]
      exact Set.Finite.biUnion (List.finite_toSet rs) hfin'
    have hdisjoint : Disjoint (A r) {x | ∃ r' ∈ rs, x ∈ A r'} := by
      rw [Set.disjoint_left]
      rintro x hx ⟨r', hr', hx'⟩
      exact hfirst r' hr' x hx hx'
    rw [hunion, Set.ncard_union_eq hdisjoint (hfin r List.mem_cons_self) hrestFin, ih hfin' hrest,
      List.map_cons, List.sum_cons]

end PrefixSums
