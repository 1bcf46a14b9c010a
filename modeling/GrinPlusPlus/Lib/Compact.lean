import Mathlib.Data.Nat.Count
import Mathlib.Data.Set.Card

/-!
# Lists that are stored with gaps

A list of which only some places are stored, one behind the other: `Compact.keep`. A place that is
stored is found in front of its own number by as many places as are gone before it, and **that
count is the same for every list**, so that lists with the same gaps can be read, cut and appended
to without the list itself (`Compact.getElem?_keep`, `Compact.take_keep`, `Compact.keep_append`).

The count is `Nat.count`; `Compact.ncard_lt_and` is the same number as the size of a set. Where the
places that are stored carry their numbers (`Compact.tabulate`), they are looked up instead.
-/

namespace Compact

variable {α β : Type} {gone gone' : ℕ → Bool} {xs ys : List α} {n p : ℕ}

/-- What is stored of a list that begins at a place. -/
def keepFrom (gone : ℕ → Bool) : ℕ → List α → List α
  | _, [] => []
  | i, x :: xs => if gone i then keepFrom gone (i + 1) xs else x :: keepFrom gone (i + 1) xs

/-- What is stored of a list. -/
def keep (gone : ℕ → Bool) (xs : List α) : List α :=
  keepFrom gone 0 xs

/-- How many places are gone below a number. -/
def countGone (gone : ℕ → Bool) (n : ℕ) : ℕ :=
  n.count fun i => gone i = true

/-! ### Pieces -/

theorem keepFrom_append (i : ℕ) (xs ys : List α) :
    keepFrom gone i (xs ++ ys) = keepFrom gone i xs ++ keepFrom gone (i + xs.length) ys := by
  induction xs generalizing i with
  | nil => rfl
  | cons x xs ih =>
    rw [List.cons_append, keepFrom, keepFrom, ih, List.length_cons,
      show i + 1 + xs.length = i + (xs.length + 1) by omega]
    split
    · rfl
    · rfl

theorem keepFrom_eq_nil {i : ℕ} (h : ∀ j, i ≤ j → j < i + xs.length → gone j = true) :
    keepFrom gone i xs = [] := by
  induction xs generalizing i with
  | nil => rfl
  | cons x xs ih =>
    rw [List.length_cons] at h
    rw [keepFrom, if_pos (h i le_rfl (by omega))]
    exact ih fun j h1 h2 => h j (by omega) (by omega)

theorem keepFrom_congr {i : ℕ} (h : ∀ j, i ≤ j → j < i + xs.length → gone j = gone' j) :
    keepFrom gone i xs = keepFrom gone' i xs := by
  induction xs generalizing i with
  | nil => rfl
  | cons x xs ih =>
    rw [List.length_cons] at h
    rw [keepFrom, keepFrom, h i le_rfl (by omega), ih fun j h1 h2 => h j (by omega) (by omega)]

@[simp] theorem keep_nil : keep gone ([] : List α) = [] := rfl

/-- **Pieces are stored** one behind the other. -/
theorem keep_append (gone : ℕ → Bool) (xs ys : List α) :
    keep gone (xs ++ ys) = keep gone xs ++ keepFrom gone xs.length ys := by
  rw [keep, keepFrom_append, Nat.zero_add, keep]

theorem keep_concat_of_gone (h : gone xs.length = true) (x : α) :
    keep gone (xs ++ [x]) = keep gone xs := by
  rw [keep_append, keepFrom, if_pos h, keepFrom, List.append_nil]

theorem keep_concat (h : gone xs.length = false) (x : α) :
    keep gone (xs ++ [x]) = keep gone xs ++ [x] := by
  rw [keep_append, keepFrom, h, if_neg Bool.false_ne_true, keepFrom]

theorem keep_congr (h : ∀ j < xs.length, gone j = gone' j) : keep gone xs = keep gone' xs :=
  keepFrom_congr fun j _ hj => h j (by omega)

/-- Where nothing is gone, all of the list is stored. -/
theorem keep_eq_self (h : ∀ j < xs.length, gone j = false) : keep gone xs = xs := by
  induction xs using List.reverseRecOn with
  | nil => rfl
  | append_singleton xs x ih =>
    rw [List.length_append, List.length_singleton] at h
    rw [keep_concat (h _ (Nat.lt_succ_self _)), ih fun j hj => h j (by omega)]

/-! ### Places -/

theorem countGone_succ (n : ℕ) :
    countGone gone (n + 1) = countGone gone n + if gone n then 1 else 0 := by
  rw [countGone, Nat.count_succ]
  rfl

theorem countGone_le (gone : ℕ → Bool) (n : ℕ) : countGone gone n ≤ n :=
  Nat.count_le _

theorem countGone_add_le (gone : ℕ → Bool) (a b : ℕ) :
    countGone gone (a + b) ≤ countGone gone a + b := by
  rw [countGone, Nat.count_add]
  exact Nat.add_le_add_left (Nat.count_le _) _

/-- What is stored and what is gone is the whole. -/
theorem length_keep (gone : ℕ → Bool) (xs : List α) :
    (keep gone xs).length + countGone gone xs.length = xs.length := by
  induction xs using List.reverseRecOn with
  | nil => rfl
  | append_singleton xs x ih =>
    rw [List.length_append, List.length_singleton, countGone_succ]
    cases h : gone xs.length with
    | true =>
      rw [keep_concat_of_gone h, if_pos rfl]
      omega
    | false =>
      rw [keep_concat h, if_neg Bool.false_ne_true, List.length_append, List.length_singleton]
      omega

/-- **Cutting** a list cuts what is stored of it. -/
theorem take_keep (h : n ≤ xs.length) :
    (keep gone xs).take (n - countGone gone n) = keep gone (xs.take n) := by
  have hlength := length_keep gone (xs.take n)
  rw [List.length_take, Nat.min_eq_left h] at hlength
  have hsplit := keep_append gone (xs.take n) (xs.drop n)
  rw [List.take_append_drop] at hsplit
  rw [hsplit, List.take_left' (by omega)]

/-- **A stored place** is found in front of its number by what is gone before it. -/
theorem getElem?_keep (h : gone p = false) :
    (keep gone xs)[p - countGone gone p]? = xs[p]? := by
  have hle := countGone_le gone p
  rcases Nat.lt_or_ge p xs.length with hlt | hge
  · have hlength := length_keep gone (xs.take p)
    rw [List.length_take, Nat.min_eq_left hlt.le] at hlength
    have hsplit := keep_append gone (xs.take p) (xs.drop p)
    rw [List.take_append_drop, List.length_take, Nat.min_eq_left hlt.le,
      List.drop_eq_getElem_cons hlt, keepFrom, h, if_neg Bool.false_ne_true] at hsplit
    rw [hsplit, List.getElem?_append_right (by omega), List.getElem?_eq_getElem hlt]
    rw [show p - countGone gone p - (keep gone (xs.take p)).length = 0 by omega]
    rfl
  · have hlength := length_keep gone xs
    -- behind the end no more places can be gone than there are
    have hmono := countGone_add_le gone xs.length (p - xs.length)
    rw [Nat.add_sub_cancel' hge] at hmono
    rw [List.getElem?_eq_none hge, List.getElem?_eq_none (by omega)]

/-- The count is the size of a set. -/
theorem ncard_lt_and (gone : ℕ → Bool) (n : ℕ) :
    {i | i < n ∧ gone i = true}.ncard = countGone gone n := by
  have hset : {i | i < n ∧ gone i = true} =
      ↑((Finset.range n).filter fun i => gone i = true) := by
    ext i
    simp
  rw [hset, Set.ncard_coe_finset, countGone, Nat.count_eq_card_filter_range]

/-! ### Places with their values -/

/-- The places that have a value, each with its value. -/
def tabulate (f : ℕ → Option α) (places : List ℕ) : List (ℕ × α) :=
  places.filterMap fun p => (f p).map (p, ·)

variable {f : ℕ → Option α} {places : List ℕ}

theorem tabulate_cons (p : ℕ) (places : List ℕ) :
    tabulate f (p :: places) = ((f p).map (p, ·)).toList ++ tabulate f places := by
  rw [tabulate, List.filterMap_cons]
  cases f p with
  | none => rfl
  | some x => rfl

/-- **Looking up** a place gives its value. -/
theorem lookup_tabulate (q : ℕ) :
    (tabulate f places).lookup q = if q ∈ places then f q else none := by
  induction places with
  | nil => rfl
  | cons p places ih =>
    rw [tabulate_cons]
    by_cases hp : q = p
    · subst hp
      rw [if_pos List.mem_cons_self]
      cases hf : f q with
      | none =>
        rw [Option.map_none, Option.toList_none, List.nil_append, ih, hf, ite_self]
      | some x =>
        rw [Option.map_some, Option.toList_some, List.singleton_append, List.lookup_cons_self]
    · have hmem : q ∈ p :: places ↔ q ∈ places := by
        rw [List.mem_cons]
        exact or_iff_right hp
      simp only [hmem]
      cases f p with
      | none => exact ih
      | some x =>
        rw [Option.map_some, Option.toList_some, List.singleton_append, List.lookup_cons,
          beq_false_of_ne hp]
        exact ih

/-- Places without a value are passed over. -/
theorem tabulate_range'_add {p d : ℕ} (hnone : ∀ q, p ≤ q → q < p + d → f q = none) (n : ℕ) :
    tabulate f (List.range' p n) = tabulate f (List.range' (p + d) (n - d)) := by
  induction d generalizing p n with
  | zero => rfl
  | succ d ih =>
    cases n with
    | zero => rw [Nat.zero_sub, List.range'_zero, List.range'_zero]
    | succ n =>
      rw [List.range'_succ, tabulate_cons, hnone p le_rfl (by omega), Option.map_none,
        Option.toList_none, List.nil_append, Nat.succ_sub_succ, ← Nat.add_assoc,
        Nat.add_right_comm]
      exact ih (fun q h1 h2 => hnone q (by omega) (by omega)) n

/-- The places keep their order. -/
theorem keys_tabulate_sublist : ((tabulate f places).map Prod.fst).Sublist places := by
  induction places with
  | nil => exact List.Sublist.slnil
  | cons p places ih =>
    rw [tabulate_cons]
    cases f p with
    | none => exact ih.cons p
    | some x => exact ih.cons_cons p

end Compact
