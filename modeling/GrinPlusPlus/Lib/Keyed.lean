import Mathlib.Data.List.Sort
import Mathlib.Tactic.Common

/-!
# Lists of values that are told apart by a key

Two loops over values with a key: one that keeps a value when its key is new (`List.keepNew`),
and a sort by the key. When the keys are different, what they give depends
on the *set* of the values only: keeping the new ones gives a permutation
(`List.perm_keepNew`), and sorting forgets the order (`List.sort_key_congr`). So a list that
was taken apart, mixed with repetitions and put together again in another order is the same
list after the sort.
-/

namespace List

variable {α β κ : Type} {key : α → κ}

/-! ### Keeping what is new -/

section KeepNew

variable [DecidableEq κ]

/-- Push the values whose keys were not seen before. -/
def keepNew (key : α → κ) (all values : List α) : List α :=
  values.foldl (fun all v => if key v ∈ all.map key then all else all ++ [v]) all

theorem keepNew_cons (all : List α) (v : α) (values : List α) :
    keepNew key all (v :: values) =
      keepNew key (if key v ∈ all.map key then all else all ++ [v]) values := rfl

/-- A loop over lists of values is a loop over the values. -/
theorem foldl_keepNew (f : β → List α) (l : List β) (all : List α) :
    l.foldl (fun all b => keepNew key all (f b)) all = keepNew key all (l.flatMap f) := by
  rw [keepNew, List.foldl_flatMap]
  rfl

theorem keepNew_append (all values values' : List α) :
    keepNew key all (values ++ values') = keepNew key (keepNew key all values) values' := by
  rw [keepNew, List.foldl_append]
  rfl

/-- The keys stay different. -/
theorem nodup_keepNew {all : List α} (h : (all.map key).Nodup) (values : List α) :
    ((keepNew key all values).map key).Nodup := by
  induction values generalizing all with
  | nil => exact h
  | cons v values ih =>
    rw [keepNew_cons]
    split
    · exact ih h
    · next hnew =>
      refine ih ?_
      rw [List.map_append, List.map_singleton]
      exact List.nodup_append.mpr ⟨h, List.nodup_singleton _, fun a ha b hb hab => by
        rw [List.mem_singleton.mp hb] at hab
        exact hnew (hab ▸ ha)⟩

/-- Nothing is made up, and nothing is lost as long as a key stands for one value. -/
theorem mem_keepNew_iff {all values : List α}
    (hkey : ∀ a b, (a ∈ all ∨ a ∈ values) → (b ∈ all ∨ b ∈ values) → key a = key b → a = b)
    (a : α) : a ∈ keepNew key all values ↔ a ∈ all ∨ a ∈ values := by
  induction values generalizing all with
  | nil => simp [keepNew]
  | cons v values ih =>
    rw [keepNew_cons]
    split
    · next hseen =>
      -- The key was seen, so the value was.
      obtain ⟨w, hw, heq⟩ := List.mem_map.mp hseen
      have hwv : w = v := hkey w v (.inl hw) (.inr (List.mem_cons_self ..)) heq
      have hv : v ∈ all := hwv ▸ hw
      rw [ih fun a b ha hb => hkey a b
        (ha.imp_right (List.mem_cons_of_mem _)) (hb.imp_right (List.mem_cons_of_mem _))]
      rw [List.mem_cons]
      constructor
      · rintro (h | h)
        · exact .inl h
        · exact .inr (.inr h)
      · rintro (h | rfl | h)
        · exact .inl h
        · exact .inl hv
        · exact .inr h
    · have hsplit : ∀ b, (b ∈ all ++ [v] ∨ b ∈ values) ↔ (b ∈ all ∨ b ∈ v :: values) := by
        intro b
        rw [List.mem_append, List.mem_singleton, List.mem_cons, or_assoc]
      rw [ih fun a b ha hb => hkey a b ((hsplit a).mp ha) ((hsplit b).mp hb), hsplit]

/-- **What is kept is a permutation** of any list with the same values and different keys. -/
theorem perm_keepNew {values l : List α} (hmem : ∀ a, a ∈ values ↔ a ∈ l)
    (hl : (l.map key).Nodup) : (keepNew key [] values).Perm l := by
  have hnil : (([] : List α).map key).Nodup := List.nodup_nil
  have hkept := nodup_keepNew hnil values
  refine (List.perm_ext_iff_of_nodup (List.Nodup.of_map _ hkept) (List.Nodup.of_map _ hl)).mpr ?_
  intro a
  rw [mem_keepNew_iff, ← hmem]
  · simp
  · intro a b ha hb
    have ha' := ha.resolve_left List.not_mem_nil
    have hb' := hb.resolve_left List.not_mem_nil
    exact List.inj_on_of_nodup_map hl ((hmem a).mp ha') ((hmem b).mp hb')

end KeepNew

/-! ### Sorting -/

section Sorting

variable [LinearOrder κ] (key)

theorem pairwise_sort_key (l : List α) :
    (l.insertionSort fun a b => key a ≤ key b).Pairwise fun a b => key a ≤ key b := by
  have : Std.Total fun a b : α => key a ≤ key b := ⟨fun a b => le_total _ _⟩
  have : IsTrans α fun a b => key a ≤ key b := ⟨fun _ _ _ => le_trans⟩
  exact List.pairwise_insertionSort _ l

/-- A list that is sorted stays as it is. -/
theorem sort_key_sort_key (l : List α) :
    ((l.insertionSort fun a b => key a ≤ key b).insertionSort fun a b => key a ≤ key b) =
      l.insertionSort fun a b => key a ≤ key b :=
  (pairwise_sort_key key l).insertionSort_eq

/-- **With different keys, sorting forgets the order.** -/
theorem sort_key_congr {l l' : List α} (h : l.Perm l') (hl : (l.map key).Nodup) :
    (l.insertionSort fun a b => key a ≤ key b) = l'.insertionSort fun a b => key a ≤ key b := by
  have hperm : (l.insertionSort fun a b => key a ≤ key b).Perm
      (l'.insertionSort fun a b => key a ≤ key b) :=
    (List.perm_insertionSort _ l).trans (h.trans (List.perm_insertionSort _ l').symm)
  refine hperm.eq_of_pairwise ?_ (pairwise_sort_key key l) (pairwise_sort_key key l')
  intro a b ha hb hab hba
  have ha' : a ∈ l := (List.perm_insertionSort _ l).mem_iff.mp ha
  have hb' : b ∈ l := h.symm.mem_iff.mp ((List.perm_insertionSort _ l').mem_iff.mp hb)
  exact List.inj_on_of_nodup_map hl ha' hb' (le_antisymm hab hba)

end Sorting

end List
