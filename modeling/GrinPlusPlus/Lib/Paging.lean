import Mathlib.Data.List.Range
import Mathlib.Tactic.Common

/-!
# Reading a sparse table in pages

A table that has values at some of the places below a bound, read from a place on
(`Paging.present`). A page is the beginning of such a reading, up to a number of values; the value
that stands last in it tells where the next page has to start (`Paging.page_eq`), so pages put
together give the whole reading back (`Paging.present_append`).
-/

namespace Paging

variable {α : Type} {f g : ℕ → Option α}

/-- The values at the places from `s` on and below `n`. -/
def present (f : ℕ → Option α) (s n : ℕ) : List α :=
  (List.range' s (n - s)).filterMap f

theorem present_of_le {s n : ℕ} (h : n ≤ s) : present f s n = [] := by
  rw [present, Nat.sub_eq_zero_of_le h]
  rfl

theorem present_of_lt {s n : ℕ} (h : s < n) :
    present f s n = (f s).toList ++ present f (s + 1) n := by
  obtain ⟨k, hk⟩ : ∃ k, n - s = k + 1 := ⟨n - s - 1, by omega⟩
  have hk' : n - (s + 1) = k := by omega
  rw [present, present, hk, hk', List.range'_succ, List.filterMap_cons]
  cases f s <;> rfl

/-- Two readings put together. -/
theorem present_append {s m n : ℕ} (hsm : s ≤ m) (hmn : m ≤ n) :
    present f s n = present f s m ++ present f m n := by
  have hlen : n - s = (m - s) + (n - m) := by omega
  have hplace : s + (m - s) = m := by omega
  rw [present, present, present, hlen, ← List.range'_append_1, List.filterMap_append, hplace]

theorem mem_present_iff {s n : ℕ} {a : α} :
    a ∈ present f s n ↔ ∃ i, s ≤ i ∧ i < n ∧ f i = some a := by
  rw [present, List.mem_filterMap]
  constructor
  · rintro ⟨i, hi, hf⟩
    rw [List.mem_range'_1] at hi
    exact ⟨i, hi.1, by omega, hf⟩
  · rintro ⟨i, hsi, hin, hf⟩
    exact ⟨i, List.mem_range'_1.mpr ⟨hsi, by omega⟩, hf⟩

/-- Places without a value are passed over. -/
theorem present_eq_of_none {s m n : ℕ} (hsm : s ≤ m) (hmn : m ≤ n)
    (hnone : ∀ i, m ≤ i → i < n → f i = none) : present f s n = present f s m := by
  have hrest : present f m n = [] := by
    rw [List.eq_nil_iff_forall_not_mem]
    intro a ha
    obtain ⟨i, hmi, hin, hf⟩ := mem_present_iff.mp ha
    rw [hnone i hmi hin] at hf
    cases hf
  rw [present_append hsm hmn, hrest, List.append_nil]

variable {place : α → ℕ} (hplace : ∀ i a, f i = some a → place a = i)

include hplace

/-- **A page ends behind its last value**: it is the whole reading up to there. -/
theorem page_eq {s n count : ℕ} {last : α}
    (hlast : ((present f s n).take count).getLast? = some last) :
    (s ≤ place last ∧ place last < n) ∧ f (place last) = some last ∧
      (present f s n).take count = present f s (place last + 1) := by
  induction hk : n - s generalizing s count with
  | zero =>
    rw [present_of_le (by omega), List.take_nil] at hlast
    cases hlast
  | succ k ih =>
    have hlt : s < n := by omega
    rw [present_of_lt hlt] at hlast ⊢
    cases hf : f s with
    | none =>
      -- Nothing is there: the page of the next place.
      rw [hf, Option.toList_none, List.nil_append] at hlast
      obtain ⟨⟨hs, hn⟩, hvalue, hpage⟩ := ih hlast (by omega)
      refine ⟨⟨by omega, hn⟩, hvalue, ?_⟩
      rw [Option.toList_none, List.nil_append, hpage, present_of_lt (by omega : s < _ + 1), hf]
      rfl
    | some a =>
      rw [hf, Option.toList_some, List.singleton_append] at hlast
      rw [Option.toList_some, List.singleton_append]
      cases count with
      | zero => cases hlast
      | succ count =>
        rw [List.take_succ_cons] at hlast ⊢
        cases hrest : ((present f (s + 1) n).take count).getLast? with
        | none =>
          -- The page has one value only.
          rw [List.getLast?_eq_none_iff] at hrest
          rw [hrest] at hlast ⊢
          have ha : a = last := Option.some.inj hlast
          subst ha
          obtain rfl := hplace s a hf
          refine ⟨⟨le_refl _, hlt⟩, hf, ?_⟩
          rw [present_of_lt (Nat.lt_succ_self _), hf, present_of_le (le_refl _)]
          rfl
        | some b =>
          have hb : b = last := by
            rw [List.getLast?_cons, hrest] at hlast
            exact Option.some.inj hlast
          subst hb
          obtain ⟨⟨hs, hn⟩, hvalue, hpage⟩ := ih hrest (by omega)
          refine ⟨⟨by omega, hn⟩, hvalue, ?_⟩
          rw [hpage, present_of_lt (by omega : s < place b + 1), hf]
          rfl

end Paging
