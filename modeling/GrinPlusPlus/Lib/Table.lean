import Mathlib.Data.List.Nodup
import Mathlib.Tactic.Common

/-!
# Tables with a key

A table of a database, as the list of its rows in the order in which they are scanned, and the
insertion that overwrites the row with the same key (`INSERT … ON CONFLICT DO UPDATE`,
`List.upsert`). Where a new row goes is left to the table: `place` may put it anywhere.

Nothing about an upsert has to be proved by induction again: its rows are the new one and those
with another key (`List.mem_upsert_iff`), and the keys stay different (`List.nodup_upsert`). The
same two facts are given for several rows written one after the other (`List.upsertAll`).
-/

namespace List

variable {α κ : Type} [DecidableEq κ] {key : α → κ} {place : α → List α → List α}

/-- Overwrite the row with the key of `x`, or place `x` as a new row. -/
def upsert (key : α → κ) (place : α → List α → List α) (x : α) (rows : List α) : List α :=
  if key x ∈ rows.map key then rows.map fun y => if key y = key x then x else y
  else place x rows

/-- Write rows one after the other. -/
def upsertAll (key : α → κ) (place : α → List α → List α) (xs rows : List α) : List α :=
  xs.foldl (fun rows x => upsert key place x rows) rows

@[simp] theorem upsertAll_nil (rows : List α) : upsertAll key place [] rows = rows := rfl

theorem upsertAll_cons (x : α) (xs rows : List α) :
    upsertAll key place (x :: xs) rows = upsertAll key place xs (upsert key place x rows) := rfl

section Rows

variable (hplace : ∀ x rows, (place x rows).Perm (x :: rows))
include hplace

/-- **The rows after an upsert**: the one that was written, and those with another key. -/
theorem mem_upsert_iff (x y : α) (rows : List α) :
    y ∈ upsert key place x rows ↔ y = x ∨ (y ∈ rows ∧ key y ≠ key x) := by
  rw [upsert]
  split
  · next hmem =>
    rw [List.mem_map]
    constructor
    · rintro ⟨z, hz, rfl⟩
      split
      · exact .inl rfl
      · next hne => exact .inr ⟨hz, hne⟩
    · rintro (rfl | ⟨hy, hne⟩)
      · obtain ⟨z, hz, hkey⟩ := List.mem_map.mp hmem
        exact ⟨z, hz, if_pos hkey⟩
      · exact ⟨y, hy, if_neg hne⟩
  · next hnew =>
    rw [(hplace x rows).mem_iff, List.mem_cons]
    refine or_congr_right ⟨fun hy => ⟨hy, ?_⟩, And.left⟩
    rintro hkey
    exact hnew (List.mem_map.mpr ⟨y, hy, hkey⟩)

/-- The keys stay different. -/
theorem nodup_upsert (x : α) {rows : List α} (h : (rows.map key).Nodup) :
    ((upsert key place x rows).map key).Nodup := by
  rw [upsert]
  split
  · -- Overwriting a row keeps the list of the keys.
    have hkeys : (rows.map fun y => if key y = key x then x else y).map key = rows.map key := by
      rw [List.map_map]
      refine List.map_congr_left fun y _ => ?_
      rw [Function.comp_apply]
      split
      · next hkey => exact hkey.symm
      · rfl
    rwa [hkeys]
  · next hnew =>
    rw [((hplace x rows).map key).nodup_iff, List.map_cons, List.nodup_cons]
    exact ⟨hnew, h⟩

/-- A row after several upserts was written, or it was there and its key was not written. -/
theorem of_mem_upsertAll {y : α} {xs rows : List α} (h : y ∈ upsertAll key place xs rows) :
    y ∈ xs ∨ (y ∈ rows ∧ key y ∉ xs.map key) := by
  induction xs generalizing rows with
  | nil => exact .inr ⟨h, by simp⟩
  | cons x xs ih =>
    rw [upsertAll_cons] at h
    rcases ih h with hy | ⟨hy, hnot⟩
    · exact .inl (List.mem_cons_of_mem _ hy)
    · rcases (mem_upsert_iff hplace x y rows).mp hy with rfl | ⟨hy, hne⟩
      · exact .inl (List.mem_cons_self ..)
      · refine .inr ⟨hy, ?_⟩
        rw [List.map_cons, List.mem_cons]
        rintro (hkey | hkey)
        · exact hne hkey
        · exact hnot hkey

end Rows

/-- New rows go to the end. -/
def placeLast (x : α) (rows : List α) : List α :=
  rows ++ [x]

omit [DecidableEq κ] in
theorem perm_placeLast (x : α) (rows : List α) : (placeLast x rows).Perm (x :: rows) :=
  List.perm_append_singleton x rows

/-! ### Rows that use things -/

section Uses

variable {γ : Type} {live : α → Prop} {uses : α → List γ}

/-- No two live rows use the same thing. -/
def Exclusive (key : α → κ) (live : α → Prop) (uses : α → List γ) (rows : List α) : Prop :=
  ∀ x ∈ rows, ∀ y ∈ rows, live x → live y → ∀ c ∈ uses x, c ∈ uses y → key x = key y

omit [DecidableEq κ] in
/-- Rows that die free what they used. -/
theorem Exclusive.mono {rows rows' : List α} (h : Exclusive key live uses rows)
    (hsub : ∀ x ∈ rows', live x → x ∈ rows) : Exclusive key live uses rows' :=
  fun x hx y hy hlx hly => h x (hsub x hx hlx) y (hsub y hy hly) hlx hly

/-- **A row may be written** when no other live row uses what it uses. -/
theorem Exclusive.upsert (hplace : ∀ x rows, (place x rows).Perm (x :: rows)) {rows : List α}
    (h : Exclusive key live uses rows) {x : α}
    (hx : live x → ∀ y ∈ rows, live y → key y ≠ key x → ∀ c ∈ uses x, c ∉ uses y) :
    Exclusive key live uses (List.upsert key place x rows) := by
  intro y hy z hz hly hlz c hcy hcz
  rw [mem_upsert_iff hplace] at hy hz
  rcases hy with heqy | ⟨hy, hney⟩ <;> rcases hz with heqz | ⟨hz, hnez⟩
  · rw [heqy, heqz]
  · rw [heqy] at hly hcy
    exact absurd hcz (hx hly z hz hlz hnez c hcy)
  · rw [heqz] at hlz hcz
    exact absurd hcy (hx hlz y hy hly hney c hcz)
  · exact h y hy z hz hly hlz c hcy hcz

end Uses

end List
