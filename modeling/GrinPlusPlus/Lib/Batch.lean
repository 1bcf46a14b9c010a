import Mathlib.Tactic.Common

/-!
# Values that are changed in batches

A value with the copy that was last made permanent. A write changes the value only and
marks it; a commit makes the value permanent, a rollback restores the permanent one. Both
look at the mark first, as the stores they model do: an unmarked value is left alone.

The mark is never wrong, by construction: the field `Batch.clean` says that an unmarked
value is the permanent one. What follows is all that is needed of the mark, namely that it
does not matter (`Batch.commit_committed`, `Batch.rollback_current`), and that a rollback
brings back exactly the value from before the batch (`Batch.rollback_eq`).
-/

/-- A value, its permanent copy, and the mark that the two may differ. -/
structure Batch (α : Type) where
  /-- The permanent copy. -/
  committed : α
  /-- The value. -/
  current : α
  /-- Whether the value was written since the last commit or rollback. -/
  dirty : Bool
  /-- Without the mark the two agree. -/
  clean : dirty = false → current = committed

namespace Batch

variable {α : Type}

/-- A value with nothing pending. -/
def of (a : α) : Batch α :=
  ⟨a, a, false, fun _ => rfl⟩

/-- Change the value. -/
def write (f : α → α) (b : Batch α) : Batch α :=
  ⟨b.committed, f b.current, true, fun h => by cases h⟩

/-- Make the value permanent. -/
def commit (b : Batch α) : Batch α :=
  if b.dirty then of b.current else b

/-- Restore the permanent value. -/
def rollback (b : Batch α) : Batch α :=
  if b.dirty then of b.committed else b

@[simp] theorem of_committed (a : α) : (of a).committed = a := rfl

@[simp] theorem of_current (a : α) : (of a).current = a := rfl

@[simp] theorem of_dirty (a : α) : (of a).dirty = false := rfl

@[simp] theorem write_committed (f : α → α) (b : Batch α) :
    (b.write f).committed = b.committed := rfl

@[simp] theorem write_current (f : α → α) (b : Batch α) :
    (b.write f).current = f b.current := rfl

/-- Nothing is pending. -/
def AtRest (b : Batch α) : Prop :=
  b.dirty = false

theorem eq_of_current_atRest {b : Batch α} (h : b.AtRest) : b = of b.current := by
  obtain ⟨c, a, d, hc⟩ := b
  obtain rfl : d = false := h
  obtain rfl : a = c := hc rfl
  rfl

theorem commit_eq (b : Batch α) : b.commit = of b.current := by
  rw [commit]
  split
  · rfl
  · next h => exact eq_of_current_atRest (Bool.eq_false_iff.mpr h)

theorem rollback_eq_of (b : Batch α) : b.rollback = of b.committed := by
  rw [rollback]
  split
  · rfl
  · next h =>
    have h' : b.dirty = false := Bool.eq_false_iff.mpr h
    rw [← b.clean h']
    exact eq_of_current_atRest h'

@[simp] theorem commit_committed (b : Batch α) : b.commit.committed = b.current := by
  rw [commit_eq]
  rfl

@[simp] theorem commit_current (b : Batch α) : b.commit.current = b.current := by
  rw [commit_eq]
  rfl

@[simp] theorem rollback_committed (b : Batch α) : b.rollback.committed = b.committed := by
  rw [rollback_eq_of]
  rfl

@[simp] theorem rollback_current (b : Batch α) : b.rollback.current = b.committed := by
  rw [rollback_eq_of]
  rfl

@[simp] theorem commit_atRest (b : Batch α) : b.commit.AtRest := by
  rw [commit_eq]
  rfl

@[simp] theorem rollback_atRest (b : Batch α) : b.rollback.AtRest := by
  rw [rollback_eq_of]
  rfl

theorem commit_of_atRest {b : Batch α} (h : b.AtRest) : b.commit = b := by
  rw [commit_eq]
  exact (eq_of_current_atRest h).symm

theorem rollback_of_atRest {b : Batch α} (h : b.AtRest) : b.rollback = b := by
  rw [rollback_eq_of, ← b.clean h]
  exact (eq_of_current_atRest h).symm

@[simp] theorem rollback_commit (b : Batch α) : b.commit.rollback = b.commit :=
  rollback_of_atRest (commit_atRest b)

/-- **A rollback restores the value from before the batch**, whatever was written since. -/
theorem rollback_eq {b b' : Batch α} (hb : b.AtRest) (h : b'.committed = b.committed) :
    b'.rollback = b := by
  rw [rollback_eq_of, h, ← b.clean hb]
  exact (eq_of_current_atRest hb).symm

end Batch
