import Mathlib.Data.List.Induction

/-!
# Choosing greedily

To *choose greedily* from a list is to go through it once and to keep what fits together with what
was kept before. What is chosen is a sublist (`Greedy.choose_sublist`), each element of it fits
those in front of it (`Greedy.fits_of_choose_eq`), and **an element that is not chosen did not
fit** those that were chosen in front of it (`Greedy.choose_concat`, for a list that ends with it).

Nothing is assumed of what fits: an element that fits a list need not fit a longer or a shorter
one.
-/

namespace Greedy

variable {α : Type*} (fits : List α → α → Bool)

/-- Go through a list with what was kept so far. -/
def extend : List α → List α → List α
  | kept, [] => kept
  | kept, a :: l => if fits kept a then extend (kept ++ [a]) l else extend kept l

/-- What is kept of a list. -/
def choose (l : List α) : List α :=
  extend fits [] l

variable {fits} {kept l l' front : List α} {a : α}

theorem extend_append : extend fits kept (l ++ l') = extend fits (extend fits kept l) l' := by
  induction l generalizing kept with
  | nil => rfl
  | cons a l ih =>
    rw [List.cons_append, extend, extend]
    split_ifs
    · exact ih
    · exact ih

/-- What was kept stays in front, and what is added is a sublist. -/
theorem exists_extend_eq (kept l : List α) :
    ∃ added, extend fits kept l = kept ++ added ∧ added.Sublist l := by
  induction l generalizing kept with
  | nil => exact ⟨[], (List.append_nil _).symm, .slnil⟩
  | cons a l ih =>
    rw [extend]
    split_ifs
    · obtain ⟨added, heq, hsub⟩ := ih (kept ++ [a])
      refine ⟨a :: added, ?_, hsub.cons_cons a⟩
      rw [heq, List.append_assoc, List.singleton_append]
    · obtain ⟨added, heq, hsub⟩ := ih kept
      exact ⟨added, heq, hsub.cons a⟩

theorem choose_sublist : (choose fits l).Sublist l := by
  obtain ⟨added, heq, hsub⟩ := @exists_extend_eq _ fits [] l
  rw [List.nil_append] at heq
  rwa [choose, heq]

theorem choose_append : choose fits (l ++ l') = extend fits (choose fits l) l' :=
  extend_append

/-- **The last element is kept if it fits** what is kept of the others. -/
theorem choose_concat : choose fits (l ++ [a]) =
    if fits (choose fits l) a then choose fits l ++ [a] else choose fits l :=
  choose_append

/-- **What is kept last fits what is kept in front of it.** -/
theorem fits_of_choose_eq (h : choose fits l = front ++ [a]) : fits front a = true := by
  induction l using List.reverseRecOn with
  | nil => exact absurd h.symm (List.concat_ne_nil a front)
  | append_singleton l b ih =>
    rw [choose_concat] at h
    split_ifs at h with hfits
    · obtain ⟨rfl, hb⟩ := List.append_inj' h rfl
      obtain rfl := List.singleton_inj.mp hb
      exact hfits
    · exact ih h

end Greedy
