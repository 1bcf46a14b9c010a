import Mathlib.Data.List.Sort

/-!
# Queues with ranks

Whoever arrives overtakes those of a lower rank, but neither the one in front, who is being served,
nor those of their own rank. So the ranks behind the front descend at all times, and **those of one
rank are served in the order in which they came**, however they are mixed with the others
(`Overtaking.Serves.filter`).
-/

namespace Overtaking

variable {α ρ : Type} [LinearOrder ρ] (rank : α → ρ)

/-- A place is taken behind all who are at least of the same rank. -/
def enter (a : α) (waiting : List α) : List α :=
  waiting.orderedInsert (fun a b => rank b < rank a) a

/-- Someone arrives. The one in front is not overtaken. -/
def arrive (a : α) : List α → List α
  | [] => [a]
  | front :: waiting => front :: enter rank a waiting

variable {rank} {a : α} {waiting : List α}

theorem enter_cons (b : α) : enter rank a (b :: waiting) =
    if rank b < rank a then a :: b :: waiting else b :: enter rank a waiting :=
  List.orderedInsert_cons ..

/-- The ranks descend. -/
abbrev Descends (rank : α → ρ) (waiting : List α) : Prop :=
  waiting.Pairwise fun a b => rank b ≤ rank a

theorem Descends.enter (h : Descends rank waiting) (a : α) :
    Descends rank (enter rank a waiting) := by
  induction waiting with
  | nil => exact List.pairwise_singleton _ _
  | cons b waiting ih =>
    rw [Descends, List.pairwise_cons] at h
    rw [enter_cons]
    split
    · next hlt =>
      refine List.pairwise_cons.2 ⟨fun c hc => ?_, List.pairwise_cons.2 h⟩
      rcases List.mem_cons.1 hc with rfl | hc
      · exact hlt.le
      · exact (h.1 c hc).trans hlt.le
    · next hle =>
      refine List.pairwise_cons.2 ⟨fun c hc => ?_, ih h.2⟩
      rcases (List.mem_orderedInsert _).1 hc with rfl | hc
      · exact not_lt.1 hle
      · exact h.1 c hc

/-- **Nobody overtakes their own rank.** -/
theorem Descends.filter_enter [DecidableEq ρ] (h : Descends rank waiting) (a : α) (r : ρ) :
    (Overtaking.enter rank a waiting).filter (fun b => rank b = r) =
      (waiting ++ [a]).filter fun b => rank b = r := by
  induction waiting with
  | nil => rfl
  | cons b waiting ih =>
    have htail := (List.pairwise_cons.1 h).2
    rw [enter_cons]
    split
    · next hlt =>
      -- everyone behind is of a lower rank
      by_cases hr : rank a = r
      · have hnone : (b :: waiting).filter (fun c => rank c = r) = [] := by
          refine List.filter_eq_nil_iff.2 fun c hc => ?_
          have hle : rank c ≤ rank b := by
            rcases List.mem_cons.1 hc with rfl | hc
            · exact le_rfl
            · exact (List.pairwise_cons.1 h).1 c hc
          rw [decide_eq_true_eq, ← hr]
          exact (hle.trans_lt hlt).ne
        rw [List.filter_append, hnone, List.filter_cons, hnone, List.filter_singleton,
          List.nil_append]
        simp [hr]
      · rw [List.filter_append, List.filter_cons, List.filter_singleton]
        simp [hr]
    · rw [List.cons_append, List.filter_cons, List.filter_cons, ih htail]

/-- Those who are of no higher rank than anyone go to the end. -/
theorem enter_of_le (h : ∀ b ∈ waiting, rank a ≤ rank b) :
    enter rank a waiting = waiting ++ [a] := by
  induction waiting with
  | nil => rfl
  | cons b waiting ih =>
    rw [enter_cons, if_neg (h b List.mem_cons_self).not_gt,
      ih fun c hc => h c (List.mem_cons_of_mem _ hc), List.cons_append]

/-- Ranks that are carried along. -/
theorem map_enter {β : Type} {rank' : β → ρ} {f : α → β} (h : ∀ a, rank' (f a) = rank a) :
    (enter rank a waiting).map f = enter rank' (f a) (waiting.map f) := by
  refine List.map_orderedInsert _ _ f waiting a (fun b _ => ?_) fun b _ => ?_
  · rw [h, h]
  · rw [h, h]

/-- Of those who have arrived, some were served and the others are in the queue. -/
structure Serves [DecidableEq ρ] (rank : α → ρ) (arrived served queue : List α) : Prop where
  /-- Behind the front the ranks descend. -/
  descends : Descends rank queue.tail
  /-- Each rank is served in the order of its arrival. -/
  filter : ∀ r, (served ++ queue).filter (fun a => rank a = r) =
    arrived.filter fun a => rank a = r

namespace Serves

variable [DecidableEq ρ] {arrived served queue : List α}

theorem nil : Serves rank [] [] [] :=
  ⟨List.Pairwise.nil, fun _ => rfl⟩

theorem arrive (h : Serves rank arrived served queue) (a : α) :
    Serves rank (arrived ++ [a]) served (arrive rank a queue) := by
  cases queue with
  | nil =>
    refine ⟨List.Pairwise.nil, fun r => ?_⟩
    rw [Overtaking.arrive, List.filter_append, List.filter_append, ← h.filter r, List.append_nil]
  | cons front waiting =>
    have hdescends : Descends rank waiting := h.descends
    refine ⟨hdescends.enter a, fun r => ?_⟩
    have hfront : (front :: enter rank a waiting).filter (fun b => rank b = r) =
        (front :: waiting ++ [a]).filter fun b => rank b = r := by
      rw [List.cons_append, List.filter_cons, List.filter_cons, hdescends.filter_enter]
    rw [Overtaking.arrive, List.filter_append, hfront, ← List.filter_append, ← List.append_assoc,
      List.filter_append, h.filter r, ← List.filter_append]

theorem serve {front : α} {waiting : List α}
    (h : Serves rank arrived served (front :: waiting)) :
    Serves rank arrived (served ++ [front]) waiting := by
  refine ⟨?_, fun r => ?_⟩
  · have hdescends : Descends rank waiting := h.descends
    cases waiting with
    | nil => exact List.Pairwise.nil
    | cons a waiting => exact (List.pairwise_cons.1 hdescends).2
  · rw [List.append_assoc, List.singleton_append, h.filter r]

/-- **Nobody is lost, and nobody is served twice.** -/
theorem perm (h : Serves rank arrived served queue) : (served ++ queue).Perm arrived := by
  classical
  refine List.perm_iff_count.2 fun a => ?_
  have hcount : ∀ l : List α, List.count a (l.filter fun b => rank b = rank a) = List.count a l :=
    fun l => List.count_filter (decide_eq_true rfl)
  have hfilter := congrArg (List.count a) (h.filter (rank a))
  rwa [hcount, hcount] at hfilter

end Serves

end Overtaking
