import Mathlib.Algebra.BigOperators.Group.List.Basic
import Mathlib.Data.List.Perm.Basic
import Mathlib.Tactic.Abel

/-!
# Cutting through

Two lists, of what is spent and of what is created, say, name things by keys. To *cut through*
means to drop from either list what the other one names. As long as no key is in one list twice,

* the two lists have no key in common afterwards (`CutThrough.disjoint`),
* what is dropped from the one list is what is dropped from the other, up to the order
  (`CutThrough.perm_dropped`), so that the difference of their sums stays
  (`CutThrough.sum_sub_sum`),
* **cutting through a part first makes no difference** (`CutThrough.cut_append`).

Both lists are treated alike, so there is one function, and every lemma holds for the other list
with the roles exchanged.
-/

namespace CutThrough

variable {α β κ : Type*} [DecidableEq κ] (f : α → κ) (g : β → κ)

/-- The first list without what the second one names. -/
def cut (as : List α) (bs : List β) : List α :=
  as.filter fun a => !(bs.map g).contains (f a)

/-- What is dropped from the first list. -/
def dropped (as : List α) (bs : List β) : List α :=
  as.filter fun a => (bs.map g).contains (f a)

variable {f g} {as as' : List α} {bs bs' : List β}

theorem mem_cut {a : α} : a ∈ cut f g as bs ↔ a ∈ as ∧ f a ∉ bs.map g := by
  rw [cut, List.mem_filter, Bool.not_eq_true', ← Bool.not_eq_true, List.contains_iff_mem]

theorem mem_dropped {a : α} : a ∈ dropped f g as bs ↔ a ∈ as ∧ f a ∈ bs.map g := by
  rw [dropped, List.mem_filter, List.contains_iff_mem]

theorem cut_sublist : (cut f g as bs).Sublist as :=
  List.filter_sublist

/-- Afterwards, the lists have nothing in common. -/
theorem disjoint {a : α} {b : β} (ha : a ∈ cut f g as bs) (hb : b ∈ cut g f bs as) :
    f a ≠ g b := by
  intro heq
  exact (mem_cut.1 ha).2 (heq ▸ List.mem_map_of_mem (mem_cut.1 hb).1)

theorem cut_eq_self (h : ∀ a ∈ as, ∀ b ∈ bs, f a ≠ g b) : cut f g as bs = as := by
  refine List.filter_eq_self.2 fun a ha => ?_
  rw [Bool.not_eq_true', ← Bool.not_eq_true, List.contains_iff_mem, List.mem_map]
  rintro ⟨b, hb, heq⟩
  exact h a ha b hb heq.symm

theorem cut_perm (ha : as.Perm as') (hb : bs.Perm bs') :
    (cut f g as bs).Perm (cut f g as' bs') := by
  have hkeys : ∀ a, (bs.map g).contains (f a) = (bs'.map g).contains (f a) := by
    intro a
    rw [Bool.eq_iff_iff, List.contains_iff_mem, List.contains_iff_mem, (hb.map g).mem_iff]
  rw [cut, cut]
  simp only [hkeys]
  exact ha.filter _

/-- A key stays among those that are left if it is not among the others. -/
theorem mem_map_cut {k : κ} : k ∈ (cut f g as bs).map f ↔ k ∈ as.map f ∧ k ∉ bs.map g := by
  constructor
  · intro hk
    obtain ⟨a, ha, rfl⟩ := List.mem_map.1 hk
    exact ⟨List.mem_map_of_mem (mem_cut.1 ha).1, (mem_cut.1 ha).2⟩
  · rintro ⟨hk, hnot⟩
    obtain ⟨a, ha, rfl⟩ := List.mem_map.1 hk
    exact List.mem_map_of_mem (mem_cut.2 ⟨ha, hnot⟩)

theorem cut_append_left : cut f g (as ++ as') bs = cut f g as bs ++ cut f g as' bs :=
  List.filter_append _ _

/-- Only the keys of the second list matter, and only those that the first one names. -/
theorem cut_congr (h : ∀ a ∈ as, f a ∈ bs.map g ↔ f a ∈ bs'.map g) :
    cut f g as bs = cut f g as bs' := by
  refine List.filter_congr fun a ha => ?_
  rw [Bool.eq_iff_iff, Bool.not_eq_true', Bool.not_eq_true', ← Bool.not_eq_true,
    ← Bool.not_eq_true, List.contains_iff_mem, List.contains_iff_mem, h a ha]

theorem cut_cut : cut f g (cut f g as bs) bs' = cut f g as (bs ++ bs') := by
  rw [cut, cut, List.filter_filter, cut]
  refine List.filter_congr fun a _ => ?_
  rw [List.map_append, List.contains_append, Bool.not_or, Bool.and_comm]

/-- **Cutting through a part first makes no difference.** -/
theorem cut_append (h : ((as ++ as').map f).Nodup) :
    cut f g (cut f g as bs ++ as') (cut g f bs as ++ bs') = cut f g (as ++ as') (bs ++ bs') := by
  rw [List.map_append] at h
  have hdisjoint := (List.nodup_append.1 h).2.2
  rw [cut_append_left, cut_append_left, cut_cut]
  congr 1
  · refine cut_congr fun a _ => ?_
    simp only [List.map_append, List.mem_append, mem_map_cut]
    tauto
  · -- what the others name of the first part is not named by the second
    refine cut_congr fun a ha => ?_
    have hnot : f a ∉ as.map f := fun hmem =>
      hdisjoint _ hmem _ (List.mem_map_of_mem ha) rfl
    simp only [List.map_append, List.mem_append, mem_map_cut]
    tauto

/-! ### What is dropped -/

/-- **The same keys are dropped from both lists.** -/
theorem perm_dropped (ha : (as.map f).Nodup) (hb : (bs.map g).Nodup) :
    ((dropped f g as bs).map f).Perm ((dropped g f bs as).map g) := by
  have hsub : ((dropped f g as bs).map f).Nodup :=
    ha.sublist (List.filter_sublist.map f)
  have hsub' : ((dropped g f bs as).map g).Nodup :=
    hb.sublist (List.filter_sublist.map g)
  refine (List.perm_ext_iff_of_nodup hsub hsub').2 fun k => ?_
  constructor
  · intro hk
    obtain ⟨a, hmem, rfl⟩ := List.mem_map.1 hk
    obtain ⟨hmem, hkey⟩ := mem_dropped.1 hmem
    obtain ⟨b, hb, heq⟩ := List.mem_map.1 hkey
    exact List.mem_map.2 ⟨b, mem_dropped.2 ⟨hb, heq ▸ List.mem_map_of_mem hmem⟩, heq⟩
  · intro hk
    obtain ⟨b, hmem, rfl⟩ := List.mem_map.1 hk
    obtain ⟨hmem, hkey⟩ := mem_dropped.1 hmem
    obtain ⟨a, ha, heq⟩ := List.mem_map.1 hkey
    exact List.mem_map.2 ⟨a, mem_dropped.2 ⟨ha, heq ▸ List.mem_map_of_mem hmem⟩, heq⟩

variable {A : Type*} [AddCommGroup A] (value : κ → A)

/-- What is dropped and what is left are all there was. -/
theorem sum_dropped_add_sum_cut :
    ((dropped f g as bs).map fun a => value (f a)).sum +
      ((cut f g as bs).map fun a => value (f a)).sum = (as.map fun a => value (f a)).sum := by
  rw [← List.sum_append, ← List.map_append]
  exact ((List.filter_append_perm _ as).map _).sum_eq

/-- **The difference of the sums stays.** -/
theorem sum_sub_sum (ha : (as.map f).Nodup) (hb : (bs.map g).Nodup) :
    ((cut g f bs as).map fun b => value (g b)).sum -
        ((cut f g as bs).map fun a => value (f a)).sum =
      (bs.map fun b => value (g b)).sum - (as.map fun a => value (f a)).sum := by
  have hdropped : ((dropped f g as bs).map fun a => value (f a)).sum =
      ((dropped g f bs as).map fun b => value (g b)).sum := by
    have h := ((perm_dropped ha hb).map value).sum_eq
    rwa [List.map_map, List.map_map] at h
  have hleft : ((dropped f g as bs).map fun a => value (f a)).sum +
      ((cut f g as bs).map fun a => value (f a)).sum = (as.map fun a => value (f a)).sum :=
    sum_dropped_add_sum_cut value
  have hright : ((dropped g f bs as).map fun b => value (g b)).sum +
      ((cut g f bs as).map fun b => value (g b)).sum = (bs.map fun b => value (g b)).sum :=
    sum_dropped_add_sum_cut value
  rw [← hleft, ← hright, hdropped]
  abel

end CutThrough
