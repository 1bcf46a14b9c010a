import Mathlib.Data.List.Nodup
import Mathlib.Tactic.Common

/-!
# Hash trees and their proofs

A binary tree whose nodes carry a label that enters their hash, and what a proof of a part of
it binds. A proof is the list of the siblings on the way up from a subtree to the root; the
way itself – the labels, and the sides the siblings are on – is a matter of the shape alone
(`Merkle.Sub`).

Assume that a node's hash determines its children, as `combine` being injective in them says.

* **A proof binds** (`Merkle.climb_injective`): two proofs along the same way that end at the
  same root started from the same hash, and have the same siblings.
* **Proofs of parts bind the whole** (`Merkle.root_eq_of_cover`): when every leaf of a tree
  lies in a subtree that was proved to belong to a root, then that root is the root of the
  tree – even though each proof came with siblings of its own.
-/

namespace Merkle

variable {H : Type}

/-! ### Trees and ways -/

/-- The shape of a hash tree: leaves with a place, nodes with a label. -/
inductive Tree
  | leaf (place : ℕ)
  | node (label : ℕ) (left right : Tree)

/-- The places of the leaves, from left to right. -/
def Tree.places : Tree → List ℕ
  | .leaf place => [place]
  | .node _ left right => left.places ++ right.places

theorem Tree.places_ne_nil (t : Tree) : t.places ≠ [] := by
  induction t with
  | leaf place => exact List.cons_ne_nil _ _
  | node label left right ihl ihr =>
    rw [places]
    exact List.append_ne_nil_of_left_ne_nil ihl _

/-- One step of the way up: the label of the parent, and whether the sibling is its left
child. -/
structure Step where
  /-- The label of the parent. -/
  label : ℕ
  /-- The sibling is on the left. -/
  siblingLeft : Bool
deriving DecidableEq

/-- `Sub t steps s`: from the subtree `s` of `t` the way up is `steps`. -/
inductive Sub : Tree → List Step → Tree → Prop
  | refl (t : Tree) : Sub t [] t
  | left {label : ℕ} {l r s : Tree} {steps : List Step} (h : Sub l steps s) :
      Sub (.node label l r) (steps ++ [⟨label, false⟩]) s
  | right {label : ℕ} {l r s : Tree} {steps : List Step} (h : Sub r steps s) :
      Sub (.node label l r) (steps ++ [⟨label, true⟩]) s

/-- A subtree of a subtree. -/
theorem Sub.trans {t s u : Tree} {steps steps' : List Step} (h : Sub t steps s)
    (h' : Sub s steps' u) : Sub t (steps' ++ steps) u := by
  induction h with
  | refl t => rwa [List.append_nil]
  | left h ih =>
    rw [← List.append_assoc]
    exact .left (ih h')
  | right h ih =>
    rw [← List.append_assoc]
    exact .right (ih h')

theorem Sub.places_subset {t s : Tree} {steps : List Step} (h : Sub t steps s) :
    s.places ⊆ t.places := by
  induction h with
  | refl t => exact List.Subset.refl _
  | left h ih => exact List.Subset.trans ih (List.subset_append_left _ _)
  | right h ih => exact List.Subset.trans ih (List.subset_append_right _ _)

/-- Every place has a way. -/
theorem exists_sub_of_mem {t : Tree} {place : ℕ} (h : place ∈ t.places) :
    ∃ steps, Sub t steps (.leaf place) := by
  induction t with
  | leaf p =>
    rw [Tree.places, List.mem_singleton] at h
    exact ⟨[], h ▸ .refl _⟩
  | node label left right ihl ihr =>
    rcases List.mem_append.mp h with h | h
    · obtain ⟨steps, hs⟩ := ihl h
      exact ⟨_, .left hs⟩
    · obtain ⟨steps, hs⟩ := ihr h
      exact ⟨_, .right hs⟩

/-- **There is one way to a place**, when no place occurs twice. -/
theorem Sub.steps_unique {t : Tree} (ht : t.places.Nodup) {place : ℕ} {steps steps' : List Step}
    (h : Sub t steps (.leaf place)) (h' : Sub t steps' (.leaf place)) : steps = steps' := by
  induction t generalizing steps steps' with
  | leaf p =>
    cases h
    cases h'
    rfl
  | node label left right ihl ihr =>
    have hdisjoint := List.disjoint_of_nodup_append ht
    cases h with
    | left h =>
      cases h' with
      | left h' => rw [ihl ht.of_append_left h h']
      | right h' =>
        exact absurd (h'.places_subset (List.mem_cons_self ..))
          (hdisjoint (h.places_subset (List.mem_cons_self ..)))
    | right h =>
      cases h' with
      | left h' =>
        exact absurd (h.places_subset (List.mem_cons_self ..))
          (hdisjoint (h'.places_subset (List.mem_cons_self ..)))
      | right h' => rw [ihr ht.of_append_right h h']

/-! ### Hashes -/

variable (combine : ℕ → H → H → H)

/-- The root of a tree, from the hashes at its leaves. -/
def root (val : ℕ → H) : Tree → H
  | .leaf place => val place
  | .node label left right => combine label (root val left) (root val right)

/-- The root only looks at the places of the tree. -/
theorem root_congr {val val' : ℕ → H} {t : Tree} (h : ∀ place ∈ t.places, val place = val' place) :
    root combine val t = root combine val' t := by
  induction t with
  | leaf place => exact h place (List.mem_cons_self ..)
  | node label left right ihl ihr =>
    rw [root, root, ihl fun place hplace => h place (List.mem_append_left _ hplace),
      ihr fun place hplace => h place (List.mem_append_right _ hplace)]

/-- One step up. -/
def stepUp (hash : H) (step : Step) (sibling : H) : H :=
  if step.siblingLeft then combine step.label sibling hash else combine step.label hash sibling

/-- The way up with the siblings of a proof: nothing when there are too few, and the siblings
that are left over when there are too many. -/
def climb : List Step → H → List H → Option (H × List H)
  | [], hash, siblings => some (hash, siblings)
  | _ :: _, _, [] => none
  | step :: steps, hash, sibling :: siblings =>
    climb steps (stepUp combine hash step sibling) siblings

variable {combine}

theorem climb_append (steps steps' : List Step) (hash : H) (siblings : List H) :
    climb combine (steps ++ steps') hash siblings =
      (climb combine steps hash siblings).bind fun r => climb combine steps' r.1 r.2 := by
  induction steps generalizing hash siblings with
  | nil => rfl
  | cons step steps ih =>
    cases siblings with
    | nil => rfl
    | cons sibling siblings => exact ih _ _

/-- Siblings behind those that are needed are left over. -/
theorem climb_of_climb {steps : List Step} {hash r : H} {siblings : List H}
    (h : climb combine steps hash siblings = some (r, [])) (more : List H) :
    climb combine steps hash (siblings ++ more) = some (r, more) := by
  induction steps generalizing hash siblings with
  | nil =>
    cases h
    rfl
  | cons step steps ih =>
    cases siblings with
    | nil => cases h
    | cons sibling siblings => exact ih h

/-- The siblings of a way up are its own and the ones of the rest. -/
theorem climb_append_some {steps steps' : List Step} {hash r r' : H} {siblings siblings' : List H}
    (h : climb combine steps hash siblings = some (r, []))
    (h' : climb combine steps' r siblings' = some (r', [])) :
    climb combine (steps ++ steps') hash (siblings ++ siblings') = some (r', []) := by
  rw [climb_append, climb_of_climb h, Option.bind_some, h']

/-- There are proofs of every subtree. -/
theorem Sub.exists_siblings {t s : Tree} {steps : List Step} (h : Sub t steps s) (val : ℕ → H) :
    ∃ siblings, climb combine steps (root combine val s) siblings =
      some (root combine val t, []) := by
  induction h with
  | refl t => exact ⟨[], rfl⟩
  | @left label l r s steps h ih =>
    obtain ⟨siblings, hs⟩ := ih
    exact ⟨siblings ++ [root combine val r], climb_append_some hs rfl⟩
  | @right label l r s steps h ih =>
    obtain ⟨siblings, hs⟩ := ih
    exact ⟨siblings ++ [root combine val l], climb_append_some hs rfl⟩

/-- **A proof of a part proves its leaves**: the way from a leaf of the part starts in the
part and goes on along the way of the proof. -/
theorem exists_climb_leaf {t s : Tree} (ht : t.places.Nodup) {steps leafSteps : List Step}
    (hs : Sub t steps s) {place : ℕ} (hplace : place ∈ s.places)
    (hleaf : Sub t leafSteps (.leaf place)) {val : ℕ → H} {siblings : List H} {r : H}
    (hclimb : climb combine steps (root combine val s) siblings = some (r, [])) :
    ∃ siblings', climb combine leafSteps (val place) siblings' = some (r, []) := by
  obtain ⟨inner, hinner⟩ := exists_sub_of_mem hplace
  obtain ⟨siblings', hsiblings⟩ : ∃ siblings', climb combine inner (val place) siblings' =
      some (root combine val s, []) := hinner.exists_siblings val
  rw [hleaf.steps_unique ht (hs.trans hinner)]
  exact ⟨siblings' ++ siblings, climb_append_some hsiblings hclimb⟩

/-! ### Binding -/

/-- The hash of a node determines its children. -/
def Binding (combine : ℕ → H → H → H) : Prop :=
  ∀ i a b c d, combine i a b = combine i c d → a = c ∧ b = d

theorem stepUp_injective (hc : Binding combine) {step : Step} {hash hash' sibling sibling' : H}
    (h : stepUp combine hash step sibling = stepUp combine hash' step sibling') :
    hash = hash' ∧ sibling = sibling' := by
  rw [stepUp, stepUp] at h
  split at h
  · exact (hc _ _ _ _ _ h).symm
  · exact hc _ _ _ _ _ h

/-- **A proof binds**: along one way to one root there is one start and one proof. -/
theorem climb_injective (hc : Binding combine) {steps : List Step} {hash hash' r : H}
    {siblings siblings' : List H} (h : climb combine steps hash siblings = some (r, []))
    (h' : climb combine steps hash' siblings' = some (r, [])) :
    hash = hash' ∧ siblings = siblings' := by
  induction steps generalizing hash hash' siblings siblings' with
  | nil =>
    cases h
    cases h'
    exact ⟨rfl, rfl⟩
  | cons step steps ih =>
    cases siblings with
    | nil => cases h
    | cons sibling siblings =>
      cases siblings' with
      | nil => cases h'
      | cons sibling' siblings' =>
        obtain ⟨hstep, hrest⟩ := ih h h'
        obtain ⟨hhash, hsibling⟩ := stepUp_injective hc hstep
        exact ⟨hhash, by rw [hsibling, hrest]⟩

/-- The last step of a way up. -/
theorem climb_concat {steps : List Step} {step : Step} {hash r : H} {siblings : List H}
    (h : climb combine (steps ++ [step]) hash siblings = some (r, [])) :
    ∃ front sibling below, climb combine steps hash front = some (below, []) ∧
      r = stepUp combine below step sibling := by
  induction steps generalizing hash siblings with
  | nil =>
    cases siblings with
    | nil => cases h
    | cons sibling siblings =>
      cases h
      exact ⟨[], sibling, hash, rfl, rfl⟩
  | cons s steps ih =>
    cases siblings with
    | nil => cases h
    | cons sibling siblings =>
      obtain ⟨front, last, below, hfront, hr⟩ := ih h
      exact ⟨sibling :: front, last, below, hfront, hr⟩

/-- The subtree was proved to belong to the root `r`. -/
def Proved (combine : ℕ → H → H → H) (val : ℕ → H) (t s : Tree) (r : H) : Prop :=
  ∃ steps siblings, Sub t steps s ∧
    climb combine steps (root combine val s) siblings = some (r, [])

/-- What a proof of a subtree of a node says: it is a proof of the node itself, or of a
subtree of one of its children, whose hash is then a child of the root. -/
theorem Proved.cases {val : ℕ → H} {label : ℕ} {left right s : Tree} {r : H}
    (h : Proved combine val (.node label left right) s r) :
    r = root combine val (.node label left right) ∨
      (∃ a b, r = combine label a b ∧ Proved combine val left s a ∧ s.places ⊆ left.places) ∨
      ∃ a b, r = combine label a b ∧ Proved combine val right s b ∧ s.places ⊆ right.places := by
  obtain ⟨steps, siblings, hsub, hclimb⟩ := h
  cases hsub with
  | refl =>
    rw [climb] at hclimb
    cases hclimb
    exact .inl rfl
  | left hsub =>
    obtain ⟨front, sibling, below, hbelow, hr⟩ := climb_concat hclimb
    exact .inr (.inl ⟨below, sibling, hr, ⟨_, front, hsub, hbelow⟩, hsub.places_subset⟩)
  | right hsub =>
    obtain ⟨front, sibling, below, hbelow, hr⟩ := climb_concat hclimb
    exact .inr (.inr ⟨sibling, below, hr, ⟨_, front, hsub, hbelow⟩, hsub.places_subset⟩)

/-- **Proofs of parts bind the whole.** -/
theorem root_eq_of_cover (hc : Binding combine) {val : ℕ → H} {t : Tree} (ht : t.places.Nodup)
    {r : H} (hcover : ∀ place ∈ t.places, ∃ s, place ∈ s.places ∧ Proved combine val t s r) :
    root combine val t = r := by
  induction t generalizing r with
  | leaf place =>
    obtain ⟨s, -, steps, siblings, hsub, hclimb⟩ := hcover place (List.mem_cons_self ..)
    cases hsub
    rw [climb] at hclimb
    cases hclimb
    rfl
  | node label left right ihl ihr =>
    by_cases hself : r = root combine val (.node label left right)
    · exact hself.symm
    · have hdisjoint := List.disjoint_of_nodup_append ht
      -- A place on one side is covered by a subtree of that side.
      have hleft : ∀ place ∈ left.places, ∃ s a b, place ∈ s.places ∧ r = combine label a b ∧
          Proved combine val left s a := by
        rintro place hplace
        obtain ⟨s, hs, hproved⟩ := hcover place (List.mem_append_left _ hplace)
        rcases hproved.cases with heq | ⟨a, b, hr, hp, -⟩ | ⟨a, b, -, -, hsub⟩
        · exact absurd heq hself
        · exact ⟨s, a, b, hs, hr, hp⟩
        · exact absurd (hsub hs) (hdisjoint hplace)
      have hright : ∀ place ∈ right.places, ∃ s a b, place ∈ s.places ∧ r = combine label a b ∧
          Proved combine val right s b := by
        rintro place hplace
        obtain ⟨s, hs, hproved⟩ := hcover place (List.mem_append_right _ hplace)
        rcases hproved.cases with heq | ⟨a, b, -, -, hsub⟩ | ⟨a, b, hr, hp, -⟩
        · exact absurd heq hself
        · exact absurd hplace (hdisjoint (hsub hs))
        · exact ⟨s, a, b, hs, hr, hp⟩
      -- All of them name the same children of the root.
      obtain ⟨p, hp⟩ := List.exists_mem_of_ne_nil _ left.places_ne_nil
      obtain ⟨-, a, b, -, hr, -⟩ := hleft p hp
      have hl : root combine val left = a := by
        refine ihl ht.of_append_left fun place hplace => ?_
        obtain ⟨s, a', b', hs, hr', hproved⟩ := hleft place hplace
        rw [hr] at hr'
        exact ⟨s, hs, (hc _ _ _ _ _ hr').1 ▸ hproved⟩
      have hrr : root combine val right = b := by
        refine ihr ht.of_append_right fun place hplace => ?_
        obtain ⟨s, a', b', hs, hr', hproved⟩ := hright place hplace
        rw [hr] at hr'
        exact ⟨s, hs, (hc _ _ _ _ _ hr').2 ▸ hproved⟩
      rw [root, hl, hrr, hr]

end Merkle
