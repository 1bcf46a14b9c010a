import GrinPlusPlus.Lib.PostOrder

/-!
# Hashed mountain ranges

A hash of every node of a mountain range, written in the order of
`GrinPlusPlus.Lib.PostOrder`: a leaf is hashed with its position, a parent with its
position and the hashes of its two children.

* `Mountain.Consistent` – the **local conditions**: the entry of a leaf is the hash of
  that leaf, the entry of a parent the hash of its children. Appending a leaf and
  closing a tree keep them (`Mountain.Consistent.push_leaf`,
  `Mountain.Consistent.push_parent`), and so does dropping the last leaves
  (`Mountain.Consistent.take`);
* `Mountain.IsRange` – the local conditions on a file of the size of its leaves. They
  determine the file (`Mountain.IsRange.unique`), and, for a hash without collisions,
  the peaks determine the leaves (`Mountain.IsRange.eq_of_peaks`);
* `Mountain.bag` – the **root** over the peaks, from the last to the first, where an
  empty hash counts as no hash at all, and `Mountain.bagAll`, where it does not.
  `Mountain.bag_injective` and `Mountain.bagAll_injective`: either way it determines the
  peaks, because every hash is tagged with its position.
-/

namespace Mountain

open PostOrder

variable {L H : Type}

/-- What is hashed together with a position: a leaf, or the hashes of two children. -/
abbrev Payload (L H : Type) := L ⊕ H × H

variable (hash : ℕ → Payload L H → H)

/-- The local conditions on a file of hashes over a list of leaves. -/
structure Consistent (file : List H) (ls : List L) : Prop where
  /-- The entry of a leaf is the hash of the leaf. -/
  leaf : ∀ i l, ls[i]? = some l → file[leafPos i]? = some (hash (leafPos i) (.inl l))
  /-- The entry of a parent is the hash of its children. -/
  parent : ∀ p h, p < file.length → height p = h + 1 → ∀ a b, file[p - 2 ^ (h + 1)]? = some a →
    file[p - 1]? = some b → file[p]? = some (hash p (.inr (a, b)))

/-- The local conditions on a file that has the size of its leaves. -/
structure IsRange (file : List H) (ls : List L) : Prop extends Consistent hash file ls where
  /-- The file is closed: it has as many entries as its leaves ask for. -/
  length_eq : file.length = leafPos ls.length

variable {hash} {file file' : List H} {ls ls' : List L}

/-! ### Growing and shrinking -/

theorem isRange_nil : IsRange hash [] [] where
  leaf := by simp
  parent := by simp
  length_eq := rfl

/-- The next leaf of a closed range. -/
theorem Consistent.push_leaf (h : Consistent hash file ls) (hlen : file.length = leafPos ls.length)
    (l : L) : Consistent hash (file ++ [hash file.length (.inl l)]) (ls ++ [l]) where
  leaf := by
    intro i l' hi
    rcases Nat.lt_or_ge i ls.length with hlt | hge
    · rw [List.getElem?_append_left hlt] at hi
      have hpos : leafPos i < file.length := hlen ▸ leafPos_strictMono hlt
      rw [List.getElem?_append_left hpos]
      exact h.leaf i l' hi
    · obtain ⟨hb, -⟩ := List.getElem?_eq_some_iff.mp hi
      rw [List.length_append, List.length_singleton] at hb
      obtain rfl : i = ls.length := by omega
      rw [List.getElem?_concat_length, Option.some_inj] at hi
      rw [← hlen, List.getElem?_concat_length, hi]
  parent := by
    intro p k hp hk a b ha hb
    have hne : p ≠ file.length := by
      rintro rfl
      rw [hlen, height_leafPos] at hk
      omega
    have hplt : p < file.length := by
      rw [List.length_append, List.length_singleton] at hp
      omega
    have hle : p - 2 ^ (k + 1) ≤ p := Nat.sub_le ..
    rw [List.getElem?_append_left (by omega)] at ha hb ⊢
    exact h.parent p k hplt hk a b ha hb

/-- The next parent: the position behind the last entry has a positive height. -/
theorem Consistent.push_parent (h : Consistent hash file ls) {k : ℕ}
    (hk : height file.length = k + 1) {a b : H} (ha : file[file.length - 2 ^ (k + 1)]? = some a)
    (hb : file[file.length - 1]? = some b) :
    Consistent hash (file ++ [hash file.length (.inr (a, b))]) ls where
  leaf := by
    intro i l hi
    have hfile := h.leaf i l hi
    obtain ⟨hlt, -⟩ := List.getElem?_eq_some_iff.mp hfile
    rw [List.getElem?_append_left hlt]
    exact hfile
  parent := by
    intro p j hp hj a' b' ha' hb'
    obtain ⟨hge, -, -⟩ := height_children hj
    have h2 : 0 < 2 ^ j := Nat.two_pow_pos j
    have h3 := two_pow_add_two j
    rw [List.length_append, List.length_singleton] at hp
    rw [List.getElem?_append_left (by omega)] at ha' hb'
    rcases Nat.lt_or_ge p file.length with hlt | hge'
    · rw [List.getElem?_append_left hlt]
      exact h.parent p j hlt hj a' b' ha' hb'
    · obtain rfl : p = file.length := by omega
      obtain rfl : k = j := by omega
      rw [List.getElem?_concat_length, ← Option.some_inj.mp (ha.symm.trans ha'),
        ← Option.some_inj.mp (hb.symm.trans hb')]

/-- Dropping the last leaves, and every node that one of them closed. -/
theorem IsRange.take (h : IsRange hash file ls) (m : ℕ) (hm : m ≤ ls.length) :
    IsRange hash (file.take (leafPos m)) (ls.take m) where
  leaf := by
    intro i l hi
    obtain ⟨hlt, -⟩ := List.getElem?_eq_some_iff.mp hi
    rw [List.length_take] at hlt
    rw [List.getElem?_take_of_lt (by omega)] at hi
    have hpos : leafPos i < leafPos m := leafPos_strictMono (by omega)
    rw [List.getElem?_take_of_lt hpos]
    exact h.leaf i l hi
  parent := by
    intro p k hp hk a b ha hb
    rw [List.length_take] at hp
    have hle : p - 2 ^ (k + 1) ≤ p := Nat.sub_le ..
    rw [List.getElem?_take_of_lt (by omega)] at ha hb ⊢
    exact h.parent p k (by omega) hk a b ha hb
  length_eq := by
    have hle : leafPos m ≤ leafPos ls.length := leafPos_strictMono.monotone hm
    rw [List.length_take, List.length_take, h.length_eq, Nat.min_eq_left hle,
      Nat.min_eq_left hm]

/-! ### The leaves determine the file -/

/-- Below the size, a position is a leaf or a parent whose children are in the file. -/
theorem IsRange.cases (h : IsRange hash file ls) {p : ℕ} (hp : p < file.length) :
    (∃ i l, ls[i]? = some l ∧ p = leafPos i) ∨
      ∃ k a b, height p = k + 1 ∧ p - 2 ^ (k + 1) < p ∧ p - 1 < p ∧
        file[p - 2 ^ (k + 1)]? = some a ∧ file[p - 1]? = some b := by
  rw [h.length_eq] at hp
  obtain ⟨m, hm, h1, h2⟩ := exists_leafPos_le hp
  rcases h1.eq_or_lt with heq | hlt
  · exact .inl ⟨m, ls[m], List.getElem?_eq_getElem hm, heq.symm⟩
  · right
    have hpos := height_pos_of_between hlt h2
    obtain ⟨k, hk⟩ : ∃ k, height p = k + 1 := ⟨height p - 1, by omega⟩
    obtain ⟨hge, -, -⟩ := height_children hk
    have h3 : 0 < 2 ^ k := Nat.two_pow_pos k
    have h4 := two_pow_add_two k
    have hl : p - 2 ^ (k + 1) < file.length := by rw [h.length_eq]; omega
    have hr : p - 1 < file.length := by rw [h.length_eq]; omega
    exact ⟨k, _, _, hk, by omega, by omega, List.getElem?_eq_getElem hl,
      List.getElem?_eq_getElem hr⟩

/-- **The leaves determine the file.** -/
theorem IsRange.unique (h : IsRange hash file ls) (h' : IsRange hash file' ls) : file = file' := by
  have hlen : file.length = file'.length := h.length_eq.trans h'.length_eq.symm
  refine List.ext_getElem? fun p => ?_
  induction p using Nat.strong_induction_on with
  | _ p ih =>
    rcases Nat.lt_or_ge p file.length with hlt | hge
    · rcases h.cases hlt with ⟨i, l, hi, rfl⟩ | ⟨k, a, b, hk, hl, hr, ha, hb⟩
      · rw [h.leaf i l hi, h'.leaf i l hi]
      · rw [h.parent p k hlt hk a b ha hb,
          h'.parent p k (hlen ▸ hlt) hk a b (ih _ hl ▸ ha) (ih _ hr ▸ hb)]
    · rw [List.getElem?_eq_none hge, List.getElem?_eq_none (hlen ▸ hge)]

/-! ### The peaks determine the leaves -/

section Injective

variable (hinj : ∀ p q x y, hash p x = hash q y → p = q ∧ x = y)

include hinj

/-- Two files that agree on a node agree on everything under it. -/
theorem IsRange.agree_under (h : IsRange hash file ls) (h' : IsRange hash file' ls')
    (hlen : ls.length = ls'.length) {q r : ℕ} (hq : q < file.length) (hr : Under r q)
    (heq : file[q]? = file'[q]?) : file[r]? = file'[r]? := by
  have hflen : file.length = file'.length := by rw [h.length_eq, h'.length_eq, hlen]
  induction hk : height q generalizing q with
  | zero =>
    rw [Under, hk] at hr
    obtain rfl : r = q := by omega
    exact heq
  | succ k ih =>
    obtain ⟨hge, hright, hleft⟩ := height_children hk
    have h3 : 0 < 2 ^ k := Nat.two_pow_pos k
    have h4 := two_pow_add_two k
    rw [Under, hk] at hr
    have hl : q - 2 ^ (k + 1) < file.length := by omega
    have hr' : q - 1 < file.length := by omega
    -- The hashes of the node are equal, so those of the children are.
    have hpar := h.parent q k hq hk _ _ (List.getElem?_eq_getElem hl)
      (List.getElem?_eq_getElem hr')
    have hpar' := h'.parent q k (hflen ▸ hq) hk _ _ (List.getElem?_eq_getElem (hflen ▸ hl))
      (List.getElem?_eq_getElem (hflen ▸ hr'))
    rw [hpar, hpar', Option.some_inj] at heq
    have hchild := (hinj _ _ _ _ heq).2
    rw [Sum.inr.injEq, Prod.mk.injEq] at hchild
    rcases hr.2.eq_or_lt with rfl | hlt
    · rw [hpar, hpar', hchild.1, hchild.2]
    · rcases Nat.lt_or_ge (q - 2 ^ (k + 1)) r with hgt | hle
      · refine ih hr' ⟨?_, by omega⟩ ?_ hright
        · rw [hright]
          omega
        · rw [List.getElem?_eq_getElem hr', List.getElem?_eq_getElem (hflen ▸ hr'), hchild.2]
      · refine ih hl ⟨?_, by omega⟩ ?_ hleft
        · rw [hleft]
          omega
        · rw [List.getElem?_eq_getElem hl, List.getElem?_eq_getElem (hflen ▸ hl), hchild.1]

/-- **The peaks determine the leaves**: two ranges of the same size whose peaks agree have
the same leaves. -/
theorem IsRange.eq_of_peaks (h : IsRange hash file ls) (h' : IsRange hash file' ls')
    (hlen : ls.length = ls'.length) {k : ℕ} (hk : ls.length < 2 ^ k)
    (hpeaks : ∀ q ∈ peaksFrom k 0 (leafPos ls.length), file[q]? = file'[q]?) : ls = ls' := by
  refine List.ext_getElem hlen fun i hi hi' => ?_
  have hlt : leafPos i < leafPos ls.length := leafPos_strictMono hi
  obtain ⟨q, hq, hqlt, hu⟩ := exists_peak hk hlt
  have hagree := h.agree_under hinj h' hlen (h.length_eq ▸ hqlt) hu (hpeaks q hq)
  rw [h.leaf i _ (List.getElem?_eq_getElem hi), h'.leaf i _ (List.getElem?_eq_getElem hi'),
    Option.some_inj] at hagree
  exact Sum.inl.inj (hinj _ _ _ _ hagree).2

end Injective

/-! ### Bagging the peaks -/

section Bag

variable [DecidableEq H] (zero : H) (hash) (size : ℕ)

/-- The root over the peaks, from the last to the first; an empty hash counts as none. -/
def bag : List H → H
  | [] => zero
  | a :: as =>
    if a = zero then bag as
    else if bag as = zero then a
    else hash size (.inr (a, bag as))

/-- The root over the peaks where an empty hash counts like any other. -/
def bagAll : List H → H
  | [] => zero
  | a :: as => if bagAll as = zero then a else hash size (.inr (a, bagAll as))

/-- Every entry is a hash with its position. -/
def Tagged (hash : ℕ → Payload L H → H) (p : ℕ) (a : H) : Prop :=
  ∃ x, a = hash p x

variable {zero hash size}

/-- Without empty hashes the two roots are one. -/
theorem bagAll_eq_bag {as : List H} (h : ∀ a ∈ as, a ≠ zero) :
    bagAll hash zero size as = bag hash zero size as := by
  induction as with
  | nil => rfl
  | cons a as ih =>
    rw [bagAll, bag, if_neg (h a (List.mem_cons_self ..)),
      ih fun b hb => h b (List.mem_cons_of_mem a hb)]

omit [DecidableEq H] in
/-- The entries of a range are hashes with their positions. -/
theorem IsRange.tagged (h : IsRange hash file ls) {p : ℕ} {a : H} (ha : file[p]? = some a) :
    Tagged hash p a := by
  obtain ⟨hp, -⟩ := List.getElem?_eq_some_iff.mp ha
  rcases h.cases hp with ⟨i, l, hi, rfl⟩ | ⟨k, b, c, hk, -, -, hb, hc⟩
  · exact ⟨.inl l, Option.some_inj.mp (ha.symm.trans (h.leaf i l hi))⟩
  · exact ⟨.inr (b, c), Option.some_inj.mp (ha.symm.trans (h.parent p k hp hk b c hb hc))⟩

/-- What a root can be: empty, one of the peaks, or a hash of the size with a peak. -/
theorem bag_cases (as : List H) :
    bag hash zero size as = zero ∨ bag hash zero size as ∈ as ∨
      ∃ x ∈ as, ∃ y, bag hash zero size as = hash size (.inr (x, y)) := by
  induction as with
  | nil => exact .inl rfl
  | cons a as ih =>
    rw [bag]
    split
    · rcases ih with h | h | ⟨x, hx, y, h⟩
      · exact .inl h
      · exact .inr (.inl (List.mem_cons_of_mem a h))
      · exact .inr (.inr ⟨x, List.mem_cons_of_mem a hx, y, h⟩)
    · split
      · exact .inr (.inl (List.mem_cons_self ..))
      · exact .inr (.inr ⟨a, List.mem_cons_self .., _, rfl⟩)

omit [DecidableEq H] in
theorem Tagged.unique (hinj : ∀ p q x y, hash p x = hash q y → p = q ∧ x = y) {p q : ℕ} {a : H}
    (hp : Tagged hash p a) (hq : Tagged hash q a) : p = q := by
  obtain ⟨x, rfl⟩ := hp
  obtain ⟨y, hy⟩ := hq
  exact (hinj _ _ _ _ hy).1

section Injective

variable (hinj : ∀ p q x y, hash p x = hash q y → p = q ∧ x = y) {p : ℕ} {ps : List ℕ}
  {as bs : List H} {a b : H}

include hinj

omit [DecidableEq H] in
/-- A hash with another position is not among the peaks. -/
theorem not_mem_of_tagged (hp : p ∉ ps) (has : List.Forall₂ (Tagged hash) ps as)
    (hb : Tagged hash p b) : b ∉ as := by
  intro hin
  induction has with
  | nil => cases hin
  | @cons q a qs as hq _ ih =>
    rcases List.mem_cons.mp hin with rfl | hin
    · exact hp (hb.unique hinj hq ▸ List.mem_cons_self ..)
    · exact ih (fun h => hp (List.mem_cons_of_mem q h)) hin

/-- The root of the peaks behind it is neither a peak nor a hash over it. -/
theorem bag_ne_of_tagged (hp : p ∉ ps) (hps : p ≠ size) (hs : size ∉ ps)
    (has : List.Forall₂ (Tagged hash) ps as) (hb : Tagged hash p b)
    (h0 : bag hash zero size as ≠ zero) :
    bag hash zero size as ≠ b ∧ ∀ y, bag hash zero size as ≠ hash size (.inr (b, y)) := by
  rcases (bag_cases as : bag hash zero size as = zero ∨ _) with h | h | ⟨a, ha, y, h⟩
  · exact absurd h h0
  · refine ⟨fun hb' => not_mem_of_tagged hinj hp has hb (hb' ▸ h), fun y hy => ?_⟩
    exact not_mem_of_tagged hinj hs has ⟨_, hy⟩ h
  · refine ⟨fun hb' => hps (hb.unique hinj ⟨_, hb'.symm.trans h⟩), fun z hz => ?_⟩
    have hpair := (hinj _ _ _ _ (h.symm.trans hz)).2
    rw [Sum.inr.injEq, Prod.mk.injEq] at hpair
    exact not_mem_of_tagged hinj hp has hb (hpair.1 ▸ ha)

/-- An empty peak and another one in the same place give different roots. -/
theorem bag_cons_ne (hp : p ∉ ps) (hps : p ≠ size) (hs : size ∉ ps)
    (has : List.Forall₂ (Tagged hash) ps as) (hz : Tagged hash p zero) (hb : Tagged hash p b)
    (hb0 : b ≠ zero) : bag hash zero size (zero :: as) ≠ bag hash zero size (b :: bs) := by
  rw [bag, if_pos rfl, bag, if_neg hb0]
  by_cases h0 : bag hash zero size as = zero
  · rw [h0]
    split
    · exact hb0.symm
    · exact fun h => hps (hz.unique hinj ⟨_, h⟩)
  · obtain ⟨h1, h2⟩ := bag_ne_of_tagged hinj hp hps hs has hb h0
    split
    · exact h1
    · exact h2 _

/-- **The root determines the peaks.** -/
theorem bag_injective (hnodup : ps.Nodup) (hs : size ∉ ps)
    (has : List.Forall₂ (Tagged hash) ps as) (hbs : List.Forall₂ (Tagged hash) ps bs)
    (heq : bag hash zero size as = bag hash zero size bs) : as = bs := by
  induction has generalizing bs with
  | nil =>
    cases hbs
    rfl
  | @cons p a ps as ha has ih =>
    cases hbs with
    | @cons _ b _ bs hb hbs =>
      rw [List.nodup_cons] at hnodup
      obtain ⟨hp, hnodup⟩ := hnodup
      have hps : p ≠ size := fun h => hs (h ▸ List.mem_cons_self ..)
      have hs' : size ∉ ps := fun h => hs (List.mem_cons_of_mem p h)
      by_cases ha0 : a = zero
      · subst ha0
        by_cases hb0 : b = a
        · subst hb0
          rw [bag, if_pos rfl, bag, if_pos rfl] at heq
          rw [ih hnodup hs' hbs heq]
        · exact absurd heq (bag_cons_ne hinj hp hps hs' has ha hb hb0)
      · by_cases hb0 : b = zero
        · subst hb0
          exact absurd heq.symm (bag_cons_ne hinj hp hps hs' hbs hb ha ha0)
        · rw [bag, if_neg ha0, bag, if_neg hb0] at heq
          by_cases hA : bag hash zero size as = zero
          · rw [if_pos hA] at heq
            by_cases hB : bag hash zero size bs = zero
            · rw [if_pos hB] at heq
              rw [heq, ih hnodup hs' hbs (hA.trans hB.symm)]
            · rw [if_neg hB] at heq
              exact absurd (ha.unique hinj ⟨_, heq⟩) hps
          · rw [if_neg hA] at heq
            by_cases hB : bag hash zero size bs = zero
            · rw [if_pos hB] at heq
              exact absurd (hb.unique hinj ⟨_, heq.symm⟩) hps
            · rw [if_neg hB] at heq
              have hpair := (hinj _ _ _ _ heq).2
              rw [Sum.inr.injEq, Prod.mk.injEq] at hpair
              rw [hpair.1, ih hnodup hs' hbs hpair.2]

end Injective

end Bag

end Mountain
