import GrinPlusPlus.Lib.Cycle
import GrinPlusPlus.Lib.Exec
import GrinPlusPlus.Pow.PowValidator

/-!
# The cycle verifiers

`verify_cuckatoo`, `verify_cuckaroo`, `verify_cuckarooz` and `verify_cuckaroom`: a proof of work
is a list of 42 edges of a graph that is generated from the header, and is right if these edges
form one cycle.

All four read the edges first (`GrinPlusPlus.readEdges`) and compare what the ends add up to; then
they follow the cycle from the first edge (`GrinPlusPlus.followCycle`, and
`GrinPlusPlus.followEdges` for the directed graph of `verify_cuckaroom`). How SipHash assigns ends
to an edge plays no part in this: it is an argument, `ends`.

**They accept the cycles, and nothing else** (`GrinPlusPlus.verify_exact`). The sums are no
condition of their own – the words that meet cancel in pairs, and in `verify_cuckatoo`, where they
differ in one bit, this bit is there 21 times on either side – and the loops end.
-/

namespace GrinPlusPlus

/-- `verify_code`. -/
inductive VerifyCode
  | powOk
  | powHeaderLength
  | powTooBig
  | powTooSmall
  | powNonMatching
  | powBranch
  | powDeadEnd
  | powShortCycle
  | powUnbalanced
deriving DecidableEq

/-! ### Reading the edges -/

/-- `edgeMask` of a size of the graph. -/
def edgeMaskOf (edgeBits : UInt8) : UInt64 :=
  (1 <<< edgeBits.toUInt64) - 1

/-- The first loop of the verifiers, over the edges behind `previous`. What it does with an edge
that is in order is `push`. -/
def readEdges {σ : Type} (edgeMask : UInt64) (push : σ → UInt64 → σ) :
    Option UInt64 → σ → List UInt64 → Except VerifyCode σ
  | _, s, [] => .ok s
  | previous, s, edge :: edges =>
    if edgeMask < edge then .error .powTooBig
    else if previous.any fun p => decide (edge ≤ p) then .error .powTooSmall
    else readEdges edgeMask push (some edge) (push s edge) edges

/-- The edges are edges of the graph, and ascend. -/
structure Ascending (edgeMask : UInt64) (edges : List UInt64) : Prop where
  /-- They are edges of the graph. -/
  le : ∀ edge ∈ edges, edge ≤ edgeMask
  /-- They ascend. -/
  pairwise : edges.Pairwise (· < ·)

section ReadEdges

variable {σ : Type} {edgeMask : UInt64} {push : σ → UInt64 → σ}

theorem readEdges_error {previous : Option UInt64} {s : σ} {edges : List UInt64}
    {code : VerifyCode} (h : readEdges edgeMask push previous s edges = .error code) :
    code ≠ .powOk := by
  induction edges generalizing previous s with
  | nil => cases h
  | cons edge edges ih =>
    rw [readEdges] at h
    split_ifs at h with hbig hsmall
    · rintro rfl
      cases h
    · rintro rfl
      cases h
    · exact ih h

theorem readEdges_some {p : UInt64} {s s' : σ} {edges : List UInt64} :
    readEdges edgeMask push (some p) s edges = .ok s' ↔
      (∀ edge ∈ edges, edge ≤ edgeMask) ∧ (p :: edges).IsChain (· < ·) ∧
        s' = edges.foldl push s := by
  induction edges generalizing p s with
  | nil => simp [readEdges, eq_comm]
  | cons edge edges ih =>
    rw [readEdges, Option.any_some, List.isChain_cons_cons, List.forall_mem_cons]
    split_ifs with hbig hsmall
    · have hnot : ¬ edge ≤ edgeMask := fun hle => UInt64.not_lt.2 hle hbig
      simp [hnot]
    · have hnot : ¬ p < edge := UInt64.not_lt.2 (by simpa using hsmall)
      simp [hnot]
    · have hle : edge ≤ edgeMask := UInt64.not_lt.1 hbig
      have hlt : p < edge := by
        rw [decide_eq_true_eq] at hsmall
        exact UInt64.not_le.1 hsmall
      simp only [ih, hle, hlt, true_and, List.foldl_cons]

/-- **The loop reads the edges to the end if they ascend within the graph.** -/
theorem readEdges_eq_ok_iff {s s' : σ} {edges : List UInt64} :
    readEdges edgeMask push none s edges = .ok s' ↔
      Ascending edgeMask edges ∧ s' = edges.foldl push s := by
  have htrans : IsTrans UInt64 (· < ·) := ⟨fun _ _ _ => UInt64.lt_trans⟩
  cases edges with
  | nil =>
    have hasc : Ascending edgeMask [] := ⟨by simp, .nil⟩
    simp [readEdges, eq_comm, hasc]
  | cons edge edges =>
    have hasc : Ascending edgeMask (edge :: edges) ↔ edge ≤ edgeMask ∧
        (∀ e ∈ edges, e ≤ edgeMask) ∧ (edge :: edges).IsChain (· < ·) := by
      rw [List.isChain_iff_pairwise, ← and_assoc]
      exact ⟨fun h => ⟨List.forall_mem_cons.1 h.le, h.pairwise⟩,
        fun h => ⟨List.forall_mem_cons.2 h.1, h.2⟩⟩
    rw [readEdges, Option.any_none, hasc]
    split_ifs with hbig hfalse
    · have hnot : ¬ edge ≤ edgeMask := fun hle => UInt64.not_lt.2 hle hbig
      simp [hnot]
    · exact hfalse.elim
    · have hle : edge ≤ edgeMask := UInt64.not_lt.1 hbig
      simp only [readEdges_some, hle, true_and, and_assoc, List.foldl_cons]

end ReadEdges

/-! ### Following the cycle -/

/-- The search for another end that meets the end `i`, from behind `k` on, where `j` is the one
that was found – or `i`, as long as there is none. The ends that are looked at are `step` apart. -/
def findOther (step : ℕ) (meets : ℕ → Bool) (i : ℕ) :
    ℕ → ℕ → ℕ → Except Exc (Except VerifyCode ℕ)
  | 0, _, _ => .error .hang
  | rounds + 1, k, j =>
    let k := (k + step) % (2 * proofSize)
    if k = i then .ok (.ok j)
    else if meets k then
      if j ≠ i then .ok (.error .powBranch)
      else findOther step meets i rounds k k
    else findOther step meets i rounds k j

/-- The second loop, from the end `i` of edge number `n` on. Which ends meet is `meets`, and
`fits` is what the one that was found has to fulfil. -/
def followCycle (step : ℕ) (meets fits : ℕ → ℕ → Bool) : ℕ → ℕ → ℕ → Except Exc VerifyCode
  | 0, _, _ => .error .hang
  | rounds + 1, n, i => do
    match ← findOther step (fun k => meets k i) i (2 * proofSize) i i with
    | .error code => .ok code
    | .ok j =>
      if j = i || !fits j i then .ok .powDeadEnd
      else
        let i := j ^^^ 1
        if i ≠ 0 then followCycle step meets fits rounds (n + 1) i
        else if n + 1 = proofSize then .ok .powOk
        else .ok .powShortCycle

section FollowCycle

variable {step : ℕ} {i : ℕ} {meets : ℕ → Bool}

/-- The ends that have been looked at after `r` rounds. -/
def Seen (step i r z : ℕ) : Prop :=
  ∃ q, 0 < q ∧ q ≤ r ∧ z = (i + q * step) % (2 * proofSize)

/-- What has been found after `r` rounds. -/
structure FoundAt (step i : ℕ) (meets : ℕ → Bool) (r j : ℕ) : Prop where
  /-- Only one end that meets has been seen. -/
  unique : ∀ z, Seen step i r z → meets z → z = j
  /-- It is the one that was found. -/
  seen : j ≠ i → Seen step i r j ∧ meets j

/-- The ends that are looked at differ, before the search comes round. -/
theorem mod_inj {rounds a b : ℕ} (hrounds : rounds * step = 2 * proofSize)
    (ha : a < rounds) (hb : b < rounds)
    (h : (i + a * step) % (2 * proofSize) = (i + b * step) % (2 * proofSize)) : a = b := by
  have hstep : 0 < step := Nat.pos_of_ne_zero fun h0 => by
    rw [h0, Nat.mul_zero] at hrounds
    cases hrounds
  have ha' := Nat.mul_lt_mul_of_pos_right ha hstep
  have hb' := Nat.mul_lt_mul_of_pos_right hb hstep
  rw [hrounds] at ha' hb'
  refine Nat.eq_of_mul_eq_mul_right hstep ?_
  unfold proofSize at *
  omega

theorem Seen.ne {rounds r z : ℕ} (hrounds : rounds * step = 2 * proofSize)
    (hi : i < 2 * proofSize) (hr : r < rounds) (h : Seen step i r z) : z ≠ i := by
  obtain ⟨q, hpos, hq, rfl⟩ := h
  intro heq
  have hzero : (i + q * step) % (2 * proofSize) = (i + 0 * step) % (2 * proofSize) := by
    rw [heq, Nat.zero_mul, Nat.add_zero, Nat.mod_eq_of_lt hi]
  have := mod_inj hrounds (by omega) (by omega) hzero
  omega

theorem seen_succ {r z : ℕ} : Seen step i (r + 1) z ↔
    Seen step i r z ∨ z = (i + (r + 1) * step) % (2 * proofSize) := by
  constructor
  · rintro ⟨q, hpos, hq, rfl⟩
    rcases Nat.lt_or_ge r q with hlt | hle
    · rw [show q = r + 1 by omega]
      exact .inr rfl
    · exact .inl ⟨q, hpos, hle, rfl⟩
  · rintro (⟨q, hpos, hq, rfl⟩ | rfl)
    · exact ⟨q, hpos, by omega, rfl⟩
    · exact ⟨r + 1, by omega, le_rfl, rfl⟩

/-- **The search comes round**, and tells whether there is one other end that meets. -/
theorem findOther_spec {all : ℕ} (hall : all * step = 2 * proofSize) (hi : i < 2 * proofSize) :
    ∀ (rounds r j : ℕ), r < all → all ≤ r + rounds → FoundAt step i meets r j →
      ∃ res, findOther step meets i rounds ((i + r * step) % (2 * proofSize)) j = .ok res ∧
        ((∃ y, res = .ok y ∧ FoundAt step i meets (all - 1) y) ∨
          res = .error .powBranch ∧ ∃ y z, y ≠ z ∧ (Seen step i (all - 1) y ∧ meets y) ∧
            Seen step i (all - 1) z ∧ meets z) := by
  intro rounds
  induction rounds with
  | zero => omega
  | succ rounds ih =>
    intro r j hr hrounds hfound
    have hnext : ((i + r * step) % (2 * proofSize) + step) % (2 * proofSize) =
        (i + (r + 1) * step) % (2 * proofSize) := by
      rw [Nat.mod_add_mod, Nat.add_assoc, ← Nat.succ_mul]
    rw [findOther]
    simp only [hnext]
    rcases Nat.lt_or_ge (r + 1) all with hlt | hge
    · have hseen : Seen step i (r + 1) ((i + (r + 1) * step) % (2 * proofSize)) :=
        seen_succ.2 (.inr rfl)
      rw [if_neg (hseen.ne hall hi hlt)]
      by_cases hmeets : meets ((i + (r + 1) * step) % (2 * proofSize))
      · rw [if_pos hmeets]
        by_cases hj : j = i
        · rw [if_neg (not_not.2 hj)]
          refine ih (r + 1) _ hlt (by omega) ⟨fun z hz hzmeets => ?_, fun _ => ⟨hseen, hmeets⟩⟩
          rcases seen_succ.1 hz with hz | rfl
          · exact absurd ((hfound.unique z hz hzmeets).trans hj) (hz.ne hall hi (by omega))
          · rfl
        · rw [if_pos hj]
          obtain ⟨⟨q, hpos, hq, rfl⟩, hjmeets⟩ := hfound.seen hj
          refine ⟨_, rfl, .inr ⟨rfl, _, _, ?_, ⟨⟨q, hpos, by omega, rfl⟩, hjmeets⟩,
            ⟨r + 1, by omega, by omega, rfl⟩, hmeets⟩⟩
          intro heq
          have := mod_inj hall (by omega) hlt heq
          omega
      · rw [if_neg hmeets]
        refine ih (r + 1) _ hlt (by omega) ⟨fun z hz hzmeets => ?_, fun hj => ?_⟩
        · rcases seen_succ.1 hz with hz | rfl
          · exact hfound.unique z hz hzmeets
          · exact absurd hzmeets hmeets
        · exact ⟨seen_succ.2 (.inl (hfound.seen hj).1), (hfound.seen hj).2⟩
    · have hround : (i + (r + 1) * step) % (2 * proofSize) = i := by
        rw [show r + 1 = all by omega, hall, Nat.add_mod_right, Nat.mod_eq_of_lt hi]
      rw [if_pos hround]
      refine ⟨_, rfl, .inl ⟨j, rfl, ?_⟩⟩
      rwa [show all - 1 = r by omega]

/-- In the end, all other ends on the way have been seen. -/
theorem seen_iff {all z : ℕ} (hall : all * step = 2 * proofSize) (hi : i < 2 * proofSize) :
    Seen step i (all - 1) z ↔ z < 2 * proofSize ∧ z ≠ i ∧ z % step = i % step := by
  have hpos : 0 < all := Nat.pos_of_ne_zero fun h0 => by
    rw [h0, Nat.zero_mul] at hall
    cases hall
  have hdvd : step ∣ 2 * proofSize := ⟨all, by rw [← hall, Nat.mul_comm]⟩
  constructor
  · intro hz
    refine ⟨?_, hz.ne hall hi (by omega), ?_⟩
    · obtain ⟨q, -, -, rfl⟩ := hz
      exact Nat.mod_lt _ (by decide)
    · obtain ⟨q, -, -, rfl⟩ := hz
      rw [Nat.mod_mod_of_dvd _ hdvd, Nat.add_mul_mod_self_right]
  · rintro ⟨hz, hne, hmod⟩
    have hmod' : i ≡ z + 2 * proofSize [MOD step] := by
      rw [Nat.ModEq, Nat.add_mod, Nat.mod_eq_zero_of_dvd hdvd, Nat.add_zero, Nat.mod_mod, hmod]
    -- the way from `i` on to `z`
    have hway : step ∣ (z + 2 * proofSize - i) % (2 * proofSize) :=
      (Nat.dvd_mod_iff hdvd).2 ((Nat.modEq_iff_dvd' (by omega)).1 hmod')
    obtain ⟨q, hq⟩ := hway
    rw [Nat.mul_comm step q] at hq
    have hback : (i + q * step) % (2 * proofSize) = z := by
      rw [← hq]
      unfold proofSize at *
      omega
    have hlt : q * step < all * step := by
      rw [hall, ← hq]
      exact Nat.mod_lt _ (by decide)
    have hqlt : q < all := Nat.lt_of_mul_lt_mul_right hlt
    refine ⟨q, Nat.pos_of_ne_zero ?_, by omega, hback.symm⟩
    rintro rfl
    rw [Nat.zero_mul, Nat.add_zero, Nat.mod_eq_of_lt hi] at hback
    exact hne hback.symm

/-- **The search finds the mate of an end**, if it has one. -/
theorem findOther_eq {κ : Type} {key : ℕ → κ} {all : ℕ} (hall : all * step = 2 * proofSize)
    (hi : i < 2 * proofSize)
    (hkey : ∀ z, key z = key i ↔ z % step = i % step ∧ meets z) :
    ∃ res, findOther step meets i (2 * proofSize) i i = .ok res ∧ res ≠ .error .powOk ∧
      ∀ y, res = .ok y ∧ y ≠ i ↔ Cycle.Mate proofSize key i y := by
  have hpos : 0 < all := Nat.pos_of_ne_zero fun h0 => by
    rw [h0, Nat.zero_mul] at hall
    cases hall
  have hle : all ≤ 2 * proofSize := Nat.le_of_dvd (by decide) ⟨step, hall.symm⟩
  have hstart : FoundAt step i meets 0 i :=
    ⟨fun z ⟨q, hpos, hq, _⟩ => by omega, fun h => absurd rfl h⟩
  obtain ⟨res, hres, hspec⟩ := findOther_spec hall hi (2 * proofSize) 0 i hpos (by omega) hstart
  rw [Nat.zero_mul, Nat.add_zero, Nat.mod_eq_of_lt hi] at hres
  have hmeets : ∀ z, Seen step i (all - 1) z ∧ meets z ↔
      z < 2 * proofSize ∧ z ≠ i ∧ key z = key i := by
    intro z
    rw [seen_iff hall hi, hkey]
    simp only [and_assoc]
  refine ⟨res, hres, ?_, fun y => ?_⟩
  · rcases hspec with ⟨y, rfl, -⟩ | ⟨rfl, -⟩ <;> simp
  · rcases hspec with ⟨j, rfl, hfound⟩ | ⟨rfl, a, b, hab, ha, hb⟩
    · constructor
      · rintro ⟨hj, hne⟩
        obtain rfl : j = y := by simpa using hj
        obtain ⟨hlt, -, heq⟩ := (hmeets j).1 (hfound.seen hne)
        refine ⟨hlt, hne, heq, fun z hz hzne hzkey => ?_⟩
        have hzseen := (hmeets z).2 ⟨hz, hzne, hzkey⟩
        exact hfound.unique z hzseen.1 hzseen.2
      · intro hy
        have hyseen := (hmeets y).2 ⟨hy.lt, hy.ne, hy.key_eq⟩
        rw [hfound.unique y hyseen.1 hyseen.2] at hy ⊢
        exact ⟨rfl, hy.ne⟩
    · constructor
      · rintro ⟨⟨⟩, -⟩
      · -- there are two of them
        intro hy
        have hy' : ∀ z, Seen step i (all - 1) z ∧ meets z → z = y := fun z hz =>
          hy.unique z ((hmeets z).1 hz).1 ((hmeets z).1 hz).2.1 ((hmeets z).1 hz).2.2
        exact absurd ((hy' a ha).trans (hy' b hb).symm) hab

/-- **Following the cycle ends, and ends well on a walk that is back after all edges.** -/
theorem followCycle_spec {κ : Type} {key : ℕ → κ} {meets fits : ℕ → ℕ → Bool} {all : ℕ}
    (hall : all * step = 2 * proofSize)
    (hkey : ∀ i z, key z = key i ↔ z % step = i % step ∧ meets z i) :
    ∀ (rounds n : ℕ) (p : ℕ → ℕ), proofSize < n + rounds →
      Cycle.Steps proofSize key (fun y z => fits z y) n p → (0 < n → p n ≠ 0) →
      ∃ code, followCycle step meets fits rounds n (p n) = .ok code ∧
        (code = .powOk ↔ ∃ q, Cycle.Steps proofSize key (fun y z => fits z y) proofSize q ∧
          q proofSize = 0) := by
  have hN : 0 < proofSize := by decide
  intro rounds
  induction rounds with
  | zero =>
    intro n p hrounds hp
    have := hp.le hN
    omega
  | succ rounds ih =>
    intro n p hrounds hp haway
    -- a walk that is back after all edges has gone on from here
    have hon : ∀ q, Cycle.Steps proofSize key (fun y z => fits z y) proofSize q →
        q proofSize = 0 → n < proofSize ∧ Cycle.Step proofSize key (fun y z => fits z y) (p n)
          (q (n + 1)) := by
      intro q hq hback
      have hlt : n < proofSize := by
        refine Nat.lt_of_le_of_ne (hp.le hN) fun heq => ?_
        refine haway (by omega) ?_
        rw [hp.unique hq n le_rfl heq.le, heq, hback]
      rw [hp.unique hq n le_rfl hlt.le]
      exact ⟨hlt, hq.step n hlt⟩
    obtain ⟨res, hres, hok, hmate⟩ := @findOther_eq _ _ (fun k => meets k (p n)) _ key _
      hall (hp.lt hN le_rfl) (hkey (p n))
    rw [followCycle, hres, Exec.ok_bind]
    cases res with
    | error code =>
      refine ⟨code, rfl, ?_⟩
      constructor
      · rintro rfl
        exact absurd rfl hok
      · rintro ⟨q, hq, hback⟩
        obtain ⟨y, hy, -⟩ := (hon q hq hback).2
        obtain ⟨⟨⟩, -⟩ := (hmate y).2 hy
    | ok j =>
      dsimp only
      by_cases hdead : (j = p n || !fits j (p n)) = true
      · -- no other end meets, or it does not fit
        rw [if_pos hdead]
        refine ⟨_, rfl, by simp, ?_⟩
        rintro ⟨q, hq, hback⟩
        obtain ⟨y, hy, hfits, -⟩ := (hon q hq hback).2
        obtain ⟨hj, hne⟩ := (hmate y).2 hy
        obtain rfl : j = y := by simpa using hj
        simp [hne, hfits] at hdead
      rw [if_neg hdead]
      obtain ⟨hne, hfits⟩ : j ≠ p n ∧ fits j (p n) := by simpa using hdead
      have hj := (hmate j).1 ⟨rfl, hne⟩
      have hsnoc := hp.snoc haway ⟨j, hj, hfits, rfl⟩
      by_cases hzero : j ^^^ 1 = 0
      · rw [if_neg (not_not.2 hzero)]
        by_cases hfull : n + 1 = proofSize
        · rw [if_pos hfull]
          refine ⟨_, rfl, fun _ => ⟨_, hfull ▸ hsnoc, ?_⟩, fun _ => rfl⟩
          rw [← hfull, Function.update_self]
          exact hzero
        · -- a walk of all edges would have come back too early
          rw [if_neg hfull]
          refine ⟨_, rfl, by simp, ?_⟩
          rintro ⟨q, hq, hback⟩
          obtain ⟨hlt, y, hy, -, hq'⟩ := hon q hq hback
          rw [hy.eq hj] at hq'
          exact absurd (hq'.trans hzero) (hq.away (n + 1) (Nat.succ_pos n) (by omega))
      · rw [if_pos hzero]
        have hih := ih (n + 1) _ (by omega) hsnoc fun _ => by
          rw [Function.update_self]
          exact hzero
        rwa [Function.update_self] at hih

end FollowCycle

/-! ### Following directed edges -/

/-- The second loop of `verify_cuckaroom`, from the edge `i`, the edge number `n`, on: it goes on
with the first edge that begins where the edge `i` ends. -/
def followEdges (fromNodes toNodes : List UInt64) :
    ℕ → List Bool → ℕ → ℕ → Except Exc VerifyCode
  | 0, _, _, _ => .error .hang
  | rounds + 1, visited, n, i =>
    if visited.getD i false then .ok .powBranch
    else
      match fromNodes.findIdx? fun u => u = toNodes.getD i 0 with
      | none => .ok .powDeadEnd
      | some nexti =>
        if nexti ≠ 0 then followEdges fromNodes toNodes rounds (visited.set i true) (n + 1) nexti
        else if n + 1 = proofSize then .ok .powOk
        else .ok .powShortCycle

section FollowEdges

variable {fromNodes toNodes : List UInt64}

/-- The search finds an edge that goes on. -/
theorem finds_findIdx? (hlen : fromNodes.length = proofSize) :
    Cycle.Finds proofSize (fun e => fromNodes.getD e 0) (fun e => toNodes.getD e 0)
      (fun e => fromNodes.findIdx? fun u => u = toNodes.getD e 0) where
  lt e e' h := by
    obtain ⟨hlt, -⟩ := List.findIdx?_eq_some_iff_getElem.1 h
    rwa [← hlen]
  meets e e' h := by
    obtain ⟨hlt, heq, -⟩ := List.findIdx?_eq_some_iff_getElem.1 h
    rw [List.getD_eq_getElem _ _ hlt]
    simpa using heq
  some e e' he' heq := by
    rw [← hlen] at he'
    rw [List.getD_eq_getElem _ _ he'] at heq
    rw [List.findIdx?_isSome, List.any_eq_true]
    exact ⟨_, List.getElem_mem he', by simpa using heq⟩
  congr e e' h := by
    rw [h]

/-- **Following the edges ends, and ends well on a trail that is back after all edges.** -/
theorem followEdges_spec (hlen : fromNodes.length = proofSize) :
    ∀ (rounds n : ℕ) (visited : List Bool) (p : ℕ → ℕ), proofSize < n + rounds →
      Cycle.Trail (fun e => fromNodes.findIdx? fun u => u = toNodes.getD e 0) n p →
      (0 < n → p n ≠ 0) → visited.length = proofSize →
      (∀ e, visited.getD e false = true ↔ ∃ k < n, p k = e) →
      ∃ code, followEdges fromNodes toNodes rounds visited n (p n) = .ok code ∧
        (code = .powOk ↔
          ∃ q, Cycle.Trail (fun e => fromNodes.findIdx? fun u => u = toNodes.getD e 0) proofSize q ∧
            q proofSize = 0) := by
  have : NeZero proofSize := ⟨by decide⟩
  have hfinds := @finds_findIdx? _ toNodes hlen
  intro rounds
  induction rounds with
  | zero =>
    intro n visited p hrounds hp
    have := hp.le hfinds
    omega
  | succ rounds ih =>
    intro n visited p hrounds hp haway hvlen hvisited
    -- a trail that is back after all edges has gone on from here
    have hon : ∀ q, Cycle.Trail (fun e => fromNodes.findIdx? fun u => u = toNodes.getD e 0)
        proofSize q → q proofSize = 0 → n < proofSize ∧ (∀ k ≤ n, p k = q k) := by
      intro q hq hback
      have hle := hp.le hfinds
      have hsame : ∀ k ≤ n, p k = q k := fun k hk => hp.unique hq k hk (by omega)
      refine ⟨Nat.lt_of_le_of_ne hle fun heq => ?_, hsame⟩
      have hpos : 0 < n := by
        rw [heq]
        exact NeZero.pos proofSize
      exact haway hpos (by rw [hsame n le_rfl, heq, hback])
    rw [followEdges]
    by_cases hseen : visited.getD (p n) false = true
    · rw [if_pos hseen]
      refine ⟨_, rfl, by simp, ?_⟩
      rintro ⟨q, hq, hback⟩
      obtain ⟨hlt, hsame⟩ := hon q hq hback
      obtain ⟨k, hk, heq⟩ := (hvisited (p n)).1 hseen
      rw [hsame k hk.le, hsame n le_rfl] at heq
      have := hq.injOn k (by omega) n hlt heq
      omega
    rw [if_neg hseen]
    cases hnext : fromNodes.findIdx? fun u => u = toNodes.getD (p n) 0 with
    | none =>
      refine ⟨_, rfl, by simp, ?_⟩
      rintro ⟨q, hq, hback⟩
      obtain ⟨hlt, hsame⟩ := hon q hq hback
      have hstep := hq.step n hlt
      rw [← hsame n le_rfl, hnext] at hstep
      cases hstep
    | some e =>
      have hnew : ∀ k < n, p k ≠ p n := fun k hk heq => hseen ((hvisited (p n)).2 ⟨k, hk, heq⟩)
      have hsnoc := hp.snoc hnew hnext
      dsimp only
      by_cases hzero : e = 0
      · rw [if_neg (not_not.2 hzero)]
        by_cases hfull : n + 1 = proofSize
        · rw [if_pos hfull]
          refine ⟨_, rfl, fun _ => ⟨_, hfull ▸ hsnoc, ?_⟩, fun _ => rfl⟩
          rw [← hfull, Function.update_self]
          exact hzero
        · -- a trail of all edges would have used the first one too early
          rw [if_neg hfull]
          refine ⟨_, rfl, by simp, ?_⟩
          rintro ⟨q, hq, hback⟩
          obtain ⟨hlt, hsame⟩ := hon q hq hback
          have hstep := hq.step n hlt
          rw [← hsame n le_rfl, hnext, hzero, ← hq.start] at hstep
          have := hq.injOn 0 (by omega) (n + 1) (by omega) (Option.some.inj hstep)
          omega
      · rw [if_pos hzero]
        have hih := ih (n + 1) (visited.set (p n) true) _ (by omega) hsnoc (fun _ => by
          rw [Function.update_self]
          exact hzero) (by rw [List.length_set, hvlen]) fun e' => ?_
        · rwa [Function.update_self] at hih
        · have hlt : p n < visited.length := by
            rw [hvlen]
            exact hp.lt hfinds le_rfl
          rw [List.getD_eq_getElem?_getD, List.getElem?_set]
          by_cases heq : p n = e'
          · rw [if_pos heq, if_pos (heq ▸ hlt)]
            refine ⟨fun _ => ⟨n, Nat.lt_succ_self n, ?_⟩, fun _ => rfl⟩
            rw [Function.update_of_ne (by omega), heq]
          · rw [if_neg heq, ← List.getD_eq_getElem?_getD, hvisited]
            constructor
            · rintro ⟨k, hk, rfl⟩
              exact ⟨k, by omega, Function.update_of_ne (by omega) _ _⟩
            · rintro ⟨k, hk, hke⟩
              rw [Function.update_of_ne (by omega)] at hke
              refine ⟨k, Nat.lt_of_le_of_ne (by omega) ?_, hke⟩
              rintro rfl
              exact heq hke

end FollowEdges

/-! ### Adding up the ends -/

/-- Words, with *exclusive or* as addition. -/
def XorWord : Type := UInt64

namespace XorWord

/-- A word. -/
def ofWord (w : UInt64) : XorWord := w

instance addXorWord : Add XorWord := ⟨UInt64.xor⟩

instance zeroXorWord : Zero XorWord := ⟨(0 : UInt64)⟩

theorem xor_assoc (a b c : XorWord) : a + b + c = a + (b + c) := UInt64.xor_assoc a b c

theorem xor_comm (a b : XorWord) : a + b = b + a := UInt64.xor_comm a b

theorem zero_xor (a : XorWord) : 0 + a = a := UInt64.zero_xor

theorem xor_zero (a : XorWord) : a + 0 = a := UInt64.xor_zero

instance addCommMonoidXorWord : AddCommMonoid XorWord where
  add_assoc := xor_assoc
  add_comm := xor_comm
  zero_add := zero_xor
  add_zero := xor_zero
  nsmul := nsmulRec

theorem add_self (w : XorWord) : w + w = 0 := UInt64.xor_self

@[simp] theorem ofWord_xor (a b : UInt64) : ofWord (a ^^^ b) = ofWord a + ofWord b := rfl

theorem ofWord_inj {a b : UInt64} (h : ofWord a = ofWord b) : a = b := h

/-- Words that differ in the last bit only add up to this bit. -/
theorem add_eq_one {a b : UInt64} (hshift : a >>> 1 = b >>> 1) (hne : a ≠ b) :
    ofWord a + ofWord b = ofWord 1 := by
  have hdiv : a.toNat / 2 = b.toNat / 2 := by
    have hnat := congrArg UInt64.toNat hshift
    simpa [UInt64.toNat_shiftRight, Nat.shiftRight_eq_div_pow] using hnat
  rcases Cycle.eq_or_eq_other hdiv with heq | heq
  · exact absurd (UInt64.toNat_inj.1 heq) hne
  · refine congrArg ofWord (UInt64.toNat_inj.1 (?_ : (a ^^^ b).toNat = (1 : UInt64).toNat))
    rw [UInt64.toNat_xor, heq, Cycle.other, Nat.xor_comm, ← Nat.xor_assoc, Nat.xor_self,
      Nat.zero_xor]
    rfl

end XorWord

/-- The ends of edges, one edge after the other: `uvs` of the verifiers. -/
def endpoints (nodeMask : UInt64) (ends : UInt64 → UInt64 × UInt64) (edges : List UInt64) :
    List UInt64 :=
  edges.flatMap fun edge => [(ends edge).1 &&& nodeMask, (ends edge).2 &&& nodeMask]

section Endpoints

variable {nodeMask : UInt64} {ends : UInt64 → UInt64 × UInt64}

/-- The first ends add up, and the second ends do. -/
theorem sum_endpoints (edges : List UInt64) :
    ((edges.map fun edge => XorWord.ofWord ((ends edge).1 &&& nodeMask)).sum =
      ∑ e ∈ Finset.range edges.length,
        XorWord.ofWord ((endpoints nodeMask ends edges).getD (2 * e + 0) 0)) ∧
    (edges.map fun edge => XorWord.ofWord ((ends edge).2 &&& nodeMask)).sum =
      ∑ e ∈ Finset.range edges.length,
        XorWord.ofWord ((endpoints nodeMask ends edges).getD (2 * e + 1) 0) := by
  induction edges with
  | nil => exact ⟨rfl, rfl⟩
  | cons edge edges ih =>
    rw [List.length_cons, Finset.sum_range_succ', Finset.sum_range_succ', List.map_cons,
      List.map_cons, List.sum_cons, List.sum_cons, ih.1, ih.2]
    exact ⟨add_comm _ _, add_comm _ _⟩

/-- The first end of edge number `e`. -/
theorem getD_endpoints_fst (edges : List UInt64) (e : ℕ) :
    (endpoints nodeMask ends edges).getD (2 * e) 0 =
      (edges.map fun edge => (ends edge).1 &&& nodeMask).getD e 0 := by
  induction edges generalizing e with
  | nil => rfl
  | cons edge edges ih =>
    cases e with
    | zero => rfl
    | succ e => exact ih e

/-- The second end of edge number `e`. -/
theorem getD_endpoints_snd (edges : List UInt64) (e : ℕ) :
    (endpoints nodeMask ends edges).getD (2 * e + 1) 0 =
      (edges.map fun edge => (ends edge).2 &&& nodeMask).getD e 0 := by
  induction edges generalizing e with
  | nil => rfl
  | cons edge edges ih =>
    cases e with
    | zero => rfl
    | succ e => exact ih e

end Endpoints

/-! ### The verifiers -/

/-- What the verifiers have in common: reading the edges, the check of the sums, and following
the cycle. -/
def verify {σ : Type} (edgeMask : UInt64) (push : σ → UInt64 → σ) (start : σ)
    (nonMatching : σ → Bool) (follow : σ → Except Exc VerifyCode)
    (edges : Vector UInt64 proofSize) : Except Exc VerifyCode :=
  match readEdges edgeMask push none start edges.toList with
  | .error code => .ok code
  | .ok s => if nonMatching s then .ok .powNonMatching else follow s

/-- The ends that `verify_cuckatoo` and `verify_cuckaroo` have read, and the sums of either
side. -/
structure Endpoints where
  /-- `uvs`. -/
  uvs : List UInt64
  /-- `xor0`. -/
  xor0 : UInt64
  /-- `xor1`. -/
  xor1 : UInt64

namespace Endpoints

/-- An edge is read. -/
def push (nodeMask : UInt64) (ends : UInt64 → UInt64 × UInt64) (s : Endpoints) (edge : UInt64) :
    Endpoints where
  uvs := s.uvs ++ [(ends edge).1 &&& nodeMask, (ends edge).2 &&& nodeMask]
  xor0 := s.xor0 ^^^ ((ends edge).1 &&& nodeMask)
  xor1 := s.xor1 ^^^ ((ends edge).2 &&& nodeMask)

/-- The check for obviously bad proofs. -/
def nonMatching (s : Endpoints) : Bool :=
  s.xor0 ||| s.xor1 ≠ 0

/-- An end. -/
def uv (s : Endpoints) (k : ℕ) : UInt64 := s.uvs.getD k 0

end Endpoints

/-- `verify_cuckatoo`. -/
def verifyCuckatoo (ends : UInt64 → UInt64 × UInt64) (edges : Vector UInt64 proofSize)
    (edgeBits : UInt8) : Except Exc VerifyCode :=
  verify (edgeMaskOf edgeBits) (Endpoints.push (edgeMaskOf edgeBits) ends)
    ⟨[], UInt64.ofNat (proofSize / 2) &&& 1, UInt64.ofNat (proofSize / 2) &&& 1⟩
    Endpoints.nonMatching
    (fun s => followCycle 2 (fun k i => s.uv k >>> 1 = s.uv i >>> 1) (fun j i => s.uv j ≠ s.uv i)
      (2 * proofSize) 0 0)
    edges

/-- `verify_cuckaroo`. -/
def verifyCuckaroo (ends : UInt64 → UInt64 × UInt64) (edges : Vector UInt64 proofSize)
    (edgeBits : UInt8) : Except Exc VerifyCode :=
  verify (edgeMaskOf edgeBits) (Endpoints.push (edgeMaskOf edgeBits) ends) ⟨[], 0, 0⟩
    Endpoints.nonMatching
    (fun s => followCycle 2 (fun k i => s.uv k = s.uv i) (fun _ _ => true) (2 * proofSize) 0 0)
    edges

/-- The ends that `verify_cuckarooz` has read, and the sum of them all. -/
structure MixedEndpoints where
  /-- `uv`. -/
  uvs : List UInt64
  /-- `xoruv`. -/
  xoruv : UInt64

namespace MixedEndpoints

/-- An edge is read. -/
def push (nodeMask : UInt64) (ends : UInt64 → UInt64 × UInt64) (s : MixedEndpoints)
    (edge : UInt64) : MixedEndpoints where
  uvs := s.uvs ++ [(ends edge).1 &&& nodeMask, (ends edge).2 &&& nodeMask]
  xoruv := s.xoruv ^^^ ((ends edge).1 &&& nodeMask) ^^^ ((ends edge).2 &&& nodeMask)

/-- The check for obviously bad proofs. -/
def nonMatching (s : MixedEndpoints) : Bool :=
  s.xoruv ≠ 0

/-- An end. -/
def uv (s : MixedEndpoints) (k : ℕ) : UInt64 := s.uvs.getD k 0

end MixedEndpoints

/-- `EDGEBITS` of `verify_cuckarooz` and `verify_cuckaroom`. -/
def cuckaroozEdgeBits : UInt8 := 29

/-- `NODEMASK` of `verify_cuckarooz`: there are twice as many nodes as edges. -/
def cuckaroozNodeMask : UInt64 := 2 * ((1 : UInt64) <<< cuckaroozEdgeBits.toUInt64) - 1

/-- `verify_cuckarooz`. -/
def verifyCuckarooz (ends : UInt64 → UInt64 × UInt64) (edges : Vector UInt64 proofSize) :
    Except Exc VerifyCode :=
  verify (edgeMaskOf cuckaroozEdgeBits) (MixedEndpoints.push cuckaroozNodeMask ends) ⟨[], 0⟩
    MixedEndpoints.nonMatching
    (fun s => followCycle 1 (fun k i => s.uv k = s.uv i) (fun _ _ => true) (2 * proofSize) 0 0)
    edges

/-- The ends that `verify_cuckaroom` has read, and the sums of either kind. -/
structure DirectedEndpoints where
  /-- `from`. -/
  fromNodes : List UInt64
  /-- `to`. -/
  toNodes : List UInt64
  /-- `xorfrom`. -/
  xorfrom : UInt64
  /-- `xorto`. -/
  xorto : UInt64
  /-- `visited`. -/
  visited : List Bool

namespace DirectedEndpoints

/-- An edge is read. -/
def push (nodeMask : UInt64) (ends : UInt64 → UInt64 × UInt64) (s : DirectedEndpoints)
    (edge : UInt64) : DirectedEndpoints where
  fromNodes := s.fromNodes ++ [(ends edge).1 &&& nodeMask]
  toNodes := s.toNodes ++ [(ends edge).2 &&& nodeMask]
  xorfrom := s.xorfrom ^^^ ((ends edge).1 &&& nodeMask)
  xorto := s.xorto ^^^ ((ends edge).2 &&& nodeMask)
  visited := s.visited ++ [false]

/-- The check for obviously bad proofs. -/
def nonMatching (s : DirectedEndpoints) : Bool :=
  s.xorfrom ≠ s.xorto

end DirectedEndpoints

/-- `verify_cuckaroom`. -/
def verifyCuckaroom (ends : UInt64 → UInt64 × UInt64) (edges : Vector UInt64 proofSize) :
    Except Exc VerifyCode :=
  verify (edgeMaskOf cuckaroozEdgeBits) (DirectedEndpoints.push (edgeMaskOf cuckaroozEdgeBits) ends)
    ⟨[], [], 0, 0, []⟩ DirectedEndpoints.nonMatching
    (fun s => followEdges s.fromNodes s.toNodes (2 * proofSize) s.visited 0 0)
    edges

/-! ### What has been read -/

section Read

variable {nodeMask : UInt64} {ends : UInt64 → UInt64 × UInt64}

theorem foldl_endpoints (edges : List UInt64) (s : Endpoints) :
    (edges.foldl (Endpoints.push nodeMask ends) s).uvs = s.uvs ++ endpoints nodeMask ends edges ∧
      XorWord.ofWord (edges.foldl (Endpoints.push nodeMask ends) s).xor0 =
        XorWord.ofWord s.xor0 +
          (edges.map fun edge => XorWord.ofWord ((ends edge).1 &&& nodeMask)).sum ∧
      XorWord.ofWord (edges.foldl (Endpoints.push nodeMask ends) s).xor1 =
        XorWord.ofWord s.xor1 +
          (edges.map fun edge => XorWord.ofWord ((ends edge).2 &&& nodeMask)).sum := by
  induction edges generalizing s with
  | nil => exact ⟨(List.append_nil _).symm, (add_zero _).symm, (add_zero _).symm⟩
  | cons edge edges ih =>
    obtain ⟨huvs, h0, h1⟩ := ih (s.push nodeMask ends edge)
    rw [List.foldl_cons, huvs, h0, h1]
    refine ⟨?_, ?_, ?_⟩
    · simp [Endpoints.push, endpoints]
    · simp [Endpoints.push, add_assoc]
    · simp [Endpoints.push, add_assoc]

theorem foldl_mixedEndpoints (edges : List UInt64) (s : MixedEndpoints) :
    (edges.foldl (MixedEndpoints.push nodeMask ends) s).uvs =
        s.uvs ++ endpoints nodeMask ends edges ∧
      XorWord.ofWord (edges.foldl (MixedEndpoints.push nodeMask ends) s).xoruv =
        XorWord.ofWord s.xoruv +
          ((edges.map fun edge => XorWord.ofWord ((ends edge).1 &&& nodeMask)).sum +
            (edges.map fun edge => XorWord.ofWord ((ends edge).2 &&& nodeMask)).sum) := by
  induction edges generalizing s with
  | nil => exact ⟨(List.append_nil _).symm, by simp⟩
  | cons edge edges ih =>
    obtain ⟨huvs, h⟩ := ih (s.push nodeMask ends edge)
    rw [List.foldl_cons, huvs, h]
    refine ⟨?_, ?_⟩
    · simp [MixedEndpoints.push, endpoints]
    · simp only [MixedEndpoints.push, XorWord.ofWord_xor, List.map_cons, List.sum_cons]
      rw [add_assoc (XorWord.ofWord s.xoruv), add_assoc, add_add_add_comm]

theorem foldl_directedEndpoints (edges : List UInt64) (s : DirectedEndpoints) :
    (edges.foldl (DirectedEndpoints.push nodeMask ends) s).fromNodes =
        s.fromNodes ++ edges.map (fun edge => (ends edge).1 &&& nodeMask) ∧
      (edges.foldl (DirectedEndpoints.push nodeMask ends) s).toNodes =
        s.toNodes ++ edges.map (fun edge => (ends edge).2 &&& nodeMask) ∧
      (edges.foldl (DirectedEndpoints.push nodeMask ends) s).visited =
        s.visited ++ List.replicate edges.length false ∧
      XorWord.ofWord (edges.foldl (DirectedEndpoints.push nodeMask ends) s).xorfrom =
        XorWord.ofWord s.xorfrom +
          (edges.map fun edge => XorWord.ofWord ((ends edge).1 &&& nodeMask)).sum ∧
      XorWord.ofWord (edges.foldl (DirectedEndpoints.push nodeMask ends) s).xorto =
        XorWord.ofWord s.xorto +
          (edges.map fun edge => XorWord.ofWord ((ends edge).2 &&& nodeMask)).sum := by
  induction edges generalizing s with
  | nil => simp
  | cons edge edges ih =>
    obtain ⟨hfrom, hto, hvisited, h0, h1⟩ := ih (s.push nodeMask ends edge)
    rw [List.foldl_cons, hfrom, hto, hvisited, h0, h1]
    refine ⟨?_, ?_, ?_, ?_, ?_⟩
    · simp [DirectedEndpoints.push]
    · simp [DirectedEndpoints.push]
    · simp [DirectedEndpoints.push, List.replicate_succ]
    · simp [DirectedEndpoints.push, add_assoc]
    · simp [DirectedEndpoints.push, add_assoc]

end Read

/-! ### Cycles -/

section Cycles

variable (ends : UInt64 → UInt64 × UInt64) (edges : Vector UInt64 proofSize)

/-- The edges form a cycle of the graph of `verify_cuckatoo`: neighbours meet on one side, at
words that differ in the last bit, and in nothing else. -/
def CuckatooCycle (edgeBits : UInt8) : Prop :=
  let uv k := (endpoints (edgeMaskOf edgeBits) ends edges.toList).getD k 0
  ∃ x, Cycle.IsSimple proofSize (fun k => (k % 2, uv k >>> 1)) (fun i j => uv j ≠ uv i) x

/-- The edges form a cycle of the graph of `verify_cuckaroo`: neighbours meet on one side, at the
same word. -/
def CuckarooCycle (edgeBits : UInt8) : Prop :=
  let uv k := (endpoints (edgeMaskOf edgeBits) ends edges.toList).getD k 0
  ∃ x, Cycle.IsSimple proofSize (fun k => (k % 2, uv k)) (fun _ _ => True) x

/-- The edges form a cycle of the graph of `verify_cuckarooz`: neighbours meet at the same word, on
whatever side. -/
def CuckaroozCycle : Prop :=
  let uv k := (endpoints cuckaroozNodeMask ends edges.toList).getD k 0
  ∃ x, Cycle.IsSimple proofSize uv (fun _ _ => True) x

/-- The edges form a cycle of the graph of `verify_cuckaroom`: each begins where the one before
ends. -/
def CuckaroomCycle : Prop :=
  let uv k := (endpoints (edgeMaskOf cuckaroozEdgeBits) ends edges.toList).getD k 0
  ∃ x, Cycle.IsDirected proofSize (fun e => uv (2 * e)) (fun e => uv (2 * e + 1)) x

variable {ends edges}

instance neZero_proofSize : NeZero proofSize := ⟨by decide⟩

/-- A verifier accepts the edges that ascend and are accepted by what follows the cycle, if these
pass the check of the sums. -/
theorem verify_spec {σ : Type} {edgeMask : UInt64} {push : σ → UInt64 → σ} {start : σ}
    {nonMatching : σ → Bool} {follow : σ → Except Exc VerifyCode} {P : Prop}
    (hfollow : ∃ code, follow (edges.toList.foldl push start) = .ok code ∧ (code = .powOk ↔ P))
    (hmatch : P → nonMatching (edges.toList.foldl push start) = false) :
    ∃ code, verify edgeMask push start nonMatching follow edges = .ok code ∧
      (code = .powOk ↔ Ascending edgeMask edges.toList ∧ P) := by
  unfold verify
  cases hread : readEdges edgeMask push none start edges.toList with
  | error code =>
    refine ⟨code, rfl, fun h => absurd h (readEdges_error hread), ?_⟩
    rintro ⟨hasc, -⟩
    rw [readEdges_eq_ok_iff.2 ⟨hasc, rfl⟩] at hread
    cases hread
  | ok s =>
    obtain ⟨hasc, rfl⟩ := readEdges_eq_ok_iff.1 hread
    obtain ⟨code, hcode, hiff⟩ := hfollow
    dsimp only
    by_cases hsum : nonMatching (edges.toList.foldl push start) = true
    · rw [if_pos hsum]
      refine ⟨_, rfl, by simp, fun h => ?_⟩
      rw [hmatch h.2] at hsum
      cases hsum
    · rw [if_neg hsum]
      refine ⟨code, hcode, ?_⟩
      rw [hiff, and_iff_right hasc]

/-- Following the cycle from the first edge. -/
theorem followCycle_iff {κ : Type} {key : ℕ → κ} {meets fits : ℕ → ℕ → Bool} {step all : ℕ}
    (hall : all * step = 2 * proofSize)
    (hkey : ∀ i z, key z = key i ↔ z % step = i % step ∧ meets z i)
    (hsymm : ∀ y z, fits y z → fits z y) :
    ∃ code, followCycle step meets fits (2 * proofSize) 0 0 = .ok code ∧
      (code = .powOk ↔ ∃ x, Cycle.IsSimple proofSize key (fun y z => fits z y) x) := by
  rw [Cycle.isSimple_iff fun y z => hsymm z y]
  exact followCycle_spec hall hkey (2 * proofSize) 0 (fun _ => 0) (by decide)
    ⟨rfl, fun k hk => absurd hk (Nat.not_lt_zero k), fun k _ hk => absurd hk (Nat.not_lt_zero k)⟩
    fun h => absurd h (Nat.lt_irrefl 0)

theorem uvs_foldl (nodeMask : UInt64) (x y : UInt64) (k : ℕ) :
    (edges.toList.foldl (Endpoints.push nodeMask ends) ⟨[], x, y⟩).uv k =
      (endpoints nodeMask ends edges.toList).getD k 0 := by
  rw [Endpoints.uv, (foldl_endpoints _ _).1, List.nil_append]

theorem nonMatching_eq_false {s : Endpoints} (h0 : XorWord.ofWord s.xor0 = 0)
    (h1 : XorWord.ofWord s.xor1 = 0) : s.nonMatching = false := by
  have h0' : s.xor0 = 0 := h0
  have h1' : s.xor1 = 0 := h1
  rw [Endpoints.nonMatching, h0', h1']
  rfl

/-- **The sums of `verify_cuckatoo` are right on a cycle**: on either side the last bit is there
21 times, and once more at the start. -/
theorem cuckatoo_matching {edgeBits : UInt8} (h : CuckatooCycle ends edges edgeBits) :
    (edges.toList.foldl (Endpoints.push (edgeMaskOf edgeBits) ends)
      ⟨[], UInt64.ofNat (proofSize / 2) &&& 1, UInt64.ofNat (proofSize / 2) &&& 1⟩).nonMatching =
      false := by
  obtain ⟨x, hx⟩ := h
  have hmod : ∀ y z : ℕ, (y % 2, ((endpoints (edgeMaskOf edgeBits) ends edges.toList).getD y 0)
      >>> 1) = (z % 2, ((endpoints (edgeMaskOf edgeBits) ends edges.toList).getD z 0) >>> 1) →
      y % 2 = z % 2 := fun y z hyz => (Prod.mk.inj hyz).1
  have hside : ∀ side < 2, ∑ e ∈ Finset.range edges.toList.length, XorWord.ofWord
      ((endpoints (edgeMaskOf edgeBits) ends edges.toList).getD (2 * e + side) 0) =
        XorWord.ofWord 1 := by
    intro side hs
    have hcard := hx.card_side hmod hs
    rw [Vector.length_toList, hx.sum_side hmod (fun k => XorWord.ofWord
      ((endpoints (edgeMaskOf edgeBits) ends edges.toList).getD k 0)) hs]
    calc _ = ∑ k : ZMod proofSize with x k % 2 = side, XorWord.ofWord 1 :=
          Finset.sum_congr rfl fun k _ => XorWord.add_eq_one (Prod.mk.inj (hx.meets k)).2.symm
            (hx.fits k).symm
      _ = 21 • XorWord.ofWord 1 := by
          rw [Finset.sum_const, show (Finset.univ.filter fun k : ZMod proofSize =>
            x k % 2 = side).card = 21 by unfold proofSize at *; omega]
      _ = XorWord.ofWord 1 := rfl
  obtain ⟨-, h0, h1⟩ := @foldl_endpoints (edgeMaskOf edgeBits) ends
    edges.toList ⟨[], UInt64.ofNat (proofSize / 2) &&& 1, UInt64.ofNat (proofSize / 2) &&& 1⟩
  refine nonMatching_eq_false ?_ ?_
  · rw [h0, (sum_endpoints _).1, hside 0 (by decide)]
    rfl
  · rw [h1, (sum_endpoints _).2, hside 1 (by decide)]
    rfl

/-- What meets at the same word, on one side, cancels. -/
theorem sum_side_eq_zero {uv : ℕ → UInt64} {fits : ℕ → ℕ → Prop} {x : ZMod proofSize → ℕ}
    (hx : Cycle.IsSimple proofSize (fun k => (k % 2, uv k)) fits x) {side : ℕ} (hside : side < 2) :
    ∑ e ∈ Finset.range proofSize, XorWord.ofWord (uv (2 * e + side)) = 0 := by
  rw [hx.sum_side (fun y z hyz => (Prod.mk.inj hyz).1) (fun k => XorWord.ofWord (uv k)) hside]
  refine Finset.sum_eq_zero fun k _ => ?_
  rw [(Prod.mk.inj (hx.meets k)).2, XorWord.add_self]

/-- The sums of `verify_cuckaroo` are right on a cycle. -/
theorem cuckaroo_matching {edgeBits : UInt8} (h : CuckarooCycle ends edges edgeBits) :
    (edges.toList.foldl (Endpoints.push (edgeMaskOf edgeBits) ends) ⟨[], 0, 0⟩).nonMatching =
      false := by
  obtain ⟨x, hx⟩ := h
  have hlen : edges.toList.length = proofSize := Vector.length_toList
  obtain ⟨-, h0, h1⟩ := @foldl_endpoints (edgeMaskOf edgeBits) ends
    edges.toList ⟨[], 0, 0⟩
  refine nonMatching_eq_false ?_ ?_
  · rw [h0, (sum_endpoints _).1, hlen, sum_side_eq_zero hx (by decide)]
    rfl
  · rw [h1, (sum_endpoints _).2, hlen, sum_side_eq_zero hx (by decide)]
    rfl

/-- The sum of `verify_cuckarooz` is right on a cycle: what meets cancels. -/
theorem cuckarooz_matching (h : CuckaroozCycle ends edges) :
    (edges.toList.foldl (MixedEndpoints.push cuckaroozNodeMask ends) ⟨[], 0⟩).nonMatching =
      false := by
  obtain ⟨x, hx⟩ := h
  have hsum := hx.sum_ends fun k => XorWord.ofWord
    ((endpoints cuckaroozNodeMask ends edges.toList).getD k 0)
  have hzero : ∑ k : ZMod proofSize, (XorWord.ofWord
      ((endpoints cuckaroozNodeMask ends edges.toList).getD (x k) 0) + XorWord.ofWord
      ((endpoints cuckaroozNodeMask ends edges.toList).getD (Cycle.other (x (k + 1))) 0)) = 0 := by
    refine Finset.sum_eq_zero fun k _ => ?_
    rw [hx.meets k, XorWord.add_self]
  obtain ⟨-, hxor⟩ := @foldl_mixedEndpoints cuckaroozNodeMask ends edges.toList ⟨[], 0⟩
  rw [(sum_endpoints _).1, (sum_endpoints _).2, Vector.length_toList, ← Finset.sum_add_distrib]
    at hxor
  have hxor' := hxor.trans (congrArg _ (hsum.trans hzero))
  have hz : (edges.toList.foldl (MixedEndpoints.push cuckaroozNodeMask ends) ⟨[], 0⟩).xoruv = 0 :=
    hxor'
  rw [MixedEndpoints.nonMatching, hz]
  rfl

/-- The sums of `verify_cuckaroom` are right on a cycle. -/
theorem cuckaroom_matching (h : CuckaroomCycle ends edges) :
    (edges.toList.foldl (DirectedEndpoints.push (edgeMaskOf cuckaroozEdgeBits) ends)
      ⟨[], [], 0, 0, []⟩).nonMatching = false := by
  obtain ⟨x, hx⟩ := h
  have hsum := hx.sum_eq XorWord.ofWord
  obtain ⟨-, -, -, hfrom, hto⟩ := @foldl_directedEndpoints
    (edgeMaskOf cuckaroozEdgeBits) ends edges.toList ⟨[], [], 0, 0, []⟩
  rw [(sum_endpoints _).1, Vector.length_toList] at hfrom
  rw [(sum_endpoints _).2, Vector.length_toList] at hto
  have heq := XorWord.ofWord_inj (hfrom.trans ((congrArg _ hsum).trans hto.symm))
  rw [DirectedEndpoints.nonMatching, heq]
  simp

/-! ### What they accept -/

theorem verifyCuckatoo_iff (edgeBits : UInt8) :
    ∃ code, verifyCuckatoo ends edges edgeBits = .ok code ∧
      (code = .powOk ↔ Ascending (edgeMaskOf edgeBits) edges.toList ∧
        CuckatooCycle ends edges edgeBits) := by
  refine verify_spec ?_ cuckatoo_matching
  simp only [uvs_foldl]
  have h := @followCycle_iff _
    (fun k => (k % 2, (endpoints (edgeMaskOf edgeBits) ends edges.toList).getD k 0 >>> 1))
    (fun k i => (endpoints (edgeMaskOf edgeBits) ends edges.toList).getD k 0 >>> 1 =
      (endpoints (edgeMaskOf edgeBits) ends edges.toList).getD i 0 >>> 1)
    (fun j i => (endpoints (edgeMaskOf edgeBits) ends edges.toList).getD j 0 ≠
      (endpoints (edgeMaskOf edgeBits) ends edges.toList).getD i 0)
    2 proofSize rfl (fun i z => by simp) fun y z hyz =>
      decide_eq_true fun heq => of_decide_eq_true hyz heq.symm
  simpa [CuckatooCycle] using h

theorem verifyCuckaroo_iff (edgeBits : UInt8) :
    ∃ code, verifyCuckaroo ends edges edgeBits = .ok code ∧
      (code = .powOk ↔ Ascending (edgeMaskOf edgeBits) edges.toList ∧
        CuckarooCycle ends edges edgeBits) := by
  refine verify_spec ?_ cuckaroo_matching
  simp only [uvs_foldl]
  have h := @followCycle_iff _
    (fun k => (k % 2, (endpoints (edgeMaskOf edgeBits) ends edges.toList).getD k 0))
    (fun k i => (endpoints (edgeMaskOf edgeBits) ends edges.toList).getD k 0 =
      (endpoints (edgeMaskOf edgeBits) ends edges.toList).getD i 0)
    (fun _ _ => true) 2 proofSize rfl (fun i z => by simp) fun y z hyz => hyz
  simpa [CuckarooCycle] using h

theorem verifyCuckarooz_iff :
    ∃ code, verifyCuckarooz ends edges = .ok code ∧
      (code = .powOk ↔ Ascending (edgeMaskOf cuckaroozEdgeBits) edges.toList ∧
        CuckaroozCycle ends edges) := by
  refine verify_spec ?_ cuckarooz_matching
  simp only [MixedEndpoints.uv, (foldl_mixedEndpoints edges.toList _).1, List.nil_append]
  have h := @followCycle_iff _
    (fun k => (endpoints cuckaroozNodeMask ends edges.toList).getD k 0)
    (fun k i => (endpoints cuckaroozNodeMask ends edges.toList).getD k 0 =
      (endpoints cuckaroozNodeMask ends edges.toList).getD i 0)
    (fun _ _ => true) 1 (2 * proofSize) rfl (fun i z => by simp [Nat.mod_one]) fun y z hyz => hyz
  simpa [CuckaroozCycle] using h

theorem verifyCuckaroom_iff :
    ∃ code, verifyCuckaroom ends edges = .ok code ∧
      (code = .powOk ↔ Ascending (edgeMaskOf cuckaroozEdgeBits) edges.toList ∧
        CuckaroomCycle ends edges) := by
  refine verify_spec ?_ cuckaroom_matching
  obtain ⟨hfrom, hto, hvisited, -⟩ := @foldl_directedEndpoints
    (edgeMaskOf cuckaroozEdgeBits) ends edges.toList ⟨[], [], 0, 0, []⟩
  simp only [hfrom, hto, hvisited, List.nil_append]
  have hlen : (edges.toList.map fun edge =>
      (ends edge).1 &&& edgeMaskOf cuckaroozEdgeBits).length = proofSize := by simp
  have h := @followEdges_spec _ (edges.toList.map fun edge =>
      (ends edge).2 &&& edgeMaskOf cuckaroozEdgeBits) hlen (2 * proofSize) 0
    (List.replicate edges.toList.length false) (fun _ => 0) (by decide)
    ⟨rfl, fun k hk => absurd hk (Nat.not_lt_zero k), fun a ha => absurd ha (Nat.not_lt_zero a)⟩
    (fun h => absurd h (Nat.lt_irrefl 0)) (by simp) fun e => by
      rw [List.getD_eq_getElem?_getD, List.getElem?_replicate]
      split_ifs <;> simp
  rw [← Cycle.isDirected_iff (finds_findIdx? hlen)] at h
  simp only [CuckaroomCycle, getD_endpoints_fst, getD_endpoints_snd]
  exact h

/-- **The verifiers accept the cycles, and nothing else.** For whatever ends the edges have, the
loops end, and the answer is good if and only if the edges ascend within the graph and form one
simple cycle. -/
theorem verify_exact (ends : UInt64 → UInt64 × UInt64) (edges : Vector UInt64 proofSize)
    (edgeBits : UInt8) :
    (∃ code, verifyCuckatoo ends edges edgeBits = .ok code ∧
      (code = .powOk ↔ Ascending (edgeMaskOf edgeBits) edges.toList ∧
        CuckatooCycle ends edges edgeBits)) ∧
    (∃ code, verifyCuckaroo ends edges edgeBits = .ok code ∧
      (code = .powOk ↔ Ascending (edgeMaskOf edgeBits) edges.toList ∧
        CuckarooCycle ends edges edgeBits)) ∧
    (∃ code, verifyCuckarooz ends edges = .ok code ∧
      (code = .powOk ↔ Ascending (edgeMaskOf cuckaroozEdgeBits) edges.toList ∧
        CuckaroozCycle ends edges)) ∧
    (∃ code, verifyCuckaroom ends edges = .ok code ∧
      (code = .powOk ↔ Ascending (edgeMaskOf cuckaroozEdgeBits) edges.toList ∧
        CuckaroomCycle ends edges)) :=
  ⟨verifyCuckatoo_iff edgeBits, verifyCuckaroo_iff edgeBits, verifyCuckarooz_iff,
    verifyCuckaroom_iff⟩

end Cycles

/-! ### The graphs of a header -/

/-- `siphash_keys`. -/
structure SiphashKeys where
  /-- The first word. -/
  k0 : UInt64
  /-- The second word. -/
  k1 : UInt64
  /-- The third word. -/
  k2 : UInt64
  /-- The fourth word. -/
  k3 : UInt64

/-- `siphash_state`. -/
structure SiphashState where
  /-- The first lane. -/
  v0 : UInt64
  /-- The second lane. -/
  v1 : UInt64
  /-- The third lane. -/
  v2 : UInt64
  /-- The fourth lane. -/
  v3 : UInt64

namespace SiphashState

/-- `siphash_state::siphash_state`. -/
def ofKeys (keys : SiphashKeys) : SiphashState :=
  ⟨keys.k0, keys.k1, keys.k2, keys.k3⟩

/-- `siphash_state::xor_lanes`. -/
def xorLanes (s : SiphashState) : UInt64 :=
  (s.v0 ^^^ s.v1) ^^^ (s.v2 ^^^ s.v3)

/-- `siphash_state::rotl`. -/
def rotl (x b : UInt64) : UInt64 :=
  (x <<< b) ||| (x >>> (64 - b))

/-- `siphash_state::sip_round`, with the usual `rotE`. -/
def sipRound (s : SiphashState) : SiphashState :=
  let v0 := s.v0 + s.v1
  let v2 := s.v2 + s.v3
  let v1 := rotl s.v1 13
  let v3 := rotl s.v3 16
  let v1 := v1 ^^^ v0
  let v3 := v3 ^^^ v2
  let v0 := rotl v0 32
  let v2 := v2 + v1
  let v0 := v0 + v3
  let v1 := rotl v1 17
  let v3 := rotl v3 21
  let v1 := v1 ^^^ v2
  let v3 := v3 ^^^ v0
  let v2 := rotl v2 32
  ⟨v0, v1, v2, v3⟩

/-- `siphash_state::hash24`. -/
def hash24 (s : SiphashState) (nonce : UInt64) : SiphashState :=
  let s := { s with v3 := s.v3 ^^^ nonce }
  let s := s.sipRound.sipRound
  let s := { s with v0 := s.v0 ^^^ nonce, v2 := s.v2 ^^^ 0xff }
  s.sipRound.sipRound.sipRound.sipRound

/-- What the state puts out for consecutive nonces. -/
def outputs : ℕ → UInt64 → SiphashState → List UInt64
  | 0, _, _ => []
  | n + 1, nonce, s => (s.hash24 nonce).xorLanes :: outputs n (nonce + 1) (s.hash24 nonce)

end SiphashState

/-- `EDGE_BLOCK_MASK`. -/
def edgeBlockMask : UInt64 := 63

/-- `sipnode`, without the mask. -/
def sipnode (keys : SiphashKeys) (edge uorv : UInt64) : UInt64 :=
  ((SiphashState.ofKeys keys).hash24 (2 * edge + uorv)).xorLanes

/-- The outputs for the block of an edge. -/
def blockOutputs (keys : SiphashKeys) (edge : UInt64) : List UInt64 :=
  SiphashState.outputs 64 (edge &&& ~~~edgeBlockMask) (.ofKeys keys)

/-- `sipblock`: the last output of the block is added to the other ones. -/
def sipblock (keys : SiphashKeys) (edge : UInt64) : UInt64 :=
  let buf := blockOutputs keys edge
  if edge &&& edgeBlockMask = edgeBlockMask then buf.getD (edge &&& edgeBlockMask).toNat 0
  else buf.getD (edge &&& edgeBlockMask).toNat 0 ^^^ buf.getD edgeBlockMask.toNat 0

/-- `cuckarooz_sipblock` and `cuckaroom_sipblock`: all later outputs of the block are added. -/
def cuckaroozSipblock (keys : SiphashKeys) (edge : UInt64) : UInt64 :=
  ((blockOutputs keys edge).drop (edge &&& edgeBlockMask).toNat).foldr (· ^^^ ·) 0

/-- The ends of an edge in the graph of `verify_cuckatoo`. -/
def cuckatooEnds (keys : SiphashKeys) (edge : UInt64) : UInt64 × UInt64 :=
  (sipnode keys edge 0, sipnode keys edge 1)

/-- The ends of an edge that come from the two halves of a block. -/
def blockEnds (block : UInt64 → UInt64) (edge : UInt64) : UInt64 × UInt64 :=
  (block edge, block edge >>> 32)

/-- `ProofOfWork::GetProofNonces`, as the verifiers are given them. -/
def ProofOfWork.nonces (p : ProofOfWork) : Vector UInt64 proofSize :=
  Vector.ofFn fun n => UInt64.ofNat (ProofOfWork.proofNonce p.edgeBits.toNat p.bits n)

/-- `Validate` of the four classes, with their verifier. The number of the nonces is right. -/
def validateCycle (verifier : Vector UInt64 proofSize → Except Exc VerifyCode)
    (header : BlockHeader) : Bool :=
  match verifier header.proofOfWork.nonces with
  | .ok code => code = .powOk
  | .error _ => false

/-- `Cuckatoo::Validate`, for the keys that are the hash of the header. -/
def Cuckatoo.validate (keys : BlockHeader → SiphashKeys) (header : BlockHeader) : Bool :=
  validateCycle (fun edges => verifyCuckatoo (cuckatooEnds (keys header)) edges
    header.proofOfWork.edgeBits) header

/-- `Cuckaroo::Validate`. -/
def Cuckaroo.validate (keys : BlockHeader → SiphashKeys) (header : BlockHeader) : Bool :=
  validateCycle (fun edges => verifyCuckaroo (blockEnds (sipblock (keys header))) edges
    header.proofOfWork.edgeBits) header

/-- `Cuckarooz::Validate`. -/
def Cuckarooz.validate (keys : BlockHeader → SiphashKeys) (header : BlockHeader) : Bool :=
  validateCycle (verifyCuckarooz (blockEnds (cuckaroozSipblock (keys header)))) header

/-- `Cuckaroom::Validate`. -/
def Cuckaroom.validate (keys : BlockHeader → SiphashKeys) (header : BlockHeader) : Bool :=
  validateCycle (verifyCuckaroom (blockEnds (cuckaroozSipblock (keys header)))) header

/-- A header is valid if its nonces are accepted. -/
theorem validateCycle_iff {verifier : Vector UInt64 proofSize → Except Exc VerifyCode}
    {P : Vector UInt64 proofSize → Prop}
    (h : ∀ edges, ∃ code, verifier edges = .ok code ∧ (code = .powOk ↔ P edges))
    (header : BlockHeader) :
    validateCycle verifier header = true ↔ P header.proofOfWork.nonces := by
  obtain ⟨code, hcode, hiff⟩ := h header.proofOfWork.nonces
  rw [validateCycle, hcode, ← hiff, decide_eq_true_iff]

/-- **The proof of work of a header is a cycle of the graph of this header**, whichever of the four
graphs it is. -/
theorem validate_iff (keys : BlockHeader → SiphashKeys) (header : BlockHeader) :
    (Cuckatoo.validate keys header = true ↔
      Ascending (edgeMaskOf header.proofOfWork.edgeBits) header.proofOfWork.nonces.toList ∧
        CuckatooCycle (cuckatooEnds (keys header)) header.proofOfWork.nonces
          header.proofOfWork.edgeBits) ∧
    (Cuckaroo.validate keys header = true ↔
      Ascending (edgeMaskOf header.proofOfWork.edgeBits) header.proofOfWork.nonces.toList ∧
        CuckarooCycle (blockEnds (sipblock (keys header))) header.proofOfWork.nonces
          header.proofOfWork.edgeBits) ∧
    (Cuckarooz.validate keys header = true ↔
      Ascending (edgeMaskOf cuckaroozEdgeBits) header.proofOfWork.nonces.toList ∧
        CuckaroozCycle (blockEnds (cuckaroozSipblock (keys header)))
          header.proofOfWork.nonces) ∧
    (Cuckaroom.validate keys header = true ↔
      Ascending (edgeMaskOf cuckaroozEdgeBits) header.proofOfWork.nonces.toList ∧
        CuckaroomCycle (blockEnds (cuckaroozSipblock (keys header)))
          header.proofOfWork.nonces) := by
  refine ⟨?_, ?_, ?_, ?_⟩
  · exact validateCycle_iff (P := fun edges => Ascending _ edges.toList ∧ CuckatooCycle _ edges _)
      (fun _ => verifyCuckatoo_iff _) header
  · exact validateCycle_iff (P := fun edges => Ascending _ edges.toList ∧ CuckarooCycle _ edges _)
      (fun _ => verifyCuckaroo_iff _) header
  · exact validateCycle_iff (P := fun edges => Ascending _ edges.toList ∧ CuckaroozCycle _ edges)
      (fun _ => verifyCuckarooz_iff) header
  · exact validateCycle_iff (P := fun edges => Ascending _ edges.toList ∧ CuckaroomCycle _ edges)
      (fun _ => verifyCuckaroom_iff) header

end GrinPlusPlus
