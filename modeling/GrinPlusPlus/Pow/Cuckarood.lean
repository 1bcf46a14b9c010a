import GrinPlusPlus.Lib.Lasso
import GrinPlusPlus.Pow.CycleVerifier

/-!
# The cycle verifier with directions

`verify_cuckarood`. Every edge has a direction, its last bit, and a proof has 21 edges of either
one; they are kept apart in the array `uvs`, in which they take turns. From an edge the cycle goes
on with the edge of the *other* direction that meets it, so the search looks at the ends of these
edges only, and an edge of the same direction at the same node goes unnoticed.

This is where the verifier differs from the four of `GrinPlusPlus.verify_exact`: two edges of one
direction may go on with the same edge, so the walk can run into a ring on which the end `0` does
not lie (`Lasso.Caught`). The loop, which only looks for the end `0`, then goes round for ever.

**Otherwise it ends, and accepts the cycles and nothing else**
(`GrinPlusPlus.verifyCuckarood_iff`).
-/

namespace GrinPlusPlus

/-- The direction of an edge. -/
def direction (edge : UInt64) : ℕ := (edge &&& 1).toNat

/-- `NEDGES2`. -/
def cuckaroodEdges : UInt64 := (1 : UInt64) <<< 29

/-- `NODE1MASK`. -/
def cuckaroodNodeMask : UInt64 := cuckaroodEdges / 2 - 1

/-! ### The verifier -/

/-- What `verify_cuckarood` has read. -/
structure DirectionEndpoints where
  /-- `uvs`: the ends of edge number `n` of direction `dir` have the places `4 * n + 2 * dir` and
  `4 * n + 2 * dir + 1`. -/
  uvs : ℕ → UInt64
  /-- `ndir`: how many edges of a direction there are. -/
  ndir : ℕ → ℕ
  /-- `xor0`. -/
  xor0 : UInt64
  /-- `xor1`. -/
  xor1 : UInt64

namespace DirectionEndpoints

/-- Nothing has been read. -/
def empty : DirectionEndpoints := ⟨fun _ => 0, fun _ => 0, 0, 0⟩

/-- An edge is read. -/
def push (ends : UInt64 → UInt64 × UInt64) (s : DirectionEndpoints) (edge : UInt64) :
    DirectionEndpoints :=
  let dir := direction edge
  let place := 4 * s.ndir dir + 2 * dir
  let u := (ends edge).1 &&& cuckaroodNodeMask
  let v := (ends edge).2 &&& cuckaroodNodeMask
  { uvs := Function.update (Function.update s.uvs place u) (place + 1) v
    ndir := Function.update s.ndir dir (s.ndir dir + 1)
    xor0 := s.xor0 ^^^ u
    xor1 := s.xor1 ^^^ v }

@[simp] theorem push_ndir (ends : UInt64 → UInt64 × UInt64) (s : DirectionEndpoints)
    (edge : UInt64) : (s.push ends edge).ndir =
      Function.update s.ndir (direction edge) (s.ndir (direction edge) + 1) := rfl

@[simp] theorem push_uvs (ends : UInt64 → UInt64 × UInt64) (s : DirectionEndpoints)
    (edge : UInt64) : (s.push ends edge).uvs =
      Function.update (Function.update s.uvs (4 * s.ndir (direction edge) + 2 * direction edge)
        ((ends edge).1 &&& cuckaroodNodeMask))
        (4 * s.ndir (direction edge) + 2 * direction edge + 1)
        ((ends edge).2 &&& cuckaroodNodeMask) := rfl

/-- The check for obviously bad proofs. -/
def nonMatching (s : DirectionEndpoints) : Bool :=
  s.xor0 ||| s.xor1 ≠ 0

end DirectionEndpoints

/-- The first loop of `verify_cuckarood`, over the edges behind `previous`. -/
def readCuckarood (ends : UInt64 → UInt64 × UInt64) :
    Option UInt64 → DirectionEndpoints → List UInt64 → Except VerifyCode DirectionEndpoints
  | _, s, [] => .ok s
  | previous, s, edge :: edges =>
    if proofSize / 2 ≤ s.ndir (direction edge) then .error .powUnbalanced
    else if cuckaroodEdges ≤ edge then .error .powTooBig
    else if previous.any fun p => decide (edge ≤ p) then .error .powTooSmall
    else readCuckarood ends (some edge) (s.push ends edge) edges

/-- The ends of the edges of the other direction, on the side of the end `i`. -/
def reverseEnds (i : ℕ) : List ℕ :=
  List.range' ((i % 4) ^^^ 2) (proofSize / 2) 4

/-- The search for the end among `ks` that meets the end `i`, where `j` is the one that was
found – or `i`, as long as there is none. -/
def findReverse (uvs : ℕ → UInt64) (i : ℕ) : List ℕ → ℕ → Except VerifyCode ℕ
  | [], j => .ok j
  | k :: ks, j =>
    if uvs k = uvs i then
      if j ≠ i then .error .powBranch
      else findReverse uvs i ks k
    else findReverse uvs i ks j

/-- The second loop of `verify_cuckarood`, from the end `i` of edge number `n` on. -/
def followCuckarood (uvs : ℕ → UInt64) : ℕ → ℕ → ℕ → Except Exc VerifyCode
  | 0, _, _ => .error .hang
  | rounds + 1, n, i =>
    match findReverse uvs i (reverseEnds i) i with
    | .error code => .ok code
    | .ok j =>
      if j = i then .ok .powDeadEnd
      else
        let i := j ^^^ 1
        if i ≠ 0 then followCuckarood uvs rounds (n + 1) i
        else if n + 1 = proofSize then .ok .powOk
        else .ok .powShortCycle

/-- `verify_cuckarood`, with a bound on the rounds of its second loop, which has none. -/
def verifyCuckarood (ends : UInt64 → UInt64 × UInt64) (edges : Vector UInt64 proofSize)
    (rounds : ℕ) : Except Exc VerifyCode :=
  match readCuckarood ends none .empty edges.toList with
  | .error code => .ok code
  | .ok s => if s.nonMatching then .ok .powNonMatching else followCuckarood s.uvs rounds 0 0

/-! ### The graph -/

section Graph

variable (ends : UInt64 → UInt64 × UInt64) (edges : List UInt64)

/-- The node of an edge on one side. -/
def nodeAt (side : ℕ) (edge : UInt64) : UInt64 :=
  (if side = 0 then (ends edge).1 else (ends edge).2) &&& cuckaroodNodeMask

/-- There are 21 edges of either direction. -/
def Balanced : Prop :=
  ∀ dir < 2, (edges.filter fun e => direction e = dir).length = proofSize / 2

/-- What the nodes on one side add up to is zero. -/
def Matching : Prop :=
  ∀ side < 2, (edges.map (nodeAt ends side)).foldl (· ^^^ ·) 0 = 0

/-- An edge of the other direction, at the node where `e` is left: edges of direction `0` are left
on the first side, and edges of direction `1` on the second. -/
structure MeetsReverse (e f : UInt64) : Prop where
  /-- It is one of the edges. -/
  mem : f ∈ edges
  /-- It has the other direction. -/
  reverse : direction f ≠ direction e
  /-- They meet. -/
  meets : nodeAt ends (direction e) f = nodeAt ends (direction e) e

/-- The edge `f` is the only one of the other direction that meets `e` where `e` is left. -/
def GoesOn (e f : UInt64) : Prop :=
  MeetsReverse ends edges e f ∧ ∀ g, MeetsReverse ends edges e g → g = f

theorem meetsReverse_iff {ends : UInt64 → UInt64 × UInt64} {edges : List UInt64} {e f : UInt64} :
    MeetsReverse ends edges e f ↔ f ∈ edges ∧ direction f ≠ direction e ∧
      nodeAt ends (direction e) f = nodeAt ends (direction e) e :=
  ⟨fun h => ⟨h.mem, h.reverse, h.meets⟩, fun ⟨hmem, hreverse, hmeets⟩ => ⟨hmem, hreverse, hmeets⟩⟩

theorem goesOn_iff {ends : UInt64 → UInt64 × UInt64} {edges : List UInt64} {e f : UInt64} :
    GoesOn ends edges e f ↔
      (f ∈ edges ∧ direction f ≠ direction e ∧
        nodeAt ends (direction e) f = nodeAt ends (direction e) e) ∧
      (edges.all fun g => decide (direction g ≠ direction e →
        nodeAt ends (direction e) g = nodeAt ends (direction e) e → g = f)) = true := by
  rw [GoesOn, meetsReverse_iff, List.all_eq_true]
  refine and_congr_right fun _ => ?_
  constructor
  · exact fun h g hg => decide_eq_true fun hreverse hmeets => h g ⟨hg, hreverse, hmeets⟩
  · exact fun h g hg => of_decide_eq_true (h g hg.mem) hg.reverse hg.meets

instance decidableGoesOn (e f : UInt64) : Decidable (GoesOn ends edges e f) :=
  decidable_of_iff _ goesOn_iff.symm

/-- The walk from the first edge of direction `0` runs into a ring that leaves this edge out. -/
def WalkCaught : Prop :=
  ∃ e₀, (edges.find? fun e => direction e = 0) = some e₀ ∧ Lasso.Caught (GoesOn ends edges) e₀

/-- The side of an end, and the node it lies at. -/
def endKey (k : ℕ) : ℕ × UInt64 :=
  (k % 2, (endpoints cuckaroodNodeMask ends edges).getD k 0)

/-- The direction of the edge of an end. -/
def endDirection (k : ℕ) : ℕ :=
  direction (edges.getD (k / 2) 0)

/-- The edges form a cycle of the graph of `verify_cuckarood`: neighbours meet on one side, at the
same word, and differ in direction. -/
def CuckaroodCycle : Prop :=
  ∃ x, Cycle.IsSimple proofSize (endKey ends edges)
    (fun i j => endDirection edges i ≠ endDirection edges j) x

end Graph

/-! ### What has been read -/

theorem direction_lt (edge : UInt64) : direction edge < 2 := by
  rw [direction, UInt64.toNat_and]
  exact Nat.lt_of_le_of_lt Nat.and_le_right (by decide)

/-- The edges of one direction, in their order. -/
def ofDirection (edges : List UInt64) (dir : ℕ) : List UInt64 :=
  edges.filter fun e => direction e = dir

section Reading

variable {ends : UInt64 → UInt64 × UInt64} {edges : List UInt64} {s : DirectionEndpoints}

@[simp] theorem ofDirection_concat (edge : UInt64) (dir : ℕ) :
    ofDirection (edges ++ [edge]) dir =
      if direction edge = dir then ofDirection edges dir ++ [edge] else ofDirection edges dir := by
  rw [ofDirection, List.filter_append]
  split_ifs with h
  · simp [ofDirection, h]
  · simp [ofDirection, h]

/-- The places of the array that have been filled, and the numbers of the edges. -/
structure Filled (ends : UInt64 → UInt64 × UInt64) (edges : List UInt64)
    (s : DirectionEndpoints) : Prop where
  /-- The edges have been counted. -/
  ndir : ∀ dir, s.ndir dir = (ofDirection edges dir).length
  /-- The ends of an edge have their places. -/
  uvs : ∀ dir < 2, ∀ n edge, (ofDirection edges dir)[n]? = some edge → ∀ side < 2,
    s.uvs (4 * n + 2 * dir + side) = nodeAt ends side edge

theorem filled_empty : Filled ends [] .empty where
  ndir _ := rfl
  uvs dir _ n edge h := by cases h

theorem Filled.push (h : Filled ends edges s) (edge : UInt64) :
    Filled ends (edges ++ [edge]) (s.push ends edge) where
  ndir dir := by
    rw [ofDirection_concat, DirectionEndpoints.push_ndir]
    by_cases hdir : direction edge = dir
    · rw [if_pos hdir, hdir, Function.update_self, h.ndir, List.length_append]
      rfl
    · rw [if_neg hdir, Function.update_of_ne fun heq => hdir heq.symm, h.ndir]
  uvs dir hdir n e hn side hside := by
    have hlt := direction_lt edge
    rw [ofDirection_concat] at hn
    rw [DirectionEndpoints.push_uvs, h.ndir]
    by_cases heq : direction edge = dir
    · rw [if_pos heq] at hn
      subst heq
      rcases Nat.lt_trichotomy n (ofDirection edges (direction edge)).length with hlen | rfl | hlen
      · -- an earlier edge of this direction keeps its places
        rw [List.getElem?_append_left hlen] at hn
        rw [Function.update_of_ne (by omega), Function.update_of_ne (by omega)]
        exact h.uvs _ hdir n e hn side hside
      · rw [List.getElem?_concat_length, Option.some.injEq] at hn
        subst hn
        obtain rfl | rfl : side = 0 ∨ side = 1 := by omega
        · rw [Function.update_of_ne (by omega), Nat.add_zero, Function.update_self]
          rfl
        · rw [Function.update_self]
          rfl
      · rw [List.getElem?_eq_none (by rw [List.length_append, List.length_singleton]; omega)] at hn
        cases hn
    · rw [if_neg heq] at hn
      rw [Function.update_of_ne (by omega), Function.update_of_ne (by omega)]
      exact h.uvs _ hdir n e hn side hside

/-- **The loop fills the places.** -/
theorem filled_foldl (edges : List UInt64) :
    Filled ends edges (edges.foldl (DirectionEndpoints.push ends) .empty) := by
  induction edges using List.reverseRecOn with
  | nil => exact filled_empty
  | append_singleton edges edge ih =>
    rw [List.foldl_append]
    exact ih.push edge

/-- The sums are those of the nodes on either side. -/
theorem foldl_push_xor (edges : List UInt64) (s : DirectionEndpoints) :
    (edges.foldl (DirectionEndpoints.push ends) s).xor0 =
        (edges.map (nodeAt ends 0)).foldl (· ^^^ ·) s.xor0 ∧
      (edges.foldl (DirectionEndpoints.push ends) s).xor1 =
        (edges.map (nodeAt ends 1)).foldl (· ^^^ ·) s.xor1 := by
  induction edges generalizing s with
  | nil => exact ⟨rfl, rfl⟩
  | cons edge edges ih => exact ih (s.push ends edge)

/-- The check of the sums. -/
theorem nonMatching_foldl (edges : List UInt64) :
    (edges.foldl (DirectionEndpoints.push ends) .empty).nonMatching = false ↔
      Matching ends edges := by
  obtain ⟨h0, h1⟩ := @foldl_push_xor ends edges .empty
  rw [DirectionEndpoints.nonMatching, h0, h1, decide_eq_false_iff_not, not_not,
    UInt64.or_eq_zero_iff]
  constructor
  · rintro ⟨hu, hv⟩ side hside
    obtain rfl | rfl : side = 0 ∨ side = 1 := by omega
    · exact hu
    · exact hv
  · exact fun h => ⟨h 0 (by decide), h 1 (by decide)⟩

@[simp] theorem ofDirection_cons (edge : UInt64) (dir : ℕ) :
    ofDirection (edge :: edges) dir =
      if direction edge = dir then edge :: ofDirection edges dir else ofDirection edges dir := by
  simp only [ofDirection, List.filter_cons, decide_eq_true_eq]

/-- An edge is of the one direction or of the other. -/
theorem length_ofDirection (edges : List UInt64) :
    (ofDirection edges 0).length + (ofDirection edges 1).length = edges.length := by
  induction edges with
  | nil => rfl
  | cons edge edges ih =>
    have hlt := direction_lt edge
    rw [ofDirection_cons, ofDirection_cons, List.length_cons]
    obtain h | h : direction edge = 0 ∨ direction edge = 1 := by omega
    · rw [if_pos h, if_neg (by omega), List.length_cons]
      omega
    · rw [if_neg (by omega), if_pos h, List.length_cons]
      omega

theorem cuckaroodEdges_le_iff (edge : UInt64) :
    cuckaroodEdges ≤ edge ↔ edgeMaskOf cuckaroozEdgeBits < edge := by
  rw [UInt64.le_iff_toNat_le, UInt64.lt_iff_toNat_lt]
  have hmask : cuckaroodEdges.toNat = (edgeMaskOf cuckaroozEdgeBits).toNat + 1 := by decide
  omega

theorem readCuckarood_error {previous : Option UInt64} {code : VerifyCode}
    (h : readCuckarood ends previous s edges = .error code) : code ≠ .powOk := by
  induction edges generalizing previous s with
  | nil => cases h
  | cons edge edges ih =>
    rw [readCuckarood] at h
    split_ifs at h with hfull hbig hsmall
    · rintro rfl
      cases h
    · rintro rfl
      cases h
    · rintro rfl
      cases h
    · exact ih h

/-- The loop differs from that of the other verifiers in the room it has for either direction. -/
theorem readCuckarood_eq_ok {previous : Option UInt64} {s' : DirectionEndpoints}
    (hroom : ∀ dir < 2, s.ndir dir ≤ proofSize / 2) :
    readCuckarood ends previous s edges = .ok s' ↔
      readEdges (edgeMaskOf cuckaroozEdgeBits) (DirectionEndpoints.push ends) previous s edges =
        .ok s' ∧
      ∀ dir < 2, s.ndir dir + (ofDirection edges dir).length ≤ proofSize / 2 := by
  induction edges generalizing previous s with
  | nil =>
    rw [readCuckarood, readEdges]
    exact ⟨fun h => ⟨h, hroom⟩, fun h => h.1⟩
  | cons edge edges ih =>
    rw [readCuckarood, readEdges]
    -- what is left of the room after this edge
    have hcount : ∀ dir, s.ndir dir + (ofDirection (edge :: edges) dir).length =
        (s.push ends edge).ndir dir + (ofDirection edges dir).length := by
      intro dir
      rw [ofDirection_cons, DirectionEndpoints.push_ndir]
      by_cases hdir : direction edge = dir
      · rw [if_pos hdir, hdir, Function.update_self, List.length_cons]
        omega
      · rw [if_neg hdir, Function.update_of_ne fun heq => hdir heq.symm]
    by_cases hfull : proofSize / 2 ≤ s.ndir (direction edge)
    · rw [if_pos hfull]
      refine ⟨fun h => (by cases h), fun h => ?_⟩
      have hle := h.2 (direction edge) (direction_lt edge)
      rw [ofDirection_cons, if_pos rfl, List.length_cons] at hle
      omega
    rw [if_neg hfull]
    simp only [cuckaroodEdges_le_iff, hcount]
    split_ifs with hbig hsmall
    · simp
    · simp
    · refine ih fun dir hlt => ?_
      rw [DirectionEndpoints.push_ndir]
      by_cases hdir : direction edge = dir
      · rw [hdir, Function.update_self]
        rw [hdir] at hfull
        omega
      · rw [Function.update_of_ne fun heq => hdir heq.symm]
        exact hroom dir hlt

/-- **The loop reads the edges to the end if they ascend within the graph, and there are 21 of
either direction.** -/
theorem readCuckarood_iff {edges : Vector UInt64 proofSize} {s : DirectionEndpoints} :
    readCuckarood ends none .empty edges.toList = .ok s ↔
      (Ascending (edgeMaskOf cuckaroozEdgeBits) edges.toList ∧ Balanced edges.toList) ∧
        s = edges.toList.foldl (DirectionEndpoints.push ends) .empty := by
  have hlen := length_ofDirection edges.toList
  rw [Vector.length_toList] at hlen
  have hbalanced : (∀ dir < 2, DirectionEndpoints.empty.ndir dir +
      (ofDirection edges.toList dir).length ≤ proofSize / 2) ↔ Balanced edges.toList := by
    have hempty : ∀ dir, DirectionEndpoints.empty.ndir dir = 0 := fun _ => rfl
    simp only [hempty, Nat.zero_add]
    constructor
    · intro h dir hdir
      have h0 := h 0 (by decide)
      have h1 := h 1 (by decide)
      show (ofDirection edges.toList dir).length = proofSize / 2
      unfold proofSize at *
      obtain rfl | rfl : dir = 0 ∨ dir = 1 := by omega
      · omega
      · omega
    · exact fun h dir hdir => (h dir hdir).le
  rw [readCuckarood_eq_ok fun dir _ => Nat.zero_le _, readEdges_eq_ok_iff, hbalanced]
  exact and_right_comm

end Reading

/-! ### The search -/

section Search

variable {uvs : ℕ → UInt64} {i : ℕ} {ks : List ℕ}

/-- Once an end has been found, there must be no other one. -/
theorem findReverse_of_ne {j : ℕ} (hj : j ≠ i) :
    findReverse uvs i ks j =
      if ∃ k ∈ ks, uvs k = uvs i then .error .powBranch else .ok j := by
  induction ks with
  | nil => simp [findReverse]
  | cons k ks ih =>
    rw [findReverse, if_pos hj, ih]
    by_cases hk : uvs k = uvs i
    · rw [if_pos hk, if_pos ⟨k, List.mem_cons_self, hk⟩]
    · rw [if_neg hk]
      simp only [List.exists_mem_cons_iff, hk, false_or]

/-- **The search finds the end that meets the end `i`**, if there is just one. -/
theorem findReverse_spec (uvs : ℕ → UInt64) (hi : i ∉ ks) (hnodup : ks.Nodup) :
    (∃ y, (y ∈ ks ∧ uvs y = uvs i ∧ ∀ z ∈ ks, uvs z = uvs i → z = y) ∧
      findReverse uvs i ks i = .ok y) ∨
    (¬ ∃ y, y ∈ ks ∧ uvs y = uvs i ∧ ∀ z ∈ ks, uvs z = uvs i → z = y) ∧
      (findReverse uvs i ks i = .ok i ∨ findReverse uvs i ks i = .error .powBranch) := by
  induction ks with
  | nil => exact .inr ⟨by simp, .inl rfl⟩
  | cons k ks ih =>
    rw [List.mem_cons, not_or] at hi
    obtain ⟨hk, hnodup⟩ := List.nodup_cons.1 hnodup
    rw [findReverse]
    by_cases hmeets : uvs k = uvs i
    · rw [if_pos hmeets, if_neg (not_not.2 rfl), findReverse_of_ne (Ne.symm hi.1)]
      by_cases hother : ∃ z ∈ ks, uvs z = uvs i
      · rw [if_pos hother]
        obtain ⟨z, hz, hzmeets⟩ := hother
        refine .inr ⟨?_, .inr rfl⟩
        rintro ⟨y, -, -, hy⟩
        have hky := hy k List.mem_cons_self hmeets
        have hzy := hy z (List.mem_cons_of_mem k hz) hzmeets
        exact hk (hky.trans hzy.symm ▸ hz)
      · rw [if_neg hother]
        refine .inl ⟨k, ⟨List.mem_cons_self, hmeets, fun z hz hzmeets => ?_⟩, rfl⟩
        rcases List.mem_cons.1 hz with rfl | hz
        · rfl
        · exact absurd ⟨z, hz, hzmeets⟩ hother
    · rw [if_neg hmeets]
      have hsame : ∀ y, (y ∈ k :: ks ∧ uvs y = uvs i ∧ ∀ z ∈ k :: ks, uvs z = uvs i → z = y) ↔
          y ∈ ks ∧ uvs y = uvs i ∧ ∀ z ∈ ks, uvs z = uvs i → z = y := by
        intro y
        constructor
        · rintro ⟨hy, hymeets, hunique⟩
          rcases List.mem_cons.1 hy with rfl | hy
          · exact absurd hymeets hmeets
          · exact ⟨hy, hymeets, fun z hz => hunique z (List.mem_cons_of_mem k hz)⟩
        · rintro ⟨hy, hymeets, hunique⟩
          refine ⟨List.mem_cons_of_mem k hy, hymeets, fun z hz hzmeets => ?_⟩
          rcases List.mem_cons.1 hz with rfl | hz
          · exact absurd hzmeets hmeets
          · exact hunique z hz hzmeets
      simp only [hsame]
      exact ih hi.2 hnodup

end Search

/-! ### The places of the ends -/

/-- The end through which an edge is left. -/
def exitEnd (edges : List UInt64) (edge : UInt64) : ℕ :=
  4 * (ofDirection edges (direction edge)).idxOf edge + 3 * direction edge

/-- The end through which it is entered. -/
def enterEnd (edges : List UInt64) (edge : UInt64) : ℕ :=
  4 * (ofDirection edges (direction edge)).idxOf edge + direction edge + 1

section Places

variable {ends : UInt64 → UInt64 × UInt64} {edges : List UInt64} {s : DirectionEndpoints}
  {e f : UInt64}

@[simp] theorem mem_ofDirection {dir : ℕ} :
    e ∈ ofDirection edges dir ↔ e ∈ edges ∧ direction e = dir := by
  rw [ofDirection, List.mem_filter, decide_eq_true_eq]

theorem enterEnd_xor (edges : List UInt64) (e : UInt64) :
    enterEnd edges e ^^^ 1 = exitEnd edges e := by
  have hlt := direction_lt e
  have hdiv := Cycle.other_div_two (enterEnd edges e)
  have hmod := Cycle.other_mod_two (enterEnd edges e)
  rw [Cycle.other] at hdiv hmod
  unfold enterEnd exitEnd at *
  omega

theorem getElem?_idxOf_ofDirection (he : e ∈ edges) :
    (ofDirection edges (direction e))[(ofDirection edges (direction e)).idxOf e]? = some e :=
  List.getElem?_idxOf (mem_ofDirection.2 ⟨he, rfl⟩)

theorem Filled.uvs_exitEnd (h : Filled ends edges s) (he : e ∈ edges) :
    s.uvs (exitEnd edges e) = nodeAt ends (direction e) e := by
  rw [← h.uvs _ (direction_lt e) _ e (getElem?_idxOf_ofDirection he) _ (direction_lt e)]
  congr 1
  unfold exitEnd
  omega

theorem Filled.uvs_enterEnd (h : Filled ends edges s) (hf : f ∈ edges)
    (hdir : direction f ≠ direction e) :
    s.uvs (enterEnd edges f) = nodeAt ends (direction e) f := by
  have he := direction_lt e
  have hf' := direction_lt f
  rw [← h.uvs _ hf' _ f (getElem?_idxOf_ofDirection hf) _ he]
  congr 1
  unfold enterEnd
  omega

/-- An edge is determined by where it is left, -/
theorem exitEnd_inj (he : e ∈ edges) (h : exitEnd edges e = exitEnd edges f) : e = f := by
  have hlt := direction_lt e
  have hlt' := direction_lt f
  have hdir : direction e = direction f := by
    unfold exitEnd at h
    omega
  unfold exitEnd at h
  rw [hdir] at h
  exact (List.idxOf_inj (mem_ofDirection.2 ⟨he, hdir⟩)).1 (by omega)

/-- The search starts at the first edge of the other direction. -/
theorem exitEnd_mod_xor (edges : List UInt64) (e : UInt64) :
    (exitEnd edges e % 4) ^^^ 2 = 2 - direction e := by
  have hlt := direction_lt e
  have hmod : exitEnd edges e % 4 = 3 * direction e := by
    unfold exitEnd
    omega
  rw [hmod]
  obtain h | h : direction e = 0 ∨ direction e = 1 := by omega
  · rw [h]
    rfl
  · rw [h]
    rfl

/-- **The search looks at the edges of the other direction**, at the ends where they are
entered. -/
theorem mem_reverseEnds (hbalanced : Balanced edges) (hnodup : edges.Nodup) {k : ℕ} :
    k ∈ reverseEnds (exitEnd edges e) ↔
      ∃ f ∈ edges, direction f ≠ direction e ∧ k = enterEnd edges f := by
  have hlt := direction_lt e
  rw [reverseEnds, exitEnd_mod_xor, List.mem_range']
  constructor
  · rintro ⟨n, hn, rfl⟩
    rw [← hbalanced (1 - direction e) (by omega)] at hn
    obtain ⟨hf, hdir⟩ := mem_ofDirection.1 (List.getElem_mem hn)
    refine ⟨_, hf, by rw [hdir]; omega, ?_⟩
    rw [enterEnd, hdir, ofDirection, (hnodup.filter _).idxOf_getElem n hn]
    omega
  · rintro ⟨f, hf, hdir, rfl⟩
    have hlt' := direction_lt f
    have hn := List.idxOf_lt_length_of_mem (mem_ofDirection.2 ⟨hf, rfl⟩)
    rw [show (ofDirection edges (direction f)).length = proofSize / 2 from
      hbalanced _ hlt'] at hn
    refine ⟨_, hn, ?_⟩
    unfold enterEnd
    omega

theorem enterEnd_inj (he : e ∈ edges) (h : enterEnd edges e = enterEnd edges f) : e = f := by
  refine exitEnd_inj he ?_
  rw [← enterEnd_xor, ← enterEnd_xor, h]

theorem exitEnd_ne_enterEnd : exitEnd edges e ≠ enterEnd edges f := by
  have hlt := direction_lt e
  have hlt' := direction_lt f
  unfold exitEnd enterEnd
  obtain h | h : direction e = 0 ∨ direction e = 1 := by omega
  · rw [h]
    omega
  · rw [h]
    omega

/-- The walk starts at the first edge of direction `0`. -/
theorem exitEnd_first {e₀ : UInt64} (hfirst : (edges.find? fun e => direction e = 0) = some e₀) :
    exitEnd edges e₀ = 0 := by
  have hdir : direction e₀ = 0 := by simpa using List.find?_some hfirst
  have hhead : (ofDirection edges 0).head? = some e₀ := by
    rw [ofDirection, List.head?_filter, hfirst]
  obtain ⟨rest, hrest⟩ := List.head?_eq_some_iff.1 hhead
  rw [exitEnd, hdir, hrest, List.idxOf_cons_self]

end Places

/-! ### One round of the loop -/

section Round

variable {ends : UInt64 → UInt64 × UInt64} {edges : List UInt64} {s : DirectionEndpoints}
  {e f : UInt64}

/-- What the search looks for: the edge that goes on. -/
theorem exists_goesOn_iff (hs : Filled ends edges s) (hbalanced : Balanced edges)
    (hnodup : edges.Nodup) (he : e ∈ edges) (y : ℕ) :
    (y ∈ reverseEnds (exitEnd edges e) ∧ s.uvs y = s.uvs (exitEnd edges e) ∧
      ∀ z ∈ reverseEnds (exitEnd edges e), s.uvs z = s.uvs (exitEnd edges e) → z = y) ↔
      ∃ f, GoesOn ends edges e f ∧ y = enterEnd edges f := by
  have hmeets : ∀ g ∈ edges, direction g ≠ direction e →
      (s.uvs (enterEnd edges g) = s.uvs (exitEnd edges e) ↔
        nodeAt ends (direction e) g = nodeAt ends (direction e) e) := by
    intro g hg hdir
    rw [hs.uvs_exitEnd he, hs.uvs_enterEnd hg hdir]
  constructor
  · rintro ⟨hy, hymeets, hunique⟩
    obtain ⟨f, hf, hdir, rfl⟩ := (mem_reverseEnds hbalanced hnodup).1 hy
    refine ⟨f, ⟨⟨hf, hdir, (hmeets f hf hdir).1 hymeets⟩, fun g hg => ?_⟩, rfl⟩
    exact enterEnd_inj hg.mem (hunique _
      ((mem_reverseEnds hbalanced hnodup).2 ⟨g, hg.mem, hg.reverse, rfl⟩)
      ((hmeets g hg.mem hg.reverse).2 hg.meets))
  · rintro ⟨f, ⟨hf, hunique⟩, rfl⟩
    refine ⟨(mem_reverseEnds hbalanced hnodup).2 ⟨f, hf.mem, hf.reverse, rfl⟩,
      (hmeets f hf.mem hf.reverse).2 hf.meets, fun z hz hzmeets => ?_⟩
    obtain ⟨g, hg, hdir, rfl⟩ := (mem_reverseEnds hbalanced hnodup).1 hz
    rw [hunique g ⟨hg, hdir, (hmeets g hg hdir).1 hzmeets⟩]

/-- **What a round does**: it goes on with the edge that goes on; if there is none, or more than
one, it ends. -/
theorem followCuckarood_succ (hs : Filled ends edges s) (hbalanced : Balanced edges)
    (hnodup : edges.Nodup) (he : e ∈ edges) (rounds n : ℕ) :
    (∃ f, GoesOn ends edges e f ∧
      followCuckarood s.uvs (rounds + 1) n (exitEnd edges e) =
        if exitEnd edges f ≠ 0 then followCuckarood s.uvs rounds (n + 1) (exitEnd edges f)
        else if n + 1 = proofSize then .ok .powOk
        else .ok .powShortCycle) ∨
    (¬ ∃ f, GoesOn ends edges e f) ∧
      ∃ code, followCuckarood s.uvs (rounds + 1) n (exitEnd edges e) = .ok code ∧
        code ≠ .powOk := by
  have hother : exitEnd edges e ∉ reverseEnds (exitEnd edges e) := by
    intro hmem
    obtain ⟨f, -, -, hf⟩ := (mem_reverseEnds hbalanced hnodup).1 hmem
    exact exitEnd_ne_enterEnd hf
  have hspec := findReverse_spec s.uvs hother (List.nodup_range' 4)
  simp only [exists_goesOn_iff hs hbalanced hnodup he] at hspec
  rcases hspec with ⟨y, ⟨f, hf, rfl⟩, hfound⟩ | ⟨hnone, hfound⟩
  · refine .inl ⟨f, hf, ?_⟩
    rw [followCuckarood, hfound]
    dsimp only
    rw [if_neg exitEnd_ne_enterEnd.symm, enterEnd_xor]
  · refine .inr ⟨fun ⟨f, hf⟩ => hnone ⟨_, f, hf, rfl⟩, ?_⟩
    rw [followCuckarood]
    rcases hfound with hfound | hfound
    · rw [hfound]
      dsimp only
      rw [if_pos rfl]
      exact ⟨_, rfl, by simp⟩
    · rw [hfound]
      exact ⟨_, rfl, by simp⟩

/-- Only one edge goes on. -/
theorem rightUnique_goesOn : Relator.RightUnique (GoesOn ends edges) :=
  fun _ f _ hf hg => hg.2 f hf.1

theorem exitEnd_eq_zero_iff {e₀ : UInt64}
    (hfirst : (edges.find? fun e => direction e = 0) = some e₀) (hf : f ∈ edges) :
    exitEnd edges f = 0 ↔ f = e₀ := by
  constructor
  · intro h
    exact exitEnd_inj hf (h.trans (exitEnd_first hfirst).symm)
  · rintro rfl
    exact exitEnd_first hfirst

end Round

/-! ### Following the cycle -/

section Follow

variable {ends : UInt64 → UInt64 × UInt64} {edges : List UInt64} {s : DirectionEndpoints}
  {e₀ : UInt64}

/-- A walk stays among the edges. -/
theorem mem_of_walk (hfirst : (edges.find? fun e => direction e = 0) = some e₀) {n : ℕ}
    {p : ℕ → UInt64} (hp : Lasso.Walk (GoesOn ends edges) e₀ n p) : ∀ k ≤ n, p k ∈ edges :=
  hp.all (List.mem_of_find?_eq_some hfirst) fun _ _ h => h.1.mem

/-- **A walk that is not caught ends, and ends well if it is back after all edges.** -/
theorem followCuckarood_of_free (hs : Filled ends edges s) (hbalanced : Balanced edges)
    (hnodup : edges.Nodup) (hfirst : (edges.find? fun e => direction e = 0) = some e₀)
    (hfree : ¬ Lasso.Caught (GoesOn ends edges) e₀) :
    ∀ (rounds n : ℕ) (p : ℕ → UInt64), proofSize ≤ n + rounds →
      Lasso.Walk (GoesOn ends edges) e₀ n p → (0 < n → p n ≠ e₀) →
      ∃ code, followCuckarood s.uvs rounds n (exitEnd edges (p n)) = .ok code ∧
        (code = .powOk ↔
          ∃ q, Lasso.Walk (GoesOn ends edges) e₀ proofSize q ∧ q proofSize = e₀) := by
  have hlen : edges.toFinset.card = proofSize := by
    have h0 := hbalanced 0 (by decide)
    have h1 := hbalanced 1 (by decide)
    have hsum := length_ofDirection edges
    rw [ofDirection, ofDirection, h0, h1] at hsum
    rw [List.toFinset_card_of_nodup hnodup, ← hsum]
    rfl
  intro rounds
  induction rounds with
  | zero =>
    intro n p hrounds hp haway
    have hlt := hp.lt_card hfree haway edges.toFinset fun k hk =>
      List.mem_toFinset.2 (mem_of_walk hfirst hp k hk)
    omega
  | succ rounds ih =>
    intro n p hrounds hp haway
    have hlt := hp.lt_card hfree haway edges.toFinset fun k hk =>
      List.mem_toFinset.2 (mem_of_walk hfirst hp k hk)
    rw [hlen] at hlt
    rcases followCuckarood_succ hs hbalanced hnodup (mem_of_walk hfirst hp n le_rfl) rounds n with
      ⟨f, hf, hround⟩ | ⟨hnone, code, hround, hcode⟩
    · have hsnoc := hp.snoc haway hf
      rw [hround]
      by_cases hback : exitEnd edges f = 0
      · obtain rfl := (exitEnd_eq_zero_iff hfirst hf.1.mem).1 hback
        rw [if_neg (not_not.2 hback)]
        by_cases hfull : n + 1 = proofSize
        · rw [if_pos hfull]
          refine ⟨_, rfl, fun _ => ⟨_, hfull ▸ hsnoc, ?_⟩, fun _ => rfl⟩
          rw [← hfull, Function.update_self]
        · -- a walk over all edges would have come back too early
          rw [if_neg hfull]
          refine ⟨_, rfl, by simp, ?_⟩
          rintro ⟨q, hq, -⟩
          have hsame := hsnoc.unique rightUnique_goesOn hq (n + 1) le_rfl hlt
          rw [Function.update_self] at hsame
          exact absurd hsame.symm (hq.away (n + 1) (Nat.succ_pos n) (by omega))
      · rw [if_pos hback]
        have hih := ih (n + 1) _ (by omega) hsnoc fun _ => by
          rw [Function.update_self]
          exact fun heq => hback ((exitEnd_eq_zero_iff hfirst hf.1.mem).2 heq)
        rwa [Function.update_self] at hih
    · refine ⟨code, hround, fun h => absurd h hcode, ?_⟩
      rintro ⟨q, hq, -⟩
      have hstep := hq.step n hlt
      rw [← hp.unique rightUnique_goesOn hq n le_rfl hlt.le] at hstep
      exact absurd ⟨_, hstep⟩ hnone

/-- **A walk that is caught never ends.** -/
theorem followCuckarood_of_caught (hs : Filled ends edges s) (hbalanced : Balanced edges)
    (hnodup : edges.Nodup) (hfirst : (edges.find? fun e => direction e = 0) = some e₀)
    (hcaught : Lasso.Caught (GoesOn ends edges) e₀) (rounds : ℕ) :
    followCuckarood s.uvs rounds 0 0 = .error .hang := by
  obtain ⟨p, m, n, hp, hm, hring, hleft⟩ := hcaught
  have hround : ∀ rounds count k, k < n →
      followCuckarood s.uvs rounds count (exitEnd edges (p k)) = .error .hang := by
    intro rounds
    induction rounds with
    | zero => exact fun _ _ _ => rfl
    | succ rounds ih =>
      intro count k hk
      have hstep := hp.step k hk
      rcases followCuckarood_succ hs hbalanced hnodup (mem_of_walk hfirst hp k hk.le) rounds count
        with ⟨f, hf, hround⟩ | ⟨hnone, -⟩
      · obtain rfl := rightUnique_goesOn hf hstep
        have haway : p (k + 1) ≠ e₀ := by
          rcases Nat.lt_or_ge (k + 1) n with hlt | hge
          · exact hp.away (k + 1) (Nat.succ_pos k) hlt
          · rwa [show k + 1 = n by omega]
        rw [hround, if_pos fun h => haway ((exitEnd_eq_zero_iff hfirst hf.1.mem).1 h)]
        rcases Nat.lt_or_ge (k + 1) n with hlt | hge
        · exact ih (count + 1) (k + 1) hlt
        · -- once round the ring
          rw [show k + 1 = n by omega, ← hring]
          exact ih (count + 1) m hm
      · exact absurd ⟨_, hstep⟩ hnone
  have hstart := hround rounds 0 0 (by omega)
  rwa [hp.start, exitEnd_first hfirst] at hstart

end Follow

/-! ### Walks and cycles -/

section Cycles

variable {ends : UInt64 → UInt64 × UInt64} {edges : List UInt64} {e f : UInt64}

/-- The number of the end through which an edge is left. -/
def exitNumber (edges : List UInt64) (edge : UInt64) : ℕ :=
  2 * edges.idxOf edge + direction edge

theorem endKey_eq {k : ℕ} (hk : k < 2 * edges.length) :
    endKey ends edges k = (k % 2, nodeAt ends (k % 2) (edges.getD (k / 2) 0)) := by
  have hlt : k / 2 < edges.length := by omega
  have hmap : ∀ g : UInt64 → UInt64, (edges.map g).getD (k / 2) 0 = g (edges.getD (k / 2) 0) := by
    intro g
    rw [List.getD_eq_getElem _ _ (by rwa [List.length_map]), List.getElem_map,
      List.getD_eq_getElem _ _ hlt]
  rw [endKey]
  congr 1
  obtain h | h : k % 2 = 0 ∨ k % 2 = 1 := by omega
  · rw [show k = 2 * (k / 2) by omega, getD_endpoints_fst, ← show k = 2 * (k / 2) by omega, hmap, h]
    rfl
  · rw [show k = 2 * (k / 2) + 1 by omega, getD_endpoints_snd,
      ← show k = 2 * (k / 2) + 1 by omega, hmap, h]
    rfl

theorem exitNumber_div (edges : List UInt64) (e : UInt64) :
    exitNumber edges e / 2 = edges.idxOf e := by
  have hlt := direction_lt e
  unfold exitNumber
  omega

theorem exitNumber_mod (edges : List UInt64) (e : UInt64) :
    exitNumber edges e % 2 = direction e := by
  have hlt := direction_lt e
  unfold exitNumber
  omega

theorem exitNumber_lt (he : e ∈ edges) : exitNumber edges e < 2 * edges.length := by
  have hlt := direction_lt e
  have hidx := List.idxOf_lt_length_of_mem he
  unfold exitNumber
  omega

theorem getD_idxOf (he : e ∈ edges) : edges.getD (edges.idxOf e) 0 = e := by
  rw [List.getD_eq_getElem?_getD, List.getElem?_idxOf he, Option.getD_some]

theorem endKey_exitNumber (he : e ∈ edges) :
    endKey ends edges (exitNumber edges e) = (direction e, nodeAt ends (direction e) e) := by
  rw [endKey_eq (exitNumber_lt he), exitNumber_mod, exitNumber_div, getD_idxOf he]

/-- An edge of the other direction is entered on the side where an edge is left. -/
theorem endKey_other (hf : f ∈ edges) (hdir : direction f ≠ direction e) :
    endKey ends edges (Cycle.other (exitNumber edges f)) =
      (direction e, nodeAt ends (direction e) f) := by
  have hlt := direction_lt e
  have hlt' := direction_lt f
  have hside : (exitNumber edges f + 1) % 2 = direction e := by
    rw [Nat.add_mod, exitNumber_mod]
    omega
  rw [endKey_eq (Cycle.other_lt (exitNumber_lt hf)), Cycle.other_mod_two, Cycle.other_div_two,
    exitNumber_div, getD_idxOf hf, hside]

theorem endDirection_exitNumber (he : e ∈ edges) :
    endDirection edges (exitNumber edges e) = direction e := by
  rw [endDirection, exitNumber_div, getD_idxOf he]

theorem endDirection_other (edges : List UInt64) (k : ℕ) :
    endDirection edges (Cycle.other k) = endDirection edges k := by
  rw [endDirection, Cycle.other_div_two, endDirection]

theorem exitNumber_inj (he : e ∈ edges) (h : exitNumber edges e = exitNumber edges f) : e = f := by
  refine (List.idxOf_inj he).1 ?_
  rw [← exitNumber_div, h, exitNumber_div]

variable {e₀ : UInt64}

/-- **A walk that is back after all edges goes round a cycle.** -/
theorem cycle_of_walk (hlen : edges.length = proofSize) {q : ℕ → UInt64}
    (hmem : ∀ k ≤ proofSize, q k ∈ edges) (hq : Lasso.Walk (GoesOn ends edges) e₀ proofSize q)
    (hback : q proofSize = e₀) : CuckaroodCycle ends edges := by
  have hin : ∀ k : ZMod proofSize, q k.val ∈ edges := fun k => hmem _ (ZMod.val_lt k).le
  have hstep : ∀ k : ZMod proofSize, GoesOn ends edges (q k.val) (q (k + 1).val) := by
    intro k
    rw [Cycle.val_succ (hback.trans hq.start.symm)]
    exact hq.step k.val (ZMod.val_lt k)
  have hinj : ∀ a b : ZMod proofSize, q a.val = q b.val → a = b := fun a b h =>
    ZMod.val_injective _
      (hq.injOn_of_back rightUnique_goesOn hback _ _ (ZMod.val_lt a) (ZMod.val_lt b) h)
  refine ⟨fun k => exitNumber edges (q k.val), ⟨fun k => ?_, fun a b hab => ?_, fun k => ?_,
    fun k => ?_, fun a b hab => ?_⟩⟩
  · exact (exitNumber_lt (hin k)).trans_eq (congrArg (2 * ·) hlen)
  · rw [exitNumber_div, exitNumber_div] at hab
    exact hinj a b ((List.idxOf_inj (hin a)).1 hab)
  · rw [endKey_other (hin (k + 1)) (hstep k).1.reverse, endKey_exitNumber (hin k),
      (hstep k).1.meets]
  · rw [endDirection_other, endDirection_exitNumber (hin k), endDirection_exitNumber (hin (k + 1))]
    exact (hstep k).1.reverse.symm
  · -- the two edges are left at the same node, and go on with the same edge
    rw [endKey_exitNumber (hin a), endKey_exitNumber (hin b), Prod.mk.injEq] at hab
    obtain ⟨hdir, hnode⟩ := hab
    have hb := (hstep b).1
    have hsame := (hstep a).2 _ ⟨hb.mem, hdir ▸ hb.reverse, by rw [hnode, hdir, hb.meets]⟩
    exact add_right_cancel (hinj _ _ hsame.symm)

/-- A cycle can be gone round in the direction in which a given edge is left. -/
theorem CuckaroodCycle.exists_exit (h : CuckaroodCycle ends edges)
    (hlen : edges.length = proofSize) (he₀ : e₀ ∈ edges) :
    ∃ x, Cycle.IsSimple proofSize (endKey ends edges)
      (fun i j => endDirection edges i ≠ endDirection edges j) x ∧
      ∃ k₀, x k₀ = exitNumber edges e₀ := by
  obtain ⟨x, hx⟩ := h
  have hlt : exitNumber edges e₀ < 2 * proofSize := (exitNumber_lt he₀).trans_eq (congrArg _ hlen)
  obtain ⟨k, hk | hk⟩ := hx.exists_end hlt
  · exact ⟨x, hx, k, hk.symm⟩
  · exact ⟨_, hx.reverse fun _ _ => Ne.symm, -k, by rw [neg_neg, ← hk]⟩

/-- Once an edge is left on the side of its direction, all are: both the side and the direction
change from edge to edge. -/
theorem isExit_of_cycle {x : ZMod proofSize → ℕ}
    (hx : Cycle.IsSimple proofSize (endKey ends edges)
      (fun i j => endDirection edges i ≠ endDirection edges j) x)
    {k₀ : ZMod proofSize} (hk₀ : x k₀ % 2 = endDirection edges (x k₀)) (n : ℕ) :
    x (k₀ + n) % 2 = endDirection edges (x (k₀ + n)) := by
  have hlt : ∀ k, endDirection edges k < 2 := fun k => direction_lt _
  induction n with
  | zero => rwa [Nat.cast_zero, add_zero]
  | succ n ih =>
    have hside := hx.mod_two_succ (fun y z h => (Prod.mk.inj h).1) (k₀ + n)
    have hdir := hx.fits (k₀ + n)
    rw [endDirection_other] at hdir
    rw [Nat.cast_succ, ← add_assoc, hside]
    have h0 := hlt (x (k₀ + n))
    have h1 := hlt (x (k₀ + n + 1))
    omega

/-- **A cycle is a walk that is back after all edges.** -/
theorem walk_of_cycle (hlen : edges.length = proofSize) (hnodup : edges.Nodup) (he₀ : e₀ ∈ edges)
    (h : CuckaroodCycle ends edges) :
    ∃ q, Lasso.Walk (GoesOn ends edges) e₀ proofSize q ∧ q proofSize = e₀ := by
  obtain ⟨x, hx, k₀, hk₀⟩ := h.exists_exit hlen he₀
  have hx2 : ∀ k, x k / 2 < edges.length := fun k => by
    have := hx.lt k
    omega
  have hexit : ∀ n : ℕ, ∃ e ∈ edges, x (k₀ + n) = exitNumber edges e := by
    intro n
    have hexit₀ : x k₀ % 2 = endDirection edges (x k₀) := by
      rw [hk₀, exitNumber_mod, endDirection_exitNumber he₀]
    have hside := isExit_of_cycle hx hexit₀ n
    refine ⟨_, List.getElem_mem (hx2 (k₀ + n)), ?_⟩
    rw [endDirection, List.getD_eq_getElem _ _ (hx2 (k₀ + n))] at hside
    rw [exitNumber, hnodup.idxOf_getElem _ (hx2 (k₀ + n)), ← hside]
    omega
  choose q hq hexit using hexit
  have hstart : q 0 = e₀ := by
    refine exitNumber_inj (hq 0) ?_
    rw [← hexit, Nat.cast_zero, add_zero, hk₀]
  refine ⟨q, ⟨hstart, fun k _ => ?_, fun k hpos hk heq => ?_⟩, ?_⟩
  · have hnext : x (k₀ + k + 1) = exitNumber edges (q (k + 1)) := by
      rw [← hexit, Nat.cast_succ, add_assoc]
    have hmate := hx.mate (k₀ + k)
    have hfits := hx.fits (k₀ + k)
    rw [hnext, hexit] at hmate hfits
    rw [endDirection_other, endDirection_exitNumber (hq k), endDirection_exitNumber (hq (k + 1))]
      at hfits
    have hmeets := hmate.key_eq
    rw [endKey_other (hq (k + 1)) hfits.symm, endKey_exitNumber (hq k)] at hmeets
    refine ⟨⟨hq (k + 1), hfits.symm, (Prod.mk.inj hmeets).2⟩, fun g hg => ?_⟩
    -- there is no other edge at this node, of either direction
    have hother := hmate.unique (Cycle.other (exitNumber edges g))
      (Cycle.other_lt ((exitNumber_lt hg.mem).trans_eq (congrArg _ hlen))) (fun heq => by
        have hedge : edges.idxOf g = edges.idxOf (q k) := by
          rw [← exitNumber_div, ← Cycle.other_div_two, heq, exitNumber_div]
        exact hg.reverse (by rw [(List.idxOf_inj hg.mem).1 hedge]))
      (by rw [endKey_other hg.mem hg.reverse, endKey_exitNumber (hq k), hg.meets])
    refine exitNumber_inj hg.mem ?_
    rw [← Cycle.other_other (exitNumber edges g), hother, Cycle.other_other]
  · have hk := hx.edge_inj (k₀ + k) k₀ (by rw [hexit, heq, hk₀])
    rw [add_eq_left, ZMod.natCast_eq_zero_iff] at hk
    exact absurd (Nat.le_of_dvd hpos hk) (by omega)
  · refine exitNumber_inj (hq _) ?_
    rw [← hexit, ZMod.natCast_self, add_zero, hk₀]

theorem ofWord_foldl_xor (words : List UInt64) (w : UInt64) :
    XorWord.ofWord (words.foldl (· ^^^ ·) w) =
      XorWord.ofWord w + (words.map XorWord.ofWord).sum := by
  induction words generalizing w with
  | nil => exact (add_zero _).symm
  | cons v words ih =>
    rw [List.foldl_cons, ih, XorWord.ofWord_xor, List.map_cons, List.sum_cons, add_assoc]

/-- **The sums are right on a cycle**: what meets cancels. -/
theorem CuckaroodCycle.matching (h : CuckaroodCycle ends edges) (hlen : edges.length = proofSize) :
    Matching ends edges := by
  obtain ⟨x, hx⟩ := h
  have hsum : ∀ side < 2, (edges.map fun e => XorWord.ofWord (nodeAt ends side e)).sum = 0 := by
    intro side hside
    have hzero := sum_side_eq_zero hx hside
    rw [← hlen] at hzero
    obtain rfl | rfl : side = 0 ∨ side = 1 := by omega
    · exact (sum_endpoints edges).1.trans hzero
    · exact (sum_endpoints edges).2.trans hzero
  intro side hside
  refine XorWord.ofWord_inj ?_
  rw [ofWord_foldl_xor, List.map_map]
  exact (zero_add _).trans (hsum side hside)

end Cycles

/-! ### What is accepted -/

section Verify

variable {ends : UInt64 → UInt64 × UInt64} {edges : Vector UInt64 proofSize}

theorem Ascending.nodup {edgeMask : UInt64} {edges : List UInt64} (h : Ascending edgeMask edges) :
    edges.Nodup :=
  h.pairwise.imp fun hlt => UInt64.ne_of_lt hlt

/-- There is a first edge of direction `0`. -/
theorem exists_first {edges : List UInt64} (h : Balanced edges) :
    ∃ e₀, (edges.find? fun e => direction e = 0) = some e₀ := by
  rw [← Option.isSome_iff_exists, ← List.head?_filter, List.isSome_head?]
  intro hnil
  have hlen := h 0 (by decide)
  rw [hnil] at hlen
  cases hlen

/-- What is left of the verifier, once the edges have been read. -/
theorem verifyCuckarood_of_read (ends : UInt64 → UInt64 × UInt64)
    (hread : Ascending (edgeMaskOf cuckaroozEdgeBits) edges.toList ∧ Balanced edges.toList) :
    ∃ s, Filled ends edges.toList s ∧ (s.nonMatching = false ↔ Matching ends edges.toList) ∧
      ∀ rounds, verifyCuckarood ends edges rounds =
        if s.nonMatching then .ok .powNonMatching else followCuckarood s.uvs rounds 0 0 := by
  refine ⟨_, filled_foldl edges.toList, nonMatching_foldl edges.toList, fun rounds => ?_⟩
  rw [verifyCuckarood, readCuckarood_iff.2 ⟨hread, rfl⟩]

/-- **A walk that is caught keeps the verifier busy for ever.** -/
theorem verifyCuckarood_of_caught
    (hread : Ascending (edgeMaskOf cuckaroozEdgeBits) edges.toList ∧ Balanced edges.toList)
    (hmatching : Matching ends edges.toList) (hcaught : WalkCaught ends edges.toList)
    (rounds : ℕ) : verifyCuckarood ends edges rounds = .error .hang := by
  obtain ⟨s, hs, hsums, hverify⟩ := verifyCuckarood_of_read ends hread
  obtain ⟨e₀, hfirst, hcaught⟩ := hcaught
  rw [hverify, hsums.2 hmatching, if_neg Bool.false_ne_true]
  exact followCuckarood_of_caught hs hread.2 hread.1.nodup hfirst hcaught rounds

/-- **Otherwise it ends, and accepts the cycles and nothing else.** -/
theorem verifyCuckarood_of_free (ends : UInt64 → UInt64 × UInt64)
    (hread : Ascending (edgeMaskOf cuckaroozEdgeBits) edges.toList ∧ Balanced edges.toList)
    (hfree : ¬ (Matching ends edges.toList ∧ WalkCaught ends edges.toList)) :
    ∃ code, verifyCuckarood ends edges proofSize = .ok code ∧
      (code = .powOk ↔ CuckaroodCycle ends edges.toList) := by
  have hlen : edges.toList.length = proofSize := Vector.length_toList
  obtain ⟨s, hs, hsums, hverify⟩ := verifyCuckarood_of_read ends hread
  rw [hverify]
  by_cases hmatching : Matching ends edges.toList
  · obtain ⟨e₀, hfirst⟩ := exists_first hread.2
    have hwalk : (∃ q, Lasso.Walk (GoesOn ends edges.toList) e₀ proofSize q ∧ q proofSize = e₀) ↔
        CuckaroodCycle ends edges.toList :=
      ⟨fun ⟨q, hq, hback⟩ => cycle_of_walk hlen (mem_of_walk hfirst hq) hq hback,
        walk_of_cycle hlen hread.1.nodup (List.mem_of_find?_eq_some hfirst)⟩
    have hfollow := followCuckarood_of_free hs hread.2 hread.1.nodup hfirst
      (fun h => hfree ⟨hmatching, e₀, hfirst, h⟩) proofSize 0 (fun _ => e₀) (by decide) .zero
      fun h => absurd h (Nat.lt_irrefl 0)
    rw [hsums.2 hmatching, if_neg Bool.false_ne_true, ← hwalk]
    rwa [exitEnd_first hfirst] at hfollow
  · rw [if_pos (Bool.eq_true_of_not_eq_false fun h => hmatching (hsums.1 h))]
    exact ⟨_, rfl, by simp, fun h => absurd (h.matching hlen) hmatching⟩

/-- An answer does not depend on the bound. -/
theorem followCuckarood_add {uvs : ℕ → UInt64} {rounds n i : ℕ} {code : VerifyCode} (more : ℕ)
    (h : followCuckarood uvs rounds n i = .ok code) :
    followCuckarood uvs (rounds + more) n i = .ok code := by
  induction rounds generalizing n i with
  | zero => cases h
  | succ rounds ih =>
    rw [followCuckarood] at h
    rw [Nat.succ_add, followCuckarood]
    cases hfound : findReverse uvs i (reverseEnds i) i with
    | error code' =>
      rw [hfound] at h
      exact h
    | ok j =>
      rw [hfound] at h
      dsimp only at h ⊢
      split_ifs at h ⊢ with hdead hback hfull
      · exact h
      · exact ih h
      · exact h
      · exact h

/-- There is one answer at most. -/
theorem verifyCuckarood_unique {rounds rounds' : ℕ} {code code' : VerifyCode}
    (h : verifyCuckarood ends edges rounds = .ok code)
    (h' : verifyCuckarood ends edges rounds' = .ok code') : code = code' := by
  have hadd : ∀ {rounds code} (more : ℕ), verifyCuckarood ends edges rounds = .ok code →
      verifyCuckarood ends edges (rounds + more) = .ok code := by
    intro rounds code more h
    rw [verifyCuckarood] at h ⊢
    cases hread : readCuckarood ends none .empty edges.toList with
    | error code' =>
      rw [hread] at h
      exact h
    | ok s =>
      rw [hread] at h
      dsimp only at h ⊢
      split_ifs at h ⊢ with hsums
      · exact h
      · exact followCuckarood_add more h
  have hsame := (hadd rounds' h).symm.trans (Nat.add_comm rounds' rounds ▸ hadd rounds h')
  exact Except.ok.inj hsame

/-- **What is accepted is a cycle, and every cycle is accepted**: a walk round a cycle is not
caught. -/
theorem verifyCuckarood_ok_iff :
    (∃ rounds, verifyCuckarood ends edges rounds = .ok .powOk) ↔
      (Ascending (edgeMaskOf cuckaroozEdgeBits) edges.toList ∧ Balanced edges.toList) ∧
        CuckaroodCycle ends edges.toList := by
  have hlen : edges.toList.length = proofSize := Vector.length_toList
  constructor
  · rintro ⟨rounds, hok⟩
    have hread : Ascending (edgeMaskOf cuckaroozEdgeBits) edges.toList ∧
        Balanced edges.toList := by
      cases hres : readCuckarood ends none .empty edges.toList with
      | error code =>
        rw [verifyCuckarood, hres] at hok
        exact absurd (Except.ok.inj hok) (readCuckarood_error hres)
      | ok s => exact (readCuckarood_iff.1 hres).1
    have hfree : ¬ (Matching ends edges.toList ∧ WalkCaught ends edges.toList) := by
      rintro ⟨hmatching, hcaught⟩
      rw [verifyCuckarood_of_caught hread hmatching hcaught] at hok
      cases hok
    obtain ⟨code, hcode, hiff⟩ := verifyCuckarood_of_free ends hread hfree
    exact ⟨hread, hiff.1 (verifyCuckarood_unique hcode hok)⟩
  · rintro ⟨hread, hcycle⟩
    have hfree : ¬ WalkCaught ends edges.toList := by
      rintro ⟨e₀, hfirst, hcaught⟩
      obtain ⟨q, hq, hback⟩ := walk_of_cycle hlen hread.1.nodup
        (List.mem_of_find?_eq_some hfirst) hcycle
      exact hq.not_caught rightUnique_goesOn (by decide) hback hcaught
    obtain ⟨code, hcode, hiff⟩ := verifyCuckarood_of_free ends hread fun h => hfree h.2
    exact ⟨_, hiff.2 hcycle ▸ hcode⟩

/-- **The verifier ends, unless the walk is caught, and accepts the cycles and nothing else.** For
whatever ends the edges have, the answer comes, and is good if and only if the edges ascend within
the graph, are balanced and form one simple cycle of alternating directions – but for the edges that
pass all the checks of the first loop and lead the walk into a ring without the first edge. -/
theorem verifyCuckarood_iff (ends : UInt64 → UInt64 × UInt64) (edges : Vector UInt64 proofSize) :
    (∃ rounds code, verifyCuckarood ends edges rounds = .ok code ∧
      (code = .powOk ↔
        (Ascending (edgeMaskOf cuckaroozEdgeBits) edges.toList ∧ Balanced edges.toList) ∧
          CuckaroodCycle ends edges.toList)) ↔
    ¬ ((Ascending (edgeMaskOf cuckaroozEdgeBits) edges.toList ∧ Balanced edges.toList) ∧
      Matching ends edges.toList ∧ WalkCaught ends edges.toList) := by
  constructor
  · rintro ⟨rounds, code, hcode, -⟩ ⟨hread, hmatching, hcaught⟩
    rw [verifyCuckarood_of_caught hread hmatching hcaught] at hcode
    cases hcode
  · intro hfree
    by_cases hread : Ascending (edgeMaskOf cuckaroozEdgeBits) edges.toList ∧
        Balanced edges.toList
    · obtain ⟨code, hcode, hiff⟩ := verifyCuckarood_of_free ends hread
        fun h => hfree ⟨hread, h⟩
      exact ⟨_, code, hcode, by rw [hiff, and_iff_right hread]⟩
    · -- the first loop finds the fault
      cases hres : readCuckarood ends none .empty edges.toList with
      | error code =>
        refine ⟨0, code, by rw [verifyCuckarood, hres], ?_⟩
        exact ⟨fun h => absurd h (readCuckarood_error hres), fun h => absurd h.1 hread⟩
      | ok s => exact absurd (readCuckarood_iff.1 hres).1 hread

end Verify

/-- The edges of a ring are accepted: edge `2 * m` meets edge `2 * m + 1` on the first side, and
this one meets the next on the second. -/
example : verifyCuckarood (fun edge => (edge / 2, (edge + 1) / 2 % 21))
    (Vector.ofFn fun n => UInt64.ofNat n) proofSize = .ok .powOk := by
  decide +kernel

/-! Edges `0` and `2` have one direction, and edge `1` has the other. All three meet on the first
side, and edges `1` and `2` meet on the second one as well: from edge `0` the walk goes on with edge
`1`, and then with `2`, `1`, `2`, … -/

/-- The first edges of the graph. -/
def lassoEdges : Vector UInt64 proofSize := Vector.ofFn fun n => UInt64.ofNat n

/-- The ends of a graph with a lasso. -/
def lassoEnds (edge : UInt64) : UInt64 × UInt64 :=
  (if edge ≤ 2 ∨ edge = 4 then 1 else 0, if edge = 1 ∨ edge = 2 then 1 else 0)

/-- The walk. -/
def lassoWalk (k : ℕ) : UInt64 := if k = 0 then 0 else if k % 2 = 1 then 1 else 2

theorem walkCaught_lasso : WalkCaught lassoEnds lassoEdges.toList := by
  refine ⟨0, by decide +kernel, lassoWalk, 1, 3, ⟨rfl, ?_, ?_⟩, by decide, rfl, by decide⟩
  · decide +kernel
  · intro k hpos hk
    obtain rfl | rfl : k = 1 ∨ k = 2 := by omega
    · decide
    · decide

/-- **The verifier does not always end**: 42 edges that ascend within the graph, 21 of either
direction, with sums that are right. -/
theorem not_verifyCuckarood_ends :
    ¬ ∀ (ends : UInt64 → UInt64 × UInt64) (edges : Vector UInt64 proofSize),
      Ascending (edgeMaskOf cuckaroozEdgeBits) edges.toList → Balanced edges.toList →
      ∃ rounds code, verifyCuckarood ends edges rounds = .ok code ∧
        (code = .powOk ↔ CuckaroodCycle ends edges.toList) := by
  intro h
  have hle : (lassoEdges.toList.all fun edge =>
      decide (edge ≤ edgeMaskOf cuckaroozEdgeBits)) = true := by
    decide +kernel
  have hasc : Ascending (edgeMaskOf cuckaroozEdgeBits) lassoEdges.toList :=
    ⟨fun edge hedge => of_decide_eq_true (List.all_eq_true.1 hle edge hedge), by decide +kernel⟩
  have hbalanced : Balanced lassoEdges.toList := by
    unfold Balanced
    decide +kernel
  have hmatching : Matching lassoEnds lassoEdges.toList := by
    unfold Matching
    decide +kernel
  obtain ⟨rounds, code, hcode, -⟩ := h lassoEnds lassoEdges hasc hbalanced
  rw [verifyCuckarood_of_caught ⟨hasc, hbalanced⟩ hmatching walkCaught_lasso] at hcode
  cases hcode

/-! ### The graph of a header -/

namespace SiphashState

/-- `siphash_state::sip_round`, with any `rotE`. -/
def sipRoundBy (rotE : UInt64) (s : SiphashState) : SiphashState :=
  let v0 := s.v0 + s.v1
  let v2 := s.v2 + s.v3
  let v1 := rotl s.v1 13
  let v3 := rotl s.v3 16
  let v1 := v1 ^^^ v0
  let v3 := v3 ^^^ v2
  let v0 := rotl v0 32
  let v2 := v2 + v1
  let v0 := v0 + v3
  let v1 := rotl v1 17
  let v3 := rotl v3 rotE
  let v1 := v1 ^^^ v2
  let v3 := v3 ^^^ v0
  let v2 := rotl v2 32
  ⟨v0, v1, v2, v3⟩

/-- `siphash_state::hash24`. -/
def hash24By (rotE : UInt64) (s : SiphashState) (nonce : UInt64) : SiphashState :=
  let s := { s with v3 := s.v3 ^^^ nonce }
  let s := (s.sipRoundBy rotE).sipRoundBy rotE
  let s := { s with v0 := s.v0 ^^^ nonce, v2 := s.v2 ^^^ 0xff }
  (((s.sipRoundBy rotE).sipRoundBy rotE).sipRoundBy rotE).sipRoundBy rotE

/-- What the state puts out for consecutive nonces. -/
def outputsBy (rotE : UInt64) : ℕ → UInt64 → SiphashState → List UInt64
  | 0, _, _ => []
  | n + 1, nonce, s =>
    (s.hash24By rotE nonce).xorLanes :: outputsBy rotE n (nonce + 1) (s.hash24By rotE nonce)

/-- The other verifiers take the usual one. -/
theorem outputsBy_21 (n : ℕ) (nonce : UInt64) (s : SiphashState) :
    outputsBy 21 n nonce s = outputs n nonce s := by
  induction n generalizing nonce s with
  | zero => rfl
  | succ n ih =>
    rw [outputsBy, ih]
    rfl

end SiphashState

/-- `sipblock`, with any `rotE`. -/
def sipblockBy (rotE : UInt64) (keys : SiphashKeys) (edge : UInt64) : UInt64 :=
  let buf := SiphashState.outputsBy rotE 64 (edge &&& ~~~edgeBlockMask) (.ofKeys keys)
  if edge &&& edgeBlockMask = edgeBlockMask then buf.getD (edge &&& edgeBlockMask).toNat 0
  else buf.getD (edge &&& edgeBlockMask).toNat 0 ^^^ buf.getD edgeBlockMask.toNat 0

theorem sipblockBy_21 (keys : SiphashKeys) : sipblockBy 21 keys = sipblock keys := by
  funext edge
  rw [sipblockBy, sipblock, blockOutputs, SiphashState.outputsBy_21]

/-- The ends of an edge in the graph of `verify_cuckarood`. -/
def cuckaroodEnds (keys : SiphashKeys) : UInt64 → UInt64 × UInt64 :=
  blockEnds (sipblockBy 25 keys)

/-- `Cuckarood::Validate`, for the keys that are the hash of the header. The number of the nonces
is right. -/
def Cuckarood.validate (keys : BlockHeader → SiphashKeys) (header : BlockHeader) (rounds : ℕ) :
    Except Exc Bool := do
  let code ← verifyCuckarood (cuckaroodEnds (keys header)) header.proofOfWork.nonces rounds
  return code = .powOk

/-- **A header is valid if its proof of work is a cycle of the graph of this header.** -/
theorem Cuckarood.validate_iff (keys : BlockHeader → SiphashKeys) (header : BlockHeader) :
    (∃ rounds, Cuckarood.validate keys header rounds = .ok true) ↔
      (Ascending (edgeMaskOf cuckaroozEdgeBits) header.proofOfWork.nonces.toList ∧
        Balanced header.proofOfWork.nonces.toList) ∧
        CuckaroodCycle (cuckaroodEnds (keys header)) header.proofOfWork.nonces.toList := by
  rw [← verifyCuckarood_ok_iff]
  refine exists_congr fun rounds => ?_
  rw [Cuckarood.validate]
  cases verifyCuckarood (cuckaroodEnds (keys header)) header.proofOfWork.nonces rounds with
  | error e => exact ⟨fun h => (by cases h), fun h => (by cases h)⟩
  | ok code =>
    rw [Exec.ok_bind]
    show Except.ok (decide (code = .powOk)) = .ok true ↔ Except.ok code = .ok .powOk
    rw [Except.ok.injEq, Except.ok.injEq, decide_eq_true_eq]

end GrinPlusPlus
