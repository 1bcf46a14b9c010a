import GrinPlusPlus.BlockChain.BlockSpec
import GrinPlusPlus.BlockChain.HeaderMirror

/-!
# Why a block fails

`BlockProcessor::ProcessBlock` throws for reasons of several kinds, and does not say which one it
was: the block breaks a rule, another block of the same fork does, or the node is not ready to
apply anything. Here they are told apart.

A fork is gone through from its first header or block on. What comes before the header or the
block that was received can be put *in place* on its own
(`GrinPlusPlus.BlockHeaderProcessor.placeAncestors`,
`GrinPlusPlus.BlockProcessor.placeAncestors`), and the block itself is *refused* when it fails on
top of that (`GrinPlusPlus.BlockHeaderProcessor.Refused`, `GrinPlusPlus.BlockProcessor.Refused`).
When the ancestors can be put in place and the node is ready, there is no other reason to fail:
`GrinPlusPlus.BlockHeaderProcessor.refused_of_error` and
`GrinPlusPlus.BlockProcessor.refused_of_error`.
-/

namespace GrinPlusPlus

open Exec MMRHashUtil

/-! ### Headers -/

namespace BlockHeaderProcessor

open ChainState

section

variable (G : Global) (now : ℤ)

/-- Put all but the last one of some headers in place, behind the stored header that they start
from. The result is the header before the last one. -/
def placeHeaders (headers : List BlockHeader) : Exec Exc ChainState (Option BlockHeader) :=
  match headers with
  | [] => pure none
  | first :: _ => do
    let s ← get
    match s.blockDB.getBlockHeader first.previousHash with
    | none => throw (.blockChain "Previous header not found.")
    | some base => do
      updateCandidate (Chain.rewind base.getHeight)
      updateHeaderMMR (HeaderMMR.rewind (base.getHeight + 1))
      validateEach G now headers.dropLast base
      pure (some (headers.dropLast.getLast?.getD base))

/-- Put the ancestors of a header in place, if it is a new header that is to be validated. The
result is the header before it. -/
def placeAncestors (header : BlockHeader) : Exec Exc ChainState (Option BlockHeader) := do
  let s ← get
  if (s.blockDB.getBlockHeader (header.getHash G)).isSome then pure none
  else if s.candidate.getTipHash = header.previousHash then
    pure (s.blockDB.getBlockHeader s.candidate.getTipHash)
  else do
    let reorgHeaders ← collectReorgHeaders G G.loopBound header []
    match reorgHeaders with
    | none => pure none
    | some reorgHeaders => placeHeaders G now reorgHeaders

/-- **The header itself is refused**: its ancestors are in place, and it breaks a rule. -/
def Refused (s : ChainState) (header : BlockHeader) : Prop :=
  ∃ previous u, run (placeAncestors G now header) s = (.ok (some previous), u) ∧
    ∃ e, BlockHeaderValidator.validate G now u.blockDB.getBlockHeader u.headerMMR header previous =
      .error e

/-- The ancestors of the header can be put in place. -/
def Placeable (s : ChainState) (header : BlockHeader) : Prop :=
  ∃ previous u, run (placeAncestors G now header) s = (.ok previous, u)

/-- What holds of the headers of every chain. -/
structure Ordered (s : ChainState) : Prop where
  /-- The header MMR mirrors the candidate chain. -/
  mirror : Mirror G s
  /-- The tip of the candidate chain has its height. -/
  tip : ∀ h, s.blockDB.getBlockHeader s.candidate.getTipHash = some h →
    h.getHeight = s.candidate.getHeight

end

variable {G : Global} {now : ℤ} {s t u : ChainState} {header previous : BlockHeader}

/-- The first rule: a header that is accepted is one higher than the one before it. -/
theorem height_of_validate {lookup : HeaderLookup} {mmr : HeaderMMR}
    (h : BlockHeaderValidator.validate G now lookup mmr header previous = .ok ()) :
    header.height = previous.height + 1 := by
  rw [BlockHeaderValidator.validate] at h
  obtain ⟨_, hheight, -⟩ := of_bind_eq_ok h
  exact of_require hheight

/-- In 64 bits, a successor that is not zero is a successor. -/
theorem getHeight_of_height_eq (hpos : 0 < header.getHeight)
    (h : header.height = previous.height + 1) : header.getHeight = previous.getHeight + 1 := by
  have hnat : header.getHeight = (previous.getHeight + 1) % 2 ^ 64 := by
    rw [BlockHeader.getHeight, h, UInt64.toNat_add]
    rfl
  have hlt : previous.getHeight < 2 ^ 64 := previous.height.toNat_lt
  omega

/-- A walk that does not end in a result never ends. -/
theorem hang_of_run_collectReorgHeaders {passes : ℕ} {headers : List BlockHeader} {e : Exc}
    (h : run (collectReorgHeaders G passes header headers) s = (.error e, t)) : e = .hang := by
  induction passes generalizing s header headers with
  | zero =>
    cases h
    rfl
  | succ passes ih =>
    rw [collectReorgHeaders, run_bind_ok (run_get s)] at h
    split at h
    · cases h
    · rw [run_bind_ok (run_modifyGet _ s)] at h
      dsimp only at h
      split at h
      · exact ih h
      · split at h
        · exact ih h
        · cases h

/-- Headers are validated one after another. -/
theorem validateEach_append (front back : List BlockHeader) (previous : BlockHeader) :
    validateEach G now (front ++ back) previous = (do
      validateEach G now front previous
      validateEach G now back (front.getLast?.getD previous)) := by
  induction front generalizing previous with
  | nil => rfl
  | cons header front ih =>
    have hlast : (header :: front).getLast?.getD previous = front.getLast?.getD header := by
      rw [List.getLast?_cons]
      rfl
    rw [List.cons_append, validateEach, validateEach, ih, hlast]
    simp only [bind_assoc]

/-- A valid header of the next height is added, whatever else there is. -/
theorem run_validateEach_of_validate {cycles : List (List UInt8)}
    (hrange : IsRangeOf G s.headerMMR.current cycles)
    (hvalid : BlockHeaderValidator.validate G now s.blockDB.getBlockHeader s.headerMMR header
      previous = .ok ())
    (hheight : header.getHeight = s.candidate.getHeight + 1) :
    ∃ t, run (validateEach G now [header] previous) s = (.ok (), t) := by
  have hvalidate : run (validate G now header previous) s =
      (.ok (), { s with accepted := s.accepted ++ [header] }) := by
    rw [validate, run_bind_ok (run_get s), hvalid]
    rfl
  obtain ⟨m, hm, -⟩ := HeaderMMR.addHeader_ok hrange header
  obtain ⟨c, hc, -⟩ := s.candidate.addBlock_length (header.getHash G)
  rw [Chain.length_hashes] at hc
  rw [validateEach, run_bind_ok hvalidate, updateHeaderMMR,
    run_bind_ok (run_update_ok (t := { s with headerMMR := m, accepted := s.accepted ++ [header] })
      (by rw [hm]; rfl)), modifyDB, run_bind_ok (run_modify _ _), updateCandidate,
    run_bind_ok (run_update_ok (by rw [hheight, hc]; rfl))]
  exact ⟨_, rfl⟩

/-- What it means that headers are in place. -/
theorem of_run_placeHeaders {first : BlockHeader} {rest : List BlockHeader}
    (h : run (placeHeaders G now (first :: rest)) s = (.ok (some previous), u)) :
    ∃ base s₁ s₂, s.blockDB.getBlockHeader first.previousHash = some base ∧
      run (updateCandidate (Chain.rewind base.getHeight)) s = (.ok (), s₁) ∧
      run (updateHeaderMMR (HeaderMMR.rewind (base.getHeight + 1))) s₁ = (.ok (), s₂) ∧
      run (validateEach G now (first :: rest).dropLast base) s₂ = (.ok (), u) ∧
      (first :: rest).dropLast.getLast?.getD base = previous := by
  obtain ⟨_, _, hget, h⟩ := of_run_bind_ok h
  cases hget
  split at h
  · cases h
  next base hbase =>
    obtain ⟨_, s₁, h₁, h⟩ := of_run_bind_ok h
    obtain ⟨_, s₂, h₂, h⟩ := of_run_bind_ok h
    obtain ⟨_, s₃, h₃, h⟩ := of_run_bind_ok h
    rw [run_pure, Prod.mk.injEq, Except.ok.injEq, Option.some_inj] at h
    obtain ⟨hprevious, rfl⟩ := h
    exact ⟨base, s₁, s₂, hbase, h₁, h₂, h₃, hprevious⟩

/-- **A fork of headers**: when the headers before the last one are in place and adopting all of
them fails, the last one breaks a rule. -/
theorem refused_of_run_adoptHeaders {headers : List BlockHeader} {cycles : List (List UInt8)}
    {lastDifficulty totalDifficulty : ℕ} {e : Exc}
    (hrange : IsRangeOf G s.headerMMR.current cycles) (hpos : 0 < header.getHeight)
    (hlast : headers.getLast? = some header)
    (hplace : run (placeHeaders G now headers) s = (.ok (some previous), u))
    (h : run (adoptHeaders G now headers lastDifficulty totalDifficulty) s = (.error e, t)) :
    ∃ e, BlockHeaderValidator.validate G now u.blockDB.getBlockHeader u.headerMMR header previous =
      .error e := by
  rcases hvalid : BlockHeaderValidator.validate G now u.blockDB.getBlockHeader u.headerMMR header
    previous with e' | ⟨⟩
  · exact ⟨e', rfl⟩
  -- The last header is valid; then all of them are adopted.
  exfalso
  rcases headers with _ | ⟨first, rest⟩
  · cases hlast
  obtain ⟨base, s₁, s₂, hbase, h₁, h₂, hfront, hprevious⟩ := of_run_placeHeaders hplace
  have hsplit : (first :: rest).dropLast ++ [header] = first :: rest :=
    List.dropLast_append_getLast? header hlast
  generalize (first :: rest).dropLast = front at hsplit hfront hprevious
  have hextends := extends_of_run_validateEach hfront
  obtain ⟨c, hc, rfl⟩ := of_run_updateCandidate h₁
  obtain ⟨m, hm, rfl⟩ := of_run_updateHeaderMMR h₂
  obtain ⟨-, hrange'⟩ := HeaderMMR.isRangeOf_of_rewind hrange hm
  obtain ⟨hlt, hhashes, -⟩ := Chain.of_rewind hc
  have hlength : c.hashes.length = base.getHeight + 1 := by
    rw [hhashes, List.length_take]
    omega
  have hheight := getHeight_of_height_eq hpos (height_of_validate hvalid)
  have hfirst : first.getHeight = base.getHeight + 1 ∧
      previous.getHeight = u.candidate.getHeight := by
    have hall := u.candidate.length_hashes
    rw [hextends.hashes, List.length_append, List.length_map] at hall
    rcases List.eq_nil_or_concat' front with rfl | ⟨front', last, rfl⟩
    · obtain ⟨rfl, -⟩ := List.cons.inj hsplit
      simp only [List.getLast?_nil, Option.getD_none] at hprevious
      subst hprevious
      refine ⟨hheight, ?_⟩
      simp only [List.length_nil] at hall
      omega
    · have hlast' : last = previous := by simpa using hprevious
      subst hlast'
      constructor
      · have hzero : (front' ++ [last])[0]? = some first := by
          have hsplit' := congrArg (fun l => l[0]?) hsplit
          rwa [List.getElem?_append_left (by simp)] at hsplit'
        exact (hextends.heights 0 first hzero).trans hlength
      · have hend := hextends.heights front'.length last (by simp)
        simp only [List.length_append, List.length_singleton] at hall hend
        omega
  rw [adoptHeaders, hfirst.1, decrement_succ, run_bind_ok h₁, run_bind_ok h₂] at h
  have hheaders : run (validateHeaders G now (first :: rest))
      { s with candidate := c, headerMMR := m } =
      run (validateEach G now [header] previous) u := by
    rw [validateHeaders, run_bind_ok (run_get _), hbase, ← hsplit]
    dsimp only
    rw [validateEach_append, run_bind_ok hfront, hprevious]
  obtain ⟨v, hv⟩ := run_validateEach_of_validate (hextends.range _ hrange') hvalid
    (hheight.trans (by rw [hfirst.2]))
  rw [run_bind_ok (hheaders.trans hv), rollbackUnlessMore] at h
  split at h
  · cases h
  · cases h

/-- **Why a header fails**: its ancestors can be put in place, so it breaks a rule itself. -/
theorem refused_of_error {e : Exc} (hs : Ordered G s) (hpos : 0 < header.getHeight)
    (hplace : Placeable G now s header)
    (h : run (processSingleHeader G now header) s = (.error e, t)) (he : e.Thrown) :
    Refused G now s header := by
  rw [processSingleHeader] at h
  split at h
  · cases h
  rcases hbody : run (processSingleHeaderLocked G now header) s with ⟨r, w⟩
  have hbatch : (r, w.rollback) = (.error e, t) := by
    rw [← h, batch, run_ofRun, hbody]
  obtain ⟨rfl, -⟩ := Prod.mk.inj hbatch
  rw [processSingleHeaderLocked, run_bind_ok (run_get s)] at hbody
  split at hbody
  · cases hbody
  next hnew =>
  obtain ⟨cycles, hrange, -⟩ := hs.mirror.range
  split at hbody
  · next hfork =>
    -- A fork: the walk, and then what it found.
    have hplaced : run (placeAncestors G now header) s =
        run (collectReorgHeaders G G.loopBound header [] >>= fun reorgHeaders =>
          match reorgHeaders with
          | none => pure none
          | some reorgHeaders => placeHeaders G now reorgHeaders) s := by
      rw [placeAncestors, run_bind_ok (run_get s), if_neg hnew, if_neg hfork]
    rw [processOrphan, run_bind_ok (run_get s)] at hbody
    rcases of_run_bind_error hbody with hwalk | ⟨found, v, hwalk, hbody⟩
    · exact absurd (hang_of_run_collectReorgHeaders hwalk) he.2
    rw [run_bind_ok hwalk] at hplaced
    cases found with
    | none => cases hbody
    | some headers =>
      obtain ⟨hv, hheaders⟩ := of_run_collectReorgHeaders hwalk
      obtain ⟨base, l, hl, -, hlast⟩ := hheaders headers rfl
      rw [List.append_nil] at hl
      subst hl
      obtain ⟨previous, u, hu⟩ := hplace
      rw [hu] at hplaced
      rcases headers with _ | ⟨first, rest⟩
      · exact absurd (Except.error.inj (Prod.mk.inj hbody).1) he.1.symm
      rw [List.getLast?_cons_cons] at hlast
      have hrange' : IsRangeOf G v.headerMMR.current cycles := by
        rw [hv]
        exact hrange
      cases previous with
      | none =>
        -- Behind a walk there always is a header.
        obtain ⟨_, _, hget, hplaced⟩ := of_run_bind_ok hplaced.symm
        cases hget
        split at hplaced
        · cases hplaced
        · obtain ⟨_, _, -, hplaced⟩ := of_run_bind_ok hplaced
          obtain ⟨_, _, -, hplaced⟩ := of_run_bind_ok hplaced
          obtain ⟨_, _, -, hplaced⟩ := of_run_bind_ok hplaced
          cases hplaced
      | some previous =>
        exact ⟨previous, u, hu, refused_of_run_adoptHeaders hrange' hpos hlast hplaced.symm hbody⟩
  · next htip =>
    rw [not_not] at htip
    split at hbody
    · exact absurd (Prod.mk.inj hbody).1 (by rintro ⟨⟩; exact he.1 rfl)
    next previous hprevious =>
    have hplaced : run (placeAncestors G now header) s = (.ok (some previous), s) := by
      rw [placeAncestors, run_bind_ok (run_get s), if_neg hnew, if_pos htip, hprevious]
      rfl
    refine ⟨previous, s, hplaced, ?_⟩
    rcases hvalid : BlockHeaderValidator.validate G now s.blockDB.getBlockHeader s.headerMMR header
      previous with e' | ⟨⟩
    · exact ⟨e', rfl⟩
    -- A valid header is added.
    exfalso
    have hvalidate : run (validate G now header previous) s =
        (.ok (), { s with accepted := s.accepted ++ [header] }) := by
      rw [validate, run_bind_ok (run_get s), hvalid]
      rfl
    have hheight := getHeight_of_height_eq hpos (height_of_validate hvalid)
    rw [hs.tip previous hprevious] at hheight
    obtain ⟨m, hm, -⟩ := HeaderMMR.addHeader_ok hrange header
    obtain ⟨c, hc, -⟩ := s.candidate.addBlock_length (header.getHash G)
    rw [Chain.length_hashes, ← hheight] at hc
    rw [run_bind_ok hvalidate, modifyDB, run_bind_ok (run_modify _ _), updateHeaderMMR,
      run_bind_ok (run_update_ok (t := { s with
        headerMMR := m
        blockDB := s.blockDB.addBlockHeader G header
        accepted := s.accepted ++ [header] }) (by rw [hm]; rfl)), updateCandidate,
      run_bind_ok (run_update_ok (by rw [hc]; rfl))] at hbody
    cases hbody

end BlockHeaderProcessor

/-! ### Blocks -/

namespace BlockProcessor

open ChainState BlockHeaderProcessor

section

variable (G : Global)

/-- Move the confirmed chain to blocks of a fork. -/
def moveConfirmed (blocks : List FullBlock) (first : FullBlock) : Exec Exc ChainState Unit := do
  updateConfirmed (Chain.rewind (decrement first.getHeight))
  blocks.forM fun block => updateConfirmed (Chain.addBlock (block.getHash G) block.getHeight)

/-- Put the ancestors of a block in place, if it is a new block that is to be applied: the blocks
of its fork before it are applied to the hash set, and the confirmed chain ends with them. The
result is whether the block is to be applied. -/
def placeAncestors (block : FullBlock) : Exec Exc ChainState Bool := do
  let s ← get
  if s.confirmed.isOnChain block.getHeight (block.getHash G) then pure false
  else if (s.blockDB.getBlock (block.getHash G)).isSome then pure false
  else do
    let info ← Exec.ofExcept (determineBlockStatus G s block)
    match info with
    | .orphan => pure false
    | .nextBlock => pure true
    | .reorg [] => throw .undefined
    | .reorg (first :: rest) => do
      applyReorg G (first :: rest).dropLast first
      moveConfirmed G (first :: rest).dropLast first
      pure true

/-- The block breaks a rule on top of a state: it does not have the next height, or the checks of
`ValidateAndAddBlock` fail. -/
def RefusedOn (u : ChainState) (block : FullBlock) : Prop :=
  block.getHeight ≠ u.confirmed.getHeight + 1 ∨
    ∃ a, u.txHashSet = some a ∧ ∃ e, (run (applyAndValidate G block) ⟨u.blockDB, a⟩).1 = .error e

/-- **The block itself is refused**: its ancestors are in place, and it breaks a rule. -/
def Refused (s : ChainState) (block : FullBlock) : Prop :=
  ∃ u, run (placeAncestors G block) s = (.ok true, u) ∧
    (u.blockDB.getBlockSums block.getPreviousHash).isSome = true ∧ RefusedOn G u block

/-- The ancestors of the block can be put in place. -/
def Placeable (s : ChainState) (block : FullBlock) : Prop :=
  ∃ applies u, run (placeAncestors G block) s = (.ok applies, u)

/-- The node is ready to apply a block. -/
structure Ready (u : ChainState) (block : FullBlock) : Prop where
  /-- The transaction hash set is open. -/
  available : u.txHashSet.isSome = true
  /-- The header before the block is there … -/
  header : (u.blockDB.getBlockHeader block.getPreviousHash).isSome = true
  /-- … and so are the sums of the block before it. -/
  sums : (u.blockDB.getBlockSums block.getPreviousHash).isSome = true
  /-- The transaction pools can be reconciled with the block. -/
  pools : ∀ a y, u.txHashSet = some a →
    run (applyAndValidate G block) ⟨u.blockDB, a⟩ = (.ok (), y) →
    ∃ pool, u.txPool.reconcileBlock G ⟨y.blockDB, y.txHashSet⟩ block = (.ok (), pool)

end

variable {G : Global} {s t u v : ChainState} {block : FullBlock}

/-- The confirmed chain is not touched by a block that is applied. -/
theorem steps_confirmed_validateAndAddBlock (block : FullBlock) :
    Steps (Same ChainState.confirmed) (validateAndAddBlock G block) := by
  refine steps_bind steps_get fun s => ?_
  split
  · exact steps_throw _
  · refine steps_bind ?_ fun _ => ?_
    · intro s
      rw [onTxHashSet, run_ofRun]
      split
      · rfl
      · rfl
    · refine steps_bind (steps_modify fun _ => rfl) fun _ => ?_
      intro s
      rw [reconcileBlock, run_ofRun]
      split
      · rfl
      · rfl

/-- **Why applying a block fails**: the node is ready, so it breaks a rule. -/
theorem error_of_run_validateAndAddBlock {e : Exc} (hu : Ready G u block)
    (h : run (validateAndAddBlock G block) u = (.error e, t)) :
    ∃ a, u.txHashSet = some a ∧ ∃ e, (run (applyAndValidate G block) ⟨u.blockDB, a⟩).1 =
      .error e := by
  obtain ⟨a, ha⟩ := Option.isSome_iff_exists.mp hu.available
  obtain ⟨p, hp⟩ := Option.isSome_iff_exists.mp hu.header
  rw [validateAndAddBlock, run_bind_ok (run_get u), hp] at h
  rcases hrun : run (applyAndValidate G block) ⟨u.blockDB, a⟩ with ⟨e' | ⟨⟩, y⟩
  · exact ⟨a, ha, e', by rw [hrun]⟩
  · -- The checks went through, and then nothing fails.
    exfalso
    obtain ⟨pool, hpool⟩ := hu.pools a y ha hrun
    rw [run_bind_ok (run_onTxHashSet ha hrun), modifyOrphanPool, run_bind_ok (run_modify _ _),
      reconcileBlock, run_ofRun] at h
    dsimp only at h
    rw [hpool] at h
    cases h

theorem run_updateConfirmed_ok {f : Chain → Except Exc Chain} {c : Chain}
    (h : f s.confirmed = .ok c) :
    run (updateConfirmed f) s = (.ok (), { s with confirmed := c }) := by
  refine run_update_ok ?_
  rw [h]
  rfl

/-- Changing the confirmed chain only depends on that chain. -/
theorem run_updateConfirmed_of_eq {f : Chain → Except Exc Chain}
    (h : run (updateConfirmed f) s = (.ok (), u)) (hv : v.confirmed = s.confirmed) :
    run (updateConfirmed f) v = (.ok (), { v with confirmed := u.confirmed }) ∧
      u = { s with confirmed := u.confirmed } := by
  obtain ⟨c, hc, hu⟩ := of_bind_eq_ok (of_run_update_ok h)
  cases hu
  exact ⟨run_updateConfirmed_ok (hv ▸ hc), rfl⟩

/-- So does moving it to the blocks of a fork. -/
theorem run_moveConfirmed_of_eq {blocks : List FullBlock} {first : FullBlock}
    (h : run (moveConfirmed G blocks first) s = (.ok (), u)) (hv : v.confirmed = s.confirmed) :
    run (moveConfirmed G blocks first) v = (.ok (), { v with confirmed := u.confirmed }) ∧
      u = { s with confirmed := u.confirmed } := by
  have hblocks : ∀ (blocks : List FullBlock) (s v : ChainState), v.confirmed = s.confirmed →
      run (blocks.forM fun b => updateConfirmed (Chain.addBlock (b.getHash G) b.getHeight)) s =
        (.ok (), u) →
      run (blocks.forM fun b => updateConfirmed (Chain.addBlock (b.getHash G) b.getHeight)) v =
        (.ok (), { v with confirmed := u.confirmed }) ∧
      u = { s with confirmed := u.confirmed } := by
    intro blocks
    induction blocks with
    | nil =>
      intro s v hv h
      cases h
      refine ⟨?_, rfl⟩
      rw [← hv]
      rfl
    | cons b blocks ih =>
      intro s v hv h
      rw [run_forM_cons] at h ⊢
      obtain ⟨_, s₁, h₁, h⟩ := of_run_bind_ok h
      obtain ⟨hfirst, hs₁⟩ := run_updateConfirmed_of_eq h₁ hv
      obtain ⟨hrest, hu⟩ := ih s₁ { v with confirmed := s₁.confirmed } rfl h
      rw [run_bind_ok hfirst]
      refine ⟨hrest, ?_⟩
      rw [hu, hs₁]
  obtain ⟨_, s₁, h₁, h⟩ := of_run_bind_ok h
  obtain ⟨hrewind, hs₁⟩ := run_updateConfirmed_of_eq h₁ hv
  obtain ⟨hadd, hu⟩ := hblocks blocks s₁ { v with confirmed := s₁.confirmed } rfl h
  refine ⟨?_, ?_⟩
  · rw [moveConfirmed, run_bind_ok hrewind]
    exact hadd
  · rw [hu, hs₁]

/-- The last pass of a loop. -/
theorem forM_concat (f : FullBlock → Exec Exc ChainState Unit) (front : List FullBlock)
    (block : FullBlock) :
    (front ++ [block]).forM f = (do front.forM f; f block) := by
  induction front with
  | nil => exact bind_pure_unit.trans (pure_bind _ _).symm
  | cons b front ih =>
    have hcons : ∀ l : List FullBlock, (b :: l).forM f = (do f b; l.forM f) := fun _ => rfl
    rw [List.cons_append, hcons, hcons, ih, bind_assoc]

theorem run_applyReorg_concat (front : List FullBlock) (block first : FullBlock)
    (s : ChainState) :
    run (applyReorg G (front ++ [block]) first) s =
      run (applyReorg G front first >>= fun _ => validateAndAddBlock G block) s := by
  rw [applyReorg, applyReorg, bind_assoc, run_bind_ok (run_get s), run_bind_ok (run_get s)]
  split
  · rfl
  · split
    · rfl
    · rw [forM_concat, bind_assoc]

theorem moveConfirmed_concat (front : List FullBlock) (block first : FullBlock) :
    moveConfirmed G (front ++ [block]) first = (do
      moveConfirmed G front first
      updateConfirmed (Chain.addBlock (block.getHash G) block.getHeight)) := by
  rw [moveConfirmed, moveConfirmed, forM_concat, bind_assoc]

/-- A block of another than the next height is refused. -/
theorem refusedOn_of_run_addConfirmed {e : Exc} (hv : v.confirmed = u.confirmed)
    (h : run (updateConfirmed (Chain.addBlock (block.getHash G) block.getHeight)) v =
      (.error e, t)) : RefusedOn G u block := by
  refine .inl fun hheight => ?_
  obtain ⟨c, hc, -⟩ := u.confirmed.addBlock_length (block.getHash G)
  rw [Chain.length_hashes, ← hheight, ← hv] at hc
  rw [run_updateConfirmed_ok hc] at h
  cases h

/-- **Why a block fails**: its ancestors can be put in place and the node is ready to apply it
then, so it breaks a rule itself. -/
theorem refused_of_error {e : Exc} (hplace : Placeable G s block)
    (hready : ∀ u, run (placeAncestors G block) s = (.ok true, u) → Ready G u block)
    (h : run (processBlockInternal G block) s = (.error e, t)) : Refused G s block := by
  rcases hbody : run (processBlockLocked G block) s with ⟨r, w⟩
  have hbatch : (r, w.rollback) = (.error e, t) := by
    rw [← h, processBlockInternal, batch, run_ofRun, hbody]
  obtain ⟨rfl, -⟩ := Prod.mk.inj hbatch
  obtain ⟨applies, u, hu⟩ := hplace
  rw [processBlockLocked, run_bind_ok (run_get s)] at hbody
  split at hbody
  · cases hbody
  next hchain =>
  split at hbody
  · cases hbody
  next hnew =>
  have hplaced := hu
  rw [placeAncestors, run_bind_ok (run_get s), if_neg hchain, if_neg hnew] at hplaced
  cases hinfo : determineBlockStatus G s block with
  | error e' =>
    rw [hinfo, run_bind_error (run_ofExcept _ s)] at hplaced
    cases hplaced
  | ok info =>
    rw [hinfo, run_bind_ok (run_ofExcept _ s)] at hplaced hbody
    cases info with
    | orphan =>
      dsimp only at hbody
      split at hbody
      · cases hbody
      · cases hbody
    | nextBlock =>
      obtain ⟨htrue, rfl⟩ := Prod.mk.inj hplaced
      obtain rfl := Except.ok.inj htrue
      have hs := hready s hu
      refine ⟨s, hu, hs.sums, ?_⟩
      rcases of_run_bind_error hbody with hbody | ⟨_, _, -, hbody⟩
      · rcases of_run_bind_error hbody with hadd | ⟨_, v, hadd, hbody⟩
        · exact .inr (error_of_run_validateAndAddBlock hs hadd)
        · rcases of_run_bind_error hbody with hconfirm | ⟨_, _, -, hbody⟩
          · refine refusedOn_of_run_addConfirmed ?_ hconfirm
            have hsame := @steps_confirmed_validateAndAddBlock G block s
            rwa [hadd] at hsame
          · cases hbody
      · cases hbody
    | reorg blocks =>
      have hlast := getLast?_of_determineBlockStatus hinfo
      rcases blocks with _ | ⟨first, rest⟩
      · cases hlast
      have hsplit : (first :: rest).dropLast ++ [block] = first :: rest :=
        List.dropLast_append_getLast? block hlast
      dsimp only at hplaced
      generalize (first :: rest).dropLast = front at hsplit hplaced
      obtain ⟨_, u₁, hfront, hplaced⟩ := of_run_bind_ok hplaced
      obtain ⟨_, u₂, hmove, hplaced⟩ := of_run_bind_ok hplaced
      obtain ⟨htrue, rfl⟩ := Prod.mk.inj hplaced
      obtain rfl := Except.ok.inj htrue
      have hs := hready u₂ hu
      obtain ⟨-, heq⟩ := run_moveConfirmed_of_eq hmove rfl
      have hs₁ : Ready G u₁ block := by
        rw [heq] at hs
        exact ⟨hs.available, hs.header, hs.sums, hs.pools⟩
      refine ⟨u₂, hu, hs.sums, ?_⟩
      rcases of_run_bind_error hbody with hbody | ⟨_, _, -, hbody⟩
      · rw [handleReorg, run_bind_ok (run_get s)] at hbody
        rcases of_run_bind_error hbody with happly | ⟨_, v, happly, hbody⟩
        · -- The last block of the fork does not apply.
          rw [← hsplit, run_applyReorg_concat, run_bind_ok hfront] at happly
          obtain ⟨a, ha, hfails⟩ := error_of_run_validateAndAddBlock hs₁ happly
          rw [heq]
          exact .inr ⟨a, ha, hfails⟩
        rw [← hsplit, run_applyReorg_concat, run_bind_ok hfront] at happly
        split at hbody
        · -- The last block of the fork has a wrong height.
          have hconfirm : confirmReorg G (first :: rest) first = (do
              moveConfirmed G (first :: rest) first
              modify (ChainState.commit G)) := by
            rw [confirmReorg, moveConfirmed, bind_assoc]
          rw [hconfirm, ← hsplit, moveConfirmed_concat, bind_assoc] at hbody
          have hsame : v.confirmed = u₁.confirmed := by
            have hsteps := @steps_confirmed_validateAndAddBlock G block u₁
            rwa [happly] at hsteps
          obtain ⟨hmove', -⟩ := run_moveConfirmed_of_eq hmove hsame
          rw [run_bind_ok hmove'] at hbody
          rcases of_run_bind_error hbody with hadd | ⟨_, _, -, hbody⟩
          · exact refusedOn_of_run_addConfirmed (v := { v with confirmed := u₂.confirmed }) rfl hadd
          · cases hbody
        · exact absurd hbody (neverFails_discardReorg _ _ _ _)
      · cases hbody

end BlockProcessor

end GrinPlusPlus
