import GrinPlusPlus.BlockChain.SmallChain
import GrinPlusPlus.P2P.HeaderBatchCache
import Mathlib.Data.List.Nodup
import Mathlib.Data.List.Pairwise
import Mathlib.Data.List.Perm.Subperm
import Mathlib.Data.List.TakeWhile

/-!
# Batches of headers in any order

A valid extension of the candidate chain is cut into batches, and the batches come in some order,
perhaps several times each. What the cache has handed on is always a *front* of the batches, and
what it keeps are batches of the rest (`GrinPlusPlus.HeaderBatchCache.Waits`). Behind a call the
first batch of the rest is not in the cache, as it would have been ready
(`GrinPlusPlus.HeaderBatchCache.waits_addHeaders`). So there is no rest when all batches came.
-/

namespace GrinPlusPlus

open Exec

/-! ### Valid chains of headers -/

/-- Headers that are linked by their hashes, from the genesis block on. A hash stands for one of
the headers only. -/
structure HashLinked (G : Global) (headers : List BlockHeader) : Prop where
  /-- The heights. -/
  height : ∀ i (h : BlockHeader), headers[i]? = some h → h.getHeight = i
  /-- The links. -/
  previous : ∀ i (h h' : BlockHeader), headers[i]? = some h → headers[i + 1]? = some h' →
    h'.previousHash = h.getHash G
  /-- The hashes are different. -/
  distinct : (headers.map (·.getHash G)).Nodup

/-- The candidate chain of a block chain that accepts every valid extension of it. -/
structure CandidateChain {σ : Type} (G : Global) (chain : IBlockChain σ) where
  /-- The headers of the candidate chain. -/
  headers : σ → List BlockHeader
  /-- The states in which a chain can be. -/
  Consistent : σ → Prop
  /-- The valid chains. -/
  Valid : List BlockHeader → Prop
  /-- The lookup by height reads the candidate chain. -/
  lookup : ∀ s, Consistent s → ∀ height,
    chain.getBlockHeaderByHeight s height = (headers s)[height]?
  /-- A valid chain is linked. -/
  linked : ∀ l, Valid l → HashLinked G l
  /-- A front of a valid chain is valid. -/
  valid_front : ∀ l l', Valid (l ++ l') → Valid l
  /-- A valid extension is accepted. -/
  accepts : ∀ s new, Consistent s → new ≠ [] → Valid (headers s ++ new) →
    ∃ s', run (chain.addBlockHeaders new) s = (.ok .success, s') ∧ Consistent s' ∧
      headers s' = headers s ++ new

namespace HeaderBatchCache

variable {σ C : Type} {G : Global} {chain : IBlockChain σ} {S : BatchSort C}

/-! ### One batch -/

section Pending

variable {K : CandidateChain G chain} {s : σ} {pending front back : List (List BlockHeader)}
  {batch : List BlockHeader}

/-- The height of a header is its place. -/
theorem height_of_split (hvalid : K.Valid (K.headers s ++ pending.flatten))
    (hsplit : pending = front ++ batch :: back) {i : ℕ} {h : BlockHeader}
    (hi : batch[i]? = some h) :
    h.getHeight = (K.headers s).length + front.flatten.length + i := by
  refine (K.linked _ hvalid).height _ _ ?_
  obtain ⟨hlt, -⟩ := List.getElem?_eq_some_iff.mp hi
  rw [hsplit, List.flatten_append, List.flatten_cons, List.getElem?_append_right (by omega),
    List.getElem?_append_right (by omega), List.getElem?_append_left (by omega)]
  rwa [show (K.headers s).length + front.flatten.length + i - (K.headers s).length -
    front.flatten.length = i by omega]

/-- Nothing is cut off a batch that is above the chain. -/
theorem trim_of_mem (hs : K.Consistent s) (hvalid : K.Valid (K.headers s ++ pending.flatten))
    (hbatch : batch ∈ pending) : trimAlreadyKnownPrefix G chain s batch = batch := by
  obtain ⟨front, back, hsplit⟩ := List.append_of_mem hbatch
  rcases batch with _ | ⟨h, headers⟩
  · rfl
  · have hheight := height_of_split hvalid hsplit (i := 0) rfl
    have hnone : chain.getBlockHeaderByHeight s h.getHeight = none := by
      rw [K.lookup s hs, List.getElem?_eq_none_iff]
      omega
    rw [trimAlreadyKnownPrefix, List.dropWhile_cons_of_neg]
    rw [hnone]
    exact Bool.false_ne_true

/-- All of a batch is cut off when it is on the chain. -/
theorem trim_of_onChain (hs : K.Consistent s) (hvalid : K.Valid (K.headers s))
    (hbatch : ∀ h ∈ batch, h ∈ K.headers s) : trimAlreadyKnownPrefix G chain s batch = [] := by
  rw [trimAlreadyKnownPrefix, List.dropWhile_eq_nil_iff]
  intro h hh
  obtain ⟨i, hi⟩ := List.mem_iff_getElem?.mp (hbatch h hh)
  have hheight := (K.linked _ hvalid).height i h hi
  rw [K.lookup s hs, hheight, hi]
  exact decide_eq_true rfl

/-- The first batch above the chain is ready. -/
theorem isReady_of_head (hs : K.Consistent s) (hvalid : K.Valid (K.headers s ++ pending.flatten))
    (hsplit : pending = batch :: back) (hne : batch ≠ []) :
    isReady G chain s batch = true := by
  rcases batch with _ | ⟨h, headers⟩
  · exact absurd rfl hne
  have hheight : h.getHeight = (K.headers s).length + ([] : List BlockHeader).length + 0 :=
    @height_of_split σ G chain K s pending [] back (h :: headers) hvalid hsplit 0 h rfl
  rw [List.length_nil] at hheight
  rw [isReady]
  split
  · rfl
  · next hzero =>
    have hlt : h.getHeight - 1 < (K.headers s).length := by omega
    have hprevious :=
      (K.linked _ hvalid).previous (h.getHeight - 1) (K.headers s)[h.getHeight - 1] h
      (by rw [List.getElem?_append_left hlt, List.getElem?_eq_getElem hlt])
      (by
        rw [List.getElem?_append_right (by omega), hsplit,
          show h.getHeight - 1 + 1 - (K.headers s).length = 0 by omega]
        rfl)
    rw [K.lookup s hs, List.getElem?_eq_getElem hlt]
    exact decide_eq_true hprevious.symm

/-- No other batch is. -/
theorem front_eq_nil_of_isReady (hs : K.Consistent s)
    (hvalid : K.Valid (K.headers s ++ pending.flatten)) (hsplit : pending = front ++ batch :: back)
    (hready : isReady G chain s batch = true) : front.flatten = [] := by
  rcases batch with _ | ⟨h, headers⟩
  · cases hready
  have hheight := height_of_split hvalid hsplit (i := 0) rfl
  rw [isReady] at hready
  by_contra hne
  have hpos : 0 < front.flatten.length := List.length_pos_iff.mpr hne
  rw [if_neg (by omega), K.lookup s hs, List.getElem?_eq_none (by omega)] at hready
  cases hready

/-- Only the next batch can be merged behind a front of the batches. -/
theorem between_eq_nil_of_canAppend {between : List (List BlockHeader)} {maxSize : ℕ}
    (hvalid : K.Valid (K.headers s ++ pending.flatten))
    (hsplit : pending = (front ++ between) ++ batch :: back)
    (hcan : canAppend G maxSize front.flatten batch = true) : between.flatten = [] := by
  rcases batch with _ | ⟨h, headers⟩
  · unfold canAppend at hcan
    split at hcan
    · next heq => cases heq
    · cases hcan
  rcases hlast : front.flatten.getLast? with _ | last
  · unfold canAppend at hcan
    rw [hlast] at hcan
    cases hcan
  unfold canAppend at hcan
  rw [hlast] at hcan
  dsimp only at hcan
  rw [Bool.and_eq_true, Bool.and_eq_true, decide_eq_true_eq] at hcan
  -- The heights of the last header and of the next one are their places.
  have hnext := height_of_split hvalid hsplit (i := 0) rfl
  have hpos : 0 < front.flatten.length := by
    rw [List.length_pos_iff]
    rintro hnil
    rw [hnil] at hlast
    cases hlast
  have hplace : last.getHeight = (K.headers s).length + (front.flatten.length - 1) := by
    refine (K.linked _ hvalid).height _ _ ?_
    rw [List.getElem?_append_right (by omega), hsplit, List.flatten_append, List.flatten_append,
      List.append_assoc, List.getElem?_append_left (by omega),
      show (K.headers s).length + (front.flatten.length - 1) - (K.headers s).length =
        front.flatten.length - 1 by omega, ← List.getLast?_eq_getElem?]
    exact hlast
  have hheight : h.getHeight = (last.height + 1).toNat := by
    rw [← hcan.1.1]
    rfl
  have hle : (last.height + 1).toNat ≤ last.getHeight + 1 := by
    rw [UInt64.toNat_add]
    exact Nat.mod_le _ _
  rw [List.flatten_append, List.length_append] at hnext
  exact List.length_eq_zero_iff.mp (by omega)

end Pending

/-! ### A pass over the cache -/

/-- A pass over batches from which nothing is cut off stops at one that is looked for, if there
is one. -/
theorem scan_cases {s : σ} {skip : CachedBatch C → Bool} {wanted : List BlockHeader → Bool}
    {l : List (CachedBatch C)} (hl : ∀ b ∈ l, b.headers ≠ [] ∧
      trimAlreadyKnownPrefix G chain s b.headers = b.headers) :
    (scan G chain s skip wanted l = .done l ∧
        ∀ b ∈ l, skip b = true ∨ wanted b.headers = false) ∨
      ∃ front b back, l = front ++ b :: back ∧
        scan G chain s skip wanted l = .found b (front ++ back) ∧ skip b = false ∧
        wanted b.headers = true := by
  induction l with
  | nil => exact .inl ⟨rfl, by simp⟩
  | cons b l ih =>
    obtain ⟨hne, htrim⟩ := hl b (by simp)
    have hstep : scan G chain s skip wanted (b :: l) =
        if skip b then (scan G chain s skip wanted l).cons b
        else if wanted b.headers then .found b l
        else (scan G chain s skip wanted l).cons b := by
      rw [scan]
      dsimp only
      rw [htrim, if_neg (c := b.headers.isEmpty = true) (by simpa using hne)]
    by_cases hpass : skip b = true ∨ wanted b.headers = false
    · -- The pass goes on behind this batch.
      have hcons : scan G chain s skip wanted (b :: l) =
          (scan G chain s skip wanted l).cons b := by
        rw [hstep]
        rcases hpass with hskip | hwanted
        · rw [if_pos hskip]
        · rw [hwanted, if_neg Bool.false_ne_true, ite_self]
      rcases ih fun b' hb' => hl b' (List.mem_cons_of_mem b hb') with
        ⟨hdone, hall⟩ | ⟨front, b', back, rfl, hfound, hskip, hwanted⟩
      · refine .inl ⟨by rw [hcons, hdone]; rfl, ?_⟩
        rintro b' hb'
        rcases List.mem_cons.mp hb' with rfl | hb'
        · exact hpass
        · exact hall b' hb'
      · exact .inr ⟨b :: front, b', back, rfl, by rw [hcons, hfound]; rfl, hskip, hwanted⟩
    · rw [not_or, Bool.not_eq_true, Bool.not_eq_false] at hpass
      refine .inr ⟨[], b, l, rfl, ?_, hpass.1, hpass.2⟩
      rw [hstep, if_neg (by rw [hpass.1]; exact Bool.false_ne_true), if_pos hpass.2]
      rfl

/-! ### Merging -/

section Waiting

variable (K : CandidateChain G chain)

/-- The batches of a cache wait: they are different ones of those that still have to be handed
on, which are a valid extension of the chain. -/
structure Waits (m : HeaderBatchCache σ C) (pending : List (List BlockHeader)) : Prop where
  /-- A chain can be in this state. -/
  consistent : K.Consistent m.chain
  /-- The extension is valid. -/
  valid : K.Valid (K.headers m.chain ++ pending.flatten)
  /-- There are no empty batches. -/
  ne_nil : ∀ headers ∈ pending, headers ≠ []
  /-- The cache holds some of them … -/
  mem : ∀ batch ∈ m.batches, batch.headers ∈ pending
  /-- … none of them twice. -/
  nodup : (m.batches.map CachedBatch.headers).Nodup

end Waiting

variable {K : CandidateChain G chain} {m m' : HeaderBatchCache σ C}
  {pending : List (List BlockHeader)}

/-- The batches that are left when one is taken out. -/
theorem mem_of_taken {batch : CachedBatch C} {batches front back : List (CachedBatch C)}
    {rest : List (List BlockHeader)} (hperm : (front ++ batch :: back).Perm batches)
    (hmem : ∀ b ∈ batches, b.headers ∈ batch.headers :: rest)
    (hnodup : (batches.map CachedBatch.headers).Nodup) :
    (∀ b ∈ front ++ back, b.headers ∈ rest) ∧
      ((front ++ back).map CachedBatch.headers).Nodup ∧
      ∀ b ∈ batches, b.headers = batch.headers ∨ b ∈ front ++ back := by
  have hcons : (batch :: (front ++ back)).Perm batches := List.perm_middle.symm.trans hperm
  have hnodup' : ((batch :: (front ++ back)).map CachedBatch.headers).Nodup :=
    (hcons.map _).nodup_iff.mpr hnodup
  rw [List.map_cons, List.nodup_cons] at hnodup'
  refine ⟨?_, hnodup'.2, ?_⟩
  · intro b hb
    rcases List.mem_cons.mp (hmem b (hcons.subset (List.mem_cons_of_mem _ hb))) with heq | hrest
    · exact absurd (List.mem_map.mpr ⟨b, hb, heq⟩) hnodup'.1
    · exact hrest
  · intro b hb
    rcases List.mem_cons.mp (hcons.mem_iff.mpr hb) with rfl | hb
    · exact .inl rfl
    · exact .inr hb

/-- **What is merged is a front of the batches**, and everything else stays in the cache. -/
theorem tryAppendContiguousReadyBatches_spec {s : σ} {source : Source}
    (hs : K.Consistent s) {pending : List (List BlockHeader)}
    (hvalid : K.Valid (K.headers s ++ pending.flatten)) (hne : ∀ headers ∈ pending, headers ≠ [])
    {rounds : ℕ} {parts batches : List (CachedBatch C)} {front back : List (List BlockHeader)}
    (hsplit : pending = front ++ back) (hparts : mergedHeaders parts = front.flatten)
    (hmem : ∀ b ∈ batches, b.headers ∈ back)
    (hnodup : (batches.map CachedBatch.headers).Nodup) :
    ∃ front' back' parts' batches',
      tryAppendContiguousReadyBatches G chain S s source rounds parts batches =
        (parts', batches') ∧
      back = front' ++ back' ∧ mergedHeaders parts' = (front ++ front').flatten ∧
      (∀ b ∈ batches', b.headers ∈ back') ∧ (batches'.map CachedBatch.headers).Nodup ∧
      batches'.length ≤ batches.length ∧
      ∀ b ∈ batches, b.headers ∈ front' ∨ b ∈ batches' := by
  induction rounds generalizing parts batches front back with
  | zero =>
    refine ⟨[], back, parts, batches, rfl, rfl, ?_, hmem, hnodup, le_rfl, fun b hb => .inr hb⟩
    rw [List.append_nil]
    exact hparts
  | succ rounds ih =>
    have hperm := S.perm batches
    have hscan := @scan_cases σ C G chain s
      (fun b => decide (b.source ≠ source) || b.headers.isEmpty)
      (canAppend G (getMaxProcessHeaderBatchSize source) (mergedHeaders parts)) (S.sort batches)
      (fun b hb => by
        have hb' : b.headers ∈ pending := by
          rw [hsplit]
          exact List.mem_append_right _ (hmem b (hperm.subset hb))
        exact ⟨hne _ hb', trim_of_mem hs hvalid hb'⟩)
    rw [tryAppendContiguousReadyBatches]
    split
    · rcases hscan with ⟨hdone, -⟩ | ⟨l, batch, r, hsort, hfound, -, hcan⟩
      · rw [hdone]
        refine ⟨[], back, parts, S.sort batches, rfl, rfl, ?_, ?_, ?_, hperm.length_eq.le, ?_⟩
        · rw [List.append_nil]
          exact hparts
        · exact fun b hb => hmem b (hperm.subset hb)
        · exact (hperm.map _).nodup_iff.mpr hnodup
        · exact fun b hb => .inr (hperm.mem_iff.mpr hb)
      · rw [hfound]
        rw [hsort] at hperm
        -- The batch that was found is the next one.
        obtain ⟨x, y, hback⟩ := List.append_of_mem
          (hmem batch (hperm.subset (List.mem_append_right _ List.mem_cons_self)))
        have hx : x = [] := by
          have hplace : pending = (front ++ x) ++ batch.headers :: y := by
            rw [hsplit, hback, List.append_assoc]
          have hflat : x.flatten = [] :=
            between_eq_nil_of_canAppend hvalid hplace (hparts ▸ hcan)
          by_contra hcons
          obtain ⟨headers, hheaders⟩ := List.exists_mem_of_ne_nil x hcons
          refine hne headers ?_ (List.flatten_eq_nil_iff.mp hflat headers hheaders)
          rw [hsplit, hback]
          simp [hheaders]
        rw [hx, List.nil_append] at hback
        rw [hback] at hmem
        obtain ⟨hmem', hnodup', hkeep⟩ := mem_of_taken hperm hmem hnodup
        have hsplit' : pending = (front ++ [batch.headers]) ++ y := by
          rw [hsplit, hback, List.append_assoc]
          rfl
        have hmerged : mergedHeaders (parts ++ [batch]) = (front ++ [batch.headers]).flatten := by
          rw [mergedHeaders, List.flatMap_append, ← mergedHeaders, hparts, List.flatten_append]
          simp
        obtain ⟨front', back', parts', batches', heq, hback', hparts', hrest⟩ :=
          ih hsplit' hmerged hmem' hnodup'
        refine ⟨batch.headers :: front', back', parts', batches', heq, ?_, ?_, hrest.1,
          hrest.2.1, ?_, ?_⟩
        · rw [hback, hback', List.cons_append]
        · rw [hparts', List.append_assoc]
          rfl
        · refine hrest.2.2.1.trans ?_
          rw [← hperm.length_eq, List.length_append, List.length_append, List.length_cons]
          omega
        · intro b hb
          rcases hkeep b hb with heq | hb
          · exact .inl (heq ▸ List.mem_cons_self)
          · exact (hrest.2.2.2 b hb).imp (List.mem_cons_of_mem _) id
    · refine ⟨[], back, parts, batches, rfl, rfl, ?_, hmem, hnodup, le_rfl, fun b hb => .inr hb⟩
      rw [List.append_nil]
      exact hparts

/-! ### A call -/

/-- What a call does to a cache of waiting batches: a front of them is handed on, and every batch
that was in the cache is in the front or still in the cache. -/
structure HandsOn (m : HeaderBatchCache σ C) (pending : List (List BlockHeader))
    (m' : HeaderBatchCache σ C) (front back : List (List BlockHeader)) : Prop where
  /-- The front, and what is left. -/
  split : pending = front ++ back
  /-- What is left waits. -/
  waits : Waits K m' back
  /-- The front is on the chain. -/
  headers : K.headers m'.chain = K.headers m.chain ++ front.flatten
  /-- No batch is lost. -/
  kept : ∀ b ∈ m.batches, b.headers ∈ front ∨ ∃ b' ∈ m'.batches, b'.headers = b.headers

/-- **The rounds of `ProcessReadyBatches`**: they end when the first batch that is left is not in
the cache. -/
theorem processReadyBatches_spec {rounds : ℕ} (hm : Waits K m pending)
    (hrounds : m.batches.length ≤ rounds) :
    ∃ m' front back, run (processReadyBatches G chain S rounds) m = (.ok (), m') ∧
      HandsOn (K := K) m pending m' front back ∧
      ∀ b ∈ m'.batches, back.head? ≠ some b.headers := by
  induction rounds generalizing m pending with
  | zero =>
    have hnil : m.batches = [] := List.length_eq_zero_iff.mp (Nat.le_zero.mp hrounds)
    refine ⟨m, [], pending, rfl, ⟨rfl, hm, ?_, ?_⟩, ?_⟩
    · rw [List.flatten_nil, List.append_nil]
    · exact fun b hb => .inr ⟨b, hb, rfl⟩
    · rw [hnil]
      simp
  | succ rounds ih =>
    have hperm := S.perm m.batches
    have hscan := @scan_cases σ C G chain m.chain (fun _ => false) (isReady G chain m.chain)
      (S.sort m.batches) (fun b hb => by
        have hb' := hm.mem b (hperm.subset hb)
        exact ⟨hm.ne_nil _ hb', trim_of_mem hm.consistent hm.valid hb'⟩)
    rw [processReadyBatches, run_bind_ok (run_get m)]
    rcases hscan with ⟨hdone, hall⟩ | ⟨l, batch, r, hsort, hfound, -, hready⟩
    · -- No batch is ready, so the first one that is left is not there.
      rw [hdone]
      refine ⟨{ m with batches := S.sort m.batches }, [], pending, rfl, ⟨rfl, ?_, ?_, ?_⟩, ?_⟩
      · exact ⟨hm.consistent, hm.valid, hm.ne_nil, fun b hb => hm.mem b (hperm.subset hb),
          (hperm.map _).nodup_iff.mpr hm.nodup⟩
      · rw [List.flatten_nil, List.append_nil]
      · exact fun b hb => .inr ⟨b, hperm.mem_iff.mpr hb, rfl⟩
      · intro b hb hhead
        obtain ⟨rest, hrest⟩ := List.head?_eq_some_iff.mp hhead
        have hready := isReady_of_head hm.consistent hm.valid hrest
          (hm.ne_nil _ (hm.mem b (hperm.subset hb)))
        rcases hall b hb with hfalse | hnot
        · cases hfalse
        · rw [hready] at hnot
          cases hnot
    · rw [hfound]
      dsimp only
      rw [hsort] at hperm
      -- The batch that is ready is the first one that is left.
      obtain ⟨x, y, hpending⟩ := List.append_of_mem
        (hm.mem batch (hperm.subset (List.mem_append_right _ List.mem_cons_self)))
      have hx : x = [] := by
        have hflat := front_eq_nil_of_isReady hm.consistent hm.valid hpending hready
        by_contra hcons
        obtain ⟨headers, hheaders⟩ := List.exists_mem_of_ne_nil x hcons
        refine hm.ne_nil headers ?_ (List.flatten_eq_nil_iff.mp hflat headers hheaders)
        rw [hpending]
        simp [hheaders]
      rw [hx, List.nil_append] at hpending
      obtain ⟨hmem, hnodup, hkeep⟩ :=
        mem_of_taken hperm (fun b hb => hpending ▸ hm.mem b hb) hm.nodup
      obtain ⟨front, back, parts, batches, hmerge, hy, hparts, hmem', hnodup', hle,
          hkeep'⟩ :=
        @tryAppendContiguousReadyBatches_spec σ C G chain S K m.chain batch.source hm.consistent
          pending hm.valid hm.ne_nil (l ++ r).length [batch] (l ++ r) [batch.headers] y
          (by rw [hpending]; rfl) (by simp [mergedHeaders]) hmem hnodup
      rw [hmerge]
      have hflat : pending.flatten = mergedHeaders parts ++ back.flatten := by
        rw [hparts, ← List.flatten_append, hpending, hy]
        rfl
      have hnew : mergedHeaders parts ≠ [] := by
        rw [hparts]
        intro hnil
        refine hm.ne_nil batch.headers ?_ (List.flatten_eq_nil_iff.mp hnil _ (by simp))
        rw [hpending]
        exact List.mem_cons_self
      obtain ⟨s', hrun, hconsistent, hheaders⟩ := K.accepts m.chain (mergedHeaders parts)
        hm.consistent hnew (K.valid_front _ back.flatten (by
          rw [List.append_assoc, ← hflat]
          exact hm.valid))
      let m₁ : HeaderBatchCache σ C :=
        ⟨s', batches, m.processed ++ [⟨m.chain, parts, .ok .success⟩]⟩
      have hadd : run (addMerged chain parts) { m with batches := batches } = (.ok (), m₁) := by
        rw [addMerged, run_ofRun]
        dsimp only
        rw [hrun]
        rfl
      have hm₁ : Waits K m₁ back := by
        refine ⟨hconsistent, ?_, ?_, hmem', hnodup'⟩
        · dsimp only [m₁]
          rw [hheaders, List.append_assoc, ← hflat]
          exact hm.valid
        · intro headers hback
          refine hm.ne_nil headers ?_
          rw [hpending, hy]
          simp [hback]
      obtain ⟨m', front', back', hrest, hhands, hidle⟩ := ih hm₁ (by
        refine hle.trans ?_
        have hlength := hperm.length_eq
        rw [List.length_append, List.length_cons] at hlength
        rw [List.length_append]
        omega)
      refine ⟨m', [batch.headers] ++ front ++ front', back', ?_, ⟨?_, hhands.waits, ?_, ?_⟩, hidle⟩
      · rw [run_bind_ok (run_set _ m), run_bind_ok hadd]
        exact hrest
      · rw [hpending, hy, hhands.split, List.append_assoc, List.append_assoc]
        rfl
      · rw [hhands.headers]
        dsimp only [m₁]
        have hflatten : ([batch.headers] ++ front ++ front').flatten =
            ([batch.headers] ++ front).flatten ++ front'.flatten := List.flatten_append
        rw [hheaders, hparts, hflatten, List.append_assoc]
      · intro b hb
        rcases hkeep b hb with heq | hb
        · exact .inl (by rw [heq]; simp)
        · rcases hkeep' b hb with hfront | hb
          · exact .inl (by simp [hfront])
          · exact (hhands.kept b hb).imp (fun h => List.mem_append_right _ h) id

/-- Batches with a hash in common are the same. -/
theorem eq_of_getHash_eq (hm : Waits K m pending) {a b : List BlockHeader} (ha : a ∈ pending)
    (hb : b ∈ pending) {x y : BlockHeader} (hx : x ∈ a) (hy : y ∈ b)
    (hxy : x.getHash G = y.getHash G) : a = b := by
  have hdistinct := (K.linked _ hm.valid).distinct
  rw [List.map_append, List.map_flatten] at hdistinct
  obtain ⟨-, hpairwise⟩ := List.nodup_flatten.mp (List.nodup_append.mp hdistinct).2.1
  rw [List.pairwise_map] at hpairwise
  by_contra hab
  have hsymm : Std.Symm fun a b : List BlockHeader =>
      (a.map (·.getHash G)).Disjoint (b.map (·.getHash G)) := ⟨fun _ _ h x hx hx' => h hx' hx⟩
  have hdisjoint := hpairwise.forall ha hb hab
  exact hdisjoint (List.mem_map.mpr ⟨x, hx, rfl⟩) (List.mem_map.mpr ⟨y, hy, hxy.symm⟩)

theorem mem_of_isDuplicate (hm : Waits K m pending) {headers : List BlockHeader}
    (hheaders : headers ∈ pending) (hdup : isDuplicate G m.batches headers = true) :
    ∃ b ∈ m.batches, b.headers = headers := by
  rw [isDuplicate, List.any_eq_true] at hdup
  obtain ⟨b, hb, hsame⟩ := hdup
  rw [Bool.and_eq_true, Bool.or_eq_true, decide_eq_true_eq, decide_eq_true_eq] at hsame
  refine ⟨b, hb, ?_⟩
  have hb' := hm.mem b hb
  rcases hsame.2 with hfirst | hlast
  · obtain ⟨x, hx⟩ := Option.ne_none_iff_exists'.mp
      (mt List.head?_eq_none_iff.mp (hm.ne_nil _ hb'))
    obtain ⟨y, hy⟩ := Option.ne_none_iff_exists'.mp
      (mt List.head?_eq_none_iff.mp (hm.ne_nil _ hheaders))
    rw [hx, hy, Option.map_some, Option.map_some, Option.some_inj] at hfirst
    exact eq_of_getHash_eq hm hb' hheaders (List.mem_of_head? hx) (List.mem_of_head? hy) hfirst
  · obtain ⟨x, hx⟩ := Option.ne_none_iff_exists'.mp
      (mt List.getLast?_eq_none_iff.mp (hm.ne_nil _ hb'))
    obtain ⟨y, hy⟩ := Option.ne_none_iff_exists'.mp
      (mt List.getLast?_eq_none_iff.mp (hm.ne_nil _ hheaders))
    rw [hx, hy, Option.map_some, Option.map_some, Option.some_inj] at hlast
    exact eq_of_getHash_eq hm hb' hheaders (List.mem_of_getLast? hx) (List.mem_of_getLast? hy)
      hlast

/-- There is room for a batch that is not in the cache. -/
theorem pushBack_of_not_mem (hm : Waits K m pending) (hcount : pending.length ≤ 16)
    (batch : CachedBatch C) (hmem : batch.headers ∈ pending)
    (hnew : ∀ b ∈ m.batches, b.headers ≠ batch.headers) :
    pushBack m.batches batch = m.batches ++ [batch] ∧
      ((m.batches ++ [batch]).map CachedBatch.headers).Nodup := by
  have hnodup : ((m.batches ++ [batch]).map CachedBatch.headers).Nodup := by
    rw [List.map_append, List.nodup_append]
    refine ⟨hm.nodup, by simp, ?_⟩
    rintro x hx y hy rfl
    obtain ⟨b, hb, rfl⟩ := List.mem_map.mp hx
    exact hnew b hb (by simpa using hy)
  refine ⟨?_, hnodup⟩
  have hsubset : (m.batches ++ [batch]).map CachedBatch.headers ⊆ pending := by
    intro x hx
    obtain ⟨b, hb, rfl⟩ := List.mem_map.mp hx
    rcases List.mem_append.mp hb with hb | hb
    · exact hm.mem b hb
    · rw [List.mem_singleton.mp hb]
      exact hmem
  have hle := (hnodup.subperm hsubset).length_le
  rw [List.length_map, List.length_append, List.length_singleton] at hle
  rw [pushBack, if_neg (by rw [maxCachedHeaderBatches]; omega)]

/-- **A call with one of the batches**: the cache goes on, and the batch is not lost. -/
theorem waits_addHeaders (hm : Waits K m pending)
    (hidle : ∀ b ∈ m.batches, pending.head? ≠ some b.headers) (hcount : pending.length ≤ 16)
    (connection : Option C) (source : Source) {headers : List BlockHeader}
    (hheaders : (∀ h ∈ headers, h ∈ K.headers m.chain) ∨ headers ∈ pending) :
    ∃ m' front back, run (addHeaders G chain S connection headers source) m = (.ok (), m') ∧
      HandsOn (K := K) m pending m' front back ∧ (∀ b ∈ m'.batches, back.head? ≠ some b.headers) ∧
      (headers ∈ pending → headers ∈ front ∨ ∃ b ∈ m'.batches, b.headers = headers) := by
  have hsame : HandsOn (K := K) m pending m [] pending :=
    ⟨rfl, hm, by simp, fun b hb => .inr ⟨b, hb, rfl⟩⟩
  rw [addHeaders, run_bind_ok (run_get m)]
  dsimp only
  by_cases hpending : headers ∈ pending
  swap
  · -- The whole batch is cut off.
    rw [trim_of_onChain hm.consistent (K.valid_front _ _ hm.valid)
      (hheaders.resolve_right hpending)]
    exact ⟨m, [], pending, rfl, hsame, hidle, fun h => absurd h hpending⟩
  rw [trim_of_mem hm.consistent hm.valid hpending,
    if_neg (by simpa using hm.ne_nil headers hpending)]
  by_cases hdup : isDuplicate G m.batches headers = true
  · rw [if_pos hdup]
    exact ⟨m, [], pending, rfl, hsame, hidle,
      fun _ => .inr (mem_of_isDuplicate hm hpending hdup)⟩
  rw [if_neg hdup]
  -- The batch is new, and there is room for it.
  have hnew : ∀ b ∈ m.batches, b.headers ≠ headers := by
    rintro b hb rfl
    refine hdup (List.any_eq_true.mpr ⟨b, hb, ?_⟩)
    simpa using hm.ne_nil _ hpending
  obtain ⟨hpush, hnodup⟩ :=
    pushBack_of_not_mem hm hcount ⟨headers, connection, source⟩ hpending hnew
  rw [hpush, run_bind_ok (run_set _ m)]
  have hm₁ :
      Waits K { m with batches := m.batches ++ [⟨headers, connection, source⟩] } pending := by
    refine ⟨hm.consistent, hm.valid, hm.ne_nil, ?_, hnodup⟩
    intro b hb
    rcases List.mem_append.mp hb with hb | hb
    · exact hm.mem b hb
    · rw [List.mem_singleton.mp hb]
      exact hpending
  obtain ⟨m', front, back, hrun, hhands, hidle'⟩ := processReadyBatches_spec (S := S) hm₁ le_rfl
  refine ⟨m', front, back, hrun, ⟨hhands.split, hhands.waits, hhands.headers, ?_⟩, hidle', ?_⟩
  · exact fun b hb => hhands.kept b (List.mem_append_left _ hb)
  · exact fun _ => hhands.kept ⟨headers, connection, source⟩ (by simp)

/-! ### All calls -/

/-- **The calls with batches of an extension**: every batch that came is on the chain or in the
cache, and the first one that is not on the chain is not in the cache. -/
theorem waits_addAll {base : List BlockHeader} {batches : List (List BlockHeader)}
    (hcount : batches.length ≤ 16) {messages : List (HeadersMessage C)}
    (hmessages : ∀ message ∈ messages, message.headers = [] ∨ message.headers ∈ batches)
    {front : List (List BlockHeader)} (hsplit : batches = front ++ pending)
    (hm : Waits K m pending) (hbase : K.headers m.chain = base ++ front.flatten)
    (hidle : ∀ b ∈ m.batches, pending.head? ≠ some b.headers) :
    ∃ m' front' back', run (addAll G chain S messages) m = (.ok (), m') ∧
      batches = front' ++ back' ∧ Waits K m' back' ∧
      K.headers m'.chain = base ++ front'.flatten ∧
      (∀ b ∈ m'.batches, back'.head? ≠ some b.headers) ∧
      ∀ headers, (headers ∈ front ∨ (∃ b ∈ m.batches, b.headers = headers) ∨
          headers ≠ [] ∧ ∃ message ∈ messages, message.headers = headers) →
        headers ∈ front' ∨ ∃ b ∈ m'.batches, b.headers = headers := by
  induction messages generalizing m front pending with
  | nil =>
    refine ⟨m, front, pending, rfl, hsplit, hm, hbase, hidle, ?_⟩
    rintro headers (hfront | hcached | ⟨-, _, hnone, -⟩)
    · exact .inl hfront
    · exact .inr hcached
    · cases hnone
  | cons message messages ih =>
    have hbatch : (∀ h ∈ message.headers, h ∈ K.headers m.chain) ∨ message.headers ∈ pending := by
      rcases hmessages message List.mem_cons_self with hnil | hmem
      · rw [hnil]
        exact .inl (by simp)
      rw [hsplit, List.mem_append] at hmem
      refine hmem.imp_left fun hfront h hh => ?_
      rw [hbase]
      exact List.mem_append_right _ (List.mem_flatten.mpr ⟨_, hfront, hh⟩)
    have hle : pending.length ≤ 16 := by
      rw [hsplit, List.length_append] at hcount
      omega
    obtain ⟨m₁, x, y, hrun, hhands, hidle₁, hcame⟩ :=
      waits_addHeaders (S := S) hm hidle hle (some message.connection) message.source hbatch
    have hsplit₁ : batches = (front ++ x) ++ y := by
      rw [hsplit, hhands.split, List.append_assoc]
    have hbase₁ : K.headers m₁.chain = base ++ (front ++ x).flatten := by
      rw [hhands.headers, hbase, List.flatten_append, List.append_assoc]
    obtain ⟨m', front', back', hrest, hsplit', hwaits, hheaders, hidle', hall⟩ :=
      ih (fun a ha => hmessages a (List.mem_cons_of_mem _ ha)) hsplit₁ hhands.waits hbase₁ hidle₁
    refine ⟨m', front', back', ?_, hsplit', hwaits, hheaders, hidle', ?_⟩
    · rw [addAll, run_forM_cons, run_bind_ok hrun]
      exact hrest
    · -- Whatever came is known to the first call or to the others.
      rintro headers (hfront | ⟨b, hb, rfl⟩ | ⟨hne, message', hmessage, rfl⟩)
      · exact hall headers (.inl (List.mem_append_left _ hfront))
      · rcases hhands.kept b hb with hx | hcached
        · exact hall _ (.inl (List.mem_append_right _ hx))
        · exact hall _ (.inr (.inl hcached))
      · rcases List.mem_cons.mp hmessage with rfl | hlater
        · have hmem := (hmessages message' List.mem_cons_self).resolve_left hne
          rw [hsplit, List.mem_append] at hmem
          rcases hmem with hfront | hpending
          · exact hall _ (.inl (List.mem_append_left _ hfront))
          · rcases hcame hpending with hx | hcached
            · exact hall _ (.inl (List.mem_append_right _ hx))
            · exact hall _ (.inr (.inl hcached))
        · exact hall _ (.inr (.inr ⟨hne, message', hlater, rfl⟩))

/-- A batch that is left was not handed on. -/
theorem not_mem_front {base : List BlockHeader} {front back : List (List BlockHeader)}
    {headers : List BlockHeader} (hm : Waits K m (headers :: back))
    (hbase : K.headers m.chain = base ++ front.flatten) : headers ∉ front := by
  intro hfront
  obtain ⟨h, hh⟩ := List.exists_mem_of_ne_nil _ (hm.ne_nil headers List.mem_cons_self)
  -- The header would be on the chain, and above it.
  have honChain : h ∈ K.headers m.chain := by
    rw [hbase]
    exact List.mem_append_right _ (List.mem_flatten.mpr ⟨headers, hfront, hh⟩)
  obtain ⟨i, hi⟩ := List.mem_iff_getElem?.mp honChain
  obtain ⟨j, hj⟩ := List.mem_iff_getElem?.mp hh
  have hlow := (K.linked _ (K.valid_front _ _ hm.valid)).height i h hi
  have hhigh : h.getHeight = (K.headers m.chain).length + ([] : List BlockHeader).length + j :=
    @height_of_split σ G chain K m.chain _ [] back headers hm.valid rfl j h hj
  have hlt := (List.getElem?_eq_some_iff.mp hi).1
  omega

/-- **Batches may come in any order**: an extension of the candidate chain that is valid and was
cut into sixteen batches at most is the end of the candidate chain when all of them came, in
whatever order and however often, and the cache is empty. -/
theorem addAll_anyOrder (K : CandidateChain G chain) (S : BatchSort C) {s : σ}
    (hs : K.Consistent s) {batches : List (List BlockHeader)}
    (hvalid : K.Valid (K.headers s ++ batches.flatten)) (hcount : batches.length ≤ 16)
    {messages : List (HeadersMessage C)}
    (hmessages : ∀ message ∈ messages, message.headers ∈ batches)
    (hall : ∀ headers ∈ batches, ∃ message ∈ messages, message.headers = headers) :
    ∃ m, run (addAll G chain S messages) (empty s) = (.ok (), m) ∧ m.batches = [] ∧
      K.headers m.chain = K.headers s ++ batches.flatten := by
  have hflat : (batches.filter (· ≠ [])).flatten = batches.flatten := List.flatten_filter_ne_nil
  have hempty : Waits K (empty (C := C) s) (batches.filter (· ≠ [])) := by
    refine ⟨hs, hflat ▸ hvalid, ?_, by rintro b ⟨⟩, List.nodup_nil⟩
    intro headers hheaders
    exact of_decide_eq_true (List.mem_filter.mp hheaders).2
  have hmessages' : ∀ message ∈ messages,
      message.headers = [] ∨ message.headers ∈ batches.filter (· ≠ []) := by
    intro message hmessage
    by_cases hnil : message.headers = []
    · exact .inl hnil
    · exact .inr (List.mem_filter.mpr ⟨hmessages message hmessage, decide_eq_true hnil⟩)
  have hbase : K.headers (empty (C := C) s).chain =
      K.headers s ++ ([] : List (List BlockHeader)).flatten := by
    rw [List.flatten_nil, List.append_nil]
    rfl
  obtain ⟨m, front, back, hrun, hsplit, hwaits, hheaders, hidle, hcame⟩ :=
    waits_addAll (S := S) ((List.length_filter_le _ _).trans hcount) hmessages' rfl hempty hbase
      (by rintro b ⟨⟩)
  -- The first batch that is left would be in the cache, and then it would not be left.
  have hback : back = [] := by
    rcases back with _ | ⟨headers, rest⟩
    · rfl
    · have hmem : headers ∈ batches.filter (· ≠ []) := by
        rw [hsplit]
        simp
      have hcame' := hcame headers (.inr (.inr ⟨hwaits.ne_nil headers List.mem_cons_self,
        hall headers (List.mem_filter.mp hmem).1⟩))
      rcases hcame' with hfront | ⟨b, hb, hsame⟩
      · exact absurd hfront (not_mem_front hwaits hheaders)
      · exact absurd (by rw [hsame]; rfl) (hidle b hb)
  subst hback
  refine ⟨m, hrun, ?_, ?_⟩
  · exact List.eq_nil_iff_forall_not_mem.mpr fun b hb => by cases hwaits.mem b hb
  · rw [hheaders, ← hflat, hsplit, List.append_nil]

end HeaderBatchCache

/-! ### On the small chain -/

namespace SmallNet

open HeaderBatchCache

/-- The headers of the small chain. -/
def smallHeaders : List BlockHeader := [genesisHeader, block₁.header, block₂.header]

/-- The state behind some headers. -/
def withHeaders (s : ChainState) (headers : List BlockHeader) : ChainState :=
  (run ((BlockChain.iBlockChain testNet noon).addBlockHeaders headers) s).2

/-- The headers of the candidate chain that are in the database. -/
def candidateHeaders (s : ChainState) : List BlockHeader :=
  (List.range s.candidate.hashes.length).filterMap (s.getBlockHeaderByHeight · .candidate)

/-- Behind the first header. -/
def headerState₁ : ChainState := withHeaders genesis [block₁.header]

/-- Behind both headers, in one batch. -/
def headerState₂ : ChainState := withHeaders genesis [block₁.header, block₂.header]

/-- Behind both headers, one by one. -/
def headerState₁₂ : ChainState := withHeaders headerState₁ [block₂.header]

/-- The states to which the two headers lead. -/
inductive HeaderState : ChainState → Prop
  | genesis : HeaderState genesis
  | first : HeaderState headerState₁
  | both : HeaderState headerState₂
  | second : HeaderState headerState₁₂

theorem hashLinked_smallHeaders : ∀ l, l <+: smallHeaders → HashLinked testNet l := by
  intro l hl
  have hheight : ∀ i, i < 3 → (smallHeaders[i]?).map BlockHeader.getHeight = some i := by
    decide +kernel
  have hprevious : ∀ i, i < 2 → (smallHeaders[i + 1]?).map BlockHeader.previousHash =
      (smallHeaders[i]?).map (·.getHash testNet) := by decide +kernel
  have hdistinct : (smallHeaders.map (·.getHash testNet)).Nodup := by decide +kernel
  have hlt : ∀ {i : ℕ} {h : BlockHeader}, l[i]? = some h →
      smallHeaders[i]? = some h ∧ i < 3 := by
    intro i h hi
    obtain ⟨hlength, hget⟩ := List.getElem?_eq_some_iff.mp hi
    have hsome : smallHeaders[i]? = some h := by
      obtain ⟨rest, hrest⟩ := hl
      rw [← hrest, List.getElem?_append_left hlength, hi]
    exact ⟨hsome, (List.getElem?_eq_some_iff.mp hsome).1⟩
  refine ⟨?_, ?_, (hl.map _).sublist.nodup hdistinct⟩
  · intro i h hi
    obtain ⟨hsome, hlt⟩ := hlt hi
    have := hheight i hlt
    rw [hsome] at this
    exact Option.some_inj.mp this
  · intro i h h' hi hi'
    obtain ⟨hsome, -⟩ := hlt hi
    obtain ⟨hsome', hlt'⟩ := hlt hi'
    have := hprevious i (by omega)
    rw [hsome, hsome'] at this
    exact Option.some_inj.mp this

/-- A lookup reads a list of values that are all there. -/
theorem getElem?_filterMap_range {α : Type} {f : ℕ → Option α} {n : ℕ}
    (h : ((List.range n).filterMap f).length = n) (hnone : ∀ i, n ≤ i → f i = none) (i : ℕ) :
    f i = ((List.range n).filterMap f)[i]? := by
  have hsome : ∀ j ∈ List.range n, (f j).isSome = true :=
    List.filterMap_length_eq_length.mp (by rw [h, List.length_range])
  rcases Nat.lt_or_ge i n with hlt | hge
  · have hmap : (List.range n).map f = ((List.range n).filterMap f).map some := by
      generalize List.range n = l at hsome
      induction l with
      | nil => rfl
      | cons a l ih =>
        obtain ⟨b, hb⟩ := Option.isSome_iff_exists.mp (hsome a List.mem_cons_self)
        rw [List.map_cons, List.filterMap_cons, hb, List.map_cons,
          ih fun j hj => hsome j (List.mem_cons_of_mem _ hj)]
    have hget : ((List.range n).map f)[i]? = (((List.range n).filterMap f).map some)[i]? := by
      rw [hmap]
    rw [List.getElem?_map, List.getElem?_range hlt, List.getElem?_map, Option.map_some] at hget
    rcases hright : ((List.range n).filterMap f)[i]? with _ | a
    · rw [hright] at hget
      cases hget
    · rw [hright] at hget
      exact Option.some_inj.mp hget
  · rw [hnone i hge, List.getElem?_eq_none (by rw [h]; exact hge)]

theorem lookup_of_length {s : ChainState}
    (h : (candidateHeaders s).length = s.candidate.hashes.length) (height : ℕ) :
    s.getBlockHeaderByHeight height .candidate = (candidateHeaders s)[height]? := by
  refine getElem?_filterMap_range h ?_ height
  intro i hi
  have hnone : s.candidate.getByHeight i = none := List.getElem?_eq_none hi
  rw [ChainState.getBlockHeaderByHeight, ChainState.getChain, hnone]
  rfl

theorem length_candidateHeaders {s : ChainState} (hs : HeaderState s) :
    (candidateHeaders s).length = s.candidate.hashes.length := by
  cases hs with
  | genesis => decide +kernel
  | first => decide +kernel
  | both => decide +kernel
  | second => decide +kernel

theorem lookup_candidateHeaders : ∀ s, HeaderState s → ∀ height,
    (BlockChain.iBlockChain testNet noon).getBlockHeaderByHeight s height =
      (candidateHeaders s)[height]? :=
  fun _ hs height => lookup_of_length (length_candidateHeaders hs) height

/-- Some headers are accepted, and lead to another state. -/
theorem accepts_of_eval {s : ChainState} {new : List BlockHeader}
    (hstate : HeaderState (withHeaders s new))
    (hresult : (run ((BlockChain.iBlockChain testNet noon).addBlockHeaders new) s).1.toOption =
      some .success)
    (hheaders : candidateHeaders (withHeaders s new) = candidateHeaders s ++ new) :
    ∃ s', run ((BlockChain.iBlockChain testNet noon).addBlockHeaders new) s = (.ok .success, s') ∧
      HeaderState s' ∧ candidateHeaders s' = candidateHeaders s ++ new := by
  refine ⟨withHeaders s new, ?_, hstate, hheaders⟩
  rw [withHeaders]
  rcases hrun : run ((BlockChain.iBlockChain testNet noon).addBlockHeaders new) s with
    ⟨e | status, s'⟩
  · rw [hrun] at hresult
    cases hresult
  · rw [hrun] at hresult
    rw [Option.some_inj.mp hresult]

/-- A front of a list is empty, or begins with its first value. -/
theorem eq_cons_of_prefix {a : BlockHeader} {new l : List BlockHeader} (hne : new ≠ [])
    (h : new <+: a :: l) : ∃ rest, new = a :: rest ∧ rest <+: l :=
  (List.prefix_cons_iff.mp h).resolve_left hne

theorem accepts_smallHeaders : ∀ s new, HeaderState s → new ≠ [] →
    candidateHeaders s ++ new <+: smallHeaders →
    ∃ s', run ((BlockChain.iBlockChain testNet noon).addBlockHeaders new) s = (.ok .success, s') ∧
      HeaderState s' ∧ candidateHeaders s' = candidateHeaders s ++ new := by
  intro s new hs hne hvalid
  cases hs with
  | genesis =>
    have hheaders : candidateHeaders genesis = [genesisHeader] := by decide +kernel
    rw [hheaders] at hvalid
    obtain ⟨rest, rfl, hrest⟩ :=
      eq_cons_of_prefix hne ((List.prefix_cons_inj genesisHeader).mp hvalid)
    rcases List.prefix_cons_iff.mp hrest with rfl | ⟨last, rfl, hlast⟩
    · exact accepts_of_eval .first (by decide +kernel) (by decide +kernel)
    · rw [List.prefix_nil.mp hlast]
      exact accepts_of_eval .both (by decide +kernel) (by decide +kernel)
  | first =>
    have hheaders : candidateHeaders headerState₁ = [genesisHeader, block₁.header] := by
      decide +kernel
    rw [hheaders] at hvalid
    obtain ⟨rest, rfl, hrest⟩ := eq_cons_of_prefix hne ((List.prefix_cons_inj block₁.header).mp
      ((List.prefix_cons_inj genesisHeader).mp hvalid))
    rw [List.prefix_nil.mp hrest]
    exact accepts_of_eval .second (by decide +kernel) (by decide +kernel)
  | both =>
    have hheaders : candidateHeaders headerState₂ = smallHeaders := by decide +kernel
    rw [hheaders] at hvalid
    exact absurd (by simpa using hvalid.length_le) hne
  | second =>
    have hheaders : candidateHeaders headerState₁₂ = smallHeaders := by decide +kernel
    rw [hheaders] at hvalid
    exact absurd (by simpa using hvalid.length_le) hne

theorem front_smallHeaders : ∀ l l' : List BlockHeader,
    l ++ l' <+: smallHeaders → l <+: smallHeaders :=
  fun l l' h => (List.prefix_append l l').trans h

/-- The small chain accepts its two headers. -/
def smallCandidateChain : CandidateChain testNet (BlockChain.iBlockChain testNet noon) where
  headers := candidateHeaders
  Consistent := HeaderState
  Valid l := l <+: smallHeaders
  lookup := lookup_candidateHeaders
  linked := hashLinked_smallHeaders
  valid_front := front_smallHeaders
  accepts := accepts_smallHeaders

end SmallNet

open SmallNet HeaderBatchCache

theorem valid_small :
    smallCandidateChain.Valid (smallCandidateChain.headers genesis ++
      [[block₁.header], [block₂.header]].flatten) := by
  have hheaders : candidateHeaders genesis = [genesisHeader] := by decide +kernel
  change candidateHeaders genesis ++ [[block₁.header], [block₂.header]].flatten <+: smallHeaders
  rw [hheaders]
  exact List.prefix_rfl

/-- Two batches that come in the wrong order, the second one twice. -/
theorem addAll_anyOrder_small :
    ∃ m, run (addAll testNet (BlockChain.iBlockChain testNet noon) stableSort
        [⟨1, [block₂.header], .legacyHeaders⟩, ⟨2, [block₁.header], .pihdSegment⟩,
          ⟨1, [block₂.header], .legacyHeaders⟩]) (empty genesis) = (.ok (), m) ∧
      m.batches = [] ∧ candidateHeaders m.chain = candidateHeaders genesis ++
        [[block₁.header], [block₂.header]].flatten :=
  addAll_anyOrder smallCandidateChain (stableSort (C := ℕ)) .genesis valid_small (by decide)
    (by simp) (by simp)

end GrinPlusPlus
