import GrinPlusPlus.BlockChain.SmallChain
import GrinPlusPlus.P2P.HeaderBatchCache
import Mathlib.Logic.Relation

/-!
# Who is banned for a batch of headers

Merged batches are handed to the chain as one, and when it rejects them the connection of the
*first* batch is banned (`GrinPlusPlus.HeaderBatchCache.Processed.connection`), whichever batch
the rejected header belongs to. A batch that waits in the cache with a bad header therefore falls
on the peer who delivers the headers before it.

A ban is *just* when a header that was rejected came from the connection that is banned
(`GrinPlusPlus.HeaderBatchCache.JustBan`). All bans are, as long as no batch leads over the cache
to a bad batch of another connection (`GrinPlusPlus.HeaderBatchCache.LeadsToSound`).
-/

namespace GrinPlusPlus

namespace HeaderBatchCache

open Exec

variable {σ C : Type}

/-! ### Just bans -/

section Chain

variable (G : Global) (chain : IBlockChain σ)

/-- The chain rejects headers, in a way for which somebody is banned. -/
def Rejects (s : σ) (headers : List BlockHeader) : Prop :=
  (banReason (run (chain.addBlockHeaders headers) s).1).isSome = true

instance decidableRejects (s : σ) (headers : List BlockHeader) :
    Decidable (Rejects chain s headers) :=
  inferInstanceAs (Decidable (_ = true))

/-- The header at a place is one that the chain rejects: with it the headers are rejected, and
those before it are not. -/
def RejectsAt (s : σ) (headers : List BlockHeader) (i : ℕ) : Prop :=
  Rejects chain s (headers.take (i + 1)) ∧ (i ≠ 0 → ¬Rejects chain s (headers.take i))

/-- **A ban is just**: a header that was rejected was supplied by the connection. -/
def JustBan (p : Processed σ C) (connection : C) : Prop :=
  ∃ front part back, p.parts = front ++ part :: back ∧ part.connection = some connection ∧
    ∃ i, i < part.headers.length ∧
      RejectsAt chain p.chain p.headers ((mergedHeaders front).length + i)

/-- All bans are just. -/
def BansJustly (m : HeaderBatchCache σ C) : Prop :=
  ∀ p ∈ m.processed, ∀ connection reason, p.banPeer = some (connection, reason) →
    JustBan chain p connection

/-! ### The condition -/

/-- The states to which more headers lead. -/
inductive Later (s : σ) : σ → Prop
  | refl : Later s s
  | add {t : σ} (headers : List BlockHeader) (h : Later s t) :
    Later s (run (chain.addBlockHeaders headers) t).2

/-- Headers follow others. -/
def Follows (front headers : List BlockHeader) : Prop :=
  ∃ last next rest, front.getLast? = some last ∧ headers = next :: rest ∧
    next.height = last.height + 1 ∧ next.previousHash = last.getHash G

/-- One batch leads to another of the same kind: some header of the other one follows it. -/
def Leads (a b : CachedBatch C) : Prop :=
  b.source = a.source ∧ ∃ suffix, suffix <:+ b.headers ∧ Follows G a.headers suffix

/-- From a state on, the headers of a batch are no reason to reject anything that they follow. -/
def Sound (s : σ) (b : CachedBatch C) : Prop :=
  ∀ t, Later chain s t → ∀ front suffix, suffix <:+ b.headers → Follows G front suffix →
    ¬Rejects chain t front → ∀ k, ¬Rejects chain t (front ++ suffix.take k)

/-- **The condition on a call**: no batch leads, directly or over others, to a batch of another
connection, unless that one is sound. -/
def LeadsToSound (m : HeaderBatchCache σ C) (message : HeadersMessage C) : Prop :=
  let batches : List (CachedBatch C) :=
    ⟨message.headers, some message.connection, message.source⟩ :: m.batches
  ∀ a ∈ batches, ∀ b ∈ batches, Relation.TransGen (Leads G) a b → b.connection ≠ a.connection →
    Sound G chain m.chain b

end Chain

variable {G : Global} {chain : IBlockChain σ} {S : BatchSort C}

/-! ### What is merged -/

/-- A batch of which the beginning may have been cut off. -/
structure TrimOf (b a : CachedBatch C) : Prop where
  /-- Something is left. -/
  ne_nil : b.headers ≠ []
  /-- The end is the same. -/
  suffix : b.headers <:+ a.headers
  /-- So is the connection … -/
  connection : b.connection = a.connection
  /-- … and the kind. -/
  source : b.source = a.source

theorem TrimOf.trans {a b c : CachedBatch C} (hcb : TrimOf c b) (hba : TrimOf b a) :
    TrimOf c a :=
  ⟨hcb.ne_nil, hcb.suffix.trans hba.suffix, hcb.connection.trans hba.connection,
    hcb.source.trans hba.source⟩

theorem TrimOf.getLast? {a b : CachedBatch C} (h : TrimOf b a) :
    b.headers.getLast? = a.headers.getLast? := by
  obtain ⟨front, hfront⟩ := h.suffix
  rw [← hfront, List.getLast?_append_of_ne_nil _ h.ne_nil]

/-- Every batch is one of others, perhaps cut off. -/
def TrimsOf (batches original : List (CachedBatch C)) : Prop :=
  ∀ b ∈ batches, ∃ a ∈ original, TrimOf b a

variable (G) in
/-- Batches that are merged, from a first one up to a last one: each follows those before it. -/
inductive Merged (original : List (CachedBatch C)) (first : CachedBatch C) :
    List (CachedBatch C) → CachedBatch C → Prop
  | single {b : CachedBatch C} (hfirst : first ∈ original) (h : TrimOf b first) :
    Merged original first [b] first
  | append {parts : List (CachedBatch C)} {last b a : CachedBatch C}
    (hparts : Merged original first parts last) (ha : a ∈ original) (h : TrimOf b a)
    (hsource : b.source = first.source) (hfollows : Follows G (mergedHeaders parts) b.headers) :
    Merged original first (parts ++ [b]) a

section Merging

variable {original parts : List (CachedBatch C)} {first last : CachedBatch C}

theorem mergedHeaders_append (a b : List (CachedBatch C)) :
    mergedHeaders (a ++ b) = mergedHeaders a ++ mergedHeaders b :=
  List.flatMap_append

theorem Merged.getLast? (h : Merged G original first parts last) :
    (mergedHeaders parts).getLast? = last.headers.getLast? := by
  have hone : ∀ b : CachedBatch C, mergedHeaders [b] = b.headers := by
    intro b
    simp [mergedHeaders]
  cases h with
  | single hfirst h => rw [hone, h.getLast?]
  | append hparts ha h hsource hfollows =>
    rw [mergedHeaders_append, hone, List.getLast?_append_of_ne_nil _ h.ne_nil, h.getLast?]

theorem Merged.source (h : Merged G original first parts last) : last.source = first.source := by
  cases h with
  | single => rfl
  | append hparts ha h hsource hfollows => rw [← h.source, hsource]

theorem Merged.exists_first (h : Merged G original first parts last) :
    first ∈ original ∧ ∃ b rest, parts = b :: rest ∧ TrimOf b first := by
  induction h with
  | single hfirst h => exact ⟨hfirst, _, [], rfl, h⟩
  | append hparts ha h hsource hfollows ih =>
    obtain ⟨hfirst, b, rest, rfl, hb⟩ := ih
    exact ⟨hfirst, b, rest ++ [_], rfl, hb⟩

/-- The first batch leads to the last one. -/
theorem Merged.leads (h : Merged G original first parts last) :
    Relation.ReflTransGen (Leads G) first last := by
  induction h with
  | single => exact .refl
  | append hparts ha h hsource hfollows ih =>
    refine ih.tail ⟨?_, _, h.suffix, ?_⟩
    · rw [← h.source, hsource, hparts.source]
    · obtain ⟨header, next, rest, hlast, hheaders, hlink⟩ := hfollows
      exact ⟨header, next, rest, by rw [← hparts.getLast?, hlast], hheaders, hlink⟩

/-- A part is the first one, or the first batch leads to it. -/
theorem Merged.of_split (h : Merged G original first parts last) {front back : List (CachedBatch C)}
    {part : CachedBatch C} (hsplit : parts = front ++ part :: back) :
    (front = [] ∧ TrimOf part first) ∨
      Follows G (mergedHeaders front) part.headers ∧
        ∃ a ∈ original, TrimOf part a ∧ Relation.TransGen (Leads G) first a := by
  induction h generalizing back with
  | single hfirst h =>
    rcases front with _ | ⟨x, front⟩
    · rw [List.nil_append, List.cons.injEq] at hsplit
      exact .inl ⟨rfl, hsplit.1 ▸ h⟩
    · simp at hsplit
  | @append parts last b a hparts ha h hsource hfollows ih =>
    rcases List.eq_nil_or_concat' back with rfl | ⟨back, x, rfl⟩
    · obtain ⟨rfl, hb⟩ := List.append_inj' hsplit rfl
      rw [List.cons.injEq] at hb
      obtain ⟨rfl, -⟩ := hb
      refine .inr ⟨hfollows, a, ha, h, ?_⟩
      refine Relation.TransGen.tail' hparts.leads ⟨?_, _, h.suffix, ?_⟩
      · rw [← h.source, hsource, hparts.source]
      · obtain ⟨header, next, rest, hlast, hheaders, hlink⟩ := hfollows
        exact ⟨header, next, rest, by rw [← hparts.getLast?, hlast], hheaders, hlink⟩
    · rw [← List.cons_append, ← List.append_assoc] at hsplit
      exact ih (List.append_inj' hsplit rfl).1

/-- Every header that is merged is in one of the batches. -/
theorem exists_part {i : ℕ} (hi : i < (mergedHeaders parts).length) :
    ∃ front part back j, parts = front ++ part :: back ∧ j < part.headers.length ∧
      i = (mergedHeaders front).length + j := by
  induction parts generalizing i with
  | nil => exact absurd hi (Nat.not_lt_zero i)
  | cons b parts ih =>
    rw [mergedHeaders, List.flatMap_cons, List.length_append] at hi
    by_cases hlt : i < b.headers.length
    · exact ⟨[], b, parts, i, rfl, hlt, by simp [mergedHeaders]⟩
    · obtain ⟨front, part, back, j, rfl, hj, heq⟩ :=
        ih (i := i - b.headers.length) (by rw [mergedHeaders]; omega)
      refine ⟨b :: front, part, back, j, rfl, hj, ?_⟩
      rw [mergedHeaders, List.flatMap_cons, List.length_append, ← mergedHeaders]
      omega

end Merging

/-! ### A rejected batch -/

/-- When headers are rejected, one of them is. -/
theorem exists_rejectsAt {s : σ} {headers : List BlockHeader} (hne : headers ≠ [])
    (h : Rejects chain s headers) :
    ∃ i, i < headers.length ∧ RejectsAt chain s headers i ∧
      ∀ j, j ≠ 0 → j ≤ i → ¬Rejects chain s (headers.take j) := by
  have hpos := List.length_pos_iff.mpr hne
  have hex : ∃ i, Rejects chain s (headers.take (i + 1)) := by
    refine ⟨headers.length - 1, ?_⟩
    rwa [Nat.sub_add_cancel hpos, List.take_length]
  have hbefore : ∀ j, j ≠ 0 → j ≤ Nat.find hex → ¬Rejects chain s (headers.take j) := by
    intro j hj hle
    have hmin := Nat.find_min hex (m := j - 1) (by omega)
    rwa [Nat.sub_add_cancel (Nat.one_le_iff_ne_zero.mpr hj)] at hmin
  refine ⟨Nat.find hex, ?_, ⟨Nat.find_spec hex, fun hi => hbefore _ hi le_rfl⟩, hbefore⟩
  have hle : Nat.find hex ≤ headers.length - 1 := by
    refine Nat.find_min' hex ?_
    rwa [Nat.sub_add_cancel hpos, List.take_length]
  omega

theorem of_banPeer {p : Processed σ C} {connection : C} {reason : EBanReason}
    (h : p.banPeer = some (connection, reason)) :
    p.connection = some connection ∧ (banReason p.result).isSome = true := by
  rw [Processed.banPeer] at h
  split at h
  · next c r hc hr =>
    rw [Option.some_inj, Prod.mk.injEq] at h
    exact ⟨h.1 ▸ hc, by rw [hr]; rfl⟩
  · cases h

/-- **A ban is just** when the batches to which the first one leads are sound. -/
theorem justBan_of_merged {s : σ} {original : List (CachedBatch C)} {first last : CachedBatch C}
    {p : Processed σ C} (hp : Merged G original first p.parts last)
    (hresult : p.result = (run (chain.addBlockHeaders p.headers) p.chain).1)
    (hlater : Later chain s p.chain)
    (hsound : ∀ b ∈ original, Relation.TransGen (Leads G) first b →
      b.connection ≠ first.connection → Sound G chain s b)
    (hconnection : first.connection ≠ none) {connection : C} {reason : EBanReason}
    (hban : p.banPeer = some (connection, reason)) : JustBan chain p connection := by
  obtain ⟨-, b, rest, hparts, hb⟩ := hp.exists_first
  obtain ⟨hresponsible, hreason⟩ := of_banPeer hban
  have hfirst : first.connection = some connection := by
    obtain ⟨c, hc⟩ := Option.ne_none_iff_exists'.mp hconnection
    rw [Processed.connection, hparts, List.findSome?_cons, hb.connection, hc] at hresponsible
    rw [hc]
    exact hresponsible
  have hne : p.headers ≠ [] := by
    rw [Processed.headers, hparts, mergedHeaders, List.flatMap_cons]
    exact List.append_ne_nil_of_left_ne_nil hb.ne_nil _
  have hrejects : Rejects chain p.chain p.headers := by
    rw [Rejects, ← hresult]
    exact hreason
  -- The batch with the first header that is rejected.
  obtain ⟨i, hi, hat, hbefore⟩ := exists_rejectsAt hne hrejects
  obtain ⟨front, part, back, j, hsplit, hj, rfl⟩ := exists_part hi
  rcases hp.of_split hsplit with ⟨rfl, hpart⟩ | ⟨hfollows, a, ha, hpart, hleads⟩
  · exact ⟨[], part, back, hsplit, by rw [hpart.connection, hfirst], j, hj, hat⟩
  by_cases hsame : a.connection = first.connection
  · exact ⟨front, part, back, hsplit, by rw [hpart.connection, hsame, hfirst], j, hj, hat⟩
  -- A sound batch is no reason to reject what is before it.
  have hfront : mergedHeaders front ≠ [] := by
    obtain ⟨header, next, rest', hlast, -⟩ := hfollows
    intro hnil
    rw [hnil] at hlast
    cases hlast
  have hheaders : p.headers = mergedHeaders front ++ (part.headers ++ mergedHeaders back) := by
    rw [Processed.headers, hsplit, mergedHeaders_append]
    rfl
  have htakeFront : p.headers.take (mergedHeaders front).length = mergedHeaders front := by
    rw [hheaders, List.take_left]
  have htake : p.headers.take ((mergedHeaders front).length + j + 1) =
      mergedHeaders front ++ part.headers.take (j + 1) := by
    rw [hheaders, Nat.add_assoc, List.take_length_add_append, List.take_append_of_le_length hj]
  have hok := hbefore (mergedHeaders front).length
    (Nat.pos_iff_ne_zero.mp (List.length_pos_iff.mpr hfront)) (Nat.le_add_right _ _)
  rw [htakeFront] at hok
  have hsoundly := hsound a ha hleads hsame p.chain hlater (mergedHeaders front) part.headers
    hpart.suffix hfollows hok (j + 1)
  rw [← htake] at hsoundly
  exact absurd hat.1 hsoundly

/-! ### A pass over the cache -/

theorem trimAlreadyKnownPrefix_suffix (s : σ) (headers : List BlockHeader) :
    trimAlreadyKnownPrefix G chain s headers <:+ headers :=
  List.dropWhile_suffix _

/-- What is left behind a pass, and what it found. -/
def Scan.Left (original : List (CachedBatch C)) (wanted : CachedBatch C → Prop) : Scan C → Prop
  | .done batches => TrimsOf batches original
  | .known batches => TrimsOf batches original
  | .found batch batches =>
    TrimsOf batches original ∧ (∃ a ∈ original, TrimOf batch a) ∧ wanted batch

theorem TrimsOf.cons {batches original : List (CachedBatch C)} {b : CachedBatch C}
    (hb : ∃ a ∈ original, TrimOf b a) (h : TrimsOf batches original) :
    TrimsOf (b :: batches) original := by
  intro b' hb'
  rcases List.mem_cons.mp hb' with rfl | hb'
  · exact hb
  · exact h b' hb'

theorem TrimsOf.sort {batches original : List (CachedBatch C)} (h : TrimsOf batches original) :
    TrimsOf (S.sort batches) original :=
  fun b hb => h b ((S.perm batches).subset hb)

theorem Scan.Left.cons {original : List (CachedBatch C)} {wanted : CachedBatch C → Prop}
    {b : CachedBatch C} {scan : Scan C} (hb : ∃ a ∈ original, TrimOf b a)
    (h : scan.Left original wanted) : (scan.cons b).Left original wanted := by
  rcases scan with batches | batches | ⟨batch, batches⟩
  · exact TrimsOf.cons hb h
  · exact TrimsOf.cons hb h
  · exact ⟨TrimsOf.cons hb h.1, h.2⟩

/-- **A pass only cuts batches off.** What it finds is of the kind of a batch that is not
skipped. -/
theorem left_scan {s : σ} {skip : CachedBatch C → Bool} {wanted : List BlockHeader → Bool}
    {original l : List (CachedBatch C)} (hl : TrimsOf l original) :
    (scan G chain s skip wanted l).Left original fun b =>
      wanted b.headers = true ∧ ∃ a, skip a = false ∧ b.source = a.source := by
  induction l with
  | nil => exact hl
  | cons b l ih =>
    obtain ⟨a, ha, hb⟩ := hl b List.mem_cons_self
    have htail : TrimsOf l original := fun b' hb' => hl b' (List.mem_cons_of_mem _ hb')
    rw [scan]
    split
    · exact (ih htail).cons ⟨a, ha, hb⟩
    · next hskip =>
      rw [Bool.not_eq_true] at hskip
      dsimp only
      split
      · exact htail
      · next hne =>
        have hcut : TrimOf
            { b with headers := trimAlreadyKnownPrefix G chain s b.headers } b :=
          ⟨by simpa using hne, trimAlreadyKnownPrefix_suffix s b.headers, rfl, rfl⟩
        split
        · next hwanted => exact ⟨htail, ⟨a, ha, hcut.trans hb⟩, hwanted, b, hskip, rfl⟩
        · exact (ih htail).cons ⟨a, ha, hcut.trans hb⟩

theorem follows_of_canAppend {maxSize : ℕ} {merged next : List BlockHeader}
    (h : canAppend G maxSize merged next = true) : Follows G merged next := by
  unfold canAppend at h
  split at h
  · next last header rest hlast =>
    rw [Bool.and_eq_true, Bool.and_eq_true, decide_eq_true_eq, decide_eq_true_eq] at h
    exact ⟨last, header, rest, hlast, rfl, h.1.1, h.1.2⟩
  · cases h

/-- **What is merged are batches that follow each other.** -/
theorem merged_tryAppendContiguousReadyBatches {s : σ} {original : List (CachedBatch C)}
    {first : CachedBatch C} {rounds : ℕ} {parts batches : List (CachedBatch C)}
    {last : CachedBatch C} (hparts : Merged G original first parts last)
    (hbatches : TrimsOf batches original) :
    ∃ parts' last' batches', tryAppendContiguousReadyBatches G chain S s first.source rounds
        parts batches = (parts', batches') ∧ Merged G original first parts' last' ∧
      TrimsOf batches' original := by
  induction rounds generalizing parts batches last with
  | zero => exact ⟨parts, last, batches, rfl, hparts, hbatches⟩
  | succ rounds ih =>
    have hleft := @left_scan σ C G chain s
      (fun b => decide (b.source ≠ first.source) || b.headers.isEmpty)
      (canAppend G (getMaxProcessHeaderBatchSize first.source) (mergedHeaders parts)) original
      (S.sort batches) hbatches.sort
    rw [tryAppendContiguousReadyBatches]
    split
    · split
      · next rest heq =>
        rw [heq] at hleft
        exact ⟨parts, last, rest, rfl, hparts, hleft⟩
      · next rest heq =>
        rw [heq] at hleft
        exact ih hparts hleft
      · next batch rest heq =>
        rw [heq] at hleft
        obtain ⟨hrest, ⟨a, ha, htrim⟩, hcan, b, hskip, hsource⟩ := hleft
        rw [Bool.or_eq_false_iff, decide_eq_false_iff_not, not_not] at hskip
        exact ih (.append hparts ha htrim (hsource.trans hskip.1) (follows_of_canAppend hcan))
          hrest
    · exact ⟨parts, last, batches, rfl, hparts, hbatches⟩

/-! ### A call -/

variable (chain) in
/-- What holds within a call: the chain went on, and the cache holds what is left of the batches
that were there. -/
structure Within (s : σ) (original : List (CachedBatch C)) (m : HeaderBatchCache σ C) : Prop where
  /-- The chain. -/
  later : Later chain s m.chain
  /-- The batches. -/
  batches : TrimsOf m.batches original
  /-- The bans so far. -/
  just : BansJustly chain m

/-- **The rounds of `ProcessReadyBatches`.** -/
theorem within_processReadyBatches {s : σ} {original : List (CachedBatch C)}
    (hsound : ∀ a ∈ original, ∀ b ∈ original, Relation.TransGen (Leads G) a b →
      b.connection ≠ a.connection → Sound G chain s b)
    (hconnection : ∀ a ∈ original, a.connection ≠ none) {rounds : ℕ}
    {m m' : HeaderBatchCache σ C} {r : Except Exc Unit} (hm : Within chain s original m)
    (h : run (processReadyBatches G chain S rounds) m = (r, m')) : Within chain s original m' := by
  induction rounds generalizing m with
  | zero =>
    cases h
    exact hm
  | succ rounds ih =>
    have hleft := @left_scan σ C G chain m.chain (fun _ => false) (isReady G chain m.chain) original
      (S.sort m.batches) hm.batches.sort
    rw [processReadyBatches, run_bind_ok (run_get m)] at h
    dsimp only at h
    split at h
    · next rest heq =>
      rw [heq] at hleft
      cases h
      exact ⟨hm.later, hleft, hm.just⟩
    · next rest heq =>
      rw [heq] at hleft
      rw [run_bind_ok (run_set _ m)] at h
      have hnext : Within chain s original { m with batches := rest } :=
        ⟨hm.later, hleft, hm.just⟩
      exact ih hnext h
    · next batch rest heq =>
      rw [heq] at hleft
      obtain ⟨hrest, ⟨a, ha, htrim⟩, -⟩ := hleft
      rw [htrim.source] at h
      obtain ⟨parts, last, batches, hmerge, hmerged, hbatches⟩ :=
        @merged_tryAppendContiguousReadyBatches σ C G chain S m.chain original a rest.length [batch]
          rest a (.single ha htrim) hrest
      rw [hmerge, run_bind_ok (run_set _ m)] at h
      dsimp only at h
      -- What the chain makes of the merged batches.
      have hadded : Within chain s original
          (run (addMerged chain parts) { m with batches := batches }).2 := by
        refine ⟨hm.later.add _, hbatches, ?_⟩
        intro p hp connection reason hban
        rcases List.mem_append.mp hp with hp | hp
        · exact hm.just p hp connection reason hban
        · rw [List.mem_singleton] at hp
          subst hp
          exact justBan_of_merged hmerged rfl hm.later (hsound a ha) (hconnection a ha) hban
      rw [run_bind] at h
      rcases hrun : run (addMerged chain parts) { m with batches := batches } with ⟨e | ⟨⟩, m₁⟩
      · rw [hrun] at h hadded
        cases h
        exact hadded
      · rw [hrun] at h hadded
        exact ih hadded h

/-- The batches of a cache are not empty, and somebody sent them. -/
def FromSomebody (m : HeaderBatchCache σ C) : Prop :=
  ∀ b ∈ m.batches, b.headers ≠ [] ∧ b.connection ≠ none

/-- **A call under the condition only makes just bans.** -/
theorem bansJustly_addHeaders {m m' : HeaderBatchCache σ C} {message : HeadersMessage C}
    (hm : FromSomebody m) (hjust : BansJustly chain m) (hcondition : LeadsToSound G chain m message)
    {r : Except Exc Unit}
    (h : run (addHeaders G chain S (some message.connection) message.headers message.source) m =
      (r, m')) : FromSomebody m' ∧ BansJustly chain m' := by
  rw [addHeaders, run_bind_ok (run_get m)] at h
  dsimp only at h
  split at h
  · cases h
    exact ⟨hm, hjust⟩
  next hne =>
  split at h
  · cases h
    exact ⟨hm, hjust⟩
  rw [run_bind_ok (run_set _ m)] at h
  let original : List (CachedBatch C) :=
    ⟨message.headers, some message.connection, message.source⟩ :: m.batches
  let new : CachedBatch C :=
    ⟨trimAlreadyKnownPrefix G chain m.chain message.headers, some message.connection,
      message.source⟩
  have hwithin : Within chain m.chain original { m with batches := pushBack m.batches new } := by
    refine ⟨.refl, ?_, hjust⟩
    intro b hb
    have hmem : b ∈ m.batches ∨ b = new := by
      rw [pushBack] at hb
      split at hb
      · rw [List.mem_append, List.mem_singleton] at hb
        exact hb.imp_left List.mem_of_mem_tail
      · rwa [List.mem_append, List.mem_singleton] at hb
    rcases hmem with hb | rfl
    · exact ⟨b, List.mem_cons_of_mem _ hb, (hm b hb).1, List.suffix_rfl, rfl, rfl⟩
    · exact ⟨_, List.mem_cons_self, by simpa using hne,
        trimAlreadyKnownPrefix_suffix m.chain message.headers, rfl, rfl⟩
  have hsomebody : ∀ a ∈ original, a.connection ≠ none := by
    intro a ha
    rcases List.mem_cons.mp ha with rfl | ha
    · exact Option.some_ne_none _
    · exact (hm a ha).2
  have hend := within_processReadyBatches hcondition hsomebody hwithin h
  refine ⟨?_, hend.just⟩
  intro b hb
  obtain ⟨a, ha, htrim⟩ := hend.batches b hb
  exact ⟨htrim.ne_nil, htrim.connection ▸ hsomebody a ha⟩

/-! ### All calls -/

/-- **Bans are just** in every run in which every call meets the condition: every connection that
is banned supplied a header that was rejected. -/
theorem bansJustly_addAll {s : σ} {messages : List (HeadersMessage C)}
    (hcondition : ∀ front message back, messages = front ++ message :: back →
      ∀ m, run (addAll G chain S front) (empty s) = (.ok (), m) → LeadsToSound G chain m message)
    {r : Except Exc Unit} {m : HeaderBatchCache σ C}
    (h : run (addAll G chain S messages) (empty s) = (r, m)) : BansJustly chain m := by
  -- The induction is over the messages, from any cache.
  have key : ∀ (messages : List (HeadersMessage C)) (m₀ : HeaderBatchCache σ C),
      FromSomebody m₀ → BansJustly chain m₀ →
      (∀ front message back, messages = front ++ message :: back → ∀ m,
        run (addAll G chain S front) m₀ = (.ok (), m) → LeadsToSound G chain m message) →
      run (addAll G chain S messages) m₀ = (r, m) → BansJustly chain m := by
    intro messages
    induction messages with
    | nil =>
      rintro m₀ - hjust - h
      cases h
      exact hjust
    | cons message messages ih =>
      intro m₀ hm₀ hjust hcondition h
      rw [addAll, run_forM_cons, run_bind] at h
      have hfirst := hcondition [] message messages rfl m₀ rfl
      rcases hrun : run (addHeaders G chain S (some message.connection) message.headers
        message.source) m₀ with ⟨e | ⟨⟩, m₁⟩
      · rw [hrun] at h
        cases h
        exact (bansJustly_addHeaders hm₀ hjust hfirst hrun).2
      · rw [hrun] at h
        obtain ⟨hm₁, hjust₁⟩ := bansJustly_addHeaders hm₀ hjust hfirst hrun
        refine ih m₁ hm₁ hjust₁ ?_ h
        intro front message' back hsplit m' hfront
        refine hcondition (message :: front) message' back (by rw [hsplit]; rfl) m' ?_
        rw [addAll, run_forM_cons, run_bind_ok hrun]
        exact hfront
  exact key messages (empty s) (by rintro b ⟨⟩) (by rintro p ⟨⟩) hcondition h

end HeaderBatchCache

/-! ### On the small chain -/

namespace SmallNet

open HeaderBatchCache

/-- A header with a wrong root. -/
def spoiled (header : BlockHeader) : BlockHeader := { header with previousRoot := Hash.zero }

/-- The cache behind some messages. -/
def cacheAfter (messages : List (HeadersMessage ℕ)) : HeaderBatchCache ChainState ℕ :=
  (Exec.run (addAll testNet (BlockChain.iBlockChain testNet noon) stableSort messages)
    (empty genesis)).2

/-- The first connection sends a bad header. -/
def ownBadHeader : List (HeadersMessage ℕ) := [⟨1, [spoiled block₁.header], .legacyHeaders⟩]

/-- The first connection sends a bad header that has to wait for the one before it, and the
second one sends that one. -/
def foreignBadHeader : List (HeadersMessage ℕ) :=
  [⟨1, [spoiled block₂.header], .legacyHeaders⟩, ⟨2, [block₁.header], .legacyHeaders⟩]

end SmallNet

open SmallNet HeaderBatchCache

/-- The first connection is banned for its own header. -/
theorem bansJustly_ownBadHeader :
    (cacheAfter ownBadHeader).processed.map Processed.banPeer = [some (1, .badBlockHeader)] ∧
      BansJustly (BlockChain.iBlockChain testNet noon) (cacheAfter ownBadHeader) := by
  refine ⟨by decide +kernel, bansJustly_addAll (G := testNet) (S := stableSort) ?_ rfl⟩
  rintro front message back hsplit m hrun a ha b hb - hne
  -- There is one batch only, and so only one connection.
  have hfront : front = [] := by
    rcases front with _ | ⟨x, _ | ⟨y, front⟩⟩
    · rfl
    · simp [ownBadHeader] at hsplit
    · simp [ownBadHeader] at hsplit
  subst hfront
  cases hrun
  rw [List.mem_singleton.mp ha, List.mem_singleton.mp hb] at hne
  exact absurd rfl hne

namespace SmallNet

/-- What the second message leads to: both headers are handed on, and the second one is
rejected. -/
theorem processed_foreignBadHeader :
    (cacheAfter foreignBadHeader).processed.map Processed.banPeer = [some (2, .badBlockHeader)] ∧
      ((cacheAfter foreignBadHeader).processed.map fun p =>
        p.parts.map fun b => (b.headers.length, b.connection)) = [[(1, some 2), (1, some 1)]] ∧
      ((cacheAfter foreignBadHeader).processed.map fun p =>
        decide (Rejects (BlockChain.iBlockChain testNet noon) p.chain (p.headers.take 1))) =
          [false] := by
  refine ⟨?_, ?_, ?_⟩
  · decide +kernel
  · decide +kernel
  · decide +kernel

end SmallNet

/-- The second connection, whose header is valid, is banned for the header of the first one. -/
theorem not_bansJustly_foreignBadHeader :
    (cacheAfter foreignBadHeader).processed.map Processed.banPeer = [some (2, .badBlockHeader)] ∧
      ¬BansJustly (BlockChain.iBlockChain testNet noon) (cacheAfter foreignBadHeader) := by
  obtain ⟨hban, hparts, hfirst⟩ := processed_foreignBadHeader
  refine ⟨hban, fun hjust => ?_⟩
  obtain ⟨p, hp, hbanPeer⟩ := List.map_eq_singleton_iff.mp hban
  rw [hp, List.map_singleton, List.singleton_inj] at hparts hfirst
  obtain ⟨front, part, back, hsplit, hconnection, i, hi, hat⟩ :=
    hjust p (by rw [hp]; exact List.mem_singleton_self p) 2 _ hbanPeer
  rw [hsplit, List.map_append, List.map_cons] at hparts
  rcases front with _ | ⟨x, front⟩
  · -- The batch of the second connection has one header, which is not rejected.
    have hlength : part.headers.length = 1 := congrArg (·.1) (List.cons.inj hparts).1
    obtain rfl : i = 0 := by omega
    exact (of_decide_eq_false hfirst) hat.1
  · rcases front with _ | ⟨y, front⟩
    · -- The other batch is not from that connection.
      have hother : part.connection = some 1 :=
        congrArg (·.2) (List.cons.inj (List.cons.inj hparts).2).1
      rw [hother] at hconnection
      cases hconnection
    · simp at hparts

end GrinPlusPlus
