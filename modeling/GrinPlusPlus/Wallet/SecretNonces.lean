import GrinPlusPlus.Wallet.CallSpec
import GrinPlusPlus.Wallet.SmallWallet

/-!
# Secret nonces over the life of a wallet

A partial signature is `s = k + e · x`, with the secret nonce `k`, the secret key `x` and a
challenge `e` that depends on the sum of the public keys, the sum of the public nonces and the
message of the kernel. Two of them with the same nonce and different challenges give away `x`.

The receiver of a slate draws its nonce in the call in which it signs. The sender draws it in
`Send`, keeps it in the context of the slate, and signs in `Finalize` – over whatever public keys
and nonces the response brings. Nothing removes the context, and nothing in `Finalize` asks
whether the slate was finalized before, so two responses to one slate are signed with one nonce.

As long as a later response brings the same sums as the one that was finalized
(`GrinPlusPlus.WalletRun.Admits`), no nonce signs two challenges
(`GrinPlusPlus.neverReusesNonce_run`). The invariant (`GrinPlusPlus.NoncesKept`) says where a
nonce that signed can still be: only in a context whose finalized slate is stored, and this slate
has the challenge.
-/

namespace GrinPlusPlus

variable {G : Global} {C : Crypto} {W : WalletImpl G}

/-! ### Runs -/

/-- A wallet in the course of a run: its database, and the partial signatures that were returned
or stored so far. -/
structure WalletRun where
  /-- The database. -/
  db : WalletDB
  /-- The signatures, by what they were made of. -/
  signings : List PartialSigning

namespace WalletRun

/-- A new wallet. -/
def start : WalletRun := ⟨WalletDB.empty, []⟩

variable (G C W)

/-- One call. A call that throws returns and stores no signature. -/
def call (s : WalletRun) (c : WalletCall) : WalletRun :=
  ⟨(walletStep G C W s.db c).2, s.signings ++ (c.signing G C W s.db).toList⟩

/-- A run. -/
def run (s : WalletRun) (calls : List WalletCall) : WalletRun :=
  calls.foldl (call G C W) s

end WalletRun

/-- The secret nonce that a call draws. -/
def WalletCall.secretNonce : WalletCall → Option SecretKey
  | .send _ draws _ => some draws.secretNonce
  | .receive _ draws => some draws.secretNonce
  | _ => none

/-- **No nonce signs two challenges.** -/
def NeverReusesNonce (signings : List PartialSigning) : Prop :=
  ∀ a ∈ signings, ∀ b ∈ signings, a.secretNonce = b.secretNonce → a = b

/-! ### The condition -/

/-- Two slates have the same sums of public keys and of public nonces. -/
def Slate.SameSums (C : Crypto) (s t : Slate) : Prop :=
  s.calculateTotalExcess C = t.calculateTotalExcess C ∧
    s.calculateTotalNonce C = t.calculateTotalNonce C

/-- The calls that keep the nonces: a response to a slate that was finalized has the sums of the
finalized slate, once the sender is among its participants. -/
def WalletRun.Admits (C : Crypto) (s : WalletRun) : WalletCall → Prop
  | .finalize slate _ =>
    ∀ f ∈ s.db.slates, f.slateId = slate.slateId → f.stage = .standardFinalized →
      ∀ context ∈ s.db.loadSlateContext slate.slateId,
        ∀ excess ∈ (calculatePublicKey C context.secretKey).toOption,
          ∀ sigs ∈ (FinalizeSlateBuilder.addParticipant C context excess slate.sigs).toOption,
            f.SameSums C { slate with sigs := sigs }
  | _ => True

/-- Every call of a run meets the condition. -/
def WalletRun.AdmitsAll (G : Global) (C : Crypto) (W : WalletImpl G) :
    WalletRun → List WalletCall → Prop
  | _, [] => True
  | s, c :: calls => s.Admits C c ∧ AdmitsAll G C W (s.call G C W c) calls

instance (s t : Slate) : Decidable (s.SameSums C t) :=
  inferInstanceAs (Decidable (_ ∧ _))

instance WalletRun.decidableAdmits (s : WalletRun) : DecidablePred (s.Admits C)
  | .finalize _ _ => inferInstanceAs (Decidable (∀ f ∈ s.db.slates, _))
  | .send _ _ _ | .receive _ _ | .cancelTx _ | .refresh _ => isTrue trivial

/-- The condition can be checked. -/
instance WalletRun.decidableAdmitsAll :
    (s : WalletRun) → (calls : List WalletCall) → Decidable (s.AdmitsAll G C W calls)
  | _, [] => isTrue trivial
  | s, c :: calls =>
    have := decidableAdmitsAll (s.call G C W c) calls
    inferInstanceAs (Decidable (_ ∧ _))

instance (signings : List PartialSigning) : Decidable (NeverReusesNonce signings) :=
  inferInstanceAs (Decidable (∀ a ∈ signings, ∀ b ∈ signings, _))

/-! ### The invariant -/

/-- A nonce that signed and is in the context of a slate: the finalized slate is stored, and what
was signed is its challenge. -/
structure Signed (G : Global) (C : Crypto) (db : WalletDB) (slateId : SlateId)
    (a : PartialSigning) : Prop where
  /-- The finalized slate with the sums. -/
  finalized : ∃ f ∈ db.slates, f.slateId = slateId ∧ f.stage = .standardFinalized ∧
    f.calculateTotalExcess C = .ok a.sumPubKeys ∧ f.calculateTotalNonce C = .ok a.sumPubNonces
  /-- The message is the one of the slate that was sent. -/
  message : ∃ sendSlate, db.loadSlate slateId .standardSent = some sendSlate ∧
    a.message = sendSlate.kernelMessage G

/-- What every admitted run keeps, with the nonces drawn so far. -/
structure NoncesKept (G : Global) (C : Crypto) (drawn : List SecretKey) (s : WalletRun) : Prop where
  /-- The contexts have different nonces … -/
  nodup : (s.db.slateContexts.map fun row => row.2.secretNonce).Nodup
  /-- … that were drawn. -/
  contexts : ∀ row ∈ s.db.slateContexts, row.2.secretNonce ∈ drawn
  /-- The nonces that signed were drawn. -/
  signings : ∀ a ∈ s.signings, a.secretNonce ∈ drawn
  /-- A nonce that signed is only in the context of a slate that was finalized with it. -/
  signed : ∀ a ∈ s.signings, ∀ row ∈ s.db.slateContexts, row.2.secretNonce = a.secretNonce →
    Signed G C s.db row.1 a
  /-- No nonce signed twice. -/
  neverReuses : NeverReusesNonce s.signings

/-- More slates do not matter. -/
theorem Signed.append {db db' : WalletDB} {slates : List Slate}
    (h : db'.slates = db.slates ++ slates) {slateId : SlateId} {a : PartialSigning}
    (hs : Signed G C db slateId a) : Signed G C db' slateId a := by
  obtain ⟨⟨f, hf, hrest⟩, ⟨sendSlate, hload, hmessage⟩⟩ := hs
  refine ⟨⟨f, ?_, hrest⟩, ⟨sendSlate, WalletDB.loadSlate_of_append h hload, hmessage⟩⟩
  rw [h]
  exact List.mem_append_left _ hf

namespace NoncesKept

variable {drawn : List SecretKey} {s : WalletRun}

theorem start : NoncesKept G C [] WalletRun.start where
  nodup := List.nodup_nil
  contexts _ h := absurd h List.not_mem_nil
  signings _ h := absurd h List.not_mem_nil
  signed _ h := absurd h List.not_mem_nil
  neverReuses _ h := absurd h List.not_mem_nil

/-- Neither other tables nor more draws matter. -/
theorem mono (h : NoncesKept G C drawn s) {db : WalletDB} (hdb : SameSlates s.db db)
    {drawn' : List SecretKey} (hdrawn : drawn ⊆ drawn') :
    NoncesKept G C drawn' ⟨db, s.signings⟩ where
  nodup := by
    rw [hdb.slateContexts]
    exact h.nodup
  contexts row hrow := hdrawn (h.contexts row (hdb.slateContexts ▸ hrow))
  signings a ha := hdrawn (h.signings a ha)
  signed a ha row hrow hnonce :=
    (h.signed a ha row (hdb.slateContexts ▸ hrow) hnonce).append
      (hdb.slates.trans (List.append_nil _).symm)
  neverReuses := h.neverReuses

/-- **A slate is sent**: its context gets a nonce that signed nothing. -/
theorem send (h : NoncesKept G C drawn s) {db : WalletDB} {slate : Slate} {slateId : SlateId}
    {context : SlateContextEntity} {n : SecretKey} (hn : context.secretNonce = n)
    (hnew : n ∉ drawn)
    (hcontexts : db.slateContexts = s.db.slateContexts ++ [(slateId, context)])
    (hslates : db.slates = s.db.slates ++ [slate]) :
    NoncesKept G C (drawn ++ [n]) ⟨db, s.signings⟩ := by
  subst hn
  constructor
  · rw [hcontexts, List.map_append, List.map_singleton, List.nodup_append]
    refine ⟨h.nodup, List.nodup_singleton _, ?_⟩
    rintro n hn m hm heq
    obtain ⟨row, hrow, rfl⟩ := List.mem_map.mp hn
    rw [List.mem_singleton.mp hm] at heq
    exact hnew (heq ▸ h.contexts row hrow)
  · intro row hrow
    rw [hcontexts, List.mem_append, List.mem_singleton] at hrow
    rcases hrow with hrow | rfl
    · exact List.mem_append_left _ (h.contexts row hrow)
    · exact List.mem_append_right _ (List.mem_singleton_self _)
  · intro a ha
    exact List.mem_append_left _ (h.signings a ha)
  · intro a ha row hrow hnonce
    rw [hcontexts, List.mem_append, List.mem_singleton] at hrow
    rcases hrow with hrow | rfl
    · exact (h.signed a ha row hrow hnonce).append hslates
    · exact absurd (hnonce ▸ h.signings a ha) hnew
  · exact h.neverReuses

/-- **A slate is received**: the nonce that signs is in no context. -/
theorem receive (h : NoncesKept G C drawn s) {db : WalletDB} {slate : Slate}
    {b : PartialSigning} (hnew : b.secretNonce ∉ drawn)
    (hcontexts : db.slateContexts = s.db.slateContexts)
    (hslates : db.slates = s.db.slates ++ [slate]) :
    NoncesKept G C (drawn ++ [b.secretNonce]) ⟨db, s.signings ++ [b]⟩ where
  nodup := by
    rw [hcontexts]
    exact h.nodup
  contexts row hrow := List.mem_append_left _ (h.contexts row (hcontexts ▸ hrow))
  signings a ha := by
    rcases List.mem_append.mp ha with ha | ha
    · exact List.mem_append_left _ (h.signings a ha)
    · rw [List.mem_singleton.mp ha]
      exact List.mem_append_right _ (List.mem_singleton_self _)
  signed a ha row hrow hnonce := by
    rw [hcontexts] at hrow
    rcases List.mem_append.mp ha with ha | ha
    · exact (h.signed a ha row hrow hnonce).append hslates
    · rw [List.mem_singleton.mp ha] at hnonce
      exact absurd (hnonce ▸ h.contexts row hrow) hnew
  neverReuses := by
    intro a ha a' ha' heq
    rcases List.mem_append.mp ha with ha | ha <;> rcases List.mem_append.mp ha' with ha' | ha'
    · exact h.neverReuses a ha a' ha' heq
    · rw [List.mem_singleton.mp ha'] at heq
      exact absurd (heq ▸ h.signings a ha) hnew
    · rw [List.mem_singleton.mp ha] at heq
      exact absurd (heq ▸ h.signings a' ha') hnew
    · rw [List.mem_singleton.mp ha, List.mem_singleton.mp ha']

/-- **A slate is finalized** with the nonce of its context. Whatever this nonce signed before was
the challenge of the finalized slate, so by the condition it is the challenge of this one. -/
theorem finalize (h : NoncesKept G C drawn s) {rcvSlate : Slate} {chainHeight : UInt64}
    (hadmits : s.Admits C (.finalize rcvSlate chainHeight)) {r : FinalizedSlate}
    (hrun : FinalizeSlateBuilder.finalize G C W s.db rcvSlate chainHeight = .ok r) :
    NoncesKept G C drawn ⟨r.db, s.signings ++ [r.signing]⟩ := by
  obtain ⟨sendSlate, walletTx, context, hspec⟩ := FinalizeSlateBuilder.finalize_eq_ok hrun
  obtain ⟨excess, sigs, hexcess, hsigs, hexcesses, hnonces⟩ := hspec.participants
  have hrow : (rcvSlate.slateId, context) ∈ s.db.slateContexts :=
    WalletDB.of_loadSlateContext hspec.loadContext
  have hslates : r.db.slates = s.db.slates ++ [r.slate.reload] := by
    rw [hspec.db]
    rfl
  have hcontexts : r.db.slateContexts = s.db.slateContexts := by
    rw [hspec.db]
    rfl
  -- What the nonce signed before is what it signs now.
  have hsame : ∀ a ∈ s.signings, a.secretNonce = r.signing.secretNonce → a = r.signing := by
    intro a ha heq
    obtain ⟨⟨f, hf, hid, hstage, hkeys, hpubs⟩, ⟨sendSlate', hload, hmessage⟩⟩ :=
      h.signed a ha _ hrow (hspec.secretNonce.symm.trans heq.symm)
    obtain ⟨hsumKeys, hsumNonces⟩ := hadmits f hf hid hstage context hspec.loadContext excess
      (by rw [hexcess]; rfl) sigs (by rw [hsigs]; rfl)
    have hk : (Except.ok a.sumPubKeys : Except WalletExc PublicKey) = .ok r.signing.sumPubKeys := by
      rw [← hkeys, ← hspec.sumPubKeys, hsumKeys, Slate.calculateTotalExcess,
        Slate.calculateTotalExcess, hexcesses]
    have hn : (Except.ok a.sumPubNonces : Except WalletExc PublicKey) =
        .ok r.signing.sumPubNonces := by
      rw [← hpubs, ← hspec.sumPubNonces, hsumNonces, Slate.calculateTotalNonce,
        Slate.calculateTotalNonce, hnonces]
    have hm : a.message = r.signing.message := by
      rw [hmessage, hspec.message, Option.some.inj (hload.symm.trans hspec.loadSlate)]
    exact PartialSigning.ext heq (Except.ok.inj hk) (Except.ok.inj hn) hm
  constructor
  · rw [hcontexts]
    exact h.nodup
  · intro row hrow'
    exact h.contexts row (hcontexts ▸ hrow')
  · intro a ha
    rcases List.mem_append.mp ha with ha | ha
    · exact h.signings a ha
    · rw [List.mem_singleton.mp ha, hspec.secretNonce]
      exact h.contexts _ hrow
  · intro a ha row hrow' heq
    rw [hcontexts] at hrow'
    rcases List.mem_append.mp ha with ha | ha
    · exact (h.signed a ha row hrow' heq).append hslates
    -- The nonce is in the context of this slate only, and the slate is stored.
    · obtain rfl := List.mem_singleton.mp ha
      have hthis : row = (rcvSlate.slateId, context) :=
        List.inj_on_of_nodup_map h.nodup hrow' hrow (heq.trans hspec.secretNonce)
      rw [hthis]
      refine ⟨⟨r.slate.reload, ?_, hspec.slateId, hspec.stage, hspec.sumPubKeys,
        hspec.sumPubNonces⟩, ⟨sendSlate, ?_, hspec.message⟩⟩
      · rw [hslates]
        exact List.mem_append_right _ (List.mem_singleton_self _)
      · exact WalletDB.loadSlate_of_append hslates hspec.loadSlate
  · rintro a ha b hb heq
    rcases List.mem_append.mp ha with ha | ha <;> rcases List.mem_append.mp hb with hb | hb
    · exact h.neverReuses a ha b hb heq
    · obtain rfl := List.mem_singleton.mp hb
      exact hsame a ha heq
    · obtain rfl := List.mem_singleton.mp ha
      exact (hsame b hb heq.symm).symm
    · rw [List.mem_singleton.mp ha, List.mem_singleton.mp hb]

/-- **One call**: no nonce is drawn a second time, and the call meets the condition. -/
theorem call (h : NoncesKept G C drawn s) {c : WalletCall}
    (hnew : ∀ n ∈ c.secretNonce, n ∉ drawn) (hadmits : s.Admits C c) :
    NoncesKept G C (drawn ++ c.secretNonce.toList) (s.call G C W c) := by
  have hdrawn : drawn ⊆ drawn ++ c.secretNonce.toList := List.subset_append_left _ _
  have hquiet : ∀ db, SameSlates s.db db →
      NoncesKept G C (drawn ++ c.secretNonce.toList) ⟨db, s.signings ++ []⟩ := by
    intro db hsame
    rw [List.append_nil]
    exact h.mono hsame hdrawn
  rw [WalletRun.call]
  have hstep := walletStep_spec (G := G) (C := C) (W := W) s.db c
  generalize c.signing G C W s.db = signing at hstep ⊢
  generalize (walletStep G C W s.db c).2 = db at hstep ⊢
  cases hstep with
  | unchanged => exact hquiet _ (SameSlates.refl _)
  | refreshed criteria draws answers => exact hquiet _ (sameSlates_refresh s.db answers.refresh)
  | @sent _ draws answers _ _ inputs _ _ _ _ htip hinputs hbuild =>
    obtain ⟨changeOutputs, keys, _, _, -, hkeys, -, -, -, -, rfl⟩ :=
      SendSlateBuilder.build_eq_ok hbuild
    have hrefreshed := h.mono (sameSlates_refresh s.db answers.refresh) (List.Subset.refl drawn)
    have hnonce : ((⟨keys.secretKey, keys.secretNonce, inputs, changeOutputs⟩ :
        SlateContextEntity).reload).secretNonce = draws.secretNonce :=
      secretNonce_of_calculateSigningKeys hkeys
    rw [Option.toList_none, List.append_nil]
    apply hrefreshed.send hnonce (hnew _ rfl)
    · rfl
    · rfl
  | @received slate draws r hrun =>
    obtain ⟨outputData, keys, -, -, hnonce, -, -, hdb⟩ :=
      ReceiveSlateBuilder.addReceiverData_eq_ok hrun
    have hcontexts : r.db.slateContexts = s.db.slateContexts := by
      rw [hdb]
      rfl
    have hslates : r.db.slates = s.db.slates ++ [r.slate.reload] := by
      rw [hdb]
      rfl
    have hkept := h.receive (hnonce ▸ hnew _ rfl) hcontexts hslates
    rw [hnonce] at hkept
    exact hkept
  | finalized hrun =>
    have hkept := h.finalize hadmits hrun
    simpa [WalletCall.secretNonce] using hkept
  | canceled hrun => exact hquiet _ (sameSlates_cancelTx hrun)
  | refresh answers => exact hquiet _ (sameSlates_refresh s.db answers)

/-- **A run**, by one call after the other. -/
theorem run (h : NoncesKept G C drawn s) {calls : List WalletCall}
    (hdraws : (drawn ++ calls.filterMap WalletCall.secretNonce).Nodup)
    (hadmits : s.AdmitsAll G C W calls) :
    NoncesKept G C (drawn ++ calls.filterMap WalletCall.secretNonce) (s.run G C W calls) := by
  induction calls generalizing s drawn with
  | nil => exact h.mono (SameSlates.refl _) (List.subset_append_left _ _)
  | cons c calls ih =>
    have hcons : (c :: calls).filterMap WalletCall.secretNonce =
        c.secretNonce.toList ++ calls.filterMap WalletCall.secretNonce := by
      rw [List.filterMap_cons]
      cases c.secretNonce <;> rfl
    rw [hcons, ← List.append_assoc] at hdraws ⊢
    refine ih (h.call ?_ hadmits.1) hdraws hadmits.2
    intro n hn hmem
    exact (List.nodup_append.mp hdraws.of_append_left).2.2 n hmem n (by simpa using hn) rfl

end NoncesKept

/-! ### The result -/

/-- **The wallet never reuses a nonce**, in every run whose calls draw different nonces and in
which a slate that was finalized is only finalized again with the same sums. -/
theorem neverReusesNonce_run (calls : List WalletCall)
    (hdraws : (calls.filterMap WalletCall.secretNonce).Nodup)
    (hadmits : WalletRun.start.AdmitsAll G C W calls) :
    NeverReusesNonce (WalletRun.start.run G C W calls).signings :=
  (NoncesKept.start.run hdraws hadmits).neverReuses

section Small

open SmallNet

/-- A slate is sent, and the same response comes back twice. -/
def oneResponseTwice : List WalletCall :=
  sendCall (sendDraws 1 60) ::
    ((response (senderDB (sendDraws 1 60)) ⟨scalar 5, scalar 6⟩).toList ++
      (response (senderDB (sendDraws 1 60)) ⟨scalar 5, scalar 6⟩).toList).map
        fun slate => .finalize slate 1000

/-- A slate is sent, and two responses come back, made with different nonces. -/
def twoResponses : List WalletCall :=
  sendCall (sendDraws 1 60) ::
    ((response (senderDB (sendDraws 1 60)) ⟨scalar 5, scalar 6⟩).toList ++
      (response (senderDB (sendDraws 1 60)) ⟨scalar 5, scalar 8⟩).toList).map
        fun slate => .finalize slate 1000

/-- A response that is finalized twice signs one challenge. -/
theorem neverReusesNonce_oneResponseTwice :
    (WalletRun.start.run smallWalletNet smallCrypto (smallWallet 100)
        oneResponseTwice).signings.length = 2 ∧
      NeverReusesNonce (WalletRun.start.run smallWalletNet smallCrypto (smallWallet 100)
        oneResponseTwice).signings :=
  ⟨by decide +kernel,
    neverReusesNonce_run oneResponseTwice (by decide +kernel) (by decide +kernel)⟩

/-- Two responses are signed with one nonce. -/
theorem reusesNonce_twoResponses :
    (twoResponses.filterMap WalletCall.secretNonce).Nodup ∧
      ¬ NeverReusesNonce (WalletRun.start.run smallWalletNet smallCrypto (smallWallet 100)
        twoResponses).signings := by
  decide +kernel

end Small

end GrinPlusPlus
