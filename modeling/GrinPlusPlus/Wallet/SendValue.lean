import Mathlib.Algebra.Order.BigOperators.Group.List
import GrinPlusPlus.Wallet.BuilderSpec
import GrinPlusPlus.Wallet.SmallWallet

/-!
# What a send does with the value of its coins

`SendSlateBuilder::BuildSendSlate` chooses coins, a fee and an amount, and `Build` splits what is
left over among the outputs of the change. All of this is done in 64 bits and without a check for
wraps, so whether nothing is lost (`GrinPlusPlus.ConservesValue`) is a question about the coins
that are chosen: over the integers, they have to be worth the amount and the fee
(`GrinPlusPlus.SendCriteria.Sufficient`).

The tests of the strategies are made in 64 bits, and the strategy `ALL` compares nothing with what
it found.
-/

namespace GrinPlusPlus

variable {G : Global} {C : Crypto} {W : WalletImpl G}

/-! ### Sums of amounts -/

/-- What coins are worth. -/
def coinValue (coins : List OutputDataEntity) : ℕ :=
  (coins.map fun coin => coin.amount.toNat).sum

@[simp] theorem coinValue_nil : coinValue [] = 0 := rfl

@[simp] theorem coinValue_cons (coin : OutputDataEntity) (coins : List OutputDataEntity) :
    coinValue (coin :: coins) = coin.amount.toNat + coinValue coins := rfl

/-- Reading a coin back does not change what it is worth. -/
theorem coinValue_map_reload (coins : List OutputDataEntity) :
    coinValue (coins.map OutputDataEntity.reload) = coinValue coins := by
  rw [coinValue, List.map_map]
  rfl

/-- The sum of the code is the one of the integers, in 64 bits. -/
theorem toNat_totalAmount (coins : List OutputDataEntity) :
    (totalAmount coins).toNat = coinValue coins % 2 ^ 64 := by
  have key : ∀ (coins : List OutputDataEntity) (sum : UInt64),
      (coins.foldl (fun sum coin => sum + coin.amount) sum).toNat =
        (sum.toNat + coinValue coins) % 2 ^ 64 := by
    intro coins
    induction coins with
    | nil =>
      intro sum
      exact (Nat.mod_eq_of_lt sum.toNat_lt).symm
    | cons coin coins ih =>
      intro sum
      rw [List.foldl_cons, ih, UInt64.toNat_add, coinValue_cons, Nat.mod_add_mod, Nat.add_assoc]
  rw [totalAmount, key]
  simp

/-- A part of the coins is worth no more than all of them. -/
theorem coinValue_le_of_subperm {coins available : List OutputDataEntity}
    (h : coins.Subperm available) : coinValue coins ≤ coinValue available := by
  obtain ⟨chosen, hperm, hsub⟩ := h
  rw [coinValue, ← (hperm.map _).sum_nat]
  exact (hsub.map _).sum_le_sum fun _ _ => Nat.zero_le _

/-- Without a wrap, the sum of the code is what the coins are worth. -/
theorem toNat_totalAmount_of_lt {coins : List OutputDataEntity} (h : coinValue coins < 2 ^ 64) :
    (totalAmount coins).toNat = coinValue coins := by
  rw [toNat_totalAmount, Nat.mod_eq_of_lt h]

/-! ### The change -/

theorem toNat_coinAmount (total : UInt64) {n : UInt8} (hn : 0 < n.toNat) (i : ℕ) :
    (coinAmount total n i).toNat =
      total.toNat / n.toNat + if i = 0 then total.toNat % n.toNat else 0 := by
  have hlt := total.toNat_lt
  have hdiv : total.toNat / n.toNat * n.toNat + total.toNat % n.toNat = total.toNat :=
    Nat.div_add_mod' _ _
  have hle : total.toNat / n.toNat ≤ total.toNat / n.toNat * n.toNat :=
    Nat.le_mul_of_pos_right _ hn
  rw [coinAmount, UInt64.toNat_add, UInt64.toNat_div, UInt8.toNat_toUInt64]
  split
  · rw [UInt64.toNat_mod, UInt8.toNat_toUInt64]
    exact Nat.mod_eq_of_lt (by omega)
  · exact Nat.mod_eq_of_lt (by rw [UInt64.toNat_zero]; omega)

/-- **The change is split without a rest.** -/
theorem sum_coinAmount (total : UInt64) {n : UInt8} (hn : 0 < n.toNat) :
    ((List.range n.toNat).map fun i => (coinAmount total n i).toNat).sum = total.toNat := by
  -- The first output has the remainder, and all of them have the quotient.
  have key : ∀ m, 0 < m →
      ((List.range m).map fun i => (coinAmount total n i).toNat).sum =
        m * (total.toNat / n.toNat) + total.toNat % n.toNat := by
    intro m hm
    induction m with
    | zero => exact absurd hm (lt_irrefl 0)
    | succ m ih =>
      rw [List.range_succ, List.map_append, List.sum_append, List.map_singleton,
        List.sum_singleton, toNat_coinAmount total hn]
      rcases Nat.eq_zero_or_pos m with rfl | hpos
      · simp
      · rw [ih hpos, if_neg hpos.ne', Nat.succ_mul]
        omega
  rw [key _ hn, Nat.mul_comm, Nat.div_add_mod']

/-- What the change is worth: all of the total, if there is an output. -/
theorem ChangeOutputs.coinValue_eq {walletTxId : UInt32} {total : UInt64} {n : UInt8}
    {outputs : List OutputDataEntity} (h : ChangeOutputs W walletTxId total n outputs) :
    coinValue outputs = if n = 0 then 0 else total.toNat := by
  have hmap : coinValue outputs =
      ((List.range n.toNat).map fun i => (coinAmount total n i).toNat).sum := by
    have hamounts := congrArg (List.map UInt64.toNat) h.amounts
    rw [List.map_map, List.map_map] at hamounts
    exact congrArg List.sum hamounts
  rw [hmap]
  split
  · next hzero =>
    rw [hzero]
    rfl
  · next hne =>
    refine sum_coinAmount total (Nat.pos_of_ne_zero ?_)
    intro hn
    exact hne (UInt8.toNat_inj.mp hn)

theorem ChangeOutputs.length_eq {walletTxId : UInt32} {total : UInt64} {n : UInt8}
    {outputs : List OutputDataEntity} (h : ChangeOutputs W walletTxId total n outputs) :
    outputs.length = n.toNat := by
  have hlength := congrArg List.length h.amounts
  simpa using hlength

/-! ### The coins that are chosen -/

namespace CoinSelection

/-- The coins in the order in which a strategy goes through them. -/
def candidates (W : WalletImpl G) (available : List OutputDataEntity) (inputs : List Commitment) :
    ESelectionStrategy → List OutputDataEntity
  | .smallest => W.coinSort.sort available
  | .fewestInputs => (W.coinSort.sort available.reverse).reverse
  | .custom => available.filter fun coin => coin.getCommitment ∈ inputs
  | .all => available

/-- In 64 bits, coins pay for an amount and for their fee. -/
def Pays (amount feeBase : UInt64) (numOutputs : ℕ) (coins : List OutputDataEntity) : Prop :=
  amount + calculateFee feeBase coins.length numOutputs 1 ≤ totalAmount coins

/-- A strategy chooses the first `k` of the coins that it goes through: as few as pay, or all. -/
def Chooses (amount feeBase : UInt64) (numOutputs : ℕ) (coins : List OutputDataEntity) (k : ℕ) :
    ESelectionStrategy → Prop
  | .smallest | .fewestInputs =>
    (0 < k ∧ k ≤ coins.length) ∧ Pays amount feeBase numOutputs (coins.take k) ∧
      ∀ j, 0 < j → j < k → ¬Pays amount feeBase numOutputs (coins.take j)
  | .custom | .all => k = coins.length

/-- The loop takes as few coins as pay. -/
theorem chooses_of_takeCoins {amount feeBase : UInt64} {numOutputs : ℕ}
    {coins result : List OutputDataEntity}
    (h : takeCoins amount feeBase numOutputs 1 coins 0 [] = .ok result) :
    ∃ k, result = coins.take k ∧ (0 < k ∧ k ≤ coins.length) ∧
      Pays amount feeBase numOutputs (coins.take k) ∧
      ∀ j, 0 < j → j < k → ¬Pays amount feeBase numOutputs (coins.take j) := by
  -- The loop in its middle, with the coins `taken` behind it.
  have key : ∀ (coins taken : List OutputDataEntity),
      takeCoins amount feeBase numOutputs 1 coins (totalAmount taken) taken = .ok result →
      ∃ k, result = taken ++ coins.take k ∧ (0 < k ∧ k ≤ coins.length) ∧
        Pays amount feeBase numOutputs (taken ++ coins.take k) ∧
        ∀ j, 0 < j → j < k → ¬Pays amount feeBase numOutputs (taken ++ coins.take j) := by
    intro coins
    induction coins with
    | nil =>
      intro taken h
      cases h
    | cons coin coins ih =>
      intro taken h
      have htotal : totalAmount taken + coin.amount = totalAmount (taken ++ [coin]) := by
        rw [totalAmount, totalAmount, List.foldl_append]
        rfl
      rw [takeCoins, htotal] at h
      split at h
      · next hpays =>
        cases h
        refine ⟨1, by simp, ⟨Nat.one_pos, by simp⟩, by simpa [Pays] using hpays, ?_⟩
        intro j hpos hj
        exact absurd hj (by omega)
      · next hpoor =>
        obtain ⟨k, rfl, ⟨hpos, hk⟩, hpays, hleast⟩ := ih _ h
        refine ⟨k + 1, by simp, ⟨k.succ_pos, Nat.succ_le_succ hk⟩, by simpa using hpays, ?_⟩
        rintro (_ | _ | j) hj hjk
        · exact absurd hj (lt_irrefl 0)
        · simpa [Pays] using hpoor
        · simpa using hleast (j + 1) j.succ_pos (Nat.lt_of_succ_lt_succ hjk)
  simpa using key coins [] h

/-- **What a strategy returns** are coins that it chooses. -/
theorem exists_chooses {available result : List OutputDataEntity} {amount feeBase : UInt64}
    {strategy : ESelectionStrategy} {inputs : List Commitment} {numOutputs : ℕ}
    (h : selectCoinsToSpend G W available amount feeBase strategy inputs numOutputs 1 =
      .ok result) :
    ∃ k, Chooses amount feeBase numOutputs (candidates W available inputs strategy) k strategy ∧
      result = (candidates W available inputs strategy).take k := by
  cases strategy with
  | smallest | fewestInputs =>
    obtain ⟨k, hresult, hchooses⟩ := chooses_of_takeCoins h
    exact ⟨k, hchooses, hresult⟩
  | custom =>
    dsimp only [selectCoinsToSpend, selectUsingCustomInputs] at h
    split at h
    · cases h
      exact ⟨_, rfl, (List.take_length ..).symm⟩
    · cases h
  | all =>
    dsimp only [selectCoinsToSpend, selectUsingAllInputs] at h
    split at h
    · cases h
      exact ⟨_, rfl, (List.take_length ..).symm⟩
    · cases h

/-- A strategy chooses one number of coins. -/
theorem Chooses.unique {amount feeBase : UInt64} {numOutputs k l : ℕ}
    {coins : List OutputDataEntity} {strategy : ESelectionStrategy}
    (hk : Chooses amount feeBase numOutputs coins k strategy)
    (hl : Chooses amount feeBase numOutputs coins l strategy) : k = l := by
  cases strategy with
  | smallest | fewestInputs =>
    obtain ⟨⟨hkpos, -⟩, hkpays, hkleast⟩ := hk
    obtain ⟨⟨hlpos, -⟩, hlpays, hlleast⟩ := hl
    rcases Nat.lt_trichotomy k l with hlt | heq | hgt
    · exact absurd hkpays (hlleast k hkpos hlt)
    · exact heq
    · exact absurd hlpays (hkleast l hlpos hgt)
  | custom | all => exact hk.trans hl.symm

end CoinSelection

/-! ### When value is conserved -/

/-- Coins suffice for an amount, over the integers: they are worth the amount and the fee, and
the fee – without change, all that is left over – has forty bits. The fee is that of as many
outputs as there are, which are not counted past 255. -/
structure CoinsSuffice (feeBase amount : UInt64) (numChangeOutputs : UInt8)
    (coins : List OutputDataEntity) : Prop where
  /-- The coins are worth the amount and the fee. -/
  covered : amount.toNat +
    (calculateFee feeBase coins.length (1 + numChangeOutputs).toNat 1).toNat ≤ coinValue coins
  /-- The fee has forty bits. -/
  feeFits :
    if numChangeOutputs = 0 then coinValue coins < amount.toNat + 2 ^ 40
    else (calculateFee feeBase coins.length (1 + numChangeOutputs).toNat 1).toNat < 2 ^ 40
  /-- With 255 outputs of change, the number of all outputs is counted as zero. -/
  counted : numChangeOutputs = 255 →
    calculateFee feeBase coins.length 256 1 ≤ calculateFee feeBase coins.length 0 1

/-- The coins suffice for what is asked: for the entire balance all coins, and otherwise those that
the strategy chooses. -/
def SendCriteria.Sufficient (W : WalletImpl G) (available : List OutputDataEntity)
    (criteria : SendCriteria) : Prop :=
  match criteria.amountOpt with
  | none => (calculateFee criteria.feeBase available.length 1 1).toNat ≤ coinValue available ∧
      (calculateFee criteria.feeBase available.length 1 1).toNat < 2 ^ 40
  | some amount => ∀ k,
      CoinSelection.Chooses amount criteria.feeBase (1 + criteria.numOutputs).toNat
        (CoinSelection.candidates W available criteria.inputs criteria.strategy) k
          criteria.strategy →
      CoinsSuffice criteria.feeBase amount criteria.numOutputs
        ((CoinSelection.candidates W available criteria.inputs criteria.strategy).take k)

/-- **A send conserves value**: its inputs are available coins, and they are worth the amount, the
fee and the change. The fee is sufficient for the numbers of inputs and outputs and has forty
bits, and the amount is the one that was asked for. -/
structure ConservesValue (available : List OutputDataEntity) (criteria : SendCriteria)
    (slate : Slate) (context : SlateContextEntity) : Prop where
  /-- The inputs are available coins, each at most once. -/
  subperm : context.inputs.Subperm (available.map OutputDataEntity.reload)
  /-- Nothing is lost and nothing is made. -/
  balance : coinValue context.inputs =
    slate.amount.toNat + slate.fee.fee.toNat + coinValue context.outputs
  /-- The fee is sufficient. -/
  feeEnough : calculateFee criteria.feeBase context.inputs.length (1 + context.outputs.length) 1 ≤
    slate.fee.fee
  /-- The fee can be written. -/
  feeFits : slate.fee.fee.toNat < 2 ^ 40
  /-- The amount is the one that was asked for. -/
  requested : ∀ amount ∈ criteria.amountOpt, slate.amount = amount

/-- A call of `BuildSendSlate` throws, or conserves the value of the coins in the context that it
saves. -/
def SendConserves (available : List OutputDataEntity) (criteria : SendCriteria)
    (result : Except WalletExc (Slate × WalletDB)) : Prop :=
  ∀ slate db, result = .ok (slate, db) →
    ∃ context, db.loadSlateContext slate.slateId = some context ∧
      ConservesValue available criteria slate context

namespace SendSlateBuilder

/-- What `Build` saves of the values it was given. -/
structure Saved (inputs : List OutputDataEntity) (amountToSend fee : UInt64) (n : UInt8)
    (slate : Slate) (context : SlateContextEntity) : Prop where
  /-- The inputs. -/
  inputs_eq : context.inputs = inputs.map OutputDataEntity.reload
  /-- The number of outputs of the change. -/
  length_outputs : context.outputs.length = n.toNat
  /-- What the change is worth. -/
  coinValue_outputs : coinValue context.outputs =
    if n = 0 then 0 else (totalAmount inputs - (amountToSend + fee)).toNat
  /-- The amount. -/
  amount_eq : slate.amount = amountToSend
  /-- The fee. -/
  fee_eq : slate.fee.fee = fee

theorem exists_saved {db db' : WalletDB} {chainHeight amountToSend fee : UInt64} {n : UInt8}
    {inputs : List OutputDataEntity} {addressOpt : Option Ed25519PublicKey}
    {slateVersion : UInt16} {draws : SendDraws} {slate : Slate}
    (h : build G C W db chainHeight amountToSend fee n inputs addressOpt slateVersion draws =
      .ok (slate, db')) :
    ∃ context, db'.loadSlateContext slate.slateId = some context ∧
      Saved inputs amountToSend fee n slate context := by
  obtain ⟨changeOutputs, keys, nextChildIndex, proofOpt, hchange, -, hslate, hnew, -, -, hdb⟩ :=
    build_eq_ok h
  rw [addCoins_eq] at hslate
  have hid : slate.slateId = draws.slateId := congrArg Slate.slateId hslate
  refine ⟨_, hid ▸ WalletDB.loadSlateContext_of_new (congrArg WalletDB.slateContexts hdb) hnew,
    rfl, ?_, ?_, congrArg Slate.amount hslate, congrArg (fun s => s.fee.fee) hslate⟩
  · exact (List.length_map _).trans hchange.length_eq
  · exact (coinValue_map_reload changeOutputs).trans hchange.coinValue_eq

/-- **What `BuildSendSlate` decides** when everything is sent. -/
theorem planSend_none {available inputs : List OutputDataEntity} {criteria : SendCriteria}
    {amountToSend fee : UInt64} (hnone : criteria.amountOpt = none)
    (h : planSend G W available criteria = .ok (inputs, amountToSend, fee)) :
    inputs = available ∧
      amountToSend =
        totalAmount available - calculateFee criteria.feeBase available.length 1 1 ∧
      fee = totalAmount available - amountToSend := by
  rw [planSend, hnone] at h
  cases h
  exact ⟨rfl, rfl, rfl⟩

/-- **What it decides** when a part is sent. -/
theorem planSend_some {available inputs : List OutputDataEntity} {criteria : SendCriteria}
    {amount amountToSend fee : UInt64} (hsome : criteria.amountOpt = some amount)
    (h : planSend G W available criteria = .ok (inputs, amountToSend, fee)) :
    CoinSelection.selectCoinsToSpend G W available amount criteria.feeBase criteria.strategy
        criteria.inputs (1 + criteria.numOutputs).toNat 1 = .ok inputs ∧
      amountToSend = amount ∧
      fee = if criteria.numOutputs = 0 then totalAmount inputs - amount
        else calculateFee criteria.feeBase inputs.length (1 + criteria.numOutputs).toNat 1 := by
  rw [planSend, hsome] at h
  obtain ⟨selected, hselected, h⟩ := Exec.of_bind_eq_ok h
  cases h
  exact ⟨hselected, rfl, rfl⟩

/-- Value is conserved when the numbers are right. -/
theorem conservesValue_iff {available inputs : List OutputDataEntity} {criteria : SendCriteria}
    {amount fee : UInt64} {n : UInt8} {slate : Slate} {context : SlateContextEntity}
    (hsaved : Saved inputs amount fee n slate context) (hsub : inputs.Subperm available)
    (hrequested : ∀ requested ∈ criteria.amountOpt, amount = requested) :
    ConservesValue available criteria slate context ↔
      coinValue inputs = amount.toNat + fee.toNat +
          (if n = 0 then 0 else (totalAmount inputs - (amount + fee)).toNat) ∧
        calculateFee criteria.feeBase inputs.length (1 + n.toNat) 1 ≤ fee ∧
        fee.toNat < 2 ^ 40 := by
  obtain ⟨hinputs, hlength, hchange, hamount, hfee⟩ := hsaved
  have hbalance : coinValue context.inputs = coinValue inputs := by
    rw [hinputs, coinValue_map_reload]
  have hcount : context.inputs.length = inputs.length := by rw [hinputs, List.length_map]
  constructor
  · rintro ⟨-, hbal, henough, hfits, -⟩
    rw [hbalance, hamount, hfee, hchange] at hbal
    rw [hcount, hlength, hfee] at henough
    rw [hfee] at hfits
    exact ⟨hbal, henough, hfits⟩
  · rintro ⟨hbal, henough, hfits⟩
    obtain ⟨chosen, hperm, hchosen⟩ := hsub
    refine ⟨?_, ?_, ?_, ?_, ?_⟩
    · rw [hinputs]
      exact ⟨chosen.map _, hperm.map _, hchosen.map _⟩
    · rw [hbalance, hamount, hfee, hchange, hbal]
    · rw [hcount, hlength, hfee]
      exact henough
    · rw [hfee]
      exact hfits
    · rw [hamount]
      exact hrequested

/-- Without change, all that is left over is the fee. -/
theorem suffice_zero_iff {inputs : List OutputDataEntity} {feeBase amount fee : UInt64}
    (hsum : coinValue inputs < 2 ^ 64) (hfee : fee = totalAmount inputs - amount) :
    (coinValue inputs = amount.toNat + fee.toNat + 0 ∧
        calculateFee feeBase inputs.length 1 1 ≤ fee ∧ fee.toNat < 2 ^ 40) ↔
      amount.toNat + (calculateFee feeBase inputs.length 1 1).toNat ≤ coinValue inputs ∧
        coinValue inputs < amount.toNat + 2 ^ 40 := by
  have hlt := amount.toNat_lt
  have hfeeNat : fee.toNat = (2 ^ 64 - amount.toNat + coinValue inputs) % 2 ^ 64 := by
    rw [hfee, UInt64.toNat_sub, toNat_totalAmount_of_lt hsum]
  rw [UInt64.le_iff_toNat_le]
  omega

/-- With change, the change is what is left over. -/
theorem balance_iff {inputs : List OutputDataEntity} {amount fee : UInt64}
    (hsum : coinValue inputs < 2 ^ 64) :
    coinValue inputs = amount.toNat + fee.toNat +
        (totalAmount inputs - (amount + fee)).toNat ↔
      amount.toNat + fee.toNat ≤ coinValue inputs := by
  have hamount := amount.toNat_lt
  have hfee := fee.toNat_lt
  rw [UInt64.toNat_sub, UInt64.toNat_add, toNat_totalAmount_of_lt hsum]
  omega

/-- The number of outputs is the one that was meant, unless it wraps around. -/
theorem toNat_one_add {n : UInt8} (h : n ≠ 255) : (1 + n).toNat = 1 + n.toNat := by
  have hlt := n.toNat_lt
  have hne : n.toNat ≠ 255 := fun hn => h (UInt8.toNat_inj.mp hn)
  rw [UInt8.toNat_add]
  exact Nat.mod_eq_of_lt (by rw [UInt8.toNat_one]; omega)

/-- **A part is sent**: the numbers are right exactly when the coins suffice. -/
theorem coinsSuffice_iff {inputs : List OutputDataEntity} {feeBase amount fee : UInt64} {n : UInt8}
    (hsum : coinValue inputs < 2 ^ 64)
    (hfee : fee = if n = 0 then totalAmount inputs - amount
      else calculateFee feeBase inputs.length (1 + n).toNat 1) :
    (coinValue inputs = amount.toNat + fee.toNat +
          (if n = 0 then 0 else (totalAmount inputs - (amount + fee)).toNat) ∧
        calculateFee feeBase inputs.length (1 + n.toNat) 1 ≤ fee ∧ fee.toNat < 2 ^ 40) ↔
      CoinsSuffice feeBase amount n inputs := by
  by_cases hzero : n = 0
  · subst hzero
    refine (suffice_zero_iff hsum hfee).trans ?_
    constructor
    · rintro ⟨hcovered, hfits⟩
      exact ⟨hcovered, hfits, by rintro ⟨⟩⟩
    · rintro ⟨hcovered, hfits, -⟩
      exact ⟨hcovered, hfits⟩
  · rw [if_neg hzero] at hfee
    rw [if_neg hzero, balance_iff hsum]
    subst hfee
    constructor
    · rintro ⟨hcovered, henough, hfits⟩
      refine ⟨hcovered, by rwa [if_neg hzero], ?_⟩
      rintro rfl
      exact henough
    · rintro ⟨hcovered, hfits, hcounted⟩
      rw [if_neg hzero] at hfits
      refine ⟨hcovered, ?_, hfits⟩
      by_cases hmax : n = 255
      · subst hmax
        exact hcounted rfl
      · rw [toNat_one_add hmax]
        exact UInt64.le_refl _

/-- **Everything is sent**: the numbers are right exactly when the coins pay for the fee. -/
theorem entireBalance_iff {available : List OutputDataEntity} {feeBase amount fee : UInt64}
    (hsum : coinValue available < 2 ^ 64)
    (hamount : amount = totalAmount available - calculateFee feeBase available.length 1 1)
    (hfee : fee = totalAmount available - amount) :
    (coinValue available = amount.toNat + fee.toNat + 0 ∧
        calculateFee feeBase available.length 1 1 ≤ fee ∧ fee.toNat < 2 ^ 40) ↔
      (calculateFee feeBase available.length 1 1).toNat ≤ coinValue available ∧
        (calculateFee feeBase available.length 1 1).toNat < 2 ^ 40 := by
  have hvalue := toNat_totalAmount_of_lt hsum
  have hlt := (calculateFee feeBase available.length 1 1).toNat_lt
  have hfeeEq : fee = calculateFee feeBase available.length 1 1 := by
    apply UInt64.toNat_inj.mp
    rw [hfee, hamount, UInt64.toNat_sub, UInt64.toNat_sub, hvalue]
    omega
  have hamountNat : amount.toNat = (2 ^ 64 -
      (calculateFee feeBase available.length 1 1).toNat + coinValue available) % 2 ^ 64 := by
    rw [hamount, UInt64.toNat_sub, hvalue]
  rw [hfeeEq, hamountNat]
  constructor
  · rintro ⟨hbalance, -, hfits⟩
    exact ⟨by omega, hfits⟩
  · rintro ⟨hcovered, hfits⟩
    exact ⟨by omega, UInt64.le_refl _, hfits⟩

end SendSlateBuilder

/-- **When a send conserves value**: exactly when the coins suffice, over the integers. -/
theorem sendConserves_iff {db db' : WalletDB} {available : List OutputDataEntity}
    {chainHeight : UInt64} {criteria : SendCriteria} {draws : SendDraws} {slate : Slate}
    (hsum : coinValue available < 2 ^ 64)
    (h : SendSlateBuilder.buildSendSlate G C W db available chainHeight criteria draws =
      .ok (slate, db')) :
    SendConserves available criteria
        (SendSlateBuilder.buildSendSlate G C W db available chainHeight criteria draws) ↔
      criteria.Sufficient W available := by
  rw [h]
  obtain ⟨⟨inputs, amountToSend, fee⟩, hplan, hbuild⟩ := Exec.of_bind_eq_ok h
  obtain ⟨context, hload, hsaved⟩ := SendSlateBuilder.exists_saved hbuild
  have hsub : inputs.Subperm available := SendSlateBuilder.planSend_eq_ok hplan
  have hinputs : coinValue inputs < 2 ^ 64 := (coinValue_le_of_subperm hsub).trans_lt hsum
  have hcontext : SendConserves available criteria (.ok (slate, db')) ↔
      ConservesValue available criteria slate context := by
    constructor
    · intro hall
      obtain ⟨context', hload', hconserves⟩ := hall slate db' rfl
      rw [hload] at hload'
      cases hload'
      exact hconserves
    · rintro hconserves _ _ ⟨⟩
      exact ⟨context, hload, hconserves⟩
  rw [hcontext]
  cases hrequest : criteria.amountOpt with
  | none =>
    obtain ⟨rfl, hamount, hfee⟩ := SendSlateBuilder.planSend_none hrequest hplan
    rw [hrequest] at hsaved
    rw [SendSlateBuilder.conservesValue_iff hsaved hsub (by rw [hrequest]; rintro _ ⟨⟩),
      SendCriteria.Sufficient, hrequest]
    exact SendSlateBuilder.entireBalance_iff hsum hamount hfee
  | some amount =>
    obtain ⟨hselected, rfl, hfee⟩ := SendSlateBuilder.planSend_some hrequest hplan
    obtain ⟨k, hchooses, rfl⟩ := CoinSelection.exists_chooses hselected
    rw [hrequest] at hsaved
    rw [SendSlateBuilder.conservesValue_iff hsaved hsub (by rw [hrequest]; rintro _ ⟨⟩; rfl),
      SendCriteria.Sufficient, hrequest]
    refine (SendSlateBuilder.coinsSuffice_iff hinputs hfee).trans ?_
    constructor
    · intro hsuffice l hl
      rwa [hl.unique hchooses]
    · intro hall
      exact hall k hchooses

/-! ### Two sends -/

/-- The values of a send that returned: of the inputs, the amount, the fee and the change. -/
def sentValues : Except WalletExc (Slate × WalletDB) → Option (ℕ × ℕ × ℕ × ℕ)
  | .error _ => none
  | .ok (slate, db) => (db.loadSlateContext slate.slateId).map fun context =>
      (coinValue context.inputs, slate.amount.toNat, slate.fee.fee.toNat,
        coinValue context.outputs)

/-- If value is conserved, it is so in the values that are read off. -/
theorem SendConserves.balance {available : List OutputDataEntity} {criteria : SendCriteria}
    {result : Except WalletExc (Slate × WalletDB)} {inputs amount fee change : ℕ}
    (h : SendConserves available criteria result)
    (hvalues : sentValues result = some (inputs, amount, fee, change)) :
    inputs = amount + fee + change := by
  match result with
  | .error _ => cases hvalues
  | .ok (slate, db) =>
    obtain ⟨context, hload, hconserves⟩ := h slate db rfl
    rw [sentValues, hload] at hvalues
    cases hvalues
    exact hconserves.balance

namespace SmallNet

/-- What is asked of the wallet with one coin of 10000000: an amount, by a strategy. -/
def sendCriteria (amount : UInt64) (strategy : ESelectionStrategy) : SendCriteria where
  amountOpt := some amount
  feeBase := 1
  numOutputs := 1
  addressOpt := none
  strategy := strategy
  inputs := []
  slateVersion := 4

/-- A send from the one coin. -/
def sendFromCoin (criteria : SendCriteria) : Except WalletExc (Slate × WalletDB) :=
  SendSlateBuilder.buildSendSlate smallWalletNet smallCrypto (smallWallet 100) WalletDB.empty
    [senderCoin] 1000 criteria (sendDraws 1 2)

end SmallNet

open SmallNet in
/-- Sending 1000 from the coin by its smallest coins conserves value. -/
theorem sendConserves_iff_smallest :
    SendConserves [senderCoin] (sendCriteria 1000 .smallest)
      (sendFromCoin (sendCriteria 1000 .smallest)) := by
  have hreturns : (sendFromCoin (sendCriteria 1000 .smallest)).toOption.isSome = true := by
    decide +kernel
  obtain ⟨⟨slate, db⟩, hok⟩ := Exec.exists_ok_of_isSome hreturns
  refine (sendConserves_iff (by decide) hok).mpr ?_
  rintro k ⟨⟨hpos, hle⟩, -⟩
  obtain rfl : k = 1 := le_antisymm hle hpos
  exact ⟨by decide, by decide, by decide⟩

open SmallNet in
/-- Sending 20000000 with all coins makes value out of nothing: the coin is worth 10000000, and a
change is created of all that 64 bits can hold, less what is missing. -/
theorem not_sendConserves_all :
    coinValue [senderCoin] < 2 ^ 64 ∧
      ¬SendConserves [senderCoin] (sendCriteria 20000000 .all)
        (sendFromCoin (sendCriteria 20000000 .all)) := by
  refine ⟨by decide, ?_⟩
  intro hconserves
  have hvalues : sentValues (sendFromCoin (sendCriteria 20000000 .all)) =
      some (10000000, 20000000, 46, 2 ^ 64 - 10000046) := by
    decide +kernel
  exact absurd (hconserves.balance hvalues) (by decide)

end GrinPlusPlus
