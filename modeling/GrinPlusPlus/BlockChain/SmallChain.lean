import GrinPlusPlus.BlockChain.BlockProcessor
import GrinPlusPlus.Core.SmallNet

/-!
# The small chain

The first state of `GrinPlusPlus.smallNet` under the rules of the tests, in which the proof of
work of a header is not looked at, and a way to make blocks for it: a block without
transactions whose header states the sizes and the roots that its body leads to.
-/

namespace GrinPlusPlus

namespace SmallNet

/-- The small network under the rules of the tests. -/
abbrev testNet : Global := smallNet .automatedTesting

theorem isSome_create : (ChainState.create testNet).toOption.isSome = true := by
  decide +kernel

/-- The first state of the small network. -/
def genesis : ChainState :=
  (ChainState.create testNet).toOption.get isSome_create

theorem create_eq : ChainState.create testNet = .ok genesis := by
  rcases h : ChainState.create testNet with e | s
  · have := isSome_create
    rw [h] at this
    cases this
  · have hget : genesis = s := Option.get_of_eq_some _ (congrArg Except.toOption h)
    rw [hget]

theorem genesis_atRest : genesis.AtRest :=
  (ChainState.created_of_create create_eq).atRest

/-- The root, where there is one. -/
def rootOr (root : Except Exc Hash) : Hash :=
  root.toOption.getD Hash.zero

/-- The header that follows another one in a state. -/
def nextHeader (s : ChainState) (previous : BlockHeader) (n : UInt8) (totalDifficulty : UInt64) :
    BlockHeader :=
  { genesisHeader with
    height := previous.height + 1
    timestamp := previous.timestamp + 60
    previousHash := previous.getHash testNet
    previousRoot := rootOr (s.headerMMR.root testNet previous.getHeight)
    totalDifficulty := totalDifficulty
    proofOfWork := proofOfWork n }

/-- State the sizes and the roots of a hash set. -/
def sealBlock (t : TxHashSet) (block : FullBlock) : FullBlock :=
  let outputSize := t.outputPMMR.current.getSize
  let kernelSize := t.kernelMMR.current.hashFile.length
  { block with
    header :=
      { block.header with
        outputMMRSize := UInt64.ofNat outputSize
        kernelMMRSize := UInt64.ofNat kernelSize
        outputRoot := rootOr (t.outputPMMR.current.root testNet outputSize)
        rangeProofRoot := rootOr (t.rangeProofPMMR.current.root testNet outputSize)
        kernelRoot := rootOr (t.kernelMMR.current.root testNet kernelSize) } }

/-- The block with a given body that follows a header in a state. -/
def nextBlockWith (s : ChainState) (previous : BlockHeader) (n : UInt8)
    (totalDifficulty : UInt64) (body : TransactionBody) : FullBlock :=
  let block : FullBlock := ⟨nextHeader s previous n totalDifficulty, body⟩
  match s.txHashSet with
  | none => block
  | some t => sealBlock (Exec.run (TxHashSet.applyBlock testNet block) ⟨s.blockDB, t⟩).2.txHashSet
      block

/-- The block without transactions that follows a header in a state. -/
def nextBlock (s : ChainState) (previous : BlockHeader) (n : UInt8) (totalDifficulty : UInt64) :
    FullBlock :=
  nextBlockWith s previous n totalDifficulty (coinbaseBody (n.toNat + 1))

/-- The time of the small chain. -/
def noon : ℤ := 1000

/-- The outcome of `ProcessBlock` on the small network. -/
def outcome (s : ChainState) (block : FullBlock) : Except Exc EBlockChainStatus :=
  (Exec.run (BlockProcessor.processBlock testNet noon block) s).1

/-- The state after `ProcessBlock` on the small network. -/
def after (s : ChainState) (block : FullBlock) : ChainState :=
  (Exec.run (BlockProcessor.processBlock testNet noon block) s).2

theorem run_processBlock (s : ChainState) (block : FullBlock) :
    Exec.run (BlockProcessor.processBlock testNet noon block) s =
      (outcome s block, after s block) := rfl

/-! ### Three blocks -/

/-- A first block. -/
def block₁ : FullBlock := nextBlock genesis genesisHeader 1 2

/-- The state behind it. -/
def state₁ : ChainState := after genesis block₁

/-- A second block. -/
def block₂ : FullBlock := nextBlock state₁ block₁.header 2 3

/-- The state behind it. -/
def state₂ : ChainState := after state₁ block₂

/-- A third block. -/
def block₃ : FullBlock := nextBlock state₂ block₂.header 3 4

/-! ### Long chains of headers -/

/-- The headers of a chain behind the genesis block, with given total difficulties, and the
header MMR behind each of them. -/
def fork (difficulty : ℕ → UInt64) : ℕ → BlockHeader × HeaderMMR
  | 0 => (genesisHeader, genesis.headerMMR)
  | n + 1 =>
    let previous := fork difficulty n
    let header : BlockHeader :=
      { genesisHeader with
        height := UInt64.ofNat (n + 1)
        timestamp := Int64.ofNat (60 * (n + 1))
        previousHash := previous.1.getHash testNet
        previousRoot := rootOr (previous.2.root testNet n)
        totalDifficulty := difficulty (n + 1)
        proofOfWork := longProofOfWork (n + 1) }
    (header, (previous.2.addHeader testNet header).toOption.getD previous.2)

/-- A header of the chain. -/
def forkHeader (difficulty : ℕ → UInt64) (n : ℕ) : BlockHeader :=
  (fork difficulty n).1

theorem getHeight_forkHeader (difficulty : ℕ → UInt64) {n : ℕ} (hn : n < 65536) :
    (forkHeader difficulty n).getHeight = n := by
  cases n with
  | zero => rfl
  | succ n =>
    have hlt : n + 1 < UInt64.size := Nat.lt_trans hn (by decide)
    exact UInt64.toNat_ofNat_of_lt' hlt

theorem getTimestamp_forkHeader (difficulty : ℕ → UInt64) {n : ℕ} (hn : n < 65536) :
    (forkHeader difficulty n).getTimestamp = 60 * n := by
  cases n with
  | zero => rfl
  | succ n =>
    have hval : (forkHeader difficulty (n + 1)).getTimestamp =
        ((60 * (n + 1) : ℕ) : ℤ).bmod Int64.size := Int64.toInt_ofNat'
    have hsize : Int64.size = 18446744073709551616 := rfl
    rw [hval, hsize, Int.bmod_eq_of_le (by omega) (by omega)]
    push_cast
    rfl

/-- Its headers have different hashes. -/
theorem forkHeader_injective {difficulty : ℕ → UInt64} {m n : ℕ} (hm : m < 65536)
    (hn : n < 65536)
    (h : (forkHeader difficulty m).getHash testNet = (forkHeader difficulty n).getHash testNet) :
    m = n := by
  have hpow := BlockHeader.proofOfWork_eq_of_getHash_eq (injectiveOnBytes _) h
  cases m with
  | zero =>
    cases n with
    | zero => rfl
    | succ n => exact absurd hpow (proofOfWork_ne_longProofOfWork 0 (n + 1))
  | succ m =>
    cases n with
    | zero => exact absurd hpow.symm (proofOfWork_ne_longProofOfWork 0 (m + 1))
    | succ n => exact longProofOfWork_injective hm hn hpow

end SmallNet

end GrinPlusPlus
