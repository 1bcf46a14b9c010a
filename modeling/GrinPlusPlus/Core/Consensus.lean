import GrinPlusPlus.Core.Global

/-!
# The consensus rules

The constants and the functions of `Consensus.h` that the chain and the validators use.
Heights are natural numbers; the difficulty arithmetic is that of the source, in 64 bits
with wrap-around (`UInt64`).
-/

namespace GrinPlusPlus

namespace Consensus

/-- `Consensus::REWARD`. -/
def reward : ℕ := 60000000000

/-- `Consensus::MAX_BLOCK_WEIGHT`. -/
def maxBlockWeight : ℕ := 40000

/-- `Consensus::INPUT_WEIGHT`. -/
def inputWeight : ℕ := 1

/-- `Consensus::OUTPUT_WEIGHT`. -/
def outputWeight : ℕ := 21

/-- `Consensus::KERNEL_WEIGHT`. -/
def kernelWeight : ℕ := 3

/-- `Consensus::WEEK_HEIGHT`. -/
def weekHeight : ℕ := 10080

/-- `Consensus::YEAR_HEIGHT`. -/
def yearHeight : ℕ := 52 * weekHeight

/-- `Consensus::COINBASE_MATURITY`. -/
def coinbaseMaturity : ℕ := 1440

/-- `Consensus::CUT_THROUGH_HORIZON`. -/
def cutThroughHorizon : ℕ := weekHeight

/-- `Consensus::BLOCK_TIME_SEC`. -/
def blockTimeSec : UInt64 := 60

/-- `Consensus::DIFFICULTY_ADJUST_WINDOW`. -/
def difficultyAdjustWindow : ℕ := 60

/-- `Consensus::BLOCK_TIME_WINDOW`. -/
def blockTimeWindow : UInt64 := 3600

/-- `Consensus::WTEMA_HALF_LIFE`. -/
def wtemaHalfLife : UInt64 := 14400

/-- `Consensus::DEFAULT_FUTURE_TIME_LIMIT_SEC`. -/
def defaultFutureTimeLimitSec : ℕ := 300

/-- `Consensus::SECOND_POW_EDGE_BITS`. -/
def secondPowEdgeBits : ℕ := 29

/-- `Consensus::BASE_EDGE_BITS`. -/
def baseEdgeBits : ℕ := 24

/-- `Consensus::HARD_FORK_INTERVAL`. -/
def hardForkInterval : ℕ := yearHeight / 2

/-- `Consensus::GetMaxCoinbaseHeight`. -/
def getMaxCoinbaseHeight (env : Environment) (blockHeight : ℕ) : ℕ :=
  if env = .automatedTesting then max blockHeight 25 - 25
  else max blockHeight coinbaseMaturity - coinbaseMaturity

/-- `Consensus::GetHorizonHeight`. -/
def getHorizonHeight (blockHeight : ℕ) : ℕ :=
  max blockHeight cutThroughHorizon - cutThroughHorizon

/-- `Consensus::GetMaxBlockTime`: the current time and the limit are both counted in ticks
of the clock. -/
def getMaxBlockTime (G : Global) (now : ℤ) : ℤ :=
  now + defaultFutureTimeLimitSec * G.clockTicksPerSecond

/-- `Consensus::GetHeaderVersion`. -/
def getHeaderVersion (env : Environment) (height : ℕ) : ℕ :=
  if env = .floonet then
    if height < 185040 then 1
    else if height < 298080 then 2
    else if height < 552960 then 3
    else if height < 642240 then 4
    else 5
  else
    if height < hardForkInterval then 1
    else if height < 2 * hardForkInterval then 2
    else if height < 3 * hardForkInterval then 3
    else if height < 4 * hardForkInterval then 4
    else 5

/-- `Consensus::CalculateWeightV4`. -/
def calculateWeightV4 (numInputs numOutputs numKernels : ℕ) : ℕ :=
  (max (-(numInputs : ℤ) + 4 * numOutputs + numKernels) 1).toNat

/-- `Consensus::CalculateWeightV5`. -/
def calculateWeightV5 (numInputs numOutputs numKernels : ℕ) : ℕ :=
  numInputs * inputWeight + numOutputs * outputWeight + numKernels * kernelWeight

/-- `Consensus::Damp`. -/
def damp (actual goal dampFactor : UInt64) : UInt64 :=
  (actual + (dampFactor - 1) * goal) / dampFactor

/-- `Consensus::Clamp`. -/
def clamp (actual goal clampFactor : UInt64) : UInt64 :=
  max (goal / clampFactor) (min actual (goal * clampFactor))

/-- `Consensus::SecondaryPOWRatio`. -/
def secondaryPOWRatio (height : ℕ) : ℕ :=
  90 - min 90 (height / (2 * yearHeight / 90))

/-- `Consensus::ScalingDifficulty`; the shift is undefined for graphs smaller than the
reference size. -/
def scalingDifficulty (edgeBits : ℕ) : Except Exc ℕ :=
  if edgeBits < baseEdgeBits then .error .undefined
  else .ok (2 ^ (edgeBits - baseEdgeBits + 1) * edgeBits)

/-- `Consensus::GraphWeight` of the secondary proof of work at height 0, which is also
`Consensus::INITIAL_GRAPH_WEIGHT`. -/
def initialGraphWeight : ℕ := 2 ^ (secondPowEdgeBits - baseEdgeBits + 1) * secondPowEdgeBits

/-- `Consensus::min_wtema_graph_weight`. -/
def minWtemaGraphWeight (env : Environment) : UInt64 :=
  if env = .mainnet then 16384 else UInt64.ofNat initialGraphWeight

end Consensus

/-- `TransactionBody::CalcWeight`. -/
def TransactionBody.calcWeight (env : Environment) (b : TransactionBody) (blockHeight : ℕ) : ℕ :=
  if Consensus.getHeaderVersion env blockHeight < 5 then
    Consensus.calculateWeightV4 b.inputs.length b.outputs.length b.kernels.length
  else
    Consensus.calculateWeightV5 b.inputs.length b.outputs.length b.kernels.length

/-- `TransactionBody::CalcFee`, a sum in 64 bits. -/
def TransactionBody.calcFee (b : TransactionBody) : UInt64 :=
  b.kernels.foldl (fun sum k => sum + k.fee.fee) 0

end GrinPlusPlus
