import GrinPlusPlus.Core.Consensus

/-!
# Difficulty and proof of work

`DifficultyLoader`, `DifficultyCalculator` and `PoWValidator`. They read headers by hash
and nothing else, so a lookup function stands for the database here. A header whose
ancestors are missing makes the source throw, or read a vector that is empty; the model
keeps the two apart (`GrinPlusPlus.Exc.runtime`, `GrinPlusPlus.Exc.undefined`).
-/

namespace GrinPlusPlus

/-- The header lookup of the database. -/
abbrev HeaderLookup := Hash → Option BlockHeader

/-- What the difficulty of the next header is computed from. -/
structure HeaderInfo where
  /-- The time of the header. -/
  timestamp : UInt64
  /-- The difficulty of the header. -/
  difficulty : UInt64
  /-- The scaling factor of the secondary proof of work. -/
  secondaryScaling : UInt32
  /-- Whether the proof of work is secondary. -/
  secondary : Bool
deriving DecidableEq

namespace HeaderInfo

/-- `HeaderInfo::FromTimeAndDiff`. -/
def fromTimeAndDiff (timestamp difficulty : UInt64) : HeaderInfo :=
  ⟨timestamp, difficulty, UInt32.ofNat Consensus.initialGraphWeight, true⟩

/-- `HeaderInfo::FromDiffAndScaling`. -/
def fromDiffAndScaling (difficulty : UInt64) (scaling : UInt32) : HeaderInfo :=
  ⟨1, difficulty, scaling, true⟩

end HeaderInfo

/-- `ProofOfWork::IsSecondary`. -/
def ProofOfWork.isSecondary (p : ProofOfWork) : Bool :=
  p.edgeBits.toNat = Consensus.secondPowEdgeBits

namespace DifficultyLoader

/-- The headers from one on backwards, at most `n` of them, each with the difficulty it
added – for the first header of all, its total difficulty. -/
def load (lookup : HeaderLookup) : ℕ → Option BlockHeader → List HeaderInfo
  | 0, _ => []
  | _ + 1, none => []
  | n + 1, some h =>
    let previous := lookup h.previousHash
    let difficulty :=
      match previous with
      | some p => h.totalDifficulty - p.totalDifficulty
      | none => h.totalDifficulty
    ⟨h.timestamp.toUInt64, difficulty, h.scalingDifficulty, h.proofOfWork.isSecondary⟩ ::
      load lookup n previous

/-- The simulated headers before the first one, `n` of them. -/
def pad (lastTsDelta lastDiff : UInt64) : ℕ → UInt64 → List HeaderInfo
  | 0, _ => []
  | n + 1, lastTs =>
    let ts := lastTs - min lastTs lastTsDelta
    HeaderInfo.fromTimeAndDiff ts lastDiff :: pad lastTsDelta lastDiff n ts

/-- `DifficultyLoader::PadDifficultyData`: oldest header first. -/
def padDifficultyData (data : List HeaderInfo) : Except Exc (List HeaderInfo) :=
  if Consensus.difficultyAdjustWindow + 1 ≤ data.length then .ok data.reverse
  else
    match data.head?, data.getLast? with
    | some first, some last =>
      let lastTsDelta :=
        match data.tail with
        | second :: _ => first.timestamp - second.timestamp
        | [] => Consensus.blockTimeSec
      .ok (data ++ pad lastTsDelta first.difficulty
        (Consensus.difficultyAdjustWindow + 1 - data.length) last.timestamp).reverse
    | _, _ => .error .undefined

/-- `DifficultyLoader::LoadDifficultyData`. -/
def loadDifficultyData (lookup : HeaderLookup) (header : BlockHeader) :
    Except Exc (List HeaderInfo) :=
  padDifficultyData
    (load lookup (Consensus.difficultyAdjustWindow + 1) (lookup header.previousHash))

end DifficultyLoader

namespace DifficultyCalculator

/-- `DifficultyCalculator::ARCount`. -/
def arCount (data : List HeaderInfo) : UInt64 :=
  data.foldl (fun n i => if i.secondary then n + 1 else n) 0 * 100

/-- `DifficultyCalculator::ScalingFactorSum`. -/
def scalingFactorSum (data : List HeaderInfo) : UInt64 :=
  data.foldl (fun n i => n + i.secondaryScaling.toUInt64) 0

/-- `DifficultyCalculator::SecondaryPOWScaling`. -/
def secondaryPOWScaling (height : ℕ) (data : List HeaderInfo) : UInt32 :=
  let targetPct := UInt64.ofNat (Consensus.secondaryPOWRatio height)
  let targetCount := 60 * targetPct
  let adjCount := Consensus.clamp (Consensus.damp (arCount data) targetCount 13) targetCount 2
  (max 13 (scalingFactorSum data * targetPct / max 1 adjCount)).toUInt32

/-- `DifficultyCalculator::NextDMA`. -/
def nextDMA (lookup : HeaderLookup) (header : BlockHeader) : Except Exc HeaderInfo := do
  let data ← DifficultyLoader.loadDifficultyData lookup header
  match data.head?, data[Consensus.difficultyAdjustWindow]? with
  | some first, some last =>
    let scaling := secondaryPOWScaling header.getHeight data.tail
    let tsDelta := last.timestamp - first.timestamp
    let difficultySum := data.tail.foldl (fun n i => n + i.difficulty) 0
    let adjTs :=
      Consensus.clamp (Consensus.damp tsDelta Consensus.blockTimeWindow 3)
        Consensus.blockTimeWindow 2
    .ok (HeaderInfo.fromDiffAndScaling
      (max 3 (difficultySum * Consensus.blockTimeSec / adjTs)) scaling)
  | _, _ => .error .undefined

/-- `DifficultyCalculator::NextWTEMA`; a division by zero is undefined. -/
def nextWTEMA (env : Environment) (lookup : HeaderLookup) (header : BlockHeader) :
    Except Exc HeaderInfo := do
  let last ← orThrow (lookup header.previousHash) (.runtime "Last header not found")
  let prev ← orThrow (lookup last.previousHash) (.runtime "Previous header not found")
  let lastBlockTime := (last.timestamp - prev.timestamp).toUInt64
  let lastDiff := last.totalDifficulty - prev.totalDifficulty
  let divisor := Consensus.wtemaHalfLife - Consensus.blockTimeSec + lastBlockTime
  if divisor = 0 then .error .undefined
  else
    .ok (HeaderInfo.fromDiffAndScaling
      (max (Consensus.minWtemaGraphWeight env) (lastDiff * Consensus.wtemaHalfLife / divisor)) 0)

/-- `DifficultyCalculator::CalculateNextDifficulty`. -/
def calculateNextDifficulty (env : Environment) (lookup : HeaderLookup) (header : BlockHeader) :
    Except Exc HeaderInfo :=
  if header.version < 5 then nextDMA lookup header else nextWTEMA env lookup header

end DifficultyCalculator

namespace PoWValidator

/-- `PoWValidator::GetMaximumDifficulty`. -/
def getMaximumDifficulty (G : Global) (header : BlockHeader) : Except Exc ℕ := do
  let scaling ←
    if header.proofOfWork.edgeBits.toNat = Consensus.secondPowEdgeBits then
      .ok header.scalingDifficulty.toNat
    else Consensus.scalingDifficulty header.proofOfWork.edgeBits.toNat
  .ok (min (2 ^ 64 - 1) (scaling * 2 ^ 64 / max 1 (header.getHash G).first64))

/-- The verifier that the size of the graph and the version select. -/
def verifyCycle (G : Global) (header : BlockHeader) : Bool :=
  if header.proofOfWork.edgeBits = 29 then
    if header.version = 1 then G.cuckaroo header
    else if header.version = 2 then G.cuckarood header
    else if header.version = 3 then G.cuckaroom header
    else G.cuckarooz header
  else G.cuckatoo header

/-- `PoWValidator::IsPoWValid`. -/
def isPoWValid (G : Global) (lookup : HeaderLookup) (header previous : BlockHeader) :
    Except Exc Bool := do
  if header.totalDifficulty ≤ previous.totalDifficulty then return false
  let maxDifficulty ← getMaximumDifficulty G header
  let targetDifficulty := header.totalDifficulty - previous.totalDifficulty
  if maxDifficulty < targetDifficulty.toNat then return false
  let next ← DifficultyCalculator.calculateNextDifficulty G.env lookup header
  if targetDifficulty ≠ next.difficulty then return false
  if header.scalingDifficulty ≠ next.secondaryScaling then return false
  return verifyCycle G header

/-- An accepted proof of work raises the total difficulty. -/
theorem totalDifficulty_lt_of_isPoWValid {G : Global} {lookup : HeaderLookup}
    {header previous : BlockHeader} (h : isPoWValid G lookup header previous = .ok true) :
    previous.getTotalDifficulty < header.getTotalDifficulty := by
  by_contra hle
  have h' : header.totalDifficulty ≤ previous.totalDifficulty :=
    UInt64.le_iff_toNat_le.mpr (Nat.le_of_not_lt hle)
  rw [isPoWValid, if_pos h'] at h
  cases h

end PoWValidator

end GrinPlusPlus
