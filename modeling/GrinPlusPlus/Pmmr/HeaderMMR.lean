import GrinPlusPlus.BlockChain.Chain
import GrinPlusPlus.Pmmr.HashUtil

/-!
# The header MMR

`HeaderMMR`: the range of the proof-of-work cycles of the candidate chain. It has no prune
list, so by `GrinPlusPlus.MMRHashUtil.addHashes_ok` its file always is a range in the sense
of `Mountain.IsRange`; `GrinPlusPlus.HeaderMMR.addHeader_ok` and
`GrinPlusPlus.HeaderMMR.rewind_ok` are what its two operations do to the cycles.
-/

namespace GrinPlusPlus

open PostOrder Mountain MMRHashUtil

/-- `HeaderMMR`: its file of hashes. -/
abbrev HeaderMMR := Batch (List Hash)

/-- `DataFile::Rewind`, to a number of entries. -/
def rewindFile {α : Type} (size : ℕ) (file : List α) : Except Exc (List α) :=
  if file.length < size then .error (.file "Failed to rewind to size") else .ok (file.take size)

namespace HeaderMMR

/-- `HeaderMMR::Rewind`, to a number of headers. -/
def rewind (size : ℕ) (m : HeaderMMR) : Except Exc HeaderMMR :=
  let mmrSize := leafPosition size
  if mmrSize = m.current.length then .ok m
  else do
    let file ← rewindFile mmrSize m.current
    .ok (m.write fun _ => file)

/-- `HeaderMMR::AddHeader`. -/
def addHeader (G : Global) (header : BlockHeader) (m : HeaderMMR) : Except Exc HeaderMMR := do
  let file ← addHashes G m.current header.proofOfWork.serializeCycle none
  .ok (m.write fun _ => file)

/-- `HeaderMMR::Root`. -/
def root (G : Global) (lastHeight : ℕ) (m : HeaderMMR) : Except Exc Hash :=
  MMRHashUtil.root G m.current (leafPosition ((lastHeight + 1) % 2 ^ 64)) none

variable {G : Global} {m m' : HeaderMMR} {cycles : List (List UInt8)}

theorem of_rewind {size : ℕ} (h : m.rewind size = .ok m') :
    m'.current = m.current.take (leafPos size) ∧ leafPos size ≤ m.current.length ∧
      m'.committed = m.committed := by
  rw [rewind, leafPosition] at h
  split at h
  · next heq =>
    cases h
    exact ⟨by rw [heq, List.take_length], heq.le, rfl⟩
  · rw [rewindFile] at h
    split at h
    · cases h
    · next hle =>
      cases h
      exact ⟨rfl, Nat.le_of_not_lt hle, rfl⟩

/-- A rewind drops the last cycles. -/
theorem rewind_ok {size : ℕ} (hm : IsRangeOf G m.current cycles) (hsize : size ≤ cycles.length) :
    ∃ m', m.rewind size = .ok m' ∧ IsRangeOf G m'.current (cycles.take size) ∧
      m'.committed = m.committed := by
  have hle : leafPos size ≤ m.current.length :=
    hm.length_eq ▸ leafPos_strictMono.monotone hsize
  rw [rewind, leafPosition]
  split
  · next heq =>
    refine ⟨m, rfl, ?_, rfl⟩
    rw [hm.length_eq] at heq
    rw [leafPos_strictMono.injective heq, List.take_length]
    exact hm
  · rw [rewindFile, if_neg (Nat.not_lt.mpr hle)]
    exact ⟨_, rfl, hm.take size hsize, rfl⟩

/-- Any successful rewind drops the last cycles. -/
theorem isRangeOf_of_rewind {size : ℕ} (hm : IsRangeOf G m.current cycles)
    (h : m.rewind size = .ok m') :
    size ≤ cycles.length ∧ IsRangeOf G m'.current (cycles.take size) := by
  obtain ⟨hcur, hle, -⟩ := of_rewind h
  have hsize : size ≤ cycles.length := by
    rw [hm.length_eq] at hle
    exact leafPos_strictMono.le_iff_le.mp hle
  exact ⟨hsize, hcur ▸ hm.take size hsize⟩

/-- Adding a header adds its cycle. -/
theorem addHeader_ok (hm : IsRangeOf G m.current cycles) (header : BlockHeader) :
    ∃ m', m.addHeader G header = .ok m' ∧
      IsRangeOf G m'.current (cycles ++ [header.proofOfWork.serializeCycle]) ∧
      m'.committed = m.committed := by
  obtain ⟨file, hfile, hrange, -⟩ := addHashes_ok hm header.proofOfWork.serializeCycle
  rw [addHeader, hfile]
  exact ⟨_, rfl, hrange, rfl⟩

/-- **The root at a height** is the root over the cycles up to there. -/
theorem root_eq (hm : IsRangeOf G m.current cycles) {i : ℕ} (hi : i < cycles.length)
    (h64 : i + 1 < 2 ^ 64) :
    ∃ r, m.root G i = .ok r ∧ ∀ file, IsRangeOf G file (cycles.take (i + 1)) →
      MMRHashUtil.root G file file.length none = .ok r := by
  have htake := hm.take (i + 1) hi
  have hlen : (cycles.take (i + 1)).length = i + 1 := by
    rw [List.length_take, Nat.min_eq_left hi]
  obtain ⟨r, hr⟩ := root_ok htake
  rw [hlen] at hr
  refine ⟨r, ?_, fun file hfile => ?_⟩
  · rw [root, leafPosition, Nat.mod_eq_of_lt h64, ← root_take]
    exact hr
  · rw [hfile.unique htake, htake.length_eq, hlen]
    exact hr

theorem committed_of_addHeader {header : BlockHeader} (h : m.addHeader G header = .ok m') :
    m'.committed = m.committed := by
  rw [addHeader] at h
  cases hf : addHashes G m.current header.proofOfWork.serializeCycle none with
  | error e => rw [hf] at h; cases h
  | ok file => rw [hf] at h; cases h; rfl

end HeaderMMR

end GrinPlusPlus
