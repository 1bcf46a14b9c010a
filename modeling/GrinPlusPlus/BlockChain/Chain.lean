import GrinPlusPlus.Core.Global
import GrinPlusPlus.Lib.Batch

/-!
# Chains of hashes

`Chain` and `ChainStore`. A chain is the list of the hashes of its blocks, by height; the
genesis hash is always there. The three copies the source keeps – `m_indices`, the data
file and `m_height` – are changed together, and are one list here.

Heights are natural numbers. Where the source subtracts one from a height in 64 bits, so
does the model (`GrinPlusPlus.decrement`).
-/

namespace GrinPlusPlus

/-- A height minus one, in 64 bits. -/
def decrement (height : ℕ) : ℕ :=
  if height = 0 then 2 ^ 64 - 1 else height - 1

@[simp] theorem decrement_succ (n : ℕ) : decrement (n + 1) = n := by
  simp [decrement]

/-- `EChainType`. -/
inductive EChainType
  | candidate
  | confirmed
deriving DecidableEq

/-- The hashes of a chain, from the genesis block on. -/
structure Indices where
  /-- The hash at every height. -/
  hashes : List Hash
  /-- The genesis hash is among them. -/
  nonempty : hashes ≠ []
deriving DecidableEq

/-- `Chain`. -/
abbrev Chain := Batch Indices

namespace Chain

/-- The hashes of the chain. -/
def hashes (c : Chain) : List Hash := c.current.hashes

/-- `Chain::GetHeight`. -/
def getHeight (c : Chain) : ℕ := c.hashes.length - 1

/-- `Chain::GetByHeight`. -/
def getByHeight (c : Chain) (height : ℕ) : Option Hash := c.hashes[height]?

/-- `Chain::GetTipHash`. -/
def getTipHash (c : Chain) : Hash := c.hashes.getLast c.current.nonempty

/-- `Chain::IsOnChain`. -/
def isOnChain (c : Chain) (height : ℕ) (hash : Hash) : Bool := c.hashes[height]? = some hash

/-- `Chain::AddBlock`. -/
def addBlock (hash : Hash) (height : ℕ) (c : Chain) : Except Exc Chain :=
  if height ≠ c.getHeight + 1 then .error (.blockChain "Tried to add block to wrong height.")
  else .ok (c.write fun i => ⟨i.hashes ++ [hash], by simp⟩)

/-- `Chain::Rewind`. -/
def rewind (lastHeight : ℕ) (c : Chain) : Except Exc Chain :=
  if c.getHeight < lastHeight then .error (.blockChain "Tried to rewind forward.")
  else if lastHeight < c.getHeight then
    .ok (c.write fun i => ⟨i.hashes.take (lastHeight + 1), by simp [i.nonempty]⟩)
  else .ok c

/-! ### What the operations do to the hashes -/

theorem hashes_ne_nil (c : Chain) : c.hashes ≠ [] := c.current.nonempty

theorem length_hashes (c : Chain) : c.hashes.length = c.getHeight + 1 := by
  have := List.length_pos_iff.mpr c.hashes_ne_nil
  rw [getHeight]
  omega

theorem getElem?_getHeight (c : Chain) : c.hashes[c.getHeight]? = some c.getTipHash := by
  rw [getTipHash, getHeight, ← List.getLast?_eq_getElem?,
    List.getLast?_eq_some_getLast c.hashes_ne_nil]

/-- What a successful `addBlock` is. -/
theorem of_addBlock {c c' : Chain} {hash : Hash} {height : ℕ}
    (h : c.addBlock hash height = .ok c') :
    height = c.hashes.length ∧ c'.hashes = c.hashes ++ [hash] ∧ c'.committed = c.committed := by
  rw [addBlock] at h
  split at h
  · cases h
  · next hne =>
    rw [not_not] at hne
    cases h
    exact ⟨by rw [hne, length_hashes], rfl, rfl⟩

/-- At the next height a block is always added. -/
theorem addBlock_length (c : Chain) (hash : Hash) :
    ∃ c', c.addBlock hash c.hashes.length = .ok c' ∧ c'.hashes = c.hashes ++ [hash] ∧
      c'.committed = c.committed := by
  rw [addBlock, if_neg (by rw [length_hashes]; simp)]
  exact ⟨_, rfl, rfl, rfl⟩

/-- What a successful `rewind` is. -/
theorem of_rewind {c c' : Chain} {lastHeight : ℕ} (h : c.rewind lastHeight = .ok c') :
    lastHeight < c.hashes.length ∧ c'.hashes = c.hashes.take (lastHeight + 1) ∧
      c'.committed = c.committed := by
  have hlen := c.length_hashes
  rw [rewind] at h
  split at h
  · cases h
  split at h
  · cases h
    exact ⟨by omega, rfl, rfl⟩
  · cases h
    refine ⟨by omega, ?_, rfl⟩
    rw [List.take_of_length_le (by omega)]

/-- A rewind to a height of the chain succeeds. -/
theorem rewind_of_lt {c : Chain} {lastHeight : ℕ} (h : lastHeight < c.hashes.length) :
    ∃ c', c.rewind lastHeight = .ok c' ∧ c'.hashes = c.hashes.take (lastHeight + 1) ∧
      c'.committed = c.committed := by
  have hlen := c.length_hashes
  rw [rewind, if_neg (by omega)]
  split
  · exact ⟨_, rfl, rfl, rfl⟩
  · exact ⟨_, rfl, by rw [List.take_of_length_le (by omega)], rfl⟩

theorem isOnChain_iff {c : Chain} {height : ℕ} {hash : Hash} :
    c.isOnChain height hash = true ↔ c.hashes[height]? = some hash := by
  rw [isOnChain, decide_eq_true_eq]

end Chain

end GrinPlusPlus
