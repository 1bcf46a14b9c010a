import GrinPlusPlus.Core.Global
import GrinPlusPlus.Lib.Cache

/-!
# The orphan pool

`OrphanPool`: blocks whose ancestors are missing, and the headers of headers and blocks that
came without them. The blocks are kept by height and hash; the hash does not determine the
block. The map from heights to vectors is one list here, in the order of insertion.

Reading a header out of the pool changes the pool: the cache keeps what was read last.
-/

namespace GrinPlusPlus

/-- `OrphanPool`. -/
structure OrphanPool where
  /-- `m_orphansByHeight`. -/
  orphans : List FullBlock
  /-- `m_orphanHeadersByHash`. -/
  orphanHeaders : Cache Hash BlockHeader

namespace OrphanPool

/-- The size of `m_orphanHeadersByHash`. -/
def orphanHeadersSize : ℕ := 64

variable (G : Global)

/-- The block has this height and this hash. -/
def hasKey (height : ℕ) (hash : Hash) (b : FullBlock) : Bool :=
  decide (b.getHeight = height ∧ b.getHash G = hash)

/-- `OrphanPool::GetOrphanBlock`. -/
def getOrphanBlock (p : OrphanPool) (height : ℕ) (hash : Hash) : Option FullBlock :=
  p.orphans.find? (hasKey G height hash)

/-- `OrphanPool::IsOrphan`. -/
def isOrphan (p : OrphanPool) (height : ℕ) (hash : Hash) : Bool :=
  p.orphans.any (hasKey G height hash)

/-- `OrphanPool::AddOrphanBlock`. -/
def addOrphanBlock (b : FullBlock) (p : OrphanPool) : OrphanPool where
  orphanHeaders :=
    if (p.orphanHeaders.get? (b.getHash G)).isSome then p.orphanHeaders
    else p.orphanHeaders.putLru orphanHeadersSize (b.getHash G) b.header
  orphans := if p.isOrphan G b.getHeight (b.getHash G) then p.orphans else p.orphans ++ [b]

/-- `OrphanPool::GetNextOrphanBlock`. -/
def getNextOrphanBlock (p : OrphanPool) (height : ℕ) (previousHash : Hash) : Option FullBlock :=
  p.orphans.find? fun b => decide (b.getHeight = height ∧ b.getPreviousHash = previousHash)

/-- `OrphanPool::RemoveOrphan`. -/
def removeOrphan (height : ℕ) (hash : Hash) (p : OrphanPool) : OrphanPool :=
  { p with orphans := p.orphans.eraseP (hasKey G height hash) }

/-- `OrphanPool::GetOrphanHeader`: the header, and the pool with the header in front. -/
def getOrphanHeader (hash : Hash) (p : OrphanPool) : Option BlockHeader × OrphanPool :=
  (p.orphanHeaders.get? hash, { p with orphanHeaders := p.orphanHeaders.touch hash })

/-- `OrphanPool::AddOrphanHeader`. -/
def addOrphanHeader (header : BlockHeader) (p : OrphanPool) : OrphanPool :=
  { p with
    orphanHeaders := p.orphanHeaders.putLru orphanHeadersSize (header.getHash G) header }

/-! ### No two blocks have the same height and hash -/

/-- The blocks of the pool differ in height or hash. -/
def Distinct (p : OrphanPool) : Prop :=
  p.orphans.Pairwise fun a b => hasKey G a.getHeight (a.getHash G) b = false

variable {G} {p : OrphanPool}

theorem hasKey_iff {height : ℕ} {hash : Hash} {b : FullBlock} :
    hasKey G height hash b = true ↔ b.getHeight = height ∧ b.getHash G = hash :=
  decide_eq_true_iff

/-- A block that is added has a height and hash of its own. -/
theorem Distinct.addOrphanBlock (h : p.Distinct G) (b : FullBlock) :
    (p.addOrphanBlock G b).Distinct G := by
  rw [Distinct, OrphanPool.addOrphanBlock]
  split
  · exact h
  · next hnew =>
    refine List.pairwise_append.mpr ⟨h, List.pairwise_singleton _ _, fun a ha c hc => ?_⟩
    rw [List.mem_singleton] at hc
    subst hc
    by_contra hkey
    rw [Bool.not_eq_false, hasKey_iff] at hkey
    refine hnew (List.any_eq_true.mpr ⟨a, ha, ?_⟩)
    exact hasKey_iff.mpr ⟨hkey.1.symm, hkey.2.symm⟩

theorem Distinct.removeOrphan (h : p.Distinct G) (height : ℕ) (hash : Hash) :
    (p.removeOrphan G height hash).Distinct G :=
  List.Pairwise.sublist List.eraseP_sublist h

/-- In such a pool a removal drops all blocks of the height and hash. -/
theorem mem_removeOrphan (h : p.Distinct G) {height : ℕ} {hash : Hash} {b : FullBlock} :
    b ∈ (p.removeOrphan G height hash).orphans ↔
      b ∈ p.orphans ∧ hasKey G height hash b = false := by
  rw [OrphanPool.removeOrphan]
  refine ⟨fun hb => ⟨List.mem_of_mem_eraseP hb, ?_⟩, fun hb => ?_⟩
  · by_contra hkey
    rw [Bool.not_eq_false] at hkey
    obtain ⟨a, l₁, l₂, -, ha, hp, hrest⟩ := List.exists_of_eraseP (List.mem_of_mem_eraseP hb) hkey
    dsimp only at hb
    rw [Distinct, hp, List.pairwise_append, List.pairwise_cons] at h
    rw [hrest, List.mem_append] at hb
    have hka := hasKey_iff.mp ha
    have hkb := hasKey_iff.mp hkey
    rcases hb with hb | hb
    · have hne := h.2.2 b hb a (List.mem_cons_self ..)
      rw [hasKey_iff.mpr ⟨hka.1.trans hkb.1.symm, hka.2.trans hkb.2.symm⟩] at hne
      cases hne
    · have hne := h.2.1.1 b hb
      rw [hasKey_iff.mpr ⟨hkb.1.trans hka.1.symm, hkb.2.trans hka.2.symm⟩] at hne
      cases hne
  · exact (List.mem_eraseP_of_neg (by rw [hb.2]; exact Bool.false_ne_true)).mpr hb.1

end OrphanPool

end GrinPlusPlus
