import GrinPlusPlus.Lib.PrefixSums
import GrinPlusPlus.Pmmr.PruneListAdd
import GrinPlusPlus.Pmmr.PrunedRange
import Mathlib.Order.Interval.Finset.Nat

/-!
# The sums of a prune list

What is missing in front of a position, as `PruneList` looks it up: the rank of the position among
the pruned roots, and at that place the sum over the roots up to it.

The sums mean something for roots whose subtrees are apart, and for a position that is itself not
missing: then **no subtree straddles the position**, so the roots up to it are those whose nodes
are in front of it. For leaves the roots of height zero count nothing, since the data of such a
leaf is kept; the same number is found one position further on.

* `GrinPlusPlus.PruneList.Apart.getShift_eq`, `GrinPlusPlus.PruneList.Apart.getLeafShift_eq` – the
  numbers over a plain list of roots;
* `GrinPlusPlus.Cached.PruneList.Synced` – the caches are those of the roots. A root behind the
  last one keeps this by appending, any other one by rebuilding;
* `GrinPlusPlus.Cached.PruneList.getShift_counts` – so the bitmaps and the vectors give these
  numbers, whichever way the list came about.
-/

namespace GrinPlusPlus

open PostOrder PrefixSums

/-! ### Counting over roots -/

namespace PruneList

variable {l : PruneList} {p n : ℕ}

/-- What is compacted is under a root and not the root. -/
theorem Apart.isCompacted_iff (h : l.Apart) :
    l.isCompacted p = true ↔ ∃ r ∈ l.prunedRoots, Under p r ∧ p ≠ r := by
  rw [isCompacted, Bool.and_eq_true, Bool.not_eq_true', ← Bool.not_eq_true, isPruned_iff_under,
    isPrunedRoot, List.contains_iff_mem]
  constructor
  · rintro ⟨⟨r, hr, hunder⟩, hnot⟩
    exact ⟨r, hr, hunder, fun heq => hnot (heq ▸ hr)⟩
  · rintro ⟨r, hr, hunder, hne⟩
    exact ⟨⟨r, hr, hunder⟩, fun hp => hne (h p hp r hr hunder)⟩

/-- Two trees that are apart share no node. -/
theorem eq_of_under {r r' q : ℕ} (hapart : ∀ r ∈ l.prunedRoots, ∀ r' ∈ l.prunedRoots,
    Under r r' → r = r') (hr : r ∈ l.prunedRoots) (hr' : r' ∈ l.prunedRoots) (h : Under q r)
    (h' : Under q r') : r = r' := by
  have h1 := h.2
  have h2 := h'.2
  rcases Nat.le_total r r' with hle | hle
  · exact hapart r hr r' hr' ⟨by have := h'.1; omega, hle⟩
  · exact (hapart r' hr' r hr ⟨by have := h.1; omega, hle⟩).symm

/-- The nodes under a root, without the root. -/
theorem ncard_under (r : ℕ) : {q | Under q r ∧ q ≠ r}.ncard = missing r := by
  have hroom := two_pow_height_le r
  have hmissing := missing_add_two r
  have hset : {q | Under q r ∧ q ≠ r} = ↑(Finset.Ico (r + 2 - 2 ^ (height r + 1)) r) := by
    ext q
    simp only [Set.mem_ofPred_eq, Under, Finset.coe_Ico, Set.mem_Ico]
    omega
  rw [hset, Set.ncard_coe_finset, Nat.card_Ico]
  omega

theorem finite_under (r : ℕ) : {q | Under q r ∧ q ≠ r}.Finite :=
  (Set.finite_Iic r).subset fun _ hq => hq.1.2

/-- The leaves under a root. -/
theorem ncard_leaves_under (r : ℕ) : {m | Under (leafPos m) r}.ncard = 2 ^ height r := by
  obtain ⟨j, hj⟩ := exists_nodePos r
  have hset : {m | Under (leafPos m) r} =
      ↑(Finset.Ico (2 ^ height r * j) (2 ^ height r * (j + 1))) := by
    ext m
    have hpos : 0 < 2 ^ height r := Nat.two_pow_pos _
    rw [Set.mem_ofPred_eq, ← below_iff_under, ← nodePos_zero]
    conv_lhs => rw [hj]
    rw [below_nodePos, Nat.sub_zero, Finset.coe_Ico, Set.mem_Ico, Nat.div_eq_iff hpos,
      Nat.mul_succ]
    rw [Nat.mul_comm]
    omega
  rw [hset, Set.ncard_coe_finset, Nat.card_Ico, Nat.mul_succ, Nat.add_sub_cancel_left]

theorem finite_leaves_under (r : ℕ) : {m | Under (leafPos m) r}.Finite :=
  (Set.finite_Iic r).subset fun m hm => (le_leafPos m).trans hm.2

/-- **The shift** at a position that is not compacted counts the compacted positions in front of
it. -/
theorem Apart.getShift_eq (h : l.Apart) (hp : l.isCompacted p = false) :
    l.getShift p = {q | q < p ∧ l.isCompacted q = true}.ncard := by
  have hset : {q | q < p ∧ l.isCompacted q = true} =
      {q | ∃ r ∈ l.prunedRoots.filter (· ≤ p), q ∈ {q | Under q r ∧ q ≠ r}} := by
    ext q
    simp only [Set.mem_ofPred_eq, List.mem_filter, decide_eq_true_eq, h.isCompacted_iff]
    constructor
    · rintro ⟨hlt, r, hr, hunder, hne⟩
      refine ⟨r, ⟨hr, ?_⟩, hunder, hne⟩
      -- a tree that begins in front of the position ends there
      by_contra hgt
      have hbegin := hunder.1
      have hcompacted : l.isCompacted p = true :=
        h.isCompacted_iff.2 ⟨r, hr, ⟨by omega, by omega⟩, by omega⟩
      simp [hp] at hcompacted
    · rintro ⟨r, ⟨hr, hle⟩, hunder, hne⟩
      have := hunder.2
      exact ⟨by omega, r, hr, hunder, hne⟩
  rw [hset, ncard_exists_mem fun r _ => finite_under r, getShift]
  · simp only [ncard_under, missing]
  · refine (l.sorted.filter _).imp_of_mem fun {r r'} hr hr' hlt => ?_
    rintro q ⟨hq, -⟩ ⟨hq', -⟩
    exact hlt.ne (eq_of_under h (List.mem_of_mem_filter hr) (List.mem_of_mem_filter hr') hq hq')

/-- **The total shift** counts all compacted positions. -/
theorem Apart.getTotalShift_eq (h : l.Apart) :
    l.getTotalShift = {q | l.isCompacted q = true}.ncard := by
  have hset : {q | l.isCompacted q = true} =
      {q | ∃ r ∈ l.prunedRoots, q ∈ {q | Under q r ∧ q ≠ r}} := by
    ext q
    simp only [Set.mem_ofPred_eq, h.isCompacted_iff]
  rw [hset, ncard_exists_mem fun r _ => finite_under r, getTotalShift]
  · simp only [ncard_under, missing]
  · refine l.sorted.imp_of_mem fun {r r'} hr hr' hlt => ?_
    rintro q ⟨hq, -⟩ ⟨hq', -⟩
    exact hlt.ne (eq_of_under h hr hr' hq hq')

/-- **The shift of the leaves** at a leaf that is under no root of height one or more counts the
earlier leaves under such roots; so does the one at the next position. -/
theorem Apart.getLeafShift_eq (h : l.Apart) {p : ℕ}
    (hn : ∀ r ∈ l.prunedRoots, 1 ≤ height r → ¬Under (leafPos n) r)
    (hp : p = leafPos n ∨ p = leafPos n + 1) :
    l.getLeafShift p =
      {m | m < n ∧ ∃ r ∈ l.prunedRoots, 1 ≤ height r ∧ Under (leafPos m) r}.ncard := by
  have hset : {m | m < n ∧ ∃ r ∈ l.prunedRoots, 1 ≤ height r ∧ Under (leafPos m) r} =
      {m | ∃ r ∈ l.prunedRoots.filter (· ≤ p),
        m ∈ {m | 1 ≤ height r ∧ Under (leafPos m) r}} := by
    ext m
    simp only [Set.mem_ofPred_eq, List.mem_filter, decide_eq_true_eq]
    constructor
    · rintro ⟨hlt, r, hr, hheight, hunder⟩
      refine ⟨r, ⟨hr, ?_⟩, hheight, hunder⟩
      by_contra hgt
      have hmono := leafPos_strictMono hlt
      have := hunder.1
      exact hn r hr hheight ⟨by omega, by omega⟩
    · rintro ⟨r, ⟨hr, hle⟩, hheight, hunder⟩
      refine ⟨?_, r, hr, hheight, hunder⟩
      by_contra hge
      have hmono := leafPos_strictMono.monotone (Nat.le_of_not_lt hge)
      -- the root stands at the leaf or right behind it, with the leaf under it
      have h4 : 2 ^ 2 ≤ 2 ^ (height r + 1) := Nat.pow_le_pow_right (by decide) (by omega)
      have := hunder.2
      exact hn r hr hheight ⟨by omega, by omega⟩
  have hcard : ∀ r, {m | 1 ≤ height r ∧ Under (leafPos m) r}.ncard =
      if Index.calculateHeight r = 0 then 0 else 2 ^ Index.calculateHeight r := by
    intro r
    rw [Index.calculateHeight]
    split_ifs with hzero
    · simp [hzero]
    · simp only [Nat.one_le_iff_ne_zero, ne_eq, hzero, not_false_iff, true_and]
      exact ncard_leaves_under r
  rw [hset, ncard_exists_mem fun r _ => (finite_leaves_under r).subset fun _ hm => hm.2,
    getLeafShift]
  · simp only [hcard]
  · refine (l.sorted.filter _).imp_of_mem fun {r r'} hr hr' hlt => ?_
    rintro m ⟨-, hm⟩ ⟨-, hm'⟩
    exact hlt.ne (eq_of_under h (List.mem_of_mem_filter hr) (List.mem_of_mem_filter hr') hm hm')

end PruneList

namespace Cached.PruneList

variable {R : Roaring} {l l' : PruneList R} {p r : ℕ}

/-! ### Caches that fit the roots -/

/-- The caches are those that the roots make. -/
structure Synced (l : PruneList R) : Prop where
  /-- `BuildPrunedCache` would build the same bitmap. -/
  cache : R.elements l.prunedCache = R.elements l.buildPrunedCache.prunedCache
  /-- `BuildShiftCaches` would build the same vectors. -/
  shift : l.shiftCache = l.buildShiftCaches.shiftCache
  leafShift : l.leafShiftCache = l.buildShiftCaches.leafShiftCache

theorem shiftCachesFrom_eq (t tl : ℕ) (sc lsc : List ℕ) (ys : List UInt32) :
    shiftCachesFrom t tl sc lsc ys =
      (sc ++ ((ys.map fun y => shiftOf (rootIndex y)).scanl (· + ·) t).tail,
        lsc ++ ((ys.map fun y => leafShiftOf (rootIndex y)).scanl (· + ·) tl).tail) := by
  have hfirst : ∀ (a : ℕ) (ws : List ℕ),
      ws.scanl (· + ·) a = a :: (ws.scanl (· + ·) a).tail := by
    intro a ws
    cases ws <;> simp
  induction ys generalizing t tl sc lsc with
  | nil => simp [shiftCachesFrom]
  | cons y ys ih =>
    rw [shiftCachesFrom, ih, List.map_cons, List.map_cons, List.scanl_cons, List.scanl_cons,
      List.tail_cons, List.tail_cons, List.append_assoc, List.append_assoc]
    rw [hfirst (t + _), hfirst (tl + _)]
    rfl

/-- **The rebuilt sums** are the prefix sums over the roots. -/
theorem buildShiftCaches_shiftCache (l : PruneList R) : l.buildShiftCaches.shiftCache =
    prefixSums ((R.elements l.prunedRoots).map fun y => shiftOf (rootIndex y)) := by
  rw [buildShiftCaches]
  split_ifs with hempty
  · rw [(R.isEmpty_iff _).1 hempty]
    rfl
  · simp only [shiftCachesFrom_eq, List.nil_append]
    rfl

theorem buildShiftCaches_leafShiftCache (l : PruneList R) : l.buildShiftCaches.leafShiftCache =
    prefixSums ((R.elements l.prunedRoots).map fun y => leafShiftOf (rootIndex y)) := by
  rw [buildShiftCaches]
  split_ifs with hempty
  · rw [(R.isEmpty_iff _).1 hempty]
    rfl
  · simp only [shiftCachesFrom_eq, List.nil_append]
    rfl

/-- What the caches hold when they fit. -/
theorem synced_iff : Synced l ↔
    (∀ x, R.contains l.prunedCache x = true ↔ ∃ y ∈ R.elements l.prunedRoots,
      ∃ p, Below p (y.toNat - 1) ∧ x = wirePos (Index.ofPosition p)) ∧
    l.shiftCache = prefixSums ((R.elements l.prunedRoots).map fun y => shiftOf (rootIndex y)) ∧
    l.leafShiftCache =
      prefixSums ((R.elements l.prunedRoots).map fun y => leafShiftOf (rootIndex y)) := by
  have hcache : R.elements l.prunedCache = R.elements l.buildPrunedCache.prunedCache ↔
      ∀ x, R.contains l.prunedCache x = true ↔ ∃ y ∈ R.elements l.prunedRoots,
        ∃ p, Below p (y.toNat - 1) ∧ x = wirePos (Index.ofPosition p) := by
    constructor
    · intro heq x
      rw [R.contains_iff, heq, ← R.contains_iff, contains_buildPrunedCache]
      simp only [R.contains_iff]
    · refine fun h => Roaring.elements_eq_of_contains fun x => ?_
      rw [h, contains_buildPrunedCache]
      simp only [R.contains_iff]
  rw [← hcache, ← buildShiftCaches_shiftCache, ← buildShiftCaches_leafShiftCache]
  exact ⟨fun h => ⟨h.cache, h.shift, h.leafShift⟩, fun h => ⟨h.1, h.2.1, h.2.2⟩⟩

theorem synced_rebuildCaches (l : PruneList R) : Synced l.rebuildCaches := by
  rw [synced_iff, rebuildCaches_prunedRoots, rebuildCaches_prunedCache]
  refine ⟨fun x => ?_, ?_, ?_⟩
  · rw [contains_buildPrunedCache]
    simp only [R.contains_iff]
  · rw [rebuildCaches, buildShiftCaches_shiftCache, buildPrunedCache_prunedRoots]
  · rw [rebuildCaches, buildShiftCaches_leafShiftCache, buildPrunedCache_prunedRoots]

/-- The flag has no part in it. -/
theorem Synced.withDirty (h : Synced l) (dirty : Bool) :
    Synced { l with dirty := dirty } := by
  rw [synced_iff] at h ⊢
  exact h

theorem synced_load {file : Option R.Bytes} (h : load file = some l) : Synced l := by
  rcases file with _ | data
  · obtain rfl := Option.some.inj h
    rw [synced_iff]
    simp [ofRoots, R.elements_empty, prefixSums]
  · obtain ⟨prunedRoots, -, rfl⟩ := Option.map_eq_some_iff.1 h
    exact synced_rebuildCaches _

theorem synced_rollback (h : Synced l) : Synced l.rollback := by
  rw [rollback]
  split
  · split
    · exact (synced_rebuildCaches _).withDirty false
    · exact h
  · exact (synced_rebuildCaches _).withDirty false

/-- **Adding a root** keeps the caches in step, by appending as well as by rebuilding. -/
theorem Synced.addPrunedRoot (h : Synced l) (hr : r + 1 < 2 ^ 32) :
    Synced (l.addPrunedRoot (Index.ofPosition r)) := by
  rw [PruneList.addPrunedRoot]
  dsimp only
  split_ifs with hcontained happend
  · exact h
  · have hwire := toNat_wirePos (i := Index.ofPosition r) hr
    have hroot : rootIndex (wirePos (Index.ofPosition r)) = Index.ofPosition r := by
      rw [rootIndex, hwire]
      rfl
    have hlast : ∀ x ∈ R.elements l.prunedRoots,
        x.toNat < (wirePos (Index.ofPosition r)).toNat := by
      intro x hx
      rw [Bool.or_eq_true, R.isEmpty_iff, decide_eq_true_eq] at happend
      rw [hwire]
      rcases happend with hnil | hmax
      · rw [hnil] at hx
        exact absurd hx List.not_mem_nil
      · exact lt_of_le_of_lt (Roaring.le_maximum hx) hmax
    obtain ⟨hcache, hshift, hleafShift⟩ := synced_iff.1 h
    rw [synced_iff]
    refine ⟨fun x => ?_, ?_, ?_⟩
    · change R.contains (addRootToPrunedCache (Index.ofPosition r) l.prunedCache) x = true ↔
        ∃ y ∈ R.elements (R.add l.prunedRoots (wirePos (Index.ofPosition r))), _
      rw [contains_addRootToPrunedCache, hcache, Roaring.elements_add_of_lt hlast]
      simp only [List.mem_append, List.mem_singleton, or_and_right, exists_or, exists_eq_left,
        hwire]
      rfl
    · change l.shiftCache ++ [l.shiftCache.getLastD 0 + shiftOf (Index.ofPosition r)] =
        prefixSums ((R.elements (R.add l.prunedRoots (wirePos (Index.ofPosition r)))).map _)
      rw [Roaring.elements_add_of_lt hlast, List.map_append, List.map_singleton,
        prefixSums_append, ← hshift, hroot]
    · change l.leafShiftCache ++
          [l.leafShiftCache.getLastD 0 + leafShiftOf (Index.ofPosition r)] =
        prefixSums ((R.elements (R.add l.prunedRoots (wirePos (Index.ofPosition r)))).map _)
      rw [Roaring.elements_add_of_lt hlast, List.map_append, List.map_singleton,
        prefixSums_append, ← hleafShift, hroot]
  · exact synced_rebuildCaches _

theorem addFrom_dirty {fuel : ℕ} {i : Index} (h : addFrom fuel i l = some l') :
    l'.dirty = l.dirty := by
  induction fuel generalizing i l with
  | zero => cases h
  | succ fuel ih =>
    rw [addFrom] at h
    split_ifs at h
    · have hdirty := ih h
      exact hdirty
    · obtain rfl := Option.some.inj h
      rfl

/-- **Until the next flush** the caches may lag behind, and then the list knows. -/
theorem dirty_or_synced_of_run {ops : List Op} (h : l.dirty = true ∨ Synced l)
    (hrun : l.run ops = some l') : l'.dirty = true ∨ Synced l' := by
  induction ops generalizing l with
  | nil =>
    obtain rfl := Option.some.inj hrun
    exact h
  | cons op ops ih =>
    cases op with
    | add leafIndex =>
      obtain ⟨l₁, hadd, hrest⟩ := Option.bind_eq_some_iff.1 hrun
      exact ih (.inl (addFrom_dirty hadd)) hrest
    | flush =>
      refine ih ?_ hrun
      cases hdirty : l.dirty with
      | true =>
        rw [flush_of_dirty hdirty]
        exact .inr ((synced_rebuildCaches _).withDirty false)
      | false =>
        rw [flush_of_not_dirty hdirty]
        exact h

theorem synced_flush (h : l.dirty = true ∨ Synced l) : Synced l.flush := by
  cases hdirty : l.dirty with
  | true =>
    rw [flush_of_dirty hdirty]
    exact (synced_rebuildCaches _).withDirty false
  | false =>
    rw [flush_of_not_dirty hdirty]
    exact h.resolve_left (by simp [hdirty])

/-- How a prune list comes about: it is loaded, leaves are added and flushed, roots are added in
any order, and it is rolled back. -/
inductive Built : PruneList R → Prop
  | load {file : Option R.Bytes} {l : PruneList R} (h : load file = some l) : Built l
  | addLeaves {l l' : PruneList R} {ops : List Op} (h : Built l) (hrun : l.run ops = some l') :
    Built l'.flush
  | addPrunedRoot {l : PruneList R} {r : ℕ} (h : Built l) (hr : r + 1 < 2 ^ 32) :
    Built (l.addPrunedRoot (Index.ofPosition r))
  | rollback {l : PruneList R} (h : Built l) : Built l.rollback

theorem Built.synced (h : Built l) : Synced l := by
  induction h with
  | load h => exact synced_load h
  | addLeaves h hrun ih => exact synced_flush (dirty_or_synced_of_run (.inr ih) hrun)
  | addPrunedRoot h hr ih => exact ih.addPrunedRoot hr
  | rollback h ih => exact synced_rollback ih

/-! ### The list behind the bitmaps -/

/-- The roots are one-based positions. -/
def OneBased (l : PruneList R) : Prop :=
  ∀ x ∈ R.elements l.prunedRoots, 0 < x.toNat

/-- No root is under another one. -/
def Apart (l : PruneList R) : Prop :=
  ∀ x ∈ R.elements l.prunedRoots, ∀ y ∈ R.elements l.prunedRoots,
    Below (x.toNat - 1) (y.toNat - 1) → x = y

/-- The list of roots that the bitmap stands for. -/
def view (l : PruneList R) (h : OneBased l) : GrinPlusPlus.PruneList where
  prunedRoots := (R.elements l.prunedRoots).map fun x => x.toNat - 1
  sorted := by
    refine List.pairwise_map.2 ((R.elements_ascend l.prunedRoots).imp_of_mem ?_)
    intro x y hx _ hlt
    have := h x hx
    omega

variable (h : OneBased l)

theorem mem_view : r ∈ (l.view h).prunedRoots ↔
    r + 1 < 2 ^ 32 ∧ l.isPrunedRoot (Index.ofPosition r) = true := by
  rw [view, List.mem_map, isPrunedRoot, R.contains_iff]
  constructor
  · rintro ⟨x, hx, rfl⟩
    have hpos := h x hx
    have hlt := x.toNat_lt
    have hwire : wirePos (Index.ofPosition (x.toNat - 1)) = x := by
      rw [← UInt32.toNat_inj, toNat_wirePos (by change x.toNat - 1 + 1 < 2 ^ 32; omega)]
      change x.toNat - 1 + 1 = x.toNat
      omega
    exact ⟨by omega, by rwa [hwire]⟩
  · rintro ⟨hlt, hx⟩
    refine ⟨_, hx, ?_⟩
    rw [toNat_wirePos hlt]
    rfl

theorem Apart.view (ha : l.Apart) : (l.view h).Apart := by
  intro r hr r' hr' hunder
  obtain ⟨x, hx, rfl⟩ := List.mem_map.1 hr
  obtain ⟨y, hy, rfl⟩ := List.mem_map.1 hr'
  rw [ha x hx y hy (below_iff_under.2 hunder)]

theorem isPruned_view (hs : Synced l) (hp : p + 1 < 2 ^ 32) :
    l.isPruned (Index.ofPosition p) = (l.view h).isPruned p := by
  rw [Bool.eq_iff_iff, GrinPlusPlus.PruneList.isPruned_iff_under, isPruned, (synced_iff.1 hs).1]
  constructor
  · rintro ⟨y, hy, q, hbelow, heq⟩
    have hunder := below_iff_under.1 hbelow
    have hlt := y.toNat_lt
    have hpos := h y hy
    have hpq : p = q := (wirePos_inj hp (by
      change q + 1 < 2 ^ 32
      have := hunder.2
      omega)).1 heq
    exact ⟨_, List.mem_map_of_mem hy, hpq ▸ hunder⟩
  · rintro ⟨r, hr, hunder⟩
    obtain ⟨y, hy, rfl⟩ := List.mem_map.1 hr
    exact ⟨y, hy, p, below_iff_under.2 hunder, rfl⟩

theorem isCompacted_view (hs : Synced l) (hp : p + 1 < 2 ^ 32) :
    l.isCompacted (Index.ofPosition p) = (l.view h).isCompacted p := by
  have hroot : l.isPrunedRoot (Index.ofPosition p) = (l.view h).isPrunedRoot p := by
    rw [Bool.eq_iff_iff, GrinPlusPlus.PruneList.isPrunedRoot, List.contains_iff_mem, mem_view]
    exact (and_iff_right hp).symm
  rw [isCompacted, isPruned_view h hs hp, hroot, GrinPlusPlus.PruneList.isCompacted]

/-- Up to a rank stands what a filter of the positions keeps. -/
theorem lookup_rank (w : ℕ → ℕ) (hp : p + 1 < 2 ^ 32) :
    lookup (prefixSums ((R.elements l.prunedRoots).map fun y => w (y.toNat - 1)))
        (R.rank l.prunedRoots (wirePos (Index.ofPosition p))) =
      (((l.view h).prunedRoots.filter (· ≤ p)).map w).sum := by
  have hwire : (wirePos (Index.ofPosition p)).toNat = p + 1 := toNat_wirePos hp
  rw [R.rank_eq, lookup_countP, view, List.filter_map, List.map_map]
  · congr 2
    refine List.filter_congr fun y _ => ?_
    rw [hwire, Function.comp_apply, Bool.eq_iff_iff, decide_eq_true_eq, decide_eq_true_eq]
    omega
  · refine (R.elements_ascend l.prunedRoots).imp fun {x y} hlt hy => ?_
    rw [decide_eq_true_eq] at hy ⊢
    omega

theorem getShift_view (hs : Synced l) (hp : p + 1 < 2 ^ 32) :
    l.getShift (Index.ofPosition p) = (l.view h).getShift p := by
  have hlookup : lookup
      (prefixSums ((R.elements l.prunedRoots).map fun y => shiftOf (rootIndex y)))
      (R.rank l.prunedRoots (wirePos (Index.ofPosition p))) = (l.view h).getShift p :=
    lookup_rank h (fun r => 2 * (2 ^ Index.calculateHeight r - 1)) hp
  rw [← hlookup, getShift, (synced_iff.1 hs).2.1]
  split_ifs with hempty hnil
  · rw [(R.isEmpty_iff _).1 hempty]
    simp [lookup_prefixSums]
  · rw [List.isEmpty_iff.1 hnil]
    simp [lookup]
  · rfl

theorem getLeafShift_view (hs : Synced l) (hp : p + 1 < 2 ^ 32) :
    l.getLeafShift (Index.ofPosition p) = (l.view h).getLeafShift p := by
  have hlookup : lookup
      (prefixSums ((R.elements l.prunedRoots).map fun y => leafShiftOf (rootIndex y)))
      (R.rank l.prunedRoots (wirePos (Index.ofPosition p))) = (l.view h).getLeafShift p :=
    lookup_rank h
      (fun r => if Index.calculateHeight r = 0 then 0 else 2 ^ Index.calculateHeight r) hp
  rw [← hlookup, getLeafShift, (synced_iff.1 hs).2.2]
  dsimp only
  split_ifs with hempty hzero hnil hlt
  · rw [(R.isEmpty_iff _).1 hempty]
    simp [lookup_prefixSums]
  · rw [lookup, if_pos hzero]
  · rw [List.isEmpty_iff.1 hnil]
    simp [lookup]
  · rw [lookup, if_neg hzero, if_pos hlt]
  · rw [lookup, if_neg hzero, if_neg hlt]

/-- The total is asked for one number behind the last root, which has to fit as well. -/
theorem getTotalShift_view (hs : Synced l)
    (hlast : ∀ x ∈ R.elements l.prunedRoots, x.toNat + 1 < 2 ^ 32) :
    l.getTotalShift = (l.view h).getTotalShift := by
  have hmax : (R.maximum l.prunedRoots).toNat + 1 < 2 ^ 32 := by
    rw [R.maximum_eq]
    rcases (R.elements l.prunedRoots).eq_nil_or_concat with hnil | ⟨init, y, hconcat⟩
    · rw [hnil]
      decide
    · rw [List.concat_eq_append] at hconcat
      have hy := hlast y (by rw [hconcat]; simp)
      rwa [hconcat, List.getLastD_concat]
  have hall : (l.view h).prunedRoots.filter (· ≤ (R.maximum l.prunedRoots).toNat) =
      (l.view h).prunedRoots := by
    refine List.filter_eq_self.2 fun r hr => ?_
    obtain ⟨x, hx, rfl⟩ := List.mem_map.1 hr
    have := Roaring.le_maximum hx
    rw [decide_eq_true_eq]
    omega
  rw [getTotalShift, getShift_view h hs hmax, GrinPlusPlus.PruneList.getShift, hall]
  rfl

/-! ### What the sums count -/

omit h in
/-- **The shifts count what is missing.** -/
theorem getShift_counts (hb : Built l) (h : OneBased l) (ha : Apart l) :
    (∀ p, p + 1 < 2 ^ 32 → l.isCompacted (Index.ofPosition p) = false →
      l.getShift (Index.ofPosition p) =
        {q | q < p ∧ l.isCompacted (Index.ofPosition q) = true}.ncard) ∧
    ((∀ x ∈ R.elements l.prunedRoots, x.toNat + 1 < 2 ^ 32) → l.getTotalShift =
      {q | q + 1 < 2 ^ 32 ∧ l.isCompacted (Index.ofPosition q) = true}.ncard) ∧
    (∀ n, leafPos n + 2 < 2 ^ 32 →
      (∀ r, r + 1 < 2 ^ 32 → l.isPrunedRoot (Index.ofPosition r) = true → 1 ≤ height r →
        ¬Below (leafPos n) r) →
      ∀ p, p = leafPos n ∨ p = leafPos n + 1 → l.getLeafShift (Index.ofPosition p) =
        {m | m < n ∧ ∃ r, r + 1 < 2 ^ 32 ∧ l.isPrunedRoot (Index.ofPosition r) = true ∧
          1 ≤ height r ∧ Below (leafPos m) r}.ncard) ∧
    ∀ r, r + 1 < 2 ^ 32 → Synced (l.addPrunedRoot (Index.ofPosition r)) := by
  have hs := hb.synced
  have hapart := ha.view h
  refine ⟨fun p hp hnot => ?_, fun hlast => ?_, fun n hn hnone p hp => ?_,
    fun r hr => hs.addPrunedRoot hr⟩
  · rw [isCompacted_view h hs hp] at hnot
    rw [getShift_view h hs hp, hapart.getShift_eq hnot]
    congr 1
    ext q
    simp only [Set.mem_ofPred_eq]
    exact and_congr_right fun hlt => by rw [isCompacted_view h hs (by omega)]
  · rw [getTotalShift_view h hs hlast, hapart.getTotalShift_eq]
    congr 1
    ext q
    simp only [Set.mem_ofPred_eq]
    constructor
    · intro hq
      have hlt : q + 1 < 2 ^ 32 := by
        obtain ⟨r, hr, hunder, -⟩ := hapart.isCompacted_iff.1 hq
        have := (mem_view h).1 hr
        have := hunder.2
        omega
      exact ⟨hlt, by rwa [isCompacted_view h hs hlt]⟩
    · rintro ⟨hlt, hq⟩
      rwa [isCompacted_view h hs hlt] at hq
  · have hp' : p + 1 < 2 ^ 32 := by omega
    rw [getLeafShift_view h hs hp', hapart.getLeafShift_eq (n := n) _ hp]
    · congr 1
      ext m
      simp only [Set.mem_ofPred_eq, mem_view, below_iff_under, and_assoc]
    · intro r hr hheight hunder
      obtain ⟨hlt, hroot⟩ := (mem_view h).1 hr
      exact hnone r hlt hroot hheight (below_iff_under.2 hunder)

/-- Three roots in disorder: a rebuild in the middle, an append at the end. -/
def threeRoots : PruneList .ascending :=
  (((ofRoots none Roaring.ascending.empty).addPrunedRoot (Index.ofPosition 9)).addPrunedRoot
    (Index.ofPosition 2)).addPrunedRoot (Index.ofPosition 10)

theorem built_threeRoots : Built threeRoots :=
  (((@Built.load _ none _ rfl).addPrunedRoot (by decide)).addPrunedRoot
    (by decide)).addPrunedRoot (by decide)

theorem elements_threeRoots :
    Roaring.ascending.elements threeRoots.prunedRoots = [3, 10, 11] := by
  decide +kernel

theorem apart_threeRoots : Apart threeRoots := by
  rw [Apart, elements_threeRoots]
  simp only [List.forall_mem_cons, List.not_mem_nil, IsEmpty.forall_iff, implies_true, and_true,
    below_iff_under, Under]
  decide +kernel

theorem getShift_counts_threeRoots : threeRoots.getShift (Index.ofPosition 10) = 4 ∧
    {q | q < 10 ∧ threeRoots.isCompacted (Index.ofPosition q) = true}.ncard = 4 := by
  have h : ∀ x ∈ Roaring.ascending.elements threeRoots.prunedRoots, 0 < x.toNat := by
    rw [elements_threeRoots]
    simp
  have hcounts := (getShift_counts built_threeRoots h apart_threeRoots).1 10 (by decide)
    (by decide +kernel)
  have hshift : threeRoots.getShift (Index.ofPosition 10) = 4 := by decide +kernel
  exact ⟨hshift, hcounts.symm.trans hshift⟩

/-- Behind position `2 ^ 32 - 2` the ranks begin anew. -/
theorem not_getShift_counts : ¬∀ l : PruneList .ascending, Built l → Apart l →
    ∀ p < 2 ^ 64 - 1, l.isCompacted (Index.ofPosition p) = false →
      l.getShift (Index.ofPosition p) =
        {q | q < p ∧ l.isCompacted (Index.ofPosition q) = true}.ncard := by
  intro hall
  have hzero : threeRoots.getShift (Index.ofPosition (2 ^ 32 - 1)) = 0 := by decide +kernel
  have hcounts := hall threeRoots built_threeRoots apart_threeRoots (2 ^ 32 - 1) (by decide)
    (by decide +kernel)
  have hmem : 0 ∈ {q | q < 2 ^ 32 - 1 ∧ threeRoots.isCompacted (Index.ofPosition q) = true} :=
    ⟨by decide, by decide +kernel⟩
  have hfin : {q | q < 2 ^ 32 - 1 ∧
      threeRoots.isCompacted (Index.ofPosition q) = true}.Finite :=
    (Set.finite_Iio (2 ^ 32 - 1)).subset fun _ hq => hq.1
  rw [hzero, eq_comm, Set.ncard_eq_zero hfin] at hcounts
  rw [hcounts] at hmem
  exact hmem

end Cached.PruneList

end GrinPlusPlus
