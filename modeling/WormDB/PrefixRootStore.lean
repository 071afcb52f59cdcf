import WormDB.PrefixRoot
import WormDB.MerkleTree
import WormDB.ScanView
import Mathlib.Data.List.Permutation

/-! # Prefix roots of stores

`prefix_root.compute` as it runs on a store: over what `scanPrefixFirst` returns from the
shards and the mounted segments, with the levels of the tree in one buffer.

The root is binding for what was scanned (`compute_root_eq_iff`): leaves, inner nodes and the
root of nothing are hashed under names of their own, so equal roots come from equal trees,
whatever the numbers of entries.  It is canonical for what is visible as far as the scan is,
which returns a key once for every mount that has it.  `prefix_root_iff` is the exact
condition. -/
namespace WormDB
open List ByteCodec PrefixMap
open Overlay (frozenMatches live mount scanPrefixCut_eq view)
namespace PrefixRoot
open Mmr (CollisionFree evalSha256 collisionFree_of_nodup)

/-! ## The computation -/

/-- A scanned entry, as it is hashed. -/
def entryOf (r : ScanResult) : Bytes × Content := (r.key, ⟨r.value, r.timestamp, r.isWorm⟩)

section
variable (sha256 : Bytes → Hash)

def emptyPreimage (pre : Bytes) : Bytes := emptyDomain ++ lenBytes pre

/-- `merkleRoot` on a copy of the leaves. -/
def merkleRootInPlace (pre : Bytes) (leaves : List Hash) : Option Hash :=
  if leaves.length = 0 then some (sha256 (emptyPreimage pre))
  else MerkleList.rootInPlace (nodeHash sha256) leaves

def computeStoreInternal (sort : KeySort) (store : Overlay) (pre : Bytes)
    (firstLimit : Option Nat) : Option Summary :=
  if firstLimit = some 0 then do
    let root ← merkleRootInPlace sha256 pre []
    return ⟨0, root⟩
  else do
    let results ← Overlay.scanPrefixFirst sort store pre (firstLimit.getD 0)
    let root ← merkleRootInPlace sha256 pre (results.map (fun r => leafHash sha256 (entryOf r)))
    return ⟨results.length, root⟩

def computeStore (sort : KeySort) (store : Overlay) (pre : Bytes) (firstLimit : Nat) :
    Option Summary :=
  computeStoreInternal sha256 sort store pre (if firstLimit = 0 then none else some firstLimit)

/-- What is hashed for the root over the scanned entries. -/
def scanInputs (pre : Bytes) (rs : List ScanResult) : List Bytes :=
  emptyPreimage pre :: (rs.map (fun r => leafPreimage (entryOf r)) ++
    (MerkleList.rootPairs (nodeHash sha256) (rs.map (fun r => leafHash sha256 (entryOf r)))).map
      (fun p => nodePreimage p.1 p.2))

/-- What is hashed for the root of a store over the whole prefix. -/
def storeInputs (sort : KeySort) (store : Overlay) (pre : Bytes) : List Bytes :=
  match Overlay.scanPrefixFirst sort store pre 0 with
  | some rs => scanInputs sha256 pre rs
  | none => []

theorem merkleRootInPlace_eq (pre : Bytes) (leaves : List Hash) :
    merkleRootInPlace sha256 pre leaves = some (merkleRoot sha256 pre leaves) := by
  cases leaves with
  | nil => rfl
  | cons first rest => exact MerkleList.rootInPlace_eq first rest

theorem computeStore_eq {sort : KeySort} {store : Overlay} {pre : Bytes} {rs : List ScanResult}
    (h : Overlay.scanPrefixFirst sort store pre 0 = some rs) :
    computeStore sha256 sort store pre 0 = some ⟨rs.length,
      merkleRoot sha256 pre (rs.map (fun r => leafHash sha256 (entryOf r)))⟩ := by
  rw [computeStore, if_pos rfl, computeStoreInternal, if_neg (by simp), Option.getD_none, h]
  dsimp only [Option.bind_eq_bind, Option.bind_some]
  rw [merkleRootInPlace_eq]
  rfl

end

/-! ## The root fixes what was scanned -/

/-- Keys and values are slices: their lengths are 64-bit numbers. -/
def FitsScan (rs : List ScanResult) : Prop :=
  ∀ r ∈ rs, r.key.length < 2 ^ 64 ∧ r.value.length < 2 ^ 64

variable {r : ScanResult}

theorem entryOf_inj {r' : ScanResult} (h : entryOf r = entryOf r') : r = r' := by
  obtain ⟨key, value, timestamp, isWorm⟩ := r
  obtain ⟨key', value', timestamp', isWorm'⟩ := r'
  obtain ⟨rfl, hcontent⟩ := Prod.mk.inj h
  cases hcontent
  rfl

/-- The names differ before they end. -/
theorem take_domain {domain rest : Bytes} (h : 20 ≤ domain.length) :
    (domain ++ rest).take 20 = domain.take 20 := take_append_of_le_length h

theorem leafPreimage_ne_node (e : Bytes × Content) (a b : Hash) :
    leafPreimage e ≠ nodePreimage a b := by
  intro h
  have htake := congrArg (List.take 20) h
  rw [leafPreimage, nodePreimage, take_domain (by decide), take_domain (by decide)] at htake
  exact absurd htake (by decide)

theorem leafPreimage_ne_empty (e : Bytes × Content) (pre : Bytes) :
    leafPreimage e ≠ emptyPreimage pre := by
  intro h
  have htake := congrArg (List.take 20) h
  rw [leafPreimage, emptyPreimage, take_domain (by decide), take_domain (by decide)] at htake
  exact absurd htake (by decide)

theorem nodePreimage_ne_empty (a b : Hash) (pre : Bytes) :
    nodePreimage a b ≠ emptyPreimage pre := by
  intro h
  have htake := congrArg (List.take 20) h
  rw [nodePreimage, emptyPreimage, take_domain (by decide), take_domain (by decide)] at htake
  exact absurd htake (by decide)

variable {sha256 : Bytes → Hash}

/-- The root over some entries. -/
def scanRoot (sha256 : Bytes → Hash) (pre : Bytes) (rs : List ScanResult) : Hash :=
  merkleRoot sha256 pre (rs.map (fun r => leafHash sha256 (entryOf r)))

variable {rs : List ScanResult}

theorem leafPreimage_mem (pre : Bytes) (h : r ∈ rs) :
    leafPreimage (entryOf r) ∈ scanInputs sha256 pre rs :=
  mem_cons_of_mem _ (mem_append_left _ (mem_map_of_mem h))

theorem nodePreimage_mem (pre : Bytes) {q : Hash × Hash}
    (h : q ∈ MerkleList.rootPairs (nodeHash sha256)
      (rs.map (fun r => leafHash sha256 (entryOf r)))) :
    nodePreimage q.1 q.2 ∈ scanInputs sha256 pre rs :=
  mem_cons_of_mem _ (mem_append_right _
    (mem_map_of_mem (f := fun p : Hash × Hash => nodePreimage p.1 p.2) h))

theorem exists_of_leaf_mem {a : Hash}
    (h : a ∈ leafHash sha256 (entryOf r) :: rs.map (fun r => leafHash sha256 (entryOf r))) :
    ∃ e ∈ r :: rs, leafHash sha256 (entryOf e) = a :=
  mem_map.mp (show a ∈ (r :: rs).map (fun r => leafHash sha256 (entryOf r)) from h)

variable {pre : Bytes}

/-- The root of some entries is not that of none. -/
theorem scanRoot_ne_empty (hfree : ∀ x ∈ scanInputs sha256 pre (r :: rs),
      sha256 x = sha256 (emptyPreimage pre) → x = emptyPreimage pre) :
    scanRoot sha256 pre (r :: rs) ≠ sha256 (emptyPreimage pre) := by
  intro h
  rcases @MerkleList.root_cases Hash (nodeHash sha256) (leafHash sha256 (entryOf r))
    (rs.map (fun r => leafHash sha256 (entryOf r))) with hitem | ⟨q, hq, hnode⟩
  · obtain ⟨r', hr', hleaf⟩ := exists_of_leaf_mem hitem
    exact leafPreimage_ne_empty _ _ (hfree _ (leafPreimage_mem pre hr') (hleaf.trans h))
  · exact nodePreimage_ne_empty _ _ _ (hfree _ (nodePreimage_mem pre hq) (hnode.symm.trans h))

/-- **Equal roots come from equal scans**, when nothing that is hashed for them collides. -/
theorem scanRoot_inj {rs' : List ScanResult} (hfits : FitsScan rs) (hfits' : FitsScan rs')
    (hfree : CollisionFree sha256 (scanInputs sha256 pre rs ++ scanInputs sha256 pre rs'))
    (h : scanRoot sha256 pre rs = scanRoot sha256 pre rs') : rs = rs' := by
  have hleft : ∀ {x}, x ∈ scanInputs sha256 pre rs →
      x ∈ scanInputs sha256 pre rs ++ scanInputs sha256 pre rs' :=
    fun hx => mem_append_left _ hx
  have hright : ∀ {x}, x ∈ scanInputs sha256 pre rs' →
      x ∈ scanInputs sha256 pre rs ++ scanInputs sha256 pre rs' :=
    fun hx => mem_append_right _ hx
  have hempty : ∀ rs, emptyPreimage pre ∈ scanInputs sha256 pre rs := fun _ => mem_cons_self
  rcases rs with _ | ⟨r, rs⟩
  · rcases rs' with _ | ⟨r', rs'⟩
    · rfl
    · refine absurd h.symm (scanRoot_ne_empty (fun x hx heq => ?_))
      exact hfree x (hright hx) _ (hleft (hempty _)) heq
  rcases rs' with _ | ⟨r', rs'⟩
  · refine absurd h (scanRoot_ne_empty (fun x hx heq => ?_))
    exact hfree x (hleft hx) _ (hright (hempty _)) heq
  have hleaves : (r :: rs).map (fun r => leafHash sha256 (entryOf r)) =
      (r' :: rs').map (fun r => leafHash sha256 (entryOf r)) := by
    refine MerkleList.root_inj_of_separated (fun p hp q hq heq => ?_) (fun a ha q hq heq => ?_)
      (fun b hb p hp heq => ?_) h
    · exact nodePreimage_inj (hfree _ (hleft (nodePreimage_mem pre hp)) _
        (hright (nodePreimage_mem pre hq)) heq)
    · obtain ⟨e, he, rfl⟩ := exists_of_leaf_mem ha
      exact leafPreimage_ne_node _ _ _ (hfree _ (hleft (leafPreimage_mem pre he)) _
        (hright (nodePreimage_mem pre hq)) heq)
    · obtain ⟨e, he, rfl⟩ := exists_of_leaf_mem hb
      exact leafPreimage_ne_node _ _ _ (hfree _ (hright (leafPreimage_mem pre he)) _
        (hleft (nodePreimage_mem pre hp)) heq)
  have hentries : (r :: rs).map entryOf = (r' :: rs').map entryOf := by
    refine @map_leafHash_inj sha256 _ _ (fun x hx y hy heq => ?_) ?_
    · obtain ⟨e, he, rfl⟩ := mem_map.mp hx
      obtain ⟨e', he', rfl⟩ := mem_map.mp hy
      exact leafPreimage_inj (hfits e he) (hfits' e' he')
        (hfree _ (hleft (leafPreimage_mem pre he)) _ (hright (leafPreimage_mem pre he')) heq)
    · rw [map_map, map_map]
      exact hleaves
  exact map_injective_iff.mpr (fun _ _ => entryOf_inj) hentries

/-! ## Stores -/

/-- The visible entries with the prefix are the same: key, value, WORM flag and timestamp. -/
def SameVisible (a b : Overlay) (pre : Bytes) : Prop :=
  ∀ key, pre <+: key → a.visible key = b.visible key

variable {a b : Overlay}

theorem sameVisible_iff_view : SameVisible a b pre ↔ a.view pre = b.view pre := by
  constructor
  · intro h
    have hscan : a.merged.scan pre = b.merged.scan pre := by
      refine ByteMap.scan_eq (b.merged.ascending.filter _) (fun key v => ?_)
      rw [ByteMap.mem_scan_iff, a.merged_get, b.merged_get]
      exact and_congr_right (fun hp => by rw [h key hp])
    rw [view, view, hscan]
  · intro h key hp
    refine Option.ext (fun content => ?_)
    have hmem : ∀ o : Overlay, o.visible key = some content ↔
        (⟨key, content.value, content.timestamp, content.isWorm⟩ : ScanResult) ∈ o.view pre := by
      intro o
      rw [o.mem_view]
      exact ⟨fun hv => ⟨hp, hv⟩, And.right⟩
    rw [hmem a, hmem b, h]

/-- The lengths of everything a scan of the store can return. -/
def FitsStore (store : Overlay) (pre : Bytes) : Prop := FitsScan (store.collected pre)

/-- The scan of the whole prefix. -/
theorem exists_scan (sort : KeySort) (store : Overlay) (pre : Bytes) :
    ∃ rs, Overlay.scanPrefixFirst sort store pre 0 = some rs ∧
      rs.Perm (store.collected pre) := by
  exact ⟨_, store.scanPrefixCut_all pre sort .first,
    (sort.perm _).trans (store.gathered_perm pre)⟩

/-- **The root is binding for the scan.** -/
theorem compute_root_eq_iff (sort : KeySort) (ha : FitsStore a pre) (hb : FitsStore b pre)
    (hfree : CollisionFree sha256 (storeInputs sha256 sort a pre ++ storeInputs sha256 sort b pre)) :
    (computeStore sha256 sort a pre 0).map Summary.root =
        (computeStore sha256 sort b pre 0).map Summary.root ↔
      Overlay.scanPrefixFirst sort a pre 0 = Overlay.scanPrefixFirst sort b pre 0 := by
  obtain ⟨rs, hrs, hperm⟩ := exists_scan sort a pre
  obtain ⟨rs', hrs', hperm'⟩ := exists_scan sort b pre
  rw [storeInputs, storeInputs, hrs, hrs'] at hfree
  rw [computeStore_eq sha256 hrs, computeStore_eq sha256 hrs', hrs, hrs']
  constructor
  · intro h
    refine congrArg some (scanRoot_inj ?_ ?_ hfree (Option.some.inj h))
    · exact fun r hr => ha r (hperm.mem_iff.mp hr)
    · exact fun r hr => hb r (hperm'.mem_iff.mp hr)
  · intro h
    rw [Option.some.inj h]

/-- A store whose mounts share a key is scanned as no other store is visible. -/
theorem scan_ne_of_shared (sort : KeySort) (ha : a.FrozenOnce pre) (hb : ¬b.FrozenOnce pre) :
    Overlay.scanPrefixFirst sort a pre 0 ≠ Overlay.scanPrefixFirst sort b pre 0 := by
  intro h
  obtain ⟨rs, hrs, hperm⟩ := exists_scan sort b pre
  have hview := scanPrefixCut_eq sort a pre ha 0 .first
  have hsame : some (firstOf 0 (a.view pre)) = some rs := hview.symm.trans (h.trans hrs)
  rw [firstOf, if_pos rfl, Option.some.injEq] at hsame
  apply hb
  rw [← b.collected_distinct_iff pre]
  refine (hperm.pairwise_iff (fun hne => Ne.symm hne)).mp ?_
  rw [← hsame]
  refine (a.view_ascending pre).imp ?_
  intro x y hlt heq
  exact List.lt_irrefl _ (heq ▸ hlt)

theorem scan_eq_iff_of_once (sort : KeySort) (ha : a.FrozenOnce pre) (hb : b.FrozenOnce pre) :
    Overlay.scanPrefixFirst sort a pre 0 = Overlay.scanPrefixFirst sort b pre 0 ↔
      SameVisible a b pre := by
  have hviewa : Overlay.scanPrefixFirst sort a pre 0 = some (a.view pre) :=
    scanPrefixCut_eq sort a pre ha 0 .first
  have hviewb : Overlay.scanPrefixFirst sort b pre 0 = some (b.view pre) :=
    scanPrefixCut_eq sort b pre hb 0 .first
  rw [hviewa, hviewb, Option.some.injEq, sameVisible_iff_view]

/-- When two prefix roots compare the visible entries. -/
def Comparable (sort : KeySort) (a b : Overlay) (pre : Bytes) : Prop :=
  (a.FrozenOnce pre ∧ b.FrozenOnce pre) ∨
    ((a.FrozenOnce pre ↔ ¬b.FrozenOnce pre) ∧ ¬SameVisible a b pre) ∨
    ((¬a.FrozenOnce pre ∧ ¬b.FrozenOnce pre) ∧
      (sort.run (a.gathered pre) = sort.run (b.gathered pre) ↔ SameVisible a b pre))

/-- **When equal roots are equal visible entries.**  Always for stores without a key, not
live, in two mounts; between such a store and one that has such a key the roots differ
whatever is visible; between two stores that have one they compare everything the shards and
the mounts have, in sorted order. -/
theorem prefix_root_iff (sort : KeySort) (a b : Overlay) (pre : Bytes) (ha : FitsStore a pre)
    (hb : FitsStore b pre)
    (hfree : CollisionFree sha256
      (storeInputs sha256 sort a pre ++ storeInputs sha256 sort b pre)) :
    ((computeStore sha256 sort a pre 0).map Summary.root =
        (computeStore sha256 sort b pre 0).map Summary.root ↔ SameVisible a b pre) ↔
      Comparable sort a b pre := by
  rw [compute_root_eq_iff sort ha hb hfree, Comparable]
  by_cases hfa : a.FrozenOnce pre
  · by_cases hfb : b.FrozenOnce pre
    · have hscan := scan_eq_iff_of_once sort hfa hfb
      exact ⟨fun _ => .inl ⟨hfa, hfb⟩, fun _ => hscan⟩
    · have hne := scan_ne_of_shared sort hfa hfb
      simp only [hfa, hfb, hne, and_false, not_false_eq_true, false_iff, not_true_eq_false,
        false_and, or_false, false_or, true_and]
  · by_cases hfb : b.FrozenOnce pre
    · have hne := (scan_ne_of_shared sort hfb hfa).symm
      simp only [hfa, hfb, hne, false_and, not_true_eq_false, false_iff, not_false_eq_true,
        true_and, and_false, or_false, false_or]
    · rw [Overlay.scanPrefixFirst, Overlay.scanPrefixFirst, a.scanPrefixCut_all,
        b.scanPrefixCut_all, Option.some.injEq]
      simp only [hfa, hfb, and_self, not_false_eq_true, true_and, false_and, false_or,
        false_iff, not_true_eq_false]

/-! ## Stores of mounts only -/

theorem mount_collected (segs : List Segment) (room : segs.length ≤ maxSsts) (pre : Bytes) :
    (mount segs room).collected pre = segs.flatMap (frozenMatches pre) := by
  have hlive : (mount segs room).live pre = [] := by
    rw [live, flatMap_eq_nil_iff]
    intro i _
    rfl
  rw [Overlay.collected, hlive, append_nil]
  refine flatMap_congr (fun seg _ => ?_)
  rw [Overlay.unshadowed, filter_eq_self]
  exact fun _ _ => rfl

theorem mount_visible (segs : List Segment) (room : segs.length ≤ maxSsts) (key : Bytes) :
    (mount segs room).visible key = (frozenHit segs key).map Hit.content := rfl

section
variable {seg seg' : Segment} {value value' : UInt8}

/-- One mount shares no key. -/
theorem mount_frozenOnce (room : [seg].length ≤ maxSsts) (pre : Bytes) :
    (mount [seg] room).FrozenOnce pre := pairwise_singleton _ _

/-- The entry with key 1 and the given value. -/
def oneEntry (value : UInt8) : ScanResult := ⟨[1], [value], 0, false⟩

theorem mount_scan (sort : KeySort) (hseg : seg.hits = [⟨[1], [value], 0, false⟩])
    (room : [seg].length ≤ maxSsts) :
    Overlay.scanPrefixFirst sort (mount [seg] room) [] 0 = some [oneEntry value] := by
  obtain ⟨rs, hrs, hperm⟩ := exists_scan sort (mount [seg] room) []
  rw [mount_collected, flatMap_singleton, frozenMatches, hseg] at hperm
  rw [hrs]
  exact congrArg some (perm_singleton.mp hperm)

theorem mount_shared_scan (sort : KeySort) (hseg : seg.hits = [⟨[1], [value], 0, false⟩])
    (hseg' : seg'.hits = [⟨[1], [value'], 0, false⟩]) (room : [seg, seg'].length ≤ maxSsts) :
    ∃ rs, Overlay.scanPrefixFirst sort (mount [seg, seg'] room) [] 0 = some rs ∧
      (rs = [oneEntry value, oneEntry value'] ∨ rs = [oneEntry value', oneEntry value]) := by
  obtain ⟨rs, hrs, hperm⟩ := exists_scan sort (mount [seg, seg'] room) []
  rw [mount_collected, flatMap_cons, flatMap_singleton, frozenMatches,
    frozenMatches, hseg, hseg'] at hperm
  exact ⟨rs, hrs, perm_pair.mp hperm⟩

end

/-- Sorting by merging. -/
def mergeKeySort : KeySort where
  run := fun rs => rs.mergeSort (fun a b => decide (¬ b.key < a.key))
  perm := fun rs => mergeSort_perm rs _
  sorted := by
    intro rs
    refine (pairwise_mergeSort ?_ ?_ rs).imp ?_
    · intro a b c hab hbc
      have hab' : a.key ≤ b.key := of_decide_eq_true hab
      have hbc' : b.key ≤ c.key := of_decide_eq_true hbc
      exact decide_eq_true (List.le_trans hab' hbc')
    · intro a b
      rcases List.le_total a.key b.key with h | h
      · simp [h]
      · simp [h]
    · intro a b h
      exact of_decide_eq_true h

theorem oneEntry_collisionFree : CollisionFree evalSha256
    (scanInputs evalSha256 [] [oneEntry 10] ++ scanInputs evalSha256 [] [oneEntry 20]) := by
  have hinputs : ∀ r, scanInputs evalSha256 [] [r] =
      [emptyPreimage [], leafPreimage (entryOf r)] := fun _ => rfl
  have hnodup : ([emptyPreimage [], leafPreimage (entryOf (oneEntry 10)),
      leafPreimage (entryOf (oneEntry 20))].map evalSha256).Nodup := by
    decide +kernel
  -- both trees hash the root of nothing, and no inner node
  have hsub : ∀ e r r' : Bytes, ∀ x ∈ [e, r] ++ [e, r'], x ∈ [e, r, r'] := by
    intro e r r' x hx
    simp only [cons_append, nil_append, mem_cons, not_mem_nil, or_false]
      at hx ⊢
    rcases hx with rfl | rfl | rfl | rfl <;> simp
  refine collisionFree_of_nodup ?_ hnodup
  rw [hinputs, hinputs]
  exact hsub _ _ _

/-- Stores of one entry each have different roots. -/
theorem prefix_root_iff_entries : ∃ a b : Overlay, ¬SameVisible a b [] ∧
    ((computeStore evalSha256 mergeKeySort a [] 0).map Summary.root =
      (computeStore evalSha256 mergeKeySort b [] 0).map Summary.root ↔ SameVisible a b []) := by
  obtain ⟨seg, hseg⟩ := exists_oneEntry [1] [10] false (by decide) (by decide)
  obtain ⟨seg', hseg'⟩ := exists_oneEntry [1] [20] false (by decide) (by decide)
  have room : [seg].length ≤ maxSsts := show 1 ≤ 4 by decide
  have room' : [seg'].length ≤ maxSsts := show 1 ≤ 4 by decide
  have hinputs : storeInputs evalSha256 mergeKeySort (mount [seg] room) [] =
      scanInputs evalSha256 [] [oneEntry 10] := by
    rw [storeInputs, mount_scan mergeKeySort hseg room]
  have hinputs' : storeInputs evalSha256 mergeKeySort (mount [seg'] room') [] =
      scanInputs evalSha256 [] [oneEntry 20] := by
    rw [storeInputs, mount_scan mergeKeySort hseg' room']
  refine ⟨mount [seg] room, mount [seg'] room', ?_, ?_⟩
  · intro hsame
    have h := hsame [1] nil_prefix
    rw [mount_visible, mount_visible, frozenHit_cons, frozenHit_cons, Segment.hit, Segment.hit,
      hseg, hseg'] at h
    exact absurd h (by decide)
  · refine (prefix_root_iff mergeKeySort _ _ [] ?_ ?_ ?_).mpr
      (.inl ⟨mount_frozenOnce room [], mount_frozenOnce room' []⟩)
    · intro r hr
      rw [mount_collected, flatMap_singleton, frozenMatches, hseg] at hr
      obtain rfl := mem_singleton.mp hr
      exact ⟨by decide, by decide⟩
    · intro r hr
      rw [mount_collected, flatMap_singleton, frozenMatches, hseg'] at hr
      obtain rfl := mem_singleton.mp hr
      exact ⟨by decide, by decide⟩
    · rw [hinputs, hinputs']
      exact oneEntry_collisionFree

/-- **Two mounts of one key change the root, and nothing that is visible.** -/
theorem shared_key_roots_differ : ∃ a b : Overlay, SameVisible a b [] ∧
    ∀ sort, (computeStore evalSha256 sort a [] 0).map Summary.root ≠
      (computeStore evalSha256 sort b [] 0).map Summary.root := by
  obtain ⟨seg, hseg⟩ := exists_oneEntry [1] [10] false (by decide) (by decide)
  obtain ⟨seg', hseg'⟩ := exists_oneEntry [1] [20] false (by decide) (by decide)
  have room : [seg, seg'].length ≤ maxSsts := show 2 ≤ 4 by decide
  have room' : [seg].length ≤ maxSsts := show 1 ≤ 4 by decide
  refine ⟨mount [seg, seg'] room, mount [seg] room', ?_, ?_⟩
  · intro key _
    rw [mount_visible, mount_visible, frozenHit_cons, frozenHit_cons, frozenHit_cons,
      Segment.hit, Segment.hit, hseg, hseg']
    by_cases hkey : key = [1]
    · subst hkey
      rfl
    · have hne : ([1] : Bytes) ≠ key := fun h => hkey h.symm
      simp [Sst.hitIn, hne]
  · intro sort h
    obtain ⟨rs, hrs, horder⟩ := mount_shared_scan sort hseg hseg' room
    rw [computeStore_eq evalSha256 hrs, computeStore_eq evalSha256 (mount_scan sort hseg room')]
      at h
    replace h : scanRoot evalSha256 [] rs = scanRoot evalSha256 [] [oneEntry 10] :=
      Option.some.inj h
    rcases horder with rfl | rfl
    · exact absurd h (by decide +kernel)
    · exact absurd h (by decide +kernel)

end PrefixRoot
end WormDB
