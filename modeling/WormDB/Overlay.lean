import WormDB.StoreInvariant
import WormDB.Sst
import WormDB.PrefixMap

/-! # The frozen overlay

Up to four frozen segments are mounted behind the live shards.  A read that misses the
shards goes to the segments in the order of their mounts; `visible` is the entry that a
client sees under a key, and `merged` the whole map: a live entry shadows a frozen one,
an earlier mount a later one. -/
namespace WormDB
open List ByteCodec PrefixMap

/-- A mounted segment with the entries it has. -/
structure Segment where
  sst : Sst
  hits : List Hit
  represents : sst.Represents hits

def Segment.hit (seg : Segment) (key : Bytes) : Option Hit := Sst.hitIn seg.hits key

/-- `MAX_SSTS`. -/
def maxSsts : Nat := 4

/-- `sstHit`: the first segment that has the key; `none` is an access outside a
mapping. -/
def sstHit : List Sst → Bytes → Option (Option Hit)
  | [], _ => some none
  | sst :: ssts, key => do
      match ← sst.get key with
      | some hit => return some hit
      | none => sstHit ssts key

/-- The entry that the mounts have under a key. -/
def frozenHit (segs : List Segment) (key : Bytes) : Option Hit :=
  segs.findSome? (fun seg => seg.hit key)

theorem frozenHit_cons (seg : Segment) (segs : List Segment) (key : Bytes) :
    frozenHit (seg :: segs) key = (seg.hit key).or (frozenHit segs key) := by
  rw [frozenHit, findSome?_cons]
  cases seg.hit key with
  | some hit => rfl
  | none => rfl

theorem sstHit_eq (segs : List Segment) (key : Bytes) :
    sstHit (segs.map Segment.sst) key = some (frozenHit segs key) := by
  induction segs with
  | nil => rfl
  | cons seg segs ih =>
    rw [map_cons, sstHit, seg.represents.get_eq, frozenHit_cons, Segment.hit]
    cases Sst.hitIn seg.hits key with
    | some hit => rfl
    | none => exact ih

/-- A store with its mounts.  The overlay that the store's writes look at is the one
that reads see. -/
structure Overlay where
  store : Store
  segs : List Segment
  ok : StoreOk store
  room : segs.length ≤ maxSsts
  agrees : ∀ key, store.sst key = (frozenHit segs key).map Hit.isWorm

namespace Overlay

/-- An empty store with mounts. -/
def mount (segs : List Segment) (room : segs.length ≤ maxSsts) : Overlay :=
  ⟨Store.init (fun key => (frozenHit segs key).map Hit.isWorm), segs, init_ok _, room,
    fun _ => rfl⟩

def ssts (o : Overlay) : List Sst := o.segs.map Segment.sst

/-- A read copies the live value, or on a miss the frozen one. -/
def getValueDupe (o : Overlay) (key : Bytes) : Option (Option Bytes) :=
  match (o.store.get key).bind o.store.mem with
  | some e => some (some e.value)
  | none => (sstHit o.ssts key).map (fun hit => hit.map Hit.value)

def containsLive (o : Overlay) (key : Bytes) : Bool := (o.store.get key).isSome

end Overlay

def Hit.content (hit : Hit) : Content := ⟨hit.value, hit.timestamp, hit.isWorm⟩

namespace Overlay

/-- What a client sees under a key. -/
def visible (o : Overlay) (key : Bytes) : Option Content :=
  match o.store.entryAt key with
  | some e => some e.content
  | none => (frozenHit o.segs key).map Hit.content

/-- A read gives the value of the visible entry. -/
theorem getValueDupe_eq (o : Overlay) (key : Bytes) :
    o.getValueDupe key = some ((o.visible key).map Content.value) := by
  rw [getValueDupe, visible, Store.entryAt]
  cases (o.store.get key).bind o.store.mem with
  | some e => rfl
  | none =>
    simp only [ssts, sstHit_eq, Option.map_some, Option.map_map]
    rfl

theorem containsLive_eq (o : Overlay) (key : Bytes) :
    o.containsLive key = (o.store.entryAt key).isSome := by
  rw [containsLive]
  cases hat : o.store.entryAt key with
  | none => rw [o.ok.get_eq_none hat]
            rfl
  | some e =>
    obtain ⟨p, hget, -⟩ := Option.bind_eq_some_iff.mp hat
    rw [hget]
    rfl

/-! ## The merged map -/

/-- The entries of all shards. -/
def liveEntries (o : Overlay) : List Entry :=
  (finRange shardCount).flatMap (fun i => (o.store.shards i).sorted.filterMap o.store.mem)

/-- The map of what is visible: the mounts from the last to the first, and over them the
live entries. -/
def merged (o : Overlay) : ByteMap Content :=
  o.liveEntries.foldr (fun e m => m.insert e.key e.content)
    (o.segs.foldr (fun seg m => seg.hits.foldr (fun hit m => m.insert hit.key hit.content) m)
      ByteMap.empty)

end Overlay

/-- Insertions one over the other: the first that has the key counts. -/
theorem get_foldr_insert {α : Type} (key : α → Bytes) (content : α → Content) (xs : List α)
    (m : ByteMap Content) (k : Bytes) :
    (xs.foldr (fun x m => m.insert (key x) (content x)) m).get k =
      ((xs.find? (fun x => decide (key x = k))).map content).or (m.get k) := by
  induction xs with
  | nil => rfl
  | cons x xs ih =>
    rw [foldr_cons, find?_cons]
    by_cases hk : key x = k
    · rw [← hk, ByteMap.get_insert_self]
      simp
    · rw [ByteMap.get_insert_of_ne _ _ (fun heq => hk heq.symm), ih]
      simp [hk]

theorem get_foldr_segs (segs : List Segment) (k : Bytes) :
    (segs.foldr (fun seg m => seg.hits.foldr (fun hit m => m.insert hit.key hit.content) m)
      (ByteMap.empty : ByteMap Content)).get k = (frozenHit segs k).map Hit.content := by
  induction segs with
  | nil => rfl
  | cons seg segs ih =>
    rw [foldr_cons, get_foldr_insert, ih, frozenHit_cons, Segment.hit, Sst.hitIn]
    cases seg.hits.find? (fun hit => decide (hit.key = k)) with
    | some hit => rfl
    | none => rfl

namespace Overlay

theorem mem_liveEntries (o : Overlay) {e : Entry} :
    e ∈ o.liveEntries ↔ o.store.entryAt e.key = some e := by
  rw [liveEntries, mem_flatMap, o.ok.entryAt_iff]
  constructor
  · rintro ⟨i, -, he⟩
    obtain ⟨p, hp, hpe⟩ := mem_filterMap.mp he
    obtain ⟨e', he', hi⟩ := (o.ok.shards i).live p hp
    cases hpe.symm.trans he'
    exact ⟨p, hi ▸ hp, hpe, rfl⟩
  · rintro ⟨p, hp, hpe, -⟩
    exact ⟨_, mem_finRange _, mem_filterMap.mpr ⟨p, hp, hpe⟩⟩

/-- **The merged map has what is visible.** -/
theorem merged_get (o : Overlay) (key : Bytes) : o.merged.get key = o.visible key := by
  rw [merged, get_foldr_insert, get_foldr_segs, visible]
  cases hfind : o.liveEntries.find? (fun e => decide (e.key = key)) with
  | some e =>
    have hkey : e.key = key := by simpa using find?_some hfind
    have hat := o.mem_liveEntries.mp (mem_of_find?_eq_some hfind)
    rw [hkey] at hat
    rw [hat]
    rfl
  | none =>
    have hnone : o.store.entryAt key = none := by
      by_contra hne
      obtain ⟨e, hat⟩ := Option.ne_none_iff_exists'.mp hne
      obtain ⟨-, -, -, hkey⟩ := o.ok.entryAt_iff.mp hat
      have hmem := o.mem_liveEntries.mpr (hkey.symm ▸ hat)
      simpa [hkey] using find?_eq_none.mp hfind e hmem
    rw [hnone]
    rfl

end Overlay

end WormDB
