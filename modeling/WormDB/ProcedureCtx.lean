import WormDB.Overlay
import WormDB.DecimalText
import Mathlib.Algebra.BigOperators.Group.Finset.Basic

/-! # What a stored procedure does to the store

The part of `procedures/context.zig` that reads and writes: a procedure runs over the
store and its mounts, holding the shards of its keys.  A read falls through to the mounts.
A write goes past the log, and when it fails the procedure does not notice: `set` drops
the error. -/
namespace WormDB
open List ByteCodec DecimalText

/-- What a write takes from outside: the allocator and the clock. -/
structure WriteEnv where
  alloc : AllocSite → Bool
  now : UInt64

/-- Memory is there. -/
def WriteEnv.Ample (env : WriteEnv) : Prop := ∀ site, env.alloc site = true

namespace Overlay

/-- The same mounts over another store. -/
def withStore (o : Overlay) (s : Store) (ok : StoreOk s) (sst : s.sst = o.store.sst) : Overlay :=
  ⟨s, o.segs, ok, o.room, fun key => by rw [sst, o.agrees]⟩

variable {o : Overlay} {env : WriteEnv} {key value : Bytes} {isWorm : Bool}

theorem setUnsafe_updates
    {s : Store} (h : o.store.setUnsafe env.alloc key value isWorm env.now = .ok s) :
    o.store.wormBlocked key = false ∧
      Updates o.store s key (some ⟨key, value, env.now, .written isWorm⟩) := by
  have hset := o.ok.setUnsafe env.alloc key value isWorm env.now
  rw [h] at hset
  exact hset

def setUnsafe (env : WriteEnv) (o : Overlay) (key value : Bytes) (isWorm : Bool) :
    Except Fault Overlay :=
  match h : o.store.setUnsafe env.alloc key value isWorm env.now with
  | .ok s => .ok (o.withStore s (setUnsafe_updates h).2.ok (setUnsafe_updates h).2.sst)
  | .error f => .error f

/-- `Ctx.get`: the live value or, on a miss, the frozen one. -/
def ctxGet (o : Overlay) (key : Bytes) : Option Bytes := (o.getValueDupe key).join

/-- `Ctx.set`: the error of the write is dropped. -/
def ctxSet (env : WriteEnv) (o : Overlay) (key value : Bytes) : Overlay :=
  match o.setUnsafe env key value false with
  | .ok o' => o'
  | .error _ => o

/-- `Ctx.getInt`. -/
def getInt (bits : Nat) (o : Overlay) (key : Bytes) : Option Int :=
  (o.ctxGet key).bind (parseInt bits)

/-- `Ctx.setInt`: the number is printed into a buffer of 32 bytes. -/
def setInt (env : WriteEnv) (o : Overlay) (key : Bytes) (val : Int) : Overlay :=
  if (formatInt val).length ≤ 32 then o.ctxSet env key (formatInt val) else o

/-! ## In terms of what is visible -/

theorem ctxGet_eq (o : Overlay) (key : Bytes) :
    o.ctxGet key = (o.visible key).map Content.value := by
  rw [ctxGet, getValueDupe_eq, Option.join_some]

/-- A write is refused exactly when the visible entry is WORM. -/
theorem wormBlocked_eq (o : Overlay) (key : Bytes) :
    o.store.wormBlocked key = (o.visible key).any Content.isWorm := by
  rw [Store.wormBlocked, visible, Store.entryAt]
  cases (o.store.get key).bind o.store.mem with
  | some e => rfl
  | none =>
    simp only [o.agrees key]
    cases frozenHit o.segs key with
    | none => rfl
    | some hit => simp [Hit.content]

variable {o' : Overlay}

theorem setUnsafe_visible (h : o.setUnsafe env key value isWorm = .ok o') (k : Bytes) :
    o'.visible k = if k = key then some ⟨value, env.now, isWorm⟩ else o.visible k := by
  unfold setUnsafe at h
  split at h
  · rename_i s hset
    cases h
    have hat := (setUnsafe_updates hset).2.entryAt k
    rw [visible, visible, withStore]
    simp only [hat]
    by_cases hk : k = key
    · rw [if_pos hk, if_pos hk]
      rfl
    · rw [if_neg hk, if_neg hk]
  · cases h

theorem setUnsafe_blocked
    (h : o.setUnsafe env key value isWorm = .ok o') : o.store.wormBlocked key = false := by
  unfold setUnsafe at h
  split at h
  · rename_i s hset
    exact (setUnsafe_updates hset).1
  · cases h

/-- With memory, a write that is not refused happens. -/
theorem setUnsafe_ok (henv : env.Ample)
    (hfree : o.store.wormBlocked key = false) (value : Bytes) (isWorm : Bool) :
    ∃ o', o.setUnsafe env key value isWorm = .ok o' := by
  obtain ⟨⟨prepared, s₁⟩, hprepare⟩ := prepareUpsertLocked_ok (s := o.store) henv (shardIndex key)
    (o.store.get key) key value isWorm env.now
  have hprepared := o.ok.prepare env.alloc key value isWorm env.now
  rw [hprepare] at hprepared
  obtain ⟨s, hcommit, -⟩ := hprepared.commit
  have hset : o.store.setUnsafe env.alloc key value isWorm env.now = .ok s := by
    rw [Store.setUnsafe, Store.setInternalLockedNoWal, hfree]
    simp only [Bool.false_eq_true, if_false, Store.upsertShardLocked, hprepare, hcommit]
  unfold setUnsafe
  split
  · exact ⟨_, rfl⟩
  · rename_i f herror
    cases hset.symm.trans herror

variable {k : Bytes}

theorem ctxSet_segs (env : WriteEnv) (o : Overlay) (key value : Bytes) :
    (o.ctxSet env key value).segs = o.segs := by
  rw [ctxSet]
  split
  case h_1 o' hset =>
    unfold setUnsafe at hset
    split at hset
    · cases hset
      rfl
    · cases hset
  case h_2 => rfl

/-- A write touches no other key. -/
theorem ctxSet_visible_of_ne (env : WriteEnv) (o : Overlay) (value : Bytes)
    (hk : k ≠ key) : (o.ctxSet env key value).visible k = o.visible k := by
  unfold ctxSet
  split
  · rename_i o' hset
    rw [setUnsafe_visible hset, if_neg hk]
  · rfl

theorem ctxSet_visible (henv : env.Ample)
    (hfree : o.store.wormBlocked key = false) (value : Bytes) :
    (o.ctxSet env key value).visible key = some ⟨value, env.now, false⟩ := by
  obtain ⟨o', hset⟩ := setUnsafe_ok henv hfree value false
  simp only [ctxSet, hset]
  rw [setUnsafe_visible hset, if_pos rfl]

theorem getInt_eq (bits : Nat) (o : Overlay) (key : Bytes) :
    o.getInt bits key = (o.visible key).bind (fun c => parseInt bits c.value) := by
  rw [getInt, ctxGet_eq, Option.bind_map]
  rfl

theorem setInt_visible_of_ne (env : WriteEnv) (o : Overlay) (val : Int)
    (hk : k ≠ key) : (o.setInt env key val).visible k = o.visible k := by
  unfold setInt
  split
  · exact ctxSet_visible_of_ne env o _ hk
  · rfl

/-- An integer that is written is read back. -/
theorem getInt_setInt (henv : env.Ample)
    (hfree : o.store.wormBlocked key = false) {val : Int} (hval : Fits 64 val) :
    (o.setInt env key val).getInt 64 key = some val := by
  have hlen : (formatInt val).length ≤ 32 := le_trans (formatInt_length_le hval) (by decide)
  rw [setInt, if_pos hlen, getInt_eq, ctxSet_visible henv hfree]
  exact parseInt_formatInt hval

/-! ## The keys of a store -/

def keys (o : Overlay) : Finset Bytes :=
  (o.liveEntries.map Entry.key ++ o.segs.flatMap (fun seg => seg.hits.map Hit.key)).toFinset

theorem mem_keys (o : Overlay) (key : Bytes) : key ∈ o.keys ↔ (o.visible key).isSome := by
  rw [keys, mem_toFinset, mem_append, visible]
  cases hat : o.store.entryAt key with
  | some e =>
    have hkey : e.key = key := by
      obtain ⟨-, -, -, hkey⟩ := o.ok.entryAt_iff.mp hat
      exact hkey
    have hmem : key ∈ o.liveEntries.map Entry.key :=
      mem_map.mpr ⟨e, o.mem_liveEntries.mpr (hkey.symm ▸ hat), hkey⟩
    simp [hmem]
  | none =>
    have hdead : key ∉ o.liveEntries.map Entry.key := by
      intro hmem
      obtain ⟨e, he, rfl⟩ := mem_map.mp hmem
      rw [o.mem_liveEntries.mp he] at hat
      cases hat
    have hfrozen : key ∈ o.segs.flatMap (fun seg => seg.hits.map Hit.key) ↔
        (frozenHit o.segs key).isSome := by
      rw [frozenHit, findSome?_isSome_iff]
      simp only [mem_flatMap, mem_map, Segment.hit, Sst.hitIn, find?_isSome,
        decide_eq_true_eq]
    simp [hdead, hfrozen]

end Overlay

end WormDB
