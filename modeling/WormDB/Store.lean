import WormDB.Shard
import WormDB.Wal

/-! # The in-memory store

The 256 shards of `storage/store.zig` with the memory their entries live in, and
the operations that change them.  An operation takes its allocator as an oracle:
`alloc site` says whether the allocation at that place of the code succeeds.

`sst` is the frozen overlay behind the live shards: the WORM bit of a key the
mounted segments have. -/
namespace WormDB
open ByteCodec

structure Store where
  mem : Memory
  nextPtr : Ptr
  shards : Fin shardCount → Shard
  liveKeys : Nat
  sst : Bytes → Option Bool

/-- The places where an upsert allocates. -/
inductive AllocSite where
  | record | newValue | reserveData | reserveSorted | entry | key | value

namespace Store

def init (sst : Bytes → Option Bool) : Store := ⟨fun _ => none, 0, fun _ => Shard.empty, 0, sst⟩

def setShard (s : Store) (i : Fin shardCount) (shard : Shard) : Store :=
  { s with shards := Function.update s.shards i shard }

def setEntry (s : Store) (p : Ptr) (e : Option Entry) : Store :=
  { s with mem := Function.update s.mem p e }

def get (s : Store) (key : Bytes) : Option Ptr := (s.shards (shardIndex key)).get s.mem key

/-- A fresh entry. -/
def create (s : Store) (e : Entry) : Ptr × Store :=
  (s.nextPtr, { s with mem := Function.update s.mem s.nextPtr (some e), nextPtr := s.nextPtr + 1 })

/-- Arena-owned entries are left to the arena. -/
def destroyEntry (s : Store) (p : Ptr) : Store :=
  match s.mem p with
  | some e => if e.flags.arenaOwned then s else s.setEntry p none
  | none => s

/-- Some entry of the sorted list at `idx` has the given key. -/
def keyIsAt (s : Store) (shard : Shard) (idx : Nat) (key : Bytes) : Bool :=
  match shard.sorted[idx]? with
  | some q => decide (keyAt s.mem q = key)
  | none => false

def shardReservePutLocked (alloc : AllocSite → Bool) (s : Store) (i : Fin shardCount)
    (key : Bytes) : Except Fault Unit :=
  let shard := s.shards i
  let idx := lowerBoundKey s.mem shard.sorted key
  let replacing := s.keyIsAt shard idx key
  if !alloc .reserveData then .error (.error .outOfMemory)
  else if !replacing && !alloc .reserveSorted then .error (.error .outOfMemory)
  else .ok ()

/-- The unwrapping of the map's old value traps when the map does not have it. -/
def shardPutAssumeCapacityLocked (s : Store) (i : Fin shardCount) (p : Ptr) :
    Except Fault Store :=
  let shard := s.shards i
  let key := keyAt s.mem p
  let idx := lowerBoundKey s.mem shard.sorted key
  if s.keyIsAt shard idx key then
    match shard.fetchRemove s.mem key with
    | none => .error .trap
    | some (old, shard') =>
        let shard'' : Shard := ⟨(shard'.putAssumeCapacity s.mem p).data, shard.sorted.set idx p⟩
        .ok ((s.setShard i shard'').destroyEntry old)
  else
    let shard' : Shard := ⟨(shard.putAssumeCapacity s.mem p).data, shard.sorted.insertIdx idx p⟩
    .ok { s.setShard i shard' with liveKeys := s.liveKeys + 1 }

def shardPutLocked (alloc : AllocSite → Bool) (s : Store) (i : Fin shardCount) (p : Ptr) :
    Except Fault Store :=
  match s.shardReservePutLocked alloc i (keyAt s.mem p) with
  | .error e => .error e
  | .ok () => s.shardPutAssumeCapacityLocked i p

/-- What is left of the sorted list when the entry `removed` leaves it: by its
key's position, or by a sweep when it is not there. -/
def sortedRemove (s : Store) (shard : Shard) (key : Bytes) (removed : Ptr) : List Ptr :=
  let idx := lowerBoundKey s.mem shard.sorted key
  if shard.sorted[idx]? = some removed then shard.sorted.eraseIdx idx
  else
    match shard.sorted.findIdx? (fun q => decide (q = removed)) with
    | some idx => shard.sorted.eraseIdx idx
    | none => shard.sorted

def shardRemoveLocked (s : Store) (i : Fin shardCount) (key : Bytes) : Option (Ptr × Store) :=
  let shard := s.shards i
  match shard.fetchRemove s.mem key with
  | none => none
  | some (removed, shard') =>
      let shard'' : Shard := ⟨shard'.data, s.sortedRemove shard key removed⟩
      some (removed, { s.setShard i shard'' with liveKeys := s.liveKeys - 1 })

/-- Remove and destroy. -/
def shardDropLocked (s : Store) (i : Fin shardCount) (key : Bytes) : Store :=
  match s.shardRemoveLocked i key with
  | none => s
  | some (removed, s') => s'.destroyEntry removed

/-- Delete without WAL or WORM checks. -/
def deleteUnsafe (s : Store) (key : Bytes) : Store := s.shardDropLocked (shardIndex key) key

/-! ## Upserts -/

def createMemoryEntry (alloc : AllocSite → Bool) (s : Store) (key value : Bytes) (isWorm : Bool)
    (timestamp : UInt64) : Except Fault (Ptr × Store) :=
  if alloc .entry && alloc .key && alloc .value then
    .ok (s.create ⟨key, value, timestamp, .written isWorm⟩)
  else .error (.error .outOfMemory)

inductive PreparedUpsert where
  | inPlaceSameLen (p : Ptr)
  | inPlaceNewVal (p : Ptr) (newVal : Bytes)
  | putEntry (p : Ptr)

/-- The branch of `prepareUpsertLocked` that makes a new entry. -/
def preparePutEntry (alloc : AllocSite → Bool) (s : Store) (i : Fin shardCount)
    (key value : Bytes) (isWorm : Bool) (timestamp : UInt64) :
    Except Fault (PreparedUpsert × Store) :=
  match s.shardReservePutLocked alloc i key with
  | .error e => .error e
  | .ok () =>
      match s.createMemoryEntry alloc key value isWorm timestamp with
      | .error e => .error e
      | .ok (p, s') => .ok (.putEntry p, s')

/-- Reserve all memory and shard capacity needed for an upsert. -/
def prepareUpsertLocked (alloc : AllocSite → Bool) (s : Store) (i : Fin shardCount)
    (existing : Option Ptr) (key value : Bytes) (isWorm : Bool) (timestamp : UInt64) :
    Except Fault (PreparedUpsert × Store) :=
  match existing.bind (fun p => (s.mem p).map (fun e => (p, e))) with
  | some (p, e) =>
      if e.flags.arenaOwned then s.preparePutEntry alloc i key value isWorm timestamp
      else if e.value.length = value.length then .ok (.inPlaceSameLen p, s)
      else if alloc .newValue then .ok (.inPlaceNewVal p value, s)
      else .error (.error .outOfMemory)
  | none => s.preparePutEntry alloc i key value isWorm timestamp

def abortPreparedUpsert (s : Store) : PreparedUpsert → Store
  | .inPlaceSameLen _ => s
  | .inPlaceNewVal _ _ => s
  | .putEntry p => s.destroyEntry p

/-- Overwrite value, timestamp and flags of the entry at `p`. -/
def overwrite (s : Store) (p : Ptr) (value : Bytes) (isWorm : Bool) (timestamp : UInt64) : Store :=
  s.setEntry p ((s.mem p).map (fun e =>
    { e with value := value, timestamp := timestamp, flags := .written isWorm }))

def commitPreparedUpsertLocked (s : Store) (i : Fin shardCount) (prepared : PreparedUpsert)
    (value : Bytes) (isWorm : Bool) (timestamp : UInt64) : Except Fault Store :=
  match prepared with
  | .inPlaceSameLen p => .ok (s.overwrite p value isWorm timestamp)
  | .inPlaceNewVal p newVal => .ok (s.overwrite p newVal isWorm timestamp)
  | .putEntry p => s.shardPutAssumeCapacityLocked i p

def upsertShardLocked (alloc : AllocSite → Bool) (s : Store) (i : Fin shardCount)
    (existing : Option Ptr) (key value : Bytes) (isWorm : Bool) (timestamp : UInt64) :
    Except Fault Store :=
  match s.prepareUpsertLocked alloc i existing key value isWorm timestamp with
  | .error e => .error e
  | .ok (prepared, s') => s'.commitPreparedUpsertLocked i prepared value isWorm timestamp

/-- The write is refused: the live entry is WORM, or there is none and the frozen
one is. -/
def wormBlocked (s : Store) (key : Bytes) : Bool :=
  match (s.get key).bind s.mem with
  | some e => e.flags.isWorm
  | none => s.sst key = some true

def setInternalLockedNoWal (alloc : AllocSite → Bool) (s : Store) (i : Fin shardCount)
    (key value : Bytes) (isWorm : Bool) (now : UInt64) : Except Fault Store :=
  if s.wormBlocked key then .error (.error .wormViolation)
  else s.upsertShardLocked alloc i (s.get key) key value isWorm now

/-- Write without WAL; `now` is the wall clock. -/
def setUnsafe (alloc : AllocSite → Bool) (s : Store) (key value : Bytes) (isWorm : Bool)
    (now : UInt64) : Except Fault Store :=
  s.setInternalLockedNoWal alloc (shardIndex key) key value isWorm now

/-! ## Replaying the log -/

/-- The live entry under the key is WORM. -/
def liveWorm (s : Store) (key : Bytes) : Bool :=
  match (s.get key).bind s.mem with
  | some e => e.flags.isWorm
  | none => false

/-- One record of `replayWal`.  Vector records leave the shards alone. -/
def replayRecord (alloc : AllocSite → Bool) (s : Store) : WalRecord → Except Fault Unit × Store
  | .set key value flags timestamp =>
      if s.liveWorm key then (.ok (), s)
      else if alloc .entry then
        let (p, s') := s.create ⟨key, value, timestamp, flags⟩
        match s'.shardPutLocked alloc (shardIndex key) p with
        | .error e => (.error e, s'.destroyEntry p)
        | .ok s'' => (.ok (), s'')
      else (.error (.error .outOfMemory), s)
  | .delete key => (.ok (), if s.liveWorm key then s else s.shardDropLocked (shardIndex key) key)
  | .vinsert .. => (.ok (), s)
  | .vdelete .. => (.ok (), s)

/-- The replay loop over the bytes of the log; `alloc n` is the allocator of the
`n`-th record, its `record` site the buffers the iterator reads into.  Every
record takes more than a byte, so the length of the log is fuel enough. -/
def replayLoop (alloc : Nat → AllocSite → Bool) :
    Nat → Nat → Bytes → Store → Except Fault Unit × Store
  | 0, _, _, s => (.ok (), s)
  | fuel + 1, n, bytes, s =>
      match Wal.next bytes with
      | .done => (.ok (), s)
      | .corruption => (.error (.error .corruption), s)
      | .trap => (.error .trap, s)
      | .record record rest =>
          if alloc n .record then
            match s.replayRecord (alloc n) record with
            | (.error e, s') => (.error e, s')
            | (.ok (), s') => replayLoop alloc fuel (n + 1) rest s'
          else (.error (.error .outOfMemory), s)

def replayWal (alloc : Nat → AllocSite → Bool) (wal : Bytes) (s : Store) :
    Except Fault Unit × Store :=
  replayLoop alloc (wal.length + 1) 0 wal s

end Store
end WormDB
