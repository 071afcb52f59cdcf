import Mathlib.Order.Fin.Basic
import Mathlib.Data.List.Sort
import WormDB.LockOrder
import WormDB.Shard

/-! # Which locks the operations take

The locks of `storage/store.zig`, `storage/wal.zig` and `vector/index.zig`, and for every
operation the sequence in which it takes them and gives them back.  Which branches an
operation takes depends on what it finds (the key is immutable, the log is long enough to be
compacted, the namespace has an index with RaBitQ parameters), so the sequence is a function
of the operation's arguments and of that; nothing is assumed of what is found.

An `errdefer` or an early `return` ends the sequence; locks taken with `defer` are given back
there. -/
namespace WormDB.Locks
open ByteCodec LockOrder

inductive Lock where
  | walEnqueue
  | snapshot
  | shard (i : Fin shardCount)
  | registry
  | index (ns : Bytes)
  | walQueue
  | asyncQueue (ns : Bytes)
  deriving DecidableEq

abbrev LockTrace := Trace Lock

/-- A key that is read, checked or written under its shard's lock. -/
def visit (i : Fin shardCount) : LockTrace := locking (.shard i) .exclusive []

/-- `getCopy`, `exists` and `containsLive`. -/
def visitKey (key : Bytes) : LockTrace := visit (shardIndex key)

/-! ## The store -/

/-- How records get to the log: written at once, put into the ring, or not at all. -/
inductive WalMode where
  | direct
  | background
  | off

/-- `NamespaceRegistry.writeTo`, of the namespaces it comes to. -/
def registryWriteTo (nss : List Bytes) : LockTrace :=
  locking .registry .exclusive (nss.flatMap (fun ns => locking (.index ns) .exclusive []))

/-- `captured` are the namespaces whose graphs go into the snapshot; `none` when there is no
registry, or an empty one. -/
def writeSnapshot (captured : Option (List Bytes)) : LockTrace :=
  locking .snapshot .exclusive
    (acquires .exclusive ((List.finRange shardCount).map .shard) ++
      (match captured with
       | none => []
       | some nss => registryWriteTo nss) ++
      releases ((List.finRange shardCount).map .shard))

/-- What `maybeSnapshotAndTruncate` finds. -/
inductive Compaction where
  | disabled
  | small
  | snapshot (captured : Option (List Bytes))

def maybeSnapshotAndTruncate : Compaction → LockTrace
  | .disabled => []
  | .small => locking .walEnqueue .exclusive []
  | .snapshot captured => locking .walEnqueue .exclusive (writeSnapshot captured)

/-- A set finds no memory for its record, is refused under the lock, or is done. -/
inductive SetPath where
  | failed
  | refused
  | done (compaction : Compaction)

def setWithTimestampNoVectorSync (mode : WalMode) (key : Bytes) (path : SetPath) : LockTrace :=
  match mode, path with
  | .off, _ => visitKey key
  | _, .failed => []
  | .background, .refused => visitKey key
  | .background, .done _ =>
      locking (.shard (shardIndex key)) .exclusive (locking .walQueue .exclusive [])
  | .direct, .refused =>
      -- the outer lock is given back first here
      [.acquire .walEnqueue .exclusive, .acquire (.shard (shardIndex key)) .exclusive,
        .release .walEnqueue, .release (.shard (shardIndex key))]
  | .direct, .done compaction =>
      locking .walEnqueue .exclusive (visitKey key) ++ maybeSnapshotAndTruncate compaction

/-- A delete finds nothing, is refused, or is done. -/
inductive DeletePath where
  | missing
  | refused
  | done (compaction : Compaction)

/-- The part of `delete` under the shard's lock. -/
def deleteLocked (mode : WalMode) (key : Bytes) (path : DeletePath) : LockTrace :=
  match mode, path with
  | .direct, _ => locking .walEnqueue .exclusive (visitKey key)
  | .background, .done _ =>
      locking (.shard (shardIndex key)) .exclusive (locking .walQueue .exclusive [])
  | _, _ => visitKey key

/-- The end of `delete`. -/
def deleteCompact (mode : WalMode) : DeletePath → LockTrace
  | .done compaction =>
      match mode with
      | .off => []
      | _ => maybeSnapshotAndTruncate compaction
  | _ => []

/-- `delete` of a key that belongs to no namespace, as keys with `bq:` in front do. -/
def deletePlain (mode : WalMode) (key : Bytes) (path : DeletePath) : LockTrace :=
  deleteLocked mode key path ++ deleteCompact mode path

def bqKey (key : Bytes) : Bytes := ascii "bq:" ++ key

/-- The namespaces of a key, each locked in its turn. -/
def indexTurns (nss : List Bytes) : LockTrace :=
  nss.flatMap (fun ns => locking (.index ns) .exclusive [])

/-- What `syncRawSetWithBq` wants done to the companion key. -/
inductive RawSetBqAction where
  | none
  | upsert (path : SetPath)
  | delete (path : DeletePath)

/-- `syncVectorSetWithRegistry`: the namespaces that the key is in, the one that takes a new
key, and what follows. -/
structure RawSet where
  matched : List Bytes
  best : Option Bytes
  bq : RawSetBqAction

def syncVectorSetWithRegistry (mode : WalMode) (key : Bytes) (raw : RawSet) : LockTrace :=
  locking .registry .shared (indexTurns (raw.matched ++ raw.best.toList)) ++
    match raw.bq with
    | .none => []
    | .upsert path => setWithTimestampNoVectorSync mode (bqKey key) path
    | .delete path => deletePlain mode (bqKey key) path

/-- `sync` is `none` where the registry is not asked. -/
def set (mode : WalMode) (key : Bytes) (path : SetPath) (sync : Option RawSet) : LockTrace :=
  setWithTimestampNoVectorSync mode key path ++
    match path, sync with
    | .done _, some raw => syncVectorSetWithRegistry mode key raw
    | _, _ => []

structure RawDelete where
  matched : List Bytes
  bq : DeletePath

def syncVectorDeleteWithRegistry (mode : WalMode) (key : Bytes) (raw : RawDelete) : LockTrace :=
  locking .registry .shared (indexTurns raw.matched) ++
    if raw.matched.isEmpty then [] else deletePlain mode (bqKey key) raw.bq

def delete (mode : WalMode) (key : Bytes) (path : DeletePath) (sync : Option RawDelete) :
    LockTrace :=
  deleteLocked mode key path ++
    (match path, sync with
     | .done _, some raw => syncVectorDeleteWithRegistry mode key raw
     | _, _ => []) ++
    deleteCompact mode path

/-- `appendVectorInsertWal` and `appendVectorDeleteWal`. -/
def appendVectorWal : WalMode → LockTrace
  | .direct => locking .walEnqueue .exclusive []
  | .background => locking .walQueue .exclusive []
  | .off => []

/-- `scanPrefixCallback`: the shards up to the one where the callback stops, and then those
that the frozen keys are looked up in. -/
structure ScanPath where
  visited : Nat
  probes : List (Fin shardCount)

def scanPrefixCallback (scan : ScanPath) : LockTrace :=
  ((List.finRange shardCount).take scan.visited ++ scan.probes).flatMap visit

/-! ## The vector index -/

/-- `NamespaceRegistry.get`. -/
def registryGet : LockTrace := locking .registry .shared []

/-- `NamespaceRegistry.getOrCreate`; the second look is for a namespace that is new. -/
def getOrCreate (absent : Bool) : LockTrace :=
  registryGet ++ if absent then locking .registry .exclusive [] else []

def indexRead (ns : Bytes) : LockTrace := locking (.index ns) .shared []

def indexWrite (ns : Bytes) : LockTrace := locking (.index ns) .exclusive []

/-- The graph is not updated, is updated here, or is left to the worker. -/
inductive GraphPath where
  | failed
  | sync
  | async

def updateGraph (ns : Bytes) : GraphPath → LockTrace
  | .failed => []
  | .sync => indexWrite ns
  | .async => locking (.asyncQueue ns) .exclusive []

/-- What `applyVinsert` finds: an index before it begins, a vector that does not fit it; how
its writes end; an index for the companion key. -/
structure VinsertPath where
  registered : Bool
  indexed : Bool
  fits : Bool
  stored : SetPath
  config : Option SetPath
  encodes : Bool
  indexedBq : Bool
  bq : SetPath
  absent : Bool
  graph : GraphPath

def vecNsMetaKey (ns : Bytes) : Bytes := ascii "__meta:vecns:" ++ ns

def persistNamespaceConfig (mode : WalMode) (ns : Bytes) (config : Option SetPath) : LockTrace :=
  visitKey (vecNsMetaKey ns) ++
    match config with
    | none => []
    | some path => setWithTimestampNoVectorSync mode (vecNsMetaKey ns) path

def onlyIf (c : Bool) (t : LockTrace) : LockTrace := if c then t else []

def applyVinsert (mode : WalMode) (key ns : Bytes) (path : VinsertPath) : LockTrace :=
  onlyIf path.registered (registryGet ++ onlyIf path.indexed (indexRead ns)) ++
    onlyIf path.fits
      (setWithTimestampNoVectorSync mode key path.stored ++
        match path.stored with
        | .done _ =>
            persistNamespaceConfig mode ns path.config ++ appendVectorWal mode ++
              onlyIf path.registered (registryGet ++ onlyIf path.indexedBq (indexRead ns)) ++
              onlyIf path.encodes
                (setWithTimestampNoVectorSync mode (bqKey key) path.bq ++
                  onlyIf path.registered
                    (getOrCreate path.absent ++ updateGraph ns path.graph))
        | _ => [])

structure VdeletePath where
  deleted : DeletePath
  sync : Option RawDelete
  bq : DeletePath
  registered : Bool
  indexed : Bool

def applyVdelete (mode : WalMode) (key ns : Bytes) (path : VdeletePath) : LockTrace :=
  delete mode key path.deleted path.sync ++
    match path.deleted with
    | .refused => []
    | _ =>
        appendVectorWal mode ++ deletePlain mode (bqKey key) path.bq ++
          match path.bq with
          | .refused => []
          | _ => onlyIf path.registered (registryGet ++ onlyIf path.indexed (indexWrite ns))

/-- `vreindex`: the index is locked while the shards are scanned.  `none` when the namespace
has another metric. -/
def vreindex (ns : Bytes) (absent : Bool) (scan : Option ScanPath) : LockTrace :=
  registryGet ++ getOrCreate absent ++
    match scan with
    | none => []
    | some scan => locking (.index ns) .exclusive (scanPrefixCallback scan)

/-- The quantized stage of `vsearch`: left out, by Hamming distance, not possible with the
parameters that are installed, or with them.  In the last case the index stays locked through
the scan and the reads that follow. -/
inductive QuantizedPath where
  | skipped
  | hamming (registered indexed : Bool) (scan : ScanPath) (copies : List Bytes)
  | unsupported
  | rabitq (scan : ScanPath) (copies : List Bytes)

def quantizedStage (ns : Bytes) : QuantizedPath → LockTrace
  | .skipped => []
  | .hamming registered indexed scan copies =>
      onlyIf registered (registryGet ++ onlyIf indexed (indexRead ns)) ++
        scanPrefixCallback scan ++ copies.flatMap visitKey
  | .unsupported => registryGet ++ indexRead ns
  | .rabitq scan copies =>
      registryGet ++
        locking (.index ns) .shared (scanPrefixCallback scan ++ copies.flatMap visitKey)

/-- What `vsearch` does: the graph is looked at (`some` with the keys it then checks), the
quantized stage, the scan of all vectors. -/
structure VsearchPath where
  registered : Bool
  graph : Option (List Bytes)
  quantized : QuantizedPath
  exact : Option ScanPath

def vsearch (queryKey ns : Bytes) (path : VsearchPath) : LockTrace :=
  visitKey queryKey ++
    onlyIf path.registered
      (registryGet ++
        match path.graph with
        | none => []
        | some keys => indexRead ns ++ keys.flatMap visitKey) ++
    quantizedStage ns path.quantized ++
    match path.exact with
    | none => []
    | some scan => scanPrefixCallback scan

/-! ## Procedures -/

/-- `MAX_LOCKS`. -/
def maxLocks : Nat := 16

/-- `acquireShard`: the shards that are locked afterwards, in the order they were. -/
def acquireShard (held : List (Fin shardCount)) (i : Fin shardCount) : List (Fin shardCount) :=
  if i ∈ held then held else if held.length ≥ maxLocks then held else held ++ [i]

def lockKey (held : List (Fin shardCount)) (key : Bytes) : List (Fin shardCount) :=
  acquireShard held (shardIndex key)

def lockKeys2 (held : List (Fin shardCount)) (keyA keyB : Bytes) : List (Fin shardCount) :=
  let a := shardIndex keyA
  let b := shardIndex keyB
  if a = b then acquireShard held a else acquireShard (acquireShard held (min a b)) (max a b)

/-- The locks of a procedure, around what it does with them; `deinit` gives them back, the
last one first. -/
def withShards (held : List (Fin shardCount)) (body : LockTrace) : LockTrace :=
  acquires .exclusive (held.map .shard) ++ body ++ releases (held.reverse.map .shard)

/-- `saveAndReleaseAllHeldShards`, an operation, and `reacquireAllHeldShards`. -/
def releasing (held : List (Fin shardCount)) (body : LockTrace) : LockTrace :=
  releases (held.reverse.map .shard) ++ body ++
    acquires .exclusive ((held.insertionSort (· ≤ ·)).map .shard)

/-- `fmt` into a buffer of 512 bytes; what does not fit is nothing. -/
def fmt (text : Bytes) : Bytes := if text.length ≤ 512 then text else []

def metaKey (key : Bytes) : Bytes := fmt (ascii "meta:" ++ key)

def statsReads : Bytes := ascii "stats:reads"

def statsWrites : Bytes := ascii "stats:writes"

/-- The three locks of `kv_put` and `kv_get`, in the order they ask for them. -/
def kvLocks (key stats : Bytes) : List (Fin shardCount) :=
  lockKey (lockKey (lockKey [] key) stats) (metaKey key)

def kvPut (key : Bytes) : LockTrace := withShards (kvLocks key statsWrites) []

def kvGet (key : Bytes) : LockTrace := withShards (kvLocks key statsReads) []

def kvStats : LockTrace := withShards (lockKeys2 [] statsReads statsWrites) []

def increment (key : Bytes) : LockTrace := withShards (lockKey [] key) []

def transfer (fromKey toKey : Bytes) : LockTrace := withShards (lockKeys2 [] fromKey toKey) []

def vsim (keyA keyB : Bytes) : LockTrace := withShards (lockKeys2 [] keyA keyB) []

/-- `mem_get`; `vectorOnly` namespaces have no documents. -/
def memGet (ns docId : Bytes) (vectorOnly : Bool) : LockTrace :=
  let docKey := ascii "mem:" ++ ns ++ ascii ":" ++ docId
  visitKey (ascii "__meta:mem:" ++ ns ++ ascii ":config") ++
    onlyIf (!vectorOnly) (withShards (lockKeys2 [] docKey (docKey ++ ascii ":meta")) [])

/-- `chat_send` of a message under the key it has made; a set that is refused ends it. -/
def chatSend (mode : WalMode) (key : Bytes) (path : SetPath) (sync : Option RawSet)
    (published : Bool) : LockTrace :=
  withShards (lockKey [] key)
    (releasing (lockKey [] key) (set mode key path sync) ++
      match path with
      | .done _ => onlyIf published (releasing (lockKey [] key) [])
      | _ => [])

def insertCountKey (ns : Bytes) : Bytes := ascii "__meta:" ++ ns ++ ascii "count"

/-- The procedure around `applyVinsert`; an error of it ends the procedure. -/
def vinsert (mode : WalMode) (key ns : Bytes) (path : VinsertPath) (counted : Bool) : LockTrace :=
  applyVinsert mode key ns path ++
    onlyIf counted (withShards (lockKey [] (insertCountKey ns)) [])

/-- `vstats`: three scans first, and then the index is read with the counter's shard
locked. -/
def vstats (ns : Bytes) (first : ScanPath) (registered indexed : Bool) : LockTrace :=
  (List.finRange shardCount).flatMap visit ++ (List.finRange shardCount).flatMap visit ++
    scanPrefixCallback first ++
    withShards (lockKey [] (fmt (insertCountKey ns)))
      (onlyIf registered (registryGet ++ onlyIf indexed (indexRead ns)))

/-! ## Operations -/

inductive LockOp where
  | set (mode : WalMode) (key : Bytes) (path : SetPath) (sync : Option RawSet)
  | delete (mode : WalMode) (key : Bytes) (path : DeletePath) (sync : Option RawDelete)
  | writeSnapshot (captured : Option (List Bytes))
  | applyVinsert (mode : WalMode) (key ns : Bytes) (path : VinsertPath)
  | applyVdelete (mode : WalMode) (key ns : Bytes) (path : VdeletePath)
  | vreindex (ns : Bytes) (absent : Bool) (scan : Option ScanPath)
  | vsearch (queryKey ns : Bytes) (path : VsearchPath)
  | kvPut (key : Bytes)
  | kvGet (key : Bytes)
  | kvStats
  | increment (key : Bytes)
  | transfer (fromKey toKey : Bytes)
  | vsim (keyA keyB : Bytes)
  | memGet (ns docId : Bytes) (vectorOnly : Bool)
  | chatSend (mode : WalMode) (key : Bytes) (path : SetPath) (sync : Option RawSet)
      (published : Bool)
  | vinsert (mode : WalMode) (key ns : Bytes) (path : VinsertPath) (counted : Bool)
  | vstats (ns : Bytes) (first : ScanPath) (registered indexed : Bool)

def LockOp.trace : LockOp → LockTrace
  | set mode key path sync => Locks.set mode key path sync
  | delete mode key path sync => Locks.delete mode key path sync
  | writeSnapshot captured => Locks.writeSnapshot captured
  | applyVinsert mode key ns path => Locks.applyVinsert mode key ns path
  | applyVdelete mode key ns path => Locks.applyVdelete mode key ns path
  | vreindex ns absent scan => Locks.vreindex ns absent scan
  | vsearch queryKey ns path => Locks.vsearch queryKey ns path
  | kvPut key => Locks.kvPut key
  | kvGet key => Locks.kvGet key
  | kvStats => Locks.kvStats
  | increment key => Locks.increment key
  | transfer fromKey toKey => Locks.transfer fromKey toKey
  | vsim keyA keyB => Locks.vsim keyA keyB
  | memGet ns docId vectorOnly => Locks.memGet ns docId vectorOnly
  | chatSend mode key path sync published => Locks.chatSend mode key path sync published
  | vinsert mode key ns path counted => Locks.vinsert mode key ns path counted
  | vstats ns first registered indexed => Locks.vstats ns first registered indexed

end WormDB.Locks
