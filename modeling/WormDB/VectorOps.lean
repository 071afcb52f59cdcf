import WormDB.DecimalText
import WormDB.VectorRegistry

/-! # Vector writes of `procedures/vector_ops.zig`

A node as the code above the store sees it: the live entries of its store, the registry of
vector indexes, the snapshots it has written, the events it has published and the frames
it has handed to its peers.
Each vector operation writes the vector, its quantised companion and the configuration of
the namespace to the store, brings the vector into the index, publishes an event and
replicates itself.

Every access to the store may fail with what `NodeEnv.fault` says; which entry a snapshot
or the log on disk then has is not part of this model. -/
namespace WormDB
open ByteCodec PrefixMap NamespaceRegistry

/-- What a node runs in: the clock and the failures of the store's accesses, by number, the
frozen entries below the store, whether the store knows the registry, and whether there
are peers. -/
structure NodeEnv where
  clock : Nat → UInt64
  fault : Nat → Option StoreError
  frozen : Bytes → Option Content
  rabitqEncode : Metric → RabitqParams → F32Slice → Bytes
  attached : Bool
  clustered : Bool

structure Node where
  kv : Kv
  registry : Option NamespaceRegistry
  events : List (Bytes × Bytes)
  outbox : List Command
  snapshots : List (Kv × Option NamespaceRegistry)
  accesses : Nat

namespace Node
variable (env : NodeEnv)

/-! ## The store's operations -/

/-- A write that nothing but a failure or a WORM entry stops, live or frozen. -/
def setWithTimestampNoVectorSync (s : Node) (key value : Bytes) (isWorm : Bool) (timestamp : UInt64) :
    Except StoreError Unit × Node :=
  let s' := { s with accesses := s.accesses + 1 }
  match env.fault s.accesses with
  | some e => (.error e, s')
  | none =>
      if ((s.kv.get key).or (env.frozen key)).any Content.isWorm then (.error .wormViolation, s')
      else (.ok (), { s' with kv := s.kv.insert key ⟨value, timestamp, isWorm⟩ })

/-- The part of `delete` under the shard's lock; says whether the key was there. -/
def remove (s : Node) (key : Bytes) : Except StoreError Bool × Node :=
  match s.kv.get key with
  | none => (.ok false, s)
  | some content =>
      if content.isWorm then (.error .wormViolation, s)
      else
        let s' := { s with accesses := s.accesses + 1 }
        match env.fault s.accesses with
        | some e => (.error e, s')
        | none => (.ok true, { s' with kv := s.kv.erase key })

def getValueDupe (s : Node) (key : Bytes) : Option Bytes :=
  ((s.kv.get key).or (env.frozen key)).map Content.value

/-- The companion's own deletion goes no further: its key is in no index. -/
def syncVectorDeleteWithRegistry (s : Node) (reg : NamespaceRegistry) (key : Bytes) : Node :=
  let result := reg.syncRawDelete key
  let s := { s with registry := some result.2 }
  if result.1 then (s.remove env (bqKey key)).2 else s

def syncVectorSetWithRegistry (s : Node) (reg : NamespaceRegistry) (key value : Bytes)
    (isWorm : Bool) (timestamp : UInt64) : Node :=
  let result := reg.syncRawSetWithBq env.rabitqEncode key value timestamp
  let s := { s with registry := some result.2 }
  match result.1 with
  | .none => s
  | .upsert bq => (s.setWithTimestampNoVectorSync env (bqKey key) bq isWorm timestamp).2
  | .delete => (s.remove env (bqKey key)).2

/-- A step that needs a registry, when the store has one. -/
def withRegistry (s : Node) (present : Bool) (f : NamespaceRegistry → Node) : Node :=
  match s.registry with
  | some reg => if present then f reg else s
  | none => s

def setWithTimestamp (s : Node) (key value : Bytes) (isWorm : Bool) (timestamp : UInt64) :
    Except StoreError Unit × Node :=
  match s.setWithTimestampNoVectorSync env key value isWorm timestamp with
  | (.error e, s) => (.error e, s)
  | (.ok _, s) =>
      (.ok (), s.withRegistry env.attached
        (fun reg => s.syncVectorSetWithRegistry env reg key value isWorm timestamp))

def set (s : Node) (key value : Bytes) (isWorm : Bool) : Except StoreError Unit × Node :=
  s.setWithTimestamp env key value isWorm (env.clock s.accesses)

def delete (s : Node) (key : Bytes) : Except StoreError Unit × Node :=
  match s.remove env key with
  | (.error e, s) => (.error e, s)
  | (.ok false, s) => (.ok (), s)
  | (.ok true, s) =>
      (.ok (), s.withRegistry env.attached (fun reg => s.syncVectorDeleteWithRegistry env reg key))

/-! Neither touches the registry. -/

variable {env} in
theorem write_registry (s : Node) (key value : Bytes) (isWorm : Bool) (timestamp : UInt64) :
    (s.setWithTimestampNoVectorSync env key value isWorm timestamp).2.registry = s.registry := by
  rw [setWithTimestampNoVectorSync]
  dsimp only
  split
  · rfl
  split <;> rfl

variable {env} in
theorem remove_registry (s : Node) (key : Bytes) : (s.remove env key).2.registry = s.registry := by
  rw [remove]
  split
  · rfl
  split
  · rfl
  dsimp only
  split <;> rfl

def publish (s : Node) (channel message : Bytes) : Node :=
  { s with events := s.events ++ [(channel, message)] }

/-- A frame for the peers. -/
def replicate (s : Node) (wanted : Bool) (frame : Command) : Node :=
  if wanted && env.clustered then { s with outbox := s.outbox ++ [frame] } else s

end Node

/-! ## Vector operations -/

namespace VectorOps
open Node

inductive VectorOpError where
  | invalidVectorBytes | keyMissingNamespace | dimensionMismatch | registryUnavailable
  | metricMismatch
  | store (e : StoreError)

/-- What `applyVinsert` makes of the store's error. -/
def insertError : StoreError → StoreError
  | .wormViolation => .wormViolation
  | .outOfMemory => .outOfMemory
  | _ => .ioError

structure VinsertArgs where
  key : Bytes
  vector : Bytes
  worm : Bool
  «namespace» : Bytes
  metric : Metric
  timestamp : UInt64
  replicate : Bool
  isAsync : Bool
  deriving DecidableEq

def keyBelongsToNamespace (key «namespace» : Bytes) : Bool :=
  decide (0 < «namespace».length) && «namespace».isPrefixOf key

def vecNsMetaPrefix : Bytes := ascii "__meta:vecns:"

def metaKey («namespace» : Bytes) : Bytes := vecNsMetaPrefix ++ «namespace»

def namespaceConfig (metric : Metric) (timestamp : UInt64) : Bytes :=
  ascii "\x7b\"metric\":\"" ++ metric.name ++ ascii "\",\"created_at\":" ++
    DecimalText.digits timestamp.toNat ++ ascii "\x7d"

section
variable (env : NodeEnv)

def persistNamespaceConfig (s : Node) («namespace» : Bytes) (metric : Metric) (timestamp : UInt64) :
    Node :=
  if (s.getValueDupe env (metaKey «namespace»)).isSome then s
  else
    (s.setWithTimestampNoVectorSync env (metaKey «namespace») (namespaceConfig metric timestamp)
      false timestamp).2

variable {env} in
theorem persist_registry (s : Node) («namespace» : Bytes) (metric : Metric) (timestamp : UInt64) :
    (persistNamespaceConfig env s «namespace» metric timestamp).registry = s.registry := by
  rw [persistNamespaceConfig]
  split
  · rfl
  · exact write_registry s _ _ _ _

def encodeBqOwned (vector : F32Slice) : Option NamespaceIndex → Bytes
  | some idx => encodeBqLocked env.rabitqEncode idx vector
  | none => binaryQuantize vector

def indexOf (s : Node) («namespace» : Bytes) : Option NamespaceIndex :=
  s.registry.bind (fun reg => reg.get «namespace»)

/-- The index is updated at once, or by the background worker. -/
def updateIndex (idx : NamespaceIndex) (isAsync : Bool)
    (enqueue insert : NamespaceIndex → NamespaceIndex) : NamespaceIndex :=
  let idx := if isAsync && !idx.asyncMode then idx.enableAsyncMode else idx
  if idx.asyncMode then enqueue idx else insert idx

/-- A namespace with another metric is left as it is. -/
def updateRegistry (s : Node) («namespace» : Bytes) (metric : Metric)
    (f : NamespaceIndex → NamespaceIndex) : Node :=
  match s.registry with
  | none => s
  | some reg =>
      match reg.getOrCreate «namespace» metric with
      | .error _ => s
      | .ok reg => { s with registry := some (reg.modify «namespace» f) }

def insertedSuffix : Bytes := ascii "inserted"
def deletedSuffix : Bytes := ascii "deleted"

/-- What `applyVinsert` does once the vector is in the store. -/
def finishVinsert (s : Node) (args : VinsertArgs) (vector : F32Slice) : Node :=
  let s := persistNamespaceConfig env s args.namespace args.metric args.timestamp
  let s := (s.setWithTimestampNoVectorSync env (bqKey args.key)
    (encodeBqOwned env vector (indexOf s args.namespace)) args.worm args.timestamp).2
  let s := updateRegistry s args.namespace args.metric (fun idx =>
    updateIndex idx args.isAsync (fun idx => idx.enqueueAsync args.key args.vector args.timestamp)
      (fun idx => idx.tryInsertLocked args.key vector args.timestamp))
  let s := s.publish (args.namespace ++ insertedSuffix) args.key
  s.replicate env args.replicate (.vinsert ⟨args.key, args.vector, args.worm, args.namespace,
    args.metric.name, args.timestamp, args.isAsync⟩)

def applyVinsert (s : Node) (args : VinsertArgs) : Except VectorOpError Unit × Node :=
  match bytesToF32 args.vector with
  | none => (.error .invalidVectorBytes, s)
  | some vector =>
      if !keyBelongsToNamespace args.key args.namespace then (.error .keyMissingNamespace, s)
      else if ((indexOf s args.namespace).bind NamespaceIndex.expectedDim).any
          (fun d => vector.len ≠ d) then (.error .dimensionMismatch, s)
      else
        match s.setWithTimestampNoVectorSync env args.key args.vector args.worm args.timestamp with
        | (.error e, s) => (.error (.store (insertError e)), s)
        | (.ok _, s) => (.ok (), finishVinsert env s args vector)

/-- One item of the first phase.  The length of the first vector is that of the batch. -/
def storeItem («namespace» : Bytes) (worm : Bool) (acc : Option Nat × Node) (item : BulkItem) :
    Option Nat × Node :=
  match bytesToF32 item.vector with
  | none => acc
  | some vector =>
      if acc.1.any (fun d => item.vector.length ≠ d) then acc
      else
        let dimCheck := some item.vector.length
        match acc.2.setWithTimestampNoVectorSync env item.key item.vector worm item.timestamp with
        | (.error _, s) => (dimCheck, s)
        | (.ok _, s) =>
            (dimCheck, (s.setWithTimestampNoVectorSync env (bqKey item.key)
              (encodeBqOwned env vector (indexOf s «namespace»)) worm item.timestamp).2)

/-- One item of the second phase. -/
def insertItem (idx : NamespaceIndex) (item : BulkItem) : NamespaceIndex :=
  match bytesToF32 item.vector with
  | none => idx
  | some vector => idx.tryInsertLocked item.key vector item.timestamp

def applyVbulkinsert (s : Node) («namespace» : Bytes) (metric : Metric) (worm isAsync : Bool)
    (items : List BulkItem) (replicate : Bool) : Except VectorOpError Unit × Node :=
  match items with
  | [] => (.ok (), s)
  | first :: _ =>
      if !items.all (fun item => keyBelongsToNamespace item.key «namespace») then
        (.error .keyMissingNamespace, s)
      else
        let s := persistNamespaceConfig env s «namespace» metric first.timestamp
        let s := (items.foldl (storeItem env «namespace» worm) (none, s)).2
        let s := updateRegistry s «namespace» metric (fun idx =>
          updateIndex idx isAsync (fun idx => idx.enqueueAsyncBatch items)
            (fun idx => items.foldl insertItem idx))
        let s := items.foldl (fun s item => s.publish («namespace» ++ insertedSuffix) item.key) s
        (.ok (), s.replicate env replicate (.vbulkinsert ⟨«namespace», metric.name, worm, isAsync, items⟩))

def applyVdelete (s : Node) (key «namespace» : Bytes) (replicate : Bool) :
    Except VectorOpError Unit × Node :=
  if !keyBelongsToNamespace key «namespace» then (.error .keyMissingNamespace, s)
  else
    match s.delete env key with
    | (.error e, s) => (.error (.store e), s)
    | (.ok _, s) =>
        match s.delete env (bqKey key) with
        | (.error .wormViolation, s) => (.error (.store .wormViolation), s)
        | (_, s) =>
            let s := { s with registry := s.registry.map (fun reg : NamespaceRegistry =>
              reg.modify «namespace» (fun idx => (idx.markTombstoneLocked key).2)) }
            let s := s.publish («namespace» ++ deletedSuffix) key
            (.ok (), s.replicate env replicate (.vdelete ⟨key, «namespace»⟩))

end

def applyVrabitqInstall (s : Node) (params : VrabitqInstallParams) (metric : Metric) :
    Except VectorOpError Unit × Node :=
  match s.registry with
  | none => (.error .registryUnavailable, s)
  | some reg =>
      if params.centroid.length ≠ params.dim.toNat * 4 then (.error .invalidVectorBytes, s)
      else if params.rotation.length ≠ params.dim.toNat * params.dim.toNat * 4 then
        (.error .invalidVectorBytes, s)
      else
        match reg.getOrCreate params.namespace metric with
        | .error _ => (.error .metricMismatch, s)
        | .ok reg =>
            (.ok (), { s with registry := some (reg.modify params.namespace (fun idx =>
              idx.setRabitqParams ⟨params.dim, params.seed, params.centroid, params.rotation⟩)) })

end VectorOps
end WormDB
