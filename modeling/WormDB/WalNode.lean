import WormDB.Executor
import WormDB.WalImage

/-! # A node that logs

The store of a node with `.full` persistence serializes the record of a write or of a
deletion before it does it, and its vector operations append a record of their own.  These
are the operations of `Node` with that: a record is in the log when the operation went well,
and a length that does not fit its field of the record ends the process (`none`).

`Logged` says what an operation comes to: it does what it does on the node and each of its
records is read back, when the lengths fit, and it ends the process when they do not. -/
namespace WormDB
open List ByteCodec NamespaceRegistry VectorOps

/-- Whether there is memory for the record of an access, and what the append of a vector
record fails with: it is not serialized for want of memory, and serialized all the same when
the file fails. -/
structure WalEnv extends Executor.ExecEnv where
  memory : Nat → Bool
  memory_fault : ∀ n, memory n = false → fault n ≠ none
  vectorFault : Option StoreError
  -- `encodedSize` of `vector/rabitq.zig`
  encode_length : ∀ metric params v, (rabitqEncode metric params v).length = (v.len + 7) / 8 + 8

structure WalNode where
  node : Node
  log : List WalRecord

namespace WalNode

/-- An access that serializes a record first. -/
def record {α : Type} (n : WalNode) (memory : Bool) (r : WalRecord)
    (result : Except StoreError α × Node) : Option (Except StoreError α × WalNode) :=
  if memory then
    (Wal.serializeRecord r).map (fun _ =>
      (result.1, ⟨result.2, if result.1.isOk then n.log ++ [r] else n.log⟩))
  else some (result.1, ⟨result.2, n.log⟩)

def withNode (n : WalNode) (node : Node) : WalNode := { n with node := node }

section
variable (env : WalEnv)

def setWithTimestampNoVectorSync (n : WalNode) (key value : Bytes) (isWorm : Bool) (timestamp : UInt64) :
    Option (Except StoreError Unit × WalNode) :=
  n.record (env.memory n.node.accesses) (.set key value (.written isWorm) timestamp)
    (n.node.setWithTimestampNoVectorSync env.toNodeEnv key value isWorm timestamp)

def remove (n : WalNode) (key : Bytes) : Option (Except StoreError Bool × WalNode) :=
  match n.node.kv.get key with
  | none => some (.ok false, n)
  | some content =>
      if content.isWorm then some (.error .wormViolation, n)
      else n.record (env.memory n.node.accesses) (.delete key) (n.node.remove env.toNodeEnv key)

def syncVectorDeleteWithRegistry (n : WalNode) (reg : NamespaceRegistry) (key : Bytes) :
    Option (Unit × WalNode) :=
  let result := reg.syncRawDelete key
  let n := n.withNode { n.node with registry := some result.2 }
  if result.1 then (n.remove env (bqKey key)).map (fun (_, n) => ((), n)) else some ((), n)

def syncVectorSetWithRegistry (n : WalNode) (reg : NamespaceRegistry) (key value : Bytes)
    (isWorm : Bool) (timestamp : UInt64) : Option (Unit × WalNode) :=
  let result := reg.syncRawSetWithBq env.rabitqEncode key value timestamp
  let n := n.withNode { n.node with registry := some result.2 }
  match result.1 with
  | .none => some ((), n)
  | .upsert bq =>
      (n.setWithTimestampNoVectorSync env (bqKey key) bq isWorm timestamp).map (fun (_, n) => ((), n))
  | .delete => (n.remove env (bqKey key)).map (fun (_, n) => ((), n))

def withRegistry (n : WalNode) (present : Bool) (f : NamespaceRegistry → Option (Unit × WalNode)) :
    Option (Unit × WalNode) :=
  match n.node.registry with
  | some reg => if present then f reg else some ((), n)
  | none => some ((), n)

def setWithTimestamp (n : WalNode) (key value : Bytes) (isWorm : Bool) (timestamp : UInt64) :
    Option (Except StoreError Unit × WalNode) :=
  (n.setWithTimestampNoVectorSync env key value isWorm timestamp).bind fun
    | (.error e, n) => some (.error e, n)
    | (.ok _, n) =>
        (n.withRegistry env.attached (fun reg =>
          n.syncVectorSetWithRegistry env reg key value isWorm timestamp)).map (fun (_, n) => (.ok (), n))

def set (n : WalNode) (key value : Bytes) (isWorm : Bool) : Option (Except StoreError Unit × WalNode) :=
  n.setWithTimestamp env key value isWorm (env.clock n.node.accesses)

def delete (n : WalNode) (key : Bytes) : Option (Except StoreError Unit × WalNode) :=
  (n.remove env key).bind fun
    | (.error e, n) => some (.error e, n)
    | (.ok false, n) => some (.ok (), n)
    | (.ok true, n) =>
        (n.withRegistry env.attached (fun reg => n.syncVectorDeleteWithRegistry env reg key)).map
          (fun (_, n) => (.ok (), n))

/-- The append of a vector record, whose error is only logged. -/
def appendVector (n : WalNode) (r : WalRecord) : Option (Unit × WalNode) :=
  match env.vectorFault with
  | some .outOfMemory => some ((), n)
  | fault =>
      (Wal.serializeRecord r).map (fun _ =>
        ((), { n with log := if fault.isNone then n.log ++ [r] else n.log }))

def vinsertFlags (isWorm isAsync : Bool) : UInt8 :=
  let flags := 0
  let flags := if isWorm then flags ||| 0x01 else flags
  if isAsync then flags ||| 0x02 else flags

def persistNamespaceConfig (n : WalNode) («namespace» : Bytes) (metric : Metric) (timestamp : UInt64) :
    Option (Unit × WalNode) :=
  if (n.node.getValueDupe env.toNodeEnv (metaKey «namespace»)).isSome then some ((), n)
  else
    (n.setWithTimestampNoVectorSync env (metaKey «namespace») (namespaceConfig metric timestamp)
      false timestamp).map (fun (_, n) => ((), n))

/-- What `applyVinsert` does once the vector is in the store. -/
def finishVinsert (n : WalNode) (args : VinsertArgs) (vector : F32Slice) : Option (Unit × WalNode) :=
  (n.persistNamespaceConfig env args.namespace args.metric args.timestamp).bind fun (_, n) =>
    (n.appendVector env (.vinsert args.key args.namespace args.metric.name
      (vinsertFlags args.worm args.isAsync) args.timestamp)).bind fun (_, n) =>
      (n.setWithTimestampNoVectorSync env (bqKey args.key)
        (encodeBqOwned env.toNodeEnv vector (indexOf n.node args.namespace)) args.worm
        args.timestamp).map fun (_, n) =>
        let s := updateRegistry n.node args.namespace args.metric (fun idx =>
          updateIndex idx args.isAsync
            (fun idx => idx.enqueueAsync args.key args.vector args.timestamp)
            (fun idx => idx.tryInsertLocked args.key vector args.timestamp))
        let s := s.publish (args.namespace ++ insertedSuffix) args.key
        ((), n.withNode (s.replicate env.toNodeEnv args.replicate (.vinsert ⟨args.key, args.vector,
          args.worm, args.namespace, args.metric.name, args.timestamp, args.isAsync⟩)))

def applyVinsert (n : WalNode) (args : VinsertArgs) : Option (Except VectorOpError Unit × WalNode) :=
  match bytesToF32 args.vector with
  | none => some (.error .invalidVectorBytes, n)
  | some vector =>
      if !keyBelongsToNamespace args.key args.namespace then some (.error .keyMissingNamespace, n)
      else if ((indexOf n.node args.namespace).bind NamespaceIndex.expectedDim).any
          (fun d => vector.len ≠ d) then some (.error .dimensionMismatch, n)
      else
        (n.setWithTimestampNoVectorSync env args.key args.vector args.worm args.timestamp).bind fun
          | (.error e, n) => some (.error (.store (insertError e)), n)
          | (.ok _, n) => (n.finishVinsert env args vector).map (fun (_, n) => (.ok (), n))

def applyVdelete (n : WalNode) (key «namespace» : Bytes) (replicate : Bool) :
    Option (Except VectorOpError Unit × WalNode) :=
  if !keyBelongsToNamespace key «namespace» then some (.error .keyMissingNamespace, n)
  else
    (n.delete env key).bind fun
      | (.error e, n) => some (.error (.store e), n)
      | (.ok _, n) =>
          (n.appendVector env (.vdelete key «namespace»)).bind fun (_, n) =>
            (n.delete env (bqKey key)).map fun
              | (.error .wormViolation, n) => (.error (.store .wormViolation), n)
              | (_, n) =>
                  let s := n.node
                  let s := { s with registry := s.registry.map (fun reg : NamespaceRegistry =>
                    reg.modify «namespace» (fun idx => (idx.markTombstoneLocked key).2)) }
                  let s := s.publish («namespace» ++ deletedSuffix) key
                  (.ok (), n.withNode (s.replicate env.toNodeEnv replicate (.vdelete ⟨key, «namespace»⟩)))

/-! ## The executor -/

def storeResponse (result : Except StoreError Unit × WalNode)
    (andThen : WalNode → Option (Unit × WalNode)) : Option (Except StoreError Response × WalNode) :=
  match result with
  | (.ok _, n) => (andThen n).map (fun (_, n) => (.ok .ok, n))
  | (.error .wormViolation, n) => some (.ok (.err (ascii "WORM violation: key is immutable")), n)
  | (.error e, n) => some (.error e, n)

def vectorResponse (message : VectorOpError → Bytes) (result : Except VectorOpError Unit × WalNode) :
    Except StoreError Response × WalNode :=
  match result with
  | (.ok _, n) => (.ok .ok, n)
  | (.error e, n) => (.ok (.err (message e)), n)

def executeSet (n : WalNode) (params : SetParams) : Option (Except StoreError Response × WalNode) :=
  (n.set env params.key params.value params.worm).bind fun result =>
    storeResponse result fun n =>
      (n.withRegistry (!env.attached) (fun reg => n.syncVectorSetWithRegistry env reg params.key
        params.value params.worm (env.clock n.node.accesses))).map fun (_, n) =>
          ((), n.withNode (n.node.replicate env.toNodeEnv true (.set params)))

def executeDelete (n : WalNode) (key : Bytes) : Option (Except StoreError Response × WalNode) :=
  (n.delete env key).bind fun result =>
    storeResponse result fun n =>
      (n.withRegistry (!env.attached) (fun reg => n.syncVectorDeleteWithRegistry env reg key)).map
        fun (_, n) => ((), n.withNode (n.node.replicate env.toNodeEnv true (.delete key)))

def executeVinsert (n : WalNode) (params : VinsertParams) :
    Option (Except StoreError Response × WalNode) :=
  match Metric.fromStr params.metric with
  | none => some (.ok (.err (ascii "vinsert: unknown metric (use cosine|dot|l2)")), n)
  | some metric =>
      (n.applyVinsert env ⟨params.key, params.vector, params.worm, params.namespace, metric,
        params.timestamp, true, params.isAsync⟩).map (vectorResponse Executor.vinsertMessage)

def executeVdelete (n : WalNode) (params : VdeleteParams) :
    Option (Except StoreError Response × WalNode) :=
  (n.applyVdelete env params.key params.namespace true).map (vectorResponse Executor.vdeleteMessage)

/-- The commands that write one key. -/
inductive Write where
  | set (params : SetParams)
  | delete (key : Bytes)
  | vinsert (params : VinsertParams)
  | vdelete (params : VdeleteParams)

def Write.command : Write → Command
  | .set params => .set params
  | .delete key => .delete key
  | .vinsert params => .vinsert params
  | .vdelete params => .vdelete params

def dispatch (n : WalNode) : Write → Option (Except StoreError Response × WalNode)
  | .set params => n.executeSet env params
  | .delete key => n.executeDelete env key
  | .vinsert params => n.executeVinsert env params
  | .vdelete params => n.executeVdelete env params

def execute (auth : Auth.AuthContext) (n : WalNode) (w : Write) :
    Option (Except StoreError Response × WalNode) :=
  match auth with
  | .trusted | .disabled => n.dispatch env w
  | .enforce token =>
      if (Auth.operationForCommand w.command).isSome then
        match token with
        | none => some (.ok (.err (ascii "auth required")), n)
        | some state =>
            if !Auth.commandPermittedUnion state w.command then
              some (.ok (.err (ascii "permission denied")), n)
            else n.dispatch env w
      else n.dispatch env w

end

/-! ## What is logged -/

/-- The record is read back, whatever follows it in the log. -/
def ReadBack (r : WalRecord) : Prop :=
  ∃ bytes, Wal.serializeRecord r = some bytes ∧ ∀ rest, Wal.next (bytes ++ rest) = .record r rest

/-- The operation does what it does on the node, with new records that are read back, or it
ends the process: which one is decided by whether the lengths fit. -/
inductive Logged {α : Type} (fits : Prop) (expected : α × Node) (log new : List WalRecord) :
    Option (α × WalNode) → Prop where
  | ends (hfits : fits) (hread : ∀ r ∈ new, ReadBack r) :
      Logged fits expected log new (some (expected.1, ⟨expected.2, log ++ new⟩))
  | traps (hfits : ¬ fits) : Logged fits expected log new none

section
variable {α β : Type} {fits fits' : Prop} {expected : α × Node} {expected' : β × Node}
  {log new new' : List WalRecord} {result : Option (α × WalNode)}

theorem Logged.congr (h : Logged fits expected log new result) (hiff : fits ↔ fits') :
    Logged fits' expected log new result := by
  cases h with
  | ends hfits hread => exact .ends (hiff.mp hfits) hread
  | traps hfits => exact .traps (fun h => hfits (hiff.mpr h))

theorem Logged.pure (a : α) (n : WalNode) : Logged True (a, n.node) n.log [] (some (a, n)) := by
  have h : Logged True (a, n.node) n.log [] (some (a, ⟨n.node, n.log ++ []⟩)) :=
    .ends trivial (nofun)
  rwa [append_nil] at h

variable {f : α × WalNode → Option (β × WalNode)}

section
variable (h : Logged fits expected log new result)
include h

theorem Logged.bind
    (h' : Logged fits' expected' (log ++ new) new' (f (expected.1, ⟨expected.2, log ++ new⟩))) :
    Logged (fits ∧ fits') expected' log (new ++ new') (result.bind f) := by
  cases h with
  | traps hfits => exact .traps (fun h => hfits h.1)
  | ends hfits hread =>
    rw [Option.bind_some]
    generalize f (expected.1, ⟨expected.2, log ++ new⟩) = result' at h'
    cases h' with
    | traps hfits' => exact .traps (fun h => hfits' h.2)
    | ends hfits' hread' =>
      rw [append_assoc]
      refine .ends ⟨hfits, hfits'⟩ (fun r hr => ?_)
      rcases mem_append.mp hr with hin | hin
      · exact hread r hin
      · exact hread' r hin

theorem Logged.bind_pure
    (hf : f (expected.1, ⟨expected.2, log ++ new⟩) = some (expected'.1, ⟨expected'.2, log ++ new⟩)) :
    Logged fits expected' log new (result.bind f) := by
  cases h with
  | traps hfits => exact .traps hfits
  | ends hfits hread =>
    rw [Option.bind_some, hf]
    exact .ends hfits hread

theorem Logged.map {f : α × WalNode → β × WalNode}
    (hf : f (expected.1, ⟨expected.2, log ++ new⟩) = (expected'.1, ⟨expected'.2, log ++ new⟩)) :
    Logged fits expected' log new (result.map f) := by
  cases h with
  | traps hfits => exact .traps hfits
  | ends hfits hread =>
    rw [Option.map_some, hf]
    exact .ends hfits hread

end

theorem Logged.record (n : WalNode) {memory : Bool} {r : WalRecord}
    (hread : Wal.serializeRecord r ≠ none → ReadBack r) (expected : Except StoreError α × Node) :
    Logged (memory = true → Wal.serializeRecord r ≠ none) expected n.log
      (if memory && expected.1.isOk then [r] else []) (n.record memory r expected) := by
  rw [WalNode.record]
  cases memory with
  | false =>
    rw [if_neg Bool.false_ne_true, Bool.false_and, if_neg Bool.false_ne_true]
    exact (Logged.pure expected.1 ⟨expected.2, n.log⟩).congr (by simp)
  | true =>
    rw [if_pos rfl, Bool.true_and]
    cases hser : Wal.serializeRecord r with
    | none => exact .traps (fun h => h rfl rfl)
    | some bytes =>
      rw [hser] at hread
      cases hok : expected.1.isOk with
      | false =>
        rw [Option.map_some, if_neg Bool.false_ne_true]
        exact (Logged.pure expected.1 ⟨expected.2, n.log⟩).congr (by simp)
      | true =>
        rw [Option.map_some, if_pos rfl]
        refine .ends (fun _ => Option.some_ne_none _) (fun r' hr' => ?_)
        obtain rfl := mem_singleton.mp hr'
        exact hread (Option.some_ne_none _)

end

theorem readBack {r : WalRecord} (hser : Wal.serializeRecord r ≠ none) (hflags : r.KnownFlags)
    (hlen : r.Replayable) : ReadBack r := by
  obtain ⟨bytes, hbytes⟩ := Option.ne_none_iff_exists'.mp hser
  exact ⟨bytes, hbytes, next_serializeRecord hbytes hflags hlen⟩

variable {key value : Bytes} {flags : EntryFlags} {timestamp : UInt64}

theorem set_serializes (hvalue : value.length ≤ maxPayloadLength) :
    Wal.serializeRecord (.set key value flags timestamp) ≠ none ↔ key.length < 65536 := by
  rw [maxPayloadLength] at hvalue
  rw [Wal.serializeRecord, Wal.serializeSetRecord]
  split
  · simp only [ne_eq, reduceCtorEq, not_false_eq_true, true_iff]
    omega
  · simp only [ne_eq, not_true_eq_false, false_iff]
    omega

theorem set_readBack (hvalue : value.length ≤ maxPayloadLength)
    (hser : Wal.serializeRecord (.set key value flags timestamp) ≠ none) :
    ReadBack (.set key value flags timestamp) := by
  refine readBack hser trivial ?_
  have hkey := (set_serializes hvalue).mp hser
  rw [maxPayloadLength] at hvalue
  rw [WalRecord.Replayable, WalRecord.payload, Wal.setPayload_length, Wal.setPayloadOverhead,
    Wal.maxPayloadLen]
  omega

theorem delete_serializes : Wal.serializeRecord (.delete key) ≠ none ↔ key.length < 65536 := by
  rw [Wal.serializeRecord, Wal.serializeDeleteRecord]
  split
  · simp only [ne_eq, reduceCtorEq, not_false_eq_true, true_iff]
    omega
  · simp only [ne_eq, not_true_eq_false, false_iff]
    omega

theorem delete_readBack (hser : Wal.serializeRecord (.delete key) ≠ none) :
    ReadBack (.delete key) := by
  refine readBack hser trivial ?_
  have hkey := delete_serializes.mp hser
  rw [WalRecord.Replayable, WalRecord.payload, Wal.deletePayload_length, Wal.delPayloadOverhead,
    Wal.maxPayloadLen]
  omega

variable {ns : Bytes}

/-- A key that begins with its namespace says whether both fit. -/
theorem vinsert_serializes (hns : ns.length ≤ key.length) (metric : Metric)
    (flags : UInt8) (timestamp : UInt64) :
    Wal.serializeRecord
    (.vinsert key ns metric.name flags timestamp) ≠ none ↔ key.length < 65536 := by
  have hmetric : metric.name.length < 256 ^ 2 := by cases metric <;> decide
  rw [Wal.serializeRecord, Wal.serializeVinsertRecord]
  split
  · simp only [ne_eq, reduceCtorEq, not_false_eq_true, true_iff]
    omega
  · simp only [ne_eq, not_true_eq_false, false_iff]
    omega

theorem vinsertFlags_known (isWorm isAsync : Bool) : vinsertFlags isWorm isAsync &&& 0b11111100 = 0 := by
  cases isWorm <;> cases isAsync <;> decide

theorem vinsert_readBack {metric : Metric} {isWorm isAsync : Bool}
    (hser : Wal.serializeRecord (.vinsert key ns metric.name (vinsertFlags isWorm isAsync) timestamp) ≠ none) :
    ReadBack (.vinsert key ns metric.name (vinsertFlags isWorm isAsync) timestamp) := by
  refine readBack hser (vinsertFlags_known isWorm isAsync) ?_
  rw [Wal.serializeRecord, Wal.serializeVinsertRecord] at hser
  split at hser
  · rename_i hfit
    rw [WalRecord.Replayable, WalRecord.payload, Wal.vinsertPayload, Wal.maxPayloadLen]
    simp only [length_append, length_cons, length_nil, leBytes_length]
    omega
  · exact absurd rfl hser

theorem vdelete_serializes (hns : ns.length ≤ key.length) :
    Wal.serializeRecord (.vdelete key ns) ≠ none ↔ key.length < 65536 := by
  rw [Wal.serializeRecord, Wal.serializeVdeleteRecord]
  split
  · simp only [ne_eq, reduceCtorEq, not_false_eq_true, true_iff]
    omega
  · simp only [ne_eq, not_true_eq_false, false_iff]
    omega

theorem vdelete_readBack (hser : Wal.serializeRecord (.vdelete key ns) ≠ none) :
    ReadBack (.vdelete key ns) := by
  refine readBack hser trivial ?_
  rw [Wal.serializeRecord, Wal.serializeVdeleteRecord] at hser
  split at hser
  · rename_i hfit
    rw [WalRecord.Replayable, WalRecord.payload, Wal.vdeletePayload, Wal.maxPayloadLen]
    simp only [length_append, leBytes_length]
    omega
  · exact absurd rfl hser

end WalNode
end WormDB
