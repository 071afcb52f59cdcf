import WormDB.Auth
import WormDB.VectorOps

/-! # The command executor of `server/executor.zig`

Every transport hands its commands to `execute`, with what it knows of the caller.  For a
client the command is first checked against the token; what it does then does not look at
the token again, except in a procedure.

The procedures and the texts of the status commands are parameters: a procedure may do
anything to the node. -/
namespace WormDB
open ByteCodec NamespaceRegistry VectorOps

namespace Executor
open Auth

structure ExecEnv extends NodeEnv where
  lookup : Bytes → Option (AuthContext → List Bytes → Node → Except Bytes Response × Node)
  report : Command → Node → Bytes
  persistence : PersistenceMode
  saveFault : Nat → Option Bytes

def errorName : VectorOpError → Bytes
  | .invalidVectorBytes => ascii "InvalidVectorBytes"
  | .keyMissingNamespace => ascii "KeyMissingNamespace"
  | .dimensionMismatch => ascii "DimensionMismatch"
  | .registryUnavailable => ascii "RegistryUnavailable"
  | .metricMismatch => ascii "MetricMismatch"
  | .store .keyNotFound => ascii "KeyNotFound"
  | .store .wormViolation => ascii "WormViolation"
  | .store .outOfMemory => ascii "OutOfMemory"
  | .store .ioError => ascii "IoError"
  | .store .corruption => ascii "Corruption"

def vinsertMessage : VectorOpError → Bytes
  | .invalidVectorBytes =>
      ascii "vinsert: invalid vector bytes (must be non-empty, len % 4 == 0)"
  | .store .wormViolation => ascii "WORM violation: vector key is immutable"
  | e => errorName e

def vdeleteMessage : VectorOpError → Bytes
  | .store .wormViolation => ascii "WORM violation: vector key is immutable"
  | e => errorName e

def vbulkinsertMessage : VectorOpError → Bytes
  | .keyMissingNamespace => ascii "vbulkinsert: item key outside its declared namespace"
  | e => errorName e

/-- A vector operation's end as a response. -/
def vectorResponse (message : VectorOpError → Bytes) (result : Except VectorOpError Unit × Node) :
    Except StoreError Response × Node :=
  match result with
  | (.ok _, s) => (.ok .ok, s)
  | (.error e, s) => (.ok (.err (message e)), s)

/-- A plain write's end as a response, and what is left to do when it went well. -/
def storeResponse (result : Except StoreError Unit × Node) (andThen : Node → Node) :
    Except StoreError Response × Node :=
  match result with
  | (.ok _, s) => (.ok .ok, andThen s)
  | (.error .wormViolation, s) => (.ok (.err (ascii "WORM violation: key is immutable")), s)
  | (.error e, s) => (.error e, s)

/-- The metric a namespace has, or `l2` when it has none yet. -/
def inferredMetric (s : Node) («namespace» : Bytes) : Metric :=
  ((indexOf s «namespace»).map NamespaceIndex.metric).getD .l2

section
variable (env : ExecEnv)

def executeSave (s : Node) : Except StoreError Response × Node :=
  if env.persistence = .none then (.ok .ok, s)
  else
    match env.saveFault s.accesses with
    | some name => (.ok (.err name), s)
    | none => (.ok .ok, { s with snapshots := s.snapshots ++ [(s.kv, s.registry)] })

def executeExec (auth : AuthContext) (s : Node) (params : ExecParams) :
    Except StoreError Response × Node :=
  match env.lookup params.procedure with
  | none => (.ok (.err (ascii "unknown procedure")), s)
  | some procedure =>
      match procedure auth params.args s with
      | (.ok response, s) => (.ok response, s)
      | (.error name, s) => (.ok (.err name), s)

def executeVinsert (s : Node) (params : VinsertParams) : Except StoreError Response × Node :=
  match Metric.fromStr params.metric with
  | none => (.ok (.err (ascii "vinsert: unknown metric (use cosine|dot|l2)")), s)
  | some metric =>
      vectorResponse vinsertMessage (applyVinsert env.toNodeEnv s
        ⟨params.key, params.vector, params.worm, params.namespace, metric, params.timestamp, true,
          params.isAsync⟩)

def executeVbulkinsert (s : Node) (params : VbulkinsertParams) : Except StoreError Response × Node :=
  match Metric.fromStr params.metric with
  | none => (.ok (.err (ascii "vbulkinsert: unknown metric (use cosine|dot|l2)")), s)
  | some metric =>
      vectorResponse vbulkinsertMessage (applyVbulkinsert env.toNodeEnv s params.namespace metric
        params.worm params.isAsync params.items true)

/-- The executor brings a plain write into the indexes itself when the store does not. -/
def executeSet (s : Node) (params : SetParams) : Except StoreError Response × Node :=
  storeResponse (s.set env.toNodeEnv params.key params.value params.worm) (fun s =>
    (s.withRegistry (!env.attached) (fun reg => s.syncVectorSetWithRegistry env.toNodeEnv reg
      params.key params.value params.worm (env.clock s.accesses))).replicate env.toNodeEnv true
        (.set params))

def executeDelete (s : Node) (key : Bytes) : Except StoreError Response × Node :=
  storeResponse (s.delete env.toNodeEnv key) (fun s =>
    (s.withRegistry (!env.attached) (fun reg => s.syncVectorDeleteWithRegistry env.toNodeEnv reg
      key)).replicate env.toNodeEnv true (.delete key))

def executeGet (s : Node) (key : Bytes) : Except StoreError Response × Node :=
  match env.fault s.accesses with
  | some _ => (.ok (.err (ascii "out of memory")), { s with accesses := s.accesses + 1 })
  | none => (.ok (.value (s.getValueDupe env.toNodeEnv key)), { s with accesses := s.accesses + 1 })

/-- What a command does once it may. -/
def dispatch (auth : AuthContext) (s : Node) : Command → Except StoreError Response × Node
  | .get key => executeGet env s key
  | .set params => executeSet env s params
  | .delete key => executeDelete env s key
  | .status => (.ok (.value (some (env.report .status s))), s)
  | .clusterStatus => (.ok (.value (some (env.report .clusterStatus s))), s)
  | .clusterPeers => (.ok (.value (some (env.report .clusterPeers s))), s)
  | .subscribe _ => (.ok .ok, s)
  | .unsubscribe _ => (.ok .ok, s)
  | .publish params => (.ok .ok, s.publish params.channel params.message)
  | .exec params => executeExec env auth s params
  | .save => executeSave env s
  | .auth _ => (.ok (.err (ascii "AUTH must be sent over gateway")), s)
  | .vinsert params => executeVinsert env s params
  | .vdelete params =>
      vectorResponse vdeleteMessage (applyVdelete env.toNodeEnv s params.key params.namespace true)
  | .vbulkinsert params => executeVbulkinsert env s params
  | .vrabitqInstall params =>
      vectorResponse errorName (applyVrabitqInstall s params (inferredMetric s params.namespace))

def execute (auth : AuthContext) (s : Node) (cmd : Command) : Except StoreError Response × Node :=
  match auth with
  | .trusted | .disabled => dispatch env auth s cmd
  | .enforce token =>
      if (operationForCommand cmd).isSome then
        match token with
        | none => (.ok (.err (ascii "auth required")), s)
        | some state =>
            if !commandPermittedUnion state cmd then (.ok (.err (ascii "permission denied")), s)
            else dispatch env auth s cmd
      else dispatch env auth s cmd

end

end Executor
end WormDB
