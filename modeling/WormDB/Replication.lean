import WormDB.DynamicTrust
import WormDB.Witness

/-! # Frames from other nodes

`handleReplicationConnection` of `server/tcp.zig` takes one frame after the other from a
node of another organisation and applies it to the store, the index and the event bus
without sending it on.  While trust is enforced, a frame that writes is first checked key
by key against `cluster/org_trust.zig`: against the prefixes the configuration grants the
organisation, and against a cached fold of the node's own trust log.

A frame of a kind that no peer sends is dropped.  Of the procedures a peer may run only
`append_log_witness` writes; the two others read, and are parameters. -/
namespace WormDB
open ByteCodec NamespaceRegistry VectorOps

namespace Replication
open TrustLog (Cache Query TrustEventJson capWrite logIdPrefix loadTrustEvents foldTrust bytesToHex)

/-! ## Organisation trust -/

structure Grant where
  orgPubkey : OrgKey
  prefixes : List Bytes
  deriving DecidableEq

structure DynamicTrust where
  ourOrg : OrgKey
  ttlMs : UInt64
  deriving DecidableEq

structure OrgTrust where
  enforce : Bool
  grants : List Grant
  dynamic : Option DynamicTrust

def OrgTrust.keyAuthorized (self : OrgTrust) (orgPubkey : OrgKey) (key : Bytes) : Bool :=
  self.grants.any (fun g => g.orgPubkey = orgPubkey && g.prefixes.any (fun pre => pre.isPrefixOf key))

/-- What a node runs in.  The clock and the failures of the trust checks are by number;
`noteUpdated` is the text of the event for a note, when its value can be read as one. -/
structure ReplEnv extends Witness.WitnessEnv where
  lookup : Bytes → Option (Auth.AuthContext → List Bytes → Node → Except Bytes Response × Node)
  report : Command → Node → Bytes
  persistence : PersistenceMode
  saveFault : Nat → Option Bytes
  parse : Bytes → Option TrustEventJson
  nowMs : Nat → UInt64
  foldFault : Nat → Bool
  noteUpdated : Bytes → Bytes → Option Bytes
  proofPrefixRoot : List Bytes → Node → Except Bytes Response
  vsearchLocalRaw : List Bytes → Node → Except Bytes Response

/-- The node with the cache of its dynamic trust, the generation of the process's trust
folds, and how many checks have read the clock. -/
structure Replica where
  node : Node
  cache : Option Cache
  generation : Nat
  checks : Nat

def logIdForOrg (org : OrgKey) : Bytes := logIdPrefix ++ bytesToHex org.bytes

section
variable (env : ReplEnv)

/-- The capabilities of our organisation's trust log in a store, at a time. -/
def foldedCapabilities (dynamic : DynamicTrust) (kv : Kv) (atMs : UInt64) :
    List TrustLog.Capability :=
  (foldTrust env.ed25519 dynamic.ourOrg
    (loadTrustEvents env.sha256 env.parse kv (logIdForOrg dynamic.ourOrg)).events atMs).capabilities

namespace DynamicTrust

/-- None when the fold fails; the cache is then as it was. -/
def refreshLocked (self : DynamicTrust) (s : Replica) (now : UInt64) : Option Cache :=
  if s.cache.any (fun cache => cache.fresh s.generation now self.ttlMs) then s.cache
  else if env.foldFault s.checks then none
  else some ⟨foldedCapabilities env self s.node.kv now, now, s.generation⟩

def authorized (self : DynamicTrust) (s : Replica) (q : Query) : Bool × Replica :=
  let now := env.nowMs s.checks
  match self.refreshLocked env s now with
  | none => (false, { s with checks := s.checks + 1 })
  | some cache =>
      (cache.caps.any (fun cap => cap.allows q now),
        { s with cache := some cache, checks := s.checks + 1 })

end DynamicTrust

/-! ## The frame loop -/

variable (orgTrust : Option OrgTrust) (peerOrg : Option OrgKey)

def replicationKeyAuthorized (s : Replica) (key : Bytes) : Bool × Replica :=
  match orgTrust with
  | none => (true, s)
  | some trust =>
      if !trust.enforce then (true, s)
      else
        match peerOrg with
        | none => (false, s)
        | some org =>
            if trust.keyAuthorized org key then (true, s)
            else
              match trust.dynamic with
              | none => (false, s)
              | some dynamic => dynamic.authorized env s ⟨org, key, capWrite⟩

/-- The keys of a bulk frame, up to the first that is not authorized. -/
def bulkAuthorized (s : Replica) : List BulkItem → Bool × Replica
  | [] => (true, s)
  | item :: items =>
      match replicationKeyAuthorized env orgTrust peerOrg s item.key with
      | (false, s) => (false, s)
      | (true, s) => bulkAuthorized s items

/-- The key is that of a note, and what its id is. -/
def noteId (key : Bytes) : Option Bytes :=
  if (ascii "note:").isPrefixOf key && key ≠ ascii "notes:index" then
    some (key.drop (ascii "note:").length)
  else none

def noteDeleted (id : Bytes) : Bytes :=
  ascii "\x7b\"type\":\"note:deleted\",\"id\":\"" ++ id ++ ascii "\"\x7d"

def notesChannel : Bytes := ascii "notes"

def publishNote (s : Node) (message : Option Bytes) : Node :=
  match message with
  | none => s
  | some message => s.publish notesChannel message

/-- A replicated write.  What the store says to it is not looked at. -/
def applySet (s : Node) (params : SetParams) : Node :=
  publishNote (s.set env.toNodeEnv params.key params.value params.worm).2
    ((noteId params.key).bind (fun id => env.noteUpdated id params.value))

def applyDelete (s : Node) (key : Bytes) : Node :=
  publishNote (s.delete env.toNodeEnv key).2 ((noteId key).map noteDeleted)

def receiveVinsert (s : Node) (params : VinsertParams) : Node :=
  match Metric.fromStr params.metric with
  | none => s
  | some metric =>
      (applyVinsert env.toNodeEnv s ⟨params.key, params.vector, params.worm, params.namespace,
        metric, params.timestamp, false, params.isAsync⟩).2

def receiveVbulkinsert (s : Node) (params : VbulkinsertParams) : Node :=
  match Metric.fromStr params.metric with
  | none => s
  | some metric =>
      (applyVbulkinsert env.toNodeEnv s params.namespace metric params.worm params.isAsync
        params.items false).2

def receiveVrabitqInstall (s : Node) (params : VrabitqInstallParams) : Node :=
  (applyVrabitqInstall s params (Executor.inferredMetric s params.namespace)).2

def appendLogWitness : Bytes := ascii "append_log_witness"

def isAllowedReplicationProcedure (name : Bytes) : Bool :=
  name = appendLogWitness || name = ascii "proof_prefix_root" || name = ascii "vsearch_local_raw"

def isOneWayReplicationProcedure (name : Bytes) : Bool := name = appendLogWitness

/-- The procedures a peer may run, among the others. -/
def lookup (name : Bytes) :
    Option (Auth.AuthContext → List Bytes → Node → Except Bytes Response × Node) :=
  if name = appendLogWitness then
    some (fun _ args s => Witness.witnessExecute env.toWitnessEnv s args)
  else if name = ascii "proof_prefix_root" then some (fun _ args s => (env.proofPrefixRoot args s, s))
  else if name = ascii "vsearch_local_raw" then some (fun _ args s => (env.vsearchLocalRaw args s, s))
  else env.lookup name

def execEnv : Executor.ExecEnv :=
  { env.toNodeEnv with
    lookup := lookup env, report := env.report, persistence := env.persistence,
    saveFault := env.saveFault }

/-- A procedure that a peer runs.  Under enforcement the peer must have shown its
organisation; the keys are not checked. -/
def receiveExec (s : Node) (params : ExecParams) : Option Response × Node :=
  let oneWay := isOneWayReplicationProcedure params.procedure
  let answer := fun response : Response => if oneWay then none else some response
  if !isAllowedReplicationProcedure params.procedure then
    (some (.err (ascii "unsupported replication command")), s)
  else if orgTrust.any OrgTrust.enforce && peerOrg.isNone then
    (answer (.err (ascii "unauthorized: org handshake required")), s)
  else
    match Executor.execute (execEnv env) .trusted s (.exec params) with
    | (.error _, s) => (answer (.err (ascii "replication EXEC failed")), s)
    | (.ok response, s) => (answer response, s)

/-- The rest of a frame once its key has been checked. -/
def whenAuthorized (check : Bool × Replica) (apply : Node → Node) : Replica :=
  match check with
  | (false, s) => s
  | (true, s) => { s with node := apply s.node }

/-- One turn of the loop: what is written back on the wire, and the node after it. -/
def receive (s : Replica) : Command → Option Response × Replica
  | .set params =>
      (none, whenAuthorized (replicationKeyAuthorized env orgTrust peerOrg s params.key)
        (fun node => applySet env node params))
  | .delete key =>
      (none, whenAuthorized (replicationKeyAuthorized env orgTrust peerOrg s key)
        (fun node => applyDelete env node key))
  | .vinsert params =>
      (none, whenAuthorized (replicationKeyAuthorized env orgTrust peerOrg s params.key)
        (fun node => receiveVinsert env node params))
  | .vdelete params =>
      (none, whenAuthorized (replicationKeyAuthorized env orgTrust peerOrg s params.key)
        (fun node => (applyVdelete env.toNodeEnv node params.key params.namespace false).2))
  | .vbulkinsert params =>
      (none, whenAuthorized (bulkAuthorized env orgTrust peerOrg s params.items)
        (fun node => receiveVbulkinsert env node params))
  | .vrabitqInstall params =>
      (none, whenAuthorized (replicationKeyAuthorized env orgTrust peerOrg s params.namespace)
        (fun node => receiveVrabitqInstall node params))
  | .exec params =>
      let result := receiveExec env orgTrust peerOrg s.node params
      (result.1, { s with node := result.2 })
  | _ => (none, s)

end

/-! ## Runs -/

/-- What happens to a node: a frame from a peer, or anything in the rest of the program,
which writes to the node and may revoke trust. -/
inductive Event where
  | frame (peerOrg : Option OrgKey) (cmd : Command)
  | elsewhere (node : Node) (revocations : Nat)

section
variable (env : ReplEnv) (orgTrust : Option OrgTrust)

def step (s : Replica) : Event → Replica
  | .frame peerOrg cmd => (receive env orgTrust peerOrg s cmd).2
  | .elsewhere node revocations => { s with node := node, generation := s.generation + revocations }

def run (s : Replica) (events : List Event) : Replica := events.foldl (step env orgTrust) s

end

end Replication
end WormDB
