import WormDB.ExecutorGate
import WormDB.WireRoundTrip
import WormDB.WriteReplay

/-! # Whether a frame can be replayed

A frame may carry keys of up to 16 MiB, and the log's records have 16 bits for the length of
a key.  A write is logged as it should be, and its records are read back, if and only if the
keys that it writes under have fewer than `2 ^ 16` bytes, among them the one of a companion,
which has three bytes more, and the one of a namespace's configuration, which has thirteen
more (`write_replayable_iff`).  Nothing between the parser and the log looks at these lengths:
a longer key ends the process (`long_key_traps`). -/
namespace WormDB
open ByteCodec ByteReader NamespaceRegistry VectorOps

namespace WalNode

/-! ## The frames -/

variable {payload : Bytes} {pos : Nat}

theorem readBytesField_length {field : Bytes} {pos' : Nat}
    (h : readBytesField payload pos = .ok (field, pos')) :
    pos' = pos + 4 + field.length ∧ pos' ≤ payload.length := by
  rw [readBytesField] at h
  split at h
  · cases h
  · dsimp only at h
    split at h
    · cases h
    · rename_i hlen
      cases h
      have hfield : (slice payload (pos + 4) (beNat (slice payload pos 4))).length =
          beNat (slice payload pos 4) := by
        rw [slice.eq_def payload (pos + 4), List.length_take, List.length_drop]
        omega
      omega

/-- Whatever it parses is a command of this kind. -/
def ParsesAs (id : CommandId) (parsed : Except WireFault Command) : Prop :=
  ∀ cmd, parsed = .ok cmd → cmd.id = id

variable {id : CommandId}

theorem ParsesAs.bind {α : Type} {x : Except WireFault α}
    {f : α → Except WireFault Command} (h : ∀ a, ParsesAs id (f a)) : ParsesAs id (x >>= f) := by
  intro cmd hcmd
  obtain ⟨a, -, hf⟩ := bind_ok hcmd
  exact h a cmd hf

variable {cmd : Command}

theorem ParsesAs.atEnd (h : cmd.id = id) (payload : Bytes) (pos : Nat) :
    ParsesAs id (atEnd payload pos cmd) := by
  intro cmd' hcmd
  rw [WormDB.atEnd] at hcmd
  split at hcmd
  · cases hcmd
  · rwa [← Except.ok.inj hcmd]

theorem ParsesAs.noPayload (h : cmd.id = id) (payload : Bytes) :
    ParsesAs id (noPayload payload cmd) := by
  intro cmd' hcmd
  rw [WormDB.noPayload] at hcmd
  split at hcmd
  · cases hcmd
  · rwa [← Except.ok.inj hcmd]

theorem ParsesAs.check {fault : WireFault} {c : Prop} [Decidable c]
    {parsed : Except WireFault Command} (h : ParsesAs id parsed) :
    ParsesAs id (if c then .error fault else parsed) := by
  intro cmd hcmd
  split at hcmd
  · cases hcmd
  · exact h cmd hcmd

theorem parseCommandPayload_id (id : CommandId) (payload : Bytes) :
    ParsesAs id (parseCommandPayload id payload) := by
  rw [parseCommandPayload.eq_def]
  cases id with
  | get | delete | unsubscribe | auth => exact .bind (fun _ => .atEnd rfl _ _)
  | subscribe =>
    refine .bind (fun _ => ?_)
    dsimp only
    split
    · exact .bind (fun _ => .atEnd rfl _ _)
    · exact .atEnd rfl _ _
  | set => exact .check (.check (.bind (fun _ => .bind (fun _ => .atEnd rfl _ _))))
  | publish | vdelete => exact .bind (fun _ => .bind (fun _ => .atEnd rfl _ _))
  | status | clusterStatus | clusterPeers | save => exact .noPayload rfl _
  | exec => exact .bind (fun _ => .bind (fun _ => .bind (fun _ => .atEnd rfl _ _)))
  | vinsert | vrabitqInstall =>
    exact .bind (fun _ => .bind (fun _ => .bind (fun _ => .bind (fun _ => .bind (fun _ => .bind (fun _ =>
      .atEnd rfl _ _))))))
  | vbulkinsert =>
    exact .bind (fun _ => .bind (fun _ => .bind (fun _ => .bind (fun _ => .check (.bind (fun _ =>
      .atEnd rfl _ _))))))

theorem atEnd_ok {cmd' : Command} (h : WormDB.atEnd payload pos cmd = .ok cmd') : cmd = cmd' := by
  rw [WormDB.atEnd] at h
  split at h
  · cases h
  · exact Except.ok.inj h

/-- A value that came with a frame is shorter than the frame. -/
theorem set_value_length {params : SetParams}
    (h : parseCommandPayload .set payload = .ok (.set params)) :
    params.value.length + 8 ≤ payload.length := by
  rw [parseCommandPayload.eq_def] at h
  dsimp only at h
  split at h
  · cases h
  split at h
  · cases h
  obtain ⟨⟨key, pos⟩, hkey, h⟩ := bind_ok h
  obtain ⟨⟨value, pos'⟩, hvalue, h⟩ := bind_ok h
  have hlen := readBytesField_length hvalue
  have hpos := readBytesField_length hkey
  cases atEnd_ok h
  dsimp only
  omega

theorem vinsert_vector_length {params : VinsertParams}
    (h : parseCommandPayload .vinsert payload = .ok (.vinsert params)) :
    params.vector.length ≤ payload.length := by
  rw [parseCommandPayload.eq_def] at h
  dsimp only at h
  obtain ⟨⟨key, pos⟩, hkey, h⟩ := bind_ok h
  obtain ⟨⟨vector, pos'⟩, hvector, h⟩ := bind_ok h
  obtain ⟨⟨flags, pos''⟩, -, h⟩ := bind_ok h
  obtain ⟨⟨ns, pos'''⟩, -, h⟩ := bind_ok h
  obtain ⟨⟨metric, pos''''⟩, -, h⟩ := bind_ok h
  obtain ⟨⟨ts, pos'''''⟩, -, h⟩ := bind_ok h
  have hlen := readBytesField_length hvector
  cases atEnd_ok h
  dsimp only
  omega

/-! ## Whether a write is replayable -/

/-- The executor passes the command on. -/
def Passes (auth : Auth.AuthContext) (cmd : Command) : Bool :=
  match auth with
  | .trusted | .disabled => true
  | .enforce token => token.any (fun state => Auth.commandPermittedUnion state cmd)

namespace Write

/-- The records of an accepted write: what it writes with its flags and its timestamp. -/
def OwnRecords (env : WalEnv) (s : Node) (new : List WalRecord) : Write → Prop
  | .set params =>
      .set params.key params.value (.written params.worm) (env.clock s.accesses) ∈ new
  | .delete key => s.kv.get key ≠ none → .delete key ∈ new
  | .vinsert params =>
      .set params.key params.vector (.written params.worm) params.timestamp ∈ new ∧
        (env.vectorFault = none → .vinsert params.key params.namespace params.metric
          (vinsertFlags params.worm params.isAsync) params.timestamp ∈ new)
  | .vdelete params =>
      (s.kv.get params.key ≠ none → .delete params.key ∈ new) ∧
        (env.vectorFault = none → .vdelete params.key params.namespace ∈ new)

/-- The keys that the write writes under are short enough for the log. -/
def Fits (env : WalEnv) (s : Node) : Write → Prop
  | .set params => SetFits env s params
  | .delete key => DeleteFits env s key
  | .vinsert params => ∀ metric, Metric.fromStr params.metric = some metric →
      Checked s ⟨params.key, params.vector, params.worm, params.namespace, metric, params.timestamp, true,
        params.isAsync⟩ → VinsertFits env s params.key params.namespace
  | .vdelete params =>
      keyBelongsToNamespace params.key params.namespace = true → VdeleteFits env s params.key

/-- The lengths of a frame. -/
def Bounded : Write → Prop
  | .set params => params.value.length + 8 ≤ maxPayloadLength
  | .vinsert params => params.vector.length ≤ maxPayloadLength
  | _ => True

theorem bounded_of_parse {w : Write}
    (hlen : payload.length ≤ maxPayloadLength)
    (hparse : parseCommandPayload id payload = .ok w.command) :
    w.Bounded := by
  obtain rfl := parseCommandPayload_id id payload _ hparse
  cases w with
  | set params => exact le_trans (set_value_length hparse) hlen
  | delete key => trivial
  | vinsert params => exact le_trans (vinsert_vector_length hparse) hlen
  | vdelete params => trivial

end Write

/-- The write involves no cast that is out of range, and the records of what it does are read
back, its own among them if it is accepted. -/
def Replayable (env : WalEnv) (auth : Auth.AuthContext) (n : WalNode) (w : Write) : Prop :=
  ∃ response n' new, n.execute env auth w = some (response, n') ∧ n'.log = n.log ++ new ∧
    (∀ r ∈ new, ReadBack r) ∧ (response = .ok .ok → w.OwnRecords env n.node new)

section
variable {env : WalEnv}

theorem vectorResponse_ok {message : VectorOpError → Bytes} {result : Except VectorOpError Unit × Node}
    (h : (Executor.vectorResponse message result).1 = .ok .ok) : result.1 = .ok () := by
  obtain ⟨result, s⟩ := result
  cases result with
  | ok _ => rfl
  | error e => cases h

theorem vectorResponse_log (message : VectorOpError → Bytes) (result : Except VectorOpError Unit × Node)
    (log : List WalRecord) : vectorResponse message (result.1, ⟨result.2, log⟩) =
      ((Executor.vectorResponse message result).1, ⟨(Executor.vectorResponse message result).2, log⟩) := by
  obtain ⟨result, s⟩ := result
  cases result with
  | ok _ => rfl
  | error e => rfl

theorem dispatch_logged (auth : Auth.AuthContext) (n : WalNode) {w : Write} (hw : w.Bounded) :
    ∃ new, Logged (w.Fits env n.node) (Executor.dispatch env.toExecEnv auth n.node w.command) n.log new
      (n.dispatch env w) ∧
      ((Executor.dispatch env.toExecEnv auth n.node w.command).1 = .ok .ok →
        w.OwnRecords env n.node new) := by
  cases w with
  | set params => exact executeSet_logged n hw
  | delete key => exact executeDelete_logged n key
  | vinsert params =>
    rw [dispatch, executeVinsert, Write.command, Executor.dispatch, Executor.executeVinsert, Write.Fits]
    cases hmetric : Metric.fromStr params.metric with
    | none => exact ⟨[], (Logged.pure _ n).congr (iff_of_true trivial (by rintro _ ⟨⟩)), by rintro ⟨⟩⟩
    | some metric =>
      obtain ⟨new, hlogged, hown⟩ := @applyVinsert_logged env n ⟨params.key,
        params.vector, params.worm, params.namespace, metric, params.timestamp, true, params.isAsync⟩ hw
      refine ⟨new, Logged.congr (hlogged.map (vectorResponse_log _ _ _)) ?_, fun hok => ?_⟩
      · constructor
        · intro h metric' hmetric'
          cases hmetric'
          exact h
        · exact fun h => h metric rfl
      · obtain ⟨hset, hvinsert⟩ := hown (vectorResponse_ok hok)
        rw [Executor.name_of_fromStr hmetric] at hvinsert
        exact ⟨hset, hvinsert⟩
  | vdelete params =>
    obtain ⟨new, hlogged, hown⟩ := @applyVdelete_logged env n params.key params.namespace true
    exact ⟨new, hlogged.map (vectorResponse_log _ _ _), fun hok => hown (vectorResponse_ok hok)⟩

theorem execute_logged (auth : Auth.AuthContext) (n : WalNode) {w : Write} (hw : w.Bounded) :
    ∃ new, Logged (Passes auth w.command = true → w.Fits env n.node)
      (Executor.execute env.toExecEnv auth n.node w.command) n.log new (n.execute env auth w) ∧
      ((Executor.execute env.toExecEnv auth n.node w.command).1 = .ok .ok →
        w.OwnRecords env n.node new) := by
  have hpass : ∀ {auth' : Auth.AuthContext} {passes : Bool}, passes = true → ∃ new,
      Logged (passes = true → w.Fits env n.node) (Executor.dispatch env.toExecEnv auth' n.node w.command)
        n.log new (n.dispatch env w) ∧
      ((Executor.dispatch env.toExecEnv auth' n.node w.command).1 = .ok .ok →
        w.OwnRecords env n.node new) := by
    intro auth' passes hpasses
    obtain ⟨new, hlogged, hown⟩ := dispatch_logged auth' n hw
    exact ⟨new, hlogged.congr ⟨fun h _ => h, fun h => h hpasses⟩, hown⟩
  have hoperation : (Auth.operationForCommand w.command).isSome = true := by cases w <;> rfl
  rw [execute.eq_def, Executor.execute.eq_def, Passes.eq_def]
  cases auth with
  | trusted | disabled => exact hpass rfl
  | enforce token =>
    dsimp only
    rw [if_pos hoperation, if_pos hoperation]
    cases token with
    | none => exact ⟨[], (Logged.pure _ n).congr (iff_of_true trivial nofun), nofun⟩
    | some state =>
      dsimp only
      cases hpermitted : Auth.commandPermittedUnion state w.command with
      | true => exact hpass (by rw [Option.any_some, hpermitted])
      | false =>
        refine ⟨[], (Logged.pure _ n).congr (iff_of_true trivial (fun h => ?_)), nofun⟩
        rw [Option.any_some, hpermitted] at h
        cases h

/-- **A write is replayable if and only if its keys are short enough**: for every frame, in
every state of the node. -/
theorem write_replayable_iff (auth : Auth.AuthContext) (n : WalNode) {w : Write} {id : CommandId}
    {payload : Bytes} (hlen : payload.length ≤ maxPayloadLength)
    (hparse : parseCommandPayload id payload = .ok w.command) :
    Replayable env auth n w ↔ (Passes auth w.command = true → w.Fits env n.node) := by
  obtain ⟨new, hlogged, hown⟩ := @execute_logged env auth n w (Write.bounded_of_parse hlen hparse)
  rw [Replayable]
  generalize n.execute env auth w = result at hlogged
  cases hlogged with
  | ends hfits hread =>
    exact iff_of_true ⟨_, _, new, rfl, rfl, hread, hown⟩ hfits
  | traps hfits =>
    refine iff_of_false ?_ hfits
    rintro ⟨response, n', new', hresult, -⟩
    cases hresult

end

/-- No failures, no registry, and no peers. -/
def sampleWalEnv : WalEnv where
  toExecEnv := { Executor.sampleEnv with
    persistence := .full
    rabitqEncode := fun _ _ v => List.replicate ((v.len + 7) / 8 + 8) 0 }
  memory := fun _ => true
  memory_fault := nofun
  vectorFault := none
  encode_length := fun _ _ _ => List.length_replicate

def emptyWalNode : WalNode := ⟨Executor.sampleNode, []⟩

/-- A `SET` of one byte under another. -/
theorem write_replayable_set :
    Replayable sampleWalEnv .trusted emptyWalNode (.set ⟨[97], [98], false⟩) :=
  (@write_replayable_iff sampleWalEnv .trusted emptyWalNode (.set ⟨[97], [98], false⟩) .set
    [0, 0, 0, 0, 1, 97, 0, 0, 0, 1, 98] (by decide) rfl).mpr (fun _ => ⟨fun _ => by decide, nofun⟩)

def longKey : Bytes := List.replicate 65536 97

theorem longKey_length : longKey.length = 65536 := List.length_replicate

/-- **A `SET` under a key of 65536 bytes**: the parser accepts it, and its serialization ends
the process. -/
theorem long_key_traps :
    (∃ payload, payload.length ≤ maxPayloadLength ∧
      parseCommandPayload .set payload = .ok (Write.set ⟨longKey, [98], false⟩).command) ∧
    emptyWalNode.execute sampleWalEnv .trusted (.set ⟨longKey, [98], false⟩) = none ∧
    ¬ Replayable sampleWalEnv .trusted emptyWalNode (.set ⟨longKey, [98], false⟩) := by
  have hlong : ¬ longKey.length < 65536 := by rw [longKey_length]; decide
  obtain ⟨new, hlogged, -⟩ := @execute_logged sampleWalEnv .trusted emptyWalNode
    (.set ⟨longKey, [98], false⟩) (show (9 : Nat) ≤ maxPayloadLength by decide)
  have hnone : emptyWalNode.execute sampleWalEnv .trusted (.set ⟨longKey, [98], false⟩) = none := by
    generalize emptyWalNode.execute sampleWalEnv .trusted (.set ⟨longKey, [98], false⟩) = result at hlogged
    cases hlogged with
    | ends hfits _ => exact absurd ((hfits rfl).1 rfl) hlong
    | traps _ => rfl
  have hlength : (Command.set ⟨longKey, [98], false⟩).payloadLen ≤ maxPayloadLength := by
    rw [Command.payloadLen, longKey_length]
    decide
  have hparse : parseCommandPayload (Command.set ⟨longKey, [98], false⟩).id
      (Command.set ⟨longKey, [98], false⟩).body = .ok (Command.set ⟨longKey, [98], false⟩) :=
    parse_body ⟨hlength, by rintro _ ⟨⟩⟩
  refine ⟨⟨(Command.set ⟨longKey, [98], false⟩).body, ?_, hparse⟩, hnone, ?_⟩
  · rw [Command.body_length]
    exact hlength
  · rintro ⟨response, n', new', hresult, -⟩
    cases hnone.symm.trans hresult

end WalNode
end WormDB
