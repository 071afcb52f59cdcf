import WormDB.Executor
import WormDB.TrustProcedures
import WormDB.VectorFrame

/-! # Witness records of `proof/witness.zig` and their procedure

A witness countersigns a checkpoint: it says that its identity has seen the checkpoint's
root, and authors nothing of the log.  `append_log_witness` of `procedures/append_log.zig`
loads a stored checkpoint, signs a record of it or takes a signature, verifies it and
stores the record under a key of its own, once.

Whatever its arguments are, the procedure leaves the store as it is, or creates one valid
witness record where there was nothing (`witnessExecute_cases`). -/
namespace WormDB
open ByteCodec ByteReader

namespace Checkpoint

inductive DecodeError where
  | invalidCheckpointRecord | unsupportedAccumulatorKind | unsupportedSignatureScheme
  | shape (e : Error)

/-! ## Canonical checkpoints -/

section
open DecodeError (invalidCheckpointRecord)

def readTerminatedDomain (domain bytes : Bytes) : Except DecodeError Bytes :=
  readTerminated invalidCheckpointRecord domain bytes

def readLenBytes (bytes : Bytes) : Except DecodeError (Bytes × Bytes) :=
  readLenPrefixed invalidCheckpointRecord 4 bytes

def readSignature (bytes : Bytes) : Except DecodeError (Signature × Bytes) :=
  readFixedSignature invalidCheckpointRecord bytes

def readOptionalHash (bytes : Bytes) : Except DecodeError (Option Hash × Bytes) := do
  let (present, rest) ← readUInt invalidCheckpointRecord 1 bytes
  match present with
  | 0 => return (none, rest)
  | 1 =>
      let (hash, rest) ← readHash invalidCheckpointRecord rest
      return (some hash, rest)
  | _ => throw invalidCheckpointRecord

def decodeAccumulatorKind (raw : Nat) : Except DecodeError AccumulatorKind :=
  AccumulatorKind.ofInt .unsupportedAccumulatorKind raw

def decodeSignatureScheme (raw : Nat) : Except DecodeError SignatureScheme :=
  SignatureScheme.ofInt .unsupportedSignatureScheme raw

/-- The record has no signature yet. -/
def decodeSigningPayload (bytes : Bytes) : Except DecodeError CheckpointRecord := do
  let rest ← readTerminatedDomain checkpointSigningDomain bytes
  let (version, rest) ← readUInt invalidCheckpointRecord 1 rest
  let (logId, rest) ← readLenBytes rest
  let (fromSeq, rest) ← readUInt invalidCheckpointRecord 8 rest
  let (toSeq, rest) ← readUInt invalidCheckpointRecord 8 rest
  let (rawKind, rest) ← readUInt invalidCheckpointRecord 1 rest
  let accumulatorKind ← decodeAccumulatorKind rawKind
  let (accumulatorRoot, rest) ← readHash invalidCheckpointRecord rest
  let (previousCheckpointHash, rest) ← readOptionalHash rest
  let (creatorIdentity, rest) ← readLenBytes rest
  let (rawScheme, rest) ← readUInt invalidCheckpointRecord 1 rest
  let signatureScheme ← decodeSignatureScheme rawScheme
  let (createdAtMs, rest) ← readUInt invalidCheckpointRecord 8 rest
  let (ingestedAtMs, rest) ← readUInt invalidCheckpointRecord 8 rest
  let (extensionBytes, rest) ← readLenBytes rest
  if rest ≠ [] then throw invalidCheckpointRecord
  return ⟨version.toUInt8, logId, fromSeq.toUInt64, toSeq.toUInt64, accumulatorKind,
    accumulatorRoot, previousCheckpointHash, creatorIdentity, signatureScheme, zeroSignature,
    createdAtMs.toUInt64, ingestedAtMs.toUInt64, extensionBytes⟩

def decodeCanonical (bytes : Bytes) : Except DecodeError CheckpointRecord := do
  let rest ← readTerminatedDomain checkpointRecordDomain bytes
  let (payload, rest) ← readLenBytes rest
  let (signature, rest) ← readSignature rest
  if rest ≠ [] then throw invalidCheckpointRecord
  let record ← decodeSigningPayload payload
  let record := { record with signature := signature }
  match record.validateShape with
  | .error e => throw (.shape e)
  | .ok () => return record

end

def errorName : Error → Bytes
  | .unsupportedCheckpointVersion => ascii "UnsupportedCheckpointVersion"
  | .emptyLogId => ascii "EmptyLogId"
  | .invalidSequenceRange => ascii "InvalidSequenceRange"
  | .fieldTooLarge => ascii "FieldTooLarge"
  | .invalidPublicKeyLength => ascii "InvalidPublicKeyLength"
  | .missingCheckpoint => ascii "MissingCheckpoint"
  | .invalidCheckpointSignature => ascii "InvalidCheckpointSignature"
  | .checkpointHashFailed => ascii "CheckpointHashFailed"
  | .checkpointLinkMismatch => ascii "CheckpointLinkMismatch"
  | .invalidSecretKey => ascii "InvalidSecretKey"

end Checkpoint

namespace Witness
open Checkpoint (CheckpointRecord AccumulatorKind SignatureScheme lenBytes terminated maxU32
  publicKeyLen)

/-! ## Witness records -/

def version : UInt8 := 1
def witnessSigningDomain : Bytes := ascii "wormdb.witness.sign.v1"
def witnessRecordDomain : Bytes := ascii "wormdb.witness.record.v1"

inductive Error where
  | unsupportedWitnessVersion | emptyLogId | invalidSequenceRange | fieldTooLarge
  | invalidPublicKeyLength | invalidSecretKey
  deriving DecidableEq

def errorName : Error → Bytes
  | .unsupportedWitnessVersion => ascii "UnsupportedWitnessVersion"
  | .emptyLogId => ascii "EmptyLogId"
  | .invalidSequenceRange => ascii "InvalidSequenceRange"
  | .fieldTooLarge => ascii "FieldTooLarge"
  | .invalidPublicKeyLength => ascii "InvalidPublicKeyLength"
  | .invalidSecretKey => ascii "InvalidSecretKey"

structure WitnessRecord where
  version : UInt8
  logId : Bytes
  fromSeq : UInt64
  toSeq : UInt64
  accumulatorKind : AccumulatorKind
  accumulatorRoot : Hash
  checkpointHash : Hash
  witnessIdentity : Bytes
  signatureScheme : SignatureScheme
  signature : Signature
  observedAtMs : UInt64
  extensionBytes : Bytes

namespace WitnessRecord

def validateShape (self : WitnessRecord) : Except Error Unit :=
  if self.version ≠ Witness.version then .error .unsupportedWitnessVersion
  else if self.logId.length = 0 then .error .emptyLogId
  else if self.fromSeq > self.toSeq then .error .invalidSequenceRange
  else if self.logId.length > maxU32 then .error .fieldTooLarge
  else if self.witnessIdentity.length > maxU32 then .error .fieldTooLarge
  else if self.extensionBytes.length > maxU32 then .error .fieldTooLarge
  else
    match self.signatureScheme with
    | .ed25519 =>
        if self.witnessIdentity.length ≠ publicKeyLen then .error .invalidPublicKeyLength
        else .ok ()

def fromCheckpoint (cp : CheckpointRecord) (cpHash : Hash) (witnessIdentity : Bytes)
    (observedAtMs : UInt64) (extensionBytes : Bytes) : WitnessRecord :=
  ⟨Witness.version, cp.logId, cp.fromSeq, cp.toSeq, cp.accumulatorKind, cp.accumulatorRoot, cpHash,
    witnessIdentity, .ed25519, zeroSignature, observedAtMs, extensionBytes⟩

def matchesCheckpoint (self : WitnessRecord) (cp : CheckpointRecord) (cpHash : Hash) : Bool :=
  decide (self.logId = cp.logId ∧ self.fromSeq = cp.fromSeq ∧ self.toSeq = cp.toSeq ∧
    self.accumulatorKind = cp.accumulatorKind ∧ self.accumulatorRoot = cp.accumulatorRoot ∧
    self.checkpointHash = cpHash)

/-- The bytes that are signed. -/
def signingPayload (self : WitnessRecord) : Bytes :=
  terminated witnessSigningDomain ++ [self.version] ++ lenBytes self.logId ++
    beBytes 8 self.fromSeq.toNat ++ beBytes 8 self.toSeq.toNat ++
    [self.accumulatorKind.backingInt] ++ self.accumulatorRoot.bytes ++
    self.checkpointHash.bytes ++ lenBytes self.witnessIdentity ++
    [self.signatureScheme.backingInt] ++ beBytes 8 self.observedAtMs.toNat ++
    lenBytes self.extensionBytes

def encodeSigningPayload (self : WitnessRecord) : Except Error Bytes :=
  match self.validateShape with
  | .error e => .error e
  | .ok () => .ok self.signingPayload

/-- The canonical record, with the signature. -/
def canonicalBytes (self : WitnessRecord) : Bytes :=
  terminated witnessRecordDomain ++ lenBytes self.signingPayload ++ self.signature.bytes

def encodeCanonical (self : WitnessRecord) : Except Error Bytes :=
  match self.encodeSigningPayload with
  | .error e => .error e
  | .ok payload =>
      if payload.length > maxU32 then .error .fieldTooLarge else .ok self.canonicalBytes

def recordHash (sha256 : Bytes → Hash) (self : WitnessRecord) : Except Error Hash :=
  match self.encodeCanonical with
  | .error e => .error e
  | .ok payload => .ok (sha256 payload)

def verifySignature (ed25519 : Ed25519) (self : WitnessRecord) : Except Error Bool :=
  match self.validateShape with
  | .error e => .error e
  | .ok () =>
      match self.encodeSigningPayload with
      | .error e => .error e
      | .ok payload =>
          match self.signatureScheme with
          | .ed25519 => .ok (ed25519.verify (self.witnessIdentity.take publicKeyLen) payload
              self.signature)

def signEd25519 (ed25519 : Ed25519) (self : WitnessRecord) (secretKey : Bytes) :
    Except Error Signature :=
  match self.encodeSigningPayload with
  | .error e => .error e
  | .ok payload =>
      match ed25519.sign secretKey payload with
      | none => .error .invalidSecretKey
      | some sig => .ok sig

end WitnessRecord

/-! ## Keys and texts -/

open AppendLog (hashToHex hexDigit)
open TrustLog (hexToBytes bytesToHex parseOrgHex parseSigHex)

def checkpointPrefix : Bytes := ascii "proof:append-log-checkpoint:v1:"
def witnessPrefix : Bytes := ascii "proof:append-log-witness:v1:"
def colon : UInt8 := 58

def checkpointKey (sha256 : Bytes → Hash) (logId : Bytes) (recordHash : Hash) : Bytes :=
  checkpointPrefix ++ hashToHex (sha256 logId) ++ [colon] ++ hashToHex recordHash

def witnessKey (sha256 : Bytes → Hash) (logId : Bytes) (checkpointHash : Hash)
    (witnessIdentity : Bytes) : Bytes :=
  witnessPrefix ++ hashToHex (sha256 logId) ++ [colon] ++ hashToHex checkpointHash ++ [colon] ++
    hashToHex (sha256 witnessIdentity)

/-- Where the record is stored. -/
def WitnessRecord.key (sha256 : Bytes → Hash) (self : WitnessRecord) : Bytes :=
  witnessKey sha256 self.logId self.checkpointHash self.witnessIdentity

def parseHashHex (hex : Bytes) : Option Hash := do
  let bytes ← hexToBytes hex
  if h : bytes.length = 32 then return ⟨bytes, h⟩ else none

def jsonChar (byte : UInt8) : Bytes :=
  if byte = 34 then ascii "\\\""
  else if byte = 92 then ascii "\\\\"
  else if byte = 10 then ascii "\\n"
  else if byte = 13 then ascii "\\r"
  else if byte = 9 then ascii "\\t"
  else if byte < 0x20 then ascii "\\u00" ++ [hexDigit (byte >>> 4), hexDigit (byte &&& 0x0f)]
  else [byte]

def jsonString (bytes : Bytes) : Bytes := ascii "\"" ++ bytes.flatMap jsonChar ++ ascii "\""

def accumulatorName : AccumulatorKind → Bytes
  | .opaqueRoot => ascii "opaque_root"
  | .merkleSha256V1 => ascii "merkle_sha256_v1"
  | .mmrSha256V1 => ascii "mmr_sha256_v1"

def witnessJson (record : WitnessRecord) (recordHash : Hash) (canonical : Bytes) : Bytes :=
  ascii "\x7b\"log_id\":" ++ jsonString record.logId ++ ascii ",\"from_seq\":" ++
    DecimalText.digits record.fromSeq.toNat ++ ascii ",\"to_seq\":" ++
    DecimalText.digits record.toSeq.toNat ++ ascii ",\"accumulator_kind\":\"" ++
    accumulatorName record.accumulatorKind ++ ascii "\",\"accumulator_root\":\"" ++
    hashToHex record.accumulatorRoot ++ ascii "\",\"checkpoint_hash\":\"" ++
    hashToHex record.checkpointHash ++ ascii "\",\"witness_identity\":\"" ++
    bytesToHex record.witnessIdentity ++ ascii "\",\"signature\":\"" ++
    bytesToHex record.signature.bytes ++ ascii "\",\"observed_at_ms\":" ++
    DecimalText.digits record.observedAtMs.toNat ++ ascii ",\"extension_hex\":\"" ++
    bytesToHex record.extensionBytes ++ ascii "\",\"witness_record_hash\":\"" ++
    hashToHex recordHash ++ ascii "\",\"canonical_record_hex\":\"" ++
    bytesToHex canonical ++ ascii "\"\x7d"

/-! ## Arguments -/

/-- How a procedure ends before it has written anything: with a text for the caller, or
with the name of an error. -/
abbrev Outcome := Except Bytes Response

def refuse {α : Type} (text : String) : Except Outcome α := .error (.ok (.err (ascii text)))

def raise {α : Type} (name : Bytes) : Except Outcome α := .error (.error name)

def usage : String :=
  "append_log_witness requires: <log_id> <checkpoint_hash_hex> [witness_pubkey_hex] " ++
    "[sk=<secret_key_hex>|sig=<signature_hex>] [observed_at_ms=<ms>] [ext=<hex>]"

structure WitnessOptions where
  signature : Option Signature
  secretKey : Option Signature
  observedAtMs : Option UInt64
  extensionBytes : Bytes

/-- What stands after the option's name. -/
def optionValue (name : String) (arg : Bytes) : Option Bytes :=
  if (ascii name).isPrefixOf arg then some (arg.drop (ascii name).length) else none

def isWitnessOption (arg : Bytes) : Bool :=
  (optionValue "sk=" arg).isSome || (optionValue "sig=" arg).isSome ||
    (optionValue "observed_at_ms=" arg).isSome || (optionValue "ext=" arg).isSome

def parseUnsigned64 (text : Bytes) : Option UInt64 :=
  (DecimalText.parseWithSign 65 false text).map (fun n => n.toNat.toUInt64)

/-- One turn of the loop over the options. -/
def witnessOption (opts : WitnessOptions) (arg : Bytes) : Except Outcome WitnessOptions :=
  match optionValue "observed_at_ms=" arg with
  | some text =>
      match parseUnsigned64 text with
      | none => refuse "append_log_witness: invalid observed_at_ms=<ms>"
      | some ms => .ok { opts with observedAtMs := some ms }
  | none =>
      match optionValue "sig=" arg with
      | some hex =>
          match parseSigHex hex with
          | none => refuse "append_log_witness: sig must be 128 hex chars"
          | some sig => .ok { opts with signature := some sig }
      | none =>
          match optionValue "sk=" arg with
          | some hex =>
              match parseSigHex hex with
              | none => refuse "append_log_witness: sk must be 128 hex chars"
              | some sk => .ok { opts with secretKey := some sk }
          | none =>
              match optionValue "ext=" arg with
              | some hex =>
                  match hexToBytes hex with
                  | none => refuse "append_log_witness: ext must be even-length hex"
                  | some bytes => .ok { opts with extensionBytes := bytes }
              | none => refuse "append_log_witness: unknown option"

structure WitnessArgs where
  logId : Bytes
  checkpointHash : Hash
  identity : Option OrgKey
  options : WitnessOptions

/-- The identity, when the first of the remaining arguments is no option. -/
def parseIdentity (args : List Bytes) : Except Outcome (Option OrgKey × List Bytes) :=
  match args with
  | [] => .ok (none, [])
  | arg :: rest =>
      if isWitnessOption arg then .ok (none, arg :: rest)
      else
        match parseOrgHex arg with
        | none => refuse "append_log_witness: witness public key must be 64 hex chars"
        | some key => .ok (some key, rest)

def parseArgs (args : List Bytes) : Except Outcome WitnessArgs := do
  match args with
  | [] => refuse usage
  | [_] => refuse usage
  | logId :: hashHex :: rest =>
      match parseHashHex hashHex with
      | none => refuse "append_log_witness: checkpoint hash must be 64 hex chars"
      | some checkpointHash =>
          let (identity, rest) ← parseIdentity rest
          let options ← rest.foldlM witnessOption ⟨none, none, none, []⟩
          if options.signature.isSome && options.secretKey.isSome then
            refuse ("append_log_witness: pass either sig=<signature_hex> or " ++
              "sk=<secret_key_hex>, not both")
          else return ⟨logId, checkpointHash, identity, options⟩

/-! ## The procedure -/

/-- The node's cluster identity, when there are peers, and the failures of reading. -/
structure WitnessEnv extends NodeEnv where
  sha256 : Bytes → Hash
  ed25519 : Ed25519
  identityPublicKey : OrgKey
  signWithIdentity : Bytes → Option Signature
  readFault : Bytes → Nat → Option StoreError

section
variable (env : WitnessEnv)

def readValue (s : Node) (key : Bytes) : Except StoreError (Option Bytes) :=
  match env.readFault key s.accesses with
  | some e => .error e
  | none => .ok (s.getValueDupe env.toNodeEnv key)

/-- A stored checkpoint whose hash is the one asked for. -/
def loadCheckpoint (s : Node) (logId : Bytes) (recordHash : Hash) :
    Except Outcome CheckpointRecord :=
  match readValue env s (checkpointKey env.sha256 logId recordHash) with
  | .error _ => refuse "append_log_witness: checkpoint load failed"
  | .ok none => refuse "append_log_witness: checkpoint not found"
  | .ok (some canonical) =>
      match Checkpoint.decodeCanonical canonical with
      | .error _ => refuse "append_log_witness: checkpoint load failed"
      | .ok record =>
          match record.recordHash env.sha256 with
          | .error _ => refuse "append_log_witness: checkpoint load failed"
          | .ok actual =>
              if actual ≠ recordHash then refuse "append_log_witness: checkpoint load failed"
              else .ok record

/-- The checkpoint that is witnessed, once it has been checked. -/
def checkedCheckpoint (s : Node) (logId : Bytes) (checkpointHash : Hash) :
    Except Outcome CheckpointRecord :=
  match loadCheckpoint env s logId checkpointHash with
  | .error outcome => .error outcome
  | .ok cp =>
      match cp.verifySignature env.ed25519 with
      | .error e => raise (Checkpoint.errorName e)
      | .ok false => refuse "append_log_witness: checkpoint signature invalid"
      | .ok true =>
          if cp.logId ≠ logId then refuse "append_log_witness: checkpoint log id mismatch"
          else .ok cp

/-- The signature: made with the key given, given itself, or made with the identity of the
cluster, if that is who witnesses. -/
def signatureOf (record : WitnessRecord) (opts : WitnessOptions) : Except Outcome Signature :=
  match opts.secretKey with
  | some sk =>
      match record.signEd25519 env.ed25519 sk.bytes with
      | .error _ => refuse "append_log_witness: signing failed"
      | .ok sig => .ok sig
  | none =>
      match opts.signature with
      | some sig => .ok sig
      | none =>
          if env.clustered then
            if record.witnessIdentity ≠ env.identityPublicKey.bytes then
              refuse "append_log_witness: missing sig=<signature_hex> or sk=<secret_key_hex>"
            else
              match record.encodeSigningPayload with
              | .error e => raise (errorName e)
              | .ok payload =>
                  match env.signWithIdentity payload with
                  | none => refuse "append_log_witness: cluster identity signing failed"
                  | some sig => .ok sig
          else refuse "append_log_witness: missing sig=<signature_hex> or sk=<secret_key_hex>"

/-- Who witnesses. -/
def identityOf (given : Option OrgKey) : Except Outcome OrgKey :=
  match given with
  | some key => .ok key
  | none =>
      if env.clustered then .ok env.identityPublicKey
      else refuse "append_log_witness: missing witness public key (or cluster identity)"

/-- The signed record and its canonical bytes. -/
def witnessRecord (s : Node) (args : WitnessArgs) : Except Outcome (WitnessRecord × Bytes) := do
  let identity ← identityOf env args.identity
  let cp ← checkedCheckpoint env s args.logId args.checkpointHash
  let record := WitnessRecord.fromCheckpoint cp args.checkpointHash identity.bytes
    (args.options.observedAtMs.getD (env.clock s.accesses)) args.options.extensionBytes
  let signature ← signatureOf env record args.options
  let record := { record with signature := signature }
  match record.verifySignature env.ed25519 with
  | .error e => raise (errorName e)
  | .ok false => refuse "append_log_witness: signature verification failed"
  | .ok true =>
      match record.encodeCanonical with
      | .error e => raise (errorName e)
      | .ok canonical => return (record, canonical)

/-- Says whether the record is new. -/
def storeWitnessCanonical (s : Node) (logId : Bytes) (record : WitnessRecord) (canonical : Bytes) :
    Except Bytes Bool × Node :=
  let key := witnessKey env.sha256 logId record.checkpointHash record.witnessIdentity
  match readValue env s key with
  | .error e => (.error (Executor.errorName (.store e)), s)
  | .ok (some existing) =>
      if existing = canonical then (.ok false, s) else (.error (ascii "WormViolation"), s)
  | .ok none =>
      match s.setWithTimestamp env.toNodeEnv key canonical true record.observedAtMs with
      | (.error .wormViolation, s) => (.error (ascii "WormViolation"), s)
      | (.error _, s) => (.error (ascii "WitnessStoreFailed"), s)
      | (.ok _, s) => (.ok true, s.replicate env.toNodeEnv true (.set ⟨key, canonical, true⟩))

def witnessExecute (s : Node) (args : List Bytes) : Outcome × Node :=
  match parseArgs args with
  | .error outcome => (outcome, s)
  | .ok parsed =>
      match witnessRecord env s parsed with
      | .error outcome => (outcome, s)
      | .ok (record, canonical) =>
          match storeWitnessCanonical env s parsed.logId record canonical with
          | (.error name, s) => (.error name, s)
          | (.ok _, s) =>
              match record.recordHash env.sha256 with
              | .error e => (.error (errorName e), s)
              | .ok hash => (.ok (.value (some (witnessJson record hash canonical))), s)

/-! ## What the procedure writes -/

/-- A valid witness record of a checkpoint in the store, created under a key of its own that
held nothing. -/
structure Created (s s' : Node) (record : WitnessRecord) (cp : CheckpointRecord) : Prop where
  checkpoint : checkedCheckpoint env s record.logId record.checkpointHash = .ok cp
  witnessed : record.matchesCheckpoint cp record.checkpointHash = true
  signed : record.verifySignature env.ed25519 = .ok true
  absent : s.getValueDupe env.toNodeEnv (record.key env.sha256) = none
  stored : s'.kv.get (record.key env.sha256) =
    some ⟨record.canonicalBytes, record.observedAtMs, true⟩
  others : ∀ k, k ≠ record.key env.sha256 → k ≠ NamespaceRegistry.bqKey (record.key env.sha256) →
    s'.kv.get k = s.kv.get k

end

/-- A plain write fails and leaves the store, or lands and touches at most the companion
besides. -/
theorem setWithTimestamp_cases (env : NodeEnv) (s : Node) (key value : Bytes) (isWorm : Bool)
    (timestamp : UInt64) :
    (∃ e s', s.setWithTimestamp env key value isWorm timestamp = (.error e, s') ∧ s'.kv = s.kv) ∨
    (∃ s', s.setWithTimestamp env key value isWorm timestamp = (.ok (), s') ∧
      s'.kv.get key = some ⟨value, timestamp, isWorm⟩ ∧
      ∀ k, k ≠ key → k ≠ NamespaceRegistry.bqKey key → s'.kv.get k = s.kv.get k) := by
  rw [Node.setWithTimestamp, Node.setWithTimestampNoVectorSync]
  dsimp only
  rcases hfault : env.fault s.accesses with _ | e
  · by_cases hworm : ((s.kv.get key).or (env.frozen key)).any Content.isWorm = true
    · rw [if_pos hworm]
      exact .inl ⟨_, _, rfl, rfl⟩
    · rw [if_neg hworm]
      refine .inr ⟨_, rfl, ?_⟩
      -- what follows the write itself is in the index and under the companion's key
      have hsync := @NodeFrame.withRegistry
        ⟨fun k => k = NamespaceRegistry.bqKey key, fun _ => True, fun _ => True, fun _ => True,
          fun _ => True⟩
        { s with kv := s.kv.insert key ⟨value, timestamp, isWorm⟩, accesses := s.accesses + 1 }
        env.attached _ (fun reg hreg => NodeFrame.syncVectorSetWithRegistry env hreg value isWorm
          timestamp trivial rfl)
      refine ⟨?_, fun k hkey hbq => ?_⟩
      · exact (hsync.kv key (NamespaceRegistry.bqKey_ne key).symm).trans (PrefixMap.ByteMap.get_insert_self _ _ _)
      · exact (hsync.kv k hbq).trans (PrefixMap.ByteMap.get_insert_of_ne _ _ hkey)
  · exact .inl ⟨_, _, rfl, rfl⟩

section
variable {env : WitnessEnv} {s : Node}

theorem checkedCheckpoint_logId {logId : Bytes} {hash : Hash} {cp : CheckpointRecord}
    (h : checkedCheckpoint env s logId hash = .ok cp) : cp.logId = logId := by
  rw [checkedCheckpoint] at h
  split at h
  · cases h
  split at h
  · cases h
  · cases h
  split at h
  · cases h
  · rename_i hlog
    cases h
    exact not_not.mp hlog

variable {record : WitnessRecord} {canonical : Bytes}

theorem encodeCanonical_ok
    (h : record.encodeCanonical = .ok canonical) : canonical = record.canonicalBytes := by
  rw [WitnessRecord.encodeCanonical] at h
  split at h
  · cases h
  split at h
  · cases h
  · exact (Except.ok.inj h).symm

theorem witnessRecord_ok {args : WitnessArgs}
    (h : witnessRecord env s args = .ok (record, canonical)) :
    record.logId = args.logId ∧ canonical = record.canonicalBytes ∧
      record.verifySignature env.ed25519 = .ok true ∧
      ∃ cp, checkedCheckpoint env s record.logId record.checkpointHash = .ok cp ∧
        record.matchesCheckpoint cp record.checkpointHash = true := by
  rw [witnessRecord] at h
  obtain ⟨identity, -, h⟩ := bind_ok h
  obtain ⟨cp, hcp, h⟩ := bind_ok h
  obtain ⟨signature, -, h⟩ := bind_ok h
  dsimp only at h
  split at h
  · cases h
  · cases h
  rename_i hsigned
  split at h
  · cases h
  rename_i hcanonical
  cases h
  have hlog := checkedCheckpoint_logId hcp
  refine ⟨hlog, encodeCanonical_ok hcanonical, hsigned, cp, ?_, ?_⟩
  · rw [← hlog] at hcp
    exact hcp
  · simp only [WitnessRecord.matchesCheckpoint, WitnessRecord.fromCheckpoint, decide_eq_true_eq,
      and_self]

theorem readValue_ok {key : Bytes} {value : Option Bytes} (h : readValue env s key = .ok value) :
    s.getValueDupe env.toNodeEnv key = value := by
  rw [readValue] at h
  split at h
  · cases h
  · exact Except.ok.inj h

/-- The store keeps its entries, or holds the record where it held nothing. -/
theorem storeWitnessCanonical_cases (env : WitnessEnv) (s : Node) (record : WitnessRecord)
    (canonical : Bytes) :
    (storeWitnessCanonical env s record.logId record canonical).2.kv = s.kv ∨
    (s.getValueDupe env.toNodeEnv (record.key env.sha256) = none ∧
      (storeWitnessCanonical env s record.logId record canonical).2.kv.get (record.key env.sha256) =
        some ⟨canonical, record.observedAtMs, true⟩ ∧
      ∀ k, k ≠ record.key env.sha256 → k ≠ NamespaceRegistry.bqKey (record.key env.sha256) →
        (storeWitnessCanonical env s record.logId record canonical).2.kv.get k = s.kv.get k) := by
  rw [storeWitnessCanonical]
  rcases hread : readValue env s (witnessKey env.sha256 record.logId record.checkpointHash
      record.witnessIdentity) with e | _ | existing
  · exact .inl rfl
  · rcases setWithTimestamp_cases env.toNodeEnv s (witnessKey env.sha256 record.logId
        record.checkpointHash record.witnessIdentity) canonical true record.observedAtMs with
      ⟨e, s', hset, hkv⟩ | ⟨s', hset, hself, hothers⟩
    · rw [hset]
      cases e <;> exact .inl hkv
    · rw [hset]
      -- the frame for the peers is no entry
      have hkv : (s'.replicate env.toNodeEnv true (.set ⟨witnessKey env.sha256 record.logId
          record.checkpointHash record.witnessIdentity, canonical, true⟩)).kv = s'.kv := by
        rw [Node.replicate]
        split <;> rfl
      refine .inr ⟨readValue_ok hread, ?_, fun k hkey hbq => ?_⟩
      · exact (congrArg (fun kv : Kv => kv.get _) hkv).trans hself
      · exact (congrArg (fun kv : Kv => kv.get k) hkv).trans (hothers k hkey hbq)
  · dsimp only
    split <;> exact .inl rfl

/-- **What the procedure can do to the store.** -/
theorem witnessExecute_cases (env : WitnessEnv) (s : Node) (args : List Bytes) :
    (witnessExecute env s args).2.kv = s.kv ∨
      ∃ record cp, Created env s (witnessExecute env s args).2 record cp := by
  rw [witnessExecute]
  split
  · exact .inl rfl
  rename_i parsed hparsed
  split
  · exact .inl rfl
  rename_i record canonical hrecord
  obtain ⟨hlog, rfl, hsigned, cp, hcp, hmatches⟩ := witnessRecord_ok hrecord
  have hcases := storeWitnessCanonical_cases env s record record.canonicalBytes
  rw [hlog] at hcases
  -- the answer is made after the store has the record
  have hanswer : ∀ result : Except Bytes Bool × Node, (match result with
      | (.error name, s) => ((.error name, s) : Outcome × Node)
      | (.ok _, s) =>
          match record.recordHash env.sha256 with
          | .error e => (.error (errorName e), s)
          | .ok hash => (.ok (.value (some (witnessJson record hash record.canonicalBytes))), s)).2 =
        result.2 := by
    rintro ⟨_ | _, s'⟩
    · rfl
    · dsimp only
      split <;> rfl
  rw [hanswer]
  rcases hcases with hkv | ⟨habsent, hstored, hothers⟩
  · exact .inl hkv
  · exact .inr ⟨record, cp, hcp, hmatches, hsigned, habsent, hstored, hothers⟩

end

end Witness
end WormDB
