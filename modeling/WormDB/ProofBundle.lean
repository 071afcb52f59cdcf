import WormDB.AppendLog
import WormDB.Checkpoint

/-! # The proof bundles of `proof/proof_bundle.zig`

A bundle gathers records of an append log, an inclusion proof for each and the
signed checkpoints whose roots the proofs lead to.  It is verified from its bytes
alone.  What an inclusion proof means is injected: `AccumulatorVerifier` says
whether a path leads from a leaf to a root, and `verifyMmrAccumulator` is the one
for mountain ranges. -/
namespace WormDB
open ByteCodec ByteReader
namespace Bundle
open Checkpoint (CheckpointRecord AccumulatorKind SignatureScheme lenBytes optionalHash)
open Mmr (maxU64)

def bundleMagic : Bytes := ascii "WDBPBND1"
def bundleCodecVersion : Nat := 1
def minRecordBytes : Nat := 8 + 32 + 4 + 1 + 4
def minProofBytes : Nat := 8 + 32 + 32 + 4 + 4
def minCheckpointBytes : Nat := 1 + 4 + 8 + 8 + 1 + 32 + 1 + 4 + 1 + 64 + 8 + 8 + 4
def maxU32 : Nat := 2 ^ 32 - 1

inductive Error where
  | unsupportedProofBundleVersion | emptyProofBundle | missingInclusionProof | bundleKindMismatch
  | nonContiguousRange | recordHashMismatch | missingValueHash | valueHashMismatch
  | inclusionLeafMismatch | checkpointRangeMismatch | inclusionProofRejected
  | invalidProofBundleBytes | unsupportedProofBundleCodecVersion
  | checkpoint (e : Checkpoint.Error)
  | log (e : AppendLog.Error)
  | mmr (e : Mmr.Error)
  deriving DecidableEq

inductive BundleKind where
  | singleEvent | range
  deriving DecidableEq

def BundleKind.backingInt : BundleKind → UInt8
  | singleEvent => 1
  | range => 2

structure BundleRecord where
  seq : UInt64
  canonicalRecordBytes : Bytes
  recordHash : Hash
  valueBytes : Option Bytes
  valueHash : Option Hash
  extensionBytes : Bytes
  deriving DecidableEq

/-- `pathBytes` are read by the verifier of the checkpoint's accumulator. -/
structure InclusionProof where
  seq : UInt64
  leafHash : Hash
  checkpointHash : Hash
  pathBytes : Bytes
  extensionBytes : Bytes
  deriving DecidableEq

structure ProofBundle where
  version : UInt8
  kind : BundleKind
  logId : Bytes
  records : List BundleRecord
  inclusionProofs : List InclusionProof
  checkpoints : List CheckpointRecord
  extensionBytes : Bytes
  deriving DecidableEq

structure BundleInfo where
  kind : BundleKind
  fromSeq : UInt64
  toSeq : UInt64
  recordCount : Nat
  checkpointCount : Nat
  accumulatorKind : AccumulatorKind
  accumulatorRoot : Hash
  checkpointHash : Hash
  deriving DecidableEq

/-- Kind, root, leaf hash, sequence number and path bytes. -/
abbrev AccumulatorVerifier := AccumulatorKind → Hash → Hash → UInt64 → Bytes → Bool

/-! ## Shape -/

/-- The loop of `validateContiguousRange`. -/
def contiguousFrom : UInt64 → List BundleRecord → Except Error Unit
  | _, [] => .ok ()
  | expectedSeq, record :: records =>
      if record.seq ≠ expectedSeq then .error .nonContiguousRange
      else if records.length = 0 then .ok ()
      else if expectedSeq.toNat = maxU64 then .error (.log .sequenceOverflow)
      else contiguousFrom (expectedSeq + 1) records

def validateContiguousRange (records : List BundleRecord) : Except Error Unit :=
  match records with
  | [] => .error .emptyProofBundle
  | record :: _ => contiguousFrom record.seq records

namespace ProofBundle

def validateShape (self : ProofBundle) : Except Error Unit :=
  if self.version ≠ Checkpoint.version then .error .unsupportedProofBundleVersion
  else if self.logId.length = 0 then .error (.checkpoint .emptyLogId)
  else if self.records.length = 0 then .error .emptyProofBundle
  else if self.checkpoints.length = 0 then .error (.checkpoint .missingCheckpoint)
  else if self.inclusionProofs.length < self.records.length then .error .missingInclusionProof
  else
    match self.kind with
    | .singleEvent => if self.records.length ≠ 1 then .error .bundleKindMismatch else .ok ()
    | .range => validateContiguousRange self.records

end ProofBundle

/-! ## Verification -/

section Verify
variable (sha256 : Bytes → Hash) (ed25519 : Ed25519)

def BundleRecord.verifyHashes (self : BundleRecord) : Except Error Unit :=
  if sha256 self.canonicalRecordBytes ≠ self.recordHash then .error .recordHashMismatch
  else
    match self.valueBytes with
    | none => .ok ()
    | some value =>
        match self.valueHash with
        | none => .error .missingValueHash
        | some expected => if sha256 value ≠ expected then .error .valueHashMismatch else .ok ()

def verifyMmrAccumulator : AccumulatorVerifier := fun kind root leafHash seq pathBytes =>
  if kind ≠ .mmrSha256V1 then false
  else if seq = 0 then false
  else
    match Mmr.decodeInclusionProof pathBytes with
    | .error _ => false
    | .ok proof =>
        if proof.leafIndex ≠ seq - 1 then false
        else Mmr.verifyInclusion sha256 proof leafHash.bytes root

namespace ProofBundle

def findProofForRecord (self : ProofBundle) (record : BundleRecord) : Option InclusionProof :=
  self.inclusionProofs.find? (fun proof =>
    decide (proof.seq = record.seq ∧ proof.leafHash = record.recordHash))

/-- The search of `findCheckpointByHash`. -/
def findByHash (hash : Hash) : List CheckpointRecord → Except Error (Option CheckpointRecord)
  | [] => .ok none
  | cp :: cps =>
      match cp.recordHash sha256 with
      | .error e => .error (.checkpoint e)
      | .ok cpHash => if cpHash = hash then .ok (some cp) else findByHash hash cps

def findCheckpointByHash (self : ProofBundle) (hash : Hash) :
    Except Error (Option CheckpointRecord) :=
  findByHash sha256 hash self.checkpoints

def verifyRecord (self : ProofBundle) (accumulatorVerifier : AccumulatorVerifier)
    (record : BundleRecord) : Except Error Unit :=
  match record.verifyHashes sha256 with
  | .error e => .error e
  | .ok () =>
      match self.findProofForRecord record with
      | none => .error .missingInclusionProof
      | some proof =>
          if proof.leafHash ≠ record.recordHash then .error .inclusionLeafMismatch
          else
            match self.findCheckpointByHash sha256 proof.checkpointHash with
            | .error e => .error e
            | .ok none => .error (.checkpoint .missingCheckpoint)
            | .ok (some cp) =>
                if !cp.coversSeq record.seq then .error .checkpointRangeMismatch
                else if !accumulatorVerifier cp.accumulatorKind cp.accumulatorRoot proof.leafHash
                    proof.seq proof.pathBytes then .error .inclusionProofRejected
                else .ok ()

def verifyRecords (self : ProofBundle) (accumulatorVerifier : AccumulatorVerifier) :
    List BundleRecord → Except Error Unit
  | [] => .ok ()
  | record :: records =>
      match self.verifyRecord sha256 accumulatorVerifier record with
      | .error e => .error e
      | .ok () => verifyRecords self accumulatorVerifier records

def verify (self : ProofBundle) (accumulatorVerifier : AccumulatorVerifier) : Except Error Unit :=
  match self.validateShape with
  | .error e => .error e
  | .ok () =>
      match Checkpoint.verifyIncludedCheckpointChain sha256 ed25519 self.checkpoints with
      | .error e => .error (.checkpoint e)
      | .ok () =>
          if self.checkpoints.any (fun cp => decide (cp.logId ≠ self.logId)) then
            .error (.log .logIdMismatch)
          else self.verifyRecords sha256 accumulatorVerifier self.records

end ProofBundle

/-- A record names the hash of the one before it; the log's first names no hash. -/
def linkBroken (previous : Option Hash) (seq : UInt64) (prevEventHash : Hash) : Bool :=
  match previous with
  | some prev => decide (prevEventHash ≠ prev)
  | none => decide (seq = 1 ∧ prevEventHash ≠ AppendLog.zeroHash)

/-- The loop of `verifyAppendLogRecords`. -/
def verifyAppendLogRecordsFrom (logId : Bytes) :
    UInt64 → Option Hash → List BundleRecord → Except Error Unit
  | _, _, [] => .ok ()
  | expectedSeq, previous, record :: records =>
      if record.seq ≠ expectedSeq then .error .nonContiguousRange
      else
        match AppendLog.decodeEnvelope record.canonicalRecordBytes with
        | .error e => .error (.log e)
        | .ok view =>
            if view.seq ≠ record.seq then .error (.log .sequenceKeyMismatch)
            else
              match AppendLog.verifyEnvelope sha256 logId view with
              | .error e => .error (.log e)
              | .ok () =>
                  if linkBroken previous record.seq view.prevEventHash then
                    .error (.log .prevHashMismatch)
                  else
                    verifyAppendLogRecordsFrom logId
                      (if expectedSeq.toNat ≠ maxU64 then expectedSeq + 1 else expectedSeq)
                      (some view.eventHash) records

def verifyAppendLogRecords (bundle : ProofBundle) : Except Error Unit :=
  match bundle.validateShape with
  | .error e => .error e
  | .ok () =>
      match bundle.records with
      | [] => .ok ()
      | record :: _ => verifyAppendLogRecordsFrom sha256 bundle.logId record.seq none bundle.records

def bundleInfo (bundle : ProofBundle) : Except Error BundleInfo :=
  match bundle.validateShape with
  | .error e => .error e
  | .ok () =>
      match bundle.records, bundle.records.getLast?, bundle.checkpoints with
      | firstRecord :: _, some lastRecord, primaryCheckpoint :: _ =>
          match primaryCheckpoint.recordHash sha256 with
          | .error e => .error (.checkpoint e)
          | .ok checkpointHash =>
              .ok ⟨bundle.kind, firstRecord.seq, lastRecord.seq, bundle.records.length,
                bundle.checkpoints.length, primaryCheckpoint.accumulatorKind,
                primaryCheckpoint.accumulatorRoot, checkpointHash⟩
      -- the shape rules this out
      | _, _, _ => .error .emptyProofBundle

def verifyAppendLogMmrBundle (bundle : ProofBundle) : Except Error BundleInfo :=
  match verifyAppendLogRecords sha256 bundle with
  | .error e => .error e
  | .ok () =>
      match bundle.verify sha256 ed25519 (verifyMmrAccumulator sha256) with
      | .error e => .error e
      | .ok () => bundleInfo sha256 bundle

end Verify

/-! ## Bytes

`[magic][u16 codec version][u8 version][u8 kind][log_id][extension_bytes]`, then the
records, the proofs and the checkpoints, each list behind its `u32` count; byte
strings stand behind their `u32` length, and all numbers are big-endian. -/

def checkedU32 (value : Nat) : Except Error Nat :=
  if value > maxU32 then .error (.checkpoint .fieldTooLarge) else .ok value

def appendLenBytes (bytes : Bytes) : Except Error Bytes :=
  if bytes.length > maxU32 then .error (.checkpoint .fieldTooLarge) else .ok (lenBytes bytes)

def encodeValue (valueBytes : Option Bytes) (valueHash : Option Hash) : Except Error Bytes :=
  match valueBytes with
  | none => .ok [0]
  | some value =>
      match valueHash with
      | none => .error .missingValueHash
      | some hash => do
          let value ← appendLenBytes value
          return 1 :: hash.bytes ++ value

def encodeRecord (record : BundleRecord) : Except Error Bytes := do
  let canonical ← appendLenBytes record.canonicalRecordBytes
  let value ← encodeValue record.valueBytes record.valueHash
  let extension ← appendLenBytes record.extensionBytes
  return beBytes 8 record.seq.toNat ++ record.recordHash.bytes ++ canonical ++ value ++ extension

def encodeProof (proof : InclusionProof) : Except Error Bytes := do
  let path ← appendLenBytes proof.pathBytes
  let extension ← appendLenBytes proof.extensionBytes
  return beBytes 8 proof.seq.toNat ++ proof.leafHash.bytes ++ proof.checkpointHash.bytes ++ path ++
    extension

def encodeCheckpoint (cp : CheckpointRecord) : Except Error Bytes := do
  let logId ← appendLenBytes cp.logId
  let creator ← appendLenBytes cp.creatorIdentity
  let extension ← appendLenBytes cp.extensionBytes
  return [cp.version] ++ logId ++ beBytes 8 cp.fromSeq.toNat ++ beBytes 8 cp.toSeq.toNat ++
    [cp.accumulatorKind.backingInt] ++ cp.accumulatorRoot.bytes ++
    optionalHash cp.previousCheckpointHash ++ creator ++ [cp.signatureScheme.backingInt] ++
    cp.signature.bytes ++ beBytes 8 cp.createdAtMs.toNat ++ beBytes 8 cp.ingestedAtMs.toNat ++
    extension

/-- The count and then every item. -/
def encodeItems {α : Type} (encodeItem : α → Except Error Bytes) (items : List α) :
    Except Error Bytes := do
  let count ← checkedU32 items.length
  let encoded ← items.mapM encodeItem
  return beBytes 4 count ++ encoded.flatten

def encodeCanonical (bundle : ProofBundle) : Except Error Bytes := do
  bundle.validateShape
  let logId ← appendLenBytes bundle.logId
  let extension ← appendLenBytes bundle.extensionBytes
  let records ← encodeItems encodeRecord bundle.records
  let proofs ← encodeItems encodeProof bundle.inclusionProofs
  let checkpoints ← encodeItems encodeCheckpoint bundle.checkpoints
  return bundleMagic ++ beBytes 2 bundleCodecVersion ++ [bundle.version] ++
    [bundle.kind.backingInt] ++ logId ++ extension ++ records ++ proofs ++ checkpoints

abbrev invalid : Error := .invalidProofBundleBytes

def readLenBytes (bytes : Bytes) : Except Error (Bytes × Bytes) :=
  readLenPrefixed invalid 4 bytes

def decodeBool (raw : Nat) : Except Error Bool :=
  match raw with
  | 0 => .ok false
  | 1 => .ok true
  | _ => .error invalid

def readBool (bytes : Bytes) : Except Error (Bool × Bytes) := do
  let (raw, rest) ← readUInt invalid 1 bytes
  let flag ← decodeBool raw
  return (flag, rest)

/-- The field of a present value. -/
def readIf {α : Type} (present : Bool) (read : Bytes → Except Error (α × Bytes)) (bytes : Bytes) :
    Except Error (Option α × Bytes) :=
  if present then do
    let (value, rest) ← read bytes
    return (some value, rest)
  else .ok (none, bytes)

def decodeBundleKind (raw : Nat) : Except Error BundleKind :=
  match raw with
  | 1 => .ok .singleEvent
  | 2 => .ok .range
  | _ => .error invalid

def decodeAccumulatorKind (raw : Nat) : Except Error AccumulatorKind :=
  Checkpoint.AccumulatorKind.ofInt invalid raw

def decodeSignatureScheme (raw : Nat) : Except Error SignatureScheme :=
  Checkpoint.SignatureScheme.ofInt invalid raw

def readSignature (bytes : Bytes) : Except Error (Signature × Bytes) :=
  readFixedSignature invalid bytes

def ensureRemainingItems (bytes : Bytes) (count itemLen minTrailing : Nat) : Except Error Unit :=
  if count * itemLen + minTrailing > bytes.length then .error invalid else .ok ()

def decodeRecord (bytes : Bytes) : Except Error (BundleRecord × Bytes) := do
  let (seq, rest) ← readUInt invalid 8 bytes
  let (recordHash, rest) ← readHash invalid rest
  let (canonicalRecordBytes, rest) ← readLenBytes rest
  let (hasValue, rest) ← readBool rest
  let (valueHash, rest) ← readIf hasValue (readHash invalid) rest
  let (valueBytes, rest) ← readIf hasValue readLenBytes rest
  let (extensionBytes, rest) ← readLenBytes rest
  return (⟨seq.toUInt64, canonicalRecordBytes, recordHash, valueBytes, valueHash, extensionBytes⟩,
    rest)

def decodeProof (bytes : Bytes) : Except Error (InclusionProof × Bytes) := do
  let (seq, rest) ← readUInt invalid 8 bytes
  let (leafHash, rest) ← readHash invalid rest
  let (checkpointHash, rest) ← readHash invalid rest
  let (pathBytes, rest) ← readLenBytes rest
  let (extensionBytes, rest) ← readLenBytes rest
  return (⟨seq.toUInt64, leafHash, checkpointHash, pathBytes, extensionBytes⟩, rest)

def decodeCheckpoint (bytes : Bytes) : Except Error (CheckpointRecord × Bytes) := do
  let (version, rest) ← readUInt invalid 1 bytes
  let (logId, rest) ← readLenBytes rest
  let (fromSeq, rest) ← readUInt invalid 8 rest
  let (toSeq, rest) ← readUInt invalid 8 rest
  let (rawKind, rest) ← readUInt invalid 1 rest
  let accumulatorKind ← decodeAccumulatorKind rawKind
  let (accumulatorRoot, rest) ← readHash invalid rest
  let (hasPrevious, rest) ← readBool rest
  let (previousCheckpointHash, rest) ← readIf hasPrevious (readHash invalid) rest
  let (creatorIdentity, rest) ← readLenBytes rest
  let (rawScheme, rest) ← readUInt invalid 1 rest
  let signatureScheme ← decodeSignatureScheme rawScheme
  let (signature, rest) ← readSignature rest
  let (createdAtMs, rest) ← readUInt invalid 8 rest
  let (ingestedAtMs, rest) ← readUInt invalid 8 rest
  let (extensionBytes, rest) ← readLenBytes rest
  return (⟨version.toUInt8, logId, fromSeq.toUInt64, toSeq.toUInt64, accumulatorKind,
    accumulatorRoot, previousCheckpointHash, creatorIdentity, signatureScheme, signature,
    createdAtMs.toUInt64, ingestedAtMs.toUInt64, extensionBytes⟩, rest)

/-- A count, whose items must have room, and then the items. -/
def decodeItems {α : Type} (minItemBytes minTrailing : Nat)
    (decodeItem : Bytes → Except Error (α × Bytes)) (bytes : Bytes) :
    Except Error (List α × Bytes) := do
  let (count, rest) ← readUInt invalid 4 bytes
  ensureRemainingItems rest count minItemBytes minTrailing
  readItems decodeItem count rest

def decodeCanonical (bytes : Bytes) : Except Error ProofBundle := do
  let (magic, rest) ← readBytes invalid bundleMagic.length bytes
  if magic ≠ bundleMagic then throw invalid
  let (codecVersion, rest) ← readUInt invalid 2 rest
  if codecVersion ≠ bundleCodecVersion then throw Error.unsupportedProofBundleCodecVersion
  let (version, rest) ← readUInt invalid 1 rest
  let (rawKind, rest) ← readUInt invalid 1 rest
  let kind ← decodeBundleKind rawKind
  let (logId, rest) ← readLenBytes rest
  let (extensionBytes, rest) ← readLenBytes rest
  let (records, rest) ← decodeItems minRecordBytes 4 decodeRecord rest
  let (inclusionProofs, rest) ← decodeItems minProofBytes 4 decodeProof rest
  let (checkpoints, rest) ← decodeItems minCheckpointBytes 0 decodeCheckpoint rest
  if rest.length ≠ 0 then throw invalid
  let bundle : ProofBundle := ⟨version.toUInt8, kind, logId, records, inclusionProofs, checkpoints,
    extensionBytes⟩
  bundle.validateShape
  return bundle

def verifyEncodedAppendLogMmrBundle (sha256 : Bytes → Hash) (ed25519 : Ed25519) (bytes : Bytes) :
    Except Error BundleInfo :=
  match decodeCanonical bytes with
  | .error e => .error e
  | .ok decoded => verifyAppendLogMmrBundle sha256 ed25519 decoded

end Bundle
end WormDB
