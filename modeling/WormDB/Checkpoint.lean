import WormDB.CanonicalCodec
import WormDB.MmrCodec

/-! # Signed checkpoints of `proof/checkpoint.zig`

A checkpoint commits to a contiguous range of a log and to an accumulator's root.
It is signed over every field but the signature, and its hash is taken over what is
signed together with the signature.

SHA-256 is the variable `sha256`.  Ed25519 is the variable `ed25519`: what the
library's key parsing, signing and verification do. -/
namespace WormDB
open ByteCodec ByteReader

/-- A 64-byte signature. -/
structure Signature where
  bytes : Bytes
  size_eq : bytes.length = 64
  deriving DecidableEq

def zeroSignature : Signature := ⟨List.replicate 64 0, List.length_replicate⟩

/-- The next 64 bytes, as every format reads a signature. -/
def readFixedSignature {ε : Type} (err : ε) (bytes : Bytes) : Except ε (Signature × Bytes) :=
  match h : splitBytes 64 bytes with
  | none => .error err
  | some (b, rest) => .ok (⟨b, splitBytes_length h⟩, rest)

/-- The signature scheme: `verify` says whether the public key can be read and the
signature of the message verifies under it, `sign` signs with the 64 bytes of a
secret key when they can be read. -/
structure Ed25519 where
  verify : (publicKey message : Bytes) → Signature → Bool
  sign : (secretKey message : Bytes) → Option Signature

namespace Checkpoint

def version : UInt8 := 1
def publicKeyLen : Nat := 32
def maxU32 : Nat := 2 ^ 32 - 1

def checkpointSigningDomain : Bytes := ascii "wormdb.checkpoint.sign.v1"
def checkpointRecordDomain : Bytes := ascii "wormdb.checkpoint.record.v1"

inductive Error where
  | unsupportedCheckpointVersion | emptyLogId | invalidSequenceRange | fieldTooLarge
  | invalidPublicKeyLength | missingCheckpoint | invalidCheckpointSignature
  | checkpointHashFailed | checkpointLinkMismatch | invalidSecretKey
  deriving DecidableEq

/-- Which accumulator produced the root. -/
inductive AccumulatorKind where
  | opaqueRoot | merkleSha256V1 | mmrSha256V1
  deriving DecidableEq

namespace AccumulatorKind

def backingInt : AccumulatorKind → UInt8
  | opaqueRoot => 0
  | merkleSha256V1 => 1
  | mmrSha256V1 => 2

/-- The kind a format writes as `raw`; each format has its own error for the others. -/
def ofInt {ε : Type} (err : ε) (raw : Nat) : Except ε AccumulatorKind :=
  match raw with
  | 0 => .ok .opaqueRoot
  | 1 => .ok .merkleSha256V1
  | 2 => .ok .mmrSha256V1
  | _ => .error err

theorem ofInt_ok_iff {ε : Type} {err : ε} {raw : Nat} {kind : AccumulatorKind} :
    ofInt err raw = .ok kind ↔ raw = kind.backingInt.toNat := by
  constructor
  · intro h
    unfold ofInt at h
    split at h <;> cases h <;> rfl
  · rintro rfl
    cases kind <;> rfl

end AccumulatorKind

inductive SignatureScheme where
  | ed25519
  deriving DecidableEq

namespace SignatureScheme

def backingInt : SignatureScheme → UInt8
  | ed25519 => 1

/-- The scheme a format writes as `raw`. -/
def ofInt {ε : Type} (err : ε) (raw : Nat) : Except ε SignatureScheme :=
  match raw with
  | 1 => .ok .ed25519
  | _ => .error err

theorem ofInt_ok_iff {ε : Type} {err : ε} {raw : Nat} {scheme : SignatureScheme} :
    ofInt err raw = .ok scheme ↔ raw = scheme.backingInt.toNat := by
  constructor
  · intro h
    unfold ofInt at h
    split at h <;> cases h
    rfl
  · rintro rfl
    cases scheme
    rfl

end SignatureScheme

structure CheckpointRecord where
  version : UInt8
  logId : Bytes
  fromSeq : UInt64
  toSeq : UInt64
  accumulatorKind : AccumulatorKind
  accumulatorRoot : Hash
  previousCheckpointHash : Option Hash
  creatorIdentity : Bytes
  signatureScheme : SignatureScheme
  signature : Signature
  createdAtMs : UInt64
  ingestedAtMs : UInt64
  extensionBytes : Bytes
  deriving DecidableEq

/-- A domain with its terminating zero. -/
def terminated (domain : Bytes) : Bytes := domain ++ [0]

def lenBytes (bytes : Bytes) : Bytes := beBytes 4 bytes.length ++ bytes

/-- An optional hash behind its presence byte. -/
def optionalHash : Option Hash → Bytes
  | none => [0]
  | some hash => 1 :: hash.bytes

namespace CheckpointRecord

def validateShape (self : CheckpointRecord) : Except Error Unit :=
  if self.version ≠ Checkpoint.version then .error .unsupportedCheckpointVersion
  else if self.logId.length = 0 then .error .emptyLogId
  else if self.fromSeq > self.toSeq then .error .invalidSequenceRange
  else if self.logId.length > maxU32 then .error .fieldTooLarge
  else if self.creatorIdentity.length > maxU32 then .error .fieldTooLarge
  else if self.extensionBytes.length > maxU32 then .error .fieldTooLarge
  else
    match self.signatureScheme with
    | .ed25519 =>
        if self.creatorIdentity.length ≠ publicKeyLen then .error .invalidPublicKeyLength
        else .ok ()

/-- The bytes that are signed. -/
def signingPayload (self : CheckpointRecord) : Bytes :=
  terminated checkpointSigningDomain ++ [self.version] ++ lenBytes self.logId ++
    beBytes 8 self.fromSeq.toNat ++ beBytes 8 self.toSeq.toNat ++
    [self.accumulatorKind.backingInt] ++ self.accumulatorRoot.bytes ++
    optionalHash self.previousCheckpointHash ++ lenBytes self.creatorIdentity ++
    [self.signatureScheme.backingInt] ++ beBytes 8 self.createdAtMs.toNat ++
    beBytes 8 self.ingestedAtMs.toNat ++ lenBytes self.extensionBytes

def encodeSigningPayload (self : CheckpointRecord) : Except Error Bytes :=
  match self.validateShape with
  | .error e => .error e
  | .ok () => .ok self.signingPayload

/-- The canonical record, with the signature. -/
def canonicalBytes (self : CheckpointRecord) : Bytes :=
  terminated checkpointRecordDomain ++ lenBytes self.signingPayload ++ self.signature.bytes

def encodeCanonical (self : CheckpointRecord) : Except Error Bytes :=
  match self.encodeSigningPayload with
  | .error e => .error e
  | .ok payload =>
      if payload.length > maxU32 then .error .fieldTooLarge else .ok self.canonicalBytes

def recordHash (sha256 : Bytes → Hash) (self : CheckpointRecord) : Except Error Hash :=
  match self.encodeCanonical with
  | .error e => .error e
  | .ok payload => .ok (sha256 payload)

def verifySignature (ed25519 : Ed25519) (self : CheckpointRecord) : Except Error Bool :=
  match self.validateShape with
  | .error e => .error e
  | .ok () =>
      match self.encodeSigningPayload with
      | .error e => .error e
      | .ok payload =>
          match self.signatureScheme with
          | .ed25519 => .ok (ed25519.verify (self.creatorIdentity.take publicKeyLen) payload
              self.signature)

def signEd25519 (ed25519 : Ed25519) (self : CheckpointRecord) (secretKey : Bytes) :
    Except Error Signature :=
  match self.encodeSigningPayload with
  | .error e => .error e
  | .ok payload =>
      match ed25519.sign secretKey payload with
      | none => .error .invalidSecretKey
      | some sig => .ok sig

def coversSeq (self : CheckpointRecord) (seq : UInt64) : Bool :=
  decide (seq ≥ self.fromSeq ∧ seq ≤ self.toSeq)

end CheckpointRecord

/-- The chain loop: each checkpoint is signed, and names the hash of the one before. -/
def verifyChainFrom (sha256 : Bytes → Hash) (ed25519 : Ed25519) :
    Option CheckpointRecord → List CheckpointRecord → Except Error Unit
  | _, [] => .ok ()
  | before, checkpoint :: checkpoints =>
      match checkpoint.verifySignature ed25519 with
      | .error e => .error e
      | .ok false => .error .invalidCheckpointSignature
      | .ok true =>
          match before with
          -- the first may name a predecessor that is not here; it is not looked at
          | none => verifyChainFrom sha256 ed25519 (some checkpoint) checkpoints
          | some before =>
              match before.recordHash sha256 with
              | .error _ => .error .checkpointHashFailed
              | .ok expected =>
                  match checkpoint.previousCheckpointHash with
                  | none => .error .checkpointLinkMismatch
                  | some actual =>
                      if expected ≠ actual then .error .checkpointLinkMismatch
                      else verifyChainFrom sha256 ed25519 (some checkpoint) checkpoints

def verifyIncludedCheckpointChain (sha256 : Bytes → Hash) (ed25519 : Ed25519)
    (checkpoints : List CheckpointRecord) : Except Error Unit :=
  if checkpoints.length = 0 then .error .missingCheckpoint
  else verifyChainFrom sha256 ed25519 none checkpoints

/-! ## What a verified checkpoint has -/

variable {sha256 : Bytes → Hash} {ed25519 : Ed25519}

/-- The creator's valid signature over every other field. -/
def CheckpointRecord.Signed (ed25519 : Ed25519) (self : CheckpointRecord) : Prop :=
  self.creatorIdentity.length = publicKeyLen ∧
    ed25519.verify self.creatorIdentity self.signingPayload self.signature = true

variable {self : CheckpointRecord}

theorem CheckpointRecord.validateShape_ok :
    self.validateShape = .ok () ↔ self.version = Checkpoint.version ∧ self.logId ≠ [] ∧
      self.fromSeq ≤ self.toSeq ∧ self.logId.length ≤ maxU32 ∧
      self.extensionBytes.length ≤ maxU32 ∧ self.creatorIdentity.length = publicKeyLen := by
  rw [validateShape]
  constructor
  · intro h
    split at h
    · cases h
    rename_i hversion
    split at h
    · cases h
    rename_i hlog
    split at h
    · cases h
    rename_i hrange
    split at h
    · cases h
    rename_i hlen
    split at h
    · cases h
    split at h
    · cases h
    rename_i hext
    split at h
    split at h
    · cases h
    rename_i hkey
    refine ⟨not_not.mp hversion, fun he => hlog (by rw [he]; rfl), UInt64.not_lt.mp hrange,
      Nat.not_lt.mp hlen, Nat.not_lt.mp hext, not_not.mp hkey⟩
  · rintro ⟨hversion, hlog, hrange, hlen, hext, hkey⟩
    have hcreator : self.creatorIdentity.length ≤ maxU32 := by rw [hkey]; decide
    rw [if_neg (not_not_intro hversion), if_neg (fun h => hlog (List.length_eq_zero_iff.mp h)),
      if_neg (UInt64.not_lt.mpr hrange), if_neg (Nat.not_lt.mpr hlen),
      if_neg (Nat.not_lt.mpr hcreator), if_neg (Nat.not_lt.mpr hext)]
    exact if_neg (not_not_intro hkey)

theorem CheckpointRecord.verifySignature_ok : self.verifySignature ed25519 = .ok true ↔
      self.validateShape = .ok () ∧ self.Signed ed25519 := by
  rw [verifySignature, encodeSigningPayload]
  constructor
  · intro h
    split at h
    · cases h
    rename_i hshape
    have hkey := (validateShape_ok.mp hshape).2.2.2.2.2
    simp only [Except.ok.injEq] at h
    rw [List.take_of_length_le (Nat.le_of_eq hkey)] at h
    exact ⟨hshape, hkey, h⟩
  · rintro ⟨hshape, hkey, hverify⟩
    simp only [hshape]
    rw [List.take_of_length_le (Nat.le_of_eq hkey), hverify]

variable {checkpoints : List CheckpointRecord}

/-- **Every checkpoint of a verified chain is signed.** -/
theorem verifyChainFrom_ok {before : Option CheckpointRecord}
    (h : verifyChainFrom sha256 ed25519 before checkpoints = .ok ()) :
    ∀ checkpoint ∈ checkpoints, checkpoint.validateShape = .ok () ∧ checkpoint.Signed ed25519 := by
  induction checkpoints generalizing before with
  | nil => simp
  | cons checkpoint checkpoints ih =>
    unfold verifyChainFrom at h
    split at h
    · cases h
    · cases h
    rename_i hsigned
    have hrest : verifyChainFrom sha256 ed25519 (some checkpoint) checkpoints = .ok () := by
      split at h
      · exact h
      split at h
      · cases h
      split at h
      · cases h
      split at h
      · cases h
      · exact h
    intro cp hcp
    rcases List.mem_cons.mp hcp with rfl | hcp
    · exact CheckpointRecord.verifySignature_ok.mp hsigned
    · exact ih hrest cp hcp

theorem verifyIncludedCheckpointChain_ok
    (h : verifyIncludedCheckpointChain sha256 ed25519 checkpoints = .ok ()) :
    ∀ checkpoint ∈ checkpoints, checkpoint.validateShape = .ok () ∧ checkpoint.Signed ed25519 := by
  rw [verifyIncludedCheckpointChain] at h
  split at h
  · cases h
  · exact verifyChainFrom_ok h

end Checkpoint
end WormDB
