import WormDB.Checkpoint
import WormDB.Wire

/-! # Capability tokens of `server/auth.zig`

A token is a signed list of capabilities, each of which names an operation and the
targets it may be done to: one target, all with a prefix, or all there are.  `encode`
makes a token and `verifyAndParse` checks and reads it; what was encoded is what is read
(`verifyAndParse_encode`).

A command maps to an operation and its targets.  `commandPermittedUnion` decides whether a token
permits it. -/
namespace WormDB
open List ByteCodec ByteReader

namespace Auth

inductive Operation where
  | get | set | delete | subscribe | publish | exec | all
  deriving DecidableEq

namespace Operation

def backingInt : Operation → UInt8
  | get => 0x01
  | set => 0x02
  | delete => 0x03
  | subscribe => 0x04
  | publish => 0x05
  | exec => 0x06
  | all => 0xFF

/-- `intToEnum`. -/
def ofByte (b : UInt8) : Option Operation :=
  [get, set, delete, subscribe, publish, exec, all].find? (fun op => op.backingInt = b)

theorem ofByte_backingInt (op : Operation) : ofByte op.backingInt = some op := by
  cases op <;> rfl

end Operation

/-- How the pattern of a capability matches a target. -/
inductive MatchType where
  | exact | prefixed | wildcard
  deriving DecidableEq

namespace MatchType

def backingInt : MatchType → UInt8
  | exact => 0x01
  | prefixed => 0x02
  | wildcard => 0xFF

/-- `intToEnum`. -/
def ofByte (b : UInt8) : Option MatchType :=
  [exact, prefixed, wildcard].find? (fun m => m.backingInt = b)

theorem ofByte_backingInt (m : MatchType) : ofByte m.backingInt = some m := by
  cases m <;> rfl

end MatchType

structure Capability where
  op : Operation
  matchType : MatchType
  pattern : Bytes
  deriving DecidableEq

/-- The capability's turn in the loop of `permits`. -/
def Capability.permits (cap : Capability) (op : Operation) (target : Bytes) : Bool :=
  if cap.op ≠ .all ∧ cap.op ≠ op then false
  else
    match cap.matchType with
    | .wildcard => true
    | .exact => cap.pattern == target
    | .prefixed => cap.pattern.isPrefixOf target

structure TokenState where
  subject : Bytes
  iat : UInt64
  exp : UInt64
  jti : UInt32
  capabilities : List Capability
  deriving DecidableEq

def TokenState.permits (self : TokenState) (op : Operation) (target : Bytes) : Bool :=
  self.capabilities.any (fun cap => cap.permits op target)

/-! ## The token's bytes -/

inductive Error where
  | tokenTooShort | invalidSignature | malformedToken | tokenExpired | tokenNotYetValid
  | tokenTooLongLived | invalidSecretKey
  | trap
  deriving DecidableEq

def signatureLen : Nat := 64

def Capability.bytes (cap : Capability) : Bytes :=
  [cap.op.backingInt, cap.matchType.backingInt] ++ beBytes 4 cap.pattern.length ++ cap.pattern

def TokenState.payload (state : TokenState) : Bytes :=
  beBytes 8 state.iat.toNat ++ (beBytes 8 state.exp.toNat ++ (beBytes 4 state.subject.length ++
    (state.subject ++ (beBytes 4 state.jti.toNat ++ (state.capabilities.length.toUInt8 ::
      state.capabilities.flatMap Capability.bytes)))))

/-- Every length fits its field. -/
def TokenState.Fits (state : TokenState) : Prop :=
  state.subject.length < 2 ^ 32 ∧ state.capabilities.length < 2 ^ 8 ∧
    ∀ cap ∈ state.capabilities, cap.pattern.length < 2 ^ 32

instance (state : TokenState) : Decidable state.Fits := inferInstanceAs (Decidable (_ ∧ _ ∧ _))

section
variable (ed25519 : Ed25519)

/-- A length that does not fit its field traps. -/
def encode (subject : Bytes) (iat exp : UInt64) (jti : UInt32) (caps : List Capability)
    (secretKey : Bytes) : Except Error Bytes :=
  let state : TokenState := ⟨subject, iat, exp, jti, caps⟩
  if ¬ state.Fits then .error .trap
  else
    match ed25519.sign secretKey state.payload with
    | none => .error .invalidSecretKey
    | some sig => .ok (state.payload ++ sig.bytes)

def readCapability (bytes : Bytes) : Except Error (Capability × Bytes) := do
  let (op, rest) ← readUInt Error.malformedToken 1 bytes
  let (matchType, rest) ← readUInt Error.malformedToken 1 rest
  match Operation.ofByte op.toUInt8, MatchType.ofByte matchType.toUInt8 with
  | some op, some matchType =>
      let (patternLen, rest) ← readUInt Error.malformedToken 4 rest
      let (pattern, rest) ← readBytes Error.malformedToken patternLen rest
      return (⟨op, matchType, pattern⟩, rest)
  | _, _ => .error .malformedToken

/-- The checks on the times.  An end before the beginning traps when there is an age
limit. -/
def checkTimes (iat exp : Nat) (now maxAgeS : UInt64) : Except Error Unit :=
  if exp ≤ now.toNat then .error .tokenExpired
  else if now.toNat + 60 < iat then .error .tokenNotYetValid
  else if 0 < maxAgeS.toNat ∧ exp < iat then .error .trap
  else if 0 < maxAgeS.toNat ∧ maxAgeS.toNat < exp - iat then .error .tokenTooLongLived
  else .ok ()

def parsePayload (payload : Bytes) (now maxAgeS : UInt64) : Except Error TokenState := do
  let (iat, rest) ← readUInt Error.malformedToken 8 payload
  let (exp, rest) ← readUInt Error.malformedToken 8 rest
  checkTimes iat exp now maxAgeS
  let (subjectLen, rest) ← readUInt Error.malformedToken 4 rest
  let (subject, rest) ← readBytes Error.malformedToken subjectLen rest
  let (jti, rest) ← readUInt Error.malformedToken 4 rest
  let (capCount, rest) ← readUInt Error.malformedToken 1 rest
  let (caps, _) ← readItems readCapability capCount rest
  return ⟨subject, iat.toUInt64, exp.toUInt64, jti.toUInt32, caps⟩

def verifyAndParse (token : Bytes) (publicKeys : List Bytes) (now maxAgeS : UInt64) :
    Except Error TokenState :=
  if h : token.length < signatureLen + 21 then .error .tokenTooShort
  else
    let payload := token.take (token.length - signatureLen)
    let sig : Signature := ⟨token.drop (token.length - signatureLen), by
      rw [length_drop, signatureLen] at *; omega⟩
    if publicKeys.any (fun pk => ed25519.verify pk payload sig) then
      parsePayload payload now maxAgeS
    else .error .invalidSignature

end

/-! ## Reading back -/

theorem readCapability_bytes {cap : Capability} (h : cap.pattern.length < 2 ^ 32) (rest : Bytes) :
    readCapability (cap.bytes ++ rest) = .ok (cap, rest) := by
  have hpattern : cap.pattern.length < 256 ^ 4 := h
  rw [readCapability, Capability.bytes, append_assoc, append_assoc, cons_append,
    readByte_cons, ok_bind]
  simp only [cons_append, nil_append, readByte_cons, ok_bind]
  simp only [UInt8.ofNat_toNat, Nat.toUInt8_eq, Operation.ofByte_backingInt,
    MatchType.ofByte_backingInt, readUInt_append _ hpattern, ok_bind, readBytes_append rest rfl]
  rfl

variable {state : TokenState}

/-- What was encoded is what is read, once the times are right.  What stands behind it is not
looked at. -/
theorem parsePayload_payload (h : state.Fits) (trailing : Bytes)
    (now maxAgeS : UInt64) : parsePayload (state.payload ++ trailing) now maxAgeS =
      (checkTimes state.iat.toNat state.exp.toNat now maxAgeS).map (fun _ => state) := by
  obtain ⟨hsubject, hcaps, hpatterns⟩ := h
  have hiat : state.iat.toNat < 256 ^ 8 := state.iat.toNat_lt
  have hexp : state.exp.toNat < 256 ^ 8 := state.exp.toNat_lt
  have hjti : state.jti.toNat < 256 ^ 4 := state.jti.toNat_lt
  have hlen : state.subject.length < 256 ^ 4 := hsubject
  have hcount : state.capabilities.length.toUInt8.toNat = state.capabilities.length := by
    rw [toNat_toUInt8]
    exact Nat.mod_eq_of_lt hcaps
  have hread := @readItems_append_of_mem Error Capability readCapability Capability.bytes
    state.capabilities (fun cap hcap rest => readCapability_bytes (hpatterns cap hcap) rest) trailing
  rw [parsePayload, TokenState.payload]
  simp only [append_assoc, cons_append]
  rw [readUInt_append _ hiat, ok_bind]
  simp only [readUInt_append _ hexp, ok_bind]
  cases checkTimes state.iat.toNat state.exp.toNat now maxAgeS with
  | error e => rfl
  | ok _ =>
    simp only [ok_bind, readUInt_append _ hlen, readBytes_append _ rfl, readUInt_append _ hjti,
      readByte_cons, hcount, hread, Except.map]
    simp [pure, Except.pure]

/-- **A token reads back as what was encoded.** -/
theorem verifyAndParse_encode {ed25519 : Ed25519} {subject : Bytes} {iat exp : UInt64}
    {jti : UInt32}
    {caps : List Capability} {secretKey token : Bytes}
    (hencode : encode ed25519 subject iat exp jti caps secretKey = .ok token)
    {publicKeys : List Bytes} {now maxAgeS : UInt64}
    (hparse : verifyAndParse ed25519 token publicKeys now maxAgeS = .ok state) :
    state = ⟨subject, iat, exp, jti, caps⟩ := by
  simp only [encode] at hencode
  split at hencode
  · cases hencode
  rename_i hfits
  split at hencode
  · cases hencode
  rename_i sig hsig
  cases hencode
  rw [verifyAndParse] at hparse
  split at hparse
  · cases hparse
  dsimp only at hparse
  split at hparse
  · have htake : ∀ payload : Bytes, (payload ++ sig.bytes).take
        ((payload ++ sig.bytes).length - signatureLen) = payload := by
      intro payload
      rw [length_append, sig.size_eq, signatureLen, Nat.add_sub_cancel, take_left]
    have hread := parsePayload_payload (not_not.mp hfits) [] now maxAgeS
    rw [append_nil] at hread
    rw [htake, hread] at hparse
    cases htimes : checkTimes iat.toNat exp.toNat now maxAgeS with
    | error e =>
      simp only [htimes, Except.map] at hparse
      cases hparse
    | ok _ =>
      simp only [htimes, Except.map] at hparse
      exact (Except.ok.inj hparse).symm
  · cases hparse

/-! ## Commands -/

def commandTarget : Command → Option Bytes
  | .get key => some key
  | .set params => some params.key
  | .delete key => some key
  | .subscribe params => some params.channel
  | .unsubscribe channel => some channel
  | .publish params => some params.channel
  | .exec params => some params.procedure
  | .save => some []
  | .vinsert params => some params.key
  | .vdelete params => some params.key
  | .vrabitqInstall params => some params.namespace
  | .vbulkinsert _ => none
  | _ => none

/-- None for a public command. -/
def operationForCommand : Command → Option Operation
  | .get _ => some .get
  | .set _ => some .set
  | .delete _ => some .delete
  | .subscribe _ | .unsubscribe _ => some .subscribe
  | .publish _ => some .publish
  | .exec _ => some .exec
  | .vinsert _ | .vbulkinsert _ | .vrabitqInstall _ => some .set
  | .vdelete _ => some .delete
  | .save => some .all
  | _ => none

/-- The capability names the whole database. -/
def Capability.universal (cap : Capability) : Bool :=
  cap.op == .all &&
    (cap.matchType == .wildcard || cap.matchType == .prefixed && cap.pattern.length == 0)

def commandPermittedUnion (state : TokenState) (cmd : Command) : Bool :=
  match operationForCommand cmd with
  | none => true
  | some op =>
      match cmd with
      | .save => state.capabilities.any Capability.universal
      | .vbulkinsert params => params.items.all (fun item => state.permits op item.key)
      | _ =>
          match commandTarget cmd with
          | none => false
          | some target => state.permits op target

/-- What a transport hands over: a caller that is not checked, a listener without
checks, or a client with the token it has shown. -/
inductive AuthContext where
  | trusted
  | disabled
  | enforce (token : Option TokenState)

/-- `Ctx.permits`. -/
def AuthContext.permits (self : AuthContext) (op : Operation) (target : Bytes) : Bool :=
  match self with
  | .trusted | .disabled => true
  | .enforce none => false
  | .enforce (some state) => state.permits op target

end Auth
end WormDB
