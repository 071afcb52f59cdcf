import WormDB.TrustReplay

/-! # The trust procedures of `procedures/trust_log.zig`

`trust_grant` and `trust_revoke` check their arguments, sign or take a signature, verify
it, and append an event to the log of the granting organisation.  A revocation first
looks for the grant it names.

The text of a payload is modelled by the fields that it reads back as.  What a
revocation appends reads back as a valid revocation of the grant it names
(`revokePayload_event`). -/
namespace WormDB
open ByteCodec

namespace TrustLog
open AppendLog (EventView Chain hexDigit maxU32)

/-! ## Hex text -/

def bytesToHex (bytes : Bytes) : Bytes :=
  bytes.flatMap (fun byte : UInt8 => [hexDigit (byte >>> 4), hexDigit (byte &&& 0x0f)])

def toLower (c : UInt8) : UInt8 := if 65 ≤ c ∧ c ≤ 90 then c + 32 else c

/-- Hex arguments may be in upper case; what is stored is not. -/
def lowerHex (hex : Bytes) : Bytes := hex.map toLower

theorem charToDigit_hexDigit (b : UInt8) :
    charToDigit (hexDigit (b >>> 4)) = some (b >>> 4) ∧
      charToDigit (hexDigit (b &&& 0x0f)) = some (b &&& 0x0f) ∧
      (b >>> 4) * 16 + (b &&& 0x0f) = b := by
  apply @forall_uint8 (fun b => charToDigit (hexDigit (b >>> 4)) = some (b >>> 4) ∧
    charToDigit (hexDigit (b &&& 0x0f)) = some (b &&& 0x0f) ∧ (b >>> 4) * 16 + (b &&& 0x0f) = b)
  decide +kernel

theorem charToDigit_toLower (c : UInt8) : charToDigit (toLower c) = charToDigit c := by
  apply @forall_uint8 (fun c => charToDigit (toLower c) = charToDigit c)
  decide +kernel

theorem hexToBytes_bytesToHex (bytes : Bytes) : hexToBytes (bytesToHex bytes) = some bytes := by
  induction bytes with
  | nil => rw [bytesToHex, List.flatMap_nil, hexToBytes]
  | cons b bytes ih =>
    obtain ⟨hhi, hlo, hsum⟩ := charToDigit_hexDigit b
    have hcons : bytesToHex (b :: bytes) =
        hexDigit (b >>> 4) :: hexDigit (b &&& 0x0f) :: bytesToHex bytes := by
      rw [bytesToHex, List.flatMap_cons]
      rfl
    rw [hcons, hexToBytes, hhi, hlo, ih]
    simp only [Option.bind_eq_bind, Option.bind_some, hsum]
    rfl

theorem hexToBytes_lowerHex (hex : Bytes) : hexToBytes (lowerHex hex) = hexToBytes hex := by
  induction hex using hexToBytes.induct with
  | case1 => rfl
  | case2 c => rw [lowerHex, List.map_singleton, hexToBytes, hexToBytes]
  | case3 hi lo rest ih =>
    have hcons : lowerHex (hi :: lo :: rest) = toLower hi :: toLower lo :: lowerHex rest := rfl
    rw [hcons, hexToBytes, hexToBytes, charToDigit_toLower, charToDigit_toLower, ih]

theorem parseOrgHex_lowerHex (hex : Bytes) : parseOrgHex (lowerHex hex) = parseOrgHex hex := by
  rw [parseOrgHex, parseOrgHex, hexToBytes_lowerHex]

theorem parseSigHex_bytesToHex (sig : Signature) : parseSigHex (bytesToHex sig.bytes) = some sig := by
  rw [parseSigHex, hexToBytes_bytesToHex]
  simp only [Option.bind_eq_bind, Option.bind_some, dif_pos sig.size_eq]
  rfl

/-! ## The log as its events read back -/

/-- The event of a payload under the number of its record; none when it is malformed. -/
def TrustEventJson.event (parsed : TrustEventJson) (seq : UInt64) : Option TrustEvent := do
  let kind ← kindOf parsed.t
  let fromOrg ← parseOrgHex parsed.fromOrg
  let toOrg ← parseOrgHex parsed.toOrg
  let sig ← parseSigHex parsed.sig
  let capBits ← capBitsOf kind parsed.caps
  return ⟨seq, kind, fromOrg, toOrg, capBits, parsed.prefixes, parsed.expiresAtMs,
    parsed.grantedAtMs, parsed.grantSeq, parsed.revokedAtMs, sig⟩

/-- A record of the log: its number, and its payload as far as it can be read. -/
structure LogEntry where
  seq : UInt64
  json : Option TrustEventJson
  deriving DecidableEq

def LogEntry.event (entry : LogEntry) : Option TrustEvent :=
  entry.json.bind (fun parsed => parsed.event entry.seq)

def trustEvents (log : List LogEntry) : List TrustEvent := log.filterMap LogEntry.event

theorem LogEntry.event_seq {entry : LogEntry} {ev : TrustEvent} (h : entry.event = some ev) :
    ev.seq = entry.seq := by
  obtain ⟨parsed, -, hev⟩ := Option.bind_eq_some_iff.mp h
  rw [TrustEventJson.event] at hev
  simp only [Option.bind_eq_bind, Option.bind_eq_some_iff] at hev
  obtain ⟨_, -, _, -, _, -, _, -, _, -, heq⟩ := hev
  cases heq
  rfl

/-! ## Signatures -/

/-- The secret key of the organisation, or a signature made elsewhere. -/
inductive KeyMaterial where
  | sk (bytes : Bytes)
  | sig (signature : Signature)
  deriving DecidableEq

inductive KeyError where
  | badKey | keyOrgMismatch | badSignature

section
variable (ed25519 : Ed25519)

/-- The signature that is made or taken.  A secret key ends with its public key. -/
def KeyMaterial.signature (km : KeyMaterial) (canonical : Bytes) (fromOrg : OrgKey) :
    Except KeyError Signature :=
  match km with
  | .sk bytes =>
      match ed25519.sign bytes canonical with
      | none => .error .badKey
      | some made => if bytes.drop 32 ≠ fromOrg.bytes then .error .keyOrgMismatch else .ok made
  | .sig given => .ok given

/-- Nothing is appended unless the signature verifies. -/
def resolveSignature (km : KeyMaterial) (canonical : Bytes) (fromOrg : OrgKey) :
    Except KeyError Signature := do
  let sig ← km.signature ed25519 canonical fromOrg
  if verifyBytes ed25519 canonical sig fromOrg then .ok sig else .error .badSignature

theorem resolveSignature_ok {ed25519 : Ed25519} {km : KeyMaterial} {canonical : Bytes}
    {fromOrg : OrgKey} {sig : Signature} (h : resolveSignature ed25519 km canonical fromOrg = .ok sig) :
    verifyBytes ed25519 canonical sig fromOrg = true := by
  rw [resolveSignature] at h
  obtain ⟨sig', -, hsig⟩ := ByteReader.bind_ok h
  split at hsig
  · rename_i hverify
    cases hsig
    exact hverify
  · cases hsig

/-! ## `trust_grant` -/

def maxPrefixes : Nat := 64

/-- The arguments, with the numbers read. -/
structure GrantArgs where
  fromArg : Bytes
  toArg : Bytes
  capsArg : Bytes
  prefixesArg : Bytes
  expiresAtMs : UInt64
  grantedAtMs : UInt64
  keyMaterial : KeyMaterial

def comma : UInt8 := 44

def parseCapsCsv (csv : Bytes) : Option UInt8 :=
  let names := csv.splitOn comma
  if [] ∈ names then none else capBitsFromNames names

def parsePrefixesCsv (csv : Bytes) : Option (List Bytes) :=
  let prefixes := csv.splitOn comma
  if [] ∈ prefixes ∨ maxPrefixes < prefixes.length then none else some prefixes

def capNames (capBits : UInt8) : List Bytes :=
  [(ascii "read", capRead), (ascii "write", capWrite), (ascii "append", capAppend)].filterMap
    (fun entry => if capBits &&& entry.2 ≠ 0 then some entry.1 else none)

/-- The body that is signed, as an event without number and signature. -/
def grantBody (fromOrg toOrg : OrgKey) (capBits : UInt8) (prefixes : List Bytes)
    (expiresAtMs grantedAtMs : UInt64) : TrustEvent :=
  ⟨0, .grant, fromOrg, toOrg, capBits, prefixes, expiresAtMs, grantedAtMs, 0, 0,
    zeroSignature⟩

def grantPayload (fromHex toHex : Bytes) (capBits : UInt8) (prefixes : List Bytes)
    (expiresAtMs grantedAtMs : UInt64) (sig : Signature) : TrustEventJson :=
  ⟨ascii "trust.grant", lowerHex fromHex, lowerHex toHex, capNames capBits, prefixes, expiresAtMs,
    grantedAtMs, 0, 0, bytesToHex sig.bytes⟩

/-- `grantExecute` up to the append: the log's organisation and the payload. -/
def grantPrepare (args : GrantArgs) : Except String (OrgKey × TrustEventJson) :=
  match parseOrgHex args.fromArg with
  | none => .error "trust_grant: invalid from_org (need 64 hex chars)"
  | some fromOrg =>
  match parseOrgHex args.toArg with
  | none => .error "trust_grant: invalid to_org (need 64 hex chars)"
  | some toOrg =>
  match parseCapsCsv args.capsArg with
  | none => .error "trust_grant: caps must be a csv of read|write|append"
  | some capBits =>
  match parsePrefixesCsv args.prefixesArg with
  | none => .error "trust_grant: prefixes_csv must list 1..64 non-empty prefixes"
  | some prefixes =>
  match resolveSignature ed25519 args.keyMaterial
      (grantBody fromOrg toOrg capBits prefixes args.expiresAtMs args.grantedAtMs).grantBytes
      fromOrg with
  | .error .keyOrgMismatch => .error "trust_grant: sk does not match from_org"
  | .error .badSignature => .error "trust_grant: signature does not verify against from_org"
  | .error .badKey => .error "trust_grant: invalid key material"
  | .ok sig =>
      .ok (fromOrg, grantPayload args.fromArg args.toArg capBits prefixes args.expiresAtMs
        args.grantedAtMs sig)

/-! ## `trust_revoke` -/

structure RevokeArgs where
  fromArg : Bytes
  toArg : Bytes
  grantSeq : UInt64
  revokedAtMs : UInt64
  keyMaterial : KeyMaterial
  deriving DecidableEq

/-- The grant that a revocation names. -/
structure Revocation where
  fromOrg : OrgKey
  toOrg : OrgKey
  grantSeq : UInt64
  deriving DecidableEq

/-- The checks before the log is read. -/
def revokeCheck (args : RevokeArgs) : Except String Revocation :=
  match parseOrgHex args.fromArg with
  | none => .error "trust_revoke: invalid from_org (need 64 hex chars)"
  | some fromOrg =>
  match parseOrgHex args.toArg with
  | none => .error "trust_revoke: invalid to_org (need 64 hex chars)"
  | some toOrg =>
  if args.grantSeq = 0 then
    .error ("trust_revoke requires: <from_org_hex64> <to_org_hex64> <grant_seq> " ++
      "[revoked_at_ms=<ms>] sk=<hex128>|sig=<hex128>")
  else .ok ⟨fromOrg, toOrg, args.grantSeq⟩

def Revocation.matches (r : Revocation) (ev : TrustEvent) : Bool :=
  decide (ev.kind = .grant ∧ ev.seq = r.grantSeq ∧ ev.fromOrg = r.fromOrg ∧ ev.toOrg = r.toOrg)

/-- The body that is signed, as an event without number and signature. -/
def Revocation.body (r : Revocation) (revokedAtMs : UInt64) : TrustEvent :=
  ⟨0, .revoke, r.fromOrg, r.toOrg, 0, [], 0, 0, r.grantSeq, revokedAtMs, zeroSignature⟩

def revokePayload (fromHex toHex : Bytes) (grantSeq revokedAtMs : UInt64) (sig : Signature) :
    TrustEventJson :=
  ⟨ascii "trust.revoke", lowerHex fromHex, lowerHex toHex, [], [], 0, 0, grantSeq, revokedAtMs,
    bytesToHex sig.bytes⟩

/-- `revokeExecute` from the scan up to the append. -/
def revokePrepare (args : RevokeArgs) (r : Revocation) (events : List TrustEvent) :
    Except String TrustEventJson :=
  if events.any r.matches then
    match resolveSignature ed25519 args.keyMaterial (r.body args.revokedAtMs).revokeBytes
        r.fromOrg with
    | .error .keyOrgMismatch => .error "trust_revoke: sk does not match from_org"
    | .error .badSignature => .error "trust_revoke: signature does not verify against from_org"
    | .error .badKey => .error "trust_revoke: invalid key material"
    | .ok sig => .ok (revokePayload args.fromArg args.toArg args.grantSeq args.revokedAtMs sig)
  else .error "trust_revoke: grant_seq is not a matching trust.grant on this log"

end

/-! ## What a revocation appends -/

variable {ed25519 : Ed25519}

/-- The event is a valid revocation of what is named. -/
def Revocation.MadeBy (ed25519 : Ed25519) (r : Revocation) (ev : TrustEvent) : Prop :=
  ValidRevoke ed25519 r.fromOrg ev ∧ ev.grantSeq = r.grantSeq ∧ ev.toOrg = r.toOrg

variable {args : RevokeArgs} {r : Revocation}

theorem revokeCheck_ok (h : revokeCheck args = .ok r) :
    parseOrgHex args.fromArg = some r.fromOrg ∧ parseOrgHex args.toArg = some r.toOrg ∧
      args.grantSeq = r.grantSeq := by
  rw [revokeCheck] at h
  split at h
  · cases h
  rename_i fromOrg hfrom
  split at h
  · cases h
  rename_i toOrg hto
  split at h
  · cases h
  cases h
  exact ⟨hfrom, hto, rfl⟩

/-- Under any number, the payload is the revocation that was signed. -/
theorem revokePayload_event {sig : Signature} (hcheck : revokeCheck args = .ok r)
    (hsig : verifyBytes ed25519 (r.body args.revokedAtMs).revokeBytes sig r.fromOrg = true)
    (seq : UInt64) :
    ∃ ev, (revokePayload args.fromArg args.toArg args.grantSeq args.revokedAtMs sig).event seq =
      some ev ∧ r.MadeBy ed25519 ev := by
  obtain ⟨hfrom, hto, hseq⟩ := revokeCheck_ok hcheck
  have hkind : kindOf (ascii "trust.revoke") = some .revoke := by decide
  refine ⟨⟨seq, .revoke, r.fromOrg, r.toOrg, 0, [], 0, 0, args.grantSeq, args.revokedAtMs, sig⟩, ?_,
    ⟨rfl, rfl, ?_⟩, hseq, rfl⟩
  · simp only [TrustEventJson.event, revokePayload, hkind, parseOrgHex_lowerHex, hfrom, hto,
      parseSigHex_bytesToHex, capBitsOf, Option.bind_eq_bind, Option.bind_some]
    rfl
  · -- the signed bytes are a function of what is named and of the time
    simpa only [TrustEvent.revokeBytes, Revocation.body, hseq] using hsig

/-- **What a revocation is about to append** names a grant that its scan has found, and is
valid under any number. -/
theorem revokePrepare_ok {events : List TrustEvent}
    {payload : TrustEventJson} (hcheck : revokeCheck args = .ok r)
    (h : revokePrepare ed25519 args r events = .ok payload) :
    (∃ grant ∈ events, grant.seq = r.grantSeq) ∧
      ∀ seq, ∃ ev, payload.event seq = some ev ∧ r.MadeBy ed25519 ev := by
  rw [revokePrepare] at h
  split at h
  · rename_i hfound
    obtain ⟨grant, hgrant, hmatch⟩ := List.any_eq_true.mp hfound
    split at h
    · cases h
    · cases h
    · cases h
    · rename_i sig hsig
      cases h
      exact ⟨⟨grant, hgrant, (decide_eq_true_eq.mp hmatch).2.1⟩,
        revokePayload_event hcheck (resolveSignature_ok hsig)⟩
  · cases h

end TrustLog
end WormDB
