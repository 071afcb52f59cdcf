import WormDB.AuthMint

/-! # What a signed token can do to its reader

A token that was encoded reads back.  The other direction is about every payload that
carries a signature: the fields are read off its front, so that bytes behind the last
capability are never looked at, and the age of a token whose end lies before its beginning is
an underflow.  The tolerance for clock skew lets such a token through to that check.
`token_codec_iff` says which payloads are read as they should be. -/
namespace WormDB
open List ByteCodec ByteReader
open ErrorsIn (bind error ok readBytes readUInt)

variable {ε α : Type}

theorem bind_error {β : Type} {x : Except ε α} {f : α → Except ε β} {e : ε}
    (h : x >>= f = .error e) : x = .error e ∨ ∃ a, x = .ok a ∧ f a = .error e := by
  cases x with
  | error e' =>
    cases h
    exact .inl rfl
  | ok a => exact .inr ⟨a, rfl, h⟩

theorem ErrorsIn.readItems {p : ε → Prop} {readItem : Bytes → Except ε (α × Bytes)}
    (h : ∀ bytes, ErrorsIn p (readItem bytes)) (count : Nat) (bytes : Bytes) :
    ErrorsIn p (ByteReader.readItems readItem count bytes) := by
  induction count generalizing bytes with
  | zero => exact ok _
  | succ count ih => exact (h bytes).bind fun r => (ih r.2).bind fun _ => ok _

/-- A number in front, where there are bytes enough. -/
theorem exists_uint {bytes : Bytes} (w : Nat) (h : w ≤ bytes.length) :
    ∃ n rest, n < 256 ^ w ∧ bytes = beBytes w n ++ rest := by
  have hlen : (bytes.take w).length = w := length_take_of_le h
  have hlt := beNat_lt (bytes.take w)
  have hbytes := beBytes_beNat (bytes.take w)
  rw [hlen] at hlt hbytes
  exact ⟨beNat (bytes.take w), bytes.drop w, hlt, by rw [hbytes, take_append_drop]⟩

namespace Auth

/-! ## What the parser accepts -/

variable {b : UInt8}

theorem Operation.ofByte_iff {op : Operation} :
    Operation.ofByte b = some op ↔ b = op.backingInt := by
  constructor
  · intro h
    rw [Operation.ofByte] at h
    have hbyte := find?_some h
    exact (of_decide_eq_true hbyte).symm
  · rintro rfl
    exact Operation.ofByte_backingInt op

theorem MatchType.ofByte_iff {m : MatchType} : MatchType.ofByte b = some m ↔ b = m.backingInt := by
  constructor
  · intro h
    rw [MatchType.ofByte] at h
    have hbyte := find?_some h
    exact (of_decide_eq_true hbyte).symm
  · rintro rfl
    exact MatchType.ofByte_backingInt m

theorem reads_capability :
    Reads readCapability Capability.bytes (fun cap => cap.pattern.length < 2 ^ 32) := by
  intro bytes cap rest
  constructor
  · intro h
    replace h := (reads_uint 1).bind.mp h
    obtain ⟨op, r₁, ⟨-, rfl⟩, h⟩ := h
    replace h := (reads_uint 1).bind.mp h
    obtain ⟨matchType, r₂, ⟨-, rfl⟩, h⟩ := h
    dsimp only at h
    split at h
    case h_1 op' matchType' hop hmatch =>
      replace h := (reads_uint 4).bind.mp h
      obtain ⟨len, r₃, ⟨hlen, rfl⟩, h⟩ := h
      replace h := (reads_bytes len).bind.mp h
      obtain ⟨pattern, r₄, ⟨hpattern, rfl⟩, h⟩ := h
      cases h
      subst hpattern
      rw [beBytes_one, beBytes_one, Operation.ofByte_iff.mp hop, MatchType.ofByte_iff.mp hmatch]
      exact ⟨hlen, by simp [Capability.bytes]⟩
    case h_2 => cases h
  · rintro ⟨hlen, rfl⟩
    exact readCapability_bytes hlen rest

/-! ## The times -/

/-- The end is not reached, and the beginning no further off than clocks may be apart. -/
def Current (iat exp : Nat) (now : UInt64) : Prop := now.toNat < exp ∧ iat ≤ now.toNat + 60

/-- The age limit, where there is one. -/
def InAge (iat exp : Nat) (maxAgeS : UInt64) : Prop :=
  0 < maxAgeS.toNat → iat ≤ exp ∧ exp - iat ≤ maxAgeS.toNat

section
variable {iat exp : Nat} {now maxAgeS : UInt64}

theorem checkTimes_ok_iff :
    checkTimes iat exp now maxAgeS = .ok () ↔ Current iat exp now ∧ InAge iat exp maxAgeS := by
  rw [checkTimes, Current, InAge]
  split
  · exact ⟨nofun, by omega⟩
  split
  · exact ⟨nofun, by omega⟩
  split
  · exact ⟨nofun, by omega⟩
  split
  · exact ⟨nofun, by omega⟩
  · exact ⟨fun _ => by omega, fun _ => rfl⟩

theorem checkTimes_trap_iff : checkTimes iat exp now maxAgeS = .error .trap ↔
    Current iat exp now ∧ 0 < maxAgeS.toNat ∧ exp < iat := by
  rw [checkTimes, Current]
  split
  · exact ⟨nofun, by omega⟩
  split
  · exact ⟨nofun, by omega⟩
  split
  · exact ⟨fun _ => by omega, fun _ => rfl⟩
  split
  · exact ⟨nofun, by omega⟩
  · exact ⟨nofun, by omega⟩

end

/-! ## The payload -/

section
variable {payload : Bytes} {now maxAgeS : UInt64} {state : TokenState}

/-- **What is accepted**: the fields, with anything behind them. -/
theorem parsePayload_ok_iff : parsePayload payload now maxAgeS = .ok state ↔
    state.Fits ∧ checkTimes state.iat.toNat state.exp.toNat now maxAgeS = .ok () ∧
      ∃ trailing, payload = state.payload ++ trailing := by
  constructor
  · intro h
    replace h := (reads_uint 8).bind.mp h
    obtain ⟨iat, r₁, ⟨hiat, rfl⟩, h⟩ := h
    replace h := (reads_uint 8).bind.mp h
    obtain ⟨exp, r₂, ⟨hexp, rfl⟩, h⟩ := h
    dsimp only at h
    replace h := bind_ok h
    obtain ⟨_, htimes, h⟩ := h
    replace h := (reads_uint 4).bind.mp h
    obtain ⟨subjectLen, r₃, ⟨hsubject, rfl⟩, h⟩ := h
    replace h := (reads_bytes subjectLen).bind.mp h
    obtain ⟨subject, r₄, ⟨rfl, rfl⟩, h⟩ := h
    replace h := (reads_uint 4).bind.mp h
    obtain ⟨jti, r₅, ⟨hjti, rfl⟩, h⟩ := h
    replace h := (reads_uint 1).bind.mp h
    obtain ⟨count, r₆, ⟨hcount, rfl⟩, h⟩ := h
    replace h := (reads_items reads_capability count).bind.mp h
    obtain ⟨caps, trailing, ⟨⟨rfl, hcaps⟩, rfl⟩, h⟩ := h
    cases h
    have hiat : iat.toUInt64.toNat = iat := UInt64.toNat_ofNat_of_lt' hiat
    have hexp : exp.toUInt64.toNat = exp := UInt64.toNat_ofNat_of_lt' hexp
    have hjti : jti.toUInt32.toNat = jti := UInt32.toNat_ofNat_of_lt' hjti
    refine ⟨⟨hsubject, hcount, hcaps⟩, ?_, trailing, ?_⟩
    · rw [hiat, hexp]
      exact htimes
    · simp only [TokenState.payload, hiat, hexp, hjti, beBytes_one, append_assoc,
        cons_append, nil_append]
  · rintro ⟨hfits, htimes, trailing, rfl⟩
    rw [parsePayload_payload hfits, htimes]
    rfl

/-- The times in front of a payload. -/
def issuedAt (payload : Bytes) : Nat := beNat (payload.take 8)
def expiresAt (payload : Bytes) : Nat := beNat ((payload.drop 8).take 8)

theorem issuedAt_eq {iat : Nat} (h : iat < 256 ^ 8) (rest : Bytes) :
    issuedAt (beBytes 8 iat ++ rest) = iat := by
  rw [issuedAt, take_left' (beBytes_length 8 iat), beNat_beBytes_of_lt h]

theorem expiresAt_eq (iat : Nat) {exp : Nat} (h : exp < 256 ^ 8) (rest : Bytes) :
    expiresAt (beBytes 8 iat ++ (beBytes 8 exp ++ rest)) = exp := by
  rw [expiresAt, drop_left' (beBytes_length 8 iat), take_left' (beBytes_length 8 exp),
    beNat_beBytes_of_lt h]

def NotTrap (e : Error) : Prop := e ≠ .trap

theorem malformed_notTrap : NotTrap .malformedToken := by
  rintro ⟨⟩

theorem readCapability_errors (bytes : Bytes) : ErrorsIn NotTrap (readCapability bytes) := by
  refine (readUInt malformed_notTrap 1 bytes).bind fun r => ?_
  refine (readUInt malformed_notTrap 1 r.2).bind fun r' => ?_
  dsimp only
  split
  · refine (readUInt malformed_notTrap 4 _).bind fun r => ?_
    exact (readBytes malformed_notTrap r.1 r.2).bind fun _ => ok _
  · exact error malformed_notTrap

/-- **The underflow is the only way to stop.** -/
theorem parsePayload_trap_iff : parsePayload payload now maxAgeS = .error .trap ↔
    16 ≤ payload.length ∧
      checkTimes (issuedAt payload) (expiresAt payload) now maxAgeS = .error .trap := by
  constructor
  · intro h
    replace h := bind_error h
    rcases h with herr | ⟨⟨iat, r₁⟩, hread, h⟩
    · exact absurd rfl (readUInt malformed_notTrap 8 _ _ herr)
    obtain ⟨hiat, rfl⟩ := (reads_uint 8 _ _ _).mp hread
    replace h := bind_error h
    rcases h with herr | ⟨⟨exp, r₂⟩, hread, h⟩
    · exact absurd rfl (readUInt malformed_notTrap 8 _ _ herr)
    obtain ⟨hexp, rfl⟩ := (reads_uint 8 _ _ _).mp hread
    rw [issuedAt_eq hiat, expiresAt_eq iat hexp]
    refine ⟨by simp; omega, ?_⟩
    replace h := bind_error h
    rcases h with herr | ⟨_, -, h⟩
    · exact herr
    · refine absurd rfl (bind (p := NotTrap) ?_ (fun r => ?_) _ h)
      · exact readUInt malformed_notTrap 4 _
      refine (readBytes malformed_notTrap r.1 r.2).bind fun r => ?_
      refine (readUInt malformed_notTrap 4 r.2).bind fun r' => ?_
      refine (readUInt malformed_notTrap 1 r'.2).bind fun r' => ?_
      exact (ErrorsIn.readItems readCapability_errors r'.1 r'.2).bind fun _ => ok _
  · rintro ⟨hlen, htimes⟩
    obtain ⟨iat, r₁, hiat, rfl⟩ := exists_uint 8 (by omega : 8 ≤ payload.length)
    rw [length_append, beBytes_length] at hlen
    obtain ⟨exp, r₂, hexp, rfl⟩ := exists_uint 8 (by omega : 8 ≤ r₁.length)
    rw [issuedAt_eq hiat, expiresAt_eq iat hexp] at htimes
    rw [parsePayload, readUInt_append _ hiat, ok_bind]
    simp only [readUInt_append _ hexp, ok_bind, htimes]
    rfl

end

/-! ## Signed tokens -/

section
variable {ed25519 : Ed25519} {payload : Bytes} {sig : Signature} {publicKeys : List Bytes}
  {now maxAgeS : UInt64}

/-- One of the keys verifies the signature. -/
def Signed (ed25519 : Ed25519) (publicKeys : List Bytes) (payload : Bytes) (sig : Signature) : Prop :=
  ∃ pk ∈ publicKeys, ed25519.verify pk payload sig = true

/-- What is claimed of a signed payload: its reader does not stop at an underflow, and what
it returns is the whole payload. -/
structure ReadSafely (ed25519 : Ed25519) (publicKeys : List Bytes) (payload : Bytes)
    (sig : Signature) (now maxAgeS : UInt64) : Prop where
  no_trap : verifyAndParse ed25519 (payload ++ sig.bytes) publicKeys now maxAgeS ≠ .error .trap
  consumed : ∀ state, verifyAndParse ed25519 (payload ++ sig.bytes) publicKeys now maxAgeS =
    .ok state → payload = state.payload

/-- The payloads that this holds of: where the age is looked at, the end does not lie before
the beginning, and behind the fields of a token that is in time there is nothing. -/
structure Orderly (payload : Bytes) (now maxAgeS : UInt64) : Prop where
  ordered : 21 ≤ payload.length → Current (issuedAt payload) (expiresAt payload) now →
    0 < maxAgeS.toNat → issuedAt payload ≤ expiresAt payload
  whole : ∀ (state : TokenState) (trailing : Bytes), state.Fits → payload = state.payload ++ trailing →
    Current state.iat.toNat state.exp.toNat now → InAge state.iat.toNat state.exp.toNat maxAgeS →
    trailing = []

theorem verifyAndParse_signed (h : Signed ed25519 publicKeys payload sig) :
    verifyAndParse ed25519 (payload ++ sig.bytes) publicKeys now maxAgeS =
      if payload.length < 21 then .error .tokenTooShort else parsePayload payload now maxAgeS := by
  have hlen : (payload ++ sig.bytes).length = payload.length + 64 := by
    rw [length_append, sig.size_eq]
  have htake : (payload ++ sig.bytes).take ((payload ++ sig.bytes).length - signatureLen) = payload := by
    rw [hlen, signatureLen, Nat.add_sub_cancel, take_left]
  have hdrop : (payload ++ sig.bytes).drop ((payload ++ sig.bytes).length - signatureLen) =
      sig.bytes := by
    rw [hlen, signatureLen, Nat.add_sub_cancel, drop_left]
  rw [verifyAndParse]
  by_cases hshort : payload.length < 21
  · rw [dif_pos (by rw [hlen, signatureLen]; omega), if_pos hshort]
  · rw [dif_neg (by rw [hlen, signatureLen]; omega), if_neg hshort]
    simp only [htake, hdrop]
    rw [if_pos]
    obtain ⟨pk, hpk, hverify⟩ := h
    exact any_eq_true.mpr ⟨pk, hpk, hverify⟩

theorem payload_length_le (state : TokenState) : 25 ≤ state.payload.length := by
  simp only [TokenState.payload, length_append, beBytes_length, length_cons]
  omega

/-- **Which signed payloads are read safely.** -/
theorem readSafely_iff (h : Signed ed25519 publicKeys payload sig) :
    ReadSafely ed25519 publicKeys payload sig now maxAgeS ↔ Orderly payload now maxAgeS := by
  constructor
  · rintro ⟨hno, hall⟩
    rw [verifyAndParse_signed h] at hno
    constructor
    · intro hlen hcurrent hlimit
      rw [if_neg (Nat.not_lt.mpr hlen), Ne, parsePayload_trap_iff, checkTimes_trap_iff] at hno
      by_contra hlt
      exact hno ⟨by omega, hcurrent, hlimit, Nat.not_le.mp hlt⟩
    · intro state trailing hfits hpayload hcurrent hage
      have hlen := payload_length_le state
      have hread : parsePayload payload now maxAgeS = .ok state :=
        parsePayload_ok_iff.mpr ⟨hfits, checkTimes_ok_iff.mpr ⟨hcurrent, hage⟩, trailing, hpayload⟩
      have hwhole := hall state (by
        rw [verifyAndParse_signed h, if_neg, hread]
        rw [hpayload, length_append]
        omega)
      exact append_right_eq_self.mp (hpayload.symm.trans hwhole)
  · rintro ⟨hordered, hwhole⟩
    constructor
    · rw [verifyAndParse_signed h]
      split
      · rintro ⟨⟩
      case isFalse hlen =>
        rw [Ne, parsePayload_trap_iff, checkTimes_trap_iff]
        rintro ⟨-, hcurrent, hlimit, hlt⟩
        exact Nat.not_le.mpr hlt (hordered (Nat.not_lt.mp hlen) hcurrent hlimit)
    · intro state hok
      rw [verifyAndParse_signed h] at hok
      split at hok
      · cases hok
      obtain ⟨hfits, htimes, trailing, hpayload⟩ := parsePayload_ok_iff.mp hok
      obtain ⟨hcurrent, hage⟩ := checkTimes_ok_iff.mp htimes
      obtain rfl := hwhole state trailing hfits hpayload hcurrent hage
      rw [hpayload, append_nil]

/-- The key pair signs the payload, and one of the keys verifies what it signs. -/
def SignsFor (ed25519 : Ed25519) (secretKey : Bytes) (publicKeys : List Bytes) (payload : Bytes) : Prop :=
  ∃ sig, ed25519.sign secretKey payload = some sig ∧ Signed ed25519 publicKeys payload sig

/-- An encoded token reads back as its fields. -/
def ReadsBack (ed25519 : Ed25519) (secretKey : Bytes) (publicKeys : List Bytes) (state : TokenState)
    (now maxAgeS : UInt64) : Prop :=
  ∃ token, encode ed25519 state.subject state.iat state.exp state.jti state.capabilities secretKey =
      .ok token ∧ verifyAndParse ed25519 token publicKeys now maxAgeS = .ok state

theorem readsBack {secretKey : Bytes} {state : TokenState} (hfits : state.Fits)
    (hkeys : SignsFor ed25519 secretKey publicKeys state.payload)
    (hwindow : state.iat.toNat ≤ now.toNat ∧ now.toNat < state.exp.toNat)
    (hage : InAge state.iat.toNat state.exp.toNat maxAgeS) :
    ReadsBack ed25519 secretKey publicKeys state now maxAgeS := by
  obtain ⟨sig, hsign, hsigned⟩ := hkeys
  have hlen := payload_length_le state
  refine ⟨state.payload ++ sig.bytes, ?_, ?_⟩
  · simp only [encode]
    rw [if_neg (not_not.mpr hfits), hsign]
  · rw [verifyAndParse_signed hsigned, if_neg (by omega)]
    refine parsePayload_ok_iff.mpr ⟨hfits, checkTimes_ok_iff.mpr ⟨⟨hwindow.2, by omega⟩, hage⟩, [], ?_⟩
    rw [append_nil]

/-- **The token codec.**  Every token reads back inside its window; and a signed payload is
read without an underflow and as a whole exactly where it is orderly. -/
theorem token_codec_iff (ed25519 : Ed25519) (publicKeys : List Bytes) (now maxAgeS : UInt64) :
    (∀ secretKey state, state.Fits → SignsFor ed25519 secretKey publicKeys state.payload →
      state.iat.toNat ≤ now.toNat ∧ now.toNat < state.exp.toNat →
      InAge state.iat.toNat state.exp.toNat maxAgeS →
      ReadsBack ed25519 secretKey publicKeys state now maxAgeS) ∧
    ∀ payload sig, Signed ed25519 publicKeys payload sig →
      (ReadSafely ed25519 publicKeys payload sig now maxAgeS ↔ Orderly payload now maxAgeS) :=
  ⟨fun _ _ hfits hkeys hwindow hage => readsBack hfits hkeys hwindow hage,
    fun _ _ h => readSafely_iff h⟩

end

/-! ## Three tokens -/

open WormDB.Bundle (samplePublicKey sampleSecretKey)

/-- Issued a minute ahead, and ending a second from now. -/
def skewedPayload : Bytes := TokenState.payload ⟨[], 1700000060, 1700000001, 7, []⟩

def skewedSignature : Signature :=
  ⟨[68, 71, 219, 238, 122, 134, 106, 53, 151, 14, 170, 228, 128, 144, 78, 129, 213, 179, 155,
    188, 204, 107, 142, 36, 199, 102, 240, 14, 160, 139, 32, 155, 36, 11, 49, 217, 248, 202, 153,
    108, 44, 96, 156, 145, 148, 180, 117, 227, 128, 14, 190, 149, 66, 41, 176, 12, 179, 47, 122,
    79, 24, 209, 176, 13], rfl⟩

/-- One byte too many. -/
def paddedPayload : Bytes := TokenState.payload ⟨[], 1700000000, 1700003600, 7, []⟩ ++ [0]

def paddedSignature : Signature :=
  ⟨[191, 225, 26, 2, 233, 231, 242, 61, 138, 141, 197, 98, 233, 230, 144, 200, 103, 53, 128, 139,
    120, 154, 50, 253, 137, 184, 230, 156, 61, 131, 246, 75, 142, 52, 183, 59, 127, 121, 198,
    225, 81, 235, 147, 85, 198, 94, 40, 227, 195, 97, 150, 25, 247, 39, 151, 64, 248, 95, 116,
    191, 206, 249, 186, 13], rfl⟩

/-- Ed25519 on the two payloads. -/
def tokenScheme : Ed25519 where
  verify := fun publicKey message signature => decide (publicKey = samplePublicKey ∧
    (message = skewedPayload ∧ signature = skewedSignature ∨
      message = paddedPayload ∧ signature = paddedSignature))
  sign := fun _ message => if message = skewedPayload then some skewedSignature
    else if message = paddedPayload then some paddedSignature else none

/-- **The age of a token from the future** underflows, and a byte behind the fields is not
noticed. -/
theorem skewed_token_stops :
    (Signed tokenScheme [samplePublicKey] skewedPayload skewedSignature ∧
      verifyAndParse tokenScheme (skewedPayload ++ skewedSignature.bytes) [samplePublicKey]
        1700000000 3600 = .error .trap ∧
      ¬ReadSafely tokenScheme [samplePublicKey] skewedPayload skewedSignature 1700000000 3600) ∧
    Signed tokenScheme [samplePublicKey] paddedPayload paddedSignature ∧
      verifyAndParse tokenScheme (paddedPayload ++ paddedSignature.bytes) [samplePublicKey]
        1700000000 3600 = .ok ⟨[], 1700000000, 1700003600, 7, []⟩ ∧
      ¬ReadSafely tokenScheme [samplePublicKey] paddedPayload paddedSignature 1700000000 3600 := by
  have hskewed : verifyAndParse tokenScheme (skewedPayload ++ skewedSignature.bytes)
      [samplePublicKey] 1700000000 3600 = .error .trap := by decide +kernel
  have hpadded : verifyAndParse tokenScheme (paddedPayload ++ paddedSignature.bytes)
      [samplePublicKey] 1700000000 3600 = .ok ⟨[], 1700000000, 1700003600, 7, []⟩ := by
    decide +kernel
  refine ⟨⟨⟨_, mem_singleton_self _, by decide +kernel⟩, hskewed, fun h => h.no_trap hskewed⟩,
    ⟨_, mem_singleton_self _, by decide +kernel⟩, hpadded, fun h => ?_⟩
  have hlen := congrArg List.length (h.consumed _ hpadded)
  revert hlen
  decide

/-- The minted token inside its window. -/
theorem token_codec_minted :
    ReadsBack mintScheme sampleSecretKey [samplePublicKey] mintedState 1700000010 3600 ∧
    ReadSafely mintScheme [samplePublicKey] mintedState.payload mintedSignature 1700000010 3600 := by
  have hsigned : Signed mintScheme [samplePublicKey] mintedState.payload mintedSignature :=
    ⟨_, mem_singleton_self _, by decide +kernel⟩
  constructor
  · refine (token_codec_iff mintScheme [samplePublicKey] 1700000010 3600).1 sampleSecretKey mintedState
      (by decide +kernel) ⟨mintedSignature, by decide +kernel, hsigned⟩ (by decide) ?_
    exact fun _ => by decide
  · refine ((token_codec_iff mintScheme [samplePublicKey] 1700000010 3600).2 _ _ hsigned).mpr ⟨?_, ?_⟩
    · exact fun _ _ _ => by decide +kernel
    · intro state trailing hfits hpayload hcurrent hage
      have hread : parsePayload mintedState.payload 1700000010 3600 = .ok state :=
        parsePayload_ok_iff.mpr ⟨hfits, checkTimes_ok_iff.mpr ⟨hcurrent, hage⟩, trailing, hpayload⟩
      have hminted : parsePayload mintedState.payload 1700000010 3600 = .ok mintedState := by
        decide +kernel
      cases hminted.symm.trans hread
      exact append_right_eq_self.mp hpayload.symm

end Auth
end WormDB
