import WormDB.Witness

/-! # One encoding for each proof artefact

The binary formats that are hashed and signed: event envelopes, accumulator states, inclusion
proofs, checkpoints and witness records.  Each decoder accepts exactly what the encoder makes,
up to the fields an encoder derives itself (`canonical_encodings`). -/
namespace WormDB
open List ByteCodec ByteReader

variable {ε : Type} {err : ε}

theorem reads_hash : Reads (readHash err) Hash.bytes (fun _ => True) := by
  intro bytes h rest
  constructor
  · intro hread
    exact ⟨trivial, readHash_ok hread⟩
  · rintro ⟨-, rfl⟩
    exact readHash_append err h rest

theorem toUInt64_toNat {n : Nat} (h : n < 256 ^ 8) : n.toUInt64.toNat = n := by
  have hlt : n < 2 ^ 64 := h
  simp only [Nat.toUInt64_eq, UInt64.toNat_ofNat', Nat.mod_eq_of_lt hlt]

/-! ## Inclusion proofs -/

namespace Mmr

variable {bytes : Bytes}

theorem readPathItem_ok {rest : Bytes} {item : PathItem}
    (h : readPathItem bytes = .ok (item, rest)) : bytes = encodePathItem item ++ rest := by
  rw [readPathItem, readUInt, (reads_uint 1).bind] at h
  obtain ⟨side, r, ⟨hlt, rfl⟩, h⟩ := h
  dsimp only at h
  rw [beBytes_one]
  -- the byte of the side is one of two
  split at h
  · rename_i hside
    rw [ok_bind, reads_hash.bind] at h
    obtain ⟨hash, r', ⟨-, rfl⟩, h⟩ := h
    cases h
    rw [hside]
    rfl
  split at h
  · rename_i hside
    rw [ok_bind, reads_hash.bind] at h
    obtain ⟨hash, r', ⟨-, rfl⟩, h⟩ := h
    cases h
    rw [hside]
    rfl
  · cases h

theorem reads_pathItem : Reads readPathItem encodePathItem (fun _ => True) := by
  intro bytes item rest
  constructor
  · intro h
    exact ⟨trivial, readPathItem_ok h⟩
  · rintro ⟨-, rfl⟩
    exact readPathItem_append item rest

theorem reads_peak : Reads readPeak encodePeak (fun _ => True) := by
  intro bytes peak rest
  constructor
  · intro h
    rw [readPeak, readUInt, (reads_uint 1).bind] at h
    obtain ⟨height, r, ⟨hlt, rfl⟩, h⟩ := h
    rw [reads_hash.bind] at h
    obtain ⟨hash, r', ⟨-, rfl⟩, h⟩ := h
    cases h
    exact ⟨trivial, rfl⟩
  · rintro ⟨-, rfl⟩
    exact readPeak_append peak rest

theorem encode_of_decode {proof : InclusionProof}
    (h : decodeInclusionProof bytes = .ok proof) : encodeInclusionProof proof = .ok bytes := by
  simp only [decodeInclusionProof, readBytes, readUInt] at h
  rw [(reads_bytes _).bind] at h
  obtain ⟨magic, r1, ⟨-, rfl⟩, h⟩ := h
  simp only [] at h
  split at h
  · cases h
  rename_i hmagic
  rw [(reads_uint 2).bind] at h
  obtain ⟨ver, r2, ⟨-, rfl⟩, h⟩ := h
  simp only [] at h
  split at h
  · cases h
  rename_i hver
  rw [(reads_uint 8).bind] at h
  obtain ⟨leafIndex, r3, ⟨hleaf, rfl⟩, h⟩ := h
  rw [(reads_uint 8).bind] at h
  obtain ⟨leafCount, r4, ⟨hcount, rfl⟩, h⟩ := h
  rw [(reads_uint 4).bind] at h
  obtain ⟨peakIndex, r5, ⟨hindex, rfl⟩, h⟩ := h
  rw [(reads_uint 4).bind] at h
  obtain ⟨pathCount, r6, ⟨-, rfl⟩, h⟩ := h
  simp only [] at h
  split at h
  · cases h
  rename_i hpath
  replace h := check_ok h
  rw [(reads_items reads_pathItem _).bind] at h
  obtain ⟨path, r7, ⟨⟨rfl, -⟩, rfl⟩, h⟩ := h
  rw [(reads_uint 4).bind] at h
  obtain ⟨peakCount, r8, ⟨-, rfl⟩, h⟩ := h
  simp only [] at h
  split at h
  · cases h
  rename_i hpeaks
  replace h := check_ok h
  rw [(reads_items reads_peak _).bind] at h
  obtain ⟨peaks, r9, ⟨⟨rfl, -⟩, rfl⟩, h⟩ := h
  simp only [] at h
  split at h
  · cases h
  rename_i hend
  -- nothing is left behind the peaks
  cases h
  obtain rfl := length_eq_zero_iff.mp (not_not.mp hend)
  rw [encodeInclusionProof]
  dsimp only
  rw [if_neg (by omega), if_neg hpath, if_neg hpeaks, toUInt64_toNat hleaf, toUInt64_toNat hcount,
    not_not.mp hmagic, not_not.mp hver]
  simp only [append_assoc, append_nil]

/-- **Inclusion proofs are canonical.** -/
theorem canonical_inclusionProof : Canonical encodeInclusionProof decodeInclusionProof :=
  fun _ _ => ⟨encode_of_decode, decode_encode⟩

end Mmr

/-! ## Envelopes -/

namespace AppendLog
open Mmr (Peak rootFromPeaks peaksAreCanonical proofMaxPeaks)

variable (sha256 : Bytes → Hash)

def encodeEnvelope (input : EventInput) : Except Error Bytes :=
  (encodeEnvelopeWithHashes sha256 input).map EncodedEnvelope.envelope

/-- The hashes a view has the bytes of. -/
def EventView.attachmentHashes (view : EventView) : List Hash :=
  match readItems (readHash ()) view.attachmentCount view.attachmentHashBytes with
  | .error _ => []
  | .ok (hashes, _) => hashes

/-- What a view says of the event, without the hashes that are derived from the rest. -/
def EventView.input (view : EventView) : EventInput :=
  ⟨view.logId, view.seq, view.prevEventHash, view.ingestTimeMs, view.payload, view.attachmentHashes⟩

/-- The decoder only takes the bytes apart; the derived hashes are for `verifyEnvelope`. -/
def openEnvelope (bytes : Bytes) : Except Error EventInput := do
  let view ← decodeEnvelope bytes
  verifyEnvelope sha256 view.logId view
  return view.input

variable {sha256}

variable {bytes : Bytes}

theorem hashes_of_length (count : Nat) (h : bytes.length = count * 32) :
    ∃ hashes : List Hash, hashes.length = count ∧ bytes = hashes.flatMap Hash.bytes := by
  induction count generalizing bytes with
  | zero =>
    rw [Nat.zero_mul] at h
    exact ⟨[], rfl, length_eq_zero_iff.mp h⟩
  | succ count ih =>
    have hfirst : (bytes.take 32).length = 32 := by
      rw [length_take]
      omega
    have hdrop : (bytes.drop 32).length = count * 32 := by
      rw [length_drop]
      omega
    obtain ⟨hashes, hlen, hrest⟩ := ih hdrop
    refine ⟨⟨bytes.take 32, hfirst⟩ :: hashes, congrArg Nat.succ hlen, ?_⟩
    rw [flatMap_cons, ← hrest, take_append_drop]

variable {view : EventView}

theorem attachmentHashes_eq {hashes : List Hash} (hcount : hashes.length = view.attachmentCount)
    (hbytes : view.attachmentHashBytes = hashes.flatMap Hash.bytes) :
    view.attachmentHashes = hashes := by
  have hread : readItems (readHash ()) view.attachmentCount view.attachmentHashBytes =
      .ok (hashes, []) :=
    (reads_items reads_hash _ _ _ _).mpr
      ⟨⟨hcount, fun _ _ => trivial⟩, by rw [hbytes, append_nil]⟩
  rw [EventView.attachmentHashes, hread]

/-- What the decoder accepts, with the payload's hash as it stands there. -/
theorem decodeEnvelope_fields
    (h : decodeEnvelope bytes = .ok view) :
    view.bytes = bytes ∧ view.input.Fits ∧
      bytes = envelopeMagic ++ beBytes 2 envelopeVersion ++ beBytes 4 view.logId.length ++
        view.logId ++ beBytes 8 view.seq.toNat ++ view.prevEventHash.bytes ++ beBytes 8 view.ingestTimeMs.toNat ++
        view.payloadHash.bytes ++ beBytes 4 view.attachmentHashes.length ++
        view.attachmentHashes.flatMap Hash.bytes ++ beBytes 4 view.payload.length ++ view.payload ++
        view.eventHash.bytes := by
  rw [decodeEnvelope, (reads_bytes _).bind] at h
  obtain ⟨magic, r1, ⟨-, rfl⟩, h⟩ := h
  simp only [] at h
  split at h
  · cases h
  rename_i hmagic
  rw [(reads_uint 2).bind] at h
  obtain ⟨ver, r2, ⟨-, rfl⟩, h⟩ := h
  simp only [] at h
  split at h
  · cases h
  rename_i hver
  rw [(reads_uint 4).bind] at h
  obtain ⟨logIdLen, r3, ⟨hlog, rfl⟩, h⟩ := h
  rw [(reads_bytes _).bind] at h
  obtain ⟨logId, r4, ⟨rfl, rfl⟩, h⟩ := h
  rw [(reads_uint 8).bind] at h
  obtain ⟨seq, r5, ⟨hseq, rfl⟩, h⟩ := h
  rw [reads_hash.bind] at h
  obtain ⟨prev, r6, ⟨-, rfl⟩, h⟩ := h
  rw [(reads_uint 8).bind] at h
  obtain ⟨time, r7, ⟨htime, rfl⟩, h⟩ := h
  rw [reads_hash.bind] at h
  obtain ⟨payloadHash, r8, ⟨-, rfl⟩, h⟩ := h
  rw [(reads_uint 4).bind] at h
  obtain ⟨count, r9, ⟨hcount, rfl⟩, h⟩ := h
  rw [(reads_bytes _).bind] at h
  obtain ⟨attachments, r10, ⟨hattach, rfl⟩, h⟩ := h
  rw [(reads_uint 4).bind] at h
  obtain ⟨payloadLen, r11, ⟨hpayload, rfl⟩, h⟩ := h
  rw [(reads_bytes _).bind] at h
  obtain ⟨payload, r12, ⟨rfl, rfl⟩, h⟩ := h
  rw [reads_hash.bind] at h
  obtain ⟨eventHash, r13, ⟨-, rfl⟩, h⟩ := h
  simp only [] at h
  split at h
  · cases h
  rename_i hend
  cases h
  obtain rfl := length_eq_zero_iff.mp (not_not.mp hend)
  obtain ⟨hashes, rfl, rfl⟩ := hashes_of_length count hattach
  rw [EventView.input, attachmentHashes_eq rfl rfl]
  refine ⟨rfl, ⟨?_, ?_, ?_⟩, ?_⟩
  · exact Nat.le_sub_one_of_lt hlog
  · exact Nat.le_sub_one_of_lt hpayload
  · exact Nat.le_sub_one_of_lt hcount
  · dsimp only
    rw [toUInt64_toNat hseq, toUInt64_toNat htime, not_not.mp hmagic, not_not.mp hver]
    simp only [append_assoc, append_nil]

theorem encodeEnvelope_eq_ok {input : EventInput} : encodeEnvelope sha256 input = .ok bytes ↔
      input.Fits ∧ bytes = (sealEnvelope sha256 input).envelope := by
  rw [encodeEnvelope]
  constructor
  · intro h
    cases hencode : encodeEnvelopeWithHashes sha256 input with
    | error e =>
      rw [hencode] at h
      cases h
    | ok encoded =>
      rw [hencode] at h
      obtain ⟨hfits, rfl⟩ := encodeEnvelopeWithHashes_ok hencode
      exact ⟨hfits, (Except.ok.inj h).symm⟩
  · rintro ⟨hfits, rfl⟩
    rw [encodeEnvelopeWithHashes, if_neg (Nat.not_lt.mpr hfits.logId),
      if_neg (Nat.not_lt.mpr hfits.payload), if_neg (Nat.not_lt.mpr hfits.attachments)]
    rfl

theorem view_input (input : EventInput) : (input.view sha256).input = input := by
  rw [EventView.input, attachmentHashes_eq rfl rfl]
  rfl

/-- **Envelopes whose hashes verify are canonical.** -/
theorem canonical_envelope : Canonical (encodeEnvelope sha256) (openEnvelope sha256) := by
  intro input bytes
  rw [encodeEnvelope_eq_ok, openEnvelope]
  constructor
  · intro h
    obtain ⟨view, hview, h⟩ := bind_ok h
    obtain ⟨_, hverify, h⟩ := bind_ok h
    cases h
    obtain ⟨hbytes, hfits, hfields⟩ := decodeEnvelope_fields hview
    obtain ⟨-, hpayload, hevent⟩ := verifyEnvelope_ok hverify
    -- what the event hash is taken over is what the encoder takes it over
    have hpre : bytes = envelopePreimage sha256 view.input ++ view.eventHash.bytes := by
      rw [hfields, envelopePreimage, ← hpayload]
      rfl
    rw [hbytes, preimagePart, hpre, length_append, view.eventHash.size_eq, Nat.add_sub_cancel,
      take_left] at hevent
    refine ⟨hfits, ?_⟩
    rw [hpre, sealEnvelope, hevent]
  · rintro ⟨hfits, rfl⟩
    rw [decodeEnvelope_seal hfits, ok_bind, show (input.view sha256).logId = input.logId from rfl,
      verifyEnvelope_view, ok_bind, view_input]
    rfl

/-! ## Accumulator states -/

/-- The peaks are those of the number of events, and the root is theirs. -/
def WellFormed (sha256 : Bytes → Hash) (state : AccumulatorState) : Prop :=
  peaksAreCanonical state.lastSeq state.peaks = true ∧
    rootFromPeaks sha256 state.lastSeq state.peaks = state.accumulatorRoot

theorem reads_peak : Reads readPeak Mmr.encodePeak (fun _ => True) := by
  intro bytes peak rest
  constructor
  · intro h
    rw [readPeak, (reads_uint 1).bind] at h
    obtain ⟨height, r, ⟨hlt, rfl⟩, h⟩ := h
    rw [reads_hash.bind] at h
    obtain ⟨hash, r', ⟨-, rfl⟩, h⟩ := h
    cases h
    exact ⟨trivial, rfl⟩
  · rintro ⟨-, rfl⟩
    exact readPeak_append peak rest

variable {logId : Bytes} {state : AccumulatorState}

theorem encodeState_of_decode (h : decodeAccumulatorState sha256 logId bytes = .ok state) :
    encodeAccumulatorState logId state = .ok bytes ∧ WellFormed sha256 state := by
  rw [decodeAccumulatorState, (reads_bytes _).bind] at h
  obtain ⟨magic, r1, ⟨-, rfl⟩, h⟩ := h
  replace h := guard_ok_iff.mp h
  obtain ⟨hmagic, h⟩ := h
  replace h := (reads_uint 2).bind.mp h
  obtain ⟨ver, r2, ⟨-, rfl⟩, h⟩ := h
  replace h := guard_ok_iff.mp h
  obtain ⟨hver, h⟩ := h
  replace h := (reads_uint 4).bind.mp h
  obtain ⟨logIdLen, r3, ⟨hlog, rfl⟩, h⟩ := h
  replace h := (reads_bytes _).bind.mp h
  obtain ⟨stored, r4, ⟨rfl, rfl⟩, h⟩ := h
  replace h := guard_ok_iff.mp h
  obtain ⟨hid, h⟩ := h
  obtain rfl := not_not.mp hid
  replace h := (reads_uint 8).bind.mp h
  obtain ⟨lastSeq, r5, ⟨hseq, rfl⟩, h⟩ := h
  replace h := (reads_uint 8).bind.mp h
  obtain ⟨time, r6, ⟨htime, rfl⟩, h⟩ := h
  replace h := reads_hash.bind.mp h
  obtain ⟨headHash, r7, ⟨-, rfl⟩, h⟩ := h
  replace h := reads_hash.bind.mp h
  obtain ⟨root, r8, ⟨-, rfl⟩, h⟩ := h
  replace h := (reads_uint 4).bind.mp h
  obtain ⟨peakCount, r9, ⟨-, rfl⟩, h⟩ := h
  replace h := guard_ok_iff.mp h
  obtain ⟨hpeaks, h⟩ := h
  replace h := (reads_items reads_peak _).bind.mp h
  obtain ⟨peaks, r10, ⟨⟨rfl, -⟩, rfl⟩, h⟩ := h
  replace h := guard_ok_iff.mp h
  obtain ⟨hend, h⟩ := h
  replace h := guard_ok_iff.mp h
  obtain ⟨hcanonical, h⟩ := h
  replace h := guard_ok_iff.mp h
  obtain ⟨hroot, h⟩ := h
  cases h
  obtain rfl := length_eq_zero_iff.mp (not_not.mp hend)
  refine ⟨?_, by simpa using hcanonical, not_not.mp hroot⟩
  have hle : ¬ maxU32 < stored.length := Nat.not_lt.mpr (Nat.le_sub_one_of_lt hlog)
  rw [encodeAccumulatorState, if_neg hle, if_neg hpeaks, stateBytes]
  dsimp only
  rw [toUInt64_toNat hseq, toUInt64_toNat htime, not_not.mp hmagic, not_not.mp hver]
  simp only [append_assoc, append_nil]

/-- **The decoder of states accepts exactly the encodings of the well-formed ones.** -/
theorem decodeState_iff : decodeAccumulatorState sha256 logId bytes = .ok state ↔
      encodeAccumulatorState logId state = .ok bytes ∧ WellFormed sha256 state := by
  refine ⟨encodeState_of_decode, ?_⟩
  rintro ⟨hencode, hcanonical, hroot⟩
  rw [encodeAccumulatorState] at hencode
  split at hencode
  · cases hencode
  rename_i hlog
  split at hencode
  · cases hencode
  rename_i hpeaks
  cases hencode
  exact decodeAccumulatorState_stateBytes (Nat.not_lt.mp hlog) (Nat.not_lt.mp hpeaks) hcanonical
    hroot

end AppendLog

/-! ## Signatures -/

theorem reads_fixedSignature : Reads (readFixedSignature err) Signature.bytes (fun _ => True) := by
  intro bytes signature rest
  rw [readFixedSignature]
  constructor
  · intro h
    split at h
    · cases h
    rename_i hsplit
    cases h
    exact ⟨trivial, (splitBytes_eq_some.mp hsplit).1⟩
  · rintro ⟨-, rfl⟩
    have happend : splitBytes 64 (signature.bytes ++ rest) = some (signature.bytes, rest) :=
      splitBytes_eq_some.mpr ⟨rfl, signature.size_eq⟩
    split
    · rename_i hsplit
      cases happend.symm.trans hsplit
    · rename_i hsplit
      cases happend.symm.trans hsplit
      rfl

/-! ## Checkpoints -/

namespace Checkpoint

theorem reads_lenBytes : Reads (readLenPrefixed err 4) lenBytes (fun xs => xs.length < 256 ^ 4) :=
  reads_lenPrefixed 4

theorem reads_optionalHash : Reads readOptionalHash optionalHash (fun _ => True) := by
  intro bytes hash rest
  rw [readOptionalHash, (reads_uint 1).bind]
  constructor
  · rintro ⟨present, r, ⟨-, rfl⟩, h⟩
    dsimp only at h
    split at h
    · cases h
      exact ⟨trivial, rfl⟩
    · rw [reads_hash.bind] at h
      obtain ⟨hash', r', ⟨-, rfl⟩, h⟩ := h
      cases h
      exact ⟨trivial, rfl⟩
    · cases h
  · rintro ⟨-, rfl⟩
    rcases hash with _ | hash
    · exact ⟨0, rest, ⟨by decide, rfl⟩, rfl⟩
    · exact ⟨1, hash.bytes ++ rest, ⟨by decide, rfl⟩,
        reads_hash.bind.mpr ⟨hash, rest, ⟨trivial, rfl⟩, rfl⟩⟩

theorem beBytes_toNat (byte : UInt8) : beBytes 1 byte.toNat = [byte] := by
  rw [beBytes_one, Nat.toUInt8_eq, UInt8.ofNat_toNat]

/-- Every length of the payload goes into its four bytes. -/
structure CheckpointRecord.Fits (record : CheckpointRecord) : Prop where
  logId : record.logId.length < 256 ^ 4
  creatorIdentity : record.creatorIdentity.length < 256 ^ 4
  extensionBytes : record.extensionBytes.length < 256 ^ 4

variable {bytes : Bytes} {record : CheckpointRecord}

theorem decodeSigningPayload_ok (h : decodeSigningPayload bytes = .ok record) :
    record.Fits ∧ bytes = record.signingPayload := by
  replace h := bind_ok h
  obtain ⟨r, hdomain, h⟩ := h
  obtain rfl := readTerminated_ok_iff.mp hdomain
  replace h := (reads_uint 1).bind.mp h
  obtain ⟨version, r1, ⟨-, rfl⟩, h⟩ := h
  replace h := reads_lenBytes.bind.mp h
  obtain ⟨logId, r2, ⟨hlogId, rfl⟩, h⟩ := h
  replace h := (reads_uint 8).bind.mp h
  obtain ⟨fromSeq, r3, ⟨hfrom, rfl⟩, h⟩ := h
  replace h := (reads_uint 8).bind.mp h
  obtain ⟨toSeq, r4, ⟨hto, rfl⟩, h⟩ := h
  replace h := (reads_uint 1).bind.mp h
  obtain ⟨rawKind, r5, ⟨-, rfl⟩, h⟩ := h
  replace h := bind_ok h
  obtain ⟨kind, hkind, h⟩ := h
  obtain rfl := AccumulatorKind.ofInt_ok_iff.mp hkind
  replace h := reads_hash.bind.mp h
  obtain ⟨root, r6, ⟨-, rfl⟩, h⟩ := h
  replace h := reads_optionalHash.bind.mp h
  obtain ⟨previous, r7, ⟨-, rfl⟩, h⟩ := h
  replace h := reads_lenBytes.bind.mp h
  obtain ⟨creator, r8, ⟨hcreator, rfl⟩, h⟩ := h
  replace h := (reads_uint 1).bind.mp h
  obtain ⟨rawScheme, r9, ⟨-, rfl⟩, h⟩ := h
  replace h := bind_ok h
  obtain ⟨scheme, hscheme, h⟩ := h
  obtain rfl := SignatureScheme.ofInt_ok_iff.mp hscheme
  replace h := (reads_uint 8).bind.mp h
  obtain ⟨created, r10, ⟨hcreated, rfl⟩, h⟩ := h
  replace h := (reads_uint 8).bind.mp h
  obtain ⟨ingested, r11, ⟨hingested, rfl⟩, h⟩ := h
  replace h := reads_lenBytes.bind.mp h
  obtain ⟨extension, r12, ⟨hextension, rfl⟩, h⟩ := h
  replace h := guard_ok_iff.mp h
  obtain ⟨hend, h⟩ := h
  obtain rfl := not_not.mp hend
  cases h
  refine ⟨⟨hlogId, hcreator, hextension⟩, ?_⟩
  rw [CheckpointRecord.signingPayload, toUInt64_toNat hfrom, toUInt64_toNat hto,
    toUInt64_toNat hcreated, toUInt64_toNat hingested, beBytes_toNat, beBytes_toNat, beBytes_one]
  simp only [append_assoc, append_nil, terminated]

theorem decodeSigningPayload_signingPayload (hfits : record.Fits) :
    decodeSigningPayload record.signingPayload =
      .ok { record with signature := zeroSignature } := by
  simp only [CheckpointRecord.signingPayload, append_assoc]
  rw [decodeSigningPayload]
  refine bind_ok_iff.mpr ⟨_, readTerminated_ok_iff.mpr rfl, ?_⟩
  refine (reads_uint 1).bind.mpr ⟨_, _, ⟨record.version.toNat_lt, by rw [beBytes_toNat]⟩, ?_⟩
  refine reads_lenBytes.bind.mpr ⟨_, _, ⟨hfits.logId, rfl⟩, ?_⟩
  refine (reads_uint 8).bind.mpr ⟨_, _, ⟨record.fromSeq.toNat_lt, rfl⟩, ?_⟩
  refine (reads_uint 8).bind.mpr ⟨_, _, ⟨record.toSeq.toNat_lt, rfl⟩, ?_⟩
  refine (reads_uint 1).bind.mpr
    ⟨_, _, ⟨record.accumulatorKind.backingInt.toNat_lt, by rw [beBytes_toNat]⟩, ?_⟩
  refine bind_ok_iff.mpr ⟨_, AccumulatorKind.ofInt_ok_iff.mpr rfl, ?_⟩
  refine reads_hash.bind.mpr ⟨_, _, ⟨trivial, rfl⟩, ?_⟩
  refine reads_optionalHash.bind.mpr ⟨_, _, ⟨trivial, rfl⟩, ?_⟩
  refine reads_lenBytes.bind.mpr ⟨_, _, ⟨hfits.creatorIdentity, rfl⟩, ?_⟩
  refine (reads_uint 1).bind.mpr
    ⟨_, _, ⟨record.signatureScheme.backingInt.toNat_lt, by rw [beBytes_toNat]⟩, ?_⟩
  refine bind_ok_iff.mpr ⟨_, SignatureScheme.ofInt_ok_iff.mpr rfl, ?_⟩
  refine (reads_uint 8).bind.mpr ⟨_, _, ⟨record.createdAtMs.toNat_lt, rfl⟩, ?_⟩
  refine (reads_uint 8).bind.mpr ⟨_, _, ⟨record.ingestedAtMs.toNat_lt, rfl⟩, ?_⟩
  refine reads_lenBytes.bind.mpr ⟨_, [], ⟨hfits.extensionBytes, (append_nil _).symm⟩, ?_⟩
  refine guard_ok_iff.mpr ⟨not_not.mpr rfl, ?_⟩
  simp only [Nat.toUInt8_eq, UInt8.ofNat_toNat, Nat.toUInt64_eq, UInt64.ofNat_toNat]
  rfl

theorem fits_of_validateShape (h : record.validateShape = .ok ()) : record.Fits := by
  rw [CheckpointRecord.validateShape] at h
  repeat' split at h
  all_goals cases h
  rename_i hlog hcreator hextension _ _ _
  exact ⟨Nat.lt_succ_of_le (Nat.not_lt.mp hlog), Nat.lt_succ_of_le (Nat.not_lt.mp hcreator),
    Nat.lt_succ_of_le (Nat.not_lt.mp hextension)⟩

theorem encodeCanonical_ok_iff : record.encodeCanonical = .ok bytes ↔
      record.validateShape = .ok () ∧ record.signingPayload.length < 256 ^ 4 ∧
        bytes = record.canonicalBytes := by
  rw [CheckpointRecord.encodeCanonical, CheckpointRecord.encodeSigningPayload]
  rcases hshape : record.validateShape with e | _
  · constructor
    · intro h
      cases h
    · rintro ⟨h, -⟩
      cases h
  dsimp only
  by_cases hlen : record.signingPayload.length > maxU32
  · rw [if_pos hlen]
    constructor
    · intro h
      cases h
    · rintro ⟨-, hlt, -⟩
      exact absurd (Nat.le_sub_one_of_lt hlt) (Nat.not_le.mpr hlen)
  · rw [if_neg hlen]
    refine ⟨fun h => ⟨rfl, Nat.lt_succ_of_le (Nat.not_lt.mp hlen), (Except.ok.inj h).symm⟩, ?_⟩
    rintro ⟨-, -, rfl⟩
    rfl

/-- **Checkpoints are canonical.** -/
theorem canonical_checkpoint : Canonical CheckpointRecord.encodeCanonical decodeCanonical := by
  intro record bytes
  rw [encodeCanonical_ok_iff]
  constructor
  · intro h
    replace h := bind_ok h
    obtain ⟨r, hdomain, h⟩ := h
    obtain rfl := readTerminated_ok_iff.mp hdomain
    replace h := reads_lenBytes.bind.mp h
    obtain ⟨payload, r1, ⟨hlen, rfl⟩, h⟩ := h
    replace h := reads_fixedSignature.bind.mp h
    obtain ⟨signature, r2, ⟨-, rfl⟩, h⟩ := h
    replace h := guard_ok_iff.mp h
    obtain ⟨hend, h⟩ := h
    obtain rfl := not_not.mp hend
    replace h := bind_ok h
    obtain ⟨unsigned, hpayload, h⟩ := h
    obtain ⟨-, rfl⟩ := decodeSigningPayload_ok hpayload
    dsimp only at h
    split at h
    · cases h
    rename_i hshape
    cases h
    refine ⟨hshape, hlen, ?_⟩
    rw [CheckpointRecord.canonicalBytes, append_nil, append_assoc]
    rfl
  · rintro ⟨hshape, hlen, rfl⟩
    rw [CheckpointRecord.canonicalBytes, append_assoc, decodeCanonical]
    refine bind_ok_iff.mpr ⟨_, readTerminated_ok_iff.mpr rfl, ?_⟩
    refine reads_lenBytes.bind.mpr ⟨_, _, ⟨hlen, rfl⟩, ?_⟩
    refine reads_fixedSignature.bind.mpr ⟨record.signature, [], ⟨trivial, (append_nil _).symm⟩, ?_⟩
    refine guard_ok_iff.mpr ⟨not_not.mpr rfl, ?_⟩
    refine bind_ok_iff.mpr
      ⟨_, decodeSigningPayload_signingPayload (fits_of_validateShape hshape), ?_⟩
    dsimp only
    rw [hshape]
    rfl

end Checkpoint

/-! ## Witness records -/

namespace Witness
open Checkpoint (AccumulatorKind SignatureScheme CheckpointRecord lenBytes terminated maxU32
  beBytes_toNat reads_lenBytes)

inductive DecodeError where
  | invalidWitnessRecord | unsupportedAccumulatorKind | unsupportedSignatureScheme
  | shape (e : Error)

section
open DecodeError (invalidWitnessRecord)

def readTerminatedDomain (domain bytes : Bytes) : Except DecodeError Bytes :=
  readTerminated invalidWitnessRecord domain bytes

def readLenBytes (bytes : Bytes) : Except DecodeError (Bytes × Bytes) :=
  readLenPrefixed invalidWitnessRecord 4 bytes

def readSignature (bytes : Bytes) : Except DecodeError (Signature × Bytes) :=
  readFixedSignature invalidWitnessRecord bytes

def decodeAccumulatorKind (raw : Nat) : Except DecodeError AccumulatorKind :=
  AccumulatorKind.ofInt .unsupportedAccumulatorKind raw

def decodeSignatureScheme (raw : Nat) : Except DecodeError SignatureScheme :=
  SignatureScheme.ofInt .unsupportedSignatureScheme raw

/-- The record has no signature yet. -/
def decodeSigningPayload (bytes : Bytes) : Except DecodeError WitnessRecord := do
  let rest ← readTerminatedDomain witnessSigningDomain bytes
  let (version, rest) ← readUInt invalidWitnessRecord 1 rest
  let (logId, rest) ← readLenBytes rest
  let (fromSeq, rest) ← readUInt invalidWitnessRecord 8 rest
  let (toSeq, rest) ← readUInt invalidWitnessRecord 8 rest
  let (rawKind, rest) ← readUInt invalidWitnessRecord 1 rest
  let accumulatorKind ← decodeAccumulatorKind rawKind
  let (accumulatorRoot, rest) ← readHash invalidWitnessRecord rest
  let (checkpointHash, rest) ← readHash invalidWitnessRecord rest
  let (witnessIdentity, rest) ← readLenBytes rest
  let (rawScheme, rest) ← readUInt invalidWitnessRecord 1 rest
  let signatureScheme ← decodeSignatureScheme rawScheme
  let (observedAtMs, rest) ← readUInt invalidWitnessRecord 8 rest
  let (extensionBytes, rest) ← readLenBytes rest
  if rest ≠ [] then throw invalidWitnessRecord
  return ⟨version.toUInt8, logId, fromSeq.toUInt64, toSeq.toUInt64, accumulatorKind,
    accumulatorRoot, checkpointHash, witnessIdentity, signatureScheme, zeroSignature,
    observedAtMs.toUInt64, extensionBytes⟩

def decodeCanonical (bytes : Bytes) : Except DecodeError WitnessRecord := do
  let rest ← readTerminatedDomain witnessRecordDomain bytes
  let (payload, rest) ← readLenBytes rest
  let (signature, rest) ← readSignature rest
  if rest ≠ [] then throw invalidWitnessRecord
  let record ← decodeSigningPayload payload
  let record := { record with signature := signature }
  match record.validateShape with
  | .error e => throw (.shape e)
  | .ok () => return record

end

/-- Every length of the payload goes into its four bytes. -/
structure WitnessRecord.Fits (record : WitnessRecord) : Prop where
  logId : record.logId.length < 256 ^ 4
  witnessIdentity : record.witnessIdentity.length < 256 ^ 4
  extensionBytes : record.extensionBytes.length < 256 ^ 4

variable {bytes : Bytes} {record : WitnessRecord}

theorem decodeSigningPayload_ok (h : decodeSigningPayload bytes = .ok record) :
    record.Fits ∧ bytes = record.signingPayload := by
  replace h := bind_ok h
  obtain ⟨r, hdomain, h⟩ := h
  obtain rfl := readTerminated_ok_iff.mp hdomain
  replace h := (reads_uint 1).bind.mp h
  obtain ⟨version, r1, ⟨-, rfl⟩, h⟩ := h
  replace h := reads_lenBytes.bind.mp h
  obtain ⟨logId, r2, ⟨hlogId, rfl⟩, h⟩ := h
  replace h := (reads_uint 8).bind.mp h
  obtain ⟨fromSeq, r3, ⟨hfrom, rfl⟩, h⟩ := h
  replace h := (reads_uint 8).bind.mp h
  obtain ⟨toSeq, r4, ⟨hto, rfl⟩, h⟩ := h
  replace h := (reads_uint 1).bind.mp h
  obtain ⟨rawKind, r5, ⟨-, rfl⟩, h⟩ := h
  replace h := bind_ok h
  obtain ⟨kind, hkind, h⟩ := h
  obtain rfl := AccumulatorKind.ofInt_ok_iff.mp hkind
  replace h := reads_hash.bind.mp h
  obtain ⟨root, r6, ⟨-, rfl⟩, h⟩ := h
  replace h := reads_hash.bind.mp h
  obtain ⟨checkpointHash, r7, ⟨-, rfl⟩, h⟩ := h
  replace h := reads_lenBytes.bind.mp h
  obtain ⟨identity, r8, ⟨hidentity, rfl⟩, h⟩ := h
  replace h := (reads_uint 1).bind.mp h
  obtain ⟨rawScheme, r9, ⟨-, rfl⟩, h⟩ := h
  replace h := bind_ok h
  obtain ⟨scheme, hscheme, h⟩ := h
  obtain rfl := SignatureScheme.ofInt_ok_iff.mp hscheme
  replace h := (reads_uint 8).bind.mp h
  obtain ⟨observed, r10, ⟨hobserved, rfl⟩, h⟩ := h
  replace h := reads_lenBytes.bind.mp h
  obtain ⟨extension, r11, ⟨hextension, rfl⟩, h⟩ := h
  replace h := guard_ok_iff.mp h
  obtain ⟨hend, h⟩ := h
  obtain rfl := not_not.mp hend
  cases h
  refine ⟨⟨hlogId, hidentity, hextension⟩, ?_⟩
  rw [WitnessRecord.signingPayload, toUInt64_toNat hfrom, toUInt64_toNat hto,
    toUInt64_toNat hobserved, beBytes_toNat, beBytes_toNat, beBytes_one]
  simp only [append_assoc, append_nil, terminated]

theorem decodeSigningPayload_signingPayload (hfits : record.Fits) :
    decodeSigningPayload record.signingPayload =
      .ok { record with signature := zeroSignature } := by
  simp only [WitnessRecord.signingPayload, append_assoc]
  rw [decodeSigningPayload]
  refine bind_ok_iff.mpr ⟨_, readTerminated_ok_iff.mpr rfl, ?_⟩
  refine (reads_uint 1).bind.mpr ⟨_, _, ⟨record.version.toNat_lt, by rw [beBytes_toNat]⟩, ?_⟩
  refine reads_lenBytes.bind.mpr ⟨_, _, ⟨hfits.logId, rfl⟩, ?_⟩
  refine (reads_uint 8).bind.mpr ⟨_, _, ⟨record.fromSeq.toNat_lt, rfl⟩, ?_⟩
  refine (reads_uint 8).bind.mpr ⟨_, _, ⟨record.toSeq.toNat_lt, rfl⟩, ?_⟩
  refine (reads_uint 1).bind.mpr
    ⟨_, _, ⟨record.accumulatorKind.backingInt.toNat_lt, by rw [beBytes_toNat]⟩, ?_⟩
  refine bind_ok_iff.mpr ⟨_, AccumulatorKind.ofInt_ok_iff.mpr rfl, ?_⟩
  refine reads_hash.bind.mpr ⟨_, _, ⟨trivial, rfl⟩, ?_⟩
  refine reads_hash.bind.mpr ⟨_, _, ⟨trivial, rfl⟩, ?_⟩
  refine reads_lenBytes.bind.mpr ⟨_, _, ⟨hfits.witnessIdentity, rfl⟩, ?_⟩
  refine (reads_uint 1).bind.mpr
    ⟨_, _, ⟨record.signatureScheme.backingInt.toNat_lt, by rw [beBytes_toNat]⟩, ?_⟩
  refine bind_ok_iff.mpr ⟨_, SignatureScheme.ofInt_ok_iff.mpr rfl, ?_⟩
  refine (reads_uint 8).bind.mpr ⟨_, _, ⟨record.observedAtMs.toNat_lt, rfl⟩, ?_⟩
  refine reads_lenBytes.bind.mpr ⟨_, [], ⟨hfits.extensionBytes, (append_nil _).symm⟩, ?_⟩
  refine guard_ok_iff.mpr ⟨not_not.mpr rfl, ?_⟩
  simp only [Nat.toUInt8_eq, UInt8.ofNat_toNat, Nat.toUInt64_eq, UInt64.ofNat_toNat]
  rfl

theorem fits_of_validateShape (h : record.validateShape = .ok ()) : record.Fits := by
  rw [WitnessRecord.validateShape] at h
  repeat' split at h
  all_goals cases h
  rename_i hlog hidentity hextension _ _ _
  exact ⟨Nat.lt_succ_of_le (Nat.not_lt.mp hlog), Nat.lt_succ_of_le (Nat.not_lt.mp hidentity),
    Nat.lt_succ_of_le (Nat.not_lt.mp hextension)⟩

theorem encodeCanonical_ok_iff : record.encodeCanonical = .ok bytes ↔
      record.validateShape = .ok () ∧ record.signingPayload.length < 256 ^ 4 ∧
        bytes = record.canonicalBytes := by
  rw [WitnessRecord.encodeCanonical, WitnessRecord.encodeSigningPayload]
  rcases hshape : record.validateShape with e | _
  · constructor
    · intro h
      cases h
    · rintro ⟨h, -⟩
      cases h
  dsimp only
  by_cases hlen : record.signingPayload.length > maxU32
  · rw [if_pos hlen]
    constructor
    · intro h
      cases h
    · rintro ⟨-, hlt, -⟩
      exact absurd (Nat.le_sub_one_of_lt hlt) (Nat.not_le.mpr hlen)
  · rw [if_neg hlen]
    refine ⟨fun h => ⟨rfl, Nat.lt_succ_of_le (Nat.not_lt.mp hlen), (Except.ok.inj h).symm⟩, ?_⟩
    rintro ⟨-, -, rfl⟩
    rfl

/-- **Witness records are canonical.** -/
theorem canonical_witness : Canonical WitnessRecord.encodeCanonical decodeCanonical := by
  intro record bytes
  rw [encodeCanonical_ok_iff]
  constructor
  · intro h
    replace h := bind_ok h
    obtain ⟨r, hdomain, h⟩ := h
    obtain rfl := readTerminated_ok_iff.mp hdomain
    replace h := reads_lenBytes.bind.mp h
    obtain ⟨payload, r1, ⟨hlen, rfl⟩, h⟩ := h
    replace h := reads_fixedSignature.bind.mp h
    obtain ⟨signature, r2, ⟨-, rfl⟩, h⟩ := h
    replace h := guard_ok_iff.mp h
    obtain ⟨hend, h⟩ := h
    obtain rfl := not_not.mp hend
    replace h := bind_ok h
    obtain ⟨unsigned, hpayload, h⟩ := h
    obtain ⟨-, rfl⟩ := decodeSigningPayload_ok hpayload
    dsimp only at h
    split at h
    · cases h
    rename_i hshape
    cases h
    refine ⟨hshape, hlen, ?_⟩
    rw [WitnessRecord.canonicalBytes, append_nil, append_assoc]
    rfl
  · rintro ⟨hshape, hlen, rfl⟩
    rw [WitnessRecord.canonicalBytes, append_assoc, decodeCanonical]
    refine bind_ok_iff.mpr ⟨_, readTerminated_ok_iff.mpr rfl, ?_⟩
    refine reads_lenBytes.bind.mpr ⟨_, _, ⟨hlen, rfl⟩, ?_⟩
    refine reads_fixedSignature.bind.mpr
      ⟨record.signature, [], ⟨trivial, (append_nil _).symm⟩, ?_⟩
    refine guard_ok_iff.mpr ⟨not_not.mpr rfl, ?_⟩
    refine bind_ok_iff.mpr
      ⟨_, decodeSigningPayload_signingPayload (fits_of_validateShape hshape), ?_⟩
    dsimp only
    rw [hshape]
    rfl

/-- The domains part at their eighth byte. -/
theorem signingPayload_ne (cp : CheckpointRecord) (record : WitnessRecord) :
    cp.signingPayload ≠ record.signingPayload := by
  intro heq
  simp only [CheckpointRecord.signingPayload, WitnessRecord.signingPayload,
    append_assoc] at heq
  have htake := congrArg (List.take 8) heq
  rw [take_append_of_le_length (by decide), take_append_of_le_length (by decide)] at htake
  exact absurd htake (by decide)

end Witness

/-! ## All formats -/

namespace ProofEncodings
open AppendLog Mmr

/-- What holds of the formats that are hashed and signed. -/
structure CanonicalEncodings (sha256 : Bytes → Hash) : Prop where
  inclusionProof : Canonical encodeInclusionProof decodeInclusionProof
  checkpoint : Canonical Checkpoint.CheckpointRecord.encodeCanonical Checkpoint.decodeCanonical
  witness : Canonical Witness.WitnessRecord.encodeCanonical Witness.decodeCanonical
  /-- What the encoder makes of an event decodes to the event. -/
  envelope_decode : ∀ input bytes, encodeEnvelope sha256 input = .ok bytes →
    ∃ view, decodeEnvelope bytes = .ok view ∧ view.input = input
  /-- What decodes is what the encoder makes of the event exactly when the derived hashes are
  right. -/
  envelope_encode : ∀ bytes view, decodeEnvelope bytes = .ok view →
    (encodeEnvelope sha256 view.input = .ok bytes ↔ verifyEnvelope sha256 view.logId view = .ok ())
  /-- A state is decoded from its encoding alone, and exactly when its peaks and its root are
  those of its events. -/
  accumulatorState : ∀ logId bytes state, decodeAccumulatorState sha256 logId bytes = .ok state ↔
    encodeAccumulatorState logId state = .ok bytes ∧ WellFormed sha256 state
  signingPayload : ∀ (cp : Checkpoint.CheckpointRecord) (record : Witness.WitnessRecord),
    cp.signingPayload ≠ record.signingPayload

theorem openEnvelope_ok_iff {sha256 : Bytes → Hash} {bytes : Bytes} {view : EventView}
    (h : decodeEnvelope bytes = .ok view) :
    openEnvelope sha256 bytes = .ok view.input ↔
      verifyEnvelope sha256 view.logId view = .ok () := by
  rw [openEnvelope, h, ok_bind]
  rcases verifyEnvelope sha256 view.logId view with e | _
  · constructor
    · intro h
      cases h
    · intro h
      cases h
  · exact ⟨fun _ => rfl, fun _ => rfl⟩

/-- **Each artefact has one accepted encoding.** -/
theorem canonical_encodings (sha256 : Bytes → Hash) : CanonicalEncodings sha256 where
  inclusionProof := canonical_inclusionProof
  checkpoint := Checkpoint.canonical_checkpoint
  witness := Witness.canonical_witness
  envelope_decode input bytes h := by
    have hopen := (canonical_envelope input bytes).mpr h
    obtain ⟨view, hview, hopen⟩ := bind_ok hopen
    obtain ⟨_, -, hopen⟩ := bind_ok hopen
    exact ⟨view, hview, Except.ok.inj hopen⟩
  envelope_encode bytes view h := by
    rw [← canonical_envelope, openEnvelope_ok_iff h]
  accumulatorState _ _ _ := decodeState_iff
  signingPayload := Witness.signingPayload_ne

/-- An envelope with zeros where the derived hashes belong. -/
def forgedEnvelope : Bytes :=
  envelopeMagic ++ beBytes 2 envelopeVersion ++ beBytes 4 1 ++ ascii "l" ++ beBytes 8 1 ++
    zeroHash.bytes ++ beBytes 8 0 ++ zeroHash.bytes ++ beBytes 4 0 ++ beBytes 4 0 ++ zeroHash.bytes

def forgedView : EventView :=
  ⟨forgedEnvelope, ascii "l", 1, zeroHash, 0, zeroHash, [], 0, [], zeroHash⟩

/-- A state of no events with a peak. -/
def strayPeak : AccumulatorState := ⟨[⟨0, zeroHash⟩], 0, 0, zeroHash, zeroHash⟩

/-- The decoder of envelopes takes derived hashes that the encoder never writes, and the encoder
of states takes states that the decoder refuses. -/
theorem forged_envelope_and_stray_peak :
    decodeEnvelope forgedEnvelope = .ok forgedView ∧
      encodeEnvelope sha256Digest forgedView.input ≠ .ok forgedEnvelope ∧
      encodeAccumulatorState (ascii "l") strayPeak = .ok (stateBytes (ascii "l") strayPeak) ∧
      decodeAccumulatorState sha256Digest (ascii "l") (stateBytes (ascii "l") strayPeak) ≠
        .ok strayPeak := by
  have hview : decodeEnvelope forgedEnvelope = .ok forgedView := by decide +kernel
  refine ⟨hview, ?_, rfl, ?_⟩
  · intro hencode
    rw [← canonical_envelope, openEnvelope_ok_iff hview] at hencode
    obtain ⟨-, hpayload, -⟩ := verifyEnvelope_ok hencode
    rw [sha256Digest_eq_eval] at hpayload
    exact absurd hpayload (by decide +kernel)
  · intro hdecode
    obtain ⟨-, hcanonical, -⟩ := decodeState_iff.mp hdecode
    exact absurd hcanonical (by decide)

end ProofEncodings
end WormDB
