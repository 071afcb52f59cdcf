import WormDB.AppendLog
import WormDB.MmrCodec

/-! # What the append log reads back

The two stored formats read back what was written: an envelope gives the event's
view, which passes the checks of the log it was written for
(`decodeEnvelope_seal`, `verifyEnvelope_view`), and a state record gives the
state (`decodeAccumulatorState_stateBytes`).  Keys read back their number, keep
the order of the numbers, and those of events and of states are apart. -/
namespace WormDB
open List ByteCodec ByteReader
namespace AppendLog
open Mmr (Peak rootFromPeaks peaksAreCanonical proofMaxPeaks)

variable (sha256 : Bytes → Hash)

/-! ## Envelopes -/

/-- Every length of the event has a length field to fit in. -/
structure EventInput.Fits (input : EventInput) : Prop where
  logId : input.logId.length ≤ maxU32
  payload : input.payload.length ≤ maxU32
  attachments : input.attachmentHashes.length ≤ maxU32

/-- What is read back of an event. -/
def EventInput.view (input : EventInput) : EventView :=
  ⟨(sealEnvelope sha256 input).envelope, input.logId, input.seq, input.prevEventHash,
    input.ingestTimeMs, sha256 input.payload, input.attachmentHashes.flatMap Hash.bytes,
    input.attachmentHashes.length, input.payload, (sealEnvelope sha256 input).eventHash⟩

variable {sha256}

theorem encodeEnvelopeWithHashes_ok {input : EventInput} {encoded : EncodedEnvelope}
    (h : encodeEnvelopeWithHashes sha256 input = .ok encoded) :
    input.Fits ∧ encoded = sealEnvelope sha256 input := by
  rw [encodeEnvelopeWithHashes] at h
  split at h
  · cases h
  split at h
  · cases h
  split at h
  · cases h
  rename_i hlog hpayload hattach
  exact ⟨⟨Nat.not_lt.mp hlog, Nat.not_lt.mp hpayload, Nat.not_lt.mp hattach⟩,
    (Except.ok.inj h).symm⟩

theorem flatMap_bytes_length (hashes : List Hash) :
    (hashes.flatMap Hash.bytes).length = attachmentHashBytesLen hashes.length :=
  Mmr.flatMap_length_const Hash.size_eq hashes

/-- **Decoding an envelope gives the event back.** -/
theorem decodeEnvelope_seal {input : EventInput} (h : input.Fits) :
    decodeEnvelope (sealEnvelope sha256 input).envelope = .ok (input.view sha256) := by
  have hlog : input.logId.length < 256 ^ 4 := by have := h.logId; rw [maxU32] at this; omega
  have hpayload : input.payload.length < 256 ^ 4 := by
    have := h.payload; rw [maxU32] at this; omega
  have hattach : input.attachmentHashes.length < 256 ^ 4 := by
    have := h.attachments; rw [maxU32] at this; omega
  have hend := readHash_append Error.invalidEnvelope (sha256 (envelopePreimage sha256 input)) []
  rw [append_nil] at hend
  rw [decodeEnvelope, sealEnvelope]
  generalize hsum : sha256 (envelopePreimage sha256 input) = sum at hend ⊢
  simp only [envelopePreimage, append_assoc]
  rw [readBytes_append _ rfl, ok_bind]
  simp only [ne_eq, not_true_eq_false, if_false]
  rw [readUInt_append _ (by decide), ok_bind]
  simp only [not_true_eq_false, if_false]
  rw [readUInt_append _ hlog, ok_bind]
  simp only []
  rw [readBytes_append _ rfl, ok_bind]
  simp only []
  rw [readUInt_append _ input.seq.toNat_lt, ok_bind]
  simp only []
  rw [readHash_append, ok_bind]
  simp only []
  rw [readUInt_append _ input.ingestTimeMs.toNat_lt, ok_bind]
  simp only []
  rw [readHash_append, ok_bind]
  simp only []
  rw [readUInt_append _ hattach, ok_bind]
  simp only []
  rw [readBytes_append _ (flatMap_bytes_length _), ok_bind]
  simp only []
  rw [readUInt_append _ hpayload, ok_bind]
  simp only []
  rw [readBytes_append _ rfl, ok_bind]
  simp only [hend, ok_bind]
  simp [pure, Except.pure, EventInput.view, sealEnvelope, envelopePreimage, ← hsum]

theorem hashEnvelopePreimage_seal (input : EventInput) :
    hashEnvelopePreimage sha256 (sealEnvelope sha256 input).envelope =
      .ok (sealEnvelope sha256 input).eventHash := by
  have hlen := (sha256 (envelopePreimage sha256 input)).size_eq
  rw [hashEnvelopePreimage, sealEnvelope]
  simp only [length_append, hlen]
  rw [if_neg (by omega), Nat.add_sub_cancel, take_left]

/-- **A sealed event passes the checks of its log.** -/
theorem verifyEnvelope_view (input : EventInput) :
    verifyEnvelope sha256 input.logId (input.view sha256) = .ok () := by
  rw [verifyEnvelope, EventInput.view]
  simp only [ne_eq, not_true_eq_false, if_false, hashEnvelopePreimage_seal,
    flatMap_bytes_length]

/-! ## State records -/

theorem readPeak_append (peak : Peak) (rest : Bytes) :
    readPeak (Mmr.encodePeak peak ++ rest) = .ok (peak, rest) := by
  obtain ⟨height, hash⟩ := peak
  rw [Mmr.encodePeak, cons_append, readPeak, readByte_cons, ok_bind]
  simp [ok_bind, readHash_append, pure, Except.pure]

variable {logId : Bytes} {state : AccumulatorState}

theorem encodeAccumulatorState_ok {value : Bytes}
    (h : encodeAccumulatorState logId state = .ok value) : value = stateBytes logId state := by
  rw [encodeAccumulatorState] at h
  split at h
  · cases h
  split at h
  · cases h
  exact (Except.ok.inj h).symm

/-- **Decoding a state record gives the state back**, when its peaks and root are
those of its number of events. -/
theorem decodeAccumulatorState_stateBytes
    (hlog : logId.length ≤ maxU32) (hpeaks : state.peaks.length ≤ proofMaxPeaks)
    (hcanonical : peaksAreCanonical state.lastSeq state.peaks = true)
    (hroot : rootFromPeaks sha256 state.lastSeq state.peaks = state.accumulatorRoot) :
    decodeAccumulatorState sha256 logId (stateBytes logId state) = .ok state := by
  have hloglt : logId.length < 256 ^ 4 := by rw [maxU32] at hlog; omega
  have hpeakslt : state.peaks.length < 256 ^ 4 := by
    have := hpeaks
    rw [proofMaxPeaks] at this
    omega
  have hread := readItems_append readPeak_append state.peaks []
  rw [append_nil] at hread
  have hseq : state.lastSeq.toNat.toUInt64 = state.lastSeq := by simp
  simp only [stateBytes, append_assoc, decodeAccumulatorState]
  rw [readBytes_append _ rfl, ok_bind]
  simp only [ne_eq, not_true_eq_false, if_false]
  rw [readUInt_append _ (by decide), ok_bind]
  simp only [not_true_eq_false, if_false]
  rw [readUInt_append _ hloglt, ok_bind]
  simp only []
  rw [readBytes_append _ rfl, ok_bind]
  simp only [not_true_eq_false, if_false]
  rw [readUInt_append _ state.lastSeq.toNat_lt, ok_bind]
  simp only []
  rw [readUInt_append _ state.lastIngestTimeMs.toNat_lt, ok_bind]
  simp only []
  rw [readHash_append, ok_bind]
  simp only []
  rw [readHash_append, ok_bind]
  simp only []
  rw [readUInt_append _ hpeakslt, ok_bind]
  simp only [if_neg (Nat.not_lt.mpr hpeaks)]
  rw [hread, ok_bind]
  simp [hseq, hcanonical, hroot, pure, Except.pure]

/-! ## Keys -/

theorem seqFromKey_append {err : Error} (pre : Bytes) (seq : UInt64) :
    seqFromKey err pre (pre ++ beBytes 8 seq.toNat) = .ok seq := by
  rw [seqFromKey, if_neg, if_neg]
  · rw [drop_left, beNat_beBytes_of_lt seq.toNat_lt]
    simp
  · rw [take_left]
    exact not_not_intro rfl
  · rw [length_append, beBytes_length]
    exact not_not_intro rfl

theorem eventKeyPrefix_isPrefix (logId : Bytes) (seq : UInt64) :
    eventKeyPrefix sha256 logId <+: eventKey sha256 logId seq := prefix_append _ _

theorem accumulatorStateKeyPrefix_isPrefix (logId : Bytes) (seq : UInt64) :
    accumulatorStateKeyPrefix sha256 logId <+: accumulatorStateKey sha256 logId seq :=
  prefix_append _ _

variable {a b : UInt64}

theorem append_beBytes_inj {pre : Bytes}
    (h : pre ++ beBytes 8 a.toNat = pre ++ beBytes 8 b.toNat) : a = b :=
  UInt64.toNat_inj.mp (beBytes_inj a.toNat_lt b.toNat_lt (append_cancel_left h))

theorem eventKey_inj
    (h : eventKey sha256 logId a = eventKey sha256 logId b) : a = b := append_beBytes_inj h

theorem eventKey_lt (logId : Bytes) (h : a < b) :
    eventKey sha256 logId a < eventKey sha256 logId b :=
  append_left_lt (beBytes_lt b.toNat_lt (UInt64.lt_iff_toNat_lt.mp h))

/-- The seventeenth byte is a colon in an event's key and a hyphen in a state's. -/
theorem keys_apart {key : Bytes} (hevent : eventKeyPrefix sha256 logId <+: key)
    (hstate : accumulatorStateKeyPrefix sha256 logId <+: key) : False := by
  obtain ⟨rest, rfl⟩ := hevent
  obtain ⟨rest', heq⟩ := hstate
  have hbyte := congrArg (fun bytes : Bytes => bytes[16]?) heq
  simp only [eventKeyPrefix, accumulatorStateKeyPrefix, append_assoc] at hbyte
  rw [getElem?_append_left (by decide), getElem?_append_left (by decide)] at hbyte
  revert hbyte
  decide

end AppendLog
end WormDB
