import WormDB.ProofBundleBuild

/-! # Which bundles can be built

Of a log that appends have made, a bundle of any range can be built exactly when it
fits its format (`Buildable`), and the bytes that are then built decode to a bundle
that is accepted (`build_complete`).  A log without a name has no bundle, though
events can be appended to it; the last number a log can give is out of reach, since
the builder's counter stops there. -/
namespace WormDB
open List ByteCodec ByteReader AppendLog

/-- The keys belong together: whatever is signed with the one verifies under the other. -/
structure Ed25519.ValidPair (ed25519 : Ed25519) (publicKey secretKey : Bytes) : Prop where
  publicLen : publicKey.length = Checkpoint.publicKeyLen
  signs : ∀ message, ∃ sig, ed25519.sign secretKey message = some sig ∧
    ed25519.verify publicKey message sig = true

namespace Bundle
open Checkpoint (CheckpointRecord)
open Mmr (Accumulator appendLeaves maxU64)
open AppendLog (Request EventInput Act Holds eventKey eventKeyPrefix eventEntries inputs inputsFrom
  stateOf leaves sealEnvelope run)

/-- The bytes of a signing payload besides the log's name and the extension. -/
def payloadOverhead : Nat := 138

/-- Every length of the bundle has a field to fit in, and the log has a name. -/
structure Buildable (sha256 : Bytes → Hash) (options : AppendLogMmrBundleOptions) (kv : Kv) :
    Prop where
  named : options.logId ≠ []
  before : options.toSeq.toNat < maxU64
  count : options.toSeq.toNat - options.fromSeq.toNat < maxU32
  payload : payloadOverhead + options.logId.length + options.checkpointExtensionBytes.length ≤ maxU32
  extension : options.bundleExtensionBytes.length ≤ maxU32
  envelopes : ∀ seq content, options.fromSeq ≤ seq → seq ≤ options.toSeq →
    kv.get (eventKey sha256 options.logId seq) = some content → content.value.length ≤ maxU32

variable {sha256 : Bytes → Hash} {ed25519 : Ed25519} {options : AppendLogMmrBundleOptions}

/-! ## The range -/

variable (sha256 options) in
/-- The events of the range, in a log of the requests. -/
def rangeInputs (es : List Request) : List EventInput :=
  inputsFrom sha256 options.logId (stateOf sha256 options.logId (es.take (options.fromSeq.toNat - 1)))
    ((es.take options.toSeq.toNat).drop (options.fromSeq.toNat - 1))

variable {es : List Request}

theorem rangeInputs_eq (hle : options.fromSeq.toNat ≤ options.toSeq.toNat) :
    rangeInputs sha256 options es = ((inputs sha256 options.logId es).take options.toSeq.toNat).drop
        (options.fromSeq.toNat - 1) := by
  rw [rangeInputs, ← inputs_take, inputs, inputsFrom_drop, take_take,
    Nat.min_eq_left (by omega), stateOf]

theorem mem_rangeInputs (hlen : es.length ≤ maxU64)
    (hfrom : 0 < options.fromSeq.toNat) (hle : options.fromSeq.toNat ≤ options.toSeq.toNat)
    {input : EventInput} :
    input ∈ rangeInputs sha256 options es ↔ input ∈ inputs sha256 options.logId es ∧
      options.fromSeq ≤ input.seq ∧ input.seq ≤ options.toSeq := by
  have hseq : ∀ i, (inputs sha256 options.logId es)[i]? = some input → input.seq.toNat = i + 1 := by
    intro i hi
    rw [inputs, inputsFrom_getElem?, Option.map_eq_some_iff] at hi
    obtain ⟨req, hreq, rfl⟩ := hi
    exact input_seq sha256 options.logId hlen hreq
  rw [rangeInputs_eq hle, UInt64.le_iff_toNat_le, UInt64.le_iff_toNat_le]
  constructor
  · intro hin
    obtain ⟨j, hj⟩ := mem_iff_getElem?.mp hin
    rw [getElem?_drop, getElem?_take] at hj
    split at hj
    · rename_i hlt
      have hnum := hseq _ hj
      exact ⟨mem_of_getElem? hj, by omega, by omega⟩
    · cases hj
  · rintro ⟨hin, hfirst, hlast⟩
    obtain ⟨i, hi⟩ := mem_iff_getElem?.mp hin
    have hnum := hseq i hi
    refine mem_iff_getElem?.mpr ⟨i - (options.fromSeq.toNat - 1), ?_⟩
    rw [getElem?_drop, getElem?_take, if_pos (by omega),
      show options.fromSeq.toNat - 1 + (i - (options.fromSeq.toNat - 1)) = i by omega]
    exact hi

section Range
variable {kv : Kv} {es : List Request}

theorem rangeInputs_length (hfrom : 0 < options.fromSeq.toNat)
    (hle : options.fromSeq.toNat ≤ options.toSeq.toNat) (hto : options.toSeq.toNat ≤ es.length) :
    (rangeInputs sha256 options es).length =
      options.toSeq.toNat - options.fromSeq.toNat + 1 := by
  rw [rangeInputs_eq hle, length_drop, length_take, inputs_length]
  omega

section
variable (h : Holds sha256 options.logId kv es)
include h

theorem inRange (hfrom : 0 < options.fromSeq.toNat)
    (hle : options.fromSeq.toNat ≤ options.toSeq.toNat) (hto : options.toSeq.toNat ≤ es.length) :
    InRange sha256 options (stateOf sha256 options.logId (es.take (options.fromSeq.toNat - 1)))
    ((es.take options.toSeq.toNat).drop (options.fromSeq.toNat - 1)) := by
  have hlen := h.len
  have hlast := lastSeq_take sha256 options.logId hlen
    (show options.fromSeq.toNat - 1 ≤ es.length by omega)
  have hreqs : ((es.take options.toSeq.toNat).drop (options.fromSeq.toNat - 1)).length =
      options.toSeq.toNat - (options.fromSeq.toNat - 1) := by
    rw [length_drop, length_take]
    omega
  constructor
  · intro hnil
    rw [hnil, length_nil] at hreqs
    omega
  · omega
  · exact fun input hin => h.fits input ((mem_rangeInputs hlen hfrom hle).mp hin).1
  · exact fun input hin => ((mem_rangeInputs hlen hfrom hle).mp hin).2
  · intro hone
    have hnum := congrArg UInt64.toNat hone
    rw [toNat_succ (by omega), hlast, UInt64.toNat_one] at hnum
    rw [show options.fromSeq.toNat - 1 = 0 by omega]
    rfl

/-- The store has the record of an event of the range, and no other. -/
theorem stored_iff (hfrom : 0 < options.fromSeq.toNat)
    (hle : options.fromSeq.toNat ≤ options.toSeq.toNat) {seq : UInt64} {content : Content}
    (hfirst : options.fromSeq ≤ seq) (hlast : seq ≤ options.toSeq) :
    kv.get (eventKey sha256 options.logId seq) = some content ↔
      ∃ input ∈ rangeInputs sha256 options es, input.seq = seq ∧
        content = (input.entry sha256).2 := by
  rw [h.events _ _ (eventKeyPrefix_isPrefix options.logId seq),
    mem_eventEntries_iff]
  constructor
  · rintro ⟨i, req, hreq, heq⟩
    obtain ⟨hkey, hcontent⟩ := Prod.mk.inj heq
    have hseq := (eventKey_inj hkey).symm
    refine ⟨_, (mem_rangeInputs h.len hfrom hle).mpr ⟨?_, ?_⟩, hseq, hcontent⟩
    · exact mem_inputs_iff.mpr ⟨i, req, hreq, rfl⟩
    · exact hseq ▸ ⟨hfirst, hlast⟩
  · rintro ⟨input, hin, rfl, rfl⟩
    obtain ⟨i, req, hreq, rfl⟩ :=
      mem_inputs_iff.mp ((mem_rangeInputs h.len hfrom hle).mp hin).1
    exact ⟨i, req, hreq, rfl⟩

theorem envelopes_iff (hfrom : 0 < options.fromSeq.toNat)
    (hle : options.fromSeq.toNat ≤ options.toSeq.toNat) :
    (∀ seq content, options.fromSeq ≤ seq → seq ≤ options.toSeq →
      kv.get (eventKey sha256 options.logId seq) = some content → content.value.length ≤ maxU32) ↔
    ∀ record ∈ (rangeInputs sha256 options es).map (inputRecord sha256), record.Fits := by
  constructor
  · intro hall record hr
    obtain ⟨input, hin, rfl⟩ := mem_map.mp hr
    obtain ⟨-, hfirst, hlast⟩ := (mem_rangeInputs h.len hfrom hle).mp hin
    have hlen := hall input.seq _ hfirst hlast
      ((stored_iff h hfrom hle hfirst hlast).mpr ⟨input, hin, rfl, rfl⟩)
    exact ⟨hlen, by rintro value ⟨⟩, Nat.zero_le _⟩
  · intro hall seq content hfirst hlast hget
    obtain ⟨input, hin, -, rfl⟩ := (stored_iff h hfrom hle hfirst hlast).mp hget
    exact (hall _ (mem_map_of_mem hin)).canonical

end

end Range

/-! ## The checkpoint -/

theorem payload_length {clock : UInt64 × UInt64} {root : Hash} {sig : Signature}
    (hkey : options.creatorPublicKey.length = Checkpoint.publicKeyLen) :
    ({ unsignedCheckpoint options clock root with signature := sig }).signingPayload.length =
      payloadOverhead + options.logId.length + options.checkpointExtensionBytes.length := by
  have hdomain : (Checkpoint.terminated Checkpoint.checkpointSigningDomain).length = 26 := rfl
  simp only [CheckpointRecord.signingPayload, unsignedCheckpoint, Checkpoint.optionalHash,
    length_append, length_singleton, beBytes_length, lenBytes_length, hdomain,
    root.size_eq, hkey, Checkpoint.publicKeyLen, payloadOverhead]
  omega

variable {cp : CheckpointRecord}

theorem recordHash_iff {hash : Hash} : cp.recordHash sha256 = .ok hash ↔ cp.validateShape = .ok () ∧
      cp.signingPayload.length ≤ maxU32 ∧ hash = sha256 cp.canonicalBytes := by
  rw [CheckpointRecord.recordHash, CheckpointRecord.encodeCanonical,
    CheckpointRecord.encodeSigningPayload]
  cases hshape : cp.validateShape with
  | error e => simp
  | ok u =>
    simp only [true_and]
    by_cases hlen : cp.signingPayload.length > Checkpoint.maxU32
    · rw [if_pos hlen]
      simp only [reduceCtorEq, false_iff]
      exact fun h => absurd h.1 (Nat.not_le.mpr hlen)
    · rw [if_neg hlen]
      simp only [Except.ok.injEq]
      constructor
      · rintro rfl
        exact ⟨Nat.not_lt.mp hlen, rfl⟩
      · rintro ⟨-, rfl⟩
        rfl

theorem mapError_ok {α : Type} {x : Except Checkpoint.Error α} {a : α} :
    x.mapError Error.checkpoint = .ok a ↔ x = .ok a := by
  cases x <;> simp [Except.mapError]

theorem signEd25519_iff {secretKey : Bytes} {sig : Signature} :
    cp.signEd25519 ed25519 secretKey = .ok sig ↔
      cp.validateShape = .ok () ∧ ed25519.sign secretKey cp.signingPayload = some sig := by
  rw [CheckpointRecord.signEd25519, CheckpointRecord.encodeSigningPayload]
  cases hshape : cp.validateShape with
  | error e => simp
  | ok u =>
    simp only [true_and]
    cases ed25519.sign secretKey cp.signingPayload <;> simp

/-! ## Building -/

section Build
variable {kv : Kv} {es : List Request} {clock : UInt64 × UInt64}

/-- The builder comes to the signature with the accumulator and the records of the
range, unless the range ends with the last number there is. -/
theorem build_eq (h : Holds sha256 options.logId kv es)
    (hkey : options.creatorPublicKey.length = Checkpoint.publicKeyLen)
    (hfrom : 0 < options.fromSeq.toNat) (hle : options.fromSeq.toNat ≤ options.toSeq.toNat)
    (hto : options.toSeq.toNat ≤ es.length) :
    ∃ s, Builds sha256 options (es.take options.toSeq.toNat) s ∧
      s.records = (rangeInputs sha256 options es).map (inputRecord sha256) ∧
      buildAppendLogMmrBundle sha256 ed25519 options kv clock =
        if options.toSeq.toNat < maxU64 then finishBundle sha256 ed25519 options clock s
        else .error (.log .sequenceGap) := by
  obtain ⟨s, hloop, hbuilds⟩ := scan_builds h
  have hrecords : s.records = (rangeInputs sha256 options es).map (inputRecord sha256) := by
    rw [hbuilds.records, rangeInputs_eq hle, inputs_take]
  have hcount := congrArg List.length hrecords
  rw [length_map, rangeInputs_length hfrom hle hto] at hcount
  have hlen := h.len
  have hne : ¬ options.fromSeq = 0 := by
    intro he
    rw [he, UInt64.toNat_zero] at hfrom
    omega
  have hgt : ¬ options.fromSeq > options.toSeq := by
    rw [gt_iff_lt, UInt64.lt_iff_toNat_lt]
    omega
  have hrange : rangeLen options.fromSeq options.toSeq =
      .ok (options.toSeq.toNat - options.fromSeq.toNat + 1) := by
    have hmax := options.toSeq.toNat_lt
    rw [rangeLen, if_neg hgt, if_neg (by rw [maxU64]; omega)]
  refine ⟨s, hbuilds, hrecords, ?_⟩
  rw [buildAppendLogMmrBundle, if_neg hne, if_neg hgt, if_neg (not_not_intro hkey), hrange]
  simp only [hloop]
  have htake : (es.take options.toSeq.toNat).length = options.toSeq.toNat := by
    rw [length_take]
    omega
  by_cases hlt : options.toSeq.toNat < maxU64
  · have hnum := hbuilds.expected (by omega)
    rw [if_pos hlt, if_neg, if_neg (not_not_intro hcount)]
    rw [UInt64.le_iff_toNat_le, hnum, htake]
    omega
  · -- the counter of the loop stays at the largest number
    have hbound := s.expectedSeq.toNat_lt
    rw [if_neg hlt, if_pos]
    rw [UInt64.le_iff_toNat_le]
    rw [maxU64] at hlt
    omega

variable {s : BuildState}

section
variable (h : Holds sha256 options.logId kv es)
include h

/-- The proofs of the records of the range. -/
theorem proofs_exist (hle : options.fromSeq.toNat ≤ options.toSeq.toNat)
    (hbuilds : Builds sha256 options (es.take options.toSeq.toNat) s) (cpHash : Hash) :
    ∃ proofs, ((rangeInputs sha256 options es).map (inputRecord sha256)).mapM
        (proveRecord s.acc cpHash) = .ok proofs ∧
      List.Forall₂ (Proves sha256 (s.acc.root sha256) cpHash)
        ((rangeInputs sha256 options es).map (inputRecord sha256)) proofs := by
  refine mapM_forall₂ (fun record hr => ?_)
  obtain ⟨input, hin, rfl⟩ := mem_map.mp hr
  rw [rangeInputs_eq hle] at hin
  obtain ⟨j, hj⟩ := mem_iff_getElem?.mp hin
  rw [getElem?_drop] at hj
  generalize options.fromSeq.toNat - 1 + j = i at hj
  have hnum : input.seq.toNat = i + 1 := by
    rw [getElem?_take] at hj
    split at hj
    · rw [inputs, inputsFrom_getElem?, Option.map_eq_some_iff] at hj
      obtain ⟨req, hreq, rfl⟩ := hj
      exact input_seq sha256 options.logId h.len hreq
    · cases hj
  refine proveRecord_ok hbuilds.mmr ?_ hnum cpHash
  rw [leaves, inputs_take, getElem?_map, hj]
  rfl

theorem finish_of_buildable
    (hkeys : ed25519.ValidPair options.creatorPublicKey options.creatorSecretKey)
    (hfrom : 0 < options.fromSeq.toNat) (hle : options.fromSeq.toNat ≤ options.toSeq.toNat)
    (hto : options.toSeq.toNat ≤ es.length)
    (hbuilds : Builds sha256 options (es.take options.toSeq.toNat) s)
    (hrecords : s.records = (rangeInputs sha256 options es).map (inputRecord sha256))
    (hfits : Buildable sha256 options kv) :
    ∃ encoded bundle, finishBundle sha256 ed25519 options clock s = .ok encoded ∧
      decodeCanonical encoded.bytes = .ok bundle ∧
      verifyAppendLogMmrBundle sha256 ed25519 bundle = .ok encoded.info := by
  have hrange := inRange h hfrom hle hto
  have hpayloadfits := hfits.payload
  have hloglen : options.logId.length ≤ maxU32 := by omega
  have hextlen : options.checkpointExtensionBytes.length ≤ maxU32 := by omega
  -- a checkpoint of this range has the right shape
  have hshape : (unsignedCheckpoint options clock (s.acc.root sha256)).validateShape = .ok () := by
    exact CheckpointRecord.validateShape_ok.mpr ⟨rfl, hfits.named, UInt64.le_iff_toNat_le.mpr hle,
      hloglen, hextlen, hkeys.publicLen⟩
  obtain ⟨sig, hsign, hverify⟩ := hkeys.signs
    (unsignedCheckpoint options clock (s.acc.root sha256)).signingPayload
  have hlen := @payload_length options clock (s.acc.root sha256) sig hkeys.publicLen
  generalize hcp : ({ unsignedCheckpoint options clock (s.acc.root sha256) with signature := sig } :
    CheckpointRecord) = cp at hlen
  have hcpshape : cp.validateShape = .ok () := by
    rw [← hcp]
    exact hshape
  have hhash : cp.recordHash sha256 = .ok (sha256 cp.canonicalBytes) :=
    recordHash_iff.mpr ⟨hcpshape, hlen ▸ hpayloadfits, rfl⟩
  have hseal : Seals sha256 ed25519 options (s.acc.root sha256) (sha256 cp.canonicalBytes) cp := by
    refine ⟨hcpshape, ?_, hhash, ?_, ?_, ?_, ?_, ?_⟩ <;> rw [← hcp]
    · exact ⟨hkeys.publicLen, hverify⟩
    all_goals rfl
  -- every record of the range has its proof
  obtain ⟨proofs, hproofs, hforall⟩ := proofs_exist h hle hbuilds (sha256 cp.canonicalBytes)
  generalize hbundle : assembled options
    ((rangeInputs sha256 options es).map (inputRecord sha256)) proofs cp = bundle
  -- the bundle passes the verifier it is meant for
  obtain ⟨info, haccept, hinfo⟩ : ∃ info,
      verifyAppendLogMmrBundle sha256 ed25519 bundle = .ok info ∧
        bundleInfo sha256 bundle = .ok info := by
    rw [← hbundle]
    exact assembled_verifies hrange hfits.named hseal hforall
  have hbshape : bundle.validateShape = .ok () := by
    rw [← hbundle]
    exact assembled_shape hrange hfits.named hforall
  have hrecordfits := (envelopes_iff h hfrom hle).mp hfits.envelopes
  have hcount : ((rangeInputs sha256 options es).map (inputRecord sha256)).length ≤ maxU32 := by
    have := hfits.count
    rw [length_map, rangeInputs_length hfrom hle hto]
    omega
  -- and its fields fit their lengths
  have hbundlefits : bundle.Fits := by
    rw [← hbundle]
    refine ⟨hloglen, hfits.extension, hcount, hrecordfits, ?_, ?_, ?_, ?_⟩
    · rw [show (assembled options _ proofs cp).inclusionProofs = proofs from rfl, ← hforall.length_eq]
      exact hcount
    · intro proof hp
      obtain ⟨record, -, hproves⟩ := forall₂_mem_right hforall hp
      exact hproves.fits
    · exact (by decide : 1 ≤ maxU32)
    · intro c hc
      obtain rfl := mem_singleton.mp hc
      obtain ⟨-, -, -, hlog, hext, hkey⟩ := CheckpointRecord.validateShape_ok.mp hcpshape
      exact ⟨hlog, by rw [hkey]; decide, hext⟩
  have hencode := encodeCanonical_ok_iff.mpr ⟨hbshape, hbundlefits, rfl⟩
  refine ⟨⟨_, info⟩, _, ?_, decode_encode hencode ?_, haccept⟩
  · rw [finishBundle, mapError_ok.mpr (signEd25519_iff.mpr ⟨hshape, hsign⟩), ok_bind]
    simp only [hcp]
    rw [mapError_ok.mpr hhash, ok_bind, hrecords, hproofs, ok_bind, hbundle, haccept, ok_bind,
      hencode, ok_bind, hinfo, ok_bind]
    rfl
  · intro record hr
    rw [← hbundle] at hr
    obtain ⟨input, -, rfl⟩ := mem_map.mp hr
    exact fun _ => rfl

theorem buildable_of_finish (hkey : options.creatorPublicKey.length = Checkpoint.publicKeyLen)
    (hfrom : 0 < options.fromSeq.toNat) (hle : options.fromSeq.toNat ≤ options.toSeq.toNat)
    (hto : options.toSeq.toNat ≤ es.length) (hbefore : options.toSeq.toNat < maxU64)
    (hrecords : s.records = (rangeInputs sha256 options es).map (inputRecord sha256))
    {encoded : EncodedBundle} (hok : finishBundle sha256 ed25519 options clock s = .ok encoded) :
    Buildable sha256 options kv := by
  rw [finishBundle] at hok
  obtain ⟨sig, hsign, hok⟩ := bind_ok hok
  obtain ⟨cpHash, hhash, hok⟩ := bind_ok hok
  obtain ⟨proofs, -, hok⟩ := bind_ok hok
  obtain ⟨info, -, hok⟩ := bind_ok hok
  obtain ⟨bytes, hencode, -⟩ := bind_ok hok
  obtain ⟨hshape, -⟩ := signEd25519_iff.mp (mapError_ok.mp hsign)
  obtain ⟨-, hpayload, -⟩ := recordHash_iff.mp (mapError_ok.mp hhash)
  obtain ⟨-, hfits, -⟩ := encodeCanonical_ok_iff.mp hencode
  have hcount := hfits.recordCount
  have hrecordfits := hfits.records
  rw [show (assembled options s.records _ _).records = s.records from rfl, hrecords] at hcount hrecordfits
  rw [length_map, rangeInputs_length hfrom hle hto] at hcount
  refine ⟨(CheckpointRecord.validateShape_ok.mp hshape).2.1, hbefore, hcount, ?_, hfits.extension,
    (envelopes_iff h hfrom hle).mpr hrecordfits⟩
  rw [payload_length hkey] at hpayload
  exact hpayload

end

end Build

/-- **When a bundle can be built**, of a store that has the log. -/
theorem build_iff {kv : Kv} (h : Holds sha256 options.logId kv es)
    (hkeys : ed25519.ValidPair options.creatorPublicKey options.creatorSecretKey)
    (hfrom : 0 < options.fromSeq.toNat) (hle : options.fromSeq.toNat ≤ options.toSeq.toNat)
    (hto : options.toSeq.toNat ≤ es.length) (clock : UInt64 × UInt64) :
    Buildable sha256 options kv ↔
      ∃ encoded bundle, buildAppendLogMmrBundle sha256 ed25519 options kv clock = .ok encoded ∧
        decodeCanonical encoded.bytes = .ok bundle ∧
        verifyAppendLogMmrBundle sha256 ed25519 bundle = .ok encoded.info := by
  obtain ⟨s, hbuilds, hrecords, hbuild⟩ :=
    @build_eq sha256 ed25519 options kv es clock h hkeys.publicLen hfrom hle hto
  rw [hbuild]
  constructor
  · intro hfits
    rw [if_pos hfits.before]
    exact finish_of_buildable h hkeys hfrom hle hto hbuilds hrecords hfits
  · rintro ⟨encoded, bundle, hok, -, -⟩
    split at hok
    · rename_i hbefore
      exact buildable_of_finish h hkeys.publicLen hfrom hle hto hbefore hrecords hok
    · cases hok

/-- Calls that have returned have numbers of their own, up to the number of events. -/
theorem returned_length_le {sys : AppendLog.System} {logId : Bytes}
    (h : AppendLog.Inv sha256 logId sys es) : sys.returned.length ≤ es.length := by
  have hsub : sys.returned.map (fun r => r.seq.toNat) ⊆ List.range' 1 es.length := by
    intro n hn
    obtain ⟨result, hmem, rfl⟩ := mem_map.mp hn
    obtain ⟨hpos, hle⟩ := (h.results result hmem).seq_le h.holds.len
    rw [mem_range'_1]
    omega
  have hnodup : (sys.returned.map (fun r => r.seq.toNat)).Nodup := by
    have hseqs := h.distinct.map (f := UInt64.toNat) (fun a b hab => UInt64.toNat_inj.mp hab)
    rw [map_map] at hseqs
    exact hseqs
  have hlen := (hnodup.subperm hsub).length_le
  rw [length_map, length_range'] at hlen
  exact hlen

/-- **Completeness of bundles.**  After any run of a log, whatever else went on: of every
range among the numbers of the calls that returned, a bundle that fits its format is
built, and its bytes decode to a bundle that is accepted; one that does not is not
built. -/
theorem build_complete (sha256 : Bytes → Hash) (ed25519 : Ed25519)
    (options : AppendLogMmrBundleOptions) (acts : List Act) (clock : UInt64 × UInt64)
    (hkeys : ed25519.ValidPair options.creatorPublicKey options.creatorSecretKey)
    (hfrom : 1 ≤ options.fromSeq.toNat) (hle : options.fromSeq.toNat ≤ options.toSeq.toNat)
    (hto : options.toSeq.toNat ≤ (run sha256 options.logId .init acts).returned.length) :
    Buildable sha256 options (run sha256 options.logId .init acts).kv ↔
      ∃ encoded bundle, buildAppendLogMmrBundle sha256 ed25519 options
          (run sha256 options.logId .init acts).kv clock = .ok encoded ∧
        decodeCanonical encoded.bytes = .ok bundle ∧
        verifyAppendLogMmrBundle sha256 ed25519 bundle = .ok encoded.info := by
  obtain ⟨es, h⟩ :=
    (init_inv : AppendLog.Inv sha256 options.logId .init []).run acts
  exact build_iff h.holds hkeys hfrom hle (le_trans hto (returned_length_le h)) clock

/-! ## At logs of one event and of two -/

open Mmr (sha256Digest)

/-- A seed and its public key. -/
def sampleSecretKey : Bytes :=
  [157, 97, 177, 157, 239, 253, 90, 96, 186, 132, 74, 244, 146, 236, 44, 196, 68, 73, 197, 105, 123,
    50, 105, 25, 112, 59, 172, 3, 28, 174, 127, 96] ++ samplePublicKey

def paddedDigest (message : Bytes) : Signature :=
  ⟨(sha256Digest message).bytes ++ (sha256Digest message).bytes, by
    rw [length_append, (sha256Digest message).size_eq]⟩

/-- One key pair; the signature of the message at hand is the one Ed25519 gives. -/
def sampleScheme : Ed25519 where
  verify := fun publicKey message signature => decide (publicKey = samplePublicKey ∧
    signature = if message = sampleCheckpoint.signingPayload then sampleSignature
      else paddedDigest message)
  sign := fun secretKey message =>
    if secretKey = sampleSecretKey then
      if message = sampleCheckpoint.signingPayload then some sampleSignature
      else some (paddedDigest message)
    else none

theorem sampleScheme_pair : sampleScheme.ValidPair samplePublicKey sampleSecretKey where
  publicLen := rfl
  signs := by
    intro message
    simp only [sampleScheme, if_true, decide_eq_true_eq, true_and]
    split
    · exact ⟨_, rfl, rfl⟩
    · exact ⟨_, rfl, rfl⟩

/-- The range of the first event. -/
def firstEvent (logId : Bytes) : AppendLogMmrBundleOptions :=
  ⟨logId, 1, 1, samplePublicKey, sampleSecretKey, some 10, some 11, [], []⟩

/-- One call that appends `"a"`. -/
def oneAppend : List Act := callSteps 0 ⟨ascii "a", [], 5⟩ true

/-- Calls that append `"a"` and `"b"`, and the range of both. -/
def twoAppends : List Act := oneAppend ++ callSteps 0 ⟨ascii "b", [], 5⟩ true

def bothEvents : AppendLogMmrBundleOptions :=
  ⟨ascii "t", 1, 2, samplePublicKey, sampleSecretKey, some 10, some 11, [], []⟩

/-- Both logs have their events; the one without a name has no checkpoint. -/
theorem append_evaluations :
    (run sha256Digest [] .init oneAppend).returned.length = 1 ∧
    buildAppendLogMmrBundle sha256Digest sampleScheme (firstEvent [])
      (run sha256Digest [] .init oneAppend).kv (0, 0) = .error (.checkpoint .emptyLogId) ∧
    (run sha256Digest (ascii "t") .init twoAppends).returned.length = 2 ∧
    ∀ event ∈ [(1, firstSealed), (2, secondSealed)],
      (run sha256Digest (ascii "t") .init twoAppends).kv.get
        (eventKey sha256Digest (ascii "t") event.1) = some ⟨event.2.envelope, 5, true⟩ ∧
      event.2.envelope.length ≤ maxU32 := by
  simp only [sampleScheme, paddedDigest, sampleCheckpoint, sampleAccumulator, sampleRecords,
    sampleRecord, secondSealed, firstSealed, map_cons, map_nil, Mmr.sha256Digest_eq_eval]
  decide +kernel

/-- The event of a log without a name is appended, and has no bundle. -/
theorem build_nameless :
    sampleScheme.ValidPair samplePublicKey sampleSecretKey ∧
    (run sha256Digest (firstEvent []).logId .init oneAppend).returned.length = 1 ∧
    buildAppendLogMmrBundle sha256Digest sampleScheme (firstEvent [])
      (run sha256Digest (firstEvent []).logId .init oneAppend).kv (0, 0) =
        .error (.checkpoint .emptyLogId) := by
  obtain ⟨hreturned, hbuild, -⟩ := append_evaluations
  exact ⟨sampleScheme_pair, hreturned, hbuild⟩

theorem bothEvents_buildable : Buildable sha256Digest bothEvents
    (run sha256Digest (ascii "t") .init twoAppends).kv where
  named := by decide
  before := by decide
  count := by decide
  payload := by decide
  extension := by decide
  envelopes := by
    intro seq content hfirst hlast hget
    obtain ⟨-, -, -, hstored⟩ := append_evaluations
    have hseq : seq = 1 ∨ seq = 2 := by
      simp only [bothEvents, UInt64.le_iff_toNat_le, ← UInt64.toNat_inj, UInt64.reduceToNat] at *
      omega
    rcases hseq with rfl | rfl
    · obtain ⟨hat, hlength⟩ := hstored (1, firstSealed) mem_cons_self
      cases hat.symm.trans hget
      exact hlength
    · obtain ⟨hat, hlength⟩ := hstored (2, secondSealed) (mem_cons_of_mem _ mem_cons_self)
      cases hat.symm.trans hget
      exact hlength

theorem build_complete_sample :
    ∃ encoded bundle, buildAppendLogMmrBundle sha256Digest sampleScheme bothEvents
        (run sha256Digest (ascii "t") .init twoAppends).kv (0, 0) = .ok encoded ∧
      decodeCanonical encoded.bytes = .ok bundle ∧
      verifyAppendLogMmrBundle sha256Digest sampleScheme bundle = .ok encoded.info :=
  (build_complete sha256Digest sampleScheme bothEvents twoAppends (0, 0) sampleScheme_pair
    (by decide) (by decide) (le_of_eq append_evaluations.2.2.1.symm)).mp bothEvents_buildable

end Bundle
end WormDB
