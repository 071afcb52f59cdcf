import WormDB.ProofBundleCodec
import WormDB.ProofEncodings
import WormDB.Recorder

/-! # Proof bundles have one encoding

What the bundle decoder accepts is what the encoder makes of the bundle it returns
(`encode_of_decode`): the presence bytes are zero or one, every length is the shortest
there is, and nothing may follow the last checkpoint.

The format has room for a value's hash only beside the value.  A record that carries a
hash and no value is encoded without the hash, and that is the only thing a round trip
changes (`decode_of_encode`).

`decodeCanonicalRecording` is the decoder that also writes down each list it allocates.
On no input, accepted or not, is one longer than the input has bytes for
(`decodeCanonicalRecording_records`). -/
namespace WormDB
open List ByteCodec ByteReader
namespace Bundle
open Checkpoint (CheckpointRecord lenBytes optionalHash beBytes_toNat reads_lenBytes)

/-! ## What the decoder accepts -/

theorem le_u32 {n : Nat} (h : n < 256 ^ 4) : n ≤ maxU32 := Nat.le_sub_one_of_lt h

variable {raw : Nat}

theorem decodeBool_ok_iff {flag : Bool} :
    decodeBool raw = .ok flag ↔ raw = if flag then 1 else 0 := by
  constructor
  · intro h
    unfold decodeBool at h
    split at h <;> cases h <;> rfl
  · rintro rfl
    cases flag <;> rfl

theorem reads_bool : Reads readBool (fun flag => [if flag then 1 else 0]) (fun _ => True) := by
  intro bytes flag rest
  rw [readBool, (reads_uint 1).bind]
  constructor
  · rintro ⟨raw, r, ⟨-, rfl⟩, h⟩
    obtain ⟨flag', hflag, h⟩ := bind_ok h
    obtain ⟨rfl, rfl⟩ := Prod.mk.inj (Except.ok.inj h)
    obtain rfl := decodeBool_ok_iff.mp hflag
    refine ⟨trivial, ?_⟩
    cases flag' <;> rfl
  · rintro ⟨-, rfl⟩
    refine ⟨if flag then 1 else 0, rest, ⟨by cases flag <;> decide, by cases flag <;> rfl⟩, ?_⟩
    dsimp only
    rw [decodeBool_ok_iff.mpr rfl]
    rfl

variable {α : Type} {encode : α → Bytes} {P : α → Prop}

/-- A field that is present. -/
theorem reads_if {read : Bytes → Except Error (α × Bytes)} (h : Reads read encode P) :
    Reads (readIf true read) (fun value => value.elim [] encode)
      (fun value => ∃ x, value = some x ∧ P x) := by
  intro bytes value rest
  rw [readIf, if_pos rfl, h.bind]
  constructor
  · rintro ⟨x, r, ⟨hx, rfl⟩, hok⟩
    cases hok
    exact ⟨⟨x, rfl, hx⟩, rfl⟩
  · rintro ⟨⟨x, rfl, hx⟩, rfl⟩
    exact ⟨x, rest, ⟨hx, rfl⟩, rfl⟩

variable {bytes : Bytes}

/-- A hash and the byte that says whether it is there. -/
theorem optionalHash_ok {β : Type}
    {f : Option Hash × Bytes → Except Error β} {b : β}
    (h : (do
      let x ← readBool bytes
      let y ← readIf x.1 (readHash invalid) x.2
      f y) = .ok b) :
    ∃ hash rest, bytes = optionalHash hash ++ rest ∧ f (hash, rest) = .ok b := by
  replace h := reads_bool.bind.mp h
  obtain ⟨present, r1, ⟨-, rfl⟩, h⟩ := h
  dsimp only at h
  cases present with
  | false =>
    rw [readIf_none, ok_bind] at h
    exact ⟨none, r1, rfl, h⟩
  | true =>
    replace h := (reads_if reads_hash).bind.mp h
    obtain ⟨_, r2, ⟨⟨hash, rfl, -⟩, rfl⟩, h⟩ := h
    exact ⟨some hash, r2, rfl, h⟩

theorem decodeBundleKind_ok_iff {kind : BundleKind} :
    decodeBundleKind raw = .ok kind ↔ raw = kind.backingInt.toNat := by
  constructor
  · intro h
    unfold decodeBundleKind at h
    split at h <;> cases h <;> rfl
  · rintro rfl
    cases kind <;> rfl

variable {rest : Bytes}

/-- The value field is read by its presence byte, with its hash or not at all. -/
theorem decodeRecord_ok {record : BundleRecord} (h : decodeRecord bytes = .ok (record, rest)) :
    (record.Fits ∧ record.Paired) ∧ bytes = record.bytes ++ rest := by
  replace h := (reads_uint 8).bind.mp h
  obtain ⟨seq, r1, ⟨hseq, rfl⟩, h⟩ := h
  replace h := reads_hash.bind.mp h
  obtain ⟨recordHash, r2, ⟨-, rfl⟩, h⟩ := h
  replace h := reads_lenBytes.bind.mp h
  obtain ⟨canonical, r3, ⟨hcanonical, rfl⟩, h⟩ := h
  replace h := reads_bool.bind.mp h
  obtain ⟨hasValue, r4, ⟨-, rfl⟩, h⟩ := h
  dsimp only at h
  cases hasValue with
  | false =>
    rw [readIf_none, ok_bind, readIf_none, ok_bind] at h
    replace h := reads_lenBytes.bind.mp h
    obtain ⟨extension, r5, ⟨hext, rfl⟩, h⟩ := h
    cases h
    refine ⟨⟨⟨le_u32 hcanonical, by simp [ValueFits], le_u32 hext⟩, fun _ => rfl⟩, ?_⟩
    simp only [BundleRecord.bytes, valueFieldBytes, toUInt64_toNat hseq, append_assoc]
    rfl
  | true =>
    replace h := (reads_if reads_hash).bind.mp h
    obtain ⟨_, r5, ⟨⟨hash, rfl, -⟩, rfl⟩, h⟩ := h
    replace h := (reads_if reads_lenBytes).bind.mp h
    obtain ⟨_, r6, ⟨⟨value, rfl, hvalue⟩, rfl⟩, h⟩ := h
    replace h := reads_lenBytes.bind.mp h
    obtain ⟨extension, r7, ⟨hext, rfl⟩, h⟩ := h
    cases h
    refine ⟨⟨⟨le_u32 hcanonical, ?_, le_u32 hext⟩, by rintro ⟨⟩⟩, ?_⟩
    · rintro _ ⟨⟩
      exact ⟨rfl, le_u32 hvalue⟩
    · simp only [BundleRecord.bytes, valueFieldBytes, toUInt64_toNat hseq, append_assoc]
      rfl

theorem reads_record :
    Reads decodeRecord BundleRecord.bytes (fun record => record.Fits ∧ record.Paired) := by
  intro bytes record rest
  constructor
  · exact decodeRecord_ok
  · rintro ⟨⟨hfits, hpaired⟩, rfl⟩
    exact decodeRecord_append hfits hpaired rest

theorem decodeProof_ok {proof : InclusionProof} (h : decodeProof bytes = .ok (proof, rest)) :
    proof.Fits ∧ bytes = proof.bytes ++ rest := by
  replace h := (reads_uint 8).bind.mp h
  obtain ⟨seq, r1, ⟨hseq, rfl⟩, h⟩ := h
  replace h := reads_hash.bind.mp h
  obtain ⟨leafHash, r2, ⟨-, rfl⟩, h⟩ := h
  replace h := reads_hash.bind.mp h
  obtain ⟨checkpointHash, r3, ⟨-, rfl⟩, h⟩ := h
  replace h := reads_lenBytes.bind.mp h
  obtain ⟨path, r4, ⟨hpath, rfl⟩, h⟩ := h
  replace h := reads_lenBytes.bind.mp h
  obtain ⟨extension, r5, ⟨hext, rfl⟩, h⟩ := h
  cases h
  refine ⟨⟨le_u32 hpath, le_u32 hext⟩, ?_⟩
  simp only [InclusionProof.bytes, toUInt64_toNat hseq, append_assoc]

theorem reads_proof : Reads decodeProof InclusionProof.bytes InclusionProof.Fits := by
  intro bytes proof rest
  constructor
  · exact decodeProof_ok
  · rintro ⟨hfits, rfl⟩
    exact decodeProof_append hfits rest

theorem decodeCheckpoint_ok {cp : CheckpointRecord} (h : decodeCheckpoint bytes = .ok (cp, rest)) :
    CheckpointFits cp ∧ bytes = checkpointBytes cp ++ rest := by
  replace h := (reads_uint 1).bind.mp h
  obtain ⟨version, r1, ⟨-, rfl⟩, h⟩ := h
  replace h := reads_lenBytes.bind.mp h
  obtain ⟨logId, r2, ⟨hlogId, rfl⟩, h⟩ := h
  replace h := (reads_uint 8).bind.mp h
  obtain ⟨fromSeq, r3, ⟨hfrom, rfl⟩, h⟩ := h
  replace h := (reads_uint 8).bind.mp h
  obtain ⟨toSeq, r4, ⟨hto, rfl⟩, h⟩ := h
  replace h := (reads_uint 1).bind.mp h
  obtain ⟨rawKind, r5, ⟨-, rfl⟩, h⟩ := h
  replace h := bind_ok h
  obtain ⟨kind, hkind, h⟩ := h
  obtain rfl := Checkpoint.AccumulatorKind.ofInt_ok_iff.mp hkind
  replace h := reads_hash.bind.mp h
  obtain ⟨root, r6, ⟨-, rfl⟩, h⟩ := h
  replace h := optionalHash_ok h
  obtain ⟨previous, r7, rfl, h⟩ := h
  replace h := reads_lenBytes.bind.mp h
  obtain ⟨creator, r8, ⟨hcreator, rfl⟩, h⟩ := h
  replace h := (reads_uint 1).bind.mp h
  obtain ⟨rawScheme, r9, ⟨-, rfl⟩, h⟩ := h
  replace h := bind_ok h
  obtain ⟨scheme, hscheme, h⟩ := h
  obtain rfl := Checkpoint.SignatureScheme.ofInt_ok_iff.mp hscheme
  replace h := reads_fixedSignature.bind.mp h
  obtain ⟨signature, r10, ⟨-, rfl⟩, h⟩ := h
  replace h := (reads_uint 8).bind.mp h
  obtain ⟨created, r11, ⟨hcreated, rfl⟩, h⟩ := h
  replace h := (reads_uint 8).bind.mp h
  obtain ⟨ingested, r12, ⟨hingested, rfl⟩, h⟩ := h
  replace h := reads_lenBytes.bind.mp h
  obtain ⟨extension, r13, ⟨hext, rfl⟩, h⟩ := h
  cases h
  refine ⟨⟨le_u32 hlogId, le_u32 hcreator, le_u32 hext⟩, ?_⟩
  rw [checkpointBytes, toUInt64_toNat hfrom, toUInt64_toNat hto, toUInt64_toNat hcreated,
    toUInt64_toNat hingested, beBytes_toNat, beBytes_toNat, beBytes_one]
  simp only [append_assoc]

theorem reads_checkpoint : Reads decodeCheckpoint checkpointBytes CheckpointFits := by
  intro bytes cp rest
  constructor
  · exact decodeCheckpoint_ok
  · rintro ⟨hfits, rfl⟩
    exact decodeCheckpoint_append hfits rest

theorem decodeItems_ok {decodeItem : Bytes → Except Error (α × Bytes)}
    (hitem : Reads decodeItem encode P) {k m : Nat} {items : List α}
    (h : decodeItems k m decodeItem bytes = .ok (items, rest)) :
    items.length ≤ maxU32 ∧ (∀ x ∈ items, P x) ∧ bytes = itemsBytes encode items ++ rest := by
  replace h := (reads_uint 4).bind.mp h
  obtain ⟨count, r1, ⟨hcount, rfl⟩, h⟩ := h
  replace h := check_ok h
  obtain ⟨⟨rfl, hall⟩, rfl⟩ := (reads_items hitem count r1 items rest).mp h
  refine ⟨le_u32 hcount, hall, ?_⟩
  rw [itemsBytes, append_assoc]

variable {bundle : ProofBundle}

/-- **What decodes is what the encoder makes of it**, and no hash in it lacks its value. -/
theorem encode_of_decode (h : decodeCanonical bytes = .ok bundle) :
    encodeCanonical bundle = .ok bytes ∧ ∀ record ∈ bundle.records, record.Paired := by
  replace h := (reads_bytes _).bind.mp h
  obtain ⟨magic, r1, ⟨-, rfl⟩, h⟩ := h
  replace h := guard_ok_iff.mp h
  obtain ⟨hmagic, h⟩ := h
  replace h := (reads_uint 2).bind.mp h
  obtain ⟨codec, r2, ⟨-, rfl⟩, h⟩ := h
  replace h := guard_ok_iff.mp h
  obtain ⟨hcodec, h⟩ := h
  replace h := (reads_uint 1).bind.mp h
  obtain ⟨version, r3, ⟨-, rfl⟩, h⟩ := h
  replace h := (reads_uint 1).bind.mp h
  obtain ⟨rawKind, r4, ⟨-, rfl⟩, h⟩ := h
  replace h := bind_ok h
  obtain ⟨kind, hkind, h⟩ := h
  obtain rfl := decodeBundleKind_ok_iff.mp hkind
  replace h := reads_lenBytes.bind.mp h
  obtain ⟨logId, r5, ⟨hlogId, rfl⟩, h⟩ := h
  replace h := reads_lenBytes.bind.mp h
  obtain ⟨extension, r6, ⟨hext, rfl⟩, h⟩ := h
  replace h := bind_ok h
  obtain ⟨⟨records, r7⟩, hrecords, h⟩ := h
  obtain ⟨hrc, hrecord, rfl⟩ := decodeItems_ok reads_record hrecords
  replace h := bind_ok h
  obtain ⟨⟨proofs, r8⟩, hproofs, h⟩ := h
  obtain ⟨hpc, hproof, rfl⟩ := decodeItems_ok reads_proof hproofs
  replace h := bind_ok h
  obtain ⟨⟨checkpoints, r9⟩, hcheckpoints, h⟩ := h
  obtain ⟨hcc, hcheckpoint, rfl⟩ := decodeItems_ok reads_checkpoint hcheckpoints
  replace h := guard_ok_iff.mp h
  obtain ⟨hend, h⟩ := h
  replace h := bind_ok h
  obtain ⟨_, hshape, h⟩ := h
  cases h
  obtain rfl := length_eq_zero_iff.mp (not_not.mp hend)
  refine ⟨encodeCanonical_ok_iff.mpr ⟨hshape, ?_, ?_⟩, fun record hr => (hrecord record hr).2⟩
  · exact ⟨le_u32 hlogId, le_u32 hext, hrc, fun record hr => (hrecord record hr).1, hpc, hproof,
      hcc, hcheckpoint⟩
  · rw [ProofBundle.bytes, not_not.mp hmagic, not_not.mp hcodec, beBytes_toNat, beBytes_one]
    simp only [append_assoc, append_nil]

/-! ## What a round trip keeps -/

/-- The record as the format carries it: no hash without its value. -/
def BundleRecord.carried (record : BundleRecord) : BundleRecord :=
  match record.valueBytes with
  | none => { record with valueHash := none }
  | some _ => record

def ProofBundle.carried (bundle : ProofBundle) : ProofBundle :=
  { bundle with records := bundle.records.map BundleRecord.carried }

theorem BundleRecord.carried_seq (record : BundleRecord) : record.carried.seq = record.seq := by
  rw [BundleRecord.carried]
  split <;> rfl

theorem BundleRecord.carried_bytes (record : BundleRecord) :
    record.carried.bytes = record.bytes := by
  rw [BundleRecord.carried]
  split
  · rename_i hvalue
    rw [BundleRecord.bytes, BundleRecord.bytes, hvalue]
    rfl
  · rfl

theorem BundleRecord.carried_paired (record : BundleRecord) : record.carried.Paired := by
  rw [BundleRecord.carried]
  split
  · exact fun _ => rfl
  · rename_i value hvalue
    intro hnone
    cases hvalue.symm.trans hnone

theorem BundleRecord.Fits.carried {record : BundleRecord} (h : record.Fits) :
    record.carried.Fits := by
  rw [BundleRecord.carried]
  split
  · rename_i hvalue
    refine ⟨h.canonical, ?_, h.extension⟩
    intro value hmem
    cases hvalue.symm.trans hmem
  · exact h

theorem BundleRecord.carried_eq_iff (record : BundleRecord) :
    record.carried = record ↔ record.Paired := by
  constructor
  · intro h
    rw [← h]
    exact record.carried_paired
  · intro h
    rw [BundleRecord.carried]
    split
    · rename_i hvalue
      obtain ⟨seq, canonical, hash, valueBytes, valueHash, extension⟩ := record
      rw [show valueHash = none from h hvalue]
    · rfl

theorem ProofBundle.carried_eq_iff (bundle : ProofBundle) :
    bundle.carried = bundle ↔ ∀ record ∈ bundle.records, record.Paired := by
  have hrecords : bundle.carried = bundle ↔
      bundle.records.map BundleRecord.carried = bundle.records := by
    constructor
    · intro h
      exact congrArg ProofBundle.records h
    · intro h
      rw [ProofBundle.carried, h]
  calc bundle.carried = bundle
      ↔ bundle.records.map BundleRecord.carried = bundle.records.map id := by
        rw [hrecords, map_id]
    _ ↔ ∀ record ∈ bundle.records, record.carried = record := map_inj_left
    _ ↔ ∀ record ∈ bundle.records, record.Paired :=
        forall₂_congr (fun record _ => record.carried_eq_iff)

theorem contiguousFrom_carried (expected : UInt64) (records : List BundleRecord) :
    contiguousFrom expected (records.map BundleRecord.carried) = contiguousFrom expected records := by
  induction records generalizing expected with
  | nil => rfl
  | cons record records ih =>
    rw [map_cons, contiguousFrom, contiguousFrom, record.carried_seq, length_map, ih]

theorem ProofBundle.validateShape_carried (bundle : ProofBundle) :
    bundle.carried.validateShape = bundle.validateShape := by
  have hrange : validateContiguousRange bundle.carried.records =
      validateContiguousRange bundle.records := by
    rw [ProofBundle.carried]
    dsimp only
    cases bundle.records with
    | nil => rfl
    | cons record records =>
      rw [map_cons, validateContiguousRange, validateContiguousRange, record.carried_seq,
        ← map_cons, contiguousFrom_carried]
  have hlen : bundle.carried.records.length = bundle.records.length := length_map ..
  rw [ProofBundle.validateShape, ProofBundle.validateShape, hrange, hlen]
  rfl

theorem encodeCanonical_carried
    (h : encodeCanonical bundle = .ok bytes) : encodeCanonical bundle.carried = .ok bytes := by
  obtain ⟨hshape, hfits, rfl⟩ := encodeCanonical_ok_iff.mp h
  refine encodeCanonical_ok_iff.mpr ⟨bundle.validateShape_carried.trans hshape, ?_, ?_⟩
  · refine { hfits with recordCount := ?_, records := ?_ }
    · exact (length_map ..).symm ▸ hfits.recordCount
    · intro record hmem
      obtain ⟨original, horiginal, rfl⟩ := mem_map.mp hmem
      exact (hfits.records original horiginal).carried
  · have hitems : itemsBytes BundleRecord.bytes (bundle.records.map BundleRecord.carried) =
        itemsBytes BundleRecord.bytes bundle.records := by
      rw [itemsBytes, itemsBytes, length_map, flatMap_map]
      congr 2
      funext record
      exact record.carried_bytes
    rw [ProofBundle.bytes, ProofBundle.bytes, ProofBundle.carried, hitems]

/-- **What the encoder makes decodes to what the format carries.** -/
theorem decode_of_encode
    (h : encodeCanonical bundle = .ok bytes) : decodeCanonical bytes = .ok bundle.carried := by
  refine decode_encode (encodeCanonical_carried h) ?_
  intro record hmem
  obtain ⟨original, -, rfl⟩ := mem_map.mp hmem
  exact original.carried_paired

/-! ## What the decoder allocates -/

open Recorder (Records record)

/-- A list the decoder allocates, and the bytes an item of it takes at least. -/
structure ListAlloc where
  count : Nat
  itemBytes : Nat

abbrev Recording := Recorder.RecordM ListAlloc Error

/-- The bytes are copied. -/
def readLenBytesAlloc (bytes : Bytes) : Recording (Bytes × Bytes) := do
  let (len, rest) ← readUInt invalid 4 bytes
  let (b, rest) ← readBytes invalid len rest
  record ⟨len, 1⟩
  return (b, rest)

def readIfRecording {α : Type} (present : Bool) (read : Bytes → Recording (α × Bytes))
    (bytes : Bytes) : Recording (Option α × Bytes) :=
  if present then do
    let (value, rest) ← read bytes
    return (some value, rest)
  else return (none, bytes)

def decodeRecordRecording (bytes : Bytes) : Recording (BundleRecord × Bytes) := do
  let (seq, rest) ← readUInt invalid 8 bytes
  let (recordHash, rest) ← readHash invalid rest
  let (canonicalRecordBytes, rest) ← readLenBytesAlloc rest
  let (hasValue, rest) ← readBool rest
  let (valueHash, rest) ← readIf hasValue (readHash invalid) rest
  let (valueBytes, rest) ← readIfRecording hasValue readLenBytesAlloc rest
  let (extensionBytes, rest) ← readLenBytesAlloc rest
  return (⟨seq.toUInt64, canonicalRecordBytes, recordHash, valueBytes, valueHash, extensionBytes⟩,
    rest)

def decodeProofRecording (bytes : Bytes) : Recording (InclusionProof × Bytes) := do
  let (seq, rest) ← readUInt invalid 8 bytes
  let (leafHash, rest) ← readHash invalid rest
  let (checkpointHash, rest) ← readHash invalid rest
  let (pathBytes, rest) ← readLenBytesAlloc rest
  let (extensionBytes, rest) ← readLenBytesAlloc rest
  return (⟨seq.toUInt64, leafHash, checkpointHash, pathBytes, extensionBytes⟩, rest)

def decodeCheckpointRecording (bytes : Bytes) : Recording (CheckpointRecord × Bytes) := do
  let (version, rest) ← readUInt invalid 1 bytes
  let (logId, rest) ← readLenBytesAlloc rest
  let (fromSeq, rest) ← readUInt invalid 8 rest
  let (toSeq, rest) ← readUInt invalid 8 rest
  let (rawKind, rest) ← readUInt invalid 1 rest
  let accumulatorKind ← decodeAccumulatorKind rawKind
  let (accumulatorRoot, rest) ← readHash invalid rest
  let (hasPrevious, rest) ← readBool rest
  let (previousCheckpointHash, rest) ← readIf hasPrevious (readHash invalid) rest
  let (creatorIdentity, rest) ← readLenBytesAlloc rest
  let (rawScheme, rest) ← readUInt invalid 1 rest
  let signatureScheme ← decodeSignatureScheme rawScheme
  let (signature, rest) ← readSignature rest
  let (createdAtMs, rest) ← readUInt invalid 8 rest
  let (ingestedAtMs, rest) ← readUInt invalid 8 rest
  let (extensionBytes, rest) ← readLenBytesAlloc rest
  return (⟨version.toUInt8, logId, fromSeq.toUInt64, toSeq.toUInt64, accumulatorKind,
    accumulatorRoot, previousCheckpointHash, creatorIdentity, signatureScheme, signature,
    createdAtMs.toUInt64, ingestedAtMs.toUInt64, extensionBytes⟩, rest)

def readItemsRecording {α : Type} (readItem : Bytes → Recording (α × Bytes)) :
    Nat → Bytes → Recording (List α × Bytes)
  | 0, bytes => return ([], bytes)
  | count + 1, bytes => do
      let (item, rest) ← readItem bytes
      let (items, rest) ← readItemsRecording readItem count rest
      return (item :: items, rest)

/-- The list is allocated before its first item is read. -/
def decodeItemsRecording {α : Type} (minItemBytes minTrailing : Nat)
    (decodeItem : Bytes → Recording (α × Bytes)) (bytes : Bytes) :
    Recording (List α × Bytes) := do
  let (count, rest) ← readUInt invalid 4 bytes
  ensureRemainingItems rest count minItemBytes minTrailing
  record ⟨count, minItemBytes⟩
  readItemsRecording decodeItem count rest

def decodeCanonicalRecording (bytes : Bytes) : Recording ProofBundle := do
  let (magic, rest) ← readBytes invalid bundleMagic.length bytes
  if magic ≠ bundleMagic then throw invalid
  let (codecVersion, rest) ← readUInt invalid 2 rest
  if codecVersion ≠ bundleCodecVersion then throw Error.unsupportedProofBundleCodecVersion
  let (version, rest) ← readUInt invalid 1 rest
  let (rawKind, rest) ← readUInt invalid 1 rest
  let kind ← decodeBundleKind rawKind
  let (logId, rest) ← readLenBytesAlloc rest
  let (extensionBytes, rest) ← readLenBytesAlloc rest
  let (records, rest) ← decodeItemsRecording minRecordBytes 4 decodeRecordRecording rest
  let (inclusionProofs, rest) ← decodeItemsRecording minProofBytes 4 decodeProofRecording rest
  let (checkpoints, rest) ← decodeItemsRecording minCheckpointBytes 0 decodeCheckpointRecording rest
  if rest.length ≠ 0 then throw invalid
  let bundle : ProofBundle := ⟨version.toUInt8, kind, logId, records, inclusionProofs, checkpoints,
    extensionBytes⟩
  bundle.validateShape
  return bundle

/-- The input of `total` bytes could hold the list. -/
def Holds (total : Nat) (list : ListAlloc) : Prop := list.count * list.itemBytes ≤ total

/-- A reader of at most `total` bytes allocates nothing longer, and hands on no more. -/
def Bounded {α : Type} (total : Nat) (x : Recording (α × Bytes)) (y : Except Error (α × Bytes)) :
    Prop :=
  Records (Holds total) (fun r => r.2.length ≤ total) x y

section
variable {total : Nat} {bytes : Bytes}

theorem bounded_suffix (hbytes : bytes.length ≤ total) {y : Except Error (α × Bytes)}
    (hsuffix : ∀ a rest, y = .ok (a, rest) → rest <:+ bytes) :
    Bounded total (liftM y : Recording (α × Bytes)) y := by
  refine .lift ?_
  rintro ⟨a, rest⟩ h
  exact le_trans (hsuffix a rest h).length_le hbytes

theorem bounded_uint (hbytes : bytes.length ≤ total) (width : Nat) :
    Bounded total (liftM (readUInt invalid width bytes) : Recording _)
      (readUInt invalid width bytes) :=
  bounded_suffix hbytes (fun _ _ => readUInt_suffix)

/-- What is read before the rest is a front part of the bytes. -/
theorem bounded_reads {read : Bytes → Except Error (α × Bytes)} (h : Reads read encode P)
    (hbytes : bytes.length ≤ total) :
    Bounded total (liftM (read bytes) : Recording _) (read bytes) := by
  refine bounded_suffix hbytes (fun a rest hread => ?_)
  obtain ⟨-, rfl⟩ := (h _ _ _).mp hread
  exact suffix_append _ _

section
variable (hbytes : bytes.length ≤ total)
include hbytes

theorem bounded_if_hash (present : Bool) :
    Bounded total (liftM (readIf present (readHash invalid) bytes) : Recording _)
      (readIf present (readHash invalid) bytes) := by
  cases present with
  | false =>
    refine bounded_suffix hbytes (fun a rest h => ?_)
    rw [readIf_none] at h
    cases h
    exact suffix_refl bytes
  | true => exact bounded_reads (reads_if reads_hash) hbytes

theorem bounded_lenBytes : Bounded total (readLenBytesAlloc bytes) (readLenBytes bytes) := by
  refine (bounded_uint hbytes 4).bind ?_
  rintro ⟨len, rest⟩ hrest
  dsimp only at hrest
  have hread : Records (Holds total) (fun r => r.1.length = len ∧ r.1.length + r.2.length ≤ total)
      (liftM (readBytes invalid len rest) : Recording _) (readBytes invalid len rest) := by
    refine .lift ?_
    rintro ⟨b, rest'⟩ h
    obtain ⟨rfl, hlen⟩ := readBytes_ok h
    rw [length_append] at hrest
    exact ⟨hlen, hrest⟩
  have hcopy : Bounded total (do
      let (b, rest) ← (liftM (readBytes invalid len rest) : Recording _)
      record ⟨len, 1⟩
      return (b, rest)) (readBytes invalid len rest >>= pure) := by
    refine hread.bind ?_
    rintro ⟨b, rest'⟩ ⟨rfl, hfit⟩
    refine .record_bind ?_ (.pure ?_)
    · rw [Holds, mul_one]
      exact le_trans (Nat.le_add_right _ _) hfit
    · exact le_trans (Nat.le_add_left _ _) hfit
  rwa [bind_pure] at hcopy

theorem bounded_if_lenBytes (present : Bool) :
    Bounded total (readIfRecording present readLenBytesAlloc bytes)
      (readIf present readLenBytes bytes) := by
  refine .ite (fun _ => ?_) (fun _ => .pure hbytes)
  refine (bounded_lenBytes hbytes).bind ?_
  rintro ⟨value, rest⟩ hrest
  exact .pure hrest

theorem decodeRecordRecording_bounded :
    Bounded total (decodeRecordRecording bytes) (decodeRecord bytes) := by
  refine (bounded_uint hbytes 8).bind ?_
  rintro ⟨seq, rest⟩ hrest
  refine (bounded_reads reads_hash hrest).bind ?_
  rintro ⟨recordHash, rest⟩ hrest
  refine (bounded_lenBytes hrest).bind ?_
  rintro ⟨canonical, rest⟩ hrest
  refine (bounded_reads reads_bool hrest).bind ?_
  rintro ⟨hasValue, rest⟩ hrest
  refine (bounded_if_hash hrest hasValue).bind ?_
  rintro ⟨valueHash, rest⟩ hrest
  refine (bounded_if_lenBytes hrest hasValue).bind ?_
  rintro ⟨valueBytes, rest⟩ hrest
  refine (bounded_lenBytes hrest).bind ?_
  rintro ⟨extension, rest⟩ hrest
  exact .pure hrest

theorem decodeProofRecording_bounded :
    Bounded total (decodeProofRecording bytes) (decodeProof bytes) := by
  refine (bounded_uint hbytes 8).bind ?_
  rintro ⟨seq, rest⟩ hrest
  refine (bounded_reads reads_hash hrest).bind ?_
  rintro ⟨leafHash, rest⟩ hrest
  refine (bounded_reads reads_hash hrest).bind ?_
  rintro ⟨checkpointHash, rest⟩ hrest
  refine (bounded_lenBytes hrest).bind ?_
  rintro ⟨path, rest⟩ hrest
  refine (bounded_lenBytes hrest).bind ?_
  rintro ⟨extension, rest⟩ hrest
  exact .pure hrest

theorem decodeCheckpointRecording_bounded :
    Bounded total (decodeCheckpointRecording bytes) (decodeCheckpoint bytes) := by
  refine (bounded_uint hbytes 1).bind ?_
  rintro ⟨version, rest⟩ hrest
  refine (bounded_lenBytes hrest).bind ?_
  rintro ⟨logId, rest⟩ hrest
  refine (bounded_uint hrest 8).bind ?_
  rintro ⟨fromSeq, rest⟩ hrest
  refine (bounded_uint hrest 8).bind ?_
  rintro ⟨toSeq, rest⟩ hrest
  refine (bounded_uint hrest 1).bind ?_
  rintro ⟨rawKind, rest⟩ hrest
  refine (Records.lift (fun _ _ => trivial)).bind (fun kind _ => ?_)
  refine (bounded_reads reads_hash hrest).bind ?_
  rintro ⟨root, rest⟩ hrest
  refine (bounded_reads reads_bool hrest).bind ?_
  rintro ⟨hasPrevious, rest⟩ hrest
  refine (bounded_if_hash hrest hasPrevious).bind ?_
  rintro ⟨previous, rest⟩ hrest
  refine (bounded_lenBytes hrest).bind ?_
  rintro ⟨creator, rest⟩ hrest
  refine (bounded_uint hrest 1).bind ?_
  rintro ⟨rawScheme, rest⟩ hrest
  refine (Records.lift (fun _ _ => trivial)).bind (fun scheme _ => ?_)
  refine (bounded_reads reads_fixedSignature hrest).bind ?_
  rintro ⟨signature, rest⟩ hrest
  refine (bounded_uint hrest 8).bind ?_
  rintro ⟨created, rest⟩ hrest
  refine (bounded_uint hrest 8).bind ?_
  rintro ⟨ingested, rest⟩ hrest
  refine (bounded_lenBytes hrest).bind ?_
  rintro ⟨extension, rest⟩ hrest
  exact .pure hrest

end

variable {modelItem : Bytes → Except Error (α × Bytes)}

theorem readItemsRecording_bounded {readItem : Bytes → Recording (α × Bytes)}
    (hitem : ∀ {bytes : Bytes}, bytes.length ≤ total →
      Bounded total (readItem bytes) (modelItem bytes)) (count : Nat)
    (hbytes : bytes.length ≤ total) : Bounded total (readItemsRecording readItem count bytes)
      (readItems modelItem count bytes) := by
  induction count generalizing bytes with
  | zero => exact .pure hbytes
  | succ count ih =>
    refine (hitem hbytes).bind ?_
    rintro ⟨item, rest⟩ hrest
    refine (ih hrest).bind ?_
    rintro ⟨items, rest⟩ hrest
    exact .pure hrest

/-- **The guard before the list.**  Its items have room in what is left of the input. -/
theorem decodeItemsRecording_bounded {decodeItem : Bytes → Recording (α × Bytes)}
    (hitem : ∀ {bytes : Bytes}, bytes.length ≤ total →
      Bounded total (decodeItem bytes) (modelItem bytes)) (k m : Nat)
    (hbytes : bytes.length ≤ total) : Bounded total (decodeItemsRecording k m decodeItem bytes)
      (decodeItems k m modelItem bytes) := by
  refine (bounded_uint hbytes 4).bind ?_
  rintro ⟨count, rest⟩ hrest
  have hroom : Records (Holds total) (fun _ => count * k + m ≤ rest.length)
      (liftM (ensureRemainingItems rest count k m) : Recording Unit)
      (ensureRemainingItems rest count k m) := by
    refine .lift ?_
    intro _ h
    rw [ensureRemainingItems] at h
    split at h
    · cases h
    · rename_i hroom
      exact Nat.not_lt.mp hroom
  refine hroom.bind (fun _ hfit => ?_)
  refine .record_bind ?_ (readItemsRecording_bounded hitem count hrest)
  exact le_trans (Nat.le_of_add_right_le hfit) hrest

end

/-- **The decoder allocates no list longer than its input could hold**, and otherwise does
what the plain decoder does. -/
theorem decodeCanonicalRecording_records (bytes : Bytes) :
    Records (Holds bytes.length) (fun _ => True) (decodeCanonicalRecording bytes)
      (decodeCanonical bytes) := by
  refine (bounded_reads (reads_bytes _) (le_refl _)).bind ?_
  rintro ⟨magic, rest⟩ hrest
  refine .ite (fun _ => .error _) (fun _ => ?_)
  refine (bounded_uint hrest 2).bind ?_
  rintro ⟨codecVersion, rest⟩ hrest
  refine .ite (fun _ => .error _) (fun _ => ?_)
  refine (bounded_uint hrest 1).bind ?_
  rintro ⟨version, rest⟩ hrest
  refine (bounded_uint hrest 1).bind ?_
  rintro ⟨rawKind, rest⟩ hrest
  refine (Records.lift (fun _ _ => trivial)).bind (fun kind _ => ?_)
  refine (bounded_lenBytes hrest).bind ?_
  rintro ⟨logId, rest⟩ hrest
  refine (bounded_lenBytes hrest).bind ?_
  rintro ⟨extension, rest⟩ hrest
  refine (decodeItemsRecording_bounded decodeRecordRecording_bounded _ _ hrest).bind ?_
  rintro ⟨records, rest⟩ hrest
  refine (decodeItemsRecording_bounded decodeProofRecording_bounded _ _ hrest).bind ?_
  rintro ⟨proofs, rest⟩ hrest
  refine (decodeItemsRecording_bounded decodeCheckpointRecording_bounded _ _ hrest).bind ?_
  rintro ⟨checkpoints, rest⟩ hrest
  refine .ite (fun _ => .error _) (fun _ => ?_)
  refine (Records.lift (fun _ _ => trivial)).bind (fun _ _ => ?_)
  exact .pure trivial

/-! ## The format as a whole -/

/-- **The bundle codec.**  An encoded bundle decodes to itself exactly when no record has a
hash without a value, and otherwise to the bundle without these hashes; decoded bytes are
the encoding of the bundle; and no list is allocated that the input could not hold. -/
theorem bundle_codec (bundle : ProofBundle) (bytes : Bytes) :
    (encodeCanonical bundle = .ok bytes →
      decodeCanonical bytes = .ok bundle.carried ∧
        (decodeCanonical bytes = .ok bundle ↔
          ∀ record ∈ bundle.records, record.valueBytes = none → record.valueHash = none)) ∧
    (decodeCanonical bytes = .ok bundle → encodeCanonical bundle = .ok bytes) ∧
    ∃ lists, (decodeCanonicalRecording bytes).run.run [] = (decodeCanonical bytes, lists) ∧
      ∀ list ∈ lists, list.count * list.itemBytes ≤ bytes.length := by
  refine ⟨fun h => ?_, fun h => (encode_of_decode h).1, ?_⟩
  · have hdecode := decode_of_encode h
    refine ⟨hdecode, ?_⟩
    rw [hdecode, Except.ok.injEq]
    exact bundle.carried_eq_iff
  · obtain ⟨lists, hrun, hlists⟩ := (decodeCanonicalRecording_records bytes).run []
    exact ⟨lists, hrun, hlists⟩

/-- A bundle of one record that has the hash of its value and not the value. -/
def loneHashBundle : ProofBundle :=
  ⟨Checkpoint.version, .singleEvent, ascii "l",
    [⟨1, [], AppendLog.zeroHash, none, some AppendLog.zeroHash, []⟩],
    [⟨1, AppendLog.zeroHash, AppendLog.zeroHash, [], []⟩],
    [⟨Checkpoint.version, ascii "l", 1, 1, .mmrSha256V1, AppendLog.zeroHash, none, [], .ed25519,
      zeroSignature, 0, 0, []⟩], []⟩

/-- It is encoded, and comes back without the hash. -/
theorem loneHashBundle_changes : ∃ bytes, encodeCanonical loneHashBundle = .ok bytes ∧
    decodeCanonical bytes ≠ .ok loneHashBundle := by
  have hencode : encodeCanonical loneHashBundle = .ok loneHashBundle.bytes := by rfl
  refine ⟨loneHashBundle.bytes, hencode, ?_⟩
  rw [decode_of_encode hencode]
  intro h
  exact absurd (Except.ok.inj h) (by decide)

end Bundle
end WormDB
