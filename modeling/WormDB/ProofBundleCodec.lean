import WormDB.ProofBundle

/-! # Proof bundles as bytes

The encoder accepts the bundles whose shape is right and whose lengths fit their
fields (`encodeCanonical_ok_iff`), and decoding gives such a bundle back
(`decode_encode`).  A value's hash travels with the value: a bundle that has a hash
without the value does not come back. -/
namespace WormDB
open List ByteCodec ByteReader
namespace Bundle
open Checkpoint (CheckpointRecord lenBytes optionalHash)

/-! ## What is encoded, and when -/

variable {out : Bytes}

theorem appendLenBytes_ok_iff {bytes : Bytes} :
    appendLenBytes bytes = .ok out ↔ bytes.length ≤ maxU32 ∧ out = lenBytes bytes := by
  rw [appendLenBytes]
  split
  · rename_i h
    simp [Nat.not_le.mpr h]
  · rename_i h
    simp [Nat.not_lt.mp h, eq_comm]

variable {α : Type} {f : α → Except Error Bytes} {P : α → Prop} {g : α → Bytes}

theorem mapM_ok_iff
    (h : ∀ x out, f x = .ok out ↔ P x ∧ out = g x) (xs : List α) (outs : List Bytes) :
    xs.mapM f = .ok outs ↔ (∀ x ∈ xs, P x) ∧ outs = xs.map g := by
  induction xs generalizing outs with
  | nil => simp [pure, Except.pure, eq_comm]
  | cons x xs ih =>
    rw [mapM_cons, bind_ok_iff]
    constructor
    · rintro ⟨out, hx, hrest⟩
      obtain ⟨outs', hxs, hpure⟩ := bind_ok hrest
      cases hpure
      obtain ⟨hPx, rfl⟩ := (h x out).mp hx
      obtain ⟨hPxs, rfl⟩ := (ih outs').mp hxs
      refine ⟨fun y hy => ?_, rfl⟩
      rcases mem_cons.mp hy with rfl | hy
      · exact hPx
      · exact hPxs y hy
    · rintro ⟨hP, rfl⟩
      refine ⟨g x, (h x _).mpr ⟨hP x mem_cons_self, rfl⟩, ?_⟩
      rw [(ih _).mpr ⟨fun y hy => hP y (mem_cons_of_mem x hy), rfl⟩]
      rfl

/-- The count and the items one after the other. -/
def itemsBytes {α : Type} (itemBytes : α → Bytes) (items : List α) : Bytes :=
  beBytes 4 items.length ++ items.flatMap itemBytes

theorem encodeItems_ok_iff (h : ∀ x out, f x = .ok out ↔ P x ∧ out = g x) {items : List α} :
    encodeItems f items = .ok out ↔
      items.length ≤ maxU32 ∧ (∀ x ∈ items, P x) ∧ out = itemsBytes g items := by
  rw [encodeItems, bind_ok_iff]
  constructor
  · rintro ⟨count, hcount, hrest⟩
    obtain ⟨encoded, hencoded, hpure⟩ := bind_ok hrest
    cases hpure
    obtain ⟨hP, rfl⟩ := (mapM_ok_iff h items encoded).mp hencoded
    rw [checkedU32] at hcount
    split at hcount
    · cases hcount
    rename_i hle
    cases hcount
    exact ⟨Nat.not_lt.mp hle, hP, rfl⟩
  · rintro ⟨hle, hP, rfl⟩
    refine ⟨items.length, if_neg (Nat.not_lt.mpr hle), ?_⟩
    rw [(mapM_ok_iff h items _).mpr ⟨hP, rfl⟩]
    rfl

def valueFieldBytes (valueBytes : Option Bytes) (valueHash : Option Hash) : Bytes :=
  match valueBytes, valueHash with
  | some value, some hash => 1 :: hash.bytes ++ lenBytes value
  | _, _ => [0]

/-- A value has its hash, and fits. -/
def ValueFits (valueBytes : Option Bytes) (valueHash : Option Hash) : Prop :=
  ∀ value ∈ valueBytes, valueHash.isSome = true ∧ value.length ≤ maxU32

theorem encodeValue_ok_iff {valueBytes : Option Bytes} {valueHash : Option Hash} :
    encodeValue valueBytes valueHash = .ok out ↔
      ValueFits valueBytes valueHash ∧ out = valueFieldBytes valueBytes valueHash := by
  cases valueBytes with
  | none =>
    constructor
    · rintro ⟨⟩
      exact ⟨by simp [ValueFits], rfl⟩
    · rintro ⟨-, rfl⟩
      rfl
  | some value =>
    cases valueHash with
    | none => simp [encodeValue, ValueFits]
    | some hash =>
      rw [encodeValue, bind_ok_iff]
      simp only [appendLenBytes_ok_iff]
      constructor
      · rintro ⟨_, ⟨hlen, rfl⟩, hpure⟩
        cases hpure
        refine ⟨fun v hv => ?_, rfl⟩
        cases hv
        exact ⟨rfl, hlen⟩
      · rintro ⟨hfits, rfl⟩
        exact ⟨_, ⟨(hfits value rfl).2, rfl⟩, rfl⟩

structure BundleRecord.Fits (record : BundleRecord) : Prop where
  canonical : record.canonicalRecordBytes.length ≤ maxU32
  value : ValueFits record.valueBytes record.valueHash
  extension : record.extensionBytes.length ≤ maxU32

def BundleRecord.bytes (record : BundleRecord) : Bytes :=
  beBytes 8 record.seq.toNat ++ record.recordHash.bytes ++ lenBytes record.canonicalRecordBytes ++
    valueFieldBytes record.valueBytes record.valueHash ++ lenBytes record.extensionBytes

theorem encodeRecord_ok_iff (record : BundleRecord) (out : Bytes) :
    encodeRecord record = .ok out ↔ record.Fits ∧ out = record.bytes := by
  simp only [encodeRecord, bind_ok_iff, appendLenBytes_ok_iff, encodeValue_ok_iff]
  constructor
  · rintro ⟨_, ⟨hcanonical, rfl⟩, _, ⟨hvalue, rfl⟩, _, ⟨hext, rfl⟩, hpure⟩
    cases hpure
    exact ⟨⟨hcanonical, hvalue, hext⟩, rfl⟩
  · rintro ⟨hfits, rfl⟩
    exact ⟨_, ⟨hfits.canonical, rfl⟩, _, ⟨hfits.value, rfl⟩, _, ⟨hfits.extension, rfl⟩, rfl⟩

structure InclusionProof.Fits (proof : InclusionProof) : Prop where
  path : proof.pathBytes.length ≤ maxU32
  extension : proof.extensionBytes.length ≤ maxU32

def InclusionProof.bytes (proof : InclusionProof) : Bytes :=
  beBytes 8 proof.seq.toNat ++ proof.leafHash.bytes ++ proof.checkpointHash.bytes ++
    lenBytes proof.pathBytes ++ lenBytes proof.extensionBytes

theorem encodeProof_ok_iff (proof : InclusionProof) (out : Bytes) :
    encodeProof proof = .ok out ↔ proof.Fits ∧ out = proof.bytes := by
  simp only [encodeProof, bind_ok_iff, appendLenBytes_ok_iff]
  constructor
  · rintro ⟨_, ⟨hpath, rfl⟩, _, ⟨hext, rfl⟩, hpure⟩
    cases hpure
    exact ⟨⟨hpath, hext⟩, rfl⟩
  · rintro ⟨hfits, rfl⟩
    exact ⟨_, ⟨hfits.path, rfl⟩, _, ⟨hfits.extension, rfl⟩, rfl⟩

structure CheckpointFits (cp : CheckpointRecord) : Prop where
  logId : cp.logId.length ≤ maxU32
  creator : cp.creatorIdentity.length ≤ maxU32
  extension : cp.extensionBytes.length ≤ maxU32

def checkpointBytes (cp : CheckpointRecord) : Bytes :=
  [cp.version] ++ lenBytes cp.logId ++ beBytes 8 cp.fromSeq.toNat ++ beBytes 8 cp.toSeq.toNat ++
    [cp.accumulatorKind.backingInt] ++ cp.accumulatorRoot.bytes ++
    optionalHash cp.previousCheckpointHash ++ lenBytes cp.creatorIdentity ++
    [cp.signatureScheme.backingInt] ++ cp.signature.bytes ++ beBytes 8 cp.createdAtMs.toNat ++
    beBytes 8 cp.ingestedAtMs.toNat ++ lenBytes cp.extensionBytes

theorem encodeCheckpoint_ok_iff (cp : CheckpointRecord) (out : Bytes) :
    encodeCheckpoint cp = .ok out ↔ CheckpointFits cp ∧ out = checkpointBytes cp := by
  simp only [encodeCheckpoint, bind_ok_iff, appendLenBytes_ok_iff]
  constructor
  · rintro ⟨_, ⟨hlog, rfl⟩, _, ⟨hcreator, rfl⟩, _, ⟨hext, rfl⟩, hpure⟩
    cases hpure
    exact ⟨⟨hlog, hcreator, hext⟩, rfl⟩
  · rintro ⟨hfits, rfl⟩
    exact ⟨_, ⟨hfits.logId, rfl⟩, _, ⟨hfits.creator, rfl⟩, _, ⟨hfits.extension, rfl⟩, rfl⟩

/-- Every length has a field to fit in. -/
structure ProofBundle.Fits (bundle : ProofBundle) : Prop where
  logId : bundle.logId.length ≤ maxU32
  extension : bundle.extensionBytes.length ≤ maxU32
  recordCount : bundle.records.length ≤ maxU32
  records : ∀ record ∈ bundle.records, record.Fits
  proofCount : bundle.inclusionProofs.length ≤ maxU32
  proofs : ∀ proof ∈ bundle.inclusionProofs, proof.Fits
  checkpointCount : bundle.checkpoints.length ≤ maxU32
  checkpoints : ∀ cp ∈ bundle.checkpoints, CheckpointFits cp

def ProofBundle.bytes (bundle : ProofBundle) : Bytes :=
  bundleMagic ++ beBytes 2 bundleCodecVersion ++ [bundle.version] ++ [bundle.kind.backingInt] ++
    lenBytes bundle.logId ++ lenBytes bundle.extensionBytes ++
    itemsBytes BundleRecord.bytes bundle.records ++
    itemsBytes InclusionProof.bytes bundle.inclusionProofs ++
    itemsBytes checkpointBytes bundle.checkpoints

variable {bundle : ProofBundle}

/-- **What can be encoded.** -/
theorem encodeCanonical_ok_iff : encodeCanonical bundle = .ok out ↔
      bundle.validateShape = .ok () ∧ bundle.Fits ∧ out = bundle.bytes := by
  simp only [encodeCanonical, bind_ok_iff, appendLenBytes_ok_iff,
    encodeItems_ok_iff encodeRecord_ok_iff, encodeItems_ok_iff encodeProof_ok_iff,
    encodeItems_ok_iff encodeCheckpoint_ok_iff]
  constructor
  · rintro ⟨_, hshape, _, ⟨hlog, rfl⟩, _, ⟨hext, rfl⟩, _, ⟨hrc, hr, rfl⟩, _, ⟨hpc, hp, rfl⟩,
      _, ⟨hcc, hc, rfl⟩, hpure⟩
    cases hpure
    exact ⟨hshape, ⟨hlog, hext, hrc, hr, hpc, hp, hcc, hc⟩, rfl⟩
  · rintro ⟨hshape, hfits, rfl⟩
    exact ⟨(), hshape, _, ⟨hfits.logId, rfl⟩, _, ⟨hfits.extension, rfl⟩, _,
      ⟨hfits.recordCount, hfits.records, rfl⟩, _, ⟨hfits.proofCount, hfits.proofs, rfl⟩, _,
      ⟨hfits.checkpointCount, hfits.checkpoints, rfl⟩, rfl⟩

/-! ## Reading back -/

theorem lt_u32 {n : Nat} (h : n ≤ maxU32) : n < 256 ^ 4 := by
  rw [maxU32] at h
  omega

theorem readLenBytes_append {xs : Bytes} (h : xs.length ≤ maxU32) (rest : Bytes) :
    readLenBytes (lenBytes xs ++ rest) = .ok (xs, rest) := by
  rw [lenBytes, append_assoc, readLenBytes, readLenPrefixed, readUInt_append _ (lt_u32 h),
    ok_bind]
  exact readBytes_append rest rfl

theorem readBool_cons (flag : Bool) (rest : Bytes) :
    readBool ((if flag then 1 else 0) :: rest) = .ok (flag, rest) := by
  rw [readBool, readByte_cons, ok_bind]
  cases flag <;> rfl

variable {rest : Bytes}

theorem readIf_some {read : Bytes → Except Error (α × Bytes)} {bytes : Bytes}
    {value : α} (h : read bytes = .ok (value, rest)) :
    readIf true read bytes = .ok (some value, rest) := by
  rw [readIf, if_pos rfl, h]
  rfl

theorem readIf_none (read : Bytes → Except Error (α × Bytes)) (bytes : Bytes) :
    readIf false read bytes = .ok (none, bytes) := rfl

/-- An optional hash is read by its presence byte. -/
theorem readOptionalHash_append {β : Type} (hash : Option Hash) (rest : Bytes)
    (f : Option Hash × Bytes → Except Error β) :
    (do
      let x ← readBool (optionalHash hash ++ rest)
      let y ← readIf x.1 (readHash invalid) x.2
      f y) = f (hash, rest) := by
  cases hash with
  | none =>
    rw [optionalHash, singleton_append,
      show (0 : UInt8) = if false then 1 else 0 from rfl, readBool_cons, ok_bind, readIf_none,
      ok_bind]
  | some hash =>
    rw [optionalHash, cons_append, show (1 : UInt8) = if true then 1 else 0 from rfl,
      readBool_cons, ok_bind, readIf_some (readHash_append _ hash rest), ok_bind]

theorem readSignature_append (sig : Signature) (rest : Bytes) :
    readSignature (sig.bytes ++ rest) = .ok (sig, rest) := by
  have hs := splitBytes_append rest sig.size_eq
  unfold readSignature readFixedSignature
  split <;> rename_i heq
  · cases hs.symm.trans heq
  · cases hs.symm.trans heq
    rfl

/-- A value is absent together with its hash. -/
def BundleRecord.Paired (record : BundleRecord) : Prop :=
  record.valueBytes = none → record.valueHash = none

theorem decodeRecord_append {record : BundleRecord} (hfits : record.Fits) (hpaired : record.Paired)
    (rest : Bytes) : decodeRecord (record.bytes ++ rest) = .ok (record, rest) := by
  obtain ⟨seq, canonical, recordHash, valueBytes, valueHash, extension⟩ := record
  simp only [BundleRecord.bytes, append_assoc, decodeRecord]
  rw [readUInt_append _ seq.toNat_lt, ok_bind]
  simp only []
  rw [readHash_append, ok_bind]
  simp only []
  rw [readLenBytes_append hfits.canonical, ok_bind]
  have hext := readLenBytes_append hfits.extension rest
  cases valueBytes with
  | none =>
    obtain rfl : valueHash = none := hpaired rfl
    simp only [valueFieldBytes, singleton_append]
    rw [show (0 : UInt8) = if false then 1 else 0 from rfl, readBool_cons, ok_bind]
    simp only [readIf_none, ok_bind]
    rw [hext, ok_bind]
    simp [pure, Except.pure]
  | some value =>
    obtain ⟨hsome, hlen⟩ := hfits.value value rfl
    obtain ⟨hash, rfl⟩ := Option.isSome_iff_exists.mp hsome
    simp only [valueFieldBytes, cons_append, append_assoc]
    rw [show (1 : UInt8) = if true then 1 else 0 from rfl, readBool_cons, ok_bind]
    simp only []
    rw [readIf_some (readHash_append _ _ _), ok_bind]
    simp only []
    rw [readIf_some (readLenBytes_append hlen _), ok_bind]
    simp only []
    rw [hext, ok_bind]
    simp [pure, Except.pure]

theorem decodeProof_append {proof : InclusionProof} (hfits : proof.Fits) (rest : Bytes) :
    decodeProof (proof.bytes ++ rest) = .ok (proof, rest) := by
  simp only [InclusionProof.bytes, append_assoc, decodeProof]
  rw [readUInt_append _ proof.seq.toNat_lt, ok_bind]
  simp only []
  rw [readHash_append, ok_bind]
  simp only []
  rw [readHash_append, ok_bind]
  simp only []
  rw [readLenBytes_append hfits.path, ok_bind]
  simp only []
  rw [readLenBytes_append hfits.extension, ok_bind]
  simp [pure, Except.pure]

theorem decodeCheckpoint_append {cp : CheckpointRecord} (hfits : CheckpointFits cp) (rest : Bytes) :
    decodeCheckpoint (checkpointBytes cp ++ rest) = .ok (cp, rest) := by
  obtain ⟨version, logId, fromSeq, toSeq, kind, root, previous, creator, scheme, signature, created,
    ingested, extension⟩ := cp
  simp only [checkpointBytes, append_assoc, cons_append, nil_append,
    decodeCheckpoint]
  rw [readByte_cons, ok_bind]
  simp only []
  rw [readLenBytes_append hfits.logId, ok_bind]
  simp only []
  rw [readUInt_append _ fromSeq.toNat_lt, ok_bind]
  simp only []
  rw [readUInt_append _ toSeq.toNat_lt, ok_bind]
  simp only []
  rw [readByte_cons, ok_bind]
  have hkind : decodeAccumulatorKind kind.backingInt.toNat = .ok kind := by cases kind <;> rfl
  have hscheme : decodeSignatureScheme scheme.backingInt.toNat = .ok scheme := by cases scheme; rfl
  simp only [hkind, ok_bind]
  rw [readHash_append, ok_bind]
  simp only []
  rw [readOptionalHash_append]
  simp only []
  rw [readLenBytes_append hfits.creator, ok_bind]
  simp only []
  rw [readByte_cons, ok_bind]
  simp only [hscheme, ok_bind]
  rw [readSignature_append, ok_bind]
  simp only []
  rw [readUInt_append _ created.toNat_lt, ok_bind]
  simp only []
  rw [readUInt_append _ ingested.toNat_lt, ok_bind]
  simp only []
  rw [readLenBytes_append hfits.extension, ok_bind]
  simp [pure, Except.pure]

/-! ## Room for the items -/

theorem lenBytes_length (bytes : Bytes) : (lenBytes bytes).length = 4 + bytes.length := by
  rw [lenBytes, length_append, beBytes_length]

variable {k : Nat} {xs : List α}

theorem le_flatMap_length {f : α → Bytes}
    (h : ∀ x ∈ xs, k ≤ (f x).length) : xs.length * k ≤ (xs.flatMap f).length := by
  induction xs with
  | nil => simp
  | cons x xs ih =>
    have hx := h x mem_cons_self
    have hxs := ih (fun y hy => h y (mem_cons_of_mem x hy))
    rw [length_cons, flatMap_cons, length_append, Nat.succ_mul]
    omega

theorem decodeItems_append {decodeItem : Bytes → Except Error (α × Bytes)}
    {f : α → Bytes} {m : Nat} (hcount : xs.length ≤ maxU32)
    (hread : ∀ x ∈ xs, ∀ rest, decodeItem (f x ++ rest) = .ok (x, rest))
    (hk : ∀ x ∈ xs, k ≤ (f x).length) (hm : m ≤ rest.length) :
    decodeItems k m decodeItem (itemsBytes f xs ++ rest) = .ok (xs, rest) := by
  have hroom := le_flatMap_length hk
  rw [itemsBytes, append_assoc, decodeItems, readUInt_append _ (lt_u32 hcount), ok_bind]
  simp only []
  rw [ensureRemainingItems, if_neg (by rw [length_append]; omega), ok_bind]
  exact readItems_append_of_mem hread rest

theorem record_length (record : BundleRecord) : minRecordBytes ≤ record.bytes.length := by
  have hvalue : 1 ≤ (valueFieldBytes record.valueBytes record.valueHash).length := by
    unfold valueFieldBytes
    split <;> simp
  simp only [BundleRecord.bytes, length_append, beBytes_length, record.recordHash.size_eq,
    lenBytes_length, minRecordBytes]
  omega

theorem proof_length (proof : InclusionProof) : minProofBytes ≤ proof.bytes.length := by
  simp only [InclusionProof.bytes, length_append, beBytes_length, proof.leafHash.size_eq,
    proof.checkpointHash.size_eq, lenBytes_length, minProofBytes]
  omega

theorem checkpoint_length (cp : CheckpointRecord) :
    minCheckpointBytes ≤ (checkpointBytes cp).length := by
  have hprevious : 1 ≤ (optionalHash cp.previousCheckpointHash).length := by
    cases cp.previousCheckpointHash <;> simp [optionalHash]
  simp only [checkpointBytes, length_append, beBytes_length, cp.accumulatorRoot.size_eq,
    cp.signature.size_eq, lenBytes_length, length_singleton, minCheckpointBytes]
  omega

theorem itemsBytes_length_le (f : α → Bytes) (xs : List α) : 4 ≤ (itemsBytes f xs).length := by
  rw [itemsBytes, length_append, beBytes_length]
  omega

/-- **Decoding gives the bundle back.** -/
theorem decode_encode {bytes : Bytes}
    (h : encodeCanonical bundle = .ok bytes) (hpaired : ∀ record ∈ bundle.records, record.Paired) :
    decodeCanonical bytes = .ok bundle := by
  obtain ⟨hshape, hfits, rfl⟩ := encodeCanonical_ok_iff.mp h
  have hcheckpoints := decodeItems_append hfits.checkpointCount
    (fun cp hcp => decodeCheckpoint_append (hfits.checkpoints cp hcp))
    (fun cp _ => checkpoint_length cp) (Nat.zero_le ([] : Bytes).length)
  rw [append_nil] at hcheckpoints
  have hproofs := decodeItems_append hfits.proofCount
    (fun proof hproof => decodeProof_append (hfits.proofs proof hproof))
    (fun proof _ => proof_length proof) (itemsBytes_length_le checkpointBytes bundle.checkpoints)
  have hroom : 4 ≤ (itemsBytes InclusionProof.bytes bundle.inclusionProofs ++
      itemsBytes checkpointBytes bundle.checkpoints).length := by
    rw [length_append]
    exact Nat.le_trans (itemsBytes_length_le _ _) (Nat.le_add_right _ _)
  have hrecords := decodeItems_append hfits.recordCount
    (fun record hr => decodeRecord_append (hfits.records record hr) (hpaired record hr))
    (fun record _ => record_length record) hroom
  have hkind : decodeBundleKind bundle.kind.backingInt.toNat = .ok bundle.kind := by
    cases bundle.kind <;> rfl
  simp only [ProofBundle.bytes, append_assoc, cons_append, nil_append,
    decodeCanonical]
  rw [readBytes_append _ rfl, ok_bind]
  simp only [ne_eq, not_true_eq_false, if_false]
  rw [readUInt_append _ (by decide), ok_bind]
  simp only [not_true_eq_false, if_false]
  rw [readByte_cons, ok_bind]
  simp only []
  rw [readByte_cons, ok_bind]
  simp only [hkind, ok_bind]
  rw [readLenBytes_append hfits.logId, ok_bind]
  simp only []
  rw [readLenBytes_append hfits.extension, ok_bind]
  simp only []
  rw [hrecords, ok_bind]
  simp only []
  rw [hproofs, ok_bind]
  simp only []
  rw [hcheckpoints, ok_bind]
  simp [hshape, ok_bind, pure, Except.pure]

end Bundle
end WormDB
