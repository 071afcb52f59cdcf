import WormDB.ProofBundleCodec
import WormDB.ProofBundleSound
import WormDB.AppendLogRuns

/-! # Building a proof bundle

`buildAppendLogMmrBundle` reads a log again from its first event, rebuilds the
accumulator over the records up to the end of the range, signs a checkpoint of its
root and cuts a proof for each record of the range.  Allocations succeed here. -/
namespace WormDB
open List ByteCodec ByteReader
namespace Bundle
open Checkpoint (CheckpointRecord)
open Mmr (Accumulator appendLeaves maxU64)
open AppendLog (eventKey eventKeyPrefix seqFromEventKey decodeEnvelope verifyEnvelope)

structure AppendLogMmrBundleOptions where
  logId : Bytes
  fromSeq : UInt64
  toSeq : UInt64
  creatorPublicKey : Bytes
  creatorSecretKey : Bytes
  createdAtMs : Option UInt64
  ingestedAtMs : Option UInt64
  checkpointExtensionBytes : Bytes
  bundleExtensionBytes : Bytes

structure EncodedBundle where
  bytes : Bytes
  info : BundleInfo
  deriving DecidableEq

/-- What the scan loop carries. -/
structure BuildState where
  expectedSeq : UInt64
  previousHash : Hash
  acc : Accumulator
  records : List BundleRecord

section
variable (sha256 : Bytes → Hash) (ed25519 : Ed25519) (options : AppendLogMmrBundleOptions)

/-- The number of records in the range. -/
def rangeLen (fromSeq toSeq : UInt64) : Except Error Nat :=
  if toSeq < fromSeq then .error (.checkpoint .invalidSequenceRange)
  else if toSeq.toNat - fromSeq.toNat = maxU64 then .error (.checkpoint .invalidSequenceRange)
  else .ok (toSeq.toNat - fromSeq.toNat + 1)

def eventRecord (seq : UInt64) (value : Bytes) : BundleRecord :=
  ⟨seq, value, sha256 value, none, none, []⟩

/-- One scanned event that is not after the range. -/
def acceptResult (s : BuildState) (keySeq : UInt64) (content : Content) : Except Error BuildState :=
  if !content.isWorm then .error (.log .nonWormEvent)
  else
    match decodeEnvelope content.value with
    | .error e => .error (.log e)
    | .ok view =>
        if view.seq ≠ keySeq then .error (.log .sequenceKeyMismatch)
        else if view.seq < s.expectedSeq then .error (.log .sequenceReuse)
        else if view.seq > s.expectedSeq then .error (.log .sequenceGap)
        else if view.ingestTimeMs ≠ content.timestamp then .error (.log .receiptTimestampMismatch)
        else if view.prevEventHash ≠ s.previousHash then .error (.log .prevHashMismatch)
        else
          match verifyEnvelope sha256 options.logId view with
          | .error e => .error (.log e)
          | .ok () =>
              match s.acc.append sha256 (fun _ => true) (sha256 content.value).bytes with
              | (.error e, _) => .error (.mmr e)
              | (.ok _, acc) =>
                  .ok ⟨if s.expectedSeq.toNat ≠ maxU64 then s.expectedSeq + 1 else s.expectedSeq,
                    view.eventHash, acc,
                    if keySeq ≥ options.fromSeq then
                      s.records ++ [eventRecord sha256 keySeq content.value]
                    else s.records⟩

def buildLoop (pre : Bytes) : BuildState → List (Bytes × Content) → Except Error BuildState
  | s, [] => .ok s
  | s, entry :: entries =>
      match seqFromEventKey pre entry.1 with
      | .error e => .error (.log e)
      | .ok keySeq =>
          if keySeq > options.toSeq then .ok s
          else
            match acceptResult sha256 options s keySeq entry.2 with
            | .error e => .error e
            | .ok s => buildLoop pre s entries

def proveRecord (acc : Accumulator) (cpHash : Hash) (record : BundleRecord) :
    Except Error InclusionProof :=
  match acc.prove (record.seq - 1) with
  | .error e => .error (.mmr e)
  | .ok proof =>
      match Mmr.encodeInclusionProof proof with
      | .error e => .error (.mmr e)
      | .ok bytes => .ok ⟨record.seq, record.recordHash, cpHash, bytes, []⟩

/-- The checkpoint before it is signed; `clock` is read for the times not given. -/
def unsignedCheckpoint (clock : UInt64 × UInt64) (root : Hash) : CheckpointRecord :=
  ⟨Checkpoint.version, options.logId, options.fromSeq, options.toSeq, .mmrSha256V1, root, none,
    options.creatorPublicKey, .ed25519, zeroSignature, options.createdAtMs.getD clock.1,
    options.ingestedAtMs.getD clock.2, options.checkpointExtensionBytes⟩

def assembled (records : List BundleRecord) (proofs : List InclusionProof) (cp : CheckpointRecord) :
    ProofBundle :=
  ⟨Checkpoint.version, if records.length = 1 then .singleEvent else .range, options.logId, records,
    proofs, [cp], options.bundleExtensionBytes⟩

/-- From the signature on. -/
def finishBundle (clock : UInt64 × UInt64) (s : BuildState) : Except Error EncodedBundle := do
  let unsigned := unsignedCheckpoint options clock (s.acc.root sha256)
  let signature ← (unsigned.signEd25519 ed25519 options.creatorSecretKey).mapError .checkpoint
  let cp := { unsigned with signature := signature }
  let cpHash ← (cp.recordHash sha256).mapError .checkpoint
  let proofs ← s.records.mapM (proveRecord s.acc cpHash)
  let bundle := assembled options s.records proofs cp
  let _ ← verifyAppendLogMmrBundle sha256 ed25519 bundle
  let bytes ← encodeCanonical bundle
  let info ← bundleInfo sha256 bundle
  return ⟨bytes, info⟩

def buildAppendLogMmrBundle (kv : Kv) (clock : UInt64 × UInt64) : Except Error EncodedBundle :=
  if options.fromSeq = 0 then .error (.checkpoint .invalidSequenceRange)
  else if options.fromSeq > options.toSeq then .error (.checkpoint .invalidSequenceRange)
  else if options.creatorPublicKey.length ≠ Checkpoint.publicKeyLen then
    .error (.checkpoint .invalidPublicKeyLength)
  else
    match rangeLen options.fromSeq options.toSeq with
    | .error e => .error e
    | .ok expectedRecordCount =>
        let pre := eventKeyPrefix sha256 options.logId
        match buildLoop sha256 options pre ⟨1, AppendLog.zeroHash, .init, []⟩
            (kv.scanPrefix pre 0) with
        | .error e => .error e
        | .ok s =>
            if s.expectedSeq ≤ options.toSeq then .error (.log .sequenceGap)
            else if s.records.length ≠ expectedRecordCount then .error (.log .sequenceGap)
            else finishBundle sha256 ed25519 options clock s

end

/-! ## The scan -/

open AppendLog (Request EventInput inputs inputsFrom stateOf leaves extend Holds sealEnvelope
  eventEntries decodeEnvelope_seal verifyEnvelope_view emptyState toNat_succ stateOf_concat
  inputs_concat leaves_concat stateOf_mmr stateOf_lastSeq inputs_length leaves_length)

variable {sha256 : Bytes → Hash} {ed25519 : Ed25519} {options : AppendLogMmrBundleOptions}

variable (sha256) in
/-- The record of an event. -/
def inputRecord (input : EventInput) : BundleRecord :=
  eventRecord sha256 input.seq (sealEnvelope sha256 input).envelope

variable (sha256 options) in
/-- The loop has taken the events of `es`. -/
structure Builds (es : List Request) (s : BuildState) : Prop where
  expected : es.length < maxU64 → s.expectedSeq.toNat = es.length + 1
  previous : s.previousHash = (stateOf sha256 options.logId es).headHash
  mmr : appendLeaves sha256 (fun _ => true) .init (leaves sha256 options.logId es) = (.ok (), s.acc)
  records : s.records =
    ((inputs sha256 options.logId es).drop (options.fromSeq.toNat - 1)).map (inputRecord sha256)

theorem init_builds : Builds sha256 options [] ⟨1, AppendLog.zeroHash, .init, []⟩ :=
  ⟨fun _ => rfl, rfl, rfl, by simp [inputs, inputsFrom]⟩

variable {es : List Request} {s : BuildState}

/-- The next leaf can be appended. -/
theorem Builds.append (h : Builds sha256 options es s) (hlen : es.length < maxU64) (req : Request) :
    ∃ root acc, s.acc.append sha256 (fun _ => true)
        ((req.input options.logId (stateOf sha256 options.logId es)).leaf sha256) =
    (.ok root, acc) ∧
      appendLeaves sha256 (fun _ => true) .init (leaves sha256 options.logId (es ++ [req])) =
        (.ok (), acc) := by
  obtain ⟨acc, hrun, -⟩ := @stateOf_mmr sha256 options.logId (es ++ [req])
    (by rw [length_append, length_singleton]; omega)
  have hsplit := hrun
  rw [leaves_concat, AppendLog.appendLeaves_append h.mmr, Mmr.appendLeaves] at hsplit
  generalize s.acc.append sha256 (fun _ => true)
    ((req.input options.logId (stateOf sha256 options.logId es)).leaf sha256) = added at hsplit ⊢
  obtain ⟨e | root, acc'⟩ := added
  · cases hsplit
  · obtain ⟨-, rfl⟩ := Prod.mk.inj hsplit
    exact ⟨root, acc', rfl, hrun⟩

/-- **One event** of the log is accepted. -/
theorem Builds.accept (h : Builds sha256 options es s) (hlen : es.length < maxU64) {req : Request}
    (hfits : (req.input options.logId (stateOf sha256 options.logId es)).Fits) :
    ∃ next, acceptResult sha256 options s
        (req.input options.logId (stateOf sha256 options.logId es)).seq
        ((req.input options.logId (stateOf sha256 options.logId es)).entry sha256).2 = .ok next ∧
      Builds sha256 options (es ++ [req]) next := by
  have hlast := stateOf_lastSeq sha256 options.logId (le_of_lt hlen)
  -- the event has the number the builder waits for
  have hseq : (req.input options.logId (stateOf sha256 options.logId es)).seq = s.expectedSeq := by
    apply UInt64.toNat_inj.mp
    rw [h.expected hlen, Request.input, toNat_succ (by rw [hlast]; exact hlen), hlast]
  obtain ⟨root, acc, hadd, hmmr⟩ := h.append hlen req
  have hverify := @verifyEnvelope_view sha256
    (req.input options.logId (stateOf sha256 options.logId es))
  have hprev : (req.input options.logId (stateOf sha256 options.logId es)).prevEventHash =
      s.previousHash := h.previous.symm
  have hlog : (req.input options.logId (stateOf sha256 options.logId es)).logId = options.logId := rfl
  rw [EventInput.leaf] at hadd
  have hhead : (stateOf sha256 options.logId (es ++ [req])).headHash =
      (sealEnvelope sha256 (req.input options.logId (stateOf sha256 options.logId es))).eventHash := by
    rw [stateOf_concat, extend]
  have hinputs := @inputs_concat sha256 options.logId es req
  generalize req.input options.logId (stateOf sha256 options.logId es) = input at *
  rw [hlog] at hverify
  -- the decoder gives the fields of the event back
  have hview : (input.view sha256).seq = input.seq ∧
      (input.view sha256).ingestTimeMs = input.ingestTimeMs ∧
      (input.view sha256).prevEventHash = input.prevEventHash := ⟨rfl, rfl, rfl⟩
  -- so every check of the builder succeeds
  have haccept : acceptResult sha256 options s input.seq (input.entry sha256).2 =
      .ok ⟨if s.expectedSeq.toNat ≠ maxU64 then s.expectedSeq + 1 else s.expectedSeq,
        (sealEnvelope sha256 input).eventHash, acc,
        if s.expectedSeq ≥ options.fromSeq then s.records ++ [inputRecord sha256 input]
        else s.records⟩ := by
    rw [acceptResult, EventInput.entry]
    simp only [Bool.not_true, Bool.false_eq_true, if_false, decodeEnvelope_seal hfits, hview, hseq,
      UInt64.lt_irrefl, gt_iff_lt, ne_eq, not_true_eq_false, hprev, hverify, hadd]
    simp only [inputRecord, hseq, EventInput.view]
  refine ⟨_, haccept, ?_, hhead.symm, hmmr, ?_⟩
  · intro hlt
    rw [length_append, length_singleton] at hlt ⊢
    have hne : ¬ s.expectedSeq.toNat = maxU64 := by
      rw [h.expected hlen]
      omega
    simp only [ne_eq, hne, not_false_eq_true, if_true]
    rw [toNat_succ (by rw [h.expected hlen]; omega), h.expected hlen]
  · have hnum := h.expected hlen
    have hcount := @inputs_length sha256 options.logId es
    rw [hinputs, drop_append, h.records, hcount, map_append]
    by_cases hin : s.expectedSeq ≥ options.fromSeq
    · -- the range has begun
      rw [if_pos hin]
      rw [ge_iff_le, UInt64.le_iff_toNat_le] at hin
      rw [show options.fromSeq.toNat - 1 - es.length = 0 by omega, drop_zero,
        map_singleton]
    · rw [if_neg hin]
      rw [ge_iff_le, UInt64.le_iff_toNat_le] at hin
      have hdrop : [input].drop (options.fromSeq.toNat - 1 - es.length) = [] :=
        drop_eq_nil_of_le (by rw [length_singleton]; omega)
      rw [hdrop, map_nil, append_nil]

variable {reqs : List Request}

/-- **The loop** takes the events up to the end of the range. -/
theorem Builds.loop (h : Builds sha256 options es s)
    (hlen : es.length + reqs.length ≤ maxU64)
    (hfits : ∀ input ∈ inputsFrom sha256 options.logId (stateOf sha256 options.logId es) reqs,
      input.Fits) (hle : es.length ≤ options.toSeq.toNat) :
    ∃ last, buildLoop sha256 options (eventKeyPrefix sha256 options.logId) s
        ((inputsFrom sha256 options.logId (stateOf sha256 options.logId es) reqs).map
          (EventInput.entry sha256)) = .ok last ∧
      Builds sha256 options (es ++ reqs.take (options.toSeq.toNat - es.length)) last := by
  induction reqs generalizing es s with
  | nil =>
    refine ⟨s, rfl, ?_⟩
    rw [take_nil, append_nil]
    exact h
  | cons req reqs ih =>
    rw [length_cons] at hlen
    have hlast := @stateOf_lastSeq sha256 options.logId es (by omega)
    have hnum : (req.input options.logId (stateOf sha256 options.logId es)).seq.toNat =
        es.length + 1 := by
      rw [Request.input, toNat_succ (by omega), hlast]
    have hkey : seqFromEventKey (eventKeyPrefix sha256 options.logId)
        ((req.input options.logId (stateOf sha256 options.logId es)).entry sha256).1 =
          .ok (req.input options.logId (stateOf sha256 options.logId es)).seq :=
      AppendLog.seqFromKey_append _ _
    rw [inputsFrom, map_cons, buildLoop, hkey]
    simp only []
    by_cases hafter : (req.input options.logId (stateOf sha256 options.logId es)).seq > options.toSeq
    · -- the first event after the range
      rw [if_pos hafter]
      rw [gt_iff_lt, UInt64.lt_iff_toNat_lt] at hafter
      refine ⟨s, rfl, ?_⟩
      rw [show options.toSeq.toNat - es.length = 0 by omega, take_zero, append_nil]
      exact h
    · rw [if_neg hafter]
      rw [gt_iff_lt, UInt64.lt_iff_toNat_lt] at hafter
      rw [inputsFrom] at hfits
      obtain ⟨next, haccept, hnext⟩ :=
        h.accept (by omega) (hfits _ mem_cons_self)
      rw [haccept]
      simp only []
      have hrest := fun input hin => hfits input (mem_cons_of_mem _ hin)
      rw [← stateOf_concat] at hrest ⊢
      obtain ⟨last, hrun, hbuilds⟩ := ih hnext
        (by rw [length_append, length_singleton]; omega) hrest
        (by rw [length_append, length_singleton]; omega)
      refine ⟨last, hrun, ?_⟩
      rw [length_append, length_singleton, append_assoc, singleton_append]
        at hbuilds
      rw [show options.toSeq.toNat - es.length = options.toSeq.toNat - (es.length + 1) + 1 by omega,
        take_succ_cons]
      exact hbuilds

/-- The scan of a store that has the log ends with the events of the range. -/
theorem scan_builds {kv : Kv} (h : Holds sha256 options.logId kv es) :
    ∃ last, buildLoop sha256 options (eventKeyPrefix sha256 options.logId)
        ⟨1, AppendLog.zeroHash, .init, []⟩
        (kv.scanPrefix (eventKeyPrefix sha256 options.logId) 0) = .ok last ∧
      Builds sha256 options (es.take options.toSeq.toNat) last := by
  rw [h.scan_events, eventEntries]
  have hlen : ([] : List Request).length + es.length ≤ maxU64 := by
    rw [length_nil, zero_add]
    exact h.len
  exact init_builds.loop hlen h.fits (Nat.zero_le _)

/-! ## The records pass -/

variable {logId : Bytes}

theorem inputsFrom_drop (tail : AppendLog.AccumulatorState) (es : List Request)
    (i : Nat) : (inputsFrom sha256 logId tail es).drop i =
      inputsFrom sha256 logId ((es.take i).foldl (extend sha256 logId) tail) (es.drop i) := by
  induction es generalizing tail i with
  | nil => simp [inputsFrom]
  | cons e es ih =>
    cases i with
    | zero => rfl
    | succ i => rw [inputsFrom, drop_succ_cons, ih, take_succ_cons, foldl_cons,
        drop_succ_cons]

variable {tail : AppendLog.AccumulatorState}

/-- Consecutive events of a log are accepted from any state on. -/
theorem verifyRecords_inputs {previous : Option Hash}
    (hlen : tail.lastSeq.toNat + reqs.length ≤ maxU64)
    (hfits : ∀ input ∈ inputsFrom sha256 logId tail reqs, input.Fits)
    (hlink : linkBroken previous (tail.lastSeq + 1) tail.headHash = false) :
    verifyAppendLogRecordsFrom sha256 logId (tail.lastSeq + 1) previous
      ((inputsFrom sha256 logId tail reqs).map (inputRecord sha256)) = .ok () := by
  induction reqs generalizing tail previous with
  | nil => rfl
  | cons req reqs ih =>
    rw [length_cons] at hlen
    rw [inputsFrom] at hfits
    have hdecode := @decodeEnvelope_seal sha256 _ (hfits _ mem_cons_self)
    have hverify := @verifyEnvelope_view sha256 (req.input logId tail)
    have hseq : (req.input logId tail).seq = tail.lastSeq + 1 := rfl
    have hview : ((req.input logId tail).view sha256).seq = tail.lastSeq + 1 ∧
        ((req.input logId tail).view sha256).prevEventHash = tail.headHash := ⟨rfl, rfl⟩
    rw [show (req.input logId tail).logId = logId from rfl] at hverify
    rw [inputsFrom, map_cons, verifyAppendLogRecordsFrom]
    simp only [inputRecord, eventRecord, hseq, ne_eq, not_true_eq_false, if_false, hdecode, hview,
      hverify, hlink, Bool.false_eq_true]
    cases hreqs : reqs with
    | nil => rfl
    | cons req' reqs' =>
      rw [hreqs, length_cons] at hlen
      have hnum := toNat_succ (n := tail.lastSeq) (by omega)
      have hne : ¬ (tail.lastSeq + 1).toNat = maxU64 := by omega
      have hnext : (extend sha256 logId tail req).lastSeq = tail.lastSeq + 1 := rfl
      have hrest := @ih (extend sha256 logId tail req)
        (some ((req.input logId tail).view sha256).eventHash)
        (by rw [hnext, hnum, hreqs, length_cons]; omega)
        (fun input hin => hfits input (mem_cons_of_mem _ hin))
        (by simp [linkBroken, extend, EventInput.view])
      rw [hnext, hreqs] at hrest
      rw [if_pos hne]
      exact hrest

theorem contiguousFrom_inputs {logId : Bytes} {tail : AppendLog.AccumulatorState}
    {reqs : List Request} (hlen : tail.lastSeq.toNat + reqs.length ≤ maxU64) :
    contiguousFrom (tail.lastSeq + 1)
      ((inputsFrom sha256 logId tail reqs).map (inputRecord sha256)) = .ok () := by
  induction reqs generalizing tail with
  | nil => rfl
  | cons req reqs ih =>
    rw [length_cons] at hlen
    have hseq : (inputRecord sha256 (req.input logId tail)).seq = tail.lastSeq + 1 := rfl
    rw [inputsFrom, map_cons, contiguousFrom, if_neg (not_not_intro hseq)]
    cases hreqs : reqs with
    | nil => rfl
    | cons req' reqs' =>
      rw [hreqs, length_cons] at hlen
      have hnum := toNat_succ (n := tail.lastSeq) (by omega)
      have hrest := @ih (extend sha256 logId tail req) (by
        rw [show (extend sha256 logId tail req).lastSeq = tail.lastSeq + 1 from rfl, hnum, hreqs,
          length_cons]
        omega)
      rw [hreqs] at hrest
      rw [if_neg (by rw [inputsFrom, map_cons, length_cons]; omega), if_neg (by omega)]
      exact hrest

/-! ## The proofs pass -/

variable {acc : Accumulator} {proof : Mmr.InclusionProof}

theorem prove_leafIndex {leafIndex : UInt64}
    (h : acc.prove leafIndex = .ok proof) : proof.leafIndex = leafIndex := by
  rw [Accumulator.prove] at h
  split at h
  · cases h
  split at h
  · cases h
  split at h
  · cases h
  split at h
  · cases h
  · cases h
    rfl

theorem encodeInclusionProof_length {bytes : Bytes}
    (h : Mmr.encodeInclusionProof proof = .ok bytes) : bytes.length ≤ maxU32 := by
  rw [Mmr.encodeInclusionProof] at h
  split at h
  · cases h
  split at h
  · cases h
  rename_i hpath
  split at h
  · cases h
  rename_i hpeaks
  cases h
  rw [Mmr.proofMaxPathItems] at hpath
  rw [Mmr.proofMaxPeaks] at hpeaks
  have hmagic : Mmr.proofMagic.length = 7 := rfl
  simp only [length_append, beBytes_length, hmagic,
    Mmr.flatMap_length_const Mmr.encodePathItem_length,
    Mmr.flatMap_length_const Mmr.encodePeak_length, Mmr.proofPathItemLen, Mmr.proofPeakItemLen,
    maxU32]
  omega

variable (sha256) in
/-- The proof is the record's, leads to the root and fits. -/
structure Proves (root cpHash : Hash) (record : BundleRecord) (proof : InclusionProof) : Prop where
  seq : proof.seq = record.seq
  leaf : proof.leafHash = record.recordHash
  checkpoint : proof.checkpointHash = cpHash
  accepted : verifyMmrAccumulator sha256 .mmrSha256V1 root proof.leafHash proof.seq
    proof.pathBytes = true
  fits : proof.Fits

variable {record : BundleRecord}

theorem proveRecord_ok {leaves : List Bytes} {i : Nat}
    (hrun : appendLeaves sha256 (fun _ => true) .init leaves = (.ok (), acc))
    (hleaf : leaves[i]? = some record.recordHash.bytes) (hseq : record.seq.toNat = i + 1)
    (cpHash : Hash) : ∃ proof, proveRecord acc cpHash record = .ok proof ∧
      Proves sha256 (acc.root sha256) cpHash record proof := by
  obtain ⟨hi, hget⟩ := List.getElem?_eq_some_iff.mp hleaf
  have hall := Mmr.prove_verifies sha256 (fun _ => true) leaves
  rw [hrun] at hall
  obtain ⟨proof, bytes, hprove, hver, hbytes, -⟩ := hall i hi
  have hindex : record.seq - 1 = i.toUInt64 := by
    apply UInt64.toNat_inj.mp
    have hone : 1 ≤ record.seq := by
      rw [UInt64.le_iff_toNat_le, UInt64.toNat_one, hseq]
      omega
    have hlt := record.seq.toNat_lt
    rw [UInt64.toNat_sub_of_le _ _ hone, UInt64.toNat_one, hseq, Nat.add_sub_cancel]
    exact (UInt64.toNat_ofNat_of_lt' (by rw [UInt64.size]; omega)).symm
  have hne : record.seq ≠ 0 := by
    rintro he
    rw [he] at hseq
    cases hseq
  refine ⟨⟨record.seq, record.recordHash, cpHash, bytes, []⟩, ?_, rfl, rfl, rfl, ?_,
    encodeInclusionProof_length hbytes, Nat.zero_le _⟩
  · rw [proveRecord, hindex, hprove]
    simp only [hbytes]
  · rw [verifyMmrAccumulator, if_neg (not_not_intro rfl), if_neg hne, Mmr.decode_encode hbytes]
    simp only [prove_leafIndex hprove, hindex, ne_eq, not_true_eq_false, if_false]
    rw [get_eq_getElem, hget] at hver
    exact hver

variable {α β : Type} {R : α → β → Prop} {xs : List α}

theorem mapM_forall₂ {f : α → Except Error β} (h : ∀ x ∈ xs, ∃ y, f x = .ok y ∧ R x y) :
    ∃ ys, xs.mapM f = .ok ys ∧ List.Forall₂ R xs ys := by
  induction xs with
  | nil => exact ⟨[], rfl, .nil⟩
  | cons x xs ih =>
    obtain ⟨y, hy, hR⟩ := h x mem_cons_self
    obtain ⟨ys, hys, hRs⟩ := ih (fun z hz => h z (mem_cons_of_mem x hz))
    refine ⟨y :: ys, ?_, .cons hR hRs⟩
    rw [mapM_cons, hy, ok_bind, hys]
    rfl

variable {ys : List β}

theorem forall₂_mem_left (h : List.Forall₂ R xs ys) {x : α} (hx : x ∈ xs) : ∃ y ∈ ys, R x y := by
  induction h with
  | nil => cases hx
  | cons hR _ ih =>
    rcases mem_cons.mp hx with rfl | hx
    · exact ⟨_, mem_cons_self, hR⟩
    · obtain ⟨y, hy, hRy⟩ := ih hx
      exact ⟨y, mem_cons_of_mem _ hy, hRy⟩

theorem forall₂_mem_right (h : List.Forall₂ R xs ys) {y : β} (hy : y ∈ ys) : ∃ x ∈ xs, R x y := by
  induction h with
  | nil => cases hy
  | cons hR _ ih =>
    rcases mem_cons.mp hy with rfl | hy
    · exact ⟨_, mem_cons_self, hR⟩
    · obtain ⟨x, hx, hRx⟩ := ih hy
      exact ⟨x, mem_cons_of_mem _ hx, hRx⟩

/-- A record finds a proof of its own. -/
theorem findProof_proves {root cpHash : Hash} {bundle : ProofBundle}
    (h : List.Forall₂ (Proves sha256 root cpHash) bundle.records bundle.inclusionProofs)
    {record : BundleRecord} (hr : record ∈ bundle.records) :
    ∃ proof, bundle.findProofForRecord record = some proof ∧
      Proves sha256 root cpHash record proof := by
  obtain ⟨own, hown, hproves⟩ := forall₂_mem_left h hr
  have hsome : (bundle.findProofForRecord record).isSome = true := by
    rw [ProofBundle.findProofForRecord, find?_isSome]
    exact ⟨own, hown, by simp [hproves.seq, hproves.leaf]⟩
  obtain ⟨proof, hproof⟩ := Option.isSome_iff_exists.mp hsome
  obtain ⟨hseq, hleaf⟩ := findProofForRecord_some hproof
  obtain ⟨other, -, hother⟩ := forall₂_mem_right h (mem_of_find?_eq_some hproof)
  exact ⟨proof, hproof, hseq, hleaf, hother.checkpoint, hother.accepted, hother.fits⟩

/-! ## The bundle passes -/

variable {records : List BundleRecord}

theorem verifyRecords_of_forall {bundle : ProofBundle} {verifier : AccumulatorVerifier}
    (h : ∀ record ∈ records, bundle.verifyRecord sha256 verifier record = .ok ()) :
    bundle.verifyRecords sha256 verifier records = .ok () := by
  induction records with
  | nil => rfl
  | cons record records ih =>
    rw [ProofBundle.verifyRecords, h record mem_cons_self]
    exact ih (fun r hr => h r (mem_cons_of_mem record hr))

/-- A signed checkpoint of a root, over a range of the log. -/
structure Seals (sha256 : Bytes → Hash) (ed25519 : Ed25519) (options : AppendLogMmrBundleOptions)
    (root cpHash : Hash) (cp : CheckpointRecord) : Prop where
  shape : cp.validateShape = .ok ()
  signed : cp.Signed ed25519
  hash : cp.recordHash sha256 = .ok cpHash
  logId : cp.logId = options.logId
  kind : cp.accumulatorKind = .mmrSha256V1
  root : cp.accumulatorRoot = root
  first : cp.fromSeq = options.fromSeq
  last : cp.toSeq = options.toSeq

variable {proofs : List InclusionProof} {cp : CheckpointRecord} {root cpHash : Hash}

theorem verifyRecord_assembled (hseal : Seals sha256 ed25519 options root cpHash cp)
    (hproofs : List.Forall₂ (Proves sha256 root cpHash) records proofs) (hr : record ∈ records)
    (hhash : record = eventRecord sha256 record.seq record.canonicalRecordBytes)
    (hfirst : options.fromSeq ≤ record.seq) (hlast : record.seq ≤ options.toSeq) :
    (assembled options records proofs cp).verifyRecord sha256 (verifyMmrAccumulator sha256) record =
      .ok () := by
  have hverify : record.verifyHashes sha256 = .ok () := by
    rw [hhash, BundleRecord.verifyHashes, eventRecord, if_neg (not_not_intro rfl)]
  obtain ⟨proof, hfind, hproves⟩ :=
    @findProof_proves _ _ _ (assembled options records proofs cp) hproofs _ hr
  have hcovers : cp.coversSeq record.seq = true := by
    rw [CheckpointRecord.coversSeq, hseal.first, hseal.last]
    exact decide_eq_true ⟨hfirst, hlast⟩
  have hcp : (assembled options records proofs cp).findCheckpointByHash sha256 proof.checkpointHash =
      .ok (some cp) := by
    rw [ProofBundle.findCheckpointByHash, assembled, ProofBundle.findByHash, hseal.hash]
    simp only [hproves.checkpoint, if_true]
  have haccept := hproves.accepted
  rw [ProofBundle.verifyRecord, hverify]
  simp only [hfind, hproves.leaf, ne_eq, not_true_eq_false, if_false, hcp, hcovers, Bool.not_true,
    Bool.false_eq_true, hseal.kind, hseal.root]
  rw [hproves.leaf] at haccept
  simp only [haccept, Bool.not_true, Bool.false_eq_true, if_false]

variable (sha256 options) in
/-- The records of a stretch of the log that lies in the range. -/
structure InRange (tail : AppendLog.AccumulatorState) (reqs : List Request) : Prop where
  nonempty : reqs ≠ []
  len : tail.lastSeq.toNat + reqs.length ≤ maxU64
  fits : ∀ input ∈ inputsFrom sha256 options.logId tail reqs, input.Fits
  covered : ∀ input ∈ inputsFrom sha256 options.logId tail reqs,
    options.fromSeq ≤ input.seq ∧ input.seq ≤ options.toSeq
  genesis : tail.lastSeq + 1 = 1 → tail.headHash = AppendLog.zeroHash

theorem assembled_shape {tail : AppendLog.AccumulatorState} {reqs : List Request}
    {proofs : List InclusionProof} {cp : CheckpointRecord} {root cpHash : Hash}
    (hrange : InRange sha256 options tail reqs) (hnamed : options.logId ≠ [])
    (hproofs : List.Forall₂ (Proves sha256 root cpHash)
      ((inputsFrom sha256 options.logId tail reqs).map (inputRecord sha256)) proofs) :
    (assembled options ((inputsFrom sha256 options.logId tail reqs).map (inputRecord sha256))
      proofs cp).validateShape = .ok () := by
  have hcontiguous := @contiguousFrom_inputs sha256 options.logId tail reqs hrange.len
  have hlen := hproofs.length_eq
  obtain ⟨req, rest, rfl⟩ := exists_cons_of_ne_nil hrange.nonempty
  have hhead : (inputRecord sha256 (req.input options.logId tail)).seq = tail.lastSeq + 1 := rfl
  rw [inputsFrom, map_cons] at hcontiguous hlen ⊢
  generalize inputRecord sha256 (req.input options.logId tail) = first at *
  generalize (inputsFrom sha256 options.logId (extend sha256 options.logId tail req) rest).map
    (inputRecord sha256) = others at *
  have hlog : ¬ options.logId.length = 0 := fun h => hnamed (length_eq_zero_iff.mp h)
  have hnotless : ¬ proofs.length < (first :: others).length := by omega
  rw [assembled, ProofBundle.validateShape, if_neg (not_not_intro rfl), if_neg hlog,
    if_neg (by simp), if_neg (by simp), if_neg hnotless]
  by_cases hone : (first :: others).length = 1
  · rw [if_pos hone]
    exact if_neg (not_not_intro hone)
  · rw [if_neg hone]
    simp only [validateContiguousRange]
    rw [hhead]
    exact hcontiguous

/-- **The bundle that is built is accepted.** -/
theorem assembled_verifies
    (hrange : InRange sha256 options tail reqs) (hnamed : options.logId ≠ [])
    (hseal : Seals sha256 ed25519 options root cpHash cp)
    (hproofs : List.Forall₂ (Proves sha256 root cpHash)
      ((inputsFrom sha256 options.logId tail reqs).map (inputRecord sha256)) proofs) :
    ∃ info, verifyAppendLogMmrBundle sha256 ed25519 (assembled options
        ((inputsFrom sha256 options.logId tail reqs).map (inputRecord sha256)) proofs cp) = .ok info ∧
      bundleInfo sha256 (assembled options
        ((inputsFrom sha256 options.logId tail reqs).map (inputRecord sha256)) proofs cp) =
          .ok info := by
  have hshape := @assembled_shape _ _ _ _ proofs cp _ _ hrange hnamed hproofs
  -- the range starts at the chain's head, or at the genesis
  have hlink : linkBroken none (tail.lastSeq + 1) tail.headHash = false := by
    rw [linkBroken, decide_eq_false_iff_not]
    exact fun h => h.2 (hrange.genesis h.1)
  have hlog := verifyRecords_inputs hrange.len hrange.fits hlink
  -- every record is proved under the one checkpoint
  have hrecords : (assembled options ((inputsFrom sha256 options.logId tail reqs).map
      (inputRecord sha256)) proofs cp).verifyRecords sha256 (verifyMmrAccumulator sha256)
      ((inputsFrom sha256 options.logId tail reqs).map (inputRecord sha256)) = .ok () := by
    refine verifyRecords_of_forall (fun record hr => ?_)
    obtain ⟨input, hin, rfl⟩ := mem_map.mp hr
    obtain ⟨hfirst, hlast⟩ := hrange.covered input hin
    exact verifyRecord_assembled hseal hproofs hr rfl hfirst hlast
  -- a chain of one checkpoint is its signature
  have hchain : Checkpoint.verifyIncludedCheckpointChain sha256 ed25519 [cp] = .ok () := by
    have hsig := CheckpointRecord.verifySignature_ok.mpr ⟨hseal.shape, hseal.signed⟩
    rw [Checkpoint.verifyIncludedCheckpointChain, if_neg (by simp)]
    unfold Checkpoint.verifyChainFrom
    rw [hsig]
    rfl
  obtain ⟨req, rest, rfl⟩ := exists_cons_of_ne_nil hrange.nonempty
  have hhead : (inputRecord sha256 (req.input options.logId tail)).seq = tail.lastSeq + 1 := rfl
  rw [inputsFrom, map_cons] at hshape hlog hrecords ⊢
  generalize inputRecord sha256 (req.input options.logId tail) = first at *
  generalize (inputsFrom sha256 options.logId (extend sha256 options.logId tail req) rest).map
    (inputRecord sha256) = others at *
  have hinfo : ∃ info, bundleInfo sha256 (assembled options (first :: others) proofs cp) =
      .ok info := by
    obtain ⟨last, hlast⟩ : ∃ last, (first :: others).getLast? = some last :=
      ⟨_, getLast?_eq_some_getLast (cons_ne_nil first others)⟩
    rw [bundleInfo, hshape]
    simp only [assembled, hlast, hseal.hash]
    exact ⟨_, rfl⟩
  obtain ⟨info, hinfo⟩ := hinfo
  refine ⟨info, ?_, hinfo⟩
  have hfirst : verifyAppendLogRecords sha256 (assembled options (first :: others) proofs cp) =
      .ok () := by
    rw [verifyAppendLogRecords, hshape]
    simp only [assembled]
    rw [hhead]
    exact hlog
  have hverify : (assembled options (first :: others) proofs cp).verify sha256 ed25519
      (verifyMmrAccumulator sha256) = .ok () := by
    have hcps : (assembled options (first :: others) proofs cp).checkpoints = [cp] := rfl
    have hlogs : [cp].any (fun c => decide (c.logId ≠
        (assembled options (first :: others) proofs cp).logId)) = false := by
      simp [assembled, hseal.logId]
    rw [ProofBundle.verify, hshape]
    simp only [hcps, hchain, hlogs, Bool.false_eq_true, if_false]
    exact hrecords
  rw [verifyAppendLogMmrBundle, hfirst]
  simp only [hverify, hinfo]

end Bundle
end WormDB
