import WormDB.ProofBundle
import WormDB.TamperEvidence
import Mathlib.Data.List.Chain

/-! # What an accepted bundle proves

Whoever made the bytes of a bundle that is accepted (`verifyEncoded_sound`): its
records are consecutive events of one log, each names the hash of the event before
it, and each is a leaf, at its own place, of the mountain range that a signed
checkpoint of that log commits to.

A signature is what `ed25519` accepts for the creator's key.  What is asked of SHA-256
is, for each mountain range with the checkpoint's root, that it has no collision
among what is hashed for the range and for the record's inclusion proof. -/
namespace WormDB
open List ByteCodec ByteReader
namespace Bundle
open Checkpoint (CheckpointRecord)
open Mmr (Accumulator CollisionFree appendLeaves accumulatorInputs verifierInputs verifyInclusion
  maxU64 sha256Digest)
open AppendLog (EventView decodeEnvelope verifyEnvelope)

section
variable (sha256 : Bytes → Hash) (ed25519 : Ed25519)

/-- What is hashed to check that a record is included. -/
def ProofBundle.inclusionInputs (self : ProofBundle) (record : BundleRecord) : List Bytes :=
  match self.findProofForRecord record with
  | none => []
  | some proof =>
      match Mmr.decodeInclusionProof proof.pathBytes with
      | .error _ => []
      | .ok path => verifierInputs sha256 path proof.leafHash.bytes

/-- Every mountain range with this root has the hash as its leaf for `seq`, unless two
of the strings hashed collide. -/
def CommitsTo (root : Hash) (hashed : List Bytes) (seq : UInt64) (recordHash : Hash) : Prop :=
  ∀ alloc leaves acc, appendLeaves sha256 alloc .init leaves = (.ok (), acc) →
    acc.root sha256 = root → CollisionFree sha256 (accumulatorInputs sha256 leaves acc ++ hashed) →
    leaves[seq.toNat - 1]? = some recordHash.bytes

/-- What a bundle proves, with the events its records are. -/
structure Sound (bundle : ProofBundle) (views : List EventView) : Prop where
  decoded : bundle.records.map (fun r => decodeEnvelope r.canonicalRecordBytes) = views.map .ok
  hashes : ∀ record ∈ bundle.records, record.recordHash = sha256 record.canonicalRecordBytes
  ofLog : ∀ view ∈ views, verifyEnvelope sha256 bundle.logId view = .ok ()
  numbered : bundle.records.map BundleRecord.seq = views.map EventView.seq
  consecutive : ∃ first, bundle.records.map (fun r => r.seq.toNat) =
    List.range' first bundle.records.length
  linked : views.IsChain (fun v w => w.prevEventHash = v.eventHash)
  included : ∀ record ∈ bundle.records, 0 < record.seq ∧ ∃ cp ∈ bundle.checkpoints,
    cp.logId = bundle.logId ∧ cp.coversSeq record.seq = true ∧
    cp.accumulatorKind = .mmrSha256V1 ∧ cp.Signed ed25519 ∧
    CommitsTo sha256 cp.accumulatorRoot (bundle.inclusionInputs sha256 record) record.seq
      record.recordHash

end

variable {sha256 : Bytes → Hash} {ed25519 : Ed25519} {bundle : ProofBundle}

/-! ## Numbers -/

variable {records : List BundleRecord} {expectedSeq : UInt64}

theorem contiguousFrom_ok (h : contiguousFrom expectedSeq records = .ok ()) :
    records.map (fun r => r.seq.toNat) = List.range' expectedSeq.toNat records.length := by
  induction records generalizing expectedSeq with
  | nil => rfl
  | cons record records ih =>
    rw [contiguousFrom] at h
    split at h
    · cases h
    rename_i hseq
    rw [map_cons, length_cons, range'_succ, not_not.mp hseq]
    split at h
    · rename_i hlast
      obtain rfl := length_eq_zero_iff.mp hlast
      rfl
    split at h
    · cases h
    rename_i hmax
    -- there is a number after this one
    have hlt : expectedSeq.toNat < maxU64 := by
      have := expectedSeq.toNat_lt
      rw [maxU64] at hmax ⊢
      omega
    rw [ih h, AppendLog.toNat_succ hlt]

theorem validateShape_ok (h : bundle.validateShape = .ok ()) :
    bundle.logId ≠ [] ∧ bundle.records ≠ [] ∧ bundle.checkpoints ≠ [] ∧
      ∃ first, bundle.records.map (fun r => r.seq.toNat) =
        List.range' first bundle.records.length := by
  rw [ProofBundle.validateShape] at h
  split at h
  · cases h
  split at h
  · cases h
  rename_i hlog
  split at h
  · cases h
  rename_i hrecords
  split at h
  · cases h
  rename_i hcheckpoints
  split at h
  · cases h
  refine ⟨fun he => hlog (by rw [he]; rfl), fun he => hrecords (by rw [he]; rfl),
    fun he => hcheckpoints (by rw [he]; rfl), ?_⟩
  split at h
  · -- one event
    split at h
    · cases h
    rename_i hone
    obtain ⟨record, hrecord⟩ := length_eq_one_iff.mp (not_not.mp hone)
    rw [hrecord]
    exact ⟨record.seq.toNat, rfl⟩
  · unfold validateContiguousRange at h
    split at h
    · cases h
    · exact ⟨_, contiguousFrom_ok h⟩

/-! ## The chain of events -/

/-- The events from some place on: they decode, belong to the log, are numbered by
their records, and are linked to the hash before them. -/
theorem verifyAppendLogRecordsFrom_ok {logId : Bytes} {previous : Option Hash}
    (h : verifyAppendLogRecordsFrom sha256 logId expectedSeq previous records = .ok ()) :
    ∃ views : List EventView,
      records.map (fun r => decodeEnvelope r.canonicalRecordBytes) = views.map .ok ∧
      (∀ view ∈ views, verifyEnvelope sha256 logId view = .ok ()) ∧
      records.map BundleRecord.seq = views.map EventView.seq ∧
      views.IsChain (fun v w => w.prevEventHash = v.eventHash) ∧
      ∀ prev ∈ previous, ∀ view ∈ views.head?, view.prevEventHash = prev := by
  induction records generalizing expectedSeq previous with
  | nil => exact ⟨[], rfl, by simp, rfl, isChain_nil, by simp⟩
  | cons record records ih =>
    rw [verifyAppendLogRecordsFrom] at h
    split at h
    · cases h
    split at h
    · cases h
    rename_i view hview
    split at h
    · cases h
    rename_i hseq
    split at h
    · cases h
    rename_i hverify
    split at h
    · cases h
    rename_i hlink
    obtain ⟨views, hdecoded, hall, hnumbered, hchain, hhead⟩ := ih h
    refine ⟨view :: views, ?_, ?_, ?_, ?_, ?_⟩
    · rw [map_cons, map_cons, hview, hdecoded]
    · intro v hv
      rcases mem_cons.mp hv with rfl | hv
      · exact hverify
      · exact hall v hv
    · rw [map_cons, map_cons, hnumbered, not_not.mp hseq]
    · rw [isChain_cons]
      exact ⟨fun w hw => hhead view.eventHash rfl w hw, hchain⟩
    · intro prev hprev v hv
      cases hv
      rw [Option.mem_def.mp hprev, linkBroken] at hlink
      simpa using hlink

/-! ## Inclusion -/

variable {record : BundleRecord}

theorem BundleRecord.verifyHashes_ok (h : record.verifyHashes sha256 = .ok ()) :
    record.recordHash = sha256 record.canonicalRecordBytes := by
  rw [BundleRecord.verifyHashes] at h
  split at h
  · cases h
  · rename_i heq
    exact (not_not.mp heq).symm

theorem findByHash_mem {hash : Hash} {cps : List CheckpointRecord} {cp : CheckpointRecord}
    (h : ProofBundle.findByHash sha256 hash cps = .ok (some cp)) : cp ∈ cps := by
  induction cps with
  | nil => cases h
  | cons c cps ih =>
    rw [ProofBundle.findByHash] at h
    split at h
    · cases h
    split at h
    · cases h
      exact mem_cons_self
    · exact mem_cons_of_mem _ (ih h)

variable {proof : InclusionProof}

theorem findProofForRecord_some (h : bundle.findProofForRecord record = some proof) :
    proof.seq = record.seq ∧ proof.leafHash = record.recordHash :=
  of_decide_eq_true (find?_some h :)

variable {verifier : AccumulatorVerifier}

/-- **One record**: its bytes are what is hashed, and a checkpoint that covers it has a
root to which its proof leads. -/
theorem verifyRecord_ok (h : bundle.verifyRecord sha256 verifier record = .ok ()) :
    record.recordHash = sha256 record.canonicalRecordBytes ∧
    ∃ proof cp, bundle.findProofForRecord record = some proof ∧ cp ∈ bundle.checkpoints ∧
      cp.coversSeq record.seq = true ∧
      verifier cp.accumulatorKind cp.accumulatorRoot record.recordHash record.seq proof.pathBytes =
        true := by
  rw [ProofBundle.verifyRecord] at h
  split at h
  · cases h
  rename_i hhashes
  split at h
  · cases h
  rename_i proof hproof
  split at h
  · cases h
  split at h
  · cases h
  · cases h
  rename_i cp hcp
  split at h
  · cases h
  rename_i hcovers
  split at h
  · cases h
  rename_i haccept
  obtain ⟨hseq, hleaf⟩ := findProofForRecord_some hproof
  rw [hseq, hleaf] at haccept
  exact ⟨record.verifyHashes_ok hhashes, proof, cp, hproof, findByHash_mem hcp,
    by simpa using hcovers, by simpa using haccept⟩

theorem verifyRecords_ok (h : bundle.verifyRecords sha256 verifier records = .ok ()) :
    ∀ record ∈ records, bundle.verifyRecord sha256 verifier record = .ok () := by
  induction records with
  | nil => simp
  | cons record records ih =>
    rw [ProofBundle.verifyRecords] at h
    split at h
    · cases h
    rename_i hrecord
    intro r hr
    rcases mem_cons.mp hr with rfl | hr
    · exact hrecord
    · exact ih h r hr

/-- A path that is accepted for a record commits the root to it. -/
theorem verifyMmrAccumulator_commits {kind : Checkpoint.AccumulatorKind} {root : Hash}
    (hproof : bundle.findProofForRecord record = some proof)
    (h : verifyMmrAccumulator sha256 kind root record.recordHash record.seq proof.pathBytes = true) :
    kind = .mmrSha256V1 ∧ 0 < record.seq ∧
      CommitsTo sha256 root (bundle.inclusionInputs sha256 record) record.seq
        record.recordHash := by
  rw [verifyMmrAccumulator] at h
  split at h
  · cases h
  rename_i hkind
  split at h
  · cases h
  rename_i hzero
  split at h
  · cases h
  rename_i path hpath
  split at h
  · cases h
  rename_i hindex
  have hpos : 0 < record.seq := by
    rw [UInt64.lt_iff_toNat_lt]
    exact Nat.pos_of_ne_zero (fun he => hzero (UInt64.toNat_inj.mp he))
  have hone : 1 ≤ record.seq := by
    rw [UInt64.lt_iff_toNat_lt] at hpos
    rw [UInt64.le_iff_toNat_le, UInt64.toNat_one]
    exact hpos
  refine ⟨not_not.mp hkind, hpos, ?_⟩
  intro alloc leaves acc hrun hroot hfree
  have hleaf := (findProofForRecord_some hproof).2
  have hinputs : bundle.inclusionInputs sha256 record =
      verifierInputs sha256 path record.recordHash.bytes := by
    rw [ProofBundle.inclusionInputs, hproof]
    simp only [hpath, hleaf]
  rw [hinputs] at hfree
  rw [← hroot] at h
  obtain ⟨-, hi, heq⟩ := Mmr.verifyInclusion_sound hrun path record.recordHash.bytes hfree h
  -- the index in the proof is the one of the record's number
  have hnum : path.leafIndex.toNat = record.seq.toNat - 1 := by
    rw [not_not.mp hindex, UInt64.toNat_sub_of_le _ _ hone, UInt64.toNat_one]
  rw [← hnum, heq]
  exact getElem?_eq_getElem hi

/-! ## The bundle -/

theorem verify_ok (h : bundle.verify sha256 ed25519 verifier = .ok ()) :
    bundle.validateShape = .ok () ∧
      (∀ cp ∈ bundle.checkpoints, cp.logId = bundle.logId ∧ cp.Signed ed25519) ∧
      ∀ record ∈ bundle.records, bundle.verifyRecord sha256 verifier record = .ok () := by
  rw [ProofBundle.verify] at h
  split at h
  · cases h
  rename_i hshape
  split at h
  · cases h
  rename_i hchain
  split at h
  · cases h
  rename_i hlogs
  refine ⟨hshape, fun cp hcp => ⟨?_, (Checkpoint.verifyIncludedCheckpointChain_ok hchain cp hcp).2⟩,
    verifyRecords_ok h⟩
  simp only [ne_eq, decide_not, any_eq_true, Bool.not_eq_true', decide_eq_false_iff_not,
    not_exists, not_and, not_not] at hlogs
  exact hlogs cp hcp

/-- **Soundness of a bundle.** -/
theorem verifyAppendLogMmrBundle_sound {info : BundleInfo}
    (h : verifyAppendLogMmrBundle sha256 ed25519 bundle = .ok info) :
    ∃ views, Sound sha256 ed25519 bundle views := by
  rw [verifyAppendLogMmrBundle] at h
  split at h
  · cases h
  rename_i hrecords
  split at h
  · cases h
  rename_i hverify
  obtain ⟨hshape, hsigned, hincluded⟩ := verify_ok hverify
  obtain ⟨-, hne, -, hconsecutive⟩ := validateShape_ok hshape
  rw [verifyAppendLogRecords, hshape] at hrecords
  simp only [] at hrecords
  split at hrecords
  · rename_i hnil
    exact absurd hnil hne
  obtain ⟨views, hdecoded, hlog, hnumbered, hlinked, -⟩ := verifyAppendLogRecordsFrom_ok hrecords
  refine ⟨views, hdecoded, fun record hr => (verifyRecord_ok (hincluded record hr)).1, hlog,
    hnumbered, hconsecutive, hlinked, ?_⟩
  intro record hr
  obtain ⟨-, proof, cp, hproof, hcp, hcovers, haccept⟩ := verifyRecord_ok (hincluded record hr)
  obtain ⟨hkind, hpos, hcommits⟩ := verifyMmrAccumulator_commits hproof haccept
  obtain ⟨hlogId, hsig⟩ := hsigned cp hcp
  exact ⟨hpos, cp, hcp, hlogId, hcovers, hkind, hsig, hcommits⟩

/-- **Soundness of the bytes of a bundle.** -/
theorem verifyEncoded_sound {bytes : Bytes} {info : BundleInfo}
    (h : verifyEncodedAppendLogMmrBundle sha256 ed25519 bytes = .ok info) :
    ∃ bundle views, decodeCanonical bytes = .ok bundle ∧ Sound sha256 ed25519 bundle views := by
  rw [verifyEncodedAppendLogMmrBundle] at h
  split at h
  · cases h
  rename_i decoded hdecoded
  obtain ⟨views, hsound⟩ := verifyAppendLogMmrBundle_sound h
  exact ⟨decoded, views, hdecoded, hsound⟩

/-! ## A bundle of two events, with its signature -/

def samplePublicKey : Bytes :=
  [215, 90, 152, 1, 130, 177, 10, 183, 213, 75, 254, 211, 201, 100, 7, 58, 14, 225, 114, 243, 218,
    166, 35, 37, 175, 2, 26, 104, 247, 7, 81, 26]

def sampleSignature : Signature where
  bytes := [22, 81, 129, 93, 242, 82, 133, 8, 70, 112, 235, 169, 200, 186, 160, 17, 243, 150, 111,
    103, 178, 248, 31, 47, 166, 23, 181, 181, 35, 230, 0, 62, 46, 93, 251, 76, 52, 136, 25, 123,
    176, 33, 88, 10, 58, 137, 228, 153, 217, 73, 31, 53, 187, 118, 132, 70, 162, 219, 187, 159,
    239, 84, 195, 2]
  size_eq := rfl

/-- The events of the log `"t"`. -/
def firstSealed : AppendLog.EncodedEnvelope :=
  AppendLog.sealEnvelope sha256Digest ⟨ascii "t", 1, AppendLog.zeroHash, 5, ascii "a", []⟩

def secondSealed : AppendLog.EncodedEnvelope :=
  AppendLog.sealEnvelope sha256Digest ⟨ascii "t", 2, firstSealed.eventHash, 5, ascii "b", []⟩

def sampleRecord (seq : UInt64) (event : AppendLog.EncodedEnvelope) : BundleRecord :=
  ⟨seq, event.envelope, sha256Digest event.envelope, none, none, []⟩

def sampleRecords : List BundleRecord := [sampleRecord 1 firstSealed, sampleRecord 2 secondSealed]

def sampleAccumulator : Accumulator :=
  (appendLeaves sha256Digest (fun _ => true) .init (sampleRecords.map (·.recordHash.bytes))).2

def sampleCheckpoint : CheckpointRecord :=
  ⟨1, ascii "t", 1, 2, .mmrSha256V1, sampleAccumulator.root sha256Digest, none, samplePublicKey,
    .ed25519, sampleSignature, 10, 11, []⟩

/-- Ed25519 on the one message and key at hand, whose signature it is. -/
def sampleEd25519 : Ed25519 where
  verify := fun publicKey message signature => decide (publicKey = samplePublicKey ∧
    message = sampleCheckpoint.signingPayload ∧ signature = sampleSignature)
  sign := fun _ message =>
    if message = sampleCheckpoint.signingPayload then some sampleSignature else none

/-- Each path has the leaf of the other record. -/
def sampleProof (record : BundleRecord) : InclusionProof :=
  ⟨record.seq, record.recordHash, sha256Digest sampleCheckpoint.canonicalBytes,
    ((sampleAccumulator.prove (record.seq - 1)).bind Mmr.encodeInclusionProof).toOption.getD [], []⟩

def sampleBundle : ProofBundle :=
  ⟨1, .range, ascii "t", sampleRecords, sampleRecords.map sampleProof, [sampleCheckpoint], []⟩

def sampleBytes : Bytes := (encodeCanonical sampleBundle).toOption.getD []

theorem verifyEncoded_sound_sample :
    ∃ bundle views, decodeCanonical sampleBytes = .ok bundle ∧
      Sound sha256Digest sampleEd25519 bundle views := by
  have hok : (verifyEncodedAppendLogMmrBundle sha256Digest sampleEd25519 sampleBytes).isOk = true := by
    simp only [sampleEd25519, sampleBytes, sampleBundle, sampleProof, sampleCheckpoint,
      sampleAccumulator, sampleRecords, sampleRecord, secondSealed, firstSealed, map_cons, map_nil,
      Mmr.sha256Digest_eq_eval]
    decide +kernel
  generalize hrun : verifyEncodedAppendLogMmrBundle sha256Digest sampleEd25519 sampleBytes = result
    at hok
  obtain e | info := result
  · cases hok
  · exact verifyEncoded_sound hrun

end Bundle
end WormDB
