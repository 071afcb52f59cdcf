import WormDB.AppendLogCodec
import WormDB.MmrInclusion
import Mathlib.Data.List.Induction

/-! # The chain of events

The requests that were appended, in order, determine the log: each becomes the
event after the state of those before it (`inputs`), and the state after all of
them is `stateOf`.  The peaks kept in a state are those of the accumulator over
the event records (`stateOf_mmr`), and the verifier accepts the stored events and
ends in that state (`rebuildEntries_events`), so that a rebuild and a step by
step computation agree. -/
namespace WormDB
open List ByteCodec
namespace AppendLog
open Mmr (Peak Mountain Accumulator Represents appendLeaves rootFromPeaks peaksAreCanonical
  proofMaxPeaks maxU64)

section Chain
variable (sha256 : Bytes → Hash) (logId : Bytes)

/-- The state of a log without events. -/
def emptyState : AccumulatorState := ⟨[], 0, 0, zeroHash, rootFromPeaks sha256 0 []⟩

/-- The state after one more event. -/
def extend (tail : AccumulatorState) (req : Request) : AccumulatorState :=
  let encoded := sealEnvelope sha256 (req.input logId tail)
  let peaks := appendLeafToPeaks sha256 tail.peaks tail.lastSeq (sha256 encoded.envelope).bytes
  ⟨peaks, tail.lastSeq + 1, req.ingestTimeMs, encoded.eventHash,
    rootFromPeaks sha256 (tail.lastSeq + 1) peaks⟩

def stateOf (es : List Request) : AccumulatorState :=
  es.foldl (extend sha256 logId) (emptyState sha256)

/-- The events the requests become after `tail`. -/
def inputsFrom (tail : AccumulatorState) : List Request → List EventInput
  | [] => []
  | req :: reqs => req.input logId tail :: inputsFrom (extend sha256 logId tail req) reqs

def inputs (es : List Request) : List EventInput := inputsFrom sha256 logId (emptyState sha256) es

/-- What the mountain range has for an event: the hash of its record. -/
def EventInput.leaf (input : EventInput) : Bytes :=
  (sha256 (sealEnvelope sha256 input).envelope).bytes

def leaves (es : List Request) : List Bytes :=
  (inputs sha256 logId es).map (EventInput.leaf sha256)

/-- The stored form of an event. -/
def EventInput.entry (input : EventInput) : Bytes × Content :=
  (eventKey sha256 input.logId input.seq,
    ⟨(sealEnvelope sha256 input).envelope, input.ingestTimeMs, true⟩)

def eventEntries (es : List Request) : List (Bytes × Content) :=
  (inputs sha256 logId es).map (EventInput.entry sha256)

end Chain

variable {sha256 : Bytes → Hash} {logId : Bytes}

theorem stateOf_concat (es : List Request) (req : Request) :
    stateOf sha256 logId (es ++ [req]) = extend sha256 logId (stateOf sha256 logId es) req := by
  rw [stateOf, foldl_concat, stateOf]

theorem inputsFrom_concat (tail : AccumulatorState) (es : List Request) (req : Request) :
    inputsFrom sha256 logId tail (es ++ [req]) =
      inputsFrom sha256 logId tail es ++
        [req.input logId (es.foldl (extend sha256 logId) tail)] := by
  induction es generalizing tail with
  | nil => rfl
  | cons e es ih =>
    rw [cons_append, inputsFrom, ih, inputsFrom, cons_append, foldl_cons]

theorem inputs_concat (es : List Request) (req : Request) :
    inputs sha256 logId (es ++ [req]) =
      inputs sha256 logId es ++ [req.input logId (stateOf sha256 logId es)] :=
  inputsFrom_concat _ es req

theorem inputsFrom_take (tail : AccumulatorState) (es : List Request) (i : Nat) :
    inputsFrom sha256 logId tail (es.take i) = (inputsFrom sha256 logId tail es).take i := by
  induction es generalizing tail i with
  | nil => simp [inputsFrom]
  | cons e es ih =>
    cases i with
    | zero => rfl
    | succ i => rw [take_succ_cons, inputsFrom, ih, inputsFrom, take_succ_cons]

theorem inputs_take (es : List Request) (i : Nat) :
    inputs sha256 logId (es.take i) = (inputs sha256 logId es).take i :=
  inputsFrom_take _ es i

theorem inputs_length (es : List Request) : (inputs sha256 logId es).length = es.length := by
  induction es using List.reverseRecOn with
  | nil => rfl
  | append_singleton es req ih => rw [inputs_concat, length_append, ih]; simp

theorem leaves_length (es : List Request) : (leaves sha256 logId es).length = es.length := by
  rw [leaves, length_map, inputs_length]

theorem leaves_concat (es : List Request) (req : Request) :
    leaves sha256 logId (es ++ [req]) = leaves sha256 logId es ++
      [(req.input logId (stateOf sha256 logId es)).leaf sha256] := by
  rw [leaves, inputs_concat, map_append, leaves, map_singleton]

theorem eventEntries_concat (es : List Request) (req : Request) :
    eventEntries sha256 logId (es ++ [req]) = eventEntries sha256 logId es ++
      [(req.input logId (stateOf sha256 logId es)).entry sha256] := by
  rw [eventEntries, inputs_concat, map_append, eventEntries, map_singleton]

/-! ## The peaks -/

variable {alloc : Accumulator.AllocSite → Bool}

/-- The two carry loops do the same to the peaks. -/
theorem carryPeaks_mergePeaks {ms rest : List Mountain}
    {carry last : Mountain} {nodes nodes' : Nat → Option Hash}
    (h : Accumulator.mergePeaks sha256 alloc ms carry nodes = (.ok last, rest, nodes')) :
    carryPeaks sha256 (ms.map Mountain.toPeak) carry.toPeak =
      last.toPeak :: rest.map Mountain.toPeak := by
  induction ms generalizing carry nodes with
  | nil =>
    rw [Accumulator.mergePeaks] at h
    cases h
    rfl
  | cons left ms ih =>
    rw [Accumulator.mergePeaks] at h
    rw [map_cons, carryPeaks]
    by_cases hheight : left.height = carry.height
    · rw [if_neg (not_not_intro hheight)] at h
      rw [Mmr.toPeak_height, Mmr.toPeak_height, if_neg (not_not_intro hheight)]
      split at h
      · cases h
      · simp only at h
        split at h
        · exact ih h
        · cases h
    · rw [if_pos hheight] at h
      rw [Mmr.toPeak_height, Mmr.toPeak_height, if_pos hheight]
      cases h
      rfl

variable {acc acc' : Accumulator}

theorem appendLeafToPeaks_append
    {leaf : Bytes} {root : Hash} (h : acc.append sha256 alloc leaf = (.ok root, acc')) :
    appendLeafToPeaks sha256 acc.copyPeaks acc.leafCount leaf = acc'.copyPeaks ∧
      acc'.leafCount = acc.leafCount + 1 := by
  rw [Accumulator.append] at h
  split at h
  · cases h
  simp only at h
  split at h
  · split at h
    · cases h
    · rename_i last rest nodes hmerge
      split at h
      · cases h
        have hcarry := carryPeaks_mergePeaks hmerge
        rw [map_reverse] at hcarry
        refine ⟨?_, rfl⟩
        rw [appendLeafToPeaks, Mmr.copyPeaks_eq]
        exact (congrArg List.reverse hcarry).trans (by simp [Mmr.copyPeaks_eq])
      · cases h
  · cases h

theorem appendLeaves_append
    {xs : List Bytes} (h : appendLeaves sha256 alloc acc xs = (.ok (), acc')) (ys : List Bytes) :
    appendLeaves sha256 alloc acc (xs ++ ys) = appendLeaves sha256 alloc acc' ys := by
  induction xs generalizing acc with
  | nil =>
    cases h
    rfl
  | cons x xs ih =>
    rw [appendLeaves] at h
    rw [cons_append, appendLeaves]
    generalize acc.append sha256 alloc x = appended at h ⊢
    obtain ⟨e | root, acc₁⟩ := appended
    · cases h
    · exact ih h

variable (sha256 logId) in
/-- **A state is the accumulator over the records of its events.** -/
theorem stateOf_mmr {es : List Request} (hlen : es.length ≤ maxU64) :
    ∃ acc, appendLeaves sha256 (fun _ => true) .init (leaves sha256 logId es) = (.ok (), acc) ∧
      Represents sha256 (leaves sha256 logId es) acc ∧
      (stateOf sha256 logId es).peaks = acc.copyPeaks ∧
      (stateOf sha256 logId es).lastSeq = acc.leafCount ∧
      (stateOf sha256 logId es).accumulatorRoot = acc.root sha256 := by
  induction es using List.reverseRecOn with
  | nil =>
    refine ⟨.init, rfl, Mmr.init_represents, rfl, rfl, ?_⟩
    rw [Mmr.root_eq]
    rfl
  | append_singleton es req ih =>
    rw [length_append, length_singleton] at hlen
    obtain ⟨acc, hrun, hrep, hpeaks, hseq, -⟩ := ih (by omega)
    rw [leaves_concat, stateOf_concat, appendLeaves_append hrun]
    generalize hleaf : (req.input logId (stateOf sha256 logId es)).leaf sha256 = leaf
    have hstep := Mmr.append_represents (fun _ => true) hrep leaf
    rw [appendLeaves]
    generalize hadd : acc.append sha256 (fun _ => true) leaf = added at hstep ⊢
    obtain ⟨e | root, acc'⟩ := added
    · rcases hstep with ⟨-, hmax⟩ | ⟨-, site, hsite⟩
      · rw [leaves_length] at hmax
        omega
      · cases hsite
    · obtain ⟨hcarry, hcount⟩ := appendLeafToPeaks_append hadd
      have hnext : (extend sha256 logId (stateOf sha256 logId es) req).peaks = acc'.copyPeaks := by
        rw [← hcarry, ← hpeaks, ← hseq, ← hleaf]
        rfl
      have hnextseq : (extend sha256 logId (stateOf sha256 logId es) req).lastSeq =
          acc'.leafCount := by
        rw [hcount, ← hseq]
        rfl
      refine ⟨acc', rfl, hstep.2, hnext, hnextseq, ?_⟩
      rw [Mmr.root_eq, ← hnext, ← hnextseq]
      rfl

variable (sha256 logId) in
theorem stateOf_lastSeq {es : List Request} (hlen : es.length ≤ maxU64) :
    (stateOf sha256 logId es).lastSeq.toNat = es.length := by
  obtain ⟨acc, -, hrep, -, hseq, -⟩ := stateOf_mmr sha256 logId hlen
  rw [hseq, hrep.count, leaves_length]

variable {es : List Request}

theorem stateOf_canonical (hlen : es.length ≤ maxU64) :
    peaksAreCanonical (stateOf sha256 logId es).lastSeq (stateOf sha256 logId es).peaks = true := by
  obtain ⟨acc, -, hrep, hpeaks, hseq, -⟩ := stateOf_mmr sha256 logId hlen
  rw [hseq, hpeaks]
  exact hrep.canonical

theorem stateOf_peaks_le (hlen : es.length ≤ maxU64) :
    (stateOf sha256 logId es).peaks.length ≤ proofMaxPeaks := by
  obtain ⟨acc, -, hrep, hpeaks, -⟩ := stateOf_mmr sha256 logId hlen
  have hlt : (leaves sha256 logId es).length < 2 ^ 64 := hrep.count ▸ acc.leafCount.toNat_lt
  rw [hpeaks, Mmr.copyPeaks_eq, length_map]
  exact Mmr.descending_length_le hrep.descending (Mmr.tiles_height_lt hrep.tiles hlt)

theorem stateOf_root (es : List Request) :
    rootFromPeaks sha256 (stateOf sha256 logId es).lastSeq (stateOf sha256 logId es).peaks =
      (stateOf sha256 logId es).accumulatorRoot := by
  induction es using List.reverseRecOn with
  | nil => rfl
  | append_singleton es req _ =>
    rw [stateOf_concat]
    rfl

/-! ## The verifier -/

variable (sha256 logId) in
/-- Where the verifier stands after the events. -/
structure Follows (es : List Request) (verifier : Verifier) : Prop where
  logId_eq : verifier.logId = logId
  expected : es.length < maxU64 → verifier.expectedSeq.toNat = es.length + 1
  previous : verifier.previousHash = (stateOf sha256 logId es).headHash
  count : verifier.count = es.length
  last : verifier.lastSeq = (stateOf sha256 logId es).lastSeq

theorem init_follows : Follows sha256 logId [] (.init logId) :=
  ⟨rfl, fun _ => rfl, rfl, rfl, rfl⟩

theorem toNat_succ {n : UInt64} (h : n.toNat < maxU64) : (n + 1).toNat = n.toNat + 1 := by
  rw [maxU64] at h
  rw [UInt64.toNat_add]
  simp only [UInt64.toNat_one]
  omega

variable {verifier : Verifier}

theorem Follows.accept
    (h : Follows sha256 logId es verifier) (hlen : es.length < maxU64) (req : Request) :
    ∃ next, verifier.accept sha256 ((req.input logId (stateOf sha256 logId es)).view sha256) =
        .ok next ∧ Follows sha256 logId (es ++ [req]) next := by
  have hseq := stateOf_lastSeq sha256 logId (Nat.le_of_lt hlen)
  have hnext := toNat_succ (hseq ▸ hlen)
  have hexpected : (stateOf sha256 logId es).lastSeq + 1 = verifier.expectedSeq :=
    UInt64.toNat_inj.mp (by rw [hnext, hseq, h.expected hlen])
  have hverify : verifyEnvelope sha256 verifier.logId
      ((req.input logId (stateOf sha256 logId es)).view sha256) = .ok () := by
    rw [h.logId_eq]
    exact verifyEnvelope_view (req.input logId (stateOf sha256 logId es))
  rw [Verifier.accept, hverify]
  simp only [EventInput.view, Request.input, hexpected, h.previous, UInt64.lt_irrefl, gt_iff_lt,
    if_false, ne_eq, not_true_eq_false]
  refine ⟨_, rfl, h.logId_eq, ?_, ?_, ?_, ?_⟩
  · intro hlt
    rw [length_append, length_singleton] at hlt ⊢
    have hne : ¬ verifier.expectedSeq.toNat = maxU64 := by
      rw [h.expected hlen]
      omega
    simp only [hne, not_false_eq_true, if_true]
    rw [toNat_succ (by rw [h.expected hlen]; omega), h.expected hlen]
  · rw [stateOf_concat, extend, ← hexpected]
    rfl
  · rw [length_append, length_singleton, h.count]
  · rw [stateOf_concat, extend, hexpected]

/-- **One stored event**: the checks on it pass. -/
theorem Follows.acceptStored
    (h : Follows sha256 logId es verifier) (hlen : es.length < maxU64) {req : Request}
    (hfits : (req.input logId (stateOf sha256 logId es)).Fits) :
    ∃ next, acceptStored sha256 (eventKeyPrefix sha256 logId) verifier
        ((req.input logId (stateOf sha256 logId es)).entry sha256) =
          .ok (next, (req.input logId (stateOf sha256 logId es)).view sha256) ∧
      Follows sha256 logId (es ++ [req]) next := by
  obtain ⟨next, haccept, hfollows⟩ := h.accept hlen req
  refine ⟨next, ?_, hfollows⟩
  generalize hinput : req.input logId (stateOf sha256 logId es) = input at *
  have hlog : input.logId = logId := by rw [← hinput]; rfl
  have hkey : seqFromEventKey (eventKeyPrefix sha256 logId) (eventKey sha256 input.logId input.seq) =
      .ok input.seq := by
    rw [hlog]
    exact seqFromKey_append _ _
  have hview : (input.view sha256).seq = input.seq ∧
      (input.view sha256).ingestTimeMs = input.ingestTimeMs := ⟨rfl, rfl⟩
  rw [AppendLog.acceptStored, EventInput.entry]
  simp only [Bool.not_true, Bool.false_eq_true, if_false, hkey, decodeEnvelope_seal hfits, hview,
    ne_eq, not_true_eq_false, haccept]

variable {pre : Bytes}

theorem rebuildEntries_append (xs ys : List (Bytes × Content))
    (verifier : Verifier) (peaks : List Peak) (time : UInt64) :
    rebuildEntries sha256 pre verifier peaks time (xs ++ ys) =
      match rebuildEntries sha256 pre verifier peaks time xs with
      | .error e => .error e
      | .ok (verifier, peaks, time) => rebuildEntries sha256 pre verifier peaks time ys := by
  induction xs generalizing verifier peaks time with
  | nil => rfl
  | cons x xs ih =>
    rw [cons_append, rebuildEntries, rebuildEntries]
    generalize acceptStored sha256 pre verifier x = accepted
    obtain e | ⟨next, view⟩ := accepted
    · rfl
    · exact ih _ _ _

/-- **All stored events**: the rebuild ends in the state of the requests. -/
theorem rebuildEntries_events (hlen : es.length ≤ maxU64)
    (hfits : ∀ input ∈ inputs sha256 logId es, input.Fits) :
    ∃ verifier, rebuildEntries sha256 (eventKeyPrefix sha256 logId) (.init logId) [] 0
        (eventEntries sha256 logId es) = .ok (verifier, (stateOf sha256 logId es).peaks,
          (stateOf sha256 logId es).lastIngestTimeMs) ∧ Follows sha256 logId es verifier := by
  induction es using List.reverseRecOn with
  | nil => exact ⟨_, rfl, init_follows⟩
  | append_singleton es req ih =>
    rw [length_append, length_singleton] at hlen
    rw [inputs_concat] at hfits
    obtain ⟨verifier, hrun, hfollows⟩ :=
      ih (by omega) (fun input hin => hfits input (mem_append_left _ hin))
    obtain ⟨next, haccept, hnext⟩ := hfollows.acceptStored (by omega)
      (hfits _ (mem_append_right _ (mem_singleton_self _)))
    refine ⟨next, ?_, hnext⟩
    have hindex : (stateOf sha256 logId es).lastSeq + 1 - 1 = (stateOf sha256 logId es).lastSeq :=
      UInt64.add_sub_cancel _ _
    rw [eventEntries_concat, rebuildEntries_append, hrun]
    simp only [rebuildEntries, haccept]
    simp only [stateOf_concat, extend, EventInput.view, EventInput.entry, Request.input, hindex]

/-- The verification loop is the rebuild loop without its peaks. -/
theorem verifyEntries_rebuildEntries {entries : List (Bytes × Content)}
    {last : Verifier} {peaks peaks' : List Peak} {time time' : UInt64}
    (h : rebuildEntries sha256 pre verifier peaks time entries = .ok (last, peaks', time')) :
    verifyEntries sha256 pre verifier entries = .ok last := by
  induction entries generalizing verifier peaks time with
  | nil =>
    cases h
    rfl
  | cons entry entries ih =>
    rw [rebuildEntries] at h
    rw [verifyEntries]
    generalize acceptStored sha256 pre verifier entry = accepted at h ⊢
    obtain e | ⟨next, view⟩ := accepted
    · cases h
    · exact ih h

end AppendLog
end WormDB
