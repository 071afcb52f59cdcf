import WormDB.AppendLogStore
import WormDB.MmrSoundness

/-! # Three ways to one root

The peaks over a log's records are computed by folding the records into a state,
by a rebuild from the stored events, and by `buildMmrRoot`, which appends the record
hashes to a fresh accumulator.  Over any list of records the state mirrors the
accumulator (`advanceAll_mirrors`); over the events of a store that passes
verification the rebuild is the fold (`rebuildEntries_advanceAll`) and the third way
appends the hashes of the records up to the number asked for
(`buildMmrRootLoop_appendLeaves`). -/
namespace WormDB
open List ByteCodec PrefixMap
namespace AppendLog
open Mmr (Peak Accumulator Represents appendLeaves rootFromPeaks peaksAreCanonical proofMaxPeaks
  maxU64)

/-- What a record adds to a state. -/
structure EventRecord where
  recordHash : Hash
  eventHash : Hash
  ingestTimeMs : UInt64

structure MmrRootData where
  leafCount : UInt64
  root : Hash

inductive MmrRootError where
  | log (e : Error)
  | mmr (e : Mmr.Error)
  | sequenceNotFound

section
variable (sha256 : Bytes → Hash)

/-- The state after one more record. -/
def advanced (state : AccumulatorState) (record : EventRecord) : AccumulatorState :=
  let peaks := appendLeafToPeaks sha256 state.peaks state.lastSeq record.recordHash.bytes
  ⟨peaks, state.lastSeq + 1, record.ingestTimeMs, record.eventHash,
    rootFromPeaks sha256 (state.lastSeq + 1) peaks⟩

def advanceAll (state : AccumulatorState) : List EventRecord → Except Error AccumulatorState
  | [] => .ok state
  | record :: records =>
      match advanceAccumulatorState sha256 state record.recordHash record.eventHash
          record.ingestTimeMs with
      | .error e => .error e
      | .ok next => advanceAll next records

/-- The record of a stored event that decodes. -/
def recordOf (entry : Bytes × Content) : Option EventRecord :=
  match decodeEnvelope entry.2.value with
  | .error _ => none
  | .ok view => some ⟨sha256 entry.2.value, view.eventHash, entry.2.timestamp⟩

def eventRecords (kv : Kv) (logId : Bytes) : List EventRecord :=
  (kv.scanPrefix (eventKeyPrefix sha256 logId) 0).filterMap (recordOf sha256)

/-- The scan of `buildMmrRoot`, which stops after the number. -/
def buildMmrRootLoop (toSeq : UInt64) :
    Accumulator → List (Bytes × Content) → Except MmrRootError Accumulator
  | acc, [] => .ok acc
  | acc, entry :: entries =>
      match decodeEnvelope entry.2.value with
      | .error e => .error (.log e)
      | .ok view =>
          if view.seq > toSeq then .ok acc
          else
            match acc.append sha256 (fun _ => true) (sha256 entry.2.value).bytes with
            | (.error e, _) => .error (.mmr e)
            | (.ok _, acc) => buildMmrRootLoop toSeq acc entries

def buildMmrRoot (kv : Kv) (logId : Bytes) (toSeq : UInt64) : Except MmrRootError MmrRootData :=
  match buildMmrRootLoop sha256 toSeq .init (kv.scanPrefix (eventKeyPrefix sha256 logId) 0) with
  | .error e => .error e
  | .ok acc =>
      if acc.leafCount < toSeq then .error .sequenceNotFound
      else .ok ⟨acc.leafCount, acc.root sha256⟩

/-- What the mountain range has for a record. -/
def EventRecord.leaf (record : EventRecord) : Bytes := record.recordHash.bytes

/-- The state has the peaks and the root of the accumulator over the leaves. -/
structure Mirrors (leaves : List Bytes) (acc : Accumulator) (state : AccumulatorState) : Prop where
  represents : Represents sha256 leaves acc
  peaks : state.peaks = acc.copyPeaks
  lastSeq : state.lastSeq = acc.leafCount
  root : state.accumulatorRoot = acc.root sha256

end

variable {sha256 : Bytes → Hash} {logId : Bytes}

/-! ## The fold -/

namespace Mirrors

variable {leaves : List Bytes} {acc : Accumulator} {state : AccumulatorState}

section
variable (h : Mirrors sha256 leaves acc state)
include h

theorem seq_toNat : state.lastSeq.toNat = leaves.length := by
  rw [h.lastSeq, h.represents.count]

theorem canonical : peaksAreCanonical state.lastSeq state.peaks = true := by
  rw [h.lastSeq, h.peaks]
  exact h.represents.canonical

theorem peaks_le : state.peaks.length ≤ proofMaxPeaks := by
  have hlt : leaves.length < 2 ^ 64 := h.represents.count ▸ acc.leafCount.toNat_lt
  rw [h.peaks, Mmr.copyPeaks_eq, length_map]
  exact Mmr.descending_length_le h.represents.descending
    (Mmr.tiles_height_lt h.represents.tiles hlt)

theorem encodes (hlog : logId.length ≤ maxU32) :
    encodeAccumulatorState logId state = .ok (stateBytes logId state) := by
  rw [encodeAccumulatorState, if_neg (Nat.not_lt.mpr hlog), if_neg (Nat.not_lt.mpr h.peaks_le)]

end

theorem init : Mirrors sha256 [] .init (emptyState sha256) where
  represents := Mmr.init_represents
  peaks := rfl
  lastSeq := rfl
  root := by rw [Mmr.root_eq]; rfl

/-- **One record**: both append its hash. -/
theorem advance (h : Mirrors sha256 leaves acc state) (hlen : leaves.length < maxU64)
    (record : EventRecord) :
    ∃ root acc', acc.append sha256 (fun _ => true) record.leaf = (.ok root, acc') ∧
      advanceAccumulatorState sha256 state record.recordHash record.eventHash
        record.ingestTimeMs = .ok (advanced sha256 state record) ∧
      Mirrors sha256 (leaves ++ [record.leaf]) acc' (advanced sha256 state record) := by
  have hstep := Mmr.append_represents (fun _ => true) h.represents record.leaf
  cases hadd : acc.append sha256 (fun _ => true) record.leaf with
  | mk result acc' =>
    rw [hadd] at hstep
    cases result with
    | error e =>
      rcases hstep with ⟨-, hmax⟩ | ⟨-, site, hsite⟩
      · omega
      · cases hsite
    | ok root =>
      obtain ⟨hcarry, hcount⟩ := appendLeafToPeaks_append hadd
      rw [← h.peaks, ← h.lastSeq] at hcarry
      rw [← h.lastSeq] at hcount
      have hroom : ¬ state.lastSeq.toNat = maxU64 := by
        rw [h.seq_toNat]
        omega
      refine ⟨root, acc', rfl, ?_, ⟨hstep.2, hcarry, hcount.symm, ?_⟩⟩
      · rw [advanceAccumulatorState, h.canonical]
        simp only [Bool.not_true, Bool.false_eq_true, if_false, hroom]
        rfl
      · rw [Mmr.root_eq, hcount, ← hcarry]
        rfl

/-- **The records**: after each of them the state mirrors the accumulator. -/
theorem advanceAll (h : Mirrors sha256 leaves acc state) (records : List EventRecord)
    (hlen : leaves.length + records.length ≤ maxU64) :
    ∃ acc' last, appendLeaves sha256 (fun _ => true) acc (records.map EventRecord.leaf) =
        (.ok (), acc') ∧
      AppendLog.advanceAll sha256 state records = .ok last ∧
      Mirrors sha256 (leaves ++ records.map EventRecord.leaf) acc' last := by
  induction records generalizing leaves acc state with
  | nil => exact ⟨acc, state, rfl, rfl, by rwa [map_nil, append_nil]⟩
  | cons record records ih =>
    rw [length_cons] at hlen
    obtain ⟨root, acc₁, hadd, hadvance, hmirrors⟩ := h.advance (by omega) record
    obtain ⟨acc', last, happend, hall, hlast⟩ := ih hmirrors (by
      rw [length_append, length_singleton]
      omega)
    refine ⟨acc', last, ?_, ?_, ?_⟩
    · rw [map_cons, appendLeaves, hadd]
      exact happend
    · rw [AppendLog.advanceAll, hadvance]
      exact hall
    · rwa [append_assoc, singleton_append] at hlast

end Mirrors

/-- **Folding records is appending their hashes.** -/
theorem advanceAll_mirrors {records : List EventRecord} (hlen : records.length ≤ maxU64) :
    ∃ acc state, appendLeaves sha256 (fun _ => true) .init (records.map EventRecord.leaf) =
        (.ok (), acc) ∧
      advanceAll sha256 (emptyState sha256) records = .ok state ∧
      Mirrors sha256 (records.map EventRecord.leaf) acc state :=
  Mirrors.init.advanceAll records (by rwa [length_nil, zero_add])

/-! ## Events that pass verification -/

variable {pre : Bytes} {verifier last : Verifier} {entry : Bytes × Content}
  {entries : List (Bytes × Content)} {k : Nat}

/-- The verifier after an event that it accepts. -/
def Verifier.after (self : Verifier) (view : EventView) : Verifier :=
  ⟨self.logId, if self.expectedSeq.toNat ≠ maxU64 then self.expectedSeq + 1 else self.expectedSeq,
    view.eventHash, self.count + 1, view.seq⟩

variable {next : Verifier} {view : EventView}

/-- What an accepted entry says. -/
theorem acceptStored_ok (h : acceptStored sha256 pre verifier entry = .ok (next, view)) :
    decodeEnvelope entry.2.value = .ok view ∧ view.seq = verifier.expectedSeq ∧
      seqFromEventKey pre entry.1 = .ok view.seq ∧ next = verifier.after view := by
  rw [acceptStored] at h
  split at h
  · cases h
  cases hkey : seqFromEventKey pre entry.1 with
  | error e => simp [hkey] at h
  | ok keySeq =>
    cases hdecode : decodeEnvelope entry.2.value with
    | error e => simp [hkey, hdecode] at h
    | ok seen =>
      simp only [hkey, hdecode] at h
      split at h
      · cases h
      rename_i hsame
      split at h
      · cases h
      split at h
      · cases h
      rename_i accepted haccept
      cases h
      rw [Verifier.accept] at haccept
      split at haccept
      · cases haccept
      split at haccept
      · cases haccept
      rename_i hreuse
      split at haccept
      · cases haccept
      rename_i hgap
      split at haccept
      · cases haccept
      cases haccept
      have hseq : view.seq = verifier.expectedSeq :=
        UInt64.le_antisymm (UInt64.not_lt.mp hgap) (UInt64.not_lt.mp hreuse)
      refine ⟨rfl, hseq, ?_, rfl⟩
      rw [← not_not.mp hsame]

/-- The number in an event's key determines the key. -/
theorem seqFromKey_inj {err : Error} {key key' : Bytes} {seq : UInt64}
    (h : seqFromKey err pre key = .ok seq) (h' : seqFromKey err pre key' = .ok seq) :
    key = key' := by
  have hform : ∀ {key : Bytes}, seqFromKey err pre key = .ok seq →
      key = pre ++ beBytes 8 seq.toNat := by
    intro key hkey
    rw [seqFromKey] at hkey
    split at hkey
    · cases hkey
    rename_i hlen
    split at hkey
    · cases hkey
    rename_i hpre
    cases hkey
    have hdrop : (key.drop pre.length).length = 8 := by
      rw [length_drop]
      omega
    have hlt : beNat (key.drop pre.length) < 2 ^ 64 := by
      have hbound := beNat_lt (key.drop pre.length)
      rw [hdrop] at hbound
      omega
    rw [Nat.toUInt64, UInt64.toNat_ofNat_of_lt' hlt, ← hdrop, beBytes_beNat]
    calc key = key.take pre.length ++ key.drop pre.length := (take_append_drop _ _).symm
      _ = pre ++ key.drop pre.length := by rw [not_not.mp hpre]
  rw [hform h, hform h']

/-- A log that is verified is verified from its first event on. -/
theorem verifyEntries_cons
    (h : verifyEntries sha256 pre verifier (entry :: entries) = .ok last) :
    ∃ next view, acceptStored sha256 pre verifier entry = .ok (next, view) ∧
      verifyEntries sha256 pre next entries = .ok last := by
  rw [verifyEntries] at h
  cases haccept : acceptStored sha256 pre verifier entry with
  | error e => simp [haccept] at h
  | ok accepted =>
    simp only [haccept] at h
    exact ⟨accepted.1, accepted.2, rfl, h⟩

/-- **The events of a store fit the numbers**: an event after the last number would
have the last one's key. -/
theorem verifyEntries_length (hkeys : (entries.map Prod.fst).Nodup)
    (hnext : verifier.expectedSeq.toNat = k + 1)
    (h : verifyEntries sha256 pre verifier entries = .ok last) : k + entries.length ≤ maxU64 := by
  induction entries generalizing verifier k with
  | nil =>
    have hlt := verifier.expectedSeq.toNat_lt
    rw [length_nil, maxU64]
    omega
  | cons entry entries ih =>
    obtain ⟨next, view, haccept, h⟩ := verifyEntries_cons h
    obtain ⟨-, hseq, hkey, rfl⟩ := acceptStored_ok haccept
    obtain ⟨hnew, hrest⟩ := nodup_cons.mp hkeys
    by_cases hmax : verifier.expectedSeq.toNat = maxU64
    · -- the last number: there is no event after it
      cases entries with
      | nil =>
        rw [length_singleton]
        omega
      | cons entry' entries =>
        exfalso
        obtain ⟨next', view', haccept', -⟩ := verifyEntries_cons h
        obtain ⟨-, hseq', hkey', -⟩ := acceptStored_ok haccept'
        rw [Verifier.after, if_neg (not_not_intro hmax)] at hseq'
        rw [hseq', ← hseq] at hkey'
        refine hnew ?_
        rw [seqFromKey_inj hkey hkey']
        exact mem_cons_self
    · have hlt : verifier.expectedSeq.toNat < maxU64 := by
        have := verifier.expectedSeq.toNat_lt
        rw [maxU64] at hmax ⊢
        omega
      have hnext' : (verifier.after view).expectedSeq.toNat = k + 1 + 1 := by
        rw [Verifier.after, if_pos hmax, toNat_succ hlt, hnext]
      have hstep := ih hrest hnext' h
      rw [length_cons]
      omega

theorem verifyEntries_append {xs ys : List (Bytes × Content)}
    (h : verifyEntries sha256 pre verifier (xs ++ ys) = .ok last) :
    ∃ mid, verifyEntries sha256 pre verifier xs = .ok mid ∧
      verifyEntries sha256 pre mid ys = .ok last := by
  induction xs generalizing verifier with
  | nil => exact ⟨verifier, rfl, h⟩
  | cons entry xs ih =>
    obtain ⟨next, view, haccept, h⟩ := verifyEntries_cons h
    rw [verifyEntries, haccept]
    exact ih h

/-- An accepted event has a record. -/
theorem recordOf_accepted (h : acceptStored sha256 pre verifier entry = .ok (next, view)) :
    recordOf sha256 entry = some ⟨sha256 entry.2.value, view.eventHash, entry.2.timestamp⟩ := by
  rw [recordOf, (acceptStored_ok h).1]

theorem recordOf_isSome (h : verifyEntries sha256 pre verifier entries = .ok last) :
    ∀ entry ∈ entries, (recordOf sha256 entry).isSome = true := by
  induction entries generalizing verifier with
  | nil =>
    intro entry hentry
    cases hentry
  | cons first entries ih =>
    obtain ⟨next, view, haccept, h⟩ := verifyEntries_cons h
    intro entry hentry
    rcases mem_cons.mp hentry with rfl | hrest
    · rw [recordOf_accepted haccept]
      rfl
    · exact ih h entry hrest

/-- A map that is defined on every element keeps the places. -/
theorem filterMap_take {α β : Type} {f : α → Option β} {xs : List α}
    (h : ∀ x ∈ xs, (f x).isSome = true) (n : Nat) :
    (xs.take n).filterMap f = (xs.filterMap f).take n := by
  induction xs generalizing n with
  | nil => rw [take_nil, filterMap_nil, take_nil]
  | cons x xs ih =>
    obtain ⟨y, hy⟩ := Option.isSome_iff_exists.mp (h x mem_cons_self)
    cases n with
    | zero => rfl
    | succ n =>
      rw [take_succ_cons, filterMap_cons_some hy, filterMap_cons_some hy,
        take_succ_cons, ih (fun z hz => h z (mem_cons_of_mem _ hz))]

/-- How far verifier and state are: `k` events. -/
structure InStep (k : Nat) (verifier : Verifier) (state : AccumulatorState) : Prop where
  expected : k < maxU64 → verifier.expectedSeq.toNat = k + 1
  seq : state.lastSeq.toNat = k
  last : verifier.lastSeq = state.lastSeq
  head : verifier.previousHash = state.headHash

variable {state : AccumulatorState}

theorem InStep.next_seq (h : InStep k verifier state)
    (hk : k < maxU64) : verifier.expectedSeq = state.lastSeq + 1 := by
  apply UInt64.toNat_inj.mp
  rw [h.expected hk, toNat_succ (h.seq ▸ hk), h.seq]

theorem InStep.accept (h : InStep k verifier state) (hk : k < maxU64)
    (haccept : acceptStored sha256 pre verifier entry = .ok (next, view)) :
    InStep (k + 1) next (advanced sha256 state
      ⟨sha256 entry.2.value, view.eventHash, entry.2.timestamp⟩) := by
  obtain ⟨-, hseq, -, rfl⟩ := acceptStored_ok haccept
  have hnext := h.next_seq hk
  refine ⟨?_, ?_, ?_, rfl⟩
  · intro hlt
    have hne : verifier.expectedSeq.toNat ≠ maxU64 := by
      rw [h.expected hk]
      omega
    rw [Verifier.after, if_pos hne, toNat_succ (by rw [h.expected hk]; omega), h.expected hk]
  · rw [advanced, toNat_succ (h.seq ▸ hk), h.seq]
  · exact hseq.trans hnext

variable {leaves : List Bytes} {acc : Accumulator}

/-- **The rebuild is the fold over the records.** -/
theorem rebuildEntries_advanceAll (h : verifyEntries sha256 pre verifier entries = .ok last)
    (hstep : InStep k verifier state) (hmirrors : Mirrors sha256 leaves acc state)
    (hlen : k + entries.length ≤ maxU64) :
    ∃ state', advanceAll sha256 state (entries.filterMap (recordOf sha256)) = .ok state' ∧
      rebuildEntries sha256 pre verifier state.peaks state.lastIngestTimeMs entries =
        .ok (last, state'.peaks, state'.lastIngestTimeMs) ∧
      last.lastSeq = state'.lastSeq ∧ last.previousHash = state'.headHash := by
  induction entries generalizing verifier state leaves acc k with
  | nil =>
    cases h
    exact ⟨state, rfl, rfl, hstep.last, hstep.head⟩
  | cons entry entries ih =>
    rw [length_cons] at hlen
    obtain ⟨next, view, haccept, h⟩ := verifyEntries_cons h
    have hk : k < maxU64 := by omega
    have hleaves : leaves.length < maxU64 := by
      rw [← hmirrors.seq_toNat, hstep.seq]
      exact hk
    obtain ⟨-, hseq, -, -⟩ := acceptStored_ok haccept
    have hindex : view.seq - 1 = state.lastSeq := by
      rw [hseq, hstep.next_seq hk, UInt64.add_sub_cancel]
    obtain ⟨root, acc', -, hadvance, hnext⟩ := hmirrors.advance hleaves
      ⟨sha256 entry.2.value, view.eventHash, entry.2.timestamp⟩
    obtain ⟨state', hall, hrebuild, hlast⟩ := ih h (hstep.accept hk haccept) hnext (by omega)
    refine ⟨state', ?_, ?_, hlast⟩
    · rw [filterMap_cons_some (recordOf_accepted haccept), advanceAll]
      simp only [hadvance]
      exact hall
    · rw [rebuildEntries, haccept]
      simp only [hindex]
      exact hrebuild

/-- **The scan of `buildMmrRoot`** appends the records up to the number. -/
theorem buildMmrRootLoop_appendLeaves (h : verifyEntries sha256 pre verifier entries = .ok last)
    (hstep : InStep k verifier state) (hmirrors : Mirrors sha256 leaves acc state)
    (hlen : k + entries.length ≤ maxU64) {toSeq : UInt64} (hto : k ≤ toSeq.toNat) :
    ∃ acc', buildMmrRootLoop sha256 toSeq acc entries = .ok acc' ∧
      appendLeaves sha256 (fun _ => true) acc
        (((entries.filterMap (recordOf sha256)).take (toSeq.toNat - k)).map EventRecord.leaf) =
          (.ok (), acc') := by
  induction entries generalizing verifier state leaves acc k with
  | nil =>
    refine ⟨acc, rfl, ?_⟩
    rw [filterMap_nil, take_nil]
    rfl
  | cons entry entries ih =>
    rw [length_cons] at hlen
    obtain ⟨next, view, haccept, h⟩ := verifyEntries_cons h
    have hk : k < maxU64 := by omega
    have hleaves : leaves.length < maxU64 := by
      rw [← hmirrors.seq_toNat, hstep.seq]
      exact hk
    obtain ⟨hdecode, hseq, -, -⟩ := acceptStored_ok haccept
    have hnum : view.seq.toNat = k + 1 := by
      rw [hseq, hstep.expected hk]
    rw [buildMmrRootLoop, hdecode]
    simp only
    by_cases hafter : view.seq > toSeq
    · -- the first record after the number
      rw [if_pos hafter]
      rw [gt_iff_lt, UInt64.lt_iff_toNat_lt] at hafter
      refine ⟨acc, rfl, ?_⟩
      rw [show toSeq.toNat - k = 0 by omega, take_zero]
      rfl
    · rw [if_neg hafter]
      rw [gt_iff_lt, UInt64.lt_iff_toNat_lt] at hafter
      obtain ⟨root, acc₁, hadd, -, hnext⟩ := hmirrors.advance hleaves
        ⟨sha256 entry.2.value, view.eventHash, entry.2.timestamp⟩
      obtain ⟨acc', hloop, happend⟩ := ih h (hstep.accept hk haccept) hnext (by omega) (by omega)
      refine ⟨acc', ?_, ?_⟩
      · rw [EventRecord.leaf] at hadd
        rw [hadd]
        exact hloop
      · rw [filterMap_cons_some (recordOf_accepted haccept),
          show toSeq.toNat - k = toSeq.toNat - (k + 1) + 1 by omega, take_succ_cons,
          map_cons, appendLeaves, hadd]
        exact happend

/-! ## Stores -/

theorem init_inStep : InStep 0 (.init logId) (emptyState sha256) :=
  ⟨fun _ => rfl, rfl, rfl, rfl⟩

theorem verifyEntries_count (h : verifyEntries sha256 pre verifier entries = .ok last) :
    last.count = verifier.count + entries.length := by
  induction entries generalizing verifier with
  | nil =>
    cases h
    rfl
  | cons entry entries ih =>
    obtain ⟨next, view, haccept, h⟩ := verifyEntries_cons h
    obtain ⟨-, -, -, rfl⟩ := acceptStored_ok haccept
    have hcount : (verifier.after view).count = verifier.count + 1 := rfl
    rw [ih h, length_cons, hcount]
    omega

theorem scan_nodup (kv : Kv) (pre : Bytes) : ((kv.scanPrefix pre 0).map Prod.fst).Nodup := by
  rw [Kv.scanPrefix, if_pos rfl]
  have hsorted : (kv.entries.map Prod.fst).Nodup :=
    Pairwise.map _ (fun a b hlt heq => List.lt_irrefl _ (heq ▸ hlt)) kv.ascending
  exact hsorted.sublist (filter_sublist.map _)

variable {kv : Kv} {report : VerifyReport}

section
variable (h : verifyStore sha256 kv logId = .ok report)
include h

/-- What a store's verification says about its scan. -/
theorem verifyStore_ok : ∃ last, verifyEntries sha256 (eventKeyPrefix sha256 logId) (.init logId)
        (kv.scanPrefix (eventKeyPrefix sha256 logId) 0) = .ok last ∧
      report.count = (kv.scanPrefix (eventKeyPrefix sha256 logId) 0).length ∧
      report.count ≤ maxU64 := by
  rw [verifyStore] at h
  cases hverify : verifyEntries sha256 (eventKeyPrefix sha256 logId) (.init logId)
      (kv.scanPrefix (eventKeyPrefix sha256 logId) 0) with
  | error e => simp [hverify] at h
  | ok last =>
    simp only [hverify] at h
    cases h
    have hcount := verifyEntries_count hverify
    have hlen := verifyEntries_length (k := 0) (scan_nodup kv _) rfl hverify
    have hinit : (Verifier.init logId).count = 0 := rfl
    rw [hinit, zero_add] at hcount
    refine ⟨last, rfl, hcount, ?_⟩
    show last.count ≤ maxU64
    omega

/-- **A rebuild of a verified log is the fold over its records.** -/
theorem rebuild_eq_advanceAll : rebuildAccumulatorState sha256 kv logId =
      advanceAll sha256 (emptyState sha256) (eventRecords sha256 kv logId) := by
  obtain ⟨last, hverify, hcount, hmax⟩ := verifyStore_ok h
  rw [hcount] at hmax
  obtain ⟨state, hall, hrebuild, hlast, hhead⟩ := rebuildEntries_advanceAll hverify init_inStep
    Mirrors.init (by rwa [zero_add])
  have hlen : (eventRecords sha256 kv logId).length ≤ maxU64 :=
    le_trans (length_filterMap_le _ _) hmax
  obtain ⟨acc, state', -, hall', hmirrors⟩ := @advanceAll_mirrors sha256 _ hlen
  obtain rfl : state' = state := Except.ok.inj (hall'.symm.trans hall)
  have hroot : rootFromPeaks sha256 state'.lastSeq state'.peaks = state'.accumulatorRoot := by
    rw [hmirrors.root, hmirrors.peaks, hmirrors.lastSeq, Mmr.root_eq]
  have hrun : rebuildEntries sha256 (eventKeyPrefix sha256 logId) (.init logId) [] 0
      (kv.scanPrefix (eventKeyPrefix sha256 logId) 0) =
        .ok (last, state'.peaks, state'.lastIngestTimeMs) := hrebuild
  rw [rebuildAccumulatorState, eventRecords, hall]
  simp only [hrun, Verifier.report, hlast, hhead, hroot]

/-- A log with the first events of a verified one is verified. -/
theorem verifyStore_take {kv' : Kv} {n : Nat}
    (htake : kv'.scanPrefix (eventKeyPrefix sha256 logId) 0 =
      (kv.scanPrefix (eventKeyPrefix sha256 logId) 0).take n) :
    (∃ report', verifyStore sha256 kv' logId = .ok report') ∧
      eventRecords sha256 kv' logId = (eventRecords sha256 kv logId).take n := by
  obtain ⟨last, hverify, -, -⟩ := verifyStore_ok h
  have hsplit := take_append_drop n (kv.scanPrefix (eventKeyPrefix sha256 logId) 0)
  rw [← hsplit] at hverify
  obtain ⟨mid, hfront, -⟩ := verifyEntries_append hverify
  rw [hsplit] at hverify
  refine ⟨⟨mid.report, ?_⟩, ?_⟩
  · rw [verifyStore, htake, hfront]
  · rw [eventRecords, htake, filterMap_take (recordOf_isSome hverify), eventRecords]

end

/-- **One root, however it is computed.**  Over any records the fold gives the peaks
and the root of a fresh accumulator with their hashes appended, in a canonical state
that can be encoded.  In a store whose log is verified, this is also what a rebuild
gives after each event, and what `buildMmrRoot` gives for each number. -/
theorem mmr_root_eq (sha256 : Bytes → Hash) (logId : Bytes) :
    (∀ records : List EventRecord, records.length ≤ maxU64 → ∃ acc state,
      appendLeaves sha256 (fun _ => true) .init (records.map EventRecord.leaf) = (.ok (), acc) ∧
      advanceAll sha256 (emptyState sha256) records = .ok state ∧
      state.peaks = acc.copyPeaks ∧ state.accumulatorRoot = acc.root sha256 ∧
      peaksAreCanonical state.lastSeq state.peaks = true ∧ state.peaks.length ≤ proofMaxPeaks ∧
      (logId.length ≤ maxU32 →
        encodeAccumulatorState logId state = .ok (stateBytes logId state))) ∧
    ∀ (kv : Kv) (report : VerifyReport), verifyStore sha256 kv logId = .ok report →
      (eventRecords sha256 kv logId).length = report.count ∧
      ∀ n ≤ report.count, ∃ acc state,
        appendLeaves sha256 (fun _ => true) .init
          (((eventRecords sha256 kv logId).take n).map EventRecord.leaf) = (.ok (), acc) ∧
        advanceAll sha256 (emptyState sha256) ((eventRecords sha256 kv logId).take n) = .ok state ∧
        state.peaks = acc.copyPeaks ∧ state.accumulatorRoot = acc.root sha256 ∧
        state.lastSeq.toNat = n ∧
        buildMmrRoot sha256 kv logId n.toUInt64 = .ok ⟨state.lastSeq, state.accumulatorRoot⟩ ∧
        ∀ kv' : Kv, kv'.scanPrefix (eventKeyPrefix sha256 logId) 0 =
            (kv.scanPrefix (eventKeyPrefix sha256 logId) 0).take n →
          rebuildAccumulatorState sha256 kv' logId = .ok state := by
  constructor
  · intro records hlen
    obtain ⟨acc, state, happend, hall, hmirrors⟩ := @advanceAll_mirrors sha256 _ hlen
    exact ⟨acc, state, happend, hall, hmirrors.peaks, hmirrors.root, hmirrors.canonical,
      hmirrors.peaks_le, hmirrors.encodes⟩
  intro kv report h
  obtain ⟨last, hverify, hcount, hmax⟩ := verifyStore_ok h
  have hrecords : (eventRecords sha256 kv logId).length = report.count := by
    rw [eventRecords, length_filterMap_eq_countP, hcount]
    exact countP_eq_length.mpr (recordOf_isSome hverify)
  refine ⟨hrecords, ?_⟩
  intro n hn
  have hlen : ((eventRecords sha256 kv logId).take n).length = n := by
    rw [length_take]
    omega
  obtain ⟨acc, state, happend, hall, hmirrors⟩ :=
    @advanceAll_mirrors sha256 ((eventRecords sha256 kv logId).take n) (by omega)
  have hseq : state.lastSeq.toNat = n := by rw [hmirrors.seq_toNat, length_map, hlen]
  have hlt : n < 2 ^ 64 := by
    rw [maxU64] at hmax
    omega
  have hnum : n.toUInt64.toNat = n := UInt64.toNat_ofNat_of_lt' hlt
  refine ⟨acc, state, happend, hall, hmirrors.peaks, hmirrors.root, hseq, ?_, ?_⟩
  · have hroom : 0 + (kv.scanPrefix (eventKeyPrefix sha256 logId) 0).length ≤ maxU64 := by
      rw [zero_add, ← hcount]
      exact hmax
    have hto : 0 ≤ n.toUInt64.toNat := Nat.zero_le _
    obtain ⟨acc', hloop, happend'⟩ :=
      buildMmrRootLoop_appendLeaves hverify init_inStep Mirrors.init hroom hto
    rw [hnum, Nat.sub_zero] at happend'
    obtain rfl : acc' = acc := (Prod.mk.inj (happend'.symm.trans happend)).2
    have hle : ¬ acc'.leafCount < n.toUInt64 := by
      rw [UInt64.lt_iff_toNat_lt, ← hmirrors.lastSeq, hseq, hnum]
      omega
    rw [buildMmrRoot, hloop]
    simp only [hle, if_false, hmirrors.lastSeq, hmirrors.root]
  · intro kv' htake
    obtain ⟨⟨report', hverify'⟩, heq⟩ := verifyStore_take h htake
    rw [rebuild_eq_advanceAll hverify', heq, hall]

/-- A log of two events, the second of them after the first. -/
def twoEvents : List (Bytes × Content) :=
  eventEntries Mmr.evalSha256 (ascii "L") [⟨ascii "a", [], 5⟩, ⟨ascii "b", [], 6⟩]

def twoEventLog : Kv := ⟨twoEvents, by decide +kernel⟩

theorem buildMmrRoot_of_first :
    ∃ root, buildMmrRoot Mmr.evalSha256 twoEventLog (ascii "L") 1 = .ok ⟨1, root⟩ := by
  have hok : (verifyStore Mmr.evalSha256 twoEventLog (ascii "L")).toOption.map
      VerifyReport.count = some 2 := by decide +kernel
  cases hverify : verifyStore Mmr.evalSha256 twoEventLog (ascii "L") with
  | error e =>
    rw [hverify] at hok
    cases hok
  | ok report =>
    rw [hverify] at hok
    have hcount : report.count = 2 := Option.some.inj hok
    obtain ⟨acc, state, -, -, -, -, hseq, hbuild, -⟩ :=
      ((mmr_root_eq Mmr.evalSha256 (ascii "L")).2 twoEventLog report hverify).2 1 (by omega)
    refine ⟨state.accumulatorRoot, ?_⟩
    have hone : state.lastSeq = 1 := UInt64.toNat_inj.mp hseq
    rw [hone] at hbuild
    exact hbuild

end AppendLog
end WormDB
