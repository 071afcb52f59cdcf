import WormDB.AppendLogChain
import WormDB.Database

/-! # The append log in its store

`Holds kv es` says that the store has the log of the requests `es`: their events
under the event prefix and nothing else, and under the state prefix only records
of states the log has been in, for any of its events or none.  The three
operations of an append keep it.  A load finds the state of the whole log
whatever the hint and the state records are (`Holds.load`), an event is created
only after the last one (`Holds.createEvent`), and a state record that is written
is one of those allowed (`Holds.writeState`). -/
namespace WormDB
open List ByteCodec PrefixMap

/-- The map is what the callers of a store without frozen segments see of it. -/
structure Reflects (db : Db) (kv : Kv) : Prop where
  ok : StoreOk db.store
  sst : ∀ key, db.store.sst key = none
  view : ∀ key, db.store.view key = kv.get key

/-- **The store's write is the map's**, or leaves the map alone. -/
theorem Reflects.write_refines {db : Db} {kv : Kv} (h : Reflects db kv) (env : Env)
    (key value : Bytes) (isWorm : Bool) (timestamp : UInt64) :
    match db.setWithTimestamp env key value isWorm timestamp with
    | (.ok (), db') => ∃ kv', kv.setWithTimestamp key value isWorm timestamp = .ok kv' ∧
        Reflects db' kv'
    | (.error f, db') => f ≠ .trap → Reflects db' kv := by
  have hset := Db.set_cases h.ok env key value isWorm timestamp
  generalize db.setWithTimestamp env key value isWorm timestamp = result at hset ⊢
  obtain ⟨f | u, db'⟩ := result
  · intro hf
    have hkeeps := hset.keeps hf
    refine ⟨hset.ok, fun k => by rw [hkeeps.sst]; exact h.sst k, fun k => ?_⟩
    rw [Store.view, hkeeps.entryAt]
    exact h.view k
  · obtain ⟨hfree, hacked⟩ := hset
    have hupd := hacked.ok
    have hnot : ¬ (kv.get key).any Content.isWorm = true := by
      rw [← h.view key, Store.view, Store.entryAt]
      rw [Store.wormBlocked] at hfree
      cases hentry : (db.store.get key).bind db.store.mem with
      | none => simp
      | some e =>
        rw [hentry] at hfree
        simpa [Entry.content] using hfree
    refine ⟨_, if_neg hnot, hupd.ok, fun k => by rw [hupd.sst]; exact h.sst k, fun k => ?_⟩
    rw [Store.view, hupd.entryAt]
    by_cases hk : k = key
    · subst hk
      rw [if_pos rfl, ByteMap.get_insert_self]
      rfl
    · rw [if_neg hk, ByteMap.get_insert_of_ne _ _ hk]
      exact h.view k

/-! A store with a log, and a WORM entry in it. -/

def granted : Env := ⟨fun _ => true, .done, true, true⟩

def wormDb : Db :=
  (Db.setWithTimestamp ⟨⟨.full, true, 0⟩, .init fun _ => none, [], [], false, 0, false, none⟩ granted
    [1] [2] true 3).2

def wormKv : Kv := ByteMap.empty.insert [1] ⟨[2], 3, true⟩

theorem wormDb_reflects : Reflects wormDb wormKv := by
  have h : Reflects ⟨⟨.full, true, 0⟩, .init fun _ => none, [], [], false, 0, false, none⟩ .empty :=
    ⟨init_ok _, fun _ => rfl, fun _ => rfl⟩
  obtain ⟨kv, hkv, hreflects⟩ := h.write_refines granted [1] [2] true 3
  obtain rfl : wormKv = kv := Except.ok.inj hkv
  exact hreflects

theorem write_refines_worm :
    wormDb.walFile ≠ [] ∧
    (∃ kv, wormKv.setWithTimestamp [5] [6] false 4 = .ok kv ∧
      Reflects (wormDb.setWithTimestamp granted [5] [6] false 4).2 kv) ∧
    (wormDb.setWithTimestamp granted [1] [9] false 4).1 = .error (.error .wormViolation) ∧
    Reflects (wormDb.setWithTimestamp granted [1] [9] false 4).2 wormKv :=
  ⟨by decide, wormDb_reflects.write_refines granted [5] [6] false 4, rfl,
    wormDb_reflects.write_refines granted [1] [9] false 4 (nofun)⟩

namespace AppendLog
open Mmr (maxU64)

section
variable (sha256 : Bytes → Hash) (logId : Bytes)

/-- The record of the state after the events. -/
def stateContent (es : List Request) : Content :=
  ⟨stateBytes logId (stateOf sha256 logId es), (stateOf sha256 logId es).lastIngestTimeMs, true⟩

/-- **The store has the log of the requests.** -/
structure Holds (kv : Kv) (es : List Request) : Prop where
  len : es.length ≤ maxU64
  fits : ∀ input ∈ inputs sha256 logId es, input.Fits
  events : ∀ key content, eventKeyPrefix sha256 logId <+: key →
    (kv.get key = some content ↔ (key, content) ∈ eventEntries sha256 logId es)
  states : ∀ key content, accumulatorStateKeyPrefix sha256 logId <+: key →
    kv.get key = some content →
      ∃ i, 0 < i ∧ i ≤ es.length ∧ content = stateContent sha256 logId (es.take i)

end

variable {sha256 : Bytes → Hash} {logId : Bytes}

/-! ## The events by number -/

theorem inputsFrom_getElem? (tail : AccumulatorState) (es : List Request) (i : Nat) :
    (inputsFrom sha256 logId tail es)[i]? =
      es[i]?.map (fun req => req.input logId ((es.take i).foldl (extend sha256 logId) tail)) := by
  induction es generalizing tail i with
  | nil => simp [inputsFrom]
  | cons e es ih =>
    cases i with
    | zero => rfl
    | succ i =>
      rw [inputsFrom, getElem?_cons_succ, ih, getElem?_cons_succ, take_succ_cons,
        foldl_cons]

variable {es : List Request}

theorem mem_inputs_iff {input : EventInput} : input ∈ inputs sha256 logId es ↔
      ∃ (i : Nat) (req : Request), es[i]? = some req ∧
        input = req.input logId (stateOf sha256 logId (es.take i)) := by
  rw [mem_iff_getElem?]
  simp only [inputs, inputsFrom_getElem?, Option.map_eq_some_iff]
  constructor
  · rintro ⟨i, req, hreq, rfl⟩
    exact ⟨i, req, hreq, rfl⟩
  · rintro ⟨i, req, hreq, rfl⟩
    exact ⟨i, req, hreq, rfl⟩

variable {i : Nat}

variable (sha256 logId) in
theorem lastSeq_take (hlen : es.length ≤ maxU64)
    (hi : i ≤ es.length) : (stateOf sha256 logId (es.take i)).lastSeq.toNat = i := by
  rw [stateOf_lastSeq sha256 logId (by rw [length_take]; omega), length_take]
  omega

variable (sha256 logId) in
/-- The number of the event at an index. -/
theorem input_seq (hlen : es.length ≤ maxU64) {req : Request} (hreq : es[i]? = some req) :
    (req.input logId (stateOf sha256 logId (es.take i))).seq.toNat = i + 1 := by
  have hi := (List.getElem?_eq_some_iff.mp hreq).1
  have hseq := lastSeq_take sha256 logId hlen (le_of_lt hi)
  rw [Request.input, toNat_succ (by omega), hseq]

theorem mem_eventEntries_iff {key : Bytes} {content : Content} :
    (key, content) ∈ eventEntries sha256 logId es ↔
      ∃ (i : Nat) (req : Request), es[i]? = some req ∧ (key, content) =
        (req.input logId (stateOf sha256 logId (es.take i))).entry sha256 := by
  rw [eventEntries, mem_map]
  constructor
  · rintro ⟨input, hin, heq⟩
    obtain ⟨i, req, hreq, rfl⟩ := mem_inputs_iff.mp hin
    exact ⟨i, req, hreq, heq.symm⟩
  · rintro ⟨i, req, hreq, heq⟩
    exact ⟨_, mem_inputs_iff.mpr ⟨i, req, hreq, rfl⟩, heq.symm⟩

variable (sha256 logId) in
/-- An event after the last one is not among the stored. -/
theorem notMem_eventEntries (hlen : es.length ≤ maxU64) {seq : UInt64}
    (hseq : es.length < seq.toNat) (content : Content) :
    (eventKey sha256 logId seq, content) ∉ eventEntries sha256 logId es := by
  intro hmem
  obtain ⟨i, req, hreq, heq⟩ := mem_eventEntries_iff.mp hmem
  have hi := (List.getElem?_eq_some_iff.mp hreq).1
  have hnum := input_seq sha256 logId hlen hreq
  rw [← eventKey_inj (Prod.mk.inj heq).1] at hnum
  omega

theorem eventEntries_ascending (hlen : es.length ≤ maxU64) :
    (eventEntries sha256 logId es).Pairwise (fun a b => a.1 < b.1) := by
  induction es using List.reverseRecOn with
  | nil => exact Pairwise.nil
  | append_singleton es req ih =>
    rw [length_append, length_singleton] at hlen
    rw [eventEntries_concat]
    refine pairwise_append.mpr ⟨ih (by omega), pairwise_singleton _ _, ?_⟩
    rintro ⟨key, content⟩ hmem b hb
    obtain rfl := mem_singleton.mp hb
    obtain ⟨i, req', hreq, heq⟩ := mem_eventEntries_iff.mp hmem
    have hi := (List.getElem?_eq_some_iff.mp hreq).1
    have hnum := input_seq sha256 logId (by omega) hreq
    have hlast := stateOf_lastSeq sha256 logId (by omega : es.length ≤ maxU64)
    rw [(Prod.mk.inj heq).1]
    refine eventKey_lt logId (UInt64.lt_iff_toNat_lt.mpr ?_)
    rw [hnum]
    show i + 1 < ((stateOf sha256 logId es).lastSeq + 1).toNat
    rw [toNat_succ (by omega), hlast]
    omega

/-! ## Loading -/

section Load
variable {kv : Kv} {es : List Request}

section
variable (h : Holds sha256 logId kv es)
include h

theorem Holds.scan_events :
    kv.scanPrefix (eventKeyPrefix sha256 logId) 0 = eventEntries sha256 logId es := by
  rw [Kv.scanPrefix, if_pos rfl]
  refine ByteMap.scan_eq (eventEntries_ascending h.len) (fun key content => ?_)
  constructor
  · intro hmem
    obtain ⟨i, req, -, heq⟩ := mem_eventEntries_iff.mp hmem
    have hpre : eventKeyPrefix sha256 logId <+: key := by
      rw [(Prod.mk.inj heq).1]
      exact eventKeyPrefix_isPrefix logId _
    exact ⟨hpre, (h.events key content hpre).mpr hmem⟩
  · rintro ⟨hpre, hget⟩
    exact (h.events key content hpre).mp hget

theorem Holds.rebuild :
    rebuildAccumulatorState sha256 kv logId = .ok (stateOf sha256 logId es) := by
  obtain ⟨verifier, hrun, hfollows⟩ := rebuildEntries_events h.len h.fits
  rw [rebuildAccumulatorState, h.scan_events, hrun]
  simp only [Verifier.report, hfollows.last, hfollows.previous, stateOf_root]

/-- **The verifier accepts the log**, and reports its length and its head. -/
theorem Holds.verifyStore :
    verifyStore sha256 kv logId = .ok ⟨es.length, (stateOf sha256 logId es).lastSeq,
      (stateOf sha256 logId es).headHash⟩ := by
  obtain ⟨verifier, hrun, hfollows⟩ := rebuildEntries_events h.len h.fits
  rw [AppendLog.verifyStore, h.scan_events, verifyEntries_rebuildEntries hrun]
  simp only [Verifier.report, hfollows.last, hfollows.previous, hfollows.count]

/-- The name of a log with events fits an envelope. -/
theorem Holds.logId_le (hpos : 0 < es.length) : logId.length ≤ maxU32 := by
  obtain ⟨req, hreq⟩ : ∃ req, es[0]? = some req := ⟨_, getElem?_eq_getElem hpos⟩
  exact (h.fits _ (mem_inputs_iff.mpr ⟨0, req, hreq, rfl⟩)).logId

/-- What decodes from a state record is a state the log has been in. -/
theorem Holds.decode_state {key : Bytes} {content : Content}
    (hpre : accumulatorStateKeyPrefix sha256 logId <+: key) (hget : kv.get key = some content) :
    ∃ i ≤ es.length, decodeAccumulatorState sha256 logId content.value =
      .ok (stateOf sha256 logId (es.take i)) := by
  obtain ⟨i, hpos, hle, rfl⟩ := h.states key content hpre hget
  have hlen : (es.take i).length ≤ maxU64 := by
    have := h.len
    rw [length_take]
    omega
  exact ⟨i, hle, decodeAccumulatorState_stateBytes (h.logId_le (by omega))
    (stateOf_peaks_le hlen) (stateOf_canonical hlen) (stateOf_root _)⟩

end

variable {state : AccumulatorState}

theorem Holds.loadHinted (h : Holds sha256 logId kv es) {hintedSeq : UInt64}
    (hload : loadHinted sha256 kv logId hintedSeq = some (.ok state)) :
    ∃ i ≤ es.length, state = stateOf sha256 logId (es.take i) := by
  rw [AppendLog.loadHinted] at hload
  split at hload
  · cases hload
  split at hload
  · cases hload
  cases hget : kv.get (accumulatorStateKey sha256 logId hintedSeq) with
  | none =>
    rw [hget] at hload
    cases hload
  | some entry =>
    obtain ⟨i, hi, hdecode⟩ := h.decode_state (accumulatorStateKeyPrefix_isPrefix logId _) hget
    simp only [hget, hdecode] at hload
    split at hload
    · cases hload
    split at hload
    · cases hload
    · exact ⟨i, hi, (Except.ok.inj (Option.some.inj hload)).symm⟩

theorem Holds.loadScanned (h : Holds sha256 logId kv es)
    (hload : loadScanned sha256 kv logId = .ok (some state)) :
    ∃ i ≤ es.length, state = stateOf sha256 logId (es.take i) := by
  rw [AppendLog.loadScanned] at hload
  split at hload
  · cases hload
  rename_i entry rest hscan
  have hmem : entry ∈ kv.scan (accumulatorStateKeyPrefix sha256 logId) := by
    rw [Kv.scanPrefix, if_neg Nat.one_ne_zero] at hscan
    exact mem_of_mem_drop (hscan ▸ mem_cons_self)
  obtain ⟨hpre, hget⟩ := ByteMap.mem_scan_iff.mp hmem
  obtain ⟨i, hi, hdecode⟩ := h.decode_state hpre hget
  simp only [hdecode] at hload
  split at hload
  · cases hload
  split at hload
  · cases hload
  split at hload
  · cases hload
  · exact ⟨i, hi, (Option.some.inj (Except.ok.inj hload)).symm⟩

theorem Holds.loadLatest (h : Holds sha256 logId kv es) {slot slot' : SeqHintSlot}
    (hload : loadLatestAccumulatorState sha256 kv logId slot = (.ok (some state), slot')) :
    ∃ i ≤ es.length, state = stateOf sha256 logId (es.take i) := by
  rw [loadLatestAccumulatorState] at hload
  split at hload
  · cases hload
  · rename_i found hhint
    cases hload
    exact h.loadHinted hhint
  · split at hload
    · cases hload
    · cases hload
    · rename_i found hscan
      cases hload
      exact h.loadScanned hscan

variable {i : Nat}

/-- A state before the last one is not usable: the event after it is stored. -/
theorem Holds.usable (h : Holds sha256 logId kv es) (hi : i ≤ es.length)
    (husable : accumulatorStateUsable sha256 kv logId (stateOf sha256 logId (es.take i)) =
      .ok true) : i = es.length := by
  rw [accumulatorStateUsable] at husable
  split at husable
  · cases husable
  split at husable
  · cases husable
  split at husable
  · cases husable
  split at husable
  · cases husable
  split at husable
  · cases husable
  · rename_i hnext
    by_contra hne
    have hlt : i < es.length := by omega
    refine hnext ?_
    obtain ⟨req, hreq⟩ : ∃ req, es[i]? = some req := ⟨_, getElem?_eq_getElem hlt⟩
    have hget := (h.events _ _ (eventKeyPrefix_isPrefix logId _)).mpr
      (mem_eventEntries_iff.mpr ⟨i, req, hreq, rfl⟩)
    exact Option.isSome_iff_exists.mpr ⟨_, hget⟩

/-- The check itself fails only on a full log. -/
theorem Holds.usable_error (h : Holds sha256 logId kv es) (hi : i ≤ es.length)
    {e : Error} (husable : accumulatorStateUsable sha256 kv logId
      (stateOf sha256 logId (es.take i)) = .error e) : e = .trap ∧ es.length = maxU64 := by
  have hseq := lastSeq_take sha256 logId h.len hi
  have hmax := h.len
  rw [accumulatorStateUsable] at husable
  split at husable
  · cases husable
  split at husable
  · cases husable
  split at husable
  · cases husable
  split at husable
  · rename_i hlast
    cases husable
    exact ⟨rfl, by omega⟩
  split at husable
  · cases husable
  · cases husable

/-- **A load finds the state of the whole log**, whatever the hint and whichever
state records there are. -/
theorem Holds.load (h : Holds sha256 logId kv es) (loads : Bool) (slot : SeqHintSlot) :
    (loadOrRebuildAccumulatorState sha256 loads kv logId slot).1 =
        .ok (stateOf sha256 logId es) ∨
      ((loadOrRebuildAccumulatorState sha256 loads kv logId slot).1 = .error .trap ∧
        es.length = maxU64) := by
  have hfound : ∀ state slot', (if loads then loadLatestAccumulatorState sha256 kv logId slot
      else (.error (.store .outOfMemory), slot)) = (.ok (some state), slot') →
        ∃ i ≤ es.length, state = stateOf sha256 logId (es.take i) := by
    intro state slot' heq
    split at heq
    · exact h.loadLatest heq
    · cases heq
  rw [loadOrRebuildAccumulatorState, h.rebuild]
  generalize (if loads then loadLatestAccumulatorState sha256 kv logId slot
    else (.error (.store .outOfMemory), slot)) = loaded at hfound ⊢
  obtain ⟨e | _ | state, slot'⟩ := loaded
  · exact .inl rfl
  · exact .inl rfl
  · obtain ⟨i, hi, rfl⟩ := hfound state slot' rfl
    simp only
    cases hresult : accumulatorStateUsable sha256 kv logId (stateOf sha256 logId (es.take i)) with
    | error e =>
      obtain ⟨rfl, hfull⟩ := h.usable_error hi hresult
      exact .inr ⟨rfl, hfull⟩
    | ok usable =>
      cases usable with
      | false => exact .inl rfl
      | true =>
        obtain rfl := h.usable hi hresult
        exact .inl (by simp only [take_length])

end Load

/-! ## Writing -/

section Write
variable {kv kv' : Kv} {es : List Request}

theorem setWithTimestamp_ok {key value : Bytes} {isWorm : Bool} {timestamp : UInt64}
    (h : kv.setWithTimestamp key value isWorm timestamp = .ok kv') :
    (∀ content, kv.get key = some content → content.isWorm = false) ∧
      kv' = kv.insert key ⟨value, timestamp, isWorm⟩ := by
  rw [Kv.setWithTimestamp] at h
  split at h
  · cases h
  · rename_i hfree
    refine ⟨fun content hget => ?_, (Except.ok.inj h).symm⟩
    rw [hget] at hfree
    simpa using hfree

variable {req : Request} {encoded : EncodedEnvelope}

theorem createEvent_ok {tail : AccumulatorState}
    (h : createEvent sha256 kv logId tail req = .ok (encoded, kv')) :
    tail.lastSeq.toNat ≠ maxU64 ∧ (req.input logId tail).Fits ∧
      encoded = sealEnvelope sha256 (req.input logId tail) ∧
      (∀ content, kv.get (eventKey sha256 logId (tail.lastSeq + 1)) = some content →
        content.isWorm = false) ∧
      kv' = kv.insert (eventKey sha256 logId (tail.lastSeq + 1))
        ⟨encoded.envelope, req.ingestTimeMs, true⟩ := by
  rw [createEvent] at h
  split at h
  · cases h
  rename_i hmax
  split at h
  · cases h
  rename_i sealed hencode
  obtain ⟨hfits, rfl⟩ := encodeEnvelopeWithHashes_ok hencode
  split at h
  · cases h
  · cases h
  · rename_i hset
    cases h
    obtain ⟨hfree, rfl⟩ := setWithTimestamp_ok hset
    exact ⟨hmax, hfits, rfl, hfree, rfl⟩

/-- **An event is created only after the last one.** -/
theorem Holds.createEvent (h : Holds sha256 logId kv es) {m : Nat} (hm : m ≤ es.length)
    (hcreate : createEvent sha256 kv logId (stateOf sha256 logId (es.take m)) req =
      .ok (encoded, kv')) :
    m = es.length ∧ encoded = sealEnvelope sha256 (req.input logId (stateOf sha256 logId es)) ∧
      Holds sha256 logId kv' (es ++ [req]) := by
  obtain ⟨hmax, hfits, rfl, hfree, rfl⟩ := createEvent_ok hcreate
  -- the number of a stale tail is taken, so the tail is the whole log's
  have hlast : m = es.length := by
    by_contra hne
    obtain ⟨old, hold⟩ : ∃ old, es[m]? = some old :=
      ⟨_, getElem?_eq_getElem (by omega : m < es.length)⟩
    have hget := (h.events _ _ (eventKeyPrefix_isPrefix logId _)).mpr
      (mem_eventEntries_iff.mpr ⟨m, old, hold, rfl⟩)
    exact absurd (hfree _ hget) (by simp)
  subst hlast
  rw [take_length] at *
  have hseq := stateOf_lastSeq sha256 logId h.len
  have hlen : es.length < maxU64 := by
    have := h.len
    omega
  refine ⟨rfl, rfl, ?_, ?_, ?_, ?_⟩
  · rw [length_append, length_singleton]
    omega
  · intro input hin
    rw [inputs_concat] at hin
    rcases mem_append.mp hin with hin | hin
    · exact h.fits input hin
    · rw [mem_singleton.mp hin]
      exact hfits
  · intro key content hpre
    rw [eventEntries_concat, mem_append, mem_singleton]
    by_cases hkey : key = eventKey sha256 logId ((stateOf sha256 logId es).lastSeq + 1)
    · subst hkey
      rw [ByteMap.get_insert_self]
      -- no event had the number
      have hold := notMem_eventEntries sha256 logId h.len
        (by rw [toNat_succ (by omega), hseq]; omega :
          es.length < ((stateOf sha256 logId es).lastSeq + 1).toNat) content
      constructor
      · intro heq
        exact .inr (Prod.ext rfl (Option.some.inj heq).symm)
      · rintro (hmem | heq)
        · exact absurd hmem hold
        · exact congrArg some (Prod.mk.inj heq).2.symm
    · rw [ByteMap.get_insert_of_ne _ _ hkey, h.events key content hpre]
      constructor
      · exact .inl
      · rintro (hmem | heq)
        · exact hmem
        · exact absurd (Prod.mk.inj heq).1 hkey
  · intro key content hpre hget
    have hkey : key ≠ eventKey sha256 logId ((stateOf sha256 logId es).lastSeq + 1) := by
      rintro rfl
      exact keys_apart (eventKeyPrefix_isPrefix logId _) hpre
    rw [ByteMap.get_insert_of_ne _ _ hkey] at hget
    obtain ⟨i, hpos, hle, rfl⟩ := h.states key content hpre hget
    refine ⟨i, hpos, by rw [length_append]; omega, ?_⟩
    rw [take_append_of_le_length hle]

/-- The log of a store is not touched by what leaves its events alone and adds
none but its own state records. -/
theorem Holds.of_states (h : Holds sha256 logId kv es)
    (hevents : ∀ key, eventKeyPrefix sha256 logId <+: key → kv'.get key = kv.get key)
    (hstates : ∀ key content, accumulatorStateKeyPrefix sha256 logId <+: key →
      kv'.get key = some content → kv.get key = some content ∨
        ∃ i, 0 < i ∧ i ≤ es.length ∧ content = stateContent sha256 logId (es.take i)) :
    Holds sha256 logId kv' es where
  len := h.len
  fits := h.fits
  events := by
    intro key content hpre
    rw [hevents key hpre]
    exact h.events key content hpre
  states := by
    intro key content hpre hget
    rcases hstates key content hpre hget with hold | hnew
    · exact h.states key content hpre hold
    · exact hnew

/-- **A state record that is written is one the log allows.** -/
theorem Holds.writeState (h : Holds sha256 logId kv es) (hpos : 0 < i) (hi : i ≤ es.length)
    (hwrite : writeState sha256 kv logId (stateOf sha256 logId (es.take i)) = .ok kv') :
    Holds sha256 logId kv' es := by
  rw [AppendLog.writeState] at hwrite
  split at hwrite
  · cases hwrite
  rename_i value hencode
  obtain rfl := encodeAccumulatorState_ok hencode
  split at hwrite
  · cases hwrite
  rename_i written hset
  cases hwrite
  obtain ⟨-, rfl⟩ := setWithTimestamp_ok hset
  refine h.of_states ?_ ?_
  · intro key hpre
    refine ByteMap.get_insert_of_ne _ _ ?_
    rintro rfl
    exact keys_apart hpre (accumulatorStateKeyPrefix_isPrefix logId _)
  · intro key content _ hget
    by_cases hkey : key = accumulatorStateKey sha256 logId
        (stateOf sha256 logId (es.take i)).lastSeq
    · subst hkey
      rw [ByteMap.get_insert_self] at hget
      exact .inr ⟨i, hpos, hi, (Option.some.inj hget).symm⟩
    · rw [ByteMap.get_insert_of_ne _ _ hkey] at hget
      exact .inl hget

end Write

end AppendLog
end WormDB
