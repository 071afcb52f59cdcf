import WormDB.AppendLogRoot

/-! # Appending to a store of any content

`append` trusts what the store holds only after checks, and the store may hold
anything: a state record is an ordinary key.  Here each place where memory or a
write may fail is explicit (`AppendEnv`), and `append` is the case where none does
(`appendIn_eq`).

`append` either appends, or fails and leaves the events as they were, except in two
cases (`append_total_iff`): a state record of the last number that passes the checks
makes the search for the next event overflow, and an event is written before the
memory for its peaks is there. -/
namespace WormDB
open ByteCodec ByteReader PrefixMap ErrorsIn
namespace AppendLog
open Mmr (Peak rootFromPeaks peaksAreCanonical maxU64)

/-- What an append meets: memory for reading the state records, for rebuilding, for
the envelope and its key and for the new peaks, the store's error on the write, and
whether the new state gets stored. -/
structure AppendEnv where
  loads : Bool
  rebuilds : Bool
  envelope : Bool
  write : Option StoreError
  peaks : Bool
  persists : Bool

section
variable (sha256 : Bytes → Hash) (env : AppendEnv)

def rebuildIn (kv : Kv) (logId : Bytes) (slot : SeqHintSlot) :
    Except Error AccumulatorState × SeqHintSlot :=
  if env.rebuilds then
    match rebuildAccumulatorState sha256 kv logId with
    | .error e => (.error e, slot)
    | .ok rebuilt => (.ok rebuilt, slot.setAppendLogSeqHint (sha256 logId) rebuilt.lastSeq)
  else (.error (.store .outOfMemory), slot)

def loadOrRebuildIn (kv : Kv) (logId : Bytes) (slot : SeqHintSlot) :
    Except Error AccumulatorState × SeqHintSlot :=
  let (loaded, slot) :=
    if env.loads then loadLatestAccumulatorState sha256 kv logId slot
    else (.error (.store .outOfMemory), slot)
  match loaded with
  | .ok (some state) =>
      match accumulatorStateUsable sha256 kv logId state with
      | .error e => (.error e, slot)
      | .ok true => (.ok state, slot)
      | .ok false => rebuildIn sha256 env kv logId slot
  | _ => rebuildIn sha256 env kv logId slot

def createEventIn (kv : Kv) (logId : Bytes) (tail : AccumulatorState) (req : Request) :
    Except Error (EncodedEnvelope × Kv) :=
  if tail.lastSeq.toNat = maxU64 then .error .sequenceOverflow
  else
    match encodeEnvelopeWithHashes sha256 (req.input logId tail) with
    | .error e => .error e
    | .ok encoded =>
        if !env.envelope then .error (.store .outOfMemory)
        else
          match env.write with
          | some e => .error (.store e)
          | none =>
              match kv.setWithTimestamp (eventKey sha256 logId (tail.lastSeq + 1))
                  encoded.envelope true req.ingestTimeMs with
              | .error .wormViolation => .error .sequenceReuse
              | .error e => .error (.store e)
              | .ok kv' => .ok (encoded, kv')

def nextStateIn (tail : AccumulatorState) (req : Request) (encoded : EncodedEnvelope) :
    Except Error AccumulatorState :=
  if !peaksAreCanonical tail.lastSeq tail.peaks then .error .invalidAccumulatorState
  else if tail.lastSeq.toNat = maxU64 then .error .trap
  else if !env.peaks then .error (.store .outOfMemory)
  else nextState sha256 tail req encoded

/-- `append` where memory may be short. -/
def appendIn (kv : Kv) (logId : Bytes) (slot : SeqHintSlot) (req : Request) :
    Except Error AppendResult × Kv × SeqHintSlot :=
  match loadOrRebuildIn sha256 env kv logId slot with
  | (.error e, slot) => (.error e, kv, slot)
  | (.ok tail, slot) =>
      match createEventIn sha256 env kv logId tail req with
      | .error e => (.error e, kv, slot)
      | .ok (encoded, kv) =>
          match nextStateIn sha256 env tail req encoded with
          | .error e => (.error e, kv, slot)
          | .ok next =>
              let result := appendResult sha256 logId tail req encoded next
              if env.persists then
                match writeState sha256 kv logId next with
                | .error _ => (.ok result, kv, slot)
                | .ok kv => (.ok result, kv, slot.setAppendLogSeqHint (sha256 logId) next.lastSeq)
              else (.ok result, kv, slot)

/-- Nothing fails but, perhaps, the reading of the state records. -/
def ampleEnv (loads : Bool) : AppendEnv := ⟨loads, true, true, none, true, true⟩

/-- With memory for everything this is `append`. -/
theorem appendIn_eq (loads : Bool) (kv : Kv) (logId : Bytes) (slot : SeqHintSlot) (req : Request) :
    appendIn sha256 (ampleEnv loads) kv logId slot req = append sha256 loads kv logId slot req := by
  have hnext : ∀ tail encoded, nextStateIn sha256 (ampleEnv loads) tail req encoded =
      nextState sha256 tail req encoded := by
    intro tail encoded
    rw [nextStateIn, nextState, advanceAccumulatorState]
    split
    · rfl
    split
    · rfl
    · rfl
  have hload : loadOrRebuildIn sha256 (ampleEnv loads) kv logId slot =
      loadOrRebuildAccumulatorState sha256 loads kv logId slot := rfl
  have hcreate : ∀ tail, createEventIn sha256 (ampleEnv loads) kv logId tail req =
      createEvent sha256 kv logId tail req := by
    intro tail
    rfl
  rw [appendIn, append, hload]
  simp only [hcreate, hnext]
  rfl

/-! ## The claim and its condition -/

/-- Every event record of the log is what it was. -/
def EventsKept (logId : Bytes) (kv kv' : Kv) : Prop :=
  ∀ seq, kv'.get (eventKey sha256 logId seq) = kv.get (eventKey sha256 logId seq)

/-- The call does not overflow, and an error of it comes with the events kept. -/
def Total (kv : Kv) (logId : Bytes) (out : Except Error AppendResult × Kv × SeqHintSlot) : Prop :=
  out.1 ≠ .error .trap ∧ ∀ e, out.1 = .error e → EventsKept sha256 logId kv out.2.1

/-- The state is in itself well formed and the event of its number matches it. -/
def PassesChecks (kv : Kv) (logId : Bytes) (state : AccumulatorState) : Prop :=
  peaksAreCanonical state.lastSeq state.peaks = true ∧
    rootFromPeaks sha256 state.lastSeq state.peaks = state.accumulatorRoot ∧
    headMatches sha256 kv logId state = true

/-- The state record that a load takes has the last number and passes the checks. -/
def FullState (kv : Kv) (logId : Bytes) (slot : SeqHintSlot) : Prop :=
  env.loads = true ∧ ∃ state,
    (loadLatestAccumulatorState sha256 kv logId slot).1 = .ok (some state) ∧
      state.lastSeq.toNat = maxU64 ∧ PassesChecks sha256 kv logId state

/-- The append gets as far as writing its event: a tail is found, the fields fit and
the write succeeds. -/
def Writes (kv : Kv) (logId : Bytes) (slot : SeqHintSlot) (req : Request) : Prop :=
  ∃ tail, (loadOrRebuildIn sha256 env kv logId slot).1 = .ok tail ∧
    (createEventIn sha256 env kv logId tail req).isOk = true

end

/-! ## What does not overflow -/

def NotTrap (e : Error) : Prop := e ≠ .trap

instance : DecidablePred NotTrap := fun _ => inferInstanceAs (Decidable (¬ _))

variable {sha256 : Bytes → Hash} {env : AppendEnv} {kv : Kv} {logId : Bytes} {slot : SeqHintSlot}
  {req : Request}

theorem decodeEnvelope_errors (bytes : Bytes) : ErrorsIn NotTrap (decodeEnvelope bytes) := by
  have hinvalid : NotTrap .invalidEnvelope := by decide
  rw [decodeEnvelope]
  refine (readBytes hinvalid _ _).bind ?_
  rintro ⟨magic, rest⟩
  dsimp only
  split
  · exact .error hinvalid
  refine (readUInt hinvalid _ _).bind ?_
  rintro ⟨version, rest⟩
  dsimp only
  split
  · exact error (by decide)
  refine (readUInt hinvalid _ _).bind ?_
  rintro ⟨logIdLen, rest⟩
  refine (readBytes hinvalid _ _).bind ?_
  rintro ⟨logId, rest⟩
  refine (readUInt hinvalid _ _).bind ?_
  rintro ⟨seq, rest⟩
  refine (Mmr.readHash_errors hinvalid _).bind ?_
  rintro ⟨prevEventHash, rest⟩
  refine (readUInt hinvalid _ _).bind ?_
  rintro ⟨ingestTimeMs, rest⟩
  refine (Mmr.readHash_errors hinvalid _).bind ?_
  rintro ⟨payloadHash, rest⟩
  refine (readUInt hinvalid _ _).bind ?_
  rintro ⟨attachmentCount, rest⟩
  refine (readBytes hinvalid _ _).bind ?_
  rintro ⟨attachmentHashBytes, rest⟩
  refine (readUInt hinvalid _ _).bind ?_
  rintro ⟨payloadLen, rest⟩
  refine (readBytes hinvalid _ _).bind ?_
  rintro ⟨payload, rest⟩
  refine (Mmr.readHash_errors hinvalid _).bind ?_
  rintro ⟨eventHash, rest⟩
  dsimp only
  split
  · exact .error hinvalid
  · exact ok _

theorem verifyEnvelope_errors (view : EventView) :
    ErrorsIn NotTrap (verifyEnvelope sha256 logId view) := by
  rw [verifyEnvelope, hashEnvelopePreimage]
  split
  · exact error (by decide)
  split
  · exact error (by decide)
  split
  · rename_i e hpreimage
    split at hpreimage
    · cases hpreimage
      exact error (by decide)
    · cases hpreimage
  split
  · exact error (by decide)
  split
  · exact error (by decide)
  · exact ok _

theorem accept_errors (verifier : Verifier) (view : EventView) :
    ErrorsIn NotTrap (verifier.accept sha256 view) := by
  rw [Verifier.accept]
  split
  · rename_i e hverify
    exact .error (verifyEnvelope_errors view e hverify)
  split
  · exact error (by decide)
  split
  · exact error (by decide)
  split
  · exact error (by decide)
  · exact ok _

theorem acceptStored_errors (pre : Bytes) (verifier : Verifier) (entry : Bytes × Content) :
    ErrorsIn NotTrap (acceptStored sha256 pre verifier entry) := by
  rw [acceptStored]
  split
  · exact error (by decide)
  split
  · rename_i e hkey
    rw [seqFromEventKey, seqFromKey] at hkey
    split at hkey
    · cases hkey
      exact error (by decide)
    split at hkey
    · cases hkey
      exact error (by decide)
    · cases hkey
  split
  · rename_i e hdecode
    exact .error (decodeEnvelope_errors _ e hdecode)
  split
  · exact error (by decide)
  split
  · exact error (by decide)
  split
  · rename_i e haccept
    exact .error (accept_errors _ _ e haccept)
  · exact ok _

theorem rebuildEntries_errors (pre : Bytes) (entries : List (Bytes × Content))
    (verifier : Verifier) (peaks : List Peak) (time : UInt64) :
    ErrorsIn NotTrap (rebuildEntries sha256 pre verifier peaks time entries) := by
  induction entries generalizing verifier peaks time with
  | nil => exact ok _
  | cons entry entries ih =>
    rw [rebuildEntries]
    split
    · rename_i e haccept
      exact .error (acceptStored_errors pre verifier entry e haccept)
    · exact ih _ _ _

/-- **A rebuild never overflows**, whatever is stored under the event keys. -/
theorem rebuild_errors : ErrorsIn NotTrap (rebuildAccumulatorState sha256 kv logId) := by
  rw [rebuildAccumulatorState]
  simp only
  split
  · rename_i e hrebuild
    exact .error (rebuildEntries_errors _ _ _ _ _ e hrebuild)
  · exact ok _

/-! ## The tail -/

theorem rebuild_canonical {state : AccumulatorState}
    (h : rebuildAccumulatorState sha256 kv logId = .ok state) :
    peaksAreCanonical state.lastSeq state.peaks = true := by
  have hverify : ∃ report, verifyStore sha256 kv logId = .ok report := by
    rw [rebuildAccumulatorState] at h
    simp only at h
    split at h
    · cases h
    · rename_i verifier peaks time hrun
      exact ⟨verifier.report, by rw [verifyStore, verifyEntries_rebuildEntries hrun]⟩
  obtain ⟨report, hverify⟩ := hverify
  obtain ⟨last, -, hcount, hmax⟩ := verifyStore_ok hverify
  rw [hcount] at hmax
  have hroom : (eventRecords sha256 kv logId).length ≤ maxU64 :=
    le_trans (List.length_filterMap_le _ _) hmax
  obtain ⟨acc, state', -, hall, hmirrors⟩ := @advanceAll_mirrors sha256 _ hroom
  rw [rebuild_eq_advanceAll hverify, hall] at h
  cases h
  exact hmirrors.canonical

/-- The check of a loaded state: it overflows on a state of the last number that has
passed so far. -/
theorem usable_cases (state : AccumulatorState) :
    (accumulatorStateUsable sha256 kv logId state = .error .trap ∧
      state.lastSeq.toNat = maxU64 ∧ PassesChecks sha256 kv logId state) ∨
    (accumulatorStateUsable sha256 kv logId state = .ok true ∧
      peaksAreCanonical state.lastSeq state.peaks = true ∧ state.lastSeq.toNat ≠ maxU64) ∨
    (accumulatorStateUsable sha256 kv logId state = .ok false ∧
      ¬ (state.lastSeq.toNat = maxU64 ∧ PassesChecks sha256 kv logId state)) := by
  rw [accumulatorStateUsable]
  by_cases hcanonical : peaksAreCanonical state.lastSeq state.peaks = true
  · rw [if_neg (by simp [hcanonical])]
    by_cases hroot : rootFromPeaks sha256 state.lastSeq state.peaks = state.accumulatorRoot
    · rw [if_neg (not_not_intro hroot)]
      by_cases hhead : headMatches sha256 kv logId state = true
      · rw [if_neg (by simp [hhead])]
        by_cases hmax : state.lastSeq.toNat = maxU64
        · rw [if_pos hmax]
          exact .inl ⟨rfl, hmax, hcanonical, hroot, hhead⟩
        · rw [if_neg hmax]
          split
          · exact .inr (.inr ⟨rfl, fun h => hmax h.1⟩)
          · exact .inr (.inl ⟨rfl, hcanonical, hmax⟩)
      · rw [if_pos (by simp [hhead])]
        exact .inr (.inr ⟨rfl, fun h => hhead h.2.2.2⟩)
    · rw [if_pos hroot]
      exact .inr (.inr ⟨rfl, fun h => hroot h.2.2.1⟩)
  · rw [if_pos (by simp [hcanonical])]
    exact .inr (.inr ⟨rfl, fun h => hcanonical h.2.1⟩)

theorem rebuildIn_spec : ErrorsIn NotTrap (rebuildIn sha256 env kv logId slot).1 ∧
    ∀ tail, (rebuildIn sha256 env kv logId slot).1 = .ok tail →
      peaksAreCanonical tail.lastSeq tail.peaks = true := by
  rw [rebuildIn]
  split
  · split
    · rename_i e hrun
      exact ⟨.error (rebuild_errors e hrun), fun tail htail => (nomatch htail)⟩
    · rename_i rebuilt hrun
      refine ⟨.ok _, ?_⟩
      rintro tail ⟨⟩
      exact rebuild_canonical hrun
  · exact ⟨.error (by decide), fun tail htail => (nomatch htail)⟩

/-- **The search for the tail**: it overflows on a full state, and the tail that it
finds otherwise has canonical peaks. -/
theorem loadOrRebuildIn_cases :
    (FullState sha256 env kv logId slot ∧
      (loadOrRebuildIn sha256 env kv logId slot).1 = .error .trap) ∨
    (¬ FullState sha256 env kv logId slot ∧
      ErrorsIn NotTrap (loadOrRebuildIn sha256 env kv logId slot).1 ∧
      ∀ tail, (loadOrRebuildIn sha256 env kv logId slot).1 = .ok tail →
        peaksAreCanonical tail.lastSeq tail.peaks = true) := by
  have hfull : FullState sha256 env kv logId slot ↔ env.loads = true ∧ ∃ state,
      (loadLatestAccumulatorState sha256 kv logId slot).1 = .ok (some state) ∧
        state.lastSeq.toNat = maxU64 ∧ PassesChecks sha256 kv logId state := Iff.rfl
  rw [hfull, loadOrRebuildIn]
  cases hloads : env.loads with
  | false =>
    exact .inr ⟨fun h => (nomatch h.1), rebuildIn_spec⟩
  | true =>
    rw [if_pos rfl]
    cases hload : loadLatestAccumulatorState sha256 kv logId slot with
    | mk loaded slot' =>
      obtain e | (_ | state) := loaded
      · refine .inr ⟨?_, rebuildIn_spec⟩
        rintro ⟨-, state, hstate, -⟩
        cases hstate
      · refine .inr ⟨?_, rebuildIn_spec⟩
        rintro ⟨-, state, hstate, -⟩
        cases hstate
      · dsimp only
        rcases @usable_cases sha256 kv logId state with
          ⟨husable, hmax, hchecks⟩ | ⟨husable, hcanonical, hmax⟩ | ⟨husable, hnot⟩
        · rw [husable]
          exact .inl ⟨⟨rfl, state, rfl, hmax, hchecks⟩, rfl⟩
        · rw [husable]
          refine .inr ⟨?_, .ok _, ?_⟩
          · rintro ⟨-, state', hstate, hmax', -⟩
            cases Except.ok.inj hstate
            exact hmax hmax'
          · rintro tail ⟨⟩
            exact hcanonical
        · rw [husable]
          refine .inr ⟨?_, rebuildIn_spec⟩
          rintro ⟨-, state', hstate, hfull'⟩
          cases Except.ok.inj hstate
          exact hnot hfull'

/-! ## The event -/

theorem createEventIn_errors (tail : AccumulatorState) :
    ErrorsIn NotTrap (createEventIn sha256 env kv logId tail req) := by
  rw [createEventIn]
  split
  · exact error (by decide)
  split
  · rename_i e hencode
    rw [encodeEnvelopeWithHashes] at hencode
    split at hencode
    · cases hencode
      exact error (by decide)
    split at hencode
    · cases hencode
      exact error (by decide)
    split at hencode
    · cases hencode
      exact error (by decide)
    · cases hencode
  split
  · exact error (by decide)
  split
  · exact .error (by rintro ⟨⟩)
  split
  · exact error (by decide)
  · exact .error (by rintro ⟨⟩)
  · exact ok _

/-- A written event is a new record. -/
theorem createEventIn_ok {tail : AccumulatorState} {encoded : EncodedEnvelope} {kv' : Kv}
    (h : createEventIn sha256 env kv logId tail req = .ok (encoded, kv')) :
    tail.lastSeq.toNat ≠ maxU64 ∧ ¬ EventsKept sha256 logId kv kv' := by
  rw [createEventIn] at h
  split at h
  · cases h
  rename_i hmax
  split at h
  · cases h
  split at h
  · cases h
  split at h
  · cases h
  split at h
  · cases h
  · cases h
  rename_i hset
  cases h
  refine ⟨hmax, ?_⟩
  intro hkept
  obtain ⟨hfree, rfl⟩ := setWithTimestamp_ok hset
  have hsame := hkept (tail.lastSeq + 1)
  rw [ByteMap.get_insert_self] at hsame
  cases hfree _ hsame.symm

/-- **Appending is total unless a full state is loaded, or the memory for the peaks
is missing after the event was written.** -/
theorem append_total_iff (sha256 : Bytes → Hash) (env : AppendEnv) (kv : Kv) (logId : Bytes)
    (slot : SeqHintSlot) (req : Request) :
    Total sha256 kv logId (appendIn sha256 env kv logId slot req) ↔
      ¬ FullState sha256 env kv logId slot ∧
        (env.peaks = true ∨ ¬ Writes sha256 env kv logId slot req) := by
  rw [appendIn]
  cases hload : loadOrRebuildIn sha256 env kv logId slot with
  | mk found slot' =>
  have hcases := @loadOrRebuildIn_cases sha256 env kv logId slot
  -- an event is written if a state is loaded and its creation succeeds
  have hwrites : Writes sha256 env kv logId slot req ↔ ∃ tail, found = .ok tail ∧
      (createEventIn sha256 env kv logId tail req).isOk = true := by
    rw [Writes, hload]
  rw [hload] at hcases
  cases found with
  | error e =>
    dsimp only
    -- no state is loaded, so nothing is written
    have hno : ¬ Writes sha256 env kv logId slot req := by
      rw [hwrites]
      rintro ⟨tail, htail, -⟩
      cases htail
    rcases hcases with ⟨hfull, htrap⟩ | ⟨hnot, herrors, -⟩
    · cases htrap
      exact ⟨fun htotal => absurd rfl htotal.1, fun hcond => absurd hfull hcond.1⟩
    · refine ⟨fun _ => ⟨hnot, .inr hno⟩, fun _ => ⟨?_, fun _ _ _ => rfl⟩⟩
      intro htrap
      exact herrors e rfl (Except.error.inj htrap)
  | ok tail =>
    obtain ⟨hnot, hcanonical⟩ : ¬ FullState sha256 env kv logId slot ∧
        peaksAreCanonical tail.lastSeq tail.peaks = true := by
      rcases hcases with ⟨-, htrap⟩ | ⟨hnot, -, hcanonical⟩
      · cases htrap
      · exact ⟨hnot, hcanonical tail rfl⟩
    dsimp only
    cases hcreate : createEventIn sha256 env kv logId tail req with
    | error e =>
      -- the creation fails, and never by a trap
      have hno : ¬ Writes sha256 env kv logId slot req := by
        rw [hwrites]
        rintro ⟨tail', htail, hok⟩
        cases htail
        rw [hcreate] at hok
        cases hok
      refine ⟨fun _ => ⟨hnot, .inr hno⟩, fun _ => ⟨?_, fun _ _ _ => rfl⟩⟩
      intro htrap
      exact createEventIn_errors tail e hcreate (Except.error.inj htrap)
    | ok created =>
      obtain ⟨encoded, kv'⟩ := created
      obtain ⟨hmax, hchanged⟩ := createEventIn_ok hcreate
      -- from here on the event is in the store
      have hyes : Writes sha256 env kv logId slot req := by
        rw [hwrites]
        exact ⟨tail, rfl, by rw [hcreate]; rfl⟩
      dsimp only
      rw [nextStateIn, if_neg (by simp [hcanonical]), if_neg hmax]
      cases hpeaks : env.peaks with
      | false =>
        refine ⟨?_, ?_⟩
        · -- the error comes after the write: the store is not the old one
          rintro ⟨-, hkept⟩
          exact absurd (hkept _ rfl) hchanged
        · rintro ⟨-, hok | hno⟩
          · cases hok
          · exact absurd hyes hno
      | true =>
        refine ⟨fun _ => ⟨hnot, .inl rfl⟩, fun _ => ?_⟩
        -- with memory for the peaks there is a next state
        have hok : ∃ next, nextState sha256 tail req encoded = .ok next := by
          rw [nextState, advanceAccumulatorState, if_neg (by simp [hcanonical]), if_neg hmax]
          exact ⟨_, rfl⟩
        obtain ⟨next, hnext⟩ := hok
        simp only [Bool.not_true, Bool.false_eq_true, if_false, hnext]
        have hsuccess : ∀ (result : AppendResult) (kv₁ : Kv) (s : SeqHintSlot),
            Total sha256 kv logId (.ok result, kv₁, s) := by
          intro result kv₁ s
          exact ⟨by rintro ⟨⟩, by rintro e ⟨⟩⟩
        split
        · split
          · exact hsuccess _ _ _
          · exact hsuccess _ _ _
        · exact hsuccess _ _ _

/-! ## A full state -/

/-- The peaks of `2 ^ 64 - 1` leaves. -/
def fullPeaks : List Peak := (List.range 64).map (fun i => ⟨(63 - i).toUInt8, zeroHash⟩)

def lastEvent : EventInput := ⟨ascii "L", maxU64.toUInt64, zeroHash, 7, [], []⟩

def fullState : AccumulatorState :=
  ⟨fullPeaks, maxU64.toUInt64, 7, (sealEnvelope Mmr.evalSha256 lastEvent).eventHash,
    rootFromPeaks Mmr.evalSha256 maxU64.toUInt64 fullPeaks⟩

/-- An event of the last number and the state record after it, both well formed. -/
def fullStore : Kv :=
  (ByteMap.empty.insert (eventKey Mmr.evalSha256 (ascii "L") maxU64.toUInt64)
    ⟨(sealEnvelope Mmr.evalSha256 lastEvent).envelope, 7, true⟩).insert
      (accumulatorStateKey Mmr.evalSha256 (ascii "L") maxU64.toUInt64)
      ⟨stateBytes (ascii "L") fullState, 7, true⟩

/-- The append overflows in the search for the tail. -/
theorem append_full_overflows :
    ¬ Total Mmr.evalSha256 fullStore (ascii "L")
      (append Mmr.evalSha256 true fullStore (ascii "L") .init ⟨ascii "a", [], 8⟩) := by
  rintro ⟨hcomputed, -⟩
  refine hcomputed ?_
  decide +kernel

end AppendLog
end WormDB
