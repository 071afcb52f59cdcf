import WormDB.LogPipeline

/-! # Calls with their locks

What a call of `LogPipeline` knows at each of its steps, and that the steps of other calls do
not take it away: between its shard's lock and its change the key stays writable and the
prepared change stays good, because whoever changes the store in between works on another
shard.  `call_moves` lists everything one step of a call can do; the order of the log is
derived from that. -/
namespace WormDB
open ByteCodec RingQueue GuardedReplay CallPhase

/-! ## What a call knows -/

def Change.Ready (call : LogCall) (s : Store) : Change → Prop
  | .upsert prepared =>
      match call with
      | .set key value isWorm timestamp => WormDB.Ready s key value isWorm timestamp prepared
      | .delete _ => False
  | .remove =>
      match call with
      | .set .. => False
      | .delete _ => True

def Change.fresh : Change → Option Ptr
  | .upsert prepared => prepared.fresh
  | .remove => none

namespace CallPhase

/-- The entry that the call has made and that no shard lists yet. -/
def fresh : CallPhase → Option Ptr
  | ready _ change | queueing _ change | offering _ change _ | written _ change
  | published change | logged change => change.fresh
  | _ => none

/-- The record is the call's; while it is not in the log, the key can be written; until the
live map has it, the change can be made. -/
def Ok (call : LogCall) (s : Store) : CallPhase → Prop
  | serialized record | lockedSet record => Wal.serializeRecord call.record = some record
  | ready record change | queueing record change | offering record change _
  | written record change =>
      Wal.serializeRecord call.record = some record ∧ change.Ready call s ∧
        ¬ Locked Content.isWorm s.view call.key
  | published change | logged change => change.Ready call s
  | _ => True

end CallPhase

section
variable {s s' : Store} {call : LogCall} {change : Change} {phase phase' : CallPhase}

variable {p : Ptr}

theorem Change.Ready.fresh_lt (h : StoreOk s) (hready : change.Ready call s)
    (hp : change.fresh = some p) : p < s.nextPtr ∧ ∀ j, p ∉ (s.shards j).sorted := by
  cases change with
  | remove => cases hp
  | upsert prepared =>
    cases prepared with
    | inPlaceSameLen q => cases hp
    | inPlaceNewVal q v => cases hp
    | putEntry q =>
      obtain rfl : q = p := Option.some.inj hp
      cases call with
      | delete key => exact hready.elim
      | set key value isWorm timestamp => exact ⟨lt_nextPtr_of_some h hready.1, hready.2⟩

theorem CallPhase.Ok.fresh_lt (h : StoreOk s) (hok : phase.Ok call s)
    (hp : phase.fresh = some p) : p < s.nextPtr ∧ ∀ j, p ∉ (s.shards j).sorted := by
  cases phase with
  | ready record change
  | queueing record change | written record change => exact hok.2.1.fresh_lt h hp
  | offering record change head => exact hok.2.1.fresh_lt h hp
  | published change | logged change => exact Change.Ready.fresh_lt h hok hp
  | _ => cases hp

variable {i : Fin shardCount} {own : Option Ptr}

theorem Change.Ready.frame
    (hready : change.Ready call s) (hframe : Frame s s' i own) (h : StoreOk s) (h' : StoreOk s')
    (hi : call.shard ≠ i) (hown : ∀ p, own = some p → ∀ j, p ∉ (s.shards j).sorted)
    (hapart : ∀ p, change.fresh = some p → own ≠ some p) : change.Ready call s' := by
  cases change with
  | remove =>
    cases call with
    | set key value isWorm timestamp => exact hready.elim
    | delete key => trivial
  | upsert prepared =>
    cases call with
    | set key value isWorm timestamp =>
      exact WormDB.Ready.frame hready hframe h h' hi hown hapart
    | delete key => exact hready.elim

/-- What a call knows stays true while calls run on other shards. -/
theorem CallPhase.Ok.frame (hok : phase.Ok call s)
    (hframe : Frame s s' i own) (h : StoreOk s) (h' : StoreOk s')
    (hi : phase.holdsShard = true → call.shard ≠ i)
    (hown : ∀ p, own = some p → ∀ j, p ∉ (s.shards j).sorted)
    (hapart : ∀ p, phase.fresh = some p → own ≠ some p)
    (hview : ∀ key, shardIndex key ≠ i → s'.view key = s.view key) : phase.Ok call s' := by
  have hqueued : ∀ (record : Bytes) (change : Change), Wal.serializeRecord call.record = some record ∧
      change.Ready call s ∧ ¬ Locked Content.isWorm s.view call.key → call.shard ≠ i →
      (∀ p, change.fresh = some p → own ≠ some p) →
      Wal.serializeRecord call.record = some record ∧ change.Ready call s' ∧
        ¬ Locked Content.isWorm s'.view call.key := by
    rintro record change ⟨hrecord, hready, hfree⟩ hshard hfresh
    refine ⟨hrecord, hready.frame hframe h h' hshard hown hfresh, ?_⟩
    rw [Locked, hview call.key hshard]
    exact hfree
  cases phase with
  | called | lockedDelete | trapped => trivial
  | serialized record | lockedSet record => exact hok
  | ready record change => exact hqueued record change hok (hi rfl) hapart
  | queueing record change => exact hqueued record change hok (hi rfl) hapart
  | offering record change head => exact hqueued record change hok (hi rfl) hapart
  | written record change => exact hqueued record change hok (hi rfl) hapart
  | published change
  | logged change => exact Change.Ready.frame hok hframe h h' (hi rfl) hown hapart
  | leaving result | returned result => trivial

end

/-! ## What one step of a call does -/

/-- To the store and the locks. -/
structure CallMove (call : LogCall) (s s' : Store) (phase phase' : CallPhase) : Prop where
  store : StoreOk s'
  ok : phase'.Ok call s'
  frame : s' = s ∨ (phase.holdsShard = true ∧
    ∃ own, Frame s s' call.shard own ∧ ∀ p, own = some p → phase.fresh = some p)
  view : ∀ key, shardIndex key ≠ call.shard → s'.view key = s.view key
  shard : phase'.holdsShard = true → phase.holdsShard = true ∨ call.wantsShard phase = true
  queue : phase'.holdsQueue = true → phase.holdsQueue = true ∨ LogCall.wantsQueue phase = true
  fresh : ∀ p, phase'.fresh = some p → phase.fresh = some p ∨ s.nextPtr ≤ p

/-- A step that leaves the store as it is. -/
theorem CallMove.still {call : LogCall} {s : Store} {phase phase' : CallPhase} (h : StoreOk s)
    (hok : phase'.Ok call s)
    (hshard : phase'.holdsShard = true → phase.holdsShard = true ∨ call.wantsShard phase = true)
    (hqueue : phase'.holdsQueue = true →
      phase.holdsQueue = true ∨ LogCall.wantsQueue phase = true)
    (hfresh : ∀ p, phase'.fresh = some p → phase.fresh = some p) :
    CallMove call s s phase phase' :=
  ⟨h, hok, .inl rfl, fun _ _ => rfl, hshard, hqueue, fun p hp => .inl (hfresh p hp)⟩

/-- To the ring and the log. -/
inductive RingMove (call : LogCall) (s s' : Store) (ring : SlotRing Bytes) :
    CallPhase → CallPhase → SlotRing Bytes → Prop where
  | quiet {phase phase' : CallPhase} (hview : s'.view = s.view)
      (hlog : phase'.inLog = phase.inLog) (hput : ∀ record change, phase' ≠ .written record change)
      (hhead : ∀ record change head, phase' = .offering record change head → head = ring.head)
      (hevent : LogSystem.eventOf call phase phase' = .quiet) :
      RingMove call s s' ring phase phase' ring
  | write {record : Bytes} {change : Change} {head : Nat} (hview : s'.view = s.view)
      (hroom : ring.tail - head < walQueueCap) :
      RingMove call s s' ring (.offering record change head) (.written record change)
        (ring.write walQueueCap record)
  | publish {record : Bytes} {change : Change} (hview : s'.view = s.view) :
      RingMove call s s' ring (.written record change) (.published change) ring.publish
  | commit {change : Change} (hupd : Updates s s' call.key call.entry) :
      RingMove call s s' ring (.logged change) (.leaving (.ok ())) ring

section
variable {s s' : Store} {call : LogCall} {ring ring' : SlotRing Bytes} {phase phase' : CallPhase}
  {alloc : AllocSite → Bool}

/-- The view of other keys. -/
theorem Updates.view_of_ne {key k : Bytes} {e : Option Entry} (h : Updates s s' key e)
    (hk : k ≠ key) : s'.view k = s.view k := by
  rw [h.view, Function.update_of_ne hk]

section
variable (h : StoreOk s)
include h

/-- A set that is past its lock: it is refused, or finds no memory, or is prepared. -/
theorem lockedSet_moves {record : Bytes} (hok : (lockedSet record).Ok call s)
    (hstep : call.step alloc s ring (.lockedSet record) = some (phase', s', ring')) :
    CallMove call s s' (.lockedSet record) phase' ∧
      RingMove call s s' ring (.lockedSet record) phase' ring' := by
  cases call with
  | delete key => cases hstep
  | set key value isWorm timestamp =>
    simp only [LogCall.step] at hstep
    by_cases hworm : s.wormBlocked key = true
    · rw [if_pos hworm] at hstep
      cases hstep
      exact ⟨.still h trivial (fun _ => .inl rfl) (by simp [holdsQueue])
        (by simp [fresh]), .quiet rfl rfl (by simp) (by simp) rfl⟩
    · rw [if_neg hworm] at hstep
      cases hprepare : s.prepareUpsertLocked alloc (shardIndex key) (s.get key) key value isWorm
          timestamp with
      | error f =>
        simp only [hprepare] at hstep
        cases hstep
        exact ⟨.still h trivial (fun _ => .inl rfl) (by simp [holdsQueue])
          (by simp [fresh]), .quiet rfl rfl (by simp) (by simp) rfl⟩
      | ok result =>
        obtain ⟨prepared, t⟩ := result
        simp only [hprepare] at hstep
        obtain ⟨rfl, rfl, rfl⟩ : _ ∧ _ ∧ _ := by simpa using hstep
        have hin := prepare_ready h hprepare
        have hview := hin.keeps.view
        have hfree : ¬ Locked Content.isWorm t.view key := by
          rw [Locked, hview]
          exact wormBlocked_false (Bool.eq_false_iff.mpr hworm)
        refine ⟨⟨hin.keeps.ok, ⟨hok, hin.ready, hfree⟩, .inr ⟨rfl, none, hin.frame, by simp⟩,
          fun k _ => by rw [hview], fun _ => .inl rfl, by simp [holdsQueue],
          fun p hp => .inr (hin.new p hp)⟩, .quiet hview rfl (by simp) (by simp) rfl⟩

/-- A delete that is past its lock: nothing to delete, refused, or serialized. -/
theorem lockedDelete_moves
    (hstep : call.step alloc s ring .lockedDelete = some (phase', s', ring')) :
    CallMove call s s' .lockedDelete phase' ∧
      RingMove call s s' ring .lockedDelete phase' ring' := by
  have hleaves : ∀ result, CallMove call s s .lockedDelete (.leaving result) ∧
      RingMove call s s ring .lockedDelete (.leaving result) ring := fun result =>
    ⟨.still h trivial (fun _ => .inl rfl) (by simp [holdsQueue])
      (by simp [fresh]), .quiet rfl rfl (by simp) (by simp) rfl⟩
  cases call with
  | set key value isWorm timestamp => cases hstep
  | delete key =>
    simp only [LogCall.step] at hstep
    cases hat : (s.get key).bind s.mem with
    | none =>
      simp only [hat] at hstep
      cases hstep
      exact hleaves _
    | some existing =>
      simp only [hat] at hstep
      by_cases hworm : existing.flags.isWorm = true
      · rw [if_pos hworm] at hstep
        cases hstep
        exact hleaves _
      · rw [if_neg hworm] at hstep
        by_cases hmemory : (!alloc .record) = true
        · rw [if_pos hmemory] at hstep
          cases hstep
          exact hleaves _
        · rw [if_neg hmemory] at hstep
          cases hrecord : Wal.serializeDeleteRecord key with
          | none =>
            simp only [hrecord] at hstep
            cases hstep
            exact ⟨.still h trivial (by simp [holdsShard])
              (by simp [holdsQueue]) (by simp [fresh]),
              .quiet rfl rfl (by simp) (by simp) rfl⟩
          | some record =>
            simp only [hrecord] at hstep
            cases hstep
            have hfree := not_locked_of_entry (show s.entryAt key = some existing from hat)
              (Bool.eq_false_iff.mpr hworm)
            exact ⟨.still h ⟨hrecord, trivial, hfree⟩ (fun _ => .inl rfl)
              (by simp [holdsQueue]) (by simp [fresh, Change.fresh]),
              .quiet rfl rfl (by simp) (by simp) rfl⟩

/-- The change of the live map. -/
theorem logged_moves {change : Change} (hready : change.Ready call s)
    (hstep : call.step alloc s ring (.logged change) = some (phase', s', ring')) :
    CallMove call s s' (.logged change) phase' ∧
      RingMove call s s' ring (.logged change) phase' ring' := by
  have hmove : ∀ {t : Store}, Updates s t call.key call.entry →
      Frame s t call.shard change.fresh →
      CallMove call s t (.logged change) (.leaving (.ok ())) ∧
        RingMove call s t ring (.logged change) (.leaving (.ok ())) ring := by
    intro t hupd hframe
    refine ⟨⟨hupd.ok, trivial, .inr ⟨rfl, _, hframe, fun p hp => hp⟩, fun k hk => ?_,
      fun _ => .inl rfl, by simp [holdsQueue], by simp [fresh]⟩, .commit hupd⟩
    refine hupd.view_of_ne ?_
    rintro rfl
    exact hk rfl
  cases call with
  | set key value isWorm timestamp =>
    cases change with
    | remove => exact hready.elim
    | upsert prepared =>
      obtain ⟨t, hcommit, hupd, hframe⟩ := WormDB.Ready.commit h hready
      simp only [LogCall.step, hcommit] at hstep
      cases hstep
      exact hmove hupd hframe
  | delete key =>
    cases change with
    | upsert prepared => exact hready.elim
    | remove =>
      simp only [LogCall.step] at hstep
      cases hstep
      exact hmove (h.drop key) (drop_frame h key none)

/-- The first step: a set serializes its record, a delete locks. -/
theorem called_moves (hstep : call.step alloc s ring .called = some (phase', s', ring')) :
    CallMove call s s' .called phase' ∧ RingMove call s s' ring .called phase' ring' := by
  cases call with
  | delete key =>
    cases hstep
    exact ⟨.still h trivial (fun _ => .inr rfl) (by simp [holdsQueue])
      (by simp [fresh]), .quiet rfl rfl (by simp) (by simp) rfl⟩
  | set key value isWorm timestamp =>
    simp only [LogCall.step] at hstep
    by_cases hmemory : (!alloc .record) = true
    · rw [if_pos hmemory] at hstep
      cases hstep
      exact ⟨.still h trivial (by simp [holdsShard]) (by simp [holdsQueue])
        (by simp [fresh]), .quiet rfl rfl (by simp) (by simp) rfl⟩
    · rw [if_neg hmemory] at hstep
      cases hrecord : Wal.serializeSetRecord key value (.written isWorm) timestamp with
      | none =>
        simp only [hrecord] at hstep
        cases hstep
        exact ⟨.still h trivial (by simp [holdsShard]) (by simp [holdsQueue])
          (by simp [fresh]), .quiet rfl rfl (by simp) (by simp) rfl⟩
      | some record =>
        simp only [hrecord] at hstep
        cases hstep
        exact ⟨.still h hrecord (by simp [holdsShard]) (by simp [holdsQueue])
          (by simp [fresh]), .quiet rfl rfl (by simp) (by simp) rfl⟩

/-- **Everything one step of a call can do.** -/
theorem call_moves (hok : phase.Ok call s)
    (hstep : call.step alloc s ring phase = some (phase', s', ring')) :
    CallMove call s s' phase phase' ∧ RingMove call s s' ring phase phase' ring' := by
  cases phase with
  | called => exact called_moves h hstep
  | lockedSet record => exact lockedSet_moves h hok hstep
  | lockedDelete => exact lockedDelete_moves h hstep
  | logged change => exact logged_moves h hok hstep
  | serialized record =>
    cases hstep
    exact ⟨.still h hok (fun _ => .inr (by simp [LogCall.wantsShard]))
      (by simp [holdsQueue]) (by simp [fresh]),
      .quiet rfl rfl (by simp) (by simp) rfl⟩
  | ready record change =>
    cases hstep
    exact ⟨.still h hok (fun _ => .inl rfl) (fun _ => .inr rfl) (fun _ hp => hp),
      .quiet rfl rfl (by simp) (by simp) rfl⟩
  | queueing record change =>
    cases hstep
    refine ⟨.still h hok (fun _ => .inl rfl) (fun _ => .inl rfl) (fun _ hp => hp),
      .quiet rfl rfl (by simp) ?_ rfl⟩
    intro record' change' head hphase
    injection hphase with _ _ hhead
    exact hhead.symm
  | offering record change head =>
    simp only [LogCall.step] at hstep
    by_cases hfull : ring.tail - head ≥ walQueueCap
    · rw [if_pos hfull] at hstep
      cases hstep
      exact ⟨.still h hok (fun _ => .inl rfl) (fun _ => .inl rfl) (fun _ hp => hp),
        .quiet rfl rfl (by simp) (by simp) rfl⟩
    · rw [if_neg hfull] at hstep
      cases hstep
      exact ⟨.still h hok (fun _ => .inl rfl) (fun _ => .inl rfl) (fun _ hp => hp),
        .write rfl (lt_of_not_ge hfull)⟩
  | written record change =>
    cases hstep
    exact ⟨.still h hok.2.1 (fun _ => .inl rfl) (fun _ => .inl rfl) (fun _ hp => hp),
      .publish rfl⟩
  | published change =>
    cases hstep
    exact ⟨.still h hok (fun _ => .inl rfl) (by simp [holdsQueue]) (fun _ hp => hp),
      .quiet rfl rfl (by simp) (by simp) rfl⟩
  | leaving result =>
    cases hstep
    exact ⟨.still h trivial (by simp [holdsShard]) (by simp [holdsQueue])
      (by simp [fresh]), .quiet rfl rfl (by simp) (by simp) rfl⟩
  | returned result => cases hstep
  | trapped => cases hstep

end

end

/-! ## The locks and the store -/

/-- What every call knows holds, and calls with a lock in common are one. -/
structure CallsOk {n : Nat} (calls : Fin n → LogCall) (s : LogSystem n) : Prop where
  store : StoreOk s.store
  phases : ∀ i, (s.phases i).Ok (calls i) s.store
  shards : ∀ i j, i ≠ j → (s.phases i).holdsShard = true → (s.phases j).holdsShard = true →
    (calls i).shard ≠ (calls j).shard
  queue : ∀ i j, i ≠ j → (s.phases i).holdsQueue = true → (s.phases j).holdsQueue = false
  fresh : ∀ i j, i ≠ j → ∀ p, (s.phases i).fresh = some p → (s.phases j).fresh ≠ some p

section
variable {n : Nat} {calls : Fin n → LogCall} {s : LogSystem n} {i : Fin n} {phase : CallPhase}
  {store : Store} {ring : SlotRing Bytes}

theorem CallPhase.holdsShard_of_inLog {phase : CallPhase} (h : phase.inLog = true) :
    phase.holdsShard = true := by
  cases phase with
  | published change => rfl
  | logged change => rfl
  | _ => cases h

/-- A pairwise fact about the phases, after one call has moved: it is enough to compare the
call with the others. -/
theorem pairwise_update {P : Fin n → Fin n → CallPhase → CallPhase → Prop}
    (h : ∀ a b, a ≠ b → P a b (s.phases a) (s.phases b))
    (hi : ∀ j, j ≠ i → P i j phase (s.phases j) ∧ P j i (s.phases j) phase) :
    ∀ a b, a ≠ b → P a b (Function.update s.phases i phase a) (Function.update s.phases i phase b) := by
  intro a b hab
  by_cases ha : a = i
  · subst ha
    rw [Function.update_self, Function.update_of_ne (Ne.symm hab)]
    exact (hi b (Ne.symm hab)).1
  · rw [Function.update_of_ne ha]
    by_cases hb : b = i
    · subst hb
      rw [Function.update_self]
      exact (hi a ha).2
    · rw [Function.update_of_ne hb]
      exact h a b hab

theorem CallsOk.move (h : CallsOk calls s)
    (hmove : CallMove (calls i) s.store store (s.phases i) phase)
    (hshard : (calls i).wantsShard (s.phases i) = true → ¬ s.ShardBusy calls i)
    (hqueue : LogCall.wantsQueue (s.phases i) = true → ¬ s.QueueBusy i) :
    CallsOk calls
      { s with store := store, ring := ring, phases := Function.update s.phases i phase } where
  store := hmove.store
  phases := by
    intro j
    by_cases hj : j = i
    · subst hj
      simp only [Function.update_self]
      exact hmove.ok
    · simp only [Function.update_of_ne hj]
      rcases hmove.frame with rfl | ⟨hheld, own, hframe, hown⟩
      · exact h.phases j
      · refine (h.phases j).frame hframe h.store hmove.store
          (fun hheld' => h.shards j i hj hheld' hheld) ?_ ?_ hmove.view
        · intro p hp
          exact ((h.phases i).fresh_lt h.store (hown p hp)).2
        · intro p hp hpown
          exact h.fresh i j (Ne.symm hj) p (hown p hpown) hp
  shards := by
    refine pairwise_update (P := fun a b pa pb => pa.holdsShard = true → pb.holdsShard = true →
      (calls a).shard ≠ (calls b).shard) h.shards (fun j hj => ?_)
    -- a shard is entered when nobody else holds it
    have hne : phase.holdsShard = true → (s.phases j).holdsShard = true →
        (calls j).shard ≠ (calls i).shard := by
      intro hheld hheld' heq
      rcases hmove.shard hheld with hold | hwants
      · exact h.shards j i hj hheld' hold heq
      · exact hshard hwants ⟨j, hj, hheld', heq⟩
    exact ⟨fun hi hj' => Ne.symm (hne hi hj'), fun hj' hi => hne hi hj'⟩
  queue := by
    refine pairwise_update (P := fun _ _ pa pb => pa.holdsQueue = true → pb.holdsQueue = false)
      h.queue (fun j hj => ?_)
    -- and so is the queue
    have hne : phase.holdsQueue = true → (s.phases j).holdsQueue = false := by
      intro hheld
      rcases hmove.queue hheld with hold | hwants
      · exact h.queue i j (Ne.symm hj) hold
      · cases hother : (s.phases j).holdsQueue with
        | false => rfl
        | true => exact absurd ⟨j, hj, hother⟩ (hqueue hwants)
    refine ⟨hne, fun hother => ?_⟩
    cases hheld : phase.holdsQueue with
    | false => rfl
    | true =>
      rw [hne hheld] at hother
      cases hother
  fresh := by
    refine pairwise_update (P := fun _ _ pa pb => ∀ p, pa.fresh = some p → pb.fresh ≠ some p)
      h.fresh (fun j hj => ?_)
    have hne : ∀ p, phase.fresh = some p → (s.phases j).fresh ≠ some p := by
      intro p hp hother
      rcases hmove.fresh p hp with hold | hnew
      · exact h.fresh i j (Ne.symm hj) p hold hother
      · -- the entry is new, and the other call's is not
        have hlt := ((h.phases j).fresh_lt h.store hother).1
        exact absurd hnew (Nat.not_le.mpr hlt)
    exact ⟨hne, fun p hother hp => hne p hp hother⟩

end

end WormDB
