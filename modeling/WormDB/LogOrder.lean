import WormDB.LogCalls
import WormDB.TornTail
import WormDB.WalQueue

/-! # The order of the log

What holds in every state of the system of `LogPipeline`, as long as no write to the file
fails.  The records that have been put into the ring are one sequence, the log: the file has
its beginning, then come what the writer carries and what is in the ring (`PipeOk`).  Records
of one key go into the log under one shard's lock, which a call keeps until it has changed
the live map, so for one key the log and the live map are in the same order; the log is ahead
by the record of the call that holds the lock, at most (`LiveOk`).

So what a crash leaves in the file is, key by key, a beginning of what happened
(`log_order`). -/
namespace WormDB
open List ByteCodec RingQueue GuardedReplay
open Function (update_of_ne update_self)
open Function

section
variable {n : Nat} {calls : Fin n → LogCall} {s : LogSystem n} {i : Fin n} {phase : CallPhase}
  {store : Store} {ring : SlotRing Bytes}

/-! ## The pipeline -/

/-- The file has the beginning of the log, the writer carries what comes next, and the ring
holds the rest. -/
structure PipeOk {n : Nat} (file₀ : Bytes) (s : LogSystem n) (log : List WalRecord) : Prop where
  heads : ∀ i record change head, s.phases i = .offering record change head → head ≤ s.ring.head
  seen : ∀ batch buf tail, s.writer = .seen batch buf tail →
    s.ring.head ≤ tail ∧ tail ≤ s.ring.tail
  pipe : ∃ xs put bytes appended, Holds walQueueCap s.ring xs s.writer.taken put ∧
    (∀ i record change, s.phases i = .written record change → put = some record) ∧
    encodeLog log = some bytes ∧ s.file = file₀ ++ appended ∧
    bytes = appended ++ s.writer.carried ++ xs.flatten

theorem PipeOk.start (store : Store) (file₀ : Bytes) :
    PipeOk file₀ (LogSystem.start store file₀ : LogSystem n) [] where
  heads := by simp [LogSystem.start]
  seen := by simp [LogSystem.start]
  pipe := ⟨[], none, [], [], holds_empty _, by simp [LogSystem.start], rfl,
    by simp [LogSystem.start], by simp [LogSystem.start, WriterPhase.carried]⟩

variable {file₀ : Bytes} {log : List WalRecord}

theorem PipeOk.writer (h : PipeOk file₀ s log) {chunk : Nat} {writer : WriterPhase} {file : Bytes}
    (hstep : s.writer.step chunk s.ring s.file = (writer, ring, file)) :
    PipeOk file₀ { s with writer := writer, ring := ring, file := file } log := by
  obtain ⟨xs, put, bytes, appended, hholds, hput, hlog, hfile, hbytes⟩ := h.pipe
  obtain ⟨hseen, hhead, -, ⟨ys, rfl, hholds'⟩, piece, rfl, hpiece⟩ :=
    WriterPhase.step_moved hholds h.seen hstep
  refine ⟨fun i record change head hi => ?_, hseen, ys, put, bytes, appended ++ piece, hholds',
    hput, hlog, ?_, ?_⟩
  · -- the head only grows, so what a call has read of it is still a lower bound
    exact le_trans (h.heads i record change head hi) hhead
  · rw [hfile, append_assoc]
  · calc bytes = appended ++ (s.writer.carried ++ writer.came.flatten) ++ ys.flatten := by
          rw [hbytes, flatten_append]
          simp only [append_assoc]
      _ = appended ++ piece ++ writer.carried ++ ys.flatten := by
          rw [hpiece]
          simp only [append_assoc]

/-- A fact about every phase of a kind, after one call has moved. -/
theorem update_forall {P : CallPhase → Prop} (h : ∀ j, j ≠ i → P (s.phases j)) (hi : P phase)
    (j : Fin n) : P (update s.phases i phase j) := by
  by_cases hj : j = i
  · subst hj
    rw [update_self]
    exact hi
  · rw [update_of_ne hj]
    exact h j hj

/-- A call that does not touch the ring. -/
theorem PipeOk.quiet (h : PipeOk file₀ s log)
    (hput : ∀ record change, phase ≠ .written record change)
    (hhead : ∀ record change head, phase = .offering record change head → head = s.ring.head) :
    PipeOk file₀ { s with store := store, phases := update s.phases i phase } log := by
  obtain ⟨xs, put, bytes, appended, hholds, hold, hlog, hfile, hbytes⟩ := h.pipe
  refine ⟨?_, h.seen, xs, put, bytes, appended, hholds, ?_, hlog, hfile, hbytes⟩
  · refine update_forall (P := fun p => ∀ record change head, p = .offering record change head →
      head ≤ s.ring.head) (fun j _ => h.heads j) (fun record change head hphase => ?_)
    exact le_of_eq (hhead record change head hphase)
  · exact update_forall (P := fun p => ∀ record change, p = .written record change →
      put = some record) (fun j _ => hold j) (fun record change hphase => absurd hphase (hput _ _))

variable {record : Bytes} {change : Change}

/-- A call that writes its record into the ring. -/
theorem PipeOk.write (h : PipeOk file₀ s log)
    (hcalls : CallsOk calls s) {head : Nat}
    (hphase : s.phases i = .offering record change head)
    (hroom : s.ring.tail - head < walQueueCap) :
    PipeOk file₀ { s with store := store, ring := s.ring.write walQueueCap record,
                          phases := update s.phases i (.written record change) } log := by
  obtain ⟨xs, put, bytes, appended, hholds, hold, hlog, hfile, hbytes⟩ := h.pipe
  have hhead := h.heads i record change head hphase
  refine ⟨?_, h.seen, xs, some record, bytes, appended, hholds.write (by omega) record, ?_, hlog,
    hfile, hbytes⟩
  · exact update_forall (P := fun p => ∀ record change head, p = .offering record change head →
      head ≤ s.ring.head) (fun j _ => h.heads j) (by simp)
  · refine update_forall (P := fun p => ∀ r c, p = .written r c → some record = some r) ?_ (by simp)
    intro j hj r c hother
    -- the queue is this call's
    have hqueue := hcalls.queue i j (Ne.symm hj) (by rw [hphase]; rfl)
    rw [hother] at hqueue
    cases hqueue

/-- **A call puts its record at the end of the log.** -/
theorem PipeOk.publish (h : PipeOk file₀ s log)
    (hcalls : CallsOk calls s)
    (hphase : s.phases i = .written record change) :
    PipeOk file₀ { s with store := store, ring := s.ring.publish,
                          phases := update s.phases i (.published change) }
      (log ++ [(calls i).record]) := by
  obtain ⟨xs, put, bytes, appended, hholds, hold, hlog, hfile, hbytes⟩ := h.pipe
  obtain rfl := hold i record change hphase
  have hrecord : Wal.serializeRecord (calls i).record = some record := by
    have hok := hcalls.phases i
    rw [hphase] at hok
    exact hok.1
  refine ⟨?_, ?_, xs ++ [record], none, bytes ++ record, appended, hholds.publish, ?_,
    encodeLog_append hlog (encodeLog_singleton hrecord), hfile, ?_⟩
  · exact update_forall (P := fun p => ∀ record change head, p = .offering record change head →
      head ≤ s.ring.head) (fun j _ => h.heads j) (by simp)
  · intro batch buf tail hseen
    obtain ⟨hhead, htail⟩ := h.seen batch buf tail hseen
    exact ⟨hhead, Nat.le_succ_of_le htail⟩
  · refine update_forall (P := fun p => ∀ r c, p = .written r c → none = some r) ?_ (by simp)
    intro j hj r c hother
    have hqueue := hcalls.queue i j (Ne.symm hj) (by rw [hphase]; rfl)
    rw [hother] at hqueue
    cases hqueue
  · rw [hbytes, flatten_append, flatten_singleton, append_assoc]

/-! ## The live map -/

/-- Away from the calls between their record and their change, the live map is what the log
gives; there, it is what the log gives without the last record of the key. -/
structure LiveOk {n : Nat} (calls : Fin n → LogCall) (view₀ : Bytes → Option Content)
    (changes : List WalRecord) (s : LogSystem n) (log : List WalRecord) : Prop where
  mine : ∀ r ∈ log, ∃ i, r = (calls i).record
  live : ∀ key, (∀ i, (s.phases i).inLog = true → (calls i).key ≠ key) →
    s.store.view key = replay Content.isWorm view₀ (writesOf log) key
  pending : ∀ i, (s.phases i).inLog = true →
    replay Content.isWorm view₀ (writesOf log) (calls i).key = (calls i).entry.map Entry.content
  order : ∀ key, (∀ i, (s.phases i).inLog = true → (calls i).key ≠ key) →
    onKey key log = onKey key changes
  ahead : ∀ i, (s.phases i).inLog = true →
    onKey (calls i).key log = onKey (calls i).key changes ++ [(calls i).record]

theorem LiveOk.start (store : Store) (file₀ : Bytes) :
    LiveOk calls store.view [] (LogSystem.start store file₀ : LogSystem n) [] where
  mine := by simp
  live := fun _ _ => rfl
  pending := by simp [LogSystem.start, CallPhase.inLog]
  order := fun _ _ => rfl
  ahead := by simp [LogSystem.start, CallPhase.inLog]

theorem LogCall.record_key (call : LogCall) : call.record.key = call.key := by
  cases call <;> rfl

theorem LogCall.writesOf_record (call : LogCall) :
    writesOf [call.record] = [(call.key, call.entry.map Entry.content)] := by
  cases call <;> rfl

theorem onKey_append (key : Bytes) (log log' : List WalRecord) :
    onKey key (log ++ log') = onKey key log ++ onKey key log' := filter_append ..

theorem onKey_self (call : LogCall) : onKey call.key [call.record] = [call.record] := by
  simp [onKey, call.record_key]

theorem onKey_other {call : LogCall} {key : Bytes} (h : call.key ≠ key) :
    onKey key [call.record] = [] := by
  simp [onKey, call.record_key, h]

/-- Calls that hold their shards are on different keys. -/
theorem CallsOk.key_ne (h : CallsOk calls s) {j : Fin n} (hij : i ≠ j)
    (hi : (s.phases i).holdsShard = true) (hj : (s.phases j).holdsShard = true) :
    (calls i).key ≠ (calls j).key := by
  intro heq
  refine h.shards i j hij hi hj ?_
  rw [LogCall.shard, LogCall.shard, heq]

section
variable {view₀ : Bytes → Option Content} {changes log : List WalRecord}

/-- A call that neither logs nor commits. -/
theorem LiveOk.quiet (h : LiveOk calls view₀ changes s log)
    (hview : store.view = s.store.view) (hlog : phase.inLog = (s.phases i).inLog) :
    LiveOk calls view₀ changes
      { s with store := store, ring := ring, phases := update s.phases i phase } log := by
  have hsame : ∀ j, (update s.phases i phase j).inLog = (s.phases j).inLog := by
    intro j
    by_cases hj : j = i
    · subst hj
      rw [update_self, hlog]
    · rw [update_of_ne hj]
  refine ⟨h.mine, ?_, ?_, ?_, ?_⟩
  · intro key hkey
    simp only [hsame, hview] at hkey ⊢
    exact h.live key hkey
  · intro j hj
    simp only [hsame] at hj
    exact h.pending j hj
  · intro key hkey
    simp only [hsame] at hkey
    exact h.order key hkey
  · intro j hj
    simp only [hsame] at hj
    exact h.ahead j hj

variable {change : Change}

/-- **A call logs its record.**  Its key could be written when it looked, and nobody else has
had the shard since. -/
theorem LiveOk.publish (h : LiveOk calls view₀ changes s log) (hcalls : CallsOk calls s) (hphase : s.phases i = .written record change)
    (hview : store.view = s.store.view) :
    LiveOk calls view₀ changes
      { s with store := store, ring := ring,
               phases := update s.phases i (.published change) }
      (log ++ [(calls i).record]) := by
  have hheld : (s.phases i).holdsShard = true := by
    rw [hphase]
    rfl
  have hnotLogged : (s.phases i).inLog = false := by
    rw [hphase]
    rfl
  -- nobody else has this key in the log and not in the map: it would hold the shard
  have hother : ∀ j, (s.phases j).inLog = true → j ≠ i := by
    rintro j hj rfl
    cases hnotLogged.symm.trans hj
  have halone : ∀ j, (s.phases j).inLog = true → (calls j).key ≠ (calls i).key := fun j hj =>
    hcalls.key_ne (hother j hj) (CallPhase.holdsShard_of_inLog hj) hheld
  -- so the log's value of the key is still the live one, which the call found writable
  have hfree : ¬ Locked Content.isWorm (replay Content.isWorm view₀ (writesOf log))
      (calls i).key := by
    have hok := hcalls.phases i
    rw [hphase] at hok
    rw [Locked, ← h.live _ halone]
    exact hok.2.2
  have hreplay : replay Content.isWorm view₀ (writesOf (log ++ [(calls i).record])) =
      update (replay Content.isWorm view₀ (writesOf log)) (calls i).key
        ((calls i).entry.map Entry.content) := by
    rw [writesOf_append, replay_append, LogCall.writesOf_record]
    exact apply_of_not_locked hfree
  have hlogged : (update s.phases i (.published change) i).inLog = true := by
    rw [update_self]
    rfl
  have hkeeps : ∀ j, (s.phases j).inLog = true →
      (update s.phases i (.published change) j).inLog = true := by
    intro j hj
    rw [update_of_ne (hother j hj)]
    exact hj
  have hupdate : ∀ j, (update s.phases i (.published change) j).inLog = true →
      j = i ∨ (s.phases j).inLog = true := by
    intro j hj
    by_cases hji : j = i
    · exact .inl hji
    · rw [update_of_ne hji] at hj
      exact .inr hj
  refine ⟨?_, ?_, ?_, ?_, ?_⟩
  · intro r hr
    rcases mem_append.mp hr with hr | hr
    · exact h.mine r hr
    · exact ⟨i, mem_singleton.mp hr⟩
  · intro key hkey
    have hi := hkey i hlogged
    rw [hreplay, update_of_ne (Ne.symm hi), hview]
    exact h.live key (fun j hj => hkey j (hkeeps j hj))
  · intro j hj
    rw [hreplay]
    rcases hupdate j hj with rfl | hold
    · rw [update_self]
    · rw [update_of_ne (halone j hold)]
      exact h.pending j hold
  · intro key hkey
    rw [onKey_append, onKey_other (hkey i hlogged), append_nil]
    exact h.order key (fun j hj => hkey j (hkeeps j hj))
  · intro j hj
    rw [onKey_append]
    rcases hupdate j hj with rfl | hold
    · rw [onKey_self, h.order _ halone]
    · rw [onKey_other (Ne.symm (halone j hold)), append_nil]
      exact h.ahead j hold

/-- **A call changes the live map**, which catches up with the log. -/
theorem LiveOk.commit (h : LiveOk calls view₀ changes s log) (hcalls : CallsOk calls s) (hphase : s.phases i = .logged change)
    (hupd : Updates s.store store (calls i).key (calls i).entry) :
    LiveOk calls view₀ (changes ++ [(calls i).record])
      { s with store := store, ring := ring,
               phases := update s.phases i (.leaving (.ok ())) } log := by
  have hlogged : (s.phases i).inLog = true := by
    rw [hphase]
    rfl
  have hheld := CallPhase.holdsShard_of_inLog hlogged
  have hupdate : ∀ j, (update s.phases i (.leaving (.ok ())) j).inLog = true →
      j ≠ i ∧ (s.phases j).inLog = true := by
    intro j hj
    by_cases hji : j = i
    · subst hji
      rw [update_self] at hj
      cases hj
    · rw [update_of_ne hji] at hj
      exact ⟨hji, hj⟩
  have hback : ∀ key, (calls i).key ≠ key →
      (∀ j, (update s.phases i (.leaving (.ok ())) j).inLog = true →
        (calls j).key ≠ key) → ∀ j, (s.phases j).inLog = true → (calls j).key ≠ key := by
    intro key hi hkey j hj
    by_cases hji : j = i
    · subst hji
      exact hi
    · refine hkey j ?_
      rw [update_of_ne hji]
      exact hj
  refine ⟨h.mine, ?_, ?_, ?_, ?_⟩
  · intro key hkey
    -- the call's own key comes to what the log says, the others were there
    by_cases hi : (calls i).key = key
    · rw [← hi, h.pending i hlogged, hupd.view, update_self]
    · rw [hupd.view_of_ne (Ne.symm hi)]
      exact h.live key (hback key hi hkey)
  · intro j hj
    exact h.pending j (hupdate j hj).2
  · intro key hkey
    rw [onKey_append]
    by_cases hi : (calls i).key = key
    · rw [← hi, onKey_self, h.ahead i hlogged]
    · rw [onKey_other hi, append_nil]
      exact h.order key (hback key hi hkey)
  · intro j hj
    obtain ⟨hji, hold⟩ := hupdate j hj
    have hne := hcalls.key_ne (Ne.symm hji) hheld (CallPhase.holdsShard_of_inLog hold)
    rw [onKey_append, onKey_other hne, append_nil]
    exact h.ahead j hold

end

/-! ## Runs -/

/-- What holds in every state of a run. -/
structure LogOk {n : Nat} (calls : Fin n → LogCall) (view₀ : Bytes → Option Content)
    (file₀ : Bytes) (changes : List WalRecord) (s : LogSystem n) (log : List WalRecord) :
    Prop where
  held : CallsOk calls s
  pipe : PipeOk file₀ s log
  live : LiveOk calls view₀ changes s log

variable {s₀ : Store}

theorem LogOk.start (h : StoreOk s₀) (file₀ : Bytes) :
    LogOk calls s₀.view file₀ [] (LogSystem.start s₀ file₀) [] where
  held :=
    { store := h
      phases := fun _ => trivial
      shards := by simp [LogSystem.start, CallPhase.holdsShard]
      queue := by simp [LogSystem.start, CallPhase.holdsQueue]
      fresh := by simp [LogSystem.start, CallPhase.fresh] }
  pipe := PipeOk.start s₀ file₀
  live := LiveOk.start s₀ file₀

theorem changesOf_append (events events' : List LogEvent) :
    changesOf (events ++ events') = changesOf events ++ changesOf events' := filterMap_append

theorem append_changesOf_quiet (changes : List WalRecord) :
    changes ++ changesOf [.quiet] = changes := append_nil changes

section
variable {view₀ : Bytes → Option Content} {file₀ : Bytes} {changes log : List WalRecord}

/-- **One step of a call.** -/
theorem LogOk.call (h : LogOk calls view₀ file₀ changes s log) {alloc : AllocSite → Bool}
    (hshard : (calls i).wantsShard (s.phases i) = true → ¬ s.ShardBusy calls i)
    (hqueue : LogCall.wantsQueue (s.phases i) = true → ¬ s.QueueBusy i)
    (hstep : (calls i).step alloc s.store s.ring (s.phases i) = some (phase, store, ring)) :
    ∃ log', LogOk calls view₀ file₀
      (changes ++ changesOf [LogSystem.eventOf (calls i) (s.phases i) phase])
      { s with store := store, ring := ring, phases := update s.phases i phase } log' := by
  obtain ⟨hmove, hring⟩ := call_moves h.held.store (h.held.phases i) hstep
  have hcalls : CallsOk calls { s with store := store, ring := ring,
                                       phases := update s.phases i phase } :=
    h.held.move hmove hshard hqueue
  generalize hold : s.phases i = old at hring
  cases hring with
  | quiet hview hlog hput hhead hevent =>
    rw [hevent, append_changesOf_quiet]
    refine ⟨log, hcalls, h.pipe.quiet hput hhead, h.live.quiet hview ?_⟩
    rw [hold, hlog]
  | write hview hroom =>
    change ∃ log', LogOk calls view₀ file₀ (changes ++ changesOf [.quiet]) _ log'
    rw [append_changesOf_quiet]
    refine ⟨log, hcalls, h.pipe.write h.held hold hroom, h.live.quiet hview ?_⟩
    rw [hold]
    rfl
  | publish hview =>
    change ∃ log', LogOk calls view₀ file₀ (changes ++ changesOf [.quiet]) _ log'
    rw [append_changesOf_quiet]
    exact ⟨log ++ [(calls i).record], hcalls, h.pipe.publish h.held hold,
      h.live.publish h.held hold hview⟩
  | commit hupd =>
    exact ⟨log, hcalls, h.pipe.quiet (by simp) (by simp), h.live.commit h.held hold hupd⟩

/-- **One step of the system.** -/
theorem LogOk.step (h : LogOk calls view₀ file₀ changes s log) {event : LogEvent}
    {s' : LogSystem n} (hstep : LogSystem.Step calls event s s')
    (hwrites : event ≠ .writeFailed) :
    ∃ log', LogOk calls view₀ file₀ (changes ++ changesOf [event]) s' log' := by
  cases hstep with
  | call i alloc hrunning hshard hqueue hstep => exact h.call hshard hqueue hstep
  | writer chunk hrunning hstep =>
    refine ⟨log, ⟨h.held.store, h.held.phases, h.held.shards, h.held.queue, h.held.fresh⟩,
      h.pipe.writer hstep, ?_⟩
    rw [append_changesOf_quiet]
    exact ⟨h.live.mine, h.live.live, h.live.pending, h.live.order, h.live.ahead⟩
  | writeFailed hrunning => exact absurd rfl hwrites

/-- **Every run.** -/
theorem LogOk.run (h : StoreOk s₀) (file₀ : Bytes) {events : List LogEvent}
    (hrun : LogSystem.Run calls (LogSystem.start s₀ file₀) events s)
    (hwrites : LogEvent.writeFailed ∉ events) :
    ∃ log, LogOk calls s₀.view file₀ (changesOf events) s log := by
  induction hrun with
  | nil => exact ⟨[], LogOk.start h file₀⟩
  | snoc hrun hstep ih =>
    rw [mem_append, not_or, mem_singleton] at hwrites
    obtain ⟨log, hlog⟩ := ih hwrites.1
    rw [changesOf_append]
    exact hlog.step hstep (Ne.symm hwrites.2)

end

/-! ## The file -/

/-- **A beginning of the bytes of a log is read as a beginning of the log.** -/
theorem recordsLoop_prefix (hflags : ∀ r ∈ log, r.KnownFlags)
    {bytes cut rest : Bytes} (henc : encodeLog log = some bytes) (hbytes : bytes = cut ++ rest)
    (fuel : Nat) : recordsLoop fuel cut <+: log := by
  induction log generalizing bytes cut fuel with
  | nil =>
    obtain rfl : [] = bytes := Option.some.inj henc
    obtain ⟨rfl, -⟩ := append_eq_nil_iff.mp hbytes.symm
    cases fuel with
    | zero => exact prefix_rfl
    | succ fuel => exact prefix_rfl
  | cons r log ih =>
    obtain ⟨record, tail, hser, htail, rfl⟩ := encodeLog_cons.mp henc
    cases fuel with
    | zero => exact nil_prefix
    | succ fuel =>
      rw [recordsLoop]
      by_cases hcut : cut.length < record.length
      · -- the file ends inside this record
        have htake : cut = record.take cut.length := by
          have hlen := congrArg (List.take cut.length) hbytes
          rw [take_append_of_le_length (le_of_lt hcut), take_left' rfl] at hlen
          exact hlen.symm
        rw [htake]
        rcases torn_next hser hcut with hdone | hcorrupt
        · rw [hdone]
          exact nil_prefix
        · rw [hcorrupt]
          exact nil_prefix
      · obtain ⟨cut, rfl, hrest⟩ : ∃ cut', cut = record ++ cut' ∧ tail = cut' ++ rest := by
          rcases append_eq_append_iff.mp hbytes with ⟨as, hcut', htail'⟩ | ⟨bs, hrecord, hrest⟩
          · exact ⟨as, hcut', htail'⟩
          · rw [hrecord, length_append] at hcut
            obtain rfl := eq_nil_of_length_eq_zero (show bs.length = 0 by omega)
            exact ⟨[], by simpa using hrecord.symm, by simpa using hrest.symm⟩
        by_cases hfit : r.Replayable
        · rw [next_serializeRecord hser (hflags r mem_cons_self) hfit]
          have hrest' := ih (fun x hx => hflags x (mem_cons_of_mem r hx)) htail hrest fuel
          exact cons_prefix_cons.mpr ⟨rfl, hrest'⟩
        · rw [next_oversize hser hfit]
          exact nil_prefix

variable {view₀ : Bytes → Option Content} {changes : List WalRecord}

theorem LiveOk.knownFlags (h : LiveOk calls view₀ changes s log) : ∀ r ∈ log, r.KnownFlags := by
  intro r hr
  obtain ⟨i, rfl⟩ := h.mine r hr
  cases calls i with
  | set key value isWorm timestamp => trivial
  | delete key => trivial

/-- What is in the log has been committed or is about to be. -/
theorem LiveOk.mem (h : LiveOk calls view₀ changes s log) {r : WalRecord} (hr : r ∈ log) :
    r ∈ changes ∨ ∃ i, (s.phases i).inLog = true ∧ r = (calls i).record := by
  have hmem : r ∈ onKey r.key log := mem_filter.mpr ⟨hr, decide_eq_true rfl⟩
  by_cases hfree : ∀ i, (s.phases i).inLog = true → (calls i).key ≠ r.key
  · rw [h.order r.key hfree] at hmem
    exact .inl (mem_of_mem_filter hmem)
  · push Not at hfree
    obtain ⟨i, hlogged, hkey⟩ := hfree
    rw [← hkey, h.ahead i hlogged] at hmem
    rcases mem_append.mp hmem with hmem | hmem
    · exact .inl (mem_of_mem_filter hmem)
    · exact .inr ⟨i, hlogged, mem_singleton.mp hmem⟩

/-- What a file with whole records at its start, and the whole log after them, replays to. -/
theorem LogOk.replayWal (h₀ : StoreOk s₀) (h : LogOk calls s₀.view file₀ changes s log)
    (hdrained : s.Drained) {alloc : Nat → AllocSite → Bool}
    (halloc : ∀ n site, alloc n site = true) {old : List WalRecord}
    (hold : encodeLog old = some file₀) (hflags : ∀ r ∈ old, r.KnownFlags)
    (hfits : ∀ r ∈ old, r.Replayable)
    (hreflected : replay Content.isWorm s₀.view (writesOf old) = s₀.view)
    (hfit : ∀ r ∈ log, r.Replayable) :
    ∃ s', Store.replayWal alloc s.file s₀ = (.ok (), s') ∧
      s'.view = replay Content.isWorm s₀.view (writesOf log) := by
  obtain ⟨xs, put, bytes, appended, hholds, -, hlog, hfile, hbytes⟩ := h.pipe.pipe
  obtain ⟨hring, hcarried⟩ := hdrained
  have hsize := hholds.size
  obtain rfl := eq_nil_of_length_eq_zero (show xs.length = 0 by omega)
  rw [hcarried, append_nil, flatten_nil, append_nil] at hbytes
  have henc : encodeLog (old ++ log) = some s.file := by
    rw [hfile, ← hbytes]
    exact encodeLog_append hold hlog
  have hall : ∀ {P : WalRecord → Prop}, (∀ r ∈ old, P r) → (∀ r ∈ log, P r) →
      ∀ r ∈ old ++ log, P r := fun ho hl r hr => (mem_append.mp hr).elim (ho r) (hl r)
  obtain ⟨s', hs', -, -, hview⟩ := h₀.replayWal_encodeLog halloc henc
    (hall hflags h.live.knownFlags) (hall hfits hfit)
  refine ⟨s', hs', ?_⟩
  rw [hview, writesOf_append, replay_append, hreflected]

/-- **For every key, the log has the order of the live map.**  In every state of every run in
which no write to the file fails, what the file has of a key is a beginning of the changes of
the key, one record longer at most: that of the call which holds the key's shard and is about
to change it.  Once everything is in the file, and unless a record is longer than the
iterator reads, the file replays to the live map, and to what such calls are about to
write. -/
theorem log_order (calls : Fin n → LogCall) {s₀ : Store} (h₀ : StoreOk s₀) (file₀ : Bytes)
    {events : List LogEvent} {s : LogSystem n}
    (hrun : LogSystem.Run calls (LogSystem.start s₀ file₀) events s)
    (hwrites : LogEvent.writeFailed ∉ events) :
    (∃ appended, s.file = file₀ ++ appended ∧
      (∀ key, (∀ i, (s.phases i).inLog = true → (calls i).key ≠ key) →
        onKey key (recordsIn appended) <+: onKey key (changesOf events)) ∧
      ∀ i, (s.phases i).inLog = true → onKey (calls i).key (recordsIn appended) <+:
        onKey (calls i).key (changesOf events) ++ [(calls i).record]) ∧
    (s.Drained → (∀ r ∈ changesOf events, r.Replayable) →
      (∀ i, (s.phases i).inLog = true → (calls i).record.Replayable) →
      ∀ old, encodeLog old = some file₀ → (∀ r ∈ old, r.KnownFlags) →
        (∀ r ∈ old, r.Replayable) → replay Content.isWorm s₀.view (writesOf old) = s₀.view →
        ∀ alloc : Nat → AllocSite → Bool, (∀ n site, alloc n site = true) →
        ∃ s', Store.replayWal alloc s.file s₀ = (.ok (), s') ∧
          (∀ key, (∀ i, (s.phases i).inLog = true → (calls i).key ≠ key) →
            s'.view key = s.store.view key) ∧
          ∀ i, (s.phases i).inLog = true →
            s'.view (calls i).key = (calls i).entry.map Entry.content) := by
  obtain ⟨log, h⟩ := LogOk.run h₀ file₀ hrun hwrites
  constructor
  · obtain ⟨xs, put, bytes, appended, -, -, hlog, hfile, hbytes⟩ := h.pipe.pipe
    rw [append_assoc] at hbytes
    have hprefix : recordsIn appended <+: log :=
      recordsLoop_prefix h.live.knownFlags hlog hbytes _
    refine ⟨appended, hfile, fun key hkey => ?_, fun i hi => ?_⟩
    · rw [← h.live.order key hkey]
      exact hprefix.filter _
    · rw [← h.live.ahead i hi]
      exact hprefix.filter _
  · intro hdrained hfit hpending old hold hflags hfits hreflected alloc halloc
    have hlogFit : ∀ r ∈ log, r.Replayable := by
      intro r hr
      rcases h.live.mem hr with hcommitted | ⟨i, hi, rfl⟩
      · exact hfit r hcommitted
      · exact hpending i hi
    obtain ⟨s', hs', hview⟩ :=
      h.replayWal h₀ hdrained halloc hold hflags hfits hreflected hlogFit
    refine ⟨s', hs', fun key hkey => ?_, fun i hi => ?_⟩
    · rw [hview, h.live.live key hkey]
    · rw [hview, h.live.pending i hi]

end

/-! ## One set by itself

The writer can be done with the record of a set before the set has changed the live map. -/

section
variable {call : LogCall} {s₀ : LogSystem 1} {events : List LogEvent} {store store' : Store}
  {ring ring' : SlotRing Bytes} {phase phase' : CallPhase} {writer writer' : WriterPhase}
  {file file' : Bytes}

/-- The only call goes on. -/
theorem run_call_alone
    (hrun : LogSystem.Run (fun _ => call) s₀ events ⟨store, ring, fun _ => phase, writer, file⟩)
    {alloc : AllocSite → Bool}
    (hstep : call.step alloc store ring phase = some (phase', store', ring')) :
    LogSystem.Run (fun _ => call) s₀ (events ++ [LogSystem.eventOf call phase phase'])
      ⟨store', ring', fun _ => phase', writer, file⟩ := by
  have hupdate : update (fun _ : Fin 1 => phase) 0 phase' = fun _ => phase' := by
    funext j
    rw [Subsingleton.elim j 0, update_self]
  have hnext := LogSystem.Run.snoc hrun (.call 0 alloc ?_ ?_ ?_ hstep)
  · rwa [hupdate] at hnext
  · rintro ⟨j, htrapped⟩
    rw [show phase = .trapped from htrapped] at hstep
    cases hstep
  · rintro - ⟨j, hj, -⟩
    exact hj (Subsingleton.elim j 0)
  · rintro - ⟨j, hj, -⟩
    exact hj (Subsingleton.elim j 0)

/-- The writer goes on. -/
theorem run_writer_alone
    (hrun : LogSystem.Run (fun _ => call) s₀ events ⟨store, ring, fun _ => phase, writer, file⟩)
    (hphase : phase ≠ .trapped) (chunk : Nat)
    (hstep : writer.step chunk ring file = (writer', ring', file')) :
    LogSystem.Run (fun _ => call) s₀ (events ++ [.quiet])
      ⟨store, ring', fun _ => phase, writer', file'⟩ :=
  LogSystem.Run.snoc hrun (.writer chunk (fun ⟨_, htrapped⟩ => hphase htrapped) hstep)

end

variable {record : Bytes}

theorem recordsIn_record {r : WalRecord}
    (hser : Wal.serializeRecord r = some record) (hflags : r.KnownFlags) (hfit : r.Replayable) :
    recordsIn record = [r] := by
  have hnext := next_serializeRecord hser hflags hfit []
  rw [append_nil] at hnext
  rw [recordsIn, recordsLoop, hnext]
  cases hlen : record.length with
  | zero => rfl
  | succ k => rfl

/-- The ring with one record. -/
def oneInRing (record : Bytes) : SlotRing Bytes :=
  (SlotRing.empty.write walQueueCap record).publish

/-- The writer takes the record out and writes it, in one piece. -/
theorem run_writer_drains {call : LogCall} {s₀ : LogSystem 1} {events : List LogEvent}
    {store : Store} {phase : CallPhase} (hrun : LogSystem.Run (fun _ => call) s₀ events
      ⟨store, oneInRing record, fun _ => phase, .draining 0 [], []⟩)
    (hphase : phase ≠ .trapped) (hpos : record ≠ []) (hlen : record.length ≤ writeBufLen) :
    ∃ ring, LogSystem.Run (fun _ => call) s₀ (events ++ replicate 7 .quiet)
        ⟨store, ring, fun _ => phase, .flushing 0 [[]] [], record⟩ ∧ ring.head = ring.tail := by
  let cleared := (oneInRing record).clear walQueueCap
  have hdrain₁ := run_writer_alone hrun hphase 0
    (show WriterPhase.step 0 (oneInRing record) [] (.draining 0 []) =
      (.seen 0 [] 1, oneInRing record, []) from rfl)
  have hdrain₂ := run_writer_alone hdrain₁ hphase 0
    (show WriterPhase.step 0 (oneInRing record) [] (.seen 0 [] 1) =
      (.took 0 [] record, cleared, []) from rfl)
  have hdrain₃ := run_writer_alone hdrain₂ hphase 0
    (show WriterPhase.step 0 cleared [] (.took 0 [] record) =
      (.holding 0 [] record, cleared.advance, []) from rfl)
  have hdrain₄ := run_writer_alone hdrain₃ hphase 0
    (show WriterPhase.step 0 cleared.advance [] (.holding 0 [] record) =
        (.draining 1 record, cleared.advance, []) by
      simp [WriterPhase.step, WriterPhase.gather, Nat.not_lt.mpr hlen])
  have hdrain₅ := run_writer_alone hdrain₄ hphase 0
    (show WriterPhase.step 0 cleared.advance [] (.draining 1 record) =
      (.seen 1 record 1, cleared.advance, []) from rfl)
  have hdrain₆ := run_writer_alone hdrain₅ hphase 0
    (show WriterPhase.step 0 cleared.advance [] (.seen 1 record 1) =
      (.flushing 0 [record] [], cleared.advance, []) from rfl)
  have hdrain₇ := run_writer_alone hdrain₆ hphase record.length
    (show WriterPhase.step record.length cleared.advance [] (.flushing 0 [record] []) =
        (.flushing 0 [[]] [], cleared.advance, record) by
      obtain ⟨b, out, rfl⟩ := exists_cons_of_ne_nil hpos
      simp [WriterPhase.step])
  refine ⟨cleared.advance, ?_, rfl⟩
  simpa [replicate] using hdrain₇

section
variable {s₀ : Store} {key value record : Bytes} {isWorm : Bool} {timestamp : UInt64}

/-- **A set that is alone has its record in the file before the live map has its change.** -/
theorem runs_to_logged (hfree : s₀.wormBlocked key = false)
    (hser : Wal.serializeSetRecord key value (.written isWorm) timestamp = some record)
    (hlen : record.length ≤ writeBufLen) :
    ∃ change store ring events, LogSystem.Run (fun _ : Fin 1 => .set key value isWorm timestamp)
        (LogSystem.start s₀ []) events
        ⟨store, ring, fun _ => .logged change, .flushing 0 [[]] [], record⟩ ∧
      LogEvent.writeFailed ∉ events ∧ changesOf events = [] ∧ ring.head = ring.tail := by
  let ample : AllocSite → Bool := fun _ => true
  let call : LogCall := .set key value isWorm timestamp
  obtain ⟨⟨prepared, store⟩, hprepare⟩ := prepareUpsertLocked_ok (s := s₀)
    (show ∀ site, ample site = true from fun _ => rfl) (shardIndex key) (s₀.get key) key value
    isWorm timestamp
  have hstart : LogSystem.Run (fun _ : Fin 1 => call) (LogSystem.start s₀ []) []
      (LogSystem.start s₀ []) := .nil _
  have hcall₁ := run_call_alone hstart
    (show call.step ample s₀ .empty .called = some (.serialized record, s₀, .empty) by
      simp [call, ample, LogCall.step, hser])
  have hcall₂ := run_call_alone hcall₁
    (show call.step ample s₀ .empty (.serialized record) = some (.lockedSet record, s₀, .empty)
      from rfl)
  have hcall₃ := run_call_alone hcall₂
    (show call.step ample s₀ .empty (.lockedSet record) =
        some (.ready record (.upsert prepared), store, .empty) by
      simp [call, LogCall.step, hfree, hprepare])
  have hcall₄ := run_call_alone hcall₃
    (show call.step ample store .empty (.ready record (.upsert prepared)) =
      some (.queueing record (.upsert prepared), store, .empty) from rfl)
  have hcall₅ := run_call_alone hcall₄
    (show call.step ample store .empty (.queueing record (.upsert prepared)) =
      some (.offering record (.upsert prepared) 0, store, .empty) from rfl)
  have hcall₆ := run_call_alone hcall₅
    (show call.step ample store .empty (.offering record (.upsert prepared) 0) =
      some (.written record (.upsert prepared), store, SlotRing.empty.write walQueueCap record)
      from rfl)
  have hcall₇ := run_call_alone hcall₆
    (show call.step ample store (SlotRing.empty.write walQueueCap record)
        (.written record (.upsert prepared)) =
      some (.published (.upsert prepared), store, oneInRing record) from rfl)
  have hcall₈ := run_call_alone hcall₇
    (show call.step ample store (oneInRing record) (.published (.upsert prepared)) =
      some (.logged (.upsert prepared), store, oneInRing record) from rfl)
  have hpos := serializeRecord_ne_nil
    (show Wal.serializeRecord (.set key value (.written isWorm) timestamp) = some record from hser)
  obtain ⟨ring, hwriter, hempty⟩ := run_writer_drains hcall₈ (by simp) hpos hlen
  exact ⟨_, store, ring, _, hwriter, by simp [LogSystem.eventOf],
    by simp [LogSystem.eventOf, changesOf], hempty⟩

/-- The same set, one step later. -/
theorem runs_to_leaving (h₀ : StoreOk s₀) (hfree : s₀.wormBlocked key = false)
    (hser : Wal.serializeSetRecord key value (.written isWorm) timestamp = some record)
    (hlen : record.length ≤ writeBufLen) :
    ∃ store ring events, LogSystem.Run (fun _ : Fin 1 => .set key value isWorm timestamp)
        (LogSystem.start s₀ []) events
        ⟨store, ring, fun _ => .leaving (.ok ()), .flushing 0 [[]] [], record⟩ ∧
      LogEvent.writeFailed ∉ events ∧
      changesOf events = [.set key value (.written isWorm) timestamp] ∧ ring.head = ring.tail := by
  obtain ⟨change, store, ring, events, hrun, hwrites, hchanges, hempty⟩ :=
    runs_to_logged hfree hser hlen
  obtain ⟨log, h⟩ := LogOk.run h₀ [] hrun hwrites
  cases change with
  | remove => exact (h.held.phases 0).elim
  | upsert prepared =>
    obtain ⟨store', hcommit, -, -⟩ := WormDB.Ready.commit h.held.store (h.held.phases 0)
    have hnext := run_call_alone hrun
      (show LogCall.step (fun _ => true) (.set key value isWorm timestamp) store ring
          (.logged (.upsert prepared)) = some (.leaving (.ok ()), store', ring) by
        simp only [LogCall.step, hcommit])
    refine ⟨store', ring, _, hnext, ?_, ?_, hempty⟩
    · simp [hwrites, LogSystem.eventOf]
    · rw [changesOf_append, hchanges]
      rfl

end

/-- The one record of the runs below. -/
def onlyRecord : WalRecord := .set [1] [2] (.written false) 7

theorem serialize_onlyRecord : ∃ record, Wal.serializeRecord onlyRecord = some record ∧
    record.length ≤ writeBufLen ∧ recordsIn record = [onlyRecord] := by
  refine ⟨Wal.frame .set (Wal.setPayload [1] [2] (.written false) 7), rfl, ?_, ?_⟩
  · rw [Wal.frame_length, Wal.setPayload_length]
    decide
  · exact recordsIn_record rfl trivial (by decide)

theorem init_writable : (Store.init fun _ => none).wormBlocked [1] = false := by decide

/-- **The file can be ahead of the live map**: it has the record of a set that has changed
nothing yet. -/
theorem file_ahead_of_live_map : ∃ (s : LogSystem 1) (events : List LogEvent),
    LogSystem.Run (fun _ => .set [1] [2] false 7)
      (LogSystem.start (Store.init fun _ => none) []) events s ∧
    LogEvent.writeFailed ∉ events ∧
    ¬ onKey [1] (recordsIn s.file) <+: onKey [1] (changesOf events) := by
  obtain ⟨record, hser, hlen, hrecords⟩ := serialize_onlyRecord
  obtain ⟨change, store, ring, events, hrun, hwrites, hchanges, -⟩ :=
    runs_to_logged init_writable hser hlen
  refine ⟨_, events, hrun, hwrites, ?_⟩
  simp only [hrecords, hchanges]
  decide

/-- A set by itself, after its change. -/
theorem log_order_one_set : ∃ (s : LogSystem 1) (events : List LogEvent) (s' : Store),
    LogSystem.Run (fun _ => .set [1] [2] false 7)
      (LogSystem.start (Store.init fun _ => none) []) events s ∧ s.Drained ∧
    onKey [1] (recordsIn s.file) <+: [onlyRecord] ∧
    Store.replayWal (fun _ _ => true) s.file (Store.init fun _ => none) = (.ok (), s') ∧
    s'.view [1] = s.store.view [1] := by
  obtain ⟨record, hser, hlen, -⟩ := serialize_onlyRecord
  obtain ⟨store, ring, events, hrun, hwrites, hchanges, hempty⟩ :=
    runs_to_leaving (init_ok _) init_writable hser hlen
  obtain ⟨⟨appended, hfile, horder, -⟩, hreplay⟩ := log_order (fun _ : Fin 1 => _) (init_ok _) []
    hrun hwrites
  have hfree : ∀ i : Fin 1, (CallPhase.leaving (.ok ())).inLog = true →
      (LogCall.set [1] [2] false 7).key ≠ [1] := by simp [CallPhase.inLog]
  have hfit : ∀ r ∈ changesOf events, r.Replayable := by
    rw [hchanges]
    decide
  obtain ⟨s', hs', hview, -⟩ := hreplay ⟨hempty, rfl⟩ hfit (by simp [CallPhase.inLog]) [] rfl
    (by simp) (by simp) rfl (fun _ _ => true) (fun _ _ => rfl)
  refine ⟨_, events, s', hrun, ⟨hempty, rfl⟩, ?_, hs', hview [1] hfree⟩
  have hone := horder [1] hfree
  rw [hchanges] at hone
  rw [hfile]
  exact hone

end WormDB
