import WormDB.LogPipeline

/-! # The log's queue

`enqueueRecordBlocking`, `tryDequeueRecord` and `writerLoop` of `storage/wal.zig`, whatever
records are put into the ring and whoever does it.  Producers have the queue's lock one after
the other, so there is one of them at a time; it and the writer come between each other's reads
and writes of the two counters and the slots.  What the parked flags and the futexes do is to
end a wait early, and a wait ends in any case.

`queue_fifo` is what holds however they are interleaved: the records come out as they went in,
a record that is in the ring is in its slot, and what the writer has written and what it has in
its buffer are the records that came out, one after the other. -/
namespace WormDB
open List ByteCodec RingQueue WriterPhase

/-! ## The writer -/

namespace WriterPhase
variable {xs : List Bytes} {ring ring' : SlotRing Bytes} {put : Option Bytes}
  {phase phase' : WriterPhase} {file file' : Bytes} {chunk : Nat}

/-- The record that has just come out of the ring. -/
def came : WriterPhase → List Bytes
  | took _ _ record => [record]
  | _ => []

/-- What the writer read of the tail is no further than the tail is. -/
def SeenOk (phase : WriterPhase) (ring : SlotRing Bytes) : Prop :=
  ∀ batch buf tail, phase = .seen batch buf tail → ring.head ≤ tail ∧ tail ≤ ring.tail

theorem gather_spec (batch : Nat) (buf record : Bytes) :
    (gather batch buf record).carried = buf ++ record ∧
      (gather batch buf record).taken = false ∧ (gather batch buf record).came = [] ∧
      ∀ ring, (gather batch buf record).SeenOk ring := by
  unfold gather
  split
  · simp [carried, taken, came, SeenOk]
  · split
    · simp [carried, taken, came, SeenOk]
    · simp [carried, taken, came, SeenOk]

/-- What one step does: at most one record comes out, and it is the first one; the bytes go
from the writer's hands to the file. -/
structure Moved (ring : SlotRing Bytes) (xs : List Bytes) (put : Option Bytes)
    (phase : WriterPhase) (file : Bytes) (ring' : SlotRing Bytes) (phase' : WriterPhase)
    (file' : Bytes) : Prop where
  seen : phase'.SeenOk ring'
  head_le : ring.head ≤ ring'.head
  tail_eq : ring'.tail = ring.tail
  out : ∃ ys, xs = phase'.came ++ ys ∧ Holds walQueueCap ring' ys phase'.taken put
  written : ∃ piece, file' = file ++ piece ∧
    phase.carried ++ phase'.came.flatten = piece ++ phase'.carried

/-- **The writer moves bytes on, in their order.** -/
theorem step_moved (hholds : Holds walQueueCap ring xs phase.taken put)
    (hseen : phase.SeenOk ring) (hstep : phase.step chunk ring file = (phase', ring', file')) :
    Moved ring xs put phase file ring' phase' file' := by
  cases phase with
  | draining batch buf =>
    rw [step] at hstep
    by_cases hbatch : batch < maxBatch
    · rw [if_pos hbatch] at hstep
      cases hstep
      refine ⟨?_, le_refl _, rfl, ⟨xs, rfl, hholds⟩, [], by simp, by simp [carried, came]⟩
      intro batch' buf' tail htail
      injection htail with _ _ htail
      have hsize := hholds.size
      omega
    · rw [if_neg hbatch] at hstep
      cases hstep
      exact ⟨by simp [SeenOk], le_refl _, rfl, ⟨xs, rfl, hholds⟩, [], by simp,
        by simp [carried, came]⟩
  | seen batch buf tail =>
    obtain ⟨hhead, htail⟩ := hseen batch buf tail rfl
    rw [step] at hstep
    by_cases hempty : ring.head = tail
    · rw [if_pos hempty] at hstep
      cases hstep
      exact ⟨by simp [SeenOk], le_refl _, rfl, ⟨xs, rfl, hholds⟩, [], by simp,
        by simp [carried, came]⟩
    · rw [if_neg hempty] at hstep
      obtain ⟨record, ys, rfl⟩ := hholds.exists_front htail (by omega)
      simp only [hholds.front_eq] at hstep
      cases hstep
      exact ⟨by simp [SeenOk], le_refl _, rfl, ⟨ys, rfl, hholds.clear⟩, [], by simp,
        by simp [carried, came]⟩
  | took batch buf record =>
    cases hstep
    exact ⟨by simp [SeenOk], Nat.le_succ _, rfl, ⟨xs, rfl, hholds.advance⟩, [], by simp,
      by simp [carried, came]⟩
  | holding batch buf record =>
    -- whichever way the record goes, the writer carries the same bytes
    obtain ⟨hcarried, htaken, hcame, hseen'⟩ := gather_spec batch buf record
    cases hstep
    refine ⟨hseen' _, le_refl _, rfl, ⟨xs, by rw [hcame]; rfl, ?_⟩, [], by simp, ?_⟩
    · rw [htaken]
      exact hholds
    · rw [hcame, hcarried]
      exact append_nil _
  | flushing batch outs buf =>
    cases outs with
    | nil =>
      cases hstep
      exact ⟨by simp [SeenOk], le_refl _, rfl, ⟨xs, rfl, hholds⟩, [], by simp,
        by simp [carried, came]⟩
    | cons out outs =>
      cases out with
      | nil =>
        cases hstep
        exact ⟨by simp [SeenOk], le_refl _, rfl, ⟨xs, rfl, hholds⟩, [], by simp,
          by simp [carried, came]⟩
      | cons b out =>
        obtain ⟨rfl, rfl, rfl⟩ : _ ∧ _ ∧ _ := by simpa [step] using hstep
        refine ⟨by simp [SeenOk], le_refl _, rfl, ⟨xs, rfl, hholds⟩, b :: out.take chunk, rfl,
          ?_⟩
        -- the piece moves from the writer's hands to the file
        simp only [carried, came, flatten_cons, flatten_nil, append_nil,
          append_assoc, cons_append]
        rw [← append_assoc (out.take chunk), take_append_drop]

end WriterPhase

namespace WalQueue

/-! ## The producer -/

/-- Counters are of 64 bits; the next number after the largest one is a trap. -/
def counterMax : Nat := 2 ^ 64 - 1

/-- The producer that has the queue's lock. -/
inductive ProducerPhase where
  | outside
  | queueing (record : Bytes)
  | offering (record : Bytes) (head : Nat)
  | written (record : Bytes)
  | published (record : Bytes)
  | trapped

namespace ProducerPhase

/-- `tryEnqueueRecord`, cut at its reads and writes; with a full ring it is called again, at
once or after a wait. -/
def step (ring : SlotRing Bytes) : ProducerPhase → ProducerPhase × SlotRing Bytes
  | outside => (.outside, ring)
  | queueing record => (.offering record ring.head, ring)
  | offering record head =>
      if ring.tail < head then (.trapped, ring)
      else if ring.tail - head ≥ walQueueCap then (.queueing record, ring)
      else (.written record, ring.write walQueueCap record)
  | written record =>
      if ring.tail < counterMax then (.published record, ring.publish) else (.trapped, ring)
  | published _ => (.outside, ring)
  | trapped => (.trapped, ring)

/-- The record that has just gone into the ring. -/
def went : ProducerPhase → List Bytes
  | published record => [record]
  | _ => []

end ProducerPhase

/-! ## The queue and its writer -/

structure State where
  ring : SlotRing Bytes
  producer : ProducerPhase
  writer : WriterPhase
  running : Bool
  ended : Bool
  file : Bytes
  enqueued : List Bytes
  dequeued : List Bytes

namespace State

def start (file : Bytes) : State :=
  ⟨SlotRing.empty, .outside, .draining 0 [], true, false, file, [], []⟩

/-- The writer's steps: a write hands over `chunk + 1` bytes at most. -/
inductive Consume : State → State → Prop where
  | step {s : State} (chunk : Nat) {phase : WriterPhase} {ring : SlotRing Bytes} {file : Bytes}
      (hrunning : s.producer ≠ .trapped) (hended : s.ended = false)
      (hstep : s.writer.step chunk s.ring s.file = (phase, ring, file)) :
      Consume s { s with
        writer := phase, ring := ring, file := file, dequeued := s.dequeued ++ phase.came }

inductive Step : State → State → Prop where
  /-- Any thread comes with any record. -/
  | enter {s : State} (record : Bytes) (hfree : s.producer = .outside) :
      Step s { s with producer := .queueing record }
  | produce {s : State} {phase : ProducerPhase} {ring : SlotRing Bytes}
      (hstep : s.producer.step s.ring = (phase, ring)) :
      Step s { s with
        producer := phase, ring := ring, enqueued := s.enqueued ++ phase.went }
  | consume {s s' : State} (h : Consume s s') : Step s s'
  | stop {s : State} (hrunning : s.producer ≠ .trapped) : Step s { s with running := false }
  /-- The condition of the writer's loop. -/
  | exit {s : State} (hrunning : s.producer ≠ .trapped) (htop : s.writer = .draining 0 [])
      (hstop : s.running = false) (hnone : s.ring.head = s.ring.tail) :
      Step s { s with ended := true }

def Reachable (file : Bytes) (s : State) : Prop := Relation.ReflTransGen Step (start file) s

end State

/-! ## What holds -/

structure Ok (file₀ : Bytes) (s : State) : Prop where
  heads : ∀ record head, s.producer = .offering record head → head ≤ s.ring.head
  seen : s.writer.SeenOk s.ring
  queue : ∃ xs put, Holds walQueueCap s.ring xs s.writer.taken put ∧
    (∀ record, s.producer = .written record → put = some record) ∧
    s.enqueued = s.dequeued ++ xs
  file : s.file ++ s.writer.carried = file₀ ++ s.dequeued.flatten
  count : s.enqueued.length = s.ring.tail
  bound : s.ring.tail ≤ counterMax
  ended : s.ended = true → s.writer.carried = []
  trapped : s.producer = .trapped → s.ring.tail = counterMax

section
variable {file₀ : Bytes} {s s' : State}

theorem Ok.start (file₀ : Bytes) : Ok file₀ (State.start file₀) where
  heads := by simp [State.start]
  seen := by simp [State.start, WriterPhase.SeenOk]
  queue := ⟨[], none, holds_empty _, by simp [State.start], rfl⟩
  file := by simp [State.start, carried]
  count := rfl
  bound := Nat.zero_le _
  ended := by simp [State.start]
  trapped := by simp [State.start]

theorem Ok.head_le_tail (h : Ok file₀ s) : s.ring.head ≤ s.ring.tail := by
  obtain ⟨xs, put, hholds, -⟩ := h.queue
  have hsize := hholds.size
  omega

theorem Ok.consume (h : Ok file₀ s) (hstep : State.Consume s s') : Ok file₀ s' := by
  obtain ⟨chunk, hrunning, hended, hstep⟩ := hstep
  obtain ⟨xs, put, hholds, hput, hqueue⟩ := h.queue
  obtain ⟨hseen, hhead, htail, ⟨ys, rfl, hholds'⟩, piece, rfl, hpiece⟩ :=
    step_moved hholds h.seen hstep
  refine ⟨fun record head hp => le_trans (h.heads record head hp) hhead, hseen,
    ⟨ys, put, hholds', hput, ?_⟩, ?_, ?_, htail ▸ h.bound, ?_, ?_⟩
  · rw [hqueue, append_assoc]
  · rw [flatten_append, ← append_assoc, ← h.file, append_assoc, append_assoc,
      hpiece]
  · exact h.count.trans htail.symm
  · intro hyes
    exact absurd (hended.symm.trans hyes) (by simp)
  · intro hyes
    exact absurd hyes hrunning

variable {phase : ProducerPhase}

/-- The producer goes on without the ring. -/
theorem Ok.quiet (h : Ok file₀ s) (hwent : phase.went = [])
    (hhead : ∀ record head, phase = .offering record head → head ≤ s.ring.head)
    (hput : ∀ record, phase ≠ .written record)
    (htrapped : phase = .trapped → s.ring.tail = counterMax) :
    Ok file₀ { s with producer := phase, enqueued := s.enqueued ++ phase.went } := by
  obtain ⟨xs, put, hholds, -, hqueue⟩ := h.queue
  rw [hwent, append_nil]
  exact ⟨hhead, h.seen, ⟨xs, put, hholds, fun record hp => absurd hp (hput record), hqueue⟩, h.file,
    h.count, h.bound, h.ended, htrapped⟩

variable {ring : SlotRing Bytes}

theorem Ok.produce (h : Ok file₀ s)
    (hstep : s.producer.step s.ring = (phase, ring)) :
    Ok file₀ { s with
      producer := phase, ring := ring, enqueued := s.enqueued ++ phase.went } := by
  cases hp : s.producer with
  | outside =>
    rw [hp] at hstep
    cases hstep
    exact h.quiet rfl (by simp) (by simp) (by simp)
  | queueing record =>
    rw [hp] at hstep
    cases hstep
    refine h.quiet rfl (fun record' head hoffering => ?_) (by simp) (by simp)
    injection hoffering with _ hhead
    exact le_of_eq hhead.symm
  | offering record head =>
    -- the head has only grown since it was read
    have hhead := h.heads record head hp
    have htail := h.head_le_tail
    rw [hp, ProducerPhase.step, if_neg (by omega)] at hstep
    by_cases hfull : s.ring.tail - head ≥ walQueueCap
    · rw [if_pos hfull] at hstep
      cases hstep
      exact h.quiet rfl (by simp) (by simp) (by simp)
    · rw [if_neg hfull] at hstep
      cases hstep
      obtain ⟨xs, put, hholds, -, hqueue⟩ := h.queue
      rw [show (ProducerPhase.written record).went = [] from rfl, append_nil]
      refine ⟨by simp, h.seen, ⟨xs, some record, hholds.write (by omega) record, ?_, hqueue⟩,
        h.file, h.count, h.bound, h.ended, by simp⟩
      intro record' hwritten
      injection hwritten with hrecord
      rw [hrecord]
  | written record =>
    rw [hp, ProducerPhase.step] at hstep
    by_cases hlast : s.ring.tail < counterMax
    · rw [if_pos hlast] at hstep
      cases hstep
      obtain ⟨xs, put, hholds, hput, hqueue⟩ := h.queue
      obtain rfl := hput record hp
      refine ⟨by simp, ?_, ⟨xs ++ [record], none, hholds.publish, by simp, ?_⟩, h.file, ?_, hlast,
        h.ended, by simp⟩
      · intro batch buf tail hseen
        obtain ⟨hhead, htail⟩ := h.seen batch buf tail hseen
        exact ⟨hhead, Nat.le_succ_of_le htail⟩
      · rw [hqueue, ProducerPhase.went, append_assoc]
      · rw [ProducerPhase.went, length_append, h.count]
        rfl
    · rw [if_neg hlast] at hstep
      cases hstep
      exact h.quiet rfl (by simp) (by simp)
        (fun _ => le_antisymm h.bound (le_of_not_gt hlast))
  | published record =>
    rw [hp] at hstep
    cases hstep
    exact h.quiet rfl (by simp) (by simp) (by simp)
  | trapped =>
    rw [hp] at hstep
    cases hstep
    exact h.quiet rfl (by simp) (by simp) (fun _ => h.trapped hp)

theorem Ok.step (h : Ok file₀ s) (hstep : State.Step s s') : Ok file₀ s' := by
  cases hstep with
  | enter record hfree =>
    obtain ⟨xs, put, hholds, -, hqueue⟩ := h.queue
    exact ⟨by simp, h.seen, ⟨xs, put, hholds, by simp, hqueue⟩, h.file, h.count, h.bound, h.ended,
      by simp⟩
  | produce hstep => exact h.produce hstep
  | consume hstep => exact h.consume hstep
  | stop hrunning => exact ⟨h.heads, h.seen, h.queue, h.file, h.count, h.bound, h.ended, h.trapped⟩
  | exit hrunning htop hstop hnone =>
    exact ⟨h.heads, h.seen, h.queue, h.file, h.count, h.bound, fun _ => by rw [htop]; rfl, h.trapped⟩

theorem Ok.reachable (hreach : State.Reachable file₀ s) : Ok file₀ s := by
  induction hreach with
  | refl => exact Ok.start file₀
  | tail _ hstep ih => exact ih.step hstep

/-! ## The writer alone -/

/-- The writer's loop can go on. -/
def State.Alive (s : State) : Prop := s.producer ≠ .trapped ∧ s.ended = false

abbrev Drains : State → State → Prop := Relation.ReflTransGen State.Consume

theorem Drains.same (h : Drains s s') :
    s'.producer = s.producer ∧ s'.ended = s.ended ∧ s'.enqueued = s.enqueued := by
  induction h with
  | refl => exact ⟨rfl, rfl, rfl⟩
  | tail _ hstep ih =>
    cases hstep
    exact ih

theorem Drains.alive (h : Drains s s') (halive : s.Alive) : s'.Alive := by
  obtain ⟨hproducer, hended, -⟩ := h.same
  exact ⟨hproducer ▸ halive.1, hended.trans halive.2⟩

theorem Drains.ok (h : Drains s s') (hok : Ok file₀ s) : Ok file₀ s' := by
  induction h with
  | refl => exact hok
  | tail _ hstep ih => exact ih.consume hstep

theorem drains_step (halive : s.Alive) {phase phase' : WriterPhase} (hphase : s.writer = phase)
    (chunk : Nat) {file : Bytes} (hstep : phase.step chunk s.ring s.file = (phase', ring, file)) :
    ∃ s', Drains s s' ∧ s'.writer = phase' ∧ s'.ring = ring := by
  subst hphase
  exact ⟨_, Relation.ReflTransGen.single (.step chunk halive.1 halive.2 hstep), rfl, rfl⟩

variable {batch : Nat} {buf : Bytes}

/-- The file takes all that is on its way. -/
theorem drains_flushing (halive : s.Alive) {outs : List Bytes}
    (hphase : s.writer = .flushing batch outs buf) :
    ∃ s', Drains s s' ∧ s'.writer = .draining batch buf ∧ s'.ring = s.ring := by
  induction outs generalizing s with
  | nil =>
    exact drains_step halive hphase 0
      (show step 0 s.ring s.file _ = (.draining batch buf, s.ring, s.file) from rfl)
  | cons out outs ih =>
    have hskip : ∀ s : State, s.Alive → s.writer = .flushing batch ([] :: outs) buf →
        ∃ s', Drains s s' ∧ s'.writer = .draining batch buf ∧ s'.ring = s.ring := by
      intro s halive hphase
      obtain ⟨s₁, hrun₁, hwriter₁, hring₁⟩ := drains_step halive hphase 0
        (show step 0 s.ring s.file _ =
          (.flushing batch outs buf, s.ring, s.file) from rfl)
      obtain ⟨s', hrun, hwriter, hring⟩ := ih (hrun₁.alive halive) hwriter₁
      exact ⟨s', hrun₁.trans hrun, hwriter, hring.trans hring₁⟩
    cases out with
    | nil => exact hskip s halive hphase
    | cons b out =>
      -- the file takes the whole piece
      obtain ⟨s₁, hrun₁, hwriter₁, hring₁⟩ := drains_step halive hphase out.length
        (show step out.length s.ring s.file _ =
            (.flushing batch ([] :: outs) buf, s.ring, s.file ++ b :: out) by
          simp [step])
      obtain ⟨s', hrun, hwriter, hring⟩ := hskip s₁ (hrun₁.alive halive) hwriter₁
      exact ⟨s', hrun₁.trans hrun, hwriter, hring.trans hring₁⟩

variable {record : Bytes}

/-- A record that is out of the ring goes into the buffer or the file. -/
theorem drains_holding (halive : s.Alive) (hphase : s.writer = .holding batch buf record) :
    ∃ s' batch' buf', Drains s s' ∧ s'.writer = .draining batch' buf' ∧ s'.ring = s.ring := by
  obtain ⟨s₁, hrun₁, hwriter₁, hring₁⟩ := drains_step halive hphase 0
    (show step 0 s.ring s.file _ =
      (gather batch buf record, s.ring, s.file) from rfl)
  have hgather : (∃ buf', s₁.writer = .draining (batch + 1) buf') ∨
      ∃ outs buf', s₁.writer = .flushing (batch + 1) outs buf' := by
    rw [hwriter₁]
    unfold gather
    split
    · exact .inr ⟨_, _, rfl⟩
    · split
      · exact .inr ⟨_, _, rfl⟩
      · exact .inl ⟨_, rfl⟩
  rcases hgather with ⟨buf', hdraining⟩ | ⟨outs, buf', hflushing⟩
  · exact ⟨s₁, batch + 1, buf', hrun₁, hdraining, hring₁⟩
  · obtain ⟨s', hrun, hwriter, hring⟩ := drains_flushing (hrun₁.alive halive) hflushing
    exact ⟨s', batch + 1, buf', hrun₁.trans hrun, hwriter, hring.trans hring₁⟩

/-- The head moves, and the record follows. -/
theorem drains_took (halive : s.Alive) (hphase : s.writer = .took batch buf record) :
    ∃ s' batch' buf', Drains s s' ∧ s'.writer = .draining batch' buf' ∧
      s'.ring = s.ring.advance := by
  obtain ⟨s₁, hrun₁, hwriter₁, hring₁⟩ := drains_step halive hphase 0
    (show step 0 s.ring s.file _ =
      (.holding batch buf record, s.ring.advance, s.file) from rfl)
  obtain ⟨s', batch', buf', hrun, hwriter, hring⟩ := drains_holding (hrun₁.alive halive) hwriter₁
  exact ⟨s', batch', buf', hrun₁.trans hrun, hwriter, hring.trans hring₁⟩

/-- The dequeue finds the ring empty, or takes a record out. -/
theorem drains_seen (h : Ok file₀ s) (halive : s.Alive) {tail : Nat}
    (hphase : s.writer = .seen batch buf tail) :
    ∃ s' batch' buf', Drains s s' ∧ s'.writer = .draining batch' buf' ∧ s'.ring.tail = s.ring.tail ∧
      (s.ring.head = tail ∧ batch' = 0 ∧ buf' = [] ∧ s'.ring.head = s.ring.head ∨
        s'.ring.head = s.ring.head + 1) := by
  by_cases hempty : s.ring.head = tail
  · obtain ⟨s₁, hrun₁, hwriter₁, hring₁⟩ := drains_step halive hphase 0
      (show step 0 s.ring s.file _ = (.flushing 0 [buf] [], s.ring, s.file) by
        rw [step, if_pos hempty])
    obtain ⟨s', hrun, hwriter, hring⟩ := drains_flushing (hrun₁.alive halive) hwriter₁
    refine ⟨s', 0, [], hrun₁.trans hrun, hwriter, ?_, .inl ⟨hempty, rfl, rfl, ?_⟩⟩
    · rw [hring, hring₁]
    · rw [hring, hring₁]
  · obtain ⟨xs, put, hholds, -⟩ := h.queue
    obtain ⟨hhead, htail⟩ := h.seen batch buf tail hphase
    rw [hphase] at hholds
    obtain ⟨record, ys, rfl⟩ := hholds.exists_front htail (by omega)
    obtain ⟨s₁, hrun₁, hwriter₁, hring₁⟩ := drains_step halive hphase 0
      (show step 0 s.ring s.file _ =
          (.took batch buf record, s.ring.clear walQueueCap, s.file) by
        rw [step, if_neg hempty, hholds.front_eq])
    obtain ⟨s', batch', buf', hrun, hwriter, hring⟩ := drains_took (hrun₁.alive halive) hwriter₁
    refine ⟨s', batch', buf', hrun₁.trans hrun, hwriter, ?_, .inr ?_⟩
    · rw [hring, hring₁]
      rfl
    · rw [hring, hring₁]
      rfl

/-- After a full batch the writer begins another one. -/
theorem drains_draining (halive : s.Alive) (hphase : s.writer = .draining batch buf) :
    ∃ s' batch' buf', Drains s s' ∧ s'.writer = .seen batch' buf' s.ring.tail ∧
      s'.ring = s.ring := by
  by_cases hbatch : batch < maxBatch
  · obtain ⟨s₁, hrun₁, hwriter₁, hring₁⟩ := drains_step halive hphase 0
      (show step 0 s.ring s.file _ =
          (.seen batch buf s.ring.tail, s.ring, s.file) by
        rw [step, if_pos hbatch])
    exact ⟨s₁, batch, buf, hrun₁, hwriter₁, hring₁⟩
  · obtain ⟨s₁, hrun₁, hwriter₁, hring₁⟩ := drains_step halive hphase 0
      (show step 0 s.ring s.file _ = (.flushing 0 [buf] [], s.ring, s.file) by
        rw [step, if_neg hbatch])
    have halive₁ := hrun₁.alive halive
    obtain ⟨s₂, hrun₂, hwriter₂, hring₂⟩ := drains_flushing halive₁ hwriter₁
    have halive₂ := hrun₂.alive halive₁
    obtain ⟨s₃, hrun₃, hwriter₃, hring₃⟩ := drains_step halive₂ hwriter₂ 0
      (show step 0 s₂.ring s₂.file _ = (.seen 0 [] s₂.ring.tail, s₂.ring, s₂.file) by
        rw [step, if_pos (by decide)])
    refine ⟨s₃, 0, [], (hrun₁.trans hrun₂).trans hrun₃, ?_, ?_⟩
    · rw [hwriter₃, hring₂, hring₁]
    · rw [hring₃, hring₂, hring₁]

theorem drains_all (h : Ok file₀ s) (halive : s.Alive) (hphase : s.writer = .draining batch buf) :
    ∃ s', Drains s s' ∧ s'.writer = .draining 0 [] ∧ s'.ring.head = s'.ring.tail := by
  -- on what is in the ring: every round takes one record out
  induction hcount : s.ring.tail - s.ring.head generalizing s batch buf with
  | zero =>
    obtain ⟨s₁, batch₁, buf₁, hrun₁, hwriter₁, hring₁⟩ := drains_draining halive hphase
    have hle := h.head_le_tail
    obtain ⟨s', batch', buf', hrun, hwriter, htail, ⟨-, rfl, rfl, hhead⟩ | hhead⟩ :=
      drains_seen (hrun₁.ok h) (hrun₁.alive halive) hwriter₁
    · refine ⟨s', hrun₁.trans hrun, hwriter, ?_⟩
      rw [hhead, htail, hring₁]
      omega
    · have hrun₂ : Drains s s' := hrun₁.trans hrun
      have hle' := (hrun₂.ok h).head_le_tail
      rw [hhead, htail, hring₁] at hle'
      omega
  | succ k ih =>
    obtain ⟨s₁, batch₁, buf₁, hrun₁, hwriter₁, hring₁⟩ := drains_draining halive hphase
    obtain ⟨s₂, batch₂, buf₂, hrun₂, hwriter₂, htail₂, ⟨hempty, -⟩ | hhead₂⟩ :=
      drains_seen (hrun₁.ok h) (hrun₁.alive halive) hwriter₁
    · rw [hring₁] at hempty
      omega
    · have hrun₁₂ : Drains s s₂ := hrun₁.trans hrun₂
      obtain ⟨s', hrun, hdone⟩ := ih (hrun₁₂.ok h) (hrun₁₂.alive halive) hwriter₂
        (by rw [htail₂, hhead₂, hring₁]; omega)
      exact ⟨s', hrun₁₂.trans hrun, hdone⟩

/-- Wherever the writer stands, it comes to a batch. -/
theorem drains_to_batch (h : Ok file₀ s) (halive : s.Alive) :
    ∃ s' batch buf, Drains s s' ∧ s'.writer = .draining batch buf := by
  cases hphase : s.writer with
  | draining batch buf => exact ⟨s, batch, buf, .refl, hphase⟩
  | seen batch buf tail =>
    obtain ⟨s', batch', buf', hrun, hwriter, -⟩ := drains_seen h halive hphase
    exact ⟨s', batch', buf', hrun, hwriter⟩
  | took batch buf record =>
    obtain ⟨s', batch', buf', hrun, hwriter, -⟩ := drains_took halive hphase
    exact ⟨s', batch', buf', hrun, hwriter⟩
  | holding batch buf record =>
    obtain ⟨s', batch', buf', hrun, hwriter, -⟩ := drains_holding halive hphase
    exact ⟨s', batch', buf', hrun, hwriter⟩
  | flushing batch outs buf =>
    obtain ⟨s', hrun, hwriter, -⟩ := drains_flushing halive hphase
    exact ⟨s', batch, buf, hrun, hwriter⟩

/-- **A queue.**  In every state that is reached: what has come out of the ring and what is in
it, in the order of the slots, is what was put in; the file and the writer's hands have the
records that came out, one after the other, and a writer that has ended holds nothing back.
Left to itself, the writer gets everything into the file.  Nothing but the end of the counter's
range stops a producer. -/
theorem queue_fifo (hreach : State.Reachable file₀ s) :
    (∃ queued, s.enqueued = s.dequeued ++ queued ∧
      ∀ i record, queued[i]? = some record →
        s.ring.slots ((s.ring.head + s.writer.taken.toNat + i) % walQueueCap) = some record) ∧
    s.file ++ s.writer.carried = file₀ ++ s.dequeued.flatten ∧
    (s.ended = true → s.file = file₀ ++ s.dequeued.flatten) ∧
    (s.Alive → ∃ s', Drains s s' ∧ s'.dequeued = s.enqueued ∧
      s'.file = file₀ ++ s.enqueued.flatten) ∧
    (s.producer = .trapped → s.enqueued.length = counterMax) := by
  have h := Ok.reachable hreach
  obtain ⟨xs, put, hholds, -, hqueue⟩ := h.queue
  refine ⟨⟨xs, hqueue, hholds.slots⟩, h.file, fun hended => ?_, fun halive => ?_,
    fun htrapped => h.count.trans (h.trapped htrapped)⟩
  · have hfile := h.file
    rwa [h.ended hended, append_nil] at hfile
  · obtain ⟨s₁, batch, buf, hrun₁, hwriter₁⟩ := drains_to_batch h halive
    have h₁ := hrun₁.ok h
    obtain ⟨s', hrun, hwriter, hempty⟩ := drains_all h₁ (hrun₁.alive halive) hwriter₁
    have hall : Drains s s' := hrun₁.trans hrun
    have h' := hall.ok h
    obtain ⟨-, -, henqueued⟩ := hall.same
    obtain ⟨ys, put', hholds', -, hqueue'⟩ := h'.queue
    have hsize := hholds'.size
    obtain rfl : ys = [] := by
      refine eq_nil_of_length_eq_zero ?_
      omega
    rw [append_nil, henqueued] at hqueue'
    have hfile := h'.file
    rw [hwriter, ← hqueue'] at hfile
    exact ⟨s', hall, hqueue'.symm, by simpa [carried] using hfile⟩

end

/-- A producer that finds room puts its record into the ring. -/
theorem reachable_enqueued {s : State} (h : State.Reachable file₀ s)
    (houtside : s.producer = .outside) (hle : s.ring.head ≤ s.ring.tail)
    (hroom : s.ring.tail - s.ring.head < walQueueCap) (htail : s.ring.tail < counterMax)
    (record : Bytes) :
    State.Reachable file₀ { s with
      producer := .outside
      ring := (s.ring.write walQueueCap record).publish
      enqueued := s.enqueued ++ [record] } := by
  have hoffering := (h.tail (.enter record houtside)).tail
    (.produce (show _ = (ProducerPhase.offering record s.ring.head, s.ring) from rfl))
  have hwritten := hoffering.tail (.produce
    (show _ = (ProducerPhase.written record, s.ring.write walQueueCap record) by
      simp [ProducerPhase.step, Nat.not_lt.mpr hle, Nat.not_le.mpr hroom]))
  have hpublished := hwritten.tail (.produce
    (show _ = (ProducerPhase.published record, (s.ring.write walQueueCap record).publish) by
      simp [ProducerPhase.step, SlotRing.write, htail]))
  have houtside := hpublished.tail (.produce (show _ = (ProducerPhase.outside, _) from rfl))
  simpa [State.Reachable, ProducerPhase.went] using houtside

/-- Two records go through. -/
theorem queue_fifo_two :
    ∃ s s', State.Reachable [] s ∧ s.enqueued = [[7], [8, 9]] ∧ s.file = [] ∧ Drains s s' ∧
      s'.dequeued = [[7], [8, 9]] ∧ s'.file = [7, 8, 9] := by
  have hone := @reachable_enqueued [] (State.start []) .refl rfl (by decide) (by decide) (by decide) [7]
  have htwo := reachable_enqueued hone rfl (by decide) (by decide) (by decide) [8, 9]
  obtain ⟨-, -, -, hdrains, -⟩ := queue_fifo htwo
  obtain ⟨s', hrun, hdequeued, hfile⟩ := hdrains ⟨by simp, rfl⟩
  exact ⟨_, s', htwo, rfl, rfl, hrun, hdequeued, hfile⟩

end WalQueue

end WormDB
