import Mathlib.Data.Fin.VecNotation
import Mathlib.Data.List.Infix
import WormDB.AsyncIndexing

/-! # Starting the background worker

A call of `enableAsyncMode` that finds the mode off creates the queue, spawns the worker,
and only then publishes the queue, the handle of the worker and the mode.  The worker's
first step reads the published queue, and the worker returns when there is none.  No lock
is held over any of this, so that calls and workers may take their steps in any order.

There is one queue and one worker, and the worker has all that was enqueued, in every run
in which no worker is ahead of the publication and no two calls set up the mode at once
(`one_worker_in_order`).  A worker that is ahead is gone for good, and of two calls at
once each spawns a worker and publishes a queue (`worker_ahead_or_two_at_once`). -/
namespace WormDB
open List ByteCodec
open Function (update_idem update_of_ne update_self)

namespace AsyncStart

/-- The pending jobs, and those that the worker has swapped out. -/
structure AsyncQueue where
  items : List PendingInsert
  scratch : List PendingInsert
  shutdown : Bool

inductive AsyncError where
  | outOfMemory | systemResources | asyncNotEnabled
  deriving DecidableEq

/-- Where a call is.  A queue, like a worker, is named by the call that made it. -/
inductive Call (n : Nat) where
  | enableAsyncMode | create | spawn | publishQueue | publishWorker | publishMode | enabled
  | enqueueAsync (items : List PendingInsert)
  | append (queue : Fin n) (items : List PendingInsert)
  | enqueued (items : List PendingInsert)
  | failed (e : AsyncError)

/-- Where a worker is: it has not read the queue, waits for jobs, has jobs in `scratch`, or
has returned. -/
inductive Worker (n : Nat) where
  | spawned
  | waiting (queue : Fin n)
  | draining (queue : Fin n) (isShutdown : Bool)
  | exited

/-- What the calls and the workers share.  The items of the calls that succeeded are
`accepted`, in the order in which they came under the queue's mutex. -/
structure Shared (n : Nat) where
  index : NamespaceIndex
  asyncMode : Bool
  asyncQueue : Option (Fin n)
  asyncWorker : Option (Fin n)
  queues : Fin n → Option AsyncQueue
  workers : Fin n → Option (Worker n)
  accepted : List PendingInsert

/-- An index with `n` calls on it. -/
structure State (n : Nat) where
  shared : Shared n
  calls : Fin n → Call n

/-- A step of a call, with whether memory and threads are there for it, a step of the
worker that a call has spawned, or the beginning of `deinit`. -/
inductive Act (n : Nat) where
  | call (i : Fin n) (available : Bool)
  | worker (i : Fin n)
  | shutdown

variable {n : Nat}

namespace Shared

def setQueue (s : Shared n) (i : Fin n) (queue : Option AsyncQueue) : Shared n :=
  { s with queues := Function.update s.queues i queue }

def setWorker (s : Shared n) (i : Fin n) (worker : Worker n) : Shared n :=
  { s with workers := Function.update s.workers i (some worker) }

/-- The next step of call `i`. -/
def stepCall (s : Shared n) (i : Fin n) (available : Bool) : Call n → Shared n × Call n
  | .enableAsyncMode => (s, if s.asyncMode then .enabled else .create)
  | .create =>
      if available then (s.setQueue i (some ⟨[], [], false⟩), .spawn)
      else (s, .failed .outOfMemory)
  | .spawn =>
      if available then (s.setWorker i .spawned, .publishQueue)
      else (s.setQueue i none, .failed .systemResources)
  | .publishQueue => ({ s with asyncQueue := some i }, .publishWorker)
  | .publishWorker => ({ s with asyncWorker := some i }, .publishMode)
  | .publishMode => ({ s with asyncMode := true }, .enabled)
  | .enqueueAsync items =>
      match s.asyncQueue with
      | none => (s, .failed .asyncNotEnabled)
      | some q => (s, .append q items)
  | .append q items =>
      match s.queues q with
      | none => (s, .append q items)
      | some queue =>
          if available then
            ({ s with accepted := s.accepted ++ items }.setQueue q
              (some { queue with items := queue.items ++ items }), .enqueued items)
          else (s, .failed .outOfMemory)
  | .enabled => (s, .enabled)
  | .enqueued items => (s, .enqueued items)
  | .failed e => (s, .failed e)

/-- A worker waits while there is nothing to do. -/
def stepWorker (s : Shared n) (i : Fin n) : Shared n :=
  match s.workers i with
  | some .spawned =>
      match s.asyncQueue with
      | none => s.setWorker i .exited
      | some q => s.setWorker i (.waiting q)
  | some (.waiting q) =>
      match s.queues q with
      | none => s
      | some queue =>
          if queue.items = [] ∧ queue.shutdown = false then s
          else (s.setQueue q (some ⟨queue.scratch, queue.items, queue.shutdown⟩)).setWorker i
            (.draining q queue.shutdown)
  | some (.draining q isShutdown) =>
      match s.queues q with
      | none => s
      | some queue =>
          ({ s with index := queue.scratch.foldl NamespaceIndex.drainItem s.index }.setQueue q
            (some { queue with scratch := [] })).setWorker i
              (if isShutdown then .exited else .waiting q)
  | some .exited | none => s

/-- `deinit` asks the worker of the published queue to return. -/
def stop (s : Shared n) : Shared n :=
  match s.asyncQueue with
  | none => s
  | some q => s.setQueue q ((s.queues q).map (fun queue => { queue with shutdown := true }))

end Shared

namespace State

def step (s : State n) : Act n → State n
  | .call i available =>
      let result := s.shared.stepCall i available (s.calls i)
      ⟨result.1, Function.update s.calls i result.2⟩
  | .worker i => { s with shared := s.shared.stepWorker i }
  | .shutdown => { s with shared := s.shared.stop }

def run (s : State n) (acts : List (Act n)) : State n := acts.foldl step s

/-- A fresh index, with the calls that will be made. -/
def start (index : NamespaceIndex) (calls : Fin n → Call n) : State n :=
  ⟨⟨index, false, none, none, fun _ => none, fun _ => none, []⟩, calls⟩

end State

/-! ## One queue and one worker -/

/-- A call that is yet to be made. -/
def Call.Fresh : Call n → Prop
  | .enableAsyncMode | .enqueueAsync _ => True
  | _ => False

/-- A call that has found the mode off and has not returned. -/
def Call.enabling : Call n → Bool
  | .create | .spawn | .publishQueue | .publishWorker | .publishMode => true
  | _ => false

/-- Call `i` has made `x`, and no other has made one. -/
def only {α : Type} (i : Fin n) (x : α) : Fin n → Option α := Function.update (fun _ => none) i (some x)

/-- The worker drains that queue, or is about to read that it does. -/
def Worker.Drains (i : Fin n) : Worker n → Prop
  | .waiting q | .draining q _ => q = i
  | .spawned | .exited => True

/-- The one queue is that of call `i` and is published, the one worker is that of call `i`
and has not returned before a shutdown, and what was accepted is in the index or in the
queue. -/
structure Serves (index : NamespaceIndex) (s : Shared n) (i : Fin n) (queue : AsyncQueue)
    (worker : Worker n) : Prop where
  published : s.asyncQueue = some i
  queues : s.queues = only i queue
  workers : s.workers = only i worker
  drains : worker.Drains i
  exited : worker = .exited ∨ worker = .draining i true → queue.shutdown = true
  swapped : (∀ q isShutdown, worker ≠ .draining q isShutdown) → queue.scratch = []
  accepted : ∃ done, s.accepted = done ++ queue.scratch ++ queue.items ∧
    s.index = done.foldl NamespaceIndex.drainItem index

/-- What a call of `enableAsyncMode` that has returned promises, and with it every call of
`enqueueAsync` that succeeded. -/
def OneWorker (index : NamespaceIndex) (s : State n) : Prop :=
  (∃ i, s.calls i = .enabled) →
    ∃ i queue worker, Serves index s.shared i queue worker ∧ s.shared.asyncWorker = some i ∧
      ∀ j items, s.calls j = .enqueued items → items <:+: s.shared.accepted

/-! ## What the order has to be -/

/-- A call finds the mode off when no other is setting it up, and a worker first runs when
a queue is published. -/
def Act.InOrder (s : State n) : Act n → Prop
  | .call i _ => s.calls i = .enableAsyncMode → s.shared.asyncMode = false →
      ∀ j, (s.calls j).enabling = false
  | .worker i => s.shared.workers i = some .spawned → s.shared.asyncQueue.isSome = true
  | .shutdown => True

def Along (P : State n → Act n → Prop) : State n → List (Act n) → Prop
  | _, [] => True
  | s, act :: acts => P s act ∧ Along P (s.step act) acts

/-! ## The invariant -/

section Only
variable {α : Type} (i : Fin n) (x y : α)

theorem only_self : only i x i = some x := update_self ..

theorem only_of_ne {j : Fin n} (h : j ≠ i) : only i x j = none := update_of_ne h ..

theorem update_only : Function.update (only i x) i (some y) = only i y := update_idem ..

theorem update_only_none : Function.update (only i x) i none = fun _ => none := by
  rw [only, update_idem, Function.update_eq_self_iff]

end Only

/-- Before the publication: what the call that sets up the mode, if there is one, has made. -/
inductive Unpublished (s : Shared n) : Option (Fin n × Call n) → Prop where
  | idle (hqueues : s.queues = fun _ => none) (hworkers : s.workers = fun _ => none) :
      Unpublished s none
  | create {i : Fin n} (hqueues : s.queues = fun _ => none) (hworkers : s.workers = fun _ => none) :
      Unpublished s (some (i, .create))
  | spawn {i : Fin n} (hqueues : s.queues = only i ⟨[], [], false⟩)
      (hworkers : s.workers = fun _ => none) : Unpublished s (some (i, .spawn))
  | publishQueue {i : Fin n} (hqueues : s.queues = only i ⟨[], [], false⟩)
      (hworkers : s.workers = only i .spawned) : Unpublished s (some (i, .publishQueue))

/-- After it, with the call that published. -/
inductive Published (s : Shared n) (i : Fin n) : Option (Fin n × Call n) → Prop where
  | publishWorker (hmode : s.asyncMode = false) : Published s i (some (i, .publishWorker))
  | publishMode (hmode : s.asyncMode = false) (hworker : s.asyncWorker = some i) :
      Published s i (some (i, .publishMode))
  | enabled (hmode : s.asyncMode = true) (hworker : s.asyncWorker = some i) : Published s i none

structure Hidden (index : NamespaceIndex) (s : Shared n) : Prop where
  queue : s.asyncQueue = none
  mode : s.asyncMode = false
  accepted : s.accepted = []
  index : s.index = index

/-- How far the set-up is, with the call that is at it. -/
def Setup (index : NamespaceIndex) (s : Shared n) (busy : Option (Fin n × Call n)) : Prop :=
  (Hidden index s ∧ Unpublished s busy) ∨
    ∃ i queue worker, Serves index s i queue worker ∧ Published s i busy

/-- What a call knows of the index. -/
def Call.Knows (s : Shared n) : Call n → Prop
  | .enabled => s.asyncMode = true
  | .append q _ => s.asyncQueue = some q
  | .enqueued items => items <:+: s.accepted
  | _ => True

structure Inv (index : NamespaceIndex) (s : State n) : Prop where
  setup : ∃ busy, (∀ i, (s.calls i).enabling = true ↔ busy = some i) ∧
    Setup index s.shared (busy.map (fun i => (i, s.calls i)))
  knows : ∀ i, (s.calls i).Knows s.shared

theorem Call.Fresh.idle {call : Call n} (h : call.Fresh) (s : Shared n) :
    call.enabling = false ∧ call.Knows s := by
  cases call with
  | enableAsyncMode => exact ⟨rfl, trivial⟩
  | enqueueAsync items => exact ⟨rfl, trivial⟩
  | _ => exact h.elim

theorem Inv.start (index : NamespaceIndex) {calls : Fin n → Call n} (hfresh : ∀ i, (calls i).Fresh) :
    Inv index (State.start index calls) where
  setup := by
    refine ⟨none, fun i => ?_, .inl ⟨⟨rfl, rfl, rfl, rfl⟩, .idle rfl rfl⟩⟩
    rw [show (State.start index calls).calls i = calls i from rfl,
      ((hfresh i).idle (State.start index calls).shared).1]
    simp
  knows i := ((hfresh i).idle _).2

/-- **With the invariant, a call that has returned finds one queue and one worker.** -/
theorem Inv.oneWorker {index : NamespaceIndex} {s : State n} (h : Inv index s) : OneWorker index s := by
  rintro ⟨i, hi⟩
  have hmode : s.shared.asyncMode = true := by
    have hknows := h.knows i
    rw [hi] at hknows
    exact hknows
  obtain ⟨busy, -, hsetup⟩ := h.setup
  rcases hsetup with ⟨hhidden, -⟩ | ⟨k, queue, worker, hserves, hpub⟩
  · rw [hhidden.mode] at hmode
    cases hmode
  · have hworker : s.shared.asyncWorker = some k := by
      generalize busy.map (fun i => (i, s.calls i)) = at' at hpub
      cases hpub with
      | publishWorker hoff =>
        cases hoff.symm.trans hmode
      | publishMode _ hworker | enabled _ hworker => exact hworker
    refine ⟨k, queue, worker, hserves, hworker, fun j items hj => ?_⟩
    have hknows := h.knows j
    rw [hj] at hknows
    exact hknows

/-! ## What one step does -/

/-- A step forgets nothing that a call knows. -/
structure Grows (s s' : Shared n) : Prop where
  mode : s.asyncMode = true → s'.asyncMode = true
  queue : ∀ q, s.asyncQueue = some q → s'.asyncQueue = some q
  accepted : s.accepted <+: s'.accepted

variable {s s' : Shared n}

theorem Grows.of_eq (hmode : s'.asyncMode = s.asyncMode)
    (hqueue : s'.asyncQueue = s.asyncQueue) (haccepted : s'.accepted = s.accepted) : Grows s s' where
  mode h := hmode.trans h
  queue _ h := hqueue.trans h
  accepted := by rw [haccepted]

theorem Call.Knows.mono (hgrows : Grows s s') {call : Call n} (h : call.Knows s) :
    call.Knows s' := by
  cases call with
  | enabled => exact hgrows.mode h
  | append q items => exact hgrows.queue q h
  | enqueued items => exact h.trans hgrows.accepted.isInfix
  | _ => trivial

section
variable {index : NamespaceIndex} {s : Shared n}

variable {i : Fin n}

/-- The call that is at the set-up takes it one step further, or gives it up. -/
theorem Setup.enabling {call : Call n} (h : Setup index s (some (i, call))) (available : Bool) :
    Setup index (s.stepCall i available call).1
        (if (s.stepCall i available call).2.enabling then some (i, (s.stepCall i available call).2)
          else none) ∧ Grows s (s.stepCall i available call).1 ∧
      (s.stepCall i available call).2.Knows (s.stepCall i available call).1 := by
  rcases h with ⟨hhidden, hun⟩ | ⟨k, queue, worker, hserves, hpub⟩
  · obtain ⟨hqueue, hmode, haccepted, hindex⟩ := hhidden
    cases hun with
    | create hqueues hworkers =>
      cases available with
      | true =>
        refine ⟨.inl ⟨⟨hqueue, hmode, haccepted, hindex⟩, .spawn ?_ hworkers⟩, Grows.of_eq rfl rfl rfl, trivial⟩
        show Function.update s.queues i _ = _
        rw [hqueues, only]
      | false =>
        exact ⟨.inl ⟨⟨hqueue, hmode, haccepted, hindex⟩, .idle hqueues hworkers⟩, Grows.of_eq rfl rfl rfl, trivial⟩
    | spawn hqueues hworkers =>
      cases available with
      | true =>
        refine ⟨.inl ⟨⟨hqueue, hmode, haccepted, hindex⟩, .publishQueue hqueues ?_⟩, Grows.of_eq rfl rfl rfl,
          trivial⟩
        show Function.update s.workers i _ = _
        rw [hworkers, only]
      | false =>
        -- the queue is destroyed again
        refine ⟨.inl ⟨⟨hqueue, hmode, haccepted, hindex⟩, .idle ?_ hworkers⟩, Grows.of_eq rfl rfl rfl, trivial⟩
        show Function.update s.queues i none = _
        rw [hqueues, update_only_none]
    | publishQueue hqueues hworkers =>
      have hserves : Serves index { s with asyncQueue := some i } i ⟨[], [], false⟩ .spawned :=
        ⟨rfl, hqueues, hworkers, trivial, by simp, fun _ => rfl, [], haccepted, hindex⟩
      refine ⟨.inr ⟨i, _, _, hserves, .publishWorker hmode⟩, ⟨fun h => h, fun q hq => ?_,
        prefix_rfl⟩, trivial⟩
      cases hqueue.symm.trans hq
  · cases hpub with
    | publishWorker hmode =>
      refine ⟨.inr ⟨i, queue, worker, ?_, .publishMode hmode rfl⟩, Grows.of_eq rfl rfl rfl, trivial⟩
      exact ⟨hserves.published, hserves.queues, hserves.workers, hserves.drains, hserves.exited,
        hserves.swapped, hserves.accepted⟩
    | publishMode hmode hworker =>
      refine ⟨.inr ⟨i, queue, worker, ?_, .enabled rfl hworker⟩,
        ⟨fun _ => rfl, fun _ h => h, prefix_rfl⟩, rfl⟩
      exact ⟨hserves.published, hserves.queues, hserves.workers, hserves.drains, hserves.exited,
        hserves.swapped, hserves.accepted⟩

/-- A call finds the mode off while no other is at the set-up. -/
theorem Setup.begin (h : Setup index s none) (hmode : s.asyncMode = false) (i : Fin n) :
    Setup index s (some (i, .create)) := by
  rcases h with ⟨hhidden, hun⟩ | ⟨k, queue, worker, hserves, hpub⟩
  · cases hun with
    | idle hqueues hworkers => exact .inl ⟨hhidden, .create hqueues hworkers⟩
  · cases hpub with
    | enabled hon _ =>
      cases hmode.symm.trans hon

variable {queue : AsyncQueue} {worker : Worker n} {s' : Shared n}

/-- What the queue's mutex covers, and the index, changes under a worker that goes on. -/
theorem Serves.update {queue' : AsyncQueue} {worker' : Worker n}
    (h : Serves index s i queue worker) (hpublished : s'.asyncQueue = s.asyncQueue)
    (hqueues : s'.queues = Function.update s.queues i (some queue'))
    (hworkers : s'.workers = Function.update s.workers i (some worker')) (hdrains : worker'.Drains i)
    (hexited : worker' = .exited ∨ worker' = .draining i true → queue'.shutdown = true)
    (hswapped : (∀ q isShutdown, worker' ≠ .draining q isShutdown) → queue'.scratch = [])
    (haccepted : ∃ done, s'.accepted = done ++ queue'.scratch ++ queue'.items ∧
      s'.index = done.foldl NamespaceIndex.drainItem index) :
    Serves index s' i queue' worker' where
  published := hpublished.trans h.published
  queues := by rw [hqueues, h.queues, update_only]
  workers := by rw [hworkers, h.workers, update_only]
  drains := hdrains
  exited := hexited
  swapped := hswapped
  accepted := haccepted

variable {busy : Option (Fin n × Call n)}

/-- Under a queue that is published only its contents, its worker and the index change. -/
theorem Setup.update (h : Setup index s busy)
    (hmode : s'.asyncMode = s.asyncMode) (hworker : s'.asyncWorker = s.asyncWorker)
    (hhidden : s.asyncQueue = none → s' = s)
    (hserves : ∀ i queue worker, Serves index s i queue worker →
      ∃ queue' worker', Serves index s' i queue' worker') : Setup index s' busy := by
  rcases h with ⟨hid, hun⟩ | ⟨i, queue, worker, hser, hpub⟩
  · rw [hhidden hid.queue]
    exact .inl ⟨hid, hun⟩
  · obtain ⟨queue', worker', hser'⟩ := hserves i queue worker hser
    refine .inr ⟨i, queue', worker', hser', ?_⟩
    cases hpub with
    | publishWorker hoff => exact .publishWorker (hmode.trans hoff)
    | publishMode hoff hw => exact .publishMode (hmode.trans hoff) (hworker.trans hw)
    | enabled hon hw => exact .enabled (hmode.trans hon) (hworker.trans hw)

theorem Serves.queueAt
    (h : Serves index s i queue worker) : s.queues i = some queue := by rw [h.queues, only_self]

theorem Serves.sameWorker
    (h : Serves index s i queue worker) : s.workers = Function.update s.workers i
    (some worker) := by
  rw [h.workers, update_only]

/-- What is appended comes after all that was accepted before. -/
theorem Setup.append (h : Setup index s busy) {q : Fin n}
    (hq : s.asyncQueue = some q) (i : Fin n) (available : Bool) (items : List PendingInsert) :
    Setup index (s.stepCall i available (.append q items)).1 busy ∧
      Grows s (s.stepCall i available (.append q items)).1 ∧
      (s.stepCall i available (.append q items)).2.Knows
    (s.stepCall i available (.append q items)).1 ∧
      (s.stepCall i available (.append q items)).2.enabling = false := by
  rcases hqueue : s.queues q with _ | queue
  · simp only [Shared.stepCall, hqueue]
    exact ⟨h, Grows.of_eq rfl rfl rfl, hq, rfl⟩
  cases available with
  | false =>
    simp only [Shared.stepCall, hqueue]
    exact ⟨h, Grows.of_eq rfl rfl rfl, trivial, rfl⟩
  | true =>
    simp only [Shared.stepCall, hqueue]
    refine ⟨h.update rfl rfl (fun hnone => ?_) (fun k queue' worker hserves => ?_),
      ⟨fun h => h, fun _ h => h, prefix_append _ _⟩, ⟨s.accepted, [], by simp [Shared.setQueue]⟩, rfl⟩
    · cases hq.symm.trans hnone
    · obtain rfl : q = k := Option.some.inj (hq.symm.trans hserves.published)
      obtain rfl : queue = queue' := Option.some.inj (hqueue.symm.trans hserves.queueAt)
      obtain ⟨done, haccepted, hindex⟩ := hserves.accepted
      refine ⟨_, worker, hserves.update rfl rfl hserves.sameWorker hserves.drains hserves.exited
        hserves.swapped ⟨done, ?_, hindex⟩⟩
      show s.accepted ++ items = _
      rw [haccepted, append_assoc (done ++ queue.scratch)]

theorem stepWorker_of_none (h : s.workers i = none) : s.stepWorker i = s := by
  rw [Shared.stepWorker, h]

/-- No worker runs before the publication. -/
theorem Unpublished.stepWorker (h : Unpublished s busy)
    (hspawned : s.workers i ≠ some .spawned) : s.stepWorker i = s := by
  cases h with
  | idle _ hworkers
  | create _ hworkers | spawn _ hworkers => exact stepWorker_of_none (by rw [hworkers])
  | @publishQueue k _ hworkers =>
    by_cases hi : i = k
    · rw [hworkers, hi, only_self] at hspawned
      exact absurd rfl hspawned
    · exact stepWorker_of_none (by rw [hworkers, only_of_ne _ _ hi])

/-- The turn of the one worker: it reads the queue, swaps, inserts, or goes on waiting. -/
theorem Serves.stepWorker (h : Serves index s i queue worker) :
    ∃ queue' worker', Serves index (s.stepWorker i) i queue' worker' := by
  obtain ⟨done, haccepted, hindex⟩ := h.accepted
  have hqueue := h.queueAt
  have hworker : s.workers i = some worker := by rw [h.workers, only_self]
  cases worker with
  | spawned =>
    refine ⟨queue, .waiting i, ?_⟩
    simp only [Shared.stepWorker, hworker, h.published]
    exact h.update rfl (by rw [h.queues, update_only]; exact h.queues) rfl rfl (by simp)
      (fun _ => h.swapped (by simp)) ⟨done, haccepted, hindex⟩
  | waiting q =>
    obtain rfl : q = i := h.drains
    have hscratch : queue.scratch = [] := h.swapped (by simp)
    by_cases hidle : queue.items = [] ∧ queue.shutdown = false
    · refine ⟨queue, .waiting q, ?_⟩
      simp only [Shared.stepWorker, hworker, hqueue, if_pos hidle]
      exact h
    · refine ⟨⟨queue.scratch, queue.items, queue.shutdown⟩, .draining q queue.shutdown, ?_⟩
      simp only [Shared.stepWorker, hworker, hqueue, if_neg hidle]
      refine h.update rfl rfl rfl rfl (by simp) (by simp) ⟨done, ?_, hindex⟩
      show s.accepted = _
      rw [haccepted, hscratch, append_nil, append_nil]
  | draining q isShutdown =>
    obtain rfl : q = i := h.drains
    refine ⟨{ queue with scratch := [] }, if isShutdown then .exited else .waiting q, ?_⟩
    simp only [Shared.stepWorker, hworker, hqueue]
    refine h.update rfl rfl rfl ?_ ?_ (fun _ => rfl) ⟨done ++ queue.scratch, ?_, ?_⟩
    · cases isShutdown
      · exact rfl
      · trivial
    · cases isShutdown with
      | false => simp
      | true => exact fun _ => h.exited (.inr rfl)
    · rw [append_nil]
      exact haccepted
    · show queue.scratch.foldl _ s.index = _
      rw [hindex, foldl_append]
  | exited =>
    refine ⟨queue, .exited, ?_⟩
    simp only [Shared.stepWorker, hworker]
    exact h

theorem stepWorker_frame (s : Shared n) (i : Fin n) :
    (s.stepWorker i).asyncMode = s.asyncMode ∧ (s.stepWorker i).asyncWorker = s.asyncWorker ∧
      (s.stepWorker i).asyncQueue = s.asyncQueue ∧ (s.stepWorker i).accepted = s.accepted := by
  unfold Shared.stepWorker
  repeat' split
  all_goals exact ⟨rfl, rfl, rfl, rfl⟩

/-- **A worker that is not ahead of the publication keeps what was accepted.** -/
theorem Setup.stepWorker (h : Setup index s busy)
    (horder : s.workers i = some .spawned → s.asyncQueue.isSome = true) :
    Setup index (s.stepWorker i) busy ∧ Grows s (s.stepWorker i) := by
  obtain ⟨hmode, hworker, hqueue, haccepted⟩ := stepWorker_frame s i
  refine ⟨?_, Grows.of_eq hmode hqueue haccepted⟩
  refine h.update hmode hworker (fun hnone => ?_) (fun k queue worker hserves => ?_)
  · rcases h with ⟨-, hun⟩ | ⟨k, queue, worker, hserves, -⟩
    · refine hun.stepWorker (fun hspawned => ?_)
      have hsome := horder hspawned
      rw [hnone] at hsome
      cases hsome
    · rw [hserves.published] at hnone
      cases hnone
  · by_cases hi : i = k
    · rw [hi]
      exact hserves.stepWorker
    · rw [stepWorker_of_none (by rw [hserves.workers, only_of_ne _ _ hi])]
      exact ⟨queue, worker, hserves⟩

theorem Setup.stop (h : Setup index s busy) : Setup index s.stop busy ∧ Grows s s.stop := by
  rcases hq : s.asyncQueue with _ | q
  · rw [Shared.stop, hq]
    exact ⟨h, Grows.of_eq rfl rfl rfl⟩
  · have hstop : s.stop = s.setQueue q ((s.queues q).map (fun queue => { queue with shutdown := true })) := by
      rw [Shared.stop, hq]
    rw [hstop]
    refine ⟨h.update rfl rfl (fun hnone => ?_) (fun k queue worker hserves => ?_), Grows.of_eq rfl rfl rfl⟩
    · cases hq.symm.trans hnone
    · obtain rfl : q = k := Option.some.inj (hq.symm.trans hserves.published)
      rw [hserves.queueAt, Option.map_some]
      exact ⟨_, worker, hserves.update rfl rfl hserves.sameWorker hserves.drains (fun _ => rfl)
        hserves.swapped hserves.accepted⟩

end

/-! ## What a run keeps -/

section
variable {index : NamespaceIndex} {s : State n}

variable {i : Fin n}

section
variable (h : Inv index s)
include h

/-- Only the call that moves has a new place, and it knows what it has to. -/
theorem Inv.call {shared : Shared n} {call : Call n}
    (hgrows : Grows s.shared shared) (hknows : call.Knows shared) (k : Fin n) :
    (Function.update s.calls i call k).Knows shared := by
  by_cases hk : k = i
  · rw [hk, update_self]
    exact hknows
  · rw [update_of_ne hk]
    exact (h.knows k).mono hgrows

/-- A call that is not at the set-up stays away from it. -/
theorem Inv.outside {shared : Shared n} {call : Call n}
    (hi : (s.calls i).enabling = false) (hcall : call.enabling = false)
    (hsetup : ∀ busy, Setup index s.shared busy → Setup index shared busy)
    (hgrows : Grows s.shared shared) (hknows : call.Knows shared) :
    Inv index ⟨shared, Function.update s.calls i call⟩ where
  setup := by
    obtain ⟨busy, hbusy, hset⟩ := h.setup
    have hne : ∀ k, busy = some k → k ≠ i := by
      rintro k hk rfl
      rw [(hbusy k).mpr hk] at hi
      cases hi
    refine ⟨busy, fun k => ?_, ?_⟩
    · by_cases hk : k = i
      · subst hk
        simp only [update_self, hcall, Bool.false_eq_true, false_iff]
        exact fun heq => hne k heq rfl
      · simp only [update_of_ne hk]
        exact hbusy k
    · have hsame : busy.map (fun k => (k, Function.update s.calls i call k)) =
          busy.map (fun k => (k, s.calls k)) := by
        cases busy with
        | none => rfl
        | some k => rw [Option.map_some, Option.map_some, update_of_ne (hne k rfl)]
      show Setup index shared (busy.map (fun k => (k, Function.update s.calls i call k)))
      rw [hsame]
      exact hsetup _ hset
  knows := h.call hgrows hknows

/-- Call `i`, and no other, is at the set-up or has just left it. -/
theorem Inv.inside {shared : Shared n} {call : Call n}
    (hothers : ∀ k, k ≠ i → (s.calls k).enabling = false)
    (hsetup : Setup index shared (if call.enabling then some (i, call) else none))
    (hgrows : Grows s.shared shared) (hknows : call.Knows shared) :
    Inv index ⟨shared, Function.update s.calls i call⟩ where
  setup := by
    refine ⟨if call.enabling then some i else none, fun k => ?_, ?_⟩
    · by_cases hk : k = i
      · subst hk
        simp only [update_self]
        cases call.enabling <;> simp
      · simp only [update_of_ne hk, hothers k hk]
        cases call.enabling <;> simp [Ne.symm hk]
    · cases henabling : call.enabling with
      | false =>
        rw [henabling] at hsetup
        exact hsetup
      | true =>
        rw [henabling] at hsetup
        show Setup index shared (some (i, Function.update s.calls i call i))
        rw [update_self]
        exact hsetup
  knows := h.call hgrows hknows

theorem Inv.others (hi : (s.calls i).enabling = true) :
    Setup index s.shared (some (i, s.calls i)) ∧ ∀ k, k ≠ i → (s.calls k).enabling = false := by
  obtain ⟨busy, hbusy, hset⟩ := h.setup
  obtain rfl : busy = some i := (hbusy i).mp hi
  refine ⟨hset, fun k hk => ?_⟩
  by_contra htrue
  rw [Bool.not_eq_false] at htrue
  exact hk (Option.some.inj ((hbusy k).mp htrue)).symm

theorem Inv.stepCall {available : Bool}
    (horder : (Act.call i available).InOrder s) : Inv index (s.step (.call i available)) := by
  show Inv index ⟨_, Function.update s.calls i _⟩
  have hstill : ∀ {call : Call n}, (s.calls i).enabling = false → call.enabling = false →
      call.Knows s.shared → Inv index ⟨s.shared, Function.update s.calls i call⟩ :=
    fun hi hcall hknows => h.outside hi hcall (fun _ hset => hset) (Grows.of_eq rfl rfl rfl) hknows
  cases henabling : (s.calls i).enabling with
  | true =>
    obtain ⟨hset, hothers⟩ := h.others henabling
    obtain ⟨hset', hgrows, hknows⟩ := hset.enabling available
    exact h.inside hothers hset' hgrows hknows
  | false =>
    have hknows := h.knows i
    cases hcall : s.calls i with
    | enableAsyncMode =>
      cases hmode : s.shared.asyncMode with
      | true =>
        simp only [Shared.stepCall, hmode, if_true]
        exact hstill henabling rfl hmode
      | false =>
        have hquiet := horder hcall hmode
        obtain ⟨busy, hbusy, hset⟩ := h.setup
        -- nobody else is making the queue
        have hnone : busy = none := by
          cases busy with
          | none => rfl
          | some k =>
            have hbusy' := (hbusy k).mpr rfl
            rw [hquiet k] at hbusy'
            cases hbusy'
        subst hnone
        simp only [Shared.stepCall, hmode, Bool.false_eq_true, if_false]
        exact h.inside (fun k _ => hquiet k) (hset.begin hmode i) (Grows.of_eq rfl rfl rfl) trivial
    | enqueueAsync items =>
      cases hq : s.shared.asyncQueue with
      | none =>
        simp only [Shared.stepCall, hq]
        exact hstill henabling rfl trivial
      | some q =>
        simp only [Shared.stepCall, hq]
        exact hstill henabling rfl hq
    | append q items =>
      rw [hcall] at hknows
      obtain ⟨busy, -, hset⟩ := h.setup
      obtain ⟨-, hgrows, hknows', hout⟩ := hset.append hknows i available items
      exact h.outside henabling hout (fun _ hset => (hset.append hknows i available items).1)
        hgrows hknows'
    | enabled => exact hstill henabling rfl (by rw [hcall] at hknows; exact hknows)
    | enqueued items => exact hstill henabling rfl (by rw [hcall] at hknows; exact hknows)
    | failed e => exact hstill henabling rfl trivial
    | _ =>
      rw [hcall] at henabling
      cases henabling

/-- A step that leaves the calls where they are. -/
theorem Inv.shared {shared : Shared n}
    (hstep : ∀ busy, Setup index s.shared busy → Setup index shared busy ∧ Grows s.shared shared) :
    Inv index { s with shared := shared } := by
  obtain ⟨busy, hbusy, hset⟩ := h.setup
  obtain ⟨hset', hgrows⟩ := hstep _ hset
  exact ⟨⟨busy, hbusy, hset'⟩, fun k => (h.knows k).mono hgrows⟩

theorem Inv.step {act : Act n} (horder : act.InOrder s) : Inv index (s.step act) := by
  cases act with
  | call i available => exact h.stepCall horder
  | worker i => exact h.shared (fun _ hset => hset.stepWorker horder)
  | shutdown => exact h.shared (fun _ hset => hset.stop)

theorem Inv.run {acts : List (Act n)} (horder : Along Act.InOrder s acts) :
    Inv index (s.run acts) := by
  induction acts generalizing s with
  | nil => exact h
  | cons act acts ih => exact ih (h.step horder.1) horder.2

end

end

/-- **One worker, and all that was enqueued**: in every run in order, of any number of calls
on a fresh index, a call of `enableAsyncMode` that has returned finds one queue and one
worker that has not returned before a shutdown, and what the calls of `enqueueAsync` have
handed over is in the index or on its way there, in the order it came. -/
theorem one_worker_in_order (index : NamespaceIndex) (calls : Fin n → Call n)
    (hfresh : ∀ i, (calls i).Fresh) (acts : List (Act n))
    (horder : Along Act.InOrder (State.start index calls) acts) :
    OneWorker index ((State.start index calls).run acts) :=
  ((Inv.start index hfresh).run horder).oneWorker

def oneInsert : List PendingInsert := [⟨[97], [0, 0, 0, 0], 5⟩]

/-- The insert is swapped out by the worker. -/
theorem one_worker_swaps :
    let s := (State.start (NamespaceIndex.init .l2) ![.enableAsyncMode, .enqueueAsync oneInsert]).run
      ((replicate 6 (.call 0 true)) ++ [.worker 0, .call 1 true, .call 1 true, .worker 0])
    s.calls 0 = .enabled ∧ s.calls 1 = .enqueued oneInsert ∧ s.shared.workers 0 = some (.draining 0 false) ∧
      OneWorker (NamespaceIndex.init .l2) s := by
  refine ⟨rfl, rfl, rfl, one_worker_in_order _ _ ?_ _ ⟨fun _ _ => Fin.forall_fin_two.mpr ⟨rfl, rfl⟩, ?_⟩⟩
  · rw [Fin.forall_fin_two]
    exact ⟨trivial, trivial⟩
  · simp [Along, Act.InOrder, State.step, State.start, Shared.stepCall, Shared.setQueue,
        Shared.setWorker, Shared.stepWorker]

/-- **A worker that is ahead of the publication is gone, and of two set-ups at once one queue
is left to nobody**: what was enqueued there stays. -/
theorem worker_ahead_or_two_at_once :
    (let s := (State.start (NamespaceIndex.init .l2) (fun _ : Fin 1 => .enableAsyncMode)).run
      ([.call 0 true, .call 0 true, .call 0 true, .worker 0] ++ replicate 3 (.call 0 true))
    s.calls 0 = .enabled ∧ s.shared.workers 0 = some .exited ∧ ¬ OneWorker (NamespaceIndex.init .l2) s) ∧
    (let s := (State.start (NamespaceIndex.init .l2)
        ![.enableAsyncMode, .enableAsyncMode, .enqueueAsync oneInsert]).run
      [.call 0 true, .call 1 true, .call 0 true, .call 1 true, .call 0 true, .call 1 true,
        .call 0 true, .call 2 true, .call 1 true, .call 0 true, .call 0 true, .call 1 true,
        .call 1 true, .call 2 true, .worker 0, .worker 1]
    s.calls 0 = .enabled ∧ s.calls 1 = .enabled ∧ s.calls 2 = .enqueued oneInsert ∧
      s.shared.queues 0 = some ⟨oneInsert, [], false⟩ ∧
      s.shared.workers 0 = some (.waiting 1) ∧ s.shared.workers 1 = some (.waiting 1) ∧
      ¬ OneWorker (NamespaceIndex.init .l2) s) := by
  refine ⟨⟨rfl, rfl, fun hone => ?_⟩, rfl, rfl, rfl, rfl, rfl, rfl, fun hone => ?_⟩
  · obtain ⟨i, queue, worker, hserves, -⟩ := hone ⟨0, rfl⟩
    obtain rfl : i = 0 := Subsingleton.elim i 0
    have hqueue : some (⟨[], [], false⟩ : AsyncQueue) = some queue := hserves.queueAt
    have hworker : some Worker.exited = some worker := by
      rw [← only_self (0 : Fin 1) worker, ← hserves.workers]
      rfl
    have hshutdown := hserves.exited (.inl (Option.some.inj hworker).symm)
    rw [← Option.some.inj hqueue] at hshutdown
    cases hshutdown
  · obtain ⟨i, queue, worker, hserves, -⟩ := hone ⟨0, rfl⟩
    have hpublished : some (1 : Fin 3) = some i := hserves.published
    cases hpublished
    have hqueue := congrFun hserves.queues 0
    rw [only_of_ne 1 queue (by decide)] at hqueue
    cases hqueue

end AsyncStart
end WormDB
