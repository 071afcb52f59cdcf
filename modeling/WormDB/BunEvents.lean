import Mathlib.Tactic.Common
import Mathlib.Logic.Function.Basic
import Mathlib.Data.List.Sublists

/-! # The event iterator

`events` of `apps/bun/src/lib/wormdb.ts`: one iterator of a channel, with any number of
`next()` calls under way.  A step is what runs without a break: the handler of an event, a call
of `next()` or `return()`, the end of the subscription's set-up, or the turn of a `next()` whose
promise is there.  `wake` has room for one waiting call.  The client's dials are in it too, since
`onOpen` sets `stateValue` to `"ready"` whatever it was.

`events_delivered` says that whatever the order of steps, events are returned in the order they
came, each once, and the others are counted.  It also says when no `next()` is left waiting: a
second one that waits takes the place of the first in `wake`, and one that goes on empties it,
a client that closes wakes nobody, and a dial that was in flight then opens it again, so that a
`next()` waits on a client that has been closed. -/
namespace WormDB.BunEvents
open List

variable {α : Type}

/-- What `subPromise` is. -/
inductive SubState where
  | pending | active | failed

/-- How far a `next()` has come.  A `ready` or `resumed` one has its turn to come; the promise
of a `parked` one is `wake`'s, or nobody's. -/
inductive Phase (α : Type) where
  | uncalled
  | subscribing
  | ready
  | parked
  | resumed
  | returned (evt : Option α)
  | threw

/-- `subPromise` is there. -/
def Phase.settled : Phase α → Phase α
  | .subscribing => .ready
  | phase => phase

/-- The variables of an iterator and its client: `closed` is what `stateValue` says now, `dials`
counts the dials whose `open` or failure is to come.  `arrived` and `log` say what came and which
call returned it, `hasClosed` that the client was closed at some time. -/
structure State (α : Type) where
  queue : List α
  droppedCount : Nat
  wake : Option Nat
  finished : Bool
  closed : Bool
  dials : Nat
  hasClosed : Bool
  subPromise : SubState
  phases : Nat → Phase α
  arrived : List α
  log : List (Nat × α)

namespace State

def init : State α := ⟨[], 0, none, false, false, 0, false, .pending, fun _ => .uncalled, [], []⟩

def setPhase (s : State α) (i : Nat) (phase : Phase α) : State α :=
  { s with phases := Function.update s.phases i phase }

/-- `wake?.()`: a promise that is resolved already stays so. -/
def callWake (s : State α) : State α :=
  match s.wake with
  | none => s
  | some i =>
      match s.phases i with
      | .parked => s.setPhase i .resumed
      | _ => s

/-- The queue is full beyond `limit`; a limit that is no number is none. -/
def handler (limit : Option Nat) (s : State α) (evt : α) : State α :=
  let queue := s.queue ++ [evt]
  let s := { s with arrived := s.arrived ++ [evt] }
  if limit.any (fun limit => decide (queue.length > max 1 limit)) then
    { s with queue := queue.tail, droppedCount := s.droppedCount + 1 }.callWake
  else { s with queue := queue }.callWake

/-- A `next()` that would wait now. -/
def Parks (s : State α) : Prop :=
  s.queue = [] ∧ s.finished = false ∧ s.closed = false

/-- A turn of the loop in `next`. -/
def loop (s : State α) (i : Nat) : State α :=
  match s.queue with
  | evt :: rest =>
      { s with queue := rest, log := s.log ++ [(i, evt)] }.setPhase i (.returned (some evt))
  | [] =>
      if s.finished || s.closed then s.setPhase i (.returned none)
      else { s with wake := some i }.setPhase i .parked

end State

inductive Act (α : Type) where
  | arrive (evt : α)
  | next (i : Nat)
  | settle (ok : Bool)
  | turn (i : Nat)
  | finish
  | close
  | dial
  | dialFails
  | opens

namespace State

def step (limit : Option Nat) (s : State α) : Act α → Option (State α)
  | .arrive evt => some (s.handler limit evt)
  | .next i =>
      match s.phases i, s.subPromise with
      | .uncalled, .pending => some (s.setPhase i .subscribing)
      | .uncalled, _ => some (s.setPhase i .ready)
      | _, _ => none
  | .settle ok =>
      match s.subPromise with
      | .pending => some { s with
          subPromise := if ok then .active else .failed
          phases := fun i => (s.phases i).settled }
      | _ => none
  | .turn i =>
      match s.phases i, s.subPromise with
      | .ready, .failed => some (s.setPhase i .threw)
      | .ready, _ => some (s.loop i)
      | .resumed, _ => some ({ s with wake := none }.loop i)
      | _, _ => none
  | .finish => if s.finished then some s else some { s with finished := true }.callWake
  -- `close()`, or the last attempt of `scheduleReconnect`
  | .close => some { s with closed := true, hasClosed := true }
  | .dial => if s.closed then none else some { s with dials := s.dials + 1 }
  | .dialFails => if s.dials = 0 then none else some { s with dials := s.dials - 1 }
  -- `onOpen` does not look at what `stateValue` was
  | .opens =>
      if s.dials = 0 then none else some { s with closed := false, dials := s.dials - 1 }

end State

/-- The states that are reached with steps of a kind. -/
inductive Reachable (limit : Option Nat) (ok : State α → Act α → Prop) : State α → Prop where
  | init : Reachable limit ok .init
  | step {s s' : State α} {act : Act α} (h : Reachable limit ok s) (hok : ok s act)
      (hstep : s.step limit act = some s') : Reachable limit ok s'

/-- Any order of steps. -/
def Anyhow (_ : State α) (_ : Act α) : Prop := True

/-- The call is between its `await` and what follows. -/
def Phase.Waits (phase : Phase α) : Prop := phase = .parked ∨ phase = .resumed

/-- A `next()` begins to wait only when no other one waits and the client has not been closed, and
the client closes only when none waits. -/
def Careful (s : State α) : Act α → Prop
  | .turn i => s.Parks → s.hasClosed = false ∧ ∀ j, j ≠ i → ¬ (s.phases j).Waits
  | .close => ∀ j, s.phases j ≠ .parked
  | _ => True

/-! ## Events -/

/-- Events are returned in the order they came, by one call each, and the others are counted or
still in the queue. -/
structure Delivered (s : State α) : Prop where
  order : (s.log.map Prod.snd ++ s.queue).Sublist s.arrived
  count : s.arrived.length = s.log.length + s.queue.length + s.droppedCount
  once : (s.log.map Prod.fst).Nodup
  returned : ∀ i evt, (i, evt) ∈ s.log ↔ s.phases i = .returned (some evt)

section
variable {limit : Option Nat} {s s' : State α} {i : Nat}

@[simp] theorem setPhase_same (s : State α) (i : Nat) (phase : Phase α) :
    (s.setPhase i phase).phases i = phase := Function.update_self ..

theorem setPhase_other (s : State α) {i j : Nat} (phase : Phase α) (hj : j ≠ i) :
    (s.setPhase i phase).phases j = s.phases j := Function.update_of_ne hj ..

theorem callWake_fields (s : State α) :
    s.callWake.queue = s.queue ∧ s.callWake.droppedCount = s.droppedCount ∧
      s.callWake.arrived = s.arrived ∧ s.callWake.log = s.log ∧
      ∀ i evt, s.callWake.phases i = .returned evt ↔ s.phases i = .returned evt := by
  unfold State.callWake
  split
  · simp
  · rename_i j _
    split
    · rename_i hparked
      refine ⟨rfl, rfl, rfl, rfl, fun i evt => ?_⟩
      by_cases hi : i = j
      · subst hi
        simp [State.setPhase, hparked]
      · simp [State.setPhase, Function.update_of_ne hi]
    · simp

theorem Delivered.callWake (h : Delivered s) : Delivered s.callWake := by
  obtain ⟨hqueue, hdropped, harrived, hlog, hphases⟩ := callWake_fields s
  refine ⟨?_, ?_, ?_, ?_⟩
  · rw [hqueue, harrived, hlog]
    exact h.order
  · rw [hqueue, harrived, hlog, hdropped]
    exact h.count
  · rw [hlog]
    exact h.once
  · intro i evt
    rw [hlog, hphases]
    exact h.returned i evt

variable {phase : Phase α}

/-- A call that returns nothing goes on. -/
theorem Delivered.setPhase (h : Delivered s)
    (hi : ∀ evt, s.phases i ≠ .returned evt)
    (hphase : ∀ evt, phase ≠ .returned (some evt)) : Delivered (s.setPhase i phase) where
  order := h.order
  count := h.count
  once := h.once
  returned j evt := by
    by_cases hj : j = i
    · subst hj
      simp only [setPhase_same, hphase, iff_false]
      intro hmem
      exact hi _ ((h.returned j evt).mp hmem)
    · rw [setPhase_other s _ hj]
      exact h.returned j evt

theorem Delivered.handler (h : Delivered s) (evt : α) : Delivered (s.handler limit evt) := by
  have horder : (s.log.map Prod.snd ++ (s.queue ++ [evt])).Sublist (s.arrived ++ [evt]) := by
    rw [← append_assoc]
    exact h.order.append (Sublist.refl _)
  have hcount := h.count
  simp only [State.handler]
  split
  · -- the oldest one goes
    refine Delivered.callWake ⟨?_, ?_, h.once, h.returned⟩
    · exact ((tail_sublist _).append_left _).trans horder
    · simp only [length_append, length_singleton, length_tail]
      omega
  · refine Delivered.callWake ⟨horder, ?_, h.once, h.returned⟩
    simp only [length_append, length_singleton]
    omega

theorem Delivered.loop (h : Delivered s) (hi : ∀ evt, s.phases i ≠ .returned evt) :
    Delivered (s.loop i) := by
  unfold State.loop
  split
  · rename_i evt rest hqueue
    have horder := h.order
    have hcount := h.count
    rw [hqueue] at horder hcount
    have hfresh : i ∉ s.log.map Prod.fst := by
      intro hmem
      obtain ⟨⟨j, evt'⟩, hlog, rfl⟩ := mem_map.mp hmem
      exact hi _ ((h.returned j evt').mp hlog)
    refine ⟨?_, ?_, ?_, fun j evt' => ?_⟩
    · simpa [State.setPhase] using horder
    · simp only [State.setPhase, length_append, length_cons, length_nil] at hcount ⊢
      omega
    · simp only [State.setPhase, map_append, map_cons, map_nil]
      rw [nodup_append_comm]
      exact nodup_cons.mpr ⟨hfresh, h.once⟩
    · simp only [State.setPhase, mem_append, mem_singleton, Prod.mk.injEq, h.returned]
      by_cases hj : j = i
      · subst hj
        simp [hi, eq_comm]
      · simp [hj]
  · split
    · exact h.setPhase hi (by simp)
    · have hwake : Delivered { s with wake := some i } := ⟨h.order, h.count, h.once, h.returned⟩
      exact hwake.setPhase hi (by simp)

theorem Delivered.init : Delivered (State.init : State α) :=
  ⟨Sublist.refl _, rfl, nodup_nil, by simp [State.init]⟩

variable {act : Act α}

theorem Delivered.step (h : Delivered s) (hstep : s.step limit act = some s') : Delivered s' := by
  cases act with
  | arrive evt =>
    cases hstep
    exact h.handler evt
  | next i =>
    simp only [State.step] at hstep
    split at hstep
    · rename_i hphase _
      cases hstep
      exact h.setPhase (by simp [hphase]) (by simp)
    · rename_i hphase _
      cases hstep
      exact h.setPhase (by simp [hphase]) (by simp)
    · cases hstep
  | settle ok =>
    simp only [State.step] at hstep
    split at hstep
    · cases hstep
      refine ⟨h.order, h.count, h.once, fun i evt => ?_⟩
      rw [h.returned]
      cases hphase : s.phases i <;> simp [Phase.settled, hphase]
    · cases hstep
  | turn i =>
    simp only [State.step] at hstep
    split at hstep
    · rename_i hphase _
      cases hstep
      exact h.setPhase (by simp [hphase]) (by simp)
    · rename_i hphase _
      cases hstep
      exact h.loop (by simp [hphase])
    · rename_i hphase
      cases hstep
      have hwake : Delivered { s with wake := none } := ⟨h.order, h.count, h.once, h.returned⟩
      exact hwake.loop (by simp [hphase])
    · cases hstep
  | finish =>
    simp only [State.step] at hstep
    split at hstep
    · cases hstep
      exact h
    · cases hstep
      exact Delivered.callWake ⟨h.order, h.count, h.once, h.returned⟩
  | close =>
    cases hstep
    exact ⟨h.order, h.count, h.once, h.returned⟩
  | dial | dialFails | opens =>
    obtain ⟨-, ⟨⟩⟩ := Option.ite_none_left_eq_some.mp hstep
    exact ⟨h.order, h.count, h.once, h.returned⟩

/-! ## Calls that wait -/

/-- No turn is to come and the subscription is set up, and a call waits for what is there
already. -/
def LeftWaiting (s : State α) : Prop :=
  (s.subPromise ≠ .pending ∧ ∀ i, s.phases i ≠ .ready ∧ s.phases i ≠ .resumed) ∧
    (s.queue ≠ [] ∨ s.finished = true ∨ s.hasClosed = true) ∧
    ∃ i, s.phases i = .parked ∨ s.phases i = .subscribing

/-- The one call that waits is in `wake`, and there is nothing for it. -/
structure Awake (s : State α) : Prop where
  parked : ∀ i, s.phases i = .parked → s.wake = some i ∧ s.Parks ∧ s.hasClosed = false
  single : ∀ i j, (s.phases i).Waits → (s.phases j).Waits → i = j
  subscribing : ∀ i, s.phases i = .subscribing → s.subPromise = .pending

theorem Awake.init : Awake (State.init : State α) :=
  ⟨by simp [State.init], by simp [State.init, Phase.Waits], by simp [State.init]⟩

theorem Awake.not_leftWaiting (h : Awake s) : ¬ LeftWaiting s := by
  rintro ⟨⟨hsub, -⟩, hthere, i, hparked | hsubscribing⟩
  · obtain ⟨-, ⟨hqueue, hfinished, -⟩, hclosed⟩ := h.parked i hparked
    simp [hqueue, hfinished, hclosed] at hthere
  · exact hsub (h.subscribing i hsubscribing)

/-- A call of `wake` leaves no call parked. -/
theorem Awake.callWake (hparked : ∀ i, s.phases i = .parked → s.wake = some i)
    (hsingle : ∀ i j, (s.phases i).Waits → (s.phases j).Waits → i = j)
    (hsub : ∀ i, s.phases i = .subscribing → s.subPromise = .pending) : Awake s.callWake := by
  unfold State.callWake
  split
  · rename_i hnone
    refine ⟨fun i hi => ?_, hsingle, hsub⟩
    have hwake := hparked i hi
    cases hnone.symm.trans hwake
  · rename_i k hwake
    split
    · rename_i hk
      have hwaits : ∀ i, ((s.setPhase k .resumed).phases i).Waits → (s.phases i).Waits := by
        intro i hi
        by_cases hik : i = k
        · rw [hik, hk]
          exact .inl rfl
        · rwa [setPhase_other s _ hik] at hi
      refine ⟨fun i hi => ?_, fun i j hi hj => hsingle i j (hwaits i hi) (hwaits j hj),
        fun i hi => ?_⟩
      · by_cases hik : i = k
        · rw [hik, setPhase_same] at hi
          cases hi
        · rw [setPhase_other s _ hik] at hi
          have hwake' := hparked i hi
          rw [hwake, Option.some.injEq] at hwake'
          exact absurd hwake'.symm hik
      · by_cases hik : i = k
        · rw [hik, setPhase_same] at hi
          cases hi
        · rw [setPhase_other s _ hik] at hi
          exact hsub i hi
    · rename_i hk
      refine ⟨fun i hi => ?_, hsingle, hsub⟩
      have hwake' := hparked i hi
      rw [hwake, Option.some.injEq] at hwake'
      subst hwake'
      exact absurd hi hk

/-- A call that neither waits nor waited changes its phase. -/
theorem Awake.setPhase (h : Awake s) (hphase : ¬ phase.Waits)
    (hsub : phase = .subscribing → s.subPromise = .pending) : Awake (s.setPhase i phase) := by
  have hother : ∀ j, ((s.setPhase i phase).phases j).Waits → (s.phases j).Waits ∧ j ≠ i := by
    intro j hj
    by_cases hji : j = i
    · rw [hji, setPhase_same] at hj
      exact absurd hj hphase
    · rw [setPhase_other s _ hji] at hj
      exact ⟨hj, hji⟩
  refine ⟨fun j hj => ?_, fun j k hj hk => h.single j k (hother j hj).1 (hother k hk).1,
    fun j hj => ?_⟩
  · obtain ⟨-, hji⟩ := hother j (.inl hj)
    rw [setPhase_other s _ hji] at hj
    exact h.parked j hj
  · by_cases hji : j = i
    · rw [hji, setPhase_same] at hj
      exact hsub hj
    · rw [setPhase_other s _ hji] at hj
      exact h.subscribing j hj

/-- A turn of a call that is not parked; when it parks, it is alone. -/
theorem Awake.loop (h : Awake s)
    (hparks : s.Parks → s.hasClosed = false ∧ ∀ j, j ≠ i → ¬ (s.phases j).Waits) :
    Awake (s.loop i) := by
  unfold State.loop
  split
  · rename_i evt rest hqueue
    have hnone : ∀ j, s.phases j ≠ .parked := by
      intro j hj
      have hempty := (h.parked j hj).2.1.1
      cases hqueue.symm.trans hempty
    have hrest : Awake { s with queue := rest, log := s.log ++ [(i, evt)] } :=
      ⟨fun j hj => absurd hj (hnone j), h.single, h.subscribing⟩
    exact hrest.setPhase (by simp [Phase.Waits]) (by simp)
  · rename_i hqueue
    split
    · exact h.setPhase (by simp [Phase.Waits]) (by simp)
    · rename_i hends
      simp only [Bool.or_eq_true, not_or, Bool.not_eq_true] at hends
      have hempty : s.Parks := ⟨hqueue, hends⟩
      have honly : ∀ j, (({ s with wake := some i }.setPhase i .parked).phases j).Waits →
          j = i := by
        intro j hj
        by_contra hji
        rw [setPhase_other _ _ hji] at hj
        exact (hparks hempty).2 j hji hj
      refine ⟨fun j hj => ?_, fun j k hj hk => (honly j hj).trans (honly k hk).symm,
        fun j hj => ?_⟩
      · obtain rfl := honly j (.inl hj)
        exact ⟨rfl, hempty, (hparks hempty).1⟩
      · by_cases hji : j = i
        · rw [hji, setPhase_same] at hj
          cases hj
        · rw [setPhase_other _ _ hji] at hj
          exact h.subscribing j hj

theorem Awake.step (h : Awake s) (hok : Careful s act)
    (hstep : s.step limit act = some s') : Awake s' := by
  have hparked : ∀ i, s.phases i = .parked → s.wake = some i := fun i hi => (h.parked i hi).1
  cases act with
  | arrive evt =>
    cases hstep
    simp only [State.handler]
    split
    · exact Awake.callWake hparked h.single h.subscribing
    · exact Awake.callWake hparked h.single h.subscribing
  | next i =>
    simp only [State.step] at hstep
    split at hstep
    · rename_i hsub
      cases hstep
      exact h.setPhase (by simp [Phase.Waits]) (fun _ => hsub)
    · cases hstep
      exact h.setPhase (by simp [Phase.Waits]) (by simp)
    · cases hstep
  | settle ok =>
    simp only [State.step] at hstep
    split at hstep
    · cases hstep
      have hsettled : ∀ phase : Phase α, phase.settled.Waits → phase.Waits := by
        intro phase hphase
        cases phase <;> simp_all [Phase.settled, Phase.Waits]
      refine ⟨fun i hi => h.parked i ?_,
        fun i j hi hj => h.single i j (hsettled _ hi) (hsettled _ hj), fun i hi => ?_⟩
      · cases hphase : s.phases i <;> simp_all [Phase.settled]
      · cases hphase : s.phases i <;> simp_all [Phase.settled]
    · cases hstep
  | turn i =>
    simp only [State.step] at hstep
    split at hstep
    · cases hstep
      exact h.setPhase (by simp [Phase.Waits]) (by simp)
    · cases hstep
      exact h.loop hok
    · rename_i hphase
      cases hstep
      -- the call that goes on was the only one that waited
      have hnone : ∀ j, s.phases j ≠ .parked := by
        intro j hj
        obtain rfl := h.single j i (.inl hj) (.inr hphase)
        cases hphase.symm.trans hj
      have hwake : Awake { s with wake := none } :=
        ⟨fun j hj => absurd hj (hnone j), h.single, h.subscribing⟩
      exact hwake.loop hok
    · cases hstep
  | finish =>
    simp only [State.step] at hstep
    split at hstep
    · cases hstep
      exact h
    · cases hstep
      exact Awake.callWake hparked h.single h.subscribing
  | close =>
    cases hstep
    exact ⟨fun j hj => absurd hj (hok j), h.single, h.subscribing⟩
  | dial | dialFails =>
    obtain ⟨-, ⟨⟩⟩ := Option.ite_none_left_eq_some.mp hstep
    exact ⟨h.parked, h.single, h.subscribing⟩
  | opens =>
    obtain ⟨-, ⟨⟩⟩ := Option.ite_none_left_eq_some.mp hstep
    refine ⟨fun i hi => ?_, h.single, h.subscribing⟩
    obtain ⟨hwake, ⟨hqueue, hfinished, -⟩, hclosed⟩ := h.parked i hi
    exact ⟨hwake, ⟨hqueue, hfinished, rfl⟩, hclosed⟩

end

/-! ## Any order of steps -/

/-- **Every event is returned once, in order, or counted**, in any order of steps; and **no call
is left waiting** where a `next()` begins to wait only when no other one waits and the client has
not been closed, and the client closes only when none does. -/
theorem events_delivered (limit : Option Nat) :
    (∀ s : State α, Reachable limit Anyhow s → Delivered s) ∧
      ∀ s : State α, Reachable limit Careful s → ¬ LeftWaiting s := by
  constructor
  · intro s h
    induction h with
    | init => exact Delivered.init
    | step _ _ hstep ih => exact ih.step hstep
  · intro s h
    have hawake : Awake s := by
      induction h with
      | init => exact Awake.init
      | step _ hok hstep ih => exact ih.step hok hstep
    exact hawake.not_leftWaiting

/-- Steps one after the other. -/
def runActs (limit : Option Nat) (acts : List (Act α)) (s : State α) : Option (State α) :=
  acts.foldlM (State.step limit) s

theorem reachable_runActs {limit : Option Nat} {s s' : State α} (h : Reachable limit Anyhow s)
    {acts : List (Act α)} (hrun : runActs limit acts s = some s') : Reachable limit Anyhow s' := by
  induction acts generalizing s with
  | nil =>
    cases hrun
    exact h
  | cons act acts ih =>
    rw [runActs, foldlM_cons, Option.bind_eq_bind, Option.bind_eq_some_iff] at hrun
    obtain ⟨s₁, hstep, hrest⟩ := hrun
    exact ih (h.step trivial hstep) hrest

/-- Two calls wait, and an event wakes the second; another event comes, and the first call still
waits.  Or one call waits and the client closes.  Or the client closes while a dial is in flight,
the dial opens, and a call begins to wait. -/
theorem left_waiting :
    (∃ s : State Nat, Reachable (some 1024) Anyhow s ∧ LeftWaiting s ∧ s.queue = [2]) ∧
      (∃ s : State Nat, Reachable (some 1024) Anyhow s ∧ LeftWaiting s ∧ s.closed = true) ∧
      ∃ s : State Nat, Reachable (some 1024) Anyhow s ∧ LeftWaiting s ∧ s.closed = false ∧
        s.queue = [] := by
  refine ⟨?_, ?_, ?_⟩
  · obtain ⟨s, hrun, hqueue, hsub, hparked, hother⟩ : ∃ s : State Nat,
        runActs (some 1024) [.settle true, .next 0, .next 1, .turn 0, .turn 1, .arrive 1, .turn 1,
          .arrive 2] .init = some s ∧ s.queue = [2] ∧ s.subPromise = .active ∧
        s.phases 0 = .parked ∧ s.phases 1 = .returned (some 1) ∧
        ∀ i, s.phases (i + 2) = .uncalled := ⟨_, rfl, rfl, rfl, rfl, rfl, fun _ => rfl⟩
    refine ⟨s, reachable_runActs .init hrun,
      ⟨⟨by simp [hsub], fun i => ?_⟩, .inl (by simp [hqueue]), 0, .inl hparked⟩, hqueue⟩
    match i with
    | 0 => simp [hparked]
    | 1 => simp [hother]
    | i + 2 => simp [hother]
  · obtain ⟨s, hrun, hclosed, hhas, hsub, hparked, hother⟩ : ∃ s : State Nat,
        runActs (some 1024) [.settle true, .next 0, .turn 0, .close] .init = some s ∧
        s.closed = true ∧ s.hasClosed = true ∧ s.subPromise = .active ∧ s.phases 0 = .parked ∧
        ∀ i, s.phases (i + 1) = .uncalled := ⟨_, rfl, rfl, rfl, rfl, rfl, fun _ => rfl⟩
    refine ⟨s, reachable_runActs .init hrun,
      ⟨⟨by simp [hsub], fun i => ?_⟩, .inr (.inr hhas), 0, .inl hparked⟩, hclosed⟩
    match i with
    | 0 => simp [hparked]
    | i + 1 => simp [hother]
  · obtain ⟨s, hrun, hclosed, hqueue, hhas, hsub, hparked, hother⟩ : ∃ s : State Nat,
        runActs (some 1024) [.dial, .opens, .settle true, .dial, .close, .opens, .next 0, .turn 0]
          .init = some s ∧ s.closed = false ∧ s.queue = [] ∧ s.hasClosed = true ∧
        s.subPromise = .active ∧ s.phases 0 = .parked ∧
        ∀ i, s.phases (i + 1) = .uncalled := ⟨_, rfl, rfl, rfl, rfl, rfl, rfl, fun _ => rfl⟩
    refine ⟨s, reachable_runActs .init hrun,
      ⟨⟨by simp [hsub], fun i => ?_⟩, .inr (.inr hhas), 0, .inl hparked⟩, hclosed, hqueue⟩
    match i with
    | 0 => simp [hparked]
    | i + 1 => simp [hother]

end WormDB.BunEvents
