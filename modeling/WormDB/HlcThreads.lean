import WormDB.Hlc
import Mathlib.Logic.Function.Basic

/-! # The clock under threads

Each thread loads the word, computes its candidate and swaps it in if the word is still
the one it loaded; else it goes round its loop again.  The weak swap may also fail for no
reason, and a relaxed load may see any value that the word has held.

The calls take effect one after the other, at their swaps (`Reachable.run`), and from
that order comes all that is known of the returned values (`returned_order`).  The order
in which the values are returned is another one (`returned_out_of_order`): a thread can
be held up between its swap and its return. -/
namespace WormDB.Hlc
open List

/-- Where a thread is.  A call carries `began`, the number of values that had been
returned when it was made. -/
inductive Phase where
  | idle
  | entered (call : Call) (began : Nat) (loop : Loop)
  | loaded (call : Call) (began : Nat) (loop : Loop) (prev candidate : UInt64)
  | swapped (call : Call) (began : Nat) (value : UInt64)
  | stopped
  deriving DecidableEq, Repr

structure Return where
  call : Call
  began : Nat
  value : UInt64
  deriving DecidableEq, Repr

/-- The clock's word and its threads; `issued` are the swaps, the newest first, and
`returned` the returned values, the oldest first. -/
structure Machine (Thread : Type) where
  last : UInt64
  phase : Thread → Phase
  issued : List (Call × UInt64)
  returned : List Return

variable {Thread : Type}

namespace Machine

def init : Machine Thread where
  last := 0
  phase _ := .idle
  issued := []
  returned := []

def setPhase [DecidableEq Thread] (s : Machine Thread) (t : Thread) (p : Phase) : Machine Thread :=
  { s with phase := Function.update s.phase t p }

/-- The values that the word has held. -/
def held (s : Machine Thread) : List UInt64 := s.issued.map (·.2) ++ [0]

/-- The thread's phase after what a call does before its loop. -/
def afterEnter (call : Call) (began : Nat) : Phase :=
  match call.enter with
  | some loop => .entered call began loop
  | none => .stopped

/-- The thread's phase after it has loaded `prev`. -/
def afterLoad (call : Call) (began : Nat) (loop : Loop) (prev : UInt64) : Phase :=
  match loop.candidate prev with
  | some candidate => .loaded call began loop prev candidate
  | none => .stopped

/-- A step of one thread.  An overflow stops the program; here the other threads may go
on, which only adds runs. -/
inductive Step [DecidableEq Thread] : Machine Thread → Machine Thread → Prop where
  | call {s : Machine Thread} (t : Thread) (call : Call) (h : s.phase t = .idle) :
      Step s (s.setPhase t (afterEnter call s.returned.length))
  | load {s : Machine Thread} {call : Call} {began : Nat} {loop : Loop} (t : Thread)
      (prev : UInt64) (h : s.phase t = .entered call began loop) (hprev : prev ∈ s.held) :
      Step s (s.setPhase t (afterLoad call began loop prev))
  | swap {s : Machine Thread} {call : Call} {began : Nat} {loop : Loop}
      {prev candidate : UInt64} (t : Thread)
      (h : s.phase t = .loaded call began loop prev candidate) (hlast : s.last = prev) :
      Step s { s.setPhase t (.swapped call began candidate) with
        last := candidate
        issued := (call, candidate) :: s.issued }
  | retry {s : Machine Thread} {call : Call} {began : Nat} {loop : Loop}
      {prev candidate : UInt64} (t : Thread)
      (h : s.phase t = .loaded call began loop prev candidate) :
      Step s (s.setPhase t (.entered call began loop))
  | ret {s : Machine Thread} {call : Call} {began : Nat} {value : UInt64} (t : Thread)
      (h : s.phase t = .swapped call began value) :
      Step s { s.setPhase t .idle with returned := s.returned ++ [⟨call, began, value⟩] }

inductive Reachable [DecidableEq Thread] : Machine Thread → Prop where
  | init : Reachable init
  | step {s s' : Machine Thread} (reach : Reachable s) (h : Step s s') : Reachable s'

end Machine

/-! ## The invariant -/

/-- What is known of a thread in each phase, by what was issued and returned. -/
def PhaseOk (issued : List (Call × UInt64)) (returned : List Return) : Phase → Prop
  | .idle => True
  | .entered call began loop => call.enter = some loop ∧ began ≤ returned.length
  | .loaded call began loop prev candidate =>
      call.enter = some loop ∧ loop.candidate prev = some candidate ∧ began ≤ returned.length
  | .swapped call began value =>
      (call, value) ∈ issued ∧ began ≤ returned.length ∧
        (∀ r ∈ returned.take began, r.value < value) ∧ ∀ r ∈ returned, r.value ≠ value
  | .stopped => True

/-- **What holds in every reachable state.** -/
structure Machine.Ok (s : Machine Thread) : Prop where
  run : Run s.issued s.last
  phase : ∀ t, PhaseOk s.issued s.returned (s.phase t)
  apart : ∀ t t' call call' began began' value, s.phase t = .swapped call began value →
    s.phase t' = .swapped call' began' value → t = t'
  issued : ∀ r ∈ s.returned, (r.call, r.value) ∈ s.issued
  after : ∀ r ∈ s.returned, r.began ≤ s.returned.length ∧
    ∀ r' ∈ s.returned.take r.began, r'.value < r.value
  distinct : (s.returned.map (·.value)).Nodup

section
variable {issued : List (Call × UInt64)} {returned : List Return} {call : Call} {began : Nat}
  {loop : Loop} {prev value : UInt64}

open Machine

theorem phaseOk_afterEnter (h : began ≤ returned.length) :
    PhaseOk issued returned (afterEnter call began) := by
  unfold afterEnter
  cases henter : call.enter with
  | none => trivial
  | some loop => exact ⟨henter, h⟩

theorem phaseOk_afterLoad (henter : call.enter = some loop) (h : began ≤ returned.length) :
    PhaseOk issued returned (afterLoad call began loop prev) := by
  unfold afterLoad
  cases hcand : loop.candidate prev with
  | none => trivial
  | some candidate => exact ⟨henter, hcand, h⟩

theorem afterEnter_ne_swapped (call' : Call) (began' : Nat) :
    afterEnter call began ≠ .swapped call' began' value := by
  unfold afterEnter
  cases call.enter <;> rintro ⟨⟩

theorem afterLoad_ne_swapped (call' : Call) (began' : Nat) :
    afterLoad call began loop prev ≠ .swapped call' began' value := by
  unfold afterLoad
  cases loop.candidate prev <;> rintro ⟨⟩

/-- One more issued value leaves what is known of the other threads. -/
theorem PhaseOk.issue {q : Phase} (h : PhaseOk issued returned q) (p : Call × UInt64) :
    PhaseOk (p :: issued) returned q := by
  cases q with
  | swapped call began value => exact ⟨mem_cons_of_mem _ h.1, h.2⟩
  | _ => exact h

/-- So does one more returned value, which no other thread has. -/
theorem PhaseOk.ret {q : Phase} (h : PhaseOk issued returned q) {r : Return}
    (hr : ∀ call began, q ≠ .swapped call began r.value) :
    PhaseOk issued (returned ++ [r]) q := by
  have hlen : returned.length ≤ (returned ++ [r]).length := by simp
  cases q with
  | idle | stopped => trivial
  | entered call began loop => exact ⟨h.1, Nat.le_trans h.2 hlen⟩
  | loaded call began loop prev candidate => exact ⟨h.1, h.2.1, Nat.le_trans h.2.2 hlen⟩
  | swapped call began value =>
    obtain ⟨hissued, hbegan, hbefore, hfresh⟩ := h
    refine ⟨hissued, Nat.le_trans hbegan hlen, ?_, ?_⟩
    · rwa [take_append_of_le_length hbegan]
    · intro r' hr'
      rcases mem_append.mp hr' with hold | hnew
      · exact hfresh r' hold
      · obtain rfl := mem_singleton.mp hnew
        rintro rfl
        exact hr call began rfl

end

namespace Machine

/-- A returned value is not past the clock's word. -/
theorem Ok.returned_le {s : Machine Thread} (ok : Ok s) : ∀ r ∈ s.returned, r.value ≤ s.last :=
  fun r hr => ok.run.le_last _ (ok.issued r hr)

theorem init_ok : Ok (init : Machine Thread) where
  run := .init
  phase _ := trivial
  apart t t' call call' began began' value h := by cases h
  issued r hr := by cases hr
  after r hr := by cases hr
  distinct := .nil

variable [DecidableEq Thread]

section
variable {s s' : Machine Thread} {call : Call} {began : Nat} {loop : Loop} {t : Thread}
  {p : Phase} {prev candidate value : UInt64}

/-- A thread's phase after another one, or itself, was set. -/
theorem setPhase_cases (s : Machine Thread) (t : Thread) (p : Phase) (t' : Thread) :
    t' = t ∧ (s.setPhase t p).phase t' = p ∨
      t' ≠ t ∧ (s.setPhase t p).phase t' = s.phase t' := by
  by_cases h : t' = t
  · subst h
    exact .inl ⟨rfl, Function.update_self ..⟩
  · exact .inr ⟨h, Function.update_of_ne h ..⟩

/-- A step that only moves one thread, and not to its return. -/
theorem Ok.setPhase (ok : Ok s) (hp : PhaseOk s.issued s.returned p)
    (hne : ∀ call began value, p ≠ .swapped call began value) : Ok (s.setPhase t p) where
  run := ok.run
  phase t' := by
    rcases setPhase_cases s t p t' with ⟨-, h⟩ | ⟨-, h⟩ <;> rw [h]
    · exact hp
    · exact ok.phase t'
  apart t₁ t₂ call₁ call₂ began₁ began₂ value h₁ h₂ := by
    rcases setPhase_cases s t p t₁ with ⟨-, h⟩ | ⟨-, h⟩
    · exact absurd (h.symm.trans h₁) (hne _ _ _)
    rcases setPhase_cases s t p t₂ with ⟨-, h'⟩ | ⟨-, h'⟩
    · exact absurd (h'.symm.trans h₂) (hne _ _ _)
    exact ok.apart t₁ t₂ _ _ _ _ value (h.symm.trans h₁) (h'.symm.trans h₂)
  issued := ok.issued
  after := ok.after
  distinct := ok.distinct

/-- **The swap** puts a value past all that were issued, and so past all that were
returned. -/
theorem Ok.swap (ok : Ok s) (h : s.phase t = .loaded call began loop s.last candidate) :
    Ok { s.setPhase t (.swapped call began candidate) with
      last := candidate
      issued := (call, candidate) :: s.issued } := by
  obtain ⟨henter, hcand, hbegan⟩ : call.enter = some loop ∧ loop.candidate s.last = some candidate ∧
      began ≤ s.returned.length := by
    have hphase := ok.phase t
    rwa [h] at hphase
  have hlt : s.last < candidate := lt_candidate hcand
  have hreturned : ∀ r ∈ s.returned, r.value < candidate := fun r hr =>
    UInt64.lt_of_le_of_lt (ok.returned_le r hr) hlt
  -- another thread on its way back holds a value issued before this one
  have hother : ∀ t' call' began', s.phase t' ≠ .swapped call' began' candidate := by
    intro t' call' began' hphase
    have hok := ok.phase t'
    rw [hphase] at hok
    exact UInt64.lt_irrefl _ (UInt64.lt_of_le_of_lt (ok.run.le_last _ hok.1) hlt)
  refine ⟨.issue call ok.run (issue_eq_some.mpr ⟨loop, henter, hcand⟩), ?_, ?_, ?_, ok.after,
    ok.distinct⟩
  · intro t'
    show PhaseOk _ _ ((s.setPhase t (.swapped call began candidate)).phase t')
    rcases setPhase_cases s t (.swapped call began candidate) t' with ⟨-, h'⟩ | ⟨-, h'⟩ <;> rw [h']
    · exact ⟨mem_cons_self, hbegan, fun r hr => hreturned r (mem_of_mem_take hr),
        fun r hr heq => UInt64.lt_irrefl _ (heq ▸ hreturned r hr)⟩
    · exact (ok.phase t').issue _
  · intro t₁ t₂ call₁ call₂ began₁ began₂ value h₁ h₂
    rcases setPhase_cases s t (.swapped call began candidate) t₁ with ⟨h₁t, h₁'⟩ | ⟨-, h₁'⟩ <;>
    rcases setPhase_cases s t (.swapped call began candidate) t₂ with ⟨h₂t, h₂'⟩ | ⟨-, h₂'⟩
    · exact h₁t.trans h₂t.symm
    · cases h₁'.symm.trans h₁
      exact absurd (h₂'.symm.trans h₂) (hother _ _ _)
    · cases h₂'.symm.trans h₂
      exact absurd (h₁'.symm.trans h₁) (hother _ _ _)
    · exact ok.apart t₁ t₂ _ _ _ _ value (h₁'.symm.trans h₁) (h₂'.symm.trans h₂)
  · exact fun r hr => mem_cons_of_mem _ (ok.issued r hr)

/-- The return hands out a value that no other thread has. -/
theorem Ok.ret (ok : Ok s) (h : s.phase t = .swapped call began value) :
    Ok { s.setPhase t .idle with returned := s.returned ++ [⟨call, began, value⟩] } := by
  obtain ⟨hissued, hbegan, hbefore, hfresh⟩ : (call, value) ∈ s.issued ∧
      began ≤ s.returned.length ∧ (∀ r ∈ s.returned.take began, r.value < value) ∧
      ∀ r ∈ s.returned, r.value ≠ value := by
    have hphase := ok.phase t
    rwa [h] at hphase
  refine ⟨ok.run, ?_, ?_, ?_, ?_, ?_⟩
  · intro t'
    show PhaseOk _ _ ((s.setPhase t .idle).phase t')
    rcases setPhase_cases s t .idle t' with ⟨-, h'⟩ | ⟨hne, h'⟩ <;> rw [h']
    · trivial
    · exact (ok.phase t').ret fun call' began' hphase =>
        hne (ok.apart _ _ _ _ _ _ _ hphase h)
  · intro t₁ t₂ call₁ call₂ began₁ began₂ value h₁ h₂
    rcases setPhase_cases s t .idle t₁ with ⟨-, h₁'⟩ | ⟨-, h₁'⟩
    · cases h₁'.symm.trans h₁
    rcases setPhase_cases s t .idle t₂ with ⟨-, h₂'⟩ | ⟨-, h₂'⟩
    · cases h₂'.symm.trans h₂
    exact ok.apart t₁ t₂ _ _ _ _ value (h₁'.symm.trans h₁) (h₂'.symm.trans h₂)
  · intro r hr
    rcases mem_append.mp hr with hr | hr
    · exact ok.issued r hr
    · obtain rfl := mem_singleton.mp hr
      exact hissued
  · have hlen : s.returned.length ≤ (s.returned ++ [(⟨call, began, value⟩ : Return)]).length := by
      simp
    intro r hr
    rcases mem_append.mp hr with hr | hr
    · obtain ⟨hr₁, hr₂⟩ := ok.after r hr
      refine ⟨Nat.le_trans hr₁ hlen, ?_⟩
      rwa [take_append_of_le_length hr₁]
    · obtain rfl := mem_singleton.mp hr
      refine ⟨Nat.le_trans hbegan hlen, ?_⟩
      rwa [take_append_of_le_length hbegan]
  · rw [map_append, nodup_append]
    refine ⟨ok.distinct, by simp, ?_⟩
    intro w hw w' hw'
    obtain ⟨r, hr, rfl⟩ := mem_map.mp hw
    obtain rfl := mem_singleton.mp hw'
    exact hfresh r hr

/-- A step keeps the invariant. -/
theorem Ok.step (ok : Ok s) (h : Step s s') : Ok s' := by
  cases h with
  | call t call h => exact ok.setPhase (phaseOk_afterEnter (Nat.le_refl _)) fun _ _ _ =>
      afterEnter_ne_swapped _ _
  | load t prev h hprev =>
    have hphase := ok.phase t
    rw [h] at hphase
    exact ok.setPhase (phaseOk_afterLoad hphase.1 hphase.2) fun _ _ _ => afterLoad_ne_swapped _ _
  | swap t h hlast =>
    subst hlast
    exact ok.swap h
  | retry t h =>
    have hphase := ok.phase t
    rw [h] at hphase
    exact ok.setPhase (p := .entered _ _ _) ⟨hphase.1, hphase.2.2⟩ (by rintro _ _ _ ⟨⟩)
  | ret t h => exact ok.ret h

theorem Reachable.ok (reach : Reachable s) : Ok s := by
  induction reach with
  | init => exact init_ok
  | step _ h ih => exact ih.step h

/-- **The order of returned values**: values rise in the order of the swaps, each returned
value is one of them, is returned once, is past every value that had been returned when its
call was made, and past the clamped remote value. -/
theorem returned_order (reach : Reachable s) :
    (s.issued.map (·.2)).Pairwise (· > ·) ∧
      (∀ r ∈ s.returned, (r.call, r.value) ∈ s.issued) ∧
      (s.returned.map (·.value)).Nodup ∧
      (∀ r ∈ s.returned, ∀ r' ∈ s.returned.take r.began, r'.value < r.value) ∧
      ∀ r ∈ s.returned, ∀ remote wallMs remoteV, r.call = .observe remote wallMs →
        clampRemote remote wallMs = some remoteV → remoteV < r.value := by
  have ok := reach.ok
  exact ⟨ok.run.pairwise, ok.issued, ok.distinct, fun r hr => (ok.after r hr).2,
    fun r hr => ok.run.remote_lt _ (ok.issued r hr)⟩

end

/-- One thread issues the older value and is held up; the other issues the newer one and
returns it first. -/
theorem overtaken : ∃ s : Machine Bool, Reachable s ∧
    s.issued = [(.now 5, pack 5 1), (.now 5, pack 5 0)] ∧
    s.returned = [⟨.now 5, 0, pack 5 1⟩, ⟨.now 5, 0, pack 5 0⟩] := by
  have h₁ := Reachable.init.step (.call (s := init) false (.now 5) rfl)
  have h₂ := h₁.step (.load false 0 (rfl : _ = Phase.entered (.now 5) 0 (.now (pack 5 0)))
    (by decide))
  have h₃ := h₂.step (.swap false
    (by decide : _ = Phase.loaded (.now 5) 0 (.now (pack 5 0)) 0 (pack 5 0)) rfl)
  have h₄ := h₃.step (.call true (.now 5) rfl)
  have h₅ := h₄.step (.load true (pack 5 0) (rfl : _ = Phase.entered (.now 5) 0 (.now (pack 5 0)))
    (by decide))
  have h₆ := h₅.step (.swap true
    (by decide : _ = Phase.loaded (.now 5) 0 (.now (pack 5 0)) (pack 5 0) (pack 5 1)) rfl)
  have h₇ := h₆.step (.ret true (rfl : _ = Phase.swapped (.now 5) 0 (pack 5 1)))
  have h₈ := h₇.step (.ret false (rfl : _ = Phase.swapped (.now 5) 0 (pack 5 0)))
  exact ⟨_, h₈, rfl, rfl⟩

theorem returned_order_overtaken : ∃ s : Machine Bool,
    s.returned = [⟨.now 5, 0, pack 5 1⟩, ⟨.now 5, 0, pack 5 0⟩] ∧
      (s.issued.map (·.2)).Pairwise (· > ·) ∧ (s.returned.map (·.value)).Nodup := by
  obtain ⟨s, reach, -, hreturned⟩ := overtaken
  obtain ⟨hissued, -, hdistinct, -, -⟩ := returned_order reach
  exact ⟨s, hreturned, hissued, hdistinct⟩

/-- The values are not returned in their order. -/
theorem returned_out_of_order :
    ¬∀ s : Machine Bool, Reachable s → (s.returned.map (·.value)).Pairwise (· < ·) := by
  intro h
  obtain ⟨s, reach, -, hreturned⟩ := overtaken
  have hpair := h s reach
  rw [hreturned] at hpair
  exact absurd hpair (by decide)

end Machine

end WormDB.Hlc
