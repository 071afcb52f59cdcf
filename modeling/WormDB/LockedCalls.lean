import Mathlib.Logic.Function.Basic
import Mathlib.Data.List.Nodup

/-! # Calls that lock what they access

A call takes its locks one after the other, goes through its body, which reads and writes
keys, and gives the locks back.  Calls run at once, and any of them may move between two
accesses of another.

When the locks of a call cover the keys of its body, a run leaves what the bodies leave that
have come to their end, one after the other in the order in which they ended (`Run.serial`):
`Serial` is that order, with the memory around each body. -/
namespace LockedCalls
open List
open Function (update update_eq_self update_idem update_of_ne update_self)

/-- What a call does under its locks. -/
inductive Prog (K V W ρ : Type) where
  | ret (result : ρ)
  | trap
  | get (key : K) (next : V → Prog K V W ρ)
  | put (key : K) (value : W) (next : Prog K V W ρ)

/-- A memory whose writes may do anything to their key, and nothing to the others. -/
structure KeyMemory (σ K V W : Type) where
  read : σ → K → V
  write : σ → K → W → σ
  read_write_of_ne : ∀ s {key k} value, k ≠ key → read (write s key value) k = read s k

variable {σ K V W ρ R : Type}

namespace Prog

/-- Every access is to a key of these. -/
def Covered (keys : K → Prop) : Prog K V W ρ → Prop
  | ret _ | trap => True
  | get key next => keys key ∧ ∀ v, (next v).Covered keys
  | put key _ next => keys key ∧ next.Covered keys

section
variable [DecidableEq K] (written : W → V)

/-- The body on its own, with writes that all happen. -/
def run : Prog K V W ρ → (K → V) → Option (ρ × (K → V))
  | ret result, view => some (result, view)
  | trap, _ => none
  | get key next, view => (next (view key)).run view
  | put key value next, view => next.run (update view key (written value))

/-- What the body reads on its own is as expected. -/
def Sound (expected : K → V → Prop) : Prog K V W ρ → (K → V) → Prop
  | ret _, _ | trap, _ => True
  | get key next, view => expected key (view key) ∧ (next (view key)).Sound expected view
  | put key value next, view => next.Sound expected (update view key (written value))

end

end Prog

/-- Where a call is, with the locks it holds, the last first. -/
inductive Phase (K V W ρ R : Type) where
  | acquiring (held todo : List R)
  | running (held : List R) (body : Prog K V W ρ)
  | releasing (held : List R) (result : ρ)

namespace Phase

def held : Phase K V W ρ R → List R
  | acquiring held _ | running held _ | releasing held _ => held

end Phase

/-- What the calls are to do, and which lock is that of a key. -/
structure Calls (n : Nat) (K V W ρ R : Type) where
  locks : Fin n → List R
  body : Fin n → Prog K V W ρ
  lockOf : K → R

structure State (n : Nat) (σ K V W ρ R : Type) where
  mem : σ
  phases : Fin n → Phase K V W ρ R

variable {n : Nat}

namespace State

def start (mem : σ) (calls : Calls n K V W ρ R) : State n σ K V W ρ R :=
  ⟨mem, fun i => .acquiring [] (calls.locks i)⟩

/-- A failed safety check has ended the process. -/
def Halted (s : State n σ K V W ρ R) : Prop := ∃ i held, s.phases i = .running held .trap

end State

/-- The next phase of a call that is alone with its lock, and what becomes of the memory. -/
inductive Move (m : KeyMemory σ K V W) (mem : σ) (body : Prog K V W ρ) (Free : R → Prop) :
    Phase K V W ρ R → σ → Phase K V W ρ R → Prop where
  | acquire {held todo lock} (hnew : lock ∉ held) (hfree : Free lock) :
      Move m mem body Free (.acquiring held (lock :: todo)) mem (.acquiring (lock :: held) todo)
  | skip {held todo lock} (hheld : lock ∈ held) :
      Move m mem body Free (.acquiring held (lock :: todo)) mem (.acquiring held todo)
  | enter {held} : Move m mem body Free (.acquiring held []) mem (.running held body)
  | get {held key next} :
      Move m mem body Free (.running held (.get key next)) mem (.running held (next (m.read mem key)))
  | put {held key value next} :
      Move m mem body Free (.running held (.put key value next)) (m.write mem key value)
        (.running held next)
  | finish {held result} :
      Move m mem body Free (.running held (.ret result)) mem (.releasing held result)
  | release {held lock result} :
      Move m mem body Free (.releasing (lock :: held) result) mem (.releasing held result)

/-- Call `i` moves. -/
inductive Step (m : KeyMemory σ K V W) (calls : Calls n K V W ρ R) (i : Fin n) :
    State n σ K V W ρ R → State n σ K V W ρ R → Prop where
  | move {s : State n σ K V W ρ R} {mem : σ} {phase : Phase K V W ρ R} (hrunning : ¬ s.Halted)
      (hmove : Move m s.mem (calls.body i) (fun lock => ∀ j, j ≠ i → lock ∉ (s.phases j).held)
        (s.phases i) mem phase) :
      Step m calls i s ⟨mem, update s.phases i phase⟩

/-- What a call is about to read is as expected, and what it is about to write can be. -/
def Meets (m : KeyMemory σ K V W) (expected : Fin n → K → V → Prop) (writable : σ → K → W → Prop)
    (s : State n σ K V W ρ R) (i : Fin n) : Prop :=
  match s.phases i with
  | .running _ (.get key _) => expected i key (m.read s.mem key)
  | .running _ (.put key value _) => writable s.mem key value
  | _ => True

inductive Run (m : KeyMemory σ K V W) (calls : Calls n K V W ρ R)
    (meets : State n σ K V W ρ R → Fin n → Prop) (s₀ : State n σ K V W ρ R) :
    State n σ K V W ρ R → Prop where
  | nil : Run m calls meets s₀ s₀
  | snoc {s s' : State n σ K V W ρ R} {i : Fin n} (hrun : Run m calls meets s₀ s) (hmeets : meets s i)
      (hstep : Step m calls i s s') : Run m calls meets s₀ s'

/-! ## One after the other -/

/-- A call that has come to its end, with the memory around its body. -/
structure Event (n : Nat) (K V ρ : Type) where
  call : Fin n
  result : ρ
  before : K → V
  after : K → V

/-- Each body begins with what the one before it has left. -/
def Chain : (K → V) → List (Event n K V ρ) → (K → V) → Prop
  | view, [], last => last = view
  | view, e :: rest, last => e.before = view ∧ Chain e.after rest last

theorem Chain.snoc {view before : K → V} {events : List (Event n K V ρ)}
    (h : Chain view events before) {i : Fin n} {result : ρ} {after : K → V} :
    Chain view (events ++ [⟨i, result, before, after⟩]) after := by
  induction events generalizing view with
  | nil => exact ⟨h, rfl⟩
  | cons e rest ih => exact ⟨h.1, ih h.2⟩

section
variable [DecidableEq K] (written : W → V) (calls : Calls n K V W ρ R)
  (expected : Fin n → K → V → Prop)

inductive Serial (view : K → V) : List (Event n K V ρ) → (K → V) → Prop where
  | nil : Serial view [] view
  | snoc {events : List (Event n K V ρ)} {before after : K → V} {i : Fin n} {result : ρ}
      (hserial : Serial view events before)
      (hrun : (calls.body i).run written before = some (result, after))
      (hsound : (calls.body i).Sound written (expected i) before) :
      Serial view (events ++ [⟨i, result, before, after⟩]) after

theorem Serial.chain {view last : K → V} {events : List (Event n K V ρ)}
    (h : Serial written calls expected view events last) : Chain view events last := by
  induction h with
  | nil => rfl
  | snoc _ _ _ ih => exact ih.snoc

end

/-! ## The invariant -/

section Invariant
variable {m : KeyMemory σ K V W}

/-- The keys of the held locks as they are, and the others as they would be. -/
noncomputable def mask (m : KeyMemory σ K V W) (lockOf : K → R) (held : List R) (mem : σ)
    (view : K → V) : K → V := by
  classical
  exact fun k => if lockOf k ∈ held then m.read mem k else view k

variable {lockOf : K → R} {k : K}

theorem mask_held {held : List R} (h : lockOf k ∈ held) (mem : σ)
    (view : K → V) : mask m lockOf held mem view k = m.read mem k := if_pos h

theorem mask_free {held : List R} (h : lockOf k ∉ held) (mem : σ)
    (view : K → V) : mask m lockOf held mem view k = view k := if_neg h

variable [DecidableEq K] {written : W → V} {calls : Calls n K V W ρ R}
  {expected : Fin n → K → V → Prop} {writable : σ → K → W → Prop} {view₀ view view' : K → V}
  {s s' : State n σ K V W ρ R} {mem mem' : σ} {events events' : List (Event n K V ρ)}

/-- What is left of the body does, from the keys as they are, what the whole of it does from
the keys as they would be; the keys of other calls do not matter. -/
def Halfway (m : KeyMemory σ K V W) (written : W → V) (lockOf : K → R) (expected : K → V → Prop)
    (mem : σ) (view : K → V) (held : List R) (body rest : Prog K V W ρ) : Prop :=
  ∀ u : K → V, (∀ k, lockOf k ∈ held → u k = view k) →
    rest.run written (mask m lockOf held mem u) = body.run written u ∧
      (rest.Sound written expected (mask m lockOf held mem u) → body.Sound written expected u)

/-- What is known of a call. -/
def Knows (m : KeyMemory σ K V W) (written : W → V) (calls : Calls n K V W ρ R)
    (expected : Fin n → K → V → Prop) (mem : σ) (view : K → V) (events : List (Event n K V ρ))
    (i : Fin n) : Phase K V W ρ R → Prop
  | .acquiring held todo =>
      (∀ lock ∈ calls.locks i, lock ∈ held ∨ lock ∈ todo) ∧ ∀ e ∈ events, e.call ≠ i
  | .running held rest =>
      rest.Covered (fun k => calls.lockOf k ∈ held) ∧
        Halfway m written calls.lockOf (expected i) mem view held (calls.body i) rest ∧
        ∀ e ∈ events, e.call ≠ i
  | .releasing _ result => ∃ e ∈ events, e.call = i ∧ e.result = result

structure Inv (m : KeyMemory σ K V W) (written : W → V) (calls : Calls n K V W ρ R)
    (expected : Fin n → K → V → Prop) (s : State n σ K V W ρ R) (view : K → V)
    (events : List (Event n K V ρ)) : Prop where
  apart : ∀ i j, i ≠ j → ∀ lock ∈ (s.phases i).held, lock ∉ (s.phases j).held
  still : ∀ k, (∀ i held rest, s.phases i = .running held rest → calls.lockOf k ∉ held) →
    m.read s.mem k = view k
  knows : ∀ i, Knows m written calls expected s.mem view events i (s.phases i)
  done : ∀ e ∈ events, ∃ held, s.phases e.call = .releasing held e.result
  once : (events.map Event.call).Nodup

omit [DecidableEq K] in
theorem mask_congr {lockOf : K → R} {held : List R}
    (h : ∀ k, lockOf k ∈ held → m.read mem' k = m.read mem k) (u : K → V) :
    mask m lockOf held mem' u = mask m lockOf held mem u := by
  funext k
  by_cases hk : lockOf k ∈ held
  · rw [mask_held hk, mask_held hk, h k hk]
  · rw [mask_free hk, mask_free hk]

omit [DecidableEq K] in
theorem Prog.Covered.mono {keys keys' : K → Prop} {body : Prog K V W ρ} (h : body.Covered keys)
    (hsub : ∀ k, keys k → keys' k) : body.Covered keys' := by
  induction body with
  | ret result => trivial
  | trap => trivial
  | get key next ih => exact ⟨hsub key h.1, fun v => ih v (h.2 v)⟩
  | put key value next ih => exact ⟨hsub key h.1, ih h.2⟩

variable {i : Fin n} {phase : Phase K V W ρ R}

/-- A call knows nothing of the locks that it does not hold. -/
theorem Knows.frame (h : Knows m written calls expected mem view events i phase)
    (hmem : ∀ k, calls.lockOf k ∈ phase.held → m.read mem' k = m.read mem k)
    (hview : ∀ k, calls.lockOf k ∈ phase.held → view' k = view k)
    (hold : ∀ e ∈ events, e ∈ events') (hnew : ∀ e ∈ events', e ∈ events ∨ e.call ≠ i) :
    Knows m written calls expected mem' view' events' i phase := by
  have hnone : (∀ e ∈ events, e.call ≠ i) → ∀ e ∈ events', e.call ≠ i := by
    intro hno e he
    rcases hnew e he with hin | hother
    · exact hno e hin
    · exact hother
  cases phase with
  | acquiring held todo => exact ⟨h.1, hnone h.2⟩
  | running held rest =>
    obtain ⟨hcovered, hhalf, hno⟩ := h
    refine ⟨hcovered, fun u hu => ?_, hnone hno⟩
    have hmask := @mask_congr _ _ _ _ _ m _ _ calls.lockOf held hmem
    rw [hmask]
    exact hhalf u (fun k hk => (hu k hk).trans (hview k hk))
  | releasing held result =>
    obtain ⟨e, he, hcall⟩ := h
    exact ⟨e, hold e he, hcall⟩

theorem Inv.start (mem : σ) : Inv m written calls expected (State.start mem calls) (m.read mem) [] where
  apart _ _ _ := nofun
  still _ _ := rfl
  knows _ := ⟨fun _ hlock => .inr hlock, nofun⟩
  done _ he := nomatch he
  once := nodup_nil

section
variable (h : Inv m written calls expected s view events)
include h

/-- One call has moved, with the keys of the locks that it held. -/
theorem Inv.moved
    (hheld : ∀ lock ∈ phase.held, lock ∈ (s.phases i).held ∨ ∀ j, j ≠ i → lock ∉ (s.phases j).held)
    (hmem : ∀ k, calls.lockOf k ∉ (s.phases i).held → m.read mem' k = m.read s.mem k)
    (hview : ∀ k, calls.lockOf k ∉ (s.phases i).held → view' k = view k)
    (hstill : ∀ k, (∀ held rest, phase = .running held rest → calls.lockOf k ∉ held) →
      (∀ j, j ≠ i → ∀ held rest, s.phases j = .running held rest → calls.lockOf k ∉ held) →
      m.read mem' k = view' k)
    (hknows : Knows m written calls expected mem' view' events' i phase)
    (hold : ∀ e ∈ events, e ∈ events') (hnew : ∀ e ∈ events', e ∈ events ∨ e.call = i)
    (hdone : ∀ e ∈ events', e.call = i → ∃ held, phase = .releasing held e.result)
    (honce : (events'.map Event.call).Nodup) :
    Inv m written calls expected ⟨mem', update s.phases i phase⟩ view' events' where
  apart := by
    -- a lock the call has is one it had or one nobody else has
    have hother : ∀ j, j ≠ i → ∀ lock ∈ phase.held, lock ∉ (s.phases j).held := by
      intro j hj lock hlock
      rcases hheld lock hlock with hin | hfree
      · exact h.apart i j (Ne.symm hj) lock hin
      · exact hfree j hj
    intro a b hab lock ha hb
    by_cases hai : a = i
    · subst hai
      simp only [update_self, update_of_ne (Ne.symm hab)] at ha hb
      exact hother b (Ne.symm hab) lock ha hb
    · simp only [update_of_ne hai] at ha
      by_cases hbi : b = i
      · subst hbi
        simp only [update_self] at hb
        exact hother a hai lock hb ha
      · simp only [update_of_ne hbi] at hb
        exact h.apart a b hab lock ha hb
  still := by
    intro k hk
    refine hstill k (fun held rest hphase => hk i held rest ?_) (fun j hj held rest hphase => hk j held rest ?_)
    · simp only [update_self]
      exact hphase
    · simp only [update_of_ne hj]
      exact hphase
  knows := by
    intro j
    by_cases hj : j = i
    · subst hj
      simp only [update_self]
      exact hknows
    · simp only [update_of_ne hj]
      -- the keys of another call are not touched
      have hfree : ∀ {lock}, lock ∈ (s.phases j).held → lock ∉ (s.phases i).held :=
        fun hlock => h.apart j i hj _ hlock
      refine (h.knows j).frame (fun k hk => hmem k (hfree hk)) (fun k hk => hview k (hfree hk))
        hold (fun e he => ?_)
      rcases hnew e he with hin | hcall
      · exact .inl hin
      · exact .inr (fun heq => hj (heq.symm.trans hcall))
  done := by
    intro e he
    by_cases hcall : e.call = i
    · obtain ⟨held, hphase⟩ := hdone e he hcall
      exact ⟨held, by simp only [hcall, update_self, hphase]⟩
    · simp only [update_of_ne hcall]
      rcases hnew e he with hin | hi
      · exact h.done e hin
      · exact absurd hi hcall
  once := honce

/-- A step that is no access: the call comes to a phase that knows no more. -/
theorem Inv.still_of_not_running (hi : ∀ held rest, s.phases i ≠ .running held rest)
    (hothers : ∀ j, j ≠ i → ∀ held rest, s.phases j = .running held rest → calls.lockOf k ∉ held) :
    m.read s.mem k = view k := by
  refine h.still k (fun j held rest hphase => ?_)
  by_cases hj : j = i
  · subst hj
    exact absurd hphase (hi held rest)
  · exact hothers j hj held rest hphase

/-- The same of a key that a call at its body has not locked. -/
theorem Inv.still_of_running
    {held : List R} {rest : Prog K V W ρ} (hphase : s.phases i = .running held rest)
    (hk : calls.lockOf k ∉ held)
    (hothers : ∀ j, j ≠ i → ∀ held rest, s.phases j = .running held rest → calls.lockOf k ∉ held) :
    m.read s.mem k = view k := by
  refine h.still k (fun j held' rest' hj' => ?_)
  by_cases hj : j = i
  · subst hj
    cases hphase.symm.trans hj'
    exact hk
  · exact hothers j hj held' rest' hj'

/-- Nobody else is at the keys of the locks that a call has. -/
theorem Inv.mask_view {held : List R}
    (hi : ∀ held rest, s.phases i ≠ .running held rest) (hheld : (s.phases i).held = held)
    {u : K → V}
    (hu : ∀ k, calls.lockOf k ∈ held → u k = view k) : mask m calls.lockOf held s.mem u = u := by
  funext k
  by_cases hk : calls.lockOf k ∈ held
  · rw [mask_held hk, hu k hk]
    refine h.still_of_not_running hi (fun j hj held' rest hj' hin => ?_)
    exact h.apart i j (Ne.symm hj) (calls.lockOf k) (hheld ▸ hk) (by rw [hj']; exact hin)
  · exact mask_free hk _ _

end

section Halfway
variable {lockOf : K → R} {expects : K → V → Prop} {held : List R} {body : Prog K V W ρ} {key : K}

theorem Halfway.get {next : V → Prog K V W ρ}
    (h : Halfway m written lockOf expects mem view held body (.get key next))
    (hkey : lockOf key ∈ held) (hexpected : expects key (m.read mem key)) :
    Halfway m written lockOf expects mem view held body (next (m.read mem key)) := by
  intro u hu
  obtain ⟨hrun, hsound⟩ := h u hu
  have hread : mask m lockOf held mem u key = m.read mem key := mask_held hkey _ _
  rw [Prog.run, hread] at hrun
  rw [Prog.Sound, hread] at hsound
  exact ⟨hrun, fun hrest => hsound ⟨hexpected, hrest⟩⟩

theorem Halfway.put {value : W} {next : Prog K V W ρ}
    (h : Halfway m written lockOf expects mem view held body (.put key value next))
    (hkey : lockOf key ∈ held) (hwritten : m.read (m.write mem key value) key = written value) :
    Halfway m written lockOf expects (m.write mem key value) view held body next := by
  intro u hu
  have hmask : mask m lockOf held (m.write mem key value) u =
      update (mask m lockOf held mem u) key (written value) := by
    funext k
    by_cases hk : k = key
    · subst hk
      rw [mask_held hkey, hwritten, update_self]
    · rw [update_of_ne hk]
      by_cases hlock : lockOf k ∈ held
      · rw [mask_held hlock, mask_held hlock, m.read_write_of_ne _ _ hk]
      · rw [mask_free hlock, mask_free hlock]
  rw [hmask]
  exact h u hu

end Halfway

section
variable (h : Inv m written calls expected s view events)
include h

/-- A move that neither touches the memory nor ends a body leaves the order as it is. -/
theorem Inv.quiet (hrunning : ∀ held rest, s.phases i ≠ .running held rest)
    (hheld : ∀ lock ∈ phase.held, lock ∈ (s.phases i).held ∨ ∀ j, j ≠ i → lock ∉ (s.phases j).held)
    (hnew : Knows m written calls expected s.mem view events i phase)
    (hdone : ∀ e ∈ events, e.call = i → ∃ held, phase = .releasing held e.result) :
    Inv m written calls expected ⟨s.mem, update s.phases i phase⟩ view events :=
  h.moved hheld (fun _ _ => rfl) (fun _ _ => rfl)
    (fun _ _ hothers => h.still_of_not_running hrunning hothers) hnew (fun _ he => he)
    (fun _ he => .inl he) hdone h.once

variable {held todo : List R} {lock : R}

theorem Inv.acquire (hphase : s.phases i = .acquiring held (lock :: todo))
    (hfree : ∀ j, j ≠ i → lock ∉ (s.phases j).held) : Inv m written calls expected
      ⟨s.mem, update s.phases i (.acquiring (lock :: held) todo)⟩ view events := by
  have hknows := h.knows i
  rw [hphase] at hknows
  refine h.quiet (by simp [hphase]) (fun l hl => ?_) ⟨fun l hl => ?_, hknows.2⟩
    (fun e he hcall => absurd hcall (hknows.2 e he))
  · rw [hphase]
    rcases mem_cons.mp hl with rfl | hin
    · exact .inr hfree
    · exact .inl hin
  · rcases hknows.1 l hl with hin | hin
    · exact .inl (mem_cons_of_mem _ hin)
    · rcases mem_cons.mp hin with rfl | hin
      · exact .inl mem_cons_self
      · exact .inr hin

theorem Inv.skip (hphase : s.phases i = .acquiring held (lock :: todo)) (hheld : lock ∈ held) :
    Inv m written calls expected ⟨s.mem, update s.phases i (.acquiring held todo)⟩ view
      events := by
  have hknows := h.knows i
  rw [hphase] at hknows
  refine h.quiet (by simp [hphase]) (fun l hl => ?_) ⟨fun l hl => ?_, hknows.2⟩
    (fun e he hcall => absurd hcall (hknows.2 e he))
  · rw [hphase]
    exact .inl hl
  · rcases hknows.1 l hl with hin | hin
    · exact .inl hin
    · rcases mem_cons.mp hin with rfl | hin
      · exact .inl hheld
      · exact .inr hin

theorem Inv.enter (hcovered : (calls.body i).Covered (fun k => calls.lockOf k ∈ calls.locks i))
    (hphase : s.phases i = .acquiring held []) : Inv m written calls expected
      ⟨s.mem, update s.phases i (.running held (calls.body i))⟩ view events := by
  have hknows := h.knows i
  rw [hphase] at hknows
  refine h.quiet (by simp [hphase]) (fun l hl => ?_) ⟨?_, fun u hu => ?_, hknows.2⟩
    (fun e he hcall => absurd hcall (hknows.2 e he))
  · rw [hphase]
    exact .inl hl
  · refine hcovered.mono (fun k hk => ?_)
    rcases hknows.1 _ hk with hin | hin
    · exact hin
    · cases hin
  · -- the body has done nothing yet
    rw [h.mask_view (i := i) (by simp [hphase]) (by rw [hphase]; rfl) hu]
    exact ⟨rfl, fun hsound => hsound⟩

variable {key : K}

theorem Inv.get {next : V → Prog K V W ρ} (hphase : s.phases i = .running held (.get key next))
    (hexpected : expected i key (m.read s.mem key)) : Inv m written calls expected
      ⟨s.mem, update s.phases i (.running held (next (m.read s.mem key)))⟩ view events := by
  have hknows := h.knows i
  rw [hphase] at hknows
  obtain ⟨hcov, hhalf, hno⟩ := hknows
  refine h.moved (fun l hl => ?_) (fun _ _ => rfl) (fun _ _ => rfl) (fun k hk hothers => ?_)
    ⟨hcov.2 _, hhalf.get hcov.1 hexpected, hno⟩ (fun _ he => he) (fun _ he => .inl he)
    (fun e he hcall => absurd hcall (hno e he)) h.once
  · rw [hphase]
    exact .inl hl
  · exact h.still_of_running hphase (hk held _ rfl) hothers

theorem Inv.put {value : W} {next : Prog K V W ρ}
    (hphase : s.phases i = .running held (.put key value next))
    (hwritten : m.read (m.write s.mem key value) key = written value) :
    Inv m written calls expected
      ⟨m.write s.mem key value, update s.phases i (.running held next)⟩ view events := by
  have hknows := h.knows i
  rw [hphase] at hknows
  obtain ⟨hcov, hhalf, hno⟩ := hknows
  refine h.moved (fun l hl => ?_) (fun k hk => ?_) (fun _ _ => rfl) (fun k hk hothers => ?_)
    ⟨hcov.2, hhalf.put hcov.1 hwritten, hno⟩ (fun _ he => he) (fun _ he => .inl he)
    (fun e he hcall => absurd hcall (hno e he)) h.once
  · rw [hphase]
    exact .inl hl
  · -- the key is one of the call's own
    refine m.read_write_of_ne _ _ ?_
    rintro rfl
    rw [hphase] at hk
    exact hk hcov.1
  · -- no other body is at the key
    have hne : k ≠ key := by
      rintro rfl
      exact hk held next rfl hcov.1
    rw [m.read_write_of_ne _ _ hne]
    exact h.still_of_running hphase (hk held _ rfl) hothers

variable {result : ρ}

/-- A body that comes to its end joins the order, and the view has its keys as it left them. -/
theorem Inv.finish (hphase : s.phases i = .running held (.ret result)) :
    (calls.body i).run written view = some (result, mask m calls.lockOf held s.mem view) ∧
      (calls.body i).Sound written (expected i) view ∧
      Inv m written calls expected ⟨s.mem, update s.phases i (.releasing held result)⟩
        (mask m calls.lockOf held s.mem view)
        (events ++ [⟨i, result, view, mask m calls.lockOf held s.mem view⟩]) := by
  have hknows := h.knows i
  rw [hphase] at hknows
  obtain ⟨-, hhalf, hno⟩ := hknows
  obtain ⟨hrun, hsound⟩ := hhalf view (fun _ _ => rfl)
  refine ⟨hrun.symm, hsound trivial, h.moved (fun l hl => ?_) (fun _ _ => rfl)
    (fun k hk => ?_) (fun k _ hothers => ?_) ⟨_, mem_append_right _ (mem_singleton_self _), rfl, rfl⟩
    (fun _ he => mem_append_left _ he) (fun e he => ?_) (fun e he hcall => ?_) ?_⟩
  · rw [hphase]
    exact .inl hl
  · rw [hphase] at hk
    exact mask_free hk _ _
  · by_cases hk : calls.lockOf k ∈ held
    · exact (mask_held hk _ _).symm
    · rw [mask_free hk]
      exact h.still_of_running hphase hk hothers
  · rcases mem_append.mp he with hin | hin
    · exact .inl hin
    · obtain rfl := mem_singleton.mp hin
      exact .inr rfl
  · rcases mem_append.mp he with hin | hin
    · exact absurd hcall (hno e hin)
    · obtain rfl := mem_singleton.mp hin
      exact ⟨held, rfl⟩
  · -- a call ends once
    rw [map_append, nodup_append]
    refine ⟨h.once, nodup_singleton _, ?_⟩
    rintro a ha b hb rfl
    obtain ⟨e, he, rfl⟩ := mem_map.mp ha
    exact hno e he (mem_singleton.mp hb)

theorem Inv.release (hphase : s.phases i = .releasing (lock :: held) result) :
    Inv m written calls expected ⟨s.mem, update s.phases i (.releasing held result)⟩ view
      events := by
  have hknows := h.knows i
  rw [hphase] at hknows
  refine h.quiet (by simp [hphase]) (fun l hl => ?_) hknows (fun e he hcall => ?_)
  · rw [hphase]
    exact .inl (mem_cons_of_mem _ hl)
  · obtain ⟨held, hdone⟩ := h.done e he
    rw [hcall, hphase] at hdone
    obtain ⟨-, rfl⟩ := Phase.releasing.inj hdone
    exact ⟨_, rfl⟩

end

/-- **What a step keeps.** -/
theorem Inv.step (hcovered : ∀ i, (calls.body i).Covered (fun k => calls.lockOf k ∈ calls.locks i))
    (hwrites : ∀ mem k value, writable mem k value → m.read (m.write mem k value) k = written value)
    (h : Inv m written calls expected s view events)
    (hserial : Serial written calls expected view₀ events view)
    (hmeets : Meets m expected writable s i) (hstep : Step m calls i s s') :
    ∃ view' events', Serial written calls expected view₀ events' view' ∧
      Inv m written calls expected s' view' events' := by
  obtain ⟨-, hmove⟩ := hstep
  rename_i mem' phase
  rw [Meets] at hmeets
  generalize hphase : s.phases i = old at hmove hmeets
  cases hmove with
  | acquire hnew hfree => exact ⟨view, events, hserial, h.acquire hphase hfree⟩
  | skip hheld => exact ⟨view, events, hserial, h.skip hphase hheld⟩
  | enter => exact ⟨view, events, hserial, h.enter (hcovered i) hphase⟩
  | get => exact ⟨view, events, hserial, h.get hphase hmeets⟩
  | put => exact ⟨view, events, hserial, h.put hphase (hwrites _ _ _ hmeets)⟩
  | finish =>
    obtain ⟨hrun, hsound, hinv⟩ := h.finish hphase
    exact ⟨_, _, hserial.snoc hrun hsound, hinv⟩
  | release => exact ⟨view, events, hserial, h.release hphase⟩

/-- **A run is serial**: it leaves what the bodies leave that have come to their end, one
after the other, at every key that no body is at. -/
theorem Run.serial (hcovered : ∀ i, (calls.body i).Covered (fun k => calls.lockOf k ∈ calls.locks i))
    (hwrites : ∀ mem k value, writable mem k value → m.read (m.write mem k value) k = written value)
    (hrun : Run m calls (Meets m expected writable) (State.start mem calls) s) :
    ∃ view events, Serial written calls expected (m.read mem) events view ∧
      Inv m written calls expected s view events := by
  induction hrun with
  | nil => exact ⟨_, [], .nil, Inv.start mem⟩
  | snoc _ hmeets hstep ih =>
    obtain ⟨view, events, hserial, hinv⟩ := ih
    exact hinv.step hcovered hwrites hserial hmeets hstep

/-- A body that has come to a trap traps on its own. -/
theorem Inv.trapped (h : Inv m written calls expected s view events) {held : List R}
    (hphase : s.phases i = .running held .trap) :
    (calls.body i).run written view = none ∧ (calls.body i).Sound written (expected i) view := by
  have hknows := h.knows i
  rw [hphase] at hknows
  obtain ⟨hrun, hsound⟩ := hknows.2.1 view (fun _ _ => rfl)
  exact ⟨hrun.symm, hsound trivial⟩

end Invariant

/-! ## A call on its own -/

namespace Prog

/-- The body on a memory, whatever becomes of its writes. -/
def exec (m : KeyMemory σ K V W) : Prog K V W ρ → σ → Option (ρ × σ)
  | ret result, mem => some (result, mem)
  | trap, _ => none
  | get key next, mem => (next (m.read mem key)).exec m mem
  | put key value next, mem => next.exec m (m.write mem key value)

/-- What the body reads is as expected, and what it writes can be written. -/
def Allowed (m : KeyMemory σ K V W) (expected : K → V → Prop) (writable : σ → K → W → Prop) :
    Prog K V W ρ → σ → Prop
  | ret _, _ | trap, _ => True
  | get key next, mem =>
      expected key (m.read mem key) ∧ (next (m.read mem key)).Allowed m expected writable mem
  | put key value next, mem =>
      writable mem key value ∧ next.Allowed m expected writable (m.write mem key value)

theorem allowed_true (m : KeyMemory σ K V W) (body : Prog K V W ρ) (mem : σ) :
    body.Allowed m (fun _ _ => True) (fun _ _ _ => True) mem := by
  induction body generalizing mem with
  | ret result => trivial
  | trap => trivial
  | get key next ih => exact ⟨trivial, ih _ mem⟩
  | put key value next ih => exact ⟨trivial, ih _⟩

/-- Where every write happens, the body leaves what it leaves on its own. -/
theorem run_of_allowed [DecidableEq K] {m : KeyMemory σ K V W} {written : W → V}
    {expected : K → V → Prop} {writable : σ → K → W → Prop}
    (hwritten : ∀ mem key value, writable mem key value → m.read (m.write mem key value) key = written value)
    {body : Prog K V W ρ} {mem : σ} (hallowed : body.Allowed m expected writable mem) :
    body.run written (m.read mem) = (body.exec m mem).map (fun (result, mem') => (result, m.read mem')) := by
  induction body generalizing mem with
  | ret result => rfl
  | trap => rfl
  | get key next ih => exact ih _ hallowed.2
  | put key value next ih =>
    have hread : update (m.read mem) key (written value) = m.read (m.write mem key value) := by
      funext k
      by_cases hk : k = key
      · rw [hk, update_self, hwritten mem key value hallowed.1]
      · rw [update_of_ne hk, m.read_write_of_ne mem value hk]
    rw [run, hread, exec]
    exact ih hallowed.2

end Prog

section Alone
variable {m : KeyMemory σ K V W} {calls : Calls n K V W ρ R} {expected : Fin n → K → V → Prop}
  {writable : σ → K → W → Prop} {mem mem' : σ} {s₀ : State n σ K V W ρ R} {i : Fin n}
  {phases : Fin n → Phase K V W ρ R}

/-- The other calls hold no lock, and none of them has trapped. -/
def OthersIdle (phases : Fin n → Phase K V W ρ R) (i : Fin n) : Prop :=
  ∀ j, j ≠ i → (phases j).held = [] ∧ phases j ≠ .running [] .trap

section
variable (hidle : OthersIdle phases i)
include hidle

/-- A call whose others are idle finds every lock free. -/
theorem Step.alone {phase phase' : Phase K V W ρ R}
    (hmove : Move m mem (calls.body i) (fun _ => True) phase mem' phase') :
    Step m calls i ⟨mem, update phases i phase⟩ ⟨mem', update phases i phase'⟩ := by
  rw [← update_idem (f := phases) (a := i) phase phase']
  refine Step.move (s := ⟨mem, update phases i phase⟩) ?_ ?_
  · rintro ⟨j, held, htrap⟩
    dsimp only at htrap
    by_cases hj : j = i
    · subst hj
      rw [update_self] at htrap
      cases htrap
      cases hmove
    · rw [update_of_ne hj] at htrap
      obtain ⟨hheld, hne⟩ := hidle j hj
      rw [htrap] at hheld
      cases hheld
      exact hne htrap
  · have hfree : ∀ lock j, j ≠ i → lock ∉ (update phases i phase j).held := by
      intro lock j hj
      rw [update_of_ne hj, (hidle j hj).1]
      exact not_mem_nil
    dsimp only
    rw [update_self]
    cases hmove with
    | acquire hnew _ => exact .acquire hnew (hfree _)
    | skip hheld => exact .skip hheld
    | enter => exact .enter
    | get => exact .get
    | put => exact .put
    | finish => exact .finish
    | release => exact .release

theorem Run.alone_step {phase phase' : Phase K V W ρ R}
    (hrun : Run m calls (Meets m expected writable) s₀ ⟨mem, update phases i phase⟩)
    (hmeets : Meets m expected writable ⟨mem, fun _ => phase⟩ i)
    (hmove : Move m mem (calls.body i) (fun _ => True) phase mem' phase') :
    Run m calls (Meets m expected writable) s₀ ⟨mem', update phases i phase'⟩ := by
  refine hrun.snoc ?_ (.alone hidle hmove)
  rw [Meets]
  dsimp only
  rw [update_self]
  exact hmeets

theorem Run.alone_acquire {held todo : List R}
    (hrun : Run m calls (Meets m expected writable) s₀ ⟨mem, update phases i (.acquiring held todo)⟩) :
    ∃ held', Run m calls (Meets m expected writable) s₀
      ⟨mem, update phases i (.running held' (calls.body i))⟩ := by
  induction todo generalizing held with
  | nil => exact ⟨held, hrun.alone_step hidle trivial .enter⟩
  | cons lock todo ih =>
    by_cases hheld : lock ∈ held
    · exact ih (hrun.alone_step hidle trivial (.skip hheld))
    · exact ih (hrun.alone_step hidle trivial (.acquire hheld trivial))

theorem Run.alone_body {held : List R} {body : Prog K V W ρ}
    (hrun : Run m calls (Meets m expected writable) s₀ ⟨mem, update phases i (.running held body)⟩)
    (hallowed : body.Allowed m (expected i) writable mem) :
    match body.exec m mem with
    | some (result, mem') => Run m calls (Meets m expected writable) s₀
        ⟨mem', update phases i (.running held (.ret result))⟩
    | none => ∃ mem', Run m calls (Meets m expected writable) s₀
        ⟨mem', update phases i (.running held .trap)⟩ := by
  induction body generalizing mem with
  | ret result => exact hrun
  | trap => exact ⟨mem, hrun⟩
  | get key next ih => exact ih _ (hrun.alone_step hidle hallowed.1 .get) hallowed.2
  | put key value next ih => exact ih (hrun.alone_step hidle hallowed.1 .put) hallowed.2

theorem Run.alone_release {held : List R} {result : ρ}
    (hrun : Run m calls (Meets m expected writable) s₀
      ⟨mem, update phases i (.releasing held result)⟩) :
    Run m calls (Meets m expected writable) s₀ ⟨mem, update phases i (.releasing [] result)⟩ := by
  induction held with
  | nil => exact hrun
  | cons lock held ih => exact ih (hrun.alone_step hidle trivial .release)

variable (hrun : Run m calls (Meets m expected writable) s₀ ⟨mem, phases⟩)
  (hstart : phases i = .acquiring [] (calls.locks i))
  (hallowed : (calls.body i).Allowed m (expected i) writable mem)
include hrun hstart hallowed

/-- A call that nobody disturbs comes to its end. -/
theorem Run.alone {result : ρ} (hexec : (calls.body i).exec m mem = some (result, mem')) :
    Run m calls (Meets m expected writable) s₀
      ⟨mem', update phases i (.releasing [] result)⟩ := by
  rw [← update_eq_self i phases, hstart] at hrun
  obtain ⟨held, hrunning⟩ := hrun.alone_acquire hidle
  have hbody := hrunning.alone_body hidle hallowed
  rw [hexec] at hbody
  exact (hbody.alone_step hidle trivial .finish).alone_release hidle

/-- Or to its trap. -/
theorem Run.alone_trap (hexec : (calls.body i).exec m mem = none) :
    ∃ s, Run m calls (Meets m expected writable) s₀ s ∧ s.Halted := by
  rw [← update_eq_self i phases, hstart] at hrun
  obtain ⟨held, hrunning⟩ := hrun.alone_acquire hidle
  have hbody := hrunning.alone_body hidle hallowed
  rw [hexec] at hbody
  obtain ⟨mem', htrap⟩ := hbody
  exact ⟨_, htrap, i, held, update_self ..⟩

end

/-- The one call of a run has no others. -/
theorem OthersIdle.solo (phases : Fin 1 → Phase K V W ρ R) : OthersIdle phases 0 :=
  fun j hj => absurd (Subsingleton.elim j 0) hj

theorem update_solo (phases : Fin 1 → Phase K V W ρ R) (phase : Phase K V W ρ R) :
    update phases 0 phase = fun _ => phase := by
  funext j
  rw [Subsingleton.elim j 0, update_self]

end Alone

end LockedCalls
