/-! # Computations that write down what they do

A computation that may fail and keeps a list of events: what it did before it failed stays
written.  `Records` says of one that its outcome is that of a plain computation, that each
event it writes has a property, and what holds of the value it returns, so that the events
of a chain are bounded along the chain itself. -/
namespace Recorder

/-- The outcome, and the events behind those that were there before. -/
abbrev RecordM (ω ε : Type) := ExceptT ε (StateM (List ω))

variable {ω ε α β : Type}

def record (w : ω) : RecordM ω ε Unit := ExceptT.mk (fun log => (.ok (), log ++ [w]))

/-- The outcome of `x` is `y`, its events are in `p`, and the value of `y` is in `Q`. -/
structure Records (p : ω → Prop) (Q : α → Prop) (x : RecordM ω ε α) (y : Except ε α) : Prop where
  run : ∀ log, ∃ new, x.run.run log = (y, log ++ new) ∧ ∀ w ∈ new, p w
  post : ∀ a, y = .ok a → Q a

namespace Records

variable {p : ω → Prop} {Q : α → Prop} {S : β → Prop}

variable {y : Except ε α}

/-- A plain step writes nothing. -/
theorem lift (hpost : ∀ a, y = .ok a → Q a) :
    Records p Q (liftM y : RecordM ω ε α) y where
  run := by
    intro log
    refine ⟨[], ?_, nofun⟩
    rw [List.append_nil]
    rfl
  post := hpost

theorem pure {a : α} (h : Q a) : Records p Q (Pure.pure a : RecordM ω ε α) (Pure.pure a) where
  run := by
    intro log
    refine ⟨[], ?_, nofun⟩
    rw [List.append_nil]
    rfl
  post := by
    rintro _ ⟨⟩
    exact h

theorem error (e : ε) : Records p Q (throw e : RecordM ω ε α) (.error e) where
  run := by
    intro log
    refine ⟨[], ?_, nofun⟩
    rw [List.append_nil]
    rfl
  post := nofun

variable {x : RecordM ω ε α}

theorem bind {f : α → RecordM ω ε β} {g : α → Except ε β}
    (hx : Records p Q x y) (hf : ∀ a, Q a → Records p S (f a) (g a)) :
    Records p S (x >>= f) (y >>= g) where
  run := by
    intro log
    obtain ⟨new, hrun, hnew⟩ := hx.run log
    cases y with
    | error e =>
      refine ⟨new, ?_, hnew⟩
      rw [ExceptT.run_bind, StateT.run_bind, hrun]
      rfl
    | ok a =>
      obtain ⟨new', hrun', hnew'⟩ := (hf a (hx.post a rfl)).run (log ++ new)
      refine ⟨new ++ new', ?_, ?_⟩
      · rw [ExceptT.run_bind, StateT.run_bind, hrun, ← List.append_assoc]
        exact hrun'
      · intro w hw
        rcases List.mem_append.mp hw with hw | hw
        · exact hnew w hw
        · exact hnew' w hw
  post := by
    intro b hb
    cases y with
    | error e => cases hb
    | ok a => exact (hf a (hx.post a rfl)).post b hb

/-- An event that the plain computation knows nothing of. -/
theorem record_bind {w : ω} {f : Unit → RecordM ω ε β} {y : Except ε β} (hw : p w)
    (hf : Records p S (f ()) y) : Records p S (Recorder.record w >>= f) y where
  run := by
    intro log
    obtain ⟨new, hrun, hnew⟩ := hf.run (log ++ [w])
    refine ⟨w :: new, ?_, List.forall_mem_cons.mpr ⟨hw, hnew⟩⟩
    rw [List.append_cons]
    exact hrun
  post := hf.post

theorem ite {c : Prop} [Decidable c] {x' : RecordM ω ε α} {y' : Except ε α}
    (hc : c → Records p Q x y) (hn : ¬c → Records p Q x' y') :
    Records p Q (if c then x else x') (if c then y else y') := by
  by_cases h : c
  · rw [if_pos h, if_pos h]
    exact hc h
  · rw [if_neg h, if_neg h]
    exact hn h

end Records
end Recorder
