import Mathlib.Logic.Relation

/-! # Loops with a bound on their steps

A loop of a program, as a step function and a number of steps.  `iterate` has no result
where a step stops, and none where the steps do not suffice; `iterate_post` is the rule for
showing that it has one, and `iterate_of_steps` says which. -/
namespace BoundedLoop

variable {σ β : Type}

/-- A step leads on, or ends the loop with a result. -/
def iterate (step : σ → Option (σ ⊕ β)) : Nat → σ → Option β
  | 0, _ => none
  | fuel + 1, s =>
      match step s with
      | none => none
      | some (.inl s') => iterate step fuel s'
      | some (.inr b) => some b

/-- Steps that lead on. -/
def Steps (step : σ → Option (σ ⊕ β)) : σ → σ → Prop :=
  Relation.ReflTransGen fun s s' => step s = some (.inl s')

variable {step : σ → Option (σ ⊕ β)} {s s' s'' : σ} {b : β} {fuel : Nat}

theorem iterate_next (h : step s = some (.inl s')) :
    iterate step (fuel + 1) s = iterate step fuel s' := by
  rw [iterate, h]

theorem iterate_done (h : step s = some (.inr b)) : iterate step (fuel + 1) s = some b := by
  rw [iterate, h]

theorem Steps.refl (s : σ) : Steps step s s := Relation.ReflTransGen.refl

theorem Steps.one (h : step s = some (.inl s')) : Steps step s s' := Relation.ReflTransGen.single h

theorem Steps.trans (h : Steps step s s') (h' : Steps step s' s'') : Steps step s s'' :=
  Relation.ReflTransGen.trans h h'

theorem Steps.head (h : step s = some (.inl s')) (h' : Steps step s' s'') : Steps step s s'' :=
  Relation.ReflTransGen.head h h'

/-- **The rule for loops**: an invariant, a measure that each step lowers, and what holds of
the result. -/
theorem iterate_post (Inv : σ → Prop) (measure : σ → Nat) (Post : β → Prop)
    (hstep : ∀ s, Inv s → (∃ s', step s = some (.inl s') ∧ Inv s' ∧ measure s' < measure s) ∨
      ∃ b, step s = some (.inr b) ∧ Post b)
    (hs : Inv s) (hfuel : measure s < fuel) : ∃ b, iterate step fuel s = some b ∧ Post b := by
  induction fuel generalizing s with
  | zero => exact absurd hfuel (Nat.not_lt_zero _)
  | succ fuel ih =>
    rcases hstep s hs with ⟨s', hnext, hinv, hlt⟩ | ⟨b, hdone, hpost⟩
    · rw [iterate_next hnext]
      exact ih hinv (by omega)
    · exact ⟨b, iterate_done hdone, hpost⟩

/-- Where a loop has a result, it is the one that its steps lead to. -/
theorem iterate_of_steps (hsteps : Steps step s s') (hdone : step s' = some (.inr b))
    (hend : ∃ b', iterate step fuel s = some b') : iterate step fuel s = some b := by
  induction hsteps using Relation.ReflTransGen.head_induction_on generalizing fuel with
  | refl =>
    cases fuel with
    | zero =>
      obtain ⟨_, hend⟩ := hend
      cases hend
    | succ fuel => exact iterate_done hdone
  | head hnext _ ih =>
    cases fuel with
    | zero =>
      obtain ⟨_, hend⟩ := hend
      cases hend
    | succ fuel =>
      rw [iterate_next hnext] at hend ⊢
      exact ih hend

end BoundedLoop
