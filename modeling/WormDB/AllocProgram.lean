import Mathlib.Logic.Basic

/-! # Programs that ask for memory

A program over a state makes numbered requests for memory; `memory` says which of them are
granted.  A program that fails leaves the state as it has made it, apart from what an `errdefer`
undoes.  `Triple` has one condition on what a program returns and one on how it fails, and a rule
for each way to build a program. -/

/-- `next` is the number of the next request. -/
structure Outcome (ε σ α : Type) where
  result : Except ε α
  state : σ
  next : Nat

structure AllocM (ε σ α : Type) where
  run : σ → Nat → Outcome ε σ α

namespace AllocM
variable {ε σ τ α β : Type}

instance : Monad (AllocM ε σ) where
  pure a := ⟨fun s n => ⟨.ok a, s, n⟩⟩
  bind x f := ⟨fun s n =>
    match x.run s n with
    | ⟨.ok a, s, n⟩ => (f a).run s n
    | ⟨.error e, s, n⟩ => ⟨.error e, s, n⟩⟩

def get : AllocM ε σ σ := ⟨fun s n => ⟨.ok s, s, n⟩⟩

def modify (f : σ → σ) : AllocM ε σ Unit := ⟨fun s n => ⟨.ok (), f s, n⟩⟩

def throw (e : ε) : AllocM ε σ α := ⟨fun s n => ⟨.error e, s, n⟩⟩

/-- One request; `refused` is the error where it is not granted. -/
def request (memory : Nat → Bool) (refused : ε) : AllocM ε σ Unit :=
  ⟨fun s n => ⟨if memory n then .ok () else .error refused, s, n + 1⟩⟩

def requests (memory : Nat → Bool) (refused : ε) : Nat → AllocM ε σ Unit
  | 0 => pure ()
  | count + 1 => do
      request memory refused
      requests memory refused count

/-- `undo` runs where the program fails. -/
def errdefer (undo : σ → σ) (x : AllocM ε σ α) : AllocM ε σ α :=
  ⟨fun s n =>
    match x.run s n with
    | ⟨.ok a, s, n⟩ => ⟨.ok a, s, n⟩
    | ⟨.error e, s, n⟩ => ⟨.error e, undo s, n⟩⟩

/-- A program over a part of the state. -/
def onPart (read : σ → τ) (write : σ → τ → σ) (x : AllocM ε τ α) : AllocM ε σ α :=
  ⟨fun s n =>
    let part := x.run (read s) n
    ⟨part.result, write s part.state, part.next⟩⟩

/-! ## Memory -/

/-- The requests with the numbers from `n` on, `count` of them, are granted. -/
def Granted (memory : Nat → Bool) (n count : Nat) : Prop := ∀ i < count, memory (n + i) = true

variable {memory : Nat → Bool} {n : Nat}

theorem granted_add {count count' : Nat} : Granted memory n (count + count') ↔
      Granted memory n count ∧ Granted memory (n + count) count' := by
  constructor
  · intro h
    refine ⟨fun i hi => h i (by omega), fun i hi => ?_⟩
    rw [Nat.add_assoc]
    exact h (count + i) (by omega)
  · rintro ⟨hfirst, hrest⟩ i hi
    rcases Nat.lt_or_ge i count with hlt | hge
    · exact hfirst i hlt
    · have hlast := hrest (i - count) (by omega)
      rwa [Nat.add_assoc, Nat.add_sub_cancel' hge] at hlast

theorem granted_one : Granted memory n 1 ↔ memory n = true :=
  ⟨fun h => h 0 Nat.zero_lt_one, fun h _ hi => Nat.lt_one_iff.mp hi ▸ h⟩

/-! ## Conditions -/

/-- What holds where a program has returned, or failed. -/
def Ends (Q : α → σ → Nat → Prop) (E : ε → σ → Prop) : Outcome ε σ α → Prop
  | ⟨.ok a, s, n⟩ => Q a s n
  | ⟨.error e, s, _⟩ => E e s

def Triple (P : σ → Nat → Prop) (x : AllocM ε σ α) (Q : α → σ → Nat → Prop) (E : ε → σ → Prop) :
    Prop :=
  ∀ s n, P s n → Ends Q E (x.run s n)

namespace Triple
variable {P P' : σ → Nat → Prop} {Q Q' : α → σ → Nat → Prop} {R : β → σ → Nat → Prop}
variable {E E' : ε → σ → Prop} {x : AllocM ε σ α}

theorem imp (h : Triple P x Q E) (hP : ∀ s n, P' s n → P s n) (hQ : ∀ a s n, Q a s n → Q' a s n)
    (hE : ∀ e s, E e s → E' e s) : Triple P' x Q' E' := by
  intro s n hs
  have hx := h s n (hP s n hs)
  rcases hrun : x.run s n with ⟨result, s', n'⟩
  rw [hrun] at hx
  cases result with
  | ok a => exact hQ a s' n' hx
  | error e => exact hE e s' hx

variable {a : α}

theorem pure (h : ∀ s n, P s n → Q a s n) : Triple P (Pure.pure a : AllocM ε σ α) Q E :=
  fun s n hs => h s n hs

variable {f : α → AllocM ε σ β}

theorem bind (hx : Triple P x Q E) (hf : ∀ a, Triple (Q a) (f a) R E) : Triple P (x >>= f) R E := by
  intro s n hs
  have hfirst := hx s n hs
  rw [Bind.bind, Monad.toBind, instMonad]
  dsimp only
  rcases hrun : x.run s n with ⟨result, s', n'⟩
  rw [hrun] at hfirst
  cases result with
  | ok a => exact hf a s' n' hfirst
  | error e => exact hfirst

theorem modify {f : σ → σ} {Q : Unit → σ → Nat → Prop} (h : ∀ s n, P s n → Q () (f s) n) :
    Triple P (AllocM.modify f : AllocM ε σ Unit) Q E :=
  fun s n hs => h s n hs

theorem throw {e : ε} (h : ∀ s n, P s n → E e s) : Triple P (AllocM.throw e : AllocM ε σ α) Q E :=
  fun s n hs => h s n hs

/-- A branch may use its condition. -/
theorem ite {p : Prop} [Decidable p] {y : AllocM ε σ α} (hx : p → Triple P x Q E)
    (hy : ¬ p → Triple P y Q E) : Triple P (if p then x else y) Q E := by
  split
  · rename_i hp
    exact hx hp
  · rename_i hp
    exact hy hp

/-- From each state on its own. -/
theorem of_each (h : ∀ s n, P s n → Triple (fun s' n' => s' = s ∧ n' = n) x Q E) : Triple P x Q E :=
  fun s n hs => h s n hs s n ⟨rfl, rfl⟩

theorem bind_get {f : σ → AllocM ε σ β}
    (hf : ∀ s n, P s n → Triple (fun s' n' => s' = s ∧ n' = n) (f s) R E) :
    Triple P (AllocM.get >>= f) R E :=
  fun s n hs => hf s n hs s n ⟨rfl, rfl⟩

/-- What a program returns is known. -/
theorem bind_eq {Q : σ → Nat → Prop}
    (hx : Triple P x (fun a' s n => a' = a ∧ Q s n) E) (hf : Triple Q (f a) R E) :
    Triple P (x >>= f) R E :=
  bind hx fun a' s n h => by
    rw [h.1]
    exact hf s n h.2

theorem errdefer {undo : σ → σ} (h : Triple P x Q fun e s => E e (undo s)) :
    Triple P (AllocM.errdefer undo x) Q E := by
  intro s n hs
  have hx := h s n hs
  rw [AllocM.errdefer]
  dsimp only
  rcases hrun : x.run s n with ⟨result, s', n'⟩
  rw [hrun] at hx
  cases result with
  | ok a => exact hx
  | error e => exact hx

variable {n₀ : Nat}

/-- The rest of the state is as it was. -/
theorem onPart {read : τ → σ} {write : τ → σ → τ} {t : τ}
    (h : Triple (fun s n => s = read t ∧ n = n₀) x Q E) :
    Triple (fun t' n => t' = t ∧ n = n₀) (AllocM.onPart read write x)
      (fun a t' n => ∃ s, t' = write t s ∧ Q a s n) (fun e t' => ∃ s, t' = write t s ∧ E e s) := by
  rintro _ _ ⟨rfl, rfl⟩
  have hx := h _ _ ⟨rfl, rfl⟩
  simp only [AllocM.onPart]
  rcases hrun : x.run _ _ with ⟨result, s', n'⟩
  rw [hrun] at hx
  cases result with
  | ok a => exact ⟨s', rfl, hx⟩
  | error e => exact ⟨s', rfl, hx⟩

/-! ## Loops -/

/-- A loop that computes what a fold does. -/
theorem foldlM {γ : Type} {f : α → γ → AllocM ε σ α} {g : α → γ → α} {P : σ → Nat → Prop}
    (hstep : ∀ a c, Triple P (f a c) (fun a' s n => a' = g a c ∧ P s n) E) (items : List γ) (a : α) :
    Triple P (items.foldlM f a) (fun a' s n => a' = items.foldl g a ∧ P s n) E := by
  induction items generalizing a with
  | nil => exact pure fun _ _ h => ⟨rfl, h⟩
  | cons c rest ih =>
    refine bind (hstep a c) fun a' => ?_
    intro s n hs
    obtain ⟨rfl, hP⟩ := hs
    exact ih (g a c) s n hP

/-! ## Memory -/

variable {memory : Nat → Bool} {refused : ε}

variable {s₀ : σ}

theorem request : Triple (fun s n => s = s₀ ∧ n = n₀) (AllocM.request memory refused)
      (fun _ s n => s = s₀ ∧ n = n₀ + 1 ∧ memory n₀ = true)
      (fun e s => e = refused ∧ s = s₀ ∧ memory n₀ = false) := by
  rintro _ _ ⟨rfl, rfl⟩
  simp only [AllocM.request]
  split
  · rename_i hgranted
    exact ⟨rfl, rfl, hgranted⟩
  · rename_i hrefused
    exact ⟨rfl, rfl, Bool.eq_false_iff.mpr hrefused⟩

theorem requests {count : Nat} :
    Triple (fun s n => s = s₀ ∧ n = n₀) (AllocM.requests memory refused count)
      (fun _ s n => s = s₀ ∧ n = n₀ + count ∧ Granted memory n₀ count)
      (fun e s => e = refused ∧ s = s₀ ∧ ¬ Granted memory n₀ count) := by
  induction count generalizing n₀ with
  | zero => exact pure fun _ _ h => ⟨h.1, h.2, fun _ hi => absurd hi (Nat.not_lt_zero _)⟩
  | succ count ih =>
    have hsplit : Granted memory n₀ (count + 1) ↔ memory n₀ = true ∧ Granted memory (n₀ + 1) count := by
      rw [Nat.add_comm, granted_add, granted_one]
    rw [hsplit]
    refine bind (request.imp (fun _ _ h => h) (fun _ _ _ h => h) fun e s h => ?_) fun _ => ?_
    · exact ⟨h.1, h.2.1, fun hall => Bool.false_ne_true (h.2.2.symm.trans hall.1)⟩
    · rintro _ _ ⟨rfl, rfl, hfirst⟩
      refine (ih.imp (fun _ _ h => h) (fun _ s n h => ?_) fun e s h => ?_) _ _ ⟨rfl, rfl⟩
      · exact ⟨h.1, by omega, hfirst, h.2.2⟩
      · exact ⟨h.1, h.2.1, fun hall => h.2.2 hall.2⟩

end Triple
end AllocM
