import WormDB.ByteReader

/-! # Arithmetic that stops instead of going wrong

A program with safety checks stops when an addition leaves its type, a subtraction
goes below zero, a cast loses a digit, a shift is as wide as its operand, a divisor
is zero or an index lies outside a list.  Here each of these operations is a partial
one, and a computation in `Option` that is `some` has met none of them.

`Follows` compares such a computation, which may also fail in the ordinary way, with
one over unbounded numbers: it does not stop, and it ends as the other one does.  A
failure that only the machine knows of, such as a lack of memory, is an `escape`. -/
namespace Checked
open ByteCodec

/-! ## The operations -/

def add (bits a b : Nat) : Option Nat := if a + b < 2 ^ bits then some (a + b) else none

def sub (a b : Nat) : Option Nat := if b ≤ a then some (a - b) else none

def mul (bits a b : Nat) : Option Nat := if a * b < 2 ^ bits then some (a * b) else none

def div (a b : Nat) : Option Nat := if b = 0 then none else some (a / b)

def cast (bits a : Nat) : Option Nat := if a < 2 ^ bits then some a else none

/-- The digits that leave the type are lost; only the amount is checked. -/
def shl (bits a amount : Nat) : Option Nat :=
  if amount < bits then some (a * 2 ^ amount % 2 ^ bits) else none

variable {α β γ δ ε : Type}

def get (xs : List α) (i : Nat) : Option α := xs[i]?

/-- `xs[start .. stop]` -/
def slice (xs : List α) (start stop : Nat) : Option (List α) :=
  if start ≤ stop ∧ stop ≤ xs.length then some ((xs.drop start).take (stop - start)) else none

section
variable {bits a b : Nat}

theorem add_eq (h : a + b < 2 ^ bits) : add bits a b = some (a + b) := if_pos h

theorem sub_eq (h : b ≤ a) : sub a b = some (a - b) := if_pos h

theorem mul_eq (h : a * b < 2 ^ bits) : mul bits a b = some (a * b) := if_pos h

theorem div_eq (h : b ≠ 0) : div a b = some (a / b) := if_neg h

theorem cast_eq (h : a < 2 ^ bits) : cast bits a = some a := if_pos h

theorem shl_one_eq (h : a < bits) : shl bits 1 a = some (2 ^ a) := by
  rw [shl, if_pos h, one_mul, Nat.mod_eq_of_lt (Nat.pow_lt_pow_right Nat.one_lt_two h)]

variable {xs : List α}

theorem slice_eq (hab : a ≤ b) (hb : b ≤ xs.length) :
    slice xs a b = some ((xs.drop a).take (b - a)) := if_pos ⟨hab, hb⟩

variable {bytes rest : Bytes} {pos : Nat}

open ByteReader in
theorem get_at {c : UInt8} (h : At bytes pos (c :: rest)) :
    get bytes pos = some c := h.getElem?

open ByteReader in
theorem slice_at {xs : Bytes} (h : At bytes pos (xs ++ rest)) :
    slice bytes pos (pos + xs.length) = some xs := by
  have hlen := h.length_eq
  rw [List.length_append] at hlen
  rw [slice_eq (by omega) (by omega), Nat.add_sub_cancel_left]
  exact congrArg some h.slice_eq

theorem slice_zero_eq (hb : b ≤ xs.length) : slice xs 0 b = some (xs.take b) :=
  slice_eq (Nat.zero_le b) hb

end

/-! ## Following a computation over unbounded numbers -/

/-- `x` meets no stop, and ends as `y` does up to `R`, or in an `escape`. -/
inductive Follows (escape : ε → Prop) (R : α → β → Prop) :
    ExceptT ε Option α → Except ε β → Prop where
  | ok {a : α} {b : β} (h : R a b) : Follows escape R (ExceptT.mk (some (.ok a))) (.ok b)
  | error (e : ε) : Follows escape R (ExceptT.mk (some (.error e))) (.error e)
  | escape {e : ε} (h : escape e) (y : Except ε β) :
      Follows escape R (ExceptT.mk (some (.error e))) y

namespace Follows

variable {escape : ε → Prop} {R : α → β → Prop} {S : γ → δ → Prop}

variable {x : ExceptT ε Option α} {y : Except ε β} {f : α → ExceptT ε Option γ}

theorem bind {g : β → Except ε δ} (hx : Follows escape R x y)
    (hf : ∀ a b, R a b → Follows escape S (f a) (g b)) : Follows escape S (x >>= f) (y >>= g) := by
  cases hx with
  | ok h => exact hf _ _ h
  | error e => exact .error e
  | escape h => exact .escape h _

/-- A step of arithmetic that stays in its type is not seen from outside. -/
theorem lift_bind {x : Option α} {a : α} {y : Except ε δ}
    (hx : x = some a) (hf : Follows escape S (f a) y) :
    Follows escape S ((liftM x : ExceptT ε Option α) >>= f) y := by
  subst hx
  exact hf

/-- A test both make. -/
theorem ite {p : Prop} [Decidable p] {x' : ExceptT ε Option α} {y' : Except ε β}
    (hp : p → Follows escape R x y) (hn : ¬p → Follows escape R x' y') :
    Follows escape R (if p then x else x') (if p then y else y') := by
  by_cases h : p
  · rw [if_pos h, if_pos h]
    exact hp h
  · rw [if_neg h, if_neg h]
    exact hn h

/-- A followed computation ends. -/
theorem ends {y : Except ε α} (h : Follows escape Eq x y) :
    x.run = some y ∨ ∃ e, x.run = some (.error e) ∧ escape e := by
  cases h with
  | ok h => rw [h]; exact .inl rfl
  | error e => exact .inl rfl
  | escape h => exact .inr ⟨_, rfl, h⟩

end Follows

/-! ## Reading at a position -/

/-- The same item, and the position at which the rest begins. -/
def AtRest (bytes : Bytes) (r : α × Nat) (s : α × Bytes) : Prop :=
  r.1 = s.1 ∧ ByteReader.At bytes r.2 s.2

/-- `count` items one after the other. -/
def readItems (readItem : Nat → ExceptT ε Option (α × Nat)) :
    Nat → Nat → ExceptT ε Option (List α × Nat)
  | 0, pos => pure ([], pos)
  | count + 1, pos => do
      let (item, pos) ← readItem pos
      let (items, pos) ← readItems readItem count pos
      return (item :: items, pos)

theorem readItems_follows {escape : ε → Prop} {bytes : Bytes}
    {readItem : Nat → ExceptT ε Option (α × Nat)} {modelItem : Bytes → Except ε (α × Bytes)}
    (hitem : ∀ pos rest, ByteReader.At bytes pos rest →
      Follows escape (AtRest bytes) (readItem pos) (modelItem rest))
    (count : Nat) {pos : Nat} {rest : Bytes} (h : ByteReader.At bytes pos rest) :
    Follows escape (AtRest bytes) (readItems readItem count pos)
      (ByteReader.readItems modelItem count rest) := by
  induction count generalizing pos rest with
  | zero => exact .ok ⟨rfl, h⟩
  | succ count ih =>
    refine (hitem pos rest h).bind ?_
    rintro ⟨item, pos⟩ ⟨_, rest⟩ ⟨rfl, hat⟩
    refine (ih hat).bind ?_
    rintro ⟨items, pos⟩ ⟨_, rest⟩ ⟨rfl, hat⟩
    exact .ok ⟨rfl, hat⟩

end Checked
