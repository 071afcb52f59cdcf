import Mathlib.Tactic.Common
import Mathlib.Logic.Function.Basic
import Mathlib.Data.Nat.ModEq

/-! # A ring between a producer and a consumer

A ring of `cap` slots with two counters that only grow.  The producer writes the slot of the
tail and then moves the tail; the consumer takes what is in the slot of the head, clears it,
and then moves the head.  Between its two steps either side is seen halfway by the other.

`Holds` says that the ring holds a list: the slots from the head to the tail have its
elements in order.  A slot that is written and not yet published is not part of it, and
neither is one that is cleared and still counted.  Every step of either side keeps it, so
what comes out is what went in, in order. -/
namespace RingQueue
open List

variable {α : Type}

structure SlotRing (α : Type) where
  slots : Nat → Option α
  head : Nat
  tail : Nat

namespace SlotRing

def empty : SlotRing α := ⟨fun _ => none, 0, 0⟩

def write (cap : Nat) (ring : SlotRing α) (x : α) : SlotRing α :=
  { ring with slots := Function.update ring.slots (ring.tail % cap) (some x) }

def publish (ring : SlotRing α) : SlotRing α := { ring with tail := ring.tail + 1 }

/-- What is in the slot of the head. -/
def front (cap : Nat) (ring : SlotRing α) : Option α := ring.slots (ring.head % cap)

def clear (cap : Nat) (ring : SlotRing α) : SlotRing α :=
  { ring with slots := Function.update ring.slots (ring.head % cap) none }

def advance (ring : SlotRing α) : SlotRing α := { ring with head := ring.head + 1 }

end SlotRing

/-- The ring holds `xs`.  `taken` says that the slot of the head is cleared and not yet
passed, `put` what is in the slot of the tail and not yet published. -/
structure Holds (cap : Nat) (ring : SlotRing α) (xs : List α) (taken : Bool) (put : Option α) :
    Prop where
  size : ring.tail = ring.head + taken.toNat + xs.length
  room : ring.tail ≤ ring.head + cap
  slots : ∀ i x, xs[i]? = some x → ring.slots ((ring.head + taken.toNat + i) % cap) = some x
  putRoom : ∀ x, put = some x →
    ring.tail < ring.head + cap ∧ ring.slots (ring.tail % cap) = some x

section
variable {cap : Nat} {ring : SlotRing α} {xs : List α} {x : α} {taken : Bool} {put : Option α}

theorem holds_empty (cap : Nat) : Holds cap (SlotRing.empty : SlotRing α) [] false none where
  size := rfl
  room := Nat.zero_le _
  slots := by simp
  putRoom := by simp

/-- Two places less than a lap apart have different slots. -/
theorem slot_ne {a b : Nat} (hlt : a < b) (hlap : b < a + cap) : a % cap ≠ b % cap := by
  intro heq
  have hdvd : cap ∣ b - a := (Nat.modEq_iff_dvd' (le_of_lt hlt)).mp heq
  have hle := Nat.le_of_dvd (by omega) hdvd
  omega

theorem index_lt {i : Nat} (h : xs[i]? = some x) : i < xs.length :=
  (List.getElem?_eq_some_iff.mp h).1

/-- The producer finds room and writes the slot of the tail. -/
theorem Holds.write (h : Holds cap ring xs taken put) (hroom : ring.tail < ring.head + cap)
    (x : α) : Holds cap (ring.write cap x) xs taken (some x) where
  size := h.size
  room := h.room
  slots := by
    intro i y hy
    have hi := index_lt hy
    have hsize := h.size
    have hne : (ring.head + taken.toNat + i) % cap ≠ ring.tail % cap :=
      slot_ne (by omega) (by omega)
    simp only [SlotRing.write, Function.update_of_ne hne]
    exact h.slots i y hy
  putRoom := by
    intro y hy
    cases hy
    exact ⟨hroom, Function.update_self ..⟩

/-- The producer moves the tail. -/
theorem Holds.publish (h : Holds cap ring xs taken (some x)) :
    Holds cap ring.publish (xs ++ [x]) taken none where
  size := by
    have hsize := h.size
    simp only [SlotRing.publish, length_append, length_singleton]
    omega
  room := (h.putRoom x rfl).1
  slots := by
    intro i y hy
    have hsize := h.size
    have hi := index_lt hy
    simp only [SlotRing.publish]
    by_cases hlast : i < xs.length
    · rw [getElem?_append_left hlast] at hy
      exact h.slots i y hy
    · have hpos : i = xs.length := by
        rw [length_append, length_singleton] at hi
        omega
      subst hpos
      rw [getElem?_append_right (le_refl _), Nat.sub_self] at hy
      obtain rfl : x = y := Option.some.inj hy
      rw [← hsize]
      exact (h.putRoom x rfl).2
  putRoom := by simp

/-- The consumer finds the first element. -/
theorem Holds.front_eq (h : Holds cap ring (x :: xs) false put) : ring.front cap = some x := by
  have hfirst := h.slots 0 x rfl
  exact hfirst

theorem Holds.clear (h : Holds cap ring (x :: xs) false put) :
    Holds cap (ring.clear cap) xs true put where
  size := by
    have hsize := h.size
    simp only [SlotRing.clear, Bool.toNat_true, Bool.toNat_false, length_cons] at hsize ⊢
    omega
  room := h.room
  slots := by
    intro i y hy
    have hi := index_lt hy
    have hsize := h.size
    have hroom := h.room
    simp only [Bool.toNat_false, length_cons] at hsize
    have hne : ring.head % cap ≠ (ring.head + 1 + i) % cap := slot_ne (by omega) (by omega)
    simp only [SlotRing.clear, Bool.toNat_true, Function.update_of_ne (Ne.symm hne)]
    have hnext := h.slots (i + 1) y hy
    rwa [Bool.toNat_false, add_zero, add_comm i 1, ← add_assoc] at hnext
  putRoom := by
    intro y hy
    obtain ⟨hroom, hslot⟩ := h.putRoom y hy
    have hsize := h.size
    simp only [Bool.toNat_false, length_cons] at hsize
    have hne : ring.head % cap ≠ ring.tail % cap := slot_ne (by omega) hroom
    refine ⟨hroom, ?_⟩
    simp only [SlotRing.clear, Function.update_of_ne (Ne.symm hne)]
    exact hslot

/-- The consumer moves the head. -/
theorem Holds.advance (h : Holds cap ring xs true put) : Holds cap ring.advance xs false put where
  size := h.size
  room := by
    have hroom := h.room
    simp only [SlotRing.advance]
    omega
  slots := h.slots
  putRoom := by
    intro y hy
    obtain ⟨hroom, hslot⟩ := h.putRoom y hy
    refine ⟨?_, hslot⟩
    simp only [SlotRing.advance]
    omega

/-- A consumer that sees the two counters apart has an element before it. -/
theorem Holds.exists_front (h : Holds cap ring xs false put) {tail : Nat}
    (hseen : tail ≤ ring.tail) (hne : ring.head < tail) : ∃ x ys, xs = x :: ys := by
  have hsize := h.size
  simp only [Bool.toNat_false] at hsize
  cases xs with
  | nil =>
    rw [length_nil] at hsize
    omega
  | cons x ys => exact ⟨x, ys, rfl⟩

end

end RingQueue
