import Mathlib.Tactic.Common
import Mathlib.Data.List.Basic
import Mathlib.Algebra.Group.Nat.Defs

/-! # Fixed-width integers as bytes

The binary formats of a storage engine are concatenations of fixed-width
unsigned integers and byte strings.  This module has the two integer codecs,
little and big endian, over lists of bytes, with what a round trip needs: the
width of an encoding, that decoding undoes encoding below the width's bound, and
that encoding undoes decoding on a string of exactly that width.  A reader that
consumes a byte string from the front is a function of the remaining suffix;
`splitBytes` is its one primitive step. -/
namespace ByteCodec
open List

/-- A byte string. -/
abbrev Bytes := List UInt8

/-- Decides membership in a list of byte strings. -/
instance : LawfulBEq Bytes := inferInstance

/-- `n` in `w` bytes, least significant byte first; higher bits are dropped. -/
def leBytes : Nat → Nat → Bytes
  | 0, _ => []
  | w + 1, n => n.toUInt8 :: leBytes w (n / 256)

/-- The number a byte string denotes, least significant byte first. -/
def leNat : Bytes → Nat
  | [] => 0
  | b :: bs => b.toNat + 256 * leNat bs

/-- `n` in `w` bytes, most significant byte first. -/
def beBytes (w n : Nat) : Bytes := (leBytes w n).reverse

theorem beBytes_one (n : Nat) : beBytes 1 n = [n.toUInt8] := rfl

/-- The number a byte string denotes, most significant byte first. -/
def beNat (bs : Bytes) : Nat := leNat bs.reverse

@[simp] theorem leBytes_length (w n : Nat) : (leBytes w n).length = w := by
  induction w generalizing n with
  | zero => rfl
  | succ w ih => simp [leBytes, ih]

@[simp] theorem beBytes_length (w n : Nat) : (beBytes w n).length = w := by
  simp [beBytes]

theorem toNat_toUInt8 (n : Nat) : n.toUInt8.toNat = n % 256 := by simp

theorem leNat_leBytes (w n : Nat) : leNat (leBytes w n) = n % 256 ^ w := by
  induction w generalizing n with
  | zero => simp [leBytes, leNat, Nat.mod_one]
  | succ w ih =>
    rw [leBytes, leNat, ih, toNat_toUInt8, Nat.pow_succ, mul_comm (256 ^ w), Nat.mod_mul]

variable {w n : Nat}

theorem leNat_leBytes_of_lt (h : n < 256 ^ w) : leNat (leBytes w n) = n := by
  rw [leNat_leBytes, Nat.mod_eq_of_lt h]

theorem leNat_lt (bs : Bytes) : leNat bs < 256 ^ bs.length := by
  induction bs with
  | nil => simp [leNat]
  | cons b bs ih =>
    have hb : b.toNat < 256 := b.toNat_lt
    rw [leNat, length_cons, Nat.pow_succ]
    omega

variable {bs : Bytes} {b : UInt8}

/-- A byte counts with its place value. -/
theorem le_leNat {i : Nat} (h : bs[i]? = some b) : b.toNat * 256 ^ i ≤ leNat bs := by
  induction bs generalizing i with
  | nil => cases h
  | cons a bs ih =>
    rw [leNat]
    cases i with
    | zero =>
      obtain rfl : a = b := Option.some.inj h
      omega
    | succ i =>
      have htail := ih h
      rw [Nat.pow_succ, ← mul_assoc]
      omega

theorem leBytes_leNat (bs : Bytes) : leBytes bs.length (leNat bs) = bs := by
  induction bs with
  | nil => rfl
  | cons b bs ih =>
    have hb : b.toNat < 256 := b.toNat_lt
    have hdiv : (b.toNat + 256 * leNat bs) / 256 = leNat bs := by omega
    have hbyte : (b.toNat + 256 * leNat bs).toUInt8 = b := by
      apply UInt8.toNat_inj.mp
      rw [toNat_toUInt8]
      omega
    rw [length_cons, leNat, leBytes, hdiv, ih, hbyte]

variable {m : Nat}

theorem leBytes_inj (hn : n < 256 ^ w) (hm : m < 256 ^ w)
    (h : leBytes w n = leBytes w m) : n = m := by
  rw [← leNat_leBytes_of_lt hn, ← leNat_leBytes_of_lt hm, h]

theorem beNat_beBytes_of_lt (h : n < 256 ^ w) : beNat (beBytes w n) = n := by
  rw [beNat, beBytes, reverse_reverse, leNat_leBytes_of_lt h]

theorem beBytes_beNat (bs : Bytes) : beBytes bs.length (beNat bs) = bs := by
  rw [beBytes, beNat, ← length_reverse, leBytes_leNat, reverse_reverse]

theorem beNat_lt (bs : Bytes) : beNat bs < 256 ^ bs.length := by
  rw [beNat, ← length_reverse]
  exact leNat_lt _

theorem beBytes_inj (hn : n < 256 ^ w) (hm : m < 256 ^ w) (h : beBytes w n = beBytes w m) : n = m :=
  leBytes_inj hn hm (reverse_injective h)

theorem beBytes_succ (w n : Nat) :
    beBytes (w + 1) n = beBytes w (n / 256) ++ [n.toUInt8] := by
  rw [beBytes, leBytes, reverse_cons, beBytes]

variable {xs : Bytes}

theorem append_lt_append {ys : Bytes} (hlen : xs.length = ys.length) (h : xs < ys)
    (as bs : Bytes) : xs ++ as < ys ++ bs := by
  induction xs generalizing ys with
  | nil =>
    obtain rfl := length_eq_zero_iff.mp hlen.symm
    exact absurd h (List.lt_irrefl _)
  | cons x xs ih =>
    cases ys with
    | nil => cases hlen
    | cons y ys =>
      rw [cons_append, cons_append, cons_lt_cons_iff]
      rcases cons_lt_cons_iff.mp h with hxy | ⟨rfl, htail⟩
      · exact .inl hxy
      · exact .inr ⟨rfl, ih (Nat.succ.inj hlen) htail⟩

/-- Big-endian numbers of one width are in the order of their bytes. -/
theorem beBytes_lt (hm : m < 256 ^ w) (h : n < m) : beBytes w n < beBytes w m := by
  induction w generalizing n m with
  | zero => omega
  | succ w ih =>
    rw [beBytes_succ, beBytes_succ]
    rw [Nat.pow_succ] at hm
    rcases Nat.lt_or_ge (n / 256) (m / 256) with hlt | hge
    · exact append_lt_append (by simp) (ih (by omega) hlt) _ _
    · have heq : n / 256 = m / 256 := by omega
      rw [heq]
      refine append_left_lt (cons_lt_cons_iff.mpr (.inl ?_))
      rw [UInt8.lt_iff_toNat_lt, toNat_toUInt8, toNat_toUInt8]
      omega

/-- All bytes, one by one. -/
theorem forall_uint8 {p : UInt8 → Prop} (h : ∀ n < 256, p (UInt8.ofNat n)) (b : UInt8) : p b := by
  have hb := h b.toNat b.toNat_lt
  rwa [UInt8.ofNat_toNat] at hb

/-- The bytes of an ASCII string literal. -/
def ascii (s : String) : Bytes := s.toList.map (fun c => c.toNat.toUInt8)

/-- A space or a tab. -/
def isBlank (c : UInt8) : Bool := c == 0x20 || c == 0x09

/-! ## Consuming a byte string from the front -/

/-- The first `n` bytes and the rest, or `none` when fewer than `n` remain. -/
def splitBytes (n : Nat) (bs : Bytes) : Option (Bytes × Bytes) :=
  if n ≤ bs.length then some (bs.take n, bs.drop n) else none

theorem splitBytes_append (rest : Bytes) (h : xs.length = n) :
    splitBytes n (xs ++ rest) = some (xs, rest) := by
  subst h
  simp [splitBytes]

variable {rest : Bytes}

theorem splitBytes_eq_some :
    splitBytes n bs = some (xs, rest) ↔ bs = xs ++ rest ∧ xs.length = n := by
  constructor
  · intro h
    unfold splitBytes at h
    split at h
    · cases h
      exact ⟨(take_append_drop n bs).symm, by rw [length_take, Nat.min_eq_left ‹n ≤ bs.length›]⟩
    · contradiction
  · rintro ⟨rfl, h⟩
    exact splitBytes_append rest h

theorem splitBytes_length (h : splitBytes n bs = some (xs, rest)) :
    xs.length = n := (splitBytes_eq_some.mp h).2

theorem splitBytes_eq_none : splitBytes n bs = none ↔ bs.length < n := by
  unfold splitBytes
  split <;> simp <;> omega

/-! ## Fields at fixed positions -/

/-- `len` bytes from `pos` on. -/
def slice (bs : Bytes) (pos len : Nat) : Bytes := (bs.drop pos).take len

variable {pos : Nat}

theorem slice_eq {len : Nat} (pre mid post : Bytes)
    (h : bs = pre ++ (mid ++ post)) (hpos : pre.length = pos) (hlen : mid.length = len) :
    slice bs pos len = mid := by
  subst h hpos hlen
  simp [slice]

theorem getD_eq (pre post : Bytes)
    (h : bs = pre ++ (b :: post)) (hpos : pre.length = pos) : bs.getD pos 0 = b := by
  subst h hpos
  simp [getD_eq_getElem?_getD]

end ByteCodec
