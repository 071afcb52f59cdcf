import WormDB.ByteCodec
import Mathlib.Tactic.IntervalCases

/-! # Integers as decimal text

The text of a signed integer of a fixed width: a sign, then decimal digits.  `formatInt`
prints it and `parseInt` reads it, which also takes a plus sign and underscores between
digits, and refuses a number outside the width as soon as it leaves it.  What is printed is
read back (`parseInt_formatInt`). -/
namespace DecimalText
open List ByteCodec

/-- The integers of `bits` bits in two's complement. -/
def Fits (bits : Nat) (n : Int) : Prop := -2 ^ (bits - 1) ≤ n ∧ n < 2 ^ (bits - 1)

instance (bits : Nat) (n : Int) : Decidable (Fits bits n) := inferInstanceAs (Decidable (_ ∧ _))

def underscore : UInt8 := 95
def plus : UInt8 := 43
def minus : UInt8 := 45

def digitOf (c : UInt8) : Option Nat :=
  if 48 ≤ c.toNat ∧ c.toNat ≤ 57 then some (c.toNat - 48) else none

/-- The digits seen so far are in `acc`; a negative number counts down. -/
def accumulate (bits : Nat) (neg : Bool) : Int → Bytes → Option Int
  | acc, [] => some acc
  | acc, c :: cs =>
      if c = underscore then accumulate bits neg acc cs
      else
        match digitOf c with
        | none => none
        | some d =>
            let next := if neg then acc * 10 - d else acc * 10 + d
            if Fits bits next then accumulate bits neg next cs else none

def parseWithSign (bits : Nat) (neg : Bool) (buf : Bytes) : Option Int :=
  if buf = [] then none
  else if buf.head? = some underscore ∨ buf.getLast? = some underscore then none
  else accumulate bits neg 0 buf

def parseInt (bits : Nat) (buf : Bytes) : Option Int :=
  match buf with
  | [] => none
  | c :: cs =>
      if c = plus then parseWithSign bits false cs
      else if c = minus then parseWithSign bits true cs
      else parseWithSign bits false (c :: cs)

/-- The value of a digit in any base up to 36. -/
def charToDigit (base : Nat) (c : UInt8) : Option Nat :=
  let n := c.toNat
  let value :=
    if 48 ≤ n ∧ n ≤ 57 then some (n - 48)
    else if 65 ≤ n ∧ n ≤ 90 then some (n - 55)
    else if 97 ≤ n ∧ n ≤ 122 then some (n - 87)
    else none
  value.filter (· < base)

def accumulateUnsigned (base bits : Nat) : Nat → Bytes → Option Nat
  | acc, [] => some acc
  | acc, c :: cs =>
      if c = underscore then accumulateUnsigned base bits acc cs
      else
        match charToDigit base c with
        | none => none
        | some d =>
            if acc * base + d < 2 ^ bits then accumulateUnsigned base bits (acc * base + d) cs
            else none

/-- An unsigned number of `bits` bits; no sign is taken. -/
def parseUnsigned (base bits : Nat) (buf : Bytes) : Option Nat :=
  if buf = [] then none
  else if buf.head? = some underscore ∨ buf.getLast? = some underscore then none
  else accumulateUnsigned base bits 0 buf

def digits (n : Nat) : Bytes := (Nat.toDigits 10 n).map (fun c => c.toNat.toUInt8)

def formatInt (n : Int) : Bytes :=
  if n < 0 then minus :: digits n.natAbs else digits n.natAbs

/-! ## Printed digits -/

theorem digits_ne_nil (n : Nat) : digits n ≠ [] := by
  rw [digits, ne_eq, map_eq_nil_iff]
  exact Nat.toDigits_ne_nil

variable {n : Nat}

theorem digits_length_le {k : Nat} (hk : 0 < k) (h : n < 10 ^ k) : (digits n).length ≤ k := by
  rw [digits, length_map]
  exact (Nat.length_toDigits_le_iff (by decide) hk).mpr h

/-- One digit as a byte. -/
def digitByte (d : Nat) : UInt8 := (48 + d).toUInt8

variable {d : Nat}

theorem digitByte_eq (h : d < 10) : (Nat.digitChar d).toNat.toUInt8 = digitByte d := by
  interval_cases d <;> rfl

theorem digits_of_lt (h : n < 10) : digits n = [digitByte n] := by
  rw [digits, Nat.toDigits_of_lt_base h, map_singleton, digitByte_eq h]

theorem digits_of_le (h : 10 ≤ n) : digits n = digits (n / 10) ++ [digitByte (n % 10)] := by
  have hmod : n % 10 < 10 := Nat.mod_lt _ (by decide)
  rw [digits, Nat.toDigits_of_base_le (by decide) h, map_append, map_singleton,
    digitByte_eq hmod, digits]

theorem digitOf_digitByte (h : d < 10) : digitOf (digitByte d) = some d := by
  interval_cases d <;> rfl

theorem digitByte_ne (h : d < 10) :
    digitByte d ≠ underscore ∧ digitByte d ≠ plus ∧ digitByte d ≠ minus := by
  interval_cases d <;> decide

/-- Every printed byte is a digit. -/
theorem mem_digits {n : Nat} {c : UInt8} (h : c ∈ digits n) : ∃ d < 10, c = digitByte d := by
  induction n using Nat.strongRecOn with
  | _ n ih =>
    by_cases hn : n < 10
    · rw [digits_of_lt hn, mem_singleton] at h
      exact ⟨n, hn, h⟩
    · rw [digits_of_le (le_of_not_gt hn), mem_append, mem_singleton] at h
      rcases h with h | h
      · exact ih (n / 10) (by omega) h
      · exact ⟨n % 10, Nat.mod_lt _ (by decide), h⟩

/-! ## Reading back -/

/-- The number that `n` counts for under the sign. -/
def signed (neg : Bool) (n : Nat) : Int := if neg then -n else n

variable {bits : Nat} {neg : Bool} {acc : Int}

theorem accumulate_digitByte (h : d < 10) (rest : Bytes)
    (hfits : Fits bits (if neg then acc * 10 - d else acc * 10 + d)) :
    accumulate bits neg acc (digitByte d :: rest) =
      accumulate bits neg (if neg then acc * 10 - d else acc * 10 + d) rest := by
  rw [accumulate, if_neg (digitByte_ne h).1, digitOf_digitByte h]
  simp only
  rw [if_pos hfits]

/-- The digits of a number that fits are counted up to it: none of the numbers on the way
is larger. -/
theorem accumulate_digits (rest : Bytes) (hfits : Fits bits (signed neg n)) :
    accumulate bits neg 0 (digits n ++ rest) = accumulate bits neg (signed neg n) rest := by
  induction n using Nat.strongRecOn generalizing rest with
  | _ n ih =>
    by_cases hn : n < 10
    · have hnext : (if neg then (0 : Int) * 10 - n else 0 * 10 + n) = signed neg n := by
        cases neg <;> simp [signed]
      rw [digits_of_lt hn, singleton_append, accumulate_digitByte hn rest (hnext ▸ hfits), hnext]
    · have hmod : n % 10 < 10 := Nat.mod_lt _ (by decide)
      have hnext : (if neg then signed neg (n / 10) * 10 - ↑(n % 10)
          else signed neg (n / 10) * 10 + ↑(n % 10)) = signed neg n := by
        cases neg
        · simp only [signed, Bool.false_eq_true, if_false]
          omega
        · simp only [signed, if_true]
          omega
      have hless : Fits bits (signed neg (n / 10)) := by
        unfold Fits at hfits ⊢
        have hpos : (0 : Int) < 2 ^ (bits - 1) := by positivity
        cases neg
        · simp only [signed, Bool.false_eq_true, if_false] at hfits ⊢
          omega
        · simp only [signed, if_true] at hfits ⊢
          omega
      rw [digits_of_le (le_of_not_gt hn), append_assoc, ih (n / 10) (by omega) _ hless,
        singleton_append, accumulate_digitByte hmod rest (hnext ▸ hfits), hnext]

theorem parseWithSign_digits (hfits : Fits bits (signed neg n)) :
    parseWithSign bits neg (digits n) = some (signed neg n) := by
  have hunderscore : underscore ∉ digits n := by
    intro hmem
    obtain ⟨d, hd, heq⟩ := mem_digits hmem
    exact (digitByte_ne hd).1 heq.symm
  have hends : ¬ ((digits n).head? = some underscore ∨ (digits n).getLast? = some underscore) := by
    rintro (hhead | hlast)
    · exact hunderscore (mem_of_mem_head? hhead)
    · exact hunderscore (mem_of_mem_getLast? hlast)
  have hacc := accumulate_digits [] hfits
  rw [append_nil] at hacc
  rw [parseWithSign, if_neg (digits_ne_nil n), if_neg hends, hacc, accumulate]

/-- **What is printed is read back.** -/
theorem parseInt_formatInt {n : Int} (hfits : Fits bits n) :
    parseInt bits (formatInt n) = some n := by
  by_cases hneg : n < 0
  · have hsigned : signed true n.natAbs = n := by
      rw [signed, if_pos rfl]
      omega
    have hparse : parseWithSign bits true (digits n.natAbs) = some (signed true n.natAbs) :=
      parseWithSign_digits (by rwa [hsigned])
    rw [formatInt, if_pos hneg, parseInt, if_neg (by decide), if_pos rfl, hparse, hsigned]
  · have hsigned : signed false n.natAbs = n := by
      simp only [signed, Bool.false_eq_true, if_false]
      omega
    rw [formatInt, if_neg hneg]
    have hparse : parseWithSign bits false (digits n.natAbs) = some (signed false n.natAbs) :=
      parseWithSign_digits (by rwa [hsigned])
    have hmem := @mem_digits n.natAbs
    cases hdigits : digits n.natAbs with
    | nil => exact absurd hdigits (digits_ne_nil _)
    | cons c cs =>
      rw [hdigits] at hparse hmem
      obtain ⟨d, hd, rfl⟩ := hmem mem_cons_self
      rw [parseInt, if_neg (digitByte_ne hd).2.1, if_neg (digitByte_ne hd).2.2, hparse, hsigned]

/-- **The text of a number is that of no other.** -/
theorem digits_inj {a b : Nat} (h : digits a = digits b) : a = b := by
  have hfits : ∀ n ≤ a + b, Fits (a + b + 2) (n : Int) := by
    intro n hn
    have hpos : (0 : Int) < 2 ^ (a + b + 2 - 1) := Int.pow_pos (by decide)
    have hlt : n < 2 ^ (a + b + 1) :=
      lt_of_le_of_lt (Nat.le_succ_of_le hn) Nat.lt_two_pow_self
    refine ⟨by omega, ?_⟩
    exact_mod_cast hlt
  have hformat : ∀ n : Nat, formatInt (n : Int) = digits n := by
    intro n
    rw [formatInt, if_neg (Int.not_lt.mpr (Int.natCast_nonneg n)), Int.natAbs_natCast]
  have ha := parseInt_formatInt (hfits a (Nat.le_add_right a b))
  have hb := parseInt_formatInt (hfits b (Nat.le_add_left b a))
  rw [hformat, h, ← hformat, hb] at ha
  exact (Int.natCast_inj.mp (Option.some.inj ha)).symm

/-! ## The width -/

variable {buf : Bytes}

theorem accumulate_fits {n : Int}
    (hacc : Fits bits acc) (h : accumulate bits neg acc buf = some n) : Fits bits n := by
  induction buf generalizing acc with
  | nil => exact Option.some.inj h ▸ hacc
  | cons c cs ih =>
    rw [accumulate] at h
    by_cases hc : c = underscore
    · rw [if_pos hc] at h
      exact ih hacc h
    · rw [if_neg hc] at h
      cases hd : digitOf c with
      | none => simp [hd] at h
      | some d =>
        simp only [hd] at h
        by_cases hnext : Fits bits (if neg then acc * 10 - d else acc * 10 + d)
        · rw [if_pos hnext] at h
          exact ih hnext h
        · rw [if_neg hnext] at h
          cases h

theorem parseWithSign_fits {n : Int} (h : parseWithSign bits neg buf = some n) : Fits bits n := by
  have hzero : Fits bits 0 := ⟨by simp, by positivity⟩
  unfold parseWithSign at h
  split at h
  · cases h
  · split at h
    · cases h
    · exact accumulate_fits hzero h

/-- A number that is read fits. -/
theorem parseInt_fits {n : Int} (h : parseInt bits buf = some n) : Fits bits n := by
  unfold parseInt at h
  split at h
  · cases h
  · split at h
    · exact parseWithSign_fits h
    · split at h
      · exact parseWithSign_fits h
      · exact parseWithSign_fits h

variable {base : Nat}

theorem accumulateUnsigned_lt {acc : Nat} (hacc : acc < 2 ^ bits)
    (h : accumulateUnsigned base bits acc buf = some n) : n < 2 ^ bits := by
  induction buf generalizing acc with
  | nil => exact Option.some.inj h ▸ hacc
  | cons c cs ih =>
    rw [accumulateUnsigned] at h
    by_cases hc : c = underscore
    · rw [if_pos hc] at h
      exact ih hacc h
    · rw [if_neg hc] at h
      cases hd : charToDigit base c with
      | none => simp [hd] at h
      | some d =>
        simp only [hd] at h
        by_cases hnext : acc * base + d < 2 ^ bits
        · rw [if_pos hnext] at h
          exact ih hnext h
        · rw [if_neg hnext] at h
          cases h

theorem parseUnsigned_lt (h : parseUnsigned base bits buf = some n) : n < 2 ^ bits := by
  unfold parseUnsigned at h
  split at h
  · cases h
  · split at h
    · cases h
    · exact accumulateUnsigned_lt (Nat.two_pow_pos bits) h

/-- The text of a 64-bit number has 20 bytes at most. -/
theorem formatInt_length_le {n : Int} (h : Fits 64 n) : (formatInt n).length ≤ 20 := by
  obtain ⟨hlo, hhi⟩ := h
  have hdigits : (digits n.natAbs).length ≤ 19 := digits_length_le (by decide) (by omega)
  unfold formatInt
  split
  · rw [length_cons]
    omega
  · omega

end DecimalText
