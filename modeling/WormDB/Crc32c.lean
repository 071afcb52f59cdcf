import WormDB.ByteCodec
import Mathlib.Data.Nat.Bitwise

/-! # CRC-32/ISCSI

The Castagnoli checksum: reflected polynomial `0x82F63B78`, initial and final
complement.  The register is a natural number below `2 ^ 32`; one bit is one
`shift`, one byte is eight of them after the byte was added to the low end.

Shifting is linear over exclusive or and has no kernel, so a checksum tells two
messages apart whenever they agree except in four neighbouring bytes
(`checksum_burst_inj`). -/
namespace Crc32c
open ByteCodec

def polynomial : Nat := 0x82F63B78

/-- One bit of the register. -/
def shift (c : Nat) : Nat := if c % 2 = 1 then c / 2 ^^^ polynomial else c / 2

def shifts : Nat → Nat → Nat
  | 0, c => c
  | n + 1, c => shifts n (shift c)

/-- One byte of the message. -/
def step (c : Nat) (b : UInt8) : Nat := shifts 8 (c ^^^ b.toNat)

def update (c : Nat) (bs : Bytes) : Nat := bs.foldl step c

def mask : Nat := 0xFFFFFFFF

def checksum (bs : Bytes) : Nat := update mask bs ^^^ mask

/-- The check value of the standard, over the digits one to nine. -/
example : checksum [0x31, 0x32, 0x33, 0x34, 0x35, 0x36, 0x37, 0x38, 0x39] = 0xE3069283 := by
  decide +kernel

/-! ## Shifting is linear and injective -/

theorem shift_xor (a b : Nat) : shift (a ^^^ b) = shift a ^^^ shift b := by
  have hdiv : (a ^^^ b) / 2 = a / 2 ^^^ b / 2 := Nat.xor_div_two
  have hmod : (a ^^^ b) % 2 = (a + b) % 2 := Nat.xor_mod_two_eq
  unfold shift
  rw [hdiv, hmod]
  rcases Nat.mod_two_eq_zero_or_one a with ha | ha <;>
    rcases Nat.mod_two_eq_zero_or_one b with hb | hb <;>
    simp [Nat.add_mod, ha, hb, Nat.xor_comm, Nat.xor_left_comm]

theorem shifts_xor (n a b : Nat) : shifts n (a ^^^ b) = shifts n a ^^^ shifts n b := by
  induction n generalizing a b with
  | zero => rfl
  | succ n ih => rw [shifts, shifts, shifts, shift_xor, ih]

variable {c : Nat}

theorem shift_lt (h : c < 2 ^ 32) : shift c < 2 ^ 32 := by
  unfold shift
  split
  · exact Nat.xor_lt_two_pow (by omega) (by decide)
  · omega

variable {n : Nat}

theorem shifts_lt (h : c < 2 ^ 32) : shifts n c < 2 ^ 32 := by
  induction n generalizing c with
  | zero => exact h
  | succ n ih => exact ih (shift_lt h)

/-- The polynomial's top bit is set, so only zero shifts to zero. -/
theorem shift_eq_zero (hc : c < 2 ^ 32) (h : shift c = 0) : c = 0 := by
  unfold shift at h
  split at h
  · have hp : c / 2 = polynomial := Nat.xor_eq_zero_iff.mp h
    rw [polynomial] at hp
    omega
  · omega

theorem shifts_eq_zero (hc : c < 2 ^ 32) (h : shifts n c = 0) : c = 0 := by
  induction n generalizing c with
  | zero => exact h
  | succ n ih => exact shift_eq_zero hc (ih (shift_lt hc) h)

variable {a b : Nat}

theorem shifts_inj (ha : a < 2 ^ 32) (hb : b < 2 ^ 32) (h : shifts n a = shifts n b) : a = b := by
  have hx : shifts n (a ^^^ b) = 0 := by rw [shifts_xor, h, Nat.xor_self]
  exact Nat.xor_eq_zero_iff.mp (shifts_eq_zero (Nat.xor_lt_two_pow ha hb) hx)

theorem shift_double (c : Nat) : shift (2 * c) = c := by
  unfold shift
  rw [if_neg (by omega)]
  omega

theorem shifts_eight_mul (c : Nat) : shifts 8 (256 * c) = c := by
  have h : 256 * c = 2 * (2 * (2 * (2 * (2 * (2 * (2 * (2 * c))))))) := by omega
  rw [h]
  simp only [shifts, shift_double]

theorem shifts_add (m n c : Nat) : shifts (m + n) c = shifts n (shifts m c) := by
  induction m generalizing c with
  | zero => rw [zero_add, shifts]
  | succ m ih => rw [Nat.succ_add, shifts, shifts, ih]

/-! ## Registers -/

theorem byte_lt (b : UInt8) : b.toNat < 2 ^ 32 := by
  have := b.toNat_lt
  omega

theorem step_lt (h : c < 2 ^ 32) (b : UInt8) : step c b < 2 ^ 32 :=
  shifts_lt (Nat.xor_lt_two_pow h (byte_lt b))

theorem update_lt (h : c < 2 ^ 32) (bs : Bytes) : update c bs < 2 ^ 32 := by
  induction bs generalizing c with
  | nil => exact h
  | cons b bs ih => exact ih (step_lt h b)

theorem checksum_lt (bs : Bytes) : checksum bs < 2 ^ 32 :=
  Nat.xor_lt_two_pow (update_lt (by decide) bs) (by decide)

theorem update_append (c : Nat) (xs ys : Bytes) :
    update c (xs ++ ys) = update (update c xs) ys := List.foldl_append

variable {bs : Bytes}

/-- A byte leaves two different registers different. -/
theorem update_inj (ha : a < 2 ^ 32) (hb : b < 2 ^ 32) (h : update a bs = update b bs) : a = b := by
  induction bs generalizing a b with
  | nil => exact h
  | cons x bs ih =>
    have hstep := ih (step_lt ha x) (step_lt hb x) h
    have hx := shifts_inj (Nat.xor_lt_two_pow ha (byte_lt x)) (Nat.xor_lt_two_pow hb (byte_lt x)) hstep
    exact Nat.xor_left_inj.mp hx

theorem byte_add_eq_xor (b : UInt8) (n : Nat) : b.toNat + 256 * n = b.toNat ^^^ 256 * n := by
  have hb : b.toNat < 256 := b.toNat_lt
  have hhigh : (b.toNat ^^^ 256 * n) / 2 ^ 8 = n := by
    rw [Nat.xor_div_two_pow, Nat.div_eq_of_lt hb, Nat.zero_xor]
    omega
  have hlow : (b.toNat ^^^ 256 * n) % 2 ^ 8 = b.toNat := by
    rw [Nat.xor_mod_two_pow, Nat.mod_eq_of_lt hb, show 256 * n % 2 ^ 8 = 0 by omega, Nat.xor_zero]
  omega

/-- Up to four bytes act on the register as one word, added to its low end. -/
theorem update_word (h : bs.length ≤ 4) :
    update c bs = shifts (8 * bs.length) (c ^^^ leNat bs) := by
  induction bs generalizing c with
  | nil => simp [update, leNat, shifts]
  | cons b bs ih =>
    have hsum := byte_add_eq_xor b (leNat bs)
    have hstep : update c (b :: bs) = update (step c b) bs := rfl
    rw [hstep, ih (by simp at h; omega), leNat, hsum, List.length_cons, Nat.mul_succ, add_comm,
      shifts_add, ← Nat.xor_assoc, shifts_xor 8, shifts_eight_mul]
    rfl

/-- **A burst of four bytes is always seen.** -/
theorem checksum_burst_inj {pre xs ys post : Bytes} (hlen : xs.length = ys.length)
    (h4 : xs.length ≤ 4) (h : checksum (pre ++ xs ++ post) = checksum (pre ++ ys ++ post)) :
    xs = ys := by
  have hstart : update mask pre < 2 ^ 32 := update_lt (by decide) pre
  have hword : ∀ zs : Bytes, zs.length ≤ 4 → leNat zs < 2 ^ 32 := by
    intro zs hz
    refine lt_of_lt_of_le (leNat_lt zs) ?_
    calc 256 ^ zs.length ≤ 256 ^ 4 := Nat.pow_le_pow_right (by omega) hz
      _ = 2 ^ 32 := by decide
  have hreg : update mask (pre ++ xs ++ post) = update mask (pre ++ ys ++ post) :=
    Nat.xor_left_inj.mp h
  rw [update_append, update_append, update_append, update_append] at hreg
  have hmid := update_inj (update_lt hstart xs) (update_lt hstart ys) hreg
  have h4' : ys.length ≤ 4 := hlen ▸ h4
  generalize update mask pre = c at hstart hmid
  rw [update_word h4, update_word h4', hlen] at hmid
  have hxor := shifts_inj (Nat.xor_lt_two_pow hstart (hword xs h4))
    (Nat.xor_lt_two_pow hstart (hword ys h4')) hmid
  have hnat : leNat xs = leNat ys := Nat.xor_right_inj.mp hxor
  rw [← leBytes_leNat xs, ← leBytes_leNat ys, hlen, hnat]

/-- Changing the low bit of the last byte changes the low byte of the checksum. -/
theorem checksum_last_bit (pre : Bytes) :
    checksum (pre ++ [0]) % 2 ^ 8 ≠ checksum (pre ++ [1]) % 2 ^ 8 := by
  intro h
  have hzero : update mask (pre ++ [0]) = shifts 8 (update mask pre) := by
    rw [update_append]
    show shifts 8 (update mask pre ^^^ 0) = _
    rw [Nat.xor_zero]
  have hone : update mask (pre ++ [1]) = shifts 8 (update mask pre) ^^^ shifts 8 1 := by
    rw [update_append]
    exact shifts_xor 8 _ 1
  have hlow : shifts 8 1 % 2 ^ 8 = 3 := by decide
  simp only [checksum, hzero, hone, Nat.xor_mod_two_pow, hlow] at h
  have hxor := Nat.xor_left_inj.mp h
  rw [← Nat.xor_zero (shifts 8 (update mask pre) % 2 ^ 8), Nat.xor_assoc] at hxor
  have := Nat.xor_right_inj.mp hxor
  simp at this

end Crc32c
