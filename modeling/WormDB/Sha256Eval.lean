import WormDB.Sha256

/-! # Evaluating SHA-256

The same function on natural numbers, which the kernel computes with as they are.  Every
word is brought to a numeral before it is used again (`force`), the schedule keeps its
window in sixteen arguments, and a rotation is a shift of the word written twice.  A digest
evaluates several times faster this way; by `digest_eq_evalDigest` it is the same. -/
namespace Sha256
open ByteCodec

/-- The continuation gets a numeral. -/
def force {α : Type} (x : Nat) (k : Nat → α) : α :=
  @Nat.rec (fun _ => α) (k 0) (fun n _ => k (Nat.succ n)) x

variable {α : Type}

theorem force_eq (x : Nat) (k : Nat → α) : force x k = k x := by
  cases x <;> rfl

/-! ## Words -/

/-- The word twice, so that a shift to the right rotates. -/
def twice (x : Nat) : Nat := Nat.mul x 4294967297

def shiftXor (i j : Nat) (x : Nat) : Nat := Nat.xor (Nat.shiftRight x i) (Nat.shiftRight x j)

def bigSigma (i j k : Nat) (x : Nat) : Nat :=
  Nat.mod (Nat.xor (shiftXor i j (twice x)) (Nat.shiftRight (twice x) k)) 4294967296

def smallSigma (i j k : Nat) (x : Nat) : Nat :=
  Nat.xor (Nat.mod (shiftXor i j (twice x)) 4294967296) (Nat.shiftRight x k)

def choose (e f g : Nat) : Nat := Nat.xor g (Nat.land e (Nat.xor f g))

def majority (a b c : Nat) : Nat := Nat.lor (Nat.land a b) (Nat.land c (Nat.lor a b))

theorem testBit_twice {x : Nat} (hx : x < 2 ^ 32) (i : Nat) :
    (twice x).testBit i = (decide (32 ≤ i) && x.testBit (i - 32) || x.testBit i) := by
  have hor : twice x = x <<< 32 ||| x := by
    rw [← Nat.shiftLeft_add_eq_or_of_lt hx, Nat.shiftLeft_eq, twice]
    show x * 4294967297 = _
    omega
  rw [hor, Nat.testBit_or, Nat.testBit_shiftLeft]

theorem toNat_rotr {x n : UInt32} (hpos : 0 < n.toNat) (hlt : n.toNat < 32) :
    (rotr x n).toNat = (twice x.toNat >>> n.toNat) % 2 ^ 32 := by
  have hx : x.toNat < 2 ^ 32 := x.toNat_lt
  have hsub : (32 - n).toNat = 32 - n.toNat := UInt32.toNat_sub_of_le _ _ (by
    rw [UInt32.le_iff_toNat_le]
    exact Nat.le_of_lt hlt)
  apply Nat.eq_of_testBit_eq
  intro i
  rw [rotr, UInt32.toNat_or, UInt32.toNat_shiftRight, UInt32.toNat_shiftLeft, hsub,
    Nat.mod_eq_of_lt hlt, Nat.mod_eq_of_lt (show 32 - n.toNat < 32 by omega), Nat.testBit_or,
    Nat.testBit_mod_two_pow, Nat.testBit_mod_two_pow, Nat.testBit_shiftRight,
    Nat.testBit_shiftRight, Nat.testBit_shiftLeft, testBit_twice hx]
  by_cases hi : i < 32
  · -- the two halves of the word written twice
    by_cases hwrap : 32 ≤ n.toNat + i
    · rw [Nat.testBit_lt_two_pow (Nat.lt_of_lt_of_le hx (Nat.pow_le_pow_right (by omega) hwrap))]
      have hge : 32 - n.toNat ≤ i := by omega
      have hidx : i - (32 - n.toNat) = n.toNat + i - 32 := by omega
      simp [hi, hwrap, hge, hidx]
    · have hlow : ¬ 32 - n.toNat ≤ i := by omega
      simp [hi, hwrap, hlow]
  · have hhigh : x.toNat.testBit (n.toNat + i) = false :=
      Nat.testBit_lt_two_pow (Nat.lt_of_lt_of_le hx (Nat.pow_le_pow_right (by omega) (by omega)))
    simp [hi, hhigh]

theorem choose_eq (e f g : UInt32) :
    ((e &&& f) ^^^ (~~~e &&& g)).toNat = choose e.toNat f.toNat g.toNat := by
  have hbits : (e &&& f) ^^^ (~~~e &&& g) = g ^^^ (e &&& (f ^^^ g)) := by
    apply UInt32.toBitVec_inj.mp
    ext i hi
    simp only [UInt32.toBitVec_xor, UInt32.toBitVec_and, UInt32.toBitVec_not, BitVec.getElem_xor,
      BitVec.getElem_and, BitVec.getElem_not]
    cases e.toBitVec[i] <;> cases g.toBitVec[i] <;> simp
  rw [hbits, UInt32.toNat_xor, UInt32.toNat_and, UInt32.toNat_xor]
  rfl

theorem majority_eq (a b c : UInt32) :
    ((a &&& b) ^^^ (a &&& c) ^^^ (b &&& c)).toNat = majority a.toNat b.toNat c.toNat := by
  have hbits : (a &&& b) ^^^ (a &&& c) ^^^ (b &&& c) = (a &&& b) ||| (c &&& (a ||| b)) := by
    apply UInt32.toBitVec_inj.mp
    ext i hi
    simp only [UInt32.toBitVec_xor, UInt32.toBitVec_and, UInt32.toBitVec_or, BitVec.getElem_xor,
      BitVec.getElem_and, BitVec.getElem_or]
    cases a.toBitVec[i] <;> cases b.toBitVec[i] <;> simp
  rw [hbits, UInt32.toNat_or, UInt32.toNat_and, UInt32.toNat_and, UInt32.toNat_or]
  rfl

theorem bigSigma_eq (x i j k : UInt32) (hi : 0 < i.toNat ∧ i.toNat < 32)
    (hj : 0 < j.toNat ∧ j.toNat < 32) (hk : 0 < k.toNat ∧ k.toNat < 32) :
    (rotr x i ^^^ rotr x j ^^^ rotr x k).toNat = bigSigma i.toNat j.toNat k.toNat x.toNat := by
  rw [UInt32.toNat_xor, UInt32.toNat_xor, toNat_rotr hi.1 hi.2, toNat_rotr hj.1 hj.2,
    toNat_rotr hk.1 hk.2, ← Nat.xor_mod_two_pow, ← Nat.xor_mod_two_pow]
  rfl

theorem smallSigma_eq (x i j k : UInt32) (hi : 0 < i.toNat ∧ i.toNat < 32)
    (hj : 0 < j.toNat ∧ j.toNat < 32) (hk : k.toNat < 32) :
    (rotr x i ^^^ rotr x j ^^^ (x >>> k)).toNat = smallSigma i.toNat j.toNat k.toNat x.toNat := by
  rw [UInt32.toNat_xor, UInt32.toNat_xor, toNat_rotr hi.1 hi.2, toNat_rotr hj.1 hj.2,
    UInt32.toNat_shiftRight, Nat.mod_eq_of_lt hk, ← Nat.xor_mod_two_pow]
  rfl

/-! ## Blocks -/

/-- The rounds, over the schedule with its constants. -/
def evalRounds {α : Type} (k : Nat → Nat → Nat → Nat → Nat → Nat → Nat → Nat → α) (kws : List Nat) :
    Nat → Nat → Nat → Nat → Nat → Nat → Nat → Nat → α :=
  @List.rec Nat (fun _ => Nat → Nat → Nat → Nat → Nat → Nat → Nat → Nat → α) k
    (fun kw _ rest a b c d e f g h =>
      force (Nat.add (Nat.add (Nat.add h (bigSigma 6 11 25 e)) (choose e f g)) kw) (fun t1 =>
      force (Nat.mod (Nat.add t1 (Nat.add (bigSigma 2 13 22 a) (majority a b c))) 4294967296)
        (fun a' =>
      force (Nat.mod (Nat.add d t1) 4294967296) (fun e' => rest a' a b c e' e f g)))) kws

theorem evalRounds_cons (k : Nat → Nat → Nat → Nat → Nat → Nat → Nat → Nat → α) (kw : Nat)
    (kws : List Nat) (a b c d e f g h : Nat) :
    evalRounds k (kw :: kws) a b c d e f g h =
      let t1 := h + bigSigma 6 11 25 e + choose e f g + kw
      evalRounds k kws ((t1 + (bigSigma 2 13 22 a + majority a b c)) % 2 ^ 32) a b c
        ((d + t1) % 2 ^ 32) e f g := by
  simp only [evalRounds, force_eq]
  rfl

theorem evalRounds_eq (k : Nat → Nat → Nat → Nat → Nat → Nat → Nat → Nat → α)
    (kws : List UInt32) (s : State) :
    evalRounds k (kws.map UInt32.toNat) s.a.toNat s.b.toNat s.c.toNat s.d.toNat s.e.toNat s.f.toNat
        s.g.toNat s.h.toNat =
      let t := kws.foldl round s
      k t.a.toNat t.b.toNat t.c.toNat t.d.toNat t.e.toNat t.f.toNat t.g.toNat t.h.toNat := by
  induction kws generalizing s with
  | nil => rfl
  | cons kw rest ih =>
    have hsigma1 : _ = bigSigma 6 11 25 s.e.toNat :=
      bigSigma_eq s.e 6 11 25 (by decide) (by decide) (by decide)
    have hsigma0 : _ = bigSigma 2 13 22 s.a.toNat :=
      bigSigma_eq s.a 2 13 22 (by decide) (by decide) (by decide)
    rw [List.foldl_cons, ← ih (round s kw), List.map_cons, evalRounds_cons, ← hsigma1, ← hsigma0,
      ← choose_eq, ← majority_eq]
    simp only [round, UInt32.toNat_add, Nat.add_mod_mod, Nat.mod_add_mod]

/-- The schedule from its first sixteen words, with the constants added. -/
def evalSchedule (constants : List Nat) : Nat → Nat → Nat → Nat → Nat → Nat → Nat → Nat → Nat → Nat →
    Nat → Nat → Nat → Nat → Nat → Nat → List Nat :=
  @List.rec Nat (fun _ => Nat → Nat → Nat → Nat → Nat → Nat → Nat → Nat → Nat → Nat → Nat → Nat →
      Nat → Nat → Nat → Nat → List Nat)
    (fun _ _ _ _ _ _ _ _ _ _ _ _ _ _ _ _ => [])
    (fun constant _ rest w0 w1 w2 w3 w4 w5 w6 w7 w8 w9 w10 w11 w12 w13 w14 w15 =>
      force (Nat.mod (Nat.add constant w0) 4294967296) (fun kw =>
      force (Nat.mod (Nat.add (Nat.add (Nat.add w0 (smallSigma 7 18 3 w1)) w9)
        (smallSigma 17 19 10 w14)) 4294967296) (fun w16 =>
        kw :: rest w1 w2 w3 w4 w5 w6 w7 w8 w9 w10 w11 w12 w13 w14 w15 w16))) constants

theorem evalSchedule_cons (constant : Nat) (rest : List Nat)
    (w0 w1 w2 w3 w4 w5 w6 w7 w8 w9 w10 w11 w12 w13 w14 w15 : Nat) :
    evalSchedule (constant :: rest) w0 w1 w2 w3 w4 w5 w6 w7 w8 w9 w10 w11 w12 w13 w14 w15 =
      ((constant + w0) % 2 ^ 32) :: evalSchedule rest w1 w2 w3 w4 w5 w6 w7 w8 w9 w10 w11 w12 w13 w14
        w15 ((w0 + smallSigma 7 18 3 w1 + w9 + smallSigma 17 19 10 w14) % 2 ^ 32) := by
  simp only [evalSchedule, force_eq]
  rfl

theorem evalSchedule_eq (constants : List UInt32)
    (w0 w1 w2 w3 w4 w5 w6 w7 w8 w9 w10 w11 w12 w13 w14 w15 : UInt32) :
    evalSchedule (constants.map UInt32.toNat) w0.toNat w1.toNat w2.toNat w3.toNat w4.toNat w5.toNat
        w6.toNat w7.toNat w8.toNat w9.toNat w10.toNat w11.toNat w12.toNat w13.toNat w14.toNat
        w15.toNat =
      (List.zipWith (· + ·) constants (schedule constants.length
        [w0, w1, w2, w3, w4, w5, w6, w7, w8, w9, w10, w11, w12, w13, w14, w15])).map
          UInt32.toNat := by
  induction constants generalizing w0 w1 w2 w3 w4 w5 w6 w7 w8 w9 w10 w11 w12 w13 w14 w15 with
  | nil => rfl
  | cons constant rest ih =>
    have hsigma0 : _ = smallSigma 7 18 3 w1.toNat :=
      smallSigma_eq w1 7 18 3 (by decide) (by decide) (by decide)
    have hsigma1 : _ = smallSigma 17 19 10 w14.toNat :=
      smallSigma_eq w14 17 19 10 (by decide) (by decide) (by decide)
    have hnext : (w0.toNat + smallSigma 7 18 3 w1.toNat + w9.toNat + smallSigma 17 19 10 w14.toNat) %
        2 ^ 32 = (w0 + (rotr w1 7 ^^^ rotr w1 18 ^^^ (w1 >>> 3)) + w9 +
          (rotr w14 17 ^^^ rotr w14 19 ^^^ (w14 >>> 10))).toNat := by
      rw [← hsigma0, ← hsigma1]
      simp only [UInt32.toNat_add, Nat.mod_add_mod]
    rw [List.map_cons, evalSchedule_cons, hnext, ih]
    rw [← UInt32.toNat_add]
    rfl

/-! ## Messages -/

def evalWords (n : Nat) : Bytes → List Nat :=
  @Nat.rec (fun _ => Bytes → List Nat) (fun _ => [])
    (fun _ rest block =>
      force (Nat.mod (beNat (block.take 4)) 4294967296) (fun w => w :: rest (block.drop 4))) n

theorem evalWords_eq (n : Nat) (block : Bytes) : evalWords n block = (words n block).map UInt32.toNat := by
  induction n generalizing block with
  | zero => rfl
  | succ n ih =>
    rw [words, List.map_cons, ← ih, Nat.toUInt32_eq, UInt32.toNat_ofNat']
    simp only [evalWords, force_eq]
    rfl

def evalConstants : List Nat := roundConstants.map UInt32.toNat

/-- The schedule of a block, from the list of its words. -/
def evalBlockSchedule (ws : List Nat) : List Nat :=
  evalSchedule evalConstants (ws.getD 0 0) (ws.getD 1 0) (ws.getD 2 0) (ws.getD 3 0) (ws.getD 4 0)
    (ws.getD 5 0) (ws.getD 6 0) (ws.getD 7 0) (ws.getD 8 0) (ws.getD 9 0) (ws.getD 10 0)
    (ws.getD 11 0) (ws.getD 12 0) (ws.getD 13 0) (ws.getD 14 0) (ws.getD 15 0)

theorem evalBlockSchedule_eq (block : Bytes) :
    evalBlockSchedule (evalWords 16 block) =
      (List.zipWith (· + ·) roundConstants (schedule 64 (words 16 block))).map UInt32.toNat := by
  rw [evalWords_eq]
  exact evalSchedule_eq roundConstants _ _ _ _ _ _ _ _ _ _ _ _ _ _ _ _

/-- The chaining values after `n` blocks. -/
def evalBlocks (n : Nat) : Bytes → Nat → Nat → Nat → Nat → Nat → Nat → Nat → Nat → List Nat :=
  @Nat.rec (fun _ => Bytes → Nat → Nat → Nat → Nat → Nat → Nat → Nat → Nat → List Nat)
    (fun _ a b c d e f g h => [a, b, c, d, e, f, g, h])
    (fun _ rest bytes a b c d e f g h =>
      evalRounds (fun a' b' c' d' e' f' g' h' =>
        force (Nat.mod (Nat.add a a') 4294967296) (fun a =>
        force (Nat.mod (Nat.add b b') 4294967296) (fun b =>
        force (Nat.mod (Nat.add c c') 4294967296) (fun c =>
        force (Nat.mod (Nat.add d d') 4294967296) (fun d =>
        force (Nat.mod (Nat.add e e') 4294967296) (fun e =>
        force (Nat.mod (Nat.add f f') 4294967296) (fun f =>
        force (Nat.mod (Nat.add g g') 4294967296) (fun g =>
        force (Nat.mod (Nat.add h h') 4294967296) (fun h =>
          rest (bytes.drop 64) a b c d e f g h)))))))))
        (evalBlockSchedule (evalWords 16 (bytes.take 64))) a b c d e f g h) n

theorem evalBlocks_eq (n : Nat) (bytes : Bytes) (s : State) :
    evalBlocks n bytes s.a.toNat s.b.toNat s.c.toNat s.d.toNat s.e.toNat s.f.toNat s.g.toNat
        s.h.toNat =
      let t := foldBlocks n s bytes
      [t.a, t.b, t.c, t.d, t.e, t.f, t.g, t.h].map UInt32.toNat := by
  induction n generalizing bytes s with
  | zero => rfl
  | succ n ih =>
    rw [foldBlocks, ← ih]
    simp only [evalBlocks, evalBlockSchedule_eq, evalRounds_eq, force_eq]
    simp only [compress, UInt32.toNat_add]
    rfl

def evalDigest (message : Bytes) : Bytes :=
  (evalBlocks ((pad message).length / 64) (pad message) 0x6a09e667 0xbb67ae85 0x3c6ef372 0xa54ff53a
    0x510e527f 0x9b05688c 0x1f83d9ab 0x5be0cd19).flatMap (beBytes 4)

/-- **The evaluation is SHA-256.** -/
theorem digest_eq_evalDigest : digest = evalDigest := by
  funext message
  have hblocks := evalBlocks_eq ((pad message).length / 64) (pad message) initialState
  rw [evalDigest, digest]
  refine Eq.trans ?_ (congrArg (List.flatMap (beBytes 4)) hblocks.symm)
  rfl

end Sha256
