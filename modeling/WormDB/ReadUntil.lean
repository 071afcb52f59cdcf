import WormDB.ChunkedStream

/-! # Reading until something has arrived

A loop that reads into a buffer until the buffer holds what it waits for, and returns the
whole buffer.  The read that brings the last byte may bring more: how many bytes beyond it
depends on the pieces in which the stream arrives (`overrun`).  `readUntil_spec` says what
the loop returns and what it leaves. -/
namespace ChunkedStream
open List ByteCodec

/-- The loop, with a buffer of `cap` bytes: `none` where the stream ends or the buffer is full. -/
def readUntilLoop (p : Bytes → Bool) (cap : Nat) : Nat → Stream → Bytes → Option (Bytes × Stream)
  | 0, _, _ => none
  | fuel + 1, s, buf =>
      if buf.length < cap then
        let (piece, s') := s.read (cap - buf.length)
        if piece.length = 0 then none
        else if p (buf ++ piece) = true then some (buf ++ piece, s')
        else readUntilLoop p cap fuel s' (buf ++ piece)
      else none

/-- Every read gives a byte at least, so `cap` of them fill the buffer. -/
def readUntil (p : Bytes → Bool) (cap : Nat) (s : Stream) : Option (Bytes × Stream) :=
  readUntilLoop p cap (cap + 1) s []

/-- The length of the shortest prefix that `p` holds of. -/
def cut (p : Bytes → Bool) (cap : Nat) (bytes : Bytes) : Option Nat :=
  (List.range (min cap bytes.length + 1)).find? (fun n => p (bytes.take n))

/-- How far the reads go beyond byte `n`, and what the reads behind them bring. -/
def arrive : Nat → (Nat → Nat) → Nat → Nat × (Nat → Nat)
  | 0, grants, _ => (0, grants)
  | fuel + 1, grants, n =>
      if n ≤ grants 0 + 1 then (grants 0 + 1 - n, fun k => grants (k + 1))
      else arrive fuel (fun k => grants (k + 1)) (n - (grants 0 + 1))

/-- The bytes behind the `n`-th that come with it. -/
def overrun (cap : Nat) (bytes : Bytes) (grants : Nat → Nat) (n : Nat) : Nat :=
  min (arrive n grants n).1 (min (bytes.length - n) (cap - n))

section
variable {p : Bytes → Bool} {cap n : Nat} {bytes : Bytes} {grants : Nat → Nat}

theorem cut_eq_some_iff : cut p cap bytes = some n ↔
    n ≤ cap ∧ n ≤ bytes.length ∧ p (bytes.take n) = true ∧ ∀ m < n, p (bytes.take m) = false := by
  rw [cut, find?_range_eq_some]
  simp only [mem_range, Bool.not_eq_true']
  constructor
  · rintro ⟨hp, hlt, hbefore⟩
    exact ⟨by omega, by omega, hp, hbefore⟩
  · rintro ⟨hcap, hlen, hp, hbefore⟩
    exact ⟨hp, by omega, hbefore⟩

theorem cut_eq_none_iff : cut p cap bytes = none ↔
    ∀ n, n ≤ cap → n ≤ bytes.length → p (bytes.take n) = false := by
  rw [cut, find?_range_eq_none]
  simp only [Bool.not_eq_true']
  exact ⟨fun h n hcap hlen => h n (by omega), fun h n hn => h n (by omega) (by omega)⟩

/-- The loop behind the bytes that are in the buffer. -/
theorem readUntilLoop_spec (hmono : ∀ xs ys, p xs = true → p (xs ++ ys) = true)
    (hcut : cut p cap bytes = some n) (fuel fuel' : Nat) (grants : Nat → Nat) (c : Nat) (hc : c < n)
    (hfuel : cap - c < fuel) (hfuel' : n - c ≤ fuel') :
    readUntilLoop p cap fuel ⟨bytes.drop c, grants⟩ (bytes.take c) =
      some (bytes.take (n + min (arrive fuel' grants (n - c)).1 (min (bytes.length - n) (cap - n))),
        ⟨bytes.drop (n + min (arrive fuel' grants (n - c)).1 (min (bytes.length - n) (cap - n))),
          (arrive fuel' grants (n - c)).2⟩) := by
  obtain ⟨hcap, hlen, hp, hbefore⟩ := cut_eq_some_iff.mp hcut
  induction fuel generalizing fuel' grants c with
  | zero => omega
  | succ fuel ih =>
    cases fuel' with
    | zero => omega
    | succ fuel' =>
      have hbuf : (bytes.take c).length = c := length_take_of_le (by omega)
      rw [readUntilLoop, hbuf, if_pos (by omega), arrive]
      obtain ⟨got, hgot⟩ : ∃ got, min (cap - c) (grants 0 + 1) = got := ⟨_, rfl⟩
      simp only [Stream.read, hgot]
      have hpiece : ((bytes.drop c).take got).length = min got (bytes.length - c) := by
        rw [length_take, length_drop]
      have happend : bytes.take c ++ (bytes.drop c).take got = bytes.take (c + got) :=
        take_add.symm
      rw [hpiece, if_neg (by omega), happend, drop_drop]
      by_cases hlast : n - c ≤ grants 0 + 1
      · -- this read brings the last byte
        have hholds : p (bytes.take (c + got)) = true := by
          have hsplit : bytes.take (c + got) = bytes.take n ++ (bytes.drop n).take (c + got - n) := by
            rw [← take_add]
            congr 1
            omega
          rw [hsplit]
          exact hmono _ _ hp
        rw [if_pos hholds, if_pos hlast]
        have hreach : ∀ m, bytes.length ≤ m → bytes.take m = bytes ∧ bytes.drop m = [] :=
          fun m hm => ⟨take_of_length_le hm, drop_of_length_le hm⟩
        by_cases hend : bytes.length ≤ c + got
        · obtain ⟨htake, hdrop⟩ := hreach _ hend
          obtain ⟨htake', hdrop'⟩ := hreach (n + min (grants 0 + 1 - (n - c))
            (min (bytes.length - n) (cap - n))) (by omega)
          simp only [htake, hdrop, htake', hdrop']
        · have hsame : c + got = n + min (grants 0 + 1 - (n - c)) (min (bytes.length - n) (cap - n)) := by
            omega
          rw [hsame]
      · have hnot : p (bytes.take (c + got)) = false := hbefore _ (by omega)
        have hgot' : got = grants 0 + 1 := by omega
        rw [hnot, if_neg Bool.false_ne_true, if_neg hlast, hgot', Nat.sub_sub n c]
        exact ih fuel' _ (c + (grants 0 + 1)) (by omega) (by omega) (by omega)

/-- **What has been waited for** is in front of what is returned. -/
theorem readUntil_some (hmono : ∀ xs ys, p xs = true → p (xs ++ ys) = true) (hnil : p [] = false)
    (hcut : cut p cap bytes = some n) :
    readUntil p cap ⟨bytes, grants⟩ = some (bytes.take (n + overrun cap bytes grants n),
      ⟨bytes.drop (n + overrun cap bytes grants n), (arrive n grants n).2⟩) := by
  have hpos : 0 < n := by
    rcases Nat.eq_zero_or_pos n with rfl | hpos
    · have hp := (cut_eq_some_iff.mp hcut).2.2.1
      rw [take_zero, hnil] at hp
      cases hp
    · exact hpos
  exact readUntilLoop_spec hmono hcut (cap + 1) n grants 0 hpos (by omega) (by omega)

theorem readUntilLoop_none (hcut : cut p cap bytes = none) (fuel : Nat) (grants : Nat → Nat)
    (c : Nat) : readUntilLoop p cap fuel ⟨bytes.drop c, grants⟩ (bytes.take c) = none := by
  induction fuel generalizing grants c with
  | zero => rfl
  | succ fuel ih =>
    rw [readUntilLoop]
    split
    case isFalse => rfl
    case isTrue hlt =>
      obtain ⟨got, hgot⟩ : ∃ got, min (cap - (bytes.take c).length) (grants 0 + 1) = got := ⟨_, rfl⟩
      simp only [Stream.read, hgot]
      have happend : bytes.take c ++ (bytes.drop c).take got = bytes.take (c + got) :=
        take_add.symm
      rw [happend, drop_drop]
      split
      · rfl
      · have hnot : p (bytes.take (c + got)) = false := by
          rw [length_take] at hlt hgot
          by_cases hend : bytes.length ≤ c + got
          · have hall := cut_eq_none_iff.mp hcut bytes.length (by omega) (Nat.le_refl _)
            rwa [take_of_length_le hend, ← take_length (l := bytes)]
          · exact cut_eq_none_iff.mp hcut _ (by omega) (by omega)
        rw [hnot, if_neg Bool.false_ne_true]
        exact ih _ _

theorem readUntil_none (hcut : cut p cap bytes = none) :
    readUntil p cap ⟨bytes, grants⟩ = none :=
  readUntilLoop_none hcut (cap + 1) grants 0

end

end ChunkedStream
