import WormDB.ByteCodec

/-! # Files behind a buffer

A sequential reader keeps a part of the file that it has read ahead, and a writer
a part that it has not written yet.  What either does is said about the whole: a
read takes its bytes off the front of what is left to read (`readAll_spec`), a
write adds its bytes at the end of what was written (`contents_writeAll`),
wherever the boundaries of the buffer fall. -/
namespace BufferedIo
open List ByteCodec

/-! ## Reading -/

/-- The unread part of the buffer, and the file behind its seek position. -/
structure Reader where
  pending : Bytes
  file : Bytes
  deriving DecidableEq

namespace Reader

def start (file : Bytes) : Reader := ⟨[], file⟩

/-- What is left to read. -/
def contents (r : Reader) : Bytes := r.pending ++ r.file

/-- The loop of a read.  With `direct`, a request of at least one buffer goes
straight to the file once the buffer is drained. -/
def readLoop (cap : Nat) (direct : Bool) : Nat → Reader → Nat → Bytes × Reader
  | 0, r, _ => ([], r)
  | fuel + 1, r, want =>
      if want = 0 then ([], r)
      else if r.pending.length = 0 then
        if direct ∧ cap ≤ want then (r.file.take want, ⟨[], r.file.drop want⟩)
        else if (r.file.take cap).length = 0 then ([], ⟨[], r.file.drop cap⟩)
        else readLoop cap direct fuel ⟨r.file.take cap, r.file.drop cap⟩ want
      else
        let n := min r.pending.length want
        let (more, r') := readLoop cap direct fuel ⟨r.pending.drop n, r.file⟩ (want - n)
        (r.pending.take n ++ more, r')

/-- Every refill of the buffer is followed by a copy of a byte at least. -/
def readAll (cap : Nat) (direct : Bool) (r : Reader) (want : Nat) : Bytes × Reader :=
  readLoop cap direct (2 * want + 1) r want

/-- The loop of a skip: `none` where the file ends first. -/
def skipLoop (cap : Nat) : Nat → Reader → Nat → Option Reader
  | 0, _, _ => none
  | fuel + 1, r, left =>
      if left = 0 then some r
      else if r.pending.length = 0 then
        if (r.file.take cap).length = 0 then none
        else skipLoop cap fuel ⟨r.file.take cap, r.file.drop cap⟩ left
      else
        let step := min r.pending.length left
        skipLoop cap fuel ⟨r.pending.drop step, r.file⟩ (left - step)

/-- As for a read, and one more turn that sees that nothing is left. -/
def skip (cap : Nat) (r : Reader) (n : Nat) : Option Reader := skipLoop cap (2 * n + 2) r n

end Reader

variable {cap : Nat}

/-- The loop, in the middle: one more unit of fuel is needed while the buffer is
empty. -/
theorem readLoop_spec (hcap : 0 < cap) (direct : Bool) (fuel : Nat) (r : Reader)
    (want : Nat) (hfuel : 2 * want + (if r.pending.length = 0 then 1 else 0) ≤ fuel) :
    (r.readLoop cap direct fuel want).1 = r.contents.take want ∧
      (r.readLoop cap direct fuel want).2.contents = r.contents.drop want := by
  induction fuel generalizing r want with
  | zero =>
    obtain rfl : want = 0 := by omega
    exact ⟨by simp [Reader.readLoop], by simp [Reader.readLoop]⟩
  | succ fuel ih =>
    rw [Reader.readLoop]
    by_cases hwant : want = 0
    · rw [if_pos hwant, hwant]
      exact ⟨by simp, by simp⟩
    rw [if_neg hwant]
    by_cases hempty : r.pending.length = 0
    · have hcontents : r.contents = r.file := by
        rw [Reader.contents, length_eq_zero_iff.mp hempty, nil_append]
      rw [if_pos hempty, hcontents]
      by_cases hdirect : direct ∧ cap ≤ want
      · rw [if_pos hdirect]
        exact ⟨rfl, rfl⟩
      rw [if_neg hdirect]
      by_cases heof : (r.file.take cap).length = 0
      · -- the end of the file
        have hfile : r.file = [] := by
          rw [length_take] at heof
          exact length_eq_zero_iff.mp (by omega)
        rw [if_pos heof, hfile]
        exact ⟨by simp, by simp [Reader.contents]⟩
      · rw [if_neg heof]
        have hnext := ih ⟨r.file.take cap, r.file.drop cap⟩ want (by
          rw [if_neg heof]
          rw [if_pos hempty] at hfuel
          omega)
        rwa [show (Reader.mk (r.file.take cap) (r.file.drop cap)).contents = r.file from
          take_append_drop cap r.file] at hnext
    · rw [if_neg hempty]
      simp only
      have hn : 0 < min r.pending.length want := by omega
      -- what is pending goes first, and the rest is a shorter read
      obtain ⟨hmore, hrest⟩ := ih ⟨r.pending.drop (min r.pending.length want), r.file⟩
        (want - min r.pending.length want) (by split <;> omega)
      have hdrop : (Reader.mk (r.pending.drop (min r.pending.length want)) r.file).contents =
          r.contents.drop (min r.pending.length want) := by
        rw [Reader.contents, Reader.contents, drop_append_of_le_length (Nat.min_le_left ..)]
      have htake : r.pending.take (min r.pending.length want) =
          r.contents.take (min r.pending.length want) := by
        rw [Reader.contents, take_append_of_le_length (Nat.min_le_left ..)]
      rw [hdrop] at hmore hrest
      refine ⟨?_, ?_⟩
      · rw [hmore, htake, ← take_add]
        congr 1
        omega
      · rw [hrest, drop_drop]
        congr 1
        omega

/-- **A read takes its bytes off the front**, however they lie in the buffer. -/
theorem readAll_spec (hcap : 0 < cap) (direct : Bool) (r : Reader) (want : Nat) :
    (r.readAll cap direct want).1 = r.contents.take want ∧
      (r.readAll cap direct want).2.contents = r.contents.drop want := by
  refine readLoop_spec hcap direct _ r want ?_
  split <;> omega

theorem skipLoop_spec (hcap : 0 < cap) (fuel : Nat) (r : Reader) (left : Nat)
    (hfuel : 2 * left + (if r.pending.length = 0 then 1 else 0) < fuel) :
    (r.skipLoop cap fuel left).map Reader.contents =
      if left ≤ r.contents.length then some (r.contents.drop left) else none := by
  induction fuel generalizing r left with
  | zero => omega
  | succ fuel ih =>
    rw [Reader.skipLoop]
    by_cases hleft : left = 0
    · rw [if_pos hleft, hleft, if_pos (Nat.zero_le _)]
      rfl
    rw [if_neg hleft]
    by_cases hempty : r.pending.length = 0
    · have hcontents : r.contents = r.file := by
        rw [Reader.contents, length_eq_zero_iff.mp hempty, nil_append]
      rw [if_pos hempty, hcontents]
      by_cases heof : (r.file.take cap).length = 0
      · have hfile : r.file.length = 0 := by
          rw [length_take] at heof
          omega
        rw [if_pos heof, if_neg (by omega)]
        rfl
      · rw [if_neg heof]
        have hnext := ih ⟨r.file.take cap, r.file.drop cap⟩ left (by
          rw [if_neg heof]
          rw [if_pos hempty] at hfuel
          omega)
        rwa [show (Reader.mk (r.file.take cap) (r.file.drop cap)).contents = r.file from
          take_append_drop cap r.file] at hnext
    · rw [if_neg hempty]
      simp only
      have hdrop : (Reader.mk (r.pending.drop (min r.pending.length left)) r.file).contents =
          r.contents.drop (min r.pending.length left) := by
        rw [Reader.contents, Reader.contents, drop_append_of_le_length (Nat.min_le_left ..)]
      have hlong : r.pending.length ≤ r.contents.length := by
        rw [Reader.contents, length_append]
        omega
      rw [ih ⟨r.pending.drop (min r.pending.length left), r.file⟩ _ (by split <;> omega), hdrop,
        length_drop, drop_drop]
      by_cases hle : left ≤ r.contents.length
      · rw [if_pos hle, if_pos (by omega)]
        congr 2
        omega
      · rw [if_neg hle, if_neg (by omega)]

/-- **A skip drops its bytes off the front**, or fails where there are fewer. -/
theorem skip_spec (hcap : 0 < cap) (r : Reader) (n : Nat) : (r.skip cap n).map Reader.contents =
      if n ≤ r.contents.length then some (r.contents.drop n) else none := by
  refine skipLoop_spec hcap _ r n ?_
  split <;> omega

/-! ## Writing -/

/-- What the buffer holds, and what the file has. -/
structure Writer where
  buffered : Bytes
  file : Bytes

namespace Writer

def start : Writer := ⟨[], []⟩

/-- All that was written. -/
def contents (w : Writer) : Bytes := w.file ++ w.buffered

def flush (w : Writer) : Writer := ⟨[], w.file ++ w.buffered⟩

/-- Writes of at least one buffer go straight to the file. -/
def writeAll (cap : Nat) (w : Writer) (data : Bytes) : Writer :=
  if cap ≤ data.length then ⟨[], w.flush.file ++ data⟩
  else
    let w' := if cap < w.buffered.length + data.length then w.flush else w
    ⟨w'.buffered ++ data, w'.file⟩

end Writer

/-- **A write adds its bytes at the end.** -/
@[simp] theorem contents_writeAll (cap : Nat) (w : Writer) (data : Bytes) :
    (w.writeAll cap data).contents = w.contents ++ data := by
  rw [Writer.writeAll]
  split
  · simp [Writer.contents, Writer.flush]
  · simp only
    split
    · simp [Writer.contents, Writer.flush]
    · simp [Writer.contents]

theorem file_flush (w : Writer) : w.flush.file = w.contents := rfl

end BufferedIo
