import WormDB.ByteCodec

/-! # Frames on a byte stream

A framing says how a value is laid out at the front of a stream and how it is taken off again
(`Framing`).  A stream of frames that is cut anywhere has one reading: what has arrived gives a
first part of the frames, and what is left over is where the next of them starts
(`split_isPrefix`, `split_append`). -/
namespace FrameStream
open List ByteCodec

/-- A code in which no frame is the beginning of another. -/
structure Framing (α : Type) where
  encode : α → Bytes
  next : Bytes → Option (α × Bytes)
  next_encode : ∀ x rest, next (encode x ++ rest) = some (x, rest)
  encode_of_next : ∀ bytes x rest, next bytes = some (x, rest) → bytes = encode x ++ rest
  encode_pos : ∀ x, 0 < (encode x).length

namespace Framing
variable {α : Type} (F : Framing α)

def takeFrames : Nat → Bytes → List α × Bytes
  | 0, bytes => ([], bytes)
  | fuel + 1, bytes =>
      match F.next bytes with
      | none => ([], bytes)
      | some (x, rest) => (x :: (takeFrames fuel rest).1, (takeFrames fuel rest).2)

/-- The whole frames at the front of the bytes, and what is left. -/
def split (bytes : Bytes) : List α × Bytes := F.takeFrames bytes.length bytes

/-- The frames one after the other. -/
def encodeAll (xs : List α) : Bytes := xs.flatMap F.encode

theorem encodeAll_append (xs ys : List α) :
    F.encodeAll (xs ++ ys) = F.encodeAll xs ++ F.encodeAll ys := flatMap_append

variable {F}

theorem takeFrames_eq (fuel : Nat) (bytes : Bytes) :
    F.encodeAll (F.takeFrames fuel bytes).1 ++ (F.takeFrames fuel bytes).2 = bytes := by
  induction fuel generalizing bytes with
  | zero => rfl
  | succ fuel ih =>
    rw [takeFrames]
    rcases hnext : F.next bytes with _ | ⟨x, rest⟩
    · rfl
    · rw [encodeAll, flatMap_cons, append_assoc]
      exact (congrArg _ (ih rest)).trans (F.encode_of_next bytes x rest hnext).symm

/-- Nothing is lost. -/
theorem split_eq (bytes : Bytes) :
    F.encodeAll (F.split bytes).1 ++ (F.split bytes).2 = bytes := takeFrames_eq _ _

variable {ys : List α} {rest : Bytes}

/-- Frames that start a stream of frames are the first of them. -/
theorem encodeAll_isPrefix {xs : List α} (h : F.encodeAll xs ++ rest = F.encodeAll ys) :
    ∃ zs, ys = xs ++ zs ∧ rest = F.encodeAll zs := by
  induction xs generalizing ys with
  | nil => exact ⟨ys, rfl, h⟩
  | cons x xs ih =>
    rw [encodeAll, flatMap_cons, append_assoc] at h
    have hx := F.next_encode x (xs.flatMap F.encode ++ rest)
    rw [h] at hx
    rcases ys with _ | ⟨y, ys⟩
    · have hlen := congrArg List.length h
      have hpos := F.encode_pos x
      simp only [length_append, encodeAll, flatMap_nil, length_nil] at hlen
      omega
    · rw [encodeAll, flatMap_cons, F.next_encode] at hx
      obtain ⟨rfl, hrest⟩ := Prod.mk.inj (Option.some.inj hx)
      obtain ⟨zs, rfl, hzs⟩ := ih hrest.symm
      exact ⟨zs, rfl, hzs⟩

/-- **What has arrived of a stream of frames reads as the first of them.** -/
theorem split_isPrefix {bytes : Bytes} (h : bytes ++ rest = F.encodeAll ys) :
    ∃ zs, ys = (F.split bytes).1 ++ zs ∧ (F.split bytes).2 ++ rest = F.encodeAll zs := by
  refine encodeAll_isPrefix ?_
  rw [← append_assoc, split_eq, h]

theorem takeFrames_append {fuel fuel' : Nat} (hle : fuel ≤ fuel') (bytes more : Bytes) :
    (F.takeFrames fuel bytes).1 <+: (F.takeFrames fuel' (bytes ++ more)).1 := by
  induction fuel generalizing fuel' bytes with
  | zero => exact nil_prefix
  | succ fuel ih =>
    obtain ⟨fuel', rfl⟩ := Nat.exists_eq_add_of_le' (Nat.lt_of_lt_of_le (Nat.succ_pos fuel) hle)
    rw [takeFrames, takeFrames]
    rcases hnext : F.next bytes with _ | ⟨x, rest⟩
    · exact nil_prefix
    · -- the frame stands in front of what comes later too
      have hmore : F.next (bytes ++ more) = some (x, rest ++ more) := by
        rw [F.encode_of_next bytes x rest hnext, append_assoc, F.next_encode]
      rw [hmore]
      exact cons_prefix_cons.mpr ⟨rfl, ih (Nat.le_of_succ_le_succ hle) rest⟩

/-- Later bytes change nothing about the frames that are there. -/
theorem split_append (bytes more : Bytes) : (F.split bytes).1 <+: (F.split (bytes ++ more)).1 := by
  refine takeFrames_append ?_ bytes more
  rw [length_append]
  omega

end Framing
end FrameStream
