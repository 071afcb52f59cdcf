import WormDB.Wire
import WormDB.Checked

/-! # A command in a WebSocket message

The gateway takes one command out of each binary message: its id, the length that the
client declares in 32 bits, and as many bytes.  The bound `5 + payload_len` is computed in
the width of the declared length.  The five highest lengths leave it: a build with safety
checks stops there, and one without takes the sum modulo `2 ^ 32`, finds it small, and
cuts the message from 5 to a place before 5 (`frames_iff`). -/
namespace WormDB.Gateway
open ByteCodec ByteReader

/-- Whether the build stops at an overflow, or goes on with what is left in the word. -/
inductive BuildMode where
  | safe | fast
  deriving DecidableEq, Repr

/-- `a + b` as a `u32`. -/
def addU32 : BuildMode → Nat → Nat → Option Nat
  | .safe, a, b => Checked.add 32 a b
  | .fast, a, b => some ((a + b) % 2 ^ 32)

/-- The error frame, which is the same for every message. -/
def wireEncodeError (_msg : Bytes) : Bytes := [0x03, 0x00, 0x00, 0x00, 0x05] ++ ascii "error"

/-- What the gateway does with a message up to the parser. -/
inductive Framing where
  | parse (cmdId : CommandId) (cmdPayload : Bytes)
  | reply (frame : Bytes)
  | trap
  | invalidSlice (start stop : Nat)
  deriving DecidableEq

/-- The length that a message declares. -/
def declaredLen (payload : Bytes) : Nat := beNat (slice payload 1 4)

/-- The cut of the message, once the sum of its bound is known. -/
def cutCommand (cmdId : CommandId) (payload : Bytes) (stop : Nat) : Framing :=
  match Checked.slice payload 5 stop with
  | none => .invalidSlice 5 stop
  | some cmdPayload => .parse cmdId cmdPayload

def frameCommand (mode : BuildMode) (payload : Bytes) : Framing :=
  if payload.length < 5 then .reply (wireEncodeError (ascii "frame too short"))
  else
    match CommandId.ofByte (payload.getD 0 0) with
    | none => .reply (wireEncodeError (ascii "unknown command"))
    | some cmdId =>
        match addU32 mode 5 (declaredLen payload) with
        | none => .trap
        | some stop =>
            if stop > payload.length then .reply (wireEncodeError (ascii "incomplete frame"))
            else cutCommand cmdId payload stop

/-- What is claimed of a message: the parser gets exactly the declared bytes where there is
a known command with all of them, and an error frame goes back everywhere else. -/
structure FramedExactly (mode : BuildMode) (payload : Bytes) : Prop where
  parsed : ∀ cmdId, 5 ≤ payload.length → CommandId.ofByte (payload.getD 0 0) = some cmdId →
    5 + declaredLen payload ≤ payload.length →
    frameCommand mode payload = .parse cmdId (slice payload 5 (declaredLen payload))
  refused : ¬(5 ≤ payload.length ∧ (CommandId.ofByte (payload.getD 0 0)).isSome ∧
    5 + declaredLen payload ≤ payload.length) →
    ∃ frame, frameCommand mode payload = .reply frame

section
variable {mode : BuildMode} {payload : Bytes} {cmdId : CommandId} {a b : Nat}

theorem declaredLen_lt (payload : Bytes) : declaredLen payload < 2 ^ 32 := by
  have hlt := beNat_lt (slice payload 1 4)
  have hlen : (slice payload 1 4).length ≤ 4 := by
    rw [slice, List.length_take]
    exact Nat.min_le_left _ _
  calc declaredLen payload < 256 ^ (slice payload 1 4).length := hlt
    _ ≤ 256 ^ 4 := Nat.pow_le_pow_right (by decide) hlen
    _ = 2 ^ 32 := by decide

/-- Both builds agree on a sum that fits. -/
theorem addU32_eq (h : a + b < 2 ^ 32) : addU32 mode a b = some (a + b) := by
  cases mode with
  | safe => exact Checked.add_eq h
  | fast => exact congrArg some (Nat.mod_eq_of_lt h)

theorem frameCommand_known (hlen : 5 ≤ payload.length)
    (hid : CommandId.ofByte (payload.getD 0 0) = some cmdId)
    (hfit : 5 + declaredLen payload < 2 ^ 32) :
    frameCommand mode payload =
      if 5 + declaredLen payload > payload.length then
        .reply (wireEncodeError (ascii "incomplete frame"))
      else .parse cmdId (slice payload 5 (declaredLen payload)) := by
  rw [frameCommand, if_neg (by omega), hid]
  simp only [addU32_eq hfit]
  split
  case isTrue => rfl
  case isFalse hle =>
    rw [cutCommand, Checked.slice_eq (by omega) (by omega), Nat.add_sub_cancel_left]
    rfl

/-- A sum that leaves the word: no error frame goes back. -/
theorem frameCommand_overflow (mode : BuildMode) (hlen : 5 ≤ payload.length)
    (hid : CommandId.ofByte (payload.getD 0 0) = some cmdId)
    (hover : 2 ^ 32 ≤ 5 + declaredLen payload) :
    frameCommand mode payload = .trap ∨
      ∃ stop, stop < 5 ∧ frameCommand mode payload = .invalidSlice 5 stop := by
  have hlt := declaredLen_lt payload
  rw [frameCommand, if_neg (by omega), hid]
  cases mode with
  | safe =>
    left
    simp only [addU32, Checked.add, if_neg (show ¬5 + declaredLen payload < 2 ^ 32 by omega)]
  | fast =>
    right
    have hsmall : (5 + declaredLen payload) % 2 ^ 32 < 5 := by omega
    refine ⟨_, hsmall, ?_⟩
    simp only [addU32]
    rw [if_neg (by omega), cutCommand, Checked.slice, if_neg (by omega)]

/-- **Framing is exact** but for the lengths whose bound leaves the word, in a message with
a known command. -/
theorem frames_iff (mode : BuildMode) (payload : Bytes) :
    FramedExactly mode payload ↔ payload.length < 5 ∨
      CommandId.ofByte (payload.getD 0 0) = none ∨ declaredLen payload ≤ 2 ^ 32 - 6 := by
  constructor
  · intro h
    by_contra hnot
    simp only [not_or, Nat.not_lt, Nat.not_le] at hnot
    obtain ⟨hlen, hid, hlong⟩ := hnot
    obtain ⟨cmdId, hid⟩ := Option.ne_none_iff_exists'.mp hid
    have hover := frameCommand_overflow mode hlen hid (by omega)
    by_cases hfit : 5 + declaredLen payload ≤ payload.length
    · have hparse := h.parsed cmdId hlen hid hfit
      rcases hover with htrap | ⟨stop, -, hcut⟩
      · exact absurd (hparse.symm.trans htrap) nofun
      · exact absurd (hparse.symm.trans hcut) nofun
    · obtain ⟨frame, hreply⟩ := h.refused fun hall => hfit hall.2.2
      rcases hover with htrap | ⟨stop, -, hcut⟩
      · exact absurd (hreply.symm.trans htrap) nofun
      · exact absurd (hreply.symm.trans hcut) nofun
  · intro h
    constructor
    · intro cmdId hlen hid hfit
      rcases h with hshort | hnone | hsmall
      · omega
      · exact absurd (hnone.symm.trans hid) nofun
      · rw [frameCommand_known hlen hid (by omega), if_neg (by omega)]
    · intro hnot
      by_cases hlen : payload.length < 5
      · exact ⟨_, by rw [frameCommand, if_pos hlen]⟩
      cases hid : CommandId.ofByte (payload.getD 0 0) with
      | none => exact ⟨_, by rw [frameCommand, if_neg hlen, hid]⟩
      | some cmdId =>
        have hsmall : declaredLen payload ≤ 2 ^ 32 - 6 := by
          rcases h with hshort | hnone | hsmall
          · exact absurd hshort hlen
          · exact absurd (hid.symm.trans hnone) nofun
          · exact hsmall
        have hfit : ¬5 + declaredLen payload ≤ payload.length := fun hfit =>
          hnot ⟨by omega, by rw [hid]; rfl, hfit⟩
        exact ⟨_, by
          rw [frameCommand_known (by omega) hid (by omega), if_pos (by omega)]⟩

end

/-- A GET that declares the highest length: neither build answers with an error frame. -/
theorem highest_length :
    frameCommand .safe [0x01, 0xFF, 0xFF, 0xFF, 0xFF] = .trap ∧
      frameCommand .fast [0x01, 0xFF, 0xFF, 0xFF, 0xFF] = .invalidSlice 5 4 ∧
      ∀ mode, ¬FramedExactly mode [0x01, 0xFF, 0xFF, 0xFF, 0xFF] := by
  refine ⟨by decide, by decide, ?_⟩
  intro mode h
  obtain ⟨frame, hreply⟩ := h.refused (by decide)
  cases mode <;> exact absurd hreply nofun

end WormDB.Gateway
