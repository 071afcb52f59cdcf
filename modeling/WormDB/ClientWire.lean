import WormDB.ByteReader
import WormDB.DecimalText
import WormDB.FrameStream
import WormDB.Utf8

/-! # Frames of the TypeScript clients

`apps/bun/src/lib/wire.ts`: a frame is one code byte, the payload's length in four bytes, big
endian, and the payload.  The client takes frames off a buffer into which the socket's chunks
are put as they come (`tryConsumeFrame`). -/
namespace WormDB.ClientWire
open List ByteCodec ByteReader FrameStream

def wireMagic : Bytes := [0x57, 0x57]

def maxPayload : Nat := 16 * 1024 * 1024

/-- What stands between the header's code and the next frame. -/
structure Frame where
  code : UInt8
  payload : Bytes
  fits : payload.length < 256 ^ 4
  deriving DecidableEq

namespace Frame

def bytes (frame : Frame) : Bytes := frame.code :: beBytes 4 frame.payload.length ++ frame.payload

theorem ext_fields {a b : Frame} (hcode : a.code = b.code) (hpayload : a.payload = b.payload) :
    a = b := by
  cases a
  cases b
  cases hcode
  cases hpayload
  rfl

end Frame

inductive ResponseCode where
  | ok | value | null | err | event

def ResponseCode.toByte : ResponseCode → UInt8
  | ok => 0x00
  | value => 0x01
  | null => 0x02
  | err => 0x03
  | event => 0x04

def isEventCode (code : UInt8) : Bool := decide (code = ResponseCode.event.toByte)

/-- A length that stands in four bytes. -/
theorem beNat_slice_lt (bytes : Bytes) (pos : Nat) : beNat (slice bytes pos 4) < 256 ^ 4 := by
  have hlen : (slice bytes pos 4).length ≤ 4 := length_take_le _ _
  exact lt_of_lt_of_le (beNat_lt _) (Nat.pow_le_pow_right (by decide) hlen)

theorem slice_fits (buffer : Bytes) :
    (slice buffer 5 (beNat (slice buffer 1 4))).length < 256 ^ 4 :=
  lt_of_le_of_lt (length_take_le _ _) (beNat_slice_lt buffer 1)

/-- The first frame of the buffer and what remains, when the frame is there as a whole. -/
def tryConsumeFrame (buffer : Bytes) : Option (Frame × Bytes) :=
  if buffer.length < 5 then none
  else
    let code := buffer.getD 0 0
    let payloadLen := beNat (slice buffer 1 4)
    let totalLen := 5 + payloadLen
    if buffer.length < totalLen then none
    else some (⟨code, slice buffer 5 payloadLen, slice_fits buffer⟩, buffer.drop totalLen)

theorem tryConsumeFrame_bytes (frame : Frame) (rest : Bytes) :
    tryConsumeFrame (frame.bytes ++ rest) = some (frame, rest) := by
  have hhead : frame.bytes ++ rest =
      [frame.code] ++ (beBytes 4 frame.payload.length ++ (frame.payload ++ rest)) := by
    simp only [Frame.bytes, cons_append, append_assoc, nil_append]
  have hfour : (beBytes 4 frame.payload.length).length = 4 := beBytes_length _ _
  have hnumber : slice (frame.bytes ++ rest) 1 4 = beBytes 4 frame.payload.length :=
    slice_eq _ _ _ hhead rfl hfour
  have hlen : beNat (slice (frame.bytes ++ rest) 1 4) = frame.payload.length := by
    rw [hnumber, beNat_beBytes_of_lt frame.fits]
  have hbody : frame.bytes ++ rest =
      ([frame.code] ++ beBytes 4 frame.payload.length) ++ (frame.payload ++ rest) := by
    rw [hhead, append_assoc]
  have hfive : ([frame.code] ++ beBytes 4 frame.payload.length).length = 5 := by
    rw [length_append, hfour, length_singleton]
  have htotal : (frame.bytes ++ rest).length = 5 + (frame.payload.length + rest.length) := by
    simp only [hbody, length_append, hfour, length_singleton]
  have hwhole : ¬ (frame.bytes ++ rest).length <
      5 + beNat (slice (frame.bytes ++ rest) 1 4) := by
    rw [hlen]
    omega
  rw [tryConsumeFrame, if_neg (by omega), if_neg hwhole]
  refine congrArg some (Prod.ext (Frame.ext_fields ?_ ?_) ?_)
  · exact getD_eq [] _ hhead rfl
  · exact slice_eq _ _ _ hbody hfive hlen.symm
  · dsimp only
    rw [hlen, hbody, ← append_assoc, drop_left']
    rw [length_append, hfive]

theorem bytes_of_tryConsumeFrame (buffer : Bytes) (frame : Frame) (remaining : Bytes)
    (h : tryConsumeFrame buffer = some (frame, remaining)) : buffer = frame.bytes ++ remaining := by
  rw [tryConsumeFrame] at h
  split at h
  · cases h
  rename_i hfive
  dsimp only at h
  split at h
  · cases h
  rename_i htotal
  cases h
  rcases buffer with _ | ⟨code, buffer⟩
  · exact absurd (Nat.zero_lt_succ _) hfive
  have hlen : (slice (code :: buffer) 1 4).length = 4 := by
    rw [slice, length_take, length_drop]
    omega
  have hpayload : (slice (code :: buffer) 5 (beNat (slice (code :: buffer) 1 4))).length =
      beNat (slice (code :: buffer) 1 4) := by
    rw [slice, length_take, length_drop]
    omega
  have hnumber := beBytes_beNat (slice (code :: buffer) 1 4)
  rw [hlen] at hnumber
  rw [Frame.bytes]
  dsimp only
  rw [hpayload, hnumber]
  -- the three parts are cut out one behind the other
  have hdrop : (code :: buffer).drop (5 + beNat (slice (code :: buffer) 1 4)) =
      (buffer.drop 4).drop (beNat (slice (code :: buffer) 1 4)) := by
    rw [drop_drop, show 5 + beNat (slice (code :: buffer) 1 4) =
      (4 + beNat (slice (code :: buffer) 1 4)) + 1 by omega, drop_succ_cons]
  rw [hdrop]
  generalize beNat (slice (code :: buffer) 1 4) = len
  simp only [slice, drop_succ_cons, drop_zero, cons_append, append_assoc,
    take_append_drop, getD_cons_zero]

/-- Requests and responses are framed alike. -/
def framing : Framing Frame where
  encode := Frame.bytes
  next := tryConsumeFrame
  next_encode := tryConsumeFrame_bytes
  encode_of_next := bytes_of_tryConsumeFrame
  encode_pos _ := Nat.succ_pos _

/-! ## Commands -/

inductive CommandCode where
  | get | set | del | status | clusterStatus | sub | unsub | pub | exec | clusterPeers | save
  | auth | vinsert | vdelete | vbulkinsert
  deriving DecidableEq

def CommandCode.toByte : CommandCode → UInt8
  | get => 0x01
  | set => 0x02
  | del => 0x03
  | status => 0x04
  | clusterStatus => 0x05
  | sub => 0x06
  | unsub => 0x07
  | pub => 0x08
  | exec => 0x09
  | clusterPeers => 0x0A
  | save => 0x0B
  | auth => 0x0C
  | vinsert => 0x0D
  | vdelete => 0x0E
  | vbulkinsert => 0x0F

/-- What `writeFrame` makes: it refuses longer payloads. -/
structure CommandFrame where
  code : CommandCode
  payload : Bytes
  fits : payload.length ≤ maxPayload
  deriving DecidableEq

namespace CommandFrame

def frame (command : CommandFrame) : Frame :=
  ⟨command.code.toByte, command.payload, lt_of_le_of_lt command.fits (by decide)⟩

def bytes (command : CommandFrame) : Bytes := command.frame.bytes

end CommandFrame

/-! ## Responses -/

/-- The browser's decoder calls `bulk` a `value`. -/
inductive WormResponse where
  | ok
  | error (message : Bytes)
  | null
  | bulk (value : Bytes)
  | event (channel message : Bytes)

def malformedEvent : WormResponse := .error (ascii "Malformed event response")

/-- Texts are the bytes of what the decoder makes of them. -/
def decodeResponse (code : UInt8) (payload : Bytes) : WormResponse :=
  if code = ResponseCode.ok.toByte then .ok
  else if code = ResponseCode.value.toByte then .bulk (Utf8.decode payload)
  else if code = ResponseCode.null.toByte then .null
  else if code = ResponseCode.err.toByte then .error (Utf8.decode payload)
  else if code = ResponseCode.event.toByte then
    if payload.length < 8 then malformedEvent
    else
      let channelLen := beNat (slice payload 0 4)
      if payload.length < 4 + channelLen + 4 then malformedEvent
      else
        let channelEnd := 4 + channelLen
        let msgLen := beNat (slice payload channelEnd 4)
        let msgStart := channelEnd + 4
        let msgEnd := msgStart + msgLen
        if msgEnd > payload.length then malformedEvent
        else
          .event (Utf8.decode (slice payload 4 channelLen))
            (Utf8.decode (slice payload msgStart msgLen))
  else .error (ascii "Unknown response code: " ++ DecimalText.digits code.toNat)

def WormResponse.isError : WormResponse → Bool
  | error _ => true
  | _ => false

namespace Browser

def malformedEvent : WormResponse := .error (ascii "malformed event")

/-- `code.toString(16)`. -/
def hexText (code : UInt8) : Bytes :=
  (Nat.toDigits 16 code.toNat).map (fun c => c.toNat.toUInt8)

/-- `decodeResponse` of `apps/browser/src/wire.ts`: one message of the WebSocket is one frame. -/
def decodeResponse (data : Bytes) : WormResponse :=
  if data.length < 5 then .error (ascii "frame too short")
  else
    let code := data.getD 0 0
    let payloadLen := beNat (slice data 1 4)
    let payload := slice data 5 payloadLen
    if code = ResponseCode.ok.toByte then .ok
    else if code = ResponseCode.value.toByte then .bulk (Utf8.decode payload)
    else if code = ResponseCode.null.toByte then .null
    else if code = ResponseCode.err.toByte then .error (Utf8.decode payload)
    else if code = ResponseCode.event.toByte then
      if payload.length < 8 then malformedEvent
      else
        let chLen := beNat (slice payload 0 4)
        let chEnd := 4 + chLen
        if chEnd + 4 > payload.length then malformedEvent
        else
          let msgLen := beNat (slice payload chEnd 4)
          let msgStart := chEnd + 4
          let msgEnd := msgStart + msgLen
          if msgEnd > payload.length then malformedEvent
          else
            .event (Utf8.decode (slice payload 4 chLen))
              (Utf8.decode (slice payload msgStart msgLen))
    else .error (ascii "unknown response code: 0x" ++ hexText code)

end Browser

def WormResponse.isEvent : WormResponse → Bool
  | event _ _ => true
  | _ => false

end WormDB.ClientWire
