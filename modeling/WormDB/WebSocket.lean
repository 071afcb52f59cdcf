import WormDB.ChunkedStream
import Mathlib.Data.List.GetD

/-! # WebSocket frames of the gateway

A frame is two bytes, the rest of a length that does not fit the second one, a mask of
four bytes where the mask bit is set, and the payload.  `readWsFrame` takes one off a
stream that hands its bytes over in any pieces; the payload is unmasked in place, sixteen
bytes at a time and then byte by byte, the place carried from one loop to the other.  Both
loops together are the scalar rule (`unmask_eq`). -/
namespace WormDB.WebSocket
open List ByteCodec ChunkedStream

/-! ## Unmasking -/

/-- The mask, four times over. -/
def maskVec (maskKey : Bytes) : Bytes := maskKey ++ maskKey ++ maskKey ++ maskKey

/-- `buf[j..][0..16].* = chunk` -/
def putChunk (buf : Bytes) (j : Nat) (chunk : Bytes) : Bytes :=
  buf.take j ++ chunk ++ buf.drop (j + 16)

def xorChunk (chunk mask : Bytes) : Bytes := zipWith (· ^^^ ·) chunk mask

/-- The loop over whole vectors; also where it stops. -/
def vectorLoop (mask : Bytes) : Nat → Bytes → Nat → Bytes × Nat
  | 0, buf, j => (buf, j)
  | fuel + 1, buf, j =>
      if j + 16 ≤ buf.length then
        vectorLoop mask fuel (putChunk buf j (xorChunk (slice buf j 16) mask)) (j + 16)
      else (buf, j)

/-- The loop over what is left. -/
def scalarLoop (maskKey : Bytes) : Nat → Bytes → Nat → Bytes
  | 0, buf, _ => buf
  | fuel + 1, buf, j =>
      if j < buf.length then
        scalarLoop maskKey fuel (buf.set j (buf.getD j 0 ^^^ maskKey.getD (j % 4) 0)) (j + 1)
      else buf

/-- Each loop goes on for as many rounds as the buffer has bytes, at most. -/
def unmask (maskKey buf : Bytes) : Bytes :=
  let (buf, j) := vectorLoop (maskVec maskKey) (buf.length + 1) buf 0
  scalarLoop maskKey (buf.length + 1) buf j

/-- The scalar rule, from the `j`-th byte on. -/
def xorFrom (maskKey : Bytes) : Nat → Bytes → Bytes
  | _, [] => []
  | j, b :: bs => (b ^^^ maskKey.getD (j % 4) 0) :: xorFrom maskKey (j + 1) bs

section
variable {maskKey : Bytes}

@[simp] theorem xorFrom_length (j : Nat) (bs : Bytes) :
    (xorFrom maskKey j bs).length = bs.length := by
  induction bs generalizing j with
  | nil => rfl
  | cons b bs ih => rw [xorFrom, length_cons, ih, length_cons]

theorem xorFrom_append (maskKey : Bytes) (j : Nat) (xs ys : Bytes) :
    xorFrom maskKey j (xs ++ ys) = xorFrom maskKey j xs ++ xorFrom maskKey (j + xs.length) ys := by
  induction xs generalizing j with
  | nil => rfl
  | cons x xs ih =>
    rw [cons_append, xorFrom, ih, xorFrom, length_cons, cons_append,
      Nat.add_right_comm, add_assoc j]

theorem xorFrom_getD (maskKey : Bytes) (j i : Nat) {bs : Bytes} (h : i < bs.length) :
    (xorFrom maskKey j bs).getD i 0 = bs.getD i 0 ^^^ maskKey.getD ((j + i) % 4) 0 := by
  induction bs generalizing j i with
  | nil => exact absurd h (Nat.not_lt_zero _)
  | cons b bs ih =>
    cases i with
    | zero => rfl
    | succ i =>
      rw [xorFrom, getD_cons_succ, getD_cons_succ,
        ih (j + 1) i (Nat.lt_of_succ_lt_succ h), Nat.add_right_comm, add_assoc]

/-- The vector of four masks, at each of its places. -/
theorem maskVec_getD (h : maskKey.length = 4) {i : Nat} (hi : i < 16) :
    (maskVec maskKey).getD i 0 = maskKey.getD (i % 4) 0 := by
  rw [maskVec]
  rcases Nat.lt_or_ge i 12 with h12 | h12
  · rw [getD_append _ _ _ _ (by simp only [length_append, h]; omega)]
    rcases Nat.lt_or_ge i 8 with h8 | h8
    · rw [getD_append _ _ _ _ (by simp only [length_append, h]; omega)]
      rcases Nat.lt_or_ge i 4 with h4 | h4
      · rw [getD_append _ _ _ _ (by omega), Nat.mod_eq_of_lt h4]
      · rw [getD_append_right _ _ _ _ (by omega), h]
        congr 1
        omega
    · rw [getD_append_right _ _ _ _ (by simp only [length_append, h]; omega)]
      simp only [length_append, h]
      congr 1
      omega
  · rw [getD_append_right _ _ _ _ (by simp only [length_append, h]; omega)]
    simp only [length_append, h]
    congr 1
    omega

theorem maskVec_length (h : maskKey.length = 4) : (maskVec maskKey).length = 16 := by
  simp only [maskVec, length_append, h]

/-- **A vector of sixteen** from a multiple of four on is the scalar rule. -/
theorem xorChunk_eq (h : maskKey.length = 4) {chunk : Bytes} (hchunk : chunk.length = 16)
    {j : Nat} (hj : j % 4 = 0) : xorChunk chunk (maskVec maskKey) = xorFrom maskKey j chunk := by
  have hlen : (xorChunk chunk (maskVec maskKey)).length = 16 := by
    rw [xorChunk, length_zipWith, hchunk, maskVec_length h]
    rfl
  apply ext_getElem (by rw [hlen, xorFrom_length, hchunk])
  intro i hi hi'
  have hi16 : i < 16 := hlen ▸ hi
  have hmask := maskVec_getD h hi16
  have hfrom := xorFrom_getD maskKey j i (show i < chunk.length by omega)
  rw [← getD_eq_getElem _ 0 hi', hfrom, show (j + i) % 4 = i % 4 by omega, ← hmask,
    getD_eq_getElem _ 0 (by omega), getD_eq_getElem _ 0 (by rw [maskVec_length h]; omega)]
  exact getElem_zipWith

/-! Each loop keeps what stands before its place and applies the rule from there on. -/

theorem vectorLoop_spec (h : maskKey.length = 4) (fuel : Nat) (pre rest : Bytes)
    (hj : pre.length % 4 = 0) (hfuel : rest.length < fuel) :
    ∃ pre' rest', vectorLoop (maskVec maskKey) fuel (pre ++ rest) pre.length =
        (pre' ++ rest', pre'.length) ∧
      pre' ++ xorFrom maskKey pre'.length rest' = pre ++ xorFrom maskKey pre.length rest := by
  induction fuel generalizing pre rest with
  | zero => exact absurd hfuel (Nat.not_lt_zero _)
  | succ fuel ih =>
    rw [vectorLoop, length_append]
    by_cases h16 : pre.length + 16 ≤ pre.length + rest.length
    · rw [if_pos h16]
      have hchunk : (rest.take 16).length = 16 := by
        rw [length_take]
        omega
      have hslice : slice (pre ++ rest) pre.length 16 = rest.take 16 := by
        rw [slice, drop_left]
      have hnext : pre.length + 16 = (pre ++ xorFrom maskKey pre.length (rest.take 16)).length := by
        rw [length_append, xorFrom_length, hchunk]
      have hput : putChunk (pre ++ rest) pre.length (xorFrom maskKey pre.length (rest.take 16)) =
          pre ++ xorFrom maskKey pre.length (rest.take 16) ++ rest.drop 16 := by
        rw [putChunk, take_left, drop_append, drop_of_length_le (by omega),
          Nat.add_sub_cancel_left, nil_append]
      rw [hslice, xorChunk_eq h hchunk hj, hput, hnext]
      obtain ⟨pre', rest', hloop, heq⟩ := ih (pre ++ xorFrom maskKey pre.length (rest.take 16))
        (rest.drop 16) (by omega) (by rw [length_drop]; omega)
      have hsplit : xorFrom maskKey pre.length (rest.take 16) ++
          xorFrom maskKey (pre.length + 16) (rest.drop 16) = xorFrom maskKey pre.length rest := by
        have happ := xorFrom_append maskKey pre.length (rest.take 16) (rest.drop 16)
        rw [take_append_drop, hchunk] at happ
        exact happ.symm
      refine ⟨pre', rest', hloop, heq.trans ?_⟩
      rw [← hnext, append_assoc, hsplit]
    · rw [if_neg h16]
      exact ⟨pre, rest, rfl, rfl⟩

theorem scalarLoop_spec (fuel : Nat) (pre rest : Bytes) (hfuel : rest.length < fuel) :
    scalarLoop maskKey fuel (pre ++ rest) pre.length =
      pre ++ xorFrom maskKey pre.length rest := by
  induction fuel generalizing pre rest with
  | zero => exact absurd hfuel (Nat.not_lt_zero _)
  | succ fuel ih =>
    rw [scalarLoop, length_append]
    cases rest with
    | nil =>
      rw [if_neg (by simp)]
      rfl
    | cons b rest =>
      rw [if_pos (by simp)]
      have hset : (pre ++ b :: rest).set pre.length
          ((pre ++ b :: rest).getD pre.length 0 ^^^ maskKey.getD (pre.length % 4) 0) =
          (pre ++ [b ^^^ maskKey.getD (pre.length % 4) 0]) ++ rest := by
        rw [set_append_right _ _ (Nat.le_refl _),
          getD_append_right _ _ _ _ (Nat.le_refl _), Nat.sub_self, append_assoc]
        rfl
      have hnext : pre.length + 1 =
          (pre ++ [b ^^^ maskKey.getD (pre.length % 4) 0]).length := by
        rw [length_append, length_singleton]
      rw [hset, hnext, ih _ _ (by rw [length_cons] at hfuel; omega), ← hnext,
        append_assoc]
      rfl

/-- **The two loops are the scalar rule**, at every length. -/
theorem unmask_eq (h : maskKey.length = 4) (buf : Bytes) :
    unmask maskKey buf = xorFrom maskKey 0 buf := by
  obtain ⟨pre, rest, hloop, heq⟩ := vectorLoop_spec h (buf.length + 1) [] buf rfl
    (Nat.lt_succ_self _)
  have hlen : rest.length < (pre ++ rest).length + 1 := by
    rw [length_append]
    omega
  simp only [nil_append, length_nil] at hloop heq
  rw [unmask, hloop]
  exact (scalarLoop_spec _ _ _ hlen).trans heq

end

/-! ## Reading a frame -/

/-- 16 MiB. -/
def maxFrame : Nat := 16 * 1024 * 1024

structure WsFrame where
  opcode : UInt8
  payload : Bytes
  deriving DecidableEq

/-- The payload's length: in the second byte, or in two or eight bytes behind it. -/
def readPayloadLen (stream : Stream) (short : Nat) : Option (Nat × Stream) :=
  if short = 126 then (stream.readExact 2).map fun r => (beNat r.1, r.2)
  else if short = 127 then (stream.readExact 8).map fun r => (beNat r.1, r.2)
  else some (short, stream)

/-- The mask and the payload, which is unmasked where it was masked. -/
def readPayload (allocates : Nat → Bool) (masked : Bool) (payloadLen : Nat) (stream : Stream) :
    Option (Bytes × Stream) := do
  if payloadLen > maxFrame then none
  else
    let (maskKey, stream) ← if masked then stream.readExact 4 else some ([], stream)
    if allocates payloadLen = false then none
    else
      let (buf, stream) ← stream.readExact payloadLen
      some (if masked then unmask maskKey buf else buf, stream)

/-- One frame off the stream.  `allocates` says which buffers there is memory for.  The
final-fragment bit is not looked at. -/
def readWsFrame (allocates : Nat → Bool) (stream : Stream) : Option (WsFrame × Stream) := do
  let (header, stream) ← stream.readExact 2
  let opcode := header.getD 0 0 &&& 0x0F
  let masked := header.getD 1 0 &&& 0x80 ≠ 0
  let (payloadLen, stream) ← readPayloadLen stream (header.getD 1 0 &&& 0x7F).toNat
  let (payload, stream) ← readPayload allocates masked payloadLen stream
  some (⟨opcode, payload⟩, stream)

/-- How a frame may give the length `n`: a value of seven bits, and bytes behind it. -/
inductive LengthField (n : Nat) : UInt8 → Bytes → Prop where
  | short (h : n < 126) : LengthField n n.toUInt8 []
  | medium (h : n < 2 ^ 16) : LengthField n 126 (beBytes 2 n)
  | long (h : n < 2 ^ 64) : LengthField n 127 (beBytes 8 n)

/-- The bytes of a masked frame, as a client sends it: `raw` is the masked payload. -/
structure ClientFrame (bytes : Bytes) where
  first : UInt8
  short : UInt8
  ext : Bytes
  maskKey : Bytes
  raw : Bytes
  final : first &&& 0x80 = 0x80
  field : LengthField raw.length short ext
  key : maskKey.length = 4
  eq : bytes = first :: (0x80 ||| short) :: ext ++ maskKey ++ raw

section
variable {n : Nat} {short : UInt8} {ext : Bytes} {stream : Stream} {rest : Bytes}

theorem LengthField.short_lt (h : LengthField n short ext) : short.toNat < 128 := by
  cases h with
  | short h =>
    rw [toNat_toUInt8]
    omega
  | medium h | long h => decide

/-- The mask bit on top of a length of seven bits. -/
theorem maskBit (h : short.toNat < 128) :
    (0x80 ||| short) &&& 0x7F = short ∧ (0x80 ||| short) &&& 0x80 ≠ 0 ∧ short &&& 0x7F = short ∧
      short &&& 0x80 = 0 := by
  obtain ⟨k, hk, rfl⟩ : ∃ k, k < 128 ∧ short = k.toUInt8 :=
    ⟨short.toNat, h, (UInt8.ofNat_toNat).symm⟩
  revert hk k
  decide

theorem readPayloadLen_eq (h : LengthField n short ext) (hs : stream.bytes = ext ++ rest) :
    ∃ stream', readPayloadLen stream short.toNat = some (n, stream') ∧
      stream'.bytes = rest := by
  cases h with
  | short h =>
    refine ⟨stream, ?_, hs⟩
    have hn : n.toUInt8.toNat = n := by
      rw [toNat_toUInt8]
      omega
    rw [readPayloadLen, hn, if_neg (by omega), if_neg (by omega)]
  | medium h =>
    obtain ⟨stream', hread, hrest⟩ := readExact_append hs
    rw [beBytes_length] at hread
    refine ⟨stream', ?_, hrest⟩
    rw [readPayloadLen, if_pos (by decide), hread, Option.map_some, beNat_beBytes_of_lt h]
  | long h =>
    obtain ⟨stream', hread, hrest⟩ := readExact_append hs
    rw [beBytes_length] at hread
    refine ⟨stream', ?_, hrest⟩
    rw [readPayloadLen, if_neg (by decide), if_pos (by decide), hread, Option.map_some,
      beNat_beBytes_of_lt h]

/-- The two bytes and the length. -/
theorem readWsFrame_head (allocates : Nat → Bool) {first second : UInt8}
    (h : LengthField n short ext) (hsecond : second &&& 0x7F = short)
    (hs : stream.bytes = first :: second :: ext ++ rest) :
    ∃ stream', stream'.bytes = rest ∧ readWsFrame allocates stream =
      (readPayload allocates (second &&& 0x80 ≠ 0) n stream').map
        fun r => (⟨first &&& 0x0F, r.1⟩, r.2) := by
  obtain ⟨stream₁, hread, hs₁⟩ := readExact_append
    (show stream.bytes = [first, second] ++ (ext ++ rest) from hs)
  obtain ⟨stream₂, hlen, hs₂⟩ := readPayloadLen_eq h hs₁
  refine ⟨stream₂, hs₂, ?_⟩
  have hheader : stream.readExact 2 = some ([first, second], stream₁) := hread
  subst hsecond
  simp only [readWsFrame, hheader, bind, Option.bind_some, getD_cons_zero,
    getD_cons_succ, hlen]
  cases readPayload allocates (second &&& 0x80 ≠ 0) n stream₂ <;> rfl

variable {allocates : Nat → Bool} {raw : Bytes}

theorem readPayload_masked {maskKey : Bytes}
    (hkey : maskKey.length = 4) (hmax : raw.length ≤ maxFrame)
    (halloc : allocates raw.length = true) (hs : stream.bytes = maskKey ++ (raw ++ rest)) :
    ∃ stream', readPayload allocates true raw.length stream =
      some (xorFrom maskKey 0 raw, stream') ∧ stream'.bytes = rest := by
  obtain ⟨stream₁, hread₁, hs₁⟩ := readExact_append hs
  obtain ⟨stream₂, hread₂, hs₂⟩ := readExact_append hs₁
  rw [hkey] at hread₁
  refine ⟨stream₂, ?_, hs₂⟩
  rw [readPayload, if_neg (Nat.not_lt.mpr hmax), if_pos rfl, hread₁]
  simp only [bind, Option.bind_some, halloc, hread₂, reduceIte, unmask_eq hkey]
  rfl

theorem readPayload_plain (hmax : raw.length ≤ maxFrame)
    (halloc : allocates raw.length = true) (hs : stream.bytes = raw ++ rest) :
    ∃ stream', readPayload allocates false raw.length stream = some (raw, stream') ∧
      stream'.bytes = rest := by
  obtain ⟨stream₁, hread₁, hs₁⟩ := readExact_append hs
  refine ⟨stream₁, ?_, hs₁⟩
  rw [readPayload, if_neg (Nat.not_lt.mpr hmax)]
  simp only [bind, Option.bind_some, halloc, hread₁]
  rfl

theorem readPayload_tooLong {masked : Bool} (h : maxFrame < n) :
    readPayload allocates masked n stream = none := by
  rw [readPayload, if_pos h]

variable {bytes : Bytes}

/-- **A client's frame is read**: its opcode, and its payload under the mask. -/
theorem readWsFrame_client (allocates : Nat → Bool) (frame : ClientFrame bytes)
    (hs : stream.bytes = bytes ++ rest) (hmax : frame.raw.length ≤ maxFrame)
    (halloc : allocates frame.raw.length = true) : ∃ stream', readWsFrame allocates stream =
      some (⟨frame.first &&& 0x0F, xorFrom frame.maskKey 0 frame.raw⟩, stream') ∧
      stream'.bytes = rest := by
  obtain ⟨hlow, hhigh, -, -⟩ := maskBit frame.field.short_lt
  rw [frame.eq, append_assoc, append_assoc] at hs
  obtain ⟨stream₁, hs₁, hread⟩ := readWsFrame_head allocates frame.field hlow hs
  obtain ⟨stream₂, hpayload, hs₂⟩ := readPayload_masked frame.key hmax halloc hs₁
  refine ⟨stream₂, ?_, hs₂⟩
  rw [hread, decide_eq_true hhigh, hpayload]
  rfl

/-- A client's frame past the limit is refused. -/
theorem readWsFrame_client_tooLong (frame : ClientFrame bytes) (hs : stream.bytes = bytes ++ rest)
    (hmax : maxFrame < frame.raw.length) : readWsFrame allocates stream = none := by
  obtain ⟨hlow, -, -, -⟩ := maskBit frame.field.short_lt
  rw [frame.eq, append_assoc, append_assoc] at hs
  obtain ⟨stream₁, hs₁, hread⟩ := readWsFrame_head allocates frame.field hlow hs
  rw [hread, readPayload_tooLong hmax]
  rfl

end

/-! ## Sending a frame -/

/-- The header in front of a payload of `n` bytes, not masked. -/
def sendHeader (opcode : UInt8) (n : Nat) : Bytes :=
  if n < 126 then [0x80 ||| opcode, n.toUInt8]
  else if n ≤ 65535 then [0x80 ||| opcode, 126] ++ beBytes 2 n
  else [0x80 ||| opcode, 127] ++ beBytes 8 n

/-- The header gives the length. -/
theorem sendHeader_field {n : Nat} (h : n < 2 ^ 64) (opcode : UInt8) :
    ∃ short ext, LengthField n short ext ∧
      sendHeader opcode n = (0x80 ||| opcode) :: short :: ext := by
  unfold sendHeader
  by_cases h126 : n < 126
  · rw [if_pos h126]
    exact ⟨_, _, .short h126, rfl⟩
  rw [if_neg h126]
  by_cases h65536 : n ≤ 65535
  · rw [if_pos h65536]
    exact ⟨_, _, .medium (by omega), rfl⟩
  · rw [if_neg h65536]
    exact ⟨_, _, .long h, rfl⟩

section
variable {stream : Stream} {payload rest : Bytes}

/-- A frame that the server sent is read. -/
theorem readWsFrame_server (allocates : Nat → Bool) (opcode : UInt8)
    (hs : stream.bytes = sendHeader opcode payload.length ++ (payload ++ rest))
    (hmax : payload.length ≤ maxFrame) (halloc : allocates payload.length = true) :
    ∃ stream', readWsFrame allocates stream =
      some (⟨(0x80 ||| opcode) &&& 0x0F, payload⟩, stream') ∧ stream'.bytes = rest := by
  obtain ⟨short, ext, hfield, hheader⟩ := sendHeader_field (n := payload.length)
    (Nat.lt_of_le_of_lt hmax (by decide)) opcode
  obtain ⟨-, -, hlow, hhigh⟩ := maskBit hfield.short_lt
  rw [hheader] at hs
  obtain ⟨stream₁, hs₁, hread⟩ := readWsFrame_head allocates hfield hlow hs
  obtain ⟨stream₂, hpayload, hs₂⟩ := readPayload_plain hmax halloc hs₁
  refine ⟨stream₂, ?_, hs₂⟩
  rw [hread, hhigh, show decide ((0 : UInt8) ≠ 0) = false from rfl, hpayload]
  rfl

/-- A frame past the limit is refused. -/
theorem readWsFrame_server_tooLong {allocates : Nat → Bool} (opcode : UInt8)
    (hs : stream.bytes = sendHeader opcode payload.length ++ (payload ++ rest))
    (hmax : maxFrame < payload.length) (hlt : payload.length < 2 ^ 64) :
    readWsFrame allocates stream = none := by
  obtain ⟨short, ext, hfield, hheader⟩ := sendHeader_field hlt opcode
  obtain ⟨-, -, hlow, -⟩ := maskBit hfield.short_lt
  rw [hheader] at hs
  obtain ⟨stream₁, hs₁, hread⟩ := readWsFrame_head allocates hfield hlow hs
  rw [hread, readPayload_tooLong hmax]
  rfl

end

end WormDB.WebSocket
