import WormDB.WireWriters

/-! # The gateway's two ways to send a response

A response is encoded behind ten reserved bytes of a fixed buffer, the header of its
WebSocket frame is put into the last of them, and both go to the stream in one write.  A
response that does not fit is encoded into a list and sent as any frame is.  Either way
the stream gets the bytes that `sendWsFrame` writes for the encoded response
(`sendWireResponseFrame_bytes`). -/
namespace WormDB.Gateway
open List ByteCodec ChunkedStream Recorder WebSocket

inductive SendFault where
  | wire (fault : WireFault)
  | noSpaceLeft | outOfMemory

/-- A run of writes to the stream. -/
abbrev Sends := RecordM Bytes SendFault Unit

/-- The header and the payload are two writes. -/
def sendWsFrame (opcode : UInt8) (payload : Bytes) : Sends := do
  record (sendHeader opcode payload.length)
  if payload.length > 0 then record payload else pure ()

/-- `FixedBufWriter.writeAll`, by what is written so far. -/
def fixedWrite (capacity : Nat) (written data : Bytes) : Except SendFault Bytes :=
  if written.length + data.length > capacity then .error .noSpaceLeft else .ok (written ++ data)

/-- `WireListWriter.writeAll`; `allocates` says to which lengths the list can grow. -/
def listWrite (allocates : Nat → Bool) (list data : Bytes) : Except SendFault Bytes :=
  if allocates (list.length + data.length) = false then .error .outOfMemory
  else .ok (list ++ data)

/-- A run of writes through a writer: the writer's failure comes first. -/
def writeInto (writeAll : Bytes → Bytes → Except SendFault Bytes) (writes : Writes) :
    Except SendFault Bytes :=
  let (outcome, pieces) := writes.run.run []
  do
    let written ← pieces.foldlM writeAll []
    match outcome with
    | .ok () => .ok written
    | .error fault => .error (.wire fault)

def encodeWireResponseAlloc (allocates : Nat → Bool) (response : Response) :
    Except SendFault Bytes := do
  let encoded ← writeInto (listWrite allocates) (WireWriter.writeResponse response)
  -- `toOwnedSlice`
  if allocates encoded.length = false then .error .outOfMemory else .ok encoded

/-- `buf[i..][0..data.len].* = data` -/
def putAt (buf : Bytes) (i : Nat) (data : Bytes) : Bytes :=
  buf.take i ++ data ++ buf.drop (i + data.length)

/-- What goes to the stream from the fixed buffer: `reserved` are the ten bytes in front of
the payload, which hold anything before the header is put there. -/
def fixedFrame (reserved payload : Bytes) : Bytes :=
  if payload.length < 126 then
    (putAt reserved 8 [0x82, payload.length.toUInt8] ++ payload).drop 8
  else if payload.length ≤ 65535 then
    (putAt (putAt reserved 6 [0x82, 126]) 8 (beBytes 2 payload.length) ++ payload).drop 6
  else
    putAt (putAt reserved 0 [0x82, 127]) 2 (beBytes 8 payload.length) ++ payload

def sendWireResponseFrame (allocates : Nat → Bool) (reserved : Bytes) (response : Response) :
    Sends :=
  match writeInto (fixedWrite 65536) (WireWriter.writeResponse response) with
  | .ok payload => record (fixedFrame reserved payload)
  | .error .noSpaceLeft =>
      match encodeWireResponseAlloc allocates response with
      | .ok encoded => sendWsFrame 0x02 encoded
      | .error err => throw err
  | .error err => throw err

section
variable {allocates : Nat → Bool} {reserved written payload encoded : Bytes}
  {pieces : List Bytes} {capacity : Nat} {writes : Writes} {fault : WireFault}
  {response : Response}

/-- The fixed buffer takes the pieces where their sum fits. -/
theorem foldlM_fixedWrite (pieces : List Bytes) (written : Bytes)
    (h : written.length ≤ capacity) :
    pieces.foldlM (fixedWrite capacity) written =
      if written.length + pieces.flatten.length ≤ capacity then .ok (written ++ pieces.flatten)
      else .error .noSpaceLeft := by
  induction pieces generalizing written with
  | nil =>
    rw [if_pos (by simpa using h), flatten_nil, append_nil]
    rfl
  | cons piece pieces ih =>
    rw [foldlM_cons, fixedWrite, flatten_cons, length_append]
    split
    case isTrue hlong =>
      rw [if_neg (by omega)]
      rfl
    case isFalse hfits =>
      have hlen : (written ++ piece).length = written.length + piece.length := length_append
      rw [ByteReader.ok_bind, ih (written ++ piece) (by omega), hlen, append_assoc,
        add_assoc]

/-- A list that can grow takes them all. -/
theorem foldlM_listWrite (pieces : List Bytes) (written : Bytes)
    (h : ∀ n, n ≤ written.length + pieces.flatten.length → allocates n = true) :
    pieces.foldlM (listWrite allocates) written = .ok (written ++ pieces.flatten) := by
  induction pieces generalizing written with
  | nil =>
    rw [flatten_nil, append_nil]
    rfl
  | cons piece pieces ih =>
    rw [flatten_cons, length_append] at h
    have hlen : (written ++ piece).length = written.length + piece.length := length_append
    rw [foldlM_cons, listWrite, h _ (by omega), if_neg (by decide), ByteReader.ok_bind,
      ih (written ++ piece) (fun n hn => h n (by omega)), flatten_cons, append_assoc]

theorem writeInto_eq (writeAll : Bytes → Bytes → Except SendFault Bytes)
    (h : Puts writes encoded) :
    ∃ pieces : List Bytes, pieces.flatten = encoded ∧
      writeInto writeAll writes = pieces.foldlM writeAll [] := by
  obtain ⟨pieces, hrun, hpieces⟩ := h []
  refine ⟨pieces, hpieces, ?_⟩
  rw [writeInto, hrun, nil_append]
  simp only
  cases pieces.foldlM writeAll [] <;> rfl

variable {pre mid data : Bytes} {i : Nat}

theorem putAt_eq {post : Bytes} (hi : pre.length = i) (hmid : mid.length = data.length) :
    putAt (pre ++ (mid ++ post)) i data = pre ++ (data ++ post) := by
  have hdrop : (pre ++ (mid ++ post)).drop (i + data.length) = post := by
    rw [← append_assoc]
    exact drop_left' (by rw [length_append, hi, hmid])
  rw [putAt, take_left' hi, hdrop, append_assoc]

theorem putAt_end (hi : pre.length = i)
    (hmid : mid.length = data.length) : putAt (pre ++ mid) i data = pre ++ data := by
  have h : putAt (pre ++ (mid ++ [])) i data = pre ++ (data ++ []) := putAt_eq hi hmid
  rwa [append_nil, append_nil] at h

/-- The header lands right in front of the payload, whatever was there. -/
theorem fixedFrame_eq (hreserved : reserved.length = 10) (payload : Bytes) :
    fixedFrame reserved payload = sendHeader 0x02 payload.length ++ payload := by
  -- the buffer's first two, next four, next two and last two bytes
  obtain ⟨r₁, r₂, r₃, r₄, h₁, h₂, h₃, h₄, rfl⟩ : ∃ r₁ r₂ r₃ r₄ : Bytes, r₁.length = 2 ∧
      r₂.length = 4 ∧ r₃.length = 2 ∧ r₄.length = 2 ∧ reserved = r₁ ++ (r₂ ++ (r₃ ++ r₄)) := by
    refine ⟨reserved.take 2, (reserved.drop 2).take 4, (reserved.drop 6).take 2,
      reserved.drop 8, by simp [hreserved], by simp [hreserved], by simp [hreserved],
      by simp [hreserved], ?_⟩
    have h₈ : reserved.drop 8 = (reserved.drop 6).drop 2 := by rw [drop_drop]
    have h₆ : reserved.drop 6 = (reserved.drop 2).drop 4 := by rw [drop_drop]
    rw [h₈, take_append_drop, h₆, take_append_drop, take_append_drop]
  have h₁₂ : (r₁ ++ r₂).length = 6 := by rw [length_append, h₁, h₂]
  have hmid : ∀ a b : UInt8, [a, b].length = 2 := fun _ _ => rfl
  have hassoc : r₁ ++ (r₂ ++ (r₃ ++ r₄)) = (r₁ ++ r₂) ++ (r₃ ++ r₄) := (append_assoc ..).symm
  rw [fixedFrame, sendHeader]
  split
  case isTrue =>
    have h₁₂₃ : ((r₁ ++ r₂) ++ r₃).length = 8 := by rw [length_append, h₁₂, h₃]
    rw [hassoc, ← append_assoc, putAt_end h₁₂₃ (h₄.trans (hmid _ _).symm),
      append_assoc _ _ payload, drop_left' h₁₂₃]
    rfl
  case isFalse =>
    split
    case isTrue =>
      have hsix : putAt (r₁ ++ (r₂ ++ (r₃ ++ r₄))) 6 [0x82, 126] =
          ((r₁ ++ r₂) ++ [0x82, 126]) ++ r₄ := by
        rw [hassoc, putAt_eq h₁₂ (h₃.trans (hmid _ _).symm)]
        simp only [append_assoc]
      have h₈ : ((r₁ ++ r₂) ++ [(0x82 : UInt8), 126]).length = 8 := by
        rw [length_append, h₁₂, hmid]
      rw [hsix, putAt_end h₈ (by rw [h₄, beBytes_length]), append_assoc, append_assoc,
        drop_left' h₁₂, append_assoc]
      rfl
    case isFalse =>
      have hzero : putAt (r₁ ++ (r₂ ++ (r₃ ++ r₄))) 0 [0x82, 127] =
          [0x82, 127] ++ (r₂ ++ (r₃ ++ r₄)) :=
        putAt_eq (rfl : ([] : Bytes).length = 0) (h₁.trans (hmid _ _).symm)
      have hlen : (r₂ ++ (r₃ ++ r₄)).length = 8 := by
        rw [length_append, length_append, h₂, h₃, h₄]
      rw [hzero, putAt_end (hmid _ _) (by rw [hlen, beBytes_length])]
      rfl

/-- What `sendWsFrame` puts on the stream. -/
theorem sendWsFrame_run (opcode : UInt8) (payload : Bytes) :
    ∃ sent, (sendWsFrame opcode payload).run.run [] = (.ok (), sent) ∧
      sent.flatten = sendHeader opcode payload.length ++ payload := by
  rw [sendWsFrame]
  split
  case isTrue =>
    refine ⟨[sendHeader opcode payload.length, payload], rfl, ?_⟩
    rw [flatten_cons, flatten_singleton]
  case isFalse h =>
    obtain rfl : payload = [] := eq_nil_of_length_eq_zero (by omega)
    exact ⟨[sendHeader opcode 0], rfl, by rw [flatten_singleton, append_nil]; rfl⟩

/-- The encoded response, where there is memory for it. -/
theorem encodeWireResponseAlloc_eq (h : Puts (WireWriter.writeResponse response) encoded)
    (halloc : ∀ n, n ≤ encoded.length → allocates n = true) :
    encodeWireResponseAlloc allocates response = .ok encoded := by
  obtain ⟨pieces, rfl, hwrite⟩ := writeInto_eq (listWrite allocates) h
  rw [encodeWireResponseAlloc, hwrite, foldlM_listWrite pieces [] (fun n hn => halloc n (by
    simpa using hn)), ByteReader.ok_bind, nil_append, halloc _ (Nat.le_refl _)]
  rfl

/-- **One write or two, one buffer or the other**: the stream gets the bytes that
`sendWsFrame` writes for the encoded response. -/
theorem sendWireResponseFrame_bytes (h : Puts (WireWriter.writeResponse response) encoded)
    (hreserved : reserved.length = 10)
    (halloc : encoded.length ≤ 65536 ∨ ∀ n, n ≤ encoded.length → allocates n = true) :
    ∃ sent sent',
      (sendWireResponseFrame allocates reserved response).run.run [] = (.ok (), sent) ∧
      (sendWsFrame 0x02 encoded).run.run [] = (.ok (), sent') ∧ sent.flatten = sent'.flatten := by
  obtain ⟨sent', hsent', hbytes⟩ := sendWsFrame_run 0x02 encoded
  obtain ⟨pieces, hpieces, hwrite⟩ := writeInto_eq (fixedWrite 65536) h
  rw [foldlM_fixedWrite pieces [] (Nat.zero_le _), length_nil, zero_add, hpieces] at hwrite
  by_cases hfits : encoded.length ≤ 65536
  · rw [if_pos hfits, nil_append] at hwrite
    refine ⟨[fixedFrame reserved encoded], sent', ?_, hsent', ?_⟩
    · rw [sendWireResponseFrame, hwrite]
      rfl
    · rw [hbytes, flatten_singleton, fixedFrame_eq hreserved]
  · rw [if_neg hfits] at hwrite
    refine ⟨sent', sent', ?_, hsent', rfl⟩
    have halloc : ∀ n, n ≤ encoded.length → allocates n = true := by
      rcases halloc with hle | hall
      · exact absurd hle hfits
      · exact hall
    rw [sendWireResponseFrame, hwrite]
    simp only [encodeWireResponseAlloc_eq h halloc]
    exact hsent'

/-- A response that is not encoded leaves nothing on the stream. -/
theorem sendWireResponseFrame_refuses (h : Refuses (WireWriter.writeResponse response) fault) :
    (sendWireResponseFrame allocates reserved response).run.run [] =
      (.error (.wire fault), []) := by
  have hwrite : writeInto (fixedWrite 65536) (WireWriter.writeResponse response) =
      .error (.wire fault) := by
    rw [writeInto, h []]
    rfl
  rw [sendWireResponseFrame, hwrite]
  rfl

/-- A response is encoded, or refused before the first byte. -/
theorem response_puts_or_refuses (response : Response) :
    (∃ encoded, Puts (WireWriter.writeResponse response) encoded) ∨
      ∃ fault, Refuses (WireWriter.writeResponse response) fault := by
  have hmax : maxPayloadLength < 2 ^ 32 := by decide
  by_cases hevent : response.code = .event ∧ maxPayloadLength < response.body.length
  · by_cases h64 : response.body.length < 2 ^ 64
    · exact .inr ⟨_, WireWriter.response_refuses_payloadTooLarge hevent.1 hevent.2 h64⟩
    · exact .inr ⟨_, WireWriter.response_refuses_trap (by omega) (.inr (by omega))⟩
  · by_cases h32 : response.body.length < 2 ^ 32
    · exact .inl ⟨_, WireWriter.response_puts h32 fun hc => by
        by_contra hlong
        exact hevent ⟨hc, by omega⟩⟩
    · exact .inr ⟨_, WireWriter.response_refuses_trap (by omega)
        (.inl fun hc => hevent ⟨hc, by omega⟩)⟩

/-- **The WebSocket codec.**  A client's frame is read as its opcode and its payload under
the repeated mask, in whatever pieces it comes, both unmasking loops together being the
scalar rule; and a response goes out as `sendWsFrame` sends what it is encoded to, or fails
with its encoding and nothing goes out. -/
theorem webSocket_codec :
    (∀ maskKey buf : Bytes, maskKey.length = 4 → unmask maskKey buf = xorFrom maskKey 0 buf) ∧
    (∀ (allocates : Nat → Bool) (stream : Stream) (bytes rest : Bytes)
      (frame : ClientFrame bytes), stream.bytes = bytes ++ rest → frame.raw.length ≤ maxFrame →
      allocates frame.raw.length = true → ∃ stream', readWsFrame allocates stream =
        some (⟨frame.first &&& 0x0F, xorFrom frame.maskKey 0 frame.raw⟩, stream') ∧
        stream'.bytes = rest) ∧
    ∀ (allocates : Nat → Bool) (reserved : Bytes) (response : Response), reserved.length = 10 →
      (∃ encoded, Puts (WireWriter.writeResponse response) encoded ∧
        (encoded.length ≤ 65536 ∨ (∀ n, n ≤ encoded.length → allocates n = true) →
          ∃ sent sent',
            (sendWireResponseFrame allocates reserved response).run.run [] = (.ok (), sent) ∧
            (sendWsFrame 0x02 encoded).run.run [] = (.ok (), sent') ∧
            sent.flatten = sent'.flatten)) ∨
      ∃ fault, Refuses (WireWriter.writeResponse response) fault ∧
        (sendWireResponseFrame allocates reserved response).run.run [] =
          (.error (.wire fault), []) := by
  refine ⟨fun maskKey buf hkey => unmask_eq hkey buf, ?_, ?_⟩
  · intro allocates stream bytes rest frame hs hmax halloc
    exact readWsFrame_client allocates frame hs hmax halloc
  · intro allocates reserved response hreserved
    rcases response_puts_or_refuses response with ⟨encoded, h⟩ | ⟨fault, h⟩
    · exact .inl ⟨encoded, h, fun halloc => sendWireResponseFrame_bytes h hreserved halloc⟩
    · exact .inr ⟨fault, h, sendWireResponseFrame_refuses h⟩

end

/-- A masked payload of three bytes, and a response of two. -/
theorem webSocket_codec_hi :
    unmask [1, 2, 3, 4] [0x69] = xorFrom [1, 2, 3, 4] 0 [0x69] ∧
    (∃ stream', readWsFrame (fun _ => true)
        ⟨[0x82, 0x83, 1, 2, 3, 4, 0x69, 0x6B, 0x22, 7], fun _ => 0⟩ =
      some (⟨0x02, [0x68, 0x69, 0x21]⟩, stream') ∧ stream'.bytes = [7]) ∧
    ∃ encoded sent sent', Puts (WireWriter.writeResponse (.value (some [0x68, 0x69]))) encoded ∧
      (sendWireResponseFrame (fun _ => true) (replicate 10 0xAA)
        (.value (some [0x68, 0x69]))).run.run [] = (.ok (), sent) ∧
      (sendWsFrame 0x02 encoded).run.run [] = (.ok (), sent') ∧ sent.flatten = sent'.flatten := by
  obtain ⟨hunmask, hread, hsend⟩ := webSocket_codec
  refine ⟨hunmask _ _ rfl, ?_, ?_⟩
  · exact hread (fun _ => true) ⟨[0x82, 0x83, 1, 2, 3, 4, 0x69, 0x6B, 0x22, 7], fun _ => 0⟩ _ [7]
      ⟨0x82, 3, [], [1, 2, 3, 4], [0x69, 0x6B, 0x22], by decide, .short (by decide), rfl, rfl⟩
      rfl (by decide) rfl
  · rcases hsend (fun _ => true) (replicate 10 0xAA) (.value (some [0x68, 0x69])) rfl
      with ⟨encoded, hputs, hsent⟩ | ⟨fault, hrefuses, -⟩
    · obtain ⟨sent, sent', hrun⟩ := hsent (.inr fun _ _ => rfl)
      exact ⟨encoded, sent, sent', hputs, hrun⟩
    · exact absurd (hrefuses []) nofun

end WormDB.Gateway
