import WormDB.Wire

/-! # What is written is read back

`Command.body` and `Response.body` are the payloads of the format, field by field.  The
writers put a header and the body on the stream (`writeCommand_eq`, `writeResponse_eq`),
the parser takes a body apart into the command it came from (`parse_body`), and the frame
readers hand it the body and leave the rest of the stream alone. -/
namespace WormDB
open List ByteCodec ByteReader ChunkedStream

/-! ## The format -/

def lenPrefixed (data : Bytes) : Bytes := beBytes 4 data.length ++ data

def BulkItem.body (it : BulkItem) : Bytes :=
  lenPrefixed it.key ++ lenPrefixed it.vector ++ beBytes 8 it.timestamp.toNat

namespace Command

def body : Command → Bytes
  | get key => lenPrefixed key
  | set params =>
      [if params.worm then 0x01 else 0x00] ++ lenPrefixed params.key ++ lenPrefixed params.value
  | delete key => lenPrefixed key
  | status => []
  | clusterStatus => []
  | clusterPeers => []
  | subscribe params => lenPrefixed params.channel ++ params.filter.elim [] lenPrefixed
  | unsubscribe channel => lenPrefixed channel
  | publish params => lenPrefixed params.channel ++ lenPrefixed params.message
  | exec params =>
      lenPrefixed params.procedure ++ beBytes 4 params.args.length ++
        params.args.flatMap lenPrefixed
  | save => []
  | auth token => lenPrefixed token
  | vinsert params =>
      lenPrefixed params.key ++ lenPrefixed params.vector ++
        [vectorFlags params.worm params.isAsync] ++ lenPrefixed params.namespace ++
        lenPrefixed params.metric ++ beBytes 8 params.timestamp.toNat
  | vdelete params => lenPrefixed params.key ++ lenPrefixed params.namespace
  | vbulkinsert params =>
      lenPrefixed params.namespace ++ lenPrefixed params.metric ++
        [vectorFlags params.worm params.isAsync] ++ beBytes 4 params.items.length ++
        params.items.flatMap BulkItem.body
  | vrabitqInstall params =>
      lenPrefixed params.namespace ++ beBytes 4 params.dim.toNat ++
        beBytes 8 params.seed.toNat ++ lenPrefixed params.centroid ++ lenPrefixed params.rotation

/-- The fields fit the format. -/
structure Fits (cmd : Command) : Prop where
  length : cmd.payloadLen ≤ maxPayloadLength
  sizes : ∀ params, cmd = .vrabitqInstall params →
    params.centroid.length = params.dim.toNat * 4 ∧
      params.rotation.length = params.dim.toNat * params.dim.toNat * 4

end Command

namespace Response

def code : Response → ResponseCode
  | value (some _) => .value
  | value none => .nullValue
  | ok => .ok
  | err _ => .err
  | event _ _ => .event

def body : Response → Bytes
  | value (some val) => val
  | value none => []
  | ok => []
  | err msg => msg
  | event channel message => lenPrefixed channel ++ lenPrefixed message

/-- The payload fits the format. -/
def Fits (response : Response) : Prop := response.body.length ≤ maxPayloadLength

end Response

/-- The code, the length and the payload. -/
def frame (code : UInt8) (body : Bytes) : Bytes := code :: beBytes 4 body.length ++ body

/-! ## Writing -/

@[simp] theorem lenPrefixed_length (data : Bytes) :
    (lenPrefixed data).length = 4 + data.length := by
  rw [lenPrefixed, length_append, beBytes_length]

variable {data : Bytes}

theorem writeLenPrefixed_eq (h : data.length ≤ maxPayloadLength) :
    writeLenPrefixed data = .ok (lenPrefixed data) := by
  rw [maxPayloadLength] at h
  rw [writeLenPrefixed, if_neg (by omega)]
  rfl

theorem writeCount_eq {count : Nat} (h : count ≤ maxPayloadLength) :
    writeCount count = .ok (beBytes 4 count) := by
  rw [maxPayloadLength] at h
  rw [writeCount, if_neg (by omega)]

theorem writeHeader_eq {len : Nat} (code : UInt8) (h : len ≤ maxPayloadLength) :
    writeHeader code len = .ok (code :: beBytes 4 len) := by
  rw [maxPayloadLength] at h
  rw [writeHeader, if_neg (by omega)]

variable {α : Type} {encode : α → Bytes} {xs : List α}

theorem writeEach_eq {write : α → Except WireFault Bytes} (h : ∀ x ∈ xs, write x = .ok (encode x)) :
    writeEach write xs = .ok (xs.flatMap encode) := by
  induction xs with
  | nil => rfl
  | cons x xs ih =>
    rw [writeEach, h x mem_cons_self, ok_bind, ih (fun y hy => h y (mem_cons_of_mem x hy)),
      ok_bind, flatMap_cons]
    rfl

theorem length_flatMap_eq_sum {size : α → Nat} (h : ∀ x, (encode x).length = size x) (xs : List α) :
    (xs.flatMap encode).length = (xs.map size).sum := by
  rw [length_flatMap]
  congr 1
  exact map_congr_left (fun x _ => h x)

theorem BulkItem.body_length (it : BulkItem) :
    it.body.length = (4 + it.key.length) + (4 + it.vector.length) + 8 := by
  rw [BulkItem.body, length_append, length_append, lenPrefixed_length,
    lenPrefixed_length, beBytes_length]

/-- The header announces the body. -/
theorem Command.body_length (cmd : Command) : cmd.body.length = cmd.payloadLen := by
  rcases cmd with key | params | key | _ | _ | _ | ⟨channel, filter⟩ | channel | params | params |
    _ | token | params | params | params | params
  case subscribe =>
    rcases filter with _ | filter
    · simp [body, payloadLen]
    · simp [body, payloadLen]
  case exec =>
    simp only [body, payloadLen, length_append, lenPrefixed_length, beBytes_length,
      length_flatMap_eq_sum lenPrefixed_length]
  case vbulkinsert =>
    simp only [body, payloadLen, length_append, lenPrefixed_length, beBytes_length,
      length_flatMap_eq_sum BulkItem.body_length, length_singleton]
  all_goals simp only [body, payloadLen, length_append, lenPrefixed_length, beBytes_length,
    length_singleton, length_nil]

theorem length_le_flatMap (encode : α → Bytes) {x : α} (h : x ∈ xs) :
    (encode x).length ≤ (xs.flatMap encode).length :=
  (sublist_flatten_of_mem (mem_map_of_mem h)).length_le

theorem mul_length_le_flatMap {size : Nat} (h : ∀ x, size ≤ (encode x).length) (xs : List α) :
    xs.length * size ≤ (xs.flatMap encode).length := by
  induction xs with
  | nil => simp
  | cons x xs ih =>
    have hx := h x
    rw [flatMap_cons, length_append, length_cons, Nat.succ_mul]
    omega

theorem writeLenPrefixed_bind {f : Bytes → Except WireFault Bytes}
    (h : data.length ≤ maxPayloadLength) :
    (writeLenPrefixed data >>= f) = f (lenPrefixed data) := by
  rw [writeLenPrefixed_eq h, ok_bind]

theorem writeBulkItem_eq {it : BulkItem} (h : it.body.length ≤ maxPayloadLength) :
    writeBulkItem it = .ok it.body := by
  rw [BulkItem.body_length] at h
  rw [writeBulkItem, writeLenPrefixed_bind (by omega), writeLenPrefixed_bind (by omega)]
  rfl

variable {cmd : Command}

theorem writeFields_eq (hmax : cmd.payloadLen ≤ maxPayloadLength) :
    writeFields cmd = .ok cmd.body := by
  cases cmd with
  | get key | delete key =>
    rw [Command.payloadLen] at hmax
    exact writeLenPrefixed_eq (by omega)
  | unsubscribe channel =>
    rw [Command.payloadLen] at hmax
    exact writeLenPrefixed_eq (by omega)
  | auth token =>
    rw [Command.payloadLen] at hmax
    exact writeLenPrefixed_eq (by omega)
  | status | clusterStatus | clusterPeers | save => rfl
  | set params | publish params | vdelete params =>
    rw [Command.payloadLen] at hmax
    rw [writeFields, writeLenPrefixed_bind (by omega), writeLenPrefixed_bind (by omega)]
    rfl
  | subscribe params =>
    rcases params with ⟨channel, _ | filter⟩
    · simp only [Command.payloadLen, Option.elim] at hmax
      simp only [writeFields]
      rw [writeLenPrefixed_bind (by omega), Command.body, Option.elim_none, append_nil]
      rfl
    · simp only [Command.payloadLen, Option.elim] at hmax
      simp only [writeFields]
      rw [writeLenPrefixed_bind (by omega), writeLenPrefixed_bind (by omega)]
      rfl
  | exec params =>
    rw [Command.payloadLen, ← length_flatMap_eq_sum lenPrefixed_length] at hmax
    -- every argument takes four bytes, so their number fits too
    have hcount := mul_length_le_flatMap
      (fun arg => show 4 ≤ (lenPrefixed arg).length by rw [lenPrefixed_length]; omega) params.args
    have hargs : ∀ arg ∈ params.args, writeLenPrefixed arg = .ok (lenPrefixed arg) := by
      intro arg harg
      have hle := length_le_flatMap lenPrefixed harg
      rw [lenPrefixed_length] at hle
      exact writeLenPrefixed_eq (by omega)
    rw [writeFields, writeLenPrefixed_bind (by omega), writeCount_eq (by omega), ok_bind,
      writeEach_eq hargs, ok_bind]
    rfl
  | vinsert params =>
    rw [Command.payloadLen] at hmax
    rw [writeFields, writeLenPrefixed_bind (by omega), writeLenPrefixed_bind (by omega),
      writeLenPrefixed_bind (by omega), writeLenPrefixed_bind (by omega)]
    rfl
  | vbulkinsert params =>
    rw [Command.payloadLen, ← length_flatMap_eq_sum BulkItem.body_length] at hmax
    -- every item takes sixteen bytes, so their number fits too
    have hcount := mul_length_le_flatMap
      (fun it => show 16 ≤ (BulkItem.body it).length by rw [BulkItem.body_length]; omega) params.items
    have hitems : ∀ it ∈ params.items, writeBulkItem it = .ok it.body := by
      intro it hit
      have hle := length_le_flatMap BulkItem.body hit
      exact writeBulkItem_eq (by omega)
    rw [writeFields, writeLenPrefixed_bind (by omega), writeLenPrefixed_bind (by omega),
      writeCount_eq (by omega), ok_bind, writeEach_eq hitems, ok_bind]
    rfl
  | vrabitqInstall params =>
    rw [Command.payloadLen] at hmax
    rw [writeFields, writeLenPrefixed_bind (by omega), writeLenPrefixed_bind (by omega),
      writeLenPrefixed_bind (by omega)]
    rfl

/-- **What the writer puts on the stream for a command.** -/
theorem writeCommand_eq (hmax : cmd.payloadLen ≤ maxPayloadLength) :
    writeCommand cmd = .ok (frame cmd.id.toByte cmd.body) := by
  rw [writeCommand, if_neg (fun h => absurd h.2 (Nat.not_lt.mpr hmax)), writeHeader_eq _ hmax,
    ok_bind, writeFields_eq hmax, ok_bind, frame, Command.body_length]
  rfl

variable {response : Response}

/-- **What the writer puts on the stream for a response.** -/
theorem writeResponse_eq (h : response.Fits) :
    writeResponse response = .ok (frame response.code.toByte response.body) := by
  cases response with
  | ok => rfl
  | value val =>
    rcases val with _ | val
    · rfl
    · have hval : val.length ≤ maxPayloadLength := h
      rw [writeResponse, writeHeader_eq _ hval, ok_bind]
      rfl
  | err msg =>
    have hmsg : msg.length ≤ maxPayloadLength := h
    rw [writeResponse, writeHeader_eq _ hmsg, ok_bind]
    rfl
  | event channel message =>
    rw [Response.Fits, Response.body, length_append, lenPrefixed_length,
      lenPrefixed_length] at h
    simp only [writeResponse]
    rw [if_neg (Nat.not_lt.mpr h), writeHeader_eq _ h, ok_bind, writeLenPrefixed_bind (by omega),
      writeLenPrefixed_bind (by omega), frame, Response.body, length_append,
      lenPrefixed_length, lenPrefixed_length, append_assoc]
    rfl

/-! ## Reading a body

Every reader is used where its field is known to stand; the length of the whole payload
bounds each field of it. -/

section Fields
variable {payload rest : Bytes} {pos : Nat}

theorem readInt_at {w n : Nat} (h : At payload pos (beBytes w n ++ rest)) (hn : n < 256 ^ w) :
    readInt w payload pos = .ok (n, pos + (beBytes w n).length) := by
  have hlen := h.length_eq
  have hslice := h.slice_eq
  rw [length_append, beBytes_length] at hlen
  rw [beBytes_length] at hslice ⊢
  rw [readInt, if_neg (by omega), hslice, beNat_beBytes_of_lt hn]

theorem readBytesField_at {field : Bytes} (hmax : payload.length ≤ maxPayloadLength)
    (h : At payload pos (lenPrefixed field ++ rest)) :
    readBytesField payload pos = .ok (field, pos + (lenPrefixed field).length) := by
  rw [maxPayloadLength] at hmax
  have hlen := h.length_eq
  rw [length_append, lenPrefixed_length] at hlen
  rw [lenPrefixed, append_assoc] at h
  have hprefixed := h.slice_eq
  have hfield := h.skip.slice_eq
  rw [beBytes_length] at hprefixed hfield
  rw [readBytesField, if_neg (by omega), hprefixed, beNat_beBytes_of_lt (by omega)]
  simp only
  rw [if_neg (by omega), hfield, lenPrefixed_length, add_assoc]

theorem vectorFlags_reserved (worm isAsync : Bool) :
    vectorFlags worm isAsync &&& 0b11111100 = 0 := by
  revert worm isAsync
  decide

theorem readVectorFlags_at {worm isAsync : Bool}
    (h : At payload pos ([vectorFlags worm isAsync] ++ rest)) :
    readVectorFlags payload pos = .ok (vectorFlags worm isAsync, pos + 1) := by
  have hlen := h.length_eq
  rw [length_append, length_singleton] at hlen
  have hreserved := vectorFlags_reserved worm isAsync
  obtain ⟨pre, hpayload, hpre⟩ := h
  rw [readVectorFlags, if_neg (by omega), getD_eq pre rest hpayload hpre]
  simp only
  rw [if_neg (not_not_intro hreserved)]

theorem vectorFlags_worm (worm isAsync : Bool) :
    decide (vectorFlags worm isAsync &&& 0x01 ≠ 0) = worm := by
  revert worm isAsync
  decide

theorem vectorFlags_isAsync (worm isAsync : Bool) :
    decide (vectorFlags worm isAsync &&& 0x02 ≠ 0) = isAsync := by
  revert worm isAsync
  decide

theorem readBulkItem_at {it : BulkItem} (hmax : payload.length ≤ maxPayloadLength)
    (h : At payload pos (it.body ++ rest)) :
    readBulkItem payload pos = .ok (it, pos + it.body.length) := by
  have hbody := it.body_length
  simp only [BulkItem.body, append_assoc] at h
  rw [readBulkItem, readBytesField_at hmax h, ok_bind]
  simp only
  rw [readBytesField_at hmax h.skip, ok_bind]
  simp only
  rw [readInt_at h.skip.skip it.timestamp.toNat_lt, ok_bind]
  have htimestamp : it.timestamp.toNat.toUInt64 = it.timestamp := by simp
  simp only [lenPrefixed_length, beBytes_length, hbody, htimestamp, add_assoc]
  rfl

theorem atEnd_at (h : At payload pos []) (cmd : Command) : atEnd payload pos cmd = .ok cmd := by
  rw [atEnd, if_neg (not_not_intro h.end_eq)]

end Fields

variable {payload : Bytes}

/-- A command of one field. -/
theorem parse_oneField {field : Bytes} (mk : Bytes → Command)
    (hmax : payload.length ≤ maxPayloadLength) (hat : At payload 0 (lenPrefixed field ++ [])) :
    (do let (field, pos) ← readBytesField payload 0
        atEnd payload pos (mk field)) = .ok (mk field) := by
  rw [readBytesField_at hmax hat, ok_bind]
  exact atEnd_at hat.skip _

/-- A command of two fields. -/
theorem parse_twoFields {first second : Bytes} {pos : Nat} (mk : Bytes → Bytes → Command)
    (hmax : payload.length ≤ maxPayloadLength)
    (hat : At payload pos (lenPrefixed first ++ (lenPrefixed second ++ []))) :
    (do let (first, pos) ← readBytesField payload pos let (second, pos) ← readBytesField payload pos
        atEnd payload pos (mk first second)) = .ok (mk first second) := by
  rw [readBytesField_at hmax hat, ok_bind]
  simp only
  rw [readBytesField_at hmax hat.skip, ok_bind]
  exact atEnd_at hat.skip.skip _

section
variable (hmax : payload.length ≤ maxPayloadLength)
include hmax

theorem parse_set {params : SetParams} (hat : At payload 0 ((Command.set params).body ++ [])) :
    parseCommandPayload .set payload = .ok (.set params) := by
  obtain ⟨key, value, worm⟩ := params
  simp only [Command.body, append_assoc] at hat
  have hlen := hat.length_eq
  have hflags : payload.getD 0 0 = if worm then 0x01 else 0x00 := by
    obtain ⟨pre, hpayload, hpre⟩ := hat
    exact getD_eq pre _ hpayload hpre
  have hreserved : ¬ ((if worm = true then 0x01 else 0x00 : UInt8) &&& 0b11111110 ≠ 0) := by
    clear hflags hat hlen
    revert worm
    decide
  have hworm : decide ((if worm = true then 0x01 else 0x00 : UInt8) &&& 0x01 ≠ 0) = worm := by
    clear hflags hat hlen hreserved
    revert worm
    decide
  rw [length_append, length_singleton] at hlen
  rw [parseCommandPayload.eq_def]
  simp only
  rw [if_neg (by omega), hflags, if_neg hreserved, hworm]
  exact parse_twoFields (fun key value => .set ⟨key, value, worm⟩) hmax hat.skip

theorem parse_subscribe {params : SubscribeParams}
    (hat : At payload 0 ((Command.subscribe params).body ++ [])) :
    parseCommandPayload .subscribe payload = .ok (.subscribe params) := by
  rcases params with ⟨channel, _ | filter⟩
  · simp only [Command.body, Option.elim_none, append_nil] at hat
    rw [← append_nil (lenPrefixed channel)] at hat
    have hend := hat.skip.end_eq
    rw [parseCommandPayload.eq_def]
    simp only
    rw [readBytesField_at hmax hat, ok_bind]
    simp only
    rw [if_neg (by omega)]
    exact atEnd_at hat.skip _
  · simp only [Command.body, Option.elim_some, append_assoc] at hat
    have hlen := hat.skip.length_eq
    rw [length_append, lenPrefixed_length filter] at hlen
    rw [parseCommandPayload.eq_def]
    simp only
    rw [readBytesField_at hmax hat, ok_bind]
    simp only
    rw [if_pos (by omega), readBytesField_at hmax hat.skip, ok_bind]
    exact atEnd_at hat.skip.skip _

theorem parse_exec {params : ExecParams} (hat : At payload 0 ((Command.exec params).body ++ [])) :
    parseCommandPayload .exec payload = .ok (.exec params) := by
  obtain ⟨procedure, args⟩ := params
  simp only [Command.body, append_assoc] at hat
  have hlen := hat.length_eq
  have hcount := mul_length_le_flatMap
    (fun arg => show 4 ≤ (lenPrefixed arg).length by rw [lenPrefixed_length]; omega) args
  simp only [length_append, lenPrefixed_length, beBytes_length] at hlen
  rw [maxPayloadLength] at hmax
  have hargs : ∀ arg ∈ args, ∀ pos rest, At payload pos (lenPrefixed arg ++ rest) →
      readBytesField payload pos = .ok (arg, pos + (lenPrefixed arg).length) :=
    fun arg _ pos rest h => readBytesField_at hmax h
  rw [parseCommandPayload.eq_def]
  simp only
  rw [readBytesField_at hmax hat, ok_bind]
  simp only
  rw [readInt_at hat.skip (by omega), ok_bind]
  simp only
  rw [readItemsAt_append hargs hat.skip.skip, ok_bind]
  exact atEnd_at hat.skip.skip.skip _

theorem parse_vinsert {params : VinsertParams}
    (hat : At payload 0 ((Command.vinsert params).body ++ [])) :
    parseCommandPayload .vinsert payload = .ok (.vinsert params) := by
  obtain ⟨key, vector, worm, ns, metric, timestamp, isAsync⟩ := params
  simp only [Command.body, append_assoc] at hat
  have htimestamp : timestamp.toNat.toUInt64 = timestamp := by simp
  have hflags := hat.skip.skip
  have hns := hflags.skip
  rw [length_singleton] at hns
  rw [parseCommandPayload.eq_def]
  simp only
  rw [readBytesField_at hmax hat, ok_bind]
  simp only
  rw [readBytesField_at hmax hat.skip, ok_bind]
  simp only
  rw [readVectorFlags_at hflags, ok_bind]
  simp only
  rw [readBytesField_at hmax hns, ok_bind]
  simp only
  rw [readBytesField_at hmax hns.skip, ok_bind]
  simp only
  rw [readInt_at hns.skip.skip timestamp.toNat_lt, ok_bind]
  simp only [vectorFlags_worm, vectorFlags_isAsync, htimestamp]
  exact atEnd_at hns.skip.skip.skip _

theorem parse_vbulkinsert {params : VbulkinsertParams}
    (hat : At payload 0 ((Command.vbulkinsert params).body ++ [])) :
    parseCommandPayload .vbulkinsert payload = .ok (.vbulkinsert params) := by
  obtain ⟨ns, metric, worm, isAsync, items⟩ := params
  simp only [Command.body, append_assoc] at hat
  have hflags := hat.skip.skip
  have hcount := hflags.skip
  rw [length_singleton] at hcount
  have hitems := hcount.skip
  -- the items are what is left of the payload, so their count passes the check
  have hlen := hitems.length_eq
  have hsize := mul_length_le_flatMap
    (fun it => show 16 ≤ (BulkItem.body it).length by rw [BulkItem.body_length]; omega) items
  rw [append_nil] at hlen
  have hread : ∀ it ∈ items, ∀ pos rest, At payload pos (BulkItem.body it ++ rest) →
      readBulkItem payload pos = .ok (it, pos + (BulkItem.body it).length) :=
    fun it _ pos rest h => readBulkItem_at hmax h
  rw [maxPayloadLength] at hmax
  rw [parseCommandPayload.eq_def]
  simp only
  rw [readBytesField_at hmax hat, ok_bind]
  simp only
  rw [readBytesField_at hmax hat.skip, ok_bind]
  simp only
  rw [readVectorFlags_at hflags, ok_bind]
  simp only
  rw [readInt_at hcount (by omega), ok_bind]
  simp only
  rw [if_neg (by omega), readItemsAt_append hread hitems, ok_bind]
  simp only [vectorFlags_worm, vectorFlags_isAsync]
  exact atEnd_at hitems.skip _

end

variable {params : VrabitqInstallParams}

/-- The five fields are read back; their sizes are then held against the dimension. -/
theorem parse_vrabitqInstall_fields (hmax : payload.length ≤ maxPayloadLength)
    (hat : At payload 0 ((Command.vrabitqInstall params).body ++ [])) :
    parseCommandPayload .vrabitqInstall payload = do
      checkRabitqSizes params.dim.toNat params.centroid params.rotation
      return .vrabitqInstall params := by
  obtain ⟨ns, dim, seed, centroid, rotation⟩ := params
  simp only [Command.body, append_assoc] at hat
  have hdim : dim.toNat.toUInt32 = dim := by simp
  have hseed : seed.toNat.toUInt64 = seed := by simp
  rw [parseCommandPayload.eq_def]
  simp only
  rw [readBytesField_at hmax hat, ok_bind]
  simp only
  rw [readInt_at hat.skip dim.toNat_lt, ok_bind]
  simp only
  rw [readInt_at hat.skip.skip seed.toNat_lt, ok_bind]
  simp only
  rw [readBytesField_at hmax hat.skip.skip.skip, ok_bind]
  simp only
  rw [readBytesField_at hmax hat.skip.skip.skip.skip, ok_bind]
  simp only [hdim, hseed]
  rw [atEnd_at hat.skip.skip.skip.skip.skip]
  rfl

theorem parse_vrabitqInstall (hmax : payload.length ≤ maxPayloadLength)
    (hcentroid : params.centroid.length = params.dim.toNat * 4)
    (hrotation : params.rotation.length = params.dim.toNat * params.dim.toNat * 4)
    (hat : At payload 0 ((Command.vrabitqInstall params).body ++ [])) :
    parseCommandPayload .vrabitqInstall payload = .ok (.vrabitqInstall params) := by
  have hlen := hat.length_eq
  simp only [Command.body, length_append, lenPrefixed_length, beBytes_length] at hlen
  have hsizes : checkRabitqSizes params.dim.toNat params.centroid params.rotation = .ok () := by
    rw [maxPayloadLength] at hmax
    rw [checkRabitqSizes, if_neg (by omega), if_neg (by simp [hcentroid, hrotation])]
  rw [parse_vrabitqInstall_fields hmax hat, hsizes]
  rfl

/-- **The parser undoes the format.** -/
theorem parse_body (h : cmd.Fits) : parseCommandPayload cmd.id cmd.body = .ok cmd := by
  have hmax := h.length
  rw [← Command.body_length] at hmax
  have hat : At cmd.body 0 (cmd.body ++ []) := by
    rw [append_nil]
    exact At.start _
  cases cmd with
  | get key => exact parse_oneField Command.get hmax hat
  | delete key => exact parse_oneField Command.delete hmax hat
  | unsubscribe channel => exact parse_oneField Command.unsubscribe hmax hat
  | auth token => exact parse_oneField Command.auth hmax hat
  | status | clusterStatus | clusterPeers | save => rfl
  | set params => exact parse_set hmax hat
  | subscribe params => exact parse_subscribe hmax hat
  | publish params =>
    rw [Command.body, append_assoc] at hat
    exact parse_twoFields (fun channel message => .publish ⟨channel, message⟩) hmax hat
  | exec params => exact parse_exec hmax hat
  | vinsert params => exact parse_vinsert hmax hat
  | vdelete params =>
    rw [Command.body, append_assoc] at hat
    exact parse_twoFields (fun key ns => .vdelete ⟨key, ns⟩) hmax hat
  | vbulkinsert params => exact parse_vbulkinsert hmax hat
  | vrabitqInstall params =>
    obtain ⟨hcentroid, hrotation⟩ := h.sizes params rfl
    exact parse_vrabitqInstall hmax hcentroid hrotation hat

/-! ## Reading a frame -/

variable {reader : Stream}

theorem readExact_eq {xs rest : Bytes} {n : Nat}
    (h : reader.bytes = xs ++ rest) (hn : xs.length = n) :
    ∃ reader', readExact reader n = .ok (xs, reader') ∧ reader'.bytes = rest := by
  subst hn
  obtain ⟨reader', hread, hrest⟩ := readExact_append h
  refine ⟨reader', ?_, hrest⟩
  rw [readExact, hread]

variable {suffix : Bytes}

theorem readHeader_cases {code : UInt8} {body : Bytes}
    (h : reader.bytes = frame code body ++ suffix) (hlt : body.length < 2 ^ 32) :
    ∃ reader', reader'.bytes = body ++ suffix ∧ readHeader reader =
      if body.length > maxPayloadLength then .error .payloadTooLarge
      else .ok (code, body.length, reader') := by
  have hheader : reader.bytes = (code :: beBytes 4 body.length) ++ (body ++ suffix) := by
    rw [h, frame, append_assoc]
  have hfive : (code :: beBytes 4 body.length).length = 5 := by
    rw [length_cons, beBytes_length]
  obtain ⟨reader', hread, hrest⟩ := readExact_eq hheader hfive
  have hslice : slice (code :: beBytes 4 body.length) 1 4 = beBytes 4 body.length :=
    slice_eq [code] _ [] (by rw [append_nil]; rfl) rfl (beBytes_length 4 _)
  have hlen : beNat (beBytes 4 body.length) = body.length := beNat_beBytes_of_lt hlt
  refine ⟨reader', hrest, ?_⟩
  rw [readHeader, hread, ok_bind]
  simp only [hslice, hlen]
  rfl

theorem readHeader_frame {code : UInt8} {body : Bytes}
    (h : reader.bytes = frame code body ++ suffix) (hmax : body.length ≤ maxPayloadLength) :
    ∃ reader', readHeader reader = .ok (code, body.length, reader') ∧
      reader'.bytes = body ++ suffix := by
  obtain ⟨reader', hrest, hread⟩ := readHeader_cases h
    (Nat.lt_of_le_of_lt hmax (by decide))
  rw [if_neg (Nat.not_lt.mpr hmax)] at hread
  exact ⟨reader', hread, hrest⟩

/-- A written command is read off the front of any stream. -/
theorem readFrameAlloc_frame (h : cmd.Fits)
    (hbytes : reader.bytes = frame cmd.id.toByte cmd.body ++ suffix) :
    ∃ reader', readFrameAlloc reader = .ok (cmd, reader') ∧ reader'.bytes = suffix := by
  have hmax := h.length
  rw [← Command.body_length] at hmax
  obtain ⟨payloadReader, hheader, hpayload⟩ := readHeader_frame hbytes hmax
  obtain ⟨reader', hread, hrest⟩ := readExact_eq hpayload rfl
  refine ⟨reader', ?_, hrest⟩
  rw [readFrameAlloc, readFrameWith, hheader, ok_bind]
  simp only [hread, ok_bind, CommandId.ofByte_toByte, parse_body h]
  rfl

/-- A written response is read off the front of any stream. -/
theorem readResponseAlloc_frame (h : response.Fits)
    (hbytes : reader.bytes = frame response.code.toByte response.body ++ suffix) :
    ∃ reader', readResponseAlloc reader = .ok (response, reader') ∧ reader'.bytes = suffix := by
  obtain ⟨payloadReader, hheader, hpayload⟩ := readHeader_frame hbytes h
  obtain ⟨reader', hread, hrest⟩ := readExact_eq hpayload rfl
  rw [readResponseAlloc, hheader, ok_bind]
  simp only [ResponseCode.ofByte_toByte]
  cases response with
  | ok => exact ⟨payloadReader, rfl, hpayload⟩
  | value val =>
    rcases val with _ | val
    · exact ⟨payloadReader, rfl, hpayload⟩
    · refine ⟨reader', ?_, hrest⟩
      simp only [Response.code, hread, ok_bind]
      rfl
  | err msg =>
    refine ⟨reader', ?_, hrest⟩
    simp only [Response.code, hread, ok_bind]
    rfl
  | event channel message =>
    refine ⟨reader', ?_, hrest⟩
    have hat : At (Response.event channel message).body 0
        (lenPrefixed channel ++ (lenPrefixed message ++ [])) := by
      rw [append_nil]
      exact At.start _
    simp only [Response.code, hread, ok_bind]
    rw [readBytesField_at h hat, ok_bind]
    simp only
    rw [readBytesField_at h hat.skip, ok_bind]
    simp only
    rw [if_neg (not_not_intro hat.skip.skip.end_eq)]
    rfl

/-- **The WormWire round trip.**  Every command and every response that fits the format is
written, and whatever stands behind it on the stream and in whatever pieces the stream
comes, it is read back and the stream is left at what stands behind. -/
theorem wire_round_trip :
    (∀ cmd : Command, cmd.Fits →
      ∃ written, writeCommand cmd = .ok written ∧
        ∀ (reader : Stream) (suffix : Bytes), reader.bytes = written ++ suffix →
          ∃ reader', readFrameAlloc reader = .ok (cmd, reader') ∧ reader'.bytes = suffix) ∧
    (∀ response : Response, response.Fits →
      ∃ written, writeResponse response = .ok written ∧
        ∀ (reader : Stream) (suffix : Bytes), reader.bytes = written ++ suffix →
          ∃ reader', readResponseAlloc reader = .ok (response, reader') ∧
            reader'.bytes = suffix) :=
  ⟨fun _ h => ⟨_, writeCommand_eq h.length, fun _ _ hbytes => readFrameAlloc_frame h hbytes⟩,
    fun _ h => ⟨_, writeResponse_eq h, fun _ _ hbytes => readResponseAlloc_frame h hbytes⟩⟩

theorem wire_round_trip_rabitq :
    ∃ written, writeCommand (.vrabitqInstall ⟨[7], 1, 9, [0, 0, 128, 63], [0, 0, 128, 63]⟩) =
        .ok written ∧
      ∀ (reader : Stream) (suffix : Bytes), reader.bytes = written ++ suffix →
        ∃ reader', readFrameAlloc reader =
          .ok (.vrabitqInstall ⟨[7], 1, 9, [0, 0, 128, 63], [0, 0, 128, 63]⟩, reader') ∧
          reader'.bytes = suffix := by
  refine wire_round_trip.1 _ ⟨by decide, ?_⟩
  intro params hparams
  cases hparams
  decide

/-! ## The two parsers -/

/-- A copied field and a field cut out of the payload are the same bytes. -/
theorem sliceBytesField_eq : sliceBytesField = readBytesField := rfl

theorem parseCommandPayloadZeroCopy_eq (cmdId : CommandId) (payload : Bytes) :
    parseCommandPayloadZeroCopy cmdId payload = parseCommandPayload cmdId payload := by
  cases cmdId with
  | exec => rfl
  | vbulkinsert => rfl
  | _ => simp only [parseCommandPayloadZeroCopy, parseCommandPayload, sliceBytesField_eq]

theorem readFrameZeroCopy_eq : readFrameZeroCopy = readFrameAlloc := by
  have hparse : parseCommandPayloadZeroCopy = parseCommandPayload :=
    funext fun cmdId => funext (parseCommandPayloadZeroCopy_eq cmdId)
  rw [readFrameZeroCopy, readFrameAlloc, hparse]

/-- **The zero-copy parser and the allocating parser agree** on every payload, well formed or
not: the same command or the same error.  So do the two readers of frames. -/
theorem zero_copy_agrees :
    (∀ (cmdId : CommandId) (payload : Bytes),
      parseCommandPayloadZeroCopy cmdId payload = parseCommandPayload cmdId payload) ∧
    ∀ reader : Stream, readFrameZeroCopy reader = readFrameAlloc reader := by
  refine ⟨parseCommandPayloadZeroCopy_eq, fun reader => ?_⟩
  rw [readFrameZeroCopy_eq]

end WormDB
