import WormDB.WalIterator

/-! # A changed byte in the log

The checksum of a record covers its payload only.  A byte that changes in the payload or
in the checksum is always seen.  A changed length gives the payload another end, and the
lengths inside the payload then do not add up.  The type of a record is not protected: a
type that no kind of record has is cast all the same, and a SET and a VINSERT whose
payloads have one shape are read as each other (`Unprotected`).  Every other change of one
byte leaves the records before it and then an error or the end of the log
(`corruption_detected_iff`). -/
namespace WormDB
open List ByteCodec

namespace Wal

/-! ## The lengths inside a payload -/

/-- The bytes that a payload's length fields take. -/
def lengthFields : WalRecordType → Nat
  | .set => 6
  | .delete => 2
  | .vinsert => 6
  | .vdelete => 4

/-- The length of a payload by its length fields. -/
def declaredLen : WalRecordType → Bytes → Nat
  | .set, payload => 15 + leNat (slice payload 0 2) + leNat (slice payload 2 4)
  | .delete, payload => 2 + leNat (slice payload 0 2)
  | .vinsert, payload =>
      15 + leNat (slice payload 0 2) + leNat (slice payload 2 2) + leNat (slice payload 4 2)
  | .vdelete, payload => 4 + leNat (slice payload 0 2) + leNat (slice payload 2 2)

variable {recordType : WalRecordType} {payload : Bytes} {record : WalRecord}

/-- A payload that parses has the length it declares. -/
theorem parseRecord_length (h : parseRecord recordType payload = some record) :
    lengthFields recordType ≤ payload.length ∧ payload.length = declaredLen recordType payload := by
  cases recordType with
  | set =>
    rw [parseRecord, parseSet, setPayloadOverhead] at h
    by_cases hshort : payload.length < 2 + 4 + 1 + 8
    · rw [if_pos hshort] at h
      cases h
    · rw [if_neg hshort] at h
      by_cases hlen : 15 + leNat (slice payload 0 2) + leNat (slice payload 2 4) ≠ payload.length
      · rw [if_pos hlen] at h
        cases h
      · simp only [lengthFields, declaredLen]
        omega
  | delete =>
    rw [parseRecord, parseDelete, delPayloadOverhead] at h
    by_cases hshort : payload.length < 2
    · rw [if_pos hshort] at h
      cases h
    · rw [if_neg hshort] at h
      by_cases hlen : 2 + leNat (slice payload 0 2) ≠ payload.length
      · rw [if_pos hlen] at h
        cases h
      · simp only [lengthFields, declaredLen]
        omega
  | vinsert =>
    rw [parseRecord, parseVinsert, vinsertPayloadOverhead] at h
    by_cases hshort : payload.length < 2 + 2 + 2 + 1 + 8
    · rw [if_pos hshort] at h
      cases h
    · rw [if_neg hshort] at h
      by_cases hflags : payload.getD 6 0 &&& 0b11111100 ≠ 0
      · rw [if_pos hflags] at h
        cases h
      · rw [if_neg hflags] at h
        by_cases hlen : 15 + leNat (slice payload 0 2) + leNat (slice payload 2 2) +
            leNat (slice payload 4 2) ≠ payload.length
        · rw [if_pos hlen] at h
          cases h
        · simp only [lengthFields, declaredLen]
          omega
  | vdelete =>
    rw [parseRecord, parseVdelete, vdeletePayloadOverhead] at h
    by_cases hshort : payload.length < 2 + 2
    · rw [if_pos hshort] at h
      cases h
    · rw [if_neg hshort] at h
      by_cases hlen : 4 + leNat (slice payload 0 2) + leNat (slice payload 2 2) ≠ payload.length
      · rw [if_pos hlen] at h
        cases h
      · simp only [lengthFields, declaredLen]
        omega

variable {bs : Bytes} {n : Nat}

theorem slice_take {pos len : Nat} (h : pos + len ≤ n) :
    slice (bs.take n) pos len = slice bs pos len := by
  rw [slice, slice, drop_take, take_take, Nat.min_eq_left (by omega)]

/-- Only the length fields count. -/
theorem declaredLen_take (recordType : WalRecordType) (payload : Bytes) :
    declaredLen recordType (payload.take (lengthFields recordType)) =
      declaredLen recordType payload := by
  cases recordType <;> simp only [declaredLen, lengthFields] <;>
    simp only [slice_take (show 0 + 2 ≤ 6 by decide), slice_take (show 2 + 4 ≤ 6 by decide),
      slice_take (show 2 + 2 ≤ 6 by decide), slice_take (show 4 + 2 ≤ 6 by decide),
      slice_take (show 0 + 2 ≤ 2 by decide), slice_take (show 0 + 2 ≤ 4 by decide),
      slice_take (show 2 + 2 ≤ 4 by decide)]

/-- Two beginnings of one string that parse as the same kind have the same end. -/
theorem parseRecord_unique {bytes : Bytes} {m : Nat}
    {record' : WalRecord} (hn : n ≤ bytes.length) (hm : m ≤ bytes.length)
    (h : parseRecord recordType (bytes.take n) = some record)
    (h' : parseRecord recordType (bytes.take m) = some record') : n = m := by
  obtain ⟨hfields, hlen⟩ := parseRecord_length h
  obtain ⟨hfields', hlen'⟩ := parseRecord_length h'
  rw [length_take, Nat.min_eq_left hn] at hfields hlen
  rw [length_take, Nat.min_eq_left hm] at hfields' hlen'
  rw [← declaredLen_take, take_take, Nat.min_eq_left hfields] at hlen
  rw [← declaredLen_take, take_take, Nat.min_eq_left hfields'] at hlen'
  rw [hlen, hlen']

theorem leNat_append (xs ys : Bytes) : leNat (xs ++ ys) = leNat xs + 256 ^ xs.length * leNat ys := by
  induction xs with
  | nil => simp [leNat]
  | cons x xs ih =>
    rw [cons_append, leNat, leNat, ih, length_cons, Nat.pow_succ', Nat.mul_add,
      mul_assoc, add_assoc]

/-- The value length of a SET is where a VINSERT has two lengths. -/
theorem leNat_slice_four {payload : Bytes} (h : 6 ≤ payload.length) :
    leNat (slice payload 2 4) = leNat (slice payload 2 2) + 65536 * leNat (slice payload 4 2) := by
  have hsplit : slice payload 2 4 = slice payload 2 2 ++ slice payload 4 2 := by
    rw [slice, slice, slice, show 4 = 2 + 2 from rfl, take_add, drop_drop]
  have hlen : (slice payload 2 2).length = 2 := by
    rw [slice, length_take, length_drop]
    omega
  rw [hsplit, leNat_append, hlen]
  rfl

theorem leNat_slice_lt (bs : Bytes) (pos len : Nat) : leNat (slice bs pos len) < 256 ^ len := by
  refine lt_of_lt_of_le (leNat_lt _) (Nat.pow_le_pow_right (by decide) ?_)
  rw [slice, length_take]
  exact min_le_left _ _

/-! ## One call on a changed record -/

variable {crc len : Bytes}

/-- A call on the fields of a header. -/
theorem next_fields (hcrc : crc.length = 4) (hlen : len.length = 8)
    (type : UInt8) (bytes : Bytes) :
    next (crc ++ [type] ++ len ++ bytes) =
      if leNat len = 0 ∨ leNat len > maxPayloadLen then .corruption
      else
        match splitBytes (leNat len) bytes with
        | none => .done
        | some (payload, rest) =>
            if crc32 payload ≠ leNat crc then .corruption
            else
              match WalRecordType.ofByte type with
              | none => .trap
              | some recordType =>
                  match parseRecord recordType payload with
                  | none => .corruption
                  | some record => .record record rest := by
  have hsplit : splitBytes headerLen (crc ++ [type] ++ len ++ bytes) =
      some (crc ++ [type] ++ len, bytes) := splitBytes_append bytes (by simp [headerLen, hcrc, hlen])
  have hcrcAt : slice (crc ++ [type] ++ len) 0 4 = crc :=
    slice_eq [] _ ([type] ++ len) (by simp) rfl hcrc
  have htypeAt : (crc ++ [type] ++ len).getD 4 0 = type := getD_eq crc len (by simp) hcrc
  have hlenAt : slice (crc ++ [type] ++ len) 5 8 = len :=
    slice_eq (crc ++ [type]) _ [] (by simp) (by simp [hcrc]) hlen
  rw [next, hsplit]
  dsimp only
  generalize slice (crc ++ [type] ++ len) 0 4 = c at hcrcAt ⊢
  generalize (crc ++ [type] ++ len).getD 4 0 = t at htypeAt ⊢
  generalize slice (crc ++ [type] ++ len) 5 8 = l at hlenAt ⊢
  subst hcrcAt htypeAt hlenAt
  rfl

theorem leNat_inj {xs ys : Bytes} (hlen : xs.length = ys.length) (h : leNat xs = leNat ys) :
    xs = ys := by
  rw [← leBytes_leNat xs, ← leBytes_leNat ys, hlen, h]

/-- A frame with one byte changed to `b`, by the field the byte is in. -/
inductive ChangedFrame (recordType : WalRecordType) (payload : Bytes) (b : UInt8) :
    Nat → Bytes → Prop where
  | crc {i : Nat} {crc : Bytes} (hlen : crc.length = 4) (hne : crc ≠ leBytes 4 (crc32 payload))
      (hi : i ≠ 4) : ChangedFrame recordType payload b i
        (crc ++ [recordType.toByte] ++ leBytes 8 payload.length ++ payload)
  | type (hne : b ≠ recordType.toByte) : ChangedFrame recordType payload b 4
      (leBytes 4 (crc32 payload) ++ [b] ++ leBytes 8 payload.length ++ payload)
  | length {i : Nat} {len : Bytes} (hlen : len.length = 8) (hne : len ≠ leBytes 8 payload.length)
      (hi : i ≠ 4) : ChangedFrame recordType payload b i
        (leBytes 4 (crc32 payload) ++ [recordType.toByte] ++ len ++ payload)
  | payload {i : Nat} {before after : Bytes} {old : UInt8} (hold : payload = before ++ [old] ++ after)
      (hne : b ≠ old) (hi : i ≠ 4) : ChangedFrame recordType payload b i
        (leBytes 4 (crc32 payload) ++ [recordType.toByte] ++ leBytes 8 payload.length ++
          (before ++ [b] ++ after))

variable {i : Nat} {old b : UInt8}

theorem set_ne (hold : bs[i]? = some old) (hb : b ≠ old) : bs.set i b ≠ bs := by
  intro heq
  have hget := getElem?_set_self (List.getElem?_eq_some_iff.mp hold).1 (a := b)
  rw [heq, hold] at hget
  exact hb (Option.some.inj hget).symm

theorem frame_set (hold : (frame recordType payload)[i]? = some old) (hb : b ≠ old) :
    ChangedFrame recordType payload b i ((frame recordType payload).set i b) := by
  have hi := (List.getElem?_eq_some_iff.mp hold).1
  rw [frame_length, headerLen] at hi
  rw [frame] at hold ⊢
  by_cases hcrc : i < 4
  · rw [append_assoc, append_assoc, getElem?_append_left (by simpa using hcrc)] at hold
    rw [append_assoc, append_assoc, set_append_left _ _ (by simpa using hcrc),
      ← append_assoc, ← append_assoc]
    exact .crc (by simp) (set_ne hold hb) (by omega)
  · by_cases htype : i = 4
    · subst htype
      have hat : old = recordType.toByte := by
        rw [append_assoc, append_assoc, getElem?_append_right (by simp)] at hold
        simpa using hold.symm
      have hset : (leBytes 4 (crc32 payload) ++ [recordType.toByte] ++ leBytes 8 payload.length ++
          payload).set 4 b = leBytes 4 (crc32 payload) ++ [b] ++ leBytes 8 payload.length ++
          payload := by
        rw [append_assoc, append_assoc, set_append_right _ _ (by simp)]
        simp
      rw [hset]
      exact .type (hat ▸ hb)
    · by_cases hlen : i < 13
      · have hpre : (leBytes 4 (crc32 payload) ++ [recordType.toByte]).length = 5 := by simp
        rw [append_assoc, getElem?_append_right (by omega), hpre,
          getElem?_append_left (by simp; omega)] at hold
        rw [append_assoc, set_append_right _ _ (by omega), hpre,
          set_append_left _ _ (by simp; omega), ← append_assoc]
        exact .length (by simp) (set_ne hold hb) htype
      · have hpre : (leBytes 4 (crc32 payload) ++ [recordType.toByte] ++
            leBytes 8 payload.length).length = 13 := by simp
        rw [getElem?_append_right (by omega), hpre] at hold
        rw [set_append_right _ _ (by omega), hpre]
        obtain ⟨hlt, hget⟩ := List.getElem?_eq_some_iff.mp hold
        have hsplit : payload = payload.take (i - 13) ++ [old] ++ payload.drop (i - 13 + 1) := by
          rw [← hget, take_append_getElem, take_append_drop]
        have hset : payload.set (i - 13) b =
            payload.take (i - 13) ++ [b] ++ payload.drop (i - 13 + 1) := by
          rw [set_eq_take_append_cons_drop, if_pos hlt]
          simp
        rw [hset]
        exact .payload hsplit hb htype

/-- The call does not give a record, and does not cast an unknown type. -/
def Stops (result : Next) : Prop := result = .corruption ∨ result = .done

theorem crc_stops (hlen : crc.length = 4)
    (hne : crc ≠ leBytes 4 (crc32 payload)) (type : UInt8) (hmax : payload.length ≤ maxPayloadLen)
    (rest : Bytes) :
    Stops (next (crc ++ [type] ++ leBytes 8 payload.length ++ payload ++ rest)) := by
  have hlt : payload.length < 256 ^ 8 := by
    rw [maxPayloadLen] at hmax
    omega
  have hcrc : crc32 payload ≠ leNat crc := by
    intro heq
    refine hne (leNat_inj (by simp [hlen]) ?_)
    rw [leNat_leBytes_of_lt (crc32_lt payload), heq]
  rw [append_assoc, next_fields hlen (by simp), leNat_leBytes_of_lt hlt,
    splitBytes_append rest rfl]
  by_cases hbad : payload.length = 0 ∨ payload.length > maxPayloadLen
  · rw [if_pos hbad]
    exact .inl rfl
  · rw [if_neg hbad]
    exact .inl (if_pos hcrc)

/-- The lengths inside the payload do not add up to another length. -/
theorem length_stops (hlen : len.length = 8) (hne : len ≠ leBytes 8 payload.length)
    (hmax : payload.length ≤ maxPayloadLen)
    (hparse : parseRecord recordType payload = some record) (rest : Bytes) :
    Stops (next (leBytes 4 (crc32 payload) ++ [recordType.toByte] ++ len ++ payload ++ rest)) := by
  have hlt : payload.length < 256 ^ 8 := by
    rw [maxPayloadLen] at hmax
    omega
  have hother : leNat len ≠ payload.length := by
    intro heq
    refine hne (leNat_inj (by simp [hlen]) ?_)
    rw [leNat_leBytes_of_lt hlt, heq]
  rw [append_assoc, next_fields (by simp) hlen]
  by_cases hbad : leNat len = 0 ∨ leNat len > maxPayloadLen
  · rw [if_pos hbad]
    exact .inl rfl
  rw [if_neg hbad, splitBytes]
  by_cases hroom : leNat len ≤ (payload ++ rest).length
  · rw [if_pos hroom]
    simp only [ofByte_toByte]
    split
    · exact .inl rfl
    cases hp : parseRecord recordType ((payload ++ rest).take (leNat len)) with
    | none => exact .inl rfl
    | some record' =>
      have hwhole : parseRecord recordType ((payload ++ rest).take payload.length) = some record := by
        rw [take_left' rfl]
        exact hparse
      exact absurd (parseRecord_unique hroom (by simp) hp hwhole) hother
  · rw [if_neg hroom]
    exact .inr rfl

theorem payload_stops {before after : Bytes} (hne : b ≠ old) (type : UInt8)
    (hmax : (before ++ [old] ++ after).length ≤ maxPayloadLen) (rest : Bytes) :
    Stops (next (leBytes 4 (crc32 (before ++ [old] ++ after)) ++ [type] ++
      leBytes 8 (before ++ [old] ++ after).length ++ (before ++ [b] ++ after) ++ rest)) := by
  have hlen : (before ++ [b] ++ after).length = (before ++ [old] ++ after).length := by simp
  refine hlen ▸ crc_stops (by simp) ?_ type (hlen ▸ hmax) rest
  intro heq
  have hcrc := leBytes_inj (crc32_lt _) (crc32_lt _) heq
  have hburst := Crc32c.checksum_burst_inj (by simp) (by simp) hcrc
  exact hne (singleton_inj.mp hburst).symm

end Wal

/-! ## The type of a record -/

namespace WalRecord

/-- With the type byte `b` the payload has the shape of another kind: a SET of a short value
that of a VINSERT without a metric, and the other way round. -/
def PassesAs : WalRecord → UInt8 → Prop
  | .set _ value flags _, b => b = 0x03 ∧ value.length < 65536 ∧ flags.toByte &&& 0b11111100 = 0
  | .vinsert _ _ metric _ _, b => b = 0x01 ∧ metric = []
  | .delete _, _ => False
  | .vdelete _ _, _ => False

/-- The type byte `b` in place of the record's own is not refused. -/
def Unprotected (r : WalRecord) (b : UInt8) : Prop :=
  WalRecordType.ofByte b = none ∨ r.PassesAs b

end WalRecord

theorem leBytes_four {n : Nat} (h : n < 65536) : leBytes 4 n = leBytes 2 n ++ leBytes 2 0 := by
  have hsecond : n / 256 / 256 = 0 := by omega
  rw [leBytes, leBytes, hsecond]
  rfl

variable {key value : Bytes}

/-- One string of bytes, as the payload of either kind. -/
theorem setPayload_eq_vinsertPayload (hv : value.length < 65536)
    (flags : EntryFlags) (timestamp : UInt64) : Wal.setPayload key value flags timestamp =
      Wal.vinsertPayload key value [] flags.toByte timestamp := by
  rw [Wal.setPayload, Wal.vinsertPayload, leBytes_four hv]
  simp

theorem toByte_ofByte (b : UInt8) : (EntryFlags.ofByte b).toByte = b := by
  rw [← UInt8.ofNat_toNat (x := b)]
  have hb : b.toNat < 256 := b.toNat_lt
  generalize b.toNat = n at hb
  revert n
  decide +kernel

variable {flags : EntryFlags} {timestamp : UInt64} {bytes : Bytes}

theorem serializeSetRecord_fits
    (h : Wal.serializeRecord (.set key value flags timestamp) = some bytes) :
    key.length < 256 ^ 2 ∧ value.length < 256 ^ 4 := by
  rw [Wal.serializeRecord, Wal.serializeSetRecord] at h
  split at h
  · assumption
  · cases h

variable {ns metric : Bytes}

theorem serializeVinsertRecord_fits {flags : UInt8}
    (h : Wal.serializeRecord (.vinsert key ns metric flags timestamp) = some bytes) :
    metric.length < 256 ^ 2 := by
  rw [Wal.serializeRecord, Wal.serializeVinsertRecord] at h
  split at h
  · rename_i hfit
    exact hfit.2.2
  · cases h

theorem setPayload_valueLen (hv : value.length < 256 ^ 4) :
    leNat (slice (Wal.setPayload key value flags timestamp) 2 4) = value.length := by
  have hslice : slice (Wal.setPayload key value flags timestamp) 2 4 = leBytes 4 value.length :=
    slice_eq (leBytes 2 key.length) _ ([flags.toByte] ++ leBytes 8 timestamp.toNat ++ key ++ value)
      (by simp [Wal.setPayload]) (by simp) (by simp)
  rw [hslice, leNat_leBytes_of_lt hv]

theorem vinsertPayload_metricLen {flags : UInt8} (hm : metric.length < 256 ^ 2) :
    leNat (slice (Wal.vinsertPayload key ns metric flags timestamp) 4 2) = metric.length := by
  have hslice : slice (Wal.vinsertPayload key ns metric flags timestamp) 4 2 =
      leBytes 2 metric.length :=
    slice_eq (leBytes 2 key.length ++ leBytes 2 ns.length) _ ([flags] ++
      leBytes 8 timestamp.toNat ++ key ++ ns ++ metric) (by simp [Wal.vinsertPayload]) (by simp)
      (by simp)
  rw [hslice, leNat_leBytes_of_lt hm]

variable {r : WalRecord} {b : UInt8}

section
variable (hser : Wal.serializeRecord r = some bytes)
include hser

/-- Another type whose shape the payload has is the one `PassesAs` names. -/
theorem parseRecord_other {r' : WalRecord} {type : WalRecordType} (hacc : WalIterator.Accepted r)
    (hb : WalRecordType.ofByte b = some type) (hne : b ≠ r.recordType.toByte)
    (hparse : Wal.parseRecord type r.payload = some r') : r.PassesAs b := by
  obtain ⟨hfields, hlen⟩ := Wal.parseRecord_length (parseRecord_payload hser hacc.2)
  obtain ⟨hfields', hlen'⟩ := Wal.parseRecord_length hparse
  have hbyte : b = type.toByte := by
    revert hb
    rw [WalRecordType.ofByte]
    split
    · rintro ⟨⟩
      assumption
    split
    · rintro ⟨⟩
      assumption
    split
    · rintro ⟨⟩
      assumption
    split
    · rintro ⟨⟩
      assumption
    · rintro ⟨⟩
  subst hbyte
  -- the first length is that of the key in every kind, so only the lengths after it count
  have hfour := @Wal.leNat_slice_four r.payload
  cases r with
  | set key value flags timestamp =>
    cases type with
    | set => exact absurd rfl hne
    | delete =>
      simp only [WalRecord.recordType, Wal.declaredLen] at hlen hlen'
      omega
    | vdelete =>
      simp only [WalRecord.recordType, Wal.declaredLen, Wal.lengthFields] at hlen hlen' hfields
      have := hfour hfields
      omega
    | vinsert =>
      simp only [WalRecord.recordType, Wal.declaredLen, Wal.lengthFields] at hlen hlen' hfields
      have hmetric := hfour hfields
      have hfit := serializeSetRecord_fits hser
      rw [WalRecord.payload] at hlen hlen' hmetric hparse
      rw [setPayload_valueLen hfit.2] at hlen hmetric
      have hshort := Wal.leNat_slice_lt (Wal.setPayload key value flags timestamp) 2 2
      have hv : value.length < 65536 := by omega
      refine ⟨rfl, hv, ?_⟩
      by_contra hunknown
      rw [setPayload_eq_vinsertPayload hv, Wal.parseRecord,
        WalIterator.parseVinsert_unknownFlags key value [] timestamp hunknown] at hparse
      cases hparse
  | vinsert key ns metric flags timestamp =>
    cases type with
    | vinsert => exact absurd rfl hne
    | delete | vdelete =>
      simp only [WalRecord.recordType, Wal.declaredLen] at hlen hlen'
      omega
    | set =>
      simp only [WalRecord.recordType, Wal.declaredLen, Wal.lengthFields] at hlen hlen' hfields
      have hmetric := hfour hfields
      rw [WalRecord.payload] at hlen hlen' hmetric
      rw [vinsertPayload_metricLen (serializeVinsertRecord_fits hser)] at hlen hmetric
      exact ⟨rfl, length_eq_zero_iff.mp (by omega)⟩
  | delete key =>
    cases type with
    | delete => exact absurd rfl hne
    | _ =>
      simp only [WalRecord.recordType, Wal.declaredLen] at hlen hlen'
      omega
  | vdelete key ns =>
    cases type with
    | vdelete => exact absurd rfl hne
    | delete | vinsert =>
      simp only [WalRecord.recordType, Wal.declaredLen] at hlen hlen'
      omega
    | set =>
      simp only [WalRecord.recordType, Wal.declaredLen, Wal.lengthFields] at hlen hlen' hfields'
      have := hfour hfields'
      omega

/-- A record that passes as another kind is read as another record. -/
theorem parseRecord_passesAs (hacc : WalIterator.Accepted r)
    (h : r.PassesAs b) : ∃ type r', WalRecordType.ofByte b = some type ∧
      Wal.parseRecord type r.payload = some r' ∧ r' ≠ r := by
  cases r with
  | set key value flags timestamp =>
    obtain ⟨rfl, hv, hflags⟩ := h
    have hk := (serializeSetRecord_fits hser).1
    refine ⟨.vinsert, .vinsert key value [] flags.toByte timestamp, rfl, ?_, by simp⟩
    rw [WalRecord.payload, setPayload_eq_vinsertPayload hv]
    exact Wal.parseVinsert_vinsertPayload timestamp hk hv (by decide) hflags
  | vinsert key ns metric flags timestamp =>
    obtain ⟨rfl, rfl⟩ := h
    rw [Wal.serializeRecord, Wal.serializeVinsertRecord] at hser
    split at hser
    · rename_i hfit
      refine ⟨.set, .set key ns (.ofByte flags) timestamp, rfl, ?_, by simp⟩
      rw [WalRecord.payload, ← toByte_ofByte flags, ← setPayload_eq_vinsertPayload hfit.2.1,
        toByte_ofByte]
      exact Wal.parseSet_setPayload _ timestamp hfit.1 (lt_trans hfit.2.1 (by decide))
    · cases hser
  | delete key => exact absurd h (by simp [WalRecord.PassesAs])
  | vdelete key ns => exact absurd h (by simp [WalRecord.PassesAs])

/-- **One call on a record with a changed byte**: it stops there, unless the byte is the type
and the new one is not refused; then it casts an unknown type or gives another record. -/
theorem next_changed
    (hacc : WalIterator.Accepted r) {i : Nat} {old : UInt8} (hold : bytes[i]? = some old)
    (hb : b ≠ old) (rest : Bytes) :
    (¬ (i = 4 ∧ r.Unprotected b) ∧ Wal.Stops (Wal.next (bytes.set i b ++ rest))) ∨
      (i = 4 ∧ r.Unprotected b ∧ (Wal.next (bytes.set i b ++ rest) = .trap ∨
        ∃ r', r' ≠ r ∧ Wal.next (bytes.set i b ++ rest) = .record r' rest)) := by
  have hparse := parseRecord_payload hser hacc.2
  have hpos := payload_pos r
  have hmax : r.payload.length ≤ Wal.maxPayloadLen := hacc.1
  obtain rfl := serializeRecord_eq hser
  have hchanged := Wal.frame_set hold hb
  generalize (Wal.frame r.recordType r.payload).set i b = changed at hchanged ⊢
  cases hchanged with
  | crc hlen hne hi =>
    exact .inl ⟨fun h => hi h.1, Wal.crc_stops hlen hne _ hmax rest⟩
  | length hlen hne hi =>
    exact .inl ⟨fun h => hi h.1, Wal.length_stops hlen hne hmax hparse rest⟩
  | payload hold hne hi =>
    rw [hold] at hmax ⊢
    exact .inl ⟨fun h => hi h.1, Wal.payload_stops hne _ hmax rest⟩
  | type hne =>
    have hlt : r.payload.length < 256 ^ 8 := by
      rw [Wal.maxPayloadLen] at hmax
      omega
    rw [append_assoc, Wal.next_fields (by simp) (by simp), leNat_leBytes_of_lt hlt,
      leNat_leBytes_of_lt (Wal.crc32_lt _), if_neg (by omega), splitBytes_append rest rfl]
    simp only [ne_eq, not_true_eq_false, if_false, true_and]
    cases htype : WalRecordType.ofByte b with
    | none => exact .inr ⟨.inl htype, .inl rfl⟩
    | some type =>
      by_cases hpass : r.PassesAs b
      · obtain ⟨type', r', htype', hother, hr'⟩ := parseRecord_passesAs hser hacc hpass
        cases htype.symm.trans htype'
        simp only [hother]
        exact .inr ⟨.inr hpass, .inr ⟨r', hr', rfl⟩⟩
      · refine .inl ⟨?_, .inl ?_⟩
        · rintro (hnone | h)
          · cases htype.symm.trans hnone
          · exact hpass h
        · cases hp : Wal.parseRecord type r.payload with
          | none => simp only [hp]
          | some r' => exact absurd (parseRecord_other hser hacc htype hne hp) hpass

end

/-! ## A whole image -/

namespace WalIterator

/-- The changed byte is the type of a record, and the new one is not refused there. -/
def Masked (log : List WalRecord) (pos : Nat) (b : UInt8) : Prop :=
  ∃ before r after bytes, log = before ++ r :: after ∧ encodeLog before = some bytes ∧
    pos = bytes.length + 4 ∧ r.Unprotected b

/-- What iterating gave: records that begin the log, and then an error or the end. -/
def Detected (log : List WalRecord) (result : Option (List WalRecord × Item)) : Prop :=
  ∃ records last, result = some (records, last) ∧ records <+: log ∧
    (last = .corruption ∨ last = .done)

variable {it : WalIterator} {r : WalRecord}

theorem iterate_record (hdone : it.done = false) {rest : Bytes}
    (hnext : Wal.next it.contents = .record r rest) (fuel : Nat) :
    ∃ it' : WalIterator, it'.done = false ∧ it'.contents = rest ∧
      it.iterate (fuel + 1) = (it'.iterate fuel).map (fun (rs, last) => (r :: rs, last)) := by
  have hgives := next_refines hdone
  rw [hnext] at hgives
  obtain ⟨hitem, hrest, hdone'⟩ := hgives
  refine ⟨it.next.2, hdone', hrest, ?_⟩
  rw [iterate]
  rcases hcall : it.next with ⟨item, it'⟩
  rw [hcall] at hitem
  obtain rfl : item = .record r := hitem
  rfl

theorem iterate_stops (hdone : it.done = false)
    (hnext : Wal.Stops (Wal.next it.contents)) (fuel : Nat) :
    ∃ last, it.iterate (fuel + 1) = some ([], last) ∧ (last = .corruption ∨ last = .done) := by
  have hgives := next_refines hdone
  rw [iterate]
  rcases hcall : it.next with ⟨item, it'⟩
  rcases hnext with hnext | hnext
  · rw [hnext, Gives, hcall] at hgives
    obtain rfl : item = .corruption := hgives
    exact ⟨_, rfl, .inl rfl⟩
  · rw [hnext, Gives, hcall] at hgives
    obtain rfl : item = .done := hgives
    exact ⟨_, rfl, .inr rfl⟩

theorem iterate_trap (hdone : it.done = false)
    (hnext : Wal.next it.contents = .trap) (fuel : Nat) : it.iterate (fuel + 1) = some
    ([], .trap) := by
  have hgives := next_refines hdone
  rw [hnext] at hgives
  rw [iterate]
  rcases hcall : it.next with ⟨item, it'⟩
  rw [Gives, hcall] at hgives
  obtain rfl : item = .trap := hgives
  rfl

variable {log : List WalRecord} {result : Option (List WalRecord × Item)}

theorem detected_cons :
    Detected (r :: log) (result.map (fun (rs, last) => (r :: rs, last))) ↔ Detected log result := by
  constructor
  · rintro ⟨records, last, hresult, hprefix, hlast⟩
    obtain ⟨⟨rs, last'⟩, rfl, heq⟩ := Option.map_eq_some_iff.mp hresult
    obtain ⟨rfl, rfl⟩ := Prod.mk.inj heq
    exact ⟨rs, last', rfl, (prefix_cons_inj r).mp hprefix, hlast⟩
  · rintro ⟨records, last, rfl, hprefix, hlast⟩
    exact ⟨r :: records, last, rfl, (prefix_cons_inj r).mpr hprefix, hlast⟩

theorem not_detected_other {r' : WalRecord} (hne : r' ≠ r) :
    ¬ Detected (r :: log) (result.map (fun (rs, last) => (r' :: rs, last))) := by
  rintro ⟨records, last, hresult, hprefix, -⟩
  obtain ⟨⟨rs, last'⟩, -, heq⟩ := Option.map_eq_some_iff.mp hresult
  cases heq
  exact hne (cons_prefix_cons.mp hprefix).1

variable {bytes : Bytes}

theorem header_le (h : Wal.serializeRecord r = some bytes) : 13 ≤ bytes.length := by
  rw [serializeRecord_eq h, Wal.frame_length, Wal.headerLen]
  omega

variable {pos : Nat} {b : UInt8}

/-- A change inside the first record is masked there or nowhere. -/
theorem masked_head (hser : Wal.serializeRecord r = some bytes) (hpos : pos < bytes.length) :
    Masked (r :: log) pos b ↔ pos = 4 ∧ r.Unprotected b := by
  constructor
  · rintro ⟨before, r', after, bs, hlog, henc, hat, hun⟩
    cases before with
    | nil =>
      cases henc
      obtain ⟨rfl, -⟩ := cons.inj hlog
      exact ⟨by simpa using hat, hun⟩
    | cons x before =>
      obtain ⟨rfl, -⟩ := cons.inj hlog
      obtain ⟨b₁, bs', hb₁, -, rfl⟩ := encodeLog_cons.mp henc
      cases hser.symm.trans hb₁
      rw [length_append] at hat
      omega
  · rintro ⟨rfl, hun⟩
    exact ⟨[], r, log, [], rfl, rfl, rfl, hun⟩

theorem masked_tail (hser : Wal.serializeRecord r = some bytes) (hpos : bytes.length ≤ pos) :
    Masked (r :: log) pos b ↔ Masked log (pos - bytes.length) b := by
  have hheader := header_le hser
  constructor
  · rintro ⟨before, r', after, bs, hlog, henc, hat, hun⟩
    cases before with
    | nil =>
      rw [encodeLog_nil] at henc
      cases henc
      rw [length_nil] at hat
      omega
    | cons x before =>
      obtain ⟨rfl, htail⟩ := cons.inj hlog
      obtain ⟨b₁, bs', hb₁, hbs', rfl⟩ := encodeLog_cons.mp henc
      cases hser.symm.trans hb₁
      rw [length_append] at hat
      exact ⟨before, r', after, bs', htail, hbs', by omega, hun⟩
  · rintro ⟨before, r', after, bs, rfl, henc, hat, hun⟩
    refine ⟨r :: before, r', after, bytes ++ bs, rfl, encodeLog_cons.mpr ⟨_, _, hser, henc, rfl⟩, ?_,
      hun⟩
    rw [length_append]
    omega

/-- The induction is on the records: up to the changed one each call gives a record of the
log. -/
theorem iterate_changed (henc : encodeLog log = some bytes)
    (hacc : ∀ r ∈ log, Accepted r) {old : UInt8} (hold : bytes[pos]? = some old)
    (hb : b ≠ old) (it : WalIterator) (hdone : it.done = false)
    (hleft : it.contents = bytes.set pos b) {fuel : Nat} (hfuel : log.length < fuel) :
    Detected log (it.iterate fuel) ↔ ¬ Masked log pos b := by
  induction log generalizing bytes pos it fuel with
  | nil =>
    cases henc
    cases hold
  | cons r log ih =>
    obtain ⟨b₁, bs, hb₁, hbs, rfl⟩ := encodeLog_cons.mp henc
    obtain ⟨hr, htail⟩ := forall_mem_cons.mp hacc
    obtain ⟨fuel, rfl⟩ : ∃ n, fuel = n + 1 := ⟨fuel - 1, by omega⟩
    rw [length_cons] at hfuel
    by_cases hpos : pos < b₁.length
    · rw [getElem?_append_left hpos] at hold
      rw [set_append_left _ _ hpos] at hleft
      rw [masked_head hb₁ hpos]
      rcases next_changed hb₁ hr hold hb bs with ⟨hprotected, hstops⟩ | ⟨rfl, hun, hnext⟩
      · obtain ⟨last, hiter, hlast⟩ := iterate_stops hdone (hleft ▸ hstops) fuel
        exact iff_of_true ⟨[], last, hiter, nil_prefix, hlast⟩ hprotected
      · refine iff_of_false ?_ (fun h => h ⟨rfl, hun⟩)
        rcases hnext with htrap | ⟨r', hne, hrecord⟩
        · rw [iterate_trap hdone (hleft ▸ htrap)]
          rintro ⟨records, last, hresult, -, hlast⟩
          cases hresult
          rcases hlast with hlast | hlast <;> cases hlast
        · obtain ⟨it', -, -, hiter⟩ := iterate_record hdone (hleft ▸ hrecord) fuel
          rw [hiter]
          exact not_detected_other hne
    · have hle : b₁.length ≤ pos := le_of_not_gt hpos
      rw [getElem?_append_right hle] at hold
      rw [set_append_right _ _ hle] at hleft
      obtain ⟨it', hdone', hrest, hiter⟩ :=
        iterate_record hdone (hleft ▸ next_serializeRecord hb₁ hr.2 hr.1 _) fuel
      rw [hiter, detected_cons, masked_tail hb₁ hle]
      exact ih hbs htail hold it' hdone' hrest (Nat.lt_of_succ_lt_succ hfuel)

/-- **A changed byte of the log is seen, unless it is the type of a record.**  For every image
of valid records, every byte of it and every other value of that byte: iterating gives records
that begin the log and then an error or the end, exactly when the change is not one of a type
byte to an unknown type or to the other kind of the same shape. -/
theorem corruption_detected_iff (log : List WalRecord) (bytes : Bytes)
    (henc : encodeLog log = some bytes) (hacc : ∀ r ∈ log, Accepted r) (pos : Nat) (old b : UInt8)
    (hold : bytes[pos]? = some old) (hb : b ≠ old) (it : WalIterator) (hdone : it.done = false)
    (hleft : it.contents = bytes.set pos b) :
    Detected log (it.iterate ((bytes.set pos b).length + 1)) ↔ ¬ Masked log pos b := by
  have hlen := encodeLog_length henc
  refine iterate_changed henc hacc hold hb it hdone hleft ?_
  rw [length_set]
  omega

/-- The log of one SET. -/
def oneSet : List WalRecord := [.set [1] [2] (.written false) 7]

/-- Its key is changed. -/
theorem oneSet_key_detected :
    Detected oneSet ((start (((encodeLog oneSet).getD []).set 28 9)).iterate
      ((((encodeLog oneSet).getD []).set 28 9).length + 1)) := by
  have henc : encodeLog oneSet = some ((encodeLog oneSet).getD []) := by decide +kernel
  refine (corruption_detected_iff oneSet _ henc (by decide) 28 1 9 (by decide +kernel) (by decide)
    (start _) rfl rfl).mpr ?_
  have hser : Wal.serializeRecord (.set [1] [2] (.written false) 7) =
      some ((encodeLog oneSet).getD []) := by decide +kernel
  rw [oneSet, masked_head hser (by decide +kernel)]
  rintro ⟨h, -⟩
  cases h

/-- **A changed type is not seen**: the SET is read as a VINSERT into the namespace that its
value names, and an unknown type is cast. -/
theorem oneSet_type_not_detected :
    ∃ bytes, encodeLog oneSet = some bytes ∧ bytes[4]? = some 1 ∧
      (start (bytes.set 4 3)).iterate ((bytes.set 4 3).length + 1) =
        some ([.vinsert [1] [2] [] 0 7], .done) ∧
      (start (bytes.set 4 9)).iterate ((bytes.set 4 9).length + 1) = some ([], .trap) ∧
      ¬ Detected oneSet ((start (bytes.set 4 3)).iterate ((bytes.set 4 3).length + 1)) ∧
      ¬ Detected oneSet ((start (bytes.set 4 9)).iterate ((bytes.set 4 9).length + 1)) := by
  have hread : (start (((encodeLog oneSet).getD []).set 4 3)).iterate
      ((((encodeLog oneSet).getD []).set 4 3).length + 1) =
        some ([.vinsert [1] [2] [] 0 7], .done) := by decide +kernel
  have hcast : (start (((encodeLog oneSet).getD []).set 4 9)).iterate
      ((((encodeLog oneSet).getD []).set 4 9).length + 1) = some ([], .trap) := by decide +kernel
  refine ⟨(encodeLog oneSet).getD [], by decide +kernel, by decide +kernel, hread, hcast, ?_, ?_⟩
  · rw [hread]
    rintro ⟨records, last, hresult, hprefix, -⟩
    cases hresult
    revert hprefix
    decide
  · rw [hcast]
    rintro ⟨records, last, hresult, -, hlast⟩
    cases hresult
    revert hlast
    decide

end WalIterator
end WormDB
