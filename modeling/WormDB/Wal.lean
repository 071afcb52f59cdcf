import WormDB.Types
import WormDB.Crc32c

/-! # The write-ahead log file

Records as `storage/wal.zig` serializes and iterates them:
`[u32 crc][u8 type][u64 length][payload]`, little-endian, the checksum over the
payload.  The iterator's position is the suffix of the file still to be read; a
record that is cut short ends the log, anything else that does not parse is
corruption. -/
namespace WormDB
open ByteCodec

inductive WalRecord where
  | set (key value : Bytes) (flags : EntryFlags) (timestamp : UInt64)
  | delete (key : Bytes)
  | vinsert (key ns metric : Bytes) (flags : UInt8) (timestamp : UInt64)
  | vdelete (key ns : Bytes)
  deriving DecidableEq

inductive WalRecordType where
  | set | delete | vinsert | vdelete

def WalRecordType.toByte : WalRecordType → UInt8
  | .set => 0x01
  | .delete => 0x02
  | .vinsert => 0x03
  | .vdelete => 0x04

def WalRecordType.ofByte (b : UInt8) : Option WalRecordType :=
  if b = 0x01 then some .set
  else if b = 0x02 then some .delete
  else if b = 0x03 then some .vinsert
  else if b = 0x04 then some .vdelete
  else none

namespace Wal

def crc32 (data : Bytes) : Nat := Crc32c.checksum data

/-- `@sizeOf(RecordHeader)`. -/
def headerLen : Nat := 4 + 1 + 8

def setPayloadOverhead : Nat := 2 + 4 + 1 + 8
def delPayloadOverhead : Nat := 2
def vinsertPayloadOverhead : Nat := 2 + 2 + 2 + 1 + 8
def vdeletePayloadOverhead : Nat := 2 + 2

/-- The longest payload the iterator reads. -/
def maxPayloadLen : Nat := 1024 * 1024 * 100

/-! ## Serialization -/

/-- Header and payload of a record. -/
def frame (recordType : WalRecordType) (payload : Bytes) : Bytes :=
  leBytes 4 (crc32 payload) ++ [recordType.toByte] ++ leBytes 8 payload.length ++ payload

def setPayload (key value : Bytes) (flags : EntryFlags) (timestamp : UInt64) : Bytes :=
  leBytes 2 key.length ++ leBytes 4 value.length ++ [flags.toByte] ++
    leBytes 8 timestamp.toNat ++ key ++ value

def deletePayload (key : Bytes) : Bytes := leBytes 2 key.length ++ key

def vinsertPayload (key ns metric : Bytes) (flags : UInt8) (timestamp : UInt64) : Bytes :=
  leBytes 2 key.length ++ leBytes 2 ns.length ++ leBytes 2 metric.length ++ [flags] ++
    leBytes 8 timestamp.toNat ++ key ++ ns ++ metric

def vdeletePayload (key ns : Bytes) : Bytes :=
  leBytes 2 key.length ++ leBytes 2 ns.length ++ key ++ ns

/-- A length that does not fit its field traps. -/
def serializeSetRecord (key value : Bytes) (flags : EntryFlags) (timestamp : UInt64) :
    Option Bytes :=
  if key.length < 256 ^ 2 ∧ value.length < 256 ^ 4 then
    some (frame .set (setPayload key value flags timestamp))
  else none

def serializeDeleteRecord (key : Bytes) : Option Bytes :=
  if key.length < 256 ^ 2 then some (frame .delete (deletePayload key)) else none

def serializeVinsertRecord (key ns metric : Bytes) (flags : UInt8) (timestamp : UInt64) :
    Option Bytes :=
  if key.length < 256 ^ 2 ∧ ns.length < 256 ^ 2 ∧ metric.length < 256 ^ 2 then
    some (frame .vinsert (vinsertPayload key ns metric flags timestamp))
  else none

def serializeVdeleteRecord (key ns : Bytes) : Option Bytes :=
  if key.length < 256 ^ 2 ∧ ns.length < 256 ^ 2 then
    some (frame .vdelete (vdeletePayload key ns))
  else none

def serializeRecord : WalRecord → Option Bytes
  | .set key value flags timestamp => serializeSetRecord key value flags timestamp
  | .delete key => serializeDeleteRecord key
  | .vinsert key ns metric flags timestamp => serializeVinsertRecord key ns metric flags timestamp
  | .vdelete key ns => serializeVdeleteRecord key ns

/-! ## Iteration -/

def parseSet (payload : Bytes) : Option WalRecord :=
  if payload.length < setPayloadOverhead then none
  else
    let keyLen := leNat (slice payload 0 2)
    let valueLen := leNat (slice payload 2 4)
    let flags := EntryFlags.ofByte (payload.getD 6 0)
    let timestamp := leNat (slice payload 7 8)
    if 15 + keyLen + valueLen ≠ payload.length then none
    else some (.set (slice payload 15 keyLen) (slice payload (15 + keyLen) valueLen) flags
      timestamp.toUInt64)

def parseDelete (payload : Bytes) : Option WalRecord :=
  if payload.length < delPayloadOverhead then none
  else
    let keyLen := leNat (slice payload 0 2)
    if 2 + keyLen ≠ payload.length then none
    else some (.delete (slice payload 2 keyLen))

def parseVinsert (payload : Bytes) : Option WalRecord :=
  if payload.length < vinsertPayloadOverhead then none
  else
    let keyLen := leNat (slice payload 0 2)
    let nsLen := leNat (slice payload 2 2)
    let metricLen := leNat (slice payload 4 2)
    let flags := payload.getD 6 0
    if flags &&& 0b11111100 ≠ 0 then none
    else
      let timestamp := leNat (slice payload 7 8)
      if 15 + keyLen + nsLen + metricLen ≠ payload.length then none
      else some (.vinsert (slice payload 15 keyLen) (slice payload (15 + keyLen) nsLen)
        (slice payload (15 + keyLen + nsLen) metricLen) flags timestamp.toUInt64)

def parseVdelete (payload : Bytes) : Option WalRecord :=
  if payload.length < vdeletePayloadOverhead then none
  else
    let keyLen := leNat (slice payload 0 2)
    let nsLen := leNat (slice payload 2 2)
    if 4 + keyLen + nsLen ≠ payload.length then none
    else some (.vdelete (slice payload 4 keyLen) (slice payload (4 + keyLen) nsLen))

def parseRecord : WalRecordType → Bytes → Option WalRecord
  | .set => parseSet
  | .delete => parseDelete
  | .vinsert => parseVinsert
  | .vdelete => parseVdelete

/-- What one call of the iterator gives: a record and the rest of the file, the
end of the log, corruption, or the trap of an unknown record type. -/
inductive Next where
  | record (r : WalRecord) (rest : Bytes)
  | done
  | corruption
  | trap

def next (bytes : Bytes) : Next :=
  match splitBytes headerLen bytes with
  | none => .done
  | some (header, rest) =>
      let crc := leNat (slice header 0 4)
      let recordType := header.getD 4 0
      let payloadLen := leNat (slice header 5 8)
      if payloadLen = 0 ∨ payloadLen > maxPayloadLen then .corruption
      else
        match splitBytes payloadLen rest with
        | none => .done
        | some (payload, rest) =>
            if crc32 payload ≠ crc then .corruption
            else
              match WalRecordType.ofByte recordType with
              | none => .trap
              | some recordType =>
                  match parseRecord recordType payload with
                  | none => .corruption
                  | some record => .record record rest

/-! ## Reading back a record -/

theorem crc32_lt (data : Bytes) : crc32 data < 256 ^ 4 := Crc32c.checksum_lt data

theorem frame_length (recordType : WalRecordType) (payload : Bytes) :
    (frame recordType payload).length = headerLen + payload.length := by
  simp [frame, headerLen]
  omega

theorem ofByte_toByte (recordType : WalRecordType) :
    WalRecordType.ofByte recordType.toByte = some recordType := by
  cases recordType <;> rfl

variable {payload : Bytes}

/-- The fields of a frame's header, as the iterator reads them. -/
theorem frame_header (recordType : WalRecordType) (hlt : payload.length < 256 ^ 8) (rest : Bytes) :
    ∃ header, splitBytes headerLen (frame recordType payload ++ rest) =
        some (header, payload ++ rest) ∧ leNat (slice header 0 4) = crc32 payload ∧
      header.getD 4 0 = recordType.toByte ∧ leNat (slice header 5 8) = payload.length := by
  have hsplit : splitBytes headerLen (frame recordType payload ++ rest) =
      some (leBytes 4 (crc32 payload) ++ [recordType.toByte] ++ leBytes 8 payload.length,
        payload ++ rest) := by
    rw [frame, List.append_assoc]
    exact splitBytes_append _ (by simp [headerLen])
  generalize hh : leBytes 4 (crc32 payload) ++ [recordType.toByte] ++ leBytes 8 payload.length =
    header at hsplit
  have hcrc : slice header 0 4 = leBytes 4 (crc32 payload) :=
    slice_eq [] _ ([recordType.toByte] ++ leBytes 8 payload.length) (by simp [← hh]) rfl (by simp)
  have hlen : slice header 5 8 = leBytes 8 payload.length :=
    slice_eq (leBytes 4 (crc32 payload) ++ [recordType.toByte]) _ [] (by simp [← hh]) (by simp)
      (by simp)
  have htype : header.getD 4 0 = recordType.toByte :=
    getD_eq (leBytes 4 (crc32 payload)) (leBytes 8 payload.length) (by simp [← hh]) (by simp)
  refine ⟨header, hsplit, ?_, htype, ?_⟩
  · rw [hcrc, leNat_leBytes_of_lt (crc32_lt payload)]
  · rw [hlen, leNat_leBytes_of_lt hlt]

/-- A frame of a type and payload the iterator can parse reads back. -/
theorem next_frame {recordType : WalRecordType} {record : WalRecord}
    (hpos : 0 < payload.length) (hmax : payload.length ≤ maxPayloadLen)
    (hparse : parseRecord recordType payload = some record) (rest : Bytes) :
    next (frame recordType payload ++ rest) = .record record rest := by
  have hlt : payload.length < 256 ^ 8 := by rw [maxPayloadLen] at hmax; omega
  obtain ⟨header, hsplit, hcrc, htype, hlen⟩ := frame_header recordType hlt rest
  rw [next, hsplit]
  simp only [hcrc, htype, hlen]
  rw [if_neg (by omega), splitBytes_append rest rfl]
  simp only [ne_eq, not_true_eq_false, if_false, ofByte_toByte, hparse]

theorem toUInt64_toNat (n : UInt64) : n.toNat.toUInt64 = n := by
  rw [Nat.toUInt64_eq, UInt64.ofNat_toNat]

theorem setPayload_length (key value : Bytes) (flags : EntryFlags) (timestamp : UInt64) :
    (setPayload key value flags timestamp).length =
      setPayloadOverhead + key.length + value.length := by
  simp [setPayload, setPayloadOverhead]
  omega

variable {key : Bytes}

theorem parseSet_setPayload {value : Bytes} (flags : EntryFlags) (timestamp : UInt64)
    (hk : key.length < 256 ^ 2) (hv : value.length < 256 ^ 4) :
    parseSet (setPayload key value flags timestamp) = some (.set key value flags timestamp) := by
  have hlen := setPayload_length key value flags timestamp
  generalize hp : setPayload key value flags timestamp = payload at hlen ⊢
  unfold setPayload at hp
  have hkeyLen : slice payload 0 2 = leBytes 2 key.length :=
    slice_eq [] _ (leBytes 4 value.length ++ [flags.toByte] ++ leBytes 8 timestamp.toNat ++ key ++
      value) (by simp [← hp]) rfl (by simp)
  have hvalueLen : slice payload 2 4 = leBytes 4 value.length :=
    slice_eq (leBytes 2 key.length) _ ([flags.toByte] ++ leBytes 8 timestamp.toNat ++ key ++ value)
      (by simp [← hp]) (by simp) (by simp)
  have hflags : payload.getD 6 0 = flags.toByte :=
    getD_eq (leBytes 2 key.length ++ leBytes 4 value.length)
      (leBytes 8 timestamp.toNat ++ key ++ value) (by simp [← hp]) (by simp)
  have htime : slice payload 7 8 = leBytes 8 timestamp.toNat :=
    slice_eq (leBytes 2 key.length ++ leBytes 4 value.length ++ [flags.toByte]) _ (key ++ value)
      (by simp [← hp]) (by simp) (by simp)
  have hkey : slice payload 15 key.length = key :=
    slice_eq (leBytes 2 key.length ++ leBytes 4 value.length ++ [flags.toByte] ++
      leBytes 8 timestamp.toNat) _ value (by simp [← hp]) (by simp) rfl
  have hvalue : slice payload (15 + key.length) value.length = value :=
    slice_eq (leBytes 2 key.length ++ leBytes 4 value.length ++ [flags.toByte] ++
      leBytes 8 timestamp.toNat ++ key) _ [] (by simp [← hp]) (by simp; omega) rfl
  have htime64 : timestamp.toNat < 256 ^ 8 := timestamp.toNat_lt
  rw [setPayloadOverhead] at hlen
  simp only [parseSet, setPayloadOverhead, hkeyLen, hvalueLen, hflags, htime,
    leNat_leBytes_of_lt hk, leNat_leBytes_of_lt hv, leNat_leBytes_of_lt htime64, hkey, hvalue,
    EntryFlags.ofByte_toByte, toUInt64_toNat]
  rw [if_neg (by omega), if_neg (by omega)]

theorem deletePayload_length (key : Bytes) :
    (deletePayload key).length = delPayloadOverhead + key.length := by
  simp [deletePayload, delPayloadOverhead]

theorem parseDelete_deletePayload (hk : key.length < 256 ^ 2) :
    parseDelete (deletePayload key) = some (.delete key) := by
  have hlen := deletePayload_length key
  generalize hp : deletePayload key = payload at hlen ⊢
  unfold deletePayload at hp
  have hkeyLen : slice payload 0 2 = leBytes 2 key.length :=
    slice_eq [] _ key (by simp [← hp]) rfl (by simp)
  have hkey : slice payload 2 key.length = key :=
    slice_eq (leBytes 2 key.length) _ [] (by simp [← hp]) (by simp) rfl
  rw [delPayloadOverhead] at hlen
  simp only [parseDelete, delPayloadOverhead, hkeyLen, leNat_leBytes_of_lt hk, hkey]
  rw [if_neg (by omega), if_neg (by omega)]

variable {ns : Bytes}

theorem parseVinsert_vinsertPayload {metric : Bytes} {flags : UInt8} (timestamp : UInt64)
    (hk : key.length < 256 ^ 2) (hn : ns.length < 256 ^ 2) (hm : metric.length < 256 ^ 2)
    (hflags : flags &&& 0b11111100 = 0) :
    parseVinsert (vinsertPayload key ns metric flags timestamp) =
      some (.vinsert key ns metric flags timestamp) := by
  have hlen : (vinsertPayload key ns metric flags timestamp).length =
      15 + key.length + ns.length + metric.length := by
    simp [vinsertPayload]
    omega
  generalize hp : vinsertPayload key ns metric flags timestamp = payload at hlen ⊢
  unfold vinsertPayload at hp
  have hkeyLen : slice payload 0 2 = leBytes 2 key.length :=
    slice_eq [] _ (leBytes 2 ns.length ++ leBytes 2 metric.length ++ [flags] ++
      leBytes 8 timestamp.toNat ++ key ++ ns ++ metric) (by simp [← hp]) rfl (by simp)
  have hnsLen : slice payload 2 2 = leBytes 2 ns.length :=
    slice_eq (leBytes 2 key.length) _ (leBytes 2 metric.length ++ [flags] ++
      leBytes 8 timestamp.toNat ++ key ++ ns ++ metric) (by simp [← hp]) (by simp) (by simp)
  have hmetricLen : slice payload 4 2 = leBytes 2 metric.length :=
    slice_eq (leBytes 2 key.length ++ leBytes 2 ns.length) _ ([flags] ++
      leBytes 8 timestamp.toNat ++ key ++ ns ++ metric) (by simp [← hp]) (by simp) (by simp)
  have hflag : payload.getD 6 0 = flags :=
    getD_eq (leBytes 2 key.length ++ leBytes 2 ns.length ++ leBytes 2 metric.length)
      (leBytes 8 timestamp.toNat ++ key ++ ns ++ metric) (by simp [← hp]) (by simp)
  have htime : slice payload 7 8 = leBytes 8 timestamp.toNat :=
    slice_eq (leBytes 2 key.length ++ leBytes 2 ns.length ++ leBytes 2 metric.length ++ [flags]) _
      (key ++ ns ++ metric) (by simp [← hp]) (by simp) (by simp)
  have hkey : slice payload 15 key.length = key :=
    slice_eq (leBytes 2 key.length ++ leBytes 2 ns.length ++ leBytes 2 metric.length ++ [flags] ++
      leBytes 8 timestamp.toNat) _ (ns ++ metric) (by simp [← hp]) (by simp) rfl
  have hns : slice payload (15 + key.length) ns.length = ns :=
    slice_eq (leBytes 2 key.length ++ leBytes 2 ns.length ++ leBytes 2 metric.length ++ [flags] ++
      leBytes 8 timestamp.toNat ++ key) _ metric (by simp [← hp]) (by simp; omega) rfl
  have hmetric : slice payload (15 + key.length + ns.length) metric.length = metric :=
    slice_eq (leBytes 2 key.length ++ leBytes 2 ns.length ++ leBytes 2 metric.length ++ [flags] ++
      leBytes 8 timestamp.toNat ++ key ++ ns) _ [] (by simp [← hp]) (by simp; omega) rfl
  have htime64 : timestamp.toNat < 256 ^ 8 := timestamp.toNat_lt
  simp only [parseVinsert, vinsertPayloadOverhead, hkeyLen, hnsLen, hmetricLen, hflag, htime,
    leNat_leBytes_of_lt hk, leNat_leBytes_of_lt hn, leNat_leBytes_of_lt hm,
    leNat_leBytes_of_lt htime64, hkey, hns, hmetric, toUInt64_toNat]
  rw [if_neg (by omega), if_neg (by simpa using hflags), if_neg (by omega)]

theorem parseVdelete_vdeletePayload (hk : key.length < 256 ^ 2) (hn : ns.length < 256 ^ 2) :
    parseVdelete (vdeletePayload key ns) = some (.vdelete key ns) := by
  have hlen : (vdeletePayload key ns).length = 4 + key.length + ns.length := by
    simp [vdeletePayload]
    omega
  generalize hp : vdeletePayload key ns = payload at hlen ⊢
  unfold vdeletePayload at hp
  have hkeyLen : slice payload 0 2 = leBytes 2 key.length :=
    slice_eq [] _ (leBytes 2 ns.length ++ key ++ ns) (by simp [← hp]) rfl (by simp)
  have hnsLen : slice payload 2 2 = leBytes 2 ns.length :=
    slice_eq (leBytes 2 key.length) _ (key ++ ns) (by simp [← hp]) (by simp) (by simp)
  have hkey : slice payload 4 key.length = key :=
    slice_eq (leBytes 2 key.length ++ leBytes 2 ns.length) _ ns (by simp [← hp]) (by simp) rfl
  have hns : slice payload (4 + key.length) ns.length = ns :=
    slice_eq (leBytes 2 key.length ++ leBytes 2 ns.length ++ key) _ [] (by simp [← hp])
      (by simp; omega) rfl
  simp only [parseVdelete, vdeletePayloadOverhead, hkeyLen, hnsLen, leNat_leBytes_of_lt hk,
    leNat_leBytes_of_lt hn, hkey, hns]
  rw [if_neg (by omega), if_neg (by omega)]

end Wal
end WormDB
