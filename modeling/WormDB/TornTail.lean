import WormDB.Restart

/-! # A torn record and what is appended after it

A crash can cut the last record of the log at any byte.  The iterator takes the
rest for the end of the log, so the store opens; but nothing removes the bytes,
and the next record is appended right after them.  To the iterator they are then
one record, with a wrong length or a wrong checksum, or one that ends beyond the
file.

So a second open recovers everything exactly when the cut left no byte of the
record behind, or the store accepts no write any more (`torn_tail_iff`). -/
namespace WormDB
open List ByteCodec GuardedReplay CheckpointedLog Wal

/-! ## What the iterator makes of it -/

namespace Wal

/-- A length with one of its four high bytes set is refused. -/
theorem next_high_byte {bytes : Bytes} {i : Nat} {b : UInt8} (hlen : headerLen ≤ bytes.length)
    (h4 : 4 ≤ i) (h8 : i < 8) (hb : bytes[5 + i]? = some b) (hpos : b ≠ 0) :
    Wal.next bytes = .corruption := by
  have hsplit : splitBytes headerLen bytes = some (bytes.take headerLen, bytes.drop headerLen) :=
    if_pos hlen
  have hfield : (slice (bytes.take headerLen) 5 8)[i]? = some b := by
    rw [slice, getElem?_take_of_lt h8, getElem?_drop,
      getElem?_take_of_lt (by rw [headerLen]; omega), hb]
  have hplace := le_leNat hfield
  have hone : 1 ≤ b.toNat := by
    rw [Nat.one_le_iff_ne_zero]
    exact fun hzero => hpos (UInt8.toNat_inj.mp hzero)
  have hpow : 256 ^ 4 ≤ b.toNat * 256 ^ i :=
    calc 256 ^ 4 ≤ 256 ^ i := Nat.pow_le_pow_right (by decide) h4
      _ ≤ b.toNat * 256 ^ i := Nat.le_mul_of_pos_left _ hone
  have hmax : maxPayloadLen < 256 ^ 4 := by decide
  rw [Wal.next, hsplit]
  exact if_pos (.inr (by omega))

/-- A byte of a record, at its place after a torn one. -/
theorem getElem?_after (t w : Bytes) (j : Nat) : (t ++ w)[t.length + j]? = w[j]? := by
  rw [getElem?_append_right (Nat.le_add_right _ _), Nat.add_sub_cancel_left]

theorem frame_low_crc (recordType : WalRecordType) (payload : Bytes) :
    (frame recordType payload)[0]? = some (crc32 payload).toUInt8 := by
  simp [frame, leBytes]

theorem frame_type (recordType : WalRecordType) (payload : Bytes) :
    (frame recordType payload)[4]? = some recordType.toByte := by
  simp [frame, leBytes]

/-- The fourth byte of the length. -/
theorem frame_length_high (recordType : WalRecordType) (payload : Bytes) :
    (frame recordType payload)[8]? = some (payload.length / 256 / 256 / 256).toUInt8 := by
  simp [frame, leBytes]

theorem frame_long (recordType : WalRecordType) (payload : Bytes) :
    headerLen ≤ (frame recordType payload).length := by
  rw [frame_length]
  exact Nat.le_add_right _ _

variable {n : Nat}

theorem toUInt8_ne_zero (h : n % 256 ≠ 0) : n.toUInt8 ≠ 0 := by
  intro hzero
  apply h
  rw [← toNat_toUInt8, hzero]
  rfl

/-- The last byte of the value ends the payload, and changes nothing before it. -/
theorem setPayload_last (key value : Bytes) (flags : EntryFlags) (timestamp : UInt64) :
    ∃ pre : Bytes, value.length ≤ pre.length ∧
      ∀ b, setPayload key (value ++ [b]) flags timestamp = pre ++ [b] := by
  refine ⟨leBytes 2 key.length ++ leBytes 4 (value.length + 1) ++ [flags.toByte] ++
    leBytes 8 timestamp.toNat ++ key ++ value, ?_, fun b => ?_⟩
  · rw [length_append]
    exact Nat.le_add_left _ _
  · simp [setPayload]

/-- Two payloads that differ in the last bit only: in front of them, their headers
make a difference that a checksum over both cannot miss. -/
theorem crc32_torn_ne {pre tp : Bytes} {m : Nat} (hpos : 0 < m) (hle : m ≤ pre.length) :
    crc32 (tp ++ (frame .set (pre ++ [0])).take m) ≠
      crc32 (tp ++ (frame .set (pre ++ [1])).take m) := by
  have htake : ∀ b : UInt8, (frame .set (pre ++ [b])).take m =
      (leBytes 4 (crc32 (pre ++ [b]))).take m ++
        ([WalRecordType.set.toByte] ++ leBytes 8 (pre.length + 1) ++ pre).take (m - 4) := by
    intro b
    have hshape : frame .set (pre ++ [b]) = leBytes 4 (crc32 (pre ++ [b])) ++
        (([WalRecordType.set.toByte] ++ leBytes 8 (pre.length + 1) ++ pre) ++ [b]) := by
      simp [frame]
    rw [hshape, take_append, leBytes_length,
      take_append_of_le_length (by simp; omega)]
  intro heq
  rw [htake, htake, ← append_assoc, ← append_assoc] at heq
  have hburst := Crc32c.checksum_burst_inj (by simp) (by simp) heq
  -- already the first bytes differ
  have hhead : (crc32 (pre ++ [0])).toUInt8 = (crc32 (pre ++ [1])).toUInt8 := by
    obtain ⟨m, rfl⟩ := Nat.exists_eq_succ_of_ne_zero (Nat.pos_iff_ne_zero.mp hpos)
    exact (cons.inj hburst).1
  have hlow := congrArg UInt8.toNat hhead
  rw [toNat_toUInt8, toNat_toUInt8] at hlow
  exact Crc32c.checksum_last_bit pre hlow

variable {payload : Bytes}

/-- What the iterator makes of a header, whatever payload it finds after it. -/
theorem next_header (recordType : WalRecordType) (hpos : 0 < payload.length)
    (hmax : payload.length ≤ maxPayloadLen) :
    ∃ header : Bytes, header.length = headerLen ∧ frame recordType payload = header ++ payload ∧
      ∀ rest, (rest.length < payload.length → Wal.next (header ++ rest) = .done) ∧
        (payload.length ≤ rest.length → crc32 (rest.take payload.length) ≠ crc32 payload →
          Wal.next (header ++ rest) = .corruption) := by
  have hlt : payload.length < 256 ^ 8 := by rw [maxPayloadLen] at hmax; omega
  obtain ⟨header, hsplit, hcrc, -, hlen⟩ := frame_header recordType hlt []
  obtain ⟨happend, hheader⟩ := splitBytes_eq_some.mp hsplit
  rw [append_nil, append_nil] at happend
  refine ⟨header, hheader, happend, fun rest => ⟨fun hshort => ?_, fun hlong hne => ?_⟩⟩
  · rw [Wal.next, splitBytes_append rest hheader]
    simp only [hlen]
    rw [if_neg (by omega), splitBytes_eq_none.mpr hshort]
  · have hread : splitBytes payload.length rest =
        some (rest.take payload.length, rest.drop payload.length) := if_pos hlong
    rw [Wal.next, splitBytes_append rest hheader]
    simp only [hlen, hcrc]
    rw [if_neg (by omega), hread]
    exact if_pos hne

theorem next_long_header {recordType : WalRecordType}
    (hlt : payload.length < 256 ^ 8) (hbig : maxPayloadLen < payload.length) :
    Wal.next ((frame recordType payload).take (headerLen + n)) = .corruption := by
  obtain ⟨header, hsplit, -, -, hlen⟩ := frame_header recordType hlt []
  obtain ⟨happend, hheader⟩ := splitBytes_eq_some.mp hsplit
  rw [append_nil, append_nil] at happend
  rw [happend, ← hheader, take_length_add_append, Wal.next, splitBytes_append _ hheader]
  simp only [hlen]
  exact if_pos (.inr hbig)

section
variable (key : Bytes) (flags : EntryFlags) (timestamp : UInt64)

/-- **A header that is cut**: some record after it reads as one that is too long. -/
theorem torn_header (hkey : key.length < 256 ^ 2) {t : Bytes} (hpos : 0 < t.length)
    (hcut : t.length < headerLen) :
    ∃ value : Bytes, (setPayload key value flags timestamp).length ≤ maxPayloadLen ∧
      Wal.next (t ++ frame .set (setPayload key value flags timestamp)) = .corruption := by
  have hlong : ∀ payload : Bytes, headerLen ≤ (t ++ frame .set payload).length := by
    intro payload
    rw [length_append]
    exact le_trans (frame_long .set payload) (Nat.le_add_left _ _)
  rw [headerLen] at hcut
  by_cases h4 : t.length ≤ 4
  · -- the length field is found in the one of the new record, shifted up
    have hlen : (setPayload key (replicate (2 ^ 24 - setPayloadOverhead - key.length) 0) flags
        timestamp).length = 2 ^ 24 := by
      rw [setPayload_length, length_replicate, setPayloadOverhead]
      omega
    refine ⟨replicate (2 ^ 24 - setPayloadOverhead - key.length) 0, ?_, ?_⟩
    · rw [hlen]
      decide
    · generalize setPayload key _ flags timestamp = payload at hlen ⊢
      have hbyte := getElem?_after t (frame .set payload) 8
      rw [frame_length_high, hlen, show t.length + 8 = 5 + (t.length + 3) by omega] at hbyte
      exact next_high_byte (hlong payload) (by omega) (by omega) hbyte (by decide)
  · by_cases h8 : t.length ≤ 8
    · -- the type byte of the new record falls into the length field
      refine ⟨[], ?_, ?_⟩
      · rw [setPayload_length, setPayloadOverhead, maxPayloadLen, length_nil]
        omega
      · generalize setPayload key _ flags timestamp = payload
        have hbyte := getElem?_after t (frame .set payload) 4
        rw [frame_type, show t.length + 4 = 5 + (t.length - 1) by omega] at hbyte
        exact next_high_byte (hlong payload) (by omega) (by omega) hbyte (by decide)
    · -- the low byte of its checksum does, and one of two values makes it nonzero
      obtain ⟨pre, -, hlast⟩ := setPayload_last key [] flags timestamp
      have hbit : ∃ b : UInt8, crc32 (setPayload key ([] ++ [b]) flags timestamp) % 256 ≠ 0 := by
        by_contra hnone
        have hzero : ∀ b : UInt8, crc32 (pre ++ [b]) % 256 = 0 := by
          intro b
          by_contra hb
          exact hnone ⟨b, by rwa [hlast]⟩
        exact Crc32c.checksum_last_bit pre ((hzero 0).trans (hzero 1).symm)
      obtain ⟨b, hb⟩ := hbit
      refine ⟨[] ++ [b], ?_, ?_⟩
      · rw [setPayload_length, setPayloadOverhead, maxPayloadLen, length_append,
          length_nil, length_singleton]
        omega
      · generalize setPayload key ([] ++ [b]) flags timestamp = payload at hb ⊢
        have hbyte := getElem?_after t (frame .set payload) 0
        rw [frame_low_crc, show t.length + 0 = 5 + (t.length - 5) by omega] at hbyte
        exact next_high_byte (hlong payload) (by omega) (by omega) hbyte (toUInt8_ne_zero hb)

variable {recordType : WalRecordType} {payload : Bytes} {n : Nat}

/-- **A payload that is cut**: some record after it makes a wrong checksum, or is
swallowed by it. -/
theorem torn_payload (hkey : key.length < 256 ^ 2)
    (hmax : payload.length ≤ maxPayloadLen) (hcut : n < payload.length) :
    ∃ value : Bytes, (setPayload key value flags timestamp).length ≤ maxPayloadLen ∧
      (Wal.next ((frame recordType payload).take (headerLen + n) ++
          frame .set (setPayload key value flags timestamp)) = .corruption ∨
        Wal.next ((frame recordType payload).take (headerLen + n) ++
          frame .set (setPayload key value flags timestamp)) = .done) := by
  obtain ⟨header, hheader, hframe, hnext⟩ := next_header recordType (by omega) hmax
  have htorn : (frame recordType payload).take (headerLen + n) = header ++ payload.take n := by
    rw [hframe, ← hheader, take_length_add_append]
  have htp : (payload.take n).length = n := by
    rw [length_take]
    omega
  rw [htorn]
  generalize hm : payload.length - n = m
  by_cases hshort : headerLen + (setPayloadOverhead + key.length) < m
  · -- an empty value: the record ends before the missing bytes do
    refine ⟨[], ?_, .inr ?_⟩
    · rw [setPayload_length, setPayloadOverhead, maxPayloadLen, length_nil]
      omega
    · rw [append_assoc]
      refine (hnext _).1 ?_
      rw [length_append, htp, frame_length, setPayload_length, length_nil]
      omega
  · obtain ⟨pre, hpre, hlast⟩ := setPayload_last key (replicate m 0) flags timestamp
    rw [length_replicate] at hpre
    have hread : ∀ b : UInt8, (payload.take n ++ frame .set (pre ++ [b])).take payload.length =
        payload.take n ++ (frame .set (pre ++ [b])).take m := by
      intro b
      rw [take_append, htp, hm, take_of_length_le (by omega)]
    have hbit : ∃ b : UInt8, crc32 ((payload.take n ++ frame .set (pre ++ [b])).take
        payload.length) ≠ crc32 payload := by
      by_contra hnone
      have hall : ∀ b : UInt8, crc32 (payload.take n ++ (frame .set (pre ++ [b])).take m) =
          crc32 payload := by
        intro b
        by_contra hb
        exact hnone ⟨b, by rwa [hread]⟩
      exact crc32_torn_ne (by omega) hpre ((hall 0).trans (hall 1).symm)
    obtain ⟨b, hb⟩ := hbit
    refine ⟨replicate m 0 ++ [b], ?_, .inl ?_⟩
    · rw [setPayload_length, length_append, length_replicate, length_singleton]
      rw [headerLen, setPayloadOverhead] at hshort
      rw [setPayloadOverhead, maxPayloadLen]
      omega
    · rw [append_assoc, hlast]
      refine (hnext _).2 ?_ hb
      rw [length_append, htp, frame_length, length_append]
      omega

/-- **A torn record**: some write after it is refused by the iterator or never
seen. -/
theorem torn_record (hkey : key.length < 256 ^ 2)
    (hlt : payload.length < 256 ^ 8) (hpos : 0 < n)
    (hcut : n < (frame recordType payload).length)
    (hopens : Wal.next ((frame recordType payload).take n) = .done) :
    ∃ value : Bytes, (setPayload key value flags timestamp).length ≤ maxPayloadLen ∧
      (Wal.next ((frame recordType payload).take n ++
          frame .set (setPayload key value flags timestamp)) = .corruption ∨
        Wal.next ((frame recordType payload).take n ++
          frame .set (setPayload key value flags timestamp)) = .done) := by
  by_cases hheader : n < headerLen
  · have hlen : ((frame recordType payload).take n).length = n := by
      rw [length_take]
      omega
    obtain ⟨value, hfit, hnext⟩ := torn_header key flags timestamp hkey (by omega)
      (show ((frame recordType payload).take n).length < headerLen by omega)
    exact ⟨value, hfit, .inl hnext⟩
  · obtain ⟨k, rfl⟩ := Nat.exists_eq_add_of_le (le_of_not_gt hheader)
    rw [frame_length] at hcut
    refine torn_payload key flags timestamp hkey (le_of_not_gt fun hbig => ?_) (by omega)
    -- a length beyond the limit would not have opened
    rw [next_long_header hlt hbig] at hopens
    cases hopens

end

end Wal

/-! ## Two generations -/

/-- Durable writes, through the background writer or straight to the file. -/
def Op.DurableWrite : Op → Prop
  | .set .. => True
  | .delete .. => True
  | .startBackgroundTasks => True
  | .drain => True
  | _ => False

/-- The record of the step can be read back. -/
def Op.Fits (op : Op) : Prop := ∀ r, op.record = some r → r.Replayable

/-- However a store is opened on the files and written to, another open recovers
every acknowledged write. -/
def RecoversAgain (sst : Bytes → Option Bool) (walFile : Bytes) (snapshotFile : Option Bytes) :
    Prop :=
  ∀ (config : Config) (opening : Db.OpenEnv) (db db' : Db) (ops : List Op) (closing : Env),
    config.persistence = .full → Db.openFiles config sst opening walFile snapshotFile = .ok db →
    (∀ op ∈ ops, op.DurableWrite ∧ op.FilesOk ∧ op.Fits) → Op.run db ops = some db' →
    Restarts db' closing

section
variable {sst : Bytes → Option Bool} {snapshotFile : Option Bytes} {records : List WalRecord}
  {bytes : Bytes}

/-- A store opened on whole records. -/
theorem Tracks.ofFiles {config : Config} {opening : Db.OpenEnv} {db : Db}
    (hmode : config.persistence = .full) (henc : encodeLog records = some bytes)
    (hflags : ∀ r ∈ records, r.KnownFlags)
    (hopen : Db.openFiles config sst opening bytes snapshotFile = .ok db) :
    ∃ st, Recoverable Content.isWorm st ∧ Tracks db st records ∧ ∀ r ∈ records, r.Replayable := by
  obtain ⟨s, s', hload, hok, hsst, -, -⟩ := openFiles_full_phases hmode hopen
  have hsnap : Restores sst snapshotFile s.view := ⟨s, hload, hok, hsst, rfl⟩
  have hample := openFiles_ample hopen
  by_cases hfit : ∀ r ∈ records, r.Replayable
  · obtain ⟨s₁, hs₁, hok₁, hsst₁, hview₁⟩ := openFiles_encodeLog hmode hsnap henc hflags hfit
    cases hample.symm.trans hs₁
    refine ⟨⟨replay Content.isWorm s.view (writesOf records), s.view, writesOf records⟩, rfl, ?_,
      hfit⟩
    refine ⟨hok₁, hmode, fun hx => absurd hx Bool.false_ne_true, fun _ => rfl, hview₁, ?_, hflags,
      rfl, hsst₁ ▸ hsnap⟩
    show encodeLog records = some (bytes ++ [].flatten)
    rw [flatten_nil, append_nil]
    exact henc
  · rw [openFiles_oversize hmode hsnap henc hflags hfit] at hample
    cases hample

theorem Op.DurableWrite.logged {op : Op} (h : op.DurableWrite) : op.Logged := by
  cases op with
  | setUnsafe | deleteUnsafe => exact h
  | _ => trivial

/-- **Whole records only**: everything is recovered again. -/
theorem recoversAgain_of_whole (henc : encodeLog records = some bytes)
    (hflags : ∀ r ∈ records, r.KnownFlags) : RecoversAgain sst bytes snapshotFile := by
  intro config opening db db' ops closing hmode hopen hops hrun
  obtain ⟨st, hrecov, htracks, hfit⟩ := Tracks.ofFiles hmode henc hflags hopen
  obtain ⟨st', records', hreach, htracks', hrecords⟩ :=
    htracks.run (fun op hop => (hops op hop).2.1) hrun
  have hrecov' : Recoverable Content.isWorm st' := by
    refine hreach.recoverable ?_ hrecov
    rintro kind ⟨op, hop, hkind⟩
    exact (hops op hop).1.logged.kinds hkind
  have hfit' : ∀ r ∈ records', r.Replayable := by
    intro r hr
    rcases hrecords r hr with hold | ⟨op, hop, hrec⟩
    · exact hfit r hold
    · exact (hops op hop).2.2 r hrec
  rw [restarts_iff htracks'.mode closing, htracks'.opens_iff]
  exact ⟨hfit', hrecov'.trans htracks'.live.symm⟩

end

/-! ### A store that accepts no write -/

/-- No key that fits a record accepts a write. -/
def Frozen (s : Store) : Prop := ∀ key : Bytes, key.length < 256 ^ 2 → s.wormBlocked key = true

/-- Entries and files are the same. -/
structure Unchanged (db db' : Db) : Prop where
  keeps : Keeps db.store db'.store
  config : db'.config = db.config
  wal : db'.walFile ++ db'.walQueue.flatten = db.walFile ++ db.walQueue.flatten
  snapshotFile : db'.snapshotFile = db.snapshotFile

section
variable {db db' db'' : Db} {env : Env}

theorem Unchanged.refl (h : StoreOk db.store) : Unchanged db db := ⟨Keeps.refl h, rfl, rfl, rfl⟩

theorem Unchanged.trans (h : Unchanged db db') (h' : Unchanged db' db'') : Unchanged db db'' :=
  ⟨h.keeps.trans h'.keeps, h'.config.trans h.config, h'.wal.trans h.wal,
    h'.snapshotFile.trans h.snapshotFile⟩

theorem Unchanged.of_refused {f : Fault} (h : Db.Refused db db' env f) (hf : f ≠ .trap)
    (hio : env.io = .done) : Unchanged db db' := by
  have heq := h.files hf hio
  refine ⟨h.keeps hf, h.config, ?_, ?_⟩
  · rw [heq]
  · rw [heq]

theorem wormBlocked_eq (s : Store) (key : Bytes) : s.wormBlocked key =
    match s.entryAt key with
    | some e => e.flags.isWorm
    | none => decide (s.sst key = some true) := rfl

theorem Frozen.keeps {s s' : Store} (h : Frozen s) (hs : Keeps s s') : Frozen s' := by
  intro key hkey
  rw [wormBlocked_eq, hs.entryAt, hs.sst, ← wormBlocked_eq]
  exact h key hkey

variable {key : Bytes}

/-- A record of an acknowledged write was serialized. -/
theorem acked_serialized {e : Option Entry} {record : Option Bytes}
    (h : Db.Acked db env key e record db') (hmode : db.config.persistence = .full) :
    ∃ bytes, record = some bytes := by
  cases h with
  | memory hnot => exact absurd hmode hnot
  | queued _ _ hrecord => exact ⟨_, hrecord⟩
  | direct _ hrecord => exact ⟨_, hrecord⟩

variable {record : Bytes}

section
variable (h : Frozen db.store)
include h

theorem Frozen.set {value : Bytes} {isWorm : Bool} {timestamp : UInt64}
    (hser : serializeSetRecord key value (.written isWorm) timestamp = some record)
    (hfree : db.store.wormBlocked key = false) : False := by
  unfold serializeSetRecord at hser
  split at hser
  · rename_i hfit
    rw [h key hfit.1] at hfree
    cases hfree
  · cases hser

theorem Frozen.delete {e : Entry}
    (hser : serializeDeleteRecord key = some record) (hat : db.store.entryAt key = some e)
    (hworm : e.flags.isWorm = false) : False := by
  unfold serializeDeleteRecord at hser
  split at hser
  · rename_i hfit
    have hblocked := h key hfit
    rw [wormBlocked_eq, hat] at hblocked
    exact absurd (hblocked.symm.trans hworm) Bool.noConfusion
  · cases hser

/-- Durable writes to a frozen store change nothing. -/
theorem Frozen.step (hok : StoreOk db.store)
    (hmode : db.config.persistence = .full) {op : Op} (hwrite : op.DurableWrite)
    (hfiles : op.FilesOk) (hstep : op.step db = some db') : Unchanged db db' := by
  cases op with
  | set env key value isWorm timestamp =>
    rcases Op.survived_set hok hstep with ⟨f, hf, hrefused⟩ | ⟨hfree, hack⟩
    · exact .of_refused hrefused hf hfiles
    · obtain ⟨record, hser⟩ := acked_serialized hack hmode
      exact (h.set hser hfree).elim
  | delete env key =>
    rcases Op.survived_delete hok hstep with ⟨f, hf, hrefused⟩ | rfl | ⟨e, hat, hworm, hack⟩
    · exact .of_refused hrefused hf hfiles
    · exact .refl hok
    · obtain ⟨record, hser⟩ := acked_serialized hack hmode
      exact (h.delete hser hat hworm).elim
  | startBackgroundTasks =>
    cases hstep
    unfold Db.startBackgroundTasks
    split
    · exact ⟨Keeps.refl hok, rfl, rfl, rfl⟩
    · exact .refl hok
  | drain =>
    cases hstep
    unfold Db.drain
    cases hq : db.walQueue with
    | nil => exact .refl hok
    | cons bytes rest =>
      refine ⟨Keeps.refl hok, rfl, ?_, rfl⟩
      show db.walFile ++ bytes ++ rest.flatten = db.walFile ++ db.walQueue.flatten
      rw [hq, flatten_cons, append_assoc]
  | setUnsafe | deleteUnsafe | save | compact | reopen => exact hwrite.elim

theorem Frozen.run (hok : StoreOk db.store) (hmode : db.config.persistence = .full) {ops : List Op}
    (hops : ∀ op ∈ ops, op.DurableWrite ∧ op.FilesOk ∧ op.Fits)
    (hrun : Op.run db ops = some db') : Unchanged db db' := by
  induction ops generalizing db with
  | nil =>
    cases hrun
    exact .refl hok
  | cons op ops ih =>
    rw [Op.run, foldlM_cons] at hrun
    obtain ⟨db₁, hstep, hrest⟩ := Option.bind_eq_some_iff.mp hrun
    obtain ⟨hop, hops'⟩ := forall_mem_cons.mp hops
    have hfirst := h.step hok hmode hop.1 hop.2.1 hstep
    exact hfirst.trans (ih (h.keeps hfirst.keeps) hfirst.keeps.ok (hfirst.config ▸ hmode) hops' hrest)

end

end

/-! ### The torn tail -/

variable {r : WalRecord} {record : Bytes} {n : Nat}

/-- A record that is cut short ends the log, when its length is one the iterator reads. -/
theorem torn_done (hser : serializeRecord r = some record)
    (hfit : r.Replayable) (hcut : n < record.length) : Wal.next (record.take n) = .done := by
  obtain rfl := serializeRecord_eq hser
  rw [frame_length] at hcut
  by_cases hheader : n < headerLen
  · have hshort : splitBytes headerLen ((frame r.recordType r.payload).take n) = none := by
      rw [splitBytes_eq_none, length_take]
      omega
    rw [Wal.next, hshort]
  · obtain ⟨k, rfl⟩ := Nat.exists_eq_add_of_le (le_of_not_gt hheader)
    obtain ⟨header, hlen, hframe, hnext⟩ := next_header r.recordType (payload_pos r) hfit
    rw [hframe, ← hlen, take_length_add_append]
    refine (hnext _).1 ?_
    rw [length_take]
    omega

/-- A record that is cut short ends the log, or its length is refused. -/
theorem torn_next (hser : serializeRecord r = some record) (hcut : n < record.length) :
    Wal.next (record.take n) = .done ∨ Wal.next (record.take n) = .corruption := by
  by_cases hfit : r.Replayable
  · exact .inl (torn_done hser hfit hcut)
  · have hlt := payload_lt hser
    obtain rfl := serializeRecord_eq hser
    rw [frame_length] at hcut
    by_cases hheader : n < headerLen
    · left
      have hshort : splitBytes headerLen ((frame r.recordType r.payload).take n) = none := by
        rw [splitBytes_eq_none, length_take]
        omega
      rw [Wal.next, hshort]
    · obtain ⟨k, rfl⟩ := Nat.exists_eq_add_of_le (le_of_not_gt hheader)
      exact .inr (next_long_header (by omega) (lt_of_not_ge hfit))

section
variable {sst : Bytes → Option Bool} {snapshotFile : Option Bytes} {records : List WalRecord}
  {bytes record : Bytes} {r : WalRecord} {n : Nat} {config : Config} {opening : Db.OpenEnv}
  {db : Db}

/-- What a store opened on a torn log has, and what it makes of anything else in the
torn record's place. -/
theorem torn_open (henc : encodeLog records = some bytes) (hflags : ∀ x ∈ records, x.KnownFlags)
    (hser : serializeRecord r = some record) (hcut : n < record.length)
    (hmode : config.persistence = .full)
    (hopen : Db.openFiles config sst opening (bytes ++ record.take n) snapshotFile = .ok db) :
    Wal.next (record.take n) = .done ∧ StoreOk db.store ∧ db.store.sst = sst ∧
      ∀ (config' : Config) (tail : Bytes), config'.persistence = .full →
        (Wal.next tail = .done → Db.openFiles config' sst .ample (bytes ++ tail) snapshotFile =
          .ok (Db.opened config' (bytes ++ tail) snapshotFile db.store)) ∧
        (Wal.next tail = .corruption →
          Db.openFiles config' sst .ample (bytes ++ tail) snapshotFile =
            .error (.error .corruption)) := by
  obtain ⟨s, s', hload, hok, hsst, hreplay, rfl⟩ := openFiles_full_phases hmode hopen
  have hfit : ∀ x ∈ records, x.Replayable := by
    by_contra hbig
    obtain ⟨s₁, herr⟩ := hok.replayWal_oversize ample_all henc hflags hbig (record.take n)
    cases hreplay.symm.trans herr
  obtain ⟨s₁, hok₁, hsst₁, -, htail⟩ := hok.replayWal_tail ample_all henc hflags hfit
  have hdone : Wal.next (record.take n) = .done := by
    rcases torn_next hser hcut with hdone | hcorrupt
    · exact hdone
    · rw [(htail _).2 hcorrupt] at hreplay
      cases hreplay
  rw [(htail _).1 hdone] at hreplay
  obtain rfl : s₁ = s' := (Prod.mk.inj hreplay).2
  refine ⟨hdone, hok₁, hsst₁.trans hsst, fun config' tail hmode' => ⟨fun hd => ?_, fun hc => ?_⟩⟩
  · exact openFiles_full hmode' hload ((htail tail).1 hd)
  · exact openFiles_full_error hmode' hload ((htail tail).2 hc)

/-- **A torn record loses a later write.** -/
theorem torn_not_recoversAgain (henc : encodeLog records = some bytes)
    (hflags : ∀ x ∈ records, x.KnownFlags) (hser : serializeRecord r = some record)
    (hpos : 0 < n) (hcut : n < record.length) (hmode : config.persistence = .full)
    (hopen : Db.openFiles config sst opening (bytes ++ record.take n) snapshotFile = .ok db)
    {key : Bytes} (hkey : key.length < 256 ^ 2) (hfree : db.store.wormBlocked key = false) :
    ¬ RecoversAgain sst (bytes ++ record.take n) snapshotFile := by
  intro hagain
  obtain ⟨hdone, hok, hsst, htail⟩ := torn_open henc hflags hser hcut hmode hopen
  -- a timestamp the key does not have
  obtain ⟨timestamp, hnew⟩ : ∃ t : UInt64, (db.store.view key).map Content.timestamp ≠ some t := by
    by_cases hzero : (db.store.view key).map Content.timestamp = some 0
    · exact ⟨1, by rw [hzero]; decide⟩
    · exact ⟨0, hzero⟩
  have hlt := payload_lt hser
  obtain rfl := serializeRecord_eq hser
  obtain ⟨value, hfit, hnext⟩ :=
    torn_record key (.written false) timestamp hkey (by omega) hpos hcut hdone
  generalize htorn : (frame r.recordType r.payload).take n = torn at hagain hopen hdone hnext
  -- a store that never compacts, opened on the torn log
  have hsync := htail ⟨.full, true, 0⟩ torn rfl
  generalize hdb : Db.opened ⟨.full, true, 0⟩ (bytes ++ torn) snapshotFile db.store = db₁ at hsync
  have hstore : db₁.store = db.store := by rw [← hdb]; rfl
  have hvalue : value.length < 256 ^ 4 := by
    rw [setPayload_length, maxPayloadLen] at hfit
    omega
  have hset : serializeSetRecord key value (.written false) timestamp =
      some (frame .set (setPayload key value (.written false) timestamp)) :=
    if_pos ⟨hkey, hvalue⟩
  have halloc : ∀ site, Env.calm.alloc site = true := fun _ => rfl
  obtain ⟨db', hacked, hwrote⟩ := Db.set_acknowledges (hstore ▸ hok) (by rw [← hdb]; rfl) halloc rfl
    (by rw [← hdb]; rfl) (hstore ▸ hfree) hset (by rw [← hdb]; exact .inl rfl)
  have hrun : Op.run db₁ [.set .calm key value false timestamp] = some db' := by
    simp [Op.run, Op.step, hacked, Op.survived]
  have hrestart := hagain _ .ample db₁ db' _ .calm rfl (hsync.1 hdone)
    (by
      intro op hop
      obtain rfl := mem_singleton.mp hop
      refine ⟨trivial, rfl, fun x hx => ?_⟩
      cases hx
      exact hfit) hrun
  -- the files it leaves
  have hconfig : db'.config = ⟨.full, true, 0⟩ := by
    rw [hwrote.eq]
    show (db₁.logged _).config = _
    rw [Db.logged_config, ← hdb]
    rfl
  have hwal : db'.walFile ++ db'.walQueue.flatten =
      bytes ++ (torn ++ frame .set (setPayload key value (.written false) timestamp)) := by
    rw [hwrote.eq]
    show (db₁.logged _).walFile ++ (db₁.logged _).walQueue.flatten = _
    rw [logged_wal db₁ _ (fun _ => by rw [← hdb]; rfl), ← hdb]
    show bytes ++ torn ++ [] ++ _ = _
    rw [append_nil, append_assoc]
  have hsnap : db'.snapshotFile = snapshotFile := by
    rw [hwrote.eq]
    show (db₁.logged _).snapshotFile = _
    rw [logged_snapshotFile, ← hdb]
    rfl
  have hsst' : db'.store.sst = sst := by rw [hwrote.updates.sst, hstore, hsst]
  rw [restarts_iff (by rw [hconfig]) .calm, hconfig, hwal, hsnap, hsst'] at hrestart
  obtain ⟨db'', hopen'', hview''⟩ := hrestart
  have hopens := htail ⟨.full, true, 0⟩
    (torn ++ frame .set (setPayload key value (.written false) timestamp)) rfl
  rcases hnext with hcorrupt | hend
  · rw [hopens.2 hcorrupt] at hopen''
    cases hopen''
  · -- the write is not there
    rw [hopens.1 hend] at hopen''
    cases hopen''
    have hlost : db.store.view = db'.store.view := hview''
    rw [hlost, hwrote.updates.view, Function.update_self] at hnew
    exact hnew rfl

/-- **Torn tails across two generations.**  Whatever record was cut at whatever byte:
every acknowledged write of both generations is recovered exactly when the cut
left nothing of the record, or the store accepts no write any more. -/
theorem torn_tail_iff (henc : encodeLog records = some bytes)
    (hflags : ∀ x ∈ records, x.KnownFlags) (hser : serializeRecord r = some record)
    (hcut : n < record.length) (hmode : config.persistence = .full)
    (hopen : Db.openFiles config sst opening (bytes ++ record.take n) snapshotFile = .ok db) :
    RecoversAgain sst (bytes ++ record.take n) snapshotFile ↔ n = 0 ∨ Frozen db.store := by
  constructor
  · intro hagain
    by_contra hneither
    obtain ⟨hpos, hopen_key⟩ := not_or.mp hneither
    obtain ⟨key, hkey⟩ := not_forall.mp hopen_key
    obtain ⟨hlen, hfree⟩ := Classical.not_imp.mp hkey
    exact torn_not_recoversAgain henc hflags hser (Nat.pos_of_ne_zero hpos) hcut hmode hopen hlen
      (Bool.eq_false_iff.mpr hfree) hagain
  · rintro (rfl | hfrozen)
    · rw [take_zero, append_nil]
      exact recoversAgain_of_whole henc hflags
    · obtain ⟨hdone, hok, hsst, htail⟩ := torn_open henc hflags hser hcut hmode hopen
      intro config' opening' db₁ db₂ ops closing hmode' hopen' hops hrun
      have hagain := (htail config' _ hmode').1 hdone
      cases (openFiles_ample hopen').symm.trans hagain
      have hsame : Unchanged (Db.opened config' (bytes ++ record.take n) snapshotFile db.store) db₂ :=
        Frozen.run hfrozen hok hmode' hops hrun
      rw [restarts_iff (hsame.config ▸ hmode') closing, hsame.config, hsame.wal, hsame.snapshotFile,
        hsame.keeps.sst]
      refine ⟨_, ?_, hsame.keeps.view.symm⟩
      show Db.openFiles config' db.store.sst .ample (bytes ++ record.take n ++ [].flatten)
        snapshotFile = _
      rw [hsst, flatten_nil, append_nil]
      exact hagain

end

/-- A record cut after 20 of its 30 bytes. -/
def tornLog : Bytes := (frame .set (setPayload [1] [2] (.written false) 7)).take 20

theorem tornLog_tail_iff :
    ∃ db, Db.openFiles ⟨.full, true, 0⟩ (fun _ => none) .ample tornLog none = .ok db ∧
      (RecoversAgain (fun _ => none) tornLog none ↔ 20 = 0 ∨ Frozen db.store) := by
  have hopens : (Db.openFiles ⟨.full, true, 0⟩ (fun _ => none) .ample tornLog none).isOk = true := by
    decide
  generalize hopen : Db.openFiles ⟨.full, true, 0⟩ (fun _ => none) .ample tornLog none = result
    at hopens
  obtain f | db := result
  · cases hopens
  have hser : serializeRecord (.set [1] [2] (.written false) 7) =
      some (frame .set (setPayload [1] [2] (.written false) 7)) := rfl
  have hiff := torn_tail_iff encodeLog_nil (forall_mem_nil _) hser (n := 20)
    (by decide) rfl hopen
  exact ⟨db, rfl, hiff⟩

/-- Why a store could not be opened. -/
def refusal : Except Fault Db → Option Fault
  | .error f => some f
  | .ok _ => none

/-- **An acknowledged write after the torn record, and no second open.** -/
theorem tornLog_blocks_second_open :
    ∃ db db', Db.openFiles ⟨.full, true, 0⟩ (fun _ => none) .ample tornLog none = .ok db ∧
      db.setWithTimestamp .calm [3] [4] false 8 = (.ok (), db') ∧
      Db.openFiles ⟨.full, true, 0⟩ (fun _ => none) .ample db'.walFile db'.snapshotFile =
        .error (.error .corruption) ∧ ¬ RecoversAgain (fun _ => none) tornLog none := by
  have heval : (Db.openFiles ⟨.full, true, 0⟩ (fun _ => none) .ample tornLog none).toOption.map
      (fun db => ((db.setWithTimestamp .calm [3] [4] false 8).1.isOk,
        refusal (Db.openFiles ⟨.full, true, 0⟩ (fun _ => none) .ample
          (db.setWithTimestamp .calm [3] [4] false 8).2.walFile
          (db.setWithTimestamp .calm [3] [4] false 8).2.snapshotFile),
        ((Op.reopen .calm .ample).step
          (db.setWithTimestamp .calm [3] [4] false 8).2).isSome)) =
      some (true, some (.error .corruption), false) := by decide +kernel
  obtain ⟨db, hopen, hrest⟩ := Option.map_eq_some_iff.mp heval
  generalize hset : db.setWithTimestamp .calm [3] [4] false 8 = result at hrest
  obtain ⟨f | u, db'⟩ := result
  · cases (Prod.mk.inj hrest).1
  obtain ⟨-, hrest⟩ := Prod.mk.inj hrest
  obtain ⟨herror, hnone⟩ := Prod.mk.inj hrest
  have hok : Db.openFiles ⟨.full, true, 0⟩ (fun _ => none) .ample tornLog none = .ok db := by
    generalize Db.openFiles ⟨.full, true, 0⟩ (fun _ => none) .ample tornLog none = result at hopen
    obtain f | db₁ := result
    · cases hopen
    · rw [Option.some.inj hopen]
  refine ⟨db, db', hok, hset, ?_, ?_⟩
  · generalize Db.openFiles ⟨.full, true, 0⟩ (fun _ => none) .ample db'.walFile
      db'.snapshotFile = result at herror ⊢
    obtain f | db₁ := result
    · rw [Option.some.inj herror]
    · cases herror
  · intro hagain
    have hrun : Op.run db [.set .calm [3] [4] false 8] = some db' := by
      simp [Op.run, Op.step, hset, Op.survived]
    obtain ⟨db'', hstep, -⟩ := hagain _ _ db db' _ .calm rfl hok (by
      intro op hop
      obtain rfl := mem_singleton.mp hop
      refine ⟨trivial, rfl, fun x hx => ?_⟩
      cases hx
      decide) hrun
    rw [hstep] at hnone
    cases hnone

end WormDB
