import WormDB.WalImage
import WormDB.BufferedIo

/-! # The buffered iterator of the log

`Wal.Iterator` reads the log through a buffer of 64 KiB.  A payload that lies in
the buffer is parsed there; any other is read into memory of its own, through the
buffer or around it.  None of this shows: a call gives what `Wal.next` gives on the
bytes that are left (`next_refines`), so a log reads back as its records exactly
when the iterator accepts every one of them (`iterate_iff`). -/
namespace WormDB
open List ByteCodec BufferedIo

structure WalIterator where
  reader : Reader
  done : Bool

namespace WalIterator

/-- The size of `read_buf`. -/
def bufLen : Nat := 65536

def start (file : Bytes) : WalIterator := ⟨.start file, false⟩

/-- What is left of the log. -/
def contents (it : WalIterator) : Bytes := it.reader.contents

def readBuffered (it : WalIterator) (want : Nat) : Bytes × WalIterator :=
  let (bytes, reader) := it.reader.readAll bufLen true want
  (bytes, { it with reader := reader })

inductive Item where
  | record (r : WalRecord)
  | done
  | corruption
  | trap
  deriving DecidableEq

/-- The checks on a payload that has been read; the record type is cast. -/
def parsePayload (header payload : Bytes) : Item :=
  if Wal.crc32 payload ≠ leNat (slice header 0 4) then .corruption
  else
    match WalRecordType.ofByte (header.getD 4 0) with
    | none => .trap
    | some recordType =>
        match Wal.parseRecord recordType payload with
        | none => .corruption
        | some record => .record record

def next (it : WalIterator) : Item × WalIterator :=
  if it.done then (.done, it)
  else
    let (header, it) := it.readBuffered Wal.headerLen
    if header.length < Wal.headerLen then (.done, { it with done := true })
    else
      let payloadLen := leNat (slice header 5 8)
      if payloadLen = 0 ∨ payloadLen > Wal.maxPayloadLen then (.corruption, it)
      else if payloadLen ≤ it.reader.pending.length then
        -- the payload is contiguous in the buffer
        (parsePayload header (it.reader.pending.take payloadLen),
          { it with reader := { it.reader with pending := it.reader.pending.drop payloadLen } })
      else
        let (payload, it) := it.readBuffered payloadLen
        if payload.length < payloadLen then (.done, { it with done := true })
        else (parsePayload header payload, it)

/-- The records up to the first call that gives none, and what that call gives. -/
def iterate : Nat → WalIterator → Option (List WalRecord × Item)
  | 0, _ => none
  | fuel + 1, it =>
      match it.next with
      | (.record r, it') => (iterate fuel it').map (fun (rs, last) => (r :: rs, last))
      | (item, _) => some ([], item)

/-! ## One call -/

theorem readBuffered_spec (it : WalIterator) (want : Nat) :
    (it.readBuffered want).1 = it.contents.take want ∧
      (it.readBuffered want).2.contents = it.contents.drop want ∧
      (it.readBuffered want).2.done = it.done := by
  obtain ⟨hbytes, hrest⟩ := readAll_spec (show 0 < bufLen by decide) true it.reader want
  exact ⟨hbytes, hrest, rfl⟩

variable {it : WalIterator}

/-- The payload of a frame, from the buffer or through it. -/
theorem take_pending {n : Nat} (h : n ≤ it.reader.pending.length) :
    it.reader.pending.take n = it.contents.take n ∧
      (WalIterator.mk ⟨it.reader.pending.drop n, it.reader.file⟩ it.done).contents =
        it.contents.drop n := by
  rw [contents, contents, Reader.contents, Reader.contents, take_append_of_le_length h,
    drop_append_of_le_length h]
  exact ⟨rfl, rfl⟩

/-- What the iterator makes of what `Wal.next` gives. -/
def Gives (it : WalIterator) : Wal.Next → Prop
  | .record r rest => it.next.1 = .record r ∧ it.next.2.contents = rest ∧ it.next.2.done = false
  | .done => it.next.1 = .done
  | .corruption => it.next.1 = .corruption
  | .trap => it.next.1 = .trap

variable {payload : Bytes}

/-- The checks on the payload are those of `Wal.next`. -/
theorem gives_parsePayload {it' : WalIterator} {header rest : Bytes}
    (hnext : it.next = (parsePayload header payload, it')) (hrest : it'.contents = rest)
    (hdone : it'.done = false) :
    it.Gives (if Wal.crc32 payload ≠ leNat (slice header 0 4) then .corruption
      else
        match WalRecordType.ofByte (header.getD 4 0) with
        | none => .trap
        | some recordType =>
            match Wal.parseRecord recordType payload with
            | none => .corruption
            | some record => .record record rest) := by
  rw [parsePayload] at hnext
  split
  · rename_i hcrc
    rw [if_pos hcrc] at hnext
    exact congrArg Prod.fst hnext
  rename_i hcrc
  rw [if_neg hcrc] at hnext
  split
  · rename_i htype
    rw [htype] at hnext
    exact congrArg Prod.fst hnext
  · rename_i recordType htype
    simp only [htype] at hnext
    split
    · rename_i hparse
      rw [hparse] at hnext
      exact congrArg Prod.fst hnext
    · rename_i record hparse
      rw [hparse] at hnext
      refine ⟨congrArg Prod.fst hnext, ?_, ?_⟩
      · rw [congrArg Prod.snd hnext]
        exact hrest
      · rw [congrArg Prod.snd hnext]
        exact hdone

/-- **A call gives what `Wal.next` gives on what is left of the log**, whichever way
the payload is read. -/
theorem next_refines (hdone : it.done = false) : it.Gives (Wal.next it.contents) := by
  obtain ⟨hheader, hafter, hdone'⟩ := it.readBuffered_spec Wal.headerLen
  rcases hread : it.readBuffered Wal.headerLen with ⟨header, it'⟩
  rw [hread] at hheader hafter hdone'
  simp only at hheader hafter hdone'
  rw [Wal.next, splitBytes]
  by_cases hlen : Wal.headerLen ≤ it.contents.length
  · have hfull : ¬ header.length < Wal.headerLen := by
      rw [hheader, length_take]
      omega
    rw [if_pos hlen]
    simp only
    rw [← hheader, ← hafter]
    -- a bad length is corruption, whatever follows
    by_cases hbad : leNat (slice header 5 8) = 0 ∨ leNat (slice header 5 8) > Wal.maxPayloadLen
    · rw [if_pos hbad]
      show it.next.1 = .corruption
      simp only [next, hdone, hread, hfull, hbad, if_true, if_false, Bool.false_eq_true]
    rw [if_neg hbad, splitBytes]
    by_cases hbuf : leNat (slice header 5 8) ≤ it'.reader.pending.length
    · -- the payload lies in the buffer
      obtain ⟨htake, hdrop⟩ := take_pending hbuf
      have hroom : leNat (slice header 5 8) ≤ it'.contents.length := by
        rw [contents, Reader.contents, length_append]
        omega
      rw [if_pos hroom]
      refine gives_parsePayload ?_ hdrop (hdone'.trans hdone)
      rw [← htake]
      simp only [next, hdone, hread, hfull, hbad, hbuf, if_true, if_false, Bool.false_eq_true]
    · -- it is read into memory of its own
      obtain ⟨hpayload, hrest, hdone''⟩ := it'.readBuffered_spec (leNat (slice header 5 8))
      rcases hread' : it'.readBuffered (leNat (slice header 5 8)) with ⟨payload, it''⟩
      rw [hread'] at hpayload hrest hdone''
      simp only at hpayload hrest hdone''
      by_cases hroom : leNat (slice header 5 8) ≤ it'.contents.length
      · have hwhole : ¬ payload.length < leNat (slice header 5 8) := by
          rw [hpayload, length_take]
          omega
        rw [if_pos hroom]
        refine gives_parsePayload ?_ hrest (hdone''.trans (hdone'.trans hdone))
        rw [← hpayload]
        simp only [next, hdone, hread, hfull, hbad, hbuf, hread', hwhole, if_false,
          Bool.false_eq_true]
      · have hshort : payload.length < leNat (slice header 5 8) := by
          rw [hpayload, length_take]
          omega
        rw [if_neg hroom]
        show it.next.1 = .done
        simp only [next, hdone, hread, hfull, hbad, hbuf, hread', hshort, if_true, if_false,
          Bool.false_eq_true]
  · have hshort : header.length < Wal.headerLen := by
      rw [hheader, length_take]
      omega
    rw [if_neg hlen]
    show it.next.1 = .done
    simp only [next, hdone, hread, hshort, if_true, if_false, Bool.false_eq_true]

/-! ## A whole log -/

/-- A whole frame whose payload does not parse. -/
theorem next_frame_corrupt {recordType : WalRecordType} (hmax : payload.length ≤ Wal.maxPayloadLen)
    (hparse : Wal.parseRecord recordType payload = none) (rest : Bytes) :
    Wal.next (Wal.frame recordType payload ++ rest) = .corruption := by
  have hlt : payload.length < 256 ^ 8 := by
    rw [Wal.maxPayloadLen] at hmax
    omega
  obtain ⟨header, hsplit, hcrc, htype, hlen⟩ := Wal.frame_header recordType hlt rest
  rw [Wal.next, hsplit]
  simp only [hcrc, htype, hlen]
  split
  · rfl
  rw [splitBytes_append rest rfl]
  simp only [ne_eq, not_true_eq_false, if_false, Wal.ofByte_toByte, hparse]

theorem parseVinsert_unknownFlags (key ns metric : Bytes) {flags : UInt8} (timestamp : UInt64)
    (hflags : flags &&& 0b11111100 ≠ 0) :
    Wal.parseVinsert (Wal.vinsertPayload key ns metric flags timestamp) = none := by
  have hflag : (Wal.vinsertPayload key ns metric flags timestamp).getD 6 0 = flags :=
    getD_eq (leBytes 2 key.length ++ leBytes 2 ns.length ++ leBytes 2 metric.length)
      (leBytes 8 timestamp.toNat ++ key ++ ns ++ metric) (by simp [Wal.vinsertPayload]) (by simp)
  rw [Wal.parseVinsert]
  split
  · rfl
  · simp only [hflag]
    rw [if_pos hflags]

variable {r : WalRecord} {bytes : Bytes}

theorem next_unknownFlags (h : Wal.serializeRecord r = some bytes)
    (hflags : ¬ r.KnownFlags) (hfit : r.Replayable) (rest : Bytes) :
    Wal.next (bytes ++ rest) = .corruption := by
  rw [serializeRecord_eq h]
  refine next_frame_corrupt hfit ?_ rest
  cases r with
  | vinsert key ns metric flags timestamp =>
    exact parseVinsert_unknownFlags key ns metric timestamp hflags
  | _ => exact absurd trivial hflags

instance : (r : WalRecord) → Decidable r.KnownFlags
  | .vinsert _ _ _ flags _ => inferInstanceAs (Decidable (flags &&& 0b11111100 = 0))
  | .set .. => isTrue trivial
  | .delete .. => isTrue trivial
  | .vdelete .. => isTrue trivial

/-- The iterator accepts the record. -/
def Accepted (r : WalRecord) : Prop := r.Replayable ∧ r.KnownFlags

instance (r : WalRecord) : Decidable (Accepted r) := inferInstanceAs (Decidable (_ ∧ _))

theorem next_refused (h : Wal.serializeRecord r = some bytes)
    (hr : ¬ Accepted r) (rest : Bytes) : Wal.next (bytes ++ rest) = .corruption := by
  by_cases hfit : r.Replayable
  · exact next_unknownFlags h (fun hflags => hr ⟨hfit, hflags⟩) hfit rest
  · exact next_oversize h hfit rest

/-- **A log reads back exactly when every record is accepted**, from any state of the
buffer.  The induction is on the records: up to the first one that is refused each
call takes one record off what is left. -/
theorem iterate_encodeLog {log : List WalRecord} (h : encodeLog log = some bytes)
    (it : WalIterator) (hdone : it.done = false) (hleft : it.contents = bytes) {fuel : Nat}
    (hfuel : log.length < fuel) : it.iterate fuel = some (log, .done) ↔ ∀ r ∈ log, Accepted r := by
  induction log generalizing bytes it fuel with
  | nil =>
    have hempty : bytes = [] := (Option.some.inj h).symm
    obtain ⟨fuel, rfl⟩ : ∃ n, fuel = n + 1 := ⟨fuel - 1, by omega⟩
    have hnext := next_refines hdone
    rw [hleft, hempty, show Wal.next [] = .done from rfl] at hnext
    refine iff_of_true ?_ (forall_mem_nil _)
    rw [iterate]
    rcases hcall : it.next with ⟨item, it'⟩
    rw [Gives, hcall] at hnext
    simp only at hnext
    rw [hnext]
  | cons r log ih =>
    obtain ⟨b, bs, hb, hbs, rfl⟩ := encodeLog_cons.mp h
    obtain ⟨fuel, rfl⟩ : ∃ n, fuel = n + 1 := ⟨fuel - 1, by omega⟩
    rw [length_cons] at hfuel
    have hnext := next_refines hdone
    rw [hleft] at hnext
    rw [iterate]
    rcases hcall : it.next with ⟨item, it'⟩
    by_cases hr : Accepted r
    · rw [next_serializeRecord hb hr.2 hr.1 bs, Gives, hcall] at hnext
      obtain ⟨hitem, hrest, hdone'⟩ := hnext
      simp only at hitem hrest hdone'
      subst hitem
      have htail := ih hbs it' hdone' hrest (Nat.lt_of_succ_lt_succ hfuel)
      rw [forall_mem_cons, and_iff_right hr, ← htail]
      simp [Option.map_eq_some_iff]
    · rw [next_refused hb hr bs, Gives, hcall] at hnext
      simp only at hnext
      subst hnext
      refine iff_of_false ?_ ?_
      · simp
      · intro hall
        exact hr (hall r mem_cons_self)

/-- **The round trip of the log**: from any position of the buffer, iterating over
serialized records gives exactly those records and then the end of the log, if and
only if no payload is longer than the iterator reads and no VINSERT has a flag it
does not know. -/
theorem iterate_iff (log : List WalRecord) (bytes : Bytes) (h : encodeLog log = some bytes)
    (it : WalIterator) (hdone : it.done = false) (hleft : it.contents = bytes) :
    it.iterate (bytes.length + 1) = some (log, .done) ↔
      ∀ r ∈ log, r.payload.length ≤ 100 * 1024 * 1024 ∧ r.KnownFlags := by
  have hlen := encodeLog_length h
  exact iterate_encodeLog h it hdone hleft (Nat.lt_succ_of_le hlen)

/-- One record of each kind. -/
def sampleLog : List WalRecord :=
  [.set [1] [2, 3] (.written false) 7, .vinsert [1] [4] [5] 3 8, .vdelete [1] [4], .delete [1]]

theorem sampleLog_iterates :
    (WalIterator.start ((encodeLog sampleLog).getD [])).iterate
      (((encodeLog sampleLog).getD []).length + 1) = some (sampleLog, .done) :=
  (iterate_iff sampleLog _ (by decide +kernel) (WalIterator.start _) rfl rfl).mpr
    (by decide)

/-- A SET whose lengths fit their fields and whose payload is a byte too long for the
iterator. -/
theorem oversize_not_iterated :
    ∃ bytes, encodeLog [.set [] (replicate 104857586 0) (.written false) 0] = some bytes ∧
      (WalIterator.start bytes).iterate (bytes.length + 1) ≠
        some ([.set [] (replicate 104857586 0) (.written false) 0], .done) := by
  have hlen : (replicate 104857586 (0 : UInt8)).length = 104857586 := length_replicate
  generalize replicate 104857586 (0 : UInt8) = value at hlen ⊢
  have hser : Wal.serializeRecord (.set [] value (.written false) 0) =
      some (Wal.frame .set (Wal.setPayload [] value (.written false) 0)) := by
    rw [Wal.serializeRecord, Wal.serializeSetRecord, if_pos]
    rw [hlen]
    decide
  obtain ⟨bytes, henc⟩ : ∃ bytes, encodeLog [.set [] value (.written false) 0] = some bytes :=
    ⟨_, encodeLog_singleton hser⟩
  refine ⟨bytes, henc, ?_⟩
  intro hall
  have hlong := encodeLog_length henc
  have hiff := iterate_encodeLog henc (WalIterator.start bytes) rfl rfl (Nat.lt_succ_of_le hlong)
  have hfit := (hiff.mp hall _ mem_cons_self).1
  rw [WalRecord.Replayable, WalRecord.payload, Wal.setPayload_length, hlen] at hfit
  revert hfit
  decide

/-! ## Recovery -/

/-- A call asks for memory: the payload is not contiguous in the buffer.  It does so before
it knows whether the payload is there. -/
def wantsPayload (it : WalIterator) : Bool :=
  let (header, it) := it.readBuffered Wal.headerLen
  let payloadLen := leNat (slice header 5 8)
  header.length = Wal.headerLen && 0 < payloadLen && payloadLen ≤ Wal.maxPayloadLen &&
    it.reader.pending.length < payloadLen

/-- The loop of `replayWal` over the iterator.  `room` is what the allocator says to the
payload of each call. -/
def replay (alloc : Nat → AllocSite → Bool) (room : Nat → Bool) :
    Nat → Nat → WalIterator → Store → Except Fault Unit × Store
  | 0, _, _, s => (.ok (), s)
  | fuel + 1, n, it, s =>
      if it.wantsPayload && !room n then (.error (.error .outOfMemory), s)
      else
        match it.next with
        | (.done, _) => (.ok (), s)
        | (.corruption, _) => (.error (.error .corruption), s)
        | (.trap, _) => (.error .trap, s)
        | (.record r, it) =>
            if alloc n .record then
              match s.replayRecord (alloc n) r with
              | (.error e, s) => (.error e, s)
              | (.ok (), s) => replay alloc room fuel (n + 1) it s
            else (.error (.error .outOfMemory), s)

/-- The replay over the bytes, or memory ran out for a payload: everything before it is then
in the store. -/
theorem replay_contents (alloc : Nat → AllocSite → Bool) (room : Nat → Bool) (fuel n : Nat)
    (hdone : it.done = false) (s : Store) :
    it.replay alloc room fuel n s = Store.replayLoop alloc fuel n it.contents s ∨
    ∃ k s', room (n + k) = false ∧ Store.replayLoop alloc k n it.contents s = (.ok (), s') ∧
      it.replay alloc room fuel n s = (.error (.error .outOfMemory), s') := by
  induction fuel generalizing n it s with
  | zero => exact .inl rfl
  | succ fuel ih =>
    rw [replay]
    by_cases hroom : (it.wantsPayload && !room n) = true
    · rw [if_pos hroom]
      rw [Bool.and_eq_true, Bool.not_eq_true'] at hroom
      exact .inr ⟨0, s, hroom.2, rfl, rfl⟩
    rw [if_neg hroom]
    have hgives := next_refines hdone
    rcases hcall : it.next with ⟨item, it'⟩
    cases hnext : Wal.next it.contents <;> rw [hnext, Gives, hcall] at hgives
    case record r rest =>
      obtain ⟨rfl, rfl, hdone'⟩ := hgives
      simp only at hdone'
      simp only [Store.replayLoop, hnext]
      by_cases hrecord : alloc n .record = true
      · rw [if_pos hrecord, if_pos hrecord]
        rcases hreplay : s.replayRecord (alloc n) r with ⟨_ | _, s'⟩
        · exact .inl rfl
        · refine (ih (n + 1) hdone' s').imp_right ?_
          rintro ⟨k, s'', hno, hloop, hout⟩
          refine ⟨k + 1, s'', (congrArg room (by omega)).trans hno, ?_, hout⟩
          simp only [Store.replayLoop, hnext, if_pos hrecord, hreplay]
          exact hloop
      · rw [if_neg hrecord, if_neg hrecord]
        exact .inl rfl
    all_goals
      obtain rfl := hgives
      rw [Store.replayLoop, hnext]
      exact .inl rfl

/-- **Recovery sees the buffer only in the memory it takes:** whatever the file has, a log or
not, its replay through the iterator is the one over its bytes, or memory for the payload of
a call is refused and the store has what the calls before it gave. -/
theorem replay_file (alloc : Nat → AllocSite → Bool) (room : Nat → Bool) (wal : Bytes) (s : Store) :
    (start wal).replay alloc room (wal.length + 1) 0 s = s.replayWal alloc wal ∨
    ∃ n s', room n = false ∧ Store.replayLoop alloc n 0 wal s = (.ok (), s') ∧
      (start wal).replay alloc room (wal.length + 1) 0 s = (.error (.error .outOfMemory), s') := by
  refine (replay_contents alloc room (wal.length + 1) 0 rfl s).imp_right ?_
  rintro ⟨n, s', hno, hloop, hout⟩
  exact ⟨n, s', (congrArg room (zero_add n)).symm.trans hno, hloop, hout⟩

end WalIterator
end WormDB
