import WormDB.TornTail
import WormDB.LogPipeline
import WormDB.StrayLog

/-! # Failed log writes

Sets and deletes while writes to the log file fail, each after any part of its
bytes: directly, with or without `sync_writes`, or in the background writer, which
drops the error.

What memory and the log may then disagree on is kept beside the store as `stray`:
the records of refused calls that are whole in the log, and the acknowledged
records the writer lost. -/
namespace WormDB
open List ByteCodec GuardedReplay CheckpointedLog StrayLog

/-! ## The background writer -/

/-- The records copied into the buffer until the next one does not fit. -/
def coalesce (room : Nat) : List Bytes → List Bytes
  | [] => []
  | record :: rest =>
      if record.length ≤ room then record :: coalesce (room - record.length) rest else []

/-- The records of the next `writeAll`: a long one alone, or a buffer of them. -/
def nextWrite : List Bytes → List Bytes
  | [] => []
  | record :: rest =>
      if writeBufLen < record.length then [record] else coalesce writeBufLen (record :: rest)

/-- The number of bytes a failed write left. -/
def WalIo.cut : WalIo → Option Nat
  | .done => none
  | .failed written => some written

/-- What a write of these bytes leaves in the file. -/
def WalIo.bytes (io : WalIo) (bytes : Bytes) : Bytes :=
  match io with
  | .done => bytes
  | .failed written => bytes.take written

namespace Db

/-- One `writeAll` of `writerLoop`, when `count` records were dequeued.  Neither its
error nor that of the sync after it goes anywhere.  The pieces the file takes a write
in are those of `WriterPhase.step`. -/
def writerLoop (db : Db) (count : Nat) (io : WalIo) : Db :=
  let records := nextWrite (db.walQueue.take (min count maxBatch))
  { db with
    walFile := db.walFile ++ io.bytes records.flatten
    walQueue := db.walQueue.drop records.length }

end Db

/-- The first bytes of these records end between two of them. -/
def EndsBetween : List Bytes → Nat → Prop
  | _, 0 => True
  | [], _ => True
  | record :: rest, n => record.length ≤ n ∧ EndsBetween rest (n - record.length)

instance EndsBetween.decidable : (records : List Bytes) → (n : Nat) →
    Decidable (EndsBetween records n)
  | [], 0 => .isTrue trivial
  | _ :: _, 0 => .isTrue trivial
  | [], _ + 1 => .isTrue trivial
  | record :: rest, n + 1 =>
      have := EndsBetween.decidable rest (n + 1 - record.length)
      inferInstanceAs (Decidable (record.length ≤ n + 1 ∧ EndsBetween rest _))

/-- The number of records that the first bytes hold whole. -/
def wholeCount : List Bytes → Nat → Nat
  | [], _ => 0
  | record :: rest, n =>
      if record.length ≤ n then wholeCount rest (n - record.length) + 1 else 0

/-- The number of records a write leaves in the file. -/
def WalIo.kept (io : WalIo) (records : List Bytes) : Nat :=
  match io with
  | .done => records.length
  | .failed written => wholeCount records written

theorem wholeCount_le (records : List Bytes) (n : Nat) : wholeCount records n ≤ records.length := by
  induction records generalizing n with
  | nil => exact le_refl 0
  | cons record rest ih =>
    rw [wholeCount]
    split
    · exact Nat.succ_le_succ (ih _)
    · exact Nat.zero_le _

/-- The whole records fit the bytes. -/
theorem wholeCount_fits (records : List Bytes) (n : Nat) :
    (records.take (wholeCount records n)).flatten.length ≤ n := by
  induction records generalizing n with
  | nil => exact Nat.zero_le _
  | cons record rest ih =>
    rw [wholeCount]
    split
    · have hrest := ih (n - record.length)
      rw [take_succ_cons, flatten_cons, length_append]
      omega
    · exact Nat.zero_le _

theorem EndsBetween.flatten_take {records : List Bytes} {n : Nat} (h : EndsBetween records n) :
    records.flatten.take n = (records.take (wholeCount records n)).flatten := by
  induction records generalizing n with
  | nil => simp
  | cons record rest ih =>
    cases n with
    | zero =>
      rw [take_zero]
      exact (length_eq_zero_iff.mp (Nat.le_zero.mp (wholeCount_fits _ 0))).symm
    | succ n =>
      obtain ⟨hle, hrest⟩ := h
      rw [wholeCount, if_pos hle, take_succ_cons, flatten_cons, flatten_cons,
        take_append, take_of_length_le hle, ih hrest]

theorem WalIo.kept_le (io : WalIo) (records : List Bytes) : io.kept records ≤ records.length := by
  cases io with
  | done => exact le_refl _
  | failed written => exact wholeCount_le records written

theorem coalesce_front (room : Nat) (records : List Bytes) :
    coalesce room records <+: records := by
  induction records generalizing room with
  | nil => exact prefix_refl _
  | cons record rest ih =>
    rw [coalesce]
    split
    · exact cons_prefix_cons.mpr ⟨rfl, ih _⟩
    · exact nil_prefix

theorem nextWrite_front (records : List Bytes) : nextWrite records <+: records := by
  cases records with
  | nil => exact prefix_refl _
  | cons record rest =>
    rw [nextWrite]
    split
    · exact cons_prefix_cons.mpr ⟨rfl, nil_prefix⟩
    · exact coalesce_front _ _

/-! ## What a refused call leaves in the log -/

namespace Db

/-- A refused call left the log alone, or the beginning of its record in it. -/
inductive LeftLog (db db' : Db) (io : WalIo) (record : Option Bytes) : Prop where
  | none (heq : db' = { db with store := db'.store })
  | part (written : Nat) (bytes : Bytes) (hio : io = .failed written)
      (hrecord : record = some bytes)
      (hdirect : db.writerStarted = false) (hunfenced : db.syncFailed = false)
      (heq : db' = { db with
        store := db'.store, walFile := db.walFile ++ bytes.take written,
        syncFailed := db.config.syncWrites })

/-- The log takes records. -/
def Unfenced (db : Db) : Prop := db.writerStarted = true ∨ db.syncFailed = false

theorem commitSerializedRecord_log (db : Db) (io : WalIo) (record : Bytes) :
    match db.commitSerializedRecord io record with
    | (.ok (), _) => db.Unfenced
    | (.error _, db') => LeftLog db db' io (some record) := by
  unfold commitSerializedRecord
  by_cases hstarted : db.writerStarted = true
  · simp only [if_pos hstarted]
    exact .inl hstarted
  · simp only [if_neg hstarted]
    unfold writeDirect
    by_cases hfailed : db.syncFailed = true
    · simp only [if_pos hfailed]
      exact .none rfl
    · simp only [if_neg hfailed]
      have hopen : db.syncFailed = false := Bool.eq_false_iff.mpr hfailed
      cases io with
      | done => exact .inr hopen
      | failed written =>
        exact .part written record rfl rfl (Bool.eq_false_iff.mpr hstarted) hopen rfl

variable {db : Db}

/-- **What a set does to the log** beyond `set_cases`: acknowledged only when the log
is not fenced off, and what a refused one leaves. -/
theorem set_log (h : StoreOk db.store) (hmode : db.config.persistence = .full) (env : Env)
    (key value : Bytes) (isWorm : Bool) (timestamp : UInt64) :
    match db.setWithTimestamp env key value isWorm timestamp with
    | (.ok (), _) => db.Unfenced
    | (.error f, db') => f ≠ .trap → LeftLog db db' env.io
        (Wal.serializeSetRecord key value (.written isWorm) timestamp) := by
  have hrefuse : ∀ f : Fault, f ≠ .trap → LeftLog db db env.io
      (Wal.serializeSetRecord key value (.written isWorm) timestamp) := fun _ _ => .none rfl
  unfold setWithTimestamp setWithTimestampNoVectorSync
  simp only [if_pos hmode]
  cases env.alloc .record with
  | false => exact hrefuse _
  | true =>
    simp only [Bool.not_true, Bool.false_eq_true, if_false]
    cases hser : Wal.serializeSetRecord key value (.written isWorm) timestamp with
    | none => exact fun hf => absurd rfl hf
    | some record =>
      simp only []
      cases hworm : db.store.wormBlocked key with
      | true => exact fun _ => .none rfl
      | false =>
        have hprep := h.prepare env.alloc key value isWorm timestamp
        simp only [Bool.false_eq_true, if_false]
        generalize db.store.prepareUpsertLocked env.alloc (shardIndex key) (db.store.get key) key
          value isWorm timestamp = result at hprep ⊢
        obtain f | ⟨prepared, s⟩ := result
        · exact fun _ => .none rfl
        · obtain ⟨⟨s', hcommit, -⟩, -⟩ := hprep
          have hlog := db.commitSerializedRecord_log env.io record
          simp only []
          generalize db.commitSerializedRecord env.io record = result at hlog ⊢
          obtain ⟨f | u, db'⟩ := result
          · intro _
            cases hlog with
            | none heq =>
              refine .none ?_
              rw [heq]
            | part written bytes hio hrecord hdirect hunfenced heq =>
              refine .part written bytes hio hrecord hdirect hunfenced ?_
              rw [heq]
          · simp only [hcommit]
            cases hstarted : db.writerStarted with
            | true => exact .inl hstarted
            | false =>
              simp only [Bool.false_eq_true, if_false]
              unfold compactAfter
              cases hcompact : maybeSnapshotAndTruncate { db' with store := s' } env with
              | error f => exact fun hf => absurd (maybeSnapshotAndTruncate_error hcompact) hf
              | ok db'' => exact hlog

/-- **What a delete does to the log**, when there is an entry to delete. -/
theorem delete_log (hmode : db.config.persistence = .full) (env : Env) {key : Bytes}
    {e : Entry} (hat : db.store.entryAt key = some e) :
    match db.delete env key with
    | (.ok (), _) => db.Unfenced
    | (.error f, db') => f ≠ .trap → LeftLog db db' env.io (Wal.serializeDeleteRecord key) := by
  unfold delete
  rw [show (db.store.get key).bind db.store.mem = some e from hat]
  simp only []
  cases hworm : e.flags.isWorm with
  | true => exact fun _ => .none rfl
  | false =>
    simp only [Bool.false_eq_true, if_false, if_pos hmode]
    unfold appendDelete
    cases env.alloc .record with
    | false => exact fun _ => .none rfl
    | true =>
      simp only [Bool.not_true, Bool.false_eq_true, if_false]
      cases hser : Wal.serializeDeleteRecord key with
      | none => exact fun hf => absurd rfl hf
      | some record =>
        have hlog := db.commitSerializedRecord_log env.io record
        simp only []
        generalize db.commitSerializedRecord env.io record = result at hlog ⊢
        obtain ⟨f | u, db'⟩ := result
        · exact fun _ => hlog
        · simp only [compactAfter]
          cases hcompact : maybeSnapshotAndTruncate
              { db' with store := db'.store.shardDropLocked (shardIndex key) key } env with
          | error f => exact fun hf => absurd (maybeSnapshotAndTruncate_error hcompact) hf
          | ok db'' => exact hlog

end Db

/-! ## Runs -/

/-- What happens to the store between two opens. -/
inductive LogOp where
  | set (env : Env) (key value : Bytes) (isWorm : Bool) (timestamp : UInt64)
  | delete (env : Env) (key : Bytes)
  | startBackgroundTasks
  | writerLoop (count : Nat) (io : WalIo)

/-- A store, with the records of its queue and the writes that memory and the log
may disagree on. -/
structure Session where
  db : Db
  queued : List WalRecord
  stray : List (Bytes × Option Content)

namespace Session

def opened (db : Db) : Session := ⟨db, [], []⟩

/-- After an acknowledged write of the key: a truncated log has no strays. -/
def acknowledged (s : Session) (key : Bytes) (r : WalRecord) (db' : Db) : Session where
  db := db'
  queued := if s.db.writerStarted then s.queued ++ [r] else s.queued
  stray := if s.db.writerStarted = false ∧ db'.walFile = [] then [] else settle s.stray key

/-- After a refused one: a stray when all of its record is in the log. -/
def refused (s : Session) (r : WalRecord) (db' : Db) : Session :=
  { s with
    db := db'
    stray :=
      if Wal.serializeRecord r = some (db'.walFile.drop s.db.walFile.length) then
        s.stray ++ writesOf [r]
      else s.stray }

def called (s : Session) (key : Bytes) (r : WalRecord) : Except Fault Unit × Db → Option Session
  | (.error .trap, _) => none
  | (.error (.error _), db') => some (s.refused r db')
  | (.ok (), db') => some (s.acknowledged key r db')

/-- The records of the writer's next write. -/
def batch (s : Session) (count : Nat) : List Bytes :=
  nextWrite (s.db.walQueue.take (min count maxBatch))

/-- After a write of the writer: what it lost is stray. -/
def drained (s : Session) (count : Nat) (io : WalIo) : Session where
  db := s.db.writerLoop count io
  queued := s.queued.drop (s.batch count).length
  stray := s.stray ++
    writesOf ((s.queued.take (s.batch count).length).drop (io.kept (s.batch count)))

end Session

namespace LogOp

/-- The next state: none when the process ends. -/
def step (s : Session) : LogOp → Option Session
  | .set env key value isWorm timestamp =>
      s.called key (.set key value (.written isWorm) timestamp)
        (s.db.setWithTimestamp env key value isWorm timestamp)
  | .delete env key =>
      match s.db.store.entryAt key with
      | none => (Op.survived (s.db.delete env key)).map (fun db' => { s with db := db' })
      | some _ => s.called key (.delete key) (s.db.delete env key)
  | .startBackgroundTasks => some { s with db := s.db.startBackgroundTasks }
  | .writerLoop count io => some (s.drained count io)

/-- The step is a call on the key that is acknowledged. -/
def Acknowledges (db : Db) (key : Bytes) : LogOp → Prop
  | .set env key' value isWorm timestamp =>
      key' = key ∧ (db.setWithTimestamp env key' value isWorm timestamp).1 = .ok ()
  | .delete env key' => key' = key ∧ (db.delete env key').1 = .ok ()
  | _ => False

instance (db : Db) (key : Bytes) : (op : LogOp) → Decidable (op.Acknowledges db key)
  | .set env key' value isWorm timestamp => inferInstanceAs (Decidable
      (key' = key ∧ (db.setWithTimestamp env key' value isWorm timestamp).1 = .ok ()))
  | .delete env key' => inferInstanceAs (Decidable (key' = key ∧ (db.delete env key').1 = .ok ()))
  | .startBackgroundTasks => .isFalse id
  | .writerLoop _ _ => .isFalse id

/-- No write to the log fails. -/
def Calm : LogOp → Prop
  | .set env .. => env.io = .done
  | .delete env _ => env.io = .done
  | .startBackgroundTasks => True
  | .writerLoop _ io => io = .done

end LogOp

namespace Session

/-- A direct write that no sync fences leaves no part of its record. -/
def Whole (s : Session) (env : Env) (r : WalRecord) : Prop :=
  s.db.writerStarted = false → s.db.config.syncWrites = false →
    ∀ written ∈ env.io.cut, ∀ bytes ∈ Wal.serializeRecord r, EndsBetween [bytes] written

/-- The log, when it takes records, has no stray write-once entry for the key. -/
def Frees (s : Session) (key : Bytes) : Prop :=
  s.db.syncFailed = false → Unlocked Content.isWorm s.stray key

/-- The step stays within what the fence protects. -/
def Fenced (s : Session) : LogOp → Prop
  | .set env key value isWorm timestamp =>
      (WalRecord.set key value (.written isWorm) timestamp).Replayable ∧
        s.Whole env (.set key value (.written isWorm) timestamp) ∧
        (s.db.store.wormBlocked key = false → s.Frees key)
  | .delete env key =>
      match s.db.store.entryAt key with
      | none => Settled s.stray key
      | some e => s.Whole env (.delete key) ∧ (e.flags.isWorm = false → s.Frees key)
  | .startBackgroundTasks => s.db.syncFailed = false
  | .writerLoop count io => ∀ written ∈ io.cut, EndsBetween (s.batch count) written

instance (s : Session) (env : Env) (r : WalRecord) : Decidable (s.Whole env r) :=
  inferInstanceAs (Decidable (_ → _ → ∀ written ∈ env.io.cut, ∀ bytes ∈ Wal.serializeRecord r, _))

instance (s : Session) (key : Bytes) : Decidable (s.Frees key) :=
  inferInstanceAs (Decidable (_ → ∀ w ∈ s.stray, w.1 = key → w.2.any Content.isWorm = false))

instance (s : Session) : (op : LogOp) → Decidable (s.Fenced op)
  | .set _ key _ _ _ =>
      inferInstanceAs (Decidable (_ ∧ _ ∧ (s.db.store.wormBlocked key = false → s.Frees key)))
  | .delete env key =>
      match hat : s.db.store.entryAt key with
      | none => decidable_of_iff (∀ w ∈ s.stray, w.1 ≠ key) (by simp only [Fenced, hat, Settled])
      | some e => decidable_of_iff
          (s.Whole env (.delete key) ∧ (e.flags.isWorm = false → s.Frees key))
          (by simp only [Fenced, hat])
  | .startBackgroundTasks => inferInstanceAs (Decidable (s.db.syncFailed = false))
  | .writerLoop count io =>
      inferInstanceAs (Decidable (∀ written ∈ io.cut, EndsBetween (s.batch count) written))

/-- Runs of fenced steps. -/
inductive Runs : Session → List LogOp → Session → Prop
  | nil (s : Session) : Runs s [] s
  | cons {s s₁ s₂ : Session} {op : LogOp} {ops : List LogOp} (hfenced : s.Fenced op)
      (hstep : op.step s = some s₁) (hrest : Runs s₁ ops s₂) : Runs s (op :: ops) s₂

/-- A run, as long as its steps are fenced. -/
def fencedRun (s : Session) (ops : List LogOp) : Option Session :=
  ops.foldlM (fun s op => if s.Fenced op then op.step s else none) s

theorem Runs.of_fencedRun {s s' : Session} {ops : List LogOp} (h : s.fencedRun ops = some s') :
    Runs s ops s' := by
  induction ops generalizing s with
  | nil =>
    obtain rfl := Option.some.inj h
    exact .nil s
  | cons op ops ih =>
    rw [fencedRun, foldlM_cons] at h
    obtain ⟨s₁, hstep, hrest⟩ := Option.bind_eq_some_iff.mp h
    by_cases hfenced : s.Fenced op
    · rw [if_pos hfenced] at hstep
      exact .cons hfenced hstep (ih hrest)
    · rw [if_neg hfenced] at hstep
      cases hstep

end Session

/-- Any run of the code. -/
def LogOp.run (s : Session) (ops : List LogOp) : Option Session := ops.foldlM LogOp.step s

/-- **The strays are only kept beside the store**: a step is the code's own. -/
theorem LogOp.step_db (s : Session) (op : LogOp) : (op.step s).map Session.db =
    match op with
    | .set env key value isWorm timestamp =>
        Op.survived (s.db.setWithTimestamp env key value isWorm timestamp)
    | .delete env key => Op.survived (s.db.delete env key)
    | .startBackgroundTasks => some s.db.startBackgroundTasks
    | .writerLoop count io => some (s.db.writerLoop count io) := by
  have hcalled : ∀ key r result, (s.called key r result).map Session.db = Op.survived result := by
    rintro key r ⟨(e | _) | u, db'⟩ <;> rfl
  cases op with
  | set env key value isWorm timestamp => exact hcalled _ _ _
  | delete env key =>
    simp only [LogOp.step]
    cases s.db.store.entryAt key with
    | none =>
      simp only []
      cases Op.survived (s.db.delete env key) <;> rfl
    | some e => exact hcalled _ _ _
  | startBackgroundTasks => rfl
  | writerLoop count io => rfl

/-! ## The invariant -/

/-- The queue's bytes are those of these records. -/
def Serialized (records : List WalRecord) (queue : List Bytes) : Prop :=
  List.Forall₂ (fun r bytes => Wal.serializeRecord r = some bytes) records queue

/-- The log is the records kept, the rest of one that was cut, and the queue; the
strays make up for the difference to memory. -/
structure Session.Holds (s : Session) (snap : Bytes → Option Content) (kept : List WalRecord)
    (torn : Bytes) : Prop where
  ok : StoreOk s.db.store
  mode : s.db.config.persistence = .full
  started : s.db.writerStarted = true → s.db.config.syncWrites = true
  fence : s.db.syncFailed = true → s.db.config.syncWrites = true ∧ s.db.writerStarted = false
  cut : torn ≠ [] → s.db.syncFailed = true
  ends : Wal.next torn = .done
  direct : s.db.writerStarted = false → s.queued = []
  file : ∃ bytes, encodeLog kept = some bytes ∧ s.db.walFile = bytes ++ torn
  queue : Serialized s.queued s.db.walQueue
  flags : ∀ r ∈ kept ++ s.queued, r.KnownFlags
  fits : ∀ r ∈ kept ++ s.queued, r.Replayable
  restores : Restores s.db.store.sst s.db.snapshotFile snap
  sure : Sure Content.isWorm ⟨s.db.store.view, snap, writesOf (kept ++ s.queued)⟩ s.stray

variable {records : List WalRecord} {queue : List Bytes}

theorem Serialized.encodeLog
    (h : Serialized records queue) : encodeLog records = some queue.flatten := by
  induction h with
  | nil => rfl
  | cons hr _ ih => exact encodeLog_cons.mpr ⟨_, _, hr, ih, rfl⟩

theorem Serialized.length
    (h : Serialized records queue) : records.length = queue.length := List.Forall₂.length_eq h

theorem writesOf_singleton {r : WalRecord} {w : Bytes × Option Content} (hr : r.write = some w) :
    writesOf [r] = [w] := by simp [writesOf, hr]

section
variable {s s₁ : Session} {snap : Bytes → Option Content} {kept : List WalRecord} {torn : Bytes}
  {env : Env} {key : Bytes} {r : WalRecord}

/-- A log that takes records ends in a whole one. -/
theorem Session.Holds.whole (h : s.Holds snap kept torn) (hopen : s.db.Unfenced) : torn = [] := by
  by_contra hcut
  have hfailed := h.cut hcut
  rcases hopen with hstarted | hunfenced
  · rw [(h.fence hfailed).2] at hstarted
    cases hstarted
  · cases hunfenced.symm.trans hfailed

/-- The log, read back to its end, gives the replay of its records. -/
theorem Session.Holds.reopens (h : s.Holds snap kept torn) (closing : Env) :
    ∃ db', (Op.reopen closing .ample).step s.db = some db' ∧
      db'.store.view = replay Content.isWorm snap (writesOf (kept ++ s.queued)) := by
  obtain ⟨s₀, hload, hok, hsst, hview⟩ := h.restores
  obtain ⟨bytes, henc, hfile⟩ := h.file
  have hlog : ∃ image, WormDB.encodeLog (kept ++ s.queued) = some image ∧
      s.db.walFile ++ s.db.walQueue.flatten = image ++ torn := by
    refine ⟨bytes ++ s.db.walQueue.flatten, encodeLog_append henc h.queue.encodeLog, ?_⟩
    by_cases hcut : torn = []
    · rw [hfile, hcut, append_nil, append_nil]
    · have hnil := h.direct (h.fence (h.cut hcut)).2
      have hempty : s.db.walQueue = [] := by
        rw [← length_eq_zero_iff, ← h.queue.length, hnil]
        rfl
      rw [hfile, hempty, flatten_nil, append_nil, append_nil]
  obtain ⟨image, himage, hwal⟩ := hlog
  obtain ⟨s', -, -, hreplayed, htail⟩ := hok.replayWal_tail ample_all himage h.flags h.fits
  have hopen := openFiles_full h.mode hload ((htail torn).1 h.ends)
  refine ⟨Db.opened s.db.config (image ++ torn) s.db.snapshotFile s', ?_, ?_⟩
  · simp only [Op.step, Db.close_full h.mode closing, hwal, hopen]
  · show s'.view = _
    rw [hreplayed, hview]

/-! ### Steps -/

/-- A call that changed no entry and no file. -/
theorem Session.Holds.keeps (h : s.Holds snap kept torn) {store : Store}
    (hs : Keeps s.db.store store) :
    Session.Holds { s with db := { s.db with store := store } } snap kept torn := by
  have hview : store.view = s.db.store.view := hs.view
  refine ⟨hs.ok, h.mode, h.started, h.fence, h.cut, h.ends, h.direct, h.file, h.queue, h.flags,
    h.fits, hs.sst ▸ h.restores, ?_⟩
  show Sure Content.isWorm ⟨store.view, snap, _⟩ s.stray
  rw [hview]
  exact h.sure

variable {db' : Db} {e : Option Entry}

/-- **A logged write**, before compaction. -/
theorem Session.Holds.wrote (h : s.Holds snap kept torn)
    {bytes : Bytes} (hw : Db.Wrote s.db db' key e bytes)
    (hser : Wal.serializeRecord r = some bytes) (hflags : r.KnownFlags) (hfits : r.Replayable)
    (hr : r.write = some (key, e.map Entry.content)) (hopen : s.db.Unfenced)
    (hfree : ¬ Locked Content.isWorm s.db.store.view key)
    (hstray : Unlocked Content.isWorm s.stray key) :
    ∃ kept', Session.Holds ⟨db', if s.db.writerStarted then s.queued ++ [r] else s.queued,
      settle s.stray key⟩ snap kept' [] := by
  obtain rfl := h.whole hopen
  obtain ⟨image, henc, hfile⟩ := h.file
  have hsure := h.sure.write (e.map Entry.content) hfree hstray
  have hview : db'.store.view = Function.update s.db.store.view key (e.map Entry.content) :=
    hw.updates.view
  have hsnap : Restores db'.store.sst s.db.snapshotFile snap := by
    rw [hw.updates.sst]
    exact h.restores
  rw [State.write, ← writesOf_singleton hr, ← writesOf_append, append_assoc] at hsure
  rw [← hview] at hsure
  rw [hw.eq, Db.logged]
  by_cases hstarted : s.db.writerStarted = true
  · simp only [if_pos hstarted]
    refine ⟨kept, hw.updates.ok, h.mode, h.started, h.fence, fun hx => absurd rfl hx, rfl,
      fun hs => absurd hstarted (Bool.eq_false_iff.mp hs), h.file, ?_, ?_, ?_, hsnap, hsure⟩
    · exact rel_append h.queue (.cons hser .nil)
    · rw [← append_assoc]
      exact forall_mem_append.mpr ⟨h.flags, forall_mem_singleton.mpr hflags⟩
    · rw [← append_assoc]
      exact forall_mem_append.mpr ⟨h.fits, forall_mem_singleton.mpr hfits⟩
  · have hnil := h.direct (Bool.eq_false_iff.mpr hstarted)
    have hflags' := h.flags
    have hfits' := h.fits
    rw [hnil, append_nil] at hflags' hfits'
    rw [hnil, nil_append] at hsure
    simp only [if_neg hstarted]
    refine ⟨kept ++ [r], hw.updates.ok, h.mode, h.started, h.fence, fun hx => absurd rfl hx, rfl,
      h.direct, ⟨image ++ bytes, encodeLog_append henc (encodeLog_singleton hser), ?_⟩, h.queue,
      ?_, ?_, hsnap, ?_⟩
    · show s.db.walFile ++ bytes = _
      rw [hfile, append_nil, append_nil]
    · rw [hnil, append_nil]
      exact forall_mem_append.mpr ⟨hflags', forall_mem_singleton.mpr hflags⟩
    · rw [hnil, append_nil]
      exact forall_mem_append.mpr ⟨hfits', forall_mem_singleton.mpr hfits⟩
    · rw [hnil, append_nil]
      exact hsure

/-- **Compaction**: a checkpoint, with or without truncation, or nothing. -/
theorem Session.Holds.compact (h : s.Holds snap kept torn)
    (hcompact : s.db.maybeSnapshotAndTruncate env = .ok db') (hdirect : s.db.writerStarted = false)
    (hfile : s.db.walFile ≠ []) :
    ∃ snap' kept' torn', Session.Holds { s with
      db := db', stray := if db'.walFile = [] then [] else s.stray } snap' kept' torn' := by
  rcases Db.maybeSnapshotAndTruncate_cases hcompact with rfl | ⟨hsync, bytes, hbytes, rfl | rfl⟩
  · rw [if_neg hfile]
    exact ⟨snap, kept, torn, h⟩
  · rw [if_neg hfile]
    exact ⟨s.db.store.view, kept, torn, h.ok, h.mode, h.started, h.fence, h.cut, h.ends, h.direct,
      h.file, h.queue, h.flags, h.fits, restores_encodeSnapshot h.ok hbytes _, h.sure.checkpoint⟩
  · have hnil := h.direct hdirect
    rw [if_pos rfl]
    refine ⟨s.db.store.view, [], [], h.ok, h.mode, h.started, h.fence, fun hx => absurd rfl hx, rfl,
      h.direct, ⟨[], rfl, rfl⟩, h.queue, ?_, ?_, restores_encodeSnapshot h.ok hbytes _, ?_⟩
    · rw [hnil]
      exact forall_mem_nil _
    · rw [hnil]
      exact forall_mem_nil _
    · rw [hnil]
      exact Sure.compact _

/-- With the writer on, nothing is truncated. -/
theorem Session.acknowledged_queued (hstarted : s.db.writerStarted = true) (db' : Db) :
    s.acknowledged key r db' =
      ⟨db', if s.db.writerStarted then s.queued ++ [r] else s.queued, settle s.stray key⟩ := by
  simp [Session.acknowledged, hstarted]

/-- **An acknowledged write.** -/
theorem Session.Holds.acknowledged (h : s.Holds snap kept torn)
    (hack : Db.Acked s.db env key e (Wal.serializeRecord r) db') (hflags : r.KnownFlags)
    (hfits : r.Replayable) (hr : r.write = some (key, e.map Entry.content))
    (hopen : s.db.Unfenced) (hfree : ¬ Locked Content.isWorm s.db.store.view key)
    (hstray : Unlocked Content.isWorm s.stray key) :
    ∃ snap' kept' torn', (s.acknowledged key r db').Holds snap' kept' torn' := by
  cases hack with
  | memory hmode => exact absurd h.mode hmode
  | queued _ hstarted hrecord hwrote =>
    obtain ⟨kept', hwritten⟩ := h.wrote hwrote hrecord hflags hfits hr hopen hfree hstray
    rw [Session.acknowledged_queued hstarted]
    exact ⟨snap, kept', [], hwritten⟩
  | @direct db₁ _ bytes _ hrecord hwrote hcompact =>
    obtain ⟨kept', hwritten⟩ := h.wrote hwrote hrecord hflags hfits hr hopen hfree hstray
    by_cases hstarted : s.db.writerStarted = true
    · -- with the writer on, `sync_writes` is, and nothing is compacted
      have hconfig : db₁.config = s.db.config := by
        rw [hwrote.eq]
        exact s.db.logged_config bytes
      have hidle := db₁.maybeSnapshotAndTruncate_idle env (.inl (hconfig ▸ h.started hstarted))
      cases hcompact.symm.trans hidle
      rw [Session.acknowledged_queued hstarted]
      exact ⟨snap, kept', [], hwritten⟩
    · have hdirect : s.db.writerStarted = false := Bool.eq_false_iff.mpr hstarted
      have hdirect₁ : db₁.writerStarted = false := by
        rw [hwrote.eq]
        exact (logged_started s.db bytes).trans hdirect
      have hfile : db₁.walFile ≠ [] := by
        rw [hwrote.eq, Db.logged, if_neg hstarted]
        exact append_ne_nil_of_right_ne_nil _ (serializeRecord_ne_nil hrecord)
      obtain ⟨snap', kept'', torn', hcompacted⟩ := hwritten.compact hcompact hdirect₁ hfile
      simp only [Session.acknowledged, hdirect, true_and]
      simp only [hdirect] at hcompacted
      exact ⟨snap', kept'', torn', hcompacted⟩

/-- The strays do not change when the file does not. -/
theorem Session.refused_stray (hfile : db'.walFile = s.db.walFile) :
    (s.refused r db').stray = s.stray := by
  refine if_neg fun hser => serializeRecord_ne_nil hser ?_
  rw [hfile, drop_length]

/-- **A refused call.** -/
theorem Session.Holds.refused (h : s.Holds snap kept torn)
    (hleft : Db.LeftLog s.db db' env.io (Wal.serializeRecord r))
    (hkeeps : Keeps s.db.store db'.store) (hwhole : s.Whole env r) (hflags : r.KnownFlags)
    (hfit : ∀ bytes, Wal.serializeRecord r = some bytes → r.Replayable)
    {w : Bytes × Option Content} (hr : r.write = some w) :
    ∃ kept' torn', (s.refused r db').Holds snap kept' torn' := by
  cases hleft with
  | none heq =>
    have hstray : (s.refused r db').stray = s.stray := Session.refused_stray (by rw [heq])
    have hkept := h.keeps hkeeps
    rw [← heq, ← hstray] at hkept
    exact ⟨kept, torn, hkept⟩
  | part written bytes hio hser hdirect hunfenced heq =>
    have hfits := hfit bytes hser
    obtain rfl := h.whole (.inr hunfenced)
    obtain ⟨image, henc, hfile⟩ := h.file
    rw [append_nil] at hfile
    have hnil := h.direct hdirect
    have hkept := h.keeps hkeeps
    -- what the call left at the end of the file is a part of its record
    have hdrop : db'.walFile.drop s.db.walFile.length = bytes.take written := by
      rw [heq]
      exact drop_left
    rw [Session.refused, hdrop, heq]
    by_cases hall : bytes.length ≤ written
    · -- the record is whole, and a stray
      rw [take_of_length_le hall, if_pos hser, writesOf_singleton hr]
      have hsure := hkept.sure.left w.1 w.2
      refine ⟨kept ++ [r], [], hkeeps.ok, h.mode, h.started, fun hs => ⟨hs, hdirect⟩,
        fun hx => absurd rfl hx, rfl, h.direct,
        ⟨image ++ bytes, encodeLog_append henc (encodeLog_singleton hser), ?_⟩, h.queue, ?_, ?_,
        hkept.restores, ?_⟩
      · show s.db.walFile ++ bytes = _
        rw [hfile, append_nil]
      · have hold := h.flags
        rw [hnil, append_nil] at hold ⊢
        exact forall_mem_append.mpr ⟨hold, forall_mem_singleton.mpr hflags⟩
      · have hold := h.fits
        rw [hnil, append_nil] at hold ⊢
        exact forall_mem_append.mpr ⟨hold, forall_mem_singleton.mpr hfits⟩
      · simp only [hnil, append_nil] at hsure ⊢
        rw [writesOf_append, writesOf_singleton hr]
        exact hsure
    · -- a part of it is left, and the log fenced off
      have hcut : written < bytes.length := lt_of_not_ge hall
      have hpart : Wal.serializeRecord r ≠ some (bytes.take written) := by
        intro hx
        have hlen := congrArg List.length (Option.some.inj (hx.symm.trans hser))
        rw [length_take] at hlen
        omega
      rw [if_neg hpart]
      refine ⟨kept, bytes.take written, hkeeps.ok, h.mode, h.started, fun hs => ⟨hs, hdirect⟩, ?_,
        torn_done hser hfits hcut, h.direct, ⟨image, henc, ?_⟩, h.queue, h.flags, h.fits,
        hkept.restores, hkept.sure⟩
      · intro hne
        show s.db.config.syncWrites = true
        by_contra hsync
        have hcutAt : written ∈ env.io.cut := by
          rw [hio]
          rfl
        have hends := hwhole hdirect (Bool.eq_false_iff.mpr hsync) written hcutAt bytes hser
        cases written with
        | zero => exact hne (take_zero ..)
        | succ n => exact hall hends.1
      · show s.db.walFile ++ bytes.take written = _
        rw [hfile]

/-- A write of the writer takes its records from the front of the queue. -/
theorem Session.batch_take (s : Session) (count n : Nat) (hn : n ≤ (s.batch count).length) :
    (s.batch count).take n = s.db.walQueue.take n := by
  have hprefix : s.batch count <+: s.db.walQueue :=
    (nextWrite_front _).trans ( take_prefix _ _)
  rw [prefix_iff_eq_take.mp hprefix, take_take, Nat.min_eq_left hn]

variable {io : WalIo}

/-- What a write that ends between two records leaves in the file. -/
theorem WalIo.bytes_eq {records : List Bytes}
    (h : ∀ written ∈ io.cut, EndsBetween records written) :
    io.bytes records.flatten = (records.take (io.kept records)).flatten := by
  cases io with
  | done => rw [WalIo.bytes, WalIo.kept, take_length]
  | failed written => exact (h written rfl).flatten_take

/-- **A write of the background writer.** -/
theorem Session.Holds.drained (h : s.Holds snap kept torn) {count : Nat}
    (hends : ∀ written ∈ io.cut, EndsBetween (s.batch count) written) :
    ∃ kept', (s.drained count io).Holds snap kept' torn := by
  obtain ⟨image, henc, hfile⟩ := h.file
  generalize hk : io.kept (s.batch count) = k
  generalize hn : (s.batch count).length = n
  have hkn : k ≤ n := hk ▸ hn ▸ io.kept_le _
  have hbytes : io.bytes (s.batch count).flatten = (s.db.walQueue.take k).flatten := by
    rw [WalIo.bytes_eq hends, hk, s.batch_take count k (hn ▸ hkn)]
  have hsplit : s.queued = s.queued.take k ++ (s.queued.take n).drop k ++ s.queued.drop n := by
    have htake : s.queued.take k = (s.queued.take n).take k := by
      rw [take_take, Nat.min_eq_left hkn]
    rw [htake, take_append_drop, take_append_drop]
  have hsub : ∀ r' ∈ (kept ++ s.queued.take k) ++ s.queued.drop n, r' ∈ kept ++ s.queued := by
    intro r' hr'
    rcases mem_append.mp hr' with hfront | hback
    · rcases mem_append.mp hfront with hold | htaken
      · exact mem_append_left _ hold
      · exact mem_append_right _ (mem_of_mem_take htaken)
    · exact mem_append_right _ (mem_of_mem_drop hback)
  have hlog : writesOf (kept ++ s.queued) = writesOf (kept ++ s.queued.take k) ++
      writesOf ((s.queued.take n).drop k) ++ writesOf (s.queued.drop n) := by
    rw [← writesOf_append, ← writesOf_append, append_assoc, append_assoc,
      ← append_assoc (s.queued.take k), ← hsplit]
  have hsure := h.sure.lost hlog
  rw [← writesOf_append] at hsure
  refine ⟨kept ++ s.queued.take k, ?_⟩
  rw [Session.drained, hn, hk]
  have hfile' : s.db.walFile ++ io.bytes (s.batch count).flatten =
      image ++ (s.db.walQueue.take k).flatten ++ torn := by
    rw [hbytes, hfile]
    by_cases hcut : torn = []
    · rw [hcut, append_nil, append_nil]
    · have hempty : s.db.walQueue = [] := by
        rw [← length_eq_zero_iff, ← h.queue.length, h.direct (h.fence (h.cut hcut)).2]
        rfl
      rw [hempty, take_nil, flatten_nil, append_nil, append_nil]
  have htaken : Serialized (s.queued.take k) (s.db.walQueue.take k) :=
    forall₂_take k h.queue
  have hrest : Serialized (s.queued.drop n) (s.db.walQueue.drop n) := forall₂_drop n h.queue
  refine ⟨h.ok, h.mode, h.started, h.fence, h.cut, h.ends, fun hs => ?_,
    ⟨_, encodeLog_append henc htaken.encodeLog, hfile'⟩, ?_, fun r' hr' => h.flags r' (hsub r' hr'),
    fun r' hr' => h.fits r' (hsub r' hr'), h.restores, hsure⟩
  · show s.queued.drop n = []
    rw [h.direct hs, drop_nil]
  · show Serialized (s.queued.drop n) (s.db.walQueue.drop (s.batch count).length)
    rw [hn]
    exact hrest

/-- A key that the log takes records for, and that is free, has no write-once entry
in it. -/
theorem Session.Frees.unlocked (h : s.Holds snap kept torn) (hfree : s.Frees key)
    (hopen : s.db.Unfenced) : Unlocked Content.isWorm s.stray key := by
  refine hfree (Bool.eq_false_iff.mpr fun hfailed => ?_)
  rcases hopen with hstarted | hunfenced
  · rw [(h.fence hfailed).2] at hstarted
    cases hstarted
  · cases hfailed.symm.trans hunfenced

/-- A delete's record can always be read back. -/
theorem delete_replayable {bytes : Bytes} (h : Wal.serializeDeleteRecord key = some bytes) :
    (WalRecord.delete key).Replayable := by
  unfold Wal.serializeDeleteRecord at h
  split at h
  · rename_i hlen
    show (Wal.deletePayload key).length ≤ Wal.maxPayloadLen
    rw [Wal.deletePayload_length, Wal.maxPayloadLen, Wal.delPayloadOverhead]
    omega
  · cases h

/-- **A set keeps the invariant.** -/
theorem Session.Holds.set (h : s.Holds snap kept torn) {value : Bytes} {isWorm : Bool}
    {timestamp : UInt64} (hfenced : s.Fenced (.set env key value isWorm timestamp))
    (hstep : LogOp.step s (.set env key value isWorm timestamp) = some s₁) :
    ∃ snap' kept' torn', s₁.Holds snap' kept' torn' := by
  obtain ⟨hfits, hwhole, hfrees⟩ := hfenced
  have hcases := Db.set_cases h.ok env key value isWorm timestamp
  have hlog := Db.set_log h.ok h.mode env key value isWorm timestamp
  rw [LogOp.step] at hstep
  generalize s.db.setWithTimestamp env key value isWorm timestamp = result at hcases hlog hstep
  obtain ⟨(e | _) | u, db'⟩ := result
  · cases hstep
    exact ⟨snap, h.refused (hlog Fault.noConfusion) (hcases.keeps Fault.noConfusion) hwhole trivial
      (fun _ _ => hfits) rfl⟩
  · cases hstep
  · cases hstep
    obtain ⟨hunblocked, hack⟩ := hcases
    exact h.acknowledged hack trivial hfits rfl hlog (wormBlocked_false hunblocked)
      ((hfrees hunblocked).unlocked h hlog)

/-- **A delete keeps the invariant.** -/
theorem Session.Holds.delete (h : s.Holds snap kept torn) (hfenced : s.Fenced (.delete env key))
    (hstep : LogOp.step s (.delete env key) = some s₁) :
    ∃ snap' kept' torn', s₁.Holds snap' kept' torn' := by
  have hcases := Db.delete_cases h.ok env key
  cases hat : s.db.store.entryAt key with
  | none =>
    have hdelete : s.db.delete env key = (.ok (), s.db) := by
      rw [Db.delete, show (s.db.store.get key).bind s.db.store.mem = none from hat]
    simp only [LogOp.step, hat, hdelete] at hstep
    cases hstep
    exact ⟨snap, kept, torn, h⟩
  | some e =>
    have hlog := Db.delete_log h.mode env hat
    simp only [Session.Fenced, hat] at hfenced
    obtain ⟨hwhole, hfrees⟩ := hfenced
    simp only [LogOp.step, hat] at hstep
    generalize s.db.delete env key = result at hcases hlog hstep
    obtain ⟨(e' | _) | u, db'⟩ := result
    · cases hstep
      exact ⟨snap, h.refused (hlog Fault.noConfusion) (hcases.keeps Fault.noConfusion) hwhole
        trivial (fun _ => delete_replayable) rfl⟩
    · cases hstep
    · cases hstep
      rcases hcases with ⟨hnone, -⟩ | ⟨e', hat', hworm, hack⟩
      · cases hat.symm.trans hnone
      · cases hat.symm.trans hat'
        have hfits : (WalRecord.delete key).Replayable := by
          cases hack with
          | memory hmode => exact absurd h.mode hmode
          | queued _ _ hrecord => exact delete_replayable hrecord
          | direct _ hrecord => exact delete_replayable hrecord
        exact h.acknowledged hack trivial hfits rfl hlog (not_locked_of_entry hat hworm)
          ((hfrees hworm).unlocked h hlog)

variable {op : LogOp}

/-- **Every fenced step keeps the invariant.** -/
theorem Session.Holds.step (h : s.Holds snap kept torn) (hfenced : s.Fenced op)
    (hstep : op.step s = some s₁) : ∃ snap' kept' torn', s₁.Holds snap' kept' torn' := by
  cases op with
  | set env key value isWorm timestamp => exact h.set hfenced hstep
  | delete env key => exact h.delete hfenced hstep
  | startBackgroundTasks =>
    cases hstep
    refine ⟨snap, kept, torn, ?_⟩
    unfold Db.startBackgroundTasks
    split
    · rename_i hon
      refine ⟨h.ok, h.mode, fun _ => hon.2, fun hs => ?_, h.cut, h.ends, fun hs => ?_, h.file,
        h.queue, h.flags, h.fits, h.restores, h.sure⟩
      · exact absurd hs (Bool.eq_false_iff.mp hfenced)
      · cases hs
    · exact h
  | writerLoop count io =>
    cases hstep
    obtain ⟨kept', hkept⟩ := h.drained hfenced
    exact ⟨snap, kept', torn, hkept⟩

variable {ops : List LogOp} {s' : Session}

/-- **In every run of fenced steps** the log is in order, up to its strays. -/
theorem Session.Holds.run (h : s.Holds snap kept torn)
    (hrun : Session.Runs s ops s') : ∃ snap' kept' torn', s'.Holds snap' kept' torn' := by
  induction hrun generalizing snap kept torn with
  | nil => exact ⟨snap, kept, torn, h⟩
  | cons hfenced hstep _ ih =>
    obtain ⟨snap₁, kept₁, torn₁, h₁⟩ := h.step hfenced hstep
    exact ih h₁

/-- A store that was opened on whole records. -/
theorem Session.Holds.opened {config : Config} {sst : Bytes → Option Bool} {opening : Db.OpenEnv}
    {walFile : Bytes} {snapshotFile : Option Bytes} {db : Db}
    (hmode : config.persistence = .full) (henc : encodeLog records = some walFile)
    (hflags : ∀ r ∈ records, r.KnownFlags)
    (hopen : Db.openFiles config sst opening walFile snapshotFile = .ok db) :
    ∃ snap, (Session.opened db).Holds snap records [] := by
  obtain ⟨st, hrecov, htracks, hfits⟩ := Tracks.ofFiles hmode henc hflags hopen
  obtain ⟨s₀, s', -, -, -, -, rfl⟩ := openFiles_full_phases hmode hopen
  refine ⟨st.snap, htracks.ok, hmode, fun hs => absurd hs Bool.false_ne_true,
    fun hs => absurd hs Bool.false_ne_true, fun hx => absurd rfl hx, rfl, fun _ => rfl,
    ⟨walFile, henc, (append_nil _).symm⟩, .nil, ?_, ?_, htracks.snap, ?_⟩
  · rwa [Session.opened, append_nil]
  · rwa [Session.opened, append_nil]
  · have hsure := Sure.of_recoverable hrecov
    rw [Session.opened, append_nil, htracks.log]
    show Sure Content.isWorm ⟨s'.view, st.snap, st.log⟩ []
    rw [show s'.view = st.live from htracks.live]
    exact hsure

/-! ## What is acknowledged is recovered -/

/-- An acknowledged call settles its key. -/
theorem LogOp.Acknowledges.settled (hack : op.Acknowledges s.db key)
    (hfenced : s.Fenced op) (hstep : op.step s = some s₁) : Settled s₁.stray key := by
  have hcalled : ∀ r result, result.1 = .ok () → s.called key r result = some s₁ →
      Settled s₁.stray key := by
    rintro r ⟨f | u, db'⟩ hok hs
    · cases hok
    · cases hs
      show Settled (if _ then _ else _) key
      split
      · exact forall_mem_nil _
      · exact settled_settle _ _
  cases op with
  | set env key' value isWorm timestamp =>
    obtain ⟨rfl, hok⟩ := hack
    exact hcalled _ _ hok hstep
  | delete env key' =>
    obtain ⟨rfl, hok⟩ := hack
    cases hat : s.db.store.entryAt key' with
    | none =>
      simp only [Session.Fenced, hat] at hfenced
      simp only [LogOp.step, hat] at hstep
      obtain ⟨db', -, rfl⟩ := Option.map_eq_some_iff.mp hstep
      exact hfenced
    | some e =>
      simp only [LogOp.step, hat] at hstep
      exact hcalled _ _ hok hstep
  | startBackgroundTasks | writerLoop => exact hack.elim

/-- A call whose writes do not fail adds no stray. -/
theorem Session.called_settled {result : Except Fault Unit × Db} (hio : env.io = .done)
    (hlog : ∀ f db', result = (.error f, db') → f ≠ .trap →
      Db.LeftLog s.db db' env.io (Wal.serializeRecord r))
    {key' : Bytes} (hstep : s.called key' r result = some s₁) (h : Settled s.stray key) :
    Settled s₁.stray key := by
  obtain ⟨(e | _) | u, db'⟩ := result
  · cases hstep
    have hfile : db'.walFile = s.db.walFile := by
      cases hlog _ db' rfl Fault.noConfusion with
      | none heq => rw [heq]
      | part _ _ hfailed =>
        cases hio.symm.trans hfailed
    rw [Session.refused_stray hfile]
    exact h
  · cases hstep
  · cases hstep
    show Settled (if _ then _ else _) key
    split
    · exact forall_mem_nil _
    · exact h.settle _

/-- A step without a failed write leaves a settled key settled. -/
theorem LogOp.Calm.settled (hcalm : op.Calm) (h : s.Holds snap kept torn)
    (hstep : op.step s = some s₁) (hkey : Settled s.stray key) : Settled s₁.stray key := by
  cases op with
  | set env key' value isWorm timestamp =>
    refine Session.called_settled hcalm (fun f db' hresult hf => ?_) hstep hkey
    have hlog := Db.set_log h.ok h.mode env key' value isWorm timestamp
    rw [hresult] at hlog
    exact hlog hf
  | delete env key' =>
    cases hat : s.db.store.entryAt key' with
    | none =>
      simp only [LogOp.step, hat] at hstep
      obtain ⟨db', -, rfl⟩ := Option.map_eq_some_iff.mp hstep
      exact hkey
    | some e =>
      simp only [LogOp.step, hat] at hstep
      refine Session.called_settled hcalm (fun f db' hresult hf => ?_) hstep hkey
      have hlog := Db.delete_log h.mode env hat
      rw [hresult] at hlog
      exact hlog hf
  | startBackgroundTasks =>
    cases hstep
    exact hkey
  | writerLoop count io =>
    cases hstep
    obtain rfl : io = .done := hcalm
    have hnone : (s.queued.take (s.batch count).length).drop (s.batch count).length = [] :=
      drop_eq_nil_of_le (length_take_le _ _)
    show Settled (s.stray ++ writesOf ((s.queued.take _).drop (s.batch count).length)) key
    rw [hnone]
    exact settled_append.mpr ⟨hkey, forall_mem_nil _⟩

theorem Session.Runs.settled (hrun : Session.Runs s ops s')
    (hcalm : ∀ op ∈ ops, op.Calm) (h : s.Holds snap kept torn) (hkey : Settled s.stray key) :
    Settled s'.stray key := by
  induction hrun generalizing snap kept torn with
  | nil => exact hkey
  | cons hfenced hstep _ ih =>
    obtain ⟨hop, hops⟩ := forall_mem_cons.mp hcalm
    obtain ⟨snap₁, kept₁, torn₁, h₁⟩ := h.step hfenced hstep
    exact ih hops h₁ (hop.settled h hstep hkey)

end

/-- **Failed log writes.**  In a run of fenced steps from an open on whole records,
whatever writes failed before: after an acknowledged call, and any steps without a
failure, a restart gives the key its live value. -/
theorem fence_recovers {config : Config} {sst : Bytes → Option Bool} {opening : Db.OpenEnv}
    {walFile : Bytes} {snapshotFile : Option Bytes} {records : List WalRecord} {db : Db}
    (hmode : config.persistence = .full) (henc : encodeLog records = some walFile)
    (hflags : ∀ r ∈ records, r.KnownFlags)
    (hopen : Db.openFiles config sst opening walFile snapshotFile = .ok db)
    {before after : List LogOp} {op : LogOp} {key : Bytes} {s s' : Session}
    (hbefore : Session.Runs (Session.opened db) before s) (hack : op.Acknowledges s.db key)
    (hafter : Session.Runs s (op :: after) s') (hcalm : ∀ op ∈ after, op.Calm) (closing : Env) :
    ∃ db', (Op.reopen closing .ample).step s'.db = some db' ∧
      db'.store.view key = s'.db.store.view key := by
  obtain ⟨snap₀, h₀⟩ := Session.Holds.opened hmode henc hflags hopen
  obtain ⟨snap, kept, torn, h⟩ := h₀.run hbefore
  obtain ⟨snap', kept', torn', h'⟩ := h.run hafter
  obtain ⟨db', hstep, hview⟩ := h'.reopens closing
  refine ⟨db', hstep, ?_⟩
  have hsettled : Settled s'.stray key := by
    cases hafter with
    | cons hfenced hop hrest =>
      obtain ⟨snap₁, kept₁, torn₁, h₁⟩ := h.step hfenced hop
      exact hrest.settled hcalm h₁ (hack.settled hfenced hop)
  rw [hview]
  exact h'.sure.agree key hsettled

/-- A call whose write to the log fails after that many bytes. -/
def Env.failing (written : Nat) : Env := { Env.calm with io := .failed written }

/-- A lost batch of the writer, between two records, and a later write. -/
theorem fence_recovers_after_lost_batch :
    ∃ s s' db', Session.Runs
        (Session.opened (Db.opened ⟨.full, true, 0⟩ [] none (Store.init fun _ => none)))
        [.startBackgroundTasks, .set .calm [1] [2] false 7, .writerLoop 1 (.failed 0)] s ∧
      Session.Runs s [.set .calm [3] [4] false 8, .writerLoop 1 .done] s' ∧
      (Op.reopen .calm .ample).step s'.db = some db' ∧
        db'.store.view [3] = s'.db.store.view [3] := by
  generalize hdb : Db.opened ⟨.full, true, 0⟩ [] none (Store.init fun _ => none) = db
  have hbefore : ((Session.opened db).fencedRun
      [.startBackgroundTasks, .set .calm [1] [2] false 7, .writerLoop 1 (.failed 0)]).any
      (fun s => decide (LogOp.Acknowledges s.db [3] (.set .calm [3] [4] false 8)) &&
        (s.fencedRun [.set .calm [3] [4] false 8, .writerLoop 1 .done]).isSome) = true := by
    rw [← hdb]
    decide +kernel
  obtain ⟨s, hs, hrest⟩ := (Option.any_eq_true ..).mp hbefore
  obtain ⟨hack, hafter⟩ := Bool.and_eq_true_iff.mp hrest
  obtain ⟨s', hs'⟩ := Option.isSome_iff_exists.mp hafter
  have hopen : Db.openFiles ⟨.full, true, 0⟩ (fun _ => none) .ample [] none = .ok db := by
    rw [← hdb]
    rfl
  obtain ⟨db', hreopen, hview⟩ := fence_recovers rfl encodeLog_nil (forall_mem_nil _) hopen
    (.of_fencedRun hs) (of_decide_eq_true hack) (.of_fencedRun hs')
    (forall_mem_singleton.mpr rfl) .calm
  exact ⟨s, s', db', .of_fencedRun hs, .of_fencedRun hs', hreopen, hview⟩

/-- A call is acknowledged after a failed write, nothing fails after it, and a restart
does not give its key the live value. -/
def LosesAcknowledged (config : Config) (before : List LogOp) (op : LogOp) (after : List LogOp)
    (key : Bytes) : Prop :=
  ∃ db s s' db', Db.openFiles config (fun _ => none) .ample [] none = .ok db ∧
    LogOp.run (Session.opened db) before = some s ∧ op.Acknowledges s.db key ∧
    LogOp.run s (op :: after) = some s' ∧ (∀ op ∈ after, op.Calm) ∧
    (Op.reopen .calm .ample).step s'.db = some db' ∧ db'.store.view key ≠ s'.db.store.view key

theorem LosesAcknowledged.of_eval {config : Config} {before after : List LogOp} {op : LogOp}
    {key : Bytes} (hcalm : ∀ op ∈ after, op.Calm)
    (h : (do
      let db ← (Db.openFiles config (fun _ => none) .ample [] none).toOption
      let s ← LogOp.run (Session.opened db) before
      let s' ← LogOp.run s (op :: after)
      let db' ← (Op.reopen .calm .ample).step s'.db
      pure (decide (op.Acknowledges s.db key) &&
        decide (db'.store.view key ≠ s'.db.store.view key))) = some true) :
    LosesAcknowledged config before op after key := by
  obtain ⟨db, hdb, h⟩ := Option.bind_eq_some_iff.mp h
  obtain ⟨s, hs, h⟩ := Option.bind_eq_some_iff.mp h
  obtain ⟨s', hs', h⟩ := Option.bind_eq_some_iff.mp h
  obtain ⟨db', hdb', h⟩ := Option.bind_eq_some_iff.mp h
  obtain ⟨hack, hlost⟩ := Bool.and_eq_true_iff.mp (Option.some.inj h)
  refine ⟨db, s, s', db', ?_, hs, of_decide_eq_true hack, hs', hcalm, hdb', of_decide_eq_true hlost⟩
  cases hopen : Db.openFiles config (fun _ => none) .ample [] none with
  | error f =>
    rw [hopen] at hdb
    cases hdb
  | ok db₁ =>
    rw [hopen] at hdb
    rw [Option.some.inj hdb]

/-- **Acknowledged writes behind a torn record are lost**: without `sync_writes`, in the
background writer, and when the writer starts on a log that was fenced off. -/
theorem torn_write_loses_acknowledged :
    LosesAcknowledged ⟨.full, false, 0⟩
        [.set (.failing 20) [1] (replicate 40 0) false 7] (.set .calm [3] [4] false 8) [] [3] ∧
      LosesAcknowledged ⟨.full, true, 0⟩
        [.startBackgroundTasks, .set .calm [1] (replicate 40 0) false 7,
          .writerLoop 1 (.failed 20)]
        (.set .calm [3] [4] false 8) [.writerLoop 1 .done] [3] ∧
      LosesAcknowledged ⟨.full, true, 0⟩
        [.set (.failing 20) [1] (replicate 40 0) false 7, .startBackgroundTasks]
        (.set .calm [3] [4] false 8) [.writerLoop 1 .done] [3] :=
  ⟨.of_eval (forall_mem_nil _) (by decide +kernel),
    .of_eval (forall_mem_singleton.mpr rfl) (by decide +kernel),
    .of_eval (forall_mem_singleton.mpr rfl) (by decide +kernel)⟩

end WormDB
