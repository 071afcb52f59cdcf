import WormDB.Snapshot

/-! # The store with its files

A `Db` is a running store together with the two files it persists to.  Writes in
`.full` mode go to the log before they become visible: straight to the file, or
into the queue of the background writer once that was started.  `open`, `save`
and `close` move the live entries between memory and files.

Every call takes an `Env`: which allocations succeed and how its file operations
end.  The vector registry is absent; the shadow keys it would write are ordinary
`set` and `delete` calls. -/
namespace WormDB
open ByteCodec

structure Db where
  config : Config
  store : Store
  walFile : Bytes
  walQueue : List Bytes
  writerStarted : Bool
  walBytes : Nat
  syncFailed : Bool
  snapshotFile : Option Bytes

/-- How appending a record to the log file ends: done, or failed with a part of
the record written (all of it, when the sync fails). -/
inductive WalIo where
  | done
  | failed (written : Nat)

/-- What a call meets: its allocator, its append to the log, and whether writing
a snapshot and truncating the log succeed. -/
structure Env where
  alloc : AllocSite → Bool
  io : WalIo
  snapshot : Bool
  truncate : Bool

namespace Db

/-! ## The log -/

def writeDirect (db : Db) (io : WalIo) (record : Bytes) : Except Fault Unit × Db :=
  if db.syncFailed then (.error (.error .ioError), db)
  else
    match io with
    | .done => (.ok (), { db with
        walFile := db.walFile ++ record, walBytes := db.walBytes + record.length })
    | .failed written => (.error (.error .ioError), { db with
        walFile := db.walFile ++ record.take written, syncFailed := db.config.syncWrites })

def commitSerializedRecord (db : Db) (io : WalIo) (record : Bytes) : Except Fault Unit × Db :=
  if db.writerStarted then
    (.ok (), { db with
      walQueue := db.walQueue ++ [record], walBytes := db.walBytes + record.length })
  else db.writeDirect io record

/-- The background writer moves the oldest queued record to the file. -/
def drain (db : Db) : Db :=
  match db.walQueue with
  | [] => db
  | record :: rest => { db with walFile := db.walFile ++ record, walQueue := rest }

def startBackgroundTasks (db : Db) : Db :=
  if db.config.persistence = .full ∧ db.config.syncWrites then { db with writerStarted := true }
  else db

/-! ## Snapshots -/

/-- The new file replaces the old one in one step; a failed write leaves it. -/
def writeSnapshot (db : Db) (env : Env) : Except Fault Db :=
  match db.store.encodeSnapshot with
  | none => .error .trap
  | some bytes =>
      if env.snapshot then .ok { db with snapshotFile := some bytes }
      else .error (.error .ioError)

def save (db : Db) (env : Env) : Except Fault Db :=
  if db.config.persistence = .none then .ok db else db.writeSnapshot env

/-- The caller ignores errors; only a trap ends it. -/
def maybeSnapshotAndTruncate (db : Db) (env : Env) : Except Fault Db :=
  if db.config.syncWrites then .ok db
  else if db.config.maxWalSize = 0 then .ok db
  else if db.walBytes < db.config.maxWalSize then .ok db
  else
    match db.writeSnapshot env with
    | .error .trap => .error .trap
    | .error (.error _) => .ok db
    | .ok db' =>
        if env.truncate then .ok { db' with walFile := [], walBytes := 0 } else .ok db'

/-! ## Writes -/

/-- The end of a logged write: compaction when it is due. -/
def compactAfter (db : Db) (env : Env) : Except Fault Unit × Db :=
  match db.maybeSnapshotAndTruncate env with
  | .error f => (.error f, db)
  | .ok db' => (.ok (), db')

def setWithTimestampNoVectorSync (db : Db) (env : Env) (key value : Bytes) (isWorm : Bool)
    (timestamp : UInt64) : Except Fault Unit × Db :=
  let si := shardIndex key
  if db.config.persistence = .full then
    if !env.alloc .record then (.error (.error .outOfMemory), db)
    else
      match Wal.serializeSetRecord key value (.written isWorm) timestamp with
      | none => (.error .trap, db)
      | some record =>
          if db.store.wormBlocked key then (.error (.error .wormViolation), db)
          else
            match db.store.prepareUpsertLocked env.alloc si (db.store.get key) key value isWorm
                timestamp with
            | .error f => (.error f, db)
            | .ok (prepared, s) =>
                match db.commitSerializedRecord env.io record with
                | (.error _, db') =>
                    (.error (.error .ioError), { db' with store := s.abortPreparedUpsert prepared })
                | (.ok (), db') =>
                    match s.commitPreparedUpsertLocked si prepared value isWorm timestamp with
                    | .error f => (.error f, db')
                    | .ok s' =>
                        let db'' := { db' with store := s' }
                        if db.writerStarted then (.ok (), db'') else db''.compactAfter env
  else
    if db.store.wormBlocked key then (.error (.error .wormViolation), db)
    else
      match db.store.upsertShardLocked env.alloc si (db.store.get key) key value isWorm
          timestamp with
      | .error f => (.error f, db)
      | .ok s => (.ok (), { db with store := s })

/-- `set` is this with the wall clock as the timestamp. -/
def setWithTimestamp (db : Db) (env : Env) (key value : Bytes) (isWorm : Bool)
    (timestamp : UInt64) : Except Fault Unit × Db :=
  db.setWithTimestampNoVectorSync env key value isWorm timestamp

def appendDelete (db : Db) (env : Env) (key : Bytes) : Except Fault Unit × Db :=
  if !env.alloc .record then (.error (.error .ioError), db)
  else
    match Wal.serializeDeleteRecord key with
    | none => (.error .trap, db)
    | some record =>
        match db.commitSerializedRecord env.io record with
        | (.error _, db') => (.error (.error .ioError), db')
        | (.ok (), db') => (.ok (), db')

def delete (db : Db) (env : Env) (key : Bytes) : Except Fault Unit × Db :=
  match (db.store.get key).bind db.store.mem with
  | none => (.ok (), db)
  | some existing =>
      if existing.flags.isWorm then (.error (.error .wormViolation), db)
      else if db.config.persistence = .full then
        match db.appendDelete env key with
        | (.error f, db') => (.error f, db')
        | (.ok (), db') =>
            { db' with store := db'.store.shardDropLocked (shardIndex key) key }.compactAfter env
      else (.ok (), { db with store := db.store.shardDropLocked (shardIndex key) key })

def setUnsafe (db : Db) (alloc : AllocSite → Bool) (key value : Bytes) (isWorm : Bool)
    (now : UInt64) : Except Fault Unit × Db :=
  match db.store.setUnsafe alloc key value isWorm now with
  | .error f => (.error f, db)
  | .ok s => (.ok (), { db with store := s })

def deleteUnsafe (db : Db) (key : Bytes) : Db :=
  { db with store := db.store.deleteUnsafe key }

/-! ## Opening and closing -/

/-- The allocators of the two phases of `initWithRegistry`. -/
structure OpenEnv where
  load : Nat → AllocSite → Bool
  replay : Nat → AllocSite → Bool

/-- `initWithRegistry` on the files as they are; `sst` are the segments mounted
on the new store. -/
def openFiles (config : Config) (sst : Bytes → Option Bool) (env : OpenEnv) (walFile : Bytes)
    (snapshotFile : Option Bytes) : Except Fault Db :=
  let opened (store : Store) : Db :=
    ⟨config, store, walFile, [], false, walFile.length, false, snapshotFile⟩
  match config.persistence with
  | .none => .ok (opened (Store.init sst))
  | .snapshot =>
      match Store.loadSnapshot env.load snapshotFile (Store.init sst) with
      | (.error f, _) => .error f
      | (.ok (), s) => .ok (opened s)
  | .full =>
      match Store.loadSnapshot env.load snapshotFile (Store.init sst) with
      | (.error f, _) => .error f
      | (.ok (), s) =>
          match Store.replayWal env.replay walFile s with
          | (.error f, _) => .error f
          | (.ok (), s') => .ok (opened s')

/-- `deinit`: the files it leaves.  In `.snapshot` mode the entries are saved, and
a failed save is only logged; the background writer finishes its queue. -/
def close (db : Db) (env : Env) : Except Fault (Bytes × Option Bytes) :=
  let wal := db.walFile ++ db.walQueue.flatten
  if db.config.persistence = .snapshot then
    match db.writeSnapshot env with
    | .error .trap => .error .trap
    | .error (.error _) => .ok (wal, db.snapshotFile)
    | .ok db' => .ok (wal, db'.snapshotFile)
  else .ok (wal, db.snapshotFile)

end Db

/-! ## What a write does -/

namespace Db

/-- The log with one more record. -/
def logged (db : Db) (record : Bytes) : Db :=
  if db.writerStarted then
    { db with walQueue := db.walQueue ++ [record], walBytes := db.walBytes + record.length }
  else { db with walFile := db.walFile ++ record, walBytes := db.walBytes + record.length }

theorem logged_store (db : Db) (record : Bytes) : (db.logged record).store = db.store := by
  unfold logged
  split <;> rfl

theorem logged_config (db : Db) (record : Bytes) : (db.logged record).config = db.config := by
  unfold logged
  split <;> rfl

/-- Everything but the log file and its failure mark is as before. -/
structure SameButLog (db db' : Db) : Prop where
  store : db'.store = db.store
  config : db'.config = db.config
  snapshotFile : db'.snapshotFile = db.snapshotFile

theorem commitSerializedRecord_spec (db : Db) (io : WalIo) (record : Bytes) :
    match db.commitSerializedRecord io record with
    | (.ok (), db') => db' = db.logged record
    | (.error f, db') => f = .error .ioError ∧ SameButLog db db' ∧ (io = .done → db' = db) := by
  unfold commitSerializedRecord logged
  by_cases hstarted : db.writerStarted = true
  · simp only [if_pos hstarted]
  · simp only [if_neg hstarted]
    unfold writeDirect
    by_cases hfailed : db.syncFailed = true
    · simp only [if_pos hfailed]
      exact ⟨trivial, ⟨rfl, rfl, rfl⟩, fun _ => trivial⟩
    · simp only [if_neg hfailed]
      cases io with
      | done => rfl
      | failed written => exact ⟨rfl, ⟨rfl, rfl, rfl⟩, nofun⟩

/-- The state right after a logged write: its record in the log, its entry (or
none) under the key. -/
structure Wrote (db db' : Db) (key : Bytes) (e : Option Entry) (record : Bytes) : Prop where
  updates : Updates db.store db'.store key e
  eq : db' = { db.logged record with store := db'.store }

/-- A write that was acknowledged. -/
inductive Acked (db : Db) (env : Env) (key : Bytes) (e : Option Entry) (record : Option Bytes) :
    Db → Prop where
  | memory {db' : Db} (hmode : db.config.persistence ≠ .full)
      (hupd : Updates db.store db'.store key e) (heq : db' = { db with store := db'.store }) :
      Acked db env key e record db'
  | queued {db' : Db} {bytes : Bytes} (hmode : db.config.persistence = .full)
      (hstarted : db.writerStarted = true) (hrecord : record = some bytes)
      (hwrote : Wrote db db' key e bytes) : Acked db env key e record db'
  | direct {db' db'' : Db} {bytes : Bytes} (hmode : db.config.persistence = .full)
      (hrecord : record = some bytes) (hwrote : Wrote db db' key e bytes)
      (hcompact : db'.maybeSnapshotAndTruncate env = .ok db'') : Acked db env key e record db''

variable {db db' : Db} {env : Env}

theorem writeSnapshot_ok (h : db.writeSnapshot env = .ok db') :
    ∃ bytes, db.store.encodeSnapshot = some bytes ∧
      db' = { db with snapshotFile := some bytes } := by
  unfold writeSnapshot at h
  cases hbytes : db.store.encodeSnapshot with
  | none =>
    rw [hbytes] at h
    cases h
  | some bytes =>
    rw [hbytes] at h
    by_cases hio : env.snapshot = true
    · simp only [if_pos hio] at h
      exact ⟨bytes, rfl, (Except.ok.inj h).symm⟩
    · simp only [if_neg hio] at h
      cases h

theorem writeSnapshot_error {e : StoreError}
    (h : db.writeSnapshot env = .error (.error e)) : env.snapshot = false := by
  unfold writeSnapshot at h
  cases hbytes : db.store.encodeSnapshot with
  | none =>
    rw [hbytes] at h
    cases h
  | some bytes =>
    rw [hbytes] at h
    by_cases hio : env.snapshot = true
    · simp only [if_pos hio] at h
      cases h
    · exact Bool.eq_false_iff.mpr hio

/-- In `.full` mode a shutdown leaves the whole log and the last snapshot. -/
theorem close_full (hmode : db.config.persistence = .full) (closing : Env) :
    db.close closing = .ok (db.walFile ++ db.walQueue.flatten, db.snapshotFile) := by
  rw [close, hmode, if_neg (by decide)]

/-- In `.snapshot` mode, a shutdown whose save succeeds. -/
theorem close_snapshot {closing : Env} {files : Bytes × Option Bytes}
    (hmode : db.config.persistence = .snapshot) (hwritten : closing.snapshot = true)
    (h : db.close closing = .ok files) : ∃ bytes, db.store.encodeSnapshot = some bytes ∧
      files = (db.walFile ++ db.walQueue.flatten, some bytes) := by
  simp only [close, if_pos hmode] at h
  generalize hsnap : db.writeSnapshot closing = result at h
  obtain (e | _) | db' := result
  · rw [writeSnapshot_error hsnap] at hwritten
    cases hwritten
  · cases h
  · obtain ⟨bytes, hbytes, rfl⟩ := writeSnapshot_ok hsnap
    exact ⟨bytes, hbytes, (Except.ok.inj h).symm⟩

/-- Compaction leaves everything alone, or saves the entries and then empties the
log or not. -/
theorem maybeSnapshotAndTruncate_cases
    (h : db.maybeSnapshotAndTruncate env = .ok db') :
    db' = db ∨ db.config.syncWrites = false ∧ ∃ bytes, db.store.encodeSnapshot = some bytes ∧
      (db' = { db with snapshotFile := some bytes } ∨
        db' = { db with snapshotFile := some bytes, walFile := [], walBytes := 0 }) := by
  unfold maybeSnapshotAndTruncate at h
  cases hsync : db.config.syncWrites with
  | true =>
    simp only [hsync, if_true] at h
    exact .inl (Except.ok.inj h).symm
  | false =>
    simp only [hsync, Bool.false_eq_true, if_false] at h
    by_cases hmax : db.config.maxWalSize = 0
    · simp only [if_pos hmax] at h
      exact .inl (Except.ok.inj h).symm
    · simp only [if_neg hmax] at h
      by_cases hsize : db.walBytes < db.config.maxWalSize
      · simp only [if_pos hsize] at h
        exact .inl (Except.ok.inj h).symm
      · simp only [if_neg hsize] at h
        generalize hsnap : db.writeSnapshot env = result at h
        obtain (e | _) | db₁ := result
        · exact .inl (Except.ok.inj h).symm
        · cases h
        · obtain ⟨bytes, hbytes, rfl⟩ := writeSnapshot_ok hsnap
          refine .inr ⟨rfl, bytes, hbytes, ?_⟩
          simp only [] at h
          cases htrunc : env.truncate with
          | true =>
            simp only [htrunc, if_true] at h
            exact .inr (Except.ok.inj h).symm
          | false =>
            simp only [htrunc, Bool.false_eq_true, if_false] at h
            exact .inl (Except.ok.inj h).symm

/-- Compaction ends in a trap or not at all. -/
theorem maybeSnapshotAndTruncate_error {f : Fault}
    (h : db.maybeSnapshotAndTruncate env = .error f) : f = .trap := by
  unfold maybeSnapshotAndTruncate at h
  generalize db.writeSnapshot env = result at h
  split at h
  · cases h
  split at h
  · cases h
  split at h
  · cases h
  obtain (e | _) | db₁ := result
  · cases h
  · exact (Except.error.inj h).symm
  · simp only [] at h
    split at h <;> cases h

theorem maybeSnapshotAndTruncate_store
    (h : db.maybeSnapshotAndTruncate env = .ok db') : db'.store = db.store := by
  rcases maybeSnapshotAndTruncate_cases h with rfl | ⟨-, bytes, -, rfl | rfl⟩ <;> rfl

theorem Acked.ok {db db' : Db} {env : Env} {key : Bytes} {e : Option Entry}
    {record : Option Bytes} (h : Acked db env key e record db') :
    Updates db.store db'.store key e := by
  cases h with
  | memory _ hupd _ => exact hupd
  | queued _ _ _ hwrote => exact hwrote.updates
  | direct _ _ hwrote hcompact =>
    rw [maybeSnapshotAndTruncate_store hcompact]
    exact hwrote.updates

/-- A call that failed: it changed no entry, unless it trapped. -/
structure Refused (db db' : Db) (env : Env) (f : Fault) : Prop where
  ok : StoreOk db'.store
  keeps : f ≠ .trap → Keeps db.store db'.store
  config : db'.config = db.config
  files : f ≠ .trap → env.io = .done → db' = { db with store := db'.store }

/-- **`setWithTimestamp`**: acknowledged with its entry in place and its record in
the log, or refused. -/
theorem set_cases (h : StoreOk db.store) (env : Env) (key value : Bytes) (isWorm : Bool)
    (timestamp : UInt64) :
    match db.setWithTimestamp env key value isWorm timestamp with
    | (.ok (), db') => db.store.wormBlocked key = false ∧
        Acked db env key (some ⟨key, value, timestamp, .written isWorm⟩)
          (Wal.serializeSetRecord key value (.written isWorm) timestamp) db'
    | (.error f, db') => Refused db db' env f := by
  -- a refusal in front of the log leaves all as it was
  have hrefuse : ∀ f, Refused db db env f := fun f =>
    ⟨h, fun _ => Keeps.refl h, rfl, fun _ _ => rfl⟩
  unfold setWithTimestamp setWithTimestampNoVectorSync
  by_cases hmode : db.config.persistence = .full
  · simp only [if_pos hmode]
    cases env.alloc .record with
    | false => exact hrefuse _
    | true =>
      simp only [Bool.not_true, Bool.false_eq_true, if_false]
      cases hser : Wal.serializeSetRecord key value (.written isWorm) timestamp with
      | none => exact hrefuse _
      | some record =>
        simp only []
        cases hworm : db.store.wormBlocked key with
        | true => exact hrefuse _
        | false =>
          -- the entry is prepared before its record goes to the log
          have hprep := h.prepare env.alloc key value isWorm timestamp
          simp only [Bool.false_eq_true, if_false]
          generalize db.store.prepareUpsertLocked env.alloc (shardIndex key) (db.store.get key) key
            value isWorm timestamp = result at hprep ⊢
          obtain f | ⟨prepared, s⟩ := result
          · exact hrefuse f
          · obtain ⟨⟨s', hcommit, hupd⟩, habort⟩ := hprep
            have hlog := db.commitSerializedRecord_spec env.io record
            simp only []
            generalize db.commitSerializedRecord env.io record = result at hlog ⊢
            obtain ⟨f | u, db'⟩ := result
            · obtain ⟨-, hsame, hdone⟩ := hlog
              -- the log refuses, and the prepared entry is given back
              exact ⟨habort.ok, fun _ => habort, hsame.config, fun _ hio => by rw [hdone hio]⟩
            · simp only [hcommit]
              -- the log has the record, and the commit cannot fail
              obtain rfl : db' = db.logged record := hlog
              have hwrote : Wrote db { db.logged record with store := s' } key
                (some ⟨key, value, timestamp, .written isWorm⟩) record := ⟨hupd, rfl⟩
              cases hstarted : db.writerStarted with
              | true => exact ⟨trivial, .queued hmode hstarted rfl hwrote⟩
              | false =>
                simp only [Bool.false_eq_true, if_false]
                unfold compactAfter
                cases hcompact : maybeSnapshotAndTruncate { db.logged record with store := s' }
                  env with
                | error f =>
                  obtain rfl := maybeSnapshotAndTruncate_error hcompact
                  exact ⟨hupd.ok, fun hf => absurd rfl hf, logged_config db record,
                    fun hf => absurd rfl hf⟩
                | ok db'' => exact ⟨trivial, .direct hmode rfl hwrote hcompact⟩
  · simp only [if_neg hmode]
    -- without a log a write is a change in memory
    cases hworm : db.store.wormBlocked key with
    | true => exact hrefuse _
    | false =>
      have hup := h.upsert env.alloc key value isWorm timestamp
      simp only [Bool.false_eq_true, if_false]
      generalize db.store.upsertShardLocked env.alloc (shardIndex key) (db.store.get key) key value
        isWorm timestamp = result at hup ⊢
      obtain f | s' := result
      · exact hrefuse f
      · exact ⟨trivial, .memory hmode hup rfl⟩

/-- Compaction that is switched off. -/
theorem maybeSnapshotAndTruncate_idle (env : Env)
    (h : db.config.syncWrites = true ∨ db.config.maxWalSize = 0) :
    db.maybeSnapshotAndTruncate env = .ok db := by
  unfold maybeSnapshotAndTruncate
  rcases h with h | h
  · rw [if_pos h]
  · rw [if_pos h]
    split <;> rfl

/-- **A write that nothing stands against is acknowledged.** -/
theorem set_acknowledges (h : StoreOk db.store) {key value : Bytes}
    {isWorm : Bool} {timestamp : UInt64} {record : Bytes}
    (hmode : db.config.persistence = .full) (halloc : ∀ site, env.alloc site = true)
    (hio : env.io = .done) (hsync : db.syncFailed = false)
    (hworm : db.store.wormBlocked key = false)
    (hser : Wal.serializeSetRecord key value (.written isWorm) timestamp = some record)
    (hidle : db.config.syncWrites = true ∨ db.config.maxWalSize = 0) :
    ∃ db', db.setWithTimestamp env key value isWorm timestamp = (.ok (), db') ∧
      Wrote db db' key (some ⟨key, value, timestamp, .written isWorm⟩) record := by
  have hprep := h.prepare env.alloc key value isWorm timestamp
  obtain ⟨⟨prepared, s⟩, hp⟩ := prepareUpsertLocked_ok (s := db.store) halloc (shardIndex key)
    (db.store.get key) key value isWorm timestamp
  rw [hp] at hprep
  obtain ⟨⟨s', hcommit, hupd⟩, -⟩ := hprep
  have hlog : db.commitSerializedRecord env.io record = (.ok (), db.logged record) := by
    unfold commitSerializedRecord logged
    by_cases hstarted : db.writerStarted = true
    · simp only [if_pos hstarted]
    · simp only [if_neg hstarted, writeDirect, hsync, hio, Bool.false_eq_true, if_false]
  have hidle' : ({ db.logged record with store := s' } : Db).config.syncWrites = true ∨
      ({ db.logged record with store := s' } : Db).config.maxWalSize = 0 := by
    show (db.logged record).config.syncWrites = true ∨ (db.logged record).config.maxWalSize = 0
    rw [logged_config]
    exact hidle
  refine ⟨{ db.logged record with store := s' }, ?_, hupd, rfl⟩
  unfold setWithTimestamp setWithTimestampNoVectorSync
  simp only [if_pos hmode, halloc, Bool.not_true, hser, hworm, Bool.false_eq_true, if_false, hp,
    hlog, hcommit, compactAfter, maybeSnapshotAndTruncate_idle env hidle', ite_self]

theorem appendDelete_spec (db : Db) (env : Env) (key : Bytes) :
    match db.appendDelete env key with
    | (.ok (), db') => ∃ record, Wal.serializeDeleteRecord key = some record ∧
        db' = db.logged record
    | (.error _, db') => SameButLog db db' ∧ (env.io = .done → db' = db) := by
  unfold appendDelete
  cases env.alloc .record with
  | false => exact ⟨⟨rfl, rfl, rfl⟩, fun _ => rfl⟩
  | true =>
    simp only [Bool.not_true, Bool.false_eq_true, if_false]
    cases Wal.serializeDeleteRecord key with
    | none => exact ⟨⟨rfl, rfl, rfl⟩, fun _ => rfl⟩
    | some record =>
      have hlog := db.commitSerializedRecord_spec env.io record
      simp only []
      generalize db.commitSerializedRecord env.io record = result at hlog ⊢
      obtain ⟨f | u, db'⟩ := result
      · exact hlog.2
      · exact ⟨record, rfl, hlog⟩

/-- **`delete`**: nothing to do, acknowledged with its record in the log, or
refused. -/
theorem delete_cases (h : StoreOk db.store) (env : Env) (key : Bytes) :
    match db.delete env key with
    | (.ok (), db') => (db.store.entryAt key = none ∧ db' = db) ∨
        ∃ e, db.store.entryAt key = some e ∧ e.flags.isWorm = false ∧
          Acked db env key none (Wal.serializeDeleteRecord key) db'
    | (.error f, db') => Refused db db' env f := by
  unfold delete
  show match (match db.store.entryAt key with
    | none => (.ok (), db)
    | some existing => _ : Except Fault Unit × Db) with
    | (.ok (), db') => _
    | (.error f, db') => Refused db db' env f
  cases hat : db.store.entryAt key with
  | none => exact .inl ⟨rfl, rfl⟩
  | some e =>
    simp only []
    cases hworm : e.flags.isWorm with
    | true => exact ⟨h, fun _ => Keeps.refl h, rfl, fun _ _ => rfl⟩
    | false =>
      simp only [Bool.false_eq_true, if_false]
      by_cases hmode : db.config.persistence = .full
      · have hlog := db.appendDelete_spec env key
        simp only [if_pos hmode]
        generalize db.appendDelete env key = result at hlog ⊢
        obtain ⟨f | u, db'⟩ := result
        · obtain ⟨hsame, hdone⟩ := hlog
          have hkeeps : Keeps db.store db'.store := by
            rw [hsame.store]
            exact Keeps.refl h
          exact ⟨hkeeps.ok, fun _ => hkeeps, hsame.config, fun _ hio => by rw [hdone hio]⟩
        · obtain ⟨record, hser, rfl⟩ := hlog
          have hupd := h.drop key
          rw [← db.logged_store record] at hupd
          have hwrote : Wrote db { db.logged record with
              store := (db.logged record).store.shardDropLocked (shardIndex key) key } key none
              record := by
            exact ⟨db.logged_store record ▸ hupd, rfl⟩
          simp only [compactAfter]
          cases hcompact : maybeSnapshotAndTruncate { db.logged record with
              store := (db.logged record).store.shardDropLocked (shardIndex key) key } env with
          | error f =>
            obtain rfl := maybeSnapshotAndTruncate_error hcompact
            exact ⟨hupd.ok, fun hf => absurd rfl hf, logged_config db record,
              fun hf => absurd rfl hf⟩
          | ok db'' => exact .inr ⟨e, rfl, hworm, .direct hmode hser hwrote hcompact⟩
      · simp only [if_neg hmode]
        exact .inr ⟨e, rfl, hworm, .memory hmode (h.drop key) rfl⟩

theorem setUnsafe_cases (h : StoreOk db.store) (alloc : AllocSite → Bool)
    (key value : Bytes) (isWorm : Bool) (now : UInt64) :
    match db.setUnsafe alloc key value isWorm now with
    | (.ok (), db') => db.store.wormBlocked key = false ∧
        Updates db.store db'.store key (some ⟨key, value, now, .written isWorm⟩) ∧
        db' = { db with store := db'.store }
    | (.error _, db') => db' = db := by
  have hset := h.setUnsafe alloc key value isWorm now
  unfold setUnsafe
  generalize db.store.setUnsafe alloc key value isWorm now = result at hset ⊢
  obtain f | s' := result
  · rfl
  · exact ⟨hset.1, hset.2, rfl⟩

end Db

/-! ## The invariant over whole runs -/

/-- The steps that change the shards, each with what it meets. -/
inductive ShardOp where
  | set (env : Env) (key value : Bytes) (isWorm : Bool) (timestamp : UInt64)
  | setUnsafe (alloc : AllocSite → Bool) (key value : Bytes) (isWorm : Bool) (now : UInt64)
  | delete (env : Env) (key : Bytes)
  | deleteUnsafe (key : Bytes)
  | loadSnapshot (alloc : Nat → AllocSite → Bool) (file : Option Bytes)
  | replayWal (alloc : Nat → AllocSite → Bool) (wal : Bytes)

/-- The state a step leaves, whether it succeeds or fails. -/
def ShardOp.apply (db : Db) : ShardOp → Db
  | .set env key value isWorm timestamp => (db.setWithTimestamp env key value isWorm timestamp).2
  | .setUnsafe alloc key value isWorm now => (db.setUnsafe alloc key value isWorm now).2
  | .delete env key => (db.delete env key).2
  | .deleteUnsafe key => db.deleteUnsafe key
  | .loadSnapshot alloc file => { db with store := (Store.loadSnapshot alloc file db.store).2 }
  | .replayWal alloc wal => { db with store := (Store.replayWal alloc wal db.store).2 }

/-- One step keeps the invariant. -/
theorem ShardOp.apply_ok {db : Db} (h : StoreOk db.store) (op : ShardOp) :
    StoreOk (op.apply db).store := by
  cases op with
  | set env key value isWorm timestamp =>
    have hset := Db.set_cases h env key value isWorm timestamp
    show StoreOk (db.setWithTimestamp env key value isWorm timestamp).2.store
    generalize db.setWithTimestamp env key value isWorm timestamp = result at hset ⊢
    obtain ⟨f | u, db'⟩ := result
    · exact hset.ok
    · exact hset.2.ok.ok
  | setUnsafe alloc key value isWorm now =>
    have hset := Db.setUnsafe_cases h alloc key value isWorm now
    show StoreOk (db.setUnsafe alloc key value isWorm now).2.store
    generalize db.setUnsafe alloc key value isWorm now = result at hset ⊢
    obtain ⟨f | u, db'⟩ := result
    · obtain rfl : db' = db := hset
      exact h
    · exact hset.2.1.ok
  | delete env key =>
    have hdel := Db.delete_cases h env key
    show StoreOk (db.delete env key).2.store
    generalize db.delete env key = result at hdel ⊢
    obtain ⟨f | u, db'⟩ := result
    · exact hdel.ok
    · rcases hdel with ⟨-, rfl⟩ | ⟨e, -, -, hack⟩
      · exact h
      · exact hack.ok.ok
  | deleteUnsafe key => exact (h.deleteUnsafe key).ok
  | loadSnapshot alloc file => exact (h.loadSnapshot alloc file).1
  | replayWal alloc wal => exact (h.replayWal alloc wal).1

/-- **The representation invariant holds after every run**, from a store with no
entries: in every shard the hash map and the sorted list hold the same entries,
the list strictly ascending by key, every entry in the shard of its key, and the
counter is the number of entries. -/
theorem run_storeOk (db : Db) (sst : Bytes → Option Bool) (ops : List ShardOp) :
    StoreOk (ops.foldl ShardOp.apply { db with store := Store.init sst }).store := by
  have hstart : StoreOk ({ db with store := Store.init sst } : Db).store := init_ok sst
  generalize ({ db with store := Store.init sst } : Db) = db₀ at hstart ⊢
  induction ops generalizing db₀ with
  | nil => exact hstart
  | cons op ops ih => exact ih (op.apply db₀) (ShardOp.apply_ok hstart op)

end WormDB
