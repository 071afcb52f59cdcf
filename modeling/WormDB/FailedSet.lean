import WormDB.Database

/-! # A set that fails

A set reserves what it needs, writes its record to the log, and only then changes the live
map.  So a set that returns an error, at whatever point, leaves every shard and every entry
in it as it was (`Untouched`): of the new entry it may have made nothing is left.  Its record
is in the log only when it was the write to the log that failed, and then as far as that
write came (`failed_set`). -/
namespace WormDB
open ByteCodec

/-- Both views of every shard, the count of the live keys, and the entries that the shards
list. -/
structure Untouched (s s' : Store) : Prop where
  shards : s'.shards = s.shards
  liveKeys : s'.liveKeys = s.liveKeys
  entries : ∀ i, ∀ p ∈ (s.shards i).sorted, s'.mem p = s.mem p
  sst : s'.sst = s.sst

theorem Untouched.refl (s : Store) : Untouched s s := ⟨rfl, rfl, fun _ _ _ => rfl, rfl⟩

variable {s s' : Store}

/-- The same keys lead to the same entries. -/
theorem Untouched.entryAt (h : StoreOk s) (hsame : Untouched s s') (key : Bytes) :
    s'.entryAt key = s.entryAt key := by
  have hshard : ShardOk s'.mem (shardIndex key) (s'.shards (shardIndex key)) := by
    rw [hsame.shards]
    refine (h.shards _).of_keys (fun p hp => ?_)
    obtain ⟨e, he, -⟩ := (h.shards _).live p hp
    exact ⟨e, by rw [hsame.entries _ p hp, he], (keyAt_of_some he).symm⟩
  have hkeyAt : ∀ p ∈ (s.shards (shardIndex key)).sorted, keyAt s'.mem p = keyAt s.mem p := by
    intro p hp
    rw [keyAt, keyAt, hsame.entries _ p hp]
  have hget : s'.get key = s.get key := by
    refine Option.ext (fun p => ?_)
    rw [Store.get, Store.get, hshard.get_iff, (h.shards _).get_iff, hsame.shards]
    constructor
    · rintro ⟨hp, hkey⟩
      exact ⟨hp, by rw [← hkeyAt p hp, hkey]⟩
    · rintro ⟨hp, hkey⟩
      exact ⟨hp, by rw [hkeyAt p hp, hkey]⟩
  rw [Store.entryAt, Store.entryAt, hget]
  cases hp : s.get key with
  | none => rfl
  | some p => exact hsame.entries _ p ((h.shards _).get_iff.mp hp).1

/-- An entry that was made and given up again. -/
theorem create_destroy_untouched (h : StoreOk s) (e : Entry) :
    Untouched s ((s.create e).2.destroyEntry s.nextPtr) := by
  have hold : ∀ i, ∀ p ∈ (s.shards i).sorted, p ≠ s.nextPtr := fun i p hp =>
    ne_of_lt (h.lt_nextPtr hp)
  unfold Store.destroyEntry Store.create
  simp only [Function.update_self]
  by_cases harena : e.flags.arenaOwned = true
  · rw [if_pos harena]
    exact ⟨rfl, rfl, fun i p hp => Function.update_of_ne (hold i p hp) _ _, rfl⟩
  · rw [if_neg harena]
    refine ⟨rfl, rfl, fun i p hp => ?_, rfl⟩
    simp only [Store.setEntry]
    rw [Function.update_of_ne (hold i p hp), Function.update_of_ne (hold i p hp)]

/-- An upsert that was prepared and given up again. -/
theorem prepare_abort_untouched (h : StoreOk s) {alloc : AllocSite → Bool}
    {i : Fin shardCount} {existing : Option Ptr} {key value : Bytes} {isWorm : Bool}
    {timestamp : UInt64} {prepared : Store.PreparedUpsert}
    (hprepare : s.prepareUpsertLocked alloc i existing key value isWorm timestamp =
      .ok (prepared, s')) : Untouched s (s'.abortPreparedUpsert prepared) := by
  have hput : s.preparePutEntry alloc i key value isWorm timestamp = .ok (prepared, s') →
      Untouched s (s'.abortPreparedUpsert prepared) := by
    intro hput
    unfold Store.preparePutEntry at hput
    split at hput
    · cases hput
    unfold Store.createMemoryEntry at hput
    by_cases hmemory : (alloc .entry && alloc .key && alloc .value) = true
    · rw [if_pos hmemory] at hput
      cases hput
      exact create_destroy_untouched h _
    · rw [if_neg hmemory] at hput
      cases hput
  unfold Store.prepareUpsertLocked at hprepare
  split at hprepare
  · rename_i p e _
    by_cases harena : e.flags.arenaOwned = true
    · rw [if_pos harena] at hprepare
      exact hput hprepare
    rw [if_neg harena] at hprepare
    by_cases hlen : e.value.length = value.length
    · rw [if_pos hlen] at hprepare
      cases hprepare
      exact Untouched.refl s
    · rw [if_neg hlen] at hprepare
      by_cases hnew : alloc .newValue = true
      · rw [if_pos hnew] at hprepare
        cases hprepare
        exact Untouched.refl s
      · rw [if_neg hnew] at hprepare
        cases hprepare
  · exact hput hprepare

namespace Db

/-- The failure was that of the write to the log: the log file has what came through. -/
structure LogWriteFailed (db db' : Db) (env : Env) (e : StoreError) (record : Option Bytes) :
    Prop where
  error : e = .ioError
  direct : db.config.persistence = .full ∧ db.writerStarted = false
  file : ∃ bytes written, record = some bytes ∧ env.io = .failed written ∧
    db'.walFile = db.walFile ++ bytes.take written
  queue : db'.walQueue = db.walQueue
  walBytes : db'.walBytes = db.walBytes

theorem commitSerializedRecord_failed {db db' : Db} {io : WalIo} {record : Bytes} {f : Fault}
    (h : db.commitSerializedRecord io record = (.error f, db')) :
    db.writerStarted = false ∧ (db' = db ∨ ∃ written, io = .failed written ∧
      db' = { db with
        walFile := db.walFile ++ record.take written, syncFailed := db.config.syncWrites }) := by
  unfold commitSerializedRecord at h
  by_cases hstarted : db.writerStarted = true
  · rw [if_pos hstarted] at h
    cases h
  rw [if_neg hstarted] at h
  unfold writeDirect at h
  refine ⟨Bool.eq_false_iff.mpr hstarted, ?_⟩
  by_cases hfailed : db.syncFailed = true
  · rw [if_pos hfailed] at h
    exact .inl (Prod.mk.inj h).2.symm
  rw [if_neg hfailed] at h
  cases io with
  | done => cases h
  | failed written => exact .inr ⟨written, rfl, (Prod.mk.inj h).2.symm⟩

/-- **A failed set changes nothing.**  In every mode, whatever the error: both views of the
shards, the count of the live keys and every live entry are as before; nothing else of the
store's state has changed either, and no byte of the record is in the log, unless it was the
write to the log that failed. -/
theorem failed_set {db db' : Db} (h : StoreOk db.store) (env : Env) (key value : Bytes)
    (isWorm : Bool) (timestamp : UInt64) {e : StoreError}
    (hset : db.setWithTimestamp env key value isWorm timestamp = (.error (.error e), db')) :
    Untouched db.store db'.store ∧ (∀ k, db'.store.entryAt k = db.store.entryAt k) ∧
      (db' = { db with store := db'.store } ∨
        LogWriteFailed db db' env e
          (Wal.serializeSetRecord key value (.written isWorm) timestamp)) := by
  have hsuffices : Untouched db.store db'.store ∧ (db' = { db with store := db'.store } ∨
      LogWriteFailed db db' env e (Wal.serializeSetRecord key value (.written isWorm) timestamp)) := by
    -- a refusal in front of the log changes nothing
    have hsame : ∀ {f : Fault}, ((.error f, db) : Except Fault Unit × Db) = (.error (.error e), db') →
        Untouched db.store db'.store ∧ (db' = { db with store := db'.store } ∨
          LogWriteFailed db db' env e
            (Wal.serializeSetRecord key value (.written isWorm) timestamp)) := by
      intro f heq
      cases heq
      exact ⟨Untouched.refl _, .inl rfl⟩
    unfold setWithTimestamp setWithTimestampNoVectorSync at hset
    by_cases hmode : db.config.persistence = .full
    · simp only [if_pos hmode] at hset
      split at hset
      · exact hsame hset
      split at hset
      · exact hsame hset
      rename_i record hser
      split at hset
      · exact hsame hset
      split at hset
      · exact hsame hset
      rename_i prepared s hprepare
      have hpre := prepare_abort_untouched h hprepare
      split at hset
      · -- the write to the log failed, and the entry is given up
        rename_i f db₁ hcommit
        obtain ⟨he, rfl⟩ := Prod.mk.inj hset
        cases Except.error.inj he
        obtain ⟨hdirect, rfl | ⟨written, hio, rfl⟩⟩ := commitSerializedRecord_failed hcommit
        · exact ⟨hpre, .inl rfl⟩
        · exact ⟨hpre, .inr ⟨rfl, ⟨hmode, hdirect⟩, ⟨record, written, hser, hio, rfl⟩, rfl, rfl⟩⟩
      · -- the record is in the log: the commit cannot fail, and compaction reports no error
        rename_i db₁ hcommit
        have hprep := h.prepare env.alloc key value isWorm timestamp
        rw [hprepare] at hprep
        obtain ⟨⟨s', hs', -⟩, -⟩ := hprep
        simp only [hs'] at hset
        by_cases hstarted : db.writerStarted = true
        · rw [if_pos hstarted] at hset
          cases hset
        rw [if_neg hstarted, compactAfter] at hset
        split at hset
        · rename_i f hcompact
          obtain ⟨hf, -⟩ := Prod.mk.inj hset
          rw [maybeSnapshotAndTruncate_error hcompact] at hf
          cases hf
        · cases hset
    · simp only [if_neg hmode] at hset
      split at hset
      · exact hsame hset
      split at hset
      · exact hsame hset
      · cases hset
  exact ⟨hsuffices.1, fun k => hsuffices.1.entryAt h k, hsuffices.2⟩

/-- A new store in `.full` mode without the background writer. -/
def freshDirect : Db :=
  ⟨⟨.full, true, 0⟩, Store.init (fun _ => none), [], [], false, 0, false, none⟩

/-- A disk that takes five bytes of the record. -/
def tornWrite : Env := ⟨fun _ => true, .failed 5, true, true⟩

theorem failed_set_torn :
    ∃ db', freshDirect.setWithTimestamp tornWrite [1] [2] false 7 =
        (.error (.error .ioError), db') ∧
      Untouched freshDirect.store db'.store ∧ (∀ k, db'.store.entryAt k = none) ∧
      db'.walFile.length = 5 := by
  have hset : (freshDirect.setWithTimestamp tornWrite [1] [2] false 7).1 =
      .error (.error .ioError) := rfl
  rcases hcall : freshDirect.setWithTimestamp tornWrite [1] [2] false 7 with ⟨result, db'⟩
  rw [hcall] at hset
  obtain rfl : result = .error (.error .ioError) := hset
  obtain ⟨huntouched, hentries, -⟩ := failed_set (init_ok _) tornWrite [1] [2] false 7 hcall
  refine ⟨db', rfl, huntouched, fun k => (hentries k).trans (init_entryAt _ k), ?_⟩
  have hfile : (freshDirect.setWithTimestamp tornWrite [1] [2] false 7).2.walFile.length = 5 := rfl
  rw [hcall] at hfile
  exact hfile

end Db
end WormDB
