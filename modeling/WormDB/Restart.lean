import WormDB.Durability

/-! # What survives a restart

Three laws over whole lives of a store, from its first open.

* A crash with nothing in a background queue loses nothing, as long as every
  record of the log can be read back (`crash_recovers_iff`).  An acknowledged write
  whose record is longer than the iterator's limit makes the store refuse to open
  (`oversize_write_blocks_open`).
* A save is a restore point unless the log, which a save leaves as it is,
  contradicts a write that bypassed it (`save_restores_iff`).
* A WORM entry stays as it was written (`worm_kept`). -/
namespace WormDB
open List ByteCodec GuardedReplay CheckpointedLog

/-! ## Crashes -/

/-- An open on the files, as a crash leaves them on the direct path, gives the live
entries. -/
def Recovers (db : Db) : Prop :=
  ∃ db', Db.openFiles db.config db.store.sst .ample db.walFile db.snapshotFile = .ok db' ∧
    db'.store.view = db.store.view

/-- The step's writes, if any, are logged. -/
def Op.Logged : Op → Prop
  | .setUnsafe .. => False
  | .deleteUnsafe _ => False
  | _ => True

theorem Op.Logged.kinds {op : Op} (h : op.Logged) {kind : Kind} (hkind : op.kinds kind) :
    kind ≠ .bypass ∧ kind ≠ .remove := by
  cases op with
  | set | delete =>
    rcases hkind with rfl | rfl | rfl <;> exact ⟨Kind.noConfusion, Kind.noConfusion⟩
  | setUnsafe | deleteUnsafe => exact h.elim
  | compact => rcases hkind with rfl | rfl <;> exact ⟨Kind.noConfusion, Kind.noConfusion⟩
  | startBackgroundTasks | drain => exact hkind.elim
  | save | reopen =>
    obtain rfl := hkind
    exact ⟨Kind.noConfusion, Kind.noConfusion⟩

section
variable {config : Config} {sst : Bytes → Option Bool} {opening : Db.OpenEnv} {db₀ db db' : Db}
  {ops : List Op} {env : Env}

/-- **Recovery after a crash.**  In a run of logged writes, saves, compactions and
restarts, a crash on the direct path is recovered from exactly when every record
that is still in the log fits the iterator's limit. -/
theorem crash_recovers_iff (hmode : config.persistence = .full)
    (hopen : Db.openFiles config sst opening [] none = .ok db₀)
    (hfiles : ∀ op ∈ ops, op.FilesOk) (hlogged : ∀ op ∈ ops, op.Logged)
    (hrun : Op.run db₀ ops = some db) (hdirect : db.writerStarted = false) :
    ∃ log, encodeLog log = some db.walFile ∧ (∀ r ∈ log, ∃ op ∈ ops, op.record = some r) ∧
      (Recovers db ↔ ∀ r ∈ log, r.Replayable) := by
  obtain ⟨st, log, hreach, htracks, hrecords⟩ := (Tracks.init hmode hopen).run hfiles hrun
  have hrecov : Recoverable Content.isWorm st := by
    refine hreach.recoverable ?_ rfl
    rintro kind ⟨op, hop, hkind⟩
    exact (hlogged op hop).kinds hkind
  have hwal : db.walFile ++ db.walQueue.flatten = db.walFile := by
    rw [htracks.queue hdirect, flatten_nil, append_nil]
  have hiff := htracks.opens_iff db.store.view
  rw [hwal, htracks.live, hrecov, and_iff_left rfl] at hiff
  refine ⟨log, hwal ▸ htracks.wal, fun r hr => ?_, ?_⟩
  · exact (hrecords r hr).resolve_left not_mem_nil
  · rw [Recovers, htracks.live]
    exact hiff

end

/-- A call that meets no failure. -/
def Env.calm : Env := ⟨ample, .done, true, true⟩

/-- A new store in `.full` mode, without background tasks and without compaction. -/
def freshDb : Db := Db.opened ⟨.full, false, 0⟩ [] none (Store.init fun _ => none)

theorem freshDb_open :
    Db.openFiles ⟨.full, false, 0⟩ (fun _ => none) .ample [] none = .ok freshDb := rfl

/-- A write, a save and a removal: the log keeps both records. -/
theorem crash_recovers_after_save :
    ∃ db, Op.run freshDb [.set .calm [1] [2] false 7, .save .calm, .delete .calm [1]] = some db ∧
      db.writerStarted = false ∧ ∃ log, encodeLog log = some db.walFile ∧
        (Recovers db ↔ ∀ r ∈ log, r.Replayable) := by
  have hsome : (Op.run freshDb
      [.set .calm [1] [2] false 7, .save .calm, .delete .calm [1]]).isSome = true := by
    decide +kernel
  have hwriter : (Op.run freshDb [.set .calm [1] [2] false 7, .save .calm,
      .delete .calm [1]]).map Db.writerStarted = some false := by decide +kernel
  obtain ⟨db, hrun⟩ := Option.isSome_iff_exists.mp hsome
  rw [hrun] at hwriter
  have hdirect : db.writerStarted = false := Option.some.inj hwriter
  obtain ⟨log, henc, -, hiff⟩ := crash_recovers_iff rfl freshDb_open (by simp [Op.FilesOk, Env.calm])
    (by simp [Op.Logged]) hrun hdirect
  exact ⟨db, hrun, hdirect, log, henc, hiff⟩

/-- **A write that is acknowledged and cannot be read back**: under the empty key, a
value one byte too long for the iterator.  The log then opens no store. -/
theorem oversize_write_blocks_open :
    ∃ db, freshDb.setWithTimestamp .calm [] (replicate 104857586 0) false 0 = (.ok (), db) ∧
      Db.openFiles db.config db.store.sst .ample db.walFile db.snapshotFile =
        .error (.error .corruption) ∧ ¬ Recovers db := by
  have hlen : (replicate 104857586 (0 : UInt8)).length = 104857586 := length_replicate
  generalize replicate 104857586 (0 : UInt8) = value at hlen ⊢
  have hser : Wal.serializeSetRecord [] value (.written false) 0 =
      some (Wal.frame .set (Wal.setPayload [] value (.written false) 0)) := by
    rw [Wal.serializeSetRecord, if_pos]
    rw [hlen]
    decide
  have hfresh : Tracks freshDb State.empty [] := Tracks.init rfl freshDb_open
  have hfree : freshDb.store.wormBlocked [] = false := by decide
  have halloc : ∀ site, Env.calm.alloc site = true := fun _ => rfl
  obtain ⟨db, hset, hwrote⟩ := Db.set_acknowledges hfresh.ok rfl halloc rfl rfl hfree hser
    (.inr rfl)
  have htracks := hfresh.wrote hwrote (r := .set [] value (.written false) 0) hser trivial rfl
  have hbig : ¬ ∀ r ∈ ([] ++ [.set [] value (.written false) 0] : List WalRecord),
      r.Replayable := by
    intro hall
    have hfit := hall _ (mem_singleton_self _)
    rw [WalRecord.Replayable, WalRecord.payload, Wal.setPayload_length, hlen] at hfit
    revert hfit
    decide
  have hdirect : db.writerStarted = false := by
    rw [hwrote.eq]
    rfl
  have hwal := htracks.wal
  rw [htracks.queue hdirect, flatten_nil, append_nil] at hwal
  have hopen := openFiles_oversize htracks.mode htracks.snap hwal htracks.flags hbig
  refine ⟨db, hset, hopen, ?_⟩
  rintro ⟨db', hok, -⟩
  cases hopen.symm.trans hok

/-! ## Saves -/

/-- Stopping and opening again gives the live entries. -/
def Restarts (db : Db) (closing : Env) : Prop :=
  ∃ db', (Op.reopen closing .ample).step db = some db' ∧ db'.store.view = db.store.view

theorem restarts_iff {db : Db} (hmode : db.config.persistence = .full) (closing : Env) :
    Restarts db closing ↔
      ∃ db', Db.openFiles db.config db.store.sst .ample (db.walFile ++ db.walQueue.flatten)
        db.snapshotFile = .ok db' ∧ db'.store.view = db.store.view := by
  unfold Restarts
  simp only [Op.step, Db.close_full hmode closing]
  cases Db.openFiles db.config db.store.sst .ample (db.walFile ++ db.walQueue.flatten)
    db.snapshotFile <;> simp

section
variable {config : Config} {sst : Bytes → Option Bool} {opening : Db.OpenEnv} {db₀ db db' : Db}
  {ops : List Op} {env : Env}

/-- **A save as a restore point.**  After any run, with writes that bypass the log
too, a restart right after a save restores the saved entries exactly when the log
can be read back and gives every key that has a record in it and no WORM entry
the value it has already. -/
theorem save_restores_iff (hmode : config.persistence = .full)
    (hopen : Db.openFiles config sst opening [] none = .ok db₀)
    (hfiles : ∀ op ∈ ops, op.FilesOk) (hrun : Op.run db₀ ops = some db)
    (hsave : db.save env = .ok db') (closing : Env) :
    ∃ log, encodeLog log = some (db.walFile ++ db.walQueue.flatten) ∧
      (Restarts db' closing ↔ (∀ r ∈ log, r.Replayable) ∧
        ∀ k, Locked Content.isWorm db.store.view k ∨
          ∀ v ∈ deciding Content.isWorm (writesOf log) k, v = db.store.view k) := by
  obtain ⟨st, log, -, htracks, -⟩ := (Tracks.init hmode hopen).run hfiles hrun
  rw [Db.save, htracks.mode, if_neg (by decide)] at hsave
  obtain ⟨bytes, hbytes, rfl⟩ := Db.writeSnapshot_ok hsave
  have hcheck := htracks.checkpoint hbytes
  refine ⟨log, htracks.wal, ?_⟩
  rw [restarts_iff hcheck.mode closing, hcheck.opens_iff, htracks.log, htracks.live]
  exact and_congr_right (fun _ => recovers_checkpoint_iff)

end

/-- A logged write and one that bypasses the log, under different keys. -/
theorem save_restores_other_key :
    ∃ db db', Op.run freshDb [.set .calm [1] [2] false 7, .setUnsafe ample [3] [4] false 8] =
        some db ∧ db.save .calm = .ok db' ∧
      ∃ log, encodeLog log = some (db.walFile ++ db.walQueue.flatten) ∧
        (Restarts db' .calm ↔ (∀ r ∈ log, r.Replayable) ∧
          ∀ k, Locked Content.isWorm db.store.view k ∨
            ∀ v ∈ deciding Content.isWorm (writesOf log) k, v = db.store.view k) := by
  have hsaved : (((Op.run freshDb [.set .calm [1] [2] false 7, .setUnsafe ample [3] [4] false 8]).map
      (fun db => (db.save .calm).isOk))) = some true := by decide +kernel
  obtain ⟨db, hrun, hok⟩ := Option.map_eq_some_iff.mp hsaved
  generalize hsave : db.save .calm = result at hok
  obtain f | db' := result
  · cases hok
  · exact ⟨db, db', hrun, hsave,
      save_restores_iff rfl freshDb_open (by simp [Op.FilesOk, Env.calm]) hrun hsave .calm⟩

/-- **A save that is no restore point**: the key was written to the log and then
again past it.  The restart goes back to the value in the log. -/
theorem save_forgets_bypass :
    ∃ db db' db'', Op.run freshDb
        [.set .calm [1] [2] false 7, .setUnsafe ample [1] [3] false 8] = some db ∧
      db.save .calm = .ok db' ∧ (Op.reopen .calm .ample).step db' = some db'' ∧
      db'.store.view [1] = some ⟨[3], 8, false⟩ ∧ db''.store.view [1] = some ⟨[2], 7, false⟩ ∧
      ¬ Restarts db' .calm := by
  have heval : (Op.run freshDb [.set .calm [1] [2] false 7, .setUnsafe ample [1] [3] false 8]).map
      (fun db => (db.save .calm).toOption.map (fun db' => (db'.store.view [1],
        ((Op.reopen .calm .ample).step db').map (fun db'' => db''.store.view [1])))) =
      some (some (some ⟨[3], 8, false⟩, some (some ⟨[2], 7, false⟩))) := by decide +kernel
  obtain ⟨db, hrun, hrest⟩ := Option.map_eq_some_iff.mp heval
  obtain ⟨db', hsave, hpair⟩ := Option.map_eq_some_iff.mp hrest
  obtain ⟨hlive, hagain⟩ := Prod.mk.inj hpair
  obtain ⟨db'', hreopen, hback⟩ := Option.map_eq_some_iff.mp hagain
  have hsaved : db.save .calm = .ok db' := by
    generalize db.save .calm = result at hsave
    obtain f | db₁ := result
    · cases hsave
    · rw [Option.some.inj hsave]
  refine ⟨db, db', db'', hrun, hsaved, hreopen, hlive, hback, ?_⟩
  rintro ⟨db₁, hstep, hview⟩
  cases hreopen.symm.trans hstep
  rw [hview, hlive] at hback
  revert hback
  decide

/-! ## WORM entries -/

namespace Op

/-- The step respects WORM entries. -/
def Guarded : Op → Prop
  | .deleteUnsafe _ => False
  | _ => True

def IsReopen : Op → Prop
  | .reopen .. => True
  | _ => False

theorem Guarded.kinds {op : Op} (h : op.Guarded) {kind : Kind} (hkind : op.kinds kind) :
    kind ≠ .remove := by
  rintro rfl
  cases op with
  | set | delete => rcases hkind with hk | hk | hk <;> cases hk
  | compact => rcases hkind with hk | hk <;> cases hk
  | deleteUnsafe => exact h
  | startBackgroundTasks | drain => exact hkind
  | setUnsafe | save | reopen => cases hkind

end Op

/-- A step after which every WORM entry is as before. -/
structure WormKept (db db' : Db) : Prop where
  ok : StoreOk db'.store
  config : db'.config = db.config
  worm : ∀ k, Locked Content.isWorm db.store.view k → db'.store.view k = db.store.view k

section
variable {db db' : Db} {env : Env}

theorem WormKept.of_keeps (h : Keeps db.store db'.store) (hconfig : db'.config = db.config) :
    WormKept db db' :=
  ⟨h.ok, hconfig, fun k _ => congrFun h.view k⟩

theorem WormKept.of_store (h : StoreOk db.store) (hstore : db'.store = db.store)
    (hconfig : db'.config = db.config) : WormKept db db' := by
  refine .of_keeps ?_ hconfig
  rw [hstore]
  exact Keeps.refl h

variable {key : Bytes} {e : Option Entry}

theorem WormKept.of_updates
    (h : Updates db.store db'.store key e) (hconfig : db'.config = db.config)
    (hfree : ¬ Locked Content.isWorm db.store.view key) : WormKept db db' := by
  refine ⟨h.ok, hconfig, fun k hk => ?_⟩
  rw [h.view]
  exact update_of_locked hfree hk _

theorem Acked.config_of_not_full {record : Option Bytes}
    (h : Db.Acked db env key e record db') (hmode : db.config.persistence ≠ .full) :
    db'.config = db.config := by
  cases h with
  | memory _ _ heq => rw [heq]
  | queued hfull | direct hfull => exact absurd hfull hmode

/-- In `.snapshot` mode a restart goes through the save at shutdown. -/
theorem reopen_snapshot (h : StoreOk db.store) (hmode : db.config.persistence = .snapshot)
    {closing : Env} {opening : Db.OpenEnv} (hwritten : closing.snapshot = true)
    (hstep : (Op.reopen closing opening).step db = some db') : WormKept db db' := by
  simp only [Op.step] at hstep
  generalize hclose : db.close closing = files at hstep
  obtain f | ⟨walFile, snapshotFile⟩ := files
  · cases hstep
  obtain ⟨bytes, hbytes, hfiles⟩ := Db.close_snapshot hmode hwritten hclose
  cases hfiles
  simp only [] at hstep
  generalize hopen : Db.openFiles db.config db.store.sst opening
    (db.walFile ++ db.walQueue.flatten) (some bytes) = result at hstep
  obtain f | db₁ := result
  · cases hstep
  cases hstep
  obtain ⟨s, hs, hok, -, hview⟩ := openFiles_snapshot hmode
    (restores_encodeSnapshot h hbytes db.store.sst)
  cases (openFiles_ample hopen).symm.trans hs
  exact ⟨hok, rfl, fun k _ => congrFun hview k⟩

variable {op : Op}

/-- Outside `.full` mode: every step but a restart of an in-memory store. -/
theorem Op.step_wormKept (h : StoreOk db.store) (hmode : db.config.persistence ≠ .full)
    (hfiles : op.FilesOk) (hguard : op.Guarded)
    (hreopen : db.config.persistence = .none → ¬ op.IsReopen)
    (hstep : op.step db = some db') : WormKept db db' := by
  cases op with
  | set env key value isWorm timestamp =>
    rcases Op.survived_set h hstep with ⟨f, hf, hrefused⟩ | ⟨hfree, hack⟩
    · exact .of_keeps (hrefused.keeps hf) hrefused.config
    · exact .of_updates hack.ok (Acked.config_of_not_full hack hmode) (wormBlocked_false hfree)
  | delete env key =>
    rcases Op.survived_delete h hstep with ⟨f, hf, hrefused⟩ | rfl | ⟨e, hat, hworm, hack⟩
    · exact .of_keeps (hrefused.keeps hf) hrefused.config
    · exact .of_store h rfl rfl
    · exact .of_updates hack.ok (Acked.config_of_not_full hack hmode) (not_locked_of_entry hat hworm)
  | setUnsafe alloc key value isWorm now =>
    rcases Op.survived_setUnsafe h hstep with rfl | ⟨hfree, hupd, heq⟩
    · exact .of_store h rfl rfl
    · exact .of_updates hupd (by rw [heq]) (wormBlocked_false hfree)
  -- a delete past the guard is no step of a guarded run
  | deleteUnsafe key => exact hguard.elim
  | save env =>
    simp only [Op.step] at hstep
    generalize hsave : db.save env = result at hstep
    obtain (e | _) | db₁ := result
    · cases hstep
      exact .of_store h rfl rfl
    · cases hstep
    · cases hstep
      unfold Db.save at hsave
      split at hsave
      · cases hsave
        exact .of_store h rfl rfl
      · -- a snapshot changes the files and not the store
        obtain ⟨bytes, -, rfl⟩ := Db.writeSnapshot_ok hsave
        exact .of_store h rfl rfl
  | compact env =>
    simp only [Op.step] at hstep
    generalize hcompact : db.maybeSnapshotAndTruncate env = result at hstep
    obtain f | db₁ := result
    · cases hstep
    · cases hstep
      rcases Db.maybeSnapshotAndTruncate_cases hcompact with rfl | ⟨-, bytes, -, rfl | rfl⟩
      · exact .of_store h rfl rfl
      · exact .of_store h rfl rfl
      · exact .of_store h rfl rfl
  | startBackgroundTasks =>
    cases hstep
    unfold Db.startBackgroundTasks
    split
    · exact .of_store h rfl rfl
    · exact .of_store h rfl rfl
  | drain =>
    cases hstep
    unfold Db.drain
    split
    · exact .of_store h rfl rfl
    · exact .of_store h rfl rfl
  | reopen closing opening =>
    -- only a snapshot store is opened again here
    have hsnap : db.config.persistence = .snapshot := by
      cases hp : db.config.persistence with
      | full => exact absurd hp hmode
      | none => exact absurd trivial (hreopen hp)
      | snapshot => rfl
    exact reopen_snapshot h hsnap hfiles hstep

/-- Outside `.full` mode every step leaves a well-formed store. -/
theorem Op.step_ok (h : StoreOk db.store) (hmode : db.config.persistence ≠ .full)
    (hfiles : op.FilesOk) (hguard : op.Guarded) (hstep : op.step db = some db') :
    StoreOk db'.store ∧ db'.config = db.config := by
  by_cases hreopen : op.IsReopen
  · cases op with
    | reopen closing opening =>
      simp only [Op.step] at hstep
      split at hstep
      · cases hstep
      · split at hstep
        · cases hstep
        · cases hstep
          obtain ⟨hok, hconfig, -⟩ := openFiles_ok (by assumption)
          exact ⟨hok, hconfig⟩
    | _ => exact hreopen.elim
  · have hkept := Op.step_wormKept h hmode hfiles hguard (fun _ => hreopen) hstep
    exact ⟨hkept.ok, hkept.config⟩

variable {ops : List Op}

theorem Op.run_ok (h : StoreOk db.store) (hmode : db.config.persistence ≠ .full)
    (hfiles : ∀ op ∈ ops, op.FilesOk) (hguard : ∀ op ∈ ops, op.Guarded)
    (hrun : Op.run db ops = some db') : StoreOk db'.store ∧ db'.config = db.config := by
  induction ops generalizing db with
  | nil =>
    cases hrun
    exact ⟨h, rfl⟩
  | cons op ops ih =>
    rw [Op.run, foldlM_cons] at hrun
    obtain ⟨db₁, hstep, hrest⟩ := Option.bind_eq_some_iff.mp hrun
    obtain ⟨hop, hops⟩ := forall_mem_cons.mp hfiles
    obtain ⟨hgop, hgops⟩ := forall_mem_cons.mp hguard
    obtain ⟨hok, hconfig⟩ := Op.step_ok h hmode hop hgop hstep
    obtain ⟨hok', hconfig'⟩ := ih hok (hconfig ▸ hmode) hops hgops hrest
    exact ⟨hok', hconfig'.trans hconfig⟩

theorem Op.run_wormKept (h : StoreOk db.store)
    (hmode : db.config.persistence ≠ .full) (hfiles : ∀ op ∈ ops, op.FilesOk)
    (hguard : ∀ op ∈ ops, op.Guarded)
    (hreopen : db.config.persistence = .none → ∀ op ∈ ops, ¬ op.IsReopen)
    (hrun : Op.run db ops = some db') : WormKept db db' := by
  induction ops generalizing db with
  | nil =>
    cases hrun
    exact .of_store h rfl rfl
  | cons op ops ih =>
    rw [Op.run, foldlM_cons] at hrun
    obtain ⟨db₁, hstep, hrest⟩ := Option.bind_eq_some_iff.mp hrun
    obtain ⟨hop, hops⟩ := forall_mem_cons.mp hfiles
    obtain ⟨hgop, hgops⟩ := forall_mem_cons.mp hguard
    have hfirst : WormKept db db₁ := Op.step_wormKept h hmode hop hgop
      (fun hnone => hreopen hnone op mem_cons_self) hstep
    have hlater : WormKept db₁ db' := by
      refine ih hfirst.ok (hfirst.config ▸ hmode) hops hgops ?_ hrest
      rw [hfirst.config]
      exact fun hnone op' hop' => hreopen hnone op' (mem_cons_of_mem _ hop')
    refine ⟨hlater.ok, hlater.config.trans hfirst.config, fun k hk => ?_⟩
    have hk₁ : Locked Content.isWorm db₁.store.view k := by
      rw [Locked, hfirst.worm k hk]
      exact hk
    rw [hlater.worm k hk₁, hfirst.worm k hk]

end

section
variable {config : Config} {sst : Bytes → Option Bool} {opening : Db.OpenEnv}
  {db₀ db db' db'' : Db} {before after : List Op} {env : Env} {key value : Bytes}
  {timestamp : UInt64}

/-- In `.full` mode the WORM write is in the log or in the snapshot from then on. -/
theorem worm_kept_full (hmode : config.persistence = .full)
    (hopen : Db.openFiles config sst opening [] none = .ok db₀)
    (hfiles : ∀ op ∈ before, op.FilesOk) (hguard : ∀ op ∈ before, op.Guarded)
    (hbefore : Op.run db₀ before = some db)
    (hset : db.setWithTimestamp env key value true timestamp = (.ok (), db'))
    (hfiles' : ∀ op ∈ after, op.FilesOk) (hguard' : ∀ op ∈ after, op.Guarded)
    (hafter : Op.run db' after = some db'') :
    db''.store.view key = some ⟨value, timestamp, true⟩ := by
  -- up to the write: what the files hold under WORM is live
  obtain ⟨st, records, hreach, htracks, -⟩ := (Tracks.init hmode hopen).run hfiles hbefore
  have hanch : Anchored Content.isWorm st := by
    refine (hreach.held ?_ Anchored.empty).1
    rintro kind ⟨op, hop, hkind⟩
    exact (hguard op hop).kinds hkind
  -- the write
  have hcases := Db.set_cases htracks.ok env key value true timestamp
  rw [hset] at hcases
  obtain ⟨hfree, hack⟩ := hcases
  obtain ⟨st₁, records₁, hreach₁, htracks₁, -⟩ :=
    htracks.acked (r := .set key value (.written true) timestamp) hack trivial rfl
  have hlogged : Step Content.isWorm .logged st
      (st.write key (some ⟨value, timestamp, true⟩)) :=
    .logged key _ (htracks.live ▸ wormBlocked_false hfree)
  have hheld : Held Content.isWorm (st.write key (some ⟨value, timestamp, true⟩)) key
      (some ⟨value, timestamp, true⟩) :=
    ⟨rfl, Function.update_self .., .inr (mem_append_right _ (mem_singleton_self _))⟩
  have hanch₁ := hlogged.anchored hanch Kind.noConfusion
  obtain ⟨hanch₂, hkeep⟩ := hreach₁.held (by rintro kind (rfl | rfl) <;> exact Kind.noConfusion)
    hanch₁
  -- from then on
  obtain ⟨st₂, records₂, hreach₂, htracks₂, -⟩ := htracks₁.run hfiles' hafter
  obtain ⟨-, hkeep'⟩ := hreach₂.held (fun kind ⟨op, hop, hkind⟩ => (hguard' op hop).kinds hkind)
    hanch₂
  rw [htracks₂.live]
  exact (hkeep' key _ (hkeep key _ hheld)).live

/-- **A WORM entry stays as it was written**, through every run of guarded calls,
saves, compactions and restarts; in memory mode, up to the restart. -/
theorem worm_kept (hopen : Db.openFiles config sst opening [] none = .ok db₀)
    (hfiles : ∀ op ∈ before, op.FilesOk) (hguard : ∀ op ∈ before, op.Guarded)
    (hbefore : Op.run db₀ before = some db)
    (hset : db.setWithTimestamp env key value true timestamp = (.ok (), db'))
    (hfiles' : ∀ op ∈ after, op.FilesOk) (hguard' : ∀ op ∈ after, op.Guarded)
    (hreopen : config.persistence = .none → ∀ op ∈ after, ¬ op.IsReopen)
    (hafter : Op.run db' after = some db'') :
    db''.store.view key = some ⟨value, timestamp, true⟩ := by
  by_cases hmode : config.persistence = .full
  · exact worm_kept_full hmode hopen hfiles hguard hbefore hset hfiles' hguard' hafter
  · obtain ⟨hok₀, hconfig₀, -⟩ := openFiles_ok hopen
    obtain ⟨hok, hconfig⟩ := Op.run_ok hok₀ (hconfig₀ ▸ hmode) hfiles hguard hbefore
    have hsame : db.config = config := hconfig.trans hconfig₀
    have hcases := Db.set_cases hok env key value true timestamp
    rw [hset] at hcases
    obtain ⟨-, hack⟩ := hcases
    have hconfig' : db'.config = config :=
      (Acked.config_of_not_full hack (hsame ▸ hmode)).trans hsame
    have hview : db'.store.view key = some ⟨value, timestamp, true⟩ := by
      rw [hack.ok.view, Function.update_self]
      rfl
    have hlocked : Locked Content.isWorm db'.store.view key := by
      rw [Locked, hview]
      rfl
    have hkept := Op.run_wormKept hack.ok.ok (hconfig' ▸ hmode) hfiles' hguard'
      (hconfig' ▸ hreopen) hafter
    rw [hkept.worm key hlocked, hview]

end

/-- A store that keeps everything in memory. -/
def memoryDb : Db := Db.opened ⟨.none, false, 0⟩ [] none (Store.init fun _ => none)

/-- A WORM entry over attempts to overwrite and delete it, a save and a restart. -/
theorem worm_kept_over_restart :
    ∃ db' db'', freshDb.setWithTimestamp .calm [1] [2] true 7 = (.ok (), db') ∧
      Op.run db' [.set .calm [1] [3] false 8, .delete .calm [1], .save .calm,
        .reopen .calm .ample] = some db'' ∧ db''.store.view [1] = some ⟨[2], 7, true⟩ := by
  have hacked : (freshDb.setWithTimestamp .calm [1] [2] true 7).1.isOk = true := by decide
  have hsome : (Op.run (freshDb.setWithTimestamp .calm [1] [2] true 7).2
      [.set .calm [1] [3] false 8, .delete .calm [1], .save .calm,
        .reopen .calm .ample]).isSome = true := by decide +kernel
  generalize hset : freshDb.setWithTimestamp .calm [1] [2] true 7 = result at hacked hsome
  obtain ⟨f | u, db'⟩ := result
  · cases hacked
  obtain ⟨db'', hrun⟩ := Option.isSome_iff_exists.mp hsome
  have hkept := worm_kept freshDb_open (forall_mem_nil _) (forall_mem_nil _) rfl hset
    (by simp [Op.FilesOk, Env.calm]) (by simp [Op.Guarded]) nofun hrun
  exact ⟨db', db'', hset ▸ rfl, hrun, hkept⟩

/-- **In memory mode a restart loses even WORM entries.** -/
theorem worm_lost_in_memory :
    ∃ db' db'', memoryDb.setWithTimestamp .calm [1] [2] true 7 = (.ok (), db') ∧
      db'.store.view [1] = some ⟨[2], 7, true⟩ ∧
      Op.run db' [.reopen .calm .ample] = some db'' ∧ db''.store.view [1] = none := by
  have hacked : (memoryDb.setWithTimestamp .calm [1] [2] true 7).1.isOk = true := by
    decide
  have hlive : (memoryDb.setWithTimestamp .calm [1] [2] true 7).2.store.view [1] =
      some ⟨[2], 7, true⟩ := by decide
  have hgone : (Op.run (memoryDb.setWithTimestamp .calm [1] [2] true 7).2
      [.reopen .calm .ample]).map (fun db => db.store.view [1]) = some none := by decide
  generalize hset : memoryDb.setWithTimestamp .calm [1] [2] true 7 = result at hacked hlive hgone
  obtain ⟨f | u, db'⟩ := result
  · cases hacked
  obtain ⟨db'', hrun, hview⟩ := Option.map_eq_some_iff.mp hgone
  exact ⟨db', db'', rfl, hlive, hrun, hview⟩

end WormDB
