import WormDB.Recovery
import WormDB.CheckpointedLog

/-! # Durability

Whole lives of a store: calls, snapshots, compactions, the background writer and
restarts, in any order (`Op`).  In `.full` mode a store and its files refine the
abstract machine of a live map, a checkpoint and a log (`Tracks.step`). -/
namespace WormDB
open List ByteCodec GuardedReplay CheckpointedLog

/-- What happens to a store over its life.  `reopen` is `close` and then an open
on the files it left. -/
inductive Op where
  | set (env : Env) (key value : Bytes) (isWorm : Bool) (timestamp : UInt64)
  | delete (env : Env) (key : Bytes)
  | setUnsafe (alloc : AllocSite → Bool) (key value : Bytes) (isWorm : Bool) (now : UInt64)
  | deleteUnsafe (key : Bytes)
  | save (env : Env)
  | compact (env : Env)
  | startBackgroundTasks
  | drain
  | reopen (closing : Env) (opening : Db.OpenEnv)

namespace Op

/-- The state a call leaves, unless it ends the process. -/
def survived : Except Fault Unit × Db → Option Db
  | (.error .trap, _) => none
  | (_, db) => some db

/-- The next state: none when the process ends or the open fails. -/
def step (db : Db) : Op → Option Db
  | .set env key value isWorm timestamp =>
      survived (db.setWithTimestamp env key value isWorm timestamp)
  | .delete env key => survived (db.delete env key)
  | .setUnsafe alloc key value isWorm now => survived (db.setUnsafe alloc key value isWorm now)
  | .deleteUnsafe key => some (db.deleteUnsafe key)
  | .save env =>
      match db.save env with
      | .error .trap => none
      | .error (.error _) => some db
      | .ok db' => some db'
  | .compact env =>
      match db.maybeSnapshotAndTruncate env with
      | .error _ => none
      | .ok db' => some db'
  | .startBackgroundTasks => some db.startBackgroundTasks
  | .drain => some db.drain
  | .reopen closing opening =>
      match db.close closing with
      | .error _ => none
      | .ok (walFile, snapshotFile) =>
          match Db.openFiles db.config db.store.sst opening walFile snapshotFile with
          | .error _ => none
          | .ok db' => some db'

def run (db : Db) (ops : List Op) : Option Db := ops.foldlM step db

/-- No append to the log is cut short, and the save at shutdown succeeds. -/
def FilesOk : Op → Prop
  | .set env .. => env.io = .done
  | .delete env _ => env.io = .done
  | .reopen closing _ => closing.snapshot = true
  | _ => True

/-- The record the call appends when it is acknowledged. -/
def record : Op → Option WalRecord
  | .set _ key value isWorm timestamp => some (.set key value (.written isWorm) timestamp)
  | .delete _ key => some (.delete key)
  | _ => none

/-- The steps of the abstract machine that the step amounts to. -/
def kinds : Op → Kind → Prop
  | .set .., kind => kind = .logged ∨ kind = .checkpoint ∨ kind = .compact
  | .delete .., kind => kind = .logged ∨ kind = .checkpoint ∨ kind = .compact
  | .setUnsafe .., kind => kind = .bypass
  | .deleteUnsafe _, kind => kind = .remove
  | .save _, kind => kind = .checkpoint
  | .compact _, kind => kind = .checkpoint ∨ kind = .compact
  | .startBackgroundTasks, _ => False
  | .drain, _ => False
  | .reopen .., kind => kind = .recover

theorem survived_error {f : Fault} {db db' : Db} (h : survived (.error f, db) = some db') :
    f ≠ .trap ∧ db = db' := by
  cases f with
  | trap => cases h
  | error e => exact ⟨Fault.noConfusion, Option.some.inj h⟩

section
variable {db db' : Db} {env : Env} {key : Bytes}

variable {value : Bytes} {isWorm : Bool}

/-- A set that did not end the process was refused or acknowledged. -/
theorem survived_set (h : StoreOk db.store) {timestamp : UInt64}
    (hset : survived (db.setWithTimestamp env key value isWorm timestamp) = some db') :
    (∃ f, f ≠ .trap ∧ Db.Refused db db' env f) ∨ db.store.wormBlocked key = false ∧
        Db.Acked db env key (some ⟨key, value, timestamp, .written isWorm⟩)
          (Wal.serializeSetRecord key value (.written isWorm) timestamp) db' := by
  have hcases := Db.set_cases h env key value isWorm timestamp
  generalize db.setWithTimestamp env key value isWorm timestamp = result at hcases hset
  obtain ⟨f | u, db₁⟩ := result
  · obtain ⟨hf, rfl⟩ := survived_error hset
    exact .inl ⟨f, hf, hcases⟩
  · obtain rfl : db₁ = db' := Option.some.inj hset
    exact .inr hcases

/-- A delete that did not end the process was refused, or found nothing, or was
acknowledged. -/
theorem survived_delete (h : StoreOk db.store) (hdelete : survived (db.delete env key) = some db') :
    (∃ f, f ≠ .trap ∧ Db.Refused db db' env f) ∨ db' = db ∨
      ∃ e, db.store.entryAt key = some e ∧ e.flags.isWorm = false ∧
        Db.Acked db env key none (Wal.serializeDeleteRecord key) db' := by
  have hcases := Db.delete_cases h env key
  generalize db.delete env key = result at hcases hdelete
  obtain ⟨f | u, db₁⟩ := result
  · obtain ⟨hf, rfl⟩ := survived_error hdelete
    exact .inl ⟨f, hf, hcases⟩
  · obtain rfl : db₁ = db' := Option.some.inj hdelete
    rcases hcases with ⟨-, hsame⟩ | hack
    · exact .inr (.inl hsame)
    · exact .inr (.inr hack)

/-- A call past the log that did not end the process changed nothing, or wrote. -/
theorem survived_setUnsafe (h : StoreOk db.store) {alloc : AllocSite → Bool} {now : UInt64}
    (hset : survived (db.setUnsafe alloc key value isWorm now) = some db') :
    db' = db ∨ db.store.wormBlocked key = false ∧
      Updates db.store db'.store key (some ⟨key, value, now, .written isWorm⟩) ∧
      db' = { db with store := db'.store } := by
  have hcases := Db.setUnsafe_cases h alloc key value isWorm now
  generalize db.setUnsafe alloc key value isWorm now = result at hcases hset
  obtain ⟨f | u, db₁⟩ := result
  · obtain ⟨-, rfl⟩ := survived_error hset
    exact .inl hcases
  · obtain rfl : db₁ = db' := Option.some.inj hset
    exact .inr hcases

end

end Op

/-- The store and its files are at a state of the abstract machine; `records` are
the log's records, in the file or still in the queue. -/
structure Tracks (db : Db) (st : State Bytes Content) (records : List WalRecord) : Prop where
  ok : StoreOk db.store
  mode : db.config.persistence = .full
  started : db.writerStarted = true → db.config.syncWrites = true
  queue : db.writerStarted = false → db.walQueue = []
  live : db.store.view = st.live
  wal : encodeLog records = some (db.walFile ++ db.walQueue.flatten)
  flags : ∀ r ∈ records, r.KnownFlags
  log : writesOf records = st.log
  snap : Restores db.store.sst db.snapshotFile st.snap

section
variable {db db' : Db} {st : State Bytes Content} {records : List WalRecord} {env : Env}

variable {s : Store}

/-- A store on which only the entries changed. -/
theorem Tracks.setLive (h : Tracks db st records) (hok : StoreOk s) (hsst : s.sst = db.store.sst) :
    Tracks { db with store := s } { st with live := s.view } records :=
  ⟨hok, h.mode, h.started, h.queue, rfl, h.wal, h.flags, h.log, hsst ▸ h.snap⟩

/-- A call that changed no entry and no file. -/
theorem Tracks.keeps (h : Tracks db st records) (hs : Keeps db.store s) :
    Tracks { db with store := s } st records :=
  ⟨hs.ok, h.mode, h.started, h.queue, hs.view.trans h.live, h.wal, h.flags, h.log,
    hs.sst ▸ h.snap⟩

variable {bytes : Bytes}

/-- A snapshot of the live entries. -/
theorem Tracks.checkpoint (h : Tracks db st records)
    (hbytes : db.store.encodeSnapshot = some bytes) :
    Tracks { db with snapshotFile := some bytes } { st with snap := st.live } records :=
  ⟨h.ok, h.mode, h.started, h.queue, h.live, h.wal, h.flags, h.log,
    h.live ▸ restores_encodeSnapshot h.ok hbytes _⟩

/-- Compaction is a checkpoint with or without truncation, or nothing. -/
theorem Tracks.compact (h : Tracks db st records)
    (hc : db.maybeSnapshotAndTruncate env = .ok db') :
    ∃ st' records', Reaches Content.isWorm (fun kind => kind = .checkpoint ∨ kind = .compact)
        st st' ∧ Tracks db' st' records' ∧ records' ⊆ records := by
  rcases Db.maybeSnapshotAndTruncate_cases hc with rfl | ⟨hsync, bytes, hbytes, rfl | rfl⟩
  · exact ⟨st, records, Relation.ReflTransGen.refl, h, List.Subset.refl _⟩
  · exact ⟨_, records, .single (.inl rfl) .checkpoint, h.checkpoint hbytes, List.Subset.refl _⟩
  · refine ⟨{ st with snap := st.live, log := [] }, [], .single (.inr rfl) .compact, ?_,
      nil_subset _⟩
    have hcheck := h.checkpoint hbytes
    refine ⟨h.ok, h.mode, h.started, h.queue, h.live, ?_, forall_mem_nil _, rfl, hcheck.snap⟩
    have hdirect : db.writerStarted = false := by
      by_contra hstarted
      rw [h.started (by simpa using hstarted)] at hsync
      cases hsync
    show encodeLog [] = some ([] ++ db.walQueue.flatten)
    rw [h.queue hdirect]
    rfl

/-- The log's bytes with one more record. -/
theorem logged_wal (db : Db) (bytes : Bytes)
    (hq : db.writerStarted = false → db.walQueue = []) :
    (db.logged bytes).walFile ++ (db.logged bytes).walQueue.flatten =
      db.walFile ++ db.walQueue.flatten ++ bytes := by
  unfold Db.logged
  by_cases hstarted : db.writerStarted = true
  · simp [hstarted]
  · simp [hstarted, hq (by simpa using hstarted)]

theorem logged_started (db : Db) (bytes : Bytes) :
    (db.logged bytes).writerStarted = db.writerStarted := by
  unfold Db.logged
  split <;> rfl

theorem logged_queue {db : Db} (bytes : Bytes) (h : db.writerStarted = false) :
    (db.logged bytes).walQueue = db.walQueue := by
  unfold Db.logged
  simp [h]

theorem logged_snapshotFile (db : Db) (bytes : Bytes) :
    (db.logged bytes).snapshotFile = db.snapshotFile := by
  unfold Db.logged
  split <;> rfl

variable {key : Bytes} {e : Option Entry} {r : WalRecord}

/-- A logged write, before compaction. -/
theorem Tracks.wrote (h : Tracks db st records) (hw : Db.Wrote db db' key e bytes)
    (hser : Wal.serializeRecord r = some bytes)
    (hflags : r.KnownFlags) (hr : r.write = some (key, e.map Entry.content)) :
    Tracks db' (st.write key (e.map Entry.content)) (records ++ [r]) := by
  have hlog : writesOf [r] = [(key, e.map Entry.content)] := by simp [writesOf, hr]
  rw [hw.eq]
  exact {
    ok := hw.updates.ok
    mode := (congrArg Config.persistence (db.logged_config bytes)).trans h.mode
    started := fun hs => by
      rw [logged_started] at hs
      rw [Db.logged_config]
      exact h.started hs
    queue := fun hs => by
      rw [logged_started] at hs
      exact (logged_queue bytes hs).trans (h.queue hs)
    live := by
      show db'.store.view = Function.update st.live key _
      rw [hw.updates.view, h.live]
    wal := by
      show encodeLog (records ++ [r]) =
        some ((db.logged bytes).walFile ++ (db.logged bytes).walQueue.flatten)
      rw [logged_wal db bytes h.queue]
      exact encodeLog_append h.wal (encodeLog_singleton hser)
    flags := forall_mem_append.mpr ⟨h.flags, forall_mem_singleton.mpr hflags⟩
    log := by
      show (records ++ [r]).filterMap WalRecord.write = st.log ++ _
      rw [filterMap_append]
      exact congrArg₂ (· ++ ·) h.log hlog
    snap := by
      show Restores db'.store.sst (db.logged bytes).snapshotFile st.snap
      rw [logged_snapshotFile, hw.updates.sst]
      exact h.snap }

/-- **An acknowledged write** is a logged one, perhaps with a checkpoint after it. -/
theorem Tracks.acked (h : Tracks db st records)
    (hack : Db.Acked db env key e (Wal.serializeRecord r) db') (hflags : r.KnownFlags)
    (hr : r.write = some (key, e.map Entry.content)) :
    ∃ st' records', Reaches Content.isWorm (fun kind => kind = .checkpoint ∨ kind = .compact)
        (st.write key (e.map Entry.content)) st' ∧ Tracks db' st' records' ∧
      records' ⊆ records ++ [r] := by
  cases hack with
  | memory hmode => exact absurd h.mode hmode
  | queued _ _ hrecord hwrote =>
    exact ⟨_, _, Relation.ReflTransGen.refl, h.wrote hwrote hrecord hflags hr, List.Subset.refl _⟩
  | direct _ hrecord hwrote hcompact => exact (h.wrote hwrote hrecord hflags hr).compact hcompact

/-- What a step of the store amounts to on the abstract machine. -/
def Advances (st : State Bytes Content) (records : List WalRecord) (op : Op) (db' : Db) : Prop :=
  ∃ st' records', Reaches Content.isWorm op.kinds st st' ∧ Tracks db' st' records' ∧
    ∀ r ∈ records', r ∈ records ∨ op.record = some r

theorem Tracks.advances_refl (h : Tracks db st records) (op : Op) : Advances st records op db :=
  ⟨st, records, Relation.ReflTransGen.refl, h, fun _ hr => .inl hr⟩

variable {op : Op}

theorem Tracks.advances_refused (h : Tracks db st records) {f : Fault}
    (href : Db.Refused db db' env f) (hf : f ≠ .trap) (hio : env.io = .done) :
    Advances st records op db' := by
  rw [href.files hf hio]
  exact (h.keeps (href.keeps hf)).advances_refl op

theorem Tracks.advances_acked (h : Tracks db st records)
    (hkinds : ∀ kind, (kind = .logged ∨ kind = .checkpoint ∨ kind = .compact) → op.kinds kind)
    (hrecord : op.record = some r) (hfree : ¬ Locked Content.isWorm db.store.view key)
    (hack : Db.Acked db env key e (Wal.serializeRecord r) db') (hflags : r.KnownFlags)
    (hr : r.write = some (key, e.map Entry.content)) : Advances st records op db' := by
  obtain ⟨st', records', hreach, htracks, hsub⟩ := h.acked hack hflags hr
  have hlogged : Step Content.isWorm .logged st (st.write key (e.map Entry.content)) :=
    .logged key _ (h.live ▸ hfree)
  refine ⟨st', records', ?_, htracks, fun r' hr' => ?_⟩
  · exact Relation.ReflTransGen.trans (.single ⟨.logged, hkinds _ (.inl rfl), hlogged⟩)
      (hreach.mono (fun kind hkind => hkinds kind (.inr hkind)))
  · rcases mem_append.mp (hsub hr') with hold | hnew
    · exact .inl hold
    · exact .inr (mem_singleton.mp hnew ▸ hrecord)

variable {opening : Db.OpenEnv}

/-- What an open on the files gives. -/
theorem Tracks.opened (h : Tracks db st records)
    (hopen : Db.openFiles db.config db.store.sst opening (db.walFile ++ db.walQueue.flatten)
      db.snapshotFile = .ok db') :
    Tracks db' { st with live := replay Content.isWorm st.snap st.log } records := by
  have hample := openFiles_ample hopen
  by_cases hfit : ∀ r ∈ records, r.Replayable
  · obtain ⟨s, hs, hok, hsst, hview⟩ := openFiles_encodeLog h.mode h.snap h.wal
      h.flags hfit
    cases hample.symm.trans hs
    refine ⟨hok, h.mode, fun hx => absurd hx Bool.false_ne_true, fun _ => rfl, ?_, ?_, h.flags, h.log,
      hsst ▸ h.snap⟩
    · rw [← h.log]
      exact hview
    · show encodeLog records = some (db.walFile ++ db.walQueue.flatten ++ [].flatten)
      rw [flatten_nil, append_nil]
      exact h.wal
  · rw [openFiles_oversize h.mode h.snap h.wal h.flags hfit] at hample
    cases hample

/-- **Every step of the store refines steps of the abstract machine.** -/
theorem Tracks.step (h : Tracks db st records) (hfiles : op.FilesOk)
    (hstep : op.step db = some db') : Advances st records op db' := by
  cases op with
  | set env key value isWorm timestamp =>
    rcases Op.survived_set h.ok hstep with ⟨f, hf, hrefused⟩ | ⟨hfree, hack⟩
    · exact h.advances_refused hrefused hf hfiles
    · exact h.advances_acked (fun _ hk => hk) rfl (wormBlocked_false hfree) hack trivial rfl
  | delete env key =>
    rcases Op.survived_delete h.ok hstep with ⟨f, hf, hrefused⟩ | rfl | ⟨e, hat, hworm, hack⟩
    · exact h.advances_refused hrefused hf hfiles
    · exact h.advances_refl _
    · exact h.advances_acked (fun _ hk => hk) rfl (not_locked_of_entry hat hworm) hack trivial rfl
  | setUnsafe alloc key value isWorm now =>
    rcases Op.survived_setUnsafe h.ok hstep with rfl | ⟨hfree, hupd, heq⟩
    · exact h.advances_refl _
    · have htracks := h.setLive hupd.ok hupd.sst
      -- a bypass writes no record
      rw [hupd.view, h.live, ← heq] at htracks
      exact ⟨_, records, .single rfl (.bypass key _ (h.live ▸ wormBlocked_false hfree)), htracks,
        fun _ hr => .inl hr⟩
  | deleteUnsafe key =>
    cases hstep
    have hupd := h.ok.deleteUnsafe key
    have htracks := h.setLive hupd.ok hupd.sst
    rw [hupd.view, h.live] at htracks
    exact ⟨_, records, .single rfl (.remove key), htracks, fun _ hr => .inl hr⟩
  | save env =>
    simp only [Op.step] at hstep
    generalize hsave : db.save env = result at hstep
    obtain (e | _) | db₁ := result
    · cases hstep
      exact h.advances_refl _
    · cases hstep
    · cases hstep
      -- a snapshot is a checkpoint, and leaves the log alone
      rw [Db.save, h.mode, if_neg (by decide)] at hsave
      obtain ⟨bytes, hbytes, rfl⟩ := Db.writeSnapshot_ok hsave
      exact ⟨_, records, .single rfl .checkpoint, h.checkpoint hbytes, fun _ hr => .inl hr⟩
  | compact env =>
    simp only [Op.step] at hstep
    generalize hcompact : db.maybeSnapshotAndTruncate env = result at hstep
    obtain f | db₁ := result
    · cases hstep
    · cases hstep
      obtain ⟨st', records', hreach, htracks, hsub⟩ := h.compact hcompact
      exact ⟨st', records', hreach, htracks, fun _ hr => .inl (hsub hr)⟩
  | startBackgroundTasks =>
    cases hstep
    refine Tracks.advances_refl ?_ _
    unfold Db.startBackgroundTasks
    split
    · rename_i hon
      exact ⟨h.ok, h.mode, fun _ => hon.2, fun hx => absurd hx.symm Bool.false_ne_true, h.live, h.wal, h.flags, h.log,
        h.snap⟩
    · exact h
  | drain =>
    cases hstep
    refine Tracks.advances_refl ?_ _
    unfold Db.drain
    cases hq : db.walQueue with
    | nil => exact h
    | cons bytes rest =>
      -- a record goes from the queue to the file: the log is the same
      have hwal := h.wal
      rw [hq, flatten_cons, ← append_assoc] at hwal
      refine ⟨h.ok, h.mode, h.started, fun hs => ?_, h.live, hwal, h.flags, h.log, h.snap⟩
      have hnil := h.queue hs
      cases hq.symm.trans hnil
  | reopen closing opening =>
    simp only [Op.step] at hstep
    rw [Db.close_full h.mode closing] at hstep
    simp only [] at hstep
    generalize hopen : Db.openFiles db.config db.store.sst opening
      (db.walFile ++ db.walQueue.flatten) db.snapshotFile = result at hstep
    obtain f | db₁ := result
    · cases hstep
    · cases hstep
      -- what is queued reaches the file before it is read again
      exact ⟨_, records, .single rfl .recover, h.opened hopen, fun _ hr => .inl hr⟩

/-- **A run refines a run of the abstract machine.** -/
theorem Tracks.run (h : Tracks db st records) {ops : List Op} (hfiles : ∀ op ∈ ops, op.FilesOk)
    (hrun : Op.run db ops = some db') :
    ∃ st' records', Reaches Content.isWorm (fun kind => ∃ op ∈ ops, op.kinds kind) st st' ∧
      Tracks db' st' records' ∧ ∀ r ∈ records', r ∈ records ∨ ∃ op ∈ ops, op.record = some r := by
  induction ops generalizing db st records with
  | nil =>
    cases hrun
    exact ⟨st, records, Relation.ReflTransGen.refl, h, fun _ hr => .inl hr⟩
  | cons op ops ih =>
    rw [Op.run, foldlM_cons] at hrun
    obtain ⟨db₁, hstep, hrest⟩ := Option.bind_eq_some_iff.mp hrun
    obtain ⟨hop, hops⟩ := forall_mem_cons.mp hfiles
    obtain ⟨st₁, records₁, hreach₁, htracks₁, hsub₁⟩ := h.step hop hstep
    obtain ⟨st', records', hreach, htracks, hsub⟩ := ih htracks₁ hops hrest
    refine ⟨st', records', ?_, htracks, fun r hr => ?_⟩
    · refine Relation.ReflTransGen.trans (hreach₁.mono ?_) (hreach.mono ?_)
      · intro kind hkind
        exact ⟨op, mem_cons_self, hkind⟩
      · rintro kind ⟨op', hop', hkind⟩
        exact ⟨op', mem_cons_of_mem _ hop', hkind⟩
    · rcases hsub r hr with hr₁ | ⟨op', hop', hrec⟩
      · rcases hsub₁ r hr₁ with hr₀ | hrec
        · exact .inl hr₀
        · exact .inr ⟨op, mem_cons_self, hrec⟩
      · exact .inr ⟨op', mem_cons_of_mem _ hop', hrec⟩

/-- A store opened on no files. -/
theorem Tracks.init {config : Config} {sst : Bytes → Option Bool}
    (hmode : config.persistence = .full)
    (hopen : Db.openFiles config sst opening [] none = .ok db) : Tracks db State.empty [] := by
  obtain ⟨s, hs, hok, -, hview⟩ := openFiles_encodeLog hmode (restores_none sst) encodeLog_nil
    (forall_mem_nil _) (forall_mem_nil _)
  cases (openFiles_ample hopen).symm.trans hs
  exact ⟨hok, hmode, fun hx => absurd hx Bool.false_ne_true, fun _ => rfl, hview, rfl,
    forall_mem_nil _, rfl, restores_none _⟩

/-- **When an open on the files gives given contents**: every record of the log can
be read back, and replaying them over the snapshot gives these contents. -/
theorem Tracks.opens_iff (h : Tracks db st records) (contents : Bytes → Option Content) :
    (∃ db', Db.openFiles db.config db.store.sst .ample (db.walFile ++ db.walQueue.flatten)
        db.snapshotFile = .ok db' ∧ db'.store.view = contents) ↔
      (∀ r ∈ records, r.Replayable) ∧ replay Content.isWorm st.snap st.log = contents := by
  constructor
  · rintro ⟨db', hopen, rfl⟩
    refine ⟨?_, (h.opened hopen).live.symm⟩
    by_contra hbig
    rw [openFiles_oversize h.mode h.snap h.wal h.flags hbig] at hopen
    cases hopen
  · rintro ⟨hfit, rfl⟩
    obtain ⟨s, hs, -, -, hview⟩ := openFiles_encodeLog h.mode h.snap h.wal h.flags hfit
    exact ⟨_, hs, by rw [← h.log]; exact hview⟩

end

end WormDB
