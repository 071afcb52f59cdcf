import WormDB.Database
import WormDB.WalImage

/-! # Opening a store on its files

What `openFiles` restores from a snapshot file and a log image: the log replayed
over the snapshot (`openFiles_encodeLog`), or nothing when a record of the log is
too long to be read back (`openFiles_oversize`).

Memory decides only whether an open succeeds, not what it gives
(`openFiles_ample`), so the results are stated for `OpenEnv.ample`, where there
is always enough. -/
namespace WormDB
open ByteCodec GuardedReplay Store

def ample : AllocSite → Bool := fun _ => true

theorem ample_all : ∀ (n : Nat) (site : AllocSite), (fun _ : Nat => ample) n site = true :=
  fun _ _ => rfl

def Db.OpenEnv.ample : Db.OpenEnv := ⟨fun _ => WormDB.ample, fun _ => WormDB.ample⟩

/-! ## More memory gives the same store -/

section
variable {s s' : Store}

theorem shardPutLocked_ample {alloc : AllocSite → Bool} {i : Fin shardCount} {p : Ptr}
    (h : s.shardPutLocked alloc i p = .ok s') : s.shardPutLocked ample i p = .ok s' := by
  have hreserve : s.shardReservePutLocked ample i (keyAt s.mem p) = .ok () := by
    simp [shardReservePutLocked, ample]
  rw [shardPutLocked, hreserve]
  rw [shardPutLocked] at h
  cases hr : s.shardReservePutLocked alloc i (keyAt s.mem p) with
  | error f =>
    rw [hr] at h
    cases h
  | ok u =>
    rw [hr] at h
    exact h

variable {bytes rest : Bytes}

theorem loadEntry_ample {alloc : AllocSite → Bool}
    (h : s.loadEntry alloc bytes = (.ok rest, s')) : s.loadEntry ample bytes = (.ok rest, s') := by
  unfold loadEntry at h ⊢
  cases hheader : splitBytes snapshotHeaderLen bytes with
  | none =>
    rw [hheader] at h
    cases h
  | some header =>
    rw [hheader] at h
    simp only [ample, Bool.not_true, Bool.false_eq_true, if_false] at h ⊢
    split at h
    · cases h
    cases hkey : splitBytes (leNat (slice header.1 0 4)) header.2 with
    | none =>
      rw [hkey] at h
      cases h
    | some key =>
      rw [hkey] at h
      simp only [] at h ⊢
      split at h
      · cases h
      cases hvalue : splitBytes (leNat (slice header.1 4 4)) key.2 with
      | none =>
        rw [hvalue] at h
        cases h
      | some value =>
        rw [hvalue] at h
        simp only [] at h ⊢
        split at h
        · cases h
        generalize hcreate : s.create _ = created at h ⊢
        cases hput : created.2.shardPutLocked alloc (shardIndex key.1) created.1 with
        | error f =>
          rw [hput] at h
          cases h
        | ok s'' =>
          rw [hput] at h
          rw [shardPutLocked_ample hput]
          exact h

variable {alloc : Nat → AllocSite → Bool} {n : Nat}

theorem loadEntries_ample {count : Nat}
    (h : loadEntries alloc count n bytes s = (.ok rest, s')) :
    loadEntries (fun _ => ample) count n bytes s = (.ok rest, s') := by
  induction count generalizing s n bytes with
  | zero => exact h
  | succ count ih =>
    rw [loadEntries] at h ⊢
    generalize hentry : s.loadEntry (alloc n) bytes = result at h
    obtain ⟨f | rest', s₁⟩ := result
    · cases h
    · rw [loadEntry_ample hentry]
      exact ih h

theorem loadSnapshot_ample {file : Option Bytes}
    (h : loadSnapshot alloc file s = (.ok (), s')) :
    loadSnapshot (fun _ => ample) file s = (.ok (), s') := by
  unfold loadSnapshot at h ⊢
  cases file with
  | none => exact h
  | some bytes =>
    simp only [] at h ⊢
    split at h
    · rename_i hempty
      rw [if_pos hempty]
      exact h
    rename_i hempty
    rw [if_neg hempty]
    split at h
    · cases h
    cases hheader : loadHeader bytes with
    | none =>
      rw [hheader] at h
      cases h
    | some header =>
      rw [hheader] at h
      simp only [] at h
      split at h
      · cases h
      generalize hload : loadEntries alloc header.1 1 header.2 s = result at h
      obtain ⟨f | rest, s₁⟩ := result
      · cases h
      · simp only [ample, Bool.not_true, Bool.false_eq_true, if_false, Bool.and_self]
        rw [loadEntries_ample hload]
        exact h

theorem replayRecord_ample {alloc : AllocSite → Bool} {r : WalRecord}
    (h : s.replayRecord alloc r = (.ok (), s')) : s.replayRecord ample r = (.ok (), s') := by
  cases r with
  | set key value flags timestamp =>
    unfold replayRecord at h ⊢
    simp only [ample, if_true] at h ⊢
    by_cases hl : s.liveWorm key = true
    · simp only [if_pos hl] at h ⊢
      exact h
    · simp only [if_neg hl] at h ⊢
      split at h
      · cases hput : (s.create ⟨key, value, timestamp, flags⟩).2.shardPutLocked alloc
          (shardIndex key) (s.create ⟨key, value, timestamp, flags⟩).1 with
        | error f =>
          rw [hput] at h
          cases h
        | ok s'' =>
          rw [hput] at h
          rw [shardPutLocked_ample hput]
          exact h
      · cases h
  | delete key => exact h
  | vinsert | vdelete => exact h

theorem replayLoop_ample {fuel : Nat} (h : replayLoop alloc fuel n bytes s = (.ok (), s')) :
    replayLoop (fun _ => ample) fuel n bytes s = (.ok (), s') := by
  induction fuel generalizing s n bytes with
  | zero => exact h
  | succ fuel ih =>
    rw [replayLoop] at h ⊢
    cases hnext : Wal.next bytes with
    | done =>
      rw [hnext] at h
      exact h
    | corruption | trap =>
      rw [hnext] at h
      cases h
    | record r rest =>
      rw [hnext] at h
      simp only [] at h ⊢
      split at h
      · generalize hrec : s.replayRecord (alloc n) r = result at h
        obtain ⟨f | u, s₁⟩ := result
        · cases h
        · rw [replayRecord_ample hrec]
          exact ih h
      · cases h

end

variable {config : Config} {sst : Bytes → Option Bool} {env : Db.OpenEnv} {walFile : Bytes}
  {snapshotFile : Option Bytes} {db : Db}

/-- **A successful open does not depend on the allocator.** -/
theorem openFiles_ample (h : Db.openFiles config sst env walFile snapshotFile = .ok db) :
    Db.openFiles config sst .ample walFile snapshotFile = .ok db := by
  unfold Db.openFiles at h ⊢
  cases hmode : config.persistence with
  | none =>
    rw [hmode] at h
    exact h
  | snapshot =>
    rw [hmode] at h
    simp only [] at h ⊢
    generalize hload : loadSnapshot env.load snapshotFile (init sst) = result at h
    obtain ⟨f | u, s⟩ := result
    · cases h
    · rw [Db.OpenEnv.ample, loadSnapshot_ample hload]
      exact h
  | full =>
    rw [hmode] at h
    simp only [] at h ⊢
    generalize hload : loadSnapshot env.load snapshotFile (init sst) = result at h
    obtain ⟨f | u, s⟩ := result
    · cases h
    · simp only [] at h
      generalize hreplay : replayWal env.replay walFile s = result at h
      obtain ⟨f | u, s'⟩ := result
      · cases h
      · have hreplay' : replayWal (fun _ => ample) walFile s = (.ok (), s') :=
          replayLoop_ample hreplay
        rw [Db.OpenEnv.ample, loadSnapshot_ample hload]
        simp only [hreplay']
        exact h

/-- **What is recovered does not depend on memory:** an open that is short of it fails, or gives the
store that the files have for every other.  No vector registry is attached. -/
theorem open_unique (config : Config) (sst : Bytes → Option Bool) (walFile : Bytes)
    (snapshotFile : Option Bytes) (env env' : Db.OpenEnv) :
    match Db.openFiles config sst env walFile snapshotFile,
      Db.openFiles config sst env' walFile snapshotFile with
    | .ok db, .ok db' => db = db'
    | _, _ => True := by
  split
  · rename_i hopen hopen'
    exact Except.ok.inj ((openFiles_ample hopen).symm.trans (openFiles_ample hopen'))
  · trivial

/-! ## What an open gives -/

/-- Whatever the files hold, a store that opens is well formed. -/
theorem openFiles_ok (h : Db.openFiles config sst env walFile snapshotFile = .ok db) :
    StoreOk db.store ∧ db.config = config ∧ db.store.sst = sst := by
  obtain ⟨hload, hloadSst⟩ := (init_ok sst).loadSnapshot env.load snapshotFile
  unfold Db.openFiles at h
  cases hmode : config.persistence with
  | none =>
    rw [hmode] at h
    cases h
    exact ⟨init_ok sst, rfl, rfl⟩
  | snapshot =>
    rw [hmode] at h
    simp only [] at h
    generalize loadSnapshot env.load snapshotFile (init sst) = result at h hload hloadSst
    obtain ⟨f | u, s⟩ := result
    · cases h
    · cases h
      exact ⟨hload, rfl, hloadSst⟩
  | full =>
    rw [hmode] at h
    simp only [] at h
    generalize loadSnapshot env.load snapshotFile (init sst) = result at h hload hloadSst
    obtain ⟨f | u, s⟩ := result
    · cases h
    · obtain ⟨hreplay, hreplaySst⟩ := hload.replayWal env.replay walFile
      simp only [] at h
      generalize replayWal env.replay walFile s = result at h hreplay hreplaySst
      obtain ⟨f | u, s'⟩ := result
      · cases h
      · cases h
        exact ⟨hreplay, rfl, hreplaySst.trans hloadSst⟩

/-- The snapshot file loads, with these contents. -/
def Restores (sst : Bytes → Option Bool) (snapshotFile : Option Bytes)
    (contents : Bytes → Option Content) : Prop :=
  ∃ s, loadSnapshot (fun _ => ample) snapshotFile (init sst) = (.ok (), s) ∧
    StoreOk s ∧ s.sst = sst ∧ s.view = contents

theorem init_view (sst : Bytes → Option Bool) : (init sst).view = fun _ => none := by
  funext k
  rw [view, init_entryAt]
  rfl

theorem restores_none (sst : Bytes → Option Bool) : Restores sst none (fun _ => none) :=
  ⟨init sst, rfl, init_ok sst, rfl, init_view sst⟩

theorem restores_encodeSnapshot {s : Store} (h : StoreOk s) {bytes : Bytes}
    (hbytes : s.encodeSnapshot = some bytes) (sst : Bytes → Option Bool) :
    Restores sst (some bytes) s.view := by
  obtain ⟨s', hload, hok, hsst, hview⟩ := loadSnapshot_encodeSnapshot h ample_all hbytes sst
  exact ⟨s', hload, hok, hsst, funext hview⟩

section
variable {config : Config} {sst : Bytes → Option Bool} {walFile : Bytes}
  {snapshotFile : Option Bytes} {snap : Bytes → Option Content}

/-- The store an open gives, with its files. -/
def Db.opened (config : Config) (walFile : Bytes) (snapshotFile : Option Bytes) (store : Store) :
    Db :=
  ⟨config, store, walFile, [], false, walFile.length, false, snapshotFile⟩

theorem openFiles_snapshot (hmode : config.persistence = .snapshot)
    (hsnap : Restores sst snapshotFile snap) :
    ∃ s, Db.openFiles config sst .ample walFile snapshotFile =
        .ok (Db.opened config walFile snapshotFile s) ∧
      StoreOk s ∧ s.sst = sst ∧ s.view = snap := by
  obtain ⟨s, hload, hok, hsst, hview⟩ := hsnap
  refine ⟨s, ?_, hok, hsst, hview⟩
  rw [Db.openFiles, hmode]
  simp only [Db.OpenEnv.ample, hload]
  rfl

variable {s s' : Store}

section
variable (hmode : config.persistence = .full)
include hmode

theorem openFiles_full
    (hload : loadSnapshot (fun _ => ample) snapshotFile (init sst) = (.ok (), s))
    (hreplay : replayWal (fun _ => ample) walFile s = (.ok (), s')) :
    Db.openFiles config sst .ample walFile snapshotFile =
      .ok (Db.opened config walFile snapshotFile s') := by
  rw [Db.openFiles, hmode]
  simp only [Db.OpenEnv.ample, hload, hreplay]
  rfl

theorem openFiles_full_error {f : Fault}
    (hload : loadSnapshot (fun _ => ample) snapshotFile (init sst) = (.ok (), s))
    (hreplay : replayWal (fun _ => ample) walFile s = (.error f, s')) :
    Db.openFiles config sst .ample walFile snapshotFile = .error f := by
  rw [Db.openFiles, hmode]
  simp only [Db.OpenEnv.ample, hload, hreplay]

/-- The two phases of an open that succeeded. -/
theorem openFiles_full_phases (hopen : Db.openFiles config sst env walFile snapshotFile = .ok db) :
    ∃ s s', loadSnapshot (fun _ => ample) snapshotFile (init sst) = (.ok (), s) ∧
      StoreOk s ∧ s.sst = sst ∧ replayWal (fun _ => ample) walFile s = (.ok (), s') ∧
      db = Db.opened config walFile snapshotFile s' := by
  have hample := openFiles_ample hopen
  obtain ⟨hok, hsst⟩ := (init_ok sst).loadSnapshot (fun _ => ample) snapshotFile
  rw [Db.openFiles, hmode] at hample
  simp only [Db.OpenEnv.ample] at hample
  generalize hload : loadSnapshot (fun _ => ample) snapshotFile (init sst) =
    result at hample hok hsst
  obtain ⟨f | u, s⟩ := result
  · cases hample
  · simp only [] at hample
    generalize hreplay : replayWal (fun _ => ample) walFile s = result at hample
    obtain ⟨f | u, s'⟩ := result
    · cases hample
    · exact ⟨s, s', rfl, hok, hsst, hreplay, (Except.ok.inj hample).symm⟩

end

variable {log : List WalRecord}

/-- **Opening on a log image** replays it over the snapshot. -/
theorem openFiles_encodeLog (hmode : config.persistence = .full)
    (hsnap : Restores sst snapshotFile snap)
    (henc : encodeLog log = some walFile) (hflags : ∀ r ∈ log, r.KnownFlags)
    (hfit : ∀ r ∈ log, r.Replayable) : ∃ s, Db.openFiles config sst .ample walFile snapshotFile =
        .ok (Db.opened config walFile snapshotFile s) ∧
      StoreOk s ∧ s.sst = sst ∧ s.view = replay Content.isWorm snap (writesOf log) := by
  obtain ⟨s, hload, hok, hsst, hview⟩ := hsnap
  obtain ⟨s', hreplay, hok', hsst', hview'⟩ :=
    hok.replayWal_encodeLog ample_all henc hflags hfit
  exact ⟨s', openFiles_full hmode hload hreplay, hok', hsst'.trans hsst, by rw [hview', hview]⟩

/-- **A record that is too long fails the open.** -/
theorem openFiles_oversize (hmode : config.persistence = .full)
    (hsnap : Restores sst snapshotFile snap)
    (henc : encodeLog log = some walFile) (hflags : ∀ r ∈ log, r.KnownFlags)
    (hbig : ¬ ∀ r ∈ log, r.Replayable) :
    Db.openFiles config sst .ample walFile snapshotFile = .error (.error .corruption) := by
  obtain ⟨s, hload, hok, -, -⟩ := hsnap
  obtain ⟨s', hreplay⟩ := hok.replayWal_oversize ample_all henc hflags hbig []
  rw [List.append_nil] at hreplay
  exact openFiles_full_error hmode hload hreplay

end

end WormDB
