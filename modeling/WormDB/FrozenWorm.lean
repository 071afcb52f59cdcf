import WormDB.Durability
import WormDB.ScanView

/-! # Frozen WORM entries

A store is constructed from its files, segments are mounted on it, and then it serves
writes and deletes.  A write to a key without a live entry is refused when the mounts
have the key as WORM, so such a key does not come to life.

Mounting does not look at what is live, nor at the other mounts.  A key that is live
when a segment with it is mounted stays visible over the frozen entry, also when that is
WORM; and of a key in two mounts the earlier one decides.  `Clean` says that a mount
meets neither, and then every state reached reads the frozen value of every WORM key
(`frozen_worm_read`). -/
namespace WormDB
open List ByteCodec

/-- A running store and its mounts, in their order. -/
structure Served where
  db : Db
  segs : List Segment

/-- What happens to it. -/
inductive ServeOp where
  | attachSst (seg : Segment)
  | set (env : Env) (key value : Bytes) (isWorm : Bool) (timestamp : UInt64)
  | setUnsafe (alloc : AllocSite → Bool) (key value : Bytes) (isWorm : Bool) (now : UInt64)
  | delete (env : Env) (key : Bytes)
  | deleteUnsafe (key : Bytes)

namespace Served

/-- The store looks at the mounts through its overlay. -/
def overlayOf (segs : List Segment) (key : Bytes) : Option Bool :=
  (frozenHit segs key).map Hit.isWorm

/-- A mount beyond the room is dropped. -/
def attachSst (st : Served) (seg : Segment) : Served :=
  if maxSsts ≤ st.segs.length then st
  else
    let segs := st.segs ++ [seg]
    ⟨{ st.db with store := { st.db.store with sst := overlayOf segs } }, segs⟩

/-- The next state: none when the process ends. -/
def step (st : Served) : ServeOp → Option Served
  | .attachSst seg => some (st.attachSst seg)
  | .set env key value isWorm timestamp =>
      (Op.survived (st.db.setWithTimestamp env key value isWorm timestamp)).map (⟨·, st.segs⟩)
  | .setUnsafe alloc key value isWorm now =>
      (Op.survived (st.db.setUnsafe alloc key value isWorm now)).map (⟨·, st.segs⟩)
  | .delete env key => (Op.survived (st.db.delete env key)).map (⟨·, st.segs⟩)
  | .deleteUnsafe key => some ⟨st.db.deleteUnsafe key, st.segs⟩

end Served

/-- Of a key in both, the earlier mount decides what the later one says of it as WORM:
both have the same value, and the earlier one is WORM if one of them is. -/
def Compatible (earlier later : Segment) : Prop :=
  ∀ key a b, earlier.hit key = some a → later.hit key = some b →
    a.isWorm = true ∨ b.isWorm = true → a.isWorm = true ∧ a.value = b.value

/-- The condition on a step: what is mounted has no live key as WORM, and is compatible
with the mounts before it. -/
def Clean (st : Served) : ServeOp → Prop
  | .attachSst seg => st.segs.length < maxSsts →
      (∀ key hit, seg.hit key = some hit → hit.isWorm = true →
        st.db.store.entryAt key = none) ∧
      ∀ earlier ∈ st.segs, Compatible earlier seg
  | _ => True

/-- Steps that all meet the condition. -/
inductive CleanRun : Served → List ServeOp → Served → Prop where
  | nil (st : Served) : CleanRun st [] st
  | cons {st st' st'' : Served} {op : ServeOp} {ops : List ServeOp} (hclean : Clean st op)
      (hstep : st.step op = some st') (hrest : CleanRun st' ops st'') :
      CleanRun st (op :: ops) st''

/-- Every key that some mount has as WORM is read with the frozen value. -/
def Overlay.ReadsFrozenWorm (o : Overlay) : Prop :=
  ∀ seg ∈ o.segs, ∀ key hit, seg.hit key = some hit → hit.isWorm = true →
    o.getValueDupe key = some (some hit.value) ∧
    ∀ sort p limit rs, Overlay.scanPrefix sort o p limit = some rs ∨
        Overlay.scanPrefixFirst sort o p limit = some rs →
      (∀ r ∈ rs, r.key = key → r.value = hit.value) ∧
      (limit = 0 → p <+: key → ∃ r ∈ rs, r.key = key)

/-! ## The invariant -/

/-- What every clean run keeps. -/
structure FrozenOk (st : Served) : Prop where
  ok : StoreOk st.db.store
  room : st.segs.length ≤ maxSsts
  agrees : ∀ key, st.db.store.sst key = Served.overlayOf st.segs key
  compatible : st.segs.Pairwise Compatible
  dead : ∀ seg ∈ st.segs, ∀ key hit, seg.hit key = some hit → hit.isWorm = true →
    st.db.store.entryAt key = none

variable {segs : List Segment} {key : Bytes}

/-- The first mount that has a WORM key is WORM too, with the same value. -/
theorem frozenHit_of_compatible (h : segs.Pairwise Compatible)
    {seg : Segment} (hseg : seg ∈ segs) {hit : Hit}
    (hhit : seg.hit key = some hit) (hworm : hit.isWorm = true) :
    ∃ first, frozenHit segs key = some first ∧ first.isWorm = true ∧ first.value = hit.value := by
  induction segs with
  | nil => cases hseg
  | cons a segs ih =>
    obtain ⟨ha, hsegs⟩ := pairwise_cons.mp h
    rw [frozenHit_cons]
    rcases mem_cons.mp hseg with rfl | hseg
    · rw [hhit]
      exact ⟨hit, rfl, hworm, rfl⟩
    · cases hfirst : a.hit key with
      | some first =>
        obtain ⟨hfworm, hvalue⟩ := ha seg hseg key first hit hfirst hhit (.inr hworm)
        exact ⟨first, rfl, hfworm, hvalue⟩
      | none =>
        rw [Option.none_or]
        exact ih hsegs hseg

/-- All mounts with a WORM key have the same value under it. -/
theorem value_of_compatible (h : segs.Pairwise Compatible)
    {a b : Segment} (ha : a ∈ segs) (hb : b ∈ segs) {x y : Hit}
    (hx : a.hit key = some x) (hy : b.hit key = some y) (hworm : x.isWorm = true) :
    x.value = y.value := by
  obtain ⟨i, hi, rfl⟩ := getElem_of_mem ha
  obtain ⟨j, hj, rfl⟩ := getElem_of_mem hb
  rcases Nat.lt_trichotomy i j with hlt | rfl | hgt
  · exact (pairwise_iff_getElem.mp h i j hi hj hlt key x y hx hy (.inl hworm)).2
  · rw [Option.some.inj (hx.symm.trans hy)]
  · exact (pairwise_iff_getElem.mp h j i hj hi hgt key y x hy hx (.inr hworm)).2.symm

/-- The overlay of a state. -/
def FrozenOk.overlay {st : Served} (h : FrozenOk st) : Overlay :=
  ⟨st.db.store, st.segs, h.ok, h.room, h.agrees⟩

/-- **The invariant gives the reads.** -/
theorem FrozenOk.reads {st : Served} (h : FrozenOk st) : h.overlay.ReadsFrozenWorm := by
  intro seg hseg key hit hhit hworm
  have hdead : h.overlay.store.entryAt key = none := h.dead seg hseg key hit hhit hworm
  obtain ⟨first, hfirst, -, hvalue⟩ := frozenHit_of_compatible h.compatible hseg hhit hworm
  refine ⟨?_, ?_⟩
  · rw [Overlay.getValueDupe_eq, Overlay.visible, hdead]
    simp only [show frozenHit h.overlay.segs key = some first from hfirst, Option.map_some,
      Hit.content, hvalue]
  · intro sort p limit rs hscan
    obtain ⟨cut, hcut⟩ : ∃ cut, Overlay.scanPrefixCut sort h.overlay p limit cut = some rs := by
      rcases hscan with hscan | hscan
      · exact ⟨.last, hscan⟩
      · exact ⟨.first, hscan⟩
    obtain ⟨heap, hheap, hbest⟩ := h.overlay.scanPrefixCut_best p sort limit cut
    obtain rfl : sort.run heap = rs := Option.some.inj (hheap.symm.trans hcut)
    refine ⟨?_, ?_⟩
    · intro r hr hkey
      have hmem : r ∈ h.overlay.collected p := by
        obtain ⟨rest, hperm, -, -⟩ := hbest.split
        exact hperm.mem_iff.mp (mem_append_left _ ((sort.perm heap).mem_iff.mp hr))
      rcases mem_append.mp hmem with hfrozen | hlive
      · obtain ⟨seg', hseg', hr'⟩ := mem_flatMap.mp hfrozen
        obtain ⟨-, -, hit', hhit', rfl⟩ := (h.overlay.mem_unshadowed p).mp hr'
        rw [hkey] at hhit'
        exact (value_of_compatible h.compatible hseg hseg' hhit hhit' hworm).symm
      · obtain ⟨-, e, hat, -⟩ := h.overlay.mem_live.mp hlive
        rw [hkey, hdead] at hat
        cases hat
    · rintro rfl hp
      have hkey : hit.key = key := by simpa using find?_some hhit
      refine ⟨hit.result, ?_, hkey⟩
      refine (sort.perm heap).mem_iff.mpr (hbest.perm_of_zero.mem_iff.mpr ?_)
      refine mem_append_left _ (mem_flatMap.mpr ⟨seg, hseg, ?_⟩)
      refine (h.overlay.mem_unshadowed p).mpr ?_
      rw [show hit.result.key = key from hkey]
      exact ⟨hp, hdead, hit, hhit, rfl⟩

/-! ## Steps -/

/-- A step of the store that changes no blocked key. -/
structure KeepsBlocked (db db' : Db) : Prop where
  ok : StoreOk db'.store
  sst : db'.store.sst = db.store.sst
  blocked : ∀ key, db.store.entryAt key = none → db.store.wormBlocked key = true →
    db'.store.entryAt key = none

variable {db db' : Db}

theorem KeepsBlocked.of_keeps (h : Keeps db.store db'.store) : KeepsBlocked db db' :=
  ⟨h.ok, h.sst, fun key hnone _ => (h.entryAt key).trans hnone⟩

theorem KeepsBlocked.of_updates {e : Option Entry}
    (h : Updates db.store db'.store key e) (hfree : e = none ∨ db.store.wormBlocked key = false) :
    KeepsBlocked db db' := by
  refine ⟨h.ok, h.sst, fun k hnone hblocked => ?_⟩
  rw [h.entryAt]
  split
  · rename_i hk
    rcases hfree with rfl | hfree
    · rfl
    · rw [← hk, hblocked] at hfree
      cases hfree
  · exact hnone

variable {env : Env} {value : Bytes} {isWorm : Bool}

theorem setWithTimestamp_keepsBlocked (h : StoreOk db.store) {timestamp : UInt64}
    (hset : Op.survived (db.setWithTimestamp env key value isWorm timestamp) = some db') :
    KeepsBlocked db db' := by
  rcases Op.survived_set h hset with ⟨f, hf, hrefused⟩ | ⟨hfree, hack⟩
  · exact .of_keeps (hrefused.keeps hf)
  · exact .of_updates hack.ok (.inr hfree)

theorem setUnsafe_keepsBlocked (h : StoreOk db.store) {alloc : AllocSite → Bool} {now : UInt64}
    (hset : Op.survived (db.setUnsafe alloc key value isWorm now) = some db') :
    KeepsBlocked db db' := by
  rcases Op.survived_setUnsafe h hset with rfl | ⟨hfree, hupd, -⟩
  · exact .of_keeps (Keeps.refl h)
  · exact .of_updates hupd (.inr hfree)

theorem delete_keepsBlocked (h : StoreOk db.store)
    (hdelete : Op.survived (db.delete env key) = some db') : KeepsBlocked db db' := by
  rcases Op.survived_delete h hdelete with ⟨f, hf, hrefused⟩ | rfl | ⟨e, -, -, hack⟩
  · exact .of_keeps (hrefused.keeps hf)
  · exact .of_keeps (Keeps.refl h)
  · exact .of_updates hack.ok (.inl rfl)

section
variable {st st' : Served}

variable {seg : Segment}

section
variable (h : FrozenOk st)
include h

/-- A WORM key of the mounts is blocked while it is not live. -/
theorem FrozenOk.wormBlocked (hseg : seg ∈ st.segs) {hit : Hit}
    (hhit : seg.hit key = some hit) (hworm : hit.isWorm = true) :
    st.db.store.wormBlocked key = true := by
  have hdead := h.dead seg hseg key hit hhit hworm
  obtain ⟨first, hfirst, hfworm, -⟩ := frozenHit_of_compatible h.compatible hseg hhit hworm
  rw [Store.wormBlocked, show (st.db.store.get key).bind st.db.store.mem = none from hdead]
  simp only [h.agrees, Served.overlayOf, hfirst, Option.map_some, hfworm, decide_true]

theorem FrozenOk.of_keepsBlocked (hkeeps : KeepsBlocked st.db db') :
    FrozenOk ⟨db', st.segs⟩ where
  ok := hkeeps.ok
  room := h.room
  agrees := by
    intro key
    rw [hkeeps.sst]
    exact h.agrees key
  compatible := h.compatible
  dead := by
    intro seg hseg key hit hhit hworm
    exact hkeeps.blocked key (h.dead seg hseg key hit hhit hworm)
      (h.wormBlocked hseg hhit hworm)

theorem FrozenOk.attachSst (hclean : Clean st (.attachSst seg)) : FrozenOk (st.attachSst seg) := by
  unfold Served.attachSst
  by_cases hfull : maxSsts ≤ st.segs.length
  · rw [if_pos hfull]
    exact h
  · rw [if_neg hfull]
    obtain ⟨hdead, hcompatible⟩ := hclean (Nat.not_le.mp hfull)
    refine ⟨⟨h.ok.shards, h.ok.count, h.ok.fresh⟩, ?_, fun _ => rfl, ?_, ?_⟩
    · rw [length_append, length_singleton]
      omega
    · refine pairwise_append.mpr ⟨h.compatible, pairwise_singleton _ _, ?_⟩
      intro earlier hearlier later hlater
      rw [mem_singleton.mp hlater]
      exact hcompatible earlier hearlier
    · intro seg' hseg' key hit hhit hworm
      rcases mem_append.mp hseg' with hold | hnew
      · exact h.dead seg' hold key hit hhit hworm
      · rw [mem_singleton.mp hnew] at hhit
        exact hdead key hit hhit hworm

/-- **One step keeps the invariant.** -/
theorem FrozenOk.step {op : ServeOp} (hclean : Clean st op)
    (hstep : st.step op = some st') : FrozenOk st' := by
  cases op with
  | attachSst seg =>
    cases hstep
    exact h.attachSst hclean
  | set env key value isWorm timestamp =>
    obtain ⟨db', hset, rfl⟩ := Option.map_eq_some_iff.mp hstep
    exact h.of_keepsBlocked (setWithTimestamp_keepsBlocked h.ok hset)
  | setUnsafe alloc key value isWorm now =>
    obtain ⟨db', hset, rfl⟩ := Option.map_eq_some_iff.mp hstep
    exact h.of_keepsBlocked (setUnsafe_keepsBlocked h.ok hset)
  | delete env key =>
    obtain ⟨db', hdelete, rfl⟩ := Option.map_eq_some_iff.mp hstep
    exact h.of_keepsBlocked (delete_keepsBlocked h.ok hdelete)
  | deleteUnsafe key =>
    cases hstep
    exact h.of_keepsBlocked (.of_updates (h.ok.deleteUnsafe key) (.inl rfl))

/-- **A whole run keeps the invariant.** -/
theorem FrozenOk.run {ops : List ServeOp} (hrun : CleanRun st ops st') : FrozenOk st' := by
  induction hrun with
  | nil => exact h
  | cons hclean hstep _ ih => exact ih (h.step hclean hstep)

end

end

/-- A store right after its construction. -/
theorem FrozenOk.opened {config : Config} {env : Db.OpenEnv} {walFile : Bytes}
    {snapshotFile : Option Bytes}
    (hopen : Db.openFiles config (fun _ => none) env walFile snapshotFile = .ok db) :
    FrozenOk ⟨db, []⟩ := by
  obtain ⟨hok, -, hsst⟩ := openFiles_ok hopen
  refine ⟨hok, Nat.zero_le _, ?_, Pairwise.nil, ?_⟩
  · intro key
    rw [hsst]
    rfl
  · intro seg hseg
    cases hseg

/-- **In every run whose mounts are clean**, from a store opened on any files, every state
reached reads every frozen WORM key with its frozen value. -/
theorem frozen_worm_read {config : Config} {env : Db.OpenEnv} {walFile : Bytes}
    {snapshotFile : Option Bytes} {db : Db}
    (hopen : Db.openFiles config (fun _ => none) env walFile snapshotFile = .ok db)
    {ops : List ServeOp} {st : Served} (hrun : CleanRun ⟨db, []⟩ ops st) :
    ∃ o : Overlay, o.store = st.db.store ∧ o.segs = st.segs ∧ o.ReadsFrozenWorm := by
  have hok := (FrozenOk.opened hopen).run hrun
  exact ⟨hok.overlay, rfl, rfl, hok.reads⟩

/-- A store without files and without entries. -/
def emptyDb : Db := Db.opened ⟨.none, false, 0⟩ [] none (Store.init fun _ => none)

/-- Mounted on an empty store, a WORM key keeps its value through a write. -/
theorem mounted_worm_kept : ∃ (seg : Segment) (st : Served) (o : Overlay),
    seg.hits = [⟨[1], [10], 0, true⟩] ∧
      CleanRun ⟨emptyDb, []⟩ [.attachSst seg, .setUnsafe ample [1] [99] false 7] st ∧
      o.store = st.db.store ∧ o.segs = st.segs ∧ o.getValueDupe [1] = some (some [10]) := by
  obtain ⟨seg, hseg⟩ := exists_oneEntry [1] [10] true (by decide) (by decide)
  have hhit : seg.hit [1] = some ⟨[1], [10], 0, true⟩ := by
    rw [Segment.hit, hseg]
    rfl
  obtain ⟨st, hst⟩ : ∃ st, (⟨emptyDb, []⟩ : Served).attachSst seg = st := ⟨_, rfl⟩
  have hsegs : st.segs = [seg] := by
    rw [← hst]
    rfl
  have hblocked : st.db.store.wormBlocked [1] = true := by
    rw [← hst]
    simp [Served.attachSst, maxSsts, emptyDb, Db.opened, Store.wormBlocked, Store.get, Store.init,
      Shard.get, Shard.empty, Served.overlayOf, frozenHit_cons, hhit]
  have hset : st.step (.setUnsafe ample [1] [99] false 7) = some st := by
    simp only [Served.step, Db.setUnsafe, Store.setUnsafe, Store.setInternalLockedNoWal, hblocked,
      if_true]
    rfl
  have hclean : Clean ⟨emptyDb, []⟩ (.attachSst seg) :=
    fun _ => ⟨fun key hit _ _ => rfl, fun earlier hearlier => by cases hearlier⟩
  have hrun : CleanRun ⟨emptyDb, []⟩ [.attachSst seg, .setUnsafe ample [1] [99] false 7] st :=
    .cons hclean (congrArg some hst) (.cons trivial hset (.nil st))
  have hopen : Db.openFiles ⟨.none, false, 0⟩ (fun _ => none) .ample [] none = .ok emptyDb := rfl
  obtain ⟨o, hstore, ho, hreads⟩ := frozen_worm_read hopen hrun
  refine ⟨seg, st, o, hseg, hrun, hstore, ho, ?_⟩
  exact (hreads seg (by rw [ho, hsegs]; exact mem_singleton_self seg) [1] _ hhit rfl).1

/-- **A live key shadows the frozen WORM entry mounted after it**: the snapshot has the key,
the segment has it as WORM with another value. -/
theorem loaded_key_shadows_worm : ∃ (file : Bytes) (db : Db) (seg : Segment) (o : Overlay),
    Db.openFiles ⟨.snapshot, false, 0⟩ (fun _ => none) .ample [] (some file) = .ok db ∧
      seg.hits = [⟨[1], [10], 0, true⟩] ∧
      (⟨db, []⟩ : Served).step (.attachSst seg) = some ⟨{ db with store := o.store }, o.segs⟩ ∧
      o.segs = [seg] ∧ o.getValueDupe [1] = some (some [20]) := by
  obtain ⟨s, -, hupd, hcount⟩ := setUnsafe_init [1] [20] false 0
  have hfit : SizesFit s := sizesFit_init hupd hcount (by decide) (by decide)
  obtain ⟨-, hbytes⟩ := hupd.ok.encodeSnapshot_eq hfit
  have hmode : (⟨.snapshot, false, 0⟩ : Config).persistence = .snapshot := rfl
  obtain ⟨s', hopen, hok, hsst, hview⟩ := openFiles_snapshot hmode
    (restores_encodeSnapshot hupd.ok hbytes (fun _ => none))
  obtain ⟨seg, hseg⟩ := exists_oneEntry [1] [10] true (by decide) (by decide)
  refine ⟨_, _, seg, ⟨{ s' with sst := Served.overlayOf [seg] }, [seg],
    ⟨hok.shards, hok.count, hok.fresh⟩, show 1 ≤ 4 by decide, fun _ => rfl⟩, hopen, hseg, rfl,
    rfl, ?_⟩
  have hlive : s'.view [1] = some ⟨[20], 0, false⟩ := by
    rw [hview, Store.view, hupd.entryAt, if_pos rfl]
    rfl
  obtain ⟨e, hat, hcontent⟩ := Option.map_eq_some_iff.mp hlive
  rw [Overlay.getValueDupe_eq, Overlay.visible]
  rw [show Store.entryAt { s' with sst := Served.overlayOf [seg] } [1] = some e from hat]
  simp only [hcontent, Option.map_some]

end WormDB
