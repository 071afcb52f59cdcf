import WormDB.LockHierarchy
import Mathlib.Data.List.DropRight

/-! # The locks that a procedure keeps

The lock tracking of `procedures/context.zig`.  A `Ctx` writes down which shards it has locked,
in `locked_shards[0..lock_count]`; calls that go through the log or the event bus give all of
them back first and take them again afterwards, in ascending order.

`held` is what the thread holds, whoever locked it.  A lock that the thread holds already is
waited for without end, and one that it does not hold cannot be given back; both are `none`.
Locks of other threads are waited for, and that is not modelled.

`locks_tracked` is what holds after any calls.  The shard of a key that is to be locked is
locked, unless sixteen others are: then the call does nothing (`seventeenth_ignored`). -/
namespace WormDB.CtxLocks
open List ByteCodec LockOrder
open Locks (Lock LockTrace maxLocks visit)

structure Ctx where
  lockedShards : List (Fin shardCount)
  held : List (Lock × Mode)

namespace Ctx

def init : Ctx := ⟨[], []⟩

def Holds (c : Ctx) (l : Lock) : Prop := l ∈ c.held.map Prod.fst

instance (c : Ctx) (l : Lock) : Decidable (c.Holds l) := inferInstanceAs (Decidable (l ∈ _))

/-! ## Mutexes -/

/-- `shards[si].mutex.lock()` -/
def lock (c : Ctx) (si : Fin shardCount) : Option Ctx :=
  if c.Holds (.shard si) then none
  else some { c with held := Act.apply c.held (.acquire (.shard si) .exclusive) }

/-- `shards[si].mutex.unlock()` -/
def unlock (c : Ctx) (si : Fin shardCount) : Option Ctx :=
  if c.Holds (.shard si) then some { c with held := Act.apply c.held (.release (.shard si)) }
  else none

/-- What the thread does in a call of the store. -/
def perform : LockTrace → Ctx → Option Ctx
  | [], c => some c
  | .acquire l mode :: rest, c =>
      if c.Holds l then none
      else perform rest { c with held := Act.apply c.held (.acquire l mode) }
  | .release l :: rest, c => perform rest { c with held := Act.apply c.held (.release l) }

/-! ## Tracking -/

/-- Locks a shard and writes it down. -/
def push (c : Ctx) (si : Fin shardCount) : Option Ctx := do
  let c ← c.lock si
  return { c with lockedShards := c.lockedShards ++ [si] }

/-- Takes the last entry, which is `si`, off the list and unlocks it. -/
def pop (c : Ctx) (si : Fin shardCount) : Option Ctx := do
  let c ← c.unlock si
  return { c with lockedShards := c.lockedShards.dropLast }

def acquireShard (c : Ctx) (si : Fin shardCount) : Option Ctx :=
  if c.lockedShards.contains si then some c
  else if c.lockedShards.length ≥ maxLocks then some c
  else c.push si

def lockKey (c : Ctx) (key : Bytes) : Option Ctx := c.acquireShard (shardIndex key)

def lockKeys2 (c : Ctx) (keyA keyB : Bytes) : Option Ctx :=
  let a := shardIndex keyA
  let b := shardIndex keyB
  if a = b then c.acquireShard a
  else do
    let c ← c.acquireShard (min a b)
    c.acquireShard (max a b)

/-- The loop that takes shards off the end of the list. -/
def deinit (c : Ctx) : Option Ctx :=
  c.lockedShards.reverse.foldlM pop c

/-- A snapshot of the list, which is then empty. -/
def saveAndReleaseAllHeldShards (c : Ctx) : Option (List (Fin shardCount) × Ctx) := do
  let rest ← c.deinit
  return (c.lockedShards, rest)

end Ctx

/-- One turn of the insertion sort: larger entries move up by one. -/
def shiftIn (sorted : List (Fin shardCount)) (x : Fin shardCount) : List (Fin shardCount) :=
  sorted.rdropWhile (fun y => x < y) ++ x :: sorted.rtakeWhile (fun y => x < y)

def sortHeld (held : List (Fin shardCount)) : List (Fin shardCount) := held.foldl shiftIn []

namespace Ctx

def reacquireAllHeldShards (c : Ctx) (held : List (Fin shardCount)) : Option Ctx :=
  (sortHeld held).foldlM push c

/-- A call without the shards. -/
def released (c : Ctx) (body : LockTrace) : Option Ctx := do
  let (held, c) ← c.saveAndReleaseAllHeldShards
  let c ← perform body c
  c.reacquireAllHeldShards held

/-- What a write to the peers visits of the shards, when it brings one of them up to date. -/
def replicate (synced : List (Fin shardCount)) : LockTrace := synced.flatMap visit

end Ctx

/-! ## Calls -/

/-- What a durable call finds: how the log is written, how the write ends, what the registry
and the peers ask for. -/
structure SetCall where
  mode : Locks.WalMode
  key : Bytes
  path : Locks.SetPath
  sync : Option Locks.RawSet
  synced : List (Fin shardCount)

structure DeleteCall where
  mode : Locks.WalMode
  key : Bytes
  path : Locks.DeletePath
  sync : Option Locks.RawDelete
  synced : List (Fin shardCount)

def SetCall.trace (call : SetCall) : LockTrace :=
  Locks.set call.mode call.key call.path call.sync ++
    match call.path with
    | .done _ => Ctx.replicate call.synced
    | _ => []

/-- A key that is not there is deleted, and the peers are told. -/
def DeleteCall.trace (call : DeleteCall) : LockTrace :=
  Locks.delete call.mode call.key call.path call.sync ++
    match call.path with
    | .refused => []
    | _ => Ctx.replicate call.synced

namespace Ctx

def setDurable (c : Ctx) (call : SetCall) : Option Ctx := c.released call.trace

def setDurableWorm (c : Ctx) (call : SetCall) : Option Ctx := c.released call.trace

def deleteDurable (c : Ctx) (call : DeleteCall) : Option Ctx := c.released call.trace

/-- The bus has locks of its own. -/
def publish (c : Ctx) (bus : Bool) : Option Ctx := if bus then c.released [] else some c

end Ctx

inductive CtxCall where
  | lockKey (key : Bytes)
  | lockKeys2 (keyA keyB : Bytes)
  | setDurable (call : SetCall)
  | setDurableWorm (call : SetCall)
  | deleteDurable (call : DeleteCall)
  | publish (bus : Bool)
  | deinit

def CtxCall.run (c : Ctx) : CtxCall → Option Ctx
  | lockKey key => c.lockKey key
  | lockKeys2 keyA keyB => c.lockKeys2 keyA keyB
  | setDurable call => c.setDurable call
  | setDurableWorm call => c.setDurableWorm call
  | deleteDurable call => c.deleteDurable call
  | publish bus => c.publish bus
  | deinit => c.deinit

def runCalls (calls : List CtxCall) (c : Ctx) : Option Ctx := calls.foldlM CtxCall.run c

/-! ## The list and the locks -/

/-- The list names what is held, once each. -/
structure Ctx.Tracked (c : Ctx) : Prop where
  nodup : c.lockedShards.Nodup
  few : c.lockedShards.length ≤ maxLocks
  held : ∀ x, x ∈ c.held ↔ ∃ si ∈ c.lockedShards, x = (.shard si, .exclusive)

namespace Ctx
variable {c c' : Ctx} {si : Fin shardCount}

theorem Tracked.init : Ctx.init.Tracked :=
  ⟨nodup_nil, Nat.zero_le _, fun x => by simp [Ctx.init]⟩

section
variable (h : c.Tracked)
include h

theorem Tracked.holds (l : Lock) : c.Holds l ↔ ∃ si ∈ c.lockedShards, l = .shard si := by
  simp only [Holds, mem_map, h.held]
  constructor
  · rintro ⟨x, ⟨si, hsi, rfl⟩, rfl⟩
    exact ⟨si, hsi, rfl⟩
  · rintro ⟨si, hsi, rfl⟩
    exact ⟨_, ⟨si, hsi, rfl⟩, rfl⟩

theorem Tracked.holds_shard : c.Holds (.shard si) ↔ si ∈ c.lockedShards := by
  simp [h.holds]

/-- Nothing in the list, nothing held. -/
theorem Tracked.held_nil (hnone : c.lockedShards = []) : c.held = [] := by
  refine eq_nil_iff_forall_not_mem.mpr (fun x hx => ?_)
  obtain ⟨si, hsi, -⟩ := (h.held x).mp hx
  rw [hnone] at hsi
  exact not_mem_nil hsi

theorem Tracked.same (h' : c'.Tracked)
    (hperm : c'.lockedShards.Perm c.lockedShards) (l : Lock) : c'.Holds l ↔ c.Holds l := by
  simp only [h.holds, h'.holds, hperm.mem_iff]

theorem push_tracked (hnew : si ∉ c.lockedShards) (hfew : c.lockedShards.length < maxLocks) :
    ∃ c', c.push si = some c' ∧ c'.Tracked ∧ c'.lockedShards = c.lockedShards ++ [si] := by
  refine ⟨⟨c.lockedShards ++ [si], (.shard si, .exclusive) :: c.held⟩, ?_, ⟨?_, ?_, ?_⟩, rfl⟩
  · simp [push, lock, h.holds_shard, hnew, Act.apply]
  · rw [nodup_append_comm]
    exact nodup_cons.mpr ⟨hnew, h.nodup⟩
  · rw [length_append]
    exact hfew
  · intro x
    simp only [mem_cons, h.held, mem_append]
    constructor
    · rintro (rfl | ⟨i, hi, rfl⟩)
      · exact ⟨si, .inr (.inl rfl), rfl⟩
      · exact ⟨i, .inl hi, rfl⟩
    · rintro ⟨i, hi | rfl | hi, rfl⟩
      · exact .inr ⟨i, hi, rfl⟩
      · exact .inl rfl
      · exact absurd hi not_mem_nil

end

variable {rest : List (Fin shardCount)}

section
variable (h : c.Tracked)
include h

/-- What is left when a shard is unlocked and its entry goes. -/
theorem unlock_tracked (hperm : c.lockedShards.Perm (si :: rest)) :
    ∃ held, c.unlock si = some ⟨c.lockedShards, held⟩ ∧ Tracked ⟨rest, held⟩ := by
  have hnodup := hperm.nodup_iff.mp h.nodup
  have hmem : si ∈ c.lockedShards := hperm.mem_iff.mpr mem_cons_self
  have hlength := hperm.length_eq
  rw [length_cons] at hlength
  refine ⟨Act.apply c.held (.release (.shard si)), ?_, ⟨hnodup.of_cons, ?_, ?_⟩⟩
  · simp [unlock, h.holds_shard, hmem]
  · have hfew := h.few
    show rest.length ≤ maxLocks
    omega
  · intro x
    simp only [Act.apply, mem_filter, decide_eq_true_eq, h.held, hperm.mem_iff, mem_cons]
    constructor
    · rintro ⟨⟨i, rfl | hi, rfl⟩, hne⟩
      · exact absurd rfl hne
      · exact ⟨i, hi, rfl⟩
    · rintro ⟨i, hi, rfl⟩
      refine ⟨⟨i, .inr hi, rfl⟩, ?_⟩
      intro heq
      cases heq
      exact (nodup_cons.mp hnodup).1 hi

theorem pop_tracked (hlast : c.lockedShards = rest ++ [si]) :
    ∃ c', c.pop si = some c' ∧ c'.Tracked ∧ c'.lockedShards = rest := by
  have hperm : c.lockedShards.Perm (si :: rest) := by
    rw [hlast]
    exact perm_append_singleton si rest
  obtain ⟨held, hunlock, htracked⟩ := unlock_tracked h hperm
  refine ⟨⟨rest, held⟩, ?_, htracked, rfl⟩
  simp [pop, hunlock, hlast]

theorem acquireShard_tracked (si : Fin shardCount) :
    ∃ c', c.acquireShard si = some c' ∧ c'.Tracked ∧
      c'.lockedShards = Locks.acquireShard c.lockedShards si := by
  unfold acquireShard Locks.acquireShard
  simp only [contains_iff_mem]
  split
  · exact ⟨c, rfl, h, rfl⟩
  · rename_i hnew
    split
    · exact ⟨c, rfl, h, rfl⟩
    · rename_i hfew
      exact push_tracked h hnew (lt_of_not_ge hfew)

theorem lockKey_tracked (key : Bytes) :
    ∃ c', c.lockKey key = some c' ∧ c'.Tracked ∧
      c'.lockedShards = Locks.lockKey c.lockedShards key := acquireShard_tracked h _

theorem lockKeys2_tracked (keyA keyB : Bytes) : ∃ c', c.lockKeys2 keyA keyB = some c' ∧ c'.Tracked ∧
      c'.lockedShards = Locks.lockKeys2 c.lockedShards keyA keyB := by
  simp only [lockKeys2, Locks.lockKeys2]
  split
  · exact acquireShard_tracked h _
  · obtain ⟨c₁, hlow, h₁, hlist₁⟩ := acquireShard_tracked h (min (shardIndex keyA) (shardIndex keyB))
    obtain ⟨c₂, hhigh, h₂, hlist₂⟩ :=
      acquireShard_tracked h₁ (max (shardIndex keyA) (shardIndex keyB))
    refine ⟨c₂, ?_, h₂, ?_⟩
    · rw [hlow]
      exact hhigh
    · rw [hlist₂, hlist₁]

end

/-! ## Giving back, and taking again -/

theorem deinit_tracked (h : c.Tracked) :
    ∃ c', c.deinit = some c' ∧ c'.Tracked ∧ c'.lockedShards = [] := by
  unfold deinit
  generalize hls : c.lockedShards.reverse = ls
  induction ls generalizing c with
  | nil => exact ⟨c, rfl, h, reverse_eq_nil_iff.mp hls⟩
  | cons si ls ih =>
    obtain ⟨c₁, hpop, h₁, hlist⟩ := pop_tracked h (reverse_eq_cons_iff.mp hls)
    obtain ⟨c', hrest, h', hnone⟩ := ih h₁ (by rw [hlist, reverse_reverse])
    refine ⟨c', ?_, h', hnone⟩
    rw [foldlM_cons, hpop]
    exact hrest

theorem pushAll_tracked (h : c.Tracked) {ls : List (Fin shardCount)}
    (hnodup : (c.lockedShards ++ ls).Nodup) (hfew : (c.lockedShards ++ ls).length ≤ maxLocks) :
    ∃ c', ls.foldlM push c = some c' ∧ c'.Tracked ∧ c'.lockedShards = c.lockedShards ++ ls := by
  induction ls generalizing c with
  | nil => exact ⟨c, rfl, h, (append_nil _).symm⟩
  | cons si ls ih =>
    have hnew : si ∉ c.lockedShards := by
      intro hmem
      exact (disjoint_of_nodup_append hnodup) hmem mem_cons_self
    have hroom : c.lockedShards.length < maxLocks := by
      rw [length_append, length_cons] at hfew
      omega
    obtain ⟨c₁, hpush, h₁, hlist⟩ := push_tracked h hnew hroom
    have hshift : c₁.lockedShards ++ ls = c.lockedShards ++ si :: ls := by
      rw [hlist, append_assoc, singleton_append]
    obtain ⟨c', hrest, h', hall⟩ := ih h₁ (hshift ▸ hnodup) (hshift ▸ hfew)
    refine ⟨c', ?_, h', hall.trans hshift⟩
    rw [foldlM_cons, hpush]
    exact hrest

end Ctx

theorem shiftIn_perm (sorted : List (Fin shardCount)) (x : Fin shardCount) :
    (shiftIn sorted x).Perm (x :: sorted) := by
  refine perm_middle.trans (Perm.cons x ?_)
  rw [rdropWhile_append_rtakeWhile]

theorem sortHeld_perm (held : List (Fin shardCount)) : (sortHeld held).Perm held := by
  have hall : ∀ sorted : List (Fin shardCount),
      (held.foldl shiftIn sorted).Perm (sorted ++ held) := by
    induction held with
    | nil => simp
    | cons x held ih =>
      intro sorted
      refine (ih (shiftIn sorted x)).trans ?_
      exact ((shiftIn_perm sorted x).append_right held).trans perm_middle.symm
  exact hall []

namespace Ctx
variable {c : Ctx}

variable {rank : Lock → Nat}

/-- A thread that only climbs never waits for itself. -/
theorem perform_climbs {t : LockTrace} (hclimbs : Climbs rank c.held t) :
    perform t c = some { c with held := heldAfter c.held t } := by
  induction t generalizing c with
  | nil => rfl
  | cons a t ih =>
    cases a with
    | release l => exact ih (c := { c with held := Act.apply c.held (.release l) }) hclimbs.2
    | acquire l mode =>
      have hfree : ¬ c.Holds l := by
        intro hheld
        obtain ⟨x, hx, rfl⟩ := mem_map.mp hheld
        exact absurd (hclimbs.1 x.1 mode rfl x hx) (lt_irrefl _)
      rw [perform, if_neg hfree]
      exact ih (c := { c with held := Act.apply c.held (.acquire l mode) }) hclimbs.2

/-- The shards that were locked are locked again, in another order. -/
theorem released_tracked (h : c.Tracked) {body : LockTrace} (hbody : Above rank 0 body) :
    ∃ c', c.released body = some c' ∧ c'.Tracked ∧ c'.lockedShards = sortHeld c.lockedShards := by
  obtain ⟨c₁, hdeinit, h₁, hnone⟩ := deinit_tracked h
  have hheld := h₁.held_nil hnone
  obtain ⟨hclimbs, hafter⟩ := hbody c₁.held (by simp [hheld])
  have hperform : perform body c₁ = some c₁ := by
    rw [perform_climbs hclimbs, hafter]
  have hperm := sortHeld_perm c.lockedShards
  have hnodup : (c₁.lockedShards ++ sortHeld c.lockedShards).Nodup := by
    rw [hnone]
    exact hperm.nodup_iff.mpr h.nodup
  have hfew : (c₁.lockedShards ++ sortHeld c.lockedShards).length ≤ maxLocks := by
    rw [hnone, nil_append, hperm.length_eq]
    exact h.few
  obtain ⟨c', hagain, h', hlist⟩ := pushAll_tracked h₁ hnodup hfew
  refine ⟨c', ?_, h', by rw [hlist, hnone, nil_append]⟩
  simp only [released, saveAndReleaseAllHeldShards, hdeinit, hperform, Option.bind_eq_bind,
    Option.bind_some, Option.pure_def, reacquireAllHeldShards]
  exact hagain

end Ctx

theorem replicate_above (synced : List (Fin shardCount)) :
    Above Locks.rankGraphsLast 0 (Ctx.replicate synced) :=
  Above.flatMap (fun _ _ => Locks.visit_above (Nat.zero_le _))

theorem SetCall.above (call : SetCall) : Above Locks.rankGraphsLast 0 call.trace := by
  refine (Locks.set_above Locks.hierarchy_graphsLast.1 _ _
    (fun _ => Locks.hierarchy_graphsLast.2)).append ?_
  cases call.path with
  | failed | refused => exact Above.nil
  | done compaction => exact replicate_above _

theorem DeleteCall.above (call : DeleteCall) : Above Locks.rankGraphsLast 0 call.trace := by
  refine (Locks.delete_above Locks.hierarchy_graphsLast.1 _ _
    (fun _ => Locks.hierarchy_graphsLast.2)).append ?_
  cases call.path with
  | missing => exact replicate_above _
  | refused => exact Above.nil
  | done compaction => exact replicate_above _

/-! ## Any calls -/

namespace Ctx
variable {c : Ctx}

/-- `c'` holds what `c` holds. -/
def SameLocks (c c' : Ctx) : Prop := ∀ l, c'.Holds l ↔ c.Holds l

theorem released_same (h : c.Tracked) {body : LockTrace}
    (hbody : Above Locks.rankGraphsLast 0 body) :
    ∃ c', c.released body = some c' ∧ c'.Tracked ∧ c.SameLocks c' := by
  obtain ⟨c', hrun, h', hlist⟩ := released_tracked h hbody
  exact ⟨c', hrun, h', h.same h' (hlist ▸ sortHeld_perm c.lockedShards)⟩

theorem publish_same (h : c.Tracked) (bus : Bool) :
    ∃ c', c.publish bus = some c' ∧ c'.Tracked ∧ c.SameLocks c' := by
  cases bus with
  | false => exact ⟨c, rfl, h, fun _ => Iff.rfl⟩
  | true => exact released_same h Above.nil

end Ctx

variable {c : Ctx}

theorem CtxCall.run_tracked (h : c.Tracked) (call : CtxCall) :
    ∃ c', call.run c = some c' ∧ c'.Tracked := by
  cases call with
  | lockKey key =>
    obtain ⟨c', hrun, h', -⟩ := Ctx.lockKey_tracked h key
    exact ⟨c', hrun, h'⟩
  | lockKeys2 keyA keyB =>
    obtain ⟨c', hrun, h', -⟩ := Ctx.lockKeys2_tracked h keyA keyB
    exact ⟨c', hrun, h'⟩
  | setDurable call | setDurableWorm call | deleteDurable call =>
    obtain ⟨c', hrun, h', -⟩ := Ctx.released_same h call.above
    exact ⟨c', hrun, h'⟩
  | publish bus =>
    obtain ⟨c', hrun, h', -⟩ := Ctx.publish_same h bus
    exact ⟨c', hrun, h'⟩
  | deinit =>
    obtain ⟨c', hrun, h', -⟩ := Ctx.deinit_tracked h
    exact ⟨c', hrun, h'⟩

theorem runCalls_tracked (h : c.Tracked) (calls : List CtxCall) :
    ∃ c', runCalls calls c = some c' ∧ c'.Tracked := by
  induction calls generalizing c with
  | nil => exact ⟨c, rfl, h⟩
  | cons call calls ih =>
    obtain ⟨c₁, hrun, h₁⟩ := call.run_tracked h
    obtain ⟨c', hrest, h'⟩ := ih h₁
    refine ⟨c', ?_, h'⟩
    rw [runCalls, foldlM_cons, hrun]
    exact hrest

/-- The shard is locked, or as many others are as the list has room for. -/
def Ctx.LockedOrFull (c : Ctx) (si : Fin shardCount) : Prop :=
  c.Holds (.shard si) ∨ c.lockedShards.length = maxLocks

theorem mem_acquireShard (held : List (Fin shardCount)) (si : Fin shardCount) :
    si ∈ Locks.acquireShard held si ∨ maxLocks ≤ (Locks.acquireShard held si).length := by
  unfold Locks.acquireShard
  split
  · rename_i hmem
    exact .inl hmem
  · split
    · rename_i hfull
      exact .inr hfull
    · exact .inl (mem_append_right _ mem_cons_self)

theorem acquireShard_keeps (held : List (Fin shardCount)) (si : Fin shardCount) :
    held <+: Locks.acquireShard held si := by
  unfold Locks.acquireShard
  split
  · exact prefix_refl _
  · split
    · exact prefix_refl _
    · exact prefix_append _ _

theorem lockKeys2_keeps (held : List (Fin shardCount)) (keyA keyB : Bytes) :
    held <+: Locks.lockKeys2 held keyA keyB := by
  simp only [Locks.lockKeys2]
  split
  · exact acquireShard_keeps held _
  · exact (acquireShard_keeps held _).trans (acquireShard_keeps _ _)

variable {si : Fin shardCount}

/-- One of the two is taken first, and the list then only grows. -/
theorem mem_lockKeys2 (held : List (Fin shardCount)) (keyA keyB : Bytes)
    (hsi : si = shardIndex keyA ∨ si = shardIndex keyB) :
    si ∈ Locks.lockKeys2 held keyA keyB ∨ maxLocks ≤ (Locks.lockKeys2 held keyA keyB).length := by
  simp only [Locks.lockKeys2]
  split
  · rename_i heq
    obtain rfl : si = shardIndex keyA := hsi.elim id (fun h => h.trans heq.symm)
    exact mem_acquireShard held _
  · have hlater := acquireShard_keeps
      (Locks.acquireShard held (min (shardIndex keyA) (shardIndex keyB)))
      (max (shardIndex keyA) (shardIndex keyB))
    have hends : si = min (shardIndex keyA) (shardIndex keyB) ∨
        si = max (shardIndex keyA) (shardIndex keyB) := by
      rcases le_total (shardIndex keyA) (shardIndex keyB) with hle | hle
      · rw [min_eq_left hle, max_eq_right hle]
        exact hsi
      · rw [min_eq_right hle, max_eq_left hle]
        exact hsi.symm
    rcases hends with rfl | rfl
    · exact (mem_acquireShard held _).imp (fun hmem => hlater.subset hmem)
        (fun hfull => hfull.trans hlater.length_le)
    · exact mem_acquireShard _ _

theorem Ctx.Tracked.lockedOrFull (h : c.Tracked)
    (hsi : si ∈ c.lockedShards ∨ maxLocks ≤ c.lockedShards.length) : c.LockedOrFull si :=
  hsi.imp (fun hmem => h.holds_shard.mpr hmem) (fun hfull => le_antisymm h.few hfull)

theorem Ctx.Tracked.keeps {c' : Ctx} (h : c.Tracked) (h' : c'.Tracked)
    (hkeeps : c.lockedShards <+: c'.lockedShards) {l : Lock} (hl : c.Holds l) : c'.Holds l := by
  obtain ⟨si, hsi, rfl⟩ := (h.holds l).mp hl
  exact h'.holds_shard.mpr (hkeeps.subset hsi)

/-- **What is locked is written down, once.**  After any calls the list names what the procedure
holds; a key's shard is locked when the call that locks it returns, unless sixteen others are in
the list; the calls that go to the log or the bus leave the same locks; `deinit` leaves none. -/
theorem locks_tracked (calls : List CtxCall) :
    ∃ c, runCalls calls Ctx.init = some c ∧
      (c.lockedShards.Nodup ∧ ∀ l, c.Holds l ↔ ∃ si ∈ c.lockedShards, l = .shard si) ∧
      (∀ key, ∃ c', c.lockKey key = some c' ∧ (∀ l, c.Holds l → c'.Holds l) ∧
        c'.LockedOrFull (shardIndex key)) ∧
      (∀ keyA keyB, ∃ c', c.lockKeys2 keyA keyB = some c' ∧ (∀ l, c.Holds l → c'.Holds l) ∧
        c'.LockedOrFull (shardIndex keyA) ∧ c'.LockedOrFull (shardIndex keyB)) ∧
      (∀ call, ∃ c', c.setDurable call = some c' ∧ c.SameLocks c') ∧
      (∀ call, ∃ c', c.setDurableWorm call = some c' ∧ c.SameLocks c') ∧
      (∀ call, ∃ c', c.deleteDurable call = some c' ∧ c.SameLocks c') ∧
      (∀ bus, ∃ c', c.publish bus = some c' ∧ c.SameLocks c') ∧
      ∃ c', c.deinit = some c' ∧ c'.held = [] ∧ c'.lockedShards = [] := by
  obtain ⟨c, hrun, h⟩ := runCalls_tracked Ctx.Tracked.init calls
  refine ⟨c, hrun, ⟨h.nodup, h.holds⟩, fun key => ?_, fun keyA keyB => ?_, fun call => ?_,
    fun call => ?_, fun call => ?_, fun bus => ?_, ?_⟩
  · obtain ⟨c', hlock, h', hlist⟩ := Ctx.lockKey_tracked h key
    refine ⟨c', hlock, fun l => h.keeps h' (hlist ▸ acquireShard_keeps _ _), ?_⟩
    exact h'.lockedOrFull (hlist ▸ mem_acquireShard _ _)
  · obtain ⟨c', hlock, h', hlist⟩ := Ctx.lockKeys2_tracked h keyA keyB
    refine ⟨c', hlock, fun l => h.keeps h' (hlist ▸ lockKeys2_keeps _ _ _), ?_, ?_⟩
    · exact h'.lockedOrFull (hlist ▸ mem_lockKeys2 _ _ _ (.inl rfl))
    · exact h'.lockedOrFull (hlist ▸ mem_lockKeys2 _ _ _ (.inr rfl))
  · obtain ⟨c', hset, -, hsame⟩ := Ctx.released_same h call.above
    exact ⟨c', hset, hsame⟩
  · obtain ⟨c', hset, -, hsame⟩ := Ctx.released_same h call.above
    exact ⟨c', hset, hsame⟩
  · obtain ⟨c', hdelete, -, hsame⟩ := Ctx.released_same h call.above
    exact ⟨c', hdelete, hsame⟩
  · obtain ⟨c', hpublish, -, hsame⟩ := Ctx.publish_same h bus
    exact ⟨c', hpublish, hsame⟩
  · obtain ⟨c', hdeinit, h', hnone⟩ := Ctx.deinit_tracked h
    exact ⟨c', hdeinit, h'.held_nil hnone, hnone⟩

/-- Seventeen keys in seventeen shards: the last one is not locked. -/
theorem seventeenth_ignored :
    ¬ ∀ calls key, ∃ c c', runCalls calls Ctx.init = some c ∧ c.lockKey key = some c' ∧
      c'.Holds (.shard (shardIndex key)) := by
  intro hlocks
  obtain ⟨c, c', hrun, hlock, hholds⟩ :=
    hlocks ((List.range 16).map (fun i => .lockKey [UInt8.ofNat i])) [16]
  have hlast : ((runCalls ((List.range 16).map (fun i => .lockKey [UInt8.ofNat i])) Ctx.init).bind
      (fun c => c.lockKey [16])).all (fun c => ¬ c.Holds (.shard (shardIndex [16]))) = true := by
    decide +kernel
  rw [hrun, Option.bind_some, hlock] at hlast
  simp [hholds] at hlast

end WormDB.CtxLocks
