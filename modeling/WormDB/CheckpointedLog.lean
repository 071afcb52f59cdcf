import WormDB.GuardedReplay
import Mathlib.Logic.Relation

/-! # A map kept by checkpoints and a log

The abstract machine behind a store with snapshots and a log: a live map, the map
of the last checkpoint, and the log of writes since the last truncation.
Recovery replays the log over the checkpoint.

A checkpoint does not truncate the log, so recovery may replay records older than
the checkpoint.  When every write is logged this is harmless
(`Reaches.recoverable`).  With writes that bypass the log, recovery right after a
checkpoint restores the live map exactly when no such write is contradicted by
the log (`recovers_checkpoint_iff`).  A locked value that was logged or
checkpointed stays in every case (`Reaches.held`). -/
namespace CheckpointedLog
open GuardedReplay

variable {κ V : Type} [DecidableEq κ] (locked : V → Bool)

structure State (κ V : Type) where
  live : κ → Option V
  snap : κ → Option V
  log : List (κ × Option V)

def State.empty : State κ V := ⟨fun _ => none, fun _ => none, []⟩

/-- The state after a logged write. -/
def State.write (s : State κ V) (k : κ) (v : Option V) : State κ V :=
  { s with live := Function.update s.live k v, log := s.log ++ [(k, v)] }

inductive Kind where
  | logged | bypass | remove | checkpoint | compact | recover

/-- `remove` is the one step that does not respect locks. -/
inductive Step : Kind → State κ V → State κ V → Prop where
  | logged {s : State κ V} (k : κ) (v : Option V) (h : ¬ Locked locked s.live k) :
      Step .logged s (s.write k v)
  | bypass {s : State κ V} (k : κ) (v : V) (h : ¬ Locked locked s.live k) :
      Step .bypass s { s with live := Function.update s.live k (some v) }
  | remove {s : State κ V} (k : κ) :
      Step .remove s { s with live := Function.update s.live k none }
  | checkpoint {s : State κ V} : Step .checkpoint s { s with snap := s.live }
  | compact {s : State κ V} : Step .compact s { s with snap := s.live, log := [] }
  | recover {s : State κ V} : Step .recover s { s with live := replay locked s.snap s.log }

/-- Runs with steps of the allowed kinds. -/
def Reaches (allowed : Kind → Prop) : State κ V → State κ V → Prop :=
  Relation.ReflTransGen (fun s t => ∃ kind, allowed kind ∧ Step locked kind s t)

variable {locked} {allowed : Kind → Prop} {s t : State κ V}

theorem Reaches.mono {allowed' : Kind → Prop} (h : Reaches locked allowed s t)
    (hsub : ∀ kind, allowed kind → allowed' kind) : Reaches locked allowed' s t := by
  induction h with
  | refl => exact Relation.ReflTransGen.refl
  | tail _ hstep ih =>
    obtain ⟨kind, hkind, hstep⟩ := hstep
    exact ih.tail ⟨kind, hsub kind hkind, hstep⟩

variable {kind : Kind}

theorem Reaches.single (hkind : allowed kind) (h : Step locked kind s t) :
    Reaches locked allowed s t :=
  Relation.ReflTransGen.single ⟨kind, hkind, h⟩

/-! ## Recovery gives the live map -/

/-- The files hold the live map. -/
def Recoverable (locked : V → Bool) (s : State κ V) : Prop :=
  replay locked s.snap s.log = s.live

theorem Step.recoverable (h : Step locked kind s t) (hs : Recoverable locked s)
    (hb : kind ≠ .bypass) (hr : kind ≠ .remove) : Recoverable locked t := by
  unfold Recoverable at hs ⊢
  cases h with
  | logged k v hk =>
    show replay locked s.snap (s.log ++ [(k, v)]) = Function.update s.live k v
    rw [replay_append, hs]
    exact apply_of_not_locked hk
  | bypass => exact absurd rfl hb
  | remove => exact absurd rfl hr
  | checkpoint =>
    -- the log is replayed over what it produced
    show replay locked s.live s.log = s.live
    rw [← hs, replay_replay]
  | compact => rfl
  | recover => rfl

/-- **When every write is logged, recovery gives the live map**, wherever
checkpoints and truncations fell. -/
theorem Reaches.recoverable (h : Reaches locked allowed s t)
    (hallowed : ∀ kind, allowed kind → kind ≠ .bypass ∧ kind ≠ .remove)
    (hs : Recoverable locked s) : Recoverable locked t := by
  induction h with
  | refl => exact hs
  | tail _ hstep ih =>
    obtain ⟨kind, hkind, hstep⟩ := hstep
    exact hstep.recoverable ih (hallowed kind hkind).1 (hallowed kind hkind).2

/-- **Recovery right after a checkpoint** restores the live map exactly when each
key the log decides has that value, or a locked one. -/
theorem recovers_checkpoint_iff : Recoverable locked { s with snap := s.live } ↔
    ∀ k, Locked locked s.live k ∨ ∀ v ∈ deciding locked s.log k, v = s.live k :=
  replay_eq_self_iff

/-! ## Locked values stay -/

/-- The locked values of the checkpoint and of the log are live. -/
structure Anchored (locked : V → Bool) (s : State κ V) : Prop where
  snap : ∀ k, Locked locked s.snap k → s.live k = s.snap k
  log : ∀ k v, (k, v) ∈ s.log → v.any locked = true → s.live k = v

/-- A locked live value that recovery would find. -/
structure Held (locked : V → Bool) (s : State κ V) (k : κ) (v : Option V) : Prop where
  isLocked : v.any locked = true
  live : s.live k = v
  stored : s.snap k = v ∨ (k, v) ∈ s.log

omit [DecidableEq κ] in
theorem Anchored.empty : Anchored locked (State.empty : State κ V) where
  snap _ h := by cases h
  log _ _ h _ := by cases h

variable {k : κ} {v : Option V}

/-- Recovery gives a key with a locked value in the files the value it had. -/
theorem Anchored.recovered (h : Anchored locked s)
    (hk : Held locked s k v) : replay locked s.snap s.log k = v := by
  by_cases hsnap : Locked locked s.snap k
  · rw [replay_of_locked hsnap, ← h.snap k hsnap, hk.live]
  · have hmem : (k, v) ∈ s.log := by
      rcases hk.stored with hsame | hmem
      · refine absurd ?_ hsnap
        rw [Locked, hsame]
        exact hk.isLocked
      · exact hmem
    obtain ⟨w, hw, hwlock, hdec⟩ := deciding_of_mem hmem hk.isLocked
    rw [replay_of_not_locked hsnap, hdec, ← hk.live, h.log k w hw hwlock]
    rfl

omit [DecidableEq κ] in
theorem Anchored.held_of_snap (h : Anchored locked s) (hk : Locked locked s.snap k) :
    Held locked s k (s.snap k) := ⟨hk, h.snap k hk, .inl rfl⟩

omit [DecidableEq κ] in
theorem Anchored.held_of_log (h : Anchored locked s)
    (hmem : (k, v) ∈ s.log) (hv : v.any locked = true) : Held locked s k v :=
  ⟨hv, h.log k v hmem hv, .inr hmem⟩

theorem update_of_locked {m : κ → Option V} {k' : κ} (h : ¬ Locked locked m k)
    (h' : Locked locked m k') (v : Option V) : Function.update m k v k' = m k' := by
  have hne : k' ≠ k := by
    rintro rfl
    exact h h'
  rw [Function.update_of_ne hne]

omit [DecidableEq κ] in
theorem Held.locked_live (h : Held locked s k v) : Locked locked s.live k := by
  rw [Locked, h.live]
  exact h.isLocked

theorem Step.held (h : Step locked kind s t) (hs : Anchored locked s)
    (hr : kind ≠ .remove) (hk : Held locked s k v) : Held locked t k v := by
  cases h with
  | logged k' v' hk' =>
    refine ⟨hk.isLocked, ?_, hk.stored.imp_right (List.mem_append_left _)⟩
    exact (update_of_locked hk' hk.locked_live v').trans hk.live
  | bypass k' v' hk' =>
    exact ⟨hk.isLocked, (update_of_locked hk' hk.locked_live _).trans hk.live, hk.stored⟩
  | remove => exact absurd rfl hr
  | checkpoint | compact => exact ⟨hk.isLocked, hk.live, .inl hk.live⟩
  | recover => exact ⟨hk.isLocked, hs.recovered hk, hk.stored⟩

theorem Step.anchored (h : Step locked kind s t) (hs : Anchored locked s)
    (hr : kind ≠ .remove) : Anchored locked t := by
  -- what the old files hold stays held; a step adds to them only live values
  have hsnap : ∀ k, Locked locked s.snap k → t.live k = s.snap k := fun k hk =>
    (h.held hs hr (hs.held_of_snap hk)).live
  have hlog : ∀ k v, (k, v) ∈ s.log → v.any locked = true → t.live k = v := fun k v hmem hv =>
    (h.held hs hr (hs.held_of_log hmem hv)).live
  cases h with
  | logged k' v' hk' =>
    refine ⟨hsnap, fun k v hmem hv => ?_⟩
    rcases List.mem_append.mp hmem with hold | hnew
    · exact hlog k v hold hv
    · cases List.mem_singleton.mp hnew
      exact Function.update_self ..
  | bypass | recover => exact ⟨hsnap, hlog⟩
  | remove => exact absurd rfl hr
  | checkpoint => exact ⟨fun _ _ => rfl, hlog⟩
  | compact => exact ⟨fun _ _ => rfl, fun _ _ hmem _ => by cases hmem⟩

/-- **A locked value that the files hold stays live** through every run without
unguarded removals. -/
theorem Reaches.held (h : Reaches locked allowed s t)
    (hallowed : ∀ kind, allowed kind → kind ≠ .remove) (hs : Anchored locked s) :
    Anchored locked t ∧ ∀ k v, Held locked s k v → Held locked t k v := by
  induction h with
  | refl => exact ⟨hs, fun _ _ hk => hk⟩
  | tail _ hstep ih =>
    obtain ⟨kind, hkind, hstep⟩ := hstep
    obtain ⟨hanch, hheld⟩ := ih
    have hr := hallowed kind hkind
    exact ⟨hstep.anchored hanch hr, fun k v hk => hstep.held hanch hr (hheld k v hk)⟩

end CheckpointedLog
