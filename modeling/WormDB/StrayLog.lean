import WormDB.CheckpointedLog

/-! # A log whose appends can fail

The machine of `CheckpointedLog` with appends that go wrong: a write that was
refused may leave its record in the log, and an acknowledged record may never
reach it.  Both are kept as strays.  A later acknowledged write of the key settles
it.

`Sure` is the invariant: replaying the log gives every key without a stray its
live value (`Sure.agree`), and a value is locked in the log only if it is locked
live or a stray locks it. -/
namespace StrayLog
open List GuardedReplay CheckpointedLog

variable {κ V : Type} [DecidableEq κ] (locked : V → Bool)

/-- No stray writes the key. -/
def Settled (stray : List (κ × Option V)) (k : κ) : Prop := ∀ w ∈ stray, w.1 ≠ k

/-- No stray locks the key. -/
def Unlocked (stray : List (κ × Option V)) (k : κ) : Prop :=
  ∀ w ∈ stray, w.1 = k → w.2.any locked = false

/-- The strays after an acknowledged write of the key. -/
def settle (stray : List (κ × Option V)) (k : κ) : List (κ × Option V) :=
  stray.filter (fun w => w.1 ≠ k)

/-- What memory and the log agree on, up to the strays. -/
structure Sure (s : State κ V) (stray : List (κ × Option V)) : Prop where
  agree : ∀ k, Settled stray k → replay locked s.snap s.log k = s.live k
  lock : ∀ k, Unlocked locked stray k → Locked locked (replay locked s.snap s.log) k →
    Locked locked s.live k

variable {locked} {s : State κ V} {stray : List (κ × Option V)}

/-! ## A replay, key by key -/

variable {log other log' : List (κ × Option V)} {k : κ}

/-- Records of other keys decide nothing. -/
theorem deciding_append_of_other (h : Settled other k) :
    deciding locked (log ++ other ++ log') k = deciding locked (log ++ log') k := by
  induction log with
  | nil =>
    induction other with
    | nil => rfl
    | cons r other ih =>
      obtain ⟨hr, hrest⟩ := forall_mem_cons.mp h
      simp only [nil_append, cons_append, deciding, if_neg hr] at ih ⊢
      exact ih hrest
  | cons r log ih => simp only [cons_append, deciding, ih]

variable {m : κ → Option V}

theorem replay_append_of_other (h : Settled other k) :
    replay locked m (log ++ other ++ log') k = replay locked m (log ++ log') k := by
  rw [replay_apply, replay_apply, deciding_append_of_other h]

/-- **What a replay locks**: the keys that were locked, and those a record locks. -/
theorem locked_replay_iff : Locked locked (replay locked m log) k ↔
      Locked locked m k ∨ ∃ v, (k, v) ∈ log ∧ v.any locked = true := by
  induction log generalizing m with
  | nil => simp [replay]
  | cons r log ih =>
    have hcons : replay locked m (r :: log) = replay locked (apply locked m r) log := rfl
    have hstep : Locked locked (apply locked m r) k ↔
        Locked locked m k ∨ r.1 = k ∧ r.2.any locked = true := by
      by_cases hk : r.1 = k
      · subst hk
        by_cases hl : Locked locked m r.1
        · rw [apply_of_locked hl]
          exact ⟨.inl, fun _ => hl⟩
        · rw [apply_of_not_locked hl, Locked, Function.update_self]
          exact ⟨fun hr => .inr ⟨rfl, hr⟩, fun hr => (hr.resolve_left hl).2⟩
      · rw [Locked, apply_other hk]
        exact ⟨.inl, fun hr => hr.resolve_right (fun hx => hk hx.1)⟩
    rw [hcons, ih, hstep, or_assoc]
    refine or_congr_right ⟨?_, ?_⟩
    · rintro (⟨rfl, hr⟩ | ⟨v, hv, hlock⟩)
      · exact ⟨r.2, mem_cons_self, hr⟩
      · exact ⟨v, mem_cons_of_mem _ hv, hlock⟩
    · rintro ⟨v, hv, hlock⟩
      rcases mem_cons.mp hv with rfl | htail
      · exact .inl ⟨rfl, hlock⟩
      · exact .inr ⟨v, htail, hlock⟩

/-! ## Strays -/

variable {stray' : List (κ × Option V)}

omit [DecidableEq κ] in
theorem settled_append :
    Settled (stray ++ stray') k ↔ Settled stray k ∧ Settled stray' k := forall_mem_append

omit [DecidableEq κ] in
theorem unlocked_append :
    Unlocked locked (stray ++ stray') k ↔ Unlocked locked stray k ∧ Unlocked locked stray' k :=
  forall_mem_append

omit [DecidableEq κ] in
theorem Settled.unlocked (h : Settled stray k) : Unlocked locked stray k :=
  fun w hw hk => absurd hk (h w hw)

theorem settled_settle (stray : List (κ × Option V)) (k : κ) : Settled (settle stray k) k :=
  fun _ hw => of_decide_eq_true (mem_filter.mp hw).2

variable {k' : κ}

/-- A write settles its own key only. -/
theorem settled_of_settle (h : Settled (settle stray k) k') (hk : k' ≠ k) : Settled stray k' := by
  rintro w hw rfl
  exact h w (mem_filter.mpr ⟨hw, decide_eq_true hk⟩) rfl

theorem unlocked_of_settle (h : Unlocked locked (settle stray k) k') (hk : k' ≠ k) :
    Unlocked locked stray k' := by
  rintro w hw rfl
  exact h w (mem_filter.mpr ⟨hw, decide_eq_true hk⟩) rfl

theorem Settled.settle (h : Settled stray k) (k' : κ) : Settled (settle stray k') k :=
  fun w hw => h w (mem_filter.mp hw).1

/-! ## The steps keep the invariant -/

/-- What replaying one more record gives. -/
theorem replay_snoc (k : κ) (v : Option V) :
    replay locked s.snap (s.log ++ [(k, v)]) = apply locked (replay locked s.snap s.log) (k, v) :=
  replay_append _

section
variable (h : Sure locked s stray)
include h

/-- **An acknowledged write**, of a key that no stray locks. -/
theorem Sure.write (v : Option V)
    (hfree : ¬ Locked locked s.live k) (hstray : Unlocked locked stray k) :
    Sure locked (s.write k v) (settle stray k) := by
  have hlog : ¬ Locked locked (replay locked s.snap s.log) k := fun hx => hfree (h.lock k hstray hx)
  have hreplay : replay locked s.snap (s.write k v).log =
      Function.update (replay locked s.snap s.log) k v := by
    rw [State.write, replay_snoc]
    exact apply_of_not_locked hlog
  constructor
  · intro k' hk'
    show replay locked s.snap (s.write k v).log k' = Function.update s.live k v k'
    rw [hreplay]
    by_cases hk : k' = k
    · rw [hk, Function.update_self, Function.update_self]
    · rw [Function.update_of_ne hk, Function.update_of_ne hk]
      exact h.agree k' (settled_of_settle hk' hk)
  · intro k' hk' hx
    show Locked locked (Function.update s.live k v) k'
    change Locked locked (replay locked s.snap (s.write k v).log) k' at hx
    rw [hreplay] at hx
    by_cases hk : k' = k
    · rw [Locked, hk, Function.update_self] at hx ⊢
      exact hx
    · rw [Locked, Function.update_of_ne hk] at hx ⊢
      exact h.lock k' (unlocked_of_settle hk' hk) hx

/-- **A refused write whose record stayed.** -/
theorem Sure.left (k : κ) (v : Option V) :
    Sure locked { s with log := s.log ++ [(k, v)] } (stray ++ [(k, v)]) := by
  constructor
  · intro k' hk'
    obtain ⟨hold, hnew⟩ := settled_append.mp hk'
    show replay locked s.snap (s.log ++ [(k, v)]) k' = s.live k'
    rw [replay_snoc, apply_other (hnew (k, v) mem_cons_self)]
    exact h.agree k' hold
  · intro k' hk' hx
    obtain ⟨hold, hnew⟩ := unlocked_append.mp hk'
    refine h.lock k' hold ?_
    rcases locked_replay_iff.mp hx with hsnap | ⟨w, hw, hlock⟩
    · exact locked_replay_iff.mpr (.inl hsnap)
    · rcases mem_append.mp hw with hmem | hmem
      · exact locked_replay_iff.mpr (.inr ⟨w, hmem, hlock⟩)
      · cases mem_singleton.mp hmem
        rw [hnew _ mem_cons_self rfl] at hlock
        cases hlock

/-- **Acknowledged records that never reach the log.** -/
theorem Sure.lost {lost : List (κ × Option V)} (hlog : s.log = log ++ lost ++ log') :
    Sure locked { s with log := log ++ log' } (stray ++ lost) := by
  constructor
  · intro k hk
    obtain ⟨hold, hlost⟩ := settled_append.mp hk
    show replay locked s.snap (log ++ log') k = s.live k
    rw [← replay_append_of_other hlost, ← hlog]
    exact h.agree k hold
  · intro k hk hx
    refine h.lock k (unlocked_append.mp hk).1 ?_
    rcases locked_replay_iff.mp hx with hsnap | ⟨w, hw, hlock⟩
    · exact locked_replay_iff.mpr (.inl hsnap)
    · refine locked_replay_iff.mpr (.inr ⟨w, ?_, hlock⟩)
      rw [hlog]
      rcases mem_append.mp hw with hmem | hmem
      · exact mem_append_left _ (mem_append_left _ hmem)
      · exact mem_append_right _ hmem

/-- A checkpoint without truncation: the log is replayed over the live map. -/
theorem Sure.checkpoint : Sure locked { s with snap := s.live } stray := by
  constructor
  · intro k hk
    show replay locked s.live s.log k = s.live k
    have hlive : replay locked s.snap s.log k = s.live k := h.agree k hk
    by_cases hl : Locked locked s.live k
    · exact replay_of_locked hl
    · rw [replay_of_not_locked hl]
      have hsnap : ¬ Locked locked s.snap k := by
        intro hx
        exact hl (h.lock k hk.unlocked (locked_replay_iff.mpr (.inl hx)))
      rw [replay_of_not_locked hsnap] at hlive
      cases hd : deciding locked s.log k with
      | none => rfl
      | some v =>
        rw [hd] at hlive
        exact hlive
  · intro k hk hx
    rcases locked_replay_iff.mp hx with hlive | hrecord
    · exact hlive
    · exact h.lock k hk (locked_replay_iff.mpr (.inr hrecord))

end

/-- A checkpoint with truncation settles everything. -/
theorem Sure.compact (live : κ → Option V) : Sure locked ⟨live, live, []⟩ [] where
  agree _ _ := rfl
  lock _ _ hx := hx

/-- Files that hold the live map. -/
theorem Sure.of_recoverable (h : Recoverable locked s) : Sure locked s [] where
  agree k _ := congrFun h k
  lock k _ hx := by
    rw [Recoverable] at h
    rwa [h] at hx

end StrayLog
