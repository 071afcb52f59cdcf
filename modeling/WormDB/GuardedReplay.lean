import Mathlib.Tactic.Common
import Mathlib.Logic.Function.Basic

/-! # Replaying a log over a map with write-once values

A map from keys to values, some of which are locked: a record of the log sets or
removes the value of its key unless the value there is locked.

`replay_apply` computes a replay one key at a time: a locked value stays, and
otherwise one record decides (`deciding`), the first that writes a locked value
or, without such, the last.  So replaying a log over what it produced changes
nothing (`replay_replay`), which is what makes a log that reaches back before a
checkpoint harmless. -/
namespace GuardedReplay

variable {κ V : Type} [DecidableEq κ] (locked : V → Bool)

/-- The key has a locked value. -/
def Locked (m : κ → Option V) (k : κ) : Prop := (m k).any locked = true

instance (m : κ → Option V) (k : κ) : Decidable (Locked locked m k) :=
  inferInstanceAs (Decidable ((m k).any locked = true))

/-- One record: the key and its new value, or none. -/
def apply (m : κ → Option V) (r : κ × Option V) : κ → Option V :=
  if Locked locked m r.1 then m else Function.update m r.1 r.2

def replay (m : κ → Option V) (log : List (κ × Option V)) : κ → Option V :=
  log.foldl (apply locked) m

/-- The value the log gives a key that is not locked to begin with. -/
def deciding : List (κ × Option V) → κ → Option (Option V)
  | [], _ => none
  | r :: log, k =>
      if r.1 = k then
        if r.2.any locked then some r.2 else (deciding log k).or (some r.2)
      else deciding log k

variable {locked} {m : κ → Option V} {log : List (κ × Option V)}

theorem replay_append (log' : List (κ × Option V)) :
    replay locked m (log ++ log') = replay locked (replay locked m log) log' :=
  List.foldl_append

variable {r : κ × Option V}

theorem apply_of_not_locked (h : ¬ Locked locked m r.1) :
    apply locked m r = Function.update m r.1 r.2 := if_neg h

theorem apply_of_locked (h : Locked locked m r.1) :
    apply locked m r = m := if_pos h

variable {k : κ}

theorem apply_other (h : r.1 ≠ k) : apply locked m r k = m k := by
  unfold apply
  split
  · rfl
  · exact Function.update_of_ne (Ne.symm h) ..

/-- A locked value stays. -/
theorem replay_of_locked (h : Locked locked m k) : replay locked m log k = m k := by
  induction log generalizing m with
  | nil => rfl
  | cons r log ih =>
    have hstep : apply locked m r k = m k := by
      by_cases hk : r.1 = k
      · rw [apply_of_locked (hk ▸ h)]
      · exact apply_other hk
    have hlocked : Locked locked (apply locked m r) k := by rwa [Locked, hstep]
    exact (ih hlocked).trans hstep

/-- A value that is not locked gives way to the log's. -/
theorem replay_of_not_locked (h : ¬ Locked locked m k) :
    replay locked m log k = (deciding locked log k).getD (m k) := by
  induction log generalizing m with
  | nil => rfl
  | cons r log ih =>
    have hcons : replay locked m (r :: log) = replay locked (apply locked m r) log := rfl
    rw [hcons, deciding]
    by_cases hk : r.1 = k
    · subst hk
      have hval : apply locked m r r.1 = r.2 := by
        rw [apply_of_not_locked h, Function.update_self]
      rw [if_pos rfl]
      by_cases hr : r.2.any locked = true
      · rw [if_pos hr, replay_of_locked (by rwa [Locked, hval]), hval]
        rfl
      · rw [if_neg hr, ih (by rwa [Locked, hval]), hval]
        cases deciding locked log r.1 <;> rfl
    · have hsame : apply locked m r k = m k := apply_other hk
      rw [if_neg hk, ih (by rwa [Locked, hsame]), hsame]

/-- **A replay, key by key.** -/
theorem replay_apply (k : κ) : replay locked m log k =
    if Locked locked m k then m k else (deciding locked log k).getD (m k) := by
  split
  · exact replay_of_locked ‹_›
  · exact replay_of_not_locked ‹_›

/-- **Replaying a log over its own outcome changes nothing.** -/
theorem replay_replay : replay locked (replay locked m log) log = replay locked m log := by
  funext k
  by_cases hl : Locked locked (replay locked m log) k
  · exact replay_of_locked hl
  · rw [replay_of_not_locked hl]
    have hm : ¬ Locked locked m k := by
      intro hm
      exact hl (by rwa [Locked, replay_of_locked hm])
    rw [replay_of_not_locked hm]
    cases deciding locked log k <;> rfl

/-- A log leaves a map as it is exactly when every key it decides has its value
already, or a locked one. -/
theorem replay_eq_self_iff : replay locked m log = m ↔
    ∀ k, Locked locked m k ∨ ∀ v ∈ deciding locked log k, v = m k := by
  constructor
  · intro h k
    by_cases hl : Locked locked m k
    · exact .inl hl
    · right
      intro v hv
      have hk := congrFun h k
      rw [replay_of_not_locked hl, hv] at hk
      exact hk
  · intro h
    funext k
    rw [replay_apply]
    split
    · rfl
    · rename_i hl
      cases hd : deciding locked log k with
      | none => rfl
      | some v => exact (h k).resolve_left hl v hd

/-- A record that writes a locked value decides its key, or an earlier one like it
does. -/
theorem deciding_of_mem {v : Option V} (hmem : (k, v) ∈ log) (hv : v.any locked = true) :
    ∃ w, (k, w) ∈ log ∧ w.any locked = true ∧ deciding locked log k = some w := by
  induction log with
  | nil => cases hmem
  | cons r log ih =>
    by_cases hr : r.1 = k ∧ r.2.any locked = true
    · obtain ⟨rfl, hlock⟩ := hr
      refine ⟨r.2, List.mem_cons_self, hlock, ?_⟩
      rw [deciding, if_pos rfl, if_pos hlock]
    · have htail : (k, v) ∈ log := by
        rcases List.mem_cons.mp hmem with rfl | htail
        · exact absurd ⟨rfl, hv⟩ hr
        · exact htail
      obtain ⟨w, hw, hlock, hdec⟩ := ih htail
      refine ⟨w, List.mem_cons_of_mem _ hw, hlock, ?_⟩
      rw [deciding]
      by_cases hk : r.1 = k
      · rw [if_pos hk, if_neg (fun hx => hr ⟨hk, hx⟩), hdec]
        rfl
      · rw [if_neg hk, hdec]

end GuardedReplay
