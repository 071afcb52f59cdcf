import Mathlib.Algebra.Group.Nat.Defs
import Mathlib.Data.List.Basic

/-! # The hybrid logical clock

A timestamp is one 64-bit word: 48 bits of wall-clock milliseconds over a 16-bit
counter.  `now` and `observe` issue the largest of the wall time, the word after the
last one, and (for `observe`) the word after the remote one, whose physical part is
first clamped to `MAX_DRIFT_MS` ahead of the wall clock.

The clamp keeps the remote counter, and the word after a full counter carries into the
physical part: a single forged timestamp goes past the bound (`observe_past_bound`).
`drift_bound` is the bound for the runs that take no such counter. -/
namespace WormDB.Hlc

/-! ## Packed timestamps -/

/-- Maximum tolerated remote-vs-local physical drift on `observe` (ms). -/
def MAX_DRIFT_MS : UInt64 := 60000

def LOGICAL_BITS : UInt64 := 16

def LOGICAL_MASK : UInt64 := ((1 : UInt64) <<< LOGICAL_BITS) - 1

def PHYSICAL_MAX : UInt64 := ((1 : UInt64) <<< 48) - 1

structure Unpacked where
  physicalMs : UInt64
  logical : UInt16
  deriving DecidableEq, Repr

def pack (physicalMs : UInt64) (logical : UInt16) : UInt64 :=
  ((physicalMs &&& PHYSICAL_MAX) <<< LOGICAL_BITS) ||| logical.toUInt64

def unpack (v : UInt64) : Unpacked where
  physicalMs := v >>> LOGICAL_BITS
  logical := (v &&& LOGICAL_MASK).toUInt16

/-- Addition of 64-bit words, where the sum is one: an overflow stops the program. -/
def plus (a b : UInt64) : Option UInt64 :=
  if a.toNat + b.toNat < 2 ^ 64 then some (a + b) else none

/-- The physical part, as a number. -/
def physical (v : UInt64) : Nat := (unpack v).physicalMs.toNat

/-- The counter, as a number. -/
def counter (v : UInt64) : Nat := (unpack v).logical.toNat

section
variable {a b c v : UInt64}

theorem physical_eq (v : UInt64) : physical v = v.toNat / 2 ^ 16 := by
  simp [physical, unpack, LOGICAL_BITS, Nat.shiftRight_eq_div_pow]

theorem counter_eq (v : UInt64) : counter v = v.toNat % 2 ^ 16 := by
  have hmask : LOGICAL_MASK.toNat = 2 ^ 16 - 1 := by decide
  simp [counter, unpack, hmask, Nat.and_two_pow_sub_one_eq_mod _ 16]

theorem pack_toNat (physicalMs : UInt64) (logical : UInt16) :
    (pack physicalMs logical).toNat = physicalMs.toNat % 2 ^ 48 * 2 ^ 16 + logical.toNat := by
  have hmax : PHYSICAL_MAX.toNat = 2 ^ 48 - 1 := by decide
  have hl : logical.toNat < 2 ^ 16 := logical.toNat_lt
  have hp : physicalMs.toNat % 2 ^ 48 < 2 ^ 48 := Nat.mod_lt _ (by decide)
  simp only [pack, LOGICAL_BITS, UInt64.toNat_or, UInt64.toNat_shiftLeft, UInt64.toNat_and,
    UInt16.toNat_toUInt64, hmax, Nat.and_two_pow_sub_one_eq_mod _ 48, Nat.shiftLeft_eq]
  rw [show (16 : UInt64).toNat % 64 = 16 from rfl, Nat.mod_eq_of_lt (by omega), mul_comm,
    Nat.two_pow_add_eq_or_of_lt hl]

theorem plus_toNat (h : plus a b = some c) : c.toNat = a.toNat + b.toNat := by
  unfold plus at h
  split at h
  case isTrue hlt =>
    cases h
    exact (UInt64.toNat_add a b).trans (Nat.mod_eq_of_lt hlt)
  case isFalse => cases h

end

/-! ## The two calls -/

/-- A call, with the wall clock's reading that its caller passes. -/
inductive Call where
  | now (wallMs : UInt64)
  | observe (remote wallMs : UInt64)
  deriving DecidableEq, Repr

def Call.wallMs : Call → UInt64
  | .now wallMs => wallMs
  | .observe _ wallMs => wallMs

/-- The remote value as `observe` uses it: far ahead of the wall clock, its physical
part is replaced and its counter kept. -/
def clampRemote (remote wallMs : UInt64) : Option UInt64 := do
  let remoteParts := unpack remote
  if remoteParts.physicalMs > (← plus wallMs MAX_DRIFT_MS) then
    return pack (← plus wallMs MAX_DRIFT_MS) remoteParts.logical
  return remote

/-- The loop of a call, with what was computed before it. -/
inductive Loop where
  | now (wallPart : UInt64)
  | observe (remoteV wallPart : UInt64)
  deriving DecidableEq, Repr

/-- What a call does before its loop. -/
def Call.enter : Call → Option Loop
  | .now wallMs => some (.now (pack wallMs 0))
  | .observe remote wallMs => do
      let remoteV ← clampRemote remote wallMs
      return .observe remoteV (pack wallMs 0)

/-- The value that the loop's body tries to put in place of `prev`. -/
def Loop.candidate : Loop → UInt64 → Option UInt64
  | .now wallPart, prev => do
      return max wallPart (← plus prev 1)
  | .observe remoteV wallPart, prev => do
      return max wallPart (← plus (max prev remoteV) 1)

/-- A call that nobody interrupts: the value it issues, which becomes the clock's word. -/
def Call.issue (call : Call) (last : UInt64) : Option UInt64 := do
  (← call.enter).candidate last

/-- The runs of one clock from `init`: the calls in the order in which they took
effect, each with the value it issued and the newest first, and the clock's word. -/
inductive Run : List (Call × UInt64) → UInt64 → Prop where
  | init : Run [] 0
  | issue {issued : List (Call × UInt64)} {last v : UInt64} (call : Call)
      (run : Run issued last) (h : call.issue last = some v) : Run ((call, v) :: issued) v

section
variable {last prev remote wallMs v : UInt64} {issued : List (Call × UInt64)} {call : Call}
  {loop : Loop}

theorem issue_eq_some :
    call.issue last = some v ↔ ∃ loop, call.enter = some loop ∧ loop.candidate last = some v := by
  simp only [Call.issue, bind, Option.bind_eq_some_iff]

/-- The candidate, in numbers: the larger of a wall part and the successor of a base. -/
theorem candidate_cases (h : loop.candidate prev = some v) :
    (∃ wallPart, loop = .now wallPart ∧ v.toNat = max wallPart.toNat (prev.toNat + 1)) ∨
      ∃ remoteV wallPart, loop = .observe remoteV wallPart ∧
        v.toNat = max wallPart.toNat (max prev.toNat remoteV.toNat + 1) := by
  cases loop with
  | now wallPart =>
    simp only [Loop.candidate, bind, pure, Option.bind_eq_some_iff, Option.some.injEq] at h
    obtain ⟨next, hnext, rfl⟩ := h
    exact .inl ⟨wallPart, rfl, by rw [UInt64.toNat_max, plus_toNat hnext]; rfl⟩
  | observe remoteV wallPart =>
    simp only [Loop.candidate, bind, pure, Option.bind_eq_some_iff, Option.some.injEq] at h
    obtain ⟨next, hnext, rfl⟩ := h
    exact .inr ⟨remoteV, wallPart, rfl, by
      rw [UInt64.toNat_max, plus_toNat hnext, UInt64.toNat_max]; rfl⟩

/-- A candidate is past the value it replaces. -/
theorem lt_candidate (h : loop.candidate prev = some v) : prev < v := by
  rw [UInt64.lt_iff_toNat_lt]
  obtain ⟨_, -, hv⟩ | ⟨_, _, -, hv⟩ := candidate_cases h <;> omega

/-- A candidate of `observe` is past the clamped remote value. -/
theorem remote_lt_candidate {remoteV wallPart : UInt64}
    (h : (Loop.observe remoteV wallPart).candidate prev = some v) : remoteV < v := by
  rw [UInt64.lt_iff_toNat_lt]
  obtain ⟨_, hloop, -⟩ | ⟨_, _, hloop, hv⟩ := candidate_cases h
  · cases hloop
  · cases hloop
    omega

theorem enter_observe :
    (Call.observe remote wallMs).enter = some loop ↔
      ∃ remoteV, clampRemote remote wallMs = some remoteV ∧
        loop = .observe remoteV (pack wallMs 0) := by
  simp only [Call.enter, bind, pure, Option.bind_eq_some_iff, Option.some.injEq]
  exact exists_congr fun _ => and_congr_right' eq_comm

/-- Every issued value is at most the clock's word. -/
theorem Run.le_last (run : Run issued last) : ∀ p ∈ issued, p.2 ≤ last := by
  induction run with
  | init => simp
  | issue call run h ih =>
    obtain ⟨loop, -, hv⟩ := issue_eq_some.mp h
    have hlt := lt_candidate hv
    intro p hp
    rcases List.mem_cons.mp hp with rfl | hp
    · exact UInt64.le_refl _
    · exact UInt64.le_of_lt (UInt64.lt_of_le_of_lt (ih p hp) hlt)

/-- **The clock only goes forward**: each value is past all those issued before it. -/
theorem Run.pairwise (run : Run issued last) : (issued.map (·.2)).Pairwise (· > ·) := by
  induction run with
  | init => exact .nil
  | issue call run h ih =>
    obtain ⟨loop, -, hv⟩ := issue_eq_some.mp h
    refine .cons ?_ ih
    intro w hw
    obtain ⟨p, hp, rfl⟩ := List.mem_map.mp hw
    exact UInt64.lt_of_le_of_lt (run.le_last p hp) (lt_candidate hv)

/-- Each issued value is past the remote value that its call took in. -/
theorem Run.remote_lt (run : Run issued last) :
    ∀ p ∈ issued, ∀ remote wallMs remoteV, p.1 = .observe remote wallMs →
      clampRemote remote wallMs = some remoteV → remoteV < p.2 := by
  induction run with
  | init => simp
  | issue call run h ih =>
    intro p hp remote wallMs remoteV hcall hclamp
    rcases List.mem_cons.mp hp with rfl | hp
    · obtain ⟨loop, henter, hv⟩ := issue_eq_some.mp h
      obtain rfl : call = .observe remote wallMs := hcall
      obtain ⟨remoteV', hclamp', rfl⟩ := enter_observe.mp henter
      obtain rfl : remoteV' = remoteV := Option.some.inj (hclamp'.symm.trans hclamp)
      exact remote_lt_candidate hv
    · exact ih p hp remote wallMs remoteV hcall hclamp

end

/-! ## The drift bound -/

/-- The largest wall time seen. -/
def highestWall (issued : List (Call × UInt64)) : Nat :=
  (issued.map (·.1.wallMs.toNat)).foldr max 0

@[simp] theorem highestWall_cons (p : Call × UInt64) (issued : List (Call × UInt64)) :
    highestWall (p :: issued) = max p.1.wallMs.toNat (highestWall issued) := rfl

/-- How many timestamps, the newest included, have the newest one's physical part: those
issued since that part last changed. -/
def sinceChange : List (Call × UInt64) → Nat
  | [] => 0
  | p :: older => (older.takeWhile (fun q => physical q.2 = physical p.2)).length + 1

/-- What is claimed of the newest timestamp, when `observe` issued it: its physical part is
at most `MAX_DRIFT_MS` past the largest wall time seen, unless more than 65535 timestamps
were issued, itself included, since the physical part last changed. -/
def DriftBounded : List (Call × UInt64) → Prop
  | [] => True
  | (.now _, _) :: _ => True
  | (.observe remote wallMs, v) :: older =>
      physical v ≤ highestWall ((.observe remote wallMs, v) :: older) + MAX_DRIFT_MS.toNat ∨
        65535 < sinceChange older + 1

/-- A call that brings no counter to the bound: the clock is not past the bound already,
and a remote value that reaches it has the counter 0, or one the clock has reached. -/
def Call.Tame (last : UInt64) : Call → Prop
  | .now _ => True
  | .observe remote wallMs =>
      physical last ≤ wallMs.toNat + MAX_DRIFT_MS.toNat ∧
        (physical remote < wallMs.toNat + MAX_DRIFT_MS.toNat ∨ counter remote = 0 ∨
          physical last = wallMs.toNat + MAX_DRIFT_MS.toNat ∧ counter remote ≤ counter last)

/-- A run all of whose calls are tame at the word they find. -/
inductive TameRun : List (Call × UInt64) → UInt64 → Prop where
  | init : TameRun [] 0
  | issue {issued : List (Call × UInt64)} {last v : UInt64} (call : Call)
      (run : TameRun issued last) (tame : call.Tame last) (h : call.issue last = some v) :
      TameRun ((call, v) :: issued) v

section
variable {last prev remote wallMs remoteV v : UInt64} {issued : List (Call × UInt64)}
  {call : Call}

theorem physical_pack_le (physicalMs : UInt64) (logical : UInt16) :
    physical (pack physicalMs logical) ≤ physicalMs.toNat := by
  have hl : logical.toNat < 2 ^ 16 := logical.toNat_lt
  have hmod := Nat.mod_le physicalMs.toNat (2 ^ 48)
  rw [physical_eq, pack_toNat]
  omega

/-- The clamp: a remote value is taken as it is, or with its counter at the bound. -/
theorem clampRemote_cases (h : clampRemote remote wallMs = some remoteV) :
    remoteV = remote ∧ physical remote ≤ wallMs.toNat + MAX_DRIFT_MS.toNat ∨
      wallMs.toNat + MAX_DRIFT_MS.toNat < physical remote ∧
        physical remoteV = wallMs.toNat + MAX_DRIFT_MS.toNat ∧
        counter remoteV = counter remote := by
  simp only [clampRemote, bind, pure, Option.bind_eq_some_iff] at h
  obtain ⟨bound, hbound, h⟩ := h
  have hb := plus_toNat hbound
  split at h
  case isFalse hle =>
    cases h
    refine .inl ⟨rfl, ?_⟩
    rw [gt_iff_lt, UInt64.lt_iff_toNat_lt, Nat.not_lt] at hle
    exact hb ▸ hle
  case isTrue hlt =>
    obtain ⟨bound', hbound', h⟩ := Option.bind_eq_some_iff.mp h
    obtain rfl : bound' = bound := Option.some.inj (hbound'.symm.trans hbound)
    cases h
    rw [gt_iff_lt, UInt64.lt_iff_toNat_lt] at hlt
    have hlt' : bound'.toNat < physical remote := hlt
    have hsmall : physical remote < 2 ^ 48 := by
      have := remote.toNat_lt
      rw [physical_eq]
      omega
    have hl : (unpack remote).logical.toNat < 2 ^ 16 := (unpack remote).logical.toNat_lt
    refine .inr ⟨hb ▸ hlt', ?_, ?_⟩
    · rw [physical_eq, pack_toNat]
      omega
    · rw [counter_eq, pack_toNat]
      show _ = (unpack remote).logical.toNat
      omega

/-- The two parts are the word. -/
theorem parts (v : UInt64) : v.toNat = physical v * 2 ^ 16 + counter v := by
  rw [physical_eq, counter_eq]
  omega

/-- The word after `v`: the counter goes up, or a full one carries. -/
theorem succ_cases {w : UInt64} (h : w.toNat = v.toNat + 1) :
    physical w = physical v ∧ counter w = counter v + 1 ∨
      counter v = 65535 ∧ physical w = physical v + 1 ∧ counter w = 0 := by
  simp only [physical_eq, counter_eq, h]
  omega

/-- Where an issued value comes from: the wall clock, the last value, or a remote one. -/
theorem issue_cases (h : call.issue last = some v) :
    physical v ≤ call.wallMs.toNat ∨ v.toNat = last.toNat + 1 ∨
      ∃ remote wallMs remoteV, call = .observe remote wallMs ∧
        clampRemote remote wallMs = some remoteV ∧ last.toNat < remoteV.toNat ∧
        v.toNat = remoteV.toNat + 1 := by
  obtain ⟨loop, henter, hcand⟩ := issue_eq_some.mp h
  have hwall := physical_pack_le call.wallMs 0
  rw [physical_eq] at hwall ⊢
  cases call with
  | now wallMs =>
    cases henter
    obtain ⟨wallPart, hloop, hv⟩ | ⟨_, _, hloop, -⟩ := candidate_cases hcand
    · cases hloop
      simp only [Call.wallMs] at hwall ⊢
      omega
    · cases hloop
  | observe remote wallMs =>
    obtain ⟨remoteV, hclamp, rfl⟩ := enter_observe.mp henter
    obtain ⟨_, hloop, -⟩ | ⟨_, _, hloop, hv⟩ := candidate_cases hcand
    · cases hloop
    · cases hloop
      simp only [Call.wallMs] at hwall ⊢
      rcases Nat.lt_or_ge last.toNat remoteV.toNat with hlt | hge
      · by_cases hw : v.toNat = remoteV.toNat + 1
        · exact .inr (.inr ⟨remote, wallMs, remoteV, rfl, hclamp, hlt, hw⟩)
        · exact .inl (by omega)
      · omega

/-- What a tame `observe` may take from the remote side. -/
theorem tame_remote (tame : (Call.observe remote wallMs).Tame last)
    (hclamp : clampRemote remote wallMs = some remoteV) (hlt : last.toNat < remoteV.toNat) :
    physical remoteV < wallMs.toNat + MAX_DRIFT_MS.toNat ∨
      physical remoteV = wallMs.toNat + MAX_DRIFT_MS.toNat ∧ counter remoteV = 0 := by
  obtain ⟨-, htame⟩ := tame
  have hl := parts last
  have hr := parts remoteV
  rcases clampRemote_cases hclamp with ⟨rfl, hle⟩ | ⟨hgt, hphys, hcount⟩
  · omega
  · omega

theorem TameRun.run (run : TameRun issued last) : Run issued last := by
  induction run with
  | init => exact .init
  | issue call _ _ h ih => exact .issue call ih h

/-- The newest timestamp is the clock's word. -/
theorem Run.newest (run : Run issued last) :
    issued = [] ∧ last = 0 ∨ ∃ call older, issued = (call, last) :: older := by
  cases run with
  | init => exact .inl ⟨rfl, rfl⟩
  | issue call run h => exact .inr ⟨call, _, rfl⟩

/-- A timestamp with the same physical part lengthens the count. -/
theorem sinceChange_same (run : Run issued last) (hne : issued ≠ [])
    (hv : physical v = physical last) :
    sinceChange ((call, v) :: issued) = sinceChange issued + 1 := by
  obtain ⟨rfl, -⟩ | ⟨call', older, rfl⟩ := run.newest
  · exact absurd rfl hne
  · simp [sinceChange, hv]

theorem sinceChange_pos (p : Call × UInt64) (issued : List (Call × UInt64)) :
    1 ≤ sinceChange (p :: issued) := by
  simp [sinceChange]

/-- **What keeps the bound**: a clock at the bound has counted up to its counter. -/
theorem TameRun.counted (run : TameRun issued last) :
    highestWall issued + MAX_DRIFT_MS.toNat ≤ physical last →
      counter last ≤ sinceChange issued := by
  have hdrift : MAX_DRIFT_MS.toNat = 60000 := rfl
  induction run with
  | init => simp [hdrift, physical_eq]
  | @issue issued last v call run tame h ih =>
    intro hpast
    simp only [highestWall_cons] at hpast
    have hpos := sinceChange_pos (call, v) issued
    rcases issue_cases h with hw | hv | ⟨remote, wallMs, remoteV, rfl, hclamp, hlt, hv⟩
    · -- the wall clock's own time is far from the bound
      omega
    · rcases succ_cases hv with ⟨hphys, hcount⟩ | ⟨-, -, hcount⟩
      · have hne : issued ≠ [] := by
          rintro rfl
          obtain ⟨-, rfl⟩ | ⟨_, _, hcons⟩ := run.run.newest
          · rw [hphys, physical_eq, UInt64.toNat_zero] at hpast
            omega
          · cases hcons
        rw [sinceChange_same run.run hne hphys, hcount]
        exact Nat.succ_le_succ (ih (by omega))
      · omega
    · -- a remote value at the bound brings the counter 0
      simp only [Call.wallMs] at hpast
      rcases succ_cases hv with ⟨hphys, hcount⟩ | ⟨-, -, hcount⟩
      · rcases tame_remote tame hclamp hlt with hr | ⟨-, hr⟩ <;> omega
      · omega

/-- **The drift bound**: in every run whose calls are tame, the bound holds of every
timestamp that `observe` issues. -/
theorem drift_bound (run : TameRun issued last) :
    ∀ newer older, issued = newer ++ older → DriftBounded older := by
  have hdrift : MAX_DRIFT_MS.toNat = 60000 := rfl
  induction run with
  | init =>
    intro newer older hsplit
    obtain ⟨-, rfl⟩ := List.append_eq_nil_iff.mp hsplit.symm
    trivial
  | @issue issued last v call run tame h ih =>
    intro newer older hsplit
    cases newer with
    | cons p newer => exact ih newer older (List.cons.inj hsplit).2
    | nil =>
      obtain rfl : (call, v) :: issued = older := hsplit
      cases call with
      | now wallMs => trivial
      | observe remote wallMs =>
        show physical v ≤ max wallMs.toNat (highestWall issued) + _ ∨ _
        have hcounted := run.counted
        have hlast : physical last ≤ wallMs.toNat + MAX_DRIFT_MS.toNat := tame.1
        rcases issue_cases h with hw | hv | ⟨_, _, remoteV, hcall, hclamp, hlt, hv⟩
        · simp only [Call.wallMs] at hw
          omega
        · rcases succ_cases hv with ⟨hphys, -⟩ | ⟨hfull, hphys, -⟩ <;> omega
        · cases hcall
          rcases succ_cases hv with ⟨hphys, -⟩ | ⟨hfull, hphys, -⟩ <;>
            rcases tame_remote tame hclamp hlt with hr | ⟨hr, hzero⟩ <;> omega

end

/-- A remote clock ten days ahead of the wall clock, with the counter 0. -/
theorem drift_bound_forged_physical :
    DriftBounded [(.observe (pack 864001000 0) 1000, pack 61000 1)] :=
  drift_bound (.issue (.observe (pack 864001000 0) 1000) .init (by
    rw [Call.Tame]
    decide) (by decide)) [] _ rfl

/-- The same remote clock with a full counter: the first timestamp is past the bound. -/
theorem observe_past_bound :
    ¬∀ issued last, Run issued last → (issued.map (·.1.wallMs)).Pairwise (· ≥ ·) →
      DriftBounded issued := by
  intro h
  have run : Run [(.observe (pack 864001000 65535) 1000, pack 61001 0)] (pack 61001 0) :=
    .issue (.observe (pack 864001000 65535) 1000) .init (by decide)
  rcases h _ _ run (.cons (by simp) .nil) with hphys | hcount
  · exact absurd hphys (by decide)
  · exact absurd hcount (by decide)

end WormDB.Hlc
