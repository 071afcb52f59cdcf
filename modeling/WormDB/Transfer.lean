import WormDB.ProcedureCtx
import WormDB.Wire
import Mathlib.Algebra.BigOperators.Fin

/-! # Concurrent transfers

The procedure of `procedures/transfer.zig` as the steps that other calls can come between:
locking the two shards, the lower one first, reading the two balances, writing them, and
unlocking.  A `Bank` is a store with any number of calls in progress.

The two writes go out one after the other and neither reports a failure.  `Sound` is the
condition on a call that is about to write: the accounts are two, both can be written, and
the credited balance stays in range.  In a run whose calls all meet it money is neither
made nor lost (`transfer_conserves`). -/
namespace WormDB
open ByteCodec DecimalText
open Function (update_of_ne update_self)
open Overlay

/-- The arguments of a call, parsed. -/
structure Transfer where
  fromKey : Bytes
  toKey : Bytes
  amount : Int
  deriving DecidableEq

namespace Transfer

/-- `lockKeys2` locks the lower of the two shards first. -/
def low (t : Transfer) : Fin shardCount := min (shardIndex t.fromKey) (shardIndex t.toKey)

def high (t : Transfer) : Fin shardCount := max (shardIndex t.fromKey) (shardIndex t.toKey)

/-- The checks before anything is locked, with the text of the error. -/
def ofArgs (args : List Bytes) : Except Bytes Transfer :=
  match args[0]?, args[1]? with
  | some fromKey, some toKey =>
      match (args[2]?).bind (parseInt 64) with
      | none => .error (ascii "invalid amount")
      | some amount =>
          if amount ≤ 0 then .error (ascii "amount must be positive")
          else .ok ⟨fromKey, toKey, amount⟩
  | _, _ => .error (ascii "transfer requires 3 args: <from> <to> <amount>")

end Transfer

/-- How far a call has come. -/
inductive Phase where
  | called
  | locking (t : Transfer)
  | lockedLow (t : Transfer)
  | locked (t : Transfer)
  | readFrom (t : Transfer) (fromBal : Int)
  | readTo (t : Transfer) (fromBal toBal : Int)
  | debited (t : Transfer) (toBal : Int)
  | returning (t : Transfer) (result : Response)
  | unlocking (t : Transfer) (result : Response)
  | returned (result : Response)
  | trapped (t : Transfer)

namespace Phase

/-- The shards that a call holds. -/
def held : Phase → List (Fin shardCount)
  | called | locking _ | returned _ => []
  | lockedLow t | unlocking t _ => [t.low]
  | locked t | readFrom t _ | readTo t _ _ | debited t _ | returning t _ | trapped t =>
      [t.low, t.high]

/-- The shard that the next step locks. -/
def wanted : Phase → Option (Fin shardCount)
  | locking t => some t.low
  | lockedLow t => some t.high
  | _ => none

/-- The next step of a call, once the shard it wants is free. -/
def step (env : WriteEnv) (args : List Bytes) (o : Overlay) : Phase → Option (Phase × Overlay)
  | called =>
      match Transfer.ofArgs args with
      | .error msg => some (.returned (.err msg), o)
      | .ok t => some (.locking t, o)
  | locking t => some (if t.low = t.high then .locked t else .lockedLow t, o)
  | lockedLow t => some (.locked t, o)
  | locked t =>
      match o.getInt 64 t.fromKey with
      | none => some (.returning t (.err (ascii "from account not found")), o)
      | some fromBal => some (.readFrom t fromBal, o)
  | readFrom t fromBal =>
      match o.getInt 64 t.toKey with
      | none => some (.returning t (.err (ascii "to account not found")), o)
      | some toBal => some (.readTo t fromBal toBal, o)
  | readTo t fromBal toBal =>
      if fromBal < t.amount then some (.returning t (.err (ascii "insufficient_funds")), o)
      else some (.debited t toBal, o.setInt env t.fromKey (fromBal - t.amount))
  | debited t toBal =>
      -- the sum is an `i64`, checked after the first write is out
      if Fits 64 (toBal + t.amount) then
        some (.returning t .ok, o.setInt env t.toKey (toBal + t.amount))
      else some (.trapped t, o)
  | returning t result =>
      some (if t.low = t.high then .returned result else .unlocking t result, o)
  | unlocking _ result => some (.returned result, o)
  | returned _ => none
  | trapped _ => none

end Phase

/-- The store and the calls on it. -/
structure Bank (n : Nat) where
  overlay : Overlay
  phases : Fin n → Phase

namespace Bank
variable {n : Nat}

/-- No call has begun. -/
def start (o : Overlay) : Bank n := ⟨o, fun _ => .called⟩

/-- The shard is held by another call. -/
def Busy (s : Bank n) (i : Fin n) (shard : Fin shardCount) : Prop :=
  ∃ j, j ≠ i ∧ shard ∈ (s.phases j).held

/-- A failed safety check has ended the process. -/
def Halted (s : Bank n) : Prop := ∃ j t, s.phases j = .trapped t

/-- Call `i` makes its next step. -/
inductive Step (args : Fin n → List Bytes) (env : WriteEnv) (i : Fin n) :
    Bank n → Bank n → Prop where
  | move {s : Bank n} {phase : Phase} {o : Overlay} (hrunning : ¬ s.Halted)
      (hfree : ∀ shard, (s.phases i).wanted = some shard → ¬ s.Busy i shard)
      (hstep : (s.phases i).step env (args i) s.overlay = some (phase, o)) :
      Step args env i s ⟨o, Function.update s.phases i phase⟩

end Bank

/-! ## Balances -/

namespace Overlay

/-- The balance of an account. -/
def balance (o : Overlay) (key : Bytes) : Option Int := o.getInt 64 key

/-- The sum of all balances. -/
def total (o : Overlay) : Int := ∑ key ∈ o.keys, (o.balance key).getD 0

end Overlay

/-- What has been debited and not yet credited. -/
def Phase.inFlight : Phase → Int
  | .debited t _ => t.amount
  | _ => 0

def Bank.inFlight {n : Nat} (s : Bank n) : Int := ∑ i, (s.phases i).inFlight

/-- The condition on a step that writes.  At the debit: two accounts, both of which can be
written, the credited balance in range, and memory; at the credit, memory. -/
def Sound {n : Nat} (env : WriteEnv) (s : Bank n) (i : Fin n) : Prop :=
  match s.phases i with
  | .readTo t fromBal _ => t.amount ≤ fromBal →
      t.fromKey ≠ t.toKey ∧ s.overlay.store.wormBlocked t.fromKey = false ∧
        s.overlay.store.wormBlocked t.toKey = false ∧
        (∀ b, s.overlay.balance t.toKey = some b → Fits 64 (b + t.amount)) ∧ env.Ample
  | .debited _ _ => env.Ample
  | _ => True

/-- A step of a run: which call made it, and the store around it. -/
structure BankEvent (n : Nat) where
  call : Fin n
  before : Overlay
  after : Overlay

/-- Runs whose steps all meet a condition. -/
inductive BankRun {n : Nat} (meets : WriteEnv → Bank n → Fin n → Prop)
    (args : Fin n → List Bytes) : Bank n → List (BankEvent n) → Bank n → Prop where
  | nil (s : Bank n) : BankRun meets args s [] s
  | snoc {s s' s'' : Bank n} {events : List (BankEvent n)} {env : WriteEnv} {i : Fin n}
      (hrun : BankRun meets args s events s') (hmeets : meets env s' i)
      (hstep : Bank.Step args env i s' s'') :
      BankRun meets args s (events ++ [⟨i, s'.overlay, s''.overlay⟩]) s''

/-! ## Moving a balance -/

namespace Overlay

variable {o o' : Overlay} {key : Bytes}

theorem balance_congr (h : o'.visible key = o.visible key) : o'.balance key = o.balance key := by
  rw [balance, balance, getInt_eq, getInt_eq, h]

variable {b : Int}

theorem balance_fits (h : o.balance key = some b) : Fits 64 b := by
  rw [balance, getInt_eq, Option.bind_eq_some_iff] at h
  obtain ⟨c, -, hparse⟩ := h
  exact parseInt_fits hparse

theorem mem_keys_of_balance (h : o.balance key = some b) : key ∈ o.keys := by
  rw [balance, getInt_eq, Option.bind_eq_some_iff] at h
  obtain ⟨c, hvisible, -⟩ := h
  rw [mem_keys, hvisible]
  rfl

/-- One account changes, and the sum with it. -/
theorem total_update {b' : Int}
    (hother : ∀ k, k ≠ key → o'.visible k = o.visible k) (hb : o.balance key = some b)
    (hb' : o'.balance key = some b') : o'.total = o.total - b + b' := by
  have hkey := mem_keys_of_balance hb
  have hkeys : o'.keys = o.keys := by
    ext k
    by_cases hk : k = key
    · subst hk
      simp only [hkey, mem_keys_of_balance hb']
    · rw [mem_keys, mem_keys, hother k hk]
  have hrest : ∑ k ∈ o.keys.erase key, (o'.balance k).getD 0 =
      ∑ k ∈ o.keys.erase key, (o.balance k).getD 0 := by
    refine Finset.sum_congr rfl (fun k hk => ?_)
    rw [balance_congr (hother k (Finset.ne_of_mem_erase hk))]
  have hsplit := Finset.add_sum_erase o.keys (fun k => (o.balance k).getD 0) hkey
  have hsplit' := Finset.add_sum_erase o.keys (fun k => (o'.balance k).getD 0) hkey
  simp only [hb, hb', Option.getD_some] at hsplit hsplit'
  rw [total, total, hkeys]
  omega

end Overlay

/-! ## What one step does -/

theorem Transfer.fromKey_held (t : Transfer) : shardIndex t.fromKey ∈ [t.low, t.high] := by
  rcases le_total (shardIndex t.fromKey) (shardIndex t.toKey) with h | h
  · simp [low, h]
  · simp [high, h]

theorem Transfer.toKey_held (t : Transfer) : shardIndex t.toKey ∈ [t.low, t.high] := by
  rcases le_total (shardIndex t.fromKey) (shardIndex t.toKey) with h | h
  · simp [high, h]
  · simp [low, h]

variable {args : List Bytes} {t : Transfer}

theorem Transfer.ofArgs_amount (h : ofArgs args = .ok t) : 0 < t.amount := by
  unfold ofArgs at h
  split at h
  · split at h
    · cases h
    · split at h
      · cases h
      · rename_i hpos
        cases h
        exact Int.not_le.mp hpos
  · cases h

namespace Phase

/-- What a call knows of the store. -/
def Ok (o : Overlay) : Phase → Prop
  | called | returning _ _ | unlocking _ _ | returned _ => True
  | locking t | lockedLow t | locked t => 0 < t.amount
  | readFrom t fromBal => 0 < t.amount ∧ o.balance t.fromKey = some fromBal
  | readTo t fromBal toBal =>
      0 < t.amount ∧ o.balance t.fromKey = some fromBal ∧ o.balance t.toKey = some toBal
  | debited t toBal =>
      0 < t.amount ∧ o.balance t.toKey = some toBal ∧ o.store.wormBlocked t.toKey = false ∧
        Fits 64 (toBal + t.amount)
  | trapped _ => False

/-- The call has written. -/
def Wrote : Phase → Prop
  | debited _ _ => True
  | returning _ result | unlocking _ result | returned result => result = .ok
  | _ => False

variable {o o' : Overlay} {phase : Phase}

/-- What a call knows is about the shards that it holds. -/
theorem Ok.congr (h : phase.Ok o)
    (hsame : ∀ key, shardIndex key ∈ phase.held → o'.visible key = o.visible key) :
    phase.Ok o' := by
  cases phase with
  | called => trivial
  | locking t | lockedLow t | locked t | trapped t => exact h
  | returning t result | unlocking t result => trivial
  | returned result => trivial
  | readFrom t fromBal =>
    rw [Ok, balance_congr (hsame _ t.fromKey_held)]
    exact h
  | readTo t fromBal toBal =>
    rw [Ok, balance_congr (hsame _ t.fromKey_held),
      balance_congr (hsame _ t.toKey_held)]
    exact h
  | debited t toBal =>
    rw [Ok, balance_congr (hsame _ t.toKey_held), Overlay.wormBlocked_eq,
      hsame _ t.toKey_held, ← Overlay.wormBlocked_eq]
    exact h

/-- A step that leaves the store alone. -/
structure Quiet (o : Overlay) (phase phase' : Phase) : Prop where
  ok : phase'.Ok o
  flight : phase.inFlight = 0
  flight' : phase'.inFlight = 0
  held : ∀ shard ∈ phase'.held, shard ∈ phase.held ∨ phase.wanted = some shard
  wrote : phase.Wrote → phase'.Wrote

/-- **Everything one step of a call can do.** -/
theorem step_cases {env : WriteEnv} {phase' : Phase}
    (hok : phase.Ok o) (hstep : phase.step env args o = some (phase', o')) :
    (o' = o ∧ Quiet o phase phase') ∨
    (∃ t fromBal toBal, phase = .readTo t fromBal toBal ∧ t.amount ≤ fromBal ∧
      phase' = .debited t toBal ∧ o' = o.setInt env t.fromKey (fromBal - t.amount)) ∨
    (∃ t toBal, phase = .debited t toBal ∧ phase' = .returning t .ok ∧
      o' = o.setInt env t.toKey (toBal + t.amount)) := by
  cases phase with
  | called =>
    rw [step] at hstep
    cases hargs : Transfer.ofArgs args with
    | error msg =>
      rw [hargs] at hstep
      cases hstep
      exact .inl ⟨rfl, trivial, rfl, rfl, by simp [Phase.held], fun h => h.elim⟩
    | ok t =>
      rw [hargs] at hstep
      cases hstep
      exact .inl ⟨rfl, Transfer.ofArgs_amount hargs, rfl, rfl, by simp [Phase.held],
        fun h => h.elim⟩
  | locking t =>
    cases hstep
    refine .inl ⟨rfl, ?_⟩
    by_cases hsame : t.low = t.high
    · rw [if_pos hsame]
      exact ⟨hok, rfl, rfl, by simp [Phase.held, Phase.wanted, hsame], fun h => h.elim⟩
    · rw [if_neg hsame]
      exact ⟨hok, rfl, rfl, by simp [Phase.held, Phase.wanted], fun h => h.elim⟩
  | lockedLow t =>
    cases hstep
    exact .inl ⟨rfl, hok, rfl, rfl, by simp [Phase.held, Phase.wanted], fun h => h.elim⟩
  | locked t =>
    rw [step] at hstep
    cases hbal : o.getInt 64 t.fromKey with
    | none =>
      rw [hbal] at hstep
      cases hstep
      exact .inl ⟨rfl, trivial, rfl, rfl, by simp [Phase.held], fun h => h.elim⟩
    | some fromBal =>
      rw [hbal] at hstep
      cases hstep
      exact .inl ⟨rfl, ⟨hok, hbal⟩, rfl, rfl, by simp [Phase.held], fun h => h.elim⟩
  | readFrom t fromBal =>
    rw [step] at hstep
    cases hbal : o.getInt 64 t.toKey with
    | none =>
      rw [hbal] at hstep
      cases hstep
      exact .inl ⟨rfl, trivial, rfl, rfl, by simp [Phase.held], fun h => h.elim⟩
    | some toBal =>
      rw [hbal] at hstep
      cases hstep
      exact .inl ⟨rfl, ⟨hok.1, hok.2, hbal⟩, rfl, rfl, by simp [Phase.held], fun h => h.elim⟩
  | readTo t fromBal toBal =>
    rw [step] at hstep
    by_cases hfunds : fromBal < t.amount
    · rw [if_pos hfunds] at hstep
      cases hstep
      exact .inl ⟨rfl, trivial, rfl, rfl, by simp [Phase.held], fun h => h.elim⟩
    · rw [if_neg hfunds] at hstep
      cases hstep
      exact .inr (.inl ⟨t, fromBal, toBal, rfl, Int.not_lt.mp hfunds, rfl, rfl⟩)
  | debited t toBal =>
    -- the sum is in range, so the process does not end here
    rw [step, if_pos hok.2.2.2] at hstep
    cases hstep
    exact .inr (.inr ⟨t, toBal, rfl, rfl, rfl⟩)
  | returning t result =>
    simp only [step, Option.some.injEq, Prod.mk.injEq] at hstep
    obtain ⟨rfl, rfl⟩ := hstep
    refine .inl ⟨rfl, ?_⟩
    by_cases hsame : t.low = t.high
    · rw [if_pos hsame]
      exact ⟨trivial, rfl, rfl, by simp [Phase.held], fun h => h⟩
    · rw [if_neg hsame]
      exact ⟨trivial, rfl, rfl, by simp [Phase.held], fun h => h⟩
  | unlocking t result =>
    simp only [step, Option.some.injEq, Prod.mk.injEq] at hstep
    obtain ⟨rfl, rfl⟩ := hstep
    exact .inl ⟨rfl, trivial, rfl, rfl, by simp [Phase.held], fun h => h⟩
  | returned result => cases hstep
  | trapped t => exact hok.elim

end Phase

/-! ## What a run keeps -/

/-- The invariant, with the store `o₀` that the run began with. -/
structure BankOk {n : Nat} (o₀ : Overlay) (s : Bank n) : Prop where
  phases : ∀ i, (s.phases i).Ok s.overlay
  apart : ∀ i j, i ≠ j → ∀ shard ∈ (s.phases i).held, shard ∉ (s.phases j).held
  sum : s.overlay.total + s.inFlight = o₀.total
  nonneg : ∀ key b, o₀.balance key = some b →
    ∃ b', s.overlay.balance key = some b' ∧ (0 ≤ b → 0 ≤ b')

section
variable {n : Nat} {o₀ : Overlay} {s : Bank n}

theorem BankOk.start (o₀ : Overlay) : BankOk o₀ (Bank.start o₀ : Bank n) where
  phases := fun _ => trivial
  apart := by simp [Bank.start, Phase.held]
  sum := by simp [Bank.start, Bank.inFlight, Phase.inFlight]
  nonneg := fun _ b h => ⟨b, h, fun hb => hb⟩

/-- Only the money of the call that moves changes its place. -/
theorem inFlight_update (s : Bank n) (i : Fin n) (o : Overlay) (phase : Phase) :
    (⟨o, Function.update s.phases i phase⟩ : Bank n).inFlight =
      s.inFlight - (s.phases i).inFlight + phase.inFlight := by
  have hsplit := Finset.add_sum_erase Finset.univ (fun j => (s.phases j).inFlight)
    (Finset.mem_univ i)
  have hsplit' := Finset.add_sum_erase Finset.univ
    (fun j => (Function.update s.phases i phase j).inFlight) (Finset.mem_univ i)
  have hrest : ∑ j ∈ Finset.univ.erase i, (Function.update s.phases i phase j).inFlight =
      ∑ j ∈ Finset.univ.erase i, (s.phases j).inFlight := by
    refine Finset.sum_congr rfl (fun j hj => ?_)
    rw [update_of_ne (Finset.ne_of_mem_erase hj)]
  simp only [update_self] at hsplit'
  simp only [Bank.inFlight]
  omega

variable {i : Fin n} {phase : Phase}

/-- The calls stay apart when one keeps its shards or takes one that is free. -/
theorem apart_update (h : ∀ i j, i ≠ j → ∀ shard ∈ (s.phases i).held, shard ∉ (s.phases j).held)
    (hheld : ∀ shard ∈ phase.held, shard ∈ (s.phases i).held ∨ ¬ s.Busy i shard) :
    ∀ a b, a ≠ b → ∀ shard ∈ (Function.update s.phases i phase a).held,
      shard ∉ (Function.update s.phases i phase b).held := by
  have hother : ∀ j, j ≠ i → ∀ shard ∈ phase.held, shard ∉ (s.phases j).held := by
    intro j hj shard hshard hmem
    rcases hheld shard hshard with hold | hfree
    · exact h i j (Ne.symm hj) shard hold hmem
    · exact hfree ⟨j, hj, hmem⟩
  intro a b hab shard ha hb
  by_cases hai : a = i
  · subst hai
    rw [update_self] at ha
    rw [update_of_ne (Ne.symm hab)] at hb
    exact hother b (Ne.symm hab) shard ha hb
  · rw [update_of_ne hai] at ha
    by_cases hbi : b = i
    · subst hbi
      rw [update_self] at hb
      exact hother a hai shard hb ha
    · rw [update_of_ne hbi] at hb
      exact h a b hab shard ha hb

/-- A call writes one key of a shard that it holds, and comes to a phase that holds no
more: the other calls see nothing of it. -/
theorem BankOk.write (h : BankOk o₀ s) {o : Overlay} {key : Bytes}
    {b b' : Int} (hheld : shardIndex key ∈ (s.phases i).held)
    (hkept : ∀ shard ∈ phase.held, shard ∈ (s.phases i).held)
    (hother : ∀ k, k ≠ key → o.visible k = s.overlay.visible k)
    (hb : s.overlay.balance key = some b) (hb' : o.balance key = some b') (hpos : 0 ≤ b → 0 ≤ b')
    (hok : phase.Ok o) (hmoved : phase.inFlight = (s.phases i).inFlight + b - b') :
    BankOk o₀ ⟨o, Function.update s.phases i phase⟩ where
  phases := by
    intro j
    by_cases hj : j = i
    · subst hj
      simp only [update_self]
      exact hok
    · simp only [update_of_ne hj]
      refine (h.phases j).congr (fun k hk => hother k ?_)
      rintro rfl
      exact h.apart i j (Ne.symm hj) _ hheld hk
  apart := apart_update h.apart (fun shard hshard => .inl (hkept shard hshard))
  sum := by
    have htotal := total_update hother hb hb'
    have hsum := h.sum
    rw [inFlight_update, hmoved]
    simp only
    omega
  nonneg := by
    intro k c hc
    obtain ⟨c', hc', hge⟩ := h.nonneg k c hc
    by_cases hk : k = key
    · subst hk
      cases hc'.symm.trans hb
      exact ⟨b', hb', fun hc => hpos (hge hc)⟩
    · refine ⟨c', ?_, hge⟩
      rw [← hc']
      exact balance_congr (hother k hk)

/-- A step of call `i` that leaves the store alone. -/
theorem BankOk.quiet (h : BankOk o₀ s)
    (hquiet : Phase.Quiet s.overlay (s.phases i) phase)
    (hfree : ∀ shard, (s.phases i).wanted = some shard → ¬ s.Busy i shard) :
    BankOk o₀ ⟨s.overlay, Function.update s.phases i phase⟩ where
  phases := by
    intro j
    by_cases hj : j = i
    · subst hj
      simp only [update_self]
      exact hquiet.ok
    · simp only [update_of_ne hj]
      exact h.phases j
  apart := by
    apply apart_update h.apart
    intro shard hshard
    rcases hquiet.held shard hshard with hold | hwanted
    · exact .inl hold
    · exact .inr (hfree shard hwanted)
  sum := by
    have hsum := h.sum
    rw [inFlight_update, hquiet.flight, hquiet.flight']
    simp only
    omega
  nonneg := h.nonneg

variable {env : WriteEnv} {t : Transfer} {toBal : Int}

/-- The debit: the money leaves the balance and is in flight. -/
theorem BankOk.debit (h : BankOk o₀ s)
    {fromBal : Int} (hsound : Sound env s i) (hold : s.phases i = .readTo t fromBal toBal)
    (hfunds : t.amount ≤ fromBal) : BankOk o₀ ⟨s.overlay.setInt env t.fromKey (fromBal - t.amount),
      Function.update s.phases i (.debited t toBal)⟩ := by
  have hknown := h.phases i
  rw [hold] at hknown
  obtain ⟨hamount, hfrom, hto⟩ := hknown
  rw [Sound, hold] at hsound
  obtain ⟨hne, hfromFree, htoFree, hrange, henv⟩ := hsound hfunds
  have hfits : Fits 64 (fromBal - t.amount) := by
    obtain ⟨-, hhi⟩ := balance_fits hfrom
    exact ⟨by omega, by omega⟩
  have hother : ∀ k, k ≠ t.fromKey →
      (s.overlay.setInt env t.fromKey (fromBal - t.amount)).visible k = s.overlay.visible k :=
    fun k hk => setInt_visible_of_ne env s.overlay _ hk
  -- the other account is another key, so what was read of it still holds
  have hto' : (s.overlay.setInt env t.fromKey (fromBal - t.amount)).balance t.toKey = some toBal := by
    rw [← hto]
    exact balance_congr (hother _ (Ne.symm hne))
  have htoFree' : (s.overlay.setInt env t.fromKey (fromBal - t.amount)).store.wormBlocked t.toKey =
      false := by
    rw [Overlay.wormBlocked_eq, hother _ (Ne.symm hne), ← Overlay.wormBlocked_eq]
    exact htoFree
  have hok : (Phase.debited t toBal).Ok (s.overlay.setInt env t.fromKey (fromBal - t.amount)) :=
    ⟨hamount, hto', htoFree', hrange toBal hto⟩
  refine h.write ?_ ?_ hother hfrom (getInt_setInt henv hfromFree hfits) (by omega) hok ?_
  · rw [hold]
    exact t.fromKey_held
  · rw [hold]
    exact fun shard hshard => hshard
  · rw [hold]
    simp only [Phase.inFlight]
    omega

/-- The credit: the money in flight comes to the other balance. -/
theorem BankOk.credit (h : BankOk o₀ s)
    (hsound : Sound env s i) (hold : s.phases i = .debited t toBal) :
    BankOk o₀ ⟨s.overlay.setInt env t.toKey (toBal + t.amount),
      Function.update s.phases i (.returning t .ok)⟩ := by
  have hknown := h.phases i
  rw [hold] at hknown
  obtain ⟨hamount, hto, htoFree, hfits⟩ := hknown
  rw [Sound, hold] at hsound
  have hok : (Phase.returning t .ok).Ok (s.overlay.setInt env t.toKey (toBal + t.amount)) := trivial
  refine h.write ?_ ?_ (fun k hk => setInt_visible_of_ne env s.overlay _ hk) hto
    (getInt_setInt hsound htoFree hfits) (by omega) hok ?_
  · rw [hold]
    exact t.toKey_held
  · rw [hold]
    exact fun shard hshard => hshard
  · rw [hold]
    simp only [Phase.inFlight]
    omega

variable {args : Fin n → List Bytes}

/-- **What one step keeps.**  The last part is about what the call has done so far: once it
has written, it will return `ok`. -/
theorem BankOk.step (h : BankOk o₀ s)
    {s' : Bank n} (hsound : Sound env s i) (hstep : Bank.Step args env i s s') :
    BankOk o₀ s' ∧ (s'.overlay = s.overlay ∨ (s'.phases i).Wrote) ∧
      ∀ j, (s.phases j).Wrote → (s'.phases j).Wrote := by
  obtain ⟨-, hfree, hphase⟩ := hstep
  rename_i phase o
  have hkeep : ((s.phases i).Wrote → phase.Wrote) →
      ∀ j, (s.phases j).Wrote → (Function.update s.phases i phase j).Wrote := by
    intro hi j hj
    by_cases hji : j = i
    · subst hji
      rw [update_self]
      exact hi hj
    · rw [update_of_ne hji]
      exact hj
  have hmoved : phase.Wrote → (Function.update s.phases i phase i).Wrote := by
    rw [update_self]
    exact fun hwrote => hwrote
  rcases Phase.step_cases (h.phases i) hphase with
    ⟨rfl, hquiet⟩ | ⟨t, fromBal, toBal, hold, hfunds, rfl, rfl⟩ | ⟨t, toBal, hold, rfl, rfl⟩
  · exact ⟨h.quiet hquiet hfree, .inl rfl, hkeep hquiet.wrote⟩
  · exact ⟨h.debit hsound hold hfunds, .inr (hmoved trivial), hkeep (fun _ => trivial)⟩
  · exact ⟨h.credit hsound hold, .inr (hmoved rfl), hkeep (fun _ => rfl)⟩

/-- **What a run keeps.**  A step that changed the store was made by a call that is past its
writes or between them. -/
theorem BankOk.run {events : List (BankEvent n)}
    (hrun : BankRun Sound args (Bank.start o₀) events s) :
    BankOk o₀ s ∧ ∀ ev ∈ events, ev.after = ev.before ∨ (s.phases ev.call).Wrote := by
  induction hrun with
  | nil => exact ⟨BankOk.start o₀, by simp⟩
  | snoc hrun hsound hstep ih =>
    obtain ⟨hok, hevents⟩ := ih
    obtain ⟨hok', hlast, hkeep⟩ := hok.step hsound hstep
    refine ⟨hok', fun ev hev => ?_⟩
    rcases List.mem_append.mp hev with hev | hev
    · rcases hevents ev hev with hsame | hwrote
      · exact .inl hsame
      · exact .inr (hkeep _ hwrote)
    · obtain rfl := List.mem_singleton.mp hev
      exact hlast

end

/-! ## A call on its own -/

variable {env : WriteEnv} {o o' : Overlay} {phase phase' : Phase}

theorem Bank.solo_step (hstep : phase.step env args o = some (phase', o')) :
    Bank.Step (fun _ : Fin 1 => args) env 0 ⟨o, fun _ => phase⟩ ⟨o', fun _ => phase'⟩ := by
  have hupdate : Function.update (fun _ : Fin 1 => phase) 0 phase' = fun _ => phase' := by
    funext j
    rw [Subsingleton.elim j 0, update_self]
  rw [← hupdate]
  refine Bank.Step.move (s := ⟨o, fun _ => phase⟩) ?_ ?_ hstep
  · rintro ⟨j, t, htrapped⟩
    simp only at htrapped
    rw [htrapped] at hstep
    cases hstep
  · rintro shard - ⟨j, hj, -⟩
    exact hj (Subsingleton.elim j 0)

theorem Bank.solo_snoc {meets : WriteEnv → Bank 1 → Fin 1 → Prop} {s : Bank 1}
    (hrun : ∃ events, BankRun meets (fun _ => args) s events ⟨o, fun _ => phase⟩)
    (hmeets : meets env ⟨o, fun _ => phase⟩ 0) (hstep : phase.step env args o = some (phase', o')) :
    ∃ events, BankRun meets (fun _ => args) s events ⟨o', fun _ => phase'⟩ := by
  obtain ⟨events, hrun⟩ := hrun
  exact ⟨_, hrun.snoc hmeets (Bank.solo_step hstep)⟩

/-- A call that finds both accounts, the funds and room for the credit comes to its end:
both writes go out, and it returns `ok`. -/
theorem Bank.solo_run (meets : WriteEnv → Bank 1 → Fin 1 → Prop) (env : WriteEnv) {fromBal toBal : Int}
    (hargs : Transfer.ofArgs args = .ok t) (hfrom : o.balance t.fromKey = some fromBal)
    (hto : o.balance t.toKey = some toBal) (hfunds : t.amount ≤ fromBal)
    (hfits : Fits 64 (toBal + t.amount))
    (hquiet : ∀ phase, (∀ t a b, phase ≠ .readTo t a b) → (∀ t b, phase ≠ .debited t b) →
      ∀ o, meets env ⟨o, fun _ => phase⟩ 0)
    (hdebit : meets env ⟨o, fun _ => .readTo t fromBal toBal⟩ 0)
    (hcredit : meets env
      ⟨o.setInt env t.fromKey (fromBal - t.amount), fun _ => .debited t toBal⟩ 0) :
    ∃ events, BankRun meets (fun _ => args) (Bank.start o) events
      ⟨(o.setInt env t.fromKey (fromBal - t.amount)).setInt env t.toKey (toBal + t.amount),
        fun _ => .returned .ok⟩ := by
  have hlocking : ∃ events, BankRun meets (fun _ => args) (Bank.start o) events
      ⟨o, fun _ => .locking t⟩ :=
    Bank.solo_snoc ⟨[], .nil _⟩ (hquiet .called (by simp) (by simp) o) (by simp [Phase.step, hargs])
  have hlocked : ∃ events, BankRun meets (fun _ => args) (Bank.start o) events
      ⟨o, fun _ => .locked t⟩ := by
    by_cases hsame : t.low = t.high
    · exact Bank.solo_snoc hlocking (hquiet _ (by simp) (by simp) o) (by simp [Phase.step, hsame])
    · have hlow : ∃ events, BankRun meets (fun _ => args) (Bank.start o) events
          ⟨o, fun _ => .lockedLow t⟩ :=
        Bank.solo_snoc hlocking (hquiet _ (by simp) (by simp) o) (by simp [Phase.step, hsame])
      exact Bank.solo_snoc hlow (hquiet _ (by simp) (by simp) o) rfl
  have hreadFrom := Bank.solo_snoc hlocked (hquiet _ (by simp) (by simp) o)
    (show _ = some (.readFrom t fromBal, o) by simp [Phase.step, show o.getInt 64 _ = _ from hfrom])
  have hreadTo := Bank.solo_snoc hreadFrom (hquiet _ (by simp) (by simp) o)
    (show _ = some (.readTo t fromBal toBal, o) by
      simp [Phase.step, show o.getInt 64 _ = _ from hto])
  have hdebited := Bank.solo_snoc hreadTo hdebit
    (show _ = some (.debited t toBal, _) by rw [Phase.step, if_neg (Int.not_lt.mpr hfunds)])
  have hreturning := Bank.solo_snoc hdebited hcredit
    (show _ = some (.returning t .ok, _) by rw [Phase.step, if_pos hfits])
  by_cases hsame : t.low = t.high
  · exact Bank.solo_snoc hreturning (hquiet _ (by simp) (by simp) _) (by simp [Phase.step, hsame])
  · have hunlocking := Bank.solo_snoc hreturning (hquiet _ (by simp) (by simp) _)
      (show _ = some (.unlocking t .ok, _) by rw [Phase.step, if_neg hsame])
    exact Bank.solo_snoc hunlocking (hquiet _ (by simp) (by simp) _) rfl

/-! ## Conservation -/

/-- **Transfers conserve money.**  In every run of any number of calls, on any accounts and
amounts, whose writing steps meet the condition: the sum of all balances, with what has been
debited and not yet credited, is what it was, so it is unchanged whenever no call stands
between its two writes; a balance that was not negative is not negative; a call that has
returned an error has changed nothing; and no call ends the process. -/
theorem transfer_conserves {n : Nat} {args : Fin n → List Bytes} {o₀ : Overlay} {s : Bank n}
    {events : List (BankEvent n)} (hrun : BankRun Sound args (Bank.start o₀) events s) :
    s.overlay.total + s.inFlight = o₀.total ∧
    ((∀ i t toBal, s.phases i ≠ .debited t toBal) → s.overlay.total = o₀.total) ∧
    (∀ key b, o₀.balance key = some b →
      ∃ b', s.overlay.balance key = some b' ∧ (0 ≤ b → 0 ≤ b')) ∧
    (∀ i msg, s.phases i = .returned (.err msg) →
      ∀ ev ∈ events, ev.call = i → ev.after = ev.before) ∧
    ¬ s.Halted := by
  obtain ⟨hok, hevents⟩ := BankOk.run hrun
  refine ⟨hok.sum, ?_, hok.nonneg, ?_, ?_⟩
  · intro hbetween
    have hnone : s.inFlight = 0 := by
      refine Finset.sum_eq_zero (fun i _ => ?_)
      have hi := hbetween i
      cases hphase : s.phases i with
      | debited t toBal => exact absurd hphase (hi t toBal)
      | _ => rfl
    have hsum := hok.sum
    omega
  · rintro i msg hreturned ev hev rfl
    rcases hevents ev hev with hsame | hwrote
    · exact hsame
    · rw [hreturned] at hwrote
      cases hwrote
  · rintro ⟨j, t, htrapped⟩
    have hj := hok.phases j
    rw [htrapped] at hj
    exact hj

/-- Memory for every write. -/
def ampleEnv : WriteEnv := ⟨fun _ => true, 0⟩

theorem ampleEnv_ample : ampleEnv.Ample := fun _ => rfl

theorem setInt_free (henv : env.Ample) {key : Bytes}
    (hfree : o.store.wormBlocked key = false) (val : Int) {k : Bytes}
    (hk : o.store.wormBlocked k = false) : (o.setInt env key val).store.wormBlocked k = false := by
  rw [Overlay.wormBlocked_eq] at hk ⊢
  by_cases heq : k = key
  · subst heq
    unfold setInt
    split
    · rw [ctxSet_visible henv hfree]
      rfl
    · exact hk
  · rw [setInt_visible_of_ne env o val heq]
    exact hk

/-- A store with two accounts, or with one when the keys are the same. -/
theorem exists_accounts (key key' : Bytes) {b b' : Int} (hb : Fits 64 b) (hb' : Fits 64 b')
    (hsame : key = key' → b = b') :
    ∃ o : Overlay, o.balance key = some b ∧ o.balance key' = some b' ∧
      o.store.wormBlocked key = false ∧ o.store.wormBlocked key' = false := by
  have hmount : ∀ k, (mount [] (Nat.zero_le _)).store.wormBlocked k = false :=
    fun _ => rfl
  generalize mount [] (Nat.zero_le _) = o at hmount
  have hfree : ∀ k, (o.setInt ampleEnv key b).store.wormBlocked k = false :=
    fun k => setInt_free ampleEnv_ample (hmount key) b (hmount k)
  have hbal : (o.setInt ampleEnv key b).balance key = some b :=
    getInt_setInt ampleEnv_ample (hmount key) hb
  generalize o.setInt ampleEnv key b = o at hfree hbal
  have hbal' : (o.setInt ampleEnv key' b').balance key' = some b' :=
    getInt_setInt ampleEnv_ample (hfree key') hb'
  refine ⟨o.setInt ampleEnv key' b', ?_, hbal', setInt_free ampleEnv_ample (hfree _) b' (hfree _),
    setInt_free ampleEnv_ample (hfree _) b' (hfree _)⟩
  by_cases heq : key = key'
  · subst heq
    rw [hbal', hsame rfl]
  · rw [← hbal]
    exact balance_congr (setInt_visible_of_ne _ _ _ heq)

/-- A transfer between two accounts. -/
theorem transfer_conserves_two :
    ∃ (o₀ : Overlay) (s : Bank 1), o₀.balance [97] = some 10 ∧ o₀.balance [98] = some 0 ∧
      s.phases 0 = .returned .ok ∧ s.overlay.balance [97] = some 5 ∧
      s.overlay.balance [98] = some 5 ∧ s.overlay.total = o₀.total := by
  have hargs : Transfer.ofArgs [[97], [98], [53]] = .ok ⟨[97], [98], 5⟩ := by decide
  obtain ⟨o₀, ha, hb, hafree, hbfree⟩ := exists_accounts [97] [98] (show Fits 64 10 by decide)
    (show Fits 64 0 by decide) (by decide)
  have hsound : Sound ampleEnv (⟨o₀, fun _ => .readTo ⟨[97], [98], 5⟩ 10 0⟩ : Bank 1) 0 := by
    refine fun _ => ⟨by decide, hafree, hbfree, fun b hbal => ?_, ampleEnv_ample⟩
    cases hbal.symm.trans hb
    decide
  have hquiet : ∀ phase : Phase, (∀ t a b, phase ≠ .readTo t a b) → (∀ t b, phase ≠ .debited t b) →
      ∀ o, Sound ampleEnv (⟨o, fun _ => phase⟩ : Bank 1) 0 := by
    intro phase hread hdebited o
    unfold Sound
    cases phase with
    | readTo t a b => exact absurd rfl (hread t a b)
    | debited t b => exact absurd rfl (hdebited t b)
    | _ => trivial
  obtain ⟨events, hrun⟩ := Bank.solo_run Sound ampleEnv hargs ha hb (by decide) (by decide) hquiet
    hsound ampleEnv_ample
  have hconserves := transfer_conserves hrun
  have hfirst : (o₀.setInt ampleEnv [97] (10 - 5)).balance [97] = some 5 :=
    getInt_setInt ampleEnv_ample hafree (by decide)
  have hbfree' := setInt_free ampleEnv_ample hafree (10 - 5) hbfree
  simp only at hconserves
  generalize o₀.setInt ampleEnv [97] (10 - 5) = o₁ at hfirst hbfree' hconserves
  refine ⟨o₀, ⟨o₁.setInt ampleEnv [98] (0 + 5), fun _ => .returned .ok⟩, ha, hb, rfl, ?_, ?_,
    hconserves.2.1 (by simp)⟩
  · rw [← hfirst]
    exact balance_congr (setInt_visible_of_ne _ _ _ (by decide))
  · exact getInt_setInt ampleEnv_ample hbfree' (by decide)

/-- **A transfer from an account to itself makes money**: both balances are read before the
first write, so the second write is not over what the first one left. -/
theorem transfer_to_itself_makes_money :
    ∃ (o₀ : Overlay) (s : Bank 1) (events : List (BankEvent 1)),
      BankRun (fun _ _ _ => True) (fun _ => [[97], [97], [53]]) (Bank.start o₀) events s ∧
      s.phases 0 = .returned .ok ∧ o₀.balance [97] = some 10 ∧
      s.overlay.balance [97] = some 15 ∧ s.overlay.total = o₀.total + 5 := by
  have hargs : Transfer.ofArgs [[97], [97], [53]] = .ok ⟨[97], [97], 5⟩ := by decide
  obtain ⟨o₀, hbal, -, hfree, -⟩ := exists_accounts [97] [97] (show Fits 64 10 by decide)
    (show Fits 64 10 by decide) (fun _ => rfl)
  obtain ⟨events, hrun⟩ := Bank.solo_run (fun _ _ _ => True) ampleEnv hargs hbal hbal
    (by decide) (by decide) (fun _ _ _ _ => trivial) trivial trivial
  have hfirst : (o₀.setInt ampleEnv [97] (10 - 5)).balance [97] = some 5 :=
    getInt_setInt ampleEnv_ample hfree (by decide)
  have hfree' := setInt_free ampleEnv_ample hfree (10 - 5) hfree
  have htotal := total_update
    (fun k hk => setInt_visible_of_ne ampleEnv o₀ (10 - 5) hk) hbal hfirst
  simp only at hrun
  generalize o₀.setInt ampleEnv [97] (10 - 5) = o₁ at hrun hfirst hfree' htotal
  have hsecond : (o₁.setInt ampleEnv [97] (10 + 5)).balance [97] = some 15 :=
    getInt_setInt ampleEnv_ample hfree' (by decide)
  have htotal' := total_update
    (fun k hk => setInt_visible_of_ne ampleEnv o₁ (10 + 5) hk) hfirst hsecond
  refine ⟨o₀, ⟨o₁.setInt ampleEnv [97] (10 + 5), fun _ => .returned .ok⟩, events, hrun, rfl, hbal,
    hsecond, ?_⟩
  simp only
  omega

end WormDB
