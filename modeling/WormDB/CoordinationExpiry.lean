import WormDB.CoordinationRuns
import WormDB.DecimalText

/-! # When the expiry of a grant can be computed

A claim grants the lease that the winning request asks for, and that request may be
another call's: any number of milliseconds from one up is accepted, and it is added
to the clock without a bound.  The expiry is in the future exactly when the sum fits
64 bits (`expiry_iff`); a request with the longest lease stops every later claim of
its worker on the task (`longest_lease_traps`). -/
namespace WormDB
open ByteCodec
open DecimalText
namespace Coordination
open Mmr (maxU64)

/-! ## The options of a claim -/

def parseHlcHex (hex : Bytes) : Option Nat :=
  if hex = [] ∨ hex.length > 16 then none else parseUnsigned 16 64 hex

/-- The loop over the arguments after the worker: the lease and the caller's clock. -/
def claimOptions : List Bytes → Nat → Option Nat → Except String (Nat × Option Nat)
  | [], leaseMs, remoteHlc => .ok (leaseMs, remoteHlc)
  | arg :: args, leaseMs, remoteHlc =>
      if (ascii "lease_ms=").isPrefixOf arg then
        match parseUnsigned 10 64 (arg.drop (ascii "lease_ms=").length) with
        | none => .error "append_log_claim: invalid lease_ms=<ms>"
        | some ms =>
            if ms = 0 then .error "append_log_claim: lease_ms must be >= 1"
            else claimOptions args ms remoteHlc
      else if (ascii "hlc=").isPrefixOf arg then
        match parseHlcHex (arg.drop (ascii "hlc=").length) with
        | none => .error "append_log_claim: invalid hlc=<hex16>"
        | some hlc => claimOptions args leaseMs (some hlc)
      else .error "append_log_claim: unknown option"

/-- A lease that is accepted. -/
def Accepted (leaseMs : Nat) : Prop := 1 ≤ leaseMs ∧ leaseMs ≤ maxU64

variable {leaseMs : Nat}

theorem claimOptions_accepted {args : List Bytes} {lease : Nat}
    {remoteHlc remote : Option Nat} (hstart : Accepted leaseMs)
    (h : claimOptions args leaseMs remoteHlc = .ok (lease, remote)) : Accepted lease := by
  induction args generalizing leaseMs remoteHlc with
  | nil =>
    rw [claimOptions] at h
    cases h
    exact hstart
  | cons arg args ih =>
    rw [claimOptions] at h
    split at h
    · cases hparse : parseUnsigned 10 64 (arg.drop (ascii "lease_ms=").length) with
      | none => simp [hparse] at h
      | some ms =>
        simp only [hparse] at h
        by_cases hzero : ms = 0
        · rw [if_pos hzero] at h
          cases h
        · rw [if_neg hzero] at h
          have hlt := parseUnsigned_lt hparse
          refine ih ⟨Nat.pos_of_ne_zero hzero, ?_⟩ h
          unfold maxU64
          omega
    · split at h
      · cases hparse : parseHlcHex (arg.drop (ascii "hlc=").length) with
        | none => simp [hparse] at h
        | some hlc =>
          simp only [hparse] at h
          exact ih hstart h
      · cases h

/-! ## One turn with the clock read twice -/

/-- The arbitration loop of `claimExecute`, which reads the clock for the fold and
once more for the expiry. -/
def claimTurnAt (taskId worker : Bytes) (leaseMs reqSeq : Nat) (events : List TaskEvent)
    (foldMs grantMs hlc : Nat) : Turn :=
  let st := foldTask events foldMs
  if st.state = .claimed then
    .answer (.claim ⟨st.winner = worker, st.state, some st.winner, st.winnerHlc, reqSeq,
      st.grantSeq, st.grantedSeq, st.leaseExpiresMs⟩)
  else
    match st.candidate with
    | none => .answer (.claim ⟨false, st.state, none, 0, reqSeq, 0, 0, 0⟩)
    | some cand =>
        if cand.by_ ≠ worker then
          .answer (.claim ⟨false, st.state, some cand.by_, cand.hlc, reqSeq, 0, cand.seq, 0⟩)
        else grantTurn taskId cand leaseMs grantMs hlc

/-- The lease that a grant to the candidate has. -/
def grantLease (cand : Candidate) (leaseMs : Nat) : Nat :=
  if cand.leaseMs > 0 then cand.leaseMs else leaseMs

/-- The candidate that a claim of the worker grants the task to. -/
def Wins (events : List TaskEvent) (worker : Bytes) (foldMs : Nat) (cand : Candidate) : Prop :=
  (foldTask events foldMs).state ≠ .claimed ∧
    (foldTask events foldMs).candidate = some cand ∧ cand.by_ = worker

/-- The turn computes its expiry, and a grant it appends has not expired. -/
def ExpiresLater (turn : Turn) (grantMs : Nat) : Prop :=
  turn ≠ .trap ∧ ∀ payload, turn = .append payload → grantMs < payload.leaseExpiresMs

theorem grantLease_pos {cand : Candidate} (h : 1 ≤ leaseMs) : 1 ≤ grantLease cand leaseMs := by
  unfold grantLease
  split <;> omega

theorem grantTurn_expires_iff (taskId : Bytes) (cand : Candidate)
    (grantMs hlc : Nat) (h : 1 ≤ leaseMs) :
    ExpiresLater (grantTurn taskId cand leaseMs grantMs hlc) grantMs ↔
      grantMs + grantLease cand leaseMs ≤ maxU64 := by
  have hpos : 1 ≤ grantLease cand leaseMs := grantLease_pos h
  have heq : grantTurn taskId cand leaseMs grantMs hlc =
      if grantMs + grantLease cand leaseMs > maxU64 then .trap
      else .append (grantPayload taskId cand.by_ cand.hlc cand.seq
        (grantMs + grantLease cand leaseMs) hlc) := rfl
  rw [heq]
  by_cases hover : grantMs + grantLease cand leaseMs > maxU64
  · rw [if_pos hover]
    exact ⟨fun hlater => absurd rfl hlater.1, fun hfits => absurd hfits (Nat.not_le.mpr hover)⟩
  · rw [if_neg hover]
    refine ⟨fun _ => Nat.not_lt.mp hover, fun _ => ⟨fun htrap => (nomatch htrap), ?_⟩⟩
    rintro payload ⟨⟩
    show grantMs < grantMs + grantLease cand leaseMs
    omega

/-- **The expiry is computed and in the future exactly when the winner's lease,
added to the clock, fits 64 bits.** -/
theorem expiry_iff {args : List Bytes} {leaseMs : Nat} {remoteHlc : Option Nat}
    (hargs : claimOptions args defaultLeaseMs none = .ok (leaseMs, remoteHlc))
    (taskId worker : Bytes) (reqSeq : Nat) (events : List TaskEvent) (foldMs grantMs hlc : Nat) :
    ExpiresLater (claimTurnAt taskId worker leaseMs reqSeq events foldMs grantMs hlc) grantMs ↔
      ∀ cand, Wins events worker foldMs cand → grantMs + grantLease cand leaseMs ≤ maxU64 := by
  have hlease : Accepted leaseMs := claimOptions_accepted ⟨by decide, by decide⟩ hargs
  have hanswer : ∀ reply, ExpiresLater (.answer reply) grantMs := by
    intro reply
    exact ⟨fun htrap => (nomatch htrap), fun payload happend => (nomatch happend)⟩
  rw [claimTurnAt]
  by_cases hclaimed : (foldTask events foldMs).state = .claimed
  · rw [if_pos hclaimed]
    exact ⟨fun _ cand hwins => absurd hclaimed hwins.1, fun _ => hanswer _⟩
  rw [if_neg hclaimed]
  cases hcand : (foldTask events foldMs).candidate with
  | none =>
    refine ⟨?_, fun _ => hanswer _⟩
    intro _ cand hwins
    cases hcand.symm.trans hwins.2.1
  | some cand =>
    dsimp only
    by_cases hother : cand.by_ ≠ worker
    · rw [if_pos hother]
      refine ⟨?_, fun _ => hanswer _⟩
      intro _ cand' hwins
      cases hcand.symm.trans hwins.2.1
      exact absurd hwins.2.2 hother
    · rw [if_neg hother, grantTurn_expires_iff taskId cand grantMs hlc hlease.1]
      constructor
      · intro hfits cand' hwins
        cases hcand.symm.trans hwins.2.1
        exact hfits
      · intro hall
        exact hall cand ⟨hclaimed, hcand, not_not.mp hother⟩

/-- Worker `[2]` asks for task `[9]` with a lease of a minute. -/
def askedForMinute : List TaskEvent := [⟨1, .request, 5, [2], 1, 60000, [], 0, 0, 0, 0⟩]

theorem expiry_of_minute :
    ExpiresLater (claimTurnAt [9] [2] 250 1 askedForMinute 5 6 2) 6 := by
  have hargs : claimOptions [ascii "lease_ms=250"] defaultLeaseMs none = .ok (250, none) := by
    decide +kernel
  refine (expiry_iff hargs [9] [2] 1 askedForMinute 5 6 2).mpr ?_
  rintro cand ⟨-, hcand, -⟩
  have hfold : (foldTask askedForMinute 5).candidate = some ⟨1, 1, [2], 60000⟩ := by decide
  cases hfold.symm.trans hcand
  decide

/-- Worker `[2]` asks for task `[9]` with the longest lease that is accepted, and its
call scans the log. -/
def longestLease : List Act := [.tick 1, .claim 0 [9] [2] maxU64 1, .land 0 1, .scan 0]

/-- The call overflows, and so does a later one of the worker with the default lease. -/
theorem longest_lease_traps :
    claimOptions [ascii "lease_ms=18446744073709551615"] defaultLeaseMs none =
      .ok (maxU64, none) ∧
    let sys := run (fun _ => true) .init longestLease
    let events := taskEvents [9] sys.log
    ¬ ExpiresLater (claimTurnAt [9] [2] maxU64 1 events sys.now sys.now 2) sys.now ∧
    ¬ ExpiresLater (claimTurnAt [9] [2] defaultLeaseMs 1 events sys.now sys.now 2) sys.now := by
  refine ⟨by decide +kernel, ?_, ?_⟩
  · rintro ⟨hcomputed, -⟩
    exact hcomputed (by decide +kernel)
  · rintro ⟨hcomputed, -⟩
    exact hcomputed (by decide +kernel)

end Coordination
end WormDB
