import WormDB.AppendLogRuns

/-! # The claims of `procedures/coordination.zig`

Workers claim tasks by events on a shared append log, without a lock: a claimer
appends a request, scans the log, folds the events of its task and, when its
request is the best one and no lease is running, appends a grant; then it scans
again and answers with the grant that the log has.  A release by the holder and a
supersede of a stale grant end the epoch of the task.

A call is not one step.  It scans, folds what it has seen and appends, and
between any two of these other calls move; what it appends lands at the end of
the log as it is then, not of the log it has seen.  Nor is a scan: it goes through
the shards of the store one after the other, and of the records that land meanwhile
it finds some and misses others, perhaps earlier ones.  Events are the records that
their JSON texts read back as; a text that does not read back is skipped by every
scan.  Times and numbers are `Nat`, with the one sum that may not fit checked. -/
namespace WormDB
open ByteCodec
namespace Coordination
open Mmr (maxU64)

def defaultLeaseMs : Nat := 60000
def maxAppendAttempts : Nat := 64
def maxGrantAttempts : Nat := 16

/-! ## The fold -/

inductive Kind where
  | opened | request | grant | release | superseded
  deriving DecidableEq

/-- One coordination event for a single task, decoded from the log. -/
structure TaskEvent where
  seq : Nat
  kind : Kind
  atMs : Nat
  by_ : Bytes
  hlc : Nat
  leaseMs : Nat
  winner : Bytes
  winnerHlc : Nat
  grantedSeq : Nat
  leaseExpiresMs : Nat
  staleSeq : Nat

structure Candidate where
  seq : Nat
  hlc : Nat
  by_ : Bytes
  leaseMs : Nat
  deriving DecidableEq

inductive State where
  | opened | claimed | released | expired
  deriving DecidableEq

structure TaskState where
  state : State
  winner : Bytes
  winnerHlc : Nat
  grantSeq : Nat
  grantedSeq : Nat
  leaseExpiresMs : Nat
  requests : Nat
  candidate : Option Candidate
  epochStartSeq : Nat
  deriving DecidableEq

def betterCandidate (current : Option Candidate) (next : Candidate) : Candidate :=
  match current with
  | none => next
  | some cur =>
      if next.hlc < cur.hlc then next
      else if next.hlc = cur.hlc ∧ next.seq < cur.seq then next
      else cur

structure Grant where
  seq : Nat
  winner : Bytes
  winnerHlc : Nat
  grantedSeq : Nat
  leaseExpiresMs : Nat
  deriving DecidableEq

/-- The variables of the loop of `foldTask`. -/
structure Fold where
  epochStart : Nat
  baseState : State
  grant : Option Grant
  requests : Nat
  bestEpoch : Option Candidate
  bestAfterGrant : Option Candidate

namespace Fold

def init : Fold := ⟨0, .opened, none, 0, none, none⟩

/-- A new epoch begins at the event. -/
def restart (seq : Nat) (base : State) : Fold := ⟨seq, base, none, 0, none, none⟩

end Fold

def TaskEvent.toGrant (ev : TaskEvent) : Grant :=
  ⟨ev.seq, ev.winner, ev.winnerHlc, ev.grantedSeq, ev.leaseExpiresMs⟩

def TaskEvent.toCandidate (ev : TaskEvent) : Candidate := ⟨ev.seq, ev.hlc, ev.by_, ev.leaseMs⟩

/-- One turn of the loop of `foldTask`. -/
def foldEvent (fold : Fold) (ev : TaskEvent) : Fold :=
  if ev.kind ≠ .opened ∧ ev.seq ≤ fold.epochStart then fold
  else
    match ev.kind with
    | .opened => .restart ev.seq .opened
    | .request =>
        match fold.grant with
        | none => { fold with
            requests := fold.requests + 1
            bestEpoch := some (betterCandidate fold.bestEpoch ev.toCandidate) }
        | some _ => { fold with
            requests := fold.requests + 1
            bestAfterGrant := some (betterCandidate fold.bestAfterGrant ev.toCandidate) }
    | .grant =>
        match fold.grant with
        | none => { fold with grant := some ev.toGrant, bestAfterGrant := none }
        | some g =>
            -- replacement only when the lease before it was over on receipt
            if g.leaseExpiresMs ≤ ev.atMs then
              { fold with grant := some ev.toGrant, bestAfterGrant := none }
            else fold
    | .release =>
        match fold.grant with
        | none => fold
        | some g => if ev.by_ ≠ g.winner then fold else .restart ev.seq .released
    | .superseded =>
        match fold.grant with
        | none => fold
        | some g => if ev.staleSeq ≠ g.seq then fold else .restart ev.seq .opened

/-- The end of `foldTask`: the grant is judged by the clock. -/
def Fold.toState (fold : Fold) (nowMs : Nat) : TaskState :=
  match fold.grant with
  | some g =>
      if g.leaseExpiresMs > nowMs then
        ⟨.claimed, g.winner, g.winnerHlc, g.seq, g.grantedSeq, g.leaseExpiresMs, fold.requests,
          none, fold.epochStart⟩
      else
        ⟨.expired, g.winner, g.winnerHlc, g.seq, g.grantedSeq, g.leaseExpiresMs, fold.requests,
          fold.bestAfterGrant, fold.epochStart⟩
  | none => ⟨fold.baseState, [], 0, 0, 0, 0, fold.requests, fold.bestEpoch, fold.epochStart⟩

def foldTask (events : List TaskEvent) (nowMs : Nat) : TaskState :=
  (events.foldl foldEvent .init).toState nowMs

/-! ## The events of the log -/

/-- The fields of an event's JSON text; a field it lacks has its default. -/
structure EventJson where
  t : Bytes
  task : Bytes
  by_ : Bytes
  hlc : Nat
  winner : Bytes
  winnerHlc : Nat
  leaseMs : Nat
  grantedSeq : Nat
  leaseExpiresMs : Nat
  outcome : Bytes
  staleSeq : Nat
  deriving DecidableEq

def kindOf (t : Bytes) : Option Kind :=
  if t = ascii "task.open" then some .opened
  else if t = ascii "claim.request" then some .request
  else if t = ascii "claim.grant" then some .grant
  else if t = ascii "claim.release" then some .release
  else if t = ascii "task.superseded" then some .superseded
  else none

/-- A record of the log: its number, its receipt time and its payload as far as it
parses. -/
structure LogEntry where
  seq : Nat
  ingestTimeMs : Nat
  json : Option EventJson
  deriving DecidableEq

def LogEntry.taskEvent (taskId : Bytes) (entry : LogEntry) : Option TaskEvent :=
  match entry.json with
  | none => none
  | some parsed =>
      if parsed.task ≠ taskId then none
      else
        match kindOf parsed.t with
        | none => none
        | some kind => some ⟨entry.seq, kind, entry.ingestTimeMs, parsed.by_, parsed.hlc,
            parsed.leaseMs, parsed.winner, parsed.winnerHlc, parsed.grantedSeq,
            parsed.leaseExpiresMs, parsed.staleSeq⟩

/-- `loadTaskEvents` on the records that its scan has found. -/
def taskEvents (taskId : Bytes) (log : List LogEntry) : List TaskEvent :=
  log.filterMap (LogEntry.taskEvent taskId)

/-! ## Payloads -/

def requestPayload (taskId worker : Bytes) (hlc leaseMs : Nat) : EventJson :=
  ⟨ascii "claim.request", taskId, worker, hlc, [], 0, leaseMs, 0, 0, [], 0⟩

def grantPayload (taskId winner : Bytes) (winnerHlc grantedSeq leaseExpiresMs hlc : Nat) :
    EventJson :=
  ⟨ascii "claim.grant", taskId, [], hlc, winner, winnerHlc, 0, grantedSeq, leaseExpiresMs, [], 0⟩

def releasePayload (taskId worker outcome : Bytes) (hlc : Nat) : EventJson :=
  ⟨ascii "claim.release", taskId, worker, hlc, [], 0, 0, 0, 0, outcome, 0⟩

def supersedePayload (taskId : Bytes) (staleSeq hlc : Nat) : EventJson :=
  ⟨ascii "task.superseded", taskId, [], hlc, [], 0, 0, 0, 0, [], staleSeq⟩

/-! ## One turn of each call

What a call does with the events it has scanned: answer, or append. -/

structure ClaimView where
  granted : Bool
  state : State
  winner : Option Bytes
  winnerHlc : Nat
  requestSeq : Nat
  grantSeq : Nat
  grantedSeq : Nat
  leaseExpiresMs : Nat
  deriving DecidableEq

inductive Reply where
  | claim (view : ClaimView)
  | released (seq : Nat) (outcome : Bytes)
  | superseded (seq staleSeq : Nat)
  | err (message : String)
  deriving DecidableEq

inductive Turn where
  | answer (reply : Reply)
  | append (payload : EventJson)
  | trap
  deriving DecidableEq

/-- The winner's grant; the lease may be too long for its end to fit. -/
def grantTurn (taskId : Bytes) (cand : Candidate) (leaseMs nowMs hlc : Nat) : Turn :=
  let grantLease := if cand.leaseMs > 0 then cand.leaseMs else leaseMs
  if nowMs + grantLease > maxU64 then .trap
  else .append (grantPayload taskId cand.by_ cand.hlc cand.seq (nowMs + grantLease) hlc)

/-- The arbitration loop of `claimExecute`. -/
def claimTurn (taskId worker : Bytes) (leaseMs reqSeq : Nat) (events : List TaskEvent)
    (nowMs hlc : Nat) : Turn :=
  let st := foldTask events nowMs
  if st.state = .claimed then
    .answer (.claim ⟨st.winner = worker, st.state, some st.winner, st.winnerHlc, reqSeq,
      st.grantSeq, st.grantedSeq, st.leaseExpiresMs⟩)
  else
    match st.candidate with
    | none => .answer (.claim ⟨false, st.state, none, 0, reqSeq, 0, 0, 0⟩)
    | some cand =>
        if cand.by_ ≠ worker then
          .answer (.claim ⟨false, st.state, some cand.by_, cand.hlc, reqSeq, 0, cand.seq, 0⟩)
        else grantTurn taskId cand leaseMs nowMs hlc

def releaseTurn (taskId worker outcome : Bytes) (hlc : Nat) (events : List TaskEvent)
    (nowMs : Nat) : Turn :=
  let st := foldTask events nowMs
  if st.grantSeq = 0 then .answer (.err "append_log_claim_release: no active claim for task")
  else if st.winner ≠ worker then
    .answer (.err "append_log_claim_release: only the claim winner may release")
  else .append (releasePayload taskId worker outcome hlc)

/-- The last grant event with the number. -/
def findGrant (events : List TaskEvent) (staleSeq : Nat) : Option TaskEvent :=
  events.foldl (fun target ev => if ev.kind = .grant ∧ ev.seq = staleSeq then some ev else target)
    none

def supersedeTurn (taskId : Bytes) (staleSeq : Nat) (events : List TaskEvent) (nowMs hlc : Nat) :
    Turn :=
  match findGrant events staleSeq with
  | none =>
      .answer (.err "append_log_claim_supersede: stale_seq is not a claim.grant for this task")
  | some staleGrant =>
      let st := foldTask events nowMs
      let replacedByNewer := st.grantSeq ≠ 0 ∧ st.grantSeq ≠ staleSeq
      let leaseExpired := staleGrant.leaseExpiresMs ≤ nowMs
      if ¬ replacedByNewer ∧ ¬ leaseExpired then
        .answer (.err "append_log_claim_supersede: claim is not stale")
      else .append (supersedePayload taskId staleSeq hlc)

/-! ## Calls -/

inductive Call where
  | claim (taskId worker : Bytes) (leaseMs reqSeq : Nat)
  | release (taskId worker outcome : Bytes) (hlc : Nat)
  | supersede (taskId : Bytes) (staleSeq : Nat)
  deriving DecidableEq

namespace Call

def taskId : Call → Bytes
  | .claim taskId _ _ _ => taskId
  | .release taskId _ _ _ => taskId
  | .supersede taskId _ => taskId

/-- `hlc` is what the process-wide clock issues in the turn. -/
def turn (call : Call) (events : List TaskEvent) (nowMs hlc : Nat) : Turn :=
  match call with
  | .claim taskId worker leaseMs reqSeq => claimTurn taskId worker leaseMs reqSeq events nowMs hlc
  | .release taskId worker outcome relHlc => releaseTurn taskId worker outcome relHlc events nowMs
  | .supersede taskId staleSeq => supersedeTurn taskId staleSeq events nowMs hlc

def contention : Call → String
  | .claim .. => "append_log_claim: arbitration contention, retry"
  | .release .. => "append_log_claim_release: append contention, retry"
  | .supersede .. => "append_log_claim_supersede: append contention, retry"

/-- What the checks on the arguments say. -/
def invalid : Call → Option String
  | .claim taskId worker leaseMs _ =>
      if taskId = [] ∨ worker = [] then some ("append_log_claim requires: <log_id> <task_id> " ++
        "<worker_id> [lease_ms=<ms>] [hlc=<hex16>]")
      else if leaseMs = 0 then some "append_log_claim: lease_ms must be >= 1"
      else none
  | .release taskId worker outcome _ =>
      if taskId = [] ∨ worker = [] then some ("append_log_claim_release requires: <log_id> " ++
        "<task_id> <worker_id> <outcome> [hlc=<hex16>]")
      else if outcome ≠ ascii "applied" ∧ outcome ≠ ascii "failed" ∧ outcome ≠ ascii "blocked" then
        some "append_log_claim_release: outcome must be applied|failed|blocked"
      else none
  | .supersede taskId staleSeq =>
      if taskId = [] ∨ staleSeq = 0 then
        some "append_log_claim_supersede requires: <log_id> <task_id> <stale_seq>"
      else none

end Call

/-! ## Interleaved calls -/

/-- Where a call is.  A claim first appends its request (`requesting`, with the
attempts so far); then every call loops through scanning, folding what was `seen`
and appending.  A scan that is under way began when the log had `start` records. -/
inductive Phase where
  | idle
  | requesting (taskId worker : Bytes) (leaseMs hlc attempts : Nat)
  | looping (call : Call) (attempts : Nat)
  | scanning (call : Call) (attempts start : Nat)
  | scanned (call : Call) (attempts : Nat) (seen : List LogEntry)
  | appending (call : Call) (attempts : Nat) (seen : List LogEntry) (payload : EventJson)

/-- An answer, with the scan it rests on and the time at which it was given. -/
structure Returned where
  call : Call
  reply : Reply
  seen : List LogEntry
  time : Nat

structure System where
  log : List LogEntry
  now : Nat
  calls : Nat → Phase
  returned : List Returned

namespace System

def init : System := ⟨[], 0, fun _ => .idle, []⟩

def setCall (sys : System) (id : Nat) (phase : Phase) : System :=
  { sys with calls := Function.update sys.calls id phase }

/-- The call ends with an answer; the last one is first. -/
def answer (sys : System) (id : Nat) (call : Call) (reply : Reply) (seen : List LogEntry) :
    System :=
  { sys.setCall id .idle with returned := ⟨call, reply, seen, sys.now⟩ :: sys.returned }

/-- A record at the end of the log. -/
def push (sys : System) (atMs : Nat) (json : Option EventJson) : System :=
  { sys with log := sys.log ++ [⟨sys.log.length + 1, atMs, json⟩] }

end System

/-- A step of the system.  The receipt time of what lands was read before it
landed. -/
inductive Act where
  | tick (ms : Nat)
  | claim (id : Nat) (taskId worker : Bytes) (leaseMs hlc : Nat)
  | start (id : Nat) (call : Call)
  | scan (id : Nat)
  | scanned (id : Nat) (seen : List LogEntry)
  | fold (id : Nat) (hlc : Nat)
  | land (id : Nat) (atMs : Nat)
  | collide (id : Nat)
  | fail (id : Nat)
  | foreign (atMs : Nat)

section Steps
variable (readable : EventJson → Bool)

/-- What every scan makes of a payload. -/
def parsed (payload : EventJson) : Option EventJson := if readable payload then some payload else none

/-- The pending append of a call lands. -/
def land (sys : System) (id atMs : Nat) : System :=
  let seq := sys.log.length + 1
  match sys.calls id with
  | .requesting taskId worker leaseMs hlc _ =>
      (sys.push atMs (parsed readable (requestPayload taskId worker hlc leaseMs))).setCall id
        (.looping (.claim taskId worker leaseMs seq) 0)
  | .appending call attempts seen payload =>
      let sys' := sys.push atMs (parsed readable payload)
      match call with
      | .claim .. => sys'.setCall id (.looping call (attempts + 1))
      | .release _ _ outcome _ => sys'.answer id call (.released seq outcome) seen
      | .supersede _ staleSeq => sys'.answer id call (.superseded seq staleSeq) seen
  | _ => sys

/-- Another writer has won the number. -/
def collide (sys : System) (id : Nat) : System :=
  match sys.calls id with
  | .requesting taskId worker leaseMs hlc attempts =>
      if attempts + 1 < maxAppendAttempts then
        sys.setCall id (.requesting taskId worker leaseMs hlc (attempts + 1))
      else sys.answer id (.claim taskId worker leaseMs 0)
        (.err "append_log_claim: request append failed") []
  | .appending call attempts _ _ => sys.setCall id (.looping call (attempts + 1))
  | _ => sys

def step (sys : System) : Act → System
  | .tick ms => { sys with now := sys.now + ms }
  | .claim id taskId worker leaseMs hlc =>
      match sys.calls id with
      | .idle =>
          match (Call.claim taskId worker leaseMs 0).invalid with
          | some message => sys.answer id (.claim taskId worker leaseMs 0) (.err message) []
          | none => sys.setCall id (.requesting taskId worker leaseMs hlc 0)
      | _ => sys
  | .start id call =>
      match sys.calls id, call with
      | .idle, .claim .. => sys
      | .idle, _ =>
          match call.invalid with
          | some message => sys.answer id call (.err message) []
          | none => sys.setCall id (.looping call 0)
      | _, _ => sys
  | .scan id =>
      match sys.calls id with
      | .looping call attempts =>
          if attempts < maxGrantAttempts then
            sys.setCall id (.scanning call attempts sys.log.length)
          else sys.answer id call (.err call.contention) []
      | _ => sys
  | .scanned id seen =>
      match sys.calls id with
      | .scanning call attempts start =>
          -- all that was there when the scan began, and any of what has landed since
          if (sys.log.take start).Sublist seen ∧ seen.Sublist sys.log then
            sys.setCall id (.scanned call attempts seen)
          else sys
      | _ => sys
  | .fold id hlc =>
      match sys.calls id with
      | .scanned call attempts seen =>
          match call.turn (taskEvents call.taskId seen) sys.now hlc with
          | .answer reply => sys.answer id call reply seen
          | .append payload => sys.setCall id (.appending call attempts seen payload)
          | .trap => sys.setCall id .idle
      | _ => sys
  | .land id atMs => if atMs ≤ sys.now then land readable sys id atMs else sys
  | .collide id => collide sys id
  | .fail id => sys.setCall id .idle
  | .foreign atMs => if atMs ≤ sys.now then sys.push atMs none else sys

def run (sys : System) (acts : List Act) : System := acts.foldl (step readable) sys

end Steps

end Coordination
end WormDB
