import WormDB.TrustProcedures

/-! # Dynamic trust of `cluster/org_trust.zig`

A node answers whether another organisation may touch a key from a cached fold of its
own organisation's trust log.  The cache is used until it is too old, or until the
generation it was folded under is no longer the current one; a local revocation appends
its event and then moves the generation on.

Any number of grants, revocations and checks run at once, each in the steps in which it
touches what is shared.  A scan is not one step: it finds every record that was there
when it began, and some of those that came since.  The fold generation counts the
revocations of the process, so it does not wrap.

A check that begins after a revocation has returned never rests on the revoked grant
(`authorized_after_revoke`). -/
namespace WormDB
open ByteCodec

namespace TrustLog

/-- What a check asks: may the organisation touch the key in all of these ways? -/
structure Query where
  toOrg : OrgKey
  key : Bytes
  capBits : UInt8
  deriving DecidableEq

structure Cache where
  caps : List Capability
  foldedAtMs : UInt64
  generation : Nat

namespace Cache

/-- The cached fold may be used again. -/
def fresh (cache : Cache) (generation : Nat) (now ttlMs : UInt64) : Bool :=
  decide (cache.generation = generation ∧ now.toNat < cache.foldedAtMs.toNat + ttlMs.toNat)

end Cache

/-- The capability allows what is asked. -/
def Capability.allows (cap : Capability) (q : Query) (now : UInt64) : Bool :=
  cap.toOrg == q.toOrg && cap.capBits &&& q.capBits == q.capBits && !cap.expired now &&
    cap.prefixes.any (fun pre => pre ≠ [] && pre.isPrefixOf q.key)

/-! ## The steps -/

/-- Where a call is. -/
inductive Phase where
  | idle
  | granting (fromOrg : OrgKey) (payload : TrustEventJson)
  | granted (seq : UInt64)
  | finding (args : RevokeArgs) (r : Revocation)
  | revoking (r : Revocation) (payload : TrustEventJson)
  | appended (r : Revocation)
  | revoked (r : Revocation)
  | failed (message : String)
  | waiting (q : Query) (now : UInt64)
  | locked (q : Query) (now : UInt64)
  | refolding (q : Query) (now : UInt64) (generation : Nat)
  | scanning (q : Query) (now : UInt64) (generation start : Nat)
  | folding (q : Query) (now : UInt64) (generation : Nat) (seen : List LogEntry)
  | answering (q : Query) (now : UInt64)
  | answered (q : Query) (now : UInt64) (answer : Bool)
  deriving DecidableEq

structure System where
  logs : OrgKey → List LogEntry
  generation : Nat
  cache : Option Cache
  holder : Option Nat
  calls : Nat → Phase

namespace System

def setCall (sys : System) (id : Nat) (phase : Phase) : System :=
  { sys with calls := Function.update sys.calls id phase }

/-- The number of the next record. -/
def nextSeq (sys : System) (org : OrgKey) : UInt64 := UInt64.ofNat ((sys.logs org).length + 1)

/-- A record at the end of a log. -/
def push (sys : System) (org : OrgKey) (json : Option TrustEventJson) : System :=
  { sys with logs := Function.update sys.logs org (sys.logs org ++ [⟨sys.nextSeq org, json⟩]) }

/-- The check ends and gives the lock back. -/
def answer (sys : System) (id : Nat) (q : Query) (now : UInt64) (answer : Bool) : System :=
  { sys.setCall id (.answered q now answer) with holder := none }

end System

inductive Act where
  | grant (id : Nat) (args : GrantArgs)
  | revoke (id : Nat) (args : RevokeArgs)
  | found (id : Nat) (seen : List LogEntry)
  | append (id : Nat)
  | bump (id : Nat)
  | check (id : Nat) (q : Query) (now : UInt64)
  | lock (id : Nat)
  | refresh (id : Nat)
  | scan (id : Nat)
  | scanned (id : Nat) (seen : List LogEntry)
  | store (id : Nat)
  | answer (id : Nat)
  | fail (id : Nat)
  | foreign (org : OrgKey) (json : Option TrustEventJson)

section Steps
variable (ed25519 : Ed25519) (readable : TrustEventJson → Bool) (ourOrg : OrgKey) (ttlMs : UInt64)

/-- What every scan makes of a grant's payload: the text of a prefix need not be
readable. -/
def parsed (payload : TrustEventJson) : Option TrustEventJson :=
  if readable payload then some payload else none

/-- The append of a call lands, unless the numbers have run out. -/
def append (sys : System) (id : Nat) : System :=
  match sys.calls id with
  | .granting fromOrg payload =>
      if (sys.logs fromOrg).length + 1 < 2 ^ 64 then
        (sys.push fromOrg (parsed readable payload)).setCall id (.granted (sys.nextSeq fromOrg))
      else sys
  | .revoking r payload =>
      -- its text is hex digits and numbers, which can be read
      if (sys.logs r.fromOrg).length + 1 < 2 ^ 64 then
        (sys.push r.fromOrg (some payload)).setCall id (.appended r)
      else sys
  | _ => sys

/-- A call ends where it could not go on: without memory, or with its append refused. -/
def fail (sys : System) (id : Nat) : System :=
  match sys.calls id with
  | .granting .. => sys.setCall id (.failed "trust_grant: append failed")
  | .finding .. => sys.setCall id (.failed "trust_revoke: log scan failed")
  | .revoking .. => sys.setCall id (.failed "trust_revoke: append failed")
  | .refolding q now _ => sys.answer id q now false
  | .scanning q now _ _ => sys.answer id q now false
  | .folding q now _ _ => sys.answer id q now false
  | _ => sys

def step (sys : System) : Act → System
  | .grant id args =>
      match sys.calls id with
      | .idle =>
          match grantPrepare ed25519 args with
          | .error message => sys.setCall id (.failed message)
          | .ok (fromOrg, payload) => sys.setCall id (.granting fromOrg payload)
      | _ => sys
  | .revoke id args =>
      match sys.calls id with
      | .idle =>
          match revokeCheck args with
          | .error message => sys.setCall id (.failed message)
          | .ok r => sys.setCall id (.finding args r)
      | _ => sys
  | .found id seen =>
      match sys.calls id with
      | .finding args r =>
          if seen.Sublist (sys.logs r.fromOrg) then
            match revokePrepare ed25519 args r (trustEvents seen) with
            | .error message => sys.setCall id (.failed message)
            | .ok payload => sys.setCall id (.revoking r payload)
          else sys
      | _ => sys
  | .append id => append readable sys id
  | .bump id =>
      match sys.calls id with
      | .appended r => { sys.setCall id (.revoked r) with generation := sys.generation + 1 }
      | _ => sys
  | .check id q now =>
      match sys.calls id with
      | .idle => sys.setCall id (.waiting q now)
      | _ => sys
  | .lock id =>
      match sys.calls id, sys.holder with
      | .waiting q now, none => { sys.setCall id (.locked q now) with holder := some id }
      | _, _ => sys
  | .refresh id =>
      match sys.calls id with
      | .locked q now =>
          if sys.cache.any (fun cache => cache.fresh sys.generation now ttlMs) then
            sys.setCall id (.answering q now)
          else sys.setCall id (.refolding q now sys.generation)
      | _ => sys
  | .scan id =>
      match sys.calls id with
      | .refolding q now generation =>
          sys.setCall id (.scanning q now generation (sys.logs ourOrg).length)
      | _ => sys
  | .scanned id seen =>
      match sys.calls id with
      | .scanning q now generation start =>
          if ((sys.logs ourOrg).take start).Sublist seen ∧ seen.Sublist (sys.logs ourOrg) then
            sys.setCall id (.folding q now generation seen)
          else sys
      | _ => sys
  | .store id =>
      match sys.calls id with
      | .folding q now generation seen =>
          { sys.setCall id (.answering q now) with
            cache := some ⟨(foldTrust ed25519 ourOrg (trustEvents seen) now).capabilities, now,
              generation⟩ }
      | _ => sys
  | .answer id =>
      match sys.calls id with
      | .answering q now =>
          sys.answer id q now
            (sys.cache.any (fun cache => cache.caps.any (fun cap => cap.allows q now)))
      | _ => sys
  | .fail id => fail sys id
  | .foreign org json => if (sys.logs org).length + 1 < 2 ^ 64 then sys.push org json else sys

def run (sys : System) (acts : List Act) : System :=
  acts.foldl (step ed25519 readable ourOrg ttlMs) sys

end Steps

/-- Nothing is cached and no call has begun; the logs are as they are in the store. -/
structure System.Initial (sys : System) : Prop where
  numbered : ∀ org i entry, (sys.logs org)[i]? = some entry → entry.seq.toNat = i + 1
  short : ∀ org, (sys.logs org).length < 2 ^ 64
  cache : sys.cache = none
  holder : sys.holder = none
  calls : ∀ id, sys.calls id = .idle

/-! ## What a step can do -/

section Moves
variable (ed25519 : Ed25519) (ourOrg : OrgKey)

/-- A phase that holds nothing and promises nothing. -/
def Phase.plain : Phase → Bool
  | .granting .. | .granted _ | .failed _ | .waiting .. => true
  | _ => false

/-- The phase of a check that builds a new cache. -/
def Phase.refolds (phase : Phase) (q : Query) (now : UInt64) : Prop :=
  (∃ generation, phase = .refolding q now generation) ∨
    (∃ generation start, phase = .scanning q now generation start) ∨
    ∃ generation seen, phase = .folding q now generation seen

/-- The transitions of the system. -/
inductive Move (sys : System) : System → Prop
  | stay : Move sys sys
  | plain (id : Nat) (phase : Phase) (hfree : (sys.calls id).plain ∨ sys.calls id = .idle ∨
      (∃ args r, sys.calls id = .finding args r) ∨ ∃ r payload, sys.calls id = .revoking r payload)
      (hplain : phase.plain) : Move sys (sys.setCall id phase)
  | push (org : OrgKey) (json : Option TrustEventJson) (hroom : (sys.logs org).length + 1 < 2 ^ 64) :
      Move sys (sys.push org json)
  | granted (id : Nat) (org : OrgKey) (payload : TrustEventJson) (json : Option TrustEventJson)
      (hphase : sys.calls id = .granting org payload) (hroom : (sys.logs org).length + 1 < 2 ^ 64) :
      Move sys ((sys.push org json).setCall id (.granted (sys.nextSeq org)))
  | finding (id : Nat) (args : RevokeArgs) (r : Revocation) (hphase : sys.calls id = .idle)
      (hcheck : revokeCheck args = .ok r) : Move sys (sys.setCall id (.finding args r))
  | revoking (id : Nat) (args : RevokeArgs) (r : Revocation) (seen : List LogEntry)
      (payload : TrustEventJson) (hphase : sys.calls id = .finding args r)
      (hseen : seen.Sublist (sys.logs r.fromOrg))
      (hprepare : revokePrepare ed25519 args r (trustEvents seen) = .ok payload) :
      Move sys (sys.setCall id (.revoking r payload))
  | appended (id : Nat) (r : Revocation) (payload : TrustEventJson)
      (hphase : sys.calls id = .revoking r payload)
      (hroom : (sys.logs r.fromOrg).length + 1 < 2 ^ 64) :
      Move sys ((sys.push r.fromOrg (some payload)).setCall id (.appended r))
  | bump (id : Nat) (r : Revocation) (hphase : sys.calls id = .appended r) :
      Move sys { sys.setCall id (.revoked r) with generation := sys.generation + 1 }
  | lock (id : Nat) (q : Query) (now : UInt64) (hphase : sys.calls id = .waiting q now)
      (hholder : sys.holder = none) :
      Move sys { sys.setCall id (.locked q now) with holder := some id }
  | reuse (id : Nat) (q : Query) (now : UInt64) (cache : Cache)
      (hphase : sys.calls id = .locked q now) (hcache : sys.cache = some cache)
      (hgeneration : cache.generation = sys.generation) :
      Move sys (sys.setCall id (.answering q now))
  | refold (id : Nat) (q : Query) (now : UInt64) (hphase : sys.calls id = .locked q now) :
      Move sys (sys.setCall id (.refolding q now sys.generation))
  | scan (id : Nat) (q : Query) (now : UInt64) (generation : Nat)
      (hphase : sys.calls id = .refolding q now generation) :
      Move sys (sys.setCall id (.scanning q now generation (sys.logs ourOrg).length))
  | scanned (id : Nat) (q : Query) (now : UInt64) (generation start : Nat) (seen : List LogEntry)
      (hphase : sys.calls id = .scanning q now generation start)
      (hall : ((sys.logs ourOrg).take start).Sublist seen) (hseen : seen.Sublist (sys.logs ourOrg)) :
      Move sys (sys.setCall id (.folding q now generation seen))
  | store (id : Nat) (q : Query) (now : UInt64) (generation : Nat) (seen : List LogEntry)
      (hphase : sys.calls id = .folding q now generation seen) :
      Move sys { sys.setCall id (.answering q now) with
        cache := some ⟨(foldTrust ed25519 ourOrg (trustEvents seen) now).capabilities, now,
          generation⟩ }
  | answer (id : Nat) (q : Query) (now : UInt64) (hphase : sys.calls id = .answering q now) :
      Move sys (sys.answer id q now
        (sys.cache.any (fun cache => cache.caps.any (fun cap => cap.allows q now))))
  | deny (id : Nat) (q : Query) (now : UInt64) (hphase : (sys.calls id).refolds q now) :
      Move sys (sys.answer id q now false)

variable {ed25519 ourOrg} {readable : TrustEventJson → Bool} {ttlMs : UInt64} {sys sys' : System}

theorem append_move (id : Nat) : Move ed25519 ourOrg sys (append readable sys id) := by
  rw [append]
  split
  · rename_i fromOrg payload hphase
    split
    · rename_i hroom
      exact Move.granted id fromOrg payload _ hphase hroom
    · exact Move.stay
  · rename_i r payload hphase
    split
    · rename_i hroom
      exact Move.appended id r payload hphase hroom
    · exact Move.stay
  · exact Move.stay

theorem fail_move (id : Nat) : Move ed25519 ourOrg sys (fail sys id) := by
  rw [fail]
  split
  · rename_i hphase
    exact Move.plain id _ (.inl (by rw [hphase]; rfl)) rfl
  · rename_i hphase
    exact Move.plain id _ (.inr (.inr (.inl ⟨_, _, hphase⟩))) rfl
  · rename_i hphase
    exact Move.plain id _ (.inr (.inr (.inr ⟨_, _, hphase⟩))) rfl
  · rename_i generation hphase
    exact Move.deny id _ _ (.inl ⟨generation, hphase⟩)
  · rename_i generation start hphase
    exact Move.deny id _ _ (.inr (.inl ⟨generation, start, hphase⟩))
  · rename_i generation seen hphase
    exact Move.deny id _ _ (.inr (.inr ⟨generation, seen, hphase⟩))
  · exact Move.stay

/-- **Every step is one of the transitions.** -/
theorem step_move (act : Act) :
    Move ed25519 ourOrg sys (step ed25519 readable ourOrg ttlMs sys act) := by
  cases act with
  | grant id args =>
    rw [step]
    split
    · rename_i hphase
      split
      · exact Move.plain id _ (.inr (.inl hphase)) rfl
      · exact Move.plain id _ (.inr (.inl hphase)) rfl
    · exact Move.stay
  | revoke id args =>
    rw [step]
    split
    · rename_i hphase
      split
      · exact Move.plain id _ (.inr (.inl hphase)) rfl
      · rename_i r hcheck
        exact Move.finding id args r hphase hcheck
    · exact Move.stay
  | found id seen =>
    rw [step]
    split
    · rename_i args r hphase
      split
      · rename_i hseen
        split
        · exact Move.plain id _ (.inr (.inr (.inl ⟨_, _, hphase⟩))) rfl
        · rename_i payload hprepare
          exact Move.revoking id args r seen payload hphase hseen hprepare
      · exact Move.stay
    · exact Move.stay
  | append id => exact append_move id
  | bump id =>
    rw [step]
    split
    · rename_i r hphase
      exact Move.bump id r hphase
    · exact Move.stay
  | check id q now =>
    rw [step]
    split
    · rename_i hphase
      exact Move.plain id _ (.inr (.inl hphase)) rfl
    · exact Move.stay
  | lock id =>
    rw [step]
    split
    · rename_i q now hphase hholder
      exact Move.lock id q now hphase hholder
    · exact Move.stay
  | refresh id =>
    rw [step]
    split
    · rename_i q now hphase
      split
      · rename_i hfresh
        obtain ⟨cache, hcache, hfresh⟩ := (Option.any_eq_true _ _).mp hfresh
        exact Move.reuse id q now cache hphase hcache (decide_eq_true_eq.mp hfresh).1
      · exact Move.refold id q now hphase
    · exact Move.stay
  | scan id =>
    rw [step]
    split
    · rename_i q now generation hphase
      exact Move.scan id q now generation hphase
    · exact Move.stay
  | scanned id seen =>
    rw [step]
    split
    · rename_i q now generation start hphase
      split
      · rename_i hscan
        exact Move.scanned id q now generation start seen hphase hscan.1 hscan.2
      · exact Move.stay
    · exact Move.stay
  | store id =>
    rw [step]
    split
    · rename_i q now generation seen hphase
      exact Move.store id q now generation seen hphase
    · exact Move.stay
  | answer id =>
    rw [step]
    split
    · rename_i q now hphase
      exact Move.answer id q now hphase
    · exact Move.stay
  | fail id => exact fail_move id
  | foreign org json =>
    rw [step]
    split
    · rename_i hroom
      exact Move.push org json hroom
    · exact Move.stay

end Moves

end TrustLog
end WormDB
