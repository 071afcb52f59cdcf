import WormDB.AppendLogRuns
import WormDB.Checkpoint
import Mathlib.Data.List.Perm.Basic

/-! # The trust log of `proof/trust_log.zig`

An organisation publishes grants and revocations as JSON events on an append log of
its own.  Each event carries a signature over canonical bytes of its body.  The fold
checks every signature again: a valid grant activates a capability under the event's
number, a valid revocation removes the capability of the number it names, and what has
expired is left out.

What is active after a log is what some valid grant in it put there and no valid
revocation after that grant took away (`mem_active_iff`).  What a payload reads back as
is the variable `parse`. -/
namespace WormDB
open List ByteCodec

/-- A 32-byte organisation key. -/
structure OrgKey where
  bytes : Bytes
  size_eq : bytes.length = 32

theorem OrgKey.ext_bytes {a b : OrgKey} (h : a.bytes = b.bytes) : a = b := by
  cases a
  cases b
  cases h
  rfl

instance : DecidableEq OrgKey := fun _ _ =>
  decidable_of_iff _ ⟨OrgKey.ext_bytes, congrArg OrgKey.bytes⟩

namespace TrustLog
open AppendLog (EventView decodeEnvelope eventKeyPrefix)

def grantContext : Bytes := ascii "wormdb.trust.grant.v1" ++ [0]
def revokeContext : Bytes := ascii "wormdb.trust.revoke.v1" ++ [0]

def capRead : UInt8 := 1
def capWrite : UInt8 := 2
def capAppend : UInt8 := 4

def logIdPrefix : Bytes := ascii "trust:"

inductive Kind where
  | grant | revoke
  deriving DecidableEq

/-- A decoded event: the body's fields and the number of its envelope. -/
structure TrustEvent where
  seq : UInt64
  kind : Kind
  fromOrg : OrgKey
  toOrg : OrgKey
  capBits : UInt8
  prefixes : List Bytes
  expiresAtMs : UInt64
  grantedAtMs : UInt64
  grantSeq : UInt64
  revokedAtMs : UInt64
  sig : Signature
  deriving DecidableEq

structure Capability where
  toOrg : OrgKey
  capBits : UInt8
  prefixes : List Bytes
  grantSeq : UInt64
  expiresAtMs : UInt64
  grantedAtMs : UInt64
  deriving DecidableEq

structure FoldResult where
  capabilities : List Capability
  invalidEvents : Nat
  deriving DecidableEq

/-! ## Signed bytes -/

def TrustEvent.grantBytes (ev : TrustEvent) : Bytes :=
  grantContext ++ ev.fromOrg.bytes ++ ev.toOrg.bytes ++ [ev.capBits] ++
    beBytes 4 ev.prefixes.length ++ ev.prefixes.flatMap Checkpoint.lenBytes ++
    beBytes 8 ev.expiresAtMs.toNat ++ beBytes 8 ev.grantedAtMs.toNat

def TrustEvent.revokeBytes (ev : TrustEvent) : Bytes :=
  revokeContext ++ ev.fromOrg.bytes ++ ev.toOrg.bytes ++ beBytes 8 ev.grantSeq.toNat ++
    beBytes 8 ev.revokedAtMs.toNat

section
variable (ed25519 : Ed25519)

def verifyBytes (message : Bytes) (sig : Signature) (orgPubkey : OrgKey) : Bool :=
  ed25519.verify orgPubkey.bytes message sig

/-! ## The fold -/

structure FoldState where
  active : List Capability
  invalid : Nat

def TrustEvent.capability (ev : TrustEvent) : Capability :=
  ⟨ev.toOrg, ev.capBits, ev.prefixes, ev.seq, ev.expiresAtMs, ev.grantedAtMs⟩

/-- The capability the revocation names. -/
def TrustEvent.names (ev : TrustEvent) (cap : Capability) : Bool :=
  decide (cap.grantSeq = ev.grantSeq ∧ cap.toOrg = ev.toOrg)

def foldEvent (grantingOrg : OrgKey) (s : FoldState) (ev : TrustEvent) : FoldState :=
  if ev.fromOrg ≠ grantingOrg then { s with invalid := s.invalid + 1 }
  else
    match ev.kind with
    | .grant =>
        if !verifyBytes ed25519 ev.grantBytes ev.sig ev.fromOrg then
          { s with invalid := s.invalid + 1 }
        else { s with active := s.active ++ [ev.capability] }
    | .revoke =>
        if !verifyBytes ed25519 ev.revokeBytes ev.sig ev.fromOrg then
          { s with invalid := s.invalid + 1 }
        else { s with active := s.active.eraseP ev.names }

def Capability.expired (cap : Capability) (atMs : UInt64) : Bool :=
  decide (cap.expiresAtMs ≠ 0 ∧ cap.expiresAtMs ≤ atMs)

def foldState (grantingOrg : OrgKey) (events : List TrustEvent) : FoldState :=
  events.foldl (foldEvent ed25519 grantingOrg) ⟨[], 0⟩

def foldTrust (grantingOrg : OrgKey) (events : List TrustEvent) (atMs : UInt64) : FoldResult :=
  let s := foldState ed25519 grantingOrg events
  ⟨s.active.filter (fun cap => !cap.expired atMs), s.invalid⟩

end

/-! ## The events of the log -/

/-- The fields of a payload; one that it lacks has its default. -/
structure TrustEventJson where
  t : Bytes
  fromOrg : Bytes
  toOrg : Bytes
  caps : List Bytes
  prefixes : List Bytes
  expiresAtMs : UInt64
  grantedAtMs : UInt64
  grantSeq : UInt64
  revokedAtMs : UInt64
  sig : Bytes
  deriving DecidableEq

def charToDigit (c : UInt8) : Option UInt8 :=
  if 48 ≤ c ∧ c ≤ 57 then some (c - 48)
  else if 97 ≤ c ∧ c ≤ 102 then some (c - 87)
  else if 65 ≤ c ∧ c ≤ 70 then some (c - 55)
  else none

def hexToBytes : Bytes → Option Bytes
  | [] => some []
  | [_] => none
  | hi :: lo :: rest => do
      let h ← charToDigit hi
      let l ← charToDigit lo
      let bytes ← hexToBytes rest
      return (h * 16 + l) :: bytes

def parseOrgHex (hex : Bytes) : Option OrgKey := do
  let bytes ← hexToBytes hex
  if h : bytes.length = 32 then return ⟨bytes, h⟩ else none

def parseSigHex (hex : Bytes) : Option Signature := do
  let bytes ← hexToBytes hex
  if h : bytes.length = 64 then return ⟨bytes, h⟩ else none

def capBit (name : Bytes) : Option UInt8 :=
  if name = ascii "read" then some capRead
  else if name = ascii "write" then some capWrite
  else if name = ascii "append" then some capAppend
  else none

/-- None for a name that is not known, and for no names. -/
def capBitsFromNames (names : List Bytes) : Option UInt8 := do
  let bits ← names.foldlM (fun bits name => (capBit name).map (bits ||| ·)) 0
  if bits = 0 then none else return bits

def kindOf (t : Bytes) : Option Kind :=
  if t = ascii "trust.grant" then some .grant
  else if t = ascii "trust.revoke" then some .revoke
  else none

/-- A revocation has no capability bits. -/
def capBitsOf (kind : Kind) (names : List Bytes) : Option UInt8 :=
  match kind with
  | .grant => capBitsFromNames names
  | .revoke => some 0

/-- The event that a record reads back as; none when it is malformed. -/
def trustEvent (parse : Bytes → Option TrustEventJson) (view : EventView) : Option TrustEvent := do
  let parsed ← parse view.payload
  let kind ← kindOf parsed.t
  let fromOrg ← parseOrgHex parsed.fromOrg
  let toOrg ← parseOrgHex parsed.toOrg
  let sig ← parseSigHex parsed.sig
  let capBits ← capBitsOf kind parsed.caps
  return ⟨view.seq, kind, fromOrg, toOrg, capBits, parsed.prefixes, parsed.expiresAtMs,
    parsed.grantedAtMs, parsed.grantSeq, parsed.revokedAtMs, sig⟩

structure LoadedEvents where
  events : List TrustEvent
  malformed : Nat

def storedEvent (parse : Bytes → Option TrustEventJson) (value : Bytes) : Option TrustEvent :=
  match decodeEnvelope value with
  | .error _ => none
  | .ok view => trustEvent parse view

def loadTrustEvents (sha256 : Bytes → Hash) (parse : Bytes → Option TrustEventJson) (kv : Kv)
    (logId : Bytes) : LoadedEvents :=
  let decoded := (kv.scanPrefix (eventKeyPrefix sha256 logId) 0).map
    (fun r => storedEvent parse r.2.value)
  ⟨decoded.filterMap id, decoded.countP Option.isNone⟩

/-! ## What the fold leaves active -/

section
variable (ed25519 : Ed25519) (grantingOrg : OrgKey)

/-- The event activates a capability. -/
structure ValidGrant (ev : TrustEvent) : Prop where
  org : ev.fromOrg = grantingOrg
  kind : ev.kind = .grant
  signed : verifyBytes ed25519 ev.grantBytes ev.sig ev.fromOrg = true

structure ValidRevoke (ev : TrustEvent) : Prop where
  org : ev.fromOrg = grantingOrg
  kind : ev.kind = .revoke
  signed : verifyBytes ed25519 ev.revokeBytes ev.sig ev.fromOrg = true

/-- The event takes away what the grant activated. -/
def Revokes (ev grant : TrustEvent) : Prop :=
  ValidRevoke ed25519 grantingOrg ev ∧ ev.grantSeq = grant.seq ∧ ev.toOrg = grant.toOrg

end

variable {ed25519 : Ed25519} {grantingOrg : OrgKey}

variable {ev : TrustEvent}

theorem names_capability {grant : TrustEvent} :
    ev.names grant.capability = true ↔ ev.grantSeq = grant.seq ∧ ev.toOrg = grant.toOrg := by
  rw [TrustEvent.names, decide_eq_true_eq, TrustEvent.capability]
  constructor
  · rintro ⟨hseq, horg⟩
    exact ⟨hseq.symm, horg.symm⟩
  · rintro ⟨hseq, horg⟩
    exact ⟨hseq.symm, horg.symm⟩

/-- **What one event can do**: nothing, activate its capability, or remove the one it
names. -/
theorem foldEvent_cases (s : FoldState) (ev : TrustEvent) :
    (ValidGrant ed25519 grantingOrg ev ∧
      (foldEvent ed25519 grantingOrg s ev).active = s.active ++ [ev.capability]) ∨
    (ValidRevoke ed25519 grantingOrg ev ∧
      (foldEvent ed25519 grantingOrg s ev).active = s.active.eraseP ev.names) ∨
    (¬ ValidGrant ed25519 grantingOrg ev ∧ ¬ ValidRevoke ed25519 grantingOrg ev ∧
      (foldEvent ed25519 grantingOrg s ev).active = s.active) := by
  rw [foldEvent]
  split
  · rename_i horg
    exact .inr (.inr ⟨fun h => horg h.org, fun h => horg h.org, rfl⟩)
  rename_i horg
  split
  · rename_i hkind
    have hnot : ¬ ValidRevoke ed25519 grantingOrg ev :=
      fun h => by rw [h.kind] at hkind; cases hkind
    split
    · rename_i hsig
      refine .inr (.inr ⟨fun h => ?_, hnot, rfl⟩)
      rw [h.signed] at hsig
      cases hsig
    · rename_i hsig
      exact .inl ⟨⟨not_not.mp horg, hkind, by simpa using hsig⟩, rfl⟩
  · rename_i hkind
    have hnot : ¬ ValidGrant ed25519 grantingOrg ev :=
      fun h => by rw [h.kind] at hkind; cases hkind
    split
    · rename_i hsig
      refine .inr (.inr ⟨hnot, fun h => ?_, rfl⟩)
      rw [h.signed] at hsig
      cases hsig
    · rename_i hsig
      exact .inr (.inl ⟨⟨not_not.mp horg, hkind, by simpa using hsig⟩, rfl⟩)

theorem not_validGrant_of_validRevoke (h : ValidRevoke ed25519 grantingOrg ev) :
    ¬ ValidGrant ed25519 grantingOrg ev := by
  intro hgrant
  have hkind := h.kind
  rw [hgrant.kind] at hkind
  cases hkind

/-- The events of a log are in the order of their numbers. -/
def Ascending (events : List TrustEvent) : Prop := events.Pairwise (fun a b => a.seq < b.seq)

theorem foldState_concat (events : List TrustEvent) (ev : TrustEvent) :
    foldState ed25519 grantingOrg (events ++ [ev]) =
      foldEvent ed25519 grantingOrg (foldState ed25519 grantingOrg events) ev := by
  rw [foldState, foldl_concat, foldState]

/-- Capabilities stand in the order of their grants, whose numbers are in the log. -/
theorem foldState_sorted {events : List TrustEvent} (h : Ascending events) :
    (foldState ed25519 grantingOrg events).active.Pairwise (fun a b => a.grantSeq < b.grantSeq) ∧
      ∀ cap ∈ (foldState ed25519 grantingOrg events).active, ∃ ev ∈ events, cap.grantSeq = ev.seq := by
  induction events using List.reverseRecOn with
  | nil => exact ⟨Pairwise.nil, by simp [foldState]⟩
  | append_singleton events ev ih =>
    obtain ⟨hevents, -, hlast⟩ := pairwise_append.mp h
    obtain ⟨hsorted, hfrom⟩ := ih hevents
    rw [foldState_concat]
    have hmono : ∀ cap ∈ (foldState ed25519 grantingOrg events).active,
        ∃ e ∈ events ++ [ev], cap.grantSeq = e.seq := by
      intro cap hcap
      obtain ⟨e, he, heq⟩ := hfrom cap hcap
      exact ⟨e, mem_append_left _ he, heq⟩
    rcases @foldEvent_cases ed25519 grantingOrg (foldState ed25519 grantingOrg events) ev with
      ⟨-, hact⟩ | ⟨-, hact⟩ | ⟨-, -, hact⟩
    · rw [hact]
      constructor
      · refine pairwise_append.mpr ⟨hsorted, pairwise_singleton _ _, ?_⟩
        intro cap hcap new hnew
        obtain ⟨e, he, heq⟩ := hfrom cap hcap
        rw [mem_singleton.mp hnew, heq]
        exact hlast e he ev (mem_singleton_self _)
      · intro cap hcap
        rcases mem_append.mp hcap with hcap | hcap
        · exact hmono cap hcap
        · rw [mem_singleton.mp hcap]
          exact ⟨ev, mem_append_right _ (mem_singleton_self _), rfl⟩
    · rw [hact]
      exact ⟨hsorted.sublist eraseP_sublist,
        fun cap hcap => hmono cap (mem_of_mem_eraseP hcap)⟩
    · rw [hact]
      exact ⟨hsorted, hmono⟩

variable {cap : Capability}

/-- Removing the one capability that is named leaves the others. -/
theorem mem_eraseP_names {active : List Capability}
    (h : active.Pairwise (fun a b => a.grantSeq < b.grantSeq)) :
    cap ∈ active.eraseP ev.names ↔ cap ∈ active ∧ ev.names cap = false := by
  induction active with
  | nil => simp
  | cons a active ih =>
    obtain ⟨hhead, htail⟩ := pairwise_cons.mp h
    by_cases ha : ev.names a = true
    · rw [eraseP_cons_of_pos ha]
      have haseq := (decide_eq_true_eq.mp ha).1
      constructor
      · intro hcap
        refine ⟨mem_cons_of_mem _ hcap, ?_⟩
        -- a later one has a greater number
        rw [TrustEvent.names, decide_eq_false_iff_not]
        rintro ⟨hseq, -⟩
        have hlt := hhead cap hcap
        rw [hseq, haseq] at hlt
        exact UInt64.lt_irrefl _ hlt
      · rintro ⟨hcap, hnot⟩
        rcases mem_cons.mp hcap with rfl | hcap
        · cases ha.symm.trans hnot
        · exact hcap
    · rw [eraseP_cons_of_neg ha, mem_cons, mem_cons, ih htail]
      constructor
      · rintro (rfl | ⟨hcap, hnot⟩)
        · exact ⟨.inl rfl, Bool.eq_false_iff.mpr ha⟩
        · exact ⟨.inr hcap, hnot⟩
      · rintro ⟨rfl | hcap, hnot⟩
        · exact .inl rfl
        · exact .inr ⟨hcap, hnot⟩

variable {events : List TrustEvent}

/-- **What is active** is what a valid grant activated and no valid revocation after it
took away. -/
theorem mem_active_iff (h : Ascending events) :
    cap ∈ (foldState ed25519 grantingOrg events).active ↔
      ∃ before grant after, events = before ++ grant :: after ∧
        ValidGrant ed25519 grantingOrg grant ∧ cap = grant.capability ∧
        ∀ ev ∈ after, ¬ Revokes ed25519 grantingOrg ev grant := by
  induction events using List.reverseRecOn generalizing cap with
  | nil => simp [foldState]
  | append_singleton events ev ih =>
    obtain ⟨hevents, -, -⟩ := pairwise_append.mp h
    have hsorted := (@foldState_sorted ed25519 grantingOrg events hevents).1
    -- a place in the longer log is its last event, or a place before
    have hplace : (∃ before grant after, events ++ [ev] = before ++ grant :: after ∧
        ValidGrant ed25519 grantingOrg grant ∧ cap = grant.capability ∧
        ∀ e ∈ after, ¬ Revokes ed25519 grantingOrg e grant) ↔
        (ValidGrant ed25519 grantingOrg ev ∧ cap = ev.capability) ∨
        ∃ before grant after, events = before ++ grant :: after ∧
          ValidGrant ed25519 grantingOrg grant ∧ cap = grant.capability ∧
          (∀ e ∈ after, ¬ Revokes ed25519 grantingOrg e grant) ∧
          ¬ Revokes ed25519 grantingOrg ev grant := by
      constructor
      · rintro ⟨before, grant, after, heq, hvalid, hcap, hnone⟩
        rcases eq_nil_or_concat after with rfl | ⟨rest, last, rfl⟩
        · obtain ⟨-, hlast⟩ := append_inj' heq rfl
          obtain rfl := (cons.inj hlast).1
          exact .inl ⟨hvalid, hcap⟩
        · rw [concat_eq_append] at heq hnone
          rw [← cons_append, ← append_assoc] at heq
          obtain ⟨hfront, hlast⟩ := append_inj' heq rfl
          obtain rfl := (cons.inj hlast).1
          exact .inr ⟨before, grant, rest, hfront, hvalid, hcap,
            fun e he => hnone e (mem_append_left _ he),
            hnone ev (mem_append_right _ (mem_singleton_self _))⟩
      · rintro (⟨hvalid, hcap⟩ | ⟨before, grant, after, rfl, hvalid, hcap, hnone, hlast⟩)
        · exact ⟨events, ev, [], rfl, hvalid, hcap, by simp⟩
        · refine ⟨before, grant, after ++ [ev], by simp, hvalid, hcap, ?_⟩
          intro e he
          rcases mem_append.mp he with he | he
          · exact hnone e he
          · rw [mem_singleton.mp he]
            exact hlast
    rw [hplace, foldState_concat]
    rcases @foldEvent_cases ed25519 grantingOrg (foldState ed25519 grantingOrg events) ev with
      ⟨hgrant, hact⟩ | ⟨hrevoke, hact⟩ | ⟨hng, hnr, hact⟩
    · have hnot : ∀ g, ¬ Revokes ed25519 grantingOrg ev g :=
        fun g hr => not_validGrant_of_validRevoke hr.1 hgrant
      rw [hact, mem_append, mem_singleton, ih hevents, or_comm]
      constructor
      · rintro (hcap | ⟨before, grant, after, heq, hvalid, hcap, hnone⟩)
        · exact .inl ⟨hgrant, hcap⟩
        · exact .inr ⟨before, grant, after, heq, hvalid, hcap, hnone, hnot grant⟩
      · rintro (⟨-, hcap⟩ | ⟨before, grant, after, heq, hvalid, hcap, hnone, -⟩)
        · exact .inl hcap
        · exact .inr ⟨before, grant, after, heq, hvalid, hcap, hnone⟩
    · rw [hact, mem_eraseP_names hsorted, ih hevents]
      constructor
      · rintro ⟨⟨before, grant, after, heq, hvalid, rfl, hnone⟩, hnames⟩
        refine .inr ⟨before, grant, after, heq, hvalid, rfl, hnone, ?_⟩
        rintro ⟨-, hseq⟩
        rw [names_capability.mpr hseq] at hnames
        cases hnames
      · rintro (⟨hvalid, -⟩ | ⟨before, grant, after, heq, hvalid, rfl, hnone, hlast⟩)
        · exact absurd hvalid (not_validGrant_of_validRevoke hrevoke)
        · refine ⟨⟨before, grant, after, heq, hvalid, rfl, hnone⟩, Bool.eq_false_iff.mpr ?_⟩
          exact fun hnames => hlast ⟨hrevoke, names_capability.mp hnames⟩
    · rw [hact, ih hevents]
      constructor
      · rintro ⟨before, grant, after, heq, hvalid, hcap, hnone⟩
        exact .inr ⟨before, grant, after, heq, hvalid, hcap, hnone, fun hr => hnr hr.1⟩
      · rintro (⟨hvalid, -⟩ | ⟨before, grant, after, heq, hvalid, hcap, hnone, -⟩)
        · exact absurd hvalid hng
        · exact ⟨before, grant, after, heq, hvalid, hcap, hnone⟩

theorem mem_capabilities_iff (h : Ascending events) {atMs : UInt64} :
    cap ∈ (foldTrust ed25519 grantingOrg events atMs).capabilities ↔
      (∃ before grant after, events = before ++ grant :: after ∧
        ValidGrant ed25519 grantingOrg grant ∧ cap = grant.capability ∧
        ∀ ev ∈ after, ¬ Revokes ed25519 grantingOrg ev grant) ∧ cap.expired atMs = false := by
  rw [foldTrust, mem_filter, mem_active_iff h, Bool.not_eq_true']

end TrustLog
end WormDB
