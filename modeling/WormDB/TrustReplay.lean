import WormDB.TrustLog
import WormDB.ProofBundleSound

/-! # Replayed trust events

The signature of an event covers its body, and the body does not hold the event's
number.  Whoever can append to the log can append the text of an old grant again: it
is valid as it was, under a new number that no revocation names.

What is inactive stays inactive exactly when the events that are appended undo
themselves: each valid grant of the same authority among them is followed by a valid
revocation of its own number (`replay_iff`).  Revocations already in the log do not
help. -/
namespace WormDB
open List ByteCodec PrefixMap

/-! ## A log as its reader scans it -/

namespace AppendLog

variable {sha256 : Bytes → Hash} {logId : Bytes} {kv : Kv} {views : List EventView}

/-- The stored form of an event that was read. -/
def EventView.entry (sha256 : Bytes → Hash) (logId : Bytes) (view : EventView) : Bytes × Content :=
  (eventKey sha256 logId view.seq, ⟨view.bytes, view.ingestTimeMs, true⟩)

theorem Chain.seq_lt (h : Chain sha256 logId kv views) :
    views.Pairwise (fun v w => v.seq < w.seq) := by
  rw [pairwise_iff_getElem]
  intro i j hi hj hij
  have hv := h.numbered i _ (getElem?_eq_getElem hi)
  have hw := h.numbered j _ (getElem?_eq_getElem hj)
  rw [UInt64.lt_iff_toNat_lt]
  omega

theorem Chain.scan (h : Chain sha256 logId kv views) :
    kv.scanPrefix (eventKeyPrefix sha256 logId) 0 =
      views.map (EventView.entry sha256 logId) := by
  rw [Kv.scanPrefix, if_pos rfl]
  refine ByteMap.scan_eq ?_ (fun key content => ?_)
  · rw [pairwise_map]
    exact h.seq_lt.imp (fun hlt => eventKey_lt logId hlt)
  · rw [mem_map]
    constructor
    · rintro ⟨view, hview, heq⟩
      cases heq
      have hpre := @eventKeyPrefix_isPrefix sha256 logId view.seq
      exact ⟨hpre, (h.stored _ _ hpre).mpr ⟨view, hview, rfl, rfl⟩⟩
    · rintro ⟨hpre, hget⟩
      obtain ⟨view, hview, rfl, rfl⟩ := (h.stored key content hpre).mp hget
      exact ⟨view, hview, rfl⟩

/-- A store with the events of the requests and nothing else. -/
def storeOf (sha256 : Bytes → Hash) (logId : Bytes) (es : List Request) (hlen : es.length ≤ maxU32) :
    Kv :=
  ⟨eventEntries sha256 logId es,
    eventEntries_ascending (le_trans hlen (by decide : maxU32 ≤ Mmr.maxU64))⟩

theorem storeOf_holds {es : List Request} (hlen : es.length ≤ maxU32)
    (hfits : ∀ input ∈ inputs sha256 logId es, input.Fits) :
    Holds sha256 logId (storeOf sha256 logId es hlen) es where
  len := le_trans hlen (by decide : maxU32 ≤ Mmr.maxU64)
  fits := hfits
  events := fun _ _ _ => ByteMap.mem_entries_iff.symm
  states := by
    intro key content hstate hget
    have hmem : (key, content) ∈ eventEntries sha256 logId es := ByteMap.mem_entries_iff.mpr hget
    obtain ⟨i, req, -, heq⟩ := mem_eventEntries_iff.mp hmem
    rw [(Prod.mk.inj heq).1] at hstate
    exact (keys_apart (eventKeyPrefix_isPrefix logId _) hstate).elim

end AppendLog

namespace TrustLog
open AppendLog (EventView Chain Request)

variable {sha256 : Bytes → Hash} {parse : Bytes → Option TrustEventJson} {ed25519 : Ed25519}
  {grantingOrg : OrgKey} {logId : Bytes} {kv kv' : Kv} {views copies : List EventView}

theorem trustEvent_seq {view : EventView} {ev : TrustEvent} (h : trustEvent parse view = some ev) :
    ev.seq = view.seq := by
  rw [trustEvent] at h
  simp only [Option.bind_eq_bind, Option.bind_eq_some_iff] at h
  obtain ⟨_, -, _, -, _, -, _, -, _, -, _, -, heq⟩ := h
  cases heq
  rfl

/-- Loading a log reads each of its events back. -/
theorem loadTrustEvents_chain (h : Chain sha256 logId kv views) :
    (loadTrustEvents sha256 parse kv logId).events = views.filterMap (trustEvent parse) := by
  rw [loadTrustEvents, h.scan]
  simp only [map_map, filterMap_map]
  refine filterMap_congr (fun view hview => ?_)
  simp only [Function.comp_apply, EventView.entry, storedEvent, h.decodes view hview, id_eq]

theorem ascending_chain (h : Chain sha256 logId kv views) :
    Ascending (views.filterMap (trustEvent parse)) := by
  refine Pairwise.filterMap _ (fun v w hlt a ha b hb => ?_) h.seq_lt
  rw [trustEvent_seq ha, trustEvent_seq hb]
  exact hlt

/-! ## Replays -/

/-- The same organisation gets the same capability bits on the same prefixes. -/
def TrustEvent.SameAuthority (ev grant : TrustEvent) : Prop :=
  ev.toOrg = grant.toOrg ∧ ev.capBits = grant.capBits ∧ ev.prefixes = grant.prefixes

section
variable (ed25519 : Ed25519) (grantingOrg : OrgKey)

/-- The fold reports the grant's authority as active. -/
def Active (events : List TrustEvent) (atMs : UInt64) (grant : TrustEvent) : Prop :=
  ∃ cap ∈ (foldTrust ed25519 grantingOrg events atMs).capabilities,
    cap.toOrg = grant.toOrg ∧ cap.capBits = grant.capBits ∧ cap.prefixes = grant.prefixes

/-- Every valid grant of the authority that has not expired is followed by a valid
revocation of its own number. -/
def Undone (atMs : UInt64) (grant : TrustEvent) (appended : List TrustEvent) : Prop :=
  ∀ before copy after, appended = before ++ copy :: after →
    ValidGrant ed25519 grantingOrg copy → copy.SameAuthority grant →
    copy.capability.expired atMs = false → ∃ ev ∈ after, Revokes ed25519 grantingOrg ev copy

end

variable {events : List TrustEvent} {atMs : UInt64} {grant : TrustEvent}

theorem active_iff (h : Ascending events) : ¬ Active ed25519 grantingOrg events atMs grant ↔
      Undone ed25519 grantingOrg atMs grant events := by
  constructor
  · intro hinactive before copy after heq hvalid hsame hfresh
    by_contra hnone
    refine hinactive ⟨copy.capability, (mem_capabilities_iff h).mpr ⟨⟨before, copy, after, heq, hvalid,
      rfl, fun ev hev hr => hnone ⟨ev, hev, hr⟩⟩, hfresh⟩, hsame⟩
  · rintro hundone ⟨cap, hcap, hsame⟩
    obtain ⟨⟨before, copy, after, heq, hvalid, rfl, hnone⟩, hfresh⟩ := (mem_capabilities_iff h).mp hcap
    obtain ⟨ev, hev, hr⟩ := hundone before copy after heq hvalid hsame hfresh
    exact hnone ev hev hr

/-- What was undone stays so; the rest has to undo itself. -/
theorem undone_append {appended : List TrustEvent}
    (h : Undone ed25519 grantingOrg atMs grant events) :
    Undone ed25519 grantingOrg atMs grant (events ++ appended) ↔
      Undone ed25519 grantingOrg atMs grant appended := by
  constructor
  · intro hall before copy after heq hvalid hsame hfresh
    exact hall (events ++ before) copy after (by rw [heq, append_assoc]) hvalid hsame hfresh
  · intro happended before copy after heq hvalid hsame hfresh
    rcases append_eq_append_iff.mp heq with ⟨middle, rfl, hrest⟩ | ⟨middle, hfront, hrest⟩
    · exact happended middle copy after hrest hvalid hsame hfresh
    · cases middle with
      | nil => exact happended [] copy after hrest.symm hvalid hsame hfresh
      | cons first middle =>
        -- the copy is one of the old events, and so is what undoes it
        obtain ⟨rfl, hafter⟩ := cons.inj hrest
        obtain ⟨ev, hev, hr⟩ := h before copy middle hfront hvalid hsame hfresh
        exact ⟨ev, hafter ▸ mem_append_left _ hev, hr⟩

/-- **When a revocation withstands what is appended.**  Of a log after which an authority
is not active, and a longer log, whoever appended what to it: the authority is still not
active exactly when what was appended undoes itself. -/
theorem replay_iff (hlog : Chain sha256 logId kv views)
    (hmore : Chain sha256 logId kv' (views ++ copies)) {atMs : UInt64} {grant : TrustEvent}
    (hrevoked : ¬ Active ed25519 grantingOrg (loadTrustEvents sha256 parse kv logId).events atMs grant) :
    ¬ Active ed25519 grantingOrg (loadTrustEvents sha256 parse kv' logId).events atMs grant ↔
      Undone ed25519 grantingOrg atMs grant (copies.filterMap (trustEvent parse)) := by
  rw [loadTrustEvents_chain hlog, active_iff (ascending_chain hlog)] at hrevoked
  rw [loadTrustEvents_chain hmore, active_iff (ascending_chain hmore), filterMap_append,
    undone_append hrevoked]

/-! ## One grant, revoked and appended again -/

open Mmr (sha256Digest)

def sampleOrg : OrgKey := ⟨Bundle.samplePublicKey, rfl⟩
def sampleDelegate : OrgKey := ⟨replicate 32 0x22, rfl⟩

/-- `write` on the keys under `"mem:acme:"`, without an end. -/
def sampleGrant : TrustEvent where
  seq := 1
  kind := .grant
  fromOrg := sampleOrg
  toOrg := sampleDelegate
  capBits := capWrite
  prefixes := [ascii "mem:acme:"]
  expiresAtMs := 0
  grantedAtMs := 100
  grantSeq := 0
  revokedAtMs := 0
  sig := ⟨[78, 241, 149, 156, 157, 61, 78, 250, 3, 31, 211, 170, 23, 166, 75, 20, 79, 31, 165, 158,
    111, 126, 13, 33, 219, 203, 105, 59, 18, 51, 182, 138, 207, 45, 101, 246, 46, 169, 152, 224, 60,
    168, 13, 164, 194, 189, 59, 117, 137, 195, 191, 91, 129, 233, 155, 226, 32, 10, 209, 79, 142, 60,
    29, 8], rfl⟩

def sampleRevoke : TrustEvent where
  seq := 2
  kind := .revoke
  fromOrg := sampleOrg
  toOrg := sampleDelegate
  capBits := 0
  prefixes := []
  expiresAtMs := 0
  grantedAtMs := 0
  grantSeq := 1
  revokedAtMs := 200
  sig := ⟨[96, 207, 59, 55, 246, 240, 188, 199, 97, 51, 202, 203, 208, 130, 143, 85, 25, 197, 120, 44,
    38, 178, 75, 155, 230, 66, 233, 138, 188, 248, 209, 139, 217, 42, 76, 38, 100, 124, 96, 59, 196,
    243, 79, 163, 5, 158, 159, 4, 49, 186, 113, 183, 63, 144, 226, 75, 234, 164, 103, 72, 221, 75, 0,
    4], rfl⟩

/-- Ed25519 on the two messages the organisation has signed. -/
def sampleVerify : Ed25519 where
  verify := fun publicKey message signature => decide (publicKey = sampleOrg.bytes ∧
    (message = sampleGrant.grantBytes ∧ signature = sampleGrant.sig ∨
      message = sampleRevoke.revokeBytes ∧ signature = sampleRevoke.sig))
  sign := fun _ _ => none

def orgHex : Bytes := ascii "d75a980182b10ab7d54bfed3c964073a0ee172f3daa62325af021a68f707511a"
def delegateHex : Bytes := ascii "2222222222222222222222222222222222222222222222222222222222222222"

def grantSigHex : Bytes :=
  ascii "4ef1959c9d3d4efa031fd3aa17a64b144f1fa59e6f7e0d21dbcb693b1233b68a" ++
    ascii "cf2d65f62ea998e03ca80da4c2bd3b7589c3bf5b81e99be2200ad14f8e3c1d08"

def revokeSigHex : Bytes :=
  ascii "60cf3b37f6f0bcc76133cacbd0828f5519c5782c26b24b9be642e98abcf8d18b" ++
    ascii "d92a4c26647c603bc4f34fa3059e9f0431ba71b73f90e24beaa46748dd4b0004"

def grantText : Bytes :=
  ascii "\x7b\"t\":\"trust.grant\",\"from_org\":\"" ++ orgHex ++ ascii "\",\"to_org\":\"" ++ delegateHex ++
    ascii "\",\"caps\":[\"write\"],\"prefixes\":[\"mem:acme:\"],\"expires_at_ms\":0," ++
    ascii "\"granted_at_ms\":100,\"sig\":\"" ++ grantSigHex ++ ascii "\"\x7d"

def revokeText : Bytes :=
  ascii "\x7b\"t\":\"trust.revoke\",\"from_org\":\"" ++ orgHex ++ ascii "\",\"to_org\":\"" ++ delegateHex ++
    ascii "\",\"grant_seq\":1,\"revoked_at_ms\":200,\"sig\":\"" ++ revokeSigHex ++ ascii "\"\x7d"

/-- What the two texts read back as. -/
def sampleParse (payload : Bytes) : Option TrustEventJson :=
  if payload = grantText then
    some ⟨ascii "trust.grant", orgHex, delegateHex, [ascii "write"], [ascii "mem:acme:"], 0, 100, 0, 0,
      grantSigHex⟩
  else if payload = revokeText then
    some ⟨ascii "trust.revoke", orgHex, delegateHex, [], [], 0, 0, 1, 200, revokeSigHex⟩
  else none

def trustLogId : Bytes := logIdPrefix ++ orgHex

/-- The grant and its revocation. -/
def revokedLog : List Request := [⟨grantText, [], 100⟩, ⟨revokeText, [], 200⟩]

/-- The same with the grant's text appended once more. -/
def replayedLog : List Request := revokedLog ++ [⟨grantText, [], 300⟩]

/-- The texts are short, are read as the events, and fold as they should. -/
theorem replay_evaluations :
    ((AppendLog.views sha256Digest trustLogId revokedLog).filterMap (trustEvent sampleParse) =
      [sampleGrant, sampleRevoke]) ∧
    ((AppendLog.views sha256Digest trustLogId replayedLog).filterMap (trustEvent sampleParse) =
      [sampleGrant, sampleRevoke, { sampleGrant with seq := 3 }]) ∧
    (∀ req ∈ replayedLog, req.payload.length ≤ AppendLog.maxU32 ∧ req.attachmentHashes = []) ∧
    (verifyBytes sampleVerify sampleGrant.grantBytes sampleGrant.sig sampleGrant.fromOrg = true ∧
      verifyBytes sampleVerify sampleRevoke.revokeBytes sampleRevoke.sig sampleRevoke.fromOrg = true) ∧
    (foldTrust sampleVerify sampleOrg [sampleGrant, sampleRevoke] 1000).capabilities = [] ∧
    { sampleGrant with seq := 3 }.capability ∈ (foldTrust sampleVerify sampleOrg
      [sampleGrant, sampleRevoke, { sampleGrant with seq := 3 }] 1000).capabilities := by
  decide +kernel

theorem revokedLog_fits : ∀ req ∈ revokedLog, req.payload.length ≤ AppendLog.maxU32 ∧
    req.attachmentHashes = [] :=
  fun req hreq => replay_evaluations.2.2.1 req (mem_append_left _ hreq)

theorem grantText_fits : ∀ req ∈ [(⟨grantText, [], 100⟩ : Request)],
    req.payload.length ≤ AppendLog.maxU32 ∧ req.attachmentHashes = [] := by
  intro req hreq
  rw [mem_singleton.mp hreq]
  exact revokedLog_fits _ mem_cons_self

theorem sample_fits {es : List Request} (hes : ∀ req ∈ es, req.payload.length ≤ AppendLog.maxU32 ∧
    req.attachmentHashes = []) :
    ∀ input ∈ AppendLog.inputs sha256Digest trustLogId es, input.Fits := by
  intro input hin
  obtain ⟨i, req, hreq, rfl⟩ := AppendLog.mem_inputs_iff.mp hin
  obtain ⟨hpayload, hattach⟩ := hes req (mem_of_getElem? hreq)
  refine ⟨(by decide : trustLogId.length ≤ AppendLog.maxU32), hpayload, ?_⟩
  rw [AppendLog.Request.input, hattach]
  exact Nat.zero_le _

def revokedStore : Kv := AppendLog.storeOf sha256Digest trustLogId revokedLog (by decide)
def replayedStore : Kv := AppendLog.storeOf sha256Digest trustLogId replayedLog (by decide)

/-- The record of the copy. -/
def replayedView : EventView :=
  ((⟨grantText, [], 300⟩ : Request).input trustLogId
    (AppendLog.stateOf sha256Digest trustLogId revokedLog)).view sha256Digest

theorem revokedStore_chain : Chain sha256Digest trustLogId revokedStore
    (AppendLog.views sha256Digest trustLogId revokedLog) :=
  (AppendLog.storeOf_holds _ (sample_fits revokedLog_fits)).chain

theorem replayed_views : AppendLog.views sha256Digest trustLogId replayedLog =
    AppendLog.views sha256Digest trustLogId revokedLog ++ [replayedView] := by
  rw [AppendLog.views, replayedLog, AppendLog.inputs_concat, map_append, AppendLog.views,
    map_singleton, replayedView]

theorem replayedStore_chain : Chain sha256Digest trustLogId replayedStore
    (AppendLog.views sha256Digest trustLogId revokedLog ++ [replayedView]) := by
  rw [← replayed_views]
  exact (AppendLog.storeOf_holds _ (sample_fits replay_evaluations.2.2.1)).chain

theorem revokedStore_events : (loadTrustEvents sha256Digest sampleParse revokedStore trustLogId).events =
    [sampleGrant, sampleRevoke] := by
  rw [loadTrustEvents_chain revokedStore_chain, replay_evaluations.1]

theorem replayedStore_events :
    (loadTrustEvents sha256Digest sampleParse replayedStore trustLogId).events =
      [sampleGrant, sampleRevoke, { sampleGrant with seq := 3 }] := by
  rw [loadTrustEvents_chain replayedStore_chain, ← replayed_views, replay_evaluations.2.1]

theorem sample_valid : ValidGrant sampleVerify sampleOrg sampleGrant ∧
    Revokes sampleVerify sampleOrg sampleRevoke sampleGrant :=
  ⟨⟨rfl, rfl, replay_evaluations.2.2.2.1.1⟩, ⟨rfl, rfl, replay_evaluations.2.2.2.1.2⟩, rfl, rfl⟩

theorem revoked_inactive : ¬ Active sampleVerify sampleOrg
    (loadTrustEvents sha256Digest sampleParse revokedStore trustLogId).events 1000 sampleGrant := by
  rw [revokedStore_events]
  rintro ⟨cap, hcap, -⟩
  rw [replay_evaluations.2.2.2.2.1] at hcap
  cases hcap

/-- **A replay brings a revoked authority back.**  The third event of the log has the
text of the first. -/
theorem replay_reactivates :
    Chain sha256Digest trustLogId revokedStore (AppendLog.views sha256Digest trustLogId revokedLog) ∧
    Chain sha256Digest trustLogId replayedStore
      (AppendLog.views sha256Digest trustLogId revokedLog ++ [replayedView]) ∧
    (∃ view ∈ AppendLog.views sha256Digest trustLogId revokedLog, replayedView.payload = view.payload) ∧
    (loadTrustEvents sha256Digest sampleParse revokedStore trustLogId).events =
      [sampleGrant, sampleRevoke] ∧
    ValidGrant sampleVerify sampleOrg sampleGrant ∧
    Revokes sampleVerify sampleOrg sampleRevoke sampleGrant ∧
    (¬ Active sampleVerify sampleOrg
      (loadTrustEvents sha256Digest sampleParse revokedStore trustLogId).events 1000 sampleGrant) ∧
    Active sampleVerify sampleOrg
      (loadTrustEvents sha256Digest sampleParse replayedStore trustLogId).events 1000 sampleGrant := by
  refine ⟨revokedStore_chain, replayedStore_chain, ?_, revokedStore_events, sample_valid.1,
    sample_valid.2, revoked_inactive, ?_⟩
  · exact ⟨_, mem_cons_self, rfl⟩
  · rw [replayedStore_events]
    exact ⟨_, replay_evaluations.2.2.2.2.2, rfl, rfl, rfl⟩

theorem replay_iff_sample :
    ¬ Active sampleVerify sampleOrg
      (loadTrustEvents sha256Digest sampleParse replayedStore trustLogId).events 1000 sampleGrant ↔
    Undone sampleVerify sampleOrg 1000 sampleGrant
      ([replayedView].filterMap (trustEvent sampleParse)) :=
  replay_iff revokedStore_chain replayedStore_chain revoked_inactive

end TrustLog
end WormDB
