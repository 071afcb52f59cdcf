import WormDB.TrustReplay

/-! # What a trust signature binds

The bytes that an organisation signs are one of two encodings of an event's body,
each behind a context of its own.  Equal bytes come from equal bodies: the key
fields have fixed widths, and each of a grant's namespace prefixes stands behind its
length, so a list of any contents is read back in one way (`flatMap_lenBytes_inj`).

The number of the event is in neither encoding; that of the grant to be revoked is. -/
namespace WormDB
open List ByteCodec
open Checkpoint (lenBytes)
namespace TrustLog

structure GrantBody where
  fromOrg : OrgKey
  toOrg : OrgKey
  capBits : UInt8
  prefixes : List Bytes
  expiresAtMs : UInt64
  grantedAtMs : UInt64
  deriving DecidableEq

structure RevokeBody where
  fromOrg : OrgKey
  toOrg : OrgKey
  grantSeq : UInt64
  revokedAtMs : UInt64
  deriving DecidableEq

def encodeGrantBytes (g : GrantBody) : Bytes :=
  grantContext ++ (g.fromOrg.bytes ++ (g.toOrg.bytes ++ ([g.capBits] ++
    (beBytes 4 g.prefixes.length ++ (g.prefixes.flatMap lenBytes ++
      (beBytes 8 g.expiresAtMs.toNat ++ beBytes 8 g.grantedAtMs.toNat))))))

def encodeRevokeBytes (r : RevokeBody) : Bytes :=
  revokeContext ++ (r.fromOrg.bytes ++ (r.toOrg.bytes ++ (beBytes 8 r.grantSeq.toNat ++
    beBytes 8 r.revokedAtMs.toNat)))

/-- The body of an event, which is what gets signed. -/
inductive Body where
  | grant (g : GrantBody)
  | revoke (r : RevokeBody)
  deriving DecidableEq

def Body.encode : Body → Bytes
  | .grant g => encodeGrantBytes g
  | .revoke r => encodeRevokeBytes r

def TrustEvent.body (ev : TrustEvent) : Body :=
  match ev.kind with
  | .grant => .grant ⟨ev.fromOrg, ev.toOrg, ev.capBits, ev.prefixes, ev.expiresAtMs, ev.grantedAtMs⟩
  | .revoke => .revoke ⟨ev.fromOrg, ev.toOrg, ev.grantSeq, ev.revokedAtMs⟩

/-- The bytes that the fold checks the signature over. -/
def TrustEvent.signedBytes (ev : TrustEvent) : Bytes :=
  match ev.kind with
  | .grant => ev.grantBytes
  | .revoke => ev.revokeBytes

theorem signedBytes_eq (ev : TrustEvent) : ev.signedBytes = ev.body.encode := by
  rw [TrustEvent.signedBytes, TrustEvent.body]
  cases ev.kind with
  | grant =>
    simp only [Body.encode, encodeGrantBytes, TrustEvent.grantBytes, append_assoc]
  | revoke =>
    simp only [Body.encode, encodeRevokeBytes, TrustEvent.revokeBytes, append_assoc]

/-- The number of prefixes and the length of each fit 32 bits. -/
def GrantBody.Fits (g : GrantBody) : Prop :=
  g.prefixes.length < 2 ^ 32 ∧ ∀ p ∈ g.prefixes, p.length < 2 ^ 32

def Body.Fits : Body → Prop
  | .grant g => g.Fits
  | .revoke _ => True

/-! ## Taking the bytes apart -/

section
variable {x y : Bytes}

theorem lenBytes_append_inj {p q : Bytes} (hp : p.length < 2 ^ 32) (hq : q.length < 2 ^ 32)
    (h : lenBytes p ++ x = lenBytes q ++ y) : p = q ∧ x = y := by
  rw [lenBytes, lenBytes, append_assoc, append_assoc] at h
  obtain ⟨hlen, hrest⟩ := append_inj h (by rw [beBytes_length, beBytes_length])
  exact append_inj hrest (beBytes_inj hp hq hlen)

/-- **Lists of one length with their elements behind their lengths.** -/
theorem flatMap_lenBytes_inj {ps qs : List Bytes} (hlen : ps.length = qs.length)
    (hp : ∀ p ∈ ps, p.length < 2 ^ 32) (hq : ∀ q ∈ qs, q.length < 2 ^ 32)
    (h : ps.flatMap lenBytes ++ x = qs.flatMap lenBytes ++ y) : ps = qs ∧ x = y := by
  induction ps generalizing qs with
  | nil =>
    obtain rfl := eq_nil_of_length_eq_zero hlen.symm
    exact ⟨rfl, h⟩
  | cons p ps ih =>
    cases qs with
    | nil => cases hlen
    | cons q qs =>
      rw [flatMap_cons, flatMap_cons, append_assoc, append_assoc] at h
      obtain ⟨rfl, hrest⟩ := lenBytes_append_inj (hp p mem_cons_self)
        (hq q mem_cons_self) h
      obtain ⟨rfl, hend⟩ := ih (Nat.succ.inj hlen) (fun r hr => hp r (mem_cons_of_mem _ hr))
        (fun r hr => hq r (mem_cons_of_mem _ hr)) hrest
      exact ⟨rfl, hend⟩

theorem orgKey_append_inj {a b : OrgKey} (h : a.bytes ++ x = b.bytes ++ y) : a = b ∧ x = y := by
  obtain ⟨hbytes, hrest⟩ := append_inj h (a.size_eq.trans b.size_eq.symm)
  cases a
  cases b
  obtain rfl : _ = _ := hbytes
  exact ⟨rfl, hrest⟩

variable {a b : UInt64}

theorem u64_append_inj (h : beBytes 8 a.toNat ++ x = beBytes 8 b.toNat ++ y) : a = b ∧ x = y := by
  obtain ⟨hbytes, hrest⟩ := append_inj h (by rw [beBytes_length, beBytes_length])
  exact ⟨UInt64.toNat_inj.mp (beBytes_inj a.toNat_lt b.toNat_lt hbytes), hrest⟩

theorem u64_inj (h : beBytes 8 a.toNat = beBytes 8 b.toNat) : a = b :=
  (u64_append_inj (x := []) (y := []) (congrArg (· ++ []) h)).1

end

/-! ## Equal bytes, equal bodies -/

theorem encodeGrantBytes_inj {g g' : GrantBody} (hg : g.Fits) (hg' : g'.Fits)
    (h : encodeGrantBytes g = encodeGrantBytes g') : g = g' := by
  obtain ⟨fromOrg, toOrg, capBits, prefixes, expires, granted⟩ := g
  obtain ⟨fromOrg', toOrg', capBits', prefixes', expires', granted'⟩ := g'
  obtain ⟨hcount, hlengths⟩ := hg
  obtain ⟨hcount', hlengths'⟩ := hg'
  have hbody := append_cancel_left h
  obtain ⟨hfrom, hbody⟩ := orgKey_append_inj hbody
  obtain ⟨hto, hbody⟩ := orgKey_append_inj hbody
  obtain ⟨hbits, hbody⟩ := append_inj hbody rfl
  obtain ⟨hlen, hbody⟩ := append_inj hbody (by rw [beBytes_length, beBytes_length])
  obtain ⟨hprefixes, hbody⟩ :=
    flatMap_lenBytes_inj (beBytes_inj hcount hcount' hlen) hlengths hlengths' hbody
  obtain ⟨hexpires, hbody⟩ := u64_append_inj hbody
  have hgranted := u64_inj hbody
  dsimp only at *
  rw [hfrom, hto, (cons.inj hbits).1, hprefixes, hexpires, hgranted]

theorem encodeRevokeBytes_inj {r r' : RevokeBody}
    (h : encodeRevokeBytes r = encodeRevokeBytes r') : r = r' := by
  obtain ⟨fromOrg, toOrg, grantSeq, revoked⟩ := r
  obtain ⟨fromOrg', toOrg', grantSeq', revoked'⟩ := r'
  have hbody := append_cancel_left h
  obtain ⟨hfrom, hbody⟩ := orgKey_append_inj hbody
  obtain ⟨hto, hbody⟩ := orgKey_append_inj hbody
  obtain ⟨hseq, hbody⟩ := u64_append_inj hbody
  have hrevoked := u64_inj hbody
  dsimp only at *
  rw [hfrom, hto, hseq, hrevoked]

/-- The contexts differ in a byte that both encodings have. -/
theorem encodeGrantBytes_ne (g : GrantBody) (r : RevokeBody) :
    encodeGrantBytes g ≠ encodeRevokeBytes r := by
  intro h
  have hgrant : (encodeGrantBytes g)[13]? = grantContext[13]? :=
    getElem?_append_left (by decide)
  have hrevoke : (encodeRevokeBytes r)[13]? = revokeContext[13]? :=
    getElem?_append_left (by decide)
  rw [h, hrevoke] at hgrant
  exact absurd hgrant (by decide)

theorem encode_inj {a b : Body} (ha : a.Fits) (hb : b.Fits) (h : a.encode = b.encode) : a = b := by
  cases a with
  | grant g =>
    cases b with
    | grant g' => exact congrArg Body.grant (encodeGrantBytes_inj ha hb h)
    | revoke r => exact absurd h (encodeGrantBytes_ne g r)
  | revoke r =>
    cases b with
    | grant g => exact absurd h.symm (encodeGrantBytes_ne g r)
    | revoke r' => exact congrArg Body.revoke (encodeRevokeBytes_inj h)

/-! ## Signatures -/

/-- The signature of the event verifies over the bytes of its body. -/
def TrustEvent.Verifies (ed25519 : Ed25519) (ev : TrustEvent) : Prop :=
  verifyBytes ed25519 ev.signedBytes ev.sig ev.fromOrg = true

/-- The signature verifies, under whatever key, for one message only. -/
def SignsOne (ed25519 : Ed25519) (sig : Signature) : Prop :=
  ∀ key key' message message', ed25519.verify key message sig = true →
    ed25519.verify key' message' sig = true → message = message'

/-- **A trust signature binds the whole body.**  Both encodings are injective and no
bytes are an encoding of both kinds, so two events whose bodies differ have different
bytes to sign, and a signature that is good for one message verifies for one body. -/
theorem signature_binds_body :
    (∀ g g' : GrantBody, g.Fits → g'.Fits → encodeGrantBytes g = encodeGrantBytes g' → g = g') ∧
    (∀ r r' : RevokeBody, encodeRevokeBytes r = encodeRevokeBytes r' → r = r') ∧
    (∀ (g : GrantBody) (r : RevokeBody), encodeGrantBytes g ≠ encodeRevokeBytes r) ∧
    (∀ ev ev' : TrustEvent, ev.body.Fits → ev'.body.Fits → ev.body ≠ ev'.body →
      ev.signedBytes ≠ ev'.signedBytes ∧
      ∀ ed25519, SignsOne ed25519 ev.sig → ev.Verifies ed25519 →
        ¬ TrustEvent.Verifies ed25519 { ev' with sig := ev.sig }) := by
  refine ⟨fun g g' => encodeGrantBytes_inj, fun r r' => encodeRevokeBytes_inj,
    encodeGrantBytes_ne, ?_⟩
  intro ev ev' hfits hfits' hne
  have hbytes : ev.signedBytes ≠ ev'.signedBytes := by
    intro heq
    rw [signedBytes_eq, signedBytes_eq] at heq
    exact hne (encode_inj hfits hfits' heq)
  refine ⟨hbytes, ?_⟩
  intro ed25519 hone hverifies hverifies'
  exact hbytes (hone _ _ _ _ hverifies hverifies')

/-- The signature of the grant does not verify for the grant with another prefix. -/
theorem grant_signature_binds_prefix :
    ¬ TrustEvent.Verifies sampleVerify
      { sampleGrant with prefixes := [ascii "mem:acme"], sig := sampleGrant.sig } := by
  have hone : SignsOne sampleVerify sampleGrant.sig := by
    have hother : sampleGrant.sig ≠ sampleRevoke.sig := by decide
    have honly : ∀ key message, sampleVerify.verify key message sampleGrant.sig = true →
        message = sampleGrant.grantBytes := by
      intro key message h
      rcases (of_decide_eq_true h).2 with ⟨hmessage, -⟩ | ⟨-, hsig⟩
      · exact hmessage
      · exact absurd hsig hother
    intro key key' message message' h h'
    rw [honly key message h, honly key' message' h']
  have hverifies : sampleGrant.Verifies sampleVerify := by
    unfold TrustEvent.Verifies
    decide +kernel
  have hfits : sampleGrant.body.Fits := ⟨by decide, by decide⟩
  refine (signature_binds_body.2.2.2 sampleGrant
    { sampleGrant with prefixes := [ascii "mem:acme"] } hfits ⟨by decide, by decide⟩
    (by decide)).2 sampleVerify hone hverifies

end TrustLog
end WormDB
