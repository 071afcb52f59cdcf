import WormDB.AppendLogChain
import WormDB.MmrSoundness

/-! # Tamper evidence

Two sequences of envelopes that are verified for one log, with the same count and
the same head hash, are the same bytes (`verifyEnvelopes_inj`).  The argument goes
from the head backwards: the last event hash fixes the preimage it is taken over,
the two together are the last envelope, and that names the hash before it.

What is asked of SHA-256 is that it has no collision among the preimages of the
events in the two sequences. -/
namespace WormDB
open List ByteCodec ByteReader
namespace AppendLog
open Mmr (CollisionFree collisionFree_of_nodup sha256Digest maxU64)

section
variable (sha256 : Bytes → Hash)

def acceptEnvelopes : Verifier → List Bytes → Except Error Verifier
  | verifier, [] => .ok verifier
  | verifier, envelope :: envelopes =>
      match decodeEnvelope envelope with
      | .error e => .error e
      | .ok view =>
          match verifier.accept sha256 view with
          | .error e => .error e
          | .ok verifier => acceptEnvelopes verifier envelopes

/-- Verify a caller-supplied ordered sequence of event envelopes. -/
def verifyEnvelopes (logId : Bytes) (envelopes : List Bytes) : Except Error VerifyReport :=
  match acceptEnvelopes sha256 (.init logId) envelopes with
  | .error e => .error e
  | .ok verifier => .ok verifier.report

end

/-- What the event hash of an envelope is taken over. -/
def preimagePart (envelope : Bytes) : Bytes := envelope.take (envelope.length - 32)

variable {sha256 : Bytes → Hash} {logId : Bytes}

/-! ## One envelope -/

variable {bytes : Bytes} {view : EventView}

/-- A decoded envelope ends in its event hash. -/
theorem decodeEnvelope_ok (h : decodeEnvelope bytes = .ok view) :
    view.bytes = bytes ∧ view.eventHash.bytes <:+ bytes := by
  rw [decodeEnvelope] at h
  obtain ⟨⟨magic, r1⟩, h1, h⟩ := bind_ok h
  simp only [] at h
  split at h
  · cases h
  obtain ⟨⟨version, r2⟩, h2, h⟩ := bind_ok h
  simp only [] at h
  split at h
  · cases h
  obtain ⟨⟨logIdLen, r3⟩, h3, h⟩ := bind_ok h
  obtain ⟨⟨logId, r4⟩, h4, h⟩ := bind_ok h
  obtain ⟨⟨seq, r5⟩, h5, h⟩ := bind_ok h
  obtain ⟨⟨prev, r6⟩, h6, h⟩ := bind_ok h
  obtain ⟨⟨time, r7⟩, h7, h⟩ := bind_ok h
  obtain ⟨⟨payloadHash, r8⟩, h8, h⟩ := bind_ok h
  obtain ⟨⟨attachmentCount, r9⟩, h9, h⟩ := bind_ok h
  obtain ⟨⟨attachments, r10⟩, h10, h⟩ := bind_ok h
  obtain ⟨⟨payloadLen, r11⟩, h11, h⟩ := bind_ok h
  obtain ⟨⟨payload, r12⟩, h12, h⟩ := bind_ok h
  obtain ⟨⟨eventHash, r13⟩, h13, h⟩ := bind_ok h
  simp only [] at h
  split at h
  · cases h
  rename_i hend
  cases h
  -- nothing is left after the hash
  obtain rfl := length_eq_zero_iff.mp (not_not.mp hend)
  have hlast := readHash_ok h13
  rw [append_nil] at hlast
  refine ⟨rfl, ?_⟩
  have hpayload := (readBytes_suffix h12).trans ((readUInt_suffix h11).trans (readBytes_suffix h10))
  have htime := (readUInt_suffix h9).trans ((readHash_suffix h8).trans (readUInt_suffix h7))
  have hseq := (readHash_suffix h6).trans ((readUInt_suffix h5).trans (readBytes_suffix h4))
  have hmagic := (readUInt_suffix h3).trans ((readUInt_suffix h2).trans (readBytes_suffix h1))
  rw [← hlast]
  exact hpayload.trans (htime.trans (hseq.trans hmagic))

/-- The two parts an envelope is cut into are all of it. -/
theorem decodeEnvelope_parts
    (h : decodeEnvelope bytes = .ok view) : bytes = preimagePart bytes ++ view.eventHash.bytes := by
  obtain ⟨-, pre, hpre⟩ := decodeEnvelope_ok h
  have hlen := view.eventHash.size_eq
  subst hpre
  rw [preimagePart, length_append, hlen, Nat.add_sub_cancel, take_left]

theorem verifyEnvelope_ok (h : verifyEnvelope sha256 logId view = .ok ()) :
    view.logId = logId ∧ sha256 view.payload = view.payloadHash ∧
      sha256 (preimagePart view.bytes) = view.eventHash := by
  rw [verifyEnvelope] at h
  split at h
  · cases h
  rename_i hlog
  split at h
  · cases h
  rename_i hpayload
  split at h
  · cases h
  rename_i computed hcomputed
  split at h
  · cases h
  rename_i hevent
  rw [hashEnvelopePreimage] at hcomputed
  split at hcomputed
  · cases hcomputed
  cases hcomputed
  exact ⟨not_not.mp hlog, not_not.mp hpayload, not_not.mp hevent⟩

variable {verifier : Verifier}

/-- **One accepted event**: its number is the expected one, it names the hash before
it, and its own hash is what the next one has to name. -/
theorem Verifier.accept_ok {next : Verifier} (h : verifier.accept sha256 view = .ok next) :
    verifyEnvelope sha256 verifier.logId view = .ok () ∧ view.seq = verifier.expectedSeq ∧
      view.prevEventHash = verifier.previousHash ∧ next.previousHash = view.eventHash ∧
      next.count = verifier.count + 1 ∧ next.logId = verifier.logId := by
  rw [Verifier.accept] at h
  split at h
  · cases h
  rename_i hverify
  split at h
  · cases h
  split at h
  · cases h
  rename_i hle hge
  split at h
  · cases h
  rename_i hprev
  cases h
  refine ⟨hverify, ?_, not_not.mp hprev, rfl, rfl, rfl⟩
  exact UInt64.le_antisymm (UInt64.not_lt.mp hge) (UInt64.not_lt.mp hle)

/-! ## The sequence -/

variable {last : Verifier} {xs : List Bytes} {x : Bytes}

theorem acceptEnvelopes_concat (h : acceptEnvelopes sha256 verifier (xs ++ [x]) = .ok last) :
    ∃ middle view, acceptEnvelopes sha256 verifier xs = .ok middle ∧
      decodeEnvelope x = .ok view ∧ middle.accept sha256 view = .ok last := by
  induction xs generalizing verifier with
  | nil =>
    rw [nil_append, acceptEnvelopes] at h
    split at h
    · cases h
    rename_i view hview
    split at h
    · cases h
    rename_i next hnext
    cases h
    exact ⟨verifier, view, rfl, hview, hnext⟩
  | cons y ys ih =>
    rw [cons_append, acceptEnvelopes] at h
    rw [acceptEnvelopes]
    split at h
    · cases h
    split at h
    · cases h
    exact ih h

theorem acceptEnvelopes_count (h : acceptEnvelopes sha256 verifier xs = .ok last) :
    last.count = verifier.count + xs.length := by
  induction xs generalizing verifier with
  | nil =>
    cases h
    rfl
  | cons x xs ih =>
    rw [acceptEnvelopes] at h
    split at h
    · cases h
    split at h
    · cases h
    rename_i next haccept
    obtain ⟨-, -, -, -, hcount, -⟩ := Verifier.accept_ok haccept
    rw [ih h, hcount, length_cons]
    omega

/-- Two last envelopes whose event hashes are the same. -/
theorem envelope_inj {y : Bytes} {vx vy : EventView}
    (hfree : CollisionFree sha256 [preimagePart x, preimagePart y])
    (hx : decodeEnvelope x = .ok vx) (hy : decodeEnvelope y = .ok vy)
    (hvx : sha256 (preimagePart vx.bytes) = vx.eventHash)
    (hvy : sha256 (preimagePart vy.bytes) = vy.eventHash)
    (heq : vx.eventHash = vy.eventHash) : x = y := by
  rw [(decodeEnvelope_ok hx).1] at hvx
  rw [(decodeEnvelope_ok hy).1] at hvy
  have hpre : preimagePart x = preimagePart y :=
    hfree _ (by simp) _ (by simp) (by rw [hvx, hvy, heq])
  rw [decodeEnvelope_parts hx, decodeEnvelope_parts hy, hpre, heq]

theorem acceptEnvelopes_inj {lastX lastY : Verifier} {ys : List Bytes}
    (hfree : CollisionFree sha256 (xs.map preimagePart ++ ys.map preimagePart))
    (hx : acceptEnvelopes sha256 verifier xs = .ok lastX)
    (hy : acceptEnvelopes sha256 verifier ys = .ok lastY) (hlen : xs.length = ys.length)
    (hhead : lastX.previousHash = lastY.previousHash) : xs = ys := by
  induction xs using List.reverseRecOn generalizing ys lastX lastY with
  | nil => exact (length_eq_zero_iff.mp hlen.symm).symm
  | append_singleton xs x ih =>
    rcases eq_nil_or_concat ys with rfl | ⟨ys, y, rfl⟩
    · simp at hlen
    rw [concat_eq_append] at *
    obtain ⟨midX, vx, hxs, hdx, hax⟩ := acceptEnvelopes_concat hx
    obtain ⟨midY, vy, hys, hdy, hay⟩ := acceptEnvelopes_concat hy
    obtain ⟨hvx, -, hpx, hnx, -, -⟩ := Verifier.accept_ok hax
    obtain ⟨hvy, -, hpy, hny, -, -⟩ := Verifier.accept_ok hay
    have hsub : ∀ z ∈ [preimagePart x, preimagePart y],
        z ∈ (xs ++ [x]).map preimagePart ++ (ys ++ [y]).map preimagePart := by simp
    -- the heads agree, so the last envelopes do, and with them the hashes they name
    obtain rfl : x = y := envelope_inj (fun a ha b hb => hfree a (hsub a ha) b (hsub b hb)) hdx hdy
      (verifyEnvelope_ok hvx).2.2 (verifyEnvelope_ok hvy).2.2 (by rw [← hnx, ← hny, hhead])
    obtain rfl : vx = vy := Except.ok.inj (hdx.symm.trans hdy)
    have hrest : ∀ z ∈ xs.map preimagePart ++ ys.map preimagePart,
        z ∈ (xs ++ [x]).map preimagePart ++ (ys ++ [x]).map preimagePart := by
      intro z hz
      simp only [map_append, mem_append] at hz ⊢
      rcases hz with hz | hz
      · exact .inl (.inl hz)
      · exact .inr (.inl hz)
    have hxs' := ih (fun a ha b hb => hfree a (hrest a ha) b (hrest b hb)) hxs hys
      (by simpa using hlen) (by rw [← hpx, ← hpy])
    rw [hxs']

/-- **Tamper evidence.**  Of one log, with one count and one head hash, there is one
sequence of envelopes that the verification accepts. -/
theorem verifyEnvelopes_inj {xs ys : List Bytes} {reportX reportY : VerifyReport}
    (hfree : CollisionFree sha256 (xs.map preimagePart ++ ys.map preimagePart))
    (hx : verifyEnvelopes sha256 logId xs = .ok reportX)
    (hy : verifyEnvelopes sha256 logId ys = .ok reportY)
    (hcount : reportX.count = reportY.count) (hhead : reportX.headHash = reportY.headHash) :
    xs = ys := by
  rw [verifyEnvelopes] at hx hy
  split at hx
  · cases hx
  rename_i lastX hlastX
  split at hy
  · cases hy
  rename_i lastY hlastY
  cases hx
  cases hy
  have hlen : xs.length = ys.length := by
    have hcx := acceptEnvelopes_count hlastX
    have hcy := acceptEnvelopes_count hlastY
    simp only [Verifier.report] at hcount
    omega
  exact acceptEnvelopes_inj hfree hlastX hlastY hlen hhead

/-! ## The records of a log are accepted -/

theorem acceptEnvelopes_append (xs ys : List Bytes) :
    acceptEnvelopes sha256 verifier (xs ++ ys) =
      match acceptEnvelopes sha256 verifier xs with
      | .error e => .error e
      | .ok middle => acceptEnvelopes sha256 middle ys := by
  induction xs generalizing verifier with
  | nil => rfl
  | cons x xs ih =>
    rw [cons_append, acceptEnvelopes, acceptEnvelopes]
    generalize decodeEnvelope x = decoded
    obtain e | view := decoded
    · rfl
    simp only []
    generalize verifier.accept sha256 view = accepted
    obtain e | next := accepted
    · rfl
    · exact ih

variable (sha256 logId) in
/-- The records of the requests, in order. -/
def envelopes (es : List Request) : List Bytes :=
  (inputs sha256 logId es).map (fun input => (sealEnvelope sha256 input).envelope)

theorem envelopes_concat (es : List Request) (req : Request) :
    envelopes sha256 logId (es ++ [req]) = envelopes sha256 logId es ++
      [(sealEnvelope sha256 (req.input logId (stateOf sha256 logId es))).envelope] := by
  rw [envelopes, inputs_concat, map_append, envelopes, map_singleton]

variable {es : List Request}

theorem acceptEnvelopes_envelopes (hlen : es.length ≤ maxU64)
    (hfits : ∀ input ∈ inputs sha256 logId es, input.Fits) :
    ∃ verifier, acceptEnvelopes sha256 (.init logId) (envelopes sha256 logId es) = .ok verifier ∧
      Follows sha256 logId es verifier := by
  induction es using List.reverseRecOn with
  | nil => exact ⟨_, rfl, init_follows⟩
  | append_singleton es req ih =>
    rw [length_append, length_singleton] at hlen
    rw [inputs_concat] at hfits
    obtain ⟨verifier, hrun, hfollows⟩ :=
      ih (by omega) (fun input hin => hfits input (mem_append_left _ hin))
    obtain ⟨next, haccept, hnext⟩ := hfollows.accept (by omega) req
    refine ⟨next, ?_, hnext⟩
    rw [envelopes_concat, acceptEnvelopes_append, hrun]
    simp only [acceptEnvelopes, haccept,
      decodeEnvelope_seal (hfits _ (mem_append_right _ (mem_singleton_self _)))]

/-- The verification accepts the records of a log, and reports their count and head. -/
theorem verifyEnvelopes_envelopes (hlen : es.length ≤ maxU64)
    (hfits : ∀ input ∈ inputs sha256 logId es, input.Fits) :
    verifyEnvelopes sha256 logId (envelopes sha256 logId es) =
      .ok ⟨es.length, (stateOf sha256 logId es).lastSeq, (stateOf sha256 logId es).headHash⟩ := by
  obtain ⟨verifier, hrun, hfollows⟩ := acceptEnvelopes_envelopes hlen hfits
  rw [verifyEnvelopes, hrun]
  simp only [Verifier.report, hfollows.count, hfollows.last, hfollows.previous]

/-! ## On SHA-256 itself -/

/-- A log of two events. -/
def twoRequests : List Request := [⟨ascii "a", [], 5⟩, ⟨ascii "b", [], 7⟩]

theorem twoRequests_collisionFree : CollisionFree sha256Digest
    ((envelopes sha256Digest (ascii "t") twoRequests).map preimagePart ++
      (envelopes sha256Digest (ascii "t") twoRequests).map preimagePart) := by
  have hnodup : (((envelopes sha256Digest (ascii "t") twoRequests).map preimagePart).map
      sha256Digest).Nodup := by
    rw [Mmr.sha256Digest_eq_eval]
    decide +kernel
  refine collisionFree_of_nodup (fun x hx => ?_) hnodup
  rcases mem_append.mp hx with hx | hx <;> exact hx

theorem verifyEnvelopes_inj_pair :
    (∃ report, report.count = 2 ∧ verifyEnvelopes sha256Digest (ascii "t")
      (envelopes sha256Digest (ascii "t") twoRequests) = .ok report) ∧
    envelopes sha256Digest (ascii "t") twoRequests = envelopes sha256Digest (ascii "t") twoRequests := by
  have hfits : ∀ input ∈ inputs sha256Digest (ascii "t") twoRequests, input.Fits := by
    intro input hin
    obtain rfl | rfl : input = _ ∨ input = _ := by simpa [inputs, inputsFrom, twoRequests] using hin
    · exact ⟨by decide, by decide, by decide⟩
    · exact ⟨by decide, by decide, by decide⟩
  have haccept := verifyEnvelopes_envelopes (by decide) hfits
  exact ⟨⟨_, rfl, haccept⟩,
    verifyEnvelopes_inj twoRequests_collisionFree haccept haccept rfl rfl⟩

end AppendLog
end WormDB
