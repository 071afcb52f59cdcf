import WormDB.TrustReplay

/-! # The rules that the trust fold computes

The fold builds its list in one pass, with a removal for each revocation, and removes
what has expired in a second one.  `Stands` says of a grant and the events after it
whether it is still there at the end, with no list; the capabilities are those of the
grants that stand, in their order, and have not expired (`foldTrust_capabilities`).
The numbers of the events are distinct and in any order.  An event that is not valid
only counts (`foldTrust_invalid`). -/
namespace WormDB
open List
namespace TrustLog

section
variable (ed25519 : Ed25519) (grantingOrg : OrgKey)

instance : DecidablePred (ValidGrant ed25519 grantingOrg) := fun ev =>
  decidable_of_iff (ev.fromOrg = grantingOrg ∧ ev.kind = .grant ∧
      verifyBytes ed25519 ev.grantBytes ev.sig ev.fromOrg = true)
    ⟨fun h => ⟨h.1, h.2.1, h.2.2⟩, fun h => ⟨h.org, h.kind, h.signed⟩⟩

instance : DecidablePred (ValidRevoke ed25519 grantingOrg) := fun ev =>
  decidable_of_iff (ev.fromOrg = grantingOrg ∧ ev.kind = .revoke ∧
      verifyBytes ed25519 ev.revokeBytes ev.sig ev.fromOrg = true)
    ⟨fun h => ⟨h.1, h.2.1, h.2.2⟩, fun h => ⟨h.org, h.kind, h.signed⟩⟩

instance : DecidableRel (Revokes ed25519 grantingOrg) := fun ev _ =>
  inferInstanceAs (Decidable (ValidRevoke ed25519 grantingOrg ev ∧ _ ∧ _))

/-- The signature and the organisation are good. -/
def Valid (ev : TrustEvent) : Prop :=
  ValidGrant ed25519 grantingOrg ev ∨ ValidRevoke ed25519 grantingOrg ev

instance : DecidablePred (Valid ed25519 grantingOrg) := fun _ =>
  inferInstanceAs (Decidable (_ ∨ _))

/-- A valid grant that no valid revocation after it names. -/
def Stands (grant : TrustEvent) (later : List TrustEvent) : Prop :=
  ValidGrant ed25519 grantingOrg grant ∧ ∀ ev ∈ later, ¬ Revokes ed25519 grantingOrg ev grant

instance (grant : TrustEvent) (later : List TrustEvent) :
    Decidable (Stands ed25519 grantingOrg grant later) := inferInstanceAs (Decidable (_ ∧ _))

/-- The grants of a log that stand, in their order. -/
def standing : List TrustEvent → List TrustEvent
  | [] => []
  | ev :: later => if Stands ed25519 grantingOrg ev later then ev :: standing later else standing later

/-- The grant has no expiry or one after the time. -/
def Unexpired (atMs : UInt64) (grant : TrustEvent) : Prop :=
  grant.expiresAtMs = 0 ∨ atMs < grant.expiresAtMs

instance (atMs : UInt64) : DecidablePred (Unexpired atMs) := fun _ =>
  inferInstanceAs (Decidable (_ ∨ _))

end

variable {ed25519 : Ed25519} {grantingOrg : OrgKey} {events : List TrustEvent} {x : TrustEvent}

/-! ## One more event -/

theorem standing_sublist (events : List TrustEvent) :
    (standing ed25519 grantingOrg events).Sublist events := by
  induction events with
  | nil => exact Sublist.refl []
  | cons ev later ih =>
    rw [standing]
    by_cases hstands : Stands ed25519 grantingOrg ev later
    · rw [if_pos hstands]
      exact ih.cons_cons ev
    · rw [if_neg hstands]
      exact ih.cons ev

/-- A new event removes the grants that it revokes, and stands if it is a valid
grant. -/
theorem standing_concat (events : List TrustEvent) (x : TrustEvent) :
    standing ed25519 grantingOrg (events ++ [x]) =
      (standing ed25519 grantingOrg events).filter
          (fun grant => ¬ Revokes ed25519 grantingOrg x grant) ++
        (if ValidGrant ed25519 grantingOrg x then [x] else []) := by
  induction events with
  | nil =>
    have hiff : Stands ed25519 grantingOrg x [] ↔ ValidGrant ed25519 grantingOrg x :=
      ⟨fun h => h.1, fun h => ⟨h, fun ev hev => (nomatch hev)⟩⟩
    simp only [nil_append, standing, filter_nil, hiff]
  | cons ev later ih =>
    have hiff : Stands ed25519 grantingOrg ev (later ++ [x]) ↔
        Stands ed25519 grantingOrg ev later ∧ ¬ Revokes ed25519 grantingOrg x ev := by
      constructor
      · rintro ⟨hvalid, hnone⟩
        exact ⟨⟨hvalid, fun e he => hnone e (mem_append_left _ he)⟩,
          hnone x (mem_append_right _ (mem_singleton_self x))⟩
      · rintro ⟨⟨hvalid, hnone⟩, hlast⟩
        refine ⟨hvalid, ?_⟩
        intro e he
        rcases mem_append.mp he with hold | hnew
        · exact hnone e hold
        · rwa [mem_singleton.mp hnew]
    rw [cons_append, standing, ih, standing]
    by_cases hstands : Stands ed25519 grantingOrg ev later
    · rw [if_pos hstands]
      by_cases hrevokes : Revokes ed25519 grantingOrg x ev
      · rw [if_neg (fun h => (hiff.mp h).2 hrevokes), filter_cons_of_neg (by simpa using hrevokes)]
      · rw [if_pos (hiff.mpr ⟨hstands, hrevokes⟩), filter_cons_of_pos (by simpa using hrevokes),
          cons_append]
    · rw [if_neg hstands, if_neg (fun h => hstands (hiff.mp h).1)]

/-- Removing the first match removes all of them where there is one at most. -/
theorem eraseP_eq_filter {α : Type} {p : α → Bool} {l : List α}
    (h : l.Pairwise (fun a b => p a = true → p b = false)) :
    l.eraseP p = l.filter (fun a => !p a) := by
  induction l with
  | nil => rfl
  | cons a l ih =>
    obtain ⟨hhead, htail⟩ := pairwise_cons.mp h
    by_cases ha : p a = true
    · rw [eraseP_cons_of_pos ha, filter_cons_of_neg (by simp [ha])]
      refine (filter_eq_self.mpr ?_).symm
      intro b hb
      rw [hhead b hb ha]
      rfl
    · rw [eraseP_cons_of_neg ha, filter_cons_of_pos (by simpa using ha), ih htail]

/-- The capabilities of events with distinct numbers: a revocation names one at most. -/
theorem eraseP_names (hdistinct : (events.map TrustEvent.seq).Nodup) (x : TrustEvent) :
    (events.map TrustEvent.capability).eraseP x.names =
      (events.filter (fun grant => !x.names grant.capability)).map TrustEvent.capability := by
  have honce : (events.map TrustEvent.capability).Pairwise
      (fun a b => x.names a = true → x.names b = false) := by
    refine Pairwise.map _ (R := fun a b => a.seq ≠ b.seq) ?_ (pairwise_map.mp hdistinct)
    intro a b hne ha
    rw [Bool.eq_false_iff]
    intro hb
    exact hne ((names_capability.mp ha).1.symm.trans (names_capability.mp hb).1)
  rw [eraseP_eq_filter honce, filter_map]
  rfl

/-- **What the pass leaves active** are the capabilities of the grants that stand. -/
theorem foldState_active (hdistinct : (events.map TrustEvent.seq).Nodup) :
    (foldState ed25519 grantingOrg events).active =
      (standing ed25519 grantingOrg events).map TrustEvent.capability := by
  induction events using List.reverseRecOn with
  | nil => rfl
  | append_singleton events x ih =>
    have hfront : (events.map TrustEvent.seq).Nodup := by
      rw [map_append] at hdistinct
      exact (nodup_append.mp hdistinct).1
    have hstanding : ((standing ed25519 grantingOrg events).map TrustEvent.seq).Nodup :=
      hfront.sublist ((standing_sublist events).map _)
    rw [foldState_concat, standing_concat]
    rcases @foldEvent_cases ed25519 grantingOrg (foldState ed25519 grantingOrg events) x with
      ⟨hgrant, hact⟩ | ⟨hrevoke, hact⟩ | ⟨hgrant, hrevoke, hact⟩
    · have hkeep : (standing ed25519 grantingOrg events).filter
          (fun grant => ¬ Revokes ed25519 grantingOrg x grant) = standing ed25519 grantingOrg events := by
        refine filter_eq_self.mpr ?_
        intro grant _
        exact decide_eq_true (fun h => not_validGrant_of_validRevoke h.1 hgrant)
      rw [hact, ih hfront, hkeep, if_pos hgrant, map_append, map_singleton]
    · have hsame : (standing ed25519 grantingOrg events).filter
          (fun grant => ¬ Revokes ed25519 grantingOrg x grant) =
          (standing ed25519 grantingOrg events).filter
            (fun grant => !x.names grant.capability) := by
        refine filter_congr ?_
        intro grant _
        have hiff : Revokes ed25519 grantingOrg x grant ↔ x.names grant.capability = true :=
          ⟨fun h => names_capability.mpr h.2, fun h => ⟨hrevoke, names_capability.mp h⟩⟩
        by_cases hnames : x.names grant.capability = true
        · simp [hiff, hnames]
        · simp [hiff, hnames]
      rw [hact, ih hfront, if_neg (not_validGrant_of_validRevoke hrevoke), append_nil, hsame,
        eraseP_names hstanding]
    · have hkeep : (standing ed25519 grantingOrg events).filter
          (fun grant => ¬ Revokes ed25519 grantingOrg x grant) = standing ed25519 grantingOrg events := by
        refine filter_eq_self.mpr ?_
        intro grant _
        exact decide_eq_true (fun h => hrevoke h.1)
      rw [hact, ih hfront, hkeep, if_neg hgrant, append_nil]

/-! ## Events that are not valid -/

/-- What an event does to the count of what was skipped. -/
theorem foldEvent_invalid (s : FoldState) (ev : TrustEvent) :
    (foldEvent ed25519 grantingOrg s ev).invalid =
      s.invalid + if Valid ed25519 grantingOrg ev then 0 else 1 := by
  rw [foldEvent]
  by_cases horg : ev.fromOrg ≠ grantingOrg
  · have hnot : ¬ Valid ed25519 grantingOrg ev := by
      rintro (hgrant | hrevoke)
      · exact horg hgrant.org
      · exact horg hrevoke.org
    rw [if_pos horg, if_neg hnot]
  rw [if_neg horg]
  cases hkind : ev.kind with
  | grant =>
    have hiff : Valid ed25519 grantingOrg ev ↔
        verifyBytes ed25519 ev.grantBytes ev.sig ev.fromOrg = true := by
      constructor
      · rintro (hgrant | hrevoke)
        · exact hgrant.signed
        · cases hkind.symm.trans hrevoke.kind
      · intro hsigned
        exact .inl ⟨not_not.mp horg, hkind, hsigned⟩
    cases hsigned : verifyBytes ed25519 ev.grantBytes ev.sig ev.fromOrg <;> simp [hiff, hsigned]
  | revoke =>
    have hiff : Valid ed25519 grantingOrg ev ↔
        verifyBytes ed25519 ev.revokeBytes ev.sig ev.fromOrg = true := by
      constructor
      · rintro (hgrant | hrevoke)
        · cases hkind.symm.trans hgrant.kind
        · exact hrevoke.signed
      · intro hsigned
        exact .inr ⟨not_not.mp horg, hkind, hsigned⟩
    cases hsigned : verifyBytes ed25519 ev.revokeBytes ev.sig ev.fromOrg <;> simp [hiff, hsigned]

/-- An event that is not valid is skipped. -/
theorem foldEvent_of_not_valid (s : FoldState) {ev : TrustEvent}
    (h : ¬ Valid ed25519 grantingOrg ev) :
    foldEvent ed25519 grantingOrg s ev = ⟨s.active, s.invalid + 1⟩ := by
  have hinvalid := @foldEvent_invalid ed25519 grantingOrg s ev
  rw [if_neg h] at hinvalid
  rcases @foldEvent_cases ed25519 grantingOrg s ev with ⟨hgrant, -⟩ | ⟨hrevoke, -⟩ | ⟨-, -, hact⟩
  · exact absurd (.inl hgrant) h
  · exact absurd (.inr hrevoke) h
  · cases hfold : foldEvent ed25519 grantingOrg s ev with
    | mk active invalid =>
      rw [hfold] at hact hinvalid
      exact congrArg₂ FoldState.mk hact hinvalid

/-- The count at the start is carried along. -/
theorem foldl_foldEvent_count (events : List TrustEvent) (active : List Capability) (n k : Nat) :
    events.foldl (foldEvent ed25519 grantingOrg) ⟨active, n + k⟩ =
      ⟨(events.foldl (foldEvent ed25519 grantingOrg) ⟨active, n⟩).active,
        (events.foldl (foldEvent ed25519 grantingOrg) ⟨active, n⟩).invalid + k⟩ := by
  induction events generalizing active n with
  | nil => rfl
  | cons ev events ih =>
    have hstep : foldEvent ed25519 grantingOrg ⟨active, n + k⟩ ev =
        ⟨(foldEvent ed25519 grantingOrg ⟨active, n⟩ ev).active,
          (foldEvent ed25519 grantingOrg ⟨active, n⟩ ev).invalid + k⟩ := by
      simp only [foldEvent]
      split
      · simp only [add_right_comm]
      split
      · split
        · simp only [add_right_comm]
        · rfl
      · split
        · simp only [add_right_comm]
        · rfl
    rw [foldl_cons, hstep, ih, foldl_cons]

theorem foldState_invalid (events : List TrustEvent) :
    (foldState ed25519 grantingOrg events).invalid =
      events.countP (fun ev => ¬ Valid ed25519 grantingOrg ev) := by
  induction events using List.reverseRecOn with
  | nil => rfl
  | append_singleton events x ih =>
    rw [foldState_concat, foldEvent_invalid, ih, countP_append]
    by_cases hvalid : Valid ed25519 grantingOrg x
    · rw [if_pos hvalid, countP_cons_of_neg (by simpa using hvalid), countP_nil]
    · rw [if_neg hvalid, countP_cons_of_pos (by simpa using hvalid), countP_nil]

/-- **An event that is not valid, put in anywhere, only counts.** -/
theorem foldTrust_invalid (front back : List TrustEvent) {x : TrustEvent}
    (h : ¬ Valid ed25519 grantingOrg x) (atMs : UInt64) :
    foldTrust ed25519 grantingOrg (front ++ x :: back) atMs =
      ⟨(foldTrust ed25519 grantingOrg (front ++ back) atMs).capabilities,
        (foldTrust ed25519 grantingOrg (front ++ back) atMs).invalidEvents + 1⟩ := by
  have hstate : foldState ed25519 grantingOrg (front ++ x :: back) =
      ⟨(foldState ed25519 grantingOrg (front ++ back)).active,
        (foldState ed25519 grantingOrg (front ++ back)).invalid + 1⟩ := by
    simp only [foldState, foldl_append, foldl_cons]
    rw [foldEvent_of_not_valid _ h, foldl_foldEvent_count]
  simp only [foldTrust, hstate]

/-! ## The fold -/

theorem filter_unexpired (grants : List TrustEvent) (atMs : UInt64) :
    (grants.map TrustEvent.capability).filter (fun cap => !cap.expired atMs) =
      (grants.filter (fun grant => Unexpired atMs grant)).map TrustEvent.capability := by
  rw [filter_map]
  refine congrArg (List.map _) (filter_congr ?_)
  intro grant _
  have hiff : Unexpired atMs grant ↔ ¬ (grant.expiresAtMs ≠ 0 ∧ grant.expiresAtMs ≤ atMs) := by
    rw [not_and_or, not_not, UInt64.not_le]
    rfl
  show (!decide (grant.expiresAtMs ≠ 0 ∧ grant.expiresAtMs ≤ atMs)) = decide (Unexpired atMs grant)
  rw [← decide_not]
  exact decide_eq_decide.mpr hiff.symm

/-- **The fold is its rules.**  The capabilities are, in order, those of the valid
grants that no later valid revocation names and that have not expired; what is not
valid is counted, and an event that is not valid changes nothing else wherever it
stands. -/
theorem foldTrust_rules (hdistinct : (events.map TrustEvent.seq).Nodup) (atMs : UInt64) :
    foldTrust ed25519 grantingOrg events atMs =
        ⟨((standing ed25519 grantingOrg events).filter
            (fun grant => Unexpired atMs grant)).map TrustEvent.capability,
          events.countP (fun ev => ¬ Valid ed25519 grantingOrg ev)⟩ ∧
      ∀ front back x, front ++ back = events → ¬ Valid ed25519 grantingOrg x →
        foldTrust ed25519 grantingOrg (front ++ x :: back) atMs =
          ⟨(foldTrust ed25519 grantingOrg events atMs).capabilities,
            (foldTrust ed25519 grantingOrg events atMs).invalidEvents + 1⟩ := by
  constructor
  · rw [← foldState_invalid, ← filter_unexpired, ← foldState_active hdistinct]
    rfl
  · rintro front back x rfl hinvalid
    exact foldTrust_invalid front back hinvalid atMs

/-- A revocation ahead of its grant takes nothing away. -/
theorem foldTrust_early_revoke :
    foldTrust sampleVerify sampleOrg [sampleRevoke, sampleGrant] 1000 =
      ⟨[sampleGrant.capability], 0⟩ := by
  rw [(@foldTrust_rules sampleVerify sampleOrg [sampleRevoke, sampleGrant] (by decide) 1000).1]
  decide +kernel

end TrustLog
end WormDB
