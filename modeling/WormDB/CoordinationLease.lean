import WormDB.CoordinationRuns

/-! # Leases exclude each other

Two workers are not told that they hold one task at the same time.  A grant that
is current stops being so only by a release of its winner, after its lease is
over, or by a supersede that was decided on a scan with a gap (`grant_ends`).  Two
answers that rest on scans without a gap rest on two fronts of one log, and between
the shorter and the longer the grant of the shorter has ended.

The answer that rests on the shorter one may be the later answer: a call that has
scanned and not yet answered does not see what its own worker releases in the
meantime (`staleAnswer`).  Nor is there a lock over a scan: one that finds a grant
and misses an earlier one takes the wrong grant for the current one, in the answer of
a claim (`gapAnswer`) or for a supersede (`gapSupersede`). -/
namespace WormDB
open List ByteCodec
namespace Coordination

/-- A claim of the worker was answered with the grant and the end of its lease. -/
def GrantedTo (r : Returned) (taskId worker : Bytes) (grantSeq expires : Nat) : Prop :=
  match r.call, r.reply with
  | .claim taskId' worker' _ _, .claim view => taskId' = taskId ∧ worker' = worker ∧
      view.granted = true ∧ view.grantSeq = grantSeq ∧ view.leaseExpiresMs = expires
  | _, _ => False

instance (r : Returned) (taskId worker : Bytes) (grantSeq expires : Nat) :
    Decidable (GrantedTo r taskId worker grantSeq expires) := by
  unfold GrantedTo
  split <;> infer_instance

/-- The worker's release of the task is among the records. -/
def Releases (taskId worker : Bytes) (entries : List LogEntry) : Prop :=
  ∃ ev ∈ taskEvents taskId entries, ev.kind = .release ∧ ev.by_ = worker

variable {seen : List LogEntry} {returned : List Returned}

/-- **The current grant ends by a release of its winner, when its lease is over, or by
a supersede that rests on a gap.** -/
theorem grant_ends {nowMs : Nat} {taskId : Bytes} {more : List LogEntry} {g : Grant}
    (hlog : LogOk nowMs returned (seen ++ more)) (hg : (foldLog taskId seen).grant = some g)
    (hend : (foldLog taskId (seen ++ more)).grant ≠ some g) :
    g.leaseExpiresMs ≤ nowMs ∨ Releases taskId g.winner more ∨
      SupersededOnGap returned taskId g.seq := by
  rw [← hg] at hend
  obtain ⟨before, entry, after, rfl, hsame, hchange⟩ := LogFold.exists_change Fold.grant hend
  have hcurrent : (foldLog taskId (seen ++ before)).grant = some g := hsame.trans hg
  have hok : EntryOk nowMs returned (seen ++ before) entry := by
    refine LogOk.entry after ?_
    rwa [append_assoc]
  rcases entryStep_cases taskId (foldLog taskId (seen ++ before)) entry with
    ⟨-, hquiet⟩ | ⟨ev, hevent, ⟨-, hexpired, -, -⟩ | ⟨hends, -, -⟩⟩
  · exact absurd (hquiet.trans hsame) hchange
  · -- replaced by a grant that was received after the lease
    refine .inl (le_trans (hexpired g hcurrent) ?_)
    rw [(taskEvent_seq hevent).2]
    exact hok.time
  · rcases hends with hopen | ⟨g', hg', ⟨hkind, hby⟩ | ⟨hkind, hstale⟩⟩
    · exact absurd hopen (hok.opens taskId ev hevent)
    · obtain rfl : g = g' := Option.some.inj (hcurrent.symm.trans hg')
      refine .inr (.inl ⟨ev, mem_taskEvents_iff.mpr ⟨entry, ?_, hevent⟩, hkind, hby⟩)
      exact mem_append_right _ mem_cons_self
    · obtain rfl : g = g' := Option.some.inj (hcurrent.symm.trans hg')
      exact (hok.supersedes taskId ev hevent hkind g hcurrent hstale.symm).imp_right .inr

/-- What keeps two answers apart: of two workers who were told that they hold the
task, the second before the lease of the first was over, the first has released it
by the second's scan, or the second has after its own; or one of the two scans has a
gap, or a supersede that rests on one has ended a grant that was answered. -/
def Excludes (returned : List Returned) (later earlier : Returned) : Prop :=
  ∀ taskId worker worker' grantSeq grantSeq' expires expires',
    GrantedTo earlier taskId worker grantSeq expires →
    GrantedTo later taskId worker' grantSeq' expires' → worker ≠ worker' → later.time < expires →
      Releases taskId worker (later.seen.drop earlier.seen.length) ∨
      Releases taskId worker' (earlier.seen.drop later.seen.length) ∨
      ¬Numbered later.seen ∨ ¬Numbered earlier.seen ∨
      SupersededOnGap returned taskId grantSeq ∨ SupersededOnGap returned taskId grantSeq'

theorem Excludes.mono {returned' : List Returned} {later earlier : Returned}
    (h : Excludes returned later earlier) (hsub : returned ⊆ returned') :
    Excludes returned' later earlier := by
  intro taskId worker worker' grantSeq grantSeq' expires expires' hgrant hgrant' hne hbefore
  rcases h taskId worker worker' grantSeq grantSeq' expires expires' hgrant hgrant' hne hbefore with
    hrel | hrel | hgap | hgap | hsup | hsup
  · exact .inl hrel
  · exact .inr (.inl hrel)
  · exact .inr (.inr (.inl hgap))
  · exact .inr (.inr (.inr (.inl hgap)))
  · exact .inr (.inr (.inr (.inr (.inl (hsup.mono hsub)))))
  · exact .inr (.inr (.inr (.inr (.inr (hsup.mono hsub)))))

/-- A granted answer rests on a running lease that its scan has seen. -/
structure ReturnedOk (sys : System) (r : Returned) : Prop where
  seen : r.seen.Sublist sys.log
  holds : ∀ taskId worker grantSeq expires, GrantedTo r taskId worker grantSeq expires →
    ∃ g, (foldLog taskId r.seen).grant = some g ∧ g.winner = worker ∧ g.seq = grantSeq ∧
      g.leaseExpiresMs = expires ∧ r.time < expires

structure LeaseInv (sys : System) : Prop where
  inv : Inv sys
  returned : ∀ r ∈ sys.returned, ReturnedOk sys r
  apart : sys.returned.Pairwise (Excludes sys.returned)

variable {sys : System} {readable : EventJson → Bool}

/-- **The latest answer and an earlier one.** -/
theorem ReturnedOk.excludes {later earlier : Returned}
    (hlog : LogOk sys.now sys.returned sys.log) (hl : ReturnedOk sys later)
    (he : ReturnedOk sys earlier) (htime : later.time = sys.now) :
    Excludes sys.returned later earlier := by
  intro taskId worker worker' grantSeq grantSeq' expires expires' hgrant hgrant' hne hbefore
  obtain ⟨g, hg, hwinner, rfl, hexpires, -⟩ := he.holds taskId worker grantSeq expires hgrant
  obtain ⟨g', hg', hwinner', rfl, hexpires', hrunning⟩ :=
    hl.holds taskId worker' grantSeq' expires' hgrant'
  have hdiff : g ≠ g' := by
    rintro rfl
    exact hne (hwinner.symm.trans hwinner')
  rw [htime] at hbefore hrunning
  by_cases hnumLater : Numbered later.seen
  case neg => exact .inr (.inr (.inl hnumLater))
  by_cases hnumEarlier : Numbered earlier.seen
  case neg => exact .inr (.inr (.inr (.inl hnumEarlier)))
  have hpreLater := hlog.numbered.prefix_of_subset hnumLater hl.seen.subset
  have hpreEarlier := hlog.numbered.prefix_of_subset hnumEarlier he.seen.subset
  have hprefix : ∀ seen, seen <+: sys.log → LogOk sys.now sys.returned seen := by
    rintro seen ⟨rest, heq⟩ i entry hget
    have hlt := (List.getElem?_eq_some_iff.mp hget).1
    have hok := hlog i entry (by rw [← heq, getElem?_append_left hlt, hget])
    rwa [← heq, take_append_of_le_length (le_of_lt hlt)] at hok
  rcases prefix_or_prefix_of_prefix hpreEarlier hpreLater with hshort | hshort
  · -- the later answer rests on the longer scan: the first lease has ended by it
    obtain ⟨more, hmore⟩ := hshort
    rw [← hmore, drop_left]
    have hnow : (foldLog taskId (earlier.seen ++ more)).grant ≠ some g := by
      rw [hmore, hg']
      exact fun heq => hdiff (Option.some.inj heq).symm
    rcases grant_ends (hmore ▸ hprefix _ hpreLater) hg hnow with hover | hrelease | hsup
    · omega
    · exact .inl (hwinner ▸ hrelease)
    · exact .inr (.inr (.inr (.inr (.inl hsup))))
  · -- it rests on the shorter one: its own lease has ended in the meantime
    obtain ⟨more, hmore⟩ := hshort
    rw [← hmore, drop_left]
    have hnow : (foldLog taskId (later.seen ++ more)).grant ≠ some g' := by
      rw [hmore, hg]
      exact fun heq => hdiff (Option.some.inj heq)
    rcases grant_ends (hmore ▸ hprefix _ hpreEarlier) hg' hnow with hover | hrelease | hsup
    · omega
    · exact .inr (.inl (hwinner' ▸ hrelease))
    · exact .inr (.inr (.inr (.inr (.inr hsup))))

/-! ## Runs -/

variable {sys' : System}

/-- A step that answers nothing and only adds to the log. -/
theorem LeaseInv.quiet (h : LeaseInv sys) (hinv : Inv sys')
    (hret : sys'.returned = sys.returned) (hlog : sys.log <+: sys'.log) : LeaseInv sys' := by
  refine ⟨hinv, ?_, hret ▸ h.apart⟩
  intro r hr
  rw [hret] at hr
  exact ⟨(h.returned r hr).seen.trans hlog.sublist, (h.returned r hr).holds⟩

/-- A step that gives an answer. -/
theorem LeaseInv.answered {r : Returned} (h : LeaseInv sys) (hinv : Inv sys')
    (hret : sys'.returned = r :: sys.returned) (hlog : sys.log <+: sys'.log)
    (hok : ReturnedOk sys' r) (htime : r.time = sys'.now) : LeaseInv sys' := by
  have hold : ∀ r' ∈ sys.returned, ReturnedOk sys' r' := by
    intro r' hr'
    exact ⟨(h.returned r' hr').seen.trans hlog.sublist, (h.returned r' hr').holds⟩
  refine ⟨hinv, ?_, ?_⟩
  · intro r' hr'
    rw [hret] at hr'
    rcases mem_cons.mp hr' with rfl | hr'
    · exact hok
    · exact hold r' hr'
  · have hmore : sys.returned ⊆ sys'.returned := hret ▸ subset_cons_self _ _
    have hlast : ∀ r' ∈ sys.returned, Excludes sys'.returned r r' :=
      fun r' hr' => hok.excludes hinv.log (hold r' hr') htime
    have hapart := pairwise_cons.mpr ⟨hlast, h.apart.imp (·.mono hmore)⟩
    rwa [← hret] at hapart

/-- An answer that is no claim's view grants nothing. -/
theorem ReturnedOk.of_reply {call : Call} {reply : Reply} {time : Nat}
    (hseen : seen.Sublist sys.log) (hreply : ∀ view, reply ≠ .claim view) :
    ReturnedOk sys ⟨call, reply, seen, time⟩ := by
  refine ⟨hseen, ?_⟩
  intro taskId worker grantSeq expires hgrant
  rw [GrantedTo] at hgrant
  split at hgrant
  · rename_i view _ hview
    exact absurd hview (hreply view)
  · exact hgrant.elim

theorem LeaseInv.error (h : LeaseInv sys) (id : Nat) (call : Call) (message : String) :
    LeaseInv (sys.answer id call (.err message) []) := by
  refine h.answered (h.inv.answer id call _ _) rfl (prefix_refl _)
    (ReturnedOk.of_reply (nil_sublist _) ?_) rfl
  intro view heq
  cases heq

theorem LeaseInv.setCall (h : LeaseInv sys) (id : Nat) (phase : Phase)
    (hok : PhaseOk sys.log sys.now phase) : LeaseInv (sys.setCall id phase) :=
  h.quiet (h.inv.setCall id phase hok) rfl (prefix_refl _)

theorem LeaseInv.fold (h : LeaseInv sys) (id hlc : Nat) :
    LeaseInv (step readable sys (.fold id hlc)) := by
  have hphase := h.inv.calls id
  simp only [step]
  split
  · rename_i call attempts seen hcall
    rw [hcall] at hphase
    split
    · rename_i reply hturn
      refine h.answered (h.inv.answer id call reply seen) rfl (prefix_refl _) ⟨hphase, ?_⟩ rfl
      intro taskId worker grantSeq expires hgrant
      rw [GrantedTo] at hgrant
      split at hgrant
      · rename_i taskId' worker' leaseMs reqSeq view hcl hview
        obtain ⟨rfl, rfl, hgranted, rfl, rfl⟩ := hgrant
        obtain rfl : reply = .claim view := hview
        obtain ⟨_, _, _, _, g, heq, hg, hwinner, hseq, hexpires, hlt⟩ := turn_granted hturn hgranted
        cases (show call = _ from hcl).symm.trans heq
        exact ⟨g, hg, hwinner, hseq, hexpires, hexpires ▸ hlt⟩
      · exact hgrant.elim
    · rename_i payload hturn
      exact h.setCall id (.appending _ _ _ _) ⟨hphase, turn_append hturn⟩
    · exact h.setCall id _ trivial
  · exact h

theorem LeaseInv.land (h : LeaseInv sys) (id : Nat) {atMs : Nat} (hat : atMs ≤ sys.now) :
    LeaseInv (land readable sys id atMs) := by
  have hinv : Inv (Coordination.land readable sys id atMs) := h.inv.land id hat
  have hphase := h.inv.calls id
  simp only [Coordination.land] at hinv ⊢
  split
  · rename_i hcall
    simp only [hcall] at hinv
    exact h.quiet hinv rfl (prefix_append _ _)
  · rename_i call attempts seen payload hcall
    rw [hcall] at hphase
    simp only [hcall] at hinv
    have hseen := hphase.1.trans (sublist_append_left sys.log
      [⟨sys.log.length + 1, atMs, parsed readable payload⟩])
    cases call with
    | claim taskId worker leaseMs reqSeq => exact h.quiet hinv rfl (prefix_append _ _)
    | release taskId worker outcome hlc =>
      refine h.answered hinv rfl (prefix_append _ _) (ReturnedOk.of_reply hseen ?_) rfl
      intro view heq
      cases heq
    | supersede taskId staleSeq =>
      refine h.answered hinv rfl (prefix_append _ _) (ReturnedOk.of_reply hseen ?_) rfl
      intro view heq
      cases heq
  · exact h

/-- **One step keeps answers apart.** -/
theorem LeaseInv.step (h : LeaseInv sys) (act : Act) : LeaseInv (step readable sys act) := by
  cases act with
  | tick ms => exact h.quiet (h.inv.step (.tick ms)) rfl (prefix_refl _)
  | claim id taskId worker leaseMs hlc =>
    simp only [Coordination.step]
    split
    · split
      · exact h.error id _ _
      · exact h.setCall id _ trivial
    · exact h
  | start id call =>
    simp only [Coordination.step]
    split
    · exact h
    · split
      · exact h.error id _ _
      · exact h.setCall id _ trivial
    · exact h
  | scan id =>
    simp only [Coordination.step]
    split
    · split
      · exact h.setCall id _ trivial
      · exact h.error id _ _
    · exact h
  | scanned id seen =>
    simp only [Coordination.step]
    split
    · split
      · rename_i hscan
        exact h.setCall id (.scanned _ _ _) hscan.2
      · exact h
    · exact h
  | fold id hlc => exact h.fold id hlc
  | land id atMs =>
    simp only [Coordination.step]
    split
    · rename_i hat
      exact h.land id hat
    · exact h
  | collide id =>
    simp only [Coordination.step, collide]
    split
    · split
      · exact h.setCall id _ trivial
      · exact h.error id _ _
    · exact h.setCall id _ trivial
    · exact h
  | fail id => exact h.setCall id _ trivial
  | foreign atMs =>
    have hinv : Inv (Coordination.step readable sys (.foreign atMs)) := h.inv.step _
    simp only [Coordination.step] at hinv ⊢
    split
    · rename_i hat
      rw [if_pos hat] at hinv
      exact h.quiet hinv rfl (prefix_append _ _)
    · exact h

theorem LeaseInv.run (h : LeaseInv sys) (acts : List Act) : LeaseInv (run readable sys acts) := by
  induction acts generalizing sys with
  | nil => exact h
  | cons act acts ih => exact ih (h.step act)

theorem init_leaseInv : LeaseInv .init where
  inv := init_inv
  returned := by
    intro r hr
    cases hr
  apart := Pairwise.nil

/-- **Leases exclude each other**, in every run of any number of claims, releases
and supersedes: of two answers that grant one task to two workers, the second
before the lease of the first is over, either the first worker has released the
task by the scan of the second answer, or the second worker has released it
itself after that scan, or a scan with a gap is behind it. -/
theorem lease_exclusive (readable : EventJson → Bool) (acts : List Act) :
    (run readable .init acts).returned.Pairwise
      (Excludes (run readable .init acts).returned) :=
  (init_leaseInv.run acts).apart

/-- **A grant lasts:** whoever acts next, it is the task's until its winner releases the task,
its lease is over, or a supersede of it lands that rests on a scan with a gap. -/
theorem grant_lasts (readable : EventJson → Bool) (acts more : List Act) (taskId : Bytes) :
    let sys := run readable .init acts
    let sys' := run readable sys more
    match (foldLog taskId sys.log).grant with
    | none => True
    | some g => (foldLog taskId sys'.log).grant = some g ∨ g.leaseExpiresMs ≤ sys'.now ∨
        Releases taskId g.winner (sys'.log.drop sys.log.length) ∨
        SupersededOnGap sys'.returned taskId g.seq := by
  intro sys sys'
  split
  · trivial
  rename_i g hg
  obtain ⟨entries, hlog⟩ : sys.log <+: sys'.log :=
    List.foldlRecOn more _ (motive := fun s : System => sys.log <+: s.log) (prefix_refl _)
      fun s h act _ => h.trans (step_log_extends readable s act)
  have hok : LogOk sys'.now sys'.returned (sys.log ++ entries) :=
    hlog ▸ ((init_inv.run acts).run more).log
  rw [← hlog, drop_left]
  exact or_iff_not_imp_left.mpr (grant_ends hok hg)

/-! ## The ways out -/

/-- Exclusion with no other way out than a release by the first worker. -/
def StrictlyExclusive (sys : System) : Prop :=
  sys.returned.Pairwise (fun later earlier => ∀ taskId worker worker' grantSeq grantSeq' expires
      expires', GrantedTo earlier taskId worker grantSeq expires →
    GrantedTo later taskId worker' grantSeq' expires' → worker ≠ worker' → later.time < expires →
      Releases taskId worker sys.log)

/-- The last answer grants the task to another worker than an earlier one, who has released
nothing. -/
theorem not_strictlyExclusive {sys : System} (taskId worker worker' : Bytes)
    (grantSeq grantSeq' expires expires' : Nat)
    (hlater : ∃ r ∈ sys.returned.head?, GrantedTo r taskId worker' grantSeq' expires' ∧
      r.time < expires)
    (hearlier : ∃ r ∈ sys.returned.tail, GrantedTo r taskId worker grantSeq expires)
    (hne : worker ≠ worker')
    (hnone : ∀ ev ∈ taskEvents taskId sys.log, ¬(ev.kind = .release ∧ ev.by_ = worker)) :
    ¬StrictlyExclusive sys := by
  intro h
  obtain ⟨later, hhead, hlater, htime⟩ := hlater
  obtain ⟨earlier, hmem, hearlier⟩ := hearlier
  rw [StrictlyExclusive, ← cons_head?_tail hhead] at h
  obtain ⟨ev, hev, hreleases⟩ :=
    (pairwise_cons.mp h).1 earlier hmem _ _ _ _ _ _ _ hearlier hlater hne htime
  exact hnone ev hev hreleases

/-- A worker `[2]` claims task `[9]`, scans its own grant and is slow to fold it.
Meanwhile it releases the task by another call, and worker `[1]` claims it. -/
def staleAnswer : List Act :=
  let log : List LogEntry := [⟨1, 0, requestPayload [9] [2] 1 1000⟩,
    ⟨2, 0, grantPayload [9] [2] 1 1 1000 2⟩, ⟨3, 0, releasePayload [9] [2] (ascii "applied") 3⟩,
    ⟨4, 0, requestPayload [9] [1] 4 1000⟩, ⟨5, 0, grantPayload [9] [1] 4 4 1000 5⟩]
  [.claim 0 [9] [2] 1000 1, .land 0 0, .scan 0, .scanned 0 (log.take 1), .fold 0 2, .land 0 0,
    .scan 0, .scanned 0 (log.take 2), .start 1 (.release [9] [2] (ascii "applied") 3), .scan 1,
    .scanned 1 (log.take 2), .fold 1 0, .land 1 0, .claim 2 [9] [1] 1000 4, .land 2 0, .scan 2,
    .scanned 2 (log.take 4), .fold 2 5, .land 2 0, .scan 2, .scanned 2 log, .fold 2 6, .fold 0 7]

/-- Worker `[1]` claims task `[9]` twice.  The scan of its second call begins before the grant of
worker `[2]` lands and ends after its own first one has, and finds only that. -/
def gapAnswer : List Act :=
  let log : List LogEntry := [⟨1, 0, requestPayload [9] [2] 2 1000⟩,
    ⟨2, 0, requestPayload [9] [1] 1 1000⟩, ⟨3, 0, requestPayload [9] [1] 3 1000⟩,
    ⟨4, 0, grantPayload [9] [2] 2 1 1000 5⟩, ⟨5, 0, grantPayload [9] [1] 1 2 1000 4⟩]
  [.claim 0 [9] [2] 1000 2, .land 0 0, .scan 0, .scanned 0 (log.take 1), .claim 1 [9] [1] 1000 1,
    .land 1 0, .scan 1, .scanned 1 (log.take 2), .fold 1 4, .claim 2 [9] [1] 1000 3, .land 2 0,
    .scan 2, .fold 0 5, .land 0 0, .scan 0, .scanned 0 (log.take 4), .fold 0 6, .land 1 0,
    .scanned 2 (log.take 3 ++ log.drop 4), .fold 2 7]

/-- The scan of a supersede misses that worker `[3]` has released task `[9]` and finds the grant of
worker `[2]`, which it takes for an old one. -/
def gapSupersede : List Act :=
  let log : List LogEntry := [⟨1, 0, requestPayload [9] [3] 1 1000⟩,
    ⟨2, 0, grantPayload [9] [3] 1 1 1000 2⟩, ⟨3, 0, releasePayload [9] [3] (ascii "applied") 3⟩,
    ⟨4, 0, requestPayload [9] [2] 4 1000⟩, ⟨5, 0, grantPayload [9] [2] 4 4 1000 5⟩,
    ⟨6, 0, supersedePayload [9] 5 6⟩, ⟨7, 0, requestPayload [9] [1] 7 1000⟩,
    ⟨8, 0, grantPayload [9] [1] 7 7 1000 8⟩]
  [.claim 0 [9] [3] 1000 1, .land 0 0, .scan 0, .scanned 0 (log.take 1), .fold 0 2, .land 0 0,
    .start 1 (.supersede [9] 5), .scan 1, .start 2 (.release [9] [3] (ascii "applied") 3), .scan 2,
    .scanned 2 (log.take 2), .fold 2 0, .land 2 0, .claim 3 [9] [2] 1000 4, .land 3 0, .scan 3,
    .scanned 3 (log.take 4), .fold 3 5, .land 3 0, .scan 3, .scanned 3 (log.take 5), .fold 3 6,
    .scanned 1 (log.take 2 ++ (log.take 5).drop 3), .fold 1 6, .land 1 0, .claim 4 [9] [1] 1000 7,
    .land 4 0, .scan 4, .scanned 4 (log.take 7), .fold 4 8, .land 4 0, .scan 4, .scanned 4 log,
    .fold 4 9]

/-- In none of the three does the worker who was told first release the task. -/
theorem lease_not_strict :
    ¬StrictlyExclusive (run (fun _ => true) .init staleAnswer) ∧
    ¬StrictlyExclusive (run (fun _ => true) .init gapAnswer) ∧
    ¬StrictlyExclusive (run (fun _ => true) .init gapSupersede) := by
  refine ⟨?_, ?_, ?_⟩
  · exact not_strictlyExclusive [9] [1] [2] 5 2 1000 1000 (by decide) (by decide) (by decide)
      (by decide)
  · exact not_strictlyExclusive [9] [2] [1] 4 5 1000 1000 (by decide) (by decide) (by decide)
      (by decide)
  · exact not_strictlyExclusive [9] [2] [1] 5 8 1000 1000 (by decide) (by decide) (by decide)
      (by decide)

end Coordination
end WormDB
