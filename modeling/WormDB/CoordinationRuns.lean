import WormDB.CoordinationFold

/-! # Runs of the claim protocol

`Inv` is what holds in every state of every run: the log is numbered, has no
receipt time from the future and no supersede of a grant that was current and
whose lease was still running, save one that was decided on a scan with a gap
(`SupersededOnGap`); every scan is a part of the log; and what a call
is about to append is what its turn decided on its scan (`PayloadOk`).  The turn
lemmas say once what each call can decide. -/
namespace WormDB
open List ByteCodec
namespace Coordination

/-! ## The state of a task, read off the fold -/

variable {g : Grant}

theorem toState_of_grant {fold : Fold} (h : fold.grant = some g) (nowMs : Nat) :
    (fold.toState nowMs).winner = g.winner ∧ (fold.toState nowMs).grantSeq = g.seq ∧
      (fold.toState nowMs).grantedSeq = g.grantedSeq ∧
      (fold.toState nowMs).leaseExpiresMs = g.leaseExpiresMs ∧
      (fold.toState nowMs).epochStartSeq = fold.epochStart := by
  rw [Fold.toState, h]
  simp only
  split
  · exact ⟨rfl, rfl, rfl, rfl, rfl⟩
  · exact ⟨rfl, rfl, rfl, rfl, rfl⟩

variable {nowMs : Nat}

theorem grant_of_grantSeq {fold : Fold} (h : (fold.toState nowMs).grantSeq ≠ 0) :
    ∃ g, fold.grant = some g := by
  cases hg : fold.grant with
  | none =>
    rw [Fold.toState, hg] at h
    exact absurd rfl h
  | some g => exact ⟨g, rfl⟩

theorem contends_of_candidate {fold : Fold} {cand : Candidate}
    (h : (fold.toState nowMs).candidate = some cand) : fold.Contends cand := by
  rw [Fold.toState] at h
  split at h
  · rename_i g hgrant
    split at h
    · cases h
    · exact .inr ⟨⟨g, hgrant⟩, h⟩
  · rename_i hgrant
    exact .inl ⟨hgrant, h⟩

theorem foldLog_baseState (taskId : Bytes) (log : List LogEntry) :
    (foldLog taskId log).baseState ≠ .claimed := by
  refine LogFold.foldl_induction (motive := fun _ (fold : Fold) => fold.baseState ≠ .claimed)
    (fun heq => by cases heq) ?_ log
  intro log entry ih
  rcases entryStep_effect taskId (foldLog taskId log) entry with
    hsame | ⟨ev, -, ⟨-, -, heq⟩ | ⟨-, -, -, heq⟩ | ⟨-, heq | heq⟩⟩
  · exact hsame ▸ ih
  · rw [show entryStep taskId (log.foldl (entryStep taskId) .init) entry = _ from heq,
      (request_grant _ _).2.2]
    exact ih
  · exact heq ▸ ih
  · exact heq ▸ nofun
  · exact heq ▸ nofun

variable {taskId : Bytes} {log : List LogEntry}

/-- A claimed task has a grant whose lease is running. -/
theorem grant_of_claimed (h : ((foldLog taskId log).toState nowMs).state = .claimed) :
    ∃ g, (foldLog taskId log).grant = some g ∧ nowMs < g.leaseExpiresMs := by
  cases hg : (foldLog taskId log).grant with
  | none =>
    rw [Fold.toState, hg] at h
    exact absurd h (foldLog_baseState taskId log)
  | some g =>
    rw [Fold.toState, hg] at h
    simp only at h
    split at h
    · rename_i hlt
      exact ⟨g, rfl, hlt⟩
    · cases h

/-! ## What each turn decides -/

variable {staleSeq : Nat} {ev : TaskEvent}

theorem mem_of_findGrant {events : List TaskEvent} (h : findGrant events staleSeq = some ev) :
    ev ∈ events ∧ ev.kind = .grant ∧ ev.seq = staleSeq := by
  induction events using List.reverseRecOn with
  | nil => cases h
  | append_singleton events last ih =>
    rw [findGrant, foldl_concat] at h
    split at h
    · rename_i hlast
      cases h
      exact ⟨mem_append_right _ (mem_singleton_self _), hlast⟩
    · obtain ⟨hmem, hrest⟩ := ih h
      exact ⟨mem_append_left _ hmem, hrest⟩

theorem grantTurn_cases (taskId : Bytes) (cand : Candidate) (leaseMs nowMs hlc : Nat) :
    grantTurn taskId cand leaseMs nowMs hlc = .trap ∨
      ∃ expires, grantTurn taskId cand leaseMs nowMs hlc =
        .append (grantPayload taskId cand.by_ cand.hlc cand.seq expires hlc) := by
  simp only [grantTurn]
  generalize (if cand.leaseMs > 0 then cand.leaseMs else leaseMs) = lease
  split
  · exact .inl rfl
  · exact .inr ⟨nowMs + lease, rfl⟩

/-- A grant that may be superseded: its lease is over, or it is not the current
one. -/
def Stale (taskId : Bytes) (staleSeq nowMs : Nat) (seen : List LogEntry) : Prop :=
  ∃ ev ∈ taskEvents taskId seen, ev.kind = .grant ∧ ev.seq = staleSeq ∧
    (ev.leaseExpiresMs ≤ nowMs ∨ ∃ g, (foldLog taskId seen).grant = some g ∧ g.seq ≠ staleSeq)

/-- **What a call appends after a scan.** -/
def PayloadOk (nowMs : Nat) (seen : List LogEntry) (payload : EventJson) : Call → Prop
  | .claim taskId worker _ _ => ∃ cand expires hlc, (foldLog taskId seen).Contends cand ∧
      cand.by_ = worker ∧ payload = grantPayload taskId worker cand.hlc cand.seq expires hlc
  | .release taskId worker outcome hlc => payload = releasePayload taskId worker outcome hlc
  | .supersede taskId staleSeq => Stale taskId staleSeq nowMs seen ∧
      ∃ hlc, payload = supersedePayload taskId staleSeq hlc

variable {call : Call} {seen : List LogEntry} {hlc : Nat} {payload : EventJson}

theorem turn_append (h : call.turn (taskEvents call.taskId seen) nowMs hlc = .append payload) :
    PayloadOk nowMs seen payload call := by
  cases call with
  | claim taskId worker leaseMs reqSeq =>
    simp only [Call.turn, Call.taskId, claimTurn, foldTask_taskEvents] at h
    split at h
    · cases h
    split at h
    · cases h
    rename_i cand hcand
    split at h
    · cases h
    rename_i hby
    have hworker : cand.by_ = worker := not_not.mp hby
    rcases grantTurn_cases taskId cand leaseMs nowMs hlc with htrap | ⟨expires, happend⟩
    · cases htrap.symm.trans h
    · refine ⟨cand, expires, hlc, contends_of_candidate hcand, hworker, ?_⟩
      cases happend.symm.trans h
      rw [hworker]
  | release taskId worker outcome relHlc =>
    simp only [Call.turn, releaseTurn] at h
    split at h
    · cases h
    split at h
    · cases h
    · cases h
      rfl
  | supersede taskId staleSeq =>
    simp only [Call.turn, Call.taskId, supersedeTurn, foldTask_taskEvents] at h
    split at h
    · cases h
    rename_i staleGrant hfind
    obtain ⟨hmem, hkind, hseq⟩ := mem_of_findGrant hfind
    split at h
    · cases h
    rename_i hstale
    cases h
    refine ⟨⟨staleGrant, hmem, hkind, hseq, ?_⟩, hlc, rfl⟩
    by_cases hexpired : staleGrant.leaseExpiresMs ≤ nowMs
    · exact .inl hexpired
    · by_cases hreplaced : ((foldLog taskId seen).toState nowMs).grantSeq ≠ 0 ∧
          ((foldLog taskId seen).toState nowMs).grantSeq ≠ staleSeq
      · obtain ⟨g, hg⟩ := grant_of_grantSeq hreplaced.1
        refine .inr ⟨g, hg, ?_⟩
        rw [← (toState_of_grant hg nowMs).2.1]
        exact hreplaced.2
      · exact absurd ⟨hreplaced, hexpired⟩ hstale

/-- **A claim is granted on a running lease of the worker.** -/
theorem turn_granted {view : ClaimView}
    (h : call.turn (taskEvents call.taskId seen) nowMs hlc = .answer (.claim view))
    (hgranted : view.granted = true) :
    ∃ taskId worker leaseMs reqSeq g, call = .claim taskId worker leaseMs reqSeq ∧
      (foldLog taskId seen).grant = some g ∧ g.winner = worker ∧ g.seq = view.grantSeq ∧
      g.leaseExpiresMs = view.leaseExpiresMs ∧ nowMs < g.leaseExpiresMs := by
  cases call with
  | claim taskId worker leaseMs reqSeq =>
    simp only [Call.turn, Call.taskId, claimTurn, foldTask_taskEvents] at h
    split at h
    · rename_i hstate
      obtain ⟨g, hg, hlt⟩ := grant_of_claimed hstate
      obtain ⟨hwinner, hseq, -, hexpires, -⟩ := toState_of_grant hg nowMs
      cases h
      refine ⟨taskId, worker, leaseMs, reqSeq, g, rfl, hg, ?_, hseq.symm, hexpires.symm, hlt⟩
      rw [← hwinner]
      exact of_decide_eq_true hgranted
    · split at h
      · cases h
        cases hgranted
      · split at h
        · cases h
          cases hgranted
        · rename_i cand _ _
          rcases grantTurn_cases taskId cand leaseMs nowMs hlc with htrap | ⟨expires, happend⟩
          · cases htrap.symm.trans h
          · cases happend.symm.trans h
  | release taskId worker outcome relHlc =>
    simp only [Call.turn, releaseTurn] at h
    split at h
    · cases h
    split at h
    · cases h
    · cases h
  | supersede taskId staleSeq =>
    simp only [Call.turn, supersedeTurn] at h
    split at h
    · cases h
    split at h
    · cases h
    · cases h

/-! ## The log and the calls -/

/-- A supersede of the grant was answered that rests on a scan with a gap: it found a record
and missed an earlier one. -/
def SupersededOnGap (returned : List Returned) (taskId : Bytes) (staleSeq : Nat) : Prop :=
  ∃ r ∈ returned, ∃ seq, r.call = .supersede taskId staleSeq ∧
    r.reply = .superseded seq staleSeq ∧ ¬Numbered r.seen

variable {returned returned' : List Returned}

theorem SupersededOnGap.mono (h : SupersededOnGap returned taskId staleSeq)
    (hsub : returned ⊆ returned') : SupersededOnGap returned' taskId staleSeq := by
  obtain ⟨r, hr, hrest⟩ := h
  exact ⟨r, hsub hr, hrest⟩

/-- What is known of a record and the log before it. -/
structure EntryOk (nowMs : Nat) (returned : List Returned) (before : List LogEntry)
    (entry : LogEntry) : Prop where
  seq : entry.seq = before.length + 1
  time : entry.ingestTimeMs ≤ nowMs
  opens : ∀ taskId ev, entry.taskEvent taskId = some ev → ev.kind ≠ .opened
  supersedes : ∀ taskId ev, entry.taskEvent taskId = some ev → ev.kind = .superseded →
    ∀ g, (foldLog taskId before).grant = some g → g.seq = ev.staleSeq →
      g.leaseExpiresMs ≤ nowMs ∨ SupersededOnGap returned taskId g.seq

def LogOk (nowMs : Nat) (returned : List Returned) (log : List LogEntry) : Prop :=
  ∀ (i : Nat) (entry : LogEntry), log[i]? = some entry → EntryOk nowMs returned (log.take i) entry

def PhaseOk (log : List LogEntry) (nowMs : Nat) : Phase → Prop
  | .scanned _ _ seen => seen.Sublist log
  | .appending call _ seen payload => seen.Sublist log ∧ PayloadOk nowMs seen payload call
  | _ => True

/-- **What holds in every state.** -/
structure Inv (sys : System) : Prop where
  log : LogOk sys.now sys.returned sys.log
  calls : ∀ id, PhaseOk sys.log sys.now (sys.calls id)

variable {later : Nat} {before : List LogEntry}

theorem EntryOk.mono {entry : LogEntry}
    (h : EntryOk nowMs returned before entry) (hle : nowMs ≤ later) (hsub : returned ⊆ returned') :
    EntryOk later returned' before entry where
  seq := h.seq
  time := le_trans h.time hle
  opens := h.opens
  supersedes := by
    intro taskId ev hev hkind g hg hseq
    exact (h.supersedes taskId ev hev hkind g hg hseq).imp (le_trans · hle) (·.mono hsub)

theorem LogOk.mono (h : LogOk nowMs returned log) (hle : nowMs ≤ later)
    (hsub : returned ⊆ returned') : LogOk later returned' log := by
  intro i entry hget
  exact (h i entry hget).mono hle hsub

theorem LogOk.nil (nowMs : Nat) (returned : List Returned) : LogOk nowMs returned [] := by
  intro i entry h
  cases h

theorem LogOk.concat {entry : LogEntry}
    (h : LogOk nowMs returned log) (hentry : EntryOk nowMs returned log entry) :
    LogOk nowMs returned (log ++ [entry]) := by
  intro i e hget
  rcases lt_or_ge i log.length with hlt | hge
  · rw [getElem?_append_left hlt] at hget
    rw [take_append_of_le_length (le_of_lt hlt)]
    exact h i e hget
  · have hlen := (List.getElem?_eq_some_iff.mp hget).1
    rw [length_append, length_singleton] at hlen
    obtain rfl : i = log.length := by omega
    rw [getElem?_concat_length] at hget
    rw [take_left, ← Option.some.inj hget]
    exact hentry

theorem LogOk.numbered (h : LogOk nowMs returned log) : Numbered log := by
  intro i entry hget
  have hlt := (List.getElem?_eq_some_iff.mp hget).1
  rw [(h i entry hget).seq, length_take]
  omega

/-- The record at a place of the log. -/
theorem LogOk.entry {entry : LogEntry}
    (after : List LogEntry) (h : LogOk nowMs returned (before ++ entry :: after)) :
    EntryOk nowMs returned before entry := by
  have hget := h before.length entry (by simp)
  rwa [take_left] at hget

theorem PayloadOk.mono (h : PayloadOk nowMs seen payload call) (hle : nowMs ≤ later) :
    PayloadOk later seen payload call := by
  cases call with
  | claim taskId worker leaseMs reqSeq => exact h
  | release taskId worker outcome hlc => exact h
  | supersede taskId staleSeq =>
    obtain ⟨⟨ev, hmem, hkind, hseq, hstale⟩, hpayload⟩ := h
    exact ⟨⟨ev, hmem, hkind, hseq, hstale.imp_left (fun hexp => le_trans hexp hle)⟩, hpayload⟩

theorem PhaseOk.mono {phase : Phase}
    (h : PhaseOk log nowMs phase) (more : List LogEntry) (hle : nowMs ≤ later) :
    PhaseOk (log ++ more) later phase := by
  cases phase with
  | idle => trivial
  | requesting taskId worker leaseMs hlc attempts => trivial
  | looping call attempts => trivial
  | scanning call attempts start => trivial
  | scanned call attempts seen => exact h.trans (sublist_append_left _ _)
  | appending call attempts seen payload =>
    exact ⟨h.1.trans (sublist_append_left _ _), h.2.mono hle⟩

/-! ## What lands -/

theorem kindOf_requestPayload (taskId worker : Bytes) (hlc leaseMs : Nat) :
    kindOf (requestPayload taskId worker hlc leaseMs).t = some .request := by
  show kindOf (ascii "claim.request") = some .request
  decide

theorem kindOf_grantPayload (taskId winner : Bytes) (winnerHlc grantedSeq expires hlc : Nat) :
    kindOf (grantPayload taskId winner winnerHlc grantedSeq expires hlc).t = some .grant := by
  show kindOf (ascii "claim.grant") = some .grant
  decide

theorem kindOf_releasePayload (taskId worker outcome : Bytes) (hlc : Nat) :
    kindOf (releasePayload taskId worker outcome hlc).t = some .release := by
  show kindOf (ascii "claim.release") = some .release
  decide

theorem kindOf_supersedePayload (taskId : Bytes) (staleSeq hlc : Nat) :
    kindOf (supersedePayload taskId staleSeq hlc).t = some .superseded := by
  show kindOf (ascii "task.superseded") = some .superseded
  decide

variable {readable : EventJson → Bool}

variable {atMs : Nat}

theorem taskEvent_parsed {seq : Nat}
    (h : (LogEntry.mk seq atMs (parsed readable payload)).taskEvent taskId = some ev) :
    payload.task = taskId ∧ kindOf payload.t = some ev.kind ∧ ev.staleSeq = payload.staleSeq ∧
      ev.winner = payload.winner ∧ ev.grantedSeq = payload.grantedSeq := by
  rw [LogEntry.taskEvent, parsed] at h
  split at h
  · cases h
  rename_i json hjson
  simp only at hjson
  split at hjson
  · cases hjson
    split at h
    · cases h
    rename_i htask
    split at h
    · cases h
    rename_i kind hkind
    cases h
    exact ⟨not_not.mp htask, hkind, rfl, rfl, rfl⟩
  · cases hjson

theorem foreign_ok (hat : atMs ≤ nowMs) :
    EntryOk nowMs returned log ⟨log.length + 1, atMs, none⟩ where
  seq := rfl
  time := hat
  opens := by
    intro taskId ev h
    cases h
  supersedes := by
    intro taskId ev h
    cases h

/-- A payload whose event is neither an open nor a supersede. -/
theorem entryOk_of_kind (hat : atMs ≤ nowMs) (hopen : kindOf payload.t ≠ some .opened)
    (hsup : kindOf payload.t ≠ some .superseded) :
    EntryOk nowMs returned log ⟨log.length + 1, atMs, parsed readable payload⟩ where
  seq := rfl
  time := hat
  opens := by
    intro taskId ev h hkind
    exact hopen (hkind ▸ (taskEvent_parsed h).2.1)
  supersedes := by
    intro taskId ev h hkind
    exact absurd (hkind ▸ (taskEvent_parsed h).2.1) hsup

/-- **A supersede without a gap never hits a running lease**: if the grant it names is
current when it lands, it was current when it was found stale. -/
theorem Stale.expired
    (h : Stale taskId staleSeq nowMs seen) (hlog : Numbered log) (hpre : seen <+: log)
    (hg : (foldLog taskId log).grant = some g) (hseq : g.seq = staleSeq) :
    g.leaseExpiresMs ≤ nowMs := by
  obtain ⟨ev, hmem, -, hevseq, hstale⟩ := h
  obtain ⟨ev', hmem', -, rfl⟩ := grant_mem hg
  have heq : ev' = ev :=
    hlog.event_unique hmem' (taskEvents_mono hpre.subset hmem) (hseq.trans hevseq.symm)
  subst heq
  rcases hstale with hexpired | ⟨g', hg', hne⟩
  · exact hexpired
  · have hle : ev'.toGrant.seq ≤ seen.length := ((hlog.front hpre).seq_le hmem).2
    obtain ⟨more, rfl⟩ := hpre
    have hcurrent := grant_of_le hlog hg hle
    rw [hg'] at hcurrent
    exact absurd (congrArg Grant.seq (Option.some.inj hcurrent) ▸ hseq) hne

/-- What a call appends keeps the log in order. -/
theorem entryOk_of_payload (h : PayloadOk nowMs seen payload call) (hnum : Numbered log)
    (hsub : seen.Sublist log) (hat : atMs ≤ nowMs)
    (hgap : ∀ taskId staleSeq, call = .supersede taskId staleSeq → ¬Numbered seen →
      SupersededOnGap returned taskId staleSeq) :
    EntryOk nowMs returned log ⟨log.length + 1, atMs, parsed readable payload⟩ := by
  cases call with
  | claim taskId worker leaseMs reqSeq =>
    obtain ⟨cand, expires, hlc, -, -, rfl⟩ := h
    refine entryOk_of_kind hat ?_ ?_ <;> rw [kindOf_grantPayload] <;> decide
  | release taskId worker outcome hlc =>
    obtain rfl := h
    refine entryOk_of_kind hat ?_ ?_ <;> rw [kindOf_releasePayload] <;> decide
  | supersede taskId staleSeq =>
    obtain ⟨hstale, hlc, rfl⟩ := h
    refine ⟨rfl, hat, ?_, ?_⟩
    · intro taskId' ev hev hkind
      have hsup := (taskEvent_parsed hev).2.1
      rw [hkind, kindOf_supersedePayload] at hsup
      cases hsup
    · intro taskId' ev hev _ g hg hseq
      obtain ⟨htask, -, hstaleSeq, -⟩ := taskEvent_parsed hev
      obtain rfl : taskId = taskId' := htask
      have hnamed : g.seq = staleSeq := hseq.trans hstaleSeq
      by_cases hseen : Numbered seen
      · exact .inl (hstale.expired hnum (hnum.prefix_of_subset hseen hsub.subset) hg hnamed)
      · exact .inr (hnamed ▸ hgap taskId staleSeq rfl hseen)

/-! ## One step -/

variable {sys : System}

theorem System.setCall_self (sys : System) (id : Nat) (phase : Phase) :
    (sys.setCall id phase).calls id = phase := Function.update_self _ _ _

theorem System.setCall_other (sys : System) {id c : Nat} (phase : Phase) (h : c ≠ id) :
    (sys.setCall id phase).calls c = sys.calls c := Function.update_of_ne h _ _

theorem init_inv : Inv .init where
  log := LogOk.nil 0 []
  calls := fun _ => trivial

theorem Inv.setCall (h : Inv sys) (id : Nat) (phase : Phase)
    (hok : PhaseOk sys.log sys.now phase) : Inv (sys.setCall id phase) := by
  refine ⟨h.log, ?_⟩
  intro c
  by_cases heq : c = id
  · subst heq
    rw [System.setCall_self]
    exact hok
  · rw [System.setCall_other _ _ heq]
    exact h.calls c

section
variable (h : Inv sys)
include h

theorem Inv.answer (id : Nat) (call : Call) (reply : Reply) (seen : List LogEntry) :
    Inv (sys.answer id call reply seen) :=
  ⟨h.log.mono (le_refl _) (subset_cons_self _ _), (h.setCall id .idle trivial).calls⟩

theorem Inv.push {json : Option EventJson}
    (hentry : EntryOk sys.now sys.returned sys.log ⟨sys.log.length + 1, atMs, json⟩) :
    Inv (sys.push atMs json) := by
  refine ⟨h.log.concat hentry, ?_⟩
  intro id
  exact (h.calls id).mono _ (le_refl _)

/-- A call whose record lands and that answers with it. -/
theorem Inv.push_answer (id : Nat) {json : Option EventJson} {reply : Reply}
    (hentry : EntryOk sys.now (⟨call, reply, seen, sys.now⟩ :: sys.returned) sys.log
      ⟨sys.log.length + 1, atMs, json⟩) : Inv ((sys.push atMs json).answer id call reply seen) := by
  have hanswer := h.answer id call reply seen
  refine ⟨hanswer.log.concat hentry, fun c => ?_⟩
  exact (hanswer.calls c).mono _ (le_refl _)

theorem Inv.land (id : Nat) (hat : atMs ≤ sys.now) : Inv (land readable sys id atMs) := by
  have hphase := h.calls id
  simp only [Coordination.land]
  split
  · refine Inv.setCall (h.push (entryOk_of_kind hat ?_ ?_)) id _ trivial
      <;> rw [kindOf_requestPayload] <;> decide
  · rename_i call attempts seen payload hcall
    rw [hcall] at hphase
    obtain ⟨hsub, hpayload⟩ := hphase
    have hnum := h.log.numbered
    split
    · refine Inv.setCall (h.push (entryOk_of_payload hpayload hnum hsub hat ?_)) id _ trivial
      intro taskId staleSeq heq
      cases heq
    · refine h.push_answer id (entryOk_of_payload hpayload hnum hsub hat ?_)
      intro taskId staleSeq heq
      cases heq
    · refine h.push_answer id (entryOk_of_payload hpayload hnum hsub hat ?_)
      rintro taskId staleSeq ⟨⟩ hgap
      exact ⟨_, mem_cons_self, _, rfl, rfl, hgap⟩
  · exact h

theorem Inv.collide (id : Nat) : Inv (collide sys id) := by
  rw [Coordination.collide]
  split
  · split
    · exact h.setCall id _ trivial
    · exact h.answer id _ _ _
  · exact h.setCall id _ trivial
  · exact h

theorem Inv.fold (id hlc : Nat) : Inv (step readable sys (.fold id hlc)) := by
  have hphase := h.calls id
  simp only [step]
  split
  · rename_i call attempts seen hcall
    rw [hcall] at hphase
    split
    · exact h.answer id _ _ _
    · rename_i payload hturn
      exact h.setCall id (.appending _ _ _ _) ⟨hphase, turn_append hturn⟩
    · exact h.setCall id _ trivial
  · exact h

/-- **One step keeps the invariant.** -/
theorem Inv.step (act : Act) : Inv (step readable sys act) := by
  cases act with
  | tick ms =>
    refine ⟨h.log.mono (Nat.le_add_right _ _) (List.Subset.refl _), ?_⟩
    intro id
    have hphase := (h.calls id).mono [] (Nat.le_add_right sys.now ms)
    rwa [append_nil] at hphase
  | claim id taskId worker leaseMs hlc =>
    simp only [Coordination.step]
    split
    · split
      · exact h.answer id _ _ _
      · exact h.setCall id _ trivial
    · exact h
  | start id call =>
    simp only [Coordination.step]
    split
    · exact h
    · split
      · exact h.answer id _ _ _
      · exact h.setCall id _ trivial
    · exact h
  | scan id =>
    simp only [Coordination.step]
    split
    · split
      · exact h.setCall id _ trivial
      · exact h.answer id _ _ _
    · exact h
  | scanned id seen =>
    simp only [Coordination.step]
    split
    · split
      · rename_i hscan
        exact h.setCall id (.scanned _ _ _) hscan.2
      · exact h
    · exact h
  | fold id hlc => exact h.fold id hlc
  | land id atMs =>
    simp only [Coordination.step]
    split
    · rename_i hat
      exact h.land id hat
    · exact h
  | collide id => exact h.collide id
  | fail id => exact h.setCall id _ trivial
  | foreign atMs =>
    simp only [Coordination.step]
    split
    · rename_i hat
      exact h.push (foreign_ok hat)
    · exact h

/-- **Every run keeps the invariant.** -/
theorem Inv.run (acts : List Act) : Inv (run readable sys acts) := by
  induction acts generalizing sys with
  | nil => exact h
  | cons act acts ih => exact ih (h.step act)

end

/-! ## The log of a run -/

theorem land_log (readable : EventJson → Bool) (sys : System) (id atMs : Nat) :
    (land readable sys id atMs).log = sys.log ∨
      ∃ json, (land readable sys id atMs).log =
        sys.log ++ [⟨sys.log.length + 1, atMs, json⟩] := by
  simp only [land]
  split
  · exact .inr ⟨_, rfl⟩
  · split
    · exact .inr ⟨_, rfl⟩
    · exact .inr ⟨_, rfl⟩
    · exact .inr ⟨_, rfl⟩
  · exact .inl rfl

/-- **What a step does to the log**: nothing, or one record at its end, which is
what a call appends or no event of a task. -/
theorem step_log (readable : EventJson → Bool) (sys : System) (act : Act) :
    (step readable sys act).log = sys.log ∨
      ∃ atMs json, (step readable sys act).log = sys.log ++ [⟨sys.log.length + 1, atMs, json⟩] ∧
        (json = none ∨ ∃ id, act = .land id atMs ∧ atMs ≤ sys.now) := by
  -- nothing but a landing and a foreign append reaches the log
  cases act with
  | tick ms => exact .inl rfl
  | claim id taskId worker leaseMs hlc =>
    refine .inl ?_
    simp only [step]
    split
    · split <;> rfl
    · rfl
  | start id call =>
    refine .inl ?_
    simp only [step]
    split
    · rfl
    · split <;> rfl
    · rfl
  | scan id =>
    refine .inl ?_
    simp only [step]
    split
    · split <;> rfl
    · rfl
  | scanned id seen =>
    refine .inl ?_
    simp only [step]
    split
    · split <;> rfl
    · rfl
  | fold id hlc =>
    refine .inl ?_
    simp only [step]
    split
    · split <;> rfl
    · rfl
  | collide id =>
    refine .inl ?_
    simp only [step, Coordination.collide]
    split
    · split <;> rfl
    · rfl
    · rfl
  | fail id => exact .inl rfl
  | foreign atMs =>
    simp only [step]
    split
    · exact .inr ⟨atMs, none, rfl, .inl rfl⟩
    · exact .inl rfl
  | land id atMs =>
    simp only [step]
    split
    · rename_i hat
      rcases land_log readable sys id atMs with hsame | ⟨json, hmore⟩
      · exact .inl hsame
      · exact .inr ⟨atMs, json, hmore, .inr ⟨id, rfl, hat⟩⟩
    · exact .inl rfl

theorem step_log_extends (readable : EventJson → Bool) (sys : System) (act : Act) :
    sys.log <+: (step readable sys act).log := by
  rcases step_log readable sys act with hsame | ⟨atMs, json, hmore, -⟩
  · rw [hsame]
  · rw [hmore]
    exact prefix_append _ _

theorem run_concat (readable : EventJson → Bool) (sys : System) (acts : List Act) (act : Act) :
    run readable sys (acts ++ [act]) = step readable (run readable sys acts) act :=
  foldl_concat ..

end Coordination
end WormDB
