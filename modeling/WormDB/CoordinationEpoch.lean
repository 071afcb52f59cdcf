import WormDB.CoordinationRuns

/-! # The epoch of a grant

A claimer decides on what its scan has found and its grant lands on a longer log.
The grant names a request of the epoch it was decided in; it is authoritative in
the epoch it lands in.  It keeps the rule where no epoch has begun behind the request
(`entryNamed_grant_iff`), so where the epoch it lands in is not a later one than the one
it was decided in (`epoch_rule`), and nothing checks it: a grant that was
decided before a release can land after it and bring the released lease back
(`lateGrant`).  A grant of a later epoch keeps the rule only if its scan had a gap.

There are two readings of where an epoch starts.  The fold's own is the last open,
release or supersede that took effect.  For the comment at the head of the source
the end of a lease starts one too: only requests after the expired grant compete
for the next.  The results are for both. -/
namespace WormDB
open ByteCodec
namespace Coordination

/-- Where the contention for the next grant starts: after the expired grant, if
there is one. -/
def TaskState.reopenedSeq (st : TaskState) : Nat :=
  if st.grantSeq = 0 then st.epochStartSeq else st.grantSeq

/-- **The epoch rule**: a record that `foldTask` makes the authoritative grant names
a request of its winner, made after the start of the epoch that the record ends
and before the record. -/
def EpochRule (start : TaskState → Nat) (taskId : Bytes) (log : List LogEntry) : Prop :=
  ∀ before entry after nowMs, log = before ++ entry :: after →
    (foldTask (taskEvents taskId (before ++ [entry])) nowMs).grantSeq = entry.seq →
    ∃ r ∈ taskEvents taskId before, r.kind = .request ∧
      r.by_ = (foldTask (taskEvents taskId (before ++ [entry])) nowMs).winner ∧
      r.seq = (foldTask (taskEvents taskId (before ++ [entry])) nowMs).grantedSeq ∧
      start (foldTask (taskEvents taskId before) nowMs) < r.seq ∧ r.seq < entry.seq

/-- **The condition**: a grant that lands on a task without a running lease lands in
no later epoch than the one it was decided in. -/
def Timely (start : TaskState → Nat) (readable : EventJson → Bool) (sys : System) : Act → Prop
  | .land id atMs =>
      match sys.calls id with
      | .appending (.claim taskId _ _ _) _ seen payload =>
          atMs ≤ sys.now → readable payload = true →
          ((foldTask (taskEvents taskId sys.log) sys.now).grantSeq = 0 ∨
            (foldTask (taskEvents taskId sys.log) sys.now).leaseExpiresMs ≤ atMs) →
          start (foldTask (taskEvents taskId sys.log) sys.now) ≤
            start (foldTask (taskEvents taskId seen) sys.now)
      | _ => True
  | _ => True

/-- The grant that lands was decided on a scan with a gap. -/
def FromGap (sys : System) : Act → Prop
  | .land id _ =>
      match sys.calls id with
      | .appending (.claim ..) _ seen _ => ¬Numbered seen
      | _ => False
  | _ => False

/-! ## Readings of an epoch's start -/

def Fold.reopened (fold : Fold) : Nat :=
  match fold.grant with
  | none => fold.epochStart
  | some g => g.seq

/-- What a reading must give: the clock does not matter, the request that would win
is in the epoch, and an epoch that is not the one of a prefix started after it. -/
structure Reading (start : TaskState → Nat) (mark : Fold → Nat) : Prop where
  reads : ∀ (taskId : Bytes) (log : List LogEntry) (nowMs : Nat), Ascending log →
    start ((foldLog taskId log).toState nowMs) = mark (foldLog taskId log)
  names : ∀ (taskId : Bytes) (log : List LogEntry) (cand : Candidate), Ascending log →
    (foldLog taskId log).Contends cand → mark (foldLog taskId log) < cand.seq
  moves : ∀ (taskId : Bytes) (seen more : List LogEntry), Numbered (seen ++ more) →
    mark (foldLog taskId (seen ++ more)) = mark (foldLog taskId seen) ∨
      seen.length < mark (foldLog taskId (seen ++ more))

theorem reopened_congr {fold fold' : Fold} (hepoch : fold'.epochStart = fold.epochStart)
    (hgrant : fold'.grant = fold.grant) : fold'.reopened = fold.reopened := by
  rw [Fold.reopened, Fold.reopened, hgrant, hepoch]

theorem reopened_cases (taskId : Bytes) {seen more : List LogEntry}
    (h : Numbered (seen ++ more)) :
    (foldLog taskId (seen ++ more)).reopened = (foldLog taskId seen).reopened ∨
      seen.length < (foldLog taskId (seen ++ more)).reopened := by
  refine LogFold.foldl_induction_from seen
    (motive := fun more (fold : Fold) => Numbered (seen ++ more) →
      fold.reopened = (foldLog taskId seen).reopened ∨ seen.length < fold.reopened)
    (fun _ => .inl rfl) ?_ more h
  intro more entry ih hnum
  rcases entryStep_cases taskId (foldLog taskId (seen ++ more)) entry with
    ⟨hepoch, hgrant⟩ | ⟨ev, hevent, ⟨-, -, -, hgrant⟩ | ⟨-, hepoch, hgrant⟩⟩
  · have hsame := reopened_congr hepoch hgrant
    exact (ih hnum.init).imp hsame.trans (fun hlt => hsame ▸ hlt)
  · -- a new grant: the contention starts after it
    refine .inr ?_
    rw [Fold.reopened, show (entryStep taskId ((seen ++ more).foldl (entryStep taskId) .init)
      entry).grant = _ from hgrant]
    exact hnum.event_last hevent
  · refine .inr ?_
    rw [Fold.reopened, show (entryStep taskId ((seen ++ more).foldl (entryStep taskId) .init)
      entry).grant = _ from hgrant]
    exact hepoch ▸ hnum.event_last hevent

theorem epochStart_reading : Reading TaskState.epochStartSeq Fold.epochStart where
  reads := by
    intro taskId log nowMs _
    cases hg : (foldLog taskId log).grant with
    | none => rw [Fold.toState, hg]
    | some g => exact (toState_of_grant hg nowMs).2.2.2.2
  names := by
    intro taskId log cand hasc hcand
    exact (contends_mem hasc hcand).1
  moves := by
    intro taskId seen more hnum
    exact epochStart_cases taskId hnum

theorem reopened_reading : Reading TaskState.reopenedSeq Fold.reopened where
  reads := by
    intro taskId log nowMs hasc
    cases hg : (foldLog taskId log).grant with
    | none =>
      rw [Fold.reopened, hg, TaskState.reopenedSeq, Fold.toState, hg]
      exact if_pos rfl
    | some g =>
      obtain ⟨entry, hentry, hseq⟩ := grant_entry hg
      have hpos : 0 < g.seq := hseq ▸ hasc.pos entry hentry
      rw [Fold.reopened, hg, TaskState.reopenedSeq, (toState_of_grant hg nowMs).2.1]
      exact if_neg (Nat.pos_iff_ne_zero.mp hpos)
  names := by
    intro taskId log cand hasc hcand
    obtain ⟨hstart, -, hafter⟩ := contends_mem hasc hcand
    rw [Fold.reopened]
    split
    · exact hstart
    · rename_i g hg
      exact hafter g hg
  moves := by
    intro taskId seen more hnum
    exact reopened_cases taskId hnum

/-! ## The rule on the fold -/

variable {start : TaskState → Nat} {mark : Fold → Nat} {taskId : Bytes}
variable {log seen before : List LogEntry} {entry : LogEntry}

/-- A record that becomes the current grant names a request of its epoch. -/
def EntryNamed (mark : Fold → Nat) (taskId : Bytes) (before : List LogEntry) (entry : LogEntry) :
    Prop :=
  ∀ g, (foldLog taskId (before ++ [entry])).grant = some g → g.seq = entry.seq →
    ∃ r ∈ taskEvents taskId before, r.kind = .request ∧ r.by_ = g.winner ∧
      r.seq = g.grantedSeq ∧ mark (foldLog taskId before) < r.seq ∧ r.seq < entry.seq

def EpochOk (mark : Fold → Nat) (taskId : Bytes) (log : List LogEntry) : Prop :=
  ∀ before entry after, log = before ++ entry :: after → EntryNamed mark taskId before entry

theorem epochRule_iff (R : Reading start mark) (h : Numbered log) :
    EpochRule start taskId log ↔ EpochOk mark taskId log := by
  have hparts : ∀ {before entry after}, log = before ++ entry :: after →
      Numbered before ∧ entry.seq = before.length + 1 := by
    rintro before entry after rfl
    exact ⟨h.front (List.prefix_append _ _), h before.length entry (by simp)⟩
  simp only [EpochRule, foldTask_taskEvents]
  constructor
  · intro hrule before entry after heq g hg hseq
    obtain ⟨hwinner, hgseq, hgranted, -, -⟩ := toState_of_grant hg 0
    have hnamed := hrule before entry after 0 heq (hgseq.trans hseq)
    rwa [hwinner, hgranted, R.reads _ _ _ (hparts heq).1.ascending] at hnamed
  · intro hok before entry after nowMs heq hseq
    have hpos : ((foldLog taskId (before ++ [entry])).toState nowMs).grantSeq ≠ 0 := by
      rw [hseq, (hparts heq).2]
      exact Nat.succ_ne_zero _
    obtain ⟨g, hg⟩ := grant_of_grantSeq hpos
    obtain ⟨hwinner, hgseq, hgranted, -, -⟩ := toState_of_grant hg nowMs
    rw [hwinner, hgranted, R.reads _ _ _ (hparts heq).1.ascending]
    exact hok before entry after heq g hg (hgseq.symm.trans hseq)

theorem epochOk_concat (h : EpochOk mark taskId log) :
    EpochOk mark taskId (log ++ [entry]) ↔ EntryNamed mark taskId log entry := by
  constructor
  · intro hok
    exact hok log entry [] rfl
  · intro hlast before e after heq
    rcases LogFold.concat_eq_append_cons heq with ⟨rfl, rfl⟩ | ⟨rest, hlog⟩
    · exact hlast
    · exact h before e rest hlog

/-! ## A grant that lands -/

/-- A record that is no grant of the task does not become its current grant. -/
theorem entryNamed_of_kind (hnum : Numbered (log ++ [entry]))
    (h : ∀ ev, entry.taskEvent taskId = some ev → ev.kind ≠ .grant) :
    EntryNamed mark taskId log entry := by
  intro g hg hseq
  rw [foldLog_concat] at hg
  rcases entryStep_cases taskId (foldLog taskId log) entry with
    ⟨-, hsame⟩ | ⟨ev, hevent, ⟨hkind, -⟩ | ⟨-, -, hnone⟩⟩
  · have hold := ((hnum.front (List.prefix_append _ _)).grant_lt (hsame.symm.trans hg)).2
    rw [hseq, hnum.last] at hold
    omega
  · exact absurd hkind (h ev hevent)
  · cases hnone.symm.trans hg

/-- **A grant lands**: it names a request of the epoch it lands in exactly when no epoch has
begun behind the request, or when it is ignored. -/
theorem entryNamed_grant_iff (hnum : Numbered (log ++ [entry])) {r : TaskEvent}
    (hmem : r ∈ taskEvents taskId log) (hreq : r.kind = .request)
    {ev : TaskEvent} (hevent : entry.taskEvent taskId = some ev) (hkind : ev.kind = .grant)
    (hwinner : ev.winner = r.by_) (hgranted : ev.grantedSeq = r.seq) :
    EntryNamed mark taskId log entry ↔ (OpenFor (foldLog taskId log) ev.atMs →
      mark (foldLog taskId log) < r.seq) := by
  have hlog : Numbered log := hnum.front (List.prefix_append _ _)
  have hseq : ev.seq = log.length + 1 := (taskEvent_seq hevent).1.trans hnum.last
  have hstep : foldLog taskId (log ++ [entry]) = foldEvent (foldLog taskId log) ev := by
    rw [foldLog_concat, entryStep, hevent]
  constructor
  · intro hnamed hopen
    have htaken : (foldLog taskId (log ++ [entry])).grant = some ev.toGrant := by
      rw [hstep]
      exact foldEvent_open hkind (by rw [hseq]; exact Nat.lt_succ_of_le (epochStart_le hlog)) hopen
    obtain ⟨r', -, -, -, hr', hin, -⟩ := hnamed ev.toGrant htaken (taskEvent_seq hevent).1
    rwa [hr'.trans hgranted] at hin
  · intro hafter g hg hgseq
    rw [foldLog_concat] at hg
    rcases entryStep_cases taskId (foldLog taskId log) entry with
      ⟨-, hquiet⟩ | ⟨ev', hevent', ⟨-, hopen, -, htaken⟩ | ⟨-, -, hnone⟩⟩
    · have hold := (hlog.grant_lt (hquiet.symm.trans hg)).2
      rw [hgseq, hnum.last] at hold
      omega
    · cases hevent.symm.trans hevent'
      cases htaken.symm.trans hg
      refine ⟨r, hmem, hreq, hwinner.symm, hgranted.symm, hafter hopen, ?_⟩
      rw [hnum.last]
      exact Nat.lt_succ_of_le (hlog.seq_le hmem).2
    · cases hnone.symm.trans hg

/-- Where the scan has no gap, an epoch that begins behind a request it has found is a later one
than the scan's. -/
theorem Reading.le_of_lt (R : Reading start mark) (hnum : Numbered log) (hpre : seen <+: log)
    {r : TaskEvent} (hmem : r ∈ taskEvents taskId seen) (hafter : mark (foldLog taskId log) < r.seq) :
    mark (foldLog taskId log) ≤ mark (foldLog taskId seen) := by
  have hle := ((hnum.front hpre).seq_le hmem).2
  obtain ⟨more, rfl⟩ := hpre
  rcases R.moves taskId seen more hnum with hsame | hlater
  · exact le_of_eq hsame
  · omega

/-- A task without a running lease, in terms of what `foldTask` returns. -/
theorem openFor_iff (hnum : Numbered log) (taskId : Bytes) (nowMs atMs : Nat) :
    OpenFor (foldLog taskId log) atMs ↔
      ((foldTask (taskEvents taskId log) nowMs).grantSeq = 0 ∨
        (foldTask (taskEvents taskId log) nowMs).leaseExpiresMs ≤ atMs) := by
  rw [foldTask_taskEvents]
  cases hg : (foldLog taskId log).grant with
  | none =>
    refine iff_of_true ?_ (.inl ?_)
    · intro g hg'
      cases hg.symm.trans hg'
    · rw [Fold.toState, hg]
  | some g =>
    have hpos := (hnum.grant_lt hg).1
    obtain ⟨-, hseq, -, hexpires, -⟩ := toState_of_grant hg nowMs
    rw [hseq, hexpires]
    constructor
    · intro hopen
      exact .inr (hopen g hg)
    · rintro (hzero | hle) g' hg'
      · omega
      · cases hg.symm.trans hg'
        exact hle

variable {readable : EventJson → Bool} {sys : System}

variable {worker : Bytes}

theorem taskEvent_grantPayload {winnerHlc grantedSeq expires hlc : Nat} (seq atMs : Nat)
    (h : readable (grantPayload taskId worker winnerHlc grantedSeq expires hlc) = true) :
    (LogEntry.mk seq atMs (parsed readable
        (grantPayload taskId worker winnerHlc grantedSeq expires hlc))).taskEvent taskId =
      some ⟨seq, .grant, atMs, [], hlc, 0, worker, winnerHlc, grantedSeq, expires, 0⟩ := by
  have hkind := kindOf_grantPayload taskId worker winnerHlc grantedSeq expires hlc
  rw [LogEntry.taskEvent, parsed, if_pos h]
  simp only [hkind]
  exact if_neg (not_not_intro rfl)

/-! ## One step -/

variable {payload : EventJson}

/-- A payload that is no grant keeps the rule of every task. -/
theorem EpochOk.push (h : EpochOk mark taskId log) (hnum : Numbered log)
    (atMs : Nat) (hkind : kindOf payload.t ≠ some .grant) :
    EpochOk mark taskId (log ++ [⟨log.length + 1, atMs, parsed readable payload⟩]) := by
  refine (epochOk_concat h).mpr (entryNamed_of_kind (hnum.push _ _) ?_)
  intro ev hevent hev
  exact hkind (hev ▸ (taskEvent_parsed hevent).2.1)

variable {atMs : Nat}

/-- A grant that lands does so before an epoch begins behind the request that it names: what
`Timely` comes to, gap or none. -/
def InEpoch (mark : Fold → Nat) (readable : EventJson → Bool) (sys : System) : Act → Prop
  | .land id atMs =>
      match sys.calls id with
      | .appending (.claim taskId _ _ _) _ _ payload =>
          atMs ≤ sys.now → readable payload = true → OpenFor (foldLog taskId sys.log) atMs →
            mark (foldLog taskId sys.log) < payload.grantedSeq
      | _ => True
  | _ => True

/-- The grant of a claim lands. -/
theorem epochOk_land_claim (hinv : Inv sys) (hok : ∀ taskId, EpochOk mark taskId sys.log)
    {id attempts leaseMs reqSeq : Nat}
    (hcall : sys.calls id =
      .appending (.claim taskId worker leaseMs reqSeq) attempts seen payload) :
    (∀ task, EpochOk mark task
        (sys.log ++ [⟨sys.log.length + 1, atMs, parsed readable payload⟩])) ↔
      (readable payload = true → OpenFor (foldLog taskId sys.log) atMs →
        mark (foldLog taskId sys.log) < payload.grantedSeq) := by
  have hphase := hinv.calls id
  rw [hcall] at hphase
  obtain ⟨hsub, cand, expires, hlc, hcand, hby, rfl⟩ := hphase
  have hnum := hinv.log.numbered
  obtain ⟨-, ⟨r, hmem, hreq, rfl⟩, -⟩ := contends_mem (hnum.ascending.sublist hsub) hcand
  by_cases hread : readable (grantPayload taskId worker r.toCandidate.hlc r.toCandidate.seq
      expires hlc) = true
  · have hiff := (epochOk_concat (hok taskId)).trans (entryNamed_grant_iff
      (hnum.push atMs _) (taskEvents_mono hsub.subset hmem) hreq
      (taskEvent_grantPayload (sys.log.length + 1) atMs hread) rfl hby.symm rfl)
    constructor
    · intro hall _
      exact hiff.mp (hall taskId)
    · intro hafter task
      by_cases htask : task = taskId
      · rw [htask]
        exact hiff.mpr (hafter hread)
      · -- the other tasks do not see it
        refine (epochOk_concat (hok task)).mpr (entryNamed_of_kind (hnum.push _ _) ?_)
        intro ev hevent
        exact absurd (taskEvent_parsed hevent).1.symm htask
  · -- no scan will ever read it
    refine iff_of_true ?_ (fun h => absurd h hread)
    intro task
    refine (epochOk_concat (hok task)).mpr (entryNamed_of_kind (hnum.push _ _) ?_)
    intro ev hevent
    rw [parsed, if_neg hread] at hevent
    cases hevent

/-- **The pending append of a call lands**: it keeps the rule exactly when it does so in its
epoch. -/
theorem epochOk_land (hinv : Inv sys) (hok : ∀ taskId, EpochOk mark taskId sys.log) (id : Nat)
    (hat : atMs ≤ sys.now) :
    (∀ taskId, EpochOk mark taskId (land readable sys id atMs).log) ↔
      InEpoch mark readable sys (.land id atMs) := by
  have hnum := hinv.log.numbered
  have hphase := hinv.calls id
  simp only [land, InEpoch]
  cases hcall : sys.calls id with
  | idle => exact iff_true_intro hok
  | looping call attempts => exact iff_true_intro hok
  | scanning call attempts start => exact iff_true_intro hok
  | scanned call attempts seen => exact iff_true_intro hok
  | requesting taskId worker leaseMs hlc attempts =>
    refine iff_true_intro (fun task => (hok task).push hnum _ ?_)
    rw [kindOf_requestPayload]
    decide
  | appending call attempts seen payload =>
    rw [hcall] at hphase
    cases call with
    | claim taskId worker leaseMs reqSeq =>
      refine (epochOk_land_claim hinv hok hcall).trans ?_
      exact ⟨fun h _ => h, fun h => h hat⟩
    | release taskId worker outcome hlc =>
      obtain ⟨-, rfl⟩ := hphase
      refine iff_true_intro (fun task => (hok task).push hnum _ ?_)
      rw [kindOf_releasePayload]
      decide
    | supersede taskId staleSeq =>
      obtain ⟨-, -, hlc, rfl⟩ := hphase
      refine iff_true_intro (fun task => (hok task).push hnum _ ?_)
      rw [kindOf_supersedePayload]
      decide

theorem inEpoch_of_not_land {act : Act}
    (h : ¬ ∃ id atMs, act = .land id atMs ∧ atMs ≤ sys.now) : InEpoch mark readable sys act := by
  cases act with
  | land id atMs =>
    simp only [InEpoch]
    split
    · exact fun hat => absurd ⟨id, atMs, rfl, hat⟩ h
    · trivial
  | _ => trivial

/-- **A timely step is in its epoch**, and one in its epoch is timely or from a scan with a gap. -/
theorem Reading.inEpoch (R : Reading start mark) (hinv : Inv sys) (act : Act) :
    (Timely start readable sys act → InEpoch mark readable sys act) ∧
      (InEpoch mark readable sys act → Timely start readable sys act ∨ FromGap sys act) := by
  cases act with
  | land id atMs =>
    have hphase := hinv.calls id
    simp only [Timely, InEpoch, FromGap]
    split
    · rename_i taskId worker leaseMs reqSeq attempts seen payload hcall
      rw [hcall] at hphase
      obtain ⟨hsub, cand, expires, hlc, hcand, -, rfl⟩ := hphase
      have hnum := hinv.log.numbered
      have hasc := hnum.ascending.sublist hsub
      obtain ⟨-, ⟨r, hmem, -, rfl⟩, -⟩ := contends_mem hasc hcand
      simp only [← openFor_iff hnum taskId sys.now atMs]
      rw [foldTask_taskEvents, foldTask_taskEvents, R.reads _ _ _ hnum.ascending,
        R.reads _ _ _ hasc]
      constructor
      · intro htimely hat hread hopen
        exact lt_of_le_of_lt (htimely hat hread hopen) (R.names taskId seen _ hasc hcand)
      · intro hin
        by_cases hseen : Numbered seen
        · refine .inl (fun hat hread hopen => ?_)
          have hpre := hnum.prefix_of_subset hseen hsub.subset
          exact R.le_of_lt hnum hpre hmem (hin hat hread hopen)
        · exact .inr hseen
    · exact ⟨fun _ => trivial, fun _ => .inl trivial⟩
  | _ => exact ⟨fun _ => trivial, fun _ => .inl trivial⟩

/-- **A step keeps the rule exactly when it is in its epoch.** -/
theorem epochOk_step (hinv : Inv sys) (hok : ∀ taskId, EpochOk mark taskId sys.log) (act : Act) :
    (∀ taskId, EpochOk mark taskId (step readable sys act).log) ↔
      InEpoch mark readable sys act := by
  by_cases hland : ∃ id atMs, act = .land id atMs ∧ atMs ≤ sys.now
  · obtain ⟨id, atMs, rfl, hat⟩ := hland
    simp only [step]
    rw [if_pos hat]
    exact epochOk_land hinv hok id hat
  · refine iff_of_true ?_ (inEpoch_of_not_land hland)
    intro taskId
    rcases step_log readable sys act with
      hsame | ⟨atMs, json, hmore, rfl | ⟨id, rfl, hat⟩⟩
    · rw [hsame]
      exact hok taskId
    · rw [hmore]
      refine (epochOk_concat (hok taskId)).mpr
        (entryNamed_of_kind (hinv.log.numbered.push _ _) ?_)
      intro ev hevent
      cases hevent
    · exact absurd ⟨id, atMs, rfl, hat⟩ hland

/-! ## Runs -/

theorem EpochOk.front (h : EpochOk mark taskId log) (hpre : seen <+: log) :
    EpochOk mark taskId seen := by
  rintro before entry after rfl
  obtain ⟨rest, rfl⟩ := hpre
  exact h before entry (after ++ rest) (by simp)

/-- The rule holds of the log of a run exactly when all its steps are in their epochs.  The
induction is on the run from its end: an earlier log is the front of a later one,
so the rule held before the last step. -/
theorem epochOk_run (mark : Fold → Nat) (readable : EventJson → Bool) (acts : List Act) :
    (∀ taskId, EpochOk mark taskId (run readable .init acts).log) ↔
      ∀ done act rest, acts = done ++ act :: rest →
        InEpoch mark readable (run readable .init done) act := by
  induction acts using List.reverseRecOn with
  | nil =>
    refine iff_of_true ?_ ?_
    · intro taskId before entry after heq
      exact absurd heq (by simp [run, System.init])
    · intro done act rest heq
      exact absurd heq (by simp)
  | append_singleton acts act ih =>
    have hinv : Inv (run readable .init acts) := init_inv.run acts
    rw [run_concat]
    constructor
    · intro hok done a rest heq
      have hfront : ∀ taskId, EpochOk mark taskId (run readable .init acts).log :=
        fun taskId => (hok taskId).front (step_log_extends readable _ act)
      rcases LogFold.concat_eq_append_cons heq with ⟨rfl, rfl⟩ | ⟨rest', rfl⟩
      · exact (epochOk_step hinv hfront a).mp hok
      · exact ih.mp hfront done a rest' rfl
    · intro hin
      have hfront : ∀ taskId, EpochOk mark taskId (run readable .init acts).log := by
        refine ih.mpr ?_
        intro done a rest heq
        exact hin done a (rest ++ [act]) (by rw [heq]; simp)
      exact (epochOk_step hinv hfront act).mpr (hin acts act [] rfl)

/-- What the steps of a run have to do with the rule on its log. -/
def KeepsRule (start : TaskState → Nat) (readable : EventJson → Bool) (acts : List Act) : Prop :=
  ((∀ done act rest, acts = done ++ act :: rest →
      Timely start readable (run readable .init done) act) →
    ∀ taskId, EpochRule start taskId (run readable .init acts).log) ∧
  ((∀ taskId, EpochRule start taskId (run readable .init acts).log) →
    ∀ done act rest, acts = done ++ act :: rest →
      Timely start readable (run readable .init done) act ∨ FromGap (run readable .init done) act)

theorem Reading.keepsRule (R : Reading start mark) (readable : EventJson → Bool)
    (acts : List Act) : KeepsRule start readable acts := by
  have hinv : Inv (run readable .init acts) := init_inv.run acts
  have hrule : (∀ taskId, EpochRule start taskId (run readable .init acts).log) ↔ _ :=
    (forall_congr' fun taskId => epochRule_iff R hinv.log.numbered).trans
      (epochOk_run mark readable acts)
  constructor
  · intro htimely
    refine hrule.mpr (fun done act rest heq => ?_)
    exact (R.inEpoch (init_inv.run done) act).1 (htimely done act rest heq)
  · intro hall done act rest heq
    exact (R.inEpoch (init_inv.run done) act).2 (hrule.mp hall done act rest heq)

/-- **When claims keep the epoch rule**, for both readings of an epoch's start: every
grant of a run that became authoritative names a request of its own epoch if every
grant that landed on a task without a running lease landed in no later epoch than the one
it was decided in; and only if, where no such grant was decided on a scan with a gap. -/
theorem epoch_rule (readable : EventJson → Bool) (acts : List Act) :
    KeepsRule TaskState.epochStartSeq readable acts ∧
      KeepsRule TaskState.reopenedSeq readable acts :=
  ⟨epochStart_reading.keepsRule readable acts, reopened_reading.keepsRule readable acts⟩

/-- Worker `[1]` claims task `[9]` twice.  The first call has decided its grant and
not appended it when the second one appends the same; the worker releases the
task, and then the first grant lands. -/
def lateGrant : List Act :=
  let log : List LogEntry := [⟨1, 0, requestPayload [9] [1] 1 1000⟩,
    ⟨2, 0, requestPayload [9] [1] 3 1000⟩, ⟨3, 0, grantPayload [9] [1] 1 1 1000 4⟩]
  [.claim 0 [9] [1] 1000 1, .land 0 0, .scan 0, .scanned 0 (log.take 1), .fold 0 2,
    .claim 1 [9] [1] 1000 3, .land 1 0, .scan 1, .scanned 1 (log.take 2), .fold 1 4, .land 1 0,
    .start 2 (.release [9] [1] (ascii "applied") 5), .scan 2, .scanned 2 log, .fold 2 0, .land 2 0,
    .land 0 0]

/-- The released lease is back, on a request from before the release. -/
theorem lateGrant_breaks_rule :
    ¬ EpochRule TaskState.epochStartSeq [9] (run (fun _ => true) .init lateGrant).log ∧
    ¬ EpochRule TaskState.reopenedSeq [9] (run (fun _ => true) .init lateGrant).log := by
  have hsplit : (run (fun _ => true) .init lateGrant).log =
      (run (fun _ => true) .init (lateGrant.take 16)).log ++
        [⟨5, 0, some (grantPayload [9] [1] 1 1 1000 2)⟩] := by decide
  have hgrant : (foldTask (taskEvents [9] ((run (fun _ => true) .init (lateGrant.take 16)).log ++
      [⟨5, 0, some (grantPayload [9] [1] 1 1 1000 2)⟩])) 0) =
        ⟨.claimed, [1], 1, 5, 1, 1000, 0, none, 4⟩ := by decide
  have hstart : (foldTask (taskEvents [9] (run (fun _ => true) .init (lateGrant.take 16)).log) 0) =
      ⟨.released, [], 0, 0, 0, 0, 0, none, 4⟩ := by decide
  refine ⟨?_, ?_⟩
  · intro h
    obtain ⟨r, -, -, -, hseq, hafter, -⟩ := h _ _ [] 0 hsplit (by rw [hgrant])
    rw [hgrant] at hseq
    rw [hstart, hseq] at hafter
    exact absurd hafter (by decide)
  · intro h
    obtain ⟨r, -, -, -, hseq, hafter, -⟩ := h _ _ [] 0 hsplit (by rw [hgrant])
    rw [hgrant] at hseq
    rw [hstart, hseq] at hafter
    exact absurd hafter (by decide)

end Coordination
end WormDB
