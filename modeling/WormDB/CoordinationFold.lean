import WormDB.Coordination
import WormDB.LogFold

/-! # What the fold of a task's events says

`foldEvent_cases` says what one event can do to the fold, and everything else
about it is derived from that: the current grant and the candidates are events of
the log, an epoch starts inside the log, and a grant that is current now was
current from the moment it landed (`grant_of_le`). -/
namespace WormDB
open List ByteCodec
namespace Coordination

/-! ## One event -/

/-- What ends an epoch. -/
def EndsEpoch (fold : Fold) (ev : TaskEvent) : Prop :=
  ev.kind = .opened ∨ ∃ g, fold.grant = some g ∧
    (ev.kind = .release ∧ ev.by_ = g.winner ∨ ev.kind = .superseded ∧ ev.staleSeq = g.seq)

/-- A grant received at the time becomes the current one. -/
def OpenFor (fold : Fold) (atMs : Nat) : Prop :=
  ∀ g, fold.grant = some g → g.leaseExpiresMs ≤ atMs

/-- A request in contention: with a current grant, one made after it. -/
def Fold.request (fold : Fold) (cand : Candidate) : Fold :=
  match fold.grant with
  | none => { fold with
      requests := fold.requests + 1
      bestEpoch := some (betterCandidate fold.bestEpoch cand) }
  | some _ => { fold with
      requests := fold.requests + 1
      bestAfterGrant := some (betterCandidate fold.bestAfterGrant cand) }

def Fold.take (fold : Fold) (g : Grant) : Fold :=
  { fold with grant := some g, bestAfterGrant := none }

/-- **What one event can do**: nothing, enter the contention, become the current
grant, or end the epoch. -/
theorem foldEvent_cases (fold : Fold) (ev : TaskEvent) :
    foldEvent fold ev = fold ∨
    (ev.kind = .request ∧ fold.epochStart < ev.seq ∧
      foldEvent fold ev = fold.request ev.toCandidate) ∨
    (ev.kind = .grant ∧ fold.epochStart < ev.seq ∧ OpenFor fold ev.atMs ∧
      foldEvent fold ev = fold.take ev.toGrant) ∨
    (EndsEpoch fold ev ∧ (foldEvent fold ev = .restart ev.seq .opened ∨
      foldEvent fold ev = .restart ev.seq .released)) := by
  rw [foldEvent]
  split
  · exact .inl rfl
  rename_i hnot
  have hseq : ev.kind ≠ .opened → fold.epochStart < ev.seq := by
    intro hkind
    by_contra hle
    exact hnot ⟨hkind, Nat.not_lt.mp hle⟩
  cases hkind : ev.kind with
  | opened => exact .inr (.inr (.inr ⟨.inl hkind, .inl rfl⟩))
  | request => exact .inr (.inl ⟨rfl, hseq (by rw [hkind]; decide), rfl⟩)
  | grant =>
    have hstart := hseq (by rw [hkind]; decide)
    cases hgrant : fold.grant with
    | none =>
      refine .inr (.inr (.inl ⟨rfl, hstart, ?_, rfl⟩))
      intro g hg
      cases hgrant.symm.trans hg
    | some g =>
      by_cases hexpired : g.leaseExpiresMs ≤ ev.atMs
      · refine .inr (.inr (.inl ⟨rfl, hstart, ?_, if_pos hexpired⟩))
        intro g' hg'
        cases hgrant.symm.trans hg'
        exact hexpired
      · exact .inl (if_neg hexpired)
  | release =>
    cases hgrant : fold.grant with
    | none => exact .inl rfl
    | some g =>
      by_cases hby : ev.by_ = g.winner
      · refine .inr (.inr (.inr ⟨.inr ⟨g, hgrant, .inl ⟨hkind, hby⟩⟩, .inr ?_⟩))
        exact if_neg (not_not_intro hby)
      · exact .inl (if_pos hby)
  | superseded =>
    cases hgrant : fold.grant with
    | none => exact .inl rfl
    | some g =>
      by_cases hstale : ev.staleSeq = g.seq
      · refine .inr (.inr (.inr ⟨.inr ⟨g, hgrant, .inr ⟨hkind, hstale⟩⟩, .inl ?_⟩))
        exact if_neg (not_not_intro hstale)
      · exact .inl (if_pos hstale)

variable {ev : TaskEvent}

/-- A grant event after the epoch's start is taken on a task without a running
lease. -/
theorem foldEvent_open {fold : Fold} (hkind : ev.kind = .grant)
    (hseq : fold.epochStart < ev.seq) (hopen : OpenFor fold ev.atMs) :
    (foldEvent fold ev).grant = some ev.toGrant := by
  rw [foldEvent, if_neg (by rintro ⟨-, hle⟩; omega), hkind]
  cases hgrant : fold.grant with
  | none => rfl
  | some g =>
    simp only
    rw [if_pos (hopen g hgrant)]

theorem request_grant (fold : Fold) (cand : Candidate) :
    (fold.request cand).grant = fold.grant ∧ (fold.request cand).epochStart = fold.epochStart ∧
      (fold.request cand).baseState = fold.baseState := by
  rw [Fold.request]
  split
  · exact ⟨rfl, rfl, rfl⟩
  · exact ⟨rfl, rfl, rfl⟩

/-! ## The log -/

/-- The fold of a task over the records of a log. -/
def entryStep (taskId : Bytes) (fold : Fold) (entry : LogEntry) : Fold :=
  match entry.taskEvent taskId with
  | none => fold
  | some ev => foldEvent fold ev

def foldLog (taskId : Bytes) (log : List LogEntry) : Fold := log.foldl (entryStep taskId) .init

theorem foldl_taskEvents (taskId : Bytes) (log : List LogEntry) (fold : Fold) :
    (taskEvents taskId log).foldl foldEvent fold = log.foldl (entryStep taskId) fold := by
  induction log generalizing fold with
  | nil => rfl
  | cons entry log ih =>
    rw [foldl_cons, ← ih, entryStep, taskEvents, filterMap_cons]
    cases entry.taskEvent taskId <;> rfl

theorem foldTask_taskEvents (taskId : Bytes) (log : List LogEntry) (nowMs : Nat) :
    foldTask (taskEvents taskId log) nowMs = (foldLog taskId log).toState nowMs := by
  rw [foldTask, foldl_taskEvents, foldLog]

theorem foldLog_concat (taskId : Bytes) (log : List LogEntry) (entry : LogEntry) :
    foldLog taskId (log ++ [entry]) = entryStep taskId (foldLog taskId log) entry :=
  foldl_concat ..

/-- What one record can do. -/
theorem entryStep_effect (taskId : Bytes) (fold : Fold) (entry : LogEntry) :
    entryStep taskId fold entry = fold ∨ ∃ ev, entry.taskEvent taskId = some ev ∧
      ((ev.kind = .request ∧ fold.epochStart < ev.seq ∧
        entryStep taskId fold entry = fold.request ev.toCandidate) ∨
      (ev.kind = .grant ∧ fold.epochStart < ev.seq ∧ OpenFor fold ev.atMs ∧
        entryStep taskId fold entry = fold.take ev.toGrant) ∨
      (EndsEpoch fold ev ∧ (entryStep taskId fold entry = .restart ev.seq .opened ∨
        entryStep taskId fold entry = .restart ev.seq .released))) := by
  rw [entryStep]
  cases hevent : entry.taskEvent taskId with
  | none => exact .inl rfl
  | some ev =>
    rcases foldEvent_cases fold ev with hquiet | hloud
    · exact .inl hquiet
    · exact .inr ⟨ev, rfl, hloud⟩

/-- What one record can do to the epoch and the current grant. -/
theorem entryStep_cases (taskId : Bytes) (fold : Fold) (entry : LogEntry) :
    ((entryStep taskId fold entry).epochStart = fold.epochStart ∧
      (entryStep taskId fold entry).grant = fold.grant) ∨
    ∃ ev, entry.taskEvent taskId = some ev ∧
      ((ev.kind = .grant ∧ OpenFor fold ev.atMs ∧
        (entryStep taskId fold entry).epochStart = fold.epochStart ∧
        (entryStep taskId fold entry).grant = some ev.toGrant) ∨
      (EndsEpoch fold ev ∧ (entryStep taskId fold entry).epochStart = ev.seq ∧
        (entryStep taskId fold entry).grant = none)) := by
  rcases entryStep_effect taskId fold entry with
    hsame | ⟨ev, hevent, ⟨-, -, heq⟩ | ⟨hkind, -, hopen, heq⟩ | ⟨hends, heq | heq⟩⟩
  · rw [hsame]
    exact .inl ⟨rfl, rfl⟩
  · obtain ⟨hgrant, hepoch, -⟩ := request_grant fold ev.toCandidate
    rw [heq]
    exact .inl ⟨hepoch, hgrant⟩
  · rw [heq]
    exact .inr ⟨ev, hevent, .inl ⟨hkind, hopen, rfl, rfl⟩⟩
  · rw [heq]
    exact .inr ⟨ev, hevent, .inr ⟨hends, rfl, rfl⟩⟩
  · rw [heq]
    exact .inr ⟨ev, hevent, .inr ⟨hends, rfl, rfl⟩⟩

/-- The records are numbered from one. -/
def Numbered (log : List LogEntry) : Prop :=
  ∀ (i : Nat) (entry : LogEntry), log[i]? = some entry → entry.seq = i + 1

variable {taskId : Bytes} {log seen more : List LogEntry}

theorem Numbered.push (h : Numbered log) (atMs : Nat) (json : Option EventJson) :
    Numbered (log ++ [⟨log.length + 1, atMs, json⟩]) := by
  intro i entry hget
  rcases lt_or_ge i log.length with hlt | hge
  · rw [getElem?_append_left hlt] at hget
    exact h i entry hget
  · rw [getElem?_append_right hge] at hget
    obtain ⟨hi, hentry⟩ := List.getElem?_eq_some_iff.mp hget
    rw [length_singleton] at hi
    rw [← hentry]
    simp only [getElem_singleton]
    omega

theorem Numbered.front (h : Numbered log) (hpre : seen <+: log) : Numbered seen := by
  intro i entry hget
  obtain ⟨rest, rfl⟩ := hpre
  exact h i entry (by rw [getElem?_append_left (List.getElem?_eq_some_iff.mp hget).1, hget])

/-- The number of the last record. -/
theorem Numbered.last {entry : LogEntry} (h : Numbered (log ++ [entry])) :
    entry.seq = log.length + 1 := h log.length entry getElem?_concat_length

/-- The records have ascending numbers, as in every scan, whatever it misses. -/
structure Ascending (log : List LogEntry) : Prop where
  order : log.Pairwise (fun a b => a.seq < b.seq)
  pos : ∀ entry ∈ log, 0 < entry.seq

variable {entry : LogEntry}

theorem Numbered.ascending (h : Numbered log) : Ascending log where
  order := by
    refine pairwise_iff_getElem.mpr (fun i j hi hj hlt => ?_)
    rw [h i _ (getElem?_eq_getElem hi), h j _ (getElem?_eq_getElem hj)]
    omega
  pos := by
    intro entry hmem
    obtain ⟨i, hi⟩ := mem_iff_getElem?.mp hmem
    rw [h i entry hi]
    exact Nat.succ_pos i

theorem Ascending.sublist (h : Ascending log) (hsub : seen.Sublist log) : Ascending seen :=
  ⟨h.order.sublist hsub, fun entry hmem => h.pos entry (hsub.subset hmem)⟩

theorem Ascending.front (h : Ascending (log ++ [entry])) : Ascending log :=
  h.sublist (sublist_append_left _ _)

theorem Ascending.lt_last {e : LogEntry} (h : Ascending (log ++ [entry])) (he : e ∈ log) :
    e.seq < entry.seq :=
  (pairwise_append.mp h.order).2.2 e he entry (mem_singleton_self _)

/-- **A scan without a gap has seen a front of the log.** -/
theorem Numbered.prefix_of_subset (h : Numbered log) (hseen : Numbered seen) (hsub : seen ⊆ log) :
    seen <+: log := by
  have hplace : ∀ (i : Nat) entry, seen[i]? = some entry → log[i]? = some entry := by
    intro i entry hget
    obtain ⟨j, hj⟩ := mem_iff_getElem?.mp (hsub (mem_of_getElem? hget))
    have hseq := (hseen i entry hget).symm.trans (h j entry hj)
    rwa [show i = j by omega]
  rw [prefix_iff_eq_take]
  refine ext_getElem? (fun i => ?_)
  rw [getElem?_take]
  split
  · rename_i hi
    rw [hplace i _ (getElem?_eq_getElem hi), getElem?_eq_getElem hi]
  · rename_i hi
    exact getElem?_eq_none (Nat.not_lt.mp hi)

theorem taskEvent_seq (h : entry.taskEvent taskId = some ev) :
    ev.seq = entry.seq ∧ ev.atMs = entry.ingestTimeMs := by
  rw [LogEntry.taskEvent] at h
  split at h
  · cases h
  split at h
  · cases h
  split at h
  · cases h
  · cases h
    exact ⟨rfl, rfl⟩

theorem mem_taskEvents_iff :
    ev ∈ taskEvents taskId log ↔ ∃ entry ∈ log, entry.taskEvent taskId = some ev :=
  mem_filterMap

theorem Numbered.seq_le (h : Numbered log) (hev : ev ∈ taskEvents taskId log) :
    0 < ev.seq ∧ ev.seq ≤ log.length := by
  obtain ⟨entry, hmem, heq⟩ := mem_taskEvents_iff.mp hev
  obtain ⟨i, hi⟩ := mem_iff_getElem?.mp hmem
  have hlt := (List.getElem?_eq_some_iff.mp hi).1
  rw [(taskEvent_seq heq).1, h i entry hi]
  omega

/-- An event is determined by its number. -/
theorem Numbered.event_unique (h : Numbered log) {a b : TaskEvent}
    (ha : a ∈ taskEvents taskId log) (hb : b ∈ taskEvents taskId log) (hseq : a.seq = b.seq) :
    a = b := by
  obtain ⟨x, hx, hxa⟩ := mem_taskEvents_iff.mp ha
  obtain ⟨y, hy, hyb⟩ := mem_taskEvents_iff.mp hb
  obtain ⟨i, hi⟩ := mem_iff_getElem?.mp hx
  obtain ⟨j, hj⟩ := mem_iff_getElem?.mp hy
  rw [(taskEvent_seq hxa).1, (taskEvent_seq hyb).1, h i x hi, h j y hj] at hseq
  obtain rfl : i = j := by omega
  cases hi.symm.trans hj
  exact Option.some.inj (hxa.symm.trans hyb)

theorem taskEvents_mono (hsub : seen ⊆ log)
    (hev : ev ∈ taskEvents taskId seen) : ev ∈ taskEvents taskId log := by
  obtain ⟨entry, hmem, heq⟩ := mem_taskEvents_iff.mp hev
  exact mem_taskEvents_iff.mpr ⟨entry, hsub hmem, heq⟩

theorem mem_taskEvents_concat
    (h : entry.taskEvent taskId = some ev) : ev ∈ taskEvents taskId (log ++ [entry]) :=
  mem_taskEvents_iff.mpr ⟨entry, mem_append_right _ (mem_singleton_self _), h⟩

/-! ## What the fold remembers is in the log -/

variable {g : Grant}

/-- The current grant is a grant event of the log. -/
theorem grant_mem (h : (foldLog taskId log).grant = some g) :
    ∃ ev ∈ taskEvents taskId log, ev.kind = .grant ∧ ev.toGrant = g := by
  refine LogFold.foldl_induction
    (motive := fun log (fold : Fold) => fold.grant = some g →
      ∃ ev ∈ taskEvents taskId log, ev.kind = .grant ∧ ev.toGrant = g) ?_ ?_ log h
  · intro hnone
    cases hnone
  · intro log entry ih hg
    rcases entryStep_cases taskId (foldLog taskId log) entry with
      ⟨-, hsame⟩ | ⟨ev, hevent, ⟨hkind, -, -, hnew⟩ | ⟨-, -, hnone⟩⟩
    · obtain ⟨ev, hev, hrest⟩ := ih (hsame.symm.trans hg)
      exact ⟨ev, taskEvents_mono (subset_append_left _ _) hev, hrest⟩
    · exact ⟨ev, mem_taskEvents_concat hevent, hkind, Option.some.inj (hnew.symm.trans hg)⟩
    · cases hnone.symm.trans hg

/-- The candidate is a request event of the log. -/
def RequestIn (taskId : Bytes) (log : List LogEntry) (cand : Candidate) : Prop :=
  ∃ ev ∈ taskEvents taskId log, ev.kind = .request ∧ ev.toCandidate = cand

variable {cand : Candidate}

theorem RequestIn.mono (h : RequestIn taskId seen cand) (hsub : seen ⊆ log) :
    RequestIn taskId log cand := by
  obtain ⟨ev, hmem, hrest⟩ := h
  exact ⟨ev, taskEvents_mono hsub hmem, hrest⟩

/-- Where the candidates come from: requests inside the epoch, and after the
current grant those that wait for its end. -/
structure CandidatesOk (taskId : Bytes) (log : List LogEntry) (fold : Fold) : Prop where
  epoch : ∀ cand, fold.bestEpoch = some cand →
    fold.epochStart < cand.seq ∧ RequestIn taskId log cand
  after : ∀ cand, fold.bestAfterGrant = some cand → fold.epochStart < cand.seq ∧
    RequestIn taskId log cand ∧ ∀ g, fold.grant = some g → g.seq < cand.seq

theorem betterCandidate_cases (current : Option Candidate) (next : Candidate) :
    betterCandidate current next = next ∨ current = some (betterCandidate current next) := by
  cases current with
  | none => exact .inl rfl
  | some cur =>
    simp only [betterCandidate]
    split
    · exact .inl rfl
    split
    · exact .inl rfl
    · exact .inr rfl

/-- A grant that is current is older than a record after the log. -/
theorem Numbered.grant_lt (h : Numbered log)
    (hg : (foldLog taskId log).grant = some g) : 0 < g.seq ∧ g.seq ≤ log.length := by
  obtain ⟨ev, hmem, -, rfl⟩ := grant_mem hg
  exact h.seq_le hmem

/-- The current grant is a record of the scan. -/
theorem grant_entry (h : (foldLog taskId log).grant = some g) :
    ∃ entry ∈ log, g.seq = entry.seq := by
  obtain ⟨ev, hmem, -, rfl⟩ := grant_mem h
  obtain ⟨entry, hentry, hevent⟩ := mem_taskEvents_iff.mp hmem
  exact ⟨entry, hentry, (taskEvent_seq hevent).1⟩

theorem CandidatesOk.request
    (h : CandidatesOk taskId log (foldLog taskId log)) (hasc : Ascending (log ++ [entry]))
    (hevent : entry.taskEvent taskId = some ev) (hkind : ev.kind = .request)
    (hstart : (foldLog taskId log).epochStart < ev.seq) :
    CandidatesOk taskId (log ++ [entry]) ((foldLog taskId log).request ev.toCandidate) := by
  have hsub : log ⊆ log ++ [entry] := subset_append_left _ _
  have hnew : RequestIn taskId (log ++ [entry]) ev.toCandidate :=
    ⟨ev, mem_taskEvents_concat hevent, hkind, rfl⟩
  rw [Fold.request]
  split
  · refine ⟨?_, ?_⟩
    · intro cand hcand
      cases hcand
      rcases betterCandidate_cases (foldLog taskId log).bestEpoch ev.toCandidate with heq | hold
      · rw [heq]
        exact ⟨hstart, hnew⟩
      · obtain ⟨hlt, hreq⟩ := h.epoch _ hold
        exact ⟨hlt, hreq.mono hsub⟩
    · intro cand hcand
      obtain ⟨hlt, hreq, hafter⟩ := h.after cand hcand
      exact ⟨hlt, hreq.mono hsub, hafter⟩
  · refine ⟨?_, ?_⟩
    · intro cand hcand
      obtain ⟨hlt, hreq⟩ := h.epoch cand hcand
      exact ⟨hlt, hreq.mono hsub⟩
    · intro cand hcand
      cases hcand
      rcases betterCandidate_cases (foldLog taskId log).bestAfterGrant ev.toCandidate with
        heq | hold
      · rw [heq]
        refine ⟨hstart, hnew, ?_⟩
        intro g hg
        obtain ⟨e, he, hseq⟩ := grant_entry hg
        rw [hseq]
        exact (hasc.lt_last he).trans_eq (taskEvent_seq hevent).1.symm
      · obtain ⟨hlt, hreq, hafter⟩ := h.after _ hold
        exact ⟨hlt, hreq.mono hsub, hafter⟩

theorem candidatesOk (h : Ascending log) : CandidatesOk taskId log (foldLog taskId log) := by
  refine LogFold.foldl_induction
    (motive := fun log (fold : Fold) => Ascending log → CandidatesOk taskId log fold) ?_ ?_ log h
  · intro _
    refine ⟨?_, ?_⟩
    · intro cand hcand
      cases hcand
    · intro cand hcand
      cases hcand
  · intro log entry ih hasc
    have hsub : log ⊆ log ++ [entry] := subset_append_left _ _
    have hok : CandidatesOk taskId log (foldLog taskId log) := ih hasc.front
    rcases entryStep_effect taskId (foldLog taskId log) entry with
      hsame | ⟨ev, hevent, ⟨hkind, hstart, heq⟩ | ⟨-, -, -, heq⟩ | ⟨-, heq | heq⟩⟩
    · refine hsame ▸ ⟨?_, ?_⟩
      · intro cand hcand
        obtain ⟨hlt, hreq⟩ := hok.epoch cand hcand
        exact ⟨hlt, hreq.mono hsub⟩
      · intro cand hcand
        obtain ⟨hlt, hreq, hafter⟩ := hok.after cand hcand
        exact ⟨hlt, hreq.mono hsub, hafter⟩
    · exact heq ▸ hok.request hasc hevent hkind hstart
    · refine heq ▸ ⟨?_, ?_⟩
      · intro cand hcand
        obtain ⟨hlt, hreq⟩ := hok.epoch cand hcand
        exact ⟨hlt, hreq.mono hsub⟩
      · intro cand hcand
        cases hcand
    · refine heq ▸ ⟨?_, ?_⟩
      · intro cand hcand
        cases hcand
      · intro cand hcand
        cases hcand
    · refine heq ▸ ⟨?_, ?_⟩
      · intro cand hcand
        cases hcand
      · intro cand hcand
        cases hcand

/-- A request that would win if a grant were issued: when a lease is over, only
one from after its grant. -/
def Fold.Contends (fold : Fold) (cand : Candidate) : Prop :=
  (fold.grant = none ∧ fold.bestEpoch = some cand) ∨
    (∃ g, fold.grant = some g) ∧ fold.bestAfterGrant = some cand

theorem contends_mem (h : Ascending log) (hcand : (foldLog taskId log).Contends cand) :
    (foldLog taskId log).epochStart < cand.seq ∧ RequestIn taskId log cand ∧
      ∀ g, (foldLog taskId log).grant = some g → g.seq < cand.seq := by
  rcases hcand with ⟨hnone, hbest⟩ | ⟨-, hbest⟩
  · obtain ⟨hlt, hreq⟩ := (candidatesOk h).epoch cand hbest
    refine ⟨hlt, hreq, ?_⟩
    intro g hg
    cases hnone.symm.trans hg
  · exact (candidatesOk h).after cand hbest

/-- The number of the record after a log and more. -/
theorem Numbered.event_last
    (h : Numbered (seen ++ (more ++ [entry]))) (hevent : entry.taskEvent taskId = some ev) :
    seen.length < ev.seq := by
  rw [← append_assoc] at h
  rw [(taskEvent_seq hevent).1, h.last, length_append]
  omega

theorem Numbered.init (h : Numbered (seen ++ (more ++ [entry]))) : Numbered (seen ++ more) := by
  rw [← append_assoc] at h
  exact h.front (prefix_append _ _)

theorem epochStart_le (h : Numbered log) : (foldLog taskId log).epochStart ≤ log.length := by
  refine LogFold.foldl_induction
    (motive := fun log (fold : Fold) => Numbered log → fold.epochStart ≤ log.length)
    (fun _ => le_refl 0) ?_ log h
  intro log entry ih hnum
  have hprev := ih (hnum.front (prefix_append _ _))
  rw [length_append, length_singleton]
  rcases entryStep_cases taskId (foldLog taskId log) entry with
    ⟨hepoch, -⟩ | ⟨ev, hevent, ⟨-, -, hepoch, -⟩ | ⟨-, hepoch, -⟩⟩
  · exact Nat.le_succ_of_le (hepoch ▸ hprev)
  · exact Nat.le_succ_of_le (hepoch ▸ hprev)
  · have hseq := (taskEvent_seq hevent).1.trans hnum.last
    exact le_of_eq (hepoch.trans hseq)

variable (taskId) in
/-- An epoch that is not the one of a prefix started after it. -/
theorem epochStart_cases (h : Numbered (seen ++ more)) :
    (foldLog taskId (seen ++ more)).epochStart = (foldLog taskId seen).epochStart ∨
      seen.length < (foldLog taskId (seen ++ more)).epochStart := by
  refine LogFold.foldl_induction_from seen
    (motive := fun more (fold : Fold) => Numbered (seen ++ more) →
      fold.epochStart = (foldLog taskId seen).epochStart ∨ seen.length < fold.epochStart)
    (fun _ => .inl rfl) ?_ more h
  intro more entry ih hnum
  rcases entryStep_cases taskId (foldLog taskId (seen ++ more)) entry with
    ⟨hepoch, -⟩ | ⟨ev, hevent, ⟨-, -, hepoch, -⟩ | ⟨-, hepoch, -⟩⟩
  · exact (ih hnum.init).imp hepoch.trans (fun hlt => hepoch ▸ hlt)
  · exact (ih hnum.init).imp hepoch.trans (fun hlt => hepoch ▸ hlt)
  · exact .inr (hepoch ▸ hnum.event_last hevent)

/-- **A grant that is current was current from its landing on.** -/
theorem grant_of_le (h : Numbered (seen ++ more))
    (hg : (foldLog taskId (seen ++ more)).grant = some g) (hle : g.seq ≤ seen.length) :
    (foldLog taskId seen).grant = some g := by
  refine LogFold.foldl_induction_from seen
    (motive := fun more (fold : Fold) => Numbered (seen ++ more) → fold.grant = some g →
      (foldLog taskId seen).grant = some g) (fun _ hg => hg) ?_ more h hg
  intro more entry ih hnum hgrant
  rcases entryStep_cases taskId (foldLog taskId (seen ++ more)) entry with
    ⟨-, hsame⟩ | ⟨ev, hevent, ⟨-, -, -, hnew⟩ | ⟨-, -, hnone⟩⟩
  · exact ih hnum.init (hsame.symm.trans hgrant)
  · have hseq : ev.seq = g.seq := congrArg Grant.seq (Option.some.inj (hnew.symm.trans hgrant))
    have hlast := hnum.event_last hevent
    omega
  · cases hnone.symm.trans hgrant

end Coordination
end WormDB
