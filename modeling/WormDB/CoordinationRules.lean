import WormDB.CoordinationFold

/-! # The rules that the fold of a task computes

The rules speak of the events alone, with no accumulator.  At every moment a task
has a boundary, the event at which its epoch started, and an authority, the grant
that is in force in the epoch; whether an event is a boundary or an authority
depends on the authority before it, so the two histories are given together, by
`Rules`, which has exactly one solution.  `Outcome` reads the state of the task off
the last boundary and authority, and `foldTask_eq_iff` says that `foldTask` gives
that state. -/
namespace WormDB
open List ByteCodec
open LogFold (Latest)
namespace Coordination

/-- Each event is later in the log than the one before. -/
def Ordered (events : List TaskEvent) : Prop := events.Pairwise (fun a b => a.seq < b.seq)

/-! ## The rules -/

/-- What ends an epoch in which the grant has authority: the task is opened again,
the winner releases it, or the grant is superseded. -/
def Ends (authority : Option TaskEvent) (ev : TaskEvent) : Prop :=
  ev.kind = .opened ∨ ∃ g, authority = some g ∧
    (ev.kind = .release ∧ ev.by_ = g.winner ∨ ev.kind = .superseded ∧ ev.staleSeq = g.seq)

variable {authority : Option TaskEvent}

theorem Ends.kind {ev : TaskEvent} (h : Ends authority ev) :
    ev.kind = .opened ∨ ev.kind = .release ∨ ev.kind = .superseded := by
  rcases h with hopened | ⟨g, -, ⟨hrelease, -⟩ | ⟨hsuperseded, -⟩⟩
  · exact .inl hopened
  · exact .inr (.inl hrelease)
  · exact .inr (.inr hsuperseded)

/-- A grant that gets authority: the first one of an epoch, or one received when the
lease of the one before it was over. -/
def Honoured (authority : Option TaskEvent) (ev : TaskEvent) : Prop :=
  ev.kind = .grant ∧ ∀ g, authority = some g → g.leaseExpiresMs ≤ ev.atMs

/-- Later events belong to the epoch. -/
def startOf : Option TaskEvent → Nat
  | none => 0
  | some ev => ev.seq

/-- The boundary and the authority at every point of the log. -/
structure History where
  boundary : Nat → Option TaskEvent
  authority : Nat → Option TaskEvent

def before (events : List TaskEvent) (t : Nat) : List TaskEvent :=
  events.filter (fun ev => ev.seq < t)

/-- The epoch at a point began with the last event before it that ended one; the
authority is the last grant of that epoch that got it. -/
structure Rules (events : List TaskEvent) (hist : History) : Prop where
  boundary : ∀ t, Latest (fun ev => Ends (hist.authority ev.seq) ev) (before events t)
    (hist.boundary t)
  authority : ∀ t, Latest
    (fun ev => startOf (hist.boundary t) < ev.seq ∧ Honoured (hist.authority ev.seq) ev)
    (before events t) (hist.authority t)

/-- A request of the epoch. -/
def Requests (boundary : Option TaskEvent) (ev : TaskEvent) : Prop :=
  ev.kind = .request ∧ startOf boundary < ev.seq

instance (boundary : Option TaskEvent) : DecidablePred (Requests boundary) := fun _ =>
  inferInstanceAs (Decidable (_ ∧ _))

/-- One that no grant has answered. -/
def Waiting (boundary authority : Option TaskEvent) (ev : TaskEvent) : Prop :=
  Requests boundary ev ∧ ∀ g, authority = some g → g.seq < ev.seq

def Precedes (a b : TaskEvent) : Prop := a.hlc < b.hlc ∨ a.hlc = b.hlc ∧ a.seq ≤ b.seq

/-- The lowest of the events with the property by clock value, then number. -/
def Lowest (p : TaskEvent → Prop) (events : List TaskEvent) : Option Candidate → Prop
  | none => ∀ ev ∈ events, ¬ p ev
  | some cand => ∃ ev ∈ events, p ev ∧ ev.toCandidate = cand ∧
      ∀ other ∈ events, p other → Precedes ev other

/-- The state that a task without a grant has. -/
def baseOf : Option TaskEvent → State
  | none => .opened
  | some ev => if ev.kind = .release then .released else .opened

/-- What the last boundary and authority make of the task: there is a candidate
unless a lease is running. -/
structure Outcome (events : List TaskEvent) (boundary authority : Option TaskEvent)
    (nowMs : Nat) (st : TaskState) : Prop where
  epochStartSeq : st.epochStartSeq = startOf boundary
  requests : st.requests = events.countP (fun ev => Requests boundary ev)
  free : authority = none → st.state = baseOf boundary ∧ st.winner = [] ∧ st.winnerHlc = 0 ∧
    st.grantSeq = 0 ∧ st.grantedSeq = 0 ∧ st.leaseExpiresMs = 0
  held : ∀ g, authority = some g →
    st.state = (if nowMs < g.leaseExpiresMs then State.claimed else State.expired) ∧
    st.winner = g.winner ∧ st.winnerHlc = g.winnerHlc ∧ st.grantSeq = g.seq ∧
    st.grantedSeq = g.grantedSeq ∧ st.leaseExpiresMs = g.leaseExpiresMs
  candidate : Lowest (fun ev => Waiting boundary authority ev ∧
    ∀ g, authority = some g → g.leaseExpiresMs ≤ nowMs) events st.candidate

/-! ## One event -/

/-- The boundary and the authority after some events. -/
structure Seen where
  boundary : Option TaskEvent
  authority : Option TaskEvent

instance : DecidableRel Ends
  | none, ev => decidable_of_iff (ev.kind = .opened) (by simp [Ends])
  | some g, ev => decidable_of_iff (ev.kind = .opened ∨
      (ev.kind = .release ∧ ev.by_ = g.winner ∨ ev.kind = .superseded ∧ ev.staleSeq = g.seq))
      (by simp [Ends])

instance : DecidableRel Honoured
  | none, ev => decidable_of_iff (ev.kind = .grant) (by simp [Honoured])
  | some g, ev => decidable_of_iff (ev.kind = .grant ∧ g.leaseExpiresMs ≤ ev.atMs)
      (by simp [Honoured])

def look (seen : Seen) (ev : TaskEvent) : Seen :=
  if Ends seen.authority ev then ⟨some ev, none⟩
  else if startOf seen.boundary < ev.seq ∧ Honoured seen.authority ev then
    ⟨seen.boundary, some ev⟩
  else seen

def lookAll (events : List TaskEvent) : Seen := events.foldl look ⟨none, none⟩

theorem lookAll_concat (events : List TaskEvent) (ev : TaskEvent) :
    lookAll (events ++ [ev]) = look (lookAll events) ev := foldl_concat ..

/-- The history that the events have. -/
def historyOf (events : List TaskEvent) : History where
  boundary t := (lookAll (before events t)).boundary
  authority t := (lookAll (before events t)).authority

/-! ## The log before a point -/

variable {events seen : List TaskEvent} {ev x : TaskEvent}

variable {t : Nat}

theorem mem_before_iff : ev ∈ before events t ↔ ev ∈ events ∧ ev.seq < t := by
  rw [before, mem_filter, decide_eq_true_eq]

theorem before_prefix_events (ho : Ordered events) (t : Nat) : before events t <+: events := by
  induction events with
  | nil => exact nil_prefix
  | cons a rest ih =>
    obtain ⟨hafter, hrest⟩ := pairwise_cons.mp ho
    by_cases hlt : a.seq < t
    · have hcons : before (a :: rest) t = a :: before rest t :=
        filter_cons_of_pos (decide_eq_true hlt)
      rw [hcons]
      exact (prefix_cons_inj a).mpr (ih hrest)
    · have hnone : before (a :: rest) t = [] := by
        refine filter_eq_nil_iff.mpr ?_
        intro b hb
        rw [decide_eq_true_eq]
        rcases mem_cons.mp hb with rfl | hb
        · exact hlt
        · have hab := hafter b hb
          omega
      rw [hnone]
      exact nil_prefix

theorem Ordered.front (h : Ordered events) (hpre : seen <+: events) : Ordered seen :=
  Pairwise.sublist hpre.sublist h

/-- The last of the events is later than the others. -/
theorem Ordered.last (h : Ordered (seen ++ [x])) (hev : ev ∈ seen) : ev.seq < x.seq :=
  (pairwise_append.mp h).2.2 ev hev x (mem_singleton_self x)

variable {a b : TaskEvent}

theorem Ordered.eq_of_seq (h : Ordered events) (ha : a ∈ events)
    (hb : b ∈ events) (hseq : a.seq = b.seq) : a = b := by
  have hnodup : (events.map TaskEvent.seq).Nodup :=
    Pairwise.map _ (fun _ _ hlt => ne_of_lt hlt) h
  exact inj_on_of_nodup_map hnodup ha hb hseq

theorem before_at (ho : Ordered events) (hpre : seen ++ [x] <+: events) :
    before events x.seq = seen := by
  obtain ⟨rest, rfl⟩ := hpre
  have hfront : Ordered (seen ++ [x]) := ho.front (prefix_append _ _)
  have hkeep : before seen x.seq = seen := by
    refine filter_eq_self.mpr ?_
    intro ev hev
    exact decide_eq_true (hfront.last hev)
  have hdrop : before ([x] ++ rest) x.seq = [] := by
    refine filter_eq_nil_iff.mpr ?_
    intro ev hev
    rw [decide_eq_true_eq]
    rw [Ordered, append_assoc] at ho
    have hback := (pairwise_append.mp ho).2.1
    rcases mem_cons.mp hev with rfl | hev
    · exact lt_irrefl _
    · have hlt := (pairwise_cons.mp hback).1 ev hev
      omega
  rw [append_assoc, before, filter_append]
  exact (congrArg₂ (· ++ ·) hkeep hdrop).trans (append_nil seen)

/-- Past the last event everything is seen. -/
theorem before_all (h : ∀ ev ∈ events, ev.seq < t) : before events t = events := by
  refine filter_eq_self.mpr ?_
  intro ev hev
  exact decide_eq_true (h ev hev)

/-! ## The rules have one solution -/

/-- What one event does to the boundary and the authority, run over a prefix, obeys
the rules. -/
theorem look_latest (ho : Ordered events) (hpre : seen <+: events) :
    Latest (fun ev => Ends ((historyOf events).authority ev.seq) ev) seen
        (lookAll seen).boundary ∧
      Latest (fun ev => startOf (lookAll seen).boundary < ev.seq ∧
        Honoured ((historyOf events).authority ev.seq) ev) seen (lookAll seen).authority := by
  induction seen using List.reverseRecOn with
  | nil => exact ⟨fun ev hev => (nomatch hev), fun ev hev => (nomatch hev)⟩
  | append_singleton seen x ih =>
    obtain ⟨hboundary, hauthority⟩ := ih ((prefix_append seen [x]).trans hpre)
    have hat : (historyOf events).authority x.seq = (lookAll seen).authority := by
      show (lookAll (before events x.seq)).authority = _
      rw [before_at ho hpre]
    have hlast : ∀ ev ∈ seen, ev.seq < x.seq := fun ev hev => (ho.front hpre).last hev
    rw [lookAll_concat, look]
    by_cases hends : Ends (lookAll seen).authority x
    · rw [if_pos hends]
      refine ⟨Latest.hit (by rwa [hat]), ?_⟩
      rintro ev hev ⟨hlt, -⟩
      have hlt : x.seq < ev.seq := hlt
      rcases mem_append.mp hev with hold | hnew
      · have := hlast ev hold
        omega
      · rw [mem_singleton.mp hnew] at hlt
        omega
    · rw [if_neg hends]
      have hboundary' := hboundary.miss (x := x) (by rwa [hat])
      by_cases hgrant : startOf (lookAll seen).boundary < x.seq ∧
          Honoured (lookAll seen).authority x
      · rw [if_pos hgrant]
        exact ⟨hboundary', Latest.hit (by rwa [hat])⟩
      · rw [if_neg hgrant]
        exact ⟨hboundary', hauthority.miss (by rwa [hat])⟩

theorem rules_historyOf (ho : Ordered events) : Rules events (historyOf events) where
  boundary t := (look_latest ho (before_prefix_events ho t)).1
  authority t := (look_latest ho (before_prefix_events ho t)).2

/-- At each point the rules rest on earlier ones only. -/
theorem Rules.unique {hist hist' : History} (h : Rules events hist) (h' : Rules events hist')
    (t : Nat) : hist.boundary t = hist'.boundary t ∧ hist.authority t = hist'.authority t := by
  induction t using Nat.strong_induction_on with
  | h t ih =>
    have hsame : ∀ ev ∈ before events t, hist.authority ev.seq = hist'.authority ev.seq := by
      intro ev hev
      exact (ih ev.seq (mem_before_iff.mp hev).2).2
    have hboundary : hist.boundary t = hist'.boundary t := by
      refine (Latest.congr (h.boundary t) ?_).unique (h'.boundary t)
      intro ev hev
      rw [hsame ev hev]
    refine ⟨hboundary, (Latest.congr (h.authority t) ?_).unique (h'.authority t)⟩
    intro ev hev
    rw [hboundary, hsame ev hev]

theorem rules_iff (ho : Ordered events) (hist : History) :
    Rules events hist ↔ hist = historyOf events := by
  constructor
  · intro h
    have hall := h.unique (rules_historyOf ho)
    cases hist with
    | mk boundary authority =>
      exact congrArg₂ History.mk (funext (fun t => (hall t).1)) (funext (fun t => (hall t).2))
  · rintro rfl
    exact rules_historyOf ho

/-! ## The accumulators of the loop -/

theorem Precedes.trans {c : TaskEvent} (h : Precedes a b) (h' : Precedes b c) : Precedes a c := by
  unfold Precedes at *
  omega

/-- The better of two requests is the lower one. -/
theorem betterCandidate_spec (a b : TaskEvent) :
    (Precedes a b ∧ betterCandidate (some a.toCandidate) b.toCandidate = a.toCandidate) ∨
      (Precedes b a ∧ betterCandidate (some a.toCandidate) b.toCandidate = b.toCandidate) := by
  by_cases hhlc : b.hlc < a.hlc
  · exact .inr ⟨.inl hhlc, if_pos hhlc⟩
  by_cases hseq : b.hlc = a.hlc ∧ b.seq < a.seq
  · exact .inr ⟨.inr ⟨hseq.1, le_of_lt hseq.2⟩, (if_neg hhlc).trans (if_pos hseq)⟩
  · refine .inl ⟨?_, (if_neg hhlc).trans (if_neg hseq)⟩
    unfold Precedes
    omega

section
variable {p q : TaskEvent → Prop} {best : Option Candidate}

theorem Lowest.congr (h : Lowest p events best) (hpq : ∀ ev ∈ events, (p ev ↔ q ev)) :
    Lowest q events best := by
  cases best with
  | none =>
    intro ev hev hq
    exact h ev hev ((hpq ev hev).mpr hq)
  | some cand =>
    obtain ⟨ev, hmem, hp, hcand, hlow⟩ := h
    refine ⟨ev, hmem, (hpq ev hmem).mp hp, hcand, ?_⟩
    intro other hother hq
    exact hlow other hother ((hpq other hother).mpr hq)

theorem Lowest.miss (h : Lowest p events best) (hx : ¬ p x) : Lowest p (events ++ [x]) best := by
  cases best with
  | none =>
    intro ev hev
    rcases mem_append.mp hev with hold | hnew
    · exact h ev hold
    · rwa [mem_singleton.mp hnew]
  | some cand =>
    obtain ⟨ev, hmem, hp, hcand, hlow⟩ := h
    refine ⟨ev, mem_append_left _ hmem, hp, hcand, ?_⟩
    intro other hother hpother
    rcases mem_append.mp hother with hold | hnew
    · exact hlow other hold hpother
    · rw [mem_singleton.mp hnew] at hpother
      exact absurd hpother hx

/-- One more event with the property is compared with the best so far. -/
theorem Lowest.hit (h : Lowest p events best) (hx : p x) :
    Lowest p (events ++ [x]) (some (betterCandidate best x.toCandidate)) := by
  have hlast : x ∈ events ++ [x] := mem_append_right _ (mem_singleton_self x)
  have hself : Precedes x x := .inr ⟨rfl, le_refl _⟩
  cases best with
  | none =>
    refine ⟨x, hlast, hx, rfl, ?_⟩
    intro other hother hpother
    rcases mem_append.mp hother with hold | hnew
    · exact absurd hpother (h other hold)
    · rwa [mem_singleton.mp hnew]
  | some cand =>
    obtain ⟨ev, hmem, hp, rfl, hlow⟩ := h
    rcases betterCandidate_spec ev x with ⟨hle, heq⟩ | ⟨hle, heq⟩
    · refine ⟨ev, mem_append_left _ hmem, hp, heq.symm, ?_⟩
      intro other hother hpother
      rcases mem_append.mp hother with hold | hnew
      · exact hlow other hold hpother
      · rwa [mem_singleton.mp hnew]
    · refine ⟨x, hlast, hx, heq.symm, ?_⟩
      intro other hother hpother
      rcases mem_append.mp hother with hold | hnew
      · exact hle.trans (hlow other hold hpother)
      · rwa [mem_singleton.mp hnew]

theorem Lowest.unique {best' : Option Candidate} (ho : Ordered events) (h : Lowest p events best)
    (h' : Lowest p events best') : best = best' := by
  cases best with
  | none =>
    cases best' with
    | none => rfl
    | some cand =>
      obtain ⟨ev, hmem, hp, -, -⟩ := h'
      exact absurd hp (h ev hmem)
  | some cand =>
    obtain ⟨ev, hmem, hp, rfl, hlow⟩ := h
    cases best' with
    | none => exact absurd hp (h' ev hmem)
    | some cand' =>
      obtain ⟨ev', hmem', hp', rfl, hlow'⟩ := h'
      have hle := hlow ev' hmem' hp'
      have hge := hlow' ev hmem hp
      have hseq : ev.seq = ev'.seq := by
        unfold Precedes at hle hge
        omega
      by_contra hne
      exact hne (by rw [ho.eq_of_seq hmem hmem' hseq])

end

/-- The candidate that the loop keeps for a task in this state. -/
def Fold.best (fold : Fold) : Option Candidate :=
  match fold.grant with
  | none => fold.bestEpoch
  | some _ => fold.bestAfterGrant

/-- What the accumulators are after some events. -/
structure Tracks (events : List TaskEvent) (seen : Seen) (fold : Fold) : Prop where
  epochStart : fold.epochStart = startOf seen.boundary
  baseState : fold.baseState = baseOf seen.boundary
  grant : fold.grant = seen.authority.map TaskEvent.toGrant
  requests : fold.requests = events.countP (fun ev => Requests seen.boundary ev)
  best : Lowest (Waiting seen.boundary seen.authority) events fold.best

/-- Every event is after the start of its epoch and after the grant in force. -/
structure Later (seen : Seen) (events : List TaskEvent) : Prop where
  start : ∀ b, seen.boundary = some b → b ∈ events
  grant : ∀ g, seen.authority = some g → g ∈ events ∧ startOf seen.boundary < g.seq

theorem later_lookAll (ho : Ordered events) : Later (lookAll events) events := by
  obtain ⟨hboundary, hauthority⟩ := look_latest ho (prefix_refl events)
  constructor
  · intro b hb
    rw [hb] at hboundary
    exact hboundary.mem.1
  · intro g hg
    rw [hg] at hauthority
    exact ⟨hauthority.mem.1, hauthority.mem.2.1⟩

/-- The new event is after the grant in force. -/
theorem Later.grant_lt (h : Later (lookAll events) events) (ho : Ordered (events ++ [x]))
    {g : TaskEvent} (hg : (lookAll events).authority = some g) :
    g.seq < x.seq ∧ startOf (lookAll events).boundary < x.seq := by
  obtain ⟨hmem, hlt⟩ := h.grant g hg
  have hgx := ho.last hmem
  exact ⟨hgx, lt_trans hlt hgx⟩

namespace Tracks

variable {fold : Fold} {s : Seen}

/-- An event that ends the epoch. -/
theorem restart (ho : Ordered (events ++ [x])) (base : State) (hbase : base = baseOf (some x)) :
    Tracks (events ++ [x]) ⟨some x, none⟩ (.restart x.seq base) := by
  have hnone : ∀ ev ∈ events ++ [x], ¬ Requests (some x) ev := by
    rintro ev hev ⟨-, hlt⟩
    have hlt : x.seq < ev.seq := hlt
    rcases mem_append.mp hev with hold | hnew
    · have := ho.last hold
      omega
    · rw [mem_singleton.mp hnew] at hlt
      omega
  refine ⟨rfl, hbase, rfl, ?_, ?_⟩
  · refine (countP_eq_zero.mpr ?_).symm
    intro ev hev hreq
    exact hnone ev hev (of_decide_eq_true hreq)
  · intro ev hev hwaiting
    exact hnone ev hev hwaiting.1

theorem count_miss (hx : ¬ Requests s.boundary x) :
    (events ++ [x]).countP (fun ev => Requests s.boundary ev) =
      events.countP (fun ev => Requests s.boundary ev) := by
  rw [countP_append, countP_cons_of_neg (by simpa using hx), countP_nil,
    add_zero]

/-- An event that the loop skips and the rules ignore. -/
theorem skip (h : Tracks events s fold) (hx : ¬ Requests s.boundary x) :
    Tracks (events ++ [x]) s fold where
  epochStart := h.epochStart
  baseState := h.baseState
  grant := h.grant
  requests := by rw [count_miss hx, h.requests]
  best := h.best.miss (fun hwaiting => hx hwaiting.1)

section
variable (h : Tracks events s fold)
include h

/-- A request of the epoch. -/
theorem request (hx : Requests s.boundary x) (hg : ∀ g, s.authority = some g → g.seq < x.seq) :
    Tracks (events ++ [x]) s (fold.request x.toCandidate) := by
  obtain ⟨hgrant, hepoch, hbase⟩ := request_grant fold x.toCandidate
  have hcount : (fold.request x.toCandidate).requests = fold.requests + 1 := by
    rw [Fold.request]
    split <;> rfl
  have hbest : (fold.request x.toCandidate).best =
      some (betterCandidate fold.best x.toCandidate) := by
    rw [Fold.best, hgrant, Fold.request, Fold.best]
    cases fold.grant <;> rfl
  refine ⟨hepoch.trans h.epochStart, hbase.trans h.baseState, hgrant.trans h.grant, ?_, ?_⟩
  · rw [hcount, h.requests, countP_append, countP_cons_of_pos (by simpa using hx),
      countP_nil]
  · rw [hbest]
    exact h.best.hit ⟨hx, hg⟩

/-- A grant that gets authority. -/
theorem take (ho : Ordered (events ++ [x])) (hkind : x.kind = .grant) :
    Tracks (events ++ [x]) ⟨s.boundary, some x⟩ (fold.take x.toGrant) := by
  have hx : ¬ Requests s.boundary x := by
    rintro ⟨hreq, -⟩
    cases hkind.symm.trans hreq
  refine ⟨h.epochStart, h.baseState, rfl, ?_, ?_⟩
  · exact h.requests.trans (count_miss hx).symm
  · intro ev hev hwaiting
    have hlt : x.seq < ev.seq := hwaiting.2 x rfl
    rcases mem_append.mp hev with hold | hnew
    · have := ho.last hold
      omega
    · rw [mem_singleton.mp hnew] at hlt
      omega

/-- The grant that the loop holds. -/
theorem grant_of (ha : s.authority = authority) : fold.grant = authority.map TaskEvent.toGrant := by
  rw [h.grant, ha]

theorem step_grant (ho : Ordered (events ++ [x]))
    (hkind : x.kind = .grant) (hstart : startOf s.boundary < x.seq) :
    Tracks (events ++ [x]) (look s x) (foldEvent fold x) := by
  have hskip : ¬ (x.kind ≠ .opened ∧ x.seq ≤ fold.epochStart) := by
    rintro ⟨-, hle⟩
    rw [h.epochStart] at hle
    omega
  have hends : ¬ Ends s.authority x := by
    intro hends
    rcases hends.kind with hother | hother | hother
    all_goals cases hkind.symm.trans hother
  rw [look, if_neg hends, foldEvent, if_neg hskip, hkind]
  cases ha : s.authority with
  | none =>
    rw [h.grant_of ha, if_pos ⟨hstart, hkind, by rintro g ⟨⟩⟩]
    exact h.take ho hkind
  | some g =>
    rw [h.grant_of ha]
    show Tracks _ _ (if g.leaseExpiresMs ≤ x.atMs then fold.take x.toGrant else fold)
    by_cases hexpired : g.leaseExpiresMs ≤ x.atMs
    · rw [if_pos hexpired, if_pos ⟨hstart, hkind, fun g' hg' => Option.some.inj hg' ▸ hexpired⟩]
      exact h.take ho hkind
    · rw [if_neg hexpired, if_neg (fun hhonoured => hexpired (hhonoured.2.2 g rfl))]
      exact h.skip (fun hreq => by cases hkind.symm.trans hreq.1)

/-- An event that is no open, no request and no grant: it ends the epoch or does
nothing. -/
theorem step_end (ho : Ordered (events ++ [x])) {base : State}
    (hkind : x.kind = .release ∧ base = .released ∨ x.kind = .superseded ∧ base = .opened)
    (hfold : foldEvent fold x =
      match s.authority with
      | none => fold
      | some g => if Ends (some g) x then .restart x.seq base else fold) :
    Tracks (events ++ [x]) (look s x) (foldEvent fold x) := by
  have hhonoured : ¬ (startOf s.boundary < x.seq ∧ Honoured s.authority x) := by
    rintro ⟨-, hgrant, -⟩
    rcases hkind with ⟨hother, -⟩ | ⟨hother, -⟩
    all_goals cases hgrant.symm.trans hother
  have hquiet : ¬ Requests s.boundary x := by
    rintro ⟨hreq, -⟩
    rcases hkind with ⟨hother, -⟩ | ⟨hother, -⟩
    all_goals cases hreq.symm.trans hother
  have hbase : base = baseOf (some x) := by
    rcases hkind with ⟨hother, rfl⟩ | ⟨hother, rfl⟩
    · exact (if_pos hother).symm
    · exact (if_neg (by rw [hother]; decide)).symm
  rw [hfold, look, if_neg hhonoured]
  cases ha : s.authority with
  | none =>
    have hends : ¬ Ends none x := by
      rintro (hopened | ⟨g, hg, -⟩)
      · rcases hkind with ⟨hother, -⟩ | ⟨hother, -⟩
        all_goals cases hopened.symm.trans hother
      · cases hg
    rw [if_neg hends]
    exact h.skip hquiet
  | some g =>
    by_cases hends : Ends (some g) x
    · rw [if_pos hends]
      dsimp only
      rw [if_pos hends]
      exact restart ho base hbase
    · rw [if_neg hends]
      dsimp only
      rw [if_neg hends]
      exact h.skip hquiet

end

/-- **One event changes the accumulators as the rules say.** -/
theorem step (h : Tracks events (lookAll events) fold) (ho : Ordered (events ++ [x])) :
    Tracks (events ++ [x]) (look (lookAll events) x) (foldEvent fold x) := by
  have hlater : Later (lookAll events) events :=
    later_lookAll (ho.front (prefix_append events [x]))
  generalize hs : lookAll events = s at h
  have hinside : ∀ g, s.authority = some g → g.seq < x.seq ∧ startOf s.boundary < x.seq := by
    intro g hg
    rw [← hs] at hg ⊢
    exact hlater.grant_lt ho hg
  by_cases hskip : x.kind ≠ .opened ∧ x.seq ≤ fold.epochStart
  · -- before the epoch, so there is no grant
    have hle : x.seq ≤ startOf s.boundary := h.epochStart ▸ hskip.2
    have hends : ¬ Ends s.authority x := by
      rintro (hopened | ⟨g, hg, -⟩)
      · exact hskip.1 hopened
      · have := (hinside g hg).2
        omega
    rw [foldEvent, if_pos hskip, look, if_neg hends,
      if_neg (fun hgrant => Nat.not_lt.mpr hle hgrant.1)]
    exact h.skip (fun hreq => Nat.not_lt.mpr hle hreq.2)
  have hstart : x.kind ≠ .opened → startOf s.boundary < x.seq := by
    intro hkind
    by_contra hle
    exact hskip ⟨hkind, h.epochStart ▸ Nat.not_lt.mp hle⟩
  cases hkind : x.kind with
  | opened =>
    -- an epoch starts over
    have hends : Ends s.authority x := .inl hkind
    rw [look, if_pos hends, foldEvent, if_neg hskip, hkind]
    exact restart ho .opened (if_neg (by rw [hkind]; decide)).symm
  | request =>
    -- a request ends no grant
    have hends : ¬ Ends s.authority x := by
      intro hends
      rcases hends.kind with hother | hother | hother
      all_goals cases hkind.symm.trans hother
    have hhonoured : ¬ (startOf s.boundary < x.seq ∧ Honoured s.authority x) := by
      rintro ⟨-, hgrant, -⟩
      cases hkind.symm.trans hgrant
    rw [look, if_neg hends, if_neg hhonoured, foldEvent, if_neg hskip, hkind]
    exact h.request ⟨hkind, hstart (by rw [hkind]; decide)⟩ (fun g hg => (hinside g hg).1)
  | grant => exact h.step_grant ho hkind (hstart (by rw [hkind]; decide))
  | release =>
    refine h.step_end ho (.inl ⟨hkind, rfl⟩) ?_
    rw [foldEvent, if_neg hskip, hkind]
    cases ha : s.authority with
    | none => rw [h.grant_of ha]; rfl
    | some g =>
      -- only the winner releases
      have hiff : Ends (some g) x ↔ x.by_ = g.winner := by simp [Ends, hkind]
      rw [h.grant_of ha]
      show (if x.by_ ≠ g.winner then fold else _) = _
      rw [ite_not]
      simp only [hiff]
  | superseded =>
    refine h.step_end ho (.inr ⟨hkind, rfl⟩) ?_
    rw [foldEvent, if_neg hskip, hkind]
    cases ha : s.authority with
    | none => rw [h.grant_of ha]; rfl
    | some g =>
      -- only the grant it names is superseded
      have hiff : Ends (some g) x ↔ x.staleSeq = g.seq := by simp [Ends, hkind]
      rw [h.grant_of ha]
      show (if x.staleSeq ≠ g.seq then fold else _) = _
      rw [ite_not]
      simp only [hiff]

/-- The end of the loop reads the accumulators as the rules read the log. -/
theorem outcome (h : Tracks events s fold) (nowMs : Nat) :
    Outcome events s.boundary s.authority nowMs (fold.toState nowMs) := by
  have hbest := h.best
  rw [Fold.best] at hbest
  cases ha : s.authority with
  | none =>
    have hgrant : fold.grant = none := h.grant_of ha
    rw [hgrant, ha] at hbest
    rw [Fold.toState, hgrant]
    refine ⟨h.epochStart, h.requests, fun _ => ⟨h.baseState, rfl, rfl, rfl, rfl, rfl⟩,
      fun g hg => (nomatch hg), hbest.congr ?_⟩
    intro ev _
    exact ⟨fun hw => ⟨hw, fun g hg => (nomatch hg)⟩, fun hw => hw.1⟩
  | some g =>
    have hgrant : fold.grant = some g.toGrant := h.grant_of ha
    rw [hgrant, ha] at hbest
    rw [Fold.toState, hgrant]
    show Outcome _ _ _ _ (if g.leaseExpiresMs > nowMs then _ else _)
    by_cases hrunning : nowMs < g.leaseExpiresMs
    · rw [if_pos hrunning]
      refine ⟨h.epochStart, h.requests, fun hnone => (nomatch hnone), ?_, ?_⟩
      · intro g' hg'
        cases hg'
        exact ⟨(if_pos hrunning).symm, rfl, rfl, rfl, rfl, rfl⟩
      · intro ev _ hev
        have := hev.2 g rfl
        omega
    · rw [if_neg hrunning]
      refine ⟨h.epochStart, h.requests, fun hnone => (nomatch hnone), ?_, hbest.congr ?_⟩
      · intro g' hg'
        cases hg'
        exact ⟨(if_neg hrunning).symm, rfl, rfl, rfl, rfl, rfl⟩
      · intro ev _
        refine ⟨fun hw => ⟨hw, ?_⟩, fun hw => hw.1⟩
        intro g' hg'
        exact Option.some.inj hg' ▸ Nat.not_lt.mp hrunning

end Tracks

theorem tracks_foldl (ho : Ordered events) :
    Tracks events (lookAll events) (events.foldl foldEvent .init) := by
  induction events using List.reverseRecOn with
  | nil => exact ⟨rfl, rfl, rfl, rfl, fun ev hev => (nomatch hev)⟩
  | append_singleton events x ih =>
    rw [lookAll_concat, foldl_concat]
    exact (ih (ho.front (prefix_append events [x]))).step ho

/-! ## The state -/

/-- The rules leave no choice. -/
theorem Outcome.unique {boundary : Option TaskEvent} {nowMs : Nat} {st st' : TaskState}
    (ho : Ordered events) (h : Outcome events boundary authority nowMs st)
    (h' : Outcome events boundary authority nowMs st') : st = st' := by
  have hcandidate := h.candidate.unique ho h'.candidate
  have hstart := h.epochStartSeq.trans h'.epochStartSeq.symm
  have hrequests := h.requests.trans h'.requests.symm
  cases st
  cases st'
  cases authority with
  | none =>
    obtain ⟨h1, h2, h3, h4, h5, h6⟩ := h.free rfl
    obtain ⟨h1', h2', h3', h4', h5', h6'⟩ := h'.free rfl
    simp_all
  | some g =>
    obtain ⟨h1, h2, h3, h4, h5, h6⟩ := h.held g rfl
    obtain ⟨h1', h2', h3', h4', h5', h6'⟩ := h'.held g rfl
    simp_all

/-- **`foldTask` gives the state that the rules give.**  The boundary and the
authority are determined at every point of the log, and at a time after the last
event they determine the state. -/
theorem foldTask_eq_iff (ho : events.Pairwise (fun a b => a.seq < b.seq)) :
    ∃ hist : History, (∀ other : History, Rules events other ↔ other = hist) ∧
      ∀ t, (∀ ev ∈ events, ev.seq < t) → ∀ (nowMs : Nat) (st : TaskState),
        foldTask events nowMs = st ↔
          Outcome events (hist.boundary t) (hist.authority t) nowMs st := by
  refine ⟨historyOf events, rules_iff ho, ?_⟩
  intro t ht nowMs st
  have hseen : lookAll (before events t) = lookAll events := by rw [before_all ht]
  have houtcome : Outcome events ((historyOf events).boundary t) ((historyOf events).authority t)
      nowMs (foldTask events nowMs) := by
    have h := (tracks_foldl ho).outcome nowMs
    rwa [← hseen] at h
  constructor
  · rintro rfl
    exact houtcome
  · intro h
    exact houtcome.unique ho h

/-- Two requests, the grant of the lower one, and one more request. -/
def contendedTask : List TaskEvent :=
  [⟨1, .opened, 10, [], 0, 0, [], 0, 0, 0, 0⟩,
   ⟨2, .request, 11, ascii "b", 9, 50, [], 0, 0, 0, 0⟩,
   ⟨4, .request, 12, ascii "a", 7, 50, [], 0, 0, 0, 0⟩,
   ⟨5, .grant, 12, [], 0, 0, ascii "a", 7, 4, 62, 0⟩,
   ⟨8, .request, 13, ascii "b", 13, 50, [], 0, 0, 0, 0⟩]

theorem foldTask_contended :
    ∃ hist : History, Rules contendedTask hist ∧
      Outcome contendedTask (hist.boundary 9) (hist.authority 9) 62
        ⟨.expired, ascii "a", 7, 5, 4, 62, 3, some ⟨8, 13, ascii "b", 50⟩, 1⟩ := by
  obtain ⟨hist, hrules, houtcome⟩ := @foldTask_eq_iff contendedTask (by decide)
  refine ⟨hist, (hrules hist).mpr rfl, ?_⟩
  exact (houtcome 9 (by decide) 62 _).mp (by decide +kernel)

end Coordination
end WormDB
