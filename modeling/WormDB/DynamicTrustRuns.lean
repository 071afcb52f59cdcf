import WormDB.DynamicTrust

/-! # Runs of dynamic trust

`Settled` is what a revocation leaves behind once it has moved the generation on: its
event is on the log, every fold that is under way under the new generation will see the
event, and a cache of the new generation lacks the grant.  Every transition keeps it
(`Settled.move`), since the generation is read before the log, and the event lands before
the generation moves. -/
namespace WormDB
open List ByteCodec
open Function (update_apply)

namespace TrustLog

variable {ed25519 : Ed25519} {ourOrg : OrgKey} {readable : TrustEventJson → Bool} {ttlMs : UInt64}
  {sys sys' : System}

/-! ## Logs -/

theorem setCall_calls (sys : System) (id : Nat) (phase : Phase) (i : Nat) :
    (sys.setCall id phase).calls i = if i = id then phase else sys.calls i :=
  update_apply _ _ _ _

/-- Records are numbered from one. -/
structure Numbered (sys : System) : Prop where
  numbered : ∀ org i entry, (sys.logs org)[i]? = some entry → entry.seq.toNat = i + 1
  short : ∀ org, (sys.logs org).length < 2 ^ 64

variable {org : OrgKey}

theorem Numbered.push (h : Numbered sys) (json : Option TrustEventJson)
    (hroom : (sys.logs org).length + 1 < 2 ^ 64) : Numbered (sys.push org json) where
  numbered := by
    intro o i entry hentry
    simp only [System.push, update_apply] at hentry
    split at hentry
    · rename_i heq
      subst heq
      rcases lt_or_ge i (sys.logs o).length with hi | hi
      · rw [getElem?_append_left hi] at hentry
        exact h.numbered o i entry hentry
      · rw [getElem?_append_right hi] at hentry
        obtain ⟨hlt, heq⟩ := List.getElem?_eq_some_iff.mp hentry
        rw [length_singleton] at hlt
        have hi' : i = (sys.logs o).length := by omega
        simp only [hi', Nat.sub_self, getElem_cons_zero] at heq
        rw [← heq, hi', System.nextSeq, UInt64.toNat_ofNat_of_lt' hroom]
    · exact h.numbered o i entry hentry
  short := by
    intro o
    simp only [System.push, update_apply]
    split
    · rename_i heq
      subst heq
      rw [length_append, length_singleton]
      exact hroom
    · exact h.short o

theorem Numbered.seq_lt (h : Numbered sys) (org : OrgKey) :
    (sys.logs org).Pairwise (fun a b => a.seq < b.seq) := by
  rw [pairwise_iff_getElem]
  intro i j hi hj hij
  have ha := h.numbered org i _ (getElem?_eq_getElem hi)
  have hb := h.numbered org j _ (getElem?_eq_getElem hj)
  rw [UInt64.lt_iff_toNat_lt]
  omega

variable {seen : List LogEntry}

/-- What a scan sees is in the order of the numbers. -/
theorem Numbered.ascending (h : Numbered sys)
    (hseen : seen.Sublist (sys.logs org)) : Ascending (trustEvents seen) := by
  refine Pairwise.filterMap _ (fun v w hlt a ha b hb => ?_) ((h.seq_lt org).sublist hseen)
  rw [LogEntry.event_seq ha, LogEntry.event_seq hb]
  exact hlt

/-! ## What only grows -/

/-- The generation and the logs of the second state continue those of the first. -/
structure Grows (sys sys' : System) : Prop where
  generation : sys.generation ≤ sys'.generation
  logs : ∀ org, sys.logs org <+: sys'.logs org

theorem Grows.of_eq (hgeneration : sys'.generation = sys.generation) (hlogs : sys'.logs = sys.logs) :
    Grows sys sys' :=
  ⟨le_of_eq hgeneration.symm, fun org => by rw [hlogs]⟩

theorem push_logs (sys : System) (org : OrgKey) (json : Option TrustEventJson) (o : OrgKey) :
    sys.logs o <+: (sys.push org json).logs o := by
  simp only [System.push, update_apply]
  split
  · rename_i heq
    subst heq
    exact prefix_append _ _
  · exact prefix_rfl

theorem Move.grows (h : Move ed25519 ourOrg sys sys') : Grows sys sys' := by
  cases h with
  | push org json _ => exact ⟨le_refl _, push_logs sys org json⟩
  | granted id org _ json _ _ => exact ⟨le_refl _, push_logs sys org json⟩
  | appended id r payload _ _ => exact ⟨le_refl _, push_logs sys r.fromOrg (some payload)⟩
  | bump => exact ⟨Nat.le_succ _, fun org => prefix_rfl⟩
  | _ => exact Grows.of_eq rfl rfl

variable {entry : LogEntry}

theorem Grows.mem_logs (h : Grows sys sys')
    (hmem : entry ∈ sys.logs org) : entry ∈ sys'.logs org := (h.logs org).subset hmem

theorem Grows.mem_events (h : Grows sys sys') {ev : TrustEvent}
    (hmem : ev ∈ trustEvents (sys.logs org)) : ev ∈ trustEvents (sys'.logs org) := by
  obtain ⟨entry, hentry, hev⟩ := mem_filterMap.mp hmem
  exact mem_filterMap.mpr ⟨entry, h.mem_logs hentry, hev⟩

theorem Numbered.move (h : Numbered sys) (hmove : Move ed25519 ourOrg sys sys') :
    Numbered sys' := by
  cases hmove with
  | push org json hroom => exact h.push json hroom
  | granted id org _ json _ hroom =>
    have hpush := h.push json hroom
    exact ⟨hpush.numbered, hpush.short⟩
  | appended id r payload _ hroom =>
    have hpush := h.push (some payload) hroom
    exact ⟨hpush.numbered, hpush.short⟩
  | _ => exact ⟨h.numbered, h.short⟩

/-! ## The lock -/

def Phase.holds : Phase → Bool
  | .locked .. | .refolding .. | .scanning .. | .folding .. | .answering .. => true
  | _ => false

def Mutex (sys : System) : Prop := ∀ id, (sys.calls id).holds → sys.holder = some id

variable {phase : Phase} {q : Query} {now : UInt64}

theorem Phase.refolds.holds (h : phase.refolds q now) : phase.holds = true := by
  rcases h with ⟨_, rfl⟩ | ⟨_, _, rfl⟩ | ⟨_, _, rfl⟩ <;> rfl

theorem Mutex.setCall (h : Mutex sys) {id : Nat} {phase : Phase}
    (hphase : phase.holds → (sys.calls id).holds) : Mutex (sys.setCall id phase) := by
  intro i hi
  rw [setCall_calls] at hi
  split at hi
  · rename_i heq
    subst heq
    exact h i (hphase hi)
  · exact h i hi

variable {id : Nat}

/-- A call that holds the lock ends. -/
theorem Mutex.answer (h : Mutex sys) (hholds : (sys.calls id).holds) (q : Query)
    (now : UInt64) (answer : Bool) : Mutex (sys.answer id q now answer) := by
  intro i hi
  have hi' : ((sys.setCall id (.answered q now answer)).calls i).holds := hi
  rw [setCall_calls] at hi'
  split at hi'
  · cases hi'
  · rename_i hne
    -- only one call holds the lock
    have hsame := (h i hi').symm.trans (h id hholds)
    exact absurd (Option.some.inj hsame) hne

theorem Mutex.move (h : Mutex sys) (hmove : Move ed25519 ourOrg sys sys') : Mutex sys' := by
  cases hmove with
  | stay | push => exact h
  | plain id phase _ hplain =>
    apply h.setCall
    intro hholds
    cases phase <;> simp_all [Phase.plain, Phase.holds]
  | granted id => exact @Mutex.setCall sys h id (.granted _) nofun
  | finding id args r => exact h.setCall nofun
  | revoking id args r _ payload => exact h.setCall nofun
  | appended id r => exact @Mutex.setCall sys h id (.appended r) nofun
  | bump id r => exact @Mutex.setCall sys h id (.revoked r) nofun
  | lock id q now hphase hholder =>
    intro i hi
    have hi' : ((sys.setCall id (.locked q now)).calls i).holds := hi
    rw [setCall_calls] at hi'
    split at hi'
    · rename_i heq
      rw [heq]
    · have hnone := h i hi'
      cases hholder.symm.trans hnone
  | reuse id q now _ hphase => exact h.setCall (fun _ => by rw [hphase]; rfl)
  | refold id q now hphase => exact h.setCall (fun _ => by rw [hphase]; rfl)
  | scan id q now generation hphase => exact h.setCall (fun _ => by rw [hphase]; rfl)
  | scanned id q now generation start seen hphase => exact h.setCall (fun _ => by rw [hphase]; rfl)
  | store id q now generation seen hphase =>
    exact @Mutex.setCall sys h id (.answering q now) (fun _ => by rw [hphase]; rfl)
  | answer id q now hphase => exact h.answer (by rw [hphase]; rfl) q now _
  | deny id q now hphase => exact h.answer hphase.holds q now false

/-! ## What a fold leaves out -/

def Revocation.names (r : Revocation) (cap : Capability) : Prop :=
  cap.grantSeq = r.grantSeq ∧ cap.toOrg = r.toOrg

/-- The record is the revocation, after the grant it names. -/
def OnLog (ed25519 : Ed25519) (sys : System) (r : Revocation) (entry : LogEntry) : Prop :=
  entry ∈ sys.logs r.fromOrg ∧
    ∃ ev, entry.event = some ev ∧ r.MadeBy ed25519 ev ∧ r.grantSeq < ev.seq

variable {r : Revocation}

theorem OnLog.grows (h : OnLog ed25519 sys r entry)
    (hgrows : Grows sys sys') : OnLog ed25519 sys' r entry :=
  ⟨hgrows.mem_logs h.1, h.2⟩

variable {cap : Capability}

/-- Every capability of a fold comes from a valid grant that was seen. -/
theorem fold_from (hlog : Numbered sys) (hseen : seen.Sublist (sys.logs org))
    (hcap : cap ∈ (foldTrust ed25519 ourOrg (trustEvents seen) now).capabilities) :
    ∃ ev ∈ trustEvents seen, ValidGrant ed25519 ourOrg ev ∧ cap = ev.capability := by
  obtain ⟨⟨before, grant, after, heq, hvalid, hcapability, -⟩, -⟩ :=
    (mem_capabilities_iff (hlog.ascending hseen)).mp hcap
  refine ⟨grant, ?_, hvalid, hcapability⟩
  rw [heq]
  exact mem_append_right _ (mem_cons_self ..)

/-- **A fold that sees the revocation lacks the grant.** -/
theorem fold_lacks (hlog : Numbered sys) (honLog : OnLog ed25519 sys r entry)
    (hseen : seen.Sublist (sys.logs r.fromOrg)) (hentry : entry ∈ seen)
    (hcap : cap ∈ (foldTrust ed25519 r.fromOrg (trustEvents seen) now).capabilities) :
    ¬ r.names cap := by
  rintro ⟨hseq, horg⟩
  obtain ⟨-, ev, hev, ⟨hvalid, hnamed, hto⟩, hafter⟩ := honLog
  have hascending := hlog.ascending hseen
  obtain ⟨⟨before, grant, after, heq, -, rfl, hnone⟩, -⟩ := (mem_capabilities_iff hascending).mp hcap
  have hmem : ev ∈ trustEvents seen := mem_filterMap.mpr ⟨entry, hentry, hev⟩
  rw [heq] at hmem hascending
  have hlt : grant.seq < ev.seq := by
    have hgrant : grant.seq = r.grantSeq := hseq
    rw [hgrant]
    exact hafter
  obtain ⟨-, -, hbefore⟩ := pairwise_append.mp hascending
  rcases mem_append.mp hmem with hmem | hmem
  · exact UInt64.lt_asymm hlt (hbefore ev hmem grant (mem_cons_self ..))
  rcases mem_cons.mp hmem with rfl | hmem
  · exact UInt64.lt_irrefl _ hlt
  · exact hnone ev hmem ⟨hvalid, hnamed.trans hseq.symm, hto.trans horg.symm⟩

/-! ## The invariant -/

section Invariant
variable (ed25519 ourOrg)

/-- The event is on the log, the generation has moved on since, and whatever is under the
new generation knows of it. -/
structure Settled (sys : System) (r : Revocation) (generation : Nat) (entry : LogEntry) : Prop where
  bumped : generation ≤ sys.generation
  onLog : OnLog ed25519 sys r entry
  scanning : ∀ id q now g start, sys.calls id = .scanning q now g start → generation ≤ g →
    entry ∈ (sys.logs ourOrg).take start
  folding : ∀ id q now g seen, sys.calls id = .folding q now g seen → generation ≤ g → entry ∈ seen
  cached : ∀ cache, sys.cache = some cache → generation ≤ cache.generation →
    ∀ cap ∈ cache.caps, ¬ r.names cap

/-- What a phase has established. -/
def PhaseOk (sys : System) : Phase → Prop
  | .finding args r => revokeCheck args = .ok r
  | .revoking r payload => (∃ entry ∈ sys.logs r.fromOrg, entry.seq = r.grantSeq) ∧
      ∀ seq, ∃ ev, payload.event seq = some ev ∧ r.MadeBy ed25519 ev
  | .appended r => ∃ entry, OnLog ed25519 sys r entry
  | .refolding _ _ g => g ≤ sys.generation
  | .scanning _ _ g _ => g ≤ sys.generation
  | .folding _ _ g seen => g ≤ sys.generation ∧ seen.Sublist (sys.logs ourOrg)
  | _ => True

/-- A cache is of a generation that was, and its capabilities come from grants. -/
def CacheOk (sys : System) : Prop :=
  ∀ cache, sys.cache = some cache → cache.generation ≤ sys.generation ∧
    ∀ cap ∈ cache.caps, ∃ ev ∈ trustEvents (sys.logs ourOrg),
      ValidGrant ed25519 ourOrg ev ∧ cap = ev.capability

structure Inv (sys : System) : Prop where
  log : Numbered sys
  mutex : Mutex sys
  phases : ∀ id, PhaseOk ed25519 ourOrg sys (sys.calls id)
  cache : CacheOk ed25519 ourOrg sys
  revoked : ∀ id r, sys.calls id = .revoked r → r.fromOrg = ourOrg →
    ∃ generation entry, Settled ed25519 ourOrg sys r generation entry

end Invariant

theorem PhaseOk.grows (h : PhaseOk ed25519 ourOrg sys phase)
    (hgrows : Grows sys sys') : PhaseOk ed25519 ourOrg sys' phase := by
  cases phase with
  | finding args r => exact h
  | revoking r payload =>
    obtain ⟨⟨entry, hentry, hseq⟩, hpayload⟩ := h
    exact ⟨⟨entry, hgrows.mem_logs hentry, hseq⟩, hpayload⟩
  | appended r =>
    obtain ⟨entry, hentry⟩ := h
    exact ⟨entry, hentry.grows hgrows⟩
  | refolding q now g => exact le_trans h hgrows.generation
  | scanning q now g start => exact le_trans h hgrows.generation
  | folding q now g seen =>
    exact ⟨le_trans h.1 hgrows.generation, h.2.trans (hgrows.logs ourOrg).sublist⟩
  | _ => trivial

/-! ## One transition -/

/-- The record of the append. -/
theorem push_mem (sys : System) (org : OrgKey) (json : Option TrustEventJson) :
    ⟨sys.nextSeq org, json⟩ ∈ (sys.push org json).logs org := by
  simp only [System.push, Function.update_self]
  exact mem_append_right _ (mem_singleton_self _)

/-- The event of a revocation lands behind the grant that its scan has found. -/
theorem appended_onLog (hlog : Numbered sys) {payload : TrustEventJson}
    (hphase : PhaseOk ed25519 ourOrg sys (.revoking r payload))
    (hroom : (sys.logs r.fromOrg).length + 1 < 2 ^ 64) :
    OnLog ed25519 (sys.push r.fromOrg (some payload)) r ⟨sys.nextSeq r.fromOrg, some payload⟩ := by
  obtain ⟨⟨grant, hgrant, hseq⟩, hpayload⟩ := hphase
  obtain ⟨ev, hev, hmade⟩ := hpayload (sys.nextSeq r.fromOrg)
  have hentry : (⟨sys.nextSeq r.fromOrg, some payload⟩ : LogEntry).event = some ev := hev
  refine ⟨push_mem sys r.fromOrg _, ev, hentry, hmade, ?_⟩
  obtain ⟨i, hi, hget⟩ := getElem_of_mem hgrant
  have hnumber := hlog.numbered r.fromOrg i grant (by rw [getElem?_eq_getElem hi, hget])
  rw [LogEntry.event_seq hentry, ← hseq, UInt64.lt_iff_toNat_lt, hnumber, System.nextSeq,
    UInt64.toNat_ofNat_of_lt' hroom]
  omega

/-- Each call that moves establishes what its new phase says. -/
theorem Inv.phases_move (h : Inv ed25519 ourOrg sys) (hmove : Move ed25519 ourOrg sys sys') (i : Nat) :
    PhaseOk ed25519 ourOrg sys' (sys'.calls i) := by
  have hgrows := hmove.grows
  -- a call that does not move keeps what it has
  have hkeep : ∀ id phase, sys'.calls = Function.update sys.calls id phase →
      PhaseOk ed25519 ourOrg sys' phase → PhaseOk ed25519 ourOrg sys' (sys'.calls i) := by
    intro id phase hcalls hphase
    rw [hcalls, update_apply]
    split
    · exact hphase
    · exact (h.phases i).grows hgrows
  cases hmove with
  | stay => exact h.phases i
  | plain id phase _ hplain =>
    apply hkeep id phase rfl
    cases phase <;> trivial
  | push => exact (h.phases i).grows hgrows
  | granted id | lock id | reuse id | store id | answer id | deny id => exact hkeep id _ rfl trivial
  | finding id args r _ hcheck => exact hkeep id _ rfl hcheck
  | revoking id args r seen payload hphase hseen hprepare =>
    have hcheck := h.phases id
    rw [hphase] at hcheck
    obtain ⟨⟨grant, hgrant, hseq⟩, hpayload⟩ := revokePrepare_ok hcheck hprepare
    obtain ⟨entry, hentry, hev⟩ := mem_filterMap.mp hgrant
    refine hkeep id _ rfl ⟨⟨entry, hseen.subset hentry, ?_⟩, hpayload⟩
    rw [← LogEntry.event_seq hev]
    exact hseq
  | appended id r payload hphase hroom =>
    have hready := h.phases id
    rw [hphase] at hready
    exact hkeep id _ rfl ⟨_, appended_onLog h.log hready hroom⟩
  | bump id r => exact hkeep id _ rfl trivial
  | refold id => exact hkeep id _ rfl (le_refl _)
  | scan id q now generation hphase =>
    have hread := h.phases id
    rw [hphase] at hread
    exact hkeep id _ rfl hread
  | scanned id q now generation start seen hphase _ hseen =>
    have hread := h.phases id
    rw [hphase] at hread
    exact hkeep id _ rfl ⟨hread, hseen⟩

theorem Inv.cache_move (h : Inv ed25519 ourOrg sys) (hmove : Move ed25519 ourOrg sys sys') :
    CacheOk ed25519 ourOrg sys' := by
  have hgrows := hmove.grows
  have hkeep : sys'.cache = sys.cache → CacheOk ed25519 ourOrg sys' := by
    intro heq cache hcache
    obtain ⟨hle, hfrom⟩ := h.cache cache (heq ▸ hcache)
    refine ⟨le_trans hle hgrows.generation, fun cap hcap => ?_⟩
    obtain ⟨ev, hev, hvalid⟩ := hfrom cap hcap
    exact ⟨ev, hgrows.mem_events hev, hvalid⟩
  cases hmove with
  | store id q now generation seen hphase =>
    intro cache hcache
    cases hcache
    have hfold := h.phases id
    rw [hphase] at hfold
    refine ⟨hfold.1, fun cap hcap => ?_⟩
    obtain ⟨ev, hev, hvalid⟩ := fold_from h.log hfold.2 hcap
    exact ⟨ev, (hfold.2.filterMap _).subset hev, hvalid⟩
  | _ => exact hkeep rfl

/-- A phase that does not scan or fold. -/
def Phase.blank : Phase → Bool
  | .scanning .. | .folding .. => false
  | _ => true

/-- What is settled stays so when only blank phases are entered and the cache stays. -/
theorem Settled.keep {r : Revocation} {generation : Nat} {entry : LogEntry}
    (h : Settled ed25519 ourOrg sys r generation entry) (hgrows : Grows sys sys')
    (hcache : sys'.cache = sys.cache)
    (hcalls : ∀ i, sys'.calls i = sys.calls i ∨ (sys'.calls i).blank) :
    Settled ed25519 ourOrg sys' r generation entry where
  bumped := le_trans h.bumped hgrows.generation
  onLog := h.onLog.grows hgrows
  scanning := by
    intro i q now g start hphase hle
    rcases hcalls i with hsame | hblank
    · rw [hsame] at hphase
      exact ((hgrows.logs ourOrg).take start).subset (h.scanning i q now g start hphase hle)
    · rw [hphase] at hblank
      cases hblank
  folding := by
    intro i q now g seen hphase hle
    rcases hcalls i with hsame | hblank
    · rw [hsame] at hphase
      exact h.folding i q now g seen hphase hle
    · rw [hphase] at hblank
      cases hblank
  cached := fun cache hc => h.cached cache (hcache ▸ hc)

theorem setCall_or_blank (sys : System) (id : Nat) (hphase : phase.blank) (i : Nat) :
    Function.update sys.calls id phase i = sys.calls i ∨
      (Function.update sys.calls id phase i).blank := by
  rw [update_apply]
  split
  · exact .inr hphase
  · exact .inl rfl

/-- **What is settled stays so.** -/
theorem Settled.move {generation : Nat}
    (h : Settled ed25519 ourOrg sys r generation entry) (hinv : Inv ed25519 ourOrg sys)
    (horg : r.fromOrg = ourOrg) (hmove : Move ed25519 ourOrg sys sys') :
    Settled ed25519 ourOrg sys' r generation entry := by
  have hgrows := hmove.grows
  subst horg
  cases hmove with
  | stay => exact h
  | plain id phase _ hplain =>
    have hblank : phase.blank := by cases phase <;> first | rfl | cases hplain
    exact h.keep hgrows rfl (setCall_or_blank sys id hblank)
  | push => exact h.keep hgrows rfl (fun i => .inl rfl)
  | scan id q now g hphase =>
    refine ⟨h.bumped, h.onLog, ?_, ?_, h.cached⟩
    · intro i q' now' g' start hscan hle
      rw [setCall_calls] at hscan
      split at hscan
      · -- the event has landed before the scan begins
        cases hscan
        rw [System.setCall, take_length]
        exact h.onLog.1
      · exact h.scanning i q' now' g' start hscan hle
    · intro i q' now' g' seen hfold hle
      rw [setCall_calls] at hfold
      split at hfold
      · cases hfold
      · exact h.folding i q' now' g' seen hfold hle
  | scanned id q now g start seen hphase hall hseen =>
    refine ⟨h.bumped, h.onLog, ?_, ?_, h.cached⟩
    · intro i q' now' g' start' hscan hle
      rw [setCall_calls] at hscan
      split at hscan
      · cases hscan
      · exact h.scanning i q' now' g' start' hscan hle
    · intro i q' now' g' seen' hfold hle
      rw [setCall_calls] at hfold
      split at hfold
      · cases hfold
        -- the scan saw the event
        exact hall.subset (h.scanning id q now g start hphase hle)
      · exact h.folding i q' now' g' seen' hfold hle
  | store id q now g seen hphase =>
    have hfold := hinv.phases id
    rw [hphase] at hfold
    have hblank := @Settled.keep _ _ _ (sys.setCall id (.answering q now)) _ _ _ h (Grows.of_eq rfl rfl) rfl
      (setCall_or_blank sys id rfl)
    refine ⟨h.bumped, h.onLog, hblank.scanning, hblank.folding, ?_⟩
    intro cache hcache hle cap hcap
    -- the cache is folded from a log that has the event
    cases hcache
    exact fold_lacks hinv.log h.onLog hfold.2 (h.folding id q now g seen hphase hle) hcap
  | granted id | finding id | revoking id | appended id | bump id | lock id | reuse id | refold id
  | answer id | deny id =>
    exact h.keep hgrows rfl (setCall_or_blank sys id rfl)

/-- When the generation moves on, nothing is under the new one yet. -/
theorem Inv.bump_settled (h : Inv ed25519 ourOrg sys)
    (hphase : sys.calls id = .appended r) :
    ∃ entry, Settled ed25519 ourOrg
      { sys.setCall id (.revoked r) with generation := sys.generation + 1 } r
      (sys.generation + 1) entry := by
  have hlanded := h.phases id
  rw [hphase] at hlanded
  obtain ⟨entry, hentry⟩ := hlanded
  refine ⟨entry, le_refl _, hentry, ?_, ?_, ?_⟩
  · intro i q now g start hscan hle
    have hscan' : (sys.setCall id (.revoked r)).calls i = .scanning q now g start := hscan
    rw [setCall_calls] at hscan'
    split at hscan'
    · cases hscan'
    · have hread := h.phases i
      rw [hscan'] at hread
      exact absurd (le_trans hle hread) (Nat.not_succ_le_self _)
  · intro i q now g seen hfold hle
    have hfold' : (sys.setCall id (.revoked r)).calls i = .folding q now g seen := hfold
    rw [setCall_calls] at hfold'
    split at hfold'
    · cases hfold'
    · have hread := h.phases i
      rw [hfold'] at hread
      exact absurd (le_trans hle hread.1) (Nat.not_succ_le_self _)
  · intro cache hcache hle
    exact absurd (le_trans hle (h.cache cache hcache).1) (Nat.not_succ_le_self _)

variable {i : Nat}

/-- A call has returned from a revocation before the step, or the step is what ends it. -/
theorem Move.revoked (hmove : Move ed25519 ourOrg sys sys') (h : sys'.calls i = .revoked r) :
    sys.calls i = .revoked r ∨ (sys.calls i = .appended r ∧
      sys' = { sys.setCall i (.revoked r) with generation := sys.generation + 1 }) := by
  have hother : ∀ id phase, sys'.calls = Function.update sys.calls id phase → phase ≠ .revoked r →
      sys.calls i = .revoked r := by
    intro id phase hcalls hne
    rw [hcalls, update_apply] at h
    split at h
    · exact absurd h hne
    · exact h
  cases hmove with
  | stay | push => exact .inl h
  | plain id phase _ hplain =>
    refine .inl (hother id phase rfl ?_)
    rintro rfl
    cases hplain
  | bump id r' hphase =>
    have h' : (sys.setCall id (.revoked r')).calls i = .revoked r := h
    rw [setCall_calls] at h'
    split at h'
    · rename_i heq
      subst heq
      cases h'
      exact .inr ⟨hphase, rfl⟩
    · exact .inl h'
  | granted id | finding id | revoking id | appended id | lock id | reuse id | refold id | scan id
  | scanned id | store id | answer id | deny id =>
    exact .inl (hother id _ rfl nofun)

/-- **Every transition keeps the invariant.** -/
theorem Inv.move (h : Inv ed25519 ourOrg sys) (hmove : Move ed25519 ourOrg sys sys') :
    Inv ed25519 ourOrg sys' where
  log := h.log.move hmove
  mutex := h.mutex.move hmove
  phases := h.phases_move hmove
  cache := h.cache_move hmove
  revoked := by
    intro i r hphase horg
    rcases hmove.revoked hphase with hbefore | ⟨happended, rfl⟩
    · obtain ⟨generation, entry, hsettled⟩ := h.revoked i r hbefore horg
      exact ⟨generation, entry, hsettled.move h horg hmove⟩
    · obtain ⟨entry, hsettled⟩ := h.bump_settled happended
      exact ⟨_, entry, hsettled⟩

theorem System.Initial.inv (h : sys.Initial) : Inv ed25519 ourOrg sys where
  log := ⟨h.numbered, h.short⟩
  mutex := by
    intro id hholds
    rw [h.calls id] at hholds
    cases hholds
  phases := by
    intro id
    rw [h.calls id]
    trivial
  cache := by
    intro cache hcache
    rw [h.cache] at hcache
    cases hcache
  revoked := by
    intro id r hphase
    rw [h.calls id] at hphase
    cases hphase

theorem Inv.run (h : Inv ed25519 ourOrg sys) (acts : List Act) :
    Inv ed25519 ourOrg (run ed25519 readable ourOrg ttlMs sys acts) := by
  induction acts generalizing sys with
  | nil => exact h
  | cons act acts ih => exact ih (h.move (step_move act))

/-! ## Checks that begin later -/

/-- The generation that a check which builds a cache has read. -/
def Phase.readGeneration : Phase → Option Nat
  | .refolding _ _ g => some g
  | .scanning _ _ g _ => some g
  | .folding _ _ g _ => some g
  | _ => none

/-- Some valid grant on the log allows what is asked, and none of the revocations
names it. -/
def Justified (ed25519 : Ed25519) (ourOrg : OrgKey) (sys : System) (returned : Revocation → Prop)
    (q : Query) (now : UInt64) : Prop :=
  ∃ grant ∈ trustEvents (sys.logs ourOrg), ValidGrant ed25519 ourOrg grant ∧
    grant.capability.allows q now = true ∧ ∀ r, returned r → ¬ r.names grant.capability

/-- The check rests on nothing that the revocations have taken away. -/
structure Late (ed25519 : Ed25519) (ourOrg : OrgKey) (sys : System) (returned : Revocation → Prop)
    (id : Nat) : Prop where
  settled : ∀ r, returned r → r.fromOrg = ourOrg ∧ ∃ generation entry,
    Settled ed25519 ourOrg sys r generation entry ∧
      ∀ g, (sys.calls id).readGeneration = some g → generation ≤ g
  answering : ∀ q now, sys.calls id = .answering q now → ∀ cache, sys.cache = some cache →
    ∀ cap ∈ cache.caps, ∀ r, returned r → ¬ r.names cap
  answered : ∀ q now, sys.calls id = .answered q now true →
    Justified ed25519 ourOrg sys returned q now

variable {returned : Revocation → Prop}

theorem Justified.grows (h : Justified ed25519 ourOrg sys returned q now)
    (hgrows : Grows sys sys') : Justified ed25519 ourOrg sys' returned q now := by
  obtain ⟨grant, hgrant, hrest⟩ := h
  exact ⟨grant, hgrows.mem_events hgrant, hrest⟩

/-- An answer rests on the capability that was found. -/
theorem Late.justified (h : Late ed25519 ourOrg sys returned id)
    (hinv : Inv ed25519 ourOrg sys) (hphase : sys.calls id = .answering q now)
    (hany : sys.cache.any (fun cache => cache.caps.any (fun cap => cap.allows q now)) = true) :
    Justified ed25519 ourOrg sys returned q now := by
  obtain ⟨cache, hcache, hcaps⟩ := (Option.any_eq_true _ _).mp hany
  obtain ⟨cap, hcap, hallows⟩ := any_eq_true.mp hcaps
  obtain ⟨grant, hgrant, hvalid, rfl⟩ := (hinv.cache cache hcache).2 cap hcap
  exact ⟨grant, hgrant, hvalid, hallows, h.answering q now hphase cache hcache _ hcap⟩

section
variable (hmove : Move ed25519 ourOrg sys sys')
include hmove

/-- A generation that is read is the current one. -/
theorem Move.readGeneration {g : Nat} (h : (sys'.calls i).readGeneration = some g) :
    (sys.calls i).readGeneration = some g ∨ g = sys.generation := by
  have hother : ∀ id phase, sys'.calls = Function.update sys.calls id phase →
      (phase.readGeneration = some g → (sys.calls id).readGeneration = some g ∨ g = sys.generation) →
      (sys.calls i).readGeneration = some g ∨ g = sys.generation := by
    intro id phase hcalls hphase
    rw [hcalls, update_apply] at h
    split at h
    · rename_i heq
      rw [heq]
      exact hphase h
    · exact .inl h
  cases hmove with
  | stay | push => exact .inl h
  | plain id phase _ hplain =>
    apply hother id phase rfl
    have hnone : phase.readGeneration = none := by cases phase <;> first | rfl | cases hplain
    intro hread
    cases hnone.symm.trans hread
  | refold id =>
    apply hother id _ rfl
    intro hread
    exact .inr (Option.some.inj hread).symm
  | scan id q now generation hphase =>
    apply hother id _ rfl
    intro hread
    rw [hphase]
    exact .inl hread
  | scanned id q now generation start seen hphase =>
    apply hother id _ rfl
    intro hread
    rw [hphase]
    exact .inl hread
  | granted id | finding id | revoking id | appended id | bump id | lock id | reuse id | store id
  | answer id | deny id =>
    exact hother id _ rfl nofun

/-- How a check comes to its answer: it waited at it already, it found a cache of the
current generation, or it has stored its own. -/
theorem Move.answering (hmutex : Mutex sys) (h : sys'.calls i = .answering q now) :
    (sys.calls i = .answering q now ∧ sys'.cache = sys.cache) ∨
    (∃ cache, sys.cache = some cache ∧ cache.generation = sys.generation ∧ sys'.cache = sys.cache) ∨
    ∃ generation seen, sys.calls i = .folding q now generation seen ∧
      sys'.cache = some ⟨(foldTrust ed25519 ourOrg (trustEvents seen) now).capabilities, now,
        generation⟩ := by
  have hother : ∀ id phase, sys'.calls = Function.update sys.calls id phase →
      phase ≠ .answering q now → sys.calls i = .answering q now := by
    intro id phase hcalls hne
    rw [hcalls, update_apply] at h
    split at h
    · exact absurd h hne
    · exact h
  cases hmove with
  | stay | push => exact .inl ⟨h, rfl⟩
  | plain id phase _ hplain =>
    refine .inl ⟨hother id phase rfl ?_, rfl⟩
    rintro rfl
    cases hplain
  | reuse id q' now' cache hphase hcache hgeneration =>
    exact .inr (.inl ⟨cache, hcache, hgeneration, rfl⟩)
  | store id q' now' generation seen hphase =>
    have h' : (sys.setCall id (.answering q' now')).calls i = .answering q now := h
    rw [setCall_calls] at h'
    split at h'
    · rename_i heq
      subst heq
      cases h'
      exact .inr (.inr ⟨generation, seen, hphase, rfl⟩)
    · -- two calls would hold the lock
      rename_i hne
      have hstores := hmutex id (by rw [hphase]; rfl)
      have hanswers := hmutex i (by rw [h']; rfl)
      exact absurd (Option.some.inj (hanswers.symm.trans hstores)) hne
  | granted id | finding id | revoking id | appended id | bump id | lock id | refold id | scan id
  | scanned id | answer id | deny id =>
    exact .inl ⟨hother id _ rfl nofun, rfl⟩

theorem Move.answered (h : sys'.calls i = .answered q now true) :
    sys.calls i = .answered q now true ∨ (sys.calls i = .answering q now ∧
      sys.cache.any (fun cache => cache.caps.any (fun cap => cap.allows q now)) = true) := by
  have hother : ∀ id phase, sys'.calls = Function.update sys.calls id phase →
      (phase = .answered q now true → sys.calls id = .answering q now ∧
        sys.cache.any (fun cache => cache.caps.any (fun cap => cap.allows q now)) = true) →
      sys.calls i = .answered q now true ∨ (sys.calls i = .answering q now ∧
        sys.cache.any (fun cache => cache.caps.any (fun cap => cap.allows q now)) = true) := by
    intro id phase hcalls hphase
    rw [hcalls, update_apply] at h
    split at h
    · rename_i heq
      rw [heq]
      exact .inr (hphase h)
    · exact .inl h
  cases hmove with
  | stay | push => exact .inl h
  | plain id phase _ hplain =>
    apply hother id phase rfl
    rintro rfl
    cases hplain
  | answer id q' now' hphase =>
    apply hother id _ rfl
    intro heq
    obtain ⟨rfl, rfl, hany⟩ := Phase.answered.inj heq
    exact ⟨hphase, hany⟩
  | granted id | finding id | revoking id | appended id | bump id | lock id | reuse id | refold id
  | scan id | scanned id | store id | deny id =>
    exact hother id _ rfl nofun

end

/-- **A later check stays clear of what was revoked.** -/
theorem Late.move (h : Late ed25519 ourOrg sys returned id)
    (hinv : Inv ed25519 ourOrg sys) (hmove : Move ed25519 ourOrg sys sys') :
    Late ed25519 ourOrg sys' returned id where
  settled := by
    intro r hr
    obtain ⟨horg, generation, entry, hsettled, hread⟩ := h.settled r hr
    refine ⟨horg, generation, entry, hsettled.move hinv horg hmove, fun g hg => ?_⟩
    rcases hmove.readGeneration hg with hbefore | rfl
    · exact hread g hbefore
    · exact hsettled.bumped
  answering := by
    intro q now hphase cache hcache cap hcap r hr
    obtain ⟨horg, generation, entry, hsettled, hread⟩ := h.settled r hr
    rcases hmove.answering hinv.mutex hphase with
      ⟨hbefore, hsame⟩ | ⟨found, hfound, hcurrent, hsame⟩ | ⟨g, seen, hfolding, hstored⟩
    · exact h.answering q now hbefore cache (hsame ▸ hcache) cap hcap r hr
    · rw [hsame, hfound] at hcache
      obtain rfl := Option.some.inj hcache
      exact hsettled.cached found hfound (hcurrent ▸ hsettled.bumped) cap hcap
    · cases hstored.symm.trans hcache
      subst horg
      have hfold := hinv.phases id
      rw [hfolding] at hfold hread
      exact fold_lacks hinv.log hsettled.onLog hfold.2
        (hsettled.folding id q now g seen hfolding (hread g rfl)) hcap
  answered := by
    intro q now hphase
    rcases hmove.answered hphase with hbefore | ⟨hanswering, hany⟩
    · exact (h.answered q now hbefore).grows hmove.grows
    · exact (h.justified hinv hanswering hany).grows hmove.grows

theorem Late.run (h : Late ed25519 ourOrg sys returned id) (hinv : Inv ed25519 ourOrg sys)
    (acts : List Act) :
    Late ed25519 ourOrg (run ed25519 readable ourOrg ttlMs sys acts) returned id := by
  induction acts generalizing sys with
  | nil => exact h
  | cons act acts ih => exact ih (h.move hinv (step_move act)) (hinv.move (step_move act))

/-- A check that has not begun is late for every revocation that has returned. -/
theorem Inv.late (h : Inv ed25519 ourOrg sys) (hidle : sys.calls id = .idle) :
    Late ed25519 ourOrg sys
      (fun r => r.fromOrg = ourOrg ∧ ∃ call, sys.calls call = .revoked r) id where
  settled := by
    rintro r ⟨horg, call, hcall⟩
    obtain ⟨generation, entry, hsettled⟩ := h.revoked call r hcall horg
    refine ⟨horg, generation, entry, hsettled, fun g hg => ?_⟩
    rw [hidle] at hg
    cases hg
  answering := by
    intro q now hphase
    cases hidle.symm.trans hphase
  answered := by
    intro q now hphase
    cases hidle.symm.trans hphase

/-- **A local revocation takes effect on the next check.**  After any run, every check
that has not begun yet, whatever runs beside it and however old the cache is, allows
only what some valid grant on the log allows that no revocation returned by then
names. -/
theorem authorized_after_revoke (hinit : sys.Initial) (before after : List Act) {check : Nat}
    {q : Query} {now : UInt64}
    (hidle : (run ed25519 readable ourOrg ttlMs sys before).calls check = .idle)
    (hanswer : (run ed25519 readable ourOrg ttlMs sys (before ++ after)).calls check =
      .answered q now true) :
    ∃ grant ∈ trustEvents ((run ed25519 readable ourOrg ttlMs sys (before ++ after)).logs ourOrg),
      ValidGrant ed25519 ourOrg grant ∧ grant.capability.allows q now = true ∧
      ∀ call r, (run ed25519 readable ourOrg ttlMs sys before).calls call = .revoked r →
        ¬ (r.fromOrg = grant.fromOrg ∧ r.toOrg = grant.toOrg ∧ r.grantSeq = grant.seq) := by
  have hinv : Inv ed25519 ourOrg (run ed25519 readable ourOrg ttlMs sys before) := hinit.inv.run before
  have hlate : Late ed25519 ourOrg (run ed25519 readable ourOrg ttlMs
      (run ed25519 readable ourOrg ttlMs sys before) after) _ check := (hinv.late hidle).run hinv after
  have hrun : run ed25519 readable ourOrg ttlMs (run ed25519 readable ourOrg ttlMs sys before) after =
      run ed25519 readable ourOrg ttlMs sys (before ++ after) := (foldl_append ..).symm
  rw [hrun] at hlate
  obtain ⟨grant, hgrant, hvalid, hallows, hnone⟩ := hlate.answered q now hanswer
  refine ⟨grant, hgrant, hvalid, hallows, ?_⟩
  rintro call r hcall ⟨hfrom, hto, hseq⟩
  exact hnone r ⟨hfrom.trans hvalid.org, call, hcall⟩ ⟨hseq.symm, hto.symm⟩

/-! ## A run -/

/-- The texts of the sample as they read back. -/
def sampleGrantJson : TrustEventJson :=
  ⟨ascii "trust.grant", orgHex, delegateHex, [ascii "write"], [ascii "mem:acme:"], 0, 100, 0, 0,
    grantSigHex⟩

def sampleRevokeArgs : RevokeArgs := ⟨orgHex, delegateHex, 1, 200, .sig sampleRevoke.sig⟩

def sampleRevokeJson : TrustEventJson :=
  ⟨ascii "trust.revoke", orgHex, delegateHex, [], [], 0, 0, 1, 200, revokeSigHex⟩

def sampleSystem : System := ⟨fun _ => [], 0, none, none, fun _ => .idle⟩

/-- A check fills the cache, and the grant is revoked. -/
def sampleBefore : List Act :=
  let q : Query := ⟨sampleDelegate, ascii "mem:acme:k", capWrite⟩
  [.foreign sampleOrg (some sampleGrantJson), .check 1 q 1000, .lock 1, .refresh 1, .scan 1,
    .scanned 1 [⟨1, some sampleGrantJson⟩], .store 1, .answer 1, .revoke 2 sampleRevokeArgs,
    .found 2 [⟨1, some sampleGrantJson⟩], .append 2, .bump 2]

/-- The same grant is made once more, and checked within the lifetime of the old cache. -/
def sampleAfter : List Act :=
  let q : Query := ⟨sampleDelegate, ascii "mem:acme:k", capWrite⟩
  [.foreign sampleOrg (some sampleGrantJson), .check 3 q 1001, .lock 3, .refresh 3, .scan 3,
    .scanned 3 [⟨1, some sampleGrantJson⟩, ⟨2, some sampleRevokeJson⟩, ⟨3, some sampleGrantJson⟩],
    .store 3, .answer 3]

theorem authorized_after_revoke_sample :
    let sys := run sampleVerify (fun _ => true) sampleOrg 5000 sampleSystem
    (sys sampleBefore).calls 2 = .revoked ⟨sampleOrg, sampleDelegate, 1⟩ ∧
    (sys sampleBefore).calls 3 = .idle ∧
    (sys (sampleBefore ++ sampleAfter)).calls 3 =
      .answered ⟨sampleDelegate, ascii "mem:acme:k", capWrite⟩ 1001 true ∧
    ∃ grant ∈ trustEvents ((sys (sampleBefore ++ sampleAfter)).logs sampleOrg), grant.seq ≠ 1 := by
  have heval : (run sampleVerify (fun _ => true) sampleOrg 5000 sampleSystem sampleBefore).calls 2 =
        .revoked ⟨sampleOrg, sampleDelegate, 1⟩ ∧
      (run sampleVerify (fun _ => true) sampleOrg 5000 sampleSystem sampleBefore).calls 3 = .idle ∧
      (run sampleVerify (fun _ => true) sampleOrg 5000 sampleSystem
        (sampleBefore ++ sampleAfter)).calls 3 =
          .answered ⟨sampleDelegate, ascii "mem:acme:k", capWrite⟩ 1001 true := by decide +kernel
  obtain ⟨hrevoked, hidle, hanswer⟩ := heval
  have hinit : sampleSystem.Initial :=
    ⟨fun _ _ _ h => (by simp [sampleSystem] at h), fun _ => Nat.two_pow_pos 64, rfl, rfl,
      fun _ => rfl⟩
  obtain ⟨grant, hgrant, hvalid, hallows, hnone⟩ :=
    authorized_after_revoke hinit sampleBefore sampleAfter hidle hanswer
  refine ⟨hrevoked, hidle, hanswer, grant, hgrant, fun hseq => ?_⟩
  refine hnone 2 _ hrevoked ⟨hvalid.org.symm, ?_, hseq.symm⟩
  simp only [Capability.allows, Bool.and_eq_true, beq_iff_eq] at hallows
  exact hallows.1.1.1.symm

end TrustLog
end WormDB
