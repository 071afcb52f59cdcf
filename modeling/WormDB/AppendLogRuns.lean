import WormDB.AppendLogStore

/-! # Runs of the append log

Any number of appends to one log run against one store.  An append is not one
step: it loads the state (`load`), creates its event (`create`), writes the state
record (`persist`) and the hint (`hint`), and returns (`finish`); between any two
of these the others move.  A call may end without a result anywhere (`fail`), a
state record may not be written (`persist` with `writes` false) or be lost
(`loseState`), the hint slot may be taken by another log (`hintOther`), the
process may start anew with the store it has (`restart`), and other keys are
written and removed at will.

`Inv` says that the store has the log of some requests, and that every call and
every result is about one of its prefixes.  Since an event is created only after
the last one, the numbers of the results never repeat. -/
namespace WormDB
open List ByteCodec PrefixMap
namespace AppendLog
open Mmr (appendLeaves maxU64)

/-- Where an append is. -/
inductive Phase where
  | idle
  | loaded (req : Request) (tail : AccumulatorState)
  | created (req : Request) (tail : AccumulatorState) (encoded : EncodedEnvelope)
  | stored (result : AppendResult) (lastSeq : UInt64)
  | done (result : AppendResult)

structure System where
  kv : Kv
  slot : SeqHintSlot
  calls : Nat → Phase
  returned : List AppendResult

namespace System

def init : System := ⟨.empty, .init, fun _ => .idle, []⟩

def setCall (sys : System) (call : Nat) (phase : Phase) : System :=
  { sys with calls := Function.update sys.calls call phase }

theorem setCall_self (sys : System) (call : Nat) (phase : Phase) :
    (sys.setCall call phase).calls call = phase := Function.update_self _ _ _

theorem setCall_other (sys : System) {call c : Nat} (phase : Phase) (h : c ≠ call) :
    (sys.setCall call phase).calls c = sys.calls c := Function.update_of_ne h _ _

end System

inductive Act where
  | load (call : Nat) (req : Request) (loads : Bool)
  | create (call : Nat)
  | persist (call : Nat) (writes : Bool)
  | hint (call : Nat)
  | finish (call : Nat)
  | fail (call : Nat)
  | loseState (seq : UInt64)
  | hintOther (logHash : Hash) (seq : UInt64)
  | restart
  | put (key : Bytes) (content : Content)
  | remove (key : Bytes)

section Steps
variable (sha256 : Bytes → Hash) (logId : Bytes)

/-- The key is none of the log's. -/
def Outside (key : Bytes) : Prop :=
  ¬ eventKeyPrefix sha256 logId <+: key ∧ ¬ accumulatorStateKeyPrefix sha256 logId <+: key

instance (key : Bytes) : Decidable (Outside sha256 logId key) :=
  inferInstanceAs (Decidable (_ ∧ _))

def step (sys : System) : Act → System
  | .load call req loads =>
      match sys.calls call with
      | .idle =>
          match loadOrRebuildAccumulatorState sha256 loads sys.kv logId sys.slot with
          | (.error _, slot) => { sys with slot := slot }
          | (.ok tail, slot) => { sys.setCall call (.loaded req tail) with slot := slot }
      | _ => sys
  | .create call =>
      match sys.calls call with
      | .loaded req tail =>
          match createEvent sha256 sys.kv logId tail req with
          | .error _ => sys.setCall call .idle
          | .ok (encoded, kv) => { sys.setCall call (.created req tail encoded) with kv := kv }
      | _ => sys
  | .persist call writes =>
      match sys.calls call with
      | .created req tail encoded =>
          match nextState sha256 tail req encoded with
          | .error _ => sys.setCall call .idle
          | .ok next =>
              let result := appendResult sha256 logId tail req encoded next
              if writes then
                match writeState sha256 sys.kv logId next with
                | .error _ => sys.setCall call (.done result)
                | .ok kv => { sys.setCall call (.stored result next.lastSeq) with kv := kv }
              else sys.setCall call (.done result)
      | _ => sys
  | .hint call =>
      match sys.calls call with
      | .stored result lastSeq =>
          { sys.setCall call (.done result) with
            slot := sys.slot.setAppendLogSeqHint (sha256 logId) lastSeq }
      | _ => sys
  | .finish call =>
      match sys.calls call with
      | .done result => { sys.setCall call .idle with returned := result :: sys.returned }
      | _ => sys
  | .fail call => sys.setCall call .idle
  | .loseState seq => { sys with kv := sys.kv.erase (accumulatorStateKey sha256 logId seq) }
  | .hintOther logHash seq => { sys with slot := sys.slot.setAppendLogSeqHint logHash seq }
  | .restart => { sys with slot := .init, calls := fun _ => .idle }
  | .put key content =>
      if Outside sha256 logId key then { sys with kv := sys.kv.insert key content } else sys
  | .remove key =>
      if Outside sha256 logId key then { sys with kv := sys.kv.erase key } else sys

def run (sys : System) (acts : List Act) : System := acts.foldl (step sha256 logId) sys

/-- The steps of a call that does all it can. -/
def callSteps (call : Nat) (req : Request) (loads : Bool) : List Act :=
  [.load call req loads, .create call, .persist call true, .hint call, .finish call]

/-- **`append` is the steps of a call with nothing between them.** -/
theorem run_callSteps (sys : System) (call : Nat) (hidle : sys.calls call = .idle) (req : Request)
    (loads : Bool) :
    let (result, kv, slot) := append sha256 loads sys.kv logId sys.slot req
    run sha256 logId sys (callSteps call req loads) =
      ⟨kv, slot, sys.calls, result.toOption.toList ++ sys.returned⟩ := by
  have hstay : Function.update sys.calls call .idle = sys.calls := by
    rw [← hidle, Function.update_eq_self]
  simp only [run, callSteps, foldl_cons, foldl_nil, append]
  cases hload : loadOrRebuildAccumulatorState sha256 loads sys.kv logId sys.slot with
  | mk loaded slot =>
    cases loaded with
    | error e => simp [step, hidle, hload, Except.toOption]
    | ok tail =>
      simp only [step, hidle, hload, System.setCall_self]
      cases hcreate : createEvent sha256 sys.kv logId tail req with
      | error e =>
        simp [System.setCall, hcreate, hstay, hidle, Except.toOption]
      | ok created =>
        obtain ⟨encoded, kv⟩ := created
        simp only [System.setCall, hcreate, Function.update_self, Function.update_idem]
        cases hnext : nextState sha256 tail req encoded with
        | error e => simp [hstay, hidle, Except.toOption]
        | ok next =>
          cases hwrite : writeState sha256 kv logId next with
          | error e => simp [hstay, hwrite, Except.toOption]
          | ok kv' => simp [hstay, hwrite, Except.toOption]

end Steps

/-! ## The invariant -/

section Invariant
variable (sha256 : Bytes → Hash) (logId : Bytes)

/-- The result is the one for an event of the log. -/
def Appended (es : List Request) (result : AppendResult) : Prop :=
  ∃ (i : Nat) (req : Request), es[i]? = some req ∧
    result = appendResult sha256 logId (stateOf sha256 logId (es.take i)) req
      (sealEnvelope sha256 (req.input logId (stateOf sha256 logId (es.take i))))
      (stateOf sha256 logId (es.take (i + 1)))

/-- What a call knows is about the log. -/
def PhaseOk (es : List Request) : Phase → Prop
  | .idle => True
  | .loaded _ tail => ∃ i ≤ es.length, tail = stateOf sha256 logId (es.take i)
  | .created req tail encoded => ∃ i : Nat, es[i]? = some req ∧
      tail = stateOf sha256 logId (es.take i) ∧
      encoded = sealEnvelope sha256 (req.input logId tail)
  | .stored result _ => Appended sha256 logId es result
  | .done result => Appended sha256 logId es result

/-- The number of the event the call has created. -/
def Phase.seq? : Phase → Option UInt64
  | .idle => none
  | .loaded _ _ => none
  | .created _ tail _ => some (tail.lastSeq + 1)
  | .stored result _ => some result.seq
  | .done result => some result.seq

/-- **What holds in every state**, for the requests that became events. -/
structure Inv (sys : System) (es : List Request) : Prop where
  holds : Holds sha256 logId sys.kv es
  calls : ∀ call, PhaseOk sha256 logId es (sys.calls call)
  results : ∀ result ∈ sys.returned, Appended sha256 logId es result
  apart : ∀ call call' seq, (sys.calls call).seq? = some seq →
    (sys.calls call').seq? = some seq → call = call'
  pending : ∀ call seq, (sys.calls call).seq? = some seq →
    ∀ result ∈ sys.returned, result.seq ≠ seq
  distinct : (sys.returned.map AppendResult.seq).Nodup

end Invariant

variable {sha256 : Bytes → Hash} {logId : Bytes} {sys : System} {es : List Request}

theorem init_holds : Holds sha256 logId .empty [] where
  len := Nat.zero_le _
  fits := by
    intro input hin
    cases hin
  events := by
    intro key content _
    rw [ByteMap.get_empty]
    constructor
    · intro h
      cases h
    · intro h
      cases h
  states := by
    intro key content _ h
    cases h

theorem init_inv : Inv sha256 logId .init [] where
  holds := init_holds
  calls := fun _ => trivial
  results := by
    intro result h
    cases h
  apart := by
    intro call call' seq h
    cases h
  pending := by
    intro call seq h
    cases h
  distinct := nodup_nil

/-- A call may move on within its own event, or let go of it. -/
theorem Inv.setCall (h : Inv sha256 logId sys es) {call : Nat} (phase : Phase)
    (hok : PhaseOk sha256 logId es phase)
    (hseq : ∀ seq, phase.seq? = some seq → (sys.calls call).seq? = some seq) :
    Inv sha256 logId (sys.setCall call phase) es := by
  -- whoever holds a number held it before
  have hback : ∀ c seq, ((sys.setCall call phase).calls c).seq? = some seq →
      (sys.calls c).seq? = some seq := by
    intro c seq hc
    by_cases heq : c = call
    · subst heq
      rw [System.setCall_self] at hc
      exact hseq seq hc
    · rwa [System.setCall_other _ _ heq] at hc
  refine ⟨h.holds, ?_, h.results, ?_, ?_, h.distinct⟩
  · intro c
    by_cases heq : c = call
    · subst heq
      rw [System.setCall_self]
      exact hok
    · rw [System.setCall_other _ _ heq]
      exact h.calls c
  · intro c d seq hc hd
    exact h.apart c d seq (hback c seq hc) (hback d seq hd)
  · intro c seq hc
    exact h.pending c seq (hback c seq hc)

variable {kv : Kv}

/-- The hint slot does not matter, and the store only as far as it has the log. -/
theorem Inv.of_holds (h : Inv sha256 logId sys es) (hk : Holds sha256 logId kv es)
    (slot : SeqHintSlot) : Inv sha256 logId { sys with kv := kv, slot := slot } es :=
  ⟨hk, h.calls, h.results, h.apart, h.pending, h.distinct⟩

theorem Inv.setCall_idle (h : Inv sha256 logId sys es) (call : Nat) :
    Inv sha256 logId (sys.setCall call .idle) es := by
  refine h.setCall .idle trivial ?_
  intro seq hseq
  cases hseq

variable {i : Nat} {req : Request}

theorem getElem?_concat {es : List Request} (h : es[i]? = some req)
    (more : List Request) : (es ++ more)[i]? = some req := by
  rw [getElem?_append_left (List.getElem?_eq_some_iff.mp h).1, h]

variable {result : AppendResult}

theorem Appended.append (h : Appended sha256 logId es result)
    (more : List Request) : Appended sha256 logId (es ++ more) result := by
  obtain ⟨i, req, hreq, rfl⟩ := h
  have hi := (List.getElem?_eq_some_iff.mp hreq).1
  refine ⟨i, req, getElem?_concat hreq more, ?_⟩
  rw [take_append_of_le_length (le_of_lt hi), take_append_of_le_length hi]

variable {phase : Phase}

theorem PhaseOk.append (h : PhaseOk sha256 logId es phase)
    (more : List Request) : PhaseOk sha256 logId (es ++ more) phase := by
  cases phase with
  | idle => trivial
  | loaded req tail =>
    obtain ⟨i, hi, rfl⟩ := h
    refine ⟨i, by rw [length_append]; omega, ?_⟩
    rw [take_append_of_le_length hi]
  | created req tail encoded =>
    obtain ⟨i, hreq, rfl, rfl⟩ := h
    refine ⟨i, getElem?_concat hreq more, ?_, rfl⟩
    rw [take_append_of_le_length (le_of_lt (List.getElem?_eq_some_iff.mp hreq).1)]
  | stored result lastSeq => exact Appended.append h more
  | done result => exact Appended.append h more

theorem Appended.seq_le (h : Appended sha256 logId es result)
    (hlen : es.length ≤ maxU64) : 0 < result.seq.toNat ∧ result.seq.toNat ≤ es.length := by
  obtain ⟨i, req, hreq, rfl⟩ := h
  have hi := (List.getElem?_eq_some_iff.mp hreq).1
  have hnum : (appendResult sha256 logId (stateOf sha256 logId (es.take i)) req
      (sealEnvelope sha256 (req.input logId (stateOf sha256 logId (es.take i))))
      (stateOf sha256 logId (es.take (i + 1)))).seq.toNat = i + 1 := input_seq sha256 logId hlen hreq
  omega

theorem PhaseOk.seq_le (h : PhaseOk sha256 logId es phase)
    (hlen : es.length ≤ maxU64) {seq : UInt64} (hseq : phase.seq? = some seq) :
    seq.toNat ≤ es.length := by
  cases phase with
  | idle => cases hseq
  | loaded req tail => cases hseq
  | created req tail encoded =>
    obtain ⟨i, hreq, rfl, -⟩ := h
    have hnum := input_seq sha256 logId hlen hreq
    have hi := (List.getElem?_eq_some_iff.mp hreq).1
    cases hseq
    exact hnum ▸ hi
  | stored result lastSeq =>
    cases hseq
    exact (Appended.seq_le h hlen).2
  | done result =>
    cases hseq
    exact (Appended.seq_le h hlen).2

variable {tail : AccumulatorState}

theorem nextState_ok {next : AccumulatorState}
    (h : nextState sha256 tail req (sealEnvelope sha256 (req.input logId tail)) = .ok next) :
    next = extend sha256 logId tail req := by
  rw [nextState, advanceAccumulatorState] at h
  split at h
  · cases h
  split at h
  · cases h
  exact (Except.ok.inj h).symm

theorem stateOf_take_succ (h : es[i]? = some req) : stateOf sha256 logId (es.take (i + 1)) =
      extend sha256 logId (stateOf sha256 logId (es.take i)) req := by
  rw [take_add_one, h, Option.toList_some, stateOf_concat]

/-! ## One step -/

/-- **The event of a call becomes the last of the log**, under a number nobody
has. -/
theorem Inv.create (h : Inv sha256 logId sys es) {call : Nat} {encoded : EncodedEnvelope}
    (hcall : sys.calls call = .loaded req tail)
    (hcreate : createEvent sha256 sys.kv logId tail req = .ok (encoded, kv)) :
    Inv sha256 logId { sys.setCall call (.created req tail encoded) with kv := kv }
      (es ++ [req]) := by
  have hphase := h.calls call
  rw [hcall] at hphase
  obtain ⟨m, hm, rfl⟩ := hphase
  obtain ⟨rfl, rfl, hholds⟩ := h.holds.createEvent hm hcreate
  rw [take_length] at *
  have hlen := h.holds.len
  have hseq := stateOf_lastSeq sha256 logId hlen
  have hlt : es.length < maxU64 := by
    have := hholds.len
    rw [length_append, length_singleton] at this
    omega
  have hnew : ((stateOf sha256 logId es).lastSeq + 1).toNat = es.length + 1 := by
    rw [toNat_succ (by omega), hseq]
  -- nobody holds the new number
  have hfresh : ∀ c, (sys.calls c).seq? ≠ some ((stateOf sha256 logId es).lastSeq + 1) := by
    intro c hc
    have := (h.calls c).seq_le hlen hc
    omega
  refine ⟨hholds, ?_, ?_, ?_, ?_, h.distinct⟩
  · intro c
    show PhaseOk sha256 logId (es ++ [req]) ((sys.setCall call _).calls c)
    by_cases heq : c = call
    · subst heq
      rw [System.setCall_self]
      refine ⟨es.length, getElem?_concat_length, ?_, rfl⟩
      rw [take_left]
    · rw [System.setCall_other _ _ heq]
      exact (h.calls c).append [req]
  · intro result hmem
    exact (h.results result hmem).append [req]
  · intro c d seq
    show ((sys.setCall call _).calls c).seq? = some seq →
      ((sys.setCall call _).calls d).seq? = some seq → c = d
    by_cases hc : c = call
    · by_cases hd : d = call
      · exact fun _ _ => hc.trans hd.symm
      · subst hc
        rw [System.setCall_self, System.setCall_other _ _ hd]
        intro hcseq hdseq
        exact absurd (hdseq.trans hcseq.symm) (hfresh d)
    · by_cases hd : d = call
      · subst hd
        rw [System.setCall_self, System.setCall_other _ _ hc]
        intro hcseq hdseq
        exact absurd (hcseq.trans hdseq.symm) (hfresh c)
      · rw [System.setCall_other _ _ hc, System.setCall_other _ _ hd]
        exact h.apart c d seq
  · intro c seq
    show ((sys.setCall call _).calls c).seq? = some seq → ∀ result ∈ sys.returned, result.seq ≠ seq
    by_cases hc : c = call
    · subst hc
      rw [System.setCall_self]
      rintro hcseq result hmem rfl
      have hle := ((h.results result hmem).seq_le hlen).2
      rw [← Option.some.inj hcseq, hnew] at hle
      omega
    · rw [System.setCall_other _ _ hc]
      exact h.pending c seq

/-- A result is handed out: its number is no longer held by the call. -/
theorem Inv.finish (h : Inv sha256 logId sys es) {call : Nat} {result : AppendResult}
    (hcall : sys.calls call = .done result) :
    Inv sha256 logId { sys.setCall call .idle with returned := result :: sys.returned } es := by
  have hphase := h.calls call
  rw [hcall] at hphase
  have hheld : (sys.calls call).seq? = some result.seq := by rw [hcall]; rfl
  have hidle := h.setCall_idle call
  refine ⟨h.holds, hidle.calls, ?_, hidle.apart, ?_, ?_⟩
  · intro r hr
    rcases mem_cons.mp hr with rfl | hr
    · exact hphase
    · exact h.results r hr
  · intro c seq hc r hr
    rcases mem_cons.mp hr with rfl | hr
    · rintro rfl
      by_cases heq : c = call
      · subst heq
        replace hc : ((sys.setCall c .idle).calls c).seq? = some r.seq := hc
        rw [System.setCall_self] at hc
        cases hc
      · replace hc : ((sys.setCall call .idle).calls c).seq? = some r.seq := hc
        rw [System.setCall_other _ _ heq] at hc
        exact heq (h.apart c call _ hc hheld)
    · exact hidle.pending c seq hc r hr
  · rw [map_cons, nodup_cons]
    refine ⟨?_, h.distinct⟩
    intro hmem
    obtain ⟨r, hr, heq⟩ := mem_map.mp hmem
    exact h.pending call _ hheld r hr heq

/-- A lost state record is not missed. -/
theorem Holds.erase_state (h : Holds sha256 logId kv es) (seq : UInt64) :
    Holds sha256 logId (kv.erase (accumulatorStateKey sha256 logId seq)) es := by
  refine h.of_states ?_ ?_
  · intro key hpre
    refine ByteMap.get_erase_of_ne _ ?_
    rintro rfl
    exact keys_apart hpre (accumulatorStateKeyPrefix_isPrefix logId seq)
  · intro key content _ hget
    by_cases hkey : key = accumulatorStateKey sha256 logId seq
    · rw [hkey, ByteMap.get_erase_self] at hget
      cases hget
    · rw [ByteMap.get_erase_of_ne _ hkey] at hget
      exact .inl hget

/-- Keys outside the log do not matter to it. -/
theorem Holds.of_outside {kv' : Kv} (h : Holds sha256 logId kv es) {key : Bytes}
    (hout : Outside sha256 logId key) (hsame : ∀ k, k ≠ key → kv'.get k = kv.get k) :
    Holds sha256 logId kv' es := by
  refine h.of_states ?_ ?_
  · intro k hpre
    refine hsame k ?_
    rintro rfl
    exact hout.1 hpre
  · intro k content hpre hget
    refine .inl ?_
    rwa [hsame k] at hget
    rintro rfl
    exact hout.2 hpre

section
variable (h : Inv sha256 logId sys es)
include h

theorem Inv.load (call : Nat) (req : Request) (loads : Bool) :
    Inv sha256 logId (step sha256 logId sys (.load call req loads)) es := by
  simp only [step]
  split
  · have hload := h.holds.load loads sys.slot
    generalize loadOrRebuildAccumulatorState sha256 loads sys.kv logId sys.slot = loaded at hload ⊢
    obtain ⟨e | tail, slot⟩ := loaded
    · exact h.of_holds h.holds slot
    · rcases hload with hload | ⟨hload, -⟩
      · cases hload
        have hall : stateOf sha256 logId es = stateOf sha256 logId (es.take es.length) := by
          rw [take_length]
        refine (h.setCall (.loaded req _) ⟨es.length, le_refl _, hall⟩ ?_).of_holds h.holds slot
        intro seq hseq
        cases hseq
      · cases hload
  · exact h

theorem Inv.persist (call : Nat) (writes : Bool) :
    Inv sha256 logId (step sha256 logId sys (.persist call writes)) es := by
  simp only [step]
  split
  · rename_i req tail encoded hcall
    have hphase := h.calls call
    rw [hcall] at hphase
    obtain ⟨i, hreq, rfl, rfl⟩ := hphase
    have hi := (List.getElem?_eq_some_iff.mp hreq).1
    split
    · exact h.setCall_idle call
    · rename_i next hnext
      obtain rfl := nextState_ok hnext
      rw [← stateOf_take_succ hreq]
      have hresult : Appended sha256 logId es (appendResult sha256 logId
          (stateOf sha256 logId (es.take i)) req
          (sealEnvelope sha256 (req.input logId (stateOf sha256 logId (es.take i))))
          (stateOf sha256 logId (es.take (i + 1)))) := ⟨i, req, hreq, rfl⟩
      have hheld : ∀ seq, some ((stateOf sha256 logId (es.take i)).lastSeq + 1) = some seq →
          (sys.calls call).seq? = some seq := by
        intro seq hseq
        rw [hcall]
        exact hseq
      split
      · split
        · exact h.setCall (.done _) hresult hheld
        · rename_i kv hwrite
          exact (h.setCall (.stored _ _) hresult hheld).of_holds
            (h.holds.writeState (Nat.succ_pos i) hi hwrite) sys.slot
      · exact h.setCall (.done _) hresult hheld
  · exact h

/-- **One step keeps the invariant**, for the same requests or one more. -/
theorem Inv.step (act : Act) : ∃ es', Inv sha256 logId (step sha256 logId sys act) es' := by
  cases act with
  | load call req loads => exact ⟨es, h.load call req loads⟩
  | create call =>
    simp only [AppendLog.step]
    split
    · rename_i req tail hcall
      split
      · exact ⟨es, h.setCall_idle call⟩
      · rename_i encoded kv hcreate
        exact ⟨es ++ [req], h.create hcall hcreate⟩
    · exact ⟨es, h⟩
  | persist call writes => exact ⟨es, h.persist call writes⟩
  | hint call =>
    refine ⟨es, ?_⟩
    simp only [AppendLog.step]
    split
    · rename_i result lastSeq hcall
      have hphase := h.calls call
      rw [hcall] at hphase
      refine (h.setCall (.done result) hphase ?_).of_holds h.holds _
      intro seq hseq
      rw [hcall]
      exact hseq
    · exact h
  | finish call =>
    refine ⟨es, ?_⟩
    simp only [AppendLog.step]
    split
    · rename_i result hcall
      exact h.finish hcall
    · exact h
  | fail call => exact ⟨es, h.setCall_idle call⟩
  | loseState seq => exact ⟨es, h.of_holds (h.holds.erase_state seq) sys.slot⟩
  | hintOther logHash seq => exact ⟨es, h.of_holds h.holds _⟩
  | restart =>
    refine ⟨es, h.holds, fun _ => trivial, h.results, ?_, ?_, h.distinct⟩
    · intro c d seq hc
      cases hc
    · intro c seq hc
      cases hc
  | put key content =>
    refine ⟨es, ?_⟩
    simp only [AppendLog.step]
    split
    · rename_i hout
      -- a write outside the log's keys leaves the log as it is
      exact h.of_holds (h.holds.of_outside hout
        (fun k hk => ByteMap.get_insert_of_ne _ _ hk)) sys.slot
    · exact h
  | remove key =>
    refine ⟨es, ?_⟩
    simp only [AppendLog.step]
    split
    · rename_i hout
      exact h.of_holds (h.holds.of_outside hout
        (fun k hk => ByteMap.get_erase_of_ne _ hk)) sys.slot
    · exact h

/-- **Every run keeps the invariant.** -/
theorem Inv.run (acts : List Act) : ∃ es', Inv sha256 logId (run sha256 logId sys acts) es' := by
  induction acts generalizing sys es with
  | nil => exact ⟨es, h⟩
  | cons act acts ih =>
    obtain ⟨es', h'⟩ := h.step act
    exact ih h'

end

/-! ## What a reader of the store sees -/

variable (sha256 logId) in
/-- The events stored under the log's prefix are a chain: they are numbered from
one without a gap, and each names the hash of the one before it. -/
structure Chain (kv : Kv) (views : List EventView) : Prop where
  stored : ∀ key content, eventKeyPrefix sha256 logId <+: key →
    (kv.get key = some content ↔ ∃ view ∈ views, key = eventKey sha256 logId view.seq ∧
      content = ⟨view.bytes, view.ingestTimeMs, true⟩)
  decodes : ∀ view ∈ views, decodeEnvelope view.bytes = .ok view
  numbered : ∀ (i : Nat) (view : EventView), views[i]? = some view → view.seq.toNat = i + 1
  first : ∀ view, views[0]? = some view → view.prevEventHash = zeroHash
  linked : ∀ (i : Nat) (view next : EventView), views[i]? = some view →
    views[i + 1]? = some next → next.prevEventHash = view.eventHash

variable (sha256 logId) in
def views (es : List Request) : List EventView :=
  (inputs sha256 logId es).map (EventInput.view sha256)

theorem views_getElem? {view : EventView} (h : (views sha256 logId es)[i]? = some view) :
    ∃ req, es[i]? = some req ∧
      view = (req.input logId (stateOf sha256 logId (es.take i))).view sha256 := by
  rw [views, getElem?_map, inputs, inputsFrom_getElem?, Option.map_map,
    Option.map_eq_some_iff] at h
  obtain ⟨req, hreq, rfl⟩ := h
  exact ⟨req, hreq, rfl⟩

theorem Holds.chain (h : Holds sha256 logId kv es) :
    Chain sha256 logId kv (views sha256 logId es) where
  stored := by
    intro key content hpre
    rw [h.events key content hpre, eventEntries, views, mem_map]
    constructor
    · rintro ⟨input, hin, heq⟩
      obtain ⟨i, req, -, rfl⟩ := mem_inputs_iff.mp hin
      cases heq
      exact ⟨_, mem_map_of_mem hin, rfl, rfl⟩
    · rintro ⟨view, hview, rfl, rfl⟩
      obtain ⟨input, hin, rfl⟩ := mem_map.mp hview
      obtain ⟨i, req, -, rfl⟩ := mem_inputs_iff.mp hin
      exact ⟨_, hin, rfl⟩
  decodes := by
    intro view hview
    obtain ⟨input, hin, rfl⟩ := mem_map.mp hview
    exact decodeEnvelope_seal (h.fits input hin)
  numbered := by
    intro i view hview
    obtain ⟨req, hreq, rfl⟩ := views_getElem? hview
    exact input_seq sha256 logId h.len hreq
  first := by
    intro view hview
    obtain ⟨req, -, rfl⟩ := views_getElem? hview
    rfl
  linked := by
    intro i view next hview hnext
    obtain ⟨req, hreq, rfl⟩ := views_getElem? hview
    obtain ⟨req', -, rfl⟩ := views_getElem? hnext
    rw [stateOf_take_succ hreq]
    rfl

/-- The root in a result is the one of the mountain range over the records up to
its event. -/
theorem Appended.root (h : Appended sha256 logId es result) (hlen : es.length ≤ maxU64) :
    ∃ acc, appendLeaves sha256 (fun _ => true) .init
        (((views sha256 logId es).take result.seq.toNat).map
          (fun view => (sha256 view.bytes).bytes)) = (.ok (), acc) ∧
      result.accumulatorRoot = acc.root sha256 := by
  obtain ⟨i, req, hreq, rfl⟩ := h
  have hnum : (appendResult sha256 logId (stateOf sha256 logId (es.take i)) req
      (sealEnvelope sha256 (req.input logId (stateOf sha256 logId (es.take i))))
      (stateOf sha256 logId (es.take (i + 1)))).seq.toNat = i + 1 := input_seq sha256 logId hlen hreq
  obtain ⟨acc, hrun, -, -, -, hroot⟩ := stateOf_mmr sha256 logId
    (by rw [length_take]; omega : (es.take (i + 1)).length ≤ maxU64)
  refine ⟨acc, ?_, hroot⟩
  rw [leaves, inputs_take] at hrun
  rw [hnum, views, ← map_take, map_map]
  exact hrun

/-- **Linearity of the append log.**  After any run, whatever was interleaved,
failed, lost or restarted: the stored events are a chain that the verifier
accepts, no two results have one number, and the root in each result is the root
of the mountain range over the event records up to its own. -/
theorem append_linear (sha256 : Bytes → Hash) (logId : Bytes) (acts : List Act) :
    ∃ views, Chain sha256 logId (run sha256 logId .init acts).kv views ∧
      ((run sha256 logId .init acts).returned.map AppendResult.seq).Nodup ∧
      (∀ result ∈ (run sha256 logId .init acts).returned,
        0 < result.seq.toNat ∧ result.seq.toNat ≤ views.length ∧
        ∃ acc, appendLeaves sha256 (fun _ => true) .init ((views.take result.seq.toNat).map
            (fun view => (sha256 view.bytes).bytes)) = (.ok (), acc) ∧
          result.accumulatorRoot = acc.root sha256) ∧
      ∃ report, verifyStore sha256 (run sha256 logId .init acts).kv logId = .ok report ∧
        report.count = views.length := by
  obtain ⟨es, h⟩ := (init_inv : Inv sha256 logId .init []).run acts
  have hlen := h.holds.len
  have hviews : (views sha256 logId es).length = es.length := by
    rw [views, length_map, inputs_length]
  refine ⟨views sha256 logId es, h.holds.chain, h.distinct, ?_, _, h.holds.verifyStore,
    hviews.symm⟩
  intro result hmem
  obtain ⟨hpos, hle⟩ := (h.results result hmem).seq_le hlen
  exact ⟨hpos, hviews ▸ hle, (h.results result hmem).root hlen⟩

/-- **After any run a load gives the state rebuilt from the events**, whatever the hint and the
state records; only on a full log it may trap. -/
theorem load_rebuilt (sha256 : Bytes → Hash) (logId : Bytes) (acts : List Act) (loads : Bool)
    (slot : SeqHintSlot) :
    let kv := (run sha256 logId .init acts).kv
    let loaded := (loadOrRebuildAccumulatorState sha256 loads kv logId slot).1
    ∃ state, rebuildAccumulatorState sha256 kv logId = .ok state ∧
      (loaded = .ok state ∨ loaded = .error .trap ∧ state.lastSeq.toNat = maxU64) := by
  obtain ⟨es, h⟩ := (init_inv : Inv sha256 logId .init []).run acts
  refine ⟨_, h.holds.rebuild, (h.holds.load loads slot).imp_right (And.imp_right fun hfull => ?_)⟩
  rw [stateOf_lastSeq _ _ h.holds.len, hfull]

end AppendLog
end WormDB
