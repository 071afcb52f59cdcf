import WormDB.ProcedureCalls
import WormDB.Transfer

/-! # Concurrent increments

The procedure of `procedures/increment.zig`, and runs of any number of its calls.  No update
is lost and every call returns what it stored (`increments_counted`) as long as the value is a
number or not there, the sum is an `i64`, the write is not dropped and there is memory for the
response.  On a WORM key a call returns a number that it has not stored; a value that is no
number is overwritten; a sum out of range ends the process (`increments_not_counted`). -/
namespace WormDB
open List ByteCodec DecimalText LockedCalls ProcedureCalls

namespace Increment

/-- What a call takes from outside: the allocator and the clock of its write, and whether
there is memory for its response. -/
structure CallEnv where
  write : WriteEnv
  arena : Bool

/-- The second argument, or one. -/
def delta (args : List Bytes) : Int := ((args[1]?).bind (parseInt 64)).getD 1

def execute (args : List Bytes) (env : CallEnv) : CtxProg :=
  match args[0]? with
  | none => .ret (err env.arena (ascii "increment requires at least 1 arg: <key> [<delta>]"))
  | some key =>
      .get key (fun value =>
        let newVal := intOf value + delta args
        -- the sum is an `i64`
        if Fits 64 newVal then setInt env.write key newVal (.ret (valueInt env.arena newVal)) else .trap)

def locks (args : List Bytes) : List (Fin shardCount) := (args[0]?).toList.map shardIndex

def calls {n : Nat} (args : Fin n → List Bytes) (env : Fin n → CallEnv) : CtxCalls n where
  locks i := locks (args i)
  body i := execute (args i) (env i)
  lockOf := shardIndex

/-- The call has added its delta to the key. -/
def counts {n : Nat} (args : Fin n → List Bytes) (s : CtxState n) (key : Bytes) (i : Fin n) : Bool :=
  match responseOf s i with
  | some (.value _) => (args i)[0]? = some key
  | _ => false

/-- What a call has done: nothing for want of a key, or it has returned what it stored, its
delta more than what was there. -/
def Outcome {n : Nat} (args : List Bytes) (e : Event n Bytes (Option Bytes) Response) : Prop :=
  match args[0]? with
  | none => (∃ msg, e.result = .err msg) ∧ e.after = e.before
  | some key =>
      ∃ val, Numeric (e.before key) ∧ val = intOf (e.before key) + delta args ∧ Fits 64 val ∧
        e.after = Function.update e.before key (some (formatInt val)) ∧
        e.result = .value (some (formatInt val))

/-- The process goes on; the calls that have returned have taken effect one after the other;
and the number under a key that no call is at is what it was, with the deltas of the calls
that succeeded. -/
structure Counted {n : Nat} (args : Fin n → List Bytes) (o₀ : Overlay) (s : CtxState n) : Prop where
  running : ¬ s.Halted
  order : ∃ (events : List (Event n Bytes (Option Bytes) Response)) (view : Bytes → Option Bytes),
    Chain o₀.ctxGet events view ∧ (events.map Event.call).Nodup ∧
      (∀ i result, responseOf s i = some result ↔ ∃ e ∈ events, e.call = i ∧ e.result = result) ∧
      (∀ e ∈ events, Outcome (args e.call) e) ∧ ∀ key, Quiet s key → s.mem.ctxGet key = view key
  sum : ∀ key, Quiet s key → intOf (s.mem.ctxGet key) =
    intOf (o₀.ctxGet key) + ∑ i, if counts args s key i then delta (args i) else 0

/-- The condition on a call that is about to read: it finds a number, or nothing, the sum is
in range, and there will be memory for the response. -/
def Expected {n : Nat} (args : Fin n → List Bytes) (env : Fin n → CallEnv) (i : Fin n) (_key : Bytes)
    (value : Option Bytes) : Prop :=
  Numeric value ∧ Fits 64 (intOf value + delta (args i)) ∧ (env i).arena = true

section
variable {n : Nat} {args : Fin n → List Bytes} {env : Fin n → CallEnv}

theorem execute_covered (args : List Bytes) (env : CallEnv) :
    (execute args env).Covered (fun k => shardIndex k ∈ locks args) := by
  rw [execute, locks]
  cases args[0]? with
  | none => trivial
  | some key =>
    refine ⟨by simp, fun value => ?_⟩
    dsimp only
    split
    · rename_i hfits
      rw [setInt_of_fits env.write hfits]
      exact ⟨by simp, trivial⟩
    · trivial

variable {i : Fin n}

/-- **A call on its own.** -/
theorem outcome_of_run {before after : Bytes → Option Bytes} {result : Response}
    (hrun : (execute (args i) (env i)).run written before = some (result, after))
    (hsound : (execute (args i) (env i)).Sound written (Expected args env i) before) :
    Outcome (args i) (⟨i, result, before, after⟩ : Event n Bytes (Option Bytes) Response) := by
  unfold execute at hrun hsound
  unfold Outcome
  cases hkey : (args i)[0]? with
  | none =>
    simp only [hkey] at hrun
    cases hrun
    exact ⟨⟨_, rfl⟩, rfl⟩
  | some key =>
    simp only [hkey] at hrun hsound
    obtain ⟨⟨hnumeric, hfits, harena⟩, -⟩ := hsound
    rw [Prog.run, if_pos hfits, setInt_of_fits _ hfits] at hrun
    cases hrun
    refine ⟨_, hnumeric, rfl, hfits, rfl, ?_⟩
    rw [valueInt, if_pos (le_trans (formatInt_length_le hfits) (by decide)), if_pos harena]

variable {view : Bytes → Option Bytes}

theorem run_isSome (hsound : (execute (args i) (env i)).Sound written (Expected args env i) view) :
    (execute (args i) (env i)).run written view ≠ none := by
  unfold execute at hsound ⊢
  cases hkey : (args i)[0]? with
  | none => simp [Prog.run]
  | some key =>
    simp only [hkey] at hsound ⊢
    rw [Prog.run, if_pos hsound.1.2.1, setInt_of_fits _ hsound.1.2.1]
    simp [Prog.run]

/-- What a call adds to the number under a key. -/
theorem Outcome.adds {args : List Bytes} {e : Event n Bytes (Option Bytes) Response}
    (h : Outcome args e) (key : Bytes) :
    intOf (e.after key) = intOf (e.before key) + if args[0]? = some key then delta args else 0 := by
  unfold Outcome at h
  cases hkey : args[0]? with
  | none =>
    simp only [hkey] at h
    rw [h.2]
    simp
  | some k =>
    simp only [hkey] at h
    obtain ⟨val, -, hval, hfits, hafter, -⟩ := h
    rw [hafter]
    by_cases hk : key = k
    · subst hk
      rw [Function.update_self, intOf_formatInt hfits, if_pos rfl, hval]
    · rw [Function.update_of_ne hk, if_neg (fun h => hk (Option.some.inj h).symm), Int.add_zero]

variable {events : List (Event n Bytes (Option Bytes) Response)}

theorem chain_sum {args : Fin n → List Bytes}
    {last : Bytes → Option Bytes} (hchain : Chain view events last)
    (houtcome : ∀ e ∈ events, Outcome (args e.call) e) (key : Bytes) :
    intOf (last key) = intOf (view key) + ((events.map Event.call).map (fun i =>
      if (args i)[0]? = some key then delta (args i) else 0)).sum := by
  induction events generalizing view with
  | nil =>
    obtain rfl : last = view := hchain
    simp
  | cons e rest ih =>
    obtain ⟨rfl, hrest⟩ := hchain
    rw [ih hrest (fun e he => houtcome e (mem_cons_of_mem _ he)),
      (houtcome e mem_cons_self).adds key, map_cons, map_cons, sum_cons, Int.add_assoc]

/-- The calls that have come to their end are those that count. -/
theorem sum_counts {s : CtxState n} (honce : (events.map Event.call).Nodup)
    (hdone : ∀ i result, responseOf s i = some result ↔ ∃ e ∈ events, e.call = i ∧ e.result = result)
    (houtcome : ∀ e ∈ events, Outcome (args e.call) e) (key : Bytes) :
    ((events.map Event.call).map (fun i => if (args i)[0]? = some key then delta (args i) else 0)).sum =
      ∑ i, if counts args s key i then delta (args i) else 0 := by
  rw [sum_done honce hdone]
  refine Finset.sum_congr rfl (fun i _ => ?_)
  rw [counts]
  cases hresponse : responseOf s i with
  | none => rfl
  | some result =>
    obtain ⟨e, he, rfl, rfl⟩ := (hdone i result).mp hresponse
    have hout := houtcome e he
    unfold Outcome at hout
    cases hkey : (args e.call)[0]? with
    | none =>
      simp only [hkey] at hout
      obtain ⟨⟨msg, hmsg⟩, -⟩ := hout
      rw [hmsg]
      simp
    | some k =>
      simp only [hkey] at hout
      obtain ⟨val, -, -, -, -, hresult⟩ := hout
      rw [hresult]
      simp

/-- **No increment is lost**: in every run of any number of calls, on any keys and deltas and
from any store, whose steps all meet the condition. -/
theorem increments_counted {o₀ : Overlay} {s : CtxState n}
    (hrun : Run ctxMemory (calls args env) (Meets ctxMemory (Expected args env) Writable)
      (State.start o₀ (calls args env)) s) : Counted args o₀ s := by
  obtain ⟨view, events, hserial, hinv⟩ := hrun.serial (fun i => execute_covered (args i) (env i))
    (fun _ _ _ h => h.read)
  have houtcome : ∀ e ∈ events, Outcome (args e.call) e := by
    clear hinv hrun
    induction hserial with
    | nil => exact nofun
    | snoc _ hbody hsound ih =>
      intro e he
      rcases mem_append.mp he with hin | hin
      · exact ih e hin
      · obtain rfl := mem_singleton.mp hin
        exact outcome_of_run hbody hsound
  have hdone := responses hinv
  have hstill : ∀ key, Quiet s key → s.mem.ctxGet key = view key := fun key hquiet => hinv.still key hquiet
  refine ⟨?_, ⟨events, view, hserial.chain, hinv.once, hdone, houtcome, hstill⟩, fun key hquiet => ?_⟩
  · rintro ⟨i, held, hphase⟩
    obtain ⟨hnone, hsound⟩ := hinv.trapped hphase
    exact run_isSome hsound hnone
  · rw [hstill key hquiet, chain_sum hserial.chain houtcome key, sum_counts hinv.once hdone houtcome key]
    rfl

end

/-! ## A call on its own -/

section Solo
variable {args : List Bytes} {env : CallEnv} {o : Overlay} {key : Bytes}

def solo (args : List Bytes) (env : CallEnv) : CtxCalls 1 := calls (fun _ => args) (fun _ => env)

theorem execute_exec (hkey : args[0]? = some key) :
    (execute args env).exec ctxMemory o = if Fits 64 (intOf (o.ctxGet key) + delta args) then
      some (valueInt env.arena (intOf (o.ctxGet key) + delta args),
        o.ctxSet env.write key (formatInt (intOf (o.ctxGet key) + delta args)))
      else none := by
  rw [execute, hkey]
  dsimp only [Prog.exec]
  rw [read_ctx]
  by_cases hfits : Fits 64 (intOf (o.ctxGet key) + delta args)
  · rw [if_pos hfits, if_pos hfits, setInt_of_fits _ hfits]
    rfl
  · rw [if_neg hfits, if_neg hfits]
    rfl

theorem execute_allowed {expected : Bytes → Option Bytes → Prop}
    {writable : Overlay → Bytes → WriteEnv × Bytes → Prop} (hkey : args[0]? = some key)
    (hfits : Fits 64 (intOf (o.ctxGet key) + delta args)) (hexpected : expected key (o.ctxGet key))
    (hwritable : writable o key (env.write, formatInt (intOf (o.ctxGet key) + delta args))) :
    (execute args env).Allowed ctxMemory expected writable o := by
  rw [execute, hkey]
  refine ⟨hexpected, ?_⟩
  dsimp only
  rw [read_ctx, if_pos hfits, setInt_of_fits _ hfits]
  exact ⟨hwritable, trivial⟩

/-- A call that nobody disturbs, with a sum in range. -/
theorem run_alone {n : Nat} {args : Fin n → List Bytes} {env : Fin n → CallEnv} {i : Fin n}
    {s₀ s : CtxState n} {expected : Fin n → Bytes → Option Bytes → Prop}
    {writable : Overlay → Bytes → WriteEnv × Bytes → Prop} {val : Int}
    (hsteps : Run ctxMemory (calls args env) (Meets ctxMemory expected writable) s₀ s)
    (hidle : OthersIdle s.phases i) (hphase : s.phases i = .acquiring [] (locks (args i)))
    (hkey : (args i)[0]? = some key) (hsum : intOf (s.mem.ctxGet key) + delta (args i) = val)
    (hfits : Fits 64 val) (hexpected : expected i key (s.mem.ctxGet key))
    (hwritable : writable s.mem key ((env i).write, formatInt val)) :
    Run ctxMemory (calls args env) (Meets ctxMemory expected writable) s₀
      ⟨s.mem.ctxSet (env i).write key (formatInt val),
        Function.update s.phases i (.releasing [] (valueInt (env i).arena val))⟩ := by
  subst hsum
  have hexec : (execute (args i) (env i)).exec ctxMemory s.mem = _ := execute_exec hkey
  rw [if_pos hfits] at hexec
  exact hsteps.alone hidle hphase (execute_allowed hkey hfits hexpected hwritable) hexec

end Solo

/-- With memory. -/
def sampleEnv : CallEnv := ⟨ampleEnv, true⟩

/-- A store with one key. -/
theorem exists_store (key value : Bytes) (isWorm : Bool) :
    ∃ o : Overlay, o.visible key = some ⟨value, ampleEnv.now, isWorm⟩ := by
  obtain ⟨o, hset⟩ := Overlay.setUnsafe_ok ampleEnv_ample
    (show (Overlay.mount [] (Nat.zero_le _)).store.wormBlocked key = false from rfl) value isWorm
  exact ⟨o, by rw [Overlay.setUnsafe_visible hset, if_pos rfl]⟩

/-- The arguments of an increment by two and of one by one. -/
def twoIncrements : Fin 2 → List Bytes
  | 0 => [[97], ascii "2"]
  | 1 => [[97]]

/-- Five incremented by two, and then by one. -/
theorem increments_counted_two :
    ∃ (o₀ : Overlay) (s : CtxState 2), o₀.ctxGet [97] = some (ascii "5") ∧
      responseOf s 0 = some (.value (some (ascii "7"))) ∧
      responseOf s 1 = some (.value (some (ascii "8"))) ∧
      s.mem.ctxGet [97] = some (ascii "8") ∧ Counted twoIncrements o₀ s := by
  obtain ⟨o, hvisible⟩ := exists_store [97] (ascii "5") false
  have hread : ∀ {o : Overlay} {c : Content}, o.visible [97] = some c → c.isWorm = false →
      o.ctxGet [97] = some c.value ∧ o.store.wormBlocked [97] = false := by
    intro o c hvisible hworm
    rw [Overlay.ctxGet_eq, Overlay.wormBlocked_eq, hvisible]
    exact ⟨rfl, hworm⟩
  obtain ⟨hget, hfree⟩ := hread hvisible rfl
  have hvisible' := Overlay.ctxSet_visible ampleEnv_ample hfree (formatInt 7)
  obtain ⟨hget', hfree'⟩ := hread hvisible' rfl
  have hlast := Overlay.ctxSet_visible ampleEnv_ample hfree' (formatInt 8)
  have hexpected : ∀ {o : Overlay} {text : Bytes} (i : Fin 2), o.ctxGet [97] = some text →
      (parseInt 64 text).isSome → Fits 64 (intOf (some text) + delta (twoIncrements i)) →
      Expected twoIncrements (fun _ => sampleEnv) i [97] (o.ctxGet [97]) := by
    intro o text i hget hnumber hfits
    rw [hget]
    exact ⟨fun _ htext => by cases htext; exact hnumber, hfits, rfl⟩
  have hfirst := @run_alone [97] 2 twoIncrements (fun _ => sampleEnv) 0
    (State.start o (calls twoIncrements fun _ => sampleEnv)) _ _ Writable 7 .nil
    (fun j hj => ⟨rfl, nofun⟩) rfl rfl (by dsimp only [State.start]; rw [hget]; decide) (by decide)
    (hexpected 0 hget (by decide) (by decide)) ⟨hfree, ampleEnv_ample⟩
  have hsecond := @run_alone [97] 2 twoIncrements (fun _ => sampleEnv) 1 _ _ _ Writable 8 hfirst
    (fun | 0, _ => ⟨rfl, nofun⟩ | 1, hj => absurd rfl hj) rfl rfl
    ((congrArg (fun v => intOf v + delta [[97]]) hget').trans (by decide)) (by decide)
    (hexpected 1 hget' (by decide) (by decide)) ⟨hfree', ampleEnv_ample⟩
  refine ⟨o, _, hget, rfl, rfl, ?_, increments_counted hsecond⟩
  show ((o.ctxSet ampleEnv [97] (formatInt 7)).ctxSet ampleEnv [97] (formatInt 8)).ctxGet [97] = _
  rw [(hread hlast rfl).1]
  rfl

/-- **A WORM key, no number, and the last number**: a call returns what it has not stored, the
value is overwritten, the process ends. -/
theorem increments_not_counted :
    (∃ (o₀ : Overlay) (s : CtxState 1),
      Run ctxMemory (solo [[97]] sampleEnv) (Meets ctxMemory (fun _ _ _ => True) (fun _ _ _ => True))
        (State.start o₀ (solo [[97]] sampleEnv)) s ∧
      o₀.ctxGet [97] = some (ascii "5") ∧ responseOf s 0 = some (.value (some (ascii "6"))) ∧
      s.mem.ctxGet [97] = some (ascii "5") ∧ ¬ Counted (fun _ => [[97]]) o₀ s) ∧
    (∃ (o₀ : Overlay) (s : CtxState 1),
      Run ctxMemory (solo [[97]] sampleEnv) (Meets ctxMemory (fun _ _ _ => True) (fun _ _ _ => True))
        (State.start o₀ (solo [[97]] sampleEnv)) s ∧
      o₀.ctxGet [97] = some (ascii "five") ∧ responseOf s 0 = some (.value (some (ascii "1"))) ∧
      s.mem.ctxGet [97] = some (ascii "1") ∧ ¬ Counted (fun _ => [[97]]) o₀ s) ∧
    ∃ (o₀ : Overlay) (s : CtxState 1),
      Run ctxMemory (solo [[97]] sampleEnv) (Meets ctxMemory (fun _ _ _ => True) (fun _ _ _ => True))
        (State.start o₀ (solo [[97]] sampleEnv)) s ∧
      o₀.ctxGet [97] = some (ascii "9223372036854775807") ∧ s.Halted ∧
      ¬ Counted (fun _ => [[97]]) o₀ s := by
  have houtcome : ∀ {o₀ : Overlay} {s : CtxState 1} (text : Bytes), Counted (fun _ => [[97]]) o₀ s →
      responseOf s 0 = some (.value (some text)) → Quiet s [97] →
      Numeric (o₀.ctxGet [97]) ∧ s.mem.ctxGet [97] = some text := by
    intro o₀ s text hcounted hresponse hquiet
    obtain ⟨events, view, hchain, honce, hdone, hout, hstill⟩ := hcounted.order
    obtain ⟨e, he, hcall, hresult⟩ := (hdone 0 _).mp hresponse
    -- the call is the only one
    have hone : events = [e] := by
      have hlen : events.length ≤ 1 := by
        rw [← length_map (f := Event.call)]
        exact honce.length_le_card
      match events, he, hlen with
      | [e'], he, _ => rw [mem_singleton.mp he]
    subst hone
    obtain ⟨hbefore, hlast⟩ := hchain
    obtain ⟨val, hnumeric, -, -, hafter, hvalue⟩ : ∃ val, Numeric (e.before [97]) ∧
        val = intOf (e.before [97]) + delta [[97]] ∧ Fits 64 val ∧
        e.after = Function.update e.before [97] (some (formatInt val)) ∧
        e.result = .value (some (formatInt val)) := hout e he
    rw [hbefore] at hnumeric
    refine ⟨hnumeric, ?_⟩
    rw [hstill [97] hquiet, show view = e.after from hlast, hafter, Function.update_self, ← Response.value.inj
      (hvalue.symm.trans hresult)]
  have hquiet : ∀ (o : Overlay) (result : Response),
      Quiet (⟨o, fun _ => .releasing [] result⟩ : CtxState 1) [97] := by
    rintro o result i held rest hphase
    cases hphase
  have hrun : ∀ {o : Overlay} {val : Int}, intOf (o.ctxGet [97]) + delta [[97]] = val → Fits 64 val →
      Run ctxMemory (solo [[97]] sampleEnv) (Meets ctxMemory (fun _ _ _ => True) (fun _ _ _ => True))
        (State.start o (solo [[97]] sampleEnv))
        ⟨o.ctxSet ampleEnv [97] (formatInt val), fun _ => .releasing [] (valueInt true val)⟩ := by
    intro o val hsum hfits
    rw [← update_solo (State.start o (solo [[97]] sampleEnv)).phases]
    exact @run_alone [97] 1 (fun _ => [[97]]) (fun _ => sampleEnv) 0 _ (.start o _) _ _ val .nil
      (.solo _) rfl rfl hsum hfits trivial trivial
  refine ⟨?_, ?_, ?_⟩
  · obtain ⟨o, hvisible⟩ := exists_store [97] (ascii "5") true
    have hget : o.ctxGet [97] = some (ascii "5") := by rw [Overlay.ctxGet_eq, hvisible]; rfl
    have hblocked : o.store.wormBlocked [97] = true := by rw [Overlay.wormBlocked_eq, hvisible]; rfl
    have hsum : intOf (o.ctxGet [97]) + delta [[97]] = 6 := by rw [hget]; decide
    have hrun := hrun hsum (by decide)
    have hafter : (o.ctxSet ampleEnv [97] (formatInt 6)).ctxGet [97] = some (ascii "5") := by
      have hsame : o.ctxSet ampleEnv [97] (formatInt 6) = o := by
        rw [Overlay.ctxSet]
        split
        · rename_i o' hset
          rw [Overlay.setUnsafe_blocked hset] at hblocked
          cases hblocked
        · rfl
      rw [hsame, hget]
    refine ⟨o, _, hrun, hget, rfl, hafter, fun hcounted => ?_⟩
    have hstored := (houtcome (ascii "6") hcounted rfl (hquiet _ _)).2
    rw [show (o.ctxSet ampleEnv [97] (formatInt 6)).ctxGet [97] = some (ascii "6") from hstored] at hafter
    exact absurd hafter (by decide)
  · obtain ⟨o, hvisible⟩ := exists_store [97] (ascii "five") false
    have hget : o.ctxGet [97] = some (ascii "five") := by rw [Overlay.ctxGet_eq, hvisible]; rfl
    have hfree : o.store.wormBlocked [97] = false := by rw [Overlay.wormBlocked_eq, hvisible]; rfl
    have hsum : intOf (o.ctxGet [97]) + delta [[97]] = 1 := by rw [hget]; decide
    have hrun := hrun hsum (by decide)
    refine ⟨o, _, hrun, hget, rfl, ?_, fun hcounted => ?_⟩
    · show (o.ctxSet ampleEnv [97] (formatInt 1)).ctxGet [97] = _
      rw [Overlay.ctxGet_eq, Overlay.ctxSet_visible ampleEnv_ample hfree]
      rfl
    · have hnumeric := (houtcome (ascii "1") hcounted rfl (hquiet _ _)).1
      exact absurd (hnumeric _ hget) (by decide)
  · obtain ⟨o, hvisible⟩ := exists_store [97] (ascii "9223372036854775807") false
    have hget : o.ctxGet [97] = some (ascii "9223372036854775807") := by
      rw [Overlay.ctxGet_eq, hvisible]
      rfl
    have hsum : intOf (o.ctxGet [97]) + delta [[97]] = 9223372036854775808 := by rw [hget]; decide
    have hexec := @execute_exec [[97]] sampleEnv o [97] rfl
    rw [if_neg (by rw [hsum]; decide)] at hexec
    obtain ⟨s, hrun, hhalted⟩ := @Run.alone_trap _ _ _ _ _ _ 1 ctxMemory (solo [[97]] sampleEnv)
      (fun _ _ _ => True) (fun _ _ _ => True) o (.start o _) 0 _ (.solo _) .nil rfl
      (Prog.allowed_true ctxMemory _ o) hexec
    exact ⟨o, s, hrun, hget, hhalted, fun hcounted => hcounted.running hhalted⟩

end Increment
end WormDB
