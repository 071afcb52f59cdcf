import Mathlib.Algebra.BigOperators.Fin
import WormDB.LockedCalls
import WormDB.ProcedureCtx
import WormDB.Wire

/-! # Concurrent calls of a stored procedure

A procedure locks the shards of its keys, reads and writes through its `Ctx`, and `deinit`
gives the shards back.  As calls on a memory (`ctxMemory`), their runs are serial as long as
no write is dropped: `Ctx.set` drops the error of a WORM key and of an allocation. -/
namespace WormDB
open ByteCodec DecimalText LockedCalls

namespace ProcedureCalls

/-- The accesses of `Ctx`. -/
def ctxMemory : KeyMemory Overlay Bytes (Option Bytes) (WriteEnv × Bytes) where
  read o key := o.ctxGet key
  write o key value := o.ctxSet value.1 key value.2
  read_write_of_ne o key k value hne := by
    rw [Overlay.ctxGet_eq, Overlay.ctxGet_eq, Overlay.ctxSet_visible_of_ne _ _ _ hne]

theorem read_ctx (o : Overlay) (key : Bytes) : ctxMemory.read o key = o.ctxGet key := rfl

/-- What a write leaves that is not dropped. -/
def written (value : WriteEnv × Bytes) : Option Bytes := some value.2

/-- The write is not dropped. -/
def Writable (o : Overlay) (key : Bytes) (value : WriteEnv × Bytes) : Prop :=
  o.store.wormBlocked key = false ∧ value.1.Ample

variable {key : Bytes}

theorem Writable.read {o : Overlay} {value : WriteEnv × Bytes} (h : Writable o key value) :
    ctxMemory.read (ctxMemory.write o key value) key = written value := by
  show (o.ctxSet value.1 key value.2).ctxGet key = _
  rw [Overlay.ctxGet_eq, Overlay.ctxSet_visible h.2 h.1]
  rfl

abbrev CtxProg := Prog Bytes (Option Bytes) (WriteEnv × Bytes) Response

abbrev CtxCalls (n : Nat) := Calls n Bytes (Option Bytes) (WriteEnv × Bytes) Response (Fin shardCount)

abbrev CtxState (n : Nat) :=
  State n Overlay Bytes (Option Bytes) (WriteEnv × Bytes) Response (Fin shardCount)

/-- What `getInt` makes of a value, with zero when there is no number. -/
def intOf (value : Option Bytes) : Int := (value.bind (parseInt 64)).getD 0

/-- The value is a number, or there is none. -/
def Numeric (value : Option Bytes) : Prop := ∀ text, value = some text → (parseInt 64 text).isSome = true

variable {val : Int}

theorem intOf_formatInt (h : Fits 64 val) : intOf (some (formatInt val)) = val := by
  rw [intOf, Option.bind_some, parseInt_formatInt h, Option.getD_some]

/-- `Ctx.set`. -/
def set (env : WriteEnv) (key value : Bytes) (next : CtxProg) : CtxProg := .put key (env, value) next

/-- `Ctx.setInt`, over a buffer of 32 bytes. -/
def setInt (env : WriteEnv) (key : Bytes) (val : Int) (next : CtxProg) : CtxProg :=
  if (formatInt val).length ≤ 32 then set env key (formatInt val) next else next

/-- `Ctx.err`: without memory in the arena the message is another. -/
def err (arena : Bool) (msg : Bytes) : Response := .err (if arena then msg else ascii "internal_error")

/-- `Ctx.valueInt`. -/
def valueInt (arena : Bool) (val : Int) : Response :=
  if (formatInt val).length ≤ 32 then .value (if arena then some (formatInt val) else none)
  else .err (ascii "format_error")

theorem setInt_of_fits (env : WriteEnv) (h : Fits 64 val) (next : CtxProg) :
    setInt env key val next = .put key (env, formatInt val) next := by
  rw [setInt, if_pos (le_trans (formatInt_length_le h) (by decide)), set]

/-! ## The order of a run -/

section
variable {n : Nat}

/-- No call is between its locks and its response at the key. -/
def Quiet (s : CtxState n) (key : Bytes) : Prop :=
  ∀ i held rest, s.phases i = .running held rest → shardIndex key ∉ held

/-- The response of a call that has come to its end. -/
def responseOf (s : CtxState n) (i : Fin n) : Option Response :=
  match s.phases i with
  | .releasing _ result => some result
  | _ => none

variable {s : CtxState n}

theorem responseOf_eq_some {i : Fin n} {result : Response} :
    responseOf s i = some result ↔ ∃ held, s.phases i = .releasing held result := by
  rw [responseOf]
  constructor
  · intro h
    split at h
    · rename_i held r hphase
      cases h
      exact ⟨held, hphase⟩
    · cases h
  · rintro ⟨held, hphase⟩
    rw [hphase]

variable {events : List (Event n Bytes (Option Bytes) Response)}

/-- The calls that have a response are those that have come to their end. -/
theorem responses {calls : CtxCalls n} {expected : Fin n → Bytes → Option Bytes → Prop}
    {view : Bytes → Option Bytes}
    (hinv : Inv ctxMemory written calls expected s view events) (i : Fin n) (result : Response) :
    responseOf s i = some result ↔ ∃ e ∈ events, e.call = i ∧ e.result = result := by
  rw [responseOf_eq_some]
  constructor
  · rintro ⟨held, hphase⟩
    have hknows := hinv.knows i
    rw [hphase] at hknows
    exact hknows
  · rintro ⟨e, he, rfl, rfl⟩
    exact hinv.done e he

/-- What the calls come to that have come to their end. -/
theorem sum_done (honce : (events.map Event.call).Nodup)
    (hdone : ∀ i result, responseOf s i = some result ↔ ∃ e ∈ events, e.call = i ∧ e.result = result)
    (f : Fin n → Int) :
    ((events.map Event.call).map f).sum = ∑ i, if (responseOf s i).isSome then f i else 0 := by
  rw [← List.sum_toFinset _ honce, ← Finset.univ_inter (events.map Event.call).toFinset,
    ← Finset.sum_ite_mem]
  refine Finset.sum_congr rfl (fun i _ => ?_)
  cases hresponse : responseOf s i with
  | none =>
    rw [if_neg]
    · rfl
    · intro hmem
      obtain ⟨e, he, rfl⟩ := List.mem_map.mp (List.mem_toFinset.mp hmem)
      rw [(hdone e.call e.result).mpr ⟨e, he, rfl, rfl⟩] at hresponse
      cases hresponse
  | some result =>
    obtain ⟨e, he, rfl, rfl⟩ := (hdone i result).mp hresponse
    rw [if_pos (List.mem_toFinset.mpr (List.mem_map.mpr ⟨e, he, rfl⟩))]
    rfl

end

end ProcedureCalls
end WormDB
