import WormDB.ProcedureCalls
import WormDB.Transfer

/-! # Concurrent puts with their bookkeeping

The procedure of `procedures/kv_put.zig`: it writes the value, counts up `stats:writes`, and
writes the record of the key under `meta:<key>`, with the count that it finds there.

In runs of fewer than `2 ^ 63` calls from an empty store, the counts are those of the calls as
long as no write is dropped and the keys are short enough and none of the bookkeeping's own
(`puts_accounted`).  The record of a long key is under the empty key, and so are those of all
long keys; and a value that is put under `stats:writes` is what is counted up
(`puts_not_accounted`). -/
namespace WormDB
open List ByteCodec DecimalText LockedCalls ProcedureCalls
open Function (update_of_ne update_self)

namespace KvPut

/-- What a call takes from outside: the allocator and the clock of its three writes, the time
it asks for, and whether there is memory for an error. -/
structure PutEnv where
  value : WriteEnv
  stats : WriteEnv
  record : WriteEnv
  timestamp : UInt64
  arena : Bool

def statsKey : Bytes := ascii "stats:writes"

/-- `Ctx.fmt`, over a buffer of 512 bytes. -/
def fmt (text : Bytes) : Bytes := if text.length ≤ 512 then text else []

def metaTag : Bytes := ascii "meta:"

def metaKey (key : Bytes) : Bytes := fmt (metaTag ++ key)

def newline : UInt8 := 10

/-- The lines of a text, with what has been read of the first; there is none after the last
end of line. -/
def linesFrom (line : Bytes) : Bytes → List Bytes
  | [] => if line = [] then [] else [line]
  | c :: rest => if c = newline then line :: linesFrom [] rest else linesFrom (line ++ [c]) rest

def splitLines (data : Bytes) : List Bytes := linesFrom [] data

def parseUint (text : Bytes) : Option UInt64 :=
  (parseInt 65 text).bind (fun n => if 0 ≤ n then some n.toNat.toUInt64 else none)

structure MetaFields where
  writeCount : Int
  createdAt : UInt64

def writesTag : Bytes := ascii "writes="
def createdTag : Bytes := ascii "created="

/-- One line of the record.  A count that cannot go up ends the process. -/
def readLine (fields : MetaFields) (line : Bytes) : Option MetaFields :=
  if writesTag.isPrefixOf line then
    match parseInt 64 (line.drop writesTag.length) with
    | some n => if Fits 64 (n + 1) then some { fields with writeCount := n + 1 } else none
    | none => some fields
  else if createdTag.isPrefixOf line then
    match parseUint (line.drop createdTag.length) with
    | some n => some { fields with createdAt := n }
    | none => some fields
  else some fields

def readMeta (now : UInt64) : Option Bytes → Option MetaFields
  | none => some ⟨1, now⟩
  | some raw => (splitLines raw).foldlM readLine ⟨1, now⟩

def record (created now : UInt64) (writes : Int) : Bytes :=
  createdTag ++ digits created.toNat ++ ascii "\nupdated=" ++ digits now.toNat ++
    ascii "\nwrites=" ++ formatInt writes ++ ascii "\nreads=0"

def execute (args : List Bytes) (env : PutEnv) : CtxProg :=
  match args[0]?, args[1]? with
  | some key, some val =>
      set env.value key val
        (.get statsKey (fun writes =>
          if Fits 64 (intOf writes + 1) then
            setInt env.stats statsKey (intOf writes + 1)
              (.get (metaKey key) (fun existingMeta =>
                match readMeta env.timestamp existingMeta with
                | none => .trap
                | some fields =>
                    set env.record (metaKey key)
                      (fmt (record fields.createdAt env.timestamp fields.writeCount)) (.ret .ok)))
          else .trap))
  | _, _ => .ret (err env.arena (ascii "kv_put requires 2 args: <key> <value>"))

/-- The shards of the key, of the counter and of the record, in this order. -/
def locks (args : List Bytes) : List (Fin shardCount) :=
  match args[0]?, args[1]? with
  | some key, some _ => [shardIndex key, shardIndex statsKey, shardIndex (metaKey key)]
  | _, _ => []

def calls {n : Nat} (args : Fin n → List Bytes) (env : Fin n → PutEnv) : CtxCalls n where
  locks i := locks (args i)
  body i := execute (args i) (env i)
  lockOf := shardIndex

/-! ## What is accounted for -/

/-- The number in the record's last line of that name. -/
def writesField (value : Option Bytes) : Option Int :=
  value.bind (fun raw => ((splitLines raw).filterMap (fun line =>
    if writesTag.isPrefixOf line then parseInt 64 (line.drop writesTag.length) else none)).getLast?)

/-- The call has put something, and under the key if one is given. -/
def putsOn {n : Nat} (args : Fin n → List Bytes) (s : CtxState n) (key : Option Bytes) (i : Fin n) : Bool :=
  decide (responseOf s i = some .ok) && key.all (fun key => (args i)[0]? = some key)

/-- The process goes on; the count in the record of a key is that of the puts on it, and the
counter that of all puts, where no call is at them; and no two keys have their records under
one key. -/
structure Accounted {n : Nat} (args : Fin n → List Bytes) (s : CtxState n) : Prop where
  running : ¬ s.Halted
  writes : ∀ key, Quiet s (metaTag ++ key) → (writesField (s.mem.ctxGet (metaTag ++ key))).getD 0 =
    ∑ i, if putsOn args s (some key) i then 1 else 0
  stats : Quiet s statsKey → intOf (s.mem.ctxGet statsKey) = ∑ i, if putsOn args s none i then 1 else 0
  apart : ∀ i j key key' val val', (args i)[0]? = some key → (args i)[1]? = some val →
    (args j)[0]? = some key' → (args j)[1]? = some val' → key ≠ key' → metaKey key ≠ metaKey key'

/-! ## The record -/

theorem linesFrom_append (line part : Bytes) (rest : Bytes) (hpart : newline ∉ part) :
    linesFrom line (part ++ newline :: rest) = (line ++ part) :: linesFrom [] rest := by
  induction part generalizing line with
  | nil => rw [nil_append, linesFrom, if_pos rfl, append_nil]
  | cons c part ih =>
    have hc : c ≠ newline := fun h => hpart (h ▸ mem_cons_self)
    rw [cons_append, linesFrom, if_neg hc, ih _ (fun h => hpart (mem_cons_of_mem _ h)),
      append_assoc, singleton_append]

theorem linesFrom_last (line part : Bytes) (hpart : newline ∉ part) (hne : line ++ part ≠ []) :
    linesFrom line part = [line ++ part] := by
  induction part generalizing line with
  | nil =>
    rw [append_nil] at hne ⊢
    rw [linesFrom, if_neg hne]
  | cons c part ih =>
    have hc : c ≠ newline := fun h => hpart (h ▸ mem_cons_self)
    have hmore : line ++ [c] ++ part ≠ [] := by simp
    rw [linesFrom, if_neg hc, ih _ (fun h => hpart (mem_cons_of_mem _ h)) hmore,
      append_assoc, singleton_append]

theorem newline_not_digits (n : Nat) : newline ∉ digits n := by
  intro h
  obtain ⟨d, hd, heq⟩ := mem_digits h
  interval_cases d <;> exact absurd heq (by decide)

theorem newline_not_formatInt (n : Int) : newline ∉ formatInt n := by
  rw [formatInt]
  split
  · intro h
    rcases mem_cons.mp h with heq | hin
    · exact absurd heq (by decide)
    · exact newline_not_digits _ hin
  · exact newline_not_digits _

def updatedTag : Bytes := ascii "updated="

theorem splitLines_record (created now : UInt64) (writes : Int) :
    splitLines (record created now writes) =
      [createdTag ++ digits created.toNat, updatedTag ++ digits now.toNat,
        writesTag ++ formatInt writes, ascii "reads=0"] := by
  have hrecord : record created now writes = (createdTag ++ digits created.toNat) ++ newline ::
      ((updatedTag ++ digits now.toNat) ++ newline :: ((writesTag ++ formatInt writes) ++ newline ::
        ascii "reads=0")) := by
    rw [record, show ascii "\nupdated=" = newline :: updatedTag from by decide,
      show ascii "\nwrites=" = newline :: writesTag from by decide,
      show ascii "\nreads=0" = newline :: ascii "reads=0" from by decide]
    simp only [append_assoc, cons_append]
  have hout : ∀ tag text : Bytes, newline ∉ tag → newline ∉ text → newline ∉ tag ++ text := by
    intro tag text htag htext h
    rcases mem_append.mp h with hin | hin
    · exact htag hin
    · exact htext hin
  rw [splitLines, hrecord,
    linesFrom_append _ _ _ (hout _ _ (by decide) (newline_not_digits _)),
    linesFrom_append _ _ _ (hout _ _ (by decide) (newline_not_digits _)),
    linesFrom_append _ _ _ (hout _ _ (by decide) (newline_not_formatInt _)),
    linesFrom_last _ _ (by decide) (by decide)]
  rfl

theorem drop_tag (tag text : Bytes) : (tag ++ text).drop tag.length = text := drop_left

theorem writesTag_created (text : Bytes) : writesTag.isPrefixOf (createdTag ++ text) = false := rfl
theorem writesTag_updated (text : Bytes) : writesTag.isPrefixOf (updatedTag ++ text) = false := rfl
theorem createdTag_updated (text : Bytes) : createdTag.isPrefixOf (updatedTag ++ text) = false := rfl

theorem isPrefixOf_self (tag text : Bytes) : tag.isPrefixOf (tag ++ text) = true :=
  isPrefixOf_iff_prefix.mpr (prefix_append tag text)

/-- **The count of a record is read back.** -/
theorem writesField_record (created now : UInt64) {writes : Int} (h : Fits 64 writes) :
    writesField (some (record created now writes)) = some writes := by
  rw [writesField, Option.bind_some, splitLines_record]
  simp only [filterMap_cons, writesTag_created, writesTag_updated, isPrefixOf_self, drop_tag,
    parseInt_formatInt h, Bool.false_eq_true, if_false, if_true, filterMap_nil]
  rw [show writesTag.isPrefixOf (ascii "reads=0") = false from by decide]
  rfl

/-- The next put finds it, and counts up. -/
theorem readMeta_record (created now time : UInt64) {writes : Int} (h : Fits 64 writes)
    (hnext : Fits 64 (writes + 1)) :
    ∃ createdAt, readMeta time (some (record created now writes)) = some ⟨writes + 1, createdAt⟩ := by
  have hcreated : ∃ c, readLine ⟨1, time⟩ (createdTag ++ digits created.toNat) = some ⟨1, c⟩ := by
    rw [readLine, writesTag_created, if_neg Bool.false_ne_true, isPrefixOf_self, if_pos rfl]
    split
    · exact ⟨_, rfl⟩
    · exact ⟨_, rfl⟩
  obtain ⟨c, hc⟩ := hcreated
  have hupdated : readLine ⟨1, c⟩ (updatedTag ++ digits now.toNat) = some ⟨1, c⟩ := by
    rw [readLine, writesTag_updated, if_neg Bool.false_ne_true, createdTag_updated,
      if_neg Bool.false_ne_true]
  have hwrites : readLine ⟨1, c⟩ (writesTag ++ formatInt writes) = some ⟨writes + 1, c⟩ := by
    rw [readLine, isPrefixOf_self, if_pos rfl, drop_tag, parseInt_formatInt h]
    dsimp only
    rw [if_pos hnext]
  have hreads : readLine ⟨writes + 1, c⟩ (ascii "reads=0") = some ⟨writes + 1, c⟩ := by
    rw [readLine, if_neg (by decide), if_neg (by decide)]
  refine ⟨c, ?_⟩
  rw [readMeta, splitLines_record]
  simp only [foldlM_cons, foldlM_nil, hc, hupdated, hwrites, hreads, Option.bind_eq_bind,
    Option.bind_some, Option.pure_def]

theorem fmt_record (created now : UInt64) {writes : Int} (h : Fits 64 writes) :
    fmt (record created now writes) = record created now writes := by
  have hcreated : (digits created.toNat).length ≤ 20 :=
    digits_length_le (by decide) (lt_trans created.toNat_lt (by decide))
  have hnow : (digits now.toNat).length ≤ 20 :=
    digits_length_le (by decide) (lt_trans now.toNat_lt (by decide))
  have hwrites := formatInt_length_le h
  rw [fmt, if_pos]
  simp only [record, length_append]
  have hc : createdTag.length = 8 := by decide
  have hu : (ascii "\nupdated=").length = 9 := by decide
  have hw : (ascii "\nwrites=").length = 8 := by decide
  have hr : (ascii "\nreads=0").length = 8 := by decide
  omega

/-! ## What a put does -/

/-- A call that puts, under the key if one is given. -/
def isPut (args : List Bytes) (key : Option Bytes) : Bool :=
  match args[0]?, args[1]? with
  | some k, some _ => key.all (fun key => k = key)
  | _, _ => false

/-- A key whose record has a key of its own, and that is none of the bookkeeping's. -/
structure Plain (key : Bytes) : Prop where
  short : key.length ≤ 507
  notStats : key ≠ statsKey
  notMeta : ¬ metaTag <+: key

variable {key : Bytes}

theorem Plain.metaKey (h : Plain key) : metaKey key = metaTag ++ key := by
  have hlen : (metaTag ++ key).length ≤ 512 := by
    rw [length_append, show metaTag.length = 5 from by decide]
    have := h.short
    omega
  rw [KvPut.metaKey, fmt, if_pos hlen]

theorem statsKey_ne_meta (key : Bytes) : statsKey ≠ metaTag ++ key := by
  intro h
  have hprefix : metaTag <+: statsKey := ⟨key, h.symm⟩
  exact absurd hprefix (by decide)

section
variable {n : Nat} {args : Fin n → List Bytes}

/-- The puts of these calls, on the key if one is given. -/
def puts (args : Fin n → List Bytes) (key : Option Bytes) (done : List (Fin n)) : Int :=
  (done.map (fun i => if isPut (args i) key then 1 else 0)).sum

theorem puts_snoc (key : Option Bytes) (done : List (Fin n)) (i : Fin n) :
    puts args key (done ++ [i]) = puts args key done + if isPut (args i) key then 1 else 0 := by
  rw [puts, puts, map_append, sum_append, map_singleton, sum_singleton]

theorem puts_bounds (args : Fin n → List Bytes) (key : Option Bytes) (done : List (Fin n)) :
    0 ≤ puts args key done ∧ puts args key done ≤ done.length := by
  induction done with
  | nil => exact ⟨Int.le_refl _, Int.le_refl _⟩
  | cons i rest ih =>
    rw [puts, map_cons, sum_cons, ← puts, length_cons]
    split <;> omega

/-- The counter and the records are right for the calls that have come to their end. -/
structure Book (args : Fin n → List Bytes) (done : List (Fin n)) (view : Bytes → Option Bytes) :
    Prop where
  stats : view statsKey = none ∧ puts args none done = 0 ∨
    view statsKey = some (formatInt (puts args none done))
  records : ∀ key, view (metaTag ++ key) = none ∧ puts args (some key) done = 0 ∨
    ∃ created now, view (metaTag ++ key) = some (record created now (puts args (some key) done))

theorem fits_of_bounds {k : Int} (h : 0 ≤ k) (h' : k < 2 ^ 63) : Fits 64 k := ⟨by omega, by omega⟩

variable {done : List (Fin n)} {view : Bytes → Option Bytes}

theorem Book.intOf_stats (h : Book args done view)
    (hlen : (done.length : Int) < 2 ^ 63) : intOf (view statsKey) = puts args none done := by
  obtain ⟨hlow, hhigh⟩ := puts_bounds args none done
  rcases h.stats with ⟨hnone, hzero⟩ | hsome
  · rw [hnone, hzero]
    rfl
  · rw [hsome]
    exact intOf_formatInt (fits_of_bounds hlow (by omega))

theorem Book.writes (h : Book args done view) (hlen : (done.length : Int) < 2 ^ 63) (key : Bytes) :
    (writesField (view (metaTag ++ key))).getD 0 = puts args (some key) done := by
  obtain ⟨hlow, hhigh⟩ := puts_bounds args (some key) done
  rcases h.records key with ⟨hnone, hzero⟩ | ⟨created, now, hsome⟩
  · rw [hnone, hzero]
    rfl
  · rw [hsome, writesField_record _ _ (fits_of_bounds hlow (by omega))]
    rfl

/-- **A put on its own**: it writes the value, and the book has one more put. -/
theorem Book.put {done : List (Fin n)} {view : Bytes → Option Bytes} (h : Book args done view)
    {i : Fin n} (env : PutEnv) {key val : Bytes} (hkey : (args i)[0]? = some key)
    (hval : (args i)[1]? = some val) (hplain : Plain key) (hlen : (done.length : Int) + 1 < 2 ^ 63) :
    ∃ after, (execute (args i) env).run written view = some (.ok, after) ∧
      Book args (done ++ [i]) after := by
  obtain ⟨hlow, hhigh⟩ := puts_bounds args none done
  obtain ⟨hklow, hkhigh⟩ := puts_bounds args (some key) done
  have hstats : intOf (Function.update view key (some val) statsKey) = puts args none done := by
    rw [update_of_ne (Ne.symm hplain.notStats), h.intOf_stats (by omega)]
  have hfits : Fits 64 (puts args none done + 1) := fits_of_bounds (by omega) (by omega)
  have hmeta : ∃ createdAt, readMeta env.timestamp (view (metaTag ++ key)) =
      some ⟨puts args (some key) done + 1, createdAt⟩ := by
    rcases h.records key with ⟨hnone, hzero⟩ | ⟨created, now, hsome⟩
    · exact ⟨env.timestamp, by rw [hnone, hzero]; rfl⟩
    · rw [hsome]
      exact readMeta_record _ _ _ (fits_of_bounds hklow (by omega)) (fits_of_bounds (by omega) (by omega))
  obtain ⟨createdAt, hmeta⟩ := hmeta
  have hmetaNe : metaTag ++ key ≠ key := fun heq => hplain.notMeta ⟨key, heq⟩
  have hread : Function.update (Function.update view key (some val)) statsKey
      (some (formatInt (puts args none done + 1))) (metaTag ++ key) = view (metaTag ++ key) := by
    rw [update_of_ne (Ne.symm (statsKey_ne_meta key)), update_of_ne hmetaNe]
  refine ⟨Function.update (Function.update (Function.update view key (some val)) statsKey
    (some (formatInt (puts args none done + 1)))) (metaTag ++ key)
      (some (record createdAt env.timestamp (puts args (some key) done + 1))), ?_, ?_, fun k => ?_⟩
  · unfold execute
    simp only [hkey, hval, ProcedureCalls.set, Prog.run, written, hstats, if_pos hfits,
      setInt_of_fits _ hfits, hread, hmeta, hplain.metaKey,
      fmt_record _ _ (fits_of_bounds (show 0 ≤ puts args (some key) done + 1 by omega) (by omega))]
  · right
    rw [puts_snoc, update_of_ne (statsKey_ne_meta key), update_self, isPut, hkey, hval]
    rfl
  · by_cases hk : k = key
    · subst hk
      right
      refine ⟨createdAt, env.timestamp, ?_⟩
      rw [update_self, puts_snoc, isPut, hkey, hval]
      simp
    · have hother : isPut (args i) (some k) = false := by
        rw [isPut, hkey, hval]
        simpa using Ne.symm hk
      rw [puts_snoc, hother, update_of_ne (fun heq => hk (append_cancel_left heq)),
        update_of_ne (Ne.symm (statsKey_ne_meta k)),
        update_of_ne (fun heq => hplain.notMeta ⟨k, heq⟩)]
      simpa using h.records k

/-- A call for want of arguments. -/
theorem run_refused {i : Fin n} (env : PutEnv) (hno : isPut (args i) none = false)
    (view : Bytes → Option Bytes) :
    ∃ msg, (execute (args i) env).run written view = some (.err msg, view) := by
  unfold execute
  rw [isPut] at hno
  cases h0 : (args i)[0]? with
  | none => exact ⟨_, rfl⟩
  | some key =>
    cases h1 : (args i)[1]? with
    | none => exact ⟨_, rfl⟩
    | some val =>
      rw [h0, h1] at hno
      cases hno

theorem isPut_of_none {args : List Bytes} (h : isPut args none = false) (key : Option Bytes) :
    isPut args key = false := by
  rw [isPut] at h ⊢
  cases h0 : args[0]? with
  | none => rfl
  | some k =>
    cases h1 : args[1]? with
    | none => rfl
    | some val =>
      rw [h0, h1] at h
      cases h

theorem args_of_isPut {args : List Bytes} (h : isPut args none = true) :
    ∃ key val, args[0]? = some key ∧ args[1]? = some val := by
  rw [isPut] at h
  cases h0 : args[0]? with
  | none =>
    rw [h0] at h
    cases h
  | some k =>
    cases h1 : args[1]? with
    | none =>
      rw [h0, h1] at h
      cases h
    | some val => exact ⟨k, val, rfl, rfl⟩

/-- The keys of the calls that put. -/
def PlainKeys (args : Fin n → List Bytes) : Prop :=
  ∀ i key val, (args i)[0]? = some key → (args i)[1]? = some val → Plain key

/-- **Any call on its own** keeps the book. -/
theorem Book.call (h : Book args done view)
    (hplain : PlainKeys args) (env : PutEnv) (i : Fin n) (hlen : (done.length : Int) + 1 < 2 ^ 63) :
    ∃ result after, (execute (args i) env).run written view = some (result, after) ∧
      Book args (done ++ [i]) after ∧ (result = .ok ↔ isPut (args i) none = true) := by
  cases hput : isPut (args i) none with
  | true =>
    obtain ⟨key, val, hkey, hval⟩ := args_of_isPut hput
    obtain ⟨after, hrun, hbook⟩ := h.put env hkey hval (hplain i key val hkey hval) hlen
    exact ⟨_, _, hrun, hbook, by simp⟩
  | false =>
    obtain ⟨msg, hrun⟩ := run_refused env hput view
    refine ⟨_, _, hrun, ⟨?_, fun key => ?_⟩, by simp⟩
    · rw [puts_snoc, hput, if_neg Bool.false_ne_true, Int.add_zero]
      exact h.stats
    · rw [puts_snoc, isPut_of_none hput, if_neg Bool.false_ne_true, Int.add_zero]
      exact h.records key

variable {events : List (Event n Bytes (Option Bytes) Response)}

theorem Book.serial {env : Fin n → PutEnv} (hn : n < 2 ^ 63) (hplain : PlainKeys args)
    {view₀ : Bytes → Option Bytes} (hempty : ∀ key, view₀ key = none)
    {expected : Fin n → Bytes → Option Bytes → Prop}
    (hserial : Serial written (calls args env) expected view₀ events view)
    (honce : (events.map Event.call).Nodup) : Book args (events.map Event.call) view ∧
      ∀ e ∈ events, e.result = .ok ↔ isPut (args e.call) none = true := by
  induction hserial with
  | nil => exact ⟨⟨.inl ⟨hempty _, rfl⟩, fun key => .inl ⟨hempty _, rfl⟩⟩, nofun⟩
  | @snoc events before after i result _ hrun _ ih =>
    rw [map_append] at honce ⊢
    obtain ⟨hbook, hresults⟩ := ih (nodup_append.mp honce).1
    have hcard := honce.length_le_card
    rw [length_append, map_singleton, length_singleton, Fintype.card_fin] at hcard
    obtain ⟨result', after', hrun', hbook', hresult⟩ := hbook.call hplain (env i) i (by omega)
    cases hrun.symm.trans hrun'
    refine ⟨hbook', fun e he => ?_⟩
    rcases mem_append.mp he with hin | hin
    · exact hresults e hin
    · obtain rfl := mem_singleton.mp hin
      exact hresult

theorem execute_covered (args : List Bytes) (env : PutEnv) :
    (execute args env).Covered (fun k => shardIndex k ∈ locks args) := by
  rw [execute, locks]
  cases args[0]? with
  | none => trivial
  | some key =>
    cases args[1]? with
    | none => trivial
    | some val =>
      refine ⟨by simp, by simp, fun writes => ?_⟩
      dsimp only
      by_cases hfits : Fits 64 (intOf writes + 1)
      · rw [if_pos hfits, setInt_of_fits _ hfits]
        refine ⟨by simp, by simp, fun raw => ?_⟩
        dsimp only
        cases readMeta env.timestamp raw with
        | none => trivial
        | some fields => exact ⟨by simp, trivial⟩
      · rw [if_neg hfits]
        trivial

/-- The puts that have come to their end are those that have returned. -/
theorem sum_puts {s : CtxState n} (honce : (events.map Event.call).Nodup)
    (hdone : ∀ i result, responseOf s i = some result ↔ ∃ e ∈ events, e.call = i ∧ e.result = result)
    (hresults : ∀ e ∈ events, e.result = .ok ↔ isPut (args e.call) none = true)
    (key : Option Bytes) :
    puts args key (events.map Event.call) = ∑ i, if putsOn args s key i then 1 else 0 := by
  rw [puts, sum_done honce hdone]
  refine Finset.sum_congr rfl (fun i _ => ?_)
  rw [putsOn]
  cases hresponse : responseOf s i with
  | none => rfl
  | some result =>
    obtain ⟨e, he, rfl, rfl⟩ := (hdone i result).mp hresponse
    rw [Option.isSome_some, if_pos rfl]
    cases hput : isPut (args e.call) none with
    | true =>
      obtain ⟨k, val, hk, hval⟩ := args_of_isPut hput
      rw [(hresults e he).mpr hput, isPut, hk, hval]
      cases key with
      | none => rfl
      | some key => simp
    | false =>
      have hne : e.result ≠ .ok := by
        intro heq
        rw [(hresults e he).mp heq] at hput
        cases hput
      rw [isPut_of_none hput]
      simp [hne]

/-- **The puts are accounted for**: in every run of fewer than `2 ^ 63` calls, on any plain keys
and any values, from an empty store, in which no write is dropped. -/
theorem puts_accounted {env : Fin n → PutEnv} {o₀ : Overlay} {s : CtxState n} (hn : n < 2 ^ 63)
    (hempty : ∀ key, o₀.ctxGet key = none) (hplain : PlainKeys args)
    (hrun : Run ctxMemory (calls args env) (Meets ctxMemory (fun _ _ _ => True) Writable)
      (State.start o₀ (calls args env)) s) : Accounted args s := by
  obtain ⟨view, events, hserial, hinv⟩ := hrun.serial (fun i => execute_covered (args i) (env i))
    (fun _ _ _ h => h.read)
  have honce := hinv.once
  obtain ⟨hbook, hresults⟩ := Book.serial hn hplain hempty hserial honce
  have hdone := responses hinv
  have hlen : ((events.map Event.call).length : Int) < 2 ^ 63 := by
    have hcard := honce.length_le_card
    rw [Fintype.card_fin] at hcard
    omega
  refine ⟨?_, fun key hquiet => ?_, fun hquiet => ?_, ?_⟩
  · rintro ⟨i, held, hphase⟩
    have hknows := hinv.knows i
    rw [hphase] at hknows
    have hnew : (i :: events.map Event.call).Nodup := by
      refine nodup_cons.mpr ⟨fun hmem => ?_, honce⟩
      obtain ⟨e, he, hcall⟩ := mem_map.mp hmem
      exact hknows.2.2 e he hcall
    have hcard := hnew.length_le_card
    rw [length_cons, Fintype.card_fin] at hcard
    obtain ⟨result, after, hrun', -⟩ := hbook.call hplain (env i) i (by omega)
    exact absurd ((hinv.trapped hphase).1.symm.trans hrun') (by simp)
  · have hstill : s.mem.ctxGet (metaTag ++ key) = view (metaTag ++ key) := hinv.still _ hquiet
    rw [hstill, hbook.writes hlen, sum_puts honce hdone hresults]
  · have hstill : s.mem.ctxGet statsKey = view statsKey := hinv.still _ hquiet
    rw [hstill, hbook.intOf_stats hlen, sum_puts honce hdone hresults]
  · intro i j key key' val val' hkey hval hkey' hval' hne heq
    rw [(hplain i key val hkey hval).metaKey, (hplain j key' val' hkey' hval').metaKey] at heq
    exact hne (append_cancel_left heq)

end

/-! ## A put on its own -/

section Solo
variable {args : List Bytes} {env : PutEnv} {o : Overlay}

def solo (args : List Bytes) (env : PutEnv) : CtxCalls 1 := calls (fun _ => args) (fun _ => env)

/-- Memory for the three writes. -/
structure PutEnv.Ample (env : PutEnv) : Prop where
  value : env.value.Ample
  stats : env.stats.Ample
  record : env.record.Ample

theorem ctxSet_free {env : WriteEnv} (henv : env.Ample) (key value : Bytes)
    (hfree : ∀ k, o.store.wormBlocked k = false) (k : Bytes) :
    (o.ctxSet env key value).store.wormBlocked k = false := by
  rw [Overlay.wormBlocked_eq]
  by_cases hk : k = key
  · rw [hk, Overlay.ctxSet_visible henv (hfree key)]
    rfl
  · rw [Overlay.ctxSet_visible_of_ne env o value hk, ← Overlay.wormBlocked_eq]
    exact hfree k

theorem execute_allowed (henv : env.Ample) (hfree : ∀ k, o.store.wormBlocked k = false) :
    (execute args env).Allowed ctxMemory (fun _ _ => True) Writable o := by
  rw [execute]
  cases args[0]? with
  | none => trivial
  | some key =>
    cases args[1]? with
    | none => trivial
    | some val =>
      have hvalue := ctxSet_free henv.value key val hfree
      refine ⟨⟨hfree key, henv.value⟩, trivial, ?_⟩
      dsimp only
      by_cases hfits : Fits 64 (intOf (ctxMemory.read (ctxMemory.write o key (env.value, val)) statsKey) + 1)
      · rw [if_pos hfits, setInt_of_fits _ hfits]
        refine ⟨⟨hvalue statsKey, henv.stats⟩, trivial, ?_⟩
        dsimp only
        split
        · trivial
        · exact ⟨⟨ctxSet_free henv.stats statsKey _ hvalue _, henv.record⟩, trivial⟩
      · rw [if_neg hfits]
        trivial

/-- What a body leaves can be written to. -/
theorem exec_free {expected : Bytes → Option Bytes → Prop} {result : Response} {o' : Overlay}
    {body : Prog Bytes (Option Bytes) (WriteEnv × Bytes) Response}
    (hallowed : body.Allowed ctxMemory expected Writable o)
    (hfree : ∀ k, o.store.wormBlocked k = false) (hexec : body.exec ctxMemory o = some (result, o')) :
    ∀ k, o'.store.wormBlocked k = false := by
  induction body generalizing o with
  | ret result =>
    cases hexec
    exact hfree
  | trap => cases hexec
  | get key next ih => exact ih _ hallowed.2 hfree hexec
  | put key write next ih => exact ih hallowed.2 (ctxSet_free hallowed.1.2 key _ hfree) hexec

/-- A call that nobody disturbs. -/
theorem run_alone {n : Nat} {args : Fin n → List Bytes} {env : Fin n → PutEnv} {i : Fin n}
    {s₀ s : CtxState n} {view after : Bytes → Option Bytes} {result : Response}
    (henv : (env i).Ample)
    (hsteps : Run ctxMemory (calls args env) (Meets ctxMemory (fun _ _ _ => True) Writable) s₀ s)
    (hidle : OthersIdle s.phases i) (hphase : s.phases i = .acquiring [] (locks (args i)))
    (hfree : ∀ k, s.mem.store.wormBlocked k = false) (hview : ctxMemory.read s.mem = view)
    (hrun : (execute (args i) (env i)).run written view = some (result, after)) :
    ∃ o, Run ctxMemory (calls args env) (Meets ctxMemory (fun _ _ _ => True) Writable) s₀
        ⟨o, Function.update s.phases i (.releasing [] result)⟩ ∧
      (∀ k, o.store.wormBlocked k = false) ∧ ctxMemory.read o = after := by
  have hallowed : (execute (args i) (env i)).Allowed _ _ _ s.mem := execute_allowed henv hfree
  have hexec := Prog.run_of_allowed (fun _ _ _ h => Writable.read h) hallowed
  rw [hview, hrun] at hexec
  obtain ⟨⟨result', o⟩, hmem, heq⟩ := Option.map_eq_some_iff.mp hexec.symm
  cases heq
  exact ⟨o, hsteps.alone hidle hphase hallowed hmem, exec_free hallowed hfree hmem, rfl⟩

/-- From the empty store. -/
theorem exists_solo (henv : env.Ample) {result : Response} {after : Bytes → Option Bytes}
    (hrun : (execute args env).run written (fun _ => none) = some (result, after)) :
    ∃ s : CtxState 1, Run ctxMemory (solo args env) (Meets ctxMemory (fun _ _ _ => True) Writable)
        (State.start (Overlay.mount [] (Nat.zero_le _)) (solo args env)) s ∧
      responseOf s 0 = some result ∧ (∀ key, s.mem.ctxGet key = after key) ∧ ∀ key, Quiet s key := by
  obtain ⟨o', hsteps, -, hafter⟩ := @run_alone 1 (fun _ => args) (fun _ => env) 0
    (State.start (Overlay.mount [] (Nat.zero_le _)) (solo args env)) _ _ _ _ henv .nil (.solo _) rfl (fun _ => rfl) rfl hrun
  rw [update_solo] at hsteps
  refine ⟨_, hsteps, rfl, congrFun hafter, ?_⟩
  rintro key i held rest hphase
  cases hphase

theorem putsOn_of_ok {n : Nat} {args : Fin n → List Bytes} {s : CtxState n} {i : Fin n}
    (hresponse : responseOf s i = some .ok) (hkey : (args i)[0]? = some key) :
    putsOn args s (some key) i = true := by
  rw [putsOn, hresponse, Option.all_some, hkey]
  simp

/-- The first put, on a key that is not that of the counter or of its own record. -/
theorem run_first (key val : Bytes) (env : PutEnv) (hstats : key ≠ statsKey)
    (hmeta : metaKey key ≠ statsKey) (hself : metaKey key ≠ key) :
    (execute [key, val] env).run written (fun _ => none) = some (.ok, Function.update (Function.update
      (Function.update (fun _ => none) key (some val)) statsKey (some (ascii "1"))) (metaKey key)
        (some (record env.timestamp env.timestamp 1))) := by
  have hcount : intOf (Function.update (fun _ => none) key (some val) statsKey) + 1 = 1 := by
    rw [update_of_ne (Ne.symm hstats)]
    rfl
  have hfits : Fits 64 1 := by decide
  have hread : Function.update (Function.update (fun _ => none) key (some val)) statsKey
      (some (formatInt 1)) (metaKey key) = none := by
    rw [update_of_ne hmeta, update_of_ne hself]
  have hfields : readMeta env.timestamp none = some ⟨1, env.timestamp⟩ := rfl
  unfold execute
  simp only [getElem?_cons_zero, getElem?_cons_succ, ProcedureCalls.set, Prog.run, written,
    hcount, if_pos hfits, setInt_of_fits _ hfits, hread, hfields, fmt_record _ _ hfits]
  rfl

end Solo

def samplePutEnv : PutEnv := ⟨ampleEnv, ampleEnv, ampleEnv, 0, true⟩

theorem samplePutEnv_ample : samplePutEnv.Ample := ⟨ampleEnv_ample, ampleEnv_ample, ampleEnv_ample⟩

/-- The arguments of two puts of one key. -/
def twoPuts : Fin 2 → List Bytes
  | 0 => [[97], [98]]
  | 1 => [[97], [99]]

/-- Two puts of one key, one after the other. -/
theorem puts_accounted_two :
    ∃ s : CtxState 2, (∀ i, responseOf s i = some .ok) ∧ s.mem.ctxGet [97] = some [99] ∧
      s.mem.ctxGet statsKey = some (ascii "2") ∧
      s.mem.ctxGet (ascii "meta:a") = some (record 0 0 2) ∧ Accounted twoPuts s := by
  obtain ⟨o₁, hrun₁, hfree₁, hview₁⟩ := @run_alone 2 twoPuts (fun _ => samplePutEnv) 0
    (State.start (Overlay.mount [] (Nat.zero_le _)) (calls twoPuts fun _ => samplePutEnv)) _
    (fun _ => none) _ .ok samplePutEnv_ample .nil (fun j hj => ⟨rfl, nofun⟩) rfl (fun _ => rfl) rfl rfl
  obtain ⟨o₂, hrun₂, -, hview₂⟩ := @run_alone 2 twoPuts (fun _ => samplePutEnv) 1 _ _ _ _ .ok
    samplePutEnv_ample hrun₁ (fun | 0, _ => ⟨rfl, nofun⟩ | 1, hj => absurd rfl hj) rfl hfree₁ hview₁ rfl
  have hplain : PlainKeys twoPuts := by
    rintro (i : Fin 2) key val hkey -
    have hself : key = [97] := by
      match i with
      | 0 | 1 => cases hkey; rfl
    subst hself
    exact ⟨by decide, by decide, by decide⟩
  refine ⟨_, ?_, ?_, ?_, ?_, puts_accounted (by decide) (fun _ => rfl) hplain hrun₂⟩
  · intro i
    match i with
    | 0 | 1 => rfl
  · exact congrFun hview₂ _
  · exact congrFun hview₂ _
  · exact congrFun hview₂ _

/-- The record of a long key is under the empty key. -/
theorem metaKey_long (h : 507 < key.length) : metaKey key = [] := by
  rw [metaKey, fmt, if_neg]
  rw [length_append, show metaTag.length = 5 from by decide]
  omega

/-- **A long key, and a key of the bookkeeping**: the record of the one is where those of all
long keys are, and the count goes on from the value of the other. -/
theorem puts_not_accounted :
    (∃ s : CtxState 1, Run ctxMemory (solo [replicate 508 97, [98]] samplePutEnv)
        (Meets ctxMemory (fun _ _ _ => True) Writable) (State.start (Overlay.mount [] (Nat.zero_le _))
          (solo [replicate 508 97, [98]] samplePutEnv)) s ∧
      responseOf s 0 = some .ok ∧ s.mem.ctxGet (metaTag ++ replicate 508 97) = none ∧
      s.mem.ctxGet [] = some (record 0 0 1) ∧
      ¬ Accounted (fun _ => [replicate 508 97, [98]]) s) ∧
    metaKey (replicate 508 97) = metaKey (replicate 508 98) ∧
    ∃ s : CtxState 1, Run ctxMemory (solo [statsKey, ascii "41"] samplePutEnv)
        (Meets ctxMemory (fun _ _ _ => True) Writable) (State.start (Overlay.mount [] (Nat.zero_le _))
          (solo [statsKey, ascii "41"] samplePutEnv)) s ∧
      responseOf s 0 = some .ok ∧ s.mem.ctxGet statsKey = some (ascii "42") ∧
      ¬ Accounted (fun _ => [statsKey, ascii "41"]) s := by
  have hlong : ∀ c : UInt8, metaKey (replicate 508 c) = [] :=
    fun c => metaKey_long (by rw [length_replicate]; decide)
  refine ⟨?_, (hlong 97).trans (hlong 98).symm, ?_⟩
  · have hne : replicate 508 (97 : UInt8) ≠ statsKey := fun heq =>
      absurd (congrArg List.length heq) (by rw [length_replicate]; decide)
    have hempty : ([] : Bytes) ≠ replicate 508 97 := by rw [replicate_succ]; exact nofun
    obtain ⟨s, hrun, hresponse, hget, hquiet⟩ := exists_solo samplePutEnv_ample
      (@run_first (replicate 508 97) [98] samplePutEnv hne
        (by rw [hlong]; decide) (by rw [hlong]; exact hempty))
    rw [hlong] at hget
    have hnone : s.mem.ctxGet (metaTag ++ replicate 508 97) = none := by
      have hcons : metaTag ++ replicate 508 97 ≠ [] :=
        append_ne_nil_of_left_ne_nil (by decide) _
      have hlen : metaTag ++ replicate 508 97 ≠ replicate 508 97 := fun heq =>
        absurd (append_left_eq_self.mp heq) (by decide)
      rw [hget, update_of_ne hcons, update_of_ne (Ne.symm (statsKey_ne_meta _)),
        update_of_ne hlen]
    refine ⟨s, hrun, hresponse, hnone, by rw [hget, update_self]; rfl, fun haccounted => ?_⟩
    have hcount := haccounted.writes (replicate 508 97) (hquiet _)
    have hput : putsOn (fun _ => [replicate 508 97, [98]]) s (some (replicate 508 97)) 0 =
        true := putsOn_of_ok hresponse rfl
    rw [hnone, Fin.sum_univ_one, hput] at hcount
    exact absurd hcount (by decide)
  · obtain ⟨s, hrun, hresponse, hget, hquiet⟩ :=
      @exists_solo [statsKey, ascii "41"] samplePutEnv samplePutEnv_ample .ok _ rfl
    have hstats : s.mem.ctxGet statsKey = some (ascii "42") := by rw [hget]; rfl
    refine ⟨s, hrun, hresponse, hstats, fun haccounted => ?_⟩
    have hcount := haccounted.stats (hquiet _)
    have hput : putsOn (fun _ => [statsKey, ascii "41"]) s none 0 = true := by
      rw [putsOn, hresponse]
      rfl
    rw [hstats, Fin.sum_univ_one, hput] at hcount
    exact absurd hcount (by decide)

end KvPut
end WormDB
