import WormDB.AgentMemory
import WormDB.ProcedureCtx
import WormDB.ScanCallback
import WormDB.UnstableSort

/-! # The documents of a time range

`mem_range` of `procedures/memory.zig`: a scan over the namespace collects the documents whose
timestamps are in the range, shard by shard; they are sorted by timestamp and id, and then
written out up to the limit, each with its metadata, without those that the filter refuses.

The parser of filters and their matching are the variables `parse` and `selects`; memory is
assumed to be there.  `range_documents` says what is returned. -/
namespace WormDB
open List ByteCodec DecimalText Auth

namespace AgentMemory

variable {Filter : Type}

/-! ## Arguments -/

def defaultRangeLimit : Nat := 100
def maxRangeLimit : Nat := 10000

structure RangeArgs (Filter : Type) where
  ns : Bytes
  sinceMs : UInt64
  untilMs : UInt64
  limit : Nat
  filter : Option Filter

def orErr {α : Type} (value : Option α) (message : String) : Except Bytes α :=
  match value with
  | some value => .ok value
  | none => .error (ascii message)

def demand (test : Bool) (message : String) : Except Bytes Unit :=
  if test then .ok () else .error (ascii message)

def rangeLimit : Option Bytes → Except Bytes Nat
  | none => .ok defaultRangeLimit
  | some raw => do
      let limit ← orErr (parseU64 raw) "mem_range: limit must be a non-negative integer"
      demand (limit.toNat ≤ maxRangeLimit) "mem_range: limit must be <= 10000"
      return limit.toNat

def rangeFilter (parse : Bytes → Option Filter) : Option Bytes → Except Bytes (Option Filter)
  | none => .ok none
  | some raw => do
      let filter ← orErr (parse raw) "mem_range: invalid filter predicate"
      return some filter

def rangeUsage : String :=
  "mem_range requires: <ns> <since_ms> <until_ms> [<limit>] [<filter>]"

def rangeArgs (parse : Bytes → Option Filter) (auth : AuthContext) (args : List Bytes) :
    Except Bytes (RangeArgs Filter) := do
  let ns ← orErr args[0]? rangeUsage
  let sinceMs ← orErr (args[1]?.bind parseU64) "mem_range: since_ms must be an integer"
  let untilMs ← orErr (args[2]?.bind parseU64) "mem_range: until_ms must be an integer"
  demand (validateNs ns) "mem_range: invalid ns"
  demand (permitsNamespace auth ns .read) "permission denied"
  demand (sinceMs ≤ untilMs) "mem_range: since_ms must be <= until_ms"
  let limit ← rangeLimit args[3]?
  let filter ← rangeFilter parse args[4]?
  return ⟨ns, sinceMs, untilMs, limit, filter⟩

/-! ## The scan -/

structure RangeItem where
  id : Bytes
  timestamp : UInt64

def rangeItemLessThan (a b : RangeItem) : Bool :=
  if a.timestamp = b.timestamp then decide (a.id < b.id) else decide (a.timestamp < b.timestamp)

def onRangeDoc (prefixLen : Nat) (sinceMs untilMs : UInt64) (items : List RangeItem)
    (r : ScanResult) : List RangeItem × ScanAction :=
  if r.timestamp < sinceMs ∨ untilMs < r.timestamp then (items, .cont)
  else if r.key.length ≤ prefixLen then (items, .cont)
  else if (r.key.drop prefixLen).contains colon then (items, .cont)
  else (items ++ [⟨r.key.drop prefixLen, r.timestamp⟩], .cont)

/-! ## The text -/

/-- What is written of a document. -/
structure RangeDoc where
  id : Bytes
  timestamp : UInt64
  metadata : Option Bytes

def hexDigit (n : UInt8) : UInt8 := if n < 10 then 0x30 + n else 0x61 + (n - 10)

/-- One byte of `appendJsonEscaped`. -/
def jsonEscaped (c : UInt8) : Bytes :=
  if c = 0x22 then [0x5C, 0x22]
  else if c = 0x5C then [0x5C, 0x5C]
  else if c = 0x0A then [0x5C, 0x6E]
  else if c = 0x0D then [0x5C, 0x72]
  else if c = 0x09 then [0x5C, 0x74]
  else if c < 0x20 then ascii "\\u00" ++ [hexDigit (c >>> 4), hexDigit (c &&& 0x0F)]
  else [c]

def rangeDocText (doc : RangeDoc) : Bytes :=
  ascii "\x7b\"id\":\"" ++ doc.id.flatMap jsonEscaped ++ ascii "\",\"ts\":" ++
    digits doc.timestamp.toNat ++ ascii ",\"meta\":" ++ doc.metadata.getD (ascii "null") ++
    ascii "\x7d"

def rangeText (docs : List RangeDoc) : Bytes :=
  ascii "[" ++ List.intercalate (ascii ",") (docs.map rangeDocText) ++ ascii "]"

/-- The loop over the sorted items.  Only what is written counts for the limit. -/
def emitRange (metadata : Bytes → Option Bytes) (accepts : Option Bytes → UInt64 → Bool)
    (limit : Nat) : List RangeItem → Nat → List RangeDoc
  | [], _ => []
  | item :: rest, emitted =>
      if limit > 0 ∧ emitted ≥ limit then []
      else if accepts (metadata item.id) item.timestamp = false then
        emitRange metadata accepts limit rest emitted
      else
        ⟨item.id, item.timestamp, metadata item.id⟩ ::
          emitRange metadata accepts limit rest (emitted + 1)

def acceptsMeta (selects : Filter → Option Bytes → UInt64 → Bool) (filter : Option Filter)
    (metadata : Option Bytes) (timestamp : UInt64) : Bool :=
  filter.all fun filter => selects filter metadata timestamp

def memRange (sort : UnstableSort rangeItemLessThan) (parse : Bytes → Option Filter)
    (selects : Filter → Option Bytes → UInt64 → Bool) (auth : AuthContext) (args : List Bytes)
    (o : Overlay) : Option Response :=
  match rangeArgs parse auth args with
  | .error message => some (.err message)
  | .ok range => do
      let items ← o.scanPrefixCallback
        (onRangeDoc (memPrefix range.ns).length range.sinceMs range.untilMs) (memPrefix range.ns) []
      return .value (some (rangeText (emitRange (fun id => o.ctxGet (metaKey range.ns id))
        (acceptsMeta selects range.filter) range.limit (sort.run items) 0)))

/-! ## What is returned -/

/-- A document of the range: its key is visible with its timestamp, its metadata is what is
visible under its metadata key, and the filter accepts both. -/
structure IsRangeDoc (o : Overlay) (selects : Filter → Option Bytes → UInt64 → Bool)
    (range : RangeArgs Filter) (doc : RangeDoc) : Prop where
  ne_nil : doc.id ≠ []
  plain : colon ∉ doc.id
  stored : ∃ value isWorm, o.visible (docKey range.ns doc.id) = some ⟨value, doc.timestamp, isWorm⟩
  inside : range.sinceMs ≤ doc.timestamp ∧ doc.timestamp ≤ range.untilMs
  metadata : doc.metadata = (o.visible (metaKey range.ns doc.id)).map Content.value
  accepted : ∀ filter, range.filter = some filter → selects filter doc.metadata doc.timestamp = true

/-- By timestamp, and by id where the timestamps are equal. -/
def RangeDoc.Before (a b : RangeDoc) : Prop :=
  a.timestamp < b.timestamp ∨ a.timestamp = b.timestamp ∧ a.id < b.id

/-- The first documents of the range, all of them for the limit 0. -/
def IsRange (o : Overlay) (selects : Filter → Option Bytes → UInt64 → Bool)
    (range : RangeArgs Filter) (docs : List RangeDoc) : Prop :=
  ∃ all : List RangeDoc, all.Pairwise RangeDoc.Before ∧
    (∀ doc, doc ∈ all ↔ IsRangeDoc o selects range doc) ∧ docs = firstOf range.limit all

section
variable {o : Overlay} {selects : Filter → Option Bytes → UInt64 → Bool} {range : RangeArgs Filter}

/-- The item that the scan makes of an entry. -/
def rangeItem (prefixLen : Nat) (sinceMs untilMs : UInt64) (r : ScanResult) : Option RangeItem :=
  if (sinceMs ≤ r.timestamp ∧ r.timestamp ≤ untilMs) ∧ prefixLen < r.key.length ∧
      colon ∉ r.key.drop prefixLen then
    some ⟨r.key.drop prefixLen, r.timestamp⟩
  else none

theorem onRangeDoc_eq (prefixLen : Nat) (sinceMs untilMs : UInt64) (items : List RangeItem)
    (r : ScanResult) : onRangeDoc prefixLen sinceMs untilMs items r =
      (items ++ (rangeItem prefixLen sinceMs untilMs r).toList, .cont) := by
  rw [onRangeDoc, rangeItem]
  split
  case isTrue hout =>
    rw [if_neg, Option.toList_none, append_nil]
    rintro ⟨⟨hsince, huntil⟩, -⟩
    exact hout.elim (UInt64.not_lt.mpr hsince) (UInt64.not_lt.mpr huntil)
  case isFalse hin =>
    rw [not_or, UInt64.not_lt, UInt64.not_lt] at hin
    split
    case isTrue hshort =>
      rw [if_neg, Option.toList_none, append_nil]
      rintro ⟨-, hlen, -⟩
      omega
    case isFalse hlong =>
      split
      case isTrue hcolon =>
        rw [if_neg, Option.toList_none, append_nil]
        rintro ⟨-, -, hplain⟩
        exact hplain (contains_iff_mem.mp hcolon)
      case isFalse hplain =>
        rw [if_pos ⟨hin, by omega, fun hcolon => hplain (contains_iff_mem.mpr hcolon)⟩]
        rfl

theorem foldl_toList {α β : Type} (f : α → Option β) (xs : List α) (acc : List β) :
    xs.foldl (fun acc x => acc ++ (f x).toList) acc = acc ++ xs.filterMap f := by
  induction xs generalizing acc with
  | nil => simp
  | cons x xs ih =>
    rw [foldl_cons, ih, filterMap_cons, append_assoc]
    cases f x <;> rfl

/-- **What the scan collects.** -/
theorem collected_items (o : Overlay) (ns : Bytes) (sinceMs untilMs : UInt64) :
    o.scanPrefixCallback (onRangeDoc (memPrefix ns).length sinceMs untilMs) (memPrefix ns) [] =
      some ((o.gathered (memPrefix ns)).filterMap
        (rangeItem (memPrefix ns).length sinceMs untilMs)) := by
  rw [Overlay.scanPrefixCallback_eq, visit_cont (onRangeDoc_eq _ _ _), foldl_toList, nil_append]

variable {r : ScanResult}

theorem mem_gathered {p : Bytes} (honce : o.FrozenOnce p) : r ∈ o.gathered p ↔
    p <+: r.key ∧ o.visible r.key = some ⟨r.value, r.timestamp, r.isWorm⟩ := by
  rw [(o.gathered_perm p).mem_iff, ← (o.collected_perm_view p honce).mem_iff, o.mem_view p]

variable {sinceMs untilMs : UInt64} {item : RangeItem}

theorem rangeItem_eq_some {prefixLen : Nat} : rangeItem prefixLen sinceMs untilMs r = some item ↔
      ((sinceMs ≤ r.timestamp ∧ r.timestamp ≤ untilMs) ∧ prefixLen < r.key.length ∧
        colon ∉ r.key.drop prefixLen) ∧ r.key.drop prefixLen = item.id ∧
        r.timestamp = item.timestamp := by
  rw [rangeItem, Option.ite_none_right_eq_some, Option.some.injEq, RangeItem.mk.injEq]

variable {ns : Bytes}

/-- The items are those of the documents in the range. -/
theorem mem_items (honce : o.FrozenOnce (memPrefix ns)) :
    item ∈ (o.gathered (memPrefix ns)).filterMap (rangeItem (memPrefix ns).length sinceMs untilMs) ↔
      item.id ≠ [] ∧ colon ∉ item.id ∧
      (∃ value isWorm, o.visible (docKey ns item.id) = some ⟨value, item.timestamp, isWorm⟩) ∧
      sinceMs ≤ item.timestamp ∧ item.timestamp ≤ untilMs := by
  rw [mem_filterMap]
  constructor
  · rintro ⟨r, hr, hitem⟩
    obtain ⟨⟨hin, hlen, hplain⟩, hid, hts⟩ := rangeItem_eq_some.mp hitem
    obtain ⟨⟨id, hkey⟩, hvisible⟩ := (mem_gathered honce).mp hr
    rw [← hkey, drop_left] at hid hplain
    rw [← hkey, length_append] at hlen
    subst hid
    rw [← hts, docKey, hkey]
    exact ⟨ne_nil_of_length_pos (by omega), hplain, ⟨_, _, hvisible⟩, hin⟩
  · rintro ⟨hne, hplain, ⟨value, isWorm, hvisible⟩, hin⟩
    refine ⟨⟨docKey ns item.id, value, item.timestamp, isWorm⟩,
      (mem_gathered honce).mpr ⟨prefix_append _ _, hvisible⟩, rangeItem_eq_some.mpr ?_⟩
    have hpos := length_pos_iff.mpr hne
    simp only [docKey, drop_left, length_append]
    exact ⟨⟨hin, by omega, hplain⟩, trivial, trivial⟩

variable {a b : RangeItem}

theorem rangeItem_apart (h : a.id ≠ b.id) :
    rangeItemLessThan a b = true ∨ rangeItemLessThan b a = true := by
  rw [rangeItemLessThan, rangeItemLessThan]
  by_cases hts : a.timestamp = b.timestamp
  · rw [if_pos hts, if_pos hts.symm, decide_eq_true_eq, decide_eq_true_eq]
    by_contra hno
    rw [not_or] at hno
    exact h (List.le_antisymm (List.not_lt.mp hno.2) (List.not_lt.mp hno.1))
  · rw [if_neg hts, if_neg (Ne.symm hts), decide_eq_true_eq, decide_eq_true_eq]
    rw [UInt64.lt_iff_toNat_lt, UInt64.lt_iff_toNat_lt]
    have hne : a.timestamp.toNat ≠ b.timestamp.toNat := mt UInt64.toNat_inj.mp hts
    omega

/-- No document is collected twice. -/
theorem items_apart (honce : o.FrozenOnce (memPrefix ns)) : ((o.gathered (memPrefix ns)).filterMap
      (rangeItem (memPrefix ns).length sinceMs untilMs)).Pairwise
        fun a b => rangeItemLessThan a b = true ∨ rangeItemLessThan b a = true := by
  have hdistinct : (o.gathered (memPrefix ns)).Pairwise (fun a b => a.key ≠ b.key) :=
    ((o.gathered_perm (memPrefix ns)).pairwise_iff (fun hne => Ne.symm hne)).mpr
      ((o.collected_distinct_iff _).mpr honce)
  rw [pairwise_filterMap]
  refine hdistinct.imp_of_mem fun {r r'} hr hr' hne item hitem item' hitem' => ?_
  refine rangeItem_apart fun hid => hne ?_
  obtain ⟨-, hid₁, -⟩ := rangeItem_eq_some.mp hitem
  obtain ⟨-, hid₂, -⟩ := rangeItem_eq_some.mp hitem'
  obtain ⟨⟨id, hkey⟩, -⟩ := (mem_gathered honce).mp hr
  obtain ⟨⟨id', hkey'⟩, -⟩ := (mem_gathered honce).mp hr'
  rw [← hkey, drop_left] at hid₁
  rw [← hkey', drop_left] at hid₂
  rw [← hkey, ← hkey', hid₁, hid₂, hid]

/-- The loop writes what the filter accepts, up to the limit. -/
theorem emitRange_eq (metadata : Bytes → Option Bytes) (accepts : Option Bytes → UInt64 → Bool)
    (limit : Nat) (items : List RangeItem) (emitted : Nat) (h : limit = 0 ∨ emitted ≤ limit) :
    emitRange metadata accepts limit items emitted =
      let docs := (items.filter fun item => accepts (metadata item.id) item.timestamp).map
        fun item => (⟨item.id, item.timestamp, metadata item.id⟩ : RangeDoc)
      if limit = 0 then docs else docs.take (limit - emitted) := by
  induction items generalizing emitted with
  | nil => simp [emitRange]
  | cons item rest ih =>
    rw [emitRange]
    by_cases hfull : limit > 0 ∧ emitted ≥ limit
    · rw [if_pos hfull]
      have hrest : limit - emitted = 0 := by omega
      simp only [if_neg (ne_of_gt hfull.1), hrest, take_zero]
    rw [if_neg hfull]
    cases haccept : accepts (metadata item.id) item.timestamp with
    | false =>
      simp only [if_true, filter_cons, haccept, Bool.false_eq_true, if_false]
      exact ih emitted h
    | true =>
      simp only [Bool.true_eq_false, if_false, filter_cons, haccept, if_true, map_cons]
      rw [ih (emitted + 1) (by omega)]
      by_cases hlimit : limit = 0
      · simp only [if_pos hlimit]
      · have hnext : limit - emitted = limit - (emitted + 1) + 1 := by omega
        simp only [if_neg hlimit, hnext, take_succ_cons]

theorem before_of_lessThan (m m' : Option Bytes) (h : rangeItemLessThan a b = true) :
    RangeDoc.Before ⟨a.id, a.timestamp, m⟩ ⟨b.id, b.timestamp, m'⟩ := by
  rw [rangeItemLessThan] at h
  split at h
  case isTrue hts => exact .inr ⟨hts, of_decide_eq_true h⟩
  case isFalse => exact .inl (of_decide_eq_true h)

/-- **The documents of a range**, with mounts that share no key. -/
theorem emitted_range (sort : UnstableSort rangeItemLessThan)
    (honce : o.FrozenOnce (memPrefix range.ns)) :
    IsRange o selects range (emitRange (fun id => o.ctxGet (metaKey range.ns id))
      (acceptsMeta selects range.filter) range.limit (sort.run
        ((o.gathered (memPrefix range.ns)).filterMap
          (rangeItem (memPrefix range.ns).length range.sinceMs range.untilMs))) 0) := by
  rw [emitRange_eq _ _ _ _ 0 (.inr (Nat.zero_le _))]
  refine ⟨_, ?_, ?_, rfl⟩
  · rw [pairwise_map]
    exact ((sort.ascending (items_apart honce)).filter _).imp (before_of_lessThan _ _)
  · intro doc
    rw [mem_map]
    simp only [mem_filter, sort.mem_run, mem_items honce, o.ctxGet_eq]
    constructor
    · rintro ⟨item, ⟨⟨hne, hplain, hstored, hin⟩, haccept⟩, rfl⟩
      refine ⟨hne, hplain, hstored, hin, rfl, fun filter hfilter => ?_⟩
      rw [acceptsMeta, hfilter] at haccept
      exact haccept
    · intro h
      refine ⟨⟨doc.id, doc.timestamp⟩, ⟨⟨h.ne_nil, h.plain, h.stored, h.inside⟩, ?_⟩, ?_⟩
      · rw [acceptsMeta, Option.all_eq_true]
        intro filter hfilter
        rw [← h.metadata]
        exact h.accepted filter hfilter
      · rw [← h.metadata]

end

/-! ## Calls -/

/-- The arguments say the range: the limit may be left out, and the filter. -/
structure RangeCall (parse : Bytes → Option Filter) (args : List Bytes) (range : RangeArgs Filter) :
    Prop where
  ns : args[0]? = some range.ns
  since : args[1]?.bind parseU64 = some range.sinceMs
  till : args[2]?.bind parseU64 = some range.untilMs
  limit : args[3]? = none ∧ range.limit = defaultRangeLimit ∨
    ∃ raw limit, args[3]? = some raw ∧ parseU64 raw = some limit ∧ range.limit = limit.toNat
  filter : args[4]? = none ∧ range.filter = none ∨
    ∃ raw, args[4]? = some raw ∧ (parse raw).isSome = true ∧ range.filter = parse raw

theorem rangeArgs_eq {parse : Bytes → Option Filter} {auth : AuthContext} {args : List Bytes}
    {range : RangeArgs Filter} (h : RangeCall parse args range) (hns : validateNs range.ns = true)
    (hauth : permitsNamespace auth range.ns .read = true) (horder : range.sinceMs ≤ range.untilMs)
    (hlimit : range.limit ≤ maxRangeLimit) : rangeArgs parse auth args = .ok range := by
  have hlim : rangeLimit args[3]? = .ok range.limit := by
    rcases h.limit with ⟨hnone, hdefault⟩ | ⟨raw, limit, hraw, hparse, hvalue⟩
    · rw [hnone, hdefault]
      rfl
    · rw [hvalue] at hlimit
      rw [hraw, hvalue, rangeLimit, hparse]
      simp only [orErr, bind, Except.bind, demand, decide_eq_true hlimit, if_true]
      rfl
  have hfilter : rangeFilter parse args[4]? = .ok range.filter := by
    rcases h.filter with ⟨hnone, hvalue⟩ | ⟨raw, hraw, hsome, hvalue⟩
    · rw [hnone, hvalue]
      rfl
    · obtain ⟨filter, hparse⟩ := Option.isSome_iff_exists.mp hsome
      rw [hraw, hvalue, rangeFilter, hparse]
      rfl
  simp only [rangeArgs, h.ns, h.since, h.till, orErr, bind, Except.bind, demand, hns, hauth,
    decide_eq_true horder, if_true, hlim, hfilter]
  rfl

/-- **The documents of a time range.**  For every content of the shards and every range with a
limit of at most 10000, the call returns the first documents of the range. -/
theorem range_documents (sort : UnstableSort rangeItemLessThan) (parse : Bytes → Option Filter)
    (selects : Filter → Option Bytes → UInt64 → Bool) (auth : AuthContext) (args : List Bytes)
    (o : Overlay) (range : RangeArgs Filter) (hlive : o.segs = []) (hcall : RangeCall parse args range)
    (hns : validateNs range.ns = true) (hauth : permitsNamespace auth range.ns .read = true)
    (horder : range.sinceMs ≤ range.untilMs) (hlimit : range.limit ≤ maxRangeLimit) :
    ∃ docs, memRange sort parse selects auth args o = some (.value (some (rangeText docs))) ∧
      IsRange o selects range docs := by
  have honce : o.FrozenOnce (memPrefix range.ns) := by
    rw [Overlay.FrozenOnce, hlive]
    exact Pairwise.nil
  refine ⟨_, ?_, emitted_range sort honce⟩
  rw [memRange, rangeArgs_eq hcall hns hauth horder hlimit]
  simp only [collected_items]
  rfl

/-! ## One document, and two calls that return less -/

theorem rangeItemLessThan_trans (a b c : RangeItem) (hab : rangeItemLessThan b a = false)
    (hbc : rangeItemLessThan c b = false) : rangeItemLessThan c a = false := by
  simp only [rangeItemLessThan, UInt64.lt_iff_toNat_lt, ← UInt64.toNat_inj] at hab hbc ⊢
  split at hab <;> split at hbc <;> split <;> simp only [decide_eq_false_iff_not] at hab hbc ⊢
  all_goals first
    | omega
    | exact List.not_lt.mpr (List.le_trans (List.not_lt.mp hab) (List.not_lt.mp hbc))

theorem rangeItemLessThan_total (a b : RangeItem) :
    rangeItemLessThan b a = false ∨ rangeItemLessThan a b = false := by
  simp only [rangeItemLessThan, UInt64.lt_iff_toNat_lt, ← UInt64.toNat_inj]
  by_cases hts : a.timestamp.toNat = b.timestamp.toNat
  · rw [if_pos hts.symm, if_pos hts, decide_eq_false_iff_not, decide_eq_false_iff_not]
    by_contra hno
    rw [not_or, not_not, not_not] at hno
    exact List.lt_irrefl _ (List.lt_trans hno.1 hno.2)
  · rw [if_neg (Ne.symm hts), if_neg hts, decide_eq_false_iff_not, decide_eq_false_iff_not]
    omega

def rangeSort : UnstableSort rangeItemLessThan :=
  UnstableSort.merge rangeItemLessThan_trans rangeItemLessThan_total

/-- A store with one key, written at time 5. -/
def oneKey (key : Bytes) : Overlay :=
  (Overlay.mount [] (Nat.zero_le _)).ctxSet ⟨fun _ => true, 5⟩ key (ascii "v")

theorem oneKey_segs (key : Bytes) : (oneKey key).segs = [] := Overlay.ctxSet_segs ..

theorem oneKey_visible (key k : Bytes) :
    (oneKey key).visible k = if k = key then some ⟨ascii "v", 5, false⟩ else none := by
  by_cases hk : k = key
  · rw [if_pos hk, hk]
    exact Overlay.ctxSet_visible (fun _ => rfl) rfl _
  · rw [if_neg hk, oneKey, Overlay.ctxSet_visible_of_ne _ _ _ hk]
    rfl

/-- The range from 0 to 9 of a namespace `a`. -/
def sampleRange : RangeArgs Unit := ⟨ascii "a", 0, 9, defaultRangeLimit, none⟩

theorem sampleRange_call : RangeCall (fun _ => none) [ascii "a", ascii "0", ascii "9"] sampleRange :=
  ⟨rfl, by decide, by decide, .inl ⟨rfl, rfl⟩, .inl ⟨rfl, rfl⟩⟩

/-- Three documents of a namespace `a`, two of the same time. -/
def threeDocs : Overlay :=
  [(ascii "x", 5), (ascii "y", 5), (ascii "z", 4)].foldl
    (fun o (id, now) => o.ctxSet ⟨fun _ => true, now⟩ (docKey (ascii "a") id) (ascii "v"))
    (Overlay.mount [] (Nat.zero_le _))

/-- One of what is not from before 5. -/
theorem range_documents_limited :
    ∃ docs, memRange rangeSort parseU64 (fun since _ timestamp => decide (since ≤ timestamp)) .trusted
      [ascii "a", ascii "0", ascii "9", ascii "1", ascii "5"] threeDocs =
        some (.value (some (rangeText docs))) ∧
      IsRange threeDocs (fun since _ timestamp => decide (since ≤ timestamp))
        ⟨ascii "a", 0, 9, 1, some 5⟩ docs := by
  have hcall : RangeCall parseU64 [ascii "a", ascii "0", ascii "9", ascii "1", ascii "5"]
      ⟨ascii "a", 0, 9, 1, some 5⟩ :=
    ⟨rfl, by decide, by decide, .inr ⟨_, 1, rfl, by decide, rfl⟩, .inr ⟨_, rfl, by decide, by decide⟩⟩
  have hsegs : threeDocs.segs = [] := by
    simp only [threeDocs, foldl_cons, foldl_nil, Overlay.ctxSet_segs]
    rfl
  exact range_documents rangeSort parseU64 _ .trusted _ threeDocs _ hsegs hcall (by decide)
    (by decide) (by decide) (by decide)

/-- **A limit over 10000** is refused, and a key that ends behind the namespace is no
document, though there is no colon in what follows. -/
theorem range_refusals :
    (∀ sort, memRange sort (fun _ => none) (fun (_ : Unit) _ _ => true) .trusted
      [ascii "a", ascii "0", ascii "9", ascii "10001"] (oneKey (docKey (ascii "a") (ascii "x"))) =
        some (.err (ascii "mem_range: limit must be <= 10000"))) ∧
    (oneKey (docKey (ascii "a") [])).visible (docKey (ascii "a") []) = some ⟨ascii "v", 5, false⟩ ∧
    ∀ sort, memRange sort (fun _ => none) (fun (_ : Unit) _ _ => true) .trusted
      [ascii "a", ascii "0", ascii "9"] (oneKey (docKey (ascii "a") [])) =
        some (.value (some (ascii "[]"))) := by
  refine ⟨fun sort => ?_, ?_, fun sort => ?_⟩
  · have hargs : rangeArgs (fun _ => (none : Option Unit)) .trusted
        [ascii "a", ascii "0", ascii "9", ascii "10001"] =
        .error (ascii "mem_range: limit must be <= 10000") := rfl
    rw [memRange, hargs]
  · rw [oneKey_visible, if_pos rfl]
  · have honce : (oneKey (docKey (ascii "a") [])).FrozenOnce (memPrefix (ascii "a")) := by
      rw [Overlay.FrozenOnce, oneKey_segs]
      exact Pairwise.nil
    have hrange : IsRange (oneKey (docKey (ascii "a") [])) (fun _ _ _ => true) sampleRange _ :=
      emitted_range sort honce
    obtain ⟨all, -, hall, hdocs⟩ := hrange
    have hnone : all = [] := by
      refine eq_nil_iff_forall_not_mem.mpr fun doc hdoc => ?_
      have h := (hall doc).mp hdoc
      obtain ⟨value, isWorm, hstored⟩ := h.stored
      rw [oneKey_visible, Option.ite_none_right_eq_some] at hstored
      exact h.ne_nil (append_cancel_left hstored.1)
    rw [memRange, rangeArgs_eq sampleRange_call (by decide) (by decide) (by decide) (by decide)]
    simp only [collected_items, Option.bind_eq_bind, Option.bind_some]
    rw [hnone] at hdocs
    rw [hdocs]
    rfl

end AgentMemory
end WormDB
