import WormDB.Checked
import WormDB.PrefixRoot

/-! # JSON that peers send

Three routines take JSON texts of other nodes apart: the event for a replicated note in
`server/tcp.zig`, and the readers of a peer's prefix root and of its search results in
`cluster/node.zig`.  A variant of a parsed value may be accessed only where the value is of that
kind, so each access is a partial one; an outer `none` is an access that is not.  The decoder of
base64 and the parser of JSON are any functions, which may fail. -/
namespace WormDB
open List ByteCodec PrefixMap

/-- `std.json.Value`; an integer that leaves 64 bits is a `numberString`. -/
inductive Json (F : Type) where
  | null
  | bool (b : Bool)
  | integer (i : Int64)
  | float (f : F)
  | numberString (s : Bytes)
  | string (s : Bytes)
  | array (items : List (Json F))
  | object (members : List (Bytes × Json F))

namespace Json
variable {F : Type}

def isObject : Json F → Bool
  | object _ => true
  | _ => false

def isString : Json F → Bool
  | string _ => true
  | _ => false

def isInteger : Json F → Bool
  | integer _ => true
  | _ => false

def isArray : Json F → Bool
  | array _ => true
  | _ => false

/-- `value.object` -/
def object? : Json F → Option (List (Bytes × Json F))
  | object members => some members
  | _ => none

/-- `value.string` -/
def string? : Json F → Option Bytes
  | string s => some s
  | _ => none

/-- `value.integer` -/
def integer? : Json F → Option Int64
  | integer i => some i
  | _ => none

/-- `value.array.items` -/
def array? : Json F → Option (List (Json F))
  | array items => some items
  | _ => none

/-- `ObjectMap.get` -/
def get (members : List (Bytes × Json F)) (key : Bytes) : Option (Json F) :=
  (members.find? (fun m => decide (m.1 = key))).map Prod.snd

variable {v : Json F}

theorem isObject_iff : v.isObject = true ↔ ∃ members, v = object members := by
  cases v with
  | object members => exact ⟨fun _ => ⟨members, rfl⟩, fun _ => rfl⟩
  | _ => exact ⟨nofun, by rintro ⟨members, ⟨⟩⟩⟩

theorem object?_eq_none (h : v.isObject = false) : v.object? = none := by
  cases v with
  | object members => cases h
  | _ => rfl

theorem isString_iff : v.isString = true ↔ ∃ s, v = string s := by
  cases v with
  | string s => exact ⟨fun _ => ⟨s, rfl⟩, fun _ => rfl⟩
  | _ => exact ⟨nofun, by rintro ⟨s, ⟨⟩⟩⟩

theorem isInteger_iff : v.isInteger = true ↔ ∃ i, v = integer i := by
  cases v with
  | integer i => exact ⟨fun _ => ⟨i, rfl⟩, fun _ => rfl⟩
  | _ => exact ⟨nofun, by rintro ⟨i, ⟨⟩⟩⟩

theorem isArray_iff : v.isArray = true ↔ ∃ items, v = array items := by
  cases v with
  | array items => exact ⟨fun _ => ⟨items, rfl⟩, fun _ => rfl⟩
  | _ => exact ⟨nofun, by rintro ⟨items, ⟨⟩⟩⟩

end Json

/-- What a peer's payload can be refused with. -/
inductive PeerFault where
  | syntaxError
  | corruption

namespace PeerJson

/-! ## The event for a replicated note -/

section
variable {F : Type} (decodeBase64 : Bytes → Option Bytes) (parseFromSlice : Bytes → Option (Json F))

def notePrefix : Bytes := ascii "note:"

/-- A member, where it is a text. -/
def noteField (members : List (Bytes × Json F)) (name other : Bytes) : Option Bytes :=
  match Json.get members name with
  | none => some other
  | some v => if v.isString = true then v.string? else some other

def noteMessage (noteId author title : Bytes) : Bytes :=
  ascii "\x7b\"type\":\"note:updated\",\"id\":\"" ++ noteId ++ ascii "\",\"author\":\"" ++ author ++
    ascii "\",\"title\":\"" ++ title ++ ascii "\"\x7d"

/-- What is published for a replicated SET, if anything. -/
def noteUpdated (key value : Bytes) : Option (Option Bytes) :=
  if notePrefix.isPrefixOf key = true ∧ key ≠ ascii "notes:index" then
    match decodeBase64 value with
    | none => some none
    | some jsonBuf =>
        match parseFromSlice jsonBuf with
        | none => some none
        | some parsed => do
            let members ← parsed.object?
            let title ← noteField members (ascii "title") (ascii "Untitled")
            let members ← parsed.object?
            let author ← noteField members (ascii "author") (ascii "peer")
            return some (noteMessage (key.drop notePrefix.length) author title)
  else some none

/-! ## A peer's prefix root -/

def hexNibble (c : UInt8) : Except PeerFault UInt8 :=
  if 0x30 ≤ c ∧ c ≤ 0x39 then .ok (c - 0x30)
  else if 0x61 ≤ c ∧ c ≤ 0x66 then .ok (c - 0x61 + 10)
  else if 0x41 ≤ c ∧ c ≤ 0x46 then .ok (c - 0x41 + 10)
  else .error .corruption

/-- The loop over the bytes of the hash, from byte `i` on. -/
def rootBytes (hex : Bytes) :
    (n : Nat) → Nat → Option (Except PeerFault { out : Bytes // out.length = n })
  | 0, _ => some (.ok ⟨[], rfl⟩)
  | n + 1, i => do
      let high ← Checked.get hex (i * 2)
      match hexNibble high with
      | .error e => return .error e
      | .ok hi =>
          let low ← Checked.get hex (i * 2 + 1)
          match hexNibble low with
          | .error e => return .error e
          | .ok lo =>
              match ← rootBytes hex n (i + 1) with
              | .error e => return .error e
              | .ok out => return .ok ⟨((hi <<< 4) ||| lo) :: out.val, congrArg (· + 1) out.property⟩

def parseRootHex (hex : Bytes) : Option (Except PeerFault Hash) :=
  if hex.length ≠ 32 * 2 then some (.error .corruption)
  else do
    match ← rootBytes hex 32 0 with
    | .error e => return .error e
    | .ok out => return .ok ⟨out.val, out.property⟩

def rootAlg : Bytes := ascii "prefix-sha256-v1"

def parsePeerRootSummary (payload : Bytes) : Option (Except PeerFault PrefixRoot.Summary) :=
  match parseFromSlice payload with
  | none => some (.error .syntaxError)
  | some parsed => do
      let obj ← parsed.object?
      let some alg := Json.get obj (ascii "root_alg") | return .error .corruption
      if alg.isString = false then return .error .corruption
      let algText ← alg.string?
      if algText ≠ rootAlg then return .error .corruption
      let some countValue := Json.get obj (ascii "entry_count") | return .error .corruption
      if countValue.isInteger = false then return .error .corruption
      let count ← countValue.integer?
      if count.toInt < 0 then return .error .corruption
      let some rootValue := Json.get obj (ascii "root") | return .error .corruption
      if rootValue.isString = false then return .error .corruption
      let rootText ← rootValue.string?
      match ← parseRootHex rootText with
      | .error e => return .error e
      | .ok root => return .ok ⟨count.toInt.toNat, root⟩

end

end PeerJson

/-! ## A peer's search results -/

structure ScatterItem (S : Type) where
  key : Bytes
  score : S
  timestamp : UInt64
  deriving DecidableEq

/-- The items so far, and where each key is among them. -/
structure Scatter (S : Type) where
  index : ByteMap Nat
  items : List (ScatterItem S)

namespace Scatter
variable {F S : Type}

def empty : Scatter S := ⟨ByteMap.empty, []⟩

/-- One element of the array. -/
def readItem (floatCast : F → S) (floatFromInt : Int64 → S) (it : Json F) :
    Option (Except PeerFault (ScatterItem S)) := do
  if it.isObject = false then return .error .corruption
  let members ← it.object?
  let some k := Json.get members (ascii "k") | return .error .corruption
  if k.isString = false then return .error .corruption
  let members ← it.object?
  let some s := Json.get members (ascii "s") | return .error .corruption
  let score : Option S :=
    match s with
    | .float f => some (floatCast f)
    | .integer i => some (floatFromInt i)
    | _ => none
  let some score := score | return .error .corruption
  let members ← it.object?
  let some tsValue := Json.get members (ascii "ts") | return .error .corruption
  if tsValue.isInteger = false then return .error .corruption
  let tsInt ← tsValue.integer?
  let ts : UInt64 := if tsInt.toInt < 0 then 0 else UInt64.ofNat tsInt.toInt.toNat
  let key ← k.string?
  return .ok ⟨key, score, ts⟩

variable [LT S] [DecidableLT S]

/-- Unknown keys are appended; a known key keeps the higher score. -/
def put (st : Scatter S) (item : ScatterItem S) : Option (Scatter S) :=
  match st.index.get item.key with
  | some i => do
      let held ← Checked.get st.items i
      if held.score < item.score then
        return { st with items := st.items.set i ⟨held.key, item.score, item.timestamp⟩ }
      else return st
  | none => some ⟨st.index.insert item.key st.items.length, st.items ++ [item]⟩

/-- The loop over the array; what was merged in front of a malformed element stays. -/
def mergeItems (floatCast : F → S) (floatFromInt : Int64 → S) :
    List (Json F) → Scatter S → Option (Except PeerFault Unit × Scatter S)
  | [], st => some (.ok (), st)
  | it :: rest, st => do
      match ← readItem floatCast floatFromInt it with
      | .error e => return (.error e, st)
      | .ok item =>
          let st ← st.put item
          mergeItems floatCast floatFromInt rest st

def mergeScatterPayload (parseFromSlice : Bytes → Option (Json F)) (floatCast : F → S)
    (floatFromInt : Int64 → S) (payload : Bytes) (st : Scatter S) :
    Option (Except PeerFault Unit × Scatter S) :=
  match parseFromSlice payload with
  | none => some (.error .syntaxError, st)
  | some parsed =>
      if parsed.isArray = false then some (.error .corruption, st)
      else do
        let items ← parsed.array?
        mergeItems floatCast floatFromInt items st

/-- The loop over the peers, with the number of those that have failed; a peer that could not be
asked has no payload. -/
def gather (parseFromSlice : Bytes → Option (Json F)) (floatCast : F → S)
    (floatFromInt : Int64 → S) :
    List (Option Bytes) → Nat → Scatter S → Option (Nat × Scatter S)
  | [], failed, st => some (failed, st)
  | none :: rest, failed, st => gather parseFromSlice floatCast floatFromInt rest (failed + 1) st
  | some payload :: rest, failed, st =>
      match mergeScatterPayload parseFromSlice floatCast floatFromInt payload st with
      | none => none
      | some (.error _, st) => gather parseFromSlice floatCast floatFromInt rest (failed + 1) st
      | some (.ok (), st) => gather parseFromSlice floatCast floatFromInt rest failed st

end Scatter

/-! ## Which texts stop the program -/

namespace PeerJson

section
variable {F : Type} {decodeBase64 : Bytes → Option Bytes} {parseFromSlice : Bytes → Option (Json F)}

theorem noteField_total (members : List (Bytes × Json F)) (name other : Bytes) :
    ∃ text, noteField members name other = some text := by
  rw [noteField]
  split
  · exact ⟨other, rfl⟩
  · split
    case isTrue hstring =>
      obtain ⟨s, rfl⟩ := Json.isString_iff.mp hstring
      exact ⟨s, rfl⟩
    case isFalse => exact ⟨other, rfl⟩

/-- **The event for a note** is made, or not, where the text is no JSON or an object. -/
theorem noteUpdated_total_iff (key value : Bytes) :
    (∃ event, noteUpdated decodeBase64 parseFromSlice key value = some event) ↔
      (notePrefix.isPrefixOf key = true ∧ key ≠ ascii "notes:index" →
        ∀ jsonBuf parsed, decodeBase64 value = some jsonBuf → parseFromSlice jsonBuf = some parsed →
          parsed.isObject = true) := by
  rw [noteUpdated]
  by_cases hnote : notePrefix.isPrefixOf key = true ∧ key ≠ ascii "notes:index"
  · rw [if_pos hnote]
    cases hdecode : decodeBase64 value with
    | none => exact ⟨by rintro - - jsonBuf parsed ⟨⟩, fun _ => ⟨none, rfl⟩⟩
    | some jsonBuf =>
      simp only
      cases hparse : parseFromSlice jsonBuf with
      | none =>
        refine ⟨?_, fun _ => ⟨none, rfl⟩⟩
        rintro - - _ parsed ⟨⟩ hparsed
        cases hparse.symm.trans hparsed
      | some parsed =>
        simp only
        constructor
        · rintro ⟨event, hrun⟩ - _ parsed' ⟨⟩ hparsed
          cases hparse.symm.trans hparsed
          by_contra hkind
          rw [Json.object?_eq_none (Bool.not_eq_true _ ▸ hkind)] at hrun
          cases hrun
        · intro h
          obtain ⟨members, rfl⟩ := Json.isObject_iff.mp (h hnote _ _ rfl hparse)
          obtain ⟨title, htitle⟩ := noteField_total members (ascii "title") (ascii "Untitled")
          obtain ⟨author, hauthor⟩ := noteField_total members (ascii "author") (ascii "peer")
          refine ⟨some (noteMessage (key.drop notePrefix.length) author title), ?_⟩
          simp only [Json.object?, Option.bind_eq_bind, Option.bind_some, htitle, hauthor]
          rfl
  · rw [if_neg hnote]
    exact ⟨fun _ h => absurd h hnote, fun _ => ⟨none, rfl⟩⟩

theorem rootBytes_total (hex : Bytes) (n i : Nat) (h : (i + n) * 2 ≤ hex.length) :
    ∃ r, rootBytes hex n i = some r := by
  induction n generalizing i with
  | zero => exact ⟨_, rfl⟩
  | succ n ih =>
    obtain ⟨r, hr⟩ := ih (i + 1) (by omega)
    have hhigh : Checked.get hex (i * 2) = some hex[i * 2] := getElem?_eq_getElem _
    have hlow : Checked.get hex (i * 2 + 1) = some hex[i * 2 + 1] := getElem?_eq_getElem _
    rw [rootBytes, hhigh, Option.bind_eq_bind, Option.bind_some]
    split
    · exact ⟨_, rfl⟩
    · rw [hlow, Option.bind_eq_bind, Option.bind_some]
      split
      · exact ⟨_, rfl⟩
      · rw [hr, Option.bind_some]
        cases r with
        | error e => exact ⟨_, rfl⟩
        | ok out => exact ⟨_, rfl⟩

theorem parseRootHex_total (hex : Bytes) : ∃ r, parseRootHex hex = some r := by
  rw [parseRootHex]
  split
  · exact ⟨_, rfl⟩
  · obtain ⟨r, hr⟩ := rootBytes_total hex 32 0 (by omega)
    rw [hr, Option.bind_eq_bind, Option.bind_some]
    cases r with
    | error e => exact ⟨_, rfl⟩
    | ok out => exact ⟨_, rfl⟩

/-- **A peer's root** is read, or refused, where the text is no JSON or an object. -/
theorem parsePeerRootSummary_total_iff (payload : Bytes) :
    (∃ r, parsePeerRootSummary parseFromSlice payload = some r) ↔
      ∀ parsed, parseFromSlice payload = some parsed → parsed.isObject = true := by
  rw [parsePeerRootSummary]
  cases hparse : parseFromSlice payload with
  | none => exact ⟨by rintro - parsed ⟨⟩, fun _ => ⟨_, rfl⟩⟩
  | some parsed =>
    simp only
    constructor
    · rintro ⟨r, hrun⟩ _ ⟨⟩
      by_contra hkind
      rw [Json.object?_eq_none (Bool.not_eq_true _ ▸ hkind)] at hrun
      cases hrun
    · intro h
      obtain ⟨obj, rfl⟩ := Json.isObject_iff.mp (h _ rfl)
      rw [Json.object?, Option.bind_eq_bind, Option.bind_some]
      cases Json.get obj (ascii "root_alg") with
      | none => exact ⟨_, rfl⟩
      | some alg =>
        simp only
        split
        · exact ⟨_, rfl⟩
        rename_i halg
        obtain ⟨algText, rfl⟩ := Json.isString_iff.mp (Bool.of_not_eq_false halg)
        rw [Json.string?, Option.bind_eq_bind, Option.bind_some]
        split
        · exact ⟨_, rfl⟩
        cases Json.get obj (ascii "entry_count") with
        | none => exact ⟨_, rfl⟩
        | some countValue =>
          simp only
          split
          · exact ⟨_, rfl⟩
          rename_i hcount
          obtain ⟨count, rfl⟩ := Json.isInteger_iff.mp (Bool.of_not_eq_false hcount)
          rw [Json.integer?, Option.bind_eq_bind, Option.bind_some]
          split
          · exact ⟨_, rfl⟩
          cases Json.get obj (ascii "root") with
          | none => exact ⟨_, rfl⟩
          | some rootValue =>
            simp only
            split
            · exact ⟨_, rfl⟩
            rename_i hroot
            obtain ⟨rootText, rfl⟩ := Json.isString_iff.mp (Bool.of_not_eq_false hroot)
            obtain ⟨r, hr⟩ := parseRootHex_total rootText
            rw [Json.string?, Option.bind_some, hr, Option.bind_eq_bind, Option.bind_some]
            cases r with
            | error e => exact ⟨_, rfl⟩
            | ok root => exact ⟨_, rfl⟩

end

end PeerJson

namespace Scatter

section
variable {F S : Type} {floatCast : F → S} {floatFromInt : Int64 → S}

/-- The kind of every node is asked for before its variant is used. -/
theorem readItem_total (it : Json F) : ∃ r, readItem floatCast floatFromInt it = some r := by
  rw [readItem]
  split
  · exact ⟨_, rfl⟩
  rename_i hobject
  obtain ⟨members, rfl⟩ := Json.isObject_iff.mp (Bool.of_not_eq_false hobject)
  rw [Json.object?, Option.bind_eq_bind, Option.bind_some]
  cases Json.get members (ascii "k") with
  | none => exact ⟨_, rfl⟩
  | some k =>
    simp only
    split
    · exact ⟨_, rfl⟩
    rename_i hstring
    obtain ⟨key, rfl⟩ := Json.isString_iff.mp (Bool.of_not_eq_false hstring)
    rw [Option.bind_some]
    cases Json.get members (ascii "s") with
    | none => exact ⟨_, rfl⟩
    | some s =>
      simp only
      split
      case h_2 => exact ⟨_, rfl⟩
      rw [Option.bind_some]
      cases Json.get members (ascii "ts") with
      | none => exact ⟨_, rfl⟩
      | some tsValue =>
        simp only
        split
        · exact ⟨_, rfl⟩
        rename_i hinteger
        obtain ⟨ts, rfl⟩ := Json.isInteger_iff.mp (Bool.of_not_eq_false hinteger)
        rw [Json.integer?, Option.bind_eq_bind, Option.bind_some, Json.string?, Option.bind_eq_bind,
          Option.bind_some]
        exact ⟨_, rfl⟩

/-- The index leads to the items with its keys, and to each of them. -/
structure Linked (st : Scatter S) : Prop where
  at_key : ∀ key i, st.index.get key = some i → ∃ item, st.items[i]? = some item ∧ item.key = key
  indexed : ∀ i item, st.items[i]? = some item → st.index.get item.key = some i

theorem linked_empty : (empty : Scatter S).Linked where
  at_key key i h := by cases h
  indexed i item h := by
    rw [empty, getElem?_nil] at h
    cases h

end

section
variable {F S : Type} [LT S] [DecidableLT S] {floatCast : F → S} {floatFromInt : Int64 → S}
  {parseFromSlice : Bytes → Option (Json F)} {st : Scatter S}

/-- Merging an item: the held item with its key gets the higher score, or the item is new. -/
theorem Linked.put_cases (h : st.Linked) (item : ScatterItem S) :
    (∃ i held, st.index.get item.key = some i ∧ st.items[i]? = some held ∧ held.key = item.key ∧
      ((held.score < item.score ∧
        st.put item = some ⟨st.index, st.items.set i item⟩) ∨
      (¬held.score < item.score ∧ st.put item = some st))) ∨
    (st.index.get item.key = none ∧
      st.put item = some ⟨st.index.insert item.key st.items.length, st.items ++ [item]⟩) := by
  rw [put]
  cases hget : st.index.get item.key with
  | none => exact .inr ⟨rfl, rfl⟩
  | some i =>
    obtain ⟨held, hheld, hkey⟩ := h.at_key _ _ hget
    refine .inl ⟨i, held, rfl, hheld, hkey, ?_⟩
    simp only
    rw [Checked.get, hheld, Option.bind_eq_bind, Option.bind_some]
    by_cases hless : held.score < item.score
    · rw [if_pos hless, hkey]
      exact .inl ⟨hless, rfl⟩
    · rw [if_neg hless]
      exact .inr ⟨hless, rfl⟩

theorem Linked.put (h : st.Linked) (item : ScatterItem S) :
    ∃ st', st.put item = some st' ∧ st'.Linked := by
  rcases h.put_cases item with ⟨i, held, hget, hheld, hkey, ⟨-, hput⟩ | ⟨-, hput⟩⟩ | ⟨hget, hput⟩
  · refine ⟨_, hput, ?_, ?_⟩
    · intro key j hj
      obtain ⟨found, hfound, hname⟩ := h.at_key key j hj
      by_cases hij : i = j
      · subst hij
        obtain ⟨hlt, -⟩ := List.getElem?_eq_some_iff.mp hheld
        refine ⟨item, getElem?_set_self hlt, ?_⟩
        cases hheld.symm.trans hfound
        rw [← hkey, hname]
      · exact ⟨found, by rw [getElem?_set_ne hij, hfound], hname⟩
    · intro j found hfound
      by_cases hij : i = j
      · subst hij
        obtain ⟨hlt, -⟩ := List.getElem?_eq_some_iff.mp hheld
        rw [getElem?_set_self hlt] at hfound
        cases hfound
        exact hget
      · rw [getElem?_set_ne hij] at hfound
        exact h.indexed j found hfound
  · exact ⟨st, hput, h⟩
  · refine ⟨_, hput, ?_, ?_⟩
    · intro key j hj
      by_cases hkey : key = item.key
      · subst hkey
        rw [ByteMap.get_insert_self] at hj
        cases hj
        exact ⟨item, getElem?_concat_length, rfl⟩
      · rw [ByteMap.get_insert_of_ne _ _ hkey] at hj
        obtain ⟨found, hfound, hname⟩ := h.at_key key j hj
        obtain ⟨hlt, -⟩ := List.getElem?_eq_some_iff.mp hfound
        exact ⟨found, by rw [getElem?_append_left hlt, hfound], hname⟩
    · intro j found hfound
      rcases Nat.lt_or_ge j st.items.length with hlt | hge
      · rw [getElem?_append_left hlt] at hfound
        have hfar := h.indexed j found hfound
        have hne : found.key ≠ item.key := by
          intro hsame
          rw [hsame, hget] at hfar
          cases hfar
        rw [ByteMap.get_insert_of_ne _ _ hne, hfar]
      · rw [getElem?_append_right hge] at hfound
        have hlast : j = st.items.length := by
          obtain ⟨hlt, -⟩ := List.getElem?_eq_some_iff.mp hfound
          rw [length_singleton] at hlt
          omega
        subst hlast
        rw [Nat.sub_self, getElem?_cons_zero] at hfound
        cases hfound
        exact ByteMap.get_insert_self _ _ _

theorem Linked.mergeItems (h : st.Linked) (items : List (Json F)) :
    ∃ r st', mergeItems floatCast floatFromInt items st = some (r, st') ∧ st'.Linked := by
  induction items generalizing st with
  | nil => exact ⟨_, st, rfl, h⟩
  | cons it rest ih =>
    obtain ⟨r, hread⟩ := @readItem_total _ _ floatCast floatFromInt it
    rw [Scatter.mergeItems, hread, Option.bind_eq_bind, Option.bind_some]
    cases r with
    | error e => exact ⟨_, st, rfl, h⟩
    | ok item =>
      obtain ⟨st', hput, hlinked⟩ := h.put item
      simp only [hput]
      exact ih hlinked

theorem Linked.mergeScatterPayload (h : st.Linked) (payload : Bytes) :
    ∃ r st', mergeScatterPayload parseFromSlice floatCast floatFromInt payload st = some (r, st') ∧
      st'.Linked := by
  rw [Scatter.mergeScatterPayload]
  cases parseFromSlice payload with
  | none => exact ⟨_, st, rfl, h⟩
  | some parsed =>
    simp only
    split
    · exact ⟨_, st, rfl, h⟩
    rename_i harray
    obtain ⟨items, rfl⟩ := Json.isArray_iff.mp (Bool.of_not_eq_false harray)
    exact h.mergeItems items

/-- The payloads of the peers are merged, whatever they are. -/
theorem Linked.gather (h : st.Linked) (responses : List (Option Bytes)) (failed : Nat) :
    ∃ failed' st', gather parseFromSlice floatCast floatFromInt responses failed st =
      some (failed', st') ∧ st'.Linked := by
  induction responses generalizing failed st with
  | nil => exact ⟨failed, st, rfl, h⟩
  | cons response rest ih =>
    cases response with
    | none => exact ih h (failed + 1)
    | some payload =>
      obtain ⟨r, st', hmerge, hlinked⟩ := @Linked.mergeScatterPayload _ _ _ _ floatCast
        floatFromInt parseFromSlice _ h payload
      rw [Scatter.gather, hmerge]
      cases r with
      | error e => exact ih hlinked (failed + 1)
      | ok u => exact ih hlinked failed

end

end Scatter

namespace PeerJson

/-- **JSON of peers and the accesses to it.**  The event for a note and the reader of a root stop
at a text whose outermost value is not an object; the merging of search results stops at none. -/
theorem peer_json_accesses {F S : Type} [LT S] [DecidableLT S]
    (decodeBase64 : Bytes → Option Bytes) (parseFromSlice : Bytes → Option (Json F))
    (floatCast : F → S) (floatFromInt : Int64 → S) :
    (∀ key value, (∃ event, noteUpdated decodeBase64 parseFromSlice key value = some event) ↔
      (notePrefix.isPrefixOf key = true ∧ key ≠ ascii "notes:index" →
        ∀ jsonBuf parsed, decodeBase64 value = some jsonBuf → parseFromSlice jsonBuf = some parsed →
          parsed.isObject = true)) ∧
    (∀ payload, (∃ r, parsePeerRootSummary parseFromSlice payload = some r) ↔
      ∀ parsed, parseFromSlice payload = some parsed → parsed.isObject = true) ∧
    ∀ responses, ∃ failed st,
      Scatter.gather parseFromSlice floatCast floatFromInt responses 0 Scatter.empty =
        some (failed, st) := by
  refine ⟨noteUpdated_total_iff, parsePeerRootSummary_total_iff, fun responses => ?_⟩
  obtain ⟨failed, st, hrun, -⟩ := @Scatter.Linked.gather F S _ _ floatCast floatFromInt
    parseFromSlice _ Scatter.linked_empty responses 0
  exact ⟨failed, st, hrun⟩

/-- The decoder and the parser on the one text `[]`. -/
def sampleDecode (value : Bytes) : Option Bytes :=
  if value = ascii "W10=" then some (ascii "[]") else none

def sampleParse (text : Bytes) : Option (Json Unit) :=
  if text = ascii "[]" then some (.array []) else none

/-- **An empty array stops the program**, as the value of a note and as the reply of a peer. -/
theorem array_stops : noteUpdated sampleDecode sampleParse (ascii "note:1") (ascii "W10=") = none ∧
    parsePeerRootSummary sampleParse (ascii "[]") = none := by decide

end PeerJson

end WormDB
