import WormDB.JsonText
import Mathlib.Tactic.Linarith
import Mathlib.Tactic.Positivity
import Mathlib.Tactic.Ring

/-! # The timestamp of an event

`eventTimestamp` of `event/bus.zig` takes a number from the text of a message, for the
filters of its subscribers.  It looks for the first `"ts":` in the text, wherever that
stands, and reads the digits behind it.

`FirstAt` finds the message's own member `ts` in the text, by the object's derivation.  Where no
`"ts":` stands before it and it is written plainly, its value is what is read
(`eventTimestamp_iff`); where the text has no `"ts":` of others, nothing else makes the two
agree.  A message with another `"ts":` first is misread, save by accident. -/
namespace WormDB
open List
namespace Predicate
open ByteCodec JsonText

/-! ## The function -/

/-- `std.mem.indexOf` -/
def indexOf (haystack needle : Bytes) : Option Nat :=
  (List.range (haystack.length + 1)).find? fun i => needle.isPrefixOf (haystack.drop i)

def tsNeedle : Bytes := ascii "\"ts\":"

def maxU64 : Nat := 2 ^ 64 - 1

/-- The digits from here on: `val` is the number so far, of `digits` digits. -/
def eventTimestamp.loop (val digits : Nat) : Bytes → Nat
  | [] => if digits > 0 then val else 0
  | c :: rest =>
      if c < 0x30 ∨ c > 0x39 then if digits > 0 then val else 0
      else
        -- both operations stay at the largest number
        let val := min (min (val * 10) maxU64 + (c - 0x30).toNat) maxU64
        let digits := digits + 1
        if digits > 20 then 0 else eventTimestamp.loop val digits rest

def eventTimestamp (message : Bytes) : Nat :=
  match indexOf message tsNeedle with
  | none => 0
  | some start =>
      match (message.drop (start + tsNeedle.length)).dropWhile fun c => c == 0x20 || c == 0x09 with
      | [] => 0
      | c :: rest => if c = 0x2D then 0 else eventTimestamp.loop 0 0 (c :: rest)

/-! ## The message's own timestamp -/

/-- The first member of the name. -/
inductive OwnMember (name : Bytes) : List (Bytes × Item) → Item → Prop where
  | here {k : Bytes} {item : Item} {members : List (Bytes × Item)} (hk : Spells k name) :
      OwnMember name ((k, item) :: members) item
  | later {k : Bytes} {item item' : Item} {members : List (Bytes × Item)} (hk : ¬Spells k name)
      (h : OwnMember name members item) : OwnMember name ((k, item') :: members) item

/-- The member `ts` is the natural number `v` below `2 ^ 64`. -/
def TsMember (members : List (Bytes × Item)) (v : Nat) : Prop :=
  ∃ n, OwnMember (ascii "ts") members (.number n) ∧ n.value = v ∧ v < 2 ^ 64

/-- The timestamp of the object: zero where `ts` is no such number. -/
def Timestamp (members : List (Bytes × Item)) (v : Nat) : Prop :=
  TsMember members v ∨ v = 0 ∧ ∀ w, ¬TsMember members w

/-- The message is an object with this timestamp. -/
def OwnTimestamp (message : Bytes) (v : Nat) : Prop :=
  ∃ members, Object message members ∧ Timestamp members v

/-! ## Where the member stands -/

/-- A member as the text has it: what is before its name, the name between its quotes, the space
before and behind the colon, the value, and what is behind that. -/
structure Written where
  before : Bytes
  name : Bytes
  gap : Bytes
  space : Bytes
  value : Bytes
  item : Item
  behind : Bytes

namespace Written

def text (w : Written) : Bytes :=
  w.before ++ (quoted w.name ++ (w.gap ++ colon :: (w.space ++ (w.value ++ w.behind))))

/-- The same member in a longer text. -/
def within (w : Written) (before behind : Bytes) : Written :=
  { w with before := before ++ w.before, behind := w.behind ++ behind }

theorem text_within (w : Written) (before behind : Bytes) :
    (w.within before behind).text = before ++ (w.text ++ behind) := by
  simp [text, within]

end Written

/-- The first member of the name, in the text of the members. -/
inductive FirstAt (name : Bytes) : Bytes → List (Bytes × Item) → Written → Prop where
  | last {a k b c v d : Bytes} {item : Item} (ha : Space a) (hname : Spells k name)
      (hb : Space b) (hc : Space c) (hv : IsItem v item) (hd : Space d) :
      FirstAt name (a ++ (quoted k ++ (b ++ colon :: (c ++ (v ++ d))))) [(k, item)]
        ⟨a, k, b, c, v, item, d⟩
  | here {a k b c v d t : Bytes} {item : Item} {members : List (Bytes × Item)} (ha : Space a)
      (hname : Spells k name) (hb : Space b) (hc : Space c) (hv : IsItem v item) (hd : Space d) :
      FirstAt name (a ++ (quoted k ++ (b ++ colon :: (c ++ (v ++ (d ++ comma :: t))))))
        ((k, item) :: members) ⟨a, k, b, c, v, item, d ++ comma :: t⟩
  | later {a k b c v d t : Bytes} {item : Item} {members : List (Bytes × Item)} {w : Written}
      (ha : Space a) (hk : Chars k) (hname : ¬Spells k name) (hb : Space b) (hc : Space c)
      (hv : IsItem v item) (hd : Space d) (h : FirstAt name t members w) :
      FirstAt name (a ++ (quoted k ++ (b ++ colon :: (c ++ (v ++ (d ++ comma :: t))))))
        ((k, item) :: members)
        (w.within (a ++ (quoted k ++ (b ++ colon :: (c ++ (v ++ (d ++ [comma])))))) [])

/-- The message's own `ts` is written so. -/
def OwnAt (message : Bytes) (members : List (Bytes × Item)) (w : Written) : Prop :=
  ∃ a t b w', FirstAt (ascii "ts") t members w' ∧ Space a ∧ Space b ∧
    message = a ++ openBrace :: (t ++ closeBrace :: b) ∧
    w = w'.within (a ++ [openBrace]) (closeBrace :: b)

/-- The first `"ts":` of the text is the member's name with the colon behind it. -/
def Written.Leads (w : Written) : Prop :=
  w.name = ascii "ts" ∧ w.gap = [] ∧ ∀ i < w.before.length, ¬tsNeedle <+: w.text.drop i

/-- Behind the colon there are only spaces and tabs, and the digits before a point or an exponent
are the number.  For a zero the value is no number or has a sign, the digits there are a zero or
too many, or the line ends behind the colon. -/
def Written.Plain (w : Written) (v : Nat) : Prop :=
  match w.item with
  | .number n =>
      if v = 0 then n.negative = true ∨ natOf n.int.bytes = 0 ∨ 20 < n.int.bytes.length ∨
        ¬∀ c ∈ w.space, isBlank c = true
      else n.negative = false ∧ natOf n.int.bytes = v ∧ ∀ c ∈ w.space, isBlank c = true
  | _ => v = 0

/-- The text has no `"ts":` but the own one, as far as the search goes. -/
def Undisturbed (message : Bytes) (members : List (Bytes × Item)) : Prop :=
  tsNeedle <:+: message → ∃ w, OwnAt message members w ∧ w.Leads

/-- How the own timestamp has to be written. -/
def WrittenPlainly (message : Bytes) (members : List (Bytes × Item)) (v : Nat) : Prop :=
  v = 0 ∧ ¬tsNeedle <:+: message ∨ ∃ w, OwnAt message members w ∧ w.Leads ∧ w.Plain v

section
variable {message digits : Bytes} {v : Nat} {members : List (Bytes × Item)} {w : Written}

/-- What is known of a member where it stands. -/
structure Stands (w : Written) : Prop where
  space : Space w.space
  item : IsItem w.value w.item
  behind : ∀ c ∈ w.behind.head?, isDigit c = false

theorem space_not_digit {c : UInt8} (h : isSpace c = true) : isDigit c = false := by
  simp only [isSpace, Bool.or_eq_true, beq_iff_eq] at h
  rcases h with ((rfl | rfl) | rfl) | rfl <;> rfl

/-- Neither space nor what closes it is a digit. -/
theorem behind_not_digit {d s : Bytes} (hd : Space d) (hs : ∀ c ∈ s.head?, isDigit c = false) :
    ∀ c ∈ (d ++ s).head?, isDigit c = false := by
  cases d with
  | nil => exact hs
  | cons c d =>
    rintro _ ⟨⟩
    exact space_not_digit (hd c mem_cons_self)

theorem FirstAt.spec {name t : Bytes} (h : FirstAt name t members w) {s : Bytes}
    (hs : ∀ c ∈ s.head?, isDigit c = false) :
    t = w.text ∧ OwnMember name members w.item ∧ Stands (w.within [] s) := by
  induction h with
  | last ha hname hb hc hv hd => exact ⟨rfl, .here hname, hc, hv, behind_not_digit hd hs⟩
  | here ha hname hb hc hv hd =>
    refine ⟨rfl, .here hname, hc, hv, ?_⟩
    simp only [Written.within, append_assoc]
    exact behind_not_digit hd (by rintro _ ⟨⟩; rfl)
  | later ha hk hname hb hc hv hd h ih =>
    obtain ⟨rfl, hown, hspace, hitem, hbehind⟩ := ih
    refine ⟨?_, .later hname hown, hspace, hitem, ?_⟩
    · rw [Written.text_within]
      simp
    · simpa [Written.within] using hbehind

theorem OwnAt.spec (h : OwnAt message members w) :
    message = w.text ∧ OwnMember (ascii "ts") members w.item ∧ Stands w := by
  obtain ⟨a, t, b, w', hfirst, -, -, rfl, rfl⟩ := h
  obtain ⟨rfl, hown, hspace, hitem, hbehind⟩ :=
    hfirst.spec (s := closeBrace :: b) (by rintro _ ⟨⟩; rfl)
  refine ⟨?_, hown, hspace, hitem, hbehind⟩
  rw [Written.text_within, append_assoc]
  rfl

/-- An object has one first member of a name. -/
theorem OwnMember.unique {name : Bytes} {item item' : Item} (h : OwnMember name members item)
    (h' : OwnMember name members item') : item = item' := by
  induction h with
  | here hk =>
    cases h' with
    | here => rfl
    | later hk' => exact absurd hk hk'
  | later hk _ ih =>
    cases h' with
    | here hk' => exact absurd hk' hk
    | later _ h' => exact ih h'

/-! ## What is read there -/

variable {haystack needle : Bytes} {i : Nat}

theorem indexOf_some_iff :
    indexOf haystack needle = some i ↔ i ≤ haystack.length ∧ needle <+: haystack.drop i ∧
      ∀ j < i, ¬needle <+: haystack.drop j := by
  rw [indexOf, find?_range_eq_some]
  simp only [mem_range, Nat.lt_succ_iff, Bool.not_eq_true', ← Bool.not_eq_true,
    isPrefixOf_iff_prefix]
  exact and_left_comm

theorem indexOf_none_iff : indexOf haystack needle = none ↔ ¬needle <:+: haystack := by
  constructor
  · rintro h ⟨pre, rest, rfl⟩
    rw [indexOf, find?_eq_none] at h
    refine h pre.length (mem_range.mpr ?_) ?_
    · simp only [length_append]
      omega
    · rw [append_assoc, drop_left, isPrefixOf_iff_prefix]
      exact prefix_append needle rest
  · intro h
    cases hindex : indexOf haystack needle with
    | none => rfl
    | some i =>
      obtain ⟨-, hprefix, -⟩ := indexOf_some_iff.mp hindex
      exact absurd ( hprefix.isInfix.trans (drop_suffix i haystack).isInfix) h

/-- The value of a run of digits, from what is known of it. -/
def natFrom (val : Nat) (digits : Bytes) : Nat :=
  digits.foldl (fun n c => 10 * n + (c.toNat - 0x30)) val

theorem digit_range {c : UInt8} (h : isDigit c = true) : 0x30 ≤ c.toNat ∧ c.toNat ≤ 0x39 := by
  rw [isDigit, Bool.and_eq_true, decide_eq_true_eq, decide_eq_true_eq] at h
  exact ⟨UInt8.le_iff_toNat_le.mp h.1, UInt8.le_iff_toNat_le.mp h.2⟩

theorem loop_eq {digits : Nat} (hdigits : digits ≤ 20) (val : Nat) (s : Bytes) :
    eventTimestamp.loop (min val maxU64) digits s =
      if 20 < digits + (s.takeWhile isDigit).length then 0
      else if digits + (s.takeWhile isDigit).length = 0 then 0
      else min (natFrom val (s.takeWhile isDigit)) maxU64 := by
  induction s generalizing val digits with
  | nil =>
    rw [eventTimestamp.loop, takeWhile_nil, length_nil, add_zero,
      if_neg (Nat.not_lt.mpr hdigits)]
    by_cases hzero : digits = 0
    · rw [if_pos hzero, if_neg (by omega)]
    · rw [if_neg hzero, if_pos (by omega)]
      rfl
  | cons c s ih =>
    rw [eventTimestamp.loop, takeWhile_cons]
    by_cases hdigit : isDigit c = true
    · have hrange : 0x30 ≤ c ∧ c ≤ 0x39 := by
        simpa [isDigit] using hdigit
      rw [if_neg (by rw [not_or, UInt8.not_lt, gt_iff_lt, UInt8.not_lt]; exact hrange)]
      have hstep : min (min (min val maxU64 * 10) maxU64 + (c - 0x30).toNat) maxU64 =
          min (10 * val + (c.toNat - 0x30)) maxU64 := by
        have hsub : (c - 0x30).toNat = c.toNat - 0x30 := UInt8.toNat_sub_of_le c 0x30 hrange.1
        rw [hsub]
        simp only [maxU64]
        omega
      simp only [hdigit, if_true, length_cons, hstep]
      by_cases hlen : digits + 1 > 20
      · rw [if_pos hlen, if_pos (by omega)]
      · rw [if_neg hlen, ih (by omega)]
        simp only [natFrom, foldl_cons, add_assoc, add_comm 1]
    · have hrange : c < 0x30 ∨ c > 0x39 := by
        simpa [isDigit, not_le, or_iff_not_imp_left] using hdigit
      rw [if_pos hrange, if_neg hdigit, length_nil, add_zero, if_neg (Nat.not_lt.mpr hdigits)]
      by_cases hzero : digits = 0
      · rw [if_pos hzero, if_neg (by omega)]
      · rw [if_neg hzero, if_pos (by omega)]
        rfl

theorem takeWhile_run {p : UInt8 → Bool} {run rest : Bytes} (hrun : ∀ c ∈ run, p c = true)
    (hrest : ∀ c ∈ rest.head?, p c = false) :
    (run ++ rest).takeWhile p = run ∧ (run ++ rest).dropWhile p = rest := by
  rw [takeWhile_append_of_pos hrun, dropWhile_append_of_pos hrun]
  cases rest with
  | nil => exact ⟨append_nil run, rfl⟩
  | cons c rest =>
    have hc := hrest c rfl
    simp [hc]

/-- A run of digits lies between the powers of ten of its length. -/
theorem natFrom_bounds (val : Nat) (hdigits : ∀ c ∈ digits, isDigit c = true) :
    val * 10 ^ digits.length ≤ natFrom val digits ∧
      natFrom val digits < (val + 1) * 10 ^ digits.length := by
  induction digits generalizing val with
  | nil => simp [natFrom]
  | cons c cs ih =>
    obtain ⟨-, hc⟩ := digit_range (hdigits c mem_cons_self)
    obtain ⟨hlow, hhigh⟩ :=
      ih (10 * val + (c.toNat - 0x30)) (fun d hd => hdigits d (mem_cons_of_mem c hd))
    rw [length_cons, pow_succ']
    constructor
    · calc val * (10 * 10 ^ cs.length) = 10 * val * 10 ^ cs.length := by ring
        _ ≤ (10 * val + (c.toNat - 0x30)) * 10 ^ cs.length :=
          Nat.mul_le_mul_right _ (Nat.le_add_right _ _)
        _ ≤ natFrom val (c :: cs) := hlow
    · calc natFrom val (c :: cs) < (10 * val + (c.toNat - 0x30) + 1) * 10 ^ cs.length := hhigh
        _ ≤ 10 * (val + 1) * 10 ^ cs.length := Nat.mul_le_mul_right _ (by omega)
        _ = (val + 1) * (10 * 10 ^ cs.length) := by ring

/-- What a run of digits counts for. -/
def worth (digits : Bytes) : Nat :=
  if 20 < digits.length then 0 else min (natOf digits) maxU64

theorem worth_nil : worth [] = 0 := rfl

/-- The digits that are read behind the colon. -/
def digitsOf (behind : Bytes) : Bytes := (behind.dropWhile isBlank).takeWhile isDigit

theorem eventTimestamp_of_index (h : indexOf message tsNeedle = some i) :
    eventTimestamp message = worth (digitsOf (message.drop (i + tsNeedle.length))) := by
  rw [eventTimestamp, h]
  dsimp only
  rw [show (fun c : UInt8 => c == 0x20 || c == 0x09) = isBlank from rfl, digitsOf]
  cases (message.drop (i + tsNeedle.length)).dropWhile isBlank with
  | nil => rfl
  | cons c s =>
    dsimp only
    by_cases hminus : c = 0x2D
    · subst hminus
      rw [if_pos rfl]
      rfl
    · have hloop := loop_eq (Nat.zero_le 20) 0 (c :: s)
      rw [Nat.zero_min, zero_add] at hloop
      rw [if_neg hminus, hloop, worth]
      by_cases hzero : ((c :: s).takeWhile isDigit).length = 0
      · rw [length_eq_zero_iff.mp hzero]
        rfl
      · rw [if_neg hzero]
        rfl

/-- The search ends at the member, and the reading starts behind its colon. -/
theorem Written.Leads.value (h : w.Leads) :
    eventTimestamp w.text = worth (digitsOf (w.space ++ (w.value ++ w.behind))) := by
  obtain ⟨hname, hgap, hfirst⟩ := h
  have htext : w.text = w.before ++ (tsNeedle ++ (w.space ++ (w.value ++ w.behind))) := by
    rw [text, hname, hgap]
    rfl
  have hindex : indexOf w.text tsNeedle = some w.before.length := by
    rw [indexOf_some_iff]
    refine ⟨?_, ?_, hfirst⟩
    · rw [htext, length_append]
      exact Nat.le_add_right _ _
    · rw [htext, drop_left]
      exact prefix_append _ _
  rw [eventTimestamp_of_index hindex, htext, ← drop_drop, drop_left, drop_left]

/-- The digits a value starts with. -/
def itemDigits : Item → Bytes
  | .number n => if n.negative then [] else n.int.bytes
  | _ => []

theorem digitsOf_item {s t : Bytes} {item : Item} (hs : IsItem s item)
    (ht : ∀ c ∈ t.head?, isDigit c = false) : digitsOf (s ++ t) = itemDigits item := by
  cases hs with
  | string h | array h | object h => rfl
  | word h =>
    simp only [words, mem_cons, not_mem_nil, or_false] at h
    rcases h with rfl | rfl | rfl <;> rfl
  | number n =>
    rw [itemDigits, Number.text]
    cases n.negative with
    | true => rfl
    | false =>
      have hrest : ∀ c ∈ ((n.frac.elim [] fun digits => point :: digits.bytes) ++
          n.exponent.elim [] Exponent.text ++ t).head?, isDigit c = false := by
        cases n.frac with
        | some digits =>
          rintro _ ⟨⟩
          rfl
        | none =>
          cases n.exponent with
          | none => exact ht
          | some e =>
            rintro _ ⟨⟩
            rcases e.mark_mem with hmark | hmark <;> rw [hmark] <;> rfl
      have hstart : ∀ c ∈ (n.int.bytes ++ ((n.frac.elim [] fun digits => point :: digits.bytes) ++
          n.exponent.elim [] Exponent.text ++ t)).head?, isBlank c = false := by
        cases hint : n.int.bytes with
        | nil => exact absurd hint n.int.ne_nil
        | cons c cs =>
          rintro _ ⟨⟩
          obtain ⟨hlow, -⟩ := digit_range (n.int.all_digits c (by simp [hint]))
          by_contra hblank
          rw [Bool.not_eq_false, isBlank, Bool.or_eq_true, beq_iff_eq, beq_iff_eq] at hblank
          rcases hblank with rfl | rfl <;> exact absurd hlow (by decide)
      simp only [Bool.false_eq_true, if_false, nil_append, append_assoc] at hrest hstart ⊢
      have hdrop := (takeWhile_run (List.forall_mem_nil _) hstart).2
      rw [nil_append] at hdrop
      rw [digitsOf, hdrop]
      exact (takeWhile_run n.int.all_digits hrest).1

/-- A line that ends behind the colon has no digits for the reading. -/
theorem digitsOf_break {s t : Bytes} (hs : Space s) (hbreak : ¬∀ c ∈ s, isBlank c = true) :
    digitsOf (s ++ t) = [] := by
  induction s with
  | nil => exact absurd (fun c hc => absurd hc not_mem_nil) hbreak
  | cons c s ih =>
    rw [cons_append, digitsOf]
    by_cases hc : isBlank c = true
    · rw [dropWhile_cons_of_pos hc]
      refine ih (fun d hd => hs d (mem_cons_of_mem c hd)) (fun hall => hbreak ?_)
      exact forall_mem_cons.mpr ⟨hc, hall⟩
    · rw [dropWhile_cons_of_neg hc, takeWhile_cons_of_neg]
      rw [space_not_digit (hs c mem_cons_self)]
      decide

/-! ## What is read against what is meant -/

/-- A number that is not zero has no leading zero, and so few digits. -/
theorem int_length_le {n : Number} (hv : natOf n.int.bytes = v) (hpos : v ≠ 0) (hlt : v < 2 ^ 64) :
    n.int.bytes.length ≤ 20 := by
  have hzero := n.leading_zero
  have hall := n.int.all_digits
  cases hint : n.int.bytes with
  | nil => exact absurd hint n.int.ne_nil
  | cons c cs =>
    rw [hint] at hzero hall hv
    have hc : 1 ≤ c.toNat - 0x30 := by
      obtain ⟨hlow, -⟩ := digit_range (hall c mem_cons_self)
      by_contra hsmall
      have hc : c = 0x30 := UInt8.toNat_inj.mp (show c.toNat = 0x30 by omega)
      subst hc
      rw [hzero rfl] at hv
      exact hpos hv.symm
    have hlow := (natFrom_bounds (c.toNat - 0x30) (forall_mem_cons.mp hall).2).1
    have hvalue : natFrom (c.toNat - 0x30) cs = v := by
      rw [← hv, natOf, foldl_cons, Nat.mul_zero, zero_add]
      rfl
    rw [hvalue] at hlow
    by_contra hlen
    rw [length_cons] at hlen
    have hpow : 10 ^ 20 ≤ (c.toNat - 0x30) * 10 ^ cs.length :=
      calc 10 ^ 20 ≤ 10 ^ cs.length := Nat.pow_le_pow_right (by decide) (by omega)
        _ ≤ (c.toNat - 0x30) * 10 ^ cs.length := Nat.le_mul_of_pos_left _ hc
    omega

/-- No number below `2 ^ 64` has more than that in its first twenty digits. -/
theorem int_le_maxU64 {n : Number} (hsign : n.negative = false) (hlen : n.int.bytes.length ≤ 20)
    (hvalue : n.value = maxU64) : natOf n.int.bytes ≤ maxU64 := by
  by_contra hbig
  have hint : natOf n.int.bytes < 10 ^ 20 := by
    have hhigh := (natFrom_bounds 0 n.int.all_digits).2
    rw [zero_add, one_mul] at hhigh
    exact lt_of_lt_of_le hhigh (Nat.pow_le_pow_right (by decide) hlen)
  have hfrac : (0 : Rat) ≤ n.frac.elim (0 : Rat) (fun digits =>
      (natOf digits.bytes : Rat) / 10 ^ digits.bytes.length) ∧ n.frac.elim (0 : Rat) (fun digits =>
      (natOf digits.bytes : Rat) / 10 ^ digits.bytes.length) < 1 := by
    cases n.frac with
    | none => simp
    | some digits =>
      have hhigh := (natFrom_bounds 0 digits.all_digits).2
      rw [zero_add, one_mul] at hhigh
      refine ⟨div_nonneg (Nat.cast_nonneg _) (by positivity), ?_⟩
      rw [Option.elim_some, div_lt_one (by positivity)]
      exact_mod_cast hhigh
  rw [Number.value] at hvalue
  simp only [hsign, Bool.false_eq_true, if_false, one_mul] at hvalue
  revert hvalue hfrac
  generalize n.frac.elim (0 : Rat) (fun digits =>
    (natOf digits.bytes : Rat) / 10 ^ digits.bytes.length) = f
  generalize n.exponent.elim (0 : Int) Exponent.value = e
  rintro ⟨hf0, hf1⟩ hvalue
  have hlow : ((2 : Rat) ^ 64) ≤ natOf n.int.bytes := by
    have hle : 2 ^ 64 ≤ natOf n.int.bytes := by
      rw [maxU64] at hbig
      omega
    exact_mod_cast hle
  have hhigh : (natOf n.int.bytes : Rat) + 1 ≤ 10 ^ 20 := by exact_mod_cast hint
  have hmax : (maxU64 : Rat) = 2 ^ 64 - 1 := by norm_num [maxU64]
  rw [hmax] at hvalue
  rcases le_or_gt 0 e with he | he
  · have hpow : (1 : Rat) ≤ 10 ^ e := one_le_zpow₀ (by norm_num) he
    nlinarith
  · have hpow : (10 : Rat) ^ e ≤ 10 ^ (-1 : Int) := zpow_le_zpow_right₀ (by norm_num) (by omega)
    have hpos : (0 : Rat) < 10 ^ e := zpow_pos (by norm_num) e
    norm_num at hpow
    nlinarith

/-- **What is read at the member is the own timestamp exactly where it is written plainly.** -/
theorem Stands.plain_iff (h : Stands w) (hown : OwnMember (ascii "ts") members w.item)
    (hv : Timestamp members v) :
    worth (digitsOf (w.space ++ (w.value ++ w.behind))) = v ↔ w.Plain v := by
  -- a number that is not zero is the member's
  have hmember : ∀ n, w.item = .number n → v ≠ 0 → n.value = v ∧ v < 2 ^ 64 := by
    intro n hn hpos
    rcases hv with ⟨n', hown', hvalue, hlt⟩ | ⟨rfl, -⟩
    · have hsame := hown.unique hown'
      cases hn.symm.trans hsame
      exact ⟨hvalue, hlt⟩
    · exact absurd rfl hpos
  have hother : (∀ n, w.item ≠ .number n) → v = 0 := by
    intro hno
    rcases hv with ⟨n', hown', -⟩ | ⟨rfl, -⟩
    · exact absurd (hown.unique hown') (hno n')
    · rfl
  have hread : digitsOf (w.space ++ (w.value ++ w.behind)) =
      if ∀ c ∈ w.space, isBlank c = true then itemDigits w.item else [] := by
    split
    · rename_i hblank
      rw [← digitsOf_item h.item h.behind, digitsOf, dropWhile_append_of_pos hblank, digitsOf]
    · rename_i hbreak
      exact digitsOf_break h.space hbreak
  rw [hread, Written.Plain]
  cases hitem : w.item with
  | string s =>
    have hzero := hother (by simp [hitem])
    simp [hzero, itemDigits, worth_nil]
  | other =>
    have hzero := hother (by simp [hitem])
    simp [hzero, itemDigits, worth_nil]
  | number n =>
    simp only [itemDigits]
    by_cases hblank : ∀ c ∈ w.space, isBlank c = true
    · rw [if_pos hblank]
      cases hsign : n.negative with
      | true =>
        rw [if_pos rfl, worth_nil]
        by_cases hzero : v = 0
        · rw [if_pos hzero]
          exact ⟨fun _ => .inl rfl, fun _ => hzero.symm⟩
        · rw [if_neg hzero]
          exact ⟨fun h => absurd h.symm hzero, fun h => absurd h.1 (by decide)⟩
      | false =>
        rw [if_neg (by decide), worth]
        by_cases hzero : v = 0
        · rw [if_pos hzero, hzero]
          constructor
          · intro hread
            split at hread
            · rename_i hlen
              exact .inr (.inr (.inl hlen))
            · exact .inr (.inl (by rw [maxU64] at hread; omega))
          · rintro (hneg | hint | hlen | hbreak)
            · cases hneg
            · rw [hint]
              split <;> rfl
            · exact if_pos hlen
            · exact absurd hblank hbreak
        · obtain ⟨hvalue, hlt⟩ := hmember n hitem hzero
          rw [if_neg hzero]
          constructor
          · intro hread
            split at hread
            · exact absurd hread.symm hzero
            rename_i hlen
            refine ⟨rfl, ?_, hblank⟩
            by_contra hne
            have hmax : v = maxU64 ∧ maxU64 < natOf n.int.bytes := by omega
            rw [hmax.1] at hvalue
            exact absurd (int_le_maxU64 hsign (Nat.not_lt.mp hlen) hvalue) (Nat.not_le.mpr hmax.2)
          · rintro ⟨-, hint, -⟩
            rw [if_neg (Nat.not_lt.mpr (int_length_le hint hzero hlt)), hint, maxU64]
            omega
    · rw [if_neg hblank, worth_nil]
      by_cases hzero : v = 0
      · rw [if_pos hzero]
        exact ⟨fun _ => .inr (.inr (.inr hblank)), fun _ => hzero.symm⟩
      · rw [if_neg hzero]
        exact ⟨fun h => absurd h.symm hzero, fun h => absurd h.2.2 hblank⟩

end

/-- **The timestamp for the filters is the message's own where that is written plainly**; and
where the text has no other `"ts":` before it, nowhere else. -/
theorem eventTimestamp_iff (message : Bytes) (members : List (Bytes × Item)) (v : Nat)
    (hobject : Object message members) (hv : Timestamp members v) :
    (WrittenPlainly message members v → eventTimestamp message = v) ∧
      (Undisturbed message members → eventTimestamp message = v →
        WrittenPlainly message members v) := by
  constructor
  · rintro (⟨rfl, hnone⟩ | ⟨w, hat, hleads, hplain⟩)
    · rw [eventTimestamp, indexOf_none_iff.mpr hnone]
    · obtain ⟨rfl, hown, hstands⟩ := hat.spec
      rw [hleads.value]
      exact (hstands.plain_iff hown hv).mpr hplain
  · intro halone hvalue
    by_cases hneedle : tsNeedle <:+: message
    · obtain ⟨w, hat, hleads⟩ := halone hneedle
      obtain ⟨rfl, hown, hstands⟩ := hat.spec
      rw [hleads.value] at hvalue
      exact .inr ⟨w, hat, hleads, (hstands.plain_iff hown hv).mp hvalue⟩
    · rw [eventTimestamp, indexOf_none_iff.mpr hneedle] at hvalue
      exact .inl ⟨hvalue.symm, hneedle⟩

theorem spells_ts : Spells (ascii "ts") (ascii "ts") :=
  .plain (by decide) (by decide) (by decide) (.plain (by decide) (by decide) (by decide) .nil)

/-- A message with an object before its timestamp, and a blank behind the colon. -/
theorem eventTimestamp_plain_sample :
    eventTimestamp (ascii "\x7b\"a\":\x7b\"b\":1\x7d,\"ts\": 7\x7d") = 7 := by
  have hone : Derives .members (ascii "\"b\":1") :=
    .lastMember Space.nil (k := ascii "b") (.plain (by decide) (by decide) (by decide) .nil)
      Space.nil Space.nil (.number (.ofDigit 0x31 rfl)) Space.nil
  have hname : ¬Spells (ascii "a") (ascii "ts") := by
    intro h
    cases h
  have ha : Chars (ascii "a") := .plain (by decide) (by decide) (by decide) .nil
  have hblank : Space [0x20] := by
    intro c hc
    cases mem_singleton.mp hc
    rfl
  have hts : IsItem [0x37] (.number (.ofDigit 0x37 rfl)) := .number (.ofDigit 0x37 rfl)
  have hobject : IsItem (ascii "\x7b\"b\":1\x7d") .other := .object (.inr hone)
  have hmembers : Members (ascii "\"a\":\x7b\"b\":1\x7d,\"ts\": 7")
      [(ascii "a", .other), (ascii "ts", .number (.ofDigit 0x37 rfl))] :=
    .cons Space.nil ha Space.nil Space.nil hobject Space.nil
      (.last Space.nil spells_ts.chars Space.nil hblank hts Space.nil)
  have hfirst : FirstAt (ascii "ts") (ascii "\"a\":\x7b\"b\":1\x7d,\"ts\": 7")
      [(ascii "a", .other), (ascii "ts", .number (.ofDigit 0x37 rfl))] _ :=
    .later Space.nil ha hname Space.nil Space.nil hobject Space.nil
      (.last Space.nil spells_ts Space.nil hblank hts Space.nil)
  have hown : Timestamp [(ascii "a", .other), (ascii "ts", .number (.ofDigit 0x37 rfl))] 7 := by
    refine .inl ⟨_, .later hname (.here spells_ts), ?_, by decide⟩
    simp [Number.value, Number.ofDigit, natOf]
  have hobj : Object _ _ := .members (a := []) (b := []) Space.nil hmembers Space.nil
  have hat : OwnAt (openBrace :: (ascii "\"a\":\x7b\"b\":1\x7d,\"ts\": 7" ++ [closeBrace])) _ _ :=
    ⟨[], _, [], _, hfirst, Space.nil, Space.nil, rfl, rfl⟩
  refine (eventTimestamp_iff _ _ 7 hobj hown).1
    (.inr ⟨_, hat, ⟨rfl, rfl, by decide⟩, rfl, rfl, ?_⟩)
  intro c hc
  cases mem_singleton.mp hc
  rfl

/-- The `ts` of a nested object is taken for the message's own. -/
theorem nested_ts_taken : ¬∀ message v, OwnTimestamp message v → eventTimestamp message = v := by
  intro h
  have hinner : Derives .members (ascii "\"ts\":5") :=
    .lastMember Space.nil spells_ts.chars Space.nil Space.nil (.number (.ofDigit 0x35 rfl))
      Space.nil
  have hname : Chars (ascii "a") := .plain (by decide) (by decide) (by decide) .nil
  have hmembers : Members (ascii "\"a\":\x7b\"ts\":5\x7d") [(ascii "a", .other)] :=
    .last Space.nil hname Space.nil Space.nil (.object (.inr hinner)) Space.nil
  have hobject : Object (ascii "\x7b\"a\":\x7b\"ts\":5\x7d\x7d") [(ascii "a", .other)] :=
    .members Space.nil hmembers Space.nil
  have hnone : ∀ w, ¬TsMember [(ascii "a", .other)] w := by
    rintro w ⟨n, hown, -⟩
    cases hown with
    | later _ h => cases h
  exact absurd (h _ 0 ⟨_, hobject, .inr ⟨rfl, hnone⟩⟩) (by decide)

end Predicate
end WormDB
