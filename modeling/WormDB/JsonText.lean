import WormDB.ByteCodec
import Mathlib.Algebra.Field.Rat

/-! # JSON as text

The grammar of JSON over bytes: strings with their escape sequences, numbers, the three
words, arrays and objects.  `Derives` says which texts are values; `Object` takes an object
apart into its own members, with what they are worth to a reader that looks for strings and
numbers only.  A byte from `0x80` on may stand in a string as it is. -/
namespace JsonText
open List ByteCodec

abbrev quote : UInt8 := 0x22
abbrev backslash : UInt8 := 0x5C
abbrev comma : UInt8 := 0x2C
abbrev colon : UInt8 := 0x3A
abbrev openBrace : UInt8 := 0x7B
abbrev closeBrace : UInt8 := 0x7D
abbrev openBracket : UInt8 := 0x5B
abbrev closeBracket : UInt8 := 0x5D
abbrev plus : UInt8 := 0x2B
abbrev minus : UInt8 := 0x2D
abbrev point : UInt8 := 0x2E

def isSpace (c : UInt8) : Bool := c == 0x20 || c == 0x09 || c == 0x0A || c == 0x0D

def isDigit (c : UInt8) : Bool := 0x30 ≤ c && c ≤ 0x39

def Space (s : Bytes) : Prop := ∀ c ∈ s, isSpace c = true

theorem Space.nil : Space [] := fun _ h => absurd h not_mem_nil

/-! ## Strings -/

def hexDigit? (c : UInt8) : Option Nat :=
  if isDigit c then some (c.toNat - 0x30)
  else if 0x41 ≤ c && c ≤ 0x46 then some (c.toNat - 0x37)
  else if 0x61 ≤ c && c ≤ 0x66 then some (c.toNat - 0x57)
  else none

/-- The value of four hexadecimal digits. -/
def codeUnit? (a b c d : UInt8) : Option Nat := do
  let a ← hexDigit? a
  let b ← hexDigit? b
  let c ← hexDigit? c
  let d ← hexDigit? d
  return ((a * 16 + b) * 16 + c) * 16 + d

/-- The bytes that may follow a backslash, with those that they stand for. -/
def escapes : List (UInt8 × UInt8) :=
  [(quote, quote), (backslash, backslash), (0x2F, 0x2F), (0x62, 0x08), (0x66, 0x0C), (0x6E, 0x0A),
    (0x72, 0x0D), (0x74, 0x09)]

/-- What may stand between the quotes. -/
inductive Chars : Bytes → Prop where
  | nil : Chars []
  | plain {c : UInt8} {s : Bytes} (hcontrol : 0x20 ≤ c) (hquote : c ≠ quote)
      (hescape : c ≠ backslash) (h : Chars s) : Chars (c :: s)
  | escape {c e : UInt8} {s : Bytes} (hc : (c, e) ∈ escapes) (h : Chars s) :
      Chars (backslash :: c :: s)
  | unicode {a b c d : UInt8} {unit : Nat} {s : Bytes} (hunit : codeUnit? a b c d = some unit)
      (h : Chars s) : Chars (backslash :: 0x75 :: a :: b :: c :: d :: s)

/-- The string that is written there, in UTF-8.  A surrogate stands for nothing alone. -/
inductive Spells : Bytes → Bytes → Prop where
  | nil : Spells [] []
  | plain {c : UInt8} {s t : Bytes} (hcontrol : 0x20 ≤ c) (hquote : c ≠ quote)
      (hescape : c ≠ backslash) (h : Spells s t) : Spells (c :: s) (c :: t)
  | escape {c e : UInt8} {s t : Bytes} (hc : (c, e) ∈ escapes) (h : Spells s t) :
      Spells (backslash :: c :: s) (e :: t)
  | unicode {a b c d : UInt8} {unit : Nat} {s t : Bytes} (hunit : codeUnit? a b c d = some unit)
      (hscalar : unit.isValidChar) (h : Spells s t) :
      Spells (backslash :: 0x75 :: a :: b :: c :: d :: s)
        (String.utf8EncodeChar (Char.ofNatAux unit hscalar) ++ t)
  | pair {a b c d a' b' c' d' : UInt8} {high low : Nat} {s t : Bytes}
      (hhigh : codeUnit? a b c d = some (0xD800 + high)) (hhighLt : high < 0x400)
      (hlow : codeUnit? a' b' c' d' = some (0xDC00 + low)) (hlowLt : low < 0x400)
      (h : Spells s t) :
      Spells (backslash :: 0x75 :: a :: b :: c :: d ::
          backslash :: 0x75 :: a' :: b' :: c' :: d' :: s)
        (String.utf8EncodeChar (Char.ofNat (0x10000 + 0x400 * high + low)) ++ t)

theorem Spells.chars {s t : Bytes} (h : Spells s t) : Chars s := by
  induction h with
  | nil => exact .nil
  | plain hcontrol hquote hescape _ ih => exact .plain hcontrol hquote hescape ih
  | escape hc _ ih => exact .escape hc ih
  | unicode hunit _ _ ih => exact .unicode hunit ih
  | pair hhigh _ hlow _ _ ih => exact .unicode hhigh (.unicode hlow ih)

/-- A string with its quotes. -/
def quoted (s : Bytes) : Bytes := quote :: (s ++ [quote])

/-! ## Numbers -/

/-- A run of digits. -/
structure Digits where
  bytes : Bytes
  ne_nil : bytes ≠ []
  all_digits : ∀ c ∈ bytes, isDigit c = true

def natOf (digits : Bytes) : Nat := digits.foldl (fun n c => 10 * n + (c.toNat - 0x30)) 0

structure Exponent where
  mark : UInt8
  sign : Option UInt8
  digits : Digits
  mark_mem : mark = 0x65 ∨ mark = 0x45
  sign_mem : ∀ c ∈ sign, c = plus ∨ c = minus

def Exponent.text (e : Exponent) : Bytes := e.mark :: (e.sign.toList ++ e.digits.bytes)

def Exponent.value (e : Exponent) : Int :=
  if e.sign = some minus then -(natOf e.digits.bytes) else natOf e.digits.bytes

/-- A number in its parts. -/
structure Number where
  negative : Bool
  int : Digits
  frac : Option Digits
  exponent : Option Exponent
  /-- A leading zero stands alone. -/
  leading_zero : int.bytes.head? = some 0x30 → int.bytes = [0x30]

namespace Number

def text (n : Number) : Bytes :=
  (if n.negative then [minus] else []) ++ (n.int.bytes ++
    ((n.frac.elim [] fun digits => point :: digits.bytes) ++ n.exponent.elim [] Exponent.text))

def value (n : Number) : Rat :=
  let frac := n.frac.elim (0 : Rat) fun digits =>
    (natOf digits.bytes : Rat) / 10 ^ digits.bytes.length
  (if n.negative then -1 else 1) * ((natOf n.int.bytes : Rat) + frac) *
    (10 : Rat) ^ n.exponent.elim (0 : Int) Exponent.value

/-- A number of one digit. -/
def ofDigit (c : UInt8) (h : isDigit c = true) : Number :=
  ⟨false, ⟨[c], cons_ne_nil _ _, fun d hd => by rwa [mem_singleton.mp hd]⟩, none, none,
    fun hd => congrArg (fun c => [c]) (Option.some.inj hd)⟩

/-- The bytes of numbers. -/
def isByte (c : UInt8) : Bool :=
  isDigit c || c == minus || c == plus || c == point || c == 0x65 || c == 0x45

variable {c : UInt8}

theorem digit_isByte (h : isDigit c = true) : isByte c = true := by
  rw [isByte, h]
  rfl

/-- A number starts with a sign or a digit. -/
theorem text_start (n : Number) : ∃ c t, n.text = c :: t ∧ (c = minus ∨ isDigit c = true) := by
  rw [text]
  cases n.negative with
  | true => exact ⟨minus, _, rfl, .inl rfl⟩
  | false =>
    cases hint : n.int.bytes with
    | nil => exact absurd hint n.int.ne_nil
    | cons c cs => exact ⟨c, _, rfl, .inr (n.int.all_digits c (by simp [hint]))⟩

theorem text_isByte (n : Number) (h : c ∈ n.text) : isByte c = true := by
  rw [text, mem_append, mem_append, mem_append] at h
  rcases h with h | h | h | h
  · split at h
    · cases mem_singleton.mp h
      rfl
    · cases h
  · exact digit_isByte (n.int.all_digits c h)
  · cases hfrac : n.frac with
    | none => simp [hfrac] at h
    | some digits =>
      rw [hfrac, Option.elim_some, mem_cons] at h
      rcases h with rfl | h
      · rfl
      · exact digit_isByte (digits.all_digits c h)
  · cases hexp : n.exponent with
    | none => simp [hexp] at h
    | some e =>
      rw [hexp, Option.elim_some, Exponent.text, mem_cons, mem_append] at h
      rcases h with rfl | h | h
      · rcases e.mark_mem with hmark | hmark <;> rw [hmark] <;> rfl
      · rcases e.sign_mem c (Option.mem_toList.mp h) with rfl | rfl <;> rfl
      · exact digit_isByte (e.digits.all_digits c h)

end Number

/-! ## Values -/

def words : List Bytes := [ascii "true", ascii "false", ascii "null"]

/-- A single value, or what stands between the brackets of an array or an object. -/
inductive Part where
  | value | elements | members

inductive Derives : Part → Bytes → Prop where
  | string {s : Bytes} (h : Chars s) : Derives .value (quoted s)
  | number (n : Number) : Derives .value n.text
  | word {w : Bytes} (h : w ∈ words) : Derives .value w
  | emptyArray {s : Bytes} (h : Space s) : Derives .value (openBracket :: (s ++ [closeBracket]))
  | array {t : Bytes} (h : Derives .elements t) :
      Derives .value (openBracket :: (t ++ [closeBracket]))
  | emptyObject {s : Bytes} (h : Space s) : Derives .value (openBrace :: (s ++ [closeBrace]))
  | object {t : Bytes} (h : Derives .members t) : Derives .value (openBrace :: (t ++ [closeBrace]))
  | lastElement {s v s' : Bytes} (hs : Space s) (hv : Derives .value v) (hs' : Space s') :
      Derives .elements (s ++ (v ++ s'))
  | element {s v s' t : Bytes} (hs : Space s) (hv : Derives .value v) (hs' : Space s')
      (ht : Derives .elements t) : Derives .elements (s ++ (v ++ (s' ++ comma :: t)))
  | lastMember {a k b c v d : Bytes} (ha : Space a) (hk : Chars k) (hb : Space b) (hc : Space c)
      (hv : Derives .value v) (hd : Space d) :
      Derives .members (a ++ (quoted k ++ (b ++ colon :: (c ++ (v ++ d)))))
  | member {a k b c v d t : Bytes} (ha : Space a) (hk : Chars k) (hb : Space b) (hc : Space c)
      (hv : Derives .value v) (hd : Space d) (ht : Derives .members t) :
      Derives .members (a ++ (quoted k ++ (b ++ colon :: (c ++ (v ++ (d ++ comma :: t))))))

/-! ## Objects and their members -/

/-- What a value is to a reader of strings and numbers. -/
inductive Item where
  | string (chars : Bytes)
  | number (n : Number)
  | other

inductive IsItem : Bytes → Item → Prop where
  | string {s : Bytes} (h : Chars s) : IsItem (quoted s) (.string s)
  | number (n : Number) : IsItem n.text (.number n)
  | word {w : Bytes} (h : w ∈ words) : IsItem w .other
  | array {t : Bytes} (h : Space t ∨ Derives .elements t) :
      IsItem (openBracket :: (t ++ [closeBracket])) .other
  | object {t : Bytes} (h : Space t ∨ Derives .members t) :
      IsItem (openBrace :: (t ++ [closeBrace])) .other

/-- The members with their names, as these are written. -/
inductive Members : Bytes → List (Bytes × Item) → Prop where
  | last {a k b c v d : Bytes} {item : Item} (ha : Space a) (hk : Chars k) (hb : Space b)
      (hc : Space c) (hv : IsItem v item) (hd : Space d) :
      Members (a ++ (quoted k ++ (b ++ colon :: (c ++ (v ++ d))))) [(k, item)]
  | cons {a k b c v d t : Bytes} {item : Item} {members : List (Bytes × Item)} (ha : Space a)
      (hk : Chars k) (hb : Space b) (hc : Space c) (hv : IsItem v item) (hd : Space d)
      (ht : Members t members) :
      Members (a ++ (quoted k ++ (b ++ colon :: (c ++ (v ++ (d ++ comma :: t))))))
        ((k, item) :: members)

/-- A text that is an object, with space around it. -/
inductive Object : Bytes → List (Bytes × Item) → Prop where
  | empty {a s b : Bytes} (ha : Space a) (hs : Space s) (hb : Space b) :
      Object (a ++ openBrace :: (s ++ closeBrace :: b)) []
  | members {a t b : Bytes} {members : List (Bytes × Item)} (ha : Space a)
      (h : Members t members) (hb : Space b) :
      Object (a ++ openBrace :: (t ++ closeBrace :: b)) members

end JsonText
