import WormDB.MetaField

/-! # What the lookup finds in an object

The scanners at a place where a known text stands.  A nested value is passed over with the
depths as they were (`derives_passes`), by induction on the grammar.

`jsonTopLevelField_exact` says that the lookup ends on any bytes, and what it finds in an
object.  A string is found as it is written: an escape sequence in it stays one. -/
namespace WormDB
open List Checked
namespace Predicate
open ByteCodec ByteReader BoundedLoop JsonText

variable {F : Type}

section
variable {json xs rest : Bytes} {pos : Nat} {c quote : UInt8}

/-! ## Strings -/

variable {a : UInt8}

theorem hexDigit_plain {n : Nat} (h : hexDigit? a = some n) : a ≠ backslash ∧ a ≠ 0x22 := by
  constructor
  · rintro rfl
    cases h
  · rintro rfl
    cases h

theorem codeUnit_digits {b c d : UInt8} {unit : Nat} (h : codeUnit? a b c d = some unit) :
    ∀ e ∈ [a, b, c, d], e ≠ backslash ∧ e ≠ 0x22 := by
  simp only [codeUnit?, Option.bind_eq_bind, Option.bind_eq_some_iff] at h
  obtain ⟨_, ha, _, hb, _, hc, _, hd, -⟩ := h
  simp [hexDigit_plain ha, hexDigit_plain hb, hexDigit_plain hc, hexDigit_plain hd]

variable {s : Bytes}

/-- What is written between the quotes of a string. -/
theorem chars_body (hs : Chars s) : QuotedBody 0x22 s := by
  induction hs with
  | nil => exact .nil
  | plain _ hquote hescape _ ih => exact .plain hquote hescape ih
  | @escape c e s _ _ ih => exact .escape c ih
  | @unicode a b c d unit s hunit _ ih =>
    have hdigit := codeUnit_digits hunit
    have ha := hdigit a (by simp)
    have hb := hdigit b (by simp)
    have hc := hdigit c (by simp)
    have hd := hdigit d (by simp)
    exact .escape 0x75 (.plain ha.2 ha.1 (.plain hb.2 hb.1 (.plain hc.2 hc.1 (.plain hd.2 hd.1 ih))))

/-- **The closing quote** of a string. -/
theorem skipQuoted_at (hs : Chars s) (h : At json pos (quoted s ++ rest)) :
    skipQuoted json pos = some (some (pos + 1 + s.length)) :=
  skipQuoted_body (by decide) (chars_body hs) (by simpa [quoted] using h)

/-- What ends a scalar, or the text itself. -/
def Delimited (rest : Bytes) : Prop := ∀ c ∈ rest.head?, isDelimiter c = true

theorem skipScalar_at (hxs : ∀ c ∈ xs, isDelimiter c = false) (hrest : Delimited rest)
    (h : At json pos (xs ++ rest)) :
    skipWhile (fun c => !isDelimiter c) json pos = some (pos + xs.length) :=
  skipWhile_at (fun c hc => by rw [hxs c hc]; rfl) (fun c hc => by rw [hrest c hc]; rfl) h

/-- A byte that is neither a quote nor a bracket. -/
def isPlain (c : UInt8) : Bool :=
  c != 0x27 && c != 0x22 && c != 0x7B && c != 0x5B && c != 0x7D && c != 0x5D

theorem isByte_plain (c : UInt8) (h : Number.isByte c = true) :
    isPlain c = true ∧ isDelimiter c = false := by
  revert h
  exact @forall_uint8
    (fun c => Number.isByte c = true → isPlain c = true ∧ isDelimiter c = false)
    (by decide +kernel) c

theorem space_plain (c : UInt8) (h : isSpace c = true) : isPlain c = true := by
  revert h
  exact @forall_uint8 (fun c => isSpace c = true → isPlain c = true) (by decide +kernel) c

theorem word_plain {w : Bytes} (h : w ∈ words) :
    ∀ c ∈ w, isPlain c = true ∧ isDelimiter c = false := by
  revert w
  decide +kernel

end

/-! ## Nested values -/

/-- Between the brackets of an object or an array, the text is passed over. -/
def Passes (t : Bytes) : Prop :=
  ∀ json rest pos objectDepth arrayDepth, 0 < objectDepth + arrayDepth → At json pos (t ++ rest) →
    Steps (skipJsonValue.step json) ⟨pos, objectDepth, arrayDepth⟩
      ⟨pos + t.length, objectDepth, arrayDepth⟩

section
variable {json t t' rest : Bytes} {pos objectDepth arrayDepth : Nat} {c : UInt8}

theorem skipJsonValue.step_plain (hc : isPlain c = true) (h : At json pos (c :: rest)) :
    skipJsonValue.step json ⟨pos, objectDepth, arrayDepth⟩ =
      some (.inl ⟨pos + 1, objectDepth, arrayDepth⟩) := by
  simp only [isPlain, bne_iff_ne, Bool.and_eq_true] at hc
  obtain ⟨⟨⟨⟨⟨h₁, h₂⟩, h₃⟩, h₄⟩, h₅⟩, h₆⟩ := hc
  rw [skipJsonValue.step, if_pos h.lt, get_at h, some_bind, if_neg (by simp [h₁, h₂]),
    if_neg h₃, if_neg h₄, if_neg h₅, if_neg h₆]

theorem skipJsonValue.step_quoted {k : Bytes} (hk : Chars k) (h : At json pos (quoted k ++ rest)) :
    skipJsonValue.step json ⟨pos, objectDepth, arrayDepth⟩ =
      some (.inl ⟨pos + (quoted k).length, objectDepth, arrayDepth⟩) := by
  have hopen : At json pos (0x22 :: (k ++ [quote] ++ rest)) := h
  rw [skipJsonValue.step, if_pos hopen.lt, get_at hopen, some_bind, if_pos (.inr rfl),
    skipQuoted_at hk h, some_bind]
  simp only [quoted, length_cons, length_append, length_nil]
  congr 3
  omega

theorem skipJsonValue.step_openBrace (h : At json pos (openBrace :: rest)) :
    skipJsonValue.step json ⟨pos, objectDepth, arrayDepth⟩ =
      some (.inl ⟨pos + 1, objectDepth + 1, arrayDepth⟩) := by
  rw [skipJsonValue.step, if_pos h.lt, get_at h, some_bind, if_neg (by decide), if_pos rfl]

theorem skipJsonValue.step_openBracket (h : At json pos (openBracket :: rest)) :
    skipJsonValue.step json ⟨pos, objectDepth, arrayDepth⟩ =
      some (.inl ⟨pos + 1, objectDepth, arrayDepth + 1⟩) := by
  rw [skipJsonValue.step, if_pos h.lt, get_at h, some_bind, if_neg (by decide),
    if_neg (by decide), if_pos rfl]

theorem skipJsonValue.step_closeBrace (h : At json pos (closeBrace :: rest)) :
    skipJsonValue.step json ⟨pos, objectDepth + 1, arrayDepth⟩ =
      if objectDepth = 0 ∧ arrayDepth = 0 then some (.inr (some (pos + 1)))
      else some (.inl ⟨pos + 1, objectDepth, arrayDepth⟩) := by
  rw [skipJsonValue.step, if_pos h.lt, get_at h, some_bind, if_neg (by decide),
    if_neg (by decide), if_neg (by decide), if_pos rfl, if_neg (Nat.succ_ne_zero _),
    sub_eq (Nat.le_add_left 1 _), some_bind, Nat.add_sub_cancel]

theorem skipJsonValue.step_closeBracket (h : At json pos (closeBracket :: rest)) :
    skipJsonValue.step json ⟨pos, objectDepth, arrayDepth + 1⟩ =
      if objectDepth = 0 ∧ arrayDepth = 0 then some (.inr (some (pos + 1)))
      else some (.inl ⟨pos + 1, objectDepth, arrayDepth⟩) := by
  rw [skipJsonValue.step, if_pos h.lt, get_at h, some_bind, if_neg (by decide),
    if_neg (by decide), if_neg (by decide), if_neg (by decide), if_pos rfl,
    if_neg (Nat.succ_ne_zero _), sub_eq (Nat.le_add_left 1 _), some_bind,
    Nat.add_sub_cancel]

namespace Passes

theorem append (ht : Passes t) (ht' : Passes t') : Passes (t ++ t') := by
  intro json rest pos objectDepth arrayDepth hdepth h
  rw [append_assoc] at h
  rw [length_append, ← add_assoc]
  exact (ht json _ pos _ _ hdepth h).trans (ht' json rest _ _ _ hdepth h.skip)

theorem one (hc : isPlain c = true) : Passes [c] := fun _ _ _ _ _ _ h =>
  .one (skipJsonValue.step_plain hc h)

theorem plain (ht : ∀ c ∈ t, isPlain c = true) : Passes t := by
  induction t with
  | nil => exact fun _ _ pos _ _ _ _ => .refl _
  | cons c t ih =>
    exact append (one (ht c mem_cons_self)) (ih fun c hc => ht c (mem_cons_of_mem _ hc))

theorem space (ht : Space t) : Passes t := plain fun c hc => space_plain c (ht c hc)

theorem quoted {k : Bytes} (hk : Chars k) : Passes (quoted k) := fun _ _ _ _ _ _ h =>
  .one (skipJsonValue.step_quoted hk h)

/-- Inside the brackets one object or array more is open. -/
theorem nested {o c : UInt8} (object array : Nat) (ht : Passes t)
    (hopen : ∀ json rest pos objectDepth arrayDepth, At json pos (o :: rest) →
      skipJsonValue.step json ⟨pos, objectDepth, arrayDepth⟩ =
        some (.inl ⟨pos + 1, objectDepth + object, arrayDepth + array⟩))
    (hclose : ∀ json rest pos objectDepth arrayDepth, At json pos (c :: rest) →
      skipJsonValue.step json ⟨pos, objectDepth + object, arrayDepth + array⟩ =
        if objectDepth = 0 ∧ arrayDepth = 0 then some (.inr (some (pos + 1)))
        else some (.inl ⟨pos + 1, objectDepth, arrayDepth⟩)) :
    Passes (o :: (t ++ [c])) := by
  intro json rest pos objectDepth arrayDepth hdepth h
  have h : At json pos (o :: (t ++ (c :: rest))) := by simpa using h
  have hlast := hclose json rest _ objectDepth arrayDepth h.next.skip
  rw [if_neg (by omega)] at hlast
  refine .head (hopen json _ pos _ _ h) ?_
  refine (ht json _ _ _ _ (by omega) h.next).trans ?_
  rw [(by simp; omega : pos + (o :: (t ++ [c])).length = pos + 1 + t.length + 1)]
  exact .one hlast

theorem object (ht : Passes t) : Passes (openBrace :: (t ++ [closeBrace])) :=
  nested 1 0 ht (fun _ _ _ _ _ => skipJsonValue.step_openBrace)
    fun _ _ _ _ _ => skipJsonValue.step_closeBrace

theorem array (ht : Passes t) : Passes (openBracket :: (t ++ [closeBracket])) :=
  nested 0 1 ht (fun _ _ _ _ _ => skipJsonValue.step_openBracket)
    fun _ _ _ _ _ => skipJsonValue.step_closeBracket

end Passes

/-- **Values are passed over**, and so are elements and members. -/
theorem derives_passes {part : Part} (h : Derives part t) : Passes t := by
  have hcolon : Passes [colon] := .one rfl
  have hcomma : Passes [comma] := .one rfl
  induction h with
  | string h => exact .quoted h
  | number n => exact .plain fun c hc => (isByte_plain c (n.text_isByte hc)).1
  | word h => exact .plain fun c hc => (word_plain h c hc).1
  | emptyArray h => exact (Passes.space h).array
  | array _ ih => exact ih.array
  | emptyObject h => exact (Passes.space h).object
  | object _ ih => exact ih.object
  | lastElement hs _ hs' ih => exact .append (.space hs) (.append ih (.space hs'))
  | element hs _ hs' _ ih ih' =>
    exact .append (.space hs) (.append ih (.append (.space hs') (.append hcomma ih')))
  | lastMember ha hk hb hc _ hd ih =>
    exact .append (.space ha) (.append (.quoted hk) (.append (.space hb)
      (.append hcolon (.append (.space hc) (.append ih (.space hd))))))
  | member ha hk hb hc _ hd _ ih ih' =>
    exact .append (.space ha) (.append (.quoted hk) (.append (.space hb)
      (.append hcolon (.append (.space hc) (.append ih (.append (.space hd)
        (.append hcomma ih')))))))

/-- A scalar without quotes. -/
theorem skipJsonValue_bare (hne : t ≠ [])
    (ht : ∀ c ∈ t, isPlain c = true ∧ isDelimiter c = false) (hrest : Delimited rest)
    (h : At json pos (t ++ rest)) : skipJsonValue json pos = some (some (pos + t.length)) := by
  cases t with
  | nil => exact absurd rfl hne
  | cons c t =>
    have hc := (ht c mem_cons_self).1
    simp only [isPlain, bne_iff_ne, Bool.and_eq_true] at hc
    obtain ⟨⟨⟨⟨⟨-, h₂⟩, h₃⟩, h₄⟩, -⟩, -⟩ := hc
    have hfirst : At json pos (c :: (t ++ rest)) := h
    rw [skipJsonValue, if_neg (Nat.not_le.mpr hfirst.lt), get_at hfirst, some_bind,
      if_neg h₂, if_neg (by simp [h₃, h₄]), skipScalar_at (fun c hc => (ht c hc).2) hrest h,
      some_bind]

/-- **A value is skipped** to its end. -/
theorem skipJsonValue_at {item : Item} (hv : IsItem t item) (hrest : Delimited rest)
    (h : At json pos (t ++ rest)) : skipJsonValue json pos = some (some (pos + t.length)) := by
  cases hv with
  | @string s hs =>
    have hopen : At json pos (0x22 :: (s ++ [quote] ++ rest)) := h
    rw [skipJsonValue, if_neg (Nat.not_le.mpr hopen.lt), get_at hopen, some_bind,
      if_pos rfl, skipQuoted_at hs h, some_bind]
    simp only [JsonText.quoted, length_cons, length_append, length_nil]
    congr 2
    omega
  | number n =>
    obtain ⟨c, t, htext, -⟩ := n.text_start
    exact skipJsonValue_bare (by simp [htext]) (fun c hc => isByte_plain c (n.text_isByte hc)) hrest h
  | word hw =>
    refine skipJsonValue_bare ?_ (word_plain hw) hrest h
    rintro rfl
    exact absurd hw (by decide)
  | @array t ht =>
    have h : At json pos (openBracket :: (t ++ (closeBracket :: rest))) := by simpa using h
    have hpasses : Passes t := ht.elim .space derives_passes
    obtain ⟨r, hrun, -⟩ := skipJsonValue_total h.lt
    rw [skipJsonValue, if_neg (Nat.not_le.mpr h.lt), get_at h, some_bind,
      if_neg (by decide), if_pos (.inr rfl)] at hrun ⊢
    refine iterate_of_steps (hpasses json _ _ 0 1 (by decide) h.next) ?_ ⟨r, hrun⟩
    rw [skipJsonValue.step_closeBracket h.next.skip]
    simp [add_assoc, add_comm 1]
  | @object t ht =>
    have h : At json pos (openBrace :: (t ++ (closeBrace :: rest))) := by simpa using h
    have hpasses : Passes t := ht.elim .space derives_passes
    obtain ⟨r, hrun, -⟩ := skipJsonValue_total h.lt
    rw [skipJsonValue, if_neg (Nat.not_le.mpr h.lt), get_at h, some_bind,
      if_neg (by decide), if_pos (.inl rfl)] at hrun ⊢
    refine iterate_of_steps (hpasses json _ _ 1 0 (by decide) h.next) ?_ ⟨r, hrun⟩
    rw [skipJsonValue.step_closeBrace h.next.skip]
    simp [add_assoc, add_comm 1]

end

/-! ## The lookup -/

/-- What the lookup relies on: `parseFloat` reads the numbers, each as the closest value, and
none of the other values. -/
structure ReadsNumbers (parseFloat : Bytes → Option F) (round : Rat → F) : Prop where
  number : ∀ n : Number, parseFloat n.text = some (round n.value)
  word : ∀ w ∈ words, parseFloat w = none
  bracket : ∀ c t, c = openBrace ∨ c = openBracket → parseFloat (c :: t) = none

/-- An item as the value of a field. -/
def itemValue (round : Rat → F) : Item → Option (FieldValue F)
  | .string chars => some (.string chars)
  | .number n => some (.number (round n.value))
  | .other => none

/-- The value of the first member with the name. -/
def lookup (round : Rat → F) (members : List (Bytes × Item)) (field : Bytes) :
    Option (FieldValue F) :=
  (members.find? fun m => m.1 == field).bind fun m => itemValue round m.2

section
variable {parseFloat : Bytes → Option F} {round : Rat → F} {json t rest field : Bytes} {pos : Nat}

/-- A bare text as a number. -/
theorem parseJsonScalar_bare (hne : t ≠ [])
    (ht : ∀ c ∈ t, isPlain c = true ∧ isDelimiter c = false) (hrest : Delimited rest)
    (h : At json pos (t ++ rest)) :
    parseJsonScalar parseFloat json pos = some ((parseFloat t).map .number) := by
  have hstop := skipScalar_at (fun c hc => (ht c hc).2) hrest h
  have hlen : pos + t.length ≠ pos := by
    have := length_pos_iff.mpr hne
    omega
  cases t with
  | nil => exact absurd rfl hne
  | cons c t =>
    have hc := (ht c mem_cons_self).1
    simp only [isPlain, bne_iff_ne, Bool.and_eq_true] at hc
    obtain ⟨⟨⟨⟨⟨-, h₂⟩, -⟩, -⟩, -⟩, -⟩ := hc
    have hfirst : At json pos (c :: (t ++ rest)) := h
    rw [parseJsonScalar, get_at hfirst, some_bind, if_neg h₂, hstop, some_bind,
      if_neg hlen, slice_at h, some_bind]

variable {c : UInt8}

/-- Behind an opening bracket there is no number. -/
theorem parseJsonScalar_bracket (hfloat : ReadsNumbers parseFloat round)
    (hc : c = openBrace ∨ c = openBracket) (h : At json pos (c :: rest)) :
    parseJsonScalar parseFloat json pos = some none := by
  have hquote : c ≠ 0x22 := by
    rcases hc with rfl | rfl <;> decide
  obtain ⟨stop, hrun, hle, hlen⟩ := skipWhile_total (fun c => !isDelimiter c) (le_of_lt h.lt)
  rw [parseJsonScalar, get_at h, some_bind, if_neg hquote, hrun, some_bind]
  split
  · rfl
  case isFalse hne =>
    rw [slice_eq hle hlen, some_bind]
    obtain ⟨n, hn⟩ : ∃ n, stop - pos = n + 1 := ⟨stop - pos - 1, by omega⟩
    obtain ⟨pre, rfl, rfl⟩ := h
    rw [drop_left, hn, take_succ_cons, hfloat.bracket c _ hc]
    rfl

variable {item : Item}

/-- **A value is read** for what it is. -/
theorem parseJsonScalar_at (hfloat : ReadsNumbers parseFloat round)
    (hv : IsItem t item) (hrest : Delimited rest) (h : At json pos (t ++ rest)) :
    parseJsonScalar parseFloat json pos = some (itemValue round item) := by
  cases hv with
  | @string s hs =>
    have hopen : At json pos (0x22 :: (s ++ (quote :: rest))) := by simpa [quoted] using h
    rw [parseJsonScalar, get_at hopen, some_bind, if_pos rfl, skipQuoted_at hs h, some_bind]
    simp only [slice_at hopen.next, some_bind]
    rfl
  | number n =>
    obtain ⟨c, t, htext, -⟩ := n.text_start
    rw [parseJsonScalar_bare (by simp [htext]) (fun c hc => isByte_plain c (n.text_isByte hc)) hrest h,
      hfloat.number n]
    rfl
  | word hw =>
    have hne : t ≠ [] := by
      rintro rfl
      exact absurd hw (by decide)
    rw [parseJsonScalar_bare hne (word_plain hw) hrest h, hfloat.word t hw]
    rfl
  | array ht => exact parseJsonScalar_bracket hfloat (.inr rfl) h
  | object ht => exact parseJsonScalar_bracket hfloat (.inl rfl) h

/-! ## The members -/

/-- What may stand in front of a member. -/
def Gap (s : Bytes) : Prop := ∀ c ∈ s, (isWs c || c == 0x2C) = true

theorem Gap.of_space (h : Space t) : Gap t := fun c hc => by
  rw [show isWs c = true from h c hc]
  rfl

theorem Gap.append {s : Bytes} (h : Gap t) (h' : Gap s) : Gap (t ++ s) := fun c hc =>
  (mem_append.mp hc).elim (h c) (h' c)

theorem Delimited.of_space (h : Space t) (hc : isDelimiter c = true) :
    Delimited (t ++ c :: rest) := by
  intro e he
  cases t with
  | nil =>
    cases he
    exact hc
  | cons e t =>
    cases he
    rw [isDelimiter, show isWs e = true from h e mem_cons_self]
    rfl

/-- Space in front of a byte that is none. -/
theorem skipWs_at (ht : Space t) (hc : isWs c = false) (h : At json pos (t ++ c :: rest)) :
    skipWhile isWs json pos = some (pos + t.length) :=
  skipWhile_at ht (fun e he => by cases he; exact hc) h

theorem skipGap_at (ht : Gap t) (hc : (isWs c || c == 0x2C) = false)
    (h : At json pos (t ++ c :: rest)) :
    skipWhile (fun c => isWs c || c == 0x2C) json pos = some (pos + t.length) :=
  skipWhile_at ht (fun e he => by cases he; exact hc) h

theorem At.inside (h : At json pos (t ++ rest)) (hne : rest ≠ []) : pos < json.length := by
  have hlen := h.length_eq
  have hpos := length_pos_iff.mpr hne
  rw [length_append] at hlen
  omega

/-- A value starts with a byte that is no space. -/
theorem item_start (hv : IsItem t item) : ∃ c t', t = c :: t' ∧ isWs c = false := by
  cases hv with
  | string hs => exact ⟨_, _, rfl, rfl⟩
  | number n =>
    obtain ⟨c, t', htext, hc⟩ := n.text_start
    refine ⟨c, t', htext, ?_⟩
    have hdelim := (isByte_plain c (n.text_isByte (by simp [htext]))).2
    simp only [isDelimiter, Bool.or_eq_false_iff] at hdelim
    exact hdelim.1.1
  | word hw =>
    cases t with
    | nil => exact absurd hw (by decide)
    | cons c t' =>
      have hdelim := (word_plain hw c mem_cons_self).2
      simp only [isDelimiter, Bool.or_eq_false_iff] at hdelim
      exact ⟨c, t', rfl, hdelim.1.1⟩
  | array ht | object ht => exact ⟨_, _, rfl, rfl⟩

variable {gap : Bytes}

/-- **One member**: its value is the result, or what stands behind it is looked at next. -/
theorem step_member (field : Bytes) {k b c v : Bytes} (hfloat : ReadsNumbers parseFloat round)
    (hgap : Gap gap) (hk : Chars k) (hb : Space b) (hc : Space c) (hv : IsItem v item)
    (hrest : Delimited rest)
    (h : At json pos (gap ++ (quoted k ++ (b ++ colon :: (c ++ (v ++ rest)))))) :
    ∃ pos', At json pos' rest ∧ jsonTopLevelField.step parseFloat json field pos =
      if k = field then some (.inr (itemValue round item)) else some (.inl pos') := by
  have hkey := h.skip
  have hopen : At json (pos + gap.length) (0x22 :: (k ++ (quote :: (b ++ colon :: (c ++ (v ++ rest)))))) := by
    simpa [quoted] using hkey
  have hcolon := hopen.next.skip.next
  have hvalue := hcolon.skip.next
  have hitem := hvalue.skip
  refine ⟨_, hitem.skip, ?_⟩
  obtain ⟨first, v', hfirst, hspace⟩ := item_start hv
  have hstart := hitem
  rw [hfirst, cons_append] at hstart
  rw [jsonTopLevelField.step, if_pos (At.inside h (by simp [quoted])),
    skipGap_at hgap rfl (by simpa [quoted] using h), some_bind,
    if_neg (Nat.not_le.mpr hopen.lt), get_at hopen, some_bind, if_neg (by decide),
    if_neg (by simp), skipQuoted_at hk hkey, some_bind]
  simp only
  rw [slice_at hopen.next, some_bind, skipWs_at hb rfl hcolon, some_bind,
    if_neg (Nat.not_le.mpr hcolon.skip.lt), get_at hcolon.skip, some_bind,
    if_neg (by simp), skipWs_at hc hspace (by simpa [hfirst] using hvalue), some_bind,
    if_neg (Nat.not_le.mpr hstart.lt), parseJsonScalar_at hfloat hv hrest hitem,
    skipJsonValue_at hv hrest hitem]
  rfl

/-- The end of the object. -/
theorem step_close (hgap : Gap gap) (h : At json pos (gap ++ closeBrace :: rest)) :
    jsonTopLevelField.step parseFloat json field pos = some (.inr none) := by
  rw [jsonTopLevelField.step, if_pos (At.inside h (by simp)), skipGap_at hgap rfl h, some_bind,
    if_neg (Nat.not_le.mpr h.skip.lt), get_at h.skip, some_bind, if_pos rfl]

theorem lookup_cons (k : Bytes) (item : Item) (members : List (Bytes × Item)) :
    lookup round ((k, item) :: members) field =
      if k = field then itemValue round item else lookup round members field := by
  rw [lookup, find?_cons]
  by_cases hk : k = field
  · rw [if_pos hk, beq_iff_eq.mpr hk]
    rfl
  · rw [if_neg hk, beq_false_of_ne hk]
    rfl

variable {members : List (Bytes × Item)}

/-- **The members** one after the other, up to the field's own or to the end. -/
theorem members_run (field : Bytes) (hfloat : ReadsNumbers parseFloat round)
    (ht : Members t members) : ∀ gap pos, Gap gap → At json pos (gap ++ (t ++ closeBrace :: rest)) →
      ∃ pos', Steps (jsonTopLevelField.step parseFloat json field) pos pos' ∧
        jsonTopLevelField.step parseFloat json field pos' =
          some (.inr (lookup round members field)) := by
  induction ht with
  | @last a k b c v d item ha hk hb hc hv hd =>
    intro gap pos hgap h
    have h : At json pos ((gap ++ a) ++
        (quoted k ++ (b ++ colon :: (c ++ (v ++ (d ++ closeBrace :: rest)))))) := by
      simpa using h
    obtain ⟨pos', hat, hstep⟩ := step_member field hfloat
      (hgap.append (.of_space ha)) hk hb hc hv (.of_space hd rfl) h
    rw [lookup_cons]
    by_cases hkey : k = field
    · rw [if_pos hkey] at hstep ⊢
      exact ⟨pos, .refl pos, hstep⟩
    · rw [if_neg hkey] at hstep ⊢
      exact ⟨pos', .one hstep, step_close (.of_space hd) hat⟩
  | @cons a k b c v d t item members ha hk hb hc hv hd _ ih =>
    intro gap pos hgap h
    have h : At json pos ((gap ++ a) ++
        (quoted k ++ (b ++ colon :: (c ++ (v ++ (d ++ comma :: (t ++ closeBrace :: rest))))))) := by
      simpa using h
    obtain ⟨pos', hat, hstep⟩ := step_member field hfloat
      (hgap.append (.of_space ha)) hk hb hc hv (.of_space hd rfl) h
    rw [lookup_cons]
    by_cases hkey : k = field
    · rw [if_pos hkey] at hstep ⊢
      exact ⟨pos, .refl pos, hstep⟩
    · rw [if_neg hkey] at hstep ⊢
      have hcomma : Gap [comma] := by
        intro c hc
        rw [mem_singleton.mp hc]
        rfl
      obtain ⟨pos'', hsteps, hdone⟩ := ih (d ++ [comma]) pos' ((Gap.of_space hd).append hcomma)
        (by simpa using hat)
      exact ⟨pos'', .head hstep hsteps, hdone⟩

/-- **The lookup in an object.** -/
theorem lookup_run (field : Bytes)
    (hfloat : ReadsNumbers parseFloat round) (h : Object json members) :
    jsonTopLevelField parseFloat json field = some (lookup round members field) := by
  have hstart := At.start json
  cases h with
  | @empty a s b ha hs hb =>
    have hopen := hstart.skip
    obtain ⟨r, hrun⟩ := members_total parseFloat field (Nat.succ_le_of_lt hopen.lt)
    rw [jsonTopLevelField, skipWs_at ha rfl hstart, some_bind, if_neg (Nat.not_le.mpr hopen.lt),
      get_at hopen, some_bind, if_neg (by simp)]
    exact iterate_of_steps (.refl _) (step_close (.of_space hs) hopen.next) ⟨r, hrun⟩
  | @members a t b members ha ht hb =>
    have hopen := hstart.skip
    obtain ⟨r, hrun⟩ := members_total parseFloat field (Nat.succ_le_of_lt hopen.lt)
    rw [jsonTopLevelField, skipWs_at ha rfl hstart, some_bind, if_neg (Nat.not_le.mpr hopen.lt),
      get_at hopen, some_bind, if_neg (by simp)]
    obtain ⟨pos', hsteps, hdone⟩ := members_run field hfloat ht [] _
      (fun _ hc => absurd hc not_mem_nil) hopen.next
    exact iterate_of_steps hsteps hdone ⟨r, hrun⟩

/-- **The lookup is exact**: it ends on any bytes without an access outside, and in an object it
finds the first member of the name if that is a string or a number. -/
theorem jsonTopLevelField_exact (parseFloat : Bytes → Option F) (round : Rat → F)
    (hfloat : ReadsNumbers parseFloat round) :
    (∀ json field, ∃ r, jsonTopLevelField parseFloat json field = some r) ∧
      ∀ json members field, Object json members →
        jsonTopLevelField parseFloat json field = some (lookup round members field) :=
  ⟨jsonTopLevelField_total parseFloat, fun _ _ field => lookup_run field hfloat⟩

end

/-- An object with a null and a zero in it. -/
theorem jsonTopLevelField_zero :
    jsonTopLevelField (fun t => if t ∈ words ∨ t.head? = some openBrace ∨
        t.head? = some openBracket then none else some (0 : Int))
      (ascii "\x7b\"a\":null,\"n\":0\x7d") (ascii "n") = some (some (.number 0)) := by
  have hletter : ∀ c, 0x61 ≤ c → Chars [c] := fun c hc => by
    refine .plain (UInt8.le_trans (by decide) hc) ?_ ?_ .nil
    · rintro rfl
      exact absurd hc (by decide)
    · rintro rfl
      exact absurd hc (by decide)
  have hlast : Members (ascii "\"n\":0") [(ascii "n", .number (.ofDigit 0x30 rfl))] :=
    .last Space.nil (hletter 0x6E (by decide)) Space.nil Space.nil (.number (.ofDigit 0x30 rfl)) Space.nil
  have hmembers : Members (ascii "\"a\":null,\"n\":0")
      [(ascii "a", .other), (ascii "n", .number (.ofDigit 0x30 rfl))] :=
    .cons Space.nil (hletter 0x61 (by decide)) Space.nil Space.nil
      (.word (show ascii "null" ∈ words by decide)) Space.nil hlast
  refine (jsonTopLevelField_exact _ (fun _ => 0) ⟨fun n => if_neg ?_, fun w hw => if_pos (.inl hw),
    fun c t hc => if_pos (.inr ?_)⟩).2 _ _ _ (.members Space.nil hmembers Space.nil)
  · obtain ⟨c, t, htext, hc⟩ := n.text_start
    rw [htext]
    rintro (hword | hopen | hopen)
    · have hhead : some c ∈ words.map List.head? := mem_map.mpr ⟨c :: t, hword, rfl⟩
      simp only [words, map_cons, map_nil, mem_cons, not_mem_nil] at hhead
      rcases hhead with hhead | hhead | hhead | hhead
      · cases hhead
        exact absurd hc (by decide)
      · cases hhead
        exact absurd hc (by decide)
      · cases hhead
        exact absurd hc (by decide)
      · exact hhead
    · cases hopen
      exact absurd hc (by decide)
    · cases hopen
      exact absurd hc (by decide)
  · exact hc.imp (congrArg some) (congrArg some)

/-- A line feed in a string is found as a backslash and a letter. -/
theorem escape_kept : ¬∀ json members field raw s, Object json members →
    (members.find? fun m => m.1 == field) = some (field, .string raw) → Spells raw s →
    jsonTopLevelField (fun _ => (none : Option Int)) json field = some (some (.string s)) := by
  intro h
  have hspells : Spells [0x5C, 0x6E] [0x0A] := .escape (by decide) .nil
  have hobject : Object (ascii "\x7b\"a\":\"\\n\"\x7d") [(ascii "a", .string [0x5C, 0x6E])] :=
    .members Space.nil (.last Space.nil (.plain (by decide) (by decide) (by decide) .nil) Space.nil
      Space.nil (.string hspells.chars) Space.nil) Space.nil
  exact absurd (h _ _ (ascii "a") _ _ hobject rfl hspells) (by decide)

end Predicate
end WormDB
