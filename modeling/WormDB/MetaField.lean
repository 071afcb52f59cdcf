import WormDB.JsonText
import WormDB.Scanners

/-! # The lookup of a field in the metadata

`jsonTopLevelField` of `core/predicate.zig` over a byte string with checked accesses: `none`
is an access outside of it, or a loop that does not end.  A number is what `parseFloat`
makes of it.  There is neither on any bytes (`jsonTopLevelField_total`). -/
namespace WormDB
namespace Predicate
open ByteCodec BoundedLoop

variable {F : Type}

/-- `FieldValue` -/
inductive FieldValue (F : Type) where
  | missing
  | string (bytes : Bytes)
  | number (n : F)
  deriving DecidableEq

/-- A scalar ends here. -/
def isDelimiter (c : UInt8) : Bool := isWs c || c == 0x2C || c == 0x7D

/-! ## Values -/

def parseJsonScalar (parseFloat : Bytes → Option F) (json : Bytes) (pos : Nat) :
    Option (Option (FieldValue F)) := do
  let c ← Checked.get json pos
  if c = 0x22 then do
    match ← skipQuoted json pos with
    | none => some none
    | some endQuote => do
        let bytes ← Checked.slice json (pos + 1) endQuote
        some (some (.string bytes))
  else do
    let stop ← skipWhile (fun c => !isDelimiter c) json pos
    if stop = pos then some none
    else do
      let text ← Checked.slice json pos stop
      some ((parseFloat text).map .number)

/-- How many objects and arrays are open at a position. -/
structure Nesting where
  pos : Nat
  objectDepth : Nat
  arrayDepth : Nat

def skipJsonValue.step (json : Bytes) (s : Nesting) : Option (Nesting ⊕ Option Nat) :=
  if s.pos < json.length then do
    let c ← Checked.get json s.pos
    if c = 0x27 ∨ c = 0x22 then do
      match ← skipQuoted json s.pos with
      | none => some (.inr none)
      | some i => some (.inl { s with pos := i + 1 })
    else if c = 0x7B then some (.inl { s with pos := s.pos + 1, objectDepth := s.objectDepth + 1 })
    else if c = 0x5B then some (.inl { s with pos := s.pos + 1, arrayDepth := s.arrayDepth + 1 })
    else if c = 0x7D then
      if s.objectDepth = 0 then some (.inr none)
      else do
        let objectDepth ← Checked.sub s.objectDepth 1
        if objectDepth = 0 ∧ s.arrayDepth = 0 then some (.inr (some (s.pos + 1)))
        else some (.inl { s with pos := s.pos + 1, objectDepth := objectDepth })
    else if c = 0x5D then
      if s.arrayDepth = 0 then some (.inr none)
      else do
        let arrayDepth ← Checked.sub s.arrayDepth 1
        if s.objectDepth = 0 ∧ arrayDepth = 0 then some (.inr (some (s.pos + 1)))
        else some (.inl { s with pos := s.pos + 1, arrayDepth := arrayDepth })
    else some (.inl { s with pos := s.pos + 1 })
  else some (.inr none)

/-- The position behind the value. -/
def skipJsonValue (json : Bytes) (start : Nat) : Option (Option Nat) :=
  if start ≥ json.length then some none
  else do
    let c ← Checked.get json start
    if c = 0x22 then do
      match ← skipQuoted json start with
      | none => some none
      | some endQuote => some (some (endQuote + 1))
    else if c = 0x7B ∨ c = 0x5B then
      iterate (skipJsonValue.step json) (json.length + 1)
        ⟨start + 1, if c = 0x7B then 1 else 0, if c = 0x5B then 1 else 0⟩
    else do
      let stop ← skipWhile (fun c => !isDelimiter c) json start
      some (some stop)

/-- One member: the field's own value ends the search, another one is skipped. -/
def jsonTopLevelField.step (parseFloat : Bytes → Option F) (json field : Bytes) (pos : Nat) :
    Option (Nat ⊕ Option (FieldValue F)) :=
  if pos < json.length then do
    let pos ← skipWhile (fun c => isWs c || c == 0x2C) json pos
    if pos ≥ json.length then some (.inr none)
    else do
      let c ← Checked.get json pos
      if c = 0x7D then some (.inr none)
      else if c ≠ 0x22 then some (.inr none)
      else do
        match ← skipQuoted json pos with
        | none => some (.inr none)
        | some keyEnd => do
            let key ← Checked.slice json (pos + 1) keyEnd
            let pos ← skipWhile isWs json (keyEnd + 1)
            if pos ≥ json.length then some (.inr none)
            else do
              let c ← Checked.get json pos
              if c ≠ 0x3A then some (.inr none)
              else do
                let pos ← skipWhile isWs json (pos + 1)
                if pos ≥ json.length then some (.inr none)
                else if key = field then do
                  let value ← parseJsonScalar parseFloat json pos
                  some (.inr value)
                else do
                  match ← skipJsonValue json pos with
                  | none => some (.inr none)
                  | some pos => some (.inl pos)
  else some (.inr none)

def jsonTopLevelField (parseFloat : Bytes → Option F) (json field : Bytes) :
    Option (Option (FieldValue F)) := do
  let pos ← skipWhile isWs json 0
  if pos ≥ json.length then some none
  else do
    let c ← Checked.get json pos
    if c ≠ 0x7B then some none
    else iterate (jsonTopLevelField.step parseFloat json field) (json.length + 1) (pos + 1)

/-! ## Every access is inside -/

section
variable {json : Bytes} {pos : Nat}

theorem parseJsonScalar_total (parseFloat : Bytes → Option F) (h : pos < json.length) :
    ∃ r, parseJsonScalar parseFloat json pos = some r := by
  rw [parseJsonScalar, get_eq h]
  rw [some_bind]
  split
  · obtain ⟨r, hrun, hstop⟩ := skipQuoted_total h
    rw [hrun]
    cases r with
    | none => exact ⟨_, rfl⟩
    | some stop =>
      obtain ⟨hlt, hlen⟩ := hstop stop rfl
      have hslice := Checked.slice_eq (hlt : pos + 1 ≤ stop) (le_of_lt hlen)
      simp only [some_bind, hslice]
      exact ⟨_, rfl⟩
  · obtain ⟨stop, hrun, hle, hlen⟩ := skipWhile_total (fun c => !isDelimiter c) (le_of_lt h)
    rw [hrun, some_bind]
    split
    · exact ⟨_, rfl⟩
    · rw [Checked.slice_eq hle hlen]
      exact ⟨_, rfl⟩

theorem skipJsonValue.step_total (s : Nesting) (h : pos ≤ s.pos ∧ s.pos ≤ json.length) :
    (∃ s', skipJsonValue.step json s = some (.inl s') ∧
      (pos ≤ s'.pos ∧ s'.pos ≤ json.length) ∧ json.length - s'.pos < json.length - s.pos) ∨
    ∃ r, skipJsonValue.step json s = some (.inr r) ∧
      ∀ stop, r = some stop → pos ≤ stop ∧ stop ≤ json.length := by
  rw [skipJsonValue.step]
  by_cases hlt : s.pos < json.length
  swap
  · rw [if_neg hlt]
    refine .inr ⟨_, rfl, ?_⟩
    rintro stop ⟨⟩
  have hnext : ∀ s' : Nesting, s'.pos = s.pos + 1 →
      (pos ≤ s'.pos ∧ s'.pos ≤ json.length) ∧ json.length - s'.pos < json.length - s.pos := by
    intro s' hpos
    omega
  have hstop : ∀ stop, some (s.pos + 1) = some stop → pos ≤ stop ∧ stop ≤ json.length := by
    rintro stop ⟨⟩
    omega
  have hnone : ∀ stop, none = some stop → pos ≤ stop ∧ stop ≤ json.length := by
    rintro stop ⟨⟩
  rw [if_pos hlt, get_eq hlt]
  rw [some_bind]
  split
  · obtain ⟨r, hrun, hclose⟩ := skipQuoted_total hlt
    rw [hrun, some_bind]
    cases r with
    | none => exact .inr ⟨_, rfl, hnone⟩
    | some i =>
      obtain ⟨hi, hlen⟩ := hclose i rfl
      exact .inl ⟨_, rfl, ⟨le_trans h.1 (by omega : s.pos ≤ i + 1), hlen⟩,
        (by omega : json.length - (i + 1) < json.length - s.pos)⟩
  split
  · exact .inl ⟨_, rfl, hnext _ rfl⟩
  split
  · exact .inl ⟨_, rfl, hnext _ rfl⟩
  split
  · split
    · exact .inr ⟨_, rfl, hnone⟩
    · rw [Checked.sub_eq (by omega), some_bind]
      split
      · exact .inr ⟨_, rfl, hstop⟩
      · exact .inl ⟨_, rfl, hnext _ rfl⟩
  split
  · split
    · exact .inr ⟨_, rfl, hnone⟩
    · rw [Checked.sub_eq (by omega), some_bind]
      split
      · exact .inr ⟨_, rfl, hstop⟩
      · exact .inl ⟨_, rfl, hnext _ rfl⟩
  · exact .inl ⟨_, rfl, hnext _ rfl⟩

theorem nested_total (s : Nesting) (hs : s.pos ≤ json.length) :
    ∃ r, iterate (skipJsonValue.step json) (json.length + 1) s = some r ∧
      ∀ stop, r = some stop → s.pos ≤ stop ∧ stop ≤ json.length :=
  iterate_post (fun s' => s.pos ≤ s'.pos ∧ s'.pos ≤ json.length) (fun s' => json.length - s'.pos) _
    skipJsonValue.step_total ⟨le_refl _, hs⟩ (by omega)

theorem skipJsonValue_total (h : pos < json.length) :
    ∃ r, skipJsonValue json pos = some r ∧
      ∀ stop, r = some stop → pos ≤ stop ∧ stop ≤ json.length := by
  rw [skipJsonValue, if_neg (Nat.not_le.mpr h), get_eq h]
  rw [some_bind]
  split
  · obtain ⟨r, hrun, hclose⟩ := skipQuoted_total h
    rw [hrun, some_bind]
    cases r with
    | none => exact ⟨_, rfl, by rintro stop ⟨⟩⟩
    | some i =>
      obtain ⟨hi, hlen⟩ := hclose i rfl
      refine ⟨_, rfl, ?_⟩
      rintro stop ⟨⟩
      omega
  split
  · obtain ⟨r, hrun, hstop⟩ := nested_total (⟨pos + 1, _, _⟩ : Nesting) h
    refine ⟨r, hrun, fun stop hr => ?_⟩
    obtain ⟨hle, hlen⟩ := hstop stop hr
    exact ⟨Nat.le_of_succ_le hle, hlen⟩
  · obtain ⟨stop, hrun, hle, hlen⟩ := skipWhile_total (fun c => !isDelimiter c) (le_of_lt h)
    rw [hrun, some_bind]
    refine ⟨_, rfl, ?_⟩
    rintro stop' ⟨⟩
    exact ⟨hle, hlen⟩

theorem jsonTopLevelField.step_total (parseFloat : Bytes → Option F) (field : Bytes)
    (h : pos ≤ json.length) :
    (∃ pos', jsonTopLevelField.step parseFloat json field pos = some (.inl pos') ∧
      pos' ≤ json.length ∧ json.length - pos' < json.length - pos) ∨
    ∃ r, jsonTopLevelField.step parseFloat json field pos = some (.inr r) ∧ True := by
  rw [jsonTopLevelField.step]
  split
  swap
  · exact .inr ⟨_, rfl, trivial⟩
  obtain ⟨pos₁, hrun, hle₁, hlen₁⟩ := skipWhile_total (fun c => isWs c || c == 0x2C) h
  rw [hrun, some_bind]
  split
  · exact .inr ⟨_, rfl, trivial⟩
  rw [get_eq (by omega), some_bind]
  split
  · exact .inr ⟨_, rfl, trivial⟩
  split
  · exact .inr ⟨_, rfl, trivial⟩
  obtain ⟨r, hrun, hclose⟩ := skipQuoted_total (by omega : pos₁ < json.length)
  rw [hrun, some_bind]
  cases r with
  | none => exact .inr ⟨_, rfl, trivial⟩
  | some keyEnd =>
    obtain ⟨hkey, hkeyLen⟩ := hclose keyEnd rfl
    obtain ⟨pos₂, hrun, hle₂, hlen₂⟩ := skipWhile_total isWs (hkeyLen : keyEnd + 1 ≤ json.length)
    simp only
    rw [Checked.slice_eq hkey (le_of_lt hkeyLen), some_bind, hrun, some_bind]
    split
    · exact .inr ⟨_, rfl, trivial⟩
    rw [get_eq (by omega), some_bind]
    split
    · exact .inr ⟨_, rfl, trivial⟩
    obtain ⟨pos₃, hrun, hle₃, hlen₃⟩ := skipWhile_total isWs (by omega : pos₂ + 1 ≤ json.length)
    rw [hrun, some_bind]
    split
    · exact .inr ⟨_, rfl, trivial⟩
    split
    · obtain ⟨r, hrun⟩ := parseJsonScalar_total parseFloat (by omega : pos₃ < json.length)
      rw [hrun]
      exact .inr ⟨_, rfl, trivial⟩
    · obtain ⟨r, hrun, hstop⟩ := skipJsonValue_total (by omega : pos₃ < json.length)
      rw [hrun, some_bind]
      cases r with
      | none => exact .inr ⟨_, rfl, trivial⟩
      | some stop =>
        obtain ⟨hle, hlen⟩ := hstop stop rfl
        exact .inl ⟨_, rfl, hlen, by omega⟩

theorem members_total (parseFloat : Bytes → Option F) (field : Bytes) (h : pos ≤ json.length) :
    ∃ r, iterate (jsonTopLevelField.step parseFloat json field) (json.length + 1) pos = some r := by
  obtain ⟨r, hrun, -⟩ := iterate_post (fun pos => pos ≤ json.length)
    (fun pos => json.length - pos) (fun _ => True)
    (fun pos h => jsonTopLevelField.step_total parseFloat field h) h
    (by omega : json.length - pos < json.length + 1)
  exact ⟨r, hrun⟩

/-- **The lookup ends on any bytes**, and every access is inside. -/
theorem jsonTopLevelField_total (parseFloat : Bytes → Option F) (json field : Bytes) :
    ∃ r, jsonTopLevelField parseFloat json field = some r := by
  obtain ⟨pos, hrun, -, hlen⟩ := skipWhile_total isWs (Nat.zero_le json.length)
  rw [jsonTopLevelField, hrun, some_bind]
  split
  · exact ⟨_, rfl⟩
  rw [get_eq (by omega), some_bind]
  split
  · exact ⟨_, rfl⟩
  · exact members_total parseFloat field (by omega)

end

end Predicate
end WormDB
