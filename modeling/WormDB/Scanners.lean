import WormDB.BoundedLoop
import WormDB.Checked

/-! # Scanners for quotes and runs

The loops that the filters of `core/predicate.zig` and their lookup share, over a byte string
with checked accesses: `none` is an access outside of it, or a loop that does not end.  A
quoted text ends at the first quote of its kind that no backslash stands in front of. -/
namespace WormDB
namespace Predicate
open ByteCodec ByteReader BoundedLoop

def isWs (c : UInt8) : Bool := c == 0x20 || c == 0x09 || c == 0x0A || c == 0x0D

/-! ## The scanners -/

def skipQuoted.step (src : Bytes) (quote : UInt8) (i : Nat) : Option (Nat ⊕ Option Nat) :=
  if i < src.length then do
    let c ← Checked.get src i
    -- the byte behind a backslash is not looked at
    if c = 0x5C then some (.inl (i + 1 + 1))
    else if c = quote then some (.inr (some i))
    else some (.inl (i + 1))
  else some (.inr none)

/-- The position of the closing quote. -/
def skipQuoted (src : Bytes) (start : Nat) : Option (Option Nat) := do
  let quote ← Checked.get src start
  iterate (skipQuoted.step src quote) (src.length + 1) (start + 1)

def skipWhile.step (p : UInt8 → Bool) (json : Bytes) (i : Nat) : Option (Nat ⊕ Nat) :=
  if i < json.length then do
    let c ← Checked.get json i
    if p c = true then some (.inl (i + 1)) else some (.inr i)
  else some (.inr i)

/-- `while (pos < json.len and p(json[pos])) : (pos += 1) {}` -/
def skipWhile (p : UInt8 → Bool) (json : Bytes) (pos : Nat) : Option Nat :=
  iterate (skipWhile.step p json) (json.length + 1) pos

/-- What stands between two quotes `q`. -/
inductive QuotedBody (q : UInt8) : Bytes → Prop where
  | nil : QuotedBody q []
  | plain {c : UInt8} {s : Bytes} (hquote : c ≠ q) (hescape : c ≠ 0x5C) (h : QuotedBody q s) :
      QuotedBody q (c :: s)
  | escape (c : UInt8) {s : Bytes} (h : QuotedBody q s) : QuotedBody q (0x5C :: c :: s)

/-! ## Every access is inside -/

section
variable {json : Bytes} {pos : Nat}

theorem some_bind {α β : Type} (a : α) (f : α → Option β) : (some a >>= f) = f a := rfl

theorem get_eq (h : pos < json.length) : Checked.get json pos = some json[pos] :=
  List.getElem?_eq_getElem h

/-- The closing quote is behind the opening one. -/
theorem skipQuoted_total (h : pos < json.length) :
    ∃ r, skipQuoted json pos = some r ∧ ∀ stop, r = some stop → pos < stop ∧ stop < json.length := by
  rw [skipQuoted, get_eq h]
  refine iterate_post (fun i => pos < i) (fun i => json.length - i) _ (fun i hi => ?_)
    (Nat.lt_succ_self pos) (by omega)
  rw [skipQuoted.step]
  by_cases hlt : i < json.length
  · rw [if_pos hlt, get_eq hlt]
    rw [some_bind]
    split
    · exact .inl ⟨_, rfl, by omega, by omega⟩
    · split
      · refine .inr ⟨_, rfl, ?_⟩
        rintro stop ⟨⟩
        exact ⟨hi, hlt⟩
      · exact .inl ⟨_, rfl, by omega, by omega⟩
  · rw [if_neg hlt]
    refine .inr ⟨_, rfl, ?_⟩
    rintro stop ⟨⟩

theorem skipWhile_total (p : UInt8 → Bool) (h : pos ≤ json.length) :
    ∃ stop, skipWhile p json pos = some stop ∧ pos ≤ stop ∧ stop ≤ json.length := by
  refine iterate_post (fun i => pos ≤ i ∧ i ≤ json.length) (fun i => json.length - i) _
    (fun i hi => ?_) ⟨Nat.le_refl _, h⟩ (by omega)
  rw [skipWhile.step]
  by_cases hlt : i < json.length
  · rw [if_pos hlt, get_eq hlt]
    rw [some_bind]
    split
    · exact .inl ⟨_, rfl, ⟨by omega, by omega⟩, by omega⟩
    · exact .inr ⟨_, rfl, hi⟩
  · rw [if_neg hlt]
    exact .inr ⟨_, rfl, hi⟩

end

/-! ## What is found -/

section
variable {json xs rest : Bytes} {pos : Nat} {c quote : UInt8}

theorem skipQuoted.step_other (h : At json pos (c :: rest)) (hescape : c ≠ 0x5C)
    (hquote : c ≠ quote) : skipQuoted.step json quote pos = some (.inl (pos + 1)) := by
  rw [skipQuoted.step, if_pos h.lt, Checked.get_at h, some_bind, if_neg hescape, if_neg hquote]

theorem skipQuoted.step_escape (h : At json pos (0x5C :: rest)) :
    skipQuoted.step json quote pos = some (.inl (pos + 2)) := by
  rw [skipQuoted.step, if_pos h.lt, Checked.get_at h, some_bind, if_pos rfl]

variable {s : Bytes}

/-- The text between two quotes is passed over. -/
theorem body_steps (hs : QuotedBody quote s) (h : At json pos (s ++ rest)) :
    Steps (skipQuoted.step json quote) pos (pos + s.length) := by
  induction hs generalizing pos with
  | nil => exact .refl pos
  | @plain c s hquote hescape _ ih =>
    rw [List.length_cons, add_comm s.length, ← add_assoc]
    exact .head (skipQuoted.step_other h hescape hquote) (ih h.next)
  | @escape c s _ ih =>
    rw [(by simp; omega : pos + (0x5C :: c :: s).length = pos + 1 + 1 + s.length)]
    exact .head (skipQuoted.step_escape h) (ih h.next.next)

/-- The closing quote is found behind the text. -/
theorem skipQuoted_body (hquote : quote ≠ 0x5C) (hs : QuotedBody quote s)
    (h : At json pos (quote :: (s ++ quote :: rest))) :
    skipQuoted json pos = some (some (pos + 1 + s.length)) := by
  obtain ⟨r, hrun, -⟩ := skipQuoted_total h.lt
  rw [skipQuoted, Checked.get_at h, some_bind] at hrun ⊢
  have hclose := h.next.skip
  refine iterate_of_steps (body_steps hs h.next) ?_ ⟨r, hrun⟩
  rw [skipQuoted.step, if_pos hclose.lt, Checked.get_at hclose, some_bind, if_neg hquote, if_pos rfl]

/-- A run of bytes that `p` holds of, with another one behind it or none. -/
theorem skipWhile_at {p : UInt8 → Bool} (hxs : ∀ c ∈ xs, p c = true)
    (hrest : ∀ c ∈ rest.head?, p c = false) (h : At json pos (xs ++ rest)) :
    skipWhile p json pos = some (pos + xs.length) := by
  have hsteps : ∀ pos, At json pos (xs ++ rest) →
      Steps (skipWhile.step p json) pos (pos + xs.length) := by
    clear h
    induction xs with
    | nil => exact fun pos _ => .refl pos
    | cons c xs ih =>
      intro pos h
      rw [List.length_cons, add_comm xs.length, ← add_assoc]
      refine .head ?_ (ih (fun c hc => hxs c (List.mem_cons_of_mem _ hc)) _ h.next)
      rw [skipWhile.step, if_pos h.lt, Checked.get_at h, some_bind,
        if_pos (hxs c List.mem_cons_self)]
  have hlen := h.length_eq
  obtain ⟨stop, hrun, -⟩ := skipWhile_total p (by omega : pos ≤ json.length)
  refine iterate_of_steps (hsteps pos h) ?_ ⟨stop, hrun⟩
  have hend := h.skip
  rw [skipWhile.step]
  cases rest with
  | nil => rw [if_neg (Nat.not_lt.mpr (Nat.le_of_eq hend.end_eq.symm))]
  | cons c rest =>
    rw [if_pos hend.lt, Checked.get_at hend, some_bind, hrest c rfl]
    rfl

end

end Predicate
end WormDB
