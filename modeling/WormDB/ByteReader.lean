import WormDB.ByteCodec

/-! # Reading fields off the front of a byte string

A decoder of a binary format is a chain of readers, each of which
takes its field off the front and hands the rest on, or fails with the format's
own error.  Beside each reader stands what makes a decoder undo an encoder: it
reads back what the encoder puts in front of any rest.

A decoder may instead keep the whole string and a position in it.  `At` says what is
left to read there; a reader at a position is a function from positions to positions. -/
namespace ByteReader
open List ByteCodec

variable {ε α : Type} (err : ε)

def readBytes (len : Nat) (bytes : Bytes) : Except ε (Bytes × Bytes) :=
  match splitBytes len bytes with
  | none => .error err
  | some r => .ok r

def readUInt (width : Nat) (bytes : Bytes) : Except ε (Nat × Bytes) := do
  let (b, rest) ← readBytes err width bytes
  return (beNat b, rest)

/-- The same for the formats that have the least significant byte first. -/
def readLe (width : Nat) (bytes : Bytes) : Except ε (Nat × Bytes) := do
  let (b, rest) ← readBytes err width bytes
  return (leNat b, rest)

/-- `count` items one after the other. -/
def readItems (readItem : Bytes → Except ε (α × Bytes)) : Nat → Bytes → Except ε (List α × Bytes)
  | 0, bytes => .ok ([], bytes)
  | count + 1, bytes => do
      let (item, rest) ← readItem bytes
      let (items, rest) ← readItems readItem count rest
      return (item :: items, rest)

variable {β : Type}

theorem ok_bind (a : α) (f : α → Except ε β) : (Except.ok a >>= f) = f a := rfl

variable {err}

variable {n : Nat}

theorem readBytes_append {xs : Bytes} (rest : Bytes) (h : xs.length = n) :
    readBytes err n (xs ++ rest) = .ok (xs, rest) := by
  rw [readBytes, splitBytes_append rest h]

variable {w : Nat}

theorem readUInt_append (rest : Bytes) (h : n < 256 ^ w) :
    readUInt err w (beBytes w n ++ rest) = .ok (n, rest) := by
  rw [readUInt, readBytes_append rest (beBytes_length w n), ok_bind]
  simp only [beNat_beBytes_of_lt h]
  rfl

theorem readLe_append (rest : Bytes) (h : n < 256 ^ w) :
    readLe err w (leBytes w n ++ rest) = .ok (n, rest) := by
  rw [readLe, readBytes_append rest (leBytes_length w n), ok_bind]
  simp only [leNat_leBytes_of_lt h]
  rfl

theorem readByte_cons (b : UInt8) (rest : Bytes) :
    readUInt err 1 (b :: rest) = .ok (b.toNat, rest) := by
  rw [readUInt, ← singleton_append, readBytes_append rest (show [b].length = 1 from rfl),
    ok_bind]
  simp [beNat, leNat, pure, Except.pure]

/-- Reading back a list of items, each of which reads back. -/
theorem readItems_append_of_mem {readItem : Bytes → Except ε (α × Bytes)} {encode : α → Bytes}
    {xs : List α} (hread : ∀ x ∈ xs, ∀ rest, readItem (encode x ++ rest) = .ok (x, rest))
    (rest : Bytes) : readItems readItem xs.length (xs.flatMap encode ++ rest) = .ok (xs, rest) := by
  induction xs with
  | nil => rfl
  | cons x xs ih =>
    rw [length_cons, readItems, flatMap_cons, append_assoc,
      hread x mem_cons_self, ok_bind]
    simp only [ih (fun y hy => hread y (mem_cons_of_mem x hy)), ok_bind]
    rfl

variable {encode : α → Bytes}

theorem readItems_append {readItem : Bytes → Except ε (α × Bytes)}
    (hread : ∀ x rest, readItem (encode x ++ rest) = .ok (x, rest)) (xs : List α) (rest : Bytes) :
    readItems readItem xs.length (xs.flatMap encode ++ rest) = .ok (xs, rest) :=
  readItems_append_of_mem (fun x _ => hread x) rest

/-! ## What a successful read says of the bytes -/

variable {x : Except ε α} {f : α → Except ε β} {b : β}

theorem bind_ok (h : (x >>= f) = .ok b) : ∃ a, x = .ok a ∧ f a = .ok b := by
  cases x with
  | error e => cases h
  | ok a => exact ⟨a, rfl, h⟩

/-- A check that has passed. -/
theorem check_ok {x : Except ε Unit} {f : Unit → Except ε β}
    (h : (x >>= f) = .ok b) : f () = .ok b := by
  obtain ⟨_, -, hf⟩ := bind_ok h
  exact hf

theorem bind_ok_iff : (x >>= f) = .ok b ↔ ∃ a, x = .ok a ∧ f a = .ok b := by
  refine ⟨bind_ok, ?_⟩
  rintro ⟨a, rfl, h⟩
  exact h

theorem readBytes_ok {bytes xs rest : Bytes}
    (h : readBytes err n bytes = .ok (xs, rest)) : bytes = xs ++ rest ∧ xs.length = n := by
  rw [readBytes] at h
  split at h
  · cases h
  · rename_i hsplit
    cases h
    exact splitBytes_eq_some.mp hsplit

theorem readBytes_suffix {bytes xs rest : Bytes}
    (h : readBytes err n bytes = .ok (xs, rest)) : rest <:+ bytes := by
  obtain ⟨rfl, -⟩ := readBytes_ok h
  exact suffix_append xs rest

theorem readUInt_suffix {bytes rest : Bytes}
    (h : readUInt err w bytes = .ok (n, rest)) : rest <:+ bytes := by
  obtain ⟨⟨b, r⟩, hread, h⟩ := bind_ok h
  cases h
  exact readBytes_suffix hread

/-! ## How a reader fails -/

/-- Every error of the computation has the property. -/
def ErrorsIn (p : ε → Prop) (x : Except ε α) : Prop := ∀ e, x = .error e → p e

namespace ErrorsIn

variable {β : Type} {p : ε → Prop}

theorem ok (a : α) : ErrorsIn p (.ok a : Except ε α) := by
  intro e h
  cases h

theorem error {e : ε} (h : p e) : ErrorsIn p (.error e : Except ε α) := by
  rintro e' ⟨⟩
  exact h

theorem bind (hx : ErrorsIn p x) (hf : ∀ a, ErrorsIn p (f a)) : ErrorsIn p (x >>= f) := by
  cases x with
  | error e => exact error (hx e rfl)
  | ok a => exact hf a

variable {e : ε}

theorem readBytes (h : p e) (n : Nat) (bytes : Bytes) :
    ErrorsIn p (ByteReader.readBytes e n bytes) := by
  rw [ByteReader.readBytes]
  split
  · exact error h
  · exact ok _

theorem readUInt (h : p e) (w : Nat) (bytes : Bytes) :
    ErrorsIn p (ByteReader.readUInt e w bytes) := by
  rw [ByteReader.readUInt]
  exact (readBytes h w bytes).bind (fun _ => ok _)

end ErrorsIn

/-! ## Reading at a position -/

/-- What stands in `bytes` from `pos` on is `rest`. -/
def At (bytes : Bytes) (pos : Nat) (rest : Bytes) : Prop :=
  ∃ pre, bytes = pre ++ rest ∧ pre.length = pos

/-- `count` items one after the other, from a position on. -/
def readItemsAt (readItem : Nat → Except ε (α × Nat)) : Nat → Nat → Except ε (List α × Nat)
  | 0, pos => .ok ([], pos)
  | count + 1, pos => do
      let (item, pos) ← readItem pos
      let (items, pos) ← readItemsAt readItem count pos
      return (item :: items, pos)

variable {readItem : Nat → Except ε (α × Nat)}

theorem readItemsAt_length {count pos stop : Nat}
    {items : List α} (h : readItemsAt readItem count pos = .ok (items, stop)) :
    items.length = count := by
  induction count generalizing pos items with
  | zero =>
    cases h
    rfl
  | succ count ih =>
    obtain ⟨⟨item, pos'⟩, -, h⟩ := bind_ok h
    obtain ⟨⟨rest, stop'⟩, hrest, h⟩ := bind_ok h
    cases h
    rw [length_cons, ih hrest]

variable {bytes xs rest : Bytes} {pos : Nat}

theorem At.start (bytes : Bytes) : At bytes 0 bytes := ⟨[], rfl, rfl⟩

theorem At.skip (h : At bytes pos (xs ++ rest)) : At bytes (pos + xs.length) rest := by
  obtain ⟨pre, rfl, rfl⟩ := h
  exact ⟨pre ++ xs, (append_assoc pre xs rest).symm, length_append⟩

theorem At.slice_eq (h : At bytes pos (xs ++ rest)) : slice bytes pos xs.length = xs := by
  obtain ⟨pre, hbytes, hpre⟩ := h
  exact ByteCodec.slice_eq pre xs rest hbytes hpre rfl

theorem At.length_eq (h : At bytes pos rest) : bytes.length = pos + rest.length := by
  obtain ⟨pre, rfl, rfl⟩ := h
  exact length_append

variable {c : UInt8}

theorem At.next (h : At bytes pos (c :: rest)) : At bytes (pos + 1) rest :=
  @At.skip bytes [c] rest pos h

theorem At.lt (h : At bytes pos (c :: rest)) : pos < bytes.length := by
  rw [h.length_eq, length_cons]
  omega

theorem At.getElem? (h : At bytes pos (c :: rest)) : bytes[pos]? = some c := by
  obtain ⟨pre, rfl, rfl⟩ := h
  simp

/-- Nothing is left exactly at the end. -/
theorem At.end_eq (h : At bytes pos []) : pos = bytes.length := h.length_eq.symm

/-- Reading back a list of items, each of which reads back wherever it stands. -/
theorem readItemsAt_append {xs : List α}
    (hread : ∀ x ∈ xs, ∀ pos rest, At bytes pos (encode x ++ rest) →
      readItem pos = .ok (x, pos + (encode x).length))
    (h : At bytes pos (xs.flatMap encode ++ rest)) :
    readItemsAt readItem xs.length pos = .ok (xs, pos + (xs.flatMap encode).length) := by
  induction xs generalizing pos with
  | nil => rfl
  | cons x xs ih =>
    rw [flatMap_cons, append_assoc] at h
    rw [length_cons, readItemsAt, hread x mem_cons_self pos _ h, ok_bind]
    simp only [ih (fun y hy => hread y (mem_cons_of_mem x hy)) h.skip, ok_bind]
    rw [flatMap_cons, length_append, add_assoc]
    rfl

end ByteReader
