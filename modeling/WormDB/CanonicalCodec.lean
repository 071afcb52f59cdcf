import WormDB.ByteReader

/-! # Canonical formats

A reader reads exactly an encoding when it accepts the encodings of the values it is for, in
front of any rest, and nothing else (`Reads`).  A chain of such readers is taken apart by one
rule (`Reads.bind`), so that a decoder's whole meaning is one equivalence.

A format is canonical when its decoder accepts exactly what its encoder makes (`Canonical`): a
value then has one accepted encoding. -/
namespace ByteReader
open List ByteCodec

variable {ε α β : Type} {err : ε}

/-- What `read` accepts is the encoding of a value in `P`, with anything behind it. -/
def Reads (read : Bytes → Except ε (α × Bytes)) (encode : α → Bytes) (P : α → Prop) : Prop :=
  ∀ bytes x rest, read bytes = .ok (x, rest) ↔ P x ∧ bytes = encode x ++ rest

variable {encode : α → Bytes} {P : α → Prop} {bytes : Bytes}

/-- One step of a chain of readers. -/
theorem Reads.bind {read : Bytes → Except ε (α × Bytes)}
    (h : Reads read encode P) {f : α × Bytes → Except ε β} {b : β} : (read bytes >>= f) = .ok b ↔
      ∃ x rest, (P x ∧ bytes = encode x ++ rest) ∧ f (x, rest) = .ok b := by
  rw [bind_ok_iff]
  constructor
  · rintro ⟨⟨x, rest⟩, hread, hf⟩
    exact ⟨x, rest, (h bytes x rest).mp hread, hf⟩
  · rintro ⟨x, rest, hx, hf⟩
    exact ⟨(x, rest), (h bytes x rest).mpr hx, hf⟩

theorem reads_bytes (n : Nat) :
    Reads (readBytes err n) (fun xs => xs) (fun xs => xs.length = n) := by
  intro bytes xs rest
  constructor
  · intro h
    obtain ⟨hbytes, hlen⟩ := readBytes_ok h
    exact ⟨hlen, hbytes⟩
  · rintro ⟨hlen, rfl⟩
    exact readBytes_append rest hlen

theorem reads_uint (w : Nat) : Reads (readUInt err w) (beBytes w) (fun n => n < 256 ^ w) := by
  intro bytes n rest
  constructor
  · intro h
    obtain ⟨⟨b, r⟩, hread, hrest⟩ := bind_ok h
    obtain ⟨rfl, hlen⟩ := readBytes_ok hread
    cases hrest
    have hb := beBytes_beNat b
    have hlt := beNat_lt b
    rw [hlen] at hb hlt
    exact ⟨hlt, by rw [hb]⟩
  · rintro ⟨hlt, rfl⟩
    exact readUInt_append rest hlt

theorem reads_items {readItem : Bytes → Except ε (α × Bytes)}
    (h : Reads readItem encode P) (count : Nat) :
    Reads (readItems readItem count) (fun xs => xs.flatMap encode)
      (fun xs => xs.length = count ∧ ∀ x ∈ xs, P x) := by
  intro bytes xs rest
  induction count generalizing bytes xs with
  | zero =>
    rw [readItems]
    constructor
    · intro hread
      cases hread
      exact ⟨⟨rfl, fun _ hx => absurd hx not_mem_nil⟩, rfl⟩
    · rintro ⟨⟨hlen, -⟩, rfl⟩
      obtain rfl := length_eq_zero_iff.mp hlen
      rfl
  | succ count ih =>
    rw [readItems, h.bind]
    constructor
    · rintro ⟨x, r, ⟨hx, rfl⟩, hrest⟩
      obtain ⟨⟨xs', r'⟩, hread, hrest⟩ := bind_ok hrest
      cases hrest
      obtain ⟨⟨hlen, hall⟩, rfl⟩ := (ih r xs').mp hread
      refine ⟨⟨congrArg Nat.succ hlen, forall_mem_cons.mpr ⟨hx, hall⟩⟩, ?_⟩
      dsimp only
      rw [flatMap_cons, append_assoc]
    · rintro ⟨⟨hlen, hall⟩, rfl⟩
      rcases xs with _ | ⟨x, xs⟩
      · cases hlen
      obtain ⟨hx, hall⟩ := forall_mem_cons.mp hall
      refine ⟨x, xs.flatMap encode ++ rest, ⟨hx, ?_⟩, ?_⟩
      · dsimp only
        rw [flatMap_cons, append_assoc]
      dsimp only
      rw [(ih _ xs).mpr ⟨⟨Nat.succ.inj hlen, hall⟩, rfl⟩]
      rfl

/-- Bytes behind their length. -/
def readLenPrefixed (err : ε) (w : Nat) (bytes : Bytes) : Except ε (Bytes × Bytes) := do
  let (len, rest) ← readUInt err w bytes
  readBytes err len rest

theorem reads_lenPrefixed (w : Nat) :
    Reads (readLenPrefixed err w) (fun xs => beBytes w xs.length ++ xs) (fun xs => xs.length < 256 ^ w) := by
  intro bytes xs rest
  rw [readLenPrefixed, (reads_uint w).bind]
  constructor
  · rintro ⟨len, r, ⟨hlt, rfl⟩, hread⟩
    obtain ⟨hlen, rfl⟩ := (reads_bytes len r xs rest).mp hread
    subst hlen
    exact ⟨hlt, (append_assoc ..).symm⟩
  · rintro ⟨hlt, rfl⟩
    exact ⟨xs.length, xs ++ rest, ⟨hlt, append_assoc ..⟩,
      (reads_bytes _ _ xs rest).mpr ⟨rfl, rfl⟩⟩

/-- A check in a chain, with the rest of the chain behind it. -/
theorem guard_ok_iff {c : Prop} [Decidable c] {e : ε} {f : PUnit → Except ε α} {a : α} :
    (if c then throw e >>= f else f ⟨⟩) = .ok a ↔ ¬ c ∧ f ⟨⟩ = .ok a := by
  by_cases hc : c
  · rw [if_pos hc]
    constructor
    · intro h
      cases h
    · rintro ⟨hnc, -⟩
      exact absurd hc hnc
  · rw [if_neg hc]
    exact ⟨fun h => ⟨hc, h⟩, And.right⟩

/-- A name and the zero behind it. -/
def readTerminated (err : ε) (name bytes : Bytes) : Except ε Bytes := do
  let (got, rest) ← readBytes err name.length bytes
  if got ≠ name then throw err
  let (terminator, rest) ← readUInt err 1 rest
  if terminator ≠ 0 then throw err
  return rest

theorem readTerminated_ok_iff {name rest : Bytes} :
    readTerminated err name bytes = .ok rest ↔ bytes = name ++ [0] ++ rest := by
  constructor
  · intro h
    replace h := (reads_bytes _).bind.mp h
    obtain ⟨got, r, ⟨-, rfl⟩, h⟩ := h
    replace h := guard_ok_iff.mp h
    obtain ⟨hname, h⟩ := h
    replace h := (reads_uint 1).bind.mp h
    obtain ⟨terminator, r', ⟨-, rfl⟩, h⟩ := h
    replace h := guard_ok_iff.mp h
    obtain ⟨hzero, h⟩ := h
    cases h
    obtain rfl := not_not.mp hname
    obtain rfl := not_not.mp hzero
    exact (append_assoc ..).symm
  · rintro rfl
    refine (reads_bytes _).bind.mpr ⟨name, [0] ++ rest, ⟨rfl, append_assoc ..⟩, ?_⟩
    refine guard_ok_iff.mpr ⟨not_not.mpr rfl, ?_⟩
    refine (reads_uint 1).bind.mpr ⟨0, rest, ⟨by decide, rfl⟩, ?_⟩
    exact guard_ok_iff.mpr ⟨not_not.mpr rfl, rfl⟩

/-! ## Whole formats -/

/-- The decoder accepts exactly the bytes the encoder makes, each for the value it was made
from. -/
def Canonical {ε' : Type} (encode : α → Except ε Bytes) (decode : Bytes → Except ε' α) : Prop :=
  ∀ x b, decode b = .ok x ↔ encode x = .ok b

end ByteReader
