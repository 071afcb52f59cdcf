import WormDB.ByteCodec

/-! # Streams that are read in pieces

A read from a stream asks for a number of bytes and gets at least one of them, but not
always all: `grants` says how many beyond the first each coming read gives at most.  The
loop that reads until it has everything takes the bytes off the front whatever the pieces
are, or finds that the stream ends before (`readExact_spec`).  What is read with it does not
depend on the pieces (`SameRead`). -/
namespace ChunkedStream
open ByteCodec

structure Stream where
  bytes : Bytes
  grants : Nat → Nat

namespace Stream

/-- One read: nothing only at the end of the stream. -/
def read (s : Stream) (n : Nat) : Bytes × Stream :=
  let got := min n (s.grants 0 + 1)
  (s.bytes.take got, ⟨s.bytes.drop got, fun k => s.grants (k + 1)⟩)

/-- The loop of a read of exactly `n` bytes: `none` where the stream ends first. -/
def readLoop : Nat → Stream → Nat → Option (Bytes × Stream)
  | 0, _, _ => none
  | fuel + 1, s, n =>
      if n = 0 then some ([], s)
      else
        let (piece, s') := s.read n
        if piece.length = 0 then none
        else (readLoop fuel s' (n - piece.length)).map (fun r => (piece ++ r.1, r.2))

/-- Every read gives a byte at least. -/
def readExact (s : Stream) (n : Nat) : Option (Bytes × Stream) := readLoop (n + 1) s n

end Stream

theorem readLoop_spec (fuel : Nat) (s : Stream) (n : Nat) (hfuel : n < fuel) :
    (n ≤ s.bytes.length → ∃ s', s.readLoop fuel n = some (s.bytes.take n, s') ∧
      s'.bytes = s.bytes.drop n) ∧
    (s.bytes.length < n → s.readLoop fuel n = none) := by
  induction fuel generalizing s n with
  | zero => omega
  | succ fuel ih =>
    rw [Stream.readLoop]
    by_cases hn : n = 0
    · rw [if_pos hn, hn]
      exact ⟨fun _ => ⟨s, rfl, rfl⟩, fun hlt => absurd hlt (Nat.not_lt_zero _)⟩
    rw [if_neg hn]
    obtain ⟨got, hgot⟩ : ∃ got, min n (s.grants 0 + 1) = got := ⟨_, rfl⟩
    have hpos : 0 < got := by omega
    have hread : s.read n = (s.bytes.take got, ⟨s.bytes.drop got, fun k => s.grants (k + 1)⟩) := by
      rw [Stream.read, hgot]
    rw [hread]
    simp only
    have hpiece : (s.bytes.take got).length = min got s.bytes.length := List.length_take
    by_cases hend : (s.bytes.take got).length = 0
    · rw [if_pos hend]
      exact ⟨fun hle => by omega, fun _ => rfl⟩
    · rw [if_neg hend]
      obtain ⟨hok, hshort⟩ := ih ⟨s.bytes.drop got, fun k => s.grants (k + 1)⟩
        (n - (s.bytes.take got).length) (by omega)
      simp only [List.length_drop] at hok hshort
      refine ⟨fun hle => ?_, fun hlt => ?_⟩
      · -- the piece is whole, and the rest of the loop takes what is missing
        have hwhole : (s.bytes.take got).length = got := by omega
        obtain ⟨s', hloop, hs'⟩ := hok (by omega)
        rw [hwhole] at hloop hs' ⊢
        refine ⟨s', ?_, ?_⟩
        · rw [hloop, Option.map_some, ← List.take_add]
          congr 3
          omega
        · rw [hs', List.drop_drop]
          congr 1
          omega
      · rw [hshort (by omega)]
        rfl

/-- **Reading exactly `n` bytes.** -/
theorem readExact_spec (s : Stream) (n : Nat) :
    (n ≤ s.bytes.length → ∃ s', s.readExact n = some (s.bytes.take n, s') ∧
      s'.bytes = s.bytes.drop n) ∧
    (s.bytes.length < n → s.readExact n = none) :=
  readLoop_spec (n + 1) s n (Nat.lt_succ_self n)

/-- What stands in front of the stream is read off. -/
theorem readExact_append {s : Stream} {xs rest : Bytes} (h : s.bytes = xs ++ rest) :
    ∃ s', s.readExact xs.length = some (xs, s') ∧ s'.bytes = rest := by
  obtain ⟨s', hread, hs'⟩ := (readExact_spec s xs.length).1 (by rw [h, List.length_append]; omega)
  rw [h, List.take_left] at hread
  rw [h, List.drop_left] at hs'
  exact ⟨s', hread, hs'⟩

/-! ## Reading in other pieces -/

/-- The same result, and the same bytes left, in whatever pieces. -/
inductive SameRead {α : Type} : Option (α × Stream) → Option (α × Stream) → Prop where
  | none : SameRead none none
  | some (x : α) {s s' : Stream} (h : s.bytes = s'.bytes) : SameRead (some (x, s)) (some (x, s'))

namespace SameRead
variable {α β : Type} {a b : Option (α × Stream)} {s s' : Stream}

theorem bind (h : SameRead a b) {f g : α × Stream → Option (β × Stream)}
    (hf : ∀ x (s s' : Stream), s.bytes = s'.bytes → SameRead (f (x, s)) (g (x, s'))) :
    SameRead (a >>= f) (b >>= g) := by
  cases h with
  | none => exact .none
  | some x h => exact hf x _ _ h

theorem map (h : SameRead a b) (f : α → β) :
    SameRead (a.map fun r => (f r.1, r.2)) (b.map fun r => (f r.1, r.2)) := by
  cases h with
  | none => exact .none
  | some x h => exact .some (f x) h

theorem readExact (h : s.bytes = s'.bytes) (n : Nat) : SameRead (s.readExact n) (s'.readExact n) := by
  obtain ⟨hok, hshort⟩ := readExact_spec s n
  obtain ⟨hok', hshort'⟩ := readExact_spec s' n
  by_cases hlen : n ≤ s.bytes.length
  · obtain ⟨t, hread, ht⟩ := hok hlen
    obtain ⟨t', hread', ht'⟩ := hok' (h ▸ hlen)
    rw [hread, hread', h]
    exact .some _ (by rw [ht, ht', h])
  · rw [hshort (by omega), hshort' (by rw [← h]; omega)]
    exact .none

end SameRead

end ChunkedStream
