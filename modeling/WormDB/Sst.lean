import WormDB.Types
import WormDB.PrefixOrder

/-! # Frozen segments

`storage/sst.zig`: a `.wsst` file is a header of 64 bytes, an index of 24 bytes for
each entry in ascending order of the keys, the keys one after the other, and the
values.  It is mapped and read in place: `get` and `prefixRange` bisect the index and
compare the key bytes it points at.

`Represents` says which entries an open segment has.  Where it holds, no access
leaves the mapping, `get` finds exactly the entries (`Represents.get_eq`) and
`prefixRange` is the range of the keys with the prefix (`Represents.prefixRange_eq`). -/
namespace WormDB
open List ByteCodec OrderedIndex

namespace Sst

def magic : Bytes := ascii "WSST0001"
def version : Nat := 1
def headerSize : Nat := 64
def indexEntrySize : Nat := 24

/-- Bit 31 of the key length field. -/
def wormBit : Nat := 2 ^ 31

/-- `~WORM_BIT`, of 32 bits. -/
def keyLenMask : Nat := 2 ^ 31 - 1

/-- `bs[pos .. pos + len]`, which is checked. -/
def sub? (bs : Bytes) (pos len : Nat) : Option Bytes :=
  if pos + len ≤ bs.length then some (slice bs pos len) else none

/-- `rd32` and `rd64`. -/
def rd (width : Nat) (bs : Bytes) (off : Nat) : Option Nat := (sub? bs off width).map leNat

end Sst

/-- What opening a segment or building one can end with. -/
inductive SstFault where
  | segmentEmpty | sstTooSmall | sstBadMagic | sstBadVersion | sstTruncated | sstUnsorted
  | snapshotBadMagic | snapshotBadVersion | snapshotCorrupt
  | trap
  deriving DecidableEq

structure Sst where
  bytes : Bytes
  count : Nat
  index : Bytes
  timestamp : UInt64
  deriving DecidableEq

/-- A borrowed view of one frozen entry. -/
structure Hit where
  key : Bytes
  value : Bytes
  timestamp : UInt64
  isWorm : Bool

/-- `Sst.open` on the bytes of the file; sizes are 64-bit and their sums are checked. -/
def openSst (bytes : Bytes) : Except SstFault Sst :=
  if bytes.length = 0 then .error .segmentEmpty
  else if bytes.length < Sst.headerSize then .error .sstTooSmall
  else if slice bytes 0 8 ≠ Sst.magic then .error .sstBadMagic
  else if leNat (slice bytes 8 4) ≠ Sst.version then .error .sstBadVersion
  else
    let count := leNat (slice bytes 16 8)
    let indexOff := leNat (slice bytes 24 8)
    let keysOff := leNat (slice bytes 32 8)
    let valsOff := leNat (slice bytes 40 8)
    let timestamp := leNat (slice bytes 48 8)
    let indexLen := count * Sst.indexEntrySize
    if 2 ^ 64 ≤ indexLen ∨ 2 ^ 64 ≤ indexOff + indexLen then .error .trap
    else if bytes.length < indexOff + indexLen then .error .sstTruncated
    else if bytes.length < keysOff ∨ bytes.length < valsOff then .error .sstTruncated
    else .ok ⟨bytes, count, slice bytes indexOff indexLen, timestamp.toUInt64⟩

namespace Sst

/-- `none` where an access leaves the mapping. -/
def keyAt (sst : Sst) (i : Nat) : Option Bytes := do
  let base := i * indexEntrySize
  let keyOff ← rd 8 sst.index base
  let keyLenRaw ← rd 4 sst.index (base + 16)
  sub? sst.bytes keyOff (keyLenRaw &&& keyLenMask)

def hitAt (sst : Sst) (i : Nat) : Option Hit := do
  let base := i * indexEntrySize
  let keyOff ← rd 8 sst.index base
  let valOff ← rd 8 sst.index (base + 8)
  let keyLenRaw ← rd 4 sst.index (base + 16)
  let valLen ← rd 4 sst.index (base + 20)
  let key ← sub? sst.bytes keyOff (keyLenRaw &&& keyLenMask)
  let value ← sub? sst.bytes valOff valLen
  return ⟨key, value, sst.timestamp, keyLenRaw &&& wormBit ≠ 0⟩

/-- First index whose key is not below `key`. -/
def lowerBound (sst : Sst) (key : Bytes) : Option Nat :=
  bisect? (fun i => (sst.keyAt i).map (fun k => decide (k < key))) sst.count 0 sst.count

/-- Exact-key lookup; the outer `none` is an access outside the mapping. -/
def get (sst : Sst) (key : Bytes) : Option (Option Hit) := do
  let i ← sst.lowerBound key
  if sst.count ≤ i then return none
  let found ← sst.keyAt i
  if found ≠ key then return none
  let hit ← sst.hitAt i
  return some hit

/-- Index range `[lo, hi)` of the keys starting with `p`. -/
def prefixRange (sst : Sst) (p : Bytes) : Option (Nat × Nat) := do
  let lo ← sst.lowerBound p
  let hi ← bisect? (fun i => (sst.keyAt i).map (fun k => p.isPrefixOf k)) sst.count lo sst.count
  return (lo, hi)

/-! ## The entries of a segment -/

theorem length_of_sub? {bs out : Bytes} {pos len : Nat} (h : sub? bs pos len = some out) :
    out.length = len := by
  unfold sub? at h
  split at h
  · cases h
    rw [slice, length_take, length_drop]
    omega
  · cases h

variable {sst : Sst} {i : Nat} {key : Bytes}

/-- The flag takes the top bit from the length. -/
theorem keyAt_length (h : sst.keyAt i = some key) : key.length < 2 ^ 31 := by
  obtain ⟨keyOff, -, h⟩ := Option.bind_eq_some_iff.mp h
  obtain ⟨raw, -, h⟩ := Option.bind_eq_some_iff.mp h
  rw [length_of_sub? h, keyLenMask, Nat.and_two_pow_sub_one_eq_mod]
  exact Nat.mod_lt _ (by decide)

variable {hit : Hit}

theorem keyAt_of_hitAt (h : sst.hitAt i = some hit) : sst.keyAt i = some hit.key := by
  obtain ⟨keyOff, hoff, h⟩ := Option.bind_eq_some_iff.mp h
  obtain ⟨valOff, -, h⟩ := Option.bind_eq_some_iff.mp h
  obtain ⟨raw, hraw, h⟩ := Option.bind_eq_some_iff.mp h
  obtain ⟨valLen, -, h⟩ := Option.bind_eq_some_iff.mp h
  obtain ⟨key, hkey, h⟩ := Option.bind_eq_some_iff.mp h
  obtain ⟨value, -, h⟩ := Option.bind_eq_some_iff.mp h
  cases h
  simp only [keyAt]
  rw [hoff, Option.bind_eq_bind, Option.bind_some, hraw, Option.bind_some, hkey]

/-- What `get` returns has the key that was asked for. -/
theorem get_some (h : sst.get key = some (some hit)) : ∃ i, sst.keyAt i = some key := by
  obtain ⟨i, -, h⟩ := Option.bind_eq_some_iff.mp h
  split at h
  · cases Option.some.inj h
  obtain ⟨-, -, h⟩ := Option.bind_eq_some_iff.mp h
  obtain ⟨found, hfound, h⟩ := Option.bind_eq_some_iff.mp h
  split at h
  · cases Option.some.inj h
  rename_i heq
  rw [not_not] at heq
  exact ⟨i, heq ▸ hfound⟩

/-- The open segment has these entries, in this order. -/
structure Represents (sst : Sst) (hits : List Hit) : Prop where
  count : sst.count = hits.length
  hitAt : ∀ i (h : i < hits.length), sst.hitAt i = some hits[i]
  ascending : Ascending Hit.key hits

/-- The entry of a key among the entries of a segment. -/
def hitIn (hits : List Hit) (key : Bytes) : Option Hit :=
  hits.find? (fun hit => decide (hit.key = key))

section
variable {sst : Sst} {hits : List Hit}

section
variable (h : Represents sst hits)
include h

theorem Represents.keyAt (hi : i < hits.length) : sst.keyAt i = some hits[i].key :=
  keyAt_of_hitAt (h.hitAt i hi)

theorem Represents.lowerBound_eq (key : Bytes) :
    sst.lowerBound key = some (OrderedIndex.lowerBound Hit.key hits key) := by
  rw [Sst.lowerBound, h.count, OrderedIndex.lowerBound]
  refine bisect?_eq _ _ _ (fun i _ hi => ?_)
  rw [h.keyAt hi, below_getElem hi]
  rfl

/-- **`get` finds exactly the entries.** -/
theorem Represents.get_eq (key : Bytes) : sst.get key = some (hitIn hits key) := by
  rw [Sst.get, h.lowerBound_eq, Option.bind_eq_bind, Option.bind_some, h.count]
  generalize hidx : OrderedIndex.lowerBound Hit.key hits key = idx
  rw [hitIn]
  cases hfind : hits.find? (fun hit => decide (hit.key = key)) with
  | some hit =>
    have hmem : hit ∈ hits := mem_of_find?_eq_some hfind
    obtain rfl : hit.key = key := by simpa using find?_some hfind
    have hget := getElem?_lowerBound h.ascending hmem
    rw [hidx] at hget
    obtain ⟨hlt, rfl⟩ := List.getElem?_eq_some_iff.mp hget
    rw [if_neg (by omega), h.keyAt hlt, h.hitAt idx hlt]
    simp
  | none =>
    by_cases hge : hits.length ≤ idx
    · rw [if_pos hge]
      rfl
    · have hlt : idx < hits.length := by omega
      have hne : hits[idx].key ≠ key := by
        simpa using find?_eq_none.mp hfind hits[idx] (getElem_mem hlt)
      rw [if_neg hge, h.keyAt hlt]
      simp [hne]

/-- The keys are distinct, so an entry is the one found under its key. -/
theorem Represents.find_of_mem (hmem : hit ∈ hits) : hitIn hits hit.key = some hit := by
  have hget := getElem?_lowerBound h.ascending hmem
  cases hfind : hitIn hits hit.key with
  | none =>
    have hne := find?_eq_none.mp hfind hit hmem
    simp at hne
  | some found =>
    have hfound := getElem?_lowerBound h.ascending (mem_of_find?_eq_some hfind)
    rw [show found.key = hit.key by simpa using find?_some hfind] at hfound
    rw [← hfound, hget]

/-- **`prefixRange` is the range of the keys with the prefix.** -/
theorem Represents.prefixRange_eq (p : Bytes) :
    ∃ lo hi, sst.prefixRange p = some (lo, hi) ∧ lo ≤ hi ∧ hi ≤ hits.length ∧
      ∀ i (h : i < hits.length), p <+: hits[i].key ↔ lo ≤ i ∧ i < hi := by
  refine ⟨_, _, ?_, PrefixOrder.prefixRange_spec h.ascending p⟩
  rw [Sst.prefixRange, h.lowerBound_eq, Option.bind_eq_bind, Option.bind_some, h.count]
  rw [bisect?_eq _ _ _ (fun i hlo hi => ?_)]
  · rfl
  · rw [h.keyAt hi, PrefixOrder.hasPrefix, decide_eq_false (Nat.not_lt.mpr hlo), Bool.false_or,
      getElem?_eq_getElem hi]
    rfl

end

end

end Sst

end WormDB
