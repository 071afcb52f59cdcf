import Mathlib.Logic.Function.Basic
import WormDB.BinarySearch
import WormDB.Checked
import WormDB.Sst

/-! # Frozen tables

`storage/segment.zig`: a `.wseg` file is a header of 40 bytes, a directory of at most 32 tables
and, for each table, an index of 20 bytes for each key and a blob.  `Segment.open` checks the
places of the indices and the blobs; `lookup` bisects an index and checks the place of the one
value it has found.  An outer `none` is a sum or a product that leaves 64 bits, or an access
outside of the mapped bytes. -/
namespace WormDB
open ByteCodec BinarySearch

namespace FrozenSegment

def magic : Bytes := ascii "WSEG0001"
def version : Nat := 1
def headerFixed : Nat := 40
def dirEntrySize : Nat := 48
def indexEntrySize : Nat := 20
def maxTables : Nat := 32

structure Table where
  keyCount : Nat
  index : Bytes
  blob : Bytes

/-- `[MAX_TABLES]?Table` -/
abbrev Tables := Fin maxTables → Option Table

end FrozenSegment

/-- What opening a segment can end with. -/
inductive SegmentFault where
  | segmentEmpty | segmentTooSmall | segmentBadMagic | segmentBadVersion | segmentTooManyTables
  | segmentTruncated | segmentBadIndex | segmentTableIdOutOfRange

/-- `Segment` of `storage/segment.zig`. -/
structure FrozenSegment where
  bytes : Bytes
  tables : FrozenSegment.Tables

namespace FrozenSegment

/-- The numbers of one entry of the directory. -/
structure DirEntry where
  tableId : Nat
  keyCount : Nat
  indexOff : Nat
  indexLen : Nat
  blobOff : Nat
  blobLen : Nat

def readDirEntry (bytes : Bytes) (ti : Nat) : Option DirEntry := do
  let base := headerFixed + ti * dirEntrySize
  let tableId ← Sst.rd 4 bytes base
  let keyCount ← Sst.rd 8 bytes (base + 8)
  let indexOff ← Sst.rd 8 bytes (base + 16)
  let indexLen ← Sst.rd 8 bytes (base + 24)
  let blobOff ← Sst.rd 8 bytes (base + 32)
  let blobLen ← Sst.rd 8 bytes (base + 40)
  return ⟨tableId, keyCount, indexOff, indexLen, blobOff, blobLen⟩

/-- The checks of an entry, in their order, and its table. -/
def DirEntry.check (bytes : Bytes) (e : DirEntry) :
    Option (Except SegmentFault (Fin maxTables × Table)) := do
  let indexEnd ← Checked.add 64 e.indexOff e.indexLen
  if bytes.length < indexEnd then return .error .segmentTruncated
  let blobEnd ← Checked.add 64 e.blobOff e.blobLen
  if bytes.length < blobEnd then return .error .segmentTruncated
  let wanted ← Checked.mul 64 e.keyCount indexEntrySize
  if e.indexLen ≠ wanted then return .error .segmentBadIndex
  if h : e.tableId < maxTables then
    let index ← Sst.sub? bytes e.indexOff e.indexLen
    let blob ← Sst.sub? bytes e.blobOff e.blobLen
    return .ok (⟨e.tableId, h⟩, ⟨e.keyCount, index, blob⟩)
  else return .error .segmentTableIdOutOfRange

/-- One turn of the loop over the directory. -/
def openTable (bytes : Bytes) (ti : Nat) :
    Option (Except SegmentFault (Fin maxTables × Table)) := do
  let e ← readDirEntry bytes ti
  e.check bytes

/-- The loop over the directory, with the number of its turns that are left. -/
def openTables (bytes : Bytes) : Nat → Nat → Tables → Option (Except SegmentFault Tables)
  | 0, _, tables => some (.ok tables)
  | turns + 1, ti, tables =>
      match openTable bytes ti with
      | none => none
      | some (.error e) => some (.error e)
      | some (.ok (id, table)) =>
          openTables bytes turns (ti + 1) (Function.update tables id (some table))

/-- The number of tables that the header gives. -/
def tableCount (bytes : Bytes) : Nat := leNat (slice bytes 16 4)

/-- `Segment.open` on the bytes of the file. -/
def openSegment (bytes : Bytes) : Option (Except SegmentFault FrozenSegment) :=
  if bytes.length = 0 then some (.error .segmentEmpty)
  else if bytes.length < headerFixed then some (.error .segmentTooSmall)
  else if slice bytes 0 8 ≠ magic then some (.error .segmentBadMagic)
  else if leNat (slice bytes 8 4) ≠ version then some (.error .segmentBadVersion)
  else if maxTables < tableCount bytes then some (.error .segmentTooManyTables)
  else if bytes.length < headerFixed + tableCount bytes * dirEntrySize then
    some (.error .segmentTruncated)
  else
    match openTables bytes (tableCount bytes) 0 (fun _ => none) with
    | none => none
    | some (.error e) => some (.error e)
    | some (.ok tables) => some (.ok ⟨bytes, tables⟩)

/-- What `lookup` returns of the entry it has found. -/
def Table.valueAt (t : Table) (e : Nat) : Option (Option Bytes) := do
  let off ← Sst.rd 8 t.index (e + 8)
  let len ← Sst.rd 4 t.index (e + 16)
  let stop ← Checked.add 64 off len
  if t.blob.length < stop then return none
  let value ← Sst.sub? t.blob off len
  return some value

/-- The loop of `lookup`. -/
def Table.search (t : Table) (key : Nat) (lo hi : Nat) : Option (Option Bytes) :=
  if lo < hi then
    match Checked.mul 64 (middle lo hi) indexEntrySize with
    | none => none
    | some e =>
        match Sst.rd 8 t.index e with
        | none => none
        | some k =>
            if k = key then t.valueAt e
            else if k < key then t.search key (middle lo hi + 1) hi
            else t.search key lo (middle lo hi)
  else some none
termination_by hi - lo
decreasing_by
  · have := le_middle lo hi
    omega
  · have := middle_lt (by assumption : lo < hi)
    omega

/-- Binary-search a table for `key`; the outer `none` is a stop of the program. -/
def lookup (seg : FrozenSegment) (table : UInt32) (key : UInt64) : Option (Option Bytes) :=
  if h : table.toNat < maxTables then
    match seg.tables ⟨table.toNat, h⟩ with
    | none => some none
    | some t => t.search key.toNat 0 t.keyCount
  else some none

/-! ## The directory of a file -/

def dirEntryAt (bytes : Bytes) (ti : Nat) : DirEntry where
  tableId := leNat (slice bytes (headerFixed + ti * dirEntrySize) 4)
  keyCount := leNat (slice bytes (headerFixed + ti * dirEntrySize + 8) 8)
  indexOff := leNat (slice bytes (headerFixed + ti * dirEntrySize + 16) 8)
  indexLen := leNat (slice bytes (headerFixed + ti * dirEntrySize + 24) 8)
  blobOff := leNat (slice bytes (headerFixed + ti * dirEntrySize + 32) 8)
  blobLen := leNat (slice bytes (headerFixed + ti * dirEntrySize + 40) 8)

/-- A sum or a product of the entry leaves 64 bits, and the checks in front of it let it pass. -/
def DirEntry.Overflows (e : DirEntry) (size : Nat) : Prop :=
  2 ^ 64 ≤ e.indexOff + e.indexLen ∨
    (e.indexOff + e.indexLen ≤ size ∧
      (2 ^ 64 ≤ e.blobOff + e.blobLen ∨
        (e.blobOff + e.blobLen ≤ size ∧ 2 ^ 64 ≤ e.keyCount * indexEntrySize)))

/-- The entry passes every check. -/
structure DirEntry.Accepted (e : DirEntry) (size : Nat) : Prop where
  index : e.indexOff + e.indexLen ≤ size
  blob : e.blobOff + e.blobLen ≤ size
  length : e.indexLen = e.keyCount * indexEntrySize
  tableId : e.tableId < maxTables

/-- The table the entry describes. -/
def DirEntry.table (bytes : Bytes) (e : DirEntry) : Table :=
  ⟨e.keyCount, slice bytes e.indexOff e.indexLen, slice bytes e.blobOff e.blobLen⟩

/-! ## Opening a file -/

section
variable {bytes : Bytes} {ti : Nat}

theorem rd_eq {bs : Bytes} {off width : Nat} (h : off + width ≤ bs.length) :
    Sst.rd width bs off = some (leNat (slice bs off width)) := by
  rw [Sst.rd, Sst.sub?, if_pos h]
  rfl

theorem readDirEntry_eq (hfit : headerFixed + ti * dirEntrySize + dirEntrySize ≤ bytes.length) :
    readDirEntry bytes ti = some (dirEntryAt bytes ti) := by
  have hfit' : headerFixed + ti * dirEntrySize + 48 ≤ bytes.length := hfit
  rw [readDirEntry]
  rw [rd_eq (by omega), rd_eq (by omega), rd_eq (by omega), rd_eq (by omega), rd_eq (by omega),
    rd_eq (by omega)]
  rfl

/-- The checks stop, refuse the entry, or have its table. -/
theorem DirEntry.check_cases (bytes : Bytes) (e : DirEntry) :
    (e.Overflows bytes.length ∧ e.check bytes = none) ∨
    (¬e.Overflows bytes.length ∧ ¬e.Accepted bytes.length ∧
      ∃ err, e.check bytes = some (.error err)) ∨
    (¬e.Overflows bytes.length ∧ ∃ h : e.Accepted bytes.length,
      e.check bytes = some (.ok (⟨e.tableId, h.tableId⟩, e.table bytes))) := by
  rw [DirEntry.check]
  by_cases hindex : 2 ^ 64 ≤ e.indexOff + e.indexLen
  · rw [Checked.add, if_neg (by omega)]
    exact .inl ⟨.inl hindex, rfl⟩
  rw [Checked.add, if_pos (by omega), Option.bind_eq_bind, Option.bind_some]
  by_cases hindexFits : bytes.length < e.indexOff + e.indexLen
  · rw [if_pos hindexFits]
    refine .inr (.inl ⟨?_, fun h => ?_, _, rfl⟩)
    · rintro (h | ⟨h, -⟩) <;> omega
    · have := h.index
      omega
  rw [if_neg hindexFits]
  by_cases hblob : 2 ^ 64 ≤ e.blobOff + e.blobLen
  · rw [Checked.add, if_neg (by omega)]
    exact .inl ⟨.inr ⟨by omega, .inl hblob⟩, rfl⟩
  rw [Checked.add, if_pos (by omega), Option.bind_eq_bind, Option.bind_some]
  by_cases hblobFits : bytes.length < e.blobOff + e.blobLen
  · rw [if_pos hblobFits]
    refine .inr (.inl ⟨?_, fun h => ?_, _, rfl⟩)
    · rintro (h | ⟨-, h | ⟨h, -⟩⟩) <;> omega
    · have := h.blob
      omega
  rw [if_neg hblobFits]
  by_cases hcount : 2 ^ 64 ≤ e.keyCount * indexEntrySize
  · rw [Checked.mul, if_neg (by omega)]
    exact .inl ⟨.inr ⟨by omega, .inr ⟨by omega, hcount⟩⟩, rfl⟩
  rw [Checked.mul, if_pos (by omega), Option.bind_some]
  have hover : ¬e.Overflows bytes.length := by
    rintro (h | ⟨-, h | ⟨-, h⟩⟩) <;> omega
  by_cases hlen : e.indexLen ≠ e.keyCount * indexEntrySize
  · rw [if_pos hlen]
    exact .inr (.inl ⟨hover, fun h => hlen h.length, _, rfl⟩)
  rw [if_neg hlen]
  by_cases hid : e.tableId < maxTables
  · rw [dif_pos hid, Sst.sub?, if_pos (by omega), Sst.sub?, if_pos (by omega)]
    exact .inr (.inr ⟨hover, ⟨by omega, by omega, not_not.mp hlen, hid⟩, rfl⟩)
  · rw [dif_neg hid]
    exact .inr (.inl ⟨hover, fun h => hid h.tableId, _, rfl⟩)

theorem openTable_eq (hfit : headerFixed + ti * dirEntrySize + dirEntrySize ≤ bytes.length) :
    openTable bytes ti = (dirEntryAt bytes ti).check bytes := by
  rw [openTable, readDirEntry_eq hfit]
  rfl

/-- The entry at `ti` is the last one of the first `n` with its table id. -/
def LastWithId (bytes : Bytes) (n ti : Nat) : Prop :=
  ∀ tj, ti < tj → tj < n → (dirEntryAt bytes tj).tableId ≠ (dirEntryAt bytes ti).tableId

/-- The first `n` entries pass every check. -/
def Opens (bytes : Bytes) (n : Nat) : Prop :=
  ∀ ti < n, ¬(dirEntryAt bytes ti).Overflows bytes.length ∧
    (dirEntryAt bytes ti).Accepted bytes.length

/-- The tables that the first `n` entries describe; a later entry replaces an earlier one. -/
def Filled (bytes : Bytes) (n : Nat) (tables : Tables) : Prop :=
  ∀ id table, tables id = some table ↔
    ∃ ti < n, (dirEntryAt bytes ti).tableId = id.val ∧ LastWithId bytes n ti ∧
      table = (dirEntryAt bytes ti).table bytes

theorem filled_zero (bytes : Bytes) : Filled bytes 0 (fun _ => none) := by
  intro id table
  constructor
  · rintro ⟨⟩
  · rintro ⟨ti, hti, -⟩
    omega

variable {tables : Tables}

/-- One more entry takes its place. -/
theorem Filled.update {n : Nat} (h : Filled bytes n tables)
    (hid : (dirEntryAt bytes n).tableId < maxTables) :
    Filled bytes (n + 1) (Function.update tables ⟨(dirEntryAt bytes n).tableId, hid⟩
      (some ((dirEntryAt bytes n).table bytes))) := by
  intro id table
  by_cases heq : id = ⟨(dirEntryAt bytes n).tableId, hid⟩
  · subst heq
    rw [Function.update_self]
    constructor
    · intro htable
      refine ⟨n, Nat.lt_succ_self n, rfl, fun tj hlt hle => ?_, (Option.some.inj htable).symm⟩
      omega
    · rintro ⟨ti, hti, hsame, hlast, rfl⟩
      rcases lt_or_eq_of_le (Nat.le_of_lt_succ hti) with hlt | rfl
      · exact absurd hsame.symm (hlast n hlt (Nat.lt_succ_self n))
      · rfl
  · rw [Function.update_of_ne heq, h id table]
    have hother : (dirEntryAt bytes n).tableId ≠ id.val := fun hsame => heq (Fin.ext hsame.symm)
    constructor
    · rintro ⟨ti, hti, hsame, hlast, htable⟩
      refine ⟨ti, by omega, hsame, fun tj hlt hle => ?_, htable⟩
      rcases lt_or_eq_of_le (Nat.le_of_lt_succ hle) with hle | rfl
      · exact hlast tj hlt hle
      · rw [hsame]
        exact hother
    · rintro ⟨ti, hti, hsame, hlast, htable⟩
      have hne : ti ≠ n := by
        rintro rfl
        exact hother hsame
      exact ⟨ti, by omega, hsame, fun tj hlt hle => hlast tj hlt (by omega), htable⟩

/-- **The loop over the directory** stops at the first entry that overflows, refuses the file at
the first one that fails a check, or has the tables of all. -/
theorem openTables_cases {turns : Nat}
    (hfit : headerFixed + (ti + turns) * dirEntrySize ≤ bytes.length)
    (hopens : Opens bytes ti) (hfilled : Filled bytes ti tables) :
    (∃ tj < ti + turns, Opens bytes tj ∧ (dirEntryAt bytes tj).Overflows bytes.length ∧
      openTables bytes turns ti tables = none) ∨
    (¬Opens bytes (ti + turns) ∧
      (∀ tj < ti + turns, Opens bytes tj → ¬(dirEntryAt bytes tj).Overflows bytes.length) ∧
      ∃ err, openTables bytes turns ti tables = some (.error err)) ∨
    (Opens bytes (ti + turns) ∧ ∃ tables', openTables bytes turns ti tables = some (.ok tables') ∧
      Filled bytes (ti + turns) tables') := by
  induction turns generalizing ti tables with
  | zero => exact .inr (.inr ⟨hopens, tables, rfl, hfilled⟩)
  | succ turns ih =>
    have hsum : ti + (turns + 1) = ti + 1 + turns := by omega
    have hsize : dirEntrySize = 48 := rfl
    have hti : headerFixed + ti * dirEntrySize + dirEntrySize ≤ bytes.length := by
      rw [hsize] at hfit ⊢
      omega
    rw [openTables, openTable_eq hti]
    rcases (dirEntryAt bytes ti).check_cases bytes with
      ⟨hover, hcheck⟩ | ⟨hover, hrefused, err, hcheck⟩ | ⟨hover, haccepted, hcheck⟩
    · rw [hcheck]
      exact .inl ⟨ti, by omega, hopens, hover, rfl⟩
    · rw [hcheck]
      refine .inr (.inl ⟨fun h => hrefused (h ti (by omega)).2, fun tj htj hall => ?_, err, rfl⟩)
      -- behind the refused entry nothing is asked
      rcases Nat.lt_trichotomy tj ti with hlt | rfl | hlt
      · exact (hopens tj hlt).1
      · exact hover
      · exact absurd (hall ti hlt).2 hrefused
    · rw [hcheck, hsum]
      refine ih (by rw [hsum] at hfit; exact hfit) (fun tj htj => ?_)
        (hfilled.update haccepted.tableId)
      rcases lt_or_eq_of_le (Nat.le_of_lt_succ htj) with hlt | rfl
      · exact hopens tj hlt
      · exact ⟨hover, haccepted⟩

end

end FrozenSegment

end WormDB
