import Mathlib.Data.Nat.Basic
import WormDB.FrozenSegment

/-! # Frozen files of any content

Both openers check the header and the place of the index.  Neither looks at the sums of the
header before it adds, and neither looks at the entries: a `.wsst` file is safe to read where
every entry lies inside the file (`Sst.safe_iff`), a `.wseg` file where every entry that the
bisection can reach has a sum of 64 bits (`FrozenSegment.safe_iff`). -/
namespace WormDB
open ByteCodec BinarySearch OrderedIndex

variable {bs : Bytes} {pos len : Nat}

theorem slice_slice {off width : Nat} (h : off + width ≤ len) :
    slice (slice bs pos len) off width = slice bs (pos + off) width := by
  rw [slice, slice, slice, List.drop_take, List.take_take, List.drop_drop,
    Nat.min_eq_left (by omega)]

theorem length_slice (h : pos + len ≤ bs.length) : (slice bs pos len).length = len := by
  rw [slice, List.length_take, List.length_drop]
  omega

/-! ## Tables under a number -/

namespace FrozenSegment

section
variable {bytes : Bytes} {t : Table} {i : Nat}

def Table.keyAt (t : Table) (i : Nat) : Nat := leNat (slice t.index (i * indexEntrySize) 8)

/-- The end of the value of an entry, counted in the blob. -/
def Table.valueEnd (t : Table) (i : Nat) : Nat :=
  leNat (slice t.index (i * indexEntrySize + 8) 8) +
    leNat (slice t.index (i * indexEntrySize + 16) 4)

/-- The index has the size that its count asks for. -/
structure Table.Sized (t : Table) : Prop where
  length : t.index.length = t.keyCount * indexEntrySize
  fits : t.keyCount * indexEntrySize < 2 ^ 64

theorem Table.keyAt_lt (t : Table) (i : Nat) : t.keyAt i < 2 ^ 64 :=
  lt_of_lt_of_le (leNat_lt _)
    (Nat.pow_le_pow_right (by decide : 0 < 256) (List.length_take_le _ _))

theorem Table.Sized.entry_le (h : t.Sized) (hi : i < t.keyCount) :
    i * indexEntrySize + indexEntrySize ≤ t.index.length := by
  rw [h.length, ← Nat.succ_mul]
  exact Nat.mul_le_mul_right _ hi

/-- The loop reads inside the index, and stops where the bisection of the keys does. -/
theorem Table.Sized.search_eq (h : t.Sized) (key : Nat) {lo hi : Nat} (hhi : hi ≤ t.keyCount) :
    t.search key lo hi = match BinarySearch.search t.keyAt key lo hi with
      | none => some none
      | some i => t.valueAt (i * indexEntrySize) := by
  fun_induction BinarySearch.search t.keyAt key lo hi with
  | case1 lo hi hlt heq =>
    have hsize : indexEntrySize = 20 := rfl
    have hmid := h.entry_le (lt_of_lt_of_le (middle_lt hlt) hhi)
    have hfits := h.length ▸ h.fits
    rw [hsize] at hmid
    rw [Table.search, if_pos hlt, Checked.mul, hsize, if_pos (by omega)]
    simp only
    rw [rd_eq (by omega)]
    exact if_pos heq
  | case2 lo hi hlt hne hbelow ih =>
    have hsize : indexEntrySize = 20 := rfl
    have hmid := h.entry_le (lt_of_lt_of_le (middle_lt hlt) hhi)
    have hfits := h.length ▸ h.fits
    rw [hsize] at hmid
    rw [← ih hhi, Table.search, if_pos hlt, Checked.mul, hsize, if_pos (by omega)]
    simp only
    rw [rd_eq (by omega)]
    exact (if_neg hne).trans (if_pos hbelow)
  | case3 lo hi hlt hne hnot ih =>
    have hsize : indexEntrySize = 20 := rfl
    have hlast := middle_lt hlt
    have hmid := h.entry_le (lt_of_lt_of_le hlast hhi)
    have hfits := h.length ▸ h.fits
    rw [hsize] at hmid
    rw [← ih (by omega), Table.search, if_pos hlt, Checked.mul, hsize, if_pos (by omega)]
    simp only
    rw [rd_eq (by omega)]
    exact (if_neg hne).trans (if_neg hnot)
  | case4 lo hi hge => rw [Table.search, if_neg hge]

theorem Table.Sized.valueAt_eq_none_iff (h : t.Sized) (hi : i < t.keyCount) :
    t.valueAt (i * indexEntrySize) = none ↔ 2 ^ 64 ≤ t.valueEnd i := by
  have hsize : indexEntrySize = 20 := rfl
  have hentry := h.entry_le hi
  rw [hsize] at hentry
  rw [Table.valueAt, Table.valueEnd, hsize, rd_eq (by omega), Option.bind_eq_bind,
    Option.bind_some, rd_eq (by omega), Option.bind_eq_bind, Option.bind_some]
  generalize leNat (slice t.index (i * 20 + 8) 8) = off
  generalize leNat (slice t.index (i * 20 + 16) 4) = len
  by_cases hover : 2 ^ 64 ≤ off + len
  · rw [Checked.add, if_neg (by omega)]
    exact ⟨fun _ => hover, fun _ => rfl⟩
  · rw [Checked.add, if_pos (by omega), Option.bind_some]
    by_cases hfits : t.blob.length < off + len
    · rw [if_pos hfits]
      exact ⟨by rintro ⟨⟩, fun h => absurd h hover⟩
    · rw [if_neg hfits, Sst.sub?, if_pos (by omega)]
      exact ⟨by rintro ⟨⟩, fun h => absurd h hover⟩

/-- **A table answers every key** where no entry that the bisection can reach overflows. -/
theorem Table.Sized.search_total_iff (h : t.Sized) :
    (∀ key : UInt64, ∃ found, t.search key.toNat 0 t.keyCount = some found) ↔
      ∀ i < t.keyCount, Reached t.keyAt i 0 t.keyCount → t.valueEnd i < 2 ^ 64 := by
  constructor
  · intro hall i hi hreach
    by_contra hover
    have hkey : (UInt64.ofNat (t.keyAt i)).toNat = t.keyAt i := by
      rw [UInt64.toNat_ofNat']
      exact Nat.mod_eq_of_lt (t.keyAt_lt i)
    obtain ⟨found, hfound⟩ := hall (UInt64.ofNat (t.keyAt i))
    rw [hkey, h.search_eq _ (le_refl _),
      (search_eq_some_iff t.keyAt _ 0 t.keyCount i).mpr ⟨Nat.zero_le i, hi, rfl, hreach⟩] at hfound
    simp only at hfound
    rw [(h.valueAt_eq_none_iff hi).mpr (Nat.not_lt.mp hover)] at hfound
    cases hfound
  · intro hall key
    rw [h.search_eq _ (le_refl _)]
    cases hsearch : BinarySearch.search t.keyAt key.toNat 0 t.keyCount with
    | none => exact ⟨none, rfl⟩
    | some i =>
      obtain ⟨-, hi, -, hreach⟩ := (search_eq_some_iff _ _ _ _ _).mp hsearch
      cases hvalue : t.valueAt (i * indexEntrySize) with
      | none =>
        have hover := (h.valueAt_eq_none_iff hi).mp hvalue
        exact absurd (hall i hi hreach) (Nat.not_lt.mpr hover)
      | some found => exact ⟨found, hvalue⟩

theorem DirEntry.Accepted.sized {e : DirEntry} (h : e.Accepted bytes.length)
    (hover : ¬e.Overflows bytes.length) : (e.table bytes).Sized where
  length := by
    rw [← show e.indexLen = (e.table bytes).keyCount * indexEntrySize from h.length]
    exact length_slice h.index
  fits := by
    by_contra hcount
    exact hover (.inr ⟨h.index, .inr ⟨h.blob, Nat.not_lt.mp hcount⟩⟩)

end

/-! ## Segments of any content -/

/-- Opening the file and looking a key up end with a result. -/
def Safe (bytes : Bytes) : Prop :=
  ∃ r, openSegment bytes = some r ∧
    ∀ seg, r = .ok seg → ∀ (table : UInt32) (key : UInt64), ∃ found,
      seg.lookup table key = some found

/-- The checks in front of the directory. -/
structure HeaderAccepted (bytes : Bytes) : Prop where
  size : headerFixed ≤ bytes.length
  magic : slice bytes 0 8 = FrozenSegment.magic
  version : leNat (slice bytes 8 4) = FrozenSegment.version
  count : tableCount bytes ≤ maxTables
  directory : headerFixed + tableCount bytes * dirEntrySize ≤ bytes.length

/-- No sum of the directory overflows, nor one of an entry that the bisection can reach. -/
structure Sound (bytes : Bytes) : Prop where
  directory : ∀ ti < tableCount bytes, Opens bytes ti →
    ¬(dirEntryAt bytes ti).Overflows bytes.length
  entries : Opens bytes (tableCount bytes) →
    ∀ ti < tableCount bytes, LastWithId bytes (tableCount bytes) ti →
      ∀ i < (dirEntryAt bytes ti).keyCount,
        Reached ((dirEntryAt bytes ti).table bytes).keyAt i 0 (dirEntryAt bytes ti).keyCount →
          ((dirEntryAt bytes ti).table bytes).valueEnd i < 2 ^ 64

section
variable {bytes : Bytes}

theorem openSegment_refused (h : ¬HeaderAccepted bytes) :
    ∃ err, openSegment bytes = some (.error err) := by
  rw [openSegment]
  split
  · exact ⟨_, rfl⟩
  split
  · exact ⟨_, rfl⟩
  split
  · exact ⟨_, rfl⟩
  split
  · exact ⟨_, rfl⟩
  split
  · exact ⟨_, rfl⟩
  split
  · exact ⟨_, rfl⟩
  rename_i hsize hmagic hversion hcount hdirectory
  exact absurd ⟨Nat.not_lt.mp hsize, not_not.mp hmagic, not_not.mp hversion,
    Nat.not_lt.mp hcount, Nat.not_lt.mp hdirectory⟩ h

theorem openSegment_accepted (h : HeaderAccepted bytes) :
    openSegment bytes =
      match openTables bytes (tableCount bytes) 0 (fun _ => none) with
      | none => none
      | some (.error e) => some (.error e)
      | some (.ok tables) => some (.ok ⟨bytes, tables⟩) := by
  have hsize := h.size
  have hfixed : headerFixed = 40 := rfl
  rw [openSegment, if_neg (by omega), if_neg (by omega), if_neg (not_not.mpr h.magic),
    if_neg (not_not.mpr h.version), if_neg (Nat.not_lt.mpr h.count)]
  exact if_neg (Nat.not_lt.mpr h.directory)

/-- The tables of an open segment answer where each of them does. -/
theorem lookup_total_iff {tables : Tables} (hopens : Opens bytes (tableCount bytes))
    (hfilled : Filled bytes (tableCount bytes) tables) :
    (∀ (table : UInt32) (key : UInt64), ∃ found,
      lookup ⟨bytes, tables⟩ table key = some found) ↔
    ∀ ti < tableCount bytes, LastWithId bytes (tableCount bytes) ti →
      ∀ key : UInt64, ∃ found, ((dirEntryAt bytes ti).table bytes).search key.toNat 0
        (dirEntryAt bytes ti).keyCount = some found := by
  constructor
  · intro hall ti hti hlast key
    have hid := (hopens ti hti).2.tableId
    have hmax : maxTables = 32 := rfl
    have hword : (UInt32.ofNat (dirEntryAt bytes ti).tableId).toNat =
        (dirEntryAt bytes ti).tableId := by
      rw [UInt32.toNat_ofNat']
      exact Nat.mod_eq_of_lt (by omega)
    have htable := (hfilled ⟨_, hid⟩ _).mpr ⟨ti, hti, rfl, hlast, rfl⟩
    obtain ⟨found, hfound⟩ := hall (UInt32.ofNat (dirEntryAt bytes ti).tableId) key
    simp only [lookup, hword, dif_pos hid, htable] at hfound
    exact ⟨found, hfound⟩
  · intro hall table key
    rw [lookup]
    split
    · rename_i hid
      cases htable : tables ⟨table.toNat, hid⟩ with
      | none =>
        simp only [htable]
        exact ⟨none, rfl⟩
      | some t =>
        obtain ⟨ti, hti, -, hlast, rfl⟩ := (hfilled _ _).mp htable
        simp only [htable]
        exact hall ti hti hlast key
    · exact ⟨none, rfl⟩

/-- **Which tables of numbers are safe to serve.** -/
theorem safe_iff (bytes : Bytes) : Safe bytes ↔ (HeaderAccepted bytes → Sound bytes) := by
  by_cases hheader : HeaderAccepted bytes
  · have hfit : headerFixed + (0 + tableCount bytes) * dirEntrySize ≤ bytes.length := by
      rw [zero_add]
      exact hheader.directory
    have hcases := openTables_cases hfit (fun ti hti => absurd hti (Nat.not_lt_zero ti))
      (filled_zero bytes)
    rw [zero_add] at hcases
    rw [Safe, openSegment_accepted hheader]
    rcases hcases with ⟨ti, hti, hopens, hover, hrun⟩ | ⟨hrefused, hno, err, hrun⟩ |
      ⟨hopens, tables, hrun, hfilled⟩
    · rw [hrun]
      constructor
      · rintro ⟨r, ⟨⟩, -⟩
      · intro h
        exact absurd hover ((h hheader).directory ti hti hopens)
    · rw [hrun]
      constructor
      · intro _ _
        exact ⟨hno, fun hopens => absurd hopens hrefused⟩
      · intro _
        exact ⟨_, rfl, by rintro seg ⟨⟩⟩
    · rw [hrun]
      have hsized : ∀ ti < tableCount bytes, ((dirEntryAt bytes ti).table bytes).Sized :=
        fun ti hti => (hopens ti hti).2.sized (hopens ti hti).1
      constructor
      · rintro ⟨r, hr, hall⟩ -
        cases hr
        refine ⟨fun ti hti _ => (hopens ti hti).1, fun _ ti hti hlast => ?_⟩
        exact (hsized ti hti).search_total_iff.mp
          ((lookup_total_iff hopens hfilled).mp (hall _ rfl) ti hti hlast)
      · intro h
        refine ⟨_, rfl, ?_⟩
        rintro seg ⟨⟩
        refine (lookup_total_iff hopens hfilled).mpr (fun ti hti hlast => ?_)
        exact (hsized ti hti).search_total_iff.mpr ((h hheader).entries hopens ti hti hlast)
  · obtain ⟨err, hrun⟩ := openSegment_refused hheader
    rw [Safe, hrun]
    constructor
    · intro _ h
      exact absurd h hheader
    · intro _
      exact ⟨_, rfl, by rintro seg ⟨⟩⟩

end

end FrozenSegment

/-! ## Sorted strings of any content -/

namespace Sst

/-- Opening the file, and every access to what was opened, end with a result. -/
structure Safe (bytes : Bytes) : Prop where
  opens : openSst bytes ≠ .error .trap
  hitAt : ∀ sst, openSst bytes = .ok sst → ∀ i < sst.count,
    i * indexEntrySize < 2 ^ 64 ∧ ∃ hit, sst.hitAt i = some hit
  get : ∀ sst, openSst bytes = .ok sst → ∀ key, ∃ found, sst.get key = some found
  prefixRange : ∀ sst, openSst bytes = .ok sst → ∀ p, ∃ range, sst.prefixRange p = some range

/-- The checks in front of the numbers. -/
structure HeaderAccepted (bytes : Bytes) : Prop where
  size : headerSize ≤ bytes.length
  magic : slice bytes 0 8 = Sst.magic
  version : leNat (slice bytes 8 4) = Sst.version

def fileCount (bytes : Bytes) : Nat := leNat (slice bytes 16 8)

def fileIndexOff (bytes : Bytes) : Nat := leNat (slice bytes 24 8)

/-- The index, and the places of the keys and the values, lie inside the file. -/
structure Fits (bytes : Bytes) : Prop where
  index : fileIndexOff bytes + fileCount bytes * indexEntrySize ≤ bytes.length
  keys : leNat (slice bytes 32 8) ≤ bytes.length
  vals : leNat (slice bytes 40 8) ≤ bytes.length

/-- The key and the value of the entry at `base` lie inside the file. -/
structure EntryInside (bytes : Bytes) (base : Nat) : Prop where
  key : leNat (slice bytes base 8) + (leNat (slice bytes (base + 16) 4) &&& keyLenMask) ≤
    bytes.length
  value : leNat (slice bytes (base + 8) 8) + leNat (slice bytes (base + 20) 4) ≤ bytes.length

/-- The place of the index does not overflow, and every entry lies inside the file. -/
structure Sound (bytes : Bytes) : Prop where
  length : fileCount bytes * indexEntrySize < 2 ^ 64
  index : fileIndexOff bytes + fileCount bytes * indexEntrySize < 2 ^ 64
  entries : Fits bytes → ∀ i < fileCount bytes,
    EntryInside bytes (fileIndexOff bytes + i * indexEntrySize)

section
variable {bytes : Bytes} {sst : Sst}

variable {pos len : Nat}

theorem sub?_isSome_iff : (∃ out, sub? bs pos len = some out) ↔ pos + len ≤ bs.length := by
  rw [sub?]
  split
  · exact ⟨fun _ => by assumption, fun _ => ⟨_, rfl⟩⟩
  · exact ⟨by rintro ⟨out, ⟨⟩⟩, fun h => absurd h (by assumption)⟩

theorem openSst_refused (h : ¬HeaderAccepted bytes) : ∃ err, err ≠ .trap ∧
    openSst bytes = .error err := by
  rw [openSst]
  split
  · exact ⟨_, by decide, rfl⟩
  split
  · exact ⟨_, by decide, rfl⟩
  split
  · exact ⟨_, by decide, rfl⟩
  split
  · exact ⟨_, by decide, rfl⟩
  rename_i hsize hmagic hversion
  exact absurd ⟨Nat.not_lt.mp hsize, not_not.mp hmagic, not_not.mp hversion⟩ h

/-- Behind the header the opener stops, refuses the file, or has its index. -/
theorem openSst_cases (h : HeaderAccepted bytes) :
    ((2 ^ 64 ≤ fileCount bytes * indexEntrySize ∨
        2 ^ 64 ≤ fileIndexOff bytes + fileCount bytes * indexEntrySize) ∧
      openSst bytes = .error .trap) ∨
    (fileIndexOff bytes + fileCount bytes * indexEntrySize < 2 ^ 64 ∧ ¬Fits bytes ∧
      openSst bytes = .error .sstTruncated) ∨
    (fileIndexOff bytes + fileCount bytes * indexEntrySize < 2 ^ 64 ∧ Fits bytes ∧
      openSst bytes = .ok ⟨bytes, fileCount bytes,
        slice bytes (fileIndexOff bytes) (fileCount bytes * indexEntrySize),
        (leNat (slice bytes 48 8)).toUInt64⟩) := by
  have hsize := h.size
  have hheader : headerSize = 64 := rfl
  have hopen : openSst bytes =
      if 2 ^ 64 ≤ fileCount bytes * indexEntrySize ∨
          2 ^ 64 ≤ fileIndexOff bytes + fileCount bytes * indexEntrySize then .error .trap
      else if bytes.length < fileIndexOff bytes + fileCount bytes * indexEntrySize then
        .error .sstTruncated
      else if bytes.length < leNat (slice bytes 32 8) ∨ bytes.length < leNat (slice bytes 40 8) then
        .error .sstTruncated
      else .ok ⟨bytes, fileCount bytes,
        slice bytes (fileIndexOff bytes) (fileCount bytes * indexEntrySize),
        (leNat (slice bytes 48 8)).toUInt64⟩ := by
    rw [openSst, if_neg (by omega), if_neg (by omega), if_neg (not_not.mpr h.magic),
      if_neg (not_not.mpr h.version)]
    rfl
  rw [hopen]
  by_cases hover : 2 ^ 64 ≤ fileCount bytes * indexEntrySize ∨
      2 ^ 64 ≤ fileIndexOff bytes + fileCount bytes * indexEntrySize
  · exact .inl ⟨hover, if_pos hover⟩
  · rw [if_neg hover]
    rw [not_or] at hover
    by_cases hfits : Fits bytes
    · rw [if_neg (Nat.not_lt.mpr hfits.index), if_neg (not_or.mpr
        ⟨Nat.not_lt.mpr hfits.keys, Nat.not_lt.mpr hfits.vals⟩)]
      exact .inr (.inr ⟨by omega, hfits, rfl⟩)
    · refine .inr (.inl ⟨by omega, hfits, ?_⟩)
      split
      · rfl
      split
      · rfl
      rename_i hindex hplaces
      rw [not_or] at hplaces
      exact absurd ⟨Nat.not_lt.mp hindex, Nat.not_lt.mp hplaces.1, Nat.not_lt.mp hplaces.2⟩ hfits

theorem rd_index {off width : Nat} (hfits : pos + len ≤ bytes.length) (h : off + width ≤ len) :
    rd width (slice bytes pos len) off = some (leNat (slice bytes (pos + off) width)) := by
  rw [FrozenSegment.rd_eq (by rw [length_slice hfits]; exact h), slice_slice h]

/-- An entry can be read where it lies inside the file. -/
theorem hitAt_isSome_iff {i : Nat} (hi : i < fileCount bytes)
    (hfits : fileIndexOff bytes + fileCount bytes * indexEntrySize ≤ bytes.length)
    (timestamp : UInt64) :
    (∃ hit, Sst.hitAt ⟨bytes, fileCount bytes,
        slice bytes (fileIndexOff bytes) (fileCount bytes * indexEntrySize), timestamp⟩ i =
        some hit) ↔
      EntryInside bytes (fileIndexOff bytes + i * indexEntrySize) := by
  have hentry : i * indexEntrySize + 24 ≤ fileCount bytes * indexEntrySize := by
    rw [show 24 = indexEntrySize from rfl, ← Nat.succ_mul]
    exact Nat.mul_le_mul_right _ hi
  rw [Sst.hitAt]
  simp only
  rw [rd_index hfits (by omega), rd_index hfits (by omega), rd_index hfits (by omega),
    rd_index hfits (by omega)]
  simp only [Option.bind_eq_bind, Option.bind_some, ← add_assoc]
  generalize fileIndexOff bytes + i * indexEntrySize = base
  constructor
  · rintro ⟨hit, h⟩
    obtain ⟨key, hkey, h⟩ := Option.bind_eq_some_iff.mp h
    obtain ⟨value, hvalue, -⟩ := Option.bind_eq_some_iff.mp h
    exact ⟨sub?_isSome_iff.mp ⟨key, hkey⟩, sub?_isSome_iff.mp ⟨value, hvalue⟩⟩
  · intro h
    obtain ⟨key, hkey⟩ := sub?_isSome_iff.mpr h.key
    obtain ⟨value, hvalue⟩ := sub?_isSome_iff.mpr h.value
    rw [hkey, Option.bind_some, hvalue, Option.bind_some]
    exact ⟨_, rfl⟩

/-- Where the entries can be read, the bisections end with a place. -/
theorem bisect?_total {read : Nat → Option Bool} {n : Nat} (h : ∀ i < n, ∃ b, read i = some b)
    (fuel : Nat) {lo hi : Nat} (hhi : hi ≤ n) : ∃ i, bisect? read fuel lo hi = some i := by
  have hread : ∀ i, lo ≤ i → i < hi → read i = some ((read i).getD false) := by
    intro i _ hlt
    obtain ⟨b, hb⟩ := h i (by omega)
    rw [hb]
    rfl
  exact ⟨_, bisect?_eq fuel lo hi hread⟩

/-- A segment whose entries can all be read answers `get` and `prefixRange`. -/
theorem total_of_hitAt (h : ∀ i < sst.count, ∃ hit, sst.hitAt i = some hit) :
    (∀ key, ∃ found, sst.get key = some found) ∧ ∀ p, ∃ range, sst.prefixRange p = some range := by
  have hkey : ∀ i < sst.count, ∃ key, sst.keyAt i = some key := by
    intro i hi
    obtain ⟨hit, hhit⟩ := h i hi
    exact ⟨hit.key, keyAt_of_hitAt hhit⟩
  have hread : ∀ test : Bytes → Bool, ∀ i < sst.count, ∃ b, (sst.keyAt i).map test = some b := by
    intro test i hi
    obtain ⟨key, hget⟩ := hkey i hi
    rw [hget]
    exact ⟨_, rfl⟩
  have hlower : ∀ key, ∃ i, sst.lowerBound key = some i := fun key =>
    bisect?_total (hread fun k => decide (k < key)) _ (le_refl _)
  constructor
  · intro key
    obtain ⟨i, hi⟩ := hlower key
    rw [Sst.get, hi, Option.bind_eq_bind, Option.bind_some]
    split
    · exact ⟨none, rfl⟩
    rename_i hlt
    obtain ⟨found, hfound⟩ := hkey i (Nat.not_le.mp hlt)
    obtain ⟨hit, hhit⟩ := h i (Nat.not_le.mp hlt)
    rw [hfound, Option.bind_eq_bind, Option.bind_some]
    split
    · exact ⟨none, rfl⟩
    · rw [hhit]
      exact ⟨some hit, rfl⟩
  · intro p
    obtain ⟨lo, hlo⟩ := hlower p
    obtain ⟨hi, hhi⟩ := @bisect?_total _ _ (hread fun k => p.isPrefixOf k) sst.count lo _
      (le_refl sst.count)
    rw [Sst.prefixRange, hlo, Option.bind_eq_bind, Option.bind_some, hhi]
    exact ⟨(lo, hi), rfl⟩

/-- A refused file is not read any further. -/
theorem safe_of_refused {err : SstFault} (h : openSst bytes = .error err) (hno : err ≠ .trap) :
    Safe bytes where
  opens := by
    rw [h]
    exact fun htrap => hno (by injection htrap)
  hitAt sst hopen := by
    cases h.symm.trans hopen
  get sst hopen := by
    cases h.symm.trans hopen
  prefixRange sst hopen := by
    cases h.symm.trans hopen

/-- An open file is safe where all its entries can be read. -/
theorem safe_of_open (h : openSst bytes = .ok sst) (hsize : sst.count * indexEntrySize < 2 ^ 64) :
    Safe bytes ↔ ∀ i < sst.count, ∃ hit, sst.hitAt i = some hit := by
  constructor
  · intro hsafe i hi
    exact (hsafe.hitAt sst h i hi).2
  · intro hread
    have hsame : ∀ sst', openSst bytes = .ok sst' → sst' = sst := by
      intro sst' hopen
      rw [h] at hopen
      injection hopen with heq
      exact heq.symm
    refine ⟨by rw [h]; rintro ⟨⟩, ?_, ?_, ?_⟩
    · intro sst' hopen i hi
      obtain rfl := hsame sst' hopen
      exact ⟨lt_of_le_of_lt (Nat.mul_le_mul_right _ (le_of_lt hi)) hsize, hread i hi⟩
    · intro sst' hopen
      obtain rfl := hsame sst' hopen
      exact (total_of_hitAt hread).1
    · intro sst' hopen
      obtain rfl := hsame sst' hopen
      exact (total_of_hitAt hread).2

/-- **Which sorted strings are safe to serve.** -/
theorem safe_iff (bytes : Bytes) : Safe bytes ↔ (HeaderAccepted bytes → Sound bytes) := by
  by_cases hheader : HeaderAccepted bytes
  · rcases openSst_cases hheader with ⟨hover, hopen⟩ | ⟨hindex, hfits, hopen⟩ |
      ⟨hindex, hfits, hopen⟩
    · constructor
      · intro h
        exact absurd hopen h.opens
      · intro h
        have hlength := (h hheader).length
        have hplace := (h hheader).index
        omega
    · constructor
      · intro _ _
        exact ⟨by omega, hindex, fun h => absurd h hfits⟩
      · intro _
        exact safe_of_refused hopen (by decide)
    · have hlength : fileCount bytes * indexEntrySize < 2 ^ 64 := by omega
      rw [safe_of_open hopen hlength]
      constructor
      · intro h _
        exact ⟨hlength, hindex, fun _ i hi => (hitAt_isSome_iff hi hfits.index _).mp (h i hi)⟩
      · intro h i hi
        exact (hitAt_isSome_iff hi hfits.index _).mpr ((h hheader).entries hfits i hi)
  · obtain ⟨err, hno, hopen⟩ := openSst_refused hheader
    exact ⟨fun _ h => absurd h hheader, fun _ => safe_of_refused hopen hno⟩

end

end Sst

/-! ## Both formats -/

/-- **Frozen files of any content are safe to open and to read where the sums of the header and
the entries that a lookup can touch stay in their bounds**, and nowhere else. -/
theorem frozen_files_safe_iff (bytes : Bytes) :
    (Sst.Safe bytes ↔ (Sst.HeaderAccepted bytes → Sst.Sound bytes)) ∧
      (FrozenSegment.Safe bytes ↔ (FrozenSegment.HeaderAccepted bytes → FrozenSegment.Sound bytes)) :=
  ⟨Sst.safe_iff bytes, FrozenSegment.safe_iff bytes⟩

/-- A `.wsst` file with one entry, whose key lies behind the end of the file. -/
def strayKeyFile : Bytes :=
  Sst.magic ++ leBytes 4 1 ++ leBytes 4 0 ++ leBytes 8 1 ++ leBytes 8 64 ++ leBytes 8 88 ++
    leBytes 8 88 ++ leBytes 8 0 ++ leBytes 8 0 ++
    (leBytes 8 100 ++ leBytes 8 88 ++ leBytes 4 1 ++ leBytes 4 0)

/-- A `.wseg` file with one table of one key, whose value ends behind the last 64-bit number. -/
def strayValueFile : Bytes :=
  FrozenSegment.magic ++ leBytes 4 1 ++ leBytes 4 0 ++ leBytes 4 1 ++ leBytes 4 0 ++ leBytes 8 0 ++
    leBytes 8 0 ++
    (leBytes 4 3 ++ leBytes 4 20 ++ leBytes 8 1 ++ leBytes 8 88 ++ leBytes 8 20 ++
      leBytes 8 108 ++ leBytes 8 0) ++
    (leBytes 8 7 ++ leBytes 8 (2 ^ 64 - 1) ++ leBytes 4 1)

/-- **Both files are opened; the first lookup in either of them stops the program.** -/
theorem stray_entries_opened :
    (∃ sst, openSst strayKeyFile = .ok sst ∧ sst.get (ascii "k") = none ∧ sst.hitAt 0 = none) ∧
      ∃ seg, FrozenSegment.openSegment strayValueFile = some (.ok seg) ∧ seg.lookup 3 7 = none := by
  refine ⟨⟨⟨strayKeyFile, 1, slice strayKeyFile 64 24, 0⟩, by decide +kernel, by decide +kernel,
    by decide +kernel⟩, ?_⟩
  have hopen : FrozenSegment.openSegment strayValueFile = some (.ok ⟨strayValueFile, Function.update
      (fun _ => none) ⟨3, by decide⟩ (some ⟨1, slice strayValueFile 88 20, []⟩)⟩) := rfl
  refine ⟨_, hopen, ?_⟩
  have hsearch : FrozenSegment.Table.search ⟨1, slice strayValueFile 88 20, []⟩ 7 0 1 = none := by
    rw [FrozenSegment.Table.search]
    decide +kernel
  exact hsearch

end WormDB
