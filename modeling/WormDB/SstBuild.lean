import WormDB.Sst
import WormDB.SnapshotIo
import WormDB.ByteReader

/-! # Building a frozen segment from a snapshot

`buildFromSnapshot` reads the snapshot file four times through a buffer of 4 MiB: for
the sizes and the order of the keys, for the index, for the keys and for the values.
Opening files and allocating are taken to succeed, and the file to stay as it is.

What is written is `sstBytes` of the snapshot's entries (`buildFromSnapshot_sorted`),
and keys that are not strictly ascending end the first pass
(`buildFromSnapshot_unsorted`).  The index has one bit of the key length field for the
WORM flag, and nothing checks that the length leaves it free: the segment is faithful
exactly when no key has 2 GiB or more (`frozen_faithful_iff`). -/
namespace WormDB
open List ByteCodec BufferedIo
open Sst (headerSize indexEntrySize magic rd sub? version wormBit)

namespace SstBuild

/-- `BUILD_BUF_SIZE`. -/
def bufSize : Nat := 4 * 2 ^ 20

theorem bufSize_pos : 0 < bufSize := by decide

/-! ## The passes -/

/-- `SnapReader.readAll` of a whole field. -/
def readField (r : Reader) (n : Nat) : Except SstFault (Bytes × Reader) :=
  let (bytes, r') := r.readAll bufSize false n
  if bytes.length ≠ n then .error .snapshotCorrupt else .ok (bytes, r')

/-- `SnapReader.skip`. -/
def skip (r : Reader) (n : Nat) : Except SstFault Reader :=
  match r.skip bufSize n with
  | none => .error .snapshotCorrupt
  | some r' => .ok r'

/-- The number of entries that the header announces. -/
def openSnapshot (r : Reader) : Except SstFault (Nat × Reader) := do
  let (magic, r) ← readField r 8
  if magic ≠ snapshotMagic then .error .snapshotBadMagic
  else do
    let (v, r) ← readField r 4
    if leNat v ≠ 1 ∧ leNat v ≠ 2 then .error .snapshotBadVersion
    else do
      let (c, r) ← readField r 8
      return (leNat c, r)

structure EntryHeader where
  keyLen : Nat
  valLen : Nat
  isWorm : Bool

def readEntryHeader (r : Reader) : Except SstFault (EntryHeader × Reader) := do
  let (h, r) ← readField r snapshotHeaderLen
  return (⟨leNat (slice h 0 4), leNat (slice h 4 4), h.getD 8 0 &&& 1 ≠ 0⟩, r)

/-- Count and arena sizes. -/
structure Totals where
  total : Nat
  keyBytes : Nat
  valBytes : Nat

/-- Pass 1; `prev` is the previous key, if there is one. -/
def measure : Nat → Bytes → Totals → Reader → Except SstFault Totals
  | 0, _, t, _ => .ok t
  | count + 1, prev, t, r => do
      let (eh, r) ← readEntryHeader r
      let (key, r) ← readField r eh.keyLen
      let r ← skip r eh.valLen
      if 0 < t.total ∧ ¬ prev < key then .error .sstUnsorted
      else measure count key ⟨t.total + 1, t.keyBytes + eh.keyLen, t.valBytes + eh.valLen⟩ r

/-- One entry of the index; the flag is put over the top bit of the length. -/
def indexEntry (keyCursor valCursor : Nat) (eh : EntryHeader) : Bytes :=
  leBytes 8 keyCursor ++ leBytes 8 valCursor ++
    leBytes 4 (eh.keyLen ||| (if eh.isWorm then wormBit else 0)) ++ leBytes 4 eh.valLen

/-- Pass 2. -/
def indexPass : Nat → Nat → Nat → Reader → Writer → Except SstFault Writer
  | 0, _, _, _, w => .ok w
  | count + 1, keyCursor, valCursor, r, w => do
      let (eh, r) ← readEntryHeader r
      let r ← skip r (eh.keyLen + eh.valLen)
      indexPass count (keyCursor + eh.keyLen) (valCursor + eh.valLen) r
        (w.writeAll bufSize (indexEntry keyCursor valCursor eh))

inductive Region where
  | keys | vals

/-- Passes 3 and 4. -/
def arenaPass (region : Region) : Nat → Reader → Writer → Except SstFault Writer
  | 0, _, w => .ok w
  | count + 1, r, w => do
      let (eh, r) ← readEntryHeader r
      match region with
      | .keys => do
          let (key, r) ← readField r eh.keyLen
          let r ← skip r eh.valLen
          arenaPass region count r (w.writeAll bufSize key)
      | .vals => do
          let r ← skip r eh.keyLen
          let (value, r) ← readField r eh.valLen
          arenaPass region count r (w.writeAll bufSize value)

/-- The header; the bytes that no field takes are zero. -/
def header (total keysOff valsOff : Nat) (timestamp : UInt64) : Bytes :=
  magic ++ leBytes 4 version ++ leBytes 4 0 ++ leBytes 8 total ++
    leBytes 8 headerSize ++ leBytes 8 keysOff ++ leBytes 8 valsOff ++
    leBytes 8 timestamp.toNat ++ leBytes 8 0

structure BuildStats where
  count : Nat
  keyBytes : Nat
  valBytes : Nat
  fileBytes : Nat

/-- The segment file and its sizes; the sums of the sizes are of 64 bits and checked. -/
def buildFromSnapshot (file : Bytes) (timestamp : UInt64) :
    Except SstFault (Bytes × BuildStats) := do
  let (count, r) ← openSnapshot (.start file)
  let t ← measure count [] ⟨0, 0, 0⟩ r
  let keysOff := headerSize + t.total * indexEntrySize
  let valsOff := keysOff + t.keyBytes
  let fileBytes := valsOff + t.valBytes
  if 2 ^ 64 ≤ fileBytes then .error .trap
  else do
    let w := Writer.start.writeAll bufSize (header t.total keysOff valsOff timestamp)
    let (_, r) ← openSnapshot (.start file)
    let w ← indexPass t.total keysOff valsOff r w
    let (_, r) ← openSnapshot (.start file)
    let w ← arenaPass .keys t.total r w
    let (_, r) ← openSnapshot (.start file)
    let w ← arenaPass .vals t.total r w
    return (w.flush.file, ⟨t.total, t.keyBytes, t.valBytes, fileBytes⟩)

end SstBuild

/-! ## Snapshot files -/

/-- An entry as the snapshot file has it. -/
def Entry.record (e : Entry) : Bytes := e.snapshotHeader ++ e.key ++ e.value

/-- A snapshot file: its entries in any order, and what follows them.  Lengths fit
their fields and the file fits the 63-bit file offsets. -/
structure SnapshotFile where
  version : Nat
  entries : List Entry
  trailer : Bytes
  known : version = 1 ∨ version = 2
  lengths : ∀ e ∈ entries, e.key.length < 2 ^ 32 ∧ e.value.length < 2 ^ 32
  size : (snapshotMagic ++ leBytes 4 version ++ leBytes 8 entries.length ++
    entries.flatMap Entry.record ++ trailer).length < 2 ^ 63

namespace SnapshotFile

def bytes (f : SnapshotFile) : Bytes :=
  snapshotMagic ++ leBytes 4 f.version ++ leBytes 8 f.entries.length ++
    f.entries.flatMap Entry.record ++ f.trailer

/-- The keys are in strictly ascending order. -/
def Ascending (f : SnapshotFile) : Prop := OrderedIndex.Ascending Entry.key f.entries

end SnapshotFile

namespace SstBuild

/-! ## Reading the snapshot back -/

variable {r : Reader} {xs rest : Bytes} {n : Nat}

theorem readField_append (h : r.contents = xs ++ rest)
    (hlen : xs.length = n) : ∃ r', readField r n = .ok (xs, r') ∧ r'.contents = rest := by
  obtain ⟨hbytes, hrest⟩ := readAll_spec bufSize_pos false r n
  rw [h, ← hlen, take_left] at hbytes
  rw [h, ← hlen, drop_left] at hrest
  rw [readField, ← hlen]
  generalize r.readAll bufSize false xs.length = result at hbytes hrest ⊢
  obtain ⟨bytes, r'⟩ := result
  obtain rfl : bytes = xs := hbytes
  exact ⟨r', by simp, hrest⟩

theorem skip_append (h : r.contents = xs ++ rest)
    (hlen : xs.length = n) : ∃ r', skip r n = .ok r' ∧ r'.contents = rest := by
  have hskip := skip_spec bufSize_pos r n
  rw [h, if_pos (by rw [length_append]; omega), ← hlen, drop_left] at hskip
  obtain ⟨r', hr', hrest⟩ := Option.map_eq_some_iff.mp hskip
  exact ⟨r', by rw [skip, ← hlen, hr'], hrest⟩

theorem openSnapshot_bytes (f : SnapshotFile) :
    ∃ r, openSnapshot (.start f.bytes) = .ok (f.entries.length, r) ∧
      r.contents = f.entries.flatMap Entry.record ++ f.trailer := by
  have hcount : f.entries.length < 256 ^ 8 := by
    have hsize := f.size
    have hlen : f.entries.length ≤ (f.entries.flatMap Entry.record).length := by
      generalize f.entries = es
      induction es with
      | nil => simp
      | cons e es ih =>
        rw [flatMap_cons, length_append, length_cons]
        have hrec : 17 ≤ e.record.length := by
          simp [Entry.record, Entry.snapshotHeader]
          omega
        omega
    simp only [length_append] at hsize
    omega
  have hversion : f.version < 256 ^ 4 := by
    rcases f.known with h | h <;> rw [h] <;> decide
  have hstart : (Reader.start f.bytes).contents = snapshotMagic ++ (leBytes 4 f.version ++
      (leBytes 8 f.entries.length ++ (f.entries.flatMap Entry.record ++ f.trailer))) := by
    simp [Reader.start, Reader.contents, SnapshotFile.bytes]
  obtain ⟨r₁, hmagic, h₁⟩ := readField_append hstart (show snapshotMagic.length = 8 by decide)
  obtain ⟨r₂, hv, h₂⟩ := readField_append h₁ (leBytes_length 4 f.version)
  obtain ⟨r₃, hc, h₃⟩ := readField_append h₂ (leBytes_length 8 f.entries.length)
  refine ⟨r₃, ?_, h₃⟩
  have hknown : ¬ (f.version ≠ 1 ∧ f.version ≠ 2) := by
    rcases f.known with h | h <;> simp [h]
  simp only [openSnapshot, hmagic, hv, hc, ByteReader.ok_bind, ne_eq, not_true_eq_false, if_false,
    leNat_leBytes_of_lt hversion, leNat_leBytes_of_lt hcount, if_neg hknown]
  rfl

/-- The header of an entry. -/
def entryHeader (e : Entry) : EntryHeader := ⟨e.key.length, e.value.length, e.flags.isWorm⟩

theorem toByte_and_one (flags : EntryFlags) : (flags.toByte &&& 1 ≠ 0) ↔ flags.isWorm = true := by
  obtain ⟨worm, deleted, arena, reserved⟩ := flags
  revert worm deleted arena reserved
  decide

variable {e : Entry}

theorem readEntryHeader_append (h : r.contents = e.snapshotHeader ++ rest)
    (hfit : e.key.length < 2 ^ 32 ∧ e.value.length < 2 ^ 32) :
    ∃ r', readEntryHeader r = .ok (entryHeader e, r') ∧ r'.contents = rest := by
  obtain ⟨hk, hv⟩ := hfit
  obtain ⟨r', hread, hrest⟩ := readField_append h
    (show e.snapshotHeader.length = snapshotHeaderLen by
      simp [Entry.snapshotHeader, snapshotHeaderLen])
  refine ⟨r', ?_, hrest⟩
  have hkeyLen : slice e.snapshotHeader 0 4 = leBytes 4 e.key.length :=
    slice_eq [] _ (leBytes 4 e.value.length ++ [e.flags.toByte] ++ leBytes 8 e.timestamp.toNat)
      (by simp [Entry.snapshotHeader]) rfl (by simp)
  have hvalLen : slice e.snapshotHeader 4 4 = leBytes 4 e.value.length :=
    slice_eq (leBytes 4 e.key.length) _ ([e.flags.toByte] ++ leBytes 8 e.timestamp.toNat)
      (by simp [Entry.snapshotHeader]) (by simp) (by simp)
  have hflags : e.snapshotHeader.getD 8 0 = e.flags.toByte :=
    getD_eq (leBytes 4 e.key.length ++ leBytes 4 e.value.length) (leBytes 8 e.timestamp.toNat)
      (by simp [Entry.snapshotHeader]) (by simp)
  rw [readEntryHeader, hread, ByteReader.ok_bind]
  simp only [hkeyLen, hvalLen, hflags, leNat_leBytes_of_lt (w := 4) hk,
    leNat_leBytes_of_lt (w := 4) hv, toByte_and_one, Bool.decide_eq_true]
  rfl

/-- The keys one after the other, and the values. -/
def keyArena (es : List Entry) : Bytes := es.flatMap Entry.key
def valArena (es : List Entry) : Bytes := es.flatMap Entry.value

theorem record_append (e : Entry) (es : List Entry) (rest : Bytes) :
    (e :: es).flatMap Entry.record ++ rest =
      e.snapshotHeader ++ (e.key ++ (e.value ++ (es.flatMap Entry.record ++ rest))) := by
  simp [Entry.record]

theorem records_length (es : List Entry) : (es.flatMap Entry.record).length =
    17 * es.length + (keyArena es).length + (valArena es).length := by
  induction es with
  | nil => rfl
  | cons e es ih =>
    rw [flatMap_cons, length_append, ih]
    simp only [keyArena, valArena, flatMap_cons, length_append, Entry.record,
      Entry.snapshotHeader, leBytes_length, length_cons, length_nil]
    omega

section
variable {es : List Entry} {rest : Bytes} {r : Reader}

/-- One turn of pass 1. -/
theorem measure_cons (hfit : e.key.length < 2 ^ 32 ∧ e.value.length < 2 ^ 32)
    (h : r.contents = (e :: es).flatMap Entry.record ++ rest) (count : Nat) (prev : Bytes)
    (t : Totals) : ∃ r', r'.contents = es.flatMap Entry.record ++ rest ∧
      measure (count + 1) prev t r = if 0 < t.total ∧ ¬ prev < e.key then .error .sstUnsorted
        else measure count e.key
          ⟨t.total + 1, t.keyBytes + e.key.length, t.valBytes + e.value.length⟩ r' := by
  rw [record_append] at h
  obtain ⟨r₁, hheader, h₁⟩ := readEntryHeader_append h hfit
  obtain ⟨r₂, hkey, h₂⟩ := readField_append h₁ rfl
  obtain ⟨r₃, hskip, h₃⟩ := skip_append h₂ rfl
  refine ⟨r₃, h₃, ?_⟩
  simp only [measure, hheader, ByteReader.ok_bind, entryHeader, hkey, hskip]

/-- **Pass 1** adds up the sizes of ascending keys and stops at others. -/
theorem measure_spec (hfit : ∀ e ∈ es, e.key.length < 2 ^ 32 ∧ e.value.length < 2 ^ 32)
    (h : r.contents = es.flatMap Entry.record ++ rest) (prev : Bytes) (t : Totals) :
    (List.IsChain (· < ·) ((if 0 < t.total then [prev] else []) ++ es.map Entry.key) →
      measure es.length prev t r = .ok ⟨t.total + es.length,
        t.keyBytes + (keyArena es).length, t.valBytes + (valArena es).length⟩) ∧
    (¬ List.IsChain (· < ·) ((if 0 < t.total then [prev] else []) ++ es.map Entry.key) →
      measure es.length prev t r = .error .sstUnsorted) := by
  induction es generalizing r prev t with
  | nil =>
    refine ⟨fun _ => rfl, fun hnot => absurd ?_ hnot⟩
    split <;> simp
  | cons e es ih =>
    obtain ⟨he, hes⟩ := forall_mem_cons.mp hfit
    obtain ⟨r', hr', hturn⟩ := measure_cons he h es.length prev t
    obtain ⟨hok, herr⟩ := ih hes hr' e.key
      ⟨t.total + 1, t.keyBytes + e.key.length, t.valBytes + e.value.length⟩
    rw [if_pos (Nat.succ_pos _)] at hok herr
    rw [length_cons, hturn]
    -- the chain goes on from the new key, and the first link is the test of this turn
    have hchain : List.IsChain (· < ·) ((if 0 < t.total then [prev] else []) ++
        (e :: es).map Entry.key) ↔ ¬ (0 < t.total ∧ ¬ prev < e.key) ∧
        List.IsChain (· < ·) ([e.key] ++ es.map Entry.key) := by
      by_cases htotal : 0 < t.total
      · rw [if_pos htotal, map_cons, singleton_append, isChain_cons_cons,
          singleton_append]
        simp [htotal]
      · rw [if_neg htotal, nil_append, map_cons, singleton_append]
        simp [htotal]
    rw [hchain]
    constructor
    · rintro ⟨htest, hrest⟩
      rw [if_neg htest, hok hrest]
      simp only [keyArena, valArena, flatMap_cons, length_append]
      congr 2 <;> omega
    · intro hnot
      by_cases htest : 0 < t.total ∧ ¬ prev < e.key
      · rw [if_pos htest]
      · rw [if_neg htest]
        exact herr (fun hrest => hnot ⟨htest, hrest⟩)

/-- The index of entries whose arenas start at the cursors. -/
def indexEntries : Nat → Nat → List Entry → List Bytes
  | _, _, [] => []
  | keyCursor, valCursor, e :: es =>
      indexEntry keyCursor valCursor (entryHeader e) ::
        indexEntries (keyCursor + e.key.length) (valCursor + e.value.length) es

theorem indexPass_spec (hfit : ∀ e ∈ es, e.key.length < 2 ^ 32 ∧ e.value.length < 2 ^ 32)
    (h : r.contents = es.flatMap Entry.record ++ rest) (keyCursor valCursor : Nat) (w : Writer) :
    ∃ w', indexPass es.length keyCursor valCursor r w = .ok w' ∧
      w'.contents = w.contents ++ (indexEntries keyCursor valCursor es).flatten := by
  induction es generalizing r keyCursor valCursor w with
  | nil => exact ⟨w, rfl, by simp [indexEntries]⟩
  | cons e es ih =>
    obtain ⟨he, hes⟩ := forall_mem_cons.mp hfit
    rw [record_append] at h
    obtain ⟨r₁, hheader, h₁⟩ := readEntryHeader_append h he
    rw [← append_assoc] at h₁
    obtain ⟨r₂, hskip, h₂⟩ := skip_append h₁ (length_append ..)
    obtain ⟨w', hpass, hw'⟩ := ih hes h₂ (keyCursor + e.key.length) (valCursor + e.value.length)
      (w.writeAll bufSize (indexEntry keyCursor valCursor (entryHeader e)))
    refine ⟨w', ?_, ?_⟩
    · rw [length_cons, indexPass, hheader, ByteReader.ok_bind]
      simp only [show (entryHeader e).keyLen = e.key.length from rfl,
        show (entryHeader e).valLen = e.value.length from rfl, hskip, ByteReader.ok_bind]
      exact hpass
    · rw [hw', contents_writeAll, indexEntries, flatten_cons, append_assoc]

/-- The bytes that a region takes from an entry. -/
def Region.part : Region → Entry → Bytes
  | .keys => Entry.key
  | .vals => Entry.value

theorem arenaPass_spec (hfit : ∀ e ∈ es, e.key.length < 2 ^ 32 ∧ e.value.length < 2 ^ 32)
    (h : r.contents = es.flatMap Entry.record ++ rest) (region : Region) (w : Writer) :
    ∃ w', arenaPass region es.length r w = .ok w' ∧
      w'.contents = w.contents ++ es.flatMap region.part := by
  induction es generalizing r w with
  | nil => exact ⟨w, rfl, by simp⟩
  | cons e es ih =>
    obtain ⟨he, hes⟩ := forall_mem_cons.mp hfit
    rw [record_append] at h
    obtain ⟨r₁, hheader, h₁⟩ := readEntryHeader_append h he
    cases region with
    | keys =>
      obtain ⟨r₂, hkey, h₂⟩ := readField_append h₁ rfl
      obtain ⟨r₃, hskip, h₃⟩ := skip_append h₂ rfl
      obtain ⟨w', hpass, hw'⟩ := ih hes h₃ (w.writeAll bufSize e.key)
      refine ⟨w', ?_, ?_⟩
      · simp only [length_cons, arenaPass, hheader, ByteReader.ok_bind, entryHeader, hkey,
          hskip]
        exact hpass
      · rw [hw', contents_writeAll, flatMap_cons, append_assoc]
        rfl
    | vals =>
      obtain ⟨r₂, hskip, h₂⟩ := skip_append h₁ rfl
      obtain ⟨r₃, hvalue, h₃⟩ := readField_append h₂ rfl
      obtain ⟨w', hpass, hw'⟩ := ih hes h₃ (w.writeAll bufSize e.value)
      refine ⟨w', ?_, ?_⟩
      · simp only [length_cons, arenaPass, hheader, ByteReader.ok_bind, entryHeader, hskip,
          hvalue]
        exact hpass
      · rw [hw', contents_writeAll, flatMap_cons, append_assoc]
        rfl

end

/-! ## The file that is built -/

def keysOff (es : List Entry) : Nat := headerSize + es.length * indexEntrySize
def valsOff (es : List Entry) : Nat := keysOff es + (keyArena es).length

/-- The segment file of a list of entries. -/
def sstBytes (es : List Entry) (timestamp : UInt64) : Bytes :=
  header es.length (keysOff es) (valsOff es) timestamp ++
    ((indexEntries (keysOff es) (valsOff es) es).flatten ++ (keyArena es ++ valArena es))

/-- The sizes of the segment fit 64 bits, since those of the snapshot fit 63. -/
theorem size_lt (f : SnapshotFile) :
    valsOff f.entries + (valArena f.entries).length < 2 ^ 64 := by
  have hsize := f.size
  have hrecords := records_length f.entries
  simp only [length_append, leBytes_length] at hsize
  rw [valsOff, keysOff, headerSize, indexEntrySize]
  omega

theorem isChain_iff (f : SnapshotFile) :
    List.IsChain (· < ·) ((if 0 < (⟨0, 0, 0⟩ : Totals).total then [[]] else []) ++
      f.entries.map Entry.key) ↔ f.Ascending := by
  rw [if_neg (lt_irrefl 0), nil_append, isChain_iff_pairwise, pairwise_map]
  rfl

/-- **Ascending keys**: what is built is `sstBytes`. -/
theorem buildFromSnapshot_sorted (f : SnapshotFile) (hsorted : f.Ascending) (timestamp : UInt64) :
    ∃ stats, buildFromSnapshot f.bytes timestamp = .ok (sstBytes f.entries timestamp, stats) := by
  obtain ⟨r, hopen, hr⟩ := openSnapshot_bytes f
  have hmeasure := (measure_spec f.lengths hr [] ⟨0, 0, 0⟩).1 ((isChain_iff f).mpr hsorted)
  simp only [zero_add] at hmeasure
  have hsize := size_lt f
  obtain ⟨w₁, hindex, hw₁⟩ := indexPass_spec f.lengths hr (keysOff f.entries) (valsOff f.entries)
    (Writer.start.writeAll bufSize
      (header f.entries.length (keysOff f.entries) (valsOff f.entries) timestamp))
  obtain ⟨w₂, hkeys, hw₂⟩ := arenaPass_spec f.lengths hr .keys w₁
  obtain ⟨w₃, hvals, hw₃⟩ := arenaPass_spec f.lengths hr .vals w₂
  refine ⟨⟨f.entries.length, (keyArena f.entries).length, (valArena f.entries).length,
    valsOff f.entries + (valArena f.entries).length⟩, ?_⟩
  have hfile : w₃.flush.file = sstBytes f.entries timestamp := by
    rw [file_flush, hw₃, hw₂, hw₁, contents_writeAll, sstBytes]
    simp [Writer.start, Writer.contents, keyArena, valArena, Region.part]
  rw [← hfile]
  unfold valsOff keysOff at hsize hindex
  simp only [buildFromSnapshot, hopen, ByteReader.ok_bind, hmeasure, if_neg (Nat.not_le.mpr hsize),
    hindex, hkeys, hvals]
  rfl

/-- **Other keys** are rejected. -/
theorem buildFromSnapshot_unsorted (f : SnapshotFile) (hunsorted : ¬ f.Ascending)
    (timestamp : UInt64) : buildFromSnapshot f.bytes timestamp = .error .sstUnsorted := by
  obtain ⟨r, hopen, hr⟩ := openSnapshot_bytes f
  have hmeasure := (measure_spec f.lengths hr [] ⟨0, 0, 0⟩).2
    (fun hchain => hunsorted ((isChain_iff f).mp hchain))
  simp only [buildFromSnapshot, hopen, ByteReader.ok_bind, hmeasure]
  rfl

/-! ## Opening it -/

variable {bs : Bytes} {pos : Nat}

theorem sub?_eq {len : Nat} (pre mid post : Bytes)
    (h : bs = pre ++ (mid ++ post)) (hpos : pre.length = pos) (hlen : mid.length = len) :
    sub? bs pos len = some mid := by
  rw [sub?, slice_eq pre mid post h hpos hlen, if_pos]
  rw [h, length_append, length_append]
  omega

theorem rd_eq {w : Nat} (pre post : Bytes)
    (h : bs = pre ++ (leBytes w n ++ post)) (hpos : pre.length = pos) (hn : n < 256 ^ w) :
    rd w bs pos = some n := by
  rw [rd, sub?_eq pre _ post h hpos (leBytes_length w n), Option.map_some,
    leNat_leBytes_of_lt hn]

theorem indexEntries_length (keyCursor valCursor : Nat) (es : List Entry) :
    (indexEntries keyCursor valCursor es).flatten.length = es.length * indexEntrySize := by
  induction es generalizing keyCursor valCursor with
  | nil => rfl
  | cons e es ih =>
    rw [indexEntries, flatten_cons, length_append, ih, length_cons, indexEntry,
      indexEntrySize]
    simp only [length_append, leBytes_length]
    omega

/-- The index, cut at one of its entries. -/
theorem indexEntries_split (keyCursor valCursor : Nat) (as : List Entry) (e : Entry)
    (bs : List Entry) : ∃ pre post, pre.length = as.length * indexEntrySize ∧
      (indexEntries keyCursor valCursor (as ++ e :: bs)).flatten =
        pre ++ (indexEntry (keyCursor + (keyArena as).length) (valCursor + (valArena as).length)
          (entryHeader e) ++ post) := by
  induction as generalizing keyCursor valCursor with
  | nil => exact ⟨[], _, rfl, rfl⟩
  | cons a as ih =>
    obtain ⟨pre, post, hlen, hsplit⟩ :=
      ih (keyCursor + a.key.length) (valCursor + a.value.length)
    refine ⟨indexEntry keyCursor valCursor (entryHeader a) ++ pre, post, ?_, ?_⟩
    · rw [length_append, hlen, length_cons, indexEntry, indexEntrySize]
      simp only [length_append, leBytes_length]
      omega
    · rw [cons_append, indexEntries, flatten_cons, hsplit, append_assoc]
      simp only [keyArena, valArena, flatMap_cons, length_append, add_assoc]

/-- The fields of an index entry, each read back from its place. -/
theorem indexEntry_fields {index pre post : Bytes} {keyCursor valCursor : Nat}
    (h : index = pre ++ (indexEntry keyCursor valCursor (entryHeader e) ++ post))
    (hpos : pre.length = pos) (hkeyCursor : keyCursor < 256 ^ 8) (hvalCursor : valCursor < 256 ^ 8)
    (hkeyLen : e.key.length ||| (if e.flags.isWorm then wormBit else 0) < 256 ^ 4)
    (hvalLen : e.value.length < 256 ^ 4) :
    rd 8 index pos = some keyCursor ∧ rd 8 index (pos + 8) = some valCursor ∧
      rd 4 index (pos + 16) =
        some (e.key.length ||| (if e.flags.isWorm then wormBit else 0)) ∧
      rd 4 index (pos + 20) = some e.value.length := by
  refine ⟨?_, ?_, ?_, ?_⟩
  · exact rd_eq pre _ (by rw [h]; simp only [indexEntry, append_assoc]; rfl) hpos hkeyCursor
  · exact rd_eq (pre ++ leBytes 8 keyCursor) _
      (by rw [h]; simp only [indexEntry, append_assoc]; rfl) (by simp [hpos]) hvalCursor
  · exact rd_eq (pre ++ leBytes 8 keyCursor ++ leBytes 8 valCursor) _
      (by rw [h]; simp only [indexEntry, append_assoc]; rfl) (by simp [hpos]) hkeyLen
  · exact rd_eq (pre ++ leBytes 8 keyCursor ++ leBytes 8 valCursor ++
      leBytes 4 (e.key.length ||| (if e.flags.isWorm then wormBit else 0))) _
      (by rw [h]; simp only [indexEntry, append_assoc]; rfl) (by simp [hpos]) hvalLen

/-- The key length field: below 2 GiB the flag and the length come apart again. -/
theorem keyLenField (hn : n < 2 ^ 31) (worm : Bool) :
    (n ||| (if worm then wormBit else 0)) < 256 ^ 4 ∧
      (n ||| (if worm then wormBit else 0)) &&& Sst.keyLenMask = n ∧
      ((n ||| (if worm then wormBit else 0)) &&& wormBit ≠ 0 ↔ worm = true) := by
  rw [Sst.keyLenMask, Nat.and_two_pow_sub_one_eq_mod, wormBit, Nat.and_two_pow]
  cases worm with
  | true =>
    have hor : n ||| 2 ^ 31 = 2 ^ 31 + n := by
      have h := Nat.two_pow_add_eq_or_of_lt hn 1
      rw [mul_one] at h
      rw [h, Nat.or_comm]
    have hbit : (2 ^ 31 + n).testBit 31 = true := by
      rw [Nat.testBit_two_pow_add_eq, Nat.testBit_lt_two_pow hn]
      rfl
    rw [if_pos rfl, hor, hbit]
    refine ⟨by omega, by omega, by simp⟩
  | false =>
    rw [if_neg (by decide), Nat.or_zero, Nat.testBit_lt_two_pow hn]
    refine ⟨by omega, by omega, by simp⟩

/-- The hits of a list of entries. -/
def hitsOf (es : List Entry) (timestamp : UInt64) : List Hit :=
  es.map (fun e => ⟨e.key, e.value, timestamp, e.flags.isWorm⟩)

section
variable {es : List Entry} (timestamp : UInt64)

theorem header_length (total keysOff valsOff : Nat) :
    (header total keysOff valsOff timestamp).length = headerSize := by
  simp only [header, length_append, leBytes_length]
  rfl

/-- The fields of the header, each read back from its place. -/
theorem header_slices (total keysOff valsOff : Nat) (tail : Bytes) :
    slice (header total keysOff valsOff timestamp ++ tail) 0 8 = magic ∧
    slice (header total keysOff valsOff timestamp ++ tail) 8 4 = leBytes 4 version ∧
    slice (header total keysOff valsOff timestamp ++ tail) 16 8 = leBytes 8 total ∧
    slice (header total keysOff valsOff timestamp ++ tail) 24 8 = leBytes 8 headerSize ∧
    slice (header total keysOff valsOff timestamp ++ tail) 32 8 = leBytes 8 keysOff ∧
    slice (header total keysOff valsOff timestamp ++ tail) 40 8 = leBytes 8 valsOff ∧
    slice (header total keysOff valsOff timestamp ++ tail) 48 8 = leBytes 8 timestamp.toNat := by
  generalize hbytes : header total keysOff valsOff timestamp ++ tail = bytes
  have hfields : bytes = magic ++ (leBytes 4 version ++ (leBytes 4 0 ++
      (leBytes 8 total ++ (leBytes 8 headerSize ++ (leBytes 8 keysOff ++
      (leBytes 8 valsOff ++ (leBytes 8 timestamp.toNat ++ (leBytes 8 0 ++ tail)))))))) := by
    rw [← hbytes]
    simp [header]
  have hmagicLen : magic.length = 8 := by decide
  -- every field lies behind the ones written before it
  refine ⟨?_, ?_, ?_, ?_, ?_, ?_, ?_⟩
  · exact slice_eq [] _ _ hfields rfl hmagicLen
  · exact slice_eq magic _ _ hfields hmagicLen (leBytes_length _ _)
  · exact slice_eq (magic ++ leBytes 4 version ++ leBytes 4 0) _ _
      (by rw [hfields]; simp only [append_assoc]; rfl) (by simp [hmagicLen])
      (leBytes_length _ _)
  · exact slice_eq (magic ++ leBytes 4 version ++ leBytes 4 0 ++ leBytes 8 total) _ _
      (by rw [hfields]; simp only [append_assoc]; rfl) (by simp [hmagicLen])
      (leBytes_length _ _)
  · exact slice_eq (magic ++ leBytes 4 version ++ leBytes 4 0 ++ leBytes 8 total ++
      leBytes 8 headerSize) _ _
      (by rw [hfields]; simp only [append_assoc]; rfl) (by simp [hmagicLen])
      (leBytes_length _ _)
  · exact slice_eq (magic ++ leBytes 4 version ++ leBytes 4 0 ++ leBytes 8 total ++
      leBytes 8 headerSize ++ leBytes 8 keysOff) _ _
      (by rw [hfields]; simp only [append_assoc]; rfl) (by simp [hmagicLen])
      (leBytes_length _ _)
  · exact slice_eq (magic ++ leBytes 4 version ++ leBytes 4 0 ++ leBytes 8 total ++
      leBytes 8 headerSize ++ leBytes 8 keysOff ++ leBytes 8 valsOff) _ _
      (by rw [hfields]; simp only [append_assoc]; rfl) (by simp [hmagicLen])
      (leBytes_length _ _)

/-- **What was built can be opened.** -/
theorem openSst_sstBytes (hsize : valsOff es + (valArena es).length < 2 ^ 64) :
    openSst (sstBytes es timestamp) = .ok ⟨sstBytes es timestamp, es.length,
      (indexEntries (keysOff es) (valsOff es) es).flatten, timestamp⟩ := by
  have hlen : (sstBytes es timestamp).length = valsOff es + (valArena es).length := by
    rw [sstBytes, length_append, header_length, length_append, indexEntries_length,
      length_append, valsOff, keysOff]
    omega
  have hindex : slice (sstBytes es timestamp) headerSize (es.length * indexEntrySize) =
      (indexEntries (keysOff es) (valsOff es) es).flatten :=
    slice_eq (header es.length (keysOff es) (valsOff es) timestamp) _ (keyArena es ++ valArena es)
      rfl (header_length timestamp _ _ _) (indexEntries_length _ _ es)
  have hkeys : keysOff es ≤ valsOff es := Nat.le_add_right _ _
  have hoff : headerSize + es.length * indexEntrySize = keysOff es := rfl
  have hcount : es.length < 256 ^ 8 := by
    rw [keysOff, headerSize, indexEntrySize] at hkeys
    omega
  have htime64 : timestamp.toNat < 256 ^ 8 := timestamp.toNat_lt
  obtain ⟨hmagic, hversion, htotal, hindexOff, hkeysOff, hvalsOff, htime⟩ :=
    header_slices timestamp es.length (keysOff es) (valsOff es)
      ((indexEntries (keysOff es) (valsOff es) es).flatten ++ (keyArena es ++ valArena es))
  rw [← sstBytes] at hmagic hversion htotal hindexOff hkeysOff hvalsOff htime
  rw [openSst, if_neg, if_neg, hmagic, hversion, htotal, hindexOff, hkeysOff, hvalsOff, htime,
    leNat_leBytes_of_lt hcount, leNat_leBytes_of_lt (show headerSize < 256 ^ 8 by decide),
    leNat_leBytes_of_lt (show keysOff es < 256 ^ 8 by omega),
    leNat_leBytes_of_lt (show valsOff es < 256 ^ 8 by omega), leNat_leBytes_of_lt htime64,
    leNat_leBytes_of_lt (show version < 256 ^ 4 by decide)]
  · simp only [ne_eq, not_true_eq_false, if_false]
    rw [if_neg (by omega), if_neg (by omega), if_neg (by omega), hindex, Wal.toUInt64_toNat]
  · rw [hlen]
    unfold keysOff at hkeys
    omega
  · rw [hlen]
    unfold keysOff headerSize at hkeys
    omega

/-- **Reading an entry back**, where its key leaves the top bit of the field free. -/
theorem hitAt_sstBytes {as bs : List Entry}
    (hsize : valsOff (as ++ e :: bs) + (valArena (as ++ e :: bs)).length < 2 ^ 64)
    (hkey : e.key.length < 2 ^ 31) (hvalue : e.value.length < 2 ^ 32) :
    (⟨sstBytes (as ++ e :: bs) timestamp, (as ++ e :: bs).length,
      (indexEntries (keysOff (as ++ e :: bs)) (valsOff (as ++ e :: bs)) (as ++ e :: bs)).flatten,
      timestamp⟩ : Sst).hitAt as.length = some ⟨e.key, e.value, timestamp, e.flags.isWorm⟩ := by
  obtain ⟨hfield, hmask, hworm⟩ := keyLenField hkey e.flags.isWorm
  have hkeysArena : keyArena (as ++ e :: bs) = keyArena as ++ (e.key ++ keyArena bs) := by
    simp [keyArena]
  have hvalsArena : valArena (as ++ e :: bs) = valArena as ++ (e.value ++ valArena bs) := by
    simp [valArena]
  have hle : valsOff (as ++ e :: bs) = keysOff (as ++ e :: bs) +
      ((keyArena as).length + (e.key.length + (keyArena bs).length)) := by
    rw [valsOff, hkeysArena, length_append, length_append]
  have hvalsLen : (valArena (as ++ e :: bs)).length =
      (valArena as).length + (e.value.length + (valArena bs).length) := by
    rw [hvalsArena, length_append, length_append]
  obtain ⟨pre, post, hpre, hsplit⟩ :=
    indexEntries_split (keysOff (as ++ e :: bs)) (valsOff (as ++ e :: bs)) as e bs
  have hhead := header_length timestamp (as ++ e :: bs).length (keysOff (as ++ e :: bs))
    (valsOff (as ++ e :: bs))
  have hindexLen := indexEntries_length (keysOff (as ++ e :: bs)) (valsOff (as ++ e :: bs))
    (as ++ e :: bs)
  -- the file, cut at the entry's key and value
  have hbytes : sstBytes (as ++ e :: bs) timestamp =
      header (as ++ e :: bs).length (keysOff (as ++ e :: bs)) (valsOff (as ++ e :: bs)) timestamp ++
        ((indexEntries (keysOff (as ++ e :: bs)) (valsOff (as ++ e :: bs))
          (as ++ e :: bs)).flatten ++ ((keyArena as ++ (e.key ++ keyArena bs)) ++
            (valArena as ++ (e.value ++ valArena bs)))) := by
    rw [sstBytes, hkeysArena, hvalsArena]
  have hkeysOff : keysOff (as ++ e :: bs) =
    headerSize + (as ++ e :: bs).length * indexEntrySize := rfl
  generalize header (as ++ e :: bs).length (keysOff (as ++ e :: bs)) (valsOff (as ++ e :: bs))
    timestamp = head at hhead hbytes
  generalize (indexEntries (keysOff (as ++ e :: bs)) (valsOff (as ++ e :: bs))
    (as ++ e :: bs)).flatten = index at hsplit hindexLen hbytes ⊢
  generalize sstBytes (as ++ e :: bs) timestamp = bytes at hbytes ⊢
  rw [hvalsLen] at hsize
  generalize valsOff (as ++ e :: bs) = vo at *
  generalize keysOff (as ++ e :: bs) = ko at *
  -- the index entry points at the key and the value
  obtain ⟨hkeyOff, hvalOff, hkeyLen, hvalLen⟩ :=
    indexEntry_fields hsplit hpre (show ko + (keyArena as).length < 256 ^ 8 by omega)
      (show vo + (valArena as).length < 256 ^ 8 by omega) hfield hvalue
  have hkeyBytes : sub? bytes (ko + (keyArena as).length) e.key.length = some e.key :=
    sub?_eq (head ++ index ++ keyArena as) _ _
      (by rw [hbytes]; simp only [append_assoc]; rfl)
      (by rw [length_append, length_append, hhead, hindexLen]; omega) rfl
  have hvalBytes : sub? bytes (vo + (valArena as).length) e.value.length = some e.value :=
    sub?_eq (head ++ index ++ (keyArena as ++ (e.key ++ keyArena bs)) ++ valArena as) _ _
      (by rw [hbytes]; simp only [append_assoc]; rfl)
      (by simp only [length_append, hhead, hindexLen] at *; omega) rfl
  simp only [Sst.hitAt, hkeyOff, hvalOff, hkeyLen, hvalLen, hmask, hkeyBytes, hvalBytes, hworm,
    Option.bind_eq_bind, Option.bind_some, Option.pure_def, Bool.decide_eq_true]

end

/-! ## Faithfulness -/

/-- The segment has the entries of the snapshot, and no others. -/
structure Faithful (f : SnapshotFile) (timestamp : UInt64) (sst : Sst) : Prop where
  get : ∀ e ∈ f.entries,
    sst.get e.key = some (some ⟨e.key, e.value, timestamp, e.flags.isWorm⟩)
  get_other : ∀ key, (∀ e ∈ f.entries, e.key ≠ key) → sst.get key = some none
  keys : sst.count = f.entries.length ∧
    ∀ i (h : i < f.entries.length), sst.keyAt i = some f.entries[i].key
  prefixRange : ∀ p, ∃ lo hi, sst.prefixRange p = some (lo, hi) ∧ lo ≤ hi ∧
    hi ≤ f.entries.length ∧
    ∀ i (h : i < f.entries.length), p <+: f.entries[i].key ↔ lo ≤ i ∧ i < hi

theorem represents_sstBytes (f : SnapshotFile) (hsorted : f.Ascending)
    (hkeys : ∀ e ∈ f.entries, e.key.length < 2 ^ 31) (timestamp : UInt64) :
    Sst.Represents ⟨sstBytes f.entries timestamp, f.entries.length,
      (indexEntries (keysOff f.entries) (valsOff f.entries) f.entries).flatten, timestamp⟩
      (hitsOf f.entries timestamp) where
  count := (length_map _).symm
  hitAt := by
    intro i hi
    have hlt : i < f.entries.length := by
      rwa [hitsOf, length_map] at hi
    have hsize := size_lt f
    have hmem := getElem_mem hlt
    have hcut : f.entries = f.entries.take i ++ f.entries[i] :: f.entries.drop (i + 1) := by
      rw [getElem_cons_drop, take_append_drop]
    have hpos : (f.entries.take i).length = i := by
      rw [length_take]
      omega
    have hget : (hitsOf f.entries timestamp)[i] =
        ⟨f.entries[i].key, f.entries[i].value, timestamp, f.entries[i].flags.isWorm⟩ := by
      simp [hitsOf]
    rw [hget]
    have hkey := hkeys _ hmem
    have hvalue := (f.lengths _ hmem).2
    generalize f.entries[i] = e at *
    generalize f.entries.take i = as at *
    generalize f.entries.drop (i + 1) = bs at *
    rw [hcut] at hsize ⊢
    rw [← hpos]
    exact hitAt_sstBytes timestamp hsize hkey hvalue
  ascending := pairwise_map.mpr hsorted

theorem faithful_of_represents {f : SnapshotFile} {timestamp : UInt64} {sst : Sst}
    (h : Sst.Represents sst (hitsOf f.entries timestamp)) : Faithful f timestamp sst where
  get := by
    intro e he
    have hmem : (⟨e.key, e.value, timestamp, e.flags.isWorm⟩ : Hit) ∈
        hitsOf f.entries timestamp := mem_map.mpr ⟨e, he, rfl⟩
    rw [h.get_eq, ← h.find_of_mem hmem]
  get_other := by
    intro key hkey
    rw [h.get_eq, Sst.hitIn, find?_eq_none.mpr]
    intro hit hhit
    obtain ⟨e, he, rfl⟩ := mem_map.mp hhit
    simpa using hkey e he
  keys := by
    refine ⟨h.count.trans (length_map _), fun i hi => ?_⟩
    rw [h.keyAt (by rwa [hitsOf, length_map])]
    simp [hitsOf]
  prefixRange := by
    intro p
    obtain ⟨lo, hi, hrange, hle, hlen, hmem⟩ := h.prefixRange_eq p
    rw [hitsOf, length_map] at hlen
    refine ⟨lo, hi, hrange, hle, hlen, fun i hi => ?_⟩
    rw [← hmem i (by rwa [hitsOf, length_map])]
    simp [hitsOf]

/-- **Building and opening is faithful exactly when no key has 2 GiB or more**: longer
keys are cut by the mask and are not found. -/
theorem frozen_faithful_iff (f : SnapshotFile) (timestamp : UInt64) :
    (f.Ascending → ∃ out stats sst, buildFromSnapshot f.bytes timestamp = .ok (out, stats) ∧
        openSst out = .ok sst ∧ Faithful f timestamp sst) ∧
      (¬ f.Ascending → buildFromSnapshot f.bytes timestamp = .error .sstUnsorted) ↔
    (f.Ascending → ∀ e ∈ f.entries, e.key.length < 2 ^ 31) := by
  constructor
  · rintro ⟨hbuilt, -⟩ hsorted e he
    obtain ⟨out, stats, sst, -, -, hfaithful⟩ := hbuilt hsorted
    obtain ⟨i, hi⟩ := Sst.get_some (hfaithful.get e he)
    exact Sst.keyAt_length hi
  · intro hkeys
    refine ⟨?_, fun hunsorted => buildFromSnapshot_unsorted f hunsorted timestamp⟩
    intro hsorted
    obtain ⟨stats, hbuild⟩ := buildFromSnapshot_sorted f hsorted timestamp
    exact ⟨_, stats, _, hbuild, openSst_sstBytes timestamp (size_lt f),
      faithful_of_represents (represents_sstBytes f hsorted (hkeys hsorted) timestamp)⟩

/-- A snapshot file with one entry. -/
theorem exists_oneEntryFile (key value : Bytes) (isWorm : Bool) (hkey : key.length < 2 ^ 32)
    (hvalue : value.length < 2 ^ 32) :
    ∃ f : SnapshotFile, f.entries = [⟨key, value, 0, .written isWorm⟩] := by
  refine ⟨⟨2, [⟨key, value, 0, .written isWorm⟩], [], .inr rfl, ?_, ?_⟩, rfl⟩
  · intro e he
    obtain rfl := mem_singleton.mp he
    exact ⟨hkey, hvalue⟩
  · have hmagic : snapshotMagic.length = 8 := by decide
    have hkeys : (keyArena [⟨key, value, 0, .written isWorm⟩]).length = key.length := by
      simp [keyArena]
    have hvals : (valArena [⟨key, value, 0, .written isWorm⟩]).length = value.length := by
      simp [valArena]
    rw [length_append, length_append, length_append, length_append,
      records_length, hmagic, leBytes_length, leBytes_length, hkeys, hvals,
      length_singleton, length_nil]
    omega

/-- **A key of 2 GiB** is in the snapshot and not in the segment. -/
theorem longKey_not_found : ∃ f : SnapshotFile,
    f.entries = [⟨replicate (2 ^ 31) 0, [1], 0, .written false⟩] ∧ f.Ascending ∧
      ∃ out stats sst, buildFromSnapshot f.bytes 0 = .ok (out, stats) ∧ openSst out = .ok sst ∧
        sst.get (replicate (2 ^ 31) 0) ≠
          some (some ⟨replicate (2 ^ 31) 0, [1], 0, false⟩) := by
  have hlen : (replicate (2 ^ 31) (0 : UInt8)).length = 2 ^ 31 := length_replicate
  generalize replicate (2 ^ 31) (0 : UInt8) = key at hlen ⊢
  obtain ⟨f, hf⟩ := exists_oneEntryFile key [1] false (by omega) (by decide)
  have hsorted : f.Ascending := by
    rw [SnapshotFile.Ascending, hf]
    exact pairwise_singleton _ _
  obtain ⟨stats, hbuild⟩ := buildFromSnapshot_sorted f hsorted 0
  refine ⟨f, hf, hsorted, _, stats, _, hbuild, openSst_sstBytes 0 (size_lt f), ?_⟩
  intro hget
  obtain ⟨i, hi⟩ := Sst.get_some hget
  have hshort := Sst.keyAt_length hi
  omega

end SstBuild

end WormDB
