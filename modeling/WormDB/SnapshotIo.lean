import WormDB.Snapshot
import WormDB.MergeOrder
import WormDB.BufferedIo
import WormDB.PrefixMap
import Mathlib.Algebra.Order.BigOperators.Group.Finset

/-! # Snapshot files through their buffers

`writeSnapshot` sends the records of the merge through a `BufferedFileWriter` of
4 MiB and `loadSnapshot` reads them through a `BufferedFileReader` of the same size;
fields of a buffer or more go around it.  Lengths and the cursors' positions are
32-bit fields, and so is the presized capacity of a shard.

What is written does not depend on the buffer (`writeSnapshotFile_eq`) and neither
does what is read (`loadSnapshotFile_eq`), so a snapshot of any store whose sizes fit
the fields lists its entries in the order of their keys and loads back
(`snapshot_round_trip`). -/
namespace WormDB
open List ByteCodec BufferedIo Store

/-- `SNAPSHOT_READ_BUF_SIZE`. -/
def snapshotBufSize : Nat := 4 * 1024 * 1024

/-! ## Writing -/

def Entry.snapshotHeader (e : Entry) : Bytes :=
  leBytes 4 e.key.length ++ leBytes 4 e.value.length ++ [e.flags.toByte] ++
    leBytes 8 e.timestamp.toNat

/-- One record of the merge; a length that does not fit its field traps. -/
def writeSnapshotEntry (w : Writer) (e : Entry) : Option Writer :=
  if e.key.length < 256 ^ 4 ∧ e.value.length < 256 ^ 4 then
    some (((w.writeAll snapshotBufSize e.snapshotHeader).writeAll snapshotBufSize e.key).writeAll
      snapshotBufSize e.value)
  else none

namespace Store

def writeSnapshotHeader (s : Store) : Writer :=
  ((Writer.start.writeAll snapshotBufSize snapshotMagic).writeAll snapshotBufSize
    (leBytes 4 snapshotVersion)).writeAll snapshotBufSize (leBytes 8 s.totalRecords)

/-- The file that replaces the snapshot.  `trailer` is what the vector registry adds;
moving a cursor past the end of a 32-bit position traps. -/
def writeSnapshotFile (s : Store) (trailer : Bytes) : Option Bytes :=
  if ∀ i, (s.shards i).sorted.length < 256 ^ 4 then
    (s.snapshotRecords.foldlM writeSnapshotEntry s.writeSnapshotHeader).map (fun w =>
      let w := if trailer.length > 0 then w.writeAll snapshotBufSize trailer else w
      w.flush.file)
  else none

end Store

/-! ## Loading -/

/-- `readAll` of the whole field, or nothing when the file ends in it. -/
def readField (r : Reader) (n : Nat) : Option (Bytes × Reader) :=
  let (bytes, r') := r.readAll snapshotBufSize true n
  if bytes.length ≠ n then none else some (bytes, r')

namespace Store

/-- One turn of the load loop. -/
def loadEntryFrom (alloc : AllocSite → Bool) (r : Reader) (s : Store) :
    Except Fault Reader × Store :=
  match readField r snapshotHeaderLen with
  | none => (.error (.error .corruption), s)
  | some (header, r) =>
      let keyLen := leNat (slice header 0 4)
      let valueLen := leNat (slice header 4 4)
      let flags := { EntryFlags.ofByte (header.getD 8 0) with arenaOwned := true }
      let timestamp := leNat (slice header 9 8)
      if !alloc .key then (.error (.error .outOfMemory), s)
      else
        match readField r keyLen with
        | none => (.error (.error .corruption), s)
        | some (key, r) =>
            if !alloc .value then (.error (.error .outOfMemory), s)
            else
              match readField r valueLen with
              | none => (.error (.error .corruption), s)
              | some (value, r) =>
                  if !alloc .entry then (.error (.error .outOfMemory), s)
                  else
                    let (p, s') := s.create ⟨key, value, timestamp.toUInt64, flags⟩
                    match s'.shardPutLocked alloc (shardIndex key) p with
                    | .error f => (.error f, s')
                    | .ok s'' => (.ok r, s'')

def loadEntriesFrom (alloc : Nat → AllocSite → Bool) :
    Nat → Nat → Reader → Store → Except Fault Reader × Store
  | 0, _, r, s => (.ok r, s)
  | count + 1, n, r, s =>
      match s.loadEntryFrom (alloc n) r with
      | (.error f, s') => (.error f, s')
      | (.ok r', s') => loadEntriesFrom alloc count (n + 1) r' s'

def loadHeaderFrom (size : Nat) (r : Reader) : Option (Nat × Reader) :=
  match readField r snapshotMagic.length with
  | none => none
  | some (magic, r) =>
      if magic ≠ snapshotMagic then none
      else
        match readField r 4 with
        | none => none
        | some (version, r) =>
            if leNat version ≠ 1 ∧ leNat version ≠ 2 then none
            else
              match readField r 8 with
              | none => none
              | some (count, r) =>
                  if leNat count > size / 17 then none else some (leNat count, r)

/-- The share of a shard that the load presizes. -/
def perShard (count : Nat) : Nat := count / shardCount + count / shardCount / 8 + 16

/-- A share that does not fit 32 bits traps. -/
def loadSnapshotFile (alloc : Nat → AllocSite → Bool) (file : Option Bytes) (s : Store) :
    Except Fault Unit × Store :=
  match file with
  | none => (.ok (), s)
  | some bytes =>
      if bytes.length = 0 then (.ok (), s)
      else if !alloc 0 .record then (.error (.error .outOfMemory), s)
      else
        match loadHeaderFrom bytes.length (.start bytes) with
        | none => (.error (.error .corruption), s)
        | some (count, r) =>
            if perShard count ≥ 256 ^ 4 then (.error .trap, s)
            else if !(alloc 0 .reserveData && alloc 0 .reserveSorted) then
              (.error (.error .outOfMemory), s)
            else
              match loadEntriesFrom alloc count 1 r s with
              | (.error f, s') => (.error f, s')
              | (.ok _, s') => (.ok (), s')

end Store

/-! ## What is read does not depend on the buffer -/

variable {r : Reader} {n : Nat}

theorem readField_none (h : splitBytes n r.contents = none) : readField r n = none := by
  obtain ⟨hbytes, -⟩ := readAll_spec (show 0 < snapshotBufSize by decide) true r n
  have hlen := splitBytes_eq_none.mp h
  rw [readField]
  simp only
  rw [if_pos]
  rw [hbytes, length_take]
  omega

variable {bytes : Bytes}

theorem readField_some {rest : Bytes} (h : splitBytes n r.contents = some (bytes, rest)) :
    ∃ r', readField r n = some (bytes, r') ∧ r'.contents = rest := by
  obtain ⟨hbytes, hrest⟩ := readAll_spec (show 0 < snapshotBufSize by decide) true r n
  obtain ⟨hsplit, hlen⟩ := splitBytes_eq_some.mp h
  rw [hsplit, ← hlen, take_left] at hbytes
  rw [hsplit, ← hlen, drop_left] at hrest
  refine ⟨_, ?_, hrest⟩
  rw [readField]
  simp only
  rw [← hlen, hbytes, if_neg (not_not_intro rfl)]

theorem readField_cases (r : Reader) (n : Nat) :
    (splitBytes n r.contents = none ∧ readField r n = none) ∨
      ∃ bytes r', splitBytes n r.contents = some (bytes, r'.contents) ∧
        readField r n = some (bytes, r') := by
  rcases hsplit : splitBytes n r.contents with _ | ⟨bytes, rest⟩
  · exact .inl ⟨rfl, readField_none hsplit⟩
  · obtain ⟨r', hread, rfl⟩ := readField_some hsplit
    exact .inr ⟨bytes, r', rfl, hread⟩

/-- What a load loop leaves, by what is left of the file. -/
def leftOver (result : Except Fault Reader × Store) : Except Fault Bytes × Store :=
  (result.1.map Reader.contents, result.2)

theorem loadEntryFrom_eq (alloc : AllocSite → Bool) (r : Reader) (s : Store) :
    leftOver (s.loadEntryFrom alloc r) = s.loadEntry alloc r.contents := by
  rw [loadEntryFrom, loadEntry]
  rcases readField_cases r snapshotHeaderLen with ⟨hsplit, hread⟩ | ⟨header, r₁, hsplit, hread⟩
  · rw [hsplit, hread]
    rfl
  rw [hsplit, hread]
  simp only
  split
  · rfl
  rcases readField_cases r₁ (leNat (slice header 0 4)) with ⟨hsplit, hread⟩ | ⟨key, r₂, hsplit, hread⟩
  · rw [hsplit, hread]
    rfl
  rw [hsplit, hread]
  simp only
  split
  · rfl
  rcases readField_cases r₂ (leNat (slice header 4 4)) with ⟨hsplit, hread⟩ | ⟨value, r₃, hsplit, hread⟩
  · rw [hsplit, hread]
    rfl
  rw [hsplit, hread]
  simp only
  split
  · rfl
  generalize (⟨key, value, _, _⟩ : Entry) = e
  rcases (s.create e).2.shardPutLocked alloc (shardIndex key) (s.create e).1 with f | s'
  · rfl
  · rfl

theorem loadEntriesFrom_eq (alloc : Nat → AllocSite → Bool) (count n : Nat) (r : Reader)
    (s : Store) :
    leftOver (loadEntriesFrom alloc count n r s) =
      loadEntries alloc count n r.contents s := by
  induction count generalizing n r s with
  | zero => rfl
  | succ count ih =>
    rw [loadEntriesFrom, loadEntries, ← loadEntryFrom_eq]
    rcases s.loadEntryFrom (alloc n) r with ⟨f | r', s'⟩
    · rfl
    · exact ih (n + 1) r' s'

theorem loadHeaderFrom_eq (r : Reader) :
    (loadHeaderFrom r.contents.length r).map (fun x => (x.1, x.2.contents)) =
      loadHeader r.contents := by
  rw [loadHeaderFrom, loadHeader]
  rcases readField_cases r snapshotMagic.length with ⟨hsplit, hread⟩ | ⟨magic, r₁, hsplit, hread⟩
  · rw [hsplit, hread]
    rfl
  rw [hsplit, hread]
  simp only
  split
  · rfl
  rcases readField_cases r₁ 4 with ⟨hsplit, hread⟩ | ⟨version, r₂, hsplit, hread⟩
  · rw [hsplit, hread]
    rfl
  rw [hsplit, hread]
  simp only
  split
  · rfl
  rcases readField_cases r₂ 8 with ⟨hsplit, hread⟩ | ⟨count, r₃, hsplit, hread⟩
  · rw [hsplit, hread]
    rfl
  rw [hsplit, hread]
  simp only
  split
  · rfl
  · rfl

/-- **Loading through the buffer** is loading, unless the presizing traps. -/
theorem loadSnapshotFile_eq (alloc : Nat → AllocSite → Bool) (s : Store)
    (hfit : ∀ count rest, loadHeader bytes = some (count, rest) →
      perShard count < 256 ^ 4) :
    loadSnapshotFile alloc (some bytes) s = loadSnapshot alloc (some bytes) s := by
  rw [loadSnapshotFile, loadSnapshot]
  split
  · rfl
  split
  · rfl
  have hheader : (loadHeaderFrom bytes.length (.start bytes)).map
    (fun x => (x.1, x.2.contents)) = loadHeader bytes := loadHeaderFrom_eq (.start bytes)
  cases hfrom : loadHeaderFrom bytes.length (.start bytes) with
  | none =>
    rw [hfrom] at hheader
    rw [← hheader]
    rfl
  | some x =>
    obtain ⟨count, r⟩ := x
    rw [hfrom] at hheader
    rw [← hheader]
    simp only [Option.map_some]
    rw [if_neg (Nat.not_le.mpr (hfit count r.contents hheader.symm))]
    split
    · rfl
    rw [← loadEntriesFrom_eq]
    rcases loadEntriesFrom alloc count 1 r s with ⟨f | r', s'⟩
    · rfl
    · rfl

/-! ## What is written does not depend on the buffer -/

theorem encodeSnapshotEntry_eq (e : Entry) : encodeSnapshotEntry e =
    if e.key.length < 256 ^ 4 ∧ e.value.length < 256 ^ 4 then
      some (e.snapshotHeader ++ e.key ++ e.value) else none := rfl

/-- The record loop writes the encodings, or traps where one does not exist. -/
theorem foldlM_writeSnapshotEntry (es : List Entry) (w : Writer) :
    (es.foldlM writeSnapshotEntry w).map Writer.contents =
      (es.mapM encodeSnapshotEntry).map (fun chunks => w.contents ++ chunks.flatten) := by
  induction es generalizing w with
  | nil => simp
  | cons e es ih =>
    rw [foldlM_cons, mapM_cons, writeSnapshotEntry, encodeSnapshotEntry_eq]
    split
    · simp only [Option.bind_eq_bind, Option.bind_some, ih, contents_writeAll]
      cases es.mapM encodeSnapshotEntry with
      | none => rfl
      | some chunks => simp
    · rfl

theorem writeSnapshotHeader_contents (s : Store) :
    s.writeSnapshotHeader.contents =
      snapshotMagic ++ leBytes 4 snapshotVersion ++ leBytes 8 s.totalRecords := by
  rw [writeSnapshotHeader, contents_writeAll, contents_writeAll, contents_writeAll]
  rfl

/-- **Writing through the buffer** gives the encoding and the trailer. -/
theorem writeSnapshotFile_eq {s : Store} (hshards : ∀ i, (s.shards i).sorted.length < 256 ^ 4)
    (htotal : s.totalRecords < 256 ^ 8) (trailer : Bytes) :
    s.writeSnapshotFile trailer = s.encodeSnapshot.map (fun bytes => bytes ++ trailer) := by
  have hfold := foldlM_writeSnapshotEntry s.snapshotRecords s.writeSnapshotHeader
  rw [writeSnapshotHeader_contents] at hfold
  rw [writeSnapshotFile, if_pos hshards, encodeSnapshot, if_pos htotal]
  cases hrecords : s.snapshotRecords.foldlM writeSnapshotEntry s.writeSnapshotHeader with
  | none =>
    rw [hrecords] at hfold
    cases hchunks : s.snapshotRecords.mapM encodeSnapshotEntry with
    | none => rfl
    | some chunks =>
      rw [hchunks] at hfold
      cases hfold
  | some w =>
    rw [hrecords] at hfold
    cases hchunks : s.snapshotRecords.mapM encodeSnapshotEntry with
    | none =>
      rw [hchunks] at hfold
      cases hfold
    | some chunks =>
      rw [hchunks] at hfold
      have hw : w.contents = _ := Option.some.inj hfold
      simp only [Option.map_some]
      congr 1
      rw [file_flush]
      split
      · rw [contents_writeAll, hw]
      · rename_i hempty
        rw [hw, length_eq_zero_iff.mp (Nat.eq_zero_of_not_pos hempty), append_nil]

/-! ## The order of the records -/

theorem keyLess_weakOrder : BinaryHeap.WeakOrder (fun a b : Entry => decide (a.key < b.key)) where
  asymm := by
    intro a b h
    rw [decide_eq_false_iff_not]
    exact List.lt_asymm (of_decide_eq_true h)
  trans := by
    intro a b c hab hbc
    rw [decide_eq_false_iff_not] at hab hbc ⊢
    exact List.not_lt.mpr (List.le_trans (List.not_lt.mp hbc) (List.not_lt.mp hab))

section
variable {s : Store}

/-- A shard's copies are in strictly ascending order, and all of them are of the
shard. -/
theorem StoreOk.shardSlice_ascending (h : StoreOk s) (i : Fin shardCount) :
    (s.shardSlice i).Pairwise (fun a b => a.key < b.key) ∧
      ∀ e ∈ s.shardSlice i, shardIndex e.key = i := by
  refine ⟨?_, ?_⟩
  · rw [shardSlice, pairwise_filterMap]
    refine (h.shards i).ascending.imp ?_
    intro p q hlt a ha b hb
    obtain ⟨ea, hea, rfl⟩ := Option.map_eq_some_iff.mp ha
    obtain ⟨eb, heb, rfl⟩ := Option.map_eq_some_iff.mp hb
    rwa [keyAt_of_some hea, keyAt_of_some heb] at hlt
  · intro e he
    obtain ⟨p, hp, hpe⟩ := mem_filterMap.mp he
    obtain ⟨e₀, he₀, rfl⟩ := Option.map_eq_some_iff.mp hpe
    obtain ⟨e₁, he₁, hi⟩ := (h.shards i).live p hp
    cases he₀.symm.trans he₁
    exact hi

/-- No key is in two slices. -/
theorem StoreOk.shardSlices_distinct (h : StoreOk s) :
    s.shardSlices.flatten.Pairwise (fun a b => a.key ≠ b.key) := by
  rw [shardSlices, pairwise_flatten]
  refine ⟨?_, ?_⟩
  · intro slice hslice
    obtain ⟨i, -, rfl⟩ := mem_map.mp hslice
    refine (h.shardSlice_ascending i).1.imp ?_
    intro a b hlt heq
    exact List.lt_irrefl _ (heq ▸ hlt)
  · rw [pairwise_map]
    refine (nodup_finRange shardCount).imp ?_
    intro i j hne a ha b hb hkey
    have hi := (h.shardSlice_ascending i).2 a ha
    have hj := (h.shardSlice_ascending j).2 b hb
    exact hne (hi.symm.trans (hkey ▸ hj))

/-- **The records are written in strictly ascending order of their keys.** -/
theorem StoreOk.snapshotRecords_ascending (h : StoreOk s) :
    s.snapshotRecords.Pairwise (fun a b => a.key < b.key) := by
  have hsorted : HeapMerge.Sorted (fun a b : Entry => decide (a.key < b.key)) s.snapshotRecords := by
    refine HeapMerge.mergeSlices_sorted keyLess_weakOrder ?_
    intro slice hslice
    obtain ⟨i, -, rfl⟩ := mem_map.mp hslice
    refine (h.shardSlice_ascending i).1.imp ?_
    intro a b hlt
    exact decide_eq_false (List.lt_asymm hlt)
  have hdistinct : s.snapshotRecords.Pairwise (fun a b => a.key ≠ b.key) :=
    ((HeapMerge.mergeSlices_perm _ s.shardSlices).pairwise_iff (fun hne => hne.symm)).mpr
      h.shardSlices_distinct
  refine (hsorted.and hdistinct).imp ?_
  rintro a b ⟨hle, hne⟩
  rw [decide_eq_false_iff_not] at hle
  exact PrefixMap.bytes_lt_or_eq hle hne.symm

/-! ## The round trip -/

/-- The sizes fit the 32-bit fields of the format and of the code. -/
structure SizesFit (s : Store) : Prop where
  lengths : ∀ key e, s.entryAt key = some e → key.length < 2 ^ 32 ∧ e.value.length < 2 ^ 32
  shards : ∀ i, (s.shards i).sorted.length < 2 ^ 32
  share : perShard s.liveKeys < 2 ^ 32

theorem StoreOk.totalRecords_liveKeys (h : StoreOk s) : s.totalRecords = s.liveKeys := by
  rw [h.count, totalRecords, Fin.sum_univ_def]

variable {es : List Entry}

theorem mapM_eq_map (h : ∀ e ∈ es, e.key.length < 256 ^ 4 ∧ e.value.length < 256 ^ 4) :
    es.mapM encodeSnapshotEntry = some
    (es.map (fun e => e.snapshotHeader ++ e.key ++ e.value)) := by
  induction es with
  | nil => rfl
  | cons e es ih =>
    obtain ⟨he, hes⟩ := forall_mem_cons.mp h
    rw [mapM_cons, encodeSnapshotEntry_eq, if_pos he, ih hes]
    rfl

theorem mapM_eq_none {e : Entry} (he : e ∈ es)
    (h : encodeSnapshotEntry e = none) : es.mapM encodeSnapshotEntry = none := by
  induction es with
  | nil => cases he
  | cons a es ih =>
    rw [mapM_cons]
    rcases mem_cons.mp he with rfl | he
    · rw [h]
      rfl
    · rw [ih he]
      cases encodeSnapshotEntry a <;> rfl

/-- The encoding of a store whose sizes fit. -/
theorem StoreOk.encodeSnapshot_eq (h : StoreOk s) (hfit : SizesFit s) :
    s.totalRecords < 256 ^ 8 ∧ s.encodeSnapshot = some (snapshotMagic ++
      leBytes 4 snapshotVersion ++ leBytes 8 s.liveKeys ++
      s.snapshotRecords.flatMap (fun e => e.snapshotHeader ++ e.key ++ e.value)) := by
  have hcount := h.totalRecords_liveKeys
  have htotal : s.totalRecords < 256 ^ 8 := by
    have hshare := hfit.share
    rw [perShard, shardCount] at hshare
    rw [hcount]
    omega
  have hlengths : ∀ e ∈ s.snapshotRecords, e.key.length < 256 ^ 4 ∧ e.value.length < 256 ^ 4 := by
    intro e he
    obtain ⟨e₀, hat, rfl⟩ := h.mem_snapshotRecords.mp he
    exact hfit.lengths e₀.key e₀ hat
  refine ⟨htotal, ?_⟩
  rw [encodeSnapshot, if_pos htotal, mapM_eq_map hlengths, hcount]
  rfl

/-- **The round trip of a snapshot.**  The file of a store whose sizes fit holds each
of its entries once, in ascending order of the keys, and loads back into an empty
store as the same contents, whatever the vector registry adds. -/
theorem snapshot_round_trip (s : Store) (h : StoreOk s) (hfit : SizesFit s) (trailer : Bytes)
    (sst : Bytes → Option Bool) (alloc : Nat → AllocSite → Bool)
    (halloc : ∀ n site, alloc n site = true) :
    ∃ file, s.writeSnapshotFile trailer = some file ∧
      file = snapshotMagic ++ leBytes 4 snapshotVersion ++ leBytes 8 s.liveKeys ++
        s.snapshotRecords.flatMap (fun e => e.snapshotHeader ++ e.key ++ e.value) ++ trailer ∧
      s.snapshotRecords.Pairwise (fun a b => a.key < b.key) ∧
      (∀ e, e ∈ s.snapshotRecords ↔ ∃ e₀, s.entryAt e₀.key = some e₀ ∧ e = e₀.masked) ∧
      ∃ s', loadSnapshotFile alloc (some file) (init sst) = (.ok (), s') ∧
        StoreOk s' ∧ ∀ key, s'.view key = s.view key := by
  obtain ⟨htotal, hbytes⟩ := h.encodeSnapshot_eq hfit
  obtain ⟨⟨rest, hheader⟩, s', hload, hok, -, hview⟩ :=
    loadSnapshot_append h halloc hbytes trailer sst
  refine ⟨_, ?_, rfl, h.snapshotRecords_ascending, fun e => h.mem_snapshotRecords, s', ?_, hok,
    hview⟩
  · rw [writeSnapshotFile_eq hfit.shards htotal, hbytes]
    rfl
  · rw [loadSnapshotFile_eq, hload]
    intro count rest' hcount
    rw [hheader] at hcount
    obtain ⟨rfl, -⟩ := Prod.mk.inj (Option.some.inj hcount)
    rw [h.totalRecords_liveKeys]
    exact hfit.share

/-- Writing one value to an empty store succeeds. -/
theorem setUnsafe_init (key value : Bytes) (isWorm : Bool) (now : UInt64) :
    ∃ s, (init fun _ => none).setUnsafe (fun _ => true) key value isWorm now = .ok s ∧
      Updates (init fun _ => none) s key (some ⟨key, value, now, .written isWorm⟩) ∧
      s.liveKeys = 1 := by
  have hset := (init_ok fun _ => none).setUnsafe (fun _ => true) key value isWorm now
  obtain ⟨s, hs, hcount⟩ : ∃ s, (init fun _ => none).setUnsafe (fun _ => true) key value
      isWorm now = .ok s ∧ s.liveKeys = 1 := ⟨_, rfl, rfl⟩
  rw [hs] at hset
  exact ⟨s, hs, hset.2, hcount⟩

theorem StoreOk.sorted_length_le (h : StoreOk s) (i : Fin shardCount) :
    (s.shards i).sorted.length ≤ s.liveKeys := by
  rw [h.count]
  exact Finset.single_le_sum (f := fun i => (s.shards i).sorted.length)
    (fun _ _ => Nat.zero_le _) (Finset.mem_univ i)

/-- Short entries fit. -/
theorem sizesFit_of_count (h : StoreOk s)
    (hlengths : ∀ k e, s.entryAt k = some e → k.length < 2 ^ 32 ∧ e.value.length < 2 ^ 32)
    {n : Nat} (hcount : s.liveKeys = n) (hn : n < 2 ^ 32 ∧ perShard n < 2 ^ 32) : SizesFit s := by
  refine ⟨hlengths, fun i => ?_, ?_⟩
  · have hle := h.sorted_length_le i
    omega
  · rw [hcount]
    exact hn.2

theorem sizesFit_init {key value : Bytes} {isWorm : Bool} {now : UInt64} {s : Store}
    (hupd : Updates (init fun _ => none) s key (some ⟨key, value, now, .written isWorm⟩))
    (hcount : s.liveKeys = 1) (hkey : key.length < 2 ^ 32) (hvalue : value.length < 2 ^ 32) :
    SizesFit s := by
  refine sizesFit_of_count hupd.ok (fun k e hat => ?_) hcount (by decide)
  rw [hupd.entryAt] at hat
  split at hat
  · rename_i hk
    cases hat
    rw [hk]
    exact ⟨hkey, hvalue⟩
  · cases hat

/-- Two writes to an empty store, in their order. -/
def twoWrites (a b : Bytes × Bytes × Bool) : Except Fault Store := do
  let s ← (init fun _ => none).setUnsafe (fun _ => true) a.1 a.2.1 a.2.2 7
  s.setUnsafe (fun _ => true) b.1 b.2.1 b.2.2 7

theorem twoWrites_ok {a b : Bytes × Bytes × Bool} {s : Store} (h : twoWrites a b = .ok s) :
    StoreOk s ∧ ∀ k, s.entryAt k =
      if k = b.1 then some ⟨b.1, b.2.1, 7, .written b.2.2⟩
      else if k = a.1 then some ⟨a.1, a.2.1, 7, .written a.2.2⟩ else none := by
  rw [twoWrites] at h
  have hfirst := (init_ok fun _ => none).setUnsafe (fun _ => true) a.1 a.2.1 a.2.2 7
  cases hs : (init fun _ => none).setUnsafe (fun _ => true) a.1 a.2.1 a.2.2 7 with
  | error f =>
    rw [hs] at h
    cases h
  | ok s₁ =>
    rw [hs] at h hfirst
    replace h : s₁.setUnsafe (fun _ => true) b.1 b.2.1 b.2.2 7 = .ok s := h
    have hsecond := hfirst.2.ok.setUnsafe (fun _ => true) b.1 b.2.1 b.2.2 7
    rw [h] at hsecond
    refine ⟨hsecond.2.ok, fun k => ?_⟩
    rw [hsecond.2.entryAt, hfirst.2.entryAt]
    rfl

/-- A WORM entry and another, in two shards. -/
def wormEntry : Bytes × Bytes × Bool := ([1], [2], true)
def plainEntry : Bytes × Bytes × Bool := ([2], [], false)

theorem twoEntries_round_trip :
    ∃ s file s', twoWrites wormEntry plainEntry = .ok s ∧ shardIndex [1] ≠ shardIndex [2] ∧
      s.writeSnapshotFile [] = some file ∧
      loadSnapshotFile (fun _ _ => true) (some file) (init fun _ => none) =
        (.ok (), s') ∧ s'.view [1] = some ⟨[2], 7, true⟩ ∧ s'.view [2] = some ⟨[], 7, false⟩ := by
  obtain ⟨s, hs, hcount⟩ : ∃ s, twoWrites wormEntry plainEntry = .ok s ∧ s.liveKeys = 2 := ⟨_, rfl, rfl⟩
  obtain ⟨hok, hat⟩ := twoWrites_ok hs
  have hfit : SizesFit s := by
    refine sizesFit_of_count hok (fun k e hk => ?_) hcount (by decide)
    rw [hat] at hk
    split at hk
    · rename_i hkey
      cases hk
      rw [hkey]
      decide
    obtain ⟨hkey, ⟨⟩⟩ := Option.ite_none_right_eq_some.mp hk
    rw [hkey]
    decide
  obtain ⟨file, hwrite, -, -, -, s', hload, -, hview⟩ :=
    snapshot_round_trip s hok hfit [] (fun _ => none) (fun _ _ => true) (fun _ _ => rfl)
  refine ⟨s, file, s', hs, by decide, hwrite, hload, ?_, ?_⟩
  · rw [hview, view, hat]
    rfl
  · rw [hview, view, hat]
    rfl

/-- **A value of 4 GiB is stored and cannot be saved**: its length does not fit the
field. -/
theorem oversize_value_not_saved :
    ∃ s, (init fun _ => none).setUnsafe (fun _ => true) [1] (replicate (2 ^ 32) 0) false
        0 = .ok s ∧ StoreOk s ∧ s.writeSnapshotFile [] = none := by
  have hlen : (replicate (2 ^ 32) (0 : UInt8)).length = 2 ^ 32 := length_replicate
  generalize replicate (2 ^ 32) (0 : UInt8) = value at hlen ⊢
  obtain ⟨s, hs, hupd, hcount⟩ := setUnsafe_init [1] value false 0
  refine ⟨s, hs, hupd.ok, ?_⟩
  have hshards : ∀ i, (s.shards i).sorted.length < 256 ^ 4 := by
    intro i
    have hle := hupd.ok.sorted_length_le i
    omega
  have htotal : s.totalRecords < 256 ^ 8 := by
    rw [hupd.ok.totalRecords_liveKeys, hcount]
    decide
  have hmem : (⟨[1], value, 0, .written false⟩ : Entry) ∈ s.snapshotRecords := by
    refine hupd.ok.mem_snapshotRecords.mpr ⟨⟨[1], value, 0, .written false⟩, ?_, rfl⟩
    rw [hupd.entryAt, if_pos rfl]
  have hnone : s.snapshotRecords.mapM encodeSnapshotEntry = none := by
    refine mapM_eq_none hmem (if_neg ?_)
    rintro ⟨-, hvalue⟩
    rw [hlen] at hvalue
    exact absurd hvalue (by decide)
  rw [writeSnapshotFile_eq hshards htotal, encodeSnapshot, if_pos htotal, hnone]
  rfl

end

section
variable {s' : Store} (h : StoreOk s) (h' : StoreOk s')
  (hsame : ∀ key, (s.entryAt key).map Entry.masked = (s'.entryAt key).map Entry.masked)
include h h' hsame

theorem mem_shardSlice_congr {i : Fin shardCount} {e : Entry} :
    e ∈ s.shardSlice i ↔ e ∈ s'.shardSlice i := by
  have hmem : ∀ {s : Store}, StoreOk s → (e ∈ s.shardSlice i ↔
      (s.entryAt e.key).map Entry.masked = some e ∧ shardIndex e.key = i) := fun h => by
    rw [h.mem_shardSlice, Option.map_eq_some_iff]
    constructor
    · rintro ⟨e₀, hat, rfl, hi⟩
      exact ⟨⟨e₀, hat, rfl⟩, hi⟩
    · rintro ⟨⟨e₀, hat, rfl⟩, hi⟩
      exact ⟨e₀, hat, rfl, hi⟩
  rw [hmem h, hmem h', hsame]

theorem shardSlice_perm (i : Fin shardCount) : (s.shardSlice i).Perm (s'.shardSlice i) := by
  have hnodup : ∀ {s : Store}, StoreOk s → (s.shardSlice i).Nodup := fun {s} h => by
    have hall : s.snapshotRecords.Nodup :=
      h.snapshotRecords_ascending.imp (by rintro a b hlt rfl; exact List.lt_irrefl _ hlt)
    rw [snapshotRecords, (HeapMerge.mergeSlices_perm _ _).nodup_iff, nodup_flatten] at hall
    exact hall.1 _ (mem_map.mpr ⟨i, mem_finRange _, rfl⟩)
  exact (perm_ext_iff_of_nodup (hnodup h) (hnodup h')).mpr
    (fun e => mem_shardSlice_congr h h' hsame)

/-- **A snapshot is of the entries and the trailer alone:** two stores that have the same entries,
however these came there and wherever they lie, save the same file, or neither can. -/
theorem writeSnapshotFile_canonical (trailer : Bytes) :
    s.writeSnapshotFile trailer = s'.writeSnapshotFile trailer := by
  have hslices := shardSlice_perm h h' hsame
  have hlen : ∀ i, (s.shards i).sorted.length = (s'.shards i).sorted.length := fun i => by
    rw [← h.shardSlice_length, ← h'.shardSlice_length, (hslices i).length_eq]
  have hperm : s.snapshotRecords.Perm s'.snapshotRecords := by
    refine (HeapMerge.mergeSlices_perm _ _).trans (.trans ?_ (HeapMerge.mergeSlices_perm _ _).symm)
    rw [shardSlices, shardSlices, ← flatMap_def, ← flatMap_def]
    exact Perm.flatMap_left _ (fun i _ => hslices i)
  have hrecords := hperm.eq_of_pairwise (fun a b _ _ hab hba => absurd hba (List.lt_asymm hab))
    h.snapshotRecords_ascending h'.snapshotRecords_ascending
  have htotal : s.totalRecords = s'.totalRecords := by
    rw [h.totalRecords_eq, h'.totalRecords_eq, hrecords]
  simp only [writeSnapshotFile, writeSnapshotHeader, hlen, hrecords, htotal]

end

theorem writeSnapshotFile_canonical_order :
    ∃ s s', twoWrites wormEntry plainEntry = .ok s ∧ twoWrites plainEntry wormEntry = .ok s' ∧
      s.writeSnapshotFile [1] = s'.writeSnapshotFile [1] := by
  obtain ⟨s, hs⟩ : ∃ s, twoWrites wormEntry plainEntry = .ok s := ⟨_, rfl⟩
  obtain ⟨s', hs'⟩ : ∃ s, twoWrites plainEntry wormEntry = .ok s := ⟨_, rfl⟩
  obtain ⟨hok, hat⟩ := twoWrites_ok hs
  obtain ⟨hok', hat'⟩ := twoWrites_ok hs'
  refine ⟨s, s', hs, hs', writeSnapshotFile_canonical hok hok' (fun key => ?_) [1]⟩
  rw [hat, hat']
  by_cases h1 : key = wormEntry.1
  · subst h1
    rfl
  · rw [if_neg h1, if_neg h1]

end WormDB
