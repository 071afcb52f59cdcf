import WormDB.StoreInvariant
import WormDB.HeapMerge

/-! # Snapshot files

`writeSnapshot` merges the shards' sorted lists through a heap and writes
`[magic][u32 version][u64 count]` and for each entry
`[u32 key_len][u32 value_len][u8 flags][u64 timestamp][key][value]`,
little-endian.  `loadSnapshot` reads such a file into a store.

Loading any bytes keeps the store's invariant (`StoreOk.loadSnapshot`), and
loading a snapshot into an empty store gives the entries it was written from
(`loadSnapshot_encodeSnapshot`). -/
namespace WormDB
open List ByteCodec

def snapshotMagic : Bytes := ascii "WDBSNAP1"
def snapshotVersion : Nat := 2

/-- Length of an entry's fixed-size header. -/
def snapshotHeaderLen : Nat := 17

/-! ## Writing -/

/-- A copy with the arena bit masked. -/
def Entry.masked (e : Entry) : Entry := { e with flags := { e.flags with arenaOwned := false } }

namespace Store

/-- The copies of a shard's entries, in order. -/
def shardSlice (s : Store) (i : Fin shardCount) : List Entry :=
  (s.shards i).sorted.filterMap (fun p => (s.mem p).map Entry.masked)

def shardSlices (s : Store) : List (List Entry) := (finRange shardCount).map s.shardSlice

def totalRecords (s : Store) : Nat :=
  ((finRange shardCount).map (fun i => (s.shards i).sorted.length)).sum

/-- The entries in the order they are written. -/
def snapshotRecords (s : Store) : List Entry :=
  HeapMerge.mergeSlices (fun a b => decide (a.key < b.key)) s.shardSlices

end Store

/-- A length that does not fit its field traps. -/
def encodeSnapshotEntry (e : Entry) : Option Bytes :=
  if e.key.length < 256 ^ 4 ∧ e.value.length < 256 ^ 4 then
    some (leBytes 4 e.key.length ++ leBytes 4 e.value.length ++ [e.flags.toByte] ++
      leBytes 8 e.timestamp.toNat ++ e.key ++ e.value)
  else none

/-- The bytes of the snapshot file, unless a length or the count does not fit. -/
def Store.encodeSnapshot (s : Store) : Option Bytes :=
  if s.totalRecords < 256 ^ 8 then
    (s.snapshotRecords.mapM encodeSnapshotEntry).map (fun entries =>
      snapshotMagic ++ leBytes 4 snapshotVersion ++ leBytes 8 s.totalRecords ++ entries.flatten)
  else none

/-! ## Loading -/

namespace Store

/-- One turn of the load loop: the rest of the file, or the error that stops it.
The entry's memory belongs to the arena also when the shard refuses it. -/
def loadEntry (alloc : AllocSite → Bool) (bytes : Bytes) (s : Store) :
    Except Fault Bytes × Store :=
  match splitBytes snapshotHeaderLen bytes with
  | none => (.error (.error .corruption), s)
  | some (header, rest) =>
      let keyLen := leNat (slice header 0 4)
      let valueLen := leNat (slice header 4 4)
      let flags := { EntryFlags.ofByte (header.getD 8 0) with arenaOwned := true }
      let timestamp := leNat (slice header 9 8)
      if !alloc .key then (.error (.error .outOfMemory), s)
      else
        match splitBytes keyLen rest with
        | none => (.error (.error .corruption), s)
        | some (key, rest) =>
            if !alloc .value then (.error (.error .outOfMemory), s)
            else
              match splitBytes valueLen rest with
              | none => (.error (.error .corruption), s)
              | some (value, rest) =>
                  if !alloc .entry then (.error (.error .outOfMemory), s)
                  else
                    let (p, s') := s.create ⟨key, value, timestamp.toUInt64, flags⟩
                    match s'.shardPutLocked alloc (shardIndex key) p with
                    | .error f => (.error f, s')
                    | .ok s'' => (.ok rest, s'')

/-- The load loop; `alloc n` is the allocator of the `n`-th entry. -/
def loadEntries (alloc : Nat → AllocSite → Bool) :
    Nat → Nat → Bytes → Store → Except Fault Bytes × Store
  | 0, _, bytes, s => (.ok bytes, s)
  | count + 1, n, bytes, s =>
      match s.loadEntry (alloc n) bytes with
      | (.error f, s') => (.error f, s')
      | (.ok rest, s') => loadEntries alloc count (n + 1) rest s'

/-- The checks before the first entry: the rest of the file and the entry count. -/
def loadHeader (bytes : Bytes) : Option (Nat × Bytes) :=
  match splitBytes snapshotMagic.length bytes with
  | none => none
  | some (magic, rest) =>
      if magic ≠ snapshotMagic then none
      else
        match splitBytes 4 rest with
        | none => none
        | some (version, rest) =>
            if leNat version ≠ 1 ∧ leNat version ≠ 2 then none
            else
              match splitBytes 8 rest with
              | none => none
              | some (count, rest) =>
                  -- every entry takes a header at least
                  if leNat count > bytes.length / 17 then none else some (leNat count, rest)

/-- `alloc 0` is the allocator of the read buffer and of the presizing of the
shards, entries are numbered from one. -/
def loadSnapshot (alloc : Nat → AllocSite → Bool) (file : Option Bytes) (s : Store) :
    Except Fault Unit × Store :=
  match file with
  | none => (.ok (), s)
  | some bytes =>
      if bytes.length = 0 then (.ok (), s)
      else if !alloc 0 .record then (.error (.error .outOfMemory), s)
      else
        match loadHeader bytes with
        | none => (.error (.error .corruption), s)
        | some (count, rest) =>
            if !(alloc 0 .reserveData && alloc 0 .reserveSorted) then
              (.error (.error .outOfMemory), s)
            else
              match loadEntries alloc count 1 rest s with
              | (.error f, s') => (.error f, s')
              | (.ok _, s') => (.ok (), s')

end Store

/-! ## Loading keeps the invariant -/

section
variable {s : Store}

theorem StoreOk.loadEntry (h : StoreOk s) (alloc : AllocSite → Bool) (bytes : Bytes) :
    StoreOk (s.loadEntry alloc bytes).2 ∧ (s.loadEntry alloc bytes).2.sst = s.sst := by
  unfold Store.loadEntry
  cases splitBytes snapshotHeaderLen bytes with
  | none => exact ⟨h, rfl⟩
  | some header =>
    simp only []
    split
    · exact ⟨h, rfl⟩
    cases splitBytes (leNat (slice header.1 0 4)) header.2 with
    | none => exact ⟨h, rfl⟩
    | some key =>
      simp only []
      split
      · exact ⟨h, rfl⟩
      cases splitBytes (leNat (slice header.1 4 4)) key.2 with
      | none => exact ⟨h, rfl⟩
      | some value =>
        simp only []
        split
        · exact ⟨h, rfl⟩
        generalize he : (⟨key.1, value.1, _, _⟩ : Entry) = e
        obtain ⟨hkeeps, hmem, hout⟩ := h.create e
        have hput := hkeeps.ok.shardPut alloc hmem hout
        rw [show e.key = key.1 by rw [← he]] at hput
        generalize (s.create e).2.shardPutLocked alloc (shardIndex key.1) (s.create e).1 =
          result at hput ⊢
        obtain f | s'' := result
        · exact ⟨hkeeps.ok, hkeeps.sst⟩
        · exact ⟨hput.ok, hput.sst.trans hkeeps.sst⟩

theorem StoreOk.loadEntries (h : StoreOk s) (alloc : Nat → AllocSite → Bool) (count n : Nat)
    (bytes : Bytes) : StoreOk (Store.loadEntries alloc count n bytes s).2 ∧
      (Store.loadEntries alloc count n bytes s).2.sst = s.sst := by
  induction count generalizing s n bytes with
  | zero => exact ⟨h, rfl⟩
  | succ count ih =>
    obtain ⟨hstep, hsst⟩ := h.loadEntry (alloc n) bytes
    rw [Store.loadEntries]
    generalize s.loadEntry (alloc n) bytes = result at hstep hsst ⊢
    obtain ⟨f | rest, s'⟩ := result
    · exact ⟨hstep, hsst⟩
    · obtain ⟨hok, hsst'⟩ := ih hstep (n + 1) rest
      exact ⟨hok, hsst'.trans hsst⟩

/-- **Loading any file** keeps the invariant, also where it stops early. -/
theorem StoreOk.loadSnapshot (h : StoreOk s) (alloc : Nat → AllocSite → Bool)
    (file : Option Bytes) : StoreOk (Store.loadSnapshot alloc file s).2 ∧
      (Store.loadSnapshot alloc file s).2.sst = s.sst := by
  unfold Store.loadSnapshot
  cases file with
  | none => exact ⟨h, rfl⟩
  | some bytes =>
    simp only []
    split
    · exact ⟨h, rfl⟩
    split
    · exact ⟨h, rfl⟩
    cases Store.loadHeader bytes with
    | none => exact ⟨h, rfl⟩
    | some header =>
      simp only []
      split
      · exact ⟨h, rfl⟩
      have hload := h.loadEntries alloc header.1 1 header.2
      generalize Store.loadEntries alloc header.1 1 header.2 s = result at hload ⊢
      obtain ⟨f | rest, s'⟩ := result
      · exact hload
      · exact hload

/-! ## Loading what was written -/

/-- The copy of an entry that the arena owns. -/
def Entry.inArena (e : Entry) : Entry := { e with flags := { e.flags with arenaOwned := true } }

@[simp] theorem inArena_key (e : Entry) : e.inArena.key = e.key := rfl

variable {e : Entry} {bytes : Bytes}

/-- Reading back one entry. -/
theorem StoreOk.loadEntry_encode (h : StoreOk s) {alloc : AllocSite → Bool}
    (halloc : ∀ site, alloc site = true)
    (hbytes : encodeSnapshotEntry e = some bytes) (rest : Bytes) :
    ∃ s', s.loadEntry alloc (bytes ++ rest) = (.ok rest, s') ∧
      Updates s s' e.key (some e.inArena) := by
  unfold encodeSnapshotEntry at hbytes
  split at hbytes
  case isFalse => cases hbytes
  rename_i hfit
  obtain ⟨hk, hv⟩ := hfit
  cases hbytes
  obtain ⟨hkeeps, hmem, hout⟩ := h.create e.inArena
  obtain ⟨s', hput, hupd⟩ := hkeeps.ok.shardPut_ok halloc hmem hout
  refine ⟨s', ?_, hkeeps.updates hupd⟩
  generalize hh : leBytes 4 e.key.length ++ leBytes 4 e.value.length ++ [e.flags.toByte] ++
    leBytes 8 e.timestamp.toNat = header
  have hlen : header.length = snapshotHeaderLen := by simp [← hh, snapshotHeaderLen]
  have hkeyLen : slice header 0 4 = leBytes 4 e.key.length :=
    slice_eq [] _ (leBytes 4 e.value.length ++ [e.flags.toByte] ++ leBytes 8 e.timestamp.toNat)
      (by simp [← hh]) rfl (by simp)
  have hvalueLen : slice header 4 4 = leBytes 4 e.value.length :=
    slice_eq (leBytes 4 e.key.length) _ ([e.flags.toByte] ++ leBytes 8 e.timestamp.toNat)
      (by simp [← hh]) (by simp) (by simp)
  have hflags : header.getD 8 0 = e.flags.toByte :=
    getD_eq (leBytes 4 e.key.length ++ leBytes 4 e.value.length) (leBytes 8 e.timestamp.toNat)
      (by simp [← hh]) (by simp)
  have htime : slice header 9 8 = leBytes 8 e.timestamp.toNat :=
    slice_eq (leBytes 4 e.key.length ++ leBytes 4 e.value.length ++ [e.flags.toByte]) _ []
      (by simp [← hh]) (by simp) (by simp)
  have htime64 : e.timestamp.toNat < 256 ^ 8 := e.timestamp.toNat_lt
  have hentry : (⟨e.key, e.value, e.timestamp, { e.flags with arenaOwned := true }⟩ : Entry) =
    e.inArena := rfl
  rw [show header ++ e.key ++ e.value ++ rest = header ++ (e.key ++ (e.value ++ rest)) by simp,
    Store.loadEntry, splitBytes_append _ hlen]
  simp only [hkeyLen, hvalueLen, hflags, htime, leNat_leBytes_of_lt hk, leNat_leBytes_of_lt hv,
    leNat_leBytes_of_lt htime64, halloc, Bool.not_true, Bool.false_eq_true, if_false,
    splitBytes_append _ rfl, EntryFlags.ofByte_toByte, Wal.toUInt64_toNat, hentry]
  rw [inArena_key] at hput
  rw [hput]

/-- The entry a list has under a key. -/
def entryIn (es : List Entry) (key : Bytes) : Option Entry :=
  es.find? (fun e => decide (e.key = key))

variable {es : List Entry} {key : Bytes}

theorem entryIn_some (h : entryIn es key = some e) : e ∈ es ∧ e.key = key :=
  ⟨mem_of_find?_eq_some h, by simpa using find?_some h⟩

theorem entryIn_none (h : entryIn es key = none) : ∀ e ∈ es, e.key ≠ key := by
  intro e he
  simpa using find?_eq_none.mp h e he

theorem entryIn_cons (e : Entry) (es : List Entry) (key : Bytes) :
    entryIn (e :: es) key = if e.key = key then some e else entryIn es key := by
  rw [entryIn, find?_cons]
  by_cases hk : e.key = key
  · simp [hk]
  · simp [hk, entryIn]

variable {alloc : Nat → AllocSite → Bool} {chunks : List Bytes}

section
variable (h : StoreOk s)
include h

/-- **The load loop over written entries**, where equal keys mean equal entries. -/
theorem StoreOk.loadEntries_encode (halloc : ∀ n site, alloc n site = true)
    (hchunks : es.mapM encodeSnapshotEntry = some chunks)
    (hfun : ∀ a ∈ es, ∀ b ∈ es, a.key = b.key → a = b) (n : Nat) (rest : Bytes) :
    ∃ s', Store.loadEntries alloc es.length n (chunks.flatten ++ rest) s = (.ok rest, s') ∧
      StoreOk s' ∧ s'.sst = s.sst ∧
      ∀ k, s'.entryAt k = ((entryIn es k).map Entry.inArena).or (s.entryAt k) := by
  induction es generalizing s chunks n with
  | nil =>
    obtain rfl : [] = chunks := Option.some.inj hchunks
    exact ⟨s, rfl, h, rfl, fun k => rfl⟩
  | cons e es ih =>
    rw [mapM_cons] at hchunks
    obtain ⟨bytes, hbytes, hrest⟩ := Option.bind_eq_some_iff.mp hchunks
    obtain ⟨chunks', hchunks', hcons⟩ := Option.bind_eq_some_iff.mp hrest
    cases hcons
    obtain ⟨s₁, hload, hupd⟩ := h.loadEntry_encode (halloc n) hbytes (chunks'.flatten ++ rest)
    obtain ⟨s', hloop, hok, hsst, hat⟩ := ih hupd.ok hchunks'
      (fun a ha b hb => hfun a (mem_cons_of_mem _ ha) b (mem_cons_of_mem _ hb)) (n + 1)
    refine ⟨s', ?_, hok, hsst.trans hupd.sst, fun k => ?_⟩
    · rw [length_cons, Store.loadEntries, flatten_cons, append_assoc, hload]
      exact hloop
    · rw [hat k, hupd.entryAt k, entryIn_cons]
      by_cases hk : k = e.key
      · rw [if_pos hk, if_pos hk.symm]
        cases hf : entryIn es k with
        | none => rfl
        | some e' =>
          obtain ⟨hmem, hkey⟩ := entryIn_some hf
          rw [hfun e' (mem_cons_of_mem _ hmem) e mem_cons_self (hkey.trans hk)]
          rfl
      · rw [if_neg hk, if_neg (fun hx => hk hx.symm)]

theorem StoreOk.mem_shardSlice {i : Fin shardCount} : e ∈ s.shardSlice i ↔
      ∃ e₀, s.entryAt e₀.key = some e₀ ∧ e = e₀.masked ∧ shardIndex e₀.key = i := by
  rw [Store.shardSlice, mem_filterMap]
  constructor
  · rintro ⟨p, hp, hpe⟩
    obtain ⟨e₀, he₀, rfl⟩ := Option.map_eq_some_iff.mp hpe
    obtain ⟨e₁, he₁, hi⟩ := (h.shards i).live p hp
    cases he₀.symm.trans he₁
    exact ⟨e₀, h.entryAt_iff.mpr ⟨p, hi ▸ hp, he₀, rfl⟩, rfl, hi⟩
  · rintro ⟨e₀, hat, rfl, rfl⟩
    obtain ⟨p, hp, he₀, -⟩ := h.entryAt_iff.mp hat
    exact ⟨p, hp, by rw [he₀]; rfl⟩

/-- What is written is the store's entries. -/
theorem StoreOk.mem_snapshotRecords :
    e ∈ s.snapshotRecords ↔ ∃ e₀, s.entryAt e₀.key = some e₀ ∧ e = e₀.masked := by
  rw [Store.snapshotRecords, (HeapMerge.mergeSlices_perm _ _).mem_iff, mem_flatten]
  constructor
  · rintro ⟨slice, hslice, he⟩
    obtain ⟨i, -, rfl⟩ := mem_map.mp hslice
    obtain ⟨e₀, hat, hmasked, -⟩ := h.mem_shardSlice.mp he
    exact ⟨e₀, hat, hmasked⟩
  · rintro ⟨e₀, hat, hmasked⟩
    exact ⟨_, mem_map.mpr ⟨shardIndex e₀.key, mem_finRange _, rfl⟩,
      h.mem_shardSlice.mpr ⟨e₀, hat, hmasked, rfl⟩⟩

theorem StoreOk.shardSlice_length (i : Fin shardCount) :
    (s.shardSlice i).length = (s.shards i).sorted.length := by
  unfold Store.shardSlice
  have hlive := (h.shards i).live
  generalize (s.shards i).sorted = ps at hlive
  induction ps with
  | nil => rfl
  | cons p ps ih =>
    obtain ⟨e, he, -⟩ := hlive p mem_cons_self
    rw [filterMap_cons, he]
    exact congrArg Nat.succ (ih (fun q hq => hlive q (mem_cons_of_mem _ hq)))

theorem StoreOk.totalRecords_eq : s.totalRecords = s.snapshotRecords.length := by
  rw [Store.snapshotRecords, (HeapMerge.mergeSlices_perm _ _).length_eq, length_flatten,
    Store.totalRecords, Store.shardSlices, map_map]
  congr 1
  exact map_congr_left (fun i _ => (h.shardSlice_length i).symm)

theorem StoreOk.entryAt_key (hat : s.entryAt key = some e) : e.key = key := by
  obtain ⟨p, -, -, hkey⟩ := h.entryAt_iff.mp hat
  exact hkey

/-- The snapshot has under a key what the store has. -/
theorem StoreOk.entryIn_snapshotRecords (key : Bytes) :
    (entryIn s.snapshotRecords key).map Entry.content = s.view key := by
  cases hf : entryIn s.snapshotRecords key with
  | none =>
    cases hat : s.entryAt key with
    | none => simp [Store.view, hat]
    | some e₀ =>
      have hkey := h.entryAt_key hat
      have hmem := h.mem_snapshotRecords.mpr ⟨e₀, hkey ▸ hat, rfl⟩
      exact absurd hkey (entryIn_none hf e₀.masked hmem)
  | some e =>
    obtain ⟨hmem, hkey⟩ := entryIn_some hf
    obtain ⟨e₀, hat, rfl⟩ := h.mem_snapshotRecords.mp hmem
    have hat' : s.entryAt key = some e₀ := hkey ▸ hat
    rw [Store.view, hat']
    rfl

end

theorem mapM_length_le (h : es.mapM encodeSnapshotEntry = some chunks) :
    es.length * 17 ≤ chunks.flatten.length := by
  induction es generalizing chunks with
  | nil => simp
  | cons e es ih =>
    rw [mapM_cons] at h
    obtain ⟨bytes, hbytes, hrest⟩ := Option.bind_eq_some_iff.mp h
    obtain ⟨chunks', hchunks', hcons⟩ := Option.bind_eq_some_iff.mp hrest
    cases hcons
    have htail := ih hchunks'
    have hhead : 17 ≤ bytes.length := by
      unfold encodeSnapshotEntry at hbytes
      split at hbytes
      · rw [← Option.some.inj hbytes]
        simp
        omega
      · cases hbytes
    rw [flatten_cons, length_append, length_cons]
    omega

/-- What the loader finds before the entries, whatever follows them. -/
theorem StoreOk.loadHeader_encodeSnapshot (h : StoreOk s) (htotal : s.totalRecords < 256 ^ 8)
    (hchunks : s.snapshotRecords.mapM encodeSnapshotEntry = some chunks) (trailer : Bytes) :
    Store.loadHeader (snapshotMagic ++ leBytes 4 snapshotVersion ++ leBytes 8 s.totalRecords ++
      chunks.flatten ++ trailer) = some (s.totalRecords, chunks.flatten ++ trailer) := by
  have hcount := h.totalRecords_eq
  have hroom := mapM_length_le hchunks
  have hfit : ¬ s.totalRecords > (snapshotMagic ++ (leBytes 4 snapshotVersion ++
      (leBytes 8 s.totalRecords ++ (chunks.flatten ++ trailer)))).length / 17 := by
    simp only [length_append, leBytes_length]
    omega
  rw [append_assoc, append_assoc, append_assoc, Store.loadHeader,
    splitBytes_append _ rfl]
  simp only [ne_eq, not_true_eq_false, if_false]
  rw [splitBytes_append _ (leBytes_length 4 _)]
  simp only [leNat_leBytes_of_lt (show snapshotVersion < 256 ^ 4 by decide)]
  rw [if_neg (by decide), splitBytes_append _ (leBytes_length 8 _)]
  simp only [leNat_leBytes_of_lt htotal, if_neg hfit]

/-- A snapshot with anything behind its entries loads back into an empty store. -/
theorem loadSnapshot_append (h : StoreOk s) (halloc : ∀ n site, alloc n site = true)
    (hbytes : s.encodeSnapshot = some bytes) (trailer : Bytes) (sst : Bytes → Option Bool) :
    (∃ rest, Store.loadHeader (bytes ++ trailer) = some (s.totalRecords, rest)) ∧
    ∃ s', Store.loadSnapshot alloc (some (bytes ++ trailer)) (Store.init sst) = (.ok (), s') ∧
      StoreOk s' ∧ s'.sst = sst ∧ ∀ k, s'.view k = s.view k := by
  unfold Store.encodeSnapshot at hbytes
  split at hbytes
  case isFalse => cases hbytes
  rename_i htotal
  obtain ⟨chunks, hchunks, rfl⟩ := Option.map_eq_some_iff.mp hbytes
  have hfun : ∀ a ∈ s.snapshotRecords, ∀ b ∈ s.snapshotRecords, a.key = b.key → a = b := by
    intro a ha b hb hkey
    obtain ⟨a₀, hat, rfl⟩ := h.mem_snapshotRecords.mp ha
    obtain ⟨b₀, hbt, rfl⟩ := h.mem_snapshotRecords.mp hb
    have hkey' : a₀.key = b₀.key := hkey
    rw [hkey', hbt] at hat
    rw [Option.some.inj hat]
  obtain ⟨s', hload, hok, hsst, hat⟩ :=
    (init_ok sst).loadEntries_encode halloc hchunks hfun 1 trailer
  have hheader := h.loadHeader_encodeSnapshot htotal hchunks trailer
  have hpos : (snapshotMagic ++ leBytes 4 snapshotVersion ++ leBytes 8 s.totalRecords ++
      chunks.flatten ++ trailer).length ≠ 0 := by
    simp
  refine ⟨⟨_, hheader⟩, s', ?_, hok, hsst, fun k => ?_⟩
  · rw [Store.loadSnapshot]
    simp only [if_neg hpos, halloc, Bool.not_true, Bool.false_eq_true, if_false, hheader,
      Bool.and_self]
    rw [h.totalRecords_eq, hload]
  · rw [Store.view, hat k, init_entryAt, Option.or_none, Option.map_map,
      ← h.entryIn_snapshotRecords k]
    rfl

/-- **A snapshot loads back into an empty store** with the same contents. -/
theorem loadSnapshot_encodeSnapshot (h : StoreOk s) (halloc : ∀ n site, alloc n site = true)
    (hbytes : s.encodeSnapshot = some bytes) (sst : Bytes → Option Bool) :
    ∃ s', Store.loadSnapshot alloc (some bytes) (Store.init sst) = (.ok (), s') ∧ StoreOk s' ∧
      s'.sst = sst ∧ ∀ k, s'.view k = s.view k := by
  have hload := (loadSnapshot_append h halloc hbytes [] sst).2
  rwa [append_nil] at hload

end

end WormDB
