import WormDB.Types
import WormDB.OrderedIndex
import Mathlib.Data.List.Perm.Basic

/-! # Shards

A shard keeps the same entries twice: in a hash map from keys to entry pointers,
and in a list of the pointers sorted by key.  Entries live in memory addressed by
`Ptr`; the hash map's key of an entry is a slice of the entry's own key bytes, so
a slot names the entry whose key it borrows.  Freed memory is `none`.

`ShardOk` is the representation invariant, and this module has what each of the
three mutations of the source does to it: inserting a new entry, putting an entry
in the place of another with the same key, and removing one.  Everything else the
store does to memory leaves the keys of live entries alone (`ShardOk.of_keys`). -/
namespace WormDB
open List ByteCodec OrderedIndex

abbrev Ptr := Nat

def shardCount : Nat := 256

/-- 64-bit FNV-1a. -/
def fnv1a64 (key : Bytes) : Nat :=
  key.foldl (fun hash b => (hash ^^^ b.toNat) * 0x100000001b3 % 2 ^ 64) 0xcbf29ce484222325

def shardIndex (key : Bytes) : Fin shardCount :=
  ⟨fnv1a64 key &&& (shardCount - 1), Nat.lt_succ_of_le Nat.and_le_right⟩

abbrev Memory := Ptr → Option Entry

/-- The key bytes of the entry at `p`. -/
def keyAt (mem : Memory) (p : Ptr) : Bytes :=
  match mem p with
  | some e => e.key
  | none => []

/-- A slot of the hash map: the entry whose key bytes it borrows, and its value. -/
structure Slot where
  keyPtr : Ptr
  valuePtr : Ptr

structure Shard where
  data : List Slot
  sorted : List Ptr

namespace Shard

def empty : Shard := ⟨[], []⟩

/-- The slot's key is `key`. -/
def hasKey (mem : Memory) (key : Bytes) (slot : Slot) : Bool :=
  decide (keyAt mem slot.keyPtr = key)

def get (shard : Shard) (mem : Memory) (key : Bytes) : Option Ptr :=
  (shard.data.find? (hasKey mem key)).map Slot.valuePtr

def fetchRemove (shard : Shard) (mem : Memory) (key : Bytes) : Option (Ptr × Shard) :=
  match shard.data.find? (hasKey mem key) with
  | none => none
  | some slot => some (slot.valuePtr, { shard with data := shard.data.eraseP (hasKey mem key) })

/-- An existing slot keeps its key and gets the new value. -/
def putAssumeCapacity (shard : Shard) (mem : Memory) (p : Ptr) : Shard :=
  if shard.data.any (hasKey mem (keyAt mem p)) then
    { shard with data := shard.data.map (fun slot =>
        if hasKey mem (keyAt mem p) slot then { slot with valuePtr := p } else slot) }
  else { shard with data := ⟨p, p⟩ :: shard.data }

end Shard

def lowerBoundKey (mem : Memory) (items : List Ptr) (key : Bytes) : Nat :=
  lowerBound (keyAt mem) items key

/-! ## The representation invariant -/

/-- The two views of shard `i` hold the same live entries, each under its own key
bytes, in strictly ascending order, and all of them belong to the shard. -/
structure ShardOk (mem : Memory) (i : Fin shardCount) (shard : Shard) : Prop where
  same : (shard.data.map Slot.valuePtr).Perm shard.sorted
  keyed : ∀ slot ∈ shard.data, slot.keyPtr = slot.valuePtr
  live : ∀ p ∈ shard.sorted, ∃ e, mem p = some e ∧ shardIndex e.key = i
  ascending : Ascending (keyAt mem) shard.sorted

theorem keyAt_of_some {mem : Memory} {p : Ptr} {e : Entry} (h : mem p = some e) :
    keyAt mem p = e.key := by
  rw [keyAt, h]

theorem ShardOk.empty (mem : Memory) (i : Fin shardCount) : ShardOk mem i Shard.empty where
  same := Perm.refl _
  keyed := by simp [Shard.empty]
  live := by simp [Shard.empty]
  ascending := Pairwise.nil

section
variable {mem : Memory} {i : Fin shardCount} {shard : Shard}

/-- Only the keys of the shard's own entries matter. -/
theorem ShardOk.of_keys {mem' : Memory} (h : ShardOk mem i shard)
    (hkeys : ∀ p ∈ shard.sorted, ∃ e, mem' p = some e ∧ e.key = keyAt mem p) :
    ShardOk mem' i shard where
  same := h.same
  keyed := h.keyed
  live := by
    intro p hp
    obtain ⟨e, he, hkey⟩ := hkeys p hp
    obtain ⟨e₀, he₀, hi⟩ := h.live p hp
    exact ⟨e, he, by rw [hkey, keyAt_of_some he₀, hi]⟩
  ascending := by
    refine Pairwise.imp_of_mem ?_ h.ascending
    intro a b ha hb hlt
    obtain ⟨ea, hea, hka⟩ := hkeys a ha
    obtain ⟨eb, heb, hkb⟩ := hkeys b hb
    rwa [keyAt_of_some hea, keyAt_of_some heb, hka, hkb]

variable {p q : Ptr}

/-- A key occurs once in the sorted list. -/
theorem ShardOk.key_inj (h : ShardOk mem i shard) (hp : p ∈ shard.sorted)
    (hq : q ∈ shard.sorted) (hkey : keyAt mem p = keyAt mem q) : p = q := by
  have hfound := getElem?_lowerBound h.ascending hp
  rw [hkey, getElem?_lowerBound h.ascending hq] at hfound
  exact (Option.some.inj hfound).symm

theorem ShardOk.nodup (h : ShardOk mem i shard) : shard.sorted.Nodup := by
  refine Pairwise.imp ?_ h.ascending
  rintro a b hlt rfl
  exact List.lt_irrefl _ hlt

variable {slot : Slot}

theorem ShardOk.slot_mem (h : ShardOk mem i shard) (hs : slot ∈ shard.data) :
    slot.valuePtr ∈ shard.sorted :=
  h.same.mem_iff.mp (mem_map_of_mem hs)

variable {key : Bytes}

section
variable (h : ShardOk mem i shard)
include h

theorem ShardOk.hasKey_iff (hs : slot ∈ shard.data) : Shard.hasKey mem key slot = true ↔ keyAt mem slot.valuePtr = key := by
  rw [Shard.hasKey, decide_eq_true_eq, h.keyed slot hs]

theorem ShardOk.find_iff : shard.data.find? (Shard.hasKey mem key) = some slot ↔
      slot ∈ shard.data ∧ keyAt mem slot.valuePtr = key := by
  constructor
  · intro hf
    have hs := mem_of_find?_eq_some hf
    exact ⟨hs, (h.hasKey_iff hs).mp (find?_some hf)⟩
  · rintro ⟨hs, hkey⟩
    cases hf : shard.data.find? (Shard.hasKey mem key) with
    | none => exact absurd ((h.hasKey_iff hs).mpr hkey) (find?_eq_none.mp hf slot hs)
    | some slot' =>
      have hs' := mem_of_find?_eq_some hf
      have hkey' := (h.hasKey_iff hs').mp (find?_some hf)
      have hval := h.key_inj (h.slot_mem hs') (h.slot_mem hs) (hkey'.trans hkey.symm)
      have hptr : slot'.keyPtr = slot.keyPtr := by rw [h.keyed _ hs', h.keyed _ hs, hval]
      exact congrArg some (by cases slot; cases slot'; simp_all)

/-- **The hash map finds exactly the sorted list's entry with that key.** -/
theorem ShardOk.get_iff : shard.get mem key = some p ↔ p ∈ shard.sorted ∧ keyAt mem p = key := by
  rw [Shard.get, Option.map_eq_some_iff]
  constructor
  · rintro ⟨slot, hf, rfl⟩
    obtain ⟨hs, hkey⟩ := h.find_iff.mp hf
    exact ⟨h.slot_mem hs, hkey⟩
  · rintro ⟨hp, hkey⟩
    obtain ⟨slot, hs, rfl⟩ := mem_map.mp (h.same.mem_iff.mpr hp)
    exact ⟨slot, h.find_iff.mpr ⟨hs, hkey⟩, rfl⟩

theorem ShardOk.get_none_iff :
    shard.get mem key = none ↔ ∀ p ∈ shard.sorted, keyAt mem p ≠ key := by
  constructor
  · intro hn p hp hkey
    rw [h.get_iff.mpr ⟨hp, hkey⟩] at hn
    cases hn
  · intro hall
    cases hg : shard.get mem key with
    | none => rfl
    | some p =>
      obtain ⟨hp, hkey⟩ := h.get_iff.mp hg
      exact absurd hkey (hall p hp)

/-- Taking an entry out of the hash map. -/
theorem ShardOk.fetchRemove (hg : shard.get mem key = some p) :
    ∃ shard', shard.fetchRemove mem key = some (p, shard') ∧ shard'.sorted = shard.sorted ∧
      (p :: shard'.data.map Slot.valuePtr).Perm shard.sorted ∧
      ∀ slot ∈ shard'.data, slot.keyPtr = slot.valuePtr := by
  obtain ⟨slot, hf, rfl⟩ := Option.map_eq_some_iff.mp hg
  obtain ⟨hs, hkey⟩ := h.find_iff.mp hf
  refine ⟨{ shard with data := shard.data.eraseP (Shard.hasKey mem key) }, ?_, rfl, ?_, ?_⟩
  · rw [Shard.fetchRemove, hf]
  · obtain ⟨found, l₁, l₂, -, hfound, hsplit, herase⟩ :=
      exists_of_eraseP hs ((h.hasKey_iff hs).mpr hkey)
    have hmem : found ∈ shard.data := by rw [hsplit]; simp
    have hval : found.valuePtr = slot.valuePtr :=
      h.key_inj (h.slot_mem hmem) (h.slot_mem hs) (((h.hasKey_iff hmem).mp hfound).trans hkey.symm)
    refine Perm.trans ?_ h.same
    rw [herase, hsplit, ← hval, map_append, map_append, map_cons]
    exact perm_middle.symm
  · intro s hs'
    exact h.keyed s (mem_of_mem_eraseP hs')

end

/-- Putting a key the slots do not have. -/
theorem putAssumeCapacity_new (hnew : ∀ slot ∈ shard.data, keyAt mem slot.keyPtr ≠ keyAt mem p) :
    shard.putAssumeCapacity mem p = { shard with data := ⟨p, p⟩ :: shard.data } := by
  rw [Shard.putAssumeCapacity, if_neg]
  rw [any_eq_true]
  rintro ⟨slot, hs, hk⟩
  exact hnew slot hs (of_decide_eq_true hk)

/-! ## The three mutations -/

variable {e : Entry}

section
variable (h : ShardOk mem i shard)
include h

/-- A new entry goes to the front of the hash map and to its place in the list. -/
theorem ShardOk.insert (he : mem p = some e)
    (hi : shardIndex e.key = i) (hnew : shard.get mem e.key = none) :
    ShardOk mem i ⟨(shard.putAssumeCapacity mem p).data,
      shard.sorted.insertIdx (lowerBoundKey mem shard.sorted e.key) p⟩ := by
  have hkey : keyAt mem p = e.key := keyAt_of_some he
  have hnone := h.get_none_iff.mp hnew
  have hle := (lowerBound_split h.ascending e.key).1
  have hput : shard.putAssumeCapacity mem p = { shard with data := ⟨p, p⟩ :: shard.data } := by
    refine putAssumeCapacity_new (fun slot hs => ?_)
    rw [h.keyed slot hs, hkey]
    exact hnone _ (h.slot_mem hs)
  rw [hput]
  refine ⟨?_, ?_, ?_, ?_⟩
  · exact (h.same.cons p).trans (perm_insertIdx p shard.sorted hle).symm
  · intro slot hs
    rcases mem_cons.mp hs with rfl | hs
    · rfl
    · exact h.keyed slot hs
  · intro q hq
    rcases (mem_insertIdx hle).mp hq with rfl | hq
    · exact ⟨e, he, hi⟩
    · exact h.live q hq
  · rw [lowerBoundKey, ← hkey]
    refine h.ascending.insertIdx (fun a ha => ?_)
    rw [hkey]
    exact hnone a ha

/-- An entry's key finds its position in the sorted list. -/
theorem ShardOk.getElem?_get (hg : shard.get mem key = some p) :
    shard.sorted[lowerBoundKey mem shard.sorted key]? = some p := by
  obtain ⟨hmem, hkey⟩ := h.get_iff.mp hg
  rw [lowerBoundKey, ← hkey]
  exact getElem?_lowerBound h.ascending hmem

/-- The sorted list is an entry and the others. -/
theorem ShardOk.perm_get (hg : shard.get mem key = some p) :
    (p :: shard.sorted.eraseIdx (lowerBoundKey mem shard.sorted key)).Perm shard.sorted := by
  obtain ⟨hlt, hget⟩ := List.getElem?_eq_some_iff.mp (h.getElem?_get hg)
  rw [← hget]
  exact getElem_cons_eraseIdx_perm hlt

/-- None of the others has the key. -/
theorem ShardOk.key_ne_of_mem_eraseIdx (hg : shard.get mem key = some p)
    (hq : q ∈ shard.sorted.eraseIdx (lowerBoundKey mem shard.sorted key)) : keyAt mem q ≠ key := by
  intro hkey
  have hperm := h.perm_get hg
  have hqp : q = p := h.key_inj (mem_of_mem_eraseIdx hq) (h.get_iff.mp hg).1
    (hkey.trans (h.get_iff.mp hg).2.symm)
  exact (nodup_cons.mp (hperm.nodup_iff.mpr h.nodup)).1 (hqp ▸ hq)

/-- An entry takes the place of another one with the same key. -/
theorem ShardOk.replace {old : Ptr}
    (he : mem p = some e) (hi : shardIndex e.key = i) (hold : shard.get mem e.key = some old) :
    ∃ shard', shard.fetchRemove mem e.key = some (old, shard') ∧
      ShardOk mem i ⟨(shard'.putAssumeCapacity mem p).data,
        shard.sorted.set (lowerBoundKey mem shard.sorted e.key) p⟩ := by
  have hkey : keyAt mem p = e.key := keyAt_of_some he
  obtain ⟨hmem, hkold⟩ := h.get_iff.mp hold
  obtain ⟨shard', hfetch, -, hperm, hkeyed⟩ := h.fetchRemove hold
  have hidx := h.getElem?_get hold
  refine ⟨shard', hfetch, ?_⟩
  -- both lists lose `old` and gain `p`
  have herase : (shard'.data.map Slot.valuePtr).Perm
      (shard.sorted.eraseIdx (lowerBoundKey mem shard.sorted e.key)) :=
    (perm_cons old).mp (hperm.trans (h.perm_get hold).symm)
  have hput : shard'.putAssumeCapacity mem p = { shard' with data := ⟨p, p⟩ :: shard'.data } := by
    refine putAssumeCapacity_new (fun slot hs => ?_)
    rw [hkeyed slot hs, hkey]
    exact h.key_ne_of_mem_eraseIdx hold (herase.mem_iff.mp (mem_map_of_mem hs))
  rw [hput]
  obtain ⟨hlt, hget⟩ := List.getElem?_eq_some_iff.mp hidx
  refine ⟨?_, ?_, ?_, ?_⟩
  · exact (herase.cons p).trans (set_perm_cons_eraseIdx hlt p).symm
  · intro slot hs
    rcases mem_cons.mp hs with rfl | hs
    · rfl
    · exact hkeyed slot hs
  · intro q hq
    rcases mem_or_eq_of_mem_set hq with hq | rfl
    · exact h.live q hq
    · exact ⟨e, he, hi⟩
  · exact h.ascending.set hidx (hkey.trans hkold.symm)

end

/-- Removing an entry from both views. -/
theorem ShardOk.remove (h : ShardOk mem i shard) {key : Bytes} {p : Ptr}
    (hg : shard.get mem key = some p) :
    ∃ shard', shard.fetchRemove mem key = some (p, shard') ∧
      ShardOk mem i ⟨shard'.data,
        shard.sorted.eraseIdx (lowerBoundKey mem shard.sorted key)⟩ := by
  obtain ⟨shard', hfetch, -, hperm, hkeyed⟩ := h.fetchRemove hg
  refine ⟨shard', hfetch, ?_, hkeyed, ?_, h.ascending.eraseIdx _⟩
  · exact (perm_cons p).mp (hperm.trans (h.perm_get hg).symm)
  · intro q hq
    exact h.live q (mem_of_mem_eraseIdx hq)

end

end WormDB
