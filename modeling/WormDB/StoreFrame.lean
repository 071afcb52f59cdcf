import WormDB.StoreInvariant

/-! # Calls on different shards

A write prepares its entry, does something else while it holds its shard, and then puts the
entry in.  Meanwhile calls on other shards change the store.  `Frame` is what such a call
leaves alone: every other shard and the memory of its entries, and entries that are in no
shard yet.  So a prepared upsert stays one that can be committed (`Ready.frame`). -/
namespace WormDB
open ByteCodec

/-- The entry that a prepared upsert has made and that no shard lists yet. -/
def Store.PreparedUpsert.fresh : Store.PreparedUpsert → Option Ptr
  | .putEntry p => some p
  | _ => none

/-- A prepared upsert that can be committed. -/
def Ready (s : Store) (key value : Bytes) (isWorm : Bool) (timestamp : UInt64) :
    Store.PreparedUpsert → Prop
  | .inPlaceSameLen p => s.get key = some p ∧ (s.mem p).isSome
  | .inPlaceNewVal p newVal => newVal = value ∧ s.get key = some p ∧ (s.mem p).isSome
  | .putEntry p => s.mem p = some ⟨key, value, timestamp, .written isWorm⟩ ∧
      ∀ i, p ∉ (s.shards i).sorted

/-- What a call that holds shard `i`, and puts in the entry `own`, leaves alone. -/
structure Frame (s s' : Store) (i : Fin shardCount) (own : Option Ptr) : Prop where
  next : s.nextPtr ≤ s'.nextPtr
  shards : ∀ j, j ≠ i → s'.shards j = s.shards j
  sorted : ∀ p ∈ (s'.shards i).sorted, p ∈ (s.shards i).sorted ∨ own = some p
  mem : ∀ p, p < s.nextPtr → p ∉ (s.shards i).sorted → own ≠ some p → s'.mem p = s.mem p

section
variable {s s' : Store} {i : Fin shardCount}

theorem Frame.refl (s : Store) (i : Fin shardCount) (own : Option Ptr) : Frame s s i own :=
  ⟨le_refl _, fun _ _ => rfl, fun _ hp => .inl hp, fun _ _ _ _ => rfl⟩

variable {p : Ptr}

theorem lt_nextPtr_of_some (h : StoreOk s) {e : Entry} (he : s.mem p = some e) : p < s.nextPtr := by
  by_contra hle
  rw [h.fresh p (le_of_not_gt hle)] at he
  cases he

variable {old : Ptr} {own : Option Ptr}

/-- Destroying an entry of the shard. -/
theorem destroyEntry_frame {t : Store} (h : Frame s t i own)
    (hold : old ∈ (s.shards i).sorted) : Frame s (t.destroyEntry old) i own := by
  unfold Store.destroyEntry
  split
  · split
    · exact h
    · refine ⟨h.next, h.shards, h.sorted, fun p hlt hp hown => ?_⟩
      have hne : p ≠ old := by
        rintro rfl
        exact hp hold
      simp only [Store.setEntry, Function.update_of_ne hne]
      exact h.mem p hlt hp hown
  · exact h

variable {shard : Shard}

theorem setShard_frame (s : Store) (i : Fin shardCount)
    (hsorted : ∀ p ∈ shard.sorted, p ∈ (s.shards i).sorted ∨ own = some p) (n : Nat) :
    Frame s { s.setShard i shard with liveKeys := n } i own where
  next := le_refl _
  shards := fun j hj => by simp [Store.setShard, Function.update_of_ne hj]
  sorted := by simpa [Store.setShard] using hsorted
  mem := fun _ _ _ _ => rfl

theorem fetchRemove_mem (hshard : ShardOk s.mem i (s.shards i)) {key : Bytes}
    (h : (s.shards i).fetchRemove s.mem key = some (old, shard)) :
    old ∈ (s.shards i).sorted := by
  unfold Shard.fetchRemove at h
  split at h
  · cases h
  · rename_i slot hfind
    cases h
    exact hshard.slot_mem (List.mem_of_find?_eq_some hfind)

/-- Putting an entry in touches the shard and the entry it replaces. -/
theorem put_frame (h : StoreOk s)
    (hput : s.shardPutAssumeCapacityLocked i p = .ok s') : Frame s s' i (some p) := by
  unfold Store.shardPutAssumeCapacityLocked at hput
  simp only at hput
  split at hput
  · split at hput
    · cases hput
    · rename_i old shard hfetch
      cases hput
      refine destroyEntry_frame (setShard_frame s i (fun q hq => ?_) s.liveKeys)
        (fetchRemove_mem (h.shards i) hfetch)
      rcases List.mem_or_eq_of_mem_set hq with hq | rfl
      · exact .inl hq
      · exact .inr rfl
  · cases hput
    refine setShard_frame s i (fun q hq => ?_) _
    have hle : lowerBoundKey s.mem (s.shards i).sorted (keyAt s.mem p) ≤ _ :=
      (OrderedIndex.lowerBound_split (h.shards i).ascending _).1
    rcases (List.mem_insertIdx hle).mp hq with rfl | hq
    · exact .inr rfl
    · exact .inl hq

/-- Overwriting an entry touches it. -/
theorem overwrite_frame (hp : p ∈ (s.shards i).sorted) (value : Bytes) (isWorm : Bool)
    (timestamp : UInt64) (own : Option Ptr) :
    Frame s (s.overwrite p value isWorm timestamp) i own where
  next := le_refl _
  shards := fun _ _ => rfl
  sorted := fun _ hq => .inl hq
  mem := by
    intro q _ hq _
    have hne : q ≠ p := by
      rintro rfl
      exact hq hp
    simp only [Store.overwrite, Store.setEntry, Function.update_of_ne hne]

/-- Dropping a key touches its shard and its entry. -/
theorem drop_frame (h : StoreOk s) (key : Bytes) (own : Option Ptr) :
    Frame s (s.shardDropLocked (shardIndex key) key) (shardIndex key) own := by
  unfold Store.shardDropLocked Store.shardRemoveLocked
  cases hfetch : (s.shards (shardIndex key)).fetchRemove s.mem key with
  | none =>
    simp only [hfetch]
    exact Frame.refl s _ own
  | some found =>
    obtain ⟨removed, shard⟩ := found
    simp only [hfetch]
    refine destroyEntry_frame (setShard_frame s _ (fun q hq => .inl ?_) _)
      (fetchRemove_mem (h.shards _) hfetch)
    unfold Store.sortedRemove at hq
    simp only at hq
    split at hq
    · exact List.mem_of_mem_eraseIdx hq
    · split at hq
      · exact List.mem_of_mem_eraseIdx hq
      · exact hq

/-- Making an entry touches no shard. -/
theorem create_frame (s : Store) (e : Entry) (i : Fin shardCount) (own : Option Ptr) :
    Frame s (s.create e).2 i own where
  next := Nat.le_succ _
  shards := fun _ _ => rfl
  sorted := fun _ hq => .inl hq
  mem := by
    intro p hlt _ _
    have hne : p ≠ s.nextPtr := ne_of_lt hlt
    simp only [Store.create, Function.update_of_ne hne]

end

section
variable {s s' : Store} {key value : Bytes} {isWorm : Bool} {timestamp : UInt64}
  {prepared : Store.PreparedUpsert}

/-- **A prepared upsert can be committed**, and that touches its own shard only. -/
theorem Ready.commit (h : StoreOk s) (hready : Ready s key value isWorm timestamp prepared) :
    ∃ s', s.commitPreparedUpsertLocked (shardIndex key) prepared value isWorm timestamp = .ok s' ∧
      Updates s s' key (some ⟨key, value, timestamp, .written isWorm⟩) ∧
      Frame s s' (shardIndex key) prepared.fresh := by
  cases prepared with
  | inPlaceSameLen p =>
    obtain ⟨hget, hsome⟩ := hready
    obtain ⟨e, he⟩ := Option.isSome_iff_exists.mp hsome
    exact ⟨_, rfl, h.overwrite hget he value isWorm timestamp,
      overwrite_frame ((h.shards _).get_iff.mp hget).1 value isWorm timestamp _⟩
  | inPlaceNewVal p newVal =>
    obtain ⟨rfl, hget, hsome⟩ := hready
    obtain ⟨e, he⟩ := Option.isSome_iff_exists.mp hsome
    exact ⟨_, rfl, h.overwrite hget he newVal isWorm timestamp,
      overwrite_frame ((h.shards _).get_iff.mp hget).1 newVal isWorm timestamp _⟩
  | putEntry p =>
    obtain ⟨hmem, hout⟩ := hready
    obtain ⟨s', hput, hupd⟩ := h.put hmem hout
    exact ⟨s', hput, hupd, put_frame h hput⟩

/-- What preparing gives: the same entries, an upsert that can be committed, and a new entry
where one is made. -/
structure PreparedIn (s s' : Store) (key value : Bytes) (isWorm : Bool) (timestamp : UInt64)
    (prepared : Store.PreparedUpsert) : Prop where
  keeps : Keeps s s'
  ready : Ready s' key value isWorm timestamp prepared
  frame : Frame s s' (shardIndex key) none
  new : ∀ p, prepared.fresh = some p → s.nextPtr ≤ p

theorem prepare_ready (h : StoreOk s) {alloc : AllocSite → Bool}
    (hprepare : s.prepareUpsertLocked alloc (shardIndex key) (s.get key) key value isWorm
      timestamp = .ok (prepared, s')) :
    PreparedIn s s' key value isWorm timestamp prepared := by
  have hput : s.preparePutEntry alloc (shardIndex key) key value isWorm timestamp =
      .ok (prepared, s') → PreparedIn s s' key value isWorm timestamp prepared := by
    intro hput
    unfold Store.preparePutEntry at hput
    split at hput
    · cases hput
    · unfold Store.createMemoryEntry at hput
      by_cases hmemory : (alloc .entry && alloc .key && alloc .value) = true
      · rw [if_pos hmemory] at hput
        cases hput
        obtain ⟨hkeeps, hmem, hout⟩ := h.create ⟨key, value, timestamp, .written isWorm⟩
        refine ⟨hkeeps, ⟨hmem, hout⟩, create_frame s _ _ none, ?_⟩
        intro p hp
        cases hp
        exact le_refl _
      · rw [if_neg hmemory] at hput
        cases hput
  unfold Store.prepareUpsertLocked at hprepare
  split at hprepare
  · rename_i p e hex
    obtain ⟨q, hget, hpe⟩ := Option.bind_eq_some_iff.mp hex
    obtain ⟨e', he, heq⟩ := Option.map_eq_some_iff.mp hpe
    obtain ⟨rfl, rfl⟩ := Prod.mk.inj heq
    have hsome : (s.mem q).isSome := by
      rw [he]
      rfl
    split at hprepare
    · exact hput hprepare
    · split at hprepare
      · cases hprepare
        exact ⟨Keeps.refl h, ⟨hget, hsome⟩, Frame.refl s _ none, by simp [Store.PreparedUpsert.fresh]⟩
      · split at hprepare
        · cases hprepare
          exact ⟨Keeps.refl h, ⟨rfl, hget, hsome⟩, Frame.refl s _ none,
            by simp [Store.PreparedUpsert.fresh]⟩
        · cases hprepare
  · exact hput hprepare

variable {i : Fin shardCount} {own : Option Ptr}

/-- An entry of another shard is where it was. -/
theorem Frame.get_eq (hframe : Frame s s' i own)
    (h : StoreOk s) (h' : StoreOk s') (hi : shardIndex key ≠ i)
    (hown : ∀ p, own = some p → ∀ j, p ∉ (s.shards j).sorted) {p : Ptr}
    (hget : s.get key = some p) : s'.get key = some p ∧ s'.mem p = s.mem p := by
  obtain ⟨hp, hkey⟩ := (h.shards _).get_iff.mp hget
  have hmem : s'.mem p = s.mem p := by
    refine hframe.mem p (h.lt_nextPtr hp) (fun hpi => hi (h.shard_unique hp hpi)) ?_
    intro hpown
    exact hown p hpown _ hp
  refine ⟨?_, hmem⟩
  rw [Store.get, (h'.shards _).get_iff, hframe.shards _ hi]
  refine ⟨hp, ?_⟩
  rw [keyAt, hmem]
  exact hkey

/-- **What is prepared on one shard stays so** while calls run on the others. -/
theorem Ready.frame
    (hready : Ready s key value isWorm timestamp prepared) (hframe : Frame s s' i own)
    (h : StoreOk s) (h' : StoreOk s') (hi : shardIndex key ≠ i)
    (hown : ∀ p, own = some p → ∀ j, p ∉ (s.shards j).sorted)
    (hapart : ∀ p, prepared.fresh = some p → own ≠ some p) :
    Ready s' key value isWorm timestamp prepared := by
  cases prepared with
  | inPlaceSameLen p =>
    obtain ⟨hget, hmem⟩ := hframe.get_eq h h' hi hown hready.1
    exact ⟨hget, hmem ▸ hready.2⟩
  | inPlaceNewVal p newVal =>
    obtain ⟨hget, hmem⟩ := hframe.get_eq h h' hi hown hready.2.1
    exact ⟨hready.1, hget, hmem ▸ hready.2.2⟩
  | putEntry p =>
    obtain ⟨hmem, hout⟩ := hready
    have hne := hapart p rfl
    refine ⟨?_, fun j hj => ?_⟩
    · rw [hframe.mem p (lt_nextPtr_of_some h hmem) (hout i) hne]
      exact hmem
    · by_cases hji : j = i
      · subst hji
        rcases hframe.sorted p hj with hin | hpown
        · exact hout j hin
        · exact hne hpown
      · rw [hframe.shards j hji] at hj
        exact hout j hj

end

end WormDB
