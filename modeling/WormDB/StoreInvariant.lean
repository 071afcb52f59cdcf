import WormDB.Store
import Mathlib.Algebra.BigOperators.Fin
import Mathlib.Data.Finset.Basic

/-! # The store's invariant and what its operations do

`StoreOk`: every shard is well formed, the key counter is the number of entries,
and unallocated memory is empty.  Each operation keeps it, and changes the entry
under one key only (`Updates`); an operation that fails keeps the invariant as
well. -/
namespace WormDB
open List ByteCodec OrderedIndex
open Function (update_of_ne update_self)

namespace Store

/-- The entry the store has under a key. -/
def entryAt (s : Store) (key : Bytes) : Option Entry := (s.get key).bind s.mem

/-- What a client reads under a key. -/
def view (s : Store) (key : Bytes) : Option Content := (s.entryAt key).map Entry.content

end Store

/-- **The representation invariant of the store.** -/
structure StoreOk (s : Store) : Prop where
  shards : ∀ i, ShardOk s.mem i (s.shards i)
  count : s.liveKeys = ∑ i, (s.shards i).sorted.length
  fresh : ∀ p, s.nextPtr ≤ p → s.mem p = none

/-- `s'` is well formed and differs from `s` in the entry under `key`, which is
now `e`. -/
structure Updates (s s' : Store) (key : Bytes) (e : Option Entry) : Prop where
  ok : StoreOk s'
  entryAt : ∀ k, s'.entryAt k = if k = key then e else s.entryAt k
  sst : s'.sst = s.sst

/-- `s'` is well formed and has the same entries as `s`. -/
structure Keeps (s s' : Store) : Prop where
  ok : StoreOk s'
  entryAt : ∀ k, s'.entryAt k = s.entryAt k
  sst : s'.sst = s.sst

variable {s : Store}

theorem Keeps.refl (h : StoreOk s) : Keeps s s := ⟨h, fun _ => rfl, rfl⟩

variable {s' s'' : Store}

theorem Keeps.trans (h : Keeps s s') (h' : Keeps s' s'') : Keeps s s'' :=
  ⟨h'.ok, fun k => (h'.entryAt k).trans (h.entryAt k), h'.sst.trans h.sst⟩

variable {key : Bytes}

theorem Keeps.updates {e : Option Entry} (h : Keeps s s')
    (h' : Updates s' s'' key e) : Updates s s'' key e :=
  ⟨h'.ok, fun k => (h'.entryAt k).trans (by rw [h.entryAt k]), h'.sst.trans h.sst⟩

theorem Updates.keeps {e : Option Entry}
    (h : Updates s s' key e) (h' : Keeps s' s'') : Updates s s'' key e :=
  ⟨h'.ok, fun k => (h'.entryAt k).trans (h.entryAt k), h'.sst.trans h.sst⟩

theorem init_ok (sst : Bytes → Option Bool) : StoreOk (Store.init sst) where
  shards := fun i => ShardOk.empty _ i
  count := by simp [Store.init, Shard.empty]
  fresh := fun _ _ => rfl

theorem init_entryAt (sst : Bytes → Option Bool) (key : Bytes) :
    (Store.init sst).entryAt key = none := rfl

section
variable {s : Store}

variable {key : Bytes}

theorem StoreOk.entryAt_iff (h : StoreOk s) {e : Entry} : s.entryAt key = some e ↔
      ∃ p ∈ (s.shards (shardIndex key)).sorted, s.mem p = some e ∧ e.key = key := by
  rw [Store.entryAt, Option.bind_eq_some_iff]
  constructor
  · rintro ⟨p, hg, he⟩
    obtain ⟨hp, hkey⟩ := (h.shards _).get_iff.mp hg
    exact ⟨p, hp, he, (keyAt_of_some he).symm.trans hkey⟩
  · rintro ⟨p, hp, he, hkey⟩
    exact ⟨p, (h.shards _).get_iff.mpr ⟨hp, (keyAt_of_some he).trans hkey⟩, he⟩

variable {i : Fin shardCount} {p : Ptr}

/-- An entry is in one shard only. -/
theorem StoreOk.shard_unique (h : StoreOk s) {j : Fin shardCount}
    (hi : p ∈ (s.shards i).sorted) (hj : p ∈ (s.shards j).sorted) : i = j := by
  obtain ⟨e, he, rfl⟩ := (h.shards i).live p hi
  obtain ⟨e', he', rfl⟩ := (h.shards j).live p hj
  rw [Option.some.inj (he.symm.trans he')]

theorem StoreOk.lt_nextPtr (h : StoreOk s) (hp : p ∈ (s.shards i).sorted) : p < s.nextPtr := by
  by_contra hle
  obtain ⟨e, he, -⟩ := (h.shards i).live p hp
  rw [h.fresh p (le_of_not_gt hle)] at he
  cases he

theorem StoreOk.get_eq_none (h : StoreOk s) (hn : s.entryAt key = none) : s.get key = none := by
  cases hg : s.get key with
  | none => rfl
  | some p =>
    obtain ⟨hp, -⟩ := (h.shards _).get_iff.mp hg
    obtain ⟨e, he, -⟩ := (h.shards _).live p hp
    rw [Store.entryAt, hg, Option.bind_some, he] at hn
    cases hn

/-- Entries are the same when every shard lists the same ones. -/
theorem entryAt_congr (h : StoreOk s) (h' : StoreOk s')
    (hsame : ∀ i p e, (p ∈ (s'.shards i).sorted ∧ s'.mem p = some e) ↔
      (p ∈ (s.shards i).sorted ∧ s.mem p = some e)) (key : Bytes) :
    s'.entryAt key = s.entryAt key := by
  refine Option.ext (fun e => ?_)
  rw [h'.entryAt_iff, h.entryAt_iff]
  constructor
  · rintro ⟨p, hp, he, hkey⟩
    obtain ⟨hp', he'⟩ := (hsame _ p e).mp ⟨hp, he⟩
    exact ⟨p, hp', he', hkey⟩
  · rintro ⟨p, hp, he, hkey⟩
    obtain ⟨hp', he'⟩ := (hsame _ p e).mpr ⟨hp, he⟩
    exact ⟨p, hp', he', hkey⟩

/-! ## Memory -/

/-- A new entry is not in any shard yet. -/
theorem StoreOk.create (h : StoreOk s) (e : Entry) :
    Keeps s (s.create e).2 ∧ (s.create e).2.mem (s.create e).1 = some e ∧
      ∀ i, (s.create e).1 ∉ ((s.create e).2.shards i).sorted := by
  have hne : ∀ i, ∀ p ∈ (s.shards i).sorted, p ≠ s.nextPtr := fun i p hp =>
    ne_of_lt (h.lt_nextPtr hp)
  have hok : StoreOk (s.create e).2 := by
    refine ⟨fun i => (h.shards i).of_keys (fun p hp => ?_), h.count, fun p hp => ?_⟩
    · obtain ⟨e₀, he₀, -⟩ := (h.shards i).live p hp
      exact ⟨e₀, (update_of_ne (hne i p hp) ..).trans he₀, (keyAt_of_some he₀).symm⟩
    · have hlt : s.nextPtr < p := hp
      exact (update_of_ne (ne_of_gt hlt) ..).trans (h.fresh p (le_of_lt hlt))
  refine ⟨⟨hok, entryAt_congr h hok (fun i p e' => ?_), rfl⟩, update_self .., ?_⟩
  · have hmem : p ∈ (s.shards i).sorted → (s.create e).2.mem p = s.mem p := fun hp =>
      update_of_ne (hne i p hp) ..
    exact and_congr_right (fun hp => by rw [hmem hp])
  · intro i hi
    exact hne i _ hi rfl

/-- Freeing an entry that no shard lists. -/
theorem StoreOk.destroyEntry (h : StoreOk s) (hp : ∀ i, p ∉ (s.shards i).sorted) :
    Keeps s (s.destroyEntry p) := by
  have hfree : Keeps s (s.setEntry p none) := by
    have hne : ∀ i, ∀ q ∈ (s.shards i).sorted, q ≠ p := by
      rintro i q hq rfl
      exact hp i hq
    have hok : StoreOk (s.setEntry p none) := by
      refine ⟨fun i => (h.shards i).of_keys (fun q hq => ?_), h.count, fun q hq => ?_⟩
      · obtain ⟨e₀, he₀, -⟩ := (h.shards i).live q hq
        exact ⟨e₀, (update_of_ne (hne i q hq) ..).trans he₀, (keyAt_of_some he₀).symm⟩
      · by_cases hqp : q = p
        · rw [hqp]
          exact update_self ..
        · exact (update_of_ne hqp ..).trans (h.fresh q hq)
    refine ⟨hok, entryAt_congr h hok (fun i q e' => ?_), rfl⟩
    have hmem : q ∈ (s.shards i).sorted → (s.setEntry p none).mem q = s.mem q := fun hq =>
      update_of_ne (hne i q hq) ..
    exact and_congr_right (fun hq => by rw [hmem hq])
  unfold Store.destroyEntry
  split
  · split
    · exact Keeps.refl h
    · exact hfree
  · exact Keeps.refl h

/-- Overwriting a live entry in place. -/
theorem StoreOk.overwrite (h : StoreOk s) {e : Entry}
    (hg : s.get key = some p) (he : s.mem p = some e) (value : Bytes) (isWorm : Bool)
    (timestamp : UInt64) : Updates s (s.overwrite p value isWorm timestamp) key
      (some ⟨key, value, timestamp, .written isWorm⟩) := by
  obtain ⟨hp, hkey⟩ := (h.shards _).get_iff.mp hg
  rw [keyAt_of_some he] at hkey
  have hmem : (s.overwrite p value isWorm timestamp).mem p =
      some ⟨key, value, timestamp, .written isWorm⟩ := by
    rw [Store.overwrite, he, ← hkey]
    exact update_self ..
  have hother : ∀ q, q ≠ p → (s.overwrite p value isWorm timestamp).mem q = s.mem q :=
    fun q hq => update_of_ne hq ..
  have hok : StoreOk (s.overwrite p value isWorm timestamp) := by
    refine ⟨fun i => (h.shards i).of_keys (fun q hq => ?_), h.count, fun q hq => ?_⟩
    · by_cases hqp : q = p
      · subst hqp
        exact ⟨_, hmem, by rw [keyAt_of_some he, hkey]⟩
      · obtain ⟨e₀, he₀, -⟩ := (h.shards i).live q hq
        exact ⟨e₀, (hother q hqp).trans he₀, (keyAt_of_some he₀).symm⟩
    · have hqp : q ≠ p := by
        rintro rfl
        rw [h.fresh q hq] at he
        cases he
      exact (hother q hqp).trans (h.fresh q hq)
  refine ⟨hok, fun k => ?_, rfl⟩
  by_cases hk : k = key
  · rw [if_pos hk, hk, hok.entryAt_iff]
    exact ⟨p, hp, hmem, rfl⟩
  · rw [if_neg hk]
    refine Option.ext (fun e' => ?_)
    rw [hok.entryAt_iff, h.entryAt_iff]
    refine exists_congr (fun q => and_congr_right (fun hq => ?_))
    by_cases hqp : q = p
    · subst hqp
      rw [hmem, he]
      constructor
      · rintro ⟨he', rfl⟩
        exact absurd (by rw [← Option.some.inj he']) hk
      · rintro ⟨he', rfl⟩
        exact absurd (by rw [← Option.some.inj he', hkey]) hk
    · rw [hother q hqp]

/-! ## One shard -/

/-- Exchanging shard `i` for one that lists the same entries, but for the key. -/
theorem StoreOk.setShard (h : StoreOk s) {e : Option Entry} {shard : Shard}
    {n : Nat} (hshard : ShardOk s.mem (shardIndex key) shard)
    (hcount : n + (s.shards (shardIndex key)).sorted.length = s.liveKeys + shard.sorted.length)
    (hkeep : ∀ q, keyAt s.mem q ≠ key → (q ∈ shard.sorted ↔ q ∈ (s.shards (shardIndex key)).sorted))
    (hat : ∀ e', (∃ q ∈ shard.sorted, s.mem q = some e' ∧ e'.key = key) ↔ e = some e') :
    Updates s { s.setShard (shardIndex key) shard with liveKeys := n } key e := by
  generalize hs' : ({ s.setShard (shardIndex key) shard with liveKeys := n } : Store) = s'
  have hself : s'.shards (shardIndex key) = shard := by
    rw [← hs']
    exact update_self ..
  -- no other shard is touched
  have hother : ∀ j, j ≠ shardIndex key → s'.shards j = s.shards j := by
    intro j hj
    rw [← hs']
    exact update_of_ne hj ..
  have hmem : s'.mem = s.mem := by rw [← hs']; rfl
  have hok : StoreOk s' := by
    refine ⟨fun j => ?_, ?_, fun p hp => ?_⟩
    · rw [hmem]
      by_cases hj : j = shardIndex key
      · rw [hj, hself]
        exact hshard
      · rw [hother j hj]
        exact h.shards j
    · have hn : s'.liveKeys = n := by rw [← hs']
      have hsum := Finset.add_sum_erase Finset.univ (fun j => (s.shards j).sorted.length)
        (Finset.mem_univ (shardIndex key))
      have hsum' := Finset.add_sum_erase Finset.univ (fun j => (s'.shards j).sorted.length)
        (Finset.mem_univ (shardIndex key))
      -- and so the other shards add up to the same number
      have hrest : ∑ j ∈ Finset.univ.erase (shardIndex key), (s'.shards j).sorted.length =
          ∑ j ∈ Finset.univ.erase (shardIndex key), (s.shards j).sorted.length :=
        Finset.sum_congr rfl (fun j hj => by rw [hother j (Finset.ne_of_mem_erase hj)])
      rw [hself, hrest] at hsum'
      have hcount₀ := h.count
      omega
    · rw [hmem]
      rw [← hs'] at hp
      exact h.fresh p hp
  refine ⟨hok, fun k => ?_, by rw [← hs']; rfl⟩
  by_cases hk : k = key
  · rw [if_pos hk, hk]
    refine Option.ext (fun e' => ?_)
    rw [hok.entryAt_iff, hself, hmem]
    exact hat e'
  · rw [if_neg hk]
    refine Option.ext (fun e' => ?_)
    rw [hok.entryAt_iff, h.entryAt_iff, hmem]
    by_cases hj : shardIndex k = shardIndex key
    · rw [hj, hself]
      refine exists_congr (fun q => ?_)
      constructor
      · rintro ⟨hq, he', hkey⟩
        exact ⟨(hkeep q (by rw [keyAt_of_some he', hkey]; exact hk)).mp hq, he', hkey⟩
      · rintro ⟨hq, he', hkey⟩
        exact ⟨(hkeep q (by rw [keyAt_of_some he', hkey]; exact hk)).mpr hq, he', hkey⟩
    · rw [hother _ hj]

/-- **Putting an entry** that no shard lists into its shard. -/
theorem StoreOk.put (h : StoreOk s) {p : Ptr} {e : Entry} (he : s.mem p = some e)
    (hp : ∀ i, p ∉ (s.shards i).sorted) :
    ∃ s', s.shardPutAssumeCapacityLocked (shardIndex e.key) p = .ok s' ∧
      Updates s s' e.key (some e) := by
  have hshard := h.shards (shardIndex e.key)
  have hkey : keyAt s.mem p = e.key := keyAt_of_some he
  have hat : ∀ {sorted : List Ptr}, p ∈ sorted →
      (∀ q ∈ sorted, keyAt s.mem q = e.key → q = p) →
      ∀ e', (∃ q ∈ sorted, s.mem q = some e' ∧ e'.key = e.key) ↔ some e = some e' := by
    intro sorted hin honly e'
    constructor
    · rintro ⟨q, hq, he', hk⟩
      rw [honly q hq (by rw [keyAt_of_some he', hk]), he] at he'
      exact he'
    · intro hee
      cases hee
      exact ⟨p, hin, he, rfl⟩
  rw [Store.shardPutAssumeCapacityLocked, hkey]
  cases hg : (s.shards (shardIndex e.key)).get s.mem e.key with
  | none =>
    have hnone := hshard.get_none_iff.mp hg
    have hidx : s.keyIsAt (s.shards (shardIndex e.key))
        (lowerBoundKey s.mem (s.shards (shardIndex e.key)).sorted e.key) e.key = false := by
      unfold Store.keyIsAt
      split
      · rename_i q hq
        exact decide_eq_false (hnone q (mem_of_getElem? hq))
      · rfl
    have hle : lowerBoundKey s.mem (s.shards (shardIndex e.key)).sorted e.key ≤ _ :=
      (lowerBound_split hshard.ascending e.key).1
    have hlen := length_insertIdx_of_le_length hle p
    have hmem := fun q => mem_insertIdx (a := q) (b := p) hle
    simp only [hidx, Bool.false_eq_true, if_false]
    refine ⟨_, rfl, h.setShard (hshard.insert he rfl hg) ?_ ?_ ?_⟩
    · dsimp only
      omega
    · intro q hq
      exact (hmem q).trans (or_iff_right (fun hqp => hq (by rw [hqp, hkey])))
    · refine hat ((hmem p).mpr (.inl rfl)) (fun q hq hk => ?_)
      exact ((hmem q).mp hq).resolve_right (fun hin => hnone q hin hk)
  | some old =>
    obtain ⟨shard', hfetch, hok'⟩ := hshard.replace he rfl hg
    have hget := hshard.getElem?_get hg
    obtain ⟨hlt, -⟩ := List.getElem?_eq_some_iff.mp hget
    have hperm := hshard.perm_get hg
    have hkold := (hshard.get_iff.mp hg).2
    have hidx : s.keyIsAt (s.shards (shardIndex e.key))
        (lowerBoundKey s.mem (s.shards (shardIndex e.key)).sorted e.key) e.key = true := by
      rw [Store.keyIsAt, hget]
      exact decide_eq_true hkold
    simp only [hidx, if_true, hfetch]
    generalize hnew : (⟨(shard'.putAssumeCapacity s.mem p).data, _⟩ : Shard) = shard'' at hok' ⊢
    have hset : ∀ q, q ∈ shard''.sorted ↔ q ∈ p :: (s.shards (shardIndex e.key)).sorted.eraseIdx
        (lowerBoundKey s.mem (s.shards (shardIndex e.key)).sorted e.key) := by
      intro q
      rw [← hnew]
      exact (set_perm_cons_eraseIdx hlt p).mem_iff
    have hupd : Updates s (s.setShard (shardIndex e.key) shard'') e.key (some e) := by
      refine h.setShard hok' ?_ ?_ ?_
      · rw [← hnew, length_set]
      · intro q hq
        rw [hset q, mem_cons, or_iff_right (fun hqp => hq (by rw [hqp, hkey])),
          ← hperm.mem_iff, mem_cons, or_iff_right (fun hqp => hq (by rw [hqp, hkold]))]
      · refine hat ((hset p).mpr mem_cons_self) (fun q hq hk => ?_)
        rcases mem_cons.mp ((hset q).mp hq) with hqp | hin
        · exact hqp
        · exact absurd hk (hshard.key_ne_of_mem_eraseIdx hg hin)
    -- the superseded entry is in no shard any more
    have hgone : ∀ j, old ∉ ((s.setShard (shardIndex e.key) shard'').shards j).sorted := by
      intro j hj
      by_cases hji : j = shardIndex e.key
      · subst hji
        replace hj : old ∈ shard''.sorted := by simpa [Store.setShard] using hj
        rcases mem_cons.mp ((hset old).mp hj) with hop | hin
        · exact hp _ (hop ▸ (hshard.get_iff.mp hg).1)
        · exact hshard.key_ne_of_mem_eraseIdx hg hin hkold
      · replace hj : old ∈ (s.shards j).sorted := by simpa [Store.setShard, hji] using hj
        exact hji (h.shard_unique hj (hshard.get_iff.mp hg).1)
    exact ⟨_, rfl, hupd.keeps (hupd.ok.destroyEntry hgone)⟩

/-- **Dropping a key.** -/
theorem StoreOk.drop (h : StoreOk s) (key : Bytes) :
    Updates s (s.shardDropLocked (shardIndex key) key) key none := by
  have hshard := h.shards (shardIndex key)
  cases hg : s.get key with
  | none =>
    have hfetch : (s.shards (shardIndex key)).fetchRemove s.mem key = none := by
      rw [Store.get, Shard.get, Option.map_eq_none_iff] at hg
      rw [Shard.fetchRemove, hg]
    have hdrop : s.shardDropLocked (shardIndex key) key = s := by
      rw [Store.shardDropLocked, Store.shardRemoveLocked, hfetch]
    rw [hdrop]
    refine ⟨h, fun k => ?_, rfl⟩
    by_cases hk : k = key
    · rw [if_pos hk, hk, Store.entryAt, hg]
      rfl
    · rw [if_neg hk]
  | some p =>
    obtain ⟨shard', hfetch, hok'⟩ := hshard.remove hg
    have hget := hshard.getElem?_get hg
    have hperm := hshard.perm_get hg
    obtain ⟨hin, hkey⟩ := hshard.get_iff.mp hg
    -- the sorted list holds the entry where the search finds it
    have hsorted : s.sortedRemove (s.shards (shardIndex key)) key p =
        (s.shards (shardIndex key)).sorted.eraseIdx
          (lowerBoundKey s.mem (s.shards (shardIndex key)).sorted key) := by
      rw [Store.sortedRemove, if_pos hget]
    rw [Store.shardDropLocked, Store.shardRemoveLocked, hfetch]
    simp only [hsorted]
    have hupd := h.setShard (e := none) (n := s.liveKeys - 1) hok' ?_ ?_ ?_
    · refine hupd.keeps (hupd.ok.destroyEntry (fun j hj => ?_))
      by_cases hji : j = shardIndex key
      · subst hji
        replace hj : p ∈ (s.shards (shardIndex key)).sorted.eraseIdx
            (lowerBoundKey s.mem (s.shards (shardIndex key)).sorted key) := by
          simpa [Store.setShard] using hj
        exact hshard.key_ne_of_mem_eraseIdx hg hj hkey
      · replace hj : p ∈ (s.shards j).sorted := by simpa [Store.setShard, hji] using hj
        exact hji (h.shard_unique hj hin)
    · have hlen := hperm.length_eq
      rw [length_cons] at hlen
      have hsum := Finset.add_sum_erase Finset.univ (fun j => (s.shards j).sorted.length)
        (Finset.mem_univ (shardIndex key))
      have hcount := h.count
      dsimp only
      omega
    · intro q hq
      rw [← hperm.mem_iff, mem_cons, or_iff_right (fun hqp => hq (by rw [hqp, hkey]))]
    · intro e'
      simp only [reduceCtorEq, iff_false]
      rintro ⟨q, hq, he', hk⟩
      exact hshard.key_ne_of_mem_eraseIdx hg hq (by rw [keyAt_of_some he', hk])

/-! ## Upserts -/

variable {alloc : AllocSite → Bool}

theorem reserve_error {f : Fault}
    (h : s.shardReservePutLocked alloc i key = .error f) : f = .error .outOfMemory := by
  unfold Store.shardReservePutLocked at h
  simp only [] at h
  split at h
  · exact (Except.error.inj h).symm
  · split at h
    · exact (Except.error.inj h).symm
    · cases h

/-- What a prepared upsert can still become: the write, or nothing. -/
structure Prepared (s : Store) (key value : Bytes) (isWorm : Bool) (timestamp : UInt64)
    (prepared : Store.PreparedUpsert) (s' : Store) : Prop where
  commit : ∃ s'', s'.commitPreparedUpsertLocked (shardIndex key) prepared value isWorm timestamp =
    .ok s'' ∧ Updates s s'' key (some ⟨key, value, timestamp, .written isWorm⟩)
  abort : Keeps s (s'.abortPreparedUpsert prepared)

theorem StoreOk.preparePutEntry (h : StoreOk s) (alloc : AllocSite → Bool) (key value : Bytes)
    (isWorm : Bool) (timestamp : UInt64) :
    match s.preparePutEntry alloc (shardIndex key) key value isWorm timestamp with
    | .ok (prepared, s') => Prepared s key value isWorm timestamp prepared s'
    | .error f => f = .error .outOfMemory := by
  unfold Store.preparePutEntry
  cases hr : s.shardReservePutLocked alloc (shardIndex key) key with
  | error f => exact reserve_error hr
  | ok u =>
    unfold Store.createMemoryEntry
    cases alloc .entry && alloc .key && alloc .value with
    | false => rfl
    | true =>
      obtain ⟨hkeeps, hmem, hout⟩ := h.create ⟨key, value, timestamp, .written isWorm⟩
      obtain ⟨s'', hput, hupd⟩ := hkeeps.ok.put hmem hout
      exact ⟨⟨s'', hput, hkeeps.updates hupd⟩, hkeeps.trans (hkeeps.ok.destroyEntry hout)⟩

/-- **Preparing an upsert** fails only for want of memory. -/
theorem StoreOk.prepare (h : StoreOk s) (alloc : AllocSite → Bool) (key value : Bytes)
    (isWorm : Bool) (timestamp : UInt64) :
    match s.prepareUpsertLocked alloc (shardIndex key) (s.get key) key value isWorm timestamp with
    | .ok (prepared, s') => Prepared s key value isWorm timestamp prepared s'
    | .error f => f = .error .outOfMemory := by
  have hput := h.preparePutEntry alloc key value isWorm timestamp
  unfold Store.prepareUpsertLocked
  cases hex : (s.get key).bind (fun p => (s.mem p).map (fun e => (p, e))) with
  | none => exact hput
  | some pe =>
    obtain ⟨p, hg, hpe⟩ := Option.bind_eq_some_iff.mp hex
    obtain ⟨e, he, rfl⟩ := Option.map_eq_some_iff.mp hpe
    have hover := h.overwrite hg he value isWorm timestamp
    by_cases harena : e.flags.arenaOwned = true
    · simp only [harena, if_true]
      exact hput
    · simp only [if_neg harena]
      by_cases hlen : e.value.length = value.length
      · simp only [if_pos hlen]
        exact ⟨⟨_, rfl, hover⟩, Keeps.refl h⟩
      · simp only [if_neg hlen]
        cases alloc .newValue with
        | true => exact ⟨⟨_, rfl, hover⟩, Keeps.refl h⟩
        | false => rfl

/-! ## Whole operations -/

/-- With memory to be had, an upsert can be prepared. -/
theorem prepareUpsertLocked_ok (halloc : ∀ site, alloc site = true)
    (i : Fin shardCount) (existing : Option Ptr) (key value : Bytes) (isWorm : Bool)
    (timestamp : UInt64) :
    ∃ result, s.prepareUpsertLocked alloc i existing key value isWorm timestamp = .ok result := by
  have hput : ∃ result, s.preparePutEntry alloc i key value isWorm timestamp = .ok result := by
    simp [Store.preparePutEntry, Store.shardReservePutLocked, Store.createMemoryEntry, halloc]
  unfold Store.prepareUpsertLocked
  cases existing.bind (fun p => (s.mem p).map (fun e => (p, e))) with
  | none => exact hput
  | some pe =>
    simp only [halloc, if_true]
    split
    · exact hput
    · split
      · exact ⟨_, rfl⟩
      · exact ⟨_, rfl⟩

section
variable (h : StoreOk s)
include h

theorem StoreOk.upsert (alloc : AllocSite → Bool) (key value : Bytes)
    (isWorm : Bool) (timestamp : UInt64) :
    match s.upsertShardLocked alloc (shardIndex key) (s.get key) key value isWorm timestamp with
    | .ok s' => Updates s s' key (some ⟨key, value, timestamp, .written isWorm⟩)
    | .error f => f = .error .outOfMemory := by
  have hprep := h.prepare alloc key value isWorm timestamp
  unfold Store.upsertShardLocked
  generalize s.prepareUpsertLocked alloc (shardIndex key) (s.get key) key value isWorm timestamp =
    result at hprep ⊢
  obtain f | ⟨prepared, s'⟩ := result
  · exact hprep
  · obtain ⟨s'', hcommit, hupd⟩ := hprep.commit
    simp only [hcommit]
    exact hupd

/-- **`setUnsafe`** writes, or is refused and changes nothing. -/
theorem StoreOk.setUnsafe (alloc : AllocSite → Bool) (key value : Bytes)
    (isWorm : Bool) (now : UInt64) :
    match s.setUnsafe alloc key value isWorm now with
    | .ok s' => s.wormBlocked key = false ∧
        Updates s s' key (some ⟨key, value, now, .written isWorm⟩)
    | .error f => f = .error .wormViolation ∨ f = .error .outOfMemory := by
  unfold Store.setUnsafe Store.setInternalLockedNoWal
  cases hw : s.wormBlocked key with
  | true => exact .inl rfl
  | false =>
    have hup := h.upsert alloc key value isWorm now
    simp only [Bool.false_eq_true, if_false]
    generalize s.upsertShardLocked alloc (shardIndex key) (s.get key) key value isWorm now =
      result at hup ⊢
    obtain f | s' := result
    · exact .inr hup
    · exact ⟨trivial, hup⟩

/-- **`deleteUnsafe`** removes the key. -/
theorem StoreOk.deleteUnsafe (key : Bytes) :
    Updates s (s.deleteUnsafe key) key none := h.drop key

theorem StoreOk.shardPut (alloc : AllocSite → Bool) {e : Entry}
    (he : s.mem p = some e) (hp : ∀ i, p ∉ (s.shards i).sorted) :
    match s.shardPutLocked alloc (shardIndex e.key) p with
    | .ok s' => Updates s s' e.key (some e)
    | .error f => f = .error .outOfMemory := by
  obtain ⟨s', hput, hupd⟩ := h.put he hp
  unfold Store.shardPutLocked
  cases hr : s.shardReservePutLocked alloc (shardIndex e.key) (keyAt s.mem p) with
  | error f => exact reserve_error hr
  | ok u =>
    simp only [hput]
    exact hupd

/-- With memory to be had, the put succeeds. -/
theorem StoreOk.shardPut_ok (halloc : ∀ site, alloc site = true) {e : Entry} (he : s.mem p = some e)
    (hp : ∀ i, p ∉ (s.shards i).sorted) :
    ∃ s', s.shardPutLocked alloc (shardIndex e.key) p = .ok s' ∧ Updates s s' e.key (some e) := by
  obtain ⟨s', hput, hupd⟩ := h.put he hp
  refine ⟨s', ?_, hupd⟩
  simp [Store.shardPutLocked, Store.shardReservePutLocked, halloc, hput]

end

/-! ## Replay -/

theorem liveWorm_eq (s : Store) (key : Bytes) :
    s.liveWorm key = (s.entryAt key).any (fun e => e.flags.isWorm) := by
  rw [Store.liveWorm, Store.entryAt]
  cases (s.get key).bind s.mem <;> rfl

/-- What a record does to the entry under its key, unless that is WORM. -/
def WalRecord.effect : WalRecord → Option (Bytes × Option Entry)
  | .set key value flags timestamp => some (key, some ⟨key, value, timestamp, flags⟩)
  | .delete key => some (key, none)
  | .vinsert .. => none
  | .vdelete .. => none

/-- `s'` is `s` after the record was replayed on it. -/
def Replayed (s s' : Store) (r : WalRecord) : Prop :=
  match r.effect with
  | none => Keeps s s'
  | some (key, e) => if s.liveWorm key then Keeps s s' else Updates s s' key e

/-- **Replaying one record.**  A failed replay keeps the entries. -/
theorem StoreOk.replayRecord (h : StoreOk s) (alloc : AllocSite → Bool) (r : WalRecord) :
    match s.replayRecord alloc r with
    | (.ok (), s') => Replayed s s' r
    | (.error f, s') => f = .error .outOfMemory ∧ Keeps s s' := by
  cases r with
  | set key value flags timestamp =>
    unfold Store.replayRecord
    by_cases hw : s.liveWorm key = true
    · simp only [hw, if_true]
      simp only [Replayed, WalRecord.effect, hw, if_true]
      exact Keeps.refl h
    · simp only [if_neg hw]
      cases alloc .entry with
      | false => exact ⟨rfl, Keeps.refl h⟩
      | true =>
        obtain ⟨hkeeps, hmem, hout⟩ := h.create ⟨key, value, timestamp, flags⟩
        have hput := hkeeps.ok.shardPut alloc hmem hout
        simp only [if_true]
        generalize (s.create ⟨key, value, timestamp, flags⟩) = created at *
        obtain ⟨p, s'⟩ := created
        dsimp only at hput hkeeps hout ⊢
        generalize s'.shardPutLocked alloc (shardIndex key) p = result at hput ⊢
        obtain f | s'' := result
        · exact ⟨hput, hkeeps.trans (hkeeps.ok.destroyEntry hout)⟩
        · simp only [Replayed, WalRecord.effect, if_neg hw]
          exact hkeeps.updates hput
  | delete key =>
    unfold Store.replayRecord
    simp only [Replayed, WalRecord.effect]
    by_cases hw : s.liveWorm key = true
    · rw [if_pos hw, if_pos hw]
      exact Keeps.refl h
    · rw [if_neg hw, if_neg hw]
      exact h.drop key
  | vinsert | vdelete => exact Keeps.refl h

theorem Replayed.ok {s' : Store} {r : WalRecord} (h : Replayed s s' r) : StoreOk s' := by
  unfold Replayed at h
  split at h
  · exact h.ok
  · split at h
    · exact h.ok
    · exact h.ok

theorem Replayed.sst {r : WalRecord} (h : Replayed s s' r) : s'.sst = s.sst := by
  unfold Replayed at h
  split at h
  · exact h.sst
  · split at h
    · exact h.sst
    · exact h.sst

/-- **Replaying any bytes** keeps the invariant, also where it stops early. -/
theorem StoreOk.replayLoop (h : StoreOk s) (alloc : Nat → AllocSite → Bool) (fuel n : Nat)
    (bytes : Bytes) : StoreOk (Store.replayLoop alloc fuel n bytes s).2 ∧
      (Store.replayLoop alloc fuel n bytes s).2.sst = s.sst := by
  induction fuel generalizing s n bytes with
  | zero => exact ⟨h, rfl⟩
  | succ fuel ih =>
    rw [Store.replayLoop]
    cases Wal.next bytes with
    | done | corruption | trap => exact ⟨h, rfl⟩
    | record r rest =>
      have hrec := h.replayRecord (alloc n) r
      simp only []
      cases alloc n .record with
      | false => exact ⟨h, rfl⟩
      | true =>
        simp only [if_true]
        generalize s.replayRecord (alloc n) r = result at hrec ⊢
        obtain ⟨f | u, s'⟩ := result
        · exact ⟨hrec.2.ok, hrec.2.sst⟩
        · obtain ⟨hok, hsst⟩ := ih hrec.ok (n + 1) rest
          exact ⟨hok, hsst.trans hrec.sst⟩

theorem StoreOk.replayWal (h : StoreOk s) (alloc : Nat → AllocSite → Bool) (wal : Bytes) :
    StoreOk (Store.replayWal alloc wal s).2 ∧ (Store.replayWal alloc wal s).2.sst = s.sst :=
  h.replayLoop alloc _ _ _

end

end WormDB
