import WormDB.Scan
import WormDB.SstBuild
import Mathlib.Data.List.Perm.Subperm

/-! # What a scan returns

Each source is offered from the end that the limit keeps, and at most `limit` of it.
Shadowed keys take places in that window, but each of them is live, so the shards have
given it already: leaving out what lies beyond the window is right all the same
(`best_source`).

Nothing compares the mounts with each other.  A key that two of them have, and the live
shards do not, is collected twice, and the scan is the merged view exactly when there is
no such key (`scan_eq_view_iff`). -/
namespace WormDB
open List ByteCodec BoundedHeap

/-! ## One source -/

/-- A source from the end that the limit keeps. -/
def fromBest {α : Type} (limit : Nat) (cut : ScanCut) (xs : List α) : List α :=
  if limit > 0 ∧ cut = .last then xs.reverse else xs

/-- The part of a source that is offered. -/
def offered {α : Type} (limit : Nat) (cut : ScanCut) (xs : List α) : List α :=
  if limit > 0 then (fromBest limit cut xs).take limit else xs

variable {lo hi : Nat}

theorem window_eq (limit : Nat) (cut : ScanCut) (hle : lo ≤ hi) :
    window limit cut lo hi = offered limit cut (List.range' lo (hi - lo)) := by
  unfold window offered fromBest
  by_cases hlimit : limit > 0
  · by_cases hcut : cut = .last
    · simp only [hlimit, hcut, and_self, if_true, take_reverse, length_range',
        drop_range']
      by_cases hmore : hi - lo > limit
      · rw [if_pos hmore, show lo + (hi - lo - limit) * 1 = hi - limit by omega,
          show hi - lo - (hi - lo - limit) = hi - (hi - limit) by omega]
      · rw [if_neg hmore, show hi - lo - limit = 0 by omega]
        simp
    · simp only [hlimit, hcut, true_and, if_true, if_false]
      by_cases hmore : hi - lo > limit
      · rw [if_pos hmore, take_range'_of_length_ge (by omega), Nat.add_sub_cancel_left]
      · rw [if_neg hmore, take_range'_of_length_le (by omega)]
  · simp [hlimit]

variable {α β : Type}

theorem offered_map (limit : Nat) (cut : ScanCut) (f : α → β) (xs : List α) :
    (offered limit cut xs).map f = offered limit cut (xs.map f) := by
  unfold offered fromBest
  split
  · split <;> simp [map_take]
  · rfl

variable {xs : List α} {P : α → Bool}

/-- The elements at a range of indices are those that satisfy what describes it. -/
theorem filter_eq_range (hle : lo ≤ hi)
    (hhi : hi ≤ xs.length) (h : ∀ i (hi' : i < xs.length), P xs[i] = true ↔ lo ≤ i ∧ i < hi) :
    xs.filter P = (xs.drop lo).take (hi - lo) := by
  have hsplit : xs = xs.take lo ++ ((xs.drop lo).take (hi - lo) ++ xs.drop hi) := by
    have hdrop : xs.drop hi = (xs.drop lo).drop (hi - lo) := by
      rw [drop_drop]
      congr 1
      omega
    rw [hdrop, take_append_drop, take_append_drop]
  have hbefore : (xs.take lo).filter P = [] := by
    refine filter_eq_nil_iff.mpr (fun a ha hP => ?_)
    obtain ⟨i, hi', rfl⟩ := mem_take_iff_getElem.mp ha
    have := (h i (by omega)).mp hP
    omega
  have hin : ((xs.drop lo).take (hi - lo)).filter P = (xs.drop lo).take (hi - lo) := by
    refine filter_eq_self.mpr (fun a ha => ?_)
    obtain ⟨i, hi', rfl⟩ := mem_take_iff_getElem.mp ha
    rw [length_drop] at hi'
    rw [getElem_drop]
    exact (h (lo + i) (by omega)).mpr ⟨by omega, by omega⟩
  have hafter : (xs.drop hi).filter P = [] := by
    refine filter_eq_nil_iff.mpr (fun a ha hP => ?_)
    obtain ⟨i, hi', rfl⟩ := mem_drop_iff_getElem.mp ha
    have := (h (hi + i) (by omega)).mp hP
    omega
  calc xs.filter P
      = (xs.take lo ++ ((xs.drop lo).take (hi - lo) ++ xs.drop hi)).filter P := by rw [← hsplit]
    _ = (xs.drop lo).take (hi - lo) := by
        rw [filter_append, filter_append, hbefore, hin, hafter, append_nil,
          nil_append]

/-- **The range of a prefix in a sorted shard** has exactly the keys that start with it, and the
lower bound of a key counts the smaller ones. -/
theorem prefixRange_exact {mem : Memory} {items : List Ptr}
    (h : OrderedIndex.Ascending (keyAt mem) items) (p key : Bytes) :
    let range := prefixRange mem items p
    (range.1 ≤ range.2 ∧ range.2 ≤ items.length ∧
      (∀ i (hi : i < items.length), range.1 ≤ i ∧ i < range.2 ↔ p <+: keyAt mem items[i]) ∧
      (items.drop range.1).take (range.2 - range.1) =
        items.filter fun q => p.isPrefixOf (keyAt mem q)) ∧
    lowerBoundKey mem items key = items.countP fun q => decide (keyAt mem q < key) := by
  intro range
  obtain ⟨hle, hhi, hrange⟩ := prefixRange_spec h p
  refine ⟨⟨hle, hhi, fun i hi => (hrange i hi).symm, ?_⟩, OrderedIndex.lowerBound_eq_countP h key⟩
  refine (filter_eq_range hle hhi fun i hi => ?_).symm
  rw [ isPrefixOf_iff_prefix]
  exact hrange i hi

/-- A prefix without a successor. -/
theorem prefixRange_exact_last :
    let keys : List Bytes := [[0x61], [0xFF], [0xFF, 0xFE], [0xFF, 0xFF], [0xFF, 0xFF, 0x01]]
    let mem : Memory := fun p => keys[p]?.map fun key => ⟨key, [], 0, .written false⟩
    let items : List Ptr := [0, 1, 2, 3, 4]
    prefixRange mem items [0xFF, 0xFF] = (3, 5) ∧
      items.filter (fun q => List.isPrefixOf [0xFF, 0xFF] (keyAt mem q)) = [3, 4] ∧
      lowerBoundKey mem items [0xFF, 0xFF] = 3 := by
  intro keys mem items
  have hsorted : OrderedIndex.Ascending (keyAt mem) items :=
    show items.Pairwise fun a b => keyAt mem a < keyAt mem b by decide
  have hexact := prefixRange_exact hsorted [0xFF, 0xFF] [0xFF, 0xFF]
  have hrange : prefixRange mem items [0xFF, 0xFF] = (3, 5) := by decide
  refine ⟨hrange, ?_, hexact.2.trans (by decide)⟩
  rw [← hexact.1.2.2.2, hrange]
  rfl

/-- **The loop over one source** offers its elements with the prefix. -/
theorem offerWindow_source {result : α → ScanResult}
    {read : Nat → Option ScanResult} (hle : lo ≤ hi) (hhi : hi ≤ xs.length)
    (hrange : ∀ i (hi' : i < xs.length), P xs[i] = true ↔ lo ≤ i ∧ i < hi)
    (hread : ∀ i (hi' : i < xs.length), read i = some (result xs[i]))
    (limit : Nat) (cut : ScanCut) (shadowed : Bytes → Bool) (results : List ScanResult) :
    (if lo = hi then some results
      else offerWindow limit cut read shadowed (window limit cut lo hi) results) =
      some (collect (scanHeapWorse cut) limit (fun r => shadowed r.key) results
        (offered limit cut ((xs.filter P).map result))) := by
  have hfilter := filter_eq_range hle hhi hrange
  by_cases hempty : lo = hi
  · rw [if_pos hempty, hfilter, hempty, Nat.sub_self, take_zero]
    unfold offered fromBest
    simp [collect]
  · rw [if_neg hempty, window_eq limit cut hle]
    have hindex : ∀ i ∈ List.range' lo (hi - lo), i < xs.length := by
      intro i hi'
      rw [mem_range'_1] at hi'
      omega
    have hmem : ∀ i ∈ offered limit cut (List.range' lo (hi - lo)),
        read i = some ((read i).getD ⟨[], [], 0, false⟩) := by
      intro i hi'
      have hi'' : i ∈ List.range' lo (hi - lo) := by
        unfold offered fromBest at hi'
        split at hi'
        · have := mem_of_mem_take hi'
          split at this
          · exact mem_reverse.mp this
          · exact this
        · exact hi'
      rw [hread i (hindex i hi'')]
      rfl
    rw [offerWindow_eq shadowed hmem, offered_map]
    congr 3
    refine ext_getElem ?_ (fun i h₁ h₂ => ?_)
    · rw [length_map, length_range', length_map, hfilter, length_take,
        length_drop]
      omega
    · rw [length_map, length_range'] at h₁
      simp only [hfilter, getElem_map, getElem_range', getElem_take,
        getElem_drop]
      rw [one_mul, hread (lo + i) (by omega)]
      rfl

section
variable {limit : Nat} {cut : ScanCut} {heap all : List ScanResult}

variable {xs : List ScanResult}

/-- A source in ascending order, from the end that is kept, gets worse. -/
theorem fromBest_sorted (cut : ScanCut) (hasc : xs.Pairwise (fun a b => a.key < b.key))
    (hlimit : 0 < limit) :
    (fromBest limit cut xs).Pairwise (fun a b => scanHeapWorse cut b a = true) := by
  rw [fromBest]
  cases cut with
  | first =>
    rw [if_neg (by simp)]
    exact hasc.imp (fun hlt => scanHeapWorse_first.mpr hlt)
  | last =>
    rw [if_pos ⟨hlimit, rfl⟩, pairwise_reverse]
    exact hasc.imp (fun hlt => scanHeapWorse_last.mpr hlt)

theorem fromBest_perm (limit : Nat) (cut : ScanCut) (xs : List α) :
    (fromBest limit cut xs).Perm xs := by
  rw [fromBest]
  split
  · exact reverse_perm xs
  · exact Perm.refl xs

variable {y : ScanResult}

/-- The order of the heap looks at the keys only. -/
theorem scanHeapWorse_congr {a b : ScanResult} (h : a.key = b.key) :
    scanHeapWorse cut a y = scanHeapWorse cut b y := by
  rw [scanHeapWorse.eq_def, scanHeapWorse.eq_def, h]

/-- What lies behind the window has `limit` others before it: what was offered counts itself,
what was passed over its namesake. -/
theorem many_before_rest {best : List ScanResult}
    (hsorted : best.Pairwise (fun a b => scanHeapWorse cut b a = true))
    (hkeys : (best.map ScanResult.key).Nodup) (skip : Bytes → Bool)
    (hskip : ∀ x ∈ best, skip x.key = true → ∃ a ∈ all, a.key = x.key) (hy : y ∈ best.drop limit) :
    limit ≤ ((best.take limit).filter (fun r => !skip r.key) ++ all).countP
      (fun w => !scanHeapWorse cut w y) := by
  have hlen : (best.take limit).length = limit := by
    have hpos := length_pos_of_mem hy
    rw [length_drop] at hpos
    rw [length_take]
    omega
  have hbetter : ∀ w ∈ best.take limit, scanHeapWorse cut w y = false := by
    rw [← take_append_drop limit best] at hsorted
    obtain ⟨-, -, hcross⟩ := pairwise_append.mp hsorted
    exact fun w hw => (scanHeapWorse_weakOrder cut).asymm (hcross w hw y hy)
  have hoffered : ((best.take limit).filter (fun r => !skip r.key)).countP
      (fun w => !scanHeapWorse cut w y) =
      ((best.take limit).filter (fun r => !skip r.key)).length := by
    refine countP_eq_length.mpr (fun w hw => ?_)
    simp [hbetter w (mem_of_mem_filter hw)]
  have hpassed : ((best.take limit).filter (fun r => skip r.key)).length ≤
      all.countP (fun w => !scanHeapWorse cut w y) := by
    have hsub : (((best.take limit).filter (fun r => skip r.key)).map ScanResult.key).Subperm
        ((all.filter (fun w => !scanHeapWorse cut w y)).map ScanResult.key) := by
      apply subperm_of_subset
      · exact hkeys.sublist ((filter_sublist.trans (take_sublist ..)).map _)
      · intro k hk
        obtain ⟨w, hw, rfl⟩ := mem_map.mp hk
        obtain ⟨hwin, hwskip⟩ := mem_filter.mp hw
        obtain ⟨a, ha, hkey⟩ := hskip w (mem_of_mem_take hwin) hwskip
        refine mem_map.mpr ⟨a, mem_filter.mpr ⟨ha, ?_⟩, hkey⟩
        rw [scanHeapWorse_congr hkey, hbetter w hwin]
        rfl
    have hlength := hsub.length_le
    rw [length_map, length_map] at hlength
    rwa [countP_eq_length_filter]
  have htotal := length_eq_countP_add_countP (fun r => skip r.key) (l := best.take limit)
  rw [countP_eq_length_filter, countP_eq_length_filter] at htotal
  simp only [Bool.not_eq_true, Bool.decide_eq_false] at htotal
  rw [countP_append, hoffered]
  omega

/-- **One source**: the heap has the best of everything, though only a window was
offered, if what was passed over is there under the same key. -/
theorem best_source (hasc : xs.Pairwise (fun a b => a.key < b.key))
    (skip : Bytes → Bool) (hskip : ∀ x ∈ xs, skip x.key = true → ∃ a ∈ all, a.key = x.key)
    (h : Best (scanHeapWorse cut) limit heap all) : Best (scanHeapWorse cut) limit
      (collect (scanHeapWorse cut) limit (fun r => skip r.key) heap (offered limit cut xs))
      (xs.filter (fun r => !skip r.key) ++ all) := by
  have W := scanHeapWorse_weakOrder cut
  rw [offered]
  by_cases hlimit : limit > 0
  · rw [if_pos hlimit]
    have hsorted := fromBest_sorted cut hasc hlimit
    have hperm := fromBest_perm limit cut xs
    generalize fromBest limit cut xs = best at hsorted hperm ⊢
    have hkeys : (best.map ScanResult.key).Nodup := by
      refine (hperm.map ScanResult.key).nodup_iff.mpr ?_
      rw [List.Nodup, pairwise_map]
      refine hasc.imp ?_
      intro a b hlt heq
      exact List.lt_irrefl _ (heq ▸ hlt)
    have hoffered := h.collect W (fun r => skip r.key)
      (fun _ => (hsorted.sublist (take_sublist limit best)).imp (fun hworse => W.asymm hworse))
    have hall := hoffered.skipAll W hlimit ((best.drop limit).filter (fun r => !skip r.key))
      (fun y hy => many_before_rest hsorted hkeys skip
        (fun x hx => hskip x (hperm.mem_iff.mp hx)) (mem_of_mem_filter hy))
    -- the window and the rest are the source again
    refine hall.perm ?_
    rw [← append_assoc]
    refine Perm.append_right all ?_
    refine perm_append_comm.trans ?_
    rw [← filter_append, take_append_drop]
    exact hperm.filter _
  · rw [if_neg hlimit]
    exact h.collect W _ (fun hpos => absurd hpos hlimit)

end

/-! ## All sources -/

/-- Reading through pointers that are all live. -/
theorem getElem?_filterMap {f : α → Option β}
    (h : ∀ a ∈ xs, ∃ b, f a = some b) (i : Nat) : (xs.filterMap f)[i]? = xs[i]?.bind f := by
  induction xs generalizing i with
  | nil => rfl
  | cons a xs ih =>
    obtain ⟨⟨b, hb⟩, hxs⟩ := forall_mem_cons.mp h
    rw [filterMap_cons, hb]
    cases i with
    | zero => exact hb.symm
    | succ i => exact ih hxs i

/-- One source after the other. -/
theorem best_sources {σ : Type} {limit : Nat} {cut : ScanCut}
    {scan : List ScanResult → σ → Option (List ScanResult)} {found : σ → List ScanResult}
    {sources : List σ} (Holds : List ScanResult → Prop)
    (hstep : ∀ src ∈ sources, ∀ heap all, Best (scanHeapWorse cut) limit heap all → Holds all →
      ∃ heap', scan heap src = some heap' ∧
        Best (scanHeapWorse cut) limit heap' (found src ++ all))
    (hmono : ∀ all more, Holds all → Holds (more ++ all)) {heap all : List ScanResult}
    (h : Best (scanHeapWorse cut) limit heap all) (hall : Holds all) :
    ∃ heap', sources.foldlM scan heap = some heap' ∧
      Best (scanHeapWorse cut) limit heap' (sources.flatMap found ++ all) := by
  induction sources generalizing heap all with
  | nil => exact ⟨heap, rfl, h⟩
  | cons src sources ih =>
    obtain ⟨hsrc, hsources⟩ := forall_mem_cons.mp hstep
    obtain ⟨heap₁, hscan, h₁⟩ := hsrc heap all h hall
    obtain ⟨heap', hfold, h'⟩ := ih hsources h₁ (hmono _ _ hall)
    refine ⟨heap', ?_, h'.perm ?_⟩
    · rw [foldlM_cons, hscan]
      exact hfold
    · rw [flatMap_cons, ← append_assoc]
      exact Perm.append_right all perm_append_comm

namespace Overlay

def shardEntries (o : Overlay) (i : Fin shardCount) : List Entry :=
  (o.store.shards i).sorted.filterMap o.store.mem

/-- What a shard has with the prefix. -/
def liveMatches (o : Overlay) (p : Bytes) (i : Fin shardCount) : List ScanResult :=
  ((o.shardEntries i).filter (fun e => p.isPrefixOf e.key)).map Entry.result

/-- What a segment has with the prefix. -/
def frozenMatches (p : Bytes) (seg : Segment) : List ScanResult :=
  (seg.hits.filter (fun hit => p.isPrefixOf hit.key)).map Hit.result

/-- What a segment gives to a scan. -/
def unshadowed (o : Overlay) (p : Bytes) (seg : Segment) : List ScanResult :=
  (frozenMatches p seg).filter (fun r => (o.store.entryAt r.key).isNone)

def live (o : Overlay) (p : Bytes) : List ScanResult :=
  (finRange shardCount).flatMap (o.liveMatches p)

/-- Everything that a scan collects. -/
def collected (o : Overlay) (p : Bytes) : List ScanResult :=
  o.segs.flatMap (o.unshadowed p) ++ o.live p

section
variable (o : Overlay) (p : Bytes)

theorem shardEntries_getElem? (i : Fin shardCount) (idx : Nat) :
    (o.shardEntries i)[idx]? = (o.store.shards i).sorted[idx]?.bind o.store.mem := by
  refine getElem?_filterMap ?_ idx
  intro q hq
  obtain ⟨e, he, -⟩ := (o.ok.shards i).live q hq
  exact ⟨e, he⟩

/-- A sorted list of pointers and the list of their entries. -/
theorem shardEntries_spec (i : Fin shardCount) :
    (o.shardEntries i).length = (o.store.shards i).sorted.length ∧
      ∀ idx (h : idx < (o.shardEntries i).length) (h' : idx < (o.store.shards i).sorted.length),
        (o.store.mem (o.store.shards i).sorted[idx]) = some (o.shardEntries i)[idx] ∧
          keyAt o.store.mem (o.store.shards i).sorted[idx] = (o.shardEntries i)[idx].key := by
  refine ⟨?_, fun idx h h' => ?_⟩
  · rw [shardEntries]
    have hlive := (o.ok.shards i).live
    generalize (o.store.shards i).sorted = ps at hlive
    induction ps with
    | nil => rfl
    | cons q ps ih =>
      obtain ⟨⟨e, he, -⟩, hps⟩ := forall_mem_cons.mp hlive
      rw [filterMap_cons, he, length_cons, ih hps, length_cons]
  · have hget := o.shardEntries_getElem? i idx
    rw [getElem?_eq_getElem h, getElem?_eq_getElem h', Option.bind_some] at hget
    exact ⟨hget.symm, keyAt_of_some hget.symm⟩

theorem shardEntries_range (i : Fin shardCount) :
    let range := prefixRange o.store.mem (o.store.shards i).sorted p
    range.1 ≤ range.2 ∧ range.2 ≤ (o.shardEntries i).length ∧
      ∀ idx (h : idx < (o.shardEntries i).length),
        p.isPrefixOf (o.shardEntries i)[idx].key = true ↔ range.1 ≤ idx ∧ idx < range.2 := by
  obtain ⟨hlen, hentry⟩ := o.shardEntries_spec i
  obtain ⟨hle, hhi, hrange⟩ := prefixRange_spec (o.ok.shards i).ascending p
  refine ⟨hle, by rw [hlen]; exact hhi, fun idx h => ?_⟩
  rw [ isPrefixOf_iff_prefix, ← (hentry idx h (by omega)).2]
  exact hrange idx (by omega)

/-- **One shard.** -/
theorem scanShard_eq (limit : Nat) (cut : ScanCut) (results : List ScanResult)
    (i : Fin shardCount) : o.scanShard limit cut p results i =
      some (collect (scanHeapWorse cut) limit (fun _ => false) results
        (offered limit cut (o.liveMatches p i))) := by
  obtain ⟨hle, hhi, hrange⟩ := o.shardEntries_range p i
  refine offerWindow_source hle hhi hrange ?_ limit cut (fun _ => false) results
  intro idx h
  rw [← o.shardEntries_getElem? i, getElem?_eq_getElem h]
  rfl

/-- **One segment.** -/
theorem scanSst_eq (limit : Nat) (cut : ScanCut) (liveMayShadow : Bool)
    (results : List ScanResult) (seg : Segment) :
    o.scanSst limit cut p liveMayShadow results seg.sst =
      some (collect (scanHeapWorse cut) limit
        (fun r => liveMayShadow && o.containsLive r.key) results
        (offered limit cut (frozenMatches p seg))) := by
  obtain ⟨lo, hi, hmatch, hle, hhi, hrange⟩ := seg.represents.prefixRange_eq p
  rw [scanSst, hmatch]
  refine offerWindow_source hle hhi ?_ ?_ limit cut
    (fun key => liveMayShadow && o.containsLive key) results
  · intro i h
    rw [ isPrefixOf_iff_prefix]
    exact hrange i h
  · intro i h
    rw [seg.represents.hitAt i h]
    rfl

theorem shardEntries_ascending (i : Fin shardCount) :
    (o.shardEntries i).Pairwise (fun a b => a.key < b.key) := by
  rw [shardEntries, pairwise_filterMap]
  refine (o.ok.shards i).ascending.imp ?_
  intro q q' hlt a ha b hb
  rwa [keyAt_of_some ha, keyAt_of_some hb] at hlt

theorem liveMatches_ascending (i : Fin shardCount) :
    (o.liveMatches p i).Pairwise (fun a b => a.key < b.key) := by
  rw [liveMatches, pairwise_map]
  exact (o.shardEntries_ascending i).filter _

theorem frozenMatches_ascending (seg : Segment) :
    (frozenMatches p seg).Pairwise (fun a b => a.key < b.key) := by
  rw [frozenMatches, pairwise_map]
  exact seg.represents.ascending.filter _

variable {p}

variable {r : ScanResult}

theorem mem_live :
    r ∈ o.live p ↔ p <+: r.key ∧ ∃ e, o.store.entryAt r.key = some e ∧ e.result = r := by
  have hentries : ∀ e, e ∈ o.liveEntries ↔ ∃ i, e ∈ o.shardEntries i := by
    intro e
    rw [liveEntries, mem_flatMap]
    simp [shardEntries, mem_finRange]
  rw [live, mem_flatMap]
  constructor
  · rintro ⟨i, -, hr⟩
    obtain ⟨e, he, rfl⟩ := mem_map.mp hr
    obtain ⟨hmem, hp⟩ := mem_filter.mp he
    exact ⟨ isPrefixOf_iff_prefix.mp hp, e,
      o.mem_liveEntries.mp ((hentries e).mpr ⟨i, hmem⟩), rfl⟩
  · rintro ⟨hp, e, hat, rfl⟩
    obtain ⟨i, hi⟩ := (hentries e).mp (o.mem_liveEntries.mpr hat)
    exact ⟨i, mem_finRange i, mem_map.mpr
      ⟨e, mem_filter.mpr ⟨hi, isPrefixOf_iff_prefix.mpr hp⟩, rfl⟩⟩

variable {key : Bytes}

/-- The shortcut is right: a live key with the prefix makes some range nonempty. -/
theorem livePrefixNonEmpty_of_live (hp : p <+: key)
    (hlive : (o.store.entryAt key).isSome = true) : o.livePrefixNonEmpty p = true := by
  obtain ⟨e, hat⟩ := Option.isSome_iff_exists.mp hlive
  obtain ⟨q, hq, he, hkey⟩ := o.ok.entryAt_iff.mp hat
  obtain ⟨idx, hidx, hget⟩ := getElem_of_mem hq
  obtain ⟨-, -, hrange⟩ := prefixRange_spec (o.ok.shards (shardIndex key)).ascending p
  have hin := (hrange idx hidx).mp (by rw [hget, keyAt_of_some he, hkey]; exact hp)
  refine any_eq_true.mpr ⟨shardIndex key, mem_finRange _, ?_⟩
  simpa using show (prefixRange o.store.mem (o.store.shards (shardIndex key)).sorted p).1 <
    (prefixRange o.store.mem (o.store.shards (shardIndex key)).sorted p).2 by omega

variable (p)

/-- Every live key with the prefix is there. -/
def HasLive (all : List ScanResult) : Prop :=
  ∀ key, p <+: key → (o.store.entryAt key).isSome = true → ∃ r ∈ all, r.key = key

/-- The shards, from an empty heap. -/
theorem scanShards_best (limit : Nat) (cut : ScanCut) :
    ∃ heap, (finRange shardCount).foldlM (o.scanShard limit cut p) [] = some heap ∧
      Best (scanHeapWorse cut) limit heap (o.live p) := by
  have hstep : ∀ i ∈ finRange shardCount, ∀ heap all,
      Best (scanHeapWorse cut) limit heap all → True →
      ∃ heap', o.scanShard limit cut p heap i = some heap' ∧
        Best (scanHeapWorse cut) limit heap' (o.liveMatches p i ++ all) := by
    intro i _ heap all hbest _
    refine ⟨_, o.scanShard_eq p limit cut heap i, ?_⟩
    have hsource := best_source (o.liveMatches_ascending p i) (fun _ => false)
      nofun hbest
    rwa [filter_eq_self.mpr (by simp)] at hsource
  obtain ⟨heap, hfold, hbest⟩ :=
    best_sources (fun _ => True) hstep (fun _ _ _ => trivial) Best.empty trivial
  rw [append_nil] at hbest
  exact ⟨heap, hfold, hbest⟩

variable {seg : Segment}

theorem prefix_of_frozenMatches (h : r ∈ frozenMatches p seg) : p <+: r.key := by
  obtain ⟨hit, hhit, rfl⟩ := mem_map.mp h
  exact isPrefixOf_iff_prefix.mp (mem_filter.mp hhit).2

/-- The scan leaves out of a mount what is live. -/
theorem filter_shadowed (seg : Segment) :
    (frozenMatches p seg).filter (fun r => !(o.livePrefixNonEmpty p && o.containsLive r.key)) =
      o.unshadowed p seg := by
  refine filter_congr (fun r hr => ?_)
  have hp := prefix_of_frozenMatches p hr
  rw [containsLive_eq]
  cases hat : o.store.entryAt r.key with
  | none => simp
  | some e => simp [o.livePrefixNonEmpty_of_live hp (by rw [hat]; rfl)]

/-- The mounts, after the shards. -/
theorem scanSsts_best {limit : Nat} {cut : ScanCut} {heap : List ScanResult}
    (h : Best (scanHeapWorse cut) limit heap (o.live p)) :
    ∃ heap', o.ssts.foldlM (o.scanSst limit cut p
        (decide (o.ssts.length > 0) && o.livePrefixNonEmpty p)) heap = some heap' ∧
      Best (scanHeapWorse cut) limit heap' (o.collected p) := by
  have hstep : ∀ seg ∈ o.segs, ∀ heap all,
      Best (scanHeapWorse cut) limit heap all → o.HasLive p all →
      ∃ heap', o.scanSst limit cut p (decide (o.ssts.length > 0) && o.livePrefixNonEmpty p) heap
        seg.sst = some heap' ∧
          Best (scanHeapWorse cut) limit heap' (o.unshadowed p seg ++ all) := by
    intro seg hseg heap all hbest hlive
    have hmounted : decide (o.ssts.length > 0) = true := by
      rw [decide_eq_true_eq, ssts, length_map]
      exact length_pos_of_mem hseg
    refine ⟨_, o.scanSst_eq p limit cut _ heap seg, ?_⟩
    rw [hmounted, Bool.true_and]
    have hsource := best_source (frozenMatches_ascending p seg)
      (fun key => o.livePrefixNonEmpty p && o.containsLive key) (by
        intro r hr hskip
        rw [Bool.and_eq_true, containsLive_eq] at hskip
        exact hlive r.key (prefix_of_frozenMatches p hr) hskip.2) hbest
    rwa [o.filter_shadowed p seg] at hsource
  have hmono : ∀ all more, o.HasLive p all → o.HasLive p (more ++ all) := by
    intro all more hall key hp hat
    obtain ⟨r, hr, hkey⟩ := hall key hp hat
    exact ⟨r, mem_append_right _ hr, hkey⟩
  have hlive : o.HasLive p (o.live p) := by
    intro key hp hat
    obtain ⟨e, hat⟩ := Option.isSome_iff_exists.mp hat
    obtain ⟨-, -, -, rfl⟩ := o.ok.entryAt_iff.mp hat
    exact ⟨e.result, o.mem_live.mpr ⟨hp, e, hat, rfl⟩, rfl⟩
  obtain ⟨heap', hfold, hbest⟩ := best_sources (o.HasLive p) hstep hmono h hlive
  exact ⟨heap', by rw [ssts, foldlM_map]; exact hfold, hbest⟩

/-- **The scan collects the best of everything.** -/
theorem scanPrefixCut_best (sort : KeySort) (limit : Nat) (cut : ScanCut) :
    ∃ heap, scanPrefixCut sort o p limit cut = some (sort.run heap) ∧
      Best (scanHeapWorse cut) limit heap (o.collected p) := by
  obtain ⟨heap₁, hshards, h₁⟩ := o.scanShards_best p limit cut
  obtain ⟨heap, hssts, h⟩ := o.scanSsts_best p h₁
  refine ⟨heap, ?_, h⟩
  simp only [scanPrefixCut, hshards, Option.bind_eq_bind, Option.bind_some, hssts]
  rfl

/-- What a scan without a limit collects, in the order in which it does. -/
def gathered (o : Overlay) (p : Bytes) : List ScanResult :=
  o.live p ++ o.segs.flatMap (o.unshadowed p)

theorem gathered_perm : (o.gathered p).Perm (o.collected p) := perm_append_comm

/-- Sources that all give what they have. -/
theorem foldlM_append {σ : Type} {step : List ScanResult → σ → Option (List ScanResult)}
    {give : σ → List ScanResult} {sources : List σ} (heap : List ScanResult)
    (h : ∀ s ∈ sources, ∀ heap, step heap s = some (heap ++ give s)) :
    sources.foldlM step heap = some (heap ++ sources.flatMap give) := by
  induction sources generalizing heap with
  | nil => simp
  | cons s sources ih =>
    obtain ⟨hs, hsources⟩ := forall_mem_cons.mp h
    rw [foldlM_cons, hs, Option.bind_eq_bind, Option.bind_some, ih _ hsources,
      flatMap_cons, append_assoc]

/-- **The scan without a limit.** -/
theorem scanPrefixCut_all (sort : KeySort) (cut : ScanCut) :
    scanPrefixCut sort o p 0 cut = some (sort.run (o.gathered p)) := by
  have hshards : (finRange shardCount).foldlM (o.scanShard 0 cut p) [] = some (o.live p) := by
    refine foldlM_append [] (fun i _ heap => ?_)
    rw [scanShard_eq, collect_zero, filter_eq_self.mpr (by simp)]
    rfl
  have hssts : o.ssts.foldlM (o.scanSst 0 cut p
      (decide (o.ssts.length > 0) && o.livePrefixNonEmpty p)) (o.live p) =
        some (o.gathered p) := by
    rw [ssts, foldlM_map]
    refine foldlM_append _ (fun seg hseg heap => ?_)
    have hmounted : decide ((o.segs.map Segment.sst).length > 0) = true := by
      rw [decide_eq_true_eq, length_map]
      exact length_pos_of_mem hseg
    rw [hmounted, Bool.true_and, scanSst_eq, collect_zero, ← o.filter_shadowed p seg]
    rfl
  simp only [scanPrefixCut, hshards, Option.bind_eq_bind, Option.bind_some, hssts]
  rfl

/-! ## The merged view -/

/-- The visible entries with the prefix, in ascending order. -/
def view (o : Overlay) (p : Bytes) : List ScanResult :=
  (o.merged.scan p).map (fun e => ⟨e.1, e.2.value, e.2.timestamp, e.2.isWorm⟩)

theorem view_ascending : (o.view p).Pairwise (fun a b => a.key < b.key) := by
  rw [view, pairwise_map]
  exact o.merged.ascending.filter _

theorem mem_view : r ∈ o.view p ↔
    p <+: r.key ∧ o.visible r.key = some ⟨r.value, r.timestamp, r.isWorm⟩ := by
  rw [view, mem_map, ← o.merged_get, ← PrefixMap.ByteMap.mem_scan_iff]
  constructor
  · rintro ⟨⟨key, content⟩, hmem, rfl⟩
    exact hmem
  · intro hmem
    exact ⟨_, hmem, rfl⟩

/-- No key that the shards do not have is in two mounts. -/
def FrozenOnce (o : Overlay) (p : Bytes) : Prop :=
  o.segs.Pairwise (fun a b => ∀ key, p <+: key → o.store.entryAt key = none →
    a.hit key = none ∨ b.hit key = none)

theorem mem_unshadowed : r ∈ o.unshadowed p seg ↔
    p <+:
    r.key ∧ o.store.entryAt r.key = none ∧ ∃ hit, seg.hit r.key = some hit ∧ hit.result = r := by
  rw [unshadowed, mem_filter, frozenMatches, mem_map]
  constructor
  · rintro ⟨⟨hit, hhit, rfl⟩, hnone⟩
    obtain ⟨hmem, hp⟩ := mem_filter.mp hhit
    exact ⟨ isPrefixOf_iff_prefix.mp hp, Option.isNone_iff_eq_none.mp hnone, hit,
      seg.represents.find_of_mem hmem, rfl⟩
  · rintro ⟨hp, hnone, hit, hhit, rfl⟩
    refine ⟨⟨hit, mem_filter.mpr ⟨mem_of_find?_eq_some hhit, ?_⟩, rfl⟩, ?_⟩
    · exact isPrefixOf_iff_prefix.mpr hp
    · exact Option.isNone_iff_eq_none.mpr hnone

theorem live_distinct : (o.live p).Pairwise (fun a b => a.key ≠ b.key) := by
  rw [live, pairwise_flatMap]
  refine ⟨?_, ?_⟩
  · intro i _
    refine (o.liveMatches_ascending p i).imp ?_
    intro a b hlt heq
    exact List.lt_irrefl _ (heq ▸ hlt)
  · refine (nodup_finRange shardCount).imp ?_
    intro i j hne a ha b hb hkey
    have hshard : ∀ i, ∀ r ∈ o.liveMatches p i, shardIndex r.key = i := by
      intro i r hr
      obtain ⟨e, he, rfl⟩ := mem_map.mp hr
      obtain ⟨q, hq, hqe⟩ := mem_filterMap.mp (mem_of_mem_filter he)
      obtain ⟨e', he', hi⟩ := (o.ok.shards i).live q hq
      cases hqe.symm.trans he'
      exact hi
    apply hne
    rw [← hshard i a ha, ← hshard j b hb, hkey]

/-- **What is collected has each key once** exactly when no two mounts share one. -/
theorem collected_distinct_iff :
    (o.collected p).Pairwise (fun a b => a.key ≠ b.key) ↔ o.FrozenOnce p := by
  rw [collected, pairwise_append, pairwise_flatMap]
  constructor
  · rintro ⟨⟨-, hsegs⟩, -, -⟩
    refine hsegs.imp ?_
    intro a b hne key hp hnone
    by_contra hboth
    rw [not_or] at hboth
    obtain ⟨hit, hhit⟩ := Option.ne_none_iff_exists'.mp hboth.1
    obtain ⟨hit', hhit'⟩ := Option.ne_none_iff_exists'.mp hboth.2
    have hkey : hit.key = key := by simpa using find?_some hhit
    have hkey' : hit'.key = key := by simpa using find?_some hhit'
    refine hne hit.result ((o.mem_unshadowed p).mpr ?_) hit'.result
      ((o.mem_unshadowed p).mpr ?_) (hkey.trans hkey'.symm)
    · rw [show hit.result.key = key from hkey]
      exact ⟨hp, hnone, hit, hhit, rfl⟩
    · rw [show hit'.result.key = key from hkey']
      exact ⟨hp, hnone, hit', hhit', rfl⟩
  · intro honce
    refine ⟨⟨?_, ?_⟩, o.live_distinct p, ?_⟩
    · intro seg _
      refine ((frozenMatches_ascending p seg).filter _).imp ?_
      intro a b hlt heq
      exact List.lt_irrefl _ (heq ▸ hlt)
    · refine honce.imp ?_
      intro a b hor r hr r' hr' hkey
      obtain ⟨hp, hnone, hit, hhit, -⟩ := (o.mem_unshadowed p).mp hr
      obtain ⟨-, -, hit', hhit', -⟩ := (o.mem_unshadowed p).mp hr'
      rw [← hkey] at hhit'
      rcases hor r.key hp hnone with h | h
      · cases h.symm.trans hhit
      · cases h.symm.trans hhit'
    · intro r hr r' hr' hkey
      obtain ⟨seg, -, hseg⟩ := mem_flatMap.mp hr
      obtain ⟨-, hnone, -⟩ := (o.mem_unshadowed p).mp hseg
      obtain ⟨-, e, hat, -⟩ := o.mem_live.mp hr'
      rw [← hkey, hnone] at hat
      cases hat

theorem frozenHit_of_once (honce : o.FrozenOnce p) {hit : Hit}
    (hseg : seg ∈ o.segs) (hp : p <+: key) (hnone : o.store.entryAt key = none)
    (hhit : seg.hit key = some hit) : frozenHit o.segs key = some hit := by
  unfold FrozenOnce at honce
  generalize o.segs = segs at hseg honce
  induction segs with
  | nil => cases hseg
  | cons a segs ih =>
    obtain ⟨ha, hsegs⟩ := pairwise_cons.mp honce
    rw [frozenHit_cons]
    rcases mem_cons.mp hseg with rfl | hseg
    · rw [hhit]
      rfl
    · rcases ha seg hseg key hp hnone with h | h
      · rw [h, Option.none_or]
        exact ih hseg hsegs
      · cases h.symm.trans hhit

/-- **Collected once, everything is what is visible.** -/
theorem collected_perm_view (honce : o.FrozenOnce p) : (o.view p).Perm (o.collected p) := by
  have hnodup : ∀ {rs : List ScanResult}, rs.Pairwise (fun a b => a.key ≠ b.key) → rs.Nodup := by
    intro rs hrs
    refine hrs.imp ?_
    rintro a b hne rfl
    exact hne rfl
  have hview : (o.view p).Pairwise (fun a b => a.key ≠ b.key) := by
    refine (o.view_ascending p).imp ?_
    intro a b hlt heq
    exact List.lt_irrefl _ (heq ▸ hlt)
  refine (perm_ext_iff_of_nodup (hnodup hview)
    (hnodup ((o.collected_distinct_iff p).mpr honce))).mpr ?_
  intro r
  rw [mem_view, collected, mem_append, mem_flatMap, mem_live, visible]
  constructor
  · rintro ⟨hp, hvisible⟩
    cases hat : o.store.entryAt r.key with
    | some e =>
      rw [hat] at hvisible
      obtain ⟨-, -, -, hkey⟩ := o.ok.entryAt_iff.mp hat
      refine .inr ⟨hp, e, rfl, ?_⟩
      have hcontent := Option.some.inj hvisible
      simp only [Entry.content, Content.mk.injEq] at hcontent
      simp [Entry.result, hkey, hcontent]
    | none =>
      rw [hat] at hvisible
      obtain ⟨hit, hfrozen, hcontent⟩ := Option.map_eq_some_iff.mp hvisible
      obtain ⟨seg, hseg, hhit⟩ := exists_of_findSome?_eq_some hfrozen
      refine .inl ⟨seg, hseg, (o.mem_unshadowed p).mpr ⟨hp, hat, hit, hhit, ?_⟩⟩
      have hkey : hit.key = r.key := by simpa using find?_some hhit
      simp only [Hit.content, Content.mk.injEq] at hcontent
      simp [Hit.result, hkey, hcontent]
  · rintro (⟨seg, hseg, hr⟩ | ⟨hp, e, hat, rfl⟩)
    · obtain ⟨hp, hnone, hit, hhit, rfl⟩ := (o.mem_unshadowed p).mp hr
      refine ⟨hp, ?_⟩
      rw [hnone, o.frozenHit_of_once p honce hseg hp hnone hhit]
      rfl
    · rw [hat]
      exact ⟨hp, rfl⟩

end

end Overlay

/-- The first `limit` of a list, all of it for 0. -/
def firstOf {α : Type} (limit : Nat) (xs : List α) : List α :=
  if limit = 0 then xs else xs.take limit

/-- The last `limit` of a list, all of it for 0. -/
def lastOf {α : Type} (limit : Nat) (xs : List α) : List α :=
  if limit = 0 then xs else xs.drop (xs.length - limit)

/-- Sorting gives the one ascending list of the same elements. -/
theorem KeySort.run_eq (sort : KeySort) {rs sorted : List ScanResult} (hperm : rs.Perm sorted)
    (hasc : sorted.Pairwise (fun a b => a.key < b.key)) : sort.run rs = sorted := by
  refine Perm.eq_of_pairwise ?_ (sort.sorted rs) (hasc.imp (fun hlt => List.lt_asymm hlt))
    ((sort.perm rs).trans hperm)
  intro a b ha hb hab hba
  have ha' : a ∈ sorted := hperm.mem_iff.mp ((sort.perm rs).mem_iff.mp ha)
  obtain ⟨i, hi, rfl⟩ := getElem_of_mem ha'
  obtain ⟨j, hj, rfl⟩ := getElem_of_mem hb
  rcases Nat.lt_trichotomy i j with hlt | rfl | hgt
  · exact absurd (pairwise_iff_getElem.mp hasc i j hi hj hlt) hba
  · rfl
  · exact absurd (pairwise_iff_getElem.mp hasc j i hj hi hgt) hab

namespace Overlay

/-- With a limit, the scan keeps the end that the cut says. -/
theorem scanPrefixCut_eq (sort : KeySort) (o : Overlay) (p : Bytes) (honce : o.FrozenOnce p)
    (limit : Nat) (cut : ScanCut) : scanPrefixCut sort o p limit cut =
      some (match cut with
        | .first => firstOf limit (o.view p)
        | .last => lastOf limit (o.view p)) := by
  obtain ⟨heap, hscan, hbest⟩ := o.scanPrefixCut_best p sort limit cut
  have hasc := o.view_ascending p
  have hview := o.collected_perm_view p honce
  rw [hscan]
  congr 1
  by_cases hlimit : limit = 0
  · subst hlimit
    have hheap := hbest.perm_of_zero.trans hview.symm
    cases cut with
    | first | last => exact sort.run_eq hheap hasc
  · have hpos : 0 < limit := Nat.pos_of_ne_zero hlimit
    have hheap := hbest.perm_take (scanHeapWorse_weakOrder cut) hpos
      (fromBest_sorted cut hasc hpos) ((fromBest_perm limit cut _).trans hview)
    rw [fromBest] at hheap
    cases cut with
    | first =>
      rw [if_neg (by simp)] at hheap
      simp only [firstOf, if_neg hlimit]
      exact sort.run_eq hheap (hasc.sublist (take_sublist ..))
    | last =>
      rw [if_pos ⟨hpos, rfl⟩, take_reverse] at hheap
      simp only [lastOf, if_neg hlimit]
      exact sort.run_eq (hheap.trans (reverse_perm _)) (hasc.sublist (drop_sublist ..))

/-- The list is the map that reads see, restricted to the prefix: ascending keys, each
with the value that a read of it returns. -/
structure IsView (o : Overlay) (p : Bytes) (rs : List ScanResult) : Prop where
  ascending : rs.Pairwise (fun a b => a.key < b.key)
  keys : ∀ key, (∃ r ∈ rs, r.key = key) ↔ p <+: key ∧ ∃ v, o.getValueDupe key = some (some v)
  values : ∀ r ∈ rs, o.getValueDupe r.key = some (some r.value)

theorem view_isView (o : Overlay) (p : Bytes) : o.IsView p (o.view p) where
  ascending := o.view_ascending p
  keys := by
    intro key
    rw [getValueDupe_eq]
    constructor
    · rintro ⟨r, hr, rfl⟩
      obtain ⟨hp, hvisible⟩ := (o.mem_view p).mp hr
      rw [hvisible]
      exact ⟨hp, r.value, rfl⟩
    · rintro ⟨hp, v, hv⟩
      obtain ⟨content, hvisible, -⟩ := Option.map_eq_some_iff.mp (Option.some.inj hv)
      exact ⟨⟨key, content.value, content.timestamp, content.isWorm⟩,
        (o.mem_view p).mpr ⟨hp, hvisible⟩, rfl⟩
  values := by
    intro r hr
    rw [getValueDupe_eq, ((o.mem_view p).mp hr).2]
    rfl

/-- **The scans are the merged view, for every limit, exactly when no key with the prefix
that the shards do not have is in two mounts.** -/
theorem scan_eq_view_iff (sort : KeySort) (o : Overlay) (p : Bytes) :
    o.IsView p (o.view p) ∧
    ((∀ limit, scanPrefixFirst sort o p limit = some (firstOf limit (o.view p)) ∧
      scanPrefix sort o p limit = some (lastOf limit (o.view p))) ↔ o.FrozenOnce p) := by
  refine ⟨o.view_isView p, ?_⟩
  constructor
  · intro hscan
    obtain ⟨heap, hheap, hbest⟩ := o.scanPrefixCut_best p sort 0 .first
    have hrun : sort.run heap = o.view p :=
      Option.some.inj (hheap.symm.trans (hscan 0).1)
    have hperm : (o.view p).Perm (o.collected p) :=
      hrun ▸ (sort.perm heap).trans hbest.perm_of_zero
    rw [← o.collected_distinct_iff p]
    refine (hperm.pairwise_iff (fun hne => Ne.symm hne)).mp ?_
    refine (o.view_ascending p).imp ?_
    intro a b hlt heq
    exact List.lt_irrefl _ (heq ▸ hlt)
  · intro honce limit
    exact ⟨scanPrefixCut_eq sort o p honce limit .first, scanPrefixCut_eq sort o p honce limit .last⟩

end Overlay

/-! ## Mounting what was built -/

/-- The segment built from a snapshot. -/
def Segment.ofSnapshot (f : SnapshotFile) (hsorted : f.Ascending)
    (hkeys : ∀ e ∈ f.entries, e.key.length < 2 ^ 31) (timestamp : UInt64) : Segment :=
  ⟨_, _, SstBuild.represents_sstBytes f hsorted hkeys timestamp⟩

theorem Segment.ofSnapshot_hits (f : SnapshotFile) (hsorted : f.Ascending)
    (hkeys : ∀ e ∈ f.entries, e.key.length < 2 ^ 31) (timestamp : UInt64) :
    (Segment.ofSnapshot f hsorted hkeys timestamp).hits = SstBuild.hitsOf f.entries timestamp := rfl

/-- A segment with one entry. -/
theorem exists_oneEntry (key value : Bytes) (isWorm : Bool) (hkey : key.length < 2 ^ 31)
    (hvalue : value.length < 2 ^ 32) : ∃ seg : Segment, seg.hits = [⟨key, value, 0, isWorm⟩] := by
  obtain ⟨f, hf⟩ := SstBuild.exists_oneEntryFile key value isWorm (by omega) hvalue
  have hsorted : f.Ascending := by
    rw [SnapshotFile.Ascending, hf]
    exact pairwise_singleton _ _
  have hkeys : ∀ e ∈ f.entries, e.key.length < 2 ^ 31 := by
    rw [hf]
    simpa using hkey
  refine ⟨Segment.ofSnapshot f hsorted hkeys 0, ?_⟩
  rw [Segment.ofSnapshot_hits, hf]
  rfl

/-- **A key in two mounts is returned twice**, with both values. -/
theorem sharedKey_scanned_twice : ∃ o : Overlay,
    o.segs.map Segment.hits = [[⟨[1], [10], 0, false⟩], [⟨[1], [20], 0, false⟩]] ∧
      o.getValueDupe [1] = some (some [10]) ∧
      ∀ sort : KeySort, ∃ rs, Overlay.scanPrefixFirst sort o [] 0 = some rs ∧
        rs.Perm [⟨[1], [10], 0, false⟩, ⟨[1], [20], 0, false⟩] := by
  obtain ⟨a, ha⟩ := exists_oneEntry [1] [10] false (by decide) (by decide)
  obtain ⟨b, hb⟩ := exists_oneEntry [1] [20] false (by decide) (by decide)
  have hroom : [a, b].length ≤ maxSsts := show 2 ≤ 4 by decide
  refine ⟨Overlay.mount [a, b] hroom, ?_, ?_, ?_⟩
  · rw [Overlay.mount, map_cons, map_singleton, ha, hb]
  · rw [Overlay.getValueDupe_eq]
    simp [Overlay.visible, Overlay.mount, Store.entryAt, Store.get, Store.init, Shard.get,
      Shard.empty, frozenHit_cons, Segment.hit, ha, Sst.hitIn, Hit.content]
  · intro sort
    obtain ⟨heap, hscan, hbest⟩ := (Overlay.mount [a, b] hroom).scanPrefixCut_best [] sort 0 .first
    refine ⟨_, hscan, ((sort.perm heap).trans hbest.perm_of_zero).trans ?_⟩
    have hlive : (Overlay.mount [a, b] hroom).live [] = [] := by
      rw [Overlay.live, flatMap_eq_nil_iff]
      intro i _
      rfl
    rw [Overlay.collected, hlive, append_nil]
    simp [Overlay.mount, Overlay.unshadowed, Overlay.frozenMatches, ha, hb, Store.entryAt,
      Store.get, Store.init, Shard.get, Shard.empty, Hit.result]

end WormDB
