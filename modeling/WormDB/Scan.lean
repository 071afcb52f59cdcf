import WormDB.Overlay
import WormDB.BoundedHeap

/-! # Prefix scans

`scanPrefix` and `scanPrefixFirst` of `storage/store.zig`: every shard and every mounted
segment gives the range of its keys with the prefix, and with a limit the first or the
last `limit` of all of them are kept in a heap, whose root is the one to leave it next.
Copies are taken to succeed, and the store not to change during the scan.

This module has the scan; what it returns is in `ScanView`. -/
namespace WormDB
open List ByteCodec OrderedIndex

/-! ## Ranges -/

/-- `std.mem.order`. -/
def memOrder (a b : Bytes) : Ordering := if a < b then .lt else if a = b then .eq else .gt

/-- Three-way comparison of a key against the range of the keys with a prefix. -/
def prefixCompare (key p : Bytes) : Ordering :=
  let n := min key.length p.length
  let ord := memOrder (key.take n) (p.take n)
  if ord ≠ .eq then ord
  else if p.length ≤ key.length then .eq
  else .lt

/-- The comparison at an index of a sorted shard. -/
def compareAt (mem : Memory) (items : List Ptr) (p : Bytes) (i : Nat) : Ordering :=
  match items[i]? with
  | some q => prefixCompare (keyAt mem q) p
  | none => .gt

/-- Half-open index range of the keys with a prefix in a sorted shard. -/
def prefixRange (mem : Memory) (items : List Ptr) (p : Bytes) : Nat × Nat :=
  let start := bisect (fun i => compareAt mem items p i = .lt) items.length 0 items.length
  (start, bisect (fun i => compareAt mem items p i ≠ .gt) items.length start items.length)

/-! ## The heap -/

structure ScanResult where
  key : Bytes
  value : Bytes
  timestamp : UInt64
  isWorm : Bool

/-- Which end of the ascending matches a limit keeps. -/
inductive ScanCut where
  | first | last
  deriving DecidableEq

/-- `a` is closer to eviction than `b`. -/
def scanHeapWorse (cut : ScanCut) (a b : ScanResult) : Bool :=
  match cut with
  | .first => memOrder a.key b.key = .gt
  | .last => memOrder a.key b.key = .lt

def scanHeapSiftUp (items : List ScanResult) (cut : ScanCut) (start : Nat) : List ScanResult :=
  BinaryHeap.siftUp (scanHeapWorse cut) start items start

def scanHeapSiftDown (items : List ScanResult) (cut : ScanCut) (start : Nat) : List ScanResult :=
  BinaryHeap.siftDown (scanHeapWorse cut) items.length items start

/-- Offer a result: the results, and whether they took it. -/
def scanHeapOffer (limit : Nat) (cut : ScanCut) (results : List ScanResult) (r : ScanResult) :
    List ScanResult × Bool :=
  if limit > 0 ∧ results.length = limit then
    match results with
    | [] => (results, false)
    | root :: rest =>
        let better : Bool :=
          match cut with
          | .first => memOrder r.key root.key = .lt
          | .last => memOrder r.key root.key = .gt
        if !better then (results, false)
        else (scanHeapSiftDown (r :: rest) cut 0, true)
  else
    let results' := results ++ [r]
    if limit > 0 then (scanHeapSiftUp results' cut (results'.length - 1), true)
    else (results', true)

/-! ## The scan -/

/-- The part of a range that a limit can keep, in the order in which it is offered. -/
def window (limit : Nat) (cut : ScanCut) (lo hi : Nat) : List Nat :=
  if limit > 0 ∧ cut = .last then
    let start := if hi - lo > limit then hi - limit else lo
    (List.range' start (hi - start)).reverse
  else
    let stop := if limit > 0 ∧ hi - lo > limit then lo + limit else hi
    List.range' lo (stop - lo)

/-- Offer the window of one source up to the first refusal; keys that are `shadowed` are
passed over. -/
def offerWindow (limit : Nat) (cut : ScanCut) (read : Nat → Option ScanResult)
    (shadowed : Bytes → Bool) : List Nat → List ScanResult → Option (List ScanResult)
  | [], results => some results
  | idx :: rest, results => do
      let r ← read idx
      if shadowed r.key then offerWindow limit cut read shadowed rest results
      else
        match scanHeapOffer limit cut results r with
        | (results', true) => offerWindow limit cut read shadowed rest results'
        | (results', false) => some results'

def Entry.result (e : Entry) : ScanResult := ⟨e.key, e.value, e.timestamp, e.flags.isWorm⟩
def Hit.result (hit : Hit) : ScanResult := ⟨hit.key, hit.value, hit.timestamp, hit.isWorm⟩

/-- `std.sort.heap` by key, of which only this much is used: it is not stable. -/
structure KeySort where
  run : List ScanResult → List ScanResult
  perm : ∀ rs, (run rs).Perm rs
  sorted : ∀ rs, (run rs).Pairwise (fun a b => ¬ b.key < a.key)

namespace Overlay

def scanShard (o : Overlay) (limit : Nat) (cut : ScanCut) (p : Bytes) (results : List ScanResult)
    (i : Fin shardCount) : Option (List ScanResult) :=
  let items := (o.store.shards i).sorted
  let (lo, hi) := prefixRange o.store.mem items p
  if lo = hi then some results
  else
    offerWindow limit cut (fun idx => (items[idx]?.bind o.store.mem).map Entry.result)
      (fun _ => false) (window limit cut lo hi) results

def livePrefixNonEmpty (o : Overlay) (p : Bytes) : Bool :=
  (finRange shardCount).any (fun i =>
    let (lo, hi) := prefixRange o.store.mem (o.store.shards i).sorted p
    decide (lo < hi))

def scanSst (o : Overlay) (limit : Nat) (cut : ScanCut) (p : Bytes) (liveMayShadow : Bool)
    (results : List ScanResult) (sst : Sst) : Option (List ScanResult) := do
  let (lo, hi) ← sst.prefixRange p
  if lo = hi then return results
  else
    offerWindow limit cut (fun idx => (sst.hitAt idx).map Hit.result)
      (fun key => liveMayShadow && o.containsLive key) (window limit cut lo hi) results

def scanPrefixCut (sort : KeySort) (o : Overlay) (p : Bytes) (limit : Nat) (cut : ScanCut) :
    Option (List ScanResult) := do
  let results ← (finRange shardCount).foldlM (o.scanShard limit cut p) []
  let liveMayShadow := decide (o.ssts.length > 0) && o.livePrefixNonEmpty p
  let results ← o.ssts.foldlM (o.scanSst limit cut p liveMayShadow) results
  return sort.run results

def scanPrefix (sort : KeySort) (o : Overlay) (p : Bytes) (limit : Nat) :
    Option (List ScanResult) := scanPrefixCut sort o p limit .last

def scanPrefixFirst (sort : KeySort) (o : Overlay) (p : Bytes) (limit : Nat) :
    Option (List ScanResult) := scanPrefixCut sort o p limit .first

end Overlay

/-! ## Ranges hold the keys with the prefix -/

variable {a b : Bytes}

theorem memOrder_eq_lt : memOrder a b = .lt ↔ a < b := by
  unfold memOrder
  by_cases hlt : a < b
  · simp [hlt]
  · rw [if_neg hlt]
    split <;> simpa

theorem memOrder_eq_gt : memOrder a b = .gt ↔ b < a := by
  unfold memOrder
  by_cases hlt : a < b
  · have hnot := List.lt_asymm hlt
    simp [hlt, hnot]
  · rw [if_neg hlt]
    by_cases heq : a = b
    · rw [if_pos heq, heq]
      simp
    · rw [if_neg heq]
      simpa using PrefixMap.bytes_lt_or_eq hlt heq

theorem memOrder_eq_eq : memOrder a b = .eq ↔ a = b := by
  unfold memOrder
  by_cases hlt : a < b
  · rw [if_pos hlt]
    simp only [reduceCtorEq, false_iff]
    rintro rfl
    exact List.lt_irrefl a hlt
  · rw [if_neg hlt]
    split <;> simpa

/-- Cutting both sides to the shorter length does not change which is smaller, unless
the cut sides are equal. -/
theorem lt_iff_take_lt {n : Nat} (ha : n ≤ a.length) (hb : n ≤ b.length)
    (hne : a.take n ≠ b.take n) : a < b ↔ a.take n < b.take n := by
  induction n generalizing a b with
  | zero => simp at hne
  | succ n ih =>
    cases a with
    | nil => simp at ha
    | cons x a =>
      cases b with
      | nil => simp at hb
      | cons y b =>
        rw [take_succ_cons, take_succ_cons, cons_lt_cons_iff, cons_lt_cons_iff]
        rw [length_cons] at ha hb
        by_cases hxy : x = y
        · subst hxy
          have htail : a.take n ≠ b.take n := by
            intro heq
            exact hne (by rw [take_succ_cons, take_succ_cons, heq])
          rw [ih (by omega) (by omega) htail]
        · simp [hxy]

/-- The comparison against the range: below every key with the prefix, or with it. -/
theorem prefixCompare_spec (key p : Bytes) :
    (prefixCompare key p = .lt ↔ key < p) ∧ (prefixCompare key p = .eq ↔ p <+: key) := by
  have hmatch : p <+: key ↔ p.length ≤ key.length ∧
      key.take (min key.length p.length) = p.take (min key.length p.length) := by
    constructor
    · intro hp
      have hle := hp.length_le
      rw [Nat.min_eq_right hle, take_length]
      exact ⟨hle, (prefix_iff_eq_take.mp hp).symm⟩
    · rintro ⟨hle, htake⟩
      rw [Nat.min_eq_right hle, take_length] at htake
      exact prefix_iff_eq_take.mpr htake.symm
  rw [prefixCompare]
  by_cases heq : key.take (min key.length p.length) = p.take (min key.length p.length)
  · rw [if_neg (by rw [memOrder_eq_eq.mpr heq]; simp)]
    by_cases hle : p.length ≤ key.length
    · rw [if_pos hle]
      have hp : p <+: key := hmatch.mpr ⟨hle, heq⟩
      simpa [hp] using PrefixOrder.prefix_not_lt hp
    · rw [if_neg hle]
      -- the key is a strict prefix of `p`
      have hkey : key <+: p := by
        rw [Nat.min_eq_left (by omega), take_length] at heq
        exact prefix_iff_eq_take.mpr heq
      have hlt : key < p := by
        refine PrefixMap.bytes_lt_or_eq (PrefixOrder.prefix_not_lt hkey) ?_
        rintro rfl
        omega
      have hnot : ¬ p <+: key := fun hp => hle hp.length_le
      simp [hlt, hnot]
  · rw [if_pos (by rwa [ne_eq, memOrder_eq_eq]), memOrder_eq_lt, memOrder_eq_eq,
      lt_iff_take_lt (min_le_left ..) (min_le_right ..) heq]
    refine ⟨Iff.rfl, ?_⟩
    simp [heq, hmatch]

variable {mem : Memory} {items : List Ptr}

theorem compareAt_getElem {p : Bytes} {i : Nat}
    (h : i < items.length) : compareAt mem items p i = prefixCompare (keyAt mem items[i]) p := by
  rw [compareAt, getElem?_eq_getElem h]

/-- **A shard's range** is the indices of its keys with the prefix. -/
theorem prefixRange_spec (h : Ascending (keyAt mem) items) (p : Bytes) :
    (prefixRange mem items p).1 ≤ (prefixRange mem items p).2 ∧
      (prefixRange mem items p).2 ≤ items.length ∧
      ∀ i (hi : i < items.length), p <+: keyAt mem items[i] ↔
        (prefixRange mem items p).1 ≤ i ∧ i < (prefixRange mem items p).2 := by
  have hstart : (prefixRange mem items p).1 = lowerBound (keyAt mem) items p := by
    refine bisect_congr _ _ _ (fun i _ hi => ?_)
    rw [below_getElem hi, compareAt_getElem hi]
    simp [(prefixCompare_spec (keyAt mem items[i]) p).1]
  have hend : (prefixRange mem items p).2 =
      PrefixOrder.prefixEnd (keyAt mem) items p (prefixRange mem items p).1 := by
    refine bisect_congr _ _ _ (fun i hlo hi => ?_)
    change (prefixRange mem items p).1 ≤ i at hlo
    have hge : ¬ keyAt mem items[i] < p := by
      obtain ⟨-, -, hright⟩ := lowerBound_split h p
      rw [← hstart] at hright
      exact hright _ (mem_drop_iff_getElem.mpr
        ⟨i - (prefixRange mem items p).1, by omega, by simp [hlo]⟩)
    obtain ⟨hlt, heq⟩ := prefixCompare_spec (keyAt mem items[i]) p
    rw [PrefixOrder.hasPrefix, decide_eq_false (Nat.not_lt.mpr hlo), Bool.false_or,
      getElem?_eq_getElem hi, compareAt_getElem hi]
    cases hcmp : prefixCompare (keyAt mem items[i]) p with
    | lt => exact absurd (hlt.mp hcmp) hge
    | eq => simp [heq.mp hcmp]
    | gt =>
      have hnot : ¬ p <+: keyAt mem items[i] := by
        rw [← heq, hcmp]
        simp
      simpa [← Bool.not_eq_true] using hnot
  rw [hend, hstart]
  exact PrefixOrder.prefixRange_spec h p

/-! ## The heap is a bounded heap -/

theorem scanHeapWorse_first {a b : ScanResult} :
    scanHeapWorse .first a b = true ↔ b.key < a.key := by
  rw [scanHeapWorse, decide_eq_true_eq, memOrder_eq_gt]

theorem scanHeapWorse_last {a b : ScanResult} :
    scanHeapWorse .last a b = true ↔ a.key < b.key := by
  rw [scanHeapWorse, decide_eq_true_eq, memOrder_eq_lt]

theorem scanHeapWorse_weakOrder (cut : ScanCut) :
    BinaryHeap.WeakOrder (scanHeapWorse cut) where
  asymm := by
    intro a b h
    rw [Bool.eq_false_iff]
    cases cut with
    | first =>
      rw [scanHeapWorse_first] at h
      rw [ne_eq, scanHeapWorse_first]
      exact List.lt_asymm h
    | last =>
      rw [scanHeapWorse_last] at h
      rw [ne_eq, scanHeapWorse_last]
      exact List.lt_asymm h
  trans := by
    intro a b c hab hbc
    rw [Bool.eq_false_iff] at hab hbc ⊢
    cases cut with
    | first =>
      rw [ne_eq, scanHeapWorse_first] at hab hbc ⊢
      exact List.not_lt.mpr (List.le_trans (List.not_lt.mp hab) (List.not_lt.mp hbc))
    | last =>
      rw [ne_eq, scanHeapWorse_last] at hab hbc ⊢
      exact List.not_lt.mpr (List.le_trans (List.not_lt.mp hbc) (List.not_lt.mp hab))

theorem scanHeapOffer_eq (limit : Nat) (cut : ScanCut) (results : List ScanResult)
    (r : ScanResult) : scanHeapOffer limit cut results r =
      BoundedHeap.offer (scanHeapWorse cut) limit results r := by
  rw [scanHeapOffer.eq_def, BoundedHeap.offer.eq_def]
  by_cases hfull : 0 < limit ∧ results.length = limit
  · rw [if_pos hfull, if_pos hfull]
    rcases results with _ | ⟨root, rest⟩
    · rfl
    · have hbetter : (match cut with
          | .first => decide (memOrder r.key root.key = .lt)
          | .last => decide (memOrder r.key root.key = .gt)) = scanHeapWorse cut root r := by
        cases cut with
        | first | last => simp only [scanHeapWorse, memOrder_eq_lt, memOrder_eq_gt]
      have hlen : (r :: rest).length = limit := hfull.2
      simp only [hbetter, scanHeapSiftDown, hlen]
      cases scanHeapWorse cut root r with
      | true | false => rfl
  · rw [if_neg hfull, if_neg hfull]
    simp only [scanHeapSiftUp, length_append, length_singleton, Nat.add_sub_cancel]

/-- The loop over indices that can be read is the loop over what they hold. -/
theorem offerWindow_eq {limit : Nat} {cut : ScanCut} {read : Nat → Option ScanResult}
    {at' : Nat → ScanResult} (shadowed : Bytes → Bool) {idxs : List Nat}
    (hread : ∀ idx ∈ idxs, read idx = some (at' idx)) (results : List ScanResult) :
    offerWindow limit cut read shadowed idxs results =
      some (BoundedHeap.collect (scanHeapWorse cut) limit (fun r => shadowed r.key) results
        (idxs.map at')) := by
  induction idxs generalizing results with
  | nil => rfl
  | cons idx idxs ih =>
    obtain ⟨hidx, hidxs⟩ := forall_mem_cons.mp hread
    rw [offerWindow, hidx, Option.bind_eq_bind, Option.bind_some, map_cons,
      BoundedHeap.collect, scanHeapOffer_eq]
    by_cases hshadowed : shadowed (at' idx).key = true
    · rw [if_pos hshadowed, if_pos hshadowed]
      exact ih hidxs results
    · rw [if_neg hshadowed, if_neg hshadowed]
      rcases BoundedHeap.offer (scanHeapWorse cut) limit results (at' idx) with ⟨results', taken⟩
      cases taken with
      | true => exact ih hidxs results'
      | false => rfl

end WormDB
