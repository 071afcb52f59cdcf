import WormDB.ScanView

/-! # Scans with a callback

`scanPrefixCallback` of `storage/store.zig`: the ranges of the shards, and then those of the
mounted segments without what is live, go to a callback one after the other until it stops
the scan.  The callback sees what a scan without a limit gathers, in the same order
(`scanPrefixCallback_eq`). -/
namespace WormDB
open List ByteCodec OrderedIndex

inductive ScanAction where
  | cont | stop

variable {σ τ : Type}

/-- A callback with a state, over results up to the one that stops it. -/
def visit (callback : σ → ScanResult → σ × ScanAction) : List ScanResult → σ → σ × ScanAction
  | [], s => (s, .cont)
  | r :: rs, s =>
      match callback s r with
      | (s, .stop) => (s, .stop)
      | (s, .cont) => visit callback rs s

/-- The indices of one source. -/
def callRange (callback : σ → ScanResult → σ × ScanAction) (read : Nat → Option ScanResult)
    (shadowed : Bytes → Bool) : List Nat → σ → Option (σ × ScanAction)
  | [], s => some (s, .cont)
  | idx :: rest, s => do
      let r ← read idx
      if shadowed r.key then callRange callback read shadowed rest s
      else
        match callback s r with
        | (s, .stop) => some (s, .stop)
        | (s, .cont) => callRange callback read shadowed rest s

/-- One source after the other. -/
def callSources (call : τ → σ → Option (σ × ScanAction)) : List τ → σ → Option (σ × ScanAction)
  | [], s => some (s, .cont)
  | source :: sources, s => do
      match ← call source s with
      | (s, .stop) => some (s, .stop)
      | (s, .cont) => callSources call sources s

namespace Overlay

def callShard (o : Overlay) (callback : σ → ScanResult → σ × ScanAction) (p : Bytes)
    (i : Fin shardCount) (s : σ) : Option (σ × ScanAction) :=
  let items := (o.store.shards i).sorted
  let (lo, hi) := prefixRange o.store.mem items p
  callRange callback (fun idx => (items[idx]?.bind o.store.mem).map Entry.result) (fun _ => false)
    (List.range' lo (hi - lo)) s

def callSst (o : Overlay) (callback : σ → ScanResult → σ × ScanAction) (p : Bytes)
    (liveMayShadow : Bool) (sst : Sst) (s : σ) : Option (σ × ScanAction) := do
  let (lo, hi) ← sst.prefixRange p
  callRange callback (fun idx => (sst.hitAt idx).map Hit.result)
    (fun key => liveMayShadow && o.containsLive key) (List.range' lo (hi - lo)) s

/-- The state that the callback is left with. -/
def scanPrefixCallback (o : Overlay) (callback : σ → ScanResult → σ × ScanAction) (p : Bytes)
    (s : σ) : Option σ := do
  match ← callSources (o.callShard callback p) (finRange shardCount) s with
  | (s, .stop) => some s
  | (s, .cont) =>
      let liveMayShadow := decide (o.ssts.length > 0) && o.livePrefixNonEmpty p
      (callSources (o.callSst callback p liveMayShadow) o.ssts s).map Prod.fst

end Overlay

/-! ## What the callback sees -/

section
variable {callback : σ → ScanResult → σ × ScanAction}

theorem visit_append (xs ys : List ScanResult) (s : σ) :
    visit callback (xs ++ ys) s =
      match visit callback xs s with
      | (s, .stop) => (s, .stop)
      | (s, .cont) => visit callback ys s := by
  induction xs generalizing s with
  | nil => rfl
  | cons x xs ih =>
    rw [cons_append, visit, visit]
    rcases callback s x with ⟨s', cont | stop⟩
    · exact ih s'
    · rfl

variable {read : Nat → Option ScanResult}

theorem callRange_eq {shadowed : Bytes → Bool}
    {result : Nat → ScanResult} (idxs : List Nat) (hread : ∀ i ∈ idxs, read i = some (result i))
    (s : σ) : callRange callback read shadowed idxs s =
      some (visit callback ((idxs.map result).filter fun r => !shadowed r.key) s) := by
  induction idxs generalizing s with
  | nil => rfl
  | cons i idxs ih =>
    obtain ⟨hi, hidxs⟩ := forall_mem_cons.mp hread
    rw [callRange, hi, Option.bind_eq_bind, Option.bind_some, map_cons, filter_cons]
    cases hshadow : shadowed (result i).key with
    | true => simpa [hshadow] using ih hidxs s
    | false =>
      simp only [Bool.false_eq_true, if_false, Bool.not_false, if_true, visit]
      rcases callback s (result i) with ⟨s', cont | stop⟩
      · exact ih hidxs s'
      · rfl

/-- **The loop over one source** shows its elements with the prefix. -/
theorem callRange_source {α : Type} {xs : List α} {P : α → Bool} {result : α → ScanResult}
    {lo hi : Nat} (hle : lo ≤ hi) (hhi : hi ≤ xs.length)
    (hrange : ∀ i (hi' : i < xs.length), P xs[i] = true ↔ lo ≤ i ∧ i < hi)
    (hread : ∀ i (hi' : i < xs.length), read i = some (result xs[i]))
    (shadowed : Bytes → Bool) (s : σ) :
    callRange callback read shadowed (List.range' lo (hi - lo)) s =
      some (visit callback (((xs.filter P).map result).filter fun r => !shadowed r.key) s) := by
  have hindex : ∀ i ∈ List.range' lo (hi - lo), read i = some ((read i).getD ⟨[], [], 0, false⟩) := by
    intro i hi'
    rw [mem_range'_1] at hi'
    rw [hread i (by omega)]
    rfl
  have hmap : (List.range' lo (hi - lo)).map (fun i => (read i).getD ⟨[], [], 0, false⟩) =
      (xs.filter P).map result := by
    rw [filter_eq_range hle hhi hrange]
    refine ext_getElem ?_ (fun i h₁ h₂ => ?_)
    · rw [length_map, length_range', length_map, length_take, length_drop]
      omega
    · rw [length_map, length_range'] at h₁
      simp only [getElem_map, getElem_range', getElem_take, getElem_drop]
      rw [one_mul, hread (lo + i) (by omega)]
      rfl
  rw [callRange_eq _ hindex, hmap]

theorem callSources_eq {call : τ → σ → Option (σ × ScanAction)} {give : τ → List ScanResult}
    (sources : List τ) (h : ∀ source ∈ sources, ∀ s, call source s = some (visit callback (give source) s))
    (s : σ) : callSources call sources s = some (visit callback (sources.flatMap give) s) := by
  induction sources generalizing s with
  | nil => rfl
  | cons source sources ih =>
    obtain ⟨hsource, hsources⟩ := forall_mem_cons.mp h
    rw [callSources, hsource, Option.bind_eq_bind, Option.bind_some, flatMap_cons, visit_append]
    rcases visit callback (give source) s with ⟨s', cont | stop⟩
    · exact ih hsources s'
    · rfl

theorem callSources_map {ρ : Type} (f : ρ → τ) (call : τ → σ → Option (σ × ScanAction))
    (sources : List ρ) (s : σ) :
    callSources call (sources.map f) s = callSources (fun source => call (f source)) sources s := by
  induction sources generalizing s with
  | nil => rfl
  | cons source sources ih =>
    rw [map_cons, callSources, callSources]
    rcases call (f source) s with _ | ⟨s', cont | stop⟩
    · rfl
    · exact ih s'
    · rfl

/-- A callback that never stops the scan. -/
theorem visit_cont {f : σ → ScanResult → σ} (hcall : ∀ s r, callback s r = (f s r, .cont))
    (rs : List ScanResult) (s : σ) : visit callback rs s = (rs.foldl f s, .cont) := by
  induction rs generalizing s with
  | nil => rfl
  | cons r rs ih =>
    rw [visit, hcall]
    exact ih (f s r)

namespace Overlay

theorem callShard_eq (o : Overlay) (p : Bytes) (i : Fin shardCount) (s : σ) :
    o.callShard callback p i s = some (visit callback (o.liveMatches p i) s) := by
  obtain ⟨hle, hhi, hrange⟩ := o.shardEntries_range p i
  have hself : (o.liveMatches p i).filter (fun r => !(fun _ => false) r.key) = o.liveMatches p i :=
    filter_eq_self.mpr (by simp)
  rw [← hself]
  refine callRange_source hle hhi hrange ?_ (fun _ => false) s
  intro idx h
  rw [← o.shardEntries_getElem? i, getElem?_eq_getElem h]
  rfl

theorem callSst_eq (o : Overlay) (p : Bytes) (liveMayShadow : Bool) (seg : Segment) (s : σ) :
    o.callSst callback p liveMayShadow seg.sst s =
      some (visit callback ((frozenMatches p seg).filter
        fun r => !(liveMayShadow && o.containsLive r.key)) s) := by
  obtain ⟨lo, hi, hmatch, hle, hhi, hrange⟩ := seg.represents.prefixRange_eq p
  rw [callSst, hmatch]
  refine callRange_source hle hhi ?_ ?_ (fun key => liveMayShadow && o.containsLive key) s
  · intro i h
    rw [ isPrefixOf_iff_prefix]
    exact hrange i h
  · intro i h
    rw [seg.represents.hitAt i h]
    rfl

/-- **What a scan with a callback comes to.** -/
theorem scanPrefixCallback_eq (o : Overlay) (p : Bytes) (s : σ) :
    o.scanPrefixCallback callback p s = some (visit callback (o.gathered p) s).1 := by
  have hshards : callSources (o.callShard callback p) (finRange shardCount) s =
      some (visit callback (o.live p) s) :=
    callSources_eq _ (fun i _ s => o.callShard_eq p i s) s
  have hssts : ∀ s, callSources (o.callSst callback p
      (decide (o.ssts.length > 0) && o.livePrefixNonEmpty p)) o.ssts s =
      some (visit callback (o.segs.flatMap (o.unshadowed p)) s) := by
    intro s
    rw [ssts, callSources_map]
    refine callSources_eq _ (fun seg hseg s => ?_) s
    have hmounted : decide ((o.segs.map Segment.sst).length > 0) = true := by
      rw [decide_eq_true_eq, length_map]
      exact length_pos_of_mem hseg
    rw [hmounted, Bool.true_and, callSst_eq, filter_shadowed]
  rw [scanPrefixCallback, hshards, Option.bind_eq_bind, Option.bind_some, gathered, visit_append]
  rcases visit callback (o.live p) s with ⟨s', cont | stop⟩
  · simp only [hssts, Option.map_some]
  · rfl

end Overlay

end

end WormDB
