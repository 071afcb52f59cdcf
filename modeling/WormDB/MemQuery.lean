import WormDB.HnswSearch
import WormDB.KBest
import WormDB.MemRange
import WormDB.PrefixRootStore

/-! # Queries of the agent memory

`mem_query` of `procedures/memory.zig`: with an index of the namespace, the nearest vectors are
asked for, ten times as many as are wanted; those whose metadata the filter accepts are scored
anew and offered to a heap.  Without one, a scan over the namespace offers all vectors.  The
heap keeps the best, which are sorted and written out.

Similarity, decay and distance are float arithmetic and are variables, over scores with a least
one, minus infinity.  The parser of filters is left out: a filter is what it accepts.
`mem_query_paths` compares the two ways. -/
namespace WormDB
open List ByteCodec Auth

namespace AgentMemory

/-! ## The heap -/

structure QueryCandidate (S : Type) where
  key : Bytes
  score : S
  timestamp : UInt64
  deriving DecidableEq

section
variable {S : Type} [LinearOrder S] [OrderBot S]

def lowerScore (a b : QueryCandidate S) : Bool := decide (a.score < b.score)

/-- `TopK.push` -/
def pushTopK (k : Nat) (heap : List (QueryCandidate S)) (item : QueryCandidate S) :
    List (QueryCandidate S) :=
  if k = 0 then heap else (BoundedHeap.offer lowerScore k heap item).1

/-- What a new candidate has to exceed. -/
def thresholdScore (k : Nat) (heap : List (QueryCandidate S)) : S :=
  if heap.length < k then ⊥
  else match heap with
    | [] => ⊥
    | root :: _ => root.score

end

/-! ## Candidates -/

abbrev MetaFilter := Option Bytes → UInt64 → Bool

structure QueryCall (S : Type) where
  ns : Bytes
  queryVec : F32Slice
  topKRaw : Nat
  metric : Metric
  filter : Option MetaFilter
  minScore : S

/-- `computeExactSim`, and `applyDecay` with the weight, the age and the clock of the call. -/
structure QueryEnv (S : Type) where
  computeExactSim : Metric → F32Slice → F32Slice → S
  applyDecay : S → UInt64 → S

/-- The index of a namespace: `len` counts its nodes, the deleted ones too. -/
structure QueryIndex (D : Type) where
  metric : Metric
  len : Nat
  search : F32Slice → Nat → List (IndexSearchResult D)

def maxTopK : Nat := 100
def hnswEfSearchFactor : Nat := 10

section
variable {S D : Type} [LinearOrder S] [OrderBot S] (env : QueryEnv S) (o : Overlay)
  (call : QueryCall S)

def QueryCall.topK : Nat := min (if call.topKRaw = 0 then 10 else call.topKRaw) maxTopK

def docIdFromVecKey (vecKey vecPrefix : Bytes) : Option Bytes :=
  if vecKey.length ≤ vecPrefix.length then none
  else if vecPrefix.isPrefixOf vecKey = false then none
  else some (vecKey.drop vecPrefix.length)

def candidateMatchesFilter (vecKey : Bytes) (timestamp : UInt64) : Bool :=
  match call.filter with
  | none => true
  | some filter =>
      match docIdFromVecKey vecKey (vecPrefix call.ns) with
      | none => false
      | some docId => filter (o.ctxGet (metaKey call.ns docId)) timestamp

def candidateScore (vec : F32Slice) (timestamp : UInt64) : S :=
  env.applyDecay (env.computeExactSim call.metric call.queryVec vec) timestamp

/-- One result of the scan with a callback, which is used without a filter. -/
def onBruteMatch (heap : List (QueryCandidate S)) (r : ScanResult) :
    List (QueryCandidate S) × ScanAction :=
  match bytesToF32 r.value with
  | none => (heap, .cont)
  | some vec =>
      if vec.len ≠ call.queryVec.len then (heap, .cont)
      else
        let score := candidateScore env call vec r.timestamp
        if score ≤ thresholdScore call.topK heap then (heap, .cont)
        else (pushTopK call.topK heap ⟨r.key, score, r.timestamp⟩, .cont)

/-- One result of the scan with a filter. -/
def onFilteredMatch (heap : List (QueryCandidate S)) (r : ScanResult) : List (QueryCandidate S) :=
  match bytesToF32 r.value with
  | none => heap
  | some vec =>
      if vec.len ≠ call.queryVec.len then heap
      else if candidateMatchesFilter o call r.key r.timestamp = false then heap
      else
        let score := candidateScore env call vec r.timestamp
        if score ≤ thresholdScore call.topK heap then heap
        else pushTopK call.topK heap ⟨r.key, score, r.timestamp⟩

def runFilteredBruteScan (sort : KeySort) (heap : List (QueryCandidate S)) :
    Option (List (QueryCandidate S)) := do
  let results ← Overlay.scanPrefix sort o (vecPrefix call.ns) 0
  return results.foldl (onFilteredMatch env o call) heap

/-- One of the nearest vectors. -/
def refineHit (heap : List (QueryCandidate S)) (r : IndexSearchResult D) :
    List (QueryCandidate S) :=
  if candidateMatchesFilter o call r.key r.timestamp = false then heap
  else
    match o.ctxGet r.key with
    | none => heap
    | some vecBytes =>
        match bytesToF32 vecBytes with
        | none => heap
        | some vec =>
            if vec.len ≠ call.queryVec.len then heap
            else pushTopK call.topK heap
              ⟨r.key, candidateScore env call vec r.timestamp, r.timestamp⟩

/-- Whether the index has found anything, and the heap after it. -/
def runHnswDispatch (idx : QueryIndex D) (heap : List (QueryCandidate S)) :
    Bool × List (QueryCandidate S) :=
  let stage1 :=
    if idx.len = 0 then [] else idx.search call.queryVec (call.topK * hnswEfSearchFactor)
  if stage1.isEmpty then (false, heap) else (true, stage1.foldl (refineHit env o call) heap)

/-! ## The call -/

/-- What is written of a result. -/
structure QueryDoc (S : Type) where
  id : Bytes
  score : S
  timestamp : UInt64
  metadata : Option Bytes

def emitResult (r : QueryCandidate S) : Option (QueryDoc S) :=
  if r.score < call.minScore then none
  else
    match docIdFromVecKey r.key (vecPrefix call.ns) with
    | none => none
    | some docId => some ⟨docId, r.score, r.timestamp, o.ctxGet (metaKey call.ns docId)⟩

/-- The first stage: the index of the namespace, if there is one with the metric. -/
def queryIndexed (index : Option (QueryIndex D)) : Bool × List (QueryCandidate S) :=
  match index with
  | none => (false, [])
  | some idx =>
      if idx.metric = call.metric ∧ 0 < idx.len then runHnswDispatch env o call idx []
      else (false, [])

/-- The heap after the index, where it is used, or else after the scan. -/
def queryHeap (sort : KeySort) (index : Option (QueryIndex D)) :
    Option (List (QueryCandidate S)) :=
  let (usedHnsw, heap) := queryIndexed env o call index
  if usedHnsw = true then some heap
  else if call.filter.isSome then runFilteredBruteScan env o call sort heap
  else o.scanPrefixCallback (onBruteMatch env call) (vecPrefix call.ns) heap

def memQuery (sort : KeySort)
    (sortScores : UnstableSort fun a b : QueryCandidate S => decide (b.score < a.score))
    (index : Option (QueryIndex D)) : Option (List (QueryDoc S)) := do
  let heap ← queryHeap env o call sort index
  return (sortScores.run heap).filterMap (emitResult o call)

end

/-! ## Offering candidates -/

section
variable {S : Type} [LinearOrder S] [OrderBot S] {k : Nat} {heap all : List (QueryCandidate S)}

omit [OrderBot S] in
theorem lowerScore_weakOrder : BinaryHeap.WeakOrder (lowerScore (S := S)) where
  asymm h := by
    rw [lowerScore, decide_eq_true_eq] at h
    exact decide_eq_false (not_lt_of_gt h)
  trans h h' := by
    rw [lowerScore, decide_eq_false_iff_not, not_lt] at h h' ⊢
    exact le_trans h' h

omit [OrderBot S] in
theorem best_push (hk : 0 < k) (h : BoundedHeap.Best lowerScore k heap all)
    (item : QueryCandidate S) : BoundedHeap.Best lowerScore k (pushTopK k heap item) (item :: all) := by
  rw [pushTopK, if_neg (ne_of_gt hk)]
  exact (h.offer lowerScore_weakOrder item).1

/-- A score that does not exceed the threshold would have been refused, unless it is the least
one and the heap has room. -/
theorem pushTopK_of_le_threshold {item : QueryCandidate S} (hk : 0 < k) (hlen : heap.length ≤ k)
    (hscore : ⊥ < item.score) (hle : item.score ≤ thresholdScore k heap) :
    pushTopK k heap item = heap := by
  rw [thresholdScore.eq_def] at hle
  split at hle
  case isTrue => exact absurd hle (not_le_of_gt hscore)
  case isFalse hfull =>
    have hfull : heap.length = k := by omega
    rw [pushTopK, if_neg (ne_of_gt hk), BoundedHeap.offer.eq_def, if_pos ⟨hk, hfull⟩]
    cases heap with
    | nil => rfl
    | cons root rest =>
      simp only at hle ⊢
      rw [if_neg]
      rw [lowerScore, decide_eq_true_eq]
      exact not_lt_of_ge hle

/-- Checking the threshold first leaves out the least score only. -/
theorem pushTopK_checked {item : QueryCandidate S} (hk : 0 < k) (hlen : heap.length ≤ k)
    (hscore : ⊥ < item.score) :
    (if item.score ≤ thresholdScore k heap then heap else pushTopK k heap item) =
      pushTopK k heap item := by
  split
  · exact (pushTopK_of_le_threshold hk hlen hscore (by assumption)).symm
  · rfl

end

/-! ## The stored vectors -/

/-- The vectors of the namespace, with the entries they are the values of. -/
def storedVectors (o : Overlay) (ns : Bytes) : List (ScanResult × F32Slice) :=
  (o.view (vecPrefix ns)).filterMap fun r => (bytesToF32 r.value).map fun vec => (r, vec)

section
variable {S D : Type} [LinearOrder S] [OrderBot S]

/-- What an entry is worth to the call, where its metadata satisfies the filter. -/
def matchOf (env : QueryEnv S) (o : Overlay) (call : QueryCall S) (s : ScanResult × F32Slice) :
    Option (QueryCandidate S) :=
  if s.2.len = call.queryVec.len ∧ candidateMatchesFilter o call s.1.key s.1.timestamp = true then
    some ⟨s.1.key, candidateScore env call s.2 s.1.timestamp, s.1.timestamp⟩
  else none

variable {env : QueryEnv S} {o : Overlay} {call : QueryCall S}

omit [LinearOrder S] [OrderBot S] in
theorem QueryCall.topK_pos (call : QueryCall S) : 0 < call.topK := by
  rw [QueryCall.topK, maxTopK]
  split <;> omega

/-- The candidates that the scan offers: those above the least score. -/
def aboveLeast (items : List (QueryCandidate S)) : List (QueryCandidate S) :=
  items.filter fun c => decide (⊥ < c.score)

theorem onFilteredMatch_eq {heap : List (QueryCandidate S)} (hlen : heap.length ≤ call.topK)
    (r : ScanResult) : onFilteredMatch env o call heap r =
      (((bytesToF32 r.value).bind fun vec => matchOf env o call (r, vec)).toList.filter
        fun c => decide (⊥ < c.score)).foldl (pushTopK call.topK) heap := by
  rw [onFilteredMatch.eq_def]
  cases bytesToF32 r.value with
  | none => rfl
  | some vec =>
    rw [Option.bind_some, matchOf]
    simp only
    by_cases hvec : vec.len ≠ call.queryVec.len
    · rw [if_pos hvec, if_neg (fun h => hvec h.1)]
      rfl
    rw [if_neg hvec]
    by_cases haccept : candidateMatchesFilter o call r.key r.timestamp = true
    · have hmatch : vec.len = call.queryVec.len ∧ true = true := ⟨not_not.mp hvec, rfl⟩
      rw [haccept, if_neg (by decide), if_pos hmatch, Option.toList_some]
      by_cases hscore : ⊥ < candidateScore env call vec r.timestamp
      · rw [filter_cons_of_pos (by simpa using hscore), filter_nil, foldl_cons,
          foldl_nil]
        exact @pushTopK_checked _ _ _ _ _ ⟨r.key, candidateScore env call vec r.timestamp,
          r.timestamp⟩ call.topK_pos hlen hscore
      · rw [filter_cons_of_neg (by simpa using hscore), filter_nil, foldl_nil]
        have hleast := not_bot_lt_iff.mp hscore
        rw [if_pos (by rw [hleast]; exact bot_le)]
    · rw [Bool.eq_false_iff.mpr haccept, if_pos rfl, if_neg (fun h => by cases h.2)]
      rfl

/-- **The scan with a filter** leaves the best of all matches above the least score. -/
theorem filteredScan_best (rs : List ScanResult) {heap all : List (QueryCandidate S)}
    (h : BoundedHeap.Best lowerScore call.topK heap all) :
    BoundedHeap.Best lowerScore call.topK (rs.foldl (onFilteredMatch env o call) heap)
      (aboveLeast (rs.filterMap fun r =>
        (bytesToF32 r.value).bind fun vec => matchOf env o call (r, vec)) ++ all) := by
  induction rs generalizing heap all with
  | nil => exact h
  | cons r rs ih =>
    rw [foldl_cons, onFilteredMatch_eq (h.length call.topK_pos), filterMap_cons]
    cases (bytesToF32 r.value).bind fun vec => matchOf env o call (r, vec) with
    | none => exact ih h
    | some c =>
      simp only [aboveLeast, Option.toList_some]
      by_cases hscore : ⊥ < c.score
      · rw [filter_cons_of_pos (by simpa using hscore),
          filter_cons_of_pos (by simpa using hscore), filter_nil, foldl_cons,
          foldl_nil]
        exact (ih (best_push call.topK_pos h c)).perm perm_middle
      · rw [filter_cons_of_neg (by simpa using hscore),
          filter_cons_of_neg (by simpa using hscore), filter_nil, foldl_nil]
        exact ih h

omit [LinearOrder S] [OrderBot S] in
theorem matches_of_stored (ns : Bytes) : (storedVectors o ns).filterMap (matchOf env o call) =
    (o.view (vecPrefix ns)).filterMap fun r =>
      (bytesToF32 r.value).bind fun vec => matchOf env o call (r, vec) := by
  rw [storedVectors, filterMap_filterMap]
  congr 1
  funext r
  cases bytesToF32 r.value with
  | none => rfl
  | some vec => rfl

variable {ns : Bytes} {s : ScanResult × F32Slice}

theorem ctxGet_of_stored (hs : s ∈ storedVectors o ns) :
    o.ctxGet s.1.key = some s.1.value ∧ bytesToF32 s.1.value = some s.2 := by
  obtain ⟨r, hr, hvec⟩ := mem_filterMap.mp hs
  obtain ⟨vec, hread, rfl⟩ := Option.map_eq_some_iff.mp hvec
  refine ⟨?_, hread⟩
  rw [o.ctxGet_eq, ((o.mem_view (vecPrefix ns)).mp hr).2]
  rfl

omit [OrderBot S] in
/-- A hit of the index on a stored vector is what the vector is worth. -/
theorem refineHit_eq (hs : s ∈ storedVectors o ns) (dist : D) (heap : List (QueryCandidate S)) :
    refineHit env o call heap ⟨s.1.key, dist, s.1.timestamp⟩ =
      (matchOf env o call s).toList.foldl (pushTopK call.topK) heap := by
  obtain ⟨hget, hvec⟩ := ctxGet_of_stored hs
  rw [refineHit.eq_def, matchOf]
  simp only [hget, hvec]
  cases haccept : candidateMatchesFilter o call s.1.key s.1.timestamp with
  | false =>
    rw [if_pos rfl, if_neg (fun h => by cases h.2)]
    rfl
  | true =>
    rw [if_neg (by decide)]
    by_cases hlen : s.2.len = call.queryVec.len
    · rw [if_neg (not_not.mpr hlen), if_pos ⟨hlen, rfl⟩]
      rfl
    · rw [if_pos hlen, if_neg (fun h => hlen h.1)]
      rfl

omit [OrderBot S] in
/-- **The hits of the index** leave the best of their matches. -/
theorem refine_best {ns : Bytes} (dist : ScanResult × F32Slice → D)
    (hits : List (ScanResult × F32Slice)) (hsub : ∀ s ∈ hits, s ∈ storedVectors o ns)
    {heap all : List (QueryCandidate S)} (h : BoundedHeap.Best lowerScore call.topK heap all) :
    BoundedHeap.Best lowerScore call.topK
      ((hits.map fun s => (⟨s.1.key, dist s, s.1.timestamp⟩ : IndexSearchResult D)).foldl
        (refineHit env o call) heap)
      (hits.filterMap (matchOf env o call) ++ all) := by
  induction hits generalizing heap all with
  | nil => exact h
  | cons s hits ih =>
    obtain ⟨hs, hrest⟩ := forall_mem_cons.mp hsub
    rw [map_cons, foldl_cons, refineHit_eq hs, filterMap_cons]
    cases matchOf env o call s with
    | none => exact ih hrest h
    | some c => exact (ih hrest (best_push call.topK_pos h c)).perm perm_middle

end

/-! ## The two ways -/

/-- What a search returns of a stored vector. -/
def indexHit {D : Type} (dist : F32Slice → F32Slice → D) (query : F32Slice)
    (s : ScanResult × F32Slice) : IndexSearchResult D :=
  ⟨s.1.key, dist query s.2, s.1.timestamp⟩

/-- The index has the stored vectors, and its search is exact: it returns the nearest of them,
as many as are asked for, in ascending distance. -/
structure ExactIndex {D : Type} [LinearOrder D] (o : Overlay) (ns : Bytes)
    (dist : F32Slice → F32Slice → D) (idx : QueryIndex D) : Prop where
  len : storedVectors o ns ≠ [] → 0 < idx.len
  search : ∀ query size, ∃ byDist : List (ScanResult × F32Slice),
    byDist.Perm (storedVectors o ns) ∧
    byDist.Pairwise (fun a b => dist query a.2 ≤ dist query b.2) ∧
    idx.search query size = (byDist.take size).map (indexHit dist query)

/-- Each matching vector beyond the nearest is outscored, or equalled, by as many of them as are
wanted. -/
def Covered {S : Type} [LinearOrder S] (env : QueryEnv S) (o : Overlay) (call : QueryCall S)
    (nearest others : List (ScanResult × F32Slice)) : Prop :=
  ∀ x ∈ others.filterMap (matchOf env o call),
    call.topK ≤ (nearest.filterMap (matchOf env o call)).countP fun y => decide (x.score ≤ y.score)

/-- What the scan and the index return, over the nearest vectors and the others. -/
structure QueryPaths {S D : Type} [LinearOrder S] [OrderBot S] [LinearOrder D] (env : QueryEnv S)
    (o : Overlay) (call : QueryCall S) (dist : F32Slice → F32Slice → D)
    (nearest others : List (ScanResult × F32Slice)) (scanned indexed : List (QueryCandidate S)) :
    Prop where
  stored : (nearest ++ others).Perm (storedVectors o call.ns)
  asked : nearest.length = min (call.topK * hnswEfSearchFactor) (storedVectors o call.ns).length
  nearer : ∀ a ∈ nearest, ∀ b ∈ others, dist call.queryVec a.2 ≤ dist call.queryVec b.2
  scan : KBest QueryCandidate.score call.topK
    (aboveLeast ((nearest ++ others).filterMap (matchOf env o call))) scanned
  index : KBest QueryCandidate.score call.topK (nearest.filterMap (matchOf env o call)) indexed
  agree : KBest QueryCandidate.score call.topK ((nearest ++ others).filterMap (matchOf env o call))
    indexed ↔ Covered env o call nearest others
  same : Covered env o call nearest others →
    (∀ x ∈ (nearest ++ others).filterMap (matchOf env o call), ⊥ < x.score) →
      scanned.map QueryCandidate.score = indexed.map QueryCandidate.score ∧
        ((∀ a ∈ (nearest ++ others).filterMap (matchOf env o call),
          ∀ b ∈ (nearest ++ others).filterMap (matchOf env o call), a.score = b.score → a = b) →
            scanned = indexed)

section
variable {S D : Type} [LinearOrder S] [OrderBot S] [LinearOrder D] {env : QueryEnv S} {o : Overlay}
  {call : QueryCall S} {dist : F32Slice → F32Slice → D}

variable {xs : List (QueryCandidate S)}

theorem aboveLeast_perm {ys : List (QueryCandidate S)} (h : xs.Perm ys) :
    (aboveLeast xs).Perm (aboveLeast ys) := h.filter _

theorem aboveLeast_eq_self (h : ∀ x ∈ xs, ⊥ < x.score) : aboveLeast xs = xs :=
  filter_eq_self.mpr fun x hx => decide_eq_true (h x hx)

/-- The heap of the scan, for a call with a filter. -/
theorem filteredScan_heap (sort : KeySort) (honce : o.FrozenOnce (vecPrefix call.ns)) :
    ∃ heap, runFilteredBruteScan env o call sort [] = some heap ∧
      BoundedHeap.Best lowerScore call.topK heap
        (aboveLeast ((storedVectors o call.ns).filterMap (matchOf env o call))) := by
  have hscan : Overlay.scanPrefix sort o (vecPrefix call.ns) 0 =
      some (o.view (vecPrefix call.ns)) := by
    rw [Overlay.scanPrefix, Overlay.scanPrefixCut_eq sort o _ honce]
    rfl
  refine ⟨_, by rw [runFilteredBruteScan, hscan]; rfl, ?_⟩
  have hbest := @filteredScan_best _ _ _ env o call (o.view (vecPrefix call.ns)) _ _
    BoundedHeap.Best.empty
  rw [append_nil] at hbest
  rw [matches_of_stored]
  exact hbest

omit [LinearOrder D] in
/-- The heap behind the index; it is that of the scan where nothing is stored. -/
theorem indexed_heap {idx : QueryIndex D} {byDist : List (ScanResult × F32Slice)} (sort : KeySort)
    (hsome : call.filter.isSome = true) (honce : o.FrozenOnce (vecPrefix call.ns))
    (hmetric : idx.metric = call.metric) (hlen : storedVectors o call.ns ≠ [] → 0 < idx.len)
    (hperm : byDist.Perm (storedVectors o call.ns))
    (hsearch : idx.search call.queryVec (call.topK * hnswEfSearchFactor) =
      (byDist.take (call.topK * hnswEfSearchFactor)).map (indexHit dist call.queryVec)) :
    ∃ heap, queryHeap env o call sort (some idx) = some heap ∧
      BoundedHeap.Best lowerScore call.topK heap
        ((byDist.take (call.topK * hnswEfSearchFactor)).filterMap (matchOf env o call)) := by
  by_cases hnone : storedVectors o call.ns = []
  · obtain ⟨heap, hscan, hbest⟩ := @filteredScan_heap _ _ _ env o call sort honce
    rw [hnone] at hperm hbest
    obtain rfl := perm_nil.mp hperm
    rw [take_nil] at hsearch ⊢
    have hunused : queryIndexed env o call (some idx) = (false, []) := by
      rw [queryIndexed]
      split
      · rw [runHnswDispatch, hsearch]
        simp
      · rfl
    refine ⟨heap, ?_, hbest⟩
    rw [queryHeap, hunused]
    exact (if_neg Bool.false_ne_true).trans ((if_pos hsome).trans hscan)
  · have hpos : 0 < call.topK * hnswEfSearchFactor := Nat.mul_pos call.topK_pos (by decide)
    have hrefine := @refine_best _ _ _ env o call call.ns (fun s => dist call.queryVec s.2)
      (byDist.take (call.topK * hnswEfSearchFactor))
      (fun s hs => hperm.mem_iff.mp (mem_of_mem_take hs)) _ _ BoundedHeap.Best.empty
    rw [append_nil] at hrefine
    have hne : (byDist.take (call.topK * hnswEfSearchFactor)).map (indexHit dist call.queryVec) ≠
        [] := by
      rw [Ne, map_eq_nil_iff, take_eq_nil_iff, not_or]
      refine ⟨ne_of_gt hpos, ?_⟩
      rintro rfl
      exact hnone (perm_nil.mp hperm.symm)
    have hused : queryIndexed env o call (some idx) = (true,
        ((byDist.take (call.topK * hnswEfSearchFactor)).map (indexHit dist call.queryVec)).foldl
          (refineHit env o call) []) := by
      rw [queryIndexed, if_pos ⟨hmetric, hlen hnone⟩, runHnswDispatch,
        if_neg (ne_of_gt (hlen hnone)), hsearch,
        if_neg (by rw [List.isEmpty_iff]; exact hne)]
    refine ⟨_, ?_, hrefine⟩
    rw [queryHeap, hused]
    rfl

/-- **The two ways to answer a query with a filter.**  The scan returns the best of all matching
vectors, the index the best of those among the nearest vectors that are asked for.  These are the
best of all where each matching vector beyond them is outscored, or equalled, by as many as are
wanted; there the two return the same scores, and the same documents where the scores tell them
apart. -/
theorem mem_query_paths (sort : KeySort)
    (sortScores : UnstableSort fun a b : QueryCandidate S => decide (b.score < a.score))
    {filter : MetaFilter} {idx : QueryIndex D} (hfilter : call.filter = some filter)
    (honce : o.FrozenOnce (vecPrefix call.ns)) (hmetric : idx.metric = call.metric)
    (hexact : ExactIndex o call.ns dist idx) :
    ∃ nearest others scanned indexed,
      QueryPaths env o call dist nearest others scanned indexed ∧
      memQuery env o call sort sortScores (none : Option (QueryIndex D)) =
        some (scanned.filterMap (emitResult o call)) ∧
      memQuery env o call sort sortScores (some idx) =
        some (indexed.filterMap (emitResult o call)) := by
  obtain ⟨byDist, hperm, hsorted, hsearch⟩ :=
    hexact.search call.queryVec (call.topK * hnswEfSearchFactor)
  obtain ⟨heap, hscan, hbest⟩ := @filteredScan_heap _ _ _ env o call sort honce
  have hsome : call.filter.isSome = true := by rw [hfilter]; rfl
  have hsplit := take_append_drop (call.topK * hnswEfSearchFactor) byDist
  obtain ⟨heap', hindexed, hbest'⟩ :=
    @indexed_heap _ _ _ _ env o call dist _ _ sort hsome honce hmetric hexact.len hperm hsearch
  have hall : ((storedVectors o call.ns).filterMap (matchOf env o call)).Perm
      ((byDist.take (call.topK * hnswEfSearchFactor) ++
        byDist.drop (call.topK * hnswEfSearchFactor)).filterMap (matchOf env o call)) := by
    rw [hsplit]
    exact hperm.symm.filterMap _
  have hscanned := (kBest_of_best call.topK_pos hbest sortScores).perm (aboveLeast_perm hall)
  have hindex := kBest_of_best call.topK_pos hbest' sortScores
  have hagree := @KBest.extend_iff _ _ _ _ _ _ _
    ((byDist.drop (call.topK * hnswEfSearchFactor)).filterMap (matchOf env o call)) hindex
  rw [← filterMap_append] at hagree
  refine ⟨byDist.take (call.topK * hnswEfSearchFactor), byDist.drop (call.topK * hnswEfSearchFactor),
    sortScores.run heap, sortScores.run heap', ⟨?_, ?_, ?_, hscanned, hindex, hagree, ?_⟩, ?_, ?_⟩
  · rw [hsplit]
    exact hperm
  · rw [length_take, hperm.length_eq]
  · rw [← hsplit] at hsorted
    exact fun a ha b hb => (pairwise_append.mp hsorted).2.2 a ha b hb
  · intro hcover hleast
    rw [aboveLeast_eq_self hleast] at hscanned
    exact ⟨hscanned.scores_eq (hagree.mpr hcover), hscanned.eq_of_apart (hagree.mpr hcover)⟩
  · have hheap : queryHeap env o call sort (none : Option (QueryIndex D)) = some heap := by
      rw [queryHeap, queryIndexed]
      exact (if_neg Bool.false_ne_true).trans ((if_pos hsome).trans hscan)
    rw [memQuery, hheap]
    rfl
  · rw [memQuery, hindexed]
    rfl

end

/-! ## A namespace of eleven vectors -/

/-- A store with these entries: keys, values and times; the first was written last. -/
def written (es : List (Bytes × Bytes × UInt64)) : Overlay :=
  es.foldr (fun e o => o.ctxSet ⟨fun _ => true, e.2.2⟩ e.1 e.2.1)
    (Overlay.mount [] (Nat.zero_le _))

theorem written_once (es : List (Bytes × Bytes × UInt64)) (p : Bytes) :
    (written es).FrozenOnce p := by
  have hsegs : (written es).segs = [] := by
    induction es with
    | nil => rfl
    | cons e es ih => exact (Overlay.ctxSet_segs ..).trans ih
  rw [Overlay.FrozenOnce, hsegs]
  exact Pairwise.nil

theorem written_visible (es : List (Bytes × Bytes × UInt64)) (key : Bytes) :
    (written es).visible key =
      (es.find? fun e => decide (e.1 = key)).map fun e => ⟨e.2.1, e.2.2, false⟩ := by
  induction es generalizing key with
  | nil => rfl
  | cons e es ih =>
    have hfree : (written es).store.wormBlocked e.1 = false := by
      rw [Overlay.wormBlocked_eq, ih]
      cases es.find? fun e' => decide (e'.1 = e.1) with
      | none => rfl
      | some e' => rfl
    rw [find?_cons]
    by_cases hkey : e.1 = key
    · subst hkey
      rw [decide_eq_true rfl]
      exact Overlay.ctxSet_visible (fun _ => rfl) hfree _
    · rw [decide_eq_false hkey, ← ih]
      exact Overlay.ctxSet_visible_of_ne _ _ _ (Ne.symm hkey)

/-- The entries are seen in the order of their keys. -/
theorem written_view {es : List (Bytes × Bytes × UInt64)} {p : Bytes}
    (hasc : es.Pairwise fun a b => a.1 < b.1) (hp : ∀ e ∈ es, p <+: e.1) :
    (written es).view p = es.map fun e => ⟨e.1, e.2.1, e.2.2, false⟩ := by
  have hirrefl : Std.Irrefl fun a b : ScanResult => a.key < b.key :=
    ⟨fun a => List.lt_irrefl a.key⟩
  have hmap : (es.map fun e => (⟨e.1, e.2.1, e.2.2, false⟩ : ScanResult)).Pairwise
      fun a b => a.key < b.key := pairwise_map.mpr hasc
  refine Pairwise.eq_of_mem_iff ((written es).view_ascending p) hmap (fun r => ?_)
  rw [(written es).mem_view p, written_visible, mem_map]
  constructor
  · rintro ⟨-, hvisible⟩
    obtain ⟨e, hfind, hcontent⟩ := Option.map_eq_some_iff.mp hvisible
    refine ⟨e, mem_of_find?_eq_some hfind, ?_⟩
    have hkey : e.1 = r.key := by simpa using find?_some hfind
    obtain ⟨key, value, timestamp, isWorm⟩ := r
    injection hcontent with hvalue htimestamp hworm
    rw [ScanResult.mk.injEq]
    exact ⟨hkey, hvalue, htimestamp, hworm⟩
  · rintro ⟨e, he, rfl⟩
    refine ⟨hp e he, Option.map_eq_some_iff.mpr ⟨e, ?_, rfl⟩⟩
    obtain ⟨found, hfound⟩ : ∃ found, es.find? (fun e' => decide (e'.1 = e.1)) = some found :=
      Option.isSome_iff_exists.mp (find?_isSome.mpr ⟨e, he, by simp⟩)
    have hkey : found.1 = e.1 := by simpa using find?_some hfound
    rw [hfound]
    refine congrArg some ?_
    by_contra hne
    have hboth : es.Pairwise fun a b => a.1 ≠ b.1 := by
      refine hasc.imp (fun {a b} hab heq => ?_)
      rw [heq] at hab
      exact List.lt_irrefl _ hab
    have hsymm : Std.Symm fun a b : Bytes × Bytes × UInt64 => a.1 ≠ b.1 :=
      ⟨fun _ _ h => Ne.symm h⟩
    exact hboth.forall (mem_of_find?_eq_some hfound) he hne hkey

/-- The vector of one component with this first byte. -/
def sampleVec (c : UInt8) : F32Slice := ⟨[c, 0, 0, 0], by simp, by simp⟩

/-- Eleven documents: the vector of the last one is the furthest, and it alone has the time 7. -/
def sampleEntries : List (Bytes × Bytes × UInt64) :=
  (List.range 11).map fun i =>
    (vecKey (ascii "a") [0x61 + i.toUInt8], (sampleVec i.toUInt8).bytes, if i < 10 then 5 else 7)

def sampleStored : List (ScanResult × F32Slice) :=
  (List.range 11).map fun i =>
    (⟨vecKey (ascii "a") [0x61 + i.toUInt8], (sampleVec i.toUInt8).bytes,
      if i < 10 then 5 else 7, false⟩, sampleVec i.toUInt8)

theorem sample_stored : storedVectors (written sampleEntries) (ascii "a") = sampleStored := by
  have hview : (written sampleEntries).view (vecPrefix (ascii "a")) =
      sampleEntries.map fun e => ⟨e.1, e.2.1, e.2.2, false⟩ :=
    written_view (by decide +kernel) (by decide +kernel)
  rw [storedVectors, hview]
  rfl

/-- The first byte of the vector, whatever is asked for. -/
def sampleDist (_query vec : F32Slice) : Nat := leNat vec.bytes

/-- All scores are 1; the filter wants the time 7. -/
def sampleEnv : QueryEnv Nat := ⟨fun _ _ _ => 1, fun score _ => score⟩

def sampleCall : QueryCall Nat :=
  ⟨ascii "a", sampleVec 0, 1, .cosine, some fun _ timestamp => decide (timestamp = 7), 0⟩

def sampleIndex : QueryIndex Nat :=
  ⟨.cosine, 11, fun query size => (sampleStored.take size).map (indexHit sampleDist query)⟩

theorem sampleIndex_exact :
    ExactIndex (written sampleEntries) (ascii "a") sampleDist sampleIndex where
  len _ := by decide
  search query size := by
    refine ⟨sampleStored, ?_, ?_, rfl⟩
    · rw [sample_stored]
    · show sampleStored.Pairwise fun a b => leNat a.2.bytes ≤ leNat b.2.bytes
      decide +kernel

def sampleScoreSort : UnstableSort fun a b : QueryCandidate Nat => decide (b.score < a.score) :=
  UnstableSort.merge (fun a b c hab hbc => by simp only [decide_eq_false_iff_not] at hab hbc ⊢; omega)
    (fun a b => by simp only [decide_eq_false_iff_not]; omega)

theorem mem_query_paths_sample : ∃ nearest others scanned indexed,
    QueryPaths sampleEnv (written sampleEntries) sampleCall sampleDist nearest others scanned
      indexed ∧
    memQuery sampleEnv (written sampleEntries) sampleCall PrefixRoot.mergeKeySort sampleScoreSort
      (none : Option (QueryIndex Nat)) =
        some (scanned.filterMap (emitResult (written sampleEntries) sampleCall)) ∧
    memQuery sampleEnv (written sampleEntries) sampleCall PrefixRoot.mergeKeySort sampleScoreSort
      (some sampleIndex) =
        some (indexed.filterMap (emitResult (written sampleEntries) sampleCall)) :=
  mem_query_paths PrefixRoot.mergeKeySort sampleScoreSort rfl (written_once _ _) rfl sampleIndex_exact

/-- **The index misses the one document that satisfies the filter**: ten others are nearer. -/
theorem far_match_missed : ExactIndex (written sampleEntries) (ascii "a") sampleDist sampleIndex ∧
    memQuery sampleEnv (written sampleEntries) sampleCall PrefixRoot.mergeKeySort sampleScoreSort
      (some sampleIndex) = some [] ∧
    memQuery sampleEnv (written sampleEntries) sampleCall PrefixRoot.mergeKeySort sampleScoreSort
      (none : Option (QueryIndex Nat)) = some [⟨ascii "k", 1, 7, none⟩] := by
  have hmeta : (written sampleEntries).ctxGet (metaKey (ascii "a") (ascii "k")) = none := by
    rw [Overlay.ctxGet_eq, written_visible]
    decide +kernel
  refine ⟨sampleIndex_exact, ?_, ?_⟩
  · obtain ⟨heap, hrun, hbest⟩ := @indexed_heap _ _ _ _ sampleEnv (written sampleEntries) sampleCall
      sampleDist sampleIndex sampleStored PrefixRoot.mergeKeySort rfl (written_once _ _) rfl
      (fun _ => by decide) (Perm.of_eq sample_stored.symm) rfl
    have hnone : (sampleStored.take (sampleCall.topK * hnswEfSearchFactor)).filterMap
        (matchOf sampleEnv (written sampleEntries) sampleCall) = [] := by decide +kernel
    rw [hnone] at hbest
    have hempty := (kBest_of_best sampleCall.topK_pos hbest sampleScoreSort).length
    rw [memQuery, hrun, Option.bind_eq_bind, Option.bind_some,
      length_eq_zero_iff.mp (hempty.trans (Nat.min_zero _))]
    rfl
  · obtain ⟨heap, hscan, hbest⟩ := @filteredScan_heap _ _ _ sampleEnv (written sampleEntries)
      sampleCall PrefixRoot.mergeKeySort (written_once _ _)
    have hone : aboveLeast ((storedVectors (written sampleEntries) sampleCall.ns).filterMap
        (matchOf sampleEnv (written sampleEntries) sampleCall)) =
          [⟨vecKey (ascii "a") (ascii "k"), 1, 7⟩] := by
      rw [show sampleCall.ns = ascii "a" from rfl, sample_stored]
      decide +kernel
    rw [hone] at hbest
    have hbest := kBest_of_best sampleCall.topK_pos hbest sampleScoreSort
    obtain ⟨c, hc⟩ := length_eq_one_iff.mp hbest.length
    obtain rfl := mem_singleton.mp (hbest.mem (hc ▸ mem_cons_self))
    have hheap : queryHeap sampleEnv (written sampleEntries) sampleCall PrefixRoot.mergeKeySort
        (none : Option (QueryIndex Nat)) = some heap := by
      rw [queryHeap, queryIndexed]
      exact (if_neg Bool.false_ne_true).trans ((if_pos rfl).trans hscan)
    have hemit : emitResult (written sampleEntries) sampleCall
        ⟨vecKey (ascii "a") (ascii "k"), 1, 7⟩ = some ⟨ascii "k", 1, 7, none⟩ := by
      rw [← hmeta]
      rfl
    rw [memQuery, hheap, Option.bind_eq_bind, Option.bind_some, hc, filterMap_cons, hemit]
    rfl

end AgentMemory

end WormDB
