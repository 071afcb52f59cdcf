import WormDB.AllocProgram
import WormDB.HnswLinks

/-! # Inserting into the graph when memory runs out

`Hnsw.insert` with its requests for memory, in their order.  The new node is put at the end of
the list of nodes before it is linked, and `errdefer` gives its buffers back when a later request
is refused: the node stays in the list (`freed`).  With all requests granted the graph is the one
of `HnswGraph` (`insertM_spec`).

A request that needs no memory, because there is room, is one that `memory` grants. -/
namespace WormDB

inductive InsertError where
  | dimensionMismatch | outOfMemory

namespace Hnsw
open ByteCodec

/-- `freed` has the numbers of the nodes in the list whose buffers were given back. -/
structure GraphState where
  graph : Hnsw
  freed : List Nat

abbrev GraphM := AllocM InsertError GraphState

def modifyGraph (f : Hnsw → Hnsw) : GraphM Unit := AllocM.modify fun s => { s with graph := f s.graph }

section
variable {D : Type} (env : HnswEnv D) (metric : Metric) (memory : Nat → Bool)

def alloc (count : Nat) : GraphM Unit := AllocM.requests memory .outOfMemory count

/-! ## Search -/

/-- An entry is pushed to both queues. -/
def seedEntryM (g : Hnsw) (query : Bytes) (beam : Beam D) (ep : UInt32) : GraphM (Beam D) := do
  alloc memory (if g.nodes.length ≤ ep.toNat then 0 else 2)
  pure (g.seedEntry env metric query none beam ep)

def visitNeighborM (g : Hnsw) (query : Bytes) (ef : Nat) (beam : Beam D) (nbId : UInt32) :
    GraphM (Beam D) := do
  let dist := g.distToNode env metric query nbId
  let queued := nbId ∉ beam.visited ∧
    (env.less dist (furthestDist env beam.w) ∨ beam.w.length < ef)
  alloc memory (if queued then 2 else 0)
  pure (g.visitNeighbor env metric query ef none beam nbId)

def exploreM (g : Hnsw) (query : Bytes) (ef lc : Nat) : Nat → Beam D → GraphM (List (PQItem D))
  | 0, beam => pure beam.w
  | fuel + 1, beam =>
      match PriorityQueue.pop (pqMinOrder env) beam.candidates with
      | none => pure beam.w
      | some (c, candidates) =>
          if env.less (furthestDist env beam.w) c.dist && decide (ef ≤ beam.w.length) then
            pure beam.w
          else do
            let beam ← (g.neighborsAt c.id lc).foldlM (visitNeighborM env metric memory g query ef)
              { beam with candidates := candidates }
            exploreM g query ef lc fuel beam

def searchLayerM (query : Bytes) (entryIds : List UInt32) (ef lc : Nat) :
    GraphM (List (PQItem D)) := do
  let s ← AllocM.get
  let beam ← entryIds.foldlM (seedEntryM env metric memory s.graph query) ⟨[], [], []⟩
  exploreM env metric memory s.graph query ef lc (entryIds.length + s.graph.nodes.length) beam

/-! ## Insertion -/

/-- A full list takes a queue of its nodes and the new one, a buffer for the selected ones, and
one for the sorted ones. -/
def addBackEdgeM (newId : UInt32) (lc : Nat) (nbId : UInt32) : GraphM Unit := do
  let s ← AllocM.get
  let nbrs := s.graph.neighborsAt nbId lc
  alloc memory (if nbrs.length < s.graph.params.maxNeighborsAtLevel lc then 0 else nbrs.length + 3)
  modifyGraph fun g => g.addBackEdge env metric newId lc nbId

def descendM (query : Bytes) (newLevel : Nat) : Nat → UInt32 → GraphM UInt32
  | 0, ep => pure ep
  | lc + 1, ep =>
      if newLevel < lc + 1 then do
        let w ← searchLayerM env metric memory query [ep] 1 (lc + 1)
        descendM query newLevel lc ((w.head?.map PQItem.id).getD ep)
      else pure ep

def connectLevelsM (query : Bytes) (newId : UInt32) : Nat → List UInt32 → GraphM Unit
  | 0, _ => pure ()
  | lc + 1, eps => do
      let s ← AllocM.get
      let g := s.graph
      let w ← searchLayerM env metric memory query eps g.params.efConstruction.toNat lc
      -- the entries of the next level, and the sorted candidates
      alloc memory (w.length + 1)
      let selected := g.selectNeighborsHeuristic env metric w (g.params.maxNeighborsAtLevel lc)
      modifyGraph fun g => g.modifyNeighbors newId lc (fun nbrs => nbrs ++ selected)
      selected.forM (addBackEdgeM env metric memory newId lc)
      connectLevelsM query newId lc (w.map PQItem.id)

/-- What is done with the new node when it is in the list. -/
def linkM (vector : F32Slice) (newId : UInt32) (newLevel : UInt8) : GraphM Unit := do
  let s ← AllocM.get
  match s.graph.entryPoint with
  | none => modifyGraph fun g => { g with entryPoint := some newId, topLevel := newLevel }
  | some ep => do
      let topLevel := s.graph.topLevel
      -- `visited`
      alloc memory 1
      let currentEp ← descendM env metric memory vector.bytes newLevel.toNat topLevel.toNat ep
      -- `eps` and `sel_buf`
      alloc memory 2
      connectLevelsM env metric memory vector.bytes newId (min topLevel.toNat newLevel.toNat + 1)
        [currentEp]
      modifyGraph fun g =>
        if topLevel < newLevel then { g with entryPoint := some newId, topLevel := newLevel } else g

/-- The vector, the lists and one list for each level of `allocateNode`, and the place of the
node in the list. -/
def nodeRequests (newLevel : UInt8) : Nat := newLevel.toNat + 4

def insertM (vector : F32Slice) : GraphM Nat := do
  let s ← AllocM.get
  if s.graph.dim ≠ 0 ∧ vector.len ≠ s.graph.dim then AllocM.throw .dimensionMismatch
  else do
    modifyGraph fun g => { g with dim := vector.len }
    let newLevel := s.graph.sampleLevel env
    let newId := s.graph.nodes.length
    alloc memory (nodeRequests newLevel)
    modifyGraph fun g => { g with nodes := g.nodes ++ [allocateNode vector newLevel] }
    AllocM.errdefer (fun s => { s with freed := s.freed ++ [newId] })
      (linkM env metric memory vector newId.toUInt32 newLevel)
    pure newId

end

/-! ## What runs out of memory, and what does not -/

/-- A request was refused. -/
structure RanOut (memory : Nat → Bool) (e : InsertError) : Prop where
  error : e = .outOfMemory
  refused : ∃ i, memory i = false

theorem not_granted {memory : Nat → Bool} {n count : Nat}
    (h : ¬ AllocM.Granted memory n count) : ∃ i, memory i = false := by
  by_contra hnone
  exact h fun i _ => by
    by_contra hrefused
    exact hnone ⟨n + i, Bool.eq_false_iff.mpr hrefused⟩

section
open AllocM
variable {D : Type} (env : HnswEnv D) (metric : Metric) (memory : Nat → Bool) (s₀ : GraphState)

/-- A search reads the graph. -/
abbrev Reads {α : Type} (s₀ : GraphState) (x : GraphM α) (a : α) : Prop :=
  Triple (fun s _ => s = s₀) x (fun a' s _ => a' = a ∧ s = s₀) (fun e s => RanOut memory e ∧ s = s₀)

theorem alloc_spec (count : Nat) : Reads memory s₀ (alloc memory count) () := by
  refine Triple.of_each fun s n hs => ?_
  refine Triple.requests.imp (fun _ _ h => h) (fun _ s n h => ⟨rfl, h.1.trans hs⟩) fun e s h => ?_
  exact ⟨⟨h.1, not_granted h.2.2⟩, h.2.1.trans hs⟩

theorem seedEntryM_spec (g : Hnsw) (query : Bytes) (beam : Beam D) (ep : UInt32) :
    Reads memory s₀ (seedEntryM env metric memory g query beam ep)
      (g.seedEntry env metric query none beam ep) :=
  Triple.bind_eq (alloc_spec memory s₀ _) (Triple.pure fun _ _ h => ⟨rfl, h⟩)

theorem visitNeighborM_spec (g : Hnsw) (query : Bytes) (ef : Nat) (beam : Beam D) (nbId : UInt32) :
    Reads memory s₀ (visitNeighborM env metric memory g query ef beam nbId)
      (g.visitNeighbor env metric query ef none beam nbId) :=
  Triple.bind_eq (alloc_spec memory s₀ _) (Triple.pure fun _ _ h => ⟨rfl, h⟩)

theorem exploreM_spec (g : Hnsw) (query : Bytes) (ef lc fuel : Nat) (beam : Beam D) :
    Reads memory s₀ (exploreM env metric memory g query ef lc fuel beam)
      (g.explore env metric query ef lc none fuel beam) := by
  induction fuel generalizing beam with
  | zero => exact Triple.pure fun _ _ h => ⟨rfl, h⟩
  | succ fuel ih =>
    rw [exploreM, explore]
    cases PriorityQueue.pop (pqMinOrder env) beam.candidates with
    | none => exact Triple.pure fun _ _ h => ⟨rfl, h⟩
    | some popped =>
      dsimp only
      by_cases hstop : (env.less (furthestDist env beam.w) popped.1.dist &&
          decide (ef ≤ beam.w.length)) = true
      · simp only [if_pos hstop]
        exact Triple.pure fun _ _ h => ⟨rfl, h⟩
      · simp only [if_neg hstop]
        refine Triple.bind_eq (Triple.foldlM ?_ _ _) (ih _)
        exact visitNeighborM_spec env metric memory s₀ g query ef

theorem searchLayerM_spec (query : Bytes) (entryIds : List UInt32) (ef lc : Nat) :
    Reads memory s₀ (searchLayerM env metric memory query entryIds ef lc)
      (s₀.graph.searchLayer env metric query entryIds ef lc none) := by
  refine Triple.bind_get fun s n hs => ?_
  subst hs
  refine Triple.bind_eq (a := entryIds.foldl (s.graph.seedEntry env metric query none) ⟨[], [], []⟩)
    (Q := fun s' _ => s' = s) ?_ (exploreM_spec env metric memory s s.graph query ef lc _ _)
  refine (Triple.foldlM (seedEntryM_spec env metric memory s s.graph query) entryIds ⟨[], [], []⟩).imp
    (fun _ _ h => h.1) (fun _ _ _ h => h) (fun _ _ h => h)

theorem descendM_spec (query : Bytes) (newLevel count : Nat) (ep : UInt32) :
    Reads memory s₀ (descendM env metric memory query newLevel count ep)
      (s₀.graph.descend env metric query newLevel count ep) := by
  induction count generalizing ep with
  | zero => exact Triple.pure fun _ _ h => ⟨rfl, h⟩
  | succ lc ih =>
    rw [descendM, descend]
    split
    · exact Triple.bind_eq (searchLayerM_spec env metric memory s₀ query [ep] 1 (lc + 1)) (ih _)
    · exact Triple.pure fun _ _ h => ⟨rfl, h⟩

/-- Where memory runs out, the same nodes are there. -/
structure SameNodes (s₀ s : GraphState) : Prop where
  count : s.graph.nodes.length = s₀.graph.nodes.length
  freed : s.freed = s₀.freed

/-- The links are changed. -/
abbrev Links (s₀ : GraphState) (x : GraphM Unit) (g : Hnsw) : Prop :=
  Triple (fun s _ => s = s₀) x (fun _ s _ => s = { s₀ with graph := g })
    (fun e s => RanOut memory e ∧ SameNodes s₀ s)

variable {g g' : Hnsw}

theorem Relinked.count (h : Relinked g g') : g'.nodes.length = g.nodes.length := by
  have hlength := congrArg List.length h.vectors
  rwa [List.length_map, List.length_map] at hlength

theorem modifyGraph_spec (f : Hnsw → Hnsw) : Links memory s₀ (modifyGraph f) (f s₀.graph) :=
  Triple.modify fun _ _ h => h ▸ rfl

theorem addBackEdgeM_spec (newId : UInt32) (lc : Nat) (nbId : UInt32) :
    Links memory s₀ (addBackEdgeM env metric memory newId lc nbId)
      (s₀.graph.addBackEdge env metric newId lc nbId) := by
  refine Triple.bind_get fun s n hs => ?_
  subst hs
  refine Triple.bind_eq (a := ()) (Q := fun s' _ => s' = s) ?_ (modifyGraph_spec memory s _)
  exact (alloc_spec memory s _).imp (fun _ _ h => h.1) (fun _ _ _ h => h)
    (fun _ s' h => ⟨h.1, h.2 ▸ ⟨rfl, rfl⟩⟩)

/-- Links changed in turn. -/
theorem Links.bind {x : GraphM Unit} {y : Unit → GraphM Unit}
    (hx : Links memory s₀ x g) (hy : Links memory { s₀ with graph := g } (y ()) g')
    (hcount : g.nodes.length = s₀.graph.nodes.length) : Links memory s₀ (x >>= y) g' := by
  refine Triple.bind hx fun _ => hy.imp (fun _ _ h => h) (fun _ _ _ h => h) fun e s h => ?_
  exact ⟨h.1, h.2.count.trans hcount, h.2.freed⟩

theorem addBackEdgesM_spec (newId : UInt32) (lc : Nat) (selected : List UInt32) :
    Links memory s₀ (selected.forM (addBackEdgeM env metric memory newId lc))
      (selected.foldl (addBackEdge env metric newId lc) s₀.graph) := by
  induction selected generalizing s₀ with
  | nil => exact Triple.pure fun _ _ h => h
  | cons nbId selected ih =>
    refine Links.bind memory s₀ (addBackEdgeM_spec env metric memory s₀ newId lc nbId) (ih _) ?_
    exact (relinked_addBackEdges env metric newId lc [nbId] s₀.graph).count

/-- Before the links are changed, memory may run out. -/
theorem Links.after {α : Type} {x : GraphM α} {a : α} {y : α → GraphM Unit}
    (hx : Reads memory s₀ x a) (hy : Links memory s₀ (y a) g) : Links memory s₀ (x >>= y) g := by
  refine Triple.bind_eq (Q := fun s _ => s = s₀) (hx.imp (fun _ _ h => h) (fun _ _ _ h => h) ?_) hy
  rintro e s ⟨hout, rfl⟩
  exact ⟨hout, rfl, rfl⟩

theorem connectLevelsM_spec (query : Bytes) (newId : UInt32) (count : Nat) (eps : List UInt32) :
    Links memory s₀ (connectLevelsM env metric memory query newId count eps)
      (s₀.graph.connectLevels env metric query newId count eps) := by
  induction count generalizing s₀ eps with
  | zero => exact Triple.pure fun _ _ h => h
  | succ lc ih =>
    refine Triple.bind_get fun s n hs => ?_
    subst hs
    refine Triple.imp (P := fun s' _ => s' = s) ?_ (fun _ _ h => h.1) (fun _ _ _ h => h)
      (fun _ _ h => h)
    refine Links.after memory s (searchLayerM_spec env metric memory s query eps _ lc) ?_
    refine Links.after memory s (alloc_spec memory s _) ?_
    refine Links.bind memory s (modifyGraph_spec memory s _) ?_
      (relinked_modifyNeighbors ..).count
    refine Links.bind memory _ (addBackEdgesM_spec env metric memory _ newId lc _) (ih _ _) ?_
    exact (relinked_addBackEdges env metric newId lc _ _).count

/-- The links of a new node; the result is the one of `insert`. -/
def linked (g : Hnsw) (vector : F32Slice) (newId : UInt32) (newLevel : UInt8) : Hnsw :=
  match g.entryPoint with
  | none => { g with entryPoint := some newId, topLevel := newLevel }
  | some ep =>
      let currentEp := descend env metric g vector.bytes newLevel.toNat g.topLevel.toNat ep
      let linked := connectLevels env metric vector.bytes newId
        (min g.topLevel.toNat newLevel.toNat + 1) [currentEp] g
      if g.topLevel < newLevel then { linked with entryPoint := some newId, topLevel := newLevel }
      else linked

theorem linkM_spec (vector : F32Slice) (newId : UInt32) (newLevel : UInt8) :
    Links memory s₀ (linkM env metric memory vector newId newLevel)
      (s₀.graph.linked env metric vector newId newLevel) := by
  refine Triple.bind_get fun s n hs => ?_
  subst hs
  refine Triple.imp (P := fun s' _ => s' = s) ?_ (fun _ _ h => h.1) (fun _ _ _ h => h)
    (fun _ _ h => h)
  rw [linked]
  cases s.graph.entryPoint with
  | none => exact modifyGraph_spec memory s _
  | some ep =>
    dsimp only
    refine Links.after memory s (alloc_spec memory s _) ?_
    refine Links.after memory s (descendM_spec env metric memory s _ _ _ _) ?_
    refine Links.after memory s (alloc_spec memory s _) ?_
    refine Links.bind memory s (connectLevelsM_spec env metric memory s _ _ _ _)
      (modifyGraph_spec memory _ _) ?_
    exact (relinked_connectLevels env metric ..).count

theorem insert_eq (g : Hnsw) (vector : F32Slice) :
    g.insert env metric vector =
      if g.dim ≠ 0 ∧ vector.len ≠ g.dim then .error .dimensionMismatch
      else .ok (g.nodes.length, (g.withNode vector (g.sampleLevel env)).linked env metric vector
        g.nodes.length.toUInt32 (g.sampleLevel env)) := by
  rw [insert]
  split
  · rfl
  · rw [linked, withNode]
    cases g.entryPoint <;> rfl

/-- How an insertion fails whose requests start with number `n₀`. -/
inductive InsertFails (vector : F32Slice) (n₀ : Nat) (e : InsertError) (s : GraphState) : Prop
  | mismatch (h : s₀.graph.dim ≠ 0 ∧ vector.len ≠ s₀.graph.dim) (error : e = .dimensionMismatch)
      (same : s = s₀)
  | early (fits : ¬ (s₀.graph.dim ≠ 0 ∧ vector.len ≠ s₀.graph.dim)) (out : RanOut memory e)
      (refused : ¬ Granted memory n₀ (nodeRequests (s₀.graph.sampleLevel env)))
      (same : s = { s₀ with graph := { s₀.graph with dim := vector.len } })
  | late (out : RanOut memory e)
      (granted : Granted memory n₀ (nodeRequests (s₀.graph.sampleLevel env)))
      (count : s.graph.nodes.length = s₀.graph.nodes.length + 1)
      (freed : s.freed = s₀.freed ++ [s₀.graph.nodes.length])

/-- **An insertion that memory does not stop is the one of `HnswGraph`; one that it stops when the
node is in the list leaves it there.** -/
theorem insertM_spec (vector : F32Slice) (n₀ : Nat) :
    Triple (fun s n => s = s₀ ∧ n = n₀) (insertM env metric memory vector)
      (fun id s _ => s₀.graph.insert env metric vector = .ok (id, s.graph) ∧ s.freed = s₀.freed ∧
        Granted memory n₀ (nodeRequests (s₀.graph.sampleLevel env)))
      (InsertFails env memory s₀ vector n₀) := by
  refine Triple.bind_get fun s n hs => ?_
  obtain ⟨rfl, rfl⟩ := hs
  rw [insert_eq]
  refine Triple.ite (fun hdim => ?_) fun hdim => ?_
  · exact Triple.throw fun _ _ h => .mismatch hdim rfl h.1
  rw [if_neg hdim]
  refine Triple.bind (Q := fun _ s' n' =>
    s' = { s with graph := { s.graph with dim := vector.len } } ∧ n' = n) ?_ fun _ => ?_
  · exact Triple.modify fun _ _ h => ⟨h.1 ▸ rfl, h.2⟩
  refine Triple.bind (Triple.requests.imp (fun _ _ h => h) (fun _ _ _ h => h) fun e s' h => ?_) fun _ => ?_
  · exact .early hdim ⟨h.1, not_granted h.2.2⟩ h.2.2 h.2.1
  refine Triple.bind (Q := fun _ s' _ =>
    s' = { s with graph := s.graph.withNode vector (s.graph.sampleLevel env) } ∧
      Granted memory n (nodeRequests (s.graph.sampleLevel env))) ?_ fun _ => ?_
  · exact Triple.modify fun _ _ h => ⟨h.1 ▸ rfl, h.2.2⟩
  refine Triple.of_each fun s₁ n₁ h₁ => ?_
  obtain ⟨rfl, hgranted⟩ := h₁
  refine Triple.bind (Triple.errdefer ((linkM_spec env metric memory _ vector
    s.graph.nodes.length.toUInt32 (s.graph.sampleLevel env)).imp (fun _ _ h => h.1)
    (fun _ _ _ h => h) fun e s' h => ?_)) fun _ => ?_
  · refine .late h.1 hgranted ?_ ?_
    · exact h.2.count.trans List.length_append
    · exact congrArg (fun freed => freed ++ [s.graph.nodes.length]) h.2.freed
  · refine Triple.pure fun s' _ h => ?_
    subst h
    exact ⟨rfl, rfl, hgranted⟩

end
end Hnsw
end WormDB
