import Mathlib.Data.List.Perm.Subperm
import WormDB.PriorityQueue
import WormDB.VectorIndex

/-! # The neighbour graph of `vector/hnsw.zig`

A node takes part in the levels up to its own and has a list of neighbours on each, at most
`maxNeighborsAtLevel` of them.  A new node is linked, level by level, with the nodes that a
beam search finds near it, and every one of these is linked back; a list that is full is
selected anew from its nodes and the new one.

Distances are float arithmetic and levels are drawn at random: both are variables, and what
is proved here holds for all of them.  Memory is assumed to be there. -/
namespace WormDB
open ByteCodec PriorityQueue

/-! ## The graph -/

/-- `ml` is the bits of the float. -/
structure HnswParams where
  m : UInt32
  mMax0 : UInt32
  efConstruction : UInt32
  ml : UInt32
  seed : UInt64
  deriving DecidableEq

namespace HnswParams

def default : HnswParams := ⟨16, 32, 100, 0x3eb8aa3b, 0xC0FFEE⟩

def maxNeighborsAtLevel (params : HnswParams) (lc : Nat) : Nat :=
  if lc = 0 then params.mMax0.toNat else params.m.toNat

end HnswParams

structure GraphNode where
  vector : Bytes
  level : UInt8
  neighbors : List (List UInt32)
  deriving DecidableEq

structure Hnsw where
  params : HnswParams
  dim : Nat
  nodes : List GraphNode
  entryPoint : Option UInt32
  topLevel : UInt8

structure PQItem (D : Type) where
  id : UInt32
  dist : D

/-- The float arithmetic, and the level drawn for the node of each number before it is
capped. -/
structure HnswEnv (D : Type) where
  distFn : Metric → Bytes → Bytes → D
  less : D → D → Bool
  inf : D
  drawn : Nat → UInt8

namespace Hnsw

def init (params : HnswParams) : Hnsw := ⟨params, 0, [], none, 0⟩

def neighborsAt (g : Hnsw) (id : UInt32) (lc : Nat) : List UInt32 :=
  (g.nodes[id.toNat]?.bind (fun node => node.neighbors[lc]?)).getD []

def modifyNeighbors (g : Hnsw) (id : UInt32) (lc : Nat) (f : List UInt32 → List UInt32) : Hnsw :=
  { g with nodes := g.nodes.modify id.toNat (fun node =>
    { node with neighbors := node.neighbors.modify lc f }) }

def allocateNode (vector : F32Slice) (level : UInt8) : GraphNode :=
  ⟨vector.bytes, level, List.replicate (level.toNat + 1) []⟩

section
variable {D : Type} (env : HnswEnv D) (metric : Metric)

def sampleLevel (g : Hnsw) : UInt8 := min 31 (env.drawn g.nodes.length)

def vectorOf (g : Hnsw) (id : UInt32) : Bytes := (g.nodes[id.toNat]?.map GraphNode.vector).getD []

def distToNode (g : Hnsw) (query : Bytes) (id : UInt32) : D := env.distFn metric query (g.vectorOf id)

def distBetween (g : Hnsw) (a b : UInt32) : D := env.distFn metric (g.vectorOf a) (g.vectorOf b)

def pqMinOrder (a b : PQItem D) : Bool := env.less a.dist b.dist
def pqMaxOrder (a b : PQItem D) : Bool := env.less b.dist a.dist

/-! ## Search -/

/-- The variables of a search. -/
structure Beam (D : Type) where
  candidates : List (PQItem D)
  w : List (PQItem D)
  visited : List UInt32

/-- A node beyond the end of the set is not skipped. -/
def isSkipped (skip : Option (List Bool)) (id : UInt32) : Bool :=
  match skip with
  | none => false
  | some set => set.getD id.toNat false

/-- The distance of the furthest node kept; the root of the heap has it. -/
def furthestDist (w : List (PQItem D)) : D := (w.head?.map PQItem.dist).getD env.inf

/-- A skipped entry is explored but not kept. -/
def seedEntry (g : Hnsw) (query : Bytes) (skip : Option (List Bool)) (beam : Beam D) (ep : UInt32) :
    Beam D :=
  if g.nodes.length ≤ ep.toNat then beam
  else
    let item : PQItem D := ⟨ep, g.distToNode env metric query ep⟩
    ⟨push (pqMinOrder env) beam.candidates item,
      if isSkipped skip ep then beam.w else push (pqMaxOrder env) beam.w item,
      ep :: beam.visited⟩

/-- One more node is kept, and the furthest of them given up when they are more than `ef`. -/
def keep (ef : Nat) (w : List (PQItem D)) (item : PQItem D) : List (PQItem D) :=
  let w := push (pqMaxOrder env) w item
  if ef < w.length then ((pop (pqMaxOrder env) w).map Prod.snd).getD [] else w

def visitNeighbor (g : Hnsw) (query : Bytes) (ef : Nat) (skip : Option (List Bool)) (beam : Beam D)
    (nbId : UInt32) : Beam D :=
  if nbId ∈ beam.visited then beam
  else
    let item : PQItem D := ⟨nbId, g.distToNode env metric query nbId⟩
    if env.less item.dist (furthestDist env beam.w) || decide (beam.w.length < ef) then
      ⟨push (pqMinOrder env) beam.candidates item,
        if isSkipped skip nbId then beam.w else keep env ef beam.w item,
        nbId :: beam.visited⟩
    else { beam with visited := nbId :: beam.visited }

/-- The nearest candidate is explored until it is further than all that is kept. -/
def explore (g : Hnsw) (query : Bytes) (ef lc : Nat) (skip : Option (List Bool)) :
    Nat → Beam D → List (PQItem D)
  | 0, beam => beam.w
  | fuel + 1, beam =>
      match pop (pqMinOrder env) beam.candidates with
      | none => beam.w
      | some (c, candidates) =>
          if env.less (furthestDist env beam.w) c.dist && decide (ef ≤ beam.w.length) then beam.w
          else
            explore g query ef lc skip fuel
              ((g.neighborsAt c.id lc).foldl (visitNeighbor env metric g query ef skip)
                { beam with candidates := candidates })

/-- What is kept, as the heap has it.  Every node is a candidate once, or once for each time
it is an entry. -/
def searchLayer (g : Hnsw) (query : Bytes) (entryIds : List UInt32) (ef lc : Nat)
    (skip : Option (List Bool)) : List (PQItem D) :=
  explore env metric g query ef lc skip (entryIds.length + g.nodes.length)
    (entryIds.foldl (seedEntry env metric g query skip) ⟨[], [], []⟩)

/-! ## Insertion -/

/-- Nearest first, a candidate is taken unless it is nearer to one taken before. -/
def select (g : Hnsw) (w : List (PQItem D)) (mTarget : Nat) : List UInt32 :=
  (drain (pqMaxOrder env) w.length w).reverse.foldl (fun selected cand =>
    if mTarget ≤ selected.length then selected
    else if selected.any (fun sid => env.less (g.distBetween env metric cand.id sid) cand.dist) then
      selected
    else selected ++ [cand.id]) []

def selectNeighborsHeuristic (g : Hnsw) (w : List (PQItem D)) (mTarget : Nat) : List UInt32 :=
  g.select env metric w mTarget

def selectNeighborsFrom (g : Hnsw) (w : List (PQItem D)) (mTarget : Nat) : List UInt32 :=
  g.select env metric w mTarget

def addBackEdge (newId : UInt32) (lc : Nat) (g : Hnsw) (nbId : UInt32) : Hnsw :=
  let cap := g.params.maxNeighborsAtLevel lc
  let nbrs := g.neighborsAt nbId lc
  if nbrs.length < cap then g.modifyNeighbors nbId lc (fun nbrs => nbrs ++ [newId])
  else
    let candidates := (nbrs ++ [newId]).foldl (fun queue id =>
      push (pqMaxOrder env) queue ⟨id, g.distBetween env metric nbId id⟩) []
    g.modifyNeighbors nbId lc (fun _ => g.selectNeighborsFrom env metric candidates cap)

/-- From `lc` down to the level above the new node's. -/
def descend (g : Hnsw) (query : Bytes) (newLevel : Nat) : Nat → UInt32 → UInt32
  | 0, ep => ep
  | lc + 1, ep =>
      if newLevel < lc + 1 then
        descend g query newLevel lc
          (((searchLayer env metric g query [ep] 1 (lc + 1) none).head?.map PQItem.id).getD ep)
      else ep

/-- The levels below `count`, from the highest down. -/
def connectLevels (query : Bytes) (newId : UInt32) : Nat → List UInt32 → Hnsw → Hnsw
  | 0, _, g => g
  | lc + 1, eps, g =>
      let w := searchLayer env metric g query eps g.params.efConstruction.toNat lc none
      let selected := g.selectNeighborsHeuristic env metric w (g.params.maxNeighborsAtLevel lc)
      let g := g.modifyNeighbors newId lc (fun nbrs => nbrs ++ selected)
      let g := selected.foldl (addBackEdge env metric newId lc) g
      connectLevels query newId lc (w.map PQItem.id) g

def insert (g : Hnsw) (vector : F32Slice) : Except RegistryError (Nat × Hnsw) :=
  if g.dim ≠ 0 ∧ vector.len ≠ g.dim then .error .dimensionMismatch
  else
    let newLevel := g.sampleLevel env
    let newId := g.nodes.length.toUInt32
    let grown := { g with dim := vector.len, nodes := g.nodes ++ [allocateNode vector newLevel] }
    match g.entryPoint with
    | none => .ok (g.nodes.length, { grown with entryPoint := some newId, topLevel := newLevel })
    | some ep =>
        let currentEp := descend env metric grown vector.bytes newLevel.toNat g.topLevel.toNat ep
        let linked := connectLevels env metric vector.bytes newId
          (min g.topLevel.toNat newLevel.toNat + 1) [currentEp] grown
        .ok (g.nodes.length,
          if g.topLevel < newLevel then { linked with entryPoint := some newId, topLevel := newLevel }
          else linked)

end

/-! ## What an insertion keeps -/

/-- A list for each level, none longer than the level allows. -/
structure SizedNode (params : HnswParams) (node : GraphNode) : Prop where
  levels : node.neighbors.length = node.level.toNat + 1
  capacity : ∀ {lc nbrs}, node.neighbors[lc]? = some nbrs → nbrs.length ≤ params.maxNeighborsAtLevel lc

def Sized (g : Hnsw) : Prop := ∀ node ∈ g.nodes, SizedNode g.params node

theorem sized_init (params : HnswParams) : (init params).Sized := nofun

theorem sized_allocateNode (params : HnswParams) (vector : F32Slice) (level : UInt8) :
    SizedNode params (allocateNode vector level) where
  levels := List.length_replicate
  capacity h := by
    rw [allocateNode, List.getElem?_replicate] at h
    split at h
    · cases h
      exact Nat.zero_le _
    · cases h

/-- Of all but the neighbours, nothing is changed. -/
structure Relinked (g g' : Hnsw) : Prop where
  params : g'.params = g.params
  dim : g'.dim = g.dim
  vectors : g'.nodes.map GraphNode.vector = g.nodes.map GraphNode.vector
  entryPoint : g'.entryPoint = g.entryPoint
  topLevel : g'.topLevel = g.topLevel

theorem Relinked.refl (g : Hnsw) : Relinked g g := ⟨rfl, rfl, rfl, rfl, rfl⟩

theorem Relinked.trans {g g' g'' : Hnsw} (h : Relinked g g') (h' : Relinked g' g'') :
    Relinked g g'' :=
  ⟨h'.params.trans h.params, h'.dim.trans h.dim, h'.vectors.trans h.vectors,
    h'.entryPoint.trans h.entryPoint, h'.topLevel.trans h.topLevel⟩

variable {g : Hnsw} {id : UInt32} {lc : Nat} {f : List UInt32 → List UInt32}

theorem relinked_modifyNeighbors (g : Hnsw) (id : UInt32) (lc : Nat)
    (f : List UInt32 → List UInt32) : Relinked g (g.modifyNeighbors id lc f) := by
  refine ⟨rfl, rfl, List.ext_getElem? (fun i => ?_), rfl, rfl⟩
  rw [modifyNeighbors, List.getElem?_map, List.getElem?_map, List.getElem?_modify]
  cases g.nodes[i]? with
  | none => rfl
  | some node =>
    simp only [Option.map_eq_map, Option.map_some]
    split <;> rfl

theorem Sized.modifyNeighbors (h : g.Sized)
    (hf : (f (g.neighborsAt id lc)).length ≤ g.params.maxNeighborsAtLevel lc) :
    (g.modifyNeighbors id lc f).Sized := by
  intro node hmem
  obtain ⟨i, hi⟩ := List.mem_iff_getElem?.mp hmem
  rw [Hnsw.modifyNeighbors, List.getElem?_modify] at hi
  obtain ⟨old, hold, rfl⟩ := Option.map_eq_some_iff.mp hi
  have hsized := h old (List.mem_of_getElem? hold)
  split
  · rename_i hid
    refine ⟨(List.length_modify ..).trans hsized.levels, fun {l nbrs} hnbrs => ?_⟩
    rw [List.getElem?_modify] at hnbrs
    obtain ⟨nbrs', hnbrs', rfl⟩ := Option.map_eq_some_iff.mp hnbrs
    split
    · rename_i hl
      subst hid hl
      rw [neighborsAt, hold, Option.bind_some, hnbrs', Option.getD_some] at hf
      exact hf
    · exact hsized.capacity hnbrs'
  · exact hsized

theorem neighborsAt_modifyNeighbors_of_ne (g : Hnsw) (id id' : UInt32) {lc l : Nat} (hne : l ≠ lc)
    (f : List UInt32 → List UInt32) :
    (g.modifyNeighbors id lc f).neighborsAt id' l = g.neighborsAt id' l := by
  simp only [neighborsAt, modifyNeighbors, List.getElem?_modify]
  cases g.nodes[id'.toNat]? with
  | none => rfl
  | some node =>
    simp only [Option.map_eq_map, Option.map_some, Option.bind_some]
    split
    · rw [List.getElem?_modify]
      simp [hne.symm]
    · rfl

section
variable {D : Type} (env : HnswEnv D) (metric : Metric)

theorem select_length (g : Hnsw) (w : List (PQItem D)) (mTarget : Nat) :
    (g.select env metric w mTarget).length ≤ mTarget := by
  rw [select]
  generalize (drain (pqMaxOrder env) w.length w).reverse = sorted
  suffices h : ∀ selected : List UInt32, selected.length ≤ mTarget →
      (sorted.foldl (fun selected cand => if mTarget ≤ selected.length then selected
        else if selected.any (fun sid => env.less (g.distBetween env metric cand.id sid) cand.dist) then
          selected
        else selected ++ [cand.id]) selected).length ≤ mTarget from h [] (Nat.zero_le _)
  induction sorted with
  | nil => exact fun _ h => h
  | cons cand sorted ih =>
    intro selected hle
    rw [List.foldl_cons]
    refine ih _ ?_
    split
    · exact hle
    split
    · exact hle
    · rw [List.length_append, List.length_singleton]
      omega

/-- The selected nodes are some of those offered, each at most as often. -/
theorem select_subperm (g : Hnsw) (w : List (PQItem D)) (mTarget : Nat) :
    (g.select env metric w mTarget).Subperm (w.map PQItem.id) := by
  have hdrain : (drain (pqMaxOrder env) w.length w).reverse.Perm w :=
    (List.reverse_perm _).trans (drain_perm (Nat.le_refl _))
  rw [select]
  refine List.Sublist.subperm ?_ |>.trans (hdrain.map PQItem.id).subperm
  generalize (drain (pqMaxOrder env) w.length w).reverse = sorted
  suffices h : ∀ selected : List UInt32,
      (sorted.foldl (fun selected cand => if mTarget ≤ selected.length then selected
        else if selected.any (fun sid => env.less (g.distBetween env metric cand.id sid) cand.dist) then
          selected
        else selected ++ [cand.id]) selected).Sublist (selected ++ sorted.map PQItem.id) from h []
  induction sorted with
  | nil => exact fun selected => by simp
  | cons cand sorted ih =>
    intro selected
    have hskipped : (selected ++ sorted.map PQItem.id).Sublist
        (selected ++ (cand :: sorted).map PQItem.id) :=
      (List.sublist_cons_self _ _).append_left selected
    rw [List.foldl_cons]
    split
    · exact (ih selected).trans hskipped
    split
    · exact (ih selected).trans hskipped
    · have htaken := ih (selected ++ [cand.id])
      rwa [List.append_assoc, List.singleton_append] at htaken

theorem pushAll_perm (g : Hnsw) (nbId : UInt32) (ids : List UInt32) (queue : List (PQItem D)) :
    ((ids.foldl (fun queue id => push (pqMaxOrder env) queue
      ⟨id, g.distBetween env metric nbId id⟩) queue).map PQItem.id).Perm
      (ids ++ queue.map PQItem.id) := by
  induction ids generalizing queue with
  | nil => exact List.Perm.refl _
  | cons id ids ih =>
    rw [List.foldl_cons]
    refine (ih _).trans (List.Perm.trans ?_ List.perm_middle)
    exact ((push_perm ..).map PQItem.id).append_left ids

/-- A back edge is a change of one list of the level, keeps it short enough, and brings in no
other node than the new one. -/
theorem addBackEdge_eq (g : Hnsw) (newId nbId : UInt32) (lc : Nat) :
    ∃ f, g.addBackEdge env metric newId lc nbId = g.modifyNeighbors nbId lc f ∧
      (f (g.neighborsAt nbId lc)).length ≤ g.params.maxNeighborsAtLevel lc ∧
      (f (g.neighborsAt nbId lc)).Subperm (g.neighborsAt nbId lc ++ [newId]) := by
  rw [addBackEdge]
  dsimp only
  split
  · rename_i hroom
    refine ⟨_, rfl, ?_, List.Subperm.refl _⟩
    rw [List.length_append, List.length_singleton]
    exact hroom
  · refine ⟨_, rfl, select_length env metric .., (select_subperm env metric ..).trans ?_⟩
    have hpushed := pushAll_perm env metric g nbId (g.neighborsAt nbId lc ++ [newId]) []
    rw [List.map_nil, List.append_nil] at hpushed
    exact hpushed.subperm

theorem relinked_addBackEdges (newId : UInt32) (lc : Nat) (selected : List UInt32) (g : Hnsw) :
    Relinked g (selected.foldl (addBackEdge env metric newId lc) g) := by
  induction selected generalizing g with
  | nil => exact Relinked.refl g
  | cons nbId selected ih =>
    obtain ⟨f, hf, -⟩ := addBackEdge_eq env metric g newId nbId lc
    rw [List.foldl_cons, hf]
    exact (relinked_modifyNeighbors ..).trans (ih _)

theorem relinked_connectLevels (query : Bytes) (newId : UInt32) (count : Nat) (eps : List UInt32)
    (g : Hnsw) : Relinked g (connectLevels env metric query newId count eps g) := by
  induction count generalizing eps g with
  | zero => exact Relinked.refl g
  | succ lc ih =>
    simp only [connectLevels]
    exact ((relinked_modifyNeighbors ..).trans (relinked_addBackEdges env metric newId lc _ _)).trans
      (ih _ _)

/-- What the links of one level leave: the lists are short enough, and the new node has no
neighbours yet on the levels still to come. -/
structure Linked (newId : UInt32) (lc : Nat) (g : Hnsw) : Prop where
  sized : g.Sized
  fresh : ∀ l < lc, g.neighborsAt newId l = []

variable {newId : UInt32}

theorem Linked.addBackEdges (selected : List UInt32) {g : Hnsw}
    (h : Linked newId lc g) : Linked newId lc
    (selected.foldl (Hnsw.addBackEdge env metric newId lc) g) := by
  induction selected generalizing g with
  | nil => exact h
  | cons nbId selected ih =>
    obtain ⟨f, hf, hlen, -⟩ := addBackEdge_eq env metric g newId nbId lc
    rw [List.foldl_cons, hf]
    refine ih ⟨h.sized.modifyNeighbors hlen, fun l hl => ?_⟩
    rw [neighborsAt_modifyNeighbors_of_ne _ _ _ (Nat.ne_of_lt hl)]
    exact h.fresh l hl

theorem Linked.connectLevels (query : Bytes) {count : Nat} (eps : List UInt32)
    {g : Hnsw} (h : Linked newId count g) :
    (Hnsw.connectLevels env metric query newId count eps g).Sized := by
  -- the levels go down, so each finds the new node's list as it was allocated
  induction count generalizing eps g with
  | zero => exact h.sized
  | succ lc ih =>
    simp only [Hnsw.connectLevels]
    generalize searchLayer env metric g query eps g.params.efConstruction.toNat lc none = w
    have hlen := select_length env metric g w (g.params.maxNeighborsAtLevel lc)
    have hself : Linked newId lc (g.modifyNeighbors newId lc (fun nbrs => nbrs ++
        g.selectNeighborsHeuristic env metric w (g.params.maxNeighborsAtLevel lc))) := by
      refine ⟨h.sized.modifyNeighbors ?_, fun l hl => ?_⟩
      · rw [h.fresh lc (Nat.lt_succ_self lc), List.nil_append]
        exact hlen
      · rw [neighborsAt_modifyNeighbors_of_ne _ _ _ (Nat.ne_of_lt hl)]
        exact h.fresh l (Nat.lt_succ_of_lt hl)
    exact ih (w.map PQItem.id) (hself.addBackEdges env metric
      (g.selectNeighborsHeuristic env metric w (g.params.maxNeighborsAtLevel lc)))

/-- The whole effect of an insertion that is not refused, the choice of the neighbours aside.
Node numbers have four bytes. -/
structure Inserted (g : Hnsw) (vector : F32Slice) (g' : Hnsw) : Prop where
  params : g'.params = g.params
  dim : g'.dim = vector.len
  vectors : g'.nodes.map GraphNode.vector = g.nodes.map GraphNode.vector ++ [vector.bytes]
  sized : g.Sized → g.nodes.length < 2 ^ 32 → g'.Sized

/-- A graph with a new node at its end. -/
theorem grown_spec (g : Hnsw) (vector : F32Slice) (level : UInt8) :
    Inserted g vector
      { g with dim := vector.len, nodes := g.nodes ++ [allocateNode vector level] } := by
  refine ⟨rfl, rfl, by rw [List.map_append]; rfl, fun hsized _ node hmem => ?_⟩
  rcases List.mem_append.mp hmem with hold | hnew
  · exact hsized node hold
  · obtain rfl := List.mem_singleton.mp hnew
    exact sized_allocateNode g.params vector level

theorem grown_fresh {g : Hnsw} (hcount : g.nodes.length < 2 ^ 32) (vector : F32Slice) (level : UInt8)
    (l : Nat) :
    neighborsAt { g with dim := vector.len, nodes := g.nodes ++ [allocateNode vector level] }
      g.nodes.length.toUInt32 l = [] := by
  have hid : g.nodes.length.toUInt32.toNat = g.nodes.length := Nat.mod_eq_of_lt hcount
  rw [neighborsAt, hid, List.getElem?_concat_length, Option.bind_some, allocateNode,
    List.getElem?_replicate]
  split <;> rfl

theorem insert_of_dim {g : Hnsw} {vector : F32Slice} (hdim : g.dim = 0 ∨ vector.len = g.dim) :
    ∃ g', g.insert env metric vector = .ok (g.nodes.length, g') ∧ Inserted g vector g' := by
  have hfits : ¬ (g.dim ≠ 0 ∧ vector.len ≠ g.dim) := fun h => hdim.elim h.1 h.2
  have hgrown := grown_spec g vector (g.sampleLevel env)
  rw [insert, if_neg hfits]
  dsimp only
  split
  · exact ⟨_, rfl, hgrown.params, hgrown.dim, hgrown.vectors, hgrown.sized⟩
  · rename_i ep _
    generalize descend env metric _ vector.bytes (g.sampleLevel env).toNat g.topLevel.toNat ep =
      currentEp
    have hrelinked := relinked_connectLevels env metric vector.bytes g.nodes.length.toUInt32
      (min g.topLevel.toNat (g.sampleLevel env).toNat + 1) [currentEp]
      { g with dim := vector.len, nodes := g.nodes ++ [allocateNode vector (g.sampleLevel env)] }
    have hlinked : Inserted g vector (connectLevels env metric vector.bytes g.nodes.length.toUInt32
        (min g.topLevel.toNat (g.sampleLevel env).toNat + 1) [currentEp]
        { g with dim := vector.len, nodes := g.nodes ++ [allocateNode vector (g.sampleLevel env)] }) := by
      refine ⟨hrelinked.params, hrelinked.dim, hrelinked.vectors.trans hgrown.vectors,
        fun hsized hcount => Linked.connectLevels env metric vector.bytes [currentEp] ?_⟩
      exact ⟨hgrown.sized hsized hcount, fun l _ => grown_fresh hcount vector (g.sampleLevel env) l⟩
    split
    · exact ⟨_, rfl, hlinked.params, hlinked.dim, hlinked.vectors, hlinked.sized⟩
    · exact ⟨_, rfl, hlinked⟩

end
end Hnsw
end WormDB
