import WormDB.HnswGraph
import WormDB.AsyncIndexing
import Mathlib.Data.List.Induction

/-! # An index with its graph

`NamespaceIndex` of `vector/index.zig` with all the tables that a snapshot writes: the graph,
the keys and timestamps by node number, the bits of the deleted nodes and their count.  The
tables of `VectorIndex` are an abstraction of these: `layout` gives the one for the other, and
inserting or deleting before or after it comes to the same (`layout_insertLocked`,
`layout_markTombstoneLocked`). -/
namespace WormDB
open List ByteCodec PrefixMap
open VectorNode (key tombstoned vector)

structure StoredIndex where
  hnsw : Hnsw
  keys : List Bytes
  timestamps : List UInt64
  keyToNode : ByteMap Nat
  tombstones : List Bool
  tombstoneCount : Nat
  metric : Metric
  dim : Option Nat
  rabitqParams : Option RabitqParams

namespace StoredIndex
variable {D : Type} (env : HnswEnv D)

def init (params : HnswParams) (m : Metric) : StoredIndex :=
  ⟨Hnsw.init params, [], [], ByteMap.empty, [], 0, m, none, none⟩

def setTombstone (idx : StoredIndex) (id : Nat) : StoredIndex :=
  { idx with
    tombstones := idx.tombstones.set id true
    tombstoneCount := idx.tombstoneCount + 1 }

def setTimestamp (idx : StoredIndex) (id : Nat) (timestamp : UInt64) : StoredIndex :=
  { idx with timestamps := idx.timestamps.set id timestamp }

/-- The end of `insertLocked`: a new node. -/
def append (idx : StoredIndex) (key : Bytes) (vector : F32Slice) (timestamp : UInt64) :
    Except RegistryError (Nat × StoredIndex) :=
  match idx.hnsw.insert env idx.metric vector with
  | .error e => .error e
  | .ok (nodeId, hnsw) =>
      .ok (nodeId, { idx with
        hnsw := hnsw
        dim := some (idx.dim.getD vector.len)
        keys := idx.keys ++ [key]
        timestamps := idx.timestamps ++ [timestamp]
        tombstones := idx.tombstones ++ [false]
        keyToNode := idx.keyToNode.insert key nodeId })

def insertLocked (idx : StoredIndex) (key : Bytes) (vector : F32Slice) (timestamp : UInt64) :
    Except RegistryError (Nat × StoredIndex) :=
  if idx.dim.any (fun d => vector.len ≠ d) then .error .dimensionMismatch
  else
    match idx.keyToNode.get key with
    | some oldId =>
        if idx.tombstones.getD oldId false then idx.append env key vector timestamp
        else if timestamp < idx.timestamps.getD oldId 0 then .ok (oldId, idx)
        else if (idx.hnsw.nodes[oldId]?.map GraphNode.vector).getD [] = vector.bytes then
          .ok (oldId, idx.setTimestamp oldId timestamp)
        else (idx.setTombstone oldId).append env key vector timestamp
    | none => idx.append env key vector timestamp

def markTombstoneLocked (idx : StoredIndex) (key : Bytes) : TombstoneResult × StoredIndex :=
  match idx.keyToNode.get key with
  | none => (.missing, idx)
  | some nodeId =>
      if idx.tombstones.getD nodeId false then (.noop, idx) else (.deleted, idx.setTombstone nodeId)

end StoredIndex

/-! ## The graph of the vectors inserted -/

section
variable {D : Type} (env : HnswEnv D) (metric : Metric)

def graphOf (vectors : List F32Slice) : Hnsw :=
  vectors.foldl (fun g v => match g.insert env metric v with
    | .error _ => g
    | .ok (_, g) => g) (Hnsw.init HnswParams.default)

/-- What the graph of the vectors is, the choice of the neighbours aside. -/
structure GraphSpec (vectors : List F32Slice) (d : Option Nat) (g : Hnsw) : Prop where
  params : g.params = HnswParams.default
  dim : g.dim = d.getD 0
  nodes : g.nodes.map GraphNode.vector = vectors.map F32Slice.bytes
  sized : vectors.length ≤ 2 ^ 32 → g.Sized

variable {vectors : List F32Slice} {d : Option Nat} {g : Hnsw}

theorem GraphSpec.length (h : GraphSpec vectors d g) : g.nodes.length = vectors.length := by
  rw [← length_map GraphNode.vector, h.nodes, length_map]

theorem F32Slice.len_pos (v : F32Slice) : 0 < v.len := by
  have h := v.nonempty
  have h' := v.aligned
  rw [F32Slice.len]
  omega

/-- One more vector, of the dimension of the others. -/
theorem GraphSpec.insert
    (h : GraphSpec vectors d g) {v : F32Slice} (hdim : d = none ∨ d = some v.len) :
    ∃ g', g.insert env metric v = .ok (vectors.length, g') ∧
      GraphSpec (vectors ++ [v]) (some v.len) g' := by
  have hg : g.dim = 0 ∨ v.len = g.dim := by
    rw [h.dim]
    rcases hdim with rfl | rfl
    · exact .inl rfl
    · exact .inr rfl
  obtain ⟨g', hok, hins⟩ := Hnsw.insert_of_dim env metric hg
  refine ⟨g', h.length ▸ hok, hins.params.trans h.params, hins.dim, ?_, fun hcount => ?_⟩
  · rw [hins.vectors, h.nodes, map_append]
    rfl
  · rw [length_append, length_singleton] at hcount
    exact hins.sized (h.sized (Nat.le_of_succ_le hcount)) (h.length ▸ hcount)

theorem graphOf_append (vectors : List F32Slice) (v : F32Slice) :
    graphOf env metric (vectors ++ [v]) =
      match (graphOf env metric vectors).insert env metric v with
      | .error _ => graphOf env metric vectors
      | .ok (_, g) => g := by
  rw [graphOf, foldl_append]
  rfl

theorem graphOf_spec
    (hdim : ∀ v ∈ vectors, d = some v.len) (hnone : vectors = [] → d = none) : GraphSpec vectors d
    (graphOf env metric vectors) := by
  induction vectors using List.reverseRecOn generalizing d with
  | nil =>
    rw [hnone rfl]
    exact ⟨rfl, rfl, rfl, fun _ => Hnsw.sized_init _⟩
  | append_singleton vectors v ih =>
    have hv : d = some v.len := hdim v (mem_append_right _ (mem_singleton_self v))
    have hsame : ∀ w ∈ vectors, d = some w.len := fun w hw => hdim w (mem_append_left _ hw)
    -- before this vector the dimension is frozen unless there was none
    have hbefore : ∃ d', (d' = none ∨ d' = some v.len) ∧
        GraphSpec vectors d' (graphOf env metric vectors) := by
      by_cases hempty : vectors = []
      · exact ⟨none, .inl rfl, ih (by simp [hempty]) (fun _ => rfl)⟩
      · exact ⟨d, .inr hv, ih hsame (fun h => absurd h hempty)⟩
    obtain ⟨d', hd', hspec⟩ := hbefore
    obtain ⟨g', hok, hspec'⟩ := hspec.insert env metric hd'
    rw [graphOf_append, hok, hv]
    exact hspec'

end

/-! ## The tables of an index as they are laid out -/

namespace NodeTable

/-- The dimension is frozen by a node, and the map leads to the last node of each key. -/
structure Shaped (t : NodeTable) : Prop where
  unfrozen : t.nodes = [] → t.dim = none
  latest : ∀ {i : Nat} {node : VectorNode}, t.nodes[i]? = some node →
    ∃ j, i ≤ j ∧ t.keyToNode.get node.key = some j

theorem shaped_empty : empty.Shaped := ⟨fun _ => rfl, nofun⟩

variable {t : NodeTable}

theorem Shaped.modifyNode (h : t.Shaped) (id : Nat) {f : VectorNode → VectorNode}
    (hkey : ∀ node, (f node).key = node.key) : (t.modifyNode id f).Shaped := by
  refine ⟨fun hempty => h.unfrozen (modify_eq_nil_iff.mp hempty), fun {i node} hnode => ?_⟩
  rw [NodeTable.modifyNode, getElem?_modify] at hnode
  obtain ⟨old, hold, rfl⟩ := Option.map_eq_some_iff.mp hnode
  obtain ⟨j, hij, hget⟩ := h.latest hold
  refine ⟨j, hij, ?_⟩
  split
  · rw [hkey]
    exact hget
  · exact hget

theorem Shaped.push (h : t.Shaped) (key : Bytes) (v : F32Slice)
    (timestamp : UInt64) : (t.push key v timestamp).Shaped := by
  refine ⟨fun hempty => absurd hempty (append_ne_nil_of_right_ne_nil _ (cons_ne_nil _ _)),
    fun {i node} hnode => ?_⟩
  have hle : i ≤ t.nodes.length := by
    have hlt := (List.getElem?_eq_some_iff.mp hnode).1
    rw [NodeTable.push, length_append, length_singleton] at hlt
    omega
  rw [NodeTable.push]
  by_cases hk : node.key = key
  · exact ⟨t.nodes.length, hle, by rw [hk]; exact ByteMap.get_insert_self _ _ _⟩
  · -- the new node has the key `key`
    rw [NodeTable.push, getElem?_append] at hnode
    split at hnode
    · obtain ⟨j, hij, hget⟩ := h.latest hnode
      exact ⟨j, hij, (ByteMap.get_insert_of_ne _ _ hk).trans hget⟩
    · obtain ⟨hi, hnew⟩ := List.getElem?_eq_some_iff.mp hnode
      rw [getElem_singleton] at hnew
      exact absurd (hnew ▸ rfl) hk

theorem Shaped.setTombstone (h : t.Shaped) (id : Nat) : (t.setTombstone id).Shaped :=
  h.modifyNode id (fun _ => rfl)

theorem Shaped.insertLocked {t t' : NodeTable} (h : t.Shaped) {key : Bytes}
    {v : F32Slice} {timestamp : UInt64} {id : Nat}
    (hok : t.insertLocked key v timestamp = .ok (id, t')) : t'.Shaped := by
  rw [NodeTable.insertLocked] at hok
  split at hok
  · cases hok
  split at hok
  · rename_i oldId old _
    repeat' split at hok
    all_goals obtain ⟨-, rfl⟩ := Prod.mk.inj (Except.ok.inj hok)
    · exact h.push key v timestamp
    · exact h
    · exact h.modifyNode oldId (fun _ => rfl)
    · exact (h.setTombstone oldId).push key v timestamp
  · cases hok
    exact h.push key v timestamp

theorem Shaped.markTombstoneLocked {t : NodeTable} (h : t.Shaped) (key : Bytes) :
    (t.markTombstoneLocked key).2.Shaped := by
  rw [NodeTable.markTombstoneLocked]
  split
  · exact h
  split
  · exact h
  · exact h.setTombstone _

end NodeTable

section
variable {D : Type} (env : HnswEnv D) (metric : Metric) (rabitqParams : Option RabitqParams)

def layout (t : NodeTable) : StoredIndex where
  hnsw := graphOf env metric (t.nodes.map vector)
  keys := t.nodes.map key
  timestamps := t.nodes.map VectorNode.timestamp
  keyToNode := t.keyToNode
  tombstones := t.nodes.map tombstoned
  tombstoneCount := t.nodes.countP tombstoned
  metric := metric
  dim := t.dim
  rabitqParams := rabitqParams

variable {t : NodeTable}

theorem layout_graph (hvalid : t.Valid) (hshape : t.Shaped) :
    GraphSpec (t.nodes.map vector) t.dim (layout env metric rabitqParams t).hnsw := by
  refine graphOf_spec env metric (fun v hv => ?_) (fun hempty => ?_)
  · obtain ⟨node, hmem, rfl⟩ := mem_map.mp hv
    obtain ⟨i, hi⟩ := mem_iff_getElem?.mp hmem
    exact hvalid.sized hi
  · exact hshape.unfrozen (map_eq_nil_iff.mp hempty)

variable {β : Type}

theorem map_modifyNode (id : Nat) (f : VectorNode → VectorNode) (g : VectorNode → β)
    (h : ∀ node, g (f node) = g node) : (t.modifyNode id f).nodes.map g = t.nodes.map g := by
  refine ext_getElem? (fun i => ?_)
  rw [NodeTable.modifyNode, getElem?_map, getElem?_map, getElem?_modify]
  cases t.nodes[i]? with
  | none => rfl
  | some node =>
    simp only [Option.map_eq_map, Option.map_some]
    split
    · rw [h]
    · rfl

theorem map_modifyNode_set (id : Nat) (f : VectorNode → VectorNode) (g : VectorNode → β) (b : β)
    (h : ∀ node, g (f node) = b) : (t.modifyNode id f).nodes.map g = (t.nodes.map g).set id b := by
  refine ext_getElem? (fun i => ?_)
  rw [NodeTable.modifyNode, getElem?_map, getElem?_set', getElem?_map,
    getElem?_modify]
  by_cases hi : id = i
  · subst hi
    cases t.nodes[id]? with
    | none => simp
    | some node => simp [h]
  · simp [hi]

variable {node : VectorNode}

theorem countP_setTombstone {id : Nat} (hnode : t.nodes[id]? = some node)
    (hlive : node.tombstoned = false) : (t.setTombstone id).nodes.countP tombstoned =
      t.nodes.countP tombstoned + 1 := by
  suffices hcount : ∀ nodes : List VectorNode, nodes[id]? = some node →
      (nodes.modify id (fun node => { node with tombstoned := true })).countP tombstoned =
        nodes.countP tombstoned + 1 from hcount t.nodes hnode
  clear hnode
  induction id with
  | zero =>
    rintro (_ | ⟨first, rest⟩) hfirst
    · cases hfirst
    · obtain rfl : first = node := Option.some.inj hfirst
      simp [modify_zero_cons, hlive]
  | succ id ih =>
    rintro (_ | ⟨first, rest⟩) hrest
    · cases hrest
    · rw [modify_succ_cons, countP_cons, countP_cons, ih rest hrest]
      omega

theorem layout_setTombstone {id : Nat} (hnode : t.nodes[id]? = some node)
    (hlive : node.tombstoned = false) : (layout env metric rabitqParams t).setTombstone id =
      layout env metric rabitqParams (t.setTombstone id) := by
  have hvector : (t.setTombstone id).nodes.map vector = t.nodes.map vector :=
    map_modifyNode id _ _ (fun _ => rfl)
  have hkey : (t.setTombstone id).nodes.map key = t.nodes.map key :=
    map_modifyNode id _ _ (fun _ => rfl)
  have htime : (t.setTombstone id).nodes.map VectorNode.timestamp = t.nodes.map VectorNode.timestamp :=
    map_modifyNode id _ _ (fun _ => rfl)
  have htomb : (t.setTombstone id).nodes.map tombstoned =
      (t.nodes.map tombstoned).set id true :=
    map_modifyNode_set id _ _ true (fun _ => rfl)
  simp only [StoredIndex.setTombstone, layout, countP_setTombstone hnode hlive, hvector, hkey, htime,
    htomb]
  rfl

theorem layout_append (hvalid : t.Valid) (hshape : t.Shaped) (key : Bytes) {v : F32Slice} (hdim : t.dim = none ∨ t.dim = some v.len) (timestamp : UInt64) :
    (layout env metric rabitqParams t).append env key v timestamp =
      .ok (t.nodes.length, layout env metric rabitqParams (t.push key v timestamp)) := by
  obtain ⟨g', hok, -⟩ := (layout_graph env metric rabitqParams hvalid hshape).insert env metric hdim
  rw [length_map] at hok
  have hgraph : graphOf env metric ((t.push key v timestamp).nodes.map vector) = g' := by
    rw [NodeTable.push, map_append, map_singleton, graphOf_append]
    rw [show graphOf env metric (t.nodes.map vector) =
      (layout env metric rabitqParams t).hnsw from rfl, hok]
  rw [StoredIndex.append, show (layout env metric rabitqParams t).metric = metric from rfl, hok]
  simp only [layout, hgraph]
  simp [NodeTable.push]

theorem layout_setTimestamp (id : Nat) (timestamp : UInt64) :
    (layout env metric rabitqParams t).setTimestamp id timestamp =
      layout env metric rabitqParams (t.setTimestamp id timestamp) := by
  have hvector : (t.setTimestamp id timestamp).nodes.map vector =
      t.nodes.map vector := map_modifyNode id _ _ (fun _ => rfl)
  have hkey : (t.setTimestamp id timestamp).nodes.map key = t.nodes.map key :=
    map_modifyNode id _ _ (fun _ => rfl)
  have htomb : (t.setTimestamp id timestamp).nodes.map tombstoned =
      t.nodes.map tombstoned := map_modifyNode id _ _ (fun _ => rfl)
  have htime : (t.setTimestamp id timestamp).nodes.map VectorNode.timestamp =
      (t.nodes.map VectorNode.timestamp).set id timestamp :=
    map_modifyNode_set id _ _ timestamp (fun _ => rfl)
  have hcount : (t.setTimestamp id timestamp).nodes.countP tombstoned =
      t.nodes.countP tombstoned := by
    have hid : ∀ nodes : List VectorNode, nodes.countP tombstoned =
        (nodes.map tombstoned).countP (fun b => b) := fun nodes => by
      rw [countP_map]
      rfl
    rw [hid, hid, htomb]
  simp only [StoredIndex.setTimestamp, layout, hvector, hkey, htomb, htime, hcount]
  rfl

/-- What the laid out tables say of a node. -/
theorem layout_node {id : Nat} (hvalid : t.Valid) (hshape : t.Shaped)
    (hnode : t.nodes[id]? = some node) :
    (layout env metric rabitqParams t).tombstones.getD id false = node.tombstoned ∧
      (layout env metric rabitqParams t).timestamps.getD id 0 = node.timestamp ∧
      ((layout env metric rabitqParams t).hnsw.nodes[id]?.map GraphNode.vector).getD [] =
        node.vector.bytes := by
  have hgraph := (layout_graph env metric rabitqParams hvalid hshape).nodes
  refine ⟨?_, ?_, ?_⟩
  · simp [layout, getD_eq_getElem?_getD, hnode]
  · simp [layout, getD_eq_getElem?_getD, hnode]
  · rw [← getElem?_map, hgraph]
    simp [hnode]

/-- **An insert into the laid out tables is an insert into the tables.** -/
theorem layout_insertLocked (hvalid : t.Valid) (hshape : t.Shaped) (key : Bytes) (v : F32Slice) (timestamp : UInt64) :
    (layout env metric rabitqParams t).insertLocked env key v timestamp =
      (t.insertLocked key v timestamp).map (fun result =>
        (result.1, layout env metric rabitqParams result.2)) := by
  rw [StoredIndex.insertLocked, NodeTable.insertLocked,
    show (layout env metric rabitqParams t).dim = t.dim from rfl,
    show (layout env metric rabitqParams t).keyToNode = t.keyToNode from rfl]
  split
  · rfl
  rename_i hany
  have hdim : t.dim = none ∨ t.dim = some v.len := by
    cases hd : t.dim with
    | none => exact .inl rfl
    | some d =>
      rw [hd, Option.any_some, decide_eq_true_eq, not_not] at hany
      exact .inr (congrArg some hany.symm)
  cases hget : t.keyToNode.get key with
  | none =>
    rw [hvalid.nodeFor_eq_none.mpr hget]
    exact layout_append env metric rabitqParams hvalid hshape key hdim timestamp
  | some oldId =>
    obtain ⟨old, hold, -⟩ := hvalid.mapped hget
    obtain ⟨htomb, htime, hvec⟩ := layout_node env metric rabitqParams hvalid hshape hold
    rw [NodeTable.nodeFor_eq_some.mpr ⟨hget, hold⟩]
    dsimp only
    rw [htomb, htime, hvec]
    by_cases hdead : old.tombstoned = true
    · rw [if_pos hdead, if_pos hdead]
      exact layout_append env metric rabitqParams hvalid hshape key hdim timestamp
    rw [if_neg hdead, if_neg hdead]
    by_cases hstale : timestamp < old.timestamp
    · rw [if_pos hstale, if_pos hstale]
      rfl
    rw [if_neg hstale, if_neg hstale]
    by_cases hsame : old.vector = v
    · rw [if_pos (congrArg F32Slice.bytes hsame), if_pos hsame, layout_setTimestamp]
      rfl
    · rw [if_neg (fun hbytes => hsame (F32Slice.ext_bytes hbytes)), if_neg hsame,
        layout_setTombstone env metric rabitqParams hold (Bool.not_eq_true _ ▸ hdead),
        layout_append env metric rabitqParams (hvalid.setTombstone oldId) (hshape.setTombstone oldId)
          key hdim timestamp]
      simp [Except.map, NodeTable.setTombstone, NodeTable.modifyNode]

/-- **The same for a deletion.** -/
theorem layout_markTombstoneLocked (hvalid : t.Valid) (hshape : t.Shaped) (key : Bytes) :
    (layout env metric rabitqParams t).markTombstoneLocked key =
      ((t.markTombstoneLocked key).1, layout env metric rabitqParams (t.markTombstoneLocked key).2) := by
  rw [StoredIndex.markTombstoneLocked, NodeTable.markTombstoneLocked,
    show (layout env metric rabitqParams t).keyToNode = t.keyToNode from rfl]
  cases hget : t.keyToNode.get key with
  | none => rw [hvalid.nodeFor_eq_none.mpr hget]
  | some id =>
    obtain ⟨node, hnode, -⟩ := hvalid.mapped hget
    obtain ⟨htomb, -, -⟩ := layout_node env metric rabitqParams hvalid hshape hnode
    rw [NodeTable.nodeFor_eq_some.mpr ⟨hget, hnode⟩]
    dsimp only
    rw [htomb]
    by_cases hdead : node.tombstoned = true
    · rw [if_pos hdead, if_pos hdead]
    · rw [if_neg hdead, if_neg hdead,
        layout_setTombstone env metric rabitqParams hnode (Bool.not_eq_true _ ▸ hdead)]

/-! ## Runs -/

inductive IndexCall where
  | insert (key : Bytes) (v : F32Slice) (timestamp : UInt64)
  | tombstone (key : Bytes)

/-- The answers to the calls, and the index after them.  An insert that is refused leaves it. -/
def serveAll {I : Type} (insert : I → Bytes → F32Slice → UInt64 → Except RegistryError (Nat × I))
    (tombstone : I → Bytes → TombstoneResult × I) (idx : I) :
    List IndexCall → List (Except RegistryError Nat ⊕ TombstoneResult) × I
  | [] => ([], idx)
  | .insert key v timestamp :: calls =>
      match insert idx key v timestamp with
      | .error e => (serveAll insert tombstone idx calls).map (.inl (.error e) :: ·) id
      | .ok (node, idx) => (serveAll insert tombstone idx calls).map (.inl (.ok node) :: ·) id
  | .tombstone key :: calls =>
      let (result, idx) := tombstone idx key
      (serveAll insert tombstone idx calls).map (.inr result :: ·) id

/-- **The index with its graph refines the tables:** from the empty index any calls are answered
alike, and what they leave is laid out alike. -/
theorem index_refines (calls : List IndexCall) :
    serveAll (StoredIndex.insertLocked env) StoredIndex.markTombstoneLocked
        (StoredIndex.init HnswParams.default metric) calls =
      (serveAll NodeTable.insertLocked NodeTable.markTombstoneLocked NodeTable.empty calls).map id
        (layout env metric none) := by
  have hvalid := NodeTable.valid_empty
  have hshape := NodeTable.shaped_empty
  rw [show StoredIndex.init _ metric = layout env metric none NodeTable.empty from rfl]
  generalize NodeTable.empty = t at hvalid hshape ⊢
  induction calls generalizing t with
  | nil => rfl
  | cons call calls ih =>
    cases call with
    | insert key v timestamp =>
      rw [serveAll, serveAll, layout_insertLocked env metric none hvalid hshape]
      cases hins : t.insertLocked key v timestamp with
      | error e => exact congrArg (Prod.map _ id) (ih t hvalid hshape)
      | ok r =>
        exact congrArg (Prod.map _ id)
          (ih r.2 (hvalid.insertLocked hins).valid (hshape.insertLocked hins))
    | tombstone key =>
      rw [serveAll, serveAll, layout_markTombstoneLocked env metric none hvalid hshape]
      exact congrArg (Prod.map _ id)
        (ih _ (hvalid.markTombstoneLocked key).valid (hshape.markTombstoneLocked key))

end
end WormDB
