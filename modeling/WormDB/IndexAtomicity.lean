import WormDB.HnswMemory
import WormDB.StoredIndex

/-! # An insert into an index when memory runs out

`insertLocked` of `vector/index.zig` with its requests for memory.  It tombstones the old version
of the key first, then copies the key and inserts the vector into the graph, then extends the
tables one after another; `errdefer` takes back what was put into the tables, but neither the
tombstone nor the node of the graph.  `failed_insert_atomic_iff` says after which failures the
index is what it was. -/
namespace WormDB
open List ByteCodec PrefixMap

structure IndexState where
  index : StoredIndex
  freed : List Nat

abbrev IndexM := AllocM InsertError IndexState

namespace StoredIndex

/-! ## The program -/

def modifyIndex (f : StoredIndex → StoredIndex) : IndexM Unit :=
  AllocM.modify fun s => { s with index := f s.index }

/-- The graph of the index. -/
def onGraph {α : Type} (x : Hnsw.GraphM α) : IndexM α :=
  AllocM.onPart (fun s => ⟨s.index.hnsw, s.freed⟩)
    (fun s t => ⟨{ s.index with hnsw := t.graph }, t.freed⟩) x

/-- A bit set of another length; the new bits are zero. -/
def resizeBits (bits : List Bool) (newLen : Nat) : List Bool :=
  bits.take newLen ++ replicate (newLen - bits.length) false

def popKey (s : IndexState) : IndexState :=
  { s with index := { s.index with keys := s.index.keys.dropLast } }

def popTimestamp (s : IndexState) : IndexState :=
  { s with index := { s.index with timestamps := s.index.timestamps.dropLast } }

section
variable {D : Type} (env : HnswEnv D) (memory : Nat → Bool)

def allocIndex : IndexM Unit := AllocM.requests memory .outOfMemory 1

/-- The tables, one after another. -/
def extendTablesM (key : Bytes) (nodeId : Nat) (timestamp : UInt64) : IndexM Unit := do
  allocIndex memory
  modifyIndex fun idx => { idx with keys := idx.keys ++ [key] }
  AllocM.errdefer popKey do
    allocIndex memory
    modifyIndex fun idx => { idx with timestamps := idx.timestamps ++ [timestamp] }
    AllocM.errdefer popTimestamp do
      allocIndex memory
      modifyIndex fun idx =>
        { idx with tombstones := resizeBits idx.tombstones idx.hnsw.nodes.length }
      allocIndex memory
      modifyIndex fun idx => { idx with keyToNode := idx.keyToNode.insert key nodeId }

/-- The end of `insertLocked`: a new node. -/
def appendM (key : Bytes) (vector : F32Slice) (timestamp : UInt64) : IndexM Nat := do
  -- the copy of the key, which is freed where anything fails
  allocIndex memory
  let s ← AllocM.get
  let nodeId ← onGraph (Hnsw.insertM env s.index.metric memory vector)
  modifyIndex fun idx => { idx with dim := some (idx.dim.getD vector.len) }
  extendTablesM memory key nodeId timestamp
  pure nodeId

def insertLockedM (key : Bytes) (vector : F32Slice) (timestamp : UInt64) : IndexM Nat := do
  let s ← AllocM.get
  let idx := s.index
  if idx.dim.any (fun d => vector.len ≠ d) then AllocM.throw .dimensionMismatch
  else
    match idx.keyToNode.get key with
    | some oldId =>
        if idx.tombstones.getD oldId false then appendM env memory key vector timestamp
        else if timestamp < idx.timestamps.getD oldId 0 then pure oldId
        else if (idx.hnsw.nodes[oldId]?.map GraphNode.vector).getD [] = vector.bytes then do
          modifyIndex fun idx => idx.setTimestamp oldId timestamp
          pure oldId
        else do
          modifyIndex fun idx => idx.setTombstone oldId
          appendM env memory key vector timestamp
    | none => appendM env memory key vector timestamp

end

def clearLocked (idx : StoredIndex) : StoredIndex :=
  { idx with
    hnsw := Hnsw.init idx.hnsw.params
    keys := []
    timestamps := []
    keyToNode := ByteMap.empty
    tombstones := []
    tombstoneCount := 0
    dim := none }

/-- The vector of the key's node, unless that is deleted. -/
def live (idx : StoredIndex) (key : Bytes) : Option Bytes :=
  (idx.keyToNode.get key).bind fun id =>
    if idx.tombstones.getD id false then none else idx.hnsw.nodes[id]?.map GraphNode.vector

/-- `none` is an index out of the bounds of a table. -/
def searchLocked {D : Type} (env : HnswEnv D) (idx : StoredIndex) (query : F32Slice) (k ef : Nat) :
    Option (Except RegistryError (List (IndexSearchResult D))) :=
  let filter := if 0 < idx.tombstoneCount then some idx.tombstones else none
  match idx.hnsw.search env idx.metric query k ef filter with
  | .error e => some (.error e)
  | .ok results => (results.mapM fun (r : Hnsw.SearchResult D) => do
      let key ← idx.keys[r.id.toNat]?
      let timestamp ← idx.timestamps[r.id.toNat]?
      pure (⟨key, r.dist, timestamp⟩ : IndexSearchResult D)).map .ok

/-! ## What a failure leaves -/

/-- The tables have an entry for each node of the graph. -/
structure Aligned (idx : StoredIndex) : Prop where
  keys : idx.keys.length = idx.hnsw.nodes.length
  timestamps : idx.timestamps.length = idx.hnsw.nodes.length
  tombstones : idx.tombstones.length = idx.hnsw.nodes.length

/-- A failed insert that nobody can tell from none. -/
structure Unchanged {D : Type} (env : HnswEnv D) (idx idx' : StoredIndex) : Prop where
  live : ∀ key, idx'.live key = idx.live key
  keyToNode : idx'.keyToNode = idx.keyToNode
  tombstones : idx'.tombstones = idx.tombstones
  tombstoneCount : idx'.tombstoneCount = idx.tombstoneCount
  search : ∀ query k ef, idx'.searchLocked env query k ef = idx.searchLocked env query k ef
  aligned : idx'.Aligned

/-- The key has a live node with another vector, and not a later one. -/
def Replaces (idx : StoredIndex) (key : Bytes) (vector : F32Slice) (timestamp : UInt64) : Prop :=
  ∃ oldId, idx.keyToNode.get key = some oldId ∧ idx.tombstones.getD oldId false = false ∧
    ¬ timestamp < idx.timestamps.getD oldId 0 ∧
    (idx.hnsw.nodes[oldId]?.map GraphNode.vector).getD [] ≠ vector.bytes

section
open AllocM
variable {D : Type} (env : HnswEnv D) (memory : Nat → Bool)

/-- The copy of the key, and what the node takes until it is in the list of nodes. -/
def requestsToNode (idx : StoredIndex) : Nat := 1 + Hnsw.nodeRequests (idx.hnsw.sampleLevel env)

/-- How the end of an insert fails. -/
inductive AppendFails (idx : StoredIndex) (vector : F32Slice) (e : InsertError) (s : IndexState) : Prop
  | mismatch (h : idx.hnsw.dim ≠ 0 ∧ vector.len ≠ idx.hnsw.dim) (error : e = .dimensionMismatch)
      (same : s.index = idx)
  | early (out : Hnsw.RanOut memory e) (refused : ¬ Granted memory 0 (idx.requestsToNode env)) (dim : Nat)
      (fits : dim = idx.hnsw.dim ∨ idx.hnsw.dim = 0)
      (same : s.index = { idx with hnsw := { idx.hnsw with dim := dim } })
  | late (out : Hnsw.RanOut memory e) (granted : Granted memory 0 (idx.requestsToNode env))
      (nodes : s.index.hnsw.nodes.length = idx.hnsw.nodes.length + 1) (keys : s.index.keys = idx.keys)

theorem allocIndex_spec (s₀ : IndexState) :
    Triple (fun s _ => s = s₀) (allocIndex memory) (fun _ s _ => s = s₀)
      (fun e s => Hnsw.RanOut memory e ∧ s = s₀) := by
  refine Triple.of_each fun s n hs => ?_
  refine Triple.requests.imp (fun _ _ h => h) (fun _ s n h => h.1.trans hs) fun e s h => ?_
  exact ⟨⟨h.1, Hnsw.not_granted h.2.2⟩, h.2.1.trans hs⟩

/-- The tables are extended in turn, and taken back where memory runs out. -/
theorem extendTables_spec (key : Bytes) (nodeId : Nat) (timestamp : UInt64) (s₀ : IndexState) :
    Triple (fun s _ => s = s₀) (extendTablesM memory key nodeId timestamp)
      (fun _ s _ => s = { s₀ with index := { s₀.index with
        keys := s₀.index.keys ++ [key]
        timestamps := s₀.index.timestamps ++ [timestamp]
        tombstones := resizeBits s₀.index.tombstones s₀.index.hnsw.nodes.length
        keyToNode := s₀.index.keyToNode.insert key nodeId } })
      (fun e s => Hnsw.RanOut memory e ∧ s.index.hnsw = s₀.index.hnsw ∧
        s.index.keys = s₀.index.keys) := by
  have hmodify : ∀ (f : StoredIndex → StoredIndex) (s : IndexState) (E : InsertError → IndexState → Prop),
      Triple (fun s' _ => s' = s) (modifyIndex f) (fun _ s' _ => s' = { s with index := f s.index }) E :=
    fun f s E => Triple.modify fun _ _ h => h ▸ rfl
  refine Triple.bind ((allocIndex_spec memory s₀).imp (fun _ _ h => h) (fun _ _ _ h => h)
    fun e s h => ⟨h.1, h.2 ▸ ⟨rfl, rfl⟩⟩) fun _ => ?_
  refine Triple.bind (hmodify _ s₀ _) fun _ => Triple.errdefer ?_
  refine Triple.bind ((allocIndex_spec memory _).imp (fun _ _ h => h) (fun _ _ _ h => h)
    fun e s h => ⟨h.1, ?_⟩) fun _ => ?_
  · rw [h.2]
    exact ⟨rfl, dropLast_concat⟩
  refine Triple.bind (hmodify _ _ _) fun _ => Triple.errdefer ?_
  refine Triple.bind ((allocIndex_spec memory _).imp (fun _ _ h => h) (fun _ _ _ h => h)
    fun e s h => ⟨h.1, ?_⟩) fun _ => ?_
  · rw [h.2]
    exact ⟨rfl, dropLast_concat⟩
  refine Triple.bind (hmodify _ _ _) fun _ => ?_
  refine Triple.bind ((allocIndex_spec memory _).imp (fun _ _ h => h) (fun _ _ _ h => h)
    fun e s h => ⟨h.1, ?_⟩) fun _ => hmodify _ _ _
  rw [h.2]
  exact ⟨rfl, dropLast_concat⟩

theorem resizeBits_succ {bits : List Bool} {n : Nat} (h : bits.length = n) :
    resizeBits bits (n + 1) = bits ++ [false] := by
  rw [resizeBits, take_of_length_le (by omega), h, Nat.add_sub_cancel_left]
  rfl

theorem onGraph_insertM_spec (idx : StoredIndex) (freed : List Nat) (vector : F32Slice) (n₀ : Nat) :
    Triple (fun s n => s = ⟨idx, freed⟩ ∧ n = n₀)
      (onGraph (Hnsw.insertM env idx.metric memory vector))
      (fun id s _ => ∃ g, s = ⟨{ idx with hnsw := g }, freed⟩ ∧
        idx.hnsw.insert env idx.metric vector = .ok (id, g) ∧
        Granted memory n₀ (Hnsw.nodeRequests (idx.hnsw.sampleLevel env)))
      (fun e s => ∃ t : Hnsw.GraphState, s = ⟨{ idx with hnsw := t.graph }, t.freed⟩ ∧
        Hnsw.InsertFails env memory ⟨idx.hnsw, freed⟩ vector n₀ e t) := by
  have hpart := Hnsw.insertM_spec env idx.metric memory ⟨idx.hnsw, freed⟩ vector n₀
  refine (Triple.onPart (t := (⟨idx, freed⟩ : IndexState)) hpart).imp (fun _ _ h => h) ?_
    (fun _ _ h => h)
  rintro id _ _ ⟨t, rfl, hok, hfreed, hgranted⟩
  exact ⟨t.graph, congrArg (IndexState.mk _) hfreed, hok, hgranted⟩

variable {idx : StoredIndex}

theorem appendM_spec (haligned : idx.Aligned) (freed : List Nat) (key : Bytes)
    (vector : F32Slice) (timestamp : UInt64) :
    Triple (fun s n => s = ⟨idx, freed⟩ ∧ n = 0) (appendM env memory key vector timestamp)
      (fun id s _ => idx.append env key vector timestamp = .ok (id, s.index) ∧ s.freed = freed)
      (AppendFails env memory idx vector) := by
  have hsplit : Granted memory 0 (idx.requestsToNode env) ↔ Granted memory 0 1 ∧
      Granted memory (0 + 1) (Hnsw.nodeRequests (idx.hnsw.sampleLevel env)) := granted_add
  refine Triple.bind (Triple.requests.imp (fun _ _ h => h) (fun _ _ _ h => h) fun e s h => ?_) fun _ => ?_
  · refine .early ⟨h.1, Hnsw.not_granted h.2.2⟩ (fun hall => h.2.2 (hsplit.mp hall).1) idx.hnsw.dim
      (.inl rfl) ?_
    rw [h.2.1]
  refine Triple.bind_get fun s n hs => ?_
  obtain ⟨rfl, rfl, hcopy⟩ := hs
  refine Triple.bind ((onGraph_insertM_spec env memory idx freed vector (0 + 1)).imp (fun _ _ h => h)
    (fun _ _ _ h => h) fun e s' h => ?_) fun nodeId => ?_
  · obtain ⟨t, rfl, hfail⟩ := h
    cases hfail with
    | mismatch hdim he ht => exact .mismatch hdim he (by rw [ht])
    | early hfits hout hrefused ht =>
      refine .early hout (fun hall => hrefused (hsplit.mp hall).2) vector.len ?_ (by rw [ht])
      by_contra hne
      exact hfits ⟨fun h => hne (.inr h), fun h => hne (.inl h)⟩
    | late hout hgranted hcount _ => exact .late hout (hsplit.mpr ⟨hcopy, hgranted⟩) hcount rfl
  refine Triple.of_each fun s₁ n₁ h₁ => ?_
  obtain ⟨g, rfl, hok, hnode⟩ := h₁
  have hcount := (Hnsw.inserted_of_insert env idx.metric hok).count
  refine Triple.bind (Q := fun _ s _ =>
    s = ⟨{ idx with hnsw := g, dim := some (idx.dim.getD vector.len) }, freed⟩) ?_ fun _ => ?_
  · exact Triple.modify fun _ _ h => h.1 ▸ rfl
  refine Triple.bind ((extendTables_spec memory key nodeId timestamp _).imp (fun _ _ h => h)
    (fun _ _ _ h => h) fun e s h => ?_) fun _ => Triple.pure fun s _ h => ?_
  · refine .late h.1 (hsplit.mpr ⟨hcopy, hnode⟩) ?_ h.2.2
    rw [h.2.1]
    exact hcount
  · subst h
    refine ⟨?_, rfl⟩
    rw [append, hok]
    dsimp only
    rw [hcount, resizeBits_succ haligned.tombstones]

/-! ## Runs -/

/-- What every operation keeps; a graph without a dimension has no nodes to search. -/
structure Sound (idx : StoredIndex) : Prop where
  aligned : idx.Aligned
  unfrozen : idx.hnsw.dim = 0 → idx.hnsw.entryPoint = none

theorem Aligned.setTombstone (h : idx.Aligned) (id : Nat) : (idx.setTombstone id).Aligned :=
  ⟨h.keys, h.timestamps, length_set.trans h.tombstones⟩

theorem Sound.setTombstone (h : idx.Sound) (id : Nat) : (idx.setTombstone id).Sound :=
  ⟨h.aligned.setTombstone id, h.unfrozen⟩

variable {key : Bytes} {vector : F32Slice} {timestamp : UInt64}

theorem Sound.append {idx' : StoredIndex} (h : idx.Sound) {id : Nat}
    (hok : idx.append env key vector timestamp = .ok (id, idx')) :
    idx'.Sound := by
  rw [StoredIndex.append] at hok
  split at hok
  · cases hok
  · rename_i nodeId g hins
    cases hok
    have hinserted := Hnsw.inserted_of_insert env idx.metric hins
    have hcount := hinserted.count
    have haligned := h.aligned
    refine ⟨⟨?_, ?_, ?_⟩, fun hdim => ?_⟩
    · simp only [length_append, length_singleton, haligned.keys, hcount]
    · simp only [length_append, length_singleton, haligned.timestamps, hcount]
    · simp only [length_append, length_singleton, haligned.tombstones, hcount]
    · exact absurd (hinserted.dim.symm.trans hdim) (ne_of_gt vector.len_pos)

theorem Sound.insertLocked {idx idx' : StoredIndex} (h : idx.Sound) {key : Bytes} {vector : F32Slice}
    {timestamp : UInt64} {id : Nat} (hok : idx.insertLocked env key vector timestamp = .ok (id, idx')) :
    idx'.Sound := by
  rw [StoredIndex.insertLocked] at hok
  split at hok
  · cases hok
  split at hok
  · rename_i oldId _
    split at hok
    · exact h.append env hok
    split at hok
    · cases hok
      exact h
    split at hok
    · cases hok
      exact ⟨⟨h.aligned.keys, length_set.trans h.aligned.timestamps, h.aligned.tombstones⟩,
        h.unfrozen⟩
    · exact (h.setTombstone oldId).append env hok
  · exact h.append env hok

/-- How an insert runs out of memory. -/
inductive OutOfMemory (idx : StoredIndex) (key : Bytes) (vector : F32Slice) (timestamp : UInt64)
    (e : InsertError) (s : IndexState) : Prop
  | added (kept : ¬ idx.Replaces key vector timestamp) (fails : AppendFails env memory idx vector e s)
  | replaced (oldId : Nat) (replaces : idx.Replaces key vector timestamp)
      (fails : AppendFails env memory (idx.setTombstone oldId) vector e s)

theorem replaces_iff {oldId : Nat} (hget : idx.keyToNode.get key = some oldId) :
    idx.Replaces key vector timestamp ↔ idx.tombstones.getD oldId false = false ∧
      ¬ timestamp < idx.timestamps.getD oldId 0 ∧
      (idx.hnsw.nodes[oldId]?.map GraphNode.vector).getD [] ≠ vector.bytes := by
  constructor
  · rintro ⟨id, hid, h⟩
    rw [hget] at hid
    exact Option.some.inj hid ▸ h
  · exact fun h => ⟨oldId, hget, h⟩

/-- An insert that memory does not stop is the one of `StoredIndex`. -/
theorem insertLockedM_spec (haligned : idx.Aligned) (freed : List Nat)
    (key : Bytes) (vector : F32Slice) (timestamp : UInt64) :
    Triple (fun s n => s = ⟨idx, freed⟩ ∧ n = 0) (insertLockedM env memory key vector timestamp)
      (fun id s _ => idx.insertLocked env key vector timestamp = .ok (id, s.index) ∧ s.freed = freed)
      (fun e s => e = .outOfMemory → OutOfMemory env memory idx key vector timestamp e s) := by
  have happend : ¬ idx.Replaces key vector timestamp →
      Triple (fun s n => s = ⟨idx, freed⟩ ∧ n = 0) (appendM env memory key vector timestamp)
        (fun id s _ => idx.append env key vector timestamp = .ok (id, s.index) ∧ s.freed = freed)
        (fun e s => e = .outOfMemory → OutOfMemory env memory idx key vector timestamp e s) :=
    fun hkept => (appendM_spec env memory haligned freed key vector timestamp).imp (fun _ _ h => h)
      (fun _ _ _ h => h) fun e s h _ => .added hkept h
  refine Triple.bind_get fun s n hs => ?_
  obtain ⟨rfl, rfl⟩ := hs
  rw [StoredIndex.insertLocked]
  refine Triple.ite (fun hdim => Triple.throw fun _ _ _ h => by cases h) fun hdim => ?_
  rw [if_neg hdim]
  cases hget : idx.keyToNode.get key with
  | none =>
    refine happend fun hreplaces => ?_
    obtain ⟨_, hid, -⟩ := hreplaces
    cases hget.symm.trans hid
  | some oldId =>
    dsimp only
    refine Triple.ite (fun htomb => ?_) fun htomb => ?_
    · rw [if_pos htomb]
      refine happend fun hreplaces => ?_
      exact Bool.false_ne_true (((replaces_iff hget).mp hreplaces).1.symm.trans htomb)
    rw [if_neg htomb]
    refine Triple.ite (fun hstale => ?_) fun hstale => ?_
    · rw [if_pos hstale]
      exact Triple.pure fun _ _ h => h.1 ▸ ⟨rfl, rfl⟩
    rw [if_neg hstale]
    refine Triple.ite (fun hsame => ?_) fun hsame => ?_
    · rw [if_pos hsame]
      refine Triple.bind (Q := fun _ s _ => s = ⟨idx.setTimestamp oldId timestamp, freed⟩) ?_ fun _ => ?_
      · exact Triple.modify fun _ _ h => h.1 ▸ rfl
      · exact Triple.pure fun _ _ h => h ▸ ⟨rfl, rfl⟩
    rw [if_neg hsame]
    have hreplaces := (replaces_iff hget).mpr ⟨Bool.eq_false_iff.mpr htomb, hstale, hsame⟩
    refine Triple.bind (Q := fun _ s n => s = ⟨idx.setTombstone oldId, freed⟩ ∧ n = 0) ?_ fun _ => ?_
    · exact Triple.modify fun _ _ h => ⟨h.1 ▸ rfl, h.2⟩
    · exact (appendM_spec env memory (haligned.setTombstone oldId) freed key vector timestamp).imp
        (fun _ _ h => h) (fun _ _ _ h => h) fun e s h _ => .replaced oldId hreplaces h

/-- The indexes that operations which succeed lead to. -/
inductive Reached : StoredIndex → Prop
  | init (params : HnswParams) (m : Metric) : Reached (StoredIndex.init params m)
  | insertLocked {idx : StoredIndex} {memory : Nat → Bool} {key : Bytes} {vector : F32Slice}
      {timestamp : UInt64} {id n : Nat} {s : IndexState} (h : Reached idx)
      (hrun : (insertLockedM env memory key vector timestamp).run ⟨idx, []⟩ 0 = ⟨.ok id, s, n⟩) :
      Reached s.index
  | markTombstoneLocked {idx : StoredIndex} (h : Reached idx) (key : Bytes) :
      Reached (idx.markTombstoneLocked key).2
  | clearLocked {idx : StoredIndex} (h : Reached idx) : Reached idx.clearLocked
  | setRabitqParams {idx : StoredIndex} (h : Reached idx) (params : RabitqParams) :
      Reached { idx with rabitqParams := some params }

theorem Reached.sound (h : Reached env idx) : idx.Sound := by
  induction h with
  | init params m => exact ⟨⟨rfl, rfl, rfl⟩, fun _ => rfl⟩
  | @insertLocked idx memory key vector timestamp id n s _ hrun ih =>
    have hends := insertLockedM_spec env memory ih.aligned [] key vector timestamp _ _ ⟨rfl, rfl⟩
    rw [hrun] at hends
    exact ih.insertLocked env hends.1
  | @markTombstoneLocked idx _ key ih =>
    rw [StoredIndex.markTombstoneLocked]
    split
    · exact ih
    split
    · exact ih
    · exact ih.setTombstone _
  | clearLocked _ _ => exact ⟨⟨rfl, rfl, rfl⟩, fun _ => rfl⟩
  | setRabitqParams _ _ ih => exact ⟨⟨ih.aligned.keys, ih.aligned.timestamps, ih.aligned.tombstones⟩, ih.unfrozen⟩

/-- The dimension of a graph that has none decides no search. -/
theorem search_dim (h : idx.Sound) {dim : Nat}
    (hfits : dim = idx.hnsw.dim ∨ idx.hnsw.dim = 0) (query : F32Slice) (k ef : Nat) :
    searchLocked env { idx with hnsw := { idx.hnsw with dim := dim } } query k ef =
      idx.searchLocked env query k ef := by
  rcases hfits with rfl | hzero
  · rfl
  · rw [searchLocked, searchLocked, Hnsw.search, Hnsw.search]
    simp only [h.unfrozen hzero]

/-- **When a failed insert can be told from none.** -/
theorem failed_insert_atomic_iff {idx : StoredIndex} (h : Reached env idx) {key : Bytes}
    {vector : F32Slice} {timestamp : UInt64} {s : IndexState} {n : Nat}
    (hrun : (insertLockedM env memory key vector timestamp).run ⟨idx, []⟩ 0 =
      ⟨.error .outOfMemory, s, n⟩) :
    Unchanged env idx s.index ↔
      ¬ idx.Replaces key vector timestamp ∧ ¬ Granted memory 0 (idx.requestsToNode env) := by
  have hsound := h.sound
  have hends := insertLockedM_spec env memory hsound.aligned [] key vector timestamp _ _ ⟨rfl, rfl⟩
  rw [hrun] at hends
  have hlonger : ∀ {base : StoredIndex}, base.Aligned →
      s.index.hnsw.nodes.length = base.hnsw.nodes.length + 1 → s.index.keys = base.keys →
      ¬ Unchanged env idx s.index := by
    intro base haligned hnodes hkeys hsame
    have hlength := hsame.aligned.keys
    rw [hkeys, hnodes, haligned.keys] at hlength
    omega
  cases hends rfl with
  | added hkept hfails =>
    cases hfails with
    | mismatch _ herror _ => cases herror
    | early _ hrefused dim hfits hsame =>
      refine ⟨fun _ => ⟨hkept, hrefused⟩, fun _ => ?_⟩
      rw [hsame]
      exact ⟨fun _ => rfl, rfl, rfl, rfl, search_dim env hsound hfits,
        hsound.aligned.keys, hsound.aligned.timestamps, hsound.aligned.tombstones⟩
    | late _ hgranted hnodes hkeys =>
      exact ⟨fun hsame => absurd hsame (hlonger hsound.aligned hnodes hkeys),
        fun hcond => absurd hgranted hcond.2⟩
  | replaced oldId hreplaces hfails =>
    refine ⟨fun hsame => ?_, fun hcond => absurd hreplaces hcond.1⟩
    cases hfails with
    | mismatch _ herror _ => cases herror
    | early _ _ dim _ hindex =>
      -- the count says that one more node is deleted
      have hcount := hsame.tombstoneCount
      rw [hindex] at hcount
      exact absurd hcount (Nat.succ_ne_self _)
    | late _ _ hnodes hkeys =>
      exact absurd hsame (hlonger (hsound.aligned.setTombstone oldId) hnodes hkeys)

end

/-! ## Failures -/

/-- All distances are the same and all nodes are on the lowest level. -/
def flatEnv : HnswEnv Unit := ⟨fun _ _ _ => (), fun _ _ => false, (), fun _ => 0⟩

def zero : F32Slice := ⟨[0, 0, 0, 0], by decide, by decide⟩
def one : F32Slice := ⟨[0, 0, 128, 63], by decide, by decide⟩

/-- An index with one vector. -/
def single : Outcome InsertError IndexState Nat :=
  (insertLockedM flatEnv (fun _ => true) [1] zero 1).run
    ⟨StoredIndex.init HnswParams.default .cosine, []⟩ 0

/-- Nothing is left of an insert of a second key that has memory for the copy of the key only. -/
theorem failed_insert_atomic_second :
    single.state.index.live [1] = some zero.bytes ∧
      ∃ s n, (insertLockedM flatEnv (fun i => decide (i < 1)) [2] one 2).run
          ⟨single.state.index, []⟩ 0 = ⟨.error .outOfMemory, s, n⟩ ∧
        Unchanged flatEnv single.state.index s.index := by
  have hsingle : single = ⟨.ok 0, single.state, single.next⟩ := rfl
  obtain ⟨s, n, hrun⟩ : ∃ s n, (insertLockedM flatEnv (fun i => decide (i < 1)) [2] one 2).run
      ⟨single.state.index, []⟩ 0 = ⟨.error .outOfMemory, s, n⟩ := ⟨_, _, rfl⟩
  refine ⟨rfl, s, n, hrun, (failed_insert_atomic_iff flatEnv _
    (.insertLocked (.init _ _) hsingle) hrun).mpr ⟨?_, ?_⟩⟩
  · rintro ⟨oldId, hget, -⟩
    cases hget
  · exact fun hall => absurd (hall 1 (by decide)) (by decide)

/-- The version that the insert would have replaced is gone, when there is no memory for the copy
of the key; and when there is none to link a new node, the graph has one more than the tables. -/
theorem failed_insert_changes :
    Reached flatEnv single.state.index ∧ single.state.index.live [1] = some zero.bytes ∧
      (∃ s n, (insertLockedM flatEnv (fun _ => false) [1] one 2).run ⟨single.state.index, []⟩ 0 =
        ⟨.error .outOfMemory, s, n⟩ ∧ s.index.live [1] = none ∧
        ¬ Unchanged flatEnv single.state.index s.index) ∧
      ∃ s n, (insertLockedM flatEnv (fun i => decide (i < 5)) [2] one 2).run
          ⟨single.state.index, []⟩ 0 = ⟨.error .outOfMemory, s, n⟩ ∧
        s.index.hnsw.nodes.length = 2 ∧ s.index.keys.length = 1 ∧ s.freed = [1] := by
  have hsingle : single = ⟨.ok 0, single.state, single.next⟩ := rfl
  refine ⟨.insertLocked (.init _ _) hsingle, rfl, ⟨_, _, rfl, ?_⟩, _, _, rfl, ?_⟩
  · refine ⟨rfl, fun hsame => ?_⟩
    have hlive := hsame.live [1]
    cases hlive
  · exact ⟨rfl, rfl, rfl⟩

end StoredIndex
end WormDB
