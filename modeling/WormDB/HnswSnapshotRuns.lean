import WormDB.HnswSnapshot

/-! # Snapshots of the indexes a run has left

Whatever holds of an empty index and is kept by inserting, by deleting and by putting inserts
into the queue holds of every index that the operations of a node ever leave.  What a
snapshot's trailer needs of the tables is such a property, so that in every state of every run
the trailer restores the indexes exactly when every node resolves (`trailer_restores`).  A key
that is deleted leaves a node that does not (`deleted_key_not_restored`). -/
namespace WormDB
open List ByteCodec PrefixMap NamespaceRegistry VectorOps
open AsyncIndexing (modifyIndex queueOf)

/-- A property of indexes that the operations keep. -/
structure IndexClosed (P : NamespaceIndex → Prop) : Prop where
  init : ∀ m, P (NamespaceIndex.init m)
  insert : ∀ {idx idx' : NamespaceIndex} {key : Bytes} {v : F32Slice} {timestamp : UInt64} {id : Nat},
    P idx → idx.insertLocked key v timestamp = .ok (id, idx') → P idx'
  mark : ∀ {idx : NamespaceIndex}, P idx → ∀ key, P (idx.markTombstoneLocked key).2
  queue : ∀ {idx : NamespaceIndex}, P idx → ∀ asyncMode pending,
    P { idx with asyncMode := asyncMode, pending := pending }

/-- The node has a registry, and every index of it has the property. -/
def Every (P : NamespaceIndex → Prop) (s : Node) : Prop :=
  ∃ reg, s.registry = some reg ∧ ∀ entry ∈ reg.entries, P entry.2

namespace IndexClosed
variable {P : NamespaceIndex → Prop} (hP : IndexClosed P)
include hP

variable {idx : NamespaceIndex}

theorem tryInsertLocked (h : P idx) (key : Bytes) (v : F32Slice)
    (timestamp : UInt64) : P (idx.tryInsertLocked key v timestamp) := by
  rw [NamespaceIndex.tryInsertLocked]
  split
  · exact h
  · rename_i hok
    exact hP.insert h hok

theorem refresh (rabitqEncode : Metric → RabitqParams → F32Slice → Bytes)
    (h : P idx) (node : VectorNode) (key value : Bytes) (timestamp : UInt64) :
    P (NamespaceRegistry.refresh rabitqEncode idx node key value timestamp).2 := by
  rw [NamespaceRegistry.refresh]
  split
  · exact h
  split
  · split
    · split
      · rename_i hok
        exact hP.insert h hok
      · exact hP.mark h key
    · exact hP.mark h key
  · exact hP.mark h key

theorem adopt (rabitqEncode : Metric → RabitqParams → F32Slice → Bytes)
    (h : P idx) (key value : Bytes) (timestamp : UInt64) :
    P (NamespaceRegistry.adopt rabitqEncode idx key value timestamp).2 := by
  rw [NamespaceRegistry.adopt]
  split
  · split
    · split
      · split
        · rename_i hok
          exact hP.insert h hok
        · exact h
      · exact h
    · exact h
  · exact h

variable {reg : NamespaceRegistry}

omit hP in
theorem mapEntries (h : ∀ entry ∈ reg.entries, P entry.2)
    {f : Bytes → NamespaceIndex → NamespaceIndex} (hf : ∀ ns idx, P idx → P (f ns idx)) :
    ∀ entry ∈ (reg.mapEntries f).entries, P entry.2 := by
  intro entry hmem
  obtain ⟨old, hold, rfl⟩ := mem_map.mp hmem
  exact hf old.1 old.2 (h old hold)

section
variable (h : ∀ entry ∈ reg.entries, P entry.2)
include h

omit hP in
theorem modify (ns : Bytes) {f : NamespaceIndex → NamespaceIndex} (hf : ∀ idx, P idx → P (f idx)) :
    ∀ entry ∈ (reg.modify ns f).entries, P entry.2 := by
  refine mapEntries h (fun n idx hidx => ?_)
  split
  · exact hf idx hidx
  · exact hidx

theorem getOrCreate {reg' : NamespaceRegistry} {ns : Bytes}
    {m : Metric} (hok : reg.getOrCreate ns m = .ok reg') : ∀ entry ∈ reg'.entries, P entry.2 := by
  rw [NamespaceRegistry.getOrCreate] at hok
  split at hok
  · split at hok
    · cases hok
    · cases hok
      exact h
  · cases hok
    rw [create]
    split
    · exact h
    · intro entry hmem
      rcases mem_append.mp hmem with hold | hnew
      · exact h entry hold
      · obtain rfl := mem_singleton.mp hnew
        exact hP.init m

theorem syncRawDelete (key : Bytes) : ∀ entry ∈ (reg.syncRawDelete key).2.entries, P entry.2 := by
  rw [NamespaceRegistry.syncRawDelete]
  split
  · refine mapEntries h (fun ns idx hidx => ?_)
    split
    · exact hP.mark hidx key
    · exact hidx
  · exact h

end

theorem syncRawSetWithBq (rabitqEncode : Metric → RabitqParams → F32Slice → Bytes)
    (h : ∀ entry ∈ reg.entries, P entry.2) (key value : Bytes)
    (timestamp : UInt64) :
    ∀ entry ∈ (reg.syncRawSetWithBq rabitqEncode key value timestamp).2.entries, P entry.2 := by
  have hrefresh : ∀ entry ∈ (reg.mapEntries (refreshEntry rabitqEncode key value timestamp)).entries,
      P entry.2 := by
    refine mapEntries h (fun ns idx hidx => ?_)
    rw [refreshEntry]
    split
    · split
      · exact hP.refresh rabitqEncode hidx _ key value timestamp
      · exact hidx
    · exact hidx
  rw [NamespaceRegistry.syncRawSetWithBq]
  split
  · dsimp only
    split
    · exact hrefresh
    split
    · exact modify hrefresh _ (fun idx hidx => hP.adopt rabitqEncode hidx key value timestamp)
    · exact hrefresh
  · exact h

end IndexClosed

/-! ## The operations of a node -/

namespace Every
variable {P : NamespaceIndex → Prop} {s s' : Node} (env : NodeEnv)

theorem of_registry (h : Every P s) (heq : s'.registry = s.registry) : Every P s' := by
  obtain ⟨reg, hreg, hall⟩ := h
  exact ⟨reg, heq.trans hreg, hall⟩

theorem write (h : Every P s) (key value : Bytes) (isWorm : Bool) (timestamp : UInt64) :
    Every P (s.setWithTimestampNoVectorSync env key value isWorm timestamp).2 :=
  h.of_registry (Node.write_registry s key value isWorm timestamp)

theorem remove (h : Every P s) (key : Bytes) : Every P (s.remove env key).2 :=
  h.of_registry (s.remove_registry key)

section
variable (h : Every P s)
include h

theorem publish (channel message : Bytes) : Every P (s.publish channel message) :=
  h.of_registry rfl

theorem replicate (wanted : Bool) (frame : Command) : Every P (s.replicate env wanted frame) := by
  rw [Node.replicate]
  split
  · exact h
  · exact h

theorem persistNamespaceConfig (ns : Bytes) (metric : Metric) (timestamp : UInt64) :
    Every P (VectorOps.persistNamespaceConfig env s ns metric timestamp) := by
  rw [VectorOps.persistNamespaceConfig]
  split
  · exact h
  · exact h.write env _ _ _ _

theorem storeItems (ns : Bytes) (worm : Bool) (items : List BulkItem)
    (acc : Option Nat) : Every P (items.foldl (storeItem env ns worm) (acc, s)).2 := by
  induction items generalizing acc s with
  | nil => exact h
  | cons item rest ih =>
    rw [foldl_cons]
    have hitem : Every P (storeItem env ns worm (acc, s) item).2 := by
      have hwrite := h.write env item.key item.vector worm item.timestamp
      rw [storeItem]
      split
      · exact h
      split
      · exact h
      dsimp only
      generalize s.setWithTimestampNoVectorSync env item.key item.vector worm item.timestamp = r
        at hwrite ⊢
      rcases r with ⟨_ | _, s'⟩
      · exact hwrite
      · exact hwrite.write env _ _ _ _
    generalize storeItem env ns worm (acc, s) item = r at hitem ⊢
    obtain ⟨acc', s'⟩ := r
    exact ih hitem acc'

theorem publishItems (channel : Bytes) (items : List BulkItem) :
    Every P (items.foldl (fun s item => s.publish channel item.key) s) := by
  induction items generalizing s with
  | nil => exact h
  | cons item rest ih => exact ih (h.publish channel item.key)

theorem mapRegistry {f : NamespaceRegistry → NamespaceRegistry}
    (hf : ∀ reg : NamespaceRegistry, (∀ entry ∈ reg.entries, P entry.2) →
      ∀ entry ∈ (f reg).entries, P entry.2) : Every P { s with registry := s.registry.map f } := by
  obtain ⟨reg, hreg, hall⟩ := h
  exact ⟨f reg, by rw [hreg]; rfl, hf reg hall⟩

end

variable (hP : IndexClosed P)
include hP

theorem setWithTimestamp (h : Every P s) (key value : Bytes) (isWorm : Bool) (timestamp : UInt64) :
    Every P (s.setWithTimestamp env key value isWorm timestamp).2 := by
  have hwrite := h.write env key value isWorm timestamp
  rw [Node.setWithTimestamp]
  generalize s.setWithTimestampNoVectorSync env key value isWorm timestamp = r at hwrite ⊢
  rcases r with ⟨_ | _, s'⟩
  · exact hwrite
  dsimp only at hwrite ⊢
  rw [Node.withRegistry]
  obtain ⟨reg, hreg, hall⟩ := hwrite
  rw [hreg]
  dsimp only
  split
  · rw [Node.syncVectorSetWithRegistry]
    have hsync : Every P { s' with registry := some (reg.syncRawSetWithBq env.rabitqEncode key value
        timestamp).2 } :=
      ⟨_, rfl, hP.syncRawSetWithBq env.rabitqEncode hall key value timestamp⟩
    split
    · exact hsync
    · exact hsync.write env _ _ _ _
    · exact hsync.remove env _
  · exact ⟨reg, hreg, hall⟩

theorem delete (h : Every P s) (key : Bytes) : Every P (s.delete env key).2 := by
  have hremove := h.remove env key
  rw [Node.delete]
  generalize s.remove env key = r at hremove ⊢
  rcases r with ⟨_ | (_ | _), s'⟩
  · exact hremove
  · exact hremove
  dsimp only at hremove ⊢
  rw [Node.withRegistry]
  obtain ⟨reg, hreg, hall⟩ := hremove
  rw [hreg]
  dsimp only
  split
  · rw [Node.syncVectorDeleteWithRegistry]
    have hsync : Every P { s' with registry := some (reg.syncRawDelete key).2 } :=
      ⟨_, rfl, hP.syncRawDelete hall key⟩
    split
    · exact hsync.remove env _
    · exact hsync
  · exact ⟨reg, hreg, hall⟩

theorem updateRegistry (h : Every P s) (ns : Bytes) (metric : Metric)
    {f : NamespaceIndex → NamespaceIndex} (hf : ∀ idx, P idx → P (f idx)) :
    Every P (VectorOps.updateRegistry s ns metric f) := by
  obtain ⟨reg, hreg, hall⟩ := h
  rw [VectorOps.updateRegistry, hreg]
  dsimp only
  split
  · exact ⟨reg, hreg, hall⟩
  · rename_i reg' hok
    exact ⟨_, rfl, IndexClosed.modify (hP.getOrCreate hall hok) ns hf⟩

omit hP in
theorem updateIndex {idx : NamespaceIndex} (hP : IndexClosed P) (h : P idx) (isAsync : Bool)
    {enqueue insert : NamespaceIndex → NamespaceIndex} (henqueue : ∀ idx, P idx → P (enqueue idx))
    (hinsert : ∀ idx, P idx → P (insert idx)) :
    P (VectorOps.updateIndex idx isAsync enqueue insert) := by
  have hmode : P (if isAsync && !idx.asyncMode then idx.enableAsyncMode else idx) := by
    split
    · exact hP.queue h true idx.pending
    · exact h
  rw [VectorOps.updateIndex]
  generalize (if isAsync && !idx.asyncMode then idx.enableAsyncMode else idx) = idx' at hmode ⊢
  split
  · exact henqueue idx' hmode
  · exact hinsert idx' hmode

theorem applyVinsert (h : Every P s) (args : VinsertArgs) : Every P (VectorOps.applyVinsert env s args).2 := by
  have hwrite := h.write env args.key args.vector args.worm args.timestamp
  rw [VectorOps.applyVinsert]
  split
  · exact h
  rename_i v _
  split
  · exact h
  split
  · exact h
  generalize s.setWithTimestampNoVectorSync env args.key args.vector args.worm args.timestamp = r
    at hwrite ⊢
  rcases r with ⟨_ | _, s'⟩
  · exact hwrite
  dsimp only at hwrite ⊢
  rw [finishVinsert]
  have hside := (hwrite.persistNamespaceConfig env args.namespace args.metric args.timestamp).write env
    (bqKey args.key) (encodeBqOwned env v (indexOf (VectorOps.persistNamespaceConfig env s'
      args.namespace args.metric args.timestamp) args.namespace)) args.worm args.timestamp
  have hupdated := hside.updateRegistry hP args.namespace args.metric (fun idx hidx =>
    updateIndex hP hidx args.isAsync
      (fun idx hidx => hP.queue hidx idx.asyncMode
        (idx.pending ++ [⟨args.key, args.vector, args.timestamp⟩]))
      (fun idx hidx => hP.tryInsertLocked hidx args.key v args.timestamp))
  exact (hupdated.publish _ _).replicate env _ _

theorem applyVbulkinsert (h : Every P s) (ns : Bytes) (metric : Metric) (worm isAsync : Bool)
    (items : List BulkItem) (wanted : Bool) :
    Every P (VectorOps.applyVbulkinsert env s ns metric worm isAsync items wanted).2 := by
  rw [VectorOps.applyVbulkinsert.eq_def]
  split
  · exact h
  rename_i first rest
  split
  · exact h
  have hinsert : ∀ (items : List BulkItem) (idx : NamespaceIndex), P idx →
      P (items.foldl insertItem idx) := by
    intro items
    induction items with
    | nil => exact fun _ hidx => hidx
    | cons item rest ih =>
      intro idx hidx
      refine ih _ ?_
      rw [insertItem]
      split
      · exact hidx
      · exact hP.tryInsertLocked hidx _ _ _
  have hstored := (h.persistNamespaceConfig env ns metric first.timestamp).storeItems env ns worm
    (first :: rest) none
  have hupdated := hstored.updateRegistry hP ns metric (fun idx hidx =>
    updateIndex hP hidx isAsync
      (fun idx hidx => hP.queue hidx idx.asyncMode (idx.pending ++
        (first :: rest).map (fun item => ⟨item.key, item.vector, item.timestamp⟩)))
      (hinsert (first :: rest)))
  exact (hupdated.publishItems _ _).replicate env _ _

theorem applyVdelete (h : Every P s) (key ns : Bytes) (wanted : Bool) :
    Every P (VectorOps.applyVdelete env s key ns wanted).2 := by
  have hdelete := h.delete env hP key
  rw [VectorOps.applyVdelete]
  split
  · exact h
  generalize s.delete env key = r at hdelete ⊢
  rcases r with ⟨_ | _, s₁⟩
  · exact hdelete
  dsimp only at hdelete ⊢
  have hcompanion := hdelete.delete env hP (bqKey key)
  generalize s₁.delete env (bqKey key) = r at hcompanion ⊢
  obtain ⟨result, s₂⟩ := r
  have hmarked : Every P { s₂ with registry := s₂.registry.map (fun reg : NamespaceRegistry =>
      reg.modify ns (fun idx => (idx.markTombstoneLocked key).2)) } :=
    hcompanion.mapRegistry (fun _ hall => IndexClosed.modify hall ns (fun _ hidx => hP.mark hidx key))
  split
  · rename_i heq
    cases heq
    exact hcompanion
  · rename_i heq
    cases heq
    exact (hmarked.publish _ _).replicate env _ _

end Every

/-! ## Runs -/

namespace HnswSnapshotRuns

/-- A node, and what the worker of each namespace has taken and not inserted yet. -/
structure State where
  node : Node
  scratch : Bytes → List PendingInsert

/-- A call on the node, or one of the two halves of a worker's turn. -/
inductive Act where
  | vinsert (args : VinsertArgs)
  | vbulkinsert («namespace» : Bytes) (metric : Metric) (worm isAsync : Bool) (items : List BulkItem)
      (replicate : Bool)
  | vdelete (key «namespace» : Bytes) (replicate : Bool)
  | set (key value : Bytes) (isWorm : Bool)
  | setWithTimestamp (key value : Bytes) (isWorm : Bool) (timestamp : UInt64)
  | del (key : Bytes)
  | swap («namespace» : Bytes)
  | drain («namespace» : Bytes)

def step (env : NodeEnv) (s : State) : Act → State
  | .vinsert args => { s with node := (applyVinsert env s.node args).2 }
  | .vbulkinsert ns metric worm isAsync items replicate =>
      { s with node := (applyVbulkinsert env s.node ns metric worm isAsync items replicate).2 }
  | .vdelete key ns replicate => { s with node := (applyVdelete env s.node key ns replicate).2 }
  | .set key value isWorm => { s with node := (s.node.set env key value isWorm).2 }
  | .setWithTimestamp key value isWorm timestamp =>
      { s with node := (s.node.setWithTimestamp env key value isWorm timestamp).2 }
  | .del key => { s with node := (s.node.delete env key).2 }
  | .swap ns =>
      -- the worker is back at the head of its loop
      if s.scratch ns = [] then
        ⟨modifyIndex s.node ns (fun idx => { idx with pending := [] }),
          Function.update s.scratch ns (queueOf s.node ns)⟩
      else s
  | .drain ns =>
      ⟨modifyIndex s.node ns (fun idx => (s.scratch ns).foldl NamespaceIndex.drainItem idx),
        Function.update s.scratch ns []⟩

def run (env : NodeEnv) (s : State) (acts : List Act) : State := acts.foldl (step env) s

/-- A node that has no index yet, over any store. -/
def start (kv : Kv) : State := ⟨⟨kv, some ⟨[], nodup_nil⟩, [], [], [], 0⟩, fun _ => []⟩

/-- What the store has under the key. -/
def resolve (kv : Kv) (key : Bytes) : Option Bytes := (kv.get key).map Content.value

variable {P : NamespaceIndex → Prop}

theorem drainItems (hP : IndexClosed P) (items : List PendingInsert) {idx : NamespaceIndex} (h : P idx) :
    P (items.foldl NamespaceIndex.drainItem idx) := by
  induction items generalizing idx with
  | nil => exact h
  | cons item rest ih =>
    refine ih ?_
    rw [NamespaceIndex.drainItem]
    split
    · exact h
    · exact hP.tryInsertLocked h _ _ _

variable {s : State}

theorem every_step (hP : IndexClosed P) (env : NodeEnv) (h : Every P s.node) (act : Act) :
    Every P (step env s act).node := by
  cases act with
  | vinsert args => exact h.applyVinsert env hP args
  | vbulkinsert ns metric worm isAsync items replicate =>
    exact h.applyVbulkinsert env hP ns metric worm isAsync items replicate
  | vdelete key ns replicate => exact h.applyVdelete env hP key ns replicate
  | set key value isWorm => exact h.setWithTimestamp env hP key value isWorm _
  | setWithTimestamp key value isWorm timestamp =>
    exact h.setWithTimestamp env hP key value isWorm timestamp
  | del key => exact h.delete env hP key
  | swap ns =>
    rw [step]
    split
    · exact h.mapRegistry (fun _ hall => IndexClosed.modify hall ns (fun idx hidx =>
        hP.queue hidx idx.asyncMode []))
    · exact h
  | drain ns =>
    exact h.mapRegistry (fun _ hall => IndexClosed.modify hall ns (fun _ hidx =>
      drainItems hP (s.scratch ns) hidx))

theorem every_run (hP : IndexClosed P) (env : NodeEnv) (h : Every P s.node)
    (acts : List Act) : Every P (run env s acts).node := by
  induction acts generalizing s with
  | nil => exact h
  | cons act acts ih => exact ih (every_step hP env h act)

theorem plain_closed : IndexClosed Plain where
  init m := ⟨NodeTable.shaped_empty, rfl⟩
  insert h hok := by
    obtain ⟨-, -, -, -, hparams⟩ := NamespaceIndex.insertLocked_ok hok
    refine ⟨?_, hparams.trans h.2⟩
    rw [NamespaceIndex.insertLocked] at hok
    split at hok
    · cases hok
    · rename_i hins
      cases hok
      exact h.1.insertLocked hins
  mark h key := ⟨h.1.markTombstoneLocked key, h.2⟩
  queue h _ _ := h

/-- **The trailer of a snapshot restores the indexes exactly when every node resolves**: in
every state of every run, when each node, deleted or not, has under its key a value of the
length of the namespace's vectors, and the numbers fit their fields. -/
theorem trailer_restores {D : Type} (graphEnv : HnswEnv D) (env : NodeEnv) (kv : Kv) (acts : List Act) :
    ∃ reg, (run env (start kv) acts).node.registry = some reg ∧
      (TrailerRestores graphEnv (resolve (run env (start kv) acts).node.kv) reg ↔
        Loadable (resolve (run env (start kv) acts).node.kv) reg) := by
  obtain ⟨reg, hreg, hplain⟩ := every_run plain_closed env
    (⟨_, rfl, nofun⟩ : Every Plain (start kv).node) acts
  exact ⟨reg, hreg, restores_iff graphEnv hplain _⟩

/-! A vector under `v:` that is deleted again. -/

def unitGraph : HnswEnv Unit := ⟨fun _ _ _ => (), fun _ _ => false, (), fun _ => 0⟩

def insertThenDelete : List Act :=
  [.vinsert ⟨ascii "v:a", VectorAgreement.one, false, ascii "v:", .cosine, 1, false, false⟩, .del (ascii "v:a")]

/-- **A deleted key is not restored, nor is anything else.**  Its node is still in the graph,
and the store has no value for it. -/
theorem deleted_key_not_restored :
    ∃ reg, (run VectorAgreement.calmEnv (start ByteMap.empty) insertThenDelete).node.registry = some reg ∧
      ¬ TrailerRestores unitGraph
        (resolve (run VectorAgreement.calmEnv (start ByteMap.empty) insertThenDelete).node.kv) reg := by
  generalize hs : (run VectorAgreement.calmEnv (start ByteMap.empty) insertThenDelete).node = s
  have hget : s.kv.get (ascii "v:a") = none := by
    rw [← hs]
    decide
  have hnode : s.registry.map (fun reg => reg.entries.map (fun entry =>
      entry.2.table.nodes.map VectorNode.key)) = some [[ascii "v:a"]] := by
    rw [← hs]
    decide
  obtain ⟨reg, hreg, hplain⟩ := every_run plain_closed VectorAgreement.calmEnv
    (⟨_, rfl, nofun⟩ : Every Plain (start ByteMap.empty).node) insertThenDelete
  rw [hs] at hreg
  refine ⟨reg, hreg, fun hrestores => ?_⟩
  have hload := (restores_iff unitGraph hplain _).mp hrestores
  rw [hreg, Option.map_some, Option.some.injEq] at hnode
  obtain ⟨entry, hentry, hkeys⟩ := mem_map.mp (hnode ▸ mem_singleton_self [ascii "v:a"])
  obtain ⟨node, hmem, hkey⟩ := mem_map.mp (hkeys ▸ mem_singleton_self (ascii "v:a"))
  obtain ⟨v, hv, -⟩ := (hload.indexes entry hentry).resolved node hmem
  rw [resolve, hkey, hget] at hv
  cases hv

end HnswSnapshotRuns
end WormDB
