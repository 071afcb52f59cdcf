import WormDB.VectorOps

/-! # What the operations of a node leave alone

Each operation of a node has a footprint: the keys whose entries may change, the keys whose
vectors may change, the namespaces whose parameters may, what may be published and what may
be sent.  Everything else is as before (`NodeFrame`); one lemma for each operation says so. -/
namespace WormDB
open List ByteCodec PrefixMap NamespaceRegistry

/-! ## Indexes -/

/-- Of an index that may not be there, what is kept of the vectors not in `vectors`. -/
structure IndexFrame (vectors : Bytes → Prop) (installs : Prop) (o o' : Option NamespaceIndex) :
    Prop where
  nodes : ∀ k, ¬ vectors k → o'.bind (fun idx => idx.nodeFor k) = o.bind (fun idx => idx.nodeFor k)
  pending : ∃ queued, (o'.map NamespaceIndex.pending).getD [] =
    (o.map NamespaceIndex.pending).getD [] ++ queued ∧ ∀ item ∈ queued, vectors item.key
  params : ¬ installs → o'.bind NamespaceIndex.rabitqParams = o.bind NamespaceIndex.rabitqParams

namespace IndexFrame
variable {vectors : Bytes → Prop} {installs : Prop} {o o' o'' : Option NamespaceIndex}

theorem refl (o : Option NamespaceIndex) : IndexFrame vectors installs o o :=
  ⟨fun _ _ => rfl, ⟨[], (append_nil _).symm, nofun⟩, fun _ => rfl⟩

theorem trans (h : IndexFrame vectors installs o o') (h' : IndexFrame vectors installs o' o'') :
    IndexFrame vectors installs o o'' := by
  obtain ⟨queued, hq, hkeys⟩ := h.pending
  obtain ⟨queued', hq', hkeys'⟩ := h'.pending
  refine ⟨fun k hk => (h'.nodes k hk).trans (h.nodes k hk), ⟨queued ++ queued', ?_, ?_⟩,
    fun hn => (h'.params hn).trans (h.params hn)⟩
  · rw [hq', hq, append_assoc]
  · intro item hitem
    rcases mem_append.mp hitem with hmem | hmem
    · exact hkeys item hmem
    · exact hkeys' item hmem

/-- The tables change for keys in `vectors`, nothing else does. -/
theorem of_sameConfig {idx idx' : NamespaceIndex} (hconfig : idx.SameConfig idx')
    (hnodes : ∀ k, ¬ vectors k → idx'.nodeFor k = idx.nodeFor k) :
    IndexFrame vectors installs (some idx) (some idx') := by
  obtain ⟨-, -, hpending, hparams⟩ := hconfig
  refine ⟨hnodes, ⟨[], ?_, nofun⟩, fun _ => hparams⟩
  simp only [Option.map_some, Option.getD_some, hpending, append_nil]

theorem map {f : NamespaceIndex → NamespaceIndex} (o : Option NamespaceIndex)
    (h : ∀ idx, IndexFrame vectors installs (some idx) (some (f idx))) :
    IndexFrame vectors installs o (o.map f) := by
  cases o with
  | none => exact refl none
  | some idx => exact h idx

theorem create (m : Metric) : IndexFrame vectors installs none (some (NamespaceIndex.init m)) :=
  ⟨fun _ _ => rfl, ⟨[], rfl, nofun⟩, fun _ => rfl⟩

theorem insertLocked {idx idx' : NamespaceIndex} {key : Bytes} {vector : F32Slice}
    {timestamp : UInt64} {id : Nat} (hkey : vectors key)
    (hok : idx.insertLocked key vector timestamp = .ok (id, idx')) :
    IndexFrame vectors installs (some idx) (some idx') := by
  obtain ⟨hins, hconfig⟩ := NamespaceIndex.insertLocked_ok hok
  exact of_sameConfig hconfig (fun k hk => hins.others k (fun heq => hk (heq ▸ hkey)))

variable {key : Bytes}

theorem tryInsertLocked (idx : NamespaceIndex) (vector : F32Slice)
    (timestamp : UInt64) (hkey : vectors key) :
    IndexFrame vectors installs (some idx) (some (idx.tryInsertLocked key vector timestamp)) := by
  rw [NamespaceIndex.tryInsertLocked]
  split
  · exact refl _
  · rename_i hok
    exact insertLocked hkey hok

theorem markTombstoneLocked (idx : NamespaceIndex) {key : Bytes} (hkey : vectors key) :
    IndexFrame vectors installs (some idx) (some (idx.markTombstoneLocked key).2) :=
  of_sameConfig ⟨rfl, rfl, rfl, rfl⟩
    (fun _ hk => idx.nodeFor_markTombstoneLocked_of_ne (fun heq => hk (heq ▸ hkey)))

variable (rabitqEncode : Metric → RabitqParams → F32Slice → Bytes)

theorem refresh (idx : NamespaceIndex) (node : VectorNode) (value : Bytes)
    (timestamp : UInt64) (hkey : vectors key) : IndexFrame vectors installs (some idx)
      (some (NamespaceRegistry.refresh rabitqEncode idx node key value timestamp).2) := by
  rw [NamespaceRegistry.refresh]
  split
  · exact refl _
  split
  · split
    · split
      · rename_i hok
        exact insertLocked hkey hok
      · exact markTombstoneLocked idx hkey
    · exact markTombstoneLocked idx hkey
  · exact markTombstoneLocked idx hkey

theorem adopt (idx : NamespaceIndex) (value : Bytes) (timestamp : UInt64) (hkey : vectors key) :
    IndexFrame vectors installs (some idx)
      (some (NamespaceRegistry.adopt rabitqEncode idx key value timestamp).2) := by
  rw [NamespaceRegistry.adopt]
  split
  · split
    · split
      · split
        · rename_i hok
          exact insertLocked hkey hok
        · exact refl _
      · exact refl _
    · exact refl _
  · exact refl _

end IndexFrame

/-! ## Registries -/

/-- The frame of every index. -/
def RegistryFrame (vectors params : Bytes → Prop) (reg reg' : NamespaceRegistry) : Prop :=
  ∀ ns, IndexFrame vectors (params ns) (reg.get ns) (reg'.get ns)

namespace RegistryFrame
variable {vectors params : Bytes → Prop} {reg reg' : NamespaceRegistry}

theorem refl (reg : NamespaceRegistry) : RegistryFrame vectors params reg reg :=
  fun _ => IndexFrame.refl _

theorem mapEntries {f : Bytes → NamespaceIndex → NamespaceIndex}
    (h : ∀ ns idx, IndexFrame vectors (params ns) (some idx) (some (f ns idx))) :
    RegistryFrame vectors params reg (reg.mapEntries f) := by
  intro ns
  rw [get_mapEntries]
  exact IndexFrame.map _ (h ns)

variable {ns : Bytes}

theorem modify {f : NamespaceIndex → NamespaceIndex}
    (h : ∀ idx, IndexFrame vectors (params ns) (some idx) (some (f idx))) :
    RegistryFrame vectors params reg (reg.modify ns f) := by
  refine mapEntries (fun n idx => ?_)
  split
  · rename_i hn
    subst hn
    exact h idx
  · exact IndexFrame.refl _

theorem getOrCreate {m : Metric} (hok : reg.getOrCreate ns m = .ok reg') :
    RegistryFrame vectors params reg reg' := by
  rw [NamespaceRegistry.getOrCreate] at hok
  split at hok
  · split at hok
    · cases hok
    · cases hok
      exact refl reg
  · rename_i hnone
    cases hok
    intro n
    by_cases hn : n = ns
    · subst hn
      rw [hnone, get_create_self hnone]
      exact IndexFrame.create m
    · rw [get_create_of_ne _ _ hn]
      exact IndexFrame.refl _

variable {key : Bytes}

theorem syncRawDelete (reg : NamespaceRegistry) (hkey : vectors key) :
    RegistryFrame vectors params reg (reg.syncRawDelete key).2 := by
  rw [NamespaceRegistry.syncRawDelete]
  split
  · refine mapEntries (fun ns idx => ?_)
    split
    · exact IndexFrame.markTombstoneLocked idx hkey
    · exact IndexFrame.refl _
  · exact refl reg

theorem syncRawSetWithBq (rabitqEncode : Metric → RabitqParams → F32Slice → Bytes)
    (reg : NamespaceRegistry) (value : Bytes) (timestamp : UInt64) (hkey : vectors key) :
    RegistryFrame vectors params reg (reg.syncRawSetWithBq rabitqEncode key value timestamp).2 := by
  have hrefresh : RegistryFrame vectors params reg
      (reg.mapEntries (refreshEntry rabitqEncode key value timestamp)) := by
    refine mapEntries (fun ns idx => ?_)
    rw [refreshEntry]
    split
    · split
      · exact IndexFrame.refresh rabitqEncode idx _ value timestamp hkey
      · exact IndexFrame.refl _
    · exact IndexFrame.refl _
  rw [NamespaceRegistry.syncRawSetWithBq]
  split
  · dsimp only
    split
    · exact hrefresh
    split
    · intro ns
      refine (hrefresh ns).trans ?_
      exact modify (fun idx => IndexFrame.adopt rabitqEncode idx value timestamp hkey) ns
    · exact hrefresh
  · exact refl reg

end RegistryFrame

/-! ## Nodes -/

/-- What an operation may touch. -/
structure Footprint where
  keys : Bytes → Prop
  vectors : Bytes → Prop
  params : Bytes → Prop
  events : Bytes × Bytes → Prop
  frames : Command → Prop

/-- Nothing outside the footprint has changed. -/
structure NodeFrame (fp : Footprint) (s s' : Node) : Prop where
  kv : ∀ k, ¬ fp.keys k → s'.kv.get k = s.kv.get k
  index : ∀ ns, IndexFrame fp.vectors (fp.params ns) (VectorOps.indexOf s ns) (VectorOps.indexOf s' ns)
  events : ∃ published, s'.events = s.events ++ published ∧ ∀ e ∈ published, fp.events e
  outbox : ∃ sent, s'.outbox = s.outbox ++ sent ∧ ∀ c ∈ sent, fp.frames c
  snapshots : s'.snapshots = s.snapshots

namespace NodeFrame
open VectorOps
variable {fp : Footprint} {s s' s'' : Node} (env : NodeEnv)

theorem refl (s : Node) : NodeFrame fp s s where
  kv _ _ := rfl
  index _ := IndexFrame.refl _
  events := ⟨[], (append_nil _).symm, nofun⟩
  outbox := ⟨[], (append_nil _).symm, nofun⟩
  snapshots := rfl

theorem trans (h : NodeFrame fp s s') (h' : NodeFrame fp s' s'') : NodeFrame fp s s'' := by
  obtain ⟨published, hp, hpe⟩ := h.events
  obtain ⟨published', hp', hpe'⟩ := h'.events
  obtain ⟨sent, hs, hse⟩ := h.outbox
  obtain ⟨sent', hs', hse'⟩ := h'.outbox
  refine ⟨fun k hk => (h'.kv k hk).trans (h.kv k hk), fun ns => (h.index ns).trans (h'.index ns),
    ⟨published ++ published', ?_, ?_⟩, ⟨sent ++ sent', ?_, ?_⟩, h'.snapshots.trans h.snapshots⟩
  · rw [hp', hp, append_assoc]
  · intro e he
    exact (mem_append.mp he).elim (hpe e) (hpe' e)
  · rw [hs', hs, append_assoc]
  · intro c hc
    exact (mem_append.mp hc).elim (hse c) (hse' c)

/-- The store changed where it may, and nothing else did. -/
theorem of_kv {kv : Kv} (n : Nat) (hkv : ∀ k, ¬ fp.keys k → kv.get k = s.kv.get k) :
    NodeFrame fp s { s with kv := kv, accesses := n } :=
  ⟨hkv, fun _ => IndexFrame.refl _, ⟨[], (append_nil _).symm, nofun⟩,
    ⟨[], (append_nil _).symm, nofun⟩, rfl⟩

variable {key : Bytes}

theorem setWithTimestampNoVectorSync (s : Node) (value : Bytes) (isWorm : Bool)
    (timestamp : UInt64) (hkey : fp.keys key) :
    NodeFrame fp s (s.setWithTimestampNoVectorSync env key value isWorm timestamp).2 := by
  rw [Node.setWithTimestampNoVectorSync]
  dsimp only
  split
  · exact of_kv _ (fun _ _ => rfl)
  split
  · exact of_kv _ (fun _ _ => rfl)
  · exact of_kv _ (fun k hk => ByteMap.get_insert_of_ne _ _ (fun heq => hk (heq ▸ hkey)))

theorem remove (s : Node) {key : Bytes} (hkey : fp.keys key) : NodeFrame fp s (s.remove env key).2 := by
  rw [Node.remove]
  split
  · exact refl s
  split
  · exact refl s
  dsimp only
  split
  · exact of_kv _ (fun _ _ => rfl)
  · exact of_kv _ (fun k hk => ByteMap.get_erase_of_ne _ (fun heq => hk (heq ▸ hkey)))

variable {reg : NamespaceRegistry}

/-- The registry changed where it may, and nothing else did. -/
theorem of_registry {reg' : NamespaceRegistry} (hreg : s.registry = some reg)
    (h : RegistryFrame fp.vectors fp.params reg reg') : NodeFrame fp s
    { s with registry := some reg' } := by
  refine ⟨fun _ _ => rfl, fun ns => ?_, ⟨[], (append_nil _).symm, nofun⟩,
    ⟨[], (append_nil _).symm, nofun⟩, rfl⟩
  simp only [indexOf, hreg, Option.bind_some]
  exact h ns

theorem syncVectorDeleteWithRegistry
    (hreg : s.registry = some reg) (hkey : fp.vectors key) (hbq : fp.keys (bqKey key)) :
    NodeFrame fp s (s.syncVectorDeleteWithRegistry env reg key) := by
  have hsync := of_registry hreg (RegistryFrame.syncRawDelete reg hkey)
  rw [Node.syncVectorDeleteWithRegistry]
  split
  · exact hsync.trans (remove env _ hbq)
  · exact hsync

theorem syncVectorSetWithRegistry
    (hreg : s.registry = some reg) (value : Bytes) (isWorm : Bool) (timestamp : UInt64)
    (hkey : fp.vectors key) (hbq : fp.keys (bqKey key)) :
    NodeFrame fp s (s.syncVectorSetWithRegistry env reg key value isWorm timestamp) := by
  have hsync := of_registry hreg
    (RegistryFrame.syncRawSetWithBq env.rabitqEncode reg value timestamp hkey)
  rw [Node.syncVectorSetWithRegistry]
  split
  · exact hsync
  · exact hsync.trans (setWithTimestampNoVectorSync env _ _ _ _ hbq)
  · exact hsync.trans (remove env _ hbq)

theorem withRegistry {present : Bool} {f : NamespaceRegistry → Node}
    (h : ∀ reg, s.registry = some reg → NodeFrame fp s (f reg)) : NodeFrame fp s (s.withRegistry present f) := by
  rw [Node.withRegistry]
  split
  · split
    · exact h _ ‹_›
    · exact refl s
  · exact refl s

theorem setWithTimestamp (s : Node) (value : Bytes) (isWorm : Bool)
    (timestamp : UInt64) (hkey : fp.keys key) (hvector : fp.vectors key)
    (hbq : fp.keys (bqKey key)) :
    NodeFrame fp s (s.setWithTimestamp env key value isWorm timestamp).2 := by
  have hwrite := setWithTimestampNoVectorSync env s value isWorm timestamp hkey
  rw [Node.setWithTimestamp]
  split
  · rename_i hset
    rw [hset] at hwrite
    exact hwrite
  · rename_i hset
    rw [hset] at hwrite
    exact hwrite.trans (withRegistry (fun reg hreg =>
      syncVectorSetWithRegistry env hreg value isWorm timestamp hvector hbq))

theorem delete (s : Node) (hkey : fp.keys key) (hvector : fp.vectors key)
    (hbq : fp.keys (bqKey key)) : NodeFrame fp s (s.delete env key).2 := by
  have hremove := remove env s hkey
  rw [Node.delete]
  split
  · rename_i hdel
    rw [hdel] at hremove
    exact hremove
  · rename_i hdel
    rw [hdel] at hremove
    exact hremove
  · rename_i hdel
    rw [hdel] at hremove
    exact hremove.trans (withRegistry (fun reg hreg => syncVectorDeleteWithRegistry env hreg hvector hbq))

/-- The companion's key is in no index. -/
theorem mayMatch_bqKey (reg : NamespaceRegistry) (key : Bytes) :
    reg.mayMatchRegisteredNamespace (bqKey key) = false := by
  have hpre : bqPrefix.isPrefixOf (bqKey key) = true := by simp [bqKey]
  rw [mayMatchRegisteredNamespace, hpre]
  simp

theorem deleteCompanion (s : Node) (hbq : fp.keys (bqKey key)) :
    NodeFrame fp s (s.delete env (bqKey key)).2 := by
  have hremove := remove env s hbq
  rw [Node.delete]
  split
  · rename_i hdel
    rw [hdel] at hremove
    exact hremove
  · rename_i hdel
    rw [hdel] at hremove
    exact hremove
  · rename_i hdel
    rw [hdel] at hremove
    refine hremove.trans (withRegistry (fun reg hreg => ?_))
    rw [Node.syncVectorDeleteWithRegistry, syncRawDelete, mayMatch_bqKey]
    exact of_registry hreg (RegistryFrame.refl reg)

/-- Every registry there is changes where it may. -/
theorem mapRegistry (s : Node) {f : NamespaceRegistry → NamespaceRegistry}
    (h : ∀ reg, RegistryFrame fp.vectors fp.params reg (f reg)) :
    NodeFrame fp s { s with registry := s.registry.map f } := by
  cases hreg : s.registry with
  | none =>
    refine ⟨fun _ _ => rfl, fun ns => ?_, ⟨[], (append_nil _).symm, nofun⟩,
      ⟨[], (append_nil _).symm, nofun⟩, rfl⟩
    simp only [indexOf, hreg]
    exact IndexFrame.refl _
  | some reg => exact of_registry hreg (h reg)

theorem publish (s : Node) {channel message : Bytes} (h : fp.events (channel, message)) :
    NodeFrame fp s (s.publish channel message) :=
  ⟨fun _ _ => rfl, fun _ => IndexFrame.refl _,
    ⟨[(channel, message)], rfl, fun _ he => mem_singleton.mp he ▸ h⟩,
    ⟨[], (append_nil _).symm, nofun⟩, rfl⟩

variable {wanted : Bool}

theorem replicate (s : Node) {frame : Command} (h : wanted = true → fp.frames frame) :
    NodeFrame fp s (s.replicate env wanted frame) := by
  rw [Node.replicate]
  split
  · rename_i hwanted
    refine ⟨fun _ _ => rfl, fun _ => IndexFrame.refl _,
      ⟨[], (append_nil _).symm, nofun⟩, ⟨[frame], rfl, fun _ hc => ?_⟩, rfl⟩
    rw [mem_singleton.mp hc]
    exact h (Bool.and_eq_true_iff.mp hwanted).1
  · exact refl s

/-! ## Vector operations -/

theorem persistNamespaceConfig (s : Node) (ns : Bytes) (metric : Metric) (timestamp : UInt64)
    (hmeta : fp.keys (metaKey ns)) :
    NodeFrame fp s (VectorOps.persistNamespaceConfig env s ns metric timestamp) := by
  rw [VectorOps.persistNamespaceConfig]
  split
  · exact refl s
  · exact setWithTimestampNoVectorSync env s _ _ _ hmeta

theorem updateRegistry (s : Node) (ns : Bytes) (metric : Metric) {f : NamespaceIndex → NamespaceIndex}
    (h : ∀ idx, IndexFrame fp.vectors (fp.params ns) (some idx) (some (f idx))) :
    NodeFrame fp s (VectorOps.updateRegistry s ns metric f) := by
  rw [VectorOps.updateRegistry]
  split
  · exact refl s
  · rename_i reg hreg
    split
    · exact refl s
    · rename_i reg' hok
      refine of_registry hreg (fun n => ?_)
      exact (RegistryFrame.getOrCreate hok n).trans (RegistryFrame.modify h n)

variable {vectors : Bytes → Prop} {installs : Prop}

theorem updateIndex (idx : NamespaceIndex) (isAsync : Bool)
    {enqueue insert : NamespaceIndex → NamespaceIndex}
    (henqueue : ∀ idx, IndexFrame vectors installs (some idx) (some (enqueue idx)))
    (hinsert : ∀ idx, IndexFrame vectors installs (some idx) (some (insert idx))) :
    IndexFrame vectors installs (some idx)
    (some (VectorOps.updateIndex idx isAsync enqueue insert)) := by
  have hmode : IndexFrame vectors installs (some idx)
      (some (if isAsync && !idx.asyncMode then idx.enableAsyncMode else idx)) := by
    split
    · exact ⟨fun _ _ => rfl, ⟨[], (append_nil _).symm, nofun⟩, fun _ => rfl⟩
    · exact IndexFrame.refl _
  rw [VectorOps.updateIndex]
  generalize (if isAsync && !idx.asyncMode then idx.enableAsyncMode else idx) = idx' at hmode ⊢
  split
  · exact hmode.trans (henqueue idx')
  · exact hmode.trans (hinsert idx')

variable {args : VinsertArgs}

theorem finishVinsert (s : Node) (vector : F32Slice)
    (hvector : fp.vectors args.key) (hbq : fp.keys (bqKey args.key))
    (hmeta : fp.keys (metaKey args.namespace))
    (hevent : fp.events (args.namespace ++ insertedSuffix, args.key))
    (hframe : args.replicate = true → fp.frames (.vinsert ⟨args.key, args.vector, args.worm,
      args.namespace, args.metric.name, args.timestamp, args.isAsync⟩)) :
    NodeFrame fp s (VectorOps.finishVinsert env s args vector) := by
  have henqueue : ∀ idx : NamespaceIndex, IndexFrame fp.vectors (fp.params args.namespace) (some idx)
      (some (idx.enqueueAsync args.key args.vector args.timestamp)) := fun idx =>
    ⟨fun _ _ => rfl, ⟨[⟨args.key, args.vector, args.timestamp⟩], rfl,
      fun _ h => mem_singleton.mp h ▸ hvector⟩, fun _ => rfl⟩
  rw [VectorOps.finishVinsert]
  refine trans ?_ (replicate env _ hframe)
  refine trans ?_ (publish _ hevent)
  refine trans ?_ (updateRegistry _ args.namespace args.metric (fun idx =>
    updateIndex idx args.isAsync henqueue
      (fun idx => IndexFrame.tryInsertLocked idx vector args.timestamp hvector)))
  refine trans ?_ (setWithTimestampNoVectorSync env _ _ args.worm args.timestamp hbq)
  exact persistNamespaceConfig env s args.namespace args.metric args.timestamp hmeta

theorem applyVinsert (s : Node) (hkey : fp.keys args.key)
    (hvector : fp.vectors args.key) (hbq : fp.keys (bqKey args.key))
    (hmeta : keyBelongsToNamespace args.key args.namespace = true → fp.keys (metaKey args.namespace))
    (hevent : fp.events (args.namespace ++ insertedSuffix, args.key))
    (hframe : args.replicate = true → fp.frames (.vinsert ⟨args.key, args.vector, args.worm,
      args.namespace, args.metric.name, args.timestamp, args.isAsync⟩)) :
    NodeFrame fp s (VectorOps.applyVinsert env s args).2 := by
  have hwrite := setWithTimestampNoVectorSync env s args.vector args.worm args.timestamp hkey
  rw [VectorOps.applyVinsert]
  split
  · exact refl s
  split
  · exact refl s
  rename_i hbelongs
  split
  · exact refl s
  split
  · rename_i hset
    rw [hset] at hwrite
    exact hwrite
  · rename_i hset
    rw [hset] at hwrite
    have hns : keyBelongsToNamespace args.key args.namespace = true := by simpa using hbelongs
    exact hwrite.trans (finishVinsert env _ _ hvector hbq (hmeta hns) hevent hframe)

theorem storeItem (ns : Bytes) (worm : Bool) (acc : Option Nat × Node) {item : BulkItem}
    (hkey : fp.keys item.key) (hbq : fp.keys (bqKey item.key)) :
    NodeFrame fp acc.2 (VectorOps.storeItem env ns worm acc item).2 := by
  have hwrite := setWithTimestampNoVectorSync env acc.2 item.vector worm item.timestamp hkey
  rw [VectorOps.storeItem]
  split
  · exact refl _
  split
  · exact refl _
  dsimp only
  split
  · rename_i hset
    rw [hset] at hwrite
    exact hwrite
  · rename_i hset
    rw [hset] at hwrite
    exact hwrite.trans (setWithTimestampNoVectorSync env _ _ _ _ hbq)

theorem storeItems (ns : Bytes) (worm : Bool) (items : List BulkItem) (acc : Option Nat × Node)
    (hitems : ∀ item ∈ items, fp.keys item.key ∧ fp.keys (bqKey item.key)) :
    NodeFrame fp acc.2 (items.foldl (VectorOps.storeItem env ns worm) acc).2 := by
  induction items generalizing acc with
  | nil => exact refl _
  | cons item rest ih =>
    rw [foldl_cons]
    obtain ⟨hkey, hbq⟩ := hitems item mem_cons_self
    exact (storeItem env ns worm acc hkey hbq).trans
      (ih _ (fun i hi => hitems i (mem_cons_of_mem _ hi)))

theorem insertItems (items : List BulkItem)
    (idx : NamespaceIndex) (hitems : ∀ item ∈ items, vectors item.key) :
    IndexFrame vectors installs (some idx) (some (items.foldl insertItem idx)) := by
  induction items generalizing idx with
  | nil => exact IndexFrame.refl _
  | cons item rest ih =>
    have hitem : IndexFrame vectors installs (some idx) (some (insertItem idx item)) := by
      rw [insertItem]
      split
      · exact IndexFrame.refl _
      · exact IndexFrame.tryInsertLocked idx _ _ (hitems item mem_cons_self)
    rw [foldl_cons]
    exact hitem.trans (ih _ (fun i hi => hitems i (mem_cons_of_mem _ hi)))

theorem publishItems (channel : Bytes) (items : List BulkItem) (s : Node)
    (hitems : ∀ item ∈ items, fp.events (channel, item.key)) :
    NodeFrame fp s (items.foldl (fun s item => s.publish channel item.key) s) := by
  induction items generalizing s with
  | nil => exact refl s
  | cons item rest ih =>
    rw [foldl_cons]
    exact (publish s (hitems item mem_cons_self)).trans
      (ih _ (fun i hi => hitems i (mem_cons_of_mem _ hi)))

variable {ns : Bytes}

theorem applyVbulkinsert (s : Node) {metric : Metric} {worm isAsync : Bool} {items : List BulkItem}
    (hitems : ∀ item ∈ items, fp.keys item.key ∧ fp.keys (bqKey item.key) ∧ fp.vectors item.key ∧
      fp.events (ns ++ insertedSuffix, item.key))
    (hmeta : ∀ item ∈ items, keyBelongsToNamespace item.key ns = true → fp.keys (metaKey ns))
    (hframe : wanted = true → fp.frames (.vbulkinsert ⟨ns, metric.name, worm, isAsync, items⟩)) :
    NodeFrame fp s (VectorOps.applyVbulkinsert env s ns metric worm isAsync items wanted).2 := by
  have henqueue : ∀ idx : NamespaceIndex, IndexFrame fp.vectors (fp.params ns) (some idx)
      (some (idx.enqueueAsyncBatch items)) := by
    refine fun idx => ⟨fun _ _ => rfl, ⟨_, rfl, fun pending hpending => ?_⟩, fun _ => rfl⟩
    obtain ⟨item, hitem, rfl⟩ := mem_map.mp hpending
    exact (hitems item hitem).2.2.1
  rw [VectorOps.applyVbulkinsert.eq_def]
  split
  · exact refl s
  rename_i first rest
  split
  · exact refl s
  rename_i hall
  have hns : keyBelongsToNamespace first.key ns = true := by
    have hall' : (first :: rest).all (fun item => keyBelongsToNamespace item.key ns) = true := by
      simpa using hall
    exact all_eq_true.mp hall' first mem_cons_self
  dsimp only
  refine trans ?_ (replicate env _ hframe)
  refine trans ?_ (publishItems _ _ _ (fun item hitem => (hitems item hitem).2.2.2))
  refine trans ?_ (updateRegistry _ ns metric (fun idx => updateIndex idx isAsync henqueue
    (fun idx => insertItems _ idx (fun item hitem => (hitems item hitem).2.2.1))))
  refine trans ?_ (storeItems env ns worm (first :: rest) (none, _)
    (fun item hitem => ⟨(hitems item hitem).1, (hitems item hitem).2.1⟩))
  exact persistNamespaceConfig env s ns metric first.timestamp (hmeta first mem_cons_self hns)

theorem applyVdelete (s : Node) (hkey : fp.keys key)
    (hvector : fp.vectors key) (hbq : fp.keys (bqKey key))
    (hevent : fp.events (ns ++ deletedSuffix, key))
    (hframe : wanted = true → fp.frames (.vdelete ⟨key, ns⟩)) :
    NodeFrame fp s (VectorOps.applyVdelete env s key ns wanted).2 := by
  have hdelete := delete env s hkey hvector hbq
  rw [VectorOps.applyVdelete]
  split
  · exact refl s
  split
  · rename_i hdel
    rw [hdel] at hdelete
    exact hdelete
  rename_i s₁ hdel
  rw [hdel] at hdelete
  have hcompanion := deleteCompanion env s₁ hbq
  split
  · rename_i hdel'
    rw [hdel'] at hcompanion
    exact hdelete.trans hcompanion
  · rename_i s₂ _ hdel'
    rw [hdel'] at hcompanion
    dsimp only
    refine trans ?_ (replicate env _ hframe)
    refine trans ?_ (publish _ hevent)
    exact (hdelete.trans hcompanion).trans (mapRegistry s₂ (fun _ => RegistryFrame.modify (fun idx =>
      IndexFrame.markTombstoneLocked idx hvector)))

theorem applyVrabitqInstall (s : Node) {params : VrabitqInstallParams} (metric : Metric)
    (hparams : fp.params params.namespace) :
    NodeFrame fp s (VectorOps.applyVrabitqInstall s params metric).2 := by
  have hinstall : ∀ idx : NamespaceIndex, IndexFrame fp.vectors (fp.params params.namespace) (some idx)
      (some (idx.setRabitqParams ⟨params.dim, params.seed, params.centroid, params.rotation⟩)) :=
    fun idx => ⟨fun _ _ => rfl, ⟨[], (append_nil _).symm, nofun⟩,
      fun hnot => absurd hparams hnot⟩
  rw [VectorOps.applyVrabitqInstall]
  split
  · exact refl s
  rename_i reg hreg
  split
  · exact refl s
  split
  · exact refl s
  split
  · exact refl s
  · rename_i reg' hok
    refine of_registry hreg (fun n => ?_)
    exact (RegistryFrame.getOrCreate hok n).trans (RegistryFrame.modify hinstall n)

end NodeFrame
end WormDB
