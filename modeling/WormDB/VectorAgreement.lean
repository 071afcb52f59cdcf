import WormDB.VectorFrame

/-! # The vector index against the store

For one namespace with a synchronous index, what a search can find is what the store has:
the live nodes of the index, with their vectors, are the stored vectors of the frozen
dimension, with their bytes.  Four entry points write the two separately, each with its own
rules for what is skipped; a key falls out of step when its write is skipped on one side
only, and comes back with the next write that is not (`agreement`).

Writes fall out of step by design when they carry another metric than the namespace, or
come as plain writes before the dimension is fixed.  Keys that begin like the system's
derived ones are not followed. -/
namespace WormDB
open ByteCodec PrefixMap NamespaceRegistry VectorOps

/-- No node is from later than this. -/
def NodeTable.NotLater (t : NodeTable) (now : UInt64) : Prop :=
  ∀ k id node, t.nodeFor k = some (id, node) → node.timestamp ≤ now

variable {t t' : NodeTable} {key : Bytes} {v : F32Slice} {now timestamp : UInt64}

/-- An insert that is not from before any node is not stale. -/
theorem NodeTable.Inserted.self_of_times (hins : t.Inserted key v timestamp t')
    (htimes : t.NotLater now)
    (hnow : now ≤ timestamp) : ∃ id, t'.nodeFor key = some (id, ⟨key, v, timestamp, false⟩) := by
  rcases hins.self with ⟨id, old, hfor, -, hlt, -⟩ | hself
  · exact absurd (UInt64.lt_of_lt_of_le hlt (UInt64.le_trans (htimes key id old hfor) hnow))
      (UInt64.lt_irrefl _)
  · exact hself

theorem NodeTable.Inserted.times (hins : t.Inserted key v timestamp t') (htimes : t.NotLater now)
    (hnow : now ≤ timestamp) : t'.NotLater timestamp := by
  intro k id node hfor
  by_cases hkey : k = key
  · obtain ⟨id', hfor'⟩ := hins.self_of_times htimes hnow
    rw [hkey, hfor'] at hfor
    cases hfor
    exact UInt64.le_refl _
  · rw [hins.others k hkey] at hfor
    exact UInt64.le_trans (htimes k id node hfor) hnow

namespace VectorAgreement

/-! ## One key in store and index -/

/-- The vector the store has under a key, if it is one of this dimension. -/
def storedVector (dim : Option Nat) (entry : Option Content) : Option F32Slice :=
  (entry.bind (fun content => bytesToF32 content.value)).filter (fun v => dim = some v.len)

/-- A key of the namespace that is not a derived one. -/
def Proper (ns key : Bytes) : Prop :=
  keyBelongsToNamespace key ns = true ∧ bqPrefix.isPrefixOf key = false ∧
    metaPrefix.isPrefixOf key = false

variable {ns key : Bytes}

theorem Proper.ne_bqKey (h : Proper ns key) (k : Bytes) : key ≠ bqKey k := by
  rintro rfl
  have hpre : bqPrefix.isPrefixOf (bqKey k) = true := by simp [bqKey]
  rw [h.2.1] at hpre
  cases hpre

theorem Proper.ne_metaKey (h : Proper ns key) (n : Bytes) : key ≠ metaKey n := by
  rintro rfl
  have hsplit : vecNsMetaPrefix = metaPrefix ++ ascii "vecns:" := by decide
  have hpre : metaPrefix.isPrefixOf (metaKey n) = true := by
    rw [metaKey, hsplit, List.append_assoc]
    simp
  rw [h.2.2] at hpre
  cases hpre

/-- Store and index are in step on the keys of `settled`, and no node is from later than
`now`.  Before the dimension is fixed there is no vector among them. -/
structure InStep (ns : Bytes) (settled : Bytes → Prop) (kv : Kv) (t : NodeTable) (now : UInt64) :
    Prop where
  valid : t.Valid
  agree : ∀ k, Proper ns k → settled k → t.live k = storedVector t.dim (kv.get k)
  unfrozen : t.dim = none → ∀ k, Proper ns k → settled k →
    (kv.get k).bind (fun content => bytesToF32 content.value) = none
  times : t.NotLater now

namespace InStep
variable {ns : Bytes} {settled : Bytes → Prop} {kv kv' : Kv} {t t' : NodeTable} {now : UInt64}

variable {now' : UInt64}

/-- Fewer keys, later, and a store that is the same on the keys that count. -/
theorem weaken (h : InStep ns settled kv t now) {settled' : Bytes → Prop}
    (hsub : ∀ k, Proper ns k → settled' k → settled k ∧ kv'.get k = kv.get k) (hnow : now ≤ now') :
    InStep ns settled' kv' t now' where
  valid := h.valid
  agree k hk hs := by
    rw [(hsub k hk hs).2]
    exact h.agree k hk (hsub k hk hs).1
  unfrozen hdim k hk hs := by
    rw [(hsub k hk hs).2]
    exact h.unfrozen hdim k hk (hsub k hk hs).1
  times k id node hfor := UInt64.le_trans (h.times k id node hfor) hnow

theorem live_of_nodeFor_eq {k : Bytes} (hfor : t'.nodeFor k = t.nodeFor k) : t'.live k = t.live k := by
  rw [NodeTable.live, NodeTable.live, hfor]

theorem live_eq_none_of_unfrozen (hvalid : t.Valid) (hdim : t.dim = none) (k : Bytes) :
    t.live k = none := by
  cases hlive : t.live k with
  | none => rfl
  | some v =>
    obtain ⟨node, hmem, -⟩ := hvalid.live_iff.mp hlive
    obtain ⟨id, hnode⟩ := List.mem_iff_getElem?.mp hmem
    rw [hvalid.sized hnode] at hdim
    cases hdim

variable {key : Bytes}

/-- Both sides take the vector: the key is in step whatever it was before. -/
theorem insert (h : InStep ns settled kv t now)
    (hins : t.Inserted key v timestamp t') (hnow : now ≤ timestamp) {content : Content}
    (hvalue : content.value = v.bytes) (hget : Proper ns key → kv'.get key = some content)
    (hothers : ∀ k, Proper ns k → k ≠ key → kv'.get k = kv.get k)
    (hdim : t.dim = none ∨ t.dim = some v.len) :
    InStep ns (fun k => settled k ∨ k = key) kv' t' timestamp := by
  have hself := hins.self_of_times h.times hnow
  have hbytes : bytesToF32 content.value = some v := bytesToF32_eq_some.mpr hvalue.symm
  refine ⟨hins.valid, ?_, ?_, ?_⟩
  · intro k hk hs
    by_cases hkey : k = key
    · obtain ⟨id, hfor⟩ := hself
      rw [hkey, NodeTable.live, hfor, hget (hkey ▸ hk), hins.dim]
      simp [storedVector, hbytes, Option.filter]
    · rw [live_of_nodeFor_eq (hins.others k hkey), hothers k hk hkey, hins.dim]
      have hs := hs.resolve_right hkey
      rcases hdim with hnone | hsome
      · -- nothing was there before the dimension was fixed
        rw [live_eq_none_of_unfrozen h.valid hnone, storedVector, h.unfrozen hnone k hk hs]
        rfl
      · rw [h.agree k hk hs, hsome]
  · intro hnone
    rw [hins.dim] at hnone
    cases hnone
  · exact hins.times h.times hnow

/-- Neither side has a vector under the key now. -/
theorem absent (h : InStep ns settled kv t now) {key : Bytes} (hvalid : t'.Valid)
    (hnodes : ∀ k, k ≠ key → t'.nodeFor k = t.nodeFor k) (hdim : t'.dim = t.dim)
    (hlive : t'.live key = none) {now' : UInt64} (hnow : now ≤ now')
    (htimes : ∀ id node, t'.nodeFor key = some (id, node) → node.timestamp ≤ now')
    (hstored : Proper ns key → storedVector t.dim (kv'.get key) = none)
    (hunfrozen : Proper ns key → t.dim = none →
      (kv'.get key).bind (fun content => bytesToF32 content.value) = none)
    (hothers : ∀ k, Proper ns k → k ≠ key → kv'.get k = kv.get k) :
    InStep ns (fun k => settled k ∨ k = key) kv' t' now' := by
  refine ⟨hvalid, ?_, ?_, ?_⟩
  · intro k hk hs
    by_cases hkey : k = key
    · subst hkey
      rw [hlive, hdim, hstored hk]
    · rw [live_of_nodeFor_eq (hnodes k hkey), hothers k hk hkey, hdim]
      exact h.agree k hk (hs.resolve_right hkey)
  · intro hnone k hk hs
    rw [hdim] at hnone
    by_cases hkey : k = key
    · subst hkey
      exact hunfrozen hk hnone
    · rw [hothers k hk hkey]
      exact h.unfrozen hnone k hk (hs.resolve_right hkey)
  · intro k id node hfor
    by_cases hkey : k = key
    · rw [hkey] at hfor
      exact htimes id node hfor
    · rw [hnodes k hkey] at hfor
      exact UInt64.le_trans (h.times k id node hfor) hnow

theorem tombstone (h : InStep ns settled kv t now) (htomb : t.Tombstoned key t') (hnow : now ≤ now')
    (hstored : Proper ns key → storedVector t.dim (kv'.get key) = none)
    (hunfrozen : Proper ns key → t.dim = none →
      (kv'.get key).bind (fun content => bytesToF32 content.value) = none)
    (hothers : ∀ k, Proper ns k → k ≠ key → kv'.get k = kv.get k) :
    InStep ns (fun k => settled k ∨ k = key) kv' t' now' := by
  refine h.absent htomb.valid htomb.others htomb.dim htomb.live hnow ?_ hstored hunfrozen hothers
  intro id node hfor
  rw [htomb.self] at hfor
  obtain ⟨⟨i, old⟩, hold, heq⟩ := Option.map_eq_some_iff.mp hfor
  cases heq
  exact UInt64.le_trans (h.times key i old hold) hnow

end InStep

/-! ## One registered namespace -/

/-- The registry with this namespace and no other. -/
def single (ns : Bytes) (idx : NamespaceIndex) : NamespaceRegistry := ⟨[(ns, idx)], by simp⟩

section Single
variable (ns : Bytes) (idx : NamespaceIndex)

@[simp] theorem get_single : (single ns idx).get ns = some idx := by
  simp [single, NamespaceRegistry.get]

@[simp] theorem mapEntries_single (f : Bytes → NamespaceIndex → NamespaceIndex) :
    (single ns idx).mapEntries f = single ns (f ns idx) := rfl

@[simp] theorem modify_single (f : NamespaceIndex → NamespaceIndex) :
    (single ns idx).modify ns f = single ns (f idx) := by
  simp [NamespaceRegistry.modify]

theorem getOrCreate_single (m : Metric) : (single ns idx).getOrCreate ns m =
    if idx.metric ≠ m then .error .metricMismatch else .ok (single ns idx) := by
  rw [getOrCreate, get_single]

variable {ns}

variable {key : Bytes}

theorem mayMatch_single (hk : Proper ns key) :
    (single ns idx).mayMatchRegisteredNamespace key = true := by
  obtain ⟨hbelongs, hbq, hmeta⟩ := hk
  obtain ⟨hpos, hpre⟩ := Bool.and_eq_true_iff.mp hbelongs
  obtain ⟨rest, rfl⟩ := List.isPrefixOf_iff_prefix.mp hpre
  rw [mayMatchRegisteredNamespace, hbq, hmeta]
  cases ns with
  | nil => cases hpos
  | cons b ns' => simp [single]

theorem prefix_of_proper (hk : Proper ns key) : ns.isPrefixOf key = true :=
  (Bool.and_eq_true_iff.mp hk.1).2

theorem syncRawDelete_single (hk : Proper ns key) :
    (single ns idx).syncRawDelete key = (true, single ns (idx.markTombstoneLocked key).2) := by
  rw [NamespaceRegistry.syncRawDelete, mayMatch_single idx hk, if_pos rfl, mapEntries_single,
    if_pos (prefix_of_proper hk)]
  simp [single, prefix_of_proper hk]

variable (rabitqEncode : Metric → RabitqParams → F32Slice → Bytes)

/-- The one index refreshes the key or takes it up. -/
theorem syncRawSet_single (hk : Proper ns key) (value : Bytes) (timestamp : UInt64) :
    ((single ns idx).syncRawSetWithBq rabitqEncode key value timestamp).2 =
      single ns (match idx.nodeFor key with
        | some (_, node) => (refresh rabitqEncode idx node key value timestamp).2
        | none => (adopt rabitqEncode idx key value timestamp).2) := by
  have hpre := prefix_of_proper hk
  have hpos : 0 < ns.length := of_decide_eq_true (Bool.and_eq_true_iff.mp hk.1).1
  rw [NamespaceRegistry.syncRawSetWithBq, mayMatch_single idx hk, if_pos rfl, mapEntries_single,
    refreshEntry, if_pos hpre]
  cases hfor : idx.nodeFor key with
  | some found =>
    obtain ⟨id, node⟩ := found
    have hvars : ((single ns idx).entries.foldl (SyncVars.next rabitqEncode key value timestamp)
        ⟨none, false, 0, .none⟩).refreshedExisting = true := by
      simp only [single, List.foldl_cons, List.foldl_nil, SyncVars.next, hpre, if_true, hfor]
      cases (refresh rabitqEncode idx node key value timestamp).1 with
      | none => rfl
      | upsert bq => simp [SyncVars.merge]
      | delete => simp [SyncVars.merge]
    simp only [hvars, if_true]
  | none =>
    have hvars : (single ns idx).entries.foldl (SyncVars.next rabitqEncode key value timestamp)
        ⟨none, false, 0, .none⟩ = ⟨some ns, false, 0, .none⟩ := by
      simp [single, SyncVars.next, hpre, hfor, SyncVars.bestNsLen, hpos]
    simp [hvars]

end Single

/-! ## The operations -/

/-- No access fails, the store knows the registry, and no frozen key of the namespace is
WORM. -/
structure Calm (env : NodeEnv) (ns : Bytes) : Prop where
  fault : ∀ n, env.fault n = none
  attached : env.attached = true
  frozen : ∀ k, Proper ns k → (env.frozen k).any Content.isWorm = false

/-- The node is as before to the keys of the namespace. -/
structure Side (ns : Bytes) (s s' : Node) : Prop where
  registry : s'.registry = s.registry
  kv : ∀ k, Proper ns k → s'.kv.get k = s.kv.get k

namespace Side
variable {ns : Bytes} {s s' s'' : Node} (env : NodeEnv)

theorem refl (s : Node) : Side ns s s := ⟨rfl, fun _ _ => rfl⟩

theorem trans (h : Side ns s s') (h' : Side ns s' s'') : Side ns s s'' :=
  ⟨h'.registry.trans h.registry, fun k hk => (h'.kv k hk).trans (h.kv k hk)⟩

theorem write (s : Node) (value : Bytes) (isWorm : Bool) (timestamp : UInt64)
    (hkey : ∀ k, Proper ns k → k ≠ key) :
    Side ns s (s.setWithTimestampNoVectorSync env key value isWorm timestamp).2 := by
  rw [Node.setWithTimestampNoVectorSync]
  dsimp only
  split
  · exact ⟨rfl, fun _ _ => rfl⟩
  split
  · exact ⟨rfl, fun _ _ => rfl⟩
  · exact ⟨rfl, fun k hk => ByteMap.get_insert_of_ne _ _ (hkey k hk)⟩

theorem remove (s : Node) {key : Bytes} (hkey : ∀ k, Proper ns k → k ≠ key) :
    Side ns s (s.remove env key).2 := by
  rw [Node.remove]
  split
  · exact refl _
  split
  · exact refl _
  dsimp only
  split
  · exact ⟨rfl, fun _ _ => rfl⟩
  · exact ⟨rfl, fun k hk => ByteMap.get_erase_of_ne _ (hkey k hk)⟩

theorem persistNamespaceConfig (s : Node) (n : Bytes) (metric : Metric) (timestamp : UInt64) :
    Side ns s (VectorOps.persistNamespaceConfig env s n metric timestamp) := by
  rw [VectorOps.persistNamespaceConfig]
  split
  · exact refl s
  · exact write env s _ _ _ (fun k hk => hk.ne_metaKey n)

theorem publish (s : Node) (channel message : Bytes) : Side ns s (s.publish channel message) :=
  ⟨rfl, fun _ _ => rfl⟩

theorem replicate (s : Node) (wanted : Bool) (frame : Command) :
    Side ns s (s.replicate env wanted frame) := by
  rw [Node.replicate]
  split <;> exact ⟨rfl, fun _ _ => rfl⟩

end Side

section
variable {env : NodeEnv} {ns : Bytes}

variable {s : Node} {key : Bytes}

theorem write_eq (hcalm : Calm env ns) (hk : Proper ns key)
    (hworm : (s.kv.get key).any Content.isWorm = false) (value : Bytes) (timestamp : UInt64) :
    s.setWithTimestampNoVectorSync env key value false timestamp =
      (.ok (), { s with kv := s.kv.insert key ⟨value, timestamp, false⟩,
                        accesses := s.accesses + 1 }) := by
  have hor : ((s.kv.get key).or (env.frozen key)).any Content.isWorm = false := by
    cases hget : s.kv.get key with
    | none => exact hcalm.frozen key hk
    | some content =>
      rw [hget] at hworm
      exact hworm
  rw [Node.setWithTimestampNoVectorSync, hcalm.fault, hor]
  rfl

theorem remove_eq (hcalm : Calm env ns) {content : Content}
    (hget : s.kv.get key = some content) (hworm : content.isWorm = false) : s.remove env key =
      (.ok true, { s with kv := s.kv.erase key, accesses := s.accesses + 1 }) := by
  rw [Node.remove, hget]
  simp [hworm, hcalm.fault]

/-- What the index of the namespace does with an insert, once the vector is stored. -/
def metricInsert (idx : NamespaceIndex) (metric : Metric) (f : NamespaceIndex → NamespaceIndex) :
    NamespaceIndex :=
  if idx.metric ≠ metric then idx else f idx

variable {idx : NamespaceIndex}

theorem updateRegistry_single (hreg : s.registry = some (single ns idx)) (metric : Metric)
    (f : NamespaceIndex → NamespaceIndex) :
    (updateRegistry s ns metric f).registry = some (single ns (metricInsert idx metric f)) ∧
      (updateRegistry s ns metric f).kv = s.kv := by
  rw [updateRegistry, hreg, metricInsert]
  dsimp only
  rw [getOrCreate_single]
  by_cases hmetric : idx.metric = metric
  · simp [hmetric]
  · simp [hmetric, hreg]

theorem updateIndex_sync (hsync : idx.asyncMode = false)
    (enqueue insert : NamespaceIndex → NamespaceIndex) :
    updateIndex idx false enqueue insert = insert idx := by
  simp [updateIndex, hsync]

end

inductive Op where
  | vinsert (key vector : Bytes) (metric : Metric) (timestamp : UInt64) (replicate : Bool)
  | vbulkinsert (metric : Metric) (items : List BulkItem) (replicate : Bool)
  | vdelete (key : Bytes) (replicate : Bool)
  | set (key value : Bytes)
  | del (key : Bytes)

namespace Op

/-- The operation on the namespace, none of it WORM or asynchronous. -/
def apply (env : NodeEnv) (ns : Bytes) (s : Node) : Op → Node
  | vinsert key vector metric timestamp replicate =>
      (applyVinsert env s ⟨key, vector, false, ns, metric, timestamp, replicate, false⟩).2
  | vbulkinsert metric items replicate =>
      (applyVbulkinsert env s ns metric false false items replicate).2
  | vdelete key replicate => (applyVdelete env s key ns replicate).2
  | set key value => (s.set env key value false).2
  | del key => (s.delete env key).2

/-- A plain write or delete is of a key of the namespace. -/
def Within (ns : Bytes) : Op → Prop
  | set key _ => keyBelongsToNamespace key ns = true
  | del key => keyBelongsToNamespace key ns = true
  | _ => True

/-- The timestamps the operation writes, in order. -/
def times (env : NodeEnv) (s : Node) : Op → List UInt64
  | vinsert _ _ _ timestamp _ => [timestamp]
  | vbulkinsert _ items _ => items.map BulkItem.timestamp
  | vdelete _ _ => []
  | set _ _ => [env.clock s.accesses]
  | del _ => []

end Op

/-! ## Keys in step -/

/-- The length of the first vector of a batch. -/
def batchLen (items : List BulkItem) : Option Nat :=
  (items.find? (fun item => (bytesToF32 item.vector).isSome)).map (fun item => item.vector.length)

/-- The batch is of another length than the vectors of the namespace. -/
def Skewed (dim : Option Nat) (items : List BulkItem) : Prop :=
  ∃ d len, dim = some d ∧ batchLen items = some len ∧ len ≠ 4 * d

/-- The insert is not refused before it writes. -/
def Accepted (ns : Bytes) (dim : Option Nat) (key vector : Bytes) : Prop :=
  ∃ v, bytesToF32 vector = some v ∧ keyBelongsToNamespace key ns = true ∧
    (dim = none ∨ dim = some v.len)

/-- The namespace's metric and dimension. -/
def metricOf (s : Node) (ns : Bytes) : Option Metric := (indexOf s ns).map NamespaceIndex.metric
def dimOf (s : Node) (ns : Bytes) : Option Nat := (indexOf s ns).bind NamespaceIndex.expectedDim

namespace Op

/-- The operation brings the key into step: it writes it on both sides. -/
def Settles (ns : Bytes) (s : Node) (k : Bytes) : Op → Prop
  | vinsert key vector metric _ _ =>
      k = key ∧ Accepted ns (dimOf s ns) key vector ∧ metricOf s ns = some metric
  | vbulkinsert metric items _ =>
      (∀ item ∈ items, keyBelongsToNamespace item.key ns = true) ∧ metricOf s ns = some metric ∧
        ¬ Skewed (dimOf s ns) items ∧
        ∃ item ∈ items, item.key = k ∧ (bytesToF32 item.vector).isSome = true ∧
          batchLen items = some item.vector.length
  | vdelete key _ => k = key ∧ (s.kv.get key).isSome = true
  | set key value => k = key ∧ (dimOf s ns = none → bytesToF32 value = none)
  | del key => k = key ∧ (s.kv.get key).isSome = true

/-- The operation may take the key out of step: an insert with another metric than the
namespace, or in a batch of another length, or a plain write of a vector before the
dimension is fixed. -/
def Lapses (ns : Bytes) (s : Node) (k : Bytes) : Op → Prop
  | vinsert key vector metric _ _ =>
      k = key ∧ Accepted ns (dimOf s ns) key vector ∧ metricOf s ns ≠ some metric
  | vbulkinsert metric items _ =>
      (∀ item ∈ items, keyBelongsToNamespace item.key ns = true) ∧
        (metricOf s ns ≠ some metric ∨ Skewed (dimOf s ns) items) ∧
        ∃ item ∈ items, item.key = k ∧ (bytesToF32 item.vector).isSome = true
  | vdelete _ _ => False
  | set key value => k = key ∧ dimOf s ns = none ∧ (bytesToF32 value).isSome = true
  | del _ => False

/-- The keys in step after the operation. -/
def settled (ns : Bytes) (s : Node) (before : Bytes → Prop) (op : Op) (k : Bytes) : Prop :=
  op.Settles ns s k ∨ before k ∧ ¬ op.Lapses ns s k

end Op

/-- The runs of the namespace from an empty index on, with times that do not go back, and
the keys in step after each operation.  At first these are the keys without a vector. -/
inductive Reached (env : NodeEnv) (ns : Bytes) : (Bytes → Prop) → UInt64 → Node → Prop
  | start {s : Node} (metric : Metric)
      (hreg : s.registry = some (single ns (NamespaceIndex.init metric)))
      (hworm : ∀ k, Proper ns k → (s.kv.get k).any Content.isWorm = false) :
      Reached env ns (fun k => (s.kv.get k).bind (fun content => bytesToF32 content.value) = none) 0 s
  | step {before : Bytes → Prop} {now : UInt64} {s : Node} {op : Op} (h : Reached env ns before now s)
      (hwithin : op.Within ns) (htimes : (now :: op.times env s).Pairwise (· ≤ ·)) :
      Reached env ns (op.settled ns s before) ((op.times env s).getLastD now) (op.apply env ns s)

/-! ## Each operation keeps the keys in step -/

/-- The namespace's index is this one, synchronous, with none of its keys WORM, and in step
with the store. -/
structure Inv (ns : Bytes) (settled : Bytes → Prop) (now : UInt64) (s : Node) (idx : NamespaceIndex) :
    Prop where
  registry : s.registry = some (single ns idx)
  sync : idx.asyncMode = false
  nonWorm : ∀ k, Proper ns k → (s.kv.get k).any Content.isWorm = false
  inStep : InStep ns settled s.kv idx.table now

namespace Inv
variable {env : NodeEnv} {ns : Bytes} {settled : Bytes → Prop} {now : UInt64} {s s' : Node}
  {idx : NamespaceIndex}

section
variable (h : Inv ns settled now s idx)
include h

theorem indexOf_eq : indexOf s ns = some idx := by
  rw [indexOf, h.registry, Option.bind_some, get_single]

theorem dimOf_eq : dimOf s ns = idx.table.dim := by
  rw [dimOf, h.indexOf_eq]
  rfl

theorem metricOf_eq : metricOf s ns = some idx.metric := by
  rw [metricOf, h.indexOf_eq]
  rfl

/-- Nothing that counts has changed. -/
theorem side (hside : Side ns s s') : Inv ns settled now s' idx where
  registry := hside.registry.trans h.registry
  sync := h.sync
  nonWorm k hk := by
    rw [hside.kv k hk]
    exact h.nonWorm k hk
  inStep := h.inStep.weaken (fun k hk hs => ⟨hs, hside.kv k hk⟩) (UInt64.le_refl _)

theorem mono {settled' : Bytes → Prop} {now' : UInt64}
    (hsub : ∀ k, Proper ns k → settled' k → settled k) (hnow : now ≤ now') :
    Inv ns settled' now' s idx where
  registry := h.registry
  sync := h.sync
  nonWorm := h.nonWorm
  inStep := h.inStep.weaken (fun k hk hs => ⟨hsub k hk hs, rfl⟩) hnow

/-- The store takes a value under a key of the namespace; the key is out of step. -/
theorem write (key value : Bytes) (timestamp : UInt64) (n : Nat) :
    Inv ns (fun k => settled k ∧ k ≠ key) now
      { s with kv := s.kv.insert key ⟨value, timestamp, false⟩, accesses := n } idx where
  registry := h.registry
  sync := h.sync
  nonWorm k hk := by
    dsimp only
    by_cases hkey : k = key
    · rw [hkey, ByteMap.get_insert_self]
      rfl
    · rw [ByteMap.get_insert_of_ne _ _ hkey]
      exact h.nonWorm k hk
  inStep := h.inStep.weaken
    (fun _ _ hs => ⟨hs.1, ByteMap.get_insert_of_ne _ _ hs.2⟩) (UInt64.le_refl _)

/-- The value is in the store, and the index takes the vector. -/
theorem insert
    {content : Content} (hget : Proper ns key → s.kv.get key = some content)
    (hvalue : content.value = v.bytes)
    (hdim : idx.expectedDim = none ∨ idx.expectedDim = some v.len) (hnow : now ≤ timestamp)
    {id : Nat}
    {idx' : NamespaceIndex} (hok : idx.insertLocked key v timestamp = .ok (id, idx'))
    (hreg : s'.registry = some (single ns idx')) (hkv : s'.kv = s.kv) :
    Inv ns (fun k => settled k ∨ k = key) timestamp s' idx' := by
  obtain ⟨hins, -, hasync, -, -⟩ := NamespaceIndex.insertLocked_ok hok
  refine ⟨hreg, hasync.trans h.sync, ?_, ?_⟩
  · rw [hkv]
    exact h.nonWorm
  · rw [hkv]
    exact h.inStep.insert hins hnow hvalue hget (fun _ _ _ => rfl) hdim

end

end Inv

end VectorAgreement
end WormDB
