import WormDB.BitPack
import WormDB.StoredIndex

/-! # The vector indexes in a snapshot

`writeTo` and `readFrom` of `vector/hnsw.zig` and `vector/index.zig`: the trailer of a
snapshot.  A graph is written without its vectors; on the way back each is looked up in the
store under the key of its node.  A number that does not fit its field stops the program:
`writeTo` then has no result, and `readFrom` has `LoadError.overflow`. -/
namespace WormDB
open List ByteCodec ByteReader BitPack PrefixMap

inductive LoadError where
  | endOfStream | corruptIndex | corruptGraph | missingVector | overflow

/-! ## Writing -/

/-- A number cast to its field. -/
def putInt (width n : Nat) : Option Bytes :=
  if n < 256 ^ width then some (leBytes width n) else none

def Metric.toByte : Metric → UInt8
  | .cosine => 0
  | .dot => 1
  | .l2 => 2

namespace GraphNode

def neighborListBytes (nbrs : List UInt32) : Bytes :=
  leBytes 2 nbrs.length ++ nbrs.flatMap (fun id => leBytes 4 id.toNat)

def toBytes (node : GraphNode) : Bytes := node.level :: node.neighbors.flatMap neighborListBytes

def write (node : GraphNode) : Option Bytes :=
  if ∀ nbrs ∈ node.neighbors, nbrs.length < 256 ^ 2 then some node.toBytes else none

end GraphNode

namespace Hnsw

def writeTo (g : Hnsw) : Option Bytes := do
  let dim ← putInt 4 g.dim
  let nodeCount ← putInt 4 g.nodes.length
  let nodes ← g.nodes.mapM GraphNode.write
  return leBytes 4 g.params.m.toNat ++ leBytes 4 g.params.mMax0.toNat ++
    leBytes 4 g.params.efConstruction.toNat ++ leBytes 4 g.params.ml.toNat ++
    leBytes 8 g.params.seed.toNat ++ dim ++
    nodeCount ++ [if g.entryPoint.isSome then 1 else 0] ++ leBytes 4 (g.entryPoint.getD 0).toNat ++
    [g.topLevel] ++ [0] ++ nodes.flatten

end Hnsw

def RabitqParams.write : Option RabitqParams → Bytes
  | some p => 1 :: (leBytes 4 p.dim.toNat ++ leBytes 8 p.seed.toNat ++ p.centroid ++ p.rotation)
  | none => [0]

namespace StoredIndex

def writeKey (entry : Bytes × UInt64) : Option Bytes :=
  (putInt 2 entry.1.length).map (fun len => len ++ entry.1 ++ leBytes 8 entry.2.toNat)

def writeToLocked (idx : StoredIndex) : Option Bytes := do
  let nodeCount ← putInt 4 idx.hnsw.nodes.length
  let keys ← (idx.keys.zip idx.timestamps).mapM writeKey
  let graph ← idx.hnsw.writeTo
  return [idx.metric.toByte] ++ nodeCount ++ keys.flatten ++ leBytes 8 idx.tombstoneCount ++
    packBits idx.tombstones ++ graph ++ RabitqParams.write idx.rabitqParams

def writeEntry (entry : Bytes × StoredIndex) : Option Bytes := do
  let len ← putInt 2 entry.1.length
  let block ← entry.2.writeToLocked
  return len ++ entry.1 ++ block

def hnswMarker : Bytes := ascii "WDBHNSW2"

def writeTo (entries : List (Bytes × StoredIndex)) : Option Bytes := do
  let count ← putInt 4 entries.length
  let blocks ← entries.mapM writeEntry
  return hnswMarker ++ count ++ blocks.flatten

end StoredIndex

/-! ## Reading -/

def takeInt (width : Nat) (bytes : Bytes) : Except LoadError (Nat × Bytes) :=
  readLe .endOfStream width bytes

namespace Hnsw

def readId (bytes : Bytes) : Except LoadError (UInt32 × Bytes) := do
  let (id, bytes) ← takeInt 4 bytes
  return (id.toUInt32, bytes)

/-- The lists of the levels from `lc` on. -/
def readLists (params : HnswParams) : Nat → Nat → Bytes → Except LoadError (List (List UInt32) × Bytes)
  | 0, _, bytes => .ok ([], bytes)
  | count + 1, lc, bytes => do
      let (stored, bytes) ← takeInt 2 bytes
      if params.maxNeighborsAtLevel lc < stored then .error .corruptGraph
      else do
        let (nbrs, bytes) ← readItems readId stored bytes
        let (lists, bytes) ← readLists params count (lc + 1) bytes
        return (nbrs :: lists, bytes)

/-- The vector found for a node; `dim` has four bytes, and so must have the product. -/
def resolveVector (dim : Nat) : Option Bytes → Except LoadError Bytes
  | none => .error .missingVector
  | some vector =>
      if 2 ^ 32 ≤ dim * 4 then .error .overflow
      else if vector.length ≠ dim * 4 then .error .corruptGraph
      else .ok vector

def readNode (params : HnswParams) (dim : Nat) (found : Option Bytes) (bytes : Bytes) :
    Except LoadError (GraphNode × Bytes) := do
  let (level, bytes) ← takeInt 1 bytes
  let vector ← resolveVector dim found
  let (neighbors, bytes) ← readLists params (level + 1) 0 bytes
  return (⟨vector, level.toUInt8, neighbors⟩, bytes)

def readNodes (params : HnswParams) (dim : Nat) (resolve : Nat → Option Bytes) :
    Nat → Nat → Bytes → Except LoadError (List GraphNode × Bytes)
  | 0, _, bytes => .ok ([], bytes)
  | count + 1, nodeId, bytes => do
      let (node, bytes) ← readNode params dim (resolve nodeId) bytes
      let (nodes, bytes) ← readNodes params dim resolve count (nodeId + 1) bytes
      return (node :: nodes, bytes)

def readFrom (resolve : Nat → Option Bytes) (bytes : Bytes) : Except LoadError (Hnsw × Bytes) := do
  let (m, bytes) ← takeInt 4 bytes
  let (mMax0, bytes) ← takeInt 4 bytes
  let (efConstruction, bytes) ← takeInt 4 bytes
  let (ml, bytes) ← takeInt 4 bytes
  let (seed, bytes) ← takeInt 8 bytes
  let (dim, bytes) ← takeInt 4 bytes
  let (nodeCount, bytes) ← takeInt 4 bytes
  let (hasEp, bytes) ← takeInt 1 bytes
  let (ep, bytes) ← takeInt 4 bytes
  let (topLevel, bytes) ← takeInt 1 bytes
  let (_, bytes) ← takeInt 1 bytes
  let params : HnswParams :=
    ⟨m.toUInt32, mMax0.toUInt32, efConstruction.toUInt32, ml.toUInt32, seed.toUInt64⟩
  let (nodes, bytes) ← readNodes params dim resolve nodeCount 0 bytes
  return (⟨params, dim, nodes, if hasEp ≠ 0 then some ep.toUInt32 else none, topLevel.toUInt8⟩, bytes)

end Hnsw

namespace StoredIndex
variable (outerResolve : Bytes → Option Bytes)

def metricOfByte : Nat → Except LoadError Metric
  | 0 => .ok .cosine
  | 1 => .ok .dot
  | 2 => .ok .l2
  | _ => .error .corruptIndex

def readKey (bytes : Bytes) : Except LoadError ((Bytes × UInt64) × Bytes) := do
  let (len, bytes) ← takeInt 2 bytes
  let (key, bytes) ← readBytes .endOfStream len bytes
  let (timestamp, bytes) ← takeInt 8 bytes
  return ((key, timestamp.toUInt64), bytes)

/-- The parameters, if the flag says that they are there. -/
def readRabitq (bytes : Bytes) : Except LoadError (Option RabitqParams × Bytes) := do
  let (flag, bytes) ← takeInt 1 bytes
  if flag = 1 then do
    let (dim, bytes) ← takeInt 4 bytes
    let (seed, bytes) ← takeInt 8 bytes
    let (centroid, bytes) ← readBytes .endOfStream (dim * 4) bytes
    let (rotation, bytes) ← readBytes .endOfStream (dim * dim * 4) bytes
    return (some ⟨dim.toUInt32, seed.toUInt64, centroid, rotation⟩, bytes)
  else if flag ≠ 0 then .error .corruptIndex
  else return (none, bytes)

/-- The dimension of the first key with a value that can be a vector. -/
def derivedDim (keys : List Bytes) : Option Nat :=
  keys.findSome? (fun key => (outerResolve key).bind (fun bytes =>
    if 0 < bytes.length ∧ bytes.length % 4 = 0 then some (bytes.length / 4) else none))

/-- Of several nodes of a key the last one stays. -/
def reverseMap (keys : List Bytes) : ByteMap Nat :=
  keys.zipIdx.foldl (fun map entry => map.insert entry.1 entry.2) ByteMap.empty

def readFromLocked (bytes : Bytes) : Except LoadError (StoredIndex × Bytes) := do
  let (metricByte, bytes) ← takeInt 1 bytes
  let metric ← metricOfByte metricByte
  let (nodeCount, bytes) ← takeInt 4 bytes
  let (entries, bytes) ← readItems readKey nodeCount bytes
  let (tombstoneCount, bytes) ← takeInt 8 bytes
  if 2 ^ 32 ≤ nodeCount + 7 then .error .overflow
  else do
    let (buf, bytes) ← readBytes .endOfStream (packedLength nodeCount) bytes
    let keys := entries.map Prod.fst
    let (hnsw, bytes) ← Hnsw.readFrom (fun nodeId => keys[nodeId]?.bind outerResolve) bytes
    let (rabitqParams, bytes) ← readRabitq bytes
    return (⟨hnsw, keys, entries.map Prod.snd, reverseMap keys, unpackBits nodeCount buf,
      tombstoneCount, metric,
      (derivedDim outerResolve keys).or (rabitqParams.map (fun p => p.dim.toNat)), rabitqParams⟩, bytes)

def readEntry (bytes : Bytes) : Except LoadError ((Bytes × StoredIndex) × Bytes) := do
  let (len, bytes) ← takeInt 2 bytes
  let (ns, bytes) ← readBytes .endOfStream len bytes
  let (idx, bytes) ← readFromLocked outerResolve bytes
  return ((ns, idx), bytes)

/-- The registry that was empty, as the indexes that were put into it, in order. -/
def readFrom (bytes : Bytes) : Except LoadError (List (Bytes × StoredIndex)) := do
  let (marker, bytes) ← readBytes .endOfStream hnswMarker.length bytes
  if marker ≠ hnswMarker then .error .corruptIndex
  else do
    let (count, bytes) ← takeInt 4 bytes
    let (entries, _) ← readItems (readEntry outerResolve) count bytes
    return entries

/-- An index put later under the same name replaces the one before. -/
def get (entries : List (Bytes × StoredIndex)) («namespace» : Bytes) : Option StoredIndex :=
  (entries.reverse.find? (fun entry => entry.1 = «namespace»)).map Prod.snd

end StoredIndex

/-! ## What is written -/

variable {n : Nat}

theorem putInt_eq_some {width : Nat} {b : Bytes} :
    putInt width n = some b ↔ n < 256 ^ width ∧ b = leBytes width n := by
  rw [putInt, Option.ite_none_right_eq_some]
  exact and_congr_right (fun _ => Option.some_inj.trans eq_comm)

/-- Writing one after the other, when each is written exactly when it fits. -/
theorem mapM_eq_some {α : Type} {f : α → Option Bytes} {P : α → Prop} {e : α → Bytes}
    (hf : ∀ x b, f x = some b ↔ P x ∧ b = e x) (xs : List α) {bs : List Bytes} :
    xs.mapM f = some bs ↔ (∀ x ∈ xs, P x) ∧ bs = xs.map e := by
  induction xs generalizing bs with
  | nil =>
    rw [mapM_nil]
    simp [eq_comm]
  | cons x xs ih =>
    rw [mapM_cons]
    simp only [Option.bind_eq_bind, Option.bind_eq_some_iff, hf, ih, forall_mem_cons,
      map_cons, Option.pure_def, Option.some.injEq]
    constructor
    · rintro ⟨b, ⟨hx, rfl⟩, bs', ⟨hxs, rfl⟩, rfl⟩
      exact ⟨⟨hx, hxs⟩, rfl⟩
    · rintro ⟨⟨hx, hxs⟩, rfl⟩
      exact ⟨_, ⟨hx, rfl⟩, _, ⟨hxs, rfl⟩, rfl⟩

namespace Hnsw

def FitsNode (node : GraphNode) : Prop := ∀ nbrs ∈ node.neighbors, nbrs.length < 256 ^ 2

theorem write_eq_some (node : GraphNode) (b : Bytes) :
    node.write = some b ↔ FitsNode node ∧ b = node.toBytes := by
  rw [GraphNode.write, Option.ite_none_right_eq_some]
  exact and_congr_right (fun _ => Option.some_inj.trans eq_comm)

def toBytes (g : Hnsw) : Bytes :=
  leBytes 4 g.params.m.toNat ++ (leBytes 4 g.params.mMax0.toNat ++
    (leBytes 4 g.params.efConstruction.toNat ++ (leBytes 4 g.params.ml.toNat ++
    (leBytes 8 g.params.seed.toNat ++ (leBytes 4 g.dim ++
    (leBytes 4 g.nodes.length ++ ((if g.entryPoint.isSome then 1 else 0) ::
    (leBytes 4 (g.entryPoint.getD 0).toNat ++
    (g.topLevel :: 0 :: g.nodes.flatMap GraphNode.toBytes)))))))))

structure Fits (g : Hnsw) : Prop where
  dim : g.dim < 256 ^ 4
  count : g.nodes.length < 256 ^ 4
  nodes : ∀ node ∈ g.nodes, FitsNode node

theorem writeTo_eq_some (g : Hnsw) (b : Bytes) : g.writeTo = some b ↔ g.Fits ∧ b = g.toBytes := by
  simp only [writeTo, Option.bind_eq_bind, Option.bind_eq_some_iff, putInt_eq_some,
    mapM_eq_some write_eq_some, Option.pure_def, Option.some.injEq]
  constructor
  · rintro ⟨_, ⟨hdim, rfl⟩, _, ⟨hcount, rfl⟩, _, ⟨hnodes, rfl⟩, rfl⟩
    refine ⟨⟨hdim, hcount, hnodes⟩, ?_⟩
    simp only [toBytes, flatMap_def, append_assoc, cons_append, nil_append]
  · rintro ⟨h, rfl⟩
    refine ⟨_, ⟨h.dim, rfl⟩, _, ⟨h.count, rfl⟩, _, ⟨h.nodes, rfl⟩, ?_⟩
    simp only [toBytes, flatMap_def, append_assoc, cons_append, nil_append]

end Hnsw

namespace StoredIndex

def keyBytes (entry : Bytes × UInt64) : Bytes :=
  leBytes 2 entry.1.length ++ (entry.1 ++ leBytes 8 entry.2.toNat)

theorem writeKey_eq_some (entry : Bytes × UInt64) (b : Bytes) :
    writeKey entry = some b ↔ entry.1.length < 256 ^ 2 ∧ b = keyBytes entry := by
  simp only [writeKey, Option.map_eq_some_iff, putInt_eq_some, keyBytes, append_assoc]
  constructor
  · rintro ⟨_, ⟨h, rfl⟩, rfl⟩
    exact ⟨h, rfl⟩
  · rintro ⟨h, rfl⟩
    exact ⟨_, ⟨h, rfl⟩, rfl⟩

def toBytes (idx : StoredIndex) : Bytes :=
  idx.metric.toByte :: (leBytes 4 idx.hnsw.nodes.length ++
    ((idx.keys.zip idx.timestamps).flatMap keyBytes ++ (leBytes 8 idx.tombstoneCount ++
    (packBits idx.tombstones ++ (idx.hnsw.toBytes ++ RabitqParams.write idx.rabitqParams)))))

structure Fits (idx : StoredIndex) : Prop where
  graph : idx.hnsw.Fits
  keys : ∀ entry ∈ idx.keys.zip idx.timestamps, entry.1.length < 256 ^ 2

theorem writeToLocked_eq_some (idx : StoredIndex) (b : Bytes) :
    idx.writeToLocked = some b ↔ idx.Fits ∧ b = idx.toBytes := by
  simp only [writeToLocked, Option.bind_eq_bind, Option.bind_eq_some_iff, putInt_eq_some,
    mapM_eq_some writeKey_eq_some, Hnsw.writeTo_eq_some, Option.pure_def, Option.some.injEq]
  constructor
  · rintro ⟨_, ⟨-, rfl⟩, _, ⟨hkeys, rfl⟩, _, ⟨hgraph, rfl⟩, rfl⟩
    refine ⟨⟨hgraph, hkeys⟩, ?_⟩
    simp only [toBytes, flatMap_def, append_assoc, cons_append, nil_append]
  · rintro ⟨h, rfl⟩
    refine ⟨_, ⟨h.graph.count, rfl⟩, _, ⟨h.keys, rfl⟩, _, ⟨h.graph, rfl⟩, ?_⟩
    simp only [toBytes, flatMap_def, append_assoc, cons_append, nil_append]

def entryBytes (entry : Bytes × StoredIndex) : Bytes :=
  leBytes 2 entry.1.length ++ (entry.1 ++ entry.2.toBytes)

def FitsEntry (entry : Bytes × StoredIndex) : Prop := entry.1.length < 256 ^ 2 ∧ entry.2.Fits

theorem writeEntry_eq_some (entry : Bytes × StoredIndex) (b : Bytes) :
    writeEntry entry = some b ↔ FitsEntry entry ∧ b = entryBytes entry := by
  simp only [writeEntry, Option.bind_eq_bind, Option.bind_eq_some_iff, putInt_eq_some,
    writeToLocked_eq_some, Option.pure_def, Option.some.injEq, entryBytes, append_assoc]
  constructor
  · rintro ⟨_, ⟨hname, rfl⟩, _, ⟨hidx, rfl⟩, rfl⟩
    exact ⟨⟨hname, hidx⟩, rfl⟩
  · rintro ⟨h, rfl⟩
    exact ⟨_, ⟨h.1, rfl⟩, _, ⟨h.2, rfl⟩, rfl⟩

theorem writeTo_eq_some {entries : List (Bytes × StoredIndex)} {b : Bytes} :
    writeTo entries = some b ↔ (entries.length < 256 ^ 4 ∧ ∀ entry ∈ entries, FitsEntry entry) ∧
      b = hnswMarker ++ (leBytes 4 entries.length ++ entries.flatMap entryBytes) := by
  simp only [writeTo, Option.bind_eq_bind, Option.bind_eq_some_iff, putInt_eq_some,
    mapM_eq_some writeEntry_eq_some, Option.pure_def, Option.some.injEq, append_assoc,
    flatMap_def]
  constructor
  · rintro ⟨_, ⟨hcount, rfl⟩, _, ⟨hentries, rfl⟩, rfl⟩
    exact ⟨⟨hcount, hentries⟩, rfl⟩
  · rintro ⟨h, rfl⟩
    exact ⟨_, ⟨h.1, rfl⟩, _, ⟨h.2, rfl⟩, rfl⟩

end StoredIndex

/-! ## What is read back -/

theorem takeInt_append {w : Nat} (rest : Bytes) (h : n < 256 ^ w) :
    takeInt w (leBytes w n ++ rest) = .ok (n, rest) := readLe_append rest h

theorem takeInt_cons (b : UInt8) (rest : Bytes) : takeInt 1 (b :: rest) = .ok (b.toNat, rest) := by
  rw [takeInt, readLe, ← singleton_append, readBytes_append rest (show [b].length = 1 from rfl),
    ok_bind]
  simp [leNat, pure, Except.pure]

namespace Hnsw

theorem uint32_lt (n : UInt32) : n.toNat < 256 ^ 4 := n.toNat_lt
theorem uint64_lt (n : UInt64) : n.toNat < 256 ^ 8 := n.toNat_lt

theorem readId_append (id : UInt32) (rest : Bytes) :
    readId (leBytes 4 id.toNat ++ rest) = .ok (id, rest) := by
  rw [readId, takeInt_append rest (uint32_lt id), ok_bind]
  simp [pure, Except.pure]

/-- The lists from level `lc` on read back when they are as short as the levels ask. -/
theorem readLists_append (params : HnswParams) (lists : List (List UInt32)) (lc : Nat) (rest : Bytes)
    (hfits : ∀ nbrs ∈ lists, nbrs.length < 256 ^ 2)
    (hcap : ∀ l nbrs, lists[l]? = some nbrs → nbrs.length ≤ params.maxNeighborsAtLevel (lc + l)) :
    readLists params lists.length lc (lists.flatMap GraphNode.neighborListBytes ++ rest) =
      .ok (lists, rest) := by
  induction lists generalizing lc with
  | nil => rfl
  | cons nbrs lists ih =>
    have hfirst : ¬ params.maxNeighborsAtLevel lc < nbrs.length := Nat.not_lt.mpr (hcap 0 nbrs rfl)
    have hrest := ih (lc + 1) (fun n hn => hfits n (mem_cons_of_mem nbrs hn))
      (fun l n hn => by
        rw [add_assoc, add_comm 1 l]
        exact hcap (l + 1) n hn)
    rw [length_cons, readLists, flatMap_cons, GraphNode.neighborListBytes]
    simp only [append_assoc]
    rw [takeInt_append _ (hfits nbrs mem_cons_self), ok_bind]
    dsimp only
    rw [if_neg hfirst, readItems_append readId_append, ok_bind]
    dsimp only
    rw [hrest]
    rfl

variable {params : HnswParams}

theorem readNode_append {node : GraphNode} (hfits : FitsNode node)
    (hsized : SizedNode params node) (dim : Nat) (found : Option Bytes) (rest : Bytes) :
    readNode params dim found (node.toBytes ++ rest) =
      (resolveVector dim found).map (fun vector => ({ node with vector := vector }, rest)) := by
  rw [readNode, GraphNode.toBytes, cons_append, takeInt_cons, ok_bind]
  dsimp only
  cases resolveVector dim found with
  | error e => rfl
  | ok vector =>
    rw [ok_bind, ← hsized.levels, readLists_append params node.neighbors 0 rest hfits
      (fun l nbrs h => by rw [zero_add]; exact hsized.capacity h), ok_bind]
    simp [pure, Except.pure, Except.map]

/-- The value found for a node can be its vector. -/
def Resolved (dim : Nat) (found : Option Bytes) : Prop :=
  ∃ vector, found = some vector ∧ vector.length = dim * 4 ∧ dim * 4 < 2 ^ 32

theorem resolveVector_eq_ok {dim : Nat} {found : Option Bytes} {vector : Bytes} :
    resolveVector dim found = .ok vector ↔
      found = some vector ∧ vector.length = dim * 4 ∧ dim * 4 < 2 ^ 32 := by
  cases found with
  | none => simp [resolveVector]
  | some v =>
    rw [resolveVector]
    by_cases hbig : 2 ^ 32 ≤ dim * 4
    · simp only [if_pos hbig, reduceCtorEq, Option.some.injEq, false_iff]
      exact fun h => absurd h.2.2 (Nat.not_lt.mpr hbig)
    rw [if_neg hbig]
    by_cases hlen : v.length = dim * 4
    · rw [if_neg (not_not.mpr hlen)]
      simp only [Except.ok.injEq, Option.some.injEq]
      constructor
      · rintro rfl
        exact ⟨rfl, hlen, lt_of_not_ge hbig⟩
      · exact And.left
    · rw [if_pos hlen]
      simp only [reduceCtorEq, Option.some.injEq, false_iff]
      rintro ⟨rfl, h, -⟩
      exact hlen h

/-- The nodes read back exactly when each of them is resolved, and all but the vectors is as
it was. -/
theorem readNodes_append (dim : Nat) (resolve : Nat → Option Bytes)
    (nodes : List GraphNode) (nodeId : Nat) (rest : Bytes)
    (hfits : ∀ node ∈ nodes, FitsNode node) (hsized : ∀ node ∈ nodes, SizedNode params node) :
    ((∃ r, readNodes params dim resolve nodes.length nodeId (nodes.flatMap GraphNode.toBytes ++ rest) =
        .ok r) ↔ ∀ i < nodes.length, Resolved dim (resolve (nodeId + i))) ∧
      ∀ r, readNodes params dim resolve nodes.length nodeId
    (nodes.flatMap GraphNode.toBytes ++ rest) =
        .ok r → r.1.map GraphNode.neighbors = nodes.map GraphNode.neighbors ∧ r.2 = rest := by
  induction nodes generalizing nodeId with
  | nil =>
    refine ⟨⟨fun _ _ h => absurd h (Nat.not_lt_zero _), fun _ => ⟨_, rfl⟩⟩, fun r hr => ?_⟩
    cases hr
    exact ⟨rfl, rfl⟩
  | cons node nodes ih =>
    obtain ⟨hiff, hsame⟩ := ih (nodeId + 1) (fun n hn => hfits n (mem_cons_of_mem node hn))
      (fun n hn => hsized n (mem_cons_of_mem node hn))
    rw [length_cons, flatMap_cons, append_assoc, readNodes,
      readNode_append (hfits node mem_cons_self) (hsized node mem_cons_self)]
    cases hres : resolveVector dim (resolve nodeId) with
    | error e =>
      refine ⟨⟨fun h => ?_, fun h => ?_⟩, nofun⟩
      · obtain ⟨r, hr⟩ := h
        cases hr
      · obtain ⟨v, hv⟩ := h 0 (Nat.succ_pos _)
        rw [add_zero] at hv
        rw [resolveVector_eq_ok.mpr hv] at hres
        cases hres
    | ok v =>
      have hv : Resolved dim (resolve nodeId) := ⟨v, resolveVector_eq_ok.mp hres⟩
      rw [Except.map, ok_bind]
      dsimp only
      refine ⟨⟨?_, fun h => ?_⟩, fun r hr => ?_⟩
      · rintro ⟨r, hr⟩ i hi
        obtain ⟨r', hr', -⟩ := bind_ok hr
        rcases i with _ | i
        · exact hv
        · have h := hiff.mp ⟨r', hr'⟩ i (Nat.lt_of_succ_lt_succ hi)
          rw [add_assoc, add_comm 1 i] at h
          exact h
      · obtain ⟨r', hr'⟩ := hiff.mpr (fun i hi => by
          rw [add_assoc, add_comm 1 i]
          exact h (i + 1) (Nat.succ_lt_succ hi))
        rw [hr']
        exact ⟨_, rfl⟩
      · obtain ⟨r', hr', hr⟩ := bind_ok hr
        obtain ⟨hneighbors, hrest⟩ := hsame r' hr'
        cases hr
        exact ⟨by rw [map_cons, map_cons, hneighbors], hrest⟩

/-- Everything before the nodes reads back. -/
theorem readFrom_append {g : Hnsw} (hfits : g.Fits) (resolve : Nat → Option Bytes) (rest : Bytes) :
    readFrom resolve (g.toBytes ++ rest) = (readNodes g.params g.dim resolve g.nodes.length 0
        (g.nodes.flatMap GraphNode.toBytes ++ rest)).map (fun r =>
    ({ g with nodes := r.1 }, r.2)) := by
  rw [readFrom, toBytes]
  simp only [append_assoc, cons_append]
  simp only [takeInt_append _ (uint32_lt _), takeInt_append _ (uint64_lt _), takeInt_append _ hfits.dim,
    takeInt_append _ hfits.count, takeInt_cons, ok_bind]
  simp only [Nat.toUInt32_eq, Nat.toUInt64_eq, Nat.toUInt8_eq, UInt32.ofNat_toNat, UInt64.ofNat_toNat,
    UInt8.ofNat_toNat]
  generalize readNodes g.params g.dim resolve g.nodes.length 0
    (g.nodes.flatMap GraphNode.toBytes ++ rest) = read
  have hentry : (if (if g.entryPoint.isSome = true then (1 : UInt8) else 0).toNat ≠ 0 then
      some (g.entryPoint.getD 0) else none) = g.entryPoint := by
    cases g.entryPoint <;> rfl
  rw [hentry]
  cases read <;> rfl

end Hnsw

namespace StoredIndex

theorem readKey_append {entry : Bytes × UInt64} (h : entry.1.length < 256 ^ 2) (rest : Bytes) :
    readKey (keyBytes entry ++ rest) = .ok (entry, rest) := by
  rw [readKey, keyBytes]
  simp only [append_assoc]
  rw [takeInt_append _ h, ok_bind]
  dsimp only
  rw [readBytes_append _ rfl, ok_bind]
  dsimp only
  rw [takeInt_append _ (Hnsw.uint64_lt _), ok_bind]
  simp [pure, Except.pure]

theorem reverseMap_append (keys : List Bytes) (key : Bytes) :
    reverseMap (keys ++ [key]) = (reverseMap keys).insert key keys.length := by
  rw [reverseMap, zipIdx_append, foldl_append, zero_add]
  rfl

/-- The map leads to the last place of each key. -/
theorem reverseMap_get_iff {keys : List Bytes} {key : Bytes} {i : Nat} :
    (reverseMap keys).get key = some i ↔ keys[i]? = some key ∧ ∀ j, keys[j]? = some key → j ≤ i := by
  induction keys using List.reverseRecOn generalizing i with
  | nil => simp [reverseMap]
  | append_singleton keys last ih =>
    have hlast : (keys ++ [last])[keys.length]? = some last := getElem?_concat_length
    have hbound : ∀ {j : Nat} {k : Bytes}, (keys ++ [last])[j]? = some k → j ≤ keys.length := by
      intro j k hj
      have hlt := (List.getElem?_eq_some_iff.mp hj).1
      rw [length_append, length_singleton] at hlt
      omega
    rw [reverseMap_append]
    by_cases hkey : key = last
    · subst hkey
      rw [ByteMap.get_insert_self]
      constructor
      · intro h
        cases h
        exact ⟨hlast, fun j hj => hbound hj⟩
      · rintro ⟨hi, hmax⟩
        rw [le_antisymm (hbound hi) (hmax _ hlast)]
    · rw [ByteMap.get_insert_of_ne _ _ hkey, ih]
      -- the last place holds another key
      have hsame : ∀ j : Nat, (keys ++ [last])[j]? = some key ↔ keys[j]? = some key := by
        intro j
        rw [getElem?_append]
        split
        · exact Iff.rfl
        · rename_i hge
          rw [getElem?_eq_none (le_of_not_gt hge)]
          refine ⟨fun h => ?_, nofun⟩
          have hmem := mem_of_getElem? h
          exact absurd (mem_singleton.mp hmem) hkey
      simp only [hsame]

end StoredIndex

theorem NodeTable.Shaped.reverseMap {t : NodeTable} (hvalid : t.Valid) (h : t.Shaped) (key : Bytes) :
    (StoredIndex.reverseMap (t.nodes.map VectorNode.key)).get key = t.keyToNode.get key := by
  have hplace : ∀ {i : Nat}, (t.nodes.map VectorNode.key)[i]? = some key ↔
      ∃ node, t.nodes[i]? = some node ∧ node.key = key := by
    intro i
    rw [getElem?_map, Option.map_eq_some_iff]
  ext i
  rw [StoredIndex.reverseMap_get_iff, hplace]
  constructor
  · rintro ⟨⟨node, hnode, rfl⟩, hmax⟩
    obtain ⟨j, hij, hget⟩ := h.latest hnode
    obtain ⟨node', hnode', hkey⟩ := hvalid.mapped hget
    rw [le_antisymm hij (hmax j (hplace.mpr ⟨node', hnode', hkey⟩))]
    exact hget
  · intro hget
    refine ⟨hvalid.mapped hget, fun j hj => ?_⟩
    obtain ⟨node, hnode, rfl⟩ := hplace.mp hj
    obtain ⟨j', hle, hget'⟩ := h.latest hnode
    rw [hget] at hget'
    exact Option.some.inj hget' ▸ hle

/-- What a loaded index shares with the one that was saved. -/
structure SameIndex (idx idx' : StoredIndex) : Prop where
  metric : idx'.metric = idx.metric
  dim : idx'.dim = idx.dim
  keyToNode : ∀ key, idx'.keyToNode.get key = idx.keyToNode.get key
  timestamps : idx'.timestamps = idx.timestamps
  tombstones : idx'.tombstones = idx.tombstones
  tombstoneCount : idx'.tombstoneCount = idx.tombstoneCount
  neighbors : idx'.hnsw.nodes.map GraphNode.neighbors = idx.hnsw.nodes.map GraphNode.neighbors

section
variable {D : Type} (env : HnswEnv D) (metric : Metric) {t : NodeTable}

theorem length_layout (hvalid : t.Valid) (hshape : t.Shaped) :
    (layout env metric none t).hnsw.nodes.length = t.nodes.length := by
  rw [(layout_graph env metric none hvalid hshape).length, length_map]

theorem zip_layout : (layout env metric none t).keys.zip (layout env metric none t).timestamps =
    t.nodes.map (fun node => (node.key, node.timestamp)) := by
  rw [layout, zip_map']

/-- The lists of a graph are short, so only the numbers and the keys may not fit. -/
theorem fits_layout (hvalid : t.Valid) (hshape : t.Shaped) :
    (layout env metric none t).Fits ↔ t.dim.getD 0 < 256 ^ 4 ∧ t.nodes.length < 256 ^ 4 ∧
      ∀ node ∈ t.nodes, node.key.length < 256 ^ 2 := by
  have hgraph := layout_graph env metric none hvalid hshape
  have hkeys : (∀ entry ∈ (layout env metric none t).keys.zip (layout env metric none t).timestamps,
      entry.1.length < 256 ^ 2) ↔ ∀ node ∈ t.nodes, node.key.length < 256 ^ 2 := by
    rw [zip_layout]
    simp only [forall_mem_map]
  constructor
  · intro h
    refine ⟨hgraph.dim ▸ h.graph.dim, length_layout env metric hvalid hshape ▸ h.graph.count,
      hkeys.mp h.keys⟩
  · rintro ⟨hdim, hcount, hshort⟩
    refine ⟨⟨hgraph.dim.symm ▸ hdim, (length_layout env metric hvalid hshape).symm ▸ hcount, ?_⟩,
      hkeys.mpr hshort⟩
    intro node hmem nbrs hnbrs
    obtain ⟨lc, hlc⟩ := mem_iff_getElem?.mp hnbrs
    have hsized := hgraph.sized (by rw [length_map]; exact le_of_lt hcount)
    refine lt_of_le_of_lt ((hsized node hmem).capacity hlc) ?_
    rw [hgraph.params, HnswParams.maxNeighborsAtLevel]
    split <;> decide

theorem metricOfByte_toByte (m : Metric) : StoredIndex.metricOfByte m.toByte.toNat = .ok m := by
  cases m <;> rfl

/-- Every node, deleted or not, has a value of the right length under its key. -/
def AllResolved (t : NodeTable) (outerResolve : Bytes → Option Bytes) : Prop :=
  ∀ node ∈ t.nodes, Hnsw.Resolved (t.dim.getD 0) (outerResolve node.key)

variable {outerResolve : Bytes → Option Bytes}

theorem allResolved_iff :
    AllResolved t outerResolve ↔ ∀ i < t.nodes.length, Hnsw.Resolved (t.dim.getD 0)
      ((t.nodes.map VectorNode.key)[i]?.bind outerResolve) := by
  constructor
  · intro h i hi
    rw [getElem?_map, getElem?_eq_getElem hi]
    exact h _ (getElem_mem hi)
  · intro h node hmem
    obtain ⟨i, hi⟩ := mem_iff_getElem?.mp hmem
    have hres := h i (List.getElem?_eq_some_iff.mp hi).1
    rw [getElem?_map, hi] at hres
    exact hres

/-- The dimension that is derived is the frozen one. -/
theorem derivedDim_eq (hvalid : t.Valid) (hshape : t.Shaped) (h : AllResolved t outerResolve) :
    StoredIndex.derivedDim outerResolve (t.nodes.map VectorNode.key) = t.dim := by
  cases hnodes : t.nodes with
  | nil => exact (hshape.unfrozen hnodes).symm
  | cons first rest =>
    have hdim : t.dim = some first.vector.len := hvalid.sized (show t.nodes[0]? = some first by rw [hnodes]; rfl)
    obtain ⟨v, hv, hlen, -⟩ := h first (by rw [hnodes]; exact mem_cons_self)
    have hpos := first.vector.len_pos
    rw [hdim, Option.getD_some] at hlen
    have hvalue : 0 < v.length ∧ v.length % 4 = 0 := by omega
    rw [StoredIndex.derivedDim, map_cons, findSome?_cons, hv, Option.bind_some, if_pos hvalue,
      hdim, hlen, Nat.mul_div_cancel _ (by decide)]

/-- The index that is read when the nodes read are `nodes`. -/
def loadedWith (outerResolve : Bytes → Option Bytes) (t : NodeTable) (nodes : List GraphNode) :
    StoredIndex :=
  { layout env metric none t with
    hnsw := ⟨HnswParams.default, t.dim.getD 0, nodes, (layout env metric none t).hnsw.entryPoint,
      (layout env metric none t).hnsw.topLevel⟩
    keyToNode := StoredIndex.reverseMap (t.nodes.map VectorNode.key)
    dim := StoredIndex.derivedDim outerResolve (t.nodes.map VectorNode.key) }

theorem readKeys_append (hshort : ∀ node ∈ t.nodes, node.key.length < 256 ^ 2) (rest : Bytes) :
    readItems StoredIndex.readKey t.nodes.length
      ((t.nodes.map (fun node => (node.key, node.timestamp))).flatMap StoredIndex.keyBytes ++ rest) =
        .ok (t.nodes.map (fun node => (node.key, node.timestamp)), rest) := by
  have hread : ∀ entry ∈ t.nodes.map (fun node => (node.key, node.timestamp)), ∀ rest,
      StoredIndex.readKey (StoredIndex.keyBytes entry ++ rest) = .ok (entry, rest) := by
    intro entry hmem rest
    obtain ⟨node, hnode, rfl⟩ := mem_map.mp hmem
    exact StoredIndex.readKey_append (hshort node hnode) rest
  have h := readItems_append_of_mem hread rest
  rwa [length_map] at h

/-- Everything but the nodes reads back, when the bytes of the bits can be counted. -/
theorem readFromLocked_append (hvalid : t.Valid) (hshape : t.Shaped)
    (hfits : (layout env metric none t).Fits) (outerResolve : Bytes → Option Bytes) (rest : Bytes) :
    StoredIndex.readFromLocked outerResolve ((layout env metric none t).toBytes ++ rest) =
      if 2 ^ 32 ≤ t.nodes.length + 7 then .error .overflow else
      Hnsw.readNodes HnswParams.default (t.dim.getD 0)
        (fun nodeId => (t.nodes.map VectorNode.key)[nodeId]?.bind outerResolve)
        (layout env metric none t).hnsw.nodes.length 0
        ((layout env metric none t).hnsw.nodes.flatMap GraphNode.toBytes ++ 0 :: rest) >>=
      fun r => StoredIndex.readRabitq r.2 >>= fun p =>
        pure ({ loadedWith env metric outerResolve t r.1 with
          dim := (loadedWith env metric outerResolve t r.1).dim.or (p.1.map (fun p => p.dim.toNat))
          rabitqParams := p.1 }, p.2) := by
  have hgraph := layout_graph env metric none hvalid hshape
  obtain ⟨-, hcount, hshort⟩ := (fits_layout env metric hvalid hshape).mp hfits
  have htombs : (layout env metric none t).tombstoneCount < 256 ^ 8 :=
    lt_of_le_of_lt countP_le_length (lt_trans hcount (by decide))
  have hbits : (packBits (layout env metric none t).tombstones).length = packedLength t.nodes.length := by
    rw [packBits_length, layout, length_map]
  have hunpack : unpackBits t.nodes.length (packBits (layout env metric none t).tombstones) =
      (layout env metric none t).tombstones := by
    have h := unpackBits_packBits (layout env metric none t).tombstones
    rwa [show (layout env metric none t).tombstones.length = t.nodes.length from length_map ..] at h
  rw [StoredIndex.readFromLocked, StoredIndex.toBytes, cons_append, takeInt_cons, ok_bind]
  dsimp only
  rw [metricOfByte_toByte, ok_bind, length_layout env metric hvalid hshape, zip_layout]
  simp only [append_assoc]
  rw [takeInt_append _ hcount, ok_bind]
  dsimp only
  rw [readKeys_append hshort, ok_bind]
  dsimp only
  rw [takeInt_append _ htombs, ok_bind]
  dsimp only
  by_cases hroom : 2 ^ 32 ≤ t.nodes.length + 7
  · rw [if_pos hroom, if_pos hroom]
  rw [if_neg hroom, if_neg hroom, readBytes_append _ hbits, ok_bind]
  dsimp only
  rw [Hnsw.readFrom_append hfits.graph, hgraph.params, hgraph.dim,
    length_layout env metric hvalid hshape, hunpack]
  simp only [map_map, Function.comp_def, RabitqParams.write,
    show (layout env metric none t).rabitqParams = none from rfl, singleton_append]
  generalize Hnsw.readNodes HnswParams.default _ _ _ _ _ = read
  cases read <;> rfl

theorem readRabitq_none (rest : Bytes) : StoredIndex.readRabitq (0 :: rest) = .ok (none, rest) := by
  rw [StoredIndex.readRabitq, takeInt_cons, ok_bind]
  rfl

/-- An index reads back exactly when each of its nodes is resolved, and then as it was. -/
theorem readFromLocked_layout (hvalid : t.Valid) (hshape : t.Shaped)
    (hfits : (layout env metric none t).Fits) (outerResolve : Bytes → Option Bytes) (rest : Bytes) :
    ((∃ r, StoredIndex.readFromLocked outerResolve ((layout env metric none t).toBytes ++ rest) =
        .ok r) ↔ t.nodes.length + 7 < 2 ^ 32 ∧ AllResolved t outerResolve) ∧
      ∀ r, StoredIndex.readFromLocked outerResolve ((layout env metric none t).toBytes ++ rest) =
        .ok r → SameIndex (layout env metric none t) r.1 ∧ r.2 = rest := by
  by_cases hroom : t.nodes.length + 7 < 2 ^ 32
  · have hgraph := layout_graph env metric none hvalid hshape
    have hsized : ∀ node ∈ (layout env metric none t).hnsw.nodes,
        Hnsw.SizedNode HnswParams.default node := by
      rw [← hgraph.params]
      exact hgraph.sized (by rw [length_map]; omega)
    obtain ⟨hiff, hsame⟩ := Hnsw.readNodes_append (t.dim.getD 0)
      (fun nodeId => (t.nodes.map VectorNode.key)[nodeId]?.bind outerResolve)
      (layout env metric none t).hnsw.nodes 0 (0 :: rest) hfits.graph.nodes hsized
    simp only [zero_add] at hiff
    rw [length_layout env metric hvalid hshape, ← allResolved_iff] at hiff
    rw [length_layout env metric hvalid hshape] at hsame
    rw [readFromLocked_append env metric hvalid hshape hfits outerResolve rest,
      if_neg (Nat.not_le.mpr hroom), length_layout env metric hvalid hshape]
    have hloads : ∀ r : List GraphNode × Bytes, r.2 = 0 :: rest →
        (StoredIndex.readRabitq r.2 >>= fun p =>
          pure ({ loadedWith env metric outerResolve t r.1 with
            dim := (loadedWith env metric outerResolve t r.1).dim.or (p.1.map (fun p => p.dim.toNat))
            rabitqParams := p.1 }, p.2)) = .ok (loadedWith env metric outerResolve t r.1, rest) := by
      intro r hr
      rw [hr, readRabitq_none, ok_bind]
      simp only [Option.map_none, Option.or_none]
      rfl
    refine ⟨⟨?_, ?_⟩, ?_⟩
    · rintro ⟨r, hr⟩
      obtain ⟨r', hr', -⟩ := bind_ok hr
      exact ⟨hroom, hiff.mp ⟨r', hr'⟩⟩
    · rintro ⟨-, hall⟩
      obtain ⟨r, hr⟩ := hiff.mpr hall
      rw [hr, ok_bind]
      exact ⟨_, hloads r (hsame r hr).2⟩
    · intro r hr
      obtain ⟨r', hr', hr⟩ := bind_ok hr
      obtain ⟨hneighbors, hrest⟩ := hsame r' hr'
      rw [hloads r' hrest] at hr
      cases hr
      exact ⟨⟨rfl, derivedDim_eq hvalid hshape (hiff.mp ⟨r', hr'⟩),
        fun key => hshape.reverseMap hvalid key, rfl, rfl, rfl, hneighbors⟩, rfl⟩
  · rw [readFromLocked_append env metric hvalid hshape hfits outerResolve rest,
      if_pos (Nat.not_lt.mp hroom)]
    refine ⟨⟨fun h => ?_, fun h => absurd h.1 hroom⟩, nofun⟩
    obtain ⟨r, hr⟩ := h
    cases hr


/-! ## The registry -/

/-- An index that a run has left: its map leads to the newest nodes, and no parameters were
installed. -/
def Plain (idx : NamespaceIndex) : Prop := idx.table.Shaped ∧ idx.rabitqParams = none

def NamespaceIndex.stored (idx : NamespaceIndex) : StoredIndex :=
  layout env idx.metric idx.rabitqParams idx.table

def storedEntries (entries : List (Bytes × NamespaceIndex)) : List (Bytes × StoredIndex) :=
  entries.map (fun entry => (entry.1, NamespaceIndex.stored env entry.2))

theorem storedEntries_cons (entry : Bytes × NamespaceIndex) (entries : List (Bytes × NamespaceIndex)) :
    storedEntries env (entry :: entries) =
      (entry.1, NamespaceIndex.stored env entry.2) :: storedEntries env entries := rfl

/-- What saving and loading one index asks of it and of the store. -/
structure LoadableIndex (outerResolve : Bytes → Option Bytes) (t : NodeTable) : Prop where
  count : t.nodes.length + 7 < 2 ^ 32
  dim : t.dim.getD 0 < 2 ^ 32
  keys : ∀ node ∈ t.nodes, node.key.length < 2 ^ 16
  resolved : AllResolved t outerResolve

structure Loadable (outerResolve : Bytes → Option Bytes) (reg : NamespaceRegistry) : Prop where
  count : reg.entries.length < 2 ^ 32
  names : ∀ entry ∈ reg.entries, entry.1.length < 2 ^ 16
  indexes : ∀ entry ∈ reg.entries, LoadableIndex outerResolve entry.2.table

/-- What was loaded for an entry is what was saved for it. -/
def SameEntry (entry entry' : Bytes × StoredIndex) : Prop :=
  entry'.1 = entry.1 ∧ SameIndex entry.2 entry'.2

theorem readEntries_append (outerResolve : Bytes → Option Bytes) (entries : List (Bytes × NamespaceIndex))
    (hplain : ∀ entry ∈ entries, Plain entry.2)
    (hfits : ∀ entry ∈ entries, StoredIndex.FitsEntry (entry.1, NamespaceIndex.stored env entry.2))
    (rest : Bytes) :
    ((∃ r, readItems (StoredIndex.readEntry outerResolve) entries.length
        ((storedEntries env entries).flatMap StoredIndex.entryBytes ++ rest) = .ok r) ↔
        ∀ entry ∈ entries, entry.2.table.nodes.length + 7 < 2 ^ 32 ∧
          AllResolved entry.2.table outerResolve) ∧
      ∀ r, readItems (StoredIndex.readEntry outerResolve) entries.length
        ((storedEntries env entries).flatMap StoredIndex.entryBytes ++ rest) = .ok r →
        List.Forall₂ SameEntry (storedEntries env entries) r.1 := by
  induction entries with
  | nil =>
    refine ⟨⟨fun _ _ h => (nomatch h), fun _ => ⟨_, rfl⟩⟩, fun r hr => ?_⟩
    cases hr
    exact List.Forall₂.nil
  | cons entry entries ih =>
    obtain ⟨ns, idx⟩ := entry
    obtain ⟨hshape, hparams⟩ := hplain _ mem_cons_self
    obtain ⟨hname, hidx⟩ := hfits _ mem_cons_self
    obtain ⟨hiff, hsame⟩ := ih (fun e he => hplain e (mem_cons_of_mem _ he))
      (fun e he => hfits e (mem_cons_of_mem _ he))
    rw [length_cons, storedEntries_cons, flatMap_cons, append_assoc, readItems]
    generalize (storedEntries env entries).flatMap StoredIndex.entryBytes ++ rest = bytes
      at hiff hsame ⊢
    rw [NamespaceIndex.stored, hparams] at hidx ⊢
    obtain ⟨hread, hback⟩ := readFromLocked_layout env idx.metric idx.valid hshape hidx outerResolve bytes
    -- an entry is its name and the index behind it
    have hentry : StoredIndex.readEntry outerResolve (StoredIndex.entryBytes
        (ns, layout env idx.metric none idx.table) ++ bytes) =
        StoredIndex.readFromLocked outerResolve ((layout env idx.metric none idx.table).toBytes ++ bytes) >>=
          fun r => pure ((ns, r.1), r.2) := by
      rw [StoredIndex.readEntry, StoredIndex.entryBytes]
      simp only [append_assoc]
      rw [takeInt_append _ hname, ok_bind]
      dsimp only
      rw [readBytes_append _ rfl, ok_bind]
    rw [hentry, forall_mem_cons]
    refine ⟨⟨?_, ?_⟩, ?_⟩
    · rintro ⟨r, hr⟩
      obtain ⟨r', hr', hr⟩ := bind_ok hr
      obtain ⟨loaded, hloaded, hr'⟩ := bind_ok hr'
      obtain ⟨r'', hr'', -⟩ := bind_ok hr
      cases hr'
      rw [(hback loaded hloaded).2] at hr''
      exact ⟨hread.mp ⟨loaded, hloaded⟩, hiff.mp ⟨r'', hr''⟩⟩
    · rintro ⟨hfirst, hrest⟩
      obtain ⟨loaded, hloaded⟩ := hread.mpr hfirst
      obtain ⟨r, hr⟩ := hiff.mpr hrest
      rw [hloaded, ok_bind]
      dsimp only [pure, Except.pure]
      rw [ok_bind]
      dsimp only
      rw [(hback loaded hloaded).2, hr]
      exact ⟨_, rfl⟩
    · intro r hr
      obtain ⟨r', hr', hr⟩ := bind_ok hr
      obtain ⟨loaded, hloaded, hr'⟩ := bind_ok hr'
      obtain ⟨r'', hr'', hr⟩ := bind_ok hr
      cases hr'
      cases hr
      obtain ⟨hindex, hbytes⟩ := hback loaded hloaded
      dsimp only at hr''
      rw [hbytes] at hr''
      exact List.Forall₂.cons ⟨rfl, hindex⟩ (hsame r'' hr'')

/-- The indexes of a registry and of what was loaded, name by name. -/
def TrailerRestores (outerResolve : Bytes → Option Bytes) (reg : NamespaceRegistry) : Prop :=
  ∃ bytes loaded, StoredIndex.writeTo (storedEntries env reg.entries) = some bytes ∧
    StoredIndex.readFrom outerResolve bytes = .ok loaded ∧
    ∀ ns, Option.Rel SameIndex ((reg.get ns).map (NamespaceIndex.stored env)) (StoredIndex.get loaded ns)

variable {entries loaded : List (Bytes × StoredIndex)}

theorem rel_find (h : List.Forall₂ SameEntry entries loaded) (ns : Bytes) :
    Option.Rel SameIndex ((entries.find? (fun entry => entry.1 = ns)).map Prod.snd)
      ((loaded.find? (fun entry => entry.1 = ns)).map Prod.snd) := by
  induction h with
  | nil => exact Option.Rel.none
  | @cons entry entry' _ _ hentry _ ih =>
    rw [find?_cons, find?_cons, hentry.1]
    by_cases hns : entry.1 = ns
    · simp only [hns, decide_true]
      exact Option.Rel.some hentry.2
    · simp only [hns, decide_false]
      exact ih

variable {ns : Bytes}

/-- Where the names are distinct it does not matter from which end a name is looked for. -/
theorem find_of_nodup {α : Type} {entries : List (Bytes × α)} (h : (entries.map Prod.fst).Nodup)
    {entry : Bytes × α} :
    entries.find? (fun entry => entry.1 = ns) = some entry ↔ entry ∈ entries ∧ entry.1 = ns := by
  induction entries with
  | nil => simp
  | cons first rest ih =>
    obtain ⟨hnew, hrest⟩ := nodup_cons.mp h
    rw [find?_cons]
    by_cases hns : first.1 = ns
    · subst hns
      simp only [decide_true, Option.some.injEq, mem_cons]
      constructor
      · rintro rfl
        exact ⟨.inl rfl, rfl⟩
      · rintro ⟨rfl | hmem, heq⟩
        · rfl
        · exact absurd (mem_map.mpr ⟨entry, hmem, heq⟩) hnew
    · simp only [hns, decide_false, ih hrest, mem_cons]
      constructor
      · rintro ⟨hmem, heq⟩
        exact ⟨.inr hmem, heq⟩
      · rintro ⟨rfl | hmem, heq⟩
        · exact absurd heq hns
        · exact ⟨hmem, heq⟩

theorem get_eq_find (h : (loaded.map Prod.fst).Nodup) (ns : Bytes) :
    StoredIndex.get loaded ns = (loaded.find? (fun entry => entry.1 = ns)).map Prod.snd := by
  rw [StoredIndex.get]
  congr 1
  ext entry
  rw [find_of_nodup (by rw [map_reverse]; exact nodup_reverse.mpr h), find_of_nodup h,
    mem_reverse]

theorem names_of_same
    (h : List.Forall₂ SameEntry entries loaded) : loaded.map Prod.fst = entries.map Prod.fst := by
  induction h with
  | nil => rfl
  | cons hentry _ ih => rw [map_cons, map_cons, hentry.1, ih]

theorem names_storedEntries (reg : NamespaceRegistry) :
    (storedEntries env reg.entries).map Prod.fst = reg.entries.map Prod.fst := by
  rw [storedEntries, map_map]
  rfl

theorem get_stored (reg : NamespaceRegistry) (ns : Bytes) :
    ((storedEntries env reg.entries).find? (fun entry => entry.1 = ns)).map Prod.snd =
      (reg.get ns).map (NamespaceIndex.stored env) := by
  rw [NamespaceRegistry.get, storedEntries, find?_map, Option.map_map, Option.map_map]
  rfl

theorem fitsEntry_iff {idx : NamespaceIndex} (hplain : Plain idx) :
    StoredIndex.FitsEntry (ns, NamespaceIndex.stored env idx) ↔ ns.length < 256 ^ 2 ∧
      idx.table.dim.getD 0 < 256 ^ 4 ∧ idx.table.nodes.length < 256 ^ 4 ∧
      ∀ node ∈ idx.table.nodes, node.key.length < 256 ^ 2 := by
  obtain ⟨hshape, hparams⟩ := hplain
  rw [StoredIndex.FitsEntry, NamespaceIndex.stored, hparams, fits_layout env idx.metric idx.valid hshape]

theorem readFrom_append (outerResolve : Bytes → Option Bytes) (hcount : entries.length < 256 ^ 4) :
    StoredIndex.readFrom outerResolve (StoredIndex.hnswMarker ++ (leBytes 4 entries.length ++
        entries.flatMap StoredIndex.entryBytes)) =
      readItems (StoredIndex.readEntry outerResolve) entries.length
        (entries.flatMap StoredIndex.entryBytes) >>= fun r => pure r.1 := by
  rw [StoredIndex.readFrom, readBytes_append _ rfl, ok_bind]
  dsimp only
  rw [if_neg (not_not.mpr rfl), takeInt_append _ hcount, ok_bind]

/-- **Saving and loading restores a registry that a run has left exactly when it is loadable.** -/
theorem restores_iff {reg : NamespaceRegistry} (hplain : ∀ entry ∈ reg.entries, Plain entry.2)
    (outerResolve : Bytes → Option Bytes) : TrailerRestores env outerResolve reg ↔ Loadable outerResolve reg := by
  have hlength : (storedEntries env reg.entries).length = reg.entries.length := length_map ..
  have hentries := readEntries_append env outerResolve reg.entries hplain
  rw [← hlength] at hentries
  constructor
  · rintro ⟨bytes, loaded, hwrite, hload, -⟩
    obtain ⟨⟨hcount, hfits⟩, rfl⟩ := StoredIndex.writeTo_eq_some.mp hwrite
    rw [readFrom_append outerResolve hcount] at hload
    obtain ⟨r, hr, -⟩ := bind_ok hload
    have hfits' : ∀ entry ∈ reg.entries,
        StoredIndex.FitsEntry (entry.1, NamespaceIndex.stored env entry.2) :=
      fun entry hmem => hfits _ (mem_map_of_mem hmem)
    have hall := (hentries hfits' []).1.mp ⟨r, by rw [append_nil]; exact hr⟩
    refine ⟨hlength ▸ hcount, fun entry hmem => (hfits' entry hmem).1, fun entry hmem => ?_⟩
    obtain ⟨-, hdim, -, hkeys⟩ := (fitsEntry_iff env (hplain entry hmem)).mp (hfits' entry hmem)
    exact ⟨(hall entry hmem).1, hdim, hkeys, (hall entry hmem).2⟩
  · intro h
    have hfits : ∀ entry ∈ reg.entries,
        StoredIndex.FitsEntry (entry.1, NamespaceIndex.stored env entry.2) := by
      intro entry hmem
      have hidx := h.indexes entry hmem
      refine (fitsEntry_iff env (hplain entry hmem)).mpr ⟨h.names entry hmem, hidx.dim, ?_, hidx.keys⟩
      exact lt_of_le_of_lt (Nat.le_add_right _ 7) hidx.count
    have hcount : (storedEntries env reg.entries).length < 256 ^ 4 := hlength.symm ▸ h.count
    obtain ⟨r, hr⟩ := (hentries hfits []).1.mpr
      (fun entry hmem => ⟨(h.indexes entry hmem).count, (h.indexes entry hmem).resolved⟩)
    have hsame := (hentries hfits []).2 r hr
    rw [append_nil] at hr
    refine ⟨_, r.1, StoredIndex.writeTo_eq_some.mpr ⟨⟨hcount, fun entry hmem => ?_⟩, rfl⟩, ?_, fun ns => ?_⟩
    · obtain ⟨entry, hentry, rfl⟩ := mem_map.mp hmem
      exact hfits entry hentry
    · rw [readFrom_append outerResolve hcount, hr]
      rfl
    · have hnodup : (r.1.map Prod.fst).Nodup := by
        rw [names_of_same hsame, names_storedEntries]
        exact reg.nodup
      rw [get_eq_find hnodup, ← get_stored]
      exact rel_find hsame ns

end
end WormDB
