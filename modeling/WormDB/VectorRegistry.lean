import WormDB.VectorIndex

/-! # The registry of namespaces of `vector/index.zig`

The indexes by namespace, in the order in which the map is walked.  A plain `SET` or `DEL`
is brought into every index whose namespace the key begins with, except for the keys the
system derives itself. -/
namespace WormDB
open List ByteCodec PrefixMap

/-- An index: its tables, and how it is used. -/
structure NamespaceIndex where
  table : NodeTable
  valid : table.Valid
  metric : Metric
  asyncMode : Bool
  pending : List PendingInsert
  rabitqParams : Option RabitqParams

namespace NamespaceIndex

def init (m : Metric) : NamespaceIndex := ⟨NodeTable.empty, NodeTable.valid_empty, m, false, [], none⟩

def nodeFor (idx : NamespaceIndex) (key : Bytes) : Option (Nat × VectorNode) := idx.table.nodeFor key

def expectedDim (idx : NamespaceIndex) : Option Nat := idx.table.dim

def insertLocked (idx : NamespaceIndex) (key : Bytes) (vector : F32Slice) (timestamp : UInt64) :
    Except RegistryError (Nat × NamespaceIndex) :=
  match h : idx.table.insertLocked key vector timestamp with
  | .error e => .error e
  | .ok (id, table) => .ok (id, { idx with table := table, valid := (idx.valid.insertLocked h).valid })

def markTombstoneLocked (idx : NamespaceIndex) (key : Bytes) : TombstoneResult × NamespaceIndex :=
  ((idx.table.markTombstoneLocked key).1,
    { idx with
      table := (idx.table.markTombstoneLocked key).2
      valid := (idx.valid.markTombstoneLocked key).valid })

def setRabitqParams (idx : NamespaceIndex) (params : RabitqParams) : NamespaceIndex :=
  { idx with rabitqParams := some params }

def enableAsyncMode (idx : NamespaceIndex) : NamespaceIndex := { idx with asyncMode := true }

def enqueueAsync (idx : NamespaceIndex) (key vector : Bytes) (timestamp : UInt64) : NamespaceIndex :=
  { idx with pending := idx.pending ++ [⟨key, vector, timestamp⟩] }

def enqueueAsyncBatch (idx : NamespaceIndex) (items : List BulkItem) : NamespaceIndex :=
  { idx with pending := idx.pending ++ items.map (fun item => ⟨item.key, item.vector, item.timestamp⟩) }

/-- An insert whose failure is only logged. -/
def tryInsertLocked (idx : NamespaceIndex) (key : Bytes) (vector : F32Slice) (timestamp : UInt64) :
    NamespaceIndex :=
  match idx.insertLocked key vector timestamp with
  | .error _ => idx
  | .ok (_, idx) => idx

/-- All but the tables. -/
def SameConfig (idx idx' : NamespaceIndex) : Prop :=
  idx'.metric = idx.metric ∧ idx'.asyncMode = idx.asyncMode ∧ idx'.pending = idx.pending ∧
    idx'.rabitqParams = idx.rabitqParams

variable {idx : NamespaceIndex} {key : Bytes} {vector : F32Slice} {timestamp : UInt64}

theorem insertLocked_ok {idx' : NamespaceIndex} {id : Nat}
    (hok : idx.insertLocked key vector timestamp = .ok (id, idx')) :
    idx.table.Inserted key vector timestamp idx'.table ∧ idx.SameConfig idx' := by
  rw [insertLocked] at hok
  split at hok
  · cases hok
  · rename_i i table h
    cases hok
    exact ⟨idx.valid.insertLocked h, rfl, rfl, rfl, rfl⟩

theorem insertLocked_error {e : RegistryError}
    (herr : idx.insertLocked key vector timestamp = .error e) :
    ∃ d, idx.expectedDim = some d ∧ vector.len ≠ d := by
  rw [insertLocked] at herr
  split at herr
  · rename_i h
    exact (NodeTable.insertLocked_eq_error h).2
  · cases herr

theorem insertLocked_of_dim
    (hdim : idx.expectedDim = none ∨ idx.expectedDim = some vector.len) (key : Bytes)
    (timestamp : UInt64) : ∃ id idx', idx.insertLocked key vector timestamp = .ok (id, idx') := by
  cases hins : idx.insertLocked key vector timestamp with
  | ok result => exact ⟨result.1, result.2, rfl⟩
  | error e =>
    obtain ⟨d, hd, hne⟩ := insertLocked_error hins
    rcases hdim with hnone | hsome
    · cases hnone.symm.trans hd
    · rw [hsome] at hd
      exact absurd (Option.some.inj hd) hne

/-- A vector of another dimension does nothing to the index. -/
theorem tryInsertLocked_of_ne {d : Nat}
    (hdim : idx.expectedDim = some d) (hne : vector.len ≠ d) (key : Bytes) (timestamp : UInt64) :
    idx.tryInsertLocked key vector timestamp = idx := by
  rw [tryInsertLocked]
  split
  · rfl
  rename_i hok
  rw [insertLocked] at hok
  split at hok
  · cases hok
  · rename_i h
    rw [NodeTable.insertLocked_of_ne hdim hne] at h
    cases h

variable {k : Bytes}

theorem nodeFor_markTombstoneLocked_of_ne (idx : NamespaceIndex) (hne : k ≠ key) :
    (idx.markTombstoneLocked key).2.nodeFor k = idx.nodeFor k :=
  (idx.valid.markTombstoneLocked key).others k hne

theorem nodeFor_tryInsertLocked_of_ne (idx : NamespaceIndex) (vector : F32Slice)
    (timestamp : UInt64) (hne : k ≠ key) :
    (idx.tryInsertLocked key vector timestamp).nodeFor k = idx.nodeFor k := by
  rw [tryInsertLocked]
  split
  · rfl
  · rename_i hok
    exact (insertLocked_ok hok).1.others k hne

end NamespaceIndex

/-! ## The registry -/

structure NamespaceRegistry where
  entries : List (Bytes × NamespaceIndex)
  nodup : (entries.map Prod.fst).Nodup

namespace NamespaceRegistry

def get (reg : NamespaceRegistry) («namespace» : Bytes) : Option NamespaceIndex :=
  (reg.entries.find? (fun entry => entry.1 = «namespace»)).map Prod.snd

/-- Every index changes by what its namespace says. -/
def mapEntries (reg : NamespaceRegistry) (f : Bytes → NamespaceIndex → NamespaceIndex) :
    NamespaceRegistry where
  entries := reg.entries.map (fun entry => (entry.1, f entry.1 entry.2))
  nodup := by
    rw [map_map]
    exact reg.nodup

def modify (reg : NamespaceRegistry) («namespace» : Bytes) (f : NamespaceIndex → NamespaceIndex) :
    NamespaceRegistry :=
  reg.mapEntries (fun ns idx => if ns = «namespace» then f idx else idx)

theorem get_mapEntries (reg : NamespaceRegistry) (f : Bytes → NamespaceIndex → NamespaceIndex)
    (ns : Bytes) : (reg.mapEntries f).get ns = (reg.get ns).map (f ns) := by
  simp only [get, mapEntries]
  induction reg.entries with
  | nil => rfl
  | cons entry rest ih =>
    rw [map_cons, find?_cons, find?_cons]
    by_cases hns : entry.1 = ns
    · subst hns
      simp
    · simp only [hns, decide_false]
      exact ih

theorem get_modify_self (reg : NamespaceRegistry) (ns : Bytes) (f : NamespaceIndex → NamespaceIndex) :
    (reg.modify ns f).get ns = (reg.get ns).map f := by
  rw [modify, get_mapEntries]
  simp

/-- A namespace that is not there comes with an empty index. -/
def create (reg : NamespaceRegistry) («namespace» : Bytes) (m : Metric) : NamespaceRegistry :=
  if h : «namespace» ∈ reg.entries.map Prod.fst then reg
  else
    { entries := reg.entries ++ [(«namespace», NamespaceIndex.init m)]
      nodup := by
        rw [map_append, nodup_append]
        refine ⟨reg.nodup, nodup_singleton _, ?_⟩
        rintro ns hns _ hmem rfl
        obtain rfl : ns = «namespace» := mem_singleton.mp hmem
        exact h hns }

def getOrCreate (reg : NamespaceRegistry) («namespace» : Bytes) (m : Metric) :
    Except RegistryError NamespaceRegistry :=
  match reg.get «namespace» with
  | some idx => if idx.metric ≠ m then .error .metricMismatch else .ok reg
  | none => .ok (reg.create «namespace» m)

variable {reg : NamespaceRegistry} {ns : Bytes}

theorem get_eq_none_iff : reg.get ns = none ↔ ns ∉ reg.entries.map Prod.fst := by
  rw [get, Option.map_eq_none_iff, find?_eq_none]
  constructor
  · rintro hall hmem
    obtain ⟨entry, hentry, rfl⟩ := mem_map.mp hmem
    exact hall entry hentry (decide_eq_true rfl)
  · rintro hnot entry hentry heq
    exact hnot (mem_map.mpr ⟨entry, hentry, of_decide_eq_true heq⟩)

theorem get_create_self (hnone : reg.get ns = none)
    (m : Metric) : (reg.create ns m).get ns = some (NamespaceIndex.init m) := by
  have hnew : ns ∉ reg.entries.map Prod.fst := get_eq_none_iff.mp hnone
  have hfind := Option.map_eq_none_iff.mp hnone
  rw [create, dif_neg hnew, get, find?_append, hfind]
  simp

theorem get_create_of_ne (reg : NamespaceRegistry) {n : Bytes} (m : Metric) (hne : n ≠ ns) :
    (reg.create ns m).get n = reg.get n := by
  rw [create]
  split
  · rfl
  · rw [get, get, find?_append]
    simp [hne.symm]

/-! ## Plain writes and deletes -/

def bqPrefix : Bytes := ascii "bq:"
def metaPrefix : Bytes := ascii "__meta:"

def bqKey (key : Bytes) : Bytes := bqPrefix ++ key

theorem bqKey_ne (key : Bytes) : bqKey key ≠ key := by
  intro h
  have hlen := congrArg List.length h
  rw [bqKey, length_append, show bqPrefix.length = 3 from rfl] at hlen
  omega

/-- The table of first bytes does not count the empty namespace. -/
def mayMatchRegisteredNamespace (reg : NamespaceRegistry) (key : Bytes) : Bool :=
  decide (key ≠ []) && reg.entries.any (fun entry => decide (entry.1 ≠ []) && entry.1.head? == key.head?) &&
    !bqPrefix.isPrefixOf key && !metaPrefix.isPrefixOf key

def syncRawDelete (reg : NamespaceRegistry) (key : Bytes) : Bool × NamespaceRegistry :=
  if reg.mayMatchRegisteredNamespace key then
    (reg.entries.any (fun entry => entry.1.isPrefixOf key),
      reg.mapEntries (fun ns idx => if ns.isPrefixOf key then (idx.markTombstoneLocked key).2 else idx))
  else (false, reg)

/-- What becomes of the companion of a plain write. -/
inductive RawSetBqAction where
  | none
  | upsert (bq : Bytes)
  | delete
  deriving DecidableEq

section Sync
variable (rabitqEncode : Metric → RabitqParams → F32Slice → Bytes)

def encodeBqLocked (idx : NamespaceIndex) (vector : F32Slice) : Bytes :=
  match idx.rabitqParams with
  | some params =>
      if params.dim.toNat = vector.len then rabitqEncode idx.metric params vector
      else binaryQuantize vector
  | none => binaryQuantize vector

/-- The turn of an index that has a node for the key. -/
def refresh (idx : NamespaceIndex) (node : VectorNode) (key value : Bytes) (timestamp : UInt64) :
    RawSetBqAction × NamespaceIndex :=
  if node.tombstoned = false ∧ timestamp < node.timestamp then (.none, idx)
  else
    match bytesToF32 value with
    | some vector =>
        if idx.expectedDim = none ∨ idx.expectedDim = some vector.len then
          match idx.insertLocked key vector timestamp with
          | .ok (_, idx) => (.upsert (encodeBqLocked rabitqEncode idx vector), idx)
          | .error _ => (.delete, (idx.markTombstoneLocked key).2)
        else (.delete, (idx.markTombstoneLocked key).2)
    | none => (.delete, (idx.markTombstoneLocked key).2)

/-- The turn of the index that takes a key no index has a node for. -/
def adopt (idx : NamespaceIndex) (key value : Bytes) (timestamp : UInt64) :
    RawSetBqAction × NamespaceIndex :=
  match idx.expectedDim with
  | some d =>
      match bytesToF32 value with
      | some vector =>
          if vector.len = d then
            match idx.insertLocked key vector timestamp with
            | .ok (_, idx) => (.upsert (encodeBqLocked rabitqEncode idx vector), idx)
            | .error _ => (.none, idx)
          else (.delete, idx)
      | none => (.delete, idx)
  | none => (.none, idx)

/-- The variables of the loop. -/
structure SyncVars where
  best : Option Bytes
  refreshedExisting : Bool
  encodedNsLen : Nat
  action : RawSetBqAction

namespace SyncVars

def bestNsLen (vars : SyncVars) : Nat := (vars.best.map List.length).getD 0

/-- A new hash replaces the one of a shorter namespace; a deletion gives way. -/
def merge (vars : SyncVars) (ns : Bytes) : RawSetBqAction → SyncVars
  | .none => vars
  | .upsert bq =>
      if vars.encodedNsLen ≤ ns.length then
        { vars with action := .upsert bq, encodedNsLen := ns.length }
      else vars
  | .delete => if vars.action = .none then { vars with action := .delete } else vars

/-- One index's turn, as the loop's variables see it. -/
def next (key value : Bytes) (timestamp : UInt64) (vars : SyncVars)
    (entry : Bytes × NamespaceIndex) : SyncVars :=
  if entry.1.isPrefixOf key then
    match entry.2.nodeFor key with
    | some (_, node) =>
        { vars with refreshedExisting := true }.merge entry.1
          (refresh rabitqEncode entry.2 node key value timestamp).1
    | none => if vars.bestNsLen < entry.1.length then { vars with best := some entry.1 } else vars
  else vars

end SyncVars

/-- One index's turn, as the index sees it: it does not depend on the other indexes. -/
def refreshEntry (key value : Bytes) (timestamp : UInt64) (ns : Bytes) (idx : NamespaceIndex) :
    NamespaceIndex :=
  if ns.isPrefixOf key then
    match idx.nodeFor key with
    | some (_, node) => (refresh rabitqEncode idx node key value timestamp).2
    | none => idx
  else idx

/-- `syncRawSetInternal`, with the companion wanted. -/
def syncRawSetWithBq (reg : NamespaceRegistry) (key value : Bytes) (timestamp : UInt64) :
    RawSetBqAction × NamespaceRegistry :=
  if reg.mayMatchRegisteredNamespace key then
    let vars := reg.entries.foldl (SyncVars.next rabitqEncode key value timestamp)
      ⟨none, false, 0, .none⟩
    let reg := reg.mapEntries (refreshEntry rabitqEncode key value timestamp)
    if vars.refreshedExisting then (vars.action, reg)
    else
      match vars.best.bind (fun ns => (reg.get ns).map (fun idx => (ns, idx))) with
      | some (ns, idx) =>
          ((adopt rabitqEncode idx key value timestamp).1,
            reg.modify ns (fun idx => (adopt rabitqEncode idx key value timestamp).2))
      | none => (vars.action, reg)
  else (.none, reg)

end Sync

end NamespaceRegistry
end WormDB
