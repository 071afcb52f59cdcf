import WormDB.AppendLog
import WormDB.Wire

/-! # Vector indexes of `vector/index.zig`

An index keeps, by node number, the keys, vectors and timestamps that were inserted and
which of the nodes are deleted; a key is mapped to its newest node.  Nodes are never
removed: a vector that is replaced or deleted leaves a tombstoned node behind.  The links
between the nodes decide which neighbours a search finds and are not part of this model,
nor is the count of the tombstones.

The registry has one index for each namespace.  A plain write or delete of a key is
brought into the indexes of the namespaces the key is in.

A vector is the bytes it is stored as.  Quantising it to one bit for each component needs
no more than the signs; the encoding under installed parameters is float arithmetic and is
the variable `rabitqEncode`.  Memory is assumed to be there. -/
namespace WormDB
open List ByteCodec PrefixMap

inductive Metric where
  | cosine | dot | l2
  deriving DecidableEq

namespace Metric

def name : Metric → Bytes
  | cosine => ascii "cosine"
  | dot => ascii "dot"
  | l2 => ascii "l2"

def fromStr (s : Bytes) : Option Metric := [cosine, dot, l2].find? (fun m => m.name = s)

end Metric

/-- A slice of floats, as the bytes it is. -/
structure F32Slice where
  bytes : Bytes
  nonempty : 0 < bytes.length
  aligned : bytes.length % 4 = 0
  deriving DecidableEq

namespace F32Slice

def len (v : F32Slice) : Nat := v.bytes.length / 4

theorem ext_bytes {v w : F32Slice} (h : v.bytes = w.bytes) : v = w := by
  obtain ⟨bytes, _, _⟩ := v
  obtain ⟨_, _, _⟩ := w
  obtain rfl : bytes = _ := h
  rfl

end F32Slice

def bytesToF32 (bytes : Bytes) : Option F32Slice :=
  if h : 0 < bytes.length ∧ bytes.length % 4 = 0 then some ⟨bytes, h.1, h.2⟩ else none

theorem bytesToF32_eq_some {bytes : Bytes} {v : F32Slice} :
    bytesToF32 bytes = some v ↔ v.bytes = bytes := by
  rw [bytesToF32]
  constructor
  · intro h
    split at h
    · cases h
      rfl
    · cases h
  · rintro rfl
    rw [dif_pos ⟨v.nonempty, v.aligned⟩]

/-- A float of these four bytes, little endian, is at least zero: minus zero is, and what
is not a number is not. -/
def nonNegative (float : Bytes) : Bool :=
  let n := leNat float
  decide (n % 2 ^ 31 ≤ 0x7f800000 ∧ (n < 2 ^ 31 ∨ n % 2 ^ 31 = 0))

/-- One bit for each component, the first in the high bit; the last byte is filled up with
zeros. -/
def binaryQuantize (v : F32Slice) : Bytes :=
  (List.range ((v.len + 7) / 8)).map (fun byteIdx =>
    ((List.range 8).foldl (fun byte bit =>
      let dim := 8 * byteIdx + bit
      2 * byte + (decide (dim < v.len) && nonNegative (slice v.bytes (4 * dim) 4)).toNat) 0).toUInt8)

structure RabitqParams where
  dim : UInt32
  seed : UInt64
  centroid : Bytes
  rotation : Bytes

structure VectorNode where
  key : Bytes
  vector : F32Slice
  timestamp : UInt64
  tombstoned : Bool

/-- An insert that waits for the background worker. -/
structure PendingInsert where
  key : Bytes
  vector : Bytes
  timestamp : UInt64
  deriving DecidableEq

inductive RegistryError where
  | metricMismatch | dimensionMismatch

inductive TombstoneResult where
  | deleted | noop | missing

/-! ## The tables of an index -/

structure NodeTable where
  nodes : List VectorNode
  keyToNode : ByteMap Nat
  dim : Option Nat

namespace NodeTable

def empty : NodeTable := ⟨[], ByteMap.empty, none⟩

/-- The newest node of the key, deleted or not. -/
def nodeFor (t : NodeTable) (key : Bytes) : Option (Nat × VectorNode) :=
  (t.keyToNode.get key).bind (fun id => (t.nodes[id]?).map (fun node => (id, node)))

def modifyNode (t : NodeTable) (id : Nat) (f : VectorNode → VectorNode) : NodeTable :=
  { t with nodes := t.nodes.modify id f }

def setTombstone (t : NodeTable) (id : Nat) : NodeTable :=
  t.modifyNode id (fun node => { node with tombstoned := true })

def setTimestamp (t : NodeTable) (id : Nat) (timestamp : UInt64) : NodeTable :=
  t.modifyNode id (fun node => { node with timestamp := timestamp })

/-- A new node for the key; the first vector fixes the dimension. -/
def push (t : NodeTable) (key : Bytes) (vector : F32Slice) (timestamp : UInt64) : NodeTable :=
  ⟨t.nodes ++ [⟨key, vector, timestamp, false⟩], t.keyToNode.insert key t.nodes.length,
    some (t.dim.getD vector.len)⟩

def insertLocked (t : NodeTable) (key : Bytes) (vector : F32Slice) (timestamp : UInt64) :
    Except RegistryError (Nat × NodeTable) :=
  if t.dim.any (fun d => vector.len ≠ d) then .error .dimensionMismatch
  else
    match t.nodeFor key with
    | some (oldId, old) =>
        if old.tombstoned then .ok (t.nodes.length, t.push key vector timestamp)
        else if timestamp < old.timestamp then .ok (oldId, t)
        else if old.vector = vector then .ok (oldId, t.setTimestamp oldId timestamp)
        else .ok (t.nodes.length, (t.setTombstone oldId).push key vector timestamp)
    | none => .ok (t.nodes.length, t.push key vector timestamp)

def markTombstoneLocked (t : NodeTable) (key : Bytes) : TombstoneResult × NodeTable :=
  match t.nodeFor key with
  | none => (.missing, t)
  | some (id, node) => if node.tombstoned then (.noop, t) else (.deleted, t.setTombstone id)

/-- The vector of the key that a search may find. -/
def live (t : NodeTable) (key : Bytes) : Option F32Slice :=
  (t.nodeFor key).bind (fun found => if found.2.tombstoned then none else some found.2.vector)

/-- The map leads to the newest node of each key, only that one can be live, and all
vectors have the frozen dimension. -/
structure Valid (t : NodeTable) : Prop where
  mapped : ∀ {key id}, t.keyToNode.get key = some id →
    ∃ node, t.nodes[id]? = some node ∧ node.key = key
  newest : ∀ {id : Nat} {node : VectorNode}, t.nodes[id]? = some node → node.tombstoned = false →
    t.keyToNode.get node.key = some id
  sized : ∀ {id : Nat} {node : VectorNode}, t.nodes[id]? = some node → t.dim = some node.vector.len

theorem valid_empty : empty.Valid where
  mapped h := by cases h
  newest h := by cases h
  sized h := by cases h

variable {t : NodeTable} {key : Bytes} {id : Nat} {node : VectorNode}

theorem nodeFor_eq_some :
    t.nodeFor key = some (id, node) ↔ t.keyToNode.get key = some id ∧ t.nodes[id]? = some node := by
  rw [nodeFor]
  cases hget : t.keyToNode.get key with
  | none => simp
  | some i =>
    cases hnode : t.nodes[i]? with
    | none =>
      simp only [Option.bind_some, hnode, Option.map_none, reduceCtorEq, Option.some.injEq, false_iff]
      rintro ⟨rfl, hid⟩
      cases hnode.symm.trans hid
    | some n =>
      simp only [Option.bind_some, hnode, Option.map_some, Option.some.injEq, Prod.mk.injEq]
      constructor
      · rintro ⟨rfl, rfl⟩
        exact ⟨rfl, hnode⟩
      · rintro ⟨rfl, hid⟩
        rw [hnode] at hid
        exact ⟨rfl, Option.some.inj hid⟩

namespace Valid
variable {t : NodeTable} (h : t.Valid)
include h

variable {key : Bytes}

theorem nodeFor_eq_none : t.nodeFor key = none ↔ t.keyToNode.get key = none := by
  rw [nodeFor]
  cases hget : t.keyToNode.get key with
  | none => simp
  | some id =>
    obtain ⟨node, hnode, -⟩ := h.mapped hget
    simp [hnode]

theorem key_of_nodeFor (hfor : t.nodeFor key = some (id, node)) : node.key = key := by
  obtain ⟨hget, hnode⟩ := nodeFor_eq_some.mp hfor
  obtain ⟨n, hn, hkey⟩ := h.mapped hget
  cases hnode.symm.trans hn
  exact hkey

/-- **A key is live in the tables exactly when one of the nodes that are not deleted is its
node.** -/
theorem live_iff {vector : F32Slice} : t.live key = some vector ↔
      ∃ node ∈ t.nodes, node.tombstoned = false ∧ node.key = key ∧ node.vector = vector := by
  rw [live]
  constructor
  · intro hlive
    obtain ⟨⟨id, node⟩, hfor, hsome⟩ := Option.bind_eq_some_iff.mp hlive
    dsimp only at hsome
    split at hsome
    · cases hsome
    rename_i htomb
    exact ⟨node, mem_of_getElem? (nodeFor_eq_some.mp hfor).2, Bool.not_eq_true _ ▸ htomb,
      h.key_of_nodeFor hfor, Option.some.inj hsome⟩
  · rintro ⟨node, hmem, htomb, rfl, rfl⟩
    obtain ⟨id, hnode⟩ := mem_iff_getElem?.mp hmem
    rw [nodeFor_eq_some.mpr ⟨h.newest hnode htomb, hnode⟩]
    simp [htomb]

end Valid

/-! ## One node changes, or a node is added -/

theorem nodeFor_modifyNode (t : NodeTable) (id : Nat) (f : VectorNode → VectorNode) (key : Bytes) :
    (t.modifyNode id f).nodeFor key =
      (t.nodeFor key).map (fun found => (found.1, if id = found.1 then f found.2 else found.2)) := by
  rw [nodeFor, nodeFor, modifyNode]
  cases t.keyToNode.get key with
  | none => rfl
  | some i =>
    simp only [Option.bind_some, getElem?_modify]
    cases t.nodes[i]? <;> rfl

theorem Valid.modifyNode (h : t.Valid) (id : Nat) {f : VectorNode → VectorNode}
    (hkey : ∀ node, (f node).key = node.key) (hvector : ∀ node, (f node).vector = node.vector)
    (hlive : ∀ node, (f node).tombstoned = false → node.tombstoned = false) :
    (t.modifyNode id f).Valid := by
  have hback : ∀ {i : Nat} {node : VectorNode}, (t.modifyNode id f).nodes[i]? = some node →
      ∃ old, t.nodes[i]? = some old ∧ node.key = old.key ∧ node.vector = old.vector ∧
        (node.tombstoned = false → old.tombstoned = false) := by
    intro i node hnode
    rw [NodeTable.modifyNode, getElem?_modify] at hnode
    obtain ⟨old, hold, rfl⟩ := Option.map_eq_some_iff.mp hnode
    refine ⟨old, hold, ?_⟩
    split
    · exact ⟨hkey old, hvector old, hlive old⟩
    · exact ⟨rfl, rfl, fun h => h⟩
  constructor
  · intro key i hget
    obtain ⟨node, hnode, hk⟩ := h.mapped hget
    rw [NodeTable.modifyNode, getElem?_modify, hnode]
    refine ⟨_, rfl, ?_⟩
    split
    · rw [hkey, hk]
    · exact hk
  · intro i node hnode htomb
    obtain ⟨old, hold, hk, -, hl⟩ := hback hnode
    rw [hk]
    exact h.newest hold (hl htomb)
  · intro i node hnode
    obtain ⟨old, hold, -, hv, -⟩ := hback hnode
    rw [hv]
    exact h.sized hold

variable {k : Bytes}

/-- Only the node's own key sees the change. -/
theorem Valid.nodeFor_modifyNode_of_ne (h : t.Valid) (hfor : t.nodeFor key = some (id, node))
    (f : VectorNode → VectorNode)
    (hne : k ≠ key) : (t.modifyNode id f).nodeFor k = t.nodeFor k := by
  rw [nodeFor_modifyNode]
  cases hk : t.nodeFor k with
  | none => rfl
  | some found =>
    obtain ⟨i, n⟩ := found
    have hid : id ≠ i := by
      rintro rfl
      obtain ⟨-, hnode⟩ := nodeFor_eq_some.mp hfor
      obtain ⟨-, hn⟩ := nodeFor_eq_some.mp hk
      cases hnode.symm.trans hn
      exact hne ((h.key_of_nodeFor hk).symm.trans (h.key_of_nodeFor hfor))
    rw [Option.map_some, if_neg hid]

theorem nodeFor_push_self (t : NodeTable) (key : Bytes) (vector : F32Slice) (timestamp : UInt64) :
    (t.push key vector timestamp).nodeFor key =
      some (t.nodes.length, ⟨key, vector, timestamp, false⟩) := by
  rw [nodeFor_eq_some, push]
  exact ⟨ByteMap.get_insert_self _ _ _, getElem?_concat_length⟩

theorem Valid.nodeFor_push_of_ne (h : t.Valid) (vector : F32Slice)
    (timestamp : UInt64) (hne : k ≠ key) :
    (t.push key vector timestamp).nodeFor k = t.nodeFor k := by
  rw [nodeFor, nodeFor, push, ByteMap.get_insert_of_ne _ _ hne]
  cases hget : t.keyToNode.get k with
  | none => rfl
  | some i =>
    obtain ⟨node, hnode, -⟩ := h.mapped hget
    have hlt : i < t.nodes.length := (List.getElem?_eq_some_iff.mp hnode).1
    simp only [Option.bind_some, getElem?_append_left hlt]

variable {vector : F32Slice}

theorem Valid.push (h : t.Valid)
    (hdim : t.dim = none ∨ t.dim = some vector.len) (hdead : t.live key = none)
    (timestamp : UInt64) : (t.push key vector timestamp).Valid := by
  have hlast : ∀ {i : Nat} {node : VectorNode}, (t.push key vector timestamp).nodes[i]? = some node →
      t.nodes[i]? = some node ∨ i = t.nodes.length ∧ node = ⟨key, vector, timestamp, false⟩ := by
    intro i node hnode
    rw [NodeTable.push, getElem?_append] at hnode
    split at hnode
    · exact .inl hnode
    · rename_i hge
      obtain ⟨hi, hnew⟩ := List.getElem?_eq_some_iff.mp hnode
      rw [length_singleton] at hi
      rw [getElem_singleton] at hnew
      exact .inr ⟨by omega, hnew.symm⟩
  constructor
  · intro k i hget
    rw [NodeTable.push] at hget ⊢
    by_cases hk : k = key
    · obtain rfl := hk
      rw [ByteMap.get_insert_self] at hget
      cases hget
      exact ⟨_, getElem?_concat_length, rfl⟩
    · rw [ByteMap.get_insert_of_ne _ _ hk] at hget
      obtain ⟨node, hnode, hkey⟩ := h.mapped hget
      have hlt : i < t.nodes.length := (List.getElem?_eq_some_iff.mp hnode).1
      exact ⟨node, (getElem?_append_left hlt).trans hnode, hkey⟩
  · intro i node hnode htomb
    rw [NodeTable.push]
    rcases hlast hnode with hold | ⟨rfl, rfl⟩
    · have hne : node.key ≠ key := by
        rintro rfl
        have hlive := h.live_iff.mpr ⟨node, mem_of_getElem? hold, htomb, rfl, rfl⟩
        cases hdead.symm.trans hlive
      rw [ByteMap.get_insert_of_ne _ _ hne]
      exact h.newest hold htomb
    · exact ByteMap.get_insert_self _ _ _
  · intro i node hnode
    rcases hlast hnode with hold | ⟨rfl, rfl⟩
    · rw [NodeTable.push, h.sized hold]
      rfl
    · rcases hdim with hnone | hsome
      · rw [NodeTable.push, hnone]
        rfl
      · rw [NodeTable.push, hsome]
        rfl

/-! ## Inserting and deleting -/

/-- An insert is refused for its dimension and for nothing else. -/
theorem insertLocked_eq_error {timestamp : UInt64}
    {e : RegistryError} (herr : t.insertLocked key vector timestamp = .error e) :
    e = .dimensionMismatch ∧ ∃ d, t.dim = some d ∧ vector.len ≠ d := by
  rw [insertLocked] at herr
  split at herr
  · rename_i hdim
    obtain ⟨d, hd, hne⟩ := (Option.any_eq_true _ _).mp hdim
    exact ⟨(Except.error.inj herr).symm, d, hd, of_decide_eq_true hne⟩
  · split at herr
    · repeat' (split at herr; · cases herr)
      cases herr
    · cases herr

theorem insertLocked_of_ne {d : Nat} (hdim : t.dim = some d)
    (hne : vector.len ≠ d) (key : Bytes) (timestamp : UInt64) :
    t.insertLocked key vector timestamp = .error .dimensionMismatch := by
  rw [insertLocked, hdim, Option.any_some, if_pos (decide_eq_true hne)]

theorem insertLocked_of_dim
    (hdim : t.dim = none ∨ t.dim = some vector.len) (key : Bytes) (timestamp : UInt64) :
    ∃ id t', t.insertLocked key vector timestamp = .ok (id, t') := by
  cases hins : t.insertLocked key vector timestamp with
  | ok result => exact ⟨result.1, result.2, rfl⟩
  | error e =>
    obtain ⟨-, d, hd, hne⟩ := insertLocked_eq_error hins
    rcases hdim with hnone | hsome
    · cases hnone.symm.trans hd
    · rw [hsome] at hd
      exact absurd (Option.some.inj hd) hne

/-- What an insert under a key leaves: nothing else changed, and the key has the vector
unless a live node with a later timestamp was there. -/
structure Inserted (t : NodeTable) (key : Bytes) (vector : F32Slice) (timestamp : UInt64)
    (t' : NodeTable) : Prop where
  valid : t'.Valid
  others : ∀ k, k ≠ key → t'.nodeFor k = t.nodeFor k
  dim : t'.dim = some vector.len
  self : (∃ id old, t.nodeFor key = some (id, old) ∧ old.tombstoned = false ∧
      timestamp < old.timestamp ∧ t' = t) ∨
    ∃ id, t'.nodeFor key = some (id, ⟨key, vector, timestamp, false⟩)

theorem live_eq_none_of_tombstoned
    (hfor : t.nodeFor key = some (id, node)) (htomb : node.tombstoned = true) :
    t.live key = none := by
  rw [live, hfor]
  simp [htomb]

theorem Valid.pushed (h : t.Valid)
    (hdim : t.dim = none ∨ t.dim = some vector.len) (hdead : t.live key = none)
    (timestamp : UInt64) : t.Inserted key vector timestamp (t.push key vector timestamp) where
  valid := h.push hdim hdead timestamp
  others k hne := h.nodeFor_push_of_ne vector timestamp hne
  dim := by
    rcases hdim with hnone | hsome
    · rw [NodeTable.push, hnone]
      rfl
    · rw [NodeTable.push, hsome]
      rfl
  self := .inr ⟨_, nodeFor_push_self t key vector timestamp⟩

theorem Valid.setTombstone (h : t.Valid) (id : Nat) : (t.setTombstone id).Valid :=
  h.modifyNode id (fun _ => rfl) (fun _ => rfl) (nofun)

theorem nodeFor_setTombstone (hfor : t.nodeFor key = some (id, node)) :
    (t.setTombstone id).nodeFor key = some (id, { node with tombstoned := true }) := by
  rw [NodeTable.setTombstone, nodeFor_modifyNode, hfor, Option.map_some, if_pos rfl]

theorem Valid.insertLocked {t t' : NodeTable} (h : t.Valid) {key : Bytes} {vector : F32Slice}
    {timestamp : UInt64} {id : Nat} (hok : t.insertLocked key vector timestamp = .ok (id, t')) :
    t.Inserted key vector timestamp t' := by
  rw [NodeTable.insertLocked] at hok
  split at hok
  · cases hok
  rename_i hany
  have hdim : t.dim = none ∨ t.dim = some vector.len := by
    cases hd : t.dim with
    | none => exact .inl rfl
    | some d =>
      rw [hd, Option.any_some, decide_eq_true_eq, not_not] at hany
      exact .inr (congrArg some hany.symm)
  split at hok
  · rename_i oldId old hfor
    obtain ⟨-, hnode⟩ := nodeFor_eq_some.mp hfor
    -- a key with a node has the table's dimension
    have hold : t.dim = some vector.len := by
      rcases hdim with hnone | hsome
      · rw [h.sized hnode] at hnone
        cases hnone
      · exact hsome
    split at hok
    · rename_i htomb
      cases hok
      exact h.pushed hdim (live_eq_none_of_tombstoned hfor htomb) timestamp
    rename_i htomb
    have hlive : old.tombstoned = false := Bool.not_eq_true _ ▸ htomb
    split at hok
    · rename_i hstale
      -- an older write changes nothing
      obtain ⟨-, rfl⟩ := Prod.mk.inj (Except.ok.inj hok)
      exact ⟨h, fun _ _ => rfl, hold, .inl ⟨oldId, old, hfor, hlive, hstale, rfl⟩⟩
    split at hok
    · rename_i hsame
      -- the same vector only gets the new timestamp
      obtain ⟨-, rfl⟩ := Prod.mk.inj (Except.ok.inj hok)
      refine ⟨h.modifyNode oldId (fun _ => rfl) (fun _ => rfl) (fun _ hlive => hlive),
        fun k hne => h.nodeFor_modifyNode_of_ne hfor _ hne, hold, .inr ⟨oldId, ?_⟩⟩
      rw [setTimestamp, nodeFor_modifyNode, hfor, Option.map_some, if_pos rfl, ← hsame,
        ← h.key_of_nodeFor hfor, ← hlive]
    · cases hok
      -- the old node becomes a tombstone, and a new one is pushed
      have hdead : (t.setTombstone oldId).live key = none :=
        live_eq_none_of_tombstoned (nodeFor_setTombstone hfor) rfl
      have hpush := (h.setTombstone oldId).pushed hdim hdead timestamp
      refine ⟨hpush.valid, fun k hne => ?_, hpush.dim,
        .inr ⟨_, nodeFor_push_self (t.setTombstone oldId) key vector timestamp⟩⟩
      exact (hpush.others k hne).trans (h.nodeFor_modifyNode_of_ne hfor _ hne)
  · rename_i hfor
    cases hok
    have hdead : t.live key = none := by
      rw [live, hfor]
      rfl
    exact h.pushed hdim hdead timestamp

/-- What the deletion of a key leaves. -/
structure Tombstoned (t : NodeTable) (key : Bytes) (t' : NodeTable) : Prop where
  valid : t'.Valid
  others : ∀ k, k ≠ key → t'.nodeFor k = t.nodeFor k
  dim : t'.dim = t.dim
  self : t'.nodeFor key =
    (t.nodeFor key).map (fun found => (found.1, { found.2 with tombstoned := true }))

theorem Valid.markTombstoneLocked {t : NodeTable} (h : t.Valid) (key : Bytes) :
    t.Tombstoned key (t.markTombstoneLocked key).2 := by
  rw [NodeTable.markTombstoneLocked]
  split
  · rename_i hfor
    exact ⟨h, fun _ _ => rfl, rfl, by rw [hfor]; rfl⟩
  · rename_i id node hfor
    split
    · rename_i htomb
      refine ⟨h, fun _ _ => rfl, rfl, ?_⟩
      rw [hfor, Option.map_some, ← htomb]
    · exact ⟨h.setTombstone id, fun k hne => h.nodeFor_modifyNode_of_ne hfor _ hne, rfl,
        by rw [nodeFor_setTombstone hfor, hfor]; rfl⟩

theorem Tombstoned.live {t' : NodeTable} (h : t.Tombstoned key t') : t'.live key = none := by
  rw [NodeTable.live, h.self]
  cases t.nodeFor key <;> rfl

end NodeTable
end WormDB
