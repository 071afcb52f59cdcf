import WormDB.AsyncIndexing

/-! # Refused items of a batch

A batch goes over its items twice.  The first time it stores them, and an item whose bytes
are no vector, whose length is not the batch's or whose key is refused is left out.  The
second time it brings all of them into the index or the queue: only the bytes and the
dimension of the index count there.

The batch does what it would do without the refused items exactly when nothing is refused,
for a queue, or when the newest that there is for each key was there before or is stored,
for an index (`refused_left_out_iff`).  A vector that is refused for its WORM key is found
by searches (`worm_key_overwritten`). -/
namespace WormDB
open List ByteCodec PrefixMap NamespaceRegistry VectorOps VectorAgreement AsyncIndexing NamespaceIndex

/-! ## The newest entry of a key -/

/-- Of two, the one with the later timestamp, and at equal times the second. -/
def newer (old : Option (F32Slice × UInt64)) (new : F32Slice × UInt64) : Option (F32Slice × UInt64) :=
  if old.any (fun entry => new.2 < entry.2) then old else some new

namespace NodeTable

/-- What a search may find under the key, and its timestamp. -/
def entry (t : NodeTable) (key : Bytes) : Option (F32Slice × UInt64) :=
  (t.nodeFor key).bind (fun found =>
    if found.2.tombstoned then none else some (found.2.vector, found.2.timestamp))

variable {t t' : NodeTable} {key : Bytes}

theorem entry_congr (h : t'.nodeFor key = t.nodeFor key) :
    t'.entry key = t.entry key := by rw [entry, entry, h]

variable {id : Nat}

theorem entry_of_nodeFor {node : VectorNode}
    (h : t.nodeFor key = some (id, node)) (hlive : node.tombstoned = false) :
    t.entry key = some (node.vector, node.timestamp) := by
  rw [entry, h, Option.bind_some]
  dsimp only
  rw [hlive, if_neg Bool.false_ne_true]

theorem entry_eq_some {e : F32Slice × UInt64} (h : t.entry key = some e) :
    ∃ id node, t.nodeFor key = some (id, node) ∧ node.tombstoned = false ∧
      node.vector = e.1 ∧ node.timestamp = e.2 := by
  rw [entry] at h
  obtain ⟨⟨id, node⟩, hfor, hsome⟩ := Option.bind_eq_some_iff.mp h
  dsimp only at hsome
  obtain ⟨htomb, ⟨⟩⟩ := Option.ite_none_left_eq_some.mp hsome
  exact ⟨id, node, hfor, Bool.not_eq_true _ ▸ htomb, rfl, rfl⟩

/-- An insert that the dimension allows. -/
theorem Valid.entry_insertLocked (h : t.Valid) {vector : F32Slice}
    {timestamp : UInt64} (hok : t.insertLocked key vector timestamp = .ok (id, t')) :
    t'.entry key = newer (t.entry key) (vector, timestamp) := by
  rcases (h.insertLocked hok).self with ⟨oldId, old, hfor, hlive, hstale, rfl⟩ | ⟨newId, hnew⟩
  · rw [entry_of_nodeFor hfor hlive, newer, Option.any_some, if_pos (decide_eq_true hstale)]
  · rw [entry_of_nodeFor hnew rfl, newer, if_neg]
    -- an older insert would have left the table as it is
    intro hany
    obtain ⟨e, he, hlt⟩ := (Option.any_eq_true _ _).mp hany
    obtain ⟨oldId, old, hfor, hlive, -, htime⟩ := entry_eq_some he
    have hstale : timestamp < old.timestamp := htime ▸ of_decide_eq_true hlt
    have hsame : t' = t := by
      rw [NodeTable.insertLocked] at hok
      split at hok
      · cases hok
      rw [hfor] at hok
      dsimp only at hok
      rw [hlive, if_neg Bool.false_ne_true, if_pos hstale] at hok
      exact (Prod.mk.inj (Except.ok.inj hok)).2.symm
    rw [hsame, hfor] at hnew
    cases hnew
    exact absurd hstale (UInt64.lt_irrefl _)

end NodeTable

/-! ## The second phase -/

/-- The index takes vectors of this dimension: its own, or that of the first. -/
def batchDim (dim : Option Nat) (items : List BulkItem) : Option Nat :=
  dim.or ((items.filterMap (fun item => bytesToF32 item.vector)).head?.map F32Slice.len)

/-- What the items have for the key that the index takes. -/
def offers (dim : Option Nat) (key : Bytes) (items : List BulkItem) : List (F32Slice × UInt64) :=
  items.filterMap (fun item => (bytesToF32 item.vector).bind (fun vector =>
    if item.key = key ∧ dim = some vector.len then some (vector, item.timestamp) else none))

namespace NamespaceIndex

theorem entry_tryInsertLocked (idx : NamespaceIndex) {vector : F32Slice} {key : Bytes}
    {timestamp : UInt64} (hdim : idx.expectedDim = none ∨ idx.expectedDim = some vector.len) :
    (idx.tryInsertLocked key vector timestamp).expectedDim = some vector.len ∧
      (idx.tryInsertLocked key vector timestamp).table.entry key =
        newer (idx.table.entry key) (vector, timestamp) ∧
      ∀ k, k ≠ key → (idx.tryInsertLocked key vector timestamp).table.entry k = idx.table.entry k := by
  refine ⟨?_, ?_, fun k hne => NodeTable.entry_congr (idx.nodeFor_tryInsertLocked_of_ne _ _ hne)⟩
  · obtain ⟨id, idx', hok⟩ := insertLocked_of_dim hdim key timestamp
    rw [tryInsertLocked, hok]
    exact (insertLocked_ok hok).1.dim
  · obtain ⟨id, t', hins⟩ := NodeTable.insertLocked_of_dim hdim key timestamp
    rw [tryInsertLocked]
    split
    · rename_i hok
      rw [insertLocked] at hok
      split at hok
      · rename_i herr
        cases hins.symm.trans herr
      · cases hok
    · rename_i hok
      rw [insertLocked] at hok
      split at hok
      · cases hok
      · rename_i htable
        cases hok
        exact idx.valid.entry_insertLocked htable

end NamespaceIndex

theorem batchDim_some (d : Nat) (items : List BulkItem) : batchDim (some d) items = some d := rfl

theorem entry_insertItems (items : List BulkItem) (idx : NamespaceIndex) (key : Bytes) :
    (items.foldl insertItem idx).table.entry key =
      (offers (batchDim idx.expectedDim items) key items).foldl newer (idx.table.entry key) := by
  induction items generalizing idx with
  | nil => rfl
  | cons item rest ih =>
    rw [foldl_cons, ih]
    cases hbytes : bytesToF32 item.vector with
    | none => simp [insertItem, offers, batchDim, hbytes]
    | some vector =>
      have hins : insertItem idx item = idx.tryInsertLocked item.key vector item.timestamp := by
        rw [insertItem, hbytes]
      have hoffers : ∀ dim, offers dim key (item :: rest) =
          if item.key = key ∧ dim = some vector.len then (vector, item.timestamp) :: offers dim key rest
          else offers dim key rest := by
        intro dim
        rw [offers, filterMap_cons, hbytes]
        dsimp only [Option.bind_some]
        by_cases hfits : item.key = key ∧ dim = some vector.len
        · rw [if_pos hfits, if_pos hfits]
          rfl
        · rw [if_neg hfits, if_neg hfits]
          rfl
      by_cases hdim : idx.expectedDim = none ∨ idx.expectedDim = some vector.len
      · obtain ⟨hdim', hself, hothers⟩ := @NamespaceIndex.entry_tryInsertLocked idx _ item.key item.timestamp
          hdim
        have hfirst : batchDim idx.expectedDim (item :: rest) = some vector.len := by
          rcases hdim with hnone | hsome
          · rw [hnone, batchDim, filterMap_cons, hbytes]
            rfl
          · rw [hsome]
            rfl
        rw [hins, hdim', batchDim_some, hfirst, hoffers]
        by_cases hkey : item.key = key
        · subst hkey
          rw [if_pos ⟨rfl, rfl⟩, hself, foldl_cons]
        · rw [if_neg (fun h => hkey h.1), hothers key (Ne.symm hkey)]
      · obtain ⟨d, hd, hne⟩ : ∃ d, idx.expectedDim = some d ∧ vector.len ≠ d := by
          cases hd : idx.expectedDim with
          | none => exact absurd (.inl hd) hdim
          | some d => exact ⟨d, rfl, fun h => hdim (.inr (h ▸ hd))⟩
        rw [hins, tryInsertLocked_of_ne hd hne, hd, batchDim_some, batchDim_some, hoffers,
          if_neg (fun h => hne (Option.some.inj h.2).symm)]

/-! ## The first phase -/

namespace BulkRefusal

section
variable (env : NodeEnv)

/-- The write of a vector that the first phase tries and that is not refused. -/
def isStored (worm : Bool) (acc : Option Nat × Node) (item : BulkItem) : Bool :=
  (bytesToF32 item.vector).isSome && !acc.1.any (fun d => item.vector.length ≠ d) &&
    (acc.2.setWithTimestampNoVectorSync env item.key item.vector worm item.timestamp).1.isOk

def storedItems («namespace» : Bytes) (worm : Bool) : Option Nat × Node → List BulkItem → List BulkItem
  | _, [] => []
  | acc, item :: rest =>
      let later := storedItems «namespace» worm (storeItem env «namespace» worm acc item) rest
      if isStored env worm acc item then item :: later else later

/-- The items of the batch that were neither skipped nor refused. -/
def stored (s : Node) («namespace» : Bytes) (metric : Metric) (worm : Bool) :
    List BulkItem → List BulkItem
  | [] => []
  | first :: rest =>
      if (first :: rest).all (fun item => keyBelongsToNamespace item.key «namespace») then
        storedItems env «namespace» worm
          (none, persistNamespaceConfig env s «namespace» metric first.timestamp) (first :: rest)
      else []

end

def entryOf (s : Node) (ns key : Bytes) : Option (F32Slice × UInt64) :=
  (indexOf s ns).bind (fun idx => idx.table.entry key)

/-- The batch leaves the live entries and the queue as it does without the refused items. -/
structure RefusedLeftOut (env : NodeEnv) (s : Node) (ns : Bytes) (metric : Metric) (worm isAsync : Bool)
    (items : List BulkItem) (replicate : Bool) : Prop where
  entries : ∀ k, entryOf (applyVbulkinsert env s ns metric worm isAsync items replicate).2 ns k =
    entryOf (applyVbulkinsert env s ns metric worm isAsync (stored env s ns metric worm items)
      replicate).2 ns k
  queue : queueOf (applyVbulkinsert env s ns metric worm isAsync items replicate).2 ns =
    queueOf (applyVbulkinsert env s ns metric worm isAsync (stored env s ns metric worm items)
      replicate).2 ns

/-- The batch gets as far as an index: all of it is in the namespace, there is a registry,
and the namespace is new or has the metric. -/
def Indexed (s : Node) (ns : Bytes) (metric : Metric) (items : List BulkItem) : Prop :=
  (∀ item ∈ items, keyBelongsToNamespace item.key ns = true) ∧ s.registry.isSome = true ∧
    ∀ idx, indexOf s ns = some idx → idx.metric = metric

/-- For a queue nothing is refused.  For an index, the newest that there is for a key is the
newest of what was there and what is stored. -/
def NoneAhead (env : NodeEnv) (s : Node) (ns : Bytes) (metric : Metric) (worm isAsync : Bool)
    (items : List BulkItem) : Prop :=
  if isAsync || (indexOf s ns).any asyncMode then
    stored env s ns metric worm items = items
  else
    ∀ k, (offers (batchDim ((indexOf s ns).bind expectedDim) items) k items).foldl newer
        (entryOf s ns k) =
      (offers (batchDim ((indexOf s ns).bind expectedDim) items) k
        (stored env s ns metric worm items)).foldl newer (entryOf s ns k)

section Store
variable {env : NodeEnv}

theorem registry_storeItem (ns : Bytes) (worm : Bool) (acc : Option Nat × Node) (item : BulkItem) :
    (storeItem env ns worm acc item).2.registry = acc.2.registry := by
  rw [storeItem]
  split
  · rfl
  · split
    · rfl
    · have hreg := @Node.write_registry env acc.2 item.key item.vector worm item.timestamp
      dsimp only
      split
      · rename_i hset
        rw [hset] at hreg
        exact hreg
      · rename_i hset
        rw [hset] at hreg
        rw [Node.write_registry]
        exact hreg

theorem registry_storeItems (ns : Bytes) (worm : Bool) (items : List BulkItem)
    (acc : Option Nat × Node) :
    (items.foldl (storeItem env ns worm) acc).2.registry = acc.2.registry := by
  induction items generalizing acc with
  | nil => rfl
  | cons item rest ih => rw [foldl_cons, ih, registry_storeItem]

theorem storedItems_sublist (ns : Bytes) (worm : Bool) (acc : Option Nat × Node)
    (items : List BulkItem) : (storedItems env ns worm acc items).Sublist items := by
  induction items generalizing acc with
  | nil => exact Sublist.refl _
  | cons item rest ih =>
    rw [storedItems]
    split
    · exact (ih _).cons_cons item
    · exact (ih _).cons item

theorem stored_sublist (s : Node) (ns : Bytes) (metric : Metric) (worm : Bool) (items : List BulkItem) :
    (stored env s ns metric worm items).Sublist items := by
  cases items with
  | nil => exact Sublist.refl _
  | cons first rest =>
    rw [stored]
    split
    · exact storedItems_sublist ns worm _ _
    · exact nil_sublist _

/-- What is stored has the length of the first vector of the batch. -/
theorem storedItems_len (ns : Bytes) (worm : Bool) {acc : Option Nat × Node} {items : List BulkItem}
    {item : BulkItem} (hitem : item ∈ storedItems env ns worm acc items) :
    ∃ vector, bytesToF32 item.vector = some vector ∧
      batchDim (acc.1.map (· / 4)) items = some vector.len := by
  induction items generalizing acc with
  | nil => cases hitem
  | cons head rest ih =>
    rw [storedItems] at hitem
    cases hbytes : bytesToF32 head.vector with
    | none =>
      have hskip : storeItem env ns worm acc head = acc := by rw [storeItem, hbytes]
      have hnot : isStored env worm acc head = false := by rw [isStored, hbytes]; rfl
      rw [hnot, hskip] at hitem
      obtain ⟨vector, hvector, hdim⟩ := ih hitem
      refine ⟨vector, hvector, ?_⟩
      rw [← hdim, batchDim, batchDim, filterMap_cons, hbytes]
    | some v =>
      have hlen : v.bytes = head.vector := bytesToF32_eq_some.mp hbytes
      -- an item of another length is skipped and changes no dimension
      cases hany : acc.1.any (fun d => head.vector.length ≠ d) with
      | true =>
        have hskip : storeItem env ns worm acc head = acc := by
          rw [storeItem, hbytes]
          dsimp only
          rw [hany, if_pos rfl]
        have hnot : isStored env worm acc head = false := by
          rw [isStored, hany]
          simp
        rw [hnot, hskip] at hitem
        obtain ⟨vector, hvector, hdim⟩ := ih hitem
        refine ⟨vector, hvector, ?_⟩
        obtain ⟨d, hd, -⟩ := (Option.any_eq_true _ _).mp hany
        rw [hd] at hdim ⊢
        exact hdim
      | false =>
        -- the first item that is stored gives the dimension
        have hfirst : batchDim (acc.1.map (· / 4)) (head :: rest) = some v.len := by
          cases hd : acc.1 with
          | none => simp [batchDim, hbytes]
          | some d =>
            rw [hd, Option.any_some, decide_eq_false_iff_not, not_not] at hany
            rw [Option.map_some, batchDim_some, F32Slice.len, hlen, hany]
        have hacc : (storeItem env ns worm acc head).1 = some head.vector.length := by
          rw [storeItem, hbytes]
          dsimp only
          rw [hany, if_neg Bool.false_ne_true]
          split <;> rfl
        -- the items behind it are measured by its length
        have hlater : item ∈ storedItems env ns worm (storeItem env ns worm acc head) rest →
            ∃ vector, bytesToF32 item.vector = some vector ∧
              batchDim (acc.1.map (· / 4)) (head :: rest) = some vector.len := by
          intro hmem
          obtain ⟨vector, hvector, hdim⟩ := ih hmem
          refine ⟨vector, hvector, ?_⟩
          rw [hacc, Option.map_some, batchDim_some, ← hlen] at hdim
          rw [hfirst]
          exact hdim
        split at hitem
        · rcases mem_cons.mp hitem with rfl | hmem
          · exact ⟨v, hbytes, hfirst⟩
          · exact hlater hmem
        · exact hlater hitem

end Store

/-! ## The index after the batch -/

/-- The second phase, as the index sees it. -/
def batchUpdate (isAsync : Bool) (items : List BulkItem) (idx : NamespaceIndex) : NamespaceIndex :=
  updateIndex idx isAsync (fun idx => idx.enqueueAsyncBatch items) (fun idx => items.foldl insertItem idx)

variable {isAsync : Bool} {idx : NamespaceIndex}

theorem batchUpdate_async (h : (isAsync || idx.asyncMode) = true) (items : List BulkItem) :
    (batchUpdate isAsync items idx).table = idx.table ∧ (batchUpdate isAsync items idx).pending =
      idx.pending ++ items.map (fun item => ⟨item.key, item.vector, item.timestamp⟩) := by
  rw [batchUpdate, updateIndex]
  cases hmode : idx.asyncMode with
  | true => simp [hmode, enqueueAsyncBatch]
  | false =>
    rw [hmode, Bool.or_false] at h
    simp [h, enableAsyncMode, enqueueAsyncBatch]

theorem batchUpdate_sync (h : (isAsync || idx.asyncMode) = false)
    (items : List BulkItem) : batchUpdate isAsync items idx = items.foldl insertItem idx := by
  obtain ⟨hflag, hmode⟩ := Bool.or_eq_false_iff.mp h
  rw [batchUpdate, hflag, updateIndex_sync hmode]

theorem pending_insertItems (items : List BulkItem) (idx : NamespaceIndex) :
    (items.foldl insertItem idx).pending = idx.pending := by
  induction items generalizing idx with
  | nil => rfl
  | cons item rest ih =>
    rw [foldl_cons, ih, insertItem]
    split
    · rfl
    · rw [tryInsertLocked]
      split
      · rfl
      · rename_i hok
        exact (insertLocked_ok hok).2.2.2.1

theorem registry_updateRegistry {s s' : Node} (h : s'.registry = s.registry) (ns : Bytes)
    (metric : Metric) (f : NamespaceIndex → NamespaceIndex) :
    (updateRegistry s' ns metric f).registry = (updateRegistry s ns metric f).registry := by
  rw [updateRegistry, updateRegistry, h]
  cases hreg : s.registry with
  | none => exact h
  | some reg =>
    dsimp only
    split
    · exact h
    · rfl

section Apply
variable {env : NodeEnv} {s : Node} {ns : Bytes} {metric : Metric} {worm isAsync : Bool}
  {items : List BulkItem} {replicate : Bool}

theorem registry_publishItems (channel : Bytes) (items : List BulkItem) (s : Node) :
    (items.foldl (fun s item => s.publish channel item.key) s).registry = s.registry := by
  induction items generalizing s with
  | nil => rfl
  | cons item rest ih => rw [foldl_cons, ih, Node.publish]

theorem registry_applyVbulkinsert (hin : ∀ item ∈ items, keyBelongsToNamespace item.key ns = true)
    (hne : items ≠ []) :
    (applyVbulkinsert env s ns metric worm isAsync items replicate).2.registry =
      (updateRegistry s ns metric (batchUpdate isAsync items)).registry := by
  rw [applyVbulkinsert.eq_def]
  split
  · exact absurd rfl hne
  rename_i first rest
  have hall : (first :: rest).all (fun item => keyBelongsToNamespace item.key ns) = true :=
    all_eq_true.mpr hin
  rw [hall, if_neg (by decide)]
  have hlast : ∀ (s : Node) wanted frame, (s.replicate env wanted frame).registry = s.registry := by
    intro s wanted frame
    rw [Node.replicate]
    split <;> rfl
  dsimp only
  rw [hlast, registry_publishItems]
  exact registry_updateRegistry ((registry_storeItems ns worm _ _).trans
    (persist_registry s ns metric first.timestamp)) ns metric _

theorem indexOf_applyVbulkinsert (h : Indexed s ns metric items) (hne : items ≠ []) :
    indexOf (applyVbulkinsert env s ns metric worm isAsync items replicate).2 ns =
      some (batchUpdate isAsync items ((indexOf s ns).getD (init metric))) := by
  rw [indexOf, registry_applyVbulkinsert h.1 hne]
  exact (indexOf_updateRegistry h.2.1 h.2.2 (batchUpdate isAsync items)).1

/-- Short of an index nothing happens to the entries and the queue. -/
theorem indexOf_applyVbulkinsert_of_not (h : ¬ Indexed s ns metric items) :
    indexOf (applyVbulkinsert env s ns metric worm isAsync items replicate).2 ns = indexOf s ns := by
  by_cases hin : ∀ item ∈ items, keyBelongsToNamespace item.key ns = true
  · by_cases hne : items = []
    · rw [hne]
      rfl
    rw [indexOf, registry_applyVbulkinsert hin hne, indexOf, updateRegistry]
    cases hreg : s.registry with
    | none =>
      dsimp only
      rw [hreg]
    | some reg =>
      dsimp only
      split
      · rw [hreg]
      · rename_i hok
        refine absurd ⟨hin, by rw [hreg]; rfl, fun idx hidx => ?_⟩ h
        rw [indexOf, hreg, Option.bind_some] at hidx
        rw [getOrCreate, hidx] at hok
        dsimp only at hok
        by_contra hmetric
        rw [if_pos hmetric] at hok
        cases hok
  · cases items with
    | nil => rfl
    | cons first rest =>
      have hall : (first :: rest).all (fun item => keyBelongsToNamespace item.key ns) = false := by
        rw [← Bool.not_eq_true, all_eq_true]
        exact hin
      rw [applyVbulkinsert.eq_def]
      dsimp only
      rw [hall, if_pos (by decide)]

theorem Indexed.stored (h : Indexed s ns metric items) :
    Indexed s ns metric (stored env s ns metric worm items) :=
  ⟨fun item hitem => h.1 item ((stored_sublist s ns metric worm items).mem hitem), h.2⟩

/-- What is stored is offered to an index of the batch's own dimension. -/
theorem batchDim_stored (dim : Option Nat) (h : stored env s ns metric worm items ≠ []) :
    batchDim dim (stored env s ns metric worm items) = batchDim dim items := by
  cases dim with
  | some d => rfl
  | none =>
    obtain ⟨head, rest, hlist⟩ := exists_cons_of_ne_nil h
    have hmem : head ∈ stored env s ns metric worm items := by rw [hlist]; exact mem_cons_self
    cases items with
    | nil => cases hmem
    | cons first others =>
      rw [BulkRefusal.stored] at hmem
      split at hmem
      · obtain ⟨vector, hvector, hdim⟩ := storedItems_len ns worm hmem
        rw [hlist, show batchDim none (first :: others) = some vector.len from hdim, batchDim,
          filterMap_cons, hvector]
        rfl
      · cases hmem

theorem asyncMode_getD (o : Option NamespaceIndex) (metric : Metric) :
    (o.getD (init metric)).asyncMode = o.any asyncMode := by
  cases o <;> rfl

/-- A batch that is queued. -/
theorem effect_async (h : Indexed s ns metric items)
    (hasync : (isAsync || (indexOf s ns).any asyncMode) = true) :
    (∀ k, entryOf (applyVbulkinsert env s ns metric worm isAsync items replicate).2 ns k =
      entryOf s ns k) ∧
    queueOf (applyVbulkinsert env s ns metric worm isAsync items replicate).2 ns =
      queueOf s ns ++ items.map (fun item => ⟨item.key, item.vector, item.timestamp⟩) := by
  by_cases hne : items = []
  · rw [hne]
    exact ⟨fun _ => rfl, (append_nil _).symm⟩
  rw [← asyncMode_getD (indexOf s ns) metric] at hasync
  obtain ⟨htable, hpending⟩ := batchUpdate_async hasync items
  refine ⟨fun k => ?_, ?_⟩
  · rw [entryOf, indexOf_applyVbulkinsert h hne, Option.bind_some, htable, entryOf]
    cases indexOf s ns <;> rfl
  · rw [queueOf, indexOf_applyVbulkinsert h hne, Option.map_some, Option.getD_some, hpending, queueOf]
    cases indexOf s ns <;> rfl

/-- A batch that is brought into the index. -/
theorem effect_sync (h : Indexed s ns metric items)
    (hsync : (isAsync || (indexOf s ns).any asyncMode) = false) :
    (∀ k, entryOf (applyVbulkinsert env s ns metric worm isAsync items replicate).2 ns k =
      (offers (batchDim ((indexOf s ns).bind expectedDim) items) k items).foldl newer
        (entryOf s ns k)) ∧
    queueOf (applyVbulkinsert env s ns metric worm isAsync items replicate).2 ns = queueOf s ns := by
  by_cases hne : items = []
  · rw [hne]
    exact ⟨fun _ => rfl, rfl⟩
  rw [← asyncMode_getD (indexOf s ns) metric] at hsync
  refine ⟨fun k => ?_, ?_⟩
  · rw [entryOf, indexOf_applyVbulkinsert h hne, Option.bind_some, batchUpdate_sync hsync,
      entry_insertItems, entryOf]
    cases indexOf s ns <;> rfl
  · rw [queueOf, indexOf_applyVbulkinsert h hne, Option.map_some, Option.getD_some,
      batchUpdate_sync hsync, pending_insertItems, queueOf]
    cases indexOf s ns <;> rfl

/-- **The refused items of a batch are without effect exactly when none of them is queued and
none is newer than all that is stored.** -/
theorem refused_left_out_iff (env : NodeEnv) (s : Node) (ns : Bytes) (metric : Metric)
    (worm isAsync : Bool) (items : List BulkItem) (replicate : Bool) :
    RefusedLeftOut env s ns metric worm isAsync items replicate ↔
      (Indexed s ns metric items → NoneAhead env s ns metric worm isAsync items) := by
  by_cases h : Indexed s ns metric items
  · have hs : Indexed s ns metric (stored env s ns metric worm items) := h.stored
    simp only [h, forall_const]
    cases hmode : (isAsync || (indexOf s ns).any asyncMode) with
    | true =>
      obtain ⟨hentries, hqueue⟩ := @effect_async env s ns metric worm isAsync items replicate h hmode
      obtain ⟨hentries', hqueue'⟩ := @effect_async env s ns metric worm isAsync _ replicate hs hmode
      rw [NoneAhead, hmode, if_pos rfl]
      constructor
      · rintro ⟨-, hsame⟩
        rw [hqueue, hqueue', append_cancel_left_eq] at hsame
        refine (stored_sublist s ns metric worm items).eq_of_length ?_
        have hlen := congrArg List.length hsame
        rw [length_map, length_map] at hlen
        exact hlen.symm
      · intro heq
        exact ⟨fun k => by rw [heq], by rw [heq]⟩
    | false =>
      obtain ⟨hentries, hqueue⟩ := @effect_sync env s ns metric worm isAsync items replicate h hmode
      obtain ⟨hentries', hqueue'⟩ := @effect_sync env s ns metric worm isAsync _ replicate hs hmode
      -- the stored items alone have the dimension of the batch
      have hoffers : ∀ k, offers (batchDim ((indexOf s ns).bind expectedDim)
            (stored env s ns metric worm items)) k (stored env s ns metric worm items) =
          offers (batchDim ((indexOf s ns).bind expectedDim) items) k
            (stored env s ns metric worm items) := by
        intro k
        by_cases hnone : stored env s ns metric worm items = []
        · rw [hnone]
          rfl
        · rw [batchDim_stored _ hnone]
      rw [NoneAhead, hmode, if_neg Bool.false_ne_true]
      constructor
      · rintro ⟨hsame, -⟩ k
        rw [← hentries k, hsame k, hentries' k, hoffers k]
      · intro hsame
        refine ⟨fun k => ?_, hqueue.trans hqueue'.symm⟩
        rw [hentries k, hsame k, hentries' k, hoffers k]
  · -- a batch that is not indexed leaves the index alone, and so do its stored items
    have hstored : indexOf (applyVbulkinsert env s ns metric worm isAsync
        (stored env s ns metric worm items) replicate).2 ns = indexOf s ns := by
      by_cases hs : Indexed s ns metric (stored env s ns metric worm items)
      · -- then it is a key of the batch that is not in the namespace
        have hnone : stored env s ns metric worm items = [] := by
          cases items with
          | nil => rfl
          | cons first rest =>
            rw [stored, if_neg]
            intro hall
            exact h ⟨all_eq_true.mp hall, hs.2⟩
        rw [hnone]
        rfl
      · exact indexOf_applyVbulkinsert_of_not hs
    have hitems := @indexOf_applyVbulkinsert_of_not env s ns metric worm isAsync items replicate h
    constructor
    · exact fun _ hindexed => absurd hindexed h
    · intro _
      refine ⟨fun k => ?_, ?_⟩
      · rw [entryOf, entryOf, hitems, hstored]
      · rw [queueOf, queueOf, hitems, hstored]

/-- Then a key that no item is stored under keeps its live entry. -/
theorem RefusedLeftOut.entry_kept (h : RefusedLeftOut env s ns metric worm isAsync items replicate)
    {k : Bytes} (hnone : ∀ item ∈ stored env s ns metric worm items, item.key ≠ k) :
    entryOf (applyVbulkinsert env s ns metric worm isAsync items replicate).2 ns k = entryOf s ns k := by
  rw [h.entries k]
  by_cases hs : Indexed s ns metric (stored env s ns metric worm items)
  · cases hmode : (isAsync || (indexOf s ns).any asyncMode) with
    | true => exact (effect_async hs hmode).1 k
    | false =>
      rw [(effect_sync hs hmode).1 k]
      have hoffers : ∀ dim, offers dim k (stored env s ns metric worm items) = [] := by
        intro dim
        refine filterMap_eq_nil_iff.mpr (fun item hitem => ?_)
        cases bytesToF32 item.vector with
        | none => rfl
        | some vector => exact if_neg (fun hfits => hnone item hitem hfits.1)
      rw [hoffers]
      rfl
  · rw [entryOf, indexOf_applyVbulkinsert_of_not hs, entryOf]

end Apply

/-! ## WORM keys -/

/-- The store refuses to write the key. -/
def Blocked (env : NodeEnv) (s : Node) (key : Bytes) : Prop :=
  ((s.kv.get key).or (env.frozen key)).any Content.isWorm = true

section Worm
variable {env : NodeEnv} {s : Node} {ns : Bytes} {metric : Metric} {worm isAsync : Bool}
  {items : List BulkItem} {replicate : Bool} {k : Bytes}

theorem Blocked.not_ok (h : Blocked env s k) (value : Bytes) (isWorm : Bool) (timestamp : UInt64) :
    (s.setWithTimestampNoVectorSync env k value isWorm timestamp).1.isOk = false := by
  rw [Blocked] at h
  rw [Node.setWithTimestampNoVectorSync]
  dsimp only
  split
  · rfl
  · rw [if_pos h]
    rfl

theorem Blocked.set (h : Blocked env s k) (key value : Bytes) (isWorm : Bool) (timestamp : UInt64) :
    Blocked env (s.setWithTimestampNoVectorSync env key value isWorm timestamp).2 k := by
  rw [Node.setWithTimestampNoVectorSync]
  dsimp only
  split
  · exact h
  · split
    · exact h
    · rename_i hfree
      have hne : k ≠ key := by
        rintro rfl
        exact hfree h
      rw [Blocked, ByteMap.get_insert_of_ne _ _ hne]
      exact h

theorem Blocked.persist (h : Blocked env s k) (ns : Bytes) (metric : Metric) (timestamp : UInt64) :
    Blocked env (persistNamespaceConfig env s ns metric timestamp) k := by
  rw [persistNamespaceConfig]
  split
  · exact h
  · exact h.set _ _ _ _

variable {acc : Option Nat × Node}

theorem Blocked.storeItem (h : Blocked env acc.2 k) (ns : Bytes) (worm : Bool)
    (item : BulkItem) : Blocked env (storeItem env ns worm acc item).2 k := by
  rw [VectorOps.storeItem]
  split
  · exact h
  · split
    · exact h
    · have hset := h.set item.key item.vector worm item.timestamp
      dsimp only
      split
      · rename_i heq
        rw [heq] at hset
        exact hset
      · rename_i heq
        rw [heq] at hset
        exact hset.set _ _ _ _

theorem Blocked.storedItems (h : Blocked env acc.2 k) (ns : Bytes)
    (worm : Bool) : ∀ item ∈ storedItems env ns worm acc items, item.key ≠ k := by
  induction items generalizing acc with
  | nil => exact nofun
  | cons head rest ih =>
    have hrest := ih (h.storeItem ns worm head)
    rw [BulkRefusal.storedItems]
    split
    · rename_i hstored
      rintro item hitem
      rcases mem_cons.mp hitem with rfl | hmem
      · rintro rfl
        rw [isStored, h.not_ok, Bool.and_false] at hstored
        cases hstored
      · exact hrest item hmem
    · exact hrest

/-- **A WORM key keeps its vector in the index, when the refused items are left out.** -/
theorem RefusedLeftOut.entry_frozen (h : RefusedLeftOut env s ns metric worm isAsync items replicate)
    (hworm : Blocked env s k) :
    entryOf (applyVbulkinsert env s ns metric worm isAsync items replicate).2 ns k = entryOf s ns k := by
  refine h.entry_kept (fun item hitem => ?_)
  cases items with
  | nil => cases hitem
  | cons first rest =>
    rw [stored] at hitem
    split at hitem
    · exact (hworm.persist ns metric first.timestamp).storedItems ns worm item hitem
    · cases hitem

end Worm

/-! A WORM vector under `v:a`, and a batch with another vector for the key. -/

def wormNode : Node := (applyVinsert calmEnv emptyState.node
  ⟨ascii "v:a", [0, 0, 0, 0], true, ascii "v:", .l2, 1, false, false⟩).2

def wormBatch : List BulkItem := [⟨ascii "v:a", [0, 0, 0, 1], 2⟩]

/-- **The refused vector is in the index, or in the queue.** -/
theorem worm_key_overwritten :
    Blocked calmEnv wormNode (ascii "v:a") ∧
    (entryOf wormNode (ascii "v:") (ascii "v:a")).map (fun e => (e.1.bytes, e.2)) = some ([0, 0, 0, 0], 1) ∧
    stored calmEnv wormNode (ascii "v:") .l2 false wormBatch = [] ∧
    (entryOf (applyVbulkinsert calmEnv wormNode (ascii "v:") .l2 false false wormBatch false).2
      (ascii "v:") (ascii "v:a")).map (fun e => (e.1.bytes, e.2)) = some ([0, 0, 0, 1], 2) ∧
    queueOf (applyVbulkinsert calmEnv wormNode (ascii "v:") .l2 false true wormBatch false).2
      (ascii "v:") = [⟨ascii "v:a", [0, 0, 0, 1], 2⟩] ∧
    ¬ RefusedLeftOut calmEnv wormNode (ascii "v:") .l2 false false wormBatch false ∧
    ¬ RefusedLeftOut calmEnv wormNode (ascii "v:") .l2 false true wormBatch false := by
  have hblocked : Blocked calmEnv wormNode (ascii "v:a") := by
    unfold Blocked
    decide
  have hbefore : (entryOf wormNode (ascii "v:") (ascii "v:a")).map (fun e => (e.1.bytes, e.2)) =
      some ([0, 0, 0, 0], 1) := by decide
  have hafter : (entryOf (applyVbulkinsert calmEnv wormNode (ascii "v:") .l2 false false wormBatch
      false).2 (ascii "v:") (ascii "v:a")).map (fun e => (e.1.bytes, e.2)) = some ([0, 0, 0, 1], 2) := by
    decide
  have hqueue : queueOf (applyVbulkinsert calmEnv wormNode (ascii "v:") .l2 false true wormBatch
      false).2 (ascii "v:") = [⟨ascii "v:a", [0, 0, 0, 1], 2⟩] := by decide
  have hstored : stored calmEnv wormNode (ascii "v:") .l2 false wormBatch = [] := by decide
  refine ⟨hblocked, hbefore, hstored, hafter, hqueue, fun h => ?_, fun h => ?_⟩
  · rw [h.entry_frozen hblocked, hbefore] at hafter
    exact absurd hafter (by decide)
  · rw [h.queue, hstored] at hqueue
    exact absurd hqueue (by decide)

end BulkRefusal
end WormDB
