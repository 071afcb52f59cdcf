import WormDB.VectorAgreement

/-! # Runs of a vector namespace

Every operation keeps the keys in step that it does not take out of step itself, so that in
every state a run reaches the index agrees with the store on them. -/
namespace WormDB
open List ByteCodec PrefixMap NamespaceRegistry VectorOps NamespaceIndex

namespace VectorAgreement

section
variable {env : NodeEnv} {ns : Bytes} {settled : Bytes → Prop} {now : UInt64} {s : Node}
  {idx : NamespaceIndex}

/-- A write lands, or leaves the node as it is. -/
theorem write_cases (env : NodeEnv) (s : Node) (key value : Bytes) (timestamp : UInt64) :
    (∃ e, s.setWithTimestampNoVectorSync env key value false timestamp =
      (.error e, { s with accesses := s.accesses + 1 })) ∨
    s.setWithTimestampNoVectorSync env key value false timestamp =
      (.ok (), { s with kv := s.kv.insert key ⟨value, timestamp, false⟩,
                        accesses := s.accesses + 1 }) := by
  rw [Node.setWithTimestampNoVectorSync]
  dsimp only
  split
  · exact .inl ⟨_, rfl⟩
  split
  · exact .inl ⟨_, rfl⟩
  · exact .inr rfl

/-! ## One vector -/

theorem Inv.finishVinsert (env : NodeEnv) (h : Inv ns settled now s idx) (args : VinsertArgs)
    {v : F32Slice}
    (hns : args.namespace = ns) (hasync : args.isAsync = false) (hv : v.bytes = args.vector)
    (hget : s.kv.get args.key = some ⟨args.vector, args.timestamp, false⟩)
    (hdim : idx.expectedDim = none ∨ idx.expectedDim = some v.len) (hnow : now ≤ args.timestamp) :
    ∃ idx', Inv ns (fun k => settled k ∨ k = args.key ∧ idx.metric = args.metric) args.timestamp
      (VectorOps.finishVinsert env s args v) idx' := by
  subst hns
  -- the configuration and the companion are under other keys
  have hside : Side args.namespace s (((persistNamespaceConfig env s args.namespace args.metric
      args.timestamp).setWithTimestampNoVectorSync env (bqKey args.key) (encodeBqOwned env v (indexOf
        (persistNamespaceConfig env s args.namespace args.metric args.timestamp) args.namespace))
        args.worm args.timestamp).2) :=
    (Side.persistNamespaceConfig env s _ _ _).trans
      (Side.write env _ _ _ _ (fun k hk => hk.ne_bqKey args.key))
  rw [VectorOps.finishVinsert]
  generalize ((persistNamespaceConfig env s args.namespace args.metric
    args.timestamp).setWithTimestampNoVectorSync env (bqKey args.key) (encodeBqOwned env v (indexOf
      (persistNamespaceConfig env s args.namespace args.metric args.timestamp) args.namespace))
      args.worm args.timestamp).2 = s₁ at hside ⊢
  have h₁ := h.side hside
  obtain ⟨hreg, hkv⟩ := updateRegistry_single h₁.registry args.metric (fun idx =>
    updateIndex idx args.isAsync (fun idx => idx.enqueueAsync args.key args.vector args.timestamp)
      (fun idx => idx.tryInsertLocked args.key v args.timestamp))
  generalize updateRegistry s₁ args.namespace args.metric (fun idx =>
    updateIndex idx args.isAsync (fun idx => idx.enqueueAsync args.key args.vector args.timestamp)
      (fun idx => idx.tryInsertLocked args.key v args.timestamp)) = s₂ at hreg hkv ⊢
  have hlast : Side args.namespace s₂ ((s₂.publish (args.namespace ++ insertedSuffix)
      args.key).replicate env args.replicate (.vinsert ⟨args.key, args.vector, args.worm,
        args.namespace, args.metric.name, args.timestamp, args.isAsync⟩)) :=
    (Side.publish s₂ _ _).trans (Side.replicate env _ _ _)
  rw [hasync, metricInsert] at hreg
  by_cases hmetric : idx.metric = args.metric
  · rw [if_neg (not_not.mpr hmetric), updateIndex_sync h₁.sync] at hreg
    obtain ⟨id, idx', hok⟩ := insertLocked_of_dim hdim args.key args.timestamp
    rw [tryInsertLocked, hok] at hreg
    have h₂ := h₁.insert (fun hk => (hside.kv _ hk).trans hget) hv.symm hdim hnow hok hreg hkv
    refine ⟨idx', (h₂.side hlast).mono (fun k _ hs => ?_) (UInt64.le_refl _)⟩
    exact hs.imp_right And.left
  · rw [if_pos hmetric] at hreg
    have h₂ : Inv args.namespace settled now s₂ idx :=
      h₁.side ⟨hreg.trans h₁.registry.symm, fun _ _ => by rw [hkv]⟩
    refine ⟨idx, (h₂.side hlast).mono (fun k _ hs => ?_) hnow⟩
    exact hs.resolve_right (fun hk => hmetric hk.2)

variable {key : Bytes} {timestamp : UInt64} {replicate : Bool}

theorem Inv.vinsert (hcalm : Calm env ns) (h : Inv ns settled now s idx) {vector : Bytes}
    {metric : Metric} (hnow : now ≤ timestamp) :
    ∃ idx', Inv ns
    ((Op.vinsert key vector metric timestamp replicate).settled ns s settled) timestamp
      ((Op.vinsert key vector metric timestamp replicate).apply env ns s) idx' := by
  -- a refused insert settles nothing
  have hrefused : ¬ Accepted ns (dimOf s ns) key vector →
      Inv ns ((Op.vinsert key vector metric timestamp replicate).settled ns s settled) timestamp s idx :=
    fun hnot => h.mono (fun _ _ hs => hs.elim (fun hset => absurd hset.2.1 hnot) And.left) hnow
  rw [Op.apply, applyVinsert]
  dsimp only
  split
  · rename_i hbytes
    refine ⟨idx, hrefused ?_⟩
    rintro ⟨v, hv, -⟩
    cases hbytes.symm.trans hv
  rename_i v hbytes
  split
  · rename_i hbelongs
    refine ⟨idx, hrefused ?_⟩
    rintro ⟨-, -, hns, -⟩
    rw [hns] at hbelongs
    cases hbelongs
  rename_i hbelongs
  split
  · rename_i hmismatch
    refine ⟨idx, hrefused ?_⟩
    rintro ⟨w, hw, -, hdim⟩
    cases hbytes.symm.trans hw
    obtain ⟨d, hd, hne⟩ := (Option.any_eq_true _ _).mp hmismatch
    rw [dimOf, hd] at hdim
    rcases hdim with hnone | hsome
    · cases hnone
    · exact of_decide_eq_true hne (Option.some.inj hsome).symm
  rename_i hmatch
  have hdim : idx.expectedDim = none ∨ idx.expectedDim = some v.len := by
    rw [h.indexOf_eq, Option.bind_some] at hmatch
    cases hd : idx.expectedDim with
    | none => exact .inl rfl
    | some d =>
      rw [hd, Option.any_some, decide_eq_true_eq, not_not] at hmatch
      exact .inr (congrArg some hmatch.symm)
  have haccepted : Accepted ns (dimOf s ns) key vector :=
    ⟨v, hbytes, by simpa using hbelongs, by rw [h.dimOf_eq]; exact hdim⟩
  rcases write_cases env s key vector timestamp with ⟨e, herr⟩ | hok
  · -- only a key that looks derived can be WORM
    rw [herr]
    have hnot : ¬ Proper ns key := by
      intro hk
      rw [write_eq hcalm hk (h.nonWorm key hk)] at herr
      cases (Prod.mk.inj herr).1
    have hside : Side ns s { s with accesses := s.accesses + 1 } := ⟨rfl, fun _ _ => rfl⟩
    refine ⟨idx, (h.side hside).mono (fun k hk hs => ?_) hnow⟩
    rcases hs with ⟨rfl, -⟩ | hs
    · exact absurd hk hnot
    · exact hs.1
  · rw [hok]
    obtain ⟨idx', hinv⟩ := (h.write key vector timestamp (s.accesses + 1)).finishVinsert env
      ⟨key, vector, false, ns, metric, timestamp, replicate, false⟩ rfl rfl
      (bytesToF32_eq_some.mp hbytes) (ByteMap.get_insert_self _ _ _) hdim hnow
    refine ⟨idx', hinv.mono (fun k _ hs => ?_) (UInt64.le_refl _)⟩
    -- the key is settled now, and another key if it was before
    rcases hs with ⟨rfl, -, hmetric⟩ | ⟨hbefore, hlapse⟩
    · rw [h.metricOf_eq] at hmetric
      exact .inr ⟨rfl, Option.some.inj hmetric⟩
    · by_cases hkey : k = key
      · refine .inr ⟨hkey, not_not.mp (fun hne => hlapse ⟨hkey, haccepted, ?_⟩)⟩
        rw [h.metricOf_eq]
        exact fun heq => hne (Option.some.inj heq)
      · exact .inl ⟨hbefore, hkey⟩

/-! ## Deletes -/

/-- A key of the namespace that is not proper is in no index. -/
theorem mayMatch_of_not_proper (hbelongs : keyBelongsToNamespace key ns = true)
    (hk : ¬ Proper ns key) (reg : NamespaceRegistry) :
    reg.mayMatchRegisteredNamespace key = false := by
  rw [mayMatchRegisteredNamespace]
  by_cases hbq : bqPrefix.isPrefixOf key = true
  · simp [hbq]
  · have hmeta : metaPrefix.isPrefixOf key = true := by
      by_contra hmeta
      exact hk ⟨hbelongs, Bool.not_eq_true _ ▸ hbq, Bool.not_eq_true _ ▸ hmeta⟩
    simp [hmeta]

/-- The delete of a key that is in no index. -/
theorem Side.delete (env : NodeEnv) (s : Node) (hkey : ∀ k, Proper ns k → k ≠ key)
    (hmatch : ∀ reg : NamespaceRegistry, reg.mayMatchRegisteredNamespace key = false) :
    Side ns s (s.delete env key).2 := by
  have hremove := Side.remove env s hkey
  rw [Node.delete]
  generalize s.remove env key = removed at hremove ⊢
  rcases removed with ⟨e | (_ | _), s'⟩
  · exact hremove
  · exact hremove
  · refine hremove.trans ?_
    dsimp only
    rw [Node.withRegistry]
    split
    · rename_i reg hreg
      split
      · have hsync : reg.syncRawDelete key = (false, reg) := by
          rw [syncRawDelete, hmatch]
          rfl
        rw [Node.syncVectorDeleteWithRegistry, hsync]
        exact ⟨hreg.symm, fun _ _ => rfl⟩
      · exact Side.refl s'
    · exact Side.refl s'

/-- A plain delete of a key brings it into step, if it was there. -/
theorem Inv.delete (hcalm : Calm env ns) (h : Inv ns settled now s idx)
    (hbelongs : keyBelongsToNamespace key ns = true) :
    ∃ idx', Inv ns (fun k => settled k ∨ k = key ∧ (s.kv.get key).isSome = true) now
      (s.delete env key).2 idx' := by
  by_cases hk : Proper ns key
  · rw [Node.delete]
    cases hget : s.kv.get key with
    | none =>
      rw [Node.remove, hget]
      exact ⟨idx, h.mono (fun _ _ hs => hs.resolve_right (fun hr => absurd hr.2 Bool.false_ne_true)) (UInt64.le_refl _)⟩
    | some content =>
      have hworm : content.isWorm = false := by
        have hany := h.nonWorm key hk
        rw [hget] at hany
        exact hany
      rw [remove_eq hcalm hget hworm]
      dsimp only
      rw [Node.withRegistry, h.registry, hcalm.attached]
      dsimp only
      rw [if_pos rfl, Node.syncVectorDeleteWithRegistry, syncRawDelete_single idx hk]
      dsimp only
      rw [if_pos rfl]
      have hgone : (s.kv.erase key).get key = none := ByteMap.get_erase_self _ _
      have htomb : InStep ns (fun k => settled k ∨ k = key) (s.kv.erase key)
          (idx.markTombstoneLocked key).2.table now :=
        h.inStep.tombstone (idx.valid.markTombstoneLocked key) (UInt64.le_refl now)
          (fun _ => by rw [hgone]; rfl) (fun _ _ => by rw [hgone]; rfl)
          (fun k _ hne => ByteMap.get_erase_of_ne _ hne)
      have hinv : Inv ns (fun k => settled k ∨ k = key) now
          { s with kv := s.kv.erase key, accesses := s.accesses + 1,
                   registry := some (single ns (idx.markTombstoneLocked key).2) }
          (idx.markTombstoneLocked key).2 := by
        refine ⟨rfl, h.sync, fun k hk' => ?_, htomb⟩
        dsimp only
        by_cases hkey : k = key
        · rw [hkey, hgone]
          rfl
        · rw [ByteMap.get_erase_of_ne _ hkey]
          exact h.nonWorm k hk'
      refine ⟨_, (hinv.side (Side.remove env _ (fun k hk' => hk'.ne_bqKey key))).mono
        (fun k _ hs => hs.imp_right And.left) (UInt64.le_refl _)⟩
  · have hne : ∀ k, Proper ns k → k ≠ key := by
      rintro k hk' rfl
      exact hk hk'
    refine ⟨idx, (h.side (Side.delete env s hne (mayMatch_of_not_proper hbelongs hk))).mono
      (fun k hk' hs => hs.resolve_right (fun hr => hne k hk' hr.1)) (UInt64.le_refl _)⟩

theorem Inv.del (hcalm : Calm env ns) (h : Inv ns settled now s idx)
    (hwithin : (Op.del key).Within ns) :
    ∃ idx', Inv ns ((Op.del key).settled ns s settled) now ((Op.del key).apply env ns s) idx' := by
  obtain ⟨idx', hinv⟩ := h.delete hcalm hwithin
  refine ⟨idx', hinv.mono (fun k _ hs => ?_) (UInt64.le_refl _)⟩
  rcases hs with hsettles | ⟨hbefore, -⟩
  · exact .inr hsettles
  · exact .inl hbefore

theorem remove_get_none (env : NodeEnv) {s : Node} {k : Bytes} (hnone : s.kv.get k = none) (key : Bytes) :
    (s.remove env key).2.kv.get k = none := by
  rw [Node.remove]
  split
  · exact hnone
  split
  · exact hnone
  dsimp only
  split
  · exact hnone
  · by_cases hk : k = key
    · rw [hk]
      exact ByteMap.get_erase_self _ _
    · dsimp only
      rw [ByteMap.get_erase_of_ne _ hk]
      exact hnone

/-- A key that was deleted is not there. -/
theorem get_of_delete {s' : Node} (hdel : s.delete env key = (.ok (), s')) :
    s'.kv.get key = none := by
  have hremoved : ∀ {b : Bool} {s₁ : Node}, s.remove env key = (.ok b, s₁) → s₁.kv.get key = none := by
    intro b s₁ hrem
    rw [Node.remove] at hrem
    split at hrem
    · rename_i hnone
      cases hrem
      exact hnone
    split at hrem
    · cases hrem
    dsimp only at hrem
    split at hrem
    · cases hrem
    · cases hrem
      exact ByteMap.get_erase_self _ _
  rw [Node.delete] at hdel
  split at hdel
  · cases hdel
  · rename_i hrem
    cases hdel
    exact hremoved hrem
  · rename_i s₁ hrem
    cases hdel
    have hnone := hremoved hrem
    rw [Node.withRegistry]
    split
    · split
      · rw [Node.syncVectorDeleteWithRegistry]
        split
        · refine remove_get_none env ?_ _
          exact hnone
        · exact hnone
      · exact hnone
    · exact hnone

theorem Inv.vdelete (hcalm : Calm env ns) (h : Inv ns settled now s idx) :
    ∃ idx', Inv ns ((Op.vdelete key replicate).settled ns s settled) now
      ((Op.vdelete key replicate).apply env ns s) idx' := by
  rw [Op.apply, applyVdelete]
  split
  · rename_i hbelongs
    refine ⟨idx, h.mono (fun k hk hs => ?_) (UInt64.le_refl _)⟩
    rcases hs with ⟨rfl, -⟩ | ⟨hbefore, -⟩
    · rw [hk.1] at hbelongs
      cases hbelongs
    · exact hbefore
  rename_i hbelongs
  obtain ⟨idx₁, h₁⟩ := h.delete hcalm (by simpa using hbelongs : keyBelongsToNamespace key ns = true)
  have hsub : ∀ k, (Op.vdelete key replicate).settled ns s settled k →
      settled k ∨ k = key ∧ (s.kv.get key).isSome = true :=
    fun k hs => hs.elim .inr (fun hbefore => .inl hbefore.1)
  have hnone : ∀ s', s.delete env key = (.ok (), s') → s'.kv.get key = none :=
    fun _ => get_of_delete
  generalize s.delete env key = deleted at h₁ hnone ⊢
  obtain ⟨r, s₁⟩ := deleted
  cases r with
  | error e => exact ⟨idx₁, h₁.mono (fun k _ hs => hsub k hs) (UInt64.le_refl _)⟩
  | ok _ =>
    dsimp only at h₁ ⊢
    have hside : Side ns s₁ (s₁.delete env (bqKey key)).2 :=
      Side.delete env s₁ (fun k hk => hk.ne_bqKey key) (fun reg => NodeFrame.mayMatch_bqKey reg key)
    have h₂ := (h₁.side hside).mono (fun k _ hs => hsub k hs) (UInt64.le_refl _)
    have hgone : Proper ns key → (s₁.delete env (bqKey key)).2.kv.get key = none :=
      fun hk => (hside.kv key hk).trans (hnone s₁ rfl)
    generalize s₁.delete env (bqKey key) = second at h₂ hgone ⊢
    obtain ⟨r₂, s₂⟩ := second
    split
    · rename_i heq
      cases heq
      exact ⟨idx₁, h₂⟩
    · rename_i heq
      cases heq
      dsimp only at h₂ hgone ⊢
      have htomb := h₂.inStep.tombstone (idx₁.valid.markTombstoneLocked key) (UInt64.le_refl now)
        (fun hk => by rw [hgone hk]; rfl) (fun hk _ => by rw [hgone hk]; rfl) (fun _ _ _ => rfl)
      have hinv : Inv ns (fun k => (Op.vdelete key replicate).settled ns s settled k ∨ k = key) now
          { s₂ with registry := s₂.registry.map (fun reg : NamespaceRegistry =>
              reg.modify ns (fun idx => (idx.markTombstoneLocked key).2)) }
          (idx₁.markTombstoneLocked key).2 := by
        refine ⟨?_, h₂.sync, h₂.nonWorm, htomb⟩
        rw [h₂.registry, Option.map_some, modify_single]
      refine ⟨_, (hinv.mono (fun _ _ hs => .inl hs) (UInt64.le_refl _)).side ?_⟩
      exact (Side.publish _ _ _).trans (Side.replicate env _ _ _)

/-! ## Plain writes -/

theorem storedVector_of_ne {d : Nat} {content : Content}
    (hne : ∀ v, bytesToF32 content.value = some v → v.len ≠ d) :
    storedVector (some d) (some content) = none := by
  rw [storedVector, Option.bind_some]
  cases hbytes : bytesToF32 content.value with
  | none => rfl
  | some v => simp [Option.filter, (hne v hbytes).symm]

/-- The index after a plain write of one of its keys. -/
def rawSet (rabitqEncode : Metric → RabitqParams → F32Slice → Bytes) (idx : NamespaceIndex)
    (key value : Bytes) (timestamp : UInt64) : NamespaceIndex :=
  match idx.nodeFor key with
  | some (_, node) => (refresh rabitqEncode idx node key value timestamp).2
  | none => (adopt rabitqEncode idx key value timestamp).2

variable (rabitqEncode : Metric → RabitqParams → F32Slice → Bytes)

theorem rawSet_asyncMode (idx : NamespaceIndex) (key value : Bytes) (timestamp : UInt64) :
    (rawSet rabitqEncode idx key value timestamp).asyncMode = idx.asyncMode := by
  rw [rawSet]
  split
  · rw [refresh]
    split
    · rfl
    split
    · split
      · split
        · rename_i hok
          exact (insertLocked_ok hok).2.2.1
        · rfl
      · rfl
    · rfl
  · rw [adopt]
    split
    · split
      · split
        · split
          · rename_i hok
            exact (insertLocked_ok hok).2.2.1
          · rfl
        · rfl
      · rfl
    · rfl

variable {value : Bytes}

section
variable {kv kv' : Kv} (h : InStep ns settled kv idx.table now) (hnow : now ≤ timestamp)
  (hget : kv'.get key = some ⟨value, timestamp, false⟩)
  (hothers : ∀ k, Proper ns k → k ≠ key → kv'.get k = kv.get k)
include h hnow hget hothers

theorem InStep.inserted {v : F32Slice} {id : Nat} {idx' : NamespaceIndex}
    (hbytes : bytesToF32 value = some v)
    (hdim : idx.expectedDim = none ∨ idx.expectedDim = some v.len)
    (hok : idx.insertLocked key v timestamp = .ok (id, idx')) :
    InStep ns (fun k => settled k ∨ k = key) kv' idx'.table timestamp :=
  h.insert (insertLocked_ok hok).1 hnow (bytesToF32_eq_some.mp hbytes).symm (fun _ => hget)
    hothers hdim

/-- The key has a node: a value that is no vector of the dimension tombstones it. -/
theorem InStep.refreshed {id : Nat} {node : VectorNode} (hfor : idx.nodeFor key = some (id, node)) :
    InStep ns (fun k => settled k ∨ k = key) kv'
      (refresh rabitqEncode idx node key value timestamp).2.table timestamp := by
  -- the node is not from later than the write
  have hfresh : ¬ (node.tombstoned = false ∧ timestamp < node.timestamp) := fun hstale =>
    absurd (UInt64.lt_of_lt_of_le hstale.2 (UInt64.le_trans (h.times key id node hfor) hnow))
      (UInt64.lt_irrefl _)
  have hfrozen : idx.expectedDim = some node.vector.len :=
    idx.valid.sized (NodeTable.nodeFor_eq_some.mp hfor).2
  have htomb : (∀ v, bytesToF32 value = some v → v.len ≠ node.vector.len) →
      InStep ns (fun k => settled k ∨ k = key) kv' (idx.markTombstoneLocked key).2.table
        timestamp := by
    intro hne
    refine h.tombstone (idx.valid.markTombstoneLocked key) hnow (fun _ => ?_) (fun _ hnone => ?_)
      hothers
    · rw [hget, show idx.table.dim = some _ from hfrozen]
      exact storedVector_of_ne hne
    · cases hfrozen.symm.trans hnone
  rw [refresh, if_neg hfresh]
  split
  · rename_i v hbytes
    split
    · rename_i hdim
      split
      · rename_i hok
        exact h.inserted hnow hget hothers hbytes hdim hok
      · rename_i herr
        obtain ⟨_, _, hok⟩ := insertLocked_of_dim hdim key timestamp
        cases herr.symm.trans hok
    · rename_i hdim
      refine htomb (fun w hw heq => hdim (.inr ?_))
      cases hbytes.symm.trans hw
      rw [hfrozen, heq]
  · rename_i hbytes
    exact htomb (fun w hw => by cases hbytes.symm.trans hw)

/-- The key has none: only a vector of the dimension gets one. -/
theorem InStep.adopted (hfor : idx.nodeFor key = none)
    (hset : idx.expectedDim = none → bytesToF32 value = none) :
    InStep ns (fun k => settled k ∨ k = key) kv'
      (adopt rabitqEncode idx key value timestamp).2.table timestamp := by
  have hlive : idx.table.live key = none := by
    rw [NodeTable.live, show idx.table.nodeFor key = none from hfor]
    rfl
  have hkeep : (Proper ns key → storedVector idx.table.dim (kv'.get key) = none) →
      (Proper ns key → idx.table.dim = none →
        (kv'.get key).bind (fun content => bytesToF32 content.value) = none) →
      InStep ns (fun k => settled k ∨ k = key) kv' idx.table timestamp := by
    intro hstored hunfrozen
    refine h.absent idx.valid (fun _ _ => rfl) rfl hlive hnow (fun id node hnode => ?_) hstored
      hunfrozen hothers
    cases (show idx.table.nodeFor key = none from hfor).symm.trans hnode
  have hother : ∀ d, idx.expectedDim = some d → (∀ v, bytesToF32 value = some v → v.len ≠ d) →
      InStep ns (fun k => settled k ∨ k = key) kv' idx.table timestamp := by
    intro d hd hne
    refine hkeep (fun _ => ?_) (fun _ hnone => ?_)
    · rw [hget, show idx.table.dim = some d from hd]
      exact storedVector_of_ne hne
    · cases hd.symm.trans hnone
  rw [adopt]
  split
  · rename_i d hd
    split
    · rename_i v hbytes
      split
      · rename_i hlen
        have hdim : idx.expectedDim = some v.len := hd.trans (congrArg some hlen.symm)
        split
        · rename_i hok
          exact h.inserted hnow hget hothers hbytes (.inr hdim) hok
        · rename_i herr
          obtain ⟨_, _, hok⟩ := insertLocked_of_dim (.inr hdim) key timestamp
          cases herr.symm.trans hok
      · rename_i hlen
        refine hother d hd (fun w hw => ?_)
        cases hbytes.symm.trans hw
        exact hlen
    · rename_i hbytes
      exact hother d hd (fun w hw => by cases hbytes.symm.trans hw)
  · rename_i hnone
    have hbytes := hset hnone
    refine hkeep (fun _ => ?_) (fun _ _ => ?_)
    · rw [hget, storedVector, Option.bind_some, hbytes]
      rfl
    · rw [hget, Option.bind_some, hbytes]

/-- The value is in the store; what the index makes of it brings the key into step, unless
it is a vector and the dimension is not fixed yet. -/
theorem InStep.rawSet (hset : idx.expectedDim = none → bytesToF32 value = none) :
    InStep ns (fun k => settled k ∨ k = key) kv'
      (VectorAgreement.rawSet rabitqEncode idx key value timestamp).table timestamp := by
  rw [VectorAgreement.rawSet]
  cases hfor : idx.nodeFor key with
  | some found => exact h.refreshed rabitqEncode hnow hget hothers hfor
  | none => exact h.adopted rabitqEncode hnow hget hothers hfor hset

end

theorem rawSet_unfrozen (hdim : idx.expectedDim = none) (key value : Bytes) (timestamp : UInt64) :
    rawSet rabitqEncode idx key value timestamp = idx := by
  rw [rawSet]
  cases hfor : idx.nodeFor key with
  | some found =>
    rw [show idx.expectedDim = some found.2.vector.len from
      idx.valid.sized (NodeTable.nodeFor_eq_some.mp hfor).2] at hdim
    cases hdim
  | none =>
    dsimp only
    rw [adopt, hdim]

omit rabitqEncode in
theorem Inv.set (hcalm : Calm env ns) (h : Inv ns settled now s idx)
    (hwithin : (Op.set key value).Within ns) (hnow : now ≤ env.clock s.accesses) :
    ∃ idx', Inv ns ((Op.set key value).settled ns s settled) (env.clock s.accesses)
      ((Op.set key value).apply env ns s) idx' := by
  rw [Op.apply, Node.set, Node.setWithTimestamp]
  -- only a key of the namespace reaches the index
  by_cases hk : Proper ns key
  · rw [write_eq hcalm hk (h.nonWorm key hk)]
    have hwrite := h.write key value (env.clock s.accesses) (s.accesses + 1)
    generalize env.clock s.accesses = timestamp at hnow hwrite ⊢
    dsimp only
    rw [Node.withRegistry, h.registry, hcalm.attached]
    dsimp only
    rw [if_pos rfl, Node.syncVectorSetWithRegistry]
    have hget : (s.kv.insert key ⟨value, timestamp, false⟩).get key = some ⟨value, timestamp, false⟩ :=
      ByteMap.get_insert_self _ _ _
    have hreg := syncRawSet_single idx env.rabitqEncode hk value timestamp
    generalize (single ns idx).syncRawSetWithBq env.rabitqEncode key value timestamp = synced at hreg ⊢
    obtain ⟨action, reg⟩ := synced
    obtain rfl : reg = single ns (rawSet env.rabitqEncode idx key value timestamp) := hreg
    have hinv : Inv ns ((Op.set key value).settled ns s settled) timestamp
        { s with kv := s.kv.insert key ⟨value, timestamp, false⟩, accesses := s.accesses + 1,
                 registry := some (single ns (rawSet env.rabitqEncode idx key value timestamp)) }
        (rawSet env.rabitqEncode idx key value timestamp) := by
      refine ⟨rfl, (rawSet_asyncMode _ _ _ _ _).trans h.sync, hwrite.nonWorm, ?_⟩
      by_cases hset : idx.expectedDim = none → bytesToF32 value = none
      · refine (h.inStep.rawSet env.rabitqEncode hnow hget
          (fun k _ hne => ByteMap.get_insert_of_ne _ _ hne) hset).weaken (fun k _ hs => ⟨?_, rfl⟩)
          (UInt64.le_refl _)
        rcases hs with ⟨hkey, -⟩ | ⟨hbefore, -⟩
        · exact .inr hkey
        · exact .inl hbefore
      · obtain ⟨hdim, hvector⟩ := Classical.not_imp.mp hset
        rw [rawSet_unfrozen env.rabitqEncode hdim]
        refine hwrite.inStep.weaken (fun k _ hs => ⟨?_, rfl⟩) hnow
        rcases hs with ⟨-, hsome⟩ | ⟨hbefore, hlapse⟩
        · rw [h.dimOf_eq] at hsome
          exact absurd (hsome hdim) hvector
        · refine ⟨hbefore, fun hkey => hlapse ⟨hkey, ?_, Option.isSome_iff_ne_none.mpr hvector⟩⟩
          rw [h.dimOf_eq]
          exact hdim
    dsimp only
    cases action with
    | none => exact ⟨_, hinv⟩
    | upsert bq => exact ⟨_, hinv.side (Side.write env _ _ _ _ (fun k hk' => hk'.ne_bqKey key))⟩
    | delete => exact ⟨_, hinv.side (Side.remove env _ (fun k hk' => hk'.ne_bqKey key))⟩
  · have hne : ∀ k, Proper ns k → k ≠ key := by
      rintro k hk' rfl
      exact hk hk'
    have hmatch := mayMatch_of_not_proper hwithin hk (single ns idx)
    have hside := Side.write env s value false (env.clock s.accesses) hne
    have hsub : ∀ k, Proper ns k → (Op.set key value).settled ns s settled k → settled k :=
      fun k hk' hs => hs.elim (fun hset => absurd hset.1 (hne k hk')) And.left
    generalize s.setWithTimestampNoVectorSync env key value false (env.clock s.accesses) = written
      at hside ⊢
    obtain ⟨r, s₁⟩ := written
    have h₁ := (h.side hside).mono hsub hnow
    cases r with
    | error e => exact ⟨idx, h₁⟩
    | ok _ =>
      refine ⟨idx, h₁.side ?_⟩
      dsimp only
      rw [Node.withRegistry, show s₁.registry = some (single ns idx) from h₁.registry, hcalm.attached]
      dsimp only
      rw [if_pos rfl, Node.syncVectorSetWithRegistry, syncRawSetWithBq, hmatch]
      exact ⟨h₁.registry.symm, fun _ _ => rfl⟩

end

/-! ## Batches -/

section Batch
variable {env : NodeEnv} {ns : Bytes} {settled : Bytes → Prop} {now : UInt64} {s : Node}
  {idx : NamespaceIndex}

/-- None of the namespace's keys is WORM. -/
def NonWorm (ns : Bytes) (kv : Kv) : Prop := ∀ k, Proper ns k → (kv.get k).any Content.isWorm = false

/-- The first phase skips an item, or writes it and its companion. -/
theorem storeItem_cases (hcalm : Calm env ns) {acc : Option Nat × Node} (hworm : NonWorm ns acc.2.kv)
    (item : BulkItem) :
    (storeItem env ns false acc item = acc ∧
      (bytesToF32 item.vector = none ∨ ∃ len, acc.1 = some len ∧ item.vector.length ≠ len)) ∨
    ∃ s₁, storeItem env ns false acc item = (some item.vector.length, s₁) ∧
      (∀ len, acc.1 = some len → item.vector.length = len) ∧ (bytesToF32 item.vector).isSome = true ∧
      s₁.registry = acc.2.registry ∧
      (Proper ns item.key → s₁.kv.get item.key = some ⟨item.vector, item.timestamp, false⟩) ∧
      ∀ k, Proper ns k → k ≠ item.key → s₁.kv.get k = acc.2.kv.get k := by
  rw [storeItem]
  split
  · rename_i hbytes
    exact .inl ⟨rfl, .inl hbytes⟩
  rename_i v hbytes
  split
  · rename_i hmismatch
    obtain ⟨len, hlen, hne⟩ := (Option.any_eq_true _ _).mp hmismatch
    exact .inl ⟨rfl, .inr ⟨len, hlen, of_decide_eq_true hne⟩⟩
  rename_i hmatch
  have hlen : ∀ len, acc.1 = some len → item.vector.length = len := by
    intro len hlen
    rw [hlen, Option.any_some, decide_eq_true_eq, not_not] at hmatch
    exact hmatch
  have hvector : (bytesToF32 item.vector).isSome = true := by
    rw [hbytes]
    rfl
  refine .inr ?_
  rcases write_cases env acc.2 item.key item.vector item.timestamp with ⟨e, herr⟩ | hok
  · rw [herr]
    have hnot : ¬ Proper ns item.key := by
      intro hk
      rw [write_eq hcalm hk (hworm item.key hk)] at herr
      cases (Prod.mk.inj herr).1
    exact ⟨_, rfl, hlen, hvector, rfl, fun hk => absurd hk hnot, fun _ _ _ => rfl⟩
  · rw [hok]
    have hside : ∀ s : Node, Side ns s (s.setWithTimestampNoVectorSync env (bqKey item.key)
        (encodeBqOwned env v (indexOf s ns)) false item.timestamp).2 :=
      fun s => Side.write env s _ _ _ (fun k hk => hk.ne_bqKey item.key)
    refine ⟨_, rfl, hlen, hvector, (hside _).registry, fun hk => ?_, fun k hk hne => ?_⟩
    · rw [(hside _).kv _ hk]
      exact ByteMap.get_insert_self _ _ _
    · rw [(hside _).kv _ hk]
      exact ByteMap.get_insert_of_ne _ _ hne

/-- A stored value is not WORM. -/
theorem NonWorm.stored {kv kv' : Kv} (hworm : NonWorm ns kv) {key value : Bytes} {timestamp : UInt64}
    (hget : Proper ns key → kv'.get key = some ⟨value, timestamp, false⟩)
    (hothers : ∀ k, Proper ns k → k ≠ key → kv'.get k = kv.get k) : NonWorm ns kv' := by
  intro k hk
  by_cases hkey : k = key
  · subst hkey
    rw [hget hk]
    rfl
  · rw [hothers k hk hkey]
    exact hworm k hk

variable {item : BulkItem}

theorem batchLen_cons_none (h : bytesToF32 item.vector = none) (rest : List BulkItem) :
    batchLen (item :: rest) = batchLen rest := by
  simp [batchLen, h]

theorem batchLen_cons_some (h : (bytesToF32 item.vector).isSome = true)
    (rest : List BulkItem) : batchLen (item :: rest) = some item.vector.length := by
  simp [batchLen, h]

variable {v : F32Slice}

theorem len_of_bytesToF32 {vector : Bytes} (h : bytesToF32 vector = some v) :
    vector.length = 4 * v.len := by
  have hv := bytesToF32_eq_some.mp h
  have haligned := v.aligned
  rw [← hv, F32Slice.len]
  omega

theorem getLastD_map_cons (item : BulkItem) (rest : List BulkItem) (now : UInt64) :
    (((item :: rest).map BulkItem.timestamp).getLastD now) =
      ((rest.map BulkItem.timestamp).getLastD item.timestamp) := by
  rw [map_cons, getLastD_cons]

variable {first : Option Nat}

/-- A skipped item is not inserted either. -/
theorem insertItem_skipped
    (hlen : ∀ len, first = some len → ∃ d, idx.expectedDim = some d ∧ len = 4 * d)
    (hwhy : bytesToF32 item.vector = none ∨ ∃ len, first = some len ∧ item.vector.length ≠ len) :
    insertItem idx item = idx := by
  rw [insertItem]
  rcases hwhy with hnone | ⟨len, hfirst, hne⟩
  · rw [hnone]
  · split
    · rfl
    rename_i v hbytes
    obtain ⟨d, hd, rfl⟩ := hlen len hfirst
    rw [len_of_bytesToF32 hbytes] at hne
    exact tryInsertLocked_of_ne hd (fun heq => hne (heq ▸ rfl)) _ _

/-- A stored item has the length of the namespace, where it has one. -/
theorem expectedDim_stored {rest : List BulkItem} (hbytes : bytesToF32 item.vector = some v)
    (hlen : ∀ len, first = some len → ∃ d, idx.expectedDim = some d ∧ len = 4 * d)
    (hgood : first = none → ¬ Skewed idx.expectedDim (item :: rest))
    (hsame : ∀ len, first = some len → item.vector.length = len) :
    idx.expectedDim = none ∨ idx.expectedDim = some v.len := by
  have hfour := len_of_bytesToF32 hbytes
  rcases hfirst : first with _ | len
  · rcases hd : idx.expectedDim with _ | d
    · exact .inl rfl
    -- the first vector of a batch sets its length
    have hvector : (bytesToF32 item.vector).isSome = true := by rw [hbytes]; rfl
    have heq : item.vector.length = 4 * d := by
      by_contra hne
      exact hgood hfirst ⟨d, _, hd, batchLen_cons_some hvector rest, hne⟩
    exact .inr (congrArg some (by omega))
  · obtain ⟨d, hd, rfl⟩ := hlen len hfirst
    have hd4 := hsame _ hfirst
    exact .inr (hd.trans (congrArg some (by omega)))

/-- A batch of the namespace's length: the first phase stores what the second inserts. -/
theorem inStep_batch (hcalm : Calm env ns) (items : List BulkItem) {acc : Option Nat × Node}
    (hworm : NonWorm ns acc.2.kv) (h : InStep ns settled acc.2.kv idx.table now)
    (htimes : (now :: items.map BulkItem.timestamp).Pairwise (· ≤ ·))
    (hlen : ∀ len, acc.1 = some len → ∃ d, idx.expectedDim = some d ∧ len = 4 * d)
    (hgood : acc.1 = none → ¬ Skewed idx.expectedDim items) :
    InStep ns (fun k => settled k ∨ ∃ item ∈ items, item.key = k ∧
        (bytesToF32 item.vector).isSome = true ∧ acc.1.or (batchLen items) = some item.vector.length)
      (items.foldl (storeItem env ns false) acc).2.kv (items.foldl insertItem idx).table
      ((items.map BulkItem.timestamp).getLastD now) ∧
    NonWorm ns (items.foldl (storeItem env ns false) acc).2.kv ∧
    (items.foldl (storeItem env ns false) acc).2.registry = acc.2.registry ∧
    (items.foldl insertItem idx).asyncMode = idx.asyncMode := by
  induction items generalizing acc idx settled now with
  | nil =>
    refine ⟨h.weaken (fun k _ hs => ⟨hs.resolve_right ?_, rfl⟩) (UInt64.le_refl _), hworm, rfl, rfl⟩
    rintro ⟨_, hmem, -⟩
    cases hmem
  | cons item rest ih =>
    obtain ⟨hnow, hrest⟩ := pairwise_cons.mp htimes
    have hle : now ≤ item.timestamp := hnow _ mem_cons_self
    rw [foldl_cons, foldl_cons, getLastD_map_cons]
    rcases storeItem_cases hcalm hworm item with ⟨hskip, hwhy⟩ |
      ⟨s₁, hstore, hsame, hvector, hreg, hget, hothers⟩
    · have hidx : insertItem idx item = idx := insertItem_skipped hlen hwhy
      -- the length of the batch is that of another item
      have hlenrest : ∀ i : BulkItem, (bytesToF32 i.vector).isSome = true →
          acc.1.or (batchLen (item :: rest)) = some i.vector.length → i ≠ item ∧
            acc.1.or (batchLen rest) = some i.vector.length := by
        intro i hi hor
        rcases hwhy with hnone | ⟨len, hacc, hne⟩
        · rw [batchLen_cons_none hnone] at hor
          refine ⟨?_, hor⟩
          rintro rfl
          rw [hnone] at hi
          cases hi
        · rw [hacc] at hor ⊢
          refine ⟨?_, hor⟩
          rintro rfl
          exact hne (Option.some.inj hor).symm
      have hgood' : acc.1 = none → ¬ Skewed idx.expectedDim rest := by
        rintro hacc ⟨d, len, hd, hbatch, hne⟩
        rcases hwhy with hnone | ⟨len', hacc', -⟩
        · exact hgood hacc ⟨d, len, hd, (batchLen_cons_none hnone rest).trans hbatch, hne⟩
        · cases hacc.symm.trans hacc'
      rw [hskip, hidx]
      obtain ⟨hstep, hrestworm⟩ := ih hworm (h.weaken (fun _ _ hs => ⟨hs, rfl⟩) hle) hrest hlen hgood'
      refine ⟨hstep.weaken (fun k _ hs => ⟨?_, rfl⟩) (UInt64.le_refl _), hrestworm⟩
      rcases hs with hbefore | ⟨i, hmem, hkey, hi, hor⟩
      · exact .inl hbefore
      · obtain ⟨hne, hor⟩ := hlenrest i hi hor
        exact .inr ⟨i, (mem_cons.mp hmem).resolve_left hne, hkey, hi, hor⟩
    · -- the item is stored and inserted
      obtain ⟨v, hbytes⟩ := Option.isSome_iff_exists.mp hvector
      have hfour := len_of_bytesToF32 hbytes
      have hdim := expectedDim_stored hbytes hlen hgood hsame
      obtain ⟨id, idx', hok⟩ := insertLocked_of_dim hdim item.key item.timestamp
      obtain ⟨hins, -, hasync, -⟩ := insertLocked_ok hok
      have hidx : insertItem idx item = idx' := by
        rw [insertItem, hbytes]
        dsimp only
        rw [tryInsertLocked, hok]
      rw [hstore, hidx]
      have h₁ := h.insert hins hle (bytesToF32_eq_some.mp hbytes).symm hget hothers hdim
      obtain ⟨hstep, hw, hr, ha⟩ := @ih _ _ idx' (some item.vector.length, s₁)
        (hworm.stored hget hothers) h₁ hrest
        (fun len heq => ⟨v.len, hins.dim, (Option.some.inj heq).symm.trans hfour⟩)
        (by rintro ⟨⟩)
      refine ⟨hstep.weaken (fun k _ hs => ⟨?_, rfl⟩) (UInt64.le_refl _), hw, hr.trans hreg,
        ha.trans hasync⟩
      have hor : acc.1.or (batchLen (item :: rest)) = some item.vector.length := by
        cases hacc : acc.1 with
        | none => exact batchLen_cons_some hvector rest
        | some len => exact congrArg some (hsame len hacc).symm
      rcases hs with hbefore | ⟨i, hmem, hkey, hi, hlen'⟩
      · exact .inl (.inl hbefore)
      · rcases mem_cons.mp hmem with rfl | hmem
        · exact .inl (.inr hkey.symm)
        · rw [hor] at hlen'
          exact .inr ⟨i, hmem, hkey, hi, hlen'⟩

/-- Keys that no vector of the batch is under. -/
def Unnamed (items : List BulkItem) (k : Bytes) : Prop :=
  ∀ item ∈ items, item.key = k → bytesToF32 item.vector = none

theorem storeItems_unnamed (hcalm : Calm env ns) (items : List BulkItem) {acc : Option Nat × Node}
    (hworm : NonWorm ns acc.2.kv) :
    NonWorm ns (items.foldl (storeItem env ns false) acc).2.kv ∧
    (items.foldl (storeItem env ns false) acc).2.registry = acc.2.registry ∧
    ∀ k, Proper ns k → Unnamed items k →
      (items.foldl (storeItem env ns false) acc).2.kv.get k = acc.2.kv.get k := by
  induction items generalizing acc with
  | nil => exact ⟨hworm, rfl, fun _ _ _ => rfl⟩
  | cons item rest ih =>
    rw [foldl_cons]
    have hrest : ∀ {k}, Unnamed (item :: rest) k → Unnamed rest k :=
      fun hk i hi => hk i (mem_cons_of_mem _ hi)
    rcases storeItem_cases hcalm hworm item with ⟨hskip, -⟩ |
      ⟨s₁, hstore, -, hvector, hreg, hget, hothers⟩
    · rw [hskip]
      obtain ⟨hw, hr, hk⟩ := ih hworm
      exact ⟨hw, hr, fun k hp hun => hk k hp (hrest hun)⟩
    · rw [hstore]
      obtain ⟨hw, hr, hk⟩ := @ih (some item.vector.length, s₁) (hworm.stored hget hothers)
      refine ⟨hw, hr.trans hreg, fun k hp hun => (hk k hp (hrest hun)).trans (hothers k hp ?_)⟩
      rintro rfl
      rw [hun item mem_cons_self rfl] at hvector
      cases hvector

/-- Once the dimension is fixed, a batch changes the nodes of its own keys only. -/
theorem insertItems_unnamed (items : List BulkItem) {d : Nat} (hdim : idx.expectedDim = some d)
    (hnow : idx.table.NotLater now) (htimes : (now :: items.map BulkItem.timestamp).Pairwise (· ≤ ·)) :
    (items.foldl insertItem idx).expectedDim = some d ∧
    (items.foldl insertItem idx).asyncMode = idx.asyncMode ∧
    (items.foldl insertItem idx).table.NotLater ((items.map BulkItem.timestamp).getLastD now) ∧
    ∀ k, Unnamed items k → (items.foldl insertItem idx).nodeFor k = idx.nodeFor k := by
  induction items generalizing idx now with
  | nil => exact ⟨hdim, rfl, hnow, fun _ _ => rfl⟩
  | cons item rest ih =>
    obtain ⟨hall, hrest⟩ := pairwise_cons.mp htimes
    have hle : now ≤ item.timestamp := hall _ mem_cons_self
    have hun : ∀ {k}, Unnamed (item :: rest) k → Unnamed rest k :=
      fun hk i hi => hk i (mem_cons_of_mem _ hi)
    rw [foldl_cons, getLastD_map_cons]
    by_cases hins : ∃ v, bytesToF32 item.vector = some v ∧ v.len = d
    · obtain ⟨v, hbytes, rfl⟩ := hins
      obtain ⟨id, idx', hok⟩ := insertLocked_of_dim (.inr hdim) item.key item.timestamp
      obtain ⟨hinserted, -, hasync, -⟩ := insertLocked_ok hok
      have hidx : insertItem idx item = idx' := by
        rw [insertItem, hbytes]
        dsimp only
        rw [tryInsertLocked, hok]
      rw [hidx]
      obtain ⟨hd, ha, ht, hk⟩ := ih hinserted.dim (hinserted.times hnow hle) hrest
      refine ⟨hd, ha.trans hasync, ht, fun k hunk => (hk k (hun hunk)).trans (hinserted.others k ?_)⟩
      rintro rfl
      rw [hunk item mem_cons_self rfl] at hbytes
      cases hbytes
    · have hidx : insertItem idx item = idx := by
        rw [insertItem]
        split
        · rfl
        · rename_i v hbytes
          exact tryInsertLocked_of_ne hdim (fun heq => hins ⟨v, hbytes, heq⟩) _ _
      rw [hidx]
      obtain ⟨hd, ha, ht, hk⟩ := ih hdim
        (fun k id node hfor => UInt64.le_trans (hnow k id node hfor) hle) hrest
      exact ⟨hd, ha, ht, fun k hunk => hk k (hun hunk)⟩

theorem le_getLastD {now : UInt64} {times : List UInt64} (h : (now :: times).Pairwise (· ≤ ·)) :
    now ≤ times.getLastD now := by
  cases times with
  | nil => exact UInt64.le_refl _
  | cons t rest =>
    rw [getLastD_eq_getLast?, getLast?_eq_some_getLast (cons_ne_nil t rest)]
    exact (pairwise_cons.mp h).1 _ (getLast_mem _)

theorem Side.publishItems (channel : Bytes) (items : List BulkItem) (s : Node) :
    Side ns s (items.foldl (fun s item => s.publish channel item.key) s) := by
  induction items generalizing s with
  | nil => exact Side.refl s
  | cons item rest ih =>
    rw [foldl_cons]
    exact (Side.publish s _ _).trans (ih _)

variable {metric : Metric} {items : List BulkItem}

/-- The two phases of a batch, once its keys are in the namespace. -/
theorem Inv.phases (hcalm : Calm env ns) (h : Inv ns settled now s idx) (replicate : Bool)
    (hbelongs : ∀ item ∈ items, keyBelongsToNamespace item.key ns = true)
    (htimes : (now :: items.map BulkItem.timestamp).Pairwise (· ≤ ·)) {s' : Node}
    (hreg : s'.registry =
      some (single ns (metricInsert idx metric (fun idx => items.foldl insertItem idx))))
    (hkv : s'.kv = (items.foldl (storeItem env ns false) (none, s)).2.kv) :
    ∃ idx', Inv ns ((Op.vbulkinsert metric items replicate).settled ns s settled)
      ((items.map BulkItem.timestamp).getLastD now) s' idx' := by
  by_cases hmetric : idx.metric = metric
  · rw [metricInsert, if_neg (not_not.mpr hmetric)] at hreg
    by_cases hskew : Skewed idx.expectedDim items
    · obtain ⟨d, len, hd, hbatch, hne⟩ := hskew
      obtain ⟨hworm, -, hstore⟩ := @storeItems_unnamed env ns hcalm items (none, s) h.nonWorm
      obtain ⟨hdim, hasync, hlater, hnodes⟩ := insertItems_unnamed items hd h.inStep.times htimes
      refine ⟨_, hreg, hasync.trans h.sync, by rw [hkv]; exact hworm, ?_⟩
      have hunnamed : ∀ k, (Op.vbulkinsert metric items replicate).settled ns s settled k →
          settled k ∧ Unnamed items k := by
        intro k hs
        rcases hs with ⟨-, -, hnot, -⟩ | ⟨hbefore, hlapse⟩
        · rw [h.dimOf_eq] at hnot
          exact absurd ⟨d, len, hd, hbatch, hne⟩ hnot
        · refine ⟨hbefore, fun item hitem hkey => ?_⟩
          by_contra hvector
          refine hlapse ⟨hbelongs, .inr ?_, item, hitem, hkey, Option.isSome_iff_ne_none.mpr hvector⟩
          rw [h.dimOf_eq]
          exact ⟨d, len, hd, hbatch, hne⟩
      have hsame : (items.foldl insertItem idx).table.dim = idx.table.dim := hdim.trans hd.symm
      refine ⟨valid _, fun k hk hs => ?_, fun hnone => ?_, hlater⟩
      · obtain ⟨hbefore, hun⟩ := hunnamed k hs
        rw [InStep.live_of_nodeFor_eq (hnodes k hun), hsame, hkv, hstore k hk hun]
        exact h.inStep.agree k hk hbefore
      · rw [hsame, show idx.table.dim = some d from hd] at hnone
        cases hnone
    · obtain ⟨hstep, hworm, -, hasync⟩ := @inStep_batch env ns settled now idx hcalm items (none, s)
        h.nonWorm h.inStep htimes (by rintro _ ⟨⟩) (fun _ => hskew)
      refine ⟨_, hreg, hasync.trans h.sync, by rw [hkv]; exact hworm, ?_⟩
      rw [hkv]
      refine hstep.weaken (fun k _ hs => ⟨?_, rfl⟩) (UInt64.le_refl _)
      rcases hs with ⟨-, -, -, hitem⟩ | ⟨hbefore, -⟩
      · exact .inr hitem
      · exact .inl hbefore
  · rw [metricInsert, if_pos hmetric] at hreg
    -- an index of another metric takes no item
    obtain ⟨hworm, -, hstore⟩ := @storeItems_unnamed env ns hcalm items (none, s) h.nonWorm
    refine ⟨idx, hreg, h.sync, by rw [hkv]; exact hworm, ?_⟩
    rw [hkv]
    have hother : metricOf s ns ≠ some metric := by
      rw [h.metricOf_eq]
      exact fun heq => hmetric (Option.some.inj heq)
    refine h.inStep.weaken (fun k hk hs => ?_) (le_getLastD htimes)
    rcases hs with ⟨-, heq, -⟩ | ⟨hbefore, hlapse⟩
    · exact absurd heq hother
    · refine ⟨hbefore, hstore k hk (fun item hitem hkey => ?_)⟩
      by_contra hvector
      exact hlapse ⟨hbelongs, .inl hother, item, hitem, hkey, Option.isSome_iff_ne_none.mpr hvector⟩

theorem Inv.vbulkinsert (hcalm : Calm env ns) (h : Inv ns settled now s idx) {replicate : Bool}
    (htimes : (now :: items.map BulkItem.timestamp).Pairwise (· ≤ ·)) :
    ∃ idx', Inv ns ((Op.vbulkinsert metric items replicate).settled ns s settled)
      ((items.map BulkItem.timestamp).getLastD now)
      ((Op.vbulkinsert metric items replicate).apply env ns s) idx' := by
  have hrefused : (¬ ∀ item ∈ items, keyBelongsToNamespace item.key ns = true) →
      Inv ns ((Op.vbulkinsert metric items replicate).settled ns s settled)
        ((items.map BulkItem.timestamp).getLastD now) s idx :=
    fun hnot => h.mono (fun _ _ hs => hs.elim (fun hset => absurd hset.1 hnot) And.left)
      (le_getLastD htimes)
  rw [Op.apply, applyVbulkinsert.eq_def]
  split
  · refine ⟨idx, h.mono (fun k _ hs => hs.elim ?_ And.left) (UInt64.le_refl _)⟩
    rintro ⟨-, -, -, _, hmem, -⟩
    cases hmem
  rename_i first rest
  split
  · rename_i hout
    refine ⟨idx, hrefused (fun hall => ?_)⟩
    rw [all_eq_true.mpr hall] at hout
    cases hout
  rename_i hin
  have hbelongs : ∀ item ∈ first :: rest, keyBelongsToNamespace item.key ns = true := by
    have hall : (first :: rest).all (fun item => keyBelongsToNamespace item.key ns) = true := by
      simpa using hin
    exact all_eq_true.mp hall
  dsimp only
  have hside : Side ns s (persistNamespaceConfig env s ns metric first.timestamp) :=
    Side.persistNamespaceConfig env s ns metric first.timestamp
  generalize persistNamespaceConfig env s ns metric first.timestamp = s₁ at hside ⊢
  have h₁ := h.side hside
  obtain ⟨-, hregistry, -⟩ := @storeItems_unnamed env ns hcalm (first :: rest) (none, s₁) h₁.nonWorm
  obtain ⟨hreg, hkv⟩ := updateRegistry_single (hregistry.trans h₁.registry) metric (fun idx =>
    updateIndex idx false (fun idx => idx.enqueueAsyncBatch (first :: rest))
      (fun idx => (first :: rest).foldl insertItem idx))
  rw [metricInsert, updateIndex_sync h₁.sync, ← metricInsert.eq_def idx metric
    (fun idx => (first :: rest).foldl insertItem idx)] at hreg
  obtain ⟨idx', hinv⟩ := h₁.phases hcalm replicate hbelongs htimes hreg hkv
  have hsettled : (Op.vbulkinsert metric (first :: rest) replicate).settled ns s₁ settled =
      (Op.vbulkinsert metric (first :: rest) replicate).settled ns s settled := by
    have hindex : indexOf s₁ ns = indexOf s ns := by rw [indexOf, indexOf, hside.registry]
    funext k
    rw [Op.settled, Op.settled, Op.Settles, Op.Settles, Op.Lapses, Op.Lapses, dimOf, dimOf, metricOf,
      metricOf, hindex]
  rw [hsettled] at hinv
  exact ⟨idx', hinv.side ((Side.publishItems _ _ _).trans (Side.replicate env _ _ _))⟩

end Batch

/-! ## Runs -/

variable {ns : Bytes} {s : Node}

theorem Inv.start {metric : Metric}
    (hreg : s.registry = some (single ns (init metric)))
    (hworm : ∀ k, Proper ns k → (s.kv.get k).any Content.isWorm = false) :
    Inv ns (fun k => (s.kv.get k).bind (fun content => bytesToF32 content.value) = none) 0 s
      (init metric) := by
  refine ⟨hreg, rfl, hworm, NodeTable.valid_empty, fun k _ hs => ?_, fun _ k _ hs => hs, ?_⟩
  · rw [storedVector, hs]
    rfl
  · rintro k id node hfor
    cases hfor

variable {env : NodeEnv} {settled : Bytes → Prop} {now : UInt64}

theorem Inv.step (hcalm : Calm env ns) {idx : NamespaceIndex} (h : Inv ns settled now s idx)
    {op : Op}
    (hwithin : op.Within ns) (htimes : (now :: op.times env s).Pairwise (· ≤ ·)) :
    ∃ idx', Inv ns (op.settled ns s settled) ((op.times env s).getLastD now) (op.apply env ns s)
      idx' := by
  cases op with
  | vinsert key vector metric timestamp replicate =>
    exact h.vinsert hcalm ((pairwise_cons.mp htimes).1 _ (mem_singleton_self _))
  | vbulkinsert metric items replicate => exact h.vbulkinsert hcalm htimes
  | vdelete key replicate => exact h.vdelete hcalm
  | set key value =>
    exact h.set hcalm hwithin ((pairwise_cons.mp htimes).1 _ (mem_singleton_self _))
  | del key => exact h.del hcalm hwithin

theorem Reached.inv (hcalm : Calm env ns) (h : Reached env ns settled now s) : ∃ idx, Inv ns settled now s idx := by
  induction h with
  | start metric hreg hworm => exact ⟨_, Inv.start hreg hworm⟩
  | step _ hwithin htimes ih =>
    obtain ⟨idx, hinv⟩ := ih
    exact hinv.step hcalm hwithin htimes

theorem storedVector_eq_some {dim : Option Nat} {entry : Option Content} {v : F32Slice} :
    storedVector dim entry = some v ↔
      ∃ content, entry = some content ∧ content.value = v.bytes ∧ dim = some v.len := by
  rw [storedVector, Option.filter_eq_some_iff, Option.bind_eq_some_iff]
  constructor
  · rintro ⟨⟨content, rfl, hbytes⟩, hdim⟩
    exact ⟨content, rfl, (bytesToF32_eq_some.mp hbytes).symm, of_decide_eq_true hdim⟩
  · rintro ⟨content, rfl, hvalue, hdim⟩
    exact ⟨⟨content, rfl, bytesToF32_eq_some.mpr hvalue.symm⟩, decide_eq_true hdim⟩

/-- **In every state of a run the index agrees with the store on the keys in step**: the
nodes that are not tombstoned are the stored vectors of the frozen dimension. -/
theorem agreement (env : NodeEnv) (ns : Bytes) (hcalm : Calm env ns) (settled : Bytes → Prop)
    (now : UInt64) (s : Node) (h : Reached env ns settled now s) :
    ∃ idx, s.registry = some (single ns idx) ∧ ∀ k v, Proper ns k → settled k →
      ((∃ node ∈ idx.table.nodes, node.tombstoned = false ∧ node.key = k ∧ node.vector = v) ↔
        ∃ content, s.kv.get k = some content ∧ content.value = v.bytes ∧
          idx.expectedDim = some v.len) := by
  obtain ⟨idx, hinv⟩ := h.inv hcalm
  refine ⟨idx, hinv.registry, fun k v hk hs => ?_⟩
  rw [← idx.valid.live_iff, hinv.inStep.agree k hk hs]
  exact storedVector_eq_some

/-! A run of two inserts under `v:`, the second with another metric than the namespace. -/

def calmEnv : NodeEnv where
  clock n := n.toUInt64
  fault _ := none
  frozen _ := none
  rabitqEncode _ _ _ := []
  attached := true
  clustered := false

theorem calmEnv_calm (ns : Bytes) : Calm calmEnv ns := ⟨fun _ => rfl, rfl, fun _ _ => rfl⟩

def emptyNamespace : Node :=
  ⟨ByteMap.empty, some (single (ascii "v:") (init .cosine)), [], [], [], 0⟩

def one : Bytes := [0, 0, 128, 63]

def oneVector : F32Slice := ⟨one, by decide, by decide⟩

def firstInsert : Op := .vinsert (ascii "v:a") one .cosine 1 false
def otherMetric : Op := .vinsert (ascii "v:b") one .l2 2 false

theorem emptyNamespace_reached : Reached calmEnv (ascii "v:")
    (fun k => (emptyNamespace.kv.get k).bind (fun content => bytesToF32 content.value) = none) 0
    emptyNamespace :=
  .start .cosine rfl (fun _ _ => rfl)

theorem agreement_firstInsert :
    ∃ idx, (firstInsert.apply calmEnv (ascii "v:") emptyNamespace).registry =
        some (single (ascii "v:") idx) ∧
      ∀ k v, Proper (ascii "v:") k → firstInsert.settled (ascii "v:") emptyNamespace
          (fun k => (emptyNamespace.kv.get k).bind (fun content => bytesToF32 content.value) = none)
          k →
        ((∃ node ∈ idx.table.nodes, node.tombstoned = false ∧ node.key = k ∧ node.vector = v) ↔
          ∃ content, (firstInsert.apply calmEnv (ascii "v:") emptyNamespace).kv.get k = some content ∧
            content.value = v.bytes ∧ idx.expectedDim = some v.len) :=
  agreement calmEnv (ascii "v:") (calmEnv_calm _) _ _ _
    (.step emptyNamespace_reached trivial (by decide))

/-- Without the proviso the index does not agree with the store: a vector with another
metric is stored and not indexed. -/
theorem agreement_otherMetric :
    ¬ ∀ (env : NodeEnv) (ns : Bytes), Calm env ns → ∀ (settled : Bytes → Prop) (now : UInt64) (s : Node),
      Reached env ns settled now s →
      ∃ idx, s.registry = some (single ns idx) ∧ ∀ k v, keyBelongsToNamespace k ns = true →
        ((∃ node ∈ idx.table.nodes, node.tombstoned = false ∧ node.key = k ∧ node.vector = v) ↔
          ∃ content, s.kv.get k = some content ∧ content.value = v.bytes ∧
            idx.expectedDim = some v.len) := by
  intro hall
  have hreached : Reached calmEnv (ascii "v:") _ _ (otherMetric.apply calmEnv (ascii "v:")
      (firstInsert.apply calmEnv (ascii "v:") emptyNamespace)) :=
    .step (.step emptyNamespace_reached trivial (by decide)) trivial (by decide)
  obtain ⟨idx, hreg, hiff⟩ := hall calmEnv (ascii "v:") (calmEnv_calm _) _ _ _ hreached
  have hindex : ((otherMetric.apply calmEnv (ascii "v:") (firstInsert.apply calmEnv (ascii "v:")
      emptyNamespace)).registry.map (fun reg => reg.entries.map (fun entry =>
        (entry.2.table.nodes.map VectorNode.key, entry.2.expectedDim)))) =
      some [([ascii "v:a"], some 1)] := by
    decide
  rw [hreg] at hindex
  obtain ⟨hkeys, hdim⟩ := Prod.mk.inj (cons.inj (Option.some.inj hindex)).1
  obtain ⟨node, hmem, -, hkey, -⟩ := (hiff (ascii "v:b") oneVector (by decide)).mpr
    ⟨⟨one, 2, false⟩, by decide, rfl, hdim.trans (by decide)⟩
  have hmem' : node.key ∈ idx.table.nodes.map VectorNode.key := mem_map.mpr ⟨node, hmem, rfl⟩
  rw [hkeys, hkey] at hmem'
  revert hmem'
  decide

end VectorAgreement
end WormDB
