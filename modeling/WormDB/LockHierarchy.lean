import WormDB.LockTraces

/-! # The lock hierarchy

Two orders of the locks.  In both the log's lock comes first, then the snapshot's, and the
shards go up by their numbers.  A snapshot locks the registry and the indexes with all shards
locked, and `vstats` with one; so the shards come before them.  `vreindex`, and `vsearch` with
RaBitQ parameters, scan the shards with an index locked; so the indexes come before the shards.
Operations of one of these kinds can run together with all the others, operations of both
cannot; and `kv_put` and `kv_get` take their shards in the order of their names, whatever their
numbers are (`orderly_no_deadlock`). -/
namespace WormDB.Locks
open List ByteCodec LockOrder
open Above (flatMap lockAll nil)

/-- What both orders have in common. -/
structure Hierarchy (rank : Lock → Nat) : Prop where
  snapshot : rank .walEnqueue < rank .snapshot
  shard : ∀ i, rank .snapshot < rank (.shard i)
  shards : ∀ i j, i < j → rank (.shard i) < rank (.shard j)
  index : ∀ ns, rank .registry < rank (.index ns)
  walQueue : ∀ i, rank (.shard i) < rank .walQueue

/-- The shards come before the registry. -/
def GraphsLast (rank : Lock → Nat) : Prop := ∀ i, rank (.shard i) < rank .registry

/-- The indexes come before the shards. -/
def GraphsFirst (rank : Lock → Nat) : Prop := ∀ ns i, rank (.index ns) < rank (.shard i)

def rankGraphsLast : Lock → Nat
  | .walEnqueue => 0
  | .snapshot => 1
  | .shard i => 2 + i
  | .registry => 300
  | .index _ => 301
  | .walQueue => 302
  | .asyncQueue _ => 302

def rankGraphsFirst : Lock → Nat
  | .walEnqueue => 0
  | .snapshot => 1
  | .registry => 2
  | .index _ => 3
  | .shard i => 4 + i
  | .walQueue => 302
  | .asyncQueue _ => 302

theorem shard_lt (i : Fin shardCount) : i.val < 256 := i.isLt

theorem hierarchy_graphsLast : Hierarchy rankGraphsLast ∧ GraphsLast rankGraphsLast := by
  refine ⟨⟨?_, fun i => ?_, fun i j hij => ?_, fun ns => ?_, fun i => ?_⟩, fun i => ?_⟩ <;>
    simp only [rankGraphsLast]
  · omega
  · omega
  · have hlt : i.val < j.val := hij
    omega
  · omega
  · have hlt := shard_lt i
    omega
  · have hlt := shard_lt i
    omega

theorem hierarchy_graphsFirst : Hierarchy rankGraphsFirst ∧ GraphsFirst rankGraphsFirst := by
  refine ⟨⟨?_, fun i => ?_, fun i j hij => ?_, fun ns => ?_, fun i => ?_⟩, fun ns i => ?_⟩ <;>
    simp only [rankGraphsFirst]
  · omega
  · omega
  · have hlt : i.val < j.val := hij
    omega
  · omega
  · have hlt := shard_lt i
    omega
  · omega

/-! ## Which operations are of which kind -/

/-- A snapshot is taken, and it has graphs in it. -/
def Compaction.captures : Compaction → Bool
  | .snapshot (some _) => true
  | _ => false

def SetPath.captures : SetPath → Bool
  | .done compaction => compaction.captures
  | _ => false

def DeletePath.captures : DeletePath → Bool
  | .done compaction => compaction.captures
  | _ => false

def RawSetBqAction.captures : RawSetBqAction → Bool
  | .none => false
  | .upsert path => path.captures
  | .delete path => path.captures

def VinsertPath.captures (path : VinsertPath) : Bool :=
  path.stored.captures || path.config.any SetPath.captures || path.bq.captures

/-- The registry is locked with a shard locked. -/
def LockOp.graphsUnderShards : LockOp → Bool
  | set _ _ path sync => path.captures || sync.any (fun raw => raw.bq.captures)
  | delete _ _ path sync => path.captures || sync.any (fun raw => raw.bq.captures)
  | writeSnapshot captured => captured.isSome
  | applyVinsert _ _ _ path => path.captures
  | applyVdelete _ _ _ path =>
      path.deleted.captures || path.sync.any (fun raw => raw.bq.captures) || path.bq.captures
  | chatSend _ _ path sync _ => path.captures || sync.any (fun raw => raw.bq.captures)
  | vinsert _ _ _ path _ => path.captures
  | vstats _ _ registered _ => registered
  | _ => false

/-- A shard is locked with an index locked. -/
def LockOp.shardsUnderIndex : LockOp → Bool
  | vreindex _ _ scan => scan.isSome
  | vsearch _ _ path =>
      match path.quantized with
      | .rabitq _ _ => true
      | _ => false
  | _ => false

/-- The shards of the key, the counter and the key's record go up, or one of them is there
twice. -/
def KeysAscend (key stats : Bytes) : Prop :=
  shardIndex key ≤ shardIndex stats ∧
    (shardIndex (metaKey key) = shardIndex key ∨ shardIndex stats ≤ shardIndex (metaKey key))

def LockOp.ShardsAscend : LockOp → Prop
  | kvPut key => KeysAscend key statsWrites
  | kvGet key => KeysAscend key statsReads
  | _ => True

/-! ## The store -/

section
variable {rank : Lock → Nat}

variable {lo : Nat}

theorem visit_above {i : Fin shardCount} (hlo : lo ≤ rank (.shard i)) :
    Above rank lo (visit i) := Above.locking hlo nil

theorem visitKey_above (key : Bytes) : Above rank 0 (visitKey key) := visit_above (Nat.zero_le _)

theorem indexTurns_above (hlo : ∀ ns, lo ≤ rank (.index ns)) (nss : List Bytes) :
    Above rank lo (indexTurns nss) :=
  flatMap (fun ns _ => Above.locking (hlo ns) nil)

variable (hr : Hierarchy rank)
include hr

theorem registryTurns_above {mode : Mode} (hlo : lo ≤ rank .registry)
    (nss : List Bytes) : Above rank lo (locking .registry mode (indexTurns nss)) :=
  Above.locking hlo (indexTurns_above hr.index nss)

theorem shards_pairwise :
    ((finRange shardCount).map Lock.shard).Pairwise (fun l l' => rank l < rank l') := by
  rw [pairwise_map]
  exact (pairwise_lt_finRange shardCount).imp (hr.shards _ _)

theorem writeSnapshot_above {captured : Option (List Bytes)} (hlo : lo ≤ rank .snapshot)
    (hlast : captured.isSome = true → GraphsLast rank) :
    Above rank lo (writeSnapshot captured) := by
  have hmem : ∀ l ∈ (finRange shardCount).map Lock.shard, ∃ i, l = .shard i := by
    intro l hl
    obtain ⟨i, -, rfl⟩ := mem_map.mp hl
    exact ⟨i, rfl⟩
  have hshards : ∀ (hi : Nat) (body : LockTrace), (∀ i, rank (.shard i) < hi) →
      Above rank hi body → Above rank (rank .snapshot + 1)
        (acquires .exclusive ((finRange shardCount).map .shard) ++ body ++
          releases ((finRange shardCount).map .shard)) := by
    intro hi body hbelow hbody
    refine lockAll _ _ hi ?_ (shards_pairwise hr) ?_ ?_ (fun _ => Iff.rfl) hbody
    · intro l hl
      obtain ⟨i, rfl⟩ := hmem l hl
      exact hr.shard i
    · exact le_trans (hr.shard ⟨0, by decide⟩) (le_of_lt (hbelow _))
    · intro l hl
      obtain ⟨i, rfl⟩ := hmem l hl
      exact hbelow i
  refine Above.locking hlo ?_
  cases captured with
  | none => exact hshards (rank .walQueue) [] hr.walQueue nil
  | some nss =>
    exact hshards (rank .registry) _ (hlast rfl) (registryTurns_above hr (le_refl _) nss)

theorem compact_above {compaction : Compaction}
    (hlast : compaction.captures = true → GraphsLast rank) :
    Above rank 0 (maybeSnapshotAndTruncate compaction) := by
  cases compaction with
  | disabled => exact nil
  | small => exact Above.locking (Nat.zero_le _) nil
  | snapshot captured =>
    refine Above.locking (Nat.zero_le _) (writeSnapshot_above hr hr.snapshot ?_)
    intro hsome
    obtain ⟨nss, rfl⟩ := Option.isSome_iff_exists.mp hsome
    exact hlast rfl

/-- A key under the log's lock. -/
theorem logged_above (key : Bytes) :
    Above rank 0 (locking .walEnqueue .exclusive (visitKey key)) := by
  refine Above.locking (Nat.zero_le _) (visit_above ?_)
  exact lt_trans hr.snapshot (hr.shard _)

/-- A record that goes into the ring under the key's lock. -/
theorem queued_above (key : Bytes) :
    Above rank 0 (locking (.shard (shardIndex key)) .exclusive (locking .walQueue .exclusive [])) :=
  Above.locking (Nat.zero_le _) (Above.locking (hr.walQueue _) nil)

theorem setPlain_above (mode : WalMode) (key : Bytes) {path : SetPath}
    (hlast : path.captures = true → GraphsLast rank) :
    Above rank 0 (setWithTimestampNoVectorSync mode key path) := by
  cases mode with
  | off => exact visitKey_above key
  | background =>
    cases path with
    | failed => exact nil
    | refused => exact visitKey_above key
    | done compaction => exact queued_above hr key
  | direct =>
    cases path with
    | failed => exact nil
    | refused =>
      have hup : rank .walEnqueue < rank (.shard (shardIndex key)) :=
        lt_trans hr.snapshot (hr.shard _)
      refine lockAll [Lock.walEnqueue, .shard (shardIndex key)]
        [Lock.walEnqueue, .shard (shardIndex key)] (rank (.shard (shardIndex key)) + 1)
        (fun _ _ => Nat.zero_le _) ?_ (Nat.zero_le _) ?_ (fun _ => Iff.rfl) nil
      · simpa using hup
      · intro l hl
        rcases mem_pair.mp hl with rfl | rfl
        · exact Nat.lt_succ_of_lt hup
        · exact Nat.lt_succ_self _
    | done compaction => exact (logged_above hr key).append (compact_above hr hlast)

theorem deleteLocked_above (mode : WalMode) (key : Bytes) (path : DeletePath) :
    Above rank 0 (deleteLocked mode key path) := by
  cases mode with
  | direct => exact logged_above hr key
  | off => exact visitKey_above key
  | background =>
    cases path with
    | missing | refused => exact visitKey_above key
    | done compaction => exact queued_above hr key

variable {path : DeletePath}

theorem deleteCompact_above (mode : WalMode) (hlast : path.captures = true → GraphsLast rank) :
    Above rank 0 (deleteCompact mode path) := by
  cases path with
  | missing | refused => exact nil
  | done compaction =>
    cases mode with
    | off => exact nil
    | direct | background => exact compact_above hr hlast

theorem deletePlain_above (mode : WalMode) (key : Bytes)
    (hlast : path.captures = true → GraphsLast rank) : Above rank 0 (deletePlain mode key path) :=
  (deleteLocked_above hr mode key path).append (deleteCompact_above hr mode hlast)

/-- After the registry is given back, the companion key is written. -/
theorem syncSet_above (mode : WalMode) (key : Bytes) {raw : RawSet}
    (hlast : raw.bq.captures = true → GraphsLast rank) :
    Above rank 0 (syncVectorSetWithRegistry mode key raw) := by
  refine (registryTurns_above hr (Nat.zero_le _) _).append ?_
  cases hbq : raw.bq with
  | none => exact nil
  | upsert path =>
    rw [hbq] at hlast
    exact setPlain_above hr mode _ hlast
  | delete path =>
    rw [hbq] at hlast
    exact deletePlain_above hr mode _ hlast

theorem syncDelete_above (mode : WalMode) (key : Bytes) {raw : RawDelete}
    (hlast : raw.bq.captures = true → GraphsLast rank) :
    Above rank 0 (syncVectorDeleteWithRegistry mode key raw) := by
  refine (registryTurns_above hr (Nat.zero_le _) _).append ?_
  by_cases hempty : raw.matched.isEmpty = true
  · rw [if_pos hempty]
    exact nil
  · rw [if_neg hempty]
    exact deletePlain_above hr mode _ hlast

variable {sync : Option RawSet}

theorem set_above (mode : WalMode) (key : Bytes) {path : SetPath}
    (hlast : (path.captures || sync.any (fun raw => raw.bq.captures)) = true → GraphsLast rank) :
    Above rank 0 (set mode key path sync) := by
  rw [Bool.or_eq_true] at hlast
  refine (setPlain_above hr mode key (fun h => hlast (.inl h))).append ?_
  cases path with
  | failed | refused => exact nil
  | done compaction =>
    cases sync with
    | none => exact nil
    | some raw => exact syncSet_above hr mode key (fun h => hlast (.inr h))

theorem delete_above (mode : WalMode) (key : Bytes) {sync : Option RawDelete}
    (hlast : (path.captures || sync.any (fun raw => raw.bq.captures)) = true → GraphsLast rank) :
    Above rank 0 (delete mode key path sync) := by
  rw [Bool.or_eq_true] at hlast
  refine ((deleteLocked_above hr mode key path).append ?_).append
    (deleteCompact_above hr mode (fun h => hlast (.inl h)))
  cases path with
  | missing | refused => exact nil
  | done compaction =>
    cases sync with
    | none => exact nil
    | some raw => exact syncDelete_above hr mode key (fun h => hlast (.inr h))

/-! ## The vector index -/

omit hr in
theorem onlyIf_above {c : Bool} {t : LockTrace} (h : Above rank lo t) :
    Above rank lo (onlyIf c t) := by
  cases c with
  | false => exact nil
  | true => exact h

omit hr in
theorem scan_above (hlo : ∀ i, lo ≤ rank (.shard i)) (scan : ScanPath) :
    Above rank lo (scanPrefixCallback scan) := flatMap (fun i _ => visit_above (hlo i))

omit hr in
theorem registryGet_above (hlo : lo ≤ rank .registry) :
    Above rank lo registryGet := Above.locking hlo nil

omit hr in
theorem indexRead_above {ns : Bytes} (hlo : lo ≤ rank (.index ns)) :
    Above rank lo (indexRead ns) := Above.locking hlo nil

omit hr in
theorem getOrCreate_above (absent : Bool) : Above rank 0 (getOrCreate absent) := by
  refine (registryGet_above (Nat.zero_le _)).append ?_
  cases absent with
  | false => exact nil
  | true => exact Above.locking (Nat.zero_le _) nil

omit hr in
theorem appendVectorWal_above (mode : WalMode) : Above rank 0 (appendVectorWal mode) := by
  cases mode with
  | direct | background => exact Above.locking (Nat.zero_le _) nil
  | off => exact nil

omit hr in
/-- The registry is asked, and then the index. -/
theorem lookup_above (ns : Bytes) (registered indexed : Bool) :
    Above rank 0 (onlyIf registered (registryGet ++ onlyIf indexed (indexRead ns))) :=
  onlyIf_above ((registryGet_above (Nat.zero_le _)).append
    (onlyIf_above (indexRead_above (Nat.zero_le _))))

omit hr in
theorem updateGraph_above (ns : Bytes) (graph : GraphPath) :
    Above rank 0 (updateGraph ns graph) := by
  cases graph with
  | failed => exact nil
  | sync | async => exact Above.locking (Nat.zero_le _) nil

theorem applyVinsert_above (mode : WalMode) (key ns : Bytes) {path : VinsertPath}
    (hlast : path.captures = true → GraphsLast rank) :
    Above rank 0 (applyVinsert mode key ns path) := by
  simp only [VinsertPath.captures, Bool.or_eq_true] at hlast
  refine (lookup_above ns _ _).append (onlyIf_above
    ((setPlain_above hr mode key (fun h => hlast (.inl (.inl h)))).append ?_))
  cases path.stored with
  | failed | refused => exact nil
  | done compaction =>
    have hconfig : Above rank 0 (persistNamespaceConfig mode ns path.config) := by
      refine (visitKey_above _).append ?_
      cases hpath : path.config with
      | none => exact nil
      | some config =>
        refine setPlain_above hr mode _ (fun h => hlast (.inl (.inr ?_)))
        rw [hpath]
        exact h
    have hbq := setPlain_above hr mode (bqKey key) (fun h => hlast (.inr h))
    have hgraph : Above rank 0 (onlyIf path.registered
        (getOrCreate path.absent ++ updateGraph ns path.graph)) :=
      onlyIf_above ((getOrCreate_above _).append (updateGraph_above ns _))
    exact ((hconfig.append (appendVectorWal_above mode)).append (lookup_above ns _ _)).append
      (onlyIf_above (hbq.append hgraph))

theorem applyVdelete_above (mode : WalMode) (key ns : Bytes) {path : VdeletePath}
    (hlast : (path.deleted.captures || path.sync.any (fun raw => raw.bq.captures) ||
      path.bq.captures) = true → GraphsLast rank) :
    Above rank 0 (applyVdelete mode key ns path) := by
  rw [Bool.or_eq_true] at hlast
  have hbq := deletePlain_above hr mode (bqKey key) (fun h => hlast (.inr h))
  have hgraph : Above rank 0 (onlyIf path.registered
      (registryGet ++ onlyIf path.indexed (indexWrite ns))) :=
    onlyIf_above ((registryGet_above (Nat.zero_le _)).append
      (onlyIf_above (Above.locking (Nat.zero_le _) nil)))
  refine (delete_above hr mode key (fun h => hlast (.inl h))).append ?_
  split
  · exact nil
  refine ((appendVectorWal_above mode).append hbq).append ?_
  split
  · exact nil
  · exact hgraph

omit hr in
theorem vreindex_above (ns : Bytes) (absent : Bool) {scan : Option ScanPath}
    (hfirst : scan.isSome = true → GraphsFirst rank) :
    Above rank 0 (vreindex ns absent scan) := by
  refine ((registryGet_above (Nat.zero_le _)).append (getOrCreate_above absent)).append ?_
  cases scan with
  | none => exact nil
  | some scan => exact Above.locking (Nat.zero_le _) (scan_above (hfirst rfl ns) scan)

omit hr in
theorem vsearch_above (queryKey ns : Bytes) {path : VsearchPath}
    (hfirst : (LockOp.vsearch queryKey ns path).shardsUnderIndex = true → GraphsFirst rank) :
    Above rank 0 (vsearch queryKey ns path) := by
  have hscan : ∀ scan, Above rank 0 (scanPrefixCallback scan) := scan_above (fun _ => Nat.zero_le _)
  have hcopies : ∀ keys : List Bytes, Above rank 0 (keys.flatMap visitKey) := fun keys =>
    flatMap (fun key _ => visitKey_above key)
  have hquantized : Above rank 0 (quantizedStage ns path.quantized) := by
    simp only [LockOp.shardsUnderIndex] at hfirst
    cases hpath : path.quantized with
    | skipped => exact nil
    | hamming registered indexed scan copies =>
      exact ((lookup_above ns _ _).append (hscan scan)).append (hcopies copies)
    | unsupported =>
      exact (registryGet_above (Nat.zero_le _)).append (indexRead_above (Nat.zero_le _))
    | rabitq scan copies =>
      rw [hpath] at hfirst
      refine (registryGet_above (Nat.zero_le _)).append (Above.locking (Nat.zero_le _) ?_)
      exact (scan_above (hfirst rfl ns) scan).append
        (flatMap (fun key _ => visit_above (hfirst rfl ns _)))
  refine (((visitKey_above queryKey).append ?_).append hquantized).append ?_
  · refine onlyIf_above ((registryGet_above (Nat.zero_le _)).append ?_)
    split
    · exact nil
    · exact (indexRead_above (Nat.zero_le _)).append (hcopies _)
  · split
    · exact nil
    · exact hscan _

/-! ## Procedures -/

variable {held : List (Fin shardCount)}

theorem withShards_above {body : LockTrace} {hi : Nat}
    (hup : held.Pairwise (· < ·)) (hhi : ∀ i, rank (.shard i) < hi) (hbody : Above rank hi body) :
    Above rank 0 (withShards held body) := by
  have hmem : ∀ l ∈ held.map Lock.shard, ∃ i, l = .shard i := by
    intro l hl
    obtain ⟨i, -, rfl⟩ := mem_map.mp hl
    exact ⟨i, rfl⟩
  refine lockAll _ _ hi (fun _ _ => Nat.zero_le _) ?_ (Nat.zero_le _) ?_ ?_ hbody
  · rw [pairwise_map]
    exact hup.imp (hr.shards _ _)
  · intro l hl
    obtain ⟨i, rfl⟩ := hmem l hl
    exact hhi i
  · intro l
    simp only [mem_map, mem_reverse]

/-- A procedure that only works on the store. -/
theorem onShards_above (hup : held.Pairwise (· < ·)) :
    Above rank 0 (withShards held []) := withShards_above hr hup hr.walQueue nil

omit hr in
theorem lockKey_nil (key : Bytes) : lockKey [] key = [shardIndex key] := rfl

omit hr in
/-- **Two keys are locked upwards.** -/
theorem lockKeys2_ascend (keyA keyB : Bytes) : (lockKeys2 [] keyA keyB).Pairwise (· < ·) := by
  unfold lockKeys2
  by_cases heq : shardIndex keyA = shardIndex keyB
  · simp [heq, acquireShard, maxLocks]
  · have hlt : min (shardIndex keyA) (shardIndex keyB) < max (shardIndex keyA) (shardIndex keyB) :=
      inf_lt_sup.mpr heq
    simp [heq, acquireShard, maxLocks, Ne.symm (ne_of_lt hlt)]

omit hr in
theorem kvLocks_ascend {key stats : Bytes} (h : KeysAscend key stats) :
    (kvLocks key stats).Pairwise (· < ·) := by
  obtain ⟨hstats, hmeta⟩ := h
  unfold kvLocks lockKey
  generalize shardIndex key = a at *
  generalize shardIndex stats = b at *
  generalize shardIndex (metaKey key) = c at *
  by_cases hab : b = a
  · subst hab
    by_cases hcb : c = b
    · subst hcb
      simp [acquireShard, maxLocks]
    · have hlt : b < c := by
        rcases hmeta with hmeta | hmeta
        · exact absurd hmeta hcb
        · exact lt_of_le_of_ne hmeta (Ne.symm hcb)
      simp [acquireShard, maxLocks, hcb, hlt]
  · have hlt : a < b := lt_of_le_of_ne hstats (Ne.symm hab)
    by_cases hc : c = a ∨ c = b
    · simp [acquireShard, maxLocks, hab, hc, hlt]
    · obtain ⟨hca, hcb⟩ := not_or.mp hc
      have hbc : b < c := by
        rcases hmeta with hmeta | hmeta
        · exact absurd hmeta hca
        · exact lt_of_le_of_ne hmeta (Ne.symm hcb)
      simp [acquireShard, maxLocks, hab, hca, hcb, hlt, hbc, lt_trans hlt hbc]

omit hr in
/-- The one shard of `chat_send` is given back before every other step. -/
theorem chatSend_eq (mode : WalMode) (key : Bytes) (path : SetPath) (sync : Option RawSet)
    (published : Bool) : chatSend mode key path sync published =
      visitKey key ++ set mode key path sync ++ visitKey key ++
        match path with
        | .done _ => onlyIf published (visitKey key)
        | _ => [] := by
  cases path with
  | failed | refused =>
    simp [chatSend, lockKey_nil, withShards, releasing, visitKey, visit, locking, acquires,
      releases]
  | done compaction =>
    cases published with
    | false | true =>
      simp [chatSend, lockKey_nil, withShards, releasing, visitKey, visit, locking, acquires,
        releases, onlyIf]

theorem chatSend_above (mode : WalMode) (key : Bytes) {path : SetPath} (published : Bool)
    (hlast : (path.captures || sync.any (fun raw => raw.bq.captures)) = true → GraphsLast rank) :
    Above rank 0 (chatSend mode key path sync published) := by
  rw [chatSend_eq]
  refine (((visitKey_above key).append (set_above hr mode key hlast)).append
    (visitKey_above key)).append ?_
  cases path with
  | failed | refused => exact nil
  | done compaction => exact onlyIf_above (visitKey_above key)

theorem vstats_above (ns : Bytes) (first : ScanPath) {registered : Bool} (indexed : Bool)
    (hlast : registered = true → GraphsLast rank) :
    Above rank 0 (vstats ns first registered indexed) := by
  have hcount : Above rank 0 ((finRange shardCount).flatMap visit) :=
    flatMap (fun i _ => visit_above (Nat.zero_le _))
  refine ((hcount.append hcount).append (scan_above (fun _ => Nat.zero_le _) first)).append ?_
  rw [lockKey_nil]
  cases registered with
  | false => exact onShards_above hr (pairwise_singleton _ _)
  | true =>
    refine withShards_above hr (pairwise_singleton _ _) (hlast rfl) ?_
    exact (registryGet_above (le_refl _)).append
      (onlyIf_above (indexRead_above (le_of_lt (hr.index ns))))

/-! ## Every operation -/

theorem LockOp.above (op : LockOp) (hasc : op.ShardsAscend)
    (hlast : op.graphsUnderShards = true → GraphsLast rank)
    (hfirst : op.shardsUnderIndex = true → GraphsFirst rank) : Above rank 0 op.trace := by
  cases op with
  | set mode key path sync => exact set_above hr mode key hlast
  | delete mode key path sync => exact delete_above hr mode key hlast
  | writeSnapshot captured => exact writeSnapshot_above hr (Nat.zero_le _) hlast
  | applyVinsert mode key ns path => exact applyVinsert_above hr mode key ns hlast
  | applyVdelete mode key ns path => exact applyVdelete_above hr mode key ns hlast
  | vreindex ns absent scan => exact vreindex_above ns absent hfirst
  | vsearch queryKey ns path => exact vsearch_above queryKey ns hfirst
  | kvPut key | kvGet key => exact onShards_above hr (kvLocks_ascend hasc)
  | kvStats => exact onShards_above hr (lockKeys2_ascend _ _)
  | increment key => exact onShards_above hr (pairwise_singleton _ _)
  | transfer fromKey toKey => exact onShards_above hr (lockKeys2_ascend _ _)
  | vsim keyA keyB => exact onShards_above hr (lockKeys2_ascend _ _)
  | memGet ns docId vectorOnly =>
    exact (visitKey_above _).append (onlyIf_above (onShards_above hr (lockKeys2_ascend _ _)))
  | chatSend mode key path sync published => exact chatSend_above hr mode key published hlast
  | vinsert mode key ns path counted =>
    exact (applyVinsert_above hr mode key ns hlast).append
      (onlyIf_above (onShards_above hr (pairwise_singleton _ _)))
  | vstats ns first registered indexed => exact vstats_above hr ns first indexed hlast

end

/-- The operations take their locks in one of the two orders. -/
def Orderly {ι : Type} (ops : ι → LockOp) : Prop :=
  (∀ i, (ops i).ShardsAscend) ∧
    ((∀ i, (ops i).shardsUnderIndex = false) ∨ ∀ i, (ops i).graphsUnderShards = false)

/-- **Operations that are orderly together never wait for each other in a circle**, in any
state that they can reach. -/
theorem orderly_no_deadlock {ι : Type} [DecidableEq ι] (ops : ι → LockOp) (h : Orderly ops)
    {s : ι → Thread Lock} (hreach : Reachable (fun i => (ops i).trace) s) : ¬ Deadlocked s := by
  obtain ⟨hasc, hnone | hnone⟩ := h
  · obtain ⟨hr, hlast⟩ := hierarchy_graphsLast
    refine climbs_no_deadlock rankGraphsLast (fun i => ?_) hreach
    refine ((ops i).above hr (hasc i) (fun _ => hlast) (fun hindex => ?_)).climbs
    rw [hnone i] at hindex
    cases hindex
  · obtain ⟨hr, hfirst⟩ := hierarchy_graphsFirst
    refine climbs_no_deadlock rankGraphsFirst (fun i => ?_) hreach
    refine ((ops i).above hr (hasc i) (fun hgraphs => ?_) (fun _ => hfirst)).climbs
    rw [hnone i] at hgraphs
    cases hgraphs

/-- Money that is sent both ways at once. -/
def twoTransfers : Bool → LockOp
  | false => .transfer (ascii "a") (ascii "b")
  | true => .transfer (ascii "b") (ascii "a")

theorem twoTransfers_eq (i : Bool) : (twoTransfers i).trace =
    acquires .exclusive [Lock.shard (shardIndex (ascii "a"))] ++
      .acquire (.shard (shardIndex (ascii "b"))) .exclusive ::
        releases [Lock.shard (shardIndex (ascii "b")), .shard (shardIndex (ascii "a"))] := by
  have hlocks : lockKeys2 [] (ascii "a") (ascii "b") =
      [shardIndex (ascii "a"), shardIndex (ascii "b")] := by decide
  have hlocks' : lockKeys2 [] (ascii "b") (ascii "a") =
      [shardIndex (ascii "a"), shardIndex (ascii "b")] := by decide
  cases i with
  | false =>
    rw [twoTransfers, LockOp.trace, transfer, hlocks]
    rfl
  | true =>
    rw [twoTransfers, LockOp.trace, transfer, hlocks']
    rfl

/-- The second waits for the first, and not the other way round. -/
theorem transfers_no_deadlock : ∃ s, Reachable (fun i => (twoTransfers i).trace) s ∧
    WaitsFor s true false ∧ ¬ Deadlocked s := by
  have horderly : Orderly twoTransfers := by
    refine ⟨fun i => ?_, .inl (fun i => ?_)⟩
    · cases i <;> trivial
    · cases i <;> rfl
  have hclimbs : Climbs rankGraphsLast []
      (acquires .exclusive [Lock.shard (shardIndex (ascii "a"))]) :=
    climbs_acquires (by simp) (pairwise_singleton _ _)
  have hreach := Reachable.advance
    (Relation.ReflTransGen.refl : Reachable (fun i => (twoTransfers i).trace) _) false
    (twoTransfers_eq false) hclimbs (by simp [start])
  refine ⟨_, hreach, ?_, orderly_no_deadlock _ horderly hreach⟩
  refine ⟨.shard (shardIndex (ascii "a")), .exclusive, (twoTransfers true).trace.drop 1,
    .exclusive, ?_, ?_⟩
  · rw [Function.update_of_ne (by simp), start, twoTransfers_eq]
    rfl
  · rw [Function.update_self, start, heldAfter_acquires]
    exact mem_cons_self

/-! ## Operations that are not -/

/-- Two keys that are written at once. -/
def twoKvPuts : Bool → LockOp
  | false => .kvPut (ascii "dt")
  | true => .kvPut (ascii "a")

theorem kvLocks_dt : kvLocks (ascii "dt") statsWrites =
    [shardIndex (ascii "dt"), shardIndex statsWrites, shardIndex (ascii "meta:dt")] := by
  decide

/-- The record of the one key is in the shard of the other. -/
theorem kvLocks_a : kvLocks (ascii "a") statsWrites =
    [shardIndex (ascii "a"), shardIndex statsWrites, shardIndex (ascii "dt")] := by
  decide

/-- **Two `kv_put`s can wait for each other for ever**: the first has its key's shard and waits
for the counter's, which the second has, and that waits for the shard of its key's record, which
is the first key's. -/
theorem kv_puts_deadlock : ∃ s : Bool → Thread Lock,
    Reachable (fun i => (twoKvPuts i).trace) s ∧ Deadlocked s ∧ ∀ s', ¬ Step s s' := by
  have hup : shardIndex (ascii "a") < shardIndex statsWrites := by decide
  have hfirst : kvPut (ascii "dt") =
      acquires .exclusive [Lock.shard (shardIndex (ascii "dt"))] ++
        .acquire (.shard (shardIndex statsWrites)) .exclusive :: (kvPut (ascii "dt")).drop 2 := by
    rw [kvPut, kvLocks_dt]
    rfl
  have hsecond : kvPut (ascii "a") =
      acquires .exclusive [Lock.shard (shardIndex (ascii "a")), .shard (shardIndex statsWrites)] ++
        .acquire (.shard (shardIndex (ascii "dt"))) .exclusive :: (kvPut (ascii "a")).drop 3 := by
    rw [kvPut, kvLocks_a]
    rfl
  have hclimbs₁ : Climbs rankGraphsLast []
      (acquires .exclusive [Lock.shard (shardIndex (ascii "dt"))]) :=
    climbs_acquires (by simp) (pairwise_singleton _ _)
  have hclimbs₂ : Climbs rankGraphsLast [] (acquires .exclusive
      [Lock.shard (shardIndex (ascii "a")), .shard (shardIndex statsWrites)]) :=
    climbs_acquires (by simp) (pairwise_pair.mpr (hierarchy_graphsLast.1.shards _ _ hup))
  refine two_deadlock hfirst hsecond hclimbs₁ hclimbs₂ ?_ mem_cons_self mem_cons_self
  -- the second has none of the first's locks yet
  intro l mode hmem m
  have hne₁ : shardIndex (ascii "a") ≠ shardIndex (ascii "dt") := by decide
  have hne₂ : shardIndex statsWrites ≠ shardIndex (ascii "dt") := by decide
  rw [heldAfter_acquires]
  simp only [acquires, map_cons, map_nil, mem_cons, Act.acquire.injEq,
    not_mem_nil, or_false] at hmem
  rcases hmem with ⟨rfl, -⟩ | ⟨rfl, -⟩
  · simp [hne₁]
  · simp [hne₂]

/-- A namespace that is rebuilt while the store is saved. -/
def reindexAndSave (ns : Bytes) : Bool → LockOp
  | false => .vreindex ns false (some ⟨shardCount, []⟩)
  | true => .writeSnapshot (some [ns])

/-- **`vreindex` and a snapshot can wait for each other for ever**: the one has the index and
waits for the first shard, the other has all shards and the registry and waits for the
index. -/
theorem vreindex_snapshot_deadlock (ns : Bytes) : ∃ s : Bool → Thread Lock,
    Reachable (fun i => (reindexAndSave ns i).trace) s ∧ Deadlocked s ∧ ∀ s', ¬ Step s s' := by
  obtain ⟨shard, shards, hshards⟩ : ∃ i is, finRange shardCount = i :: is :=
    ⟨_, _, finRange_succ⟩
  let before : LockTrace := registryGet ++ getOrCreate false ++ [.acquire (.index ns) .exclusive]
  let saving : LockTrace := .acquire .snapshot .exclusive ::
    (acquires .exclusive ((finRange shardCount).map .shard) ++ [.acquire .registry .exclusive])
  have hfirst : vreindex ns false (some ⟨shardCount, []⟩) = before ++
      .acquire (.shard shard) .exclusive :: .release (.shard shard) ::
        (shards.flatMap visit ++ [.release (.index ns)]) := by
    have htake : (finRange shardCount).take shardCount = finRange shardCount :=
      take_of_length_le (le_of_eq length_finRange)
    simp only [vreindex, scanPrefixCallback, append_nil]
    rw [htake, hshards, flatMap_cons]
    simp [before, visit, locking]
  have hsecond : writeSnapshot (some [ns]) = saving ++
      .acquire (.index ns) .exclusive :: .release (.index ns) :: .release .registry ::
        (releases ((finRange shardCount).map .shard) ++ [.release .snapshot]) := by
    simp [writeSnapshot, registryWriteTo, locking, saving]
  have hclimbs₁ : Climbs rankGraphsFirst [] before := by
    have hall : Above rankGraphsFirst 0 (vreindex ns false (some ⟨shardCount, []⟩)) :=
      vreindex_above ns false (fun _ => hierarchy_graphsFirst.2)
    have hclimbs := hall.climbs
    rw [hfirst] at hclimbs
    exact (climbs_append.mp hclimbs).1
  have hclimbs₂ : Climbs rankGraphsLast [] saving := by
    have hall : Above rankGraphsLast 0 (writeSnapshot (some [ns])) :=
      writeSnapshot_above hierarchy_graphsLast.1 (Nat.zero_le _) (fun _ => hierarchy_graphsLast.2)
    have hclimbs := hall.climbs
    rw [hsecond] at hclimbs
    exact (climbs_append.mp hclimbs).1
  have hheld₁ : heldAfter [] before = [(.index ns, .exclusive)] := by
    simp [before, registryGet, getOrCreate, locking, heldAfter, Act.apply]
  have hheld₂ : (.shard shard, .exclusive) ∈ heldAfter [] saving := by
    simp only [saving, heldAfter_cons, heldAfter_append, heldAfter_acquires, hshards]
    simp [heldAfter, Act.apply]
  refine two_deadlock hfirst hsecond hclimbs₁ hclimbs₂ ?_ (by rw [hheld₁]; exact mem_cons_self)
    hheld₂
  intro l mode hmem m
  rw [hheld₁, mem_singleton, Prod.mk.injEq, not_and]
  rintro rfl
  simp [saving, acquires] at hmem

end WormDB.Locks
