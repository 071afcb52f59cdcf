import WormDB.Executor
import WormDB.VectorFrame

/-! # The authorization gate of the executor

A client's command does something only if its token permits it on everything the command
names.  Then it changes no more than what it names: entries under its keys and what the
system derives from them, the vectors of its keys, the parameters of its namespace; and its
response tells of no other entry (`execute_enforce`). -/
namespace WormDB
open List ByteCodec PrefixMap NamespaceRegistry VectorOps NodeFrame

namespace Executor
open Auth

/-! ## What a command names -/

/-- The keys a command reads or writes. -/
def commandKeys : Command → List Bytes
  | .get key => [key]
  | .set params => [params.key]
  | .delete key => [key]
  | .vinsert params => [params.key]
  | .vdelete params => [params.key]
  | .vbulkinsert params => params.items.map BulkItem.key
  | _ => []

/-- The keys, the channel, the procedure or the namespace a command names. -/
def commandTargets : Command → List Bytes
  | .subscribe params => [params.channel]
  | .unsubscribe channel => [channel]
  | .publish params => [params.channel]
  | .exec params => [params.procedure]
  | .vrabitqInstall params => [params.namespace]
  | cmd => commandKeys cmd

def commandNamespace : Command → Option Bytes
  | .vinsert params => some params.namespace
  | .vdelete params => some params.namespace
  | .vbulkinsert params => some params.namespace
  | _ => none

/-- The key of a companion: the quantised vector, or the configuration of the namespace. -/
def Derived (cmd : Command) (key k : Bytes) : Prop :=
  k = bqKey key ∨
    ∃ ns, commandNamespace cmd = some ns ∧ keyBelongsToNamespace key ns = true ∧ k = metaKey ns

/-- The token permits the command's operation on everything the command names; for `SAVE`
it has to be universal. -/
def Permitted (state : TokenState) (op : Operation) (cmd : Command) : Prop :=
  (cmd = .save → ∃ cap ∈ state.capabilities, cap.universal = true) ∧
    ∀ target ∈ commandTargets cmd, state.permits op target = true

/-- What a command may touch under a token. -/
def granted (state : TokenState) (op : Operation) (cmd : Command) : Footprint where
  keys k := ∃ key ∈ commandKeys cmd, state.permits op key = true ∧ (k = key ∨ Derived cmd key k)
  vectors k := k ∈ commandKeys cmd ∧ state.permits op k = true
  params ns := (∃ params, cmd = .vrabitqInstall params ∧ params.namespace = ns) ∧
    state.permits op ns = true
  events e := (∃ params, cmd = .publish params ∧ e = (params.channel, params.message) ∧
      state.permits op params.channel = true) ∨
    (e.2 ∈ commandKeys cmd ∧ state.permits op e.2 = true ∧ ∃ ns, commandNamespace cmd = some ns ∧
      (e.1 = ns ++ insertedSuffix ∨ e.1 = ns ++ deletedSuffix))
  frames c := c = cmd ∧ ∀ key ∈ commandKeys cmd, state.permits op key = true

variable {cmd : Command}

theorem commandKeys_subset {key : Bytes} (h : key ∈ commandKeys cmd) :
    key ∈ commandTargets cmd := by
  cases cmd <;> first | exact h | cases h

variable {state : TokenState} {op : Operation}

theorem commandPermittedUnion_iff (hop : operationForCommand cmd = some op) :
    commandPermittedUnion state cmd = true ↔ Permitted state op cmd := by
  rw [commandPermittedUnion, hop]
  cases cmd <;>
    simp_all [Permitted, commandTargets, commandKeys, commandTarget, operationForCommand]

/-! ## What a command changes -/

section
variable (env : ExecEnv) {state : TokenState} {op : Operation}

variable {fp : Footprint} {s : Node}

theorem vectorResponse_frame {message : VectorOpError → Bytes}
    {result : Except VectorOpError Unit × Node} (h : NodeFrame fp s result.2) :
    NodeFrame fp s (vectorResponse message result).2 := by
  obtain ⟨end_, s'⟩ := result
  cases end_ <;> exact h

theorem storeResponse_frame {result : Except StoreError Unit × Node}
    {andThen : Node → Node} (h : NodeFrame fp s result.2)
    (hthen : ∀ s, NodeFrame fp s (andThen s)) : NodeFrame fp s
    (storeResponse result andThen).2 := by
  rw [storeResponse.eq_def]
  split
  · exact h.trans (hthen _)
  · exact h
  · exact h

variable {cmd : Command} {key : Bytes}

theorem granted_key (hp : Permitted state op cmd)
    (hkey : key ∈ commandKeys cmd) : (granted state op cmd).keys key :=
  ⟨key, hkey, hp.2 key (commandKeys_subset hkey), .inl rfl⟩

theorem granted_bq (hp : Permitted state op cmd)
    (hkey : key ∈ commandKeys cmd) : (granted state op cmd).keys (bqKey key) :=
  ⟨key, hkey, hp.2 key (commandKeys_subset hkey), .inr (.inl rfl)⟩

variable {ns : Bytes}

section
variable (hp : Permitted state op cmd)
include hp

theorem granted_meta (hkey : key ∈ commandKeys cmd) (hns : commandNamespace cmd = some ns)
    (hbelongs : keyBelongsToNamespace key ns = true) : (granted state op cmd).keys (metaKey ns) :=
  ⟨key, hkey, hp.2 key (commandKeys_subset hkey), .inr (.inr ⟨ns, hns, hbelongs, rfl⟩)⟩

theorem granted_vector (hkey : key ∈ commandKeys cmd) : (granted state op cmd).vectors key :=
  ⟨hkey, hp.2 key (commandKeys_subset hkey)⟩

theorem granted_event {channel : Bytes}
    (hkey : key ∈ commandKeys cmd) (hns : commandNamespace cmd = some ns)
    (hchannel : channel = ns ++ insertedSuffix ∨ channel = ns ++ deletedSuffix) :
    (granted state op cmd).events (channel, key) :=
  .inr ⟨hkey, hp.2 key (commandKeys_subset hkey), ns, hns, hchannel⟩

theorem granted_frame : (granted state op cmd).frames cmd :=
  ⟨rfl, fun key hkey => hp.2 key (commandKeys_subset hkey)⟩

end

theorem name_of_fromStr {name : Bytes} {metric : Metric} (h : Metric.fromStr name = some metric) :
    metric.name = name := by
  have hfound := find?_some h
  exact of_decide_eq_true hfound

theorem executeVinsert_frame (s : Node) {params : VinsertParams}
    (hp : Permitted state op (.vinsert params)) :
    NodeFrame (granted state op (.vinsert params)) s (executeVinsert env s params).2 := by
  have hkey : params.key ∈ commandKeys (.vinsert params) := mem_singleton_self _
  rw [executeVinsert]
  split
  · exact refl s
  · rename_i metric hmetric
    have hname := name_of_fromStr hmetric
    refine vectorResponse_frame (applyVinsert env.toNodeEnv s (granted_key hp hkey)
      (granted_vector hp hkey) (granted_bq hp hkey) (fun hbelongs => granted_meta hp hkey rfl hbelongs)
      (granted_event hp hkey rfl (.inl rfl)) (fun _ => ?_))
    dsimp only
    rw [hname]
    exact granted_frame hp

theorem executeVbulkinsert_frame (s : Node) {params : VbulkinsertParams}
    (hp : Permitted state op (.vbulkinsert params)) :
    NodeFrame (granted state op (.vbulkinsert params)) s (executeVbulkinsert env s params).2 := by
  have hmem : ∀ item ∈ params.items, item.key ∈ commandKeys (.vbulkinsert params) :=
    fun item hitem => mem_map.mpr ⟨item, hitem, rfl⟩
  rw [executeVbulkinsert]
  split
  · exact refl s
  · rename_i metric hmetric
    have hname := name_of_fromStr hmetric
    refine vectorResponse_frame (applyVbulkinsert env.toNodeEnv s (fun item hitem => ?_)
      (fun item hitem hbelongs => granted_meta hp (hmem item hitem) rfl hbelongs) (fun _ => ?_))
    · have hkey := hmem item hitem
      exact ⟨granted_key hp hkey, granted_bq hp hkey, granted_vector hp hkey,
        granted_event hp hkey rfl (.inl rfl)⟩
    · rw [hname]
      exact granted_frame hp

/-- **A command changes no more than what it names and the token permits.**  A procedure
may do anything, and `SAVE` writes a snapshot. -/
theorem dispatch_frame (auth : AuthContext) (s : Node)
    (hop : operationForCommand cmd = some op) (hp : Permitted state op cmd)
    (hexec : ∀ params, cmd ≠ .exec params) (hsave : cmd ≠ .save) :
    NodeFrame (granted state op cmd) s (dispatch env auth s cmd).2 := by
  cases cmd with
  | get key =>
    rw [dispatch, executeGet]
    split
    · exact of_kv _ (fun _ _ => rfl)
    · exact of_kv _ (fun _ _ => rfl)
  | set params =>
    have hkey : params.key ∈ commandKeys (.set params) := mem_singleton_self _
    refine storeResponse_frame (setWithTimestamp env.toNodeEnv s _ _ _ (granted_key hp hkey)
      (granted_vector hp hkey) (granted_bq hp hkey)) (fun s => ?_)
    refine trans ?_ (replicate env.toNodeEnv _ (fun _ => granted_frame hp))
    exact withRegistry (fun reg hreg => syncVectorSetWithRegistry env.toNodeEnv hreg _ _ _
      (granted_vector hp hkey) (granted_bq hp hkey))
  | delete key =>
    have hkey : key ∈ commandKeys (.delete key) := mem_singleton_self _
    refine storeResponse_frame (delete env.toNodeEnv s (granted_key hp hkey)
      (granted_vector hp hkey) (granted_bq hp hkey)) (fun s => ?_)
    refine trans ?_ (replicate env.toNodeEnv _ (fun _ => granted_frame hp))
    exact withRegistry (fun reg hreg => syncVectorDeleteWithRegistry env.toNodeEnv hreg
      (granted_vector hp hkey) (granted_bq hp hkey))
  | status | clusterStatus | clusterPeers => cases hop
  | subscribe params => exact refl s
  | unsubscribe channel => exact refl s
  | publish params =>
    exact publish s (.inl ⟨params, rfl, rfl, hp.2 _ (mem_singleton_self _)⟩)
  | exec params => exact absurd rfl (hexec params)
  | save => exact absurd rfl hsave
  | auth token => cases hop
  | vinsert params => exact executeVinsert_frame env s hp
  | vdelete params =>
    have hkey : params.key ∈ commandKeys (.vdelete params) := mem_singleton_self _
    exact vectorResponse_frame (applyVdelete env.toNodeEnv s (granted_key hp hkey)
      (granted_vector hp hkey) (granted_bq hp hkey) (granted_event hp hkey rfl (.inr rfl))
      (fun _ => granted_frame hp))
  | vbulkinsert params => exact executeVbulkinsert_frame env s hp
  | vrabitqInstall params =>
    exact vectorResponse_frame (applyVrabitqInstall s _
      ⟨⟨params, rfl, rfl⟩, hp.2 _ (mem_singleton_self _)⟩)

theorem executeSave_eq (s : Node) :
    (executeSave env s).2 = { s with snapshots := (executeSave env s).2.snapshots } := by
  rw [executeSave]
  split
  · rfl
  · split <;> rfl

end

/-! ## What a response tells -/

/-- Two nodes that a command with these keys cannot tell apart by its response: the entries
under the keys and their companions, the names and dimensions of the namespaces, and the
number of the next access are the same. -/
structure Alike (keys : List Bytes) (s s₂ : Node) : Prop where
  entry : ∀ key ∈ keys, s₂.kv.get key = s.kv.get key
  companion : ∀ key ∈ keys, s₂.kv.get (bqKey key) = s.kv.get (bqKey key)
  names : s₂.registry.map (fun reg => reg.entries.map Prod.fst) =
    s.registry.map (fun reg => reg.entries.map Prod.fst)
  dims : ∀ ns, (indexOf s₂ ns).bind NamespaceIndex.expectedDim =
    (indexOf s ns).bind NamespaceIndex.expectedDim
  accesses : s₂.accesses = s.accesses

namespace Alike
variable {s s₂ : Node} {key : Bytes} {keys : List Bytes} (env : NodeEnv)

theorem setWithTimestampNoVectorSync (h : Alike keys s s₂) (hkey : key ∈ keys) (value : Bytes)
    (isWorm : Bool) (timestamp : UInt64) :
    (s₂.setWithTimestampNoVectorSync env key value isWorm timestamp).1 =
      (s.setWithTimestampNoVectorSync env key value isWorm timestamp).1 := by
  rw [Node.setWithTimestampNoVectorSync, Node.setWithTimestampNoVectorSync, h.accesses,
    h.entry key hkey]
  dsimp only
  split
  · rfl
  · split <;> rfl

theorem setWithTimestamp (h : Alike keys s s₂) (hkey : key ∈ keys) (value : Bytes) (isWorm : Bool)
    (timestamp : UInt64) :
    (s₂.setWithTimestamp env key value isWorm timestamp).1 =
      (s.setWithTimestamp env key value isWorm timestamp).1 := by
  have hfst : ∀ s : Node, (s.setWithTimestamp env key value isWorm timestamp).1 =
      (s.setWithTimestampNoVectorSync env key value isWorm timestamp).1 := by
    intro s
    rw [Node.setWithTimestamp]
    rcases s.setWithTimestampNoVectorSync env key value isWorm timestamp with ⟨e | _, s'⟩ <;> rfl
  rw [hfst, hfst, h.setWithTimestampNoVectorSync env hkey]

/-- Removing the entry under one of the two names of a key. -/
theorem remove {k : Bytes} (hentry : s₂.kv.get k = s.kv.get k) (hacc : s₂.accesses = s.accesses) :
    (s₂.remove env k).1 = (s.remove env k).1 ∧
      (s₂.remove env k).2.accesses = (s.remove env k).2.accesses ∧
      (∀ k', s₂.kv.get k' = s.kv.get k' →
        (s₂.remove env k).2.kv.get k' = (s.remove env k).2.kv.get k') ∧
      (s₂.remove env k).2.registry = s₂.registry ∧ (s.remove env k).2.registry = s.registry := by
  rw [Node.remove, Node.remove, hentry, hacc]
  split
  · exact ⟨rfl, hacc, fun _ h => h, rfl, rfl⟩
  split
  · exact ⟨rfl, hacc, fun _ h => h, rfl, rfl⟩
  dsimp only
  split
  · exact ⟨rfl, rfl, fun _ h => h, rfl, rfl⟩
  · refine ⟨rfl, rfl, fun k' h => ?_, rfl, rfl⟩
    by_cases hk : k' = k
    · rw [hk, ByteMap.get_erase_self, ByteMap.get_erase_self]
    · rw [ByteMap.get_erase_of_ne _ hk, ByteMap.get_erase_of_ne _ hk, h]

theorem syncRawDelete {reg reg₂ : NamespaceRegistry}
    (hnames : reg₂.entries.map Prod.fst = reg.entries.map Prod.fst) (key : Bytes) :
    (reg₂.syncRawDelete key).1 = (reg.syncRawDelete key).1 := by
  have hany : ∀ p : Bytes → Bool, reg₂.entries.any (fun entry => p entry.1) =
      reg.entries.any (fun entry => p entry.1) := by
    intro p
    have hmap : (reg₂.entries.map Prod.fst).any p = (reg.entries.map Prod.fst).any p := by rw [hnames]
    rwa [any_map, any_map] at hmap
  rw [NamespaceRegistry.syncRawDelete, NamespaceRegistry.syncRawDelete, mayMatchRegisteredNamespace,
    mayMatchRegisteredNamespace, hany (fun ns => decide (ns ≠ []) && ns.head? == key.head?)]
  split
  · exact hany (fun ns => ns.isPrefixOf key)
  · rfl

theorem delete_fst (s : Node) (key : Bytes) :
    (s.delete env key).1 = (s.remove env key).1.map (fun _ => ()) := by
  rw [Node.delete]
  rcases s.remove env key with ⟨e | (_ | _), s'⟩ <;> rfl

section
variable (h : Alike keys s s₂)
include h

theorem registry_cases : (s.registry = none ∧ s₂.registry = none) ∨
      ∃ reg reg₂, s.registry = some reg ∧ s₂.registry = some reg₂ ∧
        reg₂.entries.map Prod.fst = reg.entries.map Prod.fst := by
  have hnames := h.names
  cases hreg : s.registry with
  | none =>
    rw [hreg, Option.map_none, Option.map_eq_none_iff] at hnames
    exact .inl ⟨rfl, hnames⟩
  | some reg =>
    rw [hreg, Option.map_some] at hnames
    obtain ⟨reg₂, hreg₂, heq⟩ := Option.map_eq_some_iff.mp hnames
    exact .inr ⟨reg, reg₂, rfl, hreg₂, heq⟩

/-- After the deletion of a key its companion and the next access are still the same. -/
theorem delete_companion (hkey : key ∈ keys) :
    (s₂.delete env key).2.kv.get (bqKey key) = (s.delete env key).2.kv.get (bqKey key) ∧
      (s₂.delete env key).2.accesses = (s.delete env key).2.accesses := by
  obtain ⟨hfst, hacc, hkv, hreg₂, hreg⟩ := remove env (h.entry key hkey) h.accesses
  have hbq := hkv (bqKey key) (h.companion key hkey)
  rw [Node.delete, Node.delete]
  generalize s₂.remove env key = removed₂ at *
  generalize s.remove env key = removed at *
  obtain ⟨r₂, t₂⟩ := removed₂
  obtain ⟨r, t⟩ := removed
  obtain rfl : r₂ = r := hfst
  rcases r₂ with e | (_ | _)
  · exact ⟨hbq, hacc⟩
  · exact ⟨hbq, hacc⟩
  · dsimp only at hreg₂ hreg hbq hacc ⊢
    rw [Node.withRegistry, Node.withRegistry, hreg₂, hreg]
    rcases h.registry_cases with ⟨hnone, hnone₂⟩ | ⟨reg, reg₂, hsome, hsome₂, hnames⟩
    · rw [hnone, hnone₂]
      exact ⟨hbq, hacc⟩
    · rw [hsome, hsome₂]
      dsimp only
      split
      · rw [Node.syncVectorDeleteWithRegistry, Node.syncVectorDeleteWithRegistry,
          syncRawDelete hnames]
        split
        · have hremove := @remove { t with registry := some (reg.syncRawDelete key).2 }
            { t₂ with registry := some (reg₂.syncRawDelete key).2 } env (bqKey key) hbq hacc
          exact ⟨hremove.2.2.1 (bqKey key) hbq, hremove.2.1⟩
        · exact ⟨hbq, hacc⟩
      · exact ⟨hbq, hacc⟩

theorem applyVdelete (hkey : key ∈ keys) (ns : Bytes) (wanted : Bool) :
    (VectorOps.applyVdelete env s₂ key ns wanted).1 =
      (VectorOps.applyVdelete env s key ns wanted).1 := by
  have hfst : (s₂.delete env key).1 = (s.delete env key).1 := by
    rw [delete_fst, delete_fst, (remove env (h.entry key hkey) h.accesses).1]
  obtain ⟨hbq, hacc⟩ := h.delete_companion env hkey
  rw [VectorOps.applyVdelete, VectorOps.applyVdelete]
  split
  · rfl
  generalize s₂.delete env key = deleted₂ at *
  generalize s.delete env key = deleted at *
  obtain ⟨r₂, t₂⟩ := deleted₂
  obtain ⟨r, t⟩ := deleted
  obtain rfl : r₂ = r := hfst
  cases r₂ with
  | error e => rfl
  | ok _ =>
    dsimp only
    have hsecond : (t₂.delete env (bqKey key)).1 = (t.delete env (bqKey key)).1 := by
      rw [delete_fst, delete_fst, (remove env hbq hacc).1]
    generalize t₂.delete env (bqKey key) = second₂ at *
    generalize t.delete env (bqKey key) = second at *
    obtain ⟨q₂, u₂⟩ := second₂
    obtain ⟨q, u⟩ := second
    obtain rfl : q₂ = q := hsecond
    rcases q₂ with (_ | _ | _ | _ | _) | _ <;> rfl

theorem applyVinsert {args : VinsertArgs} (hkey : args.key ∈ keys) :
    (VectorOps.applyVinsert env s₂ args).1 = (VectorOps.applyVinsert env s args).1 := by
  have hwrite := h.setWithTimestampNoVectorSync env hkey args.vector args.worm args.timestamp
  rw [VectorOps.applyVinsert, VectorOps.applyVinsert, h.dims]
  split
  · rfl
  split
  · rfl
  split
  · rfl
  generalize s₂.setWithTimestampNoVectorSync env args.key args.vector args.worm args.timestamp =
    written₂ at *
  generalize s.setWithTimestampNoVectorSync env args.key args.vector args.worm args.timestamp =
    written at *
  obtain ⟨r₂, t₂⟩ := written₂
  obtain ⟨r, t⟩ := written
  obtain rfl : r₂ = r := hwrite
  cases r₂ <;> rfl

end

theorem applyVbulkinsert (s s₂ : Node) (ns : Bytes) (metric : Metric) (worm isAsync : Bool)
    (items : List BulkItem) (wanted : Bool) :
    (VectorOps.applyVbulkinsert env s₂ ns metric worm isAsync items wanted).1 =
      (VectorOps.applyVbulkinsert env s ns metric worm isAsync items wanted).1 := by
  cases items with
  | nil => rfl
  | cons first rest =>
    rw [VectorOps.applyVbulkinsert, VectorOps.applyVbulkinsert]
    split <;> rfl

/-- The inferred metric is the namespace's own, so the install is not refused for it. -/
theorem applyVrabitqInstall (h : Alike keys s s₂) (params : VrabitqInstallParams) :
    (VectorOps.applyVrabitqInstall s₂ params (inferredMetric s₂ params.namespace)).1 =
      (VectorOps.applyVrabitqInstall s params (inferredMetric s params.namespace)).1 := by
  have hcreate : ∀ {s : Node} {reg : NamespaceRegistry}, s.registry = some reg →
      ∃ reg', reg.getOrCreate params.namespace (inferredMetric s params.namespace) = .ok reg' := by
    intro s reg hreg
    rw [getOrCreate, inferredMetric, indexOf, hreg, Option.bind_some]
    cases reg.get params.namespace with
    | none => exact ⟨_, rfl⟩
    | some idx => exact ⟨reg, by simp⟩
  rw [VectorOps.applyVrabitqInstall, VectorOps.applyVrabitqInstall]
  rcases h.registry_cases with ⟨hnone, hnone₂⟩ | ⟨reg, reg₂, hsome, hsome₂, -⟩
  · rw [hnone, hnone₂]
  · obtain ⟨reg', hok⟩ := hcreate hsome
    obtain ⟨reg₂', hok₂⟩ := hcreate hsome₂
    rw [hsome, hsome₂]
    dsimp only
    rw [hok, hok₂]
    split
    · rfl
    · split <;> rfl

end Alike

theorem vectorResponse_fst {message : VectorOpError → Bytes}
    {result result₂ : Except VectorOpError Unit × Node} (h : result₂.1 = result.1) :
    (vectorResponse message result₂).1 = (vectorResponse message result).1 := by
  obtain ⟨r, s⟩ := result
  obtain ⟨r₂, s₂⟩ := result₂
  obtain rfl : r₂ = r := h
  cases r₂ <;> rfl

theorem storeResponse_fst {result result₂ : Except StoreError Unit × Node} {f g : Node → Node}
    (h : result₂.1 = result.1) : (storeResponse result₂ g).1 = (storeResponse result f).1 := by
  obtain ⟨r, s⟩ := result
  obtain ⟨r₂, s₂⟩ := result₂
  obtain rfl : r₂ = r := h
  rcases r₂ with (_ | _ | _ | _ | _) | _ <;> rfl

/-- **A response depends on no entry but those under the command's keys and their
companions.** -/
theorem dispatch_alike (env : ExecEnv) (auth : AuthContext) {s s₂ : Node}
    (hop : operationForCommand cmd = some op) (hexec : ∀ params, cmd ≠ .exec params)
    (h : Alike (commandKeys cmd) s s₂) :
    (dispatch env auth s₂ cmd).1 = (dispatch env auth s cmd).1 := by
  cases cmd with
  | get key =>
    rw [dispatch, dispatch, executeGet, executeGet, Node.getValueDupe, Node.getValueDupe, h.accesses,
      h.entry key (mem_singleton_self _)]
    split <;> rfl
  | set params =>
    rw [dispatch, dispatch, executeSet, executeSet]
    refine storeResponse_fst ?_
    rw [Node.set, Node.set, h.accesses]
    exact h.setWithTimestamp env.toNodeEnv (mem_singleton_self _) _ _ _
  | delete key =>
    refine storeResponse_fst ?_
    rw [Alike.delete_fst, Alike.delete_fst,
      (Alike.remove env.toNodeEnv (h.entry key (mem_singleton_self _)) h.accesses).1]
  | status | clusterStatus | clusterPeers => cases hop
  | subscribe params => rfl
  | unsubscribe channel => rfl
  | publish params => rfl
  | exec params => exact absurd rfl (hexec params)
  | save =>
    rw [dispatch, dispatch, executeSave, executeSave, h.accesses]
    split
    · rfl
    · split <;> rfl
  | auth token => cases hop
  | vinsert params =>
    rw [dispatch, dispatch, executeVinsert, executeVinsert]
    split
    · rfl
    · refine vectorResponse_fst ?_
      exact h.applyVinsert env.toNodeEnv (mem_singleton_self _)
  | vdelete params =>
    exact vectorResponse_fst (h.applyVdelete env.toNodeEnv (mem_singleton_self _) _ _)
  | vbulkinsert params =>
    rw [dispatch, dispatch, executeVbulkinsert, executeVbulkinsert]
    split
    · rfl
    · exact vectorResponse_fst (Alike.applyVbulkinsert env.toNodeEnv s s₂ _ _ _ _ _ _)
  | vrabitqInstall params => exact vectorResponse_fst (h.applyVrabitqInstall params)

/-! ## The gate -/

/-- What a client's command does under a token: a permitted procedure does what it does,
`SAVE` writes a snapshot and nothing else, and every other command keeps to what it names;
its response tells of nothing else. -/
structure Confined (env : ExecEnv) (state : TokenState) (op : Operation) (s : Node) (cmd : Command)
    (r : Except StoreError Response × Node) : Prop where
  effect : (∃ params, cmd = .exec params ∧ state.permits .exec params.procedure = true) ∨
    (cmd = .save ∧ r.2 = { s with snapshots := r.2.snapshots }) ∨ NodeFrame (granted state op cmd) s r.2
  response : (∀ params, cmd ≠ .exec params) → ∀ s₂, Alike (commandKeys cmd) s s₂ →
    (execute env (.enforce (some state)) s₂ cmd).1 = r.1

theorem execute_permitted (env : ExecEnv) (s : Node) (hop : operationForCommand cmd = some op)
    (hp : Permitted state op cmd) :
    execute env (.enforce (some state)) s cmd = dispatch env (.enforce (some state)) s cmd := by
  have hunion := (commandPermittedUnion_iff hop).mpr hp
  simp [execute, hop, hunion]

/-- **The gate.**  A protected command of a client is refused with an error and leaves the
node as it is, unless the token is there and permits the operation on everything the
command names; then the command is confined to that. -/
theorem execute_enforce (env : ExecEnv) (token : Option TokenState) (s : Node) (cmd : Command)
    (op : Operation) (hop : operationForCommand cmd = some op) :
    (∃ state, token = some state ∧ Permitted state op cmd ∧
      Confined env state op s cmd (execute env (.enforce token) s cmd)) ∨
    ((¬ ∃ state, token = some state ∧ Permitted state op cmd) ∧
      ∃ msg, execute env (.enforce token) s cmd = (.ok (.err msg), s)) := by
  rcases token with _ | state
  · refine .inr ⟨?_, ascii "auth required", ?_⟩
    · rintro ⟨state, hstate, -⟩
      cases hstate
    · simp [execute, hop]
  by_cases hp : Permitted state op cmd
  · refine .inl ⟨state, rfl, hp, ?_, ?_⟩
    · rw [execute_permitted env s hop hp]
      by_cases hexec : ∃ params, cmd = .exec params
      · obtain ⟨params, rfl⟩ := hexec
        cases hop
        exact .inl ⟨params, rfl, hp.2 _ (mem_singleton_self _)⟩
      by_cases hsave : cmd = .save
      · subst hsave
        exact .inr (.inl ⟨rfl, executeSave_eq env s⟩)
      · exact .inr (.inr (dispatch_frame env _ s hop hp (not_exists.mp hexec) hsave))
    · intro hexec s₂ halike
      rw [execute_permitted env s hop hp, execute_permitted env s₂ hop hp]
      exact dispatch_alike env _ hop hexec halike
  · refine .inr ⟨?_, ascii "permission denied", ?_⟩
    · rintro ⟨state', hstate, hp'⟩
      cases hstate
      exact hp hp'
    · have hunion := mt (commandPermittedUnion_iff hop).mp hp
      simp [execute, hop, hunion]

/-- An empty node without failures, peers or procedures, and a token for the keys under
`ok:`. -/
def sampleEnv : ExecEnv where
  clock n := n.toUInt64
  fault _ := none
  frozen _ := none
  rabitqEncode _ _ _ := []
  attached := true
  clustered := false
  lookup _ := none
  report _ _ := []
  persistence := .none
  saveFault _ := none

def sampleNode : Node := ⟨ByteMap.empty, none, [], [], [], 0⟩

def sampleToken : TokenState := ⟨ascii "u", 0, 0, 0, [⟨.set, .prefixed, ascii "ok:"⟩]⟩

theorem execute_enforce_sample :
    operationForCommand (.set ⟨ascii "ok:1", ascii "v", false⟩) = some .set ∧
      ((∃ state, some sampleToken = some state ∧
        Permitted state .set (.set ⟨ascii "ok:1", ascii "v", false⟩) ∧
        Confined sampleEnv state .set sampleNode (.set ⟨ascii "ok:1", ascii "v", false⟩)
          (execute sampleEnv (.enforce (some sampleToken)) sampleNode
            (.set ⟨ascii "ok:1", ascii "v", false⟩))) ∨
      ((¬ ∃ state, some sampleToken = some state ∧
        Permitted state .set (.set ⟨ascii "ok:1", ascii "v", false⟩)) ∧
        ∃ msg, execute sampleEnv (.enforce (some sampleToken)) sampleNode
          (.set ⟨ascii "ok:1", ascii "v", false⟩) = (.ok (.err msg), sampleNode))) :=
  ⟨rfl, execute_enforce sampleEnv (some sampleToken) sampleNode _ .set rfl⟩

end Executor
end WormDB
