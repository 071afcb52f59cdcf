import WormDB.Replication

/-! # What a frame from another organisation can change

While trust is enforced, every entry that a frame changes is under a key that the
organisation of the peer may write, or derived from such a key; the one exception is the
witness record that `append_log_witness` creates.  This holds of every frame in every run,
whatever happens to the node between the frames (`receive_authorized`).

A delegated capability is looked up in a cached fold of the trust log.  `Moment` records
what a check saw: the store, the generation of the process's folds and the clock; a cached
fold is one taken at an earlier moment of the same generation. -/
namespace WormDB
open List ByteCodec NamespaceRegistry VectorOps TrustLog

namespace Replication
open TrustLog (Cache capWrite)

/-! ## Moments -/

/-- What a trust check finds when it reads the clock. -/
structure Moment where
  kv : Kv
  generation : Nat
  now : UInt64

section
variable (env : ReplEnv)

/-- The moments of the checks of one frame, which come before it touches the node. -/
def moments (s s' : Replica) : List Moment :=
  (List.range' s.checks (s'.checks - s.checks)).map
    (fun n => ⟨s.node.kv, s.generation, env.nowMs n⟩)

/-- The moments of all checks of a run. -/
def history (orgTrust : Option OrgTrust) (s : Replica) : List Event → List Moment
  | [] => []
  | event :: events =>
      moments env s (step env orgTrust s event) ++ history orgTrust (step env orgTrust s event) events

/-- At the moment `check` a capability of our trust log allows the organisation to write the
key.  It is active in a fold taken then or less than `ttlMs` before, under the same
generation, and has not expired since. -/
def Delegated (dynamic : DynamicTrust) (past : List Moment) (check : Moment) (org : OrgKey)
    (key : Bytes) : Prop :=
  ∃ fold ∈ past, fold.generation = check.generation ∧
    (fold = check ∨ check.now.toNat < fold.now.toNat + dynamic.ttlMs.toNat) ∧
    ∃ cap ∈ foldedCapabilities env dynamic fold.kv fold.now,
      cap.allows ⟨org, key, capWrite⟩ check.now = true

/-- The organisation may write the key, as far as the frame that takes `s` to `s'` could
find out. -/
def Authorized (trust : OrgTrust) (past : List Moment) (s s' : Replica) (org : OrgKey) (key : Bytes) :
    Prop :=
  trust.keyAuthorized org key = true ∨
    ∃ dynamic, trust.dynamic = some dynamic ∧ ∃ check ∈ moments env s s',
      Delegated env dynamic (past ++ moments env s s') check org key

/-- Why a frame changed the entry of a key. -/
inductive Cause (authorized : Bytes → Prop) (s s' : Node) (cmd : Command) : Bytes → Prop where
  | key {key : Bytes} : authorized key → Cause authorized s s' cmd key
  | companion {key : Bytes} : authorized key → Cause authorized s s' cmd (bqKey key)
  | config {key ns : Bytes} : authorized key → keyBelongsToNamespace key ns = true →
      Cause authorized s s' cmd (metaKey ns)
  | witness {args : List Bytes} {record : Witness.WitnessRecord} {cp : Checkpoint.CheckpointRecord}
      {k : Bytes} : cmd = .exec ⟨appendLogWitness, args⟩ →
      Witness.Created env.toWitnessEnv s s' record cp →
      k = record.key env.sha256 ∨ k = bqKey (record.key env.sha256) →
      Cause authorized s s' cmd k

/-- The cached fold is one of those taken. -/
def Genuine (trust : OrgTrust) (past : List Moment) (cache : Option Cache) : Prop :=
  ∀ dynamic c, trust.dynamic = some dynamic → cache = some c → ∃ fold ∈ past,
    fold.generation = c.generation ∧ fold.now = c.foldedAtMs ∧
    c.caps = foldedCapabilities env dynamic fold.kv fold.now

/-- Nothing but checks between two states. -/
structure Looked (s s' : Replica) : Prop where
  node : s'.node = s.node
  generation : s'.generation = s.generation
  checks : s.checks ≤ s'.checks

end

/-! ## Checks -/

section
variable {env : ReplEnv} {trust : OrgTrust} {past : List Moment} {s t t' : Replica} {org : OrgKey}
  {key : Bytes}

theorem Looked.refl (s : Replica) : Looked s s := ⟨rfl, rfl, le_refl _⟩

theorem Looked.trans (h : Looked s t) (h' : Looked t t') : Looked s t' :=
  ⟨h'.node.trans h.node, h'.generation.trans h.generation, le_trans h.checks h'.checks⟩

variable {m : Moment}

theorem mem_moments : m ∈ moments env s t ↔
    ∃ n, s.checks ≤ n ∧ n < t.checks ∧ m = ⟨s.node.kv, s.generation, env.nowMs n⟩ := by
  rw [moments, mem_map]
  constructor
  · rintro ⟨n, hn, rfl⟩
    obtain ⟨hle, hlt⟩ := mem_range'_1.mp hn
    exact ⟨n, hle, by omega, rfl⟩
  · rintro ⟨n, hle, hlt, rfl⟩
    exact ⟨n, mem_range'_1.mpr ⟨hle, by omega⟩, rfl⟩

theorem moments_mono (h : t.checks ≤ t'.checks) (hm : m ∈ moments env s t) :
    m ∈ moments env s t' := by
  obtain ⟨n, hle, hlt, rfl⟩ := mem_moments.mp hm
  exact mem_moments.mpr ⟨n, hle, lt_of_lt_of_le hlt h, rfl⟩

theorem past_mono (h : t.checks ≤ t'.checks) (hm : m ∈ past ++ moments env s t) :
    m ∈ past ++ moments env s t' :=
  (mem_append.mp hm).elim (fun h => mem_append_left _ h)
    (fun hmem => mem_append_right _ (moments_mono h hmem))

/-- More checks find no less. -/
theorem Authorized.mono (h : t.checks ≤ t'.checks) (hauth : Authorized env trust past s t org key) :
    Authorized env trust past s t' org key := by
  rcases hauth with hstatic | ⟨dynamic, hdynamic, check, hcheck, fold, hfold, hrest⟩
  · exact .inl hstatic
  · exact .inr ⟨dynamic, hdynamic, check, moments_mono h hcheck, fold, past_mono h hfold, hrest⟩

theorem Genuine.mono {more : List Moment} {cache : Option Cache} (h : Genuine env trust past cache)
    (hmore : ∀ m ∈ past, m ∈ more) : Genuine env trust more cache := by
  intro dynamic c hdynamic hcache
  obtain ⟨fold, hfold, hrest⟩ := h dynamic c hdynamic hcache
  exact ⟨fold, hmore fold hfold, hrest⟩

/-- A check keeps the cache genuine, and says yes only with a capability in it. -/
theorem authorized_spec {dynamic : DynamicTrust} (hdynamic : trust.dynamic = some dynamic)
    (hlooked : Looked s t) (hcache : Genuine env trust (past ++ moments env s t) t.cache) :
    Looked t (dynamic.authorized env t ⟨org, key, capWrite⟩).2 ∧
    Genuine env trust (past ++ moments env s (dynamic.authorized env t ⟨org, key, capWrite⟩).2)
      (dynamic.authorized env t ⟨org, key, capWrite⟩).2.cache ∧
    ((dynamic.authorized env t ⟨org, key, capWrite⟩).1 = true →
      Authorized env trust past s (dynamic.authorized env t ⟨org, key, capWrite⟩).2 org key) := by
  -- this check's moment is the last of the frame so far
  have hcheck : ∀ t', t'.checks = t.checks + 1 →
      (⟨s.node.kv, s.generation, env.nowMs t.checks⟩ : Moment) ∈ moments env s t' := by
    intro t' ht'
    exact mem_moments.mpr ⟨t.checks, hlooked.checks, by omega, rfl⟩
  have hmono : ∀ t', t'.checks = t.checks + 1 → ∀ m ∈ past ++ moments env s t,
      m ∈ past ++ moments env s t' := fun t' ht' m hm => past_mono (by omega) hm
  rw [DynamicTrust.authorized]
  split
  · exact ⟨⟨rfl, rfl, Nat.le_succ _⟩, hcache.mono (hmono _ rfl), nofun⟩
  rename_i cache hrefresh
  refine ⟨⟨rfl, rfl, Nat.le_succ _⟩, ?_⟩
  rw [DynamicTrust.refreshLocked] at hrefresh
  split at hrefresh
  · -- the cached fold is fresh
    rename_i hfresh
    rw [hrefresh, Option.any_some, Cache.fresh, decide_eq_true_eq] at hfresh
    rw [hrefresh] at hcache
    refine ⟨hcache.mono (hmono _ rfl), fun hany => .inr ⟨dynamic, hdynamic, _, hcheck _ rfl, ?_⟩⟩
    obtain ⟨fold, hfold, hgen, hnow, hcaps⟩ := hcache dynamic cache hdynamic rfl
    obtain ⟨cap, hcap, hallows⟩ := any_eq_true.mp hany
    refine ⟨fold, hmono _ rfl fold hfold, ?_, .inr ?_, cap, hcaps ▸ hcap, hallows⟩
    · rw [hgen, hfresh.1, hlooked.generation]
    · rw [hnow]
      exact hfresh.2
  split at hrefresh
  · cases hrefresh
  · cases hrefresh
    have hkv : t.node.kv = s.node.kv := by rw [hlooked.node]
    refine ⟨?_, fun hany => .inr ⟨dynamic, hdynamic, _, hcheck _ rfl, ?_⟩⟩
    · intro d c hd hc
      obtain rfl := Option.some.inj (hdynamic.symm.trans hd)
      cases hc
      refine ⟨_, mem_append_right _ (hcheck _ rfl), hlooked.generation.symm, rfl, ?_⟩
      rw [hkv]
    · obtain ⟨cap, hcap, hallows⟩ := any_eq_true.mp hany
      rw [hkv] at hcap
      exact ⟨_, mem_append_right _ (hcheck _ rfl), rfl, .inl rfl, cap, hcap, hallows⟩

end

/-- What the checks of a frame that began in `s` have done when they end with `result`, the
last of them from `t` on: `keys` may be written, if they say so. -/
structure Checked (env : ReplEnv) (trust : OrgTrust) (past : List Moment) (s t : Replica)
    (peerOrg : Option OrgKey) (keys : List Bytes) (result : Bool × Replica) : Prop where
  looked : Looked t result.2
  genuine : Genuine env trust (past ++ moments env s result.2) result.2.cache
  authorized : result.1 = true → trust.enforce = true → ∀ org, peerOrg = some org → ∀ key ∈ keys,
    Authorized env trust past s result.2 org key

section
variable {env : ReplEnv} {trust : OrgTrust} {past : List Moment} {s t : Replica}
  {peerOrg : Option OrgKey}

theorem replicationKeyAuthorized_checked (key : Bytes) (hlooked : Looked s t)
    (hcache : Genuine env trust (past ++ moments env s t) t.cache) :
    Checked env trust past s t peerOrg [key]
      (replicationKeyAuthorized env (some trust) peerOrg t key) := by
  rw [replicationKeyAuthorized.eq_def]
  dsimp only
  split
  · rename_i hopen
    refine ⟨Looked.refl t, hcache, fun _ henforce => ?_⟩
    rw [henforce] at hopen
    cases hopen
  split
  · exact ⟨Looked.refl t, hcache, nofun⟩
  rename_i org
  split
  · rename_i hstatic
    refine ⟨Looked.refl t, hcache, fun _ _ o horg k hk => .inl ?_⟩
    rw [mem_singleton.mp hk, ← Option.some.inj horg]
    exact hstatic
  split
  · exact ⟨Looked.refl t, hcache, nofun⟩
  · rename_i dynamic hdynamic
    obtain ⟨hlook, hgenuine, hauth⟩ := @authorized_spec env trust past s t org key dynamic hdynamic
      hlooked hcache
    refine ⟨hlook, hgenuine, fun hyes _ o horg k hk => ?_⟩
    rw [mem_singleton.mp hk, ← Option.some.inj horg]
    exact hauth hyes

/-- The loop stops at the first key that may not be written. -/
theorem bulkAuthorized_checked (items : List BulkItem) (hlooked : Looked s t)
    (hcache : Genuine env trust (past ++ moments env s t) t.cache) :
    Checked env trust past s t peerOrg (items.map BulkItem.key)
      (bulkAuthorized env (some trust) peerOrg t items) := by
  induction items generalizing t with
  | nil => exact ⟨Looked.refl t, hcache, nofun⟩
  | cons item items ih =>
    have hfirst := @replicationKeyAuthorized_checked env trust past s t peerOrg item.key hlooked hcache
    rw [bulkAuthorized]
    generalize replicationKeyAuthorized env (some trust) peerOrg t item.key = result at hfirst ⊢
    rcases result with ⟨_ | _, t₁⟩
    · exact ⟨hfirst.looked, hfirst.genuine, nofun⟩
    · have hrest := ih (hlooked.trans hfirst.looked) hfirst.genuine
      refine ⟨hfirst.looked.trans hrest.looked, hrest.genuine, fun hyes henforce org horg k hk => ?_⟩
      rcases mem_cons.mp hk with rfl | hk
      · exact (hfirst.authorized rfl henforce org horg item.key (mem_singleton_self _)).mono
          hrest.looked.checks
      · exact hrest.authorized hyes henforce org horg k hk

/-- A frame that is checked is applied as a whole, or not at all. -/
theorem whenAuthorized_spec {keys : List Bytes} {check : Bool × Replica}
    (h : Checked env trust past s s peerOrg keys check) (apply : Node → Node) :
    Genuine env trust (past ++ moments env s (whenAuthorized check apply))
        (whenAuthorized check apply).cache ∧
      ((whenAuthorized check apply).node = s.node ∨
        (whenAuthorized check apply).node = apply s.node ∧
        (trust.enforce = true → ∀ org, peerOrg = some org → ∀ key ∈ keys,
          Authorized env trust past s (whenAuthorized check apply) org key)) := by
  rcases check with ⟨_ | _, t⟩
  · exact ⟨h.genuine, .inl h.looked.node⟩
  · exact ⟨h.genuine, .inr ⟨congrArg apply h.looked.node, h.authorized rfl⟩⟩

/-! ## One frame -/

/-- The keys a frame is checked for. -/
def checkedKeys : Command → List Bytes
  | .set params => [params.key]
  | .delete key => [key]
  | .vinsert params => [params.key]
  | .vdelete params => [params.key]
  | .vbulkinsert params => params.items.map BulkItem.key
  | .vrabitqInstall params => [params.namespace]
  | _ => []

/-- What a frame does once its keys have been checked. -/
def applied (env : ReplEnv) (node : Node) : Command → Node
  | .set params => applySet env node params
  | .delete key => applyDelete env node key
  | .vinsert params => receiveVinsert env node params
  | .vdelete params => (applyVdelete env.toNodeEnv node params.key params.namespace false).2
  | .vbulkinsert params => receiveVbulkinsert env node params
  | .vrabitqInstall params => receiveVrabitqInstall node params
  | _ => node

/-- **What one frame can do**: run a procedure, do nothing, or be applied with every key
that it names authorized. -/
theorem receive_cases (past : List Moment) (peerOrg : Option OrgKey) (s : Replica) (cmd : Command)
    (hcache : Genuine env trust past s.cache) :
    Genuine env trust (past ++ moments env s (receive env (some trust) peerOrg s cmd).2)
        (receive env (some trust) peerOrg s cmd).2.cache ∧
      ((∃ params, cmd = .exec params ∧ (receive env (some trust) peerOrg s cmd).2.node =
          (receiveExec env (some trust) peerOrg s.node params).2) ∨
        (receive env (some trust) peerOrg s cmd).2.node = s.node ∨
        (receive env (some trust) peerOrg s cmd).2.node = applied env s.node cmd ∧
        (trust.enforce = true → ∀ org, peerOrg = some org → ∀ key ∈ checkedKeys cmd,
          Authorized env trust past s (receive env (some trust) peerOrg s cmd).2 org key)) := by
  have hstart : Genuine env trust (past ++ moments env s s) s.cache :=
    hcache.mono (fun m hm => mem_append_left _ hm)
  have hone : ∀ (key : Bytes) (apply : Node → Node), _ := fun key apply =>
    whenAuthorized_spec (@replicationKeyAuthorized_checked env trust past s s peerOrg key
      (Looked.refl s) hstart) apply
  cases cmd with
  | set params | vinsert params | vdelete params => exact (hone params.key _).imp_right .inr
  | delete key => exact (hone key _).imp_right .inr
  | vbulkinsert params =>
    exact (whenAuthorized_spec (bulkAuthorized_checked params.items (Looked.refl s) hstart) _).imp_right
      .inr
  | vrabitqInstall params => exact (hone params.namespace _).imp_right .inr
  | exec params => exact ⟨hstart, .inl ⟨params, rfl, rfl⟩⟩
  | _ => exact ⟨hstart, .inr (.inl rfl)⟩

/-- What may change when these keys may be written. -/
def writable (authorized : Bytes → Prop) : Footprint where
  keys k := ∃ key, authorized key ∧
    (k = key ∨ k = bqKey key ∨ ∃ ns, keyBelongsToNamespace key ns = true ∧ k = metaKey ns)
  vectors _ := True
  params _ := True
  events _ := True
  frames _ := True

theorem publishNote_frame {fp : Footprint} (hevents : ∀ e, fp.events e) (node : Node)
    (message : Option Bytes) : NodeFrame fp node (publishNote node message) := by
  cases message with
  | none => exact NodeFrame.refl node
  | some message => exact NodeFrame.publish node (hevents _)

theorem applied_frame {authorized : Bytes → Prop} (env : ReplEnv) (node : Node) (cmd : Command)
    (h : ∀ key ∈ checkedKeys cmd, authorized key) :
    NodeFrame (writable authorized) node (applied env node cmd) := by
  have hself : ∀ key, authorized key → (writable authorized).keys key :=
    fun key hkey => ⟨key, hkey, .inl rfl⟩
  have hbq : ∀ key, authorized key → (writable authorized).keys (bqKey key) :=
    fun key hkey => ⟨key, hkey, .inr (.inl rfl)⟩
  have hmeta : ∀ key ns, authorized key → keyBelongsToNamespace key ns = true →
      (writable authorized).keys (metaKey ns) :=
    fun key ns hkey hns => ⟨key, hkey, .inr (.inr ⟨ns, hns, rfl⟩)⟩
  cases cmd with
  | set params =>
    have hkey := h params.key (mem_singleton_self _)
    exact (NodeFrame.setWithTimestamp env.toNodeEnv node _ _ _ (hself _ hkey) trivial
      (hbq _ hkey)).trans (publishNote_frame (fun _ => trivial) _ _)
  | delete key =>
    have hkey := h key (mem_singleton_self _)
    exact (NodeFrame.delete env.toNodeEnv node (hself _ hkey) trivial (hbq _ hkey)).trans
      (publishNote_frame (fun _ => trivial) _ _)
  | vinsert params =>
    have hkey := h params.key (mem_singleton_self _)
    rw [applied, receiveVinsert]
    split
    · exact NodeFrame.refl node
    · exact NodeFrame.applyVinsert env.toNodeEnv node (hself _ hkey) trivial (hbq _ hkey)
        (hmeta _ _ hkey) trivial (nofun)
  | vdelete params =>
    have hkey := h params.key (mem_singleton_self _)
    exact NodeFrame.applyVdelete env.toNodeEnv node (hself _ hkey) trivial (hbq _ hkey) trivial
      (nofun)
  | vbulkinsert params =>
    have hkeys : ∀ item ∈ params.items, authorized item.key :=
      fun item hitem => h item.key (mem_map_of_mem hitem)
    rw [applied, receiveVbulkinsert]
    split
    · exact NodeFrame.refl node
    · refine NodeFrame.applyVbulkinsert env.toNodeEnv node (fun item hitem => ?_)
        (fun item hitem => hmeta _ _ (hkeys item hitem)) (nofun)
      exact ⟨hself _ (hkeys item hitem), hbq _ (hkeys item hitem), trivial, trivial⟩
  | vrabitqInstall params => exact NodeFrame.applyVrabitqInstall node _ trivial
  | _ => exact NodeFrame.refl node

theorem executeExec_node (env : ReplEnv) (node : Node) (params : ExecParams)
    {procedure : Auth.AuthContext → List Bytes → Node → Except Bytes Response × Node}
    (h : lookup env params.procedure = some procedure) :
    (Executor.execute (execEnv env) .trusted node (.exec params)).2 =
      (procedure .trusted params.args node).2 := by
  rw [Executor.execute, Executor.dispatch, Executor.executeExec]
  dsimp only [execEnv]
  rw [h]
  dsimp only
  generalize procedure .trusted params.args node = result
  rcases result with ⟨_ | _, node'⟩ <;> rfl

/-- A procedure that a peer runs leaves the store, or is the one that witnesses. -/
theorem execute_cases (env : ReplEnv) (node : Node) (params : ExecParams)
    (hallowed : isAllowedReplicationProcedure params.procedure = true) :
    (Executor.execute (execEnv env) .trusted node (.exec params)).2.kv = node.kv ∨
      params.procedure = appendLogWitness ∧ ∃ record cp, Witness.Created env.toWitnessEnv node
        (Executor.execute (execEnv env) .trusted node (.exec params)).2 record cp := by
  by_cases hwitness : params.procedure = appendLogWitness
  · rw [executeExec_node env node params (by rw [lookup, if_pos hwitness])]
    exact (Witness.witnessExecute_cases env.toWitnessEnv node params.args).imp_right
      (fun h => ⟨hwitness, h⟩)
  by_cases hroot : params.procedure = ascii "proof_prefix_root"
  · rw [executeExec_node env node params (by rw [lookup, if_neg hwitness, if_pos hroot])]
    exact .inl rfl
  by_cases hsearch : params.procedure = ascii "vsearch_local_raw"
  · rw [executeExec_node env node params
      (by rw [lookup, if_neg hwitness, if_neg hroot, if_pos hsearch])]
    exact .inl rfl
  · simp [isAllowedReplicationProcedure, hwitness, hroot, hsearch] at hallowed

theorem receiveExec_cases (env : ReplEnv) (orgTrust : Option OrgTrust) (peerOrg : Option OrgKey)
    (node : Node) (params : ExecParams) :
    (receiveExec env orgTrust peerOrg node params).2.kv = node.kv ∨
      params.procedure = appendLogWitness ∧ ∃ record cp, Witness.Created env.toWitnessEnv node
        (receiveExec env orgTrust peerOrg node params).2 record cp := by
  rw [receiveExec]
  dsimp only
  split
  · exact .inl rfl
  rename_i hallowed
  split
  · exact .inl rfl
  have hcases := execute_cases env node params (by simpa using hallowed)
  generalize Executor.execute (execEnv env) .trusted node (.exec params) = result at hcases ⊢
  rcases result with ⟨_ | _, node'⟩
  · exact hcases
  · exact hcases

end

/-! ## Runs -/

section
variable {env : ReplEnv} {trust : OrgTrust}

theorem genuine_step (past : List Moment) (s : Replica) (event : Event)
    (h : Genuine env trust past s.cache) :
    Genuine env trust (past ++ moments env s (step env (some trust) s event))
      (step env (some trust) s event).cache := by
  cases event with
  | frame peerOrg cmd => exact (receive_cases past peerOrg s cmd h).1
  | elsewhere node revocations => exact h.mono (fun m hm => mem_append_left _ hm)

/-- The cache of every state of a run is a fold that the run took. -/
theorem genuine_run (past : List Moment) (s : Replica) (events : List Event)
    (h : Genuine env trust past s.cache) :
    Genuine env trust (past ++ history env (some trust) s events) (run env (some trust) s events).cache := by
  induction events generalizing past s with
  | nil => exact h.mono (fun m hm => mem_append_left _ hm)
  | cons event events ih =>
    have hrest := ih (past ++ moments env s (step env (some trust) s event)) _
      (genuine_step past s event h)
    rw [append_assoc] at hrest
    exact hrest

end

/-- **Only what the organisation may write changes.**  In every run of a node that enforces
trust, a frame from a peer of `org` changes an entry only under a key that `org` may write,
under a key derived from one, or to create a witness record; and a bulk frame is applied
only if `org` may write all its keys. -/
theorem receive_authorized (env : ReplEnv) (trust : OrgTrust) (s₀ : Replica) (events : List Event)
    (org : OrgKey) (cmd : Command) (s s' : Replica) (hs : s = run env (some trust) s₀ events)
    (hs' : s' = (receive env (some trust) (some org) s cmd).2) (henforce : trust.enforce = true)
    (hinit : s₀.cache = none) :
    (∀ k, s'.node.kv.get k ≠ s.node.kv.get k →
      Cause env (Authorized env trust (history env (some trust) s₀ events) s s' org)
        s.node s'.node cmd k) ∧
    (∀ params, cmd = .vbulkinsert params → s'.node ≠ s.node → ∀ item ∈ params.items,
      Authorized env trust (history env (some trust) s₀ events) s s' org item.key) := by
  have hgenuine : Genuine env trust (history env (some trust) s₀ events) s.cache := by
    have hrun := @genuine_run env trust [] s₀ events
      (fun _ _ _ hcache => absurd (hcache.symm.trans hinit) (by simp))
    rw [nil_append, ← hs] at hrun
    exact hrun
  obtain ⟨-, hcases⟩ := receive_cases (history env (some trust) s₀ events) (some org) s cmd hgenuine
  rw [← hs'] at hcases
  rcases hcases with ⟨params, rfl, hnode⟩ | hnode | ⟨hnode, hauth⟩
  · refine ⟨fun k hk => ?_, nofun⟩
    rcases receiveExec_cases env (some trust) (some org) s.node params with
      hkv | ⟨hname, record, cp, hcreated⟩
    · rw [hnode, hkv] at hk
      exact absurd rfl hk
    · rw [← hnode] at hcreated
      refine Cause.witness (by rw [← hname]) hcreated ?_
      by_contra hother
      exact hk (hcreated.others k (fun h => hother (.inl h)) (fun h => hother (.inr h)))
  · rw [hnode]
    exact ⟨fun k hk => absurd rfl hk, fun _ _ h => absurd rfl h⟩
  · have hkeys := hauth henforce org rfl
    refine ⟨fun k hk => ?_, ?_⟩
    · have hframe := applied_frame env s.node cmd hkeys
      rw [← hnode] at hframe
      by_contra hcause
      refine hk (hframe.kv k ?_)
      rintro ⟨key, hkey, rfl | rfl | ⟨ns, hns, rfl⟩⟩
      · exact hcause (Cause.key hkey)
      · exact hcause (Cause.companion hkey)
      · exact hcause (Cause.config hkey hns)
    · rintro params rfl - item hitem
      exact hkeys item.key (mem_map_of_mem hitem)

/-! ## A delegate that witnesses, and one whose grant is gone -/

open Mmr (sha256Digest)
open TrustLog (sampleOrg sampleDelegate sampleGrant sampleRevoke sampleParse trustLogId)

/-- By a grant of the configuration, or by a capability of the trust log in the store as it
is. -/
def AuthorizedNow (env : ReplEnv) (trust : OrgTrust) (s : Replica) (now : UInt64) (org : OrgKey)
    (key : Bytes) : Prop :=
  trust.keyAuthorized org key = true ∨ ∃ dynamic, trust.dynamic = some dynamic ∧
    ∃ cap ∈ foldedCapabilities env dynamic s.node.kv now,
      cap.allows ⟨org, key, capWrite⟩ now = true

def sampleRoot : Hash where
  bytes := [150, 73, 38, 73, 108, 27, 62, 7, 65, 179, 221, 107, 235, 167, 54, 228, 218, 66, 134, 135,
    227, 138, 6, 133, 120, 36, 27, 193, 47, 152, 0, 35]
  size_eq := rfl

/-- A signed checkpoint of the first event of the log `"t"`. -/
def sampleCheckpoint : Checkpoint.CheckpointRecord :=
  ⟨1, ascii "t", 1, 1, .mmrSha256V1, sampleRoot, none, Bundle.samplePublicKey, .ed25519,
    ⟨[185, 138, 133, 228, 70, 3, 138, 122, 215, 167, 160, 2, 130, 24, 146, 255, 61, 63, 235, 172, 41,
      69, 134, 104, 88, 82, 133, 175, 216, 204, 24, 244, 145, 150, 13, 22, 0, 214, 41, 20, 176, 134,
      29, 21, 55, 95, 196, 72, 235, 224, 162, 92, 114, 214, 148, 212, 97, 29, 253, 134, 48, 172, 24,
      15], rfl⟩, 10, 11, []⟩

/-- The hash of its canonical bytes. -/
def sampleCheckpointHash : Hash where
  bytes := [208, 44, 17, 211, 243, 231, 164, 37, 171, 138, 172, 146, 251, 3, 208, 153, 10, 187, 72,
    134, 189, 5, 30, 105, 72, 154, 99, 128, 153, 208, 110, 124]
  size_eq := rfl

def sampleWitness : Witness.WitnessRecord :=
  { Witness.WitnessRecord.fromCheckpoint sampleCheckpoint sampleCheckpointHash
      Bundle.samplePublicKey 30 [] with
    signature := ⟨[182, 121, 251, 195, 64, 35, 159, 70, 250, 211, 100, 208, 161, 53, 24, 181, 97, 196,
      8, 97, 9, 197, 166, 48, 252, 152, 208, 27, 123, 198, 76, 174, 228, 88, 226, 54, 25, 116, 17, 143,
      215, 99, 208, 26, 242, 128, 22, 140, 112, 249, 91, 222, 157, 98, 77, 81, 141, 156, 47, 145, 170,
      66, 98, 0], rfl⟩ }

/-- Ed25519 on what the sample key has signed: a checkpoint, a witness record, a grant and
its revocation. -/
def sampleScheme : Ed25519 where
  verify := fun publicKey message signature =>
    sampleVerify.verify publicKey message signature ||
      decide (publicKey = Bundle.samplePublicKey ∧
        (message = sampleCheckpoint.signingPayload ∧ signature = sampleCheckpoint.signature ∨
          message = sampleWitness.signingPayload ∧ signature = sampleWitness.signature))
  sign := fun _ _ => none

def sampleEnv : ReplEnv where
  clock _ := 50
  fault _ := none
  frozen _ := none
  rabitqEncode _ _ _ := []
  attached := false
  clustered := false
  sha256 := sha256Digest
  ed25519 := sampleScheme
  identityPublicKey := sampleOrg
  signWithIdentity _ := none
  readFault _ _ := none
  lookup _ := none
  report _ _ := []
  persistence := .none
  saveFault _ := none
  parse := sampleParse
  nowMs n := 1000 * (n.toUInt64 + 1)
  foldFault _ := false
  noteUpdated _ _ := none
  proofPrefixRoot _ _ := .ok .ok
  vsearchLocalRaw _ _ := .ok .ok

/-- The delegate may write under `"mem:beta:"`, and what our trust log says. -/
def sampleTrust : OrgTrust where
  enforce := true
  grants := [⟨sampleDelegate, [ascii "mem:beta:"]⟩]
  dynamic := some ⟨sampleOrg, 5000⟩

def nodeOf (kv : Kv) : Node := ⟨kv, none, [], [], [], 0⟩

/-- A node that holds a checkpoint and no trust log. -/
def checkpointReplica : Replica :=
  ⟨nodeOf (PrefixMap.ByteMap.empty.insert (Witness.checkpointKey sha256Digest (ascii "t")
    sampleCheckpointHash) ⟨sampleCheckpoint.canonicalBytes, 11, true⟩), none, 0, 0⟩

def witnessFrame : Command :=
  .exec ⟨appendLogWitness, [ascii "t", AppendLog.hashToHex sampleCheckpointHash, orgHex,
    ascii "sig=" ++ bytesToHex sampleWitness.signature.bytes, ascii "observed_at_ms=30"]⟩

/-- The store with the grant alone. -/
def grantedStore : Kv :=
  AppendLog.storeOf sha256Digest trustLogId [⟨grantText, [], 100⟩] (by decide)

def grantedReplica : Replica := ⟨nodeOf grantedStore, none, 0, 0⟩

/-- A check finds the grant; then the revocation arrives, from elsewhere. -/
def revokedElsewhere : List Event :=
  [.frame (some sampleDelegate) (.delete (ascii "mem:acme:x")), .elsewhere (nodeOf revokedStore) 0]

def staleFrame : Command := .set ⟨ascii "mem:acme:a", ascii "v", false⟩

/-- The witness record is created; the grant is read and folded; the revocation takes it
away. -/
theorem sample_evaluations :
    (((receive sampleEnv (some sampleTrust) (some sampleDelegate) checkpointReplica
      witnessFrame).2.node.kv.get (sampleWitness.key sha256Digest)).isSome = true ∧
    checkpointReplica.node.kv.get (sampleWitness.key sha256Digest) = none ∧
    sampleTrust.keyAuthorized sampleDelegate (sampleWitness.key sha256Digest) = false ∧
    (foldState sampleScheme sampleOrg (loadTrustEvents sha256Digest sampleParse
      checkpointReplica.node.kv trustLogId).events).active = []) ∧
    (AppendLog.views sha256Digest trustLogId [⟨grantText, [], 100⟩]).filterMap
      (trustEvent sampleParse) = [sampleGrant] ∧
    (foldTrust sampleScheme sampleOrg [sampleGrant] 1000).capabilities =
      [sampleGrant.capability] ∧
    (foldState sampleScheme sampleOrg [sampleGrant, sampleRevoke]).active = [] ∧
    revokedStore.get (ascii "mem:acme:a") = none := by
  simp only [sampleEnv, checkpointReplica, revokedStore, Mmr.sha256Digest_eq_eval]
  decide +kernel

theorem grantedStore_events :
    (loadTrustEvents sha256Digest sampleParse grantedStore trustLogId).events =
      [sampleGrant] := by
  have hchain := (@AppendLog.storeOf_holds sha256Digest trustLogId
    [⟨grantText, [], 100⟩] (by decide) (sample_fits grantText_fits)).chain
  exact (loadTrustEvents_chain hchain).trans sample_evaluations.2.1

/-- What is folded is the log under the name of our organisation. -/
theorem foldedCapabilities_sample (kv : Kv) (now : UInt64) :
    foldedCapabilities sampleEnv ⟨sampleOrg, 5000⟩ kv now = (foldTrust sampleScheme sampleOrg
      (loadTrustEvents sha256Digest sampleParse kv trustLogId).events now).capabilities := by
  have hlog : logIdForOrg sampleOrg = trustLogId := by decide
  rw [foldedCapabilities, hlog]
  rfl

theorem not_authorizedNow {s : Replica} {org : OrgKey} {key : Bytes}
    (hstatic : sampleTrust.keyAuthorized org key = false)
    (hactive : (foldState sampleScheme sampleOrg (loadTrustEvents sha256Digest
      sampleParse s.node.kv trustLogId).events).active = []) (now : UInt64) :
    ¬ AuthorizedNow sampleEnv sampleTrust s now org key := by
  rintro (hyes | ⟨dynamic, hdynamic, cap, hcap, -⟩)
  · rw [hstatic] at hyes
    cases hyes
  · cases hdynamic
    rw [foldedCapabilities_sample, foldTrust, hactive] at hcap
    cases hcap

/-- What a deletion did to the node is gone once the node is replaced. -/
theorem run_delete_elsewhere (env : ReplEnv) (orgTrust : Option OrgTrust) (peerOrg : Option OrgKey)
    (s : Replica) (key : Bytes) (node : Node) :
    run env orgTrust s [.frame peerOrg (.delete key), .elsewhere node 0] =
      { (replicationKeyAuthorized env orgTrust peerOrg s key).2 with node := node } := by
  rw [run, foldl_cons, foldl_cons, foldl_nil, step, step, receive.eq_def]
  dsimp only
  generalize replicationKeyAuthorized env orgTrust peerOrg s key = check
  rcases check with ⟨_ | _, t⟩ <;> rfl

theorem run_revokedElsewhere : run sampleEnv (some sampleTrust) grantedReplica revokedElsewhere =
    ⟨nodeOf revokedStore,
      some ⟨foldedCapabilities sampleEnv ⟨sampleOrg, 5000⟩ grantedStore 1000, 1000, 0⟩, 0, 1⟩ := by
  have hcheck : (replicationKeyAuthorized sampleEnv (some sampleTrust) (some sampleDelegate)
      grantedReplica (ascii "mem:acme:x")).2 = ⟨nodeOf grantedStore,
        some ⟨foldedCapabilities sampleEnv ⟨sampleOrg, 5000⟩ grantedStore 1000, 1000, 0⟩, 0, 1⟩ := by
    rw [replicationKeyAuthorized.eq_def]
    rfl
  rw [revokedElsewhere, run_delete_elsewhere, hcheck]

theorem revokedStore_absent : revokedStore.get (ascii "mem:acme:a") = none :=
  sample_evaluations.2.2.2.2

/-- The cached fold still has the grant when the frame arrives. -/
theorem staleFrame_applied :
    (receive sampleEnv (some sampleTrust) (some sampleDelegate)
      (run sampleEnv (some sampleTrust) grantedReplica revokedElsewhere) staleFrame).2.node.kv.get
        (ascii "mem:acme:a") = some ⟨ascii "v", 50, false⟩ := by
  have hcaps : foldedCapabilities sampleEnv ⟨sampleOrg, 5000⟩ grantedStore 1000 =
      [sampleGrant.capability] := by
    rw [foldedCapabilities_sample, grantedStore_events]
    exact sample_evaluations.2.2.1
  have hrun := run_revokedElsewhere
  rw [hcaps] at hrun
  rw [hrun]
  have hcheck : replicationKeyAuthorized sampleEnv (some sampleTrust) (some sampleDelegate)
      ⟨nodeOf revokedStore, some ⟨[sampleGrant.capability], 1000, 0⟩, 0, 1⟩
      (ascii "mem:acme:a") = (true, ⟨nodeOf revokedStore,
        some ⟨[sampleGrant.capability], 1000, 0⟩, 0, 2⟩) := by
    rw [replicationKeyAuthorized.eq_def]
    rfl
  rw [receive.eq_def]
  dsimp only [staleFrame]
  rw [hcheck, whenAuthorized]
  have hset : (nodeOf revokedStore).set sampleEnv.toNodeEnv (ascii "mem:acme:a") (ascii "v")
      false = (.ok (), { nodeOf revokedStore with
        kv := revokedStore.insert (ascii "mem:acme:a") ⟨ascii "v", 50, false⟩,
        accesses := 1 }) := by
    have hfree : ¬ (((nodeOf revokedStore).kv.get (ascii "mem:acme:a")).or
        (sampleEnv.frozen (ascii "mem:acme:a"))).any Content.isWorm = true := by
      rw [show (nodeOf revokedStore).kv.get (ascii "mem:acme:a") = none from
        revokedStore_absent]
      exact Bool.false_ne_true
    have hfault : sampleEnv.fault (nodeOf revokedStore).accesses = none := rfl
    rw [Node.set, Node.setWithTimestamp, Node.setWithTimestampNoVectorSync, hfault]
    dsimp only
    rw [if_neg hfree]
    rfl
  dsimp only [applySet]
  rw [hset]
  exact PrefixMap.ByteMap.get_insert_self _ _ _

theorem staleFrame_changes :
    (receive sampleEnv (some sampleTrust) (some sampleDelegate)
      (run sampleEnv (some sampleTrust) grantedReplica revokedElsewhere) staleFrame).2.node.kv.get
        (ascii "mem:acme:a") ≠
      (run sampleEnv (some sampleTrust) grantedReplica revokedElsewhere).node.kv.get
        (ascii "mem:acme:a") := by
  rw [staleFrame_applied, run_revokedElsewhere]
  exact fun heq => nomatch heq.trans revokedStore_absent

/-- **A key that the organisation may not write.**  A peer that has shown its organisation
creates a witness record under a key that nothing grants it, and writes with a capability
whose revocation the node already holds. -/
theorem receive_unauthorized :
    ((receive sampleEnv (some sampleTrust) (some sampleDelegate) checkpointReplica
        witnessFrame).2.node.kv.get (sampleWitness.key sha256Digest) ≠
      checkpointReplica.node.kv.get (sampleWitness.key sha256Digest) ∧
    (∀ now, ¬ AuthorizedNow sampleEnv sampleTrust checkpointReplica now sampleDelegate
      (sampleWitness.key sha256Digest)) ∧
    (∀ key, sampleWitness.key sha256Digest ≠ bqKey key) ∧
    ∀ ns, sampleWitness.key sha256Digest ≠ metaKey ns) ∧
    ((receive sampleEnv (some sampleTrust) (some sampleDelegate)
        (run sampleEnv (some sampleTrust) grantedReplica revokedElsewhere) staleFrame).2.node.kv.get
          (ascii "mem:acme:a") ≠
      (run sampleEnv (some sampleTrust) grantedReplica revokedElsewhere).node.kv.get
        (ascii "mem:acme:a") ∧
    ∀ now, ¬ AuthorizedNow sampleEnv sampleTrust
      (run sampleEnv (some sampleTrust) grantedReplica revokedElsewhere) now sampleDelegate
        (ascii "mem:acme:a")) := by
  have hfirst : (sampleWitness.key sha256Digest).head? = some 112 := rfl
  obtain ⟨⟨hcreated, habsent, hstatic, hinactive⟩, -, -, hrevoked, -⟩ := sample_evaluations
  refine ⟨⟨?_, not_authorizedNow hstatic hinactive, ?_, ?_⟩, ?_, ?_⟩
  · rw [habsent]
    exact Option.isSome_iff_ne_none.mp hcreated
  · rintro key heq
    rw [heq, show (bqKey key).head? = some 98 from rfl] at hfirst
    exact absurd hfirst (by decide)
  · rintro ns heq
    rw [heq, show (metaKey ns).head? = some 95 from rfl] at hfirst
    exact absurd hfirst (by decide)
  · exact staleFrame_changes
  · refine not_authorizedNow (by decide) ?_
    rw [run_revokedElsewhere]
    dsimp only [nodeOf]
    rw [revokedStore_events]
    exact hrevoked

/-- The node as it finds the frame, and as it leaves it. -/
def staleReplica : Replica := run sampleEnv (some sampleTrust) grantedReplica revokedElsewhere

def staleResult : Replica :=
  (receive sampleEnv (some sampleTrust) (some sampleDelegate) staleReplica staleFrame).2

/-- The write has its cause: the grant of an earlier state, in the cache of the check. -/
theorem receive_authorized_stale :
    staleResult.node.kv.get (ascii "mem:acme:a") ≠ staleReplica.node.kv.get (ascii "mem:acme:a") ∧
      Cause sampleEnv (Authorized sampleEnv sampleTrust
        (history sampleEnv (some sampleTrust) grantedReplica revokedElsewhere) staleReplica staleResult
        sampleDelegate) staleReplica.node staleResult.node staleFrame (ascii "mem:acme:a") := by
  unfold staleResult staleReplica
  exact ⟨staleFrame_changes, (receive_authorized sampleEnv sampleTrust grantedReplica
    revokedElsewhere sampleDelegate staleFrame _ _ rfl rfl rfl rfl).1 _ staleFrame_changes⟩

end Replication
end WormDB
