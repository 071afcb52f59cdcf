import WormDB.VectorRuns

/-! # Indexing in the background

A namespace in asynchronous mode puts its inserts into a queue.  A worker swaps the whole
queue out, and later brings what it took into the index, under the index's lock.  Deletes
go to the store and to the index at once and leave the queue as it is.

A call is not one step.  It holds a lock for one access to the store, to the index or to its
queue, and between two of them other calls and the worker go on (`next`).  A call that nobody
interrupts does what `applyVinsert`, `applyVdelete` or `delete` does (`vinsert_alone`,
`vdelete_alone`, `del_alone`).

When nothing waits, the index has a key that no call is just bringing from the store to the index
or out of both, exactly if the store has it.  That holds in every run in which no key is
deleted while an insert of it waits or is under way, none is written while a delete of it is, all
vectors that wait are of one length, and the inserts carry the metric of the namespace
(`converges`).  A key that is deleted while its insert waits comes back (`deleted_comes_back`). -/
namespace WormDB
open List ByteCodec PrefixMap NamespaceRegistry VectorOps VectorAgreement

/-- One job of the worker.  What cannot be inserted is only logged. -/
def NamespaceIndex.drainItem (idx : NamespaceIndex) (item : PendingInsert) : NamespaceIndex :=
  match bytesToF32 item.vector with
  | none => idx
  | some vector => idx.tryInsertLocked item.key vector item.timestamp

namespace AsyncIndexing

def queueOf (s : Node) (ns : Bytes) : List PendingInsert :=
  ((indexOf s ns).map NamespaceIndex.pending).getD []

def modifyIndex (s : Node) (ns : Bytes) (f : NamespaceIndex → NamespaceIndex) : Node :=
  { s with registry := s.registry.map (fun reg : NamespaceRegistry => reg.modify ns f) }

/-! ## Calls -/

/-- A call on the namespace. -/
inductive Call where
  | vinsert (args : VinsertArgs)
  | vdelete (key : Bytes) (replicate : Bool)
  | del (key : Bytes)
  deriving DecidableEq

/-- What a call does next.  A delete is part of a VDELETE or a plain DEL (`vdelete` is `none`). -/
inductive Phase where
  | idle
  | storing (args : VinsertArgs) (vector : F32Slice)
  | configuring (args : VinsertArgs) (vector : F32Slice)
  | recording (args : VinsertArgs) (vector : F32Slice)
  | quantising (args : VinsertArgs) (vector : F32Slice)
  | indexing (args : VinsertArgs) (vector : F32Slice)
  | removing (key : Bytes) (vdelete : Option Bool)
  | syncing (key : Bytes) (vdelete : Option Bool)
  | sweeping (key : Bytes) (vdelete : Option Bool)
  | dropping (key : Bytes) (replicate : Bool)
  | tombstoning (key : Bytes) (replicate : Bool)
  | announcing (channel key : Bytes) (replicate : Bool) (frame : Command)

section
variable (env : NodeEnv) (ns : Bytes)

/-- The checks of a call, with the dimension as it is then. -/
def Call.first (s : Node) : Call → Phase
  | .vinsert args =>
      match bytesToF32 args.vector with
      | none => .idle
      | some vector =>
          if !keyBelongsToNamespace args.key ns then .idle
          else if ((indexOf s ns).bind NamespaceIndex.expectedDim).any (fun d => vector.len ≠ d) then
            .idle
          else .storing args vector
  | .vdelete key replicate =>
      if !keyBelongsToNamespace key ns then .idle else .removing key (some replicate)
  | .del key => .removing key none

/-- Where a call goes on when `delete` has returned. -/
def afterDelete (key : Bytes) : Option Bool → Phase
  | none => .idle
  | some replicate => .dropping key replicate

/-- The next access of a call. -/
def next (s : Node) : Phase → Node × Phase
  | .idle => (s, .idle)
  | .storing args vector =>
      match s.setWithTimestampNoVectorSync env args.key args.vector args.worm args.timestamp with
      | (.error _, s) => (s, .idle)
      | (.ok _, s) => (s, .configuring args vector)
  | .configuring args vector =>
      if (s.getValueDupe env (metaKey ns)).isSome then (s, .quantising args vector)
      else (s, .recording args vector)
  | .recording args vector =>
      ((s.setWithTimestampNoVectorSync env (metaKey ns)
        (namespaceConfig args.metric args.timestamp) false args.timestamp).2, .quantising args vector)
  | .quantising args vector =>
      ((s.setWithTimestampNoVectorSync env (bqKey args.key)
        (encodeBqOwned env vector (indexOf s ns)) args.worm args.timestamp).2, .indexing args vector)
  | .indexing args vector =>
      (updateRegistry s ns args.metric (fun idx => updateIndex idx args.isAsync
        (fun idx => idx.enqueueAsync args.key args.vector args.timestamp)
        (fun idx => idx.tryInsertLocked args.key vector args.timestamp)),
        .announcing (ns ++ insertedSuffix) args.key args.replicate (.vinsert ⟨args.key, args.vector,
          args.worm, ns, args.metric.name, args.timestamp, args.isAsync⟩))
  | .removing key vdelete =>
      match s.remove env key with
      | (.error _, s) => (s, .idle)
      | (.ok false, s) => (s, afterDelete key vdelete)
      | (.ok true, s) => (s, .syncing key vdelete)
  | .syncing key vdelete =>
      match s.registry with
      | none => (s, afterDelete key vdelete)
      | some reg =>
          if env.attached then
            ({ s with registry := some (reg.syncRawDelete key).2 },
              if (reg.syncRawDelete key).1 then .sweeping key vdelete else afterDelete key vdelete)
          else (s, afterDelete key vdelete)
  | .sweeping key vdelete => ((s.remove env (bqKey key)).2, afterDelete key vdelete)
  | .dropping key replicate =>
      match s.delete env (bqKey key) with
      | (.error .wormViolation, s) => (s, .idle)
      | (_, s) => (s, .tombstoning key replicate)
  | .tombstoning key replicate =>
      (modifyIndex s ns (fun idx => (idx.markTombstoneLocked key).2),
        .announcing (ns ++ deletedSuffix) key replicate (.vdelete ⟨key, ns⟩))
  | .announcing channel key replicate frame =>
      ((s.publish channel key).replicate env replicate frame, .idle)

/-- A node, what the worker of the namespace has taken and not inserted yet, and the calls. -/
structure State where
  node : Node
  scratch : List PendingInsert
  calls : Nat → Phase

/-- A call begins or goes on, or one of the two halves of the worker's turn. -/
inductive Act where
  | start (id : Nat) (call : Call)
  | next (id : Nat)
  | swap
  | drain

def step (s : State) : Act → State
  | .start id call =>
      match s.calls id with
      | .idle => { s with calls := Function.update s.calls id (call.first ns s.node) }
      | _ => s
  | .next id =>
      let result := next env ns s.node (s.calls id)
      { s with node := result.1, calls := Function.update s.calls id result.2 }
  | .swap =>
      -- the worker is back at the head of its loop
      if s.scratch = [] then
        { s with node := modifyIndex s.node ns (fun idx => { idx with pending := s.scratch })
                 scratch := queueOf s.node ns }
      else s
  | .drain =>
      { s with node := modifyIndex s.node ns (fun idx => s.scratch.foldl NamespaceIndex.drainItem idx)
               scratch := [] }

def run (s : State) (acts : List Act) : State := acts.foldl (step env ns) s

end

/-! ### A call alone -/

section
variable (env : NodeEnv) (ns : Bytes) (s : Node)

/-- The accesses of a call that nobody interrupts. -/
def alone : Nat → Node × Phase → Node
  | 0, result => result.1
  | n + 1, result => alone n (next env ns result.1 result.2)

theorem alone_idle (n : Nat) : alone env ns n (s, .idle) = s := by
  induction n with
  | zero => rfl
  | succ n ih => exact ih

theorem vinsert_alone (args : VinsertArgs) (hns : args.namespace = ns) :
    alone env ns 6 (s, (Call.vinsert args).first ns s) = (applyVinsert env s args).2 := by
  subst hns
  rw [Call.first, applyVinsert.eq_def]
  cases bytesToF32 args.vector with
  | none => exact alone_idle env _ s 6
  | some vector =>
    dsimp only
    split
    · exact alone_idle env _ s 6
    split
    · exact alone_idle env _ s 6
    rw [alone, next]
    rcases s.setWithTimestampNoVectorSync env args.key args.vector args.worm args.timestamp with
      ⟨e | _, s₁⟩
    · exact alone_idle env _ s₁ 5
    · dsimp only
      rw [finishVinsert, persistNamespaceConfig, alone, next]
      split <;> rfl

/-- What follows the deletion of the key itself is the same for all that came before. -/
theorem dropping_alone (s : Node) (key : Bytes) (replicate : Bool) (n : Nat) :
    alone env ns (n + 3) (s, .dropping key replicate) =
      (match s.delete env (bqKey key) with
      | (.error .wormViolation, s) =>
          ((.error (.store .wormViolation), s) : Except VectorOpError Unit × Node)
      | (_, s) => (.ok (), ((modifyIndex s ns (fun idx => (idx.markTombstoneLocked key).2)).publish
          (ns ++ deletedSuffix) key).replicate env replicate (.vdelete ⟨key, ns⟩))).2 := by
  rw [alone, next]
  generalize s.delete env (bqKey key) = dropped
  split
  · exact alone_idle env ns _ (n + 2)
  · exact alone_idle env ns _ n

/-- The index is told of the delete, and the companion goes with the key. -/
theorem syncing_next (s : Node) (key : Bytes) (vdelete : Option Bool) :
    let synced := s.withRegistry env.attached (fun reg => s.syncVectorDeleteWithRegistry env reg key)
    next env ns s (.syncing key vdelete) = (synced, afterDelete key vdelete) ∨
      ∃ s', next env ns s (.syncing key vdelete) = (s', .sweeping key vdelete) ∧
        next env ns s' (.sweeping key vdelete) = (synced, afterDelete key vdelete) := by
  rw [next, Node.withRegistry]
  cases s.registry with
  | none => exact .inl rfl
  | some reg =>
    dsimp only
    rw [Node.syncVectorDeleteWithRegistry]
    cases env.attached with
    | false => exact .inl rfl
    | true =>
      cases hsync : (reg.syncRawDelete key).1 with
      | false => exact .inl rfl
      | true => exact .inr ⟨_, rfl, rfl⟩

theorem vdelete_alone (key : Bytes) (replicate : Bool) :
    alone env ns 6 (s, (Call.vdelete key replicate).first ns s) =
      (applyVdelete env s key ns replicate).2 := by
  rw [Call.first, applyVdelete]
  split
  · exact alone_idle env ns s 6
  rw [alone, next, Node.delete]
  rcases s.remove env key with ⟨e | (_ | _), s₁⟩
  · exact alone_idle env ns s₁ 5
  · exact dropping_alone env ns s₁ key replicate 2
  · rcases syncing_next env ns s₁ key (some replicate) with hnext | ⟨s₂, hnext, hsweep⟩
    · rw [alone, hnext]
      exact dropping_alone env ns _ key replicate 1
    · rw [alone, hnext, alone, hsweep]
      exact dropping_alone env ns _ key replicate 0

theorem del_alone (key : Bytes) :
    alone env ns 3 (s, (Call.del key).first ns s) = (s.delete env key).2 := by
  rw [Call.first, Node.delete, alone, next]
  rcases s.remove env key with ⟨e | (_ | _), s₁⟩
  · rfl
  · rfl
  · rcases syncing_next env ns s₁ key none with hnext | ⟨s₂, hnext, hsweep⟩
    · rw [alone, hnext]
      rfl
    · rw [alone, hnext, alone, hsweep]
      rfl

end

/-! ## What a run has to keep to -/

/-- The call has stored the insert and not queued it yet. -/
def Phase.Inserts (item : PendingInsert) : Phase → Prop
  | .configuring args _ | .recording args _ | .quantising args _ | .indexing args _ =>
      ⟨args.key, args.vector, args.timestamp⟩ = item
  | _ => False

/-- The delete has been at the store, and not at the index. -/
def Phase.Removes (k : Bytes) : Phase → Prop
  | .syncing key _ => key = k
  | _ => False

/-- The delete has been at the store, and is still to put a tombstone. -/
def Phase.Deletes (k : Bytes) : Phase → Prop
  | .syncing key _ | .dropping key _ | .tombstoning key _ => key = k
  | .sweeping key vdelete => vdelete.isSome = true ∧ key = k
  | _ => False

/-- The insert is on its way to the index: it is under way, in the queue, or with the worker. -/
def Waits (ns : Bytes) (s : State) (item : PendingInsert) : Prop :=
  item ∈ s.scratch ∨ item ∈ queueOf s.node ns ∨ ∃ id, (s.calls id).Inserts item

/-- The queue is empty, the worker idle, and no call on the key between store and index. -/
structure Quiet (ns : Bytes) (s : State) (k : Bytes) : Prop where
  scratch : s.scratch = []
  queue : queueOf s.node ns = []
  calls : ∀ id, (∀ item, (s.calls id).Inserts item → item.key ≠ k) ∧ ¬(s.calls id).Removes k

/-- A search can find the key. -/
def LiveKey (ns : Bytes) (s : Node) (k : Bytes) : Prop :=
  ∃ idx, indexOf s ns = some idx ∧ ∃ node ∈ idx.table.nodes, node.tombstoned = false ∧ node.key = k

/-- The store has a vector under a key of the namespace. -/
def Stored (ns : Bytes) (kv : Kv) (k : Bytes) : Prop :=
  keyBelongsToNamespace k ns = true ∧
    ∃ content, kv.get k = some content ∧ (bytesToF32 content.value).isSome = true

/-- The write of the key is not refused. -/
def Writable (env : NodeEnv) (s : Node) (key : Bytes) : Prop :=
  env.fault s.accesses = none ∧ ((s.kv.get key).or (env.frozen key)).any Content.isWorm = false

/-- The key is there, and its removal is not refused. -/
def Removable (env : NodeEnv) (s : Node) (key : Bytes) : Prop :=
  ∃ content, s.kv.get key = some content ∧ content.isWorm = false ∧ env.fault s.accesses = none

/-- A vector that is stored has the metric of the namespace, its dimension and the length of what
waits, and no delete of the key is under way; a key that is removed has no insert waiting. -/
def Act.InOrder (env : NodeEnv) (ns : Bytes) (s : State) : Act → Prop
  | .next id =>
      match s.calls id with
      | .storing args vector => Writable env s.node args.key →
          (∀ idx, indexOf s.node ns = some idx → idx.metric = args.metric) ∧
          (∀ d, dimOf s.node ns = some d → vector.len = d) ∧
          (∀ item, Waits ns s item → item.vector.length = args.vector.length) ∧
          ∀ c, ¬(s.calls c).Deletes args.key
      | .removing key _ => Removable env s.node key → ∀ item, Waits ns s item → item.key ≠ key
      | _ => True
  | _ => True

def Along (P : State → Act → Prop) (env : NodeEnv) (ns : Bytes) : State → List Act → Prop
  | _, [] => True
  | s, act :: acts => P s act ∧ Along P env ns (step env ns s act) acts

/-- No call is under way, nothing waits, and the namespace is asynchronous and has the keys the
store has. -/
structure Start (ns : Bytes) (s : State) : Prop where
  calls : ∀ id, s.calls id = .idle
  scratch : s.scratch = []
  queue : queueOf s.node ns = []
  async : ∃ idx, indexOf s.node ns = some idx ∧ idx.asyncMode = true
  agrees : ∀ k, LiveKey ns s.node k ↔ Stored ns s.node.kv k

/-- No key of the namespace begins like a derived key. -/
def Clear (ns : Bytes) : Prop :=
  ¬ ns <+: bqPrefix ∧ ¬ bqPrefix <+: ns ∧ ¬ ns <+: metaPrefix ∧ ¬ metaPrefix <+: ns

theorem Clear.proper {ns k : Bytes} (h : Clear ns) (hbelongs : keyBelongsToNamespace k ns = true) :
    Proper ns k := by
  obtain ⟨hbq, hbq', hmeta, hmeta'⟩ := h
  have hns : ns <+: k := by
    rw [keyBelongsToNamespace, Bool.and_eq_true] at hbelongs
    exact isPrefixOf_iff_prefix.mp hbelongs.2
  have hfree : ∀ p, ¬ ns <+: p → ¬ p <+: ns → p.isPrefixOf k = false := by
    intro p hp hp'
    by_contra htrue
    have hpk : p <+: k := isPrefixOf_iff_prefix.mp (Bool.not_eq_false _ ▸ htrue)
    -- two beginnings of one key: one of them begins with the other
    rcases prefix_or_prefix_of_prefix hns hpk with hle | hle
    · exact hp hle
    · exact hp' hle
  exact ⟨hbelongs, hfree bqPrefix hbq hbq', hfree metaPrefix hmeta hmeta'⟩

theorem Clear.not_prefix {ns k : Bytes} (h : Clear ns)
    (hbelongs : ¬ keyBelongsToNamespace k ns = true) : ns.isPrefixOf k = false := by
  by_contra htrue
  rw [keyBelongsToNamespace, Bool.and_eq_true, decide_eq_true_eq] at hbelongs
  refine hbelongs ⟨length_pos_of_ne_nil ?_, Bool.not_eq_false _ ▸ htrue⟩
  rintro rfl
  exact h.1 nil_prefix

/-! ## Tables and queue against the store -/

/-- Every stored vector is in the index or on its way there; what is in the index is stored, or
just being removed; and what a delete is under way for is not stored. -/
structure Backed (ns : Bytes) (kv : Kv) (t : NodeTable) (waits : PendingInsert → Prop)
    (removing deleting : Bytes → Prop) : Prop where
  stored : ∀ k, Stored ns kv k → (t.live k).isSome = true ∨ ∃ item, waits item ∧ item.key = k
  live : ∀ k, (t.live k).isSome = true →
    Stored ns kv k ∨ keyBelongsToNamespace k ns = true ∧ removing k
  queued : ∀ item, waits item → Stored ns kv item.key
  vectors : ∀ item, waits item →
    ∃ v, bytesToF32 item.vector = some v ∧ (t.dim = none ∨ t.dim = some v.len)
  even : ∀ item other, waits item → waits other → item.vector.length = other.vector.length
  deleted : ∀ k, deleting k → ¬Stored ns kv k

namespace Backed
variable {ns : Bytes} {kv kv' : Kv} {t t' : NodeTable} {waits waits' : PendingInsert → Prop}
variable {removing removing' deleting deleting' : Bytes → Prop}

theorem stored_congr {k : Bytes}
    (hkv : keyBelongsToNamespace k ns = true → kv'.get k = kv.get k) : Stored ns kv' k ↔ Stored ns kv k := by
  constructor
  · rintro ⟨hbelongs, hcontent⟩
    rw [hkv hbelongs] at hcontent
    exact ⟨hbelongs, hcontent⟩
  · rintro ⟨hbelongs, hcontent⟩
    rw [← hkv hbelongs] at hcontent
    exact ⟨hbelongs, hcontent⟩

theorem congr (h : Backed ns kv t waits removing deleting)
    (hkv : ∀ k, keyBelongsToNamespace k ns = true → kv'.get k = kv.get k)
    (hwaits : ∀ item, waits' item ↔ waits item)
    (hrem : ∀ k, keyBelongsToNamespace k ns = true → removing k → removing' k)
    (hdel : ∀ k, deleting' k → deleting k ∨ ¬Stored ns kv k) :
    Backed ns kv' t waits' removing' deleting' := by
  have hiff : ∀ k, Stored ns kv' k ↔ Stored ns kv k := fun k => stored_congr (hkv k)
  obtain rfl : waits' = waits := funext fun item => propext (hwaits item)
  refine ⟨fun k hk => h.stored k ((hiff k).mp hk), fun k hk => ?_,
    fun item hitem => (hiff _).mpr (h.queued item hitem), h.vectors, h.even, fun k hk hs => ?_⟩
  · exact (h.live k hk).imp (hiff k).mpr (fun hr => ⟨hr.1, hrem k hr.1 hr.2⟩)
  · exact (hdel k hk).elim (fun hd => h.deleted k hd ((hiff k).mp hs)) (· ((hiff k).mp hs))

/-- An insert is stored and on its way. -/
theorem enqueue (h : Backed ns kv t waits removing deleting) {item : PendingInsert} {v : F32Slice}
    {content : Content} (hvector : bytesToF32 item.vector = some v)
    (hdim : ∀ d, t.dim = some d → v.len = d)
    (hlen : ∀ other, waits other → other.vector.length = item.vector.length)
    (hfree : ¬deleting item.key)
    (hbelongs : keyBelongsToNamespace item.key ns = true) (hget : kv'.get item.key = some content)
    (hvalue : content.value = item.vector)
    (hothers : ∀ k, k ≠ item.key → kv'.get k = kv.get k) :
    Backed ns kv' t (fun other => other = item ∨ waits other) removing deleting := by
  have hnew : Stored ns kv' item.key :=
    ⟨hbelongs, content, hget, by rw [hvalue, hvector]; rfl⟩
  have hold : ∀ k, Stored ns kv k → Stored ns kv' k := by
    intro k hk
    by_cases hkey : k = item.key
    · rw [hkey]
      exact hnew
    · exact (stored_congr (fun _ => hothers k hkey)).mpr hk
  have hone : ∀ other, other = item ∨ waits other → other.vector.length = item.vector.length := by
    rintro other (rfl | hother)
    · rfl
    · exact hlen other hother
  refine ⟨fun k hk => ?_, fun k hk => (h.live k hk).imp_left (hold k), ?_, ?_,
    fun i j hi hj => (hone i hi).trans (hone j hj).symm, fun k hk hs => ?_⟩
  · by_cases hkey : k = item.key
    · exact .inr ⟨item, .inl rfl, hkey.symm⟩
    · refine (h.stored k ((stored_congr (fun _ => hothers k hkey)).mp hk)).imp_right ?_
      rintro ⟨i, hi, hik⟩
      exact ⟨i, .inr hi, hik⟩
  · rintro other (rfl | hother)
    · exact hnew
    · exact hold _ (h.queued other hother)
  · rintro other (rfl | hother)
    · refine ⟨v, hvector, ?_⟩
      cases hd : t.dim with
      | none => exact .inl rfl
      | some d => exact .inr (congrArg some (hdim d hd).symm)
    · exact h.vectors other hother
  · have hkey : k ≠ item.key := fun heq => hfree (heq ▸ hk)
    exact h.deleted k hk ((stored_congr (fun _ => hothers k hkey)).mp hs)

/-- A key that does not wait is taken out of the store. -/
theorem remove (h : Backed ns kv t waits removing deleting) {key : Bytes}
    (hgone : kv'.get key = none) (hnone : ∀ item, waits item → item.key ≠ key)
    (hothers : ∀ k, k ≠ key → kv'.get k = kv.get k) :
    Backed ns kv' t waits (fun k => key = k ∨ removing k) (fun k => key = k ∨ deleting k) := by
  have hiff : ∀ k, k ≠ key → (Stored ns kv' k ↔ Stored ns kv k) := fun k hne =>
    stored_congr (fun _ => hothers k hne)
  have hnot : ¬Stored ns kv' key := by
    rintro ⟨-, content, hget, -⟩
    cases hgone.symm.trans hget
  refine ⟨fun k hk => ?_, fun k hk => ?_, fun item hitem => ?_, h.vectors, h.even, ?_⟩
  · have hne : k ≠ key := by
      rintro rfl
      exact hnot hk
    exact h.stored k ((hiff k hne).mp hk)
  · by_cases hkey : k = key
    · -- live, so it was stored or removed before
      have hbelongs : keyBelongsToNamespace k ns = true := (h.live k hk).elim And.left And.left
      exact .inr ⟨hbelongs, .inl hkey.symm⟩
    · exact (h.live k hk).imp (hiff k hkey).mpr (And.imp_right .inr)
  · exact (hiff _ (hnone item hitem)).mpr (h.queued item hitem)
  · rintro k (rfl | hdel) hs
    · exact hnot hs
    · by_cases hkey : k = key
      · exact hnot (hkey ▸ hs)
      · exact h.deleted k hdel ((hiff k hkey).mp hs)

/-- A key that is not stored is taken out of the index. -/
theorem tombstone (h : Backed ns kv t waits removing deleting) {key : Bytes}
    (htomb : t.Tombstoned key t') (hgone : ¬Stored ns kv key)
    (hrem : ∀ k, k ≠ key → removing k → removing' k) (hdel : ∀ k, deleting' k → deleting k) :
    Backed ns kv t' waits removing' deleting' := by
  have hlive : ∀ k, k ≠ key → t'.live k = t.live k := fun k hne =>
    InStep.live_of_nodeFor_eq (htomb.others k hne)
  refine ⟨fun k hk => ?_, fun k hk => ?_, h.queued, fun item hitem => ?_, h.even,
    fun k hk => h.deleted k (hdel k hk)⟩
  · have hne : k ≠ key := by
      rintro rfl
      exact hgone hk
    rw [hlive k hne]
    exact h.stored k hk
  · have hne : k ≠ key := by
      rintro rfl
      rw [htomb.live] at hk
      cases hk
    rw [hlive k hne] at hk
    exact (h.live k hk).imp_right (And.imp_right (hrem k hne))
  · rw [htomb.dim]
    exact h.vectors item hitem

/-- One item goes into the index. -/
theorem insert {item : PendingInsert}
    (h : Backed ns kv t (fun other => other = item ∨ waits other) removing deleting)
    {v : F32Slice} (hvector : bytesToF32 item.vector = some v)
    (hins : t.Inserted item.key v item.timestamp t') :
    Backed ns kv t' waits removing deleting := by
  have hself : (t'.live item.key).isSome = true := by
    rcases hins.self with ⟨id, old, hfor, hlive, -, rfl⟩ | ⟨id, hfor⟩
    · simp [NodeTable.live, hfor, hlive]
    · simp [NodeTable.live, hfor]
  have hlive : ∀ k, k ≠ item.key → t'.live k = t.live k := fun k hne =>
    InStep.live_of_nodeFor_eq (hins.others k hne)
  refine ⟨fun k hk => ?_, fun k hk => ?_, fun other hother => h.queued other (.inr hother),
    fun other hother => ?_, fun i j hi hj => h.even i j (.inr hi) (.inr hj), h.deleted⟩
  · by_cases hkey : k = item.key
    · rw [hkey]
      exact .inl hself
    · rw [hlive k hkey]
      refine (h.stored k hk).imp_right ?_
      rintro ⟨other, rfl | hother, hok⟩
      · exact absurd hok.symm hkey
      · exact ⟨other, hother, hok⟩
  · by_cases hkey : k = item.key
    · rw [hkey]
      exact .inl (h.queued item (.inl rfl))
    · rw [hlive k hkey] at hk
      exact h.live k hk
  · -- all that wait are of the length that is now the dimension
    obtain ⟨w, hw, -⟩ := h.vectors other (.inr hother)
    refine ⟨w, hw, .inr ?_⟩
    have hlen := h.even item other (.inl rfl) (.inr hother)
    rw [hins.dim, F32Slice.len, F32Slice.len, bytesToF32_eq_some.mp hvector,
      bytesToF32_eq_some.mp hw, hlen]

/-- The worker brings everything it took into the index. -/
theorem drain (items : List PendingInsert) {idx : NamespaceIndex}
    (h : Backed ns kv idx.table (fun item => item ∈ items ∨ waits item) removing deleting) :
    Backed ns kv (items.foldl NamespaceIndex.drainItem idx).table waits removing deleting ∧
      idx.SameConfig (items.foldl NamespaceIndex.drainItem idx) := by
  induction items generalizing idx with
  | nil => exact ⟨h.congr (fun _ _ => rfl) (by simp) (fun _ _ h => h) (fun _ => .inl), rfl, rfl, rfl, rfl⟩
  | cons item items ih =>
    obtain ⟨v, hvector, hdim⟩ := h.vectors item (.inl mem_cons_self)
    have hfits : idx.expectedDim = none ∨ idx.expectedDim = some v.len := hdim
    obtain ⟨id, idx', hok⟩ := NamespaceIndex.insertLocked_of_dim hfits item.key item.timestamp
    obtain ⟨hins, hconfig⟩ := NamespaceIndex.insertLocked_ok hok
    have hitem : idx.drainItem item = idx' := by
      rw [NamespaceIndex.drainItem, hvector]
      dsimp only
      rw [NamespaceIndex.tryInsertLocked, hok]
    have hhead : Backed ns kv idx.table
        (fun other => other = item ∨ other ∈ items ∨ waits other) removing deleting :=
      h.congr (fun _ _ => rfl) (by simp [or_assoc]) (fun _ _ h => h) (fun _ => .inl)
    rw [foldl_cons, hitem]
    obtain ⟨hbacked, hmetric, hasync, hpending, hparams⟩ := ih (hhead.insert hvector hins)
    exact ⟨hbacked, hmetric.trans hconfig.1, hasync.trans hconfig.2.1, hpending.trans hconfig.2.2.1,
      hparams.trans hconfig.2.2.2⟩

end Backed
/-! ## Calls on the node -/

theorem write_or_refused (env : NodeEnv) (s : Node) (key value : Bytes) (worm : Bool)
    (timestamp : UInt64) :
    (∃ e s', s.setWithTimestampNoVectorSync env key value worm timestamp = (.error e, s') ∧
      s'.kv = s.kv ∧ s'.registry = s.registry) ∨
    Writable env s key ∧ s.setWithTimestampNoVectorSync env key value worm timestamp =
      (.ok (), { s with kv := s.kv.insert key ⟨value, timestamp, worm⟩,
                        accesses := s.accesses + 1 }) := by
  rw [Node.setWithTimestampNoVectorSync]
  dsimp only
  split
  · exact .inl ⟨_, _, rfl, rfl, rfl⟩
  rename_i hfault
  split
  · exact .inl ⟨_, _, rfl, rfl, rfl⟩
  · rename_i hworm
    exact .inr ⟨⟨hfault, Bool.not_eq_true _ ▸ hworm⟩, rfl⟩

theorem remove_or_refused (env : NodeEnv) (s : Node) (key : Bytes) :
    (¬ Removable env s key ∧ (s.remove env key).1 ≠ .ok true ∧ (s.remove env key).2.kv = s.kv ∧
      (s.remove env key).2.registry = s.registry ∧
      ((s.remove env key).1 = .ok false → s.kv.get key = none)) ∨
    Removable env s key ∧ s.remove env key =
      (.ok true, { s with kv := s.kv.erase key, accesses := s.accesses + 1 }) := by
  rw [Node.remove]
  split
  · rename_i hnone
    refine .inl ⟨?_, by rintro ⟨⟩, rfl, rfl, fun _ => hnone⟩
    rintro ⟨content, hsome, -⟩
    cases hnone.symm.trans hsome
  rename_i content hsome
  split
  · rename_i hworm
    refine .inl ⟨?_, by rintro ⟨⟩, rfl, rfl, by rintro ⟨⟩⟩
    rintro ⟨other, hother, hplain, -⟩
    cases hsome.symm.trans hother
    cases hworm.symm.trans hplain
  rename_i hworm
  dsimp only
  split
  · rename_i hfault
    refine .inl ⟨?_, by rintro ⟨⟩, rfl, rfl, by rintro ⟨⟩⟩
    rintro ⟨-, -, -, hnone⟩
    cases hfault.symm.trans hnone
  · rename_i hfault
    exact .inr ⟨⟨content, hsome, Bool.not_eq_true _ ▸ hworm, hfault⟩, rfl⟩

section Registry
variable {ns : Bytes}

/-- The index of a namespace the key is in is told of the delete, if there is one. -/
theorem get_syncRawDelete (reg : NamespaceRegistry) {key : Bytes} (hk : Proper ns key) :
    (reg.syncRawDelete key).2.get ns = (reg.get ns).map (fun idx => (idx.markTombstoneLocked key).2) := by
  have hpre : ns.isPrefixOf key = true := prefix_of_proper hk
  rw [NamespaceRegistry.syncRawDelete]
  split
  · dsimp only
    rw [get_mapEntries]
    simp only [hpre, if_true]
  · rename_i hmatch
    cases hget : reg.get ns with
    | none => rfl
    | some idx =>
      -- a registered namespace of the key is found by its first byte
      refine absurd ?_ hmatch
      obtain ⟨hbelongs, hbq, hmeta⟩ := hk
      rw [keyBelongsToNamespace, Bool.and_eq_true, decide_eq_true_eq] at hbelongs
      have hmem : ns ∈ reg.entries.map Prod.fst := by
        by_contra hnot
        rw [get_eq_none_iff.mpr hnot] at hget
        cases hget
      obtain ⟨entry, hentry, rfl⟩ := mem_map.mp hmem
      have hne : entry.1 ≠ [] := ne_nil_of_length_pos hbelongs.1
      obtain ⟨rest, hrest⟩ := isPrefixOf_iff_prefix.mp hpre
      obtain ⟨b, ns', hcons⟩ := exists_cons_of_ne_nil hne
      have hkey : key ≠ [] := by
        rw [← hrest, hcons]
        exact cons_ne_nil _ _
      have hhead : entry.1.head? = key.head? := by rw [← hrest, hcons]; rfl
      rw [mayMatchRegisteredNamespace, hbq, hmeta]
      simp only [Bool.and_true, Bool.not_false, Bool.and_eq_true, decide_eq_true_eq, any_eq_true,
        beq_iff_eq]
      exact ⟨hkey, entry, hentry, hne, hhead⟩

theorem get_syncRawDelete_of_not (reg : NamespaceRegistry) {key : Bytes}
    (hnot : ns.isPrefixOf key = false) : (reg.syncRawDelete key).2.get ns = reg.get ns := by
  rw [NamespaceRegistry.syncRawDelete]
  split
  · dsimp only
    rw [get_mapEntries]
    simp [hnot]
  · rfl

theorem indexOf_modifyIndex (s : Node) (f : NamespaceIndex → NamespaceIndex) :
    indexOf (modifyIndex s ns f) ns = (indexOf s ns).map f := by
  rw [indexOf, indexOf, modifyIndex]
  cases s.registry with
  | none => rfl
  | some reg => exact get_modify_self reg ns f

theorem indexOf_updateRegistry {s : Node} (hreg : s.registry.isSome = true) {metric : Metric}
    (hmetric : ∀ idx, indexOf s ns = some idx → idx.metric = metric)
    (f : NamespaceIndex → NamespaceIndex) :
    indexOf (updateRegistry s ns metric f) ns =
        some (f ((indexOf s ns).getD (NamespaceIndex.init metric))) ∧
      (updateRegistry s ns metric f).kv = s.kv ∧
      (updateRegistry s ns metric f).registry.isSome = true := by
  obtain ⟨reg, hsome⟩ := Option.isSome_iff_exists.mp hreg
  have hindex : indexOf s ns = reg.get ns := by rw [indexOf, hsome, Option.bind_some]
  rw [hindex] at hmetric ⊢
  rw [updateRegistry, hsome]
  dsimp only
  rw [getOrCreate]
  cases hget : reg.get ns with
  | none =>
    dsimp only
    refine ⟨?_, rfl, rfl⟩
    rw [indexOf, Option.bind_some, get_modify_self, get_create_self hget]
    rfl
  | some idx =>
    dsimp only
    rw [if_neg (not_not.mpr (hmetric idx hget))]
    refine ⟨?_, rfl, rfl⟩
    rw [indexOf, Option.bind_some, get_modify_self, hget]
    rfl

end Registry

theorem liveKey_of_index {ns : Bytes} {s : Node} {idx : NamespaceIndex} (hindex : indexOf s ns = some idx)
    (k : Bytes) : LiveKey ns s k ↔ (idx.table.live k).isSome = true := by
  rw [Option.isSome_iff_exists]
  constructor
  · rintro ⟨idx', heq, node, hmem, htomb, hkey⟩
    cases hindex.symm.trans heq
    exact ⟨node.vector, idx.valid.live_iff.mpr ⟨node, hmem, htomb, hkey, rfl⟩⟩
  · rintro ⟨v, hv⟩
    obtain ⟨node, hmem, htomb, hkey, -⟩ := idx.valid.live_iff.mp hv
    exact ⟨idx, hindex, node, hmem, htomb, hkey⟩

/-! ## The invariant -/

section
variable {p : Phase → Prop} {calls : Nat → Phase} {id : Nat} {phase phase' : Phase}

theorem exists_update (calls : Nat → Phase) (id : Nat) (phase : Phase) :
    (∃ c, p (Function.update calls id phase c)) ↔ p phase ∨ ∃ c, c ≠ id ∧ p (calls c) := by
  constructor
  · rintro ⟨c, hc⟩
    by_cases heq : c = id
    · subst heq
      rw [Function.update_self] at hc
      exact .inl hc
    · rw [Function.update_of_ne heq] at hc
      exact .inr ⟨c, heq, hc⟩
  · rintro (hp | ⟨c, hne, hc⟩)
    · exact ⟨id, by rwa [Function.update_self]⟩
    · exact ⟨c, by rwa [Function.update_of_ne hne]⟩

theorem exists_call (hphase : calls id = phase) :
    (∃ c, p (calls c)) ↔ p phase ∨ ∃ c, c ≠ id ∧ p (calls c) := by
  have hcalls := exists_update (p := p) calls id (calls id)
  rwa [Function.update_eq_self, hphase] at hcalls

/-- What a call was, it is or the others are. -/
theorem exists_update_of (hphase : calls id = phase) (himp : p phase → p phase') :
    (∃ c, p (calls c)) → ∃ c, p (Function.update calls id phase' c) := by
  rw [exists_call hphase, exists_update]
  exact Or.imp_left himp

end

/-- What a call keeps from its checks. -/
def PhaseOk (ns : Bytes) (metric : Metric) : Phase → Prop
  | .storing args vector =>
      bytesToF32 args.vector = some vector ∧ keyBelongsToNamespace args.key ns = true
  | .configuring args _ | .recording args _ | .quantising args _ | .indexing args _ =>
      args.metric = metric
  | _ => True

/-- The index of the namespace is backed by the store. -/
structure Inv (ns : Bytes) (s : State) (idx : NamespaceIndex) : Prop where
  index : indexOf s.node ns = some idx
  async : idx.asyncMode = true
  calls : ∀ id, PhaseOk ns idx.metric (s.calls id)
  backed : Backed ns s.node.kv idx.table (Waits ns s) (fun k => ∃ id, (s.calls id).Removes k)
    (fun k => ∃ id, (s.calls id).Deletes k)

namespace Inv
variable {env : NodeEnv} {ns : Bytes} {s : State} {idx : NamespaceIndex} {id : Nat}
variable {node' : Node} {phase phase' : Phase}

/-- The call as it was and as it is, in what waits. -/
theorem waits_update (hphase : s.calls id = phase) (hqueue : ∀ item,
      item ∈ queueOf node' ns ∨ phase'.Inserts item ↔ item ∈ queueOf s.node ns ∨ phase.Inserts item)
    (item : PendingInsert) :
    Waits ns ⟨node', s.scratch, Function.update s.calls id phase'⟩ item ↔ Waits ns s item := by
  rw [Waits, Waits, exists_call hphase, exists_update, ← or_assoc (a := item ∈ queueOf node' ns),
    hqueue item, or_assoc]

theorem phaseOk_update {metric : Metric} (h : ∀ c, PhaseOk ns metric (s.calls c))
    (hok : PhaseOk ns metric phase') (c : Nat) :
    PhaseOk ns metric (Function.update s.calls id phase' c) := by
  by_cases heq : c = id
  · subst heq
    rwa [Function.update_self]
  · rw [Function.update_of_ne heq]
    exact h c

/-- A step that is none to the keys of the namespace and its index. -/
theorem side (hclear : Clear ns) (h : Inv ns s idx) (hphase : s.calls id = phase)
    (hside : Side ns s.node node') (hinsert : ∀ item, phase'.Inserts item ↔ phase.Inserts item)
    (hrem : ∀ k, phase.Removes k → phase'.Removes k)
    (hdel : ∀ k, phase'.Deletes k → phase.Deletes k ∨ ¬Stored ns s.node.kv k)
    (hok : PhaseOk ns idx.metric phase') :
    Inv ns ⟨node', s.scratch, Function.update s.calls id phase'⟩ idx := by
  have hindex : indexOf node' ns = indexOf s.node ns := by rw [indexOf, indexOf, hside.registry]
  refine ⟨hindex.trans h.index, h.async, phaseOk_update h.calls hok,
    h.backed.congr (fun k hb => hside.kv k (hclear.proper hb)) (waits_update hphase ?_)
      (fun k _ => exists_update_of hphase (hrem k)) (fun k hk => ?_)⟩
  · intro item
    rw [queueOf, queueOf, hindex, hinsert item]
  · rw [exists_update] at hk
    rcases hk with hk | ⟨c, -, hc⟩
    · exact (hdel k hk).imp_left (fun hd => ⟨id, hphase ▸ hd⟩)
    · exact .inl ⟨c, hc⟩

/-- The key is taken out of the index. -/
theorem tombstone (h : Inv ns s idx) (hphase : s.calls id = phase) {key : Bytes}
    (hdeletes : phase.Deletes key) (hkv : node'.kv = s.node.kv)
    (hindex : indexOf node' ns = some (idx.markTombstoneLocked key).2)
    (hinsert : ∀ item, phase'.Inserts item ↔ phase.Inserts item)
    (hrem : ∀ k, phase.Removes k → k = key)
    (hdel : ∀ k, phase'.Deletes k → k = key) (hok : PhaseOk ns idx.metric phase') :
    Inv ns ⟨node', s.scratch, Function.update s.calls id phase'⟩ (idx.markTombstoneLocked key).2 := by
  have hdeletes' : ∃ c, (s.calls c).Deletes key := ⟨id, hphase ▸ hdeletes⟩
  have hothers : ∀ k, k ≠ key → (∃ c, (s.calls c).Removes k) → ∃ c, c ≠ id ∧ (s.calls c).Removes k := by
    intro k hne hk
    rw [exists_call hphase] at hk
    exact hk.resolve_left (fun hr => hne (hrem k hr))
  have hbacked := h.backed.tombstone (idx.valid.markTombstoneLocked key)
    (h.backed.deleted key hdeletes') hothers (fun _ hd => hd)
  refine ⟨hindex, h.async, phaseOk_update h.calls hok, hbacked.congr (fun k _ => by rw [hkv])
    (waits_update hphase ?_) (fun k _ hk => ?_) (fun k hk => ?_)⟩
  · intro item
    rw [queueOf, queueOf, hindex, h.index, hinsert item]
    rfl
  · rw [exists_update]
    exact .inr hk
  · rw [exists_update] at hk
    rcases hk with hk | ⟨c, -, hc⟩
    · exact .inl (hdel k hk ▸ hdeletes')
    · exact .inl ⟨c, hc⟩

theorem store (hclear : Clear ns) (h : Inv ns s idx) {args : VinsertArgs} {vector : F32Slice}
    (hphase : s.calls id = .storing args vector) (horder : (Act.next id).InOrder env ns s) :
    ∃ idx', Inv ns (step env ns s (.next id)) idx' := by
  obtain ⟨hvector, hbelongs⟩ : PhaseOk ns idx.metric (.storing args vector) := hphase ▸ h.calls id
  rw [Act.InOrder, hphase] at horder
  rw [step, hphase, AsyncIndexing.next]
  rcases write_or_refused env s.node args.key args.vector args.worm args.timestamp with
    ⟨e, s', hwrite, hkv, hreg⟩ | ⟨hcan, hwrite⟩
  · rw [hwrite]
    exact ⟨idx, h.side hclear hphase ⟨hreg, fun k _ => by rw [hkv]⟩ (fun _ => Iff.rfl)
      (fun _ hk => hk) (fun _ hk => hk.elim) trivial⟩
  · rw [hwrite]
    obtain ⟨hmetric, hdim, hlen, hfree⟩ := horder hcan
    have hdim' : ∀ d, idx.table.dim = some d → vector.len = d := by
      intro d hd
      refine hdim d ?_
      rw [dimOf, h.index]
      exact hd
    have hbacked : Backed ns (s.node.kv.insert args.key ⟨args.vector, args.timestamp, args.worm⟩)
        idx.table (fun other => other = ⟨args.key, args.vector, args.timestamp⟩ ∨ Waits ns s other)
        (fun k => ∃ id, (s.calls id).Removes k) (fun k => ∃ id, (s.calls id).Deletes k) :=
      h.backed.enqueue hvector hdim' hlen (not_exists.mpr hfree) hbelongs
        (ByteMap.get_insert_self _ _ _) rfl (fun k hk => ByteMap.get_insert_of_ne _ _ hk)
    refine ⟨idx, h.index, h.async, phaseOk_update h.calls (hmetric idx h.index).symm,
      hbacked.congr (fun _ _ => rfl) (fun item => ?_)
        (fun k _ => exists_update_of hphase (fun hk => hk)) (fun k hk => .inl ?_)⟩
    · -- the insert is under way now
      rw [Waits, Waits, exists_call hphase, exists_update]
      simp only [Phase.Inserts, queueOf, indexOf, false_or]
      tauto
    · rw [exists_update] at hk
      obtain hk | ⟨c, -, hc⟩ := hk
      · exact hk.elim
      · exact ⟨c, hc⟩

theorem indexing (h : Inv ns s idx) {args : VinsertArgs} {vector : F32Slice}
    (hphase : s.calls id = .indexing args vector) :
    ∃ idx', Inv ns (step env ns s (.next id)) idx' := by
  have hmetric : args.metric = idx.metric := by
    have hok := h.calls id
    rwa [hphase] at hok
  rw [step, hphase, AsyncIndexing.next]
  have hregistered : s.node.registry.isSome = true := by
    cases hreg : s.node.registry with
    | none =>
      have hindex := h.index
      rw [indexOf, hreg] at hindex
      cases hindex
    | some reg => rfl
  have hsame : ∀ idx', indexOf s.node ns = some idx' → idx'.metric = args.metric := by
    intro idx' hidx'
    cases h.index.symm.trans hidx'
    exact hmetric.symm
  obtain ⟨hindex, hkv, -⟩ := indexOf_updateRegistry hregistered hsame
    (fun idx => updateIndex idx args.isAsync
        (fun idx => idx.enqueueAsync args.key args.vector args.timestamp)
        (fun idx => idx.tryInsertLocked args.key vector args.timestamp))
  have hupdate : updateIndex idx args.isAsync
      (fun idx => idx.enqueueAsync args.key args.vector args.timestamp)
      (fun idx => idx.tryInsertLocked args.key vector args.timestamp) =
        idx.enqueueAsync args.key args.vector args.timestamp := by
    rw [updateIndex, h.async]
    simp [h.async]
  rw [h.index, Option.getD_some, hupdate] at hindex
  refine ⟨_, hindex, h.async, phaseOk_update h.calls trivial, h.backed.congr (fun k _ => by rw [hkv])
    (waits_update hphase ?_) (fun k _ => exists_update_of hphase (fun hk => hk)) (fun k hk => .inl ?_)⟩
  · -- what was under way is queued
    intro item
    rw [queueOf, queueOf, hindex, h.index]
    simp [Phase.Inserts, NamespaceIndex.enqueueAsync, eq_comm]
  · rw [exists_update] at hk
    obtain hk | ⟨c, -, hc⟩ := hk
    · exact hk.elim
    · exact ⟨c, hc⟩

theorem afterDelete_deletes {key k : Bytes} {vdelete : Option Bool}
    (h : (afterDelete key vdelete).Deletes k) : k = key := by
  cases vdelete with
  | none => exact h.elim
  | some replicate => exact h.symm

theorem afterDelete_ok (metric : Metric) (key : Bytes) (vdelete : Option Bool) :
    (∀ item, ¬(afterDelete key vdelete).Inserts item) ∧
      PhaseOk ns metric (afterDelete key vdelete) := by
  cases vdelete <;> exact ⟨fun _ hins => hins, trivial⟩

theorem removing (hclear : Clear ns) (h : Inv ns s idx) {key : Bytes} {vdelete : Option Bool}
    (hphase : s.calls id = .removing key vdelete) (horder : (Act.next id).InOrder env ns s) :
    ∃ idx', Inv ns (step env ns s (.next id)) idx' := by
  obtain ⟨hnone, hok⟩ := afterDelete_ok idx.metric key vdelete
  rw [Act.InOrder, hphase] at horder
  rw [step, hphase, AsyncIndexing.next]
  rcases remove_or_refused env s.node key with ⟨-, hne, hkv, hreg, habsent⟩ | ⟨hcan, hremove⟩
  · have hside : Side ns s.node (s.node.remove env key).2 := ⟨hreg, fun k _ => by rw [hkv]⟩
    generalize s.node.remove env key = removed at hne hside habsent ⊢
    rcases removed with ⟨e | (_ | _), s'⟩
    · exact ⟨idx, h.side hclear hphase hside (fun _ => Iff.rfl) (fun _ hk => hk)
        (fun _ hk => hk.elim) trivial⟩
    · refine ⟨idx, h.side hclear hphase hside (fun item => iff_of_false (hnone item) (fun hi => hi))
        (fun _ hk => hk.elim) (fun k hk => .inr ?_) hok⟩
      rintro ⟨-, content, hget, -⟩
      rw [afterDelete_deletes hk, habsent rfl] at hget
      cases hget
    · exact absurd rfl hne
  · rw [hremove]
    have hbacked := h.backed.remove (ByteMap.get_erase_self s.node.kv key)
      (horder hcan) (fun k hk => ByteMap.get_erase_of_ne _ hk)
    refine ⟨idx, h.index, h.async, phaseOk_update h.calls trivial, hbacked.congr (fun _ _ => rfl)
      (waits_update hphase (fun _ => Iff.rfl)) (fun k _ hk => ?_) (fun k hk => .inl ?_)⟩
    · rw [exists_update]
      rw [exists_call hphase] at hk
      exact hk.imp_right (Or.resolve_left · (fun hr => hr))
    · rw [exists_update] at hk
      rw [exists_call hphase]
      exact hk.imp_right .inr

theorem syncing (hattached : env.attached = true) (hclear : Clear ns) (h : Inv ns s idx) {key : Bytes}
    {vdelete : Option Bool} (hphase : s.calls id = .syncing key vdelete) :
    ∃ idx', Inv ns (step env ns s (.next id)) idx' := by
  rw [step, hphase, AsyncIndexing.next]
  cases hreg : s.node.registry with
  | none =>
    have hindex := h.index
    rw [indexOf, hreg] at hindex
    cases hindex
  | some reg =>
    dsimp only
    rw [if_pos hattached]
    -- where the call goes on does not matter to the index
    have hphase' : ∀ phase', phase' = (if (reg.syncRawDelete key).1 = true then
        Phase.sweeping key vdelete else afterDelete key vdelete) →
        (∀ item, phase'.Inserts item ↔ (Phase.syncing key vdelete).Inserts item) ∧
          (∀ k, phase'.Deletes k → k = key) ∧ PhaseOk ns idx.metric phase' := by
      rintro _ rfl
      split
      · exact ⟨fun _ => Iff.rfl, fun k hk => hk.2.symm, trivial⟩
      · obtain ⟨hnone, hok⟩ := afterDelete_ok idx.metric key vdelete
        exact ⟨fun item => iff_of_false (hnone item) (fun hi => hi), fun k => afterDelete_deletes, hok⟩
    obtain ⟨hsame, hdel, hok⟩ := hphase' _ rfl
    have hget : reg.get ns = some idx := by
      have hindex := h.index
      rwa [indexOf, hreg, Option.bind_some] at hindex
    by_cases hbelongs : keyBelongsToNamespace key ns = true
    · refine ⟨_, h.tombstone hphase rfl rfl ?_ hsame (fun k hk => hk.symm) hdel hok⟩
      rw [indexOf, Option.bind_some, get_syncRawDelete reg (hclear.proper hbelongs), hget]
      rfl
    · -- a key of another namespace
      have hindex : indexOf { s.node with registry := some (reg.syncRawDelete key).2 } ns = some idx := by
        rw [indexOf, Option.bind_some, get_syncRawDelete_of_not reg (hclear.not_prefix hbelongs), hget]
      refine ⟨idx, hindex, h.async, phaseOk_update h.calls hok, h.backed.congr (fun _ _ => rfl)
        (waits_update hphase ?_) (fun k hb hk => ?_) (fun k hk => .inl ?_)⟩
      · intro item
        rw [queueOf, queueOf, hindex, h.index, hsame item]
      · rw [exists_call hphase] at hk
        rw [exists_update]
        refine .inr (hk.resolve_left ?_)
        rintro rfl
        exact hbelongs hb
      · rw [exists_update] at hk
        rw [exists_call hphase]
        exact hk.imp_left (fun hd => (hdel k hd).symm)

theorem dropping (hclear : Clear ns) (h : Inv ns s idx) {key : Bytes} {replicate : Bool}
    (hphase : s.calls id = .dropping key replicate) :
    ∃ idx', Inv ns (step env ns s (.next id)) idx' := by
  rw [step, hphase, AsyncIndexing.next]
  -- the companion is not a key of the namespace
  have hside : Side ns s.node (s.node.delete env (bqKey key)).2 :=
    Side.delete env s.node (fun k hk => hk.ne_bqKey key) (fun reg => NodeFrame.mayMatch_bqKey reg key)
  generalize s.node.delete env (bqKey key) = dropped at hside ⊢
  split
  · exact ⟨idx, h.side hclear hphase hside (fun _ => Iff.rfl) (fun _ hk => hk) (fun _ hk => hk.elim) trivial⟩
  · exact ⟨idx, h.side hclear hphase hside (fun _ => Iff.rfl) (fun _ hk => hk) (fun _ hk => .inl hk) trivial⟩

/-- **One access of a call.** -/
theorem next (hattached : env.attached = true) (hclear : Clear ns) (h : Inv ns s idx) (id : Nat)
    (horder : (Act.next id).InOrder env ns s) : ∃ idx', Inv ns (step env ns s (.next id)) idx' := by
  cases hphase : s.calls id with
  | storing args vector => exact h.store hclear hphase horder
  | indexing args vector => exact h.indexing hphase
  | removing key vdelete => exact h.removing hclear hphase horder
  | syncing key vdelete => exact h.syncing hattached hclear hphase
  | dropping key replicate => exact h.dropping hclear hphase
  | idle =>
    rw [step, hphase]
    exact ⟨idx, h.side hclear hphase (Side.refl _) (fun _ => Iff.rfl) (fun _ hk => hk) (fun _ hk => .inl hk) trivial⟩
  | configuring args vector =>
    have hok : PhaseOk ns idx.metric (.configuring args vector) := hphase ▸ h.calls id
    rw [step, hphase, AsyncIndexing.next]
    split
    · exact ⟨idx, h.side hclear hphase (Side.refl _) (fun _ => Iff.rfl) (fun _ hk => hk) (fun _ hk => .inl hk) hok⟩
    · exact ⟨idx, h.side hclear hphase (Side.refl _) (fun _ => Iff.rfl) (fun _ hk => hk) (fun _ hk => .inl hk) hok⟩
  | recording args vector =>
    have hok : PhaseOk ns idx.metric (.recording args vector) := hphase ▸ h.calls id
    rw [step, hphase]
    exact ⟨idx, h.side hclear hphase (Side.write env s.node _ _ _ (fun k hk => hk.ne_metaKey ns))
      (fun _ => Iff.rfl) (fun _ hk => hk) (fun _ hk => .inl hk) hok⟩
  | quantising args vector =>
    have hok : PhaseOk ns idx.metric (.quantising args vector) := hphase ▸ h.calls id
    rw [step, hphase]
    exact ⟨idx, h.side hclear hphase (Side.write env s.node _ _ _ (fun k hk => hk.ne_bqKey args.key))
      (fun _ => Iff.rfl) (fun _ hk => hk) (fun _ hk => .inl hk) hok⟩
  | sweeping key vdelete =>
    obtain ⟨hnone, hok⟩ := afterDelete_ok idx.metric key vdelete
    rw [step, hphase]
    refine ⟨idx, h.side hclear hphase (Side.remove env s.node (fun k hk => hk.ne_bqKey key))
      (fun item => iff_of_false (hnone item) (fun hi => hi)) (fun _ hk => hk.elim)
      (fun k hk => .inl ?_) hok⟩
    cases vdelete with
    | none => exact hk.elim
    | some replicate => exact ⟨rfl, hk⟩
  | tombstoning key replicate =>
    rw [step, hphase]
    refine ⟨_, h.tombstone hphase rfl rfl ?_ (fun _ => Iff.rfl) (fun _ hk => hk.elim)
      (fun _ hk => hk.elim) trivial⟩
    rw [AsyncIndexing.next]
    dsimp only
    rw [indexOf_modifyIndex, h.index]
    rfl
  | announcing channel key replicate frame =>
    rw [step, hphase]
    exact ⟨idx, h.side hclear hphase ((Side.publish _ _ _).trans (Side.replicate env _ _ _))
      (fun _ => Iff.rfl) (fun _ hk => hk) (fun _ hk => hk.elim) trivial⟩

/-- A call that begins has done nothing yet. -/
theorem first_ok (s : Node) (metric : Metric) (call : Call) :
    (∀ item, ¬(call.first ns s).Inserts item) ∧ (∀ k, ¬(call.first ns s).Deletes k) ∧
      PhaseOk ns metric (call.first ns s) := by
  cases call with
  | vinsert args =>
    rw [Call.first]
    split
    · exact ⟨fun _ hi => hi, fun _ hk => hk, trivial⟩
    rename_i vector hvector
    split
    · exact ⟨fun _ hi => hi, fun _ hk => hk, trivial⟩
    rename_i hbelongs
    split
    · exact ⟨fun _ hi => hi, fun _ hk => hk, trivial⟩
    · exact ⟨fun _ hi => hi, fun _ hk => hk, hvector, by simpa using hbelongs⟩
  | vdelete key replicate =>
    rw [Call.first]
    split <;> exact ⟨fun _ hi => hi, fun _ hk => hk, trivial⟩
  | del key => exact ⟨fun _ hi => hi, fun _ hk => hk, trivial⟩

theorem start (hclear : Clear ns) (h : Inv ns s idx) (id : Nat) (call : Call) :
    Inv ns (step env ns s (.start id call)) idx := by
  rw [step]
  split
  · rename_i hphase
    obtain ⟨hinsert, hdel, hok⟩ := first_ok s.node idx.metric call
    exact h.side hclear hphase (Side.refl _) (fun item => iff_of_false (hinsert item) (fun hi => hi))
      (fun _ hk => hk.elim) (fun k hk => absurd hk (hdel k)) hok
  · exact h

theorem swap (h : Inv ns s idx) : ∃ idx', Inv ns (step env ns s .swap) idx' := by
  rw [step]
  split
  · rename_i hidle
    have hindex : indexOf (modifyIndex s.node ns (fun idx => { idx with pending := s.scratch })) ns =
        some { idx with pending := s.scratch } := by
      rw [indexOf_modifyIndex, h.index]
      rfl
    refine ⟨_, hindex, h.async, h.calls, h.backed.congr (fun _ _ => rfl) (fun item => ?_)
      (fun _ _ hk => hk) (fun _ hk => .inl hk)⟩
    -- the queue is in the worker's hands, who had nothing
    have hempty : queueOf (modifyIndex s.node ns (fun idx => { idx with pending := s.scratch })) ns =
        [] := by
      rw [queueOf, hindex]
      exact hidle
    rw [Waits, Waits, hempty, hidle]
    simp
  · exact ⟨idx, h⟩

theorem drain (h : Inv ns s idx) : ∃ idx', Inv ns (step env ns s .drain) idx' := by
  obtain ⟨hbacked, hmetric, hasync, hpending, -⟩ := Backed.drain s.scratch h.backed
  have hindex : indexOf (step env ns s .drain).node ns =
      some (s.scratch.foldl NamespaceIndex.drainItem idx) := by
    rw [step]
    dsimp only
    rw [indexOf_modifyIndex, h.index]
    rfl
  refine ⟨_, hindex, hasync.trans h.async, fun id => hmetric ▸ h.calls id,
    hbacked.congr (fun _ _ => rfl) (fun item => ?_) (fun _ _ hk => hk) (fun _ hk => .inl hk)⟩
  rw [Waits, queueOf, queueOf, hindex, h.index, Option.map_some, Option.map_some, hpending, step]
  simp

/-- **Every step keeps the index backed.** -/
theorem step (hattached : env.attached = true) (hclear : Clear ns) (h : Inv ns s idx) {act : Act}
    (horder : act.InOrder env ns s) : ∃ idx', Inv ns (AsyncIndexing.step env ns s act) idx' := by
  cases act with
  | start id call => exact ⟨idx, h.start hclear id call⟩
  | next id => exact h.next hattached hclear id horder
  | swap => exact h.swap
  | drain => exact h.drain

theorem run (hattached : env.attached = true) (hclear : Clear ns) {acts : List Act}
    (h : Inv ns s idx) (horder : Along (Act.InOrder env ns) env ns s acts) :
    ∃ idx', Inv ns (AsyncIndexing.run env ns s acts) idx' := by
  induction acts generalizing s idx with
  | nil => exact ⟨idx, h⟩
  | cons act acts ih =>
    obtain ⟨idx', h'⟩ := h.step hattached hclear horder.1
    exact ih h' horder.2

/-- When nothing waits, what is stored is what is live. -/
theorem agrees (h : Inv ns s idx) {k : Bytes} (hquiet : Quiet ns s k) :
    LiveKey ns s.node k ↔ Stored ns s.node.kv k := by
  rw [liveKey_of_index h.index]
  constructor
  · intro hlive
    refine (h.backed.live k hlive).resolve_right ?_
    rintro ⟨-, id, hrem⟩
    exact (hquiet.calls id).2 hrem
  · intro hk
    refine (h.backed.stored k hk).resolve_right ?_
    rintro ⟨item, hitem, rfl⟩
    rw [Waits, hquiet.scratch, hquiet.queue] at hitem
    rcases hitem with hitem | hitem | ⟨id, hins⟩
    · cases hitem
    · cases hitem
    · exact (hquiet.calls id).1 item hins rfl

end Inv

theorem Start.inv {ns : Bytes} {s : State} (h : Start ns s) : ∃ idx, Inv ns s idx := by
  obtain ⟨idx, hindex, hasync⟩ := h.async
  have hlive := liveKey_of_index hindex
  have hnone : ∀ item, ¬Waits ns s item := by
    rintro item hitem
    rw [Waits, h.scratch, h.queue] at hitem
    rcases hitem with hitem | hitem | ⟨id, hins⟩
    · cases hitem
    · cases hitem
    · rw [h.calls id] at hins
      exact hins
  refine ⟨idx, hindex, hasync, fun id => by rw [h.calls id]; trivial,
    fun k hk => .inl ((hlive k).mp ((h.agrees k).mpr hk)),
    fun k hk => .inl ((h.agrees k).mp ((hlive k).mpr hk)), fun item hitem => absurd hitem (hnone item),
    fun item hitem => absurd hitem (hnone item), fun item _ hitem => absurd hitem (hnone item), ?_⟩
  rintro k ⟨id, hdel⟩
  rw [h.calls id] at hdel
  exact hdel.elim

/-! ## Runs -/

/-- **What is indexed in the background converges to the store**: in every run whose calls
keep to the order, whenever nothing waits, a search can find a key that no call has between store
and index exactly if it is a key of the namespace with a vector in the store. -/
theorem converges (env : NodeEnv) (hattached : env.attached = true) (ns : Bytes) (hclear : Clear ns)
    (s : State) (hstart : Start ns s) (acts : List Act)
    (horder : Along (Act.InOrder env ns) env ns s acts) (k : Bytes)
    (hquiet : Quiet ns (run env ns s acts) k) :
    LiveKey ns (run env ns s acts).node k ↔ Stored ns (run env ns s acts).node.kv k := by
  obtain ⟨idx, hinv⟩ := hstart.inv
  obtain ⟨idx', hinv'⟩ := hinv.run hattached hclear horder
  exact hinv'.agrees hquiet

/-! An empty asynchronous namespace `v:`, and calls on two of its keys. -/

def emptyState : State := ⟨⟨ByteMap.empty, some ⟨[], nodup_nil⟩, [], [], [], 0⟩, [], fun _ => .idle⟩

def asyncState : State :=
  { emptyState with
    node := updateRegistry emptyState.node (ascii "v:") .cosine NamespaceIndex.enableAsyncMode }

theorem asyncState_start : Start (ascii "v:") asyncState where
  calls := fun _ => rfl
  scratch := rfl
  queue := by decide
  async := ⟨_, rfl, rfl⟩
  agrees k := by
    constructor
    · rintro ⟨_, hindex, node, hmem, -⟩
      cases hindex
      cases hmem
    · rintro ⟨_, _, hget, _⟩
      cases hget

def insertArgs (key : String) : VinsertArgs :=
  ⟨ascii key, one, false, ascii "v:", .cosine, 1, false, true⟩

/-- A call on its own. -/
def whole (id : Nat) (call : Call) : List Act := .start id call :: replicate 6 (.next id)

/-- The insert of `v:a` is under way while that of `v:b` runs. -/
def twoInserts : List Act :=
  [.start 0 (.vinsert (insertArgs "v:a")), .next 0] ++ whole 1 (.vinsert (insertArgs "v:b")) ++
    [.next 0, .next 0, .swap, .next 0, .next 0, .drain, .swap, .drain]

theorem converges_two :
    LiveKey (ascii "v:") (run calmEnv (ascii "v:") asyncState twoInserts).node (ascii "v:a") ↔
      Stored (ascii "v:") (run calmEnv (ascii "v:") asyncState twoInserts).node.kv (ascii "v:a") := by
  have hquiet : Quiet (ascii "v:") (run calmEnv (ascii "v:") asyncState twoInserts) (ascii "v:a") := by
    refine ⟨by decide, by decide, ?_⟩
    rintro (_ | _ | id)
    · exact ⟨fun _ hi => hi.elim, fun hr => hr⟩
    · exact ⟨fun _ hi => hi.elim, fun hr => hr⟩
    · exact ⟨fun _ hi => hi.elim, fun hr => hr⟩
  refine converges calmEnv rfl (ascii "v:") (by unfold Clear; decide) asyncState asyncState_start
    twoInserts ?_ (ascii "v:a") hquiet
  refine ⟨trivial, fun _ => ⟨?_, fun d hd => (nomatch hd), ?_, ?_⟩, trivial,
    fun _ => ⟨?_, fun d hd => (nomatch hd), ?_, ?_⟩, trivial, trivial, trivial,
    trivial, trivial, trivial, trivial, trivial, trivial, trivial, trivial, trivial, trivial, trivial⟩
  · intro idx hidx
    cases hidx
    rfl
  · rintro item (hitem | hitem | ⟨_ | id, hi⟩)
    · exact absurd hitem not_mem_nil
    · exact absurd hitem not_mem_nil
    · exact hi.elim
    · exact hi.elim
  · rintro (_ | c) hdel
    · exact hdel.elim
    · exact hdel.elim
  · intro idx hidx
    cases hidx
    rfl
  · -- the other insert is under way, with a vector of the same length
    rintro item (hitem | hitem | ⟨_ | _ | id, hi⟩)
    · exact absurd hitem not_mem_nil
    · exact absurd hitem not_mem_nil
    · exact hi ▸ rfl
    · exact hi.elim
    · exact hi.elim
  · rintro (_ | _ | c) hdel
    · exact hdel.elim
    · exact hdel.elim
    · exact hdel.elim

/-- **A deleted key comes back.**  The delete runs while the insert is in the queue, finds
no node for the key, and the worker then makes one. -/
theorem deleted_comes_back :
    let acts := whole 0 (.vinsert (insertArgs "v:a")) ++ whole 1 (.vdelete (ascii "v:a") false) ++
      [.swap, .drain]
    let s := run calmEnv (ascii "v:") asyncState acts
    Start (ascii "v:") asyncState ∧ Quiet (ascii "v:") s (ascii "v:a") ∧
    LiveKey (ascii "v:") s.node (ascii "v:a") ∧ ¬ Stored (ascii "v:") s.node.kv (ascii "v:a") := by
  intro acts s
  have hget : s.node.kv.get (ascii "v:a") = none := by decide
  have hlive : (indexOf s.node (ascii "v:")).map (fun idx => idx.table.nodes.map (fun node =>
      (node.key, node.tombstoned))) = some [(ascii "v:a", false)] := by decide
  refine ⟨asyncState_start, ⟨by decide, by decide, ?_⟩, ?_, ?_⟩
  · rintro (_ | _ | id)
    · exact ⟨fun _ hi => hi.elim, fun hr => hr⟩
    · exact ⟨fun _ hi => hi.elim, fun hr => hr⟩
    · exact ⟨fun _ hi => hi.elim, fun hr => hr⟩
  · obtain ⟨idx, hindex, hnodes⟩ := Option.map_eq_some_iff.mp hlive
    obtain ⟨node, hmem, hnode⟩ := mem_map.mp (hnodes ▸ mem_singleton_self (ascii "v:a", false))
    obtain ⟨hkey, htomb⟩ := Prod.mk.inj hnode
    exact ⟨idx, hindex, node, hmem, htomb, hkey⟩
  · rintro ⟨-, content, hsome, -⟩
    cases hget.symm.trans hsome

end AsyncIndexing
end WormDB
