import WormDB.PrefixRoot
import WormDB.ReplicationGate

/-! # Anti-entropy of `cluster/node.zig`

A node compares its root over everything with that of a peer.  When they differ it sends
what the peer may lack: the tail of its entries, if the peer's root is the root of the
entries before it, and all live entries otherwise.  An entry goes out as `VINSERT` when it
is a vector of a registered namespace and as `SET` when it is not; the companions of
vectors are left out, because the peer makes its own.

The root is over what a scan finds, live or frozen.  A full sync walks the live entries,
in the order of the shards' tables, and hands on their keys, values and WORM flags. -/
namespace WormDB
open List ByteCodec PrefixMap NamespaceRegistry VectorOps
open ByteMap (empty get_insert_of_ne get_insert_self mem_entries_iff)

namespace AntiEntropy
open PrefixRoot Replication

/-- What a scan finds: the live entries, and the frozen ones they do not shadow. -/
def visible (live frozen : Kv) : Kv := live.entries.foldl (fun kv e => kv.insert e.1 e.2) frozen

/-! ## What is sent -/

abbrev RegSnap := List (Bytes × NamespaceIndex)

def snapshotVectorRegistry (registry : Option NamespaceRegistry) : RegSnap :=
  match registry with
  | none => []
  | some reg => reg.entries

def matchNamespace (snap : RegSnap) (key : Bytes) : Option (Bytes × NamespaceIndex) :=
  snap.find? (fun r => r.1.isPrefixOf key)

/-- The companion of a key that is in a namespace. -/
def skippedBq (snap : RegSnap) (key : Bytes) : Bool :=
  bqPrefix.isPrefixOf key && (matchNamespace snap (key.drop bqPrefix.length)).isSome

/-- The frame for an entry, unless it is skipped. -/
def sendStoreEntryToPeer (snap : RegSnap) (key value : Bytes) (isWorm : Bool) : Option Command :=
  if skippedBq snap key then none
  else
    match matchNamespace snap key with
    | none => some (.set ⟨key, value, isWorm⟩)
    | some (ns, idx) =>
        match idx.nodeFor key with
        | none => some (.set ⟨key, value, isWorm⟩)
        | some (_, node) =>
            some (.vinsert ⟨key, value, isWorm, ns, idx.metric.name, node.timestamp, false⟩)

/-- One entry of a full sync, and what the receiver's clock says when it handles the frame. -/
structure SyncStep where
  key : Bytes
  content : Content
  now : UInt64

section
variable (env : ReplEnv) (snap : RegSnap)

/-- The receiver takes frames from anyone. -/
def syncStep (s : Replica) (e : SyncStep) : Replica :=
  match sendStoreEntryToPeer snap e.key e.content.value e.content.isWorm with
  | none => s
  | some cmd => (receive { env with clock := fun _ => e.now } none none s cmd).2

def fullSync (s : Replica) (steps : List SyncStep) : Replica := steps.foldl (syncStep env snap) s

/-- The receiver has the key as a WORM entry, live or frozen. -/
def heldWorm (s : Replica) (key : Bytes) : Bool :=
  ((s.node.kv.get key).or (env.frozen key)).any Content.isWorm

/-- A frame that the receiver applies. -/
inductive Applied where
  | set
  | vinsert («namespace» : Bytes) (metric : Metric) (timestamp : UInt64) (vector : F32Slice)

/-- The frame of a step, if the receiver applies it: there is a frame, no WORM entry is in its
way, and a vector has the bytes, the namespace and the dimension that the receiver wants. -/
def applied (s : Replica) (e : SyncStep) : Option Applied :=
  if heldWorm env s e.key then none
  else
    match sendStoreEntryToPeer snap e.key e.content.value e.content.isWorm with
    | some (.set _) => some .set
    | some (.vinsert params) =>
        match Metric.fromStr params.metric, bytesToF32 params.vector with
        | some metric, some vector =>
            if !keyBelongsToNamespace params.key params.namespace then none
            else if ((indexOf s.node params.namespace).bind NamespaceIndex.expectedDim).any
                (fun d => vector.len ≠ d) then none
            else some (.vinsert params.namespace metric params.timestamp vector)
        | _, _ => none
    | _ => none

/-- The time that the entry gets: a SET has none of its own. -/
def Applied.time (e : SyncStep) : Applied → UInt64
  | set => e.now
  | vinsert _ _ timestamp _ => timestamp

/-- What the receiver does with the companion of the key. -/
def bqAction (s : Replica) (e : SyncStep) : Applied → RawSetBqAction
  | .set =>
      match s.node.registry with
      | some reg =>
          if env.attached then
            (reg.syncRawSetWithBq env.rabitqEncode e.key e.content.value e.now).1
          else .none
      | none => .none
  | .vinsert ns _ _ vector => .upsert (encodeBqOwned env.toNodeEnv vector (indexOf s.node ns))

/-- What a frame leaves live under the companion's key, if it touches it. -/
def companion (s : Replica) (e : SyncStep) (a : Applied) : Option (Option Content) :=
  match bqAction env s e a with
  | .none => none
  | .upsert bq =>
      if heldWorm env s (bqKey e.key) then none else some (some ⟨bq, a.time e, e.content.isWorm⟩)
  | .delete =>
      match s.node.kv.get (bqKey e.key) with
      | some content => if content.isWorm then none else some none
      | none => none

/-- What a frame leaves under a key as the configuration of a namespace. -/
def config (s : Replica) (e : SyncStep) (key : Bytes) : Applied → Option Content
  | .set => none
  | .vinsert ns metric timestamp _ =>
      if key = metaKey ns ∧ key ≠ e.key ∧ (s.node.kv.get key).or (env.frozen key) = none then
        some ⟨namespaceConfig metric timestamp, timestamp, false⟩
      else none

/-- What a frame leaves live under a key, if it touches it. -/
def leaves (s : Replica) (e : SyncStep) (key : Bytes) (a : Applied) : Option (Option Content) :=
  if key = e.key then some (some ⟨e.content.value, a.time e, e.content.isWorm⟩)
  else if key = bqKey e.key then companion env s e a
  else (config env s e key a).map some

def written (s : Replica) (e : SyncStep) (key : Bytes) : Option (Option Content) :=
  (applied env snap s e).bind (leaves env s e key)

/-- Some step of a sync touches the key. -/
def Writes (s : Replica) (steps : List SyncStep) (key : Bytes) : Prop :=
  ∃ pre e post, steps = pre ++ e :: post ∧ written env snap (fullSync env snap s pre) e key ≠ none

end

/-! ## What is visible -/

theorem get_foldl_insert (es : List (Bytes × Content)) (hasc : es.Pairwise (fun a b => a.1 < b.1))
    (kv : Kv) (key : Bytes) :
    (es.foldl (fun kv e => kv.insert e.1 e.2) kv).get key =
      ((es.find? (fun e => decide (e.1 = key))).map Prod.snd).or (kv.get key) := by
  induction es generalizing kv with
  | nil => rfl
  | cons e es ih =>
    obtain ⟨hhead, htail⟩ := pairwise_cons.mp hasc
    rw [foldl_cons, ih htail, find?_cons]
    by_cases hkey : e.1 = key
    · subst hkey
      -- the key does not come again
      have hnone : es.find? (fun e' => decide (e'.1 = e.1)) = none := by
        rw [find?_eq_none]
        intro e' he' heq
        have hlt := hhead e' he'
        rw [of_decide_eq_true heq] at hlt
        exact List.lt_irrefl _ hlt
      simp only [hnone, decide_true, Option.map_none, Option.none_or, Option.map_some, Option.some_or]
      exact get_insert_self _ _ _
    · rw [get_insert_of_ne _ _ (fun h => hkey h.symm)]
      simp only [hkey, decide_false]

@[simp] theorem get_visible (live frozen : Kv) (key : Bytes) :
    (visible live frozen).get key = (live.get key).or (frozen.get key) :=
  get_foldl_insert live.entries live.ascending frozen key

/-! ## One frame -/

section
variable {env : NodeEnv} {s : Node} {key value k : Bytes} {isWorm : Bool}

section
variable (hfault : env.fault s.accesses = none)
include hfault

end

end


section
variable {env : ReplEnv} {snap : RegSnap} {s : Replica} {e : SyncStep} {k : Bytes}

theorem Writes.last {steps : List SyncStep} (h : Writes env snap s steps k) :
    ∃ pre e post c, steps = pre ++ e :: post ∧ written env snap (fullSync env snap s pre) e k = some c ∧
      ¬ Writes env snap (fullSync env snap s (pre ++ [e])) post k := by
  induction steps generalizing s with
  | nil =>
    obtain ⟨pre, e, post, heq, -⟩ := h
    exact absurd heq.symm (append_ne_nil_of_right_ne_nil pre (cons_ne_nil e post))
  | cons e rest ih =>
    by_cases hrest : Writes env snap (syncStep env snap s e) rest k
    · obtain ⟨pre, e', post, c, rfl, hw, hlast⟩ := ih hrest
      exact ⟨e :: pre, e', post, c, rfl, hw, hlast⟩
    · obtain ⟨_ | ⟨e', pre⟩, e'', post, heq, hw⟩ := h
      · obtain ⟨rfl, rfl⟩ := cons.inj heq
        obtain ⟨c, hc⟩ := Option.ne_none_iff_exists'.mp hw
        exact ⟨[], e, rest, c, rfl, hc, hrest⟩
      · obtain ⟨rfl, rfl⟩ := cons.inj heq
        exact absurd ⟨pre, e'', post, rfl, hw⟩ hrest

end

/-! ## Agreement -/

/-- A full sync from `sender` to `receiver`: the steps walk the live entries of the sender
in some order, what the receiver has is part of what the sender has, and no write fails. -/
structure Sync (env : ReplEnv) (sender : Node) (senderFrozen : Kv) (receiver : Replica)
    (receiverFrozen : Kv) (steps : List SyncStep) : Prop where
  walk : (steps.map (fun e => (e.key, e.content))).Perm sender.kv.entries
  mounted : ∀ key, env.frozen key = receiverFrozen.get key
  noFault : ∀ n, env.fault n = none
  subset : ∀ key content, (visible receiver.node.kv receiverFrozen).get key = some content →
    (visible sender.kv senderFrozen).get key = some content
  fits : Fits (visible sender.kv senderFrozen)
  fitsAfter : Fits (visible (fullSync env (snapshotVectorRegistry sender.registry) receiver steps).node.kv
    receiverFrozen)

namespace Sync
variable {env : ReplEnv} {sender : Node} {senderFrozen : Kv} {receiver : Replica}
  {receiverFrozen : Kv} {steps : List SyncStep}

/-- What a step finds to send is what the sender shows. -/
theorem sent (h : Sync env sender senderFrozen receiver receiverFrozen steps) {e : SyncStep}
    (he : e ∈ steps) : (visible sender.kv senderFrozen).get e.key = some e.content := by
  have hmem : (e.key, e.content) ∈ sender.kv.entries :=
    h.walk.mem_iff.mp (mem_map_of_mem (f := fun e => (e.key, e.content)) he)
  rw [get_visible, mem_entries_iff.mp hmem, Option.some_or]

variable {key : Bytes}

end Sync

def oneEntry : Node := nodeOf (empty.insert (ascii "a") ⟨ascii "v", 10, true⟩)

def frozenConfig : Kv :=
  empty.insert (metaKey (ascii "v:")) ⟨namespaceConfig .l2 5, 5, false⟩

def frozenEnv : ReplEnv := { sampleEnv with frozen := fun key => frozenConfig.get key }

end AntiEntropy
end WormDB
