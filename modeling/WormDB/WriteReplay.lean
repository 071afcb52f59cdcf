import WormDB.WalNode
import WormDB.VectorFrame

/-! # What a write logs

For each operation of a node that logs, the keys whose lengths it puts into a record, as a
condition on the node before (`SetFits`, `DeleteFits`, `VinsertFits`, `VdeleteFits`): the
operation is `Logged` under it, and an operation that goes well has its own record in the
log. -/
namespace WormDB
open List ByteCodec NamespaceRegistry VectorOps PrefixMap

namespace WalNode

section
variable (env : WalEnv)

/-- The record of an access is serialized only where there is memory for it. -/
def KeyFits (access : Nat) (key : Bytes) : Prop := env.memory access = true → key.length < 65536

def Deletable (kv : Kv) (key : Bytes) : Prop := ∃ content, kv.get key = some content ∧ content.isWorm = false

/-- Neither a failure nor a WORM entry is in the way of a write. -/
def Accepts (s : Node) (key : Bytes) : Prop :=
  env.fault s.accesses = none ∧ ((s.kv.get key).or (env.frozen key)).any Content.isWorm = false

/-- What a plain write does to the companion of its key fits. -/
def CompanionFits (access : Nat) (kv : Kv) (reg : NamespaceRegistry) (key value : Bytes)
    (timestamp : UInt64) : Prop :=
  match (reg.syncRawSetWithBq env.rabitqEncode key value timestamp).1 with
  | .none => True
  | .upsert _ => KeyFits env access (bqKey key)
  | .delete => Deletable kv (bqKey key) → KeyFits env access (bqKey key)

end

variable {env : WalEnv}

/-! ## The store -/

/-- The new state of an accepted write. -/
def stored (s : Node) (key value : Bytes) (isWorm : Bool) (timestamp : UInt64) : Node :=
  { s with accesses := s.accesses + 1, kv := s.kv.insert key ⟨value, timestamp, isWorm⟩ }

/-- The new state of an access that has failed. -/
def counted (s : Node) : Node := { s with accesses := s.accesses + 1 }

variable {s : Node} {key : Bytes}

theorem set_accepted (h : Accepts env s key) (value : Bytes) (isWorm : Bool)
    (timestamp : UInt64) : s.setWithTimestampNoVectorSync env.toNodeEnv key value isWorm timestamp =
      (.ok (), stored s key value isWorm timestamp) := by
  rw [Node.setWithTimestampNoVectorSync]
  simp only [h.1, h.2, Bool.false_eq_true, if_false]
  rfl

theorem set_refused (h : ¬ Accepts env s key) (value : Bytes) (isWorm : Bool)
    (timestamp : UInt64) :
    ∃ e, s.setWithTimestampNoVectorSync env.toNodeEnv key value isWorm timestamp =
      (.error e, counted s) := by
  rw [Node.setWithTimestampNoVectorSync]
  cases hfault : env.fault s.accesses with
  | some e => exact ⟨e, rfl⟩
  | none =>
    cases hworm : ((s.kv.get key).or (env.frozen key)).any Content.isWorm with
    | true => exact ⟨.wormViolation, rfl⟩
    | false => exact absurd ⟨hfault, hworm⟩ h

theorem memory_of_fault {n : Nat} (h : env.fault n = none) : env.memory n = true := by
  cases hmemory : env.memory n with
  | true => rfl
  | false => exact absurd h (env.memory_fault n hmemory)

theorem setNoSync_logged (n : WalNode) {key value : Bytes} (isWorm : Bool) (timestamp : UInt64)
    (hvalue : value.length ≤ maxPayloadLength) :
    ∃ new, Logged (KeyFits env n.node.accesses key)
      (n.node.setWithTimestampNoVectorSync env.toNodeEnv key value isWorm timestamp) n.log new
      (n.setWithTimestampNoVectorSync env key value isWorm timestamp) ∧
      (Accepts env n.node key → .set key value (.written isWorm) timestamp ∈ new) := by
  refine ⟨_, (Logged.record n (set_readBack hvalue) _).congr (by rw [set_serializes hvalue]; rfl), ?_⟩
  intro h
  rw [set_accepted h, memory_of_fault h.1]
  exact mem_singleton_self _

theorem remove_logged (n : WalNode) (key : Bytes) :
    ∃ new, Logged (Deletable n.node.kv key → KeyFits env n.node.accesses key)
      (n.node.remove env.toNodeEnv key) n.log new (n.remove env key) ∧
      ((n.node.remove env.toNodeEnv key).1 = .ok true → .delete key ∈ new) := by
  rw [WalNode.remove]
  cases hget : n.node.kv.get key with
  | none =>
    have hsame : n.node.remove env.toNodeEnv key = (.ok false, n.node) := by rw [Node.remove, hget]
    rw [hsame]
    refine ⟨[], (Logged.pure _ n).congr (iff_of_true trivial ?_), by rintro ⟨⟩⟩
    rintro ⟨content, hcontent, -⟩
    cases hget.symm.trans hcontent
  | some content =>
    dsimp only
    cases hworm : content.isWorm with
    | true =>
      have hsame : n.node.remove env.toNodeEnv key = (.error .wormViolation, n.node) := by
        rw [Node.remove, hget]
        exact if_pos hworm
      rw [hsame, if_pos rfl]
      refine ⟨[], (Logged.pure _ n).congr (iff_of_true trivial ?_), by rintro ⟨⟩⟩
      rintro ⟨content', hcontent, hfree⟩
      cases hget.symm.trans hcontent
      cases hworm.symm.trans hfree
    | false =>
      rw [if_neg Bool.false_ne_true]
      refine ⟨_, (Logged.record n delete_readBack _).congr ?_, fun hok => ?_⟩
      · rw [delete_serializes]
        exact ⟨fun h _ => h, fun h => h ⟨content, hget, hworm⟩⟩
      · have hfault : env.fault n.node.accesses = none := by
          rw [Node.remove, hget] at hok
          dsimp only at hok
          rw [if_neg (by rw [hworm]; exact Bool.false_ne_true)] at hok
          cases hfault : env.fault n.node.accesses with
          | none => rfl
          | some e =>
            rw [hfault] at hok
            cases hok
        rw [hok, memory_of_fault hfault]
        exact mem_singleton_self _

/-! ## The companion of a plain write -/

theorem binaryQuantize_length (v : F32Slice) : (binaryQuantize v).length = (v.len + 7) / 8 := by
  rw [binaryQuantize, length_map, length_range]

theorem encodeBqLocked_length (idx : NamespaceIndex) (v : F32Slice) :
    (encodeBqLocked env.rabitqEncode idx v).length ≤ (v.len + 7) / 8 + 8 := by
  have hnaive := binaryQuantize_length v
  rw [encodeBqLocked]
  split
  · split
    · exact (env.encode_length _ _ _).le
    · omega
  · omega

/-- A hash is no longer than what is hashed, but for a few bytes. -/
def Hashed (value : Bytes) (action : RawSetBqAction) : Prop :=
  ∀ bq, action = .upsert bq → bq.length ≤ value.length + 8

theorem hashed_none (value : Bytes) : Hashed value .none := by
  rintro bq ⟨⟩

theorem hashed_delete (value : Bytes) : Hashed value .delete := by
  rintro bq ⟨⟩

variable {value : Bytes}

theorem hashed_encode {idx : NamespaceIndex} {v : F32Slice} (hv : bytesToF32 value = some v) :
    Hashed value (.upsert (encodeBqLocked env.rabitqEncode idx v)) := by
  rintro bq h
  obtain rfl := RawSetBqAction.upsert.inj h
  have hlen := @encodeBqLocked_length env idx v
  have hbytes := bytesToF32_eq_some.mp hv
  rw [F32Slice.len, hbytes] at hlen
  omega

theorem refresh_hashed (idx : NamespaceIndex) (node : VectorNode) (key value : Bytes) (timestamp : UInt64) :
    Hashed value (refresh env.rabitqEncode idx node key value timestamp).1 := by
  rw [refresh]
  split
  · exact hashed_none _
  split
  · rename_i v hv
    split
    · split
      · exact hashed_encode hv
      · exact hashed_delete _
    · exact hashed_delete _
  · exact hashed_delete _

theorem adopt_hashed (idx : NamespaceIndex) (key value : Bytes) (timestamp : UInt64) :
    Hashed value (adopt env.rabitqEncode idx key value timestamp).1 := by
  rw [adopt]
  split
  · split
    · rename_i v hv
      split
      · split
        · exact hashed_encode hv
        · exact hashed_none _
      · exact hashed_delete _
    · exact hashed_delete _
  · exact hashed_none _

theorem merge_hashed {vars : SyncVars} {value : Bytes} (h : Hashed value vars.action) (ns : Bytes)
    {action : RawSetBqAction} (haction : Hashed value action) :
    Hashed value (vars.merge ns action).action := by
  cases action with
  | none => exact h
  | upsert bq =>
    rw [SyncVars.merge]
    split
    · exact haction
    · exact h
  | delete =>
    rw [SyncVars.merge]
    split
    · exact hashed_delete _
    · exact h

variable {timestamp : UInt64}

theorem next_hashed {vars : SyncVars}
    (h : Hashed value vars.action) (entry : Bytes × NamespaceIndex) :
    Hashed value (SyncVars.next env.rabitqEncode key value timestamp vars entry).action := by
  rw [SyncVars.next]
  split
  · split
    · exact @merge_hashed { vars with refreshedExisting := true } _ h _ _ (refresh_hashed _ _ _ _ _)
    · split
      · exact h
      · exact h
  · exact h

theorem syncRawSet_hashed (reg : NamespaceRegistry) (key value : Bytes) (timestamp : UInt64) :
    Hashed value (reg.syncRawSetWithBq env.rabitqEncode key value timestamp).1 := by
  have hfold : ∀ (entries : List (Bytes × NamespaceIndex)) (vars : SyncVars), Hashed value vars.action →
      Hashed value (entries.foldl (SyncVars.next env.rabitqEncode key value timestamp) vars).action := by
    intro entries
    induction entries with
    | nil => exact fun _ h => h
    | cons entry rest ih => exact fun vars h => ih _ (next_hashed h entry)
  have hvars := hfold reg.entries ⟨none, false, 0, .none⟩ (hashed_none value)
  rw [syncRawSetWithBq]
  split
  · dsimp only
    split
    · exact hvars
    · split
      · exact adopt_hashed _ _ _ _
      · exact hvars
  · exact hashed_none _

theorem syncDelete_logged (n : WalNode) (reg : NamespaceRegistry) (key : Bytes) :
    ∃ new, Logged ((reg.syncRawDelete key).1 = true → Deletable n.node.kv (bqKey key) →
        KeyFits env n.node.accesses (bqKey key))
      ((), n.node.syncVectorDeleteWithRegistry env.toNodeEnv reg key) n.log new
      (n.syncVectorDeleteWithRegistry env reg key) := by
  rw [WalNode.syncVectorDeleteWithRegistry, Node.syncVectorDeleteWithRegistry]
  dsimp only
  by_cases htouched : (reg.syncRawDelete key).1 = true
  · rw [if_pos htouched, if_pos htouched]
    obtain ⟨new, hremove, -⟩ := @remove_logged env
      (n.withNode { n.node with registry := some (reg.syncRawDelete key).2 }) (bqKey key)
    exact ⟨new, (hremove.map rfl).congr ⟨fun h _ => h, fun h => h htouched⟩⟩
  · rw [if_neg htouched, if_neg htouched]
    exact ⟨[], (Logged.pure () (n.withNode { n.node with
      registry := some (reg.syncRawDelete key).2 })).congr (iff_of_true trivial (fun h => absurd h htouched))⟩

theorem syncSet_logged (n : WalNode) (reg : NamespaceRegistry) {key value : Bytes} (isWorm : Bool)
    (timestamp : UInt64) (hvalue : value.length + 8 ≤ maxPayloadLength) :
    ∃ new, Logged (CompanionFits env n.node.accesses n.node.kv reg key value timestamp)
      ((), n.node.syncVectorSetWithRegistry env.toNodeEnv reg key value isWorm timestamp) n.log new
      (n.syncVectorSetWithRegistry env reg key value isWorm timestamp) := by
  have hhashed := @syncRawSet_hashed env reg key value timestamp
  rw [WalNode.syncVectorSetWithRegistry, Node.syncVectorSetWithRegistry, CompanionFits]
  dsimp only
  cases haction : (reg.syncRawSetWithBq env.rabitqEncode key value timestamp).1 with
  | none =>
    exact ⟨[], Logged.pure () (n.withNode { n.node with
      registry := some (reg.syncRawSetWithBq env.rabitqEncode key value timestamp).2 })⟩
  | upsert bq =>
    obtain ⟨new, hset, -⟩ := @setNoSync_logged env (n.withNode { n.node with
      registry := some (reg.syncRawSetWithBq env.rabitqEncode key value timestamp).2 }) (bqKey key) bq
      isWorm timestamp (le_trans (hhashed bq haction) hvalue)
    exact ⟨new, hset.map rfl⟩
  | delete =>
    obtain ⟨new, hremove, -⟩ := @remove_logged env (n.withNode { n.node with
      registry := some (reg.syncRawSetWithBq env.rabitqEncode key value timestamp).2 }) (bqKey key)
    exact ⟨new, hremove.map rfl⟩

theorem withRegistry_logged (n : WalNode) (present : Bool) {f : NamespaceRegistry → Option (Unit × WalNode)}
    {g : NamespaceRegistry → Node} {fits : NamespaceRegistry → Prop}
    (hf : ∀ reg, ∃ new, Logged (fits reg) ((), g reg) n.log new (f reg)) :
    ∃ new, Logged (∀ reg, n.node.registry = some reg → present = true → fits reg)
      ((), n.node.withRegistry present g) n.log new (n.withRegistry present f) := by
  rw [WalNode.withRegistry, Node.withRegistry]
  cases hreg : n.node.registry with
  | none => exact ⟨[], (Logged.pure () n).congr (iff_of_true trivial (by rintro reg ⟨⟩))⟩
  | some reg =>
    cases present with
    | false => exact ⟨[], (Logged.pure () n).congr (iff_of_true trivial (by rintro _ _ ⟨⟩))⟩
    | true =>
      obtain ⟨new, hlogged⟩ := hf reg
      refine ⟨new, hlogged.congr ⟨?_, fun h => h reg rfl rfl⟩⟩
      rintro h reg' hreg' -
      cases hreg'
      exact h

theorem withRegistry_absent (n : WalNode) (f : NamespaceRegistry → Option (Unit × WalNode))
    (g : NamespaceRegistry → Node) :
    n.withRegistry false f = some ((), n) ∧ n.node.withRegistry false g = n.node := by
  rw [WalNode.withRegistry, Node.withRegistry]
  cases n.node.registry with
  | none => exact ⟨rfl, rfl⟩
  | some reg => exact ⟨rfl, rfl⟩

variable {isWorm : Bool}

/-- A write under a key leaves the companion's deletion as it was. -/
theorem companionFits_stored {access : Nat} {reg : NamespaceRegistry} {time : UInt64} :
    CompanionFits env access (stored s key value isWorm timestamp).kv reg key value time ↔
      CompanionFits env access s.kv reg key value time := by
  have hget : (stored s key value isWorm timestamp).kv.get (bqKey key) = s.kv.get (bqKey key) :=
    ByteMap.get_insert_of_ne _ _ (bqKey_ne key)
  rw [CompanionFits, CompanionFits, Deletable, hget]
  rfl

theorem setWithTimestamp_logged (n : WalNode) {key value : Bytes} (isWorm : Bool) (timestamp : UInt64)
    (hvalue : value.length + 8 ≤ maxPayloadLength) :
    ∃ new, Logged (KeyFits env n.node.accesses key ∧ (Accepts env n.node key → ∀ reg,
        n.node.registry = some reg → env.attached = true →
          CompanionFits env (n.node.accesses + 1) n.node.kv reg key value timestamp))
      (n.node.setWithTimestamp env.toNodeEnv key value isWorm timestamp) n.log new
      (n.setWithTimestamp env key value isWorm timestamp) ∧
      (Accepts env n.node key → .set key value (.written isWorm) timestamp ∈ new) := by
  obtain ⟨new, hset, hown⟩ := @setNoSync_logged env n key value isWorm timestamp
    (le_trans (Nat.le_add_right _ 8) hvalue)
  rw [WalNode.setWithTimestamp, Node.setWithTimestamp]
  by_cases haccepts : Accepts env n.node key
  · rw [set_accepted haccepts] at hset ⊢
    obtain ⟨new', hsync⟩ := withRegistry_logged ⟨stored n.node key value isWorm timestamp, n.log ++ new⟩
      env.attached (fun reg => @syncSet_logged env
        ⟨stored n.node key value isWorm timestamp, n.log ++ new⟩ reg key value isWorm timestamp hvalue)
    refine ⟨new ++ new', (hset.bind (hsync.map rfl)).congr (and_congr_right (fun _ => ?_)),
      fun h => mem_append_left _ (hown h)⟩
    exact ⟨fun h _ reg hreg hpresent => companionFits_stored.mp (h reg hreg hpresent),
      fun h reg hreg hpresent => companionFits_stored.mpr (h haccepts reg hreg hpresent)⟩
  · obtain ⟨e, hrefused⟩ := set_refused haccepts value isWorm timestamp
    rw [hrefused] at hset ⊢
    exact ⟨new, Logged.congr (hset.bind_pure rfl) (iff_self_and.mpr (fun _ h => absurd h haccepts)),
      fun h => absurd h haccepts⟩

/-! ## Deletions -/

/-- The key is there and goes. -/
def Removes (env : WalEnv) (s : Node) (key : Bytes) : Prop :=
  Deletable s.kv key ∧ env.fault s.accesses = none

/-- The new state of a deletion. -/
def erased (s : Node) (key : Bytes) : Node :=
  { s with accesses := s.accesses + 1, kv := s.kv.erase key }

theorem remove_removes (h : Removes env s key) :
    s.remove env.toNodeEnv key = (.ok true, erased s key) := by
  obtain ⟨⟨content, hget, hworm⟩, hfault⟩ := h
  rw [Node.remove, hget]
  dsimp only
  rw [if_neg (by rw [hworm]; exact Bool.false_ne_true), hfault]
  rfl

theorem remove_absent (h : s.kv.get key = none) : s.remove env.toNodeEnv key = (.ok false, s) := by
  rw [Node.remove, h]

/-- A key that is there and does not go: its deletion fails. -/
theorem remove_fails (h : ¬ Removes env s key) (hlive : s.kv.get key ≠ none) :
    ∃ e s', s.remove env.toNodeEnv key = (.error e, s') := by
  obtain ⟨content, hget⟩ := Option.ne_none_iff_exists'.mp hlive
  rw [Node.remove, hget]
  dsimp only
  by_cases hworm : content.isWorm = true
  · rw [if_pos hworm]
    exact ⟨_, _, rfl⟩
  · rw [if_neg hworm]
    cases hfault : env.fault s.accesses with
    | some e => exact ⟨_, _, rfl⟩
    | none => exact absurd ⟨⟨content, hget, Bool.eq_false_iff.mpr hworm⟩, hfault⟩ h

theorem deletable_erased :
    Deletable (erased s key).kv (bqKey key) ↔ Deletable s.kv (bqKey key) := by
  have hget : (erased s key).kv.get (bqKey key) = s.kv.get (bqKey key) :=
    ByteMap.get_erase_of_ne _ (bqKey_ne key)
  rw [Deletable, hget]
  rfl

/-- The deletion of a key takes the one of its companion with it. -/
def Syncs (s : Node) (key : Bytes) : Prop :=
  ∃ reg, s.registry = some reg ∧ (reg.syncRawDelete key).1 = true

theorem delete_logged (n : WalNode) (key : Bytes) :
    ∃ new, Logged ((Deletable n.node.kv key → KeyFits env n.node.accesses key) ∧
        (Removes env n.node key → env.attached = true → Syncs n.node key →
          Deletable n.node.kv (bqKey key) → KeyFits env (n.node.accesses + 1) (bqKey key)))
      (n.node.delete env.toNodeEnv key) n.log new (n.delete env key) ∧
      (Removes env n.node key → .delete key ∈ new) := by
  obtain ⟨new, hremove, hown⟩ := @remove_logged env n key
  rw [WalNode.delete, Node.delete]
  by_cases hremoves : Removes env n.node key
  · rw [remove_removes hremoves] at hremove hown ⊢
    obtain ⟨new', hsync⟩ := withRegistry_logged ⟨erased n.node key, n.log ++ new⟩ env.attached
      (fun reg => @syncDelete_logged env ⟨erased n.node key, n.log ++ new⟩ reg key)
    refine ⟨new ++ new', (hremove.bind (hsync.map rfl)).congr (and_congr_right (fun _ => ?_)),
      fun _ => mem_append_left _ (hown rfl)⟩
    rw [deletable_erased]
    constructor
    · rintro h - hattached ⟨reg, hreg, htouched⟩ hbq
      exact h reg hreg hattached htouched hbq
    · intro h reg hreg hattached htouched hbq
      exact h hremoves hattached ⟨reg, hreg, htouched⟩ hbq
  · by_cases hlive : n.node.kv.get key = none
    · rw [remove_absent hlive] at hremove ⊢
      exact ⟨new, Logged.congr (hremove.bind_pure rfl) (iff_self_and.mpr (fun _ h => absurd h hremoves)),
        fun h => absurd h hremoves⟩
    · obtain ⟨e, s', hfails⟩ := remove_fails hremoves hlive
      rw [hfails] at hremove ⊢
      exact ⟨new, Logged.congr (hremove.bind_pure rfl) (iff_self_and.mpr (fun _ h => absurd h hremoves)),
        fun h => absurd h hremoves⟩

/-- The companion's own deletion goes no further. -/
theorem deleteCompanion_logged (n : WalNode) (key : Bytes) :
    ∃ new, Logged (Deletable n.node.kv (bqKey key) → KeyFits env n.node.accesses (bqKey key))
      (n.node.delete env.toNodeEnv (bqKey key)) n.log new (n.delete env (bqKey key)) := by
  obtain ⟨new, hdelete, -⟩ := @delete_logged env n (bqKey key)
  refine ⟨new, hdelete.congr ⟨And.left, fun h => ⟨h, ?_⟩⟩⟩
  rintro - - ⟨reg, -, htouched⟩
  rw [syncRawDelete, NodeFrame.mayMatch_bqKey, if_neg Bool.false_ne_true] at htouched
  cases htouched

/-! ## The vector operations -/

theorem appendVector_logged (n : WalNode) {r : WalRecord} (hread : Wal.serializeRecord r ≠ none → ReadBack r) :
    ∃ new, Logged (env.vectorFault ≠ some .outOfMemory → Wal.serializeRecord r ≠ none) ((), n.node) n.log
      new (n.appendVector env r) ∧ (env.vectorFault = none → r ∈ new) := by
  rw [appendVector]
  split
  · rename_i hfault
    exact ⟨[], (Logged.pure () n).congr (iff_of_true trivial (fun h => absurd hfault h)),
      fun h => by rw [hfault] at h; cases h⟩
  · rename_i hother
    have hmemory : env.vectorFault ≠ some .outOfMemory := fun h => hother h
    cases hser : Wal.serializeRecord r with
    | none =>
      exact ⟨[r], .traps (fun h => h hmemory rfl), fun _ => mem_singleton_self r⟩
    | some bytes =>
      rw [hser] at hread
      cases hfault : env.vectorFault with
      | some e =>
        exact ⟨[], (Logged.pure () n).congr (iff_of_true trivial (fun _ => Option.some_ne_none _)),
          nofun⟩
      | none =>
        refine ⟨[r], .ends (fun _ => Option.some_ne_none _) (fun r' hr' => ?_),
          fun _ => mem_singleton_self r⟩
        obtain rfl := mem_singleton.mp hr'
        exact hread (Option.some_ne_none _)

theorem namespaceConfig_length (metric : Metric) (timestamp : UInt64) :
    (namespaceConfig metric timestamp).length ≤ maxPayloadLength := by
  have hdigits : (DecimalText.digits timestamp.toNat).length ≤ 20 :=
    DecimalText.digits_length_le (by decide) (lt_trans timestamp.toNat_lt (by decide))
  have hmetric : metric.name.length ≤ 6 := by cases metric <;> decide
  have hopen : (ascii "\x7b\"metric\":\"").length = 11 := by decide
  have hmiddle : (ascii "\",\"created_at\":").length = 15 := by decide
  have hclose : (ascii "\x7d").length = 1 := by decide
  rw [namespaceConfig, length_append, length_append, length_append, length_append,
    hopen, hmiddle, hclose, maxPayloadLength]
  omega

/-- The namespace has its configuration. -/
abbrev Configured (env : WalEnv) (s : Node) (ns : Bytes) : Prop :=
  (s.getValueDupe env.toNodeEnv (metaKey ns)).isSome = true

theorem persistNamespaceConfig_logged (n : WalNode) (ns : Bytes) (metric : Metric) (timestamp : UInt64) :
    ∃ new, Logged (¬ Configured env n.node ns → KeyFits env n.node.accesses (metaKey ns))
      ((), VectorOps.persistNamespaceConfig env.toNodeEnv n.node ns metric timestamp) n.log new
      (n.persistNamespaceConfig env ns metric timestamp) := by
  rw [WalNode.persistNamespaceConfig, VectorOps.persistNamespaceConfig]
  by_cases hconfigured : Configured env n.node ns
  · rw [if_pos hconfigured, if_pos hconfigured]
    exact ⟨[], (Logged.pure () n).congr (iff_of_true trivial (fun h => absurd hconfigured h))⟩
  · rw [if_neg hconfigured, if_neg hconfigured]
    obtain ⟨new, hset, -⟩ := @setNoSync_logged env n (metaKey ns) _ false timestamp
      (namespaceConfig_length metric timestamp)
    exact ⟨new, Logged.congr (hset.map rfl) ⟨fun h _ => h, fun h => h hconfigured⟩⟩

theorem persistNamespaceConfig_accesses (s : Node) (ns : Bytes) (metric : Metric) (timestamp : UInt64) :
    (Configured env s ns →
      (VectorOps.persistNamespaceConfig env.toNodeEnv s ns metric timestamp).accesses = s.accesses) ∧
    (¬ Configured env s ns →
      (VectorOps.persistNamespaceConfig env.toNodeEnv s ns metric timestamp).accesses = s.accesses + 1) := by
  rw [VectorOps.persistNamespaceConfig]
  constructor
  · intro h
    rw [if_pos h]
  · intro h
    rw [if_neg h]
    by_cases haccepts : Accepts env s (metaKey ns)
    · rw [set_accepted haccepts]
      rfl
    · obtain ⟨e, hrefused⟩ := set_refused haccepts (namespaceConfig metric timestamp) false timestamp
      rw [hrefused]
      rfl

theorem encodeBqOwned_length (v : F32Slice) (idx : Option NamespaceIndex) :
    (encodeBqOwned env.toNodeEnv v idx).length ≤ (v.len + 7) / 8 + 8 := by
  cases idx with
  | none => exact le_trans (binaryQuantize_length v).le (Nat.le_add_right _ 8)
  | some idx => exact encodeBqLocked_length idx v

theorem finishVinsert_logged (n : WalNode) {args : VinsertArgs} {v : F32Slice}
    (hv : bytesToF32 args.vector = some v) (hvector : args.vector.length ≤ maxPayloadLength)
    (hns : args.namespace.length ≤ args.key.length) :
    ∃ new, Logged ((¬ Configured env n.node args.namespace →
          KeyFits env n.node.accesses (metaKey args.namespace)) ∧
        (env.vectorFault ≠ some .outOfMemory → args.key.length < 65536) ∧
        KeyFits env (VectorOps.persistNamespaceConfig env.toNodeEnv n.node args.namespace args.metric
          args.timestamp).accesses (bqKey args.key))
      ((), VectorOps.finishVinsert env.toNodeEnv n.node args v) n.log new (n.finishVinsert env args v) ∧
      (env.vectorFault = none → .vinsert args.key args.namespace args.metric.name
        (vinsertFlags args.worm args.isAsync) args.timestamp ∈ new) := by
  have hbq : ∀ idx, (encodeBqOwned env.toNodeEnv v idx).length ≤ maxPayloadLength := by
    intro idx
    have hlen := @encodeBqOwned_length env v idx
    have hbytes := bytesToF32_eq_some.mp hv
    rw [F32Slice.len, hbytes] at hlen
    rw [maxPayloadLength] at hvector ⊢
    omega
  obtain ⟨new, hconfig⟩ := @persistNamespaceConfig_logged env n args.namespace args.metric
    args.timestamp
  obtain ⟨new', hvinsert, hown⟩ := @appendVector_logged env
    ⟨VectorOps.persistNamespaceConfig env.toNodeEnv n.node args.namespace args.metric args.timestamp,
      n.log ++ new⟩ (.vinsert args.key args.namespace args.metric.name
        (vinsertFlags args.worm args.isAsync) args.timestamp) vinsert_readBack
  obtain ⟨new'', hcompanion, -⟩ := @setNoSync_logged env
    ⟨VectorOps.persistNamespaceConfig env.toNodeEnv n.node args.namespace args.metric args.timestamp,
      n.log ++ new ++ new'⟩ (bqKey args.key) _ args.worm args.timestamp
      (hbq (indexOf (VectorOps.persistNamespaceConfig env.toNodeEnv n.node args.namespace args.metric
        args.timestamp) args.namespace))
  rw [vinsert_serializes hns] at hvinsert
  exact ⟨new ++ (new' ++ new''), hconfig.bind (hvinsert.bind (hcompanion.map rfl)),
    fun h => mem_append_right _ (mem_append_left _ (hown h))⟩

/-! ## The commands -/

/-- A write that went well, and what is left to do. -/
theorem storeResponse_logged (n : WalNode) {f : WalNode → Option (Unit × WalNode)} {g : Node → Node}
    {fits : Prop} {new : List WalRecord} (h : Logged fits ((), g n.node) n.log new (f n)) :
    Logged fits (Executor.storeResponse (.ok (), n.node) g) n.log new (storeResponse (.ok (), n) f) :=
  h.map rfl

/-- The lengths that a `SET` writes. -/
def SetFits (env : WalEnv) (s : Node) (params : SetParams) : Prop :=
  KeyFits env s.accesses params.key ∧
    (Accepts env s params.key → ∀ reg, s.registry = some reg →
      CompanionFits env (s.accesses + 1) s.kv reg params.key params.value
        (env.clock (if env.attached then s.accesses else s.accesses + 1)))

theorem executeSet_logged (n : WalNode) {params : SetParams}
    (hvalue : params.value.length + 8 ≤ maxPayloadLength) :
    ∃ new, Logged (SetFits env n.node params) (Executor.executeSet env.toExecEnv n.node params) n.log new
      (n.executeSet env params) ∧
      ((Executor.executeSet env.toExecEnv n.node params).1 = .ok .ok →
        .set params.key params.value (.written params.worm) (env.clock n.node.accesses) ∈ new) := by
  obtain ⟨new, hset, hown⟩ := @setWithTimestamp_logged env n params.key params.value params.worm
    (env.clock n.node.accesses) hvalue
  rw [WalNode.executeSet, Executor.executeSet, WalNode.set, Node.set, SetFits]
  by_cases haccepts : Accepts env n.node params.key
  · have hresult : ∃ s, n.node.setWithTimestamp env.toNodeEnv params.key params.value params.worm
        (env.clock n.node.accesses) = (.ok (), s) ∧ (env.attached = false →
          s = stored n.node params.key params.value params.worm (env.clock n.node.accesses)) := by
      rw [Node.setWithTimestamp, set_accepted haccepts]
      refine ⟨_, rfl, fun h => ?_⟩
      rw [h]
      exact (withRegistry_absent ⟨_, []⟩ (fun _ => none) _).2
    obtain ⟨s, hresult, hdetached⟩ := hresult
    rw [hresult] at hset ⊢
    -- the executor's own part
    obtain ⟨new', hsync⟩ := withRegistry_logged ⟨s, n.log ++ new⟩ (!env.attached)
      (fun reg => @syncSet_logged env ⟨s, n.log ++ new⟩ reg params.key params.value params.worm
        (env.clock s.accesses) hvalue)
    refine ⟨new ++ new', Logged.congr (hset.bind (storeResponse_logged ⟨s, n.log ++ new⟩ (hsync.map rfl))) ?_,
      fun _ => mem_append_left _ (hown haccepts)⟩
    rw [and_assoc]
    refine and_congr_right (fun _ => ?_)
    cases hattached : env.attached with
    | true => simp
    | false =>
      rw [hdetached hattached]
      constructor
      · rintro ⟨-, h⟩ - reg hreg
        exact companionFits_stored.mp (h reg hreg rfl)
      · intro h
        exact ⟨fun _ _ _ hpresent => absurd hpresent Bool.false_ne_true,
          fun reg hreg _ => companionFits_stored.mpr (h haccepts reg hreg)⟩
  · obtain ⟨e, hrefused⟩ := set_refused haccepts params.value params.worm (env.clock n.node.accesses)
    have hsame : n.node.setWithTimestamp env.toNodeEnv params.key params.value params.worm
        (env.clock n.node.accesses) = (.error e, counted n.node) := by
      rw [Node.setWithTimestamp, hrefused]
    rw [hsame] at hset ⊢
    refine ⟨new, Logged.congr (hset.bind_pure ?_) ?_, fun hok => ?_⟩
    · cases e <;> rfl
    · exact and_congr_right (fun _ => iff_of_true (fun h => absurd h haccepts) (fun h => absurd h haccepts))
    · cases e <;> cases hok

/-- The lengths that a `DEL` writes. -/
def DeleteFits (env : WalEnv) (s : Node) (key : Bytes) : Prop :=
  (Deletable s.kv key → KeyFits env s.accesses key) ∧
    (Removes env s key → Syncs s key → Deletable s.kv (bqKey key) →
      KeyFits env (s.accesses + 1) (bqKey key)) ∧
    -- the executor does not ask whether the key was there
    (s.kv.get key = none → env.attached = false → Syncs s key → Deletable s.kv (bqKey key) →
      KeyFits env s.accesses (bqKey key))

theorem not_removes_absent {s : Node} {key : Bytes} (h : s.kv.get key = none) : ¬ Removes env s key := by
  rintro ⟨⟨content, hget, -⟩, -⟩
  cases h.symm.trans hget

/-- What `delete` comes to on the node. -/
theorem delete_removes (h : Removes env s key) :
    s.delete env.toNodeEnv key = (.ok (), (erased s key).withRegistry env.attached (fun reg =>
      (erased s key).syncVectorDeleteWithRegistry env.toNodeEnv reg key)) := by
  rw [Node.delete, remove_removes h]

theorem delete_absent (h : s.kv.get key = none) : s.delete env.toNodeEnv key = (.ok (), s) := by
  rw [Node.delete, remove_absent h]

theorem delete_fails (h : ¬ Removes env s key) (hlive : s.kv.get key ≠ none) :
    ∃ e s', s.delete env.toNodeEnv key = (.error e, s') := by
  obtain ⟨e, s', hfails⟩ := remove_fails h hlive
  exact ⟨e, s', by rw [Node.delete, hfails]⟩

theorem executeDelete_logged (n : WalNode) (key : Bytes) :
    ∃ new, Logged (DeleteFits env n.node key) (Executor.executeDelete env.toExecEnv n.node key) n.log new
      (n.executeDelete env key) ∧
      ((Executor.executeDelete env.toExecEnv n.node key).1 = .ok .ok → n.node.kv.get key ≠ none →
        .delete key ∈ new) := by
  obtain ⟨new, hdelete, hown⟩ := @delete_logged env n key
  rw [WalNode.executeDelete, Executor.executeDelete, DeleteFits]
  by_cases hgoes : Removes env n.node key ∨ n.node.kv.get key = none
  · have hresult : ∃ s, n.node.delete env.toNodeEnv key = (.ok (), s) ∧ (env.attached = false →
        (Removes env n.node key → s = erased n.node key) ∧ (n.node.kv.get key = none → s = n.node)) := by
      rcases hgoes with hremoves | hlive
      · refine ⟨_, delete_removes hremoves, fun h => ⟨fun _ => ?_, fun hnone => ?_⟩⟩
        · rw [h]
          exact (withRegistry_absent ⟨_, []⟩ (fun _ => none) _).2
        · exact absurd hremoves (not_removes_absent hnone)
      · exact ⟨_, delete_absent hlive, fun _ =>
          ⟨fun hremoves => absurd hremoves (not_removes_absent hlive), fun _ => rfl⟩⟩
    obtain ⟨s, hresult, hdetached⟩ := hresult
    rw [hresult] at hdelete ⊢
    obtain ⟨new', hsync⟩ := withRegistry_logged ⟨s, n.log ++ new⟩ (!env.attached)
      (fun reg => @syncDelete_logged env ⟨s, n.log ++ new⟩ reg key)
    refine ⟨new ++ new', Logged.congr (hdelete.bind (storeResponse_logged ⟨s, n.log ++ new⟩
      (hsync.map rfl))) ?_, fun _ hlive => ?_⟩
    · rw [and_assoc]
      refine and_congr_right (fun _ => ?_)
      -- an attached registry has been synced by the store
      cases hattached : env.attached with
      | true => simp
      | false =>
        rcases hgoes with hremoves | hlive
        · rw [(hdetached hattached).1 hremoves, deletable_erased]
          constructor
          · rintro ⟨-, h⟩
            exact ⟨fun _ ⟨reg, hreg, htouched⟩ hbq => h reg hreg rfl htouched hbq,
              fun hlive => absurd hremoves (not_removes_absent hlive)⟩
          · rintro ⟨h, -⟩
            exact ⟨fun _ hpresent => absurd hpresent Bool.false_ne_true,
              fun reg hreg _ htouched hbq => h hremoves ⟨reg, hreg, htouched⟩ hbq⟩
        · rw [(hdetached hattached).2 hlive]
          have hstays := @not_removes_absent env _ _ hlive
          constructor
          · rintro ⟨-, h⟩
            exact ⟨fun hremoves => absurd hremoves hstays,
              fun _ _ ⟨reg, hreg, htouched⟩ hbq => h reg hreg rfl htouched hbq⟩
          · rintro ⟨-, h⟩
            exact ⟨fun hremoves => absurd hremoves hstays,
              fun reg hreg _ htouched hbq => h hlive rfl ⟨reg, hreg, htouched⟩ hbq⟩
    · rcases hgoes with hremoves | hnone
      · exact mem_append_left _ (hown hremoves)
      · exact absurd hnone hlive
  · obtain ⟨hstays, hlive⟩ := not_or.mp hgoes
    obtain ⟨e, s', hfails⟩ := delete_fails hstays hlive
    rw [hfails] at hdelete ⊢
    refine ⟨new, Logged.congr (hdelete.bind_pure ?_) ?_, fun hok => ?_⟩
    · cases e <;> rfl
    · exact and_congr_right (fun _ => iff_of_true (fun h => absurd h hstays)
        ⟨fun h => absurd h hstays, fun h => absurd h hlive⟩)
    · cases e <;> cases hok

/-- What `applyVinsert` checks before it writes. -/
structure Checked (s : Node) (args : VinsertArgs) : Prop where
  vector : (bytesToF32 args.vector).isSome = true
  belongs : keyBelongsToNamespace args.key args.namespace = true
  dim : ((indexOf s args.namespace).bind NamespaceIndex.expectedDim).any
    (fun d => (args.vector.length / 4 : Nat) ≠ d) = false

/-- The lengths that a `VINSERT` writes. -/
def VinsertFits (env : WalEnv) (s : Node) (key ns : Bytes) : Prop :=
  KeyFits env s.accesses key ∧
    (Accepts env s key →
      (key = metaKey ns ∨ Configured env s ns → KeyFits env (s.accesses + 1) (bqKey key)) ∧
      (¬ (key = metaKey ns ∨ Configured env s ns) →
        KeyFits env (s.accesses + 1) (metaKey ns) ∧ KeyFits env (s.accesses + 2) (bqKey key)))

variable {ns : Bytes}

theorem configured_stored :
    Configured env
    (stored s key value isWorm timestamp) ns ↔ key = metaKey ns ∨ Configured env s ns := by
  rw [Configured, Configured, Node.getValueDupe, Node.getValueDupe]
  by_cases hkey : key = metaKey ns
  · have hget : (stored s key value isWorm timestamp).kv.get (metaKey ns) = some ⟨value, timestamp, isWorm⟩ := by
      rw [← hkey]
      exact ByteMap.get_insert_self _ _ _
    rw [hget]
    exact iff_of_true rfl (.inl hkey)
  · have hget : (stored s key value isWorm timestamp).kv.get (metaKey ns) = s.kv.get (metaKey ns) :=
      ByteMap.get_insert_of_ne _ _ (Ne.symm hkey)
    rw [hget, or_iff_right hkey]

theorem length_of_belongs (h : keyBelongsToNamespace key ns = true) : ns.length ≤ key.length := by
  rw [keyBelongsToNamespace, Bool.and_eq_true] at h
  exact ( isPrefixOf_iff_prefix.mp h.2).length_le

/-- A request that does not pass the checks. -/
theorem applyVinsert_unchecked (n : WalNode) {args : VinsertArgs} (h : ¬ Checked n.node args) :
    ∃ e, VectorOps.applyVinsert env.toNodeEnv n.node args = (.error e, n.node) ∧
      n.applyVinsert env args = some (.error e, n) := by
  rw [WalNode.applyVinsert, VectorOps.applyVinsert]
  cases hv : bytesToF32 args.vector with
  | none => exact ⟨_, rfl, rfl⟩
  | some v =>
    have hlen : v.len = args.vector.length / 4 := by rw [F32Slice.len, bytesToF32_eq_some.mp hv]
    dsimp only
    rw [hlen]
    cases hbelongs : keyBelongsToNamespace args.key args.namespace with
    | false => exact ⟨_, rfl, rfl⟩
    | true =>
      cases hdim : ((indexOf n.node args.namespace).bind NamespaceIndex.expectedDim).any
          (fun d => (args.vector.length / 4 : Nat) ≠ d) with
      | true => exact ⟨_, rfl, rfl⟩
      | false => exact absurd ⟨by rw [hv]; rfl, hbelongs, hdim⟩ h

/-- A request that passes them. -/
theorem applyVinsert_checked (n : WalNode) {args : VinsertArgs} (h : Checked n.node args) :
    ∃ v, bytesToF32 args.vector = some v ∧
      VectorOps.applyVinsert env.toNodeEnv n.node args =
        (match n.node.setWithTimestampNoVectorSync env.toNodeEnv args.key args.vector args.worm
            args.timestamp with
          | (.error e, s) => (.error (.store (insertError e)), s)
          | (.ok _, s) => (.ok (), VectorOps.finishVinsert env.toNodeEnv s args v)) ∧
      n.applyVinsert env args =
        (n.setWithTimestampNoVectorSync env args.key args.vector args.worm args.timestamp).bind fun
          | (.error e, n) => some (.error (.store (insertError e)), n)
          | (.ok _, n) => (n.finishVinsert env args v).map (fun (_, n) => (.ok (), n)) := by
  obtain ⟨v, hv⟩ := Option.isSome_iff_exists.mp h.vector
  have hlen : v.len = args.vector.length / 4 := by rw [F32Slice.len, bytesToF32_eq_some.mp hv]
  have hdim := h.dim
  rw [← hlen] at hdim
  refine ⟨v, hv, ?_, ?_⟩
  · rw [VectorOps.applyVinsert, hv]
    dsimp only
    rw [h.belongs, hdim]
    rfl
  · rw [WalNode.applyVinsert, hv]
    dsimp only
    rw [h.belongs, hdim]
    rfl

theorem applyVinsert_logged (n : WalNode) {args : VinsertArgs}
    (hvector : args.vector.length ≤ maxPayloadLength) :
    ∃ new, Logged (Checked n.node args → VinsertFits env n.node args.key args.namespace)
      (VectorOps.applyVinsert env.toNodeEnv n.node args) n.log new (n.applyVinsert env args) ∧
      ((VectorOps.applyVinsert env.toNodeEnv n.node args).1 = .ok () →
        .set args.key args.vector (.written args.worm) args.timestamp ∈ new ∧
        (env.vectorFault = none → .vinsert args.key args.namespace args.metric.name
          (vinsertFlags args.worm args.isAsync) args.timestamp ∈ new)) := by
  by_cases hchecked : Checked n.node args
  · obtain ⟨v, hv, hnode, hwal⟩ := @applyVinsert_checked env n _ hchecked
    rw [hnode, hwal, VinsertFits]
    obtain ⟨new, hset, hown⟩ := @setNoSync_logged env n args.key args.vector args.worm
      args.timestamp hvector
    by_cases haccepts : Accepts env n.node args.key
    · rw [set_accepted haccepts] at hset ⊢
      obtain ⟨new', hfinish, hvinsert⟩ := @finishVinsert_logged env
        ⟨stored n.node args.key args.vector args.worm args.timestamp, n.log ++ new⟩ _ _ hv hvector
        (length_of_belongs hchecked.belongs)
      refine ⟨new ++ new', Logged.congr (hset.bind (hfinish.map rfl)) ?_,
        fun _ => ⟨mem_append_left _ (hown haccepts), fun h => mem_append_right _ (hvinsert h)⟩⟩
      obtain ⟨hthere, hnew⟩ := @persistNamespaceConfig_accesses env
        (stored n.node args.key args.vector args.worm args.timestamp) args.namespace args.metric args.timestamp
      rw [configured_stored] at hthere hnew
      have hmemory := memory_of_fault haccepts.1
      dsimp only
      rw [configured_stored]
      constructor
      · rintro ⟨hkey, hconfig, -, hbq⟩ -
        refine ⟨hkey, fun _ => ⟨fun hconfigured => ?_, fun hconfigured => ⟨hconfig hconfigured, ?_⟩⟩⟩
        · rwa [hthere hconfigured] at hbq
        · rwa [hnew hconfigured] at hbq
      · intro h
        obtain ⟨hkey, hfits⟩ := h hchecked
        refine ⟨hkey, fun hconfigured => ((hfits haccepts).2 hconfigured).1, fun _ => hkey hmemory, ?_⟩
        by_cases hconfigured : args.key = metaKey args.namespace ∨ Configured env n.node args.namespace
        · rw [hthere hconfigured]
          exact (hfits haccepts).1 hconfigured
        · rw [hnew hconfigured]
          exact ((hfits haccepts).2 hconfigured).2
    · obtain ⟨e, hrefused⟩ := set_refused haccepts args.vector args.worm args.timestamp
      rw [hrefused] at hset ⊢
      refine ⟨new, Logged.congr (hset.bind_pure rfl) ?_, nofun⟩
      exact ⟨fun h _ => ⟨h, fun h' => absurd h' haccepts⟩, fun h => (h hchecked).1⟩
  · obtain ⟨e, hnode, hwal⟩ := @applyVinsert_unchecked env n _ hchecked
    rw [hnode, hwal]
    exact ⟨[], (Logged.pure (Except.error e) n).congr (iff_of_true trivial (fun h => absurd h hchecked)),
      nofun⟩

/-- The lengths that a `VDELETE` writes.  The companion may be deleted twice: with its key,
and by the operation itself when that has failed. -/
def VdeleteFits (env : WalEnv) (s : Node) (key : Bytes) : Prop :=
  (Deletable s.kv key → KeyFits env s.accesses key) ∧
    (s.kv.get key = none → (env.vectorFault ≠ some .outOfMemory → key.length < 65536) ∧
      (Deletable s.kv (bqKey key) → KeyFits env s.accesses (bqKey key))) ∧
    (Removes env s key → Deletable s.kv (bqKey key) →
      KeyFits env (s.accesses + 1) (bqKey key) ∧
        (env.attached = true → Syncs s key → env.fault (s.accesses + 1) ≠ none →
          KeyFits env (s.accesses + 2) (bqKey key)))

/-- The node once the key is gone, and with it the companion where an index has the key. -/
def afterErased (env : WalEnv) (s : Node) (key : Bytes) : Node :=
  (erased s key).withRegistry env.attached (fun reg =>
    (erased s key).syncVectorDeleteWithRegistry env.toNodeEnv reg key)

theorem afterErased_alone (h : ¬ (env.attached = true ∧ Syncs s key)) :
    (afterErased env s key).kv = (erased s key).kv ∧
    (afterErased env s key).accesses = s.accesses + 1 := by
  rw [afterErased, Node.withRegistry]
  split
  · rename_i reg hreg
    split
    · rename_i hattached
      have huntouched : ¬ (reg.syncRawDelete key).1 = true := fun htouched =>
        h ⟨hattached, reg, hreg, htouched⟩
      rw [Node.syncVectorDeleteWithRegistry, if_neg huntouched]
      exact ⟨rfl, rfl⟩
    · exact ⟨rfl, rfl⟩
  · exact ⟨rfl, rfl⟩

theorem afterErased_synced (hattached : env.attached = true) (h : Syncs s key) :
    ∃ reg, afterErased env s key =
      (Node.remove env.toNodeEnv { erased s key with registry := some reg } (bqKey key)).2 := by
  obtain ⟨reg, hreg, htouched⟩ := h
  refine ⟨(reg.syncRawDelete key).2, ?_⟩
  rw [afterErased, Node.withRegistry, show (erased s key).registry = some reg from hreg]
  dsimp only
  rw [if_pos hattached, Node.syncVectorDeleteWithRegistry, if_pos htouched]

theorem not_deletable_erase (kv : Kv) (key : Bytes) : ¬ Deletable (kv.erase key) key := by
  rintro ⟨content, hget, -⟩
  rw [ByteMap.get_erase_self] at hget
  cases hget

/-- What the second deletion of the companion finds, when the first one fitted. -/
theorem afterErased_fits (hfirst : env.attached = true → Syncs s key →
      Deletable s.kv (bqKey key) → KeyFits env (s.accesses + 1) (bqKey key)) :
    (Deletable (afterErased env s key).kv (bqKey key) →
        KeyFits env (afterErased env s key).accesses (bqKey key)) ↔
      (Deletable s.kv (bqKey key) → KeyFits env (s.accesses + 1) (bqKey key) ∧
        (env.attached = true → Syncs s key → env.fault (s.accesses + 1) ≠ none →
          KeyFits env (s.accesses + 2) (bqKey key))) := by
  by_cases hsyncs : env.attached = true ∧ Syncs s key
  · obtain ⟨hattached, hsyncs⟩ := hsyncs
    obtain ⟨reg, hafter⟩ := afterErased_synced hattached hsyncs
    by_cases hbq : Deletable s.kv (bqKey key)
    · obtain ⟨content, hget, hworm⟩ := deletable_erased.mpr hbq
      cases hfault : env.fault (s.accesses + 1) with
      | none =>
        rw [remove_removes (s := { erased s key with registry := some reg })
          ⟨⟨content, hget, hworm⟩, hfault⟩] at hafter
        rw [hafter]
        exact iff_of_true (fun h => absurd h (not_deletable_erase _ _))
          (fun _ => ⟨hfirst hattached hsyncs hbq, fun _ _ h => absurd rfl h⟩)
      | some e =>
        have hfails : (Node.remove env.toNodeEnv { erased s key with registry := some reg }
            (bqKey key)).2 = { erased s key with registry := some reg, accesses := s.accesses + 2 } := by
          rw [Node.remove]
          dsimp only
          rw [hget]
          dsimp only
          rw [if_neg (by rw [hworm]; exact Bool.false_ne_true), show (erased s key).accesses =
            s.accesses + 1 from rfl, hfault]
        rw [hafter, hfails]
        refine ⟨fun h _ => ⟨hfirst hattached hsyncs hbq, fun _ _ _ => h ⟨content, hget, hworm⟩⟩, fun h _ => ?_⟩
        exact (h hbq).2 hattached hsyncs (Option.some_ne_none e)
    · have hsame : Deletable (afterErased env s key).kv (bqKey key) → Deletable s.kv (bqKey key) := by
        rw [hafter, Node.remove]
        dsimp only
        split
        · exact deletable_erased.mp
        · split
          · exact deletable_erased.mp
          · split
            · exact deletable_erased.mp
            · exact fun h => absurd h (not_deletable_erase _ _)
      exact iff_of_true (fun h => absurd (hsame h) hbq) (fun h => absurd h hbq)
  · obtain ⟨hkv, haccesses⟩ := afterErased_alone hsyncs
    rw [hkv, haccesses, deletable_erased]
    exact ⟨fun h hbq => ⟨h hbq, fun hattached hsync => absurd ⟨hattached, hsync⟩ hsyncs⟩,
      fun h hbq => (h hbq).1⟩

theorem applyVdelete_logged (n : WalNode) (key ns : Bytes) (replicate : Bool) :
    ∃ new, Logged (keyBelongsToNamespace key ns = true → VdeleteFits env n.node key)
      (VectorOps.applyVdelete env.toNodeEnv n.node key ns replicate) n.log new
      (n.applyVdelete env key ns replicate) ∧
      ((VectorOps.applyVdelete env.toNodeEnv n.node key ns replicate).1 = .ok () →
        (n.node.kv.get key ≠ none → .delete key ∈ new) ∧
        (env.vectorFault = none → .vdelete key ns ∈ new)) := by
  rw [WalNode.applyVdelete, VectorOps.applyVdelete, VdeleteFits]
  cases hbelongs : keyBelongsToNamespace key ns with
  | false =>
    exact ⟨[], (Logged.pure (Except.error VectorOpError.keyMissingNamespace) n).congr
      (iff_of_true trivial (fun h => absurd h Bool.false_ne_true)), by rintro ⟨⟩⟩
  | true =>
    rw [if_neg (by simp), if_neg (by simp)]
    obtain ⟨new, hdelete, hown⟩ := @delete_logged env n key
    -- the vector's record follows unless the delete of the key fails
    by_cases hgoes : Removes env n.node key ∨ n.node.kv.get key = none
    · have hresult : ∃ s, n.node.delete env.toNodeEnv key = (.ok (), s) := by
        rcases hgoes with hremoves | hlive
        · exact ⟨_, delete_removes hremoves⟩
        · exact ⟨_, delete_absent hlive⟩
      obtain ⟨s, hresult⟩ := hresult
      rw [hresult] at hdelete ⊢
      obtain ⟨new', hvdelete, hownVector⟩ := @appendVector_logged env ⟨s, n.log ++ new⟩
        (.vdelete key ns) vdelete_readBack
      rw [vdelete_serializes (length_of_belongs hbelongs)] at hvdelete
      obtain ⟨new'', hcompanion⟩ := @deleteCompanion_logged env ⟨s, n.log ++ new ++ new'⟩ key
      refine ⟨new ++ (new' ++ new''), Logged.congr (hdelete.bind (hvdelete.bind (hcompanion.map ?_))) ?_,
        fun _ => ⟨fun hlive => ?_, fun h => mem_append_right _ (mem_append_left _ (hownVector h))⟩⟩
      · dsimp only
        generalize s.delete env.toNodeEnv (bqKey key) = result
        obtain ⟨result, s'⟩ := result
        cases result with
        | ok _ => rfl
        | error e => cases e <;> rfl
      · dsimp only
        rcases hgoes with hremoves | hlive
        · obtain rfl : s = afterErased env n.node key := by
            rw [delete_removes hremoves] at hresult
            exact (Prod.mk.inj hresult).2.symm
          have hmemory := memory_of_fault hremoves.2
          constructor
          · rintro ⟨⟨hkey, hsynced⟩, -, hbq⟩ -
            exact ⟨hkey, fun hnone => absurd hremoves (not_removes_absent hnone),
              fun _ => (afterErased_fits (hsynced hremoves)).mp hbq⟩
          · intro h
            obtain ⟨hkey, -, hbq⟩ := h rfl
            have hfirst := fun (_ : env.attached = true) (_ : Syncs n.node key) hlive =>
              (hbq hremoves hlive).1
            exact ⟨⟨hkey, fun _ => hfirst⟩, fun _ => hkey hremoves.1 hmemory,
              (afterErased_fits hfirst).mpr (hbq hremoves)⟩
        · obtain rfl : s = n.node := by
            rw [delete_absent hlive] at hresult
            exact (Prod.mk.inj hresult).2.symm
          have hstays := @not_removes_absent env _ _ hlive
          constructor
          · rintro ⟨⟨hkey, -⟩, hvector, hbq⟩ -
            exact ⟨hkey, fun _ => ⟨hvector, hbq⟩, fun hremoves => absurd hremoves hstays⟩
          · intro h
            obtain ⟨hkey, habsent, -⟩ := h rfl
            exact ⟨⟨hkey, fun hremoves => absurd hremoves hstays⟩, habsent hlive⟩
      · rcases hgoes with hremoves | hnone
        · exact mem_append_left _ (hown hremoves)
        · exact absurd hnone hlive
    · obtain ⟨hstays, hlive⟩ := not_or.mp hgoes
      obtain ⟨e, s', hfails⟩ := delete_fails hstays hlive
      rw [hfails] at hdelete ⊢
      refine ⟨new, Logged.congr (hdelete.bind_pure rfl) ?_, by rintro ⟨⟩⟩
      exact ⟨fun h _ => ⟨h.1, fun hnone => absurd hnone hlive, fun hremoves => absurd hremoves hstays⟩,
        fun h => ⟨(h rfl).1, fun hremoves => absurd hremoves hstays⟩⟩

end WalNode
end WormDB
