import WormDB.AgentMemory
import WormDB.ExecutorGate
import WormDB.Witness

/-! # The counters of `mem_drop`

`mem_drop` deletes the keys of a namespace, one prefix after the other, and reports how many
it deleted, how many were refused as WORM and how many deletes failed otherwise.  The
refusals are counted over all prefixes and are taken off the keys of each prefix again, so
that a refusal under the first prefix is taken off three times.

The report is right when no delete under the first two prefixes is refused or fails
(`drop_counts`); the documents of a namespace are WORM unless asked otherwise, and dropping
one traps (`drop_traps`). -/
namespace WormDB
open List ByteCodec DecimalText PrefixMap NamespaceRegistry Auth

namespace NamespaceRegistry

def remove (reg : NamespaceRegistry) («namespace» : Bytes) : NamespaceRegistry where
  entries := reg.entries.filter (fun entry => entry.1 ≠ «namespace»)
  nodup := reg.nodup.sublist (filter_sublist.map Prod.fst)

/-- Which companions follow a deletion is a matter of the namespaces only. -/
theorem syncRawDelete_mapEntries (reg : NamespaceRegistry)
    (f : Bytes → NamespaceIndex → NamespaceIndex) (key : Bytes) :
    ((reg.mapEntries f).syncRawDelete key).1 = (reg.syncRawDelete key).1 := by
  have hany : ∀ p : Bytes → Bool, (reg.mapEntries f).entries.any (fun entry => p entry.1) =
      reg.entries.any (fun entry => p entry.1) := by
    intro p
    rw [mapEntries, any_map]
    rfl
  have hmay : (reg.mapEntries f).mayMatchRegisteredNamespace key =
      reg.mayMatchRegisteredNamespace key := by
    rw [mayMatchRegisteredNamespace, mayMatchRegisteredNamespace,
      hany (fun ns => decide (ns ≠ []) && ns.head? == key.head?)]
  rw [syncRawDelete, syncRawDelete, hmay]
  split
  · exact hany (fun ns => ns.isPrefixOf key)
  · rfl

theorem syncRawDelete_syncRawDelete (reg : NamespaceRegistry) (key k : Bytes) :
    ((reg.syncRawDelete key).2.syncRawDelete k).1 = (reg.syncRawDelete k).1 := by
  rw [show (reg.syncRawDelete key).2 = if reg.mayMatchRegisteredNamespace key then
    reg.mapEntries (fun ns idx => if ns.isPrefixOf key then (idx.markTombstoneLocked key).2 else idx)
    else reg from by rw [syncRawDelete]; split <;> rfl]
  split
  · exact syncRawDelete_mapEntries reg _ k
  · rfl

end NamespaceRegistry

namespace AgentMemory

/-! ## The procedure -/

@[ext]
structure DropCounts where
  deleted : Nat
  skippedWorm : Nat
  errors : Nat

/-- Subtraction of `usize`: the process ends below zero. -/
def subUsize (a b : Nat) : MemM Nat := if b ≤ a then pure (a - b) else exit .trap

def hasIndex (s : Node) (ns : Bytes) : Bool :=
  s.registry.any (fun reg => (reg.get (vecPrefix ns)).isSome)

/-- The index goes away, if there is one. -/
def withoutIndex (s : Node) (ns : Bytes) : Node :=
  if hasIndex s ns then { s with registry := s.registry.map (fun reg => reg.remove (vecPrefix ns)) } else s

def dropIndex (ns : Bytes) : MemM Bool := fun c =>
  (.ok (hasIndex c.node ns), { c with node := withoutIndex c.node ns })

def boolText (b : Bool) : Bytes := if b then ascii "true" else ascii "false"

def dropText (ns : Bytes) (indexDropped : Bool) (counts : DropCounts) : Bytes :=
  ascii "\x7b\"namespace\":" ++ Witness.jsonString ns ++ ascii ",\"index_dropped\":" ++
    boolText indexDropped ++ ascii ",\"deleted\":" ++ digits counts.deleted ++
    ascii ",\"skipped_worm\":" ++ digits counts.skippedWorm ++ ascii ",\"errors\":" ++
    digits counts.errors ++ ascii "\x7d"

/-- The prefixes whose keys are collected, in this order. -/
def dropPrefixes (ns : Bytes) : List Bytes := [memPrefix ns, vecPrefix ns, bqPrefix ns]

section
variable (env : MemEnv)

def dropKey (counts : DropCounts) (key : Bytes) : MemM DropCounts := do
  match ← deleteDurable env key with
  | .ok () => pure counts
  | .error .wormViolation => pure { counts with skippedWorm := counts.skippedWorm + 1 }
  | .error _ => pure { counts with errors := counts.errors + 1 }

/-- The counters are those of all prefixes so far when they are taken off this one's keys. -/
def dropPrefix (counts : DropCounts) (p : Bytes) : MemM DropCounts := do
  let hits ← scanCallback env p
  let keys := hits.map ScanResult.key
  let counts ← keys.foldlM (dropKey env) counts
  let notSkipped ← subUsize keys.length counts.skippedWorm
  let removed ← subUsize notSkipped counts.errors
  pure { counts with deleted := counts.deleted + removed }

def memDrop (auth : AuthContext) (args : List Bytes) : MemM Response := do
  let ns ← arg args 0 "mem_drop requires: <ns>"
  ensure (validateNs ns) "mem_drop: invalid ns"
  requireNamespace auth ns .delete
  let indexDropped ← dropIndex ns
  let counts ← (dropPrefixes ns).foldlM (dropPrefix env) ⟨0, 0, 0⟩
  let counts ← dropKey env counts (configKey ns)
  pure (.value (some (dropText ns indexDropped counts)))

end

variable {c : UInt8}

/-- Two texts that go on alike after the first `c` are the same up to it. -/
theorem upTo_inj {x x' y y' : Bytes} (hx : c ∉ x) (hx' : c ∉ x')
    (h : x ++ c :: y = x' ++ c :: y') : x = x' ∧ y = y' := by
  induction x generalizing x' with
  | nil =>
    cases x' with
    | nil => exact ⟨rfl, (cons.inj h).2⟩
    | cons d x' => exact absurd ((cons.inj h).1 ▸ mem_cons_self) hx'
  | cons d x ih =>
    cases x' with
    | nil => exact absurd ((cons.inj h).1 ▸ mem_cons_self) hx
    | cons d' x' =>
      obtain ⟨rfl, htail⟩ := cons.inj h
      obtain ⟨rfl, rfl⟩ := ih (fun hm => hx (mem_cons_of_mem _ hm))
        (fun hm => hx' (mem_cons_of_mem _ hm)) htail
      exact ⟨rfl, rfl⟩

theorem digits_plain (hc : digitOf c = none) (n : Nat) : c ∉ digits n := by
  intro hmem
  obtain ⟨d, hd, rfl⟩ := mem_digits hmem
  rw [digitOf_digitByte hd] at hc
  cases hc

/-- The counters can be read off the text. -/
theorem dropText_inj {ns : Bytes} {indexDropped : Bool} {counts counts' : DropCounts}
    (h : dropText ns indexDropped counts = dropText ns indexDropped counts') : counts = counts' := by
  have hshape : ∀ counts : DropCounts, dropText ns indexDropped counts =
      (ascii "\x7b\"namespace\":" ++ Witness.jsonString ns ++ ascii ",\"index_dropped\":" ++
        boolText indexDropped ++ ascii ",\"deleted\":") ++ (digits counts.deleted ++ 44 ::
          (ascii "\"skipped_worm\":" ++ (digits counts.skippedWorm ++ 44 ::
            (ascii "\"errors\":" ++ (digits counts.errors ++ 125 :: []))))) := by
    intro counts
    rw [dropText, show ascii ",\"skipped_worm\":" = 44 :: ascii "\"skipped_worm\":" from by decide,
      show ascii ",\"errors\":" = 44 :: ascii "\"errors\":" from by decide,
      show ascii "\x7d" = [125] from by decide]
    simp only [append_assoc, cons_append]
  rw [hshape, hshape] at h
  obtain ⟨hdeleted, hrest⟩ := upTo_inj (digits_plain (by decide) _) (digits_plain (by decide) _)
    (append_cancel_left h)
  obtain ⟨hskipped, hrest⟩ := upTo_inj (digits_plain (by decide) _) (digits_plain (by decide) _)
    (append_cancel_left hrest)
  obtain ⟨herrors, -⟩ := upTo_inj (digits_plain (by decide) _) (digits_plain (by decide) _)
    (append_cancel_left hrest)
  exact DropCounts.ext (digits_inj hdeleted) (digits_inj hskipped) (digits_inj herrors)

/-! ## What the report should say -/

def liveKeys (s : Node) (p : Bytes) : List Bytes := (liveHits s p).map ScanResult.key

/-- The live keys that a drop collects. -/
def dropKeys (s : Node) (ns : Bytes) : List Bytes := (dropPrefixes ns).flatMap (liveKeys s)

def isRefused (s : Node) (key : Bytes) : Bool := (s.kv.get key).any Content.isWorm
def isMutable (s : Node) (key : Bytes) : Bool := (s.kv.get key).any (fun content => !content.isWorm)
def isLive (s : Node) (key : Bytes) : Bool := (s.kv.get key).isSome

/-- The counters are those of a drop from one node to another: the keys under the three
prefixes that are gone, the WORM keys, and the mutable keys that are still there. -/
structure Reported (s s' : Node) (ns : Bytes) (counts : DropCounts) : Prop where
  deleted : counts.deleted = (dropKeys s ns).countP (fun key => !isLive s' key)
  skippedWorm : counts.skippedWorm = (dropKeys s ns ++ [configKey ns]).countP (isRefused s)
  errors : counts.errors =
    (dropKeys s ns ++ [configKey ns]).countP (fun key => isMutable s key && isLive s' key)

/-- The call returns, with the right counters. -/
def ReportsRight (env : MemEnv) (auth : AuthContext) (args : List Bytes) (c : MemCtx) (ns : Bytes) : Prop :=
  ∃ counts c', memDrop env auth args c =
      (.ok (.value (some (dropText ns (hasIndex c.node ns) counts))), c') ∧
    Reported c.node c'.node ns counts

/-! ## When it does -/

section
variable (env : MemEnv)

/-- An index follows the deletion of the key, and the store takes its companion away. -/
def isFollowed (s : Node) (key : Bytes) : Bool :=
  env.attached && s.registry.any (fun reg => (reg.syncRawDelete key).1)

/-- There is a companion that the deletion of the key would take away. -/
def isCompanionDue (s : Node) (key : Bytes) : Bool := isFollowed env s key && isMutable s (bqKey key)

/-- The accesses of a delete. -/
def cost (s : Node) (key : Bytes) : Nat := 1 + (isCompanionDue env s key).toNat

/-- Each of the keys, from an access on, is mutable and its delete does not fail, and none of
the companions under the prefix goes with it. -/
def Undisturbed (s : Node) (p : Bytes) : Nat → List Bytes → Prop
  | _, [] => True
  | n, key :: rest =>
      isMutable s key = true ∧ env.fault n = none ∧
        (isCompanionDue env s key = true → p <+: bqKey key → env.fault (n + 1) ≠ none) ∧
        Undisturbed s p (n + cost env s key) rest

/-- The deletes under the first two prefixes are undisturbed, with the keys of the third as the
companions that they spare. -/
def Calm (s : Node) (ns : Bytes) : Prop :=
  Undisturbed env (withoutIndex s ns) (bqPrefix ns) s.accesses
    (liveKeys s (memPrefix ns) ++ liveKeys s (vecPrefix ns))

/-- No key under the prefixes is in the segments only. -/
def NoneShown (s : Node) (ns : Bytes) : Prop := ∀ p ∈ dropPrefixes ns, shownHits env s p = []

/-- No key under the prefixes is in the segments at all. -/
def NoneFrozen (ns : Bytes) : Prop := ∀ p ∈ dropPrefixes ns, env.frozenHits p = []

end

/-! ## One delete -/

section
variable {env : MemEnv}

/-- A delete that took the key away, and the companion where it follows. -/
structure Removed (env : MemEnv) (key : Bytes) (s s' : Node) : Prop where
  gone : s'.kv.get key = none
  companion : s'.kv.get (bqKey key) = s.kv.get (bqKey key) ∨ s'.kv.get (bqKey key) = none
  taken : s'.kv.get (bqKey key) = s.kv.get (bqKey key) ↔
    (isCompanionDue env s key = true → env.fault (s.accesses + 1) ≠ none)
  others : ∀ k, k ≠ key → k ≠ bqKey key → s'.kv.get k = s.kv.get k
  followed : ∀ k, isFollowed env s' k = isFollowed env s k
  accesses : s'.accesses = s.accesses + cost env s key

variable {key : Bytes}

theorem bqKey_inj {key' : Bytes} : bqKey key = bqKey key' ↔ key = key' := append_right_inj _

variable {s : Node}

theorem mutable_iff :
    isMutable s key = true ↔ ∃ content, s.kv.get key = some content ∧ content.isWorm = false := by
  rw [isMutable, Option.any_eq_true]
  simp only [Bool.not_eq_true']

theorem refused_iff :
    isRefused s key = true ↔ ∃ content, s.kv.get key = some content ∧ content.isWorm = true := by
  rw [isRefused, Option.any_eq_true]

/-- A key is not there, WORM or mutable. -/
theorem key_cases (s : Node) (key : Bytes) :
    s.kv.get key = none ∨ isRefused s key = true ∨ isMutable s key = true := by
  rw [refused_iff, mutable_iff]
  cases hget : s.kv.get key with
  | none => exact .inl rfl
  | some content =>
    cases hworm : content.isWorm with
    | true => exact .inr (.inl ⟨content, rfl, hworm⟩)
    | false => exact .inr (.inr ⟨content, rfl, hworm⟩)

theorem remove_absent (h : s.kv.get key = none) : s.remove env.toNodeEnv key = (.ok false, s) := by
  rw [Node.remove, h]

theorem remove_refused (h : isRefused s key = true) :
    s.remove env.toNodeEnv key = (.error .wormViolation, s) := by
  obtain ⟨content, hget, hworm⟩ := refused_iff.mp h
  rw [Node.remove, hget]
  dsimp only
  rw [if_pos hworm]

theorem remove_mutable (h : isMutable s key = true) :
    s.remove env.toNodeEnv key =
      match env.fault s.accesses with
      | some e => (.error e, { s with accesses := s.accesses + 1 })
      | none => (.ok true, { s with accesses := s.accesses + 1, kv := s.kv.erase key }) := by
  obtain ⟨content, hget, hworm⟩ := mutable_iff.mp h
  rw [Node.remove, hget]
  exact if_neg (by rw [hworm]; exact Bool.false_ne_true)

/-- The node when the key is gone and no index has followed yet. -/
def erased (s : Node) (key : Bytes) : Node :=
  { s with accesses := s.accesses + 1, kv := s.kv.erase key }

theorem companionDue_iff : isCompanionDue env s key = true ↔
    isFollowed env s key = true ∧ isMutable s (bqKey key) = true := by
  rw [isCompanionDue, Bool.and_eq_true]

variable {k : Bytes}

theorem erased_others (h : k ≠ key) :
    (erased s key).kv.get k = s.kv.get k := ByteMap.get_erase_of_ne _ h

variable {s' : Node}

/-- No companion goes when none is due. -/
theorem removed_alone (hkv : s'.kv = s.kv.erase key)
    (haccesses : s'.accesses = s.accesses + 1) (hdue : isCompanionDue env s key = false)
    (hfollowed : ∀ k, isFollowed env s' k = isFollowed env s k) : Removed env key s s' where
  gone := by rw [hkv, ByteMap.get_erase_self]
  companion := .inl (by rw [hkv, ByteMap.get_erase_of_ne _ (bqKey_ne key)])
  taken := by
    rw [hkv, ByteMap.get_erase_of_ne _ (bqKey_ne key), hdue]
    simp
  others k hk _ := by rw [hkv, ByteMap.get_erase_of_ne _ hk]
  followed := hfollowed
  accesses := by rw [haccesses, cost, hdue]; rfl

/-- The companion's turn, when an index has followed the deletion. -/
theorem companion_removed {reg : NamespaceRegistry} (hfollowed : isFollowed env s key = true)
    (hreg : ∀ k, ∀ s' : Node, s'.registry = some reg → isFollowed env s' k = isFollowed env s k) :
    Removed env key s
    (({ erased s key with registry := some reg }).remove env.toNodeEnv (bqKey key)).2 := by
  have hget : ({ erased s key with registry := some reg }).kv.get (bqKey key) = s.kv.get (bqKey key) :=
    erased_others (bqKey_ne key)
  have hgone : (s.kv.erase key).get key = none := ByteMap.get_erase_self _ _
  rcases key_cases s (bqKey key) with habsent | hrefused | hmut
  · -- no companion: the second delete finds nothing
    rw [remove_absent (hget.trans habsent)]
    refine removed_alone rfl rfl ?_ (fun k => hreg k _ rfl)
    rw [isCompanionDue, isMutable, habsent, Option.any_none, Bool.and_false]
  · -- a WORM companion stays
    obtain ⟨content, hcontent, hworm⟩ := refused_iff.mp hrefused
    rw [remove_refused (refused_iff.mpr ⟨content, hget.trans hcontent, hworm⟩)]
    refine removed_alone rfl rfl ?_ (fun k => hreg k _ rfl)
    rw [isCompanionDue, isMutable, hcontent, Option.any_some, hworm]
    exact Bool.and_false _
  · -- a mutable companion goes, unless the access to it fails
    obtain ⟨content, hcontent, hworm⟩ := mutable_iff.mp hmut
    have hdue : isCompanionDue env s key = true := companionDue_iff.mpr ⟨hfollowed, hmut⟩
    rw [remove_mutable (mutable_iff.mpr ⟨content, hget.trans hcontent, hworm⟩)]
    have haccess : ({ erased s key with registry := some reg } : Node).accesses = s.accesses + 1 := rfl
    rw [haccess]
    cases hfault : env.fault (s.accesses + 1) with
    | some e =>
      exact
        { gone := hgone
          companion := .inl hget
          taken := iff_of_true hget (fun _ => by rw [hfault]; exact Option.some_ne_none e)
          others := fun k hk _ => erased_others hk
          followed := fun k => hreg k _ rfl
          accesses := by rw [cost, hdue]; rfl }
    | none =>
      have htaken : ((s.kv.erase key).erase (bqKey key)).get (bqKey key) = none :=
        ByteMap.get_erase_self _ _
      refine
        { gone := ?_
          companion := .inr htaken
          taken := iff_of_false (fun h => ?_) (fun h => h hdue hfault)
          others := fun k hk hbq => ?_
          followed := fun k => hreg k _ rfl
          accesses := by rw [cost, hdue]; rfl }
      · exact (ByteMap.get_erase_of_ne _ (bqKey_ne key).symm).trans hgone
      · exact nomatch (htaken.symm.trans h).trans hcontent
      · exact (ByteMap.get_erase_of_ne _ hbq).trans (ByteMap.get_erase_of_ne _ hk)

/-- What the store does to its indexes, and to the companion, after a delete. -/
theorem sync_removed : Removed env key s ((erased s key).withRegistry env.attached
      (fun reg => (erased s key).syncVectorDeleteWithRegistry env.toNodeEnv reg key)) := by
  rw [Node.withRegistry]
  split
  · rename_i reg hreg
    have hreg' : s.registry = some reg := hreg
    split
    · rename_i hattached
      have hfollow : ∀ k, ∀ s' : Node, s'.registry = some (reg.syncRawDelete key).2 →
          isFollowed env s' k = isFollowed env s k := by
        intro k s' hs'
        rw [isFollowed, isFollowed, hs', hreg', Option.any_some, Option.any_some,
          syncRawDelete_syncRawDelete]
      have hthis : isFollowed env s key = (reg.syncRawDelete key).1 := by
        rw [isFollowed, hattached, hreg', Option.any_some, Bool.true_and]
      rw [Node.syncVectorDeleteWithRegistry]
      by_cases hfollowed : (reg.syncRawDelete key).1 = true
      · rw [if_pos hfollowed]
        exact companion_removed (hthis.trans hfollowed) (fun k s' hs' => hfollow k s' hs')
      · rw [if_neg hfollowed]
        refine removed_alone rfl rfl ?_ (fun k => hfollow k _ rfl)
        rw [isCompanionDue, hthis, Bool.eq_false_of_not_eq_true hfollowed, Bool.false_and]
    · rename_i hattached
      refine removed_alone rfl rfl ?_ (fun _ => rfl)
      rw [isCompanionDue, isFollowed, Bool.eq_false_of_not_eq_true hattached, Bool.false_and,
        Bool.false_and]
  · rename_i hreg
    have hreg' : s.registry = none := hreg
    refine removed_alone rfl rfl ?_ (fun _ => rfl)
    rw [isCompanionDue, isFollowed, hreg', Option.any_none, Bool.and_false, Bool.false_and]

/-- **What a delete of a procedure does.** -/
inductive DeleteCase (env : MemEnv) (key : Bytes) (c : MemCtx) : Except StoreError Unit × MemCtx → Prop
  | absent {s : Node} (h : c.node.kv.get key = none) (hkv : s.kv = c.node.kv)
      (hreg : s.registry = c.node.registry) (haccesses : s.accesses = c.node.accesses) :
      DeleteCase env key c (.ok (), { c with node := s })
  | refused (h : isRefused c.node key = true) : DeleteCase env key c (.error .wormViolation, c)
  | failed {e : StoreError} (h : isMutable c.node key = true) (hfault : env.fault c.node.accesses = some e) :
      DeleteCase env key c (.error e, { c with node := { c.node with accesses := c.node.accesses + 1 } })
  | removed {s : Node} (h : isMutable c.node key = true) (hfault : env.fault c.node.accesses = none)
      (hs : Removed env key c.node s) : DeleteCase env key c (.ok (), { c with node := s })

theorem replicate_same (s : Node) (frame : Command) :
    (s.replicate env.toNodeEnv true frame).kv = s.kv ∧
      (s.replicate env.toNodeEnv true frame).registry = s.registry ∧
      (s.replicate env.toNodeEnv true frame).accesses = s.accesses := by
  rw [Node.replicate]
  split
  · exact ⟨rfl, rfl, rfl⟩
  · exact ⟨rfl, rfl, rfl⟩

theorem Removed.replicate (h : Removed env key s s') (frame : Command) :
    Removed env key s (s'.replicate env.toNodeEnv true frame) := by
  obtain ⟨hkv, hreg, haccesses⟩ := @replicate_same env s' frame
  exact
    { gone := by rw [hkv]; exact h.gone
      companion := by rw [hkv]; exact h.companion
      taken := by rw [hkv]; exact h.taken
      others := fun k hk hbq => by rw [hkv]; exact h.others k hk hbq
      followed := fun k => by rw [← h.followed k, isFollowed, isFollowed, hreg]
      accesses := haccesses.trans h.accesses }

theorem deleteDurable_cases (key : Bytes) (c : MemCtx) :
    ∃ r c', deleteDurable env key c = (.ok r, c') ∧ DeleteCase env key c (r, c') := by
  rw [deleteDurable, Node.delete]
  rcases key_cases c.node key with habsent | hrefused | hmut
  · rw [remove_absent habsent]
    obtain ⟨hkv, hreg, haccesses⟩ := @replicate_same env c.node (.delete key)
    exact ⟨_, _, rfl, .absent habsent hkv hreg haccesses⟩
  · rw [remove_refused hrefused]
    exact ⟨_, _, rfl, .refused hrefused⟩
  · rw [remove_mutable hmut]
    cases hfault : env.fault c.node.accesses with
    | some e => exact ⟨_, _, rfl, .failed hmut hfault⟩
    | none => exact ⟨_, _, rfl, .removed hmut hfault (sync_removed.replicate _)⟩

/-! ## The keys of one prefix -/

variable {c c' : MemCtx}

theorem dropKey_ok (counts : DropCounts)
    (h : deleteDurable env key c = (.ok (.ok ()), c')) : dropKey env counts key c =
    (.ok counts, c') :=
  MemM.bind_ok h _

theorem dropKey_worm (counts : DropCounts)
    (h : deleteDurable env key c = (.ok (.error .wormViolation), c')) :
    dropKey env counts key c = (.ok { counts with skippedWorm := counts.skippedWorm + 1 }, c') :=
  MemM.bind_ok h _

theorem dropKey_error {e : StoreError} (counts : DropCounts)
    (h : deleteDurable env key c = (.ok (.error e), c')) (he : e ≠ .wormViolation) :
    dropKey env counts key c = (.ok { counts with errors := counts.errors + 1 }, c') := by
  refine (MemM.bind_ok h _).trans ?_
  cases e with
  | wormViolation => exact absurd rfl he
  | keyNotFound | outOfMemory | ioError | corruption => rfl

/-- What the deletes of some keys have done. -/
structure Pass (env : MemEnv) (keys : List Bytes) (counts counts' : DropCounts) (s s' : Node) : Prop where
  deleted : counts'.deleted = counts.deleted
  skippedWorm : counts'.skippedWorm = counts.skippedWorm + keys.countP (isRefused s)
  errors : counts'.errors = counts.errors + keys.countP (fun key => isMutable s key && isLive s' key)
  shrinks : ∀ key, s'.kv.get key = s.kv.get key ∨ s'.kv.get key = none
  refused : ∀ key, isRefused s key = true → s'.kv.get key = s.kv.get key
  others : ∀ key, key ∉ keys → (∀ k ∈ keys, key ≠ bqKey k) → s'.kv.get key = s.kv.get key
  followed : ∀ key, isFollowed env s' key = isFollowed env s key
  undisturbed : ∀ p, Undisturbed env s p s.accesses keys ↔
    (∀ key ∈ keys, isLive s' key = false) ∧
      ∀ key ∈ keys, p <+: bqKey key → s'.kv.get (bqKey key) = s.kv.get (bqKey key)
  accesses : ∀ p, Undisturbed env s p s.accesses keys →
    s'.accesses = s.accesses + (keys.map (cost env s)).sum

/-- Two nodes are the same to the deletes of a key. -/
structure SameFor (env : MemEnv) (s s' : Node) (key : Bytes) : Prop where
  get : s'.kv.get key = s.kv.get key
  companion : s'.kv.get (bqKey key) = s.kv.get (bqKey key)
  followed : isFollowed env s' key = isFollowed env s key

theorem SameFor.due (h : SameFor env s s' key) :
    isCompanionDue env s' key = isCompanionDue env s key := by
  rw [isCompanionDue, isCompanionDue, h.followed, isMutable, isMutable, h.companion]

theorem SameFor.cost (h : SameFor env s s' key) : cost env s' key = cost env s key := by
  rw [AgentMemory.cost, AgentMemory.cost, h.due]

variable {p : Bytes} {n : Nat} {keys : List Bytes}

theorem undisturbed_congr (h : ∀ key ∈ keys, SameFor env s s' key) :
    Undisturbed env s' p n keys ↔ Undisturbed env s p n keys := by
  induction keys generalizing n with
  | nil => exact Iff.rfl
  | cons key rest ih =>
    have hkey := h key mem_cons_self
    rw [Undisturbed, Undisturbed, isMutable, isMutable, hkey.get, hkey.due, hkey.cost,
      ih (fun k hk => h k (mem_cons_of_mem _ hk))]

theorem undisturbed_append {keys' : List Bytes} : Undisturbed env s p n (keys ++ keys') ↔
      Undisturbed env s p n keys ∧ Undisturbed env s p (n + (keys.map (cost env s)).sum) keys' := by
  induction keys generalizing n with
  | nil => simp [Undisturbed]
  | cons key rest ih =>
    rw [cons_append, Undisturbed, Undisturbed, ih, map_cons, sum_cons, add_assoc]
    simp only [and_assoc]

theorem refused_mutable (h : isRefused s key = true) : isMutable s key = false := by
  obtain ⟨content, hget, hworm⟩ := refused_iff.mp h
  rw [isMutable, hget, Option.any_some, hworm]
  rfl

theorem mutable_refused (h : isMutable s key = true) : isRefused s key = false := by
  obtain ⟨content, hget, hworm⟩ := mutable_iff.mp h
  rw [isRefused, hget, Option.any_some, hworm]

theorem live_of_get (h : s'.kv.get key = s.kv.get key) :
    isLive s' key = isLive s key := by rw [isLive, isLive, h]

theorem dead_of_get (h : s.kv.get key = none) : isLive s key = false := by
  rw [isLive, h]
  rfl

theorem Pass.nil (counts : DropCounts) (s : Node) : Pass env [] counts counts s s where
  deleted := rfl
  skippedWorm := rfl
  errors := rfl
  shrinks _ := .inl rfl
  refused _ _ := rfl
  others _ _ _ := rfl
  followed _ := rfl
  undisturbed _ := iff_of_true trivial ⟨fun _ h => (nomatch h), fun _ h => (nomatch h)⟩
  accesses _ _ := rfl

variable {counts counts' : DropCounts}

/-- The key is as it was: the delete was refused or failed. -/
theorem Pass.kept (hkv : s'.kv = s.kv)
    (hreg : s'.registry = s.registry) (hlive : isLive s key = true)
    (hdeleted : counts'.deleted = counts.deleted)
    (hskipped : counts'.skippedWorm = counts.skippedWorm + (isRefused s key).toNat)
    (herrors : counts'.errors = counts.errors + (isMutable s key).toNat)
    (hdisturbed : isMutable s key = true → env.fault s.accesses ≠ none) :
    Pass env [key] counts counts' s s' where
  deleted := hdeleted
  skippedWorm := by rw [hskipped]; cases h : isRefused s key <;> simp [h]
  errors := by
    have hlive' : isLive s' key = true := by rw [isLive, hkv]; exact hlive
    rw [herrors]
    cases h : isMutable s key <;> simp [h, hlive']
  shrinks k := .inl (by rw [hkv])
  refused k _ := by rw [hkv]
  others k _ _ := by rw [hkv]
  followed k := by rw [isFollowed, isFollowed, hreg]
  undisturbed p := by
    refine iff_of_false ?_ ?_
    · rintro ⟨hmut, hfault, -⟩
      exact hdisturbed hmut hfault
    · rintro ⟨hdead, -⟩
      have hkey := hdead key mem_cons_self
      rw [isLive, hkv] at hkey
      exact Bool.false_ne_true (hkey.symm.trans hlive)
  accesses p := by
    rintro ⟨hmut, hfault, -⟩
    exact absurd hfault (hdisturbed hmut)

theorem Pass.removed (hmut : isMutable s key = true)
    (hfault : env.fault s.accesses = none) (h : Removed env key s s') : Pass env [key] counts counts s s' where
  deleted := rfl
  skippedWorm := by simp [mutable_refused hmut]
  errors := by simp [dead_of_get h.gone]
  shrinks k := by
    by_cases hk : k = key
    · exact .inr (hk ▸ h.gone)
    · by_cases hbq : k = bqKey key
      · exact hbq ▸ h.companion
      · exact .inl (h.others k hk hbq)
  refused k hk := by
    by_cases hkey : k = key
    · exact absurd (hkey ▸ hk) (Bool.eq_false_iff.mp (mutable_refused hmut))
    · by_cases hbq : k = bqKey key
      · refine hbq ▸ h.taken.mpr (fun hdue => ?_)
        have hcompanion := mutable_refused (companionDue_iff.mp hdue).2
        exact absurd (hbq ▸ hk) (Bool.eq_false_iff.mp hcompanion)
      · exact h.others k hkey hbq
  others k hk hbq := h.others k (ne_of_not_mem_cons hk) (hbq key mem_cons_self)
  followed := h.followed
  undisturbed p := by
    simp only [Undisturbed, forall_mem_singleton, hmut, hfault, dead_of_get h.gone, and_true,
      true_and, h.taken]
    exact ⟨fun hspared hp hdue => hspared hdue hp, fun hspared hdue hp => hspared hp hdue⟩
  accesses p _ := by rw [h.accesses, map_singleton, sum_singleton]

theorem Pass.cons {key : Bytes} {rest : List Bytes} {counts counts₁ counts₂ : DropCounts}
    {s s₁ s₂ : Node} (hnot : key ∉ rest)
    (hapart : ∀ k ∈ key :: rest, ∀ k' ∈ key :: rest, k ≠ bqKey k')
    (h₁ : Pass env [key] counts counts₁ s s₁) (h₂ : Pass env rest counts₁ counts₂ s₁ s₂) :
    Pass env (key :: rest) counts counts₂ s s₂ := by
  have hmem : ∀ k ∈ rest, k ∈ key :: rest := fun k hk => mem_cons_of_mem _ hk
  -- the first delete touches no later key and no later key's companion
  have hsame : ∀ k ∈ rest, SameFor env s s₁ k := by
    intro k hk
    have hne : k ≠ key := fun heq => hnot (heq ▸ hk)
    refine ⟨h₁.others k (by simpa using hne) ?_, h₁.others (bqKey k) ?_ ?_, h₁.followed k⟩
    · rintro k' hk'
      obtain rfl := mem_singleton.mp hk'
      exact hapart k (hmem k hk) k' mem_cons_self
    · intro hin
      exact hapart key mem_cons_self k (hmem k hk) (mem_singleton.mp hin).symm
    · rintro k' hk' heq
      obtain rfl := mem_singleton.mp hk'
      exact hne (bqKey_inj.mp heq)
  -- and no later delete touches the first key or its companion
  have hkey : s₂.kv.get key = s₁.kv.get key :=
    h₂.others key hnot (fun k hk => hapart key mem_cons_self k (hmem k hk))
  have hbq : s₂.kv.get (bqKey key) = s₁.kv.get (bqKey key) := by
    refine h₂.others _ (fun hin => hapart _ (hmem _ hin) key mem_cons_self rfl) ?_
    intro k hk heq
    exact hnot (bqKey_inj.mp heq ▸ hk)
  have hrefused : ∀ k ∈ rest, isRefused s₁ k = isRefused s k := fun k hk => by
    rw [isRefused, isRefused, (hsame k hk).get]
  have hmutable : ∀ k ∈ rest, isMutable s₁ k = isMutable s k := fun k hk => by
    rw [isMutable, isMutable, (hsame k hk).get]
  -- so each run of accesses fails where it would have failed alone
  have hundisturbed : ∀ p, Undisturbed env s p s.accesses (key :: rest) ↔
      Undisturbed env s p s.accesses [key] ∧ Undisturbed env s₁ p s₁.accesses rest := by
    intro p
    rw [← singleton_append, undisturbed_append]
    refine and_congr_right (fun hfirst => ?_)
    rw [← h₁.accesses p hfirst, undisturbed_congr hsame]
  refine
    { deleted := h₂.deleted.trans h₁.deleted
      skippedWorm := ?_
      errors := ?_
      shrinks := fun k => ?_
      refused := fun k hk => ?_
      others := fun k hk hne => ?_
      followed := fun k => (h₂.followed k).trans (h₁.followed k)
      undisturbed := fun p => ?_
      accesses := fun p hp => ?_ }
  · have hcount : rest.countP (isRefused s₁) = rest.countP (isRefused s) :=
      countP_congr (fun k hk => by rw [hrefused k hk])
    rw [h₂.skippedWorm, h₁.skippedWorm, hcount]
    simp only [countP_cons, countP_nil]
    omega
  · have hcount : rest.countP (fun k => isMutable s₁ k && isLive s₂ k) =
        rest.countP (fun k => isMutable s k && isLive s₂ k) :=
      countP_congr (fun k hk => by rw [hmutable k hk])
    rw [h₂.errors, h₁.errors, hcount]
    simp only [countP_cons, countP_nil, live_of_get hkey]
    omega
  · rcases h₂.shrinks k with h | h
    · rw [h]
      exact h₁.shrinks k
    · exact .inr h
  · have hfirst := h₁.refused k hk
    refine (h₂.refused k ?_).trans hfirst
    rw [isRefused, hfirst]
    exact hk
  · refine (h₂.others k (fun hin => hk (hmem k hin)) (fun k' hk' => hne k' (hmem k' hk'))).trans ?_
    refine h₁.others k (fun hin => hk (mem_singleton.mp hin ▸ mem_cons_self)) ?_
    intro k' hk'
    exact hne k' (mem_singleton.mp hk' ▸ mem_cons_self)
  · have hcompanions : (∀ k ∈ rest, p <+: bqKey k → s₂.kv.get (bqKey k) = s₁.kv.get (bqKey k)) ↔
        ∀ k ∈ rest, p <+: bqKey k → s₂.kv.get (bqKey k) = s.kv.get (bqKey k) :=
      forall₂_congr (fun k hk => by rw [(hsame k hk).companion])
    rw [hundisturbed p, h₁.undisturbed p, h₂.undisturbed p, hcompanions]
    simp only [forall_mem_cons, not_mem_nil, false_implies, implies_true, and_true,
      live_of_get hkey, hbq]
    tauto
  · obtain ⟨hfirst, hrest⟩ := (hundisturbed p).mp hp
    have hcosts : rest.map (cost env s₁) = rest.map (cost env s) :=
      map_congr_left (fun k hk => (hsame k hk).cost)
    rw [h₂.accesses p hrest, h₁.accesses p hfirst, hcosts]
    simp only [map_cons, map_nil, sum_cons, sum_nil]
    omega

/-- The delete of one live key. -/
theorem dropKey_pass (key : Bytes) (counts : DropCounts) (c : MemCtx) (hlive : isLive c.node key = true) :
    ∃ counts' c', dropKey env counts key c = (.ok counts', c') ∧
      Pass env [key] counts counts' c.node c'.node := by
  obtain ⟨r, c', hdelete, hcase⟩ := @deleteDurable_cases env key c
  cases hcase with
  | absent h => exact absurd (hlive.symm.trans (dead_of_get h)) (by decide)
  | refused h =>
    refine ⟨_, _, dropKey_worm counts hdelete, Pass.kept rfl rfl hlive rfl ?_ ?_ ?_⟩
    · rw [h]; rfl
    · rw [refused_mutable h]; rfl
    · rw [refused_mutable h]
      exact nofun
  | @failed e h hfault =>
    have hio : e ≠ .wormViolation := by
      rintro rfl
      exact env.fault_io _ hfault
    refine ⟨_, _, dropKey_error counts hdelete hio, Pass.kept rfl rfl hlive rfl ?_ ?_ ?_⟩
    · rw [mutable_refused h]; rfl
    · rw [h]; rfl
    · rw [hfault]
      exact fun _ => Option.some_ne_none e
  | removed h hfault hs => exact ⟨_, _, dropKey_ok counts hdelete, Pass.removed h hfault hs⟩

/-- **The deletes of live keys, none of which is the companion of another.** -/
theorem dropKeys_pass (keys : List Bytes) (counts : DropCounts) (c : MemCtx) (hnodup : keys.Nodup)
    (hlive : ∀ key ∈ keys, isLive c.node key = true) (hapart : ∀ key ∈ keys, ∀ k ∈ keys, key ≠ bqKey k) :
    ∃ counts' c', keys.foldlM (dropKey env) counts c = (.ok counts', c') ∧
      Pass env keys counts counts' c.node c'.node := by
  induction keys generalizing counts c with
  | nil => exact ⟨counts, c, rfl, Pass.nil counts c.node⟩
  | cons key rest ih =>
    obtain ⟨hnot, hrest⟩ := nodup_cons.mp hnodup
    have hmem : ∀ k ∈ rest, k ∈ key :: rest := fun k hk => mem_cons_of_mem _ hk
    obtain ⟨counts₁, c₁, hfirst, h₁⟩ := @dropKey_pass env key counts c (hlive key mem_cons_self)
    have hlive₁ : ∀ k ∈ rest, isLive c₁.node k = true := by
      intro k hk
      rw [live_of_get (h₁.others k ?_ ?_)]
      · exact hlive k (hmem k hk)
      · exact fun hin => hnot (mem_singleton.mp hin ▸ hk)
      · intro k' hk'
        exact hapart k (hmem k hk) k' (mem_singleton.mp hk' ▸ mem_cons_self)
    obtain ⟨counts₂, c₂, hsecond, h₂⟩ := ih counts₁ c₁ hrest hlive₁
      (fun k hk k' hk' => hapart k (hmem k hk) k' (hmem k' hk'))
    refine ⟨counts₂, c₂, ?_, Pass.cons hnot hapart h₁ h₂⟩
    rw [foldlM_cons, MemM.bind_ok hfirst, hsecond]

/-- Keys that are only in the segments: nothing is deleted, and nothing is counted. -/
theorem dropKeys_dead (keys : List Bytes) (counts : DropCounts) (c : MemCtx)
    (h : ∀ key ∈ keys, c.node.kv.get key = none) :
    ∃ c', keys.foldlM (dropKey env) counts c = (.ok counts, c') ∧ c'.node.kv = c.node.kv ∧
      c'.node.registry = c.node.registry ∧ c'.node.accesses = c.node.accesses := by
  induction keys generalizing c with
  | nil => exact ⟨c, rfl, rfl, rfl, rfl⟩
  | cons key rest ih =>
    have hdead := h key mem_cons_self
    obtain ⟨r, c₁, hdelete, hcase⟩ := @deleteDurable_cases env key c
    cases hcase with
    | @absent s _ hkv hreg haccesses =>
      obtain ⟨c', hrun, hkv', hreg', haccesses'⟩ := ih { c with node := s }
        (fun k hk => by rw [hkv]; exact h k (mem_cons_of_mem _ hk))
      refine ⟨c', ?_, hkv'.trans hkv, hreg'.trans hreg, haccesses'.trans haccesses⟩
      rw [foldlM_cons, MemM.bind_ok (dropKey_ok counts hdelete), hrun]
    | refused hrefused =>
      obtain ⟨content, hget, -⟩ := refused_iff.mp hrefused
      exact nomatch hdead.symm.trans hget
    | failed hmut | removed hmut =>
      obtain ⟨content, hget, -⟩ := mutable_iff.mp hmut
      exact nomatch hdead.symm.trans hget

theorem Pass.same {s'' : Node}
    (h : Pass env keys counts counts' s s') (hkv : s''.kv = s'.kv)
    (hreg : s''.registry = s'.registry)
    (haccesses : s''.accesses = s'.accesses) : Pass env keys counts counts' s s'' := by
  have hlive : isLive s'' = isLive s' := funext (fun key => by rw [isLive, isLive, hkv])
  exact
    { deleted := h.deleted
      skippedWorm := h.skippedWorm
      errors := by rw [hlive]; exact h.errors
      shrinks := by rw [hkv]; exact h.shrinks
      refused := by rw [hkv]; exact h.refused
      others := by rw [hkv]; exact h.others
      followed := fun key => by rw [← h.followed key, isFollowed, isFollowed, hreg]
      undisturbed := by rw [hkv, hlive]; exact h.undisturbed
      accesses := by rw [haccesses]; exact h.accesses }

/-- The keys that are still there are those that were counted. -/
theorem Pass.left
    (h : Pass env keys counts counts' s s') (hlive : ∀ key ∈ keys, isLive s key = true) :
    counts'.skippedWorm + counts'.errors =
      counts.skippedWorm + counts.errors + keys.countP (isLive s') := by
  have hcount : keys.countP (isRefused s) + keys.countP (fun key => isMutable s key && isLive s' key) =
      keys.countP (isLive s') := by
    have hrefused := h.refused
    clear h
    induction keys with
    | nil => rfl
    | cons key rest ih =>
      have hkey : (if isRefused s key = true then 1 else 0) +
          (if (isMutable s key && isLive s' key) = true then 1 else 0) =
          if isLive s' key = true then 1 else 0 := by
        rcases key_cases s key with habsent | hworm | hmut
        · exact absurd ((hlive key mem_cons_self).symm.trans (dead_of_get habsent)) (by decide)
        · rw [hworm, refused_mutable hworm, live_of_get (hrefused key hworm),
            hlive key mem_cons_self]
          rfl
        · rw [hmut, mutable_refused hmut]
          simp
      have hrest := ih (fun k hk => hlive k (mem_cons_of_mem _ hk))
      simp only [countP_cons]
      omega
  rw [h.skippedWorm, h.errors]
  omega

theorem mem_liveKeys : key ∈ liveKeys s p ↔ p <+: key ∧ isLive s key = true := by
  rw [liveKeys, mem_map, isLive, Option.isSome_iff_exists]
  constructor
  · rintro ⟨hit, hhit, rfl⟩
    obtain ⟨hp, hget⟩ := mem_liveHits.mp hhit
    exact ⟨hp, _, hget⟩
  · rintro ⟨hp, ⟨value, timestamp, isWorm⟩, hget⟩
    exact ⟨⟨key, value, timestamp, isWorm⟩, mem_liveHits.mpr ⟨hp, hget⟩, rfl⟩

/-- The keys that a prefix gives: the live ones, and those only in the segments. -/
def collected (env : MemEnv) (s : Node) (p : Bytes) : Nat :=
  (liveKeys s p).length + (shownHits env s p).length

/-- **One prefix: the counters so far are taken off its keys.** -/
theorem dropPrefix_spec (counts : DropCounts) (p : Bytes) (c : MemCtx)
    (hapart : ∀ key k, p <+: key → p <+: k → key ≠ bqKey k) :
    ∃ counts' c', Pass env (liveKeys c.node p) counts counts' c.node c'.node ∧
      dropPrefix env counts p c =
        if counts'.skippedWorm + counts'.errors ≤ collected env c.node p then
          (.ok { counts' with deleted := counts'.deleted +
            (collected env c.node p - (counts'.skippedWorm + counts'.errors)) }, c')
        else (.error .trap, c') := by
  let hits := liveHits c.node p ++ shownHits env c.node p
  let c₀ : MemCtx := { c with reads := c.reads ++ hits.map ScanResult.key }
  have hscan : scanCallback env p c = (.ok hits, c₀) := rfl
  obtain ⟨counts', c₁, hlive, hpass⟩ := @dropKeys_pass env (liveKeys c.node p) counts c₀
    (liveHits_nodup c.node p) (fun key hkey => (mem_liveKeys.mp hkey).2)
    (fun key hkey k hk => hapart key k (mem_liveKeys.mp hkey).1 (mem_liveKeys.mp hk).1)
  -- the frozen hits are no live keys, and their deletes count nothing
  obtain ⟨c₂, hdead, hkv, hreg, haccesses⟩ := @dropKeys_dead env
    ((shownHits env c.node p).map ScanResult.key) counts' c₁ (by
      intro key hkey
      obtain ⟨hit, hhit, rfl⟩ := mem_map.mp hkey
      have hnone := Option.isNone_iff_eq_none.mp (mem_filter.mp hhit).2
      rcases hpass.shrinks hit.key with hget | hget
      · exact hget.trans hnone
      · exact hget)
  have hkeys : hits.map ScanResult.key =
      liveKeys c.node p ++ (shownHits env c.node p).map ScanResult.key := map_append
  have hlength : (hits.map ScanResult.key).length = collected env c.node p := by
    rw [hkeys, length_append, length_map, collected]
  have hfold : (hits.map ScanResult.key).foldlM (dropKey env) counts c₀ = (.ok counts', c₂) := by
    rw [hkeys, List.foldlM_append, MemM.bind_ok hlive, hdead]
  refine ⟨counts', c₂, hpass.same hkv hreg haccesses, ?_⟩
  refine (MemM.bind_ok hscan _).trans ((MemM.bind_ok hfold _).trans ?_)
  rw [hlength]
  -- the counters are taken off one after the other, and either can be too many
  by_cases hskipped : counts'.skippedWorm ≤ collected env c.node p
  · have hfirst : subUsize (collected env c.node p) counts'.skippedWorm c₂ =
        (.ok (collected env c.node p - counts'.skippedWorm), c₂) := by
      rw [subUsize, if_pos hskipped]
      rfl
    refine (MemM.bind_ok hfirst _).trans ?_
    by_cases herrors : counts'.errors ≤ collected env c.node p - counts'.skippedWorm
    · have hsecond : subUsize (collected env c.node p - counts'.skippedWorm) counts'.errors c₂ =
          (.ok (collected env c.node p - counts'.skippedWorm - counts'.errors), c₂) := by
        rw [subUsize, if_pos herrors]
        rfl
      rw [if_pos (by omega), ← Nat.sub_sub]
      exact MemM.bind_ok hsecond _
    · have hsecond : subUsize (collected env c.node p - counts'.skippedWorm) counts'.errors c₂ =
          (.error .trap, c₂) := by
        rw [subUsize, if_neg herrors]
        rfl
      rw [if_neg (by omega)]
      exact MemM.bind_error hsecond _
  · have hfirst : subUsize (collected env c.node p) counts'.skippedWorm c₂ = (.error .trap, c₂) := by
      rw [subUsize, if_neg hskipped]
      rfl
    rw [if_neg (by omega)]
    exact MemM.bind_error hfirst _

/-! ## All three prefixes -/

/-- The live keys under a prefix are those of another node that is the same there. -/
theorem liveKeys_congr (h : ∀ key, p <+: key → s'.kv.get key = s.kv.get key) :
    liveKeys s' p = liveKeys s p := by
  have hscan : s'.kv.scan p = s.kv.scan p := by
    refine ByteMap.scan_eq (s.kv.ascending.filter _) (fun key v => ?_)
    rw [ByteMap.mem_scan_iff]
    exact and_congr_right (fun hp => by rw [h key hp])
  rw [liveKeys, liveKeys, liveHits, liveHits, hscan]

theorem shownHits_congr {s s' : Node} {p : Bytes} (h : ∀ key, p <+: key → s'.kv.get key = s.kv.get key) :
    shownHits env s' p = shownHits env s p := by
  refine filter_congr (fun hit hhit => ?_)
  rw [h hit.key (env.frozenHits_key p hit hhit).1]

theorem liveKeys_live : ∀ key ∈ liveKeys s p, isLive s key = true :=
  fun _ hkey => (mem_liveKeys.mp hkey).2

variable {ns : Bytes}

/-- A pass over one prefix of a namespace leaves the keys under another alone, unless they are
companions of vectors. -/
theorem Pass.elsewhere {p' : Bytes} {s₀ : Node}
    (h : Pass env (liveKeys s₀ p) counts counts' s s') (hp : p ∈ namespacePrefixes ns)
    (hp' : p' ∈ namespacePrefixes ns) (hne : p ≠ p')
    (hcompanion : p = vecPrefix ns → p' ≠ bqPrefix ns) :
    ∀ key, p' <+: key → s'.kv.get key = s.kv.get key := by
  intro key hkey
  refine h.others key (fun hin => hne (prefix_unique hp hp' (mem_liveKeys.mp hin).1 hkey)) ?_
  rintro k hk rfl
  obtain ⟨hbq, hvec⟩ := bqKey_under hp' hkey
  exact hcompanion (prefix_unique hp (vecPrefix_mem ns) (mem_liveKeys.mp hk).1 hvec) hbq

/-- No key under a prefix of a namespace is the companion of another under the same. -/
theorem under_apart (hp : p ∈ namespacePrefixes ns) (hkey : p <+: key) (hk : p <+: k) :
    key ≠ bqKey k := by
  rintro rfl
  obtain ⟨hbq, hvec⟩ := bqKey_under hp hkey
  exact vecPrefix_ne_bqPrefix ns ((prefix_unique hp (vecPrefix_mem ns) hk hvec).symm.trans hbq)

/-- A node with fewer keys under a prefix, and the others as they were. -/
def Shrunk (s s' : Node) (p : Bytes) : Prop :=
  ∀ key, p <+: key → s'.kv.get key = s.kv.get key ∨ s'.kv.get key = none

theorem Shrunk.get {s s' : Node} {p key : Bytes} (h : Shrunk s s' p) (hp : p <+: key)
    (hlive : isLive s' key = true) : s'.kv.get key = s.kv.get key := by
  refine (h key hp).resolve_right (fun hnone => ?_)
  exact Bool.false_ne_true ((dead_of_get hnone).symm.trans hlive)

theorem Shrunk.live (h : Shrunk s s' p) (hp : p <+: key)
    (hlive : isLive s' key = true) : isLive s key = true := by
  rw [← live_of_get (h.get hp hlive), hlive]

/-- What holds of keys that stay only is counted alike before and after. -/
theorem Shrunk.countP (h : Shrunk s s' p) (q : Bytes → Bool)
    (hq : ∀ key, p <+: key → q key = true → isLive s' key = true) :
    (liveKeys s p).countP q = (liveKeys s' p).countP q := by
  have hperm : (liveKeys s' p).Perm ((liveKeys s p).filter (isLive s')) := by
    refine (perm_ext_iff_of_nodup (liveHits_nodup s' p) ((liveHits_nodup s p).filter _)).mpr ?_
    intro key
    show key ∈ liveKeys s' p ↔ key ∈ (liveKeys s p).filter (isLive s')
    rw [mem_filter, mem_liveKeys, mem_liveKeys]
    exact ⟨fun ⟨hp, hlive⟩ => ⟨⟨hp, h.live hp hlive⟩, hlive⟩, fun ⟨⟨hp, _⟩, hlive⟩ => ⟨hp, hlive⟩⟩
  rw [hperm.countP_eq, countP_filter]
  refine countP_congr (fun key hkey => ?_)
  have hp := (mem_liveKeys.mp hkey).1
  rw [Bool.and_eq_true]
  exact ⟨fun h => ⟨h, hq key hp h⟩, And.left⟩

theorem countP_dropKeys (s : Node) (ns : Bytes) (q : Bytes → Bool) :
    (dropKeys s ns).countP q = (liveKeys s (memPrefix ns)).countP q +
      (liveKeys s (vecPrefix ns)).countP q + (liveKeys s (bqPrefix ns)).countP q := by
  rw [dropKeys, dropPrefixes]
  simp only [flatMap_cons, flatMap_nil, append_nil, countP_append, add_assoc]

/-- The deletes of a drop, from one prefix to the next, and that of the configuration. -/
structure Passes (env : MemEnv) (ns : Bytes) (counts₁ counts₂ counts₃ counts₄ : DropCounts)
    (s s₁ s₂ s₃ s₄ : Node) : Prop where
  mem : Pass env (liveKeys s (memPrefix ns)) ⟨0, 0, 0⟩ counts₁ s s₁
  vec : ∃ n, Pass env (liveKeys s₁ (vecPrefix ns)) { counts₁ with deleted := n } counts₂ s₁ s₂
  bq : ∃ n, Pass env (liveKeys s₂ (bqPrefix ns)) { counts₂ with deleted := n } counts₃ s₂ s₃
  config : counts₄.skippedWorm = counts₃.skippedWorm + (isRefused s₃ (configKey ns)).toNat ∧
    counts₄.errors = counts₃.errors + (isMutable s₃ (configKey ns) && isLive s₄ (configKey ns)).toNat
  rest : ∀ key, key ≠ configKey ns → key ≠ bqKey (configKey ns) → s₄.kv.get key = s₃.kv.get key

namespace Passes
variable {counts₁ counts₂ counts₃ counts₄ : DropCounts} {s s₁ s₂ s₃ s₄ : Node}

variable {key : Bytes}

section
variable (h : Passes env ns counts₁ counts₂ counts₃ counts₄ s s₁ s₂ s₃ s₄)
include h

theorem rest_get (hp : p ∈ namespacePrefixes ns) (hne : p ≠ configPrefix ns) (hkey : p <+: key) :
    s₄.kv.get key = s₃.kv.get key := by
  have hconfig : configPrefix ns <+: configKey ns := prefix_append _ _
  refine h.rest key ?_ ?_
  · rintro rfl
    exact hne (prefix_unique hp (configPrefix_mem ns) hkey hconfig)
  · rintro rfl
    exact vecPrefix_ne_configPrefix ns
      (prefix_unique (vecPrefix_mem ns) (configPrefix_mem ns) (bqKey_under hp hkey).2 hconfig)

theorem mem_get (hkey : memPrefix ns <+: key) : s₄.kv.get key = s₁.kv.get key := by
  obtain ⟨_, hvec⟩ := h.vec
  obtain ⟨_, hbq⟩ := h.bq
  have h₂ := hvec.elsewhere (vecPrefix_mem ns) (memPrefix_mem ns) (memPrefix_ne_vecPrefix ns).symm
    (fun _ => memPrefix_ne_bqPrefix ns) key hkey
  have h₃ := hbq.elsewhere (bqPrefix_mem ns) (memPrefix_mem ns) (memPrefix_ne_bqPrefix ns).symm
    (fun _ => memPrefix_ne_bqPrefix ns) key hkey
  exact (h.rest_get (memPrefix_mem ns) (memPrefix_ne_configPrefix ns) hkey).trans (h₃.trans h₂)

theorem vec_get (hkey : vecPrefix ns <+: key) : s₄.kv.get key = s₂.kv.get key := by
  obtain ⟨_, hbq⟩ := h.bq
  have h₃ := hbq.elsewhere (bqPrefix_mem ns) (vecPrefix_mem ns) (vecPrefix_ne_bqPrefix ns).symm
    (fun _ => vecPrefix_ne_bqPrefix ns) key hkey
  exact (h.rest_get (vecPrefix_mem ns) (vecPrefix_ne_configPrefix ns) hkey).trans h₃

theorem vec_start : ∀ key, vecPrefix ns <+: key → s₁.kv.get key = s.kv.get key :=
  h.mem.elsewhere (memPrefix_mem ns) (vecPrefix_mem ns) (memPrefix_ne_vecPrefix ns)
    (fun heq => absurd heq (memPrefix_ne_vecPrefix ns))

theorem bq_start : ∀ key, bqPrefix ns <+: key → s₁.kv.get key = s.kv.get key :=
  h.mem.elsewhere (memPrefix_mem ns) (bqPrefix_mem ns) (memPrefix_ne_bqPrefix ns)
    (fun heq => absurd heq (memPrefix_ne_vecPrefix ns))

theorem bq_shrunk : Shrunk s s₂ (bqPrefix ns) := by
  obtain ⟨_, hvec⟩ := h.vec
  intro key hkey
  rw [← h.bq_start key hkey]
  exact hvec.shrinks key

theorem vec_keys :
    liveKeys s₁ (vecPrefix ns) = liveKeys s (vecPrefix ns) := liveKeys_congr h.vec_start

/-- How many keys are left under each prefix, and with them the counters. -/
theorem counters :
    counts₁.skippedWorm + counts₁.errors = (liveKeys s (memPrefix ns)).countP (isLive s₄) ∧
    counts₂.skippedWorm + counts₂.errors = (liveKeys s (memPrefix ns)).countP (isLive s₄) +
      (liveKeys s (vecPrefix ns)).countP (isLive s₄) ∧
    counts₃.skippedWorm + counts₃.errors = (liveKeys s (memPrefix ns)).countP (isLive s₄) +
      (liveKeys s (vecPrefix ns)).countP (isLive s₄) +
      (liveKeys s₂ (bqPrefix ns)).countP (isLive s₄) := by
  obtain ⟨_, hvec⟩ := h.vec
  obtain ⟨_, hbq⟩ := h.bq
  have h₁ := h.mem.left liveKeys_live
  have h₂ := hvec.left liveKeys_live
  have h₃ := hbq.left liveKeys_live
  have hcount₁ : (liveKeys s (memPrefix ns)).countP (isLive s₄) =
      (liveKeys s (memPrefix ns)).countP (isLive s₁) :=
    countP_congr (fun key hkey => by rw [live_of_get (h.mem_get (mem_liveKeys.mp hkey).1)])
  have hcount₂ : (liveKeys s (vecPrefix ns)).countP (isLive s₄) =
      (liveKeys s₁ (vecPrefix ns)).countP (isLive s₂) := by
    rw [h.vec_keys]
    exact countP_congr (fun key hkey => by rw [live_of_get (h.vec_get (mem_liveKeys.mp hkey).1)])
  have hcount₃ : (liveKeys s₂ (bqPrefix ns)).countP (isLive s₄) =
      (liveKeys s₂ (bqPrefix ns)).countP (isLive s₃) :=
    countP_congr (fun key hkey => by
      rw [live_of_get (h.rest_get (bqPrefix_mem ns) (bqPrefix_ne_configPrefix ns)
        (mem_liveKeys.mp hkey).1)])
  dsimp only at h₁ h₂ h₃
  omega

theorem config_start : s₃.kv.get (configKey ns) = s.kv.get (configKey ns) := by
  obtain ⟨_, hvec⟩ := h.vec
  obtain ⟨_, hbq⟩ := h.bq
  have hconfig : configPrefix ns <+: configKey ns := prefix_append _ _
  have h₁ := h.mem.elsewhere (memPrefix_mem ns) (configPrefix_mem ns) (memPrefix_ne_configPrefix ns)
    (fun heq => absurd heq (memPrefix_ne_vecPrefix ns)) _ hconfig
  have h₂ := hvec.elsewhere (vecPrefix_mem ns) (configPrefix_mem ns) (vecPrefix_ne_configPrefix ns)
    (fun _ => (bqPrefix_ne_configPrefix ns).symm) _ hconfig
  have h₃ := hbq.elsewhere (bqPrefix_mem ns) (configPrefix_mem ns) (bqPrefix_ne_configPrefix ns)
    (fun heq => absurd heq (vecPrefix_ne_bqPrefix ns).symm) _ hconfig
  exact h₃.trans (h₂.trans h₁)

/-- A key of the third prefix that is still there after the second is as it was. -/
theorem bq_key (hkey : key ∈ liveKeys s₂ (bqPrefix ns)) : s₂.kv.get key = s.kv.get key := by
  obtain ⟨hp, hlive⟩ := mem_liveKeys.mp hkey
  exact h.bq_shrunk.get hp hlive

/-- **The refusals that are counted are the WORM keys.** -/
theorem skippedWorm :
    counts₄.skippedWorm = (dropKeys s ns ++ [configKey ns]).countP (isRefused s) := by
  obtain ⟨_, hvec⟩ := h.vec
  obtain ⟨_, hbq⟩ := h.bq
  obtain ⟨hconfig, -⟩ := h.config
  have h₁ := h.mem.skippedWorm
  have h₂ := hvec.skippedWorm
  have h₃ := hbq.skippedWorm
  -- no pass before has touched what is under a later prefix, companions apart
  have hcount₂ : (liveKeys s₁ (vecPrefix ns)).countP (isRefused s₁) =
      (liveKeys s (vecPrefix ns)).countP (isRefused s) := by
    rw [h.vec_keys]
    exact countP_congr (fun key hkey => by
      rw [isRefused, isRefused, h.vec_start key (mem_liveKeys.mp hkey).1])
  have hcount₃ : (liveKeys s₂ (bqPrefix ns)).countP (isRefused s₂) =
      (liveKeys s (bqPrefix ns)).countP (isRefused s) := by
    -- a companion that is refused is still there for its own pass
    have hkept : ∀ key, bqPrefix ns <+: key → isRefused s key = true → isLive s₂ key = true := by
      intro key hp hrefused
      have hs₁ := h.bq_start key hp
      obtain ⟨content, hget, -⟩ := refused_iff.mp hrefused
      rw [isLive, hvec.refused key (by rw [isRefused, hs₁]; exact hrefused), hs₁, hget]
      rfl
    rw [h.bq_shrunk.countP _ hkept]
    exact countP_congr (fun key hkey => by rw [isRefused, isRefused, h.bq_key hkey])
  have hlast : isRefused s₃ (configKey ns) = isRefused s (configKey ns) := by
    rw [isRefused, isRefused, h.config_start]
  rw [countP_append, countP_dropKeys, hconfig, hlast]
  cases hworm : isRefused s (configKey ns) with
  | true =>
    simp only [countP_cons, countP_nil, hworm, if_true, Bool.toNat_true]
    dsimp only at h₁ h₂ h₃
    omega
  | false =>
    simp only [countP_cons, countP_nil, hworm, Bool.false_eq_true, if_false, Bool.toNat_false]
    dsimp only at h₁ h₂ h₃
    omega

/-- **The other failures that are counted are the mutable keys that stay.** -/
theorem errors : counts₄.errors =
      (dropKeys s ns ++ [configKey ns]).countP (fun key => isMutable s key && isLive s₄ key) := by
  obtain ⟨_, hvec⟩ := h.vec
  obtain ⟨_, hbq⟩ := h.bq
  obtain ⟨-, hconfig⟩ := h.config
  have h₁ := h.mem.errors
  have h₂ := hvec.errors
  have h₃ := hbq.errors
  have hcount₁ : (liveKeys s (memPrefix ns)).countP (fun key => isMutable s key && isLive s₁ key) =
      (liveKeys s (memPrefix ns)).countP (fun key => isMutable s key && isLive s₄ key) :=
    countP_congr (fun key hkey => by rw [live_of_get (h.mem_get (mem_liveKeys.mp hkey).1)])
  have hcount₂ : (liveKeys s₁ (vecPrefix ns)).countP (fun key => isMutable s₁ key && isLive s₂ key) =
      (liveKeys s (vecPrefix ns)).countP (fun key => isMutable s key && isLive s₄ key) := by
    rw [h.vec_keys]
    exact countP_congr (fun key hkey => by
      rw [isMutable, isMutable, h.vec_start key (mem_liveKeys.mp hkey).1,
        live_of_get (h.vec_get (mem_liveKeys.mp hkey).1)])
  have hlast : ∀ key, bqPrefix ns <+: key → s₄.kv.get key = s₃.kv.get key :=
    fun key hp => h.rest_get (bqPrefix_mem ns) (bqPrefix_ne_configPrefix ns) hp
  have hcount₃ : (liveKeys s₂ (bqPrefix ns)).countP (fun key => isMutable s₂ key && isLive s₃ key) =
      (liveKeys s (bqPrefix ns)).countP (fun key => isMutable s key && isLive s₄ key) := by
    -- a companion that is there at the end was there before its own pass
    have hkept : ∀ key, bqPrefix ns <+: key → (isMutable s key && isLive s₄ key) = true →
        isLive s₂ key = true := by
      intro key hp hstays
      rw [Bool.and_eq_true, live_of_get (hlast key hp)] at hstays
      rcases hbq.shrinks key with hget | hnone
      · rw [← live_of_get hget]
        exact hstays.2
      · exact absurd ((dead_of_get hnone).symm.trans hstays.2) (by decide)
    rw [h.bq_shrunk.countP _ hkept]
    exact countP_congr (fun key hkey => by
      rw [isMutable, isMutable, h.bq_key hkey, live_of_get (hlast key (mem_liveKeys.mp hkey).1)])
  have hmutable : isMutable s₃ (configKey ns) = isMutable s (configKey ns) := by
    rw [isMutable, isMutable, h.config_start]
  rw [countP_append, countP_dropKeys, hconfig, hmutable, countP_singleton]
  dsimp only at h₁ h₂ h₃
  cases hstays : isMutable s (configKey ns) && isLive s₄ (configKey ns) with
  | true =>
    rw [if_pos rfl, Bool.toNat_true]
    omega
  | false =>
    rw [if_neg Bool.false_ne_true, Bool.toNat_false]
    omega

/-- The keys that are gone, and those that are left. -/
theorem gone :
    (dropKeys s ns).countP (fun key => !isLive s₄ key) + (liveKeys s (memPrefix ns)).countP
    (isLive s₄) +
        (liveKeys s (vecPrefix ns)).countP (isLive s₄) + (liveKeys s₂ (bqPrefix ns)).countP
    (isLive s₄) =
      (liveKeys s (memPrefix ns)).length + (liveKeys s (vecPrefix ns)).length +
        (liveKeys s (bqPrefix ns)).length := by
  obtain ⟨_, hbq⟩ := h.bq
  have hleft : (liveKeys s (bqPrefix ns)).countP (isLive s₄) =
      (liveKeys s₂ (bqPrefix ns)).countP (isLive s₄) := by
    refine h.bq_shrunk.countP _ (fun key hp hlive => ?_)
    rw [live_of_get (h.rest_get (bqPrefix_mem ns) (bqPrefix_ne_configPrefix ns) hp)] at hlive
    rcases hbq.shrinks key with hget | hnone
    · rw [← live_of_get hget]
      exact hlive
    · exact absurd ((dead_of_get hnone).symm.trans hlive) (by decide)
  have hsplit : ∀ keys : List Bytes,
      keys.length = keys.countP (isLive s₄) + keys.countP (fun key => !isLive s₄ key) := by
    intro keys
    rw [length_eq_countP_add_countP (isLive s₄)]
    simp only [Bool.not_eq_true, Bool.decide_eq_false]
  have h₁ := hsplit (liveKeys s (memPrefix ns))
  have h₂ := hsplit (liveKeys s (vecPrefix ns))
  have h₃ := hsplit (liveKeys s (bqPrefix ns))
  rw [countP_dropKeys]
  omega

/-- The vectors' companions are there after the second prefix, and so is every other key of
the third. -/
theorem companions_iff :
    (∀ key ∈ liveKeys s (vecPrefix ns), s₂.kv.get (bqKey key) = s₁.kv.get (bqKey key)) ↔
      ∀ key, bqPrefix ns <+: key → s₂.kv.get key = s.kv.get key := by
  obtain ⟨_, hvec⟩ := h.vec
  constructor
  · intro hkept key hp
    rw [← h.bq_start key hp]
    by_cases hcompanion : ∃ k ∈ liveKeys s (vecPrefix ns), key = bqKey k
    · obtain ⟨k, hk, rfl⟩ := hcompanion
      exact hkept k hk
    · refine hvec.others key (fun hin => ?_) ?_
      · exact vecPrefix_ne_bqPrefix ns
          (prefix_unique (vecPrefix_mem ns) (bqPrefix_mem ns) (mem_liveKeys.mp hin).1 hp)
      · rw [h.vec_keys]
        exact fun k hk heq => hcompanion ⟨k, hk, heq⟩
  · intro hsame key hkey
    have hp : bqPrefix ns <+: bqKey key := by
      rw [bqPrefix_eq, bqKey, bqKey, prefix_append_right_inj]
      exact (mem_liveKeys.mp hkey).1
    rw [hsame _ hp, h.bq_start _ hp]

theorem companions_length : (∀ key, bqPrefix ns <+: key → s₂.kv.get key = s.kv.get key) ↔
      (liveKeys s₂ (bqPrefix ns)).length = (liveKeys s (bqPrefix ns)).length := by
  constructor
  · exact fun hsame => congrArg List.length (liveKeys_congr hsame)
  · intro hlength key hp
    have hcount := h.bq_shrunk.countP (isLive s₂) (fun _ _ hlive => hlive)
    rw [countP_eq_length.mpr liveKeys_live, hlength] at hcount
    have hlive := countP_eq_length.mp hcount
    refine (h.bq_shrunk key hp).elim id (fun hnone => ?_)
    cases hget : s.kv.get key with
    | none => exact hnone
    | some content =>
      have hin : key ∈ liveKeys s (bqPrefix ns) :=
        mem_liveKeys.mpr ⟨hp, by rw [isLive, hget]; rfl⟩
      exact absurd ((dead_of_get hnone).symm.trans (hlive key hin)) (by decide)

/-- **Undisturbed deletes are those that leave no key of the first two prefixes, and take none
of the third.** -/
theorem undisturbed_iff : Undisturbed env s (bqPrefix ns) s.accesses
        (liveKeys s (memPrefix ns) ++ liveKeys s (vecPrefix ns)) ↔
      (liveKeys s (memPrefix ns)).countP (isLive s₄) = 0 ∧
        (liveKeys s (vecPrefix ns)).countP (isLive s₄) = 0 ∧
        ∀ key, bqPrefix ns <+: key → s₂.kv.get key = s.kv.get key := by
  obtain ⟨_, hvec⟩ := h.vec
  -- the deletes under the first prefix have no companions to disturb
  have hfirst : Undisturbed env s (bqPrefix ns) s.accesses (liveKeys s (memPrefix ns)) ↔
      (liveKeys s (memPrefix ns)).countP (isLive s₄) = 0 := by
    rw [h.mem.undisturbed, countP_eq_zero]
    constructor
    · rintro ⟨hdead, -⟩ key hkey
      rw [live_of_get (h.mem_get (mem_liveKeys.mp hkey).1), hdead key hkey]
      exact Bool.false_ne_true
    · intro hdead
      refine ⟨fun key hkey => ?_, fun key hkey hp => ?_⟩
      · rw [← live_of_get (h.mem_get (mem_liveKeys.mp hkey).1)]
        exact Bool.eq_false_of_not_eq_true (hdead key hkey)
      · exact absurd (prefix_unique (memPrefix_mem ns) (vecPrefix_mem ns) (mem_liveKeys.mp hkey).1
          (bqKey_under (bqPrefix_mem ns) hp).2) (memPrefix_ne_vecPrefix ns)
  -- a vector's companion is under the third prefix, which the first pass leaves alone
  have hsame : ∀ key ∈ liveKeys s (vecPrefix ns), SameFor env s s₁ key := by
    intro key hkey
    have hp := (mem_liveKeys.mp hkey).1
    refine ⟨h.vec_start key hp, h.bq_start _ ?_, h.mem.followed key⟩
    rw [bqPrefix_eq, bqKey, bqKey, prefix_append_right_inj]
    exact hp
  have hsecond : Undisturbed env s (bqPrefix ns) s₁.accesses (liveKeys s (vecPrefix ns)) ↔
      (liveKeys s (vecPrefix ns)).countP (isLive s₄) = 0 ∧
        ∀ key, bqPrefix ns <+: key → s₂.kv.get key = s.kv.get key := by
    have hundisturbed := hvec.undisturbed (bqPrefix ns)
    rw [h.vec_keys] at hundisturbed
    rw [← undisturbed_congr hsame, hundisturbed, countP_eq_zero, ← h.companions_iff]
    refine and_congr (forall₂_congr (fun key hkey => ?_)) (forall₂_congr (fun key hkey => ?_))
    · rw [live_of_get (h.vec_get (mem_liveKeys.mp hkey).1), Bool.not_eq_true]
    · refine ⟨fun hkept => hkept ?_, fun hkept _ => hkept⟩
      rw [bqPrefix_eq, bqKey, bqKey, prefix_append_right_inj]
      exact (mem_liveKeys.mp hkey).1
  rw [undisturbed_append]
  constructor
  · rintro ⟨hmem, hrest⟩
    rw [← h.mem.accesses _ hmem] at hrest
    exact ⟨hfirst.mp hmem, hsecond.mp hrest⟩
  · rintro ⟨hmem, hrest⟩
    refine ⟨hfirst.mpr hmem, ?_⟩
    rw [← h.mem.accesses _ (hfirst.mpr hmem)]
    exact hsecond.mpr hrest

end

end Passes

/-! ## The whole call -/

/-- The delete of a key that may not be there. -/
theorem dropKey_any (key : Bytes) (counts : DropCounts) (c : MemCtx) :
    ∃ counts' c', dropKey env counts key c = (.ok counts', c') ∧ counts'.deleted = counts.deleted ∧
      counts'.skippedWorm = counts.skippedWorm + (isRefused c.node key).toNat ∧
      counts'.errors = counts.errors + (isMutable c.node key && isLive c'.node key).toNat ∧
      ∀ k, k ≠ key → k ≠ bqKey key → c'.node.kv.get k = c.node.kv.get k := by
  cases hlive : isLive c.node key with
  | true =>
    obtain ⟨counts', c', hdrop, hpass⟩ := @dropKey_pass env key counts c hlive
    have hskipped := hpass.skippedWorm
    have herrors := hpass.errors
    rw [countP_singleton] at hskipped herrors
    refine ⟨counts', c', hdrop, hpass.deleted, ?_, ?_, fun k hk hbq => hpass.others k ?_ ?_⟩
    · rw [hskipped]
      cases isRefused c.node key <;> rfl
    · rw [herrors]
      cases isMutable c.node key && isLive c'.node key <;> rfl
    · exact fun hin => hk (mem_singleton.mp hin)
    · intro k' hk'
      rw [mem_singleton.mp hk']
      exact hbq
  | false =>
    have hnone : c.node.kv.get key = none := Option.not_isSome_iff_eq_none.mp (by
      rw [isLive] at hlive
      rw [hlive]
      exact Bool.false_ne_true)
    obtain ⟨c', hdrop, hkv, -⟩ := @dropKeys_dead env [key] counts c (by simpa using hnone)
    have hone : [key].foldlM (dropKey env) counts = dropKey env counts key := by
      rw [foldlM_cons]
      exact bind_pure _
    rw [hone] at hdrop
    refine ⟨counts, c', hdrop, rfl, ?_, ?_, fun k _ _ => by rw [hkv]⟩
    · rw [isRefused, hnone]
      rfl
    · rw [isMutable, hnone]
      rfl

/-- **A drop**: the deletes of the three prefixes and of the configuration, and what is
reported of them, unless the counters so far are more than the keys of a prefix. -/
theorem memDrop_run {auth : AuthContext} {args : List Bytes} (c : MemCtx) (harg : args[0]? = some ns)
    (hns : validateNs ns = true) (hpermits : permitsNamespace auth ns .delete = true) :
    ∃ counts₁ counts₂ counts₃ counts₄ s₁ s₂ s₃ c₄,
      Passes env ns counts₁ counts₂ counts₃ counts₄ (withoutIndex c.node ns) s₁ s₂ s₃ c₄.node ∧
      let n₁ := collected env (withoutIndex c.node ns) (memPrefix ns)
      let n₂ := collected env s₁ (vecPrefix ns)
      let n₃ := collected env s₂ (bqPrefix ns)
      let r₁ := counts₁.skippedWorm + counts₁.errors
      let r₂ := counts₂.skippedWorm + counts₂.errors
      let r₃ := counts₃.skippedWorm + counts₃.errors
      (r₂ ≤ n₂ → r₃ ≤ n₃ → memDrop env auth args c =
          (.ok (.value (some (dropText ns (hasIndex c.node ns) counts₄))), c₄) ∧
        counts₄.deleted = (n₁ - r₁) + (n₂ - r₂) + (n₃ - r₃)) ∧
      (¬ (r₂ ≤ n₂ ∧ r₃ ≤ n₃) → ∃ c', memDrop env auth args c = (.error .trap, c')) := by
  -- the four passes, each from the counters of the one before
  let c₀ : MemCtx := { c with node := withoutIndex c.node ns }
  obtain ⟨counts₁, c₁, hmem, hrun₁⟩ := @dropPrefix_spec env ⟨0, 0, 0⟩ (memPrefix ns) c₀
    (fun key k hkey hk => under_apart (memPrefix_mem ns) hkey hk)
  have hleft := hmem.left liveKeys_live
  have hle := countP_le_length (p := isLive c₁.node) (l := liveKeys c₀.node (memPrefix ns))
  dsimp only at hleft
  rw [if_pos (by rw [collected]; omega)] at hrun₁
  let counts₁' : DropCounts := { counts₁ with deleted := counts₁.deleted +
    (collected env c₀.node (memPrefix ns) - (counts₁.skippedWorm + counts₁.errors)) }
  obtain ⟨counts₂, c₂, hvec, hrun₂⟩ := @dropPrefix_spec env counts₁' (vecPrefix ns) c₁
    (fun key k hkey hk => under_apart (vecPrefix_mem ns) hkey hk)
  let counts₂' : DropCounts := { counts₂ with deleted := counts₂.deleted +
    (collected env c₁.node (vecPrefix ns) - (counts₂.skippedWorm + counts₂.errors)) }
  obtain ⟨counts₃, c₃, hbq, hrun₃⟩ := @dropPrefix_spec env counts₂' (bqPrefix ns) c₂
    (fun key k hkey hk => under_apart (bqPrefix_mem ns) hkey hk)
  let counts₃' : DropCounts := { counts₃ with deleted := counts₃.deleted +
    (collected env c₂.node (bqPrefix ns) - (counts₃.skippedWorm + counts₃.errors)) }
  obtain ⟨counts₄, c₄, hrun₄, hdeleted, hskipped, herrors, hrest⟩ :=
    @dropKey_any env (configKey ns) counts₃' c₃
  refine ⟨counts₁, counts₂, counts₃, counts₄, c₁.node, c₂.node, c₃.node, c₄,
    ⟨hmem, ⟨_, hvec⟩, ⟨_, hbq⟩, ⟨hskipped, herrors⟩, hrest⟩, ?_⟩
  let report (counts : DropCounts) : MemM Response := do
    let counts ← dropKey env counts (configKey ns)
    pure (.value (some (dropText ns (hasIndex c.node ns) counts)))
  -- the checks in front of the passes succeed
  have hstart : memDrop env auth args c =
      ((dropPrefixes ns).foldlM (dropPrefix env) ⟨0, 0, 0⟩ >>= report) c₀ := by
    have harg' : arg args 0 "mem_drop requires: <ns>" c = (.ok ns, c) := by rw [arg, harg]; rfl
    have hvalid : ensure (validateNs ns) "mem_drop: invalid ns" c = (.ok (), c) := by
      rw [ensure, if_pos hns]
      rfl
    have hrequire : requireNamespace auth ns .delete c = (.ok (), c) := by
      rw [requireNamespace, ensure, if_pos hpermits]
      rfl
    have hindex : dropIndex ns c = (.ok (hasIndex c.node ns), c₀) := rfl
    exact (MemM.bind_ok harg' _).trans ((MemM.bind_ok hvalid _).trans ((MemM.bind_ok hrequire _).trans
      (MemM.bind_ok hindex _)))
  have hfirst : (dropPrefixes ns).foldlM (dropPrefix env) ⟨0, 0, 0⟩ c₀ =
      ([vecPrefix ns, bqPrefix ns].foldlM (dropPrefix env) counts₁') c₁ := by
    rw [dropPrefixes, foldlM_cons, MemM.bind_ok hrun₁]
  dsimp only
  constructor
  · intro hfits₂ hfits₃
    rw [if_pos hfits₂] at hrun₂
    rw [if_pos hfits₃] at hrun₃
    have hfold : (dropPrefixes ns).foldlM (dropPrefix env) ⟨0, 0, 0⟩ c₀ = (.ok counts₃', c₃) := by
      rw [hfirst, foldlM_cons, MemM.bind_ok hrun₂, foldlM_cons, MemM.bind_ok hrun₃]
      rfl
    refine ⟨?_, ?_⟩
    · rw [hstart, MemM.bind_ok hfold]
      exact MemM.bind_ok hrun₄ _
    · have h₁ := hmem.deleted
      have h₂ := hvec.deleted
      have h₃ := hbq.deleted
      have hc₀ : collected env c₀.node (memPrefix ns) =
          collected env (withoutIndex c.node ns) (memPrefix ns) := rfl
      dsimp only [counts₁', counts₂', counts₃'] at h₁ h₂ h₃ hdeleted
      omega
  · intro hshort
    by_cases hfits₂ : counts₂.skippedWorm + counts₂.errors ≤ collected env c₁.node (vecPrefix ns)
    · rw [if_pos hfits₂] at hrun₂
      rw [if_neg (fun hfits₃ => hshort ⟨hfits₂, hfits₃⟩)] at hrun₃
      have hfold : (dropPrefixes ns).foldlM (dropPrefix env) ⟨0, 0, 0⟩ c₀ = (.error .trap, c₃) := by
        rw [hfirst, foldlM_cons, MemM.bind_ok hrun₂, foldlM_cons, MemM.bind_error hrun₃]
      exact ⟨c₃, by rw [hstart, MemM.bind_error hfold]⟩
    · rw [if_neg hfits₂] at hrun₂
      have hfold : (dropPrefixes ns).foldlM (dropPrefix env) ⟨0, 0, 0⟩ c₀ = (.error .trap, c₂) := by
        rw [hfirst, foldlM_cons, MemM.bind_error hrun₂]
      exact ⟨c₂, by rw [hstart, MemM.bind_error hfold]⟩

/-- The index is not among what the keys are read from. -/
theorem withoutIndex_eq (s : Node) (ns : Bytes) :
    ∃ registry, withoutIndex s ns = { s with registry := registry } := by
  rw [withoutIndex]
  split
  · exact ⟨_, rfl⟩
  · exact ⟨s.registry, rfl⟩

theorem noneShown_iff : NoneShown env s ns ↔ (shownHits env s (memPrefix ns)).length = 0 ∧
    (shownHits env s (vecPrefix ns)).length = 0 ∧
    (shownHits env s (bqPrefix ns)).length = 0 := by
  simp only [NoneShown, dropPrefixes, forall_mem_cons, not_mem_nil, false_implies,
    implies_true, and_true, length_eq_zero_iff]

theorem NoneFrozen.shown (h : NoneFrozen env ns) : NoneShown env s ns := by
  intro p hp
  rw [shownHits, h p hp]
  rfl

/-- The report is right when the counters are not more than the keys, and the total is that of
the keys that are gone. -/
theorem Passes.right_iff {auth : AuthContext} {args : List Bytes} {c₄ : MemCtx} {n₁ n₂ n₃ : Nat}
    {indexDropped : Bool} {counts₁ counts₂ counts₃ counts₄ : DropCounts} {s₁ s₂ s₃ : Node}
    (h : Passes env ns counts₁ counts₂ counts₃ counts₄ s s₁ s₂ s₃ c₄.node)
    (hreturns : counts₂.skippedWorm + counts₂.errors ≤ n₂ → counts₃.skippedWorm + counts₃.errors ≤ n₃ →
      memDrop env auth args c = (.ok (.value (some (dropText ns indexDropped counts₄))), c₄) ∧
        counts₄.deleted = (n₁ - (counts₁.skippedWorm + counts₁.errors)) +
          (n₂ - (counts₂.skippedWorm + counts₂.errors)) + (n₃ - (counts₃.skippedWorm + counts₃.errors)))
    (htraps : ¬ (counts₂.skippedWorm + counts₂.errors ≤ n₂ ∧
      counts₃.skippedWorm + counts₃.errors ≤ n₃) → ∃ c', memDrop env auth args c = (.error .trap, c')) :
    (∃ counts c', memDrop env auth args c =
        (.ok (.value (some (dropText ns indexDropped counts))), c') ∧ Reported s c'.node ns counts) ↔
      counts₂.skippedWorm + counts₂.errors ≤ n₂ ∧ counts₃.skippedWorm + counts₃.errors ≤ n₃ ∧
        (n₁ - (counts₁.skippedWorm + counts₁.errors)) + (n₂ - (counts₂.skippedWorm + counts₂.errors)) +
          (n₃ - (counts₃.skippedWorm + counts₃.errors)) =
        (dropKeys s ns).countP (fun key => !isLive c₄.node key) := by
  constructor
  · rintro ⟨counts, c', hrun, hreported⟩
    by_cases hfits : counts₂.skippedWorm + counts₂.errors ≤ n₂ ∧
        counts₃.skippedWorm + counts₃.errors ≤ n₃
    · obtain ⟨hrun', hdeleted⟩ := hreturns hfits.1 hfits.2
      obtain ⟨htext, rfl⟩ := Prod.mk.inj (hrun.symm.trans hrun')
      obtain rfl := dropText_inj (Option.some.inj (Response.value.inj (Except.ok.inj htext)))
      exact ⟨hfits.1, hfits.2, hdeleted.symm.trans hreported.deleted⟩
    · obtain ⟨c'', htrap⟩ := htraps hfits
      exact nomatch (Prod.mk.inj (hrun.symm.trans htrap)).1
  · rintro ⟨hfits₂, hfits₃, hdeleted⟩
    obtain ⟨hrun, htotal⟩ := hreturns hfits₂ hfits₃
    exact ⟨counts₄, c₄, hrun, htotal.trans hdeleted, h.skippedWorm, h.errors⟩

/-- **The report of a drop is right when no delete under the first two prefixes is refused or
fails, no companion goes with a vector, and no key is in the segments only**; and short of keys
in the segments, which are counted as deleted, it is right on no other occasion. -/
theorem drop_counts (env : MemEnv) (auth : AuthContext) (args : List Bytes) (c : MemCtx) {ns : Bytes}
    (harg : args[0]? = some ns) (hns : validateNs ns = true)
    (hpermits : permitsNamespace auth ns .delete = true) :
    (Calm env c.node ns → (ReportsRight env auth args c ns ↔ NoneShown env c.node ns)) ∧
      (NoneFrozen env ns → (ReportsRight env auth args c ns ↔ Calm env c.node ns)) := by
  obtain ⟨counts₁, counts₂, counts₃, counts₄, s₁, s₂, s₃, c₄, h, hreturns, htraps⟩ :=
    @memDrop_run env ns auth args c harg hns hpermits
  obtain ⟨registry, hs⟩ := withoutIndex_eq c.node ns
  have hcalm : Calm env c.node ns ↔ Undisturbed env (withoutIndex c.node ns) (bqPrefix ns)
      (withoutIndex c.node ns).accesses (liveKeys (withoutIndex c.node ns) (memPrefix ns) ++
        liveKeys (withoutIndex c.node ns) (vecPrefix ns)) := by
    rw [Calm, hs]
    exact Iff.rfl
  have hright : ReportsRight env auth args c ns ↔
      ∃ counts c', memDrop env auth args c =
          (.ok (.value (some (dropText ns (hasIndex c.node ns) counts))), c') ∧
        Reported (withoutIndex c.node ns) c'.node ns counts := by
    rw [ReportsRight, hs]
    exact ⟨fun ⟨counts, c', hrun, h₁, h₂, h₃⟩ => ⟨counts, c', hrun, h₁, h₂, h₃⟩,
      fun ⟨counts, c', hrun, h₁, h₂, h₃⟩ => ⟨counts, c', hrun, h₁, h₂, h₃⟩⟩
  have hshown : NoneShown env c.node ns ↔ NoneShown env (withoutIndex c.node ns) ns := by
    rw [hs]
    exact Iff.rfl
  rw [hcalm, hright, hshown, h.undisturbed_iff, h.right_iff hreturns htraps]
  -- what is reported and what is gone, as numbers of keys
  generalize withoutIndex c.node ns = s at h
  obtain ⟨hr₁, hr₂, hr₃⟩ := h.counters
  have hgone := h.gone
  have hn₂ : collected env s₁ (vecPrefix ns) = collected env s (vecPrefix ns) := by
    rw [collected, collected, h.vec_keys, shownHits_congr h.vec_start]
  rw [hn₂, hr₁, hr₂, hr₃]
  have hle₁ := countP_le_length (p := isLive c₄.node) (l := liveKeys s (memPrefix ns))
  have hle₃ := countP_le_length (p := isLive c₄.node) (l := liveKeys s₂ (bqPrefix ns))
  have hcollected : ∀ s p, collected env s p = (liveKeys s p).length + (shownHits env s p).length :=
    fun _ _ => rfl
  constructor
  · rintro ⟨hmem, hvec, hsame⟩
    have hlength := h.companions_length.mp hsame
    have hshown₃ := congrArg List.length (@shownHits_congr env _ _ _ hsame)
    rw [noneShown_iff]
    simp only [hcollected]
    omega
  · -- without frozen segments only a companion that went before can be missing
    intro hfrozen
    obtain ⟨hf₁, hf₂, -⟩ := noneShown_iff.mp (hfrozen.shown : NoneShown env s ns)
    obtain ⟨-, -, hf₃⟩ := noneShown_iff.mp (hfrozen.shown : NoneShown env s₂ ns)
    have hle : (liveKeys s₂ (bqPrefix ns)).length ≤ (liveKeys s (bqPrefix ns)).length := by
      have hcount := h.bq_shrunk.countP (isLive s₂) (fun _ _ hlive => hlive)
      rw [countP_eq_length.mpr liveKeys_live] at hcount
      rw [← hcount]
      exact countP_le_length
    rw [h.companions_length]
    simp only [hcollected]
    omega

end

/-- Nothing fails, and there are no segments, indexes or peers. -/
def plainEnv : MemEnv where
  clock _ := 0
  fault _ := none
  frozen _ := none
  rabitqEncode _ _ _ := []
  attached := false
  clustered := false
  frozenHits _ := []
  frozenHits_key _ _ h := nomatch h
  frozenHits_all _ _ _ h := nomatch h
  fault_io _ h := nomatch h

/-- One document of one namespace. -/
def oneDoc (isWorm : Bool) : MemCtx :=
  ⟨⟨ByteMap.empty.insert (docKey [110] [97]) ⟨[98], 0, isWorm⟩, none, [], [], [], 0⟩, []⟩

/-- Two documents, a vector and its companion, and a WORM document of another namespace. -/
def someDocs : MemCtx :=
  ⟨⟨[(docKey [110] [97], false), (docKey [110] [99], false), (vecKey [110] [97], false),
      (bqKey (vecKey [110] [97]), false), (docKey [111] [97], true)].foldl
    (fun kv (key, isWorm) => kv.insert key ⟨[98], 0, isWorm⟩) ByteMap.empty, none, [], [], [], 0⟩, []⟩

theorem drop_counts_some :
    (memDrop plainEnv .trusted [[110]] someDocs).1 =
        .ok (.value (some (dropText [110] false ⟨4, 0, 0⟩))) ∧
      ReportsRight plainEnv .trusted [[110]] someDocs [110] := by
  have hmem : liveKeys someDocs.node (memPrefix [110]) = [docKey [110] [99], docKey [110] [97]] := by
    decide +kernel
  have hvec : liveKeys someDocs.node (vecPrefix [110]) = [vecKey [110] [97]] := by decide +kernel
  refine ⟨by decide +kernel, ((drop_counts plainEnv .trusted [[110]] someDocs rfl (by decide) rfl).2
    (fun _ _ => rfl)).mpr ?_⟩
  rw [Calm, hmem, hvec]
  exact ⟨by decide +kernel, rfl, (absurd · (by decide)), by decide +kernel, rfl,
    (absurd · (by decide)), by decide +kernel, rfl, (absurd · (by decide)), trivial⟩

/-- The same document, in a mounted segment. -/
def frozenEnv : MemEnv where
  clock _ := 0
  fault _ := none
  frozen key := if key = docKey [110] [97] then some ⟨[98], 0, true⟩ else none
  rabitqEncode _ _ _ := []
  attached := false
  clustered := false
  frozenHits p := if p <+: docKey [110] [97] then [⟨docKey [110] [97], [98], 0, true⟩] else []
  frozenHits_key p hit h := by
    split at h
    · obtain rfl := mem_singleton.mp h
      exact ⟨‹_›, rfl⟩
    · cases h
  frozenHits_all p key hp hfrozen := by
    split at hfrozen
    · rename_i heq
      subst heq
      exact ⟨_, by rw [if_pos hp]; exact mem_singleton_self _, rfl⟩
    · cases hfrozen
  fault_io _ h := nomatch h

/-- **Dropping a namespace of one WORM document ends the process**; and a document that is in a
segment only is reported as deleted. -/
theorem drop_traps :
    ((memDrop plainEnv .trusted [[110]] (oneDoc true)).1 = .error .trap ∧
      ¬ ReportsRight plainEnv .trusted [[110]] (oneDoc true) [110]) ∧
    (memDrop frozenEnv .trusted [[110]] ⟨Executor.sampleNode, []⟩).1 =
        .ok (.value (some (dropText [110] false ⟨1, 0, 0⟩))) ∧
      ¬ ReportsRight frozenEnv .trusted [[110]] ⟨Executor.sampleNode, []⟩ [110] := by
  have htrap : (memDrop plainEnv .trusted [[110]] (oneDoc true)).1 = .error .trap := by decide +kernel
  have hreport : (memDrop frozenEnv .trusted [[110]] ⟨Executor.sampleNode, []⟩).1 =
      .ok (.value (some (dropText [110] false ⟨1, 0, 0⟩))) := by decide +kernel
  refine ⟨⟨htrap, ?_⟩, hreport, ?_⟩
  · rintro ⟨counts, c', hrun, -⟩
    rw [hrun] at htrap
    cases htrap
  · rintro ⟨counts, c', hrun, hreported⟩
    rw [hrun] at hreport
    obtain rfl := dropText_inj (Option.some.inj (Response.value.inj (Except.ok.inj hreport)))
    have hnone : dropKeys Executor.sampleNode [110] = [] := by decide +kernel
    have hdeleted := hreported.deleted
    rw [hnone] at hdeleted
    exact Nat.one_ne_zero hdeleted

end AgentMemory
end WormDB
