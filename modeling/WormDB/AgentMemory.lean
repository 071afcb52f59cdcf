import WormDB.AuthMint
import WormDB.Executor
import WormDB.Scan
import WormDB.VectorFrame

/-! # The agent memory of `procedures/memory.zig`

A namespace has its documents and their metadata under `mem:<ns>:`, the vectors under
`vec:mem:<ns>:`, their quantised companions under `bq:vec:mem:<ns>:` and its configuration
under `__meta:mem:<ns>:`.  A procedure checks the name and asks the token for the four
prefixes before it goes to the store.

This module has what the procedures share: the checks, the keys, and the operations of
`procedures/context.zig`.  A call runs in `MemM`: it has the node to itself, and the keys
that it reads are kept next to the node.  Memory is assumed to be there. -/
namespace WormDB
open List ByteCodec PrefixMap NamespaceRegistry Auth

namespace AgentMemory

/-! ## Arguments and keys -/

def configKey (ns : Bytes) : Bytes := configPrefix ns ++ ascii "config"
def docKey (ns docId : Bytes) : Bytes := memPrefix ns ++ docId
def metaKey (ns docId : Bytes) : Bytes := memPrefix ns ++ docId ++ ascii ":meta"
def vecKey (ns docId : Bytes) : Bytes := vecPrefix ns ++ docId

inductive NamespaceAccess where
  | read | write | delete

def NamespaceAccess.op : NamespaceAccess → Operation
  | read => .get
  | write => .set
  | delete => .delete

/-! ## Calls -/

/-- What a call runs in: a node's environment, and the entries of the mounted segments under
a prefix, segment by segment.  A delete fails only with an error of the log. -/
structure MemEnv extends NodeEnv where
  frozenHits : Bytes → List ScanResult
  frozenHits_key : ∀ p, ∀ hit ∈ frozenHits p, p <+: hit.key ∧ (frozen hit.key).isSome
  frozenHits_all : ∀ p key, p <+: key → (frozen key).isSome → ∃ hit ∈ frozenHits p, hit.key = key
  fault_io : ∀ n, fault n ≠ some .wormViolation

structure MemCtx where
  node : Node
  reads : List Bytes

/-- How a call ends early: with a response, with the name of an error, or with the process. -/
inductive MemExit where
  | reply (response : Response)
  | error (name : Bytes)
  | trap
  deriving DecidableEq

def MemM (α : Type) : Type := MemCtx → Except MemExit α × MemCtx

namespace MemM
variable {α β : Type}

instance : Monad MemM where
  pure a := fun c => (.ok a, c)
  bind m f := fun c =>
    match m c with
    | (.ok a, c) => f a c
    | (.error exit, c) => (.error exit, c)

variable {m : MemM α} {c c' : MemCtx}

theorem bind_ok {a : α} (h : m c = (.ok a, c')) (f : α → MemM β) : (m >>= f) c = f a c' := by
  show (match m c with
    | (.ok a, c) => f a c
    | (.error exit, c) => (.error exit, c)) = _
  rw [h]

theorem bind_error {exit : MemExit} (h : m c = (.error exit, c'))
    (f : α → MemM β) : (m >>= f) c = (.error exit, c') := by
  show (match m c with
    | (.ok a, c) => f a c
    | (.error exit, c) => (.error exit, c)) = _
  rw [h]

instance : LawfulMonad MemM := by
  refine LawfulMonad.mk' MemM ?_ (fun _ _ => rfl) ?_
  · intro α m
    funext c
    rcases h : m c with ⟨exit | a, c'⟩
    · exact bind_error h _
    · exact bind_ok h _
  · intro α β γ m f g
    funext c
    rcases h : m c with ⟨exit | a, c'⟩
    · rw [bind_error (bind_error h f) g, bind_error h]
    · rw [bind_ok h]
      rcases hf : f a c' with ⟨exit | b, c''⟩
      · rw [bind_error hf, bind_error ((bind_ok h f).trans hf)]
      · rw [bind_ok hf, bind_ok ((bind_ok h f).trans hf)]

end MemM

def exit {α : Type} (e : MemExit) : MemM α := fun c => (.error e, c)

/-- `return ctx.err`. -/
def err {α : Type} (message : Bytes) : MemM α := exit (.reply (.err message))

def arg (args : List Bytes) (i : Nat) (usage : String) : MemM Bytes :=
  match args[i]? with
  | some value => pure value
  | none => err (ascii usage)

/-- `return ctx.err` unless the test holds. -/
def ensure (test : Bool) (message : String) : MemM Unit :=
  if test then pure () else err (ascii message)

def permitsNamespace (auth : AuthContext) (ns : Bytes) (access : NamespaceAccess) : Bool :=
  (namespacePrefixes ns).all (fun pre => auth.permits access.op pre)

/-- `requireNamespace`, with what every procedure makes of its error. -/
def requireNamespace (auth : AuthContext) (ns : Bytes) (access : NamespaceAccess) : MemM Unit :=
  ensure (permitsNamespace auth ns access) "permission denied"

section
variable (env : MemEnv)

/-- A peer that does not get the frame is not an error. -/
def deleteDurable (key : Bytes) : MemM (Except StoreError Unit) := fun c =>
  match c.node.delete env.toNodeEnv key with
  | (.ok _, s) => (.ok (.ok ()), { c with node := s.replicate env.toNodeEnv true (.delete key) })
  | (.error e, s) => (.ok (.error e), { c with node := s })

/-! ## Scans -/

def liveResult (e : Bytes × Content) : ScanResult := ⟨e.1, e.2.value, e.2.timestamp, e.2.isWorm⟩

/-- The live entries under a prefix, shard by shard. -/
def liveHits (s : Node) (p : Bytes) : List ScanResult :=
  ((finRange shardCount).flatMap (fun i =>
    (s.kv.scan p).filter (fun e => shardIndex e.1 = i))).map liveResult

/-- The entries of the segments that no live entry shadows. -/
def shownHits (s : Node) (p : Bytes) : List ScanResult :=
  (env.frozenHits p).filter (fun hit => (s.kv.get hit.key).isNone)

/-- What `scanCallback` gives to a callback that never stops it. -/
def scanCallback (p : Bytes) : MemM (List ScanResult) := fun c =>
  let hits := liveHits c.node p ++ shownHits env c.node p
  (.ok hits, { c with reads := c.reads ++ hits.map ScanResult.key })

end

/-! ## What the operations do -/

variable {p : Bytes}

theorem mem_liveHits {s : Node} {hit : ScanResult} : hit ∈ liveHits s p ↔
      p <+: hit.key ∧ s.kv.get hit.key = some ⟨hit.value, hit.timestamp, hit.isWorm⟩ := by
  simp only [liveHits, mem_map, mem_flatMap, mem_filter, decide_eq_true_eq,
    mem_finRange, true_and]
  constructor
  · rintro ⟨⟨key, content⟩, ⟨i, hscan, -⟩, rfl⟩
    exact ByteMap.mem_scan_iff.mp hscan
  · intro h
    exact ⟨(hit.key, ⟨hit.value, hit.timestamp, hit.isWorm⟩),
      ⟨shardIndex hit.key, ByteMap.mem_scan_iff.mpr h, rfl⟩, rfl⟩

/-- Each live key is given once. -/
theorem liveHits_nodup (s : Node) (p : Bytes) : ((liveHits s p).map ScanResult.key).Nodup := by
  have hkeys : (liveHits s p).map ScanResult.key = (finRange shardCount).flatMap (fun i =>
      ((s.kv.scan p).map Prod.fst).filter (fun key => shardIndex key = i)) := by
    simp only [liveHits, map_map, map_flatMap, filter_map]
    rfl
  have hscan : ((s.kv.scan p).map Prod.fst).Nodup := by
    refine pairwise_map.mpr ((s.kv.ascending.filter _).imp ?_)
    rintro a b hlt heq
    exact List.lt_irrefl _ (heq ▸ hlt)
  rw [hkeys, nodup_flatMap]
  refine ⟨fun i _ => hscan.filter _, ?_⟩
  refine (nodup_finRange shardCount).imp ?_
  intro i j hne key hi hj
  have hi' := of_decide_eq_true (mem_filter.mp hi).2
  have hj' := of_decide_eq_true (mem_filter.mp hj).2
  exact hne (hi'.symm.trans hj')

/-! ## Whose a key is -/

theorem memPrefix_mem (ns : Bytes) : memPrefix ns ∈ namespacePrefixes ns := mem_cons_self
theorem vecPrefix_mem (ns : Bytes) : vecPrefix ns ∈ namespacePrefixes ns :=
  mem_cons_of_mem _ mem_cons_self
theorem bqPrefix_mem (ns : Bytes) : Auth.bqPrefix ns ∈ namespacePrefixes ns :=
  mem_cons_of_mem _ (mem_cons_of_mem _ mem_cons_self)
theorem configPrefix_mem (ns : Bytes) : configPrefix ns ∈ namespacePrefixes ns :=
  mem_cons_of_mem _ (mem_cons_of_mem _ (mem_cons_of_mem _ mem_cons_self))

variable {ns key : Bytes}

/-- A key is under one prefix of a namespace at most. -/
theorem prefix_unique {p' : Bytes} (hp : p ∈ namespacePrefixes ns)
    (hp' : p' ∈ namespacePrefixes ns) (hkey : p <+: key) (hkey' : p' <+: key) : p = p' := by
  obtain ⟨family, hfamily, rfl⟩ := namespacePrefixes_family hp
  obtain ⟨family', hfamily', rfl⟩ := namespacePrefixes_family hp'
  obtain ⟨rest, hrest⟩ := hkey
  obtain ⟨rest', hrest'⟩ := hkey'
  have heq : family ++ (ns ++ [Auth.colon] ++ rest) = family' ++ (ns ++ [Auth.colon] ++ rest') := by
    simpa only [append_assoc] using hrest.trans hrest'.symm
  rw [families_apart hfamily hfamily' heq]

theorem bqPrefix_eq (ns : Bytes) : Auth.bqPrefix ns = bqKey (vecPrefix ns) := rfl

/-- The prefixes of a namespace are four. -/
theorem namespacePrefixes_nodup (ns : Bytes) : (namespacePrefixes ns).Nodup := by
  have hmap : namespacePrefixes ns = families.map (fun family => family ++ ns ++ [Auth.colon]) := rfl
  rw [hmap]
  refine Nodup.map_on ?_ (by decide)
  intro a ha b hb heq
  refine families_apart ha hb (?_ : a ++ (ns ++ [Auth.colon]) = b ++ (ns ++ [Auth.colon]))
  simpa only [append_assoc] using heq

theorem prefixes_apart (ns : Bytes) :
    memPrefix ns ≠ vecPrefix ns ∧ memPrefix ns ≠ Auth.bqPrefix ns ∧ memPrefix ns ≠ configPrefix ns ∧
      vecPrefix ns ≠ Auth.bqPrefix ns ∧ vecPrefix ns ≠ configPrefix ns ∧
      Auth.bqPrefix ns ≠ configPrefix ns := by
  have h := namespacePrefixes_nodup ns
  simp only [namespacePrefixes, nodup_cons, mem_cons, not_mem_nil, or_false, not_or,
    not_false_eq_true, nodup_nil, and_true] at h
  obtain ⟨⟨hmv, hmb, hmc⟩, ⟨hvb, hvc⟩, hbc⟩ := h
  exact ⟨hmv, hmb, hmc, hvb, hvc, hbc⟩

theorem memPrefix_ne_vecPrefix (ns : Bytes) : memPrefix ns ≠ vecPrefix ns := (prefixes_apart ns).1
theorem memPrefix_ne_bqPrefix (ns : Bytes) : memPrefix ns ≠ Auth.bqPrefix ns := (prefixes_apart ns).2.1
theorem memPrefix_ne_configPrefix (ns : Bytes) : memPrefix ns ≠ configPrefix ns :=
  (prefixes_apart ns).2.2.1
theorem vecPrefix_ne_bqPrefix (ns : Bytes) : vecPrefix ns ≠ Auth.bqPrefix ns := (prefixes_apart ns).2.2.2.1
theorem vecPrefix_ne_configPrefix (ns : Bytes) : vecPrefix ns ≠ configPrefix ns :=
  (prefixes_apart ns).2.2.2.2.1
theorem bqPrefix_ne_configPrefix (ns : Bytes) : Auth.bqPrefix ns ≠ configPrefix ns :=
  (prefixes_apart ns).2.2.2.2.2

/-- The companions under the prefixes of a namespace are those of its vectors. -/
theorem bqKey_under (hp : p ∈ namespacePrefixes ns) (h : p <+: bqKey key) :
    p = Auth.bqPrefix ns ∧ vecPrefix ns <+: key := by
  have hhead : p.head? = some 98 := by
    obtain ⟨rest, hrest⟩ := h
    obtain ⟨family, hfamily, rfl⟩ := namespacePrefixes_family hp
    have hne : family ++ ns ++ [Auth.colon] ≠ [] := by simp
    have happend : (family ++ ns ++ [Auth.colon] ++ rest).head? = (family ++ ns ++ [Auth.colon]).head? :=
      head?_append_of_ne_nil _ hne
    rw [← happend, hrest]
    rfl
  simp only [namespacePrefixes, mem_cons, not_mem_nil, or_false] at hp
  rcases hp with rfl | rfl | rfl | rfl
  · exact absurd hhead (by simp [memPrefix, ascii])
  · exact absurd hhead (by simp [vecPrefix, ascii])
  · rw [bqPrefix_eq, bqKey, bqKey, prefix_append_right_inj] at h
    exact ⟨rfl, h⟩
  · exact absurd hhead (by simp [configPrefix, ascii])

end AgentMemory
end WormDB
