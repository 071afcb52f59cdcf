import WormDB.MmrInclusion
import WormDB.Sha256Eval
import Mathlib.Data.List.Nodup

/-! # Inclusion proofs are sound

Against the root of an accumulator over `leaves`, a proof that the verifier
accepts names the right leaf count and a leaf that is there (`verifyInclusion_sound`).
The prover of such a proof is free in all of it: index, count, siblings, peaks.

What is asked of SHA-256 is that it has no collision among the byte strings that
are hashed: the ones that make the accumulator's root (`accumulatorInputs`) and
the ones the verifier hashes (`verifierInputs`).  The root fixes the leaf count
and the peaks; from a peak the argument goes down the accumulator's own tree, one
parent at a time. -/
namespace WormDB
open List ByteCodec
namespace Mmr
variable (sha256 : Bytes → Hash)

/-- No two different byte strings of the list have the same hash. -/
def CollisionFree (inputs : List Bytes) : Prop :=
  ∀ a ∈ inputs, ∀ b ∈ inputs, sha256 a = sha256 b → a = b

/-- What is hashed for a tree of the accumulator. -/
def treeInputs (leaves : List Bytes) : Nat → Nat → List Bytes
  | 0, start => [leafPreimage start.toUInt64 (leafAt leaves start)]
  | height + 1, start =>
      parentPreimage (height + 1).toUInt8 (treeHash sha256 leaves height start)
          (treeHash sha256 leaves height (start + 2 ^ height)) ::
        (treeInputs leaves height start ++ treeInputs leaves height (start + 2 ^ height))

/-- What is hashed for an accumulator's root: its trees and the peaks. -/
def accumulatorInputs (leaves : List Bytes) (acc : Accumulator) : List Bytes :=
  rootPreimage acc.leafCount acc.copyPeaks ::
    acc.peaks.flatMap (fun m => treeInputs sha256 leaves m.height.toNat m.start.toNat)

/-- What `verifyPath` hashes. -/
def pathInputs (peakStart : Nat) : List PathItem → Nat → Nat → Hash → List Bytes
  | [], _, _, _ => []
  | item :: path, level, currentStart, current =>
      let start := Accumulator.pairStart peakStart level currentStart
      let preimage := if currentStart = start
        then parentPreimage (level + 1).toUInt8 current item.hash
        else parentPreimage (level + 1).toUInt8 item.hash current
      preimage :: pathInputs peakStart path (level + 1) start (sha256 preimage)

/-- What `verifyInclusion` hashes. -/
def verifierInputs (proof : InclusionProof) (leaf : Bytes) : List Bytes :=
  leafPreimage proof.leafIndex leaf :: rootPreimage proof.leafCount proof.peaks ::
    match peakStart (proof.peaks.take proof.peakIndex) with
    | none => []
    | some start => pathInputs sha256 start proof.path 0 proof.leafIndex.toNat
        (hashLeaf sha256 proof.leafIndex leaf)

/-! ## The preimages determine what went into them -/

theorem leafPreimage_inj {i j : UInt64} {a b : Bytes}
    (h : leafPreimage i a = leafPreimage j b) : a = b :=
  (append_inj h (by simp)).2

theorem parentPreimage_inj {h : UInt8} {l r l' r' : Hash}
    (he : parentPreimage h l r = parentPreimage h l' r') : l = l' ∧ r = r' := by
  obtain ⟨hleft, hright⟩ := append_inj he (by simp [l.size_eq, l'.size_eq])
  obtain ⟨-, hleft⟩ := append_inj hleft rfl
  exact ⟨Hash.ext_bytes hleft, Hash.ext_bytes hright⟩

theorem flatMap_inj_of_length {α : Type} {f : α → Bytes} {k : Nat} (hk : 0 < k)
    (hlen : ∀ x, (f x).length = k) (hinj : ∀ x y, f x = f y → x = y) {xs ys : List α}
    (h : xs.flatMap f = ys.flatMap f) : xs = ys := by
  induction xs generalizing ys with
  | nil =>
    cases ys with
    | nil => rfl
    | cons y ys =>
      have hl := congrArg List.length h
      rw [flatMap_nil, flatMap_cons, length_append, hlen, length_nil] at hl
      omega
  | cons x xs ih =>
    cases ys with
    | nil =>
      have hl := congrArg List.length h
      rw [flatMap_nil, flatMap_cons, length_append, hlen, length_nil] at hl
      omega
    | cons y ys =>
      rw [flatMap_cons, flatMap_cons] at h
      obtain ⟨hx, hxs⟩ := append_inj h (by rw [hlen, hlen])
      rw [hinj x y hx, ih hxs]

theorem rootPreimage_inj {n m : UInt64} {ps qs : List Peak}
    (h : rootPreimage n ps = rootPreimage m qs) : n = m ∧ ps = qs := by
  obtain ⟨hhead, hpeaks⟩ := append_inj h (by simp)
  obtain ⟨hcount, -⟩ := append_inj hhead (by simp)
  obtain ⟨-, hn⟩ := append_inj hcount rfl
  refine ⟨UInt64.toNat_inj.mp (beBytes_inj n.toNat_lt m.toNat_lt hn), ?_⟩
  refine flatMap_inj_of_length (by decide : 0 < proofPeakItemLen) encodePeak_length ?_ hpeaks
  rintro ⟨h1, x⟩ ⟨h2, y⟩ he
  obtain ⟨hheight, hbytes⟩ := cons.inj he
  exact congrArg₂ Peak.mk hheight (Hash.ext_bytes hbytes)

/-! ## Going down the tree -/

variable {sha256}

variable {leaves : List Bytes} {height p level : Nat}

/-- The parent of a tree inside a mountain is hashed for that mountain. -/
theorem parent_mem_treeInputs {s : Nat}
    (hlev : level + 1 ≤ height) (hps : p ≤ s) (hd : 2 ^ (level + 1) ∣ s - p)
    (hs : s < p + 2 ^ height) : parentPreimage (level + 1).toUInt8 (treeHash sha256 leaves level s)
      (treeHash sha256 leaves level (s + 2 ^ level)) ∈ treeInputs sha256 leaves height p := by
  induction height generalizing p with
  | zero => omega
  | succ height ih =>
    rcases Nat.eq_or_lt_of_le hlev with he | hlt
    · -- the mountain itself
      obtain rfl : level = height := by omega
      have hsp : s = p := by
        have := Nat.eq_zero_of_dvd_of_lt hd (by omega)
        omega
      rw [hsp]
      exact mem_cons_self
    · rw [Nat.two_pow_succ] at hs
      refine mem_cons_of_mem _ (mem_append.mpr ?_)
      by_cases hhalf : s < p + 2 ^ height
      · exact .inl (ih (by omega) hps hd hhalf)
      · refine .inr (ih (by omega) (by omega) ?_ (by omega))
        rw [Nat.sub_add_eq]
        exact Nat.dvd_sub hd (Nat.pow_dvd_pow 2 (by omega))

theorem leaf_mem_treeInputs {i : Nat} (hp : p ≤ i) (hi : i < p + 2 ^ height) :
    leafPreimage i.toUInt64 (leafAt leaves i) ∈ treeInputs sha256 leaves height p := by
  induction height generalizing p with
  | zero =>
    obtain rfl : i = p := by simp only [Nat.pow_zero] at hi; omega
    exact mem_singleton_self _
  | succ height ih =>
    rw [Nat.two_pow_succ] at hi
    refine mem_cons_of_mem _ (mem_append.mpr ?_)
    by_cases hhalf : i < p + 2 ^ height
    · exact .inl (ih hp hhalf)
    · exact .inr (ih (by omega) (by omega))

variable {inputs : List Bytes}

/-- **Soundness of the walk.**  A path that climbs to the hash of a mountain
starts at the hash of the mountain's own tree there. -/
theorem verifyPath_sound
    (hfree : CollisionFree sha256 inputs) {h : Nat}
    (htree : ∀ x ∈ treeInputs sha256 leaves h p, x ∈ inputs)
    {path : List PathItem} {c : Nat} {current : Hash} (hlev : level + path.length = h)
    (hpc : p ≤ c) (hd : 2 ^ level ∣ c - p) (hc : c < p + 2 ^ h)
    (hpath : ∀ x ∈ pathInputs sha256 p path level c current, x ∈ inputs)
    (hver : verifyPath sha256 p path level c current = some (treeHash sha256 leaves h p)) :
    current = treeHash sha256 leaves level c := by
  induction path generalizing level c current with
  | nil =>
    obtain rfl : level = h := hlev
    have hcp : c = p := by
      have := Nat.eq_zero_of_dvd_of_lt hd (by omega)
      omega
    rw [hcp]
    exact Option.some.inj hver
  | cons item path ih =>
    obtain ⟨hps, hsd, hside⟩ := pairStart_spec hpc hd
    rw [verifyPath] at hver
    rw [pathInputs] at hpath
    generalize Accumulator.pairStart p level c = s at hps hsd hside hver hpath
    rw [length_cons] at hlev
    have hpos := Nat.two_pow_pos level
    have hsc : s < p + 2 ^ h := by omega
    have hparent := htree _ (parent_mem_treeInputs (by omega) hps hsd hsc)
    split at hver
    · cases hver
    simp only [] at hver hpath
    have hpre := hpath _ mem_cons_self
    have hrest := fun x hx => hpath x (mem_cons_of_mem _ hx)
    by_cases he : c = s
    · rw [if_pos he] at hver hpre hrest
      split at hver
      · cases hver
      have hup := ih (by omega) hps hsd hsc hrest hver
      have hpair := parentPreimage_inj (hfree _ hpre _ hparent hup)
      rw [he]
      exact hpair.1
    · rw [if_neg he] at hver hpre hrest
      split at hver
      · cases hver
      have hup := ih (by omega) hps hsd hsc hrest hver
      have hpair := parentPreimage_inj (hfree _ hpre _ hparent hup)
      rw [hside.resolve_left he]
      exact hpair.2

/-- **Soundness.**  What the verifier accepts against the root of an accumulator
over `leaves` has their count, an index among them, and the leaf at that index. -/
theorem verifyInclusion_sound {sha256 : Bytes → Hash} {alloc : Accumulator.AllocSite → Bool}
    {leaves : List Bytes} {acc : Accumulator}
    (hrun : appendLeaves sha256 alloc .init leaves = (.ok (), acc))
    (proof : InclusionProof) (leaf : Bytes)
    (hfree : CollisionFree sha256
      (accumulatorInputs sha256 leaves acc ++ verifierInputs sha256 proof leaf))
    (haccept : verifyInclusion sha256 proof leaf (acc.root sha256) = true) :
    proof.leafCount.toNat = leaves.length ∧
      ∃ hi : proof.leafIndex.toNat < leaves.length, leaf = leaves.get ⟨_, hi⟩ := by
  have hrep := appendLeaves_represents alloc leaves (init_represents : Represents sha256 _ _)
  rw [hrun, nil_append] at hrep
  obtain ⟨-, hlt, peak, start, hpeak, -, hstart, hle, hgt, hlen, hver, hroot⟩ :=
    verifyInclusion_iff.mp haccept
  -- the root fixes the count and the peaks
  have hsame : proof.leafCount = acc.leafCount ∧ proof.peaks = acc.copyPeaks := by
    rw [root_eq] at hroot
    refine rootPreimage_inj (hfree _ ?_ _ ?_ hroot)
    · simp [verifierInputs]
    · simp [accumulatorInputs]
  obtain ⟨hcount, hpeaks⟩ := hsame
  have hi : proof.leafIndex.toNat < leaves.length := by
    rw [← hrep.count, ← hcount]
    exact UInt64.lt_iff_toNat_lt.mp hlt
  -- the peak is one of the accumulator's, and starts where the verifier says
  rw [hpeaks, copyPeaks_eq, getElem?_map] at hpeak
  obtain ⟨m, hm, rfl⟩ := Option.map_eq_some_iff.mp hpeak
  obtain ⟨htake, -, hhash, hfit⟩ := tiles_getElem hrep.tiles hrep.descending hm
  have hlt64 : leaves.length < 2 ^ 64 := hrep.count ▸ acc.leafCount.toNat_lt
  have hstart' : peakStart (proof.peaks.take proof.peakIndex) = some m.start.toNat := by
    rw [hpeaks, copyPeaks_eq, ← map_take, peakStart]
    exact peakStartFrom_of_tiles htake m.start.toNat_lt
  obtain rfl : start = m.start.toNat := Option.some.inj (hstart.symm.trans hstart')
  have htree : ∀ x ∈ treeInputs sha256 leaves m.height.toNat m.start.toNat,
      x ∈ accumulatorInputs sha256 leaves acc ++ verifierInputs sha256 proof leaf := by
    intro x hx
    refine mem_append_left _ (mem_cons_of_mem _ ?_)
    exact mem_flatMap.mpr ⟨m, mem_of_getElem? hm, hx⟩
  have hpath : ∀ x ∈ pathInputs sha256 m.start.toNat proof.path 0 proof.leafIndex.toNat
      (hashLeaf sha256 proof.leafIndex leaf),
      x ∈ accumulatorInputs sha256 leaves acc ++ verifierInputs sha256 proof leaf := by
    intro x hx
    refine mem_append_right _ (mem_cons_of_mem _ (mem_cons_of_mem _ ?_))
    rw [hstart']
    exact hx
  rw [toPeak_hash, hhash] at hver
  have hleaf := verifyPath_sound hfree htree (by rw [hlen, zero_add]; rfl) hle (by simp) hgt
    hpath hver
  -- down at the leaf
  have hmem := htree _ (leaf_mem_treeInputs hle hgt)
  have hback : proof.leafIndex.toNat.toUInt64 = proof.leafIndex := by
    rw [Nat.toUInt64_eq, UInt64.ofNat_toNat]
  have heq := leafPreimage_inj (hfree _ (by simp [verifierInputs]) _ hmem hleaf)
  refine ⟨by rw [hcount, hrep.count], hi, ?_⟩
  rw [heq]
  simp [leafAt, getD_eq_getElem?_getD, hi]

/-! ## On SHA-256 itself -/

/-- SHA-256, as the hash the accumulator is built with. -/
def sha256Digest (message : Bytes) : Hash := ⟨Sha256.digest message, Sha256.digest_length message⟩

/-- The same, for the kernel to evaluate. -/
def evalSha256 (message : Bytes) : Hash :=
  ⟨Sha256.evalDigest message, by
    rw [← Sha256.digest_eq_evalDigest]
    exact Sha256.digest_length message⟩

theorem sha256Digest_eq_eval : sha256Digest = evalSha256 := by
  funext message
  simp only [sha256Digest, evalSha256, Sha256.digest_eq_evalDigest]

theorem collisionFree_of_nodup {sha256 : Bytes → Hash} {distinct : List Bytes}
    (hsub : ∀ x ∈ inputs, x ∈ distinct) (hnodup : (distinct.map sha256).Nodup) :
    CollisionFree sha256 inputs := by
  intro a ha b hb heq
  exact inj_on_of_nodup_map hnodup (hsub a ha) (hsub b hb) heq

/-- The accumulator over the two leaves `"a"` and `"b"`. -/
def pairAccumulator : Accumulator :=
  (appendLeaves sha256Digest (fun _ => true) .init [ascii "a", ascii "b"]).2

/-- The proof of its first leaf. -/
def pairProof : InclusionProof :=
  ⟨0, 2, 0, [⟨.right, hashLeaf sha256Digest 1 (ascii "b")⟩], pairAccumulator.copyPeaks⟩

theorem pair_collisionFree : CollisionFree sha256Digest
    (accumulatorInputs sha256Digest [ascii "a", ascii "b"] pairAccumulator ++
      verifierInputs sha256Digest pairProof (ascii "a")) := by
  have hacc : accumulatorInputs sha256Digest [ascii "a", ascii "b"] pairAccumulator =
      [rootPreimage 2 pairAccumulator.copyPeaks,
        parentPreimage 1 (hashLeaf sha256Digest 0 (ascii "a"))
          (hashLeaf sha256Digest 1 (ascii "b")),
        leafPreimage 0 (ascii "a"), leafPreimage 1 (ascii "b")] := rfl
  have hverifier : verifierInputs sha256Digest pairProof (ascii "a") =
      [leafPreimage 0 (ascii "a"), rootPreimage 2 pairAccumulator.copyPeaks,
        parentPreimage 1 (hashLeaf sha256Digest 0 (ascii "a"))
          (hashLeaf sha256Digest 1 (ascii "b"))] := rfl
  have hnodup : ((accumulatorInputs sha256Digest [ascii "a", ascii "b"] pairAccumulator).map
      sha256Digest).Nodup := by
    rw [pairAccumulator, sha256Digest_eq_eval]
    decide +kernel
  -- the verifier of an honest proof hashes nothing the accumulator has not hashed
  have hsub : ∀ r p a b : Bytes, ∀ x ∈ [r, p, a, b] ++ [a, r, p], x ∈ [r, p, a, b] := by
    intro r p a b x hx
    rcases mem_append.mp hx with hx | hx
    · exact hx
    · simp only [mem_cons, not_mem_nil, or_false] at hx ⊢
      rcases hx with rfl | rfl | rfl <;> simp
  refine collisionFree_of_nodup ?_ hnodup
  rw [hverifier, hacc]
  exact hsub _ _ _ _

theorem verifyInclusion_sound_pair :
    pairProof.leafCount.toNat = [ascii "a", ascii "b"].length ∧
      ∃ hi : pairProof.leafIndex.toNat < [ascii "a", ascii "b"].length,
        ascii "a" = [ascii "a", ascii "b"].get ⟨_, hi⟩ := by
  have hrun : appendLeaves sha256Digest (fun _ => true) .init [ascii "a", ascii "b"] =
      (.ok (), pairAccumulator) := rfl
  refine verifyInclusion_sound hrun pairProof (ascii "a") pair_collisionFree ?_
  exact verifyInclusion_iff.mpr ⟨by decide, by decide, _, 0, rfl, by decide, rfl, by decide, by decide,
    rfl, rfl, rfl⟩

end Mmr
end WormDB
