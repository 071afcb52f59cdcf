import WormDB.MmrTree
import WormDB.MmrCodec

/-! # Inclusion proofs are complete and sound

Completeness (`prove_verifies`): the accumulator proves every leaf it holds, the
verifier accepts the proof, and it still does after the proof went through bytes.
Soundness (`verifyInclusion_sound`): against the root of an accumulator, whatever
proof the verifier accepts names the right leaf count and a leaf that is there.

Both rest on one fact about the walk (`pairStart_spec`): from a level-`l` tree
inside a mountain, the pair the loop computes is the level-`l + 1` tree that
contains it, and the tree is its left or its right half. -/
namespace WormDB
open List ByteCodec
namespace Mmr
variable {sha256 : Bytes → Hash}

/-! ## The walk inside one mountain -/

variable {p l c : Nat}

/-- The pair of level-`l` trees around the one at `c`, in a mountain that begins
at `p`. -/
theorem pairStart_spec (hpc : p ≤ c) (hd : 2 ^ l ∣ c - p) :
    p ≤ Accumulator.pairStart p l c ∧ 2 ^ (l + 1) ∣ Accumulator.pairStart p l c - p ∧
      (c = Accumulator.pairStart p l c ∨ c = Accumulator.pairStart p l c + 2 ^ l) := by
  obtain ⟨k, hk⟩ := hd
  have hpos := Nat.two_pow_pos l
  have hdiv : (c - p) / (2 ^ l * 2) = k / 2 := by
    rw [hk, Nat.mul_div_mul_left _ _ hpos]
  have hstart : Accumulator.pairStart p l c = p + k / 2 * (2 ^ l * 2) := by
    rw [Accumulator.pairStart, peakSize, hdiv]
  have hsplit : c = p + k / 2 * (2 ^ l * 2) + k % 2 * 2 ^ l := by
    have h2 : 2 ^ l * k = k / 2 * (2 ^ l * 2) + k % 2 * 2 ^ l := by
      conv => lhs; rw [← Nat.div_add_mod k 2]
      rw [Nat.mul_add, mul_comm (2 ^ l) (k % 2), ← mul_assoc, mul_comm (2 ^ l * 2)]
    omega
  rw [hstart]
  refine ⟨by omega, ⟨k / 2, ?_⟩, ?_⟩
  · rw [Nat.pow_succ]
    simp [mul_comm]
  · rcases Nat.mod_two_eq_zero_or_one k with h0 | h1
    · left; rw [h0] at hsplit; omega
    · right; rw [h1] at hsplit; omega

variable {h s : Nat}

/-- A tree of a mountain whose first leaf is in the mountain lies in it whole. -/
theorem tree_fits (hps : p ≤ s) (hl : l ≤ h) (hd : 2 ^ l ∣ s - p)
    (hs : s < p + 2 ^ h) : s + 2 ^ l ≤ p + 2 ^ h := by
  obtain ⟨k, hk⟩ := hd
  obtain ⟨j, rfl⟩ := Nat.exists_eq_add_of_le hl
  have hpos := Nat.two_pow_pos l
  have hkj : k < 2 ^ j := by
    have hlt : 2 ^ l * k < 2 ^ l * 2 ^ j := by rw [← hk, ← Nat.pow_add]; omega
    exact Nat.lt_of_mul_lt_mul_left hlt
  have hle : 2 ^ l * (k + 1) ≤ 2 ^ l * 2 ^ j := Nat.mul_le_mul_left _ hkj
  rw [← Nat.pow_add, Nat.mul_add] at hle
  omega

variable {leaves : List Bytes}

/-- **Completeness of the walk.**  From the level-`level` tree at `c` the prover
finds every sibling in the node table, and the verifier climbs them to the
mountain's own hash. -/
theorem provePath_verifies {nodes : Nat → Option Hash} {n : Nat}
    (hst : Stored sha256 leaves nodes n) (hpd : 2 ^ h ∣ p) (hpn : p + 2 ^ h ≤ n) (hh : h < 64)
    (remaining : Nat) {level : Nat} (hlev : level + remaining = h) (hpc : p ≤ c)
    (hd : 2 ^ level ∣ c - p) (hc : c < p + 2 ^ h) :
    ∃ path, Accumulator.provePath nodes p remaining level c = .ok path ∧
      path.length = remaining ∧
      verifyPath sha256 p path level c (treeHash sha256 leaves level c) =
        some (treeHash sha256 leaves h p) := by
  induction remaining generalizing level c with
  | zero =>
    have hlh : level = h := by omega
    subst hlh
    -- at the top only the mountain itself is left
    have hcp : c = p := by
      have := Nat.eq_zero_of_dvd_of_lt hd (by omega)
      omega
    exact ⟨[], rfl, rfl, by rw [verifyPath, hcp]⟩
  | succ remaining ih =>
    obtain ⟨hps, hsd, hside⟩ := pairStart_spec hpc hd
    generalize hs : Accumulator.pairStart p level c = s at hps hsd hside
    have hpos := Nat.two_pow_pos level
    have hsc : s < p + 2 ^ h := by omega
    have hfit := tree_fits hps (show level + 1 ≤ h by omega) hsd hsc
    obtain ⟨path, hpath, hlen, hver⟩ := ih (show level + 1 + remaining = h by omega) hps hsd hsc
    have hsl : 2 ^ level ∣ s := by
      have h1 : 2 ^ level ∣ s - p := Nat.dvd_trans (Nat.pow_dvd_pow 2 (Nat.le_succ _)) hsd
      have h2 : 2 ^ level ∣ p := Nat.dvd_trans (Nat.pow_dvd_pow 2 (by omega)) hpd
      have h3 := Nat.dvd_add h1 h2
      rwa [Nat.sub_add_cancel hps] at h3
    rw [Nat.two_pow_succ] at hfit
    rw [treeHash] at hver
    rcases hside with he | he
    · -- `c` is the left half, its sibling the right one
      have hsib := hst level (c + peakSize level)
        (Nat.dvd_add (he ▸ hsl) (Nat.dvd_refl _)) (by rw [he, peakSize]; omega)
      refine ⟨⟨.right, treeHash sha256 leaves level (c + peakSize level)⟩ :: path, ?_, ?_, ?_⟩
      · simp only [Accumulator.provePath, hs, if_pos he, hsib, hpath]
      · simp [hlen]
      · rw [verifyPath, if_neg (show ¬ level ≥ 64 by omega)]
        simp only [hs, if_pos he, ne_eq, not_true_eq_false, if_false]
        rw [he, peakSize]
        exact hver
    · -- `c` is the right half
      have hne : ¬ c = s := by omega
      have hcs : c - peakSize level = s := by rw [peakSize]; omega
      have hsib := hst level s hsl (by omega)
      refine ⟨⟨.left, treeHash sha256 leaves level s⟩ :: path, ?_, ?_, ?_⟩
      · simp only [Accumulator.provePath, hs, if_neg hne, hcs, hsib, hpath]
      · simp [hlen]
      · rw [verifyPath, if_neg (show ¬ level ≥ 64 by omega)]
        simp only [hs, if_neg hne, ne_eq, not_true_eq_false, if_false]
        rw [he]
        exact hver

/-! ## The peaks of an accumulator, as the verifier sees them -/

/-- A mountain's entry in a proof. -/
def Mountain.toPeak (m : Mountain) : Peak := ⟨m.height, m.hash⟩

@[simp] theorem toPeak_height (m : Mountain) : m.toPeak.height = m.height := rfl
@[simp] theorem toPeak_hash (m : Mountain) : m.toPeak.hash = m.hash := rfl

theorem copyPeaks_eq (acc : Accumulator) : acc.copyPeaks = acc.peaks.map Mountain.toPeak := rfl

/-- The two root functions of the source agree. -/
theorem root_eq (acc : Accumulator) :
    acc.root sha256 = rootFromPeaks sha256 acc.leafCount acc.copyPeaks := by
  simp [Accumulator.root, rootFromMountains, rootFromPeaks, rootPreimage, Accumulator.copyPeaks,
    flatMap_map]

variable {ms : List Mountain} {e i : Nat}

/-- The peak that holds leaf `i`, with what the tiling says about its place. -/
theorem findPeakIndex_spec (h : Tiles sha256 leaves s ms e) (hsi : s ≤ i) (hie : i < e) :
    ∃ idx m, ms.findIdx? (fun peak => decide (peak.start.toNat ≤ i ∧
        i < peak.start.toNat + peakSize peak.height.toNat)) = some idx ∧ ms[idx]? = some m ∧
      m.start.toNat ≤ i ∧ i < m.start.toNat + 2 ^ m.height.toNat := by
  induction ms generalizing s with
  | nil => rw [h] at hsi; omega
  | cons m ms ih =>
    obtain ⟨hstart, hhash, htl⟩ := h
    by_cases hi : i < s + 2 ^ m.height.toNat
    · refine ⟨0, m, ?_, rfl, by omega, by omega⟩
      rw [findIdx?_cons]
      simp [peakSize, hstart, hsi, hi]
    · obtain ⟨idx, m', hfind, hget, hle, hlt⟩ := ih htl (by omega)
      refine ⟨idx + 1, m', ?_, by simpa using hget, hle, hlt⟩
      rw [findIdx?_cons, hfind]
      simp [peakSize, hstart, hi]

/-- What a tiling says about the peak at index `idx`: it starts where the ones
before it end, at a multiple of its own size, and has its tree's hash. -/
theorem tiles_getElem {idx : Nat} {m : Mountain}
    (h : Tiles sha256 leaves 0 ms e) (hd : Descending ms) (hm : ms[idx]? = some m) :
    Tiles sha256 leaves 0 (ms.take idx) m.start.toNat ∧ 2 ^ m.height.toNat ∣ m.start.toNat ∧
      m.hash = treeHash sha256 leaves m.height.toNat m.start.toNat ∧
      m.start.toNat + 2 ^ m.height.toNat ≤ e := by
  obtain ⟨hlt, rfl⟩ := List.getElem?_eq_some_iff.mp hm
  have hsplit : ms = ms.take idx ++ ms[idx] :: ms.drop (idx + 1) := by
    rw [getElem_cons_drop, take_append_drop]
  rw [hsplit] at h hd
  obtain ⟨k, htake, hstart, hhash, hrest⟩ := tiles_append.mp h
  have hhigh := (pairwise_append.mp hd).2.2
  subst hstart
  refine ⟨htake, ?_, hhash, hrest.le⟩
  refine htake.dvd (Nat.dvd_zero _) (fun a ha => ?_)
  exact Nat.le_of_lt (UInt8.lt_iff_toNat_lt.mp (hhigh a ha _ mem_cons_self))

theorem peakStartFrom_of_tiles (h : Tiles sha256 leaves s ms e) (he : e < 2 ^ 64) :
    peakStartFrom (ms.map Mountain.toPeak) s = some e := by
  induction ms generalizing s with
  | nil => rw [show s = e from h]; rfl
  | cons m ms ih =>
    obtain ⟨-, -, htl⟩ := h
    have hle := htl.le
    have hheight := height_lt_of_le hle he
    have hroom : ¬ maxU64 - s < peakSize m.height.toNat := by
      rw [maxU64, peakSize]
      omega
    rw [map_cons, peakStartFrom, toPeak_height, if_neg (by omega), if_neg hroom]
    exact ih htl

theorem canonicalTotal_of_tiles
    {prev : Option UInt8} (h : Tiles sha256 leaves s ms e) (hd : Descending ms)
    (hprev : ∀ q ∈ prev, ∀ m ∈ ms, m.height < q) (he : e < 2 ^ 64) :
    canonicalTotal (ms.map Mountain.toPeak) s prev = some e := by
  induction ms generalizing s prev with
  | nil => rw [show s = e from h]; rfl
  | cons m ms ih =>
    obtain ⟨-, -, htl⟩ := h
    have hle := htl.le
    have hheight := height_lt_of_le hle he
    obtain ⟨hhead, htail⟩ := pairwise_cons.mp hd
    have hany : prev.any (fun q => decide (m.height ≥ q)) = false := by
      cases prev with
      | none => rfl
      | some q =>
        have hlt := hprev q rfl m mem_cons_self
        simpa using hlt
    have hroom : ¬ maxU64 - s < peakSize m.height.toNat := by
      rw [maxU64, peakSize]
      omega
    rw [map_cons, canonicalTotal, toPeak_height, if_neg (by omega), if_neg (by simp [hany]),
      if_neg hroom]
    refine ih htl htail (fun q hq m' hm' => ?_)
    cases hq
    exact hhead m' hm'

variable {acc : Accumulator}

theorem Represents.canonical
    (h : Represents sha256 leaves acc) : peaksAreCanonical acc.leafCount acc.copyPeaks = true := by
  have hlt : leaves.length < 2 ^ 64 := h.count ▸ acc.leafCount.toNat_lt
  have htotal : canonicalTotal (acc.peaks.map Mountain.toPeak) 0 none = some leaves.length :=
    canonicalTotal_of_tiles h.tiles h.descending (by simp) hlt
  have hzero : acc.leafCount = 0 ↔ leaves.length = 0 := by
    rw [← h.count, ← UInt64.toNat_inj, UInt64.toNat_zero]
  have htiles := h.tiles
  rw [peaksAreCanonical, copyPeaks_eq]
  by_cases h0 : leaves.length = 0
  · rw [if_pos (hzero.mpr h0)]
    rw [h0] at htiles
    cases hp : acc.peaks with
    | nil => rfl
    | cons m ms =>
      rw [hp] at htiles
      have := htiles.2.2.le
      have := Nat.two_pow_pos m.height.toNat
      omega
  · rw [if_neg (fun hx => h0 (hzero.mp hx)), if_neg]
    · rw [htotal, h.count]
      simp
    · intro hempty
      have hnil : acc.peaks = [] := by simpa using hempty
      rw [hnil] at htiles
      exact h0 (Eq.symm htiles)

/-- What acceptance by the verifier means. -/
theorem verifyInclusion_iff {proof : InclusionProof} {leaf : Bytes} {root : Hash} :
    verifyInclusion sha256 proof leaf root = true ↔
      proof.leafCount ≠ 0 ∧ proof.leafIndex < proof.leafCount ∧
      ∃ peak start, proof.peaks[proof.peakIndex]? = some peak ∧
        peaksAreCanonical proof.leafCount proof.peaks = true ∧
        peakStart (proof.peaks.take proof.peakIndex) = some start ∧
        start ≤ proof.leafIndex.toNat ∧
        proof.leafIndex.toNat < start + 2 ^ peak.height.toNat ∧
        proof.path.length = peak.height.toNat ∧
        verifyPath sha256 start proof.path 0 proof.leafIndex.toNat
          (hashLeaf sha256 proof.leafIndex leaf) = some peak.hash ∧
        rootFromPeaks sha256 proof.leafCount proof.peaks = root := by
  unfold verifyInclusion
  by_cases h0 : proof.leafCount = 0
  · simp [h0]
  by_cases hlt : proof.leafIndex ≥ proof.leafCount
  · have hnot : ¬ proof.leafIndex < proof.leafCount := UInt64.not_lt.mpr hlt
    simp [h0, hlt, hnot]
  rw [if_neg h0, if_neg hlt]
  cases hp : proof.peaks[proof.peakIndex]? with
  | none => simp
  | some peak =>
    cases hs : peakStart (proof.peaks.take proof.peakIndex) with
    | none => simp
    | some start =>
      have hlt' : proof.leafIndex < proof.leafCount := by simpa using hlt
      cases hv : verifyPath sha256 start proof.path 0 proof.leafIndex.toNat
          (hashLeaf sha256 proof.leafIndex leaf) with
      | none => simp [hv]
      | some current => simp [h0, hlt', hv, peakSize, and_assoc]

/-! ## Completeness -/

theorem tiles_height_lt
    (h : Tiles sha256 leaves s ms e) (he : e < 2 ^ 64) : ∀ m ∈ ms, m.height.toNat < 64 := by
  induction ms generalizing s with
  | nil => simp
  | cons m ms ih =>
    intro a ha
    rcases mem_cons.mp ha with rfl | ha
    · exact height_lt_of_le h.2.2.le he
    · exact ih h.2.2 a ha

/-- There are no more peaks than heights. -/
theorem descending_length_le {k : Nat} (hd : Descending ms)
    (hk : ∀ m ∈ ms, m.height.toNat < k) : ms.length ≤ k := by
  induction ms generalizing k with
  | nil => exact Nat.zero_le k
  | cons m ms ih =>
    obtain ⟨hhead, htail⟩ := pairwise_cons.mp hd
    have hlen := ih htail (fun a ha => UInt8.lt_iff_toNat_lt.mp (hhead a ha))
    have hm := hk m mem_cons_self
    rw [length_cons]
    omega

/-- The accumulator proves each of its leaves, and the verifier accepts. -/
theorem Represents.prove_accepted (h : Represents sha256 leaves acc) (hi : i < leaves.length) :
    ∃ proof, acc.prove i.toUInt64 = .ok proof ∧
      verifyInclusion sha256 proof (leafAt leaves i) (acc.root sha256) = true ∧
      proof.peakIndex < 64 ∧ proof.path.length < 64 ∧ proof.peaks.length ≤ 64 := by
  have hlt : leaves.length < 2 ^ 64 := h.count ▸ acc.leafCount.toNat_lt
  have hi64 : i.toUInt64.toNat = i := UInt64.toNat_ofNat_of_lt' (by
    rw [UInt64.size]
    omega)
  obtain ⟨idx, m, hfind, hget, hle, hlt'⟩ := findPeakIndex_spec h.tiles (Nat.zero_le i) hi
  obtain ⟨htake, hdvd, hhash, hfit⟩ := tiles_getElem h.tiles h.descending hget
  have hheight : m.height.toNat < 64 := height_lt_of_le hfit hlt
  obtain ⟨path, hpath, hlen, hver⟩ := provePath_verifies h.stored hdvd hfit hheight
    m.height.toNat (zero_add _) hle (by simp) hlt'
  have hpeaks : acc.peaks.length ≤ 64 :=
    descending_length_le h.descending (tiles_height_lt h.tiles hlt)
  have hidx : idx < acc.peaks.length := (List.getElem?_eq_some_iff.mp hget).1
  refine ⟨⟨i.toUInt64, acc.leafCount, idx, path, acc.copyPeaks⟩, ?_, ?_, ?_, ?_, ?_⟩
  · rw [Accumulator.prove, hi64, if_neg (by rw [h.count]; omega)]
    simp only [Accumulator.findPeakIndex, hfind, hget, hpath]
  · refine verifyInclusion_iff.mpr ⟨?_, ?_, m.toPeak, m.start.toNat, ?_, h.canonical, ?_, ?_, ?_, ?_,
      ?_, (root_eq acc).symm⟩
    · intro h0
      have hcount := h.count
      rw [show acc.leafCount = 0 from h0, UInt64.toNat_zero] at hcount
      omega
    · rw [UInt64.lt_iff_toNat_lt, hi64, h.count]
      exact hi
    · simp [copyPeaks_eq, hget]
    · rw [copyPeaks_eq, ← map_take, peakStart]
      exact peakStartFrom_of_tiles htake (by omega)
    · rw [hi64]
      exact hle
    · rw [hi64]
      exact hlt'
    · exact hlen
    · rw [hi64, toPeak_hash, hhash]
      exact hver
  · exact Nat.lt_of_lt_of_le hidx hpeaks
  · rw [hlen]
    exact hheight
  · rw [copyPeaks_eq, length_map]
    exact hpeaks

/-- **Completeness.**  Appending the leaves one by one fails only beyond the
largest leaf count or when an allocation fails; otherwise every leaf has a proof
that the verifier accepts against the root, before and after it went through
bytes. -/
theorem prove_verifies (sha256 : Bytes → Hash) (alloc : Accumulator.AllocSite → Bool)
    (leaves : List Bytes) :
    match appendLeaves sha256 alloc .init leaves with
    | (.ok _, acc) => ∀ i, ∀ hi : i < leaves.length,
        ∃ proof bytes, acc.prove i.toUInt64 = .ok proof ∧
          verifyInclusion sha256 proof (leaves.get ⟨i, hi⟩) (acc.root sha256) = true ∧
          encodeInclusionProof proof = .ok bytes ∧
          ∃ decoded, decodeInclusionProof bytes = .ok decoded ∧
            verifyInclusion sha256 decoded (leaves.get ⟨i, hi⟩) (acc.root sha256) = true
    | (.error e, _) => (e = .tooManyLeaves ∧ maxU64 < leaves.length) ∨
        (e = .outOfMemory ∧ ∃ site, alloc site = false) := by
  have hrun := appendLeaves_represents alloc leaves (init_represents : Represents sha256 _ _)
  rw [nil_append, length_nil, zero_add] at hrun
  generalize appendLeaves sha256 alloc .init leaves = run at hrun ⊢
  obtain ⟨e | u, acc⟩ := run
  · exact hrun
  · intro i hi
    obtain ⟨proof, hprove, hver, hindex, hpath, hpeaks⟩ := hrun.prove_accepted hi
    have hleaf : leafAt leaves i = leaves.get ⟨i, hi⟩ := by
      simp [leafAt, getD_eq_getElem?_getD, hi]
    have henc : ∃ bytes, encodeInclusionProof proof = .ok bytes := by
      rw [encodeInclusionProof, if_neg (by omega), if_neg (by rw [proofMaxPathItems]; omega),
        if_neg (by rw [proofMaxPeaks]; omega)]
      exact ⟨_, rfl⟩
    obtain ⟨bytes, hbytes⟩ := henc
    rw [hleaf] at hver
    exact ⟨proof, bytes, hprove, hver, hbytes, proof, decode_encode hbytes, hver⟩

end Mmr
end WormDB
