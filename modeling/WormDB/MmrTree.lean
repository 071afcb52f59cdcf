import WormDB.Mmr

/-! # What the accumulator stores

The mountains of an accumulator over `n` leaves tile `[0, n)` from left to right
with perfect trees of strictly decreasing height (`Tiles`), each peak's hash is
the hash of its tree (`treeHash`), and the node table holds every complete
aligned tree inside `[0, n)` (`Stored`).  `append` keeps this (`append_represents`):
its carry loop joins the tree ending at the new leaf with the last peak as long
as the two have the same height. -/
namespace WormDB
open List ByteCodec
namespace Mmr
variable (sha256 : Bytes → Hash)

/-- The leaf at index `i`. -/
def leafAt (leaves : List Bytes) (i : Nat) : Bytes := leaves.getD i []

/-- The hash of the perfect tree of the given height over the leaves from
`start` on. -/
def treeHash (leaves : List Bytes) : Nat → Nat → Hash
  | 0, start => hashLeaf sha256 start.toUInt64 (leafAt leaves start)
  | height + 1, start =>
      hashParent sha256 (height + 1).toUInt8 (treeHash leaves height start)
        (treeHash leaves height (start + 2 ^ height))

/-- A complete tree is not affected by later leaves. -/
theorem treeHash_append (leaves more : List Bytes) (height start : Nat)
    (h : start + 2 ^ height ≤ leaves.length) :
    treeHash sha256 (leaves ++ more) height start = treeHash sha256 leaves height start := by
  induction height generalizing start with
  | zero =>
    have hlt : start < leaves.length := by simp only [Nat.pow_zero] at h; omega
    simp [treeHash, leafAt, getD_eq_getElem?_getD, getElem?_append_left hlt]
  | succ height ih =>
    have hpos := Nat.two_pow_pos height
    rw [Nat.two_pow_succ] at h
    rw [treeHash, treeHash, ih start (by omega), ih (start + 2 ^ height) (by omega)]

/-- The mountains `ms` tile `[from, to)` in order, each with the hash of its tree. -/
def Tiles (leaves : List Bytes) : Nat → List Mountain → Nat → Prop
  | s, [], e => s = e
  | s, m :: ms, e =>
      m.start.toNat = s ∧ m.hash = treeHash sha256 leaves m.height.toNat s ∧
        Tiles leaves (s + 2 ^ m.height.toNat) ms e

/-- Every complete tree inside `[0, n)` whose start is aligned to its size is in
the node table. -/
def Stored (leaves : List Bytes) (nodes : Nat → Option Hash) (n : Nat) : Prop :=
  ∀ height start, 2 ^ height ∣ start → start + 2 ^ height ≤ n →
    nodes (nodeKey start height) = some (treeHash sha256 leaves height start)

/-- The heights of the peaks decrease strictly from left to right. -/
def Descending (ms : List Mountain) : Prop := ms.Pairwise (fun a b => b.height < a.height)

/-- What an accumulator stores after the given leaves were appended. -/
structure Represents (leaves : List Bytes) (acc : Accumulator) : Prop where
  count : acc.leafCount.toNat = leaves.length
  tiles : Tiles sha256 leaves 0 acc.peaks leaves.length
  descending : Descending acc.peaks
  stored : Stored sha256 leaves acc.nodes leaves.length

variable {sha256}

variable {leaves : List Bytes} {ms : List Mountain} {s e : Nat}

theorem Tiles.le (h : Tiles sha256 leaves s ms e) : s ≤ e := by
  induction ms generalizing s with
  | nil => exact Nat.le_of_eq h
  | cons m ms ih => exact Nat.le_trans (Nat.le_add_right _ _) (ih h.2.2)

theorem tiles_append {xs ys : List Mountain} : Tiles sha256 leaves s (xs ++ ys) e ↔
      ∃ m, Tiles sha256 leaves s xs m ∧ Tiles sha256 leaves m ys e := by
  induction xs generalizing s with
  | nil => exact ⟨fun h => ⟨s, rfl, h⟩, fun ⟨m, hm, h⟩ => hm ▸ h⟩
  | cons x xs ih =>
    constructor
    · rintro ⟨h1, h2, h3⟩
      obtain ⟨m, hxs, hys⟩ := ih.mp h3
      exact ⟨m, ⟨h1, h2, hxs⟩, hys⟩
    · rintro ⟨m, ⟨h1, h2, hxs⟩, hys⟩
      exact ⟨h1, h2, ih.mpr ⟨m, hxs, hys⟩⟩

theorem tiles_concat {m : Mountain} : Tiles sha256 leaves s (ms ++ [m]) e ↔
      Tiles sha256 leaves s ms m.start.toNat ∧
        m.hash = treeHash sha256 leaves m.height.toNat m.start.toNat ∧
        m.start.toNat + 2 ^ m.height.toNat = e := by
  rw [tiles_append]
  constructor
  · rintro ⟨k, hms, rfl, hh, he⟩
    exact ⟨hms, hh, he⟩
  · rintro ⟨hms, hh, he⟩
    exact ⟨_, hms, rfl, hh, he⟩

/-- Where every tree has at least height `k`, the total is a multiple of `2 ^ k`. -/
theorem Tiles.dvd {k : Nat} (h : Tiles sha256 leaves s ms e) (hs : 2 ^ k ∣ s)
    (hk : ∀ m ∈ ms, k ≤ m.height.toNat) : 2 ^ k ∣ e := by
  induction ms generalizing s with
  | nil => exact h ▸ hs
  | cons m ms ih =>
    refine ih h.2.2 ?_ (fun m' hm' => hk m' (mem_cons_of_mem _ hm'))
    exact Nat.dvd_add hs (Nat.pow_dvd_pow 2 (hk m mem_cons_self))

/-- Later leaves leave a tiling of earlier ones alone. -/
theorem Tiles.append_leaves
    (h : Tiles sha256 leaves s ms e) (he : e ≤ leaves.length) (more : List Bytes) :
    Tiles sha256 (leaves ++ more) s ms e := by
  induction ms generalizing s with
  | nil => exact h
  | cons m ms ih =>
    obtain ⟨h1, h2, h3⟩ := h
    have hle := h3.le
    exact ⟨h1, by rw [h2, treeHash_append sha256 leaves more _ _ (by omega)], ih h3⟩

variable {nodes : Nat → Option Hash} {n : Nat}

theorem Stored.append_leaves
    (h : Stored sha256 leaves nodes n) (hn : n ≤ leaves.length) (more : List Bytes) :
    Stored sha256 (leaves ++ more) nodes n := by
  intro height start hdvd hle
  rw [h height start hdvd hle, treeHash_append sha256 leaves more _ _ (by omega)]

variable {start height : Nat}

theorem nodeKey_eq (h : height < 256) : nodeKey start height = start * 256 + height := by
  rw [nodeKey, ← Nat.shiftLeft_add_eq_or_of_lt (by simpa using h), Nat.shiftLeft_eq]

theorem nodeKey_inj {s' h h' : Nat} (hh : h < 256) (hh' : h' < 256)
    (he : nodeKey s h = nodeKey s' h') : s = s' ∧ h = h' := by
  rw [nodeKey_eq hh, nodeKey_eq hh'] at he
  omega

/-- A tree inside the first `2 ^ 64` leaves has height below 64. -/
theorem height_lt_of_le (h : start + 2 ^ height ≤ n) (hn : n < 2 ^ 64) : height < 64 := by
  have hlt : 2 ^ height < 2 ^ 64 := by omega
  exact (Nat.pow_lt_pow_iff_right (by omega)).mp hlt

theorem toNat_height_succ {height : UInt8} (h : height.toNat < 255) :
    (height + 1).toNat = height.toNat + 1 := by
  rw [UInt8.toNat_add]
  simp only [UInt8.toNat_one]
  omega

/-! ## The carry loop -/

variable (sha256) in
/-- What holds at the head of the carry loop: `rest` are the peaks still in the
list, last one first, and `carry` is the tree that ends at the new leaf.  The
table has every tree of the old leaves and, of those ending at the new leaf, the
ones up to the carry's height. -/
structure Carrying (leaves : List Bytes) (n : Nat) (rest : List Mountain) (carry : Mountain)
    (nodes : Nat → Option Hash) : Prop where
  tiles : Tiles sha256 leaves 0 rest.reverse carry.start.toNat
  descending : Descending rest.reverse
  above : ∀ m ∈ rest, carry.height.toNat ≤ m.height.toNat
  hash : carry.hash = treeHash sha256 leaves carry.height.toNat carry.start.toNat
  stop : carry.start.toNat + 2 ^ carry.height.toNat = n + 1
  old : Stored sha256 leaves nodes n
  new : ∀ height start, 2 ^ height ∣ start → start + 2 ^ height = n + 1 →
    height ≤ carry.height.toNat →
      nodes (nodeKey start height) = some (treeHash sha256 leaves height start)

variable (sha256) in
/-- The peak merged by one turn of the loop. -/
def joined (left carry : Mountain) : Mountain :=
  ⟨left.start, left.height + 1, hashParent sha256 (left.height + 1) left.hash carry.hash⟩

variable {carry : Mountain} {rest : List Mountain}

/-- **One turn of the carry loop**: joining the last peak with a carry of its own
height keeps the loop's invariant. -/
theorem Carrying.join {left : Mountain} (hn : n + 1 < 2 ^ 64)
    (h : Carrying sha256 leaves n (left :: rest) carry nodes) (he : left.height = carry.height) :
    Carrying sha256 leaves n rest (joined sha256 left carry) (Function.update nodes
        (nodeKey left.start.toNat (left.height + 1).toNat)
        (some (joined sha256 left carry).hash)) := by
  have htiles := h.tiles
  have hdesc := h.descending
  rw [reverse_cons] at htiles hdesc
  obtain ⟨htl, hlh, hle⟩ := tiles_concat.mp htiles
  obtain ⟨hd, -, hlt⟩ := pairwise_append.mp hdesc
  have hstop := h.stop
  have hfit : left.start.toNat + 2 ^ left.height.toNat ≤ n + 1 := by
    have := Nat.two_pow_pos carry.height.toNat
    omega
  have hheight : left.height.toNat < 64 := height_lt_of_le hfit hn
  have hsucc : (left.height + 1).toNat = left.height.toNat + 1 := toNat_height_succ (by omega)
  have habove : ∀ m ∈ rest, left.height.toNat + 1 ≤ m.height.toNat := by
    intro m hm
    exact UInt8.lt_iff_toNat_lt.mp (hlt m (mem_reverse.mpr hm) left (mem_singleton_self _))
  -- the peaks before are higher, so the joined tree starts at a multiple of its size
  have hdvd : 2 ^ (left.height.toNat + 1) ∣ left.start.toNat :=
    htl.dvd (Nat.dvd_zero _) (fun m hm => habove m (mem_reverse.mp hm))
  -- and it ends at the new leaf
  have hend : left.start.toNat + 2 ^ (left.height.toNat + 1) = n + 1 := by
    rw [Nat.two_pow_succ]
    rw [← he] at hstop
    omega
  have hhash : (joined sha256 left carry).hash =
      treeHash sha256 leaves (left.height.toNat + 1) left.start.toNat := by
    have hbyte : (left.height.toNat + 1).toUInt8 = left.height + 1 := by
      apply UInt8.toNat_inj.mp
      rw [toNat_toUInt8, hsucc]
      omega
    rw [treeHash, hbyte, hle, ← hlh]
    show hashParent sha256 (left.height + 1) left.hash carry.hash = _
    rw [h.hash, he]
  refine ⟨htl, hd, ?_, ?_, ?_, ?_, ?_⟩
  · intro m hm
    exact hsucc ▸ habove m hm
  · show (joined sha256 left carry).hash =
      treeHash sha256 leaves (left.height + 1).toNat left.start.toNat
    rw [hhash, hsucc]
  · show left.start.toNat + 2 ^ (left.height + 1).toNat = n + 1
    rw [hsucc, hend]
  · -- an old tree has another key: it does not end at the new leaf
    intro height start hds hle'
    have hlt64 : height < 64 := height_lt_of_le hle' (by omega)
    rw [Function.update_of_ne]
    · exact h.old height start hds hle'
    · intro hkey
      obtain ⟨rfl, rfl⟩ := nodeKey_inj (by omega) (by omega) hkey
      rw [hsucc] at hle'
      omega
  · intro height start hds hend' hhe
    have hlt64 : height < 64 := height_lt_of_le (Nat.le_of_eq hend') hn
    replace hhe : height ≤ left.height.toNat + 1 := hsucc ▸ hhe
    rcases Nat.eq_or_lt_of_le hhe with rfl | hlt'
    · have hs : start = left.start.toNat := by omega
      rw [hs, hsucc, Function.update_self, hhash]
    · rw [Function.update_of_ne]
      · exact h.new height start hds hend' (by rw [← he]; omega)
      · intro hkey
        have := (nodeKey_inj (by omega) (by omega) hkey).2
        omega

/-- **The whole carry loop.**  It ends with a carry strictly lower than every
peak left in the list, or on a failed allocation; it never finds the peaks out of
place. -/
theorem Carrying.mergePeaks
    (alloc : Accumulator.AllocSite → Bool) (hn : n + 1 < 2 ^ 64)
    (h : Carrying sha256 leaves n rest carry nodes) :
    match Accumulator.mergePeaks sha256 alloc rest carry nodes with
    | (.ok carry', rest', nodes') =>
        Carrying sha256 leaves n rest' carry' nodes' ∧ ∀ m ∈ rest', carry'.height < m.height
    | (.error e, _, _) => e = .outOfMemory ∧ ∃ site, alloc site = false := by
  induction rest generalizing carry nodes with
  | nil => exact ⟨h, by simp⟩
  | cons left rest ih =>
    rw [Accumulator.mergePeaks]
    by_cases he : left.height = carry.height
    · have htiles := h.tiles
      rw [reverse_cons] at htiles
      have hle : left.start.toNat + peakSize left.height.toNat = carry.start.toNat :=
        (tiles_concat.mp htiles).2.2
      rw [if_neg (not_not_intro he), if_neg (not_not_intro hle)]
      cases ha : alloc (.node (left.height + 1).toNat) with
      | true =>
        simp only [ha, if_true]
        exact ih (h.join hn he)
      | false =>
        simp only [ha, Bool.false_eq_true, if_false]
        exact ⟨trivial, _, ha⟩
    · rw [if_pos he]
      refine ⟨h, ?_⟩
      -- the last peak is the lowest, and it is not as low as the carry
      have hdesc := h.descending
      rw [reverse_cons] at hdesc
      have hlast := (pairwise_append.mp hdesc).2.2
      have hleft : carry.height < left.height := by
        have hle := h.above left mem_cons_self
        have hne : carry.height.toNat ≠ left.height.toNat :=
          fun hx => he (UInt8.toNat_inj.mp hx).symm
        exact UInt8.lt_iff_toNat_lt.mpr (by omega)
      intro m hm
      rcases mem_cons.mp hm with rfl | hm
      · exact hleft
      · exact UInt8.lt_trans hleft
          (hlast m (mem_reverse.mpr hm) left (mem_singleton_self _))

/-! ## Appending -/

theorem init_represents : Represents sha256 [] Accumulator.init where
  count := rfl
  tiles := rfl
  descending := Pairwise.nil
  stored := by
    intro height start _ hle
    have := Nat.two_pow_pos height
    simp at hle

/-- A tree that ends at the new leaf is not higher than the final carry: the
leaves before the carry are a multiple of twice its size. -/
theorem Carrying.height_le (h : Carrying sha256 leaves n rest carry nodes)
    (hlt : ∀ m ∈ rest, carry.height < m.height)
    (hd : 2 ^ height ∣ start) (he : start + 2 ^ height = n + 1) : height ≤ carry.height.toNat := by
  have hcd : 2 ^ (carry.height.toNat + 1) ∣ carry.start.toNat :=
    h.tiles.dvd (Nat.dvd_zero _) (fun m hm => UInt8.lt_iff_toNat_lt.mp (hlt m (mem_reverse.mp hm)))
  by_contra hgt
  have hn : 2 ^ (carry.height.toNat + 1) ∣ n + 1 := by
    rw [← he]
    exact Nat.dvd_trans (Nat.pow_dvd_pow 2 (by omega)) (Nat.dvd_add hd (Nat.dvd_refl _))
  rw [← h.stop, Nat.dvd_add_right hcd] at hn
  exact absurd (Nat.le_of_dvd (Nat.two_pow_pos _) hn)
    (by rw [Nat.two_pow_succ]; have := Nat.two_pow_pos carry.height.toNat; omega)

variable {acc : Accumulator}

/-- A new leaf enters the carry loop as a tree of height zero. -/
theorem Represents.carrying
    (h : Represents sha256 leaves acc) (hlen : leaves.length + 1 < 2 ^ 64) (leaf : Bytes) :
    Carrying sha256 (leaves ++ [leaf]) leaves.length acc.peaks.reverse
      ⟨acc.leafCount, 0, hashLeaf sha256 acc.leafCount leaf⟩
      (Function.update acc.nodes (nodeKey acc.leafCount.toNat 0)
        (some (hashLeaf sha256 acc.leafCount leaf))) := by
  have hhash : hashLeaf sha256 acc.leafCount leaf =
      treeHash sha256 (leaves ++ [leaf]) 0 acc.leafCount.toNat := by
    have hleaf : leafAt (leaves ++ [leaf]) acc.leafCount.toNat = leaf := by
      simp [leafAt, h.count]
    rw [treeHash, hleaf, Nat.toUInt64_eq, UInt64.ofNat_toNat]
  refine ⟨?_, ?_, fun _ _ => Nat.zero_le _, hhash, ?_, ?_, ?_⟩
  · rw [reverse_reverse]
    show Tiles sha256 _ 0 acc.peaks acc.leafCount.toNat
    rw [h.count]
    exact h.tiles.append_leaves (Nat.le_refl _) [leaf]
  · rw [reverse_reverse]
    exact h.descending
  · show acc.leafCount.toNat + 2 ^ 0 = _
    rw [h.count, Nat.pow_zero]
  · intro height start hd hle
    have hlt64 : height < 64 := height_lt_of_le hle (by omega)
    have hpos := Nat.two_pow_pos height
    rw [Function.update_of_ne]
    · exact (h.stored.append_leaves (Nat.le_refl _) [leaf]) height start hd hle
    · intro hkey
      have hs := (nodeKey_inj (by omega) (by omega) hkey).1
      rw [h.count] at hs
      omega
  · intro height start _ hend hle
    have h0 : height = 0 := Nat.le_zero.mp hle
    subst h0
    have hs : start = acc.leafCount.toNat := by
      rw [h.count]
      simpa using hend
    rw [hs, Function.update_self, hhash]

/-- **`append` keeps the representation** when it returns a root, which is then
the new accumulator's; it fails only at the largest leaf count or when an
allocation fails. -/
theorem append_represents
    (alloc : Accumulator.AllocSite → Bool) (h : Represents sha256 leaves acc) (leaf : Bytes) :
    match acc.append sha256 alloc leaf with
    | (.ok root, acc') => root = acc'.root sha256 ∧ Represents sha256 (leaves ++ [leaf]) acc'
    | (.error e, _) => (e = .tooManyLeaves ∧ leaves.length = maxU64) ∨
        (e = .outOfMemory ∧ ∃ site, alloc site = false) := by
  rw [Accumulator.append]
  by_cases hmax : acc.leafCount.toNat = maxU64
  · rw [if_pos hmax]
    exact .inl ⟨rfl, h.count ▸ hmax⟩
  have hlen : leaves.length + 1 < 2 ^ 64 := by
    have hlt := acc.leafCount.toNat_lt
    rw [maxU64] at hmax
    rw [← h.count]
    omega
  rw [if_neg hmax]
  cases ha : alloc (.node 0) with
  | false =>
    simp only [Bool.false_eq_true, if_false]
    exact .inr ⟨trivial, _, ha⟩
  | true =>
    simp only [if_true]
    -- the leaf is a carry of height zero
    have hm := (h.carrying hlen leaf).mergePeaks alloc hlen
    generalize Accumulator.mergePeaks sha256 alloc acc.peaks.reverse _ _ = merged at hm ⊢
    obtain ⟨e | carry, rest, nodes⟩ := merged
    · exact .inr hm
    · obtain ⟨hc, hlt⟩ := hm
      cases hp : alloc .peaks with
      | false =>
        simp only [Bool.false_eq_true, if_false]
        exact .inr ⟨trivial, _, hp⟩
      | true =>
        simp only [if_true]
        have hcount : (acc.leafCount + 1).toNat = leaves.length + 1 := by
          rw [UInt64.toNat_add, h.count]
          simp only [UInt64.toNat_one]
          omega
        refine ⟨trivial, ?_, ?_, ?_, ?_⟩
        · rw [hcount, length_append, length_singleton]
        · rw [length_append, length_singleton]
          exact tiles_concat.mpr ⟨hc.tiles, hc.hash, hc.stop⟩
        · refine pairwise_append.mpr ⟨hc.descending, pairwise_singleton _ _, ?_⟩
          intro m hm b hb
          rw [mem_singleton.mp hb]
          exact hlt m (mem_reverse.mp hm)
        · rw [length_append, length_singleton]
          intro height start hd hle
          rcases Nat.eq_or_lt_of_le hle with he | hl
          · exact hc.new height start hd he (hc.height_le hlt hd he)
          · exact hc.old height start hd (by omega)

variable (sha256) in
/-- Append the leaves one by one, stopping at the first error. -/
def appendLeaves (alloc : Accumulator.AllocSite → Bool) :
    Accumulator → List Bytes → Except Error Unit × Accumulator
  | acc, [] => (.ok (), acc)
  | acc, leaf :: leaves =>
      match acc.append sha256 alloc leaf with
      | (.error e, acc') => (.error e, acc')
      | (.ok _, acc') => appendLeaves alloc acc' leaves

theorem appendLeaves_represents (alloc : Accumulator.AllocSite → Bool) (more : List Bytes) (h : Represents sha256 leaves acc) :
    match appendLeaves sha256 alloc acc more with
    | (.ok _, acc') => Represents sha256 (leaves ++ more) acc'
    | (.error e, _) => (e = .tooManyLeaves ∧ maxU64 < leaves.length + more.length) ∨
        (e = .outOfMemory ∧ ∃ site, alloc site = false) := by
  induction more generalizing leaves acc with
  | nil => rwa [appendLeaves, append_nil]
  | cons leaf more ih =>
    rw [appendLeaves, length_cons]
    have hstep := append_represents alloc h leaf
    generalize acc.append sha256 alloc leaf = appended at hstep ⊢
    obtain ⟨e | root, acc₁⟩ := appended
    · exact hstep.imp (fun ⟨he, hl⟩ => ⟨he, by omega⟩) id
    · have hrest := ih hstep.2
      rw [append_assoc, singleton_append, length_append,
        length_singleton] at hrest
      show match appendLeaves sha256 alloc acc₁ more with
        | (.ok _, acc') => Represents sha256 (leaves ++ leaf :: more) acc'
        | (.error e, _) => (e = .tooManyLeaves ∧ maxU64 < leaves.length + (more.length + 1)) ∨
            (e = .outOfMemory ∧ ∃ site, alloc site = false)
      generalize appendLeaves sha256 alloc acc₁ more = run at hrest ⊢
      obtain ⟨e | u, acc₂⟩ := run
      · exact hrest.imp (fun ⟨he, hl⟩ => ⟨he, by omega⟩) id
      · exact hrest

end Mmr
end WormDB
