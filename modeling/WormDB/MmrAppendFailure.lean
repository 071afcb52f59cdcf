import WormDB.MmrSoundness

/-! # What a failed append leaves behind

`Accumulator.append` takes a peak off the list before it allocates the node that
replaces it.  When that allocation fails the peak is gone, the leaf count still counts
the leaves under it, and the next append builds on what is left.  Which allocations can
do that depends on the leaf count alone: an append onto `n` leaves hashes a tree of
height `h` exactly when `2 ^ h` divides `n + 1` (`Carrying.mergePeaks_error`,
`append_ok_alloc`).

`append_atomic_iff` is the exact condition, for every accumulator reached by successful
appends.  The model lets the peak list fail to grow after a merge too, which the source's
list, having just shrunk, does not need to do. -/
namespace WormDB
open List ByteCodec
namespace Mmr
variable {sha256 : Bytes → Hash}

/-! ## The property -/

variable (sha256) in
/-- An accumulator after appends that all succeeded, each with an allocator of its own,
and the leaves it holds. -/
inductive Reached : List Bytes → Accumulator → Prop where
  | init : Reached [] .init
  | append {leaves : List Bytes} {acc acc' : Accumulator} {root : Hash}
      (h : Reached leaves acc) (alloc : Accumulator.AllocSite → Bool) (leaf : Bytes)
      (hok : acc.append sha256 alloc leaf = (.ok root, acc')) : Reached (leaves ++ [leaf]) acc'

variable (sha256) in
/-- `acc'` is as good as `acc`, which holds the leaves, for the append of `leaf`. -/
structure Preserved (leaves : List Bytes) (acc acc' : Accumulator) (leaf : Bytes) : Prop where
  leafCount : acc'.leafCount = acc.leafCount
  peaks : acc'.peaks = acc.peaks
  root : acc'.root sha256 = acc.root sha256
  provable : ∀ i, ∀ hi : i < leaves.length, ∃ proof, acc'.prove i.toUInt64 = .ok proof ∧
    verifyInclusion sha256 proof (leaves.get ⟨i, hi⟩) (acc.root sha256) = true
  sameRetry : ∀ alloc, (acc'.append sha256 alloc leaf).1 = (acc.append sha256 alloc leaf).1
  retry : leaves.length ≠ maxU64 →
    ∃ root, (acc'.append sha256 (fun _ => true) leaf).1 = .ok root

variable (sha256) in
/-- A failed append of `leaf` has changed nothing that counts. -/
def Atomic (leaves : List Bytes) (acc : Accumulator) (alloc : Accumulator.AllocSite → Bool)
    (leaf : Bytes) : Prop :=
  ∀ e acc', acc.append sha256 alloc leaf = (.error e, acc') →
    Preserved sha256 leaves acc acc' leaf

/-- No allocation fails once a peak is off the list, for an append onto `n` leaves: there
is no append at the largest count, none past a leaf whose node has no room, and no peak
taken when `n` is even; otherwise every tree the new leaf completes has room, and the
list has. -/
def RoomToMerge (alloc : Accumulator.AllocSite → Bool) (n : Nat) : Prop :=
  n = maxU64 ∨ alloc (.node 0) = false ∨ ¬2 ∣ n + 1 ∨
    (∀ height, 0 < height → 2 ^ height ∣ n + 1 → alloc (.node height) = true) ∧
      alloc .peaks = true

variable {leaves : List Bytes} {acc : Accumulator}

theorem Reached.represents (h : Reached sha256 leaves acc) : Represents sha256 leaves acc := by
  induction h with
  | init => exact init_represents
  | append _ alloc leaf hok ih =>
    have hstep := append_represents alloc ih leaf
    rw [hok] at hstep
    exact hstep.2

/-! ## The carry loop and its allocations -/

variable (sha256) in
/-- The loop's outcome and the peaks it leaves do not depend on the node table. -/
theorem mergePeaks_nodes (alloc : Accumulator.AllocSite → Bool) (rest : List Mountain)
    (carry : Mountain) (nodes nodes' : Nat → Option Hash) :
    (Accumulator.mergePeaks sha256 alloc rest carry nodes).1 =
        (Accumulator.mergePeaks sha256 alloc rest carry nodes').1 ∧
      (Accumulator.mergePeaks sha256 alloc rest carry nodes).2.1 =
        (Accumulator.mergePeaks sha256 alloc rest carry nodes').2.1 := by
  induction rest generalizing carry nodes nodes' with
  | nil => exact ⟨rfl, rfl⟩
  | cons left rest ih =>
    rw [Accumulator.mergePeaks, Accumulator.mergePeaks]
    split
    · exact ⟨rfl, rfl⟩
    split
    · exact ⟨rfl, rfl⟩
    dsimp only
    split
    · exact ih _ _ _
    · exact ⟨rfl, rfl⟩

theorem mergePeaks_suffix (alloc : Accumulator.AllocSite → Bool) (rest : List Mountain)
    (carry : Mountain) (nodes : Nat → Option Hash) :
    (Accumulator.mergePeaks sha256 alloc rest carry nodes).2.1 <:+ rest := by
  induction rest generalizing carry nodes with
  | nil => exact suffix_refl []
  | cons left rest ih =>
    rw [Accumulator.mergePeaks]
    split
    · exact suffix_refl _
    split
    · exact suffix_cons left rest
    dsimp only
    split
    · exact (ih _ _).trans (suffix_cons left rest)
    · exact suffix_cons left rest

variable {left carry : Mountain}

variable (sha256) in
/-- A peak as high as the carry is taken, whatever happens next. -/
theorem mergePeaks_pops (alloc : Accumulator.AllocSite → Bool)
    (rest : List Mountain) (nodes : Nat → Option Hash) (he : left.height = carry.height) :
    (Accumulator.mergePeaks sha256 alloc (left :: rest) carry nodes).2.1 <:+ rest := by
  rw [Accumulator.mergePeaks, if_neg (not_not_intro he)]
  split
  · exact suffix_refl rest
  dsimp only
  split
  · exact mergePeaks_suffix alloc rest _ _
  · exact suffix_refl rest

variable {alloc : Accumulator.AllocSite → Bool} {rest rest' : List Mountain}
  {nodes nodes' : Nat → Option Hash}

/-- The loop has allocated a node at every height it has climbed. -/
theorem mergePeaks_ok_alloc {carry' : Mountain}
    (h : Accumulator.mergePeaks sha256 alloc rest carry nodes = (.ok carry', rest', nodes'))
    {height : Nat} (hlow : carry.height.toNat < height) (hhigh : height ≤ carry'.height.toNat) :
    alloc (.node height) = true := by
  induction rest generalizing carry nodes with
  | nil =>
    cases h
    omega
  | cons left rest ih =>
    rw [Accumulator.mergePeaks] at h
    by_cases he : left.height = carry.height
    · rw [if_neg (not_not_intro he)] at h
      split at h
      · cases h
      dsimp only at h
      split at h
      · rename_i halloc
        have hsucc := UInt8.toNat_add left.height 1
        have hbyte := carry'.height.toNat_lt
        rw [he] at hsucc halloc
        rcases Nat.lt_or_ge (carry.height + 1).toNat height with hlt | hge
        · exact ih h (by rw [he]; exact hlt)
        · have heq : (carry.height + 1).toNat = height := by
            simp only [UInt8.toNat_one] at hsucc
            omega
          rwa [heq] at halloc
      · cases h
    · rw [if_pos he] at h
      cases h
      omega

variable {n : Nat}

/-- The size of the carry divides the count it completes. -/
theorem Carrying.dvd (h : Carrying sha256 leaves n rest carry nodes) :
    2 ^ carry.height.toNat ∣ n + 1 := by
  rw [← h.stop]
  refine Nat.dvd_add (h.tiles.dvd (Nat.dvd_zero _) ?_) (Nat.dvd_refl _)
  intro m hm
  exact h.above m (mem_reverse.mp hm)

/-- **Where the loop fails**: at the node of a tree the new leaf completes. -/
theorem Carrying.mergePeaks_error (hn : n + 1 < 2 ^ 64) {e : Error}
    (h : Carrying sha256 leaves n rest carry nodes)
    (hrun : Accumulator.mergePeaks sha256 alloc rest carry nodes = (.error e, rest', nodes')) :
    ∃ height, 0 < height ∧ 2 ^ height ∣ n + 1 ∧ alloc (.node height) = false := by
  induction rest generalizing carry nodes with
  | nil => cases hrun
  | cons left rest ih =>
    rw [Accumulator.mergePeaks] at hrun
    by_cases he : left.height = carry.height
    · have htiles := h.tiles
      rw [reverse_cons] at htiles
      have hle : left.start.toNat + peakSize left.height.toNat = carry.start.toNat :=
        (tiles_concat.mp htiles).2.2
      have hjoin := h.join hn he
      rw [if_neg (not_not_intro he), if_neg (not_not_intro hle)] at hrun
      dsimp only at hrun
      split at hrun
      · exact ih hjoin hrun
      · rename_i halloc
        have hstop := h.stop
        have hfit : left.start.toNat + 2 ^ left.height.toNat ≤ n + 1 := by
          have hpos := Nat.two_pow_pos carry.height.toNat
          rw [peakSize] at hle
          omega
        have hheight := height_lt_of_le hfit hn
        have hsucc : (left.height + 1).toNat = left.height.toNat + 1 :=
          toNat_height_succ (by omega)
        refine ⟨_, ?_, hjoin.dvd, eq_false_of_ne_true halloc⟩
        show 0 < (left.height + 1).toNat
        omega
    · rw [if_pos he] at hrun
      cases hrun

/-! ## Which appends merge -/

section
variable (h : Represents sha256 leaves acc)
include h

theorem Represents.succ_lt (hmax : acc.leafCount.toNat ≠ maxU64) : leaves.length + 1 < 2 ^ 64 := by
  have hlt := acc.leafCount.toNat_lt
  rw [maxU64] at hmax
  rw [← h.count]
  omega

/-- The last peak is a single leaf exactly when the count is odd. -/
theorem Represents.last_height
    (hrev : acc.peaks.reverse = left :: rest) : left.height = 0 ↔ 2 ∣ leaves.length + 1 := by
  have hpeaks : acc.peaks = rest.reverse ++ [left] := by
    rw [← reverse_reverse acc.peaks, hrev, reverse_cons]
  have htiles := h.tiles
  have hdesc := h.descending
  rw [hpeaks] at htiles hdesc
  obtain ⟨htl, -, hend⟩ := tiles_concat.mp htiles
  have hlt := (pairwise_append.mp hdesc).2.2
  have hdvd : 2 ^ (left.height.toNat + 1) ∣ left.start.toNat := by
    refine htl.dvd (Nat.dvd_zero _) ?_
    intro m hm
    exact UInt8.lt_iff_toNat_lt.mp (hlt m hm left (mem_singleton_self left))
  constructor
  · intro h0
    rw [h0, UInt8.toNat_zero] at hend hdvd
    omega
  · intro hodd
    by_contra h0
    have hpos : 0 < left.height.toNat := by
      refine Nat.pos_of_ne_zero (fun hx => h0 (UInt8.toNat_inj.mp ?_))
      rwa [UInt8.toNat_zero]
    have hsize : 2 ^ 1 ∣ 2 ^ left.height.toNat := Nat.pow_dvd_pow 2 hpos
    have hstart : 2 ^ 1 ∣ left.start.toNat :=
      Nat.dvd_trans (Nat.pow_dvd_pow 2 (Nat.le_add_left _ _)) hdvd
    omega

/-- Onto an even count the loop takes nothing. -/
theorem Represents.mergePeaks_even (heven : ¬2 ∣ leaves.length + 1)
    (alloc : Accumulator.AllocSite → Bool) (hcarry : carry.height = 0) (nodes : Nat → Option Hash) :
    Accumulator.mergePeaks sha256 alloc acc.peaks.reverse carry nodes =
      (.ok carry, acc.peaks.reverse, nodes) := by
  cases hrev : acc.peaks.reverse with
  | nil => rfl
  | cons left rest =>
    have hleft : left.height ≠ 0 := fun h0 => heven ((h.last_height hrev).mp h0)
    rw [Accumulator.mergePeaks, if_pos (by rwa [hcarry])]

/-- Onto an odd count it takes at least one peak. -/
theorem Represents.mergePeaks_odd (hodd : 2 ∣ leaves.length + 1)
    (alloc : Accumulator.AllocSite → Bool) (carry : Mountain) (hcarry : carry.height = 0)
    (nodes : Nat → Option Hash) :
    (Accumulator.mergePeaks sha256 alloc acc.peaks.reverse carry nodes).2.1.length <
      acc.peaks.length := by
  have hsame : acc.peaks.length = acc.peaks.reverse.length := length_reverse.symm
  cases hrev : acc.peaks.reverse with
  | nil =>
    have htiles := h.tiles
    rw [reverse_eq_nil_iff.mp hrev] at htiles
    have hzero : 0 = leaves.length := htiles
    omega
  | cons left rest =>
    have hleft := (h.last_height hrev).mpr hodd
    have hsuffix := mergePeaks_pops sha256 alloc rest nodes (hleft.trans hcarry.symm)
    have hlen := hsuffix.length_le
    rw [hrev, length_cons] at hsame
    omega

end

/-! ## What is left is as good as before -/

variable {acc' : Accumulator}

/-- An append's outcome depends on the count and the peaks only. -/
theorem append_congr (hcount : acc'.leafCount = acc.leafCount)
    (hpeaks : acc'.peaks = acc.peaks) (alloc : Accumulator.AllocSite → Bool) (leaf : Bytes) :
    (acc'.append sha256 alloc leaf).1 = (acc.append sha256 alloc leaf).1 := by
  rw [Accumulator.append, Accumulator.append, hcount, hpeaks]
  split
  · rfl
  dsimp only
  split
  · rename_i hmax halloc
    have hsame := mergePeaks_nodes sha256 alloc acc.peaks.reverse
      ⟨acc.leafCount, 0, hashLeaf sha256 acc.leafCount leaf⟩
      (Function.update acc'.nodes (nodeKey acc.leafCount.toNat 0)
        (some (hashLeaf sha256 acc.leafCount leaf)))
      (Function.update acc.nodes (nodeKey acc.leafCount.toNat 0)
        (some (hashLeaf sha256 acc.leafCount leaf)))
    revert hsame
    generalize Accumulator.mergePeaks sha256 alloc acc.peaks.reverse
      ⟨acc.leafCount, 0, hashLeaf sha256 acc.leafCount leaf⟩
      (Function.update acc'.nodes (nodeKey acc.leafCount.toNat 0)
        (some (hashLeaf sha256 acc.leafCount leaf))) = run'
    generalize Accumulator.mergePeaks sha256 alloc acc.peaks.reverse
      ⟨acc.leafCount, 0, hashLeaf sha256 acc.leafCount leaf⟩
      (Function.update acc.nodes (nodeKey acc.leafCount.toNat 0)
        (some (hashLeaf sha256 acc.leafCount leaf))) = run
    obtain ⟨r', rest', nodes'⟩ := run'
    obtain ⟨r, rest, nodes⟩ := run
    rintro ⟨rfl, rfl⟩
    cases r' with
    | error e => rfl
    | ok carry =>
      dsimp only
      split
      · rfl
      · rfl
  · rfl

/-- With room for everything an append only fails at the largest count. -/
theorem Represents.append_ok
    (h : Represents sha256 leaves acc) (hmax : leaves.length ≠ maxU64) (leaf : Bytes) :
    ∃ root, (acc.append sha256 (fun _ => true) leaf).1 = .ok root := by
  have hstep := append_represents (fun _ => true) h leaf
  generalize acc.append sha256 (fun _ => true) leaf = run at hstep ⊢
  obtain ⟨e | root, acc'⟩ := run
  · rcases hstep with ⟨-, hlen⟩ | ⟨-, _, hsite⟩
    · exact absurd hlen hmax
    · cases hsite
  · exact ⟨root, rfl⟩

variable {leaf : Bytes}

theorem Preserved.of_peaks
    (h' : Represents sha256 leaves acc') (hcount : acc'.leafCount = acc.leafCount)
    (hpeaks : acc'.peaks = acc.peaks) : Preserved sha256 leaves acc acc' leaf := by
  have hroot : acc'.root sha256 = acc.root sha256 := by
    rw [Accumulator.root, Accumulator.root, hcount, hpeaks]
  refine ⟨hcount, hpeaks, hroot, ?_, fun alloc => append_congr hcount hpeaks alloc leaf,
    fun hmax => h'.append_ok hmax leaf⟩
  intro i hi
  obtain ⟨proof, hprove, hver, -⟩ := h'.prove_accepted hi
  have hleaf : leafAt leaves i = leaves.get ⟨i, hi⟩ := by
    simp [leafAt, getD_eq_getElem?_getD, hi]
  rw [hleaf, hroot] at hver
  exact ⟨proof, hprove, hver⟩

/-- A node of the leaf that was not appended stands in nobody's way. -/
theorem Represents.with_leaf_node (h : Represents sha256 leaves acc) (hash : Hash) :
    Represents sha256 leaves ⟨acc.leafCount, acc.peaks,
      Function.update acc.nodes (nodeKey acc.leafCount.toNat 0) (some hash)⟩ := by
  refine ⟨h.count, h.tiles, h.descending, ?_⟩
  intro height start hdvd hle
  have hlt : leaves.length < 2 ^ 64 := h.count ▸ acc.leafCount.toNat_lt
  have hheight := height_lt_of_le hle hlt
  dsimp only
  rw [Function.update_of_ne]
  · exact h.stored height start hdvd hle
  · intro hkey
    obtain ⟨rfl, rfl⟩ := nodeKey_inj (by omega) (by omega) hkey
    rw [h.count] at hle
    omega

/-! ## The exact condition -/

variable (sha256) in
/-- An append that gets past its first node is its carry loop. -/
theorem append_eq (leaf : Bytes)
    (hmax : acc.leafCount.toNat ≠ maxU64) (hnode : alloc (.node 0) = true) :
    acc.append sha256 alloc leaf =
      match Accumulator.mergePeaks sha256 alloc acc.peaks.reverse
          ⟨acc.leafCount, 0, hashLeaf sha256 acc.leafCount leaf⟩
          (Function.update acc.nodes (nodeKey acc.leafCount.toNat 0)
            (some (hashLeaf sha256 acc.leafCount leaf))) with
      | (.error e, rest, nodes) => (.error e, ⟨acc.leafCount, rest.reverse, nodes⟩)
      | (.ok carry, rest, nodes) =>
          if alloc .peaks then
            let self' : Accumulator := ⟨acc.leafCount + 1, rest.reverse ++ [carry], nodes⟩
            (.ok (self'.root sha256), self')
          else
            (.error .outOfMemory, ⟨acc.leafCount, rest.reverse, nodes⟩) := by
  rw [Accumulator.append, if_neg hmax]
  exact if_pos hnode

theorem Represents.atomic_of_room (h : Represents sha256 leaves acc)
    (hroom : RoomToMerge alloc leaves.length) (leaf : Bytes) :
    Atomic sha256 leaves acc alloc leaf := by
  intro e acc' happ
  by_cases hmax : acc.leafCount.toNat = maxU64
  · rw [Accumulator.append, if_pos hmax] at happ
    cases happ
    exact .of_peaks h rfl rfl
  cases hnode : alloc (.node 0) with
  | false =>
    rw [Accumulator.append, if_neg hmax] at happ
    dsimp only at happ
    rw [hnode, if_neg Bool.false_ne_true] at happ
    cases happ
    exact .of_peaks h rfl rfl
  | true =>
    rw [append_eq sha256 leaf hmax hnode] at happ
    by_cases hodd : 2 ∣ leaves.length + 1
    · -- a tree is completed, so every allocation has room and the append does not fail
      rcases hroom with hx | hx | hx | ⟨hnodes, hlist⟩
      · exact absurd (h.count.trans hx) hmax
      · cases hx.symm.trans hnode
      · exact absurd hodd hx
      have hlen := h.succ_lt hmax
      have hc := h.carrying hlen leaf
      split at happ
      · rename_i hrun
        obtain ⟨height, hpos, hdvd, hfail⟩ := hc.mergePeaks_error hlen hrun
        rw [hnodes height hpos hdvd] at hfail
        cases hfail
      · rw [if_pos hlist] at happ
        cases happ
    · rw [h.mergePeaks_even hodd alloc rfl] at happ
      dsimp only at happ
      split at happ
      · cases happ
      · cases happ
        refine .of_peaks ?_ rfl (reverse_reverse _)
        rw [reverse_reverse]
        exact h.with_leaf_node _

theorem peaks_ne_of_length_lt {peaks : List Mountain} (h : rest.length < peaks.length) :
    rest.reverse ≠ peaks := by
  rintro rfl
  rw [length_reverse] at h
  exact Nat.lt_irrefl _ h

theorem Represents.room_of_atomic (h : Represents sha256 leaves acc)
    (hatomic : Atomic sha256 leaves acc alloc leaf) : RoomToMerge alloc leaves.length := by
  by_cases hmax : acc.leafCount.toNat = maxU64
  · exact .inl (h.count.symm.trans hmax)
  cases hnode : alloc (.node 0) with
  | false => exact .inr (.inl hnode)
  | true =>
    by_cases hodd : 2 ∣ leaves.length + 1
    · refine .inr (.inr (.inr ?_))
      have hlen := h.succ_lt hmax
      have happ := append_eq sha256 leaf hmax hnode
      have hm := (h.carrying hlen leaf).mergePeaks alloc hlen
      have hpops := h.mergePeaks_odd hodd alloc
        ⟨acc.leafCount, 0, hashLeaf sha256 acc.leafCount leaf⟩ rfl
        (Function.update acc.nodes (nodeKey acc.leafCount.toNat 0)
          (some (hashLeaf sha256 acc.leafCount leaf)))
      generalize hrun : Accumulator.mergePeaks sha256 alloc acc.peaks.reverse _ _ = run
        at happ hm hpops
      obtain ⟨e | carry, rest, nodes⟩ := run
      · exact absurd (hatomic _ _ happ).peaks (peaks_ne_of_length_lt hpops)
      cases hlist : alloc .peaks with
      | false =>
        dsimp only at happ
        rw [hlist, if_neg Bool.false_ne_true] at happ
        exact absurd (hatomic _ _ happ).peaks (peaks_ne_of_length_lt hpops)
      | true =>
        refine ⟨?_, rfl⟩
        intro height hpos hdvd
        -- the tree of this height that ends at the new leaf
        have hle := Nat.le_of_dvd (Nat.succ_pos _) hdvd
        have hstart : 2 ^ height ∣ leaves.length + 1 - 2 ^ height :=
          Nat.dvd_sub hdvd (Nat.dvd_refl _)
        have hhigh := hm.1.height_le hm.2 hstart (by omega)
        exact mergePeaks_ok_alloc hrun (by rwa [UInt8.toNat_zero]) hhigh
    · exact .inr (.inr (.inl hodd))

/-- **When a failed append leaves everything as it was**: exactly when no allocation fails
after a peak was taken, for every accumulator reached by successful appends. -/
theorem append_atomic_iff {leaves : List Bytes} {acc : Accumulator}
    (h : Reached sha256 leaves acc) (alloc : Accumulator.AllocSite → Bool) (leaf : Bytes) :
    Atomic sha256 leaves acc alloc leaf ↔ RoomToMerge alloc acc.leafCount.toNat := by
  rw [h.represents.count]
  exact ⟨h.represents.room_of_atomic, fun hroom => h.represents.atomic_of_room hroom leaf⟩

/-- An allocator with no room for the root of two leaves. -/
def noPairNode : Accumulator.AllocSite → Bool
  | .node height => height != 1
  | .peaks => true

/-- The accumulator over one leaf. -/
def singleAccumulator : Accumulator :=
  (Accumulator.append evalSha256 (fun _ => true) .init (ascii "a")).2

theorem singleAccumulator_reached : Reached evalSha256 [ascii "a"] singleAccumulator :=
  .append .init (fun _ => true) (ascii "a") rfl

/-- Without room for the leaf itself nothing is lost. -/
theorem append_atomic_iff_single :
    Atomic evalSha256 [ascii "a"] singleAccumulator (fun _ => false) (ascii "b") :=
  (append_atomic_iff singleAccumulator_reached (fun _ => false) (ascii "b")).mpr (.inr (.inl rfl))

/-- The second append of two, without room for the root of both leaves, loses the first. -/
theorem second_append_not_atomic : Reached evalSha256 [ascii "a"] singleAccumulator ∧
    (singleAccumulator.append evalSha256 noPairNode (ascii "b")).1 = .error .outOfMemory ∧
    (singleAccumulator.append evalSha256 noPairNode (ascii "b")).2.leafCount = 1 ∧
    (singleAccumulator.append evalSha256 noPairNode (ascii "b")).2.peaks = [] ∧
    (singleAccumulator.append evalSha256 noPairNode (ascii "b")).2.prove 0 =
      .error .corruptAccumulator ∧
    (singleAccumulator.append evalSha256 noPairNode (ascii "b")).2.root evalSha256 ≠
      singleAccumulator.root evalSha256 ∧
    ¬Atomic evalSha256 [ascii "a"] singleAccumulator noPairNode (ascii "b") := by
  refine ⟨singleAccumulator_reached, by rfl, by rfl, by rfl, by rfl, by decide +kernel, ?_⟩
  intro hatomic
  have hlost := (hatomic _ _ rfl).peaks
  cases hlost

end Mmr
end WormDB
