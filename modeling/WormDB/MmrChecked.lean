import WormDB.Checked
import WormDB.MmrInclusion

/-! # Nothing in a proof's verification overflows

The decoder and the verifier of `proof/mmr.zig` once more, statement by statement with
the checks of a safe build: every `usize` and `u64` sum, every cast of a height to a
shift amount, every slice and every index may stop the program.  None does:
`decodeInclusionProofChecked_follows` and `verifyInclusionChecked_eq` say that these
are the decoder and the verifier over unbounded numbers.  A cast between `usize` and
`u64`, which are equally wide, is no check.

The reader needs that a slice is shorter than the address space.  The verifier needs
nothing: heights are below 64 and add up to the leaf count before a sum is formed from
them, and the path is as long as its peak is high, so the pair of trees around a path's
tree is no larger than the peak. -/
namespace WormDB
open ByteCodec ByteReader
open Checked (add add_eq cast cast_eq div mul readItems shl slice sub sub_eq)
namespace Mmr

/-! ## Reading -/

def readBytesChecked (bytes : Bytes) (pos len : Nat) : ExceptT Error Option (Bytes × Nat) :=
  if pos > bytes.length then throw .invalidProofBytes
  else do
    let left ← sub bytes.length pos
    if len > left then throw .invalidProofBytes
    else do
      let stop ← add 64 pos len
      let out ← slice bytes pos stop
      let next ← add 64 pos len
      return (out, next)

/-- `readU8` to `readU64`: the slice is cut to the integer's width once more. -/
def readUIntChecked (width : Nat) (bytes : Bytes) (pos : Nat) : ExceptT Error Option (Nat × Nat) := do
  let (b, pos) ← readBytesChecked bytes pos width
  let digits ← slice b 0 width
  return (beNat digits, pos)

def ensureRemainingItemsChecked (bytes : Bytes) (pos count itemLen minTrailing : Nat) :
    ExceptT Error Option Unit :=
  if pos > bytes.length then throw .invalidProofBytes
  else
    -- `std.math.mul` and `std.math.add` report an overflow, and the source turns it into an error
    match mul 64 count itemLen with
    | none => throw .invalidProofBytes
    | some itemBytes =>
        match add 64 itemBytes minTrailing with
        | none => throw .invalidProofBytes
        | some needed => do
            let left ← sub bytes.length pos
            if needed > left then throw .invalidProofBytes else pure ()

/-- Which list of the decoder is allocated, and for how many items. -/
inductive ListSite where
  | path (count : Nat)
  | peaks (count : Nat)

def allocChecked (alloc : ListSite → Bool) (site : ListSite) : ExceptT Error Option Unit :=
  if alloc site then pure () else throw .outOfMemory

def readHashChecked (bytes : Bytes) (pos : Nat) : ExceptT Error Option (Hash × Nat) := do
  let (b, pos) ← readBytesChecked bytes pos 32
  -- `@memcpy` of a slice of another length stops the program
  if h : b.length = 32 then return (⟨b, h⟩, pos) else ExceptT.mk none

def readPathItemChecked (bytes : Bytes) (pos : Nat) : ExceptT Error Option (PathItem × Nat) := do
  let (sideByte, pos) ← readUIntChecked 1 bytes pos
  let side ← if sideByte = proofSideLeft.toNat then pure SiblingSide.left
    else if sideByte = proofSideRight.toNat then pure SiblingSide.right
    else throw Error.invalidProofBytes
  let (hash, pos) ← readHashChecked bytes pos
  return (⟨side, hash⟩, pos)

def readPeakChecked (bytes : Bytes) (pos : Nat) : ExceptT Error Option (Peak × Nat) := do
  let (height, pos) ← readUIntChecked 1 bytes pos
  let (hash, pos) ← readHashChecked bytes pos
  return (⟨height.toUInt8, hash⟩, pos)

def decodeInclusionProofChecked (alloc : ListSite → Bool) (bytes : Bytes) :
    ExceptT Error Option InclusionProof := do
  let (magic, pos) ← readBytesChecked bytes 0 proofMagic.length
  if magic ≠ proofMagic then throw Error.invalidProofBytes
  let (version, pos) ← readUIntChecked 2 bytes pos
  if version ≠ proofVersion then throw Error.unsupportedProofVersion
  let (leafIndex, pos) ← readUIntChecked 8 bytes pos
  let (leafCount, pos) ← readUIntChecked 8 bytes pos
  let (peakIndex, pos) ← readUIntChecked 4 bytes pos
  let (pathLen, pos) ← readUIntChecked 4 bytes pos
  let pathCount ← cast 64 pathLen
  if pathCount > proofMaxPathItems then throw Error.invalidProofBytes
  ensureRemainingItemsChecked bytes pos pathCount proofPathItemLen 4
  allocChecked alloc (.path pathCount)
  let (path, pos) ← readItems (readPathItemChecked bytes) pathCount pos
  let (peakCount, pos) ← readUIntChecked 4 bytes pos
  let peakCount ← cast 64 peakCount
  if peakCount > proofMaxPeaks then throw Error.invalidProofBytes
  ensureRemainingItemsChecked bytes pos peakCount proofPeakItemLen 0
  allocChecked alloc (.peaks peakCount)
  let (peaks, pos) ← readItems (readPeakChecked bytes) peakCount pos
  if pos ≠ bytes.length then throw Error.invalidProofBytes
  return ⟨leafIndex.toUInt64, leafCount.toUInt64, peakIndex, path, peaks⟩

/-! ### The reader over unbounded positions is followed -/

variable {escape : Error → Prop} {bytes rest : Bytes} {pos : Nat}

theorem readBytesChecked_follows (fits : bytes.length < 2 ^ 64) (h : At bytes pos rest) (len : Nat) :
    Checked.Follows escape (fun r s => Checked.AtRest bytes r s ∧ r.1.length = len)
      (readBytesChecked bytes pos len) (readBytes len rest) := by
  have hlen := h.length_eq
  rw [readBytesChecked, if_neg (show ¬pos > bytes.length by omega)]
  refine .lift_bind (sub_eq (by omega)) ?_
  rw [hlen, Nat.add_sub_cancel_left, readBytes, ByteReader.readBytes]
  by_cases hl : len > rest.length
  · rw [if_pos hl, splitBytes_eq_none.mpr hl]
    exact .error _
  · rw [if_neg hl, splitBytes, if_pos (Nat.le_of_not_lt hl)]
    have hstop : pos + len < 2 ^ 64 := by omega
    have hat : At bytes pos (rest.take len ++ rest.drop len) := by rwa [List.take_append_drop]
    have htake : (rest.take len).length = len := List.length_take_of_le (Nat.le_of_not_lt hl)
    have hslice : (bytes.drop pos).take (pos + len - pos) = rest.take len := by
      have hs := hat.slice_eq
      rw [htake, ByteCodec.slice] at hs
      rw [Nat.add_sub_cancel_left, hs]
    refine .lift_bind (add_eq hstop) ?_
    refine .lift_bind (Checked.slice_eq (Nat.le_add_right pos len) (by omega)) ?_
    refine .lift_bind (add_eq hstop) ?_
    rw [hslice]
    have hskip := hat.skip
    rw [htake] at hskip
    exact .ok ⟨⟨rfl, hskip⟩, htake⟩

theorem readUIntChecked_follows (fits : bytes.length < 2 ^ 64) (width : Nat)
    (h : At bytes pos rest) :
    Checked.Follows escape (fun r s => Checked.AtRest bytes r s ∧ r.1 < 256 ^ width)
      (readUIntChecked width bytes pos) (readUInt width rest) := by
  refine (readBytesChecked_follows fits h width).bind ?_
  rintro ⟨b, pos⟩ ⟨_, rest⟩ ⟨⟨rfl, hat⟩, hlen⟩
  refine .lift_bind (Checked.slice_zero_eq (Nat.le_of_eq hlen.symm)) ?_
  rw [List.take_of_length_le (Nat.le_of_eq hlen)]
  subst hlen
  exact .ok ⟨⟨rfl, hat⟩, beNat_lt b⟩

/-- Reading a digest is reading its bytes. -/
theorem readHash_eq (bytes : Bytes) :
    readHash Error.invalidProofBytes bytes = (do
      let (b, rest) ← readBytes 32 bytes
      if h : b.length = 32 then return (⟨b, h⟩, rest) else throw .invalidProofBytes) := by
  rw [readHash]
  split
  · rename_i hsplit
    rw [readBytes, ByteReader.readBytes, hsplit]
    rfl
  · rename_i b rest hsplit
    have hread : readBytes 32 bytes = .ok (b, rest) := by
      rw [readBytes, ByteReader.readBytes, hsplit]
    rw [hread, ok_bind]
    dsimp only
    rw [dif_pos (splitBytes_eq_some.mp hsplit).2]
    rfl

theorem readHashChecked_follows (fits : bytes.length < 2 ^ 64) (h : At bytes pos rest) :
    Checked.Follows escape (Checked.AtRest bytes) (readHashChecked bytes pos)
      (readHash Error.invalidProofBytes rest) := by
  rw [readHash_eq]
  refine (readBytesChecked_follows fits h 32).bind ?_
  rintro ⟨b, pos⟩ ⟨_, rest⟩ ⟨⟨rfl, hat⟩, hlen⟩
  dsimp only at hlen ⊢
  rw [dif_pos hlen, dif_pos hlen]
  exact .ok ⟨rfl, hat⟩

theorem readPathItemChecked_follows (fits : bytes.length < 2 ^ 64) (pos : Nat) (rest : Bytes)
    (h : At bytes pos rest) :
    Checked.Follows escape (Checked.AtRest bytes) (readPathItemChecked bytes pos)
      (readPathItem rest) := by
  refine (readUIntChecked_follows fits 1 h).bind ?_
  rintro ⟨sideByte, pos⟩ ⟨_, rest⟩ ⟨⟨rfl, hat⟩, -⟩
  refine .ite (fun _ => ?_) (fun _ => .ite (fun _ => ?_) (fun _ => .error _))
  all_goals
    refine (readHashChecked_follows fits hat).bind ?_
    rintro ⟨hash, pos⟩ ⟨_, rest⟩ ⟨rfl, hat⟩
    exact .ok ⟨rfl, hat⟩

theorem readPeakChecked_follows (fits : bytes.length < 2 ^ 64) (pos : Nat) (rest : Bytes)
    (h : At bytes pos rest) :
    Checked.Follows escape (Checked.AtRest bytes) (readPeakChecked bytes pos)
      (readPeak rest) := by
  refine (readUIntChecked_follows fits 1 h).bind ?_
  rintro ⟨height, pos⟩ ⟨_, rest⟩ ⟨⟨rfl, hat⟩, -⟩
  refine (readHashChecked_follows fits hat).bind ?_
  rintro ⟨hash, pos⟩ ⟨_, rest⟩ ⟨rfl, hat⟩
  exact .ok ⟨rfl, hat⟩

theorem ensureRemainingItemsChecked_follows (fits : bytes.length < 2 ^ 64)
    (h : At bytes pos rest) (count itemLen minTrailing : Nat) :
    Checked.Follows escape Eq (ensureRemainingItemsChecked bytes pos count itemLen minTrailing)
      (ensureRemainingItems rest count itemLen minTrailing) := by
  have hlen := h.length_eq
  have hover {n : Nat} (hn : ¬n < 2 ^ 64) (hle : n ≤ count * itemLen + minTrailing) :
      count * itemLen + minTrailing > rest.length := by omega
  rw [ensureRemainingItemsChecked, if_neg (show ¬pos > bytes.length by omega),
    ensureRemainingItems, mul]
  by_cases hmul : count * itemLen < 2 ^ 64
  · rw [if_pos hmul]
    dsimp only
    rw [add]
    by_cases hadd : count * itemLen + minTrailing < 2 ^ 64
    · rw [if_pos hadd]
      refine .lift_bind (sub_eq (by omega)) ?_
      rw [hlen, Nat.add_sub_cancel_left]
      exact .ite (fun _ => .error _) (fun _ => .ok rfl)
    · rw [if_neg hadd, if_pos (hover hadd (Nat.le_refl _))]
      exact .error _
  · rw [if_neg hmul, if_pos (hover hmul (Nat.le_add_right _ _))]
    exact .error _

/-- A list the decoder cannot allocate ends it in the error for that. -/
theorem allocChecked_bind {α β : Type} {alloc : ListSite → Bool} {site : ListSite}
    {R : α → β → Prop} {f : Unit → ExceptT Error Option α} {y : Except Error β}
    (h : Checked.Follows (fun e => e = Error.outOfMemory ∧ ∃ site, alloc site = false) R (f ()) y) :
    Checked.Follows (fun e => e = Error.outOfMemory ∧ ∃ site, alloc site = false) R
      (allocChecked alloc site >>= f) y := by
  rw [allocChecked]
  by_cases halloc : alloc site = true
  · rw [if_pos halloc]
    exact h
  · rw [if_neg halloc]
    exact .escape ⟨rfl, site, eq_false_of_ne_true halloc⟩ y

/-- A position is at the end exactly when nothing is left. -/
theorem at_end_iff (h : At bytes pos rest) : pos ≠ bytes.length ↔ rest.length ≠ 0 := by
  have hlen := h.length_eq
  omega

theorem decodeInclusionProofChecked_follows (alloc : ListSite → Bool)
    (fits : bytes.length < 2 ^ 64) :
    Checked.Follows (fun e => e = Error.outOfMemory ∧ ∃ site, alloc site = false) Eq
      (decodeInclusionProofChecked alloc bytes) (decodeInclusionProof bytes) := by
  refine (readBytesChecked_follows fits (At.start bytes) proofMagic.length).bind ?_
  rintro ⟨magic, pos⟩ ⟨_, rest⟩ ⟨⟨rfl, hat⟩, -⟩
  refine .ite (fun _ => .error _) (fun _ => ?_)
  refine (readUIntChecked_follows fits 2 hat).bind ?_
  rintro ⟨version, pos⟩ ⟨_, rest⟩ ⟨⟨rfl, hat⟩, -⟩
  refine .ite (fun _ => .error _) (fun _ => ?_)
  refine (readUIntChecked_follows fits 8 hat).bind ?_
  rintro ⟨leafIndex, pos⟩ ⟨_, rest⟩ ⟨⟨rfl, hat⟩, -⟩
  refine (readUIntChecked_follows fits 8 hat).bind ?_
  rintro ⟨leafCount, pos⟩ ⟨_, rest⟩ ⟨⟨rfl, hat⟩, -⟩
  refine (readUIntChecked_follows fits 4 hat).bind ?_
  rintro ⟨peakIndex, pos⟩ ⟨_, rest⟩ ⟨⟨rfl, hat⟩, -⟩
  refine (readUIntChecked_follows fits 4 hat).bind ?_
  rintro ⟨pathCount, pos⟩ ⟨_, rest⟩ ⟨⟨rfl, hat⟩, hpath⟩
  refine .lift_bind (cast_eq (Nat.lt_trans hpath (by decide))) ?_
  refine .ite (fun _ => .error _) (fun _ => ?_)
  refine (ensureRemainingItemsChecked_follows fits hat pathCount proofPathItemLen 4).bind ?_
  rintro _ _ rfl
  refine allocChecked_bind ?_
  refine (Checked.readItems_follows (readPathItemChecked_follows fits) pathCount hat).bind ?_
  rintro ⟨path, pos⟩ ⟨_, rest⟩ ⟨rfl, hat⟩
  refine (readUIntChecked_follows fits 4 hat).bind ?_
  rintro ⟨peakCount, pos⟩ ⟨_, rest⟩ ⟨⟨rfl, hat⟩, hpeaks⟩
  refine .lift_bind (cast_eq (Nat.lt_trans hpeaks (by decide))) ?_
  refine .ite (fun _ => .error _) (fun _ => ?_)
  refine (ensureRemainingItemsChecked_follows fits hat peakCount proofPeakItemLen 0).bind ?_
  rintro _ _ rfl
  refine allocChecked_bind ?_
  refine (Checked.readItems_follows (readPeakChecked_follows fits) peakCount hat).bind ?_
  rintro ⟨peaks, pos⟩ ⟨_, rest⟩ ⟨rfl, hat⟩
  dsimp only
  simp only [at_end_iff hat]
  exact .ite (fun _ => .error _) (fun _ => .ok rfl)

/-! ## Verifying -/

variable (sha256 : Bytes → Hash)

/-- `@as(u64, 1) << @intCast(height)`: the amount of a 64-bit shift has six bits. -/
def peakSizeChecked (height : Nat) : Option Nat := do
  let amount ← cast 6 height
  shl 64 1 amount

def canonicalTotalChecked : List Peak → Nat → Option UInt8 → Option (Option Nat)
  | [], total, _ => some (some total)
  | peak :: peaks, total, prevHeight =>
      if peak.height.toNat ≥ 64 then some none
      else if prevHeight.any (fun prev => decide (peak.height ≥ prev)) then some none
      else do
        let size ← peakSizeChecked peak.height.toNat
        let room ← sub maxU64 total
        if room < size then some none
        else do
          let total ← add 64 total size
          canonicalTotalChecked peaks total (some peak.height)

def peaksAreCanonicalChecked (leafCount : UInt64) (peaks : List Peak) : Option Bool :=
  if leafCount = 0 then some peaks.isEmpty
  else if peaks.isEmpty then some false
  else do
    let total ← canonicalTotalChecked peaks 0 none
    return total == some leafCount.toNat

def peakStartFromChecked : List Peak → Nat → Option (Option Nat)
  | [], start => some (some start)
  | peak :: peaks, start =>
      if peak.height.toNat ≥ 64 then some none
      else do
        let size ← peakSizeChecked peak.height.toNat
        let room ← sub maxU64 start
        if room < size then some none
        else do
          let start ← add 64 start size
          peakStartFromChecked peaks start

def pairStartChecked (peakStart level currentStart : Nat) : Option Nat := do
  let size ← peakSizeChecked level
  let pairSize ← mul 64 size 2
  let offset ← sub currentStart peakStart
  let pair ← div offset pairSize
  let pairOffset ← mul 64 pair pairSize
  add 64 peakStart pairOffset

def verifyPathChecked (peakStart : Nat) : List PathItem → Nat → Nat → Hash → Option (Option Hash)
  | [], _, _, current => some (some current)
  | item :: path, levelUsize, currentStart, current =>
      if levelUsize ≥ 64 then some none
      else do
        let level ← cast 8 levelUsize
        let start ← pairStartChecked peakStart level currentStart
        if currentStart = start then
          if item.side ≠ .right then some none
          else do
            let parent ← add 8 level 1
            verifyPathChecked peakStart path (levelUsize + 1) start
              (hashParent sha256 parent.toUInt8 current item.hash)
        else
          if item.side ≠ .left then some none
          else do
            let parent ← add 8 level 1
            verifyPathChecked peakStart path (levelUsize + 1) start
              (hashParent sha256 parent.toUInt8 item.hash current)

def verifyInclusionChecked (proof : InclusionProof) (leaf : Bytes) (expectedRoot : Hash) :
    Option Bool :=
  if proof.leafCount = 0 then some false
  else if proof.leafIndex ≥ proof.leafCount then some false
  else if proof.peakIndex ≥ proof.peaks.length then some false
  else do
    let canonical ← peaksAreCanonicalChecked proof.leafCount proof.peaks
    if ¬ canonical then some false
    else do
      let before ← slice proof.peaks 0 proof.peakIndex
      match ← peakStartFromChecked before 0 with
      | none => some false
      | some peakStart => do
          let peak ← Checked.get proof.peaks proof.peakIndex
          let size ← peakSizeChecked peak.height.toNat
          let peakEnd ← add 64 peakStart size
          if proof.leafIndex.toNat < peakStart ∨ proof.leafIndex.toNat ≥ peakEnd then some false
          else if proof.path.length ≠ peak.height.toNat then some false
          else
            match ← verifyPathChecked sha256 peakStart proof.path 0 proof.leafIndex.toNat
                (hashLeaf sha256 proof.leafIndex leaf) with
            | none => some false
            | some current =>
                if current ≠ peak.hash then some false
                else some (decide (rootFromPeaks sha256 proof.leafCount proof.peaks = expectedRoot))

/-! ### The verifier over unbounded numbers is followed -/

theorem peakSizeChecked_eq {height : Nat} (h : height < 64) :
    peakSizeChecked height = some (peakSize height) := by
  rw [peakSizeChecked, cast_eq h]
  exact Checked.shl_one_eq h

variable {total : Nat}

/-- The source's test for room is the addition's own. -/
theorem add_size_eq {size : Nat} (ht : total ≤ maxU64) (hroom : ¬maxU64 - total < size) :
    total + size ≤ maxU64 ∧ add 64 total size = some (total + size) := by
  have hsum : total + size ≤ maxU64 := by omega
  have hmax : maxU64 < 2 ^ 64 := by decide
  exact ⟨hsum, add_eq (by omega)⟩

theorem canonicalTotalChecked_eq (peaks : List Peak) (ht : total ≤ maxU64)
    (prevHeight : Option UInt8) : canonicalTotalChecked peaks total prevHeight =
      some (canonicalTotal peaks total prevHeight) := by
  induction peaks generalizing total prevHeight with
  | nil => rfl
  | cons peak peaks ih =>
    rw [canonicalTotalChecked, canonicalTotal]
    split
    · rfl
    split
    · rfl
    rw [peakSizeChecked_eq (by omega), sub_eq ht]
    dsimp only [Option.bind_eq_bind, Option.bind_some]
    split
    · rfl
    · rename_i hroom
      obtain ⟨hsum, hadd⟩ := add_size_eq ht hroom
      rw [hadd]
      exact ih hsum _

variable {start : Nat}

theorem peakStartFromChecked_eq (peaks : List Peak) (hs : start ≤ maxU64) :
    peakStartFromChecked peaks start = some (peakStartFrom peaks start) := by
  induction peaks generalizing start with
  | nil => rfl
  | cons peak peaks ih =>
    rw [peakStartFromChecked, peakStartFrom]
    split
    · rfl
    rw [peakSizeChecked_eq (by omega), sub_eq hs]
    dsimp only [Option.bind_eq_bind, Option.bind_some]
    split
    · rfl
    · rename_i hroom
      obtain ⟨hsum, hadd⟩ := add_size_eq hs hroom
      rw [hadd]
      exact ih hsum

variable {peak : Peak} {peaks : List Peak} {t : Nat} {prevHeight : Option UInt8}

/-- What the canonical test has seen of its first peak. -/
theorem canonicalTotal_cons (h : canonicalTotal (peak :: peaks) total prevHeight = some t)
    (ht : total ≤ maxU64) : peak.height.toNat < 64 ∧ total + peakSize peak.height.toNat ≤ maxU64 ∧
      canonicalTotal peaks (total + peakSize peak.height.toNat) (some peak.height) = some t := by
  rw [canonicalTotal] at h
  split at h
  · cases h
  split at h
  · cases h
  split at h
  · cases h
  · exact ⟨by omega, by omega, h⟩

theorem canonicalTotal_le
    (h : canonicalTotal peaks total prevHeight = some t) (ht : total ≤ maxU64) :
    total ≤ t ∧ t ≤ maxU64 := by
  induction peaks generalizing total prevHeight with
  | nil =>
    cases h
    exact ⟨Nat.le_refl _, ht⟩
  | cons peak peaks ih =>
    obtain ⟨-, hsum, hrest⟩ := canonicalTotal_cons h ht
    obtain ⟨hle, hmax⟩ := ih hrest hsum
    exact ⟨by omega, hmax⟩

/-- **The bound the verifier's sums rest on.**  Each peak of a canonical list is below 64,
and ends no later than the list does. -/
theorem canonicalTotal_peak
    (h : canonicalTotal peaks total prevHeight = some t) (ht : total ≤ maxU64) {k : Nat}
    (hk : peaks[k]? = some peak)
    (hstart : peakStartFrom (peaks.take k) total = some start) :
    peak.height.toNat < 64 ∧ start + peakSize peak.height.toNat ≤ t := by
  induction peaks generalizing total prevHeight k with
  | nil => cases hk
  | cons first peaks ih =>
    obtain ⟨hheight, hsum, hrest⟩ := canonicalTotal_cons h ht
    cases k with
    | zero =>
      cases hk
      cases hstart
      exact ⟨hheight, (canonicalTotal_le hrest hsum).1⟩
    | succ k =>
      rw [List.take_succ_cons, peakStartFrom, if_neg (by omega), if_neg (by omega)] at hstart
      exact ih hrest hsum hk hstart

theorem peaksAreCanonicalChecked_eq (leafCount : UInt64) (peaks : List Peak) :
    peaksAreCanonicalChecked leafCount peaks = some (peaksAreCanonical leafCount peaks) := by
  rw [peaksAreCanonicalChecked, peaksAreCanonical]
  split
  · rfl
  split
  · rfl
  · rw [canonicalTotalChecked_eq peaks (Nat.zero_le _)]
    rfl

theorem canonicalTotal_of_canonical {leafCount : UInt64}
    (h : peaksAreCanonical leafCount peaks = true) (h0 : leafCount ≠ 0) :
    canonicalTotal peaks 0 none = some leafCount.toNat := by
  rw [peaksAreCanonical, if_neg h0] at h
  split at h
  · cases h
  · exact beq_iff_eq.mp h

variable {peakStart level currentStart : Nat}

/-- The pair around a path's tree begins in the mountain, at the tree or before it. -/
theorem pairStartChecked_eq (hlevel : level < 63)
    (hle : peakStart ≤ currentStart) (hfit : currentStart < 2 ^ 64) :
    pairStartChecked peakStart level currentStart =
        some (Accumulator.pairStart peakStart level currentStart) ∧
      peakStart ≤ Accumulator.pairStart peakStart level currentStart ∧
      Accumulator.pairStart peakStart level currentStart ≤ currentStart := by
  have hsize : peakSize level * 2 < 2 ^ 64 := by
    rw [peakSize, ← Nat.pow_succ]
    exact Nat.pow_lt_pow_right Nat.one_lt_two (by omega)
  have hpos : peakSize level * 2 ≠ 0 := by
    have := Nat.two_pow_pos level
    rw [peakSize]
    omega
  have hback := Nat.div_mul_le_self (currentStart - peakStart) (peakSize level * 2)
  refine ⟨?_, Nat.le_add_right _ _, ?_⟩
  · rw [pairStartChecked, peakSizeChecked_eq (by omega)]
    dsimp only [Option.bind_eq_bind, Option.bind_some]
    rw [Checked.mul_eq hsize]
    dsimp only [Option.bind_some]
    rw [sub_eq hle]
    dsimp only [Option.bind_some]
    rw [Checked.div_eq hpos]
    dsimp only [Option.bind_some]
    rw [Checked.mul_eq (by omega)]
    exact add_eq (by omega)
  · rw [Accumulator.pairStart]
    omega

theorem verifyPathChecked_eq (path : List PathItem)
    (hlevel : level + path.length < 64) (hle : peakStart ≤ currentStart)
    (hfit : currentStart < 2 ^ 64) (current : Hash) :
    verifyPathChecked sha256 peakStart path level currentStart current =
      some (verifyPath sha256 peakStart path level currentStart current) := by
  induction path generalizing level currentStart current with
  | nil => rfl
  | cons item path ih =>
    rw [List.length_cons] at hlevel
    have hroom : level < 63 := by omega
    obtain ⟨hpair, hstart, hend⟩ := pairStartChecked_eq hroom hle hfit
    have hlevel' : (level + 1) + path.length < 64 := by omega
    have hrest := fun hash => ih hlevel' hstart (by omega) hash
    rw [verifyPathChecked, verifyPath, if_neg (by omega), if_neg (by omega),
      cast_eq (by omega)]
    dsimp only [Option.bind_eq_bind, Option.bind_some]
    rw [hpair]
    dsimp only [Option.bind_some]
    rw [add_eq (show level + 1 < 2 ^ 8 by omega)]
    dsimp only [Option.bind_some]
    split
    · split
      · rfl
      · exact hrest _
    · split
      · rfl
      · exact hrest _

/-- **The verifier never stops**, whatever proof, leaf and root it is given. -/
theorem verifyInclusionChecked_eq (proof : InclusionProof) (leaf : Bytes) (expectedRoot : Hash) :
    verifyInclusionChecked sha256 proof leaf expectedRoot =
      some (verifyInclusion sha256 proof leaf expectedRoot) := by
  rw [verifyInclusionChecked, verifyInclusion]
  split
  · rfl
  rename_i h0
  split
  · rfl
  rename_i hindex
  split
  · rename_i hpeak
    rw [List.getElem?_eq_none hpeak]
  rename_i hpeak
  have hget := List.getElem?_eq_getElem (Nat.lt_of_not_le hpeak)
  rw [hget, peaksAreCanonicalChecked_eq]
  dsimp only [Option.bind_eq_bind, Option.bind_some]
  split
  · rfl
  rename_i hcanonical
  rw [Checked.slice_zero_eq (Nat.le_of_lt (Nat.lt_of_not_le hpeak))]
  dsimp only [Option.bind_some]
  rw [peakStartFromChecked_eq _ (Nat.zero_le _), peakStart]
  dsimp only [Option.bind_some]
  cases hstart : peakStartFrom (proof.peaks.take proof.peakIndex) 0 with
  | none => rfl
  | some start =>
    dsimp only
    rw [Checked.get, hget]
    dsimp only [Option.bind_some]
    -- the peak ends inside the leaf count, a 64-bit number
    have htotal := canonicalTotal_of_canonical (Decidable.of_not_not hcanonical) h0
    obtain ⟨hheight, hstop⟩ := canonicalTotal_peak htotal (Nat.zero_le _) hget hstart
    have hcount := proof.leafCount.toNat_lt
    rw [peakSizeChecked_eq hheight]
    dsimp only [Option.bind_some]
    rw [add_eq (by omega)]
    dsimp only [Option.bind_some]
    split
    · rfl
    rename_i hinside
    split
    · rfl
    rename_i hlen
    rw [verifyPathChecked_eq sha256 proof.path (by omega) (by omega) proof.leafIndex.toNat_lt]
    dsimp only [Option.bind_some]
    cases verifyPath sha256 start proof.path 0 proof.leafIndex.toNat
        (hashLeaf sha256 proof.leafIndex leaf) with
    | none => rfl
    | some current =>
      dsimp only
      split
      · rfl
      · rfl

/-! ## Safety -/

/-- A `[]const u8`: its length is a `usize`. -/
structure Slice where
  bytes : Bytes
  fits : bytes.length < 2 ^ 64

/-- **Verification is safe on arbitrary bytes.**  The decoder ends with an error or a proof,
those of the decoder over unbounded positions unless a list could not be allocated, and the
verifier ends with true or false on every proof, those of the verifier over unbounded
numbers. -/
theorem verification_never_stops (alloc : ListSite → Bool) (input : Slice) (leaf : Bytes)
    (expectedRoot : Hash) :
    ((decodeInclusionProofChecked alloc input.bytes).run =
        some (decodeInclusionProof input.bytes) ∨
      (decodeInclusionProofChecked alloc input.bytes).run = some (.error .outOfMemory) ∧
        ∃ site, alloc site = false) ∧
    ∀ proof, verifyInclusionChecked sha256 proof leaf expectedRoot =
      some (verifyInclusion sha256 proof leaf expectedRoot) := by
  refine ⟨?_, fun proof => verifyInclusionChecked_eq sha256 proof leaf expectedRoot⟩
  rcases (decodeInclusionProofChecked_follows alloc input.fits).ends with hends | hends
  · exact .inl hends
  · obtain ⟨_, hrun, rfl, hsite⟩ := hends
    exact .inr ⟨hrun, hsite⟩

end Mmr
end WormDB
