import WormDB.ByteReader

/-! # The Merkle mountain range of `proof/mmr.zig`

An `Accumulator` keeps the roots of perfect binary trees over the appended
leaves, one for each binary digit of the leaf count, and a table of every inner
node it has hashed.  `append` merges equal-height peaks from the right like a
binary carry, `prove` walks a leaf's tree upwards through the node table, and
`verifyInclusion` recomputes the walk from the proof alone.

SHA-256 is the variable `sha256` throughout: every definition here is a function
of it, and each theorem says what it needs of it.  Unsigned machine words are
`UInt64` and `UInt8` where they are stored or hashed; arithmetic on them is done
in `Nat`, with the checks the source makes against overflow. -/
namespace WormDB
open ByteCodec

/-- A SHA-256 digest: `HASH_LEN` bytes. -/
structure Hash where
  bytes : Bytes
  size_eq : bytes.length = 32
  deriving DecidableEq

theorem Hash.ext_bytes {a b : Hash} (h : a.bytes = b.bytes) : a = b := by
  cases a; cases b; congr

/-- The next digest of a byte string. -/
def readHash {ε : Type} (err : ε) (bytes : Bytes) : Except ε (Hash × Bytes) :=
  match h : splitBytes 32 bytes with
  | none => .error err
  | some (b, rest) => .ok (⟨b, splitBytes_length h⟩, rest)

namespace Mmr

def domainLeaf : Bytes := ascii "wormdb.proof.mmr.leaf.v1"
def domainParent : Bytes := ascii "wormdb.proof.mmr.parent.v1"
def domainRoot : Bytes := ascii "wormdb.proof.mmr.root.v1"

def proofMagic : Bytes := ascii "WDBMMR1"
def proofVersion : Nat := 1
def proofSideLeft : UInt8 := 0
def proofSideRight : UInt8 := 1
def proofMaxPathItems : Nat := 63
def proofMaxPeaks : Nat := 64
def proofPathItemLen : Nat := 1 + 32
def proofPeakItemLen : Nat := 1 + 32

inductive Error where
  | outOfMemory | leafIndexOutOfBounds | corruptAccumulator | tooManyLeaves
  | proofTooLarge | invalidProofBytes | unsupportedProofVersion
  deriving DecidableEq

inductive SiblingSide where
  | left | right
  deriving DecidableEq

/-- `side` is the side of `hash` relative to the running proof hash. -/
structure PathItem where
  side : SiblingSide
  hash : Hash
  deriving DecidableEq

structure Peak where
  height : UInt8
  hash : Hash
  deriving DecidableEq

structure Mountain where
  start : UInt64
  height : UInt8
  hash : Hash

structure InclusionProof where
  leafIndex : UInt64
  leafCount : UInt64
  peakIndex : Nat
  path : List PathItem
  peaks : List Peak

/-- The in-memory accumulator; `nodes` is its hash map from `nodeKey` to the
node's hash. -/
structure Accumulator where
  leafCount : UInt64
  peaks : List Mountain
  nodes : Nat → Option Hash

/-- `maxInt(u64)`. -/
def maxU64 : Nat := 2 ^ 64 - 1

def peakSize (height : Nat) : Nat := 2 ^ height

def nodeKey (start height : Nat) : Nat := start <<< 8 ||| height

/-! ## Hashing -/

variable (sha256 : Bytes → Hash)

def leafPreimage (leafIndex : UInt64) (leaf : Bytes) : Bytes :=
  domainLeaf ++ [0] ++ beBytes 8 leafIndex.toNat ++ beBytes 8 leaf.length ++ leaf

def hashLeaf (leafIndex : UInt64) (leaf : Bytes) : Hash :=
  sha256 (leafPreimage leafIndex leaf)

def parentPreimage (parentHeight : UInt8) (left right : Hash) : Bytes :=
  domainParent ++ [0] ++ [parentHeight] ++ left.bytes ++ right.bytes

def hashParent (parentHeight : UInt8) (left right : Hash) : Hash :=
  sha256 (parentPreimage parentHeight left right)

/-- The bytes one peak contributes to the root's preimage. -/
def peakBytes (height : UInt8) (hash : Hash) : Bytes := height :: hash.bytes

def rootPreimage (leafCount : UInt64) (peaks : List Peak) : Bytes :=
  domainRoot ++ [0] ++ beBytes 8 leafCount.toNat ++ beBytes 8 peaks.length ++
    peaks.flatMap (fun peak => peakBytes peak.height peak.hash)

def rootFromPeaks (leafCount : UInt64) (peaks : List Peak) : Hash :=
  sha256 (rootPreimage leafCount peaks)

def rootFromMountains (leafCount : UInt64) (peaks : List Mountain) : Hash :=
  sha256 (domainRoot ++ [0] ++ beBytes 8 leafCount.toNat ++ beBytes 8 peaks.length ++
    peaks.flatMap (fun peak => peakBytes peak.height peak.hash))

/-! ## The accumulator -/

namespace Accumulator

def init : Accumulator := ⟨0, [], fun _ => none⟩

def root (self : Accumulator) : Hash := rootFromMountains sha256 self.leafCount self.peaks

/-- The allocations `append` makes: inserting a node of some height into the
table, and growing the peak list. -/
inductive AllocSite where
  | node (height : Nat)
  | peaks

/-- The carry loop of `append`, on the peaks from the last one to the first.  It
returns the final carry or the error that stopped it, with the peaks still in
the list and the node table at that point: a peak is popped before the checks on
it can fail. -/
def mergePeaks (alloc : AllocSite → Bool) :
    List Mountain → Mountain → (Nat → Option Hash) →
      Except Error Mountain × List Mountain × (Nat → Option Hash)
  | [], carry, nodes => (.ok carry, [], nodes)
  | left :: rest, carry, nodes =>
      if left.height ≠ carry.height then
        (.ok carry, left :: rest, nodes)
      else if left.start.toNat + peakSize left.height.toNat ≠ carry.start.toNat then
        (.error .corruptAccumulator, rest, nodes)
      else
        let next : Mountain :=
          ⟨left.start, left.height + 1, hashParent sha256 (left.height + 1) left.hash carry.hash⟩
        if alloc (.node next.height.toNat) then
          mergePeaks alloc rest next
            (Function.update nodes (nodeKey next.start.toNat next.height.toNat) (some next.hash))
        else
          (.error .outOfMemory, rest, nodes)

/-- Append canonical leaf bytes and return the updated root. -/
def append (alloc : AllocSite → Bool) (self : Accumulator) (leaf : Bytes) :
    Except Error Hash × Accumulator :=
  if self.leafCount.toNat = maxU64 then
    (.error .tooManyLeaves, self)
  else
    let carry : Mountain := ⟨self.leafCount, 0, hashLeaf sha256 self.leafCount leaf⟩
    if alloc (.node 0) then
      let nodes := Function.update self.nodes (nodeKey carry.start.toNat 0) (some carry.hash)
      match mergePeaks sha256 alloc self.peaks.reverse carry nodes with
      | (.error e, rest, nodes) => (.error e, ⟨self.leafCount, rest.reverse, nodes⟩)
      | (.ok carry, rest, nodes) =>
          if alloc .peaks then
            let self' : Accumulator := ⟨self.leafCount + 1, rest.reverse ++ [carry], nodes⟩
            (.ok (self'.root sha256), self')
          else
            (.error .outOfMemory, ⟨self.leafCount, rest.reverse, nodes⟩)
    else
      (.error .outOfMemory, self)

def copyPeaks (self : Accumulator) : List Peak :=
  self.peaks.map (fun peak => ⟨peak.height, peak.hash⟩)

def findPeakIndex (self : Accumulator) (leafIndex : Nat) : Option Nat :=
  self.peaks.findIdx? (fun peak =>
    decide (peak.start.toNat ≤ leafIndex ∧
      leafIndex < peak.start.toNat + peakSize peak.height.toNat))

/-- Where the pair of level-`level` trees holding `currentStart` begins, inside
a mountain that begins at `peakStart`. -/
def pairStart (peakStart level currentStart : Nat) : Nat :=
  peakStart + (currentStart - peakStart) / (peakSize level * 2) * (peakSize level * 2)

/-- The path loop of `prove`: `remaining` levels from `level` on. -/
def provePath (nodes : Nat → Option Hash) (peakStart : Nat) :
    Nat → Nat → Nat → Except Error (List PathItem)
  | 0, _, _ => .ok []
  | remaining + 1, level, currentStart =>
      let size := peakSize level
      let start := pairStart peakStart level currentStart
      let currentIsLeft := currentStart = start
      let siblingStart := if currentIsLeft then currentStart + size else currentStart - size
      match nodes (nodeKey siblingStart level) with
      | none => .error .corruptAccumulator
      | some siblingHash =>
          match provePath nodes peakStart remaining (level + 1) start with
          | .error e => .error e
          | .ok path =>
              .ok (⟨if currentIsLeft then .right else .left, siblingHash⟩ :: path)

def prove (self : Accumulator) (leafIndex : UInt64) : Except Error InclusionProof :=
  if leafIndex.toNat ≥ self.leafCount.toNat then
    .error .leafIndexOutOfBounds
  else
    match self.findPeakIndex leafIndex.toNat with
    | none => .error .corruptAccumulator
    | some peakIndex =>
        match self.peaks[peakIndex]? with
        | none => .error .corruptAccumulator
        | some peak =>
            match provePath self.nodes peak.start.toNat peak.height.toNat 0 leafIndex.toNat with
            | .error e => .error e
            | .ok path => .ok ⟨leafIndex, self.leafCount, peakIndex, path, self.copyPeaks⟩

end Accumulator

/-! ## Verification -/

/-- The loop of `peaksAreCanonical`: the total size of the peaks when their
heights are below 64 and strictly decreasing and the sum stays below `2 ^ 64`. -/
def canonicalTotal : List Peak → Nat → Option UInt8 → Option Nat
  | [], total, _ => some total
  | peak :: peaks, total, prevHeight =>
      if peak.height.toNat ≥ 64 then none
      else if prevHeight.any (fun prev => decide (peak.height ≥ prev)) then none
      else if maxU64 - total < peakSize peak.height.toNat then none
      else canonicalTotal peaks (total + peakSize peak.height.toNat) (some peak.height)

def peaksAreCanonical (leafCount : UInt64) (peaks : List Peak) : Bool :=
  if leafCount = 0 then peaks.isEmpty
  else if peaks.isEmpty then false
  else canonicalTotal peaks 0 none == some leafCount.toNat

/-- The loop of `peakStart`. -/
def peakStartFrom : List Peak → Nat → Option Nat
  | [], start => some start
  | peak :: peaks, start =>
      if peak.height.toNat ≥ 64 then none
      else if maxU64 - start < peakSize peak.height.toNat then none
      else peakStartFrom peaks (start + peakSize peak.height.toNat)

def peakStart (peaksBefore : List Peak) : Option Nat := peakStartFrom peaksBefore 0

/-- The path loop of `verifyInclusion`: the hash reached from `current`, the
root of the level-`level` tree at `currentStart`, or `none` when a sibling is on
the wrong side. -/
def verifyPath (peakStart : Nat) : List PathItem → Nat → Nat → Hash → Option Hash
  | [], _, _, current => some current
  | item :: path, level, currentStart, current =>
      if level ≥ 64 then none
      else
        let start := Accumulator.pairStart peakStart level currentStart
        if currentStart = start then
          if item.side ≠ .right then none
          else verifyPath peakStart path (level + 1) start
            (hashParent sha256 (level + 1).toUInt8 current item.hash)
        else
          if item.side ≠ .left then none
          else verifyPath peakStart path (level + 1) start
            (hashParent sha256 (level + 1).toUInt8 item.hash current)

def verifyInclusion (proof : InclusionProof) (leaf : Bytes) (expectedRoot : Hash) : Bool :=
  if proof.leafCount = 0 then false
  else if proof.leafIndex ≥ proof.leafCount then false
  else
    match proof.peaks[proof.peakIndex]? with
    | none => false
    | some peak =>
        if ¬ peaksAreCanonical proof.leafCount proof.peaks then false
        else
          match peakStart (proof.peaks.take proof.peakIndex) with
          | none => false
          | some start =>
              if proof.leafIndex.toNat < start ∨
                  proof.leafIndex.toNat ≥ start + peakSize peak.height.toNat then false
              else if proof.path.length ≠ peak.height.toNat then false
              else
                match verifyPath sha256 start proof.path 0 proof.leafIndex.toNat
                    (hashLeaf sha256 proof.leafIndex leaf) with
                | none => false
                | some current =>
                    if current ≠ peak.hash then false
                    else rootFromPeaks sha256 proof.leafCount proof.peaks = expectedRoot

/-! ## Proof bytes

`[magic][u16 version][u64 leaf_index][u64 leaf_count][u32 peak_index]`
`[u32 path_len]([u8 side][32B hash])*[u32 peak_count]([u8 height][32B hash])*`,
all big-endian.  The decoder's cursor is the suffix still to be read. -/

def encodePathItem (item : PathItem) : Bytes :=
  (match item.side with
    | .left => proofSideLeft
    | .right => proofSideRight) :: item.hash.bytes

def encodePeak (peak : Peak) : Bytes := peak.height :: peak.hash.bytes

def encodeInclusionProof (proof : InclusionProof) : Except Error Bytes :=
  if proof.peakIndex > 2 ^ 32 - 1 then .error .proofTooLarge
  else if proof.path.length > proofMaxPathItems then .error .proofTooLarge
  else if proof.peaks.length > proofMaxPeaks then .error .proofTooLarge
  else .ok (proofMagic ++ beBytes 2 proofVersion ++ beBytes 8 proof.leafIndex.toNat ++
    beBytes 8 proof.leafCount.toNat ++ beBytes 4 proof.peakIndex ++
    beBytes 4 proof.path.length ++ proof.path.flatMap encodePathItem ++
    beBytes 4 proof.peaks.length ++ proof.peaks.flatMap encodePeak)

def readBytes (len : Nat) (bytes : Bytes) : Except Error (Bytes × Bytes) :=
  ByteReader.readBytes .invalidProofBytes len bytes

def readUInt (width : Nat) (bytes : Bytes) : Except Error (Nat × Bytes) :=
  ByteReader.readUInt .invalidProofBytes width bytes

def ensureRemainingItems (bytes : Bytes) (count itemLen minTrailing : Nat) : Except Error Unit :=
  if count * itemLen + minTrailing > bytes.length then .error .invalidProofBytes else .ok ()

def readPathItem (bytes : Bytes) : Except Error (PathItem × Bytes) := do
  let (sideByte, rest) ← readUInt 1 bytes
  let side ← if sideByte = proofSideLeft.toNat then Except.ok SiblingSide.left
    else if sideByte = proofSideRight.toNat then Except.ok SiblingSide.right
    else Except.error Error.invalidProofBytes
  let (hash, rest) ← readHash Error.invalidProofBytes rest
  return (⟨side, hash⟩, rest)

def readPeak (bytes : Bytes) : Except Error (Peak × Bytes) := do
  let (height, rest) ← readUInt 1 bytes
  let (hash, rest) ← readHash Error.invalidProofBytes rest
  return (⟨height.toUInt8, hash⟩, rest)

def decodeInclusionProof (bytes : Bytes) : Except Error InclusionProof := do
  let (magic, rest) ← readBytes proofMagic.length bytes
  if magic ≠ proofMagic then throw Error.invalidProofBytes
  let (version, rest) ← readUInt 2 rest
  if version ≠ proofVersion then throw Error.unsupportedProofVersion
  let (leafIndex, rest) ← readUInt 8 rest
  let (leafCount, rest) ← readUInt 8 rest
  let (peakIndex, rest) ← readUInt 4 rest
  let (pathCount, rest) ← readUInt 4 rest
  if pathCount > proofMaxPathItems then throw Error.invalidProofBytes
  ensureRemainingItems rest pathCount proofPathItemLen 4
  let (path, rest) ← ByteReader.readItems readPathItem pathCount rest
  let (peakCount, rest) ← readUInt 4 rest
  if peakCount > proofMaxPeaks then throw Error.invalidProofBytes
  ensureRemainingItems rest peakCount proofPeakItemLen 0
  let (peaks, rest) ← ByteReader.readItems readPeak peakCount rest
  if rest.length ≠ 0 then throw Error.invalidProofBytes
  return ⟨leafIndex.toUInt64, leafCount.toUInt64, peakIndex, path, peaks⟩

end Mmr
end WormDB
