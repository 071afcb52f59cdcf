import WormDB.ByteCodec

/-! # SHA-256

The hash function of FIPS 180-4, on byte strings whose bit length fits in 64
bits.  The message is padded to whole blocks of 64 bytes, each block is expanded
into sixty-four words, and the compression function folds the rounds over the
state.  Everything is structurally recursive, so a digest evaluates in the
kernel. -/
namespace Sha256
open ByteCodec

/-- The round constants. -/
def roundConstants : List UInt32 := [
  0x428a2f98, 0x71374491, 0xb5c0fbcf, 0xe9b5dba5, 0x3956c25b, 0x59f111f1, 0x923f82a4, 0xab1c5ed5,
  0xd807aa98, 0x12835b01, 0x243185be, 0x550c7dc3, 0x72be5d74, 0x80deb1fe, 0x9bdc06a7, 0xc19bf174,
  0xe49b69c1, 0xefbe4786, 0x0fc19dc6, 0x240ca1cc, 0x2de92c6f, 0x4a7484aa, 0x5cb0a9dc, 0x76f988da,
  0x983e5152, 0xa831c66d, 0xb00327c8, 0xbf597fc7, 0xc6e00bf3, 0xd5a79147, 0x06ca6351, 0x14292967,
  0x27b70a85, 0x2e1b2138, 0x4d2c6dfc, 0x53380d13, 0x650a7354, 0x766a0abb, 0x81c2c92e, 0x92722c85,
  0xa2bfe8a1, 0xa81a664b, 0xc24b8b70, 0xc76c51a3, 0xd192e819, 0xd6990624, 0xf40e3585, 0x106aa070,
  0x19a4c116, 0x1e376c08, 0x2748774c, 0x34b0bcb5, 0x391c0cb3, 0x4ed8aa4a, 0x5b9cca4f, 0x682e6ff3,
  0x748f82ee, 0x78a5636f, 0x84c87814, 0x8cc70208, 0x90befffa, 0xa4506ceb, 0xbef9a3f7, 0xc67178f2]

/-- The eight working variables. -/
structure State where
  a : UInt32
  b : UInt32
  c : UInt32
  d : UInt32
  e : UInt32
  f : UInt32
  g : UInt32
  h : UInt32

def initialState : State :=
  ⟨0x6a09e667, 0xbb67ae85, 0x3c6ef372, 0xa54ff53a, 0x510e527f, 0x9b05688c, 0x1f83d9ab, 0x5be0cd19⟩

def rotr (x n : UInt32) : UInt32 := (x >>> n) ||| (x <<< (32 - n))

/-- One round, with its constant already added to its schedule word. -/
def round (s : State) (kw : UInt32) : State :=
  let ch := (s.e &&& s.f) ^^^ (~~~s.e &&& s.g)
  let maj := (s.a &&& s.b) ^^^ (s.a &&& s.c) ^^^ (s.b &&& s.c)
  let t1 := s.h + (rotr s.e 6 ^^^ rotr s.e 11 ^^^ rotr s.e 25) + ch + kw
  let t2 := (rotr s.a 2 ^^^ rotr s.a 13 ^^^ rotr s.a 22) + maj
  ⟨t1 + t2, s.a, s.b, s.c, s.d + t1, s.e, s.f, s.g⟩

/-- The next `n` words of the message schedule, from a window of sixteen. -/
def schedule : Nat → List UInt32 → List UInt32
  | 0, _ => []
  | n + 1, window =>
      let x := window.getD 1 0
      let y := window.getD 14 0
      let next := window.getD 0 0 + (rotr x 7 ^^^ rotr x 18 ^^^ (x >>> 3)) + window.getD 9 0 +
        (rotr y 17 ^^^ rotr y 19 ^^^ (y >>> 10))
      window.getD 0 0 :: schedule n (window.tail ++ [next])

/-- The first `n` big-endian words of a block. -/
def words : Nat → Bytes → List UInt32
  | 0, _ => []
  | n + 1, block => (beNat (block.take 4)).toUInt32 :: words n (block.drop 4)

def compress (s : State) (block : Bytes) : State :=
  let t := (List.zipWith (· + ·) roundConstants (schedule 64 (words 16 block))).foldl round s
  ⟨s.a + t.a, s.b + t.b, s.c + t.c, s.d + t.d, s.e + t.e, s.f + t.f, s.g + t.g, s.h + t.h⟩

/-- A one bit, zeros up to eight bytes short of a block, and the bit length. -/
def pad (message : Bytes) : Bytes :=
  message ++ [0x80] ++ List.replicate ((119 - message.length % 64) % 64) 0 ++
    beBytes 8 (8 * message.length)

def foldBlocks : Nat → State → Bytes → State
  | 0, s, _ => s
  | n + 1, s, bytes => foldBlocks n (compress s (bytes.take 64)) (bytes.drop 64)

def digest (message : Bytes) : Bytes :=
  let padded := pad message
  let s := foldBlocks (padded.length / 64) initialState padded
  [s.a, s.b, s.c, s.d, s.e, s.f, s.g, s.h].flatMap (fun word => beBytes 4 word.toNat)

theorem digest_length (message : Bytes) : (digest message).length = 32 := by
  simp [digest]

/-- The digest of `"abc"` in the standard. -/
example : digest [0x61, 0x62, 0x63] =
    [0xba, 0x78, 0x16, 0xbf, 0x8f, 0x01, 0xcf, 0xea, 0x41, 0x41, 0x40, 0xde, 0x5d, 0xae, 0x22, 0x23,
     0xb0, 0x03, 0x61, 0xa3, 0x96, 0x17, 0x7a, 0x9c, 0xb4, 0x10, 0xff, 0x61, 0xf2, 0x00, 0x15, 0xad] := by
  decide +kernel

end Sha256
