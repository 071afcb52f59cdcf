import WormDB.ByteCodec

/-! # Decoding UTF-8

The decoder of the WHATWG encoding standard, from bytes to the bytes of the text it gives: a
byte order mark in front is taken off, and each part that is no code point becomes U+FFFD. -/
namespace Utf8
open ByteCodec

/-- U+FFFD. -/
def replacement : Bytes := [0xEF, 0xBF, 0xBD]

def byteOrderMark : Bytes := [0xEF, 0xBB, 0xBF]

/-- A code point whose first bytes have been read: how many bytes it still needs, and the range
of the next of them. -/
structure Partial where
  seen : Bytes
  needed : Nat
  lower : UInt8
  upper : UInt8

/-- What a byte at the start of a code point gives at once, and the code point it begins. -/
def start (byte : UInt8) : Bytes × Option Partial :=
  if byte ≤ 0x7F then ([byte], none)
  else if 0xC2 ≤ byte ∧ byte ≤ 0xDF then ([], some ⟨[byte], 1, 0x80, 0xBF⟩)
  else if 0xE0 ≤ byte ∧ byte ≤ 0xEF then
    ([], some ⟨[byte], 2, if byte = 0xE0 then 0xA0 else 0x80, if byte = 0xED then 0x9F else 0xBF⟩)
  else if 0xF0 ≤ byte ∧ byte ≤ 0xF4 then
    ([], some ⟨[byte], 3, if byte = 0xF0 then 0x90 else 0x80, if byte = 0xF4 then 0x8F else 0xBF⟩)
  else (replacement, none)

/-- One byte.  A byte out of the range ends the code point before it and starts another. -/
def step (state : Option Partial) (byte : UInt8) : Bytes × Option Partial :=
  match state with
  | none => start byte
  | some p =>
      if byte < p.lower ∨ p.upper < byte then
        (replacement ++ (start byte).1, (start byte).2)
      else if p.needed = 1 then (p.seen ++ [byte], none)
      else ([], some ⟨p.seen ++ [byte], p.needed - 1, 0x80, 0xBF⟩)

def decodeFrom : Option Partial → Bytes → Bytes
  | none, [] => []
  | some _, [] => replacement
  | state, byte :: bytes => (step state byte).1 ++ decodeFrom (step state byte).2 bytes

def decode (bytes : Bytes) : Bytes :=
  decodeFrom none (if byteOrderMark.isPrefixOf bytes then bytes.drop 3 else bytes)

end Utf8
