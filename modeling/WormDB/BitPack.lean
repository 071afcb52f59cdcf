import WormDB.ByteCodec
import Mathlib.Data.Nat.Bitwise
import Mathlib.Tactic.IntervalCases

/-! # Bits packed into bytes

Eight bits to a byte, the first in the low bit; the last byte is filled up with zeros. -/
namespace BitPack
open List ByteCodec

def mask (id : Nat) : UInt8 := 1 <<< (id % 8).toUInt8

def setBit (buf : Bytes) (id : Nat) : Bytes := buf.modify (id / 8) (fun b => b ||| mask id)

def isSet (buf : Bytes) (id : Nat) : Bool := buf.getD (id / 8) 0 &&& mask id != 0

def packedLength (count : Nat) : Nat := (count + 7) / 8

def packBits (bits : List Bool) : Bytes :=
  (List.range bits.length).foldl (fun buf id => if bits.getD id false then setBit buf id else buf)
    (replicate (packedLength bits.length) 0)

def unpackBits (count : Nat) (buf : Bytes) : List Bool := (List.range count).map (isSet buf)

theorem mask_toNat (id : Nat) : (mask id).toNat = 2 ^ (id % 8) := by
  have h : id % 8 < 8 := Nat.mod_lt _ (by decide)
  rw [mask]
  interval_cases id % 8 <;> rfl

/-- A byte has the bit of the mask. -/
theorem and_mask (b : UInt8) (id : Nat) : (b &&& mask id != 0) = b.toNat.testBit (id % 8) := by
  rw [Bool.eq_iff_iff, bne_iff_ne, ne_eq, ← UInt8.toNat_inj, UInt8.toNat_and, mask_toNat,
    Nat.and_two_pow]
  cases b.toNat.testBit (id % 8) <;> simp

theorem setBit_length (buf : Bytes) (id : Nat) : (setBit buf id).length = buf.length :=
  length_modify ..

theorem isSet_setBit {buf : Bytes} {id : Nat} (hid : id / 8 < buf.length) (i : Nat) :
    isSet (setBit buf id) i = (isSet buf i || decide (i = id)) := by
  rw [isSet, isSet, and_mask, and_mask, setBit, getD_eq_getElem?_getD, getElem?_modify,
    getD_eq_getElem?_getD]
  by_cases hbyte : id / 8 = i / 8
  · obtain ⟨b, hb⟩ : ∃ b, buf[i / 8]? = some b := ⟨_, getElem?_eq_getElem (hbyte ▸ hid)⟩
    simp only [hb, hbyte, if_true, Option.map_eq_map, Option.map_some, Option.getD_some,
      UInt8.toNat_or, Nat.testBit_or, mask_toNat, Nat.testBit_two_pow]
    congr 2
    exact propext ⟨fun h => by omega, fun h => by omega⟩
  · have hne : i ≠ id := fun h => hbyte (by rw [h])
    simp [hbyte, hne]

/-- After any of the bits. -/
theorem isSet_fold (bits : List Bool) (ids : List Nat) (buf : Bytes)
    (hids : ∀ id ∈ ids, id / 8 < buf.length) (i : Nat) :
    isSet (ids.foldl (fun buf id => if bits.getD id false then setBit buf id else buf) buf) i =
      (isSet buf i || (decide (i ∈ ids) && bits.getD i false)) := by
  induction ids generalizing buf with
  | nil => simp
  | cons id ids ih =>
    rw [foldl_cons]
    have hid := hids id mem_cons_self
    have hrest : ∀ j ∈ ids, j / 8 < buf.length := fun j hj => hids j (mem_cons_of_mem id hj)
    by_cases hbit : bits.getD id false = true
    · rw [if_pos hbit, ih _ (by rw [setBit_length]; exact hrest), isSet_setBit hid]
      by_cases hi : i = id
      · subst hi
        simp only [hbit, decide_true, Bool.or_true, Bool.true_or, mem_cons_self, Bool.and_true]
      · simp [hi]
    · rw [if_neg hbit, ih _ hrest]
      by_cases hi : i = id
      · subst hi
        simp only [Bool.not_eq_true _ ▸ hbit, Bool.and_false]
      · simp [hi]

theorem packBits_length (bits : List Bool) : (packBits bits).length = packedLength bits.length := by
  rw [packBits]
  generalize hbuf : replicate (packedLength bits.length) (0 : UInt8) = buf
  rw [← show buf.length = packedLength bits.length by rw [← hbuf, length_replicate]]
  clear hbuf
  induction List.range bits.length generalizing buf with
  | nil => rfl
  | cons id ids ih =>
    rw [foldl_cons, ih]
    split
    · exact setBit_length buf id
    · rfl

theorem unpackBits_packBits (bits : List Bool) : unpackBits bits.length (packBits bits) = bits := by
  apply ext_getElem
  · rw [unpackBits, length_map, length_range]
  · intro i hi hi'
    have hids : ∀ id ∈ List.range bits.length,
        id / 8 < (replicate (packedLength bits.length) (0 : UInt8)).length := by
      intro id hid
      have hlt := mem_range.mp hid
      rw [length_replicate, packedLength]
      omega
    have hzero : isSet (replicate (packedLength bits.length) 0) i = false := by
      rw [isSet, and_mask, getD_eq_getElem?_getD, getElem?_replicate]
      split <;> simp
    simp only [unpackBits, getElem_map, getElem_range]
    rw [packBits, isSet_fold bits _ _ hids, hzero]
    simp [hi']

end BitPack
