import Mathlib.Algebra.Ring.Nat
import Mathlib.Data.BitVec
import TestAio.Library.LowestBit

/-!
# The first bit that is set

The two functions of {lit}`src/kservice.c` that find the first set bit of a word: one looks up
the lowest byte that is not zero, the other one cuts out the lowest bit and looks up its remainder
by thirty-seven.

Main results:

- Theorem {lit}`rtFfs_spec`: the function answers with the place of the lowest bit.
- Theorem {lit}`rtFfsTiny_eq`: the two functions agree on every word.

Current gaps:

- The functions in assembler that some processors have are not modelled.
-/

namespace TestAio
namespace RtThread

open Library

/-- {lit}`__lowest_bit_bitmap` for a byte. -/
def lowestBitBitmap : List Nat :=
  [0, 0, 1, 0, 2, 0, 1, 0, 3, 0, 1, 0, 2, 0, 1, 0,
   4, 0, 1, 0, 2, 0, 1, 0, 3, 0, 1, 0, 2, 0, 1, 0,
   5, 0, 1, 0, 2, 0, 1, 0, 3, 0, 1, 0, 2, 0, 1, 0,
   4, 0, 1, 0, 2, 0, 1, 0, 3, 0, 1, 0, 2, 0, 1, 0,
   6, 0, 1, 0, 2, 0, 1, 0, 3, 0, 1, 0, 2, 0, 1, 0,
   4, 0, 1, 0, 2, 0, 1, 0, 3, 0, 1, 0, 2, 0, 1, 0,
   5, 0, 1, 0, 2, 0, 1, 0, 3, 0, 1, 0, 2, 0, 1, 0,
   4, 0, 1, 0, 2, 0, 1, 0, 3, 0, 1, 0, 2, 0, 1, 0,
   7, 0, 1, 0, 2, 0, 1, 0, 3, 0, 1, 0, 2, 0, 1, 0,
   4, 0, 1, 0, 2, 0, 1, 0, 3, 0, 1, 0, 2, 0, 1, 0,
   5, 0, 1, 0, 2, 0, 1, 0, 3, 0, 1, 0, 2, 0, 1, 0,
   4, 0, 1, 0, 2, 0, 1, 0, 3, 0, 1, 0, 2, 0, 1, 0,
   6, 0, 1, 0, 2, 0, 1, 0, 3, 0, 1, 0, 2, 0, 1, 0,
   4, 0, 1, 0, 2, 0, 1, 0, 3, 0, 1, 0, 2, 0, 1, 0,
   5, 0, 1, 0, 2, 0, 1, 0, 3, 0, 1, 0, 2, 0, 1, 0,
   4, 0, 1, 0, 2, 0, 1, 0, 3, 0, 1, 0, 2, 0, 1, 0]

/-- {lit}`__rt_ffs`. -/
def rtFfs (value : BitVec 32) : Nat :=
  if value = 0 then
    0
  else if value &&& 0xff#32 ≠ 0 then
    lowestBitBitmap.getD (value &&& 0xff#32).toNat 0 + 1
  else if value &&& 0xff00#32 ≠ 0 then
    lowestBitBitmap.getD ((value &&& 0xff00#32) >>> 8).toNat 0 + 9
  else if value &&& 0xff0000#32 ≠ 0 then
    lowestBitBitmap.getD ((value &&& 0xff0000#32) >>> 16).toNat 0 + 17
  else
    lowestBitBitmap.getD ((value &&& 0xff000000#32) >>> 24).toNat 0 + 25

/-- {lit}`__lowest_bit_bitmap` with {lit}`RT_USING_TINY_FFS`. -/
def lowestBitBitmapTiny : List Nat :=
  [0, 1, 2, 27, 3, 24, 28, 32,
   4, 17, 25, 31, 29, 12, 32, 14,
   5, 8, 18, 32, 26, 23, 32, 16,
   30, 11, 13, 7, 32, 22, 15, 10,
   6, 21, 9, 20, 19]

/-- {lit}`__rt_ffs` with {lit}`RT_USING_TINY_FFS`. -/
def rtFfsTiny (value : BitVec 32) : Nat :=
  lowestBitBitmapTiny.getD (((value &&& (value - 1)) ^^^ value).toNat % 37) 0

/-- The byte at a place of the word, as the masks and shifts of the function read it. -/
theorem toNat_byte (value : BitVec 32) {shift : Nat} (mask : BitVec 32)
    (hmask : mask.toNat = (2 ^ 8 - 1) <<< shift) :
    (value &&& mask).toNat = (value.toNat / 2 ^ shift % 2 ^ 8) <<< shift ∧
      ((value &&& mask) >>> shift).toNat = value.toNat / 2 ^ shift % 2 ^ 8 := by
  have hland : (value &&& mask).toNat = (value.toNat / 2 ^ shift % 2 ^ 8) <<< shift := by
    rw [BitVec.toNat_and, hmask, land_shiftLeft_mask]
  refine ⟨hland, ?_⟩
  rw [BitVec.toNat_ushiftRight, hland, Nat.shiftLeft_shiftRight]

/-- The table knows the lowest bit of each byte. -/
theorem lowestBitBitmap_spec {byte : Nat} (hbyte : byte < 2 ^ 8) (hzero : byte ≠ 0) :
    LowestBit byte (lowestBitBitmap.getD byte 0) := by
  have hset : ∀ byte < 2 ^ 8, byte ≠ 0 →
      byte.testBit (lowestBitBitmap.getD byte 0) = true ∧
        ∀ lower < lowestBitBitmap.getD byte 0, byte.testBit lower = false := by
    decide +kernel
  exact ⟨(hset byte hbyte hzero).1, (hset byte hbyte hzero).2⟩

/-- One look into the table: either the byte is zero, or its lowest bit is the one of the word,
as long as all lower bytes are zero. -/
theorem byte_spec (value : BitVec 32) (shift : Nat) (mask : BitVec 32)
    (hmask : mask.toNat = (2 ^ 8 - 1) <<< shift) (hlow : value.toNat % 2 ^ shift = 0) :
    (value &&& mask = 0 ∧ value.toNat % 2 ^ (shift + 8) = 0) ∨
      (value &&& mask ≠ 0 ∧ LowestBit value.toNat
        (shift + lowestBitBitmap.getD ((value &&& mask) >>> shift).toNat 0)) := by
  rcases toNat_byte value mask hmask with ⟨hland, hbyte⟩
  have hparts : value.toNat % 2 ^ (shift + 8) = 2 ^ shift * (value.toNat / 2 ^ shift % 2 ^ 8) := by
    rw [Nat.pow_add, Nat.mod_mul, hlow, Nat.zero_add]
  by_cases hzero : value.toNat / 2 ^ shift % 2 ^ 8 = 0
  · refine .inl ⟨BitVec.eq_of_toNat_eq ?_, ?_⟩
    · rw [hland, hzero, Nat.zero_shiftLeft]
      rfl
    · rw [hparts, hzero, Nat.mul_zero]
  · refine .inr ⟨fun heq => hzero ?_, ?_⟩
    · rw [← hbyte, heq]
      simp
    · rw [hbyte]
      exact .of_div hlow (.of_mod (lowestBitBitmap_spec (Nat.mod_lt _ (by decide)) hzero))

/-- The function answers with the place of the lowest bit, counted from one, and with zero when
no bit is set. -/
theorem rtFfs_spec (value : BitVec 32) :
    (value = 0 ∧ rtFfs value = 0) ∨
      ∃ index, rtFfs value = index + 1 ∧ LowestBit value.toNat index := by
  by_cases hzero : value = 0
  · exact .inl ⟨hzero, if_pos hzero⟩
  · right
    rw [rtFfs, if_neg hzero]
    rcases byte_spec value 0 0xff#32 rfl (Nat.mod_one _) with ⟨heq, hlow⟩ | ⟨hne, hbit⟩
    · rw [if_neg (not_not.mpr heq)]
      rcases byte_spec value 8 0xff00#32 rfl hlow with ⟨heq, hlow⟩ | ⟨hne, hbit⟩
      · rw [if_neg (not_not.mpr heq)]
        rcases byte_spec value 16 0xff0000#32 rfl hlow with ⟨heq, hlow⟩ | ⟨hne, hbit⟩
        · rw [if_neg (not_not.mpr heq)]
          rcases byte_spec value 24 0xff000000#32 rfl hlow with ⟨-, hlow⟩ | ⟨-, hbit⟩
          · rw [Nat.mod_eq_of_lt value.isLt] at hlow
            exact absurd (BitVec.eq_of_toNat_eq hlow) hzero
          · exact ⟨_, by omega, hbit⟩
        · rw [if_pos hne]
          exact ⟨_, by omega, hbit⟩
      · rw [if_pos hne]
        exact ⟨_, by omega, hbit⟩
    · rw [if_pos hne]
      rw [BitVec.ushiftRight_zero, Nat.zero_add] at hbit
      exact ⟨_, rfl, hbit⟩

/-- The lowest bit of a word lies within the word. -/
theorem lowestBit_lt {value : BitVec 32} {index : Nat} (hbit : LowestBit value.toNat index) :
    index < 32 := by
  by_contra hle
  have hlarge : 2 ^ 32 ≤ 2 ^ index := Nat.pow_le_pow_right (by decide) (Nat.le_of_not_lt hle)
  have hclear := Nat.testBit_lt_two_pow (Nat.lt_of_lt_of_le value.isLt hlarge)
  rw [hbit.set] at hclear
  cases hclear

/-- Both functions agree on every word. -/
theorem rtFfsTiny_eq (value : BitVec 32) : rtFfsTiny value = rtFfs value := by
  rcases rtFfs_spec value with ⟨rfl, hffs⟩ | ⟨index, hffs, hbit⟩
  · rw [hffs]
    rfl
  · have hindex := lowestBit_lt hbit
    have hpos : 0 < value.toNat := Nat.pos_of_ne_zero hbit.ne_zero
    have hpred : (value - 1).toNat = value.toNat - 1 :=
      BitVec.toNat_sub_of_le (BitVec.le_def.mpr hpos)
    have htable : ∀ index < 32, lowestBitBitmapTiny.getD (2 ^ index % 37) 0 = index + 1 := by
      decide +kernel
    rw [hffs, rtFfsTiny, BitVec.toNat_xor, BitVec.toNat_and, hpred, hbit.isolate]
    exact htable index hindex

end RtThread
end TestAio
