import Mathlib.Algebra.Order.Group.Nat
import Mathlib.Data.Nat.Bitwise
import Mathlib.Tactic.Ring

/-!
# The lowest bit of a number

The lowest bit of a number, how it is found part by part, and how it is cut out of the number.

Main results:

- Theorem {lit}`LowestBit.of_mod` and {lit}`LowestBit.of_div`: the lowest bit lies in the low part
  of a number, or in the high part when the low one is zero.
- Theorem {lit}`LowestBit.isolate`: {lit}`n & (n - 1) ^ n` is the power of two of the lowest bit.

Current gaps:

- None.
-/

namespace TestAio
namespace Library

/-- The bit is set, and no lower one is. -/
structure LowestBit (n index : Nat) : Prop where
  set : n.testBit index = true
  clear : ∀ lower < index, n.testBit lower = false

namespace LowestBit

variable {n index : Nat}

/-- A number has one lowest bit. -/
theorem unique {index' : Nat} (h : LowestBit n index) (h' : LowestBit n index') :
    index = index' := by
  rcases Nat.lt_trichotomy index index' with hlt | heq | hgt
  · exact absurd h.set (by rw [h'.clear index hlt]; exact Bool.false_ne_true)
  · exact heq
  · exact absurd h'.set (by rw [h.clear index' hgt]; exact Bool.false_ne_true)

/-- A number with a lowest bit is not zero. -/
theorem ne_zero (h : LowestBit n index) : n ≠ 0 := by
  rintro rfl
  have hset := h.set
  rw [Nat.zero_testBit] at hset
  cases hset

/-- The lowest bit of the low part is the one of the number. -/
theorem of_mod {width : Nat} (h : LowestBit (n % 2 ^ width) index) : LowestBit n index := by
  have hset := h.set
  rw [Nat.testBit_mod_two_pow, Bool.and_eq_true, decide_eq_true_iff] at hset
  refine ⟨hset.2, fun lower hlower => ?_⟩
  have hclear := h.clear lower hlower
  rw [Nat.testBit_mod_two_pow, decide_eq_true (Nat.lt_trans hlower hset.1)] at hclear
  exact hclear

/-- With a low part of zero the lowest bit is found in the high part. -/
theorem of_div {width : Nat} (hzero : n % 2 ^ width = 0)
    (h : LowestBit (n / 2 ^ width) index) : LowestBit n (width + index) := by
  have hset := h.set
  rw [Nat.testBit_div_two_pow] at hset
  refine ⟨?_, fun lower hlower => ?_⟩
  · rw [Nat.add_comm]
    exact hset
  · by_cases hlow : lower < width
    · have hclear := Nat.testBit_mod_two_pow n width lower
      rw [hzero, Nat.zero_testBit, decide_eq_true hlow, Bool.true_and] at hclear
      exact hclear.symm
    · have hclear := h.clear (lower - width) (by omega)
      rw [Nat.testBit_div_two_pow, Nat.sub_add_cancel (Nat.le_of_not_lt hlow)] at hclear
      exact hclear

/-- Every number but zero is an odd one times a power of two. -/
theorem exists_eq (hn : n ≠ 0) : ∃ index high, n = 2 ^ (index + 1) * high + 2 ^ index := by
  induction n using Nat.strong_induction_on with
  | _ n ih =>
      rcases Nat.even_or_odd' n with ⟨half, rfl | rfl⟩
      · rcases ih half (by omega) (by omega) with ⟨index, high, hhalf⟩
        refine ⟨index + 1, high, ?_⟩
        rw [hhalf]
        ring
      · exact ⟨0, half, by ring⟩

/-- A number that ends in a one and zeros has its lowest bit there. -/
theorem of_eq {high : Nat} (h : n = 2 ^ (index + 1) * high + 2 ^ index) : LowestBit n index := by
  have hlt : 2 ^ index < 2 ^ (index + 1) := Nat.pow_lt_pow_succ (by decide)
  refine ⟨?_, fun lower hlower => ?_⟩
  · rw [h, Nat.testBit_two_pow_mul_add high hlt, if_pos (Nat.lt_succ_self index),
      Nat.testBit_two_pow_self]
  · rw [h, Nat.testBit_two_pow_mul_add high hlt, if_pos (Nat.lt_succ_of_lt hlower),
      Nat.testBit_two_pow_of_ne (Nat.ne_of_gt hlower)]

/-- The lowest bit, cut out of the number. -/
theorem isolate (h : LowestBit n index) : (n &&& (n - 1)) ^^^ n = 2 ^ index := by
  rcases exists_eq h.ne_zero with ⟨index', high, heq⟩
  obtain rfl := h.unique (of_eq heq)
  have hlt : 2 ^ index < 2 ^ (index + 1) := Nat.pow_lt_pow_succ (by decide)
  have hpos := Nat.two_pow_pos index
  have hpred : n - 1 = 2 ^ (index + 1) * high + (2 ^ index - 1) := by omega
  apply Nat.eq_of_testBit_eq
  intro bit
  rw [Nat.testBit_xor, Nat.testBit_and, hpred, heq, Nat.testBit_two_pow_mul_add high hlt,
    Nat.testBit_two_pow_mul_add high (Nat.lt_of_le_of_lt (Nat.sub_le _ 1) hlt)]
  by_cases hbit : bit < index + 1
  · rw [if_pos hbit, if_pos hbit, Nat.testBit_two_pow_sub_one]
    by_cases hself : index = bit
    · subst hself
      simp
    · rw [Nat.testBit_two_pow_of_ne hself]
      rfl
  · rw [if_neg hbit, if_neg hbit, Nat.testBit_two_pow_of_ne (by omega)]
    simp

end LowestBit

/-- A part of a number, by a mask and a shift. -/
theorem land_shiftLeft_mask (n width shift : Nat) :
    n &&& (2 ^ width - 1) <<< shift = ((n / 2 ^ shift) % 2 ^ width) <<< shift := by
  apply Nat.eq_of_testBit_eq
  intro bit
  rw [Nat.testBit_and, Nat.testBit_shiftLeft, Nat.testBit_shiftLeft, Nat.testBit_two_pow_sub_one,
    Nat.testBit_mod_two_pow, Nat.testBit_div_two_pow]
  by_cases hshift : shift ≤ bit
  · rw [Nat.sub_add_cancel hshift, decide_eq_true hshift, Bool.true_and, Bool.true_and,
      Bool.and_comm]
  · rw [decide_eq_false hshift, Bool.false_and, Bool.false_and, Bool.and_false]

end Library
end TestAio
