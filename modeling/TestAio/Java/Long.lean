import TestAio.Java.Pattern
import TestAio.Library.Effects

/-!
# Reading a long

{lit}`Long.parseLong` accepts an optional sign and decimal digits of any script of the basic
plane, as long as the number fits into 64 bits.

Main results:

- Theorem {lit}`parseLong_isOk_iff`: the texts that are read without an exception.

Current gaps:

- The digits are those of the basic plane; a surrogate is no digit.
-/

namespace TestAio

open Library

/-- The digits of value 0. -/
def zeroDigits : List JChar :=
  [0x0030, 0x0660, 0x06f0, 0x07c0, 0x0966, 0x09e6, 0x0a66, 0x0ae6, 0x0b66, 0x0be6, 0x0c66,
    0x0ce6, 0x0d66, 0x0de6, 0x0e50, 0x0ed0, 0x0f20, 0x1040, 0x1090, 0x17e0, 0x1810, 0x1946,
    0x19d0, 0x1a80, 0x1a90, 0x1b50, 0x1bb0, 0x1c40, 0x1c50, 0xa620, 0xa8d0, 0xa900, 0xa9d0,
    0xa9f0, 0xaa50, 0xabf0, 0xff10]

/-- {lit}`Character.digit(c, 10)`, where it is not negative. -/
def decimalDigit (c : JChar) : Option Nat :=
  (zeroDigits.find? fun zero => decide (zero ≤ c ∧ c.toNat ≤ zero.toNat + 9)).map fun zero =>
    c.toNat - zero.toNat

/-- The number that decimal digits stand for. -/
def decimalValue (digits : JString) : Nat :=
  digits.foldl (fun n c => 10 * n + (decimalDigit c).getD 0) 0

/-- Whether a text starts with a minus, and what stands behind its sign. -/
def splitSign : JString → Bool × JString
  | [] => (false, [])
  | c :: rest =>
      if c = 45 then (true, rest)
      else if c = 43 then (false, rest)
      else (false, c :: rest)

/-- {lit}`Long.parseLong`. -/
def parseLong (text : JString) : Except JavaException Int :=
  let (negative, digits) := splitSign text
  if digits = [] then
    .error .numberFormat
  else if digits.any fun c => (decimalDigit c).isNone then
    .error .numberFormat
  else if negative then
    if decimalValue digits ≤ 0x8000000000000000 then
      .ok (-decimalValue digits)
    else
      .error .numberFormat
  else
    if decimalValue digits < 0x8000000000000000 then
      .ok (decimalValue digits)
    else
      .error .numberFormat

/-- A number that fits: behind the sign stand digits, and their value is at most
9223372036854775807, or 9223372036854775808 behind a minus. -/
structure IsLong (text : JString) : Prop where
  nonempty : (splitSign text).2 ≠ []
  digits : ∀ c ∈ (splitSign text).2, (decimalDigit c).isSome = true
  fits : decimalValue (splitSign text).2 <
    0x8000000000000000 + if (splitSign text).1 then 1 else 0

/-- The texts that are read without an exception. -/
theorem parseLong_isOk_iff (text : JString) :
    (∃ n, parseLong text = .ok n) ↔ IsLong text := by
  have hlong : IsLong text ↔ (splitSign text).2 ≠ [] ∧
      (∀ c ∈ (splitSign text).2, (decimalDigit c).isSome = true) ∧
      decimalValue (splitSign text).2 <
        0x8000000000000000 + if (splitSign text).1 then 1 else 0 := by
    constructor
    · intro h
      exact ⟨h.nonempty, h.digits, h.fits⟩
    · intro h
      exact ⟨h.1, h.2.1, h.2.2⟩
  have hany (digits : JString) : (¬ (digits.any fun c => (decimalDigit c).isNone) = true) ↔
      ∀ c ∈ digits, (decimalDigit c).isSome = true := by
    rw [Bool.not_eq_true, List.any_eq_false]
    apply forall₂_congr
    intro c _
    rw [Bool.not_eq_true, Option.isNone_eq_false_iff]
  rw [hlong, parseLong]
  rcases splitSign text with ⟨negative, digits⟩
  dsimp only
  rw [Effects.exists_guard_eq_ok_iff, Effects.exists_guard_eq_ok_iff, hany]
  apply and_congr_right
  intro _
  apply and_congr_right
  intro _
  cases negative with
  | false =>
      rw [if_neg Bool.false_ne_true, if_neg Bool.false_ne_true, Effects.exists_check_eq_ok_iff,
        Nat.add_zero]
  | true =>
      rw [if_pos rfl, if_pos rfl, Effects.exists_check_eq_ok_iff, Nat.lt_succ_iff]

end TestAio
