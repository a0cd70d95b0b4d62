import Mathlib.Data.List.Basic

/-!
# Bytes of encoded characters

Facts about the UTF-8 encoding of a text, on top of the encoder of the standard library.

Main results:

- Theorem {lit}`le_of_mem_utf8EncodeChar`: the bytes of a character that takes several are
  not ASCII.
- Theorem {lit}`eq_of_prefix_flatMap`: an encoding starts with the bytes of its first
  character and of no other.

Current gaps:

- None.
-/

namespace TestAio
namespace Library
namespace Utf8

theorem toNat_le_or (x y : UInt8) : y.toNat ≤ (x ||| y).toNat := by
  rw [UInt8.toNat_or]
  exact Nat.right_le_or

/-- The bytes of a character that takes several are not ASCII. -/
theorem le_of_mem_utf8EncodeChar {c : Char} (h : 1 < c.utf8Size) {b : UInt8}
    (hb : b ∈ String.utf8EncodeChar c) : 128 ≤ b.toNat := by
  have hsize : c.utf8Size = 2 ∨ c.utf8Size = 3 ∨ c.utf8Size = 4 := by
    have hle := Char.utf8Size_le_four c
    omega
  rcases hsize with htwo | hthree | hfour
  · rw [String.utf8EncodeChar_eq_cons_cons htwo] at hb
    simp only [List.mem_cons, List.not_mem_nil, or_false] at hb
    rcases hb with rfl | rfl <;> exact Nat.le_trans (by decide) (toNat_le_or _ _)
  · rw [String.utf8EncodeChar_eq_cons_cons_cons hthree] at hb
    simp only [List.mem_cons, List.not_mem_nil, or_false] at hb
    rcases hb with rfl | rfl | rfl <;> exact Nat.le_trans (by decide) (toNat_le_or _ _)
  · rw [String.utf8EncodeChar_eq_cons_cons_cons_cons hfour] at hb
    simp only [List.mem_cons, List.not_mem_nil, or_false] at hb
    rcases hb with rfl | rfl | rfl | rfl <;> exact Nat.le_trans (by decide) (toNat_le_or _ _)

/-- An ASCII character is one byte, its code. -/
theorem utf8EncodeChar_of_ascii {c : Char} (h : c.toNat < 128) :
    String.utf8EncodeChar c = [UInt8.ofNat c.toNat] := by
  have hsize : c.utf8Size = 1 := by
    rw [Char.utf8Size_eq_one_iff, UInt32.le_iff_toNat_le]
    exact Nat.le_of_lt_succ h
  rw [String.utf8EncodeChar_eq_singleton hsize]
  rfl

/-- A character that takes one byte is an ASCII character. -/
theorem toNat_lt_of_utf8Size_eq_one {c : Char} (h : c.utf8Size = 1) : c.toNat < 128 := by
  rw [Char.utf8Size_eq_one_iff, UInt32.le_iff_toNat_le] at h
  exact Nat.lt_succ_of_le h

/-- An encoding starts with the bytes of its first character and of no other. -/
theorem eq_of_prefix_flatMap {c d : Char} {text : List Char}
    (h : String.utf8EncodeChar c <+: (d :: text).flatMap String.utf8EncodeChar) : c = d := by
  rcases h with ⟨rest, hrest⟩
  have hencode : [c].utf8Encode ++ rest.toByteArray = (d :: text).utf8Encode := by
    rw [List.utf8Encode_singleton, ← List.toByteArray_append, hrest]
    rfl
  exact (List.cons_prefix_cons.mp (List.isPrefix_of_utf8Encode_append_eq_utf8Encode _
    hencode)).1

end Utf8
end Library
end TestAio
