import Mathlib.Data.List.TakeWhile
import TestAio.Library.Search

/-!
# Java strings as sequences of UTF-16 code units

A Java {lit}`String` is a sequence of sixteen-bit code units, and every index,
length and {lit}`charAt` of the programs modelled here counts such units.  This
module gives the strings, their literals and the few library methods the
programs call.

Main results:

- Theorem {lit}`isBlank_iff`: {lit}`trim().isEmpty()` holds exactly of the
  strings whose units are all at most U+0020.
- Theorem {lit}`decimal_injective`: two numbers appended to a
  {lit}`StringBuilder` give the same text only when they are equal.

Current gaps:

- Only the methods used by the modelled classes are defined.
-/

namespace TestAio

/-- A Java {lit}`char`: one UTF-16 code unit. -/
abbrev JChar := UInt16

/-- A Java {lit}`String`. -/
abbrev JString := List JChar

/-- The code units that encode one Unicode character. -/
def utf16 (c : Char) : JString :=
  if c.toNat < 0x10000 then
    [UInt16.ofNat c.toNat]
  else
    [UInt16.ofNat (0xD800 + (c.toNat - 0x10000) / 0x400),
      UInt16.ofNat (0xDC00 + (c.toNat - 0x10000) % 0x400)]

/-- A string literal of the source. -/
def jstr (s : String) : JString :=
  s.toList.flatMap utf16

/-- A literal is its characters; a long one is evaluated faster so. -/
theorem jstr_ofList (cs : List Char) : jstr (String.ofList cs) = cs.flatMap utf16 := by
  rw [jstr, String.toList_ofList]

/-- A character literal of the source (all of them are ASCII). -/
def jchar (c : Char) : JChar :=
  UInt16.ofNat c.toNat

/-! ## Surrogates and code points -/

/-- {lit}`Character.isHighSurrogate`. -/
def isHighSurrogate (c : JChar) : Bool :=
  decide (0xD800 ≤ c ∧ c ≤ 0xDBFF)

/-- {lit}`Character.isLowSurrogate`. -/
def isLowSurrogate (c : JChar) : Bool :=
  decide (0xDC00 ≤ c ∧ c ≤ 0xDFFF)

/-! ## Trimming -/

/-- The units that {lit}`String.trim` removes. -/
def isTrimmed (c : JChar) : Bool :=
  decide (c ≤ 0x20)

/-- {lit}`String.trim`. -/
def trim (s : JString) : JString :=
  ((s.dropWhile isTrimmed).reverse.dropWhile isTrimmed).reverse

/-- {lit}`s.trim().isEmpty()`. -/
def isBlank (s : JString) : Bool :=
  (trim s).isEmpty

theorem isBlank_iff (s : JString) :
    isBlank s = true ↔ ∀ c ∈ s, isTrimmed c = true := by
  unfold isBlank trim
  rw [List.isEmpty_iff, List.reverse_eq_nil_iff, List.dropWhile_eq_nil_iff]
  constructor
  · intro h c hc
    rw [← List.takeWhile_append_dropWhile (p := isTrimmed) (l := s)] at hc
    rcases List.mem_append.mp hc with hc | hc
    · exact List.mem_takeWhile_imp hc
    · exact h c (List.mem_reverse.mpr hc)
  · intro h c hc
    exact h c ((List.dropWhile_suffix _).subset (List.mem_reverse.mp hc))

/-! ## Decimal numbers -/

/-- The digits {lit}`StringBuilder.append(int)` writes for a non-negative
number. -/
def decimal (n : Nat) : JString :=
  (Nat.toDigits 10 n).map jchar

/-- The number a run of ASCII digits stands for. -/
def digitsValue (s : JString) : Nat :=
  s.foldl (fun acc c => 10 * acc + (c.toNat - 48)) 0

theorem jchar_toNat_of_isDigit {c : Char} (h : c.isDigit = true) :
    (jchar c).toNat = c.toNat := by
  have hle : c.toNat ≤ 57 := by
    simp only [Char.isDigit, Bool.and_eq_true, decide_eq_true_eq] at h
    exact UInt32.le_iff_toNat_le.mp h.2
  simp only [jchar, UInt16.toNat_ofNat']
  omega

/-- Reading the written digits gives the number back. -/
theorem digitsValue_decimal (n : Nat) : digitsValue (decimal n) = n := by
  have hdigits : ∀ c ∈ Nat.toDigits 10 n, c.isDigit = true := fun c hc =>
    Nat.isDigit_of_mem_toDigits (by decide) (by decide) hc
  have hfold : ∀ (cs : List Char) (acc : Nat), (∀ c ∈ cs, c.isDigit = true) →
      (cs.map jchar).foldl (fun acc c => 10 * acc + (c.toNat - 48)) acc =
        Nat.ofDigitChars 10 cs acc := by
    intro cs
    induction cs with
    | nil => intro acc _; simp [Nat.ofDigitChars_nil]
    | cons c cs ih =>
        intro acc hcs
        rw [List.map_cons, List.foldl_cons, Nat.ofDigitChars_cons,
          jchar_toNat_of_isDigit (hcs c (by simp))]
        exact ih _ fun d hd => hcs d (by simp [hd])
  unfold digitsValue decimal
  rw [hfold _ 0 hdigits]
  exact Nat.ofDigitChars_toDigits (by decide) (by decide)

theorem decimal_injective {m n : Nat} (h : decimal m = decimal n) : m = n := by
  rw [← digitsValue_decimal m, h, digitsValue_decimal]

end TestAio
