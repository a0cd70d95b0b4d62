import TestAio.Java.Text

/-!
# Numbers behind a word

Every pattern with digits in the modelled classes is a fixed word followed by
{lit}`\d` or {lit}`\d+`.  A {lit}`find` of such a pattern is a search for the first
place where the word is followed by a digit.

Main results:

- Theorem {lit}`not_startsWith_of_startsWith`: a text starts with at most one of two words of
  which neither starts the other.

Current gaps:

- Regular expressions in general are not modelled.
-/

namespace TestAio

/-- {lit}`\d`, which matches the ASCII digits only. -/
def isDigit (c : JChar) : Bool :=
  decide (0x30 ≤ c ∧ c ≤ 0x39)

/-- {lit}`text.startsWith(lead)`. -/
def startsWith (text lead : JString) : Bool :=
  lead.isPrefixOf text

/-- What follows {lit}`lead` at the first place where a digit follows it. -/
def findDigit (lead : JString) : JString → Option JString
  | [] => none
  | c :: rest =>
      let behind := (c :: rest).drop lead.length
      if startsWith (c :: rest) lead && behind.head?.any isDigit then
        some behind
      else
        findDigit lead rest

/-- The digits of the first match of {lit}`lead\d+`. -/
def findNumber (lead text : JString) : Option JString :=
  (findDigit lead text).map fun behind => behind.takeWhile isDigit

/-- The digit of the first match of {lit}`lead\d`. -/
def findOneDigit (lead text : JString) : Option JString :=
  (findDigit lead text).map fun behind => behind.take 1

/-- A text that starts with the word and a digit is matched at its start. -/
theorem findDigit_append {lead behind : JString} (h : behind.head?.any isDigit = true) :
    findDigit lead (lead ++ behind) = some behind := by
  cases htext : lead ++ behind with
  | nil =>
      rw [(List.append_eq_nil_iff.mp htext).2] at h
      contradiction
  | cons c rest =>
      have hstarts : startsWith (lead ++ behind) lead = true :=
        List.isPrefixOf_iff_prefix.mpr (List.prefix_append _ _)
      have hbehind : (lead ++ behind).drop lead.length = behind := List.drop_left
      rw [htext] at hstarts hbehind
      simp only [findDigit, hstarts, hbehind, h, Bool.and_self, if_true]

/-- The exceptions of the modelled classes. -/
inductive JavaException
  | numberFormat
  | nullPointer
  | exception (message : JString)
deriving DecidableEq

/-- {lit}`Integer.parseInt` of a text of digits. -/
def parseInt (digits : JString) : Except JavaException Nat :=
  if digitsValue digits ≤ 0x7FFFFFFF then
    .ok (digitsValue digits)
  else
    .error .numberFormat

theorem parseInt_eq_ok {digits : JString} {n : Nat} (h : parseInt digits = .ok n) :
    n = digitsValue digits := by
  unfold parseInt at h
  split at h
  · cases h
    rfl
  · contradiction

/-- Two literals of which neither starts the other never start one text. -/
theorem not_startsWith_of_startsWith {text lead other : JString}
    (h : startsWith text lead = true) (hleft : lead.isPrefixOf other = false)
    (hright : other.isPrefixOf lead = false) : startsWith text other = false := by
  by_contra hother
  rw [Bool.not_eq_false] at hother
  have hlead : lead <+: text := List.isPrefixOf_iff_prefix.mp h
  have hpre : other <+: text := List.isPrefixOf_iff_prefix.mp hother
  rcases List.prefix_or_prefix_of_prefix hlead hpre with hle | hle
  · rw [List.isPrefixOf_iff_prefix.mpr hle] at hleft
    contradiction
  · rw [List.isPrefixOf_iff_prefix.mpr hle] at hright
    contradiction

end TestAio
