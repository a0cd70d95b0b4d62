import Mathlib.Data.List.DropRight
import TestAio.Java.Text
import TestAio.Library.Headings
import TestAio.Library.Splitting

/-!
# Splitting at one character

{lit}`text.split` with one character that stands for itself.  Empty pieces at the end are
dropped, unless there was nothing to split at.

Main results:

- Theorem {lit}`splitUnit_append`: a piece that is not empty stays in front.

Current gaps:

- Other patterns are modelled where they are used.
-/

namespace TestAio

open Library

/-- {lit}`text.split(c)`. -/
def splitUnit (c : JChar) (text : JString) : List JString :=
  let pieces := text.splitOn c
  if pieces.length = 1 then pieces else pieces.rdropWhile List.isEmpty

/-- A text without the character is one piece. -/
theorem splitUnit_of_not_mem {c : JChar} {text : JString} (h : c ∉ text) :
    splitUnit c text = [text] := by
  rw [splitUnit, List.splitOn_eq_singleton h]
  rfl

/-- No piece contains the character. -/
theorem not_mem_of_mem_splitUnit {c : JChar} {text piece : JString}
    (h : piece ∈ splitUnit c text) : c ∉ piece := by
  have hpieces : piece ∈ text.splitOn c := by
    unfold splitUnit at h
    dsimp only at h
    split at h
    · exact h
    · exact (List.rdropWhile_prefix _ _).subset h
  exact Headings.not_mem_of_mem_splitOn hpieces

theorem rdropWhile_cons_of_neg {α : Type} {p : α → Bool} {x : α} (hx : ¬ p x) (xs : List α) :
    (x :: xs).rdropWhile p = x :: xs.rdropWhile p := by
  induction xs using List.reverseRecOn with
  | nil => rw [List.rdropWhile_singleton, if_neg hx, List.rdropWhile_nil]
  | append_singleton xs y ih =>
      rw [← List.cons_append, List.rdropWhile_concat, List.rdropWhile_concat, ih]
      split
      · rfl
      · rfl

/-- The piece in front of the first occurrence stays, unless it is empty. -/
theorem splitUnit_append {c : JChar} {x : JString} (hc : c ∉ x) (hx : x ≠ []) (y : JString) :
    splitUnit c (x ++ c :: y) = x :: (y.splitOn c).rdropWhile List.isEmpty := by
  have hpieces : (x ++ c :: y).splitOn c = x :: y.splitOn c :=
    List.splitOn_append_cons_self_of_not_mem hc y
  have hlength : (x :: y.splitOn c).length ≠ 1 := by
    simp
  have hempty : ¬ x.isEmpty := by
    simpa using hx
  rw [splitUnit, hpieces, if_neg hlength, rdropWhile_cons_of_neg hempty]

/-- The first piece is what stands in front of the first occurrence. -/
theorem eq_takeWhile_of_splitUnit {c : JChar} {text value : JString} {values : List JString}
    (h : splitUnit c text = value :: values) : value = text.takeWhile (· ≠ c) := by
  by_cases hmem : c ∈ text
  · rcases Splitting.exists_takeWhile hmem with ⟨y, hnot, htext, -⟩
    have hpieces : text.splitOn c = text.takeWhile (· ≠ c) :: y.splitOn c := by
      rw [← List.splitOn_append_cons_self_of_not_mem hnot y, ← htext]
    have hprefix : splitUnit c text <+: text.splitOn c := by
      unfold splitUnit
      dsimp only
      split
      · exact List.prefix_refl _
      · exact List.rdropWhile_prefix _ _
    rw [h, hpieces, List.cons_prefix_cons] at hprefix
    exact hprefix.1
  · rw [splitUnit_of_not_mem hmem] at h
    cases h
    symm
    rw [List.takeWhile_eq_self_iff]
    intro x hx
    simpa using fun hxc : x = c => hmem (hxc ▸ hx)

end TestAio
