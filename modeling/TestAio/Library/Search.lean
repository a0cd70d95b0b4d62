import Mathlib.Data.List.Infix
import Mathlib.Data.List.TakeDrop

/-!
# First-occurrence search in lists

A substring search returns the least offset at which a pattern occurs.  This
module fixes the search as a structural recursion and states what its two
answers mean, so that programs built on repeated searching are proved from the
offset alone and never unfold the search.

Main results:

- Theorem {lit}`indexOf_eq_some_iff`: a returned offset is the least one at
  which the pattern occurs.
- Theorem {lit}`indexOf_eq_none_iff`: failure means that the pattern is no
  factor of the text.
- Theorem {lit}`split_of_indexOf`: the text is the part before the occurrence,
  the pattern and the part after it.

Current gaps:

- None.
-/

namespace TestAio
namespace Library
namespace Search

variable {α : Type} [DecidableEq α]

/-- Offset of the first occurrence of {lit}`pat` in {lit}`text`. -/
def indexOf (text pat : List α) : Option Nat :=
  if pat <+: text then
    some 0
  else
    match text with
    | [] => none
    | _ :: rest => (indexOf rest pat).map (· + 1)

/-- Whether {lit}`pat` occurs somewhere in {lit}`text`. -/
def contains (text pat : List α) : Bool :=
  (indexOf text pat).isSome

theorem indexOf_eq_zero {text pat : List α} (h : pat <+: text) :
    indexOf text pat = some 0 := by
  unfold indexOf
  rw [if_pos h]

theorem indexOf_nil_of_ne {pat : List α} (h : pat ≠ []) :
    indexOf ([] : List α) pat = none := by
  unfold indexOf
  rw [if_neg (by simpa using h)]

theorem indexOf_cons_eq_succ {a : α} {rest pat : List α}
    (h : ¬ pat <+: a :: rest) :
    indexOf (a :: rest) pat = (indexOf rest pat).map (· + 1) := by
  rw [indexOf, if_neg h]

/-- The occurrence found really is one. -/
theorem prefix_drop_of_indexOf {text pat : List α} {i : Nat}
    (h : indexOf text pat = some i) : pat <+: text.drop i := by
  induction text generalizing i with
  | nil =>
      by_cases hpat : pat = []
      · subst pat
        simp
      · rw [indexOf_nil_of_ne hpat] at h
        contradiction
  | cons a rest ih =>
      by_cases hpre : pat <+: a :: rest
      · rw [indexOf_eq_zero hpre] at h
        cases h
        simpa using hpre
      · rw [indexOf_cons_eq_succ hpre] at h
        rcases Option.map_eq_some_iff.mp h with ⟨j, hj, rfl⟩
        simpa using ih hj

/-- No occurrence starts before the one found. -/
theorem not_prefix_drop_of_lt {text pat : List α} {i j : Nat}
    (h : indexOf text pat = some i) (hj : j < i) : ¬ pat <+: text.drop j := by
  induction text generalizing i j with
  | nil =>
      by_cases hpat : pat = []
      · subst pat
        rw [indexOf_eq_zero List.nil_prefix] at h
        cases h
        omega
      · rw [indexOf_nil_of_ne hpat] at h
        contradiction
  | cons a rest ih =>
      by_cases hpre : pat <+: a :: rest
      · rw [indexOf_eq_zero hpre] at h
        cases h
        omega
      · rw [indexOf_cons_eq_succ hpre] at h
        rcases Option.map_eq_some_iff.mp h with ⟨k, hk, rfl⟩
        cases j with
        | zero => simpa using hpre
        | succ j => simpa using ih hk (by omega)

/-- An occurrence anywhere makes the search succeed at or before it. -/
theorem exists_indexOf_le {text pat : List α} {i : Nat}
    (h : pat <+: text.drop i) : ∃ j ≤ i, indexOf text pat = some j := by
  induction text generalizing i with
  | nil =>
      have hpat : pat = [] := by simpa using h
      subst pat
      exact ⟨0, Nat.zero_le _, indexOf_eq_zero List.nil_prefix⟩
  | cons a rest ih =>
      by_cases hpre : pat <+: a :: rest
      · exact ⟨0, Nat.zero_le _, indexOf_eq_zero hpre⟩
      · cases i with
        | zero => exact absurd (by simpa using h) hpre
        | succ i =>
            rcases ih (i := i) (by simpa using h) with ⟨j, hj, hsome⟩
            exact ⟨j + 1, by omega,
              by rw [indexOf_cons_eq_succ hpre, hsome]; rfl⟩

/-- The offset returned is exactly the least offset of an occurrence. -/
theorem indexOf_eq_some_iff {text pat : List α} {i : Nat} :
    indexOf text pat = some i ↔
      pat <+: text.drop i ∧ ∀ j < i, ¬ pat <+: text.drop j := by
  constructor
  · intro h
    exact ⟨prefix_drop_of_indexOf h, fun j hj => not_prefix_drop_of_lt h hj⟩
  · rintro ⟨hpre, hleast⟩
    rcases exists_indexOf_le hpre with ⟨j, hj, hsome⟩
    have hji : ¬ j < i := fun hlt => hleast j hlt (prefix_drop_of_indexOf hsome)
    have : j = i := by omega
    rw [hsome, this]

/-- The search fails exactly when the pattern is no factor of the text. -/
theorem indexOf_eq_none_iff {text pat : List α} :
    indexOf text pat = none ↔ ¬ pat <:+: text := by
  constructor
  · rintro hnone ⟨before, after, rfl⟩
    have hpre : pat <+: (before ++ pat ++ after).drop before.length := by simp
    rcases exists_indexOf_le hpre with ⟨j, -, hsome⟩
    rw [hnone] at hsome
    contradiction
  · intro hnot
    cases h : indexOf text pat with
    | none => rfl
    | some i =>
        exact absurd ((prefix_drop_of_indexOf h).isInfix.trans
          (List.drop_suffix i text).isInfix) hnot

theorem contains_iff {text pat : List α} :
    contains text pat = true ↔ pat <:+: text := by
  unfold contains
  rw [Option.isSome_iff_ne_none, ne_eq, indexOf_eq_none_iff, not_not]

/-- The occurrence found cuts the text into three consecutive parts. -/
theorem split_of_indexOf {text pat : List α} {i : Nat}
    (h : indexOf text pat = some i) :
    text = text.take i ++ pat ++ text.drop (i + pat.length) := by
  rcases prefix_drop_of_indexOf h with ⟨after, hafter⟩
  have hdrop : text.drop (i + pat.length) = after := by
    rw [← List.drop_drop, ← hafter, List.drop_left]
  rw [hdrop, List.append_assoc, hafter, List.take_append_drop]

/-- The occurrence found ends inside the text. -/
theorem add_length_le_of_indexOf {text pat : List α} {i : Nat}
    (h : indexOf text pat = some i) : i + pat.length ≤ text.length ∨ pat = [] := by
  by_cases hpat : pat = []
  · exact Or.inr hpat
  · have hlen := (prefix_drop_of_indexOf h).length_le
    rw [List.length_drop] at hlen
    have hpos : 0 < pat.length := List.length_pos_of_ne_nil hpat
    exact Or.inl (by omega)

end Search
end Library
end TestAio
