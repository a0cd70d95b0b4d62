import TestAio.Java.Text
import TestAio.Library.Effects

/-!
# Replacement strings

{lit}`Matcher.replaceAll` does not insert what its function returns but expands it: a
backslash takes the next unit as it is, and a dollar sign refers to a group.  For a pattern
without groups only {lit}`$0`, the match itself, can be referred to.

Main results:

- Theorem {lit}`expandReplacement_of_plain`: a text without these two units stands for itself.
- Theorem {lit}`plain_or_shifted`: an expansion can agree with its text only up to the first
  of these units; from then on it lags behind by backslashes.

Current gaps:

- The patterns have no groups.
-/

namespace TestAio

open Library

/-- The exceptions of {lit}`appendReplacement`. -/
inductive ReplacementFailure
  | illegalArgument
  | indexOutOfBounds
deriving DecidableEq

/-- The backslash. -/
def backslash : JChar := 92

/-- The dollar sign. -/
def dollar : JChar := 36

/-- Where the expansion stands: at a unit of its own, behind a backslash, behind a dollar
sign, or behind a reference, which further zeros belong to. -/
inductive Expansion
  | plain
  | escaped
  | reference
  | zeros

/-- {lit}`appendExpandedReplacement` for a match of a pattern without groups. -/
def expandFrom (group : JString) :
    Expansion → JString → Except ReplacementFailure JString
  | .plain, [] => .ok []
  | .zeros, [] => .ok []
  | .escaped, [] => .error .illegalArgument
  | .reference, [] => .error .illegalArgument
  | .escaped, c :: rest => (expandFrom group .plain rest).map (c :: ·)
  | .reference, c :: rest =>
      if c = 48 then
        (expandFrom group .zeros rest).map (group ++ ·)
      else if 48 ≤ c ∧ c ≤ 57 then
        .error .indexOutOfBounds
      else
        .error .illegalArgument
  | .zeros, c :: rest =>
      if c = 48 then
        expandFrom group .zeros rest
      else if c = backslash then
        expandFrom group .escaped rest
      else if c = dollar then
        expandFrom group .reference rest
      else
        (expandFrom group .plain rest).map (c :: ·)
  | .plain, c :: rest =>
      if c = backslash then
        expandFrom group .escaped rest
      else if c = dollar then
        expandFrom group .reference rest
      else
        (expandFrom group .plain rest).map (c :: ·)

/-- What is inserted for a replacement string. -/
def expandReplacement (group replacement : JString) : Except ReplacementFailure JString :=
  expandFrom group .plain replacement

/-- A text with neither backslashes nor dollar signs. -/
def Plain (text : JString) : Prop :=
  backslash ∉ text ∧ dollar ∉ text

instance (text : JString) : Decidable (Plain text) :=
  inferInstanceAs (Decidable (_ ∧ _))

theorem plain_cons {c : JChar} {text : JString} :
    Plain (c :: text) ↔ c ≠ backslash ∧ c ≠ dollar ∧ Plain text := by
  unfold Plain
  rw [List.mem_cons, List.mem_cons, not_or, not_or, eq_comm, @eq_comm _ dollar]
  constructor
  · intro h
    exact ⟨h.1.1, h.2.1, h.1.2, h.2.2⟩
  · intro h
    exact ⟨⟨h.1, h.2.2.1⟩, h.2.1, h.2.2.2⟩

/-- A plain text stands for itself. -/
theorem expandReplacement_of_plain (group : JString) {text : JString} (h : Plain text) :
    expandReplacement group text = .ok text := by
  unfold expandReplacement
  induction text with
  | nil => rfl
  | cons c text ih =>
      rcases plain_cons.mp h with ⟨hbackslash, hdollar, htext⟩
      rw [expandFrom, if_neg hbackslash, if_neg hdollar, ih htext]
      rfl

/-- Backslashes in front of a text. -/
def shifted (k : Nat) (text : JString) : JString :=
  List.replicate k backslash ++ text

@[simp]
theorem shifted_zero (text : JString) : shifted 0 text = text :=
  rfl

theorem shifted_succ (k : Nat) (text : JString) :
    shifted (k + 1) text = backslash :: shifted k text :=
  rfl

theorem shifted_cons_backslash (k : Nat) (text : JString) :
    shifted k (backslash :: text) = shifted (k + 1) text := by
  induction k with
  | zero => rfl
  | succ k ih =>
      rw [shifted_succ, ih]
      rfl

/-- A reference inserts a text that differs from the one it stands in. -/
theorem not_reference {group text inserted : JString}
    (hgroup : ∃ rest, group = dollar :: 123 :: rest)
    (h : expandFrom group .reference text = .ok inserted) {k : Nat} {s t : JString} :
    inserted ++ s ≠ shifted k (dollar :: text ++ t) := by
  intro heq
  cases text with
  | nil => cases h
  | cons d text =>
      rw [expandFrom] at h
      split at h
      · rename_i hd
        rcases Effects.map_eq_ok_iff.mp h with ⟨behind, -, rfl⟩
        rcases hgroup with ⟨rest, rfl⟩
        cases k with
        | zero =>
            rw [shifted_zero, List.cons_append, List.cons_append, List.cons_append,
              List.cons_append, List.cons_append, List.cons_append, List.cons.injEq,
              List.cons.injEq, hd] at heq
            exact absurd heq.2.1 (by decide)
        | succ k =>
            rw [shifted_succ, List.cons_append, List.cons_append, List.cons.injEq] at heq
            exact absurd heq.1 (by decide)
      · split at h
        · cases h
        · cases h

/-- Compare an expansion and what follows it with a shifted text and what follows that.  If
they agree, either nothing was shifted and the text is plain, or what follows the expansion
still is shifted; behind a backslash only the second is possible. -/
theorem expandFrom_compare {group : JString} (hgroup : ∃ rest, group = dollar :: 123 :: rest)
    (text : JString) :
    (∀ {k : Nat} {s t inserted : JString}, expandFrom group .plain text = .ok inserted →
      inserted ++ s = shifted k (text ++ t) →
        (k = 0 ∧ Plain text ∧ s = t) ∨ ∃ j, s = shifted (j + 1) t) ∧
      (∀ {k : Nat} {s t inserted : JString}, expandFrom group .escaped text = .ok inserted →
        inserted ++ s = shifted (k + 1) (text ++ t) → ∃ j, s = shifted (j + 1) t) := by
  induction text with
  | nil =>
      constructor
      · intro k s t inserted h heq
        cases h
        cases k with
        | zero => exact Or.inl ⟨rfl, by decide, heq⟩
        | succ k => exact Or.inr ⟨k, heq⟩
      · intro k s t inserted h
        cases h
  | cons c text ih =>
      rcases ih with ⟨hplain, hescaped⟩
      constructor
      · intro k s t inserted h heq
        rw [expandFrom] at h
        split at h
        · -- a backslash: the expansion falls behind by one unit
          rename_i hc
          rw [hc, List.cons_append, shifted_cons_backslash] at heq
          exact Or.inr (hescaped h heq)
        · split at h
          · rename_i hc
            rw [hc] at heq
            exact absurd heq (not_reference hgroup h)
          · -- every other unit is inserted as it is
            rename_i hbackslash hdollar
            rcases Effects.map_eq_ok_iff.mp h with ⟨inserted', hrest, rfl⟩
            cases k with
            | zero =>
                rw [shifted_zero, List.cons_append, List.cons_append, List.cons.injEq] at heq
                have hshift : inserted' ++ s = shifted 0 (text ++ t) := heq.2
                rcases hplain hrest hshift with htext | hbehind
                · exact Or.inl ⟨rfl, plain_cons.mpr ⟨hbackslash, hdollar, htext.2.1⟩, htext.2.2⟩
                · exact Or.inr hbehind
            | succ k =>
                rw [shifted_succ, List.cons_append, List.cons.injEq] at heq
                exact absurd heq.1 hbackslash
      · intro k s t inserted h heq
        rw [expandFrom] at h
        rcases Effects.map_eq_ok_iff.mp h with ⟨inserted', hrest, rfl⟩
        rw [shifted_succ, List.cons_append, List.cons_append, List.cons.injEq] at heq
        rw [heq.1, shifted_cons_backslash] at heq
        rcases hplain hrest heq.2 with htext | hbehind
        · exact absurd htext.1 (Nat.succ_ne_zero k)
        · exact hbehind

/-- An expansion can agree with its text only if the text is plain, or if what follows is
shifted. -/
theorem plain_or_shifted {group replacement inserted : JString}
    (hgroup : ∃ rest, group = dollar :: 123 :: rest)
    (h : expandReplacement group replacement = .ok inserted) {k : Nat} {s t : JString}
    (heq : inserted ++ s = shifted k (replacement ++ t)) :
    (k = 0 ∧ Plain replacement ∧ s = t) ∨ ∃ j, s = shifted (j + 1) t :=
  (expandFrom_compare hgroup replacement).1 h heq

end TestAio
