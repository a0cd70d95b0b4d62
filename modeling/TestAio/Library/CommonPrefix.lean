import Mathlib.Data.List.Forall2

/-!
# How far two lists agree

Two lists agree up to the first position where their elements are not related, or where
one of them ends.

Main results:

- Theorem {lit}`le_agreeing_iff`: the lists agree on the first {lit}`n` positions.
- Theorem {lit}`agreeing_append`: related beginnings are agreed on.
- Theorem {lit}`exists_parting`: every two lists part somewhere.
- Theorem {lit}`Parting.forall₂_iff`: they are related throughout exactly when nothing is
  left where they part.

Current gaps:

- None.
-/

namespace TestAio
namespace Library
namespace CommonPrefix

variable {α β : Type}

/-- How many positions two lists agree on from the start. -/
def agreeing (r : α → β → Prop) [∀ x y, Decidable (r x y)] : List α → List β → Nat
  | x :: xs, y :: ys => if r x y then agreeing r xs ys + 1 else 0
  | _, _ => 0

section Agreeing

variable {r : α → β → Prop} [∀ x y, Decidable (r x y)]

@[simp]
theorem agreeing_nil_left (ys : List β) : agreeing r [] ys = 0 := by
  cases ys <;> rfl

@[simp]
theorem agreeing_nil_right (xs : List α) : agreeing r xs [] = 0 := by
  cases xs <;> rfl

theorem agreeing_cons_cons (x : α) (y : β) (xs : List α) (ys : List β) :
    agreeing r (x :: xs) (y :: ys) = if r x y then agreeing r xs ys + 1 else 0 :=
  rfl

/-- Related beginnings are agreed on. -/
theorem agreeing_append {us : List α} {vs : List β} (h : List.Forall₂ r us vs) (xs : List α)
    (ys : List β) : agreeing r (us ++ xs) (vs ++ ys) = us.length + agreeing r xs ys := by
  induction h with
  | nil => simp
  | cons hr _ ih =>
      rw [List.cons_append, List.cons_append, agreeing_cons_cons, if_pos hr, ih,
        List.length_cons]
      omega

/-- The lists agree on the first positions. -/
theorem le_agreeing_iff {n : Nat} {xs : List α} {ys : List β} :
    n ≤ agreeing r xs ys ↔
      ∀ i < n, ∃ x y, xs[i]? = some x ∧ ys[i]? = some y ∧ r x y := by
  induction n generalizing xs ys with
  | zero => simp
  | succ n ih =>
      constructor
      · intro h i hi
        cases xs with
        | nil => simp at h
        | cons x xs =>
            cases ys with
            | nil => simp at h
            | cons y ys =>
                rw [agreeing_cons_cons] at h
                split_ifs at h with hr
                · cases i with
                  | zero => exact ⟨x, y, rfl, rfl, hr⟩
                  | succ i => exact ih.mp (Nat.le_of_succ_le_succ h) i (by omega)
                · omega
      · intro h
        rcases h 0 (by omega) with ⟨x, y, hx, hy, hr⟩
        cases xs with
        | nil => simp at hx
        | cons x' xs =>
            cases ys with
            | nil => simp at hy
            | cons y' ys =>
                rw [List.getElem?_cons_zero] at hx hy
                rw [agreeing_cons_cons, Option.some.inj hx, Option.some.inj hy, if_pos hr]
                refine Nat.succ_le_succ (ih.mpr fun i hi => ?_)
                exact h (i + 1) (by omega)

end Agreeing

/-! ## Where two lists part -/

/-- Both lists go on, with related elements. -/
def GoesOn (r : α → β → Prop) : List α → List β → Prop
  | x :: _, y :: _ => r x y
  | _, _ => False

/-- The lists are related up to a place and part there: the next elements are not related,
or a list ends. -/
structure Parting (r : α → β → Prop) (xs : List α) (ys : List β) (us ss : List α)
    (vs ts : List β) : Prop where
  left : xs = us ++ ss
  right : ys = vs ++ ts
  common : List.Forall₂ r us vs
  parts : ¬ GoesOn r ss ts

theorem exists_parting (r : α → β → Prop) (xs : List α) (ys : List β) :
    ∃ us ss vs ts, Parting r xs ys us ss vs ts := by
  induction xs generalizing ys with
  | nil => exact ⟨[], [], [], ys, rfl, rfl, .nil, id⟩
  | cons x xs ih =>
      cases ys with
      | nil => exact ⟨[], x :: xs, [], [], rfl, rfl, .nil, id⟩
      | cons y ys =>
          by_cases hr : r x y
          · rcases ih ys with ⟨us, ss, vs, ts, h⟩
            exact ⟨x :: us, ss, y :: vs, ts, congrArg (x :: ·) h.left,
              congrArg (y :: ·) h.right, .cons hr h.common, h.parts⟩
          · exact ⟨[], x :: xs, [], y :: ys, rfl, rfl, .nil, hr⟩

/-- The lists are related throughout exactly when nothing is left where they part. -/
theorem Parting.forall₂_iff {r : α → β → Prop} {xs us ss : List α} {ys vs ts : List β}
    (h : Parting r xs ys us ss vs ts) : List.Forall₂ r xs ys ↔ ss = [] ∧ ts = [] := by
  rw [h.left, h.right]
  constructor
  · intro hall
    have hrest := List.forall₂_drop us.length hall
    rw [List.drop_left, h.common.length_eq, List.drop_left] at hrest
    cases hrest with
    | nil => exact ⟨rfl, rfl⟩
    | cons hr _ => exact absurd hr h.parts
  · rintro ⟨rfl, rfl⟩
    rw [List.append_nil, List.append_nil]
    exact h.common

end CommonPrefix
end Library
end TestAio
