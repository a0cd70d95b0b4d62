import Mathlib.Data.List.Forall2

/-!
# Triggers in a sequence

A machine that waits for one kind of line after another gets to its end exactly
when the lines it waits for occur in this order, with anything in between.
This module states the right-hand side once, with the one rule by which such a
machine consumes its lines.

Main results:

- Theorem {lit}`occur_cons_iff`: the first element either serves the first trigger or
  serves nothing.
- Theorem {lit}`Occur.weaken`: a shorter sequence of triggers needs less.

Current gaps:

- None.
-/

namespace TestAio
namespace Library
namespace Triggers

variable {α : Type}

/-- The triggers fire in order on elements of {lit}`xs`, with anything in between. -/
def Occur (triggers : List (α → Bool)) (xs : List α) : Prop :=
  ∃ ys, List.Forall₂ (fun t x => t x = true) triggers ys ∧ ys.Sublist xs

@[simp]
theorem occur_nil (xs : List α) : Occur [] xs :=
  ⟨[], List.Forall₂.nil, List.nil_sublist xs⟩

@[simp]
theorem not_occur_nil (t : α → Bool) (ts : List (α → Bool)) : ¬ Occur (t :: ts) [] := by
  rintro ⟨ys, hys, hsub⟩
  rw [List.sublist_nil.mp hsub] at hys
  cases hys

/-- More elements serve at least as many triggers. -/
theorem Occur.mono {ts : List (α → Bool)} {xs ys : List α} (h : Occur ts xs)
    (hsub : xs.Sublist ys) : Occur ts ys := by
  rcases h with ⟨zs, hzs, hzx⟩
  exact ⟨zs, hzs, hzx.trans hsub⟩

/-- An element that serves a trigger serves every wider one. -/
theorem Occur.imp_head {t t' : α → Bool} {ts : List (α → Bool)} {xs : List α}
    (h : Occur (t :: ts) xs) (himp : ∀ x, t x = true → t' x = true) : Occur (t' :: ts) xs := by
  rcases h with ⟨ys, hys, hsub⟩
  cases hys with
  | cons hy hrest => exact ⟨_, List.Forall₂.cons (himp _ hy) hrest, hsub⟩

/-- Without the first trigger the others still occur. -/
theorem Occur.weaken {t : α → Bool} {ts : List (α → Bool)} {xs : List α}
    (h : Occur (t :: ts) xs) : Occur ts xs := by
  rcases h with ⟨ys, hys, hsub⟩
  cases hys with
  | cons _ hrest => exact ⟨_, hrest, (List.sublist_cons_self _ _).trans hsub⟩

/-- The first element serves the first trigger whenever it can. -/
theorem occur_cons_iff {t : α → Bool} {ts : List (α → Bool)} {x : α} {xs : List α} :
    Occur (t :: ts) (x :: xs) ↔ if t x then Occur ts xs else Occur (t :: ts) xs := by
  constructor
  · rintro ⟨ys, hys, hsub⟩
    cases hys with
    | @cons _ y _ ys hy hrest =>
        cases hsub with
        | cons _ hsub =>
            have hlater : Occur (t :: ts) xs := ⟨_, List.Forall₂.cons hy hrest, hsub⟩
            split
            · exact hlater.weaken
            · exact hlater
        | cons_cons _ hsub =>
            rw [if_pos hy]
            exact ⟨_, hrest, hsub⟩
  · intro h
    split at h
    · rename_i hx
      rcases h with ⟨ys, hys, hsub⟩
      exact ⟨x :: ys, List.Forall₂.cons hx hys, hsub.cons_cons x⟩
    · exact h.mono (List.sublist_cons_self _ _)

/-- Whether the triggers occur can be read off the elements one by one. -/
instance decidableOccur : (ts : List (α → Bool)) → (xs : List α) → Decidable (Occur ts xs)
  | [], xs => isTrue (occur_nil xs)
  | t :: ts, [] => isFalse (not_occur_nil t ts)
  | t :: ts, _ :: xs =>
      have := decidableOccur ts xs
      have := decidableOccur (t :: ts) xs
      decidable_of_iff _ occur_cons_iff.symm

end Triggers
end Library
end TestAio
