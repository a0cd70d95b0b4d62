import Mathlib.Data.List.Count
import TestAio.Library.Effects

/-!
# Rewriting a list with a threaded state

Every element of a list is replaced by some elements, and each replacement may fail and may
change a state that the next one starts from.  Two such rewritings are compared by the
elements they keep, which are marked in the result.

Main results:

- Theorem {lit}`countP_thread`: the marked elements of the result are as many as the kept ones.
- Theorem {lit}`thread_agree_iff`: a rewriting that keeps fewer elements than another one gives
  the same result exactly if it keeps the same elements.

Current gaps:

- None.
-/

namespace TestAio
namespace Library
namespace Threaded

variable {α β σ ε : Type}

/-- Replace every element of a list. -/
def thread (step : α → σ → Except ε (List β × σ)) : List α → σ → Except ε (List β × σ)
  | [], s => .ok ([], s)
  | x :: xs, s =>
      (step x s).bind fun first =>
        (thread step xs first.2).map fun rest => (first.1 ++ rest.1, rest.2)

/-- Replacements that agree on the elements of a list give the same result. -/
theorem thread_congr {step step' : α → σ → Except ε (List β × σ)} {xs : List α}
    (h : ∀ x ∈ xs, step x = step' x) (s : σ) : thread step xs s = thread step' xs s := by
  induction xs generalizing s with
  | nil => rfl
  | cons x xs ih =>
      rcases List.forall_mem_cons.mp h with ⟨hx, hxs⟩
      rw [thread, thread, hx]
      congr 1
      ext first
      rw [ih hxs]

/-- The replacements of an element are marked once if it is kept, and not at all otherwise. -/
def Marks (marked : β → Bool) (keep : α → Bool) (step : α → σ → Except ε (List β × σ)) : Prop :=
  ∀ x s result, step x s = .ok result → result.1.countP marked = if keep x then 1 else 0

variable {marked : β → Bool} {keep keep' : α → Bool} {step step' : α → σ → Except ε (List β × σ)}

/-- The marked elements of the result are as many as the kept ones. -/
theorem countP_thread (hmarks : Marks marked keep step) {xs : List α} {s : σ}
    {result : List β × σ} (h : thread step xs s = .ok result) :
    result.1.countP marked = xs.countP keep := by
  induction xs generalizing s result with
  | nil =>
      cases h
      rfl
  | cons x xs ih =>
      rw [thread] at h
      rcases Effects.bind_eq_ok_iff.mp h with ⟨first, hfirst, h⟩
      rcases Effects.map_eq_ok_iff.mp h with ⟨rest, hrest, rfl⟩
      rw [List.countP_append, hmarks x s first hfirst, ih hrest, List.countP_cons]
      omega

/-- Fewer elements satisfy a stronger condition, and as many only if no other satisfies the
weaker one. -/
theorem countP_eq_iff {xs : List α} (hkeep : ∀ x ∈ xs, keep x = true → keep' x = true) :
    xs.countP keep = xs.countP keep' ↔ ∀ x ∈ xs, keep' x = true → keep x = true := by
  constructor
  · intro hcount x hx hx'
    by_contra hnot
    have hle : xs.countP keep + (xs.countP fun x => keep' x && !keep x) = xs.countP keep' := by
      clear hcount hx hx' hnot
      induction xs with
      | nil => rfl
      | cons y ys ih =>
          rcases List.forall_mem_cons.mp hkeep with ⟨hy, hys⟩
          have hrest := ih hys
          rw [List.countP_cons, List.countP_cons, List.countP_cons]
          cases hk : keep y with
          | true =>
              rw [hy hk]
              simp only [if_true, Bool.not_true, Bool.and_false, Bool.false_eq_true, if_false]
              omega
          | false =>
              cases keep' y with
              | true =>
                  simp only [if_true, Bool.not_false, Bool.and_true, Bool.false_eq_true, if_false]
                  omega
              | false =>
                  simp only [Bool.not_false, Bool.and_true, Bool.false_eq_true, if_false]
                  omega
    have hzero : (xs.countP fun x => keep' x && !keep x) = 0 := by omega
    have hnone := List.countP_eq_zero.mp hzero x hx
    rw [hx', Bool.not_eq_true] at *
    rw [hnot] at hnone
    cases hnone
  · intro hall
    apply List.countP_congr
    intro x hx
    exact ⟨hkeep x hx, hall x hx⟩

/-- A rewriting that keeps fewer elements than another one, and else agrees with it, gives the
same result, or just the same list, exactly if it keeps the same elements. -/
theorem thread_agree_iff (hmarks : Marks marked keep step) (hmarks' : Marks marked keep' step')
    {xs : List α} (hkeep : ∀ x ∈ xs, keep x = true → keep' x = true)
    (hagree : ∀ x ∈ xs, keep x = keep' x → step x = step' x) {s : σ} {result : List β × σ}
    (h : thread step' xs s = .ok result) :
    (thread step xs s = .ok result ↔ ∀ x ∈ xs, keep' x = true → keep x = true) ∧
      ((∃ t, thread step xs s = .ok (result.1, t)) ↔
        ∀ x ∈ xs, keep' x = true → keep x = true) := by
  have hall : ∀ t, thread step xs s = .ok (result.1, t) →
      ∀ x ∈ xs, keep' x = true → keep x = true := by
    intro t hstep
    have hcount := countP_thread hmarks hstep
    rw [← countP_eq_iff hkeep, ← hcount, countP_thread hmarks' h]
  have hthread : (∀ x ∈ xs, keep' x = true → keep x = true) → thread step xs s = .ok result := by
    intro hkeeps
    have hsame : ∀ x ∈ xs, step x = step' x := by
      intro x hx
      apply hagree x hx
      rw [Bool.eq_iff_iff]
      exact ⟨hkeep x hx, hkeeps x hx⟩
    rw [thread_congr hsame]
    exact h
  exact ⟨⟨hall result.2, hthread⟩, fun ⟨t, ht⟩ => hall t ht, fun hkeeps => ⟨_, hthread hkeeps⟩⟩

end Threaded
end Library
end TestAio
