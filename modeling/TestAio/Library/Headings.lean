import Mathlib.Data.List.Basic

/-!
# Lists under headings

Some elements of a list have a label, and a label counts for all elements up to
the next one.  The elements under a label are those whose latest label it is.

Main results:

- Theorem {lit}`under_eq_under`: two labellings with the same headings that agree on a label
  put the same elements under it.
- Theorem {lit}`under_eq_under_iff`: and only then.
- Theorem {lit}`flatMap_concat_inj`: pieces without the end mark can be read back from their
  joined text.

Current gaps:

- None.
-/

namespace TestAio
namespace Library
namespace Headings

variable {α σ τ : Type} [DecidableEq σ] [DecidableEq τ]

/-- The elements whose latest label is {lit}`target`, when {lit}`now` is the label in front of
them. -/
def under (label : α → Option τ) (target : τ) (now : Option τ) : List α → List α
  | [] => []
  | x :: xs =>
      (if (label x).or now = some target then [x] else []) ++
        under label target ((label x).or now) xs

theorem mem_of_mem_under {label : α → Option τ} {target : τ} {now : Option τ} {xs : List α} {x : α}
    (h : x ∈ under label target now xs) : x ∈ xs := by
  induction xs generalizing now with
  | nil => contradiction
  | cons y ys ih =>
      rcases List.mem_append.mp h with hy | hys
      · split at hy
        · rw [List.mem_singleton.mp hy]
          exact List.mem_cons_self
        · contradiction
      · exact List.mem_cons_of_mem _ (ih hys)

/-- A heading is under its own label. -/
theorem label_of_mem_under {label : α → Option τ} {target t : τ} {now : Option τ} {xs : List α}
    {x : α} (h : x ∈ under label target now xs) (hx : label x = some t) : t = target := by
  induction xs generalizing now with
  | nil => contradiction
  | cons y ys ih =>
      rcases List.mem_append.mp h with hy | hys
      · split at hy
        · rename_i hlabel
          rw [List.mem_singleton.mp hy] at hx
          simpa [hx] using hlabel
        · contradiction
      · exact ih hys

theorem mem_under_of_label {label : α → Option τ} {target : τ} {xs : List α} {x : α}
    (hx : x ∈ xs) (hlabel : label x = some target) (now : Option τ) :
    x ∈ under label target now xs := by
  induction xs generalizing now with
  | nil => contradiction
  | cons y ys ih =>
      rcases List.mem_cons.mp hx with rfl | hys
      · simp [under, hlabel]
      · exact List.mem_append_right _ (ih hys _)

/-- Labellings with the same headings that agree on a label put the same elements under
it. -/
theorem under_eq_under {label : α → Option σ} {label' : α → Option τ} {target : σ} {target' : τ}
    {now : Option σ} {now' : Option τ} {xs : List α}
    (hsame : ∀ x ∈ xs, (label x).isSome = (label' x).isSome)
    (hagree : ∀ x ∈ xs, (label x = some target ↔ label' x = some target'))
    (hnow : now = some target ↔ now' = some target') :
    under label target now xs = under label' target' now' xs := by
  induction xs generalizing now now' with
  | nil => rfl
  | cons x xs ih =>
      have hnext : (label x).or now = some target ↔ (label' x).or now' = some target' := by
        have hx := hsame x List.mem_cons_self
        have hlabel := hagree x List.mem_cons_self
        cases h : label x <;> cases h' : label' x <;> simp_all
      have hrest := ih (fun y hy => hsame y (List.mem_cons_of_mem _ hy))
        (fun y hy => hagree y (List.mem_cons_of_mem _ hy)) hnext
      simp only [under, hrest, hnext]

/-- When no label stands in front, labellings with the same headings put the same elements
under a label only if they agree on it. -/
theorem under_eq_under_iff {label : α → Option σ} {label' : α → Option τ} {target : σ}
    {target' : τ} {now : Option σ} {xs : List α} (hnow : now ≠ some target)
    (hsame : ∀ x ∈ xs, (label x).isSome = (label' x).isSome) :
    under label target now xs = under label' target' none xs ↔
      ∀ x ∈ xs, (label x = some target ↔ label' x = some target') := by
  constructor
  · intro h x hx
    constructor
    · intro hlabel
      have hmem := mem_under_of_label hx hlabel now
      rw [h] at hmem
      have hsome := hsame x hx
      rw [hlabel, Option.isSome_some] at hsome
      rcases Option.isSome_iff_exists.mp hsome.symm with ⟨t, ht⟩
      rw [ht, label_of_mem_under hmem ht]
    · intro hlabel
      have hmem := mem_under_of_label hx hlabel none
      rw [← h] at hmem
      have hsome := hsame x hx
      rw [hlabel, Option.isSome_some] at hsome
      rcases Option.isSome_iff_exists.mp hsome with ⟨t, ht⟩
      rw [ht, label_of_mem_under hmem ht]
  · intro hagree
    exact under_eq_under hsame hagree (iff_of_false hnow (by simp))

/-! ## Joined pieces -/

/-- The pieces of a cut text are free of the mark it is cut at. -/
theorem not_mem_of_mem_splitOn {c : σ} {text piece : List σ} (h : piece ∈ text.splitOn c) :
    c ∉ piece := by
  induction text generalizing piece with
  | nil =>
      rw [List.splitOn_nil, List.mem_singleton] at h
      rw [h]
      exact List.not_mem_nil
  | cons x text ih =>
      rw [List.splitOn_cons_eq_if_modifyHead] at h
      split at h
      · rcases List.mem_cons.mp h with rfl | h
        · exact List.not_mem_nil
        · exact ih h
      · rename_i hx
        cases hpieces : text.splitOn c with
        | nil => simp [hpieces] at h
        | cons first rest =>
            rw [hpieces, List.modifyHead_cons] at h
            rw [hpieces] at ih
            rcases List.mem_cons.mp h with rfl | h
            · intro hc
              rcases List.mem_cons.mp hc with rfl | hc
              · simp at hx
              · exact ih List.mem_cons_self hc
            · exact ih (List.mem_cons_of_mem _ h)

/-- Cutting a text of pieces with end marks gives the pieces. -/
theorem splitOn_flatMap_concat {c : σ} {pieces : List (List σ)} (h : ∀ piece ∈ pieces, c ∉ piece) :
    (pieces.flatMap fun piece => piece ++ [c]).splitOn c = pieces ++ [[]] := by
  induction pieces with
  | nil => rfl
  | cons piece pieces ih =>
      rw [List.flatMap_cons, List.append_assoc, List.singleton_append,
        List.splitOn_append_cons_self_of_not_mem (h piece List.mem_cons_self),
        ih fun other hother => h other (List.mem_cons_of_mem _ hother)]
      rfl

/-- Pieces without the end mark can be read back from their joined text. -/
theorem flatMap_concat_inj {c : σ} {xs ys : List (List σ)} (hxs : ∀ x ∈ xs, c ∉ x)
    (hys : ∀ y ∈ ys, c ∉ y)
    (h : (xs.flatMap fun x => x ++ [c]) = ys.flatMap fun y => y ++ [c]) : xs = ys := by
  have hpieces := congrArg (List.splitOn c) h
  rw [splitOn_flatMap_concat hxs, splitOn_flatMap_concat hys] at hpieces
  exact List.append_cancel_right hpieces

end Headings
end Library
end TestAio
