import Mathlib.Data.List.Basic

/-!
# A loop over a list that grows

A loop goes over the positions that a list has at the start.  At each of them it replaces
the element by the first of its pieces and appends the others to the end of the list, where
the loop does not come any more.

Main results:

- Theorem {lit}`expand_eq`: the list after the loop.
- Theorem {lit}`expand_perm`: it consists of the pieces of all elements.

Current gaps:

- None.
-/

namespace TestAio
namespace Library
namespace Growing

variable {α : Type}

/-- One turn of the loop. -/
def expandAt (first : α → α) (more : α → List α) (xs : List α) (i : Nat) : List α :=
  match xs[i]? with
  | some x => xs.set i (first x) ++ more x
  | none => xs

/-- The loop over the positions of the list. -/
def expand (first : α → α) (more : α → List α) (xs : List α) : List α :=
  (List.range xs.length).foldl (expandAt first more) xs

variable (first : α → α) (more : α → List α)

/-- The turn at the position behind {lit}`done`. -/
theorem expandAt_length (done : List α) (x : α) (rest added : List α) :
    expandAt first more (done ++ x :: rest ++ added) done.length =
      done ++ [first x] ++ rest ++ (added ++ more x) := by
  have hget : (done ++ x :: rest ++ added)[done.length]? = some x := by
    simp
  have hset : (done ++ x :: rest ++ added).set done.length (first x) =
      done ++ first x :: rest ++ added := by
    simp
  rw [expandAt, hget]
  dsimp only
  rw [hset]
  simp

/-- The turns at the positions of {lit}`rest`. -/
theorem foldl_expandAt (done rest added : List α) :
    (List.range' done.length rest.length).foldl (expandAt first more) (done ++ rest ++ added) =
      done ++ rest.map first ++ (added ++ rest.flatMap more) := by
  induction rest generalizing done added with
  | nil => simp
  | cons x rest ih =>
      have hrest := ih (done ++ [first x]) (added ++ more x)
      rw [List.length_append, List.length_singleton] at hrest
      rw [List.length_cons, List.range'_succ, List.foldl_cons, expandAt_length, hrest]
      simp

/-- The list after the loop. -/
theorem expand_eq (xs : List α) : expand first more xs = xs.map first ++ xs.flatMap more := by
  have h := foldl_expandAt first more [] xs []
  rw [List.length_nil, ← List.range_eq_range'] at h
  simpa [expand] using h

/-- The list after the loop consists of the pieces of all elements. -/
theorem expand_perm (xs : List α) :
    (expand first more xs).Perm (xs.flatMap fun x => first x :: more x) := by
  rw [expand_eq]
  induction xs with
  | nil => exact List.Perm.refl []
  | cons x xs ih =>
      rw [List.map_cons, List.flatMap_cons, List.flatMap_cons, List.cons_append, List.cons_append]
      apply List.Perm.cons
      have hswap : (xs.map first ++ (more x ++ xs.flatMap more)).Perm
          (more x ++ (xs.map first ++ xs.flatMap more)) :=
        List.perm_append_comm_assoc _ _ _
      exact hswap.trans (ih.append_left (more x))

end Growing
end Library
end TestAio
