import Mathlib.Data.List.Basic

/-!
# Sections between two kinds of lines

Some elements of a list open a section, and others close the one that is open.  A section starts
with the element that opens it and ends in front of the one that closes it; what opens inside an
open section belongs to it, and what closes outside is skipped.

Main results:

- Theorem {lit}`closedFrom_blocks`: the closed sections of a list that is made of sections with
  gaps between them are these sections.

Current gaps:

- None.
-/

namespace TestAio
namespace Library
namespace Delimited

variable {α : Type} (starts ends : α → Bool)

/-- The section that is open behind an element. -/
def enter : Option (List α) → α → Option (List α)
  | none, x => if starts x then some [x] else none
  | some body, x => if ends x then none else some (body ++ [x])

/-- The section that an element closes. -/
def leave : Option (List α) → α → List (List α)
  | none, _ => []
  | some body, x => if ends x then [body] else []

/-- The sections that are closed in a list. -/
def closedFrom : Option (List α) → List α → List (List α)
  | _, [] => []
  | opened, x :: xs => leave ends opened x ++ closedFrom (enter starts ends opened x) xs

/-- The elements that lie in a section, closed or not. -/
def inside : Option (List α) → List α → List α
  | _, [] => []
  | opened, x :: xs =>
      (if (enter starts ends opened x).isSome then [x] else []) ++
        inside (enter starts ends opened x) xs

variable {starts ends}

/-- What opens nothing is skipped. -/
theorem closedFrom_skip {front : List α} (h : ∀ x ∈ front, starts x = false) (xs : List α) :
    closedFrom starts ends none (front ++ xs) = closedFrom starts ends none xs := by
  induction front with
  | nil => rfl
  | cons x front ih =>
      rw [List.forall_mem_cons] at h
      have hrest := ih h.2
      simp [closedFrom, leave, enter, h.1, hrest]

/-- An open section goes on to the next element that closes it. -/
theorem closedFrom_some {body : List α} (h : ∀ x ∈ body, ends x = false) {last : α}
    (hlast : ends last = true) (opened xs : List α) :
    closedFrom starts ends (some opened) (body ++ last :: xs) =
      (opened ++ body) :: closedFrom starts ends none xs := by
  induction body generalizing opened with
  | nil => simp [closedFrom, leave, enter, hlast]
  | cons x body ih =>
      rw [List.forall_mem_cons] at h
      have hgo := ih h.2 (opened ++ [x])
      rw [List.append_assoc, List.singleton_append] at hgo
      simp [closedFrom, leave, enter, h.1, hgo]

/-- The first closed section, and the ones behind it. -/
theorem closedFrom_section {first last : α} {body : List α} (hfirst : starts first = true)
    (h : ∀ x ∈ body, ends x = false) (hlast : ends last = true) (xs : List α) :
    closedFrom starts ends none (first :: (body ++ last :: xs)) =
      (first :: body) :: closedFrom starts ends none xs := by
  have hgo : closedFrom starts ends (some [first]) (body ++ last :: xs) = _ :=
    closedFrom_some h hlast [first] xs
  simp [closedFrom, leave, enter, hfirst, hgo]

/-- A closed section with what is skipped in front of it and what closes it. -/
structure Block (starts ends : α → Bool) where
  gap : List α
  first : α
  body : List α
  last : α
  gap_starts : ∀ x ∈ gap, starts x = false
  first_starts : starts first = true
  body_ends : ∀ x ∈ body, ends x = false
  last_ends : ends last = true

/-- The elements of the section. -/
def Block.content (block : Block starts ends) : List α :=
  block.first :: block.body

/-- All elements of a block. -/
def Block.elements (block : Block starts ends) : List α :=
  block.gap ++ block.first :: (block.body ++ [block.last])

/-- The closed sections of a list of blocks are those of the blocks. -/
theorem closedFrom_blocks (blocks : List (Block starts ends)) (rest : List α) :
    closedFrom starts ends none (blocks.flatMap Block.elements ++ rest) =
      blocks.map Block.content ++ closedFrom starts ends none rest := by
  induction blocks with
  | nil => rfl
  | cons block blocks ih =>
      have hlist : (block :: blocks).flatMap Block.elements ++ rest =
          block.gap ++ block.first :: (block.body ++
            block.last :: (blocks.flatMap Block.elements ++ rest)) := by
        simp [Block.elements]
      rw [hlist, closedFrom_skip block.gap_starts,
        closedFrom_section block.first_starts block.body_ends block.last_ends, ih]
      rfl

end Delimited
end Library
end TestAio
