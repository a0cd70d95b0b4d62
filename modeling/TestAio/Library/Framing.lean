import Mathlib.Data.List.Basic

/-!
# Frames in a stream

A frame starts at an opening mark and ends at the next closing one.  An opening mark inside
a frame starts it again, and what stands outside all frames is noise.  The contents of the
frames are read off the pieces between the closing marks, or by a receiver that goes over
the stream once.

Main results:

- Theorem {lit}`framesFrom_none`: both readings agree.
- Theorem {lit}`length_framesFrom_le`: there are no more frames than closing marks.

Current gaps:

- None.
-/

namespace TestAio
namespace Library
namespace Framing

variable {α : Type} [DecidableEq α]

/-- What stands behind the last opening mark of a piece. -/
def content (opening : α) (piece : List α) : Option (List α) :=
  if opening ∈ piece then
    some (piece.reverse.takeWhile (· ≠ opening)).reverse
  else
    none

/-- The contents of the frames of a stream: the pieces behind which a closing mark stands,
each from its last opening mark on. -/
def frames (opening closing : α) (stream : List α) : List (List α) :=
  (stream.splitOn closing).dropLast.filterMap (content opening)

/-- The contents of the frames that a receiver completes which has read the given part of a
frame. -/
def framesFrom (opening closing : α) : Option (List α) → List α → List (List α)
  | _, [] => []
  | part, x :: stream =>
      if x = opening then
        framesFrom opening closing (some []) stream
      else if x = closing then
        part.toList ++ framesFrom opening closing none stream
      else
        framesFrom opening closing (part.map (· ++ [x])) stream

theorem content_nil (opening : α) : content opening [] = none := by
  rw [content, if_neg List.not_mem_nil]

theorem content_append_opening (opening : α) (piece : List α) :
    content opening (piece ++ [opening]) = some [] := by
  rw [content, if_pos (List.mem_append_right _ (List.mem_singleton_self _)),
    List.reverse_append, List.reverse_singleton, List.singleton_append, List.takeWhile_cons]
  simp

theorem content_append {opening x : α} (hx : x ≠ opening) (piece : List α) :
    content opening (piece ++ [x]) = (content opening piece).map (· ++ [x]) := by
  have hmem : opening ∈ piece ++ [x] ↔ opening ∈ piece := by
    simp [Ne.symm hx]
  unfold content
  by_cases h : opening ∈ piece
  · rw [if_pos h, if_pos (hmem.mpr h), Option.map_some, List.reverse_append,
      List.reverse_singleton, List.singleton_append,
      List.takeWhile_cons_of_pos (by simpa using hx), List.reverse_cons]
  · rw [if_neg h, if_neg (fun hin => h (hmem.mp hin)), Option.map_none]

/-- A receiver that has read a piece without a closing mark goes on with its content. -/
theorem framesFrom_content {opening closing : α} (hmarks : opening ≠ closing)
    {piece : List α} (hpiece : closing ∉ piece) (stream : List α) :
    framesFrom opening closing (content opening piece) stream =
      frames opening closing (piece ++ stream) := by
  induction stream generalizing piece with
  | nil =>
      rw [List.append_nil, frames, List.splitOn_eq_singleton hpiece]
      rfl
  | cons x stream ih =>
      rw [framesFrom]
      split
      · rename_i hx
        subst hx
        rw [List.append_cons, ← ih, content_append_opening]
        simpa using ⟨hpiece, hmarks.symm⟩
      · rename_i hopening
        split
        · rename_i hx
          subst hx
          have hrest : framesFrom opening x none stream = frames opening x stream := by
            rw [← content_nil opening, ih List.not_mem_nil, List.nil_append]
          rw [hrest, frames, frames, List.splitOn_append_cons_self_of_not_mem hpiece,
            List.dropLast_cons_of_ne_nil (List.splitOn_ne_nil _ _), List.filterMap_cons]
          cases content opening piece with
          | none => rfl
          | some part => rfl
        · rename_i hclosing
          rw [List.append_cons, ← ih, content_append hopening]
          simpa using ⟨hpiece, Ne.symm hclosing⟩

/-- The receiver that has read nothing reads the frames of the stream. -/
theorem framesFrom_none {opening closing : α} (hmarks : opening ≠ closing)
    (stream : List α) :
    framesFrom opening closing none stream = frames opening closing stream := by
  have h := framesFrom_content hmarks (List.not_mem_nil (a := closing)) stream
  rwa [content_nil, List.nil_append] at h

/-- There are no more frames than closing marks. -/
theorem length_framesFrom_le {opening closing : α} (hmarks : opening ≠ closing)
    (part : Option (List α)) (stream : List α) :
    (framesFrom opening closing part stream).length ≤ stream.count closing := by
  induction stream generalizing part with
  | nil => exact Nat.le_refl 0
  | cons x stream ih =>
      rw [framesFrom]
      split
      · rename_i hx
        subst hx
        rw [List.count_cons_of_ne hmarks]
        exact ih _
      · split
        · rename_i hx
          subst hx
          have hpart : part.toList.length ≤ 1 := by
            cases part with
            | none => exact Nat.zero_le 1
            | some part => exact Nat.le_refl 1
          have hrest := ih none
          rw [List.length_append, List.count_cons_self]
          omega
        · rename_i hx
          rw [List.count_cons_of_ne hx]
          exact ih _

end Framing
end Library
end TestAio
