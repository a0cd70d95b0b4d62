import TestAio.Library.Intervals

/-!
# Ranges of question ids

The script {lit}`test.py` writes the ids of the questions as ranges.  It starts with the
range from 0 to 0, which no id stands behind, and writes that range like any other.

Main results:

- Theorem {lit}`compresses_ranges`: the ranges compress the ids together with 0.
- Theorem {lit}`ranges_not_lossless`: so they never cover exactly the ids.

Current gaps:

- The ids are given; reading them from the JSON file is not modelled.
-/

namespace TestAio
namespace Ranges

open Library.Intervals

/-! ## The script -/

/-- The variables {lit}`start` and {lit}`end`, and what {lit}`lines` says. -/
structure State where
  current : Interval
  lines : List Interval

/-- The state before the loop. -/
def initial : State where
  current := Interval.single 0
  lines := []

/-- One turn of the loop. -/
def step (s : State) (qid : Int) : State :=
  if qid = s.current.finish + 1 then
    { s with current := s.current.extend }
  else
    { current := Interval.single qid, lines := s.lines ++ [s.current] }

/-- The ranges the script writes for the ids. -/
def ranges (ids : List Int) : List Interval :=
  let s := ids.foldl step initial
  s.lines ++ [s.current]

/-- The line of a range. -/
def line (range : Interval) : List Char :=
  (toString range.start).toList ++ ['-'] ++ (toString range.finish).toList ++ "->".toList ++
    (if range.start = range.finish then "True" else "False").toList ++ ['\n']

/-- The file {lit}`result.txt`. -/
def result (ids : List Int) : List Char :=
  (ranges ids).flatMap line

/-! ## What the ranges cover -/

/-- What the state says about the ids read so far. -/
def State.Holds (s : State) (numbers : List Int) : Prop :=
  Compresses (s.lines ++ [s.current]) numbers

/-- A larger number goes on with the ranges. -/
theorem step_holds {s : State} {numbers : List Int} {qid : Int} (h : s.Holds numbers)
    (hqid : ∀ n ∈ numbers, n < qid) : (step s qid).Holds (numbers ++ [qid]) := by
  unfold step
  split
  · rename_i hnext
    rw [hnext]
    exact Compresses.extend h
  · rename_i hnext
    have hlast := hqid _ (Compresses.finish_mem h)
    apply Compresses.append_single h
    omega

/-- Increasing numbers go on with the ranges. -/
theorem foldl_step_holds {s : State} {numbers ids : List Int} (h : s.Holds numbers)
    (hids : (numbers ++ ids).Pairwise (· < ·)) :
    (ids.foldl step s).Holds (numbers ++ ids) := by
  induction ids generalizing s numbers with
  | nil =>
      rw [List.append_nil]
      exact h
  | cons qid ids ih =>
      have hqid : ∀ n ∈ numbers, n < qid := by
        intro n hn
        exact (List.pairwise_append.mp hids).2.2 n hn qid List.mem_cons_self
      rw [List.append_cons] at hids ⊢
      exact ih (step_holds h hqid) hids

/-- The ranges compress the ids together with the 0 they start with. -/
theorem compresses_ranges {ids : List Int} (hids : ids.Pairwise (· < ·))
    (hpos : ∀ id ∈ ids, 0 < id) : Compresses (ranges ids) (0 :: ids) := by
  have hinitial : initial.Holds [0] := compresses_single 0
  exact foldl_step_holds hinitial (List.pairwise_cons.mpr ⟨hpos, hids⟩)

/-- Expanding the ranges gives the ids with a 0 in front. -/
theorem expand_ranges {ids : List Int} (hids : ids.Pairwise (· < ·))
    (hpos : ∀ id ∈ ids, 0 < id) : expand (ranges ids) = 0 :: ids :=
  (compresses_ranges hids hpos).expand_eq (List.pairwise_cons.mpr ⟨hpos, hids⟩)

/-- The ranges are never those of the ids: they have gaps between them, but they cover 0. -/
theorem ranges_not_lossless (ids : List Int) (hids : ids.Pairwise (· < ·))
    (hpos : ∀ id ∈ ids, 0 < id) :
    ¬ Compresses (ranges ids) ids ∧ Compresses (ranges ids) (0 :: ids) := by
  have hranges := compresses_ranges hids hpos
  apply And.intro _ hranges
  intro h
  have hzero : (0 : Int) ∈ ids := by
    rw [← h.covers, hranges.covers]
    exact List.mem_cons_self
  exact lt_irrefl 0 (hpos 0 hzero)

/-- Ids that start at 3. -/
theorem ranges_not_lossless_three :
    ¬ Compresses (ranges [3, 4, 7]) [3, 4, 7] ∧ Compresses (ranges [3, 4, 7]) [0, 3, 4, 7] :=
  ranges_not_lossless [3, 4, 7] (by decide) (by decide)

/-- The ids 1 and 2 are written as the range from 0 to 2. -/
theorem ranges_one_two :
    [1, 2].Pairwise (· < ·) ∧ (∀ id ∈ [(1 : Int), 2], 0 < id) ∧
      ranges [1, 2] = [⟨0, 2, by decide⟩] ∧ ¬ Compresses (ranges [1, 2]) [1, 2] := by
  apply And.intro (by decide)
  apply And.intro (by decide)
  have hranges : ranges [1, 2] = [⟨0, 2, by decide⟩] := by decide
  apply And.intro hranges
  intro h
  have hzero : (0 : Int) ∈ [1, 2] := by
    apply (h.covers 0).mp
    rw [hranges]
    exact ⟨_, List.mem_singleton_self _, by decide, by decide⟩
  revert hzero
  decide

end Ranges
end TestAio
