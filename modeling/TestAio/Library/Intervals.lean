import Mathlib.Data.Int.Order.Basic
import Mathlib.Data.List.Sort
import Mathlib.Order.Lattice

/-!
# Compressing increasing numbers to intervals

An increasing list of integers can be kept as the list of its maximal intervals.  A list of
intervals compresses the numbers when each interval ends with a gap before the next one
starts, and together they cover exactly the numbers.

Main results:

- Theorems {lit}`Compresses.extend` and {lit}`Compresses.append_single`: a number behind all
  others either lengthens the last interval or starts a new one.
- Theorem {lit}`Compresses.expand_eq`: the intervals determine the numbers.

Current gaps:

- None.
-/

namespace TestAio
namespace Library
namespace Intervals

/-- The integers from {lit}`start` to {lit}`finish`. -/
structure Interval where
  start : Int
  finish : Int
  ordered : start ≤ finish
deriving DecidableEq

namespace Interval

/-- The interval of one number. -/
def single (n : Int) : Interval :=
  ⟨n, n, le_refl n⟩

/-- The interval with the next number added. -/
def extend (i : Interval) : Interval :=
  ⟨i.start, i.finish + 1, by have := i.ordered; omega⟩

instance : Membership Int Interval :=
  ⟨fun i n => i.start ≤ n ∧ n ≤ i.finish⟩

/-- The numbers of an interval lie between its ends. -/
theorem mem_iff {n : Int} {i : Interval} : n ∈ i ↔ i.start ≤ n ∧ n ≤ i.finish :=
  Iff.rfl

/-- A single number is an interval of its own. -/
theorem mem_single {n m : Int} : n ∈ single m ↔ n = m := by
  rw [mem_iff]
  dsimp only [single]
  omega

/-- Extending an interval adds the next number. -/
theorem mem_extend {n : Int} {i : Interval} : n ∈ i.extend ↔ n ∈ i ∨ n = i.finish + 1 := by
  have hordered := i.ordered
  rw [mem_iff, mem_iff]
  dsimp only [extend]
  omega

/-- An interval has its last number. -/
theorem finish_mem (i : Interval) : i.finish ∈ i :=
  ⟨i.ordered, le_refl _⟩

/-- The interval ends with a gap before the other one starts. -/
def Before (i j : Interval) : Prop :=
  i.finish + 1 < j.start

/-- Being before is transitive. -/
theorem Before.trans {i j k : Interval} (hij : i.Before j) (hjk : j.Before k) :
    i.Before k := by
  have hordered := j.ordered
  unfold Before at *
  omega

/-- Intervals with a gap between them have no number in common. -/
theorem Before.lt {i j : Interval} (h : i.Before j) {n m : Int} (hn : n ∈ i) (hm : m ∈ j) :
    n < m := by
  rw [mem_iff] at hn hm
  unfold Before at h
  omega

/-- The numbers of an interval, from the first to the last. -/
def toList (i : Interval) : List Int :=
  (List.range (i.finish + 1 - i.start).toNat).map fun k : Nat => i.start + (k : Int)

/-- The list has the numbers of the interval. -/
theorem mem_toList {n : Int} {i : Interval} : n ∈ i.toList ↔ n ∈ i := by
  have hordered := i.ordered
  simp only [toList, List.mem_map, List.mem_range, mem_iff]
  constructor
  · intro h
    rcases h with ⟨k, hk, rfl⟩
    omega
  · intro h
    exact ⟨(n - i.start).toNat, by omega, by omega⟩

/-- The numbers of an interval increase. -/
theorem toList_increasing (i : Interval) : i.toList.Pairwise (· < ·) := by
  rw [toList, List.pairwise_map]
  apply List.pairwise_lt_range.imp
  intro a b hab
  omega

end Interval

/-! ## Lists of intervals -/

/-- The intervals are increasing with a gap behind each one, and cover the numbers. -/
structure Compresses (intervals : List Interval) (numbers : List Int) : Prop where
  apart : intervals.Pairwise Interval.Before
  covers : ∀ n, (∃ i ∈ intervals, n ∈ i) ↔ n ∈ numbers

/-- A single number is compressed to one interval. -/
theorem compresses_single (n : Int) : Compresses [Interval.single n] [n] where
  apart := List.pairwise_singleton _ _
  covers m := by
    simp only [List.mem_singleton, exists_eq_left, Interval.mem_single]

/-- The number behind the last interval lengthens it. -/
theorem Compresses.extend {intervals : List Interval} {last : Interval} {numbers : List Int}
    (h : Compresses (intervals ++ [last]) numbers) :
    Compresses (intervals ++ [last.extend]) (numbers ++ [last.finish + 1]) where
  apart := by
    have hapart := h.apart
    rw [List.pairwise_append] at hapart ⊢
    rcases hapart with ⟨hintervals, -, hlast⟩
    apply And.intro hintervals
    apply And.intro (List.pairwise_singleton _ _)
    intro i hi j hj
    rw [List.mem_singleton] at hj
    subst hj
    exact hlast i hi last (List.mem_singleton_self last)
  covers n := by
    have hcovers := h.covers n
    simp only [List.mem_append, List.mem_singleton, or_and_right, exists_or,
      exists_eq_left] at hcovers ⊢
    rw [Interval.mem_extend, ← or_assoc, hcovers]

/-- A number with a gap in front of it starts an interval. -/
theorem Compresses.append_single {intervals : List Interval} {last : Interval}
    {numbers : List Int} (h : Compresses (intervals ++ [last]) numbers) {n : Int}
    (hn : last.finish + 1 < n) :
    Compresses (intervals ++ [last] ++ [Interval.single n]) (numbers ++ [n]) where
  apart := by
    have hnew : last.Before (Interval.single n) := hn
    have hlast := (List.pairwise_append.mp h.apart).2.2
    rw [List.pairwise_append]
    apply And.intro h.apart
    apply And.intro (List.pairwise_singleton _ _)
    intro i hi j hj
    rw [List.mem_singleton] at hj
    subst hj
    rcases List.mem_append.mp hi with hi | hi
    · exact (hlast i hi last (List.mem_singleton_self last)).trans hnew
    · rw [List.mem_singleton] at hi
      subst hi
      exact hnew
  covers m := by
    have hcovers := h.covers m
    have hsplit : (∃ i ∈ intervals ++ [last] ++ [Interval.single n], m ∈ i) ↔
        (∃ i ∈ intervals ++ [last], m ∈ i) ∨ m ∈ Interval.single n := by
      simp only [List.mem_append, List.mem_singleton, or_and_right, exists_or, exists_eq_left]
    rw [hsplit, hcovers, Interval.mem_single, List.mem_append, List.mem_singleton]

/-- The last interval ends at one of the numbers. -/
theorem Compresses.finish_mem {intervals : List Interval} {last : Interval}
    {numbers : List Int} (h : Compresses (intervals ++ [last]) numbers) :
    last.finish ∈ numbers :=
  (h.covers last.finish).mp
    ⟨last, List.mem_append_right _ (List.mem_singleton_self last), last.finish_mem⟩

/-- The numbers of all intervals. -/
def expand (intervals : List Interval) : List Int :=
  intervals.flatMap Interval.toList

/-- The numbers of the intervals are those of one of them. -/
theorem mem_expand {n : Int} {intervals : List Interval} :
    n ∈ expand intervals ↔ ∃ i ∈ intervals, n ∈ i := by
  simp only [expand, List.mem_flatMap, Interval.mem_toList]

/-- The numbers of intervals that follow each other increase. -/
theorem expand_increasing {intervals : List Interval}
    (h : intervals.Pairwise Interval.Before) : (expand intervals).Pairwise (· < ·) := by
  induction intervals with
  | nil => exact List.Pairwise.nil
  | cons i intervals ih =>
      rw [List.pairwise_cons] at h
      rw [expand, List.flatMap_cons, List.pairwise_append]
      apply And.intro i.toList_increasing
      apply And.intro (ih h.2)
      intro n hn m hm
      rcases mem_expand.mp hm with ⟨j, hj, hm⟩
      exact (h.1 j hj).lt (Interval.mem_toList.mp hn) hm

/-- Expanding what compresses an increasing list gives the list back. -/
theorem Compresses.expand_eq {intervals : List Interval} {numbers : List Int}
    (h : Compresses intervals numbers) (hnumbers : numbers.Pairwise (· < ·)) :
    expand intervals = numbers := by
  apply List.Pairwise.eq_of_mem_iff (expand_increasing h.apart) hnumbers
  intro n
  rw [mem_expand, h.covers]

end Intervals
end Library
end TestAio
