import Mathlib.Algebra.Ring.Nat
import Mathlib.Data.List.Nodup
import Mathlib.Data.List.Rotate

/-!
# Ready tasks with priorities

Tasks are ready in some order, and each has a priority, the lower the number the higher.  Next is
the first one of those with the highest priority.

Main results:

- Theorem {lit}`first_eq`: the next task is the first one of the first level with tasks.
- Theorems {lit}`level_append` and {lit}`level_erase`: a level when a task becomes ready or no
  longer is.

Current gaps:

- None.
-/

namespace TestAio
namespace Library
namespace ReadyList

variable {Task : Type} {priority : Task → Nat} {ready : List Task} {level_number : Nat}

/-- The ready tasks of one priority. -/
def level (priority : Task → Nat) (ready : List Task) (number : Nat) : List Task :=
  ready.filter fun task => priority task = number

/-- The first ready task of the highest priority. -/
def first (priority : Task → Nat) (ready : List Task) : Option Task :=
  ready.find? fun task => ready.all fun other => priority task ≤ priority other

/-- A level has the ready tasks of its priority. -/
theorem mem_level {task : Task} {number : Nat} :
    task ∈ level priority ready number ↔ task ∈ ready ∧ priority task = number := by
  rw [level, List.mem_filter, decide_eq_true_iff]

/-- A task that becomes ready is the last one of its level. -/
theorem level_append (task : Task) (number : Nat) :
    level priority (ready ++ [task]) number =
      if priority task = number then level priority ready number ++ [task]
      else level priority ready number := by
  rw [level, level, List.filter_append]
  split
  · next h => rw [List.filter_cons_of_pos (by simpa using h), List.filter_nil]
  · next h => rw [List.filter_cons_of_neg (by simpa using h), List.filter_nil, List.append_nil]

/-- A task that is not ready any more leaves its level. -/
theorem level_erase [DecidableEq Task] (hnodup : ready.Nodup) (task : Task) (number : Nat) :
    level priority (ready.erase task) number = (level priority ready number).erase task := by
  rw [level, level, hnodup.erase_eq_filter, (hnodup.filter _).erase_eq_filter, List.filter_filter,
    List.filter_filter]
  simp only [Bool.and_comm]

/-- The priority of a task that is not ready does not matter. -/
theorem level_congr {priority' : Task → Nat} (h : ∀ task ∈ ready, priority' task = priority task)
    (number : Nat) : level priority' ready number = level priority ready number := by
  refine List.filter_congr fun task hmem => ?_
  rw [h task hmem]

/-- The next task is the first one of a level, when no higher level has tasks. -/
theorem first_eq {task : Task} {number : Nat} {rest : List Task}
    (hlevel : level priority ready number = task :: rest)
    (hleast : ∀ other ∈ ready, number ≤ priority other) : first priority ready = some task := by
  have hmem : task ∈ ready ∧ priority task = number :=
    mem_level.mp (hlevel ▸ List.mem_cons_self)
  have hsame : level priority ready number =
      ready.filter fun task => ready.all fun other => priority task ≤ priority other := by
    refine List.filter_congr fun other hother => ?_
    rw [Bool.eq_iff_iff, decide_eq_true_iff, List.all_eq_true]
    simp only [decide_eq_true_iff]
    constructor
    · rintro rfl
      exact hleast
    · intro hall
      have hle := hall task hmem.1
      rw [hmem.2] at hle
      exact Nat.le_antisymm hle (hleast other hother)
  rw [first, ← List.head?_filter, ← hsame, hlevel, List.head?_cons]

/-- The next task is ready, and none has a higher priority. -/
theorem first_spec {task : Task} (h : first priority ready = some task) :
    task ∈ ready ∧ ∀ other ∈ ready, priority task ≤ priority other := by
  refine ⟨List.mem_of_find?_eq_some h, fun other hother => ?_⟩
  have hall := List.find?_some h
  rw [List.all_eq_true] at hall
  exact of_decide_eq_true (hall other hother)

/-- Some task has the highest priority. -/
theorem exists_least (priority : Task → Nat) (hne : ready ≠ []) :
    ∃ task ∈ ready, ∀ other ∈ ready, priority task ≤ priority other := by
  induction ready with
  | nil => exact absurd rfl hne
  | cons task rest ih =>
      rcases List.eq_nil_or_concat rest with rfl | ⟨front, last, hrest⟩
      · exact ⟨task, List.mem_cons_self, by simp⟩
      · rcases ih (by simp [hrest]) with ⟨least, hmem, hleast⟩
        by_cases hle : priority task ≤ priority least
        · refine ⟨task, List.mem_cons_self, fun other hother => ?_⟩
          rcases List.mem_cons.mp hother with rfl | hother
          · exact Nat.le_refl _
          · exact Nat.le_trans hle (hleast other hother)
        · refine ⟨least, List.mem_cons_of_mem task hmem, fun other hother => ?_⟩
          rcases List.mem_cons.mp hother with rfl | hother
          · exact Nat.le_of_lt (Nat.lt_of_not_le hle)
          · exact hleast other hother

/-- Among ready tasks there is a first one. -/
theorem exists_first (priority : Task → Nat) (hne : ready ≠ []) :
    ∃ task, first priority ready = some task := by
  rcases exists_least priority hne with ⟨task, hmem, hleast⟩
  rw [← Option.isSome_iff_exists, first, List.find?_isSome]
  refine ⟨task, hmem, ?_⟩
  rw [List.all_eq_true]
  exact fun other hother => decide_eq_true (hleast other hother)

end ReadyList
end Library
end TestAio
