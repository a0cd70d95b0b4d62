import Mathlib.Algebra.Ring.Nat
import TestAio.Library.ReadyList
import TestAio.RtThread.Kservice

/-!
# The scheduler

{lit}`src/scheduler.c` keeps the ready threads in a list for each priority and a word with a bit
for each list that is not empty; the lower the number of a priority, the higher it is.  The
functions of {lit}`src/thread.c` and {lit}`src/clock.c` that change the state of a thread work on
these lists.

Main results:

- Theorem {lit}`run_refines_plain`: the lists and the word stand for one list of the ready
  threads in the order in which they became ready.

Current gaps:

- Only one processor and 32 priorities are modelled.
- The stacks are left out, so that a thread that exits while no other one is ready stays current.
-/

namespace TestAio
namespace RtThread

open Library

namespace Scheduler

/-- The state of a thread: {lit}`stat` under {lit}`RT_THREAD_STAT_MASK`. -/
inductive Stat
  | init
  | ready
  | suspend
  | running
  | close
deriving DecidableEq

/-- The fields of {lit}`struct rt_thread` that are scheduled by; {lit}`yield` is the bit
{lit}`RT_THREAD_STAT_YIELD`. -/
structure ThreadData where
  stat : Stat
  yield : Bool
  current_priority : Nat
  number_mask : BitVec 32
  init_tick : Nat
  remaining_tick : Nat
deriving DecidableEq

/-- What is called, by the current thread, by another one or by an interrupt. -/
inductive Event (Thread : Type)
  | startup (thread : Thread)
  | schedule
  | yield
  | suspend
  | resume (thread : Thread)
  | timeout (thread : Thread)
  | changePriority (thread : Thread) (priority : Nat)
  | exit
  | detach (thread : Thread)
  | tick
  | enterCritical
  | exitCritical

/-- What the scheduler asks of the ready threads. -/
class ReadyQueue (Queue Thread : Type) where
  insert : Queue → ThreadData → Thread → Queue
  remove : Queue → ThreadData → Thread → Queue
  isEmpty : Queue → Bool
  highest : Queue → (Thread → ThreadData) → Option (Thread × Nat)

/-- {lit}`rt_thread_priority_table` and {lit}`rt_thread_ready_priority_group`. -/
structure PriorityTable (Thread : Type) where
  priority_table : Nat → List Thread
  ready_priority_group : BitVec 32

namespace PriorityTable

variable {Thread : Type} [DecidableEq Thread]

/-- What {lit}`rt_schedule_insert_thread` does with the table. -/
def insert (q : PriorityTable Thread) (data : ThreadData) (thread : Thread) :
    PriorityTable Thread where
  priority_table :=
    Function.update q.priority_table data.current_priority
      (q.priority_table data.current_priority ++ [thread])
  ready_priority_group := q.ready_priority_group ||| data.number_mask

/-- What {lit}`rt_schedule_remove_thread` does: the thread leaves the list it is in. -/
def remove (q : PriorityTable Thread) (data : ThreadData) (thread : Thread) :
    PriorityTable Thread :=
  let priority_table := fun priority => (q.priority_table priority).erase thread
  { priority_table := priority_table
    ready_priority_group :=
      if priority_table data.current_priority = [] then
        q.ready_priority_group &&& ~~~data.number_mask
      else
        q.ready_priority_group }

omit [DecidableEq Thread] in
/-- {lit}`_scheduler_get_highest_priority_thread`; nothing when no thread is ready. -/
def highest (q : PriorityTable Thread) : Option (Thread × Nat) :=
  let highest_ready_priority := rtFfs q.ready_priority_group - 1
  match q.priority_table highest_ready_priority with
  | [] => none
  | thread :: _ => some (thread, highest_ready_priority)

instance : ReadyQueue (PriorityTable Thread) Thread where
  insert := insert
  remove := remove
  isEmpty q := q.ready_priority_group = 0
  highest q _ := q.highest

end PriorityTable

end Scheduler

/-- The variables of {lit}`src/scheduler.c` with the threads. -/
structure Scheduler (Queue Thread : Type) where
  queue : Queue
  thread : Thread → Scheduler.ThreadData
  current_thread : Option Thread
  lock_nest : Int

namespace Scheduler

section Functions

variable {Queue Thread : Type} [DecidableEq Thread] [ReadyQueue Queue Thread]

/-- The conversion to {lit}`rt_int16_t`, the type of {lit}`rt_scheduler_lock_nest`. -/
def toInt16 (k : Int) : Int :=
  k.bmod (2 ^ 16)

/-- A thread gets other data. -/
def modify (s : Scheduler Queue Thread) (thread : Thread) (change : ThreadData → ThreadData) :
    Scheduler Queue Thread :=
  { s with thread := Function.update s.thread thread (change (s.thread thread)) }

/-- {lit}`thread->stat` under the mask gets another value. -/
def setStat (stat : Stat) (data : ThreadData) : ThreadData :=
  { data with stat := stat }

/-- {lit}`thread->stat` is set, with the bit {lit}`RT_THREAD_STAT_YIELD` cleared. -/
def setStatOnly (stat : Stat) (data : ThreadData) : ThreadData :=
  { data with stat := stat, yield := false }

/-- {lit}`rt_schedule_insert_thread`. -/
def insertThread (s : Scheduler Queue Thread) (thread : Thread) : Scheduler Queue Thread :=
  if s.current_thread = some thread then
    s.modify thread (setStat .running)
  else
    { s.modify thread (setStat .ready) with
      queue := ReadyQueue.insert s.queue (s.thread thread) thread }

/-- {lit}`rt_schedule_remove_thread`. -/
def removeThread (s : Scheduler Queue Thread) (thread : Thread) : Scheduler Queue Thread :=
  { s with queue := ReadyQueue.remove s.queue (s.thread thread) thread }

/-- {lit}`rt_schedule`; nothing when a null pointer is followed. -/
def schedule (s : Scheduler Queue Thread) : Option (Scheduler Queue Thread) :=
  if s.lock_nest = 0 ∧ ReadyQueue.isEmpty Thread s.queue = false then
    match ReadyQueue.highest s.queue s.thread, s.current_thread with
    | some (highest, highest_ready_priority), some current =>
        let running := (s.thread current).stat = .running
        let stays := (s.thread current).current_priority < highest_ready_priority ∨
          (s.thread current).current_priority = highest_ready_priority ∧
            (s.thread current).yield = false
        let to_thread := if running ∧ stays then current else highest
        let s := if running then s.modify current fun data => { data with yield := false } else s
        if to_thread ≠ current then
          let s := { s with current_thread := some to_thread }
          let s := if running then s.insertThread current else s
          some ((s.removeThread to_thread).modify to_thread (setStat .running))
        else
          some ((s.removeThread current).modify current (setStat .running))
    | _, _ => none
  else
    some s

/-- {lit}`rt_thread_resume`. -/
def threadResume (s : Scheduler Queue Thread) (thread : Thread) : Scheduler Queue Thread :=
  if (s.thread thread).stat = .suspend then s.insertThread thread else s

/-- {lit}`rt_thread_suspend` of the current thread. -/
def threadSuspend (s : Scheduler Queue Thread) (thread : Thread) : Scheduler Queue Thread :=
  if (s.thread thread).stat = .ready ∨ (s.thread thread).stat = .running then
    (s.removeThread thread).modify thread (setStat .suspend)
  else
    s

/-- A new thread gets the mask of its priority, and waits to be resumed. -/
def prepare (data : ThreadData) : ThreadData :=
  { setStatOnly .suspend data with number_mask := 1#32 <<< data.current_priority }

/-- {lit}`rt_thread_startup`; nothing when its assertion fails. -/
def threadStartup (s : Scheduler Queue Thread) (thread : Thread) :
    Option (Scheduler Queue Thread) :=
  if (s.thread thread).stat = .init then
    let s := (s.modify thread prepare).threadResume thread
    if s.current_thread ≠ none then s.schedule else some s
  else
    none

/-- {lit}`rt_system_scheduler_start`. -/
def systemSchedulerStart (s : Scheduler Queue Thread) : Option (Scheduler Queue Thread) :=
  match ReadyQueue.highest s.queue s.thread with
  | none => none
  | some (to_thread, _) =>
      some (({ s with current_thread := some to_thread }.removeThread to_thread).modify to_thread
        (setStatOnly .running))

/-- {lit}`rt_thread_control` with {lit}`RT_THREAD_CTRL_CHANGE_PRIORITY`. -/
def threadChangePriority (s : Scheduler Queue Thread) (thread : Thread) (priority : Nat) :
    Scheduler Queue Thread :=
  let change := fun data : ThreadData => { data with
    current_priority := priority
    number_mask := 1#32 <<< priority }
  if (s.thread thread).stat = .ready then
    ((s.removeThread thread).modify thread change).insertThread thread
  else
    s.modify thread change

/-- {lit}`rt_thread_detach`. -/
def threadDetach (s : Scheduler Queue Thread) (thread : Thread) : Scheduler Queue Thread :=
  if (s.thread thread).stat = .close then
    s
  else if (s.thread thread).stat = .init then
    s.modify thread (setStatOnly .close)
  else
    (s.removeThread thread).modify thread (setStatOnly .close)

/-- The time slice of a thread starts again, and it lets others run. -/
def reload (data : ThreadData) : ThreadData :=
  { data with remaining_tick := data.init_tick, yield := true }

/-- {lit}`rt_tick_increase` without the timers. -/
def tickIncrease (s : Scheduler Queue Thread) (thread : Thread) :
    Option (Scheduler Queue Thread) :=
  let remaining_tick := ((s.thread thread).remaining_tick + 2 ^ 32 - 1) % 2 ^ 32
  if remaining_tick = 0 then
    (s.modify thread reload).schedule
  else
    some (s.modify thread fun data => { data with remaining_tick := remaining_tick })

/-- {lit}`rt_enter_critical`, which does not check for the highest number of nestings. -/
def enterCritical (s : Scheduler Queue Thread) : Scheduler Queue Thread :=
  { s with lock_nest := toInt16 (s.lock_nest + 1) }

/-- {lit}`rt_exit_critical`. -/
def exitCritical (s : Scheduler Queue Thread) : Option (Scheduler Queue Thread) :=
  let s := { s with lock_nest := toInt16 (s.lock_nest - 1) }
  if s.lock_nest ≤ 0 then
    let s := { s with lock_nest := 0 }
    if s.current_thread ≠ none then s.schedule else some s
  else
    some s

/-- One step; nothing when an assertion fails or a null pointer is followed. -/
def step (s : Scheduler Queue Thread) : Event Thread → Option (Scheduler Queue Thread)
  | .startup thread => s.threadStartup thread
  | .schedule => s.schedule
  | .yield => s.current_thread.bind fun thread => (s.modify thread reload).schedule
  | .suspend => s.current_thread.map fun thread => s.threadSuspend thread
  | .resume thread => some (s.threadResume thread)
  | .timeout thread =>
      if (s.thread thread).stat = .suspend then (s.insertThread thread).schedule else none
  | .changePriority thread priority => some (s.threadChangePriority thread priority)
  | .exit =>
      s.current_thread.bind fun thread =>
        ((s.removeThread thread).modify thread (setStatOnly .close)).schedule
  | .detach thread => some (s.threadDetach thread)
  | .tick => s.current_thread.bind fun thread => s.tickIncrease thread
  | .enterCritical => some s.enterCritical
  | .exitCritical => s.exitCritical

/-- The steps one after the other. -/
def run (s : Scheduler Queue Thread) : List (Event Thread) → Option (Scheduler Queue Thread)
  | [] => some s
  | event :: rest => (s.step event).bind fun s => s.run rest

/-- {lit}`rt_system_scheduler_init` and {lit}`rt_thread_init`: no thread is ready. -/
def boot (queue : Queue) (priority init_tick : Thread → Nat) : Scheduler Queue Thread where
  queue := queue
  thread := fun thread => {
    stat := .init
    yield := false
    current_priority := priority thread
    number_mask := 0
    init_tick := init_tick thread
    remaining_tick := init_tick thread }
  current_thread := none
  lock_nest := 0

/-- {lit}`rtthread_startup`: some threads are started, and then the scheduler. -/
def launch (queue : Queue) (priority init_tick : Thread → Nat) (started : List Thread) :
    Option (Scheduler Queue Thread) :=
  ((boot queue priority init_tick).run (started.map .startup)).bind systemSchedulerStart

/-- Everything from the start on. -/
def system (queue : Queue) (priority init_tick : Thread → Nat) (started : List Thread)
    (events : List (Event Thread)) : Option (Scheduler Queue Thread) :=
  (launch queue priority init_tick started).bind fun s => s.run events

end Functions

/-- The table without threads. -/
def emptyTable (Thread : Type) : PriorityTable Thread where
  priority_table := fun _ => []
  ready_priority_group := 0

/-! ## The ready threads in one list -/

/-- All ready threads in the order in which they became ready. -/
instance {Thread : Type} [DecidableEq Thread] : ReadyQueue (List Thread) Thread where
  insert ready _ thread := ready ++ [thread]
  remove ready _ thread := ready.erase thread
  isEmpty ready := ready.isEmpty
  highest ready data :=
    (ReadyList.first (fun thread => (data thread).current_priority) ready).map fun thread =>
      (thread, (data thread).current_priority)

section Refinement

variable {Thread : Type} [DecidableEq Thread]

/-- The table has each ready thread in the list of its priority, in the order in which they
became ready, and the bits of the lists that are not empty. -/
structure PriorityTable.Levels (q : PriorityTable Thread) (data : Thread → ThreadData)
    (ready : List Thread) : Prop where
  nodup : ready.Nodup
  table_eq : ∀ number, q.priority_table number =
    ReadyList.level (fun thread => (data thread).current_priority) ready number
  group_iff : ∀ number < 32,
    q.ready_priority_group.getLsbD number = true ↔ q.priority_table number ≠ []
  fits : ∀ thread ∈ ready, (data thread).current_priority < 32

variable {q : PriorityTable Thread} {data : Thread → ThreadData} {ready : List Thread}
  {thread : Thread}

omit [DecidableEq Thread] in
/-- The word of the table is zero exactly when no thread is ready. -/
theorem PriorityTable.Levels.isEmpty_iff (h : q.Levels data ready) :
    q.ready_priority_group = 0 ↔ ready = [] := by
  constructor
  · intro hzero
    rw [List.eq_nil_iff_forall_not_mem]
    intro thread hmem
    have hbit := (h.group_iff _ (h.fits thread hmem)).mpr (by
      rw [h.table_eq]
      exact List.ne_nil_of_mem (ReadyList.mem_level.mpr ⟨hmem, rfl⟩))
    rw [hzero] at hbit
    simp at hbit
  · rintro rfl
    apply BitVec.eq_of_getLsbD_eq
    intro number hnumber
    have hbit : q.ready_priority_group.getLsbD number = false := by
      rw [Bool.eq_false_iff]
      intro hset
      exact (h.group_iff number hnumber).mp hset (h.table_eq number)
    rw [hbit]
    simp

omit [DecidableEq Thread] in
/-- The highest ready priority has the lowest bit. -/
theorem PriorityTable.Levels.highest_eq (h : q.Levels data ready) :
    q.highest = (ReadyList.first (fun thread => (data thread).current_priority) ready).map
      fun thread => (thread, (data thread).current_priority) := by
  rcases rtFfs_spec q.ready_priority_group with ⟨hzero, -⟩ | ⟨index, hffs, hbit⟩
  · obtain rfl := h.isEmpty_iff.mp hzero
    have htable : q.priority_table (rtFfs q.ready_priority_group - 1) = [] := h.table_eq _
    rw [highest, htable]
    rfl
  · have hindex := lowestBit_lt hbit
    have hset := hbit.set
    rw [BitVec.testBit_toNat] at hset
    have hne := (h.group_iff index hindex).mp hset
    rw [highest, hffs, Nat.add_sub_cancel]
    cases htable : q.priority_table index with
    | nil => exact absurd htable hne
    | cons thread rest =>
        rw [h.table_eq] at htable
        have hleast : ∀ other ∈ ready, index ≤ (data other).current_priority := by
          intro other hother
          by_contra hlt
          have hclear := hbit.clear _ (Nat.lt_of_not_le hlt)
          rw [BitVec.testBit_toNat, Bool.eq_false_iff] at hclear
          refine hclear ((h.group_iff _ (h.fits other hother)).mpr ?_)
          rw [h.table_eq]
          exact List.ne_nil_of_mem (ReadyList.mem_level.mpr ⟨hother, rfl⟩)
        have hmem : thread ∈ ReadyList.level (fun thread => (data thread).current_priority) ready
            index := htable ▸ List.mem_cons_self
        rw [ReadyList.first_eq htable hleast, Option.map_some, (ReadyList.mem_level.mp hmem).2]

/-- The mask of a priority has the one bit of its number. -/
theorem getLsbD_mask {priority number : Nat} (hnumber : number < 32) :
    (1#32 <<< priority).getLsbD number = decide (priority = number) := by
  rw [BitVec.getLsbD_shiftLeft, BitVec.getLsbD_one]
  by_cases heq : priority = number
  · subst heq
    simp [hnumber]
  · by_cases hlt : number < priority
    · simp [hlt, heq]
    · have hne : number - priority ≠ 0 := by omega
      simp [hne, heq]

/-- The mask of a thread belongs to its priority. -/
def ThreadData.Masked (data : ThreadData) : Prop :=
  data.current_priority < 32 ∧ data.number_mask = 1#32 <<< data.current_priority

omit [DecidableEq Thread] in
/-- A thread becomes ready. -/
theorem PriorityTable.Levels.insert (h : q.Levels data ready) (hmem : thread ∉ ready)
    (hmask : (data thread).Masked) :
    (q.insert (data thread) thread).Levels data (ready ++ [thread]) where
  nodup := by
    rw [List.nodup_append]
    exact ⟨h.nodup, List.nodup_singleton thread, by
      intro other hother _ hself heq
      rw [List.mem_singleton.mp hself] at heq
      exact hmem (heq ▸ hother)⟩
  table_eq number := by
    rw [ReadyList.level_append, ← h.table_eq]
    by_cases hnumber : (data thread).current_priority = number
    · subst hnumber
      rw [if_pos rfl]
      exact Function.update_self ..
    · rw [if_neg hnumber]
      exact Function.update_of_ne (Ne.symm hnumber) ..
  group_iff number hnumber := by
    rw [PriorityTable.insert, BitVec.getLsbD_or, Bool.or_eq_true, hmask.2, getLsbD_mask hnumber,
      decide_eq_true_iff, h.group_iff number hnumber]
    by_cases heq : (data thread).current_priority = number
    · subst heq
      simp
    · simp [Function.update_of_ne (Ne.symm heq), heq]
  fits other hother := by
    rcases List.mem_append.mp hother with hother | hother
    · exact h.fits other hother
    · rw [List.mem_singleton.mp hother]
      exact hmask.1

/-- A thread leaves its list, and so its level. -/
theorem PriorityTable.Levels.remove (h : q.Levels data ready) (hmask : (data thread).Masked) :
    (q.remove (data thread) thread).Levels data (ready.erase thread) where
  nodup := h.nodup.erase thread
  table_eq number := by
    rw [ReadyList.level_erase h.nodup, ← h.table_eq]
    rfl
  group_iff number hnumber := by
    change BitVec.getLsbD (if (q.priority_table (data thread).current_priority).erase thread = []
      then _ else _) number = true ↔ (q.priority_table number).erase thread ≠ []
    by_cases heq : (data thread).current_priority = number
    · subst heq
      by_cases hempty : (q.priority_table (data thread).current_priority).erase thread = []
      · rw [if_pos hempty, BitVec.getLsbD_and, BitVec.getLsbD_not, hmask.2,
          getLsbD_mask hnumber]
        simp [hempty]
      · rw [if_neg hempty, h.group_iff _ hnumber]
        refine ⟨fun _ => hempty, fun hne hnil => hne ?_⟩
        rw [hnil, List.erase_nil]
    · have hkeep : (q.priority_table number).erase thread = q.priority_table number := by
        refine List.erase_of_not_mem fun hmem => heq ?_
        rw [h.table_eq] at hmem
        exact (ReadyList.mem_level.mp hmem).2
      rw [hkeep, ← h.group_iff number hnumber]
      split
      · rw [BitVec.getLsbD_and, BitVec.getLsbD_not, hmask.2,
          getLsbD_mask hnumber]
        simp [hnumber, heq]
      · exact Iff.rfl
  fits other hother := h.fits other (List.mem_of_mem_erase hother)

omit [DecidableEq Thread] in
/-- Only the priorities of the ready threads matter. -/
theorem PriorityTable.Levels.congr (h : q.Levels data ready) {data' : Thread → ThreadData}
    (hdata : ∀ thread ∈ ready,
      (data' thread).current_priority = (data thread).current_priority) :
    q.Levels data' ready where
  nodup := h.nodup
  table_eq number := by rw [h.table_eq, ReadyList.level_congr hdata]
  group_iff := h.group_iff
  fits thread hmem := by
    rw [hdata thread hmem]
    exact h.fits thread hmem

/-! ## The scheduler on the table and on the list -/

/-- The scheduler with the table and the one with the list agree in everything else. -/
structure Refines (s : Scheduler (PriorityTable Thread) Thread)
    (a : Scheduler (List Thread) Thread) : Prop where
  thread_eq : s.thread = a.thread
  current_eq : s.current_thread = a.current_thread
  lock_eq : s.lock_nest = a.lock_nest
  levels : s.queue.Levels a.thread a.queue

variable {s : Scheduler (PriorityTable Thread) Thread} {a : Scheduler (List Thread) Thread}

/-- Both change a thread in the same way, as long as a ready one keeps its priority. -/
theorem Refines.modify (h : Refines s a) (thread : Thread) (change : ThreadData → ThreadData)
    (hchange : thread ∈ a.queue →
      (change (a.thread thread)).current_priority = (a.thread thread).current_priority) :
    Refines (s.modify thread change) (a.modify thread change) where
  thread_eq := by rw [Scheduler.modify, Scheduler.modify, h.thread_eq]
  current_eq := h.current_eq
  lock_eq := h.lock_eq
  levels := h.levels.congr fun other hother => by
    by_cases heq : other = thread
    · subst heq
      simp only [Scheduler.modify, Function.update_self]
      exact hchange hother
    · simp only [Scheduler.modify, Function.update_of_ne heq]

/-- Both make a thread ready. -/
theorem Refines.insertThread (h : Refines s a) (hmem : thread ∉ a.queue)
    (hmask : (a.thread thread).Masked) :
    Refines (s.insertThread thread) (a.insertThread thread) := by
  have hmodify := h.modify thread (setStat .ready) fun _ => rfl
  rw [Scheduler.insertThread, Scheduler.insertThread, h.current_eq]
  split
  · exact h.modify thread _ fun _ => rfl
  · refine ⟨hmodify.thread_eq, h.current_eq, h.lock_eq, ?_⟩
    have hlevels := h.levels.insert hmem hmask
    rw [← h.thread_eq] at hlevels
    refine hlevels.congr fun other _ => ?_
    rw [h.thread_eq]
    by_cases heq : other = thread
    · subst heq
      simp only [Scheduler.modify, Function.update_self]
      rfl
    · simp only [Scheduler.modify, Function.update_of_ne heq]

/-- Both take a thread out of the ready ones. -/
theorem Refines.removeThread (h : Refines s a) (hmask : (a.thread thread).Masked) :
    Refines (s.removeThread thread) (a.removeThread thread) where
  thread_eq := h.thread_eq
  current_eq := h.current_eq
  lock_eq := h.lock_eq
  levels := by
    have hlevels := h.levels.remove hmask
    simp only [Scheduler.removeThread, h.thread_eq]
    exact hlevels

omit [DecidableEq Thread] in
/-- Both go over to the same thread. -/
theorem Refines.setCurrent (h : Refines s a) (current_thread : Option Thread) :
    Refines { s with current_thread := current_thread }
      { a with current_thread := current_thread } :=
  ⟨h.thread_eq, rfl, h.lock_eq, h.levels⟩

omit [DecidableEq Thread] in
/-- Both are locked in the same way. -/
theorem Refines.setLock (h : Refines s a) (lock_nest : Int) :
    Refines { s with lock_nest := lock_nest } { a with lock_nest := lock_nest } :=
  ⟨h.thread_eq, h.current_eq, rfl, h.levels⟩

/-- The table is empty exactly when the list is. -/
theorem Refines.isEmpty_eq (h : Refines s a) :
    ReadyQueue.isEmpty Thread s.queue = ReadyQueue.isEmpty Thread a.queue := by
  change decide (s.queue.ready_priority_group = 0) = a.queue.isEmpty
  rw [Bool.eq_iff_iff, decide_eq_true_iff, List.isEmpty_iff, h.levels.isEmpty_iff]

/-- The lowest bit of the word finds the thread that the search of the list finds. -/
theorem Refines.highest_eq (h : Refines s a) :
    ReadyQueue.highest s.queue s.thread = ReadyQueue.highest a.queue a.thread :=
  h.levels.highest_eq

/-! ## What holds of the list -/

/-- The list has the ready threads, and the masks belong to the priorities. -/
structure Listed (a : Scheduler (List Thread) Thread) : Prop where
  nodup : a.queue.Nodup
  mem_iff : ∀ thread, thread ∈ a.queue ↔ (a.thread thread).stat = .ready
  fits : ∀ thread, (a.thread thread).current_priority < 32
  masked : ∀ thread, (a.thread thread).stat ≠ .init → (a.thread thread).stat ≠ .close →
    (a.thread thread).Masked

/-- Other data of a thread that is ready afterwards if it was before. -/
theorem Listed.modify (h : Listed a) (thread : Thread) {change : ThreadData → ThreadData}
    (hready : (change (a.thread thread)).stat = .ready ↔ (a.thread thread).stat = .ready)
    (hfits : (change (a.thread thread)).current_priority < 32)
    (hmask : (change (a.thread thread)).stat ≠ .init → (change (a.thread thread)).stat ≠ .close →
      (change (a.thread thread)).Masked) :
    Listed (a.modify thread change) where
  nodup := h.nodup
  mem_iff other := by
    by_cases heq : other = thread
    · subst heq
      simp only [Scheduler.modify, Function.update_self]
      rw [h.mem_iff, hready]
    · simp only [Scheduler.modify, Function.update_of_ne heq]
      exact h.mem_iff other
  fits other := by
    by_cases heq : other = thread
    · subst heq
      simp only [Scheduler.modify, Function.update_self]
      exact hfits
    · simp only [Scheduler.modify, Function.update_of_ne heq]
      exact h.fits other
  masked other := by
    by_cases heq : other = thread
    · subst heq
      simp only [Scheduler.modify, Function.update_self]
      exact hmask
    · simp only [Scheduler.modify, Function.update_of_ne heq]
      exact h.masked other

/-- A thread that is not ready is inserted. -/
theorem Listed.insertThread (h : Listed a) (hready : (a.thread thread).stat ≠ .ready)
    (hmask : (a.thread thread).Masked) : Listed (a.insertThread thread) := by
  rw [Scheduler.insertThread]
  split
  · exact h.modify thread (iff_of_false (by simp [setStat]) hready) (h.fits thread)
      fun _ _ => hmask
  · refine ⟨?_, fun other => ?_, fun other => ?_, fun other => ?_⟩
    · refine List.nodup_append.mpr ⟨h.nodup, List.nodup_singleton thread, ?_⟩
      rintro other hother _ hself rfl
      rw [List.mem_singleton.mp hself, h.mem_iff] at hother
      exact hready hother
    · change other ∈ a.queue ++ [thread] ↔ _
      rw [List.mem_append, List.mem_singleton, h.mem_iff]
      by_cases heq : other = thread
      · subst heq
        simp [Scheduler.modify, setStat]
      · simp [Scheduler.modify, heq]
    · by_cases heq : other = thread
      · subst heq
        simp only [Scheduler.modify, Function.update_self]
        exact h.fits other
      · simp only [Scheduler.modify, Function.update_of_ne heq]
        exact h.fits other
    · by_cases heq : other = thread
      · subst heq
        simp only [Scheduler.modify, Function.update_self]
        exact fun _ _ => hmask
      · simp only [Scheduler.modify, Function.update_of_ne heq]
        exact h.masked other

/-- A thread leaves the list for another state. -/
theorem Listed.leave (h : Listed a) {change : ThreadData → ThreadData}
    (hready : (change (a.thread thread)).stat ≠ .ready)
    (hmask : (change (a.thread thread)).Masked) :
    Listed ((a.removeThread thread).modify thread change) := by
  refine ⟨h.nodup.erase thread, fun other => ?_, fun other => ?_, fun other => ?_⟩
  · change other ∈ a.queue.erase thread ↔ _
    rw [h.nodup.mem_erase_iff, h.mem_iff]
    by_cases heq : other = thread
    · subst heq
      simp only [Scheduler.modify, Scheduler.removeThread, Function.update_self]
      exact ⟨fun hmem => absurd rfl hmem.1, fun hstat => absurd hstat hready⟩
    · simp only [Scheduler.modify, Scheduler.removeThread, Function.update_of_ne heq]
      exact ⟨fun hmem => hmem.2, fun hstat => ⟨heq, hstat⟩⟩
  · by_cases heq : other = thread
    · subst heq
      simp only [Scheduler.modify, Scheduler.removeThread, Function.update_self]
      exact hmask.1
    · simp only [Scheduler.modify, Scheduler.removeThread, Function.update_of_ne heq]
      exact h.fits other
  · by_cases heq : other = thread
    · subst heq
      simp only [Scheduler.modify, Scheduler.removeThread, Function.update_self]
      exact fun _ _ => hmask
    · simp only [Scheduler.modify, Scheduler.removeThread, Function.update_of_ne heq]
      exact h.masked other

/-- The current thread is neither ready nor new, and no other one runs. -/
structure Valid (a : Scheduler (List Thread) Thread) : Prop where
  listed : Listed a
  current : ∀ thread, a.current_thread = some thread →
    (a.thread thread).stat ≠ .ready ∧ (a.thread thread).stat ≠ .init ∧ (a.thread thread).Masked
  running : ∀ thread, (a.thread thread).stat = .running → a.current_thread = some thread

/-! ## Scheduling -/

section Outcomes

variable {Queue : Type} [ReadyQueue Queue Thread]

/-- The bit {lit}`RT_THREAD_STAT_YIELD` is cleared. -/
def clearYield (data : ThreadData) : ThreadData :=
  { data with yield := false }

/-- The current thread goes on. -/
def keep (s : Scheduler Queue Thread) (current : Thread) : Scheduler Queue Thread :=
  ((s.modify current clearYield).removeThread current).modify current (setStat .running)

/-- A ready thread becomes the current one. -/
def dispatch (s : Scheduler Queue Thread) (highest : Thread) : Scheduler Queue Thread :=
  ({ s with current_thread := some highest }.removeThread highest).modify highest
    (setStat .running)

/-- The current thread becomes ready, and a ready one becomes current. -/
def preempt (s : Scheduler Queue Thread) (current highest : Thread) : Scheduler Queue Thread :=
  (({ s.modify current clearYield with current_thread := some highest }.insertThread
    current).removeThread highest).modify highest (setStat .running)

/-- The current thread runs and has a higher priority, or the same one without yielding. -/
def Stays (s : Scheduler Queue Thread) (current : Thread) (priority : Nat) : Prop :=
  (s.thread current).stat = .running ∧
    ((s.thread current).current_priority < priority ∨
      (s.thread current).current_priority = priority ∧ (s.thread current).yield = false)

instance (s : Scheduler Queue Thread) (current : Thread) (priority : Nat) :
    Decidable (s.Stays current priority) := by
  unfold Stays
  infer_instance

/-- Nothing is scheduled while the scheduler is locked or no thread is ready. -/
theorem schedule_of_not {s : Scheduler Queue Thread}
    (h : ¬ (s.lock_nest = 0 ∧ ReadyQueue.isEmpty Thread s.queue = false)) :
    s.schedule = some s :=
  if_neg h

/-- What a scheduling does, when the highest ready thread is not the current one. -/
theorem schedule_eq {s : Scheduler Queue Thread} {current highest : Thread} {priority : Nat}
    (hlock : s.lock_nest = 0) (hempty : ReadyQueue.isEmpty Thread s.queue = false)
    (hhighest : ReadyQueue.highest s.queue s.thread = some (highest, priority))
    (hcurrent : s.current_thread = some current) (hne : highest ≠ current) :
    s.schedule = some (if s.Stays current priority then s.keep current
      else if (s.thread current).stat = .running then s.preempt current highest
      else s.dispatch highest) := by
  rw [schedule, if_pos ⟨hlock, hempty⟩, hhighest, hcurrent]
  by_cases hrunning : (s.thread current).stat = .running
  · by_cases hstays : (s.thread current).current_priority < priority ∨
        (s.thread current).current_priority = priority ∧ (s.thread current).yield = false
    · simp only [hrunning, hstays, Stays, and_self, if_true, ne_eq, not_true_eq_false, if_false]
      rfl
    · simp only [hrunning, hstays, Stays, and_false, if_true, if_false, hne, ne_eq,
        not_false_eq_true]
      rfl
  · simp only [hrunning, Stays, false_and, if_false, hne, ne_eq, not_false_eq_true, if_true]
    rfl

/-- Only the thread that goes on changes. -/
theorem keep_thread (s : Scheduler Queue Thread) (current thread : Thread) :
    (s.keep current).thread thread =
      if thread = current then { s.thread current with stat := .running, yield := false }
      else s.thread thread := by
  by_cases heq : thread = current
  · subst heq
    simp [keep, modify, removeThread, setStat, clearYield]
  · simp [keep, modify, removeThread, heq]

/-- Only the thread that the processor goes to changes. -/
theorem dispatch_thread (s : Scheduler Queue Thread) (highest thread : Thread) :
    (s.dispatch highest).thread thread =
      if thread = highest then { s.thread highest with stat := .running }
      else s.thread thread := by
  by_cases heq : thread = highest
  · subst heq
    simp [dispatch, modify, removeThread, setStat]
  · simp [dispatch, modify, removeThread, heq]

omit [ReadyQueue Queue Thread] in
@[simp] theorem modify_current (s : Scheduler Queue Thread) (thread : Thread)
    (change : ThreadData → ThreadData) : (s.modify thread change).current_thread =
      s.current_thread :=
  rfl

omit [DecidableEq Thread] in
@[simp] theorem removeThread_current (s : Scheduler Queue Thread) (thread : Thread) :
    (s.removeThread thread).current_thread = s.current_thread :=
  rfl

@[simp] theorem insertThread_current (s : Scheduler Queue Thread) (thread : Thread) :
    (s.insertThread thread).current_thread = s.current_thread := by
  rw [insertThread]
  split <;> rfl

@[simp] theorem threadResume_current (s : Scheduler Queue Thread) (thread : Thread) :
    (s.threadResume thread).current_thread = s.current_thread := by
  rw [threadResume]
  split <;> simp

/-- The thread that preempts becomes the current one. -/
theorem preempt_current (s : Scheduler Queue Thread) (current highest : Thread) :
    (s.preempt current highest).current_thread = some highest :=
  insertThread_current _ _

/-- Only the two threads of a preemption change. -/
theorem preempt_thread (s : Scheduler Queue Thread) {current highest : Thread}
    (hne : highest ≠ current) (thread : Thread) :
    (s.preempt current highest).thread thread =
      if thread = highest then { s.thread highest with stat := .running }
      else if thread = current then { s.thread current with stat := .ready, yield := false }
      else s.thread thread := by
  have hother : some highest ≠ some current := fun heq => hne (Option.some.inj heq)
  by_cases heq : thread = highest
  · subst heq
    simp [preempt, insertThread, hother, modify, removeThread, setStat, hne]
  · by_cases hcurrent : thread = current
    · subst hcurrent
      simp [preempt, insertThread, hother, modify, removeThread, setStat, heq, clearYield]
    · simp [preempt, insertThread, hother, modify, removeThread, heq, hcurrent]

end Outcomes

/-- The thread that goes on is not ready any more. -/
theorem keep_queue (a : Scheduler (List Thread) Thread) (current : Thread) :
    (a.keep current).queue = a.queue.erase current :=
  rfl

/-- The preempted thread becomes ready behind the others. -/
theorem preempt_queue (a : Scheduler (List Thread) Thread) {current highest : Thread}
    (hne : highest ≠ current) :
    (a.preempt current highest).queue = (a.queue ++ [current]).erase highest := by
  have hother : some highest ≠ some current := fun heq => hne (Option.some.inj heq)
  rw [preempt, insertThread, if_neg hother]
  rfl

omit [DecidableEq Thread] in
/-- The current thread is not among the ready ones. -/
theorem Valid.not_mem_current (h : Valid a) {current : Thread}
    (hcurrent : a.current_thread = some current) : current ∉ a.queue := fun hmem =>
  (h.current current hcurrent).1 ((h.listed.mem_iff current).mp hmem)

omit [DecidableEq Thread] in
/-- A ready thread has the mask of its priority. -/
theorem Valid.masked_of_mem (h : Valid a) (hmem : thread ∈ a.queue) : (a.thread thread).Masked := by
  have hstat := (h.listed.mem_iff thread).mp hmem
  exact h.listed.masked thread (by simp [hstat]) (by simp [hstat])

/-- A change that leaves the state of a thread. -/
theorem Valid.modify (h : Valid a) (thread : Thread) {change : ThreadData → ThreadData}
    (hstat : (change (a.thread thread)).stat = (a.thread thread).stat)
    (hmask : (a.thread thread).Masked → (change (a.thread thread)).Masked)
    (hfits : (change (a.thread thread)).current_priority < 32) :
    Valid (a.modify thread change) := by
  refine ⟨h.listed.modify thread (by rw [hstat]) hfits ?_, fun other hother => ?_,
    fun other hother => ?_⟩
  · rw [hstat]
    exact fun hinit hclose => hmask (h.listed.masked thread hinit hclose)
  · by_cases heq : other = thread
    · subst heq
      have hcurrent := h.current other hother
      simp only [Scheduler.modify, Function.update_self]
      rw [hstat]
      exact ⟨hcurrent.1, hcurrent.2.1, hmask hcurrent.2.2⟩
    · simp only [Scheduler.modify, Function.update_of_ne heq]
      exact h.current other hother
  · by_cases heq : other = thread
    · subst heq
      simp only [Scheduler.modify, Function.update_self] at hother
      exact h.running other (hstat ▸ hother)
    · simp only [Scheduler.modify, Function.update_of_ne heq] at hother
      exact h.running other hother

/-- The current thread may go on. -/
theorem Valid.keep (h : Valid a) {current : Thread} (hcurrent : a.current_thread = some current) :
    Valid (a.keep current) := by
  have hmask := (h.current current hcurrent).2.2
  have hclear : Valid (a.modify current clearYield) :=
    h.modify current rfl id (h.listed.fits current)
  refine ⟨hclear.listed.leave (by simp [setStat]) ?_, fun thread hthread => ?_,
    fun thread hthread => ?_⟩
  · simp only [Scheduler.modify, Function.update_self]
    exact hmask
  · obtain rfl : current = thread := Option.some.inj (hcurrent.symm.trans hthread)
    rw [keep_thread, if_pos rfl]
    exact ⟨Stat.noConfusion, Stat.noConfusion, hmask⟩
  · rw [keep_thread] at hthread
    split at hthread
    · next heq => exact heq ▸ hcurrent
    · exact h.running thread hthread

/-- While no thread runs, a ready one may be dispatched. -/
theorem Valid.dispatch (h : Valid a) {highest : Thread} (hready : highest ∈ a.queue)
    (hidle : ∀ thread, (a.thread thread).stat ≠ .running) : Valid (a.dispatch highest) := by
  have hmask := h.masked_of_mem hready
  have hset : Listed { a with current_thread := some highest } := ⟨h.listed.nodup,
    h.listed.mem_iff, h.listed.fits, h.listed.masked⟩
  refine ⟨hset.leave (by simp [setStat]) hmask, fun thread hthread => ?_,
    fun thread hthread => ?_⟩
  · obtain rfl : highest = thread := Option.some.inj hthread
    rw [dispatch_thread, if_pos rfl]
    exact ⟨Stat.noConfusion, Stat.noConfusion, hmask⟩
  · rw [dispatch_thread] at hthread
    split at hthread
    · next heq =>
        rw [heq]
        rfl
    · exact absurd hthread (hidle thread)

/-- A ready thread may preempt the current one. -/
theorem Valid.preempt (h : Valid a) {current highest : Thread}
    (hcurrent : a.current_thread = some current) (hready : highest ∈ a.queue) :
    Valid (a.preempt current highest) := by
  have hmask := h.masked_of_mem hready
  have hstat := h.current current hcurrent
  have hne : highest ≠ current := fun heq => h.not_mem_current hcurrent (heq ▸ hready)
  have hother : some highest ≠ some current := fun heq => hne (Option.some.inj heq)
  have hclear : Listed { a.modify current clearYield with current_thread := some highest } := by
    have hmodify : Valid (a.modify current clearYield) :=
      h.modify current rfl id (h.listed.fits current)
    exact ⟨hmodify.listed.nodup, hmodify.listed.mem_iff, hmodify.listed.fits,
      hmodify.listed.masked⟩
  have hinsert : Listed (Scheduler.insertThread
      { a.modify current clearYield with current_thread := some highest } current) := by
    refine hclear.insertThread ?_ ?_
    · simp only [Scheduler.modify, Function.update_self]
      exact hstat.1
    · simp only [Scheduler.modify, Function.update_self]
      exact hstat.2.2
  refine ⟨hinsert.leave (by simp [setStat]) ?_, fun thread hthread => ?_,
    fun thread hthread => ?_⟩
  · simp only [Scheduler.insertThread, if_neg hother, Scheduler.modify, Function.update_of_ne hne]
    exact hmask
  · obtain rfl : highest = thread :=
      Option.some.inj ((preempt_current a current highest).symm.trans hthread)
    rw [preempt_thread a hne, if_pos rfl]
    exact ⟨Stat.noConfusion, Stat.noConfusion, hmask⟩
  · rw [preempt_thread a hne] at hthread
    split at hthread
    · next heq =>
        rw [heq]
        exact preempt_current a current highest
    · split at hthread
      · cases hthread
      · next hthat =>
          exact absurd (Option.some.inj ((h.running thread hthread).symm.trans hcurrent)) hthat

/-- What a scheduling does with the list: nothing when the scheduler is locked or no thread is
ready, nothing good when no thread is current, and else the first of the ready threads with the
highest priority is compared with the current one. -/
theorem Valid.schedule_cases (h : Valid a) :
    ((a.lock_nest ≠ 0 ∨ a.queue = []) ∧ a.schedule = some a) ∨
    (a.lock_nest = 0 ∧ a.queue ≠ [] ∧ a.current_thread = none ∧ a.schedule = none) ∨
    ∃ current highest, a.lock_nest = 0 ∧ a.current_thread = some current ∧
      ReadyList.first (fun thread => (a.thread thread).current_priority) a.queue = some highest ∧
      highest ≠ current ∧
      a.schedule = some (if a.Stays current (a.thread highest).current_priority
        then a.keep current
        else if (a.thread current).stat = .running then a.preempt current highest
        else a.dispatch highest) := by
  by_cases hlock : a.lock_nest = 0
  · by_cases hempty : a.queue = []
    · refine .inl ⟨.inr hempty, schedule_of_not fun hboth => ?_⟩
      have hfalse : a.queue.isEmpty = false := hboth.2
      rw [hempty] at hfalse
      cases hfalse
    · rcases ReadyList.exists_first (fun thread => (a.thread thread).current_priority) hempty
        with ⟨highest, hfirst⟩
      have hisEmpty : ReadyQueue.isEmpty Thread a.queue = false :=
        List.isEmpty_eq_false_iff.mpr hempty
      have hhighest : ReadyQueue.highest a.queue a.thread =
          some (highest, (a.thread highest).current_priority) := by
        change Option.map _ _ = _
        rw [hfirst, Option.map_some]
      cases hcurrent : a.current_thread with
      | none =>
          refine .inr (.inl ⟨hlock, hempty, rfl, ?_⟩)
          rw [schedule, if_pos ⟨hlock, hisEmpty⟩, hhighest, hcurrent]
      | some current =>
          have hne : highest ≠ current := fun heq =>
            h.not_mem_current hcurrent (heq ▸ (ReadyList.first_spec hfirst).1)
          exact .inr (.inr ⟨current, highest, hlock, rfl, hfirst, hne,
            schedule_eq hlock hisEmpty hhighest hcurrent hne⟩)
  · exact .inl ⟨.inl hlock, schedule_of_not fun hboth => hlock hboth.1⟩

/-- Scheduling keeps the states and the list of the ready threads together. -/
theorem Valid.schedule {a' : Scheduler (List Thread) Thread} (h : Valid a)
    (hschedule : a.schedule = some a') : Valid a' := by
  rcases h.schedule_cases with ⟨-, heq⟩ | ⟨-, -, -, heq⟩ |
    ⟨current, highest, -, hcurrent, hfirst, hne, heq⟩
  · rw [heq, Option.some.injEq] at hschedule
    exact hschedule ▸ h
  · rw [heq] at hschedule
    cases hschedule
  · rw [heq, Option.some.injEq] at hschedule
    have hready := (ReadyList.first_spec hfirst).1
    rw [← hschedule]
    split
    · exact h.keep hcurrent
    · split
      · exact h.preempt hcurrent hready
      · next hidle =>
          refine h.dispatch hready fun thread hrunning => hidle ?_
          rw [Option.some.inj (hcurrent.symm.trans (h.running thread hrunning))]
          exact hrunning

/-! ## Scheduling on the table -/

/-- Both let the current thread go on. -/
theorem Refines.keep (h : Refines s a) {current : Thread}
    (hmask : (a.thread current).Masked) : Refines (s.keep current) (a.keep current) := by
  refine ((h.modify current clearYield fun _ => rfl).removeThread ?_).modify current
    (setStat .running) fun _ => rfl
  simp only [Scheduler.modify, Function.update_self]
  exact hmask

/-- Both dispatch the same thread. -/
theorem Refines.dispatch (h : Refines s a) {highest : Thread}
    (hmask : (a.thread highest).Masked) : Refines (s.dispatch highest) (a.dispatch highest) :=
  ((h.setCurrent (some highest)).removeThread hmask).modify highest (setStat .running)
    fun _ => rfl

/-- Both preempt the current thread by the same one. -/
theorem Refines.preempt (h : Refines s a) {current highest : Thread} (hne : highest ≠ current)
    (hmem : current ∉ a.queue) (hcurrent : (a.thread current).Masked)
    (hhighest : (a.thread highest).Masked) :
    Refines (s.preempt current highest) (a.preempt current highest) := by
  have hcleared : Refines { s.modify current clearYield with current_thread := some highest }
      { a.modify current clearYield with current_thread := some highest } :=
    (h.modify current clearYield fun _ => rfl).setCurrent (some highest)
  have hmask : (({ a.modify current clearYield with current_thread := some highest } :
      Scheduler (List Thread) Thread).thread current).Masked := by
    simp only [Scheduler.modify, Function.update_self]
    exact hcurrent
  refine ((hcleared.insertThread hmem hmask).removeThread ?_).modify highest (setStat .running)
    fun _ => rfl
  have hother : some highest ≠ some current := fun heq => hne (Option.some.inj heq)
  simp only [Scheduler.insertThread, if_neg hother, Scheduler.modify, Function.update_of_ne hne]
  exact hhighest

/-- Both schedule the same thread, or both stop. -/
theorem Refines.schedule (h : Refines s a) (hvalid : Valid a) :
    Option.Rel Refines s.schedule a.schedule := by
  rcases hvalid.schedule_cases with ⟨hidle, heq⟩ | ⟨hlock, hempty, hcurrent, heq⟩ |
    ⟨current, highest, hlock, hcurrent, hfirst, hne, heq⟩
  · rw [heq, schedule_of_not]
    · exact .some h
    · rw [h.lock_eq, h.isEmpty_eq]
      rintro ⟨hlock, hempty⟩
      rcases hidle with hidle | hidle
      · exact hidle hlock
      · rw [hidle] at hempty
        cases hempty
  · have hisEmpty : ReadyQueue.isEmpty Thread s.queue = false := by
      rw [h.isEmpty_eq]
      exact List.isEmpty_eq_false_iff.mpr hempty
    rw [heq, Scheduler.schedule, if_pos ⟨h.lock_eq.trans hlock, hisEmpty⟩, h.current_eq, hcurrent]
    cases ReadyQueue.highest s.queue s.thread with
    | none => exact .none
    | some found => exact .none
  · have hready := (ReadyList.first_spec hfirst).1
    have hisEmpty : ReadyQueue.isEmpty Thread s.queue = false := by
      rw [h.isEmpty_eq]
      exact List.isEmpty_eq_false_iff.mpr (List.ne_nil_of_mem hready)
    have hhighest : ReadyQueue.highest s.queue s.thread =
        some (highest, (a.thread highest).current_priority) := by
      rw [h.highest_eq]
      change Option.map _ _ = _
      rw [hfirst, Option.map_some]
    have hmask := hvalid.masked_of_mem hready
    have hmask' := (hvalid.current current hcurrent).2.2
    rw [heq, schedule_eq (h.lock_eq.trans hlock) hisEmpty hhighest
      (h.current_eq.trans hcurrent) hne]
    refine .some ?_
    have hstays : s.Stays current (a.thread highest).current_priority ↔
        a.Stays current (a.thread highest).current_priority := by
      rw [Stays, Stays, h.thread_eq]
    rw [h.thread_eq]
    by_cases hgoes : a.Stays current (a.thread highest).current_priority
    · rw [if_pos (hstays.mpr hgoes), if_pos hgoes]
      exact h.keep hmask'
    · rw [if_neg (mt hstays.mp hgoes), if_neg hgoes]
      split
      · exact h.preempt hne (hvalid.not_mem_current hcurrent) hmask' hmask
      · exact h.dispatch hmask

/-! ## One step -/

/-- Both schedulers agree, and what holds of the list holds. -/
structure Agrees (s : Scheduler (PriorityTable Thread) Thread)
    (a : Scheduler (List Thread) Thread) : Prop where
  refines : Refines s a
  valid : Valid a

/-- A change of a thread that leaves its state and its priority alone keeps both together. -/
theorem Agrees.modify (h : Agrees s a) (thread : Thread) {change : ThreadData → ThreadData}
    (hstat : (change (a.thread thread)).stat = (a.thread thread).stat)
    (hpriority : (change (a.thread thread)).current_priority =
      (a.thread thread).current_priority)
    (hmask : (change (a.thread thread)).number_mask = (a.thread thread).number_mask) :
    Agrees (s.modify thread change) (a.modify thread change) where
  refines := h.refines.modify thread change fun _ => hpriority
  valid := by
    refine h.valid.modify thread hstat (fun hmasked => ?_) ?_
    · rw [ThreadData.Masked, hpriority, hmask]
      exact hmasked
    · rw [hpriority]
      exact h.valid.listed.fits thread

/-- A suspended thread becomes ready, or runs when it is the current one. -/
theorem Valid.insertThread (h : Valid a) (hstat : (a.thread thread).stat = .suspend) :
    Valid (a.insertThread thread) := by
  have hmask := h.listed.masked thread (by simp [hstat]) (by simp [hstat])
  have hlisted : Listed (a.insertThread thread) :=
    h.listed.insertThread (by simp [hstat]) hmask
  have hthread : ∀ other, ((a.insertThread thread).thread other) =
      if other = thread then { a.thread thread with
        stat := if a.current_thread = some thread then .running else .ready }
      else a.thread other := by
    intro other
    rw [Scheduler.insertThread]
    split <;> by_cases heq : other = thread <;> simp [Scheduler.modify, setStat, heq]
  refine ⟨hlisted, fun other hother => ?_, fun other hother => ?_⟩
  · rw [insertThread_current] at hother
    rw [hthread]
    split
    · next heq =>
        rw [heq] at hother
        rw [if_pos hother]
        exact ⟨Stat.noConfusion, Stat.noConfusion, hmask⟩
    · exact h.current other hother
  · rw [hthread] at hother
    rw [insertThread_current]
    split at hother
    · next heq =>
        by_contra hnot
        rw [heq] at hnot
        simp [hnot] at hother
    · exact h.running other hother

/-- A suspended thread becomes ready in both. -/
theorem Agrees.insertThread (h : Agrees s a) (hstat : (a.thread thread).stat = .suspend) :
    Agrees (s.insertThread thread) (a.insertThread thread) where
  refines := by
    refine h.refines.insertThread ?_ (h.valid.listed.masked thread (by simp [hstat])
      (by simp [hstat]))
    rw [h.valid.listed.mem_iff, hstat]
    exact Stat.noConfusion
  valid := h.valid.insertThread hstat

/-- A thread is suspended or closed. -/
theorem Valid.leave (h : Valid a) {change : ThreadData → ThreadData}
    (hstat : (change (a.thread thread)).stat = .suspend ∨
      (change (a.thread thread)).stat = .close)
    (hmask : (change (a.thread thread)).Masked) :
    Valid ((a.removeThread thread).modify thread change) := by
  refine ⟨h.listed.leave ?_ hmask, fun other hother => ?_, fun other hother => ?_⟩
  · rcases hstat with hstat | hstat <;> simp [hstat]
  · by_cases heq : other = thread
    · subst heq
      simp only [Scheduler.modify, Scheduler.removeThread, Function.update_self]
      rcases hstat with hstat | hstat <;> simp [hstat, hmask]
    · simp only [Scheduler.modify, Scheduler.removeThread, Function.update_of_ne heq]
      exact h.current other hother
  · by_cases heq : other = thread
    · subst heq
      simp only [Scheduler.modify, Scheduler.removeThread, Function.update_self] at hother
      rcases hstat with hstat | hstat <;> simp [hstat] at hother
    · simp only [Scheduler.modify, Scheduler.removeThread, Function.update_of_ne heq] at hother
      exact h.running other hother

/-- A thread leaves the ready ones in both, suspended or closed. -/
theorem Agrees.leave (h : Agrees s a) (hmask : (a.thread thread).Masked)
    {change : ThreadData → ThreadData}
    (hstat : (change (a.thread thread)).stat = .suspend ∨
      (change (a.thread thread)).stat = .close)
    (hpriority : (change (a.thread thread)).current_priority =
      (a.thread thread).current_priority)
    (hnumber : (change (a.thread thread)).number_mask = (a.thread thread).number_mask) :
    Agrees ((s.removeThread thread).modify thread change)
      ((a.removeThread thread).modify thread change) where
  refines := (h.refines.removeThread hmask).modify thread change fun _ => hpriority
  valid := by
    refine h.valid.leave hstat ?_
    rw [ThreadData.Masked, hpriority, hnumber]
    exact hmask

/-- Both schedule the same thread, or both stop. -/
theorem Agrees.schedule (h : Agrees s a) : Option.Rel Agrees s.schedule a.schedule := by
  match hs : s.schedule, ha : a.schedule, h.refines.schedule h.valid with
  | _, _, .none => exact .none
  | _, _, .some hrefines => exact .some ⟨hrefines, h.valid.schedule ha⟩

omit [DecidableEq Thread] in
/-- The lock counters stay equal. -/
theorem Agrees.setLock (h : Agrees s a) {lock_nest lock_nest' : Int}
    (heq : lock_nest = lock_nest') :
    Agrees { s with lock_nest := lock_nest } { a with lock_nest := lock_nest' } where
  refines := ⟨h.refines.thread_eq, h.refines.current_eq, heq, h.refines.levels⟩
  valid := ⟨⟨h.valid.listed.nodup, h.valid.listed.mem_iff, h.valid.listed.fits,
    h.valid.listed.masked⟩, h.valid.current, h.valid.running⟩

/-- {lit}`rt_thread_resume` agrees on the table and on the list. -/
theorem Agrees.threadResume (h : Agrees s a) (thread : Thread) :
    Agrees (s.threadResume thread) (a.threadResume thread) := by
  rw [Scheduler.threadResume, Scheduler.threadResume, h.refines.thread_eq]
  split
  · next hstat => exact h.insertThread hstat
  · exact h

/-- A fresh thread gets its mask and is suspended in both. -/
theorem Agrees.prepare (h : Agrees s a) (hstat : (a.thread thread).stat = .init) :
    Agrees (s.modify thread prepare) (a.modify thread prepare) := by
  refine ⟨h.refines.modify thread _ fun _ => rfl, h.valid.listed.modify thread
    (by simp [Scheduler.prepare, setStatOnly, hstat]) (h.valid.listed.fits thread)
    fun _ _ => ⟨h.valid.listed.fits thread, rfl⟩, fun other hother => ?_, fun other hother => ?_⟩
  · have hne : other ≠ thread := fun heq =>
      (h.valid.current other hother).2.1 (heq ▸ hstat)
    simp only [Scheduler.modify, Function.update_of_ne hne]
    exact h.valid.current other hother
  · by_cases heq : other = thread
    · subst heq
      simp [Scheduler.modify, Scheduler.prepare, setStatOnly] at hother
    · simp only [Scheduler.modify, Function.update_of_ne heq] at hother
      exact h.valid.running other hother

/-- {lit}`rt_thread_startup` agrees on the table and on the list. -/
theorem Agrees.threadStartup (h : Agrees s a) (thread : Thread) :
    Option.Rel Agrees (s.threadStartup thread) (a.threadStartup thread) := by
  rw [Scheduler.threadStartup, Scheduler.threadStartup, h.refines.thread_eq]
  split
  · next hstat =>
      have hresumed := (h.prepare hstat).threadResume thread
      simp only [hresumed.refines.current_eq]
      split
      · exact hresumed.schedule
      · exact .some hresumed
  · exact .none

/-- A ready thread moves to the end of another list; the mask follows the priority. -/
theorem Agrees.threadChangePriority (h : Agrees s a) (thread : Thread) {priority : Nat}
    (hpriority : priority < 32) :
    Agrees (s.threadChangePriority thread priority) (a.threadChangePriority thread priority) := by
  have hchanged : ∀ data : ThreadData, ({ data with
      current_priority := priority
      number_mask := 1#32 <<< priority } : ThreadData).Masked := fun _ => ⟨hpriority, rfl⟩
  rw [Scheduler.threadChangePriority, Scheduler.threadChangePriority, h.refines.thread_eq]
  split
  · next hstat =>
      have hready : thread ∈ a.queue := (h.valid.listed.mem_iff thread).mpr hstat
      have hmask := h.valid.masked_of_mem hready
      have hleft : thread ∉ a.queue.erase thread := h.valid.listed.nodup.not_mem_erase
      constructor
      · refine (((h.refines.removeThread hmask).modify thread _
          fun hmem => absurd hmem hleft).insertThread hleft ?_)
        simp only [Scheduler.modify, Scheduler.removeThread, Function.update_self]
        exact hchanged _
      · -- the state of the thread in between is overwritten, so it may as well be suspended
        have hnot : a.current_thread ≠ some thread := fun heq =>
          h.valid.not_mem_current heq hready
        have hsuspend : Valid ((a.removeThread thread).modify thread (setStat .suspend)) :=
          h.valid.leave (.inl rfl) hmask
        have hchange : Valid (((a.removeThread thread).modify thread (setStat .suspend)).modify
            thread fun data => { data with
              current_priority := priority
              number_mask := 1#32 <<< priority }) :=
          hsuspend.modify thread rfl (fun _ => hchanged _) hpriority
        have hvalid := hchange.insertThread (show ((Scheduler.modify _ thread _).thread
          thread).stat = .suspend by simp [Scheduler.modify, setStat])
        simp only [Scheduler.insertThread, Scheduler.modify, Scheduler.removeThread, if_neg hnot,
          Function.update_self, Function.update_idem, setStat] at hvalid ⊢
        exact hvalid
  · next hstat =>
      exact ⟨h.refines.modify thread _ fun hmem =>
        absurd ((h.valid.listed.mem_iff thread).mp hmem) hstat,
        h.valid.modify thread rfl (fun _ => hchanged _) hpriority⟩

/-- {lit}`rt_thread_suspend` of the current thread agrees on the table and on the list. -/
theorem Agrees.threadSuspend (h : Agrees s a) {current : Thread}
    (hcurrent : a.current_thread = some current) :
    Agrees (s.threadSuspend current) (a.threadSuspend current) := by
  rw [Scheduler.threadSuspend, Scheduler.threadSuspend, h.refines.thread_eq]
  split
  · exact h.leave (h.valid.current current hcurrent).2.2 (.inl rfl) rfl rfl
  · exact h

/-- A thread that was never started is in no list, so its mask does not matter. -/
theorem Agrees.threadDetach (h : Agrees s a) (thread : Thread) :
    Agrees (s.threadDetach thread) (a.threadDetach thread) := by
  rw [Scheduler.threadDetach, Scheduler.threadDetach, h.refines.thread_eq]
  split
  · exact h
  · next hclose =>
      split
      · next hinit =>
          refine ⟨h.refines.modify thread _ fun _ => rfl, h.valid.listed.modify thread
            (by simp [setStatOnly, hinit]) (h.valid.listed.fits thread)
            fun _ hnot => absurd rfl hnot, fun other hother => ?_, fun other hother => ?_⟩
          · have hne : other ≠ thread := fun heq =>
              (h.valid.current other hother).2.1 (heq ▸ hinit)
            simp only [Scheduler.modify, Function.update_of_ne hne]
            exact h.valid.current other hother
          · by_cases heq : other = thread
            · subst heq
              simp [Scheduler.modify, setStatOnly] at hother
            · simp only [Scheduler.modify, Function.update_of_ne heq] at hother
              exact h.valid.running other hother
      · next hinit => exact h.leave (h.valid.listed.masked thread hinit hclose) (.inr rfl) rfl rfl

/-- {lit}`rt_tick_increase` agrees on the table and on the list. -/
theorem Agrees.tickIncrease (h : Agrees s a) (thread : Thread) :
    Option.Rel Agrees (s.tickIncrease thread) (a.tickIncrease thread) := by
  simp only [Scheduler.tickIncrease, h.refines.thread_eq]
  split
  · exact (h.modify thread rfl rfl rfl).schedule
  · exact .some (h.modify thread rfl rfl rfl)

/-- {lit}`rt_exit_critical` agrees on the table and on the list. -/
theorem Agrees.exitCritical (h : Agrees s a) :
    Option.Rel Agrees s.exitCritical a.exitCritical := by
  have hlock := h.refines.lock_eq
  have hzero : Agrees { s with lock_nest := 0 } { a with lock_nest := 0 } := h.setLock rfl
  have hcurrent : s.current_thread ≠ none ↔ a.current_thread ≠ none := by
    rw [h.refines.current_eq]
  simp only [Scheduler.exitCritical, hlock, hcurrent]
  split
  · split
    · exact hzero.schedule
    · exact .some hzero
  · exact .some (h.setLock rfl)

/-- The priorities of the processor are below 32. -/
def Event.Fits : Event Thread → Prop
  | .changePriority _ priority => priority < 32
  | _ => True

/-- Each event agrees on the table and on the list. -/
theorem Agrees.step (h : Agrees s a) {event : Event Thread} (hfits : event.Fits) :
    Option.Rel Agrees (s.step event) (a.step event) := by
  have hthread := h.refines.thread_eq
  have hcurrent := h.refines.current_eq
  cases event with
  | startup thread => exact h.threadStartup thread
  | schedule => exact h.schedule
  | yield =>
      simp only [Scheduler.step, hcurrent]
      cases a.current_thread with
      | none => exact .none
      | some current => exact (h.modify current rfl rfl rfl).schedule
  | suspend =>
      simp only [Scheduler.step, hcurrent]
      cases ha : a.current_thread with
      | none => exact .none
      | some current => exact .some (h.threadSuspend ha)
  | resume thread => exact .some (h.threadResume thread)
  | timeout thread =>
      simp only [Scheduler.step, hthread]
      split
      · next hstat => exact (h.insertThread hstat).schedule
      · exact .none
  | changePriority thread priority => exact .some (h.threadChangePriority thread hfits)
  | exit =>
      simp only [Scheduler.step, hcurrent]
      cases ha : a.current_thread with
      | none => exact .none
      | some current =>
          exact (h.leave (h.valid.current current ha).2.2 (.inr rfl) rfl rfl).schedule
  | detach thread => exact .some (h.threadDetach thread)
  | tick =>
      simp only [Scheduler.step, hcurrent]
      cases a.current_thread with
      | none => exact .none
      | some current =>
          rw [Option.bind_some, Option.bind_some]
          exact h.tickIncrease current
  | enterCritical =>
      have hset : Agrees s.enterCritical a.enterCritical := h.setLock (by rw [h.refines.lock_eq])
      exact .some hset
  | exitCritical => exact h.exitCritical

/-! ## Runs -/

/-- The events one after the other agree on the table and on the list. -/
theorem Agrees.run (h : Agrees s a) {events : List (Event Thread)}
    (hfits : ∀ event ∈ events, event.Fits) : Option.Rel Agrees (s.run events) (a.run events) := by
  induction events generalizing s a with
  | nil => exact .some h
  | cons event rest ih =>
      rw [Scheduler.run, Scheduler.run]
      have hrest : ∀ event ∈ rest, event.Fits := fun event hmem =>
        hfits event (List.mem_cons_of_mem _ hmem)
      match s.step event, a.step event, h.step (hfits event List.mem_cons_self) with
      | _, _, .none => exact .none
      | _, _, .some hnext => exact ih hnext hrest

/-- The first start is a dispatch. -/
theorem systemSchedulerStart_eq {Queue : Type} [ReadyQueue Queue Thread]
    (s : Scheduler Queue Thread) :
    s.systemSchedulerStart = (ReadyQueue.highest s.queue s.thread).map fun found =>
      (s.dispatch found.1).modify found.1 clearYield := by
  rw [systemSchedulerStart]
  cases ReadyQueue.highest s.queue s.thread with
  | none => rfl
  | some found =>
      simp only [Option.map_some, dispatch, Scheduler.modify, removeThread, Function.update_self,
        Function.update_idem]
      rfl

/-- Both start with the same thread, or both stop. -/
theorem Agrees.systemSchedulerStart (h : Agrees s a) (hcurrent : a.current_thread = none) :
    Option.Rel Agrees s.systemSchedulerStart a.systemSchedulerStart := by
  have hidle : ∀ thread, (a.thread thread).stat ≠ .running := by
    intro thread hrunning
    rw [h.valid.running thread hrunning] at hcurrent
    cases hcurrent
  have hhighest : ReadyQueue.highest a.queue a.thread =
      (ReadyList.first (fun thread => (a.thread thread).current_priority) a.queue).map
        fun thread => (thread, (a.thread thread).current_priority) := rfl
  rw [systemSchedulerStart_eq, systemSchedulerStart_eq, h.refines.highest_eq, hhighest]
  cases hfirst : ReadyList.first (fun thread => (a.thread thread).current_priority) a.queue with
  | none => exact .none
  | some highest =>
      have hready := (ReadyList.first_spec hfirst).1
      have hdispatch : Agrees (s.dispatch highest) (a.dispatch highest) :=
        ⟨h.refines.dispatch (h.valid.masked_of_mem hready), h.valid.dispatch hready hidle⟩
      exact .some (hdispatch.modify highest rfl rfl rfl)

omit [DecidableEq Thread] in
/-- Before the start both are empty. -/
theorem Agrees.boot {priority : Thread → Nat} (init_tick : Thread → Nat)
    (hpriority : ∀ thread, priority thread < 32) :
    Agrees (boot (emptyTable Thread) priority init_tick) (boot [] priority init_tick) where
  refines := {
    thread_eq := rfl
    current_eq := rfl
    lock_eq := rfl
    levels := {
      nodup := List.nodup_nil
      table_eq := fun _ => rfl
      group_iff := fun number _ => by simp [Scheduler.boot, emptyTable]
      fits := fun _ hmem => nomatch hmem } }
  valid := {
    listed := {
      nodup := List.nodup_nil
      mem_iff := fun thread => ⟨fun hmem => (nomatch hmem), fun hstat => (nomatch hstat)⟩
      fits := hpriority
      masked := fun _ hinit => absurd rfl hinit }
    current := fun _ hcurrent => nomatch hcurrent
    running := fun _ hstat => nomatch hstat }

end Refinement

section Current

variable {Queue Thread : Type} [DecidableEq Thread] [ReadyQueue Queue Thread]
  {s s' : Scheduler Queue Thread}

/-- Before the scheduler starts, no thread is current. -/
theorem run_startup_current {started : List Thread} (hcurrent : s.current_thread = none)
    (hrun : s.run (started.map .startup) = some s') : s'.current_thread = none := by
  induction started generalizing s with
  | nil =>
      obtain rfl : s = s' := Option.some.inj hrun
      exact hcurrent
  | cons thread rest ih =>
      rw [List.map_cons, run, Option.bind_eq_some_iff] at hrun
      rcases hrun with ⟨next, hstep, hrest⟩
      refine ih ?_ hrest
      rw [step, threadStartup] at hstep
      split at hstep
      · dsimp only at hstep
        rw [threadResume_current, modify_current, if_neg (not_not.mpr hcurrent)] at hstep
        obtain rfl := Option.some.inj hstep
        simpa using hcurrent
      · cases hstep

/-- Afterwards some thread always is. -/
theorem schedule_current (hcurrent : s.current_thread ≠ none) (hschedule : s.schedule = some s') :
    s'.current_thread ≠ none := by
  rw [schedule] at hschedule
  split at hschedule
  · split at hschedule
    · dsimp only at hschedule
      split_ifs at hschedule
      all_goals
        obtain rfl := Option.some.inj hschedule
        simp [hcurrent]
    · cases hschedule
  · obtain rfl := Option.some.inj hschedule
    exact hcurrent

/-- After the start there is a current thread. -/
theorem systemSchedulerStart_current (hstart : s.systemSchedulerStart = some s') :
    s'.current_thread ≠ none := by
  rw [systemSchedulerStart] at hstart
  split at hstart
  · cases hstart
  · obtain rfl := Option.some.inj hstart
    simp

/-- Once there is a current thread there always is one. -/
theorem step_current {event : Event Thread} (hcurrent : s.current_thread ≠ none)
    (hstep : s.step event = some s') : s'.current_thread ≠ none := by
  cases event with
  | startup thread =>
      rw [step, threadStartup] at hstep
      split at hstep
      · dsimp only at hstep
        split at hstep
        · exact schedule_current (by simpa using hcurrent) hstep
        · obtain rfl := Option.some.inj hstep
          simpa using hcurrent
      · cases hstep
  | schedule => exact schedule_current hcurrent hstep
  | yield =>
      rcases Option.bind_eq_some_iff.mp hstep with ⟨current, -, hschedule⟩
      exact schedule_current (by simpa using hcurrent) hschedule
  | suspend =>
      rcases Option.map_eq_some_iff.mp hstep with ⟨current, -, rfl⟩
      rw [threadSuspend]
      split <;> simpa using hcurrent
  | resume thread =>
      obtain rfl := Option.some.inj hstep
      simpa using hcurrent
  | timeout thread =>
      rw [step] at hstep
      split at hstep
      · exact schedule_current (by simpa using hcurrent) hstep
      · cases hstep
  | changePriority thread priority =>
      obtain rfl := Option.some.inj hstep
      rw [threadChangePriority]
      split <;> simpa using hcurrent
  | exit =>
      rcases Option.bind_eq_some_iff.mp hstep with ⟨current, -, hschedule⟩
      exact schedule_current (by simpa using hcurrent) hschedule
  | detach thread =>
      obtain rfl := Option.some.inj hstep
      rw [threadDetach]
      split
      · exact hcurrent
      · split <;> simpa using hcurrent
  | tick =>
      rcases Option.bind_eq_some_iff.mp hstep with ⟨current, -, hticked⟩
      rw [tickIncrease] at hticked
      split at hticked
      · exact schedule_current (by simpa using hcurrent) hticked
      · obtain rfl := Option.some.inj hticked
        exact hcurrent
  | enterCritical =>
      obtain rfl := Option.some.inj hstep
      exact hcurrent
  | exitCritical =>
      rw [step, exitCritical] at hstep
      dsimp only at hstep
      split at hstep
      · exact schedule_current (by simpa using hcurrent) hstep
      · obtain rfl := Option.some.inj hstep
        exact hcurrent

/-- Once there is a current thread no run takes it away. -/
theorem run_current {events : List (Event Thread)} (hcurrent : s.current_thread ≠ none)
    (hrun : s.run events = some s') : s'.current_thread ≠ none := by
  induction events generalizing s with
  | nil =>
      obtain rfl : s = s' := Option.some.inj hrun
      exact hcurrent
  | cons event rest ih =>
      rcases Option.bind_eq_some_iff.mp hrun with ⟨next, hstep, hrest⟩
      exact ih (step_current hcurrent hstep) hrest

/-- A run goes on where another one has ended. -/
theorem run_append (s : Scheduler Queue Thread) (events later : List (Event Thread)) :
    s.run (events ++ later) = (s.run events).bind fun s => s.run later := by
  induction events generalizing s with
  | nil => rfl
  | cons event rest ih =>
      rw [List.cons_append, run, run, Option.bind_assoc]
      exact Option.bind_congr fun next _ => ih next

end Current

section Runs

variable {Thread : Type} [DecidableEq Thread]
  {priority init_tick : Thread → Nat} {started : List Thread} {events : List (Event Thread)}

/-- The table and the list agree when the scheduler starts. -/
theorem Agrees.launch (hpriority : ∀ thread, priority thread < 32) :
    Option.Rel Agrees (launch (emptyTable Thread) priority init_tick started)
      (launch [] priority init_tick started) := by
  have hfits : ∀ event ∈ started.map Event.startup, event.Fits := by
    intro event hmem
    rcases List.mem_map.mp hmem with ⟨thread, -, rfl⟩
    trivial
  have hrel := (Agrees.boot init_tick hpriority).run hfits
  rw [Scheduler.launch, Scheduler.launch]
  match (Scheduler.boot (emptyTable Thread) priority init_tick).run (started.map .startup),
    ha : (Scheduler.boot ([] : List Thread) priority init_tick).run (started.map .startup),
    hrel with
  | _, _, .none => exact .none
  | _, _, .some hnext => exact hnext.systemSchedulerStart (run_startup_current rfl ha)

/-- The table and the list agree in every run of the system. -/
theorem Agrees.system (hpriority : ∀ thread, priority thread < 32)
    (hfits : ∀ event ∈ events, event.Fits) :
    Option.Rel Agrees (system (emptyTable Thread) priority init_tick started events)
      (system [] priority init_tick started events) := by
  rw [Scheduler.system, Scheduler.system]
  match Scheduler.launch (emptyTable Thread) priority init_tick started,
    Scheduler.launch ([] : List Thread) priority init_tick started, Agrees.launch hpriority with
  | _, _, .none => exact .none
  | _, _, .some hlaunched => exact hlaunched.run hfits

/-- The table of lists with the word of bits and the one list of the ready threads never differ:
each thread has the same data, the same one is current, and each list of the table has the threads
of its priority in the order of the list. -/
theorem run_refines_plain (hpriority : ∀ thread, priority thread < 32)
    (hfits : ∀ event ∈ events, event.Fits) :
    Option.Rel (fun s a => Refines s a ∧ ∀ thread,
        thread ∈ a.queue ↔ (s.thread thread).stat = .ready)
      (system (emptyTable Thread) priority init_tick started events)
      (system [] priority init_tick started events) := by
  match Scheduler.system (emptyTable Thread) priority init_tick started events,
    Scheduler.system ([] : List Thread) priority init_tick started events,
    Agrees.system hpriority hfits with
  | _, _, .none => exact .none
  | _, _, .some hagrees =>
      refine .some ⟨hagrees.refines, fun thread => ?_⟩
      rw [hagrees.refines.thread_eq]
      exact hagrees.valid.listed.mem_iff thread

/-- A thread is woken, starts a third one with a higher priority, and lowers it again. -/
theorem run_refines_plain_lowered :
    Option.Rel (fun s a => Refines s a ∧ ∀ thread,
        thread ∈ a.queue ↔ (s.thread thread).stat = .ready)
      (system (emptyTable Nat) (fun thread => 10 - thread % 10) (fun _ => 5) [0]
        [.startup 1, .startup 2, .changePriority 2 11, .schedule])
      (system [] (fun thread => 10 - thread % 10) (fun _ => 5) [0]
        [.startup 1, .startup 2, .changePriority 2 11, .schedule]) :=
  run_refines_plain (fun thread => by omega) (by simp [Event.Fits])

end Runs

end Scheduler
end RtThread
end TestAio
