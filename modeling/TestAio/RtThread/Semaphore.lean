import Mathlib.Algebra.Ring.Nat
import Mathlib.Logic.Function.Basic
import TestAio.RtThread.Ipc

/-!
# Semaphores

The semaphores of {lit}`src/ipc.c` count.  A thread that finds nothing left is suspended on the
semaphore; the one that releases it hands what it gives back to the first suspended thread, and
counts up only when no thread waits.

Main results:

- Theorem {lit}`run_counts`: in every order of the steps the takes succeed exactly as long as
  something is left, and no thread sleeps while something is.
- Theorem {lit}`run_serves_in_order`: the threads of one priority are served in the order in which
  they went to sleep, and those with a higher priority first, as long as no priority changes.

Current gaps:

- Deleting and detaching a semaphore is not modelled.
-/

namespace TestAio
namespace RtThread

open Library

/-- {lit}`RT_SEM_VALUE_MAX`. -/
def rtSemValueMax : Nat := 65535

namespace Semaphore

/-- What the functions have done or answered: a thread took the semaphore at once, went to sleep,
or got it from the one that released it. -/
inductive Entry (Thread : Type)
  | taken (thread : Thread)
  | suspended (thread : Thread)
  | handed (thread : Thread)
  | released
  | full
  | failed (thread : Thread) (errno : RtError)
  | reset (value : Nat)
deriving DecidableEq

/-- What happens: a thread takes the semaphore, someone releases or resets it, the time of a
suspended thread is over, or a thread gets another priority, which leaves it where it sleeps. -/
inductive Event (Thread : Type)
  | take (thread : Thread) (time : Int)
  | release
  | expire (thread : Thread)
  | reset (value : Nat)
  | changePriority (thread : Thread) (priority : Nat)

end Semaphore

/-- {lit}`struct rt_semaphore` with the times of the threads that are suspended on it. -/
structure Semaphore (Thread : Type) where
  value : Nat
  flag : IpcFlag
  suspend_thread : List Thread
  current_priority : Thread → Nat
  suspended : Thread → Option Int

namespace Semaphore

section Functions

variable {Thread : Type} [DecidableEq Thread]

/-- A thread goes to sleep, or goes on. -/
def setSuspended (sem : Semaphore Thread) (thread : Thread) (time : Option Int) :
    Semaphore Thread :=
  { sem with suspended := Function.update sem.suspended thread time }

/-- {lit}`rt_sem_take`; a resumed thread returns what its entry says. -/
def semTake (sem : Semaphore Thread) (thread : Thread) (time : Int) :
    List (Entry Thread) × Semaphore Thread :=
  if 0 < sem.value then
    ([.taken thread], { sem with value := sem.value - 1 })
  else if time = 0 then
    ([.failed thread .timeout], sem)
  else
    ([.suspended thread], { sem with
      suspend_thread :=
        ipcListSuspend sem.current_priority sem.flag thread sem.suspend_thread }.setSuspended
      thread (some time))

/-- {lit}`rt_sem_release`. -/
def semRelease (sem : Semaphore Thread) : List (Entry Thread) × Semaphore Thread :=
  match sem.suspend_thread with
  | thread :: rest =>
      ([.handed thread], { sem with suspend_thread := rest }.setSuspended thread none)
  | [] =>
      if sem.value < rtSemValueMax then
        ([.released], { sem with value := sem.value + 1 })
      else
        ([.full], sem)

/-- {lit}`rt_sem_control` with {lit}`RT_IPC_CMD_RESET`: the suspended threads return an error. -/
def semReset (sem : Semaphore Thread) (value : Nat) : List (Entry Thread) × Semaphore Thread :=
  ((sem.suspend_thread.map fun thread => .failed thread .general) ++ [.reset (value % 2 ^ 16)],
    { sem with
      suspend_thread := []
      suspended := ipcListResumeAll none sem.suspend_thread sem.suspended
      value := value % 2 ^ 16 })

/-- One step; a suspended thread takes nothing, and only a suspended one that does not wait
forever can run out of time. -/
def step (sem : Semaphore Thread) : Event Thread → List (Entry Thread) × Semaphore Thread
  | .take thread time =>
      match sem.suspended thread with
      | none => sem.semTake thread time
      | some _ => ([], sem)
  | .release => sem.semRelease
  | .expire thread =>
      match sem.suspended thread with
      | some time =>
          if 0 < time then
            ([.failed thread .timeout], { sem with
              suspend_thread :=
                sem.suspend_thread.filter fun other => other ≠ thread }.setSuspended thread none)
          else
            ([], sem)
      | none => ([], sem)
  | .reset value => sem.semReset value
  | .changePriority thread priority =>
      ([], { sem with current_priority := Function.update sem.current_priority thread priority })

/-- The steps in some order. -/
def run (sem : Semaphore Thread) : List (Event Thread) → List (Entry Thread) × Semaphore Thread
  | [] => ([], sem)
  | event :: rest =>
      let next := sem.step event
      let result := next.2.run rest
      (next.1 ++ result.1, result.2)

/-- {lit}`rt_sem_init`. -/
def init (value : Nat) (flag : IpcFlag) (current_priority : Thread → Nat) : Semaphore Thread where
  value := value % 2 ^ 16
  flag := flag
  suspend_thread := []
  current_priority := current_priority
  suspended := fun _ => none

end Functions

/-! ## What a semaphore is for -/

/-- What an entry means for what is left; nothing when the entry does not fit: a take at once needs
something that is left, and all that goes wrong or sleeps needs that nothing is. -/
def Entry.apply {Thread : Type} : Entry Thread → Nat → Option Nat
  | .taken _, value => if 0 < value then some (value - 1) else none
  | .suspended _, value => if value = 0 then some 0 else none
  | .handed _, value => if value = 0 then some 0 else none
  | .released, value => if value < rtSemValueMax then some (value + 1) else none
  | .full, value => if value = rtSemValueMax then some value else none
  | .failed _ .timeout, value => if value = 0 then some 0 else none
  | .failed _ _, value => some value
  | .reset value, _ => some value

/-- What is left after all entries of a log. -/
def replay {Thread : Type} (value : Nat) : List (Entry Thread) → Option Nat
  | [] => some value
  | entry :: log => (entry.apply value).bind fun value => replay value log

/-- A log is replayed in parts. -/
theorem replay_append {Thread : Type} (value : Nat) (log log' : List (Entry Thread)) :
    replay value (log ++ log') = (replay value log).bind fun value => replay value log' := by
  induction log generalizing value with
  | nil => rfl
  | cons entry log ih =>
      rw [List.cons_append, replay, replay, Option.bind_assoc]
      congr 1
      funext value
      exact ih value

/-- Calls that fail leave the value as it is. -/
theorem replay_failed {Thread : Type} (value : Nat) (threads : List Thread) :
    replay value (threads.map fun thread => .failed thread .general) = some value := by
  induction threads with
  | nil => rfl
  | cons thread threads ih => exact ih

/-- The threads that went to sleep, in this order. -/
def asked {Thread : Type} (log : List (Entry Thread)) : List Thread :=
  log.filterMap fun
    | .suspended thread => some thread
    | _ => none

/-- The threads that were served while they slept, in this order. -/
def served {Thread : Type} (log : List (Entry Thread)) : List Thread :=
  log.filterMap fun
    | .handed thread => some thread
    | _ => none

section Invariant

variable {Thread : Type} [DecidableEq Thread]

/-- The list has the suspended threads, and there are none while something is left. -/
structure Holds (sem : Semaphore Thread) : Prop where
  value_le : sem.value ≤ rtSemValueMax
  sleepers : Sleepers sem.suspend_thread fun thread => sem.suspended thread ≠ none
  idle : 0 < sem.value → sem.suspend_thread = []

/-- What a step makes of the semaphore and what it adds to the log. -/
structure Follows (sem : Semaphore Thread) (log : List (Entry Thread))
    (sem' : Semaphore Thread) : Prop where
  holds : Holds sem'
  replay_eq : replay sem.value log = some sem'.value

variable {sem sem' sem'' : Semaphore Thread} {log log' : List (Entry Thread)} {thread : Thread}

omit [DecidableEq Thread] in
/-- Nobody sleeps on a new semaphore. -/
theorem Holds.init (value : Nat) (flag : IpcFlag) (current_priority : Thread → Nat) :
    Holds (init value flag current_priority) where
  value_le := Nat.le_of_lt_succ (Nat.mod_lt _ (by decide))
  sleepers := .nil fun _ => not_not.mpr rfl
  idle _ := rfl

omit [DecidableEq Thread] in
/-- A step that does nothing. -/
theorem Follows.refl (h : Holds sem) : Follows sem [] sem :=
  ⟨h, rfl⟩

omit [DecidableEq Thread] in
/-- Two steps one after the other. -/
theorem Follows.trans (h : Follows sem log sem') (h' : Follows sem' log' sem'') :
    Follows sem (log ++ log') sem'' where
  holds := h'.holds
  replay_eq := by rw [replay_append, h.replay_eq, Option.bind_some, h'.replay_eq]

/-- A thread takes what is left, or it fails or sleeps because nothing is. -/
theorem Holds.semTake (h : Holds sem) (hawake : sem.suspended thread = none) (time : Int) :
    Follows sem (sem.semTake thread time).1 (sem.semTake thread time).2 := by
  rw [Semaphore.semTake]
  split
  · next hpos =>
      have hempty := h.idle hpos
      refine ⟨⟨?_, h.sleepers, fun _ => hempty⟩, ?_⟩
      · exact Nat.le_trans (Nat.sub_le _ _) h.value_le
      · rw [replay, Entry.apply, if_pos hpos]
        rfl
  · next hpos =>
      have hzero : sem.value = 0 := Nat.eq_zero_of_not_pos hpos
      split
      · refine ⟨h, ?_⟩
        rw [hzero]
        rfl
      · refine ⟨⟨h.value_le, ?_, fun hpos' => absurd hpos' hpos⟩, ?_⟩
        · exact h.sleepers.join (not_not.mpr hawake) (ipcListSuspend_perm _ _ _ _)
            (Sleepers.update_some sem.suspended thread time)
        · rw [hzero]
          rfl

/-- Whoever is first in the list is served. -/
theorem Holds.semRelease (h : Holds sem) : Follows sem sem.semRelease.1 sem.semRelease.2 := by
  rw [Semaphore.semRelease]
  split
  · next first rest hlist =>
      have hzero : sem.value = 0 := by
        by_contra hne
        have hempty := h.idle (Nat.pos_of_ne_zero hne)
        rw [hlist] at hempty
        cases hempty
      have hsleepers := h.sleepers
      rw [hlist] at hsleepers
      refine ⟨⟨h.value_le, hsleepers.wake (Sleepers.update_none sem.suspended first),
        fun hpos => ?_⟩, ?_⟩
      · rw [hzero] at hpos
        cases hpos
      · rw [hzero]
        rfl
  · next hlist =>
      split
      · next hlt =>
          refine ⟨⟨hlt, h.sleepers, fun _ => hlist⟩, ?_⟩
          rw [replay, Entry.apply, if_pos hlt]
          rfl
      · next hle =>
          refine ⟨h, ?_⟩
          have hfull : sem.value = rtSemValueMax :=
            Nat.le_antisymm h.value_le (Nat.le_of_not_lt hle)
          rw [replay, Entry.apply, if_pos hfull]
          rfl

/-- A thread whose time is over leaves the list. -/
theorem Holds.expire (h : Holds sem) (hasleep : sem.suspended thread ≠ none) :
    Follows sem [.failed thread .timeout] ({ sem with
      suspend_thread := sem.suspend_thread.filter fun other => other ≠ thread }.setSuspended
        thread none) := by
  have hmem : thread ∈ sem.suspend_thread := (h.sleepers.mem_iff thread).mpr hasleep
  have hzero : sem.value = 0 := by
    by_contra hne
    rw [h.idle (Nat.pos_of_ne_zero hne)] at hmem
    cases hmem
  refine ⟨⟨h.value_le, h.sleepers.leave (Sleepers.update_none sem.suspended thread),
    fun hpos => ?_⟩, ?_⟩
  · exact absurd hzero (Nat.ne_of_gt hpos)
  · rw [hzero]
    rfl

/-- A reset wakes all threads. -/
theorem Holds.semReset (h : Holds sem) (value : Nat) :
    Follows sem (sem.semReset value).1 (sem.semReset value).2 := by
  refine ⟨⟨Nat.le_of_lt_succ (Nat.mod_lt _ (by decide)), .nil fun thread => ?_, fun _ => rfl⟩, ?_⟩
  · change ¬ ipcListResumeAll none sem.suspend_thread sem.suspended thread ≠ none
    rw [ipcListResumeAll]
    split
    · simp
    · next hmem => exact mt (h.sleepers.mem_iff thread).mpr hmem
  · change replay _ (_ ++ _) = _
    rw [replay_append, replay_failed]
    rfl

/-- Every step keeps the list and the value in agreement. -/
theorem Holds.step (h : Holds sem) (event : Event Thread) :
    Follows sem (sem.step event).1 (sem.step event).2 := by
  cases event with
  | take thread time =>
      rw [Semaphore.step]
      split
      · next hawake => exact h.semTake hawake time
      · exact .refl h
  | release => exact h.semRelease
  | expire thread =>
      rw [Semaphore.step]
      split
      · next time hasleep =>
          split
          · exact h.expire (by simp [hasleep])
          · exact .refl h
      · exact .refl h
  | reset value => exact h.semReset value
  | changePriority thread priority => exact ⟨⟨h.value_le, h.sleepers, h.idle⟩, rfl⟩

/-- All steps do. -/
theorem Holds.run (h : Holds sem) (events : List (Event Thread)) :
    Follows sem (sem.run events).1 (sem.run events).2 := by
  induction events generalizing sem with
  | nil => exact .refl h
  | cons event rest ih =>
      have hstep := h.step event
      exact hstep.trans (ih hstep.holds)

end Invariant

/-! ## The order of the threads -/

section Order

variable {Thread : Type} [DecidableEq Thread]

/-- The priorities that the list is ordered by. -/
def rank (sem : Semaphore Thread) : Thread → Nat :=
  sem.flag.rank sem.current_priority

/-- The event changes no priority. -/
def Event.Steady : Event Thread → Prop
  | .changePriority _ _ => False
  | _ => True

/-- What a step does to the order in which the threads sleep and are served. -/
structure Serves (sem : Semaphore Thread) (log : List (Entry Thread))
    (sem' : Semaphore Thread) : Prop where
  flag_eq : sem'.flag = sem.flag
  rank_eq : sem'.rank = sem.rank
  sorted : Sleepers.Sorted sem.rank sem'.suspend_thread
  inOrder : ∀ number before woken,
    Sleepers.InOrder before woken (sem.suspend_thread.filter fun thread =>
      sem.rank thread = number) →
    Sleepers.InOrder (before ++ (asked log).filter fun thread => sem.rank thread = number)
      (woken ++ (served log).filter fun thread => sem.rank thread = number)
      (sem'.suspend_thread.filter fun thread => sem.rank thread = number)

variable {sem sem' sem'' : Semaphore Thread} {log log' : List (Entry Thread)}

omit [DecidableEq Thread] in
/-- Nobody goes to sleep or is served. -/
theorem Serves.quiet (hsorted : Sleepers.Sorted sem.rank sem.suspend_thread)
    (hflag : sem'.flag = sem.flag) (hrank : sem'.rank = sem.rank) (hasked : asked log = [])
    (hserved : served log = []) (hsublist : sem'.suspend_thread.Sublist sem.suspend_thread) :
    Serves sem log sem' := by
  refine ⟨hflag, hrank, hsorted.sublist hsublist, fun number before woken hbefore => ?_⟩
  rw [hasked, hserved, List.filter_nil, List.append_nil, List.append_nil]
  exact hbefore.leave (hsublist.filter _)

omit [DecidableEq Thread] in
/-- Two steps one after the other. -/
theorem Serves.trans (h : Serves sem log sem') (h' : Serves sem' log' sem'') :
    Serves sem (log ++ log') sem'' := by
  refine ⟨h'.flag_eq.trans h.flag_eq, h'.rank_eq.trans h.rank_eq, h.rank_eq ▸ h'.sorted,
    fun number before woken hbefore => ?_⟩
  have hlater := h'.inOrder number _ _ (by
    rw [h.rank_eq]
    exact h.inOrder number before woken hbefore)
  rw [h.rank_eq, List.append_assoc, List.append_assoc, ← List.filter_append,
    ← List.filter_append] at hlater
  rw [asked, served, List.filterMap_append, List.filterMap_append]
  exact hlater

/-- A thread that goes to sleep gets the place of its priority. -/
theorem serves_semTake (hsorted : Sleepers.Sorted sem.rank sem.suspend_thread) (thread : Thread)
    (time : Int) : Serves sem (sem.semTake thread time).1 (sem.semTake thread time).2 := by
  rw [Semaphore.semTake]
  split
  · exact .quiet hsorted rfl rfl rfl rfl (List.Sublist.refl _)
  · split
    · exact .quiet hsorted rfl rfl rfl rfl (List.Sublist.refl _)
    · have hplace := ipcListSuspend_eq sem.current_priority sem.flag thread sem.suspend_thread
      refine ⟨rfl, rfl, ?_, fun number before woken hbefore => ?_⟩
      · change Sleepers.Sorted _ (ipcListSuspend _ _ _ _)
        rw [hplace]
        exact Sleepers.insert_sorted thread hsorted
      · change Sleepers.InOrder (before ++ [thread].filter _) (woken ++ [])
          ((ipcListSuspend _ _ _ _).filter _)
        rw [hplace]
        change Sleepers.InOrder _ _ ((Sleepers.insert sem.rank _ _).filter _)
        rw [Sleepers.insert_level thread hsorted, List.filter_append, List.append_nil]
        exact hbefore.join _

/-- The first thread of the list is served. -/
theorem serves_semRelease (hsorted : Sleepers.Sorted sem.rank sem.suspend_thread) :
    Serves sem sem.semRelease.1 sem.semRelease.2 := by
  rw [Semaphore.semRelease]
  split
  · next first rest hlist =>
      rw [hlist] at hsorted
      refine ⟨rfl, rfl, (List.pairwise_cons.mp hsorted).2, fun number before woken hbefore => ?_⟩
      change Sleepers.InOrder (before ++ []) (woken ++ [first].filter _) (rest.filter _)
      rw [hlist, ← List.singleton_append, List.filter_append] at hbefore
      rw [List.append_nil]
      exact hbefore.wake
  · split <;> exact .quiet hsorted rfl rfl rfl rfl (List.Sublist.refl _)

/-- Every step keeps the order, as long as priorities do not change where they count. -/
theorem serves_step (hsorted : Sleepers.Sorted sem.rank sem.suspend_thread) {event : Event Thread}
    (hsteady : sem.flag = .prio → event.Steady) :
    Serves sem (sem.step event).1 (sem.step event).2 := by
  have hsame : Serves sem [] sem := .quiet hsorted rfl rfl rfl rfl (List.Sublist.refl _)
  cases event with
  | take thread time =>
      rw [Semaphore.step]
      split
      · exact serves_semTake hsorted thread time
      · exact hsame
  | release => exact serves_semRelease hsorted
  | expire thread =>
      rw [Semaphore.step]
      split
      · split
        · exact .quiet hsorted rfl rfl rfl rfl List.filter_sublist
        · exact hsame
      · exact hsame
  | reset value =>
      refine .quiet hsorted rfl rfl ?_ ?_ (List.nil_sublist _)
      · simp [Semaphore.step, Semaphore.semReset, asked]
      · simp [Semaphore.step, Semaphore.semReset, served]
  | changePriority thread priority =>
      have hfifo : sem.flag = .fifo := by
        cases hflag : sem.flag with
        | fifo => rfl
        | prio => exact (hsteady hflag).elim
      refine .quiet hsorted rfl ?_ rfl rfl (List.Sublist.refl _)
      rw [rank, rank, Semaphore.step, hfifo]
      rfl

/-- All steps do. -/
theorem serves_run (hsorted : Sleepers.Sorted sem.rank sem.suspend_thread)
    {events : List (Event Thread)} (hsteady : sem.flag = .prio → ∀ event ∈ events, event.Steady) :
    Serves sem (sem.run events).1 (sem.run events).2 := by
  induction events generalizing sem with
  | nil => exact .quiet hsorted rfl rfl rfl rfl (List.Sublist.refl _)
  | cons event rest ih =>
      have hstep := serves_step hsorted fun hflag => hsteady hflag event List.mem_cons_self
      refine hstep.trans (ih (hstep.rank_eq ▸ hstep.sorted) fun hflag other hother => ?_)
      exact hsteady (hstep.flag_eq ▸ hflag) other (List.mem_cons_of_mem event hother)

end Order

section Runs

variable {Thread : Type} [DecidableEq Thread]

/-- In every order of the steps the threads that were served while they slept, and then the ones
that still sleep, went to sleep in this order, those of one priority among each other; the ones
with a higher priority sleep at the front of the list, which the next one is taken from.  Where
the list goes by priorities they must not change.  Without priorities all threads are of the same
one. -/
theorem run_serves_in_order (value : Nat) (flag : IpcFlag) (current_priority : Thread → Nat)
    {events : List (Event Thread)} (hsteady : flag = .prio → ∀ event ∈ events, event.Steady) :
    let result := (init value flag current_priority).run events
    Sleepers.Sorted (flag.rank current_priority) result.2.suspend_thread ∧
      ∀ number, Sleepers.InOrder
        ((asked result.1).filter fun thread => flag.rank current_priority thread = number)
        ((served result.1).filter fun thread => flag.rank current_priority thread = number)
        (result.2.suspend_thread.filter fun thread =>
          flag.rank current_priority thread = number) := by
  have hsorted : Sleepers.Sorted (init value flag current_priority).rank
      (init value flag current_priority).suspend_thread := .nil
  have hserves := serves_run hsorted hsteady
  exact ⟨hserves.sorted, fun number => hserves.inOrder number [] [] .nil⟩

/-- Four threads sleep, the second one of them is served and the last one gives up. -/
theorem run_serves_in_order_four :
    let result := (init 0 .prio fun thread => thread / 2).run
      [.take 4 (-1), .take 2 (-1), .take 3 9, .take 5 7, .release, .expire 5]
    Sleepers.Sorted (IpcFlag.prio.rank fun thread => thread / 2) result.2.suspend_thread ∧
      ∀ number, Sleepers.InOrder
        ((asked result.1).filter fun thread =>
          IpcFlag.prio.rank (fun thread => thread / 2) thread = number)
        ((served result.1).filter fun thread =>
          IpcFlag.prio.rank (fun thread => thread / 2) thread = number)
        (result.2.suspend_thread.filter fun thread =>
          IpcFlag.prio.rank (fun thread => thread / 2) thread = number) :=
  run_serves_in_order 0 .prio _ fun _ => by simp [Event.Steady]

-- A thread that gets a higher priority stays behind the others.
example : ((init 0 .prio fun thread => thread).run
    [.take 3 (-1), .take 5 (-1), .changePriority 5 1]).2.suspend_thread = [3, 5] := by
  decide

end Runs

end Semaphore
end RtThread
end TestAio
