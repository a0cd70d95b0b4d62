import Mathlib.Algebra.Ring.Nat
import Mathlib.Data.List.Basic
import TestAio.Library.Sleepers

/-!
# Threads that wait

What the objects of {lit}`src/ipc.c` share: the place of a suspended thread in a list, and the
time that a resumed thread has left.

Main results:

- Theorem {lit}`ipcListSuspend_eq`: a thread gets its place by its priority, or as if all threads
  had the same one.

Current gaps:

- The timers of the threads are left out: the time of a thread may be over at any moment.
-/

namespace TestAio
namespace RtThread

open Library

/-- {lit}`RT_IPC_FLAG_FIFO` and {lit}`RT_IPC_FLAG_PRIO`. -/
inductive IpcFlag
  | fifo
  | prio
deriving DecidableEq

/-- The error numbers that the functions answer with. -/
inductive RtError
  | general
  | timeout
  | full
  | invalid
deriving DecidableEq

/-- {lit}`_ipc_list_suspend`: where a thread is put into a list. -/
def ipcListSuspend {Thread : Type} (current_priority : Thread → Nat) (flag : IpcFlag)
    (thread : Thread) (list : List Thread) : List Thread :=
  match flag with
  | .fifo => list ++ [thread]
  | .prio =>
      let front := fun sthread => !decide (current_priority thread < current_priority sthread)
      list.takeWhile front ++ thread :: list.dropWhile front

/-- The priorities that a list is ordered by. -/
def IpcFlag.rank {Thread : Type} (flag : IpcFlag) (current_priority : Thread → Nat) :
    Thread → Nat :=
  match flag with
  | .fifo => fun _ => 0
  | .prio => current_priority

/-- {lit}`_ipc_list_suspend` puts a thread behind those of at least its priority. -/
theorem ipcListSuspend_eq {Thread : Type} (current_priority : Thread → Nat) (flag : IpcFlag)
    (thread : Thread) (list : List Thread) :
    ipcListSuspend current_priority flag thread list =
      Sleepers.insert (flag.rank current_priority) thread list := by
  cases flag with
  | fifo =>
      induction list with
      | nil => rfl
      | cons other rest ih =>
          have hlast : ¬ IpcFlag.fifo.rank current_priority thread <
              IpcFlag.fifo.rank current_priority other := Nat.lt_irrefl 0
          rw [Sleepers.insert_cons, if_neg hlast, ← ih]
          rfl
  | prio => rfl

/-- {lit}`_ipc_list_suspend` adds one thread. -/
theorem ipcListSuspend_perm {Thread : Type} (current_priority : Thread → Nat) (flag : IpcFlag)
    (thread : Thread) (list : List Thread) :
    (ipcListSuspend current_priority flag thread list).Perm (thread :: list) := by
  rw [ipcListSuspend_eq]
  exact Sleepers.insert_perm thread list

/-- {lit}`_ipc_list_resume_all`: the threads of some lists return an error. -/
def ipcListResumeAll {Thread Doing : Type} [DecidableEq Thread] (out : Doing)
    (threads : List Thread) (doing : Thread → Doing) (thread : Thread) : Doing :=
  if thread ∈ threads then out else doing thread

/-- The ticks that are left of a time to wait, in {lit}`rt_int32_t`: a thread that was resumed
counts the ones since it was suspended. -/
def timeLeft (timeout : Int) (woken : Bool) (elapsed : Nat) : Int :=
  if woken = true ∧ 0 < timeout then
    max 0 (Int.bmod (timeout - elapsed) (2 ^ 32))
  else
    timeout

end RtThread
end TestAio
