import Mathlib.Algebra.Ring.Nat
import Mathlib.Data.Fintype.Basic
import Mathlib.Logic.Function.Basic
import TestAio.Library.Locks
import TestAio.RtThread.Ipc

/-!
# Mutexes

The mutexes of {lit}`src/ipc.c` have an owner, which may take them again and has to release them
as often.  A thread that waits for a mutex lends its priority to the owner, and gets the mutex
from it.

Main results:

- Theorem {lit}`run_excludes`: in every order of the steps, with any number of mutexes, only the
  owner has taken a mutex more often than it released it.
- Theorem {lit}`run_hands_over`: no thread sleeps on a mutex without an owner.
- Theorem {lit}`run_inherits`: when no thread takes a mutex while it owns another one, no owner
  has a lower priority than a thread that waits for its mutex, and every other thread has its own
  priority.

Current gaps:

- Deleting and detaching a mutex is not modelled.
-/

namespace TestAio
namespace RtThread

open Library Library.Locks

/-- {lit}`RT_MUTEX_VALUE_MAX`. -/
def rtMutexValueMax : Nat := 65535

/-- {lit}`RT_MUTEX_HOLD_MAX`. -/
def rtMutexHoldMax : Nat := 255

/-- {lit}`struct rt_mutex`. -/
structure Mutex (Thread : Type) where
  value : Nat
  owner : Option Thread
  original_priority : Nat
  hold : Nat
  suspend_thread : List Thread

namespace Mutexes

/-- What the functions have done or answered. -/
inductive Entry (Id Thread : Type)
  | taken (thread : Thread) (mutex : Id)
  | released (thread : Thread) (mutex : Id)
  | failed (thread : Thread) (mutex : Id) (errno : RtError)
deriving DecidableEq

/-- What happens: a thread takes or releases a mutex, or the time of a suspended one is over. -/
inductive Event (Id Thread : Type)
  | take (thread : Thread) (mutex : Id) (time : Int)
  | release (thread : Thread) (mutex : Id)
  | expire (thread : Thread)

end Mutexes

/-- The mutexes, the priorities of the threads, and which mutex a suspended thread waits for and
how long. -/
structure Mutexes (Id Thread : Type) where
  mutex : Id → Mutex Thread
  current_priority : Thread → Nat
  suspended : Thread → Option (Id × Int)

namespace Mutexes

section Functions

variable {Id Thread : Type} [DecidableEq Id] [DecidableEq Thread]

/-- A mutex changes. -/
def setMutex (s : Mutexes Id Thread) (id : Id) (mutex : Mutex Thread) : Mutexes Id Thread :=
  { s with mutex := Function.update s.mutex id mutex }

/-- {lit}`rt_thread_control` with {lit}`RT_THREAD_CTRL_CHANGE_PRIORITY`. -/
def changePriority (s : Mutexes Id Thread) (thread : Thread) (priority : Nat) :
    Mutexes Id Thread :=
  { s with current_priority := Function.update s.current_priority thread priority }

/-- A thread goes to sleep, or goes on. -/
def setSuspended (s : Mutexes Id Thread) (thread : Thread) (time : Option (Id × Int)) :
    Mutexes Id Thread :=
  { s with suspended := Function.update s.suspended thread time }

/-- A thread that is going to wait lends its priority to the owner. -/
def lendPriority (s : Mutexes Id Thread) (thread owner : Thread) : Mutexes Id Thread :=
  if s.current_priority thread < s.current_priority owner then
    s.changePriority owner (s.current_priority thread)
  else
    s

/-- The owner gets its priority back. -/
def restorePriority (s : Mutexes Id Thread) (owner : Thread) (original_priority : Nat) :
    Mutexes Id Thread :=
  if original_priority ≠ s.current_priority owner then
    s.changePriority owner original_priority
  else
    s

/-- {lit}`rt_mutex_take`; nothing when a null pointer is followed. -/
def mutexTake (s : Mutexes Id Thread) (thread : Thread) (id : Id) (time : Int) :
    Option (List (Entry Id Thread) × Mutexes Id Thread) :=
  let mutex := s.mutex id
  if mutex.owner = some thread then
    if mutex.hold < rtMutexHoldMax then
      some ([.taken thread id], s.setMutex id { mutex with hold := mutex.hold + 1 })
    else
      some ([.failed thread id .full], s)
  else if 0 < mutex.value then
    let mutex := { mutex with
      value := mutex.value - 1
      owner := some thread
      original_priority := s.current_priority thread }
    if mutex.hold < rtMutexHoldMax then
      some ([.taken thread id], s.setMutex id { mutex with hold := mutex.hold + 1 })
    else
      some ([.failed thread id .full], s.setMutex id mutex)
  else if time = 0 then
    some ([.failed thread id .timeout], s)
  else
    match mutex.owner with
    | none => none
    | some owner =>
        let s := s.lendPriority thread owner
        some ([], (s.setMutex id { mutex with
          suspend_thread :=
            ipcListSuspend s.current_priority .prio thread mutex.suspend_thread }).setSuspended
          thread (some (id, time)))

/-- {lit}`rt_mutex_release`. -/
def mutexRelease (s : Mutexes Id Thread) (thread : Thread) (id : Id) :
    List (Entry Id Thread) × Mutexes Id Thread :=
  let mutex := s.mutex id
  if mutex.owner = some thread then
    let mutex := { mutex with hold := (mutex.hold + 2 ^ 8 - 1) % 2 ^ 8 }
    if mutex.hold = 0 then
      let s := s.restorePriority thread mutex.original_priority
      match mutex.suspend_thread with
      | first :: rest =>
          let mutex := { mutex with
            owner := some first
            original_priority := s.current_priority first }
          if mutex.hold < rtMutexHoldMax then
            ([.released thread id, .taken first id], (s.setMutex id { mutex with
              hold := mutex.hold + 1
              suspend_thread := rest }).setSuspended first none)
          else
            ([.failed thread id .full], s.setMutex id mutex)
      | [] =>
          if mutex.value < rtMutexValueMax then
            ([.released thread id], s.setMutex id { mutex with
              value := mutex.value + 1
              owner := none
              original_priority := 0xff })
          else
            ([.failed thread id .full], s.setMutex id mutex)
    else
      ([.released thread id], s.setMutex id mutex)
  else
    ([.failed thread id .general], s)

/-- One step; a suspended thread calls nothing, and only a suspended one that does not wait
forever can run out of time. -/
def step (s : Mutexes Id Thread) :
    Event Id Thread → Option (List (Entry Id Thread) × Mutexes Id Thread)
  | .take thread id time =>
      match s.suspended thread with
      | none => s.mutexTake thread id time
      | some _ => some ([], s)
  | .release thread id =>
      match s.suspended thread with
      | none => some (s.mutexRelease thread id)
      | some _ => some ([], s)
  | .expire thread =>
      match s.suspended thread with
      | some (id, time) =>
          if 0 < time then
            some ([.failed thread id .timeout], (s.setMutex id { s.mutex id with
              suspend_thread :=
                (s.mutex id).suspend_thread.filter fun other => other ≠ thread }).setSuspended
              thread none)
          else
            some ([], s)
      | none => some ([], s)

/-- The steps in some order. -/
def run (s : Mutexes Id Thread) :
    List (Event Id Thread) → Option (List (Entry Id Thread) × Mutexes Id Thread)
  | [] => some ([], s)
  | event :: rest =>
      match s.step event with
      | none => none
      | some (log, s) => (s.run rest).map fun result => (log ++ result.1, result.2)

/-- {lit}`rt_mutex_init` for each mutex. -/
def init (priority : Thread → Nat) : Mutexes Id Thread where
  mutex := fun _ => {
    value := 1
    owner := none
    original_priority := 0xff
    hold := 0
    suspend_thread := [] }
  current_priority := priority
  suspended := fun _ => none

end Functions

/-! ## What a mutex is for -/

/-- What the entries of a log say about a mutex. -/
def actions {Id Thread : Type} [DecidableEq Id] (mutex : Id) (log : List (Entry Id Thread)) :
    List (Action Thread) :=
  log.filterMap fun
    | .taken thread id => if id = mutex then some (.acquire thread) else none
    | .released thread id => if id = mutex then some (.release thread) else none
    | .failed _ _ _ => none

/-- The owner and how often it has taken the mutex. -/
def holder {Thread : Type} (mutex : Mutex Thread) : Lock Thread :=
  mutex.owner.map fun owner => (owner, mutex.hold)

/-- A mutex is free, and nobody waits, or it has an owner that does not wait for it. -/
structure Sound {Thread : Type} (mutex : Mutex Thread) : Prop where
  value_eq : mutex.value = if mutex.owner = none then 1 else 0
  hold_le : mutex.hold ≤ rtMutexHoldMax
  hold_pos : mutex.owner ≠ none ↔ 0 < mutex.hold
  free : mutex.owner = none → mutex.suspend_thread = []
  own : ∀ thread, mutex.owner = some thread → thread ∉ mutex.suspend_thread

section Invariant

variable {Id Thread : Type} [DecidableEq Id] [DecidableEq Thread]

/-- Each suspended thread is in the list of the mutex that it waits for, and only there. -/
structure Holds (s : Mutexes Id Thread) : Prop where
  sound : ∀ id, Sound (s.mutex id)
  sleepers : ∀ id, Sleepers (s.mutex id).suspend_thread fun thread =>
    ∃ time, s.suspended thread = some (id, time)

/-- What a step makes of the mutexes and what it adds to the log. -/
structure Follows (s : Mutexes Id Thread) (log : List (Entry Id Thread))
    (s' : Mutexes Id Thread) : Prop where
  holds : Holds s'
  replay_eq : ∀ id, replay (holder (s.mutex id)) (actions id log) = some (holder (s'.mutex id))

variable {s s' s'' : Mutexes Id Thread} {log log' : List (Entry Id Thread)} {thread : Thread}
  {id : Id}

omit [DecidableEq Id] [DecidableEq Thread] in
/-- At first no mutex has an owner. -/
theorem Holds.init (priority : Thread → Nat) : Holds (init priority : Mutexes Id Thread) where
  sound _ := {
    value_eq := rfl
    hold_le := Nat.zero_le _
    hold_pos := iff_of_false (not_not.mpr rfl) (Nat.lt_irrefl 0)
    free := fun _ => rfl
    own := fun _ howner => nomatch howner }
  sleepers _ := .nil fun _ hasleep => nomatch hasleep.choose_spec

omit [DecidableEq Thread] in
/-- The actions of two logs in a row. -/
theorem actions_append (mutex : Id) (log log' : List (Entry Id Thread)) :
    actions mutex (log ++ log') = actions mutex log ++ actions mutex log' :=
  List.filterMap_append

/-- Nothing happens to any mutex. -/
theorem Follows.quiet (h : Holds s) (hlog : ∀ id, actions id log = []) : Follows s log s where
  holds := h
  replay_eq id := by
    rw [hlog]
    rfl

/-- One thing happens after another. -/
theorem Follows.trans (h : Follows s log s') (h' : Follows s' log' s'') :
    Follows s (log ++ log') s'' where
  holds := h'.holds
  replay_eq id := by
    rw [actions_append, Locks.replay_append, h.replay_eq, Option.bind_some, h'.replay_eq]

/-- One mutex changes, and the threads that wait for it. -/
theorem Follows.set (h : Holds s) {mutex : Mutex Thread}
    (hmutex : s'.mutex = Function.update s.mutex id mutex) (hsound : Sound mutex)
    (hsleepers : Sleepers mutex.suspend_thread fun thread =>
      ∃ time, s'.suspended thread = some (id, time))
    (hothers : ∀ other, other ≠ id → ∀ thread time,
      s'.suspended thread = some (other, time) ↔ s.suspended thread = some (other, time))
    (hlog : ∀ other, other ≠ id → actions other log = [])
    (hreplay : replay (holder (s.mutex id)) (actions id log) = some (holder mutex)) :
    Follows s log s' := by
  constructor
  · refine ⟨fun other => ?_, fun other => ?_⟩
    · rw [hmutex]
      by_cases heq : other = id
      · subst heq
        rw [Function.update_self]
        exact hsound
      · rw [Function.update_of_ne heq]
        exact h.sound other
    · rw [hmutex]
      by_cases heq : other = id
      · subst heq
        rw [Function.update_self]
        exact hsleepers
      · rw [Function.update_of_ne heq]
        simp only [hothers other heq]
        exact h.sleepers other
  · intro other
    rw [hmutex]
    by_cases heq : other = id
    · subst heq
      rw [Function.update_self]
      exact hreplay
    · rw [Function.update_of_ne heq, hlog other heq]
      rfl

/-! ## One step -/

omit [DecidableEq Id] in
@[simp] theorem lendPriority_mutex (s : Mutexes Id Thread) (thread owner : Thread) :
    (s.lendPriority thread owner).mutex = s.mutex := by
  rw [lendPriority]
  split <;> rfl

omit [DecidableEq Id] in
@[simp] theorem lendPriority_suspended (s : Mutexes Id Thread) (thread owner : Thread) :
    (s.lendPriority thread owner).suspended = s.suspended := by
  rw [lendPriority]
  split <;> rfl

omit [DecidableEq Id] in
@[simp] theorem restorePriority_mutex (s : Mutexes Id Thread) (owner : Thread)
    (original_priority : Nat) : (s.restorePriority owner original_priority).mutex = s.mutex := by
  rw [restorePriority]
  split <;> rfl

omit [DecidableEq Id] in
@[simp] theorem restorePriority_suspended (s : Mutexes Id Thread) (owner : Thread)
    (original_priority : Nat) :
    (s.restorePriority owner original_priority).suspended = s.suspended := by
  rw [restorePriority]
  split <;> rfl

/-- What taking a mutex does: nothing, or the owner takes it again, or a thread takes a free one,
or it goes to sleep. -/
theorem Holds.mutexTake_cases (h : Holds s) (thread : Thread) (id : Id) (time : Int) :
    (∃ errno, s.mutexTake thread id time = some ([.failed thread id errno], s)) ∨
    ((s.mutex id).owner = some thread ∧ (s.mutex id).hold < rtMutexHoldMax ∧
      s.mutexTake thread id time = some ([.taken thread id],
        s.setMutex id { s.mutex id with hold := (s.mutex id).hold + 1 })) ∨
    ((s.mutex id).owner = none ∧
      s.mutexTake thread id time = some ([.taken thread id], s.setMutex id { s.mutex id with
        value := (s.mutex id).value - 1
        owner := some thread
        original_priority := s.current_priority thread
        hold := (s.mutex id).hold + 1 })) ∨
    ∃ owner, (s.mutex id).owner = some owner ∧ owner ≠ thread ∧
      s.mutexTake thread id time = some ([], ((s.lendPriority thread owner).setMutex id
        { s.mutex id with
          suspend_thread := ipcListSuspend (s.lendPriority thread owner).current_priority .prio
            thread (s.mutex id).suspend_thread }).setSuspended thread (some (id, time))) := by
  have hsound := h.sound id
  rw [Mutexes.mutexTake]
  by_cases howner : (s.mutex id).owner = some thread
  · rw [if_pos howner]
    split
    · next hlt => exact .inr (.inl ⟨howner, hlt, rfl⟩)
    · exact .inl ⟨.full, rfl⟩
  · rw [if_neg howner]
    by_cases hfree : (s.mutex id).owner = none
    · have hvalue : 0 < (s.mutex id).value := by
        rw [hsound.value_eq, if_pos hfree]
        exact Nat.one_pos
      have hhold : (s.mutex id).hold < rtMutexHoldMax := by
        rw [Nat.eq_zero_of_not_pos (mt hsound.hold_pos.mpr (not_not.mpr hfree))]
        decide
      rw [if_pos hvalue]
      dsimp only
      rw [if_pos hhold]
      exact .inr (.inr (.inl ⟨hfree, rfl⟩))
    · have hvalue : ¬ 0 < (s.mutex id).value := by
        rw [hsound.value_eq, if_neg hfree]
        exact Nat.lt_irrefl 0
      rw [if_neg hvalue]
      split
      · exact .inl ⟨.timeout, rfl⟩
      · split
        · next hnone => exact absurd hnone hfree
        · next owner hsome =>
            refine .inr (.inr (.inr ⟨owner, hsome, ?_, rfl⟩))
            rintro rfl
            exact howner hsome

/-- What releasing a mutex does: nothing, or the owner keeps it, or the first thread that waits
owns it, or nobody does. -/
theorem Holds.mutexRelease_cases (h : Holds s) (thread : Thread) (id : Id) :
    (s.mutexRelease thread id = ([.failed thread id .general], s)) ∨
    (s.mutex id).owner = some thread ∧
      ((1 < (s.mutex id).hold ∧ s.mutexRelease thread id = ([.released thread id],
        s.setMutex id { s.mutex id with hold := (s.mutex id).hold - 1 })) ∨
      ((s.mutex id).hold = 1 ∧ ∃ log s', s.mutexRelease thread id = (log, s') ∧
        s'.current_priority =
          (s.restorePriority thread (s.mutex id).original_priority).current_priority ∧
        ((∃ first rest, (s.mutex id).suspend_thread = first :: rest ∧
            log = [.released thread id, .taken first id] ∧
            s'.mutex = Function.update s.mutex id { s.mutex id with
              owner := some first
              original_priority := s'.current_priority first
              hold := 1
              suspend_thread := rest } ∧
            s'.suspended = Function.update s.suspended first none) ∨
          ((s.mutex id).suspend_thread = [] ∧ log = [.released thread id] ∧
            s'.mutex = Function.update s.mutex id { s.mutex id with
              value := (s.mutex id).value + 1
              owner := none
              original_priority := 0xff
              hold := 0 } ∧
            s'.suspended = s.suspended)))) := by
  have hsound := h.sound id
  rw [Mutexes.mutexRelease]
  by_cases howner : (s.mutex id).owner = some thread
  · have hpos : 0 < (s.mutex id).hold := hsound.hold_pos.mp (by simp [howner])
    have hle : (s.mutex id).hold ≤ 255 := hsound.hold_le
    have hhold : ((s.mutex id).hold + 2 ^ 8 - 1) % 2 ^ 8 = (s.mutex id).hold - 1 := by omega
    right
    refine ⟨howner, ?_⟩
    rw [if_pos howner]
    dsimp only
    rw [hhold]
    by_cases hlast : (s.mutex id).hold = 1
    · have hzero : (s.mutex id).hold - 1 = 0 := by rw [hlast]
      have hmax : (s.mutex id).hold - 1 < rtMutexHoldMax := by
        rw [hzero]
        decide
      refine .inr ⟨hlast, ?_⟩
      rw [if_pos hzero]
      cases hlist : (s.mutex id).suspend_thread with
      | nil =>
          have hvalue : (s.mutex id).value < rtMutexValueMax := by
            rw [hsound.value_eq, howner, if_neg (by simp)]
            decide
          dsimp only
          rw [if_pos hvalue]
          refine ⟨_, _, rfl, rfl, .inr ⟨rfl, rfl, ?_, ?_⟩⟩
          · simp [setMutex, hzero]
          · simp [setMutex]
      | cons first rest =>
          dsimp only
          rw [if_pos hmax]
          refine ⟨_, _, rfl, rfl, .inl ⟨first, rest, rfl, rfl, ?_, ?_⟩⟩
          · simp [setMutex, setSuspended, hzero]
          · simp [setMutex, setSuspended]
    · rw [if_neg (by omega)]
      exact .inl ⟨by omega, rfl⟩
  · rw [if_neg howner]
    exact .inl rfl

/-- The owner takes its mutex again. -/
theorem Holds.again (h : Holds s) (howner : (s.mutex id).owner = some thread)
    (hlt : (s.mutex id).hold < rtMutexHoldMax) :
    Follows s [.taken thread id]
      (s.setMutex id { s.mutex id with hold := (s.mutex id).hold + 1 }) := by
  have hsound := h.sound id
  refine .set h rfl ⟨hsound.value_eq, hlt, ?_, hsound.free, hsound.own⟩ (h.sleepers id)
    (fun _ _ _ _ => Iff.rfl) (fun other hne => ?_) ?_
  · exact iff_of_true (by simp [howner]) (Nat.succ_pos _)
  · simp [actions, hne.symm]
  · simp [holder, howner, actions, replay, Action.apply]

/-- A thread takes a free mutex. -/
theorem Holds.takeFree (h : Holds s) (hfree : (s.mutex id).owner = none) :
    Follows s [.taken thread id] (s.setMutex id { s.mutex id with
      value := (s.mutex id).value - 1
      owner := some thread
      original_priority := s.current_priority thread
      hold := (s.mutex id).hold + 1 }) := by
  have hsound := h.sound id
  have hvalue : (s.mutex id).value = 1 := by rw [hsound.value_eq, if_pos hfree]
  have hhold : (s.mutex id).hold = 0 :=
    Nat.eq_zero_of_not_pos (mt hsound.hold_pos.mpr (not_not.mpr hfree))
  have hempty := hsound.free hfree
  refine .set h rfl ⟨?_, ?_, ?_, fun hnone => (nomatch hnone), fun other _ => ?_⟩
    (h.sleepers id) (fun _ _ _ _ => Iff.rfl) (fun other hne => ?_) ?_
  · rw [if_neg (by simp)]
    simp only [hvalue]
  · simp only [hhold]
    decide
  · exact iff_of_true (by simp) (Nat.succ_pos _)
  · simp [hempty]
  · simp [actions, hne.symm]
  · simp [holder, hfree, hhold, actions, replay, Action.apply]

/-- A thread goes to sleep on a mutex of another one. -/
theorem Holds.suspend (h : Holds s) {owner : Thread} (howner : (s.mutex id).owner = some owner)
    (hne : owner ≠ thread) (hawake : s.suspended thread = none)
    (current_priority : Thread → Nat) (time : Int)
    (hmutex : s'.mutex = Function.update s.mutex id { s.mutex id with
      suspend_thread :=
        ipcListSuspend current_priority .prio thread (s.mutex id).suspend_thread })
    (hsuspended : s'.suspended = Function.update s.suspended thread (some (id, time))) :
    Follows s [] s' := by
  have hsound := h.sound id
  have hperm := ipcListSuspend_perm current_priority .prio thread (s.mutex id).suspend_thread
  refine .set h hmutex ⟨hsound.value_eq, hsound.hold_le, hsound.hold_pos, fun hnone => ?_,
    fun other hother => ?_⟩ ((h.sleepers id).join ?_ hperm fun other => ?_)
    (fun other hother thread' time' => ?_) (fun _ _ => rfl) rfl
  · rw [howner] at hnone
    cases hnone
  · rw [hperm.mem_iff, List.mem_cons]
    rintro (rfl | hmem)
    · exact hne (Option.some.inj (howner.symm.trans hother))
    · exact hsound.own other hother hmem
  · rintro ⟨time', hasleep⟩
    rw [hawake] at hasleep
    cases hasleep
  · rw [hsuspended]
    by_cases heq : other = thread
    · subst heq
      simp
    · simp [heq]
  · rw [hsuspended]
    by_cases heq : thread' = thread
    · subst heq
      simp [hawake, hother.symm]
    · simp [heq]

/-- The owner releases its mutex, but has taken it more often. -/
theorem Holds.releaseOnce (h : Holds s) (howner : (s.mutex id).owner = some thread)
    (hmore : 1 < (s.mutex id).hold) :
    Follows s [.released thread id]
      (s.setMutex id { s.mutex id with hold := (s.mutex id).hold - 1 }) := by
  have hsound := h.sound id
  refine .set h rfl ⟨hsound.value_eq, ?_, ?_, hsound.free, hsound.own⟩ (h.sleepers id)
    (fun _ _ _ _ => Iff.rfl) (fun other hne => ?_) ?_
  · exact Nat.le_trans (Nat.sub_le _ _) hsound.hold_le
  · exact iff_of_true (by simp [howner]) (Nat.sub_pos_of_lt hmore)
  · simp [actions, hne.symm]
  · simp [holder, howner, actions, replay, Action.apply, Nat.not_le_of_lt hmore]

/-- The owner releases its mutex, and the first thread that waits owns it. -/
theorem Holds.handOver (h : Holds s) (howner : (s.mutex id).owner = some thread)
    (hlast : (s.mutex id).hold = 1) {first : Thread} {rest : List Thread}
    (hlist : (s.mutex id).suspend_thread = first :: rest) (original_priority : Nat)
    (hmutex : s'.mutex = Function.update s.mutex id { s.mutex id with
      owner := some first
      original_priority := original_priority
      hold := 1
      suspend_thread := rest })
    (hsuspended : s'.suspended = Function.update s.suspended first none) :
    Follows s [.released thread id, .taken first id] s' := by
  have hsound := h.sound id
  have hsleepers := h.sleepers id
  rw [hlist] at hsleepers
  rcases (hsleepers.mem_iff first).mp List.mem_cons_self with ⟨time, hfirst⟩
  have hone : 1 ≤ rtMutexHoldMax := by decide
  refine .set h hmutex ⟨?_, hone, iff_of_true (by simp) Nat.one_pos,
    fun hnone => (nomatch hnone), fun other hother => ?_⟩ (hsleepers.wake fun other => ?_)
    (fun other hother thread' time' => ?_) (fun other hne => ?_) ?_
  · rw [hsound.value_eq, howner]
    simp
  · obtain rfl := Option.some.inj hother
    exact (List.nodup_cons.mp hsleepers.nodup).1
  · rw [hsuspended]
    by_cases heq : other = first
    · subst heq
      simp
    · simp [heq]
  · rw [hsuspended]
    by_cases heq : thread' = first
    · subst heq
      simp [hfirst, hother.symm]
    · simp [heq]
  · simp [actions, hne.symm]
  · simp [holder, howner, hlast, actions, replay, Action.apply]

/-- The owner releases its mutex, and nobody waits. -/
theorem Holds.releaseLast (h : Holds s) (howner : (s.mutex id).owner = some thread)
    (hlast : (s.mutex id).hold = 1) (hlist : (s.mutex id).suspend_thread = [])
    (hmutex : s'.mutex = Function.update s.mutex id { s.mutex id with
      value := (s.mutex id).value + 1
      owner := none
      original_priority := 0xff
      hold := 0 })
    (hsuspended : s'.suspended = s.suspended) : Follows s [.released thread id] s' := by
  have hsound := h.sound id
  refine .set h hmutex ⟨?_, Nat.zero_le _, iff_of_false (by simp) (Nat.lt_irrefl 0),
    fun _ => hlist, fun _ hnone => (nomatch hnone)⟩ ?_ (fun _ _ _ _ => by rw [hsuspended])
    (fun other hne => ?_) ?_
  · rw [hsound.value_eq, howner]
    simp
  · rw [hsuspended]
    exact h.sleepers id
  · simp [actions, hne.symm]
  · simp [holder, howner, hlast, actions, replay, Action.apply]

/-- A thread that gives up leaves the list of its mutex. -/
theorem Holds.expire (h : Holds s) {time : Int} (hasleep : s.suspended thread = some (id, time)) :
    Follows s [.failed thread id .timeout] ((s.setMutex id { s.mutex id with
      suspend_thread :=
        (s.mutex id).suspend_thread.filter fun other => other ≠ thread }).setSuspended
      thread none) := by
  have hsound := h.sound id
  refine .set h rfl ⟨hsound.value_eq, hsound.hold_le, hsound.hold_pos, fun hnone => ?_,
    fun other hother hmem => ?_⟩ ((h.sleepers id).leave fun other => ?_)
    (fun other hother thread' time' => ?_) (fun _ _ => rfl) rfl
  · simp [hsound.free hnone]
  · exact hsound.own other hother (List.mem_of_mem_filter hmem)
  · by_cases heq : other = thread
    · subst heq
      simp [setSuspended]
    · simp [setSuspended, setMutex, heq]
  · by_cases heq : thread' = thread
    · subst heq
      simp [setSuspended, hasleep, hother.symm]
    · simp [setSuspended, setMutex, heq]

/-- {lit}`rt_mutex_take` succeeds and keeps the invariant. -/
theorem Holds.mutexTake (h : Holds s) (hawake : s.suspended thread = none) (id : Id)
    (time : Int) : ∃ log s', s.mutexTake thread id time = some (log, s') ∧ Follows s log s' := by
  rcases h.mutexTake_cases thread id time with ⟨errno, heq⟩ | ⟨howner, hlt, heq⟩ |
    ⟨hfree, heq⟩ | ⟨owner, howner, hne, heq⟩
  · exact ⟨_, _, heq, .quiet h fun _ => rfl⟩
  · exact ⟨_, _, heq, h.again howner hlt⟩
  · exact ⟨_, _, heq, h.takeFree hfree⟩
  · refine ⟨_, _, heq, h.suspend howner hne hawake
      (s.lendPriority thread owner).current_priority time ?_ ?_⟩
    · simp [setMutex, setSuspended]
    · simp [setMutex, setSuspended]

/-- {lit}`rt_mutex_release` keeps the invariant. -/
theorem Holds.mutexRelease (h : Holds s) (thread : Thread) (id : Id) :
    Follows s (s.mutexRelease thread id).1 (s.mutexRelease thread id).2 := by
  rcases h.mutexRelease_cases thread id with heq | ⟨howner, ⟨hmore, heq⟩ | ⟨hlast, log, s', heq, -,
    ⟨first, rest, hlist, rfl, hmutex, hsuspended⟩ | ⟨hlist, rfl, hmutex, hsuspended⟩⟩⟩
  · rw [heq]
    exact .quiet h fun _ => rfl
  · rw [heq]
    exact h.releaseOnce howner hmore
  · rw [heq]
    exact h.handOver howner hlast hlist _ hmutex hsuspended
  · rw [heq]
    exact h.releaseLast howner hlast hlist hmutex hsuspended

/-- Each step succeeds and keeps the invariant. -/
theorem Holds.step (h : Holds s) (event : Event Id Thread) :
    ∃ log s', s.step event = some (log, s') ∧ Follows s log s' := by
  cases event with
  | take thread id time =>
      rw [Mutexes.step]
      split
      · next hawake => exact h.mutexTake hawake id time
      · exact ⟨_, _, rfl, .quiet h fun _ => rfl⟩
  | release thread id =>
      rw [Mutexes.step]
      split
      · exact ⟨_, _, rfl, h.mutexRelease thread id⟩
      · exact ⟨_, _, rfl, .quiet h fun _ => rfl⟩
  | expire thread =>
      rw [Mutexes.step]
      split
      · next id time hasleep =>
          split
          · exact ⟨_, _, rfl, h.expire hasleep⟩
          · exact ⟨_, _, rfl, .quiet h fun _ => rfl⟩
      · exact ⟨_, _, rfl, .quiet h fun _ => rfl⟩

/-- The steps in any order succeed and keep the invariant. -/
theorem Holds.run (h : Holds s) (events : List (Event Id Thread)) :
    ∃ log s', s.run events = some (log, s') ∧ Follows s log s' := by
  induction events generalizing s with
  | nil => exact ⟨_, _, rfl, .quiet h fun _ => rfl⟩
  | cons event rest ih =>
      rcases h.step event with ⟨log, next, hstep, hfollows⟩
      rcases ih hfollows.holds with ⟨log', s', hrun, hlater⟩
      refine ⟨log ++ log', s', ?_, hfollows.trans hlater⟩
      rw [Mutexes.run, hstep]
      simp only [hrun, Option.map_some]

/-! ## Priorities -/

/-- A thread takes a mutex only when it owns no other one. -/
def Alone (s : Mutexes Id Thread) : Event Id Thread → Prop
  | .take thread id _ => ∀ other, other ≠ id → (s.mutex other).owner ≠ some thread
  | _ => True

/-- No thread takes a mutex while it owns another one. -/
def Separate (s : Mutexes Id Thread) : List (Event Id Thread) → Prop
  | [] => True
  | event :: rest => s.Alone event ∧ ∀ log s', s.step event = some (log, s') → s'.Separate rest

instance [Fintype Id] (s : Mutexes Id Thread) :
    (event : Event Id Thread) → Decidable (s.Alone event)
  | .take thread id _ =>
      inferInstanceAs (Decidable (∀ other, other ≠ id → (s.mutex other).owner ≠ some thread))
  | .release _ _ | .expire _ => isTrue trivial

instance decidableSeparate [Fintype Id] (s : Mutexes Id Thread) :
    (events : List (Event Id Thread)) → Decidable (s.Separate events)
  | [] => isTrue trivial
  | event :: rest =>
      match hstep : s.step event with
      | none => decidable_of_iff (s.Alone event) (by simp [Separate, hstep])
      | some (log, s') =>
          have := decidableSeparate s' rest
          decidable_of_iff (s.Alone event ∧ s'.Separate rest) (by simp [Separate, hstep])

/-- The owners inherit the priorities of the threads that wait for them. -/
structure Inherits (priority : Thread → Nat) (s : Mutexes Id Thread) : Prop where
  owner_le : ∀ id owner, (s.mutex id).owner = some owner →
    ∀ thread ∈ (s.mutex id).suspend_thread, s.current_priority owner ≤ s.current_priority thread
  plain : ∀ thread, (∀ id, (s.mutex id).owner ≠ some thread) →
    s.current_priority thread = priority thread
  raised : ∀ thread, s.current_priority thread ≤ priority thread
  original : ∀ id owner, (s.mutex id).owner = some owner →
    (s.mutex id).original_priority = priority owner
  sorted : ∀ id, Sleepers.Sorted priority (s.mutex id).suspend_thread
  single : ∀ id other owner, (s.mutex id).owner = some owner →
    (s.mutex other).owner = some owner → id = other
  awake : ∀ id owner, (s.mutex id).owner = some owner → s.suspended owner = none

variable {priority : Thread → Nat}

omit [DecidableEq Id] [DecidableEq Thread] in
/-- At first each thread has its own priority. -/
theorem Inherits.init (priority : Thread → Nat) :
    Inherits priority (init priority : Mutexes Id Thread) where
  owner_le _ _ howner := nomatch howner
  plain _ _ := rfl
  raised _ := Nat.le_refl _
  original _ _ howner := nomatch howner
  sorted _ := .nil
  single _ _ _ howner := nomatch howner
  awake _ _ howner := nomatch howner

omit [DecidableEq Id] [DecidableEq Thread] in
/-- A thread that waits owns nothing. -/
theorem Inherits.not_owner (h : Inherits priority s) (hholds : Holds s)
    (hmem : thread ∈ (s.mutex id).suspend_thread) (other : Id) :
    (s.mutex other).owner ≠ some thread := by
  intro howner
  rcases ((hholds.sleepers id).mem_iff thread).mp hmem with ⟨time, hasleep⟩
  rw [h.awake other thread howner] at hasleep
  cases hasleep

omit [DecidableEq Id] in
/-- An owner gets the higher one of two priorities. -/
theorem lendPriority_priority (s : Mutexes Id Thread) (thread owner other : Thread) :
    (s.lendPriority thread owner).current_priority other =
      if other = owner then min (s.current_priority owner) (s.current_priority thread)
      else s.current_priority other := by
  rw [lendPriority]
  by_cases heq : other = owner
  · subst heq
    rw [if_pos rfl]
    split
    · next hlt => simp [changePriority, Nat.min_eq_right (Nat.le_of_lt hlt)]
    · next hle => rw [Nat.min_eq_left (Nat.le_of_not_lt hle)]
  · rw [if_neg heq]
    split
    · simp [changePriority, heq]
    · rfl

omit [DecidableEq Id] in
/-- Only the owner gets its priority back. -/
theorem restorePriority_priority (s : Mutexes Id Thread) (owner : Thread)
    (original_priority : Nat) (other : Thread) :
    (s.restorePriority owner original_priority).current_priority other =
      if other = owner then original_priority else s.current_priority other := by
  rw [restorePriority]
  by_cases heq : other = owner
  · subst heq
    rw [if_pos rfl]
    split
    · simp [changePriority]
    · next hsame => exact (not_not.mp hsame).symm
  · rw [if_neg heq]
    split
    · simp [changePriority, heq]
    · rfl

omit [DecidableEq Thread] in
/-- One mutex changes, and the priority of nobody but its owner. -/
theorem Inherits.set (h : Inherits priority s) (hholds : Holds s) (mutex : Mutex Thread)
    (hmutex : s'.mutex = Function.update s.mutex id mutex)
    (hsame : ∀ thread, (s.mutex id).owner ≠ some thread →
      s'.current_priority thread = s.current_priority thread)
    (hraised : ∀ thread, (s.mutex id).owner = some thread →
      s'.current_priority thread ≤ priority thread)
    (hlost : ∀ thread, (s.mutex id).owner = some thread → mutex.owner ≠ some thread →
      s'.current_priority thread = priority thread)
    (hle : ∀ owner, mutex.owner = some owner → ∀ thread ∈ mutex.suspend_thread,
      s'.current_priority owner ≤ s'.current_priority thread)
    (horiginal : ∀ owner, mutex.owner = some owner → mutex.original_priority = priority owner)
    (hsorted : Sleepers.Sorted priority mutex.suspend_thread)
    (hsingle : ∀ owner, mutex.owner = some owner → ∀ other, other ≠ id →
      (s.mutex other).owner ≠ some owner)
    (hawake : ∀ owner, mutex.owner = some owner → s'.suspended owner = none)
    (hothers : ∀ other, other ≠ id → ∀ owner, (s.mutex other).owner = some owner →
      s'.suspended owner = none) :
    Inherits priority s' := by
  have hthis : s'.mutex id = mutex := by rw [hmutex, Function.update_self]
  have hthat : ∀ other, other ≠ id → s'.mutex other = s.mutex other := fun other hne => by
    rw [hmutex, Function.update_of_ne hne]
  have hnot : ∀ other, other ≠ id → ∀ owner, (s.mutex other).owner = some owner →
      (s.mutex id).owner ≠ some owner := fun other hne owner howner hid =>
    hne (h.single other id owner howner hid)
  refine ⟨fun other owner howner thread hmem => ?_, fun thread hfree => ?_, fun thread => ?_,
    fun other owner howner => ?_, fun other => ?_, fun other other' owner howner howner' => ?_,
    fun other owner howner => ?_⟩
  · by_cases heq : other = id
    · subst heq
      rw [hthis] at howner hmem
      exact hle owner howner thread hmem
    · rw [hthat other heq] at howner hmem
      rw [hsame owner (hnot other heq owner howner), hsame thread (h.not_owner hholds hmem id)]
      exact h.owner_le other owner howner thread hmem
  · by_cases howner : (s.mutex id).owner = some thread
    · exact hlost thread howner (hthis ▸ hfree id)
    · rw [hsame thread howner]
      refine h.plain thread fun other => ?_
      by_cases heq : other = id
      · exact heq ▸ howner
      · exact hthat other heq ▸ hfree other
  · by_cases howner : (s.mutex id).owner = some thread
    · exact hraised thread howner
    · rw [hsame thread howner]
      exact h.raised thread
  · by_cases heq : other = id
    · subst heq
      rw [hthis] at howner ⊢
      exact horiginal owner howner
    · rw [hthat other heq] at howner ⊢
      exact h.original other owner howner
  · by_cases heq : other = id
    · subst heq
      rw [hthis]
      exact hsorted
    · rw [hthat other heq]
      exact h.sorted other
  · by_cases heq : other = id
    · by_cases heq' : other' = id
      · exact heq.trans heq'.symm
      · rw [heq, hthis] at howner
        rw [hthat other' heq'] at howner'
        exact absurd howner' (hsingle owner howner other' heq')
    · rw [hthat other heq] at howner
      by_cases heq' : other' = id
      · rw [heq', hthis] at howner'
        exact absurd howner (hsingle owner howner' other heq)
      · rw [hthat other' heq'] at howner'
        exact h.single other other' owner howner howner'
  · by_cases heq : other = id
    · rw [heq, hthis] at howner
      exact hawake owner howner
    · rw [hthat other heq] at howner
      exact hothers other heq owner howner

omit [DecidableEq Thread] in
/-- The owner takes its mutex again, or releases it and keeps it. -/
theorem Inherits.setHold (h : Inherits priority s) (hholds : Holds s) (id : Id) (hold : Nat) :
    Inherits priority (s.setMutex id { s.mutex id with hold := hold }) := by
  refine h.set hholds _ rfl (fun _ _ => rfl) (fun other _ => h.raised other)
    (fun other hother hlost => absurd hother hlost) (h.owner_le id) (h.original id)
    (h.sorted id) (fun other hother other_id hid hother' => ?_) (h.awake id)
    (fun other_id _ => h.awake other_id)
  exact hid (h.single other_id id other hother' hother)

/-- A thread gives up; the owner keeps the priority that it has. -/
theorem Inherits.expire (h : Inherits priority s) (hholds : Holds s) (id : Id) (thread : Thread) :
    Inherits priority ((s.setMutex id { s.mutex id with
      suspend_thread :=
        (s.mutex id).suspend_thread.filter fun other => other ≠ thread }).setSuspended
      thread none) := by
  have hawake : ∀ other, s.suspended other = none →
      Function.update s.suspended thread none other = none := by
    intro other hother
    by_cases heq : other = thread
    · rw [heq, Function.update_self]
    · rw [Function.update_of_ne heq, hother]
  refine h.set hholds { s.mutex id with
      suspend_thread := (s.mutex id).suspend_thread.filter fun other => other ≠ thread }
    rfl (fun _ _ => rfl) (fun other _ => h.raised other)
    (fun other hother hlost => absurd hother hlost) (fun owner howner other hmem => ?_)
    (h.original id) ((h.sorted id).filter _) (fun other hother other_id hid hother' => ?_)
    (fun owner howner => hawake owner (h.awake id owner howner))
    (fun other_id _ owner howner => hawake owner (h.awake other_id owner howner))
  · exact h.owner_le id owner howner other (List.mem_of_mem_filter hmem)
  · exact hid (h.single other_id id other hother' hother)

omit [DecidableEq Thread] in
/-- A thread that owns nothing takes a free mutex. -/
theorem Inherits.takeFree (h : Inherits priority s) (hholds : Holds s)
    (hfree : (s.mutex id).owner = none)
    (halone : ∀ other, other ≠ id → (s.mutex other).owner ≠ some thread)
    (hawake : s.suspended thread = none) :
    Inherits priority (s.setMutex id { s.mutex id with
      value := (s.mutex id).value - 1
      owner := some thread
      original_priority := s.current_priority thread
      hold := (s.mutex id).hold + 1 }) := by
  have hempty := (hholds.sound id).free hfree
  have hnone : ∀ owner, (s.mutex id).owner ≠ some owner := fun owner => by simp [hfree]
  refine h.set hholds _ rfl (fun _ _ => rfl) (fun owner howner => absurd howner (hnone owner))
    (fun owner howner => absurd howner (hnone owner)) (fun owner _ other hmem => ?_)
    (fun owner howner => ?_) ?_ (fun owner howner other hne => ?_) (fun owner howner => ?_)
    (fun other _ owner howner => h.awake other owner howner)
  · rw [hempty] at hmem
    cases hmem
  · obtain rfl := Option.some.inj howner
    refine h.plain _ fun other => ?_
    by_cases heq : other = id
    · exact heq ▸ hnone _
    · exact halone other heq
  · rw [hempty]
    exact .nil
  · obtain rfl := Option.some.inj howner
    exact halone other hne
  · obtain rfl := Option.some.inj howner
    exact hawake

/-- A thread that owns nothing waits, and the owner gets its priority when it is a higher one. -/
theorem Inherits.suspend (h : Inherits priority s) (hholds : Holds s) {owner : Thread}
    (howner : (s.mutex id).owner = some owner) (hne : owner ≠ thread)
    (halone : ∀ other, other ≠ id → (s.mutex other).owner ≠ some thread) (time : Int) :
    Inherits priority (((s.lendPriority thread owner).setMutex id { s.mutex id with
      suspend_thread := ipcListSuspend (s.lendPriority thread owner).current_priority .prio thread
        (s.mutex id).suspend_thread }).setSuspended thread (some (id, time))) := by
  have hnot : ∀ other, (s.mutex other).owner ≠ some thread := by
    intro other hother
    by_cases heq : other = id
    · rw [heq] at hother
      exact hne (Option.some.inj (howner.symm.trans hother))
    · exact halone other heq hother
  have hplain : s.current_priority thread = priority thread := h.plain thread hnot
  have hwait : ∀ other ∈ (s.mutex id).suspend_thread, other ≠ owner ∧
      s.current_priority other = priority other := by
    intro other hmem
    refine ⟨?_, h.plain other fun id' => h.not_owner hholds hmem id'⟩
    rintro rfl
    exact h.not_owner hholds hmem id howner
  have hinsert : ipcListSuspend (s.lendPriority thread owner).current_priority .prio thread
      (s.mutex id).suspend_thread =
      Sleepers.insert priority thread (s.mutex id).suspend_thread := by
    refine Sleepers.insert_congr ?_ fun other hmem => ?_
    · rw [lendPriority_priority, if_neg hne.symm, hplain]
    · rw [lendPriority_priority, if_neg (hwait other hmem).1, (hwait other hmem).2]
  rw [hinsert]
  refine h.set hholds { s.mutex id with
      suspend_thread := Sleepers.insert priority thread (s.mutex id).suspend_thread }
    ?_ (fun other hother => ?_) (fun other hother => ?_)
    (fun other hother hlost => absurd hother hlost) (fun other hother waiting hmem => ?_)
    (fun other hother => h.original id other hother) (Sleepers.insert_sorted thread (h.sorted id))
    (fun other hother other_id hid hother' => ?_) (fun other hother => ?_)
    (fun other_id hid other hother => ?_)
  · simp [setMutex, setSuspended]
  · change (s.lendPriority thread owner).current_priority other = _
    rw [lendPriority_priority, if_neg (by rintro rfl; exact hother howner)]
  · obtain rfl : owner = other := Option.some.inj (howner.symm.trans hother)
    change (s.lendPriority thread owner).current_priority owner ≤ _
    rw [lendPriority_priority, if_pos rfl]
    exact Nat.le_trans (Nat.min_le_left _ _) (h.raised owner)
  · obtain rfl : owner = other := Option.some.inj (howner.symm.trans hother)
    change (s.lendPriority thread owner).current_priority owner ≤
      (s.lendPriority thread owner).current_priority waiting
    rw [lendPriority_priority, if_pos rfl, lendPriority_priority]
    rcases List.mem_cons.mp ((Sleepers.insert_perm thread _).mem_iff.mp hmem) with rfl | hmem
    · rw [if_neg hne.symm]
      exact Nat.min_le_right _ _
    · rw [if_neg (hwait waiting hmem).1]
      exact Nat.le_trans (Nat.min_le_left _ _) (h.owner_le id owner howner waiting hmem)
  · exact hid (h.single other_id id other hother' hother)
  · have hthis : other ≠ thread := fun heq => hnot id (heq ▸ hother)
    simpa [setSuspended, setMutex, hthis] using h.awake id other hother
  · have hthis : other ≠ thread := fun heq => hnot other_id (heq ▸ hother)
    simpa [setSuspended, setMutex, hthis] using h.awake other_id other hother

/-- The owner gets its own priority back, and the first thread that waits owns the mutex. -/
theorem Inherits.handOver (h : Inherits priority s) (hholds : Holds s)
    (howner : (s.mutex id).owner = some thread) {first : Thread} {rest : List Thread}
    (hlist : (s.mutex id).suspend_thread = first :: rest)
    (hmutex : s'.mutex = Function.update s.mutex id { s.mutex id with
      owner := some first
      original_priority := s'.current_priority first
      hold := 1
      suspend_thread := rest })
    (hpriority : s'.current_priority =
      (s.restorePriority thread (s.mutex id).original_priority).current_priority)
    (hsuspended : s'.suspended = Function.update s.suspended first none) :
    Inherits priority s' := by
  have hfirst : first ∈ (s.mutex id).suspend_thread := by
    rw [hlist]
    exact List.mem_cons_self
  have hnot := h.not_owner hholds hfirst
  have hsorted := h.sorted id
  rw [hlist] at hsorted
  have hwait : ∀ other ∈ (s.mutex id).suspend_thread,
      s'.current_priority other = priority other := by
    intro other hmem
    have hne : other ≠ thread := by
      rintro rfl
      exact h.not_owner hholds hmem id howner
    rw [hpriority, restorePriority_priority, if_neg hne]
    exact h.plain other fun id' => h.not_owner hholds hmem id'
  refine h.set hholds _ hmutex (fun other hother => ?_) (fun other hother => ?_)
    (fun other hother _ => ?_) (fun other hother waiting hmem => ?_) (fun other hother => ?_)
    (List.pairwise_cons.mp hsorted).2 (fun other hother other_id _ => ?_)
    (fun other hother => ?_) (fun other_id _ other hother => ?_)
  · rw [hpriority, restorePriority_priority, if_neg (by rintro rfl; exact hother howner)]
  · obtain rfl : thread = other := Option.some.inj (howner.symm.trans hother)
    rw [hpriority, restorePriority_priority, if_pos rfl, h.original id thread howner]
  · obtain rfl : thread = other := Option.some.inj (howner.symm.trans hother)
    rw [hpriority, restorePriority_priority, if_pos rfl, h.original id thread howner]
  · obtain rfl : first = other := Option.some.inj hother
    rw [hwait first hfirst, hwait waiting (by rw [hlist]; exact List.mem_cons_of_mem _ hmem)]
    exact (List.pairwise_cons.mp hsorted).1 waiting hmem
  · obtain rfl : first = other := Option.some.inj hother
    exact hwait first hfirst
  · obtain rfl : first = other := Option.some.inj hother
    exact hnot other_id
  · obtain rfl : first = other := Option.some.inj hother
    rw [hsuspended, Function.update_self]
  · have hne : other ≠ first := fun heq => hnot other_id (heq ▸ hother)
    rw [hsuspended, Function.update_of_ne hne]
    exact h.awake other_id other hother

/-- The owner gets its own priority back, and nobody owns the mutex. -/
theorem Inherits.releaseLast (h : Inherits priority s) (hholds : Holds s)
    (howner : (s.mutex id).owner = some thread)
    (hmutex : s'.mutex = Function.update s.mutex id { s.mutex id with
      value := (s.mutex id).value + 1
      owner := none
      original_priority := 0xff
      hold := 0 })
    (hpriority : s'.current_priority =
      (s.restorePriority thread (s.mutex id).original_priority).current_priority)
    (hsuspended : s'.suspended = s.suspended) : Inherits priority s' := by
  refine h.set hholds _ hmutex (fun other hother => ?_) (fun other hother => ?_)
    (fun other hother _ => ?_) (fun other hother => nomatch hother)
    (fun other hother => nomatch hother) (h.sorted id) (fun other hother => nomatch hother)
    (fun other hother => nomatch hother) (fun other_id _ other hother => ?_)
  · rw [hpriority, restorePriority_priority, if_neg (by rintro rfl; exact hother howner)]
  · obtain rfl : thread = other := Option.some.inj (howner.symm.trans hother)
    rw [hpriority, restorePriority_priority, if_pos rfl, h.original id thread howner]
  · obtain rfl : thread = other := Option.some.inj (howner.symm.trans hother)
    rw [hpriority, restorePriority_priority, if_pos rfl, h.original id thread howner]
  · rw [hsuspended]
    exact h.awake other_id other hother

/-- Each step of a thread that owns nothing else keeps the priorities right. -/
theorem Inherits.step (h : Inherits priority s) (hholds : Holds s) {event : Event Id Thread}
    (halone : s.Alone event) (hstep : s.step event = some (log, s')) : Inherits priority s' := by
  cases event with
  | take thread id time =>
      rw [Mutexes.step] at hstep
      split at hstep
      · next hawake =>
          rcases hholds.mutexTake_cases thread id time with ⟨errno, heq⟩ | ⟨howner, hlt, heq⟩ |
            ⟨hfree, heq⟩ | ⟨owner, howner, hne, heq⟩ <;> rw [heq] at hstep <;> cases hstep
          · exact h
          · exact h.setHold hholds id _
          · exact h.takeFree hholds hfree halone hawake
          · exact h.suspend hholds howner hne halone time
      · cases hstep
        exact h
  | release thread id =>
      rw [Mutexes.step] at hstep
      split at hstep
      · next hawake =>
          rw [Option.some.injEq] at hstep
          rcases hholds.mutexRelease_cases thread id with heq | ⟨howner, ⟨hmore, heq⟩ |
            ⟨hlast, log', s'', heq, hpriority, ⟨first, rest, hlist, rfl, hmutex, hsuspended⟩ |
            ⟨hlist, rfl, hmutex, hsuspended⟩⟩⟩ <;> rw [heq] at hstep <;> cases hstep
          · exact h
          · exact h.setHold hholds id _
          · exact h.handOver hholds howner hlist hmutex hpriority hsuspended
          · exact h.releaseLast hholds howner hmutex hpriority hsuspended
      · cases hstep
        exact h
  | expire thread =>
      rw [Mutexes.step] at hstep
      split at hstep
      · next id time hasleep =>
          split at hstep
          · cases hstep
            exact h.expire hholds id thread
          · cases hstep
            exact h
      · cases hstep
        exact h

/-- Steps of threads that take one mutex at a time keep the priorities right. -/
theorem Inherits.run (h : Inherits priority s) (hholds : Holds s)
    {events : List (Event Id Thread)} (hseparate : s.Separate events)
    (hrun : s.run events = some (log, s')) : Inherits priority s' := by
  induction events generalizing s log with
  | nil =>
      obtain ⟨-, rfl⟩ := Prod.mk.inj (Option.some.inj hrun)
      exact h
  | cons event rest ih =>
      rcases hholds.step event with ⟨log', next, hstep, hfollows⟩
      rw [Mutexes.run, hstep] at hrun
      rcases Option.map_eq_some_iff.mp hrun with ⟨⟨log'', s''⟩, hrest, heq⟩
      obtain ⟨-, rfl⟩ := Prod.mk.inj heq
      exact ih (h.step hholds hseparate.1 hstep) hfollows.holds (hseparate.2 _ _ hstep) hrest

end Invariant

section Runs

variable {Id Thread : Type} [DecidableEq Id] [DecidableEq Thread]

/-- The takes of a mutex are those of its lock. -/
theorem count_taken (id : Id) (thread : Thread) (log : List (Entry Id Thread)) :
    (actions id log).count (.acquire thread) = log.count (.taken thread id) := by
  induction log with
  | nil => rfl
  | cons entry log ih =>
      rw [← List.singleton_append, actions_append, List.count_append, List.count_append, ih]
      congr 1
      cases entry with
      | taken thread' id' =>
          by_cases hid : id' = id <;> by_cases hthread : thread' = thread <;>
            simp [actions, hid, hthread]
      | released thread' id' => by_cases hid : id' = id <;> simp [actions, hid]
      | failed thread' id' errno => simp [actions]

/-- The releases of a mutex are those of its lock. -/
theorem count_released (id : Id) (thread : Thread) (log : List (Entry Id Thread)) :
    (actions id log).count (.release thread) = log.count (.released thread id) := by
  induction log with
  | nil => rfl
  | cons entry log ih =>
      rw [← List.singleton_append, actions_append, List.count_append, List.count_append, ih]
      congr 1
      cases entry with
      | taken thread' id' => by_cases hid : id' = id <;> simp [actions, hid]
      | released thread' id' =>
          by_cases hid : id' = id <;> by_cases hthread : thread' = thread <;>
            simp [actions, hid, hthread]
      | failed thread' id' errno => simp [actions]

omit [DecidableEq Id] in
/-- The depth of the lock is the hold count of its owner. -/
theorem depth_holder (mutex : Mutex Thread) (thread : Thread) :
    depth (holder mutex) thread = if mutex.owner = some thread then mutex.hold else 0 := by
  cases howner : mutex.owner with
  | none => simp [holder, howner, depth]
  | some owner => by_cases heq : owner = thread <;> simp [holder, howner, depth, heq]

variable (priority : Thread → Nat) (events : List (Event Id Thread))

/-- In every order of the steps, with any number of mutexes, no null pointer is followed, and the
history of each mutex is the one of a recursive lock: only the owner has taken the mutex more often
than it released it, and exactly as often more as the mutex counts. -/
theorem run_excludes :
    ∃ log s', (init priority : Mutexes Id Thread).run events = some (log, s') ∧
      ∀ id, replay none (actions id log) = some (holder (s'.mutex id)) ∧
        ∀ thread, log.count (.taken thread id) = log.count (.released thread id) +
          if (s'.mutex id).owner = some thread then (s'.mutex id).hold else 0 := by
  rcases (Holds.init priority : Holds (init priority : Mutexes Id Thread)).run events
    with ⟨log, s', hrun, hfollows⟩
  refine ⟨log, s', hrun, fun id => ⟨hfollows.replay_eq id, fun thread => ?_⟩⟩
  have hfree : Fits (none : Lock Thread) := fun _ _ hnone => nomatch hnone
  have hcount := (replay_acquired hfree (hfollows.replay_eq id)).2 thread
  rw [count_taken, count_released, depth_holder, depth, Nat.zero_add] at hcount
  rw [hcount, Nat.add_comm]

/-- In every order of the steps a thread that sleeps is in the list of the one mutex that it waits
for, once, and another thread owns this mutex. -/
theorem run_hands_over :
    ∃ log s', (init priority : Mutexes Id Thread).run events = some (log, s') ∧
      ∀ id, (s'.mutex id).suspend_thread.Nodup ∧
        ∀ thread, (thread ∈ (s'.mutex id).suspend_thread ↔
            ∃ time, s'.suspended thread = some (id, time)) ∧
          (thread ∈ (s'.mutex id).suspend_thread →
            ∃ owner, (s'.mutex id).owner = some owner ∧ owner ≠ thread) := by
  rcases (Holds.init priority : Holds (init priority : Mutexes Id Thread)).run events
    with ⟨log, s', hrun, hfollows⟩
  refine ⟨log, s', hrun, fun id => ⟨(hfollows.holds.sleepers id).nodup, fun thread =>
    ⟨(hfollows.holds.sleepers id).mem_iff thread, fun hmem => ?_⟩⟩⟩
  have hsound := hfollows.holds.sound id
  cases howner : (s'.mutex id).owner with
  | none =>
      rw [hsound.free howner] at hmem
      cases hmem
  | some owner =>
      refine ⟨owner, rfl, ?_⟩
      rintro rfl
      exact hsound.own owner howner hmem

variable {priority events}

/-- When no thread takes a mutex while it owns another one, no thread that waits for a mutex has a
higher priority than the owner, whoever owns nothing has its own priority, and nobody has a lower
one than its own. -/
theorem run_inherits (hseparate : (init priority : Mutexes Id Thread).Separate events) :
    ∃ log s', (init priority : Mutexes Id Thread).run events = some (log, s') ∧
      (∀ id owner, (s'.mutex id).owner = some owner → ∀ thread ∈ (s'.mutex id).suspend_thread,
        s'.current_priority owner ≤ s'.current_priority thread) ∧
      (∀ thread, (∀ id, (s'.mutex id).owner ≠ some thread) →
        s'.current_priority thread = priority thread) ∧
      ∀ thread, s'.current_priority thread ≤ priority thread := by
  have hholds : Holds (init priority : Mutexes Id Thread) := .init priority
  rcases hholds.run events with ⟨log, s', hrun, -⟩
  have hinherits := (Inherits.init priority).run hholds hseparate hrun
  exact ⟨log, s', hrun, hinherits.owner_le, hinherits.plain, hinherits.raised⟩

/-- Two threads own a mutex each and are lent the priorities of those that wait; one wait is over in
time, and one mutex is handed over. -/
theorem run_inherits_lent :
    ∃ log s', (init (fun thread => 20 - thread) : Mutexes Bool Nat).run
        [.take 0 true 0, .take 5 true 10, .take 3 false 0, .take 7 false (-1), .take 9 true (-1),
          .expire 5, .release 0 true] = some (log, s') ∧
      (∀ id owner, (s'.mutex id).owner = some owner → ∀ thread ∈ (s'.mutex id).suspend_thread,
        s'.current_priority owner ≤ s'.current_priority thread) ∧
      (∀ thread, (∀ id, (s'.mutex id).owner ≠ some thread) →
        s'.current_priority thread = 20 - thread) ∧
      ∀ thread, s'.current_priority thread ≤ 20 - thread :=
  run_inherits (by decide)

/-- The first mutex is with the thread that waited, and only the other owner is still raised. -/
example :
    ((init (fun thread => 20 - thread) : Mutexes Bool Nat).run
        [.take 0 true 0, .take 5 true 10, .take 3 false 0, .take 7 false (-1), .take 9 true (-1),
          .expire 5, .release 0 true]).map (fun result =>
        ((result.2.mutex true).owner, (result.2.mutex false).owner,
          [0, 3, 9].map result.2.current_priority)) = some (some 9, some 3, [20, 13, 11]) := by
  decide

end Runs

end Mutexes
end RtThread
end TestAio
