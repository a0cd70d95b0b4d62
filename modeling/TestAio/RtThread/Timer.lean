import Mathlib.Algebra.Ring.Nat
import Mathlib.Logic.Function.Basic
import TestAio.Library.Alarms

/-!
# Hard timers

{lit}`src/timer.c` keeps the started timers in a list in the order of their timeouts.  A tick
is a word of 32 bits that wraps around, so two of them are compared by their distance.  Each
tick takes the timers that are due off the front of the list and calls their functions, which
may start and stop timers themselves.

Main results:

- Theorem {lit}`run_follows`: every run that fails no assertion is one of an alarm clock: each
  timer is called after exactly the ticks it was started for, in the order of the timeouts, and no
  check of the list goes on forever.
- Theorem {lit}`run_on_time`: between a start and the call of the timer lie exactly its ticks.

Current gaps:

- Timers of no ticks at all are not covered by the results: a periodic one is called forever.
- The soft timers, which a thread calls, have the same functions on a list of their own.
-/

namespace TestAio
namespace RtThread

open Library Library.Alarms

/-- {lit}`RT_TICK_MAX`. -/
def rtTickMax : Nat := 2 ^ 32 - 1

/-- {lit}`a - b` for two ticks. -/
def tickDiff (a b : Nat) : Nat :=
  (a + 2 ^ 32 - b) % 2 ^ 32

/-- The values of {lit}`enum rt_object_class_type` that the object of a timer has: it is reset when
the timer is detached. -/
inductive ObjectClass
  | null
  | timer
deriving DecidableEq

/-- {lit}`struct rt_timer` with the type of its object and two bits of its flag. -/
structure Timer where
  init_tick : Nat
  timeout_tick : Nat
  periodic : Bool
  activated : Bool
  type : ObjectClass
deriving DecidableEq

/-- The tick, the timers, the list of the ones that are started and the temporary list of
{lit}`rt_timer_check`. -/
structure Timers (Id : Type) where
  rt_tick : Nat
  timer : Id → Timer
  timer_list : List Id
  list : List Id

/-- The commands of {lit}`rt_timer_control`. -/
inductive Control
  | getTime
  | setTime
  | setOneshot
  | setPeriodic
  | getState
  | getRemainTime
deriving DecidableEq

/-- What a thread or the function of a timer can do with a timer. -/
inductive Command (Id : Type)
  | init (timer : Id) (time : Nat) (periodic : Bool)
  | start (timer : Id)
  | stop (timer : Id)
  | detach (timer : Id)
  | control (timer : Id) (cmd : Control) (arg : Nat)

/-- A command that sets a time sets one tick at least. -/
def Command.Fits {Id : Type} : Command Id → Prop
  | .init _ time _ => 0 < time
  | .control _ .setTime arg => 0 < arg
  | _ => True

/-- A command that leaves the timers as objects and sets a time that they can count. -/
def Command.Lasts {Id : Type} : Command Id → Prop
  | .init _ _ _ | .detach _ => False
  | .control _ .setTime arg => arg < rtTickMax / 2
  | _ => True

/-- Why a run ends before its time. -/
inductive Stop
  | assertion
  | outOfFuel
deriving DecidableEq

namespace Timers

section Functions

variable {Id : Type} [DecidableEq Id]

/-- {lit}`_timer_remove`: the timer is in one of the lists, or in none. -/
def timerRemove (s : Timers Id) (timer : Id) : Timers Id :=
  { s with
    timer_list := s.timer_list.filter fun other => other ≠ timer
    list := s.list.filter fun other => other ≠ timer }

/-- A timer gets other fields. -/
def set (s : Timers Id) (timer : Id) (fields : Timer) : Timers Id :=
  { s with timer := Function.update s.timer timer fields }

/-- {lit}`timer->parent.flag &= ~RT_TIMER_FLAG_ACTIVATED`. -/
def deactivate (s : Timers Id) (timer : Id) : Timers Id :=
  s.set timer { s.timer timer with activated := false }

/-- The loop of {lit}`rt_timer_start` over the list, and the insertion where it ends. -/
def insertTimer (s : Timers Id) (timer : Id) : List Id → List Id
  | [] => [timer]
  | t :: rest =>
      let diff := tickDiff (s.timer t).timeout_tick (s.timer timer).timeout_tick
      if diff = 0 then
        t :: s.insertTimer timer rest
      else if diff < rtTickMax / 2 then
        timer :: t :: rest
      else
        t :: s.insertTimer timer rest

/-- {lit}`rt_timer_init`; nothing when an assertion fails, which demands that the object is not one
yet. -/
def timerInit (s : Timers Id) (timer : Id) (time : Nat) (periodic : Bool) : Option (Timers Id) :=
  if time < rtTickMax / 2 ∧ (s.timer timer).type = .null then
    some (s.set timer ⟨time, 0, periodic, false, .timer⟩)
  else
    none

/-- {lit}`rt_timer_start`; nothing when the assertion on the type fails. -/
def timerStart (s : Timers Id) (timer : Id) : Option (Timers Id) :=
  if (s.timer timer).type = .timer then
    let s := (s.timerRemove timer).deactivate timer
    let s := s.set timer { s.timer timer with
      timeout_tick := (s.rt_tick + (s.timer timer).init_tick) % 2 ^ 32 }
    let s := { s with timer_list := s.insertTimer timer s.timer_list }
    some (s.set timer { s.timer timer with activated := true })
  else
    none

/-- {lit}`rt_timer_stop`: whether it answers {lit}`RT_EOK`, and the timers; nothing when the
assertion on the type fails. -/
def timerStop (s : Timers Id) (timer : Id) : Option (Bool × Timers Id) :=
  if (s.timer timer).type = .timer then
    if (s.timer timer).activated then
      some (true, (s.timerRemove timer).deactivate timer)
    else
      some (false, s)
  else
    none

/-- {lit}`rt_timer_detach`, with {lit}`rt_object_detach`; nothing when the assertion on the type
fails. -/
def timerDetach (s : Timers Id) (timer : Id) : Option (Timers Id) :=
  if (s.timer timer).type = .timer then
    let s := (s.timerRemove timer).deactivate timer
    some (s.set timer { s.timer timer with type := .null })
  else
    none

/-- {lit}`rt_timer_control`: what the argument points to afterwards, and the timers; nothing when
an assertion fails.  The case of the state goes on with the case behind it. -/
def timerControl (s : Timers Id) (timer : Id) (cmd : Control) (arg : Nat) :
    Option (Nat × Timers Id) :=
  if (s.timer timer).type = .timer then
    match cmd with
    | .getTime => some ((s.timer timer).init_tick, s)
    | .setTime =>
        if arg < rtTickMax / 2 then
          some (arg, s.set timer { s.timer timer with init_tick := arg })
        else
          none
    | .setOneshot => some (arg, s.set timer { s.timer timer with periodic := false })
    | .setPeriodic => some (arg, s.set timer { s.timer timer with periodic := true })
    | .getState => some ((s.timer timer).timeout_tick, s)
    | .getRemainTime => some ((s.timer timer).timeout_tick, s)
  else
    none

/-- A command, with what it means to the clock; nothing when an assertion fails. -/
def exec (s : Timers Id) : Command Id → Option (List (Entry Id) × Timers Id)
  | .init timer time periodic => (s.timerInit timer time periodic).map fun result => ([], result)
  | .start timer =>
      (s.timerStart timer).map fun result =>
        ([.start timer (s.timer timer).init_tick], result)
  | .stop timer =>
      (s.timerStop timer).map fun result =>
        (if result.1 then [.stop timer] else [], result.2)
  | .detach timer => (s.timerDetach timer).map fun result => ([.stop timer], result)
  | .control timer cmd arg => (s.timerControl timer cmd arg).map fun result => ([], result.2)

/-- The commands of a function in a row. -/
def execAll (s : Timers Id) : List (Command Id) → Option (List (Entry Id) × Timers Id)
  | [] => some ([], s)
  | c :: rest =>
      match s.exec c with
      | none => none
      | some (log, s) => (s.execAll rest).map fun result => (log ++ result.1, result.2)

/-- A timer that is due goes over to the temporary list. -/
def takeDue (s : Timers Id) (t : Id) : Timers Id :=
  let s := s.timerRemove t
  let s := if (s.timer t).periodic then s else s.deactivate t
  { s with list := t :: s.list }

/-- A periodic timer that its function has not touched starts again. -/
def startAgain (s : Timers Id) (t : Id) : Option (List (Entry Id) × Timers Id) :=
  if (s.timer t).periodic = true ∧ (s.timer t).activated = true then
    (s.deactivate t).exec (.start t)
  else
    some ([], s)

/-- The body of the loop of {lit}`rt_timer_check` for a timer that is due. -/
def timeout (handler : Id → Timers Id → List (Command Id)) (s : Timers Id) (t : Id) :
    Option (List (Entry Id) × Timers Id) :=
  let s := s.takeDue t
  match s.execAll (handler t s) with
  | none => none
  | some (log, s) =>
      -- The timer object is detached or started again.
      if s.list = [] then
        some (.fire t :: log, s)
      else
        let s := { s with list := s.list.filter fun other => other ≠ t }
        (s.startAgain t).map fun again => (.fire t :: (log ++ again.1), again.2)

/-- The loop of {lit}`rt_timer_check`. -/
def checkLoop (handler : Id → Timers Id → List (Command Id)) :
    Nat → Nat → Timers Id → Except Stop (List (Entry Id) × Timers Id)
  | 0, _, _ => .error .outOfFuel
  | fuel + 1, current_tick, s =>
      match s.timer_list with
      | [] => .ok ([], s)
      | t :: _ =>
          if tickDiff current_tick (s.timer t).timeout_tick < rtTickMax / 2 then
            match s.timeout handler t with
            | none => .error .assertion
            | some (log, s) =>
                (checkLoop handler fuel s.rt_tick s).map fun result => (log ++ result.1, result.2)
          else
            .ok ([], s)

/-- {lit}`rt_timer_check`. -/
def timerCheck (handler : Id → Timers Id → List (Command Id)) (fuel : Nat) (s : Timers Id) :
    Except Stop (List (Entry Id) × Timers Id) :=
  checkLoop handler fuel s.rt_tick s

/-- What happens to the system: {lit}`rt_tick_increase`, or a command of a thread. -/
inductive Event (Id : Type)
  | tick
  | command (c : Command Id)

/-- One event. -/
def step (handler : Id → Timers Id → List (Command Id)) (fuel : Nat) (s : Timers Id) :
    Event Id → Except Stop (List (Entry Id) × Timers Id)
  | .tick =>
      (timerCheck handler fuel { s with rt_tick := (s.rt_tick + 1) % 2 ^ 32 }).map fun result =>
        (.tick :: result.1, result.2)
  | .command c =>
      match s.exec c with
      | none => .error .assertion
      | some result => .ok result

/-- Events in a row. -/
def run (handler : Id → Timers Id → List (Command Id)) (fuel : Nat) (s : Timers Id) :
    List (Event Id) → Except Stop (List (Entry Id) × Timers Id)
  | [] => .ok ([], s)
  | event :: rest =>
      match s.step handler fuel event with
      | .error stop => .error stop
      | .ok (log, s) =>
          (s.run handler fuel rest).map fun result => (log ++ result.1, result.2)

end Functions

/-! ## The clock behind the timers -/

/-- The list of the timers is the queue of a clock: the deadlines do not wrap around. -/
structure Follows {Id : Type} (s : Timers Id) (clock : Clock Id) : Prop where
  tick_eq : s.rt_tick = clock.now % 2 ^ 32
  list_eq : s.timer_list = clock.queue.map Prod.fst
  timeout : ∀ entry ∈ clock.queue, (s.timer entry.1).timeout_tick = entry.2 % 2 ^ 32 ∧
    clock.now ≤ entry.2 ∧ entry.2 < clock.now + rtTickMax / 2
  sorted : clock.queue.Pairwise fun a b => a.2 ≤ b.2
  nodup : s.timer_list.Nodup
  armed : ∀ timer ∈ s.timer_list,
    (s.timer timer).activated = true ∧ (s.timer timer).type = .timer
  temporary : s.list.length ≤ 1 ∧ ∀ timer ∈ s.list, timer ∉ s.timer_list
  init_tick : ∀ timer, 0 < (s.timer timer).init_tick ∧ (s.timer timer).init_tick < rtTickMax / 2

/-- The alarms that are due. -/
def due {Id : Type} (clock : Clock Id) : Nat :=
  clock.queue.countP fun entry => entry.2 ≤ clock.now

section Follows

variable {Id : Type} [DecidableEq Id] {s : Timers Id} {clock : Clock Id}

/-- The distance of two ticks that are near to each other tells which one is later. -/
theorem tickDiff_lt_iff {now a b : Nat} (ha : now ≤ a) (ha' : a < now + rtTickMax / 2)
    (hb : now ≤ b) (hb' : b < now + rtTickMax / 2) :
    tickDiff (a % 2 ^ 32) (b % 2 ^ 32) < rtTickMax / 2 ↔ b ≤ a := by
  unfold tickDiff rtTickMax at *
  omega

/-- Two ticks that are near to each other have no distance exactly when they are equal. -/
theorem tickDiff_eq_zero_iff {now a b : Nat} (ha : now ≤ a) (ha' : a < now + rtTickMax / 2)
    (hb : now ≤ b) (hb' : b < now + rtTickMax / 2) :
    tickDiff (a % 2 ^ 32) (b % 2 ^ 32) = 0 ↔ a = b := by
  unfold tickDiff rtTickMax at *
  omega

omit [DecidableEq Id] in
/-- A timer is put behind the ones that are due no later. -/
theorem insertTimer_eq {now deadline : Nat} {timer : Id} {queue : List (Id × Nat)}
    (hqueue : ∀ entry ∈ queue, (s.timer entry.1).timeout_tick = entry.2 % 2 ^ 32 ∧
      now ≤ entry.2 ∧ entry.2 < now + rtTickMax / 2)
    (htimer : (s.timer timer).timeout_tick = deadline % 2 ^ 32) (hlow : now ≤ deadline)
    (hhigh : deadline < now + rtTickMax / 2) :
    s.insertTimer timer (queue.map Prod.fst) = (arm timer deadline queue).map Prod.fst := by
  induction queue with
  | nil => rfl
  | cons entry rest ih =>
      rcases hqueue entry List.mem_cons_self with ⟨htimeout, hnow, hsoon⟩
      have hrest := ih fun other hmem => hqueue other (List.mem_cons_of_mem _ hmem)
      have hzero := tickDiff_eq_zero_iff hnow hsoon hlow hhigh
      have hless := tickDiff_lt_iff hnow hsoon hlow hhigh
      rw [List.map_cons, insertTimer, arm, htimeout, htimer, hrest]
      simp only [hzero, hless]
      by_cases hle : entry.2 ≤ deadline
      · rw [if_pos hle, List.map_cons]
        split
        · rfl
        · rename_i hne
          rw [if_neg (by omega)]
      · rw [if_neg hle, if_neg (by omega), if_pos (by omega), List.map_cons, List.map_cons]

/-- A timer that is disarmed leaves the list. -/
theorem map_disarm (timer : Id) (queue : List (Id × Nat)) :
    (disarm timer queue).map Prod.fst =
      (queue.map Prod.fst).filter fun other => other ≠ timer := by
  rw [disarm, List.filter_map]
  rfl

/-- A timer is taken out of its list and is not active any more. -/
theorem Follows.remove (h : Follows s clock) (timer : Id) :
    Follows ((s.timerRemove timer).deactivate timer)
      ⟨clock.now, disarm timer clock.queue⟩ := by
  refine ⟨h.tick_eq, ?_, ?_, sorted_disarm h.sorted, h.nodup.filter _, ?_, ?_, ?_⟩
  · rw [map_disarm, ← h.list_eq]
    rfl
  · intro entry hmem
    rcases mem_disarm.mp hmem with ⟨hmem, hne⟩
    refine ⟨?_, (h.timeout entry hmem).2⟩
    rw [← (h.timeout entry hmem).1]
    exact congrArg Timer.timeout_tick (Function.update_of_ne hne _ _)
  · intro other hmem
    have hother := List.mem_filter.mp hmem
    have hne : other ≠ timer := by simpa using hother.2
    have hsame : ((s.timerRemove timer).deactivate timer).timer other = s.timer other :=
      Function.update_of_ne hne _ _
    rw [hsame]
    exact h.armed other hother.1
  · refine ⟨Nat.le_trans (List.length_filter_le _ _) h.temporary.1, fun other hmem hlist => ?_⟩
    exact h.temporary.2 other (List.mem_filter.mp hmem).1 (List.mem_filter.mp hlist).1
  · intro other
    by_cases hne : other = timer
    · subst hne
      simpa [deactivate, set, timerRemove] using h.init_tick other
    · have hsame : ((s.timerRemove timer).deactivate timer).timer other = s.timer other :=
        Function.update_of_ne hne _ _
      rw [hsame]
      exact h.init_tick other

omit [DecidableEq Id] in
/-- Where a timer is put depends on the timeouts only. -/
theorem insertTimer_congr {s' : Timers Id} (timer : Id)
    (h : ∀ t, (s'.timer t).timeout_tick = (s.timer t).timeout_tick) (list : List Id) :
    s'.insertTimer timer list = s.insertTimer timer list := by
  induction list with
  | nil => rfl
  | cons t rest ih => rw [insertTimer, insertTimer, h, h, ih]

/-- The fields of a timer that is started. -/
def started (s : Timers Id) (timer : Id) : Timer :=
  { s.timer timer with
    timeout_tick := (s.rt_tick + (s.timer timer).init_tick) % 2 ^ 32
    activated := true }

/-- The timers when one of them is started. -/
def withStarted (s : Timers Id) (timer : Id) : Timers Id :=
  { (s.timerRemove timer).set timer (s.started timer) with
    timer_list := ((s.timerRemove timer).set timer (s.started timer)).insertTimer timer
      (s.timer_list.filter fun other => other ≠ timer) }

/-- A start puts the timer with its timeout in its place of the list. -/
theorem timerStart_eq (s : Timers Id) (timer : Id) :
    s.timerStart timer =
      if (s.timer timer).type = .timer then some (s.withStarted timer) else none := by
  have hlist : ((s.timerRemove timer).set timer
      { s.started timer with activated := false }).insertTimer timer
        (s.timer_list.filter fun other => other ≠ timer) =
      ((s.timerRemove timer).set timer (s.started timer)).insertTimer timer
        (s.timer_list.filter fun other => other ≠ timer) := by
    refine insertTimer_congr timer (fun t => ?_) _
    by_cases hne : t = timer
    · subst hne
      simp [set]
    · simp [set, hne]
  rw [withStarted, ← hlist]
  simp [timerStart, deactivate, set, timerRemove, started]

/-- A timer is started: its alarm is set to its ticks. -/
theorem Follows.start (h : Follows s clock) {timer : Id} (htype : (s.timer timer).type = .timer) :
    Follows (s.withStarted timer) ⟨clock.now, arm timer
      (clock.now + (s.timer timer).init_tick) (disarm timer clock.queue)⟩ := by
  have hinit := h.init_tick timer
  have hstarted : (s.started timer).timeout_tick =
      (clock.now + (s.timer timer).init_tick) % 2 ^ 32 := by
    rw [started, h.tick_eq, Nat.mod_add_mod]
  have hother : ∀ other, other ≠ timer →
      Function.update s.timer timer (s.started timer) other = s.timer other :=
    fun other hne => Function.update_of_ne hne _ _
  have hthis : Function.update s.timer timer (s.started timer) timer = s.started timer :=
    Function.update_self _ _ _
  -- The list with the timer in its place.
  have hlist : ((s.timerRemove timer).set timer (s.started timer)).insertTimer timer
      (s.timer_list.filter fun other => other ≠ timer) =
      (arm timer (clock.now + (s.timer timer).init_tick) (disarm timer clock.queue)).map
        Prod.fst := by
    rw [h.list_eq, ← map_disarm]
    refine insertTimer_eq (fun entry hmem => ?_)
      ((congrArg Timer.timeout_tick hthis).trans hstarted) (Nat.le_add_right clock.now _)
      (Nat.add_lt_add_left hinit.2 _)
    rcases mem_disarm.mp hmem with ⟨hmem, hne⟩
    rw [← (h.timeout entry hmem).1]
    exact ⟨congrArg Timer.timeout_tick (hother entry.1 hne), (h.timeout entry hmem).2⟩
  have hmem_iff : ∀ other, other ∈ (arm timer (clock.now + (s.timer timer).init_tick)
      (disarm timer clock.queue)).map Prod.fst ↔
        other = timer ∨ other ∈ s.timer_list ∧ other ≠ timer := by
    intro other
    rw [h.list_eq]
    simp only [List.mem_map, mem_arm, mem_disarm]
    constructor
    · rintro ⟨entry, rfl | ⟨hmem, hne⟩, rfl⟩
      · exact .inl rfl
      · exact .inr ⟨⟨entry, hmem, rfl⟩, hne⟩
    · rintro (rfl | ⟨⟨entry, hmem, rfl⟩, hne⟩)
      · exact ⟨_, .inl rfl, rfl⟩
      · exact ⟨entry, .inr ⟨hmem, hne⟩, rfl⟩
  rw [withStarted, hlist]
  refine ⟨h.tick_eq, rfl, ?_, sorted_arm (sorted_disarm h.sorted), ?_, ?_, ?_, ?_⟩
  · intro entry hmem
    rcases mem_arm.mp hmem with rfl | hmem
    · exact ⟨(congrArg Timer.timeout_tick hthis).trans hstarted, Nat.le_add_right _ _,
        Nat.add_lt_add_left hinit.2 _⟩
    · rcases mem_disarm.mp hmem with ⟨hmem, hne⟩
      rw [← (h.timeout entry hmem).1]
      exact ⟨congrArg Timer.timeout_tick (hother entry.1 hne), (h.timeout entry hmem).2⟩
  · have hnodup := (h.list_eq ▸ h.nodup).filter fun other => other ≠ timer
    rw [← map_disarm] at hnodup
    refine nodup_map_arm hnodup ?_
    intro hmem
    rcases List.mem_map.mp hmem with ⟨entry, hmem, heq⟩
    exact (mem_disarm.mp hmem).2 heq
  · intro other hmem
    rcases (hmem_iff other).mp hmem with rfl | ⟨hmem, hne⟩
    · exact ⟨congrArg Timer.activated hthis, (congrArg Timer.type hthis).trans htype⟩
    · have hsame := h.armed other hmem
      rw [← hother other hne] at hsame
      exact hsame
  · refine ⟨Nat.le_trans (List.length_filter_le _ _) h.temporary.1, fun other hmem hlist' => ?_⟩
    rcases List.mem_filter.mp hmem with ⟨hmem, hne⟩
    rcases (hmem_iff other).mp hlist' with rfl | ⟨hlist', -⟩
    · simp at hne
    · exact h.temporary.2 other hmem hlist'
  · intro other
    by_cases hne : other = timer
    · subst hne
      have hsame := congrArg Timer.init_tick hthis
      exact ⟨Nat.lt_of_lt_of_eq hinit.1 hsame.symm, Nat.lt_of_le_of_lt (Nat.le_of_eq hsame) hinit.2⟩
    · have hsame := congrArg Timer.init_tick (hother other hne)
      exact ⟨Nat.lt_of_lt_of_eq (h.init_tick other).1 hsame.symm,
        Nat.lt_of_le_of_lt (Nat.le_of_eq hsame) (h.init_tick other).2⟩

omit [DecidableEq Id] in
/-- The temporary list is not part of the clock. -/
theorem Follows.with_list (h : Follows s clock) {list : List Id} (hlength : list.length ≤ 1)
    (hlist : ∀ timer ∈ list, timer ∉ s.timer_list) : Follows { s with list := list } clock :=
  ⟨h.tick_eq, h.list_eq, h.timeout, h.sorted, h.nodup, h.armed, ⟨hlength, hlist⟩, h.init_tick⟩

/-- Fields that the list does not depend on. -/
theorem Follows.set (h : Follows s clock) (timer : Id) (fields : Timer)
    (htimeout : timer ∈ s.timer_list → fields.timeout_tick = (s.timer timer).timeout_tick)
    (harmed : timer ∈ s.timer_list → fields.activated = true ∧ fields.type = .timer)
    (hinit : 0 < fields.init_tick ∧ fields.init_tick < rtTickMax / 2) :
    Follows (s.set timer fields) clock := by
  have hother : ∀ other, other ≠ timer →
      (s.set timer fields).timer other = s.timer other :=
    fun other hne => Function.update_of_ne hne _ _
  have hthis : (s.set timer fields).timer timer = fields := Function.update_self _ _ _
  refine ⟨h.tick_eq, h.list_eq, fun entry hmem => ?_, h.sorted, h.nodup, fun other hmem => ?_,
    h.temporary, fun other => ?_⟩
  · refine ⟨?_, (h.timeout entry hmem).2⟩
    by_cases hne : entry.1 = timer
    · have hlisted : timer ∈ s.timer_list := by
        rw [h.list_eq, ← hne]
        exact List.mem_map_of_mem hmem
      rw [hne, hthis, htimeout hlisted, ← hne]
      exact (h.timeout entry hmem).1
    · rw [hother _ hne]
      exact (h.timeout entry hmem).1
  · by_cases hne : other = timer
    · rw [hne, hthis]
      exact harmed (hne ▸ hmem)
    · rw [hother _ hne]
      exact h.armed other hmem
  · by_cases hne : other = timer
    · rw [hne, hthis]
      exact hinit
    · rw [hother _ hne]
      exact h.init_tick other

/-- What commands do to the timers and to the clock. -/
def Serves (s : Timers Id) (clock : Clock Id) (log : List (Entry Id)) (s' : Timers Id)
    (clock' : Clock Id) : Prop :=
  Run clock log clock' ∧ Follows s' clock' ∧ clock'.now = clock.now ∧ due clock' ≤ due clock ∧
    ∀ timer ∈ s'.list, timer ∈ s.list

omit [DecidableEq Id] in
/-- A timer that is armed for later is not due. -/
theorem due_arm {now deadline : Nat} (timer : Id) (queue : List (Id × Nat)) (h : now < deadline) :
    due ⟨now, arm timer deadline queue⟩ = due ⟨now, queue⟩ := by
  unfold due
  induction queue with
  | nil => simp [arm, h]
  | cons entry rest ih =>
      rw [arm]
      split
      · simp only [List.countP_cons]
        rw [ih]
      · rw [List.countP_cons_of_neg (by simpa using h)]

/-- Disarming a timer makes no other one due. -/
theorem due_disarm_le (timer : Id) (clock : Clock Id) :
    due ⟨clock.now, disarm timer clock.queue⟩ ≤ due clock :=
  (List.filter_sublist (l := clock.queue)).countP_le

/-- A timer that is taken out of the list is disarmed. -/
theorem Follows.serves_stop (h : Follows s clock) (timer : Id) :
    Serves s clock [.stop timer] ((s.timerRemove timer).deactivate timer)
      ⟨clock.now, disarm timer clock.queue⟩ :=
  ⟨(Step.stop clock.now clock.queue timer).run, h.remove timer, rfl, due_disarm_le timer clock,
    fun _ hmem => (List.mem_filter.mp hmem).1⟩

/-- A timer that is started is armed for its ticks. -/
theorem Follows.serves_start (h : Follows s clock) {timer : Id}
    (htype : (s.timer timer).type = .timer) :
    Serves s clock [.start timer (s.timer timer).init_tick] (s.withStarted timer)
      ⟨clock.now, arm timer (clock.now + (s.timer timer).init_tick)
        (disarm timer clock.queue)⟩ := by
  have hpos := (h.init_tick timer).1
  refine ⟨(Step.start clock.now clock.queue timer _).run, h.start htype, rfl, ?_, ?_⟩
  · rw [due_arm timer _ (by omega)]
    exact due_disarm_le timer clock
  · exact fun _ hmem => (List.mem_filter.mp hmem).1

/-- What the clock does not see changes nothing for it. -/
theorem Follows.serves_nil {s' : Timers Id} (h : Follows s' clock) (hlist : s'.list = s.list) :
    Serves s clock [] s' clock :=
  ⟨.nil clock, h, rfl, Nat.le_refl _, fun _ hmem => hlist ▸ hmem⟩

/-- A command that starts a timer. -/
theorem Follows.exec_start (h : Follows s clock) {timer : Id} {log : List (Entry Id)}
    {s' : Timers Id} (hexec : s.exec (.start timer) = some (log, s')) :
    ∃ clock', Serves s clock log s' clock' := by
  rw [Timers.exec, timerStart_eq] at hexec
  split at hexec
  · next htype =>
      cases hexec
      exact ⟨_, h.serves_start htype⟩
  · cases hexec

/-- A command that stops a timer; it does nothing when the timer is not active. -/
theorem Follows.exec_stop (h : Follows s clock) {timer : Id} {log : List (Entry Id)}
    {s' : Timers Id} (hexec : s.exec (.stop timer) = some (log, s')) :
    ∃ clock', Serves s clock log s' clock' := by
  rw [Timers.exec, timerStop] at hexec
  split at hexec
  · split at hexec
    · cases hexec
      exact ⟨_, h.serves_stop timer⟩
    · cases hexec
      exact ⟨clock, h.serves_nil rfl⟩
  · cases hexec

/-- A command that detaches a timer stops it too. -/
theorem Follows.exec_detach (h : Follows s clock) {timer : Id} {log : List (Entry Id)}
    {s' : Timers Id} (hexec : s.exec (.detach timer) = some (log, s')) :
    ∃ clock', Serves s clock log s' clock' := by
  rw [Timers.exec, timerDetach] at hexec
  split at hexec
  · cases hexec
    rcases h.serves_stop timer with ⟨hrun, hfollows, hnow, hdue, hlist⟩
    have hout : timer ∉ ((s.timerRemove timer).deactivate timer).timer_list := fun hmem => by
      simpa using (List.mem_filter.mp hmem).2
    exact ⟨_, hrun, hfollows.set timer _ (fun _ => rfl) (fun hmem => absurd hmem hout)
      (hfollows.init_tick timer), hnow, hdue, hlist⟩
  · cases hexec

/-- A command that initializes a timer, which is in no list. -/
theorem Follows.exec_init (h : Follows s clock) {timer : Id} {time : Nat} {periodic : Bool}
    (hpos : 0 < time) {log : List (Entry Id)} {s' : Timers Id}
    (hexec : s.exec (.init timer time periodic) = some (log, s')) :
    ∃ clock', Serves s clock log s' clock' := by
  rw [Timers.exec, timerInit] at hexec
  split at hexec
  · next hinit =>
      cases hexec
      have hout : timer ∉ s.timer_list := fun hmem => by
        have htype := (h.armed timer hmem).2
        rw [hinit.2] at htype
        cases htype
      exact ⟨clock, (h.set timer _ (fun hmem => absurd hmem hout) (fun hmem => absurd hmem hout)
        ⟨hpos, hinit.1⟩).serves_nil rfl⟩
  · cases hexec

/-- A command that asks for the fields of a timer or sets them. -/
theorem Follows.exec_control (h : Follows s clock) {timer : Id} {cmd : Control} {arg : Nat}
    (hfits : (Command.control timer cmd arg).Fits) {log : List (Entry Id)} {s' : Timers Id}
    (hexec : s.exec (.control timer cmd arg) = some (log, s')) :
    ∃ clock', Serves s clock log s' clock' := by
  rcases Option.map_eq_some_iff.mp hexec with ⟨⟨answer, s₁⟩, hcontrol, heq⟩
  cases heq
  unfold timerControl at hcontrol
  split at hcontrol
  · cases cmd with
    | getTime | getState | getRemainTime =>
        cases hcontrol
        exact ⟨clock, h.serves_nil rfl⟩
    | setTime =>
        simp only at hcontrol
        split at hcontrol
        · next hless =>
            cases hcontrol
            exact ⟨clock, (h.set timer { s.timer timer with init_tick := arg } (fun _ => rfl)
              (h.armed timer) ⟨hfits, hless⟩).serves_nil rfl⟩
        · cases hcontrol
    | setOneshot =>
        cases hcontrol
        exact ⟨clock, (h.set timer { s.timer timer with periodic := false } (fun _ => rfl)
          (h.armed timer) (h.init_tick timer)).serves_nil rfl⟩
    | setPeriodic =>
        cases hcontrol
        exact ⟨clock, (h.set timer { s.timer timer with periodic := true } (fun _ => rfl)
          (h.armed timer) (h.init_tick timer)).serves_nil rfl⟩
  · cases hcontrol

/-- A command of a thread or of a function. -/
theorem Follows.exec (h : Follows s clock) {c : Command Id} (hfits : c.Fits)
    {log : List (Entry Id)} {s' : Timers Id} (hexec : s.exec c = some (log, s')) :
    ∃ clock', Serves s clock log s' clock' := by
  cases c with
  | init timer time periodic => exact h.exec_init hfits hexec
  | start timer => exact h.exec_start hexec
  | stop timer => exact h.exec_stop hexec
  | detach timer => exact h.exec_detach hexec
  | control timer cmd arg => exact h.exec_control hfits hexec

/-- One command after another. -/
theorem Serves.trans {s' s'' : Timers Id} {clock' clock'' : Clock Id} {log log' : List (Entry Id)}
    (h : Serves s clock log s' clock') (h' : Serves s' clock' log' s'' clock'') :
    Serves s clock (log ++ log') s'' clock'' := by
  rcases h with ⟨hrun, -, hnow, hdue, hlist⟩
  rcases h' with ⟨hrun', hfollows, hnow', hdue', hlist'⟩
  exact ⟨hrun.append hrun', hfollows, hnow'.trans hnow, Nat.le_trans hdue' hdue,
    fun timer hmem => hlist timer (hlist' timer hmem)⟩

/-- Commands in a row. -/
theorem Follows.execAll (h : Follows s clock) {commands : List (Command Id)}
    (hfits : ∀ c ∈ commands, c.Fits) {log : List (Entry Id)} {s' : Timers Id}
    (hexec : s.execAll commands = some (log, s')) : ∃ clock', Serves s clock log s' clock' := by
  induction commands generalizing s clock log with
  | nil =>
      cases hexec
      exact ⟨clock, h.serves_nil rfl⟩
  | cons c rest ih =>
      rw [Timers.execAll] at hexec
      split at hexec
      · cases hexec
      · next first s₁ hfirst =>
          rcases Option.map_eq_some_iff.mp hexec with ⟨⟨log', s''⟩, hrest, heq⟩
          cases heq
          rcases h.exec (hfits c List.mem_cons_self) hfirst with ⟨clock₁, hserves⟩
          rcases ih hserves.2.1 (fun c hc => hfits c (List.mem_cons_of_mem _ hc)) hrest with
            ⟨clock₂, hserves'⟩
          exact ⟨clock₂, hserves.trans hserves'⟩

variable {handler : Id → Timers Id → List (Command Id)}

/-- A timer waits in the temporary list while its function runs. -/
theorem Follows.takeDue {now : Nat} {t : Id} {rest : List (Id × Nat)}
    (h : Follows s ⟨now, (t, now) :: rest⟩) (hlist : s.list = []) :
    Follows (s.takeDue t) ⟨now, rest⟩ ∧ (s.takeDue t).list = [t] := by
  have hqueue := h.list_eq
  simp only [List.map_cons] at hqueue
  have hnodup := h.nodup
  rw [hqueue, List.nodup_cons] at hnodup
  have hrest : s.timer_list.filter (fun other => other ≠ t) = rest.map Prod.fst := by
    rw [hqueue, List.filter_cons_of_neg (by simp)]
    refine List.filter_eq_self.mpr fun other hmem => ?_
    rw [decide_eq_true_iff]
    exact fun heq => hnodup.1 (heq ▸ hmem)
  have hfields : (s.takeDue t).rt_tick = s.rt_tick ∧
      (s.takeDue t).timer_list = rest.map Prod.fst ∧ (s.takeDue t).list = [t] ∧
      (∀ other, other ≠ t → (s.takeDue t).timer other = s.timer other) ∧
      ((s.takeDue t).timer t).init_tick = (s.timer t).init_tick := by
    have htemp : s.list.filter (fun other => other ≠ t) = [] := by rw [hlist, List.filter_nil]
    rw [← hrest]
    unfold Timers.takeDue
    simp only
    split
    · exact ⟨rfl, rfl, congrArg (t :: ·) htemp, fun _ _ => rfl, rfl⟩
    · refine ⟨rfl, rfl, congrArg (t :: ·) htemp, fun other hne => Function.update_of_ne hne _ _, ?_⟩
      simp [deactivate, Timers.set, timerRemove]
  rcases hfields with ⟨htick, htimers, htemp, hother, hinit⟩
  have hne : ∀ entry ∈ rest, entry.1 ≠ t := fun entry hmem heq =>
    hnodup.1 (heq ▸ List.mem_map_of_mem hmem)
  refine ⟨⟨htick.trans h.tick_eq, htimers, fun entry hmem => ?_, h.sorted.tail, ?_, ?_, ?_, ?_⟩,
    htemp⟩
  · rw [hother _ (hne entry hmem)]
    exact h.timeout entry (List.mem_cons_of_mem _ hmem)
  · rw [htimers]
    exact hnodup.2
  · intro other hmem
    rw [htimers] at hmem
    have hne' : other ≠ t := fun heq => hnodup.1 (heq ▸ hmem)
    rw [hother other hne']
    exact h.armed other (hqueue ▸ List.mem_cons_of_mem _ hmem)
  · rw [htemp, htimers]
    refine ⟨Nat.le_refl 1, fun other hmem => ?_⟩
    rw [List.mem_singleton.mp hmem]
    exact hnodup.1
  · intro other
    by_cases hne' : other = t
    · rw [hne', hinit]
      exact h.init_tick t
    · rw [hother other hne']
      exact h.init_tick other

/-- A periodic timer that nothing touched starts again; it is not in the list then. -/
theorem Follows.startAgain (h : Follows s clock) {t : Id} (hout : t ∉ s.timer_list)
    {log : List (Entry Id)} {s' : Timers Id} (hagain : s.startAgain t = some (log, s')) :
    ∃ clock', Serves s clock log s' clock' := by
  rw [Timers.startAgain] at hagain
  split at hagain
  · have hidle : Follows (s.deactivate t) clock :=
      h.set t _ (fun _ => rfl) (fun hmem => absurd hmem hout) (h.init_tick t)
    exact hidle.exec_start hagain
  · cases hagain
    exact ⟨clock, h.serves_nil rfl⟩

/-- A timer that is due rings, its function is called, and it starts again when it is a periodic
one that the function has not touched. -/
theorem Follows.timeout_spec {now : Nat} {t : Id} {rest : List (Id × Nat)}
    (h : Follows s ⟨now, (t, now) :: rest⟩) (hlist : s.list = [])
    (hfits : ∀ t s, ∀ c ∈ handler t s, c.Fits) {log : List (Entry Id)} {s' : Timers Id}
    (htimeout : s.timeout handler t = some (log, s')) :
    ∃ clock', Run ⟨now, (t, now) :: rest⟩ log clock' ∧ Follows s' clock' ∧
      clock'.now = now ∧ due clock' ≤ due ⟨now, rest⟩ ∧ s'.list = [] := by
  rcases h.takeDue hlist with ⟨hfollows, htemp⟩
  unfold Timers.timeout at htimeout
  simp only at htimeout
  split at htimeout
  · cases htimeout
  · next called s₁ hexec =>
      rcases hfollows.execAll (hfits t (s.takeDue t)) hexec with
        ⟨clock₁, hrun, hfollows₁, hnow, hdue, hsub⟩
      have hfire : Run ⟨now, (t, now) :: rest⟩ (.fire t :: called) clock₁ :=
        .cons (.fire now rest t) hrun
      have honly : ∀ other ∈ s₁.list, other = t := fun other hmem => by
        have hthis := hsub other hmem
        rwa [htemp, List.mem_singleton] at hthis
      split at htimeout
      · next hgone =>
          cases htimeout
          exact ⟨clock₁, hfire, hfollows₁, hnow, hdue, hgone⟩
      · next hstays =>
          rcases Option.map_eq_some_iff.mp htimeout with ⟨⟨again, s₂⟩, hagain, heq⟩
          cases heq
          have hempty : s₁.list.filter (fun other => other ≠ t) = [] :=
            List.filter_eq_nil_iff.mpr fun other hmem => by simp [honly other hmem]
          have hout : t ∉ s₁.timer_list := by
            rcases List.exists_mem_of_ne_nil _ hstays with ⟨other, hmem⟩
            exact honly other hmem ▸ hfollows₁.temporary.2 other hmem
          rw [hempty] at hagain
          have hcleared : Follows { s₁ with list := [] } clock₁ :=
            hfollows₁.with_list (Nat.zero_le 1) (by simp)
          rcases hcleared.startAgain hout hagain with
            ⟨clock₂, hrun₂, hfollows₂, hnow₂, hdue₂, hsub₂⟩
          refine ⟨clock₂, ?_, hfollows₂, hnow₂.trans hnow, Nat.le_trans hdue₂ hdue, ?_⟩
          · rw [← List.cons_append]
            exact hfire.append hrun₂
          · exact List.eq_nil_iff_forall_not_mem.mpr fun other hmem =>
              List.not_mem_nil (hsub₂ other hmem)

/-- The loop ends when nothing is due any more, or at an assertion that fails. -/
theorem Follows.checkLoop (h : Follows s clock) (hlist : s.list = [])
    (hfits : ∀ t s, ∀ c ∈ handler t s, c.Fits) {fuel : Nat} (hfuel : due clock < fuel) :
    checkLoop handler fuel s.rt_tick s = .error .assertion ∨
      ∃ log s' clock', checkLoop handler fuel s.rt_tick s = .ok (log, s') ∧
        Run clock log clock' ∧ Follows s' clock' ∧ clock'.now = clock.now ∧ s'.list = [] ∧
        ∀ entry ∈ clock'.queue, clock'.now < entry.2 := by
  induction fuel generalizing s clock with
  | zero => cases hfuel
  | succ fuel ih =>
      rcases clock with ⟨now, queue⟩
      cases queue with
      | nil =>
          refine .inr ⟨[], s, _, ?_, .nil _, h, rfl, hlist, by simp⟩
          unfold Timers.checkLoop
          rw [h.list_eq]
          rfl
      | cons entry rest =>
          rcases entry with ⟨t, deadline⟩
          rcases h.timeout (t, deadline) List.mem_cons_self with ⟨htimeout, hnow, hsoon⟩
          simp only at htimeout hnow hsoon
          have htick := h.tick_eq
          simp only at htick
          have hdue_iff : tickDiff s.rt_tick (s.timer t).timeout_tick < rtTickMax / 2 ↔
              deadline ≤ now := by
            rw [htimeout, htick]
            exact tickDiff_lt_iff (Nat.le_refl now) (by unfold rtTickMax; omega) hnow hsoon
          unfold Timers.checkLoop
          rw [h.list_eq, List.map_cons]
          simp only [hdue_iff]
          by_cases hdue : deadline ≤ now
          · have heq : deadline = now := Nat.le_antisymm hdue hnow
            subst heq
            rw [if_pos hdue]
            split
            · exact .inl rfl
            · next log s₁ hexec =>
                rcases h.timeout_spec hlist hfits hexec with
                  ⟨clock₁, hrun, hfollows, hnow₁, hless, hlist₁⟩
                have hcount : due ⟨deadline, rest⟩ < fuel := by
                  unfold due at hfuel ⊢
                  rw [List.countP_cons_of_pos (by simp)] at hfuel
                  exact Nat.lt_of_succ_lt_succ hfuel
                rcases ih hfollows hlist₁ (Nat.lt_of_le_of_lt hless hcount) with
                  hfails | ⟨log', s₂, clock₂, hloop, hrun', hfollows', hnow₂, hlist₂, hlater⟩
                · rw [hfails]
                  exact .inl rfl
                · rw [hloop]
                  exact .inr ⟨log ++ log', s₂, clock₂, rfl, hrun.append hrun', hfollows',
                    hnow₂.trans hnow₁, hlist₂, hlater⟩
          · rw [if_neg hdue]
            refine .inr ⟨[], s, _, rfl, .nil _, h, rfl, hlist, ?_⟩
            intro entry hmem
            rcases List.mem_cons.mp hmem with rfl | hmem
            · exact Nat.lt_of_not_le hdue
            · exact Nat.lt_of_lt_of_le (Nat.lt_of_not_le hdue)
                ((List.pairwise_cons.mp h.sorted).1 entry hmem)

/-- More fuel does not change what a check has done. -/
theorem checkLoop_mono {fuel fuel' current_tick : Nat}
    (h : Timers.checkLoop handler fuel current_tick s ≠ .error .outOfFuel) (hle : fuel ≤ fuel') :
    Timers.checkLoop handler fuel' current_tick s =
      Timers.checkLoop handler fuel current_tick s := by
  induction fuel generalizing fuel' current_tick s with
  | zero => exact absurd rfl h
  | succ fuel ih =>
      cases fuel' with
      | zero => cases hle
      | succ fuel' =>
          unfold Timers.checkLoop at h ⊢
          split
          · rfl
          · next t rest hlist =>
              rw [hlist] at h
              split
              · next hdue =>
                  simp only [if_pos hdue] at h
                  split
                  · rfl
                  · next log s₁ htimeout =>
                      simp only [htimeout] at h
                      rw [ih (fun heq => h (by rw [heq]; rfl)) (Nat.le_of_succ_le_succ hle)]
              · rfl

end Follows

/-! ## Runs -/

/-- Nothing is being called, and nothing is due. -/
structure Idle {Id : Type} (s : Timers Id) (clock : Clock Id) : Prop where
  follows : Follows s clock
  list_eq : s.list = []
  later : ∀ entry ∈ clock.queue, clock.now < entry.2

/-- The command of an event sets one tick at least. -/
def Event.Fits {Id : Type} : Event Id → Prop
  | .tick => True
  | .command c => c.Fits

/-- The command of an event leaves the timers as objects and sets a time that they can count. -/
def Event.Lasts {Id : Type} : Event Id → Prop
  | .tick => True
  | .command c => c.Lasts

/-- The ticks among some events. -/
def Event.ticks {Id : Type} : List (Event Id) → Nat
  | [] => 0
  | .tick :: events => Event.ticks events + 1
  | .command _ :: events => Event.ticks events

/-- The system after {lit}`rt_system_timer_init` and {lit}`rt_timer_init` of each timer. -/
def boot {Id : Type} (time : Id → Nat) (periodic : Id → Bool) : Timers Id where
  rt_tick := 0
  timer timer := ⟨time timer, 0, periodic timer, false, .timer⟩
  timer_list := []
  list := []

section Runs

variable {Id : Type} [DecidableEq Id] {s : Timers Id} {clock : Clock Id}
  {handler : Id → Timers Id → List (Command Id)}

omit [DecidableEq Id] in
/-- Between the events no timer is due. -/
theorem Idle.due_eq_zero (h : Idle s clock) : due clock = 0 := by
  unfold due
  rw [List.countP_eq_zero]
  intro entry hmem
  have hlater := h.later entry hmem
  simpa using hlater

omit [DecidableEq Id] in
/-- The clock goes on by one tick. -/
theorem Idle.advance (h : Idle s clock) :
    Follows { s with rt_tick := (s.rt_tick + 1) % 2 ^ 32 } ⟨clock.now + 1, clock.queue⟩ := by
  have hfollows := h.follows
  refine ⟨?_, hfollows.list_eq, fun entry hmem => ?_, hfollows.sorted, hfollows.nodup,
    hfollows.armed, hfollows.temporary, hfollows.init_tick⟩
  · simp only
    rw [hfollows.tick_eq, Nat.mod_add_mod]
  · rcases hfollows.timeout entry hmem with ⟨htimeout, hnow, hsoon⟩
    have hlater := h.later entry hmem
    simp only
    exact ⟨htimeout, by omega, by omega⟩

/-- One event, which ends or fails an assertion. -/
theorem Idle.step (h : Idle s clock) (hfits : ∀ t s, ∀ c ∈ handler t s, c.Fits)
    {event : Event Id} (hevent : event.Fits) :
    ∃ enough result, (∀ fuel, enough ≤ fuel → s.step handler fuel event = result) ∧
      (result = .error .assertion ∨ ∃ log s' clock', result = .ok (log, s') ∧
        Run clock log clock' ∧ Idle s' clock' ∧ clock'.now = clock.now + Event.ticks [event]) := by
  cases event with
  | tick =>
      have hcheck := h.advance.checkLoop h.list_eq hfits (Nat.lt_succ_self _)
      let enough := due ⟨clock.now + 1, clock.queue⟩ + 1
      have hstep : ∀ fuel, s.step handler fuel .tick = (Timers.checkLoop handler fuel
          ((s.rt_tick + 1) % 2 ^ 32) { s with rt_tick := (s.rt_tick + 1) % 2 ^ 32 }).map
            fun result => (.tick :: result.1, result.2) := fun _ => rfl
      refine ⟨enough, s.step handler enough .tick, fun fuel hle => ?_, ?_⟩
      · rw [hstep, hstep, checkLoop_mono ?_ hle]
        intro hfuel
        rcases hcheck with hfails | ⟨log, s', clock', hends, -⟩
        · cases hfails.symm.trans hfuel
        · cases hends.symm.trans hfuel
      · rw [hstep]
        rcases hcheck with hfails | ⟨log, s', clock', hends, hrun, hfollows, hnow, hlist, hlater⟩
        · rw [hfails]
          exact .inl rfl
        · rw [hends]
          exact .inr ⟨.tick :: log, s', clock', rfl, .cons (.tick h.later) hrun,
            ⟨hfollows, hlist, hlater⟩, hnow⟩
  | command c =>
      refine ⟨0, s.step handler 0 (.command c), fun _ _ => rfl, ?_⟩
      rw [Timers.step]
      cases hexec : s.exec c with
      | none => exact .inl rfl
      | some result =>
          rcases result with ⟨log, s'⟩
          rcases h.follows.exec hevent hexec with ⟨clock', hrun, hfollows, hnow, hdue, hlist⟩
          rw [h.due_eq_zero, Nat.le_zero] at hdue
          refine .inr ⟨log, s', clock', rfl, hrun, ⟨hfollows, ?_, ?_⟩, hnow⟩
          · refine List.eq_nil_iff_forall_not_mem.mpr fun timer hmem => ?_
            have hold := hlist timer hmem
            rw [h.list_eq] at hold
            cases hold
          · intro entry hmem
            unfold due at hdue
            rw [List.countP_eq_zero] at hdue
            simpa using hdue entry hmem

/-- Events in a row. -/
theorem Idle.run (h : Idle s clock) (hfits : ∀ t s, ∀ c ∈ handler t s, c.Fits)
    {events : List (Event Id)} (hevents : ∀ event ∈ events, event.Fits) :
    ∃ enough result, (∀ fuel, enough ≤ fuel → s.run handler fuel events = result) ∧
      (result = .error .assertion ∨ ∃ log s' clock', result = .ok (log, s') ∧
        Run clock log clock' ∧ Idle s' clock' ∧ clock'.now = clock.now + Event.ticks events) := by
  induction events generalizing s clock with
  | nil => exact ⟨0, _, fun _ _ => rfl, .inr ⟨[], s, clock, rfl, .nil clock, h, rfl⟩⟩
  | cons event events ih =>
      rcases h.step hfits (hevents event List.mem_cons_self) with
        ⟨enough, result, hstep, rfl | ⟨log, s', clock', rfl, hrun, hidle, hnow⟩⟩
      · refine ⟨enough, _, fun fuel hle => ?_, .inl rfl⟩
        rw [Timers.run, hstep fuel hle]
      · rcases ih hidle (fun e he => hevents e (List.mem_cons_of_mem _ he)) with
          ⟨enough', result', hrest, hends⟩
        refine ⟨max enough enough', result'.map fun result => (log ++ result.1, result.2),
          fun fuel hle => ?_, ?_⟩
        · rw [Timers.run, hstep fuel (by omega)]
          simp only [hrest fuel (by omega)]
        · rcases hends with rfl | ⟨log', s'', clock'', rfl, hrun', hidle', hnow'⟩
          · exact .inl rfl
          · refine .inr ⟨log ++ log', s'', clock'', rfl, hrun.append hrun', hidle', ?_⟩
            rw [hnow', hnow]
            cases event with
            | tick =>
                simp only [Event.ticks]
                omega
            | command c =>
                simp only [Event.ticks]
                omega

omit [DecidableEq Id] in
/-- At first no timer is armed. -/
theorem boot_idle {time : Id → Nat} (periodic : Id → Bool)
    (htime : ∀ timer, 0 < time timer ∧ time timer < rtTickMax / 2) :
    Idle (boot time periodic) ⟨0, []⟩ :=
  ⟨⟨rfl, rfl, by simp, .nil, .nil, by simp [boot], ⟨Nat.zero_le 1, by simp [boot]⟩, htime⟩, rfl,
    by simp⟩

/-- Every timer is an object. -/
def AllTimers (s : Timers Id) : Prop :=
  ∀ timer, (s.timer timer).type = .timer

/-- A timer that stays an object gets other fields. -/
theorem AllTimers.set (h : AllTimers s) (timer : Id) {fields : Timer}
    (htype : fields.type = .timer) : AllTimers (s.set timer fields) := by
  intro other
  by_cases hne : other = timer
  · rw [hne]
    exact (congrArg Timer.type (Function.update_self _ _ _)).trans htype
  · exact (congrArg Timer.type (Function.update_of_ne hne _ _)).trans (h other)

/-- The assertions of {lit}`rt_timer_control`. -/
theorem AllTimers.timerControl (h : AllTimers s) {timer : Id} {cmd : Control} {arg : Nat}
    (hlasts : (Command.control timer cmd arg).Lasts) :
    ∃ answer s', s.timerControl timer cmd arg = some (answer, s') ∧ AllTimers s' := by
  unfold Timers.timerControl
  rw [if_pos (h timer)]
  cases cmd with
  | getTime | getState | getRemainTime => exact ⟨_, s, rfl, h⟩
  | setTime => exact ⟨arg, _, if_pos hlasts, h.set timer (h timer)⟩
  | setOneshot | setPeriodic => exact ⟨arg, _, rfl, h.set timer (h timer)⟩

/-- No assertion fails for a timer that is an object. -/
theorem AllTimers.exec (h : AllTimers s) {c : Command Id} (hlasts : c.Lasts) :
    ∃ log s', s.exec c = some (log, s') ∧ AllTimers s' := by
  cases c with
  | init timer time periodic => exact hlasts.elim
  | start timer =>
      refine ⟨[.start timer (s.timer timer).init_tick], s.withStarted timer, ?_,
        h.set timer (h timer)⟩
      rw [Timers.exec, timerStart_eq, if_pos (h timer), Option.map_some]
  | stop timer =>
      rw [Timers.exec, timerStop, if_pos (h timer)]
      split
      · exact ⟨_, _, rfl, h.set timer (h timer)⟩
      · exact ⟨_, _, rfl, h⟩
  | detach timer => exact hlasts.elim
  | control timer cmd arg =>
      rcases h.timerControl hlasts with ⟨answer, s', hcontrol, h'⟩
      refine ⟨[], s', ?_, h'⟩
      rw [Timers.exec, hcontrol, Option.map_some]

/-- Commands in a row. -/
theorem AllTimers.execAll (h : AllTimers s) {commands : List (Command Id)}
    (hlasts : ∀ c ∈ commands, c.Lasts) :
    ∃ log s', s.execAll commands = some (log, s') ∧ AllTimers s' := by
  induction commands generalizing s with
  | nil => exact ⟨[], s, rfl, h⟩
  | cons c rest ih =>
      rcases h.exec (hlasts c List.mem_cons_self) with ⟨log, s', hexec, h'⟩
      rcases ih h' (fun c hc => hlasts c (List.mem_cons_of_mem _ hc)) with ⟨log', s'', hrest, h''⟩
      refine ⟨log ++ log', s'', ?_, h''⟩
      rw [Timers.execAll, hexec]
      simp only [hrest, Option.map_some]

/-- A timer that is due. -/
theorem AllTimers.timeout (h : AllTimers s) (hlasts : ∀ t s, ∀ c ∈ handler t s, c.Lasts) (t : Id) :
    ∃ log s', s.timeout handler t = some (log, s') ∧ AllTimers s' := by
  have htaken : AllTimers (s.takeDue t) := by
    unfold Timers.takeDue
    simp only
    split
    · exact h
    · exact h.set t (h t)
  rcases htaken.execAll (hlasts t (s.takeDue t)) with ⟨log, s', hexec, h'⟩
  unfold Timers.timeout
  simp only [hexec]
  split
  · exact ⟨_, s', rfl, h'⟩
  · rw [startAgain]
    split
    · have hidle : AllTimers (deactivate { s' with list := s'.list.filter fun other =>
          other ≠ t } t) := AllTimers.set h' t (h' t)
      rcases hidle.exec (c := .start t) trivial with ⟨log', s'', hstart, h''⟩
      exact ⟨.fire t :: (log ++ log'), s'', congrArg (Option.map _) hstart, h''⟩
    · exact ⟨_, _, rfl, h'⟩

/-- The loop of a check. -/
theorem AllTimers.checkLoop (h : AllTimers s) (hlasts : ∀ t s, ∀ c ∈ handler t s, c.Lasts)
    (fuel current_tick : Nat) :
    checkLoop handler fuel current_tick s = .error .outOfFuel ∨
      ∃ log s', checkLoop handler fuel current_tick s = .ok (log, s') ∧ AllTimers s' := by
  induction fuel generalizing s current_tick with
  | zero => exact .inl rfl
  | succ fuel ih =>
      unfold Timers.checkLoop
      split
      · exact .inr ⟨[], s, rfl, h⟩
      · next t rest hlist =>
          split
          · rcases h.timeout hlasts t with ⟨log, s', htimeout, h'⟩
            simp only [htimeout]
            rcases ih h' s'.rt_tick with hfuel | ⟨log', s'', hloop, h''⟩
            · rw [hfuel]
              exact .inl rfl
            · rw [hloop]
              exact .inr ⟨_, s'', rfl, h''⟩
          · exact .inr ⟨[], s, rfl, h⟩

/-- Events in a row. -/
theorem AllTimers.run (h : AllTimers s) (hlasts : ∀ t s, ∀ c ∈ handler t s, c.Lasts)
    {events : List (Event Id)} (hevents : ∀ event ∈ events, event.Lasts) (fuel : Nat) :
    s.run handler fuel events ≠ .error .assertion := by
  induction events generalizing s with
  | nil => exact nofun
  | cons event rest ih =>
      have hrest : ∀ event ∈ rest, event.Lasts := fun e he => hevents e (List.mem_cons_of_mem _ he)
      have hstep : s.step handler fuel event = .error .outOfFuel ∨
          ∃ log s', s.step handler fuel event = .ok (log, s') ∧ AllTimers s' := by
        cases event with
        | tick =>
            have hcheck := AllTimers.checkLoop (s := { s with rt_tick := (s.rt_tick + 1) % 2 ^ 32 })
              h hlasts fuel ((s.rt_tick + 1) % 2 ^ 32)
            rw [Timers.step, timerCheck]
            rcases hcheck with hfuel | ⟨log, s', hloop, h'⟩
            · rw [hfuel]
              exact .inl rfl
            · rw [hloop]
              exact .inr ⟨_, s', rfl, h'⟩
        | command c =>
            rcases h.exec (hevents _ List.mem_cons_self) with ⟨log, s', hexec, h'⟩
            rw [Timers.step, hexec]
            exact .inr ⟨log, s', rfl, h'⟩
      rw [Timers.run]
      rcases hstep with hfuel | ⟨log, s', hok, h'⟩
      · rw [hfuel]
        exact nofun
      · rw [hok]
        have hnext := ih h' hrest
        simp only
        cases hresult : s'.run handler fuel rest with
        | error stop =>
            rw [hresult] at hnext
            exact fun heq => hnext (by cases heq; rfl)
        | ok result => exact nofun

/-- Between a start of a timer and its call lie exactly the ticks it was started for, when it is
neither stopped nor started again in between; until then no more ticks can pass. -/
theorem run_on_time {time : Id → Nat} (periodic : Id → Bool)
    (htime : ∀ timer, 0 < time timer ∧ time timer < rtTickMax / 2)
    (hfits : ∀ t s, ∀ c ∈ handler t s, c.Fits) {events : List (Event Id)}
    (hevents : ∀ event ∈ events, event.Fits) :
    ∃ enough result,
      (∀ fuel, enough ≤ fuel → (boot time periodic).run handler fuel events = result) ∧
      (result = .error .assertion ∨ ∃ log s, result = .ok (log, s) ∧
        ∀ timer delay before between, (∀ entry ∈ between, ¬ entry.Touches timer) →
          (∀ after, log = before ++ .start timer delay :: (between ++ .fire timer :: after) →
            ticks between = delay) ∧
          (log = before ++ .start timer delay :: between → ticks between ≤ delay)) := by
  rcases (boot_idle periodic htime).run hfits hevents with ⟨enough, result, hrun, hends⟩
  refine ⟨enough, result, hrun, hends.imp_right ?_⟩
  rintro ⟨log, s, clock, hok, hclock, -⟩
  refine ⟨log, s, hok, fun timer delay before between htouch => ⟨?_, ?_⟩⟩
  · rintro after rfl
    exact hclock.fire_on_time htouch
  · rintro rfl
    exact hclock.not_late htouch

/-- A periodic timer whose function starts another timer, which stops the first one. -/
def relay (t : Bool) (_ : Timers Bool) : List (Command Bool) :=
  if t then [.start false] else [.stop true]

/-- The functions set no times. -/
theorem relay_fits (t : Bool) (s : Timers Bool) : ∀ c ∈ relay t s, c.Fits := by
  cases t with
  | true => simp [relay, Command.Fits]
  | false => simp [relay, Command.Fits]

/-- The second timer is detached before it is called. -/
theorem run_on_time_relay :
    ∃ enough result, (∀ fuel, enough ≤ fuel →
        (boot (fun t => if t then 2 else 3) (fun t => t)).run relay fuel
          [.command (.start true), .tick, .tick, .command (.detach false), .tick] = result) ∧
      (result = .error .assertion ∨ ∃ log s, result = .ok (log, s) ∧
        ∀ timer delay before between, (∀ entry ∈ between, ¬ entry.Touches timer) →
          (∀ after, log = before ++ .start timer delay :: (between ++ .fire timer :: after) →
            ticks between = delay) ∧
          (log = before ++ .start timer delay :: between → ticks between ≤ delay)) :=
  run_on_time (fun t => t) (by decide) relay_fits (by
    intro event hmem
    simp only [List.mem_cons, List.not_mem_nil, or_false] at hmem
    rcases hmem with rfl | rfl | rfl | rfl | rfl <;> exact trivial)

/-- The first timer is called at the ticks two, four and so on; the second one is started again
each time, so that it is never called. -/
example :
    ((boot (fun t => if t then 2 else 3) (fun t => t)).run relay 3
        [.command (.start true), .tick, .tick, .tick, .tick]).map (fun result => result.1) =
      .ok [.start true 2, .tick, .tick, .fire true, .start false 3, .start true 2, .tick, .tick,
        .fire true, .start false 3, .start true 2] := by
  decide

/-- The function of the first timer starts the second one, which is no timer any more. -/
example :
    ((boot (fun t => if t then 2 else 3) (fun t => t)).run relay 3
        [.command (.start true), .command (.detach false), .tick, .tick]).map
          (fun result => result.1) = .error .assertion := by
  decide

end Runs

end Timers
end RtThread
end TestAio
