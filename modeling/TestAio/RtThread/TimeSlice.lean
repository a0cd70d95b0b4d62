import TestAio.RtThread.Scheduler

/-!
# Priorities and time slices

Which thread runs: one with the highest priority, and of several ones with this priority each in
turn.

Main results:

- Theorem {lit}`run_highest`: after each scheduling the current thread has the highest priority.
- Theorem {lit}`run_round_robin`: threads of one priority share the processor in turn, each one
  for the ticks of its time slice.

Current gaps:

- The timers that a tick may call are left out.
-/

namespace TestAio
namespace RtThread

open Library

namespace Scheduler

section Highest

variable {Thread : Type} [DecidableEq Thread]
  {priority init_tick : Thread → Nat} {started : List Thread} {events : List (Event Thread)}

/-- The current thread runs and no ready thread has a higher priority, or it is suspended or closed
and no thread is ready at all. -/
def Settled {Queue : Type} (s : Scheduler Queue Thread) : Prop :=
  ∃ current, s.current_thread = some current ∧
    ((s.thread current).stat = .running ∧ (∀ other, (s.thread other).stat = .ready →
        (s.thread current).current_priority ≤ (s.thread other).current_priority) ∨
      ((s.thread current).stat = .suspend ∨ (s.thread current).stat = .close) ∧
        ∀ other, (s.thread other).stat ≠ .ready)

/-- What ends with a scheduling. -/
def Event.Reschedules : Event Thread → Prop
  | .startup _ | .schedule | .yield | .timeout _ | .exit | .exitCritical => True
  | _ => False

omit [DecidableEq Thread] in
/-- A call that ends with a scheduling sets no priority. -/
theorem Event.Reschedules.fits {event : Event Thread} (h : event.Reschedules) : event.Fits := by
  cases event with
  | changePriority => exact h.elim
  | _ => trivial

variable {s s' : Scheduler (PriorityTable Thread) Thread} {a a' : Scheduler (List Thread) Thread}

omit [DecidableEq Thread] in
/-- The current thread runs, or it is suspended or closed. -/
theorem Valid.current_cases (h : Valid a) {current : Thread}
    (hcurrent : a.current_thread = some current) :
    (a.thread current).stat = .running ∨
      ((a.thread current).stat = .suspend ∨ (a.thread current).stat = .close) := by
  rcases h.current current hcurrent with ⟨hready, hinit, -⟩
  cases hstat : (a.thread current).stat with
  | init => exact absurd hstat hinit
  | ready => exact absurd hstat hready
  | suspend => exact .inr (.inl rfl)
  | running => exact .inl rfl
  | close => exact .inr (.inr rfl)

/-- The current thread goes on. -/
theorem keep_settles {current : Thread} (hcurrent : a.current_thread = some current)
    (hle : ∀ other, (a.thread other).stat = .ready →
      (a.thread current).current_priority ≤ (a.thread other).current_priority) :
    Settled (a.keep current) := by
  refine ⟨current, hcurrent, .inl ⟨by rw [keep_thread, if_pos rfl], fun other hother => ?_⟩⟩
  have hnot : other ≠ current := by
    rintro rfl
    rw [keep_thread, if_pos rfl] at hother
    cases hother
  rw [keep_thread, if_neg hnot] at hother
  rw [keep_thread, keep_thread, if_pos rfl, if_neg hnot]
  exact hle other hother

/-- A ready thread with the highest priority takes the place of one with no higher priority. -/
theorem preempt_settles {current highest : Thread} (hne : highest ≠ current)
    (hcurrent : (a.thread highest).current_priority ≤ (a.thread current).current_priority)
    (hle : ∀ other, (a.thread other).stat = .ready →
      (a.thread highest).current_priority ≤ (a.thread other).current_priority) :
    Settled (a.preempt current highest) := by
  refine ⟨highest, preempt_current a current highest,
    .inl ⟨by rw [preempt_thread a hne, if_pos rfl], fun other hother => ?_⟩⟩
  have hnot : other ≠ highest := by
    rintro rfl
    rw [preempt_thread a hne, if_pos rfl] at hother
    cases hother
  rw [preempt_thread a hne, if_neg hnot] at hother
  rw [preempt_thread a hne highest, if_pos rfl, preempt_thread a hne other, if_neg hnot]
  split
  · exact hcurrent
  · next hthat =>
      rw [if_neg hthat] at hother
      exact hle other hother

/-- A ready thread with the highest priority takes the place of one that does not run. -/
theorem dispatch_settles {highest : Thread}
    (hle : ∀ other, (a.thread other).stat = .ready →
      (a.thread highest).current_priority ≤ (a.thread other).current_priority) :
    Settled (a.dispatch highest) := by
  refine ⟨highest, rfl, .inl ⟨by rw [dispatch_thread, if_pos rfl], fun other hother => ?_⟩⟩
  have hnot : other ≠ highest := by
    rintro rfl
    rw [dispatch_thread, if_pos rfl] at hother
    cases hother
  rw [dispatch_thread, if_neg hnot] at hother
  rw [dispatch_thread, dispatch_thread, if_pos rfl, if_neg hnot]
  exact hle other hother

/-- A scheduling that is not locked leaves the right thread running. -/
theorem Valid.schedule_settles (h : Valid a) (hcurrent : a.current_thread ≠ none)
    (hschedule : a.schedule = some a') (hlock : a'.lock_nest = 0) : Settled a' := by
  rcases h.schedule_cases with ⟨hidle, heq⟩ | ⟨-, -, hnone, -⟩ |
    ⟨current, highest, -, hcurrent, hfirst, hne, heq⟩
  · obtain rfl : a = a' := Option.some.inj (heq.symm.trans hschedule)
    rcases Option.ne_none_iff_exists'.mp hcurrent with ⟨current, hcurrent⟩
    have hempty : a.queue = [] := hidle.resolve_left fun hnot => hnot hlock
    have hnone : ∀ other, (a.thread other).stat ≠ .ready := fun other hother => by
      have hmem := (h.listed.mem_iff other).mpr hother
      rw [hempty] at hmem
      cases hmem
    refine ⟨current, hcurrent, (h.current_cases hcurrent).imp (fun hrunning => ?_) fun hstat => ?_⟩
    · exact ⟨hrunning, fun other hother => absurd hother (hnone other)⟩
    · exact ⟨hstat, hnone⟩
  · exact absurd hnone hcurrent
  · obtain rfl := Option.some.inj (heq.symm.trans hschedule)
    have hle : ∀ other, (a.thread other).stat = .ready →
        (a.thread highest).current_priority ≤ (a.thread other).current_priority :=
      fun other hother => (ReadyList.first_spec hfirst).2 other
        ((h.listed.mem_iff other).mpr hother)
    by_cases hstays : a.Stays current (a.thread highest).current_priority
    · rw [if_pos hstays]
      refine keep_settles hcurrent fun other hother => Nat.le_trans ?_ (hle other hother)
      rcases hstays.2 with hlt | ⟨heq, -⟩
      · exact Nat.le_of_lt hlt
      · exact Nat.le_of_eq heq
    · rw [if_neg hstays]
      split
      · next hrunning =>
          exact preempt_settles hne (Nat.le_of_not_lt fun hlt => hstays ⟨hrunning, .inl hlt⟩) hle
      · exact dispatch_settles hle

/-- When a call that ends with a scheduling is over, the right thread is the current one. -/
theorem Agrees.step_settles (h : Agrees s a) {event : Event Thread}
    (hreschedules : event.Reschedules) (hcurrent : a.current_thread ≠ none)
    (hstep : a.step event = some a') (hlock : a'.lock_nest = 0) : Settled a' := by
  cases event with
  | startup thread =>
      rw [Scheduler.step, Scheduler.threadStartup] at hstep
      split at hstep
      · next hstat =>
          have hresumed := (h.prepare hstat).threadResume thread
          rw [if_pos (by simpa using hcurrent)] at hstep
          exact hresumed.valid.schedule_settles (by simpa using hcurrent) hstep hlock
      · cases hstep
  | schedule => exact h.valid.schedule_settles hcurrent hstep hlock
  | yield =>
      rcases Option.bind_eq_some_iff.mp hstep with ⟨current, -, hschedule⟩
      exact (h.modify current rfl rfl rfl).valid.schedule_settles hcurrent hschedule hlock
  | timeout thread =>
      rw [Scheduler.step] at hstep
      split at hstep
      · next hstat =>
          exact (h.valid.insertThread hstat).schedule_settles (by simpa using hcurrent) hstep hlock
      · cases hstep
  | exit =>
      rcases Option.bind_eq_some_iff.mp hstep with ⟨current, ha, hschedule⟩
      exact (h.valid.leave (.inr rfl) (h.valid.current current ha).2.2).schedule_settles
        hcurrent hschedule hlock
  | exitCritical =>
      rw [Scheduler.step, Scheduler.exitCritical] at hstep
      dsimp only at hstep
      split at hstep
      · have hunlocked : Agrees { s with lock_nest := 0 } { a with lock_nest := 0 } := h.setLock rfl
        exact hunlocked.valid.schedule_settles hcurrent hstep hlock
      · next hlast =>
          obtain rfl := Option.some.inj hstep
          exact absurd (Int.le_of_eq hlock) hlast
  | suspend | resume | changePriority | detach | tick | enterCritical => exact hreschedules.elim

/-- When one of two related results exists, the other one does. -/
theorem exists_of_rel {α β : Type} {relation : α → β → Prop} {left : Option α} {right : Option β}
    {value : α} (hrel : Option.Rel relation left right) (hleft : left = some value) :
    ∃ found, right = some found ∧ relation value found := by
  cases hrel with
  | some hsome =>
      obtain rfl := Option.some.inj hleft
      exact ⟨_, rfl, hsome⟩
  | none => cases hleft

/-- Whatever is reached on the table is reached on the list. -/
theorem exists_agrees (hpriority : ∀ thread, priority thread < 32)
    (hfits : ∀ event ∈ events, event.Fits)
    (hrun : system (emptyTable Thread) priority init_tick started events = some s) :
    ∃ a, Agrees s a ∧ a.current_thread ≠ none := by
  rcases Option.bind_eq_some_iff.mp hrun with ⟨launched, hlaunch, hrest⟩
  rcases Option.bind_eq_some_iff.mp hlaunch with ⟨booted, -, hstart⟩
  rcases exists_of_rel (Agrees.system hpriority hfits) hrun with ⟨a, -, hagrees⟩
  refine ⟨a, hagrees, ?_⟩
  rw [← hagrees.refines.current_eq]
  exact run_current (systemSchedulerStart_current hstart) hrest

/-- Whenever a scheduling is over and the scheduler is not locked, the current thread runs and no
ready thread has a higher priority; only when no thread is ready at all may the current one be
suspended or closed. -/
theorem run_highest {event : Event Thread} (hpriority : ∀ thread, priority thread < 32)
    (hfits : ∀ event ∈ events, event.Fits) (hreschedules : event.Reschedules)
    (hrun : system (emptyTable Thread) priority init_tick started (events ++ [event]) = some s)
    (hlock : s.lock_nest = 0) : Settled s := by
  rw [system] at hrun
  rcases Option.bind_eq_some_iff.mp hrun with ⟨launched, hlaunch, hevents⟩
  rw [run_append] at hevents
  rcases Option.bind_eq_some_iff.mp hevents with ⟨before, hbefore, hstep⟩
  have hsystem : system (emptyTable Thread) priority init_tick started events = some before := by
    rw [system, hlaunch, Option.bind_some, hbefore]
  rcases exists_agrees hpriority hfits hsystem with ⟨a, hagrees, hcurrent⟩
  rw [run, Option.bind_eq_some_iff] at hstep
  rcases hstep with ⟨after, hstep, hafter⟩
  obtain rfl : after = s := Option.some.inj hafter
  rcases exists_of_rel (hagrees.step hreschedules.fits) hstep with ⟨a', hstep', hnext⟩
  have hsettled := hagrees.step_settles hreschedules hcurrent hstep'
    (hnext.refines.lock_eq ▸ hlock)
  rw [Settled, hnext.refines.thread_eq, hnext.refines.current_eq]
  exact hsettled

/-- A thread with a higher priority is started, and later lowered. -/
theorem run_highest_lowered :
    ∃ s, system (emptyTable Nat) (fun thread => 10 - thread % 10) (fun _ => 5) [0]
        ([.startup 1, .changePriority 1 11] ++ [.schedule]) = some s ∧
      s.current_thread = some 0 ∧ Settled s := by
  have hcurrent : (system (emptyTable Nat) (fun thread => 10 - thread % 10) (fun _ => 5) [0]
      ([.startup 1, .changePriority 1 11] ++ [.schedule])).map
        (fun s => (s.current_thread, s.lock_nest)) = some (some 0, 0) := by
    decide +kernel
  rcases Option.map_eq_some_iff.mp hcurrent with ⟨s, hrun, hs⟩
  have hreschedules : (Event.schedule : Event Nat).Reschedules := trivial
  exact ⟨s, hrun, congrArg Prod.fst hs, run_highest (fun thread => by omega)
    (by simp [Event.Fits]) hreschedules hrun (congrArg Prod.snd hs)⟩

end Highest

/-! ## Time slices -/

section Slices

variable {Queue Thread : Type} [DecidableEq Thread] [ReadyQueue Queue Thread]

/-- During the next ticks these threads run one after the other. -/
def Ticks (s : Scheduler Queue Thread) : List Thread → Scheduler Queue Thread → Prop
  | [], s' => s' = s
  | current :: rest, s' => s.current_thread = some current ∧
      ∃ next, s.step .tick = some next ∧ next.Ticks rest s'

variable {s s' s'' : Scheduler Queue Thread}

/-- The ticks of two stretches follow each other. -/
theorem Ticks.append {log later : List Thread} (h : s.Ticks log s') (hlater : s'.Ticks later s'') :
    s.Ticks (log ++ later) s'' := by
  induction log generalizing s with
  | nil =>
      obtain rfl : s' = s := h
      exact hlater
  | cons current rest ih =>
      rcases h with ⟨hcurrent, next, hstep, hrest⟩
      exact ⟨hcurrent, next, hstep, ih hrest⟩

/-- The current thread runs for the rest of its slice, and then the slice starts again. -/
theorem ticks_slice {current : Thread} {remaining : Nat}
    (hcurrent : s.current_thread = some current)
    (hremaining : (s.thread current).remaining_tick = remaining + 1) (hlt : remaining + 1 < 2 ^ 32)
    (hschedule : (s.modify current reload).schedule = some s') :
    s.Ticks (List.replicate (remaining + 1) current) s' := by
  have hticked : ((s.thread current).remaining_tick + 2 ^ 32 - 1) % 2 ^ 32 = remaining := by
    rw [hremaining]
    omega
  have htick : s.step .tick = s.tickIncrease current := by
    rw [step, hcurrent, Option.bind_some]
  induction remaining generalizing s with
  | zero =>
      refine ⟨hcurrent, s', ?_, rfl⟩
      rw [htick, tickIncrease, hticked, if_pos rfl]
      exact hschedule
  | succ remaining ih =>
      refine ⟨hcurrent, s.modify current fun data => { data with
        remaining_tick := remaining + 1 }, ?_, ?_⟩
      · rw [htick, tickIncrease, hticked, if_neg (Nat.succ_ne_zero remaining)]
      · refine ih hcurrent ?_ (by omega) ?_ ?_ ?_
        · simp [modify]
        · rw [← hschedule]
          simp [modify, reload]
        · simp only [modify, Function.update_self]
          omega
        · rw [step, modify_current, hcurrent, Option.bind_some]

end Slices

section Turns

variable {Thread : Type} [DecidableEq Thread] {a a' a'' : Scheduler (List Thread) Thread}
  {number : Nat} {current : Thread} {others turned : List Thread}

/-- A thread runs that shares its priority with others, and no higher one is ready. -/
structure Turning (a : Scheduler (List Thread) Thread) (number : Nat) (current : Thread)
    (others : List Thread) : Prop where
  valid : Valid a
  lock_eq : a.lock_nest = 0
  current_eq : a.current_thread = some current
  running : (a.thread current).stat = .running
  priority_eq : (a.thread current).current_priority = number
  level_eq : ReadyList.level (fun thread => (a.thread thread).current_priority) a.queue number =
    others
  least : ∀ other ∈ a.queue, number ≤ (a.thread other).current_priority

/-- Some threads had their turn: their slices start again, and the other priorities are as they
were. -/
structure Turned (a a' : Scheduler (List Thread) Thread) (number : Nat) (turned : List Thread) :
    Prop where
  priority_eq : ∀ thread,
    (a'.thread thread).current_priority = (a.thread thread).current_priority
  init_eq : ∀ thread, (a'.thread thread).init_tick = (a.thread thread).init_tick
  remaining_eq : ∀ thread, (a'.thread thread).remaining_tick =
    if thread ∈ turned then (a.thread thread).init_tick else (a.thread thread).remaining_tick
  level_eq : ∀ other_number, other_number ≠ number →
    ReadyList.level (fun thread => (a'.thread thread).current_priority) a'.queue other_number =
      ReadyList.level (fun thread => (a.thread thread).current_priority) a.queue other_number

/-- Two turns one after the other are a turn. -/
theorem Turned.trans {more : List Thread} (h : Turned a a' number turned)
    (hmore : Turned a' a'' number more) : Turned a a'' number (turned ++ more) where
  priority_eq thread := (hmore.priority_eq thread).trans (h.priority_eq thread)
  init_eq thread := (hmore.init_eq thread).trans (h.init_eq thread)
  remaining_eq thread := by
    rw [hmore.remaining_eq, h.remaining_eq, h.init_eq]
    by_cases hlate : thread ∈ more <;> simp [hlate]
  level_eq other_number hne :=
    (hmore.level_eq other_number hne).trans (h.level_eq other_number hne)

omit [DecidableEq Thread] in
/-- The others are the ready threads of the same priority. -/
theorem Turning.mem_iff (h : Turning a number current others) (thread : Thread) :
    thread ∈ others ↔ thread ∈ a.queue ∧ (a.thread thread).current_priority = number := by
  rw [← h.level_eq]
  exact ReadyList.mem_level

omit [DecidableEq Thread] in
/-- The current thread is none of the others. -/
theorem Turning.not_mem (h : Turning a number current others) : current ∉ others := fun hmem =>
  h.valid.not_mem_current h.current_eq ((h.mem_iff current).mp hmem).1

/-- A full slice does not change a priority. -/
theorem reload_priority (a : Scheduler (List Thread) Thread) (current : Thread) :
    (fun thread => ((a.modify current reload).thread thread).current_priority) =
      fun thread => (a.thread thread).current_priority := by
  funext thread
  by_cases heq : thread = current
  · subst heq
    simp [modify, reload]
  · simp [modify, heq]

/-- The slice of the current thread starts again, before another one runs. -/
theorem Turning.reload (h : Turning a number current others) :
    Turning (a.modify current reload) number current others ∧
      Turned a (a.modify current reload) number [current] := by
  have hpriority := reload_priority a current
  constructor
  · refine ⟨h.valid.modify current rfl id (h.valid.listed.fits current), h.lock_eq,
      h.current_eq, ?_, ?_, ?_, fun other hmem => ?_⟩
    · simp only [modify, Function.update_self]
      exact h.running
    · rw [congrFun hpriority current]
      exact h.priority_eq
    · rw [hpriority]
      exact h.level_eq
    · rw [congrFun hpriority other]
      exact h.least other hmem
  · refine ⟨congrFun hpriority, fun thread => ?_, fun thread => ?_, fun other_number _ => ?_⟩
    · by_cases heq : thread = current
      · subst heq
        simp [modify, Scheduler.reload]
      · simp [modify, heq]
    · by_cases heq : thread = current
      · subst heq
        simp [modify, Scheduler.reload]
      · simp [modify, heq]
    · rw [hpriority]
      rfl

/-- Going on does not change a priority. -/
theorem keep_priority (a : Scheduler (List Thread) Thread) (current : Thread) :
    (fun thread => ((a.keep current).thread thread).current_priority) =
      fun thread => (a.thread thread).current_priority := by
  funext thread
  rw [keep_thread]
  split
  · next heq => rw [heq]
  · rfl

/-- The current thread goes on, and the others stay in line. -/
theorem Turning.keep (h : Turning a number current others) :
    Turning (a.keep current) number current others ∧ Turned a (a.keep current) number [] := by
  have hpriority := keep_priority a current
  have hqueue : (a.keep current).queue = a.queue := by
    rw [keep_queue, List.erase_of_not_mem (h.valid.not_mem_current h.current_eq)]
  constructor
  · refine ⟨h.valid.keep h.current_eq, h.lock_eq, h.current_eq, ?_, ?_, ?_,
      fun other hmem => ?_⟩
    · rw [keep_thread, if_pos rfl]
    · rw [congrFun hpriority current]
      exact h.priority_eq
    · rw [hpriority, hqueue]
      exact h.level_eq
    · rw [congrFun hpriority other]
      exact h.least other (hqueue ▸ hmem)
  · refine ⟨congrFun hpriority, fun thread => ?_, fun thread => ?_, fun other_number _ => ?_⟩
    · rw [keep_thread]
      split
      · next heq => rw [heq]
      · rfl
    · rw [keep_thread]
      split
      · next heq => simp [heq]
      · simp
    · rw [hpriority, hqueue]

/-- A preemption does not change a priority. -/
theorem preempt_priority (a : Scheduler (List Thread) Thread) {current highest : Thread}
    (hne : highest ≠ current) :
    (fun thread => ((a.preempt current highest).thread thread).current_priority) =
      fun thread => (a.thread thread).current_priority := by
  funext thread
  rw [preempt_thread a hne]
  split
  · next heq => rw [heq]
  · split
    · next heq => rw [heq]
    · rfl

/-- A preemption does not change the lock counter. -/
theorem preempt_lock (a : Scheduler (List Thread) Thread) (current highest : Thread) :
    (a.preempt current highest).lock_nest = a.lock_nest := by
  simp only [Scheduler.preempt, modify, removeThread, insertThread]
  split <;> rfl

/-- The next thread in line takes over, and the current one goes to the end of the line. -/
theorem Turning.preempt {following : Thread} (h : Turning a number current (following :: others)) :
    Turning (a.preempt current following) number following (others ++ [current]) ∧
      Turned a (a.preempt current following) number [] := by
  have hfollowing := (h.mem_iff following).mp List.mem_cons_self
  have hcurrent := h.valid.not_mem_current h.current_eq
  have hne : following ≠ current := fun heq => hcurrent (heq ▸ hfollowing.1)
  have hpriority := preempt_priority a hne
  have hnodup : (a.queue ++ [current]).Nodup := by
    refine List.nodup_append.mpr ⟨h.valid.listed.nodup, List.nodup_singleton current, ?_⟩
    rintro other hother _ hself rfl
    exact hcurrent (List.mem_singleton.mp hself ▸ hother)
  constructor
  · refine ⟨h.valid.preempt h.current_eq hfollowing.1, ?_, preempt_current a current following,
      ?_, ?_, ?_, fun other hmem => ?_⟩
    · rw [preempt_lock, h.lock_eq]
    · rw [preempt_thread a hne, if_pos rfl]
    · rw [congrFun hpriority following]
      exact hfollowing.2
    · rw [hpriority, preempt_queue a hne, ReadyList.level_erase hnodup, ReadyList.level_append,
        if_pos h.priority_eq, h.level_eq, List.cons_append, List.erase_cons_head]
    · rw [congrFun hpriority other]
      rw [preempt_queue a hne] at hmem
      rcases List.mem_append.mp (List.mem_of_mem_erase hmem) with hmem | hmem
      · exact h.least other hmem
      · rw [List.mem_singleton.mp hmem, h.priority_eq]
  · refine ⟨congrFun hpriority, fun thread => ?_, fun thread => ?_, fun other_number hother => ?_⟩
    · rw [preempt_thread a hne]
      split
      · next heq => rw [heq]
      · split
        · next heq => rw [heq]
        · rfl
    · rw [preempt_thread a hne]
      split
      · next heq => simp [heq]
      · split
        · next heq => simp [heq]
        · simp
    · rw [hpriority, preempt_queue a hne, ReadyList.level_erase hnodup, ReadyList.level_append,
        if_neg (by rw [h.priority_eq]; exact hother.symm), List.erase_of_not_mem]
      exact fun hmem => hother ((ReadyList.mem_level.mp hmem).2.symm.trans hfollowing.2)

/-- At the end of its slice the current thread becomes the last one of its priority, and the first
one runs. -/
theorem Turning.schedule (h : Turning a number current others) :
    ∃ b following rest, (a.modify current Scheduler.reload).schedule = some b ∧
      Turning b number following rest ∧ following :: rest = others ++ [current] ∧
      Turned a b number [current] := by
  rcases h.reload with ⟨hreload, hturned⟩
  have hyield : ((a.modify current Scheduler.reload).thread current).yield = true := by
    simp [modify, Scheduler.reload]
  generalize a.modify current Scheduler.reload = b at hreload hturned hyield ⊢
  rcases hreload.valid.schedule_cases with ⟨hidle, heq⟩ | ⟨-, -, hnone, -⟩ |
    ⟨current', highest, -, hcurrent, hfirst, hne, heq⟩
  · have hempty : b.queue = [] := hidle.resolve_left fun hlock => hlock hreload.lock_eq
    obtain rfl : others = [] := by
      rw [← hreload.level_eq, hempty]
      rfl
    exact ⟨b, current, [], heq, hreload, rfl, hturned⟩
  · rw [hreload.current_eq] at hnone
    cases hnone
  · obtain rfl : current = current' := Option.some.inj (hreload.current_eq.symm.trans hcurrent)
    rcases ReadyList.first_spec hfirst with ⟨hready, -⟩
    cases others with
    | nil =>
        have hlt : number < (b.thread highest).current_priority := by
          refine Nat.lt_of_le_of_ne (hreload.least highest hready) fun hnumber => ?_
          cases (hreload.mem_iff highest).mpr ⟨hready, hnumber.symm⟩
        have hstays : b.Stays current (b.thread highest).current_priority :=
          ⟨hreload.running, .inl (hreload.priority_eq ▸ hlt)⟩
        rw [if_pos hstays] at heq
        rcases hreload.keep with ⟨hkeep, hkept⟩
        exact ⟨b.keep current, current, [], heq, hkeep, rfl, hturned.trans hkept⟩
    | cons following rest =>
        obtain rfl : following = highest := by
          rw [ReadyList.first_eq hreload.level_eq hreload.least] at hfirst
          exact Option.some.inj hfirst
        have hnumber := ((hreload.mem_iff following).mp List.mem_cons_self).2
        have hstays : ¬ b.Stays current (b.thread following).current_priority := by
          rintro ⟨-, hlt | ⟨-, hno⟩⟩
          · rw [hreload.priority_eq, hnumber] at hlt
            exact Nat.lt_irrefl _ hlt
          · rw [hyield] at hno
            cases hno
        rw [if_neg hstays, if_pos hreload.running] at heq
        rcases hreload.preempt with ⟨hpreempt, hpreempted⟩
        exact ⟨b.preempt current following, following, rest ++ [current], heq, hpreempt, rfl,
          hturned.trans hpreempted⟩

/-- The threads that are next have their turn one after the other. -/
theorem Turning.turns (todo finished : List Thread) (h : Turning a number current others)
    (hring : current :: others = todo ++ finished)
    (hslices : ∀ thread ∈ todo, 0 < (a.thread thread).remaining_tick ∧
      (a.thread thread).remaining_tick < 2 ^ 32) :
    ∃ a' current' others',
      a.Ticks (todo.flatMap fun thread =>
        List.replicate (a.thread thread).remaining_tick thread) a' ∧
      Turning a' number current' others' ∧ current' :: others' = finished ++ todo ∧
      Turned a a' number todo := by
  induction todo generalizing a current others finished with
  | nil =>
      refine ⟨a, current, others, rfl, h, by simpa using hring, ?_⟩
      exact ⟨fun _ => rfl, fun _ => rfl, fun _ => by simp, fun _ _ => rfl⟩
  | cons thread todo ih =>
      obtain ⟨rfl, hothers⟩ := List.cons.inj hring
      rcases h.schedule with ⟨b, following, rest, hschedule, hturning, hrest, hturned⟩
      have hslice := hslices current List.mem_cons_self
      rcases Nat.exists_eq_succ_of_ne_zero (Nat.ne_of_gt hslice.1) with ⟨remaining, hremaining⟩
      have hticks := ticks_slice h.current_eq hremaining (by omega) hschedule
      -- the slices of the others are untouched
      have hsame : ∀ thread ∈ todo, (b.thread thread).remaining_tick =
          (a.thread thread).remaining_tick := by
        intro thread hmem
        have hne : thread ≠ current := by
          rintro rfl
          exact h.not_mem (hothers ▸ List.mem_append_left _ hmem)
        rw [hturned.remaining_eq, if_neg (by simpa using hne)]
      have hslices' : ∀ thread ∈ todo, 0 < (b.thread thread).remaining_tick ∧
          (b.thread thread).remaining_tick < 2 ^ 32 := by
        intro thread hmem
        rw [hsame thread hmem]
        exact hslices thread (List.mem_cons_of_mem _ hmem)
      have hring' : following :: rest = todo ++ (finished ++ [current]) := by
        rw [hrest, hothers]
        exact List.append_assoc ..
      rcases ih (finished ++ [current]) hturning hring' hslices'
        with ⟨a', current', others', hlater, hturning', hfinal, hturned'⟩
      refine ⟨a', current', others', ?_, hturning', ?_, hturned.trans hturned'⟩
      · rw [List.flatMap_cons, hremaining]
        refine hticks.append ?_
        rw [List.flatMap_congr fun thread hmem => by rw [hsame thread hmem]] at hlater
        exact hlater
      · rw [hfinal, List.append_assoc]
        rfl

variable {s : Scheduler (PriorityTable Thread) Thread} {priority init_tick : Thread → Nat}
  {started : List Thread} {events : List (Event Thread)}

/-- The ticks that the list makes are ticks of the table too. -/
theorem Agrees.ticks {log : List Thread} (h : Agrees s a) (hticks : a.Ticks log a') :
    ∃ s', s.Ticks log s' ∧ Agrees s' a' := by
  induction log generalizing s a with
  | nil =>
      obtain rfl : a' = a := hticks
      exact ⟨s, rfl, h⟩
  | cons thread rest ih =>
      rcases hticks with ⟨hcurrent, next, hstep, hrest⟩
      have hfits : (Event.tick : Event Thread).Fits := trivial
      have hrel := h.step hfits
      rw [hstep] at hrel
      match hs : s.step .tick, hrel with
      | _, .some hnext =>
          rcases ih hnext hrest with ⟨s', hlog, hagrees⟩
          exact ⟨s', ⟨h.refines.current_eq.trans hcurrent, _, hs, hlog⟩, hagrees⟩

omit [DecidableEq Thread] in
/-- The bits of the table follow from its lists. -/
theorem PriorityTable.Levels.eq_of_table {q q' : PriorityTable Thread}
    {data data' : Thread → ThreadData} {ready ready' : List Thread} (h : q.Levels data ready)
    (h' : q'.Levels data' ready') (htable : q'.priority_table = q.priority_table) : q' = q := by
  have hgroup : q'.ready_priority_group = q.ready_priority_group := by
    refine BitVec.eq_of_getLsbD_eq fun number hnumber => ?_
    rw [Bool.eq_iff_iff, h.group_iff number hnumber, h'.group_iff number hnumber, htable]
  cases q
  cases q'
  cases htable
  cases hgroup
  rfl

/-- Each of the threads that share the highest priority runs for the ticks that are left of its
slice, in the order of their list; then the first one runs again, the table is as it was, and the
slices are full. -/
theorem run_round_robin {current : Thread} (hpriority : ∀ thread, priority thread < 32)
    (hfits : ∀ event ∈ events, event.Fits)
    (hrun : system (emptyTable Thread) priority init_tick started events = some s)
    (hlock : s.lock_nest = 0) (hcurrent : s.current_thread = some current)
    (hrunning : (s.thread current).stat = .running)
    (hhighest : ∀ other, (s.thread other).stat = .ready →
      (s.thread current).current_priority ≤ (s.thread other).current_priority)
    (hslices : ∀ thread ∈ current ::
      s.queue.priority_table (s.thread current).current_priority,
      0 < (s.thread thread).remaining_tick ∧ (s.thread thread).remaining_tick < 2 ^ 32) :
    ∃ s', s.Ticks ((current :: s.queue.priority_table
        (s.thread current).current_priority).flatMap fun thread =>
          List.replicate (s.thread thread).remaining_tick thread) s' ∧
      s'.current_thread = some current ∧ s'.queue = s.queue ∧
      ∀ thread, (s'.thread thread).remaining_tick =
        if thread ∈ current :: s.queue.priority_table (s.thread current).current_priority
        then (s.thread thread).init_tick else (s.thread thread).remaining_tick := by
  rcases exists_agrees hpriority hfits hrun with ⟨a, hagrees, -⟩
  have hthread := hagrees.refines.thread_eq
  have hlevels := hagrees.refines.levels
  rw [hthread] at hrunning hhighest hslices ⊢
  generalize hnumber : (a.thread current).current_priority = number at hhighest hslices ⊢
  have hturning : Turning a number current (s.queue.priority_table number) := {
    valid := hagrees.valid
    lock_eq := hagrees.refines.lock_eq ▸ hlock
    current_eq := hagrees.refines.current_eq ▸ hcurrent
    running := hrunning
    priority_eq := hnumber
    level_eq := (hlevels.table_eq number).symm
    least := fun other hmem => hhighest other ((hagrees.valid.listed.mem_iff other).mp hmem) }
  rcases hturning.turns _ [] (List.append_nil _).symm hslices
    with ⟨a', current', others', hticks, hturning', hring, hturned⟩
  rcases hagrees.ticks hticks with ⟨s', hlog, hagrees'⟩
  obtain ⟨rfl, hothers⟩ := List.cons.inj hring
  refine ⟨s', hlog, hagrees'.refines.current_eq.trans hturning'.current_eq,
    hlevels.eq_of_table hagrees'.refines.levels (funext fun other_number => ?_), fun thread => ?_⟩
  · rw [hagrees'.refines.levels.table_eq]
    by_cases hother : other_number = number
    · rw [hother, hturning'.level_eq]
      exact hothers
    · rw [hturned.level_eq other_number hother, hlevels.table_eq]
  · rw [hagrees'.refines.thread_eq]
    exact hturned.remaining_eq thread

/-- Three threads, the first one in the midst of its slice. -/
theorem run_round_robin_three :
    ∃ s s', system (emptyTable (Fin 3)) (fun _ => 3) (fun thread : Fin 3 => thread + 1) [1, 0, 2]
        [.tick] = some s ∧ s.Ticks [1, 0, 2, 2, 2] s' ∧ s'.current_thread = some 1 ∧
      s'.queue = s.queue := by
  have hstate : (system (emptyTable (Fin 3)) (fun _ => 3) (fun thread : Fin 3 => thread + 1)
      [1, 0, 2] [.tick]).any (fun s => decide (s.lock_nest = 0 ∧ s.current_thread = some 1 ∧
        s.queue.priority_table 3 = [0, 2] ∧ (s.thread 1).stat = .running ∧
        (∀ thread, (s.thread thread).current_priority = 3) ∧ (s.thread 0).remaining_tick = 1 ∧
        (s.thread 1).remaining_tick = 1 ∧ (s.thread 2).remaining_tick = 3)) = true := by
    decide +kernel
  rcases (Option.any_eq_true _ _).mp hstate with ⟨s, hrun, hs⟩
  rcases of_decide_eq_true hs with ⟨hlock, hcurrent, htable, hrunning, hthree, h0, h1, h2⟩
  rcases run_round_robin (fun _ => by decide) (by simp [Event.Fits]) hrun hlock hcurrent hrunning
    (fun other _ => by rw [hthree, hthree]) (by simp [hthree, htable, h0, h1, h2])
    with ⟨s', hticks, hcurrent', hqueue, -⟩
  refine ⟨s, s', hrun, ?_, hcurrent', hqueue⟩
  simpa [hthree, htable, h0, h1, h2, List.replicate] using hticks

end Turns

end Scheduler
end RtThread
end TestAio
