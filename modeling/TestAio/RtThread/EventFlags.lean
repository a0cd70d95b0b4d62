import Mathlib.Algebra.Ring.Nat
import Mathlib.Data.BitVec
import Mathlib.Logic.Function.Basic
import TestAio.RtThread.Ipc

/-!
# Event flags

An event of {lit}`src/ipc.c` is a word of flags.  A thread waits for all of some flags or for one
of them, and may clear the ones that it receives; whoever sends flags goes through the list of
the threads that wait and resumes each one whose flags are there when it comes to it.

Main results:

- Theorem {lit}`run_leaves_none`: in every order of the steps no thread sleeps whose flags are
  there, and each thread receives flags that it has waited for.
- Theorem {lit}`run_clears_once`: a flag is received by threads that clear it at most as often as
  it was sent.

Current gaps:

- Deleting and detaching an event is not modelled.
-/

namespace TestAio
namespace RtThread

open Library

/-- {lit}`RT_EVENT_FLAG_AND`, {lit}`RT_EVENT_FLAG_OR` and {lit}`RT_EVENT_FLAG_CLEAR`. -/
structure EventOption where
  flag_and : Bool
  flag_or : Bool
  flag_clear : Bool
deriving DecidableEq

namespace EventFlags

/-- What was called, and what the functions have done or answered; a received entry also has the
flags that are noted for the thread, and how it wants them. -/
inductive Entry (Thread : Type)
  | called (thread : Thread) (set : BitVec 32) (option : EventOption)
  | sent (set : BitVec 32)
  | sendFailed (errno : RtError)
  | received (thread : Thread) (asked : BitVec 32) (option : EventOption) (set : BitVec 32)
  | failed (thread : Thread) (errno : RtError)
  | reset
deriving DecidableEq

/-- What happens: someone sends flags or resets the event, a thread asks for flags, the time of a
suspended thread is over, or a thread gets another priority, which leaves it where it sleeps. -/
inductive Event (Thread : Type)
  | send (set : BitVec 32)
  | recv (thread : Thread) (set : BitVec 32) (option : EventOption) (timeout : Int)
  | expire (thread : Thread)
  | reset
  | changePriority (thread : Thread) (priority : Nat)

end EventFlags

/-- {lit}`struct rt_event` with the fields {lit}`event_set` and {lit}`event_info` of the threads
and the times of the suspended ones. -/
structure EventFlags (Thread : Type) where
  set : BitVec 32
  flag : IpcFlag
  suspend_thread : List Thread
  current_priority : Thread → Nat
  event_set : Thread → BitVec 32
  event_info : Thread → EventOption
  suspended : Thread → Option Int

namespace EventFlags

section Functions

variable {Thread : Type} [DecidableEq Thread]

/-- The flags that a thread receives, when they are there. -/
def received (set asked : BitVec 32) (option : EventOption) : Option (BitVec 32) :=
  if option.flag_and then
    if asked &&& set = asked then some asked else none
  else
    if asked &&& set ≠ 0 then some (asked &&& set) else none

/-- {lit}`event->set &= ~set`, when the option says so. -/
def clear (event : EventFlags Thread) (option : EventOption) (set : BitVec 32) :
    EventFlags Thread :=
  if option.flag_clear then { event with set := event.set &&& ~~~set } else event

/-- A thread goes to sleep, or goes on. -/
def setSuspended (event : EventFlags Thread) (thread : Thread) (time : Option Int) :
    EventFlags Thread :=
  { event with suspended := Function.update event.suspended thread time }

/-- The fields of a thread are filled. -/
def fill (event : EventFlags Thread) (thread : Thread) (set : BitVec 32) (option : EventOption) :
    EventFlags Thread :=
  { event with
    event_set := Function.update event.event_set thread set
    event_info := Function.update event.event_info thread option }

/-- {lit}`rt_thread_resume` of a thread in the list. -/
def resume (event : EventFlags Thread) (thread : Thread) : EventFlags Thread :=
  { event with suspend_thread := event.suspend_thread.erase thread }.setSuspended thread none

/-- The loop of {lit}`rt_event_send` for the threads that are still to come. -/
def sendLoop (event : EventFlags Thread) :
    List Thread → List (Entry Thread) × EventFlags Thread
  | [] => ([], event)
  | thread :: rest =>
      let option := event.event_info thread
      if option.flag_and = false ∧ option.flag_or = false then
        ([.sendFailed .invalid], event)
      else
        let asked := event.event_set thread
        match received event.set asked option with
        | none => event.sendLoop rest
        | some set =>
            let result := (((event.fill thread set option).clear option set).resume
              thread).sendLoop rest
            (.received thread asked option set :: result.1, result.2)

/-- {lit}`rt_event_send`. -/
def eventSend (event : EventFlags Thread) (set : BitVec 32) :
    List (Entry Thread) × EventFlags Thread :=
  if set = 0 then
    ([.sendFailed .general], event)
  else
    let event := { event with set := event.set ||| set }
    let result := event.sendLoop event.suspend_thread
    (.sent set :: result.1, result.2)

/-- {lit}`rt_event_recv`; nothing when its assertion fails.  A thread that is resumed by the loop
returns what its entry says. -/
def eventRecv (event : EventFlags Thread) (thread : Thread) (set : BitVec 32)
    (option : EventOption) (timeout : Int) :
    Option (List (Entry Thread) × EventFlags Thread) :=
  if set = 0 then
    some ([.failed thread .general], event)
  else if option.flag_and = false ∧ option.flag_or = false then
    none
  else
    match received event.set set option with
    | some _ =>
        let recved := event.set &&& set
        some ([.received thread set option recved],
          (event.fill thread recved option).clear option set)
    | none =>
        if timeout = 0 then
          some ([.failed thread .timeout], event)
        else
          some ([], { event.fill thread set option with
            suspend_thread :=
              ipcListSuspend event.current_priority event.flag thread
                event.suspend_thread }.setSuspended thread (some timeout))

/-- {lit}`rt_event_control` with {lit}`RT_IPC_CMD_RESET`: the suspended threads return an
error. -/
def eventReset (event : EventFlags Thread) : List (Entry Thread) × EventFlags Thread :=
  ((event.suspend_thread.map fun thread => .failed thread .general) ++ [.reset],
    { event with
      suspend_thread := []
      suspended := ipcListResumeAll none event.suspend_thread event.suspended
      set := 0 })

/-- One step; a suspended thread calls nothing, and only a suspended one that does not wait
forever can run out of time. -/
def step (event : EventFlags Thread) :
    Event Thread → Option (List (Entry Thread) × EventFlags Thread)
  | .send set => some (event.eventSend set)
  | .recv thread set option timeout =>
      match event.suspended thread with
      | none =>
          (event.eventRecv thread set option timeout).map fun result =>
            (.called thread set option :: result.1, result.2)
      | some _ => some ([], event)
  | .expire thread =>
      match event.suspended thread with
      | some time =>
          if 0 < time then
            some ([.failed thread .timeout], { event with
              suspend_thread :=
                event.suspend_thread.filter fun other => other ≠ thread }.setSuspended thread none)
          else
            some ([], event)
      | none => some ([], event)
  | .reset => some event.eventReset
  | .changePriority thread priority =>
      some ([], { event with
        current_priority := Function.update event.current_priority thread priority })

/-- The steps in some order. -/
def run (event : EventFlags Thread) :
    List (Event Thread) → Option (List (Entry Thread) × EventFlags Thread)
  | [] => some ([], event)
  | first :: rest =>
      match event.step first with
      | none => none
      | some (log, event) => (event.run rest).map fun result => (log ++ result.1, result.2)

/-- {lit}`rt_event_init`. -/
def init (flag : IpcFlag) (current_priority : Thread → Nat) : EventFlags Thread where
  set := 0
  flag := flag
  suspend_thread := []
  current_priority := current_priority
  event_set := fun _ => 0
  event_info := fun _ => ⟨false, false, false⟩
  suspended := fun _ => none

end Functions

/-! ## What an event is for -/

/-- A thread asks for all of its flags or for one of them. -/
def Event.Fits {Thread : Type} : Event Thread → Prop
  | .recv _ _ option _ => option.flag_and = true ∨ option.flag_or = true
  | _ => True

/-- A call replaces what its thread has asked for before. -/
def Entry.note {Thread : Type} [DecidableEq Thread]
    (calls : Thread → Option (BitVec 32 × EventOption)) :
    Entry Thread → Thread → Option (BitVec 32 × EventOption)
  | .called thread set option => Function.update calls thread (some (set, option))
  | _ => calls

/-- The last call of each thread, as the log has it. -/
def lastCalls {Thread : Type} [DecidableEq Thread]
    (calls : Thread → Option (BitVec 32 × EventOption)) (log : List (Entry Thread)) :
    Thread → Option (BitVec 32 × EventOption) :=
  log.foldl Entry.note calls

/-- A thread received flags that it has asked for in its last call. -/
def Entry.Right {Thread : Type} (calls : Thread → Option (BitVec 32 × EventOption)) :
    Entry Thread → Prop
  | .received thread asked option set =>
      calls thread = some (asked, option) ∧ set ≠ 0 ∧ set &&& asked = set ∧
        (option.flag_and = true → set = asked)
  | .sendFailed errno => errno = .general
  | _ => True

/-- Each entry is right after the calls before it. -/
def AllRight {Thread : Type} [DecidableEq Thread]
    (calls : Thread → Option (BitVec 32 × EventOption)) : List (Entry Thread) → Prop
  | [] => True
  | entry :: rest => entry.Right calls ∧ AllRight (entry.note calls) rest

/-- The entry says that a flag was sent. -/
def Entry.sends {Thread : Type} (index : Nat) : Entry Thread → Bool
  | .sent set => set.getLsbD index
  | _ => false

/-- The entry says that a thread received a flag and cleared it. -/
def Entry.clears {Thread : Type} (index : Nat) : Entry Thread → Bool
  | .received _ _ option set => option.flag_clear && set.getLsbD index
  | _ => false

/-- Flags that are not there are not there after some were cleared. -/
theorem received_none {set set' asked : BitVec 32} {option : EventOption}
    (h : received set asked option = none) (hsub : set' &&& set = set') :
    received set' asked option = none := by
  have hand : asked &&& set' = asked &&& set' &&& set := by rw [BitVec.and_assoc, hsub]
  rw [received] at h ⊢
  split
  · next hflag =>
      rw [if_pos hflag] at h
      refine if_neg fun hall => ?_
      rw [hall] at hand
      rw [if_pos hand.symm] at h
      cases h
  · next hflag =>
      rw [if_neg hflag] at h
      refine if_neg (not_not.mpr ?_)
      have hzero : asked &&& set = 0 := by
        by_contra hne
        rw [if_pos hne] at h
        cases h
      rw [hand, BitVec.and_assoc, BitVec.and_comm set' set, ← BitVec.and_assoc, hzero]
      exact BitVec.zero_and

/-- What a thread receives is a part of what it asked for, and all of it when it asked for all. -/
theorem received_some {set asked got : BitVec 32} {option : EventOption}
    (h : received set asked option = some got) (hasked : asked ≠ 0) :
    got = asked &&& set ∧ got ≠ 0 ∧ (option.flag_and = true → got = asked) := by
  rw [received] at h
  split at h
  · split at h
    · next hall =>
        obtain rfl := Option.some.inj h
        exact ⟨hall.symm, hasked, fun _ => rfl⟩
    · cases h
  · next hflag =>
      split at h
      · next hsome =>
          obtain rfl := Option.some.inj h
          exact ⟨rfl, hsome, fun hand => absurd hand hflag⟩
      · cases h

section Invariant

variable {Thread : Type} [DecidableEq Thread]

/-- The list has the suspended threads; the flags of none of them are there, but for those that the
loop has still to look at. -/
structure Holds (event : EventFlags Thread) (todo : List Thread) : Prop where
  sleepers : Sleepers event.suspend_thread fun thread => event.suspended thread ≠ none
  asked : ∀ thread ∈ event.suspend_thread, event.event_set thread ≠ 0
  info : ∀ thread ∈ event.suspend_thread,
    (event.event_info thread).flag_and = true ∨ (event.event_info thread).flag_or = true
  missing : ∀ thread ∈ event.suspend_thread, thread ∉ todo →
    received event.set (event.event_set thread) (event.event_info thread) = none

/-- The fields of the sleeping threads have what they asked for in their last calls. -/
def Recalls (calls : Thread → Option (BitVec 32 × EventOption)) (event : EventFlags Thread) :
    Prop :=
  ∀ thread ∈ event.suspend_thread,
    calls thread = some (event.event_set thread, event.event_info thread)

/-- The threads that sleep have slept before, with the same fields. -/
def SleepOn (event event' : EventFlags Thread) : Prop :=
  ∀ thread ∈ event'.suspend_thread, thread ∈ event.suspend_thread ∧
    event'.event_set thread = event.event_set thread ∧
    event'.event_info thread = event.event_info thread

/-- Whether a flag is set. -/
def bit (set : BitVec 32) (index : Nat) : Nat :=
  (set.getLsbD index).toNat

/-- What a step makes of the event and what it adds to the log. -/
structure Follows (event : EventFlags Thread) (log : List (Entry Thread))
    (event' : EventFlags Thread) : Prop where
  holds : Holds event' []
  right : ∀ calls, Recalls calls event → AllRight calls log
  recalls : ∀ calls, Recalls calls event → Recalls (lastCalls calls log) event'
  clears_le : ∀ index, log.countP (Entry.clears index) + bit event'.set index ≤
    log.countP (Entry.sends index) + bit event.set index

variable {event event' event'' : EventFlags Thread} {log log' : List (Entry Thread)}
  {thread : Thread} {todo : List Thread} {calls : Thread → Option (BitVec 32 × EventOption)}

/-- The last calls of two logs in a row. -/
theorem lastCalls_append (calls : Thread → Option (BitVec 32 × EventOption))
    (log log' : List (Entry Thread)) :
    lastCalls calls (log ++ log') = lastCalls (lastCalls calls log) log' :=
  List.foldl_append

/-- Two logs in a row are right when the second one is right after the first one. -/
theorem AllRight.append (h : AllRight calls log) (h' : AllRight (lastCalls calls log) log') :
    AllRight calls (log ++ log') := by
  induction log generalizing calls with
  | nil => exact h'
  | cons entry rest ih => exact ⟨h.1, ih h.2 h'⟩

omit [DecidableEq Thread] in
/-- Threads that sleep on still recall their calls. -/
theorem Recalls.of_sleepOn (h : Recalls calls event) (hsub : SleepOn event event') :
    Recalls calls event' := by
  intro thread hmem
  rcases hsub thread hmem with ⟨hmem', hset, hinfo⟩
  rw [hset, hinfo]
  exact h thread hmem'

omit [DecidableEq Thread] in
/-- Threads that sleep on still miss their flags when some flags were cleared. -/
theorem Holds.of_sleepOn {todo' : List Thread} (h : Holds event todo)
    (hsub : SleepOn event event')
    (hsleepers : Sleepers event'.suspend_thread fun thread => event'.suspended thread ≠ none)
    (hset : event'.set &&& event.set = event'.set)
    (htodo : ∀ thread ∈ event'.suspend_thread, thread ∉ todo' → thread ∉ todo) :
    Holds event' todo' where
  sleepers := hsleepers
  asked thread hmem := by
    rw [(hsub thread hmem).2.1]
    exact h.asked thread (hsub thread hmem).1
  info thread hmem := by
    rw [(hsub thread hmem).2.2]
    exact h.info thread (hsub thread hmem).1
  missing thread hmem hnot := by
    rw [(hsub thread hmem).2.1, (hsub thread hmem).2.2]
    exact received_none (h.missing thread (hsub thread hmem).1 (htodo thread hmem hnot)) hset

/-- A thread that does not sleep may ask for something else. -/
theorem Recalls.called (h : Recalls calls event) (hout : thread ∉ event.suspend_thread)
    (set : BitVec 32) (option : EventOption) :
    Recalls (Entry.note calls (.called thread set option)) event := by
  intro other hmem
  have hother : other ≠ thread := by
    rintro rfl
    exact hout hmem
  exact (Function.update_of_ne hother ..).trans (h other hmem)

omit [DecidableEq Thread] in
/-- A fresh event has no sleepers. -/
theorem Holds.init (flag : IpcFlag) (current_priority : Thread → Nat) :
    Holds (init flag current_priority) [] where
  sleepers := .nil fun _ => not_not.mpr rfl
  asked _ hmem := nomatch hmem
  info _ hmem := nomatch hmem
  missing _ hmem := nomatch hmem

/-- Nothing happens. -/
theorem Follows.refl (h : Holds event []) : Follows event [] event where
  holds := h
  right _ _ := trivial
  recalls _ hrecalls := hrecalls
  clears_le _ := Nat.le_refl _

/-- One thing happens after another. -/
theorem Follows.trans (h : Follows event log event') (h' : Follows event' log' event'') :
    Follows event (log ++ log') event'' where
  holds := h'.holds
  right calls hrecalls :=
    (h.right calls hrecalls).append (h'.right _ (h.recalls calls hrecalls))
  recalls calls hrecalls := by
    rw [lastCalls_append]
    exact h'.recalls _ (h.recalls calls hrecalls)
  clears_le index := by
    have hfirst := h.clears_le index
    have hsecond := h'.clears_le index
    rw [List.countP_append, List.countP_append]
    omega

omit [DecidableEq Thread] in
/-- A thread receives flags and may clear them. -/
theorem bit_clear (event : EventFlags Thread) (option : EventOption) {set got : BitVec 32}
    (hgot : got &&& event.set = got) (hset : got &&& set = got) (thread : Thread)
    (asked : BitVec 32) (index : Nat) :
    [Entry.received thread asked option got].countP (Entry.clears index) +
      bit (event.clear option set).set index ≤ bit event.set index := by
  rw [clear]
  cases hclear : option.flag_clear with
  | false => simp [Entry.clears, hclear]
  | true =>
      cases hbit : got.getLsbD index with
      | true =>
          have hthere : event.set.getLsbD index = true := by
            have hand := congrArg (fun flags => flags.getLsbD index) hgot
            simpa [hbit] using hand
          have hasked : set.getLsbD index = true := by
            have hand := congrArg (fun flags => flags.getLsbD index) hset
            simpa [hbit] using hand
          simp [Entry.clears, hclear, hbit, bit, hthere, hasked]
      | false =>
          cases hthere : event.set.getLsbD index with
          | true => simp [Entry.clears, hclear, hbit, bit, hthere, Bool.toNat_le]
          | false => simp [Entry.clears, hclear, hbit, bit, hthere]

omit [DecidableEq Thread] in
/-- Clearing adds no flags. -/
theorem clear_set_sub (event : EventFlags Thread) (option : EventOption) (set : BitVec 32) :
    (event.clear option set).set &&& event.set = (event.clear option set).set := by
  rw [clear]
  split
  · change event.set &&& ~~~set &&& event.set = event.set &&& ~~~set
    rw [BitVec.and_comm, ← BitVec.and_assoc, BitVec.and_self]
  · exact BitVec.and_self

omit [DecidableEq Thread] in
/-- Clearing changes the flags only. -/
theorem clear_eq (event : EventFlags Thread) (option : EventOption) (set : BitVec 32) :
    event.clear option set = { event with set := (event.clear option set).set } := by
  rw [clear]
  split <;> rfl

/-- What happens when the loop resumes a thread, but for the flags. -/
theorem resume_eq (event : EventFlags Thread) (thread : Thread) (option : EventOption)
    (set got : BitVec 32) :
    ((event.fill thread got option).clear option set).resume thread =
      { event with
        set := ((event.fill thread got option).clear option set).set
        suspend_thread := event.suspend_thread.erase thread
        event_set := Function.update event.event_set thread got
        event_info := Function.update event.event_info thread option
        suspended := Function.update event.suspended thread none } := by
  rw [EventFlags.resume, clear_eq]
  rfl

/-- The other threads sleep on when the loop resumes one. -/
theorem sleepOn_resume (hnodup : event.suspend_thread.Nodup) (thread : Thread)
    (option : EventOption) (set got : BitVec 32) :
    SleepOn event (((event.fill thread got option).clear option set).resume thread) := by
  rw [resume_eq]
  intro other hmem
  have hother := hnodup.mem_erase_iff.mp hmem
  exact ⟨hother.2, Function.update_of_ne hother.1 .., Function.update_of_ne hother.1 ..⟩

/-- One more thread is resumed by the loop. -/
theorem Holds.resume (h : Holds event (thread :: todo)) (option : EventOption)
    (set got : BitVec 32) :
    Holds (((event.fill thread got option).clear option set).resume thread) todo := by
  refine h.of_sleepOn (sleepOn_resume h.sleepers.nodup thread option set got) ?_ ?_ ?_
  · rw [resume_eq]
    refine ⟨h.sleepers.nodup.erase thread, fun other => ?_⟩
    rw [h.sleepers.nodup.mem_erase_iff, h.sleepers.mem_iff]
    exact (Sleepers.update_none event.suspended thread other).symm
  · exact clear_set_sub (event.fill thread got option) option set
  · rw [resume_eq]
    intro other hmem hnot
    rw [List.mem_cons, not_or]
    exact ⟨(h.sleepers.nodup.mem_erase_iff.mp hmem).1, hnot⟩

/-- The loop looks at each thread once, with the flags that the ones before have left. -/
theorem Holds.sendLoop (h : Holds event todo) (hnodup : todo.Nodup)
    (hsub : ∀ thread ∈ todo, thread ∈ event.suspend_thread) :
    Follows event (event.sendLoop todo).1 (event.sendLoop todo).2 := by
  induction todo generalizing event with
  | nil => exact .refl h
  | cons thread rest ih =>
      have hmem := hsub thread List.mem_cons_self
      rcases List.nodup_cons.mp hnodup with ⟨hnot, hrest⟩
      have hinfo : ¬ ((event.event_info thread).flag_and = false ∧
          (event.event_info thread).flag_or = false) := by
        rintro ⟨hand, hor⟩
        rcases h.info thread hmem with hflag | hflag
        · rw [hand] at hflag
          cases hflag
        · rw [hor] at hflag
          cases hflag
      rw [EventFlags.sendLoop, if_neg hinfo]
      dsimp only
      cases hgot : received event.set (event.event_set thread) (event.event_info thread) with
      | none =>
          refine ih ⟨h.sleepers, h.asked, h.info, fun other hother hout => ?_⟩ hrest
            fun other hother => hsub other (List.mem_cons_of_mem thread hother)
          by_cases heq : other = thread
          · exact heq ▸ hgot
          · refine h.missing other hother ?_
            rw [List.mem_cons, not_or]
            exact ⟨heq, hout⟩
      | some got =>
          rcases received_some hgot (h.asked thread hmem) with ⟨hand, hne, hall⟩
          have hresumed := h.resume (event.event_info thread) got got
          have hlater := ih hresumed hrest fun other hother => by
            rw [resume_eq]
            refine (List.mem_erase_of_ne ?_).mpr (hsub other (List.mem_cons_of_mem thread hother))
            rintro rfl
            exact hnot hother
          have hstays : ∀ calls, Recalls calls event →
              Recalls calls (((event.fill thread got (event.event_info thread)).clear
                (event.event_info thread) got).resume thread) := fun calls hrecalls =>
            hrecalls.of_sleepOn
              (sleepOn_resume h.sleepers.nodup thread (event.event_info thread) got got)
          dsimp only
          refine ⟨hlater.holds, fun calls hrecalls => ⟨⟨?_, hne, ?_, hall⟩, ?_⟩,
            fun calls hrecalls => hlater.recalls calls (hstays calls hrecalls), fun index => ?_⟩
          · exact hrecalls thread hmem
          · rw [hand, BitVec.and_comm, ← BitVec.and_assoc, BitVec.and_self]
          · exact hlater.right calls (hstays calls hrecalls)
          · have hand' : got &&& event.set = got := by
              rw [hand, BitVec.and_assoc, BitVec.and_self]
            have hone := bit_clear (event.fill thread got (event.event_info thread))
              (event.event_info thread) hand' BitVec.and_self thread (event.event_set thread) index
            have hmore := hlater.clears_le index
            rw [← List.singleton_append, List.countP_append, List.countP_append]
            change _ + bit (EventFlags.clear _ _ _).set index ≤ bit event.set index at hone
            change _ + _ ≤ _ + bit (EventFlags.clear _ _ _).set index at hmore
            have hnone : [Entry.received thread (event.event_set thread) (event.event_info thread)
                got].countP (Entry.sends index) = 0 := rfl
            omega

/-- {lit}`rt_event_send` keeps the invariant. -/
theorem Holds.eventSend (h : Holds event []) (set : BitVec 32) :
    Follows event (event.eventSend set).1 (event.eventSend set).2 := by
  rw [EventFlags.eventSend]
  split
  · exact ⟨h, fun calls hrecalls => ⟨rfl, trivial⟩, fun calls hrecalls => hrecalls,
      fun index => Nat.le_refl _⟩
  · have hmore : Holds { event with set := event.set ||| set } event.suspend_thread :=
      ⟨h.sleepers, h.asked, h.info, fun thread hmem hnot => absurd hmem hnot⟩
    have hloop := hmore.sendLoop h.sleepers.nodup fun thread hmem => hmem
    refine ⟨hloop.holds, fun calls hrecalls => ⟨trivial, hloop.right calls hrecalls⟩,
      fun calls hrecalls => hloop.recalls calls hrecalls, fun index => ?_⟩
    · have hcount := hloop.clears_le index
      have hbit : bit (event.set ||| set) index ≤
          ([.sent set] : List (Entry Thread)).countP (Entry.sends index) + bit event.set index := by
        cases hset : set.getLsbD index <;> cases hevent : event.set.getLsbD index <;>
          simp [Entry.sends, bit, hset, hevent]
      have hnone : ([.sent set] : List (Entry Thread)).countP (Entry.clears index) = 0 := rfl
      dsimp only at hcount ⊢
      rw [← List.singleton_append, List.countP_append, List.countP_append]
      omega

/-- A thread that does not sleep finds its flags. -/
theorem Holds.found (h : Holds event []) (hawake : event.suspended thread = none)
    {set got : BitVec 32} {option : EventOption} (hset : set ≠ 0)
    (hgot : received event.set set option = some got) :
    Follows event [.called thread set option, .received thread set option (event.set &&& set)]
      ((event.fill thread (event.set &&& set) option).clear option set) := by
  rcases received_some hgot hset with ⟨hand, hne, hall⟩
  have hcomm : event.set &&& set = got := by rw [hand, BitVec.and_comm]
  have hout : thread ∉ event.suspend_thread := fun hmem =>
    (h.sleepers.mem_iff thread).mp hmem hawake
  have hsub : SleepOn event
      ((event.fill thread (event.set &&& set) option).clear option set) := by
    rw [clear_eq]
    intro other hmem
    have hother : other ≠ thread := by
      rintro rfl
      exact hout hmem
    exact ⟨hmem, Function.update_of_ne hother .., Function.update_of_ne hother ..⟩
  refine ⟨h.of_sleepOn hsub ?_ ?_ fun _ _ hnot => hnot,
    fun calls hrecalls => ⟨trivial, ⟨Function.update_self .., ?_⟩, trivial⟩,
    fun calls hrecalls => (hrecalls.called hout set option).of_sleepOn hsub, fun index => ?_⟩
  · rw [clear_eq]
    exact h.sleepers
  · exact clear_set_sub (event.fill thread (event.set &&& set) option) option set
  · rw [hcomm]
    refine ⟨hne, ?_, hall⟩
    rw [hand, BitVec.and_comm, ← BitVec.and_assoc, BitVec.and_self]
  · have hevent : event.set &&& set &&& event.set = event.set &&& set := by
      rw [BitVec.and_comm, ← BitVec.and_assoc, BitVec.and_self]
    have hasked : event.set &&& set &&& set = event.set &&& set := by
      rw [BitVec.and_assoc, BitVec.and_self]
    have hone := bit_clear (event.fill thread (event.set &&& set) option) option hevent hasked
      thread set index
    have hnone : ([.called thread set option, .received thread set option (event.set &&& set)] :
        List (Entry Thread)).countP (Entry.sends index) = 0 := rfl
    have hcalled : ([.called thread set option, .received thread set option (event.set &&& set)] :
        List (Entry Thread)).countP (Entry.clears index) =
          ([.received thread set option (event.set &&& set)] :
            List (Entry Thread)).countP (Entry.clears index) := rfl
    change _ ≤ bit event.set index at hone
    omega

/-- A thread that does not find its flags goes to sleep. -/
theorem Holds.suspend (h : Holds event []) (hawake : event.suspended thread = none)
    {set : BitVec 32} {option : EventOption} (hset : set ≠ 0)
    (hoption : option.flag_and = true ∨ option.flag_or = true)
    (hgot : received event.set set option = none) (timeout : Int) :
    Follows event [.called thread set option] ({ event.fill thread set option with
      suspend_thread :=
        ipcListSuspend event.current_priority event.flag thread
          event.suspend_thread }.setSuspended thread (some timeout)) := by
  have hperm := ipcListSuspend_perm event.current_priority event.flag thread event.suspend_thread
  have hcases : ∀ other ∈ ipcListSuspend event.current_priority event.flag thread
      event.suspend_thread, other = thread ∨ other ≠ thread ∧ other ∈ event.suspend_thread := by
    intro other hmem
    by_cases heq : other = thread
    · exact .inl heq
    · exact .inr ⟨heq, (List.mem_cons.mp (hperm.mem_iff.mp hmem)).resolve_left heq⟩
  have hslept := Sleepers.update_some event.suspended thread timeout
  refine ⟨⟨h.sleepers.join (not_not.mpr hawake) hperm hslept,
    fun other hmem => ?_, fun other hmem => ?_, fun other hmem _ => ?_⟩,
    fun calls hrecalls => ⟨trivial, trivial⟩, fun calls hrecalls other hmem => ?_,
    fun index => Nat.le_refl _⟩
  · change Function.update event.event_set thread set other ≠ 0
    rcases hcases other hmem with rfl | ⟨hother, hold⟩
    · rw [Function.update_self]
      exact hset
    · rw [Function.update_of_ne hother]
      exact h.asked other hold
  · change (Function.update event.event_info thread option other).flag_and = true ∨
      (Function.update event.event_info thread option other).flag_or = true
    rcases hcases other hmem with rfl | ⟨hother, hold⟩
    · rw [Function.update_self]
      exact hoption
    · rw [Function.update_of_ne hother]
      exact h.info other hold
  · change received event.set (Function.update event.event_set thread set other)
      (Function.update event.event_info thread option other) = none
    rcases hcases other hmem with rfl | ⟨hother, hold⟩
    · rw [Function.update_self, Function.update_self]
      exact hgot
    · rw [Function.update_of_ne hother, Function.update_of_ne hother]
      exact h.missing other hold List.not_mem_nil
  · change Function.update calls thread (some (set, option)) other =
      some (Function.update event.event_set thread set other,
        Function.update event.event_info thread option other)
    rcases hcases other hmem with rfl | ⟨hother, hold⟩
    · rw [Function.update_self, Function.update_self, Function.update_self]
    · rw [Function.update_of_ne hother, Function.update_of_ne hother,
        Function.update_of_ne hother]
      exact hrecalls other hold

/-- A call that fails leaves the event as it is. -/
theorem Follows.failed (h : Holds event []) (hawake : event.suspended thread = none)
    (set : BitVec 32) (option : EventOption) (errno : RtError) :
    Follows event [.called thread set option, .failed thread errno] event where
  holds := h
  right _ _ := ⟨trivial, trivial, trivial⟩
  recalls _ hrecalls :=
    hrecalls.called (fun hmem => (h.sleepers.mem_iff thread).mp hmem hawake) set option
  clears_le _ := Nat.le_refl _

/-- {lit}`rt_event_recv` of a thread that does not sleep keeps the invariant. -/
theorem Holds.eventRecv (h : Holds event []) (hawake : event.suspended thread = none)
    (set : BitVec 32) {option : EventOption}
    (hoption : option.flag_and = true ∨ option.flag_or = true) (timeout : Int) :
    ∃ log event', event.eventRecv thread set option timeout = some (log, event') ∧
      Follows event (.called thread set option :: log) event' := by
  rw [EventFlags.eventRecv]
  split
  · exact ⟨_, _, rfl, .failed h hawake set option .general⟩
  · next hset =>
      rw [if_neg (by rcases hoption with hflag | hflag <;> simp [hflag])]
      cases hgot : received event.set set option with
      | some got => exact ⟨_, _, rfl, h.found hawake hset hgot⟩
      | none =>
          dsimp only
          split
          · exact ⟨_, _, rfl, .failed h hawake set option .timeout⟩
          · exact ⟨_, _, rfl, h.suspend hawake hset hoption hgot timeout⟩

/-- A thread that gives up leaves the list. -/
theorem Holds.expire (h : Holds event []) (thread : Thread) :
    Follows event [.failed thread .timeout] ({ event with
      suspend_thread :=
        event.suspend_thread.filter fun other => other ≠ thread }.setSuspended thread none) where
  holds := {
    sleepers := h.sleepers.leave (Sleepers.update_none event.suspended thread)
    asked := fun other hmem => h.asked other (List.mem_of_mem_filter hmem)
    info := fun other hmem => h.info other (List.mem_of_mem_filter hmem)
    missing := fun other hmem => h.missing other (List.mem_of_mem_filter hmem) }
  right _ _ := ⟨trivial, trivial⟩
  recalls _ hrecalls :=
    hrecalls.of_sleepOn fun _ hmem => ⟨List.mem_of_mem_filter hmem, rfl, rfl⟩
  clears_le _ := Nat.le_refl _

/-- A reset resumes all threads. -/
theorem Holds.eventReset (h : Holds event []) :
    Follows event event.eventReset.1 event.eventReset.2 := by
  refine ⟨⟨.nil fun thread => ?_, fun _ hmem => (nomatch hmem), fun _ hmem => (nomatch hmem),
    fun _ hmem => (nomatch hmem)⟩, fun calls _ => ?_, fun calls _ _ hmem => (nomatch hmem),
    fun index => ?_⟩
  · change ¬ ipcListResumeAll none event.suspend_thread event.suspended thread ≠ none
    rw [ipcListResumeAll]
    split
    · simp
    · next hmem => exact mt (h.sleepers.mem_iff thread).mpr hmem
  · refine AllRight.append ?_ ⟨trivial, trivial⟩
    induction event.suspend_thread with
    | nil => trivial
    | cons thread rest ih => exact ⟨trivial, ih⟩
  · have hnone : event.eventReset.1.countP (Entry.clears index) = 0 := by
      simp [EventFlags.eventReset, List.countP_append, List.countP_eq_zero, Entry.clears]
    have hzero : bit event.eventReset.2.set index = 0 := by
      simp [EventFlags.eventReset, bit]
    omega

/-- Each step succeeds and keeps the invariant. -/
theorem Holds.step (h : Holds event []) {what : Event Thread} (hfits : what.Fits) :
    ∃ log event', event.step what = some (log, event') ∧ Follows event log event' := by
  cases what with
  | send set => exact ⟨_, _, rfl, h.eventSend set⟩
  | recv thread set option timeout =>
      rw [EventFlags.step]
      split
      · next hawake =>
          rcases h.eventRecv hawake set hfits timeout with ⟨log, event', hrecv, hfollows⟩
          refine ⟨.called thread set option :: log, event', ?_, hfollows⟩
          rw [hrecv, Option.map_some]
      · exact ⟨_, _, rfl, .refl h⟩
  | expire thread =>
      rw [EventFlags.step]
      split
      · split
        · exact ⟨_, _, rfl, h.expire thread⟩
        · exact ⟨_, _, rfl, .refl h⟩
      · exact ⟨_, _, rfl, .refl h⟩
  | reset => exact ⟨_, _, rfl, h.eventReset⟩
  | changePriority thread priority =>
      have hholds : Holds { event with
          current_priority := Function.update event.current_priority thread priority } [] :=
        ⟨h.sleepers, h.asked, h.info, h.missing⟩
      exact ⟨_, _, rfl, hholds, fun _ _ => trivial, fun _ hrecalls => hrecalls,
        fun _ => Nat.le_refl _⟩

/-- The steps in any order succeed and keep the invariant. -/
theorem Holds.run (h : Holds event []) {events : List (Event Thread)}
    (hfits : ∀ what ∈ events, what.Fits) :
    ∃ log event', event.run events = some (log, event') ∧ Follows event log event' := by
  induction events generalizing event with
  | nil => exact ⟨_, _, rfl, .refl h⟩
  | cons first rest ih =>
      rcases h.step (hfits first List.mem_cons_self) with ⟨log, next, hstep, hfollows⟩
      rcases ih hfollows.holds fun what hmem => hfits what (List.mem_cons_of_mem first hmem)
        with ⟨log', event', hrun, hlater⟩
      refine ⟨log ++ log', event', ?_, hfollows.trans hlater⟩
      rw [EventFlags.run, hstep]
      simp only [hrun, Option.map_some]

end Invariant

section Runs

variable {Thread : Type} [DecidableEq Thread] {flag : IpcFlag} {current_priority : Thread → Nat}
  {events : List (Event Thread)}

/-- In every order of the steps no thread sleeps whose flags are there, and each thread that
received flags has asked for them in its last call, got at least one, and all of them when it asked
for all. -/
theorem run_leaves_none (hfits : ∀ what ∈ events, what.Fits) :
    ∃ log event, (init flag current_priority).run events = some (log, event) ∧
      (∀ thread, event.suspended thread ≠ none →
        lastCalls (fun _ => none) log thread =
            some (event.event_set thread, event.event_info thread) ∧
          received event.set (event.event_set thread) (event.event_info thread) = none) ∧
      AllRight (fun _ => none) log := by
  rcases (Holds.init flag current_priority).run hfits with ⟨log, event, hrun, hfollows⟩
  have hstart : Recalls (fun _ => none) (init flag current_priority) := fun _ hmem => nomatch hmem
  refine ⟨log, event, hrun, fun thread hasleep => ?_, hfollows.right _ hstart⟩
  have hmem := (hfollows.holds.sleepers.mem_iff thread).mpr hasleep
  exact ⟨hfollows.recalls _ hstart thread hmem,
    hfollows.holds.missing thread hmem List.not_mem_nil⟩

/-- One thread waits for both flags and clears them, the other one for one of them. -/
theorem run_leaves_none_both :
    ∃ log event, (init .prio fun thread : Nat => thread).run
        [.recv 1 3 ⟨true, false, true⟩ (-1), .recv 2 1 ⟨false, true, false⟩ (-1), .send 1,
          .send 2] = some (log, event) ∧
      (∀ thread, event.suspended thread ≠ none →
        lastCalls (fun _ => none) log thread =
            some (event.event_set thread, event.event_info thread) ∧
          received event.set (event.event_set thread) (event.event_info thread) = none) ∧
      AllRight (fun _ => none) log :=
  run_leaves_none (by simp [Event.Fits])

/-- In every order of the steps each flag was received by threads that clear it at most as often
as it was sent, and one time less when it is still there. -/
theorem run_clears_once (hfits : ∀ what ∈ events, what.Fits) :
    ∃ log event, (init flag current_priority).run events = some (log, event) ∧
      ∀ index, log.countP (Entry.clears index) + bit event.set index ≤
        log.countP (Entry.sends index) := by
  rcases (Holds.init flag current_priority).run hfits with ⟨log, event, hrun, hfollows⟩
  refine ⟨log, event, hrun, fun index => ?_⟩
  have hcount := hfollows.clears_le index
  have hzero : bit (init flag current_priority).set index = 0 := by simp [EventFlags.init, bit]
  omega

/-- Two threads wait for the same flag, and both clear it. -/
theorem run_clears_once_two :
    ∃ log event, (init .fifo fun _ : Nat => 0).run
        [.recv 1 1 ⟨false, true, true⟩ (-1), .recv 2 1 ⟨true, false, true⟩ (-1), .send 1] =
          some (log, event) ∧
      ∀ index, log.countP (Entry.clears index) + bit event.set index ≤
        log.countP (Entry.sends index) :=
  run_clears_once (by simp [Event.Fits])

end Runs

end EventFlags
end RtThread
end TestAio
