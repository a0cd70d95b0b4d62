import Mathlib.Algebra.Ring.Nat
import TestAio.Library.Cyclic
import TestAio.Library.Turnstile
import TestAio.RtThread.Ipc

/-!
# Mailboxes

The mails of {lit}`src/ipc.c` lie in a cyclic pool.  A thread that finds the pool full, or
empty, is suspended on the mailbox; the one that makes room, or sends, resumes it, and it looks
again when it runs.  Interrupts are off from a look to the end of what it leads to, so each look
is one step here, and the steps of the threads come in any order.

Main results:

- Theorem {lit}`run_delivers_mail`: in every order of the steps the threads receive the mails that
  were sent, each one once and in the order of the mailbox.
- Theorem {lit}`run_wakes_mail`: as long as a thread sleeps, each mail, or each free place, has a
  thread that is about to look for it.

Current gaps:

- Deleting and detaching a mailbox is not modelled.
-/

namespace TestAio
namespace RtThread

open Library Library.Cyclic Library.Turnstile

/-- {lit}`RT_MB_ENTRY_MAX`. -/
def rtMbEntryMax : Nat := 65535

namespace Mailbox

/-- What a thread does: it is about to look at the mailbox in {lit}`rt_mb_send_wait` or in
{lit}`rt_mb_recv`, or it is suspended there, or it is elsewhere. -/
inductive Doing
  | out
  | sending (value : Nat) (timeout : Int) (woken : Bool)
  | sendSuspended (value : Nat) (timeout : Int)
  | receiving (timeout : Int) (woken : Bool)
  | recvSuspended (timeout : Int)
deriving DecidableEq

/-- What the functions have done or answered. -/
inductive Entry (Thread : Type)
  | sent (thread : Thread) (value : Nat)
  | urgent (value : Nat)
  | urgentFull (value : Nat)
  | received (thread : Thread) (value : Nat)
  | failed (thread : Thread) (errno : RtError)
  | reset
deriving DecidableEq

/-- What happens: a thread calls a function, a thread looks some ticks after it was suspended,
the time of a thread is over, someone sends an urgent mail or resets the mailbox, or a thread gets
another priority, which leaves it where it sleeps. -/
inductive Event (Thread : Type)
  | callSend (thread : Thread) (value : Nat) (timeout : Int)
  | callRecv (thread : Thread) (timeout : Int)
  | look (thread : Thread) (elapsed : Nat)
  | expire (thread : Thread)
  | urgent (value : Nat)
  | reset
  | changePriority (thread : Thread) (priority : Nat)

end Mailbox

/-- {lit}`struct rt_mailbox` with what the threads do. -/
structure Mailbox (Thread : Type) where
  msg_pool : List Nat
  size : Nat
  entry : Nat
  in_offset : Nat
  out_offset : Nat
  flag : IpcFlag
  suspend_thread : List Thread
  suspend_sender_thread : List Thread
  current_priority : Thread → Nat
  doing : Thread → Mailbox.Doing

namespace Mailbox

section Functions

variable {Thread : Type} [DecidableEq Thread]

/-- A thread goes on with something else. -/
def setDoing (mb : Mailbox Thread) (thread : Thread) (doing : Doing) : Mailbox Thread :=
  { mb with doing := Function.update mb.doing thread doing }

/-- What a thread that is resumed goes on with. -/
def resumed : Doing → Doing
  | .sendSuspended value timeout => .sending value timeout true
  | .recvSuspended timeout => .receiving timeout true
  | doing => doing

/-- {lit}`_ipc_list_resume(&(mb->parent.suspend_thread))`, when the list is not empty. -/
def resumeReceiver (mb : Mailbox Thread) : Mailbox Thread :=
  match mb.suspend_thread with
  | [] => mb
  | thread :: rest =>
      { mb with suspend_thread := rest }.setDoing thread (resumed (mb.doing thread))

/-- {lit}`_ipc_list_resume(&(mb->suspend_sender_thread))`, when the list is not empty. -/
def resumeSender (mb : Mailbox Thread) : Mailbox Thread :=
  match mb.suspend_sender_thread with
  | [] => mb
  | thread :: rest =>
      { mb with suspend_sender_thread := rest }.setDoing thread (resumed (mb.doing thread))

/-- {lit}`mb->msg_pool[offset] = value`; nothing outside of the pool. -/
def store (mb : Mailbox Thread) (offset value : Nat) : Option (List Nat) :=
  if offset < mb.msg_pool.length then some (mb.msg_pool.set offset value) else none

/-- {lit}`rt_mb_send_wait` from the test of the loop on. -/
def mbSend (mb : Mailbox Thread) (thread : Thread) (value : Nat) (timeout : Int) :
    Option (List (Entry Thread) × Mailbox Thread) :=
  if mb.entry = mb.size then
    if timeout = 0 then
      some ([.failed thread .full], mb.setDoing thread .out)
    else
      some ([], { mb with
        suspend_sender_thread :=
          ipcListSuspend mb.current_priority mb.flag thread mb.suspend_sender_thread }.setDoing
        thread (.sendSuspended value timeout))
  else
    match mb.store mb.in_offset value with
    | none => none
    | some msg_pool =>
        let in_offset := mb.in_offset + 1
        let mb := { mb with
          msg_pool := msg_pool
          in_offset := if mb.size ≤ in_offset then 0 else in_offset }.setDoing thread .out
        if mb.entry < rtMbEntryMax then
          some ([.sent thread value], { mb with entry := mb.entry + 1 }.resumeReceiver)
        else
          some ([.failed thread .full], mb)

/-- {lit}`rt_mb_urgent`. -/
def mbUrgent (mb : Mailbox Thread) (value : Nat) :
    Option (List (Entry Thread) × Mailbox Thread) :=
  if mb.entry = mb.size then
    some ([.urgentFull value], mb)
  else
    let out_offset := if 0 < mb.out_offset then mb.out_offset - 1 else mb.size - 1
    match mb.store out_offset value with
    | none => none
    | some msg_pool =>
        some ([.urgent value], { mb with
          out_offset := out_offset
          msg_pool := msg_pool
          entry := mb.entry + 1 }.resumeReceiver)

/-- {lit}`rt_mb_recv` from the test of the loop on. -/
def mbRecv (mb : Mailbox Thread) (thread : Thread) (timeout : Int) :
    Option (List (Entry Thread) × Mailbox Thread) :=
  if mb.entry = 0 then
    if timeout = 0 then
      some ([.failed thread .timeout], mb.setDoing thread .out)
    else
      some ([], { mb with
        suspend_thread :=
          ipcListSuspend mb.current_priority mb.flag thread mb.suspend_thread }.setDoing
        thread (.recvSuspended timeout))
  else
    match mb.msg_pool[mb.out_offset]? with
    | none => none
    | some value =>
        let out_offset := mb.out_offset + 1
        let mb := { mb with
          out_offset := if mb.size ≤ out_offset then 0 else out_offset
          entry := mb.entry - 1 }.setDoing thread .out
        some ([.received thread value], mb.resumeSender)

/-- {lit}`rt_mb_control` with {lit}`RT_IPC_CMD_RESET`: the suspended threads return an error. -/
def mbReset (mb : Mailbox Thread) : List (Entry Thread) × Mailbox Thread :=
  (((mb.suspend_thread ++ mb.suspend_sender_thread).map fun thread => .failed thread .general) ++
      [.reset],
    { mb with
      suspend_thread := []
      suspend_sender_thread := []
      doing :=
        ipcListResumeAll .out (mb.suspend_thread ++ mb.suspend_sender_thread) mb.doing
      entry := 0
      in_offset := 0
      out_offset := 0 })

/-- One step; a thread that is not where the step takes place goes on as before.  Nothing when a
function leaves the pool. -/
def step (mb : Mailbox Thread) : Event Thread → Option (List (Entry Thread) × Mailbox Thread)
  | .callSend thread value timeout =>
      match mb.doing thread with
      | .out => some ([], mb.setDoing thread (.sending value timeout false))
      | _ => some ([], mb)
  | .callRecv thread timeout =>
      match mb.doing thread with
      | .out => some ([], mb.setDoing thread (.receiving timeout false))
      | _ => some ([], mb)
  | .look thread elapsed =>
      match mb.doing thread with
      | .sending value timeout woken =>
          mb.mbSend thread value (timeLeft timeout woken elapsed)
      | .receiving timeout woken => mb.mbRecv thread (timeLeft timeout woken elapsed)
      | _ => some ([], mb)
  | .expire thread =>
      match mb.doing thread with
      | .sendSuspended _ timeout =>
          if 0 < timeout then
            some ([.failed thread .timeout], { mb with
              suspend_sender_thread :=
                mb.suspend_sender_thread.filter fun other => other ≠ thread }.setDoing thread .out)
          else
            some ([], mb)
      | .recvSuspended timeout =>
          if 0 < timeout then
            some ([.failed thread .timeout], { mb with
              suspend_thread :=
                mb.suspend_thread.filter fun other => other ≠ thread }.setDoing thread .out)
          else
            some ([], mb)
      | _ => some ([], mb)
  | .urgent value => mb.mbUrgent value
  | .reset => some mb.mbReset
  | .changePriority thread priority =>
      some ([], { mb with current_priority := Function.update mb.current_priority thread priority })

/-- The steps in some order. -/
def run (mb : Mailbox Thread) : List (Event Thread) →
    Option (List (Entry Thread) × Mailbox Thread)
  | [] => some ([], mb)
  | event :: rest =>
      match mb.step event with
      | none => none
      | some (log, mb) => (mb.run rest).map fun result => (log ++ result.1, result.2)

/-- {lit}`rt_mb_init` on a pool. -/
def init (msg_pool : List Nat) (flag : IpcFlag) (current_priority : Thread → Nat) :
    Mailbox Thread where
  msg_pool := msg_pool
  size := msg_pool.length % 2 ^ 16
  entry := 0
  in_offset := 0
  out_offset := 0
  flag := flag
  suspend_thread := []
  suspend_sender_thread := []
  current_priority := current_priority
  doing := fun _ => .out

end Functions

/-! ## What a mailbox is for -/

/-- What an entry means for the mails that wait; nothing when it takes another mail than the
first one. -/
def Entry.apply {Thread : Type} : Entry Thread → List Nat → Option (List Nat)
  | .sent _ value, queue => some (queue ++ [value])
  | .urgent value, queue => some (value :: queue)
  | .received _ _, [] => none
  | .received _ value, first :: queue => if value = first then some queue else none
  | .reset, _ => some []
  | .urgentFull _, queue => some queue
  | .failed _ _, queue => some queue

/-- The mails that wait after all entries of a log. -/
def replay {Thread : Type} (queue : List Nat) : List (Entry Thread) → Option (List Nat)
  | [] => some queue
  | entry :: log => (entry.apply queue).bind fun queue => replay queue log

/-- A log is replayed in parts. -/
theorem replay_append {Thread : Type} (queue : List Nat) (log log' : List (Entry Thread)) :
    replay queue (log ++ log') = (replay queue log).bind fun queue => replay queue log' := by
  induction log generalizing queue with
  | nil => rfl
  | cons entry log ih =>
      rw [List.cons_append, replay, replay, Option.bind_assoc]
      congr 1
      funext queue
      exact ih queue

/-- Calls that fail leave the mails as they are. -/
theorem replay_failed {Thread : Type} (queue : List Nat) (threads : List Thread)
    (errno : RtError) :
    replay queue (threads.map fun thread => .failed thread errno) = some queue := by
  induction threads with
  | nil => rfl
  | cons thread threads ih => exact ih

/-- The thread is about to look for a mail. -/
def Doing.Receiving : Doing → Prop
  | .receiving _ _ => True
  | _ => False

/-- The thread sleeps until a mail comes. -/
def Doing.RecvSuspended : Doing → Prop
  | .recvSuspended _ => True
  | _ => False

/-- The thread is about to look for a free place. -/
def Doing.Sending : Doing → Prop
  | .sending _ _ _ => True
  | _ => False

/-- The thread sleeps until a place becomes free. -/
def Doing.SendSuspended : Doing → Prop
  | .sendSuspended _ _ => True
  | _ => False

/-- A thread that sleeps for a mail has a timeout. -/
theorem Doing.RecvSuspended.exists_eq {doing : Doing} (h : doing.RecvSuspended) :
    ∃ timeout, doing = .recvSuspended timeout := by
  cases doing with
  | recvSuspended timeout => exact ⟨timeout, rfl⟩
  | _ => exact h.elim

/-- A thread that sleeps for a place has a mail and a timeout. -/
theorem Doing.SendSuspended.exists_eq {doing : Doing} (h : doing.SendSuspended) :
    ∃ value timeout, doing = .sendSuspended value timeout := by
  cases doing with
  | sendSuspended value timeout => exact ⟨value, timeout, rfl⟩
  | _ => exact h.elim

section Invariant

variable {Thread : Type} [DecidableEq Thread] {capacity : Nat}

/-- The pool holds the mails that wait, and no sleeping thread is forgotten. -/
structure Holds (mb : Mailbox Thread) (capacity : Nat) (queue : List Nat) : Prop where
  window : ∃ ahead, Window mb.msg_pool mb.out_offset mb.in_offset ahead queue
  entry_eq : mb.entry = queue.length
  size_eq : mb.size = mb.msg_pool.length
  size_le : mb.size ≤ rtMbEntryMax
  capacity_eq : mb.size = capacity
  mails : Gate Doing.Receiving Doing.RecvSuspended mb.entry mb.suspend_thread mb.doing
  places : Gate Doing.Sending Doing.SendSuspended (mb.size - mb.entry) mb.suspend_sender_thread
    mb.doing

omit [DecidableEq Thread] in
/-- A fresh mailbox stands for no mails. -/
theorem init_holds {msg_pool : List Nat} (hpool : msg_pool ≠ [])
    (hsize : msg_pool.length ≤ rtMbEntryMax) (flag : IpcFlag) (current_priority : Thread → Nat) :
    (init msg_pool flag current_priority).Holds msg_pool.length [] where
  window := ⟨false, window_nil hpool⟩
  entry_eq := rfl
  size_eq := Nat.mod_eq_of_lt (Nat.lt_of_le_of_lt hsize (by decide))
  size_le := Nat.le_trans (Nat.mod_le _ _) hsize
  capacity_eq := Nat.mod_eq_of_lt (Nat.lt_of_le_of_lt hsize (by decide))
  mails := .zero .nil fun _ => ⟨fun hmem => absurd hmem List.not_mem_nil, False.elim⟩
  places := ⟨.nil, fun _ => ⟨fun hmem => absurd hmem List.not_mem_nil, False.elim⟩,
    fun hne => absurd rfl hne⟩

omit [DecidableEq Thread] in
/-- The counter of the mails does not leave the pool. -/
theorem Holds.entry_le {mb : Mailbox Thread} {queue : List Nat} (h : mb.Holds capacity queue) :
    mb.entry ≤ mb.size := by
  rcases h.window with ⟨ahead, hwindow⟩
  rw [h.entry_eq, h.size_eq]
  exact hwindow.length_le

/-- A thread that is elsewhere, or comes to look, changes nothing else. -/
theorem Holds.enter {mb : Mailbox Thread} {queue : List Nat} {thread : Thread} {doing : Doing}
    (h : mb.Holds capacity queue) (hout : mb.doing thread = .out)
    (hrecv : ¬ doing.RecvSuspended) (hsend : ¬ doing.SendSuspended) :
    (mb.setDoing thread doing).Holds capacity queue where
  window := h.window
  entry_eq := h.entry_eq
  size_eq := h.size_eq
  size_le := h.size_le
  capacity_eq := h.capacity_eq
  mails := h.mails.enter (by rw [hout]; exact id) hrecv (by rw [hout]; exact False.elim)
  places := h.places.enter (by rw [hout]; exact id) hsend (by rw [hout]; exact False.elim)

/-! ## Resuming a thread -/

/-- One more mail, and the first thread that waits for one is resumed. -/
theorem resumeReceiver_spec (mb : Mailbox Thread) {mails places : Nat}
    (hmails : Gate Doing.Receiving Doing.RecvSuspended mails mb.suspend_thread mb.doing)
    (hplaces : Gate Doing.Sending Doing.SendSuspended places mb.suspend_sender_thread mb.doing) :
    ∃ suspend_thread doing,
      mb.resumeReceiver = { mb with suspend_thread := suspend_thread, doing := doing } ∧
      Gate Doing.Receiving Doing.RecvSuspended (mails + 1) suspend_thread doing ∧
      Gate Doing.Sending Doing.SendSuspended places mb.suspend_sender_thread doing := by
  rw [resumeReceiver]
  split
  · next hnil =>
      refine ⟨mb.suspend_thread, mb.doing, rfl, ?_, hplaces⟩
      rw [hnil] at hmails ⊢
      exact hmails.offer (mails + 1)
  · next thread rest hcons =>
      rw [hcons] at hmails
      rcases ((hmails.mem_iff thread).mp List.mem_cons_self).exists_eq with ⟨timeout, hold⟩
      refine ⟨rest, Function.update mb.doing thread (.receiving timeout true), ?_, ?_, ?_⟩
      · rw [setDoing, hold, resumed]
      · exact hmails.wake (by rw [hold]; exact id) trivial id
      · exact hplaces.enter (by rw [hold]; exact id) id (by rw [hold]; exact id)

/-- One more free place, and the first thread that waits for one is resumed. -/
theorem resumeSender_spec (mb : Mailbox Thread) {mails places : Nat}
    (hmails : Gate Doing.Receiving Doing.RecvSuspended mails mb.suspend_thread mb.doing)
    (hplaces : Gate Doing.Sending Doing.SendSuspended places mb.suspend_sender_thread mb.doing) :
    ∃ suspend_sender_thread doing,
      mb.resumeSender =
        { mb with suspend_sender_thread := suspend_sender_thread, doing := doing } ∧
      Gate Doing.Receiving Doing.RecvSuspended mails mb.suspend_thread doing ∧
      Gate Doing.Sending Doing.SendSuspended (places + 1) suspend_sender_thread doing := by
  rw [resumeSender]
  split
  · next hnil =>
      refine ⟨mb.suspend_sender_thread, mb.doing, rfl, hmails, ?_⟩
      rw [hnil] at hplaces ⊢
      exact hplaces.offer (places + 1)
  · next thread rest hcons =>
      rw [hcons] at hplaces
      rcases ((hplaces.mem_iff thread).mp List.mem_cons_self).exists_eq with
        ⟨value, timeout, hold⟩
      refine ⟨rest, Function.update mb.doing thread (.sending value timeout true), ?_, ?_, ?_⟩
      · rw [setDoing, hold, resumed]
      · exact hmails.enter (by rw [hold]; exact id) id (by rw [hold]; exact id)
      · exact hplaces.wake (by rw [hold]; exact id) trivial id

/-! ## One step -/

/-- What a step may answer: it stays in the pool, its log fits the mails that wait, and the
invariant holds again. -/
def Keeps (result : Option (List (Entry Thread) × Mailbox Thread)) (capacity : Nat)
    (queue : List Nat) : Prop :=
  ∃ log mb queue', result = some (log, mb) ∧ replay queue log = some queue' ∧
    mb.Holds capacity queue'

omit [DecidableEq Thread] in
/-- A write within the pool succeeds. -/
theorem store_eq (mb : Mailbox Thread) {offset : Nat} (h : offset < mb.msg_pool.length)
    (value : Nat) : mb.store offset value = some (mb.msg_pool.set offset value) :=
  if_pos h

/-- A thread that looks for a place keeps the invariant. -/
theorem Holds.send {mb : Mailbox Thread} {queue : List Nat} {thread : Thread} {value : Nat}
    {timeout : Int} {woken : Bool} (h : mb.Holds capacity queue)
    (hdoing : mb.doing thread = .sending value timeout woken) (left : Int) :
    Keeps (mb.mbSend thread value left) capacity queue := by
  have hentry := h.entry_le
  rw [mbSend]
  by_cases hfull : mb.entry = mb.size
  · have hzero : mb.size - mb.entry = 0 := by omega
    rw [if_pos hfull]
    by_cases hleft : left = 0
    · refine ⟨_, _, queue, if_pos hleft, rfl,
        h.window, h.entry_eq, h.size_eq, h.size_le, h.capacity_eq, ?_, ?_⟩
      · exact h.mails.enter (by rw [hdoing]; exact id) id (by rw [hdoing]; exact False.elim)
      · have hmem := h.places.mem_iff_update thread .out
          (by rw [hdoing]; exact id) id
        exact hzero ▸ .zero h.places.nodup hmem
    · refine ⟨_, _, queue, if_neg hleft, rfl,
        h.window, h.entry_eq, h.size_eq, h.size_le, h.capacity_eq, ?_, ?_⟩
      · exact h.mails.enter (by rw [hdoing]; exact id) id (by rw [hdoing]; exact False.elim)
      · have hplaces := h.places
        rw [hzero] at hplaces
        exact hzero ▸ hplaces.sleep (ipcListSuspend_perm _ _ _ _) (by rw [hdoing]; exact id) trivial
  · have hsize := h.size_eq
    have hroom : queue.length < mb.msg_pool.length := by
      have := h.entry_eq
      omega
    rcases h.window with ⟨ahead, hwindow⟩
    rcases hwindow.push hroom value with ⟨ahead', hpush⟩
    have hmax : mb.entry < rtMbEntryMax := by
      have := h.size_le
      omega
    have hmails : Gate Doing.Receiving Doing.RecvSuspended mb.entry mb.suspend_thread
        (Function.update mb.doing thread .out) :=
      h.mails.enter (by rw [hdoing]; exact id) id (by rw [hdoing]; exact False.elim)
    have hplaces : Gate Doing.Sending Doing.SendSuspended (mb.size - (mb.entry + 1))
        mb.suspend_sender_thread (Function.update mb.doing thread .out) := by
      have hplaces := h.places
      rw [show mb.size - mb.entry = mb.size - (mb.entry + 1) + 1 by omega] at hplaces
      exact hplaces.take (by rw [hdoing]; exact id) id
    rw [if_neg hfull, store_eq mb hwindow.write_lt]
    rcases resumeReceiver_spec { mb with
        msg_pool := mb.msg_pool.set mb.in_offset value
        in_offset := if mb.size ≤ mb.in_offset + 1 then 0 else mb.in_offset + 1
        doing := Function.update mb.doing thread .out
        entry := mb.entry + 1 } hmails hplaces with ⟨suspend_thread, doing, heq, hmails', hplaces'⟩
    refine ⟨_, _, queue ++ [value],
      (if_pos hmax).trans (congrArg (fun mb => some (_, mb)) heq), rfl, ?_⟩
    exact ⟨⟨ahead', hsize ▸ hpush⟩, by rw [List.length_append, ← h.entry_eq]; rfl,
      by rw [List.length_set]; exact hsize, h.size_le, h.capacity_eq, hmails', hplaces'⟩

/-- An urgent mail keeps the invariant. -/
theorem Holds.urgent {mb : Mailbox Thread} {queue : List Nat} (h : mb.Holds capacity queue)
    (value : Nat) : Keeps (mb.mbUrgent value) capacity queue := by
  have hentry := h.entry_le
  have hsize := h.size_eq
  rw [mbUrgent]
  by_cases hfull : mb.entry = mb.size
  · exact ⟨_, _, queue, if_pos hfull, rfl, h⟩
  · have hroom : queue.length < mb.msg_pool.length := by
      have := h.entry_eq
      omega
    rcases h.window with ⟨ahead, hwindow⟩
    rcases hwindow.unshift hroom value with ⟨ahead', hunshift⟩
    have hinside := hunshift.read_lt
    rw [List.length_set, ← hsize] at hinside
    have hplaces : Gate Doing.Sending Doing.SendSuspended (mb.size - (mb.entry + 1))
        mb.suspend_sender_thread mb.doing :=
      h.places.of_le (by omega)
    have hstore := store_eq mb (by rw [← hsize]; exact hinside) value
    rw [if_neg hfull]
    simp only [hstore]
    rcases resumeReceiver_spec { mb with
        out_offset := if 0 < mb.out_offset then mb.out_offset - 1 else mb.size - 1
        msg_pool := mb.msg_pool.set
          (if 0 < mb.out_offset then mb.out_offset - 1 else mb.size - 1) value
        entry := mb.entry + 1 } h.mails hplaces with
      ⟨suspend_thread, doing, heq, hmails', hplaces'⟩
    refine ⟨[.urgent value], _, value :: queue,
      congrArg (fun mb => some ([Entry.urgent value], mb)) heq, rfl, ?_⟩
    exact ⟨⟨ahead', hsize ▸ hunshift⟩, by rw [List.length_cons, ← h.entry_eq],
      by rw [List.length_set]; exact hsize, h.size_le, h.capacity_eq, hmails', hplaces'⟩

/-- A thread that looks for a mail keeps the invariant. -/
theorem Holds.recv {mb : Mailbox Thread} {queue : List Nat} {thread : Thread} {timeout : Int}
    {woken : Bool} (h : mb.Holds capacity queue)
    (hdoing : mb.doing thread = .receiving timeout woken) (left : Int) :
    Keeps (mb.mbRecv thread left) capacity queue := by
  have hsize := h.size_eq
  rw [mbRecv]
  by_cases hempty : mb.entry = 0
  · rw [if_pos hempty]
    by_cases hleft : left = 0
    · refine ⟨_, _, queue, if_pos hleft, rfl,
        h.window, h.entry_eq, hsize, h.size_le, h.capacity_eq, ?_, ?_⟩
      · have hmem := h.mails.mem_iff_update thread .out
          (by rw [hdoing]; exact id) id
        exact hempty ▸ .zero h.mails.nodup hmem
      · exact h.places.enter (by rw [hdoing]; exact id) id (by rw [hdoing]; exact False.elim)
    · refine ⟨_, _, queue, if_neg hleft, rfl,
        h.window, h.entry_eq, hsize, h.size_le, h.capacity_eq, ?_, ?_⟩
      · have hmails := h.mails
        rw [hempty] at hmails
        exact hempty ▸ hmails.sleep (ipcListSuspend_perm _ _ _ _) (by rw [hdoing]; exact id) trivial
      · exact h.places.enter (by rw [hdoing]; exact id) id (by rw [hdoing]; exact False.elim)
  · have hlength := h.entry_eq
    rcases h.window with ⟨ahead, hwindow⟩
    cases queue with
    | nil => exact absurd hlength hempty
    | cons value queue =>
        rw [List.length_cons] at hlength
        rcases hwindow.pop with ⟨hcell, ahead', hpop⟩
        have hmails : Gate Doing.Receiving Doing.RecvSuspended (mb.entry - 1) mb.suspend_thread
            (Function.update mb.doing thread .out) := by
          have hmails := h.mails
          rw [show mb.entry = mb.entry - 1 + 1 by omega] at hmails
          exact hmails.take (by rw [hdoing]; exact id) id
        have hplaces : Gate Doing.Sending Doing.SendSuspended (mb.size - mb.entry)
            mb.suspend_sender_thread (Function.update mb.doing thread .out) :=
          h.places.enter (by rw [hdoing]; exact id) id (by rw [hdoing]; exact False.elim)
        rw [if_neg hempty, hcell]
        rcases resumeSender_spec { mb with
            out_offset := if mb.size ≤ mb.out_offset + 1 then 0 else mb.out_offset + 1
            entry := mb.entry - 1
            doing := Function.update mb.doing thread .out } hmails hplaces with
          ⟨suspend_sender_thread, doing, heq, hmails', hplaces'⟩
        have hfree : mb.size - (mb.entry - 1) = mb.size - mb.entry + 1 := by
          have := h.entry_le
          omega
        refine ⟨[.received thread value], _, queue,
          congrArg (fun mb => some ([Entry.received thread value], mb)) heq, ?_, ?_⟩
        · rw [replay, Entry.apply, if_pos rfl]
          rfl
        · have hentry : mb.entry - 1 = queue.length := by rw [hlength, Nat.add_sub_cancel]
          exact ⟨⟨ahead', hsize ▸ hpop⟩, hentry, hsize, h.size_le, h.capacity_eq, hmails',
            hfree ▸ hplaces'⟩

/-- A reset keeps the invariant. -/
theorem Holds.reset {mb : Mailbox Thread} {queue : List Nat} (h : mb.Holds capacity queue) :
    Keeps (some mb.mbReset) capacity queue := by
  have hpool : mb.msg_pool ≠ [] := by
    rcases h.window with ⟨ahead, hwindow⟩
    exact List.ne_nil_of_length_pos (Nat.lt_of_le_of_lt (Nat.zero_le _) hwindow.read_lt)
  refine ⟨_, _, [], rfl, ?_,
    ⟨false, window_nil hpool⟩, rfl, h.size_eq, h.size_le, h.capacity_eq, ?_, ?_⟩
  · rw [replay_append, replay_failed]
    rfl
  · exact h.mails.wakeAll (fun _ => List.mem_append_left _) id 0
  · exact h.places.wakeAll (fun _ => List.mem_append_right _) id _

/-- Each step keeps the invariant. -/
theorem Holds.step {mb : Mailbox Thread} {queue : List Nat} (h : mb.Holds capacity queue)
    (event : Event Thread) : Keeps (mb.step event) capacity queue := by
  cases event with
  | callSend thread value timeout =>
      rw [Mailbox.step]
      split
      · next hout => exact ⟨_, _, queue, rfl, rfl, h.enter hout id id⟩
      · exact ⟨_, _, queue, rfl, rfl, h⟩
  | callRecv thread timeout =>
      rw [Mailbox.step]
      split
      · next hout => exact ⟨_, _, queue, rfl, rfl, h.enter hout id id⟩
      · exact ⟨_, _, queue, rfl, rfl, h⟩
  | look thread elapsed =>
      rw [Mailbox.step]
      split
      · next hdoing => exact h.send hdoing _
      · next hdoing => exact h.recv hdoing _
      · exact ⟨_, _, queue, rfl, rfl, h⟩
  | expire thread =>
      rw [Mailbox.step]
      split
      · next hdoing =>
          split
          · refine ⟨_, _, queue, rfl, rfl,
              h.window, h.entry_eq, h.size_eq, h.size_le, h.capacity_eq, ?_, ?_⟩
            · exact h.mails.enter (by rw [hdoing]; exact id) id (by rw [hdoing]; exact id)
            · exact h.places.expire (by rw [hdoing]; exact id) id
          · exact ⟨_, _, queue, rfl, rfl, h⟩
      · next hdoing =>
          split
          · refine ⟨_, _, queue, rfl, rfl,
              h.window, h.entry_eq, h.size_eq, h.size_le, h.capacity_eq, ?_, ?_⟩
            · exact h.mails.expire (by rw [hdoing]; exact id) id
            · exact h.places.enter (by rw [hdoing]; exact id) id (by rw [hdoing]; exact id)
          · exact ⟨_, _, queue, rfl, rfl, h⟩
      · exact ⟨_, _, queue, rfl, rfl, h⟩
  | urgent value => exact h.urgent value
  | reset => exact h.reset
  | changePriority thread priority =>
      exact ⟨_, _, queue, rfl, rfl,
        ⟨h.window, h.entry_eq, h.size_eq, h.size_le, h.capacity_eq, h.mails, h.places⟩⟩

/-! ## All steps -/

/-- The steps in any order keep the invariant. -/
theorem Holds.run {mb : Mailbox Thread} {queue : List Nat} (h : mb.Holds capacity queue)
    (events : List (Event Thread)) : Keeps (mb.run events) capacity queue := by
  induction events generalizing mb queue with
  | nil => exact ⟨[], mb, queue, rfl, rfl, h⟩
  | cons event events ih =>
      rcases h.step event with ⟨log, mb', queue', hstep, hreplay, hholds⟩
      rcases ih hholds with ⟨log', mb'', queue'', hrun, hreplay', hholds'⟩
      refine ⟨log ++ log', mb'', queue'', ?_, ?_, hholds'⟩
      · rw [Mailbox.run, hstep]
        simp only
        rw [hrun, Option.map_some]
      · rw [replay_append, hreplay, Option.bind_some, hreplay']

/-- As long as a thread sleeps for a mail, each mail that waits has a thread that is about to
look for it, and as long as one sleeps for a free place, so has each free place.  So the two
never sleep while nobody is about to look. -/
theorem run_wakes_mail {msg_pool : List Nat} (hpool : msg_pool ≠ [])
    (hsize : msg_pool.length ≤ rtMbEntryMax) (flag : IpcFlag) (current_priority : Thread → Nat)
    (events : List (Event Thread)) :
    ∃ log mb, (init msg_pool flag current_priority).run events = some (log, mb) ∧
      (∀ thread, (mb.doing thread).RecvSuspended →
        AtLeast mb.entry fun other => (mb.doing other).Receiving) ∧
      (∀ thread, (mb.doing thread).SendSuspended →
        AtLeast (msg_pool.length - mb.entry) fun other => (mb.doing other).Sending) ∧
      ∀ thread thread', (mb.doing thread).RecvSuspended → (mb.doing thread').SendSuspended →
        ∃ other, (mb.doing other).Receiving ∨ (mb.doing other).Sending := by
  rcases (init_holds hpool hsize flag current_priority).run events with
    ⟨log, mb, queue, hrun, -, hholds⟩
  have hmails : ∀ thread, (mb.doing thread).RecvSuspended →
      AtLeast mb.entry fun other => (mb.doing other).Receiving := fun thread hasleep =>
    hholds.mails.served (List.ne_nil_of_mem ((hholds.mails.mem_iff thread).mpr hasleep))
  have hplaces : ∀ thread, (mb.doing thread).SendSuspended →
      AtLeast (msg_pool.length - mb.entry) fun other => (mb.doing other).Sending :=
    fun thread hasleep => hholds.capacity_eq ▸
      hholds.places.served (List.ne_nil_of_mem ((hholds.places.mem_iff thread).mpr hasleep))
  refine ⟨log, mb, hrun, hmails, hplaces, fun thread thread' hrecv hsend => ?_⟩
  have hpos := List.length_pos_iff.mpr hpool
  -- the pool has a cell, so a mail waits or a place is free
  by_cases hentry : mb.entry = 0
  · rcases (hplaces thread' hsend).exists_of_pos (by omega) with ⟨other, hother⟩
    exact ⟨other, .inr hother⟩
  · rcases (hmails thread hrecv).exists_of_pos (Nat.pos_of_ne_zero hentry) with ⟨other, hother⟩
    exact ⟨other, .inl hother⟩

/-- Two threads sleep for a mail, and the one that is sent finds the first of them about to look. -/
theorem run_wakes_mail_single :
    ∃ log mb, (init [0] .prio fun thread => thread).run [.callRecv 1 (-1), .look 1 0,
        .callRecv 0 5, .look 0 0, .callSend 2 7 0, .look 2 0] = some (log, mb) ∧
      (∀ thread, (mb.doing thread).RecvSuspended →
        AtLeast mb.entry fun other => (mb.doing other).Receiving) ∧
      (∀ thread, (mb.doing thread).SendSuspended →
        AtLeast (1 - mb.entry) fun other => (mb.doing other).Sending) ∧
      ∀ thread thread', (mb.doing thread).RecvSuspended → (mb.doing thread').SendSuspended →
        ∃ other, (mb.doing other).Receiving ∨ (mb.doing other).Sending :=
  run_wakes_mail (by decide) (by decide) .prio (fun thread => thread) _

end Invariant

end Mailbox
end RtThread
end TestAio
