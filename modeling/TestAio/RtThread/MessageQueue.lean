import Mathlib.Algebra.Ring.Nat
import TestAio.Library.CellPool
import TestAio.Library.Cyclic
import TestAio.Library.Turnstile
import TestAio.RtThread.Ipc

/-!
# Message queues

The messages of {lit}`src/ipc.c` lie in cells that are linked in a queue or in a list of free
ones.  A thread that sends takes a free cell, copies its message while the interrupts are on, and
links the cell; one that receives unlinks the first cell, copies the message, and puts the cell
back.  Each part without interrupts is one step here, and the copies are steps of their own.

Main results:

- Theorem {lit}`run_delivers_message`: in every order of the steps a thread gets the message that
  was the first one when it took a cell, as it was sent.
- Theorem {lit}`run_keeps_cells`: no cell is lost or linked twice.
- Theorem {lit}`run_wakes_message`: as long as a thread sleeps, each message, or each free cell,
  has a thread that is about to look for it.

Current gaps:

- Deleting and detaching a queue is not modelled.
-/

namespace TestAio
namespace RtThread

open Library Library.CellPool Library.Turnstile

/-- {lit}`RT_MQ_ENTRY_MAX`. -/
def rtMqEntryMax : Nat := 65535

/-- {lit}`RT_ALIGN(size, RT_ALIGN_SIZE)`. -/
def rtAlign (size : Nat) : Nat := (size + 3) / 4 * 4

/-- {lit}`sizeof(struct rt_mq_message)`. -/
def sizeofRtMqMessage : Nat := 4

namespace MessageQueue

/-- What a thread does: it is about to look for a cell in {lit}`rt_mq_send_wait` or for a message
in {lit}`rt_mq_recv`, it is suspended there, it has taken a cell and is about to copy or to link
it, or it is elsewhere. -/
inductive Doing
  | out
  | sending (buffer : List UInt8) (timeout : Int) (woken : Bool)
  | sendSuspended (buffer : List UInt8) (timeout : Int)
  | filling (urgent : Bool) (msg : Nat) (buffer : List UInt8)
  | linking (urgent : Bool) (msg : Nat) (buffer : List UInt8)
  | receiving (size : Nat) (timeout : Int) (woken : Bool)
  | recvSuspended (size : Nat) (timeout : Int)
  | copying (msg : Nat) (size : Nat)
  | freeing (msg : Nat) (size : Nat) (buffer : List UInt8)
deriving DecidableEq

/-- What the functions have done or answered. -/
inductive Entry (Thread : Type)
  | sent (thread : Thread) (buffer : List UInt8)
  | urgent (thread : Thread) (buffer : List UInt8)
  | taken (thread : Thread)
  | received (thread : Thread) (size : Nat) (buffer : List UInt8)
  | failed (thread : Thread) (errno : RtError)
  | reset
deriving DecidableEq

/-- What happens: a thread calls a function or goes on some ticks after it was suspended, the
time of a thread is over, someone resets the queue, or a thread gets another priority, which leaves
it where it sleeps. -/
inductive Event (Thread : Type)
  | callSend (thread : Thread) (buffer : List UInt8) (timeout : Int)
  | callUrgent (thread : Thread) (buffer : List UInt8)
  | callRecv (thread : Thread) (size : Nat) (timeout : Int)
  | go (thread : Thread) (elapsed : Nat)
  | expire (thread : Thread)
  | reset
  | changePriority (thread : Thread) (priority : Nat)

end MessageQueue

/-- {lit}`struct rt_messagequeue` with its cells and what the threads do. -/
structure MessageQueue (Thread : Type) where
  next : Nat → Option Nat
  data : Nat → List UInt8
  msg_size : Nat
  max_msgs : Nat
  entry : Nat
  msg_queue_head : Option Nat
  msg_queue_tail : Option Nat
  msg_queue_free : Option Nat
  flag : IpcFlag
  suspend_thread : List Thread
  suspend_sender_thread : List Thread
  current_priority : Thread → Nat
  doing : Thread → MessageQueue.Doing

namespace MessageQueue

section Functions

variable {Thread : Type} [DecidableEq Thread]

/-- A thread goes on with something else. -/
def setDoing (mq : MessageQueue Thread) (thread : Thread) (doing : Doing) :
    MessageQueue Thread :=
  { mq with doing := Function.update mq.doing thread doing }

/-- What a thread that is resumed goes on with. -/
def resumed : Doing → Doing
  | .sendSuspended buffer timeout => .sending buffer timeout true
  | .recvSuspended size timeout => .receiving size timeout true
  | doing => doing

/-- {lit}`_ipc_list_resume(&(mq->parent.suspend_thread))`, when the list is not empty. -/
def resumeReceiver (mq : MessageQueue Thread) : MessageQueue Thread :=
  match mq.suspend_thread with
  | [] => mq
  | thread :: rest =>
      { mq with suspend_thread := rest }.setDoing thread (resumed (mq.doing thread))

/-- {lit}`_ipc_list_resume(&(mq->suspend_sender_thread))`, when the list is not empty. -/
def resumeSender (mq : MessageQueue Thread) : MessageQueue Thread :=
  match mq.suspend_sender_thread with
  | [] => mq
  | thread :: rest =>
      { mq with suspend_sender_thread := rest }.setDoing thread (resumed (mq.doing thread))

/-- {lit}`rt_mq_send_wait` from the test of the loop on, until it has a cell. -/
def mqSend (mq : MessageQueue Thread) (thread : Thread) (buffer : List UInt8) (timeout : Int) :
    List (Entry Thread) × MessageQueue Thread :=
  match mq.msg_queue_free with
  | none =>
      if timeout = 0 then
        ([.failed thread .full], mq.setDoing thread .out)
      else
        ([], { mq with
          suspend_sender_thread :=
            ipcListSuspend mq.current_priority mq.flag thread mq.suspend_sender_thread }.setDoing
          thread (.sendSuspended buffer timeout))
  | some msg =>
      ([], { mq with msg_queue_free := mq.next msg }.setDoing thread (.filling false msg buffer))

/-- {lit}`rt_mq_urgent`, until it has a cell. -/
def mqUrgent (mq : MessageQueue Thread) (thread : Thread) (buffer : List UInt8) :
    List (Entry Thread) × MessageQueue Thread :=
  match mq.msg_queue_free with
  | none => ([.failed thread .full], mq)
  | some msg =>
      ([], { mq with msg_queue_free := mq.next msg }.setDoing thread (.filling true msg buffer))

/-- The copy of the message into the cell; {lit}`rt_mq_send_wait` also clears the link. -/
def fill (mq : MessageQueue Thread) (thread : Thread) (urgent : Bool) (msg : Nat)
    (buffer : List UInt8) : MessageQueue Thread :=
  { mq with
    next := if urgent then mq.next else Function.update mq.next msg none
    data := Function.update mq.data msg (Cyclic.overwrite (mq.data msg) 0 buffer) }.setDoing
    thread (.linking urgent msg buffer)

/-- The last part of {lit}`rt_mq_send_wait` and {lit}`rt_mq_urgent`, when the cell is linked. -/
def count (mq : MessageQueue Thread) (thread : Thread) (done : Entry Thread) :
    List (Entry Thread) × MessageQueue Thread :=
  if mq.entry < rtMqEntryMax then
    ([done], { mq with entry := mq.entry + 1 }.resumeReceiver)
  else
    ([.failed thread .full], mq)

/-- {lit}`rt_mq_send_wait` links its cell. -/
def linkLast (mq : MessageQueue Thread) (thread : Thread) (msg : Nat) (buffer : List UInt8) :
    List (Entry Thread) × MessageQueue Thread :=
  ({ mq with
    next := mq.msg_queue_tail.elim mq.next fun tail => Function.update mq.next tail (some msg)
    msg_queue_tail := some msg
    msg_queue_head :=
      if mq.msg_queue_head = none then some msg else mq.msg_queue_head }.setDoing thread
    .out).count thread (.sent thread buffer)

/-- {lit}`rt_mq_urgent` links its cell. -/
def linkFirst (mq : MessageQueue Thread) (thread : Thread) (msg : Nat) (buffer : List UInt8) :
    List (Entry Thread) × MessageQueue Thread :=
  ({ mq with
    next := Function.update mq.next msg mq.msg_queue_head
    msg_queue_head := some msg
    msg_queue_tail :=
      if mq.msg_queue_tail = none then some msg else mq.msg_queue_tail }.setDoing thread
    .out).count thread (.urgent thread buffer)

/-- {lit}`rt_mq_recv` from the test of the loop on, until it has a cell; nothing when it follows
a null pointer. -/
def mqRecv (mq : MessageQueue Thread) (thread : Thread) (size : Nat) (timeout : Int) :
    Option (List (Entry Thread) × MessageQueue Thread) :=
  if mq.entry = 0 then
    if timeout = 0 then
      some ([.failed thread .timeout], mq.setDoing thread .out)
    else
      some ([], { mq with
        suspend_thread :=
          ipcListSuspend mq.current_priority mq.flag thread mq.suspend_thread }.setDoing
        thread (.recvSuspended size timeout))
  else
    match mq.msg_queue_head with
    | none => none
    | some msg =>
        some ([.taken thread], { mq with
          msg_queue_head := mq.next msg
          msg_queue_tail := if mq.msg_queue_tail = some msg then none else mq.msg_queue_tail
          entry := mq.entry - 1 }.setDoing thread (.copying msg size))

/-- The copy of the message out of the cell. -/
def copy (mq : MessageQueue Thread) (thread : Thread) (msg size : Nat) : MessageQueue Thread :=
  mq.setDoing thread (.freeing msg size
    ((mq.data msg).take (if mq.msg_size < size then mq.msg_size else size)))

/-- {lit}`rt_mq_recv` puts its cell into the free list. -/
def giveBack (mq : MessageQueue Thread) (thread : Thread) (msg : Nat) : MessageQueue Thread :=
  ({ mq with
    next := Function.update mq.next msg mq.msg_queue_free
    msg_queue_free := some msg }.setDoing thread .out).resumeSender

/-- The loop of {lit}`rt_mq_control` that releases all messages, for some rounds. -/
def releaseAll : Nat → MessageQueue Thread → Option (MessageQueue Thread)
  | 0, mq => if mq.msg_queue_head = none then some mq else none
  | rounds + 1, mq =>
      match mq.msg_queue_head with
      | none => some mq
      | some msg =>
          releaseAll rounds { mq with
            msg_queue_head := mq.next msg
            msg_queue_tail := if mq.msg_queue_tail = some msg then none else mq.msg_queue_tail
            next := Function.update mq.next msg mq.msg_queue_free
            msg_queue_free := some msg }

/-- {lit}`rt_mq_control` with {lit}`RT_IPC_CMD_RESET`: the suspended threads return an error. -/
def mqReset (mq : MessageQueue Thread) : Option (List (Entry Thread) × MessageQueue Thread) :=
  let threads := mq.suspend_thread ++ mq.suspend_sender_thread
  (releaseAll mq.max_msgs { mq with
    suspend_thread := []
    suspend_sender_thread := []
    doing := ipcListResumeAll .out threads mq.doing }).map fun mq =>
    ((threads.map fun thread => .failed thread .general) ++ [.reset], { mq with entry := 0 })

/-- One step; a thread that is not where the step takes place goes on as before.  Nothing when a
function follows a null pointer or does not end. -/
def step (mq : MessageQueue Thread) :
    Event Thread → Option (List (Entry Thread) × MessageQueue Thread)
  | .callSend thread buffer timeout =>
      match mq.doing thread with
      | .out =>
          if mq.msg_size < buffer.length then
            some ([.failed thread .general], mq)
          else
            some ([], mq.setDoing thread (.sending buffer timeout false))
      | _ => some ([], mq)
  | .callUrgent thread buffer =>
      match mq.doing thread with
      | .out =>
          if mq.msg_size < buffer.length then
            some ([.failed thread .general], mq)
          else
            some (mq.mqUrgent thread buffer)
      | _ => some ([], mq)
  | .callRecv thread size timeout =>
      match mq.doing thread with
      | .out => some ([], mq.setDoing thread (.receiving size timeout false))
      | _ => some ([], mq)
  | .go thread elapsed =>
      match mq.doing thread with
      | .sending buffer timeout woken =>
          some (mq.mqSend thread buffer (timeLeft timeout woken elapsed))
      | .filling urgent msg buffer => some ([], mq.fill thread urgent msg buffer)
      | .linking false msg buffer => some (mq.linkLast thread msg buffer)
      | .linking true msg buffer => some (mq.linkFirst thread msg buffer)
      | .receiving size timeout woken =>
          mq.mqRecv thread size (timeLeft timeout woken elapsed)
      | .copying msg size => some ([], mq.copy thread msg size)
      | .freeing msg size buffer => some ([.received thread size buffer], mq.giveBack thread msg)
      | _ => some ([], mq)
  | .expire thread =>
      match mq.doing thread with
      | .sendSuspended _ timeout =>
          if 0 < timeout then
            some ([.failed thread .timeout], { mq with
              suspend_sender_thread :=
                mq.suspend_sender_thread.filter fun other => other ≠ thread }.setDoing
              thread .out)
          else
            some ([], mq)
      | .recvSuspended _ timeout =>
          if 0 < timeout then
            some ([.failed thread .timeout], { mq with
              suspend_thread :=
                mq.suspend_thread.filter fun other => other ≠ thread }.setDoing thread .out)
          else
            some ([], mq)
      | _ => some ([], mq)
  | .reset => mq.mqReset
  | .changePriority thread priority =>
      some ([], { mq with current_priority := Function.update mq.current_priority thread priority })

/-- The steps in some order. -/
def run (mq : MessageQueue Thread) : List (Event Thread) →
    Option (List (Entry Thread) × MessageQueue Thread)
  | [] => some ([], mq)
  | event :: rest =>
      match mq.step event with
      | none => none
      | some (log, mq) => (mq.run rest).map fun result => (log ++ result.1, result.2)

/-- The loop of {lit}`rt_mq_init`: the links of the free cells and the first one. -/
def freeCells : Nat → (Nat → Option Nat) × Option Nat
  | 0 => (fun _ => none, none)
  | temp + 1 => (Function.update (freeCells temp).1 temp (freeCells temp).2, some temp)

/-- {lit}`rt_mq_init` on a pool.  Both sizes are stored in {lit}`rt_uint16_t`. -/
def init (msg_pool : List UInt8) (msg_size : Nat) (flag : IpcFlag)
    (current_priority : Thread → Nat) : MessageQueue Thread :=
  let msg_size := rtAlign msg_size % 2 ^ 16
  let max_msgs := msg_pool.length / (msg_size + sizeofRtMqMessage) % 2 ^ 16
  { next := (freeCells max_msgs).1
    data := fun msg =>
      (msg_pool.drop (msg * (msg_size + sizeofRtMqMessage) + sizeofRtMqMessage)).take msg_size
    msg_size := msg_size
    max_msgs := max_msgs
    entry := 0
    msg_queue_head := none
    msg_queue_tail := none
    msg_queue_free := (freeCells max_msgs).2
    flag := flag
    suspend_thread := []
    suspend_sender_thread := []
    current_priority := current_priority
    doing := fun _ => .out }

end Functions

/-! ## What a message queue is for -/

/-- The messages that wait, and the ones that threads have taken. -/
structure Messages (Thread : Type) where
  queue : List (List UInt8)
  taken : Thread → Option (List UInt8)

section Abstract

variable {Thread : Type} [DecidableEq Thread]

/-- What an entry means for the messages; nothing when a thread gets other bytes than those of
the message that it has taken. -/
def Entry.apply : Entry Thread → Messages Thread → Option (Messages Thread)
  | .sent _ buffer, messages => some { messages with queue := messages.queue ++ [buffer] }
  | .urgent _ buffer, messages => some { messages with queue := buffer :: messages.queue }
  | .taken thread, messages =>
      match messages.queue with
      | [] => none
      | first :: queue =>
          some ⟨queue, Function.update messages.taken thread (some first)⟩
  | .received thread size buffer, messages =>
      match messages.taken thread with
      | none => none
      | some message =>
          if message.take size <+: buffer then
            some { messages with taken := Function.update messages.taken thread none }
          else
            none
  | .reset, messages => some { messages with queue := [] }
  | .failed _ _, messages => some messages

/-- The messages after all entries of a log. -/
def replay (messages : Messages Thread) : List (Entry Thread) → Option (Messages Thread)
  | [] => some messages
  | entry :: log => (entry.apply messages).bind fun messages => replay messages log

/-- A log is replayed in parts. -/
theorem replay_append (messages : Messages Thread) (log log' : List (Entry Thread)) :
    replay messages (log ++ log') =
      (replay messages log).bind fun messages => replay messages log' := by
  induction log generalizing messages with
  | nil => rfl
  | cons entry log ih =>
      rw [List.cons_append, replay, replay, Option.bind_assoc]
      congr 1
      funext messages
      exact ih messages

/-- Calls that fail leave the messages as they are. -/
theorem replay_failed (messages : Messages Thread) (threads : List Thread) (errno : RtError) :
    replay messages (threads.map fun thread => .failed thread errno) = some messages := by
  induction threads with
  | nil => rfl
  | cons thread threads ih => exact ih

end Abstract

/-! ## The invariant -/

/-- The thread is about to look for a message. -/
def Doing.Receiving : Doing → Prop
  | .receiving _ _ _ => True
  | _ => False

/-- The thread sleeps until a message comes. -/
def Doing.RecvSuspended : Doing → Prop
  | .recvSuspended _ _ => True
  | _ => False

/-- The thread is about to look for a free cell. -/
def Doing.Sending : Doing → Prop
  | .sending _ _ _ => True
  | _ => False

/-- The thread sleeps until a cell becomes free. -/
def Doing.SendSuspended : Doing → Prop
  | .sendSuspended _ _ => True
  | _ => False

/-- A thread that sleeps for a message has a size and a timeout. -/
theorem Doing.RecvSuspended.exists_eq {doing : Doing} (h : doing.RecvSuspended) :
    ∃ size timeout, doing = .recvSuspended size timeout := by
  cases doing with
  | recvSuspended size timeout => exact ⟨size, timeout, rfl⟩
  | _ => exact h.elim

/-- A thread that sleeps for a cell has a message and a timeout. -/
theorem Doing.SendSuspended.exists_eq {doing : Doing} (h : doing.SendSuspended) :
    ∃ buffer timeout, doing = .sendSuspended buffer timeout := by
  cases doing with
  | sendSuspended buffer timeout => exact ⟨buffer, timeout, rfl⟩
  | _ => exact h.elim

/-- The cell that a thread has taken. -/
def Doing.cell : Doing → Option Nat
  | .filling _ msg _ => some msg
  | .linking _ msg _ => some msg
  | .copying msg _ => some msg
  | .freeing msg _ _ => some msg
  | _ => none

/-- What is true of the message and the cell of a thread. -/
def Doing.Sound (next : Nat → Option Nat) (data : Nat → List UInt8) (msg_size : Nat)
    (taken : Option (List UInt8)) : Doing → Prop
  | .sending buffer _ _ => buffer.length ≤ msg_size
  | .sendSuspended buffer _ => buffer.length ≤ msg_size
  | .filling _ _ buffer => buffer.length ≤ msg_size
  | .linking urgent msg buffer => buffer <+: data msg ∧ (urgent = false → next msg = none)
  | .copying msg _ => ∃ message, taken = some message ∧ message <+: data msg
  | .freeing _ size buffer => ∃ message, taken = some message ∧ message.take size <+: buffer
  | _ => True

/-- Only the cell that a thread has matters to it. -/
theorem Doing.Sound.congr {next next' : Nat → Option Nat} {data data' : Nat → List UInt8}
    {msg_size : Nat} {taken : Option (List UInt8)} {doing : Doing}
    (h : doing.Sound next data msg_size taken)
    (hnext : ∀ cell, doing.cell = some cell → next' cell = next cell)
    (hdata : ∀ cell, doing.cell = some cell → data' cell = data cell) :
    doing.Sound next' data' msg_size taken := by
  cases doing with
  | linking urgent msg buffer =>
      rw [Doing.Sound, hnext msg rfl, hdata msg rfl]
      exact h
  | copying msg size =>
      rw [Doing.Sound, hdata msg rfl]
      exact h
  | _ => exact h

section Invariant

variable {Thread : Type} [DecidableEq Thread] {limit : Nat}

/-- The cells hold the messages that wait, each thread has what it needs, and no sleeping thread
is forgotten. -/
structure Holds (mq : MessageQueue Thread) (limit : Nat) (messages : Messages Thread)
    (cells frees : List Nat) : Prop where
  pool : Pool mq.next mq.msg_queue_head mq.msg_queue_tail mq.msg_queue_free
    (Doing.cell ∘ mq.doing) (List.range mq.max_msgs) cells frees
  entry_eq : mq.entry = cells.length
  bounds : mq.max_msgs = limit ∧ limit ≤ rtMqEntryMax
  contents : List.Forall₂ (fun cell message => message <+: mq.data cell) cells messages.queue
  data_length : ∀ cell < mq.max_msgs, (mq.data cell).length = mq.msg_size
  sound : ∀ thread,
    (mq.doing thread).Sound mq.next mq.data mq.msg_size (messages.taken thread)
  mails : Gate Doing.Receiving Doing.RecvSuspended mq.entry mq.suspend_thread mq.doing
  places : Gate Doing.Sending Doing.SendSuspended frees.length mq.suspend_sender_thread mq.doing

omit [DecidableEq Thread] in
/-- The messages of the cells in the queue, when these cells are left alone. -/
theorem contents_congr {data data' : Nat → List UInt8} {cells : List Nat}
    {queue : List (List UInt8)}
    (h : List.Forall₂ (fun cell message => message <+: data cell) cells queue)
    (hdata : ∀ cell ∈ cells, data' cell = data cell) :
    List.Forall₂ (fun cell message => message <+: data' cell) cells queue := by
  induction h with
  | nil => exact .nil
  | cons hfirst _ ih =>
      rcases List.forall_mem_cons.mp hdata with ⟨hcell, hrest⟩
      exact .cons (hcell ▸ hfirst) (ih hrest)

/-- One thread goes on, and the cells of the other ones are left alone. -/
theorem sound_update {next next' : Nat → Option Nat} {data data' : Nat → List UInt8}
    {msg_size : Nat} {taken taken' : Thread → Option (List UInt8)} {doing : Thread → Doing}
    {thread : Thread} {new : Doing}
    (h : ∀ other, (doing other).Sound next data msg_size (taken other))
    (hnew : new.Sound next' data' msg_size (taken' thread))
    (htaken : ∀ other, other ≠ thread → taken' other = taken other)
    (hcells : ∀ other cell, other ≠ thread → (doing other).cell = some cell →
      next' cell = next cell ∧ data' cell = data cell) (other : Thread) :
    (Function.update doing thread new other).Sound next' data' msg_size (taken' other) := by
  by_cases hother : other = thread
  · subst hother
    rw [Function.update_self]
    exact hnew
  · rw [Function.update_of_ne hother, htaken other hother]
    exact (h other).congr (fun cell hcell => (hcells other cell hother hcell).1)
      fun cell hcell => (hcells other cell hother hcell).2

/-- A thread that has no cell, before and after, changes nothing for the cells. -/
theorem Holds.setDoing_pool {mq : MessageQueue Thread} {messages : Messages Thread}
    {cells frees : List Nat} (h : mq.Holds limit messages cells frees) (thread : Thread)
    (new : Doing) (hcell : new.cell = (mq.doing thread).cell) :
    Pool mq.next mq.msg_queue_head mq.msg_queue_tail mq.msg_queue_free
      (Doing.cell ∘ Function.update mq.doing thread new) (List.range mq.max_msgs) cells frees := by
  rw [Function.comp_update, hcell, ← Function.comp_apply (f := Doing.cell),
    Function.update_eq_self]
  exact h.pool

/-- Threads that were resumed have no cell, and keep what they send. -/
def Doing.Resumes (old new : Doing) : Prop :=
  new.cell = old.cell ∧ ∀ next data msg_size taken, old.Sound next data msg_size taken →
    new.Sound next data msg_size taken

/-- Only one thread is resumed. -/
theorem resumes_update {doing : Thread → Doing} {thread : Thread} {new : Doing}
    (h : (doing thread).Resumes new) (other : Thread) :
    (doing other).Resumes (Function.update doing thread new other) := by
  by_cases hother : other = thread
  · subst hother
    rw [Function.update_self]
    exact h
  · rw [Function.update_of_ne hother]
    exact ⟨rfl, fun _ _ _ _ => id⟩

/-! ## Resuming a thread -/

/-- One more message, and the first thread that waits for one is resumed. -/
theorem resumeReceiver_spec (mq : MessageQueue Thread) {mails places : Nat}
    (hmails : Gate Doing.Receiving Doing.RecvSuspended mails mq.suspend_thread mq.doing)
    (hplaces : Gate Doing.Sending Doing.SendSuspended places mq.suspend_sender_thread mq.doing) :
    ∃ suspend_thread doing,
      mq.resumeReceiver = { mq with suspend_thread := suspend_thread, doing := doing } ∧
      Gate Doing.Receiving Doing.RecvSuspended (mails + 1) suspend_thread doing ∧
      Gate Doing.Sending Doing.SendSuspended places mq.suspend_sender_thread doing ∧
      ∀ thread, (mq.doing thread).Resumes (doing thread) := by
  rw [resumeReceiver]
  split
  · next hnil =>
      refine ⟨mq.suspend_thread, mq.doing, rfl, ?_, hplaces, fun _ => ⟨rfl, fun _ _ _ _ => id⟩⟩
      rw [hnil] at hmails ⊢
      exact hmails.offer (mails + 1)
  · next thread rest hcons =>
      rw [hcons] at hmails
      rcases ((hmails.mem_iff thread).mp List.mem_cons_self).exists_eq with ⟨size, timeout, hold⟩
      refine ⟨rest, Function.update mq.doing thread (.receiving size timeout true), ?_, ?_, ?_,
        resumes_update ?_⟩
      · rw [setDoing, hold, resumed]
      · exact hmails.wake (by rw [hold]; exact id) trivial id
      · exact hplaces.enter (by rw [hold]; exact id) id (by rw [hold]; exact id)
      · rw [hold]
        exact ⟨rfl, fun _ _ _ _ => id⟩

/-- One more free cell, and the first thread that waits for one is resumed. -/
theorem resumeSender_spec (mq : MessageQueue Thread) {mails places : Nat}
    (hmails : Gate Doing.Receiving Doing.RecvSuspended mails mq.suspend_thread mq.doing)
    (hplaces : Gate Doing.Sending Doing.SendSuspended places mq.suspend_sender_thread mq.doing) :
    ∃ suspend_sender_thread doing,
      mq.resumeSender =
        { mq with suspend_sender_thread := suspend_sender_thread, doing := doing } ∧
      Gate Doing.Receiving Doing.RecvSuspended mails mq.suspend_thread doing ∧
      Gate Doing.Sending Doing.SendSuspended (places + 1) suspend_sender_thread doing ∧
      ∀ thread, (mq.doing thread).Resumes (doing thread) := by
  rw [resumeSender]
  split
  · next hnil =>
      refine ⟨mq.suspend_sender_thread, mq.doing, rfl, hmails, ?_,
        fun _ => ⟨rfl, fun _ _ _ _ => id⟩⟩
      rw [hnil] at hplaces ⊢
      exact hplaces.offer (places + 1)
  · next thread rest hcons =>
      rw [hcons] at hplaces
      rcases ((hplaces.mem_iff thread).mp List.mem_cons_self).exists_eq with
        ⟨buffer, timeout, hold⟩
      refine ⟨rest, Function.update mq.doing thread (.sending buffer timeout true), ?_, ?_, ?_,
        resumes_update ?_⟩
      · rw [setDoing, hold, resumed]
      · exact hmails.enter (by rw [hold]; exact id) id (by rw [hold]; exact id)
      · exact hplaces.wake (by rw [hold]; exact id) trivial id
      · rw [hold]
        exact ⟨rfl, fun _ _ _ _ => id⟩

/-! ## One step -/

/-- What a step may answer: its log fits the messages, and the invariant holds again. -/
def Keeps (result : Option (List (Entry Thread) × MessageQueue Thread)) (limit : Nat)
    (messages : Messages Thread) : Prop :=
  ∃ log mq messages' cells frees, result = some (log, mq) ∧
    replay messages log = some messages' ∧ mq.Holds limit messages' cells frees

variable {mq : MessageQueue Thread} {messages : Messages Thread} {cells frees : List Nat}
  {thread : Thread}

/-- A step that only changes what one thread does, without cells. -/
theorem Holds.setDoing {new : Doing} (h : mq.Holds limit messages cells frees)
    (hcell : new.cell = (mq.doing thread).cell)
    (hnew : new.Sound mq.next mq.data mq.msg_size (messages.taken thread))
    {suspend_thread suspend_sender_thread : List Thread}
    (hmails : Gate Doing.Receiving Doing.RecvSuspended mq.entry suspend_thread
      (Function.update mq.doing thread new))
    (hplaces : Gate Doing.Sending Doing.SendSuspended frees.length suspend_sender_thread
      (Function.update mq.doing thread new)) :
    ({ mq with
      suspend_thread := suspend_thread
      suspend_sender_thread := suspend_sender_thread }.setDoing thread new).Holds limit messages
      cells frees where
  pool := h.setDoing_pool thread new hcell
  entry_eq := h.entry_eq
  bounds := h.bounds
  contents := h.contents
  data_length := h.data_length
  sound := sound_update h.sound hnew (fun _ _ => rfl) fun _ _ _ _ => ⟨rfl, rfl⟩
  mails := hmails
  places := hplaces

/-- A thread takes the first free cell. -/
theorem Holds.acquire {msg : Nat} (h : mq.Holds limit messages cells frees) (thread : Thread)
    (new : Doing)
    (hfree : mq.msg_queue_free = some msg) (hcell : (mq.doing thread).cell = none)
    (hawake : ¬ (mq.doing thread).SendSuspended) (hawake' : ¬ (mq.doing thread).RecvSuspended)
    (hrecv : ¬ (mq.doing thread).Receiving) (hnewcell : new.cell = some msg)
    (hsound : new.Sound mq.next mq.data mq.msg_size (messages.taken thread))
    (hnew : ¬ new.SendSuspended) (hnew' : ¬ new.RecvSuspended) :
    ∃ rest, ({ mq with msg_queue_free := mq.next msg }.setDoing thread new).Holds limit messages
      cells rest := by
  have hpool := h.pool
  rw [hfree] at hpool
  rcases hpool.acquire thread hcell with ⟨rest, rfl, hacquired⟩
  refine ⟨rest, ?_, h.entry_eq, h.bounds, h.contents, h.data_length,
    sound_update h.sound hsound (fun _ _ => rfl) fun _ _ _ _ => ⟨rfl, rfl⟩,
    h.mails.enter hawake' hnew' fun hready => absurd hready hrecv, h.places.take hawake hnew⟩
  rw [MessageQueue.setDoing, Function.comp_update, hnewcell]
  exact hacquired

/-- A thread that looks for a cell keeps the invariant. -/
theorem Holds.send {buffer : List UInt8} {timeout : Int} {woken : Bool}
    (h : mq.Holds limit messages cells frees)
    (hdoing : mq.doing thread = .sending buffer timeout woken) (left : Int) :
    Keeps (some (mq.mqSend thread buffer left)) limit messages := by
  have hsound := h.sound thread
  rw [hdoing] at hsound
  rw [mqSend]
  split
  · next hfree =>
      have hempty : frees = [] := Chain.eq_nil (hfree ▸ h.pool.free_chain)
      have hplaces : Gate Doing.Sending Doing.SendSuspended 0 mq.suspend_sender_thread
          mq.doing := by
        have := h.places
        rwa [hempty] at this
      have hmem := hplaces.mem_iff_update thread .out
        (by rw [hdoing]; exact id) id
      split
      · refine ⟨_, _, messages, cells, frees, rfl, rfl, h.setDoing ?_ ?_ ?_ ?_⟩
        · rw [hdoing]
          rfl
        · trivial
        · exact h.mails.enter (by rw [hdoing]; exact id) id (by rw [hdoing]; exact False.elim)
        · rw [hempty]
          exact .zero hplaces.nodup hmem
      · refine ⟨_, _, messages, cells, frees, rfl, rfl, h.setDoing ?_ ?_ ?_ ?_⟩
        · rw [hdoing]
          rfl
        · exact hsound
        · exact h.mails.enter (by rw [hdoing]; exact id) id (by rw [hdoing]; exact False.elim)
        · rw [hempty]
          exact hplaces.sleep (ipcListSuspend_perm _ _ _ _) (by rw [hdoing]; exact id) trivial
  · next msg hfree =>
      rcases h.acquire thread (.filling false msg buffer) hfree
        (by rw [hdoing]; rfl) (by rw [hdoing]; exact id) (by rw [hdoing]; exact id)
        (by rw [hdoing]; exact id) rfl hsound id id with ⟨rest, hrest⟩
      exact ⟨_, _, messages, cells, rest, rfl, rfl, hrest⟩

/-- An urgent message that is no longer than a cell keeps the invariant. -/
theorem Holds.urgent {buffer : List UInt8} (h : mq.Holds limit messages cells frees)
    (hdoing : mq.doing thread = .out) (hlength : buffer.length ≤ mq.msg_size) :
    Keeps (some (mq.mqUrgent thread buffer)) limit messages := by
  rw [mqUrgent]
  split
  · exact ⟨_, _, messages, cells, frees, rfl, rfl, h⟩
  · next msg hfree =>
      rcases h.acquire thread (.filling true msg buffer) hfree
        (by rw [hdoing]; rfl) (by rw [hdoing]; exact id) (by rw [hdoing]; exact id)
        (by rw [hdoing]; exact id) rfl hlength id id with ⟨rest, hrest⟩
      exact ⟨_, _, messages, cells, rest, rfl, rfl, hrest⟩

omit [DecidableEq Thread] in
/-- The cells of the other threads and of the queue are not the one that a thread has. -/
theorem Holds.cell_ne {msg : Nat} (h : mq.Holds limit messages cells frees)
    (hcell : (mq.doing thread).cell = some msg) {other : Thread} {cell : Nat}
    (hother : other ≠ thread) (hheld : (mq.doing other).cell = some cell) : cell ≠ msg := by
  rintro rfl
  exact hother (h.pool.share.held_inj other thread cell hheld hcell)

omit [DecidableEq Thread] in
/-- A cell that a thread has is not in the queue. -/
theorem Holds.cell_not_mem {msg : Nat} (h : mq.Holds limit messages cells frees)
    (hcell : (mq.doing thread).cell = some msg) : msg ∉ cells := fun hmem =>
  h.pool.share.not_mem hcell (List.mem_append_left _ hmem)

/-- Copying into a cell keeps the invariant. -/
theorem Holds.fill {urgent : Bool} {msg : Nat} {buffer : List UInt8}
    (h : mq.Holds limit messages cells frees)
    (hdoing : mq.doing thread = .filling urgent msg buffer) :
    (mq.fill thread urgent msg buffer).Holds limit messages cells frees := by
  have hcell : (mq.doing thread).cell = some msg := by rw [hdoing]; rfl
  have hsound := h.sound thread
  rw [hdoing] at hsound
  have hmsg : msg < mq.max_msgs := List.mem_range.mp (h.pool.share.held_mem thread msg hcell)
  have hlength := h.data_length msg hmsg
  have hpool := h.setDoing_pool thread (.linking urgent msg buffer)
    (by rw [hcell]; rfl)
  have hheld : (Doing.cell ∘ Function.update mq.doing thread (.linking urgent msg buffer)) thread =
      some msg := by
    rw [Function.comp_apply, Function.update_self]
    rfl
  refine ⟨?_, h.entry_eq, h.bounds, ?_, ?_, sound_update h.sound ?_ (fun _ _ => rfl) ?_, ?_, ?_⟩
  · cases urgent with
    | true => exact hpool
    | false => exact hpool.touch hheld none
  · have hnot := h.cell_not_mem hcell
    refine contents_congr h.contents fun cell hmem => ?_
    have hne : cell ≠ msg := by
      rintro rfl
      exact hnot hmem
    exact Function.update_of_ne hne ..
  · intro cell hmem
    change cell < mq.max_msgs at hmem
    by_cases heq : cell = msg
    · subst heq
      simp only [MessageQueue.fill, MessageQueue.setDoing, Function.update_self]
      rw [Cyclic.length_overwrite, hlength]
      rw [hlength, Nat.zero_add]
      exact hsound
    · simp only [MessageQueue.fill, MessageQueue.setDoing, Function.update_of_ne heq]
      exact h.data_length cell hmem
  · refine ⟨?_, ?_⟩
    · change buffer <+: Function.update mq.data msg _ msg
      rw [Function.update_self]
      exact List.prefix_append _ _
    · rintro rfl
      exact Function.update_self ..
  · intro other cell hother hheld'
    have hne := h.cell_ne hcell hother hheld'
    refine ⟨?_, Function.update_of_ne hne ..⟩
    cases urgent with
    | true => rfl
    | false => exact Function.update_of_ne hne ..
  · exact h.mails.enter (by rw [hdoing]; exact id) id (by rw [hdoing]; exact False.elim)
  · exact h.places.enter (by rw [hdoing]; exact id) id (by rw [hdoing]; exact False.elim)

/-- The last part of sending, when the cell is linked but not counted. -/
theorem count_keeps (messages' : Messages Thread) (cells frees : List Nat) {done : Entry Thread}
    (hpool : Pool mq.next mq.msg_queue_head mq.msg_queue_tail mq.msg_queue_free
      (Doing.cell ∘ mq.doing) (List.range mq.max_msgs) cells frees)
    (hlength : cells.length = mq.entry + 1) (hbounds : mq.max_msgs = limit ∧ limit ≤ rtMqEntryMax)
    (hcontents : List.Forall₂ (fun cell message => message <+: mq.data cell) cells messages'.queue)
    (hdata : ∀ cell < mq.max_msgs, (mq.data cell).length = mq.msg_size)
    (hsound : ∀ other,
      (mq.doing other).Sound mq.next mq.data mq.msg_size (messages'.taken other))
    (hmails : Gate Doing.Receiving Doing.RecvSuspended mq.entry mq.suspend_thread mq.doing)
    (hplaces : Gate Doing.Sending Doing.SendSuspended frees.length mq.suspend_sender_thread
      mq.doing)
    (hdone : done.apply messages = some messages') :
    Keeps (some (mq.count thread done)) limit messages := by
  have hentry : mq.entry < rtMqEntryMax := by
    have := hpool.length_queue_le
    rw [List.length_range] at this
    omega
  rw [count, if_pos hentry]
  rcases resumeReceiver_spec { mq with entry := mq.entry + 1 } hmails hplaces with
    ⟨suspend_thread, doing, heq, hmails', hplaces', hresumes⟩
  have hcells : Doing.cell ∘ doing = Doing.cell ∘ mq.doing :=
    funext fun other => (hresumes other).1
  rw [heq]
  refine ⟨_, _, messages', cells, frees, rfl, ?_, ?_, hlength.symm, hbounds, hcontents, hdata, ?_,
    hmails', hplaces'⟩
  · rw [replay, hdone]
    rfl
  · rw [hcells]
    exact hpool
  · exact fun other => (hresumes other).2 _ _ _ _ (hsound other)

/-- Linking a cell behind the others sends its message. -/
theorem Holds.linkLast {msg : Nat} {buffer : List UInt8} (h : mq.Holds limit messages cells frees)
    (hdoing : mq.doing thread = .linking false msg buffer) :
    Keeps (some (mq.linkLast thread msg buffer)) limit messages := by
  have hcell : (mq.doing thread).cell = some msg := by rw [hdoing]; rfl
  have hsound := h.sound thread
  rw [hdoing] at hsound
  have hpool := h.pool.append thread hcell (hsound.2 rfl)
  rw [MessageQueue.linkLast]
  refine count_keeps { messages with queue := messages.queue ++ [buffer] } (cells ++ [msg]) frees
    ?_ ?_ h.bounds ?_ h.data_length ?_ ?_ ?_ rfl
  · rw [MessageQueue.setDoing, Function.comp_update]
    exact hpool
  · rw [List.length_append, ← h.entry_eq]
    rfl
  · exact List.rel_append h.contents (.cons hsound.1 .nil)
  · refine sound_update h.sound trivial (fun _ _ => rfl) fun other cell _ hheld => ⟨?_, rfl⟩
    have hnot := h.cell_not_mem hheld
    change (mq.msg_queue_tail.elim _ _ : Nat → Option Nat) cell = _
    cases htail : mq.msg_queue_tail with
    | none => rfl
    | some tail =>
        have hlast : tail ∈ cells := List.mem_of_getLast? (h.pool.tail_eq ▸ htail)
        have hne : cell ≠ tail := by
          rintro rfl
          exact hnot hlast
        exact Function.update_of_ne hne ..
  · exact h.mails.enter (by rw [hdoing]; exact id) id (by rw [hdoing]; exact False.elim)
  · exact h.places.enter (by rw [hdoing]; exact id) id (by rw [hdoing]; exact False.elim)

/-- Linking a cell in front of the others sends its message urgently. -/
theorem Holds.linkFirst {msg : Nat} {buffer : List UInt8} (h : mq.Holds limit messages cells frees)
    (hdoing : mq.doing thread = .linking true msg buffer) :
    Keeps (some (mq.linkFirst thread msg buffer)) limit messages := by
  have hcell : (mq.doing thread).cell = some msg := by rw [hdoing]; rfl
  have hsound := h.sound thread
  rw [hdoing] at hsound
  have hpool := h.pool.push thread hcell
  rw [MessageQueue.linkFirst]
  refine count_keeps { messages with queue := buffer :: messages.queue } (msg :: cells) frees
    ?_ ?_ h.bounds ?_ h.data_length ?_ ?_ ?_ rfl
  · rw [MessageQueue.setDoing, Function.comp_update]
    exact hpool
  · rw [List.length_cons, ← h.entry_eq]
    rfl
  · exact .cons hsound.1 h.contents
  · refine sound_update h.sound trivial (fun _ _ => rfl) fun other cell hother hheld => ⟨?_, rfl⟩
    exact Function.update_of_ne (h.cell_ne hcell hother hheld) ..
  · exact h.mails.enter (by rw [hdoing]; exact id) id (by rw [hdoing]; exact False.elim)
  · exact h.places.enter (by rw [hdoing]; exact id) id (by rw [hdoing]; exact False.elim)

/-- A thread that looks for a message keeps the invariant. -/
theorem Holds.recv {size : Nat} {timeout : Int} {woken : Bool}
    (h : mq.Holds limit messages cells frees)
    (hdoing : mq.doing thread = .receiving size timeout woken) (left : Int) :
    Keeps (mq.mqRecv thread size left) limit messages := by
  rw [mqRecv]
  by_cases hempty : mq.entry = 0
  · have hmails : Gate Doing.Receiving Doing.RecvSuspended 0 mq.suspend_thread mq.doing := by
      have := h.mails
      rwa [hempty] at this
    have hmem := hmails.mem_iff_update thread .out
      (by rw [hdoing]; exact id) id
    rw [if_pos hempty]
    split
    · refine ⟨_, _, messages, cells, frees, rfl, rfl, h.setDoing ?_ ?_ ?_ ?_⟩
      · rw [hdoing]
        rfl
      · trivial
      · rw [hempty]
        exact .zero hmails.nodup hmem
      · exact h.places.enter (by rw [hdoing]; exact id) id (by rw [hdoing]; exact False.elim)
    · refine ⟨_, _, messages, cells, frees, rfl, rfl, h.setDoing ?_ ?_ ?_ ?_⟩
      · rw [hdoing]
        rfl
      · trivial
      · rw [hempty]
        exact hmails.sleep (ipcListSuspend_perm _ _ _ _) (by rw [hdoing]; exact id) trivial
      · exact h.places.enter (by rw [hdoing]; exact id) id (by rw [hdoing]; exact False.elim)
  · have hpool := h.pool
    have hcontents := h.contents
    have hlength := h.entry_eq
    rw [if_neg hempty]
    cases hhead : mq.msg_queue_head with
    | none =>
        rw [hhead] at hpool
        rw [hpool.queue_chain.eq_nil] at hlength
        exact absurd hlength hempty
    | some msg =>
        rw [hhead] at hpool
        rcases hpool.unlink thread (by rw [Function.comp_apply, hdoing]; rfl) with
          ⟨rest, rfl, hunlinked⟩
        obtain ⟨first, queue, hfirst, hrest, hqueue⟩ := List.forall₂_cons_left_iff.mp hcontents
        have hmails : Gate Doing.Receiving Doing.RecvSuspended (mq.entry - 1) mq.suspend_thread
            (Function.update mq.doing thread (.copying msg size)) := by
          have hmails := h.mails
          rw [show mq.entry = mq.entry - 1 + 1 by omega] at hmails
          exact hmails.take (by rw [hdoing]; exact id) id
        refine ⟨_, _, ⟨queue, Function.update messages.taken thread (some first)⟩, rest, frees,
          rfl, ?_, ?_, ?_, h.bounds, hrest, h.data_length, ?_, hmails, ?_⟩
        · rw [replay, Entry.apply, hqueue]
          rfl
        · rw [MessageQueue.setDoing, Function.comp_update]
          exact hunlinked
        · rw [List.length_cons] at hlength
          exact (by omega : mq.entry - 1 = rest.length)
        · refine sound_update h.sound ?_ (fun other hother => Function.update_of_ne hother ..)
            fun _ _ _ _ => ⟨rfl, rfl⟩
          exact ⟨first, Function.update_self .., hfirst⟩
        · exact h.places.enter (by rw [hdoing]; exact id) id (by rw [hdoing]; exact False.elim)

/-- Copying out of a cell keeps the invariant. -/
theorem Holds.copy {msg size : Nat} (h : mq.Holds limit messages cells frees)
    (hdoing : mq.doing thread = .copying msg size) :
    (mq.copy thread msg size).Holds limit messages cells frees := by
  have hcell : (mq.doing thread).cell = some msg := by rw [hdoing]; rfl
  have hmsg : msg < mq.max_msgs := List.mem_range.mp (h.pool.share.held_mem thread msg hcell)
  have hsound := h.sound thread
  rw [hdoing] at hsound
  rcases hsound with ⟨message, htaken, hprefix⟩
  have hlength := h.data_length msg hmsg
  have hbound := hprefix.length_le
  refine h.setDoing ?_ ?_ ?_ ?_
  · rw [hcell]
    rfl
  · refine ⟨message, htaken, List.prefix_take_iff.mpr
      ⟨(List.take_prefix size message).trans hprefix, ?_⟩⟩
    rw [List.length_take]
    split <;> omega
  · exact h.mails.enter (by rw [hdoing]; exact id) id (by rw [hdoing]; exact False.elim)
  · exact h.places.enter (by rw [hdoing]; exact id) id (by rw [hdoing]; exact False.elim)

/-- Giving a cell back ends the receipt of its message. -/
theorem Holds.giveBack {msg size : Nat} {buffer : List UInt8}
    (h : mq.Holds limit messages cells frees)
    (hdoing : mq.doing thread = .freeing msg size buffer) :
    Keeps (some ([.received thread size buffer], mq.giveBack thread msg)) limit messages := by
  have hcell : (mq.doing thread).cell = some msg := by rw [hdoing]; rfl
  have hsound := h.sound thread
  rw [hdoing] at hsound
  rcases hsound with ⟨message, htaken, hprefix⟩
  have hpool := h.pool.release thread hcell
  have hmails : Gate Doing.Receiving Doing.RecvSuspended mq.entry mq.suspend_thread
      (Function.update mq.doing thread .out) :=
    h.mails.enter (by rw [hdoing]; exact id) id (by rw [hdoing]; exact False.elim)
  have hplaces : Gate Doing.Sending Doing.SendSuspended frees.length mq.suspend_sender_thread
      (Function.update mq.doing thread .out) :=
    h.places.enter (by rw [hdoing]; exact id) id (by rw [hdoing]; exact False.elim)
  rcases resumeSender_spec { mq with
      next := Function.update mq.next msg mq.msg_queue_free
      msg_queue_free := some msg
      doing := Function.update mq.doing thread .out } hmails hplaces with
    ⟨suspend_sender_thread, doing, heq, hmails', hplaces', hresumes⟩
  have hcells : Doing.cell ∘ doing = Doing.cell ∘ Function.update mq.doing thread .out :=
    funext fun other => (hresumes other).1
  refine ⟨[.received thread size buffer], _,
    { messages with taken := Function.update messages.taken thread none }, cells, msg :: frees,
    congrArg (fun mq => some ([Entry.received thread size buffer], mq)) heq, ?_, ?_, h.entry_eq,
    h.bounds, h.contents, h.data_length, fun other => (hresumes other).2 _ _ _ _ ?_, hmails',
    hplaces'⟩
  · rw [replay, Entry.apply, htaken]
    simp only [if_pos hprefix]
    rfl
  · rw [hcells, Function.comp_update]
    exact hpool
  · refine sound_update h.sound ?_ (fun other hother => Function.update_of_ne hother ..)
      (fun other cell hother hheld => ⟨?_, rfl⟩) other
    · trivial
    · exact Function.update_of_ne (h.cell_ne hcell hother hheld) ..

omit [DecidableEq Thread] in
/-- An empty queue has nothing to release. -/
theorem releaseAll_of_none (h : mq.msg_queue_head = none) (rounds : Nat) :
    releaseAll rounds mq = some mq := by
  cases rounds with
  | zero => exact if_pos h
  | succ rounds => rw [releaseAll, h]

omit [DecidableEq Thread] in
/-- Writing back the ends of the queue changes nothing. -/
theorem eq_of_queue {head tail : Option Nat} (hhead : mq.msg_queue_head = head)
    (htail : mq.msg_queue_tail = tail) :
    mq = { mq with msg_queue_head := head, msg_queue_tail := tail } := by
  subst hhead htail
  rfl

omit [DecidableEq Thread] in
/-- The loop that releases all messages ends, and the cells of the queue are free then. -/
theorem releaseAll_spec (mq : MessageQueue Thread) (taken : Thread → Option (List UInt8))
    {rounds : Nat} {cells frees : List Nat}
    (hpool : Pool mq.next mq.msg_queue_head mq.msg_queue_tail mq.msg_queue_free
      (Doing.cell ∘ mq.doing) (List.range mq.max_msgs) cells frees)
    (hsound : ∀ other, (mq.doing other).Sound mq.next mq.data mq.msg_size (taken other))
    (hrounds : cells.length ≤ rounds) :
    ∃ next free frees', releaseAll rounds mq =
        some { mq with
          next := next
          msg_queue_head := none
          msg_queue_tail := none
          msg_queue_free := free } ∧
      Pool next none none free (Doing.cell ∘ mq.doing) (List.range mq.max_msgs) [] frees' ∧
      ∀ other, (mq.doing other).Sound next mq.data mq.msg_size (taken other) := by
  induction cells generalizing mq frees rounds with
  | nil =>
      have hhead : mq.msg_queue_head = none := hpool.queue_chain
      have htail : mq.msg_queue_tail = none := hpool.tail_eq
      refine ⟨mq.next, mq.msg_queue_free, frees, ?_, ?_, hsound⟩
      · rw [releaseAll_of_none hhead]
        exact congrArg some (eq_of_queue hhead htail)
      · rw [hhead, htail] at hpool
        exact hpool
  | cons msg rest ih =>
      obtain ⟨rounds, rfl⟩ := Nat.exists_eq_add_of_le' (Nat.lt_of_lt_of_le (Nat.succ_pos _) hrounds)
      have hhead : mq.msg_queue_head = some msg := hpool.queue_chain.1
      have hdiscard := hpool
      rw [hhead] at hdiscard
      obtain ⟨_, hcons, hdiscard⟩ := hdiscard.discard
      cases hcons
      rw [releaseAll, hhead]
      refine @ih { mq with
        msg_queue_head := mq.next msg
        msg_queue_tail := if mq.msg_queue_tail = some msg then none else mq.msg_queue_tail
        next := Function.update mq.next msg mq.msg_queue_free
        msg_queue_free := some msg } rounds (msg :: frees) hdiscard
        (fun other => (hsound other).congr ?_ ?_) (Nat.le_of_succ_le_succ hrounds)
      · intro cell hheld
        have hheld : (Doing.cell ∘ mq.doing) other = some cell := hheld
        have hne : cell ≠ msg := by
          rintro rfl
          exact hpool.share.not_mem hheld (by simp)
        exact Function.update_of_ne hne ..
      · exact fun _ _ => rfl

/-- A reset keeps the invariant. -/
theorem Holds.reset (h : mq.Holds limit messages cells frees) :
    Keeps mq.mqReset limit messages := by
  -- the threads that are resumed have no cell
  have hresumes : ∀ thread, (mq.doing thread).Resumes
      (ipcListResumeAll .out (mq.suspend_thread ++ mq.suspend_sender_thread) mq.doing thread) := by
    intro thread
    rw [ipcListResumeAll]
    split
    · next hmem =>
        rcases List.mem_append.mp hmem with hmem | hmem
        · rcases ((h.mails.mem_iff thread).mp hmem).exists_eq with ⟨size, timeout, hold⟩
          rw [hold]
          exact ⟨rfl, fun _ _ _ _ => id⟩
        · rcases ((h.places.mem_iff thread).mp hmem).exists_eq with ⟨buffer, timeout, hold⟩
          rw [hold]
          exact ⟨rfl, fun _ _ _ _ _ => trivial⟩
    · exact ⟨rfl, fun _ _ _ _ => id⟩
  have hcells : Doing.cell ∘ ipcListResumeAll .out (mq.suspend_thread ++ mq.suspend_sender_thread)
      mq.doing = Doing.cell ∘ mq.doing :=
    funext fun thread => (hresumes thread).1
  have hlength := h.pool.length_queue_le
  rw [List.length_range] at hlength
  rcases releaseAll_spec { mq with
      suspend_thread := []
      suspend_sender_thread := []
      doing := ipcListResumeAll .out (mq.suspend_thread ++ mq.suspend_sender_thread) mq.doing }
    messages.taken (by rw [hcells]; exact h.pool)
    (fun other => (hresumes other).2 _ _ _ _ (h.sound other)) hlength with
    ⟨next, free, frees', hreleased, hpool, hsound⟩
  refine ⟨_, _, { messages with queue := [] }, [], frees',
    (congrArg (Option.map _) hreleased).trans rfl, ?_, hpool, rfl, h.bounds, .nil, h.data_length,
    hsound, ?_, ?_⟩
  · rw [replay_append, replay_failed]
    rfl
  · exact h.mails.wakeAll (fun _ => List.mem_append_left _) id 0
  · exact h.places.wakeAll (fun _ => List.mem_append_right _) id _

/-- Each step keeps the invariant. -/
theorem Holds.step (h : mq.Holds limit messages cells frees) (event : Event Thread) :
    Keeps (mq.step event) limit messages := by
  have hsame : Keeps (some ([], mq)) limit messages := ⟨_, _, messages, cells, frees, rfl, rfl, h⟩
  cases event with
  | callSend thread buffer timeout =>
      rw [MessageQueue.step]
      split
      · next hout =>
          split
          · exact ⟨_, _, messages, cells, frees, rfl, rfl, h⟩
          · next hsize =>
              refine ⟨_, _, messages, cells, frees, rfl, rfl, h.setDoing ?_ ?_ ?_ ?_⟩
              · rw [hout]
                rfl
              · exact Nat.le_of_not_lt hsize
              · exact h.mails.enter (by rw [hout]; exact id) id (by rw [hout]; exact False.elim)
              · exact h.places.enter (by rw [hout]; exact id) id (by rw [hout]; exact False.elim)
      · exact hsame
  | callUrgent thread buffer =>
      rw [MessageQueue.step]
      split
      · next hout =>
          split
          · exact ⟨_, _, messages, cells, frees, rfl, rfl, h⟩
          · next hsize => exact h.urgent hout (Nat.le_of_not_lt hsize)
      · exact hsame
  | callRecv thread size timeout =>
      rw [MessageQueue.step]
      split
      · next hout =>
          refine ⟨_, _, messages, cells, frees, rfl, rfl, h.setDoing ?_ ?_ ?_ ?_⟩
          · rw [hout]
            rfl
          · trivial
          · exact h.mails.enter (by rw [hout]; exact id) id (by rw [hout]; exact False.elim)
          · exact h.places.enter (by rw [hout]; exact id) id (by rw [hout]; exact False.elim)
      · exact hsame
  | go thread elapsed =>
      rw [MessageQueue.step]
      split
      · next hdoing => exact h.send hdoing _
      · next hdoing => exact ⟨_, _, messages, cells, frees, rfl, rfl, h.fill hdoing⟩
      · next hdoing => exact h.linkLast hdoing
      · next hdoing => exact h.linkFirst hdoing
      · next hdoing => exact h.recv hdoing _
      · next hdoing => exact ⟨_, _, messages, cells, frees, rfl, rfl, h.copy hdoing⟩
      · next hdoing => exact h.giveBack hdoing
      · exact hsame
  | expire thread =>
      rw [MessageQueue.step]
      split
      · next hdoing =>
          split
          · refine ⟨_, _, messages, cells, frees, rfl, rfl, h.setDoing ?_ ?_ ?_ ?_⟩
            · rw [hdoing]
              rfl
            · trivial
            · exact h.mails.enter (by rw [hdoing]; exact id) id (by rw [hdoing]; exact id)
            · exact h.places.expire (by rw [hdoing]; exact id) id
          · exact hsame
      · next hdoing =>
          split
          · refine ⟨_, _, messages, cells, frees, rfl, rfl, h.setDoing ?_ ?_ ?_ ?_⟩
            · rw [hdoing]
              rfl
            · trivial
            · exact h.mails.expire (by rw [hdoing]; exact id) id
            · exact h.places.enter (by rw [hdoing]; exact id) id (by rw [hdoing]; exact id)
          · exact hsame
      · exact hsame
  | reset => exact h.reset
  | changePriority thread priority =>
      exact ⟨_, _, messages, cells, frees, rfl, rfl,
        ⟨h.pool, h.entry_eq, h.bounds, h.contents, h.data_length, h.sound, h.mails, h.places⟩⟩

/-! ## All steps -/

/-- The steps in any order keep the invariant. -/
theorem Holds.run (h : mq.Holds limit messages cells frees) (events : List (Event Thread)) :
    Keeps (mq.run events) limit messages := by
  induction events generalizing mq messages cells frees with
  | nil => exact ⟨[], mq, messages, cells, frees, rfl, rfl, h⟩
  | cons event events ih =>
      rcases h.step event with ⟨log, mq', messages', cells', frees', hstep, hreplay, hholds⟩
      rcases ih hholds with ⟨log', mq'', messages'', cells'', frees'', hrun, hreplay', hholds'⟩
      refine ⟨log ++ log', mq'', messages'', cells'', frees'', ?_, ?_, hholds'⟩
      · rw [MessageQueue.run, hstep]
        simp only
        rw [hrun, Option.map_some]
      · rw [replay_append, hreplay, Option.bind_some, hreplay']

omit [DecidableEq Thread] in
/-- The loop of the initialisation links all cells. -/
theorem freeCells_chain (count : Nat) :
    Chain (freeCells count).1 (freeCells count).2 (List.range count).reverse := by
  induction count with
  | zero => rfl
  | succ temp ih =>
      rw [List.range_succ, List.reverse_append]
      exact ih.push (by simp)

/-- How many messages a queue on a pool has room for. -/
def room (msg_pool : List UInt8) (msg_size : Nat) : Nat :=
  msg_pool.length / (rtAlign msg_size % 2 ^ 16 + sizeofRtMqMessage) % 2 ^ 16

omit [DecidableEq Thread] in
/-- A fresh queue has all of its cells in the free list. -/
theorem init_holds (msg_pool : List UInt8) (msg_size : Nat) (flag : IpcFlag)
    (current_priority : Thread → Nat) :
    (init msg_pool msg_size flag current_priority).Holds (room msg_pool msg_size)
      ⟨[], fun _ => none⟩ [] (List.range (room msg_pool msg_size)).reverse where
  pool := by
    refine ⟨rfl, rfl, freeCells_chain _, ?_⟩
    rw [List.nil_append]
    refine ⟨List.nodup_reverse.mpr List.nodup_range, fun cell hmem => List.mem_reverse.mp hmem,
      fun cell hmem => ⟨?_, fun hnot => absurd (List.mem_reverse.mpr hmem) hnot⟩, ?_, ?_⟩
    · rintro ⟨client, hheld⟩
      cases hheld
    · intro client cell hheld
      cases hheld
    · intro client client' cell hheld
      cases hheld
  entry_eq := rfl
  bounds := ⟨rfl, Nat.le_of_lt_succ (Nat.mod_lt _ (by decide))⟩
  contents := .nil
  data_length cell hcell := by
    have hquotient : cell + 1 ≤ msg_pool.length / (rtAlign msg_size % 2 ^ 16 + sizeofRtMqMessage) :=
      Nat.le_trans hcell (Nat.mod_le _ _)
    have hbound := Nat.mul_le_of_le_div _ _ _ hquotient
    rw [Nat.succ_mul] at hbound
    simp only [init, List.length_take, List.length_drop]
    omega
  sound _ := trivial
  mails := .zero .nil fun _ => ⟨fun hmem => absurd hmem List.not_mem_nil, False.elim⟩
  places := ⟨.nil, fun _ => ⟨fun hmem => absurd hmem List.not_mem_nil, False.elim⟩,
    fun hne => absurd rfl hne⟩

-- a pool of two cells: the urgent message passes the other one, which is filled first
example : ((init (List.replicate 16 0) 3 .prio fun thread => thread).run [.callSend 1 [1, 2] 0,
    .go 1 0, .go 1 0, .callUrgent 2 [3], .callSend 3 [4] 5, .go 3 0, .go 2 0, .go 1 0, .go 2 0,
    .callRecv 4 9 0, .callRecv 5 1 0, .go 5 0, .go 4 0, .go 4 0, .go 4 0, .go 5 0, .go 5 0]).map
      (fun result => result.1) =
    some [.sent 1 [1, 2], .urgent 2 [3], .taken 5, .taken 4, .received 4 9 [1, 2, 0, 0],
      .received 5 1 [3]] := by
  decide

/-- In every order of the steps each cell of the pool is linked once in the queue, or once in
the free list, or one thread has it.  So none is missing when no thread is about to copy or to
link. -/
theorem run_keeps_cells (msg_pool : List UInt8) (msg_size : Nat) (flag : IpcFlag)
    (current_priority : Thread → Nat) (events : List (Event Thread)) :
    ∃ log mq cells frees,
      (init msg_pool msg_size flag current_priority).run events = some (log, mq) ∧
      Pool mq.next mq.msg_queue_head mq.msg_queue_tail mq.msg_queue_free (Doing.cell ∘ mq.doing)
        (List.range (room msg_pool msg_size)) cells frees ∧
      mq.entry = cells.length ∧
      ((∀ thread, (mq.doing thread).cell = none) →
        mq.entry + frees.length = room msg_pool msg_size) := by
  rcases (init_holds msg_pool msg_size flag current_priority).run events with
    ⟨log, mq, messages, cells, frees, hrun, -, hholds⟩
  have hpool := hholds.pool
  rw [hholds.bounds.1] at hpool
  refine ⟨log, mq, cells, frees, hrun, hpool, hholds.entry_eq, fun hnone => ?_⟩
  rw [hholds.entry_eq, hpool.length_add_length List.nodup_range hnone, List.length_range]

/-- As long as a thread sleeps for a message, each message that waits has a thread that is about
to look for it, and as long as one sleeps for a free cell, so has each free cell.  So the two
never sleep while nobody is about to look and nobody has a cell. -/
theorem run_wakes_message (msg_pool : List UInt8) (msg_size : Nat) (flag : IpcFlag)
    (current_priority : Thread → Nat) (events : List (Event Thread)) :
    ∃ log mq frees,
      (init msg_pool msg_size flag current_priority).run events = some (log, mq) ∧
      Chain mq.next mq.msg_queue_free frees ∧
      (∀ thread, (mq.doing thread).RecvSuspended →
        AtLeast mq.entry fun other => (mq.doing other).Receiving) ∧
      (∀ thread, (mq.doing thread).SendSuspended →
        AtLeast frees.length fun other => (mq.doing other).Sending) ∧
      (0 < room msg_pool msg_size → ∀ thread thread', (mq.doing thread).RecvSuspended →
        (mq.doing thread').SendSuspended →
          ∃ other, (mq.doing other).Receiving ∨ (mq.doing other).Sending ∨
            (mq.doing other).cell ≠ none) := by
  rcases (init_holds msg_pool msg_size flag current_priority).run events with
    ⟨log, mq, messages, cells, frees, hrun, -, hholds⟩
  have hmails : ∀ thread, (mq.doing thread).RecvSuspended →
      AtLeast mq.entry fun other => (mq.doing other).Receiving := fun thread hasleep =>
    hholds.mails.served (List.ne_nil_of_mem ((hholds.mails.mem_iff thread).mpr hasleep))
  have hplaces : ∀ thread, (mq.doing thread).SendSuspended →
      AtLeast frees.length fun other => (mq.doing other).Sending := fun thread hasleep =>
    hholds.places.served (List.ne_nil_of_mem ((hholds.places.mem_iff thread).mpr hasleep))
  refine ⟨log, mq, frees, hrun, hholds.pool.free_chain, hmails, hplaces,
    fun hroom thread thread' hrecv hsend => ?_⟩
  by_contra hidle
  -- with nobody about to look and no cell taken, the pool would have no cell
  have hentry : mq.entry = 0 := by
    by_contra hentry
    rcases (hmails thread hrecv).exists_of_pos (Nat.pos_of_ne_zero hentry) with ⟨other, hother⟩
    exact hidle ⟨other, .inl hother⟩
  have hfrees : frees.length = 0 := by
    by_contra hfrees
    rcases (hplaces thread' hsend).exists_of_pos (Nat.pos_of_ne_zero hfrees) with ⟨other, hother⟩
    exact hidle ⟨other, .inr (.inl hother)⟩
  have hnone : ∀ other, (mq.doing other).cell = none := fun other => by
    by_contra hcell
    exact hidle ⟨other, .inr (.inr hcell)⟩
  have hlength := hholds.pool.length_add_length List.nodup_range hnone
  rw [List.length_range, hholds.bounds.1, ← hholds.entry_eq] at hlength
  omega

end Invariant

end MessageQueue
end RtThread
end TestAio
