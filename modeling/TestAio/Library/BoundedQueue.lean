import Mathlib.Data.List.Basic

/-!
# Bounded queues

A first-in-first-out queue with a capacity.  A request to put appends what still has room; a
forced one appends everything and drops the oldest elements instead.  A request to peak hands
out some part of the front, which part is up to the implementation.

Main results:

- Theorem {lit}`Run.length_le`: the capacity is kept.
- Theorem {lit}`Run.delivered_sublist`: what is delivered and kept is a subsequence of what
  was offered, in order.
- Theorem {lit}`Run.accepted_eq`: without forced requests and resets nothing that was
  accepted is lost.

Current gaps:

- None.
-/

namespace TestAio
namespace Library
namespace BoundedQueue

variable {α : Type}

/-- What a client can ask of a queue. -/
inductive Request (α : Type)
  | put (new : List α)
  | putForce (new : List α)
  | get (count : Nat)
  | peak
  | length
  | reset
deriving DecidableEq

/-- How many elements were moved, and the elements that were handed out. -/
structure Reply (α : Type) where
  count : Nat
  delivered : List α
deriving DecidableEq

/-- The elements that a forced request keeps: the newest ones. -/
def newest (capacity : Nat) (queue : List α) : List α :=
  queue.drop (queue.length - capacity)

/-- What a queue of a given capacity may do. -/
inductive Step (capacity : Nat) : List α → Request α → Reply α → List α → Prop
  | put (queue new : List α) :
      Step capacity queue (.put new) ⟨min new.length (capacity - queue.length), []⟩
        (queue ++ new.take (capacity - queue.length))
  | putForce (queue new : List α) :
      Step capacity queue (.putForce new) ⟨min new.length capacity, []⟩
        (newest capacity (queue ++ new))
  | get (queue : List α) (count : Nat) :
      Step capacity queue (.get count) ⟨min count queue.length, queue.take count⟩
        (queue.drop count)
  | peak (front back : List α) (hfront : front = [] → back = []) :
      Step capacity (front ++ back) .peak ⟨front.length, front⟩ back
  | length (queue : List α) : Step capacity queue .length ⟨queue.length, []⟩ queue
  | reset (queue : List α) : Step capacity queue .reset ⟨0, []⟩ []

/-- A sequence of requests with their replies. -/
inductive Run (capacity : Nat) : List α → List (Request α × Reply α) → List α → Prop
  | nil (queue : List α) : Run capacity queue [] queue
  | cons {queue queue' queue'' : List α} {request : Request α} {reply : Reply α}
      {rest : List (Request α × Reply α)} (first : Step capacity queue request reply queue')
      (after : Run capacity queue' rest queue'') :
      Run capacity queue ((request, reply) :: rest) queue''

/-- The elements a request offers. -/
def Request.offered : Request α → List α
  | .put new | .putForce new => new
  | .get _ | .peak | .length | .reset => []

/-- The elements an exchange moves into the queue when nothing is forced. -/
def accepted (exchange : Request α × Reply α) : List α :=
  exchange.1.offered.take exchange.2.count

/-- A request that throws nothing away. -/
def Request.Lossless : Request α → Prop
  | .put _ | .get _ | .peak | .length => True
  | .putForce _ | .reset => False

instance (request : Request α) : Decidable request.Lossless := by
  cases request <;> unfold Request.Lossless <;> infer_instance

/-- How many are newest. -/
theorem length_newest (capacity : Nat) (queue : List α) :
    (newest capacity queue).length = min capacity queue.length := by
  rw [newest, List.length_drop]
  omega

/-- The newest ones are part of the queue. -/
theorem newest_sublist (capacity : Nat) (queue : List α) :
    (newest capacity queue).Sublist queue :=
  List.drop_sublist _ queue

/-- A step keeps the capacity. -/
theorem Step.length_le {capacity : Nat} {queue queue' : List α} {request : Request α}
    {reply : Reply α} (h : Step capacity queue request reply queue')
    (hqueue : queue.length ≤ capacity) : queue'.length ≤ capacity := by
  cases h with
  | put _ new =>
      rw [List.length_append, List.length_take]
      omega
  | putForce _ new =>
      rw [length_newest]
      omega
  | get _ count =>
      rw [List.length_drop]
      omega
  | peak front back hfront =>
      rw [List.length_append] at hqueue
      omega
  | length _ => exact hqueue
  | reset _ => exact Nat.zero_le capacity

/-- The capacity is kept. -/
theorem Run.length_le {capacity : Nat} {queue queue' : List α}
    {exchanges : List (Request α × Reply α)} (h : Run capacity queue exchanges queue')
    (hqueue : queue.length ≤ capacity) : queue'.length ≤ capacity := by
  induction h with
  | nil queue => exact hqueue
  | cons first after ih => exact ih (first.length_le hqueue)

/-- A step hands out and keeps what was there and what was offered, in order. -/
theorem Step.delivered_sublist {capacity : Nat} {queue queue' : List α} {request : Request α}
    {reply : Reply α} (h : Step capacity queue request reply queue') :
    (reply.delivered ++ queue').Sublist (queue ++ request.offered) := by
  cases h with
  | put _ new => exact (List.take_sublist _ new).append_left queue
  | putForce _ new => exact newest_sublist capacity (queue ++ new)
  | get _ count =>
      rw [List.take_append_drop, Request.offered, List.append_nil]
  | peak front back hfront =>
      rw [Request.offered, List.append_nil]
  | length _ =>
      rw [Request.offered, List.append_nil]
      exact List.Sublist.refl _
  | reset _ => exact List.nil_sublist _

/-- What is handed out and what is left is a subsequence of what was there and what was
offered: nothing is duplicated, reordered or made up. -/
theorem Run.delivered_sublist {capacity : Nat} {queue queue' : List α}
    {exchanges : List (Request α × Reply α)} (h : Run capacity queue exchanges queue') :
    ((exchanges.flatMap fun exchange => exchange.2.delivered) ++ queue').Sublist
      (queue ++ exchanges.flatMap fun exchange => exchange.1.offered) := by
  induction h with
  | nil queue => simp
  | @cons queue queue' queue'' request reply rest first after ih =>
      rw [List.flatMap_cons, List.flatMap_cons, List.append_assoc, ← List.append_assoc queue]
      refine (ih.append_left reply.delivered).trans ?_
      rw [← List.append_assoc]
      exact first.delivered_sublist.append_right _

/-- A step that throws nothing away loses nothing. -/
theorem Step.accepted_eq {capacity : Nat} {queue queue' : List α} {request : Request α}
    {reply : Reply α} (h : Step capacity queue request reply queue')
    (hlossless : request.Lossless) :
    reply.delivered ++ queue' = queue ++ accepted (request, reply) := by
  cases h with
  | put _ new => simp [accepted, Request.offered, List.take_eq_take_iff, Nat.min_comm]
  | putForce _ new => exact hlossless.elim
  | get _ count => simp [accepted, Request.offered]
  | peak front back hfront => simp [accepted, Request.offered]
  | length _ => simp [accepted, Request.offered]
  | reset _ => exact hlossless.elim

/-- Without forced requests and resets, what is handed out followed by what is left is what
was there followed by what was accepted. -/
theorem Run.accepted_eq {capacity : Nat} {queue queue' : List α}
    {exchanges : List (Request α × Reply α)} (h : Run capacity queue exchanges queue')
    (hlossless : ∀ exchange ∈ exchanges, exchange.1.Lossless) :
    (exchanges.flatMap fun exchange => exchange.2.delivered) ++ queue' =
      queue ++ exchanges.flatMap accepted := by
  induction h with
  | nil queue => simp
  | cons first after ih =>
      have hfirst := first.accepted_eq (hlossless _ List.mem_cons_self)
      have hrest := ih fun exchange hmem => hlossless exchange (List.mem_cons_of_mem _ hmem)
      rw [List.flatMap_cons, List.flatMap_cons, List.append_assoc, hrest,
        ← List.append_assoc, hfirst, List.append_assoc]

end BoundedQueue
end Library
end TestAio
