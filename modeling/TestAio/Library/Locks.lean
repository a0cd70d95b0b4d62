import Mathlib.Data.List.Basic

/-!
# Recursive locks

A lock is free, or it is held by one client that has acquired it some times more often than it
released it.  A history of acquiring and releasing is legal when only a free lock, or the own one,
is acquired, and only the own one is released.

Main results:

- Theorem {lit}`replay_acquired`: in a legal history only the holder has acquired the lock more
  often than it released it, and exactly as often more as the lock says.

Current gaps:

- None.
-/

namespace TestAio
namespace Library
namespace Locks

/-- One client acquires the lock once more, or releases it once. -/
inductive Action (Client : Type)
  | acquire (client : Client)
  | release (client : Client)
deriving DecidableEq

/-- The holder and how often it has to release the lock. -/
abbrev Lock (Client : Type) := Option (Client × Nat)

variable {Client : Type} [DecidableEq Client]

/-- What an action makes of a lock; nothing when it is not legal. -/
def Action.apply : Action Client → Lock Client → Option (Lock Client)
  | .acquire client, none => some (some (client, 1))
  | .acquire client, some (holder, count) =>
      if holder = client then some (some (holder, count + 1)) else none
  | .release _, none => none
  | .release client, some (holder, count) =>
      if holder = client then
        if count ≤ 1 then some none else some (some (holder, count - 1))
      else
        none

/-- What a history makes of a lock. -/
def replay (lock : Lock Client) : List (Action Client) → Option (Lock Client)
  | [] => some lock
  | action :: history => (action.apply lock).bind fun lock => replay lock history

/-- A history is replayed in parts. -/
theorem replay_append (lock : Lock Client) (history later : List (Action Client)) :
    replay lock (history ++ later) = (replay lock history).bind fun lock => replay lock later := by
  induction history generalizing lock with
  | nil => rfl
  | cons action history ih =>
      rw [List.cons_append, replay, replay, Option.bind_assoc]
      congr 1
      funext lock
      exact ih lock

/-- How often a client has to release the lock. -/
def depth (lock : Lock Client) (client : Client) : Nat :=
  match lock with
  | none => 0
  | some (holder, count) => if holder = client then count else 0

/-- A held lock is to be released. -/
def Fits (lock : Lock Client) : Prop :=
  ∀ holder count, lock = some (holder, count) → 0 < count

/-- An acquisition counts for its client. -/
theorem count_acquire (client other : Client) :
    [Action.acquire client].count (.acquire other) = if client = other then 1 else 0 := by
  by_cases heq : client = other <;> simp [heq]

/-- A release counts for its client. -/
theorem count_release (client other : Client) :
    [Action.release client].count (.release other) = if client = other then 1 else 0 := by
  by_cases heq : client = other <;> simp [heq]

/-- An action keeps the lock fit and changes the depth of its client by one. -/
theorem Action.apply_spec {action : Action Client} {lock lock' : Lock Client} (hfits : Fits lock)
    (h : action.apply lock = some lock') :
    Fits lock' ∧ ∀ client, depth lock client + [action].count (.acquire client) =
      depth lock' client + [action].count (.release client) := by
  cases action with
  | acquire client =>
      have hnone : ∀ other, [Action.acquire client].count (.release other) = 0 := fun _ => by simp
      cases lock with
      | none =>
          obtain rfl := Option.some.inj h
          refine ⟨fun holder count heq => ?_, fun other => ?_⟩
          · cases heq
            exact Nat.one_pos
          · rw [count_acquire, hnone]
            exact Nat.zero_add _
      | some held =>
          rw [Action.apply] at h
          split at h
          · next heq =>
              obtain rfl := Option.some.inj h
              refine ⟨fun holder count hheld => ?_, fun other => ?_⟩
              · cases hheld
                exact Nat.succ_pos _
              · rw [count_acquire, hnone, depth, depth, heq]
                split <;> rfl
          · cases h
  | release client =>
      have hnone : ∀ other, [Action.release client].count (.acquire other) = 0 := fun _ => by simp
      cases lock with
      | none => cases h
      | some held =>
          have hpos := hfits held.1 held.2 rfl
          rw [Action.apply] at h
          split at h
          · next heq =>
              split at h
              · next hlast =>
                  obtain rfl := Option.some.inj h
                  refine ⟨fun holder count hheld => (nomatch hheld), fun other => ?_⟩
                  rw [count_release, hnone, depth, depth, heq]
                  split <;> omega
              · next hmore =>
                  obtain rfl := Option.some.inj h
                  refine ⟨fun holder count hheld => ?_, fun other => ?_⟩
                  · cases hheld
                    omega
                  · rw [count_release, hnone, depth, depth, heq]
                    split <;> omega
          · cases h

/-- Only the holder has acquired the lock more often than it released it. -/
theorem replay_acquired {lock lock' : Lock Client} {history : List (Action Client)}
    (hfits : Fits lock) (h : replay lock history = some lock') :
    Fits lock' ∧ ∀ client, depth lock client + history.count (.acquire client) =
      depth lock' client + history.count (.release client) := by
  induction history generalizing lock with
  | nil =>
      obtain rfl : lock = lock' := Option.some.inj h
      exact ⟨hfits, fun _ => rfl⟩
  | cons action history ih =>
      rcases Option.bind_eq_some_iff.mp h with ⟨next, hnext, hrest⟩
      rcases Action.apply_spec hfits hnext with ⟨hfits', hstep⟩
      rcases ih hfits' hrest with ⟨hfits'', hlater⟩
      refine ⟨hfits'', fun client => ?_⟩
      have hone := hstep client
      have hmore := hlater client
      rw [← List.singleton_append, List.count_append, List.count_append]
      omega

end Locks
end Library
end TestAio
