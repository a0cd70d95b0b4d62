import Mathlib.Data.List.Nodup
import Mathlib.Data.List.Pairwise
import Mathlib.Logic.Function.Basic

/-!
# Clients that sleep in a list

A client that goes to sleep gets a place in a list; it leaves the list when it is the first one
and is woken, or when it gives up.  The place is the last one, or the one before all clients with
a lower priority; the lower the number of a priority, the higher it is.

Main results:

- Theorems {lit}`Sleepers.join`, {lit}`Sleepers.wake` and {lit}`Sleepers.leave`: the list has
  exactly the clients that sleep.
- Theorems {lit}`insert_sorted` and {lit}`insert_level`: clients with a higher priority come first,
  and those of one priority stay in the order in which they came.

Current gaps:

- None.
-/

namespace TestAio
namespace Library

/-- The list has each client that sleeps, and once. -/
structure Sleepers {Client : Type} (list : List Client) (asleep : Client → Prop) : Prop where
  nodup : list.Nodup
  mem_iff : ∀ client, client ∈ list ↔ asleep client

namespace Sleepers

variable {Client : Type} {list list' : List Client} {asleep asleep' : Client → Prop}
  {client : Client}

/-- Nobody sleeps in an empty list. -/
theorem nil (h : ∀ client, ¬ asleep client) : Sleepers [] asleep where
  nodup := .nil
  mem_iff client := iff_of_false List.not_mem_nil (h client)

/-- Someone goes to sleep. -/
theorem join (h : Sleepers list asleep) (hnew : ¬ asleep client)
    (hperm : list'.Perm (client :: list))
    (hasleep : ∀ other, asleep' other ↔ other = client ∨ asleep other) :
    Sleepers list' asleep' where
  nodup := by
    rw [hperm.nodup_iff, List.nodup_cons, h.mem_iff]
    exact ⟨hnew, h.nodup⟩
  mem_iff other := by rw [hperm.mem_iff, List.mem_cons, h.mem_iff, hasleep]

/-- The first one is woken. -/
theorem wake (h : Sleepers (client :: list) asleep)
    (hasleep : ∀ other, asleep' other ↔ other ≠ client ∧ asleep other) :
    Sleepers list asleep' where
  nodup := (List.nodup_cons.mp h.nodup).2
  mem_iff other := by
    rw [hasleep, ← h.mem_iff, List.mem_cons]
    constructor
    · intro hmem
      refine ⟨?_, .inr hmem⟩
      rintro rfl
      exact (List.nodup_cons.mp h.nodup).1 hmem
    · rintro ⟨hne, hor⟩
      exact hor.resolve_left hne

/-- Someone gives up. -/
theorem leave [DecidableEq Client] (h : Sleepers list asleep)
    (hasleep : ∀ other, asleep' other ↔ other ≠ client ∧ asleep other) :
    Sleepers (list.filter fun other => other ≠ client) asleep' where
  nodup := h.nodup.filter _
  mem_iff other := by
    rw [List.mem_filter, h.mem_iff, hasleep, decide_eq_true_iff]
    exact and_comm

/-- A client that goes to sleep for some time. -/
theorem update_some [DecidableEq Client] {Time : Type} (asleep : Client → Option Time)
    (client : Client) (time : Time) (other : Client) :
    Function.update asleep client (some time) other ≠ none ↔
      other = client ∨ asleep other ≠ none := by
  by_cases heq : other = client
  · subst heq
    simp
  · simp [heq]

/-- A client that sleeps no longer. -/
theorem update_none [DecidableEq Client] {Time : Type} (asleep : Client → Option Time)
    (client other : Client) :
    Function.update asleep client none other ≠ none ↔ other ≠ client ∧ asleep other ≠ none := by
  by_cases heq : other = client
  · subst heq
    simp
  · simp [heq]

/-! ## Places by priority -/

/-- The place before all clients with a lower priority. -/
def insert (priority : Client → Nat) (client : Client) (list : List Client) : List Client :=
  let front := fun other => !decide (priority client < priority other)
  list.takeWhile front ++ client :: list.dropWhile front

/-- Clients with a higher priority come first. -/
def Sorted (priority : Client → Nat) (list : List Client) : Prop :=
  list.Pairwise fun first second => priority first ≤ priority second

variable {priority : Client → Nat}

/-- A client goes in front of the first one with a lower priority. -/
theorem insert_cons (client other : Client) (rest : List Client) :
    insert priority client (other :: rest) =
      if priority client < priority other then client :: other :: rest
      else other :: insert priority client rest := by
  by_cases hlt : priority client < priority other <;> simp [insert, hlt]

/-- Only the priorities of the clients in the list and of the new one matter. -/
theorem insert_congr {priority' : Client → Nat} {client : Client} {list : List Client}
    (hclient : priority' client = priority client)
    (hlist : ∀ other ∈ list, priority' other = priority other) :
    insert priority' client list = insert priority client list := by
  induction list with
  | nil => rfl
  | cons other rest ih =>
      rw [insert_cons, insert_cons, hclient, hlist other List.mem_cons_self,
        ih fun later hmem => hlist later (List.mem_cons_of_mem other hmem)]

/-- Inserting adds one client. -/
theorem insert_perm (client : Client) (list : List Client) :
    (insert priority client list).Perm (client :: list) := by
  refine List.perm_middle.trans ?_
  rw [List.takeWhile_append_dropWhile]

/-- Inserting keeps the order of the priorities. -/
theorem insert_sorted (client : Client) (h : Sorted priority list) :
    Sorted priority (insert priority client list) := by
  induction list with
  | nil => exact List.pairwise_singleton _ client
  | cons other rest ih =>
      rcases List.pairwise_cons.mp h with ⟨hother, hrest⟩
      rw [insert_cons]
      split
      · next hlt =>
          refine List.pairwise_cons.mpr ⟨fun later hmem => ?_, h⟩
          rcases List.mem_cons.mp hmem with rfl | hmem
          · exact Nat.le_of_lt hlt
          · exact Nat.le_trans (Nat.le_of_lt hlt) (hother later hmem)
      · next hle =>
          refine List.pairwise_cons.mpr ⟨fun later hmem => ?_, ih hrest⟩
          rcases List.mem_cons.mp ((insert_perm client rest).mem_iff.mp hmem) with rfl | hmem
          · exact Nat.le_of_not_lt hle
          · exact hother later hmem

/-- A client comes after the ones of its own priority. -/
theorem insert_level (client : Client) (h : Sorted priority list) (number : Nat) :
    (insert priority client list).filter (fun other => priority other = number) =
      (list ++ [client]).filter fun other => priority other = number := by
  induction list with
  | nil => rfl
  | cons other rest ih =>
      rcases List.pairwise_cons.mp h with ⟨hother, hrest⟩
      rw [insert_cons]
      split
      · next hlt =>
          by_cases hnumber : priority client = number
          · -- all that follow have a lower priority than the client
            have hnone : (other :: rest).filter (fun other => priority other = number) = [] := by
              refine List.filter_eq_nil_iff.mpr fun later hmem => ?_
              have hle : priority other ≤ priority later := by
                rcases List.mem_cons.mp hmem with rfl | hmem
                · exact Nat.le_refl _
                · exact hother later hmem
              simp only [decide_eq_true_eq]
              omega
            rw [List.filter_append, hnone, List.nil_append,
              List.filter_cons_of_pos (by simpa using hnumber), hnone]
            simp [hnumber]
          · rw [List.filter_append, List.filter_cons_of_neg (by simpa using hnumber),
              List.filter_cons_of_neg (a := client) (by simpa using hnumber), List.filter_nil,
              List.append_nil]
      · rw [List.cons_append, List.filter_cons, List.filter_cons, ih hrest]

/-! ## The order in which clients are woken -/

/-- Whoever was woken or still sleeps went to sleep in this order. -/
def InOrder (asked woken list : List Client) : Prop :=
  (woken ++ list).Sublist asked

variable {asked woken : List Client}

/-- Nobody asked, and nobody was served. -/
theorem InOrder.nil : InOrder ([] : List Client) [] [] :=
  .slnil

/-- Some go to sleep. -/
theorem InOrder.join (h : InOrder asked woken list) (more : List Client) :
    InOrder (asked ++ more) woken (list ++ more) := by
  rw [InOrder, ← List.append_assoc]
  exact List.Sublist.append h (List.Sublist.refl _)

/-- Some at the front are woken. -/
theorem InOrder.wake {more : List Client} (h : InOrder asked woken (more ++ list)) :
    InOrder asked (woken ++ more) list := by
  rw [InOrder, List.append_assoc]
  exact h

/-- Some give up. -/
theorem InOrder.leave (h : InOrder asked woken list) (hsublist : list'.Sublist list) :
    InOrder asked woken list' :=
  (hsublist.append_left woken).trans h

end Sleepers
end Library
end TestAio
