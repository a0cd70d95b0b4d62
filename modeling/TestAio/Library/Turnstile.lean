import Mathlib.Data.List.Basic
import Mathlib.Data.List.Nodup
import Mathlib.Logic.Function.Basic

/-!
# Waiting for something to become available

Clients take things that become available one by one.  A client that finds nothing goes to
sleep in a list.  Whoever makes a thing available wakes one client of the list, which looks
again later; others may have been faster by then, so that it goes to sleep again.

A gate says which clients sleep and which ones are about to look.  As long as someone sleeps,
each available thing has a client that is about to look: no wake-up is lost.

Main results:

- Theorems {lit}`Gate.offer` and {lit}`Gate.wake`: making a thing available keeps the gate,
  when a sleeping client is woken.
- Theorems {lit}`Gate.take` and {lit}`Gate.sleep`: looking keeps the gate, whether it finds a
  thing or not.
- Theorem {lit}`Gate.expire`: a client that gives up keeps the gate.

Current gaps:

- None.
-/

namespace TestAio
namespace Library
namespace Turnstile

variable {Client Doing : Type}

/-- A number of clients are such as a condition says, or more. -/
def AtLeast (count : Nat) (condition : Client → Prop) : Prop :=
  ∃ clients : List Client, clients.Nodup ∧ (∀ client ∈ clients, condition client) ∧
    count ≤ clients.length

/-- What the clients do and who is in the list, for a number of available things. -/
structure Gate (ready asleep : Doing → Prop) (available : Nat) (waiting : List Client)
    (doing : Client → Doing) : Prop where
  nodup : waiting.Nodup
  mem_iff : ∀ client, client ∈ waiting ↔ asleep (doing client)
  served : waiting ≠ [] → AtLeast available fun client => ready (doing client)

section AtLeast

variable {condition condition' : Client → Prop} {count : Nat}

/-- Nobody is needed. -/
theorem atLeast_zero (condition : Client → Prop) : AtLeast 0 condition :=
  ⟨[], .nil, by simp, Nat.le_refl 0⟩

/-- A weaker condition has no fewer clients. -/
theorem AtLeast.mono (h : AtLeast count condition)
    (hcondition : ∀ client, condition client → condition' client) : AtLeast count condition' := by
  rcases h with ⟨clients, hnodup, hall, hcount⟩
  exact ⟨clients, hnodup, fun client hmem => hcondition client (hall client hmem), hcount⟩

/-- Fewer clients are there too. -/
theorem AtLeast.of_le {count' : Nat} (h : AtLeast count condition) (hle : count' ≤ count) :
    AtLeast count' condition := by
  rcases h with ⟨clients, hnodup, hall, hcount⟩
  exact ⟨clients, hnodup, hall, Nat.le_trans hle hcount⟩

/-- Of at least one client there is one. -/
theorem AtLeast.exists_of_pos (h : AtLeast count condition) (hpos : 0 < count) :
    ∃ client, condition client := by
  rcases h with ⟨clients, -, hall, hcount⟩
  rcases List.exists_mem_of_length_pos (Nat.lt_of_lt_of_le hpos hcount) with ⟨client, hmem⟩
  exact ⟨client, hall client hmem⟩

/-- One more client. -/
theorem AtLeast.insert {client : Client} (h : AtLeast count condition)
    (hnew : ¬ condition client) (hhere : condition' client)
    (hcondition : ∀ other, condition other → condition' other) :
    AtLeast (count + 1) condition' := by
  rcases h with ⟨clients, hnodup, hall, hcount⟩
  refine ⟨client :: clients, List.nodup_cons.mpr ⟨fun hmem => hnew (hall client hmem), hnodup⟩,
    ?_, Nat.succ_le_succ hcount⟩
  intro other hmem
  rcases List.mem_cons.mp hmem with rfl | hmem
  · exact hhere
  · exact hcondition other (hall other hmem)

/-- One client less. -/
theorem AtLeast.remove [DecidableEq Client] (client : Client) (h : AtLeast (count + 1) condition)
    (hcondition : ∀ other, other ≠ client → condition other → condition' other) :
    AtLeast count condition' := by
  rcases h with ⟨clients, hnodup, hall, hcount⟩
  refine ⟨clients.erase client, hnodup.erase client, ?_, ?_⟩
  · intro other hmem
    have hne : other ≠ client := fun heq => hnodup.not_mem_erase (heq ▸ hmem)
    exact hcondition other hne (hall other (List.mem_of_mem_erase hmem))
  · have hlength := List.le_length_erase (l := clients) (a := client)
    omega

end AtLeast

section Gate

variable [DecidableEq Client] {ready asleep : Doing → Prop} {available : Nat}
  {waiting : List Client} {doing : Client → Doing} {client : Client} {new : Doing}

/-- A client that neither sleeps in the list nor goes to sleep. -/
theorem Gate.mem_iff_update (h : Gate ready asleep available waiting doing) (client : Client)
    (new : Doing) (hold : ¬ asleep (doing client)) (hnew : ¬ asleep new) (other : Client) :
    other ∈ waiting ↔ asleep (Function.update doing client new other) := by
  by_cases hne : other = client
  · subst hne
    rw [Function.update_self, h.mem_iff]
    exact ⟨fun hasleep => absurd hasleep hold, fun hasleep => absurd hasleep hnew⟩
  · rw [Function.update_of_ne hne, h.mem_iff]

/-- A client that is awake and does not leave does not change the gate. -/
theorem Gate.enter (h : Gate ready asleep available waiting doing)
    (hold : ¬ asleep (doing client)) (hnew : ¬ asleep new)
    (hready : ready (doing client) → ready new) :
    Gate ready asleep available waiting (Function.update doing client new) := by
  refine ⟨h.nodup, h.mem_iff_update client new hold hnew, fun hne => ?_⟩
  refine (h.served hne).mono fun other hother => ?_
  by_cases heq : other = client
  · subst heq
    rw [Function.update_self]
    exact hready hother
  · rw [Function.update_of_ne heq]
    exact hother

/-- A client looks, takes one of the things and leaves. -/
theorem Gate.take (h : Gate ready asleep (available + 1) waiting doing)
    (hold : ¬ asleep (doing client)) (hnew : ¬ asleep new) :
    Gate ready asleep available waiting (Function.update doing client new) := by
  refine ⟨h.nodup, h.mem_iff_update client new hold hnew,
    fun hne => (h.served hne).remove client ?_⟩
  intro other hother hready
  rw [Function.update_of_ne hother]
  exact hready

omit [DecidableEq Client] in
/-- With nothing available nobody has to be about to look. -/
theorem Gate.zero (hnodup : waiting.Nodup)
    (hmem : ∀ client, client ∈ waiting ↔ asleep (doing client)) :
    Gate ready asleep 0 waiting doing :=
  ⟨hnodup, hmem, fun _ => atLeast_zero _⟩

/-- A client looks, finds nothing and goes to sleep somewhere in the list. -/
theorem Gate.sleep (h : Gate ready asleep 0 waiting doing) {waiting' : List Client}
    (hperm : waiting'.Perm (client :: waiting)) (hold : ¬ asleep (doing client))
    (hnew : asleep new) : Gate ready asleep 0 waiting' (Function.update doing client new) := by
  refine .zero ?_ fun other => ?_
  · rw [hperm.nodup_iff, List.nodup_cons]
    exact ⟨fun hmem => hold ((h.mem_iff client).mp hmem), h.nodup⟩
  · rw [hperm.mem_iff, List.mem_cons]
    by_cases hne : other = client
    · subst hne
      rw [Function.update_self]
      exact ⟨fun _ => hnew, fun _ => .inl rfl⟩
    · rw [Function.update_of_ne hne, h.mem_iff]
      exact ⟨fun hmem => hmem.resolve_left hne, .inr⟩

/-- A thing becomes available, and the first client of the list is woken. -/
theorem Gate.wake {rest : List Client}
    (h : Gate ready asleep available (client :: rest) doing) (hold : ¬ ready (doing client))
    (hready : ready new) (hawake : ¬ asleep new) :
    Gate ready asleep (available + 1) rest (Function.update doing client new) := by
  have hnodup := List.nodup_cons.mp h.nodup
  refine ⟨hnodup.2, fun other => ?_, fun _ => ?_⟩
  · by_cases hne : other = client
    · subst hne
      rw [Function.update_self]
      exact ⟨fun hmem => absurd hmem hnodup.1, fun hasleep => absurd hasleep hawake⟩
    · rw [Function.update_of_ne hne, ← h.mem_iff, List.mem_cons]
      exact ⟨.inr, fun hmem => hmem.resolve_left hne⟩
  · refine (h.served (List.cons_ne_nil _ _)).insert hold ?_ fun other hother => ?_
    · rw [Function.update_self]
      exact hready
    · by_cases heq : other = client
      · subst heq
        rw [Function.update_self]
        exact hready
      · rw [Function.update_of_ne heq]
        exact hother

omit [DecidableEq Client] in
/-- A thing becomes available, and nobody sleeps. -/
theorem Gate.offer (h : Gate ready asleep available [] doing) (available' : Nat) :
    Gate ready asleep available' [] doing :=
  ⟨h.nodup, h.mem_iff, fun hne => absurd rfl hne⟩

omit [DecidableEq Client] in
/-- A gate with fewer things available still keeps its promise. -/
theorem Gate.of_le (h : Gate ready asleep available waiting doing) {available' : Nat}
    (hle : available' ≤ available) : Gate ready asleep available' waiting doing :=
  ⟨h.nodup, h.mem_iff, fun hne => (h.served hne).of_le hle⟩

/-- A client in the list gives up. -/
theorem Gate.expire (h : Gate ready asleep available waiting doing)
    (hold : ¬ ready (doing client)) (hawake : ¬ asleep new) :
    Gate ready asleep available (waiting.filter fun other => other ≠ client)
      (Function.update doing client new) := by
  refine ⟨h.nodup.filter _, fun other => ?_, fun hne => ?_⟩
  · rw [List.mem_filter, decide_eq_true_iff]
    by_cases heq : other = client
    · subst heq
      rw [Function.update_self]
      exact ⟨fun hmem => absurd rfl hmem.2, fun hasleep => absurd hasleep hawake⟩
    · rw [Function.update_of_ne heq, h.mem_iff]
      exact ⟨fun hmem => hmem.1, fun hasleep => ⟨hasleep, heq⟩⟩
  · have hwaiting : waiting ≠ [] := by
      rintro rfl
      exact hne rfl
    refine (h.served hwaiting).mono fun other hother => ?_
    have heq : other ≠ client := by
      rintro rfl
      exact hold hother
    rw [Function.update_of_ne heq]
    exact hother

/-- Some clients are sent elsewhere, with all that sleep. -/
theorem Gate.wakeAll (h : Gate ready asleep available waiting doing) {clients : List Client}
    (hclients : ∀ client ∈ waiting, client ∈ clients) (hnew : ¬ asleep new) (available' : Nat) :
    Gate ready asleep available' []
      (fun client => if client ∈ clients then new else doing client) := by
  refine ⟨.nil, fun client => ⟨fun hmem => absurd hmem List.not_mem_nil, fun hasleep => ?_⟩,
    fun hne => absurd rfl hne⟩
  by_cases hmem : client ∈ clients
  · rw [if_pos hmem] at hasleep
    exact absurd hasleep hnew
  · rw [if_neg hmem] at hasleep
    exact absurd (hclients client ((h.mem_iff client).mpr hasleep)) hmem

end Gate

end Turnstile
end Library
end TestAio
