import Mathlib.Data.List.Basic

/-!
# Alarm clocks

A clock counts ticks.  Each alarm is set to a number of ticks from now and rings when they have
passed, unless it is stopped or set again before.  Alarms that are due at the same tick ring in
the order in which they were set.  A log has one entry for each thing that happens.

Main results:

- Theorem {lit}`Run.fire_on_time`: between the setting of an alarm and its ringing lie exactly
  the ticks it was set to.
- Theorem {lit}`Run.not_late`: an alarm that has not rung yet is not due before now.
- Theorem {lit}`Run.sorted`: the alarms wait in the order in which they are due.

Current gaps:

- None.
-/

namespace TestAio
namespace Library
namespace Alarms

/-- What happens to a clock. -/
inductive Entry (Id : Type)
  | start (id : Id) (delay : Nat)
  | stop (id : Id)
  | fire (id : Id)
  | tick
deriving DecidableEq

/-- The current tick, and the alarms that are set with the ticks they are due at. -/
structure Clock (Id : Type) where
  now : Nat
  queue : List (Id × Nat)

section Clock

variable {Id : Type}

/-- An alarm is put behind the ones that are due no later. -/
def arm (id : Id) (deadline : Nat) : List (Id × Nat) → List (Id × Nat)
  | [] => [(id, deadline)]
  | entry :: rest =>
      if entry.2 ≤ deadline then
        entry :: arm id deadline rest
      else
        (id, deadline) :: entry :: rest

/-- The ticks of a log. -/
def ticks : List (Entry Id) → Nat
  | [] => 0
  | .tick :: log => ticks log + 1
  | .start _ _ :: log | .stop _ :: log | .fire _ :: log => ticks log

/-- An entry that sets, stops or rings an alarm. -/
def Entry.Touches (id : Id) : Entry Id → Prop
  | .start other _ | .stop other | .fire other => other = id
  | .tick => False

variable [DecidableEq Id]

/-- An alarm is taken away. -/
def disarm (id : Id) (queue : List (Id × Nat)) : List (Id × Nat) :=
  queue.filter fun entry => entry.1 ≠ id

/-- What a clock may do.  It goes on when nothing is due any more. -/
inductive Step : Clock Id → Entry Id → Clock Id → Prop
  | start (now : Nat) (queue : List (Id × Nat)) (id : Id) (delay : Nat) :
      Step ⟨now, queue⟩ (.start id delay) ⟨now, arm id (now + delay) (disarm id queue)⟩
  | stop (now : Nat) (queue : List (Id × Nat)) (id : Id) :
      Step ⟨now, queue⟩ (.stop id) ⟨now, disarm id queue⟩
  | fire (now : Nat) (queue : List (Id × Nat)) (id : Id) :
      Step ⟨now, (id, now) :: queue⟩ (.fire id) ⟨now, queue⟩
  | tick {now : Nat} {queue : List (Id × Nat)} (hlater : ∀ entry ∈ queue, now < entry.2) :
      Step ⟨now, queue⟩ .tick ⟨now + 1, queue⟩

/-- What happens to a clock in a row. -/
inductive Run : Clock Id → List (Entry Id) → Clock Id → Prop
  | nil (clock : Clock Id) : Run clock [] clock
  | cons {clock clock' clock'' : Clock Id} {entry : Entry Id} {log : List (Entry Id)}
      (first : Step clock entry clock') (rest : Run clock' log clock'') :
      Run clock (entry :: log) clock''

omit [DecidableEq Id] in
/-- Arming adds one alarm. -/
theorem mem_arm {id : Id} {deadline : Nat} {queue : List (Id × Nat)} {entry : Id × Nat} :
    entry ∈ arm id deadline queue ↔ entry = (id, deadline) ∨ entry ∈ queue := by
  induction queue with
  | nil => simp [arm]
  | cons other rest ih =>
      rw [arm]
      split
      · rw [List.mem_cons, ih, List.mem_cons, or_left_comm]
      · rw [List.mem_cons]

/-- Disarming takes the alarms of one name away. -/
theorem mem_disarm {id : Id} {queue : List (Id × Nat)} {entry : Id × Nat} :
    entry ∈ disarm id queue ↔ entry ∈ queue ∧ entry.1 ≠ id := by
  rw [disarm, List.mem_filter, decide_eq_true_iff]

omit [DecidableEq Id] in
/-- Arming keeps the order of the deadlines. -/
theorem sorted_arm {id : Id} {deadline : Nat} {queue : List (Id × Nat)}
    (h : queue.Pairwise fun a b => a.2 ≤ b.2) :
    (arm id deadline queue).Pairwise fun a b => a.2 ≤ b.2 := by
  induction queue with
  | nil => exact .cons (by simp) .nil
  | cons other rest ih =>
      rw [List.pairwise_cons] at h
      rw [arm]
      split
      · rename_i hle
        refine .cons ?_ (ih h.2)
        intro entry hmem
        rcases mem_arm.mp hmem with rfl | hmem
        · exact hle
        · exact h.1 entry hmem
      · rename_i hlt
        refine .cons ?_ (.cons h.1 h.2)
        intro entry hmem
        rcases List.mem_cons.mp hmem with rfl | hmem
        · exact Nat.le_of_not_le hlt
        · exact Nat.le_trans (Nat.le_of_not_le hlt) (h.1 entry hmem)

omit [DecidableEq Id] in
/-- A name that is not armed can be armed once. -/
theorem nodup_map_arm {id : Id} {deadline : Nat} {queue : List (Id × Nat)}
    (h : (queue.map Prod.fst).Nodup) (hnew : id ∉ queue.map Prod.fst) :
    ((arm id deadline queue).map Prod.fst).Nodup := by
  induction queue with
  | nil => simp [arm]
  | cons other rest ih =>
      rw [List.map_cons, List.nodup_cons] at h
      rw [List.map_cons, List.mem_cons, not_or] at hnew
      rw [arm]
      split
      · rw [List.map_cons, List.nodup_cons]
        refine ⟨?_, ih h.2 hnew.2⟩
        intro hmem
        rcases List.mem_map.mp hmem with ⟨entry, hmem, heq⟩
        rcases mem_arm.mp hmem with rfl | hmem
        · exact hnew.1 heq
        · exact h.1 (heq ▸ List.mem_map_of_mem hmem)
      · rw [List.map_cons, List.map_cons, List.nodup_cons, List.nodup_cons, List.mem_cons, not_or]
        exact ⟨hnew, h⟩

/-- Disarming keeps the order of the deadlines. -/
theorem sorted_disarm {id : Id} {queue : List (Id × Nat)}
    (h : queue.Pairwise fun a b => a.2 ≤ b.2) :
    (disarm id queue).Pairwise fun a b => a.2 ≤ b.2 :=
  h.filter _

/-- One run after another is a run. -/
theorem Run.append {clock clock' clock'' : Clock Id} {log log' : List (Entry Id)}
    (h : Run clock log clock') (h' : Run clock' log' clock'') :
    Run clock (log ++ log') clock'' := by
  induction h with
  | nil clock => exact h'
  | cons first rest ih => exact .cons first (ih h')

/-- A step is a run. -/
theorem Step.run {clock clock' : Clock Id} {entry : Entry Id} (h : Step clock entry clock') :
    Run clock [entry] clock' :=
  .cons h (.nil clock')

omit [DecidableEq Id] in
@[simp]
theorem ticks_append (log log' : List (Entry Id)) :
    ticks (log ++ log') = ticks log + ticks log' := by
  induction log with
  | nil => exact (Nat.zero_add _).symm
  | cons entry log ih =>
      cases entry with
      | tick =>
          rw [List.cons_append, ticks, ticks, ih]
          omega
      | start | stop | fire => exact ih

/-- The clock counts the ticks. -/
theorem Run.now_eq {clock clock' : Clock Id} {log : List (Entry Id)} (h : Run clock log clock') :
    clock'.now = clock.now + ticks log := by
  induction h with
  | nil clock => rfl
  | cons first rest ih =>
      cases first with
      | tick hlater =>
          rw [ih, ticks]
          simp only
          omega
      | start | stop | fire => exact ih

/-- The alarms wait in the order in which they are due. -/
theorem Run.sorted {clock clock' : Clock Id} {log : List (Entry Id)} (h : Run clock log clock')
    (hsorted : clock.queue.Pairwise fun a b => a.2 ≤ b.2) :
    clock'.queue.Pairwise fun a b => a.2 ≤ b.2 := by
  induction h with
  | nil clock => exact hsorted
  | cons first rest ih =>
      apply ih
      cases first with
      | start now queue id delay => exact sorted_arm (sorted_disarm hsorted)
      | stop now queue id => exact sorted_disarm hsorted
      | fire now queue id => exact hsorted.tail
      | tick hlater => exact hsorted

/-- An alarm waits for its tick, and for no other one. -/
def Waits (id : Id) (deadline : Nat) (clock : Clock Id) : Prop :=
  clock.now ≤ deadline ∧ (id, deadline) ∈ clock.queue ∧
    ∀ other, (id, other) ∈ clock.queue → other = deadline

/-- An alarm that is not touched goes on waiting. -/
theorem Step.waits {clock clock' : Clock Id} {entry : Entry Id} {id : Id} {deadline : Nat}
    (h : Step clock entry clock') (htouch : ¬ entry.Touches id) (hwaits : Waits id deadline clock) :
    Waits id deadline clock' := by
  rcases hwaits with ⟨hnow, hmem, hunique⟩
  cases h with
  | start now queue other delay =>
      have hne : id ≠ other := fun heq => htouch heq.symm
      refine ⟨hnow, mem_arm.mpr (.inr (mem_disarm.mpr ⟨hmem, hne⟩)), fun due hdue => ?_⟩
      rcases mem_arm.mp hdue with heq | hdue
      · exact absurd (congrArg Prod.fst heq) hne
      · exact hunique due (mem_disarm.mp hdue).1
  | stop now queue other =>
      have hne : id ≠ other := fun heq => htouch heq.symm
      exact ⟨hnow, mem_disarm.mpr ⟨hmem, hne⟩, fun due hdue => hunique due (mem_disarm.mp hdue).1⟩
  | fire now queue other =>
      have hne : id ≠ other := fun heq => htouch heq.symm
      refine ⟨hnow, ?_, fun due hdue => hunique due (List.mem_cons_of_mem _ hdue)⟩
      rcases List.mem_cons.mp hmem with heq | hmem
      · exact absurd (congrArg Prod.fst heq) hne
      · exact hmem
  | tick hlater => exact ⟨hlater _ hmem, hmem, hunique⟩

/-- An alarm that is not touched goes on waiting through a run. -/
theorem Run.waits {clock clock' : Clock Id} {log : List (Entry Id)} {id : Id} {deadline : Nat}
    (h : Run clock log clock') (htouch : ∀ entry ∈ log, ¬ entry.Touches id)
    (hwaits : Waits id deadline clock) : Waits id deadline clock' := by
  induction h with
  | nil clock => exact hwaits
  | cons first rest ih =>
      exact ih (fun entry hmem => htouch entry (List.mem_cons_of_mem _ hmem))
        (first.waits (htouch _ List.mem_cons_self) hwaits)

/-- An alarm waits for its delay when it starts. -/
theorem Step.start_waits {clock clock' : Clock Id} {id : Id} {delay : Nat}
    (h : Step clock (.start id delay) clock') : Waits id (clock.now + delay) clock' := by
  cases h with
  | start now queue id delay =>
      refine ⟨Nat.le_add_right now delay, mem_arm.mpr (.inl rfl), fun due hdue => ?_⟩
      rcases mem_arm.mp hdue with heq | hdue
      · exact congrArg Prod.snd heq
      · exact absurd rfl (mem_disarm.mp hdue).2

/-- A log in two parts. -/
theorem Run.of_append {clock clock'' : Clock Id} {log log' : List (Entry Id)}
    (h : Run clock (log ++ log') clock'') :
    ∃ clock', Run clock log clock' ∧ Run clock' log' clock'' := by
  induction log generalizing clock with
  | nil => exact ⟨clock, .nil clock, h⟩
  | cons entry log ih =>
      cases h with
      | cons first rest =>
          rcases ih rest with ⟨clock', hfront, hback⟩
          exact ⟨clock', .cons first hfront, hback⟩

/-- An alarm that has not rung yet is not due before now. -/
theorem Run.not_late {clock clock' : Clock Id} {log log' : List (Entry Id)} {id : Id} {delay : Nat}
    (h : Run clock (log ++ .start id delay :: log') clock')
    (htouch : ∀ entry ∈ log', ¬ entry.Touches id) : ticks log' ≤ delay := by
  rcases h.of_append with ⟨before, -, hrest⟩
  cases hrest with
  | @cons _ started _ _ _ first rest =>
      have hwaits := rest.waits htouch first.start_waits
      have hnow := rest.now_eq
      have hstart := first.run.now_eq
      have hdue := hwaits.1
      rw [ticks, ticks] at hstart
      omega

/-- Between the setting of an alarm and its ringing lie exactly the ticks it was set to. -/
theorem Run.fire_on_time {clock clock' : Clock Id} {log log' rest : List (Entry Id)} {id : Id}
    {delay : Nat} (h : Run clock (log ++ .start id delay :: (log' ++ .fire id :: rest)) clock')
    (htouch : ∀ entry ∈ log', ¬ entry.Touches id) : ticks log' = delay := by
  rcases h.of_append with ⟨before, -, hrest⟩
  cases hrest with
  | @cons _ started _ _ _ first hrest =>
      rcases hrest.of_append with ⟨due, hbetween, hrest⟩
      have hwaits := hbetween.waits htouch first.start_waits
      have hnow := hbetween.now_eq
      have hstart := first.run.now_eq
      rw [ticks, ticks] at hstart
      cases hrest with
      | cons hfire hend =>
          cases hfire with
          | fire now queue id =>
              have heq := hwaits.2.2 now List.mem_cons_self
              simp only at hnow
              omega

end Clock

end Alarms
end Library
end TestAio
