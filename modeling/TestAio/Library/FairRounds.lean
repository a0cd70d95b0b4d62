import Mathlib.Data.List.FinRange
import Mathlib.Data.List.Nodup
import TestAio.Library.Rounds

/-!
# Rounds are fair

A loop that goes over a list in rounds, each in another order, and may be left in any round
but the first uses every element about equally often: all rounds but the last are complete,
and the last one is left behind a part of the list.

Main results:

- Theorem {lit}`emitRounds_even`: after any number of rounds the uses of two elements differ
  by at most one.
- Theorem {lit}`emitRounds_numbered`: what is emitted is numbered without gaps.
- Theorem {lit}`emitRounds_map`: the rounds over places give the rounds over what stands
  there.

Current gaps:

- None.
-/

namespace TestAio
namespace Library
namespace Rounds

/-! ## Rearranging by places -/

section Permute

variable {α β : Type} {n : Nat}

/-- A list of length {lit}`n` with its places rearranged. -/
def permute (σ : Equiv.Perm (Fin n)) (xs : List α) : List α :=
  if h : xs.length = n then
    List.ofFn fun j => xs.get (Fin.cast h.symm (σ j))
  else
    xs

theorem permute_perm (σ : Equiv.Perm (Fin n)) (xs : List α) : (permute σ xs).Perm xs := by
  unfold permute
  split
  · rename_i h
    subst h
    have hperm := σ.ofFn_comp_perm xs.get
    rw [List.ofFn_get] at hperm
    exact hperm
  · exact List.Perm.refl xs

theorem permute_map (σ : Equiv.Perm (Fin n)) (f : α → β) (xs : List α) :
    permute σ (xs.map f) = (permute σ xs).map f := by
  unfold permute
  by_cases h : xs.length = n
  · have hmap : (xs.map f).length = n := by
      rw [List.length_map]
      exact h
    rw [dif_pos h, dif_pos hmap, List.map_ofFn]
    congr 1
    ext j
    simp
  · have hmap : ¬ (xs.map f).length = n := by
      rw [List.length_map]
      exact h
    rw [dif_neg h, dif_neg hmap]

end Permute

/-! ## Relabelling -/

section Relabel

variable {α β : Type}

theorem emit_map (leave : Nat → Bool) (f : α → β) (count : Nat) (xs : List α) :
    emit leave count (xs.map f) =
      ((emit leave count xs).1.map (Prod.map f id), (emit leave count xs).2) := by
  induction xs generalizing count with
  | nil => rfl
  | cons x xs ih =>
      rw [List.map_cons, emit, emit]
      split
      · rfl
      · rw [ih]
        rfl

/-- Rounds over relabelled elements are the relabelled rounds. -/
theorem emitRounds_map {arrange : Nat → List α → List α} {arrange' : Nat → List β → List β}
    {f : α → β} (harrange : ∀ i xs, arrange' i (xs.map f) = (arrange i xs).map f)
    (limit i count : Nat) (xs : List α) (rounds : Nat) :
    emitRounds arrange' limit i count (xs.map f) rounds =
      (emitRounds arrange limit i count xs rounds).map (Prod.map f id) := by
  induction rounds generalizing i count xs with
  | zero => rfl
  | succ rounds ih =>
      rw [emitRounds, emitRounds, harrange, emit_map]
      dsimp only
      split
      · rfl
      · rw [List.map_append, List.length_map, ih]

end Relabel

/-! ## Numbers -/

section Numbers

variable {α : Type}

theorem emit_numbered (leave : Nat → Bool) (count : Nat) (xs : List α) :
    (emit leave count xs).1.map Prod.snd =
      List.range' (count + 1) (emit leave count xs).1.length := by
  induction xs generalizing count with
  | nil => rfl
  | cons x xs ih =>
      rw [emit]
      split
      · rfl
      · dsimp only
        rw [List.map_cons, List.length_cons, List.range'_succ, ih]

/-- What is emitted is numbered without gaps. -/
theorem emitRounds_numbered (arrange : Nat → List α → List α) (limit i count : Nat)
    (xs : List α) (rounds : Nat) :
    (emitRounds arrange limit i count xs rounds).map Prod.snd =
      List.range' (count + 1) (emitRounds arrange limit i count xs rounds).length := by
  induction rounds generalizing i count xs with
  | zero => rfl
  | succ rounds ih =>
      rw [emitRounds]
      split
      · exact emit_numbered _ _ _
      · rw [List.map_append, emit_numbered, ih, List.length_append, ← List.range'_append_1]
        congr 2
        omega

end Numbers

/-! ## Uses -/

section Uses

variable {α : Type}

/-- A round emits its list from the front, and the whole list when it is not left. -/
theorem emit_front (leave : Nat → Bool) (count : Nat) (xs : List α) :
    (emit leave count xs).1.map Prod.fst <+: xs ∧
      ((emit leave count xs).2 = false → (emit leave count xs).1.map Prod.fst = xs) := by
  induction xs generalizing count with
  | nil => exact ⟨List.prefix_refl [], fun _ => rfl⟩
  | cons x xs ih =>
      rw [emit]
      split
      · constructor
        · exact List.cons_prefix_cons.mpr ⟨rfl, List.nil_prefix⟩
        · intro h
          cases h
      · rcases ih (count + 1) with ⟨hstart, hall⟩
        dsimp only
        rw [List.map_cons]
        constructor
        · exact List.cons_prefix_cons.mpr ⟨rfl, hstart⟩
        · intro h
          rw [hall h]

variable [DecidableEq α]

/-- Every element is used {lit}`full` times or once more, and at most {lit}`rounds` times. -/
def UsedEvenly (xs used : List α) (full rounds : Nat) : Prop :=
  ∀ x ∈ xs, full ≤ used.count x ∧ used.count x ≤ full + 1 ∧ used.count x ≤ rounds

variable {arrange : Nat → List α → List α} (harrange : ∀ i xs, (arrange i xs).Perm xs)

/-- A complete round in front uses every element once more. -/
theorem UsedEvenly.append {xs ys used : List α} {full rounds : Nat} (hperm : ys.Perm xs)
    (hnodup : xs.Nodup) (h : UsedEvenly ys used full rounds) :
    UsedEvenly xs (ys ++ used) (full + 1) (rounds + 1) := by
  intro x hx
  have hy : x ∈ ys := hperm.mem_iff.mpr hx
  have hone : ys.count x = 1 := List.count_eq_one_of_mem (hperm.nodup_iff.mpr hnodup) hy
  rcases h x hy with ⟨hfull, hmore, hrounds⟩
  rw [List.count_append, hone]
  omega

include harrange in
/-- After any number of rounds the uses differ by at most one. -/
theorem emitRounds_even (limit i count : Nat) {xs : List α} (hnodup : xs.Nodup)
    (rounds : Nat) :
    ∃ full, UsedEvenly xs ((emitRounds arrange limit i count xs rounds).map Prod.fst) full
      rounds := by
  induction rounds generalizing i count xs with
  | zero => exact ⟨0, fun x _ => ⟨le_refl 0, Nat.zero_le 1, le_refl 0⟩⟩
  | succ rounds ih =>
      have hperm := harrange i xs
      have hnodup' : (arrange i xs).Nodup := hperm.nodup_iff.mpr hnodup
      rw [emitRounds]
      split
      · -- the round that is left is a part of the list
        apply Exists.intro 0
        intro x hx
        have hstart := (emit_front (fun count => decide (limit ≤ count) && decide (i ≠ 0))
          count (arrange i xs)).1
        have hle := hstart.sublist.count_le x
        have hone := List.nodup_iff_count_le_one.mp hnodup' x
        exact ⟨Nat.zero_le _, by omega, by omega⟩
      · rename_i hleft
        have hall := (emit_front _ count (arrange i xs)).2 (Bool.eq_false_iff.mpr hleft)
        rw [List.map_append, hall]
        rcases ih (i + 1) _ hnodup' with ⟨full, hfull⟩
        exact ⟨full + 1, hfull.append hperm hnodup⟩

/-- Every element is used at least once and at most {lit}`rounds` times, and no element is
used twice more than another. -/
structure Fair (xs used : List α) (rounds : Nat) : Prop where
  once : ∀ x ∈ xs, 1 ≤ used.count x
  most : ∀ x ∈ xs, used.count x ≤ rounds
  even : ∀ x ∈ xs, ∀ y ∈ xs, used.count x ≤ used.count y + 1

include harrange in
/-- The first round is never left, so all rounds together are fair. -/
theorem emitRounds_fair (limit : Nat) {xs : List α} (hnodup : xs.Nodup) (rounds : Nat) :
    Fair xs ((emitRounds arrange limit 0 0 xs (rounds + 1)).map Prod.fst) (rounds + 1) := by
  have hperm := harrange 0 xs
  have hnodup' : (arrange 0 xs).Nodup := hperm.nodup_iff.mpr hnodup
  have hnever := @length_emit_of_never α
    (fun count => decide (limit ≤ count) && decide (0 ≠ 0)) (by simp) 0 (arrange 0 xs)
  have hall := (emit_front _ 0 (arrange 0 xs)).2 hnever.2
  have hrounds : (emitRounds arrange limit 0 0 xs (rounds + 1)).map Prod.fst =
      arrange 0 xs ++ (emitRounds arrange limit 1 (arrange 0 xs).length (arrange 0 xs)
        rounds).map Prod.fst := by
    rw [emitRounds, if_neg (by rw [hnever.2]; exact Bool.false_ne_true), List.map_append, hall,
      hnever.1]
    congr 3
    exact Nat.zero_add _
  rcases emitRounds_even harrange limit 1 (arrange 0 xs).length hnodup' rounds with
    ⟨full, hfull⟩
  have hused := hfull.append hperm hnodup
  rw [hrounds]
  constructor
  · intro x hx
    have hx' := hused x hx
    omega
  · intro x hx
    exact (hused x hx).2.2
  · intro x hx y hy
    have hx' := hused x hx
    have hy' := hused y hy
    omega

end Uses

end Rounds
end Library
end TestAio
