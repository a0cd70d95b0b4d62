import Mathlib.Data.List.Basic

/-!
# Rounds over a list up to a limit

A loop goes over a list in rounds and numbers what it emits.  After every element it may
leave all rounds at once, which it does when the number has reached a limit, but never in
the first round.

Main results:

- Theorem {lit}`length_emit`: what one round emits.
- Theorem {lit}`length_emitRounds`: what the rounds behind the first emit.
- Theorem {lit}`length_emitRounds_zero`: a list shorter than the limit is repeated up to the
  limit, and a longer one is followed by one more element.

Current gaps:

- None.
-/

namespace TestAio
namespace Library
namespace Rounds

variable {α : Type}

/-- One round: the elements with their numbers, and whether the loop was left. -/
def emit (leave : Nat → Bool) (count : Nat) : List α → List (α × Nat) × Bool
  | [] => ([], false)
  | x :: xs =>
      if leave (count + 1) then
        ([(x, count + 1)], true)
      else
        ((x, count + 1) :: (emit leave (count + 1) xs).1, (emit leave (count + 1) xs).2)

/-- The rounds from {lit}`i` on; each starts with a rearrangement of the list of the one
before. -/
def emitRounds (arrange : Nat → List α → List α) (limit i count : Nat) (xs : List α) :
    Nat → List (α × Nat)
  | 0 => []
  | rounds + 1 =>
      let ys := arrange i xs
      let round := emit (fun count => decide (limit ≤ count) && decide (i ≠ 0)) count ys
      if round.2 then
        round.1
      else
        round.1 ++ emitRounds arrange limit (i + 1) (count + round.1.length) ys rounds

/-- A round emits elements of the list. -/
theorem mem_of_mem_emit {leave : Nat → Bool} {count : Nat} {xs : List α} {row : α × Nat}
    (h : row ∈ (emit leave count xs).1) : row.1 ∈ xs := by
  induction xs generalizing count with
  | nil => cases h
  | cons x xs ih =>
      rw [emit] at h
      split at h
      · rw [List.mem_singleton.mp h]
        exact List.mem_cons_self
      · rcases List.mem_cons.mp h with rfl | h
        · exact List.mem_cons_self
        · exact List.mem_cons_of_mem _ (ih h)

/-- A round that is never left emits the list. -/
theorem length_emit_of_never {leave : Nat → Bool} (h : ∀ count, leave count = false)
    (count : Nat) (xs : List α) :
    (emit leave count xs).1.length = xs.length ∧ (emit leave count xs).2 = false := by
  induction xs generalizing count with
  | nil => exact ⟨rfl, rfl⟩
  | cons x xs ih =>
      rcases ih (count + 1) with ⟨hlength, hleft⟩
      rw [emit, h]
      exact ⟨congrArg (· + 1) hlength, hleft⟩

/-- What one round with a limit emits: the whole list below the limit, and otherwise as much
as is missing to it, but at least one element. -/
theorem length_emit {limit : Nat} {leave : Nat → Bool}
    (h : ∀ count, leave count = decide (limit ≤ count)) (count : Nat) {xs : List α}
    (hxs : xs ≠ []) :
    (emit leave count xs).1.length = min xs.length (max 1 (limit - count)) ∧
      ((emit leave count xs).2 = true ↔ limit ≤ count + xs.length) := by
  induction xs generalizing count with
  | nil => contradiction
  | cons x xs ih =>
      rw [emit, h, List.length_cons]
      by_cases hlimit : limit ≤ count + 1
      · rw [if_pos (decide_eq_true hlimit), List.length_singleton]
        exact ⟨by omega, iff_of_true rfl (by omega)⟩
      · rw [if_neg (by simpa using hlimit), List.length_cons]
        cases xs with
        | nil =>
            have hnil : (emit leave (count + 1) ([] : List α)).1.length = 0 := rfl
            have hlast : (emit leave (count + 1) ([] : List α)).2 = false := rfl
            rw [hnil, hlast, List.length_nil]
            exact ⟨by omega, iff_of_false (by simp) (by omega)⟩
        | cons y ys =>
            rcases ih (count + 1) (by simp) with ⟨hlength, hleft⟩
            rw [List.length_cons] at hlength hleft ⊢
            rw [hlength, hleft]
            exact ⟨by omega, by omega⟩

section Arrange

variable {arrange : Nat → List α → List α} (harrange : ∀ i xs, (arrange i xs).Perm xs)

include harrange in
theorem arrange_ne_nil {xs : List α} (hxs : xs ≠ []) (i : Nat) : arrange i xs ≠ [] :=
  fun h => hxs (h ▸ harrange i xs).nil_eq.symm

include harrange in
/-- What a round behind the first emits. -/
theorem length_emit_arrange (limit : Nat) {i : Nat} (hi : i ≠ 0) (count : Nat) {xs : List α}
    (hxs : xs ≠ []) :
    (emit (fun count => decide (limit ≤ count) && decide (i ≠ 0)) count
        (arrange i xs)).1.length = min xs.length (max 1 (limit - count)) ∧
      ((emit (fun count => decide (limit ≤ count) && decide (i ≠ 0)) count
        (arrange i xs)).2 = true ↔ limit ≤ count + xs.length) := by
  have hround := @length_emit _ limit
    (fun count => decide (limit ≤ count) && decide (i ≠ 0)) (by simp [hi]) count _
    (arrange_ne_nil harrange hxs i)
  rwa [(harrange i xs).length_eq] at hround

include harrange in
/-- What the rounds behind the first emit. -/
theorem length_emitRounds (limit : Nat) {i : Nat} (hi : i ≠ 0) (count : Nat) {xs : List α}
    (hxs : xs ≠ []) (rounds : Nat) :
    (emitRounds arrange limit i count xs (rounds + 1)).length =
      if limit ≤ count then 1 else min ((rounds + 1) * xs.length) (limit - count) := by
  have hpos : 0 < xs.length := List.length_pos_iff.mpr hxs
  induction rounds generalizing i count xs with
  | zero =>
      rcases length_emit_arrange harrange limit hi count hxs with ⟨hlength, hleft⟩
      rw [emitRounds]
      split_ifs with hbroken hlimit hlimit
      · omega
      · rw [hlength]
        have hreached := hleft.mp hbroken
        omega
      · have hreached : ¬ limit ≤ count + xs.length := fun h => hbroken (hleft.mpr h)
        omega
      · have hreached : ¬ limit ≤ count + xs.length := fun h => hbroken (hleft.mpr h)
        rw [emitRounds, List.append_nil, hlength]
        omega
  | succ rounds ih =>
      rcases length_emit_arrange harrange limit hi count hxs with ⟨hlength, hleft⟩
      rw [emitRounds]
      by_cases hbroken : limit ≤ count + xs.length
      · rw [if_pos (hleft.mpr hbroken), hlength]
        split_ifs with hlimit
        · omega
        · have hle : xs.length ≤ (rounds + 1 + 1) * xs.length := Nat.le_mul_of_pos_left _ (by omega)
          omega
      · rw [if_neg fun h => hbroken (hleft.mp h), if_neg (by omega), List.length_append]
        have hys := arrange_ne_nil harrange hxs i
        have hrest := ih (Nat.succ_ne_zero i) (count + xs.length) hys
          (List.length_pos_iff.mpr hys)
        have hfull : min xs.length (max 1 (limit - count)) = xs.length := by omega
        rw [hlength, hfull, hrest, if_neg hbroken, (harrange i xs).length_eq,
          Nat.succ_mul (rounds + 1)]
        omega

include harrange in
/-- A list shorter than the limit is repeated up to the limit, and a longer one is followed
by one more element. -/
theorem length_emitRounds_zero (limit : Nat) {xs : List α} (hxs : xs ≠ []) (rounds : Nat) :
    (emitRounds arrange limit 0 0 xs (rounds + 2)).length =
      if limit ≤ xs.length then xs.length + 1 else min ((rounds + 2) * xs.length) limit := by
  have hys := arrange_ne_nil harrange hxs 0
  have hfirst := @length_emit_of_never α
    (fun count => decide (limit ≤ count) && decide (0 ≠ 0)) (by simp) 0 (arrange 0 xs)
  have hlength := (harrange 0 xs).length_eq
  rw [emitRounds]
  rw [if_neg (by rw [hfirst.2]; simp), List.length_append, hfirst.1, Nat.zero_add,
    length_emitRounds harrange limit (by simp) _ hys, hlength, Nat.succ_mul (rounds + 1),
    Nat.zero_add]
  by_cases hlimit : limit ≤ xs.length
  · rw [if_pos hlimit, if_pos hlimit]
  · rw [if_neg hlimit, if_neg hlimit]
    omega

include harrange in
/-- The rounds emit elements of the list. -/
theorem mem_of_mem_emitRounds {limit i count : Nat} {xs : List α} {rounds : Nat} {row : α × Nat}
    (h : row ∈ emitRounds arrange limit i count xs rounds) : row.1 ∈ xs := by
  induction rounds generalizing i count xs with
  | zero => cases h
  | succ rounds ih =>
      rw [emitRounds] at h
      split at h
      · exact (harrange i xs).subset (mem_of_mem_emit h)
      · rcases List.mem_append.mp h with h | h
        · exact (harrange i xs).subset (mem_of_mem_emit h)
        · exact (harrange i xs).subset (ih h)

end Arrange

end Rounds
end Library
end TestAio
