import Mathlib.Data.List.Nodup
import Mathlib.Data.List.Infix

/-!
# Numbering by first occurrence

A reader numbers the names it meets: a known name keeps its number, a new one gets
the next.  The names in order of their numbers are a list without repetitions that
only ever grows at its end, so a number once given stays right.

Main results:

- Theorem {lit}`nodup_insertNew`: no name is numbered twice.
- Theorem {lit}`rank_eq_of_isPrefix`: later names leave the earlier numbers alone.
- Theorem {lit}`getElem?_rank`: a number leads back to its name.
- Theorem {lit}`CountsUp.again`, {lit}`CountsUp.next`: numbers that are given in order stay in
  order.

Current gaps:

- None.
-/

namespace TestAio
namespace Library
namespace Numbering

variable {α : Type} [DecidableEq α]

/-- Note a name, at the end when it is new. -/
def insertNew (names : List α) (name : α) : List α :=
  if name ∈ names then names else names ++ [name]

/-- Note a sequence of names. -/
def collect (names : List α) (read : List α) : List α :=
  read.foldl insertNew names

/-- The number of a name. -/
def rank (names : List α) (name : α) : Nat :=
  names.idxOf name + 1

@[simp]
theorem collect_nil (names : List α) : collect names [] = names :=
  rfl

@[simp]
theorem collect_cons (names : List α) (name : α) (read : List α) :
    collect names (name :: read) = collect (insertNew names name) read :=
  rfl

/-- The names of two texts are collected one after the other. -/
theorem collect_append (names read₁ read₂ : List α) :
    collect names (read₁ ++ read₂) = collect (collect names read₁) read₂ := by
  simp [collect]

/-- A name that is inserted is there. -/
theorem mem_insertNew_self (names : List α) (name : α) : name ∈ insertNew names name := by
  unfold insertNew
  split_ifs with h
  · exact h
  · simp

/-- Inserting adds at most the one name. -/
theorem mem_insertNew {names : List α} {name other : α} :
    other ∈ insertNew names name ↔ other ∈ names ∨ other = name := by
  unfold insertNew
  split_ifs with h
  · exact ⟨Or.inl, fun hor => hor.elim id fun heq => heq ▸ h⟩
  · rw [List.mem_append, List.mem_singleton]

/-- The names that were there keep their places. -/
theorem isPrefix_insertNew (names : List α) (name : α) : names <+: insertNew names name := by
  unfold insertNew
  split_ifs
  · exact List.prefix_refl _
  · exact List.prefix_append _ _

/-- No name comes twice. -/
theorem nodup_insertNew {names : List α} (h : names.Nodup) (name : α) :
    (insertNew names name).Nodup := by
  unfold insertNew
  split_ifs with hmem
  · exact h
  · rw [List.nodup_append]
    refine ⟨h, List.nodup_singleton _, ?_⟩
    intro a ha b hb hab
    rw [List.mem_singleton] at hb
    subst hb
    subst hab
    exact hmem ha

/-- The names that were there keep their places. -/
theorem isPrefix_collect (names read : List α) : names <+: collect names read := by
  induction read generalizing names with
  | nil => exact List.prefix_refl _
  | cons name read ih => exact (isPrefix_insertNew names name).trans (ih _)

/-- Every name of the sequence is noted. -/
theorem mem_collect {names read : List α} {name : α} (h : name ∈ read) :
    name ∈ collect names read := by
  induction read generalizing names with
  | nil => simp at h
  | cons first read ih =>
      rcases List.mem_cons.mp h with rfl | h
      · rw [collect_cons]
        exact (isPrefix_collect _ _).subset (mem_insertNew_self _ _)
      · exact ih h

/-- The collected names are the ones that were there and the ones that were read. -/
theorem mem_collect_iff {names read : List α} {name : α} :
    name ∈ collect names read ↔ name ∈ names ∨ name ∈ read := by
  induction read generalizing names with
  | nil => simp
  | cons first read ih => rw [collect_cons, ih, mem_insertNew, List.mem_cons, or_assoc]

/-- Known names are not noted again. -/
theorem collect_of_known {names read : List α} (h : ∀ name ∈ read, name ∈ names) :
    collect names read = names := by
  induction read with
  | nil => rfl
  | cons name read ih =>
      rw [collect_cons, insertNew, if_pos (h name List.mem_cons_self)]
      exact ih fun other hother => h other (List.mem_cons_of_mem _ hother)

/-- Reading a text again adds no names. -/
theorem collect_collect (names read : List α) :
    collect (collect names read) read = collect names read :=
  collect_of_known fun _ => mem_collect

/-- Names noted later leave the number of a known name alone. -/
theorem rank_eq_of_isPrefix {names more : List α} (h : names <+: more) {name : α}
    (hmem : name ∈ names) : rank more name = rank names name := by
  rcases h with ⟨new, rfl⟩
  unfold rank
  rw [List.idxOf_append_of_mem hmem]

/-- The number of a name is given by its position. -/
theorem rank_of_getElem? {names : List α} (h : names.Nodup) {name : α} {n : Nat}
    (hn : names[n]? = some name) : rank names name = n + 1 := by
  rcases List.getElem?_eq_some_iff.mp hn with ⟨hlt, heq⟩
  rw [rank, ← heq, h.idxOf_getElem n hlt]

/-- A new name gets the next number. -/
theorem rank_insertNew_of_not_mem {names : List α} {name : α} (h : name ∉ names) :
    rank (insertNew names name) name = names.length + 1 := by
  rw [insertNew, if_neg h, rank, List.idxOf_append_of_notMem h]
  simp

/-- Entries that are told apart by their names are noted like their names. -/
theorem map_insertNew {β : Type} [DecidableEq β] (f : β → α) {entries : List β} {entry : β}
    (h : ∀ other ∈ entries, f other = f entry → other = entry) :
    (insertNew entries entry).map f = insertNew (entries.map f) (f entry) := by
  have hmem : f entry ∈ entries.map f ↔ entry ∈ entries := by
    constructor
    · intro hname
      rcases List.mem_map.mp hname with ⟨other, hother, heq⟩
      rw [← h other hother heq]
      exact hother
    · exact List.mem_map_of_mem
  unfold insertNew
  by_cases hentry : entry ∈ entries
  · rw [if_pos hentry, if_pos (hmem.mpr hentry)]
  · rw [if_neg hentry, if_neg fun hname => hentry (hmem.mp hname), List.map_append,
      List.map_singleton]

/-- A number leads back to its name. -/
theorem getElem?_rank {names : List α} {name : α} (h : name ∈ names) :
    names[rank names name - 1]? = some name := by
  unfold rank
  rw [Nat.add_sub_cancel, List.getElem?_eq_getElem (List.idxOf_lt_length_iff.mpr h),
    List.getElem_idxOf]

/-! ## Numbers in the order they are given -/

/-- The numbers up to {lit}`n` have been given in order, and some of them again. -/
structure CountsUp (n : Nat) (given : List Nat) : Prop where
  range : ∀ k ∈ given, 1 ≤ k ∧ k ≤ n
  emitted : ∀ k, 1 ≤ k → k ≤ n → k ∈ given
  ordered : ∀ j k, 1 ≤ j → j < k → k ≤ n → given.idxOf j < given.idxOf k

/-- No numbers at all count up. -/
theorem CountsUp.nil : CountsUp 0 [] where
  range := by simp
  emitted := by omega
  ordered := by omega

/-- A number may be given again. -/
theorem CountsUp.again {n k : Nat} {given : List Nat} (h : CountsUp n given) (hk : 1 ≤ k)
    (hkn : k ≤ n) : CountsUp n (given ++ [k]) where
  range := by
    intro j hj
    rcases List.mem_append.mp hj with hj | hj
    · exact h.range j hj
    · rw [List.mem_singleton.mp hj]
      exact ⟨hk, hkn⟩
  emitted := fun j hj hjn => List.mem_append_left _ (h.emitted j hj hjn)
  ordered := by
    intro i j hi hij hjn
    have hlt := h.ordered i j hi hij hjn
    rwa [List.idxOf_append_of_mem (h.emitted i hi (by omega)),
      List.idxOf_append_of_mem (h.emitted j (by omega) hjn)]

/-- The next number may be given. -/
theorem CountsUp.next {n : Nat} {given : List Nat} (h : CountsUp n given) :
    CountsUp (n + 1) (given ++ [n + 1]) where
  range := by
    intro j hj
    rcases List.mem_append.mp hj with hj | hj
    · have hrange := h.range j hj
      omega
    · rw [List.mem_singleton.mp hj]
      omega
  emitted := by
    intro j hj hjn
    by_cases hlast : j = n + 1
    · rw [hlast]
      exact List.mem_append_right _ List.mem_cons_self
    · exact List.mem_append_left _ (h.emitted j hj (by omega))
  ordered := by
    intro i j hi hij hjn
    have hmem := h.emitted i hi (by omega)
    rw [List.idxOf_append_of_mem hmem]
    by_cases hlast : j = n + 1
    · -- The new number stands behind everything that was given.
      have hnew : j ∉ given := fun hj => absurd (h.range j hj).2 (by omega)
      rw [List.idxOf_append_of_notMem hnew]
      exact Nat.lt_add_right _ (List.idxOf_lt_length_iff.mpr hmem)
    · rw [List.idxOf_append_of_mem (h.emitted j (by omega) (by omega))]
      exact h.ordered i j hi hij (by omega)

end Numbering
end Library
end TestAio
