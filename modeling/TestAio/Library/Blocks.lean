import Mathlib.Algebra.Ring.Nat
import Mathlib.Data.List.Chain

/-!
# Memory cut into blocks

A heap is cut into blocks without gaps between them.  Each block is in use or free and starts
with a header.  A block is taken from the first free one that has room for it, and a block
that is given back is joined with its free neighbours.

Main results:

- Theorem {lit}`placed_disjoint`: the blocks of a heap do not overlap.
- Theorems {lit}`coalesced_carve`, {lit}`coalesced_release` and {lit}`coalesced_shrink`: no
  two neighbours are free after each operation.
- Theorem {lit}`firstFit_eq_none_iff`: a search fails exactly when no free block has room.
- Theorem {lit}`eq_singleton_of_unused`: with nothing in use there is one block only.

Current gaps:

- None.
-/

namespace TestAio
namespace Library
namespace Blocks

/-- A block with its header. -/
@[ext]
structure Block where
  size : Nat
  used : Bool
deriving DecidableEq

/-- The length of a heap. -/
def total (blocks : List Block) : Nat :=
  (blocks.map Block.size).sum

/-- The blocks with the offsets they start at. -/
def placed : Nat → List Block → List (Nat × Block)
  | _, [] => []
  | offset, block :: rest => (offset, block) :: placed (offset + block.size) rest

/-- No two neighbours are free. -/
def Coalesced (blocks : List Block) : Prop :=
  blocks.IsChain fun a b => a.used = true ∨ b.used = true

/-- Where the lowest free block starts, or the end of the heap. -/
def firstFree : List Block → Nat
  | [] => 0
  | block :: rest => if block.used then block.size + firstFree rest else 0

/-- The length of the blocks in use. -/
def usedSize (blocks : List Block) : Nat :=
  total (blocks.filter Block.used)

/-- The blocks in front of the first free one of at least a size, the block and the ones
behind it. -/
def firstFit (size : Nat) : List Block → Option (List Block × Block × List Block)
  | [] => none
  | block :: rest =>
      if block.used = false ∧ size ≤ block.size then
        some ([], block, rest)
      else
        (firstFit size rest).map fun found => (block :: found.1, found.2)

/-- A free block is taken, cut in two when what is left is long enough. -/
def carve (least size : Nat) (block : Block) : List Block :=
  if size + least ≤ block.size then
    [⟨size, true⟩, ⟨block.size - size, false⟩]
  else
    [⟨block.size, true⟩]

/-- A free block takes in a free block behind it. -/
def joinNext (size : Nat) : List Block → List Block
  | [] => [⟨size, false⟩]
  | next :: rest =>
      if next.used then
        ⟨size, false⟩ :: next :: rest
      else
        ⟨size + next.size, false⟩ :: rest

/-- Blocks that start with a free one, behind other blocks, the last of which takes it in when
it is free too. -/
def joinPrev (before : List Block) : List Block → List Block
  | [] => before
  | block :: rest =>
      match before.getLast? with
      | some last =>
          if last.used then
            before ++ block :: rest
          else
            before.dropLast ++ ⟨last.size + block.size, false⟩ :: rest
      | none => block :: rest

/-- A block of a size between others is given back. -/
def release (before : List Block) (size : Nat) (after : List Block) : List Block :=
  joinPrev before (joinNext size after)

/-! ## Lengths and offsets -/

@[simp]
theorem total_nil : total [] = 0 :=
  rfl

@[simp]
theorem total_cons (block : Block) (rest : List Block) :
    total (block :: rest) = block.size + total rest := by
  rw [total, List.map_cons, List.sum_cons, total]

@[simp]
theorem total_append (xs ys : List Block) : total (xs ++ ys) = total xs + total ys := by
  rw [total, List.map_append, List.sum_append, total, total]

@[simp]
theorem usedSize_nil : usedSize [] = 0 :=
  rfl

/-- The first block counts when it is used. -/
theorem usedSize_cons (block : Block) (rest : List Block) :
    usedSize (block :: rest) = (if block.used then block.size else 0) + usedSize rest := by
  unfold usedSize
  by_cases hused : block.used
  · rw [List.filter_cons_of_pos hused, total_cons, if_pos hused]
  · rw [List.filter_cons_of_neg hused, if_neg hused, Nat.zero_add]

/-- The sizes in use of two lists add up. -/
theorem usedSize_append (xs ys : List Block) :
    usedSize (xs ++ ys) = usedSize xs + usedSize ys := by
  rw [usedSize, List.filter_append, total_append, usedSize, usedSize]

/-- A block is no larger than all of them. -/
theorem size_le_total {blocks : List Block} {block : Block} (h : block ∈ blocks) :
    block.size ≤ total blocks := by
  rcases List.append_of_mem h with ⟨before, after, rfl⟩
  rw [total_append, total_cons]
  omega

/-- Blocks that are not empty are no more than their sizes. -/
theorem length_le_total {blocks : List Block} (h : ∀ block ∈ blocks, 0 < block.size) :
    blocks.length ≤ total blocks := by
  induction blocks with
  | nil => exact Nat.le_refl 0
  | cons block rest ih =>
      have hblock := h block List.mem_cons_self
      have hrest := ih fun b hb => h b (List.mem_cons_of_mem _ hb)
      rw [List.length_cons, total_cons]
      omega

/-- Blocks behind blocks are placed where the first ones end. -/
theorem placed_append (offset : Nat) (xs ys : List Block) :
    placed offset (xs ++ ys) = placed offset xs ++ placed (offset + total xs) ys := by
  induction xs generalizing offset with
  | nil => rfl
  | cons block rest ih =>
      rw [List.cons_append, placed, ih, placed, List.cons_append, total_cons, Nat.add_assoc]

/-- A block is placed behind all that are before it. -/
theorem mem_placed_iff {offset : Nat} {blocks : List Block} {entry : Nat × Block} :
    entry ∈ placed offset blocks ↔
      ∃ before after, blocks = before ++ entry.2 :: after ∧ entry.1 = offset + total before := by
  induction blocks generalizing offset with
  | nil => simp [placed]
  | cons block rest ih =>
      rw [placed, List.mem_cons, ih]
      constructor
      · rintro (rfl | ⟨before, after, hrest, hoffset⟩)
        · exact ⟨[], rest, rfl, rfl⟩
        · exact ⟨block :: before, after, by rw [hrest, List.cons_append], by
            rw [total_cons, hoffset, Nat.add_assoc]⟩
      · rintro ⟨before, after, hblocks, hoffset⟩
        cases before with
        | nil =>
            rw [List.nil_append, List.cons.injEq] at hblocks
            exact .inl (Prod.ext hoffset hblocks.1.symm)
        | cons b before =>
            rw [List.cons_append, List.cons.injEq] at hblocks
            rw [total_cons, ← hblocks.1, ← Nat.add_assoc] at hoffset
            exact .inr ⟨before, after, hblocks.2, hoffset⟩

/-- A placed block lies within the stretch. -/
theorem le_of_mem_placed {offset : Nat} {blocks : List Block} {entry : Nat × Block}
    (h : entry ∈ placed offset blocks) :
    offset ≤ entry.1 ∧ entry.1 + entry.2.size ≤ offset + total blocks := by
  rcases mem_placed_iff.mp h with ⟨before, after, hblocks, hoffset⟩
  rw [hblocks, total_append, total_cons]
  omega

/-- Each block ends where the ones behind it start, or in front of it. -/
theorem placed_disjoint (offset : Nat) (blocks : List Block) :
    (placed offset blocks).Pairwise fun a b => a.1 + a.2.size ≤ b.1 := by
  induction blocks generalizing offset with
  | nil => exact .nil
  | cons block rest ih =>
      refine .cons ?_ (ih _)
      intro entry hmem
      exact (le_of_mem_placed hmem).1

/-- Two blocks of a heap are one block, or one ends where the other starts or in front of
it. -/
theorem disjoint_of_mem_placed {offset : Nat} {blocks : List Block} {a b : Nat × Block}
    (ha : a ∈ placed offset blocks) (hb : b ∈ placed offset blocks) :
    a = b ∨ a.1 + a.2.size ≤ b.1 ∨ b.1 + b.2.size ≤ a.1 := by
  induction blocks generalizing offset with
  | nil => cases ha
  | cons block rest ih =>
      rw [placed, List.mem_cons] at ha hb
      rcases ha with rfl | ha
      · rcases hb with rfl | hb
        · exact .inl rfl
        · exact .inr (.inl (le_of_mem_placed hb).1)
      · rcases hb with rfl | hb
        · exact .inr (.inr (le_of_mem_placed ha).1)
        · exact ih ha hb

/-! ## The blocks in use after an operation -/

/-- Joining the next block leaves the used ones where they are. -/
theorem mem_placed_joinNext {offset place length size : Nat} {after : List Block} :
    (place, ⟨length, true⟩) ∈ placed offset (joinNext size after) ↔
      (place, ⟨length, true⟩) ∈ placed (offset + size) after := by
  cases after with
  | nil => simp [joinNext, placed]
  | cons next rest =>
      rw [joinNext]
      split
      · simp [placed]
      · rename_i hfree
        rw [Bool.not_eq_true] at hfree
        simp [placed, Block.ext_iff, hfree, Nat.add_assoc]

/-- Joining the block before leaves the used ones where they are. -/
theorem mem_placed_joinPrev {offset place length size : Nat} {before rest : List Block} :
    (place, ⟨length, true⟩) ∈ placed offset (joinPrev before (⟨size, false⟩ :: rest)) ↔
      (place, ⟨length, true⟩) ∈ placed offset before ∨
        (place, ⟨length, true⟩) ∈ placed (offset + total before + size) rest := by
  rw [joinPrev]
  split
  · rename_i last hlast
    split
    · simp [placed, placed_append]
    · rename_i hfree
      rw [Bool.not_eq_true] at hfree
      have hsplit := List.dropLast_append_getLast? last hlast
      rw [← hsplit]
      simp [placed, placed_append, Block.ext_iff, hfree, Nat.add_assoc]
  · rename_i hlast
    rw [List.getLast?_eq_none_iff.mp hlast]
    simp [placed]

/-- Carving adds one used block and leaves the others where they are. -/
theorem mem_placed_carve {least size length start count : Nat} {before after : List Block}
    (hsize : size ≤ length) :
    (start, ⟨count, true⟩) ∈ placed 0 (before ++ carve least size ⟨length, false⟩ ++ after) ↔
      (start, ⟨count, true⟩) ∈ placed 0 (before ++ ⟨length, false⟩ :: after) ∨
        start = total before ∧ count = if size + least ≤ length then size else length := by
  unfold carve
  simp only
  split
  · have hcut : total before + (size + (length - size)) = total before + length := by omega
    simp only [placed_append, placed, List.mem_append, List.mem_cons, total_append, total_cons,
      total_nil, Nat.add_zero, Nat.zero_add, hcut]
    simp
    tauto
  · simp only [placed_append, placed, List.mem_append, List.mem_cons, total_append, total_cons,
      total_nil, Nat.add_zero, Nat.zero_add]
    simp
    tauto

/-- A block that is not in use any more is not one of the blocks in use. -/
theorem mem_placed_unused {start length size : Nat} {before after : List Block}
    (hpos : ∀ block ∈ before ++ ⟨size, true⟩ :: after, 0 < block.size) :
    (start, ⟨length, true⟩) ∈ placed 0 (before ++ ⟨size, false⟩ :: after) ↔
      (start, ⟨length, true⟩) ∈ placed 0 (before ++ ⟨size, true⟩ :: after) ∧
        start ≠ total before := by
  have hsize : 0 < size := hpos ⟨size, true⟩ (by simp)
  simp only [placed_append, placed, List.mem_append, List.mem_cons, Nat.zero_add]
  constructor
  · rintro (hmem | hmem | hmem)
    · rcases mem_placed_iff.mp hmem with ⟨front, back, hbefore, hstart⟩
      have hlength := hpos ⟨length, true⟩ (by simp [hbefore])
      have hin := (le_of_mem_placed hmem).2
      simp only at hin hlength
      exact ⟨.inl hmem, by omega⟩
    · cases hmem
    · have hin := (le_of_mem_placed hmem).1
      simp only at hin
      exact ⟨.inr (.inr hmem), by omega⟩
  · rintro ⟨hmem | hmem | hmem, hstart⟩
    · exact .inl hmem
    · exact absurd (congrArg Prod.fst hmem) hstart
    · exact .inr (.inr hmem)

/-! ## The lowest free block -/

/-- The first free block is behind blocks that are all used. -/
theorem firstFree_append {before : List Block} (h : ∀ block ∈ before, block.used = true)
    (rest : List Block) : firstFree (before ++ rest) = total before + firstFree rest := by
  induction before with
  | nil => rw [List.nil_append, total_nil, Nat.zero_add]
  | cons block before ih =>
      rw [List.cons_append, firstFree, if_pos (h block List.mem_cons_self),
        ih fun b hb => h b (List.mem_cons_of_mem _ hb), total_cons, Nat.add_assoc]

/-- What stands behind a free block does not count. -/
theorem firstFree_append_free (before : List Block) (size size' : Nat) (rest rest' : List Block) :
    firstFree (before ++ ⟨size, false⟩ :: rest) =
      firstFree (before ++ ⟨size', false⟩ :: rest') := by
  induction before with
  | nil => rfl
  | cons block before ih => rw [List.cons_append, List.cons_append, firstFree, firstFree, ih]

/-- The first free block is no later than any free block. -/
theorem firstFree_append_le (before : List Block) (size : Nat) (rest : List Block) :
    firstFree (before ++ ⟨size, false⟩ :: rest) ≤ total before := by
  induction before with
  | nil => exact Nat.le_refl 0
  | cons block before ih =>
      rw [List.cons_append, firstFree, total_cons]
      split <;> omega

/-- A free block at the front is the first one. -/
theorem firstFree_free (size : Nat) (rest : List Block) :
    firstFree (⟨size, false⟩ :: rest) = 0 :=
  rfl

/-- A free block in front hides what stands behind. -/
theorem firstFree_append_of_free {before : List Block}
    (h : ¬ ∀ block ∈ before, block.used = true) (rest : List Block) :
    firstFree (before ++ rest) = firstFree before := by
  induction before with
  | nil => exact absurd (by simp) h
  | cons block before ih =>
      rw [List.cons_append, firstFree, firstFree]
      split
      · rename_i hused
        rw [ih]
        intro hall
        apply h
        intro b hb
        rcases List.mem_cons.mp hb with rfl | hb
        · exact hused
        · exact hall b hb
      · rfl

/-- Among blocks that are not all used the first free one starts before their end. -/
theorem firstFree_lt_total {before : List Block} (h : ¬ ∀ block ∈ before, block.used = true)
    (hpos : ∀ block ∈ before, 0 < block.size) : firstFree before < total before := by
  induction before with
  | nil => exact absurd (by simp) h
  | cons block before ih =>
      have hblock := hpos block List.mem_cons_self
      rw [firstFree, total_cons]
      split
      · rename_i hused
        have hrest := ih (fun hall => h fun b hb => by
          rcases List.mem_cons.mp hb with rfl | hb
          · exact hused
          · exact hall b hb) fun b hb => hpos b (List.mem_cons_of_mem _ hb)
        omega
      · omega

/-- A heap starts with blocks in use and goes on with a free one, if there is one. -/
theorem exists_lead (blocks : List Block) :
    ∃ lead rest, blocks = lead ++ rest ∧ (∀ block ∈ lead, block.used = true) ∧
      firstFree blocks = total lead ∧ ∀ block ∈ rest.head?, block.used = false := by
  induction blocks with
  | nil => exact ⟨[], [], rfl, by simp, rfl, by simp⟩
  | cons block rest ih =>
      by_cases hused : block.used = true
      · rcases ih with ⟨lead, tail, hrest, hlead, hfirst, htail⟩
        refine ⟨block :: lead, tail, by rw [hrest, List.cons_append], ?_, ?_, htail⟩
        · intro b hb
          rcases List.mem_cons.mp hb with rfl | hb
          · exact hused
          · exact hlead b hb
        · rw [firstFree, if_pos hused, hfirst, total_cons]
      · refine ⟨[], block :: rest, rfl, by simp, ?_, ?_⟩
        · rw [firstFree, if_neg hused, total_nil]
        · intro b hb
          rw [List.head?_cons, Option.mem_some_iff] at hb
          rw [← hb]
          simpa using hused

/-- A block becomes the lowest free one when it starts in front of it. -/
theorem firstFree_insert (before : List Block) (block : Block) (hused : block.used = true)
    (hpos : 0 < block.size) (size : Nat) (after after' : List Block) :
    firstFree (before ++ ⟨size, false⟩ :: after') =
      if total before < firstFree (before ++ block :: after) then
        total before
      else
        firstFree (before ++ block :: after) := by
  induction before with
  | nil =>
      rw [List.nil_append, List.nil_append, firstFree_free, total_nil, firstFree, if_pos hused,
        if_pos (by omega)]
  | cons b before ih =>
      rw [List.cons_append, List.cons_append, firstFree, firstFree, total_cons]
      by_cases hb : b.used = true
      · rw [if_pos hb, if_pos hb, ih]
        split <;> split <;> omega
      · rw [if_neg hb, if_neg hb, if_neg (by omega)]

/-- Cutting a used block does not move the first free one. -/
theorem firstFree_cut_used (before : List Block) (size rest : Nat) (after : List Block) :
    firstFree (before ++ ⟨size, true⟩ :: ⟨rest, true⟩ :: after) =
      firstFree (before ++ ⟨size + rest, true⟩ :: after) := by
  induction before with
  | nil => simp [firstFree, Nat.add_assoc]
  | cons block before ih => rw [List.cons_append, List.cons_append, firstFree, firstFree, ih]

/-! ## Searching -/

/-- The first fit is free, large enough, and the first such block. -/
theorem firstFit_eq_some {size : Nat} {blocks before after : List Block} {block : Block}
    (h : firstFit size blocks = some (before, block, after)) :
    blocks = before ++ block :: after ∧ block.used = false ∧ size ≤ block.size ∧
      ∀ b ∈ before, b.used = false → b.size < size := by
  induction blocks generalizing before with
  | nil => cases h
  | cons b rest ih =>
      rw [firstFit] at h
      split at h
      · rename_i hfit
        cases h
        exact ⟨rfl, hfit.1, hfit.2, by simp⟩
      · rename_i hfit
        rcases Option.map_eq_some_iff.mp h with ⟨⟨before', block', after'⟩, hfound, heq⟩
        cases heq
        rcases ih hfound with ⟨hrest, hused, hsize, hbefore⟩
        refine ⟨by rw [hrest, List.cons_append], hused, hsize, ?_⟩
        intro c hc hfree
        rcases List.mem_cons.mp hc with rfl | hc
        · exact Nat.lt_of_not_le fun hle => hfit ⟨hfree, hle⟩
        · exact hbefore c hc hfree

/-- A search fails exactly when no free block has room. -/
theorem firstFit_eq_none_iff {size : Nat} {blocks : List Block} :
    firstFit size blocks = none ↔ ∀ b ∈ blocks, b.used = false → b.size < size := by
  induction blocks with
  | nil => simp [firstFit]
  | cons b rest ih =>
      rw [firstFit]
      split
      · rename_i hfit
        simp only [reduceCtorEq, false_iff]
        exact fun hall => Nat.not_lt.mpr hfit.2 (hall b List.mem_cons_self hfit.1)
      · rename_i hfit
        rw [Option.map_eq_none_iff, ih]
        constructor
        · intro hall c hc hfree
          rcases List.mem_cons.mp hc with rfl | hc
          · exact Nat.lt_of_not_le fun hle => hfit ⟨hfree, hle⟩
          · exact hall c hc hfree
        · exact fun hall c hc => hall c (List.mem_cons_of_mem _ hc)

/-- Blocks in use in front of a heap are passed over. -/
theorem firstFit_append {size : Nat} {lead : List Block}
    (h : ∀ block ∈ lead, block.used = true) (rest : List Block) :
    firstFit size (lead ++ rest) =
      (firstFit size rest).map fun found => (lead ++ found.1, found.2) := by
  induction lead with
  | nil => simp
  | cons b lead ih =>
      have hb : ¬ (b.used = false ∧ size ≤ b.size) := by
        rw [h b List.mem_cons_self]
        simp
      rw [List.cons_append, firstFit, if_neg hb,
        ih fun c hc => h c (List.mem_cons_of_mem _ hc), Option.map_map]
      rfl

/-! ## No free neighbours -/

/-- Two lists are coalesced when each one is and no two free blocks meet. -/
theorem coalesced_append_iff {xs ys : List Block} :
    Coalesced (xs ++ ys) ↔
      Coalesced xs ∧ Coalesced ys ∧
        ∀ a ∈ xs.getLast?, ∀ b ∈ ys.head?, a.used = true ∨ b.used = true :=
  List.isChain_append

/-- No two free blocks meet at the front. -/
theorem coalesced_cons_iff {block : Block} {rest : List Block} :
    Coalesced (block :: rest) ↔
      (∀ b ∈ rest.head?, block.used = true ∨ b.used = true) ∧ Coalesced rest :=
  List.isChain_cons

/-- Carving a free block leaves no two free blocks next to each other. -/
theorem coalesced_carve {before after : List Block} {block : Block} (least size : Nat)
    (h : Coalesced (before ++ block :: after)) (hfree : block.used = false) :
    Coalesced (before ++ carve least size block ++ after) := by
  rcases coalesced_append_iff.mp h with ⟨hbefore, hrest, hjoin⟩
  rcases coalesced_cons_iff.mp hrest with ⟨hnext, hafter⟩
  rw [hfree] at hnext
  rw [List.append_assoc, coalesced_append_iff]
  unfold carve
  split
  · refine ⟨hbefore, ?_, fun a ha b hb => .inr (by cases hb; rfl)⟩
    rw [List.cons_append, List.cons_append, List.nil_append, coalesced_cons_iff,
      coalesced_cons_iff]
    exact ⟨fun _ _ => .inl rfl, hnext, hafter⟩
  · refine ⟨hbefore, ?_, fun a ha b hb => .inr (by cases hb; rfl)⟩
    rw [List.cons_append, List.nil_append, coalesced_cons_iff]
    exact ⟨fun _ _ => .inl rfl, hafter⟩

/-- What is joined starts with a free block. -/
theorem head?_joinNext (size : Nat) (after : List Block) :
    ∃ joined rest, joinNext size after = ⟨joined, false⟩ :: rest := by
  cases after with
  | nil => exact ⟨size, [], rfl⟩
  | cons next rest =>
      rw [joinNext]
      split
      · exact ⟨_, _, rfl⟩
      · exact ⟨_, _, rfl⟩

/-- Joining the next block leaves no two free blocks next to each other. -/
theorem coalesced_joinNext {after : List Block} (size : Nat) (h : Coalesced after) :
    Coalesced (joinNext size after) := by
  cases after with
  | nil => exact .singleton _
  | cons next rest =>
      rw [joinNext]
      split
      · rename_i hused
        rw [coalesced_cons_iff]
        exact ⟨fun b hb => .inr (by cases hb; exact hused), h⟩
      · rename_i hused
        rcases coalesced_cons_iff.mp h with ⟨hnext, hrest⟩
        rw [coalesced_cons_iff]
        exact ⟨fun b hb => .inr ((hnext b hb).resolve_left hused), hrest⟩

/-- Joining the block before leaves no two free blocks next to each other. -/
theorem coalesced_joinPrev {before : List Block} {size : Nat} {rest : List Block}
    (hbefore : Coalesced before) (hrest : Coalesced (⟨size, false⟩ :: rest)) :
    Coalesced (joinPrev before (⟨size, false⟩ :: rest)) := by
  rw [joinPrev]
  split
  · rename_i last hlast
    have hsplit : before.dropLast ++ [last] = before :=
      List.dropLast_append_getLast? last hlast
    split
    · rename_i hused
      rw [coalesced_append_iff]
      refine ⟨hbefore, hrest, fun a ha b hb => .inl ?_⟩
      rw [hlast, Option.mem_some_iff] at ha
      exact ha ▸ hused
    · rename_i hused
      rw [← hsplit] at hbefore
      rcases coalesced_append_iff.mp hbefore with ⟨hlead, -, hjoin⟩
      rcases coalesced_cons_iff.mp hrest with ⟨hnext, htail⟩
      rw [coalesced_append_iff, coalesced_cons_iff]
      refine ⟨hlead, ⟨hnext, htail⟩, ?_⟩
      exact fun a ha b hb => .inl ((hjoin a ha last rfl).resolve_right hused)
  · exact hrest

/-- Releasing a block leaves no two free blocks next to each other. -/
theorem coalesced_release {before after : List Block} {block : Block} (size : Nat)
    (h : Coalesced (before ++ block :: after)) : Coalesced (release before size after) := by
  rcases coalesced_append_iff.mp h with ⟨hbefore, hrest, -⟩
  have hnext := coalesced_joinNext size (coalesced_cons_iff.mp hrest).2
  rcases head?_joinNext size after with ⟨joined, rest, hjoined⟩
  rw [release, hjoined]
  rw [hjoined] at hnext
  exact coalesced_joinPrev hbefore hnext

/-- A block in use is cut in two and the second part is given back. -/
theorem coalesced_shrink {before after : List Block} {block : Block} (size rest : Nat)
    (h : Coalesced (before ++ block :: after)) :
    Coalesced (before ++ ⟨size, true⟩ :: joinNext rest after) := by
  rcases coalesced_append_iff.mp h with ⟨hbefore, hrest, -⟩
  rw [coalesced_append_iff, coalesced_cons_iff]
  exact ⟨hbefore, ⟨fun _ _ => .inl rfl, coalesced_joinNext rest (coalesced_cons_iff.mp hrest).2⟩,
    fun a ha b hb => .inr (by cases hb; rfl)⟩

/-- Behind a used block only the next one is joined. -/
theorem release_append_used (before : List Block) (length size : Nat) (after : List Block) :
    release (before ++ [⟨length, true⟩]) size after =
      before ++ ⟨length, true⟩ :: joinNext size after := by
  rcases head?_joinNext size after with ⟨joined, rest, hjoined⟩
  simp [release, hjoined, joinPrev]

/-- A range that no block in use reaches into lies in one free block. -/
theorem exists_free_of_gap {offset low high : Nat} {blocks : List Block}
    (h : Coalesced blocks) (hlow : offset ≤ low) (hlt : low < high)
    (hhigh : high ≤ offset + total blocks)
    (hgap : ∀ start length, (start, ⟨length, true⟩) ∈ placed offset blocks →
      high ≤ start ∨ start + length ≤ low) :
    ∃ start length, (start, ⟨length, false⟩) ∈ placed offset blocks ∧ start ≤ low ∧
      high ≤ start + length := by
  induction blocks generalizing offset with
  | nil =>
      rw [total_nil] at hhigh
      omega
  | cons block rest ih =>
      rcases block with ⟨size, used⟩
      rcases coalesced_cons_iff.mp h with ⟨hnext, hrest⟩
      simp only [total_cons] at hhigh
      by_cases hbehind : offset + size ≤ low
      · rcases ih hrest hbehind (by omega) fun start length hmem =>
          hgap start length (List.mem_cons_of_mem _ hmem) with ⟨start, length, hmem, hin⟩
        exact ⟨start, length, List.mem_cons_of_mem _ hmem, hin⟩
      · cases used with
        | true =>
            have hhere := hgap offset size List.mem_cons_self
            omega
        | false =>
            refine ⟨offset, size, List.mem_cons_self, hlow, ?_⟩
            -- The block behind a free one is in use, so the range ends in front of it.
            cases rest with
            | nil =>
                rw [total_nil] at hhigh
                omega
            | cons next rest =>
                rcases next with ⟨size', used'⟩
                have hused := (hnext _ rfl).resolve_left Bool.false_ne_true
                simp only at hused
                subst hused
                have hbehind' := hgap (offset + size) size' (by simp [placed])
                omega

/-- With nothing in use there is one block only. -/
theorem eq_singleton_of_unused {blocks : List Block} (h : Coalesced blocks)
    (hne : blocks ≠ []) (hunused : ∀ block ∈ blocks, block.used = false) :
    blocks = [⟨total blocks, false⟩] := by
  cases blocks with
  | nil => exact absurd rfl hne
  | cons block rest =>
      have hblock := hunused block List.mem_cons_self
      cases rest with
      | nil =>
          rw [total_cons, total_nil, Nat.add_zero]
          exact congrArg (fun b => [b]) (by cases block; simp_all)
      | cons next rest =>
          rcases (coalesced_cons_iff.mp h).1 next rfl with hused | hused
          · rw [hblock] at hused
            cases hused
          · rw [hunused next (by simp)] at hused
            cases hused

/-! ## Lengths after an operation -/

/-- Joining the next block changes no size in use. -/
theorem usedSize_joinNext (size : Nat) (after : List Block) :
    usedSize (joinNext size after) = usedSize after := by
  cases after with
  | nil => rfl
  | cons next rest =>
      rw [joinNext]
      split
      · rw [usedSize_cons]
        simp
      · rename_i hused
        rw [usedSize_cons, usedSize_cons, if_neg hused]
        simp

/-- Joining the block before changes no size in use. -/
theorem usedSize_joinPrev {before : List Block} {size : Nat} {rest : List Block} :
    usedSize (joinPrev before (⟨size, false⟩ :: rest)) = usedSize before + usedSize rest := by
  rw [joinPrev]
  split
  · rename_i last hlast
    split
    · rw [usedSize_append, usedSize_cons]
      simp
    · rename_i hused
      have hsplit := congrArg usedSize (List.dropLast_append_getLast? last hlast)
      rw [usedSize_append, usedSize_cons, if_neg hused] at hsplit
      rw [usedSize_append, usedSize_cons]
      simp at hsplit ⊢
      omega
  · rename_i hlast
    rw [List.getLast?_eq_none_iff.mp hlast, usedSize_cons]
    simp

/-- Releasing a block takes its size from the size in use. -/
theorem usedSize_release (before : List Block) (size : Nat) (after : List Block) :
    usedSize (release before size after) = usedSize before + usedSize after := by
  have hnext := usedSize_joinNext size after
  rcases head?_joinNext size after with ⟨joined, rest, hjoined⟩
  rw [hjoined, usedSize_cons] at hnext
  rw [release, hjoined, usedSize_joinPrev, ← hnext]
  simp

end Blocks
end Library
end TestAio
