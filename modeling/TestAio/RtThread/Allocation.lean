import Mathlib.Algebra.Ring.Nat
import TestAio.Library.Allocator
import TestAio.RtThread.SmallMem

/-!
# Clients of the small memory manager

The heap of {lit}`src/mem.c` seen by the program that uses it: the blocks that it was handed
out and has not given back, with the words in them.

Main results:

- Theorem {lit}`play_refines`: any number of calls of a careful client on a fresh heap
  succeeds, without a failed assertion, and is answered as an allocator answers.
- Theorem {lit}`play_refuses_iff`: a request is refused exactly when no gap has room for it.
- Theorem {lit}`play_layout`: the blocks of a client are apart, aligned and accounted for.
- Theorem {lit}`play_gives_whole`: a client that gave everything back has the whole heap again.

Current gaps:

- A word is a cell at the offset of its first byte; the client stores whole words.
-/

namespace TestAio
namespace RtThread

open Library Library.Blocks Library.Allocator

namespace SmallMem

/-! ## The memory of a client -/

/-- The words of a block behind its header. -/
def payload (heap : Nat → Nat) (start length : Nat) : List Nat :=
  (List.range (length - 12)).map fun index => heap (start + 12 + index)

/-- The heap holds the memory of a client. -/
structure Holds (m : SmallMem) (memory : Memory Nat Nat) (blocks : List Block) : Prop where
  valid : Valid m blocks
  owned : ∀ start length, (start, ⟨length, true⟩) ∈ placed 0 blocks →
    memory (start + 12) = some (payload m.heap start length)
  only : ∀ ptr words, memory ptr = some words →
    ∃ start length, ptr = start + 12 ∧ (start, ⟨length, true⟩) ∈ placed 0 blocks

/-- A call of one of the functions, or an access of the program to a word. -/
def exec (m : SmallMem) : Call Nat Nat → Option (Reply Nat Nat × SmallMem)
  | .alloc size => (m.alloc size).map fun result => (.pointer result.1, result.2)
  | .free ptr => (m.free ptr).map fun result => (.done, result)
  | .realloc ptr size => (m.realloc ptr size).map fun result => (.pointer result.1, result.2)
  | .store ptr index word => some (.done, m.write (ptr + index) word)
  | .load ptr index => some (.word (m.heap (ptr + index)), m)

section Holds

variable {m m' : SmallMem} {memory : Memory Nat Nat} {blocks blocks' : List Block}

@[simp]
theorem length_payload (heap : Nat → Nat) (start length : Nat) :
    (payload heap start length).length = length - 12 := by
  rw [payload, List.length_map, List.length_range]

/-- The words of a block depend on its memory only. -/
theorem payload_congr {heap heap' : Nat → Nat} {start length : Nat}
    (h : ∀ place, start + 12 ≤ place → place < start + length → heap' place = heap place) :
    payload heap' start length = payload heap start length := by
  refine List.map_congr_left fun index hindex => ?_
  rw [List.mem_range] at hindex
  exact h _ (by omega) (by omega)

/-- A word of a block stands behind its header. -/
theorem getElem?_payload {heap : Nat → Nat} {start length index : Nat}
    (h : index < length - 12) :
    (payload heap start length)[index]? = some (heap (start + 12 + index)) := by
  rw [payload, List.getElem?_map, List.getElem?_range h, Option.map_some]

/-- A block gets a place or other words, and the other blocks stay. -/
theorem Holds.set {start length : Nat} (h : Holds m memory blocks) (hvalid : Valid m' blocks')
    (hblocks : ∀ other count, (other, ⟨count, true⟩) ∈ placed 0 blocks' ↔
      (other, ⟨count, true⟩) ∈ placed 0 blocks ∧ other ≠ start ∨ other = start ∧ count = length)
    (hwords : ∀ other count, (other, ⟨count, true⟩) ∈ placed 0 blocks → other ≠ start →
      ∀ place, other + 12 ≤ place → place < other + count → m'.heap place = m.heap place) :
    Holds m' (Function.update memory (start + 12) (some (payload m'.heap start length)))
      blocks' := by
  refine ⟨hvalid, ?_, ?_⟩
  · intro other count hmem
    rcases (hblocks other count).mp hmem with ⟨hold, hne⟩ | ⟨rfl, rfl⟩
    · rw [Function.update_of_ne (by omega), h.owned other count hold,
        payload_congr (hwords other count hold hne)]
    · rw [Function.update_self]
  · intro ptr words hptr
    by_cases hhere : ptr = start + 12
    · exact ⟨start, length, hhere, (hblocks start length).mpr (.inr ⟨rfl, rfl⟩)⟩
    · rw [Function.update_of_ne hhere] at hptr
      rcases h.only ptr words hptr with ⟨other, count, hother, hmem⟩
      exact ⟨other, count, hother, (hblocks other count).mpr (.inl ⟨hmem, by omega⟩)⟩

/-- A block is given back, and the other blocks stay. -/
theorem Holds.drop {start : Nat} (h : Holds m memory blocks) (hvalid : Valid m' blocks')
    (hblocks : ∀ other count, (other, ⟨count, true⟩) ∈ placed 0 blocks' ↔
      (other, ⟨count, true⟩) ∈ placed 0 blocks ∧ other ≠ start)
    (hwords : ∀ other count, (other, ⟨count, true⟩) ∈ placed 0 blocks → other ≠ start →
      ∀ place, other + 12 ≤ place → place < other + count → m'.heap place = m.heap place) :
    Holds m' (Function.update memory (start + 12) none) blocks' := by
  refine ⟨hvalid, ?_, ?_⟩
  · intro other count hmem
    rcases (hblocks other count).mp hmem with ⟨hold, hne⟩
    rw [Function.update_of_ne (by omega), h.owned other count hold,
      payload_congr (hwords other count hold hne)]
  · intro ptr words hptr
    by_cases hhere : ptr = start + 12
    · rw [hhere, Function.update_self] at hptr
      cases hptr
    · rw [Function.update_of_ne hhere] at hptr
      rcases h.only ptr words hptr with ⟨other, count, hother, hmem⟩
      exact ⟨other, count, hother, (hblocks other count).mpr ⟨hmem, by omega⟩⟩

/-- No block is empty. -/
theorem Holds.size_pos (h : Holds m memory blocks) : ∀ block ∈ blocks, 0 < block.size :=
  fun block hmem => Nat.zero_lt_of_lt (h.valid.laid.size block hmem).1

/-- A block in use is the only one that starts there. -/
theorem Holds.eq_of_start {start length length' : Nat} {used : Bool}
    (h : Holds m memory blocks) (hmem : (start, ⟨length, true⟩) ∈ placed 0 blocks)
    (hmem' : (start, ⟨length', used⟩) ∈ placed 0 blocks) : length = length' ∧ used = true := by
  rcases mem_placed_iff.mp hmem with ⟨before, after, hblocks, -⟩
  rcases mem_placed_iff.mp hmem' with ⟨before', after', hblocks', -⟩
  have hpos : 0 < length := h.size_pos ⟨length, true⟩ (by simp [hblocks])
  have hpos' : 0 < length' := h.size_pos ⟨length', used⟩ (by simp [hblocks'])
  rcases disjoint_of_mem_placed hmem hmem' with heq | hdisjoint
  · have hblock := congrArg Prod.snd heq
    rw [Block.mk.injEq] at hblock
    exact ⟨hblock.1, hblock.2.symm⟩
  · simp only at hdisjoint
    omega

/-- What a client owns is a block in use, in a heap that is cut there. -/
theorem Holds.exists_block {ptr : Nat} {words : List Nat} (h : Holds m memory blocks)
    (hptr : memory ptr = some words) :
    ∃ before length after, blocks = before ++ ⟨length, true⟩ :: after ∧
      ptr = total before + 12 ∧ words = payload m.heap (total before) length := by
  rcases h.only ptr words hptr with ⟨start, length, rfl, hmem⟩
  have hwords := h.owned start length hmem
  rcases mem_placed_iff.mp hmem with ⟨before, after, hblocks, hstart⟩
  simp only [Nat.zero_add] at hstart
  subst hstart
  rw [hptr, Option.some.injEq] at hwords
  exact ⟨before, length, after, hblocks, rfl, hwords⟩

/-! ## One call -/

/-- Words are written into a block. -/
theorem Valid.overwrite {before after : List Block} {length : Nat} {heap' : Nat → Nat}
    (h : Valid m (before ++ ⟨length, true⟩ :: after))
    (hsame : ∀ place, place < total before + 12 ∨ total before + length ≤ place →
      heap' place = m.heap place) :
    Valid { m with heap := heap' } (before ++ ⟨length, true⟩ :: after) := by
  have hsize : 12 < length ∧ length % 4 = 0 := h.laid.size ⟨length, true⟩ (by simp)
  have hitems := (items_append.mp h.laid.items).2
  rw [Nat.zero_add] at hitems
  rcases hitems with ⟨hmark, hnext, hprev, -⟩
  refine ⟨?_, h.coalesced, h.lfree_eq, h.used_eq, h.used_le, h.founded.congr rfl rfl rfl⟩
  have hold : Laid m.small_mem m.heap_end m.heap (before ++ [⟨length, true⟩] ++ after) := by
    rw [List.append_assoc]
    exact h.laid
  have hnew : Laid m.small_mem m.heap_end heap' (before ++ [⟨length, true⟩] ++ after) :=
    hold.exchange (by simp) ?_ ?_ rfl ?_ ?_
  · rw [List.append_assoc] at hnew
    exact hnew
  · intro place hplace
    simp only [total_cons, total_nil] at hplace
    exact hsame place (by omega)
  · refine ⟨?_, ?_, ?_, trivial⟩
    · rw [hsame _ (by omega)]
      exact hmark
    · rw [hsame _ (by omega)]
      exact hnext
    · rw [hsame _ (by omega)]
      exact hprev
  · intro hne
    rw [total_cons, total_nil, Nat.add_zero, hsame _ (by simp only; omega)]
    exact h.laid.back_eq hne
  · intro block hmem
    rw [List.mem_singleton] at hmem
    subst hmem
    exact hsize

/-- Writing into a block changes what the client owns there only. -/
theorem Holds.overwrite {before after : List Block} {length : Nat}
    (h : Holds m memory (before ++ ⟨length, true⟩ :: after)) (heap' : Nat → Nat)
    (hsame : ∀ place, place < total before + 12 ∨ total before + length ≤ place →
      heap' place = m.heap place) :
    Holds { m with heap := heap' } (Function.update memory (total before + 12)
      (some (payload heap' (total before) length))) (before ++ ⟨length, true⟩ :: after) := by
  have hhere : (total before, ⟨length, true⟩) ∈ placed 0 (before ++ ⟨length, true⟩ :: after) :=
    mem_placed_iff.mpr ⟨before, after, rfl, (Nat.zero_add _).symm⟩
  refine h.set (h.valid.overwrite hsame) ?_ ?_
  · intro other count
    constructor
    · intro hmem
      by_cases hother : other = total before
      · subst hother
        exact .inr ⟨rfl, (h.eq_of_start hmem hhere).1⟩
      · exact .inl ⟨hmem, hother⟩
    · rintro (⟨hmem, -⟩ | ⟨rfl, rfl⟩)
      · exact hmem
      · exact hhere
  · intro other count hmem hother place hlow hhigh
    rcases disjoint_of_mem_placed hmem hhere with heq | hdisjoint
    · exact absurd (congrArg Prod.fst heq) hother
    · simp only at hdisjoint
      exact hsame place (by omega)

/-- Giving a block back takes it from the client. -/
theorem Holds.free {ptr : Nat} {words : List Nat} (h : Holds m memory blocks)
    (hptr : memory ptr = some words) :
    ∃ m' blocks', m.free (some ptr) = some m' ∧
      Holds m' (Function.update memory ptr none) blocks' := by
  rcases h.exists_block hptr with ⟨before, length, after, rfl, rfl, -⟩
  rcases h.valid.free_spec with ⟨m', hfree, hvalid, hwords⟩
  refine ⟨m', _, hfree, h.drop hvalid ?_ ?_⟩
  · intro other count
    rw [mem_placed_release, mem_placed_unused h.size_pos]
  · intro other count hmem hother
    exact hwords other count ((mem_placed_unused h.size_pos).mpr ⟨hmem, hother⟩)

/-- A request is no smaller than what was asked for, aligned. -/
theorem align_le_request (size : Nat) : align size ≤ request size := by
  unfold request
  split <;> omega

/-- A request fails and changes nothing, or hands out a block that the client does not own and
that is long enough. -/
theorem Holds.alloc (h : Holds m memory blocks) (size : Nat) :
    m.alloc size = some (none, m) ∨
      ∃ ptr m' blocks' words, m.alloc size = some (some ptr, m') ∧ memory ptr = none ∧
        align size ≤ words.length ∧
        Holds m' (Function.update memory ptr (some words)) blocks' := by
  by_cases hzero : size = 0
  · exact .inl (if_pos hzero)
  cases hfit : firstFit (request size + 12) blocks with
  | none => exact .inl (h.valid.alloc_eq_none hzero hfit)
  | some found =>
      right
      rcases found with ⟨before, ⟨length, used⟩, after⟩
      rcases h.valid.alloc_spec hzero hfit with ⟨m', halloc, hvalid, hwords⟩
      rcases firstFit_eq_some hfit with ⟨rfl, hfree, hroom, -⟩
      simp only at hfree hroom
      subst hfree
      have hhere : (total before, ⟨length, false⟩) ∈
          placed 0 (before ++ ⟨length, false⟩ :: after) :=
        mem_placed_iff.mpr ⟨before, after, rfl, (Nat.zero_add _).symm⟩
      have hunused : ∀ count, (total before, ⟨count, true⟩) ∉
          placed 0 (before ++ ⟨length, false⟩ :: after) := fun count hmem =>
        Bool.false_ne_true (h.eq_of_start hmem hhere).2
      have halign := align_le_request size
      refine ⟨_, m', _, payload m'.heap (total before)
        (if request size + 12 + 24 ≤ length then request size + 12 else length),
        halloc, ?_, ?_, h.set hvalid ?_ ?_⟩
      · rw [sizeofStructMem]
        by_contra hsome
        rcases Option.ne_none_iff_exists'.mp hsome with ⟨words, hptr⟩
        rcases h.only _ words hptr with ⟨start, count, hstart, hmem⟩
        have heq : total before = start := by omega
        exact hunused count (heq ▸ hmem)
      · rw [length_payload]
        split <;> omega
      · intro other count
        rw [mem_placed_carve hroom]
        constructor
        · rintro (hmem | hnew)
          · refine .inl ⟨hmem, ?_⟩
            rintro rfl
            exact hunused count hmem
          · exact .inr hnew
        · rintro (⟨hmem, -⟩ | hnew)
          · exact .inl hmem
          · exact .inr hnew
      · exact fun other count hmem _ => hwords other count hmem

/-- What is aligned stays as it is. -/
theorem align_align (size : Nat) : align (align size) = align size := by
  unfold align
  omega

/-- Sizes that do not wrap are rounded up. -/
theorem le_align {size : Nat} (h : size < 2 ^ 32 - 3) : size ≤ align size := by
  unfold align
  omega

/-- Two lists with the same elements at the front have the same front. -/
theorem take_congr {words words' : List Nat} {count : Nat}
    (h : ∀ index, index < count → words[index]? = words'[index]?) :
    words.take count = words'.take count := by
  ext1 index
  rw [List.getElem?_take, List.getElem?_take]
  split
  · rename_i hindex
    exact h index hindex
  · rfl

/-- A block that gets much shorter keeps its place and the words that it still has. -/
theorem Holds.shrink {before after : List Block} {length size : Nat}
    (h : Holds m memory (before ++ ⟨length, true⟩ :: after)) (hpos : 0 < align size)
    (hroom : align size + 12 + 12 < length - 12) :
    ∃ m' blocks', m.realloc (some (total before + 12)) size = some (some (total before + 12), m') ∧
      Holds m' (Function.update memory (total before + 12)
        (some (payload m.heap (total before) (align size + 12)))) blocks' := by
  rcases h.valid.shrink_spec hpos hroom with ⟨m', hrealloc, hvalid, hwords⟩
  have hwhole : align size + 12 + (length - (align size + 12)) = length := by omega
  have hhere : (total before, ⟨align size + 12, true⟩) ∈
      placed 0 (before ++ ⟨align size + 12, true⟩ ::
        ⟨length - (align size + 12), false⟩ :: after) :=
    mem_placed_iff.mpr ⟨before, _, rfl, (Nat.zero_add _).symm⟩
  have hothers : ∀ other count, (other, ⟨count, true⟩) ∈ placed 0
        (before ++ ⟨align size + 12, true⟩ :: ⟨length - (align size + 12), false⟩ :: after) ↔
      (other, ⟨count, true⟩) ∈ placed 0 (before ++ ⟨length, true⟩ :: after) ∧
          other ≠ total before ∨
        other = total before ∧ count = align size + 12 := by
    intro other count
    rw [← mem_placed_unused h.size_pos]
    simp only [placed_append, placed, List.mem_append, List.mem_cons, Nat.zero_add,
      Nat.add_assoc, hwhole, Prod.mk.injEq, Block.mk.injEq]
    simp only [Bool.true_eq_false, and_false, and_true, false_or]
    tauto
  have hkept : payload m.heap (total before) (align size + 12) =
      payload m'.heap (total before) (align size + 12) :=
    (payload_congr (hwords _ _ hhere)).symm
  rw [hkept]
  refine ⟨m', _, hrealloc, h.set hvalid ?_ ?_⟩
  · intro other count
    rw [← hothers, List.append_cons, mem_placed_append_joinNext, ← List.append_cons]
  · intro other count hmem hother
    exact hwords other count ((hothers other count).mpr (.inl ⟨hmem, hother⟩))

/-- A block moves: a new one gets the words that both have room for, and the old one is given
back. -/
theorem Holds.moved {ptr ptr' : Nat} {words words' : List Nat} {m₁ : SmallMem}
    {blocks₁ : List Block} (hptr : memory ptr = some words) (hnew : memory ptr' = none)
    (h : Holds m₁ (Function.update memory ptr' (some words')) blocks₁) (count : Nat)
    (hcount : count ≤ words.length) (hroom : count ≤ words'.length) :
    ∃ m₂ blocks₂ moved, (m₁.memcpy ptr' ptr count).free (some ptr) = some m₂ ∧
      moved.length = words'.length ∧ moved.take count = words.take count ∧
      Holds m₂ (Function.update (Function.update memory ptr none) ptr' (some moved)) blocks₂ := by
  have hne : ptr ≠ ptr' := by
    rintro rfl
    rw [hptr] at hnew
    cases hnew
  have hold : Function.update memory ptr' (some words') ptr = some words := by
    rw [Function.update_of_ne hne, hptr]
  rcases h.exists_block hold with ⟨before, length, after, -, rfl, hwords⟩
  rcases h.exists_block (Function.update_self ptr' (some words') memory) with
    ⟨before', length', after', rfl, rfl, hwords'⟩
  rw [hwords, length_payload] at hcount
  rw [hwords', length_payload] at hroom
  have hcopied := h.overwrite (m₁.memcpy (total before' + 12) (total before + 12) count).heap
    fun place hplace => if_neg (by omega)
  rw [Function.update_idem] at hcopied
  have hold' : Function.update memory (total before' + 12) (some (payload (m₁.memcpy
      (total before' + 12) (total before + 12) count).heap (total before') length'))
      (total before + 12) = some words := by
    rw [Function.update_of_ne hne, hptr]
  rcases hcopied.free hold' with ⟨m₂, blocks₂, hfree, hend⟩
  rw [Function.update_comm (Ne.symm hne)] at hend
  refine ⟨m₂, blocks₂, _, hfree, ?_, ?_, hend⟩
  · rw [hwords', length_payload, length_payload]
  · rw [hwords]
    refine take_congr fun index hindex => ?_
    rw [getElem?_payload (by omega), getElem?_payload (by omega)]
    unfold memcpy
    simp only
    rw [if_pos (by omega), Nat.add_sub_cancel_left]

/-- A call to change the size of a block. -/
theorem Holds.realloc {ptr size : Nat} {words : List Nat} (h : Holds m memory blocks)
    (hptr : memory ptr = some words) (hsize : size < 2 ^ 32 - 3) :
    ∃ reply m' memory' blocks', m.realloc (some ptr) size = some (reply, m') ∧
      Step memory (.realloc (some ptr) size) (.pointer reply) memory' ∧
      Holds m' memory' blocks' := by
  have halign := le_align hsize
  by_cases hfit : m.mem_size_aligned < align size
  · have hpos : 0 < size := by
      unfold align at hfit
      omega
    exact ⟨none, m, memory, blocks, if_pos hfit, .reallocRefused memory (some ptr) hpos, h⟩
  by_cases hzero : align size = 0
  · have hsize_zero : size = 0 := by omega
    subst hsize_zero
    rcases h.free hptr with ⟨m', blocks', hfree, hend⟩
    refine ⟨none, m', _, blocks', ?_, .reallocNone memory ptr, hend⟩
    simp only [SmallMem.realloc, if_neg hfit, if_pos hzero, hfree, Option.map_some]
  have hpos : 0 < size := by
    unfold align at hzero
    omega
  rcases h.exists_block hptr with ⟨before, length, after, rfl, rfl, hwords⟩
  have hlength : 12 < length ∧ length % 4 = 0 := h.valid.laid.size ⟨length, true⟩ (by simp)
  have hmod := h.valid.laid.total_before_mod
  have hend := h.valid.laid.total_eq
  simp only [total_append, total_cons] at hend
  have hplace : (total before + 12) % 4 = 0 ∧ total before + 12 < m.heap_end :=
    ⟨by omega, by omega⟩
  have hcount : words.length = length - 12 := by rw [hwords, length_payload]
  by_cases hsame : length - 12 = align size
  · refine ⟨some (total before + 12), m, memory, _, ?_, ?_, h⟩
    · simp only [SmallMem.realloc, sizeofStructMem, Nat.add_sub_cancel, if_neg hfit,
        if_neg hzero, if_pos hplace, h.valid.laid.room_eq, if_pos hsame]
    · have hstep := Step.realloc hptr (Function.update_self (total before + 12) none memory)
        (show size ≤ words.length by omega) rfl
      rw [Function.update_idem, ← hptr, Function.update_eq_self] at hstep
      exact hstep
  by_cases hshort : align size + 12 + 12 < length - 12
  · rcases h.shrink (Nat.pos_of_ne_zero hzero) hshort with ⟨m', blocks', hrealloc, hholds⟩
    refine ⟨some (total before + 12), m', _, blocks', hrealloc, ?_, hholds⟩
    have hroom : size ≤ (payload m.heap (total before) (align size + 12)).length := by
      rw [length_payload]
      omega
    have hkeep : (payload m.heap (total before) (align size + 12)).take (min words.length size) =
        words.take (min words.length size) := by
      rw [hwords]
      refine take_congr fun index hindex => ?_
      rw [length_payload] at hindex
      rw [getElem?_payload (by omega), getElem?_payload (by omega)]
    have hstep := Step.realloc hptr (Function.update_self (total before + 12) none memory)
      hroom hkeep
    rw [Function.update_idem] at hstep
    exact hstep
  · -- The block moves, if there is room for a new one.
    rcases h.alloc (align size) with hnone | ⟨ptr', m₁, blocks₁, words', halloc, hnew, hroom, hnext⟩
    · have hunfold : m.realloc (some (total before + 12)) size = some (none, m) := by
        simp only [SmallMem.realloc, sizeofStructMem, minSizeAligned, Nat.add_sub_cancel,
          if_neg hfit, if_neg hzero, if_pos hplace, h.valid.laid.room_eq, if_neg hsame,
          if_neg hshort, hnone]
      exact ⟨none, m, memory, _, hunfold, .reallocRefused memory _ hpos, h⟩
    · have hunfold : m.realloc (some (total before + 12)) size =
          ((m₁.memcpy ptr' (total before + 12)
            (if length - 12 < align size then length - 12 else align size)).free
              (some (total before + 12))).map fun m => (some ptr', m) := by
        simp only [SmallMem.realloc, sizeofStructMem, minSizeAligned, Nat.add_sub_cancel,
          if_neg hfit, if_neg hzero, if_pos hplace, h.valid.laid.room_eq, if_neg hsame,
          if_neg hshort, halloc]
      rw [align_align] at hroom
      generalize hclip : (if length - 12 < align size then length - 12 else align size) = count
        at hunfold
      have hclip_eq : count = min words.length (align size) := by
        rw [← hclip, hcount]
        split <;> omega
      rcases Holds.moved hptr hnew hnext count (by omega) (by omega) with
        ⟨m₂, blocks₂, moved, hfree, hmoved, hprefix, hholds⟩
      simp only [hfree, Option.map_some] at hunfold
      refine ⟨some ptr', m₂, _, blocks₂, hunfold, .realloc hptr ?_ (by omega) ?_, hholds⟩
      · by_cases hhere : ptr' = total before + 12
        · rw [hhere, Function.update_self]
        · rw [Function.update_of_ne hhere, hnew]
      · have hle : min words.length size ≤ count := by omega
        have htake := congrArg (List.take (min words.length size)) hprefix
        rw [List.take_take, List.take_take, Nat.min_eq_left hle] at htake
        exact htake

/-- Each legal call is a step of an allocator. -/
theorem Holds.exec {call : Call Nat Nat} (h : Holds m memory blocks)
    (hlegal : Legal (2 ^ 32 - 3) memory call) :
    ∃ reply m' memory', m.exec call = some (reply, m') ∧ Step memory call reply memory' ∧
      ∃ blocks', Holds m' memory' blocks' := by
  cases call with
  | alloc size =>
      rcases h.alloc size with hnone | ⟨ptr, m', blocks', words, halloc, hnew, hroom, hend⟩
      · exact ⟨_, m, memory, by rw [SmallMem.exec, hnone, Option.map_some], .refused memory size,
          blocks, h⟩
      · exact ⟨_, m', _, by rw [SmallMem.exec, halloc, Option.map_some],
          .alloc hnew ((le_align hlegal).trans hroom), blocks', hend⟩
  | free ptr =>
      cases ptr with
      | none => exact ⟨_, m, memory, rfl, .freeNull memory, blocks, h⟩
      | some ptr =>
          rcases hlegal with ⟨words, hptr⟩
          rcases h.free hptr with ⟨m', blocks', hfree, hend⟩
          exact ⟨_, m', _, by rw [SmallMem.exec, hfree, Option.map_some], .free memory ptr,
            blocks', hend⟩
  | realloc ptr size =>
      cases ptr with
      | some ptr =>
          rcases hlegal with ⟨hsize, words, hptr⟩
          rcases h.realloc hptr hsize with ⟨reply, m', memory', blocks', hrealloc, hstep, hend⟩
          exact ⟨_, m', memory', by rw [SmallMem.exec, hrealloc, Option.map_some], hstep,
            blocks', hend⟩
      | none =>
          have halign := le_align hlegal
          by_cases hfit : m.mem_size_aligned < align size
          · have hpos : 0 < size := by
              unfold align at hfit
              omega
            have hnone : m.realloc none size = some (none, m) := if_pos hfit
            exact ⟨_, m, memory, by rw [SmallMem.exec, hnone, Option.map_some],
              .reallocRefused memory none hpos, blocks, h⟩
          by_cases hzero : align size = 0
          · have hsize_zero : size = 0 := by omega
            subst hsize_zero
            have hnone : m.realloc none 0 = some (none, m) := by
              rw [SmallMem.realloc]
              simp only [if_neg hfit, if_pos hzero, SmallMem.free, Option.map_some]
            exact ⟨_, m, memory, by rw [SmallMem.exec, hnone, Option.map_some],
              .reallocNullNone memory, blocks, h⟩
          have hpos : 0 < size := by
            unfold align at hzero
            omega
          have hunfold : m.realloc none size = m.alloc (align size) := by
            rw [SmallMem.realloc]
            simp only [if_neg hfit, if_neg hzero]
          rcases h.alloc (align size) with hnone |
            ⟨ptr, m', blocks', words, halloc, hnew, hroom, hend⟩
          · exact ⟨_, m, memory, by rw [SmallMem.exec, hunfold, hnone, Option.map_some],
              .reallocRefused memory none hpos, blocks, h⟩
          · rw [align_align] at hroom
            exact ⟨_, m', _, by rw [SmallMem.exec, hunfold, halloc, Option.map_some],
              .reallocNull hnew (halign.trans hroom), blocks', hend⟩
  | store ptr index word =>
      rcases hlegal with ⟨words, hptr, hindex⟩
      rcases h.exists_block hptr with ⟨before, length, after, rfl, rfl, rfl⟩
      rw [length_payload] at hindex
      have hstored := h.overwrite (m.write (total before + 12 + index) word).heap
        fun place hplace => Function.update_of_ne (by omega) _ _
      have hwords : payload (m.write (total before + 12 + index) word).heap (total before) length =
          (payload m.heap (total before) length).set index word := by
        refine List.ext_getElem? fun place => ?_
        rw [List.getElem?_set, length_payload]
        by_cases hplace : place < length - 12
        · rw [getElem?_payload hplace]
          by_cases hhere : index = place
          · subst hhere
            rw [if_pos rfl, if_pos hplace]
            exact congrArg some (Function.update_self _ _ _)
          · rw [if_neg hhere, getElem?_payload hplace]
            exact congrArg some (Function.update_of_ne (by omega) _ _)
        · rw [List.getElem?_eq_none (by rw [length_payload]; omega), if_neg (by omega),
            List.getElem?_eq_none (by rw [length_payload]; omega)]
      rw [hwords] at hstored
      exact ⟨_, _, _, rfl, .store index word hptr, _, hstored⟩
  | load ptr index =>
      rcases hlegal with ⟨words, hptr, hindex⟩
      rcases h.exists_block hptr with ⟨before, length, after, rfl, rfl, rfl⟩
      rw [length_payload] at hindex
      exact ⟨_, m, memory, rfl, .load hptr (getElem?_payload hindex), _, h⟩

end Holds

/-! ## Gaps -/

/-- A stretch of the heap between the blocks that a client owns, headers included. -/
def Gap (m : SmallMem) (memory : Memory Nat Nat) (length : Nat) : Prop :=
  ∃ low, low + length ≤ m.heap_end ∧ ∀ ptr words, memory ptr = some words →
    low + length + 12 ≤ ptr ∨ ptr + words.length ≤ low

/-- The blocks that a client owns in the order of their places: apart from each other, aligned
and inside of the heap, with a header in front of each one. -/
structure Layout (m : SmallMem) (memory : Memory Nat Nat) (owned : List (Nat × List Nat)) :
    Prop where
  mem_iff : ∀ ptr words, (ptr, words) ∈ owned ↔ memory ptr = some words
  apart : owned.Pairwise fun a b => a.1 + a.2.length + 12 ≤ b.1
  inside : ∀ entry ∈ owned, entry.1 % 4 = 0 ∧ 12 ≤ entry.1 ∧
    entry.1 + entry.2.length ≤ m.heap_end
  used_eq : m.used = (owned.map fun entry => entry.2.length + 12).sum
  used_le : m.used ≤ m.max

section Gaps

variable {m : SmallMem} {memory : Memory Nat Nat} {blocks : List Block}

/-- A request fails exactly when no gap has room for it and its header: there are no two free
blocks side by side. -/
theorem Holds.alloc_eq_none_iff {size : Nat} (h : Holds m memory blocks) (hsize : size ≠ 0) :
    m.alloc size = some (none, m) ↔ ¬ Gap m memory (request size + 12) := by
  have hend := h.valid.laid.total_eq
  constructor
  · rintro hnone ⟨low, hhigh, hgap⟩
    have hblock := exists_free_of_gap h.valid.coalesced (Nat.zero_le low)
      (show low < low + (request size + 12) by omega) (by omega) (by
        intro start length hmem
        have hlength := (h.valid.laid.size ⟨length, true⟩ (by
          rcases mem_placed_iff.mp hmem with ⟨before, after, hblocks, -⟩
          simp [hblocks])).1
        have howned := hgap _ _ (h.owned start length hmem)
        rw [length_payload] at howned
        simp only at hlength
        omega)
    rcases hblock with ⟨start, length, hmem, hstart, hroom⟩
    cases hfit : firstFit (request size + 12) blocks with
    | none =>
        rcases mem_placed_iff.mp hmem with ⟨before, after, hblocks, -⟩
        have hsmall := firstFit_eq_none_iff.mp hfit ⟨length, false⟩ (by simp [hblocks]) rfl
        simp only at hsmall
        omega
    | some found =>
        rcases found with ⟨before, block, after⟩
        rcases h.valid.alloc_spec hsize hfit with ⟨m', halloc, -⟩
        rw [hnone] at halloc
        cases halloc
  · intro hgap
    refine h.valid.alloc_eq_none hsize ?_
    by_contra hne
    rcases Option.ne_none_iff_exists'.mp hne with ⟨⟨before, ⟨length, used⟩, after⟩, hfit⟩
    rcases firstFit_eq_some hfit with ⟨rfl, hfree, hroom, -⟩
    simp only at hfree hroom
    subst hfree
    simp only [total_append, total_cons] at hend
    refine hgap ⟨total before, by omega, fun ptr words hptr => ?_⟩
    rcases h.only ptr words hptr with ⟨start, count, rfl, hmem⟩
    have hwords := h.owned start count hmem
    rw [hptr, Option.some.injEq] at hwords
    have hhere : (total before, ⟨length, false⟩) ∈
        placed 0 (before ++ ⟨length, false⟩ :: after) :=
      mem_placed_iff.mpr ⟨before, after, rfl, (Nat.zero_add _).symm⟩
    rw [hwords, length_payload]
    rcases disjoint_of_mem_placed hmem hhere with heq | hdisjoint
    · cases heq
    · have hcount := (h.valid.laid.size ⟨count, true⟩ (by
        rcases mem_placed_iff.mp hmem with ⟨front, back, hblocks, -⟩
        simp [hblocks])).1
      simp only at hdisjoint hcount
      omega

/-- When the client owns nothing there is one free block. -/
theorem Holds.eq_singleton (h : Holds m memory blocks) (hnone : ∀ ptr, memory ptr = none)
    (hne : blocks ≠ []) : blocks = [⟨m.heap_end, false⟩] := by
  rw [← h.valid.laid.total_eq]
  refine eq_singleton_of_unused h.valid.coalesced hne fun block hmem => ?_
  by_contra hused
  rw [Bool.not_eq_false] at hused
  rcases List.append_of_mem hmem with ⟨before, after, hblocks⟩
  have hplaced : (total before, ⟨block.size, true⟩) ∈ placed 0 blocks :=
    mem_placed_iff.mpr ⟨before, after, by rw [hblocks, ← hused], (Nat.zero_add _).symm⟩
  have howned := h.owned _ _ hplaced
  rw [hnone] at howned
  cases howned

/-- When the client owns nothing, the whole heap is free for it again. -/
theorem Holds.whole (h : Holds m memory blocks) (hnone : ∀ ptr, memory ptr = none) :
    m.used = 0 ∧ m.lfree = 0 ∧ ∀ size, size ≠ 0 → request size + 12 ≤ m.heap_end →
      ∃ ptr m', m.alloc size = some (some ptr, m') := by
  have hused : m.used = 0 ∧ m.lfree = 0 := by
    have hvalid := h.valid
    by_cases hnil : blocks = []
    · rw [hnil] at hvalid
      exact ⟨hvalid.used_eq, hvalid.lfree_eq⟩
    · rw [h.eq_singleton hnone hnil] at hvalid
      exact ⟨hvalid.used_eq, hvalid.lfree_eq⟩
  refine ⟨hused.1, hused.2, fun size hsize hroom => ?_⟩
  rcases h.alloc size with hrefused | ⟨ptr, m', -, -, halloc, -⟩
  · have hgap : Gap m memory (request size + 12) := by
      refine ⟨0, by rwa [Nat.zero_add], fun ptr words hptr => ?_⟩
      rw [hnone] at hptr
      cases hptr
    exact absurd hgap ((h.alloc_eq_none_iff hsize).mp hrefused)
  · exact ⟨ptr, m', halloc⟩

/-- The used blocks add up to the size in use. -/
theorem sum_placed_used (offset : Nat) (blocks : List Block) :
    (((placed offset blocks).filter fun entry => entry.2.used).map fun entry =>
      entry.2.size).sum = usedSize blocks := by
  induction blocks generalizing offset with
  | nil => rfl
  | cons block rest ih =>
      rw [placed, usedSize_cons]
      by_cases hused : block.used = true
      · rw [List.filter_cons_of_pos (by exact hused), List.map_cons, List.sum_cons, ih,
          if_pos hused]
      · rw [List.filter_cons_of_neg (by exact hused), ih, if_neg hused, Nat.zero_add]

/-- The blocks of the client are laid out in the heap. -/
theorem Holds.layout (h : Holds m memory blocks) : ∃ owned, Layout m memory owned := by
  have hsizes : ∀ entry ∈ placed 0 blocks, 12 < entry.2.size := by
    intro entry hmem
    rcases mem_placed_iff.mp hmem with ⟨before, after, hblocks, -⟩
    exact (h.valid.laid.size entry.2 (by simp [hblocks])).1
  refine ⟨((placed 0 blocks).filter fun entry => entry.2.used).map fun entry =>
    (entry.1 + 12, payload m.heap entry.1 entry.2.size), ?_, ?_, ?_, ?_, h.valid.used_le⟩
  · intro ptr words
    simp only [List.mem_map, List.mem_filter, Prod.mk.injEq]
    constructor
    · rintro ⟨⟨start, length, used⟩, ⟨hmem, hused⟩, rfl, rfl⟩
      simp only at hused
      subst hused
      exact h.owned start length hmem
    · intro hptr
      rcases h.only ptr words hptr with ⟨start, length, rfl, hmem⟩
      have hwords := h.owned start length hmem
      rw [hptr, Option.some.injEq] at hwords
      exact ⟨(start, ⟨length, true⟩), ⟨hmem, rfl⟩, rfl, hwords.symm⟩
  · rw [List.pairwise_map]
    refine ((placed_disjoint 0 blocks).filter _).imp_of_mem ?_
    intro a b ha _ hab
    have hsize := hsizes a (List.mem_of_mem_filter ha)
    rw [length_payload]
    omega
  · intro entry hentry
    rcases List.mem_map.mp hentry with ⟨placement, hplacement, rfl⟩
    have hmem := List.mem_of_mem_filter hplacement
    have hsize := hsizes placement hmem
    have hin := le_of_mem_placed hmem
    have hend := h.valid.laid.total_eq
    rcases mem_placed_iff.mp hmem with ⟨before, after, hblocks, hstart⟩
    have hmod := (hblocks ▸ h.valid.laid).total_before_mod
    simp only [length_payload]
    exact ⟨by omega, by omega, by omega⟩
  · rw [h.valid.used_eq, ← sum_placed_used 0 blocks, List.map_map]
    refine congrArg List.sum (List.map_congr_left fun entry hentry => ?_)
    have hsize := hsizes entry (List.mem_of_mem_filter hentry)
    simp only [Function.comp_apply, length_payload]
    omega

end Gaps

/-! ## Runs -/

section Runs

variable {small_mem mem_size : Nat}

/-- The two items of a fresh heap. -/
theorem init_heap (words : Nat → Nat) :
    (init small_mem mem_size words).heap =
      Function.update (Function.update (Function.update (Function.update (Function.update
        (Function.update words 0 (mark small_mem false)) 4 (mem_size + 12)) 8 0)
        (mem_size + 12) (mark small_mem true)) (mem_size + 12 + 4) (mem_size + 12))
        (mem_size + 12 + 8) (mem_size + 12) :=
  rfl

/-- A fresh heap is one free block. -/
theorem init_holds (words : Nat → Nat) (hleast : 12 ≤ mem_size) (hmod : mem_size % 4 = 0)
    (hbound : mem_size + 12 < 2 ^ 32) (haligned : small_mem % 4 = 0) :
    Holds (init small_mem mem_size words) empty [⟨mem_size + 12, false⟩] := by
  have hlaid : Laid small_mem (mem_size + 12) (init small_mem mem_size words).heap
      [⟨mem_size + 12, false⟩] := by
    rw [init_heap]
    refine ⟨⟨?_, ?_, ?_, trivial⟩, ?_, ?_, ?_⟩
    · rw [Function.update_of_ne (by omega), Function.update_of_ne (by omega),
        Function.update_of_ne (by omega), Function.update_of_ne (by omega),
        Function.update_of_ne (by omega), Function.update_self]
    · rw [Function.update_of_ne (by omega), Function.update_of_ne (by omega),
        Function.update_of_ne (by omega), Function.update_of_ne (by omega), Function.update_self,
        Nat.zero_add]
    · rw [Function.update_of_ne (by omega), Function.update_of_ne (by omega),
        Function.update_of_ne (by omega), Function.update_self]
    · rw [Function.update_of_ne (by omega), Function.update_of_ne (by omega),
        Function.update_self]
    · simp
    · intro block hmem
      rw [List.mem_singleton] at hmem
      subst hmem
      exact ⟨by simp only; omega, by simp only; omega⟩
  refine ⟨⟨hlaid, .singleton _, rfl, rfl, Nat.le_refl 0, rfl, hleast, hbound, haligned⟩, ?_, ?_⟩
  · intro start length hmem
    simp [placed] at hmem
  · intro ptr words' hptr
    cases hptr

/-- The state that a client has reached after a number of calls. -/
theorem play_holds (words : Nat → Nat) (hleast : 12 ≤ mem_size) (hmod : mem_size % 4 = 0)
    (hbound : mem_size + 12 < 2 ^ 32) (haligned : small_mem % 4 = 0) {client : Client Nat Nat}
    (hcareful : Careful (2 ^ 32 - 3) client) (rounds : Nat) :
    ∃ exchanges m memory, play exec client rounds [] (init small_mem mem_size words) =
        some (exchanges, m) ∧ exchanges.length = rounds ∧ History exchanges memory ∧
      ∃ blocks, Holds m memory blocks := by
  have hinit := init_holds words hleast hmod hbound haligned
  rcases play_spec (fun m memory => ∃ blocks, Holds m memory blocks) hcareful
    (fun ⟨_, h⟩ hlegal => h.exec hlegal) .nil ⟨_, hinit⟩ rounds with
    ⟨exchanges, m, memory, hplay, hlength, hholds⟩
  rw [List.length_nil, Nat.zero_add] at hlength
  exact ⟨exchanges, m, memory, hplay, hlength, hholds⟩

/-- Any number of calls of a careful client on a fresh heap succeeds, without a failed assertion
and without an endless loop, and is answered as an allocator answers: the words of each block
are the ones that were stored there. -/
theorem play_refines (words : Nat → Nat) (hleast : 12 ≤ mem_size) (hmod : mem_size % 4 = 0)
    (hbound : mem_size + 12 < 2 ^ 32) (haligned : small_mem % 4 = 0) {client : Client Nat Nat}
    (hcareful : Careful (2 ^ 32 - 3) client) (rounds : Nat) :
    ∃ exchanges m memory, play exec client rounds [] (init small_mem mem_size words) =
        some (exchanges, m) ∧ exchanges.length = rounds ∧ History exchanges memory ∧
      ∀ ptr block, memory ptr = some block → ∀ index word, block[index]? = some word →
        m.heap (ptr + index) = word := by
  rcases play_holds words hleast hmod hbound haligned hcareful rounds with
    ⟨exchanges, m, memory, hplay, hlength, hhistory, blocks, hholds⟩
  refine ⟨exchanges, m, memory, hplay, hlength, hhistory, ?_⟩
  intro ptr block hptr index word hword
  rcases hholds.exists_block hptr with ⟨before, length, after, -, rfl, rfl⟩
  have hindex := (List.getElem?_eq_some_iff.mp hword).1
  rw [length_payload] at hindex
  rw [getElem?_payload hindex, Option.some.injEq] at hword
  exact hword

/-- In every state that a careful client reaches, the blocks that it owns are apart from each
other, aligned and inside of the heap, and the counter of the bytes in use is the sum of their
lengths with their headers. -/
theorem play_layout (words : Nat → Nat) (hleast : 12 ≤ mem_size) (hmod : mem_size % 4 = 0)
    (hbound : mem_size + 12 < 2 ^ 32) (haligned : small_mem % 4 = 0) {client : Client Nat Nat}
    (hcareful : Careful (2 ^ 32 - 3) client) (rounds : Nat) :
    ∃ exchanges m memory owned, play exec client rounds [] (init small_mem mem_size words) =
        some (exchanges, m) ∧ History exchanges memory ∧ Layout m memory owned := by
  rcases play_holds words hleast hmod hbound haligned hcareful rounds with
    ⟨exchanges, m, memory, hplay, -, hhistory, blocks, hholds⟩
  rcases hholds.layout with ⟨owned, hlayout⟩
  exact ⟨exchanges, m, memory, owned, hplay, hhistory, hlayout⟩

/-- Whenever a careful client has given back all its blocks, the whole heap is free again: nothing
is in use, and it gets any length that has room in the heap at all. -/
theorem play_gives_whole (words : Nat → Nat) (hleast : 12 ≤ mem_size) (hmod : mem_size % 4 = 0)
    (hbound : mem_size + 12 < 2 ^ 32) (haligned : small_mem % 4 = 0) {client : Client Nat Nat}
    (hcareful : Careful (2 ^ 32 - 3) client) (rounds : Nat) :
    ∃ exchanges m memory, play exec client rounds [] (init small_mem mem_size words) =
        some (exchanges, m) ∧ History exchanges memory ∧
      ((∀ ptr, memory ptr = none) → m.used = 0 ∧ m.lfree = 0 ∧ ∀ size, size ≠ 0 →
        request size + 12 ≤ m.heap_end → ∃ ptr m', m.alloc size = some (some ptr, m')) := by
  rcases play_holds words hleast hmod hbound haligned hcareful rounds with
    ⟨exchanges, m, memory, hplay, -, hhistory, blocks, hholds⟩
  exact ⟨exchanges, m, memory, hplay, hhistory, hholds.whole⟩

/-- A client that takes a block, gives it back and asks for longer ones. -/
def returning : Client Nat Nat
  | [] => .alloc 20
  | [(_, .pointer (some ptr))] => .free (some ptr)
  | _ => .alloc 40

/-- After two calls the client only asks for blocks. -/
theorem returning_of_length {exchanges : List (Call Nat Nat × Reply Nat Nat)}
    (h : 2 ≤ exchanges.length) : returning exchanges = .alloc 40 := by
  unfold returning
  split
  · simp at h
  · simp at h
  · rfl

/-- The client is careful. -/
theorem returning_careful : Careful (2 ^ 32 - 3) returning := by
  intro exchanges memory hhistory
  cases hhistory with
  | nil => exact (by decide : 20 < 2 ^ 32 - 3)
  | snoc before last =>
      have hlong : 40 < 2 ^ 32 - 3 := by decide
      cases before with
      | nil =>
          cases last with
          | alloc hnew hsize => exact ⟨_, Function.update_self _ _ _⟩
          | reallocNull hnew hsize => exact ⟨_, Function.update_self _ _ _⟩
          | realloc hold _ _ _ => cases hold
          | refused | freeNull | free | reallocRefused | reallocNullNone | reallocNone | store |
            load => exact hlong
      | snoc _ _ =>
          rw [returning_of_length (by simp)]
          exact hlong

/-- A client that gives a block back and goes on asking. -/
theorem play_refines_returning :
    ∃ exchanges m memory, play exec returning 5 [] (init 0x20000000 80 fun _ => 0) =
        some (exchanges, m) ∧ exchanges.length = 5 ∧ History exchanges memory ∧
      ∀ ptr block, memory ptr = some block → ∀ index word, block[index]? = some word →
        m.heap (ptr + index) = word :=
  play_refines (fun _ => 0) (by decide) (by decide) (by decide) (by decide) returning_careful 5

/-- The first block is cut off the heap again; what is left has no room for a second one. -/
example :
    (play exec returning 4 [] (init 0x20000000 80 fun _ => 0)).map (fun result =>
        result.1.map fun exchange => exchange.2) =
      some [.pointer (some 12), .done, .pointer (some 12), .pointer none] := by
  decide

/-- The same client, and how its blocks lie. -/
theorem play_layout_returning :
    ∃ exchanges m memory owned, play exec returning 5 [] (init 0x20000000 80 fun _ => 0) =
        some (exchanges, m) ∧ History exchanges memory ∧ Layout m memory owned :=
  play_layout (fun _ => 0) (by decide) (by decide) (by decide) (by decide) returning_careful 5

end Runs

end SmallMem
end RtThread
end TestAio
