import Mathlib.Algebra.Ring.Nat
import Mathlib.Logic.Function.Basic
import TestAio.Library.Blocks

/-!
# The small memory manager

{lit}`src/mem.c` keeps a heap of words that is cut into items.  The header of an item has the
address of the memory object, with a bit for an item in use, and the places of the next item
and of the one in front.  Pointers into the heap are offsets from {lit}`heap_ptr` here.

Main results:

- Theorem {lit}`Valid.alloc_spec`: a request takes the first free block that has room, and
  fails when there is none.
- Theorem {lit}`Valid.free_spec`: a block that is given back is joined with its free
  neighbours.
- Theorem {lit}`Valid.shrink_spec`: a block that gets much shorter stays where it is.

Current gaps:

- The console commands that list the heap are not modelled.
-/

namespace TestAio
namespace RtThread

open Library Library.Blocks

/-- {lit}`struct rt_small_mem` with the words of the heap it manages. -/
structure SmallMem where
  /-- The address of the object. -/
  small_mem : Nat
  /-- The word at an offset. -/
  heap : Nat → Nat
  heap_end : Nat
  lfree : Nat
  mem_size_aligned : Nat
  used : Nat
  max : Nat

namespace SmallMem

/-! ## Headers -/

/-- {lit}`SIZEOF_STRUCT_MEM`. -/
def sizeofStructMem : Nat := 12

/-- {lit}`MIN_SIZE_ALIGNED`, which is {lit}`MIN_SIZE`. -/
def minSizeAligned : Nat := 12

/-- {lit}`RT_ALIGN(size, RT_ALIGN_SIZE)` on a word of 32 bits. -/
def align (size : Nat) : Nat :=
  (size + 3) % 2 ^ 32 / 4 * 4

/-- {lit}`mem->pool_ptr`. -/
def poolPtr (m : SmallMem) (mem : Nat) : Nat :=
  m.heap mem

/-- {lit}`mem->next`. -/
def next (m : SmallMem) (mem : Nat) : Nat :=
  m.heap (mem + 4)

/-- {lit}`mem->prev`. -/
def prev (m : SmallMem) (mem : Nat) : Nat :=
  m.heap (mem + 8)

/-- Writing a word. -/
def write (m : SmallMem) (place value : Nat) : SmallMem :=
  { m with heap := Function.update m.heap place value }

/-- {lit}`mem->pool_ptr = value`. -/
def setPoolPtr (m : SmallMem) (mem value : Nat) : SmallMem :=
  m.write mem value

/-- {lit}`mem->next = value`. -/
def setNext (m : SmallMem) (mem value : Nat) : SmallMem :=
  m.write (mem + 4) value

/-- {lit}`mem->prev = value`. -/
def setPrev (m : SmallMem) (mem value : Nat) : SmallMem :=
  m.write (mem + 8) value

/-- {lit}`MEM_FREED()`. -/
def memFreed (m : SmallMem) : Nat :=
  m.small_mem / 2 * 2

/-- {lit}`MEM_USED()`. -/
def memUsed (m : SmallMem) : Nat :=
  m.small_mem / 2 * 2 + 1

/-- {lit}`MEM_ISUSED(mem)`. -/
def isUsed (m : SmallMem) (mem : Nat) : Bool :=
  m.poolPtr mem % 2 == 1

/-- {lit}`MEM_POOL(mem)`. -/
def memPool (m : SmallMem) (mem : Nat) : Nat :=
  m.poolPtr mem / 2 * 2

/-! ## The functions -/

/-- One of the two joins of {lit}`plug_holes`: an item takes in the free one behind it. -/
def takeIn (m : SmallMem) (mem nmem : Nat) : SmallMem :=
  let m := if m.lfree = nmem then { m with lfree := mem } else m
  let m := m.setPoolPtr nmem 0
  let m := m.setNext mem (m.next nmem)
  m.setPrev (m.next nmem) mem

/-- The first part of {lit}`plug_holes`: plug hole forward. -/
def plugForward (m : SmallMem) (mem : Nat) : SmallMem :=
  let nmem := m.next mem
  if mem ≠ nmem ∧ m.isUsed nmem = false ∧ nmem ≠ m.heap_end then m.takeIn mem nmem else m

/-- The second part of {lit}`plug_holes`: plug hole backward. -/
def plugBackward (m : SmallMem) (mem : Nat) : SmallMem :=
  let pmem := m.prev mem
  if pmem ≠ mem ∧ m.isUsed pmem = false then m.takeIn pmem mem else m

/-- {lit}`plug_holes`; nothing when its assertion fails. -/
def plugHoles (m : SmallMem) (mem : Nat) : Option SmallMem :=
  if mem < m.heap_end then
    some ((m.plugForward mem).plugBackward mem)
  else
    none

/-- The second item that {lit}`rt_smem_alloc` and {lit}`rt_smem_realloc` make behind a block
of a size. -/
def split (m : SmallMem) (ptr size : Nat) : SmallMem :=
  let mem2 := ptr + sizeofStructMem + size
  let m := m.setPoolPtr mem2 m.memFreed
  let m := m.setNext mem2 (m.next ptr)
  let m := m.setPrev mem2 ptr
  let m := m.setNext ptr mem2
  if m.next mem2 ≠ m.mem_size_aligned + sizeofStructMem then
    m.setPrev (m.next mem2) mem2
  else
    m

/-- The room of an item. -/
def room (m : SmallMem) (ptr : Nat) : Nat :=
  m.next ptr - (ptr + sizeofStructMem)

/-- The loop of {lit}`rt_smem_alloc` over the items: the first free one with room, if there
is one.  The bound is a difference of words of 32 bits. -/
def scan (m : SmallMem) (size : Nat) : Nat → Nat → Option (Option Nat)
  | 0, _ => none
  | fuel + 1, ptr =>
      if ptr ≤ (m.mem_size_aligned + 2 ^ 32 - size) % 2 ^ 32 then
        if m.isUsed ptr = false ∧ size ≤ m.room ptr then
          some (some ptr)
        else
          m.scan size fuel (m.next ptr)
      else
        some none

/-- The loop of {lit}`rt_smem_alloc` that moves the lowest free pointer. -/
def raise (m : SmallMem) : Nat → Nat → Option Nat
  | 0, _ => none
  | fuel + 1, lfree =>
      if m.isUsed lfree = true ∧ lfree ≠ m.heap_end then
        m.raise fuel (m.next lfree)
      else
        some lfree

/-- What {lit}`rt_smem_alloc` does to the item it has found. -/
def take (m : SmallMem) (ptr size : Nat) : SmallMem :=
  let m :=
    if size + sizeofStructMem + minSizeAligned ≤ m.room ptr then
      { m.split ptr size with used := m.used + (size + sizeofStructMem) }
    else
      { m with used := m.used + (m.next ptr - ptr) }
  let m := if m.max < m.used then { m with max := m.used } else m
  m.setPoolPtr ptr m.memUsed

/-- More than a loop over the items can need. -/
def fuel (m : SmallMem) : Nat :=
  m.heap_end + 1

/-- {lit}`rt_smem_alloc`: the memory and the object afterwards; nothing when an assertion
fails or a loop does not end. -/
def alloc (m : SmallMem) (size : Nat) : Option (Option Nat × SmallMem) :=
  if size = 0 then
    some (none, m)
  else
    let size := align size
    if m.mem_size_aligned < size then
      some (none, m)
    else
      let size := if size < minSizeAligned then minSizeAligned else size
      match m.scan size m.fuel m.lfree with
      | none => none
      | some none => some (none, m)
      | some (some mem) =>
          let taken := m.take mem size
          match if mem = m.lfree then taken.raise taken.fuel taken.lfree else some taken.lfree with
          | none => none
          | some lfree =>
              let taken := { taken with lfree := lfree }
              if (lfree = taken.heap_end ∨ taken.isUsed lfree = false ∨ mem ≠ m.lfree) ∧
                  mem + sizeofStructMem + size ≤ taken.heap_end ∧
                  (mem + sizeofStructMem) % 4 = 0 ∧ mem % 4 = 0 then
                some (some (mem + sizeofStructMem), taken)
              else
                none

/-- What {lit}`rt_smem_free` does to an item in front of the joins. -/
def giveBack (m : SmallMem) (mem : Nat) : SmallMem :=
  let m := m.setPoolPtr mem m.memFreed
  let m := if mem < m.lfree then { m with lfree := mem } else m
  { m with used := m.used - (m.next mem - mem) }

/-- {lit}`rt_smem_free`; nothing when an assertion fails. -/
def free (m : SmallMem) : Option Nat → Option SmallMem
  | none => some m
  | some rmem =>
      let mem := rmem - sizeofStructMem
      if rmem % 4 = 0 ∧ m.memPool mem = m.small_mem ∧ m.isUsed mem = true ∧
          rmem < m.heap_end ∧ m.memPool (m.next mem) = m.small_mem then
        (m.giveBack mem).plugHoles mem
      else
        none

/-- {lit}`rt_memcpy` of a number of bytes between two blocks of the heap. -/
def memcpy (m : SmallMem) (dst src count : Nat) : SmallMem :=
  { m with
    heap := fun place =>
      if dst ≤ place ∧ place < dst + count then m.heap (src + (place - dst)) else m.heap place }

/-- {lit}`rt_smem_realloc`. -/
def realloc (m : SmallMem) (rmem : Option Nat) (newsize : Nat) :
    Option (Option Nat × SmallMem) :=
  let newsize := align newsize
  if m.mem_size_aligned < newsize then
    some (none, m)
  else if newsize = 0 then
    (m.free rmem).map fun m => (none, m)
  else
    match rmem with
    | none => m.alloc newsize
    | some rmem =>
        if rmem % 4 = 0 ∧ rmem < m.heap_end then
          let mem := rmem - sizeofStructMem
          let size := m.room mem
          if size = newsize then
            some (some rmem, m)
          else if newsize + sizeofStructMem + minSizeAligned < size then
            let mem2 := mem + sizeofStructMem + newsize
            let m := { m.split mem newsize with used := m.used - (size - newsize) }
            let m := if mem2 < m.lfree then { m with lfree := mem2 } else m
            (m.plugHoles mem2).map fun m => (some rmem, m)
          else
            match m.alloc newsize with
            | none => none
            | some (none, m) => some (none, m)
            | some (some nmem, m) =>
                ((m.memcpy nmem rmem (if size < newsize then size else newsize)).free
                  (some rmem)).map fun m => (some nmem, m)
        else
          none

/-- {lit}`rt_smem_init` of an object at an address, where the aligned heap behind it has a
size; the words of the memory are what they were. -/
def init (small_mem mem_size : Nat) (memory : Nat → Nat) : SmallMem :=
  let m : SmallMem :=
    { small_mem := small_mem
      heap := memory
      heap_end := mem_size + sizeofStructMem
      lfree := 0
      mem_size_aligned := mem_size
      used := 0
      max := 0 }
  let m := m.setPoolPtr 0 m.memFreed
  let m := m.setNext 0 (mem_size + sizeofStructMem)
  let m := m.setPrev 0 0
  let m := m.setPoolPtr m.heap_end m.memUsed
  let m := m.setNext m.heap_end (mem_size + sizeofStructMem)
  m.setPrev m.heap_end (mem_size + sizeofStructMem)

/-! ## Items -/

/-- The first word of a header. -/
def mark (pool : Nat) (used : Bool) : Nat :=
  pool / 2 * 2 + if used then 1 else 0

/-- The headers of blocks that stand one behind the other, where the block in front of them
starts at {lit}`back`. -/
def Items (pool : Nat) (heap : Nat → Nat) : Nat → Nat → List Block → Prop
  | _, _, [] => True
  | back, offset, block :: rest =>
      heap offset = mark pool block.used ∧ heap (offset + 4) = offset + block.size ∧
        heap (offset + 8) = back ∧ Items pool heap offset (offset + block.size) rest

/-- Where the last of some blocks starts. -/
def lastStart : Nat → Nat → List Block → Nat
  | back, _, [] => back
  | _, offset, block :: rest => lastStart offset (offset + block.size) rest

section Items

variable {pool : Nat} {heap heap' : Nat → Nat} {back offset : Nat} {blocks : List Block}

/-- Blocks behind blocks are laid where the first ones end. -/
theorem items_append {xs ys : List Block} :
    Items pool heap back offset (xs ++ ys) ↔
      Items pool heap back offset xs ∧
        Items pool heap (lastStart back offset xs) (offset + total xs) ys := by
  induction xs generalizing back offset with
  | nil => simp [Items, lastStart]
  | cons block rest ih =>
      simp only [List.cons_append, Items, lastStart, ih, total_cons, Nat.add_assoc, and_assoc]

/-- Where the last block starts. -/
theorem lastStart_append (back offset : Nat) (xs : List Block) (block : Block) :
    lastStart back offset (xs ++ [block]) = offset + total xs := by
  induction xs generalizing back offset with
  | nil => simp [lastStart]
  | cons b rest ih => rw [List.cons_append, lastStart, ih, total_cons, Nat.add_assoc]

/-- Items stay when their words do, apart from the first way back. -/
theorem Items.moved {back' : Nat} (h : Items pool heap back offset blocks)
    (hsize : ∀ block ∈ blocks, 12 ≤ block.size)
    (hback : blocks ≠ [] → heap' (offset + 8) = back')
    (hsame : ∀ place, offset ≤ place → place < offset + total blocks → place ≠ offset + 8 →
      heap' place = heap place) :
    Items pool heap' back' offset blocks := by
  induction blocks generalizing back back' offset with
  | nil => trivial
  | cons block rest ih =>
      rcases h with ⟨hmark, hnext, hprev, hrest⟩
      have hblock := hsize block List.mem_cons_self
      rw [total_cons] at hsame
      have hheader : heap' offset = heap offset := hsame _ (by omega) (by omega) (by omega)
      have hlink : heap' (offset + 4) = heap (offset + 4) :=
        hsame _ (by omega) (by omega) (by omega)
      refine ⟨hheader.trans hmark, hlink.trans hnext, hback (List.cons_ne_nil _ _), ?_⟩
      refine ih hrest (fun b hb => hsize b (List.mem_cons_of_mem _ hb)) ?_ ?_
      · intro hne
        rcases List.exists_cons_of_ne_nil hne with ⟨next, tail, rfl⟩
        have hsize' := hsize next (List.mem_cons_of_mem _ List.mem_cons_self)
        rw [total_cons] at hsame
        rw [hsame _ (by omega) (by omega) (by omega)]
        exact hrest.2.2.1
      · intro place hlow hhigh _
        exact hsame place (by omega) (by omega) (by omega)

/-- Only the words of the blocks matter. -/
theorem Items.congr (h : Items pool heap back offset blocks)
    (hsize : ∀ block ∈ blocks, 12 ≤ block.size)
    (hsame : ∀ place, offset ≤ place → place < offset + total blocks →
      heap' place = heap place) :
    Items pool heap' back offset blocks := by
  refine h.moved hsize ?_ fun place hlow hhigh _ => hsame place hlow hhigh
  intro hne
  rcases List.exists_cons_of_ne_nil hne with ⟨block, rest, rfl⟩
  have hblock := hsize block List.mem_cons_self
  rw [hsame _ (by omega) (by rw [total_cons]; omega)]
  exact h.2.2.1

end Items

/-! ## Heaps -/

/-- The words of a heap that is cut into blocks. -/
structure Laid (pool heap_end : Nat) (heap : Nat → Nat) (blocks : List Block) : Prop where
  items : Items pool heap 0 0 blocks
  end_used : heap heap_end = mark pool true
  total_eq : total blocks = heap_end
  size : ∀ block ∈ blocks, 12 < block.size ∧ block.size % 4 = 0

/-- Words change in a range only, and in the way back of the item behind it. -/
def Within (heap heap' : Nat → Nat) (low high : Nat) : Prop :=
  ∀ place, place < low ∨ high ≤ place ∧ place ≠ high + 8 → heap' place = heap place

/-- The words of the blocks in use stay. -/
def SameWords (heap heap' : Nat → Nat) (blocks : List Block) : Prop :=
  ∀ start length, (start, ⟨length, true⟩) ∈ placed 0 blocks →
    ∀ place, start + 12 ≤ place → place < start + length → heap' place = heap place

section Laid

variable {pool heap_end : Nat} {heap heap' : Nat → Nat} {before middle middle' after : List Block}

/-- Blocks in the middle of a heap are exchanged for others of the same length. -/
theorem Laid.exchange (h : Laid pool heap_end heap (before ++ middle ++ after))
    (hne : middle ≠ [])
    (hwithin : Within heap heap' (total before) (total before + total middle))
    (hitems : Items pool heap' (lastStart 0 0 before) (total before) middle')
    (htotal : total middle' = total middle)
    (hback : after ≠ [] → heap' (total before + total middle + 8) =
      lastStart (lastStart 0 0 before) (total before) middle')
    (hsize : ∀ block ∈ middle', 12 < block.size ∧ block.size % 4 = 0) :
    Laid pool heap_end heap' (before ++ middle' ++ after) := by
  have hold := h.items
  rw [items_append, items_append] at hold
  rcases hold with ⟨⟨hfront, -⟩, hrest⟩
  rw [Nat.zero_add, total_append] at hrest
  have hend := h.total_eq
  rw [total_append, total_append] at hend
  refine ⟨?_, ?_, ?_, ?_⟩
  · rw [items_append, items_append, Nat.zero_add, Nat.zero_add, total_append, htotal]
    refine ⟨⟨?_, hitems⟩, ?_⟩
    · refine hfront.congr (fun b hb => (h.size b (by simp [hb])).1.le) fun place _ hhigh => ?_
      exact hwithin place (.inl (by omega))
    · refine hrest.moved (fun b hb => (h.size b (by simp [hb])).1.le) ?_ ?_
      · intro hne'
        rw [hback hne']
        -- The last block of the middle is the last one in front of the rest.
        cases middle' with
        | nil =>
            rw [total_nil] at htotal
            rcases List.exists_cons_of_ne_nil hne with ⟨block, tail, rfl⟩
            have hblock := (h.size block (by simp)).1
            rw [total_cons] at htotal
            omega
        | cons block tail =>
            rcases List.eq_nil_or_concat (block :: tail) with hnil | ⟨lead, last, hconcat⟩
            · cases hnil
            · rw [hconcat, List.concat_eq_append, ← List.append_assoc, lastStart_append,
                lastStart_append, total_append, Nat.zero_add]
      · intro place hlow _ hplace
        exact hwithin place (.inr ⟨hlow, hplace⟩)
  · rw [hwithin heap_end (.inr ⟨by omega, ?_⟩)]
    · exact h.end_used
    · cases after with
      | nil =>
          rw [total_nil] at hend
          omega
      | cons block rest =>
          have hblock := (h.size block (by simp)).1
          rw [total_cons] at hend
          omega
  · rw [total_append, total_append, htotal, hend]
  · intro block hmem
    rw [List.mem_append, List.mem_append] at hmem
    rcases hmem with (hmem | hmem) | hmem
    · exact h.size block (by simp [hmem])
    · exact hsize block hmem
    · exact h.size block (by simp [hmem])

/-- The blocks outside of a range keep their words. -/
theorem Within.same {low high start length place : Nat} (h : Within heap heap' low high)
    (hout : start + length ≤ low ∨ high ≤ start) (hlow : start + 12 ≤ place)
    (hhigh : place < start + length) : heap' place = heap place :=
  h place (by omega)

/-- Words that stay twice stay. -/
theorem SameWords.trans {heap'' : Nat → Nat} {blocks blocks' : List Block}
    (h : SameWords heap heap' blocks) (h' : SameWords heap' heap'' blocks')
    (hblocks : ∀ start length, (start, ⟨length, true⟩) ∈ placed 0 blocks →
      (start, ⟨length, true⟩) ∈ placed 0 blocks') :
    SameWords heap heap'' blocks := by
  intro start length hmem place hlow hhigh
  rw [h' start length (hblocks start length hmem) place hlow hhigh]
  exact h start length hmem place hlow hhigh

end Laid

/-! ## Joining free items -/

/-- An object arranges the blocks of its heap in another way, and keeps the words of the
blocks in use. -/
structure Rearranges (m m' : SmallMem) (blocks blocks' : List Block) : Prop where
  laid : Laid m.small_mem m.heap_end m'.heap blocks'
  lfree_eq : m'.lfree = firstFree blocks'
  words : SameWords m.heap m'.heap blocks
  same : m' = { m with heap := m'.heap, lfree := m'.lfree }

section Join

variable {m : SmallMem} {before after : List Block} {size size' : Nat} {blocks : List Block}

/-- The first word of a header is the mark of the block. -/
theorem Laid.poolPtr_eq {block : Block}
    (h : Laid m.small_mem m.heap_end m.heap (before ++ block :: after)) :
    m.poolPtr (total before) = mark m.small_mem block.used := by
  have hitems := (items_append.mp h.items).2
  rw [Nat.zero_add] at hitems
  exact hitems.1

/-- The second word of a header is where the next block starts. -/
theorem Laid.next_eq {block : Block}
    (h : Laid m.small_mem m.heap_end m.heap (before ++ block :: after)) :
    m.next (total before) = total before + block.size := by
  have hitems := (items_append.mp h.items).2
  rw [Nat.zero_add] at hitems
  exact hitems.2.1

/-- The third word of a header is where the block before starts. -/
theorem Laid.prev_eq {block : Block}
    (h : Laid m.small_mem m.heap_end m.heap (before ++ block :: after)) :
    m.prev (total before) = lastStart 0 0 before := by
  have hitems := (items_append.mp h.items).2
  rw [Nat.zero_add] at hitems
  exact hitems.2.2.1

/-- The lowest bit of a mark tells whether the block is in use. -/
theorem mark_mod (pool : Nat) (used : Bool) : (mark pool used % 2 == 1) = used := by
  unfold mark
  cases used with
  | false => simp
  | true => simp [Nat.add_mod]

/-- {lit}`MEM_ISUSED` reads whether the block is in use. -/
theorem Laid.isUsed_eq {block : Block}
    (h : Laid m.small_mem m.heap_end m.heap (before ++ block :: after)) :
    m.isUsed (total before) = block.used := by
  rw [isUsed, h.poolPtr_eq, mark_mod]

/-- Taking in the next block when it is not the lowest free one. -/
theorem takeIn_of_ne {mem nmem : Nat} (hlfree : m.lfree ≠ nmem) (hlt : mem + 12 ≤ nmem) :
    m.takeIn mem nmem =
      { m with heap := Function.update (Function.update (Function.update m.heap nmem 0)
          (mem + 4) (m.next nmem)) (m.next nmem + 8) mem } := by
  have hlink : (m.setPoolPtr nmem 0).next nmem = m.next nmem :=
    Function.update_of_ne (by omega) _ _
  have hlink' : ((m.setPoolPtr nmem 0).setNext mem (m.next nmem)).next nmem = m.next nmem :=
    (Function.update_of_ne (by omega) _ _).trans hlink
  unfold takeIn
  rw [if_neg hlfree]
  simp only [hlink, hlink']
  rfl

/-- A free block takes in the free one behind it. -/
theorem takeIn_rearranges
    (h : Laid m.small_mem m.heap_end m.heap
      (before ++ ⟨size, false⟩ :: ⟨size', false⟩ :: after))
    (hlfree : m.lfree = firstFree (before ++ ⟨size, false⟩ :: ⟨size', false⟩ :: after)) :
    Rearranges m (m.takeIn (total before) (total before + size))
      (before ++ ⟨size, false⟩ :: ⟨size', false⟩ :: after)
      (before ++ ⟨size + size', false⟩ :: after) := by
  have hsize : 12 < size ∧ size % 4 = 0 := h.size ⟨size, false⟩ (by simp)
  have hsize' : 12 < size' ∧ size' % 4 = 0 := h.size ⟨size', false⟩ (by simp)
  have hlow := firstFree_append_le before size (⟨size', false⟩ :: after)
  have hitems := (items_append.mp h.items).2
  rw [Nat.zero_add] at hitems
  rcases hitems with ⟨hmark, hnext, hprev, hmark', hnext', -⟩
  have hlink : m.next (total before + size) = total before + size + size' := hnext'
  rw [takeIn_of_ne (by omega) (by omega), hlink]
  -- The three words that change.
  generalize hheap : Function.update (Function.update (Function.update m.heap
    (total before + size) 0) (total before + 4) (total before + size + size'))
    (total before + size + size' + 8) (total before) = heap'
  have hwithin : Within m.heap heap' (total before)
      (total before + total [⟨size, false⟩, ⟨size', false⟩]) := by
    intro place hplace
    simp only [total_cons, total_nil] at hplace
    rw [← hheap, Function.update_of_ne (by omega), Function.update_of_ne (by omega),
      Function.update_of_ne (by omega)]
  refine ⟨?_, ?_, ?_, rfl⟩
  · have hold : Laid m.small_mem m.heap_end m.heap
        (before ++ [⟨size, false⟩, ⟨size', false⟩] ++ after) := by
      rw [List.append_assoc]
      exact h
    have hnew : Laid m.small_mem m.heap_end heap' (before ++ [⟨size + size', false⟩] ++ after) :=
      hold.exchange (by simp) hwithin ?_ (by simp) ?_ ?_
    · rw [List.append_assoc] at hnew
      exact hnew
    · refine ⟨?_, ?_, ?_, trivial⟩
      · rw [← hheap, Function.update_of_ne (by omega), Function.update_of_ne (by omega),
          Function.update_of_ne (by omega)]
        exact hmark
      · rw [← hheap, Function.update_of_ne (by omega), Function.update_self, Nat.add_assoc]
      · rw [← hheap, Function.update_of_ne (by omega), Function.update_of_ne (by omega),
          Function.update_of_ne (by omega)]
        exact hprev
    · intro _
      simp only [total_cons, total_nil, Nat.add_zero, ← Nat.add_assoc, lastStart]
      rw [← hheap, Function.update_self]
    · intro block hmem
      rw [List.mem_singleton] at hmem
      subst hmem
      exact ⟨by simp only; omega, by simp only; omega⟩
  · rw [hlfree]
    exact firstFree_append_free before _ _ _ _
  · intro start length hmem place hfrom hto
    rw [placed_append, List.mem_append, placed, placed, List.mem_cons, List.mem_cons] at hmem
    rcases hmem with hmem | hmem | hmem | hmem
    · have hin := le_of_mem_placed hmem
      simp only [Nat.zero_add] at hin
      exact hwithin.same (.inl hin.2) hfrom hto
    · cases hmem
    · cases hmem
    · have hin := le_of_mem_placed hmem
      simp only [Nat.zero_add] at hin
      exact hwithin.same (.inr (by simp only [total_cons, total_nil]; omega)) hfrom hto

/-- Nothing changes. -/
theorem Rearranges.refl (h : Laid m.small_mem m.heap_end m.heap blocks)
    (hlfree : m.lfree = firstFree blocks) : Rearranges m m blocks blocks :=
  ⟨h, hlfree, fun _ _ _ _ _ _ => rfl, rfl⟩

/-- One change after another, when the used blocks stay where they are. -/
theorem Rearranges.trans {m' m'' : SmallMem} {blocks' blocks'' : List Block}
    (h : Rearranges m m' blocks blocks') (h' : Rearranges m' m'' blocks' blocks'')
    (hblocks : ∀ start length, (start, ⟨length, true⟩) ∈ placed 0 blocks →
      (start, ⟨length, true⟩) ∈ placed 0 blocks') :
    Rearranges m m'' blocks blocks'' := by
  have hlaid := h'.laid
  have hsame := h'.same
  rw [h.same] at hlaid hsame
  exact ⟨hlaid, h'.lfree_eq, h.words.trans h'.words hblocks, hsame⟩

/-- The item in front of the end is not joined with the end. -/
theorem plugForward_rearranges
    (h : Laid m.small_mem m.heap_end m.heap (before ++ ⟨size, false⟩ :: after))
    (hlfree : m.lfree = firstFree (before ++ ⟨size, false⟩ :: after)) :
    Rearranges m (m.plugForward (total before)) (before ++ ⟨size, false⟩ :: after)
      (before ++ joinNext size after) := by
  have hsize : 12 < size ∧ size % 4 = 0 := h.size ⟨size, false⟩ (by simp)
  have hend := h.total_eq
  unfold plugForward
  simp only [h.next_eq]
  cases after with
  | nil =>
      rw [total_append, total_cons, total_nil, Nat.add_zero] at hend
      rw [if_neg (by simp [hend]), joinNext]
      exact .refl h hlfree
  | cons next rest =>
      have hnext : m.isUsed (total before + size) = next.used := by
        have hlaid := h
        rw [List.append_cons] at hlaid
        simpa using hlaid.isUsed_eq
      have hnext_size := (h.size next (by simp)).1
      simp only [total_append, total_cons] at hend
      rw [hnext, joinNext]
      by_cases hused : next.used = true
      · rw [if_neg (by simp [hused]), if_pos hused]
        exact .refl h hlfree
      · rw [Bool.not_eq_true] at hused
        rw [if_pos ⟨by omega, hused, by omega⟩, if_neg (by simp [hused])]
        have hblock : next = ⟨next.size, false⟩ := Block.ext rfl hused
        rw [hblock] at h hlfree ⊢
        exact takeIn_rearranges h hlfree

/-- The block before is joined when it is free. -/
theorem plugBackward_rearranges {rest : List Block}
    (h : Laid m.small_mem m.heap_end m.heap (before ++ ⟨size, false⟩ :: rest))
    (hlfree : m.lfree = firstFree (before ++ ⟨size, false⟩ :: rest)) :
    Rearranges m (m.plugBackward (total before)) (before ++ ⟨size, false⟩ :: rest)
      (joinPrev before (⟨size, false⟩ :: rest)) := by
  unfold plugBackward
  simp only [h.prev_eq]
  rcases List.eq_nil_or_concat before with rfl | ⟨lead, last, rfl⟩
  · rw [if_neg (by simp [lastStart])]
    exact .refl h hlfree
  · rw [List.concat_eq_append] at h hlfree ⊢
    have hjoin : joinPrev (lead ++ [last]) (⟨size, false⟩ :: rest) =
        if last.used then (lead ++ [last]) ++ ⟨size, false⟩ :: rest
        else lead ++ ⟨last.size + size, false⟩ :: rest := by
      simp [joinPrev]
    have hlast : m.isUsed (total lead) = last.used := by
      have hlaid := h
      rw [List.append_assoc] at hlaid
      exact hlaid.isUsed_eq
    have hlast_size := (h.size last (by simp)).1
    have htotal : total (lead ++ [last]) = total lead + last.size := by simp
    rw [hjoin, lastStart_append, Nat.zero_add, hlast, htotal]
    by_cases hused : last.used = true
    · rw [if_neg (by simp [hused]), if_pos hused]
      exact .refl h hlfree
    · rw [Bool.not_eq_true] at hused
      rw [if_pos ⟨by omega, hused⟩, if_neg (by simp [hused])]
      have hblock : last = ⟨last.size, false⟩ := Block.ext rfl hused
      rw [List.append_assoc] at h hlfree ⊢
      rw [hblock] at h hlfree ⊢
      exact takeIn_rearranges h hlfree

/-- Joining the next block leaves the used ones where they are. -/
theorem mem_placed_append_joinNext {start length : Nat} :
    (start, ⟨length, true⟩) ∈ placed 0 (before ++ joinNext size after) ↔
      (start, ⟨length, true⟩) ∈ placed 0 (before ++ ⟨size, false⟩ :: after) := by
  simp [placed_append, mem_placed_joinNext, placed]

/-- Releasing a block leaves the used ones where they are. -/
theorem mem_placed_release {start length : Nat} :
    (start, ⟨length, true⟩) ∈ placed 0 (release before size after) ↔
      (start, ⟨length, true⟩) ∈ placed 0 (before ++ ⟨size, false⟩ :: after) := by
  rcases head?_joinNext size after with ⟨joined, rest, hjoined⟩
  rw [release, ← mem_placed_append_joinNext, hjoined, mem_placed_joinPrev]
  simp [placed_append, placed]

/-- Both joins. -/
theorem plugHoles_rearranges
    (h : Laid m.small_mem m.heap_end m.heap (before ++ ⟨size, false⟩ :: after))
    (hlfree : m.lfree = firstFree (before ++ ⟨size, false⟩ :: after)) :
    ∃ m', m.plugHoles (total before) = some m' ∧
      Rearranges m m' (before ++ ⟨size, false⟩ :: after) (release before size after) := by
  have hsize : 12 < size ∧ size % 4 = 0 := h.size ⟨size, false⟩ (by simp)
  have hend := h.total_eq
  rw [total_append, total_cons] at hend
  simp only at hend
  have hforward := plugForward_rearranges h hlfree
  generalize hm' : m.plugForward (total before) = m' at hforward
  rcases head?_joinNext size after with ⟨joined, rest, hjoined⟩
  have hlaid := hforward.laid
  have hfree := hforward.lfree_eq
  have hplug : m.plugHoles (total before) = some (m'.plugBackward (total before)) := by
    rw [plugHoles, if_pos (by omega), hm']
  refine ⟨_, hplug, ?_⟩
  rw [hjoined] at hlaid hfree
  have hplaces : Laid m'.small_mem m'.heap_end m'.heap (before ++ ⟨joined, false⟩ :: rest) := by
    rw [hforward.same]
    exact hlaid
  have hbackward := plugBackward_rearranges hplaces hfree
  rw [release, hjoined]
  rw [hjoined] at hforward
  refine hforward.trans hbackward fun start length hmem => ?_
  rw [← hjoined, mem_placed_append_joinNext]
  exact hmem

end Join

/-! ## Valid objects -/

/-- What {lit}`rt_smem_init` fixes: an aligned object and a heap with room for a block. -/
structure Founded (m : SmallMem) : Prop where
  heap_end_eq : m.heap_end = m.mem_size_aligned + 12
  least : 12 ≤ m.mem_size_aligned
  heap_end_lt : m.heap_end < 2 ^ 32
  small_mem_mod : m.small_mem % 4 = 0

/-- What holds of an object between two calls. -/
structure Valid (m : SmallMem) (blocks : List Block) : Prop where
  laid : Laid m.small_mem m.heap_end m.heap blocks
  coalesced : Coalesced blocks
  lfree_eq : m.lfree = firstFree blocks
  used_eq : m.used = usedSize blocks
  used_le : m.used ≤ m.max
  founded : Founded m

section Valid

variable {m : SmallMem} {before after blocks : List Block} {size : Nat}

/-- The sizes add up to a multiple of four. -/
theorem total_mod (h : ∀ block ∈ blocks, 12 < block.size ∧ block.size % 4 = 0) :
    total blocks % 4 = 0 := by
  induction blocks with
  | nil => rfl
  | cons block rest ih =>
      have hblock := (h block List.mem_cons_self).2
      have hrest := ih fun b hb => h b (List.mem_cons_of_mem _ hb)
      rw [total_cons]
      omega

/-- Each block starts at a multiple of four. -/
theorem Laid.total_before_mod {block : Block} {pool heap_end : Nat} {heap : Nat → Nat}
    (h : Laid pool heap_end heap (before ++ block :: after)) : total before % 4 = 0 :=
  total_mod fun b hb => h.size b (List.mem_append_left _ hb)

/-- The way back of the item behind a block. -/
theorem Laid.back_eq {block : Block} {pool heap_end : Nat} {heap : Nat → Nat}
    (h : Laid pool heap_end heap (before ++ block :: after)) (hne : after ≠ []) :
    heap (total before + block.size + 8) = total before := by
  rcases List.exists_cons_of_ne_nil hne with ⟨next, rest, rfl⟩
  have hitems := (items_append.mp h.items).2.2.2.2
  rw [Nat.zero_add] at hitems
  exact hitems.2.2.1

/-- A mark without its lowest bit is the address of the heap. -/
theorem mark_pool {pool : Nat} (h : pool % 4 = 0) (used : Bool) :
    mark pool used / 2 * 2 = pool := by
  unfold mark
  cases used with
  | false => simp; omega
  | true => simp; omega

/-- Each item has the address of the object, and the end of the heap too. -/
theorem Valid.memPool_next {block : Block} (h : Valid m (before ++ block :: after)) :
    m.memPool (m.next (total before)) = m.small_mem := by
  rw [h.laid.next_eq, memPool]
  cases after with
  | nil =>
      have hend := h.laid.total_eq
      rw [total_append, total_cons, total_nil, Nat.add_zero] at hend
      rw [hend, poolPtr, h.laid.end_used, mark_pool h.founded.small_mem_mod]
  | cons next rest =>
      have hlaid := h.laid
      rw [List.append_cons] at hlaid
      have hmark := hlaid.poolPtr_eq
      rw [total_append, total_cons, total_nil, Nat.add_zero] at hmark
      rw [hmark, mark_pool h.founded.small_mem_mod]

/-- The mark of one item is written. -/
theorem Laid.remark {pool heap_end : Nat} {heap : Nat → Nat} {used : Bool}
    (h : Laid pool heap_end heap (before ++ ⟨size, used⟩ :: after)) (used' : Bool) :
    Laid pool heap_end (Function.update heap (total before) (mark pool used'))
      (before ++ ⟨size, used'⟩ :: after) := by
  have hsize : 12 < size ∧ size % 4 = 0 := h.size ⟨size, used⟩ (by simp)
  have hitems := (items_append.mp h.items).2
  rw [Nat.zero_add] at hitems
  rcases hitems with ⟨-, hnext, hprev, -⟩
  have hold : Laid pool heap_end heap (before ++ [⟨size, used⟩] ++ after) := by
    rw [List.append_assoc]
    exact h
  have hnew : Laid pool heap_end (Function.update heap (total before) (mark pool used'))
      (before ++ [⟨size, used'⟩] ++ after) :=
    hold.exchange (by simp) ?_ ?_ (by simp) ?_ ?_
  · rw [List.append_assoc] at hnew
    exact hnew
  · intro place hplace
    simp only [total_cons, total_nil] at hplace
    exact Function.update_of_ne (by omega) _ _
  · refine ⟨Function.update_self _ _ _, ?_, ?_, trivial⟩
    · rw [Function.update_of_ne (by omega)]
      exact hnext
    · rw [Function.update_of_ne (by omega)]
      exact hprev
  · intro hne
    rw [total_cons, total_nil, Nat.add_zero, Function.update_of_ne (by simp only; omega)]
    exact h.back_eq hne
  · intro block hmem
    rw [List.mem_singleton] at hmem
    subst hmem
    exact hsize

/-- The first word of a header is no word of a block. -/
theorem sameWords_update_start {heap : Nat → Nat} {block : Block} (hblock : 12 < block.size)
    (value : Nat) :
    SameWords heap (Function.update heap (total before) value) (before ++ block :: after) := by
  intro start length hmem place hlow hhigh
  have hhere : (total before, block) ∈ placed 0 (before ++ block :: after) :=
    mem_placed_iff.mpr ⟨before, after, rfl, (Nat.zero_add _).symm⟩
  refine Function.update_of_ne ?_ _ _
  rcases disjoint_of_mem_placed hmem hhere with heq | hdisjoint
  · have hstart := congrArg Prod.fst heq
    simp only at hstart
    omega
  · simp only at hdisjoint
    omega

/-- Only the sizes and the address of the heap matter. -/
theorem Founded.congr {m' : SmallMem} (h : Founded m) (hpool : m'.small_mem = m.small_mem)
    (hend : m'.heap_end = m.heap_end) (hsize : m'.mem_size_aligned = m.mem_size_aligned) :
    Founded m' := by
  refine ⟨?_, ?_, ?_, ?_⟩
  · rw [hend, hsize, h.heap_end_eq]
  · exact hsize ▸ h.least
  · exact hend ▸ h.heap_end_lt
  · exact hpool ▸ h.small_mem_mod

/-- A heap that is changed so is valid, when no two free blocks are next to each other. -/
theorem Rearranges.valid {m' : SmallMem} {blocks' : List Block}
    (h : Rearranges m m' blocks blocks') (hcoalesced : Coalesced blocks')
    (hused : m.used = usedSize blocks') (hmax : m.used ≤ m.max) (hfounded : Founded m) :
    Valid m' blocks' := by
  have hlaid := h.laid
  have hlfree := h.lfree_eq
  rw [h.same]
  exact ⟨hlaid, hcoalesced, hlfree, hused, hmax, hfounded.congr rfl rfl rfl⟩

/-- What giving a block back writes. -/
theorem Valid.giveBack_eq (h : Valid m (before ++ ⟨size, true⟩ :: after)) :
    m.giveBack (total before) =
      { m with
        heap := Function.update m.heap (total before) (mark m.small_mem false)
        lfree := firstFree (before ++ ⟨size, false⟩ :: after)
        used := m.used - size } := by
  have hsize : 12 < size ∧ size % 4 = 0 := h.laid.size ⟨size, true⟩ (by simp)
  have hlfree := firstFree_insert before ⟨size, true⟩ rfl (show 0 < size by omega) size after after
  rw [← h.lfree_eq] at hlfree
  have hlink : Function.update m.heap (total before) (mark m.small_mem false) (total before + 4) =
      total before + size :=
    (Function.update_of_ne (by omega) _ _).trans h.laid.next_eq
  have hmark : m.setPoolPtr (total before) m.memFreed =
      { m with heap := Function.update m.heap (total before) (mark m.small_mem false) } := rfl
  rw [hlfree, giveBack, hmark]
  by_cases hlow : total before < m.lfree
  · simp only [if_pos hlow, next, hlink, Nat.add_sub_cancel_left]
  · simp only [if_neg hlow, next, hlink, Nat.add_sub_cancel_left]

/-- A block that is given back is joined with its free neighbours; the other blocks keep their
words. -/
theorem Valid.free_spec (h : Valid m (before ++ ⟨size, true⟩ :: after)) :
    ∃ m', m.free (some (total before + sizeofStructMem)) = some m' ∧
      Valid m' (release before size after) ∧
      SameWords m.heap m'.heap (before ++ ⟨size, false⟩ :: after) := by
  have hsize : 12 < size ∧ size % 4 = 0 := h.laid.size ⟨size, true⟩ (by simp)
  have hmod := h.laid.total_before_mod
  have hend := h.laid.total_eq
  simp only [total_append, total_cons] at hend
  have hused := h.used_eq
  simp only [usedSize_append, usedSize_cons, if_true] at hused
  have hchecks : (total before + 12) % 4 = 0 ∧ m.memPool (total before) = m.small_mem ∧
      m.isUsed (total before) = true ∧ total before + 12 < m.heap_end ∧
      m.memPool (m.next (total before)) = m.small_mem :=
    ⟨by omega, by rw [memPool, h.laid.poolPtr_eq, mark_pool h.founded.small_mem_mod],
      h.laid.isUsed_eq, by omega, h.memPool_next⟩
  unfold free
  simp only [sizeofStructMem, Nat.add_sub_cancel]
  rw [if_pos hchecks, h.giveBack_eq]
  rcases plugHoles_rearranges (m := { m with
      heap := Function.update m.heap (total before) (mark m.small_mem false)
      lfree := firstFree (before ++ ⟨size, false⟩ :: after)
      used := m.used - size }) (h.laid.remark false) rfl with ⟨m', hplug, hrearranged⟩
  refine ⟨m', hplug, ?_, ?_⟩
  · refine hrearranged.valid (coalesced_release size h.coalesced) ?_ ?_ ?_
    · simp only [usedSize_release]
      omega
    · exact (Nat.sub_le _ _).trans h.used_le
    · exact h.founded.congr rfl rfl rfl
  · exact (sameWords_update_start hsize.1 _).trans hrearranged.words fun _ _ hmem => hmem

end Valid

/-! ## Taking a block -/

section Loops

variable {m : SmallMem} {lead rest : List Block} {size : Nat}

/-- The room of a block is its size without the header. -/
theorem Laid.room_eq {block : Block} {after : List Block}
    (h : Laid m.small_mem m.heap_end m.heap (lead ++ block :: after)) :
    m.room (total lead) = block.size - 12 := by
  rw [room, h.next_eq, sizeofStructMem]
  omega

/-- The scan finds the first free block with room.  The places it does not look at are too
near to the end. -/
theorem scan_eq (h : Laid m.small_mem m.heap_end m.heap (lead ++ rest)) (hfounded : Founded m)
    (hsize : size ≤ m.mem_size_aligned) {fuel : Nat} (hfuel : rest.length < fuel) :
    m.scan size fuel (total lead) =
      some ((firstFit (size + 12) rest).map fun found => total lead + total found.1) := by
  have hend := h.total_eq
  have hfound := hfounded.heap_end_eq
  have hword := hfounded.heap_end_lt
  have hbound : (m.mem_size_aligned + 2 ^ 32 - size) % 2 ^ 32 = m.mem_size_aligned - size := by
    omega
  rw [total_append] at hend
  induction rest generalizing lead fuel with
  | nil =>
      cases fuel with
      | zero => cases hfuel
      | succ fuel =>
          rw [total_nil] at hend
          rw [scan, hbound, if_neg (by omega), firstFit, Option.map_none]
  | cons block rest ih =>
      have hblock := (h.size block (by simp)).1
      rw [total_cons] at hend
      cases fuel with
      | zero => cases hfuel
      | succ fuel =>
          rw [scan, hbound]
          split
          · rw [h.isUsed_eq, h.room_eq, firstFit]
            have hroom : (block.used = false ∧ size ≤ block.size - 12) ↔
                block.used = false ∧ size + 12 ≤ block.size := by
              constructor <;> rintro ⟨hfree, hle⟩ <;> exact ⟨hfree, by omega⟩
            rw [if_congr hroom rfl rfl]
            split
            · simp
            · have hnext := h.next_eq
              have hrest := h
              rw [List.append_cons] at hrest
              have htail := ih hrest (Nat.lt_of_succ_lt_succ hfuel)
              simp only [total_append, total_cons, total_nil, Nat.add_zero] at htail
              rw [hnext, htail (by omega), Option.map_map]
              simp [Function.comp_def, Nat.add_assoc]
          · rename_i hfar
            rw [(firstFit_eq_none_iff).mpr, Option.map_none]
            intro b hb _
            have hin := size_le_total hb
            rw [total_cons] at hin
            omega

/-- The lowest free pointer is moved to the next free block, or to the end. -/
theorem raise_eq (h : Laid m.small_mem m.heap_end m.heap (lead ++ rest)) {fuel : Nat}
    (hfuel : rest.length < fuel) :
    m.raise fuel (total lead) = some (total lead + firstFree rest) := by
  have hend := h.total_eq
  rw [total_append] at hend
  induction rest generalizing lead fuel with
  | nil =>
      cases fuel with
      | zero => cases hfuel
      | succ fuel =>
          rw [total_nil, Nat.add_zero] at hend
          rw [raise, if_neg (by simp [hend]), firstFree, Nat.add_zero]
  | cons block rest ih =>
      have hblock := (h.size block (by simp)).1
      rw [total_cons] at hend
      cases fuel with
      | zero => cases hfuel
      | succ fuel =>
          rw [raise, h.isUsed_eq, firstFree]
          split
          · rename_i hused
            have hnext := h.next_eq
            have hrest := h
            rw [List.append_cons] at hrest
            have htail := ih hrest (Nat.lt_of_succ_lt_succ hfuel)
            simp only [total_append, total_cons, total_nil, Nat.add_zero] at htail
            rw [hnext, htail (by omega), if_pos hused.1, Nat.add_assoc]
          · rename_i hused
            rw [if_neg (fun hblock_used => hused ⟨hblock_used, by omega⟩), Nat.add_zero]

end Loops

section Take

variable {m : SmallMem} {before after : List Block} {size length : Nat} {used : Bool}

/-- The words that {lit}`split` writes. -/
theorem split_eq {ptr : Nat} (m : SmallMem) :
    m.split ptr size =
      { m with
        heap :=
          let heap := Function.update (Function.update (Function.update (Function.update m.heap
            (ptr + 12 + size) (mark m.small_mem false)) (ptr + 12 + size + 4) (m.next ptr))
            (ptr + 12 + size + 8) ptr) (ptr + 4) (ptr + 12 + size)
          if m.next ptr ≠ m.mem_size_aligned + 12 then
            Function.update heap (m.next ptr + 8) (ptr + 12 + size)
          else
            heap } := by
  have hnext : (m.setPoolPtr (ptr + 12 + size) m.memFreed).next ptr = m.next ptr :=
    Function.update_of_ne (by omega) _ _
  have hlink : ((((m.setPoolPtr (ptr + 12 + size) m.memFreed).setNext (ptr + 12 + size)
      (m.next ptr)).setPrev (ptr + 12 + size) ptr).setNext ptr (ptr + 12 + size)).next
      (ptr + 12 + size) = m.next ptr := by
    simp only [next, setNext, setPrev, setPoolPtr, write]
    rw [Function.update_of_ne (by omega), Function.update_of_ne (by omega), Function.update_self]
  unfold split
  simp only [sizeofStructMem, hnext, hlink]
  split <;> rename_i hend
  · have hinside : m.next ptr ≠ m.mem_size_aligned + 12 := hend
    simp only [if_pos hinside]
    rfl
  · have hlast : ¬ m.next ptr ≠ m.mem_size_aligned + 12 := hend
    simp only [if_neg hlast]
    rfl

/-- A block is cut in two, and the second part is free. -/
theorem split_laid (h : Laid m.small_mem m.heap_end m.heap (before ++ ⟨length, used⟩ :: after))
    (hfounded : Founded m) (hpos : 0 < size) (hmod : size % 4 = 0)
    (hroom : size + 12 + 12 < length) :
    ∃ heap', m.split (total before) size = { m with heap := heap' } ∧
      Laid m.small_mem m.heap_end heap'
        (before ++ ⟨size + 12, used⟩ :: ⟨length - (size + 12), false⟩ :: after) ∧
      SameWords m.heap heap'
        (before ++ ⟨size + 12, used⟩ :: ⟨length - (size + 12), false⟩ :: after) := by
  have hlength : 12 < length ∧ length % 4 = 0 := h.size ⟨length, used⟩ (by simp)
  have hend := h.total_eq
  simp only [total_append, total_cons] at hend
  have hitems := (items_append.mp h.items).2
  rw [Nat.zero_add] at hitems
  rcases hitems with ⟨hmark, -, hprev, -⟩
  have hnext := h.next_eq
  simp only at hnext
  have hlast : total before + length ≠ m.mem_size_aligned + 12 ↔ after ≠ [] := by
    rw [← hfounded.heap_end_eq]
    cases after with
    | nil => simpa using hend
    | cons next rest =>
        have hnext_size := (h.size next (by simp)).1
        rw [total_cons] at hend
        simp only [ne_eq, reduceCtorEq, not_false_eq_true, iff_true]
        omega
  rw [split_eq, hnext]
  simp only [hlast]
  generalize hheap : Function.update (Function.update (Function.update (Function.update m.heap
    (total before + 12 + size) (mark m.small_mem false)) (total before + 12 + size + 4)
    (total before + length)) (total before + 12 + size + 8) (total before)) (total before + 4)
    (total before + 12 + size) = cut
  generalize hlinked : (if after ≠ [] then
    Function.update cut (total before + length + 8) (total before + 12 + size) else cut) = heap'
  have hcut : ∀ place, place < total before + length → heap' place = cut place := by
    intro place hplace
    rw [← hlinked]
    split
    · exact Function.update_of_ne (by omega) _ _
    · rfl
  have hwithin : Within m.heap heap' (total before)
      (total before + total [(⟨length, used⟩ : Block)]) := by
    intro place hplace
    simp only [total_cons, total_nil] at hplace
    have hplace' : heap' place = cut place := by
      rw [← hlinked]
      split
      · exact Function.update_of_ne (by omega) _ _
      · rfl
    rw [hplace', ← hheap, Function.update_of_ne (by omega), Function.update_of_ne (by omega),
      Function.update_of_ne (by omega), Function.update_of_ne (by omega)]
  refine ⟨heap', rfl, ?_, ?_⟩
  · have hold : Laid m.small_mem m.heap_end m.heap
        (before ++ [⟨length, used⟩] ++ after) := by
      rw [List.append_assoc]
      exact h
    have hnew : Laid m.small_mem m.heap_end heap' (before ++ [⟨size + 12, used⟩,
        ⟨length - (size + 12), false⟩] ++ after) :=
      hold.exchange (by simp) hwithin ?_ ?_ ?_ ?_
    · rw [List.append_assoc] at hnew
      exact hnew
    · refine ⟨?_, ?_, ?_, ?_, ?_, ?_, trivial⟩
      · rw [hcut _ (by omega), ← hheap, Function.update_of_ne (by omega),
          Function.update_of_ne (by omega), Function.update_of_ne (by omega),
          Function.update_of_ne (by omega)]
        exact hmark
      · rw [hcut _ (by omega), ← hheap, Function.update_self]
        simp only
        omega
      · rw [hcut _ (by omega), ← hheap, Function.update_of_ne (by omega),
          Function.update_of_ne (by omega), Function.update_of_ne (by omega),
          Function.update_of_ne (by omega)]
        exact hprev
      · simp only
        rw [show total before + (size + 12) = total before + 12 + size by omega,
          hcut _ (by omega), ← hheap, Function.update_of_ne (by omega),
          Function.update_of_ne (by omega), Function.update_of_ne (by omega),
          Function.update_self]
      · simp only
        rw [show total before + (size + 12) = total before + 12 + size by omega,
          hcut _ (by omega), ← hheap, Function.update_of_ne (by omega),
          Function.update_of_ne (by omega), Function.update_self]
        omega
      · simp only
        rw [show total before + (size + 12) = total before + 12 + size by omega,
          hcut _ (by omega), ← hheap, Function.update_of_ne (by omega), Function.update_self]
    · simp only [total_cons, total_nil]
      omega
    · intro hne
      simp only [total_cons, total_nil, Nat.add_zero, lastStart]
      rw [← hlinked, if_pos hne, Function.update_self]
      omega
    · intro block hmem
      rcases List.mem_pair.mp hmem with rfl | rfl
      · exact ⟨by simp only; omega, by simp only; omega⟩
      · exact ⟨by simp only; omega, by simp only; omega⟩
  · intro start count hmem place hlow hhigh
    rw [placed_append, List.mem_append, placed, placed, List.mem_cons, List.mem_cons] at hmem
    rcases hmem with hmem | hmem | hmem | hmem
    · have hin := le_of_mem_placed hmem
      simp only [Nat.zero_add] at hin
      exact hwithin.same (.inl hin.2) hlow hhigh
    · simp only [Nat.zero_add, Prod.mk.injEq, Block.mk.injEq] at hmem
      rcases hmem with ⟨hstart, hcount, -⟩
      rw [hcut _ (by omega), ← hheap, Function.update_of_ne (by omega),
        Function.update_of_ne (by omega), Function.update_of_ne (by omega),
        Function.update_of_ne (by omega)]
    · cases hmem
    · have hin := le_of_mem_placed hmem
      simp only [Nat.zero_add] at hin
      exact hwithin.same (.inr (by simp only [total_cons, total_nil]; omega)) hlow hhigh

/-- Cutting a free block leaves the used ones where they are. -/
theorem mem_placed_free_cut {start count rest : Nat} :
    (start, ⟨count, true⟩) ∈ placed 0 (before ++ ⟨size, false⟩ :: ⟨rest, false⟩ :: after) ↔
      (start, ⟨count, true⟩) ∈ placed 0 (before ++ ⟨size + rest, false⟩ :: after) := by
  simp [placed_append, placed, Nat.add_assoc]

/-- A free block is taken. -/
theorem take_laid (h : Laid m.small_mem m.heap_end m.heap (before ++ ⟨length, false⟩ :: after))
    (hfounded : Founded m) (hpos : 0 < size) (hmod : size % 4 = 0) (hroom : size + 12 ≤ length) :
    ∃ heap', m.take (total before) size =
        { m with
          heap := heap'
          used := m.used + usedSize (carve 24 (size + 12) ⟨length, false⟩)
          max :=
            if m.max < m.used + usedSize (carve 24 (size + 12) ⟨length, false⟩) then
              m.used + usedSize (carve 24 (size + 12) ⟨length, false⟩)
            else
              m.max } ∧
      Laid m.small_mem m.heap_end heap'
        (before ++ carve 24 (size + 12) ⟨length, false⟩ ++ after) ∧
      SameWords m.heap heap' (before ++ ⟨length, false⟩ :: after) := by
  have hlength : 12 < length ∧ length % 4 = 0 := h.size ⟨length, false⟩ (by simp)
  have hnext := h.next_eq
  simp only at hnext
  unfold take carve
  simp only [h.room_eq, sizeofStructMem, minSizeAligned]
  by_cases hcut : size + 12 + 24 ≤ length
  · rcases split_laid h hfounded hpos hmod (by omega) with ⟨cut, hsplit, hlaid, hwords⟩
    have hcase : size + 12 + 12 ≤ length - 12 := by omega
    simp only [if_pos hcase, if_pos hcut, hsplit]
    refine ⟨Function.update cut (total before) (mark m.small_mem true), ?_, ?_, ?_⟩
    · have hused : usedSize [⟨size + 12, true⟩, ⟨length - (size + 12), false⟩] = size + 12 := by
        simp [usedSize_cons]
      simp only [hused]
      split <;> rfl
    · have hmarked := hlaid.remark true
      rw [List.append_assoc]
      exact hmarked
    · have hlong : 12 < size + 12 := by omega
      have hstart : SameWords cut (Function.update cut (total before) (mark m.small_mem true))
          (before ++ ⟨size + 12, false⟩ :: ⟨length - (size + 12), false⟩ :: after) :=
        sameWords_update_start hlong _
      have hboth := hwords.trans hstart fun _ _ hmem => hmem
      intro start count hmem
      apply hboth start count
      rw [mem_placed_free_cut, Nat.add_sub_cancel' hroom]
      exact hmem
  · have hcase : ¬ size + 12 + 12 ≤ length - 12 := by omega
    simp only [if_neg hcase, if_neg hcut]
    refine ⟨Function.update m.heap (total before) (mark m.small_mem true), ?_, ?_, ?_⟩
    · have hused : usedSize [⟨length, true⟩] = length := by
        simp [usedSize_cons]
      simp only [hused, hnext, Nat.add_sub_cancel_left]
      split <;> rfl
    · have hmarked := h.remark true
      rw [List.append_assoc]
      exact hmarked
    · exact sameWords_update_start hlength.1 _

/-- The room that a request for a number of bytes gets at least. -/
def request (size : Nat) : Nat :=
  if align size < minSizeAligned then minSizeAligned else align size

/-- A request is a multiple of four. -/
theorem request_mod (size : Nat) : request size % 4 = 0 := by
  unfold request align minSizeAligned
  split <;> omega

/-- A request is no smaller than the smallest block. -/
theorem le_request (size : Nat) : 12 ≤ request size := by
  unfold request minSizeAligned
  split <;> omega

/-- A request that no free block has room for fails. -/
theorem Valid.alloc_eq_none {blocks : List Block} (h : Valid m blocks) (hpos : size ≠ 0)
    (hfit : firstFit (request size + 12) blocks = none) : m.alloc size = some (none, m) := by
  unfold alloc
  rw [if_neg hpos]
  simp only
  split
  · rfl
  · rename_i hsize
    have hend := h.laid.total_eq
    have hfound := h.founded.heap_end_eq
    have hleast := h.founded.least
    have hrequest : (if align size < minSizeAligned then minSizeAligned else align size) =
        request size := rfl
    rcases exists_lead blocks with ⟨lead, rest, rfl, hlead, hfirst, -⟩
    have hlength := length_le_total fun b hb =>
      Nat.zero_lt_of_lt (h.laid.size b (List.mem_append_right lead hb)).1
    rw [total_append] at hend
    have hfits : request size ≤ m.mem_size_aligned := by
      unfold request minSizeAligned
      split <;> omega
    have hfuel : rest.length < m.fuel := by
      unfold fuel
      omega
    have hscan := scan_eq h.laid h.founded hfits hfuel
    rw [firstFit_append hlead, Option.map_eq_none_iff] at hfit
    rw [hrequest, h.lfree_eq, hfirst, hscan, hfit]
    rfl

/-- The lowest free pointer is at a free item or at the end. -/
theorem Laid.firstFree_free {blocks : List Block}
    (h : Laid m.small_mem m.heap_end m.heap blocks) :
    firstFree blocks = m.heap_end ∨ m.isUsed (firstFree blocks) = false := by
  rcases exists_lead blocks with ⟨lead, rest, rfl, -, hfirst, hrest⟩
  rw [hfirst]
  cases rest with
  | nil =>
      left
      have hend := h.total_eq
      rw [List.append_nil] at hend
      exact hend
  | cons block tail =>
      right
      rw [h.isUsed_eq]
      exact hrest block rfl

/-- Where the lowest free pointer goes when a block is taken. -/
theorem raise_taken {taken : SmallMem} {cut : List Block}
    (hlaid : Laid taken.small_mem taken.heap_end taken.heap (before ++ cut ++ after))
    (block : Block) (hfree : block.used = false) (hbefore : ∀ b ∈ before, 0 < b.size)
    (hlfree : taken.lfree = firstFree (before ++ block :: after)) :
    (if total before = taken.lfree then taken.raise taken.fuel taken.lfree
      else some taken.lfree) = some (firstFree (before ++ cut ++ after)) := by
  have hend := hlaid.total_eq
  have hlength := length_le_total fun b hb => Nat.zero_lt_of_lt (hlaid.size b hb).1
  rw [List.append_assoc] at hlaid hlength ⊢
  rw [List.length_append] at hlength
  by_cases hall : ∀ b ∈ before, b.used = true
  · have hhere : taken.lfree = total before := by
      rw [hlfree, firstFree_append hall, firstFree, if_neg (by simp [hfree]), Nat.add_zero]
    rw [if_pos hhere.symm, hhere, raise_eq hlaid, firstFree_append hall]
    unfold fuel
    rw [← hend, List.append_assoc]
    omega
  · have hlow := firstFree_lt_total hall hbefore
    rw [firstFree_append_of_free hall] at hlfree
    rw [if_neg (by omega), hlfree, firstFree_append_of_free hall]

/-- A request takes the first free block that has room.  The block is cut in two when what is
left has room for another one, and the blocks in use keep their words. -/
theorem Valid.alloc_spec {blocks : List Block} {block : Block} (h : Valid m blocks)
    (hpos : size ≠ 0) (hfit : firstFit (request size + 12) blocks = some (before, block, after)) :
    ∃ m', m.alloc size = some (some (total before + sizeofStructMem), m') ∧
      Valid m' (before ++ carve 24 (request size + 12) block ++ after) ∧
      SameWords m.heap m'.heap blocks := by
  rcases firstFit_eq_some hfit with ⟨hblocks, hfree, hroom, -⟩
  rcases block with ⟨length, used⟩
  simp only at hfree hroom
  subst hfree
  have hend := h.laid.total_eq
  have hfound := h.founded.heap_end_eq
  have hrequest : (if align size < minSizeAligned then minSizeAligned else align size) =
      request size := rfl
  have hle := le_request size
  have halign : align size ≤ request size := by
    unfold request
    split <;> omega
  -- The scan stops at the block.
  have hscan : m.scan (request size) m.fuel m.lfree = some (some (total before)) := by
    rcases exists_lead blocks with ⟨lead, rest, rfl, hlead, hfirst, -⟩
    have hlength := length_le_total fun b hb =>
      Nat.zero_lt_of_lt (h.laid.size b (List.mem_append_right lead hb)).1
    have hhere := congrArg total hblocks
    simp only [total_append, total_cons] at hend hhere
    rw [h.lfree_eq, hfirst, scan_eq h.laid h.founded (by omega) (by unfold fuel; omega)]
    rw [firstFit_append hlead] at hfit
    rcases Option.map_eq_some_iff.mp hfit with ⟨found, hfound', heq⟩
    have hlead' : lead ++ found.1 = before := congrArg Prod.fst heq
    rw [hfound', Option.map_some, ← total_append, hlead']
  subst hblocks
  simp only [total_append, total_cons] at hend
  have hsmall : ¬ m.mem_size_aligned < align size := by omega
  rcases take_laid h.laid h.founded (Nat.lt_of_lt_of_le (by decide) hle) (request_mod size) hroom
    with ⟨heap', htake, hlaid, hwords⟩
  unfold alloc
  rw [if_neg hpos]
  simp only [if_neg hsmall, hrequest, hscan]
  generalize m.take (total before) (request size) = taken at htake ⊢
  have htaken : Laid taken.small_mem taken.heap_end taken.heap
      (before ++ carve 24 (request size + 12) ⟨length, false⟩ ++ after) := by
    rw [htake]
    exact hlaid
  have hlfree : taken.lfree = m.lfree := by rw [htake]
  have hraise := raise_taken htaken ⟨length, false⟩ rfl
    (fun b hb => Nat.zero_lt_of_lt (h.laid.size b (List.mem_append_left _ hb)).1)
    (hlfree.trans h.lfree_eq)
  have hmod := h.laid.total_before_mod
  have hbound : total before + sizeofStructMem + request size ≤ taken.heap_end := by
    rw [htake]
    simp only [sizeofStructMem]
    omega
  have hchecks : (firstFree (before ++ carve 24 (request size + 12) ⟨length, false⟩ ++ after) =
        taken.heap_end ∨
      taken.isUsed (firstFree
        (before ++ carve 24 (request size + 12) ⟨length, false⟩ ++ after)) = false ∨
      total before ≠ taken.lfree) ∧
      total before + sizeofStructMem + request size ≤ taken.heap_end ∧
      (total before + sizeofStructMem) % 4 = 0 ∧ total before % 4 = 0 := by
    refine ⟨?_, hbound, by unfold sizeofStructMem; omega, hmod⟩
    rcases htaken.firstFree_free with hlast | hfree
    · exact .inl hlast
    · exact .inr (.inl hfree)
  rw [← hlfree, hraise]
  refine ⟨_, if_pos hchecks, ?_, ?_⟩
  · have hcarved := coalesced_carve 24 (request size + 12) h.coalesced rfl
    refine ⟨htaken, hcarved, rfl, ?_, ?_, ?_⟩
    · have hused := h.used_eq
      simp only [usedSize_append, usedSize_cons] at hused ⊢
      rw [htake]
      simp at hused ⊢
      omega
    · rw [htake]
      simp only
      split <;> omega
    · rw [htake]
      exact h.founded.congr rfl rfl rfl
  · rw [htake]
    exact hwords

end Take

/-! ## Making a block shorter -/

section Shrink

variable {m : SmallMem} {before after : List Block} {size length : Nat}

/-- What {lit}`rt_smem_realloc` does to a block that it cuts, in front of the joins. -/
theorem Valid.firstFree_shrink (h : Valid m (before ++ ⟨length, true⟩ :: after))
    (hroom : size + 12 + 12 < length) :
    firstFree (before ++ ⟨size + 12, true⟩ :: ⟨length - (size + 12), false⟩ :: after) =
      if total before + 12 + size < m.lfree then total before + 12 + size else m.lfree := by
  have hcut := firstFree_cut_used before (size + 12) (length - (size + 12)) after
  rw [Nat.add_sub_cancel' (by omega), ← h.lfree_eq, List.append_cons] at hcut
  have hinsert := firstFree_insert (before ++ [⟨size + 12, true⟩])
    ⟨length - (size + 12), true⟩ rfl (show 0 < length - (size + 12) by omega)
    (length - (size + 12)) after after
  have htotal : total (before ++ [⟨size + 12, true⟩]) = total before + 12 + size := by
    simp only [total_append, total_cons, total_nil]
    omega
  rw [hcut, htotal] at hinsert
  rw [List.append_cons]
  exact hinsert

/-- A block that gets much shorter stays where it is.  What is cut off is joined with the free
block behind it. -/
theorem Valid.shrink_spec (h : Valid m (before ++ ⟨length, true⟩ :: after))
    (hpos : 0 < align size) (hroom : align size + 12 + 12 < length - 12) :
    ∃ m', m.realloc (some (total before + sizeofStructMem)) size =
        some (some (total before + sizeofStructMem), m') ∧
      Valid m' (before ++ ⟨align size + 12, true⟩ ::
        joinNext (length - (align size + 12)) after) ∧
      SameWords m.heap m'.heap (before ++ ⟨align size + 12, true⟩ ::
        ⟨length - (align size + 12), false⟩ :: after) := by
  have hend := h.laid.total_eq
  simp only [total_append, total_cons] at hend
  have hfound := h.founded.heap_end_eq
  have hmod := h.laid.total_before_mod
  have hused := h.used_eq
  simp only [usedSize_append, usedSize_cons, if_true] at hused
  have hsize_mod : align size % 4 = 0 := by
    unfold align
    omega
  have hfit : ¬ m.mem_size_aligned < align size := by omega
  have hplace : (total before + 12) % 4 = 0 ∧ total before + 12 < m.heap_end :=
    ⟨by omega, by omega⟩
  rcases split_laid h.laid h.founded hpos hsize_mod (by omega) with
    ⟨heap', hsplit, hlaid, hwords⟩
  have hfirst := h.firstFree_shrink (show align size + 12 + 12 < length by omega)
  have hrejoin := release_append_used before (align size + 12) (length - (align size + 12)) after
  have htotal : total (before ++ [⟨align size + 12, true⟩]) =
      total before + 12 + align size := by
    simp only [total_append, total_cons, total_nil]
    omega
  rw [List.append_cons] at hlaid hfirst
  rcases plugHoles_rearranges (m := { m with
      heap := heap'
      lfree := firstFree (before ++ [⟨align size + 12, true⟩] ++
        ⟨length - (align size + 12), false⟩ :: after)
      used := m.used - (length - 12 - align size) }) hlaid rfl with ⟨m', hplug, hrearranged⟩
  rw [htotal] at hplug
  rw [hrejoin] at hrearranged
  refine ⟨m', ?_, ?_, ?_⟩
  · unfold realloc
    simp only [sizeofStructMem, minSizeAligned, Nat.add_sub_cancel, if_neg hfit,
      if_neg (Nat.ne_of_gt hpos), h.laid.room_eq, if_pos hplace]
    rw [if_neg (by omega), if_pos hroom, hsplit]
    rw [hfirst] at hplug
    by_cases hlow : total before + 12 + align size < m.lfree
    · rw [if_pos hlow] at hplug
      simp only [if_pos hlow, hplug, Option.map_some]
    · rw [if_neg hlow] at hplug
      simp only [if_neg hlow, hplug, Option.map_some]
  · refine hrearranged.valid ?_ ?_ ?_ ?_
    · exact coalesced_shrink _ _ h.coalesced
    · simp only [usedSize_append, usedSize_cons, usedSize_joinNext, if_true]
      omega
    · exact (Nat.sub_le _ _).trans h.used_le
    · exact h.founded.congr rfl rfl rfl
  · rw [List.append_cons] at hwords ⊢
    exact hwords.trans hrearranged.words fun _ _ hmem => hmem

end Shrink

end SmallMem
end RtThread
end TestAio
