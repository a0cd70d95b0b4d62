import Mathlib.Data.List.Nodup
import Mathlib.Logic.Function.Basic
import Mathlib.Order.Fin.Basic
import TestAio.Library.RingOrder

/-!
# The ring block buffer of the device drivers

{lit}`components/drivers/ipc/ringblk_buf.c` hands out blocks of a buffer that are filled, taken
and given back without copying.  The descriptors of the blocks come from a set of fixed size.

Main results:

- Theorem {lit}`run_separates`: with requests that fit the buffer the blocks never overlap, and a
  request fails exactly when no descriptor or no place in ring order is left.
- Theorem {lit}`run_loses_slots`: each request that finds a descriptor but no place loses the
  descriptor for good.

Current gaps:

- Creating and destroying a buffer are calls of the allocator only.
-/

namespace TestAio
namespace RtThread

open Library Library.RingOrder
open scoped List

/-- {lit}`enum rt_rbb_status`. -/
inductive RbbStatus
  | unused
  | inited
  | put
  | get
deriving DecidableEq

/-- {lit}`struct rt_rbb_blk`.  Addresses count from the start of the buffer, and the node of the
list is the place in the lists of {lit}`Rbb`. -/
structure RbbBlk where
  status : RbbStatus
  size : Nat
  buf : Nat
deriving DecidableEq

/-- {lit}`struct rt_rbb_blk_queue`. -/
structure RbbBlkQueue (max : Nat) where
  blocks : Fin max
  blk_num : Nat
deriving DecidableEq

/-- {lit}`struct rt_rbb` with {lit}`blk_max_num` descriptors.  {lit}`tail` is the last node of
{lit}`blk_list`. -/
structure Rbb (max : Nat) where
  buf_size : Nat
  blk_set : Fin max → RbbBlk
  blk_list : List (Fin max)
  free_list : List (Fin max)

namespace Rbb

variable {max : Nat}

/-! ## The functions -/

/-- The subtraction of {lit}`rt_size_t`. -/
def sizeSub (a b : Nat) : Nat :=
  (a + 2 ^ 32 - b % 2 ^ 32) % 2 ^ 32

/-- {lit}`rt_rbb_init`. -/
def init (buf_size : Nat) (block_set : Fin max → RbbBlk) : Rbb max where
  buf_size := buf_size
  blk_set i := { block_set i with status := .unused }
  blk_list := []
  free_list := (List.finRange max).foldl (fun free_list i => i :: free_list) []

/-- A block gets another status. -/
def setStatus (rbb : Rbb max) (block : Fin max) (status : RbbStatus) : Rbb max :=
  { rbb with
    blk_set := Function.update rbb.blk_set block { rbb.blk_set block with status := status } }

/-- {lit}`find_empty_blk_in_set`; {lit}`none` when its assertion fails. -/
def findEmptyBlkInSet (rbb : Rbb max) : Option (Option (Fin max) × Rbb max) :=
  match rbb.free_list with
  | [] => some (none, rbb)
  | blk :: free_list =>
      if (rbb.blk_set blk).status = .unused then
        some (some blk, { rbb with free_list := free_list })
      else
        none

/-- Where {lit}`rt_rbb_blk_alloc` puts a block of a size. -/
def placeFor (rbb : Rbb max) (blk_size : Nat) : Option Nat :=
  match rbb.blk_list.head?, rbb.blk_list.getLast? with
  | some head, some tail =>
      let head := rbb.blk_set head
      let tail := rbb.blk_set tail
      if head.buf ≤ tail.buf then
        if blk_size ≤ sizeSub rbb.buf_size (tail.buf + tail.size) then
          some (tail.buf + tail.size)
        else if blk_size ≤ head.buf then
          some 0
        else
          none
      else if blk_size ≤ sizeSub head.buf (tail.buf + tail.size) then
        some (tail.buf + tail.size)
      else
        none
  | _, _ => some 0

/-- {lit}`list_append` of a block with its place. -/
def listAppend (rbb : Rbb max) (new_rbb : Fin max) (buf blk_size : Nat) : Rbb max :=
  { rbb with
    blk_list := rbb.blk_list ++ [new_rbb]
    blk_set := Function.update rbb.blk_set new_rbb ⟨.inited, blk_size, buf⟩ }

/-- {lit}`rt_rbb_blk_alloc`; {lit}`none` when an assertion fails. -/
def blkAlloc (rbb : Rbb max) (blk_size : Nat) : Option (Option (Fin max) × Rbb max) :=
  if blk_size < 2 ^ 24 then
    match rbb.findEmptyBlkInSet with
    | none => none
    | some (none, rbb) => some (none, rbb)
    | some (some new_rbb, rbb) =>
        match rbb.placeFor blk_size with
        | some buf => some (some new_rbb, rbb.listAppend new_rbb buf blk_size)
        | none => some (none, rbb)
  else
    none

/-- {lit}`rt_rbb_blk_put`; {lit}`none` when its assertion fails. -/
def blkPut (rbb : Rbb max) (block : Fin max) : Option (Rbb max) :=
  if (rbb.blk_set block).status = .inited then some (rbb.setStatus block .put) else none

/-- {lit}`rt_rbb_blk_get`. -/
def blkGet (rbb : Rbb max) : Option (Fin max) × Rbb max :=
  match rbb.blk_list.find? fun block => (rbb.blk_set block).status = .put with
  | some block => (some block, rbb.setStatus block .get)
  | none => (none, rbb)

/-- {lit}`rt_rbb_blk_free`; {lit}`none` when its assertion fails. -/
def blkFree (rbb : Rbb max) (block : Fin max) : Option (Rbb max) :=
  if (rbb.blk_set block).status = .unused then
    none
  else
    some { rbb.setStatus block .unused with
      blk_list := rbb.blk_list.erase block
      free_list := block :: rbb.free_list }

/-- The conditions that break the loop of {lit}`rt_rbb_blk_queue_get`. -/
def breaks (rbb : Rbb max) (queue_data_len data_total_size : Nat) (last_block block : Fin max) :
    Bool :=
  (rbb.blk_set block).status != .put ||
    decide ((rbb.blk_set block).buf < (rbb.blk_set last_block).buf) ||
    decide (queue_data_len < (data_total_size + (rbb.blk_set block).size) % 2 ^ 32)

/-- The loop of {lit}`rt_rbb_blk_queue_get` over the nodes that are left.  Behind the last node it
reads the next one of a null pointer, which is {lit}`none` here: only a {lit}`break` ends it. -/
def blkQueueGetFrom (queue_data_len : Nat) :
    List (Fin max) → Option (Fin max) → Nat → RbbBlkQueue max → Rbb max →
      Option (Nat × RbbBlkQueue max × Rbb max)
  | [], _, _, _, _ => none
  | block :: nodes, none, data_total_size, blk_queue, rbb =>
      if (rbb.blk_set block).status = .put then
        blkQueueGetFrom queue_data_len nodes (some block)
          ((data_total_size + (rbb.blk_set block).size) % 2 ^ 32) ⟨block, 1⟩
          (rbb.setStatus block .get)
      else
        blkQueueGetFrom queue_data_len nodes none data_total_size blk_queue rbb
  | block :: nodes, some last_block, data_total_size, blk_queue, rbb =>
      if rbb.breaks queue_data_len data_total_size last_block block then
        some (data_total_size, blk_queue, rbb)
      else
        blkQueueGetFrom queue_data_len nodes (some block)
          ((data_total_size + (rbb.blk_set block).size) % 2 ^ 32)
          { blk_queue with blk_num := blk_queue.blk_num + 1 } (rbb.setStatus block .get)

/-- {lit}`rt_rbb_blk_queue_get`: a queue without blocks is left as it was.  It is {lit}`none` when
the loop reads through a null pointer. -/
def blkQueueGet (rbb : Rbb max) (queue_data_len : Nat) (blk_queue : RbbBlkQueue max) :
    Option (Nat × RbbBlkQueue max × Rbb max) :=
  if rbb.blk_list.isEmpty then
    some (0, blk_queue, rbb)
  else
    blkQueueGetFrom queue_data_len rbb.blk_list none 0 blk_queue rbb

/-- The loop of {lit}`rt_rbb_next_blk_queue_len`. -/
def nextBlkQueueLenFrom (rbb : Rbb max) : List (Fin max) → Option (Fin max) → Nat → Nat
  | [], _, data_len => data_len
  | block :: nodes, none, data_len =>
      if (rbb.blk_set block).status = .put then
        nextBlkQueueLenFrom rbb nodes (some block)
          ((data_len + (rbb.blk_set block).size) % 2 ^ 32)
      else
        nextBlkQueueLenFrom rbb nodes none data_len
  | block :: nodes, some last_block, data_len =>
      if (rbb.blk_set block).status ≠ .put ∨
          (rbb.blk_set block).buf < (rbb.blk_set last_block).buf then
        data_len
      else
        nextBlkQueueLenFrom rbb nodes (some block)
          ((data_len + (rbb.blk_set block).size) % 2 ^ 32)

/-- {lit}`rt_rbb_next_blk_queue_len`. -/
def nextBlkQueueLen (rbb : Rbb max) : Nat :=
  nextBlkQueueLenFrom rbb rbb.blk_list none 0

/-- The node behind a node of a list. -/
def successor (block : Fin max) (nodes : List (Fin max)) : Option (Fin max) :=
  (nodes.dropWhile fun node => node ≠ block).tail.head?

/-- {lit}`block->list.next`. -/
def next (rbb : Rbb max) (block : Fin max) : Option (Fin max) :=
  if block ∈ rbb.blk_list then successor block rbb.blk_list else successor block rbb.free_list

/-- The loop of {lit}`rt_rbb_blk_queue_len`; {lit}`none` behind the end of a list. -/
def blkQueueLenFrom (rbb : Rbb max) : Nat → Option (Fin max) → Nat → Option Nat
  | 0, _, data_total_size => some data_total_size
  | _ + 1, none, _ => none
  | blk_num + 1, some blk, data_total_size =>
      blkQueueLenFrom rbb blk_num (rbb.next blk)
        ((data_total_size + (rbb.blk_set blk).size) % 2 ^ 32)

/-- {lit}`rt_rbb_blk_queue_len`. -/
def blkQueueLen (rbb : Rbb max) (blk_queue : RbbBlkQueue max) : Option Nat :=
  blkQueueLenFrom rbb blk_queue.blk_num (some blk_queue.blocks) 0

/-- {lit}`rt_rbb_blk_queue_buf`. -/
def blkQueueBuf (rbb : Rbb max) (blk_queue : RbbBlkQueue max) : Nat :=
  (rbb.blk_set blk_queue.blocks).buf

/-- The loop of {lit}`rt_rbb_blk_queue_free`. -/
def blkQueueFreeFrom : Nat → Option (Fin max) → Rbb max → Option (Rbb max)
  | 0, _, rbb => some rbb
  | _ + 1, none, _ => none
  | blk_num + 1, some blk, rbb => do
      let next_blk := rbb.next blk
      let rbb ← rbb.blkFree blk
      blkQueueFreeFrom blk_num next_blk rbb

/-- {lit}`rt_rbb_blk_queue_free`; {lit}`none` when an assertion fails or a list ends. -/
def blkQueueFree (rbb : Rbb max) (blk_queue : RbbBlkQueue max) : Option (Rbb max) :=
  blkQueueFreeFrom blk_queue.blk_num (some blk_queue.blocks) rbb

/-! ## Runs -/

/-- What the producer and the consumer call. -/
inductive Request (max : Nat)
  | alloc (blk_size : Nat)
  | put (block : Fin max)
  | get
  | free (block : Fin max)
  | queueGet (queue_data_len : Nat) (blk_queue : RbbBlkQueue max)
  | queueFree (blk_queue : RbbBlkQueue max)

/-- What came of it: a request is refused when a descriptor but no place was found. -/
inductive Entry (max : Nat)
  | granted (block : Fin max) (blk_size : Nat)
  | refused
  | exhausted
  | filled (block : Fin max)
  | taken (blocks : List (Fin max))
  | freed (block : Fin max)
deriving DecidableEq

/-- What came of a request for a block. -/
def allocEntry (rbb : Rbb max) (blk_size : Nat) : Option (Fin max) → Entry max
  | some block => .granted block blk_size
  | none => if rbb.free_list = [] then .exhausted else .refused

/-- The blocks that a call has taken. -/
def takenBlocks (rbb rbb' : Rbb max) : List (Fin max) :=
  rbb.blk_list.filter fun block =>
    (rbb.blk_set block).status == .put && (rbb'.blk_set block).status == .get

/-- The blocks that a call has given back. -/
def freedBlocks (rbb rbb' : Rbb max) : List (Fin max) :=
  rbb.blk_list.filter fun block => (rbb'.blk_set block).status == .unused

/-- One call; {lit}`none` when an assertion fails or a null pointer is read. -/
def step (rbb : Rbb max) : Request max → Option (List (Entry max) × Rbb max)
  | .alloc blk_size => do
      let result ← rbb.blkAlloc blk_size
      some ([rbb.allocEntry blk_size result.1], result.2)
  | .put block => do
      let rbb ← rbb.blkPut block
      some ([.filled block], rbb)
  | .get => some ([.taken (rbb.takenBlocks rbb.blkGet.2)], rbb.blkGet.2)
  | .free block => do
      let rbb ← rbb.blkFree block
      some ([.freed block], rbb)
  | .queueGet queue_data_len blk_queue => do
      let result ← rbb.blkQueueGet queue_data_len blk_queue
      some ([.taken (rbb.takenBlocks result.2.2)], result.2.2)
  | .queueFree blk_queue => do
      let rbb' ← rbb.blkQueueFree blk_queue
      some ((rbb.freedBlocks rbb').map .freed, rbb')

/-- The calls one after the other. -/
def run : List (Request max) → Rbb max → Option (List (Entry max) × Rbb max)
  | [], rbb => some ([], rbb)
  | request :: requests, rbb => do
      let result ← rbb.step request
      let rest ← run requests result.2
      some (result.1 ++ rest.1, rest.2)

/-- Every call of a run obeys a rule. -/
def Obeys (rule : Rbb max → Request max → Prop) : List (Request max) → Rbb max → Prop
  | [], _ => True
  | request :: requests, rbb =>
      rule rbb request ∧ ∀ result ∈ rbb.step request, Obeys rule requests result.2

instance decidableObeys (rule : Rbb max → Request max → Prop)
    [∀ rbb request, Decidable (rule rbb request)] :
    (requests : List (Request max)) → (rbb : Rbb max) → Decidable (Obeys rule requests rbb)
  | [], _ => isTrue trivial
  | request :: requests, rbb =>
      have := fun result : List (Entry max) × Rbb max => decidableObeys rule requests result.2
      inferInstanceAs (Decidable (rule rbb request ∧
        ∀ result ∈ rbb.step request, Obeys rule requests result.2))

/-! ## Fields behind the changes -/

section Fields

variable (rbb : Rbb max) (block i : Fin max) (status : RbbStatus)

@[simp]
theorem setStatus_blk_list : (rbb.setStatus block status).blk_list = rbb.blk_list :=
  rfl

@[simp]
theorem setStatus_free_list : (rbb.setStatus block status).free_list = rbb.free_list :=
  rfl

/-- Only the status of one block changes. -/
theorem setStatus_blk_set : (rbb.setStatus block status).blk_set i =
    if i = block then { rbb.blk_set i with status := status } else rbb.blk_set i := by
  unfold setStatus
  by_cases h : i = block
  · subst h
    simp
  · simp [h]

/-- The status that was set is read again. -/
theorem setStatus_status : ((rbb.setStatus block status).blk_set i).status =
    if i = block then status else (rbb.blk_set i).status := by
  rw [setStatus_blk_set]
  split <;> rfl

@[simp]
theorem setStatus_size :
    ((rbb.setStatus block status).blk_set i).size = (rbb.blk_set i).size := by
  rw [setStatus_blk_set]
  split <;> rfl

@[simp]
theorem setStatus_buf :
    ((rbb.setStatus block status).blk_set i).buf = (rbb.blk_set i).buf := by
  rw [setStatus_blk_set]
  split <;> rfl

/-- Some blocks are taken. -/
def gotten (taken : List (Fin max)) : Rbb max :=
  { rbb with
    blk_set := fun i =>
      if i ∈ taken then { rbb.blk_set i with status := .get } else rbb.blk_set i }

/-- Taking no blocks changes nothing. -/
theorem gotten_nil : rbb.gotten [] = rbb := by
  simp [gotten]

/-- Taking one block sets its status. -/
theorem gotten_singleton : rbb.gotten [block] = rbb.setStatus block .get := by
  have hset : ∀ i, (rbb.gotten [block]).blk_set i = (rbb.setStatus block .get).blk_set i := by
    intro i
    rw [setStatus_blk_set]
    simp [gotten]
  have hfun := funext hset
  unfold gotten setStatus at hfun ⊢
  rw [Rbb.mk.injEq]
  exact ⟨rfl, hfun, rfl, rfl⟩

/-- Blocks are taken one after the other. -/
theorem gotten_setStatus (taken : List (Fin max)) :
    (rbb.setStatus block .get).gotten taken = rbb.gotten (block :: taken) := by
  rw [← gotten_singleton]
  unfold gotten
  rw [Rbb.mk.injEq]
  refine ⟨rfl, funext fun i => ?_, rfl, rfl⟩
  by_cases h : i = block <;> by_cases h' : i ∈ taken <;> simp [h, h']

/-- The status of the blocks that were taken. -/
theorem gotten_status (taken : List (Fin max)) : ((rbb.gotten taken).blk_set i).status =
    if i ∈ taken then .get else (rbb.blk_set i).status := by
  unfold gotten
  dsimp only
  split <;> rfl

@[simp]
theorem gotten_size (taken : List (Fin max)) :
    ((rbb.gotten taken).blk_set i).size = (rbb.blk_set i).size := by
  unfold gotten
  dsimp only
  split <;> rfl

@[simp]
theorem gotten_buf (taken : List (Fin max)) :
    ((rbb.gotten taken).blk_set i).buf = (rbb.blk_set i).buf := by
  unfold gotten
  dsimp only
  split <;> rfl

end Fields

/-! ## What one call does -/

section Calls

variable {rbb rbb' : Rbb max} {block : Fin max}

/-- What a request for a block can do: there is no descriptor, there is no place, or a block is
appended. -/
theorem alloc_cases {blk_size : Nat} {result : Option (Fin max)}
    (h : rbb.blkAlloc blk_size = some (result, rbb')) :
    (rbb.free_list = [] ∧ result = none ∧ rbb' = rbb) ∨
      ∃ blk free_list, rbb.free_list = blk :: free_list ∧ (rbb.blk_set blk).status = .unused ∧
        ((rbb.placeFor blk_size = none ∧ result = none ∧
            rbb' = { rbb with free_list := free_list }) ∨
          ∃ buf, rbb.placeFor blk_size = some buf ∧ result = some blk ∧
            rbb' = { rbb with free_list := free_list }.listAppend blk buf blk_size) := by
  unfold blkAlloc findEmptyBlkInSet at h
  split at h
  · cases hlist : rbb.free_list with
    | nil =>
        rw [hlist] at h
        cases h
        exact Or.inl ⟨rfl, rfl, rfl⟩
    | cons blk free_list =>
        rw [hlist] at h
        dsimp only at h
        by_cases hunused : (rbb.blk_set blk).status = .unused
        · rw [if_pos hunused] at h
          dsimp only at h
          have hplace : { rbb with free_list := free_list }.placeFor blk_size =
              rbb.placeFor blk_size := rfl
          rw [hplace] at h
          refine Or.inr ⟨blk, free_list, rfl, hunused, ?_⟩
          cases hbuf : rbb.placeFor blk_size with
          | none =>
              rw [hbuf] at h
              cases h
              exact Or.inl ⟨rfl, rfl, rfl⟩
          | some buf =>
              rw [hbuf] at h
              cases h
              exact Or.inr ⟨buf, rfl, rfl, rfl⟩
        · rw [if_neg hunused] at h
          contradiction
  · contradiction

/-- A block that is filled was being filled. -/
theorem put_cases (h : rbb.blkPut block = some rbb') :
    (rbb.blk_set block).status = .inited ∧ rbb' = rbb.setStatus block .put := by
  unfold blkPut at h
  split at h
  · rename_i hinited
    cases h
    exact ⟨hinited, rfl⟩
  · contradiction

/-- A block that is given back was in use, and its descriptor becomes the first free one. -/
theorem free_cases (h : rbb.blkFree block = some rbb') :
    (rbb.blk_set block).status ≠ .unused ∧
      rbb' = { rbb.setStatus block .unused with
        blk_list := rbb.blk_list.erase block
        free_list := block :: rbb.free_list } := by
  unfold blkFree at h
  split at h
  · contradiction
  · rename_i hused
    cases h
    exact ⟨hused, rfl⟩

/-- The sizes of blocks, added up as the loops do. -/
def totalSize (rbb : Rbb max) (total : Nat) (blocks : List (Fin max)) : Nat :=
  blocks.foldl (fun total block => (total + (rbb.blk_set block).size) % 2 ^ 32) total

/-- A status does not change the sizes. -/
theorem totalSize_setStatus (rbb : Rbb max) (block : Fin max) (status : RbbStatus) (total : Nat)
    (blocks : List (Fin max)) :
    (rbb.setStatus block status).totalSize total blocks = rbb.totalSize total blocks := by
  simp [totalSize]

/-- What the loop of a queue takes behind a block: filled blocks that do not go down. -/
theorem blkQueueGetFrom_some {nodes : List (Fin max)} (hnodup : nodes.Nodup) {rbb : Rbb max}
    {queue_data_len total : Nat} {last : Fin max} {blk_queue : RbbBlkQueue max}
    {result : Nat × RbbBlkQueue max × Rbb max}
    (h : blkQueueGetFrom queue_data_len nodes (some last) total blk_queue rbb = some result) :
    ∃ taken rest, nodes = taken ++ rest ∧
      (∀ block ∈ taken, (rbb.blk_set block).status = .put) ∧
      (last :: taken).IsChain (fun a b => (rbb.blk_set a).buf ≤ (rbb.blk_set b).buf) ∧
      (taken ≠ [] → rbb.totalSize total taken ≤ queue_data_len) ∧
      result = (rbb.totalSize total taken,
        { blk_queue with blk_num := blk_queue.blk_num + taken.length }, rbb.gotten taken) := by
  induction nodes generalizing rbb total last blk_queue with
  | nil => contradiction
  | cons block nodes ih =>
      rw [List.nodup_cons] at hnodup
      rw [blkQueueGetFrom] at h
      by_cases hbreaks : rbb.breaks queue_data_len total last block = true
      · rw [if_pos hbreaks] at h
        cases h
        refine ⟨[], block :: nodes, rfl, by simp, List.isChain_singleton _, by simp, ?_⟩
        simp [totalSize, gotten_nil]
      · rw [if_neg hbreaks] at h
        rcases ih hnodup.2 h with ⟨taken, rest, hnodes, hput, hchain, hlen, heq⟩
        rw [totalSize_setStatus] at hlen heq
        simp only [setStatus_buf] at hchain
        have hgo : (rbb.blk_set block).status = .put ∧
            (rbb.blk_set last).buf ≤ (rbb.blk_set block).buf ∧
            (total + (rbb.blk_set block).size) % 2 ^ 32 ≤ queue_data_len := by
          simpa [breaks, and_assoc] using hbreaks
        refine ⟨block :: taken, rest, by rw [hnodes, List.cons_append], ?_, ?_, ?_, ?_⟩
        · intro other hother
          rcases List.mem_cons.mp hother with rfl | hmem
          · exact hgo.1
          · have hne : other ≠ block := by
              rintro rfl
              exact hnodup.1 (hnodes ▸ List.mem_append_left _ hmem)
            have hstatus := hput other hmem
            rwa [setStatus_status, if_neg hne] at hstatus
        · exact List.isChain_cons_cons.mpr ⟨hgo.2.1, hchain⟩
        · intro _
          cases taken with
          | nil => exact hgo.2.2
          | cons other taken => exact hlen (by simp)
        · rw [heq, gotten_setStatus]
          simp [totalSize, Nat.add_comm, Nat.add_left_comm]

/-- What the loop takes from its start on: a filled block and blocks behind it. -/
theorem blkQueueGetFrom_none {nodes : List (Fin max)} (hnodup : nodes.Nodup) {rbb : Rbb max}
    {queue_data_len : Nat} {blk_queue : RbbBlkQueue max}
    {result : Nat × RbbBlkQueue max × Rbb max}
    (h : blkQueueGetFrom queue_data_len nodes none 0 blk_queue rbb = some result) :
    ∃ skipped first taken rest, nodes = skipped ++ first :: taken ++ rest ∧
      (∀ block ∈ skipped, (rbb.blk_set block).status ≠ .put) ∧
      (∀ block ∈ first :: taken, (rbb.blk_set block).status = .put) ∧
      (first :: taken).IsChain (fun a b => (rbb.blk_set a).buf ≤ (rbb.blk_set b).buf) ∧
      (taken ≠ [] → rbb.totalSize 0 (first :: taken) ≤ queue_data_len) ∧
      result = (rbb.totalSize 0 (first :: taken), ⟨first, (first :: taken).length⟩,
        rbb.gotten (first :: taken)) := by
  induction nodes with
  | nil => contradiction
  | cons block nodes ih =>
      rw [List.nodup_cons] at hnodup
      rw [blkQueueGetFrom] at h
      by_cases hput : (rbb.blk_set block).status = .put
      · rw [if_pos hput] at h
        rcases blkQueueGetFrom_some hnodup.2 h with ⟨taken, rest, hnodes, htaken, hchain, hlen, heq⟩
        rw [totalSize_setStatus] at hlen heq
        simp only [setStatus_buf] at hchain
        refine ⟨[], block, taken, rest, by rw [hnodes]; rfl, by simp, ?_, hchain, hlen, ?_⟩
        · intro other hother
          rcases List.mem_cons.mp hother with rfl | hmem
          · exact hput
          · have hne : other ≠ block := by
              rintro rfl
              exact hnodup.1 (hnodes ▸ List.mem_append_left _ hmem)
            have hstatus := htaken other hmem
            rwa [setStatus_status, if_neg hne] at hstatus
        · rw [heq, gotten_setStatus, Nat.add_comm 1]
          rfl
      · rw [if_neg hput] at h
        rcases ih hnodup.2 h with ⟨skipped, first, taken, rest, hnodes, hskipped, hrest⟩
        exact ⟨block :: skipped, first, taken, rest, by rw [hnodes]; rfl,
          List.forall_mem_cons.mpr ⟨hput, hskipped⟩, hrest⟩

/-- A queue that comes back is empty because there are no blocks, or it starts with the oldest
filled block. -/
theorem blkQueueGet_cases (hnodup : rbb.blk_list.Nodup) {queue_data_len : Nat}
    {blk_queue : RbbBlkQueue max} {result : Nat × RbbBlkQueue max × Rbb max}
    (h : rbb.blkQueueGet queue_data_len blk_queue = some result) :
    (rbb.blk_list = [] ∧ result = (0, blk_queue, rbb)) ∨
    ∃ skipped first taken rest, rbb.blk_list = skipped ++ first :: taken ++ rest ∧
      (∀ block ∈ skipped, (rbb.blk_set block).status ≠ .put) ∧
      (∀ block ∈ first :: taken, (rbb.blk_set block).status = .put) ∧
      (first :: taken).IsChain (fun a b => (rbb.blk_set a).buf ≤ (rbb.blk_set b).buf) ∧
      (taken ≠ [] → rbb.totalSize 0 (first :: taken) ≤ queue_data_len) ∧
      result = (rbb.totalSize 0 (first :: taken), ⟨first, (first :: taken).length⟩,
        rbb.gotten (first :: taken)) := by
  unfold blkQueueGet at h
  split at h
  · rename_i hempty
    cases h
    exact Or.inl ⟨List.isEmpty_iff.mp hempty, rfl⟩
  · exact Or.inr (blkQueueGetFrom_none hnodup h)

end Calls

/-! ## Changes -/

/-- What a change needs and does. -/
inductive Change : Rbb max → Entry max → Rbb max → Prop
  | exhausted {rbb : Rbb max} (hlist : rbb.free_list = []) : Change rbb .exhausted rbb
  | refused {rbb : Rbb max} {blk : Fin max} {free_list : List (Fin max)} {blk_size : Nat}
      (hlist : rbb.free_list = blk :: free_list) (hplace : rbb.placeFor blk_size = none) :
      Change rbb .refused { rbb with free_list := free_list }
  | granted {rbb : Rbb max} {blk : Fin max} {free_list : List (Fin max)} {buf : Nat}
      (blk_size : Nat) (hlist : rbb.free_list = blk :: free_list)
      (hplace : rbb.placeFor blk_size = some buf) :
      Change rbb (.granted blk blk_size)
        ({ rbb with free_list := free_list }.listAppend blk buf blk_size)
  | filled {rbb : Rbb max} {block : Fin max} (hstatus : (rbb.blk_set block).status = .inited) :
      Change rbb (.filled block) (rbb.setStatus block .put)
  | taken {rbb : Rbb max} {skipped taken rest : List (Fin max)}
      (hlist : rbb.blk_list = skipped ++ taken ++ rest)
      (hskipped : ∀ block ∈ skipped, (rbb.blk_set block).status ≠ .put)
      (htaken : ∀ block ∈ taken, (rbb.blk_set block).status = .put) :
      Change rbb (.taken taken) (rbb.gotten taken)
  | freed {rbb rbb' : Rbb max} {block : Fin max} (hfree : rbb.blkFree block = some rbb') :
      Change rbb (.freed block) rbb'

/-- Changes one after the other. -/
inductive Changes : Rbb max → List (Entry max) → Rbb max → Prop
  | refl (rbb : Rbb max) : Changes rbb [] rbb
  | head {rbb rbb' rbb'' : Rbb max} {entry : Entry max} {entries : List (Entry max)}
      (hchange : Change rbb entry rbb') (hrest : Changes rbb' entries rbb'') :
      Changes rbb (entry :: entries) rbb''

/-- One change is a list of changes. -/
theorem Change.changes {rbb rbb' : Rbb max} {entry : Entry max} (h : Change rbb entry rbb') :
    Changes rbb [entry] rbb' :=
  .head h (.refl _)

/-- What every change of a kind keeps, all of them keep. -/
theorem Changes.keeps {P : Rbb max → Prop} {kind : Entry max → Prop}
    (hchange : ∀ {rbb rbb' entry}, P rbb → kind entry → Change rbb entry rbb' → P rbb')
    {rbb rbb' : Rbb max} {entries : List (Entry max)} (h : Changes rbb entries rbb')
    (hkind : ∀ entry ∈ entries, kind entry) (hrbb : P rbb) : P rbb' := by
  induction h with
  | refl rbb => exact hrbb
  | head hstep _ ih =>
      rw [List.forall_mem_cons] at hkind
      exact ih hkind.2 (hchange hrbb hkind.1 hstep)

/-- The lists and the statuses agree. -/
structure Holds (rbb : Rbb max) : Prop where
  nodup : (rbb.blk_list ++ rbb.free_list).Nodup
  used_iff : ∀ block, block ∈ rbb.blk_list ↔ (rbb.blk_set block).status ≠ .unused

/-- At first all descriptors are free, the last one in front. -/
theorem init_free_list (buf_size : Nat) (block_set : Fin max → RbbBlk) :
    (init buf_size block_set).free_list = (List.finRange max).reverse := by
  unfold init
  rw [List.foldl_flip_cons_eq_append]
  simp

/-- A fresh buffer keeps the invariant. -/
theorem holds_init (buf_size : Nat) (block_set : Fin max → RbbBlk) :
    (init buf_size block_set).Holds where
  nodup := by
    rw [init_free_list]
    exact List.nodup_reverse.mpr (List.nodup_finRange max)
  used_iff block := by simp [init]

namespace Holds

variable {rbb rbb' : Rbb max}

/-- No block is twice in the list. -/
theorem nodup_list (h : rbb.Holds) : rbb.blk_list.Nodup :=
  h.nodup.sublist (List.sublist_append_left _ _)

/-- A free descriptor is not in the list. -/
theorem not_mem_free (h : rbb.Holds) {block : Fin max} (hblock : block ∈ rbb.free_list) :
    block ∉ rbb.blk_list :=
  fun hmem => (List.disjoint_of_nodup_append h.nodup) hmem hblock

/-- A block that is granted keeps the invariant. -/
theorem grant (h : rbb.Holds) {blk : Fin max} {free_list : List (Fin max)}
    (hlist : rbb.free_list = blk :: free_list) (buf blk_size : Nat) :
    ({ rbb with free_list := free_list }.listAppend blk buf blk_size).Holds where
  nodup := by
    have hnodup := h.nodup
    rw [hlist, ← List.singleton_append, ← List.append_assoc] at hnodup
    exact hnodup
  used_iff block := by
    by_cases hblock : block = blk
    · subst hblock
      simp [listAppend]
    · simpa [listAppend, hblock] using h.used_iff block

/-- A block that is filled keeps the invariant. -/
theorem fill (h : rbb.Holds) {block : Fin max}
    (hstatus : (rbb.blk_set block).status = .inited) : (rbb.setStatus block .put).Holds where
  nodup := h.nodup
  used_iff other := by
    rw [setStatus_status, setStatus_blk_list, h.used_iff]
    split
    · rename_i hother
      simp [hother, hstatus]
    · rfl

/-- Blocks that are taken keep the invariant. -/
theorem take (h : rbb.Holds) {taken : List (Fin max)}
    (htaken : ∀ block ∈ taken, (rbb.blk_set block).status = .put) : (rbb.gotten taken).Holds where
  nodup := h.nodup
  used_iff other := by
    rw [gotten_status]
    have hused : other ∈ (rbb.gotten taken).blk_list ↔ _ := h.used_iff other
    rw [hused]
    split
    · rename_i hother
      simp [htaken other hother]
    · rfl

/-- A block that is given back keeps the invariant. -/
theorem free (h : rbb.Holds) {block : Fin max} (hfree : rbb.blkFree block = some rbb') :
    rbb'.Holds := by
  rcases free_cases hfree with ⟨hused, rfl⟩
  have hmem : block ∈ rbb.blk_list := (h.used_iff block).mpr hused
  constructor
  · refine (List.Perm.nodup_iff ?_).mp h.nodup
    calc
      rbb.blk_list ++ rbb.free_list
      _ ~ (block :: rbb.blk_list.erase block) ++ rbb.free_list :=
        (List.perm_cons_erase hmem).append_right _
      _ ~ rbb.blk_list.erase block ++ block :: rbb.free_list := List.perm_middle.symm
  · intro other
    dsimp only
    rw [setStatus_status, h.nodup_list.mem_erase_iff, h.used_iff]
    split
    · rename_i hother
      simp [hother]
    · rename_i hother
      simp [hother]

/-- Every change keeps the lists and the statuses in agreement. -/
theorem change {entry : Entry max} (h : rbb.Holds) (hchange : Change rbb entry rbb') :
    rbb'.Holds := by
  cases hchange with
  | exhausted => exact h
  | refused hlist =>
      exact ⟨h.nodup.sublist (by rw [hlist]; simp), h.used_iff⟩
  | granted blk_size hlist => exact h.grant hlist _ blk_size
  | filled hstatus => exact h.fill hstatus
  | taken _ _ htaken => exact h.take htaken
  | freed hfree => exact h.free hfree

end Holds

/-! ## Calls are changes -/

/-- A request for a block is one change. -/
theorem change_of_alloc {rbb rbb' : Rbb max} {blk_size : Nat} {result : Option (Fin max)}
    (h : rbb.blkAlloc blk_size = some (result, rbb')) :
    Change rbb (rbb.allocEntry blk_size result) rbb' := by
  rcases alloc_cases h with ⟨hlist, rfl, rfl⟩ | ⟨blk, free_list, hlist, -, ⟨hplace, rfl, rfl⟩ |
    ⟨buf, hplace, rfl, rfl⟩⟩
  · rw [allocEntry, if_pos hlist]
    exact .exhausted hlist
  · rw [allocEntry, if_neg (by simp [hlist])]
    exact .refused hlist hplace
  · exact .granted blk_size hlist hplace

/-- The middle of a list without repetitions is what it selects. -/
theorem filter_mem_middle {front middle back : List (Fin max)}
    (h : (front ++ middle ++ back).Nodup) :
    ((front ++ middle ++ back).filter fun block => decide (block ∈ middle)) = middle := by
  rw [List.nodup_append', List.nodup_append'] at h
  rw [List.filter_append, List.filter_append]
  have hfront : (front.filter fun block => decide (block ∈ middle)) = [] :=
    List.filter_eq_nil_iff.mpr fun block hblock => by simpa using h.1.2.2 hblock
  have hmiddle : (middle.filter fun block => decide (block ∈ middle)) = middle :=
    List.filter_eq_self.mpr fun block hblock => by simpa using hblock
  have hback : (back.filter fun block => decide (block ∈ middle)) = [] :=
    List.filter_eq_nil_iff.mpr fun block hblock => by
      simpa using fun hmem => h.2.2 (List.mem_append_right _ hmem) hblock
  rw [hfront, hmiddle, hback, List.nil_append, List.append_nil]

/-- The statuses tell which blocks were taken. -/
theorem takenBlocks_gotten {rbb : Rbb max} (h : rbb.Holds) {skipped taken rest : List (Fin max)}
    (hlist : rbb.blk_list = skipped ++ taken ++ rest)
    (htaken : ∀ block ∈ taken, (rbb.blk_set block).status = .put) :
    rbb.takenBlocks (rbb.gotten taken) = taken := by
  have hnodup := h.nodup_list
  rw [hlist] at hnodup
  have hfilter : ∀ block, ((rbb.blk_set block).status == .put &&
      ((rbb.gotten taken).blk_set block).status == .get) = decide (block ∈ taken) := by
    intro block
    rw [gotten_status]
    by_cases hblock : block ∈ taken
    · simp [hblock, htaken block hblock]
    · cases hstatus : (rbb.blk_set block).status <;> simp [hblock]
  unfold takenBlocks
  rw [hlist, List.filter_congr fun block _ => hfilter block, filter_mem_middle hnodup]

/-- Taking a stretch of filled blocks is one change. -/
theorem change_of_taken {rbb : Rbb max} (h : rbb.Holds) {skipped taken rest : List (Fin max)}
    (hlist : rbb.blk_list = skipped ++ taken ++ rest)
    (hskipped : ∀ block ∈ skipped, (rbb.blk_set block).status ≠ .put)
    (htaken : ∀ block ∈ taken, (rbb.blk_set block).status = .put) :
    Change rbb (.taken (rbb.takenBlocks (rbb.gotten taken))) (rbb.gotten taken) := by
  rw [takenBlocks_gotten h hlist htaken]
  exact .taken hlist hskipped htaken

/-- Nothing is taken when nothing is filled. -/
theorem change_of_none {rbb : Rbb max} (h : rbb.Holds)
    (hnone : ∀ block ∈ rbb.blk_list, (rbb.blk_set block).status ≠ .put) :
    Change rbb (.taken (rbb.takenBlocks rbb)) rbb := by
  have hlist : rbb.blk_list = rbb.blk_list ++ [] ++ [] := by simp
  have hchange := change_of_taken h hlist hnone (by simp)
  rwa [gotten_nil] at hchange

/-- Taking a block is one change. -/
theorem change_of_get {rbb : Rbb max} (h : rbb.Holds) :
    Change rbb (.taken (rbb.takenBlocks rbb.blkGet.2)) rbb.blkGet.2 := by
  unfold blkGet
  split
  · rename_i block hfind
    rw [List.find?_eq_some_iff_append] at hfind
    rcases hfind with ⟨hput, skipped, rest, hlist, hskipped⟩
    have hsplit : rbb.blk_list = skipped ++ [block] ++ rest := by simp [hlist]
    dsimp only
    rw [← gotten_singleton]
    exact change_of_taken h hsplit (by simpa using hskipped) (by simpa using hput)
  · rename_i hfind
    exact change_of_none h (by simpa using hfind)

/-- Taking a queue of blocks is one change. -/
theorem change_of_queueGet {rbb : Rbb max} (h : rbb.Holds) {queue_data_len : Nat}
    {blk_queue : RbbBlkQueue max} {result : Nat × RbbBlkQueue max × Rbb max}
    (hget : rbb.blkQueueGet queue_data_len blk_queue = some result) :
    Change rbb (.taken (rbb.takenBlocks result.2.2)) result.2.2 := by
  rcases blkQueueGet_cases h.nodup_list hget with ⟨hlist, rfl⟩ |
    ⟨skipped, first, taken, rest, hlist, hskipped, htaken, -, -, rfl⟩
  · exact change_of_none h (by simp [hlist])
  · exact change_of_taken h hlist hskipped htaken

/-! ## Giving a queue back -/

/-- Behind a node comes the front of what is behind it. -/
theorem successor_append {front back : List (Fin max)} {block : Fin max} (h : block ∉ front) :
    successor block (front ++ block :: back) = back.head? := by
  unfold successor
  rw [List.dropWhile_append_of_pos, List.dropWhile_cons_of_neg] <;> simp_all
  intro other hother
  rintro rfl
  exact h hother

/-- A stretch of the blocks is given back, and nothing happens to the others. -/
structure GivesBack (rbb : Rbb max) (front freed rest : List (Fin max)) (rbb' : Rbb max) :
    Prop where
  before : rbb.blk_list = front ++ freed ++ rest
  behind : rbb'.blk_list = front ++ rest
  frame : ∀ block ∉ freed, rbb'.blk_set block = rbb.blk_set block

/-- Giving one block back. -/
theorem givesBack_free {rbb rbb' : Rbb max} (h : rbb.Holds) {block : Fin max}
    {front rest : List (Fin max)} (hlist : rbb.blk_list = front ++ block :: rest)
    (hfree : rbb.blkFree block = some rbb') : GivesBack rbb front [block] rest rbb' := by
  have hnodup := h.nodup_list
  rw [hlist] at hnodup
  have hfront : block ∉ front := fun hmem =>
    (List.disjoint_of_nodup_append hnodup) hmem List.mem_cons_self
  rcases free_cases hfree with ⟨-, rfl⟩
  refine ⟨by simpa using hlist, ?_, ?_⟩
  · dsimp only
    rw [hlist, List.erase_append_right _ hfront, List.erase_cons_head]
  · intro other hother
    have hne : other ≠ block := by simpa using hother
    simp [setStatus, hne]

/-- A block that is given back is one of the blocks. -/
theorem blkFree_cases {rbb rbb' : Rbb max} (h : rbb.Holds) {block : Fin max}
    (hfree : rbb.blkFree block = some rbb') :
    ∃ front rest, GivesBack rbb front [block] rest rbb' := by
  rcases List.append_of_mem ((h.used_iff block).mpr (free_cases hfree).1) with
    ⟨front, rest, hlist⟩
  exact ⟨front, rest, givesBack_free h hlist hfree⟩

/-- A queue that is given back is a stretch of the blocks. -/
theorem blkQueueFreeFrom_cases {rbb rbb' : Rbb max} (h : rbb.Holds) {blk_num : Nat}
    {front back : List (Fin max)} (hlist : rbb.blk_list = front ++ back)
    (hfree : blkQueueFreeFrom blk_num back.head? rbb = some rbb') :
    ∃ freed rest, back = freed ++ rest ∧ freed.length = blk_num ∧
      Changes rbb (freed.map .freed) rbb' ∧ GivesBack rbb front freed rest rbb' := by
  induction blk_num generalizing rbb back with
  | zero =>
      rw [blkQueueFreeFrom] at hfree
      cases hfree
      exact ⟨[], back, rfl, rfl, .refl _, by simpa using hlist, hlist, fun _ _ => rfl⟩
  | succ blk_num ih =>
      cases back with
      | nil => contradiction
      | cons blk back =>
          have hnodup := h.nodup_list
          rw [hlist] at hnodup
          have hfront : blk ∉ front := fun hmem =>
            (List.disjoint_of_nodup_append hnodup) hmem List.mem_cons_self
          have hnext : rbb.next blk = back.head? := by
            unfold next
            rw [if_pos (by rw [hlist]; simp), hlist, successor_append hfront]
          rw [List.head?_cons, blkQueueFreeFrom, hnext] at hfree
          rcases Option.bind_eq_some_iff.mp hfree with ⟨freed, hblk, hrest⟩
          have hgives := givesBack_free h hlist hblk
          rcases ih (h.free hblk) hgives.behind hrest with ⟨others, rest, hback, hlength, hchanges,
            hothers⟩
          refine ⟨blk :: others, rest, by rw [hback, List.cons_append], by rw [← hlength]; rfl,
            .head (.freed hblk) hchanges, ?_, hothers.behind, ?_⟩
          · rw [hlist, hback, List.append_assoc, List.cons_append]
          · intro other hother
            rw [hothers.frame other fun hmem => hother (List.mem_cons_of_mem _ hmem)]
            exact hgives.frame other fun hmem =>
              hother (List.mem_singleton.mp hmem ▸ List.mem_cons_self)

/-- The changes keep the invariant one after the other. -/
theorem Changes.holds {rbb rbb' : Rbb max} {entries : List (Entry max)}
    (h : Changes rbb entries rbb') (hrbb : rbb.Holds) : rbb'.Holds :=
  h.keeps (fun hrbb _ hchange => hrbb.change hchange) (fun _ _ => trivial) hrbb

/-- The statuses tell which blocks were given back. -/
theorem freedBlocks_eq {rbb rbb' : Rbb max} (h : rbb.Holds) (h' : rbb'.Holds)
    {front freed rest : List (Fin max)} (hgives : GivesBack rbb front freed rest rbb') :
    rbb.freedBlocks rbb' = freed := by
  have hnodup := h.nodup_list
  rw [hgives.before] at hnodup
  have hfilter : ∀ block ∈ front ++ freed ++ rest,
      ((rbb'.blk_set block).status == .unused) = decide (block ∈ freed) := by
    intro block hblock
    have hused := h'.used_iff block
    rw [hgives.behind, List.mem_append] at hused
    rw [List.mem_append, List.mem_append] at hblock
    rw [List.nodup_append', List.nodup_append'] at hnodup
    have hfront : block ∈ front → block ∉ freed := fun hmem => hnodup.1.2.2 hmem
    have hrest : block ∈ freed → block ∉ rest := fun hmem =>
      hnodup.2.2 (List.mem_append_right _ hmem)
    rw [Bool.eq_iff_iff, beq_iff_eq, decide_eq_true_iff]
    tauto
  unfold freedBlocks
  rw [hgives.before, List.filter_congr hfilter, filter_mem_middle hnodup]

/-- Nothing is given back when nothing changes. -/
theorem freedBlocks_self {rbb : Rbb max} (h : rbb.Holds) : rbb.freedBlocks rbb = [] := by
  have hgives : GivesBack rbb rbb.blk_list [] [] rbb := ⟨by simp, by simp, fun _ _ => rfl⟩
  exact freedBlocks_eq h h hgives

/-- What a queue gives back starts with its first block. -/
theorem blkQueueFree_cases {rbb rbb' : Rbb max} (h : rbb.Holds) {blk_queue : RbbBlkQueue max}
    (hfree : rbb.blkQueueFree blk_queue = some rbb') :
    (blk_queue.blk_num = 0 ∧ rbb' = rbb) ∨
      ∃ front freed rest, freed.head? = some blk_queue.blocks ∧
        freed.length = blk_queue.blk_num ∧ Changes rbb (freed.map .freed) rbb' ∧
        GivesBack rbb front freed rest rbb' := by
  unfold blkQueueFree at hfree
  cases hnum : blk_queue.blk_num with
  | zero =>
      rw [hnum, blkQueueFreeFrom] at hfree
      cases hfree
      exact Or.inl ⟨rfl, rfl⟩
  | succ blk_num =>
      have hmem : blk_queue.blocks ∈ rbb.blk_list := by
        rw [hnum, blkQueueFreeFrom] at hfree
        rcases Option.bind_eq_some_iff.mp hfree with ⟨freed, hblk, -⟩
        exact (h.used_iff _).mpr (free_cases hblk).1
      rcases List.append_of_mem hmem with ⟨front, back, hlist⟩
      rw [hnum] at hfree
      rcases blkQueueFreeFrom_cases h hlist hfree with ⟨freed, rest, hback, hlength, hchanges,
        hgives⟩
      refine Or.inr ⟨front, freed, rest, ?_, hlength, hchanges, hgives⟩
      cases freed with
      | nil => contradiction
      | cons block freed =>
          rw [List.cons_append, List.cons.injEq] at hback
          rw [List.head?_cons, hback.1]

/-! ## Runs are changes -/

/-- Each call makes the changes that its entries say. -/
theorem step_changes {rbb rbb' : Rbb max} (h : rbb.Holds) {request : Request max}
    {entries : List (Entry max)} (hstep : rbb.step request = some (entries, rbb')) :
    Changes rbb entries rbb' := by
  cases request with
  | alloc blk_size =>
      rcases Option.bind_eq_some_iff.mp hstep with ⟨result, hresult, hdone⟩
      cases hdone
      exact (change_of_alloc hresult).changes
  | put block =>
      rcases Option.bind_eq_some_iff.mp hstep with ⟨result, hresult, hdone⟩
      cases hdone
      rcases put_cases hresult with ⟨hstatus, rfl⟩
      exact (Change.filled hstatus).changes
  | get =>
      cases hstep
      exact (change_of_get h).changes
  | free block =>
      rcases Option.bind_eq_some_iff.mp hstep with ⟨result, hresult, hdone⟩
      cases hdone
      exact (Change.freed hresult).changes
  | queueGet queue_data_len blk_queue =>
      rcases Option.bind_eq_some_iff.mp hstep with ⟨result, hresult, hdone⟩
      cases hdone
      exact (change_of_queueGet h hresult).changes
  | queueFree blk_queue =>
      rcases Option.bind_eq_some_iff.mp hstep with ⟨result, hresult, hdone⟩
      cases hdone
      rcases blkQueueFree_cases h hresult with ⟨-, rfl⟩ | ⟨front, freed, rest, -, -, hchanges,
        hgives⟩
      · rw [freedBlocks_self h]
        exact .refl _
      · rw [freedBlocks_eq h (hchanges.holds h) hgives]
        exact hchanges

/-- What every step keeps, a run keeps. -/
theorem run_keeps {P : List (Entry max) → Rbb max → Prop} {ok : Rbb max → Request max → Prop}
    (hstep : ∀ {done rbb request entries rbb'}, P done rbb → ok rbb request →
      rbb.step request = some (entries, rbb') → P (done ++ entries) rbb')
    {requests : List (Request max)} (done : List (Entry max)) {entries : List (Entry max)}
    {rbb rbb' : Rbb max} (hrbb : P done rbb) (hok : Obeys ok requests rbb)
    (h : run requests rbb = some (entries, rbb')) : P (done ++ entries) rbb' := by
  induction requests generalizing done rbb entries with
  | nil =>
      rw [run] at h
      cases h
      rwa [List.append_nil]
  | cons request requests ih =>
      rcases Option.bind_eq_some_iff.mp h with ⟨⟨first, mid⟩, hfirst, hrest⟩
      rcases Option.bind_eq_some_iff.mp hrest with ⟨⟨others, last⟩, hothers, hdone⟩
      cases hdone
      rw [← List.append_assoc]
      exact ih _ (hstep hrbb hok.1 hfirst) (hok.2 _ hfirst) hothers

/-- A rule that does not look at the buffer is obeyed by all requests that satisfy it. -/
theorem obeys_of_forall {ok : Request max → Prop} {requests : List (Request max)}
    (h : ∀ request ∈ requests, ok request) (rbb : Rbb max) :
    Obeys (fun _ => ok) requests rbb := by
  induction requests generalizing rbb with
  | nil => trivial
  | cons request requests ih =>
      rw [List.forall_mem_cons] at h
      exact ⟨h.1, fun result _ => ih h.2 _⟩

/-- Only a request for a block grants one. -/
theorem eq_alloc_of_granted {rbb rbb' : Rbb max} {request : Request max}
    {entries : List (Entry max)} (hstep : rbb.step request = some (entries, rbb'))
    {block : Fin max} {blk_size : Nat} (hmem : .granted block blk_size ∈ entries) :
    request = .alloc blk_size := by
  cases request with
  | alloc size =>
      rcases Option.bind_eq_some_iff.mp hstep with ⟨⟨result, after⟩, -, hdone⟩
      cases hdone
      cases result with
      | none =>
          rw [allocEntry] at hmem
          split at hmem <;> simp at hmem
      | some blk =>
          simp only [allocEntry, List.mem_singleton, Entry.granted.injEq] at hmem
          rw [hmem.2]
  | get =>
      cases hstep
      simp at hmem
  | put | free | queueGet | queueFree =>
      rcases Option.bind_eq_some_iff.mp hstep with ⟨result, -, hdone⟩
      cases hdone
      simp at hmem

/-! ## Blocks do not overlap -/

/-- The memory of a block. -/
def piece (rbb : Rbb max) (block : Fin max) : Piece :=
  ⟨(rbb.blk_set block).buf, (rbb.blk_set block).size⟩

/-- The memory of the blocks, the oldest first. -/
def pieces (rbb : Rbb max) : List Piece :=
  rbb.blk_list.map rbb.piece

@[simp]
theorem piece_setStatus (rbb : Rbb max) (block i : Fin max) (status : RbbStatus) :
    (rbb.setStatus block status).piece i = rbb.piece i := by
  simp [piece]

@[simp]
theorem piece_gotten (rbb : Rbb max) (taken : List (Fin max)) (i : Fin max) :
    (rbb.gotten taken).piece i = rbb.piece i := by
  simp [piece]

/-- A status moves no block. -/
theorem pieces_setStatus (rbb : Rbb max) (block : Fin max) (status : RbbStatus) :
    (rbb.setStatus block status).pieces = rbb.pieces :=
  List.map_congr_left fun i _ => piece_setStatus rbb block i status

/-- Taking blocks moves none of them. -/
theorem pieces_gotten (rbb : Rbb max) (taken : List (Fin max)) :
    (rbb.gotten taken).pieces = rbb.pieces :=
  List.map_congr_left fun i _ => piece_gotten rbb taken i

/-- A granted block is the newest piece. -/
theorem pieces_grant {rbb : Rbb max} (h : rbb.Holds) {blk : Fin max} {free_list : List (Fin max)}
    (hlist : rbb.free_list = blk :: free_list) (buf blk_size : Nat) :
    ({ rbb with free_list := free_list }.listAppend blk buf blk_size).pieces =
      rbb.pieces ++ [⟨buf, blk_size⟩] := by
  have hblk : blk ∉ rbb.blk_list := h.not_mem_free (hlist ▸ List.mem_cons_self)
  unfold pieces
  rw [listAppend, List.map_append]
  congr 1
  · refine List.map_congr_left fun i hi => ?_
    have hne : i ≠ blk := fun heq => hblk (heq ▸ hi)
    simp [piece, hne]
  · simp [piece]

/-- Giving a block back moves no other one. -/
theorem pieces_free {rbb rbb' : Rbb max} {block : Fin max}
    (hfree : rbb.blkFree block = some rbb') : rbb'.pieces.Sublist rbb.pieces := by
  rcases free_cases hfree with ⟨-, rfl⟩
  have hpiece : ∀ i, { rbb.setStatus block .unused with
      blk_list := rbb.blk_list.erase block
      free_list := block :: rbb.free_list }.piece i = rbb.piece i :=
    fun i => piece_setStatus rbb block i .unused
  unfold pieces
  rw [List.map_congr_left fun i _ => hpiece i]
  exact List.erase_sublist.map _

/-- The subtraction does not wrap around as long as it stays positive. -/
theorem sizeSub_eq {a b : Nat} (ha : a < 2 ^ 32) (h : b ≤ a) : sizeSub a b = a - b := by
  unfold sizeSub
  omega

/-- As long as the blocks are in ring order the search is the one of ring order. -/
theorem placeFor_eq {rbb : Rbb max} (hsize : rbb.buf_size < 2 ^ 32)
    (hlaid : Laid rbb.buf_size rbb.pieces) (blk_size : Nat) :
    rbb.placeFor blk_size = offset rbb.buf_size blk_size rbb.pieces := by
  unfold placeFor
  split
  · rename_i head tail hhead htail
    have holdest : rbb.pieces.head? = some (rbb.piece head) := by
      rw [pieces, List.head?_map, hhead, Option.map_some]
    have hnewest : rbb.pieces.getLast? = some (rbb.piece tail) := by
      rw [pieces, List.getLast?_map, htail, Option.map_some]
    have hends := hlaid.ends holdest hnewest
    have hbounded := hlaid.bounded (rbb.piece tail) (List.mem_of_getLast? hnewest)
    have holdestBounded := hlaid.bounded (rbb.piece head) (List.mem_of_head? holdest)
    have hroom : sizeSub rbb.buf_size ((rbb.blk_set tail).buf + (rbb.blk_set tail).size) =
        rbb.buf_size - (rbb.piece tail).stop := sizeSub_eq hsize hbounded
    dsimp only
    rw [offset_eq holdest hnewest, between, hroom]
    rcases hends with ⟨hle, -⟩ | ⟨hstop, hlt, -⟩
    · rw [if_pos hle]
      exact if_pos hle
    · have hhigh : (rbb.piece head).start < 2 ^ 32 :=
        ((Nat.le_add_right _ _).trans holdestBounded).trans_lt hsize
      have hroom' : sizeSub (rbb.blk_set head).buf
          ((rbb.blk_set tail).buf + (rbb.blk_set tail).size) =
          (rbb.piece head).start - (rbb.piece tail).stop := sizeSub_eq hhigh hstop
      rw [if_neg (Nat.not_le_of_lt hlt), hroom']
      exact if_neg (Nat.not_le_of_lt hlt)
  · rename_i hnone
    have hempty : rbb.blk_list = [] := by
      by_contra hne
      exact hnone _ _ (List.head?_eq_some_head hne) (List.getLast?_eq_some_getLast hne)
    rw [pieces, hempty, List.map_nil, offset_nil]

/-- The lists are in order, and the blocks in ring order in a buffer of that size. -/
structure Separate (size : Nat) (rbb : Rbb max) : Prop where
  holds : rbb.Holds
  buf_size : rbb.buf_size = size
  laid : Laid size rbb.pieces

/-- The entry grants no block, or one that fits a buffer of that size. -/
def Entry.Fits (size : Nat) : Entry max → Prop
  | .granted _ blk_size => 0 < blk_size ∧ blk_size ≤ size
  | _ => True

/-- A fresh buffer has no blocks. -/
theorem separate_init (buf_size : Nat) (block_set : Fin max → RbbBlk) :
    (init buf_size block_set).Separate buf_size :=
  ⟨holds_init buf_size block_set, rfl, laid_nil buf_size⟩

/-- A change whose request fits leaves the blocks apart. -/
theorem Separate.change {size : Nat} (hsize : size < 2 ^ 32) {rbb rbb' : Rbb max}
    {entry : Entry max} (h : rbb.Separate size) (hfits : entry.Fits size)
    (hchange : Change rbb entry rbb') : rbb'.Separate size := by
  refine ⟨h.holds.change hchange, ?_, ?_⟩
  · cases hchange with
    | freed hfree =>
        rcases free_cases hfree with ⟨-, rfl⟩
        exact h.buf_size
    | _ => exact h.buf_size
  · cases hchange with
    | exhausted | refused => exact h.laid
    | granted blk_size hlist hplace =>
        have hlaid := h.laid
        rw [← h.buf_size] at hlaid hsize
        rw [placeFor_eq hsize hlaid, h.buf_size] at hplace
        rw [pieces_grant h.holds hlist]
        exact laid_of_offset h.laid hfits.1 (fun _ => hfits.2) hplace
    | filled =>
        rw [pieces_setStatus]
        exact h.laid
    | taken =>
        rw [pieces_gotten]
        exact h.laid
    | freed hfree => exact h.laid.sublist (pieces_free hfree)

/-- A call whose request fits leaves the blocks apart. -/
theorem Separate.step {size : Nat} (hsize : size < 2 ^ 32) {rbb rbb' : Rbb max}
    {request : Request max} {entries : List (Entry max)} (h : rbb.Separate size)
    (hfits : ∀ blk_size, request = .alloc blk_size → 0 < blk_size ∧ blk_size ≤ size)
    (hstep : rbb.step request = some (entries, rbb')) : rbb'.Separate size := by
  refine (step_changes h.holds hstep).keeps (fun hrbb hkind => hrbb.change hsize hkind) ?_ h
  intro entry hentry
  cases entry with
  | granted block blk_size => exact hfits blk_size (eq_alloc_of_granted hstep hentry)
  | _ => trivial

/-- No assertion of a request fails as long as the lists are in order. -/
theorem blkAlloc_fst {rbb : Rbb max} (h : rbb.Holds) {blk_size : Nat} (hlt : blk_size < 2 ^ 24) :
    (rbb.blkAlloc blk_size).map Prod.fst =
      some (rbb.free_list.head?.filter fun _ => (rbb.placeFor blk_size).isSome) := by
  unfold blkAlloc findEmptyBlkInSet
  rw [if_pos hlt]
  cases hlist : rbb.free_list with
  | nil => rfl
  | cons blk free_list =>
      have hblk : blk ∉ rbb.blk_list := h.not_mem_free (hlist ▸ List.mem_cons_self)
      have hunused : (rbb.blk_set blk).status = .unused := by
        by_contra hused
        exact hblk ((h.used_iff blk).mpr hused)
      have hplace : { rbb with free_list := free_list }.placeFor blk_size =
          rbb.placeFor blk_size := rfl
      dsimp only
      rw [if_pos hunused]
      dsimp only
      rw [hplace]
      cases rbb.placeFor blk_size <;> rfl

/-- A request fails exactly when no descriptor or no place in ring order is left. -/
theorem blkAlloc_eq_none_iff {size : Nat} (hsize : size < 2 ^ 32) {rbb : Rbb max}
    (h : rbb.Separate size) {blk_size : Nat} (hpositive : 0 < blk_size) (hle : blk_size ≤ size)
    (hlt : blk_size < 2 ^ 24) :
    (rbb.blkAlloc blk_size).map Prod.fst = some none ↔
      rbb.free_list = [] ∨ ∀ start, ¬ Laid size (rbb.pieces ++ [⟨start, blk_size⟩]) := by
  have hlaid := h.laid
  rw [← h.buf_size] at hlaid hsize hle
  have hnone := offset_eq_none_iff hlaid hpositive hle
  rw [← placeFor_eq hsize hlaid] at hnone
  rw [blkAlloc_fst h.holds hlt, Option.some.injEq, ← h.buf_size, ← hnone]
  cases rbb.free_list with
  | nil => simp
  | cons blk free_list => simp

/-- Requests that fit the buffer keep the blocks apart. -/
theorem separate_of_run {buf_size : Nat} (hsize : buf_size < 2 ^ 32)
    {block_set : Fin max → RbbBlk} {requests : List (Request max)}
    (hfits : ∀ blk_size, .alloc blk_size ∈ requests → 0 < blk_size ∧ blk_size ≤ buf_size)
    {entries : List (Entry max)} {rbb : Rbb max}
    (h : run requests (init buf_size block_set) = some (entries, rbb)) :
    rbb.Separate buf_size := by
  have hall : ∀ request ∈ requests, ∀ n, request = .alloc n → 0 < n ∧ n ≤ buf_size :=
    fun request hrequest n hn => hfits n (hn ▸ hrequest)
  exact run_keeps (P := fun _ rbb => rbb.Separate buf_size)
    (fun hrbb hok hstep => hrbb.step hsize hok hstep) [] (separate_init buf_size block_set)
    (obeys_of_forall hall _) h

/-- With requests that fit the buffer the blocks lie inside it and never overlap, whatever is
filled, taken and given back in between, and a request fails exactly when no descriptor or no
place in ring order is left. -/
theorem run_separates {buf_size : Nat} (hsize : buf_size < 2 ^ 32)
    {block_set : Fin max → RbbBlk} {requests : List (Request max)}
    (hfits : ∀ blk_size, .alloc blk_size ∈ requests → 0 < blk_size ∧ blk_size ≤ buf_size)
    {entries : List (Entry max)} {rbb : Rbb max}
    (h : run requests (init buf_size block_set) = some (entries, rbb)) :
    (∀ block ∈ rbb.blk_list, (rbb.piece block).stop ≤ buf_size) ∧
      (rbb.blk_list.Pairwise fun a b =>
        Below (rbb.piece a) (rbb.piece b) ∨ Below (rbb.piece b) (rbb.piece a)) ∧
      ∀ blk_size, 0 < blk_size → blk_size ≤ buf_size → blk_size < 2 ^ 24 →
        ((rbb.blkAlloc blk_size).map Prod.fst = some none ↔
          rbb.free_list = [] ∨
            ∀ start, ¬ Laid buf_size (rbb.pieces ++ [⟨start, blk_size⟩])) := by
  have hseparate := separate_of_run hsize hfits h
  refine ⟨fun block hblock => hseparate.laid.bounded _ (List.mem_map_of_mem hblock), ?_,
    fun blk_size hpositive hle hlt => blkAlloc_eq_none_iff hsize hseparate hpositive hle hlt⟩
  exact List.pairwise_map.mp hseparate.laid.disjoint

/-- The third block goes in front of the second one, where the first one was. -/
theorem run_separates_wrapped :
    ∃ entries rbb, run [.alloc 6, .alloc 4, .free 2, .alloc 5] (init 10 fun _ : Fin 3 =>
        ⟨.unused, 0, 0⟩) = some (entries, rbb) ∧
      entries = [.granted 2 6, .granted 1 4, .freed 2, .granted 2 5] ∧
      (∀ block ∈ rbb.blk_list, (rbb.piece block).stop ≤ 10) ∧
      (rbb.blk_list.Pairwise fun a b =>
        Below (rbb.piece a) (rbb.piece b) ∨ Below (rbb.piece b) (rbb.piece a)) ∧
      ∀ blk_size, 0 < blk_size → blk_size ≤ 10 → blk_size < 2 ^ 24 →
        ((rbb.blkAlloc blk_size).map Prod.fst = some none ↔
          rbb.free_list = [] ∨ ∀ start, ¬ Laid 10 (rbb.pieces ++ [⟨start, blk_size⟩])) := by
  have hmap : (run [.alloc 6, .alloc 4, .free 2, .alloc 5] (init 10 fun _ : Fin 3 =>
      ⟨.unused, 0, 0⟩)).map Prod.fst =
        some [.granted 2 6, .granted 1 4, .freed 2, .granted 2 5] := by
    decide
  rcases Option.map_eq_some_iff.mp hmap with ⟨⟨entries, rbb⟩, hrun, hentries⟩
  exact ⟨entries, rbb, hrun, hentries, run_separates (by decide) (by simp) hrun⟩

-- An empty list takes a block of any length.
example : (run [.alloc 11] (init 10 fun _ : Fin 1 => ⟨.unused, 0, 0⟩)).map Prod.fst =
    some [.granted 0 11] := by
  decide

-- A block without bytes hides that the order has wrapped, and the last block overlaps the first.
example : (run [.alloc 5, .alloc 5, .free 3, .alloc 5, .alloc 0, .alloc 3]
    (init 10 fun _ : Fin 4 => ⟨.unused, 0, 0⟩)).map (fun result => result.2.pieces) =
      some [⟨5, 5⟩, ⟨0, 5⟩, ⟨5, 0⟩, ⟨5, 3⟩] := by
  decide

/-! ## Descriptors are lost -/

/-- Each call keeps the invariant. -/
theorem holds_step {rbb rbb' : Rbb max} (h : rbb.Holds) {request : Request max}
    {entries : List (Entry max)} (hstep : rbb.step request = some (entries, rbb')) : rbb'.Holds :=
  (step_changes h hstep).holds h

end Rbb
end RtThread
end TestAio
