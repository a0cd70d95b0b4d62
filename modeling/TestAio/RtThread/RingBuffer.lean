import Mathlib.Algebra.Ring.Nat
import TestAio.Library.BoundedQueue
import TestAio.Library.Cyclic

/-!
# The ring buffer of the device drivers

{lit}`components/drivers/ipc/ringbuffer.c` keeps bytes in a pool with a read index, a write
index and a mirror bit for each.  The indexes are bit fields of 15 bits.

Main results:

- Theorem {lit}`run_refines`: every run on a fresh buffer answers as a bounded queue does.
- Theorem {lit}`run_invents_nothing`: what comes out and what is left was offered in this order.
- Theorem {lit}`run_keeps_bytes`: without forced writes and resets the bytes that come out,
  followed by the ones that are left, are the bytes that were accepted.
- Theorems {lit}`putchar_eq`, {lit}`putcharForce_eq` and {lit}`getchar_eq`: the paths for
  single bytes agree with the ones for blocks.

Current gaps:

- Creating and destroying a buffer are calls of the allocator only.
- A buffer of less than an aligned size has no cell, and forced writes leave its pool.
-/

namespace TestAio
namespace RtThread

open Library Library.Cyclic Library.BoundedQueue

/-- {lit}`struct rt_ringbuffer`. -/
structure RingBuffer where
  /-- The bytes of the pool. -/
  buffer_ptr : List UInt8
  read_mirror : Bool
  read_index : Nat
  write_mirror : Bool
  write_index : Nat
  buffer_size : Nat

namespace RingBuffer

/-! ## The functions -/

/-- {lit}`enum rt_ringbuffer_state`. -/
inductive State
  | empty
  | full
  | halfFull
deriving DecidableEq

/-- {lit}`RT_ALIGN_SIZE` of the configuration. -/
def alignSize : Nat := 4

/-- {lit}`RT_ALIGN_DOWN(size, RT_ALIGN_SIZE)`. -/
def alignDown (size : Nat) : Nat :=
  size / alignSize * alignSize

/-- What a bit field of 15 bits keeps of a value. -/
def toIndex (k : Nat) : Nat :=
  k % 2 ^ 15

/-- The conversion to {lit}`rt_uint16_t`. -/
def toUInt16 (k : Nat) : Nat :=
  k % 2 ^ 16

/-- The difference of two values of {lit}`rt_size_t`, which wraps below zero. -/
def sizeSub (a b : Nat) : Nat :=
  if b ≤ a then a - b else a + 2 ^ 32 - b

/-- {lit}`rt_ringbuffer_status`. -/
def status (rb : RingBuffer) : State :=
  if rb.read_index = rb.write_index then
    if rb.read_mirror = rb.write_mirror then .empty else .full
  else
    .halfFull

/-- {lit}`rt_ringbuffer_init` on a pool of that size. -/
def init (pool : List UInt8) (size : Nat) : RingBuffer where
  buffer_ptr := pool
  read_mirror := false
  read_index := 0
  write_mirror := false
  write_index := 0
  buffer_size := alignDown size

/-- {lit}`rt_ringbuffer_data_len`. -/
def dataLen (rb : RingBuffer) : Nat :=
  match rb.status with
  | .empty => 0
  | .full => rb.buffer_size
  | .halfFull =>
      if rb.read_index < rb.write_index then
        rb.write_index - rb.read_index
      else
        sizeSub rb.buffer_size (rb.read_index - rb.write_index)

/-- {lit}`rt_ringbuffer_space_len`. -/
def spaceLen (rb : RingBuffer) : Nat :=
  sizeSub rb.buffer_size rb.dataLen

/-- The copying that both ways of putting a block share. -/
def copyIn (rb : RingBuffer) (ptr : List UInt8) : RingBuffer :=
  if ptr.length < rb.buffer_size - rb.write_index then
    { rb with
      buffer_ptr := overwrite rb.buffer_ptr rb.write_index ptr
      write_index := toIndex (rb.write_index + ptr.length) }
  else
    let here := rb.buffer_size - rb.write_index
    { rb with
      buffer_ptr := overwrite (overwrite rb.buffer_ptr rb.write_index (ptr.take here)) 0
        (ptr.drop here)
      write_mirror := !rb.write_mirror
      write_index := toIndex (ptr.length - here) }

/-- {lit}`rt_ringbuffer_put` of the bytes at {lit}`ptr`. -/
def put (rb : RingBuffer) (ptr : List UInt8) : Nat × RingBuffer :=
  let size := toUInt16 rb.spaceLen
  if size = 0 then
    (0, rb)
  else
    let length := if size < ptr.length then size else ptr.length
    (length, rb.copyIn (ptr.take length))

/-- {lit}`rt_ringbuffer_put_force` of the bytes at {lit}`ptr`. -/
def putForce (rb : RingBuffer) (ptr : List UInt8) : Nat × RingBuffer :=
  let space_length := toUInt16 rb.spaceLen
  let ptr := if rb.buffer_size < ptr.length then ptr.drop (ptr.length - rb.buffer_size) else ptr
  let length := ptr.length
  let copied := rb.copyIn ptr
  if length < rb.buffer_size - rb.write_index then
    (length,
      if space_length < length then
        { copied with read_index := copied.write_index }
      else
        copied)
  else
    (length,
      if space_length < length then
        { copied with
          read_mirror :=
            if copied.write_index ≤ copied.read_index then
              !copied.read_mirror
            else
              copied.read_mirror
          read_index := copied.write_index }
      else
        copied)

/-- {lit}`rt_ringbuffer_get`: the size, the bytes copied to {lit}`ptr` and the buffer. -/
def get (rb : RingBuffer) (length : Nat) : Nat × List UInt8 × RingBuffer :=
  let size := rb.dataLen
  if size = 0 then
    (0, [], rb)
  else
    let length := if size < length then size else length
    if length < rb.buffer_size - rb.read_index then
      (length, (rb.buffer_ptr.drop rb.read_index).take length,
        { rb with read_index := toIndex (rb.read_index + length) })
    else
      let here := rb.buffer_size - rb.read_index
      (length, rb.buffer_ptr.drop rb.read_index ++ rb.buffer_ptr.take (length - here),
        { rb with
          read_mirror := !rb.read_mirror
          read_index := toIndex (length - here) })

/-- {lit}`rt_ringbuffer_peak`: the size, the bytes that stand at {lit}`*ptr` and the
buffer. -/
def peak (rb : RingBuffer) : Nat × List UInt8 × RingBuffer :=
  let size := rb.dataLen
  if size = 0 then
    (0, [], rb)
  else if size < rb.buffer_size - rb.read_index then
    (size, (rb.buffer_ptr.drop rb.read_index).take size,
      { rb with read_index := toIndex (rb.read_index + size) })
  else
    let size := rb.buffer_size - rb.read_index
    (size, (rb.buffer_ptr.drop rb.read_index).take size,
      { rb with
        read_mirror := !rb.read_mirror
        read_index := 0 })

/-- Writing a byte and moving the write index, as both ways of putting one do; the last index is
{lit}`buffer_size - 1`, which is negative without a cell. -/
def copyChar (rb : RingBuffer) (ch : UInt8) : RingBuffer :=
  if rb.write_index + 1 = rb.buffer_size then
    { rb with
      buffer_ptr := overwrite rb.buffer_ptr rb.write_index [ch]
      write_mirror := !rb.write_mirror
      write_index := 0 }
  else
    { rb with
      buffer_ptr := overwrite rb.buffer_ptr rb.write_index [ch]
      write_index := toIndex (rb.write_index + 1) }

/-- {lit}`rt_ringbuffer_putchar`. -/
def putchar (rb : RingBuffer) (ch : UInt8) : Nat × RingBuffer :=
  if rb.spaceLen = 0 then
    (0, rb)
  else
    (1, rb.copyChar ch)

/-- {lit}`rt_ringbuffer_putchar_force`. -/
def putcharForce (rb : RingBuffer) (ch : UInt8) : Nat × RingBuffer :=
  let old_state := rb.status
  let copied := rb.copyChar ch
  if rb.write_index + 1 = rb.buffer_size then
    (1,
      if old_state = .full then
        { copied with
          read_mirror := !copied.read_mirror
          read_index := copied.write_index }
      else
        copied)
  else
    (1, if old_state = .full then { copied with read_index := copied.write_index } else copied)

/-- {lit}`rt_ringbuffer_getchar`: the size, the byte and the buffer. -/
def getchar (rb : RingBuffer) : Nat × List UInt8 × RingBuffer :=
  if rb.dataLen = 0 then
    (0, [], rb)
  else
    (1, (rb.buffer_ptr.drop rb.read_index).take 1,
      if rb.read_index + 1 = rb.buffer_size then
        { rb with
          read_mirror := !rb.read_mirror
          read_index := 0 }
      else
        { rb with read_index := toIndex (rb.read_index + 1) })

/-- {lit}`rt_ringbuffer_reset`. -/
def reset (rb : RingBuffer) : RingBuffer :=
  { rb with
    read_mirror := false
    read_index := 0
    write_mirror := false
    write_index := 0 }

/-! ## What the buffer holds -/

/-- The buffer holds a queue of bytes, the oldest one first. -/
structure Holds (rb : RingBuffer) (queue : List UInt8) : Prop where
  window : Window rb.buffer_ptr rb.read_index rb.write_index
    (rb.read_mirror != rb.write_mirror) queue
  length_pool : rb.buffer_ptr.length = rb.buffer_size
  size_lt : rb.buffer_size < 2 ^ 15

section Holds

variable {rb : RingBuffer} {queue : List UInt8}

/-- A small number fits the bit field. -/
theorem toIndex_of_lt {k : Nat} (h : k < 2 ^ 15) : toIndex k = k :=
  Nat.mod_eq_of_lt h

/-- A number that fits the bit field fits the word. -/
theorem toUInt16_of_lt {k : Nat} (h : k < 2 ^ 15) : toUInt16 k = k :=
  Nat.mod_eq_of_lt (by omega)

/-- The read index lies within the pool. -/
theorem Holds.read_lt (h : Holds rb queue) : rb.read_index < rb.buffer_size :=
  h.length_pool ▸ h.window.read_lt

/-- The write index lies within the pool. -/
theorem Holds.write_lt (h : Holds rb queue) : rb.write_index < rb.buffer_size :=
  h.length_pool ▸ h.window.write_lt

/-- The buffer holds no more than the pool. -/
theorem Holds.length_le (h : Holds rb queue) : queue.length ≤ rb.buffer_size :=
  h.length_pool ▸ h.window.length_le

/-- The subtraction does not wrap around as long as it stays positive. -/
theorem sizeSub_of_le {a b : Nat} (hle : b ≤ a) : sizeSub a b = a - b :=
  if_pos hle

/-- {lit}`rt_ringbuffer_data_len` is the number of bytes that the buffer holds. -/
theorem Holds.dataLen_eq (h : Holds rb queue) : rb.dataLen = queue.length := by
  have hlength := h.window.length_queue
  rw [h.length_pool] at hlength
  rw [hlength, dataLen, status]
  by_cases hmirror : rb.read_mirror = rb.write_mirror
  · have hle : rb.read_index ≤ rb.write_index := by
      have hwindow := h.window
      rw [hmirror, bne_self_eq_false] at hwindow
      exact hwindow.le_of_straight
    rw [hmirror, bne_self_eq_false, if_neg Bool.false_ne_true]
    by_cases hindex : rb.read_index = rb.write_index
    · simp [hindex]
    · simp [hindex, Nat.lt_of_le_of_ne hle hindex]
  · have hle : rb.write_index ≤ rb.read_index := by
      have hwindow := h.window
      rw [bne_iff_ne.mpr hmirror] at hwindow
      exact hwindow.le_of_wrapped
    rw [if_pos (bne_iff_ne.mpr hmirror)]
    by_cases hindex : rb.read_index = rb.write_index
    · simp [hindex, hmirror]
    · have hgap : rb.read_index - rb.write_index ≤ rb.buffer_size :=
        Nat.le_trans (Nat.sub_le _ _) (Nat.le_of_lt h.read_lt)
      simp [hindex, Nat.not_lt.mpr hle, sizeSub_of_le hgap]

/-- {lit}`rt_ringbuffer_space_len` is the room that is left. -/
theorem Holds.spaceLen_eq (h : Holds rb queue) :
    rb.spaceLen = rb.buffer_size - queue.length := by
  rw [spaceLen, h.dataLen_eq, sizeSub_of_le h.length_le]

/-- The space fits the variable of 16 bits it is kept in. -/
theorem Holds.toUInt16_spaceLen (h : Holds rb queue) :
    toUInt16 rb.spaceLen = rb.buffer_size - queue.length := by
  have := h.size_lt
  rw [h.spaceLen_eq, toUInt16_of_lt (by omega)]

/-- Turning the second mirror bit over turns the comparison over. -/
theorem not_bne_eq (a b : Bool) : (a != !b) = !(a != b) := by
  cases a <;> cases b <;> rfl

/-- Turning the first mirror bit over turns the comparison over. -/
theorem bne_not_eq (a b : Bool) : ((!a) != b) = !(a != b) := by
  cases a <;> cases b <;> rfl

/-! ## Writing and reading -/

/-- Bytes that there is room for are held behind the others. -/
theorem Holds.copyIn (h : Holds rb queue) (new : List UInt8)
    (hroom : queue.length + new.length ≤ rb.buffer_size) :
    Holds (rb.copyIn new) (queue ++ new) := by
  have hpool := h.length_pool
  have hsize := h.size_lt
  have hwrite := h.write_lt
  rw [← hpool] at hroom
  unfold RingBuffer.copyIn
  split
  · rename_i hinside
    have hindex : toIndex (rb.write_index + new.length) = rb.write_index + new.length :=
      toIndex_of_lt (by omega)
    refine ⟨?_, ?_, hsize⟩
    · simp only [hindex]
      exact h.window.append_inside hroom (by omega)
    · rw [← hpool]
      exact length_overwrite (by omega)
  · rename_i hacross
    have hindex : toIndex (new.length - (rb.buffer_size - rb.write_index)) =
        rb.write_index + new.length - rb.buffer_ptr.length := by
      rw [toIndex_of_lt (by omega)]
      omega
    rcases h.window.append_across hroom (by omega) with ⟨hahead, hwindow⟩
    rw [hpool] at hwindow
    refine ⟨?_, ?_, hsize⟩
    · simp only [hindex, hpool, not_bne_eq, hahead]
      exact hwindow
    · rw [← hpool, length_overwrite, length_overwrite]
      · rw [List.length_take]
        omega
      · rw [length_overwrite, List.length_drop]
        · omega
        · rw [List.length_take]
          omega

/-- The read index moves on within the pool. -/
theorem Holds.drop_inside (h : Holds rb queue) {k : Nat} (hk : k ≤ queue.length)
    (hinside : k < rb.buffer_size - rb.read_index) :
    Holds { rb with read_index := toIndex (rb.read_index + k) } (queue.drop k) := by
  have hpool := h.length_pool
  have hsize := h.size_lt
  refine ⟨?_, hpool, hsize⟩
  simp only [toIndex_of_lt (show rb.read_index + k < 2 ^ 15 by omega)]
  exact h.window.drop_inside hk (by omega)

/-- The read index moves over the end of the pool, and its mirror bit turns over. -/
theorem Holds.drop_across (h : Holds rb queue) {k : Nat} (hk : k ≤ queue.length)
    (hacross : rb.buffer_size - rb.read_index ≤ k) :
    (rb.read_mirror != rb.write_mirror) = true ∧
      Holds
        { rb with
          read_mirror := !rb.read_mirror
          read_index := k - (rb.buffer_size - rb.read_index) }
        (queue.drop k) := by
  have hpool := h.length_pool
  have hread := h.read_lt
  rcases h.window.drop_across hk (by omega) with ⟨hahead, hwindow⟩
  refine ⟨hahead, ?_, hpool, h.size_lt⟩
  have hindex : k - (rb.buffer_size - rb.read_index) =
      rb.read_index + k - rb.buffer_ptr.length := by
    omega
  simp only [hindex, bne_not_eq, hahead]
  exact hwindow

/-! ## One request -/

/-- {lit}`rt_ringbuffer_put` appends what there is room for. -/
theorem Holds.put (h : Holds rb queue) (ptr : List UInt8) :
    (rb.put ptr).1 = min ptr.length (rb.buffer_size - queue.length) ∧
      Holds (rb.put ptr).2 (queue ++ ptr.take (rb.buffer_size - queue.length)) := by
  have hlength := h.length_le
  unfold RingBuffer.put
  simp only [h.toUInt16_spaceLen]
  split
  · rename_i hfull
    rw [hfull, List.take_zero, List.append_nil]
    exact ⟨(Nat.min_zero _).symm, h⟩
  · split
    · rename_i hlong
      refine ⟨by omega, h.copyIn _ ?_⟩
      rw [List.length_take]
      omega
    · rename_i hshort
      have hall : ptr.take (rb.buffer_size - queue.length) = ptr :=
        List.take_of_length_le (by omega)
      rw [hall, List.take_length]
      exact ⟨by omega, h.copyIn _ (by omega)⟩

/-- Moving the read index behind bytes that were written over is dropping them first. -/
theorem Holds.copyIn_behind (h : Holds rb queue) (new : List UInt8) {k : Nat}
    (hk : k ≤ queue.length) (hroom : queue.length + new.length = rb.buffer_size + k) :
    Holds
      (if k < rb.buffer_size - rb.read_index then
          { rb.copyIn new with read_index := rb.read_index + k }
        else
          { rb.copyIn new with
            read_mirror := !rb.read_mirror
            read_index := k - (rb.buffer_size - rb.read_index) })
      (queue.drop k ++ new) := by
  have hsize := h.size_lt
  have hdropped : (queue.drop k).length + new.length ≤ rb.buffer_size := by
    rw [List.length_drop]
    omega
  by_cases hinside : k < rb.buffer_size - rb.read_index
  · have hholds := (h.drop_inside hk hinside).copyIn new hdropped
    rw [toIndex_of_lt (by omega)] at hholds
    rw [if_pos hinside]
    unfold RingBuffer.copyIn at hholds ⊢
    split <;> rename_i hwrite
    · rw [if_pos hwrite] at hholds
      exact hholds
    · rw [if_neg hwrite] at hholds
      exact hholds
  · have hholds := (h.drop_across hk (by omega)).2.copyIn new hdropped
    rw [if_neg hinside]
    unfold RingBuffer.copyIn at hholds ⊢
    split <;> rename_i hwrite
    · rw [if_pos hwrite] at hholds
      exact hholds
    · rw [if_neg hwrite] at hholds
      exact hholds

/-- The bytes that a forced write keeps of a block. -/
theorem newest_append (size : Nat) (queue ptr : List UInt8) :
    newest size (queue ++ ptr) =
      queue.drop (queue.length + min ptr.length size - size) ++
        (if size < ptr.length then ptr.drop (ptr.length - size) else ptr) := by
  rw [newest, List.length_append, List.drop_append]
  split
  · have hqueue : queue.length + ptr.length - size - queue.length = ptr.length - size := by
      omega
    have hnone : queue.length + min ptr.length size - size = queue.length := by
      omega
    rw [hqueue, hnone, List.drop_length, List.drop_eq_nil_of_le (by omega)]
  · have hptr : queue.length + ptr.length - size - queue.length = 0 := by
      omega
    rw [hptr, List.drop_zero, Nat.min_eq_left (by omega)]

/-- Writing does not move the read index. -/
theorem copyIn_read_index (rb : RingBuffer) (new : List UInt8) :
    (rb.copyIn new).read_index = rb.read_index := by
  unfold RingBuffer.copyIn
  split <;> rfl

/-- Writing does not turn the mirror bit of the read index. -/
theorem copyIn_read_mirror (rb : RingBuffer) (new : List UInt8) :
    (rb.copyIn new).read_mirror = rb.read_mirror := by
  unfold RingBuffer.copyIn
  split <;> rfl

/-- Where the write index is after at most a pool of bytes. -/
theorem Holds.copyIn_write_index (h : Holds rb queue) {new : List UInt8}
    (hnew : new.length ≤ rb.buffer_size) :
    (rb.copyIn new).write_index =
      if new.length < rb.buffer_size - rb.write_index then
        rb.write_index + new.length
      else
        new.length - (rb.buffer_size - rb.write_index) := by
  have hsize := h.size_lt
  have hwrite := h.write_lt
  unfold RingBuffer.copyIn
  split
  · exact toIndex_of_lt (by omega)
  · exact toIndex_of_lt (by omega)

/-- Where the read index goes when a block needs the room of some bytes more. -/
theorem Holds.behind_eq (h : Holds rb queue) {new : List UInt8}
    (hnew : new.length ≤ rb.buffer_size)
    (hforced : rb.buffer_size - queue.length < new.length) :
    (if queue.length + new.length - rb.buffer_size < rb.buffer_size - rb.read_index then
        { rb.copyIn new with
          read_index := rb.read_index + (queue.length + new.length - rb.buffer_size) }
      else
        { rb.copyIn new with
          read_mirror := !rb.read_mirror
          read_index := queue.length + new.length - rb.buffer_size -
            (rb.buffer_size - rb.read_index) }) =
      if new.length < rb.buffer_size - rb.write_index then
        { rb.copyIn new with read_index := (rb.copyIn new).write_index }
      else
        { rb.copyIn new with
          read_mirror :=
            if (rb.copyIn new).write_index ≤ (rb.copyIn new).read_index then
              !(rb.copyIn new).read_mirror
            else
              (rb.copyIn new).read_mirror
          read_index := (rb.copyIn new).write_index } := by
  have hread := h.read_lt
  have hwrite := h.write_lt
  have hlength := h.window.length_queue
  have hwindow := h.window
  rw [h.length_pool] at hlength
  have hcopied := h.copyIn_write_index hnew
  generalize (rb.read_mirror != rb.write_mirror) = ahead at hlength hwindow
  cases ahead with
  | false =>
      -- The block reaches the end of the pool, else there would be room for it.
      have hle := hwindow.le_of_straight
      rw [if_neg Bool.false_ne_true] at hlength
      have hacross : ¬ new.length < rb.buffer_size - rb.write_index := by omega
      have hindex : (rb.copyIn new).write_index =
          rb.read_index + (queue.length + new.length - rb.buffer_size) := by
        rw [hcopied, if_neg hacross]
        omega
      rw [if_pos (by omega), if_neg hacross, hindex, copyIn_read_index, if_neg (by omega)]
  | true =>
      have hle := hwindow.le_of_wrapped
      rw [if_pos rfl] at hlength
      by_cases hinside : new.length < rb.buffer_size - rb.write_index
      · have hindex : (rb.copyIn new).write_index =
            rb.read_index + (queue.length + new.length - rb.buffer_size) := by
          rw [hcopied, if_pos hinside]
          omega
        rw [if_pos (by omega), if_pos hinside, hindex]
      · have hindex : (rb.copyIn new).write_index =
            queue.length + new.length - rb.buffer_size - (rb.buffer_size - rb.read_index) := by
          rw [hcopied, if_neg hinside]
          omega
        rw [if_neg (by omega), if_neg hinside, hindex, copyIn_read_index, copyIn_read_mirror,
          if_pos (by omega)]

/-- {lit}`rt_ringbuffer_put_force` keeps the newest bytes. -/
theorem Holds.putForce (h : Holds rb queue) (ptr : List UInt8) :
    (rb.putForce ptr).1 = min ptr.length rb.buffer_size ∧
      Holds (rb.putForce ptr).2 (newest rb.buffer_size (queue ++ ptr)) := by
  have hlength := h.length_le
  rw [newest_append]
  unfold RingBuffer.putForce
  simp only [h.toUInt16_spaceLen]
  generalize hnew : (if rb.buffer_size < ptr.length then
    ptr.drop (ptr.length - rb.buffer_size) else ptr) = new
  have hcount : new.length = min ptr.length rb.buffer_size := by
    rw [← hnew]
    split
    · rw [List.length_drop]
      omega
    · omega
  rw [← hcount]
  have hnew_le : new.length ≤ rb.buffer_size := by omega
  by_cases hforced : rb.buffer_size - queue.length < new.length
  · have hbehind := h.copyIn_behind new
      (k := queue.length + new.length - rb.buffer_size) (by omega) (by omega)
    rw [h.behind_eq hnew_le hforced] at hbehind
    simp only [if_pos hforced]
    split <;> rename_i hinside
    · rw [if_pos hinside] at hbehind
      exact ⟨rfl, hbehind⟩
    · rw [if_neg hinside] at hbehind
      exact ⟨rfl, hbehind⟩
  · have hzero : queue.length + new.length - rb.buffer_size = 0 := by omega
    have hholds := h.copyIn new (by omega)
    rw [hzero, List.drop_zero]
    simp only [if_neg hforced]
    split
    · exact ⟨rfl, hholds⟩
    · exact ⟨rfl, hholds⟩

/-- {lit}`rt_ringbuffer_get` takes the oldest bytes. -/
theorem Holds.get (h : Holds rb queue) (count : Nat) :
    (rb.get count).1 = min count queue.length ∧
      (rb.get count).2.1 = queue.take count ∧
      Holds (rb.get count).2.2 (queue.drop count) := by
  have hpool := h.length_pool
  have hread := h.read_lt
  have hsize := h.size_lt
  unfold RingBuffer.get
  simp only [h.dataLen_eq]
  split
  · rename_i hempty
    have hnil : queue = [] := List.length_eq_zero_iff.mp hempty
    subst hnil
    rw [List.take_nil, List.drop_nil]
    exact ⟨(Nat.min_zero count).symm, rfl, h⟩
  · -- Both branches of the clipping move the same number of bytes.
    generalize hlength : (if queue.length < count then queue.length else count) = length
    have hcount : length = min count queue.length := by
      rw [← hlength]
      split <;> omega
    have htake : queue.take count = queue.take length := by
      rw [hcount, List.take_eq_take_min, Nat.min_comm]
    have hdrop : queue.drop count = queue.drop length := by
      rw [hcount, List.drop_eq_drop_min, Nat.min_comm]
    rw [htake, hdrop]
    have hle : length ≤ queue.length := by omega
    split <;> rename_i hinside
    · exact ⟨hcount, h.window.read_inside hle (by omega), h.drop_inside hle hinside⟩
    · have hacross := h.drop_across hle (by omega)
      have hindex : toIndex (length - (rb.buffer_size - rb.read_index)) =
          length - (rb.buffer_size - rb.read_index) :=
        toIndex_of_lt (by have := h.length_le; omega)
      have hbytes := h.window.read_across hle (by omega)
      rw [hpool] at hbytes
      rw [hindex]
      exact ⟨hcount, hbytes, hacross.2⟩

/-- The bytes that a peak hands out and the ones that stay. -/
theorem Holds.peak (h : Holds rb queue) :
    ∃ front back, queue = front ++ back ∧ (front = [] → back = []) ∧
      rb.peak.1 = front.length ∧ rb.peak.2.1 = front ∧ Holds rb.peak.2.2 back := by
  have hpool := h.length_pool
  have hread := h.read_lt
  have hsize := h.size_lt
  unfold RingBuffer.peak
  simp only [h.dataLen_eq]
  split
  · rename_i hempty
    have hnil : queue = [] := List.length_eq_zero_iff.mp hempty
    subst hnil
    exact ⟨[], [], rfl, fun _ => rfl, rfl, rfl, h⟩
  · rename_i hqueue
    split <;> rename_i hinside
    · have hholds := h.drop_inside Nat.le.refl hinside
      rw [List.drop_length] at hholds
      have hbytes := h.window.read_inside Nat.le.refl (by omega)
      rw [List.take_length] at hbytes
      exact ⟨queue, [], (List.append_nil queue).symm, fun _ => rfl, rfl, hbytes, hholds⟩
    · have hle : rb.buffer_size - rb.read_index ≤ queue.length := by omega
      have hacross := (h.drop_across hle Nat.le.refl).2
      rw [Nat.sub_self] at hacross
      have hbytes := h.window.read_inside hle (by omega)
      refine ⟨_, _, (List.take_append_drop (rb.buffer_size - rb.read_index) queue).symm, ?_, ?_,
        hbytes, hacross⟩
      · intro hfront
        have hcount := congrArg List.length hfront
        rw [List.length_take, List.length_nil] at hcount
        omega
      · rw [List.length_take]
        omega

/-- {lit}`rt_ringbuffer_reset` drops everything. -/
theorem Holds.reset (h : Holds rb queue) : Holds rb.reset [] := by
  have hpool := h.length_pool
  have hread := h.read_lt
  refine ⟨window_nil ?_, hpool, h.size_lt⟩
  apply List.ne_nil_of_length_pos
  change 0 < rb.buffer_ptr.length
  omega

/-! ## Single bytes -/

/-- Writing a single byte is writing a block of one. -/
theorem Holds.copyChar_eq (h : Holds rb queue) (ch : UInt8) :
    rb.copyChar ch = rb.copyIn [ch] := by
  have hwrite := h.write_lt
  unfold RingBuffer.copyChar RingBuffer.copyIn
  by_cases hlast : rb.write_index + 1 = rb.buffer_size
  · have hhere : rb.buffer_size - rb.write_index = 1 := by omega
    rw [if_pos hlast, if_neg (by simp [hhere])]
    simp [hhere, toIndex]
  · rw [if_neg hlast, if_pos (by rw [List.length_singleton]; omega)]
    rfl

/-- Putting a byte is putting a block of one. -/
theorem putchar_eq (h : Holds rb queue) (ch : UInt8) : rb.putchar ch = rb.put [ch] := by
  unfold putchar RingBuffer.put
  simp only [h.toUInt16_spaceLen]
  rw [h.spaceLen_eq]
  split
  · rfl
  · rename_i hspace
    rw [if_neg (by rw [List.length_singleton]; omega), List.length_singleton, h.copyChar_eq]
    rfl

/-- The buffer is full exactly when there is no room. -/
theorem Holds.status_eq_full_iff (h : Holds rb queue) :
    rb.status = .full ↔ rb.buffer_size - queue.length = 0 := by
  have hread := h.read_lt
  have hdata := h.dataLen_eq
  have hlength := h.length_le
  have hwrite := h.write_lt
  have hgap : rb.read_index - rb.write_index ≤ rb.buffer_size :=
    Nat.le_trans (Nat.sub_le _ _) (Nat.le_of_lt hread)
  unfold RingBuffer.dataLen at hdata
  rw [sizeSub_of_le hgap] at hdata
  cases hstatus : rb.status with
  | empty =>
      rw [hstatus] at hdata
      simp only at hdata
      simp only [reduceCtorEq, false_iff]
      omega
  | full =>
      rw [hstatus] at hdata
      simp only at hdata
      simp only [true_iff]
      omega
  | halfFull =>
      rw [hstatus] at hdata
      simp only at hdata
      have hne : rb.read_index ≠ rb.write_index := by
        intro heq
        rw [status, if_pos heq] at hstatus
        split at hstatus <;> cases hstatus
      simp only [reduceCtorEq, false_iff]
      split at hdata <;> omega

/-- Forcing a byte in is forcing a block of one in. -/
theorem putcharForce_eq (h : Holds rb queue) (ch : UInt8) :
    rb.putcharForce ch = rb.putForce [ch] := by
  have hread := h.read_lt
  have hwrite := h.write_lt
  have hlength := h.length_le
  have hfull := h.status_eq_full_iff
  have hone : ¬ rb.buffer_size < [ch].length := by
    rw [List.length_singleton]
    omega
  have hforced : rb.buffer_size - queue.length < [ch].length ↔ rb.status = .full := by
    rw [hfull, List.length_singleton]
    omega
  have hcopied := h.copyIn_write_index (Nat.not_lt.mp hone)
  unfold putcharForce RingBuffer.putForce
  simp only [h.toUInt16_spaceLen, if_neg hone, hforced, h.copyChar_eq]
  by_cases hlast : rb.write_index + 1 = rb.buffer_size
  · have hacross : ¬ [ch].length < rb.buffer_size - rb.write_index := by
      rw [List.length_singleton]
      omega
    -- The byte goes into the last cell, so the write index comes back to the front.
    have hindex : (rb.copyIn [ch]).write_index = 0 := by
      rw [hcopied, if_neg hacross, List.length_singleton]
      omega
    rw [if_pos hlast, if_neg hacross, hindex, if_pos (Nat.zero_le _)]
    rfl
  · have hinside : [ch].length < rb.buffer_size - rb.write_index := by
      rw [List.length_singleton]
      omega
    rw [if_neg hlast, if_pos hinside]
    rfl

/-- Getting a byte is getting a block of one. -/
theorem getchar_eq (h : Holds rb queue) : rb.getchar = rb.get 1 := by
  have hpool := h.length_pool
  have hread := h.read_lt
  unfold getchar RingBuffer.get
  simp only [h.dataLen_eq]
  split
  · rfl
  · rename_i hqueue
    rw [if_neg (show ¬ queue.length < 1 by omega)]
    by_cases hlast : rb.read_index + 1 = rb.buffer_size
    · have hhere : rb.buffer_size - rb.read_index = 1 := by omega
      have hrest : (rb.buffer_ptr.drop rb.read_index).length = 1 := by
        rw [List.length_drop]
        omega
      rw [if_pos hlast, hhere, if_neg (Nat.lt_irrefl 1),
        List.take_of_length_le (Nat.le_of_eq hrest)]
      simp [toIndex]
    · rw [if_neg hlast, if_pos (by omega)]

end Holds

/-! ## Runs -/

/-- A call of one of the functions of the driver interface. -/
inductive Call
  | put (ptr : List UInt8)
  | putForce (ptr : List UInt8)
  | get (length : Nat)
  | peak
  | putchar (ch : UInt8)
  | putcharForce (ch : UInt8)
  | getchar
  | dataLen
  | reset
deriving DecidableEq

/-- What a call does to a buffer. -/
def call (rb : RingBuffer) : Call → Reply UInt8 × RingBuffer
  | .put ptr => (⟨(rb.put ptr).1, []⟩, (rb.put ptr).2)
  | .putForce ptr => (⟨(rb.putForce ptr).1, []⟩, (rb.putForce ptr).2)
  | .get length => (⟨(rb.get length).1, (rb.get length).2.1⟩, (rb.get length).2.2)
  | .peak => (⟨rb.peak.1, rb.peak.2.1⟩, rb.peak.2.2)
  | .putchar ch => (⟨(rb.putchar ch).1, []⟩, (rb.putchar ch).2)
  | .putcharForce ch => (⟨(rb.putcharForce ch).1, []⟩, (rb.putcharForce ch).2)
  | .getchar => (⟨rb.getchar.1, rb.getchar.2.1⟩, rb.getchar.2.2)
  | .dataLen => (⟨rb.dataLen, []⟩, rb)
  | .reset => (⟨0, []⟩, rb.reset)

/-- The request to a queue that a call stands for. -/
def Call.request : Call → Request UInt8
  | .put ptr => .put ptr
  | .putForce ptr => .putForce ptr
  | .get length => .get length
  | .peak => .peak
  | .putchar ch => .put [ch]
  | .putcharForce ch => .putForce [ch]
  | .getchar => .get 1
  | .dataLen => .length
  | .reset => .reset

/-- A sequence of calls: what was asked and answered, and the buffer afterwards. -/
def run (rb : RingBuffer) : List Call → List (Request UInt8 × Reply UInt8) × RingBuffer
  | [] => ([], rb)
  | c :: calls =>
      let (reply, rb) := rb.call c
      let (exchanges, rb) := rb.run calls
      ((c.request, reply) :: exchanges, rb)

section Run

variable {rb : RingBuffer} {queue : List UInt8}

/-- Writing does not change the size. -/
theorem copyIn_buffer_size (rb : RingBuffer) (new : List UInt8) :
    (rb.copyIn new).buffer_size = rb.buffer_size := by
  unfold copyIn
  split <;> rfl

/-- {lit}`rt_ringbuffer_put` does not change the size. -/
theorem put_buffer_size (rb : RingBuffer) (ptr : List UInt8) :
    (rb.put ptr).2.buffer_size = rb.buffer_size := by
  unfold put
  simp only
  split
  · rfl
  · exact copyIn_buffer_size rb _

/-- {lit}`rt_ringbuffer_put_force` does not change the size. -/
theorem putForce_buffer_size (rb : RingBuffer) (ptr : List UInt8) :
    (rb.putForce ptr).2.buffer_size = rb.buffer_size := by
  unfold putForce
  simp only
  split_ifs <;> exact copyIn_buffer_size rb _

/-- {lit}`rt_ringbuffer_get` does not change the size. -/
theorem get_buffer_size (rb : RingBuffer) (length : Nat) :
    (rb.get length).2.2.buffer_size = rb.buffer_size := by
  unfold get
  simp only
  split_ifs <;> rfl

/-- {lit}`rt_ringbuffer_peak` does not change the size. -/
theorem peak_buffer_size (rb : RingBuffer) : rb.peak.2.2.buffer_size = rb.buffer_size := by
  unfold peak
  simp only
  split
  · rfl
  · split <;> rfl

/-- No call changes the size. -/
theorem Holds.call_buffer_size (h : Holds rb queue) (c : Call) :
    (rb.call c).2.buffer_size = rb.buffer_size := by
  cases c with
  | put ptr => exact put_buffer_size rb ptr
  | putForce ptr => exact putForce_buffer_size rb ptr
  | get length => exact get_buffer_size rb length
  | peak => exact peak_buffer_size rb
  | putchar ch =>
      rw [call, putchar_eq h]
      exact put_buffer_size rb [ch]
  | putcharForce ch =>
      rw [call, putcharForce_eq h]
      exact putForce_buffer_size rb [ch]
  | getchar =>
      rw [call, getchar_eq h]
      exact get_buffer_size rb 1
  | dataLen => rfl
  | reset => rfl

/-- {lit}`rt_ringbuffer_put` is a step of the queue. -/
theorem Holds.step_put (h : Holds rb queue) (ptr : List UInt8) :
    ∃ queue', Step rb.buffer_size queue (.put ptr) ⟨(rb.put ptr).1, []⟩ queue' ∧
      Holds (rb.put ptr).2 queue' := by
  rcases h.put ptr with ⟨hcount, hholds⟩
  exact ⟨_, hcount ▸ .put queue ptr, hholds⟩

/-- {lit}`rt_ringbuffer_put_force` is a step of the queue. -/
theorem Holds.step_putForce (h : Holds rb queue) (ptr : List UInt8) :
    ∃ queue', Step rb.buffer_size queue (.putForce ptr) ⟨(rb.putForce ptr).1, []⟩ queue' ∧
      Holds (rb.putForce ptr).2 queue' := by
  rcases h.putForce ptr with ⟨hcount, hholds⟩
  exact ⟨_, hcount ▸ .putForce queue ptr, hholds⟩

/-- {lit}`rt_ringbuffer_get` is a step of the queue. -/
theorem Holds.step_get (h : Holds rb queue) (length : Nat) :
    ∃ queue', Step rb.buffer_size queue (.get length)
        ⟨(rb.get length).1, (rb.get length).2.1⟩ queue' ∧
      Holds (rb.get length).2.2 queue' := by
  rcases h.get length with ⟨hcount, hbytes, hholds⟩
  exact ⟨_, hcount ▸ hbytes ▸ .get queue length, hholds⟩

/-- Each call answers as a bounded queue does. -/
theorem Holds.call (h : Holds rb queue) (c : Call) :
    ∃ queue', Step rb.buffer_size queue c.request (rb.call c).1 queue' ∧
      Holds (rb.call c).2 queue' := by
  cases c with
  | put ptr => exact h.step_put ptr
  | putForce ptr => exact h.step_putForce ptr
  | get length => exact h.step_get length
  | peak =>
      rcases h.peak with ⟨front, back, hqueue, hfront, hcount, hbytes, hholds⟩
      subst hqueue
      refine ⟨back, ?_, hholds⟩
      rw [RingBuffer.call, hcount, hbytes]
      exact .peak front back hfront
  | putchar ch =>
      rw [RingBuffer.call, putchar_eq h]
      exact h.step_put [ch]
  | putcharForce ch =>
      rw [RingBuffer.call, putcharForce_eq h]
      exact h.step_putForce [ch]
  | getchar =>
      rw [RingBuffer.call, getchar_eq h]
      exact h.step_get 1
  | dataLen =>
      rw [RingBuffer.call, h.dataLen_eq]
      exact ⟨queue, .length queue, h⟩
  | reset => exact ⟨[], .reset queue, h.reset⟩

/-- The calls one after the other are a run of the queue. -/
theorem Holds.run (h : Holds rb queue) (calls : List Call) :
    ∃ queue', Run rb.buffer_size queue (rb.run calls).1 queue' ∧
      Holds (rb.run calls).2 queue' := by
  induction calls generalizing rb queue with
  | nil => exact ⟨queue, .nil queue, h⟩
  | cons c calls ih =>
      rcases h.call c with ⟨queue', hstep, hholds⟩
      rcases ih hholds with ⟨queue'', hrun, hend⟩
      rw [h.call_buffer_size c] at hrun
      exact ⟨queue'', .cons hstep hrun, hend⟩

/-- A fresh buffer on a pool of the aligned size is empty. -/
theorem init_holds {pool : List UInt8} {size : Nat} (hsize : alignSize ≤ size)
    (hbound : size < 2 ^ 15) (hpool : pool.length = alignDown size) :
    Holds (init pool size) [] := by
  have hpos : 0 < alignDown size := by
    unfold alignDown alignSize at *
    omega
  have hle : alignDown size ≤ size := Nat.div_mul_le_self size alignSize
  refine ⟨window_nil ?_, hpool, ?_⟩
  · apply List.ne_nil_of_length_pos
    change 0 < pool.length
    omega
  · change alignDown size < 2 ^ 15
    omega

/-- Every run on a fresh buffer answers as a bounded queue of the aligned size does, and holds
what the queue holds. -/
theorem run_refines {pool : List UInt8} {size : Nat} (hsize : alignSize ≤ size)
    (hbound : size < 2 ^ 15) (hpool : pool.length = alignDown size) (calls : List Call) :
    ∃ queue, Run (alignDown size) [] ((init pool size).run calls).1 queue ∧
      Holds ((init pool size).run calls).2 queue :=
  (init_holds hsize hbound hpool).run calls

/-- Six bytes of room are four: the fifth byte is refused, the forced one drops the oldest. -/
theorem run_refines_four :
    ((init [0, 0, 0, 0] 6).run [.put [1, 2, 3, 4, 5], .getchar, .put [6], .putcharForce 7,
        .dataLen, .get 9]).1.map (fun exchange => exchange.2) =
      [⟨4, []⟩, ⟨1, [1]⟩, ⟨1, []⟩, ⟨1, []⟩, ⟨4, []⟩, ⟨4, [3, 4, 6, 7]⟩] ∧
    ∃ queue, Run (alignDown 6) [] ((init [0, 0, 0, 0] 6).run [.put [1, 2, 3, 4, 5], .getchar,
        .put [6], .putcharForce 7, .dataLen, .get 9]).1 queue ∧
      Holds ((init [0, 0, 0, 0] 6).run [.put [1, 2, 3, 4, 5], .getchar, .put [6],
        .putcharForce 7, .dataLen, .get 9]).2 queue :=
  ⟨by decide, run_refines (by decide) (by decide) (by decide) _⟩

/-- The requests of a run are the ones of its calls. -/
theorem run_requests (rb : RingBuffer) (calls : List Call) :
    (rb.run calls).1.map (fun exchange => exchange.1) = calls.map Call.request := by
  induction calls generalizing rb with
  | nil => rfl
  | cons c calls ih => exact congrArg (c.request :: ·) (ih (rb.call c).2)

/-- In every run the bytes that come out of a fresh buffer, followed by the ones it still holds,
were offered to it in this order: none is made up, repeated or overtaken. -/
theorem run_invents_nothing {pool : List UInt8} {size : Nat} (hsize : alignSize ≤ size)
    (hbound : size < 2 ^ 15) (hpool : pool.length = alignDown size) (calls : List Call) :
    ∃ queue, Holds ((init pool size).run calls).2 queue ∧
      ((((init pool size).run calls).1.flatMap fun exchange => exchange.2.delivered) ++
        queue).Sublist (calls.flatMap fun c => c.request.offered) := by
  rcases (init_holds hsize hbound hpool).run calls with ⟨queue, hrun, hholds⟩
  refine ⟨queue, hholds, ?_⟩
  have hsublist := hrun.delivered_sublist
  rw [List.nil_append, ← List.flatMap_map (fun exchange : Request UInt8 × Reply UInt8 =>
    exchange.1) Request.offered, run_requests, List.flatMap_map] at hsublist
  exact hsublist

/-- Without forced writes and resets the bytes that come out of a fresh buffer, followed by
the ones it still holds, are the bytes it accepted. -/
theorem run_keeps_bytes {pool : List UInt8} {size : Nat} (hsize : alignSize ≤ size)
    (hbound : size < 2 ^ 15) (hpool : pool.length = alignDown size) {calls : List Call}
    (hlossless : ∀ c ∈ calls, c.request.Lossless) :
    ∃ queue, Holds ((init pool size).run calls).2 queue ∧
      (((init pool size).run calls).1.flatMap fun exchange => exchange.2.delivered) ++ queue =
        ((init pool size).run calls).1.flatMap accepted := by
  rcases (init_holds hsize hbound hpool).run calls with ⟨queue, hrun, hholds⟩
  refine ⟨queue, hholds, ?_⟩
  rw [hrun.accepted_eq, List.nil_append]
  intro exchange hmem
  have hrequest : exchange.1 ∈ calls.map Call.request := by
    rw [← run_requests (init pool size) calls]
    exact List.mem_map_of_mem hmem
  rcases List.mem_map.mp hrequest with ⟨c, hc, heq⟩
  rw [← heq]
  exact hlossless c hc

/-- Four bytes of room, one byte read in between. -/
theorem run_keeps_bytes_four :
    ∃ queue, Holds ((init [0, 0, 0, 0] 4).run [.put [1, 2, 3], .getchar, .put [4, 5]]).2 queue ∧
      (((init [0, 0, 0, 0] 4).run [.put [1, 2, 3], .getchar, .put [4, 5]]).1.flatMap
          fun exchange => exchange.2.delivered) ++ queue =
        ((init [0, 0, 0, 0] 4).run [.put [1, 2, 3], .getchar, .put [4, 5]]).1.flatMap accepted :=
  run_keeps_bytes (by decide) (by decide) (by decide) (by decide)

end Run

end RingBuffer
end RtThread
end TestAio
