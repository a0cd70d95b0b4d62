import Mathlib.Data.List.Basic

/-!
# Queues in a cyclic store

A queue lies in a store of fixed length between a position to read from and a position to
write to.  It goes on at the front of the store where it reaches the end.  Equal positions
do not tell an empty queue from a full one, so a flag says whether the writer is one round
ahead of the reader.

Main results:

- Theorems {lit}`Window.append_inside` and {lit}`Window.append_across`: writing behind the
  queue appends to it.
- Theorems {lit}`Window.drop_inside` and {lit}`Window.drop_across`: moving the reader drops
  from the front.
- Theorems {lit}`Window.read_inside` and {lit}`Window.read_across`: the cells from the
  reader on hold the front of the queue.

Current gaps:

- None.
-/

namespace TestAio
namespace Library
namespace Cyclic

variable {α : Type}

/-- The cells with some of them written over from a position on. -/
def overwrite (cells : List α) (start : Nat) (new : List α) : List α :=
  cells.take start ++ new ++ cells.drop (start + new.length)

@[simp]
theorem overwrite_nil (cells : List α) (start : Nat) : overwrite cells start [] = cells := by
  simp [overwrite]

/-- Overwriting does not change the length. -/
theorem length_overwrite {cells new : List α} {start : Nat}
    (h : start + new.length ≤ cells.length) :
    (overwrite cells start new).length = cells.length := by
  simp only [overwrite, List.length_append, List.length_take, List.length_drop]
  omega

/-- Writing over a part whose place is known. -/
theorem overwrite_append {front old back new : List α} (h : new.length = old.length) :
    overwrite (front ++ old ++ back) front.length new = front ++ new ++ back := by
  have hdrop : (front ++ old ++ back).drop (front.length + new.length) = back := by
    rw [h, ← List.length_append, List.drop_left]
  rw [overwrite, hdrop, List.append_assoc front old back, List.take_left]

/-- The queue lies in the cells between the two positions; the flag says that the writer is
one round ahead. -/
inductive Window (cells : List α) (read write : Nat) : Bool → List α → Prop
  | straight {queue : List α} (front back : List α)
      (hcells : cells = front ++ queue ++ back) (hread : read = front.length)
      (hwrite : write = front.length + queue.length) (hback : back ≠ []) :
      Window cells read write false queue
  | wrapped {first second : List α} (gap : List α)
      (hcells : cells = second ++ gap ++ first) (hread : read = second.length + gap.length)
      (hwrite : write = second.length) (hfirst : first ≠ []) :
      Window cells read write true (first ++ second)

section Window

variable {cells queue new : List α} {read write : Nat} {ahead : Bool}

/-- At first the window is empty. -/
theorem window_nil (hcells : cells ≠ []) : Window cells 0 0 false [] :=
  .straight [] cells rfl rfl rfl hcells

/-- The start of the window lies within the cells. -/
theorem Window.read_lt (h : Window cells read write ahead queue) : read < cells.length := by
  cases h with
  | straight front back hcells hread hwrite hback =>
      have := List.length_pos_iff.mpr hback
      simp only [hcells, List.length_append]
      omega
  | wrapped gap hcells hread hwrite hfirst =>
      have := List.length_pos_iff.mpr hfirst
      simp only [hcells, List.length_append]
      omega

/-- The end of the window lies within the cells. -/
theorem Window.write_lt (h : Window cells read write ahead queue) : write < cells.length := by
  cases h with
  | straight front back hcells hread hwrite hback =>
      have := List.length_pos_iff.mpr hback
      simp only [hcells, List.length_append]
      omega
  | wrapped gap hcells hread hwrite hfirst =>
      have := List.length_pos_iff.mpr hfirst
      simp only [hcells, List.length_append]
      omega

/-- A window in one part ends behind its start. -/
theorem Window.le_of_straight (h : Window cells read write false queue) : read ≤ write := by
  cases h with
  | straight front back hcells hread hwrite hback => omega

/-- A window in two parts ends before its start. -/
theorem Window.le_of_wrapped (h : Window cells read write true queue) : write ≤ read := by
  cases h with
  | wrapped gap hcells hread hwrite hfirst => omega

/-- The number of elements between the two positions. -/
theorem Window.length_queue (h : Window cells read write ahead queue) :
    queue.length = if ahead then cells.length - (read - write) else write - read := by
  cases h with
  | straight front back hcells hread hwrite hback =>
      rw [if_neg Bool.false_ne_true]
      omega
  | wrapped gap hcells hread hwrite hfirst =>
      simp only [hcells, List.length_append, if_true]
      omega

/-- A window has no more elements than there are cells. -/
theorem Window.length_le (h : Window cells read write ahead queue) :
    queue.length ≤ cells.length := by
  have hlength := h.length_queue
  have hwrite := h.write_lt
  cases ahead <;> simp at hlength <;> omega

/-! ## Writing -/

/-- Writing that ends in front of the end of the store. -/
theorem Window.append_inside (h : Window cells read write ahead queue)
    (hroom : queue.length + new.length ≤ cells.length)
    (hinside : write + new.length < cells.length) :
    Window (overwrite cells write new) read (write + new.length) ahead (queue ++ new) := by
  cases h with
  | straight front back hcells hread hwrite hback =>
      have hlength : new.length < back.length := by
        simp only [hcells, List.length_append] at hinside
        omega
      have hback' : back.drop new.length ≠ [] := by
        rw [← List.length_pos_iff, List.length_drop]
        omega
      refine .straight front (back.drop new.length) ?_ hread ?_ hback'
      · have hsplit : cells = front ++ queue ++ back.take new.length ++
            back.drop new.length := by
          rw [hcells, List.append_assoc (front ++ queue), List.take_append_drop]
        have htake : new.length = (back.take new.length).length := by
          rw [List.length_take]
          omega
        rw [hsplit, hwrite, ← List.length_append, overwrite_append htake]
        simp only [List.append_assoc]
      · rw [List.length_append]
        omega
  | @wrapped first second gap hcells hread hwrite hfirst =>
      have hlength : new.length ≤ gap.length := by
        simp only [hcells, List.length_append] at hroom
        omega
      have hqueue : first ++ second ++ new = first ++ (second ++ new) :=
        List.append_assoc first second new
      rw [hqueue]
      refine .wrapped (gap.drop new.length) ?_ ?_ ?_ hfirst
      · have hsplit : cells = second ++ gap.take new.length ++
            (gap.drop new.length ++ first) := by
          rw [hcells, List.append_assoc second (gap.take new.length),
            ← List.append_assoc (gap.take new.length), List.take_append_drop,
            List.append_assoc]
        have htake : new.length = (gap.take new.length).length := by
          rw [List.length_take]
          omega
        rw [hsplit, hwrite, overwrite_append htake]
        simp only [List.append_assoc]
      · rw [List.length_append, List.length_drop]
        omega
      · rw [List.length_append]
        omega

/-- Writing that reaches the end of the store and goes on at its front. -/
theorem Window.append_across (h : Window cells read write ahead queue)
    (hroom : queue.length + new.length ≤ cells.length)
    (hacross : cells.length ≤ write + new.length) :
    ahead = false ∧
      Window
        (overwrite (overwrite cells write (new.take (cells.length - write))) 0
          (new.drop (cells.length - write)))
        read (write + new.length - cells.length) true (queue ++ new) := by
  cases h with
  | @straight queue front back hcells hread hwrite hback =>
      have hback_pos := List.length_pos_iff.mpr hback
      have hcount : cells.length - write = back.length := by
        rw [hcells, hwrite]
        simp only [List.length_append]
        omega
      have hnew : back.length ≤ new.length := by omega
      have hfront : new.length - back.length ≤ front.length := by
        simp only [hcells, List.length_append] at hroom
        omega
      refine ⟨rfl, ?_⟩
      rw [hcount]
      have hfirst : overwrite cells write (new.take back.length) =
          front ++ queue ++ new.take back.length := by
        have htake : (new.take back.length).length = back.length := by
          rw [List.length_take]
          omega
        have hover : overwrite (front ++ queue ++ back ++ []) (front ++ queue).length
            (new.take back.length) = front ++ queue ++ new.take back.length ++ [] :=
          overwrite_append htake
        rw [hcells, hwrite, ← List.length_append]
        simpa using hover
      have hsecond : overwrite (front ++ queue ++ new.take back.length) 0
          (new.drop back.length) =
          new.drop back.length ++ front.drop (new.length - back.length) ++
            (queue ++ new.take back.length) := by
        rw [overwrite, List.take_zero, List.nil_append, Nat.zero_add, List.length_drop,
          List.append_assoc front, List.drop_append_of_le_length hfront,
          List.append_assoc]
      rw [hfirst, hsecond]
      have hqueue : queue ++ new = queue ++ new.take back.length ++ new.drop back.length := by
        rw [List.append_assoc, List.take_append_drop]
      rw [hqueue]
      refine .wrapped (front.drop (new.length - back.length)) rfl ?_ ?_ ?_
      · rw [List.length_drop, List.length_drop]
        omega
      · rw [List.length_drop]
        omega
      · rw [← List.length_pos_iff, List.length_append, List.length_take]
        omega
  | wrapped gap hcells hread hwrite hfirst =>
      -- The writer is behind the reader: it meets the reader before the end of the store.
      have := List.length_pos_iff.mpr hfirst
      simp only [hcells, List.length_append] at hroom hacross
      omega

/-! ## Reading -/

/-- The reader moves on in front of the end of the store. -/
theorem Window.drop_inside (h : Window cells read write ahead queue) {k : Nat}
    (hk : k ≤ queue.length) (hinside : read + k < cells.length) :
    Window cells (read + k) write ahead (queue.drop k) := by
  cases h with
  | straight front back hcells hread hwrite hback =>
      refine .straight (front ++ queue.take k) back ?_ ?_ ?_ hback
      · rw [List.append_assoc front, List.take_append_drop, hcells]
      · rw [List.length_append, List.length_take]
        omega
      · rw [List.length_append, List.length_take, List.length_drop]
        omega
  | @wrapped first second gap hcells hread hwrite hfirst =>
      have hfirst' : k < first.length := by
        simp only [hcells, List.length_append] at hinside
        omega
      rw [List.drop_append_of_le_length (Nat.le_of_lt hfirst')]
      refine .wrapped (gap ++ first.take k) ?_ ?_ hwrite ?_
      · rw [List.append_assoc second, List.append_assoc gap, List.take_append_drop, hcells,
          List.append_assoc]
      · rw [List.length_append, List.length_take]
        omega
      · rw [← List.length_pos_iff, List.length_drop]
        omega

/-- The reader reaches the end of the store and goes on at its front. -/
theorem Window.drop_across (h : Window cells read write ahead queue) {k : Nat}
    (hk : k ≤ queue.length) (hacross : cells.length ≤ read + k) :
    ahead = true ∧ Window cells (read + k - cells.length) write false (queue.drop k) := by
  cases h with
  | straight front back hcells hread hwrite hback =>
      have := List.length_pos_iff.mpr hback
      simp only [hcells, List.length_append] at hacross
      omega
  | @wrapped first second gap hcells hread hwrite hfirst =>
      have hcount : first.length ≤ k := by
        simp only [hcells, List.length_append] at hacross
        omega
      have hsecond : k - first.length ≤ second.length := by
        rw [List.length_append] at hk
        omega
      have hdrop : (first ++ second).drop k = second.drop (k - first.length) := by
        rw [List.drop_append, List.drop_eq_nil_of_le hcount, List.nil_append]
      refine ⟨rfl, ?_⟩
      rw [hdrop]
      refine .straight (second.take (k - first.length)) (gap ++ first) ?_ ?_ ?_ ?_
      · rw [List.take_append_drop, hcells, List.append_assoc]
      · rw [hcells, hread, List.length_take]
        simp only [List.length_append]
        omega
      · rw [List.length_take, List.length_drop]
        omega
      · exact List.append_ne_nil_of_right_ne_nil gap hfirst

/-- The cells from the reader on, as long as the end of the store is not reached. -/
theorem Window.read_inside (h : Window cells read write ahead queue) {k : Nat}
    (hk : k ≤ queue.length) (hinside : read + k ≤ cells.length) :
    (cells.drop read).take k = queue.take k := by
  cases h with
  | straight front back hcells hread hwrite hback =>
      rw [hcells, hread, List.append_assoc, List.drop_left, List.take_append_of_le_length hk]
  | @wrapped first second gap hcells hread hwrite hfirst =>
      have hcount : k ≤ first.length := by
        simp only [hcells, List.length_append] at hinside
        omega
      rw [hcells, hread, ← List.length_append, List.drop_left,
        List.take_append_of_le_length hcount]

/-- The cells from the reader to the end of the store and on from its front. -/
theorem Window.read_across (h : Window cells read write ahead queue) {k : Nat}
    (hk : k ≤ queue.length) (hacross : cells.length ≤ read + k) :
    cells.drop read ++ cells.take (k - (cells.length - read)) = queue.take k := by
  cases h with
  | straight front back hcells hread hwrite hback =>
      have := List.length_pos_iff.mpr hback
      simp only [hcells, List.length_append] at hacross
      omega
  | @wrapped first second gap hcells hread hwrite hfirst =>
      have hcount : cells.length - read = first.length := by
        simp only [hcells, hread, List.length_append]
        omega
      have hfirst' : first.length ≤ k := by omega
      have hsecond : k - first.length ≤ second.length := by
        rw [List.length_append] at hk
        omega
      rw [hcount, List.take_append, List.take_of_length_le hfirst', hcells, hread,
        ← List.length_append, List.drop_left, List.append_assoc,
        List.take_append_of_le_length hsecond]

/-! ## Single cells -/

/-- Overwriting with one element sets it. -/
theorem overwrite_singleton {index : Nat} (h : index < cells.length) (value : α) :
    overwrite cells index [value] = cells.set index value := by
  rw [overwrite, List.length_singleton, List.set_eq_take_append_cons_drop, if_pos h,
    List.append_assoc, List.singleton_append]

/-- One element is put behind the queue. -/
theorem Window.push (h : Window cells read write ahead queue)
    (hroom : queue.length < cells.length) (value : α) :
    ∃ ahead', Window (cells.set write value) read
      (if cells.length ≤ write + 1 then 0 else write + 1) ahead' (queue ++ [value]) := by
  have hwrite := h.write_lt
  rw [← overwrite_singleton hwrite]
  split
  · rename_i hlast
    have hlength : cells.length ≤ write + [value].length := hlast
    have hroom' : queue.length + [value].length ≤ cells.length := hroom
    have hacross := (h.append_across hroom' hlength).2
    have hone : cells.length - write = 1 := by omega
    have hend : write + 1 - cells.length = 0 := by omega
    rw [hone, List.length_singleton, hend, List.take_of_length_le (by simp),
      List.drop_of_length_le (by simp), overwrite_nil] at hacross
    exact ⟨true, hacross⟩
  · rename_i hinside
    exact ⟨ahead, h.append_inside hroom (Nat.lt_of_not_le hinside)⟩

/-- The first element of the queue is taken. -/
theorem Window.pop {value : α} (h : Window cells read write ahead (value :: queue)) :
    cells[read]? = some value ∧
      ∃ ahead', Window cells (if cells.length ≤ read + 1 then 0 else read + 1) write ahead'
        queue := by
  have hread := h.read_lt
  have hfirst := h.read_inside (k := 1) (by simp) hread
  refine ⟨?_, ?_⟩
  · have hcell := congrArg (fun cells => cells[0]?) hfirst
    simpa [List.getElem?_take, List.getElem?_drop] using hcell
  · split
    · rename_i hlast
      have hacross := (h.drop_across (k := 1) (by simp) hlast).2
      have hend : read + 1 - cells.length = 0 := by omega
      rw [hend] at hacross
      exact ⟨false, hacross⟩
    · rename_i hinside
      exact ⟨ahead, h.drop_inside (k := 1) (by simp) (Nat.lt_of_not_le hinside)⟩

/-- One element is put in front of the queue. -/
theorem Window.unshift (h : Window cells read write ahead queue)
    (hroom : queue.length < cells.length) (value : α) :
    ∃ ahead', Window (cells.set (if 0 < read then read - 1 else cells.length - 1) value)
      (if 0 < read then read - 1 else cells.length - 1) write ahead' (value :: queue) := by
  cases h with
  | straight front back hcells hread hwrite hback =>
      rcases List.eq_nil_or_concat front with rfl | ⟨lead, last, rfl⟩
      · rcases List.eq_nil_or_concat back with rfl | ⟨gap, last, rfl⟩
        · exact absurd rfl hback
        · have hlength : cells.length - 1 = (queue ++ gap).length := by
            rw [hcells]
            simp
          rw [if_neg (by simp [hread]), hlength]
          refine ⟨true, ?_⟩
          have hset : cells.set (queue ++ gap).length value = queue ++ gap ++ [value] := by
            rw [hcells, List.nil_append, List.concat_eq_append, ← List.append_assoc,
              List.set_append_right _ _ (Nat.le_refl _), Nat.sub_self]
            rfl
          rw [hset]
          have hwrapped : Window (queue ++ gap ++ [value]) (queue ++ gap).length queue.length true
              ([value] ++ queue) :=
            .wrapped gap rfl List.length_append rfl (by simp)
          rw [hwrite, List.length_nil, Nat.zero_add]
          exact hwrapped
      · rw [List.concat_eq_append] at hcells hread hwrite
        have hlength : read - 1 = lead.length := by
          rw [hread]
          simp
        rw [if_pos (by simp [hread]), hlength]
        refine ⟨false, .straight lead back ?_ rfl ?_ hback⟩
        · rw [hcells, List.append_assoc, List.append_assoc,
            List.set_append_right _ _ (Nat.le_refl _), Nat.sub_self]
          simp
        · rw [hwrite]
          simp only [List.length_append, List.length_cons, List.length_nil]
          omega
  | @wrapped first second gap hcells hread hwrite hfirst =>
      have hpos := List.length_pos_iff.mpr hfirst
      have hgap : gap ≠ [] := by
        rintro rfl
        simp only [hcells, List.length_append, List.length_nil] at hroom
        omega
      rcases List.eq_nil_or_concat gap with rfl | ⟨rest, last, rfl⟩
      · exact absurd rfl hgap
      · rw [List.concat_eq_append] at hcells hread
        have hlength : read - 1 = (second ++ rest).length := by
          rw [hread]
          simp
        have hinside : 0 < read := by
          rw [hread]
          simp only [List.length_append, List.length_singleton]
          omega
        rw [if_pos hinside, hlength]
        refine ⟨true, ?_⟩
        rw [← List.cons_append]
        refine .wrapped rest ?_ (List.length_append) hwrite (by simp)
        rw [hcells, ← List.append_assoc second rest [last], List.append_assoc (second ++ rest),
          List.set_append_right _ _ (Nat.le_refl _), Nat.sub_self]
        simp

end Window

end Cyclic
end Library
end TestAio
