import Mathlib.Data.List.Nodup

/-!
# Tables with generated keys

A table hands out the key of every row it takes in: keys grow and are never used
twice.  Both facts are part of the table, so no operation can lose them.

Main results:

- Definition {lit}`Table.insert`: a row gets the next key.
- Definition {lit}`Table.remove`: rows go, their keys stay used.
- Definition {lit}`Table.modify`: rows change except for their keys.

Current gaps:

- None.
-/

namespace TestAio
namespace Library
namespace KeyedTable

/-- A table whose rows carry distinct generated keys. -/
@[ext]
structure Table {Row : Type} (key : Row → Nat) where
  rows : List Row
  next : Nat
  key_lt : ∀ row ∈ rows, key row < next
  nodup : (rows.map key).Nodup

variable {Row : Type} {key : Row → Nat}

/-- A table without rows; the first key is one. -/
def Table.empty (key : Row → Nat) : Table key where
  rows := []
  next := 1
  key_lt := by simp
  nodup := by simp

/-- Take in the row made for the next key. -/
def Table.insert (t : Table key) (make : Nat → Row) (hmake : ∀ n, key (make n) = n) :
    Table key where
  rows := t.rows ++ [make t.next]
  next := t.next + 1
  key_lt := by
    intro row hrow
    rcases List.mem_append.mp hrow with hrow | hrow
    · exact Nat.lt_succ_of_lt (t.key_lt row hrow)
    · rw [List.mem_singleton.mp hrow, hmake]
      exact Nat.lt_succ_self _
  nodup := by
    rw [List.map_append, List.nodup_append]
    refine ⟨t.nodup, by simp, ?_⟩
    intro a ha b hb
    rcases List.mem_map.mp ha with ⟨row, hrow, rfl⟩
    rw [List.map_singleton, List.mem_singleton, hmake] at hb
    rw [hb]
    exact Nat.ne_of_lt (t.key_lt row hrow)

/-- Remove the rows that meet a condition. -/
def Table.remove (t : Table key) (p : Row → Bool) : Table key where
  rows := t.rows.filter fun row => !p row
  next := t.next
  key_lt := fun row hrow => t.key_lt row (List.mem_of_mem_filter hrow)
  nodup := t.nodup.sublist (List.filter_sublist.map key)

/-- Change the rows except for their keys. -/
def Table.modify (t : Table key) (f : Row → Row) (hf : ∀ row, key (f row) = key row) :
    Table key where
  rows := t.rows.map f
  next := t.next
  key_lt := by
    intro row hrow
    rcases List.mem_map.mp hrow with ⟨old, hold, rfl⟩
    rw [hf]
    exact t.key_lt old hold
  nodup := by
    have hkeys : (t.rows.map f).map key = t.rows.map key := by
      rw [List.map_map]
      exact List.map_congr_left fun row _ => hf row
    rw [hkeys]
    exact t.nodup

@[simp]
theorem Table.insert_rows (t : Table key) (make : Nat → Row) (hmake : ∀ n, key (make n) = n) :
    (t.insert make hmake).rows = t.rows ++ [make t.next] :=
  rfl

@[simp]
theorem Table.mem_remove_rows {t : Table key} {p : Row → Bool} {row : Row} :
    row ∈ (t.remove p).rows ↔ row ∈ t.rows ∧ p row = false := by
  simp [Table.remove]

end KeyedTable
end Library
end TestAio
