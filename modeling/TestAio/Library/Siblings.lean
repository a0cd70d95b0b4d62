import Mathlib.Data.List.Nodup
import Mathlib.Data.List.Perm.Basic

/-!
# Updating the first sibling with a name

A tree is built under a parent by looking for the first child that has a name: it
is updated in place, and when there is none a new child is put behind the others.

Main results:

- Theorem {lit}`map_upsert`: reading the children commutes with the update.
- Theorems {lit}`upsert_of_not_mem`, {lit}`upsert_append_singleton`: what is built last is
  updated, and a new name opens a new child.
- Theorem {lit}`modify_length_append`: an update at the last position.
- Theorem {lit}`filterMap_range_getElem?`: looking up the first positions.
- Theorem {lit}`forall_mem_upsert`: what holds of the old children, the updated one and
  the new one holds of all children.
- Theorem {lit}`nodup_keys_upsert`: distinct names stay distinct.
- Theorem {lit}`flatMap_upsert_perm`: what an update adds is added to the whole.

Current gaps:

- None.
-/

namespace TestAio
namespace Library
namespace Siblings

variable {α β κ : Type} [DecidableEq κ]

/-- Update the first element with a key, or put a new one at the end. -/
def upsert (key : α → κ) (k : κ) (update : α → α) (fresh : α) : List α → List α
  | [] => [fresh]
  | x :: xs => if key x = k then update x :: xs else x :: upsert key k update fresh xs

/-- Reading the elements commutes with the update. -/
theorem map_upsert {key : α → κ} {key' : β → κ} {k : κ} {update : α → α} {update' : β → β}
    {fresh : α} {read : α → β} {xs : List α} (hkey : ∀ x, key' (read x) = key x)
    (hupdate : ∀ x ∈ xs, key x = k → read (update x) = update' (read x)) :
    (upsert key k update fresh xs).map read =
      upsert key' k update' (read fresh) (xs.map read) := by
  induction xs with
  | nil => rfl
  | cons x xs ih =>
      have hrest := ih fun y hy => hupdate y (by simp [hy])
      simp only [upsert, List.map_cons, hkey]
      split_ifs with hk
      · rw [List.map_cons, hupdate x (by simp) hk]
      · rw [List.map_cons, hrest]

/-- A key that is not there brings a new element at the end. -/
theorem upsert_of_not_mem {key : α → κ} {k : κ} {update : α → α} {fresh : α} {xs : List α}
    (h : k ∉ xs.map key) : upsert key k update fresh xs = xs ++ [fresh] := by
  induction xs with
  | nil => rfl
  | cons x xs ih =>
      rw [List.map_cons, List.mem_cons, not_or] at h
      rw [upsert, if_neg (Ne.symm h.1), ih h.2, List.cons_append]

/-- A key that the last element is the first to have updates it. -/
theorem upsert_append_singleton {key : α → κ} {k : κ} {update : α → α} {fresh : α}
    {xs : List α} {x : α} (h : k ∉ xs.map key) (hx : key x = k) :
    upsert key k update fresh (xs ++ [x]) = xs ++ [update x] := by
  induction xs with
  | nil => rw [List.nil_append, upsert, if_pos hx, List.nil_append]
  | cons y ys ih =>
      rw [List.map_cons, List.mem_cons, not_or] at h
      rw [List.cons_append, upsert, if_neg (Ne.symm h.1), ih h.2, List.cons_append]

/-- An update that changes nothing puts a new element at the end or leaves the list alone. -/
theorem upsert_id (key : α → κ) (k : κ) (fresh : α) (xs : List α) :
    upsert key k id fresh xs = if xs.any (fun x => key x = k) then xs else xs ++ [fresh] := by
  induction xs with
  | nil => rfl
  | cons x xs ih =>
      rw [upsert, List.any_cons]
      by_cases hk : key x = k
      · rw [if_pos hk, decide_eq_true hk, Bool.true_or, if_pos rfl, id]
      · rw [if_neg hk, ih, decide_eq_false hk, Bool.false_or]
        split_ifs <;> rfl

/-- An update at the last position changes what was put there last. -/
theorem modify_length_append (init : List α) (x : α) (f : α → α) :
    (init ++ [x]).modify init.length f = init ++ [f x] := by
  induction init with
  | nil => rfl
  | cons y ys ih =>
      rw [List.cons_append, List.length_cons, List.modify_succ_cons, ih, List.cons_append]

/-- Looking up the first positions. -/
theorem filterMap_range_getElem? (xs : List α) (n : Nat) :
    ((List.range n).filterMap fun k => xs[k]?) = xs.take n := by
  induction n with
  | zero => rfl
  | succ n ih =>
      rw [List.range_succ, List.filterMap_append, ih, List.take_add_one]
      cases h : xs[n]? <;> simp [h]

theorem forall_mem_upsert {P : α → Prop} {key : α → κ} {k : κ} {update : α → α} {fresh : α}
    {xs : List α} (hxs : ∀ x ∈ xs, P x) (hupdate : ∀ x ∈ xs, key x = k → P (update x))
    (hfresh : P fresh) : ∀ x ∈ upsert key k update fresh xs, P x := by
  induction xs with
  | nil => simpa [upsert] using hfresh
  | cons y ys ih =>
      have hrest := ih (fun z hz => hxs z (by simp [hz])) fun z hz => hupdate z (by simp [hz])
      intro x hx
      unfold upsert at hx
      split_ifs at hx with hk
      · rcases List.mem_cons.mp hx with rfl | hx
        · exact hupdate y (by simp) hk
        · exact hxs x (by simp [hx])
      · rcases List.mem_cons.mp hx with rfl | hx
        · exact hxs x (by simp)
        · exact hrest x hx

/-- The keys after an update: a new key goes to the end. -/
theorem keys_upsert {key : α → κ} {k : κ} {update : α → α} {fresh : α} {xs : List α}
    (hupdate : ∀ x, key (update x) = key x) (hfresh : key fresh = k) :
    (upsert key k update fresh xs).map key =
      if k ∈ xs.map key then xs.map key else xs.map key ++ [k] := by
  induction xs with
  | nil => simp [upsert, hfresh]
  | cons x xs ih =>
      simp only [upsert, List.map_cons, List.mem_cons]
      by_cases hk : key x = k
      · simp [hk, hupdate]
      · have hk' : ¬ k = key x := fun h => hk h.symm
        rw [if_neg hk, List.map_cons, ih]
        by_cases hmem : k ∈ xs.map key
        · rw [if_pos hmem, if_pos (Or.inr hmem)]
        · rw [if_neg hmem, if_neg (by simp [hk', hmem]), List.cons_append]

/-- Distinct keys stay distinct. -/
theorem nodup_keys_upsert {key : α → κ} {k : κ} {update : α → α} {fresh : α} {xs : List α}
    (h : (xs.map key).Nodup) (hupdate : ∀ x, key (update x) = key x) (hfresh : key fresh = k) :
    ((upsert key k update fresh xs).map key).Nodup := by
  rw [keys_upsert hupdate hfresh]
  split_ifs with hmem
  · exact h
  · rw [List.nodup_append]
    refine ⟨h, List.nodup_singleton _, ?_⟩
    intro a ha b hb hab
    rw [List.mem_singleton] at hb
    rw [hab, hb] at ha
    exact hmem ha

omit [DecidableEq κ] in
/-- Leaves that tell the key of their element are distinct when the keys are. -/
theorem nodup_flatMap_of_keys {key : α → κ} (leafKey : β → κ) {leaves : α → List β}
    {xs : List α} (h : (xs.map key).Nodup) (hleaves : ∀ x ∈ xs, (leaves x).Nodup)
    (hkey : ∀ x ∈ xs, ∀ leaf ∈ leaves x, leafKey leaf = key x) :
    (xs.flatMap leaves).Nodup := by
  induction xs with
  | nil => simp
  | cons x xs ih =>
      rw [List.map_cons, List.nodup_cons] at h
      rw [List.flatMap_cons, List.nodup_append]
      refine ⟨hleaves x (by simp), ih h.2 (fun y hy => hleaves y (by simp [hy]))
        (fun y hy => hkey y (by simp [hy])), ?_⟩
      intro a ha b hb hab
      rcases List.mem_flatMap.mp hb with ⟨y, hy, hb⟩
      have hx := hkey x (by simp) a ha
      rw [hab, hkey y (by simp [hy]) b hb] at hx
      exact h.1 (hx ▸ List.mem_map_of_mem hy)

/-- What the update adds to an element, and the new element brings, is added to the
whole. -/
theorem flatMap_upsert_perm {key : α → κ} {k : κ} {update : α → α} {fresh : α} {xs : List α}
    {leaves : α → List β} {added : List β}
    (hupdate : ∀ x ∈ xs, key x = k → (leaves (update x)).Perm (leaves x ++ added))
    (hfresh : leaves fresh = added) :
    ((upsert key k update fresh xs).flatMap leaves).Perm (xs.flatMap leaves ++ added) := by
  induction xs with
  | nil => simp [upsert, hfresh]
  | cons x xs ih =>
      have hrest := ih fun y hy => hupdate y (by simp [hy])
      unfold upsert
      split_ifs with hk
      · rw [List.flatMap_cons, List.flatMap_cons, List.append_assoc]
        refine ((hupdate x (by simp) hk).append_right _).trans ?_
        rw [List.append_assoc]
        exact List.perm_append_comm.append_left _
      · rw [List.flatMap_cons, List.flatMap_cons, List.append_assoc]
        exact hrest.append_left _

end Siblings
end Library
end TestAio
