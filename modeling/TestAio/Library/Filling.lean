import Mathlib.Data.List.Dedup
import Mathlib.Data.List.Perm.Subperm
import Mathlib.Logic.Relation

/-!
# Filling lists from a pool

Several lists are filled up to a length with elements of a common pool.  In every step some
list that is still too short draws an element of the pool and takes it unless it has it
already.  The draws of different lists may be mixed in any order.

Main results:

- Theorem {lit}`exists_filled`: as long as every short list can still take an element, all
  lists can be filled.
- Theorem {lit}`fills_iff`: the filling never gets stuck and ends with lists of distinct
  elements exactly if the lists start with distinct elements and the pool has enough of them.

Current gaps:

- The draws are possible ones; how likely they are is not modelled.
-/

namespace TestAio
namespace Library
namespace Filling

/-- How an element of the pool is kept in a list, and read back. -/
structure Shape (α β : Type) where
  key : β → α
  make : α → β
  key_make : ∀ a, key (make a) = a

variable {α β : Type} [DecidableEq α] (f : Shape α β) (pool : List α) (k : Nat)

/-- A drawn element is taken unless the list has it. -/
def take (xs : List β) (a : α) : List β :=
  if a ∈ xs.map f.key then xs else xs ++ [f.make a]

/-- One of the short lists draws an element. -/
inductive Step : List (List β) → List (List β) → Prop
  | draw {s : List (List β)} {w : Nat} {xs : List β} {a : α} (hw : s[w]? = some xs)
      (hshort : xs.length < k) (ha : a ∈ pool) : Step s (s.set w (take f xs a))

/-- The states that the filling can reach. -/
abbrev Reaches : List (List β) → List (List β) → Prop :=
  Relation.ReflTransGen (Step f pool k)

/-- No list is short any more. -/
def Filled (s : List (List β)) : Prop :=
  ∀ xs ∈ s, k ≤ xs.length

/-- No list ever gets stuck, and at the end every list has {lit}`k` distinct elements. -/
structure Fills (s : List (List β)) : Prop where
  progress : ∀ s', Reaches f pool k s s' → ∀ xs ∈ s', xs.length < k →
    ∃ a ∈ pool, a ∉ xs.map f.key
  distinct : ∀ s', Reaches f pool k s s' → Filled k s' → ∀ xs ∈ s',
    xs.length = k ∧ (xs.map f.key).Nodup

/-! ## What a step keeps -/

/-- A list on the way. -/
structure Good (xs : List β) : Prop where
  short : xs.length ≤ k
  subset : xs.map f.key ⊆ pool

variable {f pool k}

theorem map_take (xs : List β) (a : α) :
    (take f xs a).map f.key = if a ∈ xs.map f.key then xs.map f.key else xs.map f.key ++ [a] := by
  unfold take
  split
  · rfl
  · rw [List.map_append, List.map_singleton, f.key_make]

theorem prefix_take (xs : List β) (a : α) : xs <+: take f xs a := by
  unfold take
  split
  · exact List.prefix_refl xs
  · exact List.prefix_append xs _

theorem Good.take {xs : List β} (h : Good f pool k xs) (hshort : xs.length < k) {a : α}
    (ha : a ∈ pool) : Good f pool k (take f xs a) where
  short := by
    unfold Filling.take
    split
    · exact h.short
    · rw [List.length_append, List.length_singleton]
      exact hshort
  subset := by
    rw [map_take]
    split
    · exact h.subset
    · exact List.append_subset.mpr ⟨h.subset, List.cons_subset.mpr ⟨ha, List.nil_subset _⟩⟩

theorem nodup_take {xs : List β} (h : (xs.map f.key).Nodup) (a : α) :
    ((take f xs a).map f.key).Nodup := by
  rw [map_take]
  split
  · exact h
  · rename_i ha
    exact List.nodup_append'.mpr ⟨h, List.nodup_singleton a, List.disjoint_singleton.mpr ha⟩

/-- A property of the lists that taking keeps is kept by a step. -/
theorem Step.forall {P : List β → Prop}
    (hP : ∀ xs, P xs → xs.length < k → ∀ a ∈ pool, P (take f xs a)) {s s' : List (List β)}
    (h : Step f pool k s s') (hs : ∀ xs ∈ s, P xs) : ∀ xs ∈ s', P xs := by
  rcases h with ⟨hw, hshort, ha⟩
  intro ys hys
  rcases List.mem_or_eq_of_mem_set hys with hys | rfl
  · exact hs ys hys
  · exact hP _ (hs _ (List.mem_of_getElem? hw)) hshort _ ha

/-- So it holds in every state of a run. -/
theorem Reaches.forall {P : List β → Prop}
    (hP : ∀ xs, P xs → xs.length < k → ∀ a ∈ pool, P (take f xs a)) {s s' : List (List β)}
    (h : Reaches f pool k s s') (hs : ∀ xs ∈ s, P xs) : ∀ xs ∈ s', P xs := by
  induction h with
  | refl => exact hs
  | tail hrun hstep ih => exact hstep.forall hP ih

/-- The lists only grow, and there are always the same number of them. -/
theorem Reaches.grows {s s' : List (List β)} (h : Reaches f pool k s s') :
    s'.length = s.length ∧ ∀ (w : Nat) (xs : List β), s[w]? = some xs →
      ∃ ys, s'[w]? = some ys ∧ xs <+: ys := by
  induction h with
  | refl => exact ⟨rfl, fun w xs hw => ⟨xs, hw, List.prefix_refl xs⟩⟩
  | tail hrun hstep ih =>
      rcases ih with ⟨hlength, hgrows⟩
      rcases hstep with ⟨hw, hshort, ha⟩
      rename_i s'' v zs a
      apply And.intro (by rw [List.length_set, hlength])
      intro w xs hxs
      rcases hgrows w xs hxs with ⟨ys, hys, hstart⟩
      by_cases hvw : v = w
      · subst hvw
        rw [hw] at hys
        cases hys
        have hlt := (List.getElem?_eq_some_iff.mp hw).1
        exact ⟨_, List.getElem?_set_self hlt, hstart.trans (prefix_take zs a)⟩
      · exact ⟨ys, by rw [List.getElem?_set_ne hvw]; exact hys, hstart⟩

/-! ## Filling all lists -/

/-- How many elements the lists lack. -/
def missing (k : Nat) : List (List β) → Nat
  | [] => 0
  | xs :: s => (k - xs.length) + missing k s

theorem filled_of_missing {s : List (List β)} (h : missing k s = 0) : Filled k s := by
  induction s with
  | nil => exact fun xs hxs => absurd hxs List.not_mem_nil
  | cons xs s ih =>
      rw [missing] at h
      exact List.forall_mem_cons.mpr ⟨by omega, ih (by omega)⟩

theorem exists_short {s : List (List β)} (h : ¬ Filled k s) :
    ∃ (w : Nat) (xs : List β), s[w]? = some xs ∧ xs.length < k := by
  unfold Filled at h
  push Not at h
  rcases h with ⟨xs, hxs, hshort⟩
  rcases List.mem_iff_getElem?.mp hxs with ⟨w, hw⟩
  exact ⟨w, xs, hw, by omega⟩

theorem missing_set {s : List (List β)} {w : Nat} {xs : List β} (hw : s[w]? = some xs)
    (hshort : xs.length < k) (b : β) :
    missing k (s.set w (xs ++ [b])) + 1 = missing k s := by
  induction s generalizing w with
  | nil => simp at hw
  | cons ys s ih =>
      cases w with
      | zero =>
          rw [List.getElem?_cons_zero] at hw
          cases hw
          rw [List.set_cons_zero, missing, missing, List.length_append, List.length_singleton]
          omega
      | succ w =>
          rw [List.getElem?_cons_succ] at hw
          have hrest := ih hw
          rw [List.set_cons_succ, missing, missing]
          omega

/-- As long as every short list can take an element, all lists can be filled. -/
theorem exists_filled {s : List (List β)}
    (h : ∀ s', Reaches f pool k s s' → ∀ xs ∈ s', xs.length < k →
      ∃ a ∈ pool, a ∉ xs.map f.key) :
    ∃ s', Reaches f pool k s s' ∧ Filled k s' := by
  have hrun : ∀ (n : Nat) (t : List (List β)), Reaches f pool k s t → missing k t ≤ n →
      ∃ s', Reaches f pool k s s' ∧ Filled k s' := by
    intro n
    induction n with
    | zero =>
        intro t ht hn
        exact ⟨t, ht, filled_of_missing (Nat.le_zero.mp hn)⟩
    | succ n ih =>
        intro t ht hn
        by_cases hfilled : Filled k t
        · exact ⟨t, ht, hfilled⟩
        · rcases exists_short hfilled with ⟨w, xs, hw, hshort⟩
          rcases h t ht xs (List.mem_of_getElem? hw) hshort with ⟨a, ha, hnew⟩
          have htake : take f xs a = xs ++ [f.make a] := if_neg hnew
          have hstep := Step.draw (f := f) hw hshort ha
          rw [htake] at hstep
          have hless := missing_set hw hshort (f.make a)
          exact ih _ (ht.tail hstep) (by omega)
  exact hrun (missing k s) s Relation.ReflTransGen.refl (Nat.le_refl _)

/-! ## When the filling goes well -/

/-- Distinct elements of a pool are at most as many as the pool has. -/
theorem length_le_dedup {keys : List α} (hnodup : keys.Nodup) (hsubset : keys ⊆ pool) :
    keys.length ≤ pool.dedup.length := by
  apply (hnodup.subperm _).length_le
  intro a ha
  exact List.mem_dedup.mpr (hsubset ha)

/-- A pool with more distinct elements than a list has one that is new. -/
theorem exists_new {keys : List α} (h : keys.length < pool.dedup.length) :
    ∃ a ∈ pool, a ∉ keys := by
  by_contra hall
  push Not at hall
  have hsubset : pool.dedup ⊆ keys := fun a ha => hall a (List.mem_dedup.mp ha)
  have hle := ((List.nodup_dedup pool).subperm hsubset).length_le
  omega

/-- For lists that are not too long and come from the pool: the filling goes well exactly if
every list starts with distinct elements and the pool has {lit}`k` distinct ones. -/
theorem fills_iff {s : List (List β)} (hgood : ∀ xs ∈ s, Good f pool k xs) :
    Fills f pool k s ↔
      (s = [] ∨ k ≤ pool.dedup.length) ∧ ∀ xs ∈ s, (xs.map f.key).Nodup := by
  have hgoods : ∀ s', Reaches f pool k s s' → ∀ xs ∈ s', Good f pool k xs :=
    fun s' hs' => Reaches.forall (fun xs h hshort a ha => h.take hshort ha) hs' hgood
  constructor
  · intro h
    rcases exists_filled h.progress with ⟨s', hs', hfilled⟩
    have hdistinct := h.distinct s' hs' hfilled
    have hgrown := hs'.grows
    constructor
    · cases s' with
      | nil => exact Or.inl (List.length_eq_zero_iff.mp hgrown.1.symm)
      | cons ys s' =>
          right
          have hys := hdistinct ys List.mem_cons_self
          have hle := length_le_dedup hys.2 (hgoods _ hs' ys List.mem_cons_self).subset
          rw [List.length_map, hys.1] at hle
          exact hle
    · intro xs hxs
      rcases List.mem_iff_getElem?.mp hxs with ⟨w, hw⟩
      rcases hgrown.2 w xs hw with ⟨ys, hys, hstart⟩
      have hnodup := (hdistinct ys (List.mem_of_getElem? hys)).2
      exact hnodup.sublist (hstart.map f.key).sublist
  · intro h
    rcases h with ⟨hpool, hnodup⟩
    have hnodups : ∀ s', Reaches f pool k s s' → ∀ xs ∈ s', (xs.map f.key).Nodup :=
      fun s' hs' => Reaches.forall (fun xs h _ a _ => nodup_take h a) hs' hnodup
    constructor
    · intro s' hs' xs hxs hshort
      apply exists_new
      rw [List.length_map]
      rcases hpool with rfl | hpool
      · have hlength := hs'.grows.1
        rw [List.length_eq_zero_iff.mp hlength] at hxs
        exact absurd hxs List.not_mem_nil
      · omega
    · intro s' hs' hfilled xs hxs
      have hshort := (hgoods s' hs' xs hxs).short
      have hlong := hfilled xs hxs
      exact ⟨by omega, hnodups s' hs' xs hxs⟩

end Filling
end Library
end TestAio
