import Mathlib.Data.List.Chain
import Mathlib.Data.List.TakeWhile
import TestAio.Library.Siblings

/-!
# Gathering elements under named children

A list is turned into named children: every element has the name of its child, which
it opens or adds to.  An element may look for its child among all children so far, or
at the last one only.

Main results:

- Theorem {lit}`gather_cons`: the first child holds the elements with the first name, and
  the others are gathered from the rest.
- Theorem {lit}`keys_gather`: the children stand in the order of their first elements.
- Theorem {lit}`child_of_mem_gather`: a child is made of the elements with its name.
- Theorem {lit}`gatherRuns_cons`: a child of the second kind is made of a run of elements.
- Theorem {lit}`isChain_keys_gatherRuns`: neighbours among such children differ.
- Theorem {lit}`gatherRuns_eq_gather`: on contiguous names both ways agree.

Current gaps:

- None.
-/

namespace TestAio
namespace Library
namespace Grouping

open Siblings

variable {τ α β κ : Type} [DecidableEq κ]

/-- Update the last element when it has a key, or put a new one at the end. -/
def upsertLast (key : α → κ) (k : κ) (update : α → α) (fresh : α) (xs : List α) : List α :=
  match xs.getLast? with
  | some x => if key x = k then xs.dropLast ++ [update x] else xs ++ [fresh]
  | none => [fresh]

@[simp]
theorem upsertLast_nil (key : α → κ) (k : κ) (update : α → α) (fresh : α) :
    upsertLast key k update fresh [] = [fresh] :=
  rfl

@[simp]
theorem upsertLast_concat (key : α → κ) (k : κ) (update : α → α) (fresh : α) (xs : List α)
    (x : α) :
    upsertLast key k update fresh (xs ++ [x]) =
      if key x = k then xs ++ [update x] else xs ++ [x] ++ [fresh] := by
  unfold upsertLast
  rw [List.getLast?_concat, List.dropLast_concat]

/-- The names of a list, each where it occurs first. -/
def firstOccurrences (ks : List κ) : List κ :=
  ks.eraseDups

/-- How elements are gathered under children: an element opens the child of its name or
is added to it. -/
structure Gathering (τ α κ : Type) where
  key : α → κ
  name : τ → κ
  fresh : τ → α
  update : τ → α → α
  key_fresh : ∀ x, key (fresh x) = name x
  key_update : ∀ x y, key (update x y) = key y

namespace Gathering

variable (m : Gathering τ α κ)

/-- Look for the child of an element among all. -/
def add (ys : List α) (x : τ) : List α :=
  upsert m.key (m.name x) (m.update x) (m.fresh x) ys

/-- Look for the child of an element at the end. -/
def addLast (ys : List α) (x : τ) : List α :=
  upsertLast m.key (m.name x) (m.update x) (m.fresh x) ys

/-- The children when every element looks among all. -/
def gather (xs : List τ) : List α :=
  xs.foldl m.add []

/-- The children when every element looks at the end. -/
def gatherRuns (xs : List τ) : List α :=
  xs.foldl m.addLast []

/-- Add elements to a child. -/
def extend (y : α) (xs : List τ) : α :=
  xs.foldl (fun y x => m.update x y) y

/-- The child that a group of elements makes. -/
def child : List τ → Option α
  | [] => none
  | x :: xs => some (m.extend (m.fresh x) xs)

omit [DecidableEq κ] in
theorem key_extend (y : α) (xs : List τ) : m.key (m.extend y xs) = m.key y := by
  induction xs generalizing y with
  | nil => rfl
  | cons x xs ih => exact (ih _).trans (m.key_update x y)

/-! ## Looking among all children -/

theorem add_cons_of_eq {x : τ} {y : α} (h : m.name x = m.key y) (ys : List α) :
    m.add (y :: ys) x = m.update x y :: ys := by
  rw [add, upsert, if_pos h.symm]

theorem add_cons_of_ne {x : τ} {y : α} (h : m.name x ≠ m.key y) (ys : List α) :
    m.add (y :: ys) x = y :: m.add ys x := by
  rw [add, upsert, if_neg (Ne.symm h)]
  rfl

/-- The first child takes the elements with its name. -/
theorem foldl_add_cons (xs : List τ) (y : α) (ys : List α) :
    xs.foldl m.add (y :: ys) =
      m.extend y (xs.filter fun x => m.name x = m.key y) ::
        (xs.filter fun x => m.name x ≠ m.key y).foldl m.add ys := by
  induction xs generalizing y ys with
  | nil => rfl
  | cons x xs ih =>
      rw [List.foldl_cons]
      by_cases hx : m.name x = m.key y
      · rw [m.add_cons_of_eq hx, ih, m.key_update]
        simp [hx, extend]
      · rw [m.add_cons_of_ne hx, ih]
        simp [hx]

theorem gather_cons (x : τ) (xs : List τ) :
    m.gather (x :: xs) =
      m.extend (m.fresh x) (xs.filter fun z => m.name z = m.name x) ::
        m.gather (xs.filter fun z => m.name z ≠ m.name x) := by
  have h := m.foldl_add_cons xs (m.fresh x) []
  rw [m.key_fresh] at h
  exact h

/-- Lists are gathered from their first element and the elements with other names. -/
theorem gather_induction {P : List τ → Prop} (nil : P [])
    (cons : ∀ x xs, P (xs.filter fun z => m.name z ≠ m.name x) → P (x :: xs)) :
    ∀ xs, P xs := by
  intro xs
  induction hn : xs.length using Nat.strong_induction_on generalizing xs with
  | _ n ih =>
      cases xs with
      | nil => exact nil
      | cons x xs =>
          have hle := List.length_filter_le (fun z => decide (m.name z ≠ m.name x)) xs
          rw [List.length_cons] at hn
          exact cons x xs (ih _ (by omega) _ rfl)

/-- The children stand in the order of their first elements. -/
theorem keys_gather (xs : List τ) :
    (m.gather xs).map m.key = firstOccurrences (xs.map m.name) := by
  induction xs using m.gather_induction with
  | nil => rfl
  | cons x xs ih =>
      rw [gather_cons, List.map_cons, ih, key_extend, key_fresh, List.map_cons]
      unfold firstOccurrences
      rw [List.eraseDups_cons, List.filter_map]
      congr 3
      apply List.filter_congr
      intro z _
      rw [decide_not]
      rfl

/-- A child is made of the elements with its name. -/
theorem child_of_mem_gather {xs : List τ} {y : α} (h : y ∈ m.gather xs) :
    m.child (xs.filter fun x => m.name x = m.key y) = some y := by
  induction xs using m.gather_induction with
  | nil => exact absurd h List.not_mem_nil
  | cons x xs ih =>
      rw [gather_cons] at h
      rcases List.mem_cons.mp h with rfl | h
      · rw [key_extend, key_fresh, List.filter_cons_of_pos (by simp)]
        rfl
      · have hrest := ih h
        rw [List.filter_filter] at hrest
        -- The first element belongs to another child.
        have hne : m.name x ≠ m.key y := by
          intro heq
          have hnone : (xs.filter fun z =>
              decide (m.name z = m.key y) && decide (m.name z ≠ m.name x)) = [] := by
            apply List.filter_eq_nil_iff.mpr
            intro z _
            simp [heq]
          rw [hnone] at hrest
          cases hrest
        rw [List.filter_cons_of_neg (by simpa using hne), ← hrest]
        congr 1
        apply List.filter_congr
        intro z _
        by_cases hz : m.name z = m.key y
        · simp [hz, Ne.symm hne]
        · simp [hz]

/-! ## Looking at the end -/

/-- What is in front of the last child stays there. -/
theorem foldl_addLast_append (xs : List τ) (ys : List α) (y : α) :
    xs.foldl m.addLast (ys ++ [y]) = ys ++ xs.foldl m.addLast [y] := by
  induction xs generalizing ys y with
  | nil => rfl
  | cons x xs ih =>
      have hone : m.addLast [y] x =
          if m.key y = m.name x then [m.update x y] else [y] ++ [m.fresh x] :=
        upsertLast_concat _ _ _ _ [] y
      rw [List.foldl_cons, List.foldl_cons, addLast, upsertLast_concat, hone]
      split_ifs
      · exact ih ys _
      · rw [ih, ih [y], List.append_assoc]

/-- The last child takes the elements up to the first with another name. -/
theorem foldl_addLast_singleton (xs : List τ) (y : α) :
    xs.foldl m.addLast [y] =
      m.extend y (xs.takeWhile fun x => m.name x = m.key y) ::
        m.gatherRuns (xs.dropWhile fun x => m.name x = m.key y) := by
  induction xs generalizing y with
  | nil => rfl
  | cons x xs ih =>
      have hone : m.addLast [y] x =
          if m.key y = m.name x then [m.update x y] else [y] ++ [m.fresh x] :=
        upsertLast_concat _ _ _ _ [] y
      rw [List.foldl_cons, hone]
      by_cases hx : m.name x = m.key y
      · rw [if_pos hx.symm, ih, m.key_update]
        simp [hx, extend]
      · have htake : (x :: xs).takeWhile (fun x => m.name x = m.key y) = [] :=
          List.takeWhile_cons_of_neg (by simpa using hx)
        have hdrop : (x :: xs).dropWhile (fun x => m.name x = m.key y) = x :: xs :=
          List.dropWhile_cons_of_neg (by simpa using hx)
        rw [if_neg (Ne.symm hx), foldl_addLast_append, htake, hdrop]
        rfl

theorem gatherRuns_cons (x : τ) (xs : List τ) :
    m.gatherRuns (x :: xs) =
      m.extend (m.fresh x) (xs.takeWhile fun z => m.name z = m.name x) ::
        m.gatherRuns (xs.dropWhile fun z => m.name z = m.name x) := by
  have h := m.foldl_addLast_singleton xs (m.fresh x)
  rw [m.key_fresh] at h
  exact h

/-- The names after looking at the end: a name that is not the last goes there. -/
theorem keys_addLast (ys : List α) (x : τ) :
    (m.addLast ys x).map m.key =
      if (ys.map m.key).getLast? = some (m.name x) then ys.map m.key
      else ys.map m.key ++ [m.name x] := by
  rcases List.eq_nil_or_concat' ys with rfl | ⟨ys, y, rfl⟩
  · simp [addLast, m.key_fresh]
  · rw [addLast, upsertLast_concat, List.map_append, List.map_singleton, List.getLast?_concat]
    by_cases hy : m.key y = m.name x
    · rw [if_pos hy, if_pos (congrArg some hy)]
      simp [m.key_update]
    · rw [if_neg hy, if_neg fun h => hy (Option.some.inj h)]
      simp [m.key_fresh]

/-- Neighbours among the children differ. -/
theorem isChain_keys_addLast {ys : List α} (h : (ys.map m.key).IsChain (· ≠ ·)) (x : τ) :
    ((m.addLast ys x).map m.key).IsChain (· ≠ ·) := by
  rw [keys_addLast]
  split_ifs with hlast
  · exact h
  · refine List.isChain_append.mpr ⟨h, List.isChain_singleton _, ?_⟩
    intro a ha b hb hab
    rw [List.head?_cons, Option.mem_some] at hb
    rw [hab, ← hb] at ha
    exact hlast ha

theorem isChain_keys_gatherRuns (xs : List τ) :
    ((m.gatherRuns xs).map m.key).IsChain (· ≠ ·) := by
  have hrun : ∀ ys, (ys.map m.key).IsChain (· ≠ ·) →
      ((xs.foldl m.addLast ys).map m.key).IsChain (· ≠ ·) := by
    induction xs with
    | nil => exact fun _ h => h
    | cons x xs ih => exact fun _ h => ih _ (m.isChain_keys_addLast h x)
  exact hrun [] List.isChain_nil

/-- What an element adds to its child and brings as a new one is added to the whole, at
the end. -/
theorem flatMap_addLast (leaves : α → List β) {added : List β} {ys : List α} {x : τ}
    (hupdate : ∀ y, m.key y = m.name x → leaves (m.update x y) = leaves y ++ added)
    (hfresh : leaves (m.fresh x) = added) :
    (m.addLast ys x).flatMap leaves = ys.flatMap leaves ++ added := by
  rcases List.eq_nil_or_concat' ys with rfl | ⟨ys, y, rfl⟩
  · simp [addLast, hfresh]
  · rw [addLast, upsertLast_concat]
    split_ifs with hy
    · simp [hupdate y hy]
    · simp [hfresh]

/-- What holds of the children so far, of an updated one and of a new one holds of all. -/
theorem forall_mem_addLast {P : α → Prop} {ys : List α} {x : τ} (hys : ∀ y ∈ ys, P y)
    (hupdate : ∀ y, P y → P (m.update x y)) (hfresh : P (m.fresh x)) :
    ∀ y ∈ m.addLast ys x, P y := by
  rcases List.eq_nil_or_concat' ys with rfl | ⟨ys, y, rfl⟩
  · simpa [addLast] using hfresh
  · rw [addLast, upsertLast_concat]
    have hlast := hys y (by simp)
    split_ifs
    · intro z hz
      rcases List.mem_append.mp hz with hz | hz
      · exact hys z (by simp [hz])
      · rw [List.mem_singleton.mp hz]
        exact hupdate y hlast
    · intro z hz
      rcases List.mem_append.mp hz with hz | hz
      · exact hys z hz
      · rw [List.mem_singleton.mp hz]
        exact hfresh

/-! ## Children with lists -/

/-- Children that hold a list, to which their elements are added. -/
def above (key : α → κ) (list : α → List β) (node : κ → List β → α) (name : τ → κ)
    (addInner : List β → τ → List β) (hkey : ∀ k ys, key (node k ys) = k) :
    Gathering τ α κ where
  key := key
  name := name
  fresh x := node (name x) (addInner [] x)
  update x y := node (key y) (addInner (list y) x)
  key_fresh _ := hkey _ _
  key_update _ _ := hkey _ _

section Above

variable {key : α → κ} {list : α → List β} {node : κ → List β → α} {name : τ → κ}
  {addInner : List β → τ → List β} (hkey : ∀ k ys, key (node k ys) = k)
  (hlist : ∀ k ys, list (node k ys) = ys)

include hlist in
omit [DecidableEq κ] in
theorem extend_above (k : κ) (ys : List β) (xs : List τ) :
    (above key list node name addInner hkey).extend (node k ys) xs =
      node k (xs.foldl addInner ys) := by
  induction xs generalizing ys with
  | nil => rfl
  | cons x xs ih =>
      have hupdate : (above key list node name addInner hkey).update x (node k ys) =
          node k (addInner ys x) := by
        change node (key (node k ys)) (addInner (list (node k ys)) x) = _
        rw [hkey, hlist]
      rw [extend, List.foldl_cons, hupdate]
      exact ih _

include hlist in
omit [DecidableEq κ] in
/-- The child of a group holds what its elements add one after the other. -/
theorem child_above (x : τ) (xs : List τ) :
    (above key list node name addInner hkey).child (x :: xs) =
      some (node (name x) ((x :: xs).foldl addInner [])) :=
  congrArg some (extend_above hkey hlist _ _ xs)

include hlist in
omit [DecidableEq κ] in
/-- Two ways of adding that make the same list of a group make the same child. -/
theorem child_above_congr {addInner' : List β → τ → List β} {xs : List τ}
    (h : xs.foldl addInner [] = xs.foldl addInner' []) :
    (above key list node name addInner hkey).child xs =
      (above key list node name addInner' hkey).child xs := by
  cases xs with
  | nil => rfl
  | cons x xs => rw [child_above hkey hlist, child_above hkey hlist, h]

include hlist in
/-- The list of a child is made by the elements with its name. -/
theorem list_of_mem_gather_above {xs : List τ} {y : α}
    (h : y ∈ (above key list node name addInner hkey).gather xs) :
    list y = (xs.filter fun x => name x = key y).foldl addInner [] := by
  have hchild := child_of_mem_gather _ h
  change child _ (xs.filter fun x => name x = key y) = some y at hchild
  cases hgroup : xs.filter fun x => name x = key y with
  | nil =>
      rw [hgroup] at hchild
      cases hchild
  | cons x rest =>
      rw [hgroup, child_above hkey hlist] at hchild
      rw [← Option.some.inj hchild, hlist]

end Above

end Gathering

/-! ## Contiguous names -/

/-- Between two equal names there is no other. -/
def Contiguous (ks : List κ) : Prop :=
  ∀ l < ks.length, ∀ j < l, ∀ i < j, ks[i]? = ks[l]? → ks[j]? = ks[i]?

instance (ks : List κ) : Decidable (Contiguous ks) :=
  inferInstanceAs (Decidable
    (∀ l < ks.length, ∀ j < l, ∀ i < j, ks[i]? = ks[l]? → ks[j]? = ks[i]?))

omit [DecidableEq κ] in
theorem Contiguous.of_append {xs ys : List κ} (h : Contiguous (xs ++ ys)) : Contiguous ys := by
  intro l hl j hj i hi heq
  have hshift : ∀ n, (xs ++ ys)[xs.length + n]? = ys[n]? := fun n => by
    rw [List.getElem?_append_right (by omega), Nat.add_sub_cancel_left]
  have hall := h (xs.length + l) (by rw [List.length_append]; omega) (xs.length + j) (by omega)
    (xs.length + i) (by omega)
  rw [hshift, hshift, hshift] at hall
  exact hall heq

omit [DecidableEq κ] in
/-- Behind another name the first one does not come again. -/
theorem Contiguous.ne_of_mem {k other : κ} {xs ys : List κ}
    (h : Contiguous (k :: (xs ++ other :: ys))) (hother : other ≠ k) : k ∉ ys := by
  intro hmem
  rcases List.mem_iff_getElem?.mp hmem with ⟨n, hn⟩
  have hn' : n < ys.length := (List.getElem?_eq_some_iff.mp hn).1
  have hat : (k :: (xs ++ other :: ys))[xs.length + 2 + n]? = some k := by
    rw [show xs.length + 2 + n = (xs.length + 1 + n) + 1 by omega, List.getElem?_cons_succ,
      List.getElem?_append_right (by omega),
      show xs.length + 1 + n - xs.length = n + 1 by omega, List.getElem?_cons_succ, hn]
  have hmid : (k :: (xs ++ other :: ys))[xs.length + 1]? = some other := by
    rw [List.getElem?_cons_succ, List.getElem?_append_right (by omega), Nat.sub_self,
      List.getElem?_cons_zero]
  have hall := h (xs.length + 2 + n) (by simp; omega) (xs.length + 1) (by omega) 0 (by omega)
  rw [hat, hmid, List.getElem?_cons_zero] at hall
  exact hother (Option.some.inj (hall rfl))

/-- On contiguous names the first run is the whole first group. -/
theorem Contiguous.takeWhile_dropWhile {f : τ → κ} {x : τ} {xs : List τ}
    (h : Contiguous ((x :: xs).map f)) :
    (xs.takeWhile fun z => f z = f x) = (xs.filter fun z => f z = f x) ∧
      (xs.dropWhile fun z => f z = f x) = xs.filter fun z => f z ≠ f x := by
  have hsplit := @List.takeWhile_append_dropWhile _ (fun z => decide (f z = f x)) xs
  have htake : ∀ z ∈ xs.takeWhile fun z => f z = f x, f z = f x := fun z hz =>
    of_decide_eq_true (List.mem_takeWhile_imp (p := fun z => decide (f z = f x)) hz)
  have hdrop : ∀ z ∈ xs.dropWhile fun z => f z = f x, f z ≠ f x := by
    cases hrest : xs.dropWhile fun z => f z = f x with
    | nil => simp
    | cons y ys =>
        have hy : f y ≠ f x := by
          have hhead := List.head?_dropWhile_not (fun z => decide (f z = f x)) xs
          rw [hrest] at hhead
          simpa using hhead
        rw [← hsplit, hrest, List.map_cons, List.map_append, List.map_cons] at h
        intro z hz
        rcases List.mem_cons.mp hz with rfl | hz
        · exact hy
        · intro heq
          exact h.ne_of_mem hy (heq ▸ List.mem_map_of_mem hz)
  constructor
  · conv_rhs => rw [← hsplit]
    rw [List.filter_append, List.filter_eq_self.mpr (by simpa using htake),
      List.filter_eq_nil_iff.mpr (by simpa using hdrop), List.append_nil]
  · conv_rhs => rw [← hsplit]
    rw [List.filter_append, List.filter_eq_nil_iff.mpr (by simpa using htake),
      List.filter_eq_self.mpr (by simpa using hdrop), List.nil_append]

/-- On contiguous names the two ways of looking for a child agree as soon as they make the
same children of the groups. -/
theorem gatherRuns_eq_gather {m m' : Gathering τ α κ} (hname : m'.name = m.name) :
    ∀ {xs : List τ}, Contiguous (xs.map m.name) →
      (∀ x ∈ xs, m'.child (xs.filter fun z => m.name z = m.name x) =
        m.child (xs.filter fun z => m.name z = m.name x)) →
      m'.gatherRuns xs = m.gather xs := by
  intro xs
  induction xs using m.gather_induction with
  | nil => exact fun _ _ => rfl
  | cons x xs ih =>
      intro hcontiguous hchild
      rcases hcontiguous.takeWhile_dropWhile with ⟨htake, hdrop⟩
      have hfirst := hchild x List.mem_cons_self
      rw [List.filter_cons_of_pos (by simp)] at hfirst
      rw [m'.gatherRuns_cons, m.gather_cons, hname, htake, hdrop, ih]
      · exact congrArg (· :: _) (Option.some.inj hfirst)
      · -- The other elements stand behind the first run.
        have hsplit := @List.takeWhile_append_dropWhile _ (fun z => decide (m.name z = m.name x)) xs
        rw [← hdrop]
        rw [← hsplit, ← List.cons_append, List.map_append] at hcontiguous
        exact hcontiguous.of_append
      · intro z hz
        rcases List.mem_filter.mp hz with ⟨hz, hne⟩
        have hne : m.name z ≠ m.name x := by simpa using hne
        have hgroup := hchild z (List.mem_cons_of_mem _ hz)
        rw [List.filter_cons_of_neg (by simpa using Ne.symm hne)] at hgroup
        rw [List.filter_filter]
        have hsame : (xs.filter fun w =>
            decide (m.name w = m.name z) && decide (m.name w ≠ m.name x)) =
              xs.filter fun w => m.name w = m.name z := by
          apply List.filter_congr
          intro w _
          by_cases hw : m.name w = m.name z
          · simp [hw, hne]
          · simp [hw]
        rw [hsame]
        exact hgroup

end Grouping
end Library
end TestAio
