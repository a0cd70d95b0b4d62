import Mathlib.Algebra.Ring.Nat
import Mathlib.Data.List.Basic
import Mathlib.Data.List.Forall2
import Mathlib.Logic.Relation

/-!
# Work lists that are refilled at the front

A loop takes the first item of a work list and either moves it to the results
or replaces it, at the front of the list, by the parts it is cut into.  The
length of the list is no measure for such a loop.  This module runs it on fuel,
describes its result by a relation without fuel, and bounds the fuel by a weight
that every cut lowers.

Main results:

- Theorem {lit}`run_eq_some_iff`: with enough fuel the loop returns exactly what
  the relation {lit}`Expands` describes.
- Theorem {lit}`expands_append_iff`: the items of the list are treated
  independently of one another.
- Theorem {lit}`Expands.mem_iff`: the results are the finished items that cutting comes to.
- Theorem {lit}`exists_expands_iff`: the loop ends exactly when no item can be cut forever.
- Theorem {lit}`run_isSome_of_weight_le`: a weight that drops on every cut bounds
  the number of iterations.

Current gaps:

- None.
-/

namespace TestAio
namespace Library
namespace WorkList

variable {α : Type}

/-- At most {lit}`fuel` iterations of the loop.  {lit}`cut` gives the parts of an
item, or nothing for an item that is finished. -/
def run (cut : α → Option (List α)) : Nat → List α → List α → Option (List α)
  | _, [], results => some results
  | 0, _ :: _, _ => none
  | fuel + 1, item :: rest, results =>
      match cut item with
      | none => run cut fuel rest (results ++ [item])
      | some parts => run cut fuel (parts ++ rest) results

/-- The results of a work list that is worked off completely. -/
inductive Expands (cut : α → Option (List α)) : List α → List α → Prop
  | nil : Expands cut [] []
  | keep {item : α} {rest out : List α} :
      cut item = none → Expands cut rest out → Expands cut (item :: rest) (item :: out)
  | split {item : α} {parts rest out : List α} :
      cut item = some parts → Expands cut (parts ++ rest) out →
        Expands cut (item :: rest) out

variable {cut : α → Option (List α)}

/-- A completed run has worked the list off. -/
theorem expands_of_run {fuel : Nat} {todo results final : List α}
    (h : run cut fuel todo results = some final) :
    ∃ out, final = results ++ out ∧ Expands cut todo out := by
  induction fuel generalizing todo results with
  | zero =>
      cases todo with
      | nil =>
          cases h
          exact ⟨[], by simp, Expands.nil⟩
      | cons item rest => contradiction
  | succ fuel ih =>
      cases todo with
      | nil =>
          cases h
          exact ⟨[], by simp, Expands.nil⟩
      | cons item rest =>
          cases hcut : cut item with
          | none =>
              simp only [run, hcut] at h
              rcases ih h with ⟨out, rfl, hout⟩
              exact ⟨item :: out, by simp, Expands.keep hcut hout⟩
          | some parts =>
              simp only [run, hcut] at h
              rcases ih h with ⟨out, rfl, hout⟩
              exact ⟨out, rfl, Expands.split hcut hout⟩

/-- A list that can be worked off is worked off within some fuel. -/
theorem Expands.exists_run {todo out : List α} (h : Expands cut todo out)
    (results : List α) : ∃ fuel, run cut fuel todo results = some (results ++ out) := by
  induction h generalizing results with
  | nil => exact ⟨0, by simp [run]⟩
  | @keep item rest out hcut _ ih =>
      rcases ih (results ++ [item]) with ⟨fuel, hfuel⟩
      exact ⟨fuel + 1, by simp only [run, hcut, hfuel]; simp⟩
  | split hcut _ ih =>
      rcases ih results with ⟨fuel, hfuel⟩
      exact ⟨fuel + 1, by simp only [run, hcut, hfuel]⟩

/-- The loop returns a result exactly when the list can be worked off. -/
theorem run_eq_some_iff {todo out : List α} :
    (∃ fuel, run cut fuel todo [] = some out) ↔ Expands cut todo out := by
  constructor
  · rintro ⟨fuel, h⟩
    rcases expands_of_run h with ⟨out', rfl, hout⟩
    simpa using hout
  · intro h
    simpa using h.exists_run []

/-! ## Independence of the items -/

theorem Expands.append {xs ys out₁ out₂ : List α} (h₁ : Expands cut xs out₁)
    (h₂ : Expands cut ys out₂) : Expands cut (xs ++ ys) (out₁ ++ out₂) := by
  induction h₁ with
  | nil => exact h₂
  | keep hcut _ ih => exact Expands.keep hcut ih
  | split hcut _ ih => exact Expands.split hcut (by simpa using ih)

theorem Expands.exists_append {todo out : List α} (h : Expands cut todo out) :
    ∀ {xs ys : List α}, todo = xs ++ ys →
      ∃ out₁ out₂, out = out₁ ++ out₂ ∧ Expands cut xs out₁ ∧ Expands cut ys out₂ := by
  induction h with
  | nil =>
      intro xs ys htodo
      rcases List.nil_eq_append_iff.mp htodo with ⟨rfl, rfl⟩
      exact ⟨[], [], rfl, Expands.nil, Expands.nil⟩
  | @keep item rest out hcut hrest ih =>
      intro xs ys htodo
      cases xs with
      | nil =>
          refine ⟨[], item :: out, rfl, Expands.nil, ?_⟩
          rw [List.nil_append] at htodo
          exact htodo ▸ Expands.keep hcut hrest
      | cons x xs =>
          rw [List.cons_append, List.cons.injEq] at htodo
          rcases htodo with ⟨rfl, htodo⟩
          rcases ih htodo with ⟨out₁, out₂, rfl, h₁, h₂⟩
          exact ⟨item :: out₁, out₂, rfl, Expands.keep hcut h₁, h₂⟩
  | @split item parts rest out hcut hrest ih =>
      intro xs ys htodo
      cases xs with
      | nil =>
          refine ⟨[], out, rfl, Expands.nil, ?_⟩
          rw [List.nil_append] at htodo
          exact htodo ▸ Expands.split hcut hrest
      | cons x xs =>
          rw [List.cons_append, List.cons.injEq] at htodo
          rcases htodo with ⟨rfl, rfl⟩
          rcases @ih (parts ++ xs) ys (by simp) with ⟨out₁, out₂, rfl, h₁, h₂⟩
          exact ⟨out₁, out₂, rfl, Expands.split hcut h₁, h₂⟩

/-- A concatenation is worked off part by part. -/
theorem expands_append_iff {xs ys out : List α} :
    Expands cut (xs ++ ys) out ↔
      ∃ out₁ out₂, out = out₁ ++ out₂ ∧ Expands cut xs out₁ ∧ Expands cut ys out₂ := by
  constructor
  · intro h
    exact h.exists_append rfl
  · rintro ⟨out₁, out₂, rfl, h₁, h₂⟩
    exact h₁.append h₂

/-- A list of finished items stays. -/
theorem expands_iff_of_finished {todo out : List α} (h : ∀ item ∈ todo, cut item = none) :
    Expands cut todo out ↔ out = todo := by
  induction todo generalizing out with
  | nil =>
      constructor
      · intro hout
        cases hout
        rfl
      · rintro rfl
        exact Expands.nil
  | cons item rest ih =>
      have hrest : ∀ {kept : List α}, Expands cut rest kept ↔ kept = rest :=
        ih fun x hx => h x (by simp [hx])
      constructor
      · intro hout
        cases hout with
        | keep _ hkept => rw [hrest.mp hkept]
        | split hsome _ =>
            rw [h item (by simp)] at hsome
            contradiction
      · rintro rfl
        exact Expands.keep (h item (by simp)) (hrest.mpr rfl)

/-- A list is worked off item by item. -/
theorem expands_iff_forall₂ {todo out : List α} :
    Expands cut todo out ↔
      ∃ parts, List.Forall₂ (fun item part => Expands cut [item] part) todo parts ∧
        out = parts.flatten := by
  induction todo generalizing out with
  | nil =>
      constructor
      · intro h
        cases h
        exact ⟨[], .nil, rfl⟩
      · rintro ⟨parts, hparts, rfl⟩
        cases hparts
        exact Expands.nil
  | cons item rest ih =>
      rw [← List.singleton_append, expands_append_iff]
      constructor
      · rintro ⟨part, out, rfl, hitem, hrest⟩
        rcases ih.mp hrest with ⟨parts, hparts, rfl⟩
        exact ⟨part :: parts, .cons hitem hparts, rfl⟩
      · rintro ⟨parts, hparts, rfl⟩
        cases hparts with
        | @cons _ part _ parts hitem hrest =>
            exact ⟨part, parts.flatten, rfl, hitem, ih.mpr ⟨parts, hrest, rfl⟩⟩

/-! ## Items that cutting comes to -/

/-- One of the parts an item is cut into. -/
def PartOf (cut : α → Option (List α)) (part item : α) : Prop :=
  ∃ parts, cut item = some parts ∧ part ∈ parts

/-- The items that an item is cut into, itself included. -/
abbrev Reaches (cut : α → Option (List α)) (item x : α) : Prop :=
  Relation.ReflTransGen (fun item part => PartOf cut part item) item x

/-- The results are the finished items that cutting comes to. -/
theorem Expands.mem_iff {todo out : List α} (h : Expands cut todo out) {x : α} :
    x ∈ out ↔ ∃ item ∈ todo, Reaches cut item x ∧ cut x = none := by
  induction h with
  | nil => simp
  | @keep item rest out hcut _ ih =>
      have hitem : ∀ y, Reaches cut item y → y = item := by
        intro y hy
        rcases hy.cases_head with heq | ⟨part, ⟨parts, hsome, -⟩, -⟩
        · exact heq.symm
        · rw [hcut] at hsome
          contradiction
      rw [List.mem_cons, ih]
      constructor
      · rintro (rfl | ⟨y, hy, hreach⟩)
        · exact ⟨x, List.mem_cons_self, .refl, hcut⟩
        · exact ⟨y, List.mem_cons_of_mem _ hy, hreach⟩
      · rintro ⟨y, hy, hreach, hnone⟩
        rcases List.mem_cons.mp hy with rfl | hy
        · exact Or.inl (hitem x hreach)
        · exact Or.inr ⟨y, hy, hreach, hnone⟩
  | @split item parts rest out hcut _ ih =>
      rw [ih]
      constructor
      · rintro ⟨y, hy, hreach, hnone⟩
        rcases List.mem_append.mp hy with hy | hy
        · exact ⟨item, List.mem_cons_self, hreach.head ⟨parts, hcut, hy⟩, hnone⟩
        · exact ⟨y, List.mem_cons_of_mem _ hy, hreach, hnone⟩
      · rintro ⟨y, hy, hreach, hnone⟩
        rcases List.mem_cons.mp hy with rfl | hy
        · rcases hreach.cases_head with rfl | ⟨part, ⟨parts', hsome, hpart⟩, hrest⟩
          · rw [hcut] at hnone
            contradiction
          · rw [hcut] at hsome
            cases hsome
            exact ⟨part, List.mem_append_left _ hpart, hrest, hnone⟩
        · exact ⟨y, List.mem_append_right _ hy, hreach, hnone⟩

/-- An item that is worked off is cut finitely often. -/
theorem Expands.acc {todo out : List α} (h : Expands cut todo out) :
    ∀ item ∈ todo, Acc (PartOf cut) item := by
  induction h with
  | nil => simp
  | @keep item rest out hcut _ ih =>
      intro x hx
      rcases List.mem_cons.mp hx with rfl | hx
      · refine Acc.intro _ ?_
        rintro part ⟨parts, hsome, -⟩
        rw [hcut] at hsome
        contradiction
      · exact ih x hx
  | @split item parts rest out hcut _ ih =>
      intro x hx
      rcases List.mem_cons.mp hx with rfl | hx
      · refine Acc.intro _ ?_
        rintro part ⟨parts', hsome, hpart⟩
        rw [hcut] at hsome
        cases hsome
        exact ih part (List.mem_append_left _ hpart)
      · exact ih x (List.mem_append_right _ hx)

/-- What can be cut finitely often is cut into such items. -/
theorem Reaches.acc {item x : α} (h : Reaches cut item x) (hacc : Acc (PartOf cut) item) :
    Acc (PartOf cut) x := by
  induction h with
  | refl => exact hacc
  | tail _ hstep ih => exact ih.inv hstep

/-- A list is worked off when each of its items is. -/
theorem exists_expands_of_forall {todo : List α}
    (h : ∀ item ∈ todo, ∃ out, Expands cut [item] out) : ∃ out, Expands cut todo out := by
  induction todo with
  | nil => exact ⟨[], Expands.nil⟩
  | cons item rest ih =>
      rcases h item (by simp) with ⟨out₁, h₁⟩
      rcases ih fun x hx => h x (by simp [hx]) with ⟨out₂, h₂⟩
      exact ⟨out₁ ++ out₂, h₁.append h₂⟩

/-- The loop ends exactly when no item can be cut forever. -/
theorem exists_expands_iff {todo : List α} :
    (∃ out, Expands cut todo out) ↔ ∀ item ∈ todo, Acc (PartOf cut) item := by
  constructor
  · rintro ⟨out, h⟩
    exact h.acc
  · intro h
    refine exists_expands_of_forall fun item hitem => ?_
    have hacc := h item hitem
    clear hitem
    induction hacc with
    | intro item _ ih =>
        cases hcut : cut item with
        | none => exact ⟨[item], Expands.keep hcut Expands.nil⟩
        | some parts =>
            rcases exists_expands_of_forall fun part hpart => ih part ⟨parts, hcut, hpart⟩ with
              ⟨out, hout⟩
            exact ⟨out, Expands.split hcut (by simpa using hout)⟩

/-- A property that cutting hands on to the parts holds of every result. -/
theorem Expands.forall_mem {P : α → Prop} {todo out : List α} (h : Expands cut todo out)
    (hcut : ∀ item parts, cut item = some parts → P item → ∀ part ∈ parts, P part)
    (htodo : ∀ item ∈ todo, P item) : ∀ item ∈ out, P item := by
  induction h with
  | nil => exact htodo
  | keep _ _ ih =>
      intro x hx
      rcases List.mem_cons.mp hx with rfl | hx
      · exact htodo x (by simp)
      · exact ih (fun y hy => htodo y (by simp [hy])) x hx
  | split hsome _ ih =>
      apply ih
      intro y hy
      rcases List.mem_append.mp hy with hy | hy
      · exact hcut _ _ hsome (htodo _ (by simp)) y hy
      · exact htodo y (by simp [hy])

/-- A reading of the items that cutting preserves is preserved by the loop. -/
theorem Expands.flatMap_eq {β : Type} {f : α → List β} {todo out : List α}
    (h : Expands cut todo out)
    (hcut : ∀ item parts, cut item = some parts → parts.flatMap f = f item) :
    out.flatMap f = todo.flatMap f := by
  induction h with
  | nil => rfl
  | keep _ _ ih => rw [List.flatMap_cons, List.flatMap_cons, ih]
  | split hsome _ ih => rw [ih, List.flatMap_append, hcut _ _ hsome, List.flatMap_cons]

/-- A weight that cutting never raises is never raised by the loop. -/
theorem Expands.weight_le {weight : α → Nat} {todo out : List α} (h : Expands cut todo out)
    (hcut : ∀ item parts, cut item = some parts → (parts.map weight).sum ≤ weight item) :
    (out.map weight).sum ≤ (todo.map weight).sum := by
  induction h with
  | nil => exact Nat.le_refl _
  | keep _ _ ih =>
      rw [List.map_cons, List.map_cons, List.sum_cons, List.sum_cons]
      exact Nat.add_le_add_left ih _
  | split hsome _ ih =>
      refine Nat.le_trans ih ?_
      rw [List.map_append, List.sum_append, List.map_cons, List.sum_cons]
      exact Nat.add_le_add_right (hcut _ _ hsome) _

/-! ## Termination -/

/-- A weight that drops on every cut bounds the number of iterations. -/
theorem run_isSome_of_weight_le {weight : α → Nat} (hpos : ∀ item, 0 < weight item)
    (hcut : ∀ item parts, cut item = some parts → (parts.map weight).sum < weight item)
    {fuel : Nat} {todo : List α} (hfuel : (todo.map weight).sum ≤ fuel)
    (results : List α) : (run cut fuel todo results).isSome = true := by
  induction fuel generalizing todo results with
  | zero =>
      cases todo with
      | nil => rfl
      | cons item rest =>
          have := hpos item
          simp only [List.map_cons, List.sum_cons] at hfuel
          omega
  | succ fuel ih =>
      cases todo with
      | nil => rfl
      | cons item rest =>
          have hitem := hpos item
          simp only [List.map_cons, List.sum_cons] at hfuel
          cases hsome : cut item with
          | none =>
              simp only [run, hsome]
              exact ih (by omega) _
          | some parts =>
              have hdrop := hcut item parts hsome
              simp only [run, hsome]
              exact ih (by rw [List.map_append, List.sum_append]; omega) _

end WorkList
end Library
end TestAio
