import Mathlib.Algebra.BigOperators.Finprod
import Mathlib.Data.List.Chain
import Mathlib.Logic.Relation

/-!
# Sums over the paths of an acyclic graph

The nodes of a graph either have a list of weighted steps or are ends.  A path has the
product of its weights, and the weight between two nodes is the sum over all paths
between them.  When there is no cycle, a walk through the graph from a node, step list
by step list, passes every path to an end exactly once.

Main results:

- Theorem {lit}`length_le_of_acyclic`: without cycles a path is not longer than the number of
  nodes with steps.
- Theorem {lit}`mem_routes_iff`: the walk finds the paths to the ends.
- Theorem {lit}`pathSum_eq_sum_routes`: the sum over all paths to an end is a sum over the walk.

Current gaps:

- None.
-/

namespace TestAio
namespace Library
namespace WeightedPaths

variable {ν κ : Type} {steps : ν → Option (List (ν × κ))}

/-! ## Paths -/

/-- A list of steps that leads from one node to another. -/
inductive IsPath (steps : ν → Option (List (ν × κ))) : ν → List (ν × κ) → ν → Prop
  | nil (n : ν) : IsPath steps n [] n
  | cons {n m : ν} {out : List (ν × κ)} {step : ν × κ} {p : List (ν × κ)}
      (hout : steps n = some out) (hstep : step ∈ out) (hrest : IsPath steps step.1 p m) :
      IsPath steps n (step :: p) m

/-- The paths between two nodes. -/
def paths (steps : ν → Option (List (ν × κ))) (n m : ν) : Set (List (ν × κ)) :=
  {p | IsPath steps n p m}

/-- The product of the weights of a path. -/
def weight [Monoid κ] (p : List (ν × κ)) : κ :=
  (p.map Prod.snd).prod

/-- The sum over all paths between two nodes. -/
noncomputable def pathSum [Semiring κ] (steps : ν → Option (List (ν × κ))) (n m : ν) : κ :=
  ∑ᶠ p ∈ paths steps n m, weight p

@[simp]
theorem weight_nil [Monoid κ] : weight ([] : List (ν × κ)) = 1 :=
  rfl

@[simp]
theorem weight_cons [Monoid κ] (step : ν × κ) (p : List (ν × κ)) :
    weight (step :: p) = step.2 * weight p :=
  List.prod_cons

/-! ## Acyclic graphs -/

/-- One node has a step to the other. -/
def Steps (steps : ν → Option (List (ν × κ))) (n m : ν) : Prop :=
  ∃ out, steps n = some out ∧ m ∈ out.map Prod.fst

/-- No node can be reached from itself. -/
def Acyclic (steps : ν → Option (List (ν × κ))) : Prop :=
  ∀ n, ¬ Relation.TransGen (Steps steps) n n

/-- A rank that every step lowers excludes cycles. -/
theorem acyclic_of_rank (rank : ν → Nat) (h : ∀ n m, Steps steps n m → rank m < rank n) :
    Acyclic steps := by
  have hlower : ∀ n m, Relation.TransGen (Steps steps) n m → rank m < rank n := by
    intro n m hpath
    induction hpath with
    | single hstep => exact h _ _ hstep
    | tail _ hstep ih => exact (h _ _ hstep).trans ih
  intro n hcycle
  exact lt_irrefl _ (hlower n n hcycle)

/-- The nodes that a path leaves. -/
def left (n : ν) : List (ν × κ) → List ν
  | [] => []
  | step :: p => n :: left step.1 p

/-- A path leaves as many nodes as it has steps. -/
theorem length_left (n : ν) (p : List (ν × κ)) : (left n p).length = p.length := by
  induction p generalizing n with
  | nil => rfl
  | cons step p ih => rw [left, List.length_cons, List.length_cons, ih]

/-- A node that is left later is reached. -/
theorem reached_of_mem_left {n m x : ν} {p : List (ν × κ)} (h : IsPath steps n p m)
    (hx : x ∈ left n p) : Relation.ReflTransGen (Steps steps) n x := by
  induction h with
  | nil => cases hx
  | @cons n m out step p hout hstep hrest ih =>
      rcases List.mem_cons.mp hx with rfl | hx
      · exact .refl
      · have hfirst : Steps steps n step.1 := ⟨out, hout, List.mem_map_of_mem hstep⟩
        exact .head hfirst (ih hx)

/-- Without cycles no path leaves a node twice. -/
theorem nodup_left (hacyclic : Acyclic steps) {n m : ν} {p : List (ν × κ)}
    (h : IsPath steps n p m) : (left n p).Nodup := by
  induction h with
  | nil => exact List.nodup_nil
  | @cons n m out step p hout hstep hrest ih =>
      refine List.nodup_cons.mpr ⟨fun hagain => ?_, ih⟩
      have hfirst : Steps steps n step.1 := ⟨out, hout, List.mem_map_of_mem hstep⟩
      exact hacyclic n (.head' hfirst (reached_of_mem_left hrest hagain))

/-- Each node that a path leaves has steps. -/
theorem steps_of_mem_left {n m x : ν} {p : List (ν × κ)} (h : IsPath steps n p m)
    (hx : x ∈ left n p) : (steps x).isSome := by
  induction h with
  | nil => cases hx
  | @cons n m out step p hout hstep hrest ih =>
      rcases List.mem_cons.mp hx with rfl | hx
      · simp [hout]
      · exact ih hx

/-- Without cycles a path is not longer than the number of nodes with steps. -/
theorem length_le_of_acyclic (hacyclic : Acyclic steps) {keys : List ν}
    (hkeys : ∀ n, (steps n).isSome → n ∈ keys) {n m : ν} {p : List (ν × κ)}
    (h : IsPath steps n p m) : p.length ≤ keys.length := by
  have hsubset : left n p ⊆ keys := fun x hx => hkeys x (steps_of_mem_left h hx)
  rw [← length_left n p]
  exact ((nodup_left hacyclic h).subperm hsubset).length_le

/-! ## The walk through the graph -/

/-- The ends that are reached by a bounded number of steps, each with its path. -/
def routes (steps : ν → Option (List (ν × κ))) : Nat → ν → List (ν × List (ν × κ))
  | 0, _ => []
  | fuel + 1, n =>
      match steps n with
      | none => [(n, [])]
      | some out => out.flatMap fun step =>
          (routes steps fuel step.1).map fun route => (route.1, step :: route.2)

/-- At an end there is one route, which does not leave it. -/
theorem routes_of_end {n : ν} (h : steps n = none) (fuel : Nat) :
    routes steps (fuel + 1) n = [(n, [])] := by
  rw [routes, h]

/-- The routes go on behind each step. -/
theorem routes_of_steps {n : ν} {out : List (ν × κ)} (h : steps n = some out) (fuel : Nat) :
    routes steps (fuel + 1) n = out.flatMap fun step =>
      (routes steps fuel step.1).map fun route => (route.1, step :: route.2) := by
  rw [routes, h]

/-- The walk finds the paths to the ends. -/
theorem mem_routes_iff {fuel : Nat} {n m : ν} {p : List (ν × κ)} :
    (m, p) ∈ routes steps fuel n ↔ IsPath steps n p m ∧ steps m = none ∧ p.length < fuel := by
  induction fuel generalizing n p with
  | zero => simp [routes]
  | succ fuel ih =>
      cases hn : steps n with
      | none =>
          rw [routes_of_end hn, List.mem_singleton]
          constructor
          · rintro ⟨rfl, rfl⟩
            exact ⟨.nil m, hn, Nat.succ_pos _⟩
          · rintro ⟨hpath, -, -⟩
            cases hpath with
            | nil => rfl
            | cons hout => simp [hn] at hout
      | some out =>
          rw [routes_of_steps hn, List.mem_flatMap]
          constructor
          · rintro ⟨step, hstep, hmap⟩
            rcases List.mem_map.mp hmap with ⟨⟨m', p'⟩, hroute, heq⟩
            cases heq
            rcases ih.mp hroute with ⟨hpath, hend, hlength⟩
            exact ⟨.cons hn hstep hpath, hend, Nat.succ_lt_succ hlength⟩
          · rintro ⟨hpath, hend, hlength⟩
            cases hpath with
            | nil => simp [hn] at hend
            | @cons _ _ out' step p hout hstep hrest =>
                rw [hn] at hout
                cases hout
                have hroute : (m, p) ∈ routes steps fuel step.1 :=
                  ih.mpr ⟨hrest, hend, Nat.lt_of_succ_lt_succ hlength⟩
                exact ⟨step, hstep, List.mem_map_of_mem hroute⟩

/-- No path is found twice. -/
theorem nodup_routes (hnodup : ∀ n out, steps n = some out → out.Nodup) (fuel : Nat) (n : ν) :
    (routes steps fuel n).Nodup := by
  induction fuel generalizing n with
  | zero => exact List.nodup_nil
  | succ fuel ih =>
      cases hn : steps n with
      | none =>
          rw [routes_of_end hn]
          exact List.nodup_singleton _
      | some out =>
          rw [routes_of_steps hn, List.nodup_flatMap]
          constructor
          · intro step _
            refine (ih step.1).map fun a b hab => ?_
            simp only [Prod.mk.injEq, List.cons.injEq, true_and] at hab
            exact Prod.ext hab.1 hab.2
          · refine (hnodup n out hn).imp fun {a b} hab => ?_
            intro route ha hb
            rcases List.mem_map.mp ha with ⟨_, _, rfl⟩
            rcases List.mem_map.mp hb with ⟨_, _, heq⟩
            simp only [Prod.mk.injEq, List.cons.injEq] at heq
            exact hab heq.2.1.symm

/-- The paths that the walk finds to an end. -/
def routesTo [DecidableEq ν] (steps : ν → Option (List (ν × κ))) (fuel : Nat) (n m : ν) :
    List (List (ν × κ)) :=
  ((routes steps fuel n).filter fun route => route.1 = m).map Prod.snd

/-- The routes to a node are the ones that end there. -/
theorem mem_routesTo_iff [DecidableEq ν] {fuel : Nat} {n m : ν} {p : List (ν × κ)} :
    p ∈ routesTo steps fuel n m ↔ (m, p) ∈ routes steps fuel n := by
  simp [routesTo]

/-- No route is listed twice. -/
theorem nodup_routesTo [DecidableEq ν] (hnodup : ∀ n out, steps n = some out → out.Nodup)
    (fuel : Nat) (n m : ν) : (routesTo steps fuel n m).Nodup := by
  refine List.Nodup.map_on ?_ ((nodup_routes hnodup fuel n).filter _)
  rintro ⟨a, p⟩ ha ⟨b, q⟩ hb rfl
  have ha : a = m := by simpa using (List.mem_filter.mp ha).2
  have hb : b = m := by simpa using (List.mem_filter.mp hb).2
  rw [ha, hb]

section Sum

variable [DecidableEq ν] {fuel : Nat} {n m : ν}

/-- With enough fuel the walk finds all paths to an end. -/
theorem paths_eq_routesTo (hend : steps m = none)
    (hfuel : ∀ p, IsPath steps n p m → p.length < fuel) :
    paths steps n m = {p | p ∈ routesTo steps fuel n m} := by
  ext p
  change IsPath steps n p m ↔ p ∈ routesTo steps fuel n m
  rw [mem_routesTo_iff, mem_routes_iff]
  exact ⟨fun hpath => ⟨hpath, hend, hfuel p hpath⟩, fun h => h.1⟩

/-- Paths of bounded length are finitely many. -/
theorem finite_paths (hend : steps m = none)
    (hfuel : ∀ p, IsPath steps n p m → p.length < fuel) : (paths steps n m).Finite := by
  rw [paths_eq_routesTo hend hfuel]
  exact List.finite_toSet _

/-- The sum over all paths to an end is a sum over the walk. -/
theorem pathSum_eq_sum_routes [Semiring κ] (hnodup : ∀ n out, steps n = some out → out.Nodup)
    (hend : steps m = none) (hfuel : ∀ p, IsPath steps n p m → p.length < fuel) :
    pathSum steps n m = ((routesTo steps fuel n m).map weight).sum := by
  classical
  have hpaths : paths steps n m = ↑(routesTo steps fuel n m).toFinset := by
    rw [paths_eq_routesTo hend hfuel, List.coe_toFinset]
  rw [pathSum, hpaths, finsum_mem_coe_finset]
  exact List.sum_toFinset weight (nodup_routesTo hnodup fuel n m)

end Sum

end WeightedPaths
end Library
end TestAio
