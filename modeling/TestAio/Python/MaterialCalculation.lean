import Mathlib.Algebra.BigOperators.Group.List.Basic
import Mathlib.Data.Rat.Defs
import TestAio.Library.Dict
import TestAio.Library.Effects
import TestAio.Library.WeightedPaths

/-!
# Adding up materials

The script {lit}`Material Calculation.py` has a table of recipes and adds up what a product
needs: a product with a recipe is replaced by its ingredients, and what has no recipe
is a base material and is added to the shared dictionary {lit}`mat`.

Main results:

- Theorem {lit}`add_eq`: a call adds the ends of the walk through the recipes, one by one.
- Theorem {lit}`run_totals`: without cyclic recipes the totals are sums over the recipe paths,
  whatever the order of the calls.

Current gaps:

- The recursion is bounded by fuel, and enough fuel is shown to exist; the recursion limit of
  the interpreter is not modelled.
- Quantities are rational numbers.
- The printed lines are not modelled.
-/

namespace TestAio
namespace MaterialCalculation

open Library Library.WeightedPaths

variable {Name : Type} [DecidableEq Name]

/-! ## The script -/

/-- {lit}`need`: the ingredients of each product, with their quantities. -/
abbrev Need (Name : Type) :=
  Dict Name (Dict Name ℚ)

/-- {lit}`mat`. -/
abbrev Mat (Name : Type) :=
  Dict Name ℚ

/-- {lit}`mat[name] += count`, behind {lit}`mat[name] = 0` for a new name. -/
def increase (mat : Mat Name) (name : Name) (count : ℚ) : Mat Name :=
  let mat := if (mat.get? name).isSome then mat else mat.set name 0
  mat.set name ((mat.get? name).getD 0 + count)

/-- {lit}`add`. -/
def add (need : Need Name) : Nat → Mat Name → Name → ℚ → Option (Mat Name)
  | 0, _, _, _ => none
  | fuel + 1, mat, name, count =>
      match need.get? name with
      | some recipe =>
          recipe.entries.foldlM (fun mat item => add need fuel mat item.1 (count * item.2)) mat
      | none => some (increase mat name count)

/-- The calls of {lit}`add`, in order. -/
def run (need : Need Name) (fuel : Nat) (calls : List (Name × ℚ)) : Option (Mat Name) :=
  calls.foldlM (fun mat call => add need fuel mat call.1 call.2) Dict.empty

/-- The total of a material. -/
def total (mat : Mat Name) (material : Name) : ℚ :=
  (mat.get? material).getD 0

/-- The steps of the recipes: from a product to its ingredients. -/
def recipes (need : Need Name) (name : Name) : Option (List (Name × ℚ)) :=
  (need.get? name).map Dict.entries

/-! ## Adding items one by one -/

/-- Add a list of items. -/
def increaseAll (mat : Mat Name) (items : List (Name × ℚ)) : Mat Name :=
  items.foldl (fun mat item => increase mat item.1 item.2) mat

/-- How much of a material a list of items holds. -/
def amount (items : List (Name × ℚ)) (material : Name) : ℚ :=
  ((items.filter fun item => item.1 = material).map Prod.snd).sum

/-- The first item counts for its own material. -/
theorem amount_cons (item : Name × ℚ) (items : List (Name × ℚ)) (material : Name) :
    amount (item :: items) material =
      (if material = item.1 then item.2 else 0) + amount items material := by
  unfold amount
  by_cases h : item.1 = material
  · simp [h]
  · simp [h, Ne.symm h]

/-- The amounts of two lists add up. -/
theorem amount_append (xs ys : List (Name × ℚ)) (material : Name) :
    amount (xs ++ ys) material = amount xs material + amount ys material := by
  simp [amount]

/-- The order of the items does not matter. -/
theorem amount_perm {xs ys : List (Name × ℚ)} (h : xs.Perm ys) (material : Name) :
    amount xs material = amount ys material :=
  ((h.filter _).map _).sum_eq

/-- The amounts of many lists add up. -/
theorem amount_flatMap {β : Type} (f : β → List (Name × ℚ)) (xs : List β) (material : Name) :
    amount (xs.flatMap f) material = (xs.map fun x => amount (f x) material).sum := by
  induction xs with
  | nil => rfl
  | cons x xs ih => rw [List.flatMap_cons, amount_append, ih, List.map_cons, List.sum_cons]

/-- An increase adds a new name behind the others. -/
theorem keys_increase (mat : Mat Name) (name : Name) (count : ℚ) :
    (increase mat name count).keys = Numbering.insertNew mat.keys name := by
  unfold increase
  dsimp only
  split
  · exact Dict.keys_set _ _ _
  · rw [Dict.keys_set, Dict.keys_set, Numbering.insertNew,
      if_pos (Numbering.mem_insertNew_self _ _)]

/-- Setting a total changes that of one material. -/
theorem total_set (mat : Mat Name) (name : Name) (value : ℚ) (material : Name) :
    total (mat.set name value) material =
      if material = name then value else total mat material := by
  unfold total
  rw [Dict.get?_set]
  split <;> rfl

/-- An increase changes the total of one material. -/
theorem total_increase (mat : Mat Name) (name : Name) (count : ℚ) (material : Name) :
    total (increase mat name count) material =
      total mat material + if material = name then count else 0 := by
  have hopened : ∀ other, total (if (mat.get? name).isSome then mat else mat.set name 0) other =
      total mat other := by
    intro other
    split
    · rfl
    · rename_i hnone
      rw [total_set]
      split
      · rename_i hother
        rw [hother, total, Option.not_isSome_iff_eq_none.mp hnone, Option.getD_none]
      · rfl
  unfold increase
  dsimp only
  rw [total_set, ← total, hopened]
  split
  · rename_i heq
    rw [heq]
  · rw [hopened, add_zero]

/-- The increases collect the names of the items. -/
theorem keys_increaseAll (mat : Mat Name) (items : List (Name × ℚ)) :
    (increaseAll mat items).keys = Numbering.collect mat.keys (items.map Prod.fst) := by
  induction items generalizing mat with
  | nil => rfl
  | cons item items ih =>
      rw [List.map_cons, Numbering.collect_cons, ← keys_increase mat item.1 item.2]
      exact ih (increase mat item.1 item.2)

/-- The increases add the amounts of the items. -/
theorem total_increaseAll (mat : Mat Name) (items : List (Name × ℚ)) (material : Name) :
    total (increaseAll mat items) material = total mat material + amount items material := by
  induction items generalizing mat with
  | nil => exact (add_zero _).symm
  | cons item items ih =>
      rw [amount_cons, ← add_assoc, ← total_increase]
      exact ih (increase mat item.1 item.2)

/-- What a dictionary says of a material is whether it is there, and its total. -/
theorem get?_eq_of_total {mat mat' : Mat Name} {material : Name}
    (hkeys : material ∈ mat.keys ↔ material ∈ mat'.keys)
    (htotal : total mat material = total mat' material) :
    mat.get? material = mat'.get? material := by
  by_cases hmem : material ∈ mat.keys
  · rcases Option.isSome_iff_exists.mp (Dict.isSome_get?_iff.mpr hmem) with ⟨value, hvalue⟩
    rcases Option.isSome_iff_exists.mp (Dict.isSome_get?_iff.mpr (hkeys.mp hmem)) with
      ⟨value', hvalue'⟩
    simp only [total, hvalue, hvalue', Option.getD_some] at htotal
    rw [hvalue, hvalue', htotal]
  · rw [Dict.get?_eq_none_iff.mpr hmem, Dict.get?_eq_none_iff.mpr (mt hkeys.mpr hmem)]

/-- A dictionary is seen from the keys in order and the totals. -/
theorem ext_total {mat mat' : Mat Name} (hkeys : mat.keys = mat'.keys)
    (htotal : ∀ material, total mat material = total mat' material) : mat = mat' := by
  refine Dict.ext_get? hkeys fun material => get?_eq_of_total ?_ (htotal material)
  rw [hkeys]

/-! ## What a call adds -/

/-- The items of a call: every end of the walk through the recipes, with the quantity of its
path. -/
def demand (need : Need Name) (fuel : Nat) (call : Name × ℚ) : List (Name × ℚ) :=
  (routes (recipes need) fuel call.1).map fun route => (route.1, call.2 * weight route.2)

/-- There is fuel for every recipe path that starts at a product. -/
def Fuelled (need : Need Name) (fuel : Nat) (name : Name) : Prop :=
  ∀ p material, IsPath (recipes need) name p material → p.length < fuel

/-- A material without a recipe is a base one. -/
theorem recipes_eq_none_iff {need : Need Name} {name : Name} :
    recipes need name = none ↔ need.get? name = none := by
  unfold recipes
  exact Option.map_eq_none_iff

/-- A base material needs itself. -/
theorem demand_of_base {need : Need Name} {name : Name} (h : need.get? name = none) (fuel : Nat)
    (count : ℚ) : demand need (fuel + 1) (name, count) = [(name, count)] := by
  rw [demand, routes_of_end (recipes_eq_none_iff.mpr h), List.map_singleton, weight_nil, mul_one]

/-- A material with a recipe needs what its items need. -/
theorem demand_of_recipe {need : Need Name} {name : Name} {recipe : Dict Name ℚ}
    (h : need.get? name = some recipe) (fuel : Nat) (count : ℚ) :
    demand need (fuel + 1) (name, count) =
      recipe.entries.flatMap fun item => demand need fuel (item.1, count * item.2) := by
  have hsteps : recipes need name = some recipe.entries := by
    rw [recipes, h, Option.map_some]
  rw [demand, routes_of_steps hsteps, List.map_flatMap]
  refine List.flatMap_congr fun item _ => ?_
  rw [List.map_map]
  refine List.map_congr_left fun route _ => ?_
  simp only [Function.comp_apply, weight_cons, mul_assoc]

/-- The items of a recipe need one step less. -/
theorem Fuelled.step {need : Need Name} {name : Name} {recipe : Dict Name ℚ} {fuel : Nat}
    (h : Fuelled need (fuel + 1) name) (hrecipe : need.get? name = some recipe)
    {item : Name × ℚ} (hitem : item ∈ recipe.entries) : Fuelled need fuel item.1 := by
  intro p material hpath
  have hsteps : recipes need name = some recipe.entries := by
    rw [recipes, hrecipe, Option.map_some]
  exact Nat.lt_of_succ_lt_succ (h (item :: p) material (.cons hsteps hitem hpath))

/-- Increases list by list are increases in a row. -/
theorem increaseAll_flatMap {β : Type} (f : β → List (Name × ℚ)) (xs : List β) (mat : Mat Name) :
    increaseAll mat (xs.flatMap f) = xs.foldl (fun mat x => increaseAll mat (f x)) mat := by
  unfold increaseAll
  exact List.foldl_flatMap

/-- A call adds the ends of the walk through the recipes, one by one. -/
theorem add_eq {need : Need Name} {fuel : Nat} {name : Name} (hfuel : Fuelled need fuel name)
    (mat : Mat Name) (count : ℚ) :
    add need fuel mat name count = some (increaseAll mat (demand need fuel (name, count))) := by
  induction fuel generalizing mat name count with
  | zero => exact absurd (hfuel [] name (.nil name)) (Nat.not_lt_zero _)
  | succ fuel ih =>
      unfold add
      cases hrecipe : need.get? name with
      | none =>
          rw [demand_of_base hrecipe]
          rfl
      | some recipe =>
          rw [demand_of_recipe hrecipe, increaseAll_flatMap]
          exact Effects.foldlM_eq_some
            (fun item hitem mat => ih (hfuel.step hrecipe hitem) mat _) mat

/-- The calls increase the totals by what they need. -/
theorem run_eq {need : Need Name} {fuel : Nat} (hfuel : ∀ name, Fuelled need fuel name)
    (calls : List (Name × ℚ)) :
    run need fuel calls = some (increaseAll Dict.empty (calls.flatMap (demand need fuel))) := by
  rw [run, increaseAll_flatMap]
  exact Effects.foldlM_eq_some (fun call _ mat => add_eq (hfuel call.1) mat call.2) _

/-! ## Totals -/

/-- No item is twice in a recipe. -/
theorem nodup_entries (need : Need Name) (name : Name) (out : List (Name × ℚ))
    (h : recipes need name = some out) : out.Nodup := by
  unfold recipes at h
  rcases Option.map_eq_some_iff.mp h with ⟨recipe, -, rfl⟩
  exact List.Nodup.of_map Prod.fst recipe.nodup

/-- Without cyclic recipes as much fuel as there are recipes, and one, is enough. -/
theorem fuelled_of_acyclic {need : Need Name} (hacyclic : Acyclic (recipes need)) {fuel : Nat}
    (hfuel : need.entries.length < fuel) (name : Name) : Fuelled need fuel name := by
  intro p material hpath
  have hkeys : ∀ n, (recipes need n).isSome → n ∈ need.keys := by
    intro n hn
    rw [recipes, Option.isSome_map] at hn
    exact Dict.isSome_get?_iff.mp hn
  have hlength : p.length ≤ need.keys.length := length_le_of_acyclic hacyclic hkeys hpath
  rw [Dict.keys, List.length_map] at hlength
  exact hlength.trans_lt hfuel

/-- A factor can be taken out of an amount. -/
theorem amount_map_mul {β : Type} (f : β → Name) (g : β → ℚ) (xs : List β) (count : ℚ)
    (material : Name) :
    amount (xs.map fun x => (f x, count * g x)) material =
      count * ((xs.filter fun x => f x = material).map g).sum := by
  induction xs with
  | nil => simp [amount]
  | cons x xs ih =>
      rw [List.map_cons, amount_cons, ih]
      by_cases h : f x = material
      · simp [h, mul_add]
      · simp [h, Ne.symm h]

/-- What a material needs are the ends of its routes. -/
theorem keys_demand (need : Need Name) (fuel : Nat) (name : Name) (count : ℚ) :
    (demand need fuel (name, count)).map Prod.fst =
      (routes (recipes need) fuel name).map Prod.fst := by
  rw [demand, List.map_map]
  rfl

/-- How much of a material is needed is the sum over the routes to it. -/
theorem amount_demand_eq (need : Need Name) (fuel : Nat) (name : Name) (count : ℚ)
    (material : Name) :
    amount (demand need fuel (name, count)) material =
      count * ((routesTo (recipes need) fuel name material).map weight).sum := by
  rw [demand, amount_map_mul, routesTo, List.map_map]
  rfl

/-- A call adds its count times the sum of the products along the recipe paths. -/
theorem amount_demand {need : Need Name} {fuel : Nat} {material : Name}
    (hbase : need.get? material = none) (call : Name × ℚ) (hfuel : Fuelled need fuel call.1) :
    amount (demand need fuel call) material =
      call.2 * pathSum (recipes need) call.1 material := by
  rw [pathSum_eq_sum_routes (nodup_entries need) (recipes_eq_none_iff.mpr hbase)
    fun p hpath => hfuel p material hpath]
  exact amount_demand_eq need fuel call.1 call.2 material

/-- Two calls for one product are one call for both counts. -/
theorem increaseAll_demand_add (need : Need Name) (fuel : Nat) (mat : Mat Name) (name : Name)
    (a b : ℚ) :
    increaseAll (increaseAll mat (demand need fuel (name, a))) (demand need fuel (name, b)) =
      increaseAll mat (demand need fuel (name, a + b)) := by
  apply ext_total
  · simp only [keys_increaseAll, keys_demand, Numbering.collect_collect]
  · intro material
    simp only [total_increaseAll, amount_demand_eq, add_assoc, add_mul]

/-- The dictionary behind the same items in another order is the same up to its order. -/
theorem get?_increaseAll_perm {xs ys : List (Name × ℚ)} (h : xs.Perm ys) (mat : Mat Name)
    (material : Name) :
    (increaseAll mat xs).get? material = (increaseAll mat ys).get? material := by
  apply get?_eq_of_total
  · rw [keys_increaseAll, keys_increaseAll, Numbering.mem_collect_iff, Numbering.mem_collect_iff,
      (h.map Prod.fst).mem_iff]
  · rw [total_increaseAll, total_increaseAll, amount_perm h]

/-- Without cyclic recipes every sequence of calls ends.  The total of a base material is the
sum over the calls of the count times the sum over all recipe paths, and the order of the
calls does not matter; two calls for one product have the same effect as one. -/
theorem run_totals (need : Need Name) (hacyclic : Acyclic (recipes need)) {fuel : Nat}
    (hfuel : need.entries.length < fuel) :
    (∀ calls, ∃ mat, run need fuel calls = some mat ∧
      (∀ material, need.get? material = none →
        (∀ name, (paths (recipes need) name material).Finite) ∧
        total mat material =
          (calls.map fun call => call.2 * pathSum (recipes need) call.1 material).sum) ∧
      ∀ calls', calls.Perm calls' → ∃ mat', run need fuel calls' = some mat' ∧
        ∀ material, mat'.get? material = mat.get? material) ∧
    ∀ mat name a b, ∃ mat',
      ((add need fuel mat name a).bind fun mat => add need fuel mat name b) = some mat' ∧
        add need fuel mat name (a + b) = some mat' := by
  have hall : ∀ name, Fuelled need fuel name := fuelled_of_acyclic hacyclic hfuel
  constructor
  · intro calls
    refine ⟨_, run_eq hall calls, fun material hbase => ⟨fun name => ?_, ?_⟩,
      fun calls' hperm => ?_⟩
    · exact finite_paths (recipes_eq_none_iff.mpr hbase) fun p hpath => hall name p material hpath
    · have hempty : total (Dict.empty : Mat Name) material = 0 := rfl
      rw [total_increaseAll, hempty, zero_add, amount_flatMap]
      simp only [amount_demand hbase _ (hall _)]
    · refine ⟨_, run_eq hall calls', fun material => ?_⟩
      exact get?_increaseAll_perm (hperm.symm.flatMap_right _) _ material
  · intro mat name a b
    refine ⟨_, ?_, add_eq (hall name) mat (a + b)⟩
    rw [add_eq (hall name), Option.bind_some, add_eq (hall name), increaseAll_demand_add]

/-! ## The table of the script -/

/-- The recipes of the script. -/
def need : Need String where
  entries := [
    ("涡轮排气口",
      { entries := [("涡轮外壳", 3), ("流体管道", 1), ("输液管止回阀", 1 / 2)]
        nodup := by decide }),
    ("分压元件",
      { entries := [("高级压力管道", 8), ("钢质机壳", 1)]
        nodup := by decide }),
    ("饱和冷凝器",
      { entries := [("流体管道", 7), ("钢质机壳", 1), ("散热片", 1)]
        nodup := by decide }),
    ("电磁线圈",
      { entries := [("基础疏导元件", 4), ("铜线圈", 4), ("超级机器框架", 1)]
        nodup := by decide }),
    ("复杂旋钮装置",
      { entries := [("网络电缆", 10), ("精英控制电路", 2), ("强化合金", 2), ("压缩铁齿轮", 8),
          ("平板电脑", 1), ("节点", 1), ("高级机器框架", 1)]
        nodup := by decide })]
  nodup := by decide

/-- A table in which no ingredient has a recipe of its own is acyclic. -/
theorem acyclic_of_flat {need : Need Name}
    (h : ∀ entry ∈ need.entries, ∀ item ∈ entry.2.entries, need.get? item.1 = none) :
    Acyclic (recipes need) := by
  apply acyclic_of_rank fun name => if (need.get? name).isSome then 1 else 0
  rintro n m ⟨out, hout, hm⟩
  rcases Option.map_eq_some_iff.mp hout with ⟨recipe, hrecipe, rfl⟩
  rcases List.mem_map.mp hm with ⟨item, hitem, rfl⟩
  have hentry : (n, recipe) ∈ need.entries := Dict.get?_eq_some_iff.mp hrecipe
  have hbase : need.get? item.1 = none := h (n, recipe) hentry item hitem
  simp [hbase, hrecipe]

/-- The table of the example has no cycles. -/
theorem need_acyclic : Acyclic (recipes need) := by
  apply acyclic_of_flat
  decide

/-- Two products of the script that share an ingredient. -/
theorem run_totals_need :
    ∃ mat, run need 6 [("分压元件", 224), ("饱和冷凝器", 293)] = some mat ∧
      total mat "钢质机壳" =
        224 * pathSum (recipes need) "分压元件" "钢质机壳" +
          293 * pathSum (recipes need) "饱和冷凝器" "钢质机壳" := by
  have hlength : need.entries.length < 6 := by decide
  rcases run_totals need need_acyclic hlength with ⟨hcalls, -⟩
  rcases hcalls [("分压元件", 224), ("饱和冷凝器", 293)] with ⟨mat, hrun, htotals, -⟩
  refine ⟨mat, hrun, ?_⟩
  rw [(htotals "钢质机壳" (by decide)).2]
  simp

end MaterialCalculation
end TestAio
