import TestAio.Library.Grouping
import TestAio.Util.QuestionUtil

/-!
# What the JSON tree keeps

The overload of {lit}`list2Tree` with a consumer builds three levels of children, each by
looking for the child of a strategy among all.  So the tree is a gathering of the list by
level, below it by point and below that by type, and a type that is there keeps the
payload of its first strategy.

Main results:

- Theorem {lit}`list2TreeJson_eq_gather`: the loop gathers the list.
- Theorem {lit}`inOrder_list2TreeJson`: siblings stand in the order of their first
  occurrence.
- Theorem {lit}`list2TreeJson_keeps_each_once`: every strategy is kept once, with the payload
  of the first element that has it.

Current gaps:

- A payload is what the consumer adds to the object of a type.
-/

namespace TestAio
namespace QuestionUtil

open Library Siblings Grouping

variable {τ δ : Type}

/-! ## The loop as a gathering -/

section Gatherings

variable (strategy : τ → StrategyData) (consumer : τ → δ)

theorem name_mk_point (name : JString) (list : List (TypeJson δ)) :
    (PointJson.mk name list).name = name :=
  rfl

theorem name_mk_level (name : JString) (list : List (PointJson δ)) :
    (LevelJson.mk name list).name = name :=
  rfl

/-- Types below a point; one that is there stays as it is. -/
def typeGathering : Gathering τ (TypeJson δ) JString where
  key := TypeJson.name
  name data := (strategy data).type
  fresh data := newTypeJson (strategy data) (consumer data)
  update _ := id
  key_fresh _ := rfl
  key_update _ _ := rfl

/-- Points below a level. -/
def pointGathering : Gathering τ (PointJson δ) JString :=
  Gathering.above PointJson.name PointJson.list PointJson.mk (fun data => (strategy data).point)
    (typeGathering strategy consumer).add name_mk_point

/-- The levels. -/
def levelGathering : Gathering τ (LevelJson δ) JString :=
  Gathering.above LevelJson.name LevelJson.list LevelJson.mk (fun data => (strategy data).level)
    (pointGathering strategy consumer).add name_mk_level

theorem update_pointGathering (data : τ) :
    (pointGathering strategy consumer).update data =
      addToPointJson (strategy data) (consumer data) := by
  funext point
  have htypes : (pointGathering strategy consumer).update data point =
      { point with list := upsert TypeJson.name (strategy data).type id
                     (newTypeJson (strategy data) (consumer data)) point.list } :=
    rfl
  rw [htypes, upsert_id, addToPointJson]
  simp only [beq_eq_decide]
  split_ifs <;> rfl

theorem update_levelGathering (data : τ) :
    (levelGathering strategy consumer).update data =
      addToLevelJson (strategy data) (consumer data) := by
  funext level
  have hpoints : (levelGathering strategy consumer).update data level =
      { level with list := upsert PointJson.name (strategy data).point
                     ((pointGathering strategy consumer).update data)
                     (newPointJson (strategy data) (consumer data)) level.list } :=
    rfl
  rw [hpoints, update_pointGathering]
  rfl

/-- The loop gathers the list. -/
theorem list2TreeJson_eq_gather (list : List τ) :
    list2TreeJson strategy consumer list = (levelGathering strategy consumer).gather list := by
  have hadd : addToJson strategy consumer = (levelGathering strategy consumer).add := by
    funext levels data
    rw [Gathering.add, update_levelGathering]
    rfl
  rw [list2TreeJson, hadd, Gathering.gather]

variable {strategy consumer}

/-- The points of a level are gathered from the strategies of the level. -/
theorem points_eq_gather {list : List τ} {level : LevelJson δ}
    (h : level ∈ list2TreeJson strategy consumer list) :
    level.list = (pointGathering strategy consumer).gather
      (list.filter fun data => (strategy data).level = level.name) := by
  rw [list2TreeJson_eq_gather] at h
  exact Gathering.list_of_mem_gather_above (fun _ _ => rfl) (fun _ _ => rfl) h

/-- The strategies of a point of a level. -/
def under (strategy : τ → StrategyData) (level point : JString) (list : List τ) : List τ :=
  list.filter fun data => (strategy data).level = level ∧ (strategy data).point = point

/-- The types of a point are gathered from the strategies of the point. -/
theorem types_eq_gather {list : List τ} {level : LevelJson δ} {point : PointJson δ}
    (hlevel : level ∈ list2TreeJson strategy consumer list) (hpoint : point ∈ level.list) :
    point.list = (typeGathering strategy consumer).gather
      (under strategy level.name point.name list) := by
  rw [points_eq_gather hlevel] at hpoint
  have hlist := Gathering.list_of_mem_gather_above (fun _ _ => rfl) (fun _ _ => rfl) hpoint
  rw [hlist, List.filter_filter]
  refine congrArg _ (List.filter_congr fun data _ => ?_)
  rw [Bool.decide_and, Bool.and_comm]

end Gatherings

/-! ## The order of siblings -/

/-- Siblings stand in the order in which their names first occur under their parent. -/
structure InOrder (strategy : τ → StrategyData) (list : List τ) (tree : List (LevelJson δ)) :
    Prop where
  levels : tree.map LevelJson.name =
    firstOccurrences (list.map fun data => (strategy data).level)
  points : ∀ level ∈ tree, level.list.map PointJson.name =
    firstOccurrences ((list.filter fun data => (strategy data).level = level.name).map
      fun data => (strategy data).point)
  types : ∀ level ∈ tree, ∀ point ∈ level.list, point.list.map TypeJson.name =
    firstOccurrences ((under strategy level.name point.name list).map
      fun data => (strategy data).type)

theorem inOrder_list2TreeJson (strategy : τ → StrategyData) (consumer : τ → δ)
    (list : List τ) : InOrder strategy list (list2TreeJson strategy consumer list) where
  levels := by
    rw [list2TreeJson_eq_gather]
    exact (levelGathering strategy consumer).keys_gather list
  points level hlevel := by
    rw [points_eq_gather hlevel]
    exact (pointGathering strategy consumer).keys_gather _
  types level hlevel point hpoint := by
    rw [types_eq_gather hlevel hpoint]
    exact (typeGathering strategy consumer).keys_gather _

/-! ## The leaves with their payloads -/

/-- The strategies of a tree with the payloads of their types. -/
def leaves (tree : List (LevelJson δ)) : List (StrategyData × δ) :=
  tree.flatMap fun level =>
    level.list.flatMap fun point =>
      point.list.map fun type =>
        ({ level := level.name, point := point.name, type := type.name }, type.added)

theorem map_fst_leaves (tree : List (LevelJson δ)) :
    (leaves tree).map Prod.fst = tree2List (array2List tree) := by
  simp only [leaves, tree2List, array2List, LevelJson.toTree, PointJson.toTree,
    List.map_flatMap, List.flatMap_map, List.map_map, Function.comp_def]

theorem mem_leaves {tree : List (LevelJson δ)} {leaf : StrategyData × δ} :
    leaf ∈ leaves tree ↔ ∃ level ∈ tree, ∃ point ∈ level.list, ∃ type ∈ point.list,
      ({ level := level.name, point := point.name, type := type.name }, type.added) = leaf := by
  simp only [leaves, List.mem_flatMap, List.mem_map]

theorem mem_firstOccurrences {κ : Type} [DecidableEq κ] {ks : List κ} {k : κ} :
    k ∈ firstOccurrences ks ↔ k ∈ ks :=
  List.mem_eraseDups

theorem strategy_eq_iff (s : StrategyData) (level point type : JString) :
    s = { level := level, point := point, type := type } ↔
      s.level = level ∧ s.point = point ∧ s.type = type := by
  cases s
  exact Iff.of_eq (StrategyData.mk.injEq _ _ _ _ _ _)

/-- Further strategies of a type leave it as it is. -/
theorem extend_typeGathering {strategy : τ → StrategyData} {consumer : τ → δ}
    (type : TypeJson δ) (list : List τ) :
    (typeGathering strategy consumer).extend type list = type := by
  induction list with
  | nil => rfl
  | cons data list ih => exact ih

/-- The first element with a strategy is found among those of its point. -/
theorem find?_strategy (strategy : τ → StrategyData) (list : List τ)
    (level point type : JString) :
    (list.find? fun data => strategy data = { level := level, point := point, type := type }) =
      ((under strategy level point list).filter fun data => (strategy data).type = type).head? := by
  have hsame : (fun data => decide (strategy data =
        { level := level, point := point, type := type })) =
      fun data => decide ((strategy data).type = type) &&
        decide ((strategy data).level = level ∧ (strategy data).point = point) := by
    funext data
    rw [← Bool.decide_and]
    refine decide_eq_decide.mpr ((strategy_eq_iff _ _ _ _).trans ?_)
    exact ⟨fun h => ⟨h.2.2, h.1, h.2.1⟩, fun h => ⟨h.2.1, h.2.2, h.1⟩⟩
  rw [hsame, ← List.head?_filter, ← List.filter_filter]
  rfl

/-- A leaf has the payload of the first element with its strategy. -/
theorem find_of_mem_leaves {strategy : τ → StrategyData} {consumer : τ → δ} {list : List τ}
    {leaf : StrategyData × δ} (h : leaf ∈ leaves (list2TreeJson strategy consumer list)) :
    ∃ data, list.find? (fun data => strategy data = leaf.1) = some data ∧
      consumer data = leaf.2 := by
  rcases mem_leaves.mp h with ⟨level, hlevel, point, hpoint, type, htype, rfl⟩
  rw [types_eq_gather hlevel hpoint] at htype
  have hchild := (typeGathering strategy consumer).child_of_mem_gather htype
  change Gathering.child _ ((under strategy level.name point.name list).filter
    fun data => (strategy data).type = type.name) = _ at hchild
  cases hgroup : (under strategy level.name point.name list).filter
      fun data => (strategy data).type = type.name with
  | nil =>
      rw [hgroup] at hchild
      cases hchild
  | cons data rest =>
      rw [hgroup] at hchild
      have htypes : newTypeJson (strategy data) (consumer data) = type :=
        (extend_typeGathering _ rest).symm.trans (Option.some.inj hchild)
      refine ⟨data, ?_, congrArg TypeJson.added htypes⟩
      rw [find?_strategy]
      exact congrArg List.head? hgroup

/-- Every strategy of the list is a leaf. -/
theorem exists_leaf {strategy : τ → StrategyData} {consumer : τ → δ} {list : List τ} {data : τ}
    (h : data ∈ list) :
    ∃ leaf ∈ leaves (list2TreeJson strategy consumer list), leaf.1 = strategy data := by
  have horder := inOrder_list2TreeJson strategy consumer list
  have hlevelName := mem_firstOccurrences.mpr
    (List.mem_map_of_mem (f := fun data => (strategy data).level) h)
  rw [← horder.levels] at hlevelName
  rcases List.mem_map.mp hlevelName with ⟨level, hlevel, hlevelEq⟩
  have hinLevel : data ∈ list.filter fun data => (strategy data).level = level.name :=
    List.mem_filter.mpr ⟨h, decide_eq_true hlevelEq.symm⟩
  have hpointName := mem_firstOccurrences.mpr
    (List.mem_map_of_mem (f := fun data => (strategy data).point) hinLevel)
  rw [← horder.points level hlevel] at hpointName
  rcases List.mem_map.mp hpointName with ⟨point, hpoint, hpointEq⟩
  have hinPoint : data ∈ under strategy level.name point.name list :=
    List.mem_filter.mpr ⟨h, decide_eq_true ⟨hlevelEq.symm, hpointEq.symm⟩⟩
  have htypeName := mem_firstOccurrences.mpr
    (List.mem_map_of_mem (f := fun data => (strategy data).type) hinPoint)
  rw [← horder.types level hlevel point hpoint] at htypeName
  rcases List.mem_map.mp htypeName with ⟨type, htype, htypeEq⟩
  refine ⟨_, mem_leaves.mpr ⟨level, hlevel, point, hpoint, type, htype, rfl⟩, ?_⟩
  rw [hlevelEq, hpointEq, htypeEq]

/-- The JSON tree has distinct siblings in the order of their first occurrence, one leaf
for every strategy of the list and no other, and the leaf has the payload of the first
element with the strategy. -/
theorem list2TreeJson_keeps_each_once (strategy : τ → StrategyData) (consumer : τ → δ)
    (list : List τ) :
    DistinctSiblings (list2TreeJson strategy consumer list) ∧
      (((leaves (list2TreeJson strategy consumer list)).map Prod.fst).Nodup ∧
        ∀ s, s ∈ (leaves (list2TreeJson strategy consumer list)).map Prod.fst ↔
          s ∈ list.map strategy) ∧
      InOrder strategy list (list2TreeJson strategy consumer list) ∧
      ∀ leaf ∈ leaves (list2TreeJson strategy consumer list),
        ∃ data, list.find? (fun data => strategy data = leaf.1) = some data ∧
          consumer data = leaf.2 := by
  have hdistinct := distinctSiblings_list2TreeJson strategy consumer list
  refine ⟨hdistinct, ⟨?_, fun s => ⟨fun h => ?_, fun h => ?_⟩⟩,
    inOrder_list2TreeJson strategy consumer list, fun leaf => find_of_mem_leaves⟩
  · rw [map_fst_leaves]
    exact nodup_tree2List_array2List hdistinct
  · rcases List.mem_map.mp h with ⟨leaf, hleaf, rfl⟩
    rcases find_of_mem_leaves hleaf with ⟨data, hfind, -⟩
    have heq := List.find?_some hfind
    exact List.mem_map.mpr ⟨data, List.mem_of_find?_eq_some hfind, of_decide_eq_true heq⟩
  · rcases List.mem_map.mp h with ⟨data, hdata, rfl⟩
    rcases exists_leaf hdata with ⟨leaf, hleaf, heq⟩
    exact List.mem_map.mpr ⟨leaf, hleaf, heq⟩

end QuestionUtil
end TestAio
