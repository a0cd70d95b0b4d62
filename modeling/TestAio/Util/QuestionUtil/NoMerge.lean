import TestAio.Java.Pattern
import TestAio.Library.Effects
import TestAio.Util.QuestionUtil.JsonTree

/-!
# The tree without merging

{lit}`list2TreeNoMerge` looks for the level and the point of a strategy at the end of the
tree only, through two variables that refer to the level and the point it made last.
The objects they refer to are inside the array already, so a type that is added through
{lit}`lastPoint` appears in the array.

Main results:

- Theorem {lit}`list2TreeNoMerge_eq`: the variables always refer to the rightmost nodes, so
  the loop gathers runs.
- Theorem {lit}`list2TreeNoMerge_keeps_order`: the leaves are the list, and neighbours
  differ.
- Theorem {lit}`list2TreeNoMerge_eq_list2TreeJson`: on grouped lists both builders agree.

Current gaps:

- A payload is what the consumer adds to the object of a type.
-/

namespace TestAio
namespace QuestionUtil

open Library Grouping

variable {τ δ : Type}

/-! ## The function -/

/-- A reference to a JSON object. -/
abbrev Ref := Nat

/-- The JSON object of a level; its list refers to the objects of points. -/
structure LevelObject where
  name : JString
  list : List Ref

/-- The array and the variables of the loop, with the objects made so far in the order of
their creation. -/
structure Loop (δ : Type) where
  levelObjects : List LevelObject := []
  pointObjects : List (PointJson δ) := []
  levels : List Ref := []
  lastLevel : Option Ref := none
  lastPoint : Option Ref := none

/-- The branch for a new level. -/
def Loop.openLevel (loop : Loop δ) (data : StrategyData) (added : δ) : Loop δ where
  levelObjects :=
    loop.levelObjects ++ [{ name := data.level, list := [loop.pointObjects.length] }]
  pointObjects := loop.pointObjects ++ [newPointJson data added]
  levels := loop.levels ++ [loop.levelObjects.length]
  lastLevel := some loop.levelObjects.length
  lastPoint := some loop.pointObjects.length

/-- The branch for a new point of the last level. -/
def Loop.openPoint (loop : Loop δ) (lastLevel : Ref) (data : StrategyData) (added : δ) :
    Loop δ :=
  { loop with
    levelObjects := loop.levelObjects.modify lastLevel fun level =>
      { level with list := level.list ++ [loop.pointObjects.length] }
    pointObjects := loop.pointObjects ++ [newPointJson data added]
    lastPoint := some loop.pointObjects.length }

/-- The branch for a new type of the last point. -/
def Loop.addType (loop : Loop δ) (lastPoint : Ref) (data : StrategyData) (added : δ) :
    Loop δ :=
  { loop with
    pointObjects := loop.pointObjects.modify lastPoint fun point =>
      { point with list := point.list ++ [newTypeJson data added] } }

/-- The body of the loop. -/
def Loop.add (strategy : τ → StrategyData) (consumer : τ → δ) (loop : Loop δ) (data : τ) :
    Except JavaException (Loop δ) :=
  match loop.lastLevel with
  | none => .ok (loop.openLevel (strategy data) (consumer data))
  | some lastLevel =>
      if loop.levelObjects[lastLevel]?.map LevelObject.name ≠ some (strategy data).level then
        .ok (loop.openLevel (strategy data) (consumer data))
      else
        match loop.lastPoint with
        | none => .error .nullPointer
        | some lastPoint =>
            if loop.pointObjects[lastPoint]?.map PointJson.name ≠
                some (strategy data).point then
              .ok (loop.openPoint lastLevel (strategy data) (consumer data))
            else
              .ok (loop.addType lastPoint (strategy data) (consumer data))

/-- The JSON of the object of a level. -/
def LevelObject.read (pointObjects : List (PointJson δ)) (level : LevelObject) :
    LevelJson δ where
  name := level.name
  list := level.list.filterMap fun ref => pointObjects[ref]?

/-- The JSON of the array. -/
def Loop.read (loop : Loop δ) : List (LevelJson δ) :=
  loop.levels.filterMap fun ref =>
    loop.levelObjects[ref]?.map (LevelObject.read loop.pointObjects)

/-- {lit}`QuestionUtil.list2TreeNoMerge`. -/
def list2TreeNoMerge (strategy : τ → StrategyData) (consumer : τ → δ) (list : List τ) :
    Except JavaException (List (LevelJson δ)) :=
  (list.foldlM (Loop.add strategy consumer) {}).map Loop.read

/-! ## The loop as a gathering of runs -/

section Gatherings

variable (strategy : τ → StrategyData) (consumer : τ → δ)

/-- Points below the last level; every type is added. -/
def pointRuns : Gathering τ (PointJson δ) JString :=
  Gathering.above PointJson.name PointJson.list PointJson.mk (fun data => (strategy data).point)
    (fun types data => types ++ [newTypeJson (strategy data) (consumer data)]) name_mk_point

/-- The levels, when only the last one is looked at. -/
def levelRuns : Gathering τ (LevelJson δ) JString :=
  Gathering.above LevelJson.name LevelJson.list LevelJson.mk (fun data => (strategy data).level)
    (pointRuns strategy consumer).addLast name_mk_level

theorem addLast_pointRuns (points : List (PointJson δ)) (point : PointJson δ) (data : τ) :
    (pointRuns strategy consumer).addLast (points ++ [point]) data =
      if point.name = (strategy data).point then
        points ++ [{ point with
          list := point.list ++ [newTypeJson (strategy data) (consumer data)] }]
      else
        points ++ [point] ++ [newPointJson (strategy data) (consumer data)] :=
  upsertLast_concat _ _ _ _ _ _

theorem addLast_levelRuns (levels : List (LevelJson δ)) (level : LevelJson δ) (data : τ) :
    (levelRuns strategy consumer).addLast (levels ++ [level]) data =
      if level.name = (strategy data).level then
        levels ++ [{ level with list := (pointRuns strategy consumer).addLast level.list data }]
      else
        levels ++ [level] ++ [newLevelJson (strategy data) (consumer data)] :=
  upsertLast_concat _ _ _ _ _ _

end Gatherings

/-! ## The variables refer to the rightmost nodes -/

/-- The loop behind a nonempty list: {lit}`lastLevel` is the last level of the array, and
{lit}`lastPoint` the last point of the last level. -/
def rightmost (levelObjects : List LevelObject) (name : JString) (refs : List Ref)
    (pointObjects : List (PointJson δ)) (point : PointJson δ) : Loop δ where
  levelObjects := levelObjects ++ [{ name := name, list := refs ++ [pointObjects.length] }]
  pointObjects := pointObjects ++ [point]
  levels := List.range (levelObjects.length + 1)
  lastLevel := some levelObjects.length
  lastPoint := some pointObjects.length

/-- The states of the loop. -/
inductive Reached : Loop δ → Prop
  | start : Reached {}
  | behind {levelObjects : List LevelObject} {name : JString} {refs : List Ref}
      {pointObjects : List (PointJson δ)} {point : PointJson δ}
      (hlevels : ∀ level ∈ levelObjects, ∀ ref ∈ level.list, ref < pointObjects.length)
      (hrefs : ∀ ref ∈ refs, ref < pointObjects.length) :
      Reached (rightmost levelObjects name refs pointObjects point)

theorem filterMap_range {α β : Type} (xs : List α) (f : α → β) :
    ((List.range xs.length).filterMap fun ref => xs[ref]?.map f) = xs.map f := by
  rw [← List.map_filterMap, Siblings.filterMap_range_getElem?, List.take_length]

/-- Objects that are made later do not change what older references lead to. -/
theorem filterMap_append_of_lt {α : Type} {objects : List α} {refs : List Ref}
    (h : ∀ ref ∈ refs, ref < objects.length) (more : List α) :
    (refs.filterMap fun ref => (objects ++ more)[ref]?) =
      refs.filterMap fun ref => objects[ref]? :=
  List.filterMap_congr fun ref href => List.getElem?_append_left (h ref href)

theorem read_append_of_lt {level : LevelObject} {pointObjects : List (PointJson δ)}
    (h : ∀ ref ∈ level.list, ref < pointObjects.length) (more : List (PointJson δ)) :
    level.read (pointObjects ++ more) = level.read pointObjects :=
  congrArg (LevelJson.mk level.name) (filterMap_append_of_lt h more)

/-- The array behind a nonempty list. -/
theorem read_rightmost {levelObjects : List LevelObject} {refs : List Ref}
    {pointObjects : List (PointJson δ)}
    (hlevels : ∀ level ∈ levelObjects, ∀ ref ∈ level.list, ref < pointObjects.length)
    (hrefs : ∀ ref ∈ refs, ref < pointObjects.length) (name : JString) (point : PointJson δ) :
    (rightmost levelObjects name refs pointObjects point).read =
      levelObjects.map (LevelObject.read pointObjects) ++
        [{ name := name
           list := (refs.filterMap fun ref => pointObjects[ref]?) ++ [point] }] := by
  have hlength : levelObjects.length + 1 = (levelObjects ++
      [({ name := name, list := refs ++ [pointObjects.length] } : LevelObject)]).length := by
    rw [List.length_append, List.length_singleton]
  unfold Loop.read rightmost
  dsimp only
  rw [hlength, filterMap_range, List.map_append, List.map_singleton]
  congr 1
  · exact List.map_congr_left fun level hlevel => read_append_of_lt (hlevels level hlevel) _
  · rw [LevelObject.read, List.filterMap_append, filterMap_append_of_lt hrefs]
    simp

/-- When a point is made, the levels in front refer to older points. -/
theorem levels_lt_concat {levelObjects : List LevelObject} {pointObjects : List (PointJson δ)}
    (hlevels : ∀ level ∈ levelObjects, ∀ ref ∈ level.list, ref < pointObjects.length)
    (point : PointJson δ) :
    ∀ level ∈ levelObjects, ∀ ref ∈ level.list, ref < (pointObjects ++ [point]).length := by
  intro level hlevel ref href
  rw [List.length_append, List.length_singleton]
  exact Nat.lt_succ_of_lt (hlevels level hlevel ref href)

/-- The last level refers to them and to the one in front of the point. -/
theorem refs_lt_concat {refs : List Ref} {pointObjects : List (PointJson δ)}
    (hrefs : ∀ ref ∈ refs, ref < pointObjects.length) (point : PointJson δ) :
    ∀ ref ∈ refs ++ [pointObjects.length], ref < (pointObjects ++ [point]).length := by
  intro ref href
  rw [List.length_append, List.length_singleton]
  rcases List.mem_append.mp href with href | href
  · exact Nat.lt_succ_of_lt (hrefs ref href)
  · rw [List.mem_singleton.mp href]
    exact Nat.lt_succ_self _

/-- The array behind a new point. -/
theorem read_openPoint {levelObjects : List LevelObject} {refs : List Ref}
    {pointObjects : List (PointJson δ)}
    (hlevels : ∀ level ∈ levelObjects, ∀ ref ∈ level.list, ref < pointObjects.length)
    (hrefs : ∀ ref ∈ refs, ref < pointObjects.length) (name : JString)
    (point added : PointJson δ) :
    (rightmost levelObjects name (refs ++ [pointObjects.length]) (pointObjects ++ [point])
        added).read =
      levelObjects.map (LevelObject.read pointObjects) ++
        [{ name := name
           list := (refs.filterMap fun ref => pointObjects[ref]?) ++ [point] ++ [added] }] := by
  rw [read_rightmost (levels_lt_concat hlevels point) (refs_lt_concat hrefs point)]
  congr 1
  · exact List.map_congr_left fun level hlevel => read_append_of_lt (hlevels level hlevel) _
  · apply congrArg (fun points => [LevelJson.mk name points])
    rw [List.filterMap_append, filterMap_append_of_lt hrefs]
    simp

/-- When a level is made, the levels in front of it refer to the points there are. -/
theorem forall_lt_concat {levelObjects : List LevelObject} {refs : List Ref}
    {pointObjects : List (PointJson δ)}
    (hlevels : ∀ level ∈ levelObjects, ∀ ref ∈ level.list, ref < pointObjects.length)
    (hrefs : ∀ ref ∈ refs, ref < pointObjects.length) (name : JString) (point : PointJson δ) :
    ∀ level ∈ levelObjects ++
        [({ name := name, list := refs ++ [pointObjects.length] } : LevelObject)],
      ∀ ref ∈ level.list, ref < (pointObjects ++ [point]).length := by
  intro level hlevel
  rcases List.mem_append.mp hlevel with hlevel | hlevel
  · exact levels_lt_concat hlevels point level hlevel
  · rw [List.mem_singleton.mp hlevel]
    exact refs_lt_concat hrefs point

/-- The array behind a new level. -/
theorem read_openLevel {levelObjects : List LevelObject} {refs : List Ref}
    {pointObjects : List (PointJson δ)}
    (hlevels : ∀ level ∈ levelObjects, ∀ ref ∈ level.list, ref < pointObjects.length)
    (hrefs : ∀ ref ∈ refs, ref < pointObjects.length) (name name' : JString)
    (point added : PointJson δ) :
    (rightmost (levelObjects ++ [{ name := name, list := refs ++ [pointObjects.length] }]) name'
        [] (pointObjects ++ [point]) added).read =
      (rightmost levelObjects name refs pointObjects point).read ++
        [{ name := name', list := [added] }] := by
  rw [read_rightmost (forall_lt_concat hlevels hrefs name point) (by simp),
    read_rightmost hlevels hrefs, List.map_append, List.map_singleton]
  congr 2
  · exact List.map_congr_left fun level hmem => read_append_of_lt (hlevels level hmem) _
  · rw [LevelObject.read, List.filterMap_append, filterMap_append_of_lt hrefs]
    simp

/-- A new level becomes the rightmost one. -/
theorem openLevel_rightmost (levelObjects : List LevelObject) (name : JString)
    (refs : List Ref) (pointObjects : List (PointJson δ)) (point : PointJson δ)
    (data : StrategyData) (added : δ) :
    (rightmost levelObjects name refs pointObjects point).openLevel data added =
      rightmost (levelObjects ++ [{ name := name, list := refs ++ [pointObjects.length] }])
        data.level [] (pointObjects ++ [point]) (newPointJson data added) := by
  unfold Loop.openLevel rightmost
  simp [List.range_succ]

/-- A new point becomes the rightmost one. -/
theorem openPoint_rightmost (levelObjects : List LevelObject) (name : JString)
    (refs : List Ref) (pointObjects : List (PointJson δ)) (point : PointJson δ)
    (data : StrategyData) (added : δ) :
    (rightmost levelObjects name refs pointObjects point).openPoint levelObjects.length data
        added =
      rightmost levelObjects name (refs ++ [pointObjects.length]) (pointObjects ++ [point])
        (newPointJson data added) := by
  unfold Loop.openPoint rightmost
  simp [Siblings.modify_length_append]

/-- A new type goes to the rightmost point. -/
theorem addType_rightmost (levelObjects : List LevelObject) (name : JString)
    (refs : List Ref) (pointObjects : List (PointJson δ)) (point : PointJson δ)
    (data : StrategyData) (added : δ) :
    (rightmost levelObjects name refs pointObjects point).addType pointObjects.length data
        added =
      rightmost levelObjects name refs pointObjects
        { point with list := point.list ++ [newTypeJson data added] } := by
  unfold Loop.addType rightmost
  simp [Siblings.modify_length_append]

/-- The branches for a strategy behind a nonempty list. -/
theorem add_rightmost (strategy : τ → StrategyData) (consumer : τ → δ)
    (levelObjects : List LevelObject) (name : JString) (refs : List Ref)
    (pointObjects : List (PointJson δ)) (point : PointJson δ) (data : τ) :
    (rightmost levelObjects name refs pointObjects point).add strategy consumer data =
      if name = (strategy data).level then
        if point.name = (strategy data).point then
          .ok ((rightmost levelObjects name refs pointObjects point).addType pointObjects.length
            (strategy data) (consumer data))
        else
          .ok ((rightmost levelObjects name refs pointObjects point).openPoint
            levelObjects.length (strategy data) (consumer data))
      else
        .ok ((rightmost levelObjects name refs pointObjects point).openLevel (strategy data)
          (consumer data)) := by
  have hlevelName : (rightmost levelObjects name refs pointObjects
      point).levelObjects[levelObjects.length]?.map LevelObject.name = some name := by
    simp [rightmost]
  have hpointName : (rightmost levelObjects name refs pointObjects
      point).pointObjects[pointObjects.length]?.map PointJson.name = some point.name := by
    simp [rightmost]
  have hlastLevel : (rightmost levelObjects name refs pointObjects point).lastLevel =
      some levelObjects.length :=
    rfl
  have hlastPoint : (rightmost levelObjects name refs pointObjects point).lastPoint =
      some pointObjects.length :=
    rfl
  unfold Loop.add
  simp only [hlastLevel, hlastPoint, hlevelName, hpointName, ne_eq, Option.some.injEq, ite_not]

/-- Every step keeps the variables at the rightmost nodes and looks for the child of its
strategy at the end. -/
theorem add_of_reached (strategy : τ → StrategyData) (consumer : τ → δ) {loop : Loop δ}
    (h : Reached loop) (data : τ) :
    ∃ loop', loop.add strategy consumer data = .ok loop' ∧ Reached loop' ∧
      loop'.read = (levelRuns strategy consumer).addLast loop.read data := by
  cases h with
  | start =>
      have hopen : Loop.openLevel {} (strategy data) (consumer data) =
          rightmost [] (strategy data).level [] [] (newPointJson (strategy data) (consumer data)) :=
        rfl
      refine ⟨_, rfl, ?_, ?_⟩
      · rw [hopen]
        exact .behind (by simp) (by simp)
      · rw [hopen, read_rightmost (by simp) (by simp)]
        rfl
  | @behind levelObjects name refs pointObjects point hlevels hrefs =>
      have hread := read_rightmost hlevels hrefs name point
      rw [hread, addLast_levelRuns, add_rightmost]
      by_cases hlevel : name = (strategy data).level
      · rw [if_pos hlevel, if_pos hlevel, addLast_pointRuns]
        by_cases hpoint : point.name = (strategy data).point
        · rw [if_pos hpoint, if_pos hpoint]
          refine ⟨_, rfl, ?_, ?_⟩
          · rw [addType_rightmost]
            exact .behind hlevels hrefs
          · rw [addType_rightmost, read_rightmost hlevels hrefs]
        · rw [if_neg hpoint, if_neg hpoint]
          refine ⟨_, rfl, ?_, ?_⟩
          · rw [openPoint_rightmost]
            exact .behind (levels_lt_concat hlevels point) (refs_lt_concat hrefs point)
          · rw [openPoint_rightmost, read_openPoint hlevels hrefs]
      · rw [if_neg hlevel, if_neg hlevel]
        refine ⟨_, rfl, ?_, ?_⟩
        · rw [openLevel_rightmost]
          exact .behind (forall_lt_concat hlevels hrefs name point) (by simp)
        · rw [openLevel_rightmost, read_openLevel hlevels hrefs, hread]
          rfl

/-- The loop gathers runs, and none of its variables is null where it is used. -/
theorem list2TreeNoMerge_eq (strategy : τ → StrategyData) (consumer : τ → δ) (list : List τ) :
    list2TreeNoMerge strategy consumer list =
      .ok ((levelRuns strategy consumer).gatherRuns list) := by
  have hrun : ∀ loop : Loop δ, Reached loop → ∃ loop',
      list.foldlM (Loop.add strategy consumer) loop = .ok loop' ∧
        loop'.read = list.foldl (levelRuns strategy consumer).addLast loop.read := by
    induction list with
    | nil => exact fun loop _ => ⟨loop, rfl, rfl⟩
    | cons data list ih =>
        intro loop hloop
        rcases add_of_reached strategy consumer hloop data with ⟨next, hadd, hnext, hread⟩
        rcases ih next hnext with ⟨loop', hrest, hread'⟩
        refine ⟨loop', ?_, ?_⟩
        · rw [List.foldlM_cons, hadd]
          exact hrest
        · rw [hread', hread, List.foldl_cons]
  rcases hrun {} .start with ⟨loop', hloop, hread⟩
  rw [list2TreeNoMerge, hloop, Effects.map_ok, hread]
  rfl

/-! ## Leaves and neighbours -/

/-- The leaves of a point below a level. -/
def PointJson.leaves (level : JString) (point : PointJson δ) : List (StrategyData × δ) :=
  point.list.map fun type =>
    ({ level := level, point := point.name, type := type.name }, type.added)

/-- The leaves of a level. -/
def LevelJson.leaves (level : LevelJson δ) : List (StrategyData × δ) :=
  level.list.flatMap (PointJson.leaves level.name)

/-- Every step adds its leaf at the end. -/
theorem leaves_addLast (strategy : τ → StrategyData) (consumer : τ → δ)
    (tree : List (LevelJson δ)) (data : τ) :
    leaves ((levelRuns strategy consumer).addLast tree data) =
      leaves tree ++ [(strategy data, consumer data)] := by
  refine Gathering.flatMap_addLast _ LevelJson.leaves (fun level hlevel => ?_) rfl
  refine Gathering.flatMap_addLast _ (PointJson.leaves level.name)
    (fun point hpoint => ?_) ?_
  · change level.name = (strategy data).level at hlevel
    change point.name = (strategy data).point at hpoint
    have hleaves : PointJson.leaves level.name ((pointRuns strategy consumer).update data point) =
        (point.list ++ [newTypeJson (strategy data) (consumer data)]).map fun type =>
          ({ level := level.name, point := point.name, type := type.name }, type.added) :=
      rfl
    rw [hleaves, List.map_append, hlevel, hpoint]
    simp [PointJson.leaves, newTypeJson, hpoint]
  · change level.name = (strategy data).level at hlevel
    rw [hlevel]
    rfl

theorem leaves_gatherRuns (strategy : τ → StrategyData) (consumer : τ → δ) (list : List τ) :
    leaves ((levelRuns strategy consumer).gatherRuns list) =
      list.map fun data => (strategy data, consumer data) := by
  have hrun : ∀ tree, leaves (list.foldl (levelRuns strategy consumer).addLast tree) =
      leaves tree ++ list.map fun data => (strategy data, consumer data) := by
    induction list with
    | nil => simp
    | cons data list ih =>
        intro tree
        rw [List.foldl_cons, ih, leaves_addLast]
        simp
  exact hrun []

/-- Neighbouring points of every level differ. -/
theorem isChain_points_gatherRuns (strategy : τ → StrategyData) (consumer : τ → δ)
    (list : List τ) :
    ∀ level ∈ (levelRuns strategy consumer).gatherRuns list,
      (level.list.map PointJson.name).IsChain (· ≠ ·) := by
  have hrun : ∀ tree : List (LevelJson δ),
      (∀ level ∈ tree, (level.list.map PointJson.name).IsChain (· ≠ ·)) →
        ∀ level ∈ list.foldl (levelRuns strategy consumer).addLast tree,
          (level.list.map PointJson.name).IsChain (· ≠ ·) := by
    induction list with
    | nil => exact fun _ h => h
    | cons data list ih =>
        intro tree htree
        refine ih _ (Gathering.forall_mem_addLast _ htree (fun level hlevel => ?_) ?_)
        · exact (pointRuns strategy consumer).isChain_keys_addLast hlevel data
        · exact List.isChain_singleton _
  exact hrun [] (by simp)

/-- The tree holds the list in its order, and neither neighbouring levels nor neighbouring
points of a level have the same name. -/
theorem list2TreeNoMerge_keeps_order (strategy : τ → StrategyData) (consumer : τ → δ)
    (list : List τ) :
    ∃ tree, list2TreeNoMerge strategy consumer list = .ok tree ∧
      leaves tree = list.map (fun data => (strategy data, consumer data)) ∧
      (tree.map LevelJson.name).IsChain (· ≠ ·) ∧
      ∀ level ∈ tree, (level.list.map PointJson.name).IsChain (· ≠ ·) :=
  ⟨_, list2TreeNoMerge_eq strategy consumer list, leaves_gatherRuns strategy consumer list,
    (levelRuns strategy consumer).isChain_keys_gatherRuns list,
    isChain_points_gatherRuns strategy consumer list⟩

/-! ## Grouped lists -/

/-- Equal levels are contiguous, equal points are contiguous within a level, and no
strategy is repeated. -/
structure Grouped (strategy : τ → StrategyData) (list : List τ) : Prop where
  levels : Contiguous (list.map fun data => (strategy data).level)
  points : ∀ data ∈ list,
    Contiguous ((list.filter fun other => (strategy other).level = (strategy data).level).map
      fun other => (strategy other).point)
  distinct : (list.map strategy).Nodup

/-- Types that differ are all added. -/
theorem foldl_types_eq {strategy : τ → StrategyData} (consumer : τ → δ) {list : List τ}
    (h : (list.map fun data => (strategy data).type).Nodup) :
    list.foldl (fun types data => types ++ [newTypeJson (strategy data) (consumer data)]) [] =
      list.foldl (typeGathering strategy consumer).add [] := by
  have hrun : ∀ types : List (TypeJson δ),
      (types.map TypeJson.name ++ list.map fun data => (strategy data).type).Nodup →
        list.foldl (fun types data => types ++ [newTypeJson (strategy data) (consumer data)])
          types = list.foldl (typeGathering strategy consumer).add types := by
    clear h
    induction list with
    | nil => exact fun _ _ => rfl
    | cons data list ih =>
        intro types htypes
        rw [List.map_cons] at htypes
        have hnew : (strategy data).type ∉ types.map TypeJson.name := by
          rw [List.nodup_middle, List.nodup_cons] at htypes
          exact fun hmem => htypes.1 (List.mem_append_left _ hmem)
        have hadd : (typeGathering strategy consumer).add types data =
            types ++ [newTypeJson (strategy data) (consumer data)] :=
          Siblings.upsert_of_not_mem hnew
        rw [List.foldl_cons, List.foldl_cons, hadd]
        apply ih _
        rw [List.map_append, List.append_assoc]
        exact htypes
  exact hrun [] h

/-- Below one point of one level the types differ. -/
theorem Grouped.types {strategy : τ → StrategyData} {list : List τ} (h : Grouped strategy list)
    (level point : JString) :
    (((list.filter fun data => (strategy data).level = level).filter
      fun data => (strategy data).point = point).map fun data => (strategy data).type).Nodup := by
  have hsub : (((list.filter fun data => (strategy data).level = level).filter
      fun data => (strategy data).point = point).map strategy).Nodup :=
    h.distinct.sublist ((List.filter_sublist.trans List.filter_sublist).map strategy)
  have hmap := hsub.map_on (f := StrategyData.type) ?_
  · rwa [List.map_map] at hmap
  · intro s hs t ht htype
    rcases List.mem_map.mp hs with ⟨data, hdata, rfl⟩
    rcases List.mem_map.mp ht with ⟨other, hother, rfl⟩
    rcases List.mem_filter.mp hdata with ⟨hdata, hpoint⟩
    rcases List.mem_filter.mp hother with ⟨hother, hpoint'⟩
    have hlevel := of_decide_eq_true (List.mem_filter.mp hdata).2
    have hlevel' := of_decide_eq_true (List.mem_filter.mp hother).2
    have hpoint := of_decide_eq_true hpoint
    have hpoint' := of_decide_eq_true hpoint'
    exact (strategy_eq_iff _ _ _ _).mpr
      ⟨hlevel.trans hlevel'.symm, hpoint.trans hpoint'.symm, htype⟩

/-- On a grouped list both builders make the same tree. -/
theorem list2TreeNoMerge_eq_list2TreeJson {strategy : τ → StrategyData} (consumer : τ → δ)
    {list : List τ} (h : Grouped strategy list) :
    list2TreeNoMerge strategy consumer list = .ok (list2TreeJson strategy consumer list) := by
  rw [list2TreeNoMerge_eq, list2TreeJson_eq_gather]
  refine congrArg Except.ok (@gatherRuns_eq_gather _ _ _ _ (levelGathering strategy consumer)
    (levelRuns strategy consumer) rfl _ h.levels fun data hdata => ?_)
  refine Gathering.child_above_congr _ (fun _ _ => rfl) ?_
  refine @gatherRuns_eq_gather _ _ _ _ (pointGathering strategy consumer)
    (pointRuns strategy consumer) rfl _ (h.points data hdata) fun other _ => ?_
  refine Gathering.child_above_congr _ (fun _ _ => rfl) ?_
  exact foldl_types_eq consumer (h.types _ _)

/-- Two levels of which the first has two points. -/
theorem list2TreeNoMerge_eq_list2TreeJson_sample :
    list2TreeNoMerge id (fun data => data.type.length)
        [⟨jstr "A", jstr "a", jstr "x"⟩, ⟨jstr "A", jstr "a", jstr "y"⟩,
          ⟨jstr "A", jstr "b", jstr "x"⟩, ⟨jstr "B", jstr "a", jstr "x"⟩] =
      .ok (list2TreeJson id (fun data => data.type.length)
        [⟨jstr "A", jstr "a", jstr "x"⟩, ⟨jstr "A", jstr "a", jstr "y"⟩,
          ⟨jstr "A", jstr "b", jstr "x"⟩, ⟨jstr "B", jstr "a", jstr "x"⟩]) := by
  exact list2TreeNoMerge_eq_list2TreeJson _ ⟨by decide, by decide, by decide⟩

end QuestionUtil
end TestAio
