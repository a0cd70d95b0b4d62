import TestAio.Java.Text
import TestAio.Library.Siblings

/-!
# Building strategy trees

{lit}`QuestionUtil` turns a list of strategies into a tree of levels, points and types
in two ways: {lit}`list2Tree` into the classes of {lit}`QuestionData`, and an overload
with a consumer into JSON.  Both look for the first sibling with a name; only the
JSON overload asks whether a type is there already, because the loop that asks for
it in the other one leaves nothing but itself.

Main results:

- Theorem {lit}`tree2List_list2Tree`: the tree of {lit}`list2Tree` has one leaf for every
  strategy of the list.
- Theorem {lit}`nodup_tree2List_array2List`: the JSON tree has no strategy twice.
- Theorem {lit}`array2List_list2TreeJson_eq_iff`: the overloads agree exactly on lists
  without repetitions.
- Theorem {lit}`list2Tree_tree2List`: a tree with distinct siblings and without empty child
  lists is rebuilt from its leaves.

Current gaps:

- The JSON objects hold the keys {lit}`name` and {lit}`list` and what the consumer adds.
-/

namespace TestAio
namespace QuestionUtil

open Library.Siblings

/-! ## Data -/

/-- {lit}`net.cjsah.data.StrategyData`. -/
structure StrategyData where
  level : JString
  point : JString
  type : JString
deriving DecidableEq

/-- {lit}`QuestionData.TypeTree`. -/
structure TypeTree where
  name : JString
deriving DecidableEq

/-- {lit}`QuestionData.PointTree`. -/
structure PointTree where
  name : JString
  list : List TypeTree
deriving DecidableEq

/-- {lit}`QuestionData.LevelTree`. -/
structure LevelTree where
  name : JString
  list : List PointTree
deriving DecidableEq

/-- The JSON object of a type: its name and what the consumer added. -/
structure TypeJson (δ : Type) where
  name : JString
  added : δ
deriving DecidableEq

/-- The JSON object of a point. -/
structure PointJson (δ : Type) where
  name : JString
  list : List (TypeJson δ)
deriving DecidableEq

/-- The JSON object of a level. -/
structure LevelJson (δ : Type) where
  name : JString
  list : List (PointJson δ)
deriving DecidableEq

variable {τ δ : Type}

/-! ## The functions -/

/-- {lit}`QuestionUtil.tree2List`. -/
def tree2List (levels : List LevelTree) : List StrategyData :=
  levels.flatMap fun level =>
    level.list.flatMap fun point =>
      point.list.map fun type =>
        { level := level.name, point := point.name, type := type.name }

/-- A new point with its first type. -/
def newPoint (data : StrategyData) : PointTree where
  name := data.point
  list := [{ name := data.type }]

/-- A new level with its first point. -/
def newLevel (data : StrategyData) : LevelTree where
  name := data.level
  list := [newPoint data]

/-- The branch for a point that is there.  The loop over its types ends at an equal
name, and the type is added behind the loop in any case. -/
def addToPoint (data : StrategyData) (point : PointTree) : PointTree :=
  { point with list := point.list ++ [{ name := data.type }] }

/-- The branch for a level that is there. -/
def addToLevel (data : StrategyData) (level : LevelTree) : LevelTree :=
  { level with
    list := upsert PointTree.name data.point (addToPoint data) (newPoint data) level.list }

/-- The body of the loop of {lit}`list2Tree(List)`. -/
def addToTree (levels : List LevelTree) (data : StrategyData) : List LevelTree :=
  upsert LevelTree.name data.level (addToLevel data) (newLevel data) levels

/-- {lit}`QuestionUtil.list2Tree(List)`. -/
def list2Tree (list : List StrategyData) : List LevelTree :=
  list.foldl addToTree []

/-- A new JSON object for a type; {lit}`added` is what the consumer puts into it. -/
def newTypeJson (data : StrategyData) (added : δ) : TypeJson δ where
  name := data.type
  added := added

/-- A new JSON object for a point with its first type. -/
def newPointJson (data : StrategyData) (added : δ) : PointJson δ where
  name := data.point
  list := [newTypeJson data added]

/-- A new JSON object for a level with its first point. -/
def newLevelJson (data : StrategyData) (added : δ) : LevelJson δ where
  name := data.level
  list := [newPointJson data added]

/-- The branch for a point that is there: a type with a name that is there is dropped. -/
def addToPointJson (data : StrategyData) (added : δ) (point : PointJson δ) : PointJson δ :=
  if point.list.any fun it => it.name == data.type then point
  else { point with list := point.list ++ [newTypeJson data added] }

/-- The branch for a level that is there. -/
def addToLevelJson (data : StrategyData) (added : δ) (level : LevelJson δ) : LevelJson δ :=
  { level with
    list := upsert PointJson.name data.point (addToPointJson data added)
      (newPointJson data added) level.list }

/-- The body of the loop of {lit}`list2Tree(List, BiConsumer)`. -/
def addToJson (strategy : τ → StrategyData) (consumer : τ → δ)
    (levels : List (LevelJson δ)) (data : τ) : List (LevelJson δ) :=
  upsert LevelJson.name (strategy data).level (addToLevelJson (strategy data) (consumer data))
    (newLevelJson (strategy data) (consumer data)) levels

/-- {lit}`QuestionUtil.list2Tree(List, BiConsumer)`. -/
def list2TreeJson (strategy : τ → StrategyData) (consumer : τ → δ) (list : List τ) :
    List (LevelJson δ) :=
  list.foldl (addToJson strategy consumer) []

/-- The body of the inner loops of {lit}`array2List`. -/
def PointJson.toTree (point : PointJson δ) : PointTree where
  name := point.name
  list := point.list.map fun type => { name := type.name }

/-- The body of the outer loop of {lit}`array2List`. -/
def LevelJson.toTree (level : LevelJson δ) : LevelTree where
  name := level.name
  list := level.list.map PointJson.toTree

/-- {lit}`QuestionUtil.array2List`. -/
def array2List (array : List (LevelJson δ)) : List LevelTree :=
  array.map LevelJson.toTree

/-! ## The leaves of the tree -/

/-- The strategies of a point below a level. -/
def PointTree.strategies (level : JString) (point : PointTree) : List StrategyData :=
  point.list.map fun type => { level := level, point := point.name, type := type.name }

/-- The strategies below a level. -/
def LevelTree.strategies (level : LevelTree) : List StrategyData :=
  level.list.flatMap (PointTree.strategies level.name)

theorem tree2List_eq (levels : List LevelTree) :
    tree2List levels = levels.flatMap LevelTree.strategies :=
  rfl

theorem strategies_addToPoint {data : StrategyData} {level : JString} {point : PointTree}
    (hlevel : level = data.level) (hpoint : point.name = data.point) :
    (addToPoint data point).strategies level = point.strategies level ++ [data] := by
  simp [PointTree.strategies, addToPoint, hlevel, hpoint]

theorem strategies_addToLevel {data : StrategyData} {level : LevelTree}
    (hlevel : level.name = data.level) :
    (addToLevel data level).strategies.Perm (level.strategies ++ [data]) := by
  refine flatMap_upsert_perm (fun point _ hpoint => ?_) ?_
  · exact List.Perm.of_eq (strategies_addToPoint hlevel hpoint)
  · simp [PointTree.strategies, newPoint, addToLevel, hlevel]

/-- Every step of {lit}`list2Tree` adds its strategy as a leaf. -/
theorem tree2List_addToTree (levels : List LevelTree) (data : StrategyData) :
    (tree2List (addToTree levels data)).Perm (tree2List levels ++ [data]) :=
  flatMap_upsert_perm (fun _ _ hlevel => strategies_addToLevel hlevel) rfl

/-- The tree of {lit}`list2Tree` has one leaf for every strategy of the list. -/
theorem tree2List_list2Tree (list : List StrategyData) :
    (tree2List (list2Tree list)).Perm list := by
  have hrun : ∀ levels, (tree2List (list.foldl addToTree levels)).Perm
      (tree2List levels ++ list) := by
    induction list with
    | nil =>
        intro levels
        simp
    | cons data list ih =>
        intro levels
        refine (ih _).trans ?_
        rw [List.append_cons]
        exact (tree2List_addToTree levels data).append_right _
  exact hrun []

/-! ## The JSON tree has distinct siblings -/

/-- The names of the types of a point are distinct. -/
def PointJson.Distinct (point : PointJson δ) : Prop :=
  (point.list.map TypeJson.name).Nodup

/-- The names of the points of a level are distinct, and so are their types. -/
structure LevelJson.Distinct (level : LevelJson δ) : Prop where
  names : (level.list.map PointJson.name).Nodup
  points : ∀ point ∈ level.list, point.Distinct

/-- All sibling names of a JSON tree are distinct. -/
structure DistinctSiblings (levels : List (LevelJson δ)) : Prop where
  names : (levels.map LevelJson.name).Nodup
  levels : ∀ level ∈ levels, level.Distinct

theorem addToPointJson_name (data : StrategyData) (added : δ) (point : PointJson δ) :
    (addToPointJson data added point).name = point.name := by
  unfold addToPointJson
  split_ifs <;> rfl

theorem PointJson.Distinct.add {point : PointJson δ} (h : point.Distinct)
    (data : StrategyData) (added : δ) : (addToPointJson data added point).Distinct := by
  unfold addToPointJson
  split_ifs with hany
  · exact h
  · unfold PointJson.Distinct
    simp only [List.map_append, List.map_singleton]
    rw [List.nodup_append]
    refine ⟨h, List.nodup_singleton _, ?_⟩
    intro a ha b hb hab
    rcases List.mem_map.mp ha with ⟨type, htype, rfl⟩
    rw [List.mem_singleton] at hb
    refine hany (List.any_eq_true.mpr ⟨type, htype, ?_⟩)
    rw [hab, hb]
    exact beq_self_eq_true _

theorem LevelJson.Distinct.add {level : LevelJson δ} (h : level.Distinct)
    (data : StrategyData) (added : δ) : (addToLevelJson data added level).Distinct where
  names := nodup_keys_upsert h.names (addToPointJson_name data added) rfl
  points := forall_mem_upsert h.points (fun point hpoint _ => (h.points point hpoint).add _ _)
    (List.nodup_singleton _)

/-- Every step of the JSON overload keeps sibling names distinct. -/
theorem DistinctSiblings.add {levels : List (LevelJson δ)} (h : DistinctSiblings levels)
    (strategy : τ → StrategyData) (consumer : τ → δ) (data : τ) :
    DistinctSiblings (addToJson strategy consumer levels data) where
  names := nodup_keys_upsert h.names (fun _ => rfl) rfl
  levels := by
    refine forall_mem_upsert h.levels (fun level hlevel _ => (h.levels level hlevel).add _ _) ?_
    refine ⟨List.nodup_singleton _, fun point hpoint => ?_⟩
    rw [List.mem_singleton.mp hpoint]
    exact List.nodup_singleton _

/-- The sibling names of the JSON tree are distinct. -/
theorem distinctSiblings_list2TreeJson (strategy : τ → StrategyData) (consumer : τ → δ)
    (list : List τ) : DistinctSiblings (list2TreeJson strategy consumer list) := by
  have hrun : ∀ levels : List (LevelJson δ), DistinctSiblings levels →
      DistinctSiblings (list.foldl (addToJson strategy consumer) levels) := by
    induction list with
    | nil => exact fun _ h => h
    | cons data list ih => exact fun _ h => ih _ (h.add strategy consumer data)
  exact hrun [] ⟨List.nodup_nil, by simp⟩

/-- Distinct sibling names make distinct leaves. -/
theorem nodup_tree2List_array2List {levels : List (LevelJson δ)} (h : DistinctSiblings levels) :
    (tree2List (array2List levels)).Nodup := by
  rw [tree2List_eq, array2List, List.flatMap_map]
  refine nodup_flatMap_of_keys StrategyData.level h.names (fun level hlevel => ?_)
    (fun level _ leaf hleaf => ?_)
  · have hlevel := h.levels level hlevel
    simp only [LevelTree.strategies, LevelJson.toTree, List.flatMap_map]
    refine nodup_flatMap_of_keys StrategyData.point hlevel.names
      (fun point hpoint => ?_) (fun point _ leaf hleaf => ?_)
    · simp only [PointTree.strategies, PointJson.toTree, List.map_map]
      refine List.Nodup.of_map StrategyData.type ?_
      rw [List.map_map]
      exact hlevel.points point hpoint
    · rcases List.mem_map.mp hleaf with ⟨type, -, rfl⟩
      rfl
  · rcases List.mem_flatMap.mp hleaf with ⟨point, -, hleaf⟩
    rcases List.mem_map.mp hleaf with ⟨type, -, rfl⟩
    rfl

/-! ## The overloads agree on lists without repetitions -/

theorem toTree_addToPointJson {data : StrategyData} {point : PointJson δ} (added : δ)
    (hnew : ∀ type ∈ point.list, type.name ≠ data.type) :
    (addToPointJson data added point).toTree = addToPoint data point.toTree := by
  unfold addToPointJson
  rw [if_neg]
  · simp [PointJson.toTree, addToPoint, newTypeJson]
  · rw [List.any_eq_true]
    rintro ⟨type, htype, heq⟩
    exact hnew type htype (beq_iff_eq.mp heq)

theorem toTree_addToLevelJson {data : StrategyData} {level : LevelJson δ} (added : δ)
    (hnew : ∀ point ∈ level.list, point.name = data.point →
      ∀ type ∈ point.list, type.name ≠ data.type) :
    (addToLevelJson data added level).toTree = addToLevel data level.toTree := by
  unfold addToLevelJson addToLevel LevelJson.toTree
  congr 1
  exact map_upsert (fun _ => rfl) fun point hpoint hname =>
    toTree_addToPointJson added (hnew point hpoint hname)

/-- For a strategy that is not in the tree yet the two loop bodies agree. -/
theorem array2List_addToJson {strategy : τ → StrategyData} {consumer : τ → δ}
    {levels : List (LevelJson δ)} {data : τ}
    (hnew : strategy data ∉ tree2List (array2List levels)) :
    array2List (addToJson strategy consumer levels data) =
      addToTree (array2List levels) (strategy data) := by
  refine map_upsert (fun _ => rfl) fun level hlevel hlevelName => ?_
  refine toTree_addToLevelJson _ fun point hpoint hpointName type htype htypeName => hnew ?_
  rw [tree2List_eq, array2List, List.flatMap_map]
  refine List.mem_flatMap.mpr ⟨level, hlevel, ?_⟩
  simp only [LevelTree.strategies, LevelJson.toTree, List.flatMap_map]
  refine List.mem_flatMap.mpr ⟨point, hpoint, ?_⟩
  simp only [PointTree.strategies, PointJson.toTree, List.map_map]
  refine List.mem_map.mpr ⟨type, htype, ?_⟩
  simp [hlevelName, hpointName, htypeName]

/-- On a list without repetitions the overloads build the same tree. -/
theorem array2List_list2TreeJson {strategy : τ → StrategyData} {consumer : τ → δ}
    {list : List τ} (h : (list.map strategy).Nodup) :
    array2List (list2TreeJson strategy consumer list) = list2Tree (list.map strategy) := by
  have hrun : ∀ levels : List (LevelJson δ),
      (∀ data ∈ list, strategy data ∉ tree2List (array2List levels)) →
      array2List (list.foldl (addToJson strategy consumer) levels) =
        (list.map strategy).foldl addToTree (array2List levels) := by
    induction list with
    | nil => exact fun _ _ => rfl
    | cons data list ih =>
        intro levels hnew
        rw [List.map_cons, List.nodup_cons] at h
        have hstep : array2List (addToJson strategy consumer levels data) =
            addToTree (array2List levels) (strategy data) :=
          array2List_addToJson (hnew data (by simp))
        rw [List.foldl_cons, ih h.2, hstep, List.map_cons, List.foldl_cons]
        intro later hlater hmem
        -- The leaves are those from before and the one just added.
        rw [hstep, (tree2List_addToTree _ _).mem_iff, List.mem_append,
          List.mem_singleton] at hmem
        rcases hmem with hmem | heq
        · exact hnew later (by simp [hlater]) hmem
        · exact h.1 (heq ▸ List.mem_map_of_mem hlater)
  exact hrun [] (by simp [array2List, tree2List])

/-- With a consumer that does nothing, the overloads build the same tree exactly for
lists in which no strategy is repeated. -/
theorem array2List_list2TreeJson_eq_iff (list : List StrategyData) :
    array2List (list2TreeJson id (fun _ => ()) list) = list2Tree list ↔ list.Nodup := by
  constructor
  · intro h
    have hnodup := nodup_tree2List_array2List
      (distinctSiblings_list2TreeJson id (fun _ => ()) list)
    rw [h] at hnodup
    exact (tree2List_list2Tree list).nodup_iff.mp hnodup
  · intro h
    rw [array2List_list2TreeJson (by simpa using h), List.map_id]

/-- A repeated strategy is dropped by one overload and kept by the other. -/
theorem repeated_strategy_kept_once :
    array2List (list2TreeJson id (fun _ => ())
        [⟨jstr "A", jstr "b", jstr "c"⟩, ⟨jstr "A", jstr "b", jstr "c"⟩]) ≠
      list2Tree [⟨jstr "A", jstr "b", jstr "c"⟩, ⟨jstr "A", jstr "b", jstr "c"⟩] := by
  decide

/-! ## Rebuilding a flattened tree -/

/-- A point with types, of distinct names. -/
structure PointTree.Filled (point : PointTree) : Prop where
  nonempty : point.list ≠ []
  names : (point.list.map TypeTree.name).Nodup

/-- A level with filled points, of distinct names. -/
structure LevelTree.Filled (level : LevelTree) : Prop where
  nonempty : level.list ≠ []
  names : (level.list.map PointTree.name).Nodup
  points : ∀ point ∈ level.list, point.Filled

/-- A tree whose siblings have distinct names and whose child lists are not empty. -/
structure Filled (levels : List LevelTree) : Prop where
  names : (levels.map LevelTree.name).Nodup
  levels : ∀ level ∈ levels, level.Filled

variable {levels : List LevelTree} {level : JString}

/-- A strategy for the last level is added there. -/
theorem addToTree_last {points : List PointTree} (point type : JString)
    (hlevel : level ∉ levels.map LevelTree.name) :
    addToTree (levels ++ [{ name := level, list := points }]) ⟨level, point, type⟩ =
      levels ++ [{ name := level
                   list := upsert PointTree.name point (addToPoint ⟨level, point, type⟩)
                     (newPoint ⟨level, point, type⟩) points }] :=
  upsert_append_singleton hlevel rfl

/-- A new level is opened as if it had been there without points. -/
theorem addToTree_new {data : StrategyData} (hlevel : data.level ∉ levels.map LevelTree.name) :
    addToTree levels data = addToTree (levels ++ [{ name := data.level, list := [] }]) data := by
  have hlast := @addToTree_last levels data.level [] data.point data.type hlevel
  exact (upsert_of_not_mem hlevel).trans hlast.symm

/-- The strategies of further types go to the last point of the last level. -/
theorem foldl_types {points : List PointTree} {point : PointTree}
    (hlevel : level ∉ levels.map LevelTree.name)
    (hpoint : point.name ∉ points.map PointTree.name) (types : List TypeTree) :
    (PointTree.strategies level { point with list := types }).foldl addToTree
        (levels ++ [{ name := level, list := points ++ [point] }]) =
      levels ++ [{ name := level
                   list := points ++ [{ point with list := point.list ++ types }] }] := by
  induction types generalizing point with
  | nil => simp [PointTree.strategies]
  | cons type types ih =>
      have hrest := @ih { point with list := point.list ++ [type] } hpoint
      rw [PointTree.strategies, List.map_cons, List.foldl_cons, addToTree_last _ _ hlevel,
        upsert_append_singleton hpoint rfl]
      refine hrest.trans ?_
      simp

/-- The strategies of a new point open it behind the points of the last level. -/
theorem foldl_point {points : List PointTree} {point : PointTree}
    (hlevel : level ∉ levels.map LevelTree.name)
    (hpoint : point.name ∉ points.map PointTree.name) (hnonempty : point.list ≠ []) :
    (point.strategies level).foldl addToTree (levels ++ [{ name := level, list := points }]) =
      levels ++ [{ name := level, list := points ++ [point] }] := by
  rcases List.exists_cons_of_ne_nil hnonempty with ⟨type, types, htypes⟩
  have hrest := @foldl_types levels level points { point with list := [type] } hlevel hpoint types
  have hpointEq : { point with list := [type] ++ types } = point := by
    rw [List.singleton_append, ← htypes]
  rw [hpointEq] at hrest
  rw [PointTree.strategies, htypes, List.map_cons, List.foldl_cons, addToTree_last _ _ hlevel,
    upsert_of_not_mem hpoint]
  exact hrest

/-- The strategies of new points open them one after the other. -/
theorem foldl_points {points more : List PointTree} (hlevel : level ∉ levels.map LevelTree.name)
    (hnames : ((points ++ more).map PointTree.name).Nodup)
    (hfilled : ∀ point ∈ more, point.Filled) :
    (more.flatMap (PointTree.strategies level)).foldl addToTree
        (levels ++ [{ name := level, list := points }]) =
      levels ++ [{ name := level, list := points ++ more }] := by
  induction more generalizing points with
  | nil => simp
  | cons point more ih =>
      have hpoint : point.name ∉ points.map PointTree.name := by
        rw [List.map_append, List.map_cons, List.nodup_middle, List.nodup_cons] at hnames
        exact fun hmem => hnames.1 (List.mem_append_left _ hmem)
      rw [List.append_cons] at hnames
      rw [List.flatMap_cons, List.foldl_append,
        foldl_point hlevel hpoint (hfilled point (by simp)).nonempty,
        ih hnames fun p hp => hfilled p (by simp [hp])]
      simp

/-- The strategies of a level name it, and a filled level has some. -/
theorem LevelTree.Filled.exists_strategies {level : LevelTree} (h : level.Filled) :
    ∃ data rest, level.strategies = data :: rest ∧ data.level = level.name := by
  rcases List.exists_cons_of_ne_nil h.nonempty with ⟨point, points, hpoints⟩
  have hpoint : point.Filled := h.points point (by simp [hpoints])
  rcases List.exists_cons_of_ne_nil hpoint.nonempty with ⟨type, types, htypes⟩
  rw [LevelTree.strategies, hpoints, List.flatMap_cons, PointTree.strategies, htypes,
    List.map_cons]
  exact ⟨_, _, rfl, rfl⟩

/-- The strategies of a new level open it behind the levels so far. -/
theorem foldl_level {level : LevelTree} (hlevel : level.name ∉ levels.map LevelTree.name)
    (hfilled : level.Filled) :
    level.strategies.foldl addToTree levels = levels ++ [level] := by
  have hpoints := @foldl_points levels level.name [] level.list hlevel hfilled.names
    hfilled.points
  rcases hfilled.exists_strategies with ⟨data, rest, hdata, hname⟩
  change level.strategies.foldl addToTree _ = _ at hpoints
  rw [hdata, List.foldl_cons] at hpoints ⊢
  rw [addToTree_new (hname ▸ hlevel), hname]
  exact hpoints

/-- Flattening a filled tree and building it again gives the tree back. -/
theorem list2Tree_tree2List {levels : List LevelTree} (h : Filled levels) :
    list2Tree (tree2List levels) = levels := by
  have hrun : ∀ done rest : List LevelTree, Filled (done ++ rest) →
      (tree2List rest).foldl addToTree done = done ++ rest := by
    intro done rest
    induction rest generalizing done with
    | nil => simp [tree2List]
    | cons level rest ih =>
        intro hfilled
        have hlevel : level.name ∉ done.map LevelTree.name := by
          have hnames := hfilled.names
          rw [List.map_append, List.map_cons, List.nodup_middle, List.nodup_cons] at hnames
          exact fun hmem => hnames.1 (List.mem_append_left _ hmem)
        rw [tree2List_eq, List.flatMap_cons, List.foldl_append,
          foldl_level hlevel (hfilled.levels level (by simp)), ← tree2List_eq]
        rw [List.append_cons done level rest] at hfilled ⊢
        exact ih (done ++ [level]) hfilled
  exact hrun [] levels h

/-- A tree with two levels and three points. -/
theorem list2Tree_tree2List_sample :
    list2Tree (tree2List
        [{ name := jstr "A"
           list := [{ name := jstr "a", list := [⟨jstr "x"⟩, ⟨jstr "y"⟩] },
             { name := jstr "b", list := [⟨jstr "x"⟩] }] },
          { name := jstr "B", list := [{ name := jstr "a", list := [⟨jstr "z"⟩] }] }]) =
      [{ name := jstr "A"
         list := [{ name := jstr "a", list := [⟨jstr "x"⟩, ⟨jstr "y"⟩] },
           { name := jstr "b", list := [⟨jstr "x"⟩] }] },
        { name := jstr "B", list := [{ name := jstr "a", list := [⟨jstr "z"⟩] }] }] := by
  refine list2Tree_tree2List ⟨by decide, ?_⟩
  simp only [List.forall_mem_cons, List.not_mem_nil, false_implies, implies_true, and_true]
  refine ⟨⟨by decide, by decide, ?_⟩, ⟨by decide, by decide, ?_⟩⟩
  · simp only [List.forall_mem_cons, List.not_mem_nil, false_implies, implies_true, and_true]
    exact ⟨⟨by decide, by decide⟩, ⟨by decide, by decide⟩⟩
  · simp only [List.forall_mem_cons, List.not_mem_nil, false_implies, implies_true, and_true]
    exact ⟨by decide, by decide⟩

end QuestionUtil
end TestAio
