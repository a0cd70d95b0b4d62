import TestAio.Util.DocUtil.TextOrder

/-!
# The width of a column

{lit}`parseTable` divides the width of a table by the number of cells of a row, for every row
of every table that the conversion reaches.  Nothing else in the conversion fails once there
is enough fuel.

Main results:

- Theorem {lit}`flow_error`: a run that fails has used up its fuel or has met a row without
  cells.
- Theorem {lit}`ReachesTable.row_ne_nil`: a run that returns has met no such row.
- Theorem {lit}`parseHtmlNode_divides_iff`: the conversion never divides by zero exactly when
  every row it reaches has a cell.

Current gaps:

- None.
-/

namespace TestAio
namespace DocUtil

open Library

/-! ## Tables that the conversion reaches -/

/-- The conversion of some nodes reaches a table, given by its children: outside every other
table, or in a cell of a row of one. -/
inductive ReachesTable : List Node → List Node → Prop
  | table {nodes src table} : .element .table src table ∈ nodes → ReachesTable nodes table
  | inline {nodes tag src childNodes table} : .element tag src childNodes ∈ nodes →
      tag ∈ inlineTags → ReachesTable childNodes table → ReachesTable nodes table
  | cell {nodes src outer tr td table} : .element .table src outer ∈ nodes →
      tr ∈ getElementsByTag .tr outer → td ∈ getElementsByTag .td tr →
      ReachesTable td table → ReachesTable nodes table

/-- Every row of every table that is reached has a cell. -/
def EveryRowHasCell (nodes : List Node) : Prop :=
  ∀ table, ReachesTable nodes table → ∀ tr ∈ getElementsByTag .tr table,
    getElementsByTag .td tr ≠ []

theorem EveryRowHasCell.inline {nodes : List Node} (h : EveryRowHasCell nodes) {tag : Tag}
    {src : JString} {childNodes : List Node} (hmem : .element tag src childNodes ∈ nodes)
    (htag : tag ∈ inlineTags) : EveryRowHasCell childNodes :=
  fun table htable => h table (.inline hmem htag htable)

theorem EveryRowHasCell.cell {nodes : List Node} (h : EveryRowHasCell nodes) {src : JString}
    {outer tr td : List Node} (hmem : .element .table src outer ∈ nodes)
    (htr : tr ∈ getElementsByTag .tr outer) (htd : td ∈ getElementsByTag .td tr) :
    EveryRowHasCell td :=
  fun table htable => h table (.cell hmem htr htd htable)

/-! ## One node -/

variable {env : Env} {fuel : Nat} {format : RPr} {bolds italics : List WordNode}

/-- A node is a text, an inline element, a table, or nothing of it can fail. -/
theorem nodeFlow_cases (env : Env) (format : RPr) (bolds italics : List WordNode) (node : Node) :
    (∃ value, node = .text value) ∨
      (∃ tag src childNodes, node = .element tag src childNodes ∧ tag ∈ inlineTags) ∨
      (∃ src table, node = .element .table src table) ∨
      ∃ items, ∀ fuel, nodeFlow env fuel format bolds italics node = .ok items := by
  have hinline : ∀ tag ∈ inlineTags, ∀ src childNodes, node = .element tag src childNodes →
      ∃ tag src childNodes, node = .element tag src childNodes ∧ tag ∈ inlineTags :=
    fun tag htag src childNodes hnode => ⟨tag, src, childNodes, hnode, htag⟩
  cases node with
  | text value => exact Or.inl ⟨value, rfl⟩
  | comment => exact Or.inr (Or.inr (Or.inr ⟨[], fun _ => rfl⟩))
  | other => exact Or.inr (Or.inr (Or.inr ⟨[], fun _ => rfl⟩))
  | element tag src childNodes =>
      cases tag with
      | table => exact Or.inr (Or.inr (Or.inl ⟨src, childNodes, rfl⟩))
      | br => exact Or.inr (Or.inr (Or.inr ⟨_, fun _ => rfl⟩))
      | img =>
          refine Or.inr (Or.inr (Or.inr ?_))
          cases hbody : env.download src with
          | some body => exact ⟨[.image body], fun fuel => by simp [nodeFlow, hbody]⟩
          | none => exact ⟨[], fun fuel => by simp [nodeFlow, hbody]⟩
      | tr | td | other => exact Or.inr (Or.inr (Or.inr ⟨[], fun _ => rfl⟩))
      | strong | div | span | center | bdo | p | u =>
          exact Or.inr (Or.inl (hinline _ (by simp [inlineTags]) src childNodes rfl))

/-! ## Failures -/

/-- Cutting a text fails for want of fuel only. -/
theorem cutText_error {value : JString} {e : Abort}
    (h : cutText fuel value bolds italics = .error e) : e = .outOfFuel := by
  have hpass : ∀ o : Option (List PassageNode),
      o.elim (Except.error Abort.outOfFuel) Except.ok = .error e → e = .outOfFuel := by
    intro o ho
    cases o with
    | none =>
        cases ho
        rfl
    | some results => cases ho
  -- The passes for the two lists are left out when the lists are empty.
  have hitalicPass : ∀ marked, (if italics.isEmpty then Except.ok marked
      else (parsePassage fuel marked italics .italic true).elim (Except.error Abort.outOfFuel)
        Except.ok) = .error e → e = .outOfFuel := by
    intro marked hmarked
    split_ifs at hmarked
    exact hpass _ hmarked
  rcases Effects.bind_eq_error_iff.mp h with hlines | ⟨lines, -, hbold⟩
  · exact hpass _ hlines
  · cases hempty : bolds.isEmpty with
    | true =>
        simp only [hempty, if_true, Effects.ok_bind] at hbold
        exact hitalicPass _ hbold
    | false =>
        simp only [hempty, Bool.false_eq_true, if_false] at hbold
        rcases Effects.bind_eq_error_iff.mp hbold with hbold | ⟨marked, -, hitalic⟩
        · exact hpass _ hbold
        · exact hitalicPass _ hitalic

/-- A text fails for want of fuel only. -/
theorem nodeFlow_text_error {value : JString} {e : Abort}
    (h : nodeFlow env fuel format bolds italics (.text value) = .error e) : e = .outOfFuel := by
  cases hcut : cutText fuel value bolds italics with
  | error d =>
      rw [nodeFlow, hcut] at h
      cases h
      exact cutText_error hcut
  | ok results =>
      rcases exists_mapM_pieceItem format (cutText_italicised hcut)
        (cutText_breaksAtLineFeed hcut) with ⟨items, hitems, -⟩
      rw [nodeFlow, hcut, Effects.ok_bind, hitems] at h
      cases h

/-- A table fails at a row without cells, or in a cell. -/
theorem tableFlow_error {table : List Node} {e : Abort}
    (h : tableFlow env fuel table bolds italics = .error e) :
    e = .outOfFuel ∨ ∃ tr ∈ getElementsByTag .tr table,
      (e = .arithmetic ∧ getElementsByTag .td tr = []) ∨
        ∃ td ∈ getElementsByTag .td tr, ∃ fuel' < fuel,
          flow env fuel' td (genRpr false false) bolds italics = .error e := by
  cases fuel with
  | zero =>
      cases h
      exact Or.inl rfl
  | succ fuel =>
      simp only [tableFlow] at h
      split_ifs at h with hempty
      cases hrows : (getElementsByTag .tr table).mapM (readRow fun td =>
          flow env fuel td (genRpr false false) bolds italics) with
      | ok rows =>
          rw [hrows] at h
          cases h
      | error d =>
          rw [hrows] at h
          cases h
          rcases Effects.exists_of_mapM_eq_error hrows with ⟨tr, htr, hrow⟩
          refine Or.inr ⟨tr, htr, ?_⟩
          simp only [readRow, List.length_eq_zero_iff] at hrow
          split_ifs at hrow with htds
          · cases hrow
            exact Or.inl ⟨rfl, htds⟩
          · rcases Effects.exists_of_mapM_eq_error hrow with ⟨td, htd, hcell⟩
            exact Or.inr ⟨td, htd, fuel, Nat.lt_succ_self _, hcell⟩

/-- A run that fails has used up its fuel or has met a row without cells. -/
theorem flow_error {nodes : List Node} {e : Abort}
    (h : flow env fuel nodes format bolds italics = .error e) :
    e = .outOfFuel ∨ e = .arithmetic ∧ ¬ EveryRowHasCell nodes := by
  induction fuel using Nat.strong_induction_on generalizing nodes format bolds italics with
  | _ fuel ih =>
      cases fuel with
      | zero =>
          cases h
          exact Or.inl rfl
      | succ fuel =>
          rw [flow_succ] at h
          cases hnodes : nodes.mapM (nodeFlow env fuel format bolds italics) with
          | ok flows =>
              rw [hnodes] at h
              cases h
          | error d =>
              rw [hnodes] at h
              cases h
              rcases Effects.exists_of_mapM_eq_error hnodes with ⟨node, hnode, herror⟩
              rcases nodeFlow_cases env format bolds italics node with
                ⟨value, rfl⟩ | ⟨tag, src, childNodes, rfl, htag⟩ | ⟨src, table, rfl⟩ |
                  ⟨items, hok⟩
              · exact Or.inl (nodeFlow_text_error herror)
              · rcases exists_nodeFlow_inline env format bolds italics htag src childNodes with
                  ⟨format', bolds', italics', around, -, -, -, hflow⟩
                rw [hflow, Effects.map_eq_error_iff] at herror
                rcases ih fuel (Nat.lt_succ_self _) herror with hfuel | ⟨harith, hbad⟩
                · exact Or.inl hfuel
                · exact Or.inr ⟨harith, fun hall => hbad (hall.inline hnode htag)⟩
              · rcases tableFlow_error herror with hfuel | ⟨tr, htr, hrow | hcell⟩
                · exact Or.inl hfuel
                · exact Or.inr ⟨hrow.1, fun hall => hall table (.table hnode) tr htr hrow.2⟩
                · rcases hcell with ⟨td, htd, fuel', hlt, hcell⟩
                  rcases ih fuel' (Nat.lt_succ_of_lt hlt) hcell with hfuel | ⟨harith, hbad⟩
                  · exact Or.inl hfuel
                  · exact Or.inr ⟨harith, fun hall => hbad (hall.cell hnode htr htd)⟩
              · rw [hok] at herror
                cases herror

/-! ## Runs that return -/

/-- The rows of a table that was read have cells, and their cells were read. -/
theorem tableFlow_ok {table : List Node} {items : List Item}
    (h : tableFlow env fuel table bolds italics = .ok items) :
    ∀ tr ∈ getElementsByTag .tr table, getElementsByTag .td tr ≠ [] ∧
      ∀ td ∈ getElementsByTag .td tr, ∃ fuel' cell,
        flow env fuel' td (genRpr false false) bolds italics = .ok cell := by
  intro tr htr
  cases fuel with
  | zero => cases h
  | succ fuel =>
      simp only [tableFlow] at h
      split_ifs at h with hempty
      · rw [List.isEmpty_iff.mp hempty] at htr
        exact absurd htr List.not_mem_nil
      · rcases Effects.map_eq_ok_iff.mp h with ⟨rows, hrows, -⟩
        rcases Effects.exists_of_mapM_eq_ok hrows htr with ⟨row, hrow⟩
        rcases readRow_eq_ok_iff.mp hrow with ⟨htds, hcells⟩
        refine ⟨htds, fun td htd => ?_⟩
        rcases Effects.exists_of_mapM_eq_ok hcells htd with ⟨cell, hcell⟩
        exact ⟨fuel, cell, hcell⟩

/-- The nodes of a list that was read were read. -/
theorem nodeFlow_of_flow {nodes : List Node} {items : List Item}
    (h : flow env fuel nodes format bolds italics = .ok items) {node : Node}
    (hmem : node ∈ nodes) :
    ∃ fuel' own, nodeFlow env fuel' format bolds italics node = .ok own := by
  cases fuel with
  | zero => cases h
  | succ fuel =>
      rw [flow_succ] at h
      rcases Effects.map_eq_ok_iff.mp h with ⟨flows, hflows, -⟩
      rcases Effects.exists_of_mapM_eq_ok hflows hmem with ⟨own, hown⟩
      exact ⟨fuel, own, hown⟩

/-- A run that returns has met no row without cells. -/
theorem ReachesTable.row_ne_nil {nodes table : List Node} (h : ReachesTable nodes table)
    {items : List Item} (hok : flow env fuel nodes format bolds italics = .ok items) :
    ∀ tr ∈ getElementsByTag .tr table, getElementsByTag .td tr ≠ [] := by
  induction h generalizing fuel format bolds italics items with
  | table hmem =>
      rcases nodeFlow_of_flow hok hmem with ⟨fuel', own, hown⟩
      exact fun tr htr => (tableFlow_ok hown tr htr).1
  | @inline nodes tag src childNodes table hmem htag _ ih =>
      rcases nodeFlow_of_flow hok hmem with ⟨fuel', own, hown⟩
      rcases exists_nodeFlow_inline env format bolds italics htag src childNodes with
        ⟨format', bolds', italics', around, -, -, -, hflow⟩
      rw [hflow] at hown
      rcases Effects.map_eq_ok_iff.mp hown with ⟨inner, hinner, -⟩
      exact ih hinner
  | cell hmem htr htd _ ih =>
      rcases nodeFlow_of_flow hok hmem with ⟨fuel', own, hown⟩
      rcases (tableFlow_ok hown _ htr).2 _ htd with ⟨fuel'', cell, hcell⟩
      exact ih hcell

/-! ## Enough fuel -/

theorem sizeOf_lt_of_mem_getElementsByTag {tag : Tag} {nodes childNodes : List Node}
    (h : childNodes ∈ getElementsByTag tag nodes) : sizeOf childNodes < sizeOf nodes := by
  induction nodes using Node.listInduction with
  | nil => exact absurd h List.not_mem_nil
  | text value rest ih =>
      have hlt := ih h
      simp only [List.cons.sizeOf_spec]
      omega
  | comment rest ih => exact (ih h).trans (by simp)
  | other rest ih => exact (ih h).trans (by simp)
  | element t src inner rest ihc ihr =>
      simp only [List.cons.sizeOf_spec, Node.element.sizeOf_spec]
      rw [getElementsByTag, Node.getElementsByTag] at h
      rcases List.mem_append.mp h with h | h
      · have hinner : childNodes = inner ∨ childNodes ∈ getElementsByTag tag inner := by
          split_ifs at h
          · exact List.mem_cons.mp h
          · exact Or.inr h
        rcases hinner with rfl | hinner
        · omega
        · have hlt := ihc hinner
          omega
      · have hlt := ihr h
        omega

/-- There is enough fuel for a table when there is for its cells. -/
theorem eventually_tableFlow_ends {table : List Node}
    (h : ∀ tr ∈ getElementsByTag .tr table, ∀ td ∈ getElementsByTag .td tr,
      ∀ᶠ fuel in Filter.atTop,
        flow env fuel td (genRpr false false) bolds italics ≠ .error .outOfFuel) :
    ∀ᶠ fuel in Filter.atTop, tableFlow env fuel table bolds italics ≠ .error .outOfFuel := by
  have hrow : ∀ tr ∈ getElementsByTag .tr table, ∀ᶠ fuel in Filter.atTop,
      readRow (fun td => flow env fuel td (genRpr false false) bolds italics) tr ≠
        .error .outOfFuel := by
    intro tr htr
    refine (Effects.eventually_mapM_ne_error (h tr htr)).mono fun fuel hfuel hrow => ?_
    simp only [readRow] at hrow
    split_ifs at hrow
    · cases hrow
    · exact hfuel hrow
  refine Effects.eventually_of_succ (Effects.eventually_mapM_ne_error hrow) fun fuel hfuel => ?_
  simp only [tableFlow]
  split_ifs
  · intro h
    cases h
  · exact fun h => hfuel (Effects.map_eq_error_iff.mp h)

/-- With non-empty words there is enough fuel. -/
theorem eventually_flow_ends (nodes : List Node) (hbolds : ∀ word ∈ bolds, word.word ≠ [])
    (hitalics : ∀ word ∈ italics, word.word ≠ []) :
    ∀ᶠ fuel in Filter.atTop,
      flow env fuel nodes format bolds italics ≠ .error .outOfFuel := by
  induction hsize : sizeOf nodes using Nat.strong_induction_on generalizing nodes format bolds
    italics with
  | _ size ih =>
      subst hsize
      have hnode : ∀ node ∈ nodes, ∀ᶠ fuel in Filter.atTop,
          nodeFlow env fuel format bolds italics node ≠ .error .outOfFuel := by
        intro node hmem
        have hlt : sizeOf node < sizeOf nodes := List.sizeOf_lt_of_mem hmem
        rcases nodeFlow_cases env format bolds italics node with
          ⟨value, rfl⟩ | ⟨tag, src, childNodes, rfl, htag⟩ | ⟨src, table, rfl⟩ | ⟨items, hok⟩
        · refine (Filter.eventually_ge_atTop (3 * value.length + 1)).mono fun fuel hfuel h => ?_
          rcases exists_cutText hbolds hitalics hfuel with ⟨results, hcut⟩
          rcases exists_mapM_pieceItem format (cutText_italicised hcut)
            (cutText_breaksAtLineFeed hcut) with ⟨items, hitems, -⟩
          rw [nodeFlow, hcut, Effects.ok_bind, hitems] at h
          cases h
        · rcases exists_nodeFlow_inline env format bolds italics htag src childNodes with
            ⟨format', bolds', italics', around, hb, hi, -, hflow⟩
          rw [Node.element.sizeOf_spec] at hlt
          have hends := @ih (sizeOf childNodes) (by omega) format' bolds' italics' childNodes
            (fun word hword => hbolds word (hb hword))
            (fun word hword => hitalics word (hi hword)) rfl
          refine hends.mono fun fuel hfuel h => ?_
          rw [hflow, Effects.map_eq_error_iff] at h
          exact hfuel h
        · rw [Node.element.sizeOf_spec] at hlt
          refine eventually_tableFlow_ends fun tr htr td htd => ?_
          have htr' := sizeOf_lt_of_mem_getElementsByTag htr
          have htd' := sizeOf_lt_of_mem_getElementsByTag htd
          exact ih (sizeOf td) (by omega) td hbolds hitalics rfl
        · refine Filter.Eventually.of_forall fun fuel h => ?_
          rw [hok] at h
          cases h
      refine Effects.eventually_of_succ (Effects.eventually_mapM_ne_error hnode)
        fun fuel hfuel => ?_
      rw [flow_succ]
      exact fun h => hfuel (Effects.map_eq_error_iff.mp h)

variable (env)

/-- The conversion never divides by zero exactly when every row it reaches has a cell, and
with non-empty words it ends in either case. -/
theorem parseHtmlNode_divides_iff (childNodes : List Node) :
    ((∀ fuel progress format bolds italics indent,
        parseHtmlNode env fuel childNodes progress format bolds italics indent ≠
          .error .arithmetic) ↔
      EveryRowHasCell childNodes) ∧
    ∀ bolds italics, (∀ word ∈ bolds, word.word ≠ []) → (∀ word ∈ italics, word.word ≠ []) →
      ∀ progress format indent, ∃ enough, ∀ fuel, enough ≤ fuel →
        (EveryRowHasCell childNodes → ∃ progress',
          parseHtmlNode env fuel childNodes progress format bolds italics indent =
            .ok progress') ∧
        (¬ EveryRowHasCell childNodes →
          parseHtmlNode env fuel childNodes progress format bolds italics indent =
            .error .arithmetic) := by
  have hends : ∀ bolds italics, (∀ word ∈ bolds, word.word ≠ []) →
      (∀ word ∈ italics, word.word ≠ []) → ∀ progress format indent,
      ∃ enough, ∀ fuel, enough ≤ fuel →
        (EveryRowHasCell childNodes → ∃ progress',
          parseHtmlNode env fuel childNodes progress format bolds italics indent =
            .ok progress') ∧
        (¬ EveryRowHasCell childNodes →
          parseHtmlNode env fuel childNodes progress format bolds italics indent =
            .error .arithmetic) := by
    intro bolds italics hbolds hitalics progress format indent
    refine Filter.eventually_atTop.mp ((@eventually_flow_ends env format bolds italics childNodes
      hbolds hitalics).mono fun fuel hfuel => ?_)
    rw [parseHtmlNode_eq_emitAll]
    cases hflow : flow env fuel childNodes format bolds italics with
    | ok items =>
        refine ⟨fun _ => ⟨_, rfl⟩, fun hbad => absurd ?_ hbad⟩
        exact fun table htable => htable.row_ne_nil hflow
    | error e =>
        rcases flow_error hflow with rfl | ⟨rfl, hbad⟩
        · exact absurd hflow hfuel
        · exact ⟨fun hall => absurd hall hbad, fun _ => rfl⟩
  refine ⟨⟨fun hnever => ?_, fun hall fuel progress format bolds italics indent h => ?_⟩, hends⟩
  · by_contra hbad
    rcases hends [] [] (by simp) (by simp) (.new true) (genRpr false false) true with
      ⟨enough, henough⟩
    exact hnever enough _ _ [] [] _ ((henough enough (Nat.le_refl _)).2 hbad)
  · rw [parseHtmlNode_eq_emitAll, Effects.map_eq_error_iff] at h
    rcases flow_error h with hfuel | ⟨-, hbad⟩
    · cases hfuel
    · exact hbad hall

/-- A table with a row of a single header cell. -/
theorem header_row_divides_by_zero :
    parseHtmlNode Env.offline 2
      [.element .table [] [.element .tr [] [.element .other [] [.text (jstr "year")]]]]
      (ParseProgress.new true) (genRpr false false) [] [] true = .error .arithmetic := by
  rfl

end DocUtil
end TestAio
