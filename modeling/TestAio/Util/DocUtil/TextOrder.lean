import TestAio.Util.DocUtil.Layout
import TestAio.Util.DocUtil.Pieces

/-!
# The text of a converted article

An article is a tree of flow content: texts, line breaks and inline elements, with
tables whose texts lie in the cells of their rows.  Its conversion ends, and the
document reads like the article, up to the white space that line feeds, trimmed
runs and the indentation of the source make up.

Main results:

- Theorem {lit}`squeeze_layout`: the blocks of a flow read like the flow.
- Theorem {lit}`Article.reads`: with enough fuel the flow of an article reads like the article.
- Theorem {lit}`parseHtmlNode_keeps_text`: the conversion keeps the text in order.

Current gaps:

- None.
-/

namespace TestAio
namespace DocUtil

open Library Library.Numbering

/-! ## Texts -/

/-- A text without its white space. -/
def squeeze (s : JString) : JString :=
  s.filter fun c => !isTrimmed c

@[simp]
theorem squeeze_nil : squeeze [] = [] :=
  rfl

@[simp]
theorem squeeze_append (s t : JString) : squeeze (s ++ t) = squeeze s ++ squeeze t :=
  List.filter_append _ _

/-- Squeezing works part by part. -/
theorem squeeze_flatMap {α : Type} (xs : List α) (f : α → JString) :
    squeeze (xs.flatMap f) = xs.flatMap fun x => squeeze (f x) := by
  induction xs with
  | nil => rfl
  | cons x xs ih => simp [ih]

/-- Nothing is left of blank text. -/
theorem squeeze_of_isBlank {s : JString} (h : isBlank s = true) : squeeze s = [] := by
  rw [squeeze, List.filter_eq_nil_iff]
  intro c hc
  simp [(isBlank_iff s).mp h c hc]

mutual

/-- The text of a node. -/
def Node.wholeText : Node → JString
  | .text value => value
  | .element _ _ childNodes => DocUtil.wholeText childNodes
  | .comment => []
  | .other => []

/-- The text nodes of a list of nodes, joined in document order. -/
def wholeText : List Node → JString
  | [] => []
  | node :: nodes => node.wholeText ++ wholeText nodes

end

/-- The text of a run that is not a superscript mark. -/
def R.plainText (r : R) : JString :=
  if r.rPr.vertAlign = .superscript then
    []
  else
    match r.content with
    | .text value => value
    | .drawing _ => []

/-- The text of the runs of a paragraph. -/
def runsText (content : List R) : JString :=
  content.flatMap R.plainText

/-- The text of a document, read from first to last, tables row by row and cell by
cell. -/
def readText (nodes : List ContentAccessor) : JString :=
  (allParagraphs nodes).flatMap fun par => runsText par.content

mutual

/-- The text of an item. -/
def Item.text : Item → JString
  | .run value _ _ _ _ => value
  | .paragraph => []
  | .image _ => []
  | .table rows => rowsText rows

/-- The text of a flow. -/
def itemsText : List Item → JString
  | [] => []
  | item :: items => item.text ++ itemsText items

/-- The text of the rows of a table. -/
def rowsText : List (List (List Item)) → JString
  | [] => []
  | row :: rows => cellsText row ++ rowsText rows

/-- The text of the cells of a row. -/
def cellsText : List (List Item) → JString
  | [] => []
  | cell :: cells => itemsText cell ++ cellsText cells

end

/-- The text of two flows in a row. -/
theorem itemsText_append (xs ys : List Item) :
    itemsText (xs ++ ys) = itemsText xs ++ itemsText ys := by
  induction xs with
  | nil => rfl
  | cons x xs ih => simp [itemsText, ih]

/-- The text of cells is that of their flows. -/
theorem cellsText_eq (cells : List (List Item)) : cellsText cells = cells.flatMap itemsText := by
  induction cells with
  | nil => rfl
  | cons cell cells ih => simp [cellsText, ih]

/-- The text of rows is that of their cells. -/
theorem rowsText_eq (rows : List (List (List Item))) :
    rowsText rows = rows.flatMap fun row => row.flatMap itemsText := by
  induction rows with
  | nil => rfl
  | cons row rows ih => simp [rowsText, cellsText_eq, ih]

/-! ## The blocks of a flow read like the flow -/

@[simp]
theorem runsText_append (xs ys : List R) : runsText (xs ++ ys) = runsText xs ++ runsText ys :=
  List.flatMap_append

@[simp]
theorem plainText_genR (text : JString) (format : RPr) (bold italic : Bool) :
    (genR text format bold italic).plainText = text := by
  cases bold <;> cases italic <;> cases hu : format.u <;>
    simp [R.plainText, genR, genRpr, embolden, copyRpr, setBold, setItalic, setUnderline, hu]

@[simp]
theorem plainText_genMark (num : Nat) : (genMark num).plainText = [] :=
  rfl

variable {env : Env}

/-- Stripping blanks changes no visible text. -/
theorem squeeze_stripFront (value : JString) :
    squeeze (env.stripFront value (jstr " \t")) = squeeze value := by
  have hblank : squeeze (value.takeWhile ((jstr " \t").contains ·)) = [] := by
    rw [squeeze, List.filter_eq_nil_iff]
    intro c hc
    have hmem := List.mem_takeWhile_imp hc
    have hc' : c = 32 ∨ c = 9 := by
      simpa [jstr, utf16] using hmem
    rcases hc' with rfl | rfl <;> decide
  rw [env.stripFront_eq]
  conv_rhs => rw [← List.takeWhile_append_dropWhile (p := ((jstr " \t").contains ·)) (l := value)]
  rw [squeeze_append, hblank, List.nil_append]

/-- Trimming a paragraph removes white space only. -/
theorem squeeze_trimContent (env : Env) (content : List R) :
    squeeze (runsText (trimContent env content)) = squeeze (runsText content) := by
  induction content with
  | nil => rfl
  | cons r content ih =>
      rcases r with ⟨rPr, rContent⟩
      cases rContent with
      | drawing body => rfl
      | text value =>
          simp only [trimContent]
          split_ifs with hblank
          · rw [ih]
            by_cases hmark : rPr.vertAlign = .superscript <;>
              simp [runsText, R.plainText, hmark, squeeze_of_isBlank hblank]
          · by_cases hmark : rPr.vertAlign = .superscript <;>
              simp [runsText, R.plainText, hmark, squeeze_stripFront]

@[simp]
theorem readText_cons_p (par : P) (blocks : List ContentAccessor) :
    readText (.p par :: blocks) = runsText par.content ++ readText blocks :=
  rfl

/-- The text of the first block comes first. -/
theorem readText_cons (block : ContentAccessor) (blocks : List ContentAccessor) :
    readText (block :: blocks) = readText [block] ++ readText blocks := by
  simp [readText, allParagraphs]

/-- Trimming and indenting a cell removes white space only. -/
theorem squeeze_trimNodes (blocks : List ContentAccessor) :
    squeeze (readText ((trimNodes env blocks).map ContentAccessor.indentCell)) =
      squeeze (readText blocks) := by
  induction blocks with
  | nil => rfl
  | cons block blocks ih =>
      cases block with
      | p par =>
          have htrim := squeeze_trimContent env par.content
          rw [trimNodes_cons_p, readText_cons_p, squeeze_append, ← htrim, ← ih]
          split_ifs with hempty
          · rw [hempty]
            rfl
          · simp [ContentAccessor.indentCell]
      | tbl rows =>
          rw [trimNodes_cons_tbl, readText_cons, squeeze_append, ← ih]
          split_ifs with hempty
          · rw [hempty]
            rfl
          · rw [List.map_cons, readText_cons, squeeze_append]
            rfl

/-- A table reads like the flows of its cells when the cells do. -/
theorem squeeze_readText_tbl {rows : List (List (List Item))}
    (h : ∀ row ∈ rows, ∀ cell ∈ row,
      squeeze (readText (cellNodes env (emitAll env (.new false) cell))) =
        squeeze (itemsText cell)) :
    squeeze (readText [.tbl (emitRows env rows)]) = squeeze (rowsText rows) := by
  rw [readText, allParagraphs_tbl, rowsText_eq]
  simp only [allParagraphs, List.append_nil, List.flatMap_assoc, squeeze_flatMap]
  refine List.flatMap_congr fun row hrow => List.flatMap_congr fun cell hcell => ?_
  rw [← squeeze_flatMap]
  exact h row hrow cell hcell

/-- The blocks of a flow read like the flow, behind what the current paragraph holds. -/
theorem squeeze_layout (items : List Item) :
    ∀ (own : List JString) (par : P),
      squeeze (readText (layout env own par items)) =
        squeeze (runsText par.content) ++ squeeze (itemsText items) := by
  induction items using Item.listInduction with
  | nil =>
      intro own par
      simp [layout, readText, allParagraphs, itemsText]
  | run value format bold italic overWord items ih =>
      intro own par
      rw [layout, ih]
      cases overWord <;> simp [itemRuns, itemsText, Item.text, runsText]
  | paragraph items ih =>
      intro own par
      rw [layout, readText_cons_p, squeeze_append, ih]
      rfl
  | image body items ih =>
      intro own par
      rw [layout, readText_cons_p, readText_cons_p, squeeze_append, squeeze_append, ih]
      rfl
  | table rows items hrows ih =>
      intro own par
      have hcell : ∀ row ∈ rows, ∀ cell ∈ row,
          squeeze (readText (cellNodes env (emitAll env (.new false) cell))) =
            squeeze (itemsText cell) := by
        intro row hrow cell hcell
        rw [cellNodes_emitAll, squeeze_trimNodes, hrows row hrow cell hcell]
        rfl
      rw [layout, readText_cons_p, readText_cons, squeeze_append, squeeze_append,
        squeeze_readText_tbl hcell, ih]
      simp only [itemsText, Item.text, squeeze_append]
      rfl

/-- The tags of the inline elements and blocks whose children are converted. -/
def inlineTags : List Tag :=
  [.strong, .div, .span, .center, .bdo, .p, .u]

/-- Flow content: texts, line breaks, inline elements, and tables whose children meet
{lit}`tables`. -/
inductive FlowContent (tables : List Node → Prop) : List Node → Prop
  | nil : FlowContent tables []
  | text {value rest} : FlowContent tables rest → FlowContent tables (.text value :: rest)
  | br {src rest} : FlowContent tables rest →
      FlowContent tables (.element .br src [] :: rest)
  | inline {tag src childNodes rest} : tag ∈ inlineTags → FlowContent tables childNodes →
      FlowContent tables rest → FlowContent tables (.element tag src childNodes :: rest)
  | table {src childNodes rest} : tables childNodes → FlowContent tables rest →
      FlowContent tables (.element .table src childNodes :: rest)

/-- The content of a table cell: flow content without tables. -/
def CellContent : List Node → Prop :=
  FlowContent fun _ => False

/-- The content of a table row: cells, with white space and further elements around
them that hold no text of their own. -/
inductive RowContent : List Node → Prop
  | nil : RowContent []
  | blank {value rest} : isBlank value = true → RowContent rest →
      RowContent (.text value :: rest)
  | cell {src childNodes rest} : CellContent childNodes → RowContent rest →
      RowContent (.element .td src childNodes :: rest)
  | group {tag src childNodes rest} : tag ∉ [Tag.tr, .td, .table] → RowContent childNodes →
      RowContent rest → RowContent (.element tag src childNodes :: rest)

/-- The content of a table: rows with at least one cell, with white space and further
elements (such as {lit}`tbody`) around them that hold no text of their own. -/
inductive TableContent : List Node → Prop
  | nil : TableContent []
  | blank {value rest} : isBlank value = true → TableContent rest →
      TableContent (.text value :: rest)
  | row {src childNodes rest} : RowContent childNodes →
      getElementsByTag .td childNodes ≠ [] → TableContent rest →
      TableContent (.element .tr src childNodes :: rest)
  | group {tag src childNodes rest} : tag ∉ [Tag.tr, .td, .table] →
      TableContent childNodes → TableContent rest →
      TableContent (.element tag src childNodes :: rest)

/-- The articles: flow content with tables that are not nested. -/
def Article : List Node → Prop :=
  FlowContent TableContent

/-- An inline element contributes the flow of its children. -/
theorem exists_nodeFlow_inline (env : Env) (format : RPr) (bolds italics : List WordNode)
    {tag : Tag} (htag : tag ∈ inlineTags) (src : JString) (childNodes : List Node) :
    ∃ format' bolds' italics', ∃ around : List Item → List Item,
      bolds' ⊆ bolds ∧ italics' ⊆ italics ∧
      (∀ items, itemsText (around items) = itemsText items) ∧
      ∀ fuel, nodeFlow env fuel format bolds italics (.element tag src childNodes) =
        (flow env fuel childNodes format' bolds' italics').map around := by
  have hid : ∀ x : Except Abort (List Item), x = x.map id := fun x => by cases x <;> rfl
  cases tag with
  | u =>
      exact ⟨_, _, _, id, List.nil_subset _, List.nil_subset _, fun _ => rfl, fun _ => hid _⟩
  | p =>
      refine ⟨_, _, _, fun items => .paragraph :: items ++ [.paragraph], List.Subset.refl _,
        List.Subset.refl _, fun items => ?_, fun _ => rfl⟩
      rw [itemsText_append]
      exact List.append_nil _
  | strong | div | span | center | bdo =>
      exact ⟨_, _, _, id, List.Subset.refl _, List.Subset.refl _, fun _ => rfl, fun _ => hid _⟩
  | br | table | img | tr | td | other => simp [inlineTags] at htag

/-- The inline tags are no rows and no cells. -/
theorem ne_of_mem_inlineTags {tag : Tag} (h : tag ∈ inlineTags) : tag ≠ .tr ∧ tag ≠ .td := by
  cases tag <;> simp_all [inlineTags]

/-- A cell holds neither rows nor cells. -/
theorem CellContent.getElementsByTag_eq {childNodes : List Node} (h : CellContent childNodes) :
    getElementsByTag .tr childNodes = [] ∧ getElementsByTag .td childNodes = [] := by
  unfold CellContent at h
  induction h with
  | nil => exact ⟨rfl, rfl⟩
  | text _ ih => simpa [getElementsByTag, Node.getElementsByTag] using ih
  | br _ ih => simpa [getElementsByTag, Node.getElementsByTag] using ih
  | inline htag _ _ ihc ihr =>
      have hne := ne_of_mem_inlineTags htag
      simp [getElementsByTag, Node.getElementsByTag, hne.1, hne.2, ihc, ihr]
  | table hfalse => exact hfalse.elim

/-- The cells of a row hold its text. -/
theorem RowContent.cells {childNodes : List Node} (h : RowContent childNodes) :
    getElementsByTag .tr childNodes = [] ∧
      (∀ td ∈ getElementsByTag .td childNodes, CellContent td) ∧
      squeeze (wholeText childNodes) =
        (getElementsByTag .td childNodes).flatMap fun td => squeeze (wholeText td) := by
  induction h with
  | nil => simp [getElementsByTag, wholeText]
  | blank hblank _ ih =>
      simpa [getElementsByTag, Node.getElementsByTag, wholeText, Node.wholeText,
        squeeze_of_isBlank hblank] using ih
  | @cell src childNodes rest hcell _ ih =>
      have htags := hcell.getElementsByTag_eq
      refine ⟨by simp [getElementsByTag, Node.getElementsByTag, htags.1, ih.1], ?_, ?_⟩
      · intro td htd
        simp only [getElementsByTag, Node.getElementsByTag, htags.2, if_true,
          List.cons_append, List.nil_append, List.mem_cons] at htd
        rcases htd with rfl | htd
        · exact hcell
        · exact ih.2.1 td htd
      · simp [getElementsByTag, Node.getElementsByTag, htags.2, wholeText, Node.wholeText,
          ih.2.2]
  | @group tag src childNodes rest htag _ _ ihc ihr =>
      simp only [List.mem_cons, List.not_mem_nil, or_false, not_or] at htag
      refine ⟨by simp [getElementsByTag, Node.getElementsByTag, htag.1, ihc.1, ihr.1], ?_, ?_⟩
      · intro td htd
        simp only [getElementsByTag, Node.getElementsByTag, htag.2.1, if_false,
          List.mem_append] at htd
        rcases htd with htd | htd
        · exact ihc.2.1 td htd
        · exact ihr.2.1 td htd
      · simp [getElementsByTag, Node.getElementsByTag, htag.2.1, wholeText, Node.wholeText,
          ihc.2.2, ihr.2.2]

/-- The rows of a table hold its text. -/
theorem TableContent.rows {childNodes : List Node} (h : TableContent childNodes) :
    (∀ tr ∈ getElementsByTag .tr childNodes, RowContent tr ∧ getElementsByTag .td tr ≠ []) ∧
      squeeze (wholeText childNodes) =
        (getElementsByTag .tr childNodes).flatMap fun tr => squeeze (wholeText tr) := by
  induction h with
  | nil => simp [getElementsByTag, wholeText]
  | blank hblank _ ih =>
      simpa [getElementsByTag, Node.getElementsByTag, wholeText, Node.wholeText,
        squeeze_of_isBlank hblank] using ih
  | @row src childNodes rest hrow htds _ ih =>
      have htags := hrow.cells.1
      refine ⟨?_, ?_⟩
      · intro tr htr
        simp only [getElementsByTag, Node.getElementsByTag, htags, if_true,
          List.cons_append, List.nil_append, List.mem_cons] at htr
        rcases htr with rfl | htr
        · exact ⟨hrow, htds⟩
        · exact ih.1 tr htr
      · simp [getElementsByTag, Node.getElementsByTag, htags, wholeText, Node.wholeText, ih.2]
  | @group tag src childNodes rest htag _ _ ihc ihr =>
      simp only [List.mem_cons, List.not_mem_nil, or_false, not_or] at htag
      refine ⟨?_, ?_⟩
      · intro tr htr
        simp only [getElementsByTag, Node.getElementsByTag, htag.1, if_false,
          List.mem_append] at htr
        rcases htr with htr | htr
        · exact ihc.1 tr htr
        · exact ihr.1 tr htr
      · simp [getElementsByTag, Node.getElementsByTag, htag.1, wholeText, Node.wholeText,
          ihc.2, ihr.2]

/-! ## The flow of an article reads like the article -/

/-- With enough fuel a list of nodes has a flow that reads like it. -/
def Reads (env : Env) (childNodes : List Node) : Prop :=
  ∀ (format : RPr) (bolds italics : List WordNode),
    (∀ word ∈ bolds, word.word ≠ []) → (∀ word ∈ italics, word.word ≠ []) →
    ∀ᶠ fuel in Filter.atTop, ∃ items, flow env fuel childNodes format bolds italics = .ok items ∧
      squeeze (itemsText items) = squeeze (wholeText childNodes)

/-- The flow of a list is made of the flow of its first node and that of the rest. -/
theorem flow_cons {fuel : Nat} {node : Node} {nodes : List Node} {format : RPr}
    {bolds italics : List WordNode} {xs ys : List Item}
    (hxs : flow env fuel [node] format bolds italics = .ok xs)
    (hys : flow env fuel nodes format bolds italics = .ok ys) :
    flow env fuel (node :: nodes) format bolds italics = .ok (xs ++ ys) := by
  cases fuel with
  | zero => cases hxs
  | succ fuel =>
      simp only [flow] at hxs hys ⊢
      rcases Effects.map_eq_ok_iff.mp hxs with ⟨fs, hfs, rfl⟩
      rcases Effects.map_eq_ok_iff.mp hys with ⟨gs, hgs, rfl⟩
      refine Effects.map_eq_ok_iff.mpr ⟨fs ++ gs, ?_, List.flatten_append⟩
      rw [Effects.mapM_eq_ok_iff] at hfs hgs ⊢
      exact List.rel_append hfs hgs

/-- A node and the ones behind it are read. -/
theorem Reads.cons {node : Node} {nodes : List Node} (hnode : Reads env [node])
    (hnodes : Reads env nodes) : Reads env (node :: nodes) := by
  intro format bolds italics hbolds hitalics
  filter_upwards [hnode format bolds italics hbolds hitalics,
    hnodes format bolds italics hbolds hitalics] with fuel hx hy
  rcases hx with ⟨xs, hxs, hxtext⟩
  rcases hy with ⟨ys, hys, hytext⟩
  refine ⟨xs ++ ys, flow_cons hxs hys, ?_⟩
  rw [itemsText_append, squeeze_append, hxtext, hytext]
  simp [wholeText]

/-- Nothing is read of nothing. -/
theorem Reads.nil : Reads env [] := by
  intro format bolds italics _ _
  refine Effects.eventually_of_succ (p := fun _ => True)
    (Filter.Eventually.of_forall fun _ => trivial) fun fuel _ => ⟨[], ?_, rfl⟩
  rfl

/-- The pieces of a text become items that read like the text. -/
theorem exists_mapM_pieceItem (format : RPr) {results : List PassageNode}
    (hitalic : ∀ node ∈ results, node.Italicised)
    (hbreak : ∀ node ∈ results, node.BreaksAtLineFeed) :
    ∃ items, results.mapM (pieceItem format) = .ok items ∧
      squeeze (itemsText items) = squeeze (results.flatMap PassageNode.value) := by
  induction results with
  | nil => exact ⟨[], rfl, rfl⟩
  | cons node results ih =>
      rcases ih (fun n hn => hitalic n (by simp [hn])) (fun n hn => hbreak n (by simp [hn]))
        with ⟨items, hitems, htext⟩
      have hpiece : ∃ item, pieceItem format node = .ok item ∧
          squeeze item.text = squeeze node.value := by
        unfold pieceItem
        split_ifs with hnext hit
        · refine ⟨_, rfl, ?_⟩
          rw [hbreak node (by simp) hnext]
          rfl
        · rcases hitalic node (by simp) hit with ⟨-, wordNode, hwordNode, -⟩
          rw [hwordNode]
          exact ⟨_, rfl, rfl⟩
        · exact ⟨_, rfl, rfl⟩
      rcases hpiece with ⟨item, hitem, hitemText⟩
      refine ⟨item :: items, ?_, ?_⟩
      · rw [List.mapM_cons, hitem, hitems]
        rfl
      · simp [itemsText, hitemText, htext]

/-- A text is read. -/
theorem Reads.text (value : JString) : Reads env [.text value] := by
  intro format bolds italics hbolds hitalics
  refine Effects.eventually_of_succ (Filter.eventually_ge_atTop (3 * value.length + 1))
    fun fuel hfuel => ?_
  rcases exists_cutText hbolds hitalics hfuel with ⟨results, hresults⟩
  rcases exists_mapM_pieceItem format (cutText_italicised hresults)
    (cutText_breaksAtLineFeed hresults) with ⟨items, hitems, htext⟩
  refine ⟨items, ?_, ?_⟩
  · simp [flow, hresults, hitems, pure, Except.pure]
  · rw [htext, cutText_values hresults]
    simp [wholeText, Node.wholeText]

/-- A line break has no text. -/
theorem Reads.br (src : JString) : Reads env [.element .br src []] := by
  intro format bolds italics _ _
  refine Effects.eventually_of_succ (p := fun _ => True)
    (Filter.Eventually.of_forall fun _ => trivial) fun fuel _ => ⟨[.paragraph], ?_, rfl⟩
  rfl

/-- Below an inline tag everything is read. -/
theorem Reads.inline {tag : Tag} (htag : tag ∈ inlineTags) (src : JString)
    {childNodes : List Node} (h : Reads env childNodes) :
    Reads env [.element tag src childNodes] := by
  intro format bolds italics hbolds hitalics
  rcases exists_nodeFlow_inline env format bolds italics htag src childNodes with
    ⟨format', bolds', italics', around, hb, hi, haround, hflow⟩
  refine Effects.eventually_of_succ (h format' bolds' italics'
    (fun word hword => hbolds word (hb hword)) fun word hword => hitalics word (hi hword))
    fun fuel hread => ?_
  rcases hread with ⟨items, hitems, htext⟩
  refine ⟨around items, ?_, ?_⟩
  · rw [flow_singleton, hflow, hitems]
    rfl
  · rw [haround, htext]
    simp [wholeText, Node.wholeText]

/-- The content of a cell is read. -/
theorem CellContent.reads {childNodes : List Node} (h : CellContent childNodes) :
    Reads env childNodes := by
  unfold CellContent at h
  induction h with
  | nil => exact Reads.nil
  | text _ ih => exact (Reads.text _).cons ih
  | br _ ih => exact (Reads.br _).cons ih
  | inline htag _ _ ihc ihr => exact (ihc.inline htag _).cons ihr
  | table hfalse => exact hfalse.elim

/-- Related lists join to the same text. -/
theorem flatMap_eq_of_forall₂ {α β : Type} {f : α → JString} {g : β → JString}
    {xs : List α} {ys : List β} (h : List.Forall₂ (fun x y => g y = f x) xs ys) :
    ys.flatMap g = xs.flatMap f := by
  induction h with
  | nil => rfl
  | cons hxy _ ih => rw [List.flatMap_cons, List.flatMap_cons, hxy, ih]

/-- With enough fuel the cells of a row read like the row. -/
theorem RowContent.reads {tr : List Node} (h : RowContent tr)
    (htds : getElementsByTag .td tr ≠ []) {format : RPr} {bolds italics : List WordNode}
    (hbolds : ∀ word ∈ bolds, word.word ≠ []) (hitalics : ∀ word ∈ italics, word.word ≠ []) :
    ∀ᶠ fuel in Filter.atTop, ∃ row,
      readRow (fun td => flow env fuel td format bolds italics) tr = .ok row ∧
        (row.flatMap fun cell => squeeze (itemsText cell)) = squeeze (wholeText tr) := by
  have hcells := h.cells.2
  have hread : ∀ td ∈ getElementsByTag .td tr, ∀ᶠ fuel in Filter.atTop,
      ∃ items, flow env fuel td format bolds italics = .ok items ∧
        squeeze (itemsText items) = squeeze (wholeText td) := by
    intro td htd
    exact (hcells.1 td htd).reads format bolds italics hbolds hitalics
  refine (Effects.eventually_mapM hread).mono fun fuel hrow => ?_
  rcases hrow with ⟨row, hrow, htexts⟩
  refine ⟨row, readRow_eq_ok_iff.mpr ⟨htds, hrow⟩, ?_⟩
  rw [hcells.2]
  exact flatMap_eq_of_forall₂ htexts

/-- The content of a table is read. -/
theorem TableContent.reads {childNodes : List Node} (h : TableContent childNodes)
    (src : JString) : Reads env [.element .table src childNodes] := by
  intro format bolds italics hbolds hitalics
  have hread : ∀ tr ∈ getElementsByTag .tr childNodes, ∀ᶠ fuel in Filter.atTop, ∃ row,
      readRow (fun td => flow env fuel td (genRpr false false) bolds italics) tr = .ok row ∧
        (row.flatMap fun cell => squeeze (itemsText cell)) = squeeze (wholeText tr) := by
    intro tr htr
    exact (h.rows.1 tr htr).1.reads (h.rows.1 tr htr).2 hbolds hitalics
  -- One unit of fuel enters the element and one the table.
  refine Effects.eventually_of_succ (Effects.eventually_of_succ
    (q := fun fuel => ∃ items, tableFlow env fuel childNodes bolds italics = .ok items ∧
      squeeze (itemsText items) = squeeze (wholeText childNodes))
    (Effects.eventually_mapM hread) fun fuel hrows => ?_) fun fuel htable => ?_
  · rcases hrows with ⟨rows, hrows, htexts⟩
    simp only [tableFlow]
    rw [h.rows.2]
    split_ifs with hempty
    · rw [List.isEmpty_iff.mp hempty]
      exact ⟨[], rfl, rfl⟩
    · refine ⟨[.table rows], by rw [hrows]; rfl, ?_⟩
      simp only [itemsText, Item.text, List.append_nil, rowsText_eq, squeeze_flatMap]
      exact flatMap_eq_of_forall₂ htexts
  · rcases htable with ⟨items, hitems, htext⟩
    refine ⟨items, by simp [flow, hitems, pure, Except.pure], ?_⟩
    rw [htext]
    simp [wholeText, Node.wholeText]

/-- With enough fuel an article has a flow that reads like it. -/
theorem Article.reads {childNodes : List Node} (h : Article childNodes) :
    Reads env childNodes := by
  unfold Article at h
  induction h with
  | nil => exact Reads.nil
  | text _ ih => exact (Reads.text _).cons ih
  | br _ ih => exact (Reads.br _).cons ih
  | inline htag _ _ ihc ihr => exact (ihc.inline htag _).cons ihr
  | table htable _ ih => exact (htable.reads _).cons ih

variable (env)

/-- The conversion of an article ends, and the document reads like the article up to
white space. -/
theorem parseHtmlNode_keeps_text {childNodes : List Node} (h : Article childNodes)
    {bolds italics : List WordNode} (hbolds : ∀ word ∈ bolds, word.word ≠ [])
    (hitalics : ∀ word ∈ italics, word.word ≠ []) (format : RPr) (indent : Bool) :
    ∃ enough, ∀ fuel, enough ≤ fuel → ∃ progress,
      parseHtmlNode env fuel childNodes (ParseProgress.new indent) format bolds italics
        indent = .ok progress ∧
      squeeze (readText progress.nodes) = squeeze (wholeText childNodes) := by
  have hreads : Reads env childNodes := h.reads
  refine Filter.eventually_atTop.mp ((hreads format bolds italics hbolds hitalics).mono
    fun fuel hflow => ?_)
  rcases hflow with ⟨items, hitems, htext⟩
  refine ⟨emitAll env (.new indent) items, ?_, ?_⟩
  · rw [parseHtmlNode_eq_emitAll, hitems]
    rfl
  · rw [emitAll_new_nodes, squeeze_layout, htext]
    rfl

/-- A text in front of a table with one cell. -/
theorem text_and_table_keep_text :
    ∃ enough, ∀ fuel, enough ≤ fuel → ∃ progress,
      parseHtmlNode Env.offline fuel
        [.text (jstr "a "), .element .table [] [.text (jstr "\n"), .element .other []
          [.element .tr [] [.element .td [] [.text (jstr "cat")]]]]]
        (ParseProgress.new true) (genRpr false false) [] [.ofWord (jstr "cat")] true =
          .ok progress ∧
      squeeze (readText progress.nodes) = squeeze (wholeText
        [.text (jstr "a "), .element .table [] [.text (jstr "\n"), .element .other []
          [.element .tr [] [.element .td [] [.text (jstr "cat")]]]]]) :=
  parseHtmlNode_keeps_text Env.offline
    (.text (.table (.blank (by decide) (.group (by decide)
      (.row (.cell (.text .nil) .nil) (List.cons_ne_nil _ _) .nil) .nil)) .nil))
    (by simp) (by decide) _ _

end DocUtil
end TestAio
