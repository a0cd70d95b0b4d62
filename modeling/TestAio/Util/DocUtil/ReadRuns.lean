import TestAio.Util.DocUtil.Marks

/-!
# Reading the runs of an article

An article without line feeds is written into one paragraph: a run for every node that
{lit}`parsePassage` returns, and a footnote mark behind every italic one.  This module
reads such runs as pieces and finds the marked tokens in them again.

Main results:

- Theorem {lit}`markNumber_markText`: the number of a mark can be read off its text.
- Theorem {lit}`ArticleNode.reads`: what one node is written as reads like its tokens.
- Theorem {lit}`exists_startParse`: with enough fuel an article is converted, and what is
  written reads like the tokens marked in two passes.

Current gaps:

- None.
-/

namespace TestAio
namespace DocUtil

open Library Library.Marking Library.Numbering Library.Tokens MarkedArticle HtmlUtil

/-! ## Reading runs -/

/-- The text of a run. -/
def R.text (r : R) : JString :=
  match r.content with
  | .text value => value
  | .drawing _ => []

/-- The number in the text of a footnote mark. -/
def markNumber (text : JString) : Nat :=
  digitsValue (text.drop 1).dropLast

/-- The pieces of a paragraph.  An italic run is followed by the mark of its footnote. -/
def readRuns : List R → List Piece
  | [] => []
  | r :: rs =>
      if r.rPr.i then
        match rs with
        | [] => [.italic r.text 0]
        | mark :: rs => .italic r.text (markNumber mark.text) :: readRuns rs
      else if r.rPr.b then
        .bold r.text :: readRuns rs
      else
        .plain r.text :: readRuns rs

/-- The pieces of a document, in the order of its paragraphs. -/
def wordPieces (progress : ParseProgress) : List Piece :=
  (allParagraphs progress.nodes).flatMap fun par => readRuns par.content

/-- What runs read like, unit by unit. -/
def readUnits (content : List R) : List Piece :=
  ((readRuns content).map Piece.readSpaces).flatMap Piece.units

/-- The number of a mark can be read off its text. -/
theorem markNumber_markText (num : Nat) : markNumber (markText num) = num := by
  have hdigits : ((markText num).drop 1).dropLast = decimal num := by
    have htext : markText num = 91 :: (decimal num ++ [93]) := rfl
    rw [htext, List.drop_succ_cons, List.drop_zero, List.dropLast_concat]
  rw [markNumber, hdigits, digitsValue_decimal]

theorem readUnits_plain (value : JString) (content : List R) :
    readUnits (genR value (genRpr false false) false false :: content) =
      (value.map fun c => .plain [readSpace c]) ++ readUnits content := by
  have hread : readRuns (genR value (genRpr false false) false false :: content) =
      .plain value :: readRuns content := by
    rw [readRuns.eq_def]
    rfl
  rw [readUnits, hread, List.map_cons, List.flatMap_cons]
  simp [readUnits, Piece.readSpaces, Piece.units]

theorem readUnits_bold (value : JString) (content : List R) :
    readUnits (genR value (genRpr false false) true false :: content) =
      .bold value :: readUnits content := by
  have hread : readRuns (genR value (genRpr false false) true false :: content) =
      .bold value :: readRuns content := by
    rw [readRuns.eq_def]
    rfl
  rw [readUnits, hread]
  rfl

theorem readUnits_italic (value : JString) (num : Nat) (content : List R) :
    readUnits (genR value (genRpr false false) false true :: genMark num :: content) =
      .italic value num :: readUnits content := by
  have hread : readRuns (genR value (genRpr false false) false true :: genMark num :: content) =
      .italic value (markNumber (markText num)) :: readRuns content := by
    rw [readRuns.eq_def]
    rfl
  rw [readUnits, hread, markNumber_markText]
  rfl

/-! ## The nodes of an article -/

/-- The nodes that cutting at the bold and at the italic words leaves: a text, or a word that
one of the passes has marked. -/
inductive ArticleNode : PassageNode → Prop
  | text (value : JString) : ArticleNode { value := value }
  | bold (word : WordNode) : ArticleNode (markWord .bold word { value := word.word })
  | italic (word : WordNode) : ArticleNode (markWord .italic word { value := word.word })

variable {words bolds italics : List WordNode} {flag : Flag}

/-- A pass for bold or italic words hands the shape on. -/
theorem articleNode_of_expands (hflag : flag ≠ .nextLine) {letter : Bool}
    {nodes out : List PassageNode} (h : WorkList.Expands (cutNode words flag letter) nodes out)
    (hnodes : ∀ node ∈ nodes, ArticleNode node) : ∀ node ∈ out, ArticleNode node := by
  refine h.forall_mem (fun node parts hcut hnode => ?_) hnodes
  cases hnode with
  | text value =>
      refine cutNode_forall hcut (fun value => .text value) fun word _ => ?_
      cases flag with
      | nextLine => contradiction
      | bold => exact .bold word
      | italic => exact .italic word
  | bold word => cases hcut
  | italic word => cases hcut

/-! ## What a node is written as -/

/-- An item is a run that reads like some marked tokens. -/
structure ItemReads (item : Item) (marks : List Mark) : Prop where
  run : ∃ value format bold italic overWord, item = .run value format bold italic overWord
  overs : overs [item] = MarkedArticle.italics marks
  reads : ∀ (names : List JString) (content : List R),
    readUnits (itemRuns names item ++ content) =
      marks.flatMap (reading names) ++ readUnits content

/-- Plain tokens read like their text. -/
theorem flatMap_reading_plain (names : List JString) (value : JString) :
    (styled (fun _ => Style.plain) (articleTokens value)).flatMap (reading names) =
      value.map fun c => .plain [readSpace c] := by
  have hflat : (articleTokens value).flatten = value := flatten_tokens value
  rw [styled, List.flatMap_map]
  conv_rhs => rw [← hflat, List.map_flatten]
  rfl

/-- No plain token is numbered. -/
theorem italics_plain (ts : List JString) :
    MarkedArticle.italics (styled (fun _ => Style.plain) ts) = [] := by
  simp [MarkedArticle.italics, styled]

/-- What a node is written as reads like its tokens. -/
theorem ArticleNode.reads {node : PassageNode} (h : ArticleNode node) :
    ∃ item, pieceItem (genRpr false false) node = .ok item ∧ ItemReads item (nodeMarks node) := by
  cases h with
  | text value =>
      refine ⟨_, rfl, ⟨_, _, _, _, _, rfl⟩, (italics_plain _).symm, fun names content => ?_⟩
      have hmarks : nodeMarks { value := value } =
          styled (fun _ => .plain) (articleTokens value) := rfl
      rw [hmarks, flatMap_reading_plain]
      exact readUnits_plain value content
  | bold word =>
      exact ⟨_, rfl, ⟨_, _, _, _, _, rfl⟩, rfl, fun _ content => readUnits_bold word.word content⟩
  | italic word =>
      exact ⟨_, rfl, ⟨_, _, _, _, _, rfl⟩, rfl, fun _ content =>
        readUnits_italic word.word _ content⟩

/-! ## What an article is written as -/

/-- Items are runs that read like some marked tokens. -/
structure ItemsRead (env : Env) (items : List Item) (marks : List Mark) : Prop where
  layout : ∀ (names : List JString) (par : P), layout env names par items =
    [.p { par with content := par.content ++ items.flatMap (itemRuns names) }]
  overs : overs items = MarkedArticle.italics marks
  reads : ∀ names, readUnits (items.flatMap (itemRuns names)) = marks.flatMap (reading names)

variable (env : Env)

theorem ItemsRead.nil : ItemsRead env [] [] :=
  ⟨fun names par => by simp [DocUtil.layout], rfl, fun _ => rfl⟩

theorem ItemsRead.cons {item : Item} {items : List Item} {marks more : List Mark}
    (hitem : ItemReads item marks) (hitems : ItemsRead env items more) :
    ItemsRead env (item :: items) (marks ++ more) := by
  refine ⟨fun names par => ?_, ?_, fun names => ?_⟩
  · rcases hitem.run with ⟨value, format, bold, italic, overWord, rfl⟩
    rw [DocUtil.layout, hitems.layout]
    simp
  · rw [overs_cons, hitem.overs, hitems.overs, italics_append]
  · rw [List.flatMap_cons, hitem.reads, hitems.reads, List.flatMap_append]

/-- The nodes of an article become items that read like their tokens. -/
theorem exists_mapM_articleNode {results : List PassageNode}
    (h : ∀ node ∈ results, ArticleNode node) :
    ∃ items, results.mapM (pieceItem (genRpr false false)) = .ok items ∧
      ItemsRead env items (results.flatMap nodeMarks) := by
  induction results with
  | nil => exact ⟨[], rfl, .nil env⟩
  | cons node results ih =>
      rcases (h node (by simp)).reads with ⟨item, hitem, hreads⟩
      rcases ih fun n hn => h n (by simp [hn]) with ⟨items, hitems, hrest⟩
      refine ⟨item :: items, ?_, hrest.cons env hreads⟩
      rw [List.mapM_cons, hitem, hitems]
      rfl

/-- With enough fuel an article is converted, and what is written reads like the tokens
marked in two passes. -/
theorem exists_startParse {passage : JString} (hpassage : passage ≠ []) (hbreak : 10 ∉ passage)
    (hbolds : ∀ word ∈ bolds, IsWord isLetterUnit word.word)
    (hitalics : ∀ word ∈ italics, IsWord isLetterUnit word.word) (indent : Bool) {fuel : Nat}
    (hfuel : 3 * passage.length + 2 ≤ fuel) :
    ∃ progress marks, startParse env fuel [.text passage] bolds italics indent = .ok progress ∧
      boldPass bolds italics (articleTokens passage) marks ∧
      ((wordPieces progress).map Piece.readSpaces).flatMap Piece.units = readings marks := by
  cases fuel with
  | zero => omega
  | succ fuel =>
      rcases exists_cutText (fun word hword => (hbolds word hword).ne_nil)
        (fun word hword => (hitalics word hword).ne_nil)
        (show 3 * passage.length + 1 ≤ fuel by omega) with ⟨results, hresults⟩
      have hpass := boldPass_of_cutText hbolds hitalics hpassage hbreak hresults
      have hnodes : ∀ node ∈ results, ArticleNode node := by
        rcases expands_of_cutText hpassage hbreak hresults with ⟨marked, hmarked, hitalicised⟩
        refine articleNode_of_expands (by simp) hitalicised
          (articleNode_of_expands (by simp) hmarked fun node hnode => ?_)
        rw [textNodes, if_neg hpassage, List.mem_singleton] at hnode
        exact hnode ▸ .text passage
      rcases exists_mapM_articleNode env hnodes with ⟨items, hitems, hreads⟩
      have hflow : flow env (fuel + 1) [.text passage] (genRpr false false) bolds italics =
          .ok items := by
        simp [flow, hresults, hitems, pure, Except.pure]
      refine ⟨emitAll env (.new indent) items, results.flatMap nodeMarks, ?_, hpass, ?_⟩
      · rw [startParse, parseHtmlNode_eq_emitAll, hflow]
        rfl
      · have hunits := hreads.reads (collect [] (overs items))
        rw [wordPieces, emitAll_new_nodes, hreads.layout]
        rw [hreads.overs] at hunits ⊢
        simpa [allParagraphs, ContentAccessor.paragraphs, genP, readUnits, readings] using hunits

end DocUtil
end TestAio
