import TestAio.Library.Siblings
import TestAio.Util.DocUtil.ParsePassage

/-!
# The HTML-to-Word conversion

This module embeds the conversion of {lit}`DocUtil`: the element tree delivered by
Jsoup, the part of the Word document model it writes, {lit}`ParseProgress`, and the
mutual recursion of {lit}`parseHtmlNode` and {lit}`parseTable`.

The recursion and the loops of {lit}`parsePassage` draw on one fuel counter.  A run
that uses it up aborts with {lit}`outOfFuel`; the other aborts are the exceptions
the Java code can throw.

Main results:

- Theorem {lit}`ParseProgress.PointsAt.addRun`: a run is added to the current
  paragraph, which stays the last node.
- Theorem {lit}`genMark_injective`: a mark determines its number.

Current gaps:

- Fonts, languages and the {lit}`xml:space` attribute are constants that nothing
  reads and are left out.
-/

namespace TestAio
namespace DocUtil

/-! ## The element tree -/

/-- The tag names the conversion distinguishes. -/
inductive Tag
  | br
  | strong
  | div
  | span
  | center
  | bdo
  | p
  | u
  | table
  | img
  | tr
  | td
  | other
deriving DecidableEq

/-- The nodes of the tree.  An element carries its {lit}`src` attribute, which is the
only one that is read. -/
inductive Node
  | text (wholeText : JString)
  | element (tag : Tag) (src : JString) (childNodes : List Node)
  | comment
  | other

mutual

/-- The child lists of the elements with a tag at or below a node. -/
def Node.getElementsByTag (tag : Tag) : Node → List (List Node)
  | .element t _ childNodes =>
      if t = tag then childNodes :: getElementsByTag tag childNodes
      else getElementsByTag tag childNodes
  | _ => []

/-- {lit}`Element.getElementsByTag`: the descendants with a tag in document order, each
given by its children. -/
def getElementsByTag (tag : Tag) : List Node → List (List Node)
  | [] => []
  | node :: nodes => node.getElementsByTag tag ++ getElementsByTag tag nodes

end

/-- Induction over lists of nodes, through the children of the elements. -/
theorem Node.listInduction {motive : List Node → Prop} (nil : motive [])
    (text : ∀ value rest, motive rest → motive (.text value :: rest))
    (element : ∀ tag src childNodes rest, motive childNodes → motive rest →
      motive (.element tag src childNodes :: rest))
    (comment : ∀ rest, motive rest → motive (.comment :: rest))
    (other : ∀ rest, motive rest → motive (.other :: rest)) (nodes : List Node) :
    motive nodes := by
  refine Node.rec_1 (motive_1 := fun node => ∀ rest, motive rest → motive (node :: rest))
    (motive_2 := motive) text (fun tag src childNodes h rest => element tag src childNodes rest h)
    comment other nil (fun node rest hnode hrest => hnode rest hrest) nodes

/-! ## The document model -/

/-- {lit}`STVerticalAlignRun`. -/
inductive VertAlign
  | baseline
  | superscript
deriving DecidableEq

/-- The run properties that the conversion sets. -/
structure RPr where
  b : Bool := false
  bCs : Bool := false
  i : Bool := false
  iCs : Bool := false
  u : Bool := false
  vertAlign : VertAlign := .baseline
deriving DecidableEq

/-- {lit}`DocUtil.setBold`. -/
def setBold (rPr : RPr) : RPr :=
  { rPr with b := true, bCs := true }

/-- {lit}`DocUtil.setItalic`. -/
def setItalic (rPr : RPr) : RPr :=
  { rPr with i := true, iCs := true }

/-- {lit}`DocUtil.setUnderline`. -/
def setUnderline (rPr : RPr) : RPr :=
  { rPr with u := true }

/-- The two optional changes both ways of generating a run end with. -/
def embolden (rPr : RPr) (bold italic : Bool) : RPr :=
  let rPr := if bold then setBold rPr else rPr
  if italic then setItalic rPr else rPr

/-- {lit}`DocUtil.genRpr`. -/
def genRpr (bold italic : Bool) : RPr :=
  embolden {} bold italic

/-- {lit}`DocUtil.copyRpr`. -/
def copyRpr (old : RPr) : RPr :=
  let rPr := { genRpr false false with b := old.b, bCs := old.bCs, i := old.i, iCs := old.iCs }
  if old.u then setUnderline rPr else rPr

/-- The single content element of a run. -/
inductive RunContent
  | text (value : JString)
  | drawing (body : List UInt8)
deriving DecidableEq

/-- A run. -/
structure R where
  rPr : RPr
  content : RunContent
deriving DecidableEq

/-- The indentation of a paragraph. -/
structure Ind where
  firstLine : Nat
  firstLineChars : Nat
deriving DecidableEq

/-- A paragraph. -/
structure P where
  ind : Option Ind
  content : List R
deriving DecidableEq

mutual

/-- A block of the document: a paragraph or a table. -/
inductive ContentAccessor
  | p (p : P)
  | tbl (content : List Tr)

/-- A table row. -/
inductive Tr
  | mk (content : List Tc)

/-- A table cell with its width. -/
inductive Tc
  | mk (tcW : Nat) (content : List ContentAccessor)

end

/-- {lit}`DocUtil.genP(boolean)`. -/
def genP (indent : Bool) : P where
  ind := if indent then some { firstLine := 420, firstLineChars := 200 } else none
  content := []

/-- {lit}`DocUtil.genR(String, RPr, boolean, boolean)`. -/
def genR (text : JString) (format : RPr) (bold italic : Bool) : R where
  rPr := embolden (copyRpr format) bold italic
  content := .text text

/-- The text of a footnote mark. -/
def markText (num : Nat) : JString :=
  jstr "[" ++ decimal num ++ jstr "]"

/-- {lit}`DocUtil.genMark`. -/
def genMark (num : Nat) : R where
  rPr := { genRpr false false with vertAlign := .superscript }
  content := .text (markText num)

/-! ## Code outside the repository -/

/-- What the conversion takes from other code: the {lit}`stripFront` of ANTLR, which
removes the characters of a set from the front of a string, and the answers of the
image server. -/
structure Env where
  stripFront : JString → JString → JString
  stripFront_eq : ∀ s remove, stripFront s remove = s.dropWhile (remove.contains ·)
  download : JString → Option (List UInt8)

/-- An environment in which no image can be loaded. -/
def Env.offline : Env where
  stripFront s remove := s.dropWhile (remove.contains ·)
  stripFront_eq _ _ := rfl
  download _ := none

/-! ## Progress -/

/-- An entry of {lit}`ParseProgress.overWords`. -/
structure OverWord where
  index : Nat
  word : JString
  symbol : JString
  translate : JString
deriving DecidableEq

/-- {lit}`DocUtil.ParseProgress`.  {lit}`now` is the position in {lit}`nodes` of the
current paragraph, and {lit}`afters` holds the image bodies still to be embedded. -/
structure ParseProgress where
  overWords : List OverWord
  nodes : List ContentAccessor
  afters : List (List UInt8)
  now : Nat

/-- The constructor {lit}`ParseProgress(boolean)`. -/
def ParseProgress.new (indent : Bool) : ParseProgress where
  overWords := []
  nodes := [.p (genP indent)]
  afters := []
  now := 0

/-- {lit}`progress.now = genP(true); progress.nodes.add(progress.now)`. -/
def ParseProgress.newParagraph (progress : ParseProgress) : ParseProgress :=
  { progress with
    nodes := progress.nodes ++ [.p (genP true)]
    now := progress.nodes.length }

/-- {lit}`getContent().add(r)` on a paragraph. -/
def ContentAccessor.addRun (r : R) : ContentAccessor → ContentAccessor
  | .p par => .p { par with content := par.content ++ [r] }
  | .tbl content => .tbl content

/-- {lit}`progress.now.getContent().add(r)`. -/
def ParseProgress.addRun (progress : ParseProgress) (r : R) : ParseProgress :=
  { progress with nodes := progress.nodes.modify progress.now (ContentAccessor.addRun r) }

/-- {lit}`replaceAll("(<br>|\n)", " ")`. -/
def replaceBreaks : JString → JString
  | 60 :: 98 :: 114 :: 62 :: rest => 32 :: replaceBreaks rest
  | c :: rest => (if c = 10 then 32 else c) :: replaceBreaks rest
  | [] => []

/-- The number of an over-word, and the progress after a first occurrence has been
recorded. -/
def ParseProgress.number (progress : ParseProgress) (wordNode : WordNode) :
    Nat × ParseProgress :=
  let num := match progress.overWords.find? fun word => wordNode.word == word.word with
    | some word => word.index
    | none => 0
  if num = 0 then
    let num := progress.overWords.length + 1
    (num, { progress with overWords := progress.overWords ++
      [{ index := num
         word := wordNode.word
         symbol := wordNode.americaPronunciation
         translate := replaceBreaks wordNode.meaning }] })
  else
    (num, progress)

/-- Why a run of the conversion does not return. -/
inductive Abort
  | outOfFuel
  | arithmetic
  | nullPointer
deriving DecidableEq

/-- The body of the loop over the nodes that {lit}`parsePassage` returns. -/
def addNode (format : RPr) (progress : ParseProgress) (pnode : PassageNode) :
    Except Abort ParseProgress :=
  if pnode.nextLine then
    .ok progress.newParagraph
  else
    let progress := progress.addRun (genR pnode.value format pnode.bold pnode.italic)
    if pnode.italic then
      match pnode.wordNode with
      | none => .error .nullPointer
      | some wordNode =>
          let (num, progress) := progress.number wordNode
          .ok (progress.addRun (genMark num))
    else
      .ok progress

/-! ## Trimming -/

/-- The {lit}`while` loop of {lit}`DocUtil.trim` on the runs of one paragraph. -/
def trimContent (env : Env) : List R → List R
  | [] => []
  | r :: content =>
      match r.content with
      | .text value =>
          if isBlank value then
            trimContent env content
          else
            { r with content := .text (env.stripFront value (jstr " \t")) } :: content
      | .drawing _ => r :: content

/-- The loop body of {lit}`DocUtil.trim`. -/
def ContentAccessor.trimmed (env : Env) : ContentAccessor → ContentAccessor
  | .p par => .p { par with content := trimContent env par.content }
  | .tbl content => .tbl content

/-- {lit}`getContent().isEmpty()`. -/
def ContentAccessor.isEmpty : ContentAccessor → Bool
  | .p par => par.content.isEmpty
  | .tbl content => content.isEmpty

/-- {lit}`DocUtil.trim`. -/
def trimNodes (env : Env) (list : List ContentAccessor) : List ContentAccessor :=
  (list.map (ContentAccessor.trimmed env)).filter fun it => !it.isEmpty

/-- A paragraph is trimmed, and dropped when nothing is left of it. -/
theorem trimNodes_cons_p (env : Env) (par : P) (blocks : List ContentAccessor) :
    trimNodes env (.p par :: blocks) =
      if trimContent env par.content = [] then trimNodes env blocks
      else .p { par with content := trimContent env par.content } :: trimNodes env blocks := by
  simp [trimNodes, List.filter_cons, ContentAccessor.trimmed, ContentAccessor.isEmpty]

/-- A table is left alone, and dropped when it has no rows. -/
theorem trimNodes_cons_tbl (env : Env) (rows : List Tr) (blocks : List ContentAccessor) :
    trimNodes env (.tbl rows :: blocks) =
      if rows = [] then trimNodes env blocks else .tbl rows :: trimNodes env blocks := by
  simp [trimNodes, List.filter_cons, ContentAccessor.trimmed, ContentAccessor.isEmpty]

/-- The indentation {lit}`parseTable` gives to the paragraphs of a cell. -/
def ContentAccessor.indentCell : ContentAccessor → ContentAccessor
  | .p par => .p { par with ind := some { firstLine := 315, firstLineChars := 150 } }
  | .tbl content => .tbl content

/-! ## The conversion -/

/-- The passes of {lit}`parsePassage` over the text of one text node. -/
def cutText (fuel : Nat) (value : JString) (bolds italics : List WordNode) :
    Except Abort (List PassageNode) :=
  let pass (nodes : List PassageNode) (words : List WordNode) (flag : Flag) (letter : Bool) :=
    (parsePassage fuel nodes words flag letter).elim (Except.error Abort.outOfFuel) Except.ok
  do
    let results ← pass [{ value := value }] [WordNode.ofWord (jstr "\n")] .nextLine false
    let results ← if bolds.isEmpty then .ok results else pass results bolds .bold true
    if italics.isEmpty then .ok results else pass results italics .italic true

/-- The branch for an image that could be loaded. -/
def ParseProgress.addImage (progress : ParseProgress) (body : List UInt8) : ParseProgress :=
  let progress := { progress with afters := progress.afters ++ [body] }
  let progress := progress.newParagraph
  let progress := progress.addRun { rPr := genRpr false false, content := .drawing body }
  progress.newParagraph

/-- The end of {lit}`parseTable`: the table and a new paragraph behind it. -/
def ParseProgress.addTable (progress : ParseProgress) (rows : List Tr) : ParseProgress :=
  let progress := { progress with nodes := progress.nodes ++ [ContentAccessor.tbl rows] }
  progress.newParagraph

/-- The body of the loop of {lit}`parseTable` over the cells of a row; {lit}`convert` is
the conversion of a cell with a progress of its own. -/
def addCell (env : Env) (convert : List Node → Except Abort ParseProgress) (width : Nat)
    (acc : List Tc × ParseProgress) (td : List Node) :
    Except Abort (List Tc × ParseProgress) := do
  let tdProgress ← convert td
  let nodes := (trimNodes env tdProgress.nodes).map ContentAccessor.indentCell
  .ok (acc.1 ++ [Tc.mk width nodes],
    { acc.2 with afters := acc.2.afters ++ tdProgress.afters })

/-- The body of the loop of {lit}`parseTable` over the rows. -/
def addRow (env : Env) (convert : List Node → Except Abort ParseProgress)
    (acc : List Tr × ParseProgress) (tr : List Node) :
    Except Abort (List Tr × ParseProgress) :=
  let tds := getElementsByTag .td tr
  if tds.length = 0 then
    .error .arithmetic
  else do
    let (cells, progress) ← tds.foldlM (addCell env convert (7152 / tds.length)) ([], acc.2)
    .ok (acc.1 ++ [Tr.mk cells], progress)

mutual

/-- {lit}`DocUtil.parseHtmlNode` on the children of an element. -/
def parseHtmlNode (env : Env) : Nat → List Node → ParseProgress → RPr → List WordNode →
    List WordNode → Bool → Except Abort ParseProgress
  | 0, _, _, _, _, _, _ => .error .outOfFuel
  | fuel + 1, childNodes, progress, format, bolds, italics, indent =>
      childNodes.foldlM (fun progress node =>
        match node with
        | .text value => do
            let results ← cutText fuel value bolds italics
            results.foldlM (addNode format) progress
        | .element tag src childNodes =>
            match tag with
            | .br => .ok progress.newParagraph
            | .strong =>
                parseHtmlNode env fuel childNodes progress (setBold (copyRpr format))
                  bolds italics indent
            | .div | .span | .center | .bdo =>
                parseHtmlNode env fuel childNodes progress format bolds italics indent
            | .p => do
                let progress ← parseHtmlNode env fuel childNodes progress.newParagraph format
                  bolds italics indent
                .ok progress.newParagraph
            | .u =>
                parseHtmlNode env fuel childNodes progress (setUnderline (copyRpr format))
                  [] [] indent
            | .table => parseTable env fuel childNodes progress bolds italics indent
            | .img =>
                match env.download src with
                | some body => .ok (progress.addImage body)
                | none => .ok progress
            | .tr | .td | .other => .ok progress
        | .comment | .other => .ok progress) progress

/-- {lit}`DocUtil.parseTable` on the children of a table. -/
def parseTable (env : Env) : Nat → List Node → ParseProgress → List WordNode →
    List WordNode → Bool → Except Abort ParseProgress
  | 0, _, _, _, _, _ => .error .outOfFuel
  | fuel + 1, table, progress, bolds, italics, indent =>
      let trs := getElementsByTag .tr table
      if trs.isEmpty then
        .ok progress
      else do
        let (rows, progress) ← trs.foldlM (addRow env fun td =>
          parseHtmlNode env fuel td (ParseProgress.new false) (genRpr false false)
            bolds italics indent) ([], progress)
        .ok (progress.addTable rows)

end

/-- {lit}`DocUtil.startParse` on the tree Jsoup delivers. -/
def startParse (env : Env) (fuel : Nat) (body : List Node) (bolds italics : List WordNode)
    (indent : Bool) : Except Abort ParseProgress :=
  parseHtmlNode env fuel body (ParseProgress.new indent) (genRpr false false) bolds italics indent

/-! ## The current paragraph -/

/-- The current paragraph is the last node. -/
def ParseProgress.PointsAt (progress : ParseProgress) (init : List ContentAccessor)
    (p : P) : Prop :=
  progress.nodes = init ++ [.p p] ∧ progress.now = init.length

theorem ParseProgress.new_pointsAt (indent : Bool) :
    (ParseProgress.new indent).PointsAt [] (genP indent) :=
  ⟨rfl, rfl⟩

/-- A new paragraph becomes the current one behind all blocks so far. -/
theorem ParseProgress.PointsAt.newParagraph {progress : ParseProgress}
    {init : List ContentAccessor} {p : P} (h : progress.PointsAt init p) :
    progress.newParagraph.PointsAt (init ++ [.p p]) (genP true) := by
  refine ⟨?_, ?_⟩
  · rw [ParseProgress.newParagraph, h.1]
  · rw [ParseProgress.newParagraph, h.1]

/-- Adding a run extends the current paragraph and nothing else. -/
theorem ParseProgress.PointsAt.addRun {progress : ParseProgress}
    {init : List ContentAccessor} {p : P} (h : progress.PointsAt init p) (r : R) :
    (progress.addRun r).PointsAt init { p with content := p.content ++ [r] } := by
  refine ⟨?_, h.2⟩
  simp only [ParseProgress.addRun]
  rw [h.1, h.2, Library.Siblings.modify_length_append]
  rfl

@[simp]
theorem ParseProgress.addRun_overWords (progress : ParseProgress) (r : R) :
    (progress.addRun r).overWords = progress.overWords :=
  rfl

@[simp]
theorem ParseProgress.addRun_afters (progress : ParseProgress) (r : R) :
    (progress.addRun r).afters = progress.afters :=
  rfl

@[simp]
theorem ParseProgress.newParagraph_overWords (progress : ParseProgress) :
    progress.newParagraph.overWords = progress.overWords :=
  rfl

/-! ## Marks -/

/-- A mark determines its number. -/
theorem genMark_injective {m n : Nat} (h : genMark m = genMark n) : m = n := by
  have htext : markText m = markText n := by
    have := congrArg R.content h
    simpa [genMark] using this
  unfold markText at htext
  rw [List.append_left_inj, List.append_right_inj] at htext
  exact decimal_injective htext

/-- A generated run is never a mark. -/
@[simp]
theorem genR_ne_genMark (text : JString) (format : RPr) (bold italic : Bool) (num : Nat) :
    genR text format bold italic ≠ genMark num := by
  intro h
  have halign := congrArg (fun r => r.rPr.vertAlign) h
  cases bold <;> cases italic <;> cases hu : format.u <;>
    simp [genR, genMark, genRpr, embolden, copyRpr, setBold, setItalic, setUnderline, hu]
      at halign

end DocUtil
end TestAio
