import TestAio.Library.Effects
import TestAio.Main.Parse.Passages.Line

/-!
# The parser of weekly plans

{lit}`Passage2` reads a document of another kind: the headings and the translations of the
passages stand in its lines and their texts in its first two tables.  A passage is made
when its number is first met, by a heading, by a translation or for a table.

Main results:

- Theorem {lit}`parse_eq`: the check for an empty list never finds one.
- Theorem {lit}`parse_eq_error_or`: what can stop the parser.
- Theorem {lit}`parse_returns`: with tables of two cells only a number can stop the parser.
- Theorem {lit}`empty_reported_iff`: a document without a heading is never reported.

Current gaps:

- A document has at least two tables.
- The output to the database is commented out in the source and not modelled.
-/

namespace TestAio
namespace Passage2

open Passages Library

/-! ## Data -/

/-- A passage. -/
structure Passage where
  index : Nat := 0
  id : Nat := 0
  wordCount : Nat := 0
  content : JString := []
  questions : List JString := []
  words : List JString := []
  translate : JString := []
deriving DecidableEq

/-- The stages, in the order of the source. -/
inductive Stage
  | completed
  | translate
  | waitTranslate
  | answer
  | waitAnswer
  | content
  | waitPassage
  | waitStart
deriving DecidableEq

/-- A reference to a passage: its place in {lit}`list`, from which nothing is removed. -/
abbrev Ref := Nat

/-- The static fields. -/
structure Parser where
  stage : Stage := .waitStart
  difficulty : Nat := 0
  answers : JString := []
  nowPassage : Option Ref := none
  list : List Passage := []
deriving DecidableEq

/-- The paragraphs of a cell. -/
abbrev Cell := List JString

/-- The cells of a table by rows. -/
abbrev Table := List (List Cell)

/-- A document: its paragraphs and the first two of its tables. -/
structure Document where
  paragraphs : List JString
  first : Table
  second : Table

/-! ## Stages -/

/-- {lit}`getOrCreate`: the list and the place of the passage in it. -/
def getOrCreate (list : List Passage) (index : Nat) : List Passage × Ref :=
  match list.findIdx? fun passage => passage.index == index with
  | some ref => (list, ref)
  | none => (list ++ [{ index := index }], list.length)

/-- The word of {lit}`PASSAGE_PATTERN`; one digit follows it. -/
def passageLead : JString :=
  jstr "Passage "

/-- The word of {lit}`COUNT_PATTERN`. -/
def countLead : JString :=
  jstr "篇幅（含问题选项）："

/-- The word of {lit}`ID_PATTERN`. -/
def idLead : JString :=
  jstr "本篇编号："

/-- The word of {lit}`DIFFICULTY_PATTERN`. -/
def difficultyLead : JString :=
  jstr "本次文章词汇难度值"

/-- The function {lit}`next` of each stage. -/
def Stage.next : Stage → Line → Stage → Stage
  | .completed, _, now => now
  | .translate, line, now =>
      if Search.contains line.trim (jstr "分层周计划训练") then .completed else now
  | .waitTranslate, line, now =>
      if startsWith line.trim (jstr "全文参考译文") then .translate else now
  | .answer, line, now =>
      if startsWith line.trim (jstr "难句翻译参考译文") then .waitTranslate else now
  | .waitAnswer, line, now => if startsWith line.trim (jstr "答案和解析") then .answer else now
  | .content, line, now =>
      if startsWith line.trim (jstr "请翻译并熟读下列句子") then .waitAnswer else now
  | .waitPassage, line, now =>
      if startsWith line.trim (jstr "阅读真题强化") then .content else now
  | .waitStart, _, now => now

/-- The digit of a heading {lit}`Passage <digit>`. -/
def heading (line : Line) : Option JString :=
  if startsWith line.trim passageLead then findOneDigit passageLead line.trim else none

/-- An assignment of a matched number to a field of a passage. -/
def assign (list : List Passage) (ref : Ref) (digits : Option JString)
    (set : Nat → Passage → Passage) : Except JavaException (List Passage) :=
  match digits with
  | some digits => do
      let n ← parseInt digits
      .ok (list.modify ref (set n))
  | none => .ok list

/-- The handler {lit}`parse` of each stage. -/
def Stage.parse (stage : Stage) (parser : Parser) (line : Line) :
    Except JavaException Parser :=
  match stage with
  | .completed | .waitTranslate | .waitAnswer | .waitPassage => .ok parser
  | .translate =>
      if startsWith line.trim passageLead then
        match findOneDigit passageLead line.trim with
        | some digit => do
            let index ← parseInt digit
            let (list, ref) := getOrCreate parser.list index
            .ok { parser with list := list, nowPassage := some ref }
        | none => .ok parser
      else
        match parser.nowPassage with
        | some ref =>
            .ok { parser with
              list := parser.list.modify ref fun passage =>
                { passage with translate := passage.translate ++ line.origin ++ [lineFeed] } }
        | none => .ok parser
  | .answer => .ok { parser with answers := parser.answers ++ line.origin ++ [lineFeed] }
  | .content =>
      if startsWith line.trim passageLead then
        match findOneDigit passageLead line.trim with
        | some digit => do
            let index ← parseInt digit
            let (list, ref) := getOrCreate parser.list index
            let list ← assign list ref (findNumber countLead line.trim) fun n passage =>
              { passage with wordCount := n }
            let list ← assign list ref (findNumber idLead line.trim) fun n passage =>
              { passage with id := n }
            .ok { parser with list := list }
        | none => .ok parser
      else
        .ok parser
  | .waitStart =>
      match findNumber difficultyLead line.trim with
      | some digits => do
          let n ← parseInt digits
          .ok { parser with difficulty := n, stage := .waitPassage }
      | none => .ok parser

/-! ## Tables -/

/-- The stages inside a table. -/
inductive TableStage
  | question
  | content
deriving DecidableEq

/-- The function {lit}`next` of each stage. -/
def TableStage.next : TableStage → Line → TableStage → TableStage
  | .question, _, now => now
  | .content, line, now => if startsWith line.trim (jstr "郑重提示") then .question else now

/-- The handler {lit}`parse` of each stage. -/
def TableStage.parse (stage : TableStage) (passage : Passage) (line : Line) : Passage :=
  match stage with
  | .question => { passage with questions := passage.questions ++ [line.origin] }
  | .content => { passage with content := passage.content ++ line.origin ++ [lineFeed] }

/-- The loop over the paragraphs of the first cell. -/
def readContent (stage : TableStage) (passage : Passage) : Cell → Passage
  | [] => passage
  | text :: rest =>
      let line : Line := { origin := text, trim := trim text }
      let stage := stage.next line stage
      readContent stage (stage.parse passage line) rest

/-- {lit}`parseTable`, for the passage at a place of the list. -/
def parseTable (list : List Passage) (ref : Ref) (table : Table) :
    Except JavaException (List Passage) :=
  match table with
  | [] => .error .nullPointer
  | row :: _ =>
      match row with
      | content :: words :: _ =>
          .ok (list.modify ref fun passage =>
            let passage := readContent .content passage content
            { passage with words := passage.words ++ words })
      | _ => .error .nullPointer

/-! ## Runs -/

/-- One round of the loop. -/
def Parser.feed (parser : Parser) (line : Line) : Except JavaException Parser :=
  let parser := { parser with stage := parser.stage.next line parser.stage }
  parser.stage.parse parser line

/-- The static fields behind the first statements of {lit}`parse`. -/
def start : Parser :=
  {}

/-- The exception for a document without passages. -/
def emptyPassage : JavaException :=
  .exception (jstr "Empty Passage")

/-- {lit}`parse`: the returned value and the static fields behind it. -/
def parse (document : Document) : Except JavaException (Bool × Parser) := do
  let parser ← (documentLines document.paragraphs).foldlM Parser.feed start
  let (list, first) := getOrCreate parser.list 1
  let list ← parseTable list first document.first
  let (list, second) := getOrCreate list 2
  let list ← parseTable list second document.second
  if list.isEmpty then
    .error emptyPassage
  else
    .ok (true, { parser with list := list })

/-- Whether a heading is read in stage {lit}`CONTENT`, before the parser stops. -/
def readsHeading (parser : Parser) : List Line → Bool
  | [] => false
  | line :: rest =>
      if parser.stage.next line parser.stage = .content ∧ (heading line).isSome then
        true
      else
        match parser.feed line with
        | .ok parser => readsHeading parser rest
        | .error _ => false

/-! ## Failures -/

/-- Reading a number fails in one way. -/
theorem parseInt_eq_error {digits : JString} {e : JavaException}
    (h : parseInt digits = .error e) : e = .numberFormat := by
  unfold parseInt at h
  split at h
  · cases h
  · cases h
    rfl

/-- Setting a field fails in one way. -/
theorem assign_eq_error {list : List Passage} {ref : Ref} {digits : Option JString}
    {set : Nat → Passage → Passage} {e : JavaException}
    (h : assign list ref digits set = .error e) : e = .numberFormat := by
  cases digits with
  | none => cases h
  | some digits =>
      rcases Effects.bind_eq_error_iff.mp h with h | ⟨n, -, h⟩
      · exact parseInt_eq_error h
      · cases h

/-- A handler fails only at a number. -/
theorem parse_eq_error {stage : Stage} {parser : Parser} {line : Line} {e : JavaException}
    (h : stage.parse parser line = .error e) : e = .numberFormat := by
  cases stage with
  | completed | waitTranslate | waitAnswer | waitPassage | answer => cases h
  | translate =>
      simp only [Stage.parse] at h
      split at h
      · split at h
        · rcases Effects.bind_eq_error_iff.mp h with h | ⟨index, -, h⟩
          · exact parseInt_eq_error h
          · cases h
        · cases h
      · split at h <;> cases h
  | content =>
      simp only [Stage.parse] at h
      split at h
      · split at h
        · rcases Effects.bind_eq_error_iff.mp h with h | ⟨index, -, h⟩
          · exact parseInt_eq_error h
          · rcases Effects.bind_eq_error_iff.mp h with h | ⟨list, -, h⟩
            · exact assign_eq_error h
            · rcases Effects.bind_eq_error_iff.mp h with h | ⟨list, -, h⟩
              · exact assign_eq_error h
              · cases h
        · cases h
      · cases h
  | waitStart =>
      simp only [Stage.parse] at h
      split at h
      · rcases Effects.bind_eq_error_iff.mp h with h | ⟨n, -, h⟩
        · exact parseInt_eq_error h
        · cases h
      · cases h

/-- The loop over the lines fails only at a number. -/
theorem foldlM_feed_eq_error {lines : List Line} {parser : Parser} {e : JavaException}
    (h : lines.foldlM Parser.feed parser = .error e) : e = .numberFormat := by
  induction lines generalizing parser with
  | nil => cases h
  | cons line lines ih =>
      rw [List.foldlM_cons] at h
      rcases Effects.bind_eq_error_iff.mp h with h | ⟨next, -, h⟩
      · exact parse_eq_error h
      · exact ih h

/-- Reading a table fails in one way. -/
theorem parseTable_eq_error {list : List Passage} {ref : Ref} {table : Table}
    {e : JavaException} (h : parseTable list ref table = .error e) : e = .nullPointer := by
  unfold parseTable at h
  split at h
  · cases h
    rfl
  · split at h
    · cases h
    · cases h
      rfl

/-! ## The list of passages -/

/-- After {lit}`getOrCreate` there is a passage. -/
theorem getOrCreate_ne_nil (list : List Passage) (index : Nat) :
    (getOrCreate list index).1 ≠ [] := by
  unfold getOrCreate
  split
  · rename_i ref hfind
    intro hnil
    change list = [] at hnil
    rw [hnil] at hfind
    cases hfind
  · simp

/-- A table takes no passage away. -/
theorem length_of_parseTable {list list' : List Passage} {ref : Ref} {table : Table}
    (h : parseTable list ref table = .ok list') : list'.length = list.length := by
  unfold parseTable at h
  split at h
  · cases h
  · split at h
    · cases h
      exact List.length_modify _ _ _
    · cases h

/-- The check for an empty list never finds one. -/
theorem parse_eq (document : Document) :
    parse document =
      (documentLines document.paragraphs).foldlM Parser.feed start >>= fun parser =>
        parseTable (getOrCreate parser.list 1).1 (getOrCreate parser.list 1).2 document.first
          >>= fun list =>
            parseTable (getOrCreate list 2).1 (getOrCreate list 2).2 document.second
              >>= fun list => .ok (true, { parser with list := list }) := by
  unfold parse
  refine bind_congr fun parser => bind_congr fun list => ?_
  change (parseTable (getOrCreate list 2).1 (getOrCreate list 2).2 document.second
    >>= fun list =>
      if list.isEmpty then .error emptyPassage else .ok (true, { parser with list := list })) = _
  cases htable : parseTable (getOrCreate list 2).1 (getOrCreate list 2).2 document.second with
  | error e => rfl
  | ok list' =>
      have hne : list' ≠ [] := by
        intro hnil
        have hlength := length_of_parseTable htable
        rw [hnil, List.length_nil] at hlength
        exact getOrCreate_ne_nil list 2 (List.length_eq_zero_iff.mp hlength.symm)
      have hempty : ¬ list'.isEmpty = true := by simpa using hne
      rw [Effects.ok_bind, Effects.ok_bind, if_neg hempty]

/-- The parser stops at a number or at a table without two cells, and never because the
document is empty. -/
theorem parse_eq_error_or {document : Document} {e : JavaException}
    (h : parse document = .error e) : e = .numberFormat ∨ e = .nullPointer := by
  rw [parse_eq] at h
  rcases Effects.bind_eq_error_iff.mp h with h | ⟨parser, -, h⟩
  · exact Or.inl (foldlM_feed_eq_error h)
  · rcases Effects.bind_eq_error_iff.mp h with h | ⟨list, -, h⟩
    · exact Or.inr (parseTable_eq_error h)
    · rcases Effects.bind_eq_error_iff.mp h with h | ⟨list, -, h⟩
      · exact Or.inr (parseTable_eq_error h)
      · cases h

/-- The parser never complains of an empty passage. -/
theorem parse_ne_emptyPassage (document : Document) : parse document ≠ .error emptyPassage := by
  intro h
  rcases parse_eq_error_or h with heq | heq <;> cases heq

/-- A table whose first row has two cells. -/
def HasCells (table : Table) : Prop :=
  ∃ content words cells rows, table = (content :: words :: cells) :: rows

/-- A table whose rows have their cells is read. -/
theorem parseTable_of_hasCells {table : Table} (h : HasCells table) (list : List Passage)
    (ref : Ref) : ∃ list', parseTable list ref table = .ok list' := by
  rcases h with ⟨content, words, cells, rows, rfl⟩
  exact ⟨_, rfl⟩

/-- With tables of two cells only a number can stop the parser. -/
theorem parse_returns {document : Document} (hfirst : HasCells document.first)
    (hsecond : HasCells document.second) (hnumber : parse document ≠ .error .numberFormat) :
    ∃ parser, parse document = .ok (true, parser) := by
  rw [parse_eq] at hnumber ⊢
  cases hread : (documentLines document.paragraphs).foldlM Parser.feed start with
  | error e =>
      rw [hread, foldlM_feed_eq_error hread] at hnumber
      exact absurd rfl hnumber
  | ok parser =>
      rcases parseTable_of_hasCells hfirst (getOrCreate parser.list 1).1
        (getOrCreate parser.list 1).2 with ⟨list, hlist⟩
      rcases parseTable_of_hasCells hsecond (getOrCreate list 2).1 (getOrCreate list 2).2 with
        ⟨list', hlist'⟩
      refine ⟨{ parser with list := list' }, ?_⟩
      simp only [Effects.ok_bind, hlist, hlist']

/-- A document in which no heading is read is never reported as empty, so documents are
treated as intended exactly when one is read. -/
theorem empty_reported_iff (document : Document) :
    (readsHeading start (documentLines document.paragraphs) = false →
        parse document = .error emptyPassage ∧
          ∀ parser, parse document ≠ .ok (true, parser)) ↔
      readsHeading start (documentLines document.paragraphs) = true := by
  constructor
  · intro h
    by_contra hnone
    exact parse_ne_emptyPassage document (h (by simpa using hnone)).1
  · intro h hnone
    rw [h] at hnone
    cases hnone

/-- A document without lines. -/
def blankDocument : Document where
  paragraphs := []
  first := [[[], []]]
  second := [[[], []]]

/-- It is accepted. -/
theorem blankDocument_accepted :
    readsHeading start (documentLines blankDocument.paragraphs) = false ∧
      parse blankDocument =
        .ok (true, { list := [{ index := 1 }, { index := 2 }] }) :=
  ⟨rfl, by decide +kernel⟩

end Passage2
end TestAio
