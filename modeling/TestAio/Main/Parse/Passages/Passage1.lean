import TestAio.Library.Effects
import TestAio.Main.Parse.Passages.Line

/-!
# The parser of reading documents

{lit}`Passage1` reads a document with a machine of eleven stages.  Each stage has a
function that chooses the next stage for a line and a handler that runs on the
line in the stage just chosen.  Passages are objects: {lit}`current` refers to the
passage being read or, in the translation section, to one that is filed already.

Main results:

- Theorem {lit}`stage_of_feed`: the stages of a run depend on the lines alone.
- Theorem {lit}`passages_of_feed`: a line files a passage exactly when the stage it leads to
  is {lit}`COMPLETE`.
- Theorem {lit}`objectIds_of_parse`: only the handler of {lit}`MSG` changes the id of a passage.

Current gaps:

- The output to the database is commented out in the source and not modelled.
-/

namespace TestAio
namespace Passage1

open Passages Library

/-! ## Data -/

/-- A passage. -/
structure Passage where
  index : Nat := 0
  id : Nat := 0
  wordCount : Nat := 0
  difficulty : Nat := 0
  content : JString := []
  questions : JString := []
  words : JString := []
  translate : JString := []
deriving DecidableEq

/-- The stages, in the order of the source. -/
inductive Stage
  | completed
  | complete
  | translate
  | waitTranslate
  | answer
  | question
  | word
  | content
  | msg
  | waitPassage
  | waitStart
deriving DecidableEq

/-- A reference to a passage object. -/
abbrev Ref := Nat

/-- The fields of a parser, with the passage objects it has made so far. -/
structure Parser where
  /-- The objects in the order of their creation. -/
  objects : List Passage := []
  passages : List (Option Ref) := []
  answer : JString := []
  current : Option Ref := none
  stage : Stage := .waitStart
deriving DecidableEq

/-- {lit}`current = new Passage()`. -/
def Parser.renew (parser : Parser) : Parser :=
  { parser with
    objects := parser.objects ++ [{}]
    current := some parser.objects.length }

/-- An assignment to a field of {lit}`current`. -/
def Parser.modifyCurrent (parser : Parser) (f : Passage → Passage) :
    Except JavaException Parser :=
  match parser.current with
  | some ref => .ok { parser with objects := parser.objects.modify ref f }
  | none => .error .nullPointer

/-- The first filed passage with the number. -/
def findIndex (objects : List Passage) (index : Nat) :
    List (Option Ref) → Except JavaException (Option Ref)
  | [] => .ok none
  | none :: _ => .error .nullPointer
  | some ref :: rest =>
      if objects[ref]?.any fun passage => passage.index == index then
        .ok (some ref)
      else
        findIndex objects index rest

/-- {lit}`getIndex`. -/
def Parser.getIndex (parser : Parser) (index : Nat) : Except JavaException Parser := do
  let current ← findIndex parser.objects index parser.passages
  .ok { parser with current := current }

/-! ## Stages -/

/-- The word of {lit}`PASSAGE_PATTERN` and of {lit}`regex`; one digit follows it. -/
def passageLead : JString :=
  jstr "Passage "

/-- The word of {lit}`COUNT_PATTERN`. -/
def countLead : JString :=
  jstr "单词数："

/-- The word of {lit}`ID_PATTERN`. -/
def idLead : JString :=
  jstr "编号："

/-- {lit}`parseFirstStage`. -/
def parseFirstStage (line : Line) (now : Stage) : Stage :=
  if answers line then
    .answer
  else if translates line then
    .waitTranslate
  else if now = .completed && opens line then
    .msg
  else
    now

/-- The function {lit}`next` of each stage. -/
def Stage.next : Stage → Line → Stage → Stage
  | .completed, line, now => parseFirstStage line now
  | .complete, _, _ => .completed
  | .translate, _, now => now
  | .waitTranslate, line, now => if startsWith line.trim passageLead then .translate else now
  | .answer, line, now => if translates line then .waitTranslate else now
  | .question, line, now => if finishes line then .complete else now
  | .word, line, now => if reminds line then .question else now
  | .content, line, now =>
      if glossary line then .word else if reminds line then .question else now
  | .msg, line, now => if begins line then .content else now
  | .waitPassage, line, now => if opens line then .msg else now
  | .waitStart, _, now => now

/-- The field of a passage that a matched number is assigned to. -/
def Parser.assign (parser : Parser) (digits : Option JString) (set : Nat → Passage → Passage) :
    Except JavaException Parser :=
  match digits with
  | some digits => do
      let n ← parseInt digits
      parser.modifyCurrent (set n)
  | none => .ok parser

/-- What a handler adds for a line. -/
def Line.text (line : Line) : JString :=
  line.origin ++ [lineFeed]

/-- The first half of the handler of {lit}`TRANSLATE`: a line with a passage number changes
{lit}`current`. -/
def Parser.locate (parser : Parser) (line : Line) : Except JavaException Parser :=
  match findOneDigit passageLead line.trim with
  | some digit => do
      let index ← parseInt digit
      parser.getIndex index
  | none => .ok parser

/-- The handler {lit}`parse` of each stage. -/
def Stage.parse (stage : Stage) (parser : Parser) (line : Line) :
    Except JavaException Parser :=
  match stage with
  | .completed | .complete | .waitTranslate | .waitPassage => .ok parser
  | .translate => do
      let parser ← parser.locate line
      if parser.current.isNone then
        .ok parser
      else
        parser.modifyCurrent fun passage =>
          { passage with translate := passage.translate ++ Line.text line }
  | .answer => .ok { parser with answer := parser.answer ++ Line.text line }
  | .question =>
      parser.modifyCurrent fun passage =>
        { passage with questions := passage.questions ++ Line.text line }
  | .word =>
      parser.modifyCurrent fun passage => { passage with words := passage.words ++ Line.text line }
  | .content =>
      parser.modifyCurrent fun passage =>
        { passage with content := passage.content ++ Line.text line }
  | .msg => do
      let parser ← parser.assign (findOneDigit passageLead line.trim) fun n passage =>
        { passage with index := n }
      let parser ← parser.assign (findNumber countLead line.trim) fun n passage =>
        { passage with wordCount := n }
      parser.assign (findNumber idLead line.trim) fun n passage => { passage with id := n }
  | .waitStart =>
      match findNumber difficultyLead line.trim with
      | some digits => do
          let n ← parseInt digits
          let parser ← parser.modifyCurrent fun passage => { passage with difficulty := n }
          .ok { parser with stage := .waitPassage }
      | none => .ok parser

/-! ## Runs -/

/-- {lit}`passages.add(current)`, a new passage and the stage behind it. -/
def Parser.file (parser : Parser) : Parser :=
  { { parser with passages := parser.passages ++ [parser.current] }.renew with
    stage := .completed }

/-- One round of the loop. -/
def Parser.feed (parser : Parser) (line : Line) : Except JavaException Parser :=
  let parser := { parser with stage := parser.stage.next line parser.stage }
  let parser := if parser.stage = .complete then parser.file else parser
  parser.stage.parse parser line

/-- {lit}`new Passage1()`. -/
def fresh : Parser :=
  {}

/-- What {lit}`parse` does before the loop. -/
def Parser.start (parser : Parser) : Parser :=
  { parser with answer := [] }.renew

/-- The loop over the lines. -/
def Parser.read (parser : Parser) (lines : List Line) : Except JavaException Parser :=
  lines.foldlM Parser.feed parser

/-- {lit}`parse`: the returned value and the parser behind it. -/
def Parser.parse (parser : Parser) (document : List JString) :
    Except JavaException (Bool × Parser) := do
  let parser ← parser.start.read (documentLines document)
  if parser.passages.isEmpty then
    .error (.exception (jstr "Empty Passage"))
  else
    .ok (true, parser)

/-- The passages that are filed. -/
def Parser.filed (parser : Parser) : List Passage :=
  parser.passages.filterMap fun ref => ref.bind fun ref => parser.objects[ref]?

/-! ## What a line does to the stage -/

/-- The stage behind a line. -/
def advance (now : Stage) (line : Line) : Stage :=
  match now.next line now with
  | .complete => .completed
  | .waitStart => if rates line then .waitPassage else .waitStart
  | stage => stage

/-- What neither an assignment to {lit}`current` nor a change of it touches. -/
structure Parser.SameFrame (parser parser' : Parser) : Prop where
  stage : parser'.stage = parser.stage
  passages : parser'.passages = parser.passages
  objects : parser'.objects.length = parser.objects.length

/-- A parser has its own frame. -/
theorem Parser.SameFrame.refl (parser : Parser) : parser.SameFrame parser :=
  ⟨rfl, rfl, rfl⟩

/-- The frame stays the same through two steps. -/
theorem Parser.SameFrame.trans {a b c : Parser} (hab : a.SameFrame b) (hbc : b.SameFrame c) :
    a.SameFrame c :=
  ⟨hbc.stage.trans hab.stage, hbc.passages.trans hab.passages, hbc.objects.trans hab.objects⟩

/-- Changing the current passage succeeds when there is one. -/
theorem modifyCurrent_eq_ok_iff {parser parser' : Parser} {f : Passage → Passage} :
    parser.modifyCurrent f = .ok parser' ↔
      ∃ ref, parser.current = some ref ∧
        parser' = { parser with objects := parser.objects.modify ref f } := by
  unfold Parser.modifyCurrent
  cases hcurrent : parser.current with
  | none => simp
  | some ref => simp [eq_comm]

/-- Changing the current passage keeps the frame. -/
theorem sameFrame_of_modifyCurrent {parser parser' : Parser} {f : Passage → Passage}
    (h : parser.modifyCurrent f = .ok parser') :
    parser.SameFrame parser' ∧ parser'.current = parser.current := by
  rcases modifyCurrent_eq_ok_iff.mp h with ⟨ref, -, rfl⟩
  exact ⟨⟨rfl, rfl, List.length_modify _ _ _⟩, rfl⟩

/-- Setting a field keeps the frame. -/
theorem sameFrame_of_assign {parser parser' : Parser} {digits : Option JString}
    {set : Nat → Passage → Passage} (h : parser.assign digits set = .ok parser') :
    parser.SameFrame parser' ∧ parser'.current = parser.current := by
  cases digits with
  | none =>
      cases h
      exact ⟨.refl _, rfl⟩
  | some digits =>
      rcases Effects.bind_eq_ok_iff.mp h with ⟨n, -, hset⟩
      exact sameFrame_of_modifyCurrent hset

/-- Looking for a passage keeps the frame. -/
theorem sameFrame_of_getIndex {parser parser' : Parser} {index : Nat}
    (h : parser.getIndex index = .ok parser') : parser.SameFrame parser' := by
  rcases Effects.bind_eq_ok_iff.mp h with ⟨current, -, h⟩
  cases h
  exact ⟨rfl, rfl, rfl⟩

/-- Going over to a passage keeps the frame. -/
theorem sameFrame_of_locate {parser parser' : Parser} {line : Line}
    (h : parser.locate line = .ok parser') : parser.SameFrame parser' := by
  unfold Parser.locate at h
  split at h
  · rcases Effects.bind_eq_ok_iff.mp h with ⟨index, -, hindex⟩
    exact sameFrame_of_getIndex hindex
  · cases h
    exact .refl _

/-- No handler files a passage or makes one, and only the handler of {lit}`WAIT_START`
changes the stage. -/
theorem parse_frame {stage : Stage} {parser parser' : Parser} {line : Line}
    (h : stage.parse parser line = .ok parser') :
    parser'.passages = parser.passages ∧ parser'.objects.length = parser.objects.length ∧
      (stage ≠ .translate → parser'.current = parser.current) ∧
      parser'.stage =
        if stage = .waitStart ∧ rates line = true then .waitPassage else parser.stage := by
  cases stage with
  | completed | complete | waitTranslate | waitPassage | answer =>
      cases h
      simp
  | question | word | content =>
      rcases sameFrame_of_modifyCurrent h with ⟨hframe, hcurrent⟩
      simp [hframe.passages, hframe.objects, hframe.stage, hcurrent]
  | msg =>
      rcases Effects.bind_eq_ok_iff.mp h with ⟨first, hfirst, h⟩
      rcases Effects.bind_eq_ok_iff.mp h with ⟨second, hsecond, h⟩
      rcases sameFrame_of_assign hfirst with ⟨hframe₁, hcurrent₁⟩
      rcases sameFrame_of_assign hsecond with ⟨hframe₂, hcurrent₂⟩
      rcases sameFrame_of_assign h with ⟨hframe₃, hcurrent₃⟩
      have hframe := (hframe₁.trans hframe₂).trans hframe₃
      simp [hframe.passages, hframe.objects, hframe.stage, hcurrent₁, hcurrent₂, hcurrent₃]
  | translate =>
      rcases Effects.bind_eq_ok_iff.mp h with ⟨found, hfound, h⟩
      have hframe₁ : parser.SameFrame found := sameFrame_of_locate hfound
      have hframe₂ : found.SameFrame parser' := by
        split at h
        · cases h
          exact .refl _
        · exact (sameFrame_of_modifyCurrent h).1
      have hframe := hframe₁.trans hframe₂
      simp [hframe.passages, hframe.objects, hframe.stage]
  | waitStart =>
      simp only [Stage.parse] at h
      split at h
      · rename_i digits hfind
        rcases Effects.bind_eq_ok_iff.mp h with ⟨n, -, h⟩
        rcases Effects.bind_eq_ok_iff.mp h with ⟨found, hmodify, h⟩
        cases h
        rcases sameFrame_of_modifyCurrent hmodify with ⟨hframe, hcurrent⟩
        simp [hframe.passages, hframe.objects, hcurrent, rates, hfind]
      · rename_i hfind
        cases h
        simp [rates, hfind]

/-- The stages of a run depend on the lines alone. -/
theorem stage_of_feed {parser parser' : Parser} {line : Line}
    (h : parser.feed line = .ok parser') : parser'.stage = advance parser.stage line := by
  unfold Parser.feed at h
  unfold advance
  dsimp only at h
  cases hnext : parser.stage.next line parser.stage <;> rw [hnext] at h <;>
    rw [(parse_frame h).2.2.2] <;> simp [Parser.file]

/-- A line files a passage exactly when the stage it leads to is {lit}`COMPLETE`. -/
theorem passages_of_feed {parser parser' : Parser} {line : Line}
    (h : parser.feed line = .ok parser') :
    parser'.passages =
      if parser.stage.next line parser.stage = .complete then
        parser.passages ++ [parser.current]
      else
        parser.passages := by
  unfold Parser.feed at h
  rw [(parse_frame h).1]
  dsimp only
  split <;> rfl

/-! ## The numbers of the passages -/

/-- The ids of all passage objects. -/
def Parser.objectIds (parser : Parser) : List Nat :=
  parser.objects.map (·.id)

/-- The ids of the passages that are filed. -/
def Parser.ids (parser : Parser) : List Nat :=
  parser.filed.map (·.id)

/-- The ids are those of the passages that are filed. -/
theorem ids_eq (parser : Parser) :
    parser.ids = parser.passages.filterMap fun ref =>
      ref.bind fun ref => parser.objectIds[ref]? := by
  unfold Parser.ids Parser.filed
  rw [List.map_filterMap]
  apply List.filterMap_congr
  intro ref _
  cases ref <;> simp [Parser.objectIds]

/-- The id behind the handler of {lit}`MSG`. -/
def idBehind (line : Line) (id : Nat) : Nat :=
  match findNumber idLead line.trim with
  | some digits => digitsValue digits
  | none => id

/-- A change of an object that changes its id in a fixed way. -/
theorem map_modify {α β : Type} {f : α → α} {g : α → β} {f' : β → β}
    (h : ∀ x, g (f x) = f' (g x)) (xs : List α) (i : Nat) :
    (xs.modify i f).map g = (xs.map g).modify i f' := by
  apply List.ext_getElem?
  intro j
  by_cases hij : i = j
  · subst hij
    rw [List.getElem?_map, List.getElem?_modify_eq, List.getElem?_modify_eq, List.getElem?_map]
    cases xs[i]? with
    | none => rfl
    | some x => exact congrArg some (h x)
  · simp only [List.getElem?_map, List.getElem?_modify_ne _ _ hij]

/-! ### What is seen of the objects -/

/-- A part of every passage object. -/
def Parser.view {β : Type} (parser : Parser) (g : Passage → β) : List β :=
  parser.objects.map g

section View

variable {β : Type} {g : Passage → β} {parser parser' : Parser}

/-- What is seen of the current passage changes as the passage does. -/
theorem view_of_modifyCurrent {f : Passage → Passage} (f' : β → β)
    (h : parser.modifyCurrent f = .ok parser') (hf : ∀ passage, g (f passage) = f' (g passage)) :
    ∃ ref, parser.current = some ref ∧ parser'.view g = (parser.view g).modify ref f' := by
  rcases modifyCurrent_eq_ok_iff.mp h with ⟨ref, hcurrent, rfl⟩
  exact ⟨ref, hcurrent, map_modify hf _ _⟩

/-- A change of {lit}`current` that is not seen. -/
theorem view_of_modifyCurrent_same {f : Passage → Passage}
    (h : parser.modifyCurrent f = .ok parser') (hf : ∀ passage, g (f passage) = g passage) :
    parser'.view g = parser.view g := by
  rcases view_of_modifyCurrent id h hf with ⟨ref, -, hview⟩
  rw [hview, List.modify_id]

/-- A field that is not seen changes nothing that is. -/
theorem view_of_assign_same {digits : Option JString} {set : Nat → Passage → Passage}
    (h : parser.assign digits set = .ok parser')
    (hset : ∀ n passage, g (set n passage) = g passage) : parser'.view g = parser.view g := by
  cases digits with
  | none =>
      cases h
      rfl
  | some digits =>
      rcases Effects.bind_eq_ok_iff.mp h with ⟨n, -, hmodify⟩
      exact view_of_modifyCurrent_same hmodify (hset n)

/-- Going over to a passage changes none. -/
theorem objects_of_locate {line : Line} (h : parser.locate line = .ok parser') :
    parser'.objects = parser.objects := by
  unfold Parser.locate at h
  split at h
  · rcases Effects.bind_eq_ok_iff.mp h with ⟨index, -, hindex⟩
    rcases Effects.bind_eq_ok_iff.mp hindex with ⟨current, -, hget⟩
    cases hget
    rfl
  · cases h
    rfl

/-- The assignments of a stage are not seen. -/
def Stage.Hidden (g : Passage → β) : Stage → Prop
  | .translate => ∀ passage t, g { passage with translate := t } = g passage
  | .question => ∀ passage t, g { passage with questions := t } = g passage
  | .word => ∀ passage t, g { passage with words := t } = g passage
  | .content => ∀ passage t, g { passage with content := t } = g passage
  | .msg =>
      (∀ passage n, g { passage with index := n } = g passage) ∧
        (∀ passage n, g { passage with wordCount := n } = g passage) ∧
          ∀ passage n, g { passage with id := n } = g passage
  | .waitStart => ∀ passage n, g { passage with difficulty := n } = g passage
  | .completed | .complete | .waitTranslate | .answer | .waitPassage => True

/-- A stage that a field is hidden from does not change it. -/
theorem view_of_parse {stage : Stage} {line : Line} (hg : stage.Hidden g)
    (h : stage.parse parser line = .ok parser') : parser'.view g = parser.view g := by
  cases stage with
  | completed | complete | waitTranslate | waitPassage | answer =>
      cases h
      rfl
  | question | word | content =>
      exact view_of_modifyCurrent_same h fun passage => hg passage _
  | msg =>
      rcases Effects.bind_eq_ok_iff.mp h with ⟨first, hfirst, h⟩
      rcases Effects.bind_eq_ok_iff.mp h with ⟨second, hsecond, h⟩
      rw [view_of_assign_same h fun n passage => hg.2.2 passage n,
        view_of_assign_same hsecond fun n passage => hg.2.1 passage n,
        view_of_assign_same hfirst fun n passage => hg.1 passage n]
  | translate =>
      rcases Effects.bind_eq_ok_iff.mp h with ⟨found, hfound, h⟩
      have hobjects : found.view g = parser.view g :=
        congrArg (List.map g) (objects_of_locate hfound)
      rw [← hobjects]
      split at h
      · cases h
        rfl
      · exact view_of_modifyCurrent_same h fun passage => hg passage _
  | waitStart =>
      simp only [Stage.parse] at h
      split at h
      · rcases Effects.bind_eq_ok_iff.mp h with ⟨n, -, h⟩
        rcases Effects.bind_eq_ok_iff.mp h with ⟨found, hmodify, h⟩
        have hview := view_of_modifyCurrent_same hmodify fun passage => hg passage n
        cases h
        exact hview
      · cases h
        rfl

end View

/-- Only the handler of {lit}`MSG` changes an id. -/
theorem objectIds_of_parse {stage : Stage} {parser parser' : Parser} {line : Line}
    (hstage : stage ≠ .msg) (h : stage.parse parser line = .ok parser') :
    parser'.objectIds = parser.objectIds := by
  refine view_of_parse ?_ h
  cases stage <;> simp [Stage.Hidden] at *

/-- The handler of {lit}`MSG` sets the id of the passage being read. -/
theorem objectIds_of_parse_msg {parser parser' : Parser} {line : Line} {ref : Ref}
    (h : Stage.msg.parse parser line = .ok parser') (hcurrent : parser.current = some ref) :
    parser'.objectIds = parser.objectIds.modify ref (idBehind line) := by
  rcases Effects.bind_eq_ok_iff.mp h with ⟨first, hfirst, h⟩
  rcases Effects.bind_eq_ok_iff.mp h with ⟨second, hsecond, h⟩
  have hids : second.objectIds = parser.objectIds := by
    exact (view_of_assign_same hsecond fun _ _ => rfl).trans
      (view_of_assign_same hfirst fun _ _ => rfl)
  have hsame : second.current = some ref := by
    rw [(sameFrame_of_assign hsecond).2, (sameFrame_of_assign hfirst).2, hcurrent]
  unfold idBehind
  cases hfind : findNumber idLead line.trim with
  | none =>
      rw [hfind] at h
      cases h
      rw [hids]
      exact (List.modify_id _ _).symm
  | some digits =>
      rw [hfind] at h
      rcases Effects.bind_eq_ok_iff.mp h with ⟨n, hn, hmodify⟩
      rcases view_of_modifyCurrent (g := (·.id)) (fun _ => n) hmodify (fun _ => rfl) with
        ⟨ref', href', hmodified⟩
      change parser'.objectIds = second.objectIds.modify ref' _ at hmodified
      rw [hsame] at href'
      cases href'
      rw [hmodified, hids, parseInt_eq_ok hn]

/-- A line that completes the passage being read. -/
theorem feed_complete {parser parser' : Parser} {line : Line}
    (hnext : parser.stage.next line parser.stage = .complete)
    (h : parser.feed line = .ok parser') :
    parser'.passages = parser.passages ++ [parser.current] ∧
      parser'.current = some parser.objects.length ∧
        parser'.objectIds = parser.objectIds ++ [0] := by
  unfold Parser.feed at h
  dsimp only at h
  rw [hnext, if_pos rfl] at h
  cases h
  exact ⟨rfl, rfl, List.map_append⟩

/-- A line read in {lit}`MSG`. -/
theorem feed_msg {parser parser' : Parser} {line : Line} {ref : Ref}
    (hnext : parser.stage.next line parser.stage = .msg) (hcurrent : parser.current = some ref)
    (h : parser.feed line = .ok parser') :
    parser'.passages = parser.passages ∧ parser'.current = some ref ∧
      parser'.objectIds = parser.objectIds.modify ref (idBehind line) := by
  unfold Parser.feed at h
  dsimp only at h
  rw [hnext, if_neg (by simp)] at h
  rcases parse_frame h with ⟨hpassages, -, hsame, -⟩
  have hids := objectIds_of_parse_msg h hcurrent
  exact ⟨hpassages, (hsame (by simp)).trans hcurrent, hids⟩

/-- A line that neither completes a passage nor is read in {lit}`MSG`. -/
theorem feed_other {parser parser' : Parser} {line : Line}
    (hcomplete : parser.stage.next line parser.stage ≠ .complete)
    (hmsg : parser.stage.next line parser.stage ≠ .msg) (h : parser.feed line = .ok parser') :
    parser'.passages = parser.passages ∧ parser'.objectIds = parser.objectIds ∧
      (parser.stage.next line parser.stage ≠ .translate → parser'.current = parser.current) := by
  unfold Parser.feed at h
  dsimp only at h
  rw [if_neg hcomplete] at h
  rcases parse_frame h with ⟨hpassages, -, hsame, -⟩
  have hids := objectIds_of_parse hmsg h
  exact ⟨hpassages, hids, hsame⟩

end Passage1
end TestAio
