import TestAio.Library.Effects
import TestAio.Library.Triggers
import TestAio.Main.Parse.Passages.Line

/-!
# The parser of word counts

{lit}`Passage1Word` reads the documents of {lit}`Passage1` again, for the numbers of a document
and the ids of its passages.  Its machine has six stages: it knows neither the
reminder inside a passage nor the sections behind the last one.

Main results:

- Theorem {lit}`stage_of_feed`: the stages of a run depend on the lines alone.
- Theorem {lit}`ids_of_not_pending`: lines without a further passage file none.

Current gaps:

- The update of the database is commented out in the source and not modelled.
-/

namespace TestAio
namespace Passage1Word

open Passages Library Library.Triggers

/-! ## Data -/

/-- A passage. -/
structure Passage where
  id : Nat := 0
deriving DecidableEq

/-- The stages, in the order of the source. -/
inductive Stage
  | completed
  | complete
  | content
  | msg
  | waitPassage
  | waitStart
deriving DecidableEq

/-- The fields of a parser.  No other object refers to a passage, and {lit}`current` is a
passage from the first statement of {lit}`parse` on. -/
structure Parser where
  passages : List Passage := []
  current : Passage := {}
  stage : Stage := .waitStart
  wordCount : Nat := 0
  difficulty : Nat := 0
deriving DecidableEq

/-! ## Stages -/

/-- The word of {lit}`ID_PATTERN`. -/
def idLead : JString :=
  jstr "编号："

/-- The word of {lit}`WORD_COUNT_PATTERN`. -/
def wordCountLead : JString :=
  jstr "词汇量："

/-- {lit}`parseFirstStage`. -/
def parseFirstStage (line : Line) (now : Stage) : Stage :=
  if now = .completed && opens line then .msg else now

/-- The function {lit}`next` of each stage. -/
def Stage.next : Stage → Line → Stage → Stage
  | .completed, line, now => parseFirstStage line now
  | .complete, _, _ => .completed
  | .content, line, now => if finishes line then .complete else now
  | .msg, line, now => if begins line then .content else now
  | .waitPassage, line, now => if opens line then .msg else now
  | .waitStart, _, now => now

/-- The first half of the handler of {lit}`WAIT_START`. -/
def Parser.countWords (parser : Parser) (line : Line) : Except JavaException Parser :=
  match findNumber wordCountLead line.trim with
  | some digits => do
      let n ← parseInt digits
      .ok { parser with wordCount := n }
  | none => .ok parser

/-- The handler {lit}`parse` of each stage. -/
def Stage.parse (stage : Stage) (parser : Parser) (line : Line) :
    Except JavaException Parser :=
  match stage with
  | .completed | .complete | .content | .waitPassage => .ok parser
  | .msg =>
      match findNumber idLead line.trim with
      | some digits => do
          let n ← parseInt digits
          .ok { parser with current := { parser.current with id := n } }
      | none => .ok parser
  | .waitStart => do
      let parser ← parser.countWords line
      match findNumber difficultyLead line.trim with
      | some digits => do
          let n ← parseInt digits
          .ok { parser with difficulty := n, stage := .waitPassage }
      | none => .ok parser

/-! ## Runs -/

/-- {lit}`passages.add(current)`, a new passage and the stage behind it. -/
def Parser.file (parser : Parser) : Parser :=
  { parser with
    passages := parser.passages ++ [parser.current]
    current := {}
    stage := .completed }

/-- One round of the loop. -/
def Parser.feed (parser : Parser) (line : Line) : Except JavaException Parser :=
  let parser := { parser with stage := parser.stage.next line parser.stage }
  let parser := if parser.stage = .complete then parser.file else parser
  parser.stage.parse parser line

/-- {lit}`new Passage1Word()`. -/
def fresh : Parser :=
  {}

/-- What {lit}`parse` does before the loop. -/
def Parser.start (parser : Parser) : Parser :=
  { parser with current := {} }

/-- The loop over the lines. -/
def Parser.read (parser : Parser) (lines : List Line) : Except JavaException Parser :=
  lines.foldlM Parser.feed parser

/-- {lit}`parse`: the returned value and the parser behind it. -/
def Parser.parse (parser : Parser) (document : List JString) :
    Except JavaException (Bool × Parser) := do
  let parser ← parser.start.read (documentLines document)
  if parser.passages.isEmpty then
    .error (.exception (jstr "Empty Passage"))
  else
    .ok (true, parser)

/-- The ids of the passages that are filed. -/
def Parser.ids (parser : Parser) : List Nat :=
  parser.passages.map (·.id)

/-! ## What a line does -/

/-- The stage behind a line. -/
def advance (now : Stage) (line : Line) : Stage :=
  match now.next line now with
  | .complete => .completed
  | .waitStart => if rates line then .waitPassage else .waitStart
  | stage => stage

/-- The id behind the handler of {lit}`MSG`. -/
def idBehind (line : Line) (id : Nat) : Nat :=
  match findNumber idLead line.trim with
  | some digits => digitsValue digits
  | none => id

/-- Counting words changes neither the passages nor the stage. -/
theorem countWords_frame {parser parser' : Parser} {line : Line}
    (h : parser.countWords line = .ok parser') :
    parser'.passages = parser.passages ∧ parser'.current = parser.current ∧
      parser'.stage = parser.stage := by
  unfold Parser.countWords at h
  split at h
  · rcases Effects.bind_eq_ok_iff.mp h with ⟨n, -, h⟩
    cases h
    exact ⟨rfl, rfl, rfl⟩
  · cases h
    exact ⟨rfl, rfl, rfl⟩

/-- What the handlers do to the passages and the stage. -/
theorem parse_frame {stage : Stage} {parser parser' : Parser} {line : Line}
    (h : stage.parse parser line = .ok parser') :
    parser'.passages = parser.passages ∧
      parser'.current.id =
        (if stage = .msg then idBehind line parser.current.id else parser.current.id) ∧
      parser'.stage =
        if stage = .waitStart ∧ rates line = true then .waitPassage else parser.stage := by
  cases stage with
  | completed | complete | content | waitPassage =>
      cases h
      simp
  | msg =>
      simp only [Stage.parse] at h
      split at h
      · rename_i digits hfind
        rcases Effects.bind_eq_ok_iff.mp h with ⟨n, hn, h⟩
        cases h
        simp [idBehind, hfind, parseInt_eq_ok hn]
      · rename_i hfind
        cases h
        simp [idBehind, hfind]
  | waitStart =>
      rcases Effects.bind_eq_ok_iff.mp h with ⟨counted, hcounted, h⟩
      rcases countWords_frame hcounted with ⟨hpassages, hcurrent, hstage⟩
      rw [← hpassages, ← hcurrent, ← hstage]
      split at h
      · rename_i digits hfind
        rcases Effects.bind_eq_ok_iff.mp h with ⟨n, -, h⟩
        cases h
        simp [rates, hfind]
      · rename_i hfind
        cases h
        simp [rates, hfind]

/-- The stages of a run depend on the lines alone. -/
theorem stage_of_feed {parser parser' : Parser} {line : Line}
    (h : parser.feed line = .ok parser') : parser'.stage = advance parser.stage line := by
  unfold Parser.feed at h
  unfold advance
  dsimp only at h
  cases hnext : parser.stage.next line parser.stage <;> rw [hnext] at h <;>
    rw [(parse_frame h).2.2] <;> simp [Parser.file]

/-- A line that completes the passage being read. -/
theorem feed_complete {parser parser' : Parser} {line : Line}
    (hnext : parser.stage.next line parser.stage = .complete)
    (h : parser.feed line = .ok parser') :
    parser'.ids = parser.ids ++ [parser.current.id] ∧ parser'.current.id = 0 := by
  unfold Parser.feed at h
  dsimp only at h
  rw [hnext, if_pos rfl] at h
  cases h
  exact ⟨List.map_append, rfl⟩

/-- A line that does not. -/
theorem feed_other {parser parser' : Parser} {line : Line}
    (hnext : parser.stage.next line parser.stage ≠ .complete)
    (h : parser.feed line = .ok parser') :
    parser'.ids = parser.ids ∧
      parser'.current.id =
        if parser.stage.next line parser.stage = .msg then
          idBehind line parser.current.id
        else
          parser.current.id := by
  unfold Parser.feed at h
  dsimp only at h
  rw [if_neg hnext] at h
  rcases parse_frame h with ⟨hpassages, hcurrent, -⟩
  refine ⟨?_, hcurrent⟩
  unfold Parser.ids
  rw [hpassages]

/-! ## Lines behind the last passage -/

/-- The lines contain what completes the passage the machine is in or waits for. -/
def Pending : Stage → List Line → Prop
  | .content, body => Occur [finishes] body
  | .msg, body => Occur [begins, finishes] body
  | .completed, body => Occur [opens, begins, finishes] body
  | _, _ => True

/-- Reading a line that completes no passage leaves what the machine waits for. -/
theorem not_pending_of_cons {now : Stage} {line : Line} {rest : List Line}
    (h : ¬ Pending now (line :: rest)) :
    now.next line now ≠ .complete ∧ ¬ Pending (advance now line) rest := by
  cases now with
  | content =>
      by_cases hfinishes : finishes line = true <;>
        simp_all [Pending, advance, Stage.next, occur_cons_iff]
  | msg =>
      by_cases hbegins : begins line = true <;>
        simp_all [Pending, advance, Stage.next, occur_cons_iff]
  | completed =>
      by_cases hopens : opens line = true <;>
        simp_all [Pending, advance, Stage.next, parseFirstStage, occur_cons_iff]
  | complete | waitPassage | waitStart => exact absurd trivial h

/-- Lines without a further passage file none. -/
theorem ids_of_not_pending {parser parser' : Parser} {lines : List Line}
    (hpending : ¬ Pending parser.stage lines) (h : parser.read lines = .ok parser') :
    parser'.ids = parser.ids := by
  induction lines generalizing parser with
  | nil =>
      cases h
      rfl
  | cons line rest ih =>
      unfold Parser.read at h
      rw [List.foldlM_cons] at h
      rcases Effects.bind_eq_ok_iff.mp h with ⟨fed, hfed, hrest⟩
      rcases not_pending_of_cons hpending with ⟨hnext, hpending'⟩
      rw [← stage_of_feed hfed] at hpending'
      rw [ih hpending' hrest, (feed_other hnext hfed).1]

end Passage1Word
end TestAio
