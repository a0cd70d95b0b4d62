import TestAio.Library.Delimited
import TestAio.Library.Effects
import TestAio.Main.Parse.Passages.Line

/-!
# The second parser of word counts

{lit}`Passage2Word` reads the documents of the second kind for their numbers and the ids of their
passages.  A passage goes from a line that opens one to the next line that names the time it was
finished at.

Main results:

- Theorem {lit}`read_behind`: behind the difficulty of a document the machine cuts the lines into
  sections.
- Theorem {lit}`parse_reads`: what a document yields, or which exception it raises.
- Theorem {lit}`sectionIds_blocks`: the ids of a document made of passages are theirs.

Current gaps:

- The update of the database is commented out in the source and not modelled.
-/

namespace TestAio
namespace Passage2Word

open Passages Library Library.Delimited

/-! ## Data -/

/-- A passage. -/
structure Passage where
  id : Nat := 0
deriving DecidableEq

/-- The stages, in the order of the source. -/
inductive Stage
  | completed
  | complete
  | msg
  | waitPassage
  | waitStart
deriving DecidableEq

/-- The fields of a parser.  No other object refers to a passage, and {lit}`current` is a
passage from the first statement of {lit}`parse` on. -/
structure Parser where
  passages : List Passage := []
  current : Passage := {}
  stage : Stage := .waitStart
  wordCount : Nat := 0
  difficulty : Nat := 0
deriving DecidableEq

/-! ## Stages -/

/-- The word of {lit}`ID_PATTERN`. -/
def idLead : JString :=
  jstr "本篇编号："

/-- The word of {lit}`WORD_COUNT_PATTERN`. -/
def wordCountLead : JString :=
  jstr "你当前词汇量约为"

/-- The word of {lit}`DIFFICULTY_PATTERN`. -/
def difficultyLead : JString :=
  jstr "本次文章词汇难度值"

/-- {lit}`parseFirstStage`. -/
def parseFirstStage (line : Line) (now : Stage) : Stage :=
  if now = .completed && opens line then .msg else now

/-- The function {lit}`next` of each stage. -/
def Stage.next : Stage → Line → Stage → Stage
  | .completed, line, now => parseFirstStage line now
  | .complete, _, _ => .completed
  | .msg, line, now => if finishes line then .complete else now
  | .waitPassage, line, now => if opens line then .msg else now
  | .waitStart, _, now => now

/-- The first half of the handler of {lit}`WAIT_START`. -/
def Parser.countWords (parser : Parser) (line : Line) : Except JavaException Parser :=
  match findNumber wordCountLead line.trim with
  | some digits => do
      let n ← parseInt digits
      .ok { parser with wordCount := n }
  | none => .ok parser

/-- The second half. -/
def Parser.rate (parser : Parser) (line : Line) : Except JavaException Parser :=
  match findNumber difficultyLead line.trim with
  | some digits => do
      let n ← parseInt digits
      .ok { parser with difficulty := n, stage := .waitPassage }
  | none => .ok parser

/-- The handler of {lit}`MSG`. -/
def Parser.identify (parser : Parser) (line : Line) : Except JavaException Parser :=
  match findNumber idLead line.trim with
  | some digits => do
      let n ← parseInt digits
      .ok { parser with current := { parser.current with id := n } }
  | none => .ok parser

/-- The handler {lit}`parse` of each stage. -/
def Stage.parse (stage : Stage) (parser : Parser) (line : Line) : Except JavaException Parser :=
  match stage with
  | .completed | .complete | .waitPassage => .ok parser
  | .msg => parser.identify line
  | .waitStart => do
      let parser ← parser.countWords line
      parser.rate line

/-! ## Runs -/

/-- {lit}`passages.add(current)`, a new passage and the stage behind it. -/
def Parser.file (parser : Parser) : Parser :=
  { parser with
    passages := parser.passages ++ [parser.current]
    current := {}
    stage := .completed }

/-- One round of the loop. -/
def Parser.feed (parser : Parser) (line : Line) : Except JavaException Parser :=
  let parser := { parser with stage := parser.stage.next line parser.stage }
  let parser := if parser.stage = .complete then parser.file else parser
  parser.stage.parse parser line

/-- {lit}`new Passage2Word()`. -/
def fresh : Parser :=
  {}

/-- What {lit}`parse` does before the loop. -/
def Parser.start (parser : Parser) : Parser :=
  { parser with current := {} }

/-- The loop over the lines. -/
def Parser.read (parser : Parser) (lines : List Line) : Except JavaException Parser :=
  lines.foldlM Parser.feed parser

/-- The exception of a document without passages. -/
def emptyPassage : JavaException :=
  .exception (jstr "Empty Passage")

/-- {lit}`parse`: the returned value and the parser behind it. -/
def Parser.parse (parser : Parser) (document : List JString) :
    Except JavaException (Bool × Parser) := do
  let parser ← parser.start.read (documentLines document)
  if parser.passages.isEmpty then .error emptyPassage else .ok (true, parser)

/-! ## Numbers -/

/-- The number of the line behind a word is an {lit}`int`, if there is one. -/
def Fits (lead : JString) (line : Line) : Prop :=
  ∀ digits ∈ findNumber lead line.trim, digitsValue digits ≤ 0x7FFFFFFF

instance (lead : JString) (line : Line) : Decidable (Fits lead line) :=
  inferInstanceAs (Decidable (∀ digits ∈ findNumber lead line.trim, _))

/-- The number behind a line, where {lit}`n` is the one before it. -/
def numberBehind (lead : JString) (n : Nat) (line : Line) : Nat :=
  match findNumber lead line.trim with
  | some digits => digitsValue digits
  | none => n

/-- The last number behind a word in some lines. -/
def lastNumber (lead : JString) (n : Nat) (lines : List Line) : Nat :=
  lines.foldl (numberBehind lead) n

/-- The line names the difficulty of the document. -/
def rates (line : Line) : Bool :=
  (findNumber difficultyLead line.trim).isSome

/-- A number is read when it fits an int. -/
theorem parseInt_eq (digits : JString) :
    parseInt digits =
      if digitsValue digits ≤ 0x7FFFFFFF then .ok (digitsValue digits) else .error .numberFormat :=
  rfl

/-- A line without a number fits. -/
theorem fits_of_none {lead : JString} {line : Line} (h : findNumber lead line.trim = none) :
    Fits lead line := by
  simp [Fits, h]

/-- A line with a number fits exactly when the number does. -/
theorem fits_iff {lead digits : JString} {line : Line}
    (h : findNumber lead line.trim = some digits) :
    Fits lead line ↔ digitsValue digits ≤ 0x7FFFFFFF := by
  simp [Fits, h]

/-- A handler that looks for a number fails exactly when the number does not fit. -/
theorem find_eq {β : Type} (lead : JString) (line : Line) (found : Nat → β) (missed : β) :
    (match findNumber lead line.trim with
      | some digits => parseInt digits >>= fun n => .ok (found n)
      | none => .ok missed) =
      if Fits lead line then
        .ok (((findNumber lead line.trim).map fun digits =>
          found (digitsValue digits)).getD missed)
      else .error .numberFormat := by
  cases hfind : findNumber lead line.trim with
  | none =>
      rw [if_pos (fits_of_none hfind)]
      rfl
  | some digits =>
      by_cases hfits : digitsValue digits ≤ 0x7FFFFFFF
      · rw [if_pos ((fits_iff hfind).mpr hfits)]
        simp [parseInt_eq, hfits]
      · rw [if_neg (mt (fits_iff hfind).mp hfits)]
        simp [parseInt_eq, hfits]

/-- A line that fits may change the word count. -/
theorem countWords_eq (parser : Parser) (line : Line) :
    parser.countWords line =
      if Fits wordCountLead line then
        .ok { parser with wordCount := numberBehind wordCountLead parser.wordCount line }
      else .error .numberFormat := by
  refine (find_eq wordCountLead line (fun n => { parser with wordCount := n }) parser).trans ?_
  rw [numberBehind]
  cases findNumber wordCountLead line.trim <;> rfl

/-- A line that fits may change the difficulty. -/
theorem rate_eq (parser : Parser) (line : Line) :
    parser.rate line =
      if Fits difficultyLead line then
        .ok { parser with
          difficulty := numberBehind difficultyLead parser.difficulty line
          stage := if rates line then .waitPassage else parser.stage }
      else .error .numberFormat := by
  refine (find_eq difficultyLead line
    (fun n => { parser with difficulty := n, stage := .waitPassage }) parser).trans ?_
  rw [numberBehind, rates]
  cases findNumber difficultyLead line.trim <;> rfl

/-- A line that fits may change the id. -/
theorem identify_eq (parser : Parser) (line : Line) :
    parser.identify line =
      if Fits idLead line then
        .ok { parser with current := { id := numberBehind idLead parser.current.id line } }
      else .error .numberFormat := by
  refine (find_eq idLead line
    (fun n => { parser with current := { parser.current with id := n } }) parser).trans ?_
  rw [numberBehind]
  cases findNumber idLead line.trim <;> rfl

/-- A round that files no passage. -/
theorem feed_eq {parser : Parser} {line : Line} {stage : Stage}
    (hnext : parser.stage.next line parser.stage = stage) (hother : stage ≠ .complete) :
    parser.feed line = stage.parse { parser with stage := stage } line := by
  unfold Parser.feed
  rw [hnext]
  exact congrArg (fun parser : Parser => parser.stage.parse parser line) (if_neg hother)

/-! ## Behind the difficulty -/

/-- The ids of the passages that are filed. -/
def Parser.ids (parser : Parser) : List Nat :=
  parser.passages.map (·.id)

/-- The id of the passage whose lines these are. -/
def idOf (body : List Line) : Nat :=
  lastNumber idLead 0 body

/-- The machine is in the section that is open, or waits for one. -/
def At (parser : Parser) : Option (List Line) → Prop
  | none => (parser.stage = .completed ∨ parser.stage = .waitPassage) ∧ parser.current = {}
  | some body => parser.stage = .msg ∧ parser.current.id = idOf body

/-- What a parser has found out. -/
def Parser.found (parser : Parser) : List Nat × Nat × Nat :=
  (parser.ids, parser.wordCount, parser.difficulty)

/-- The line is read for an id. -/
def Reads (opened : Option (List Line)) (line : Line) : Prop :=
  (enter opens finishes opened line).isSome = true → Fits idLead line

/-- What a line does that is read for an id. -/
theorem feed_identify {parser : Parser} {opened : Option (List Line)} {body : List Line}
    {line : Line} (henter : enter opens finishes opened line = some body)
    (hleave : leave finishes opened line = [])
    (hfeed : parser.feed line = { parser with stage := .msg }.identify line)
    (hid : numberBehind idLead parser.current.id line = idOf body) :
    (¬ Reads opened line ∧ parser.feed line = .error .numberFormat) ∨
      Reads opened line ∧ ∃ parser', parser.feed line = .ok parser' ∧
        At parser' (enter opens finishes opened line) ∧
        parser'.found = (parser.ids ++ (leave finishes opened line).map idOf, parser.wordCount,
          parser.difficulty) := by
  rw [hfeed, identify_eq]
  by_cases hfits : Fits idLead line
  · refine Or.inr ⟨fun _ => hfits, _, if_pos hfits, ?_, ?_⟩
    · rw [henter]
      exact ⟨rfl, hid⟩
    · rw [hleave, List.map_nil, List.append_nil]
      rfl
  · exact Or.inl ⟨fun hreads => hfits (hreads (by rw [henter]; rfl)), if_neg hfits⟩

/-- What a line does behind the difficulty. -/
theorem feed_behind {parser : Parser} {opened : Option (List Line)} (h : At parser opened)
    (line : Line) :
    (¬ Reads opened line ∧ parser.feed line = .error .numberFormat) ∨
      Reads opened line ∧ ∃ parser', parser.feed line = .ok parser' ∧
        At parser' (enter opens finishes opened line) ∧
        parser'.found = (parser.ids ++ (leave finishes opened line).map idOf, parser.wordCount,
          parser.difficulty) := by
  cases opened with
  | none =>
      rcases h with ⟨hstage, hcurrent⟩
      by_cases hopens : opens line = true
      · refine feed_identify (if_pos hopens) rfl ?_ ?_
        · refine feed_eq ?_ (by decide : Stage.msg ≠ .complete)
          rcases hstage with hstage | hstage <;>
            simp [hstage, Stage.next, parseFirstStage, hopens]
        · rw [hcurrent]
          rfl
      · have henter : enter opens finishes none line = none := if_neg hopens
        have hnext : parser.stage.next line parser.stage = parser.stage := by
          rcases hstage with hstage | hstage <;>
            simp [hstage, Stage.next, parseFirstStage, hopens]
        have hfeed : parser.feed line = .ok parser := by
          rcases hstage with hstage | hstage <;>
            rw [feed_eq hnext (by rw [hstage]; decide), hstage, Stage.parse, ← hstage]
        refine Or.inr ⟨?_, parser, hfeed, ?_, ?_⟩
        · rw [Reads, henter]
          simp
        · rw [henter]
          exact ⟨hstage, hcurrent⟩
        · rw [leave, List.map_nil, List.append_nil]
          rfl
  | some body =>
      rcases h with ⟨hstage, hid⟩
      by_cases hfinishes : finishes line = true
      · have henter : enter opens finishes (some body) line = none := if_pos hfinishes
        have hleave : leave finishes (some body) line = [body] := if_pos hfinishes
        have hfeed : parser.feed line = .ok parser.file := by
          simp [Parser.feed, hstage, Stage.next, hfinishes, Stage.parse, Parser.file]
        refine Or.inr ⟨?_, parser.file, hfeed, ?_, ?_⟩
        · rw [Reads, henter]
          simp
        · rw [henter]
          exact ⟨Or.inl rfl, rfl⟩
        · rw [hleave, List.map_singleton, ← hid]
          simp [Parser.found, Parser.ids, Parser.file]
      · refine feed_identify (if_neg hfinishes) (if_neg hfinishes) ?_ ?_
        · refine feed_eq ?_ (by decide : Stage.msg ≠ .complete)
          simp [hstage, Stage.next, hfinishes]
        · rw [hid, idOf, idOf, lastNumber, lastNumber, List.foldl_append]
          rfl

/-- Behind the difficulty of a document the machine cuts the lines into sections, and fails when
a number inside one does not fit. -/
theorem read_behind (lines : List Line) {parser : Parser} {opened : Option (List Line)}
    (h : At parser opened) :
    (parser.read lines).map Parser.found =
      if ∀ line ∈ inside opens finishes opened lines, Fits idLead line then
        .ok (parser.ids ++ (closedFrom opens finishes opened lines).map idOf, parser.wordCount,
          parser.difficulty)
      else .error .numberFormat := by
  induction lines generalizing parser opened with
  | nil => simp [Parser.read, closedFrom, inside, Parser.found, pure, Except.pure]
  | cons line lines ih =>
      have hread : parser.read (line :: lines) =
          parser.feed line >>= fun parser => parser.read lines := rfl
      have hall : (∀ other ∈ inside opens finishes opened (line :: lines), Fits idLead other) ↔
          Reads opened line ∧ ∀ other ∈ inside opens finishes
            (enter opens finishes opened line) lines, Fits idLead other := by
        unfold Reads
        rw [inside]
        cases hsome : (enter opens finishes opened line).isSome <;> simp
      rcases feed_behind h line with ⟨hreads, hfeed⟩ | ⟨hreads, parser', hfeed, hat, hfound⟩
      · rw [hread, hfeed, if_neg fun hfits => hreads (hall.mp hfits).1]
        rfl
      · rw [Parser.found, Prod.mk.injEq, Prod.mk.injEq] at hfound
        rcases hfound with ⟨hids, hwords, hdifficulty⟩
        rw [hread, hfeed, Effects.ok_bind, ih hat, hids, hwords, hdifficulty, closedFrom,
          List.map_append, List.append_assoc]
        exact if_congr (hall.trans (and_iff_right hreads)).symm rfl rfl

/-! ## The document -/

/-- The lines up to the difficulty. -/
def header : List Line → List Line
  | [] => []
  | line :: lines => if rates line then [line] else line :: header lines

/-- The lines behind the difficulty. -/
def behind : List Line → List Line
  | [] => []
  | line :: lines => if rates line then lines else behind lines

/-- The numbers of a document are all of type {lit}`int`: the word counts and the difficulty in
its header, and the ids inside its sections. -/
def AllFit (lines : List Line) : Prop :=
  (∀ line ∈ header lines, Fits wordCountLead line ∧ Fits difficultyLead line) ∧
    ∀ line ∈ inside opens finishes none (behind lines), Fits idLead line

instance (lines : List Line) : Decidable (AllFit lines) :=
  inferInstanceAs (Decidable (_ ∧ _))

/-- The ids of the sections behind the difficulty. -/
def sectionIds (lines : List Line) : List Nat :=
  (closedFrom opens finishes none (behind lines)).map idOf

/-- What is behind the line of the difficulty. -/
theorem behind_eq {head : List Line} (hhead : ∀ line ∈ head, rates line = false) {rated : Line}
    (hrated : rates rated = true) (lines : List Line) :
    behind (head ++ rated :: lines) = lines := by
  induction head with
  | nil => exact if_pos hrated
  | cons line head ih =>
      rw [List.forall_mem_cons] at hhead
      rw [List.cons_append, behind, hhead.1]
      exact ih hhead.2

/-- The ids of a document whose lines behind the difficulty are passages with gaps between
them. -/
theorem sectionIds_blocks {head : List Line} (hhead : ∀ line ∈ head, rates line = false)
    {rated : Line} (hrated : rates rated = true) (blocks : List (Block opens finishes))
    (rest : List Line) :
    sectionIds (head ++ rated :: (blocks.flatMap Block.elements ++ rest)) =
      blocks.map (fun block => idOf block.content) ++
        (closedFrom opens finishes none rest).map idOf := by
  rw [sectionIds, behind_eq hhead hrated, closedFrom_blocks, List.map_append, List.map_map]
  rfl

/-- The parser behind a line of the header. -/
def Parser.headed (parser : Parser) (line : Line) : Parser :=
  { parser with
    wordCount := numberBehind wordCountLead parser.wordCount line
    difficulty := numberBehind difficultyLead parser.difficulty line
    stage := if rates line then .waitPassage else .waitStart }

/-- What a line of the header does. -/
theorem feed_start {parser : Parser} (hstage : parser.stage = .waitStart) (line : Line) :
    parser.feed line =
      if Fits wordCountLead line ∧ Fits difficultyLead line then
        .ok (parser.headed line)
      else .error .numberFormat := by
  have hnext : parser.stage.next line parser.stage = parser.stage := by
    rw [hstage]
    rfl
  have hfeed : parser.feed line = parser.countWords line >>= fun parser => parser.rate line := by
    rw [feed_eq hnext (by rw [hstage]; decide), hstage, Stage.parse, ← hstage]
  rw [hfeed, countWords_eq]
  by_cases hwords : Fits wordCountLead line
  · rw [if_pos hwords, Effects.ok_bind, rate_eq]
    by_cases hrates : Fits difficultyLead line <;> simp [hwords, hrates, hstage, Parser.headed]
  · simp [hwords]

/-- A parser at its start reads the header, and then the sections. -/
theorem read_start (lines : List Line) {parser : Parser} (hstage : parser.stage = .waitStart)
    (hcurrent : parser.current = {}) :
    (parser.read lines).map Parser.found =
      if AllFit lines then
        .ok (parser.ids ++ sectionIds lines,
          lastNumber wordCountLead parser.wordCount (header lines),
          lastNumber difficultyLead parser.difficulty (header lines))
      else .error .numberFormat := by
  induction lines generalizing parser with
  | nil =>
      rw [if_pos ⟨by simp [header], by simp [behind, inside]⟩, sectionIds, behind, closedFrom,
        List.map_nil, List.append_nil]
      rfl
  | cons line lines ih =>
      have hread : parser.read (line :: lines) =
          parser.feed line >>= fun parser => parser.read lines := rfl
      have hids : (parser.headed line).ids = parser.ids := rfl
      rw [hread, feed_start hstage]
      by_cases hfits : Fits wordCountLead line ∧ Fits difficultyLead line
      · rw [if_pos hfits, Effects.ok_bind]
        by_cases hrates : rates line = true
        · have hat : At (parser.headed line) none := ⟨Or.inr (if_pos hrates), hcurrent⟩
          have hall : AllFit (line :: lines) ↔
              ∀ other ∈ inside opens finishes none lines, Fits idLead other := by
            simp [AllFit, header, behind, hrates, hfits]
          have hheader : header (line :: lines) = [line] := if_pos hrates
          have hbehind : behind (line :: lines) = lines := if_pos hrates
          rw [read_behind lines hat, sectionIds, hheader, hbehind]
          exact if_congr hall.symm rfl rfl
        · have hwait : (parser.headed line).stage = .waitStart := if_neg hrates
          have hheader : header (line :: lines) = line :: header lines := if_neg hrates
          have hbehind : behind (line :: lines) = behind lines := if_neg hrates
          have hall : AllFit (line :: lines) ↔ AllFit lines := by
            simp [AllFit, hheader, hbehind, hfits]
          rw [ih hwait hcurrent, sectionIds, sectionIds, hheader, hbehind]
          exact if_congr hall.symm rfl rfl
      · have hnot : ¬ AllFit (line :: lines) := by
          intro hall
          refine hfits (hall.1 line ?_)
          unfold header
          split <;> exact List.mem_cons_self
        rw [if_neg hfits, if_neg hnot]
        rfl

/-- What a document yields: the ids of the sections behind its difficulty, and the last word
count and the difficulty of its header.  A number that is no {lit}`int` is an exception, and so
is a document without a closed section. -/
theorem parse_reads (document : List JString) :
    (fresh.parse document).map (fun result => result.2.found) =
      if AllFit (documentLines document) then
        if sectionIds (documentLines document) = [] then
          .error emptyPassage
        else
          .ok (sectionIds (documentLines document),
            lastNumber wordCountLead 0 (header (documentLines document)),
            lastNumber difficultyLead 0 (header (documentLines document)))
      else .error .numberFormat := by
  have hread := read_start (documentLines document) (rfl : fresh.start.stage = .waitStart) rfl
  have hids : fresh.start.ids = [] := rfl
  rw [hids, List.nil_append] at hread
  have hparse : fresh.parse document = fresh.start.read (documentLines document) >>= fun parser =>
      if parser.passages.isEmpty then .error emptyPassage else .ok (true, parser) := rfl
  rw [hparse]
  cases hresult : fresh.start.read (documentLines document) with
  | error e =>
      rw [hresult] at hread
      by_cases hfits : AllFit (documentLines document)
      · rw [if_pos hfits] at hread
        contradiction
      · rw [if_neg hfits] at hread ⊢
        exact hread
  | ok parser =>
      rw [hresult] at hread
      by_cases hfits : AllFit (documentLines document)
      · rw [if_pos hfits] at hread ⊢
        have hfound : parser.found = _ := Except.ok.inj hread
        have hids : parser.ids = sectionIds (documentLines document) := congrArg Prod.fst hfound
        have hempty : parser.passages.isEmpty = true ↔ parser.ids = [] := by
          rw [Parser.ids, List.map_eq_nil_iff, List.isEmpty_iff]
        rw [Effects.ok_bind]
        by_cases hnone : sectionIds (documentLines document) = []
        · rw [if_pos hnone, if_pos (hempty.mpr (hids.trans hnone))]
          rfl
        · rw [if_neg hnone, if_neg fun hpassages => hnone (hids ▸ hempty.mp hpassages)]
          exact congrArg Except.ok hfound
      · rw [if_neg hfits] at hread
        contradiction

end Passage2Word
end TestAio
