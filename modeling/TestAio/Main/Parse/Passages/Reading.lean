import TestAio.Library.Siblings
import TestAio.Main.Parse.Passages.Documents

/-!
# Reading without references

In front of the translations {lit}`current` is always the object made last, so the references
of the parser can be left out: what it has read is the list of the passages that are
filed and the passage being read.  A reading is that list, and a parser that reads a
line either fails on a number or goes on as the reading does.

Main results:

- Theorem {lit}`feed_reading`: one line takes the parser of a reading to the parser of the next
  reading.
- Theorem {lit}`read_eq`: the run of a fresh parser is the run of the empty reading.
- Theorem {lit}`exists_front`: a document is what stands in front of the translations,
  followed by the lines of the translations.

Current gaps:

- None.
-/

namespace TestAio
namespace Passage1

open Passages Library

/-! ## Readings -/

/-- What is read in front of the translations. -/
structure Reading where
  /-- The passages that are filed. -/
  filed : List Passage := []
  /-- The passage being read. -/
  draft : Passage := {}
  answer : JString := []
  stage : Stage := .waitStart
deriving DecidableEq

/-- The parser of a reading. -/
def Reading.parser (reading : Reading) : Parser where
  objects := reading.filed ++ [reading.draft]
  passages := (List.range reading.filed.length).map some
  answer := reading.answer
  current := some reading.filed.length
  stage := reading.stage

/-- An assignment of a number, if one is matched. -/
def Passage.assign (passage : Passage) (digits : Option JString)
    (set : Nat → Passage → Passage) : Passage :=
  match digits with
  | some digits => set (digitsValue digits) passage
  | none => passage

/-- What the handler of a stage does to the passage being read. -/
def Stage.change (stage : Stage) (line : Line) (passage : Passage) : Passage :=
  match stage with
  | .completed | .complete | .translate | .waitTranslate | .answer | .waitPassage => passage
  | .question => { passage with questions := passage.questions ++ Line.text line }
  | .word => { passage with words := passage.words ++ Line.text line }
  | .content => { passage with content := passage.content ++ Line.text line }
  | .msg =>
      let passage := passage.assign (findOneDigit passageLead line.trim) fun n passage =>
        { passage with index := n }
      let passage := passage.assign (findNumber countLead line.trim) fun n passage =>
        { passage with wordCount := n }
      passage.assign (findNumber idLead line.trim) fun n passage => { passage with id := n }
  | .waitStart =>
      passage.assign (findNumber difficultyLead line.trim) fun n passage =>
        { passage with difficulty := n }

/-- An assignment of a number is not seen in the other fields. -/
theorem assign_same {β : Type} {g : Passage → β} {set : Nat → Passage → Passage}
    (hset : ∀ n passage, g (set n passage) = g passage) (passage : Passage)
    (digits : Option JString) : g (passage.assign digits set) = g passage := by
  cases digits with
  | none => rfl
  | some digits => exact hset _ _

/-- What a stage does not assign stays. -/
theorem change_of_hidden {β : Type} {g : Passage → β} {stage : Stage} (hg : stage.Hidden g)
    (line : Line) (passage : Passage) : g (stage.change line passage) = g passage := by
  cases stage with
  | completed | complete | translate | waitTranslate | answer | waitPassage => rfl
  | question | word | content => exact hg passage _
  | msg =>
      exact (assign_same (fun n passage => hg.2.2 passage n) _ _).trans
        ((assign_same (fun n passage => hg.2.1 passage n) _ _).trans
          (assign_same (fun n passage => hg.1 passage n) _ _))
  | waitStart => exact assign_same (fun n passage => hg passage n) _ _

/-- What the handler of a stage adds to the answer. -/
def Stage.answered (stage : Stage) (line : Line) : JString :=
  if stage = .answer then Line.text line else []

/-- The reading behind a line. -/
def Reading.feed (reading : Reading) (line : Line) : Reading :=
  let next := reading.stage.next line reading.stage
  if next = .complete then
    { filed := reading.filed ++ [reading.draft]
      answer := reading.answer
      stage := .completed }
  else
    { filed := reading.filed
      draft := next.change line reading.draft
      answer := reading.answer ++ next.answered line
      stage := advance reading.stage line }

/-- The reading behind some lines. -/
def Reading.read (reading : Reading) (lines : List Line) : Reading :=
  lines.foldl Reading.feed reading

/-- A line that completes a passage. -/
theorem feed_of_complete {reading : Reading} {line : Line}
    (hnext : reading.stage.next line reading.stage = .complete) :
    reading.feed line =
      { filed := reading.filed ++ [reading.draft]
        answer := reading.answer
        stage := .completed } := by
  unfold Reading.feed
  exact if_pos hnext

/-- A line that completes none. -/
theorem feed_of_ne_complete {reading : Reading} {line : Line}
    (hnext : reading.stage.next line reading.stage ≠ .complete) :
    reading.feed line =
      { filed := reading.filed
        draft := (reading.stage.next line reading.stage).change line reading.draft
        answer := reading.answer ++ (reading.stage.next line reading.stage).answered line
        stage := advance reading.stage line } := by
  unfold Reading.feed
  exact if_neg hnext

/-- The stage of a reading advances with the line. -/
theorem stage_of_reading_feed (reading : Reading) (line : Line) :
    (reading.feed line).stage = advance reading.stage line := by
  by_cases hnext : reading.stage.next line reading.stage = .complete
  · rw [feed_of_complete hnext, advance, hnext]
  · rw [feed_of_ne_complete hnext]

/-- The stage of a reading runs with the lines. -/
theorem stage_of_reading_read (reading : Reading) (lines : List Line) :
    (reading.read lines).stage = run reading.stage lines := by
  induction lines generalizing reading with
  | nil => rfl
  | cons line rest ih =>
      change ((reading.feed line).read rest).stage = _
      rw [ih, stage_of_reading_feed, run_cons]

/-- Two stretches of lines are read one after the other. -/
theorem read_append (reading : Reading) (xs ys : List Line) :
    reading.read (xs ++ ys) = (reading.read xs).read ys :=
  List.foldl_append

/-- The filed passages are the first ones. -/
theorem filed_eq_take {parser : Parser} {n : Nat}
    (hpassages : parser.passages = (List.range n).map some) :
    parser.filed = parser.objects.take n := by
  unfold Parser.filed
  rw [hpassages, List.filterMap_map, ← Siblings.filterMap_range_getElem?]
  rfl

/-! ## The parser of a reading -/

/-- A step fails on a number or ends with a parser. -/
def Yields (result : Except JavaException Parser) (parser : Parser) : Prop :=
  result = .error .numberFormat ∨ result = .ok parser

/-- Two steps yield what the second one does. -/
theorem Yields.bind {result : Except JavaException Parser} {parser parser' : Parser}
    {step : Parser → Except JavaException Parser} (h : Yields result parser)
    (hstep : Yields (step parser) parser') : Yields (result >>= step) parser' := by
  rcases h with rfl | rfl
  · exact .inl rfl
  · exact hstep

/-- Changing the current passage changes the draft. -/
theorem yields_modifyCurrent (reading : Reading) (f : Passage → Passage) :
    Yields (reading.parser.modifyCurrent f) { reading with draft := f reading.draft }.parser := by
  refine .inr (modifyCurrent_eq_ok_iff.mpr ⟨reading.filed.length, rfl, ?_⟩)
  simp only [Reading.parser, Siblings.modify_length_append]

/-- A number is read, or it does not fit. -/
theorem parseInt_eq (digits : JString) :
    parseInt digits = .error .numberFormat ∨ parseInt digits = .ok (digitsValue digits) := by
  unfold parseInt
  split
  · exact .inr rfl
  · exact .inl rfl

/-- Setting a field sets it in the draft. -/
theorem yields_assign (reading : Reading) (digits : Option JString)
    (set : Nat → Passage → Passage) :
    Yields (reading.parser.assign digits set)
      { reading with draft := reading.draft.assign digits set }.parser := by
  cases digits with
  | none => exact .inr rfl
  | some digits =>
      unfold Parser.assign Passage.assign
      rcases parseInt_eq digits with hparse | hparse <;> simp only [hparse]
      · exact .inl rfl
      · exact yields_modifyCurrent reading _

/-- A handler in front of the translations. -/
theorem yields_parse {stage : Stage} (hstage : stage ≠ .translate) (reading : Reading)
    (line : Line) :
    Yields (stage.parse reading.parser line)
      { filed := reading.filed
        draft := stage.change line reading.draft
        answer := reading.answer ++ stage.answered line
        stage :=
          if stage = .waitStart ∧ rates line = true then .waitPassage
          else reading.stage : Reading }.parser := by
  cases stage with
  | completed | complete | waitTranslate | waitPassage | answer =>
      right
      simp [Stage.parse, Stage.change, Stage.answered, Reading.parser]
  | question | word | content =>
      simpa [Stage.parse, Stage.change, Stage.answered] using yields_modifyCurrent reading _
  | translate => contradiction
  | msg =>
      rw [if_neg (by simp), show Stage.msg.answered line = [] from rfl, List.append_nil]
      apply (yields_assign reading _ _).bind
      apply (yields_assign _ _ _).bind
      exact yields_assign _ _ _
  | waitStart =>
      unfold Stage.parse Stage.change Stage.answered Passage.assign rates
      cases hfind : findNumber difficultyLead line.trim with
      | none =>
          right
          simp
      | some digits =>
          rcases parseInt_eq digits with hparse | hparse <;> simp only [hparse]
          · exact .inl rfl
          · rw [Effects.ok_bind]
            refine (yields_modifyCurrent reading _).bind (.inr ?_)
            simp [Reading.parser]

/-- The stage behind a line that completes no passage. -/
theorem advance_eq {now : Stage} {line : Line} (hnext : now.next line now ≠ .complete) :
    advance now line =
      if now.next line now = .waitStart ∧ rates line = true then .waitPassage
      else now.next line now := by
  unfold advance
  cases hcase : now.next line now <;> simp_all

/-- A line comes to the translations exactly when it leads there. -/
theorem advance_eq_translate_iff {now : Stage} {line : Line} :
    advance now line = .translate ↔ now.next line now = .translate := by
  unfold advance
  split
  · simp [*]
  · rename_i hnext
    rw [hnext]
    split <;> simp
  · exact Iff.rfl

/-- One line takes the parser of a reading to the parser of the next reading. -/
theorem feed_reading {reading : Reading} {line : Line}
    (hstage : advance reading.stage line ≠ .translate) :
    Yields (reading.parser.feed line) (reading.feed line).parser := by
  unfold Parser.feed
  by_cases hnext : reading.stage.next line reading.stage = .complete
  · right
    rw [feed_of_complete hnext]
    simp [Reading.parser, hnext, Parser.file, Parser.renew, Stage.parse, List.range_succ]
  · have hparse := yields_parse (mt advance_eq_translate_iff.mpr hstage)
      { reading with stage := reading.stage.next line reading.stage } line
    rw [← advance_eq hnext] at hparse
    rw [feed_of_ne_complete hnext]
    simpa [Reading.parser, hnext] using hparse

/-- Once in the translations, the machine stays there. -/
theorem run_translate (lines : List Line) : run .translate lines = .translate := by
  induction lines with
  | nil => rfl
  | cons line rest ih => exact ih

/-- In front of the translations a fresh parser runs as the empty reading does. -/
theorem read_eq {lines : List Line} (h : run .waitStart lines ≠ .translate) :
    Yields (fresh.start.read lines) (({} : Reading).read lines).parser := by
  induction lines using List.reverseRecOn with
  | nil => exact .inr rfl
  | append_singleton lines line ih =>
      have hfront : run .waitStart lines ≠ .translate := by
        intro htranslate
        rw [run_append, htranslate, run_translate] at h
        contradiction
      have hstage : advance (({} : Reading).read lines).stage line ≠ .translate := by
        rw [stage_of_reading_read]
        rwa [run_append] at h
      have hread : fresh.start.read (lines ++ [line]) =
          fresh.start.read lines >>= fun parser => parser.feed line := by
        unfold Parser.read
        simp
      rw [hread, read_append]
      exact (ih hfront).bind (feed_reading hstage)

/-! ## The lines of a stage -/

/-- The lines that are handled in a stage or, for {lit}`COMPLETE`, lead to it. -/
def handledIn (stage now : Stage) : List Line → List Line
  | [] => []
  | line :: rest =>
      (if now.next line now = stage then [line] else []) ++
        handledIn stage (advance now line) rest

/-- The lines that a stage handles in two stretches. -/
theorem handledIn_append (stage now : Stage) (xs ys : List Line) :
    handledIn stage now (xs ++ ys) = handledIn stage now xs ++ handledIn stage (run now xs) ys := by
  induction xs generalizing now with
  | nil => rfl
  | cons x xs ih => simp only [List.cons_append, handledIn, ih, run_cons, List.append_assoc]

/-- Lines of the translations are handled in no other stage. -/
theorem handledIn_of_translations {stage now : Stage} {tail : List Line}
    (hstage : stage ≠ .translate) (hhead : ∀ line ∈ tail.head?, advance now line = .translate) :
    handledIn stage now tail = [] := by
  induction tail generalizing now with
  | nil => rfl
  | cons line rest ih =>
      have hadvance := hhead line rfl
      have hnext : now.next line now ≠ stage := by
        rw [advance_eq_translate_iff.mp hadvance]
        exact hstage.symm
      rw [handledIn, if_neg hnext, List.nil_append, hadvance]
      exact ih fun _ _ => rfl

/-- Before the translations no line is handled there. -/
theorem handledIn_translate_of_front {now : Stage} {lines : List Line}
    (h : run now lines ≠ .translate) : handledIn .translate now lines = [] := by
  induction lines generalizing now with
  | nil => rfl
  | cons line rest ih =>
      have hnext : now.next line now ≠ .translate := by
        intro hnext
        rw [run_cons, advance_eq_translate_iff.mpr hnext, run_translate] at h
        contradiction
      rw [handledIn, if_neg hnext]
      exact ih h

/-- The text of a list of lines, each with a line break. -/
def textOf (lines : List Line) : JString :=
  lines.flatMap Line.text

@[simp]
theorem textOf_append (xs ys : List Line) : textOf (xs ++ ys) = textOf xs ++ textOf ys :=
  List.flatMap_append

/-- A document is what stands in front of the translations, followed by their lines. -/
theorem exists_front (lines : List Line) :
    ∃ front tail, lines = front ++ tail ∧ handledIn .translate .waitStart lines = tail ∧
      run .waitStart front ≠ .translate ∧
      ∀ line ∈ tail.head?, advance (run .waitStart front) line = .translate := by
  induction lines using List.reverseRecOn with
  | nil => exact ⟨[], [], rfl, rfl, by simp [run], by simp⟩
  | append_singleton lines line ih =>
      by_cases hlonger : run .waitStart (lines ++ [line]) = .translate
      · rcases ih with ⟨front, tail, hlines, htail, hfront, hhead⟩
        have hadvance : advance (run .waitStart lines) line = .translate := by
          rwa [run_append] at hlonger
        refine ⟨front, tail ++ [line], ?_, ?_, hfront, ?_⟩
        · rw [hlines, List.append_assoc]
        · rw [handledIn_append, htail]
          simp [handledIn, advance_eq_translate_iff.mp hadvance]
        · cases tail with
          | nil =>
              rw [List.append_nil] at hlines
              rw [← hlines]
              simpa using hadvance
          | cons first rest => simpa using hhead
      · exact ⟨lines ++ [line], [], by simp, handledIn_translate_of_front hlonger, hlonger, by simp⟩

/-! ## The translations -/

/-- The passage that a line of the translations is added to. -/
def Parser.target (parser : Parser) (line : Line) : Option Ref :=
  match findOneDigit passageLead line.trim with
  | some digit =>
      (List.range parser.passages.length).find? fun ref =>
        parser.objects[ref]?.any fun passage => passage.index == digitsValue digit
  | none => parser.current

/-- The parser behind a line of the translations. -/
def Parser.translate (parser : Parser) (line : Line) : Parser :=
  { parser with
    current := parser.target line
    stage := .translate
    objects :=
      match parser.target line with
      | some ref =>
          parser.objects.modify ref fun passage =>
            { passage with translate := passage.translate ++ Line.text line }
      | none => parser.objects }

/-- The first passage with an index is found. -/
theorem findIndex_map_some (objects : List Passage) (index : Nat) (refs : List Ref) :
    findIndex objects index (refs.map some) =
      .ok (refs.find? fun ref => objects[ref]?.any fun passage => passage.index == index) := by
  induction refs with
  | nil => rfl
  | cons ref refs ih =>
      rw [List.map_cons, findIndex, List.find?_cons]
      cases objects[ref]?.any fun passage => passage.index == index
      · exact ih
      · rfl

/-- Going over to a passage yields its target. -/
theorem yields_locate (parser : Parser) {n : Nat}
    (hpassages : parser.passages = (List.range n).map some) (line : Line) :
    Yields (parser.locate line) { parser with current := parser.target line } := by
  have hlength : parser.passages.length = n := by simp [hpassages]
  unfold Parser.locate Parser.target
  cases findOneDigit passageLead line.trim with
  | none => exact .inr rfl
  | some digit =>
      rcases parseInt_eq digit with hparse | hparse <;> simp only [hparse]
      · exact .inl rfl
      · right
        rw [Effects.ok_bind, Parser.getIndex, hpassages, findIndex_map_some, List.length_map,
          List.length_range]
        rfl

/-- A line of the translations. -/
theorem feed_translate {parser : Parser} {line : Line} {n : Nat}
    (hpassages : parser.passages = (List.range n).map some)
    (hstage : advance parser.stage line = .translate) :
    Yields (parser.feed line) (parser.translate line) := by
  have hfeed :
      parser.feed line = Stage.translate.parse { parser with stage := .translate } line := by
    simp [Parser.feed, advance_eq_translate_iff.mp hstage]
  rw [hfeed]
  apply (yields_locate { parser with stage := .translate } hpassages line).bind
  right
  have htarget : Parser.target { parser with stage := .translate } line = parser.target line := rfl
  unfold Parser.translate
  rw [htarget]
  cases parser.target line <;> rfl

/-- Every line of the translations is read so. -/
theorem read_translate {parser : Parser} {tail : List Line} {n : Nat}
    (hpassages : parser.passages = (List.range n).map some)
    (hstage : ∀ line ∈ tail.head?, advance parser.stage line = .translate) :
    Yields (parser.read tail) (tail.foldl Parser.translate parser) := by
  induction tail generalizing parser with
  | nil => exact .inr rfl
  | cons line rest ih =>
      unfold Parser.read
      rw [List.foldlM_cons, List.foldl_cons]
      apply (feed_translate hpassages (hstage line rfl)).bind
      exact @ih (parser.translate line) hpassages fun _ _ => rfl

/-- A run of a fresh parser: it reads what stands in front of the translations and then
the translations, unless it fails on a number. -/
theorem read_yields (lines : List Line) :
    ∃ front tail, lines = front ++ tail ∧ handledIn .translate .waitStart lines = tail ∧
      (∀ line ∈ tail.head?, advance (run .waitStart front) line = .translate) ∧
      Yields (fresh.start.read lines)
        (tail.foldl Parser.translate (({} : Reading).read front).parser) := by
  rcases exists_front lines with ⟨front, tail, rfl, htail, hfront, hhead⟩
  refine ⟨front, tail, rfl, htail, hhead, ?_⟩
  have hread : fresh.start.read (front ++ tail) =
      fresh.start.read front >>= fun parser => parser.read tail := by
    unfold Parser.read
    exact List.foldlM_append
  rw [hread]
  refine (read_eq hfront).bind (read_translate rfl fun line hline => ?_)
  have hstage : (({} : Reading).read front).parser.stage = run .waitStart front :=
    stage_of_reading_read {} front
  rw [hstage]
  exact hhead line hline

/-- The translations touch neither what is filed nor the answers nor what else is read of a
passage. -/
theorem view_foldl_translate {β : Type} {g : Passage → β}
    (hg : ∀ passage t, g { passage with translate := t } = g passage) (parser : Parser)
    (tail : List Line) :
    (tail.foldl Parser.translate parser).passages = parser.passages ∧
      (tail.foldl Parser.translate parser).answer = parser.answer ∧
        (tail.foldl Parser.translate parser).view g = parser.view g := by
  induction tail generalizing parser with
  | nil => exact ⟨rfl, rfl, rfl⟩
  | cons line rest ih =>
      rw [List.foldl_cons]
      rcases ih (parser.translate line) with ⟨hpassages, hanswer, hview⟩
      refine ⟨hpassages, hanswer, hview.trans ?_⟩
      unfold Parser.translate Parser.view
      cases parser.target line with
      | none => rfl
      | some ref =>
          simp only
          exact (@map_modify _ _ _ g id (fun passage => hg passage _) _ _).trans
            (List.modify_id _ _)

/-- Behind the translations a passage that is filed is where it was. -/
theorem exists_object {β : Type} {g : Passage → β}
    (hg : ∀ passage t, g { passage with translate := t } = g passage) {reading : Reading}
    {k : Nat} {filed : Passage} (hfiled : reading.filed[k]? = some filed) (tail : List Line) :
    (tail.foldl Parser.translate reading.parser).passages[k]? = some (some k) ∧
      ∃ passage, (tail.foldl Parser.translate reading.parser).objects[k]? = some passage ∧
        g passage = g filed := by
  rcases view_foldl_translate hg reading.parser tail with ⟨hpassages, -, hview⟩
  have hk : k < reading.filed.length := (List.getElem?_eq_some_iff.mp hfiled).1
  constructor
  · rw [hpassages]
    simp [Reading.parser, hk]
  · have hobject : (reading.parser.view g)[k]? = some (g filed) := by
      unfold Parser.view Reading.parser
      rw [List.getElem?_map, List.getElem?_append_left hk, hfiled]
      rfl
    rw [← hview, Parser.view, List.getElem?_map, Option.map_eq_some_iff] at hobject
    exact hobject

end Passage1
end TestAio
