import TestAio.Library.Siblings
import TestAio.Main.Parse.Passages.Documents
import TestAio.Main.Parse.Passages.Passage1Word

/-!
# Two parsers of one document

{lit}`Passage1Word` updates the rows that {lit}`Passage1` made, so both have to find the same
passages.  While a passage is read and between passages the machine of the first is
a refinement of the machine of the second.  They part where the first waits for a
reminder and behind the last passage, where the second goes on looking for passages.

Main results:

- Theorem {lit}`next_cases`: the two machines move together or the first leaves the
  passages.
- Theorem {lit}`ids_eq_of_read`: both collect the same ids from a document whose passages have
  their reminders and are not followed by further ones.

Current gaps:

- None.
-/

namespace TestAio
namespace Agreement

open Passages Library Library.Triggers

/-! ## Stages -/

/-- The stage of the second machine while the first is in a given one. -/
def counterpart : Passage1.Stage → Option Passage1Word.Stage
  | .waitStart => some .waitStart
  | .waitPassage => some .waitPassage
  | .msg => some .msg
  | .content | .word | .question => some .content
  | .completed => some .completed
  | .complete | .answer | .waitTranslate | .translate => none

/-- The first machine is behind the last passage. -/
def behind : Passage1.Stage → Bool
  | .answer | .waitTranslate | .translate => true
  | _ => false

/-- Behind the passages no line leads back to them. -/
theorem advance_of_behind {now : Passage1.Stage} (h : behind now = true) (line : Line) :
    behind (Passage1.advance now line) = true ∧ now.next line now ≠ .complete ∧
      now.next line now ≠ .msg := by
  cases now <;> simp only [behind, Bool.false_eq_true] at h <;>
    simp only [Passage1.advance, Passage1.Stage.next] <;> grind [behind]

/-- A line that does not finish a passage before its reminder takes both machines to
corresponding stages, or takes the first behind the last passage. -/
theorem next_cases {first : Passage1.Stage} {second : Passage1Word.Stage} {line : Line}
    (hstage : counterpart first = some second)
    (hreminded : finishes line = true → first ≠ .content ∧ first ≠ .word) :
    (first = .completed ∧ (answers line = true ∨ translates line = true) ∧
        behind (Passage1.advance first line) = true ∧ first.next line first ≠ .complete ∧
          first.next line first ≠ .msg) ∨
      counterpart (Passage1.advance first line) = some (Passage1Word.advance second line) ∧
        ((first.next line first = .complete ∧ second.next line second = .complete) ∨
          (first.next line first = .msg ∧ second.next line second = .msg) ∨
            (first.next line first ≠ .complete ∧ first.next line first ≠ .msg ∧
              first.next line first ≠ .translate ∧ second.next line second ≠ .complete ∧
                second.next line second ≠ .msg)) := by
  cases first <;> cases hstage <;>
    simp only [Passage1.advance, Passage1.Stage.next, Passage1.parseFirstStage,
      Passage1Word.advance, Passage1Word.Stage.next, Passage1Word.parseFirstStage] <;>
    grind [counterpart, behind]

/-! ## Parsers -/

/-- The two parsers have filed the same passages and read the same one. -/
structure Together (parser : Passage1.Parser) (reader : Passage1Word.Parser) : Prop where
  stage : counterpart parser.stage = some reader.stage
  refs : parser.passages = (List.range parser.passages.length).map some
  current : parser.current = some parser.passages.length
  length : parser.passages.length = reader.passages.length
  objectIds : parser.objectIds = reader.ids ++ [reader.current.id]

/-- Two parsers that go together have the same ids. -/
theorem ids_of_together {parser : Passage1.Parser} {reader : Passage1Word.Parser}
    (h : Together parser reader) : parser.ids = reader.ids := by
  have hlength : reader.ids.length = reader.passages.length := List.length_map _
  rw [Passage1.ids_eq, h.refs, List.filterMap_map]
  simp only [Function.comp_def, Option.bind_some]
  rw [Siblings.filterMap_range_getElem?, h.objectIds, h.length, ← hlength, List.take_left]

/-- The two parsers start together. -/
theorem together_start : Together Passage1.fresh.start Passage1Word.fresh.start where
  stage := rfl
  refs := rfl
  current := rfl
  length := rfl
  objectIds := rfl

/-- Both machines file the passage being read. -/
theorem together_of_complete {parser parser' : Passage1.Parser}
    {reader reader' : Passage1Word.Parser} {line : Line} (h : Together parser reader)
    (hfirst : parser.stage.next line parser.stage = .complete)
    (hsecond : reader.stage.next line reader.stage = .complete)
    (hparser : parser.feed line = .ok parser') (hreader : reader.feed line = .ok reader')
    (hstage : counterpart parser'.stage = some reader'.stage) : Together parser' reader' := by
  rcases Passage1.feed_complete hfirst hparser with ⟨hpassages, hcurrent, hobjectIds⟩
  rcases Passage1Word.feed_complete hsecond hreader with ⟨hids, hid⟩
  have hobjects : parser.objects.length = parser.passages.length + 1 := by
    have hlength := congrArg List.length h.objectIds
    simpa [Passage1.Parser.objectIds, Passage1Word.Parser.ids, h.length] using hlength
  have hlength : reader'.passages.length = reader.passages.length + 1 := by
    simpa [Passage1Word.Parser.ids] using congrArg List.length hids
  constructor
  · exact hstage
  · rw [hpassages, List.length_append, List.length_singleton, List.range_succ, List.map_append,
      ← h.refs, h.current]
    rfl
  · rw [hcurrent, hpassages, hobjects, List.length_append]
    rfl
  · rw [hpassages, hlength, List.length_append, h.length]
    rfl
  · rw [hobjectIds, hids, hid, h.objectIds]

/-- Both machines read the line in {lit}`MSG`. -/
theorem together_of_msg {parser parser' : Passage1.Parser}
    {reader reader' : Passage1Word.Parser} {line : Line} (h : Together parser reader)
    (hfirst : parser.stage.next line parser.stage = .msg)
    (hsecond : reader.stage.next line reader.stage = .msg)
    (hparser : parser.feed line = .ok parser') (hreader : reader.feed line = .ok reader')
    (hstage : counterpart parser'.stage = some reader'.stage) : Together parser' reader' := by
  rcases Passage1.feed_msg hfirst h.current hparser with ⟨hpassages, hcurrent, hobjectIds⟩
  rcases Passage1Word.feed_other (by simp [hsecond]) hreader with ⟨hids, hid⟩
  rw [if_pos hsecond] at hid
  have hlength : reader'.passages.length = reader.passages.length := by
    simpa [Passage1Word.Parser.ids] using congrArg List.length hids
  have hlast : parser.passages.length = reader.ids.length := by
    rw [h.length]
    exact (List.length_map _).symm
  constructor
  · exact hstage
  · rw [hpassages]
    exact h.refs
  · rw [hcurrent, hpassages]
  · rw [hpassages, hlength, h.length]
  · rw [hobjectIds, hids, hid, h.objectIds, hlast, Library.Siblings.modify_length_append]
    rfl

/-- Neither machine changes a passage's number. -/
theorem together_of_other {parser parser' : Passage1.Parser}
    {reader reader' : Passage1Word.Parser} {line : Line} (h : Together parser reader)
    (hcomplete : parser.stage.next line parser.stage ≠ .complete)
    (hmsg : parser.stage.next line parser.stage ≠ .msg)
    (htranslate : parser.stage.next line parser.stage ≠ .translate)
    (hcomplete' : reader.stage.next line reader.stage ≠ .complete)
    (hmsg' : reader.stage.next line reader.stage ≠ .msg)
    (hparser : parser.feed line = .ok parser') (hreader : reader.feed line = .ok reader')
    (hstage : counterpart parser'.stage = some reader'.stage) : Together parser' reader' := by
  rcases Passage1.feed_other hcomplete hmsg hparser with ⟨hpassages, hobjectIds, hcurrent⟩
  rcases Passage1Word.feed_other hcomplete' hreader with ⟨hids, hid⟩
  rw [if_neg hmsg'] at hid
  have hlength : reader'.passages.length = reader.passages.length := by
    simpa [Passage1Word.Parser.ids] using congrArg List.length hids
  constructor
  · exact hstage
  · rw [hpassages]
    exact h.refs
  · rw [hcurrent htranslate, hpassages, h.current]
  · rw [hpassages, hlength, h.length]
  · rw [hobjectIds, hids, hid, h.objectIds]

/-! ## Runs -/

/-- No line finishes a passage before its reminder. -/
def Reminded (now : Passage1.Stage) (lines : List Line) : Prop :=
  ∀ i (h : i < lines.length), finishes lines[i] = true →
    Passage1.run now (lines.take i) ≠ .content ∧ Passage1.run now (lines.take i) ≠ .word

/-- Behind the line that starts the answers or the translations there is no further
complete passage. -/
def NothingBehind (now : Passage1.Stage) (lines : List Line) : Prop :=
  ∀ i (h : i < lines.length), Passage1.run now (lines.take i) = .completed →
    answers lines[i] = true ∨ translates lines[i] = true →
      ¬ Occur [opens, begins, finishes] (lines.drop (i + 1))

/-- What is reminded stays so behind the first line. -/
theorem Reminded.tail {now : Passage1.Stage} {line : Line} {rest : List Line}
    (h : Reminded now (line :: rest)) : Reminded (Passage1.advance now line) rest := by
  intro i hi hfinishes
  exact h (i + 1) (by simpa using hi) hfinishes

/-- What has nothing behind it stays so behind the first line. -/
theorem NothingBehind.tail {now : Passage1.Stage} {line : Line} {rest : List Line}
    (h : NothingBehind now (line :: rest)) :
    NothingBehind (Passage1.advance now line) rest := by
  intro i hi hcompleted hcloses
  exact h (i + 1) (by simpa using hi) hcompleted hcloses

/-- Behind the last passage the first parser files nothing and changes no id. -/
theorem ids_of_behind {parser parser' : Passage1.Parser} {lines : List Line}
    (hbehind : behind parser.stage = true) (h : parser.read lines = .ok parser') :
    parser'.ids = parser.ids := by
  induction lines generalizing parser with
  | nil =>
      cases h
      rfl
  | cons line rest ih =>
      unfold Passage1.Parser.read at h
      rw [List.foldlM_cons] at h
      rcases Effects.bind_eq_ok_iff.mp h with ⟨fed, hfed, hrest⟩
      rcases advance_of_behind hbehind line with ⟨hstill, hcomplete, hmsg⟩
      rw [← Passage1.stage_of_feed hfed] at hstill
      rcases Passage1.feed_other hcomplete hmsg hfed with ⟨hpassages, hobjectIds, -⟩
      rw [ih hstill hrest, Passage1.ids_eq, Passage1.ids_eq, hpassages, hobjectIds]

/-- The first parser goes behind the last passage at a line; the second is between passages
and finds no further one. -/
theorem ids_eq_of_closing {parser fed parser' : Passage1.Parser}
    {reader fed' reader' : Passage1Word.Parser} {line : Line} {rest : List Line}
    (h : Together parser reader) (hcompleted : parser.stage = .completed)
    (hcloses : answers line = true ∨ translates line = true)
    (hbehind : behind (Passage1.advance parser.stage line) = true)
    (hcomplete : parser.stage.next line parser.stage ≠ .complete)
    (hmsg : parser.stage.next line parser.stage ≠ .msg)
    (hfed : parser.feed line = .ok fed) (hrest : fed.read rest = .ok parser')
    (hfed' : reader.feed line = .ok fed') (hrest' : fed'.read rest = .ok reader')
    (hnothing : ¬ Occur [opens, begins, finishes] rest) : parser'.ids = reader'.ids := by
  have hsecond : reader.stage = .completed := by
    have hpair := h.stage
    rw [hcompleted] at hpair
    exact (Option.some.inj hpair).symm
  have hopens : opens line = false := by
    rcases hcloses with hcloses | hcloses
    · exact not_opens_of_answers hcloses
    · exact not_opens_of_translates hcloses
  have hstay : reader.stage.next line reader.stage = .completed := by
    simp [hsecond, Passage1Word.Stage.next, Passage1Word.parseFirstStage, hopens]
  have hids : fed.ids = parser.ids := by
    rcases Passage1.feed_other hcomplete hmsg hfed with ⟨hpassages, hobjectIds, -⟩
    rw [Passage1.ids_eq, Passage1.ids_eq, hpassages, hobjectIds]
  have hids' : fed'.ids = reader.ids := (Passage1Word.feed_other (by simp [hstay]) hfed').1
  have hpending : ¬ Passage1Word.Pending fed'.stage rest := by
    rw [Passage1Word.stage_of_feed hfed', Passage1Word.advance, hstay]
    exact hnothing
  rw [← Passage1.stage_of_feed hfed] at hbehind
  calc
    parser'.ids = fed.ids := ids_of_behind hbehind hrest
    _ = reader.ids := by rw [hids, ids_of_together h]
    _ = reader'.ids := by rw [← hids', Passage1Word.ids_of_not_pending hpending hrest']

/-- Parsers that agree go on to agree. -/
theorem ids_eq_of_together {parser parser' : Passage1.Parser}
    {reader reader' : Passage1Word.Parser} {lines : List Line} (h : Together parser reader)
    (hparser : parser.read lines = .ok parser') (hreader : reader.read lines = .ok reader')
    (hreminded : Reminded parser.stage lines) (hnothing : NothingBehind parser.stage lines) :
    parser'.ids = reader'.ids := by
  induction lines generalizing parser reader with
  | nil =>
      cases hparser
      cases hreader
      exact ids_of_together h
  | cons line rest ih =>
      unfold Passage1.Parser.read at hparser
      unfold Passage1Word.Parser.read at hreader
      rw [List.foldlM_cons] at hparser hreader
      rcases Effects.bind_eq_ok_iff.mp hparser with ⟨fed, hfed, hrest⟩
      rcases Effects.bind_eq_ok_iff.mp hreader with ⟨fed', hfed', hrest'⟩
      have hstage := Passage1.stage_of_feed hfed
      have hstage' := Passage1Word.stage_of_feed hfed'
      have hreminded' := hreminded.tail
      have hnothing' := hnothing.tail
      rw [← hstage] at hreminded' hnothing'
      have hline : finishes line = true → parser.stage ≠ .content ∧ parser.stage ≠ .word :=
        hreminded 0 (by simp)
      rcases next_cases h.stage hline with
        ⟨hcompleted, hcloses, hbehind, hcomplete, hmsg⟩ | ⟨hpair, hnext⟩
      · exact ids_eq_of_closing h hcompleted hcloses hbehind hcomplete hmsg hfed hrest hfed' hrest'
          (hnothing 0 (by simp) hcompleted hcloses)
      · rw [← hstage, ← hstage'] at hpair
        refine ih ?_ hrest hrest' hreminded' hnothing'
        rcases hnext with ⟨hfirst, hsecond⟩ | ⟨hfirst, hsecond⟩ |
          ⟨hcomplete, hmsg, htranslate, hcomplete', hmsg'⟩
        · exact together_of_complete h hfirst hsecond hfed hfed' hpair
        · exact together_of_msg h hfirst hsecond hfed hfed' hpair
        · exact together_of_other h hcomplete hmsg htranslate hcomplete' hmsg' hfed hfed' hpair

/-- Fresh parsers collect the same ids from lines in which every passage has its reminder
before it is finished and no passage follows the answers or the translations. -/
theorem ids_eq_of_read {lines : List Line} {parser : Passage1.Parser}
    {reader : Passage1Word.Parser}
    (hparser : Passage1.fresh.start.read lines = .ok parser)
    (hreader : Passage1Word.fresh.start.read lines = .ok reader)
    (hreminded : Reminded .waitStart lines) (hnothing : NothingBehind .waitStart lines) :
    parser.ids = reader.ids :=
  ids_eq_of_together together_start hparser hreader hreminded hnothing

/-- One complete passage and the answers. -/
def answeredDocument : List JString :=
  Passage1.wholeDocument ++ [jstr "答案", jstr "1. A"]

/-- Both parsers find its passage. -/
theorem answeredDocument_ids :
    Passage1.Parser.ids
        { Passage1.wholeParser with answer := jstr "答案\n1. A\n", stage := .answer } =
      Passage1Word.Parser.ids
        { passages := [{ id := 12 }], stage := .completed, difficulty := 7 } := by
  refine @ids_eq_of_read (documentLines answeredDocument) _ _ (by decide +kernel)
    (by decide +kernel) ?_ ?_
  · unfold Reminded
    decide +kernel
  · unfold NothingBehind
    decide +kernel

/-- A passage without its reminder. -/
def unremindedDocument : List JString :=
  [jstr "本次文章词汇难度值：7", jstr "Passage 1\n编号：12", jstr "开始时间", jstr "完成时间"]

/-- A passage behind the answers. -/
def resumedDocument : List JString :=
  answeredDocument ++ [jstr "Passage 2\n编号：13", jstr "开始时间", jstr "完成时间"]

/-- A number that only one of the parsers reads and that is no {lit}`int`. -/
def overlongDocument : List JString :=
  [jstr "本次文章词汇难度值：7", jstr "Passage 1\n编号：12\n单词数：2147483648",
    jstr "开始时间", jstr "郑重提示", jstr "完成时间"]

/-- The ids the first parser collects. -/
def firstIds (document : List JString) : Except JavaException (List Nat) :=
  (Passage1.fresh.start.read (documentLines document)).map (·.ids)

/-- The ids the second parser collects. -/
def secondIds (document : List JString) : Except JavaException (List Nat) :=
  (Passage1Word.fresh.start.read (documentLines document)).map (·.ids)

/-- Each of the three separates the parsers. -/
theorem ids_differ :
    (firstIds unremindedDocument = .ok [] ∧ secondIds unremindedDocument = .ok [12]) ∧
      (firstIds resumedDocument = .ok [12] ∧ secondIds resumedDocument = .ok [12, 13]) ∧
        firstIds overlongDocument = .error .numberFormat ∧
          secondIds overlongDocument = .ok [12] := by
  decide +kernel

end Agreement
end TestAio
