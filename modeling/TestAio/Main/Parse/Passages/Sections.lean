import TestAio.Main.Parse.Passages.Reading

/-!
# The sections of a document

The machine spreads the text of a passage over three fields and swaps the passage when
it is complete.  A section of a document is the part between the line that begins the
text of a passage and the line that completes the passage.

Main results:

- Theorem {lit}`split_read`: what a reading has filed is what the sections of the lines
  say.
- Theorem {lit}`IsSection.unique`: a document has at most one section of a number.
- Theorem {lit}`read_splits`: a run that meets no bad number files every section once, in
  order, and the lines of the answers behind them.

Current gaps:

- None.
-/

namespace TestAio
namespace Passage1

open Passages Library

/-! ## Sections -/

/-- Behind {lit}`before`, in which {lit}`k` passages are completed, {lit}`body` takes the machine
from {lit}`MSG` to {lit}`CONTENT` and completes no passage. -/
structure Begun (before : List Line) (k : Nat) (body : List Line) : Prop where
  opened : run .waitStart before = .msg
  count : (handledIn .complete .waitStart before).length = k
  first : ∃ line rest, body = line :: rest ∧ Stage.msg.next line .msg = .content
  inside : handledIn .complete .msg body = []

/-- {lit}`body` has the lines from the one that takes the machine from {lit}`MSG` to
{lit}`CONTENT` up to the one that completes the passage, the {lit}`k`-th from zero on. -/
def IsSection (lines : List Line) (k : Nat) (body : List Line) : Prop :=
  ∃ before last rest, lines = before ++ body ++ last :: rest ∧ Begun before k body ∧
    (run .msg body).next last (run .msg body) = .complete

/-- The stages in which the text of a passage is read. -/
def Stage.isText : Stage → Bool
  | .content | .word | .question => true
  | _ => false

/-- The text of a passage in the order of the document. -/
def Passage.text (passage : Passage) : JString :=
  passage.content ++ passage.words ++ passage.questions

/-- What the fields of the passage being read hold of the text read so far. -/
def Stage.Holds (stage : Stage) (passage : Passage) (text : JString) : Prop :=
  passage.text = text ∧
    match stage with
    | .question => True
    | .word => passage.questions = []
    | .content => passage.words = [] ∧ passage.questions = []
    | _ => passage.content = [] ∧ passage.words = [] ∧ passage.questions = []

/-- The lines of the passage being read. -/
def OpenAt (lines : List Line) (k : Nat) (body : List Line) (stage : Stage) : Prop :=
  if stage.isText then
    ∃ before, lines = before ++ body ∧ Begun before k body
  else
    body = []

/-! ## What one line does -/

/-- A section that has begun is read from its heading on. -/
theorem run_of_begun {before body : List Line} {k : Nat} (h : Begun before k body) :
    run .waitStart (before ++ body) = run .msg body := by
  rw [run_append, h.opened]

/-- A section goes on until a line completes it. -/
theorem Begun.concat {before body : List Line} {k : Nat} {line : Line} (h : Begun before k body)
    (hnext : (run .msg body).next line (run .msg body) ≠ .complete) :
    Begun before k (body ++ [line]) := by
  refine ⟨h.opened, h.count, ?_, ?_⟩
  · rcases h.first with ⟨first, rest, rfl, hfirst⟩
    exact ⟨first, rest ++ [line], rfl, hfirst⟩
  · rw [handledIn_append, h.inside]
    simp [handledIn, hnext]

/-- More lines do not change a section. -/
theorem IsSection.append {lines body : List Line} {k : Nat} (h : IsSection lines k body)
    (more : List Line) : IsSection (lines ++ more) k body := by
  rcases h with ⟨before, last, rest, rfl, hbegun, hlast⟩
  exact ⟨before, last, rest ++ more, by simp, hbegun, hlast⟩

/-- A passage is completed from its questions. -/
theorem eq_question_of_complete {now : Stage} {line : Line} (hnow : now ≠ .complete)
    (h : now.next line now = .complete) : now = .question := by
  cases now <;> simp only [Stage.next, parseFirstStage] at h <;> grind

/-- No run ends in the completing stage. -/
theorem run_ne_complete (lines : List Line) : run .waitStart lines ≠ .complete := by
  induction lines using List.reverseRecOn with
  | nil => simp [run]
  | append_singleton lines line _ =>
      rw [run_append, run_cons]
      unfold advance
      split
      · simp [run]
      · split <;> simp [run]
      · simpa [run]

/-- A line goes on with the text, begins it or has nothing to do with it. -/
theorem isText_cases {now : Stage} {line : Line} (h : now.next line now ≠ .complete) :
    (now.isText = true ∧ (now.next line now).isText = true) ∨
      (now = .msg ∧ now.next line now = .content) ∨
        (now.isText = false ∧ (now.next line now).isText = false) := by
  cases now <;> simp only [Stage.next, parseFirstStage] at h ⊢ <;> grind [Stage.isText]

/-- Whether a stage is text depends on where the line leads. -/
theorem isText_advance {now : Stage} {line : Line} (h : now.next line now ≠ .complete) :
    (advance now line).isText = (now.next line now).isText := by
  rw [advance_eq h]
  split
  · rename_i hwait
    rw [hwait.1]
    rfl
  · rfl

/-- The handlers of the other stages leave the text alone. -/
theorem change_of_not_isText {stage : Stage} (hstage : stage.isText = false) (line : Line)
    (passage : Passage) :
    (stage.change line passage).content = passage.content ∧
      (stage.change line passage).words = passage.words ∧
        (stage.change line passage).questions = passage.questions := by
  have hhidden : stage.Hidden fun passage =>
      (passage.content, passage.words, passage.questions) := by
    cases stage <;> simp [Stage.Hidden, Stage.isText] at *
  simpa using change_of_hidden hhidden line passage

/-- Before the text a passage has nothing else. -/
theorem holds_of_not_isText {stage : Stage} (hstage : stage.isText = false) (passage : Passage)
    (text : JString) :
    stage.Holds passage text ↔
      passage.text = text ∧ passage.content = [] ∧ passage.words = [] ∧
        passage.questions = [] := by
  cases stage <;> first | exact Iff.rfl | contradiction

/-- The handler adds a line of the text behind the text. -/
theorem holds_change {now : Stage} {line : Line} {passage : Passage} {text : JString}
    (h : now.Holds passage text) (hnext : now.next line now ≠ .complete) :
    (advance now line).Holds ((now.next line now).change line passage)
      (text ++ if (now.next line now).isText then Line.text line else []) := by
  rcases isText_cases hnext with ⟨hnow, htext⟩ | ⟨rfl, hcontent⟩ | ⟨hnow, htext⟩
  · cases now with
    | content =>
        rcases h with ⟨rfl, hwords, hquestions⟩
        simp only [Stage.next] at hnext ⊢
        split
        · simp [advance, Stage.next, Stage.Holds, Stage.change, Stage.isText, Passage.text, *]
        · split
          · simp [Stage.next, advance, Stage.Holds, Stage.change, Stage.isText, Passage.text, *]
          · simp [Stage.next, advance, Stage.Holds, Stage.change, Passage.text, *]
    | word =>
        rcases h with ⟨rfl, hquestions⟩
        by_cases hreminds : reminds line = true <;>
          simp [Stage.next, advance, Stage.Holds, Stage.change, Stage.isText, Passage.text, *]
    | question =>
        rcases h with ⟨rfl, -⟩
        have hstays : finishes line = false := by simpa [Stage.next] using hnext
        simp [Stage.next, advance, Stage.Holds, Stage.change, Stage.isText, Passage.text, hstays]
    | completed | complete | translate | waitTranslate | answer | msg | waitPassage | waitStart =>
        contradiction
  · rcases h with ⟨rfl, hempty⟩
    simp [advance, hcontent, Stage.Holds, Stage.change, Stage.isText, Passage.text, hempty]
  · have hadvance : (advance now line).isText = false := (isText_advance hnext).trans htext
    rw [holds_of_not_isText hnow] at h
    rw [holds_of_not_isText hadvance, htext]
    rcases change_of_not_isText htext line passage with ⟨hcontent, hwords, hquestions⟩
    simpa [Passage.text, hcontent, hwords, hquestions] using h

/-! ## Sections are unique -/

/-- While no line completes the passage, its text goes on. -/
theorem isText_run {now : Stage} {body : List Line} (hnow : now.isText = true)
    (h : handledIn .complete now body = []) : (run now body).isText = true := by
  induction body generalizing now with
  | nil => exact hnow
  | cons line rest ih =>
      rcases List.append_eq_nil_iff.mp h with ⟨hline, hrest⟩
      have hnext : now.next line now ≠ .complete := by
        intro hnext
        rw [if_pos hnext] at hline
        contradiction
      have htext : (advance now line).isText = true := by
        rw [isText_advance hnext]
        rcases isText_cases hnext with ⟨-, hstill⟩ | ⟨hmsg, -⟩ | ⟨hother, -⟩
        · exact hstill
        · rw [hmsg] at hnow
          contradiction
        · rw [hother] at hnow
          contradiction
      exact ih htext hrest

/-- A beginning of the section that is not empty ends inside the text. -/
theorem Begun.isText_run {before front rest : List Line} {k : Nat}
    (h : Begun before k (front ++ rest)) (hfront : front ≠ []) :
    (run .msg front).isText = true := by
  rcases h.first with ⟨line, others, hbody, hcontent⟩
  have hinside := h.inside
  cases front with
  | nil => contradiction
  | cons first front =>
      rw [List.cons_append, List.cons.injEq] at hbody
      rw [handledIn_append] at hinside
      have hopened : advance .msg first = .content := by
        rw [hbody.1]
        simp [advance, hcontent]
      have hnone := (List.append_eq_nil_iff.mp (List.append_eq_nil_iff.mp hinside).1).2
      rw [hopened] at hnone
      rw [run_cons, hopened]
      exact Passage1.isText_run rfl hnone

/-- As many lines complete a passage as there are sections before. -/
theorem completions_of_begun {before body : List Line} {k : Nat} (h : Begun before k body) :
    (handledIn .complete .waitStart (before ++ body)).length = k := by
  rw [handledIn_append, h.opened, h.inside, List.append_nil, h.count]

/-- The line behind a section completes one passage more. -/
theorem completions_of_last {before body : List Line} {last : Line} {k : Nat}
    (h : Begun before k body) (hlast : (run .msg body).next last (run .msg body) = .complete) :
    (handledIn .complete .waitStart (before ++ body ++ [last])).length = k + 1 := by
  rw [handledIn_append, List.length_append, completions_of_begun h, run_of_begun h]
  simp [handledIn, hlast]

/-- The section of a passage does not end behind another section of its number. -/
theorem length_le_of_sections {before body before' body' rest rest' : List Line} {last : Line}
    {k : Nat} (h : Begun before k body) (h' : Begun before' k body')
    (hlast : (run .msg body).next last (run .msg body) = .complete)
    (hlines : before ++ body ++ last :: rest = before' ++ body' ++ rest') :
    (before' ++ body').length ≤ (before ++ body).length := by
  by_contra hlonger
  have hlength : (before ++ body ++ [last]).length ≤ (before' ++ body').length := by
    rw [List.length_append, List.length_singleton]
    omega
  have hleft : before ++ body ++ [last] <+: before ++ body ++ last :: rest := ⟨rest, by simp⟩
  have hright : before' ++ body' <+: before ++ body ++ last :: rest := ⟨rest', hlines.symm⟩
  rcases List.prefix_of_prefix_length_le hleft hright hlength with ⟨more, hmore⟩
  have hcount := completions_of_begun h'
  rw [← hmore, handledIn_append, List.length_append, completions_of_last h hlast] at hcount
  omega

/-- Inside a section the machine is not in {lit}`MSG`, so no other section begins there. -/
theorem eq_nil_of_begun {before more body : List Line} {k : Nat}
    (h : Begun before k (more ++ body)) (hmsg : run .waitStart (before ++ more) = .msg) :
    more = [] := by
  by_contra hmore
  have htext := h.isText_run hmore
  rw [run_append, h.opened] at hmsg
  rw [hmsg] at htext
  contradiction

/-- A document has at most one section of a number. -/
theorem IsSection.unique {lines body body' : List Line} {k : Nat} (h : IsSection lines k body)
    (h' : IsSection lines k body') : body = body' := by
  rcases h with ⟨before, last, rest, hlines, hbegun, hlast⟩
  rcases h' with ⟨before', last', rest', hlines', hbegun', hlast'⟩
  rw [hlines] at hlines'
  have hle := length_le_of_sections hbegun hbegun' hlast hlines'
  have hge := length_le_of_sections hbegun' hbegun hlast' hlines'.symm
  have hdone := (List.append_inj hlines' (by omega)).1
  rcases List.append_eq_append_iff.mp hdone with ⟨more, hbefore, hbody⟩ | ⟨more, hbefore, hbody⟩
  · rw [hbody] at hbegun
    rw [hbody, eq_nil_of_begun hbegun (hbefore ▸ hbegun'.opened), List.nil_append]
  · rw [hbody] at hbegun'
    rw [hbody, eq_nil_of_begun hbegun' (hbefore ▸ hbegun.opened), List.nil_append]

/-! ## What a reading holds -/

/-- Each completing line files one passage. -/
theorem filed_length_read (reading : Reading) (lines : List Line) :
    (reading.read lines).filed.length =
      reading.filed.length + (handledIn .complete reading.stage lines).length := by
  induction lines generalizing reading with
  | nil => rfl
  | cons line rest ih =>
      change ((reading.feed line).read rest).filed.length = _
      rw [ih, stage_of_reading_feed, handledIn, List.length_append]
      by_cases hnext : reading.stage.next line reading.stage = .complete
      · rw [feed_of_complete hnext, if_pos hnext, List.length_append, Nat.add_assoc]
        rfl
      · rw [feed_of_ne_complete hnext, if_neg hnext, List.length_nil, Nat.zero_add]

/-- The answers are the texts of their lines. -/
theorem answer_read (reading : Reading) (lines : List Line) :
    (reading.read lines).answer =
      reading.answer ++ textOf (handledIn .answer reading.stage lines) := by
  induction lines generalizing reading with
  | nil => simp [Reading.read, handledIn, textOf]
  | cons line rest ih =>
      change ((reading.feed line).read rest).answer = _
      rw [ih, stage_of_reading_feed, handledIn, textOf_append, ← List.append_assoc]
      congr 1
      by_cases hnext : reading.stage.next line reading.stage = .complete
      · rw [feed_of_complete hnext]
        simp [hnext, textOf]
      · rw [feed_of_ne_complete hnext]
        by_cases hanswer : reading.stage.next line reading.stage = .answer <;>
          simp [hanswer, Stage.answered, textOf]

/-- What a reading has of the lines: the text of every section that is complete and of the
one being read. -/
structure Split (lines : List Line) (reading : Reading) : Prop where
  filed : ∀ (k : Nat) (passage : Passage), reading.filed[k]? = some passage →
    ∃ body, IsSection lines k body ∧ passage.text = textOf body
  draft : ∃ body, OpenAt lines reading.filed.length body reading.stage ∧
    reading.stage.Holds reading.draft (textOf body)

/-- A line that completes a passage. -/
theorem split_complete {lines : List Line} {line : Line} {reading : Reading}
    (h : Split lines reading) (hstage : reading.stage = run .waitStart lines)
    (hnext : reading.stage.next line reading.stage = .complete) :
    Split (lines ++ [line]) (reading.feed line) := by
  rw [feed_of_complete hnext]
  have hquestion : reading.stage = .question := by
    refine eq_question_of_complete ?_ hnext
    rw [hstage]
    exact run_ne_complete lines
  rcases h.draft with ⟨body, hopen, hholds⟩
  rw [hquestion] at hopen hholds hnext
  rcases hopen with ⟨before, rfl, hbegun⟩
  refine ⟨fun k passage hk => ?_, [], rfl, ?_⟩
  · rcases Nat.lt_trichotomy k reading.filed.length with hlt | rfl | hgt
    · rw [List.getElem?_append_left hlt] at hk
      rcases h.filed k passage hk with ⟨body', hsection, htext⟩
      exact ⟨body', hsection.append [line], htext⟩
    · rw [List.getElem?_concat_length] at hk
      cases hk
      refine ⟨body, ⟨before, line, [], rfl, hbegun, ?_⟩, hholds.1⟩
      rw [← run_of_begun hbegun, ← hstage, hquestion]
      exact hnext
    · have hlength : (reading.filed ++ [reading.draft]).length ≤ k := by
        rw [List.length_append, List.length_singleton]
        omega
      rw [List.getElem?_eq_none hlength] at hk
      contradiction
  · simp [Stage.Holds, Passage.text, textOf]

/-- The lines of the passage being read behind a line that completes none. -/
theorem openAt_concat {lines body : List Line} {line : Line} {now : Stage}
    (h : OpenAt lines (handledIn .complete .waitStart lines).length body now)
    (hnow : now = run .waitStart lines) (hnext : now.next line now ≠ .complete) :
    OpenAt (lines ++ [line]) (handledIn .complete .waitStart lines).length
      (body ++ if (now.next line now).isText then [line] else []) (advance now line) := by
  unfold OpenAt at *
  rw [isText_advance hnext]
  rcases isText_cases hnext with ⟨htext, hstill⟩ | ⟨hmsg, hcontent⟩ | ⟨htext, hstill⟩
  · rw [if_pos htext] at h
    rcases h with ⟨before, hlines, hbegun⟩
    rw [if_pos hstill, if_pos hstill]
    refine ⟨before, by rw [hlines, List.append_assoc], hbegun.concat ?_⟩
    rwa [← run_of_begun hbegun, ← hlines, ← hnow]
  · rw [hmsg] at h hcontent ⊢
    rw [hcontent]
    rw [show body = [] from h]
    refine ⟨lines, rfl, ?_, rfl, ⟨line, [], rfl, hcontent⟩, ?_⟩
    · rw [← hnow, hmsg]
    · simp [Stage.isText, handledIn, hcontent]
  · rw [htext] at h
    rw [hstill, show body = [] from h]
    rfl

/-- A line that completes none. -/
theorem split_other {lines : List Line} {line : Line} {reading : Reading}
    (h : Split lines reading) (hstage : reading.stage = run .waitStart lines)
    (hcount : reading.filed.length = (handledIn .complete .waitStart lines).length)
    (hnext : reading.stage.next line reading.stage ≠ .complete) :
    Split (lines ++ [line]) (reading.feed line) := by
  rcases h.draft with ⟨body, hopen, hholds⟩
  rw [hcount] at hopen
  have hopened := openAt_concat hopen hstage hnext
  have hheld := holds_change hholds hnext
  rw [← hcount] at hopened
  rw [feed_of_ne_complete hnext]
  refine ⟨fun k passage hk => ?_,
    body ++ if (reading.stage.next line reading.stage).isText then [line] else [], hopened, ?_⟩
  · rcases h.filed k passage hk with ⟨body', hsection, htext⟩
    exact ⟨body', hsection.append [line], htext⟩
  · have htext : textOf (if (reading.stage.next line reading.stage).isText then [line] else []) =
        if (reading.stage.next line reading.stage).isText then Line.text line else [] := by
      split <;> simp [textOf]
    rw [textOf_append, htext]
    exact hheld

/-- What a reading has filed is what the sections of the lines say. -/
theorem split_read (lines : List Line) : Split lines (({} : Reading).read lines) := by
  induction lines using List.reverseRecOn with
  | nil =>
      refine ⟨fun k passage hk => ?_, [], rfl, ?_⟩
      · simp [Reading.read] at hk
      · simp [Reading.read, Stage.Holds, Passage.text, textOf]
  | append_singleton lines line ih =>
      have hstage := stage_of_reading_read {} lines
      have hcount := filed_length_read {} lines
      rw [read_append]
      by_cases hnext : (({} : Reading).read lines).stage.next line
          (({} : Reading).read lines).stage = .complete
      · exact split_complete ih hstage hnext
      · exact split_other ih hstage (by simpa using hcount) hnext

/-! ## Runs -/

/-- A run of a fresh parser that meets no bad number files one passage for each line that
leads to {lit}`COMPLETE`; the fields of a passage have its section, line by line, and the
answer has the lines handled in {lit}`ANSWER`. -/
theorem read_splits {lines : List Line} (h : fresh.start.read lines ≠ .error .numberFormat) :
    ∃ parser, fresh.start.read lines = .ok parser ∧
      parser.passages.length = (handledIn .complete .waitStart lines).length ∧
      (∀ k < parser.passages.length, ∃ ref passage body,
        parser.passages[k]? = some (some ref) ∧ parser.objects[ref]? = some passage ∧
          IsSection lines k body ∧
          passage.content ++ passage.words ++ passage.questions = textOf body) ∧
      parser.answer = textOf (handledIn .answer .waitStart lines) := by
  rcases read_yields lines with ⟨front, tail, rfl, -, hhead, hread⟩
  have hhandled : ∀ stage ≠ .translate,
      handledIn stage .waitStart (front ++ tail) = handledIn stage .waitStart front := by
    intro stage hstage
    rw [handledIn_append, handledIn_of_translations hstage hhead, List.append_nil]
  rcases view_foldl_translate (g := Passage.text) (fun _ _ => rfl)
    (({} : Reading).read front).parser tail with ⟨hpassages, hanswer, -⟩
  have hlength : (({} : Reading).read front).parser.passages.length =
      (({} : Reading).read front).filed.length := by
    simp [Reading.parser]
  refine ⟨_, hread.resolve_left h, ?_, fun k hk => ?_, ?_⟩
  · rw [hpassages, hhandled .complete (by simp), hlength, filed_length_read]
    exact Nat.zero_add _
  · rw [hpassages, hlength] at hk
    have hfiled := List.getElem?_eq_getElem hk
    rcases (split_read front).filed k _ hfiled with ⟨body, hsection, htext⟩
    rcases exists_object (g := Passage.text) (fun _ _ => rfl) hfiled tail with
      ⟨hpassage, passage, hobject, hsame⟩
    exact ⟨k, passage, body, hpassage, hobject, hsection.append tail, hsame.trans htext⟩
  · rw [hanswer, hhandled .answer (by simp)]
    exact answer_read {} front

/-- A document with a list of words, a second passage, answers and a translation. -/
def splitDocument : List JString :=
  wholeDocument ++ [jstr "Passage 2", jstr "开始时间\n text", jstr "其他单词释义", jstr "郑重提示",
    jstr "完成时间", jstr "答案\nA", jstr "全文参考翻译", jstr "Passage 2"]

/-- Its passages and its answers. -/
theorem splitDocument_splits :
    ∃ parser, fresh.start.read (documentLines splitDocument) = .ok parser ∧
      parser.passages.length =
        (handledIn .complete .waitStart (documentLines splitDocument)).length ∧
      (∀ k < parser.passages.length, ∃ ref passage body,
        parser.passages[k]? = some (some ref) ∧ parser.objects[ref]? = some passage ∧
          IsSection (documentLines splitDocument) k body ∧
          passage.content ++ passage.words ++ passage.questions = textOf body) ∧
      parser.answer = textOf (handledIn .answer .waitStart (documentLines splitDocument)) :=
  read_splits (by decide +kernel)

end Passage1
end TestAio
