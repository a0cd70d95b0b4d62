import TestAio.Library.Triggers
import TestAio.Main.Parse.Passages.Passage1

/-!
# Documents that end inside a passage

A passage that is opened and never completed is lost: {lit}`parse` returns true as soon as
one passage is complete, and the caller then deletes the document.  This module
says which documents end inside a passage, in terms of their lines.

Main results:

- Theorem {lit}`isOpen_run_iff`: the machine stops inside a passage exactly on the truncated
  documents.
- Theorem {lit}`counted_of_read`: the passages opened are those filed and the open one.
- Theorem {lit}`accepted_keeps_passages_iff`: an accepted document keeps all its passages
  exactly when it is not truncated.

Current gaps:

- None.
-/

namespace TestAio
namespace Passage1

open Passages Library Library.Triggers

/-! ## Inside a passage -/

/-- The stages in which a passage is open. -/
def Stage.isOpen : Stage → Bool
  | .msg | .content | .word | .question => true
  | _ => false

@[simp]
theorem isOpen_msg : Stage.msg.isOpen = true :=
  rfl

@[simp]
theorem isOpen_completed : Stage.completed.isOpen = false :=
  rfl

@[simp]
theorem isOpen_waitStart : Stage.waitStart.isOpen = false :=
  rfl

/-- The stage behind some lines. -/
def run (now : Stage) (lines : List Line) : Stage :=
  lines.foldl advance now

/-- A reminder that does not start the list of further words. -/
def plainReminder (line : Line) : Bool :=
  reminds line && !glossary line

/-- The lines behind the opening line contain what completes a passage. -/
def Completes (body : List Line) : Prop :=
  Occur [begins, plainReminder, finishes] body ∨
    Occur [begins, glossary, reminds, finishes] body

/-- The lines contain what completes a passage that has got to a stage. -/
def Pending : Stage → List Line → Prop
  | .msg, body => Completes body
  | .content, body =>
      Occur [plainReminder, finishes] body ∨ Occur [glossary, reminds, finishes] body
  | .word, body => Occur [reminds, finishes] body
  | .question, body => Occur [finishes] body
  | _, _ => True

/-- An open stage waits for something. -/
theorem not_pending_nil {now : Stage} (hopen : now.isOpen = true) : ¬ Pending now [] := by
  cases now <;> simp [Stage.isOpen, Pending, Completes] at *

/-- An open passage stays open or is completed. -/
theorem advance_of_isOpen {now : Stage} (hopen : now.isOpen = true) (line : Line) :
    (advance now line).isOpen = true ∨ advance now line = .completed := by
  cases now <;> simp only [Stage.isOpen, Bool.false_eq_true] at hopen <;>
    simp only [advance, Stage.next] <;> grind [Stage.isOpen]

/-- Reading a line leaves what the later stages wait for. -/
theorem pending_cons {now : Stage} (hopen : now.isOpen = true) (line : Line)
    (rest : List Line) :
    Pending now (line :: rest) ↔ Pending (advance now line) rest := by
  cases now with
  | msg =>
      by_cases hbegins : begins line = true
      · simp [Pending, Completes, advance, Stage.next, occur_cons_iff, hbegins]
      · simp [Pending, Completes, advance, Stage.next, occur_cons_iff, hbegins]
  | content =>
      by_cases hglossary : glossary line = true
      · have hplain : plainReminder line = false := by simp [plainReminder, hglossary]
        simp only [Pending, advance, Stage.next, occur_cons_iff, hglossary, hplain, if_true,
          Bool.false_eq_true, if_false, or_iff_right_iff_imp]
        exact fun h => h.imp_head fun x hx => (Bool.and_eq_true_iff.mp hx).1
      · rw [Bool.not_eq_true] at hglossary
        by_cases hreminds : reminds line = true
        · have hplain : plainReminder line = true := by simp [plainReminder, hglossary, hreminds]
          simp only [Pending, advance, Stage.next, occur_cons_iff, hglossary, hreminds, hplain,
            if_true, Bool.false_eq_true, if_false, or_iff_left_iff_imp]
          exact fun h => h.weaken.weaken
        · have hplain : plainReminder line = false := by simp [plainReminder, hreminds]
          simp [Pending, advance, Stage.next, occur_cons_iff, hglossary, hreminds, hplain]
  | word =>
      by_cases hreminds : reminds line = true <;>
        simp [Pending, advance, Stage.next, occur_cons_iff, hreminds]
  | question =>
      by_cases hfinishes : finishes line = true <;>
        simp [Pending, advance, Stage.next, occur_cons_iff, hfinishes]
  | completed | complete | translate | waitTranslate | answer | waitPassage | waitStart =>
      contradiction

/-- While a passage is not complete, what follows is read from the stage it got to. -/
theorem pending_append {now : Stage} (hopen : now.isOpen = true) {body : List Line}
    (hbody : ¬ Pending now body) (rest : List Line) :
    (run now body).isOpen = true ∧
      (Pending now (body ++ rest) ↔ Pending (run now body) rest) := by
  induction body generalizing now with
  | nil => exact ⟨hopen, Iff.rfl⟩
  | cons line body ih =>
      rw [pending_cons hopen] at hbody
      rw [List.cons_append, pending_cons hopen]
      rcases advance_of_isOpen hopen line with hstill | hcompleted
      · exact ih hstill hbody
      · rw [hcompleted] at hbody
        exact absurd trivial hbody

/-! ## Documents -/

/-- Lines between two passages, behind {lit}`k` complete ones: none opens a passage, and behind
a passage none starts the answers or the translations. -/
def Gap (k : Nat) (gap : List Line) : Prop :=
  ∀ line ∈ gap, opens line = false ∧ (0 < k → answers line = false ∧ translates line = false)

/-- Lines up to the end of the {lit}`k`-th passage. -/
inductive Whole : Nat → List Line → Prop
  | rated {lead : List Line} {line : Line} (hlead : ∀ line ∈ lead, rates line = false)
      (hline : rates line = true) : Whole 0 (lead ++ [line])
  | passage {k : Nat} {done gap body : List Line} {line last : Line} (hdone : Whole k done)
      (hgap : Gap k gap) (hline : opens line = true) (hbody : ¬ Completes body)
      (hlast : Completes (body ++ [last])) :
      Whole (k + 1) (done ++ gap ++ line :: (body ++ [last]))

/-- The lines end inside a passage that is opened and not completed. -/
def Truncated (lines : List Line) : Prop :=
  ∃ k done gap line rest, Whole k done ∧ Gap k gap ∧ opens line = true ∧
    ¬ Completes rest ∧ lines = done ++ gap ++ line :: rest

/-- No lines at all are a gap. -/
theorem gap_nil (k : Nat) : Gap k [] := by
  simp [Gap]

/-- The stage in which the machine waits for the next passage. -/
def resting (k : Nat) : Stage :=
  if k = 0 then .waitPassage else .completed

/-- The stages of two stretches of lines follow each other. -/
theorem run_append (now : Stage) (xs ys : List Line) :
    run now (xs ++ ys) = run (run now xs) ys :=
  List.foldl_append

/-- The stages go on behind the first line. -/
theorem run_cons (now : Stage) (line : Line) (rest : List Line) :
    run now (line :: rest) = run (advance now line) rest :=
  rfl

/-- A heading opens a passage. -/
theorem advance_resting_of_opens {k : Nat} {line : Line} (h : opens line = true) :
    advance (resting k) line = .msg := by
  unfold resting
  split
  · simp [advance, Stage.next, h]
  · simp [advance, Stage.next, parseFirstStage, h, not_answers_of_opens h,
      not_translates_of_opens h]

/-- A gap leaves the stage where it rests. -/
theorem run_gap {k : Nat} {gap : List Line} (h : Gap k gap) :
    run (resting k) gap = resting k := by
  induction gap with
  | nil => rfl
  | cons line gap ih =>
      rcases h line (by simp) with ⟨hopens, hcloses⟩
      have hstay : advance (resting k) line = resting k := by
        unfold resting
        split
        · simp [advance, Stage.next, hopens]
        · rcases hcloses (by omega) with ⟨hanswers, htranslates⟩
          simp [advance, Stage.next, parseFirstStage, hopens, hanswers, htranslates]
      rw [run_cons, hstay]
      exact ih fun l hl => h l (by simp [hl])

/-- Before the line of the difficulty the machine waits. -/
theorem run_lead {lead : List Line} (h : ∀ line ∈ lead, rates line = false) :
    run .waitStart lead = .waitStart := by
  induction lead with
  | nil => rfl
  | cons line lead ih =>
      have hstay : advance .waitStart line = .waitStart := by
        simp [advance, Stage.next, h line (by simp)]
      rw [run_cons, hstay]
      exact ih fun l hl => h l (by simp [hl])

/-- Reading an opened passage that is not completed. -/
theorem isOpen_of_not_completes {body : List Line} (h : ¬ Completes body) :
    (run .msg body).isOpen = true :=
  (pending_append isOpen_msg h []).1

/-- The next line completes the passage exactly when it takes the machine out of it. -/
theorem completes_concat_iff {body : List Line} (h : ¬ Completes body) (last : Line) :
    Completes (body ++ [last]) ↔ run .msg (body ++ [last]) = .completed := by
  rcases pending_append isOpen_msg h [last] with ⟨hopen, hiff⟩
  refine hiff.trans ?_
  rw [pending_cons hopen, run_append, run_cons]
  rcases advance_of_isOpen hopen last with hstill | hcompleted
  · refine iff_of_false (not_pending_nil hstill) fun hcompleted => ?_
    rw [show advance (run .msg body) last = .completed from hcompleted] at hstill
    contradiction
  · rw [hcompleted]
    exact iff_of_true trivial rfl

/-- Whole passages come to rest. -/
theorem run_whole {k : Nat} {done : List Line} (h : Whole k done) :
    run .waitStart done = resting k := by
  induction h with
  | rated hlead hline =>
      rw [run_append, run_lead hlead]
      simp [run, advance, Stage.next, hline, resting]
  | passage hdone hgap hline hbody hlast ih =>
      rw [run_append, run_append, ih, run_gap hgap, run_cons, advance_resting_of_opens hline,
        (completes_concat_iff hbody _).mp hlast]
      rfl

/-- Where the machine is in the lines read so far. -/
inductive Position (lines : List Line) : Prop
  | unrated (h : ∀ line ∈ lines, rates line = false)
  | between {k : Nat} {done gap : List Line} (hdone : Whole k done) (hgap : Gap k gap)
      (hlines : lines = done ++ gap)
  | inside (h : Truncated lines)
  | behind (h : run .waitStart lines = .answer ∨ run .waitStart lines = .waitTranslate ∨
      run .waitStart lines = .translate)

/-- A truncated passage is read from its heading on. -/
theorem run_of_truncated {k : Nat} {done gap : List Line} {line : Line} (hdone : Whole k done)
    (hgap : Gap k gap) (hline : opens line = true) (rest : List Line) :
    run .waitStart (done ++ gap ++ line :: rest) = run .msg rest := by
  rw [run_append, run_append, run_whole hdone, run_gap hgap, run_cons,
    advance_resting_of_opens hline]

/-- Behind the last passage the machine never gets back to one. -/
theorem advance_behind {now : Stage}
    (h : now = .answer ∨ now = .waitTranslate ∨ now = .translate) (line : Line) :
    advance now line = .answer ∨ advance now line = .waitTranslate ∨
      advance now line = .translate := by
  rcases h with rfl | rfl | rfl <;> simp only [advance, Stage.next] <;> grind

/-- The lines of a document end in one of the positions. -/
theorem position (lines : List Line) : Position lines := by
  induction lines using List.reverseRecOn with
  | nil => exact .unrated (by simp)
  | append_singleton lines last ih =>
      cases ih with
      | unrated h =>
          by_cases hlast : rates last = true
          · exact .between (.rated h hlast) (gap_nil 0) (by simp)
          · refine .unrated fun line hline => ?_
            rcases List.mem_append.mp hline with hline | hline
            · exact h line hline
            · rw [List.mem_singleton.mp hline]
              simpa using hlast
      | @between k done gap hdone hgap hlines =>
          subst hlines
          by_cases hopens : opens last = true
          · refine .inside ⟨k, done, gap, last, [], hdone, hgap, hopens, ?_, by simp⟩
            simp [Completes]
          · by_cases hcloses : 0 < k → answers last = false ∧ translates last = false
            · have hlonger : Gap k (gap ++ [last]) := by
                intro line hline
                rcases List.mem_append.mp hline with hline | hline
                · exact hgap line hline
                · rw [List.mem_singleton.mp hline]
                  exact ⟨by simpa using hopens, hcloses⟩
              exact .between hdone hlonger (by simp)
            · refine .behind ?_
              rw [run_append, run_append, run_whole hdone, run_gap hgap]
              simp only [Classical.not_imp, not_and, Bool.not_eq_false] at hcloses
              have hk : k ≠ 0 := by omega
              simp only [run, List.foldl_cons, List.foldl_nil, resting, hk, if_false, advance,
                Stage.next, parseFirstStage]
              grind
      | inside h =>
          rcases h with ⟨k, done, gap, line, rest, hdone, hgap, hline, hrest, rfl⟩
          rw [List.append_assoc, List.cons_append]
          by_cases hlast : Completes (rest ++ [last])
          · exact .between (.passage hdone hgap hline hrest hlast) (gap_nil _) (by simp)
          · exact .inside ⟨k, done, gap, line, rest ++ [last], hdone, hgap, hline, hlast, rfl⟩
      | behind h =>
          refine .behind ?_
          rw [run_append]
          exact advance_behind h last

/-- The machine stops inside a passage exactly on the truncated documents. -/
theorem isOpen_run_iff (lines : List Line) :
    (run .waitStart lines).isOpen = true ↔ Truncated lines := by
  constructor
  · intro hopen
    cases position lines with
    | unrated h =>
        rw [run_lead h] at hopen
        contradiction
    | @between k done gap hdone hgap hlines =>
        rw [hlines, run_append, run_whole hdone, run_gap hgap] at hopen
        unfold resting at hopen
        split at hopen <;> contradiction
    | inside h => exact h
    | behind h =>
        rcases h with h | h | h <;> rw [h] at hopen <;> contradiction
  · rintro ⟨k, done, gap, line, rest, hdone, hgap, hline, hrest, rfl⟩
    rw [run_of_truncated hdone hgap hline]
    exact isOpen_of_not_completes hrest

/-! ## Passages opened and passages filed -/

/-- How often the machine enters {lit}`MSG`. -/
def msgEntries (now : Stage) : List Line → Nat
  | [] => 0
  | line :: rest =>
      (if now ≠ .msg ∧ advance now line = .msg then 1 else 0) +
        msgEntries (advance now line) rest

/-- The entries of two stretches of lines add up. -/
theorem msgEntries_append (now : Stage) (xs ys : List Line) :
    msgEntries now (xs ++ ys) = msgEntries now xs + msgEntries (run now xs) ys := by
  induction xs generalizing now with
  | nil => simp [msgEntries, run]
  | cons x xs ih => simp only [List.cons_append, msgEntries, ih, run_cons, Nat.add_assoc]

/-- A line completes the open passage, opens one, or does neither. -/
theorem advance_cases (now : Stage) (line : Line) :
    (now.next line now = .complete ∧ now.isOpen = true ∧ advance now line = .completed) ∨
      (now.next line now ≠ .complete ∧ now.isOpen = false ∧ advance now line = .msg) ∨
        (now.next line now ≠ .complete ∧ (advance now line).isOpen = now.isOpen ∧
          ¬ (now ≠ .msg ∧ advance now line = .msg)) := by
  cases now <;> simp only [advance, Stage.next, parseFirstStage] <;> grind [Stage.isOpen]

/-- A parser behind some lines: the passages opened are those filed and the open one. -/
structure Counted (done : List Line) (parser : Parser) : Prop where
  stage : parser.stage = run .waitStart done
  count : msgEntries .waitStart done =
    parser.passages.length + if parser.stage.isOpen then 1 else 0

/-- Each line counts its entry. -/
theorem counted_feed (done : List Line) (line : Line) (parser parser' : Parser)
    (h : Counted done parser) (hfeed : parser.feed line = .ok parser') :
    Counted (done ++ [line]) parser' := by
  have hstage := stage_of_feed hfeed
  have hpassages := passages_of_feed hfeed
  constructor
  · rw [hstage, run_append, ← h.stage]
    rfl
  · rw [msgEntries_append, h.count, ← h.stage, hstage, hpassages]
    simp only [msgEntries]
    rcases advance_cases parser.stage line with
      ⟨hnext, hopen, hadvance⟩ | ⟨hnext, hopen, hadvance⟩ | ⟨hnext, hopen, hadvance⟩
    · simp [hnext, hopen, hadvance]
    · have hmsg : parser.stage ≠ .msg := by
        intro hmsg
        rw [hmsg] at hopen
        contradiction
      simp [hnext, hopen, hadvance, hmsg]
    · rw [if_neg hadvance, if_neg hnext, hopen]
      simp

/-- Passages opened, filed and still open, behind the run of a fresh parser. -/
theorem counted_of_read {lines : List Line} {parser : Parser}
    (h : fresh.start.read lines = .ok parser) : Counted lines parser := by
  have hstart : Counted [] fresh.start := ⟨rfl, rfl⟩
  exact Effects.foldlM_history counted_feed hstart h

/-- A document that is parsed has been read. -/
theorem read_of_parse {document : List JString} {parser : Parser}
    (h : fresh.parse document = .ok (true, parser)) :
    fresh.start.read (documentLines document) = .ok parser := by
  rcases Effects.bind_eq_ok_iff.mp h with ⟨parser', hread, hreturn⟩
  split at hreturn
  · contradiction
  · cases hreturn
    exact hread

/-- For an accepted document, no passage is open at the end and every passage that was
opened is filed exactly when the document does not end inside a passage. -/
theorem accepted_keeps_passages_iff {document : List JString} {parser : Parser}
    (h : fresh.parse document = .ok (true, parser)) :
    (parser.stage.isOpen = false ∧
        parser.passages.length = msgEntries .waitStart (documentLines document)) ↔
      ¬ Truncated (documentLines document) := by
  have hcounted := counted_of_read (read_of_parse h)
  rw [← isOpen_run_iff, ← hcounted.stage, hcounted.count]
  cases parser.stage.isOpen <;> simp

/-- One complete passage. -/
def wholeDocument : List JString :=
  [jstr "本次文章词汇难度值：7", jstr "Passage 1\n编号：12", jstr "开始时间", jstr "郑重提示",
    jstr "完成时间"]

/-- The parser behind it. -/
def wholeParser : Parser where
  objects := [
    { index := 1
      id := 12
      difficulty := 7
      content := jstr "开始时间\n"
      questions := jstr "郑重提示\n" },
    {}]
  passages := [some 0]
  current := some 1
  stage := .completed

/-- It is accepted and not truncated. -/
theorem wholeDocument_kept :
    (wholeParser.stage.isOpen = false ∧
        wholeParser.passages.length = msgEntries .waitStart (documentLines wholeDocument)) ↔
      ¬ Truncated (documentLines wholeDocument) :=
  accepted_keeps_passages_iff (by decide +kernel)

/-- A second passage of which only the heading is there is dropped, and the document is
accepted. -/
theorem truncated_accepted :
    ∃ parser, fresh.parse (wholeDocument ++ [jstr "Passage 2"]) = .ok (true, parser) ∧
      parser.stage = .msg ∧ parser.passages.length = 1 ∧
      msgEntries .waitStart (documentLines (wholeDocument ++ [jstr "Passage 2"])) = 2 :=
  ⟨{ wholeParser with
      objects := wholeParser.objects.modify 1 fun passage => { passage with index := 2 }
      stage := .msg }, by decide +kernel⟩

end Passage1
end TestAio
