import TestAio.Main.Parse.Passages.Reading

/-!
# The passage being read

Five handlers read or write a field of {lit}`current` without a check, and the completion step
files it; only the handler of {lit}`TRANSLATE` checks that there is a passage.  It is also the
only one that takes the passage away, and its stage is never left.

Main results:

- Theorem {lit}`feed_safe`: a line keeps {lit}`current` where it is needed and never runs into a
  null reference.
- Theorem {lit}`read_never_misses`: no run of a fresh parser dereferences a missing passage.

Current gaps:

- None.
-/

namespace TestAio
namespace Passage1

open Passages Library

/-! ## Parsers with a passage -/

/-- The stages whose handler reads a field of {lit}`current` without a check. -/
def Stage.usesCurrent : Stage → Bool
  | .question | .word | .content | .msg | .waitStart => true
  | .completed | .complete | .translate | .waitTranslate | .answer | .waitPassage => false

/-- There is a passage being read. -/
def Parser.HasCurrent (parser : Parser) : Prop :=
  ∃ ref, parser.current = some ref ∧ ∃ passage, parser.objects[ref]? = some passage

/-- The parser that the handler of a line runs on. -/
def Parser.enter (parser : Parser) (line : Line) : Parser :=
  let parser := { parser with stage := parser.stage.next line parser.stage }
  if parser.stage = .complete then parser.file else parser

/-- A line enters its stage and is parsed there. -/
theorem feed_eq (parser : Parser) (line : Line) :
    parser.feed line = (parser.enter line).stage.parse (parser.enter line) line :=
  rfl

/-- References lead to objects, and only in {lit}`TRANSLATE` is there no passage. -/
structure Parser.Supplied (parser : Parser) : Prop where
  current : ∀ ref ∈ parser.current, ref < parser.objects.length
  missing : parser.current = none → parser.stage = .translate
  filed : ∀ entry ∈ parser.passages, ∃ ref, entry = some ref ∧ ref < parser.objects.length

/-- Safe steps: no null reference is read. -/
abbrev Safe (P : Parser → Prop) (result : Except JavaException Parser) : Prop :=
  Effects.Safe (· ≠ .nullPointer) P result

/-- Outside of the translations a supplied parser has a passage. -/
theorem Parser.Supplied.hasCurrent {parser : Parser} (h : parser.Supplied)
    (hstage : parser.stage ≠ .translate) : parser.HasCurrent := by
  cases hcurrent : parser.current with
  | none => exact absurd (h.missing hcurrent) hstage
  | some ref =>
      have href : ref < parser.objects.length := h.current ref hcurrent
      exact ⟨ref, hcurrent, parser.objects[ref], List.getElem?_eq_getElem href⟩

/-- What touches neither the frame nor {lit}`current` keeps the references. -/
theorem Parser.Supplied.of_sameFrame {parser parser' : Parser} (h : parser.Supplied)
    (hframe : parser.SameFrame parser') (hcurrent : parser'.current = parser.current) :
    parser'.Supplied := by
  constructor
  · rw [hcurrent, hframe.objects]
    exact h.current
  · rw [hcurrent, hframe.stage]
    exact h.missing
  · rw [hframe.passages, hframe.objects]
    exact h.filed

/-! ## Handlers -/

/-- What a handler in front of the translations may rely on. -/
structure Parser.Reads (parser : Parser) : Prop where
  supplied : parser.Supplied
  hasCurrent : parser.HasCurrent

/-- Changing the current passage is safe when there is one. -/
theorem modifyCurrent_safe {parser : Parser} (h : parser.Reads) (f : Passage → Passage) :
    Safe Parser.Reads (parser.modifyCurrent f) := by
  rcases h.hasCurrent with ⟨ref, hcurrent, passage, hpassage⟩
  have hmodify : parser.modifyCurrent f =
      .ok { parser with objects := parser.objects.modify ref f } :=
    modifyCurrent_eq_ok_iff.mpr ⟨ref, hcurrent, rfl⟩
  rw [hmodify]
  constructor
  · rcases sameFrame_of_modifyCurrent hmodify with ⟨hframe, hsame⟩
    exact h.supplied.of_sameFrame hframe hsame
  · refine ⟨ref, hcurrent, f passage, ?_⟩
    rw [List.getElem?_modify_eq, hpassage]
    rfl

/-- Reading a number meets no null pointer. -/
theorem parseInt_safe (digits : JString) :
    Effects.Safe (· ≠ .nullPointer) (fun _ => True) (parseInt digits) := by
  rcases parseInt_eq digits with hparse | hparse
  · rw [hparse]
    simp [Effects.Safe]
  · rw [hparse]
    trivial

/-- Setting a field is safe when there is a passage. -/
theorem assign_safe {parser : Parser} (h : parser.Reads) (digits : Option JString)
    (set : Nat → Passage → Passage) : Safe Parser.Reads (parser.assign digits set) := by
  cases digits with
  | none => exact h
  | some digits => exact (parseInt_safe digits).bind fun n _ => modifyCurrent_safe h (set n)

/-- The search for a number among filed passages finds no null entry. -/
theorem findIndex_safe (objects : List Passage) (index : Nat) {entries : List (Option Ref)}
    (hentries : ∀ entry ∈ entries, ∃ ref, entry = some ref ∧ ref < objects.length) :
    Effects.Safe (· ≠ .nullPointer) (fun found => ∀ ref ∈ found, ref < objects.length)
      (findIndex objects index entries) := by
  induction entries with
  | nil => simp [findIndex, Effects.Safe]
  | cons entry entries ih =>
      rcases hentries entry List.mem_cons_self with ⟨ref, rfl, href⟩
      rw [findIndex]
      split
      · intro found hfound
        cases hfound
        exact href
      · exact ih fun entry hentry => hentries entry (List.mem_cons_of_mem _ hentry)

/-- In {lit}`TRANSLATE` the passage may be taken away. -/
theorem locate_safe {parser : Parser} (h : parser.Supplied) (hstage : parser.stage = .translate)
    (line : Line) :
    Safe (fun parser' => parser'.Supplied ∧ parser'.stage = .translate) (parser.locate line) := by
  unfold Parser.locate
  cases findOneDigit passageLead line.trim with
  | none => exact ⟨h, hstage⟩
  | some digit =>
      refine (parseInt_safe digit).bind fun index _ => ?_
      refine (findIndex_safe parser.objects index h.filed).bind fun found hfound => ?_
      exact ⟨⟨hfound, fun _ => hstage, h.filed⟩, hstage⟩

/-- The handler of {lit}`TRANSLATE` checks that there is a passage. -/
theorem translate_safe {parser : Parser} (h : parser.Supplied) (hstage : parser.stage = .translate)
    (line : Line) : Safe Parser.Supplied (Stage.translate.parse parser line) := by
  apply (locate_safe h hstage line).bind
  rintro found ⟨hfound, -⟩
  cases hcurrent : found.current with
  | none =>
      rw [if_pos (by simp)]
      exact hfound
  | some ref =>
      have href : ref < found.objects.length := hfound.current ref hcurrent
      have hreads : found.Reads :=
        ⟨hfound, ref, hcurrent, found.objects[ref], List.getElem?_eq_getElem href⟩
      rw [if_neg (by simp)]
      exact (modifyCurrent_safe hreads _).mono fun _ hafter => hafter.supplied

/-- Every handler is safe in the stage it belongs to. -/
theorem parse_safe {parser : Parser} (h : parser.Supplied) (line : Line) :
    Safe Parser.Supplied (parser.stage.parse parser line) := by
  cases hstage : parser.stage with
  | completed | complete | waitTranslate | waitPassage => exact h
  | answer => exact ⟨h.current, h.missing, h.filed⟩
  | translate => exact translate_safe h hstage line
  | question | word | content =>
      have hreads : parser.Reads := ⟨h, h.hasCurrent (by simp [hstage])⟩
      exact (modifyCurrent_safe hreads _).mono fun _ hafter => hafter.supplied
  | msg =>
      have hreads : parser.Reads := ⟨h, h.hasCurrent (by simp [hstage])⟩
      apply (assign_safe hreads _ _).bind
      intro first hfirst
      apply (assign_safe hfirst _ _).bind
      intro second hsecond
      exact (assign_safe hsecond _ _).mono fun _ hafter => hafter.supplied
  | waitStart =>
      have hreads : parser.Reads := ⟨h, h.hasCurrent (by simp [hstage])⟩
      unfold Stage.parse
      cases findNumber difficultyLead line.trim with
      | none => exact h
      | some digits =>
          refine (parseInt_safe digits).bind fun n _ => ?_
          refine (modifyCurrent_safe hreads _).bind fun after hafter => ?_
          rcases hafter.hasCurrent with ⟨ref, hcurrent, -⟩
          have hpresent : after.current ≠ none := by simp [hcurrent]
          refine ⟨hafter.supplied.current, fun hnone => ?_, hafter.supplied.filed⟩
          exact absurd hnone hpresent

/-! ## Runs -/

/-- Behind {lit}`new Passage()` there is a passage. -/
theorem renew_supplied {parser : Parser}
    (hfiled : ∀ entry ∈ parser.passages, ∃ ref, entry = some ref ∧ ref < parser.objects.length) :
    parser.renew.Supplied := by
  unfold Parser.renew
  constructor
  · intro ref href
    cases href
    simp
  · intro hnone
    cases hnone
  · intro entry hentry
    rcases hfiled entry hentry with ⟨ref, rfl, href⟩
    have hgrown : parser.objects.length ≤ (parser.objects ++ [({} : Passage)]).length := by
      rw [List.length_append]
      exact Nat.le_add_right _ _
    exact ⟨ref, rfl, href.trans_le hgrown⟩

/-- The parser starts supplied. -/
theorem start_supplied : fresh.start.Supplied := by
  apply renew_supplied
  intro entry hentry
  cases hentry

/-- The completion step files a passage that is there. -/
theorem file_supplied {parser : Parser} (h : parser.Supplied) (hcurrent : parser.HasCurrent) :
    parser.file.Supplied := by
  have hfiled : ∀ entry ∈ parser.passages ++ [parser.current],
      ∃ ref, entry = some ref ∧ ref < parser.objects.length := by
    intro entry hentry
    rcases List.mem_append.mp hentry with hentry | hentry
    · exact h.filed entry hentry
    · rcases hcurrent with ⟨ref, href, -⟩
      exact ⟨ref, (List.mem_singleton.mp hentry).trans href, h.current ref href⟩
  have hrenew := @renew_supplied
    { parser with passages := parser.passages ++ [parser.current] } hfiled
  constructor
  · exact hrenew.current
  · intro hnone
    cases hnone
  · exact hrenew.filed

/-- {lit}`TRANSLATE` is never left. -/
theorem ne_translate_of_next {now : Stage} {line : Line} (h : now.next line now ≠ .translate) :
    now ≠ .translate := by
  rintro rfl
  exact h rfl

/-- The handler of a line runs where its stage has what it needs. -/
theorem enter_supplied {parser : Parser} (h : parser.Supplied) (line : Line) :
    (parser.enter line).Supplied := by
  have hmoved : Parser.Supplied { parser with stage := parser.stage.next line parser.stage } := by
    refine ⟨h.current, fun hnone => ?_, h.filed⟩
    have hstage : parser.stage = .translate := h.missing hnone
    simp [hstage, Stage.next]
  unfold Parser.enter
  dsimp only
  split
  · rename_i hcomplete
    exact file_supplied hmoved (hmoved.hasCurrent (by simp [hcomplete]))
  · exact hmoved

/-- A line keeps {lit}`current` where it is needed and never runs into a null reference. -/
theorem feed_safe {parser : Parser} (h : parser.Supplied) (line : Line) :
    Safe Parser.Supplied (parser.feed line) := by
  rw [feed_eq]
  exact parse_safe (enter_supplied h line) line

/-- Reading lines follows no null pointer. -/
theorem read_safe {parser : Parser} (h : parser.Supplied) (lines : List Line) :
    Safe Parser.Supplied (parser.read lines) :=
  Effects.Safe.foldlM (fun _ line hsupplied => feed_safe hsupplied line) lines h

/-- A run that has reached {lit}`TRANSLATE` stays there. -/
theorem stage_of_read_translate {parser parser' : Parser} {lines : List Line}
    (hstage : parser.stage = .translate) (h : parser.read lines = .ok parser') :
    parser'.stage = .translate := by
  have hstep : ∀ (_ : List Line) (line : Line) (before after : Parser),
      before.stage = .translate → before.feed line = .ok after → after.stage = .translate := by
    intro _ line before after hbefore hfeed
    rw [stage_of_feed hfeed, hbefore]
    rfl
  exact @Effects.foldlM_history _ _ _ Parser.feed (fun _ reached => reached.stage = .translate)
    hstep [] lines parser parser' hstage h

/-- The translations do not use the current passage as the other stages do. -/
theorem usesCurrent_ne_translate {stage : Stage} (h : stage.usesCurrent = true) :
    stage ≠ .translate := by
  rintro rfl
  cases h

/-- No run of a fresh parser dereferences a missing passage: {lit}`current` is null only in
{lit}`TRANSLATE`, which is never left, and where a handler or the completion step needs the
passage, it is there. -/
theorem read_never_misses (lines : List Line) :
    fresh.start.read lines ≠ .error .nullPointer ∧
      ∀ parser, fresh.start.read lines = .ok parser →
        (parser.current = none → parser.stage = .translate) ∧
        (∀ rest parser', parser.stage = .translate → parser.read rest = .ok parser' →
          parser'.stage = .translate) ∧
        ∀ line,
          (parser.stage.next line parser.stage = .complete → parser.HasCurrent) ∧
          ((parser.enter line).current = none → (parser.enter line).stage = .translate) ∧
          ((parser.enter line).stage.usesCurrent = true → (parser.enter line).HasCurrent) ∧
          parser.feed line ≠ .error .nullPointer := by
  have hsafe : Safe Parser.Supplied (fresh.start.read lines) := read_safe start_supplied lines
  refine ⟨hsafe.ne_error (by simp), fun parser hread => ?_⟩
  have hsupplied : parser.Supplied := hsafe.holds hread
  refine ⟨hsupplied.missing, fun rest parser' => stage_of_read_translate, fun line => ?_⟩
  have henter : (parser.enter line).Supplied := enter_supplied hsupplied line
  refine ⟨fun hcomplete => ?_, henter.missing, fun huses => ?_, ?_⟩
  · have hnext : parser.stage.next line parser.stage ≠ .translate := by simp [hcomplete]
    exact hsupplied.hasCurrent (ne_translate_of_next hnext)
  · exact henter.hasCurrent (usesCurrent_ne_translate huses)
  · exact (feed_safe hsupplied line).ne_error (by simp)

end Passage1
end TestAio
