import TestAio.Library.Headings
import TestAio.Main.Parse.Passages.Reading

/-!
# Where a translation is filed

The number of a passage is read twice: from the lines in front of its text, where
the last one that has a number counts, and from the headings of the translations.
The pattern of both reads one digit, while the patterns for the word count and the
id read all digits, so the passages 1 and 10 are one to the parser.

Main results:

- Theorem {lit}`index_read`: the index of a passage that is filed is the digit read last from
  its lines.
- Theorem {lit}`translate_foldl`: a passage gets the lines under the headings that lead to it.
- Theorem {lit}`translations_filed_iff`: every translation is filed under the passage of its
  number exactly when the digits of the headings lead where their numbers do.
- Theorem {lit}`leadsHome_of_one_digit`: which they do while all numbers have one digit.

Current gaps:

- None.
-/

namespace TestAio
namespace Passage1

open Passages Library Library.Headings

/-! ## Numbers in a document -/

/-- The number {lit}`k` of a line that starts with {lit}`Passage k`. -/
def heading (line : Line) : Option Nat :=
  if startsWith line.trim passageLead then
    let digits := (line.trim.drop passageLead.length).takeWhile isDigit
    let number := digitsValue digits
    if 0 < number ∧ decimal number = digits then some number else none
  else
    none

/-- The lines handled in {lit}`MSG`, for each passage that is completed; {lit}`block` has those of
the passage being read. -/
def msgBlocks (now : Stage) (block : List Line) : List Line → List (List Line)
  | [] => []
  | line :: rest =>
      if now.next line now = .complete then
        block :: msgBlocks .completed [] rest
      else if now.next line now = .msg then
        msgBlocks .msg (block ++ [line]) rest
      else
        msgBlocks (advance now line) block rest

/-- The lines that announce the passages of a document. -/
def passageBlocks (document : List JString) : List (List Line) :=
  msgBlocks .waitStart [] (documentLines document)

/-- The number in the line that opens a passage. -/
def announced (block : List Line) : Option Nat :=
  block.head?.bind heading

/-- The digit read last from the lines that announce a passage. -/
def readIndex (block : List Line) : Nat :=
  ((block.filterMap fun line => findOneDigit passageLead line.trim).getLast?).elim 0 digitsValue

/-- The first digit of a number. -/
def firstDigit (number : Nat) : Nat :=
  digitsValue ((decimal number).take 1)

/-- The lines of the translations, from the first one that starts with {lit}`Passage`. -/
def translationLines (document : List JString) : List Line :=
  handledIn .translate .waitStart (documentLines document)

/-- Every passage is announced by its number, the numbers are distinct, and in the
translations a passage is named in headings only. -/
structure WellHeaded (document : List JString) : Prop where
  announced : ∀ block ∈ passageBlocks document, (announced block).isSome
  distinct : ((passageBlocks document).map Passage1.announced).Nodup
  headings : ∀ line ∈ translationLines document,
    (findOneDigit passageLead line.trim).isSome → (heading line).isSome

/-- The translation of a passage is the part of the translations under its number. -/
def TranslationsFiled (document : List JString) (parser : Parser) : Prop :=
  ∀ (k : Nat) (block : List Line) (number : Nat) (passage : Passage),
    (passageBlocks document)[k]? = some block → announced block = some number →
      parser.filed[k]? = some passage →
        passage.translate = textOf (under heading number none (translationLines document))

/-- The first digit of a heading leads to the passage that its number leads to. -/
def LeadsHome (document : List JString) : Prop :=
  ∀ line ∈ translationLines document, ∀ number, heading line = some number →
    (passageBlocks document).findIdx? (fun block => readIndex block == firstDigit number) =
      (passageBlocks document).findIdx? fun block => announced block == some number

/-! ## Reading the numbers -/

/-- What a heading looks like. -/
theorem exists_of_heading {line : Line} {number : Nat} (h : heading line = some number) :
    0 < number ∧ ∃ behind, line.trim = passageLead ++ behind ∧
      decimal number = behind.takeWhile isDigit := by
  unfold heading at h
  split at h
  · rename_i hstarts
    rcases List.isPrefixOf_iff_prefix.mp hstarts with ⟨behind, hbehind⟩
    rw [← hbehind, List.drop_left] at h
    dsimp only at h
    split at h
    · rename_i hnumber
      cases h
      exact ⟨hnumber.1, behind, hbehind.symm, hnumber.2⟩
    · contradiction
  · contradiction

/-- The digit that a heading leads by is the first one of its number. -/
theorem findOneDigit_of_heading {line : Line} {number : Nat} (h : heading line = some number) :
    findOneDigit passageLead line.trim = some ((decimal number).take 1) := by
  rcases exists_of_heading h with ⟨hpos, behind, htrim, hdigits⟩
  have hsome : behind.takeWhile isDigit ≠ [] := by
    intro hnone
    rw [← digitsValue_decimal number, hdigits, hnone] at hpos
    contradiction
  rw [htrim, hdigits, findOneDigit]
  cases behind with
  | nil => contradiction
  | cons c behind =>
      have hdigit : isDigit c = true := by
        by_contra hc
        exact hsome (List.takeWhile_cons_of_neg hc)
      rw [findDigit_append (by simpa using hdigit), List.takeWhile_cons_of_pos hdigit]
      rfl

/-- The last heading of a block tells its index. -/
theorem readIndex_concat (block : List Line) (line : Line) :
    readIndex (block ++ [line]) =
      (findOneDigit passageLead line.trim).elim (readIndex block) digitsValue := by
  unfold readIndex
  rw [List.filterMap_append]
  cases hdigit : findOneDigit passageLead line.trim with
  | none => simp [hdigit]
  | some digit => simp [hdigit]

/-- A heading sets the index. -/
theorem index_change_msg (line : Line) (passage : Passage) :
    (Stage.msg.change line passage).index =
      (findOneDigit passageLead line.trim).elim passage.index digitsValue := by
  unfold Stage.change Passage.assign
  cases findOneDigit passageLead line.trim <;> cases findNumber countLead line.trim <;>
    cases findNumber idLead line.trim <;> rfl

/-- Behind the heading the index stays. -/
theorem index_change_of_ne_msg {stage : Stage} (hstage : stage ≠ .msg) (line : Line)
    (passage : Passage) : (stage.change line passage).index = passage.index := by
  refine change_of_hidden (g := (·.index)) ?_ line passage
  cases stage <;> simp [Stage.Hidden] at *

/-- The index of a passage that is filed is the digit read last from its lines. -/
theorem index_read {reading : Reading} {block : List Line}
    (h : reading.draft.index = readIndex block) (lines : List Line) :
    (reading.read lines).filed.map (·.index) =
      reading.filed.map (·.index) ++ (msgBlocks reading.stage block lines).map readIndex := by
  induction lines generalizing reading block with
  | nil => simp [Reading.read, msgBlocks]
  | cons line rest ih =>
      change ((reading.feed line).read rest).filed.map _ = _
      by_cases hcomplete : reading.stage.next line reading.stage = .complete
      · rw [feed_of_complete hcomplete, @ih _ [] rfl, msgBlocks, if_pos hcomplete]
        simp [h]
      · rw [feed_of_ne_complete hcomplete, msgBlocks, if_neg hcomplete]
        by_cases hmsg : reading.stage.next line reading.stage = .msg
        · rw [if_pos hmsg, @ih _ (block ++ [line])]
          · simp [advance, hmsg]
          · simp only [hmsg, index_change_msg, readIndex_concat, h]
        · rw [if_neg hmsg, @ih _ block]
          simp only [index_change_of_ne_msg hmsg, h]

/-- No stage of a passage changes its translation. -/
theorem translate_change (stage : Stage) (line : Line) (passage : Passage) :
    (stage.change line passage).translate = passage.translate := by
  by_cases htranslate : stage = .translate
  · rw [htranslate]
    rfl
  · refine change_of_hidden (g := (·.translate)) ?_ line passage
    cases stage <;> simp [Stage.Hidden] at *

/-- In front of the translations no passage gets one. -/
theorem translate_read {reading : Reading}
    (hfiled : ∀ passage ∈ reading.filed, passage.translate = [])
    (hdraft : reading.draft.translate = []) (lines : List Line) :
    ∀ passage ∈ (reading.read lines).filed, passage.translate = [] := by
  induction lines generalizing reading with
  | nil => exact hfiled
  | cons line rest ih =>
      refine @ih (reading.feed line) ?_ ?_
      · by_cases hnext : reading.stage.next line reading.stage = .complete
        · rw [feed_of_complete hnext]
          exact List.forall_mem_append.mpr ⟨hfiled, by simpa using hdraft⟩
        · rwa [feed_of_ne_complete hnext]
      · by_cases hnext : reading.stage.next line reading.stage = .complete
        · rw [feed_of_complete hnext]
        · rw [feed_of_ne_complete hnext, translate_change, hdraft]

/-! ## Following the headings -/

/-- Looking for the first position with a property. -/
theorem find?_range_eq {α : Type} (p : α → Bool) (xs ys : List α) :
    ((List.range xs.length).find? fun k => (xs ++ ys)[k]?.any p) = xs.findIdx? p := by
  induction xs using List.reverseRecOn generalizing ys with
  | nil => rfl
  | append_singleton xs x ih =>
      rw [List.length_append, List.length_singleton, List.range_succ, List.find?_append,
        List.append_assoc, ih, List.findIdx?_append]
      congr 1
      cases hp : p x <;> simp [hp]

/-- Where the digit of a line leads, when it has one. -/
def lead (indexes : List Nat) (line : Line) : Option (Option Ref) :=
  (findOneDigit passageLead line.trim).map fun digit =>
    indexes.findIdx? (· == digitsValue digit)

/-- The target is the passage that the heading leads to, or the current one. -/
theorem target_eq {parser : Parser} {indexes rest : List Nat}
    (hindexes : parser.view (·.index) = indexes ++ rest)
    (hlength : parser.passages.length = indexes.length) (line : Line) :
    (lead indexes line).or (some parser.current) = some (parser.target line) := by
  unfold lead Parser.target
  cases findOneDigit passageLead line.trim with
  | none => rfl
  | some digit =>
      simp only [Option.map_some, Option.some_or]
      rw [← find?_range_eq _ indexes rest, ← hindexes, hlength]
      unfold Parser.view
      simp only [List.getElem?_map, Option.any_map]

/-- A line is added to the passage that {lit}`current` refers to behind it. -/
theorem getElem?_translate {parser : Parser} {k : Nat} {passage : Passage}
    (hk : parser.objects[k]? = some passage) (line : Line) :
    ∃ passage', (parser.translate line).objects[k]? = some passage' ∧
      passage'.translate = passage.translate ++
        if (parser.translate line).current = some k then Line.text line else [] := by
  unfold Parser.translate
  cases parser.target line with
  | none => exact ⟨passage, hk, by simp⟩
  | some ref =>
      by_cases href : ref = k
      · subst href
        exact ⟨{ passage with translate := passage.translate ++ Line.text line },
          by simp [hk], by simp⟩
      · exact ⟨passage, by simp [List.getElem?_modify_ne _ _ href, hk], by simp [href]⟩

/-- A passage gets the lines under the headings that lead to it. -/
theorem translate_foldl {parser : Parser} {indexes rest : List Nat} {k : Nat} {passage : Passage}
    (hindexes : parser.view (·.index) = indexes ++ rest)
    (hlength : parser.passages.length = indexes.length) (hk : parser.objects[k]? = some passage)
    (tail : List Line) :
    ∃ passage', (tail.foldl Parser.translate parser).objects[k]? = some passage' ∧
      passage'.translate = passage.translate ++
        textOf (under (lead indexes) (some k) (some parser.current) tail) := by
  induction tail generalizing parser passage with
  | nil => exact ⟨passage, hk, by simp [under, textOf]⟩
  | cons line tail ih =>
      have hview : (parser.translate line).view (·.index) = indexes ++ rest := by
        rw [← hindexes]
        exact (view_foldl_translate (g := (·.index)) (fun _ _ => rfl) parser [line]).2.2
      have hcurrent : (lead indexes line).or (some parser.current) =
          some (parser.translate line).current := target_eq hindexes hlength line
      rcases getElem?_translate hk line with ⟨first, hfirst, hadded⟩
      rcases ih hview hlength hfirst with ⟨passage', hpassage, htranslate⟩
      refine ⟨passage', hpassage, ?_⟩
      rw [htranslate, hadded, under, hcurrent, textOf_append, ← List.append_assoc]
      congr 2
      by_cases hhome : (parser.translate line).current = some k <;> simp [hhome, textOf]

/-- What the passages of a reading get from the translations behind it. -/
theorem filed_foldl_translate {reading : Reading}
    (hempty : ∀ passage ∈ reading.filed, passage.translate = []) (tail : List Line) :
    (tail.foldl Parser.translate reading.parser).filed.length = reading.filed.length ∧
      ∀ (k : Nat) (passage : Passage),
        (tail.foldl Parser.translate reading.parser).filed[k]? = some passage →
          passage.translate =
            textOf (under (lead (reading.filed.map (·.index))) (some k) none tail) := by
  rcases view_foldl_translate (g := (·.index)) (fun _ _ => rfl) reading.parser tail with
    ⟨hpassages, -, hview⟩
  have hlength : (tail.foldl Parser.translate reading.parser).objects.length =
      reading.filed.length + 1 := by
    simpa [Parser.view, Reading.parser] using congrArg List.length hview
  have hfiled := filed_eq_take (n := reading.filed.length) hpassages
  rw [hfiled]
  refine ⟨List.length_take_of_le (by omega), fun k passage hk => ?_⟩
  rw [List.getElem?_take] at hk
  split at hk
  · rename_i hlt
    have hdraft : reading.parser.objects[k]? = some reading.filed[k] := by
      change (reading.filed ++ [reading.draft])[k]? = _
      rw [List.getElem?_append_left hlt, List.getElem?_eq_getElem hlt]
    have hindexes : reading.parser.view (·.index) =
        reading.filed.map (·.index) ++ [reading.draft.index] := List.map_append
    rcases translate_foldl hindexes (by simp [Reading.parser]) hdraft tail with
      ⟨passage', hpassage, htranslate⟩
    have hsame : passage = passage' := Option.some.inj (hk.symm.trans hpassage)
    rw [hsame, htranslate, hempty _ (List.getElem_mem hlt), List.nil_append]
    refine congrArg textOf (under_eq_under (fun _ _ => rfl) (fun _ _ => Iff.rfl) ?_)
    -- in front of the translations the parser refers to the passage that is not filed
    refine iff_of_false (fun hself => ?_) (by simp)
    have hself : reading.filed.length = k := Option.some.inj (Option.some.inj hself)
    omega
  · contradiction

/-! ## Documents -/

/-- The translations have no blocks of headings. -/
theorem msgBlocks_translate (block lines : List Line) :
    msgBlocks .translate block lines = [] := by
  induction lines with
  | nil => rfl
  | cons line rest ih => exact ih

/-- The translations announce no passage. -/
theorem msgBlocks_append {now : Stage} {front tail : List Line} (block : List Line)
    (hhead : ∀ line ∈ tail.head?, advance (run now front) line = .translate) :
    msgBlocks now block (front ++ tail) = msgBlocks now block front := by
  induction front generalizing now block with
  | nil =>
      cases tail with
      | nil => rfl
      | cons line rest =>
          have hadvance : advance now line = .translate := hhead line rfl
          have hnext := advance_eq_translate_iff.mp hadvance
          simp [msgBlocks, hnext, hadvance, msgBlocks_translate]
  | cons line front ih =>
      rw [run_cons] at hhead
      have hrest := @ih (advance now line)
      rw [List.cons_append, msgBlocks, msgBlocks]
      by_cases hcomplete : now.next line now = .complete
      · rw [if_pos hcomplete, if_pos hcomplete]
        have hadvance : advance now line = .completed := by simp [advance, hcomplete]
        rw [← hadvance, hrest [] hhead]
      · rw [if_neg hcomplete, if_neg hcomplete]
        by_cases hmsg : now.next line now = .msg
        · rw [if_pos hmsg, if_pos hmsg]
          have hadvance : advance now line = .msg := by simp [advance, hmsg]
          rw [← hadvance, hrest _ hhead]
        · rw [if_neg hmsg, if_neg hmsg, hrest _ hhead]

/-- What the passages of a document get from the translations. -/
theorem translate_of_parse {document : List JString} {parser : Parser}
    (h : fresh.parse document = .ok (true, parser)) :
    parser.filed.length = (passageBlocks document).length ∧
      ∀ (k : Nat) (passage : Passage), parser.filed[k]? = some passage →
        passage.translate =
          textOf (under (lead ((passageBlocks document).map readIndex)) (some k) none
            (translationLines document)) := by
  have hread := read_of_parse h
  unfold passageBlocks translationLines
  rcases read_yields (documentLines document) with ⟨front, tail, hlines, htail, hhead, hyields⟩
  rw [htail, hlines, msgBlocks_append [] hhead]
  rw [hread] at hyields
  rcases hyields with hyields | hyields
  · contradiction
  cases hyields
  have hindexes : (({} : Reading).read front).filed.map (·.index) =
      (msgBlocks .waitStart [] front).map readIndex :=
    @index_read {} [] rfl front
  have hlength := congrArg List.length hindexes
  rw [List.length_map, List.length_map] at hlength
  have hempty := @translate_read {} (by simp) rfl front
  rw [← hindexes, ← hlength]
  exact filed_foldl_translate hempty tail

/-- A line that is handled is one of the lines. -/
theorem mem_of_mem_handledIn {stage now : Stage} {lines : List Line} {line : Line}
    (h : line ∈ handledIn stage now lines) : line ∈ lines := by
  induction lines generalizing now with
  | nil => contradiction
  | cons first rest ih =>
      rcases List.mem_append.mp h with hfirst | hrest
      · split at hfirst
        · rw [List.mem_singleton.mp hfirst]
          exact List.mem_cons_self
        · contradiction
      · exact List.mem_cons_of_mem _ (ih hrest)

/-- The lines of a document are trimmed and have no line feed. -/
theorem mem_documentLines {document : List JString} {line : Line}
    (h : line ∈ documentLines document) :
    line.trim = trim line.origin ∧ lineFeed ∉ line.origin := by
  rcases List.mem_flatMap.mp h with ⟨text, -, hline⟩
  rcases List.mem_filterMap.mp hline with ⟨s, hs, hsome⟩
  split at hsome
  · contradiction
  · cases hsome
    exact ⟨rfl, not_mem_of_mem_splitOn hs⟩

/-- A text determines its lines. -/
theorem eq_of_textOf_eq (document : List JString) {xs ys : List Line}
    (hxs : ∀ x ∈ xs, x ∈ documentLines document) (hys : ∀ y ∈ ys, y ∈ documentLines document)
    (h : textOf xs = textOf ys) : xs = ys := by
  have horigins : xs.map Line.origin = ys.map Line.origin := by
    refine flatMap_concat_inj (c := lineFeed) ?_ ?_ ?_
    · simpa using fun x hx => (mem_documentLines (hxs x hx)).2
    · simpa using fun y hy => (mem_documentLines (hys y hy)).2
    · rw [List.flatMap_map, List.flatMap_map]
      exact h
  have hline : ∀ lines : List Line, (∀ line ∈ lines, line ∈ documentLines document) →
      (lines.map Line.origin).map (fun s => { origin := s, trim := trim s : Line }) = lines := by
    intro lines hlines
    rw [List.map_map]
    refine (List.map_congr_left fun line hline => ?_).trans (List.map_id lines)
    simp only [Function.comp_apply, id_eq, ← (mem_documentLines (hlines line hline)).1]
  rw [← hline xs hxs, ← hline ys hys, horigins]

/-- A heading with a number leads to a passage, or to none. -/
theorem isSome_lead (indexes : List Nat) (line : Line) :
    (lead indexes line).isSome = (findOneDigit passageLead line.trim).isSome := by
  unfold lead
  rw [Option.isSome_map]

/-- A heading leads to the first block with the first digit of its number. -/
theorem lead_of_heading {line : Line} {number : Nat} (h : heading line = some number)
    (blocks : List (List Line)) :
    lead (blocks.map readIndex) line =
      some (blocks.findIdx? fun block => readIndex block == firstDigit number) := by
  unfold lead firstDigit
  rw [findOneDigit_of_heading h, Option.map_some, List.findIdx?_map]
  rfl

/-- The lines with a digit behind {lit}`Passage` are the headings. -/
theorem WellHeaded.isSome_lead {document : List JString} (h : WellHeaded document)
    (indexes : List Nat) {line : Line} (hline : line ∈ translationLines document) :
    (lead indexes line).isSome = (heading line).isSome := by
  rw [Passage1.isSome_lead, Bool.eq_iff_iff]
  constructor
  · exact h.headings line hline
  · intro hheading
    rcases Option.isSome_iff_exists.mp hheading with ⟨number, hnumber⟩
    rw [findOneDigit_of_heading hnumber]
    rfl

/-- A passage has its translation exactly when the headings that lead to it are those with
its number. -/
theorem WellHeaded.translate_eq_iff {document : List JString} {parser : Parser}
    (hheaded : WellHeaded document) (h : fresh.parse document = .ok (true, parser)) {k : Nat}
    {passage : Passage} (hk : parser.filed[k]? = some passage) (number : Nat) :
    passage.translate = textOf (under heading number none (translationLines document)) ↔
      ∀ line ∈ translationLines document,
        (lead ((passageBlocks document).map readIndex) line = some (some k) ↔
          heading line = some number) := by
  rw [(translate_of_parse h).2 k passage hk,
    ← under_eq_under_iff (Option.some_ne_none _).symm fun line hline =>
      hheaded.isSome_lead _ hline]
  constructor
  · refine eq_of_textOf_eq document ?_ ?_
    · exact fun line hline => mem_of_mem_handledIn (mem_of_mem_under hline)
    · exact fun line hline => mem_of_mem_handledIn (mem_of_mem_under hline)
  · exact congrArg textOf

/-- With distinct values the first position of a value is its only one. -/
theorem findIdx?_eq_some_iff_of_nodup {α β : Type} [BEq β] [LawfulBEq β] {f : α → β}
    {xs : List α} (h : (xs.map f).Nodup) (b : β) (k : Nat) :
    (xs.findIdx? fun x => f x == b) = some k ↔ ∃ x, xs[k]? = some x ∧ f x = b := by
  rw [List.findIdx?_eq_some_iff_getElem]
  constructor
  · rintro ⟨hk, hvalue, -⟩
    exact ⟨xs[k], List.getElem?_eq_getElem hk, eq_of_beq hvalue⟩
  · rintro ⟨x, hx, hvalue⟩
    rcases List.getElem?_eq_some_iff.mp hx with ⟨hk, rfl⟩
    refine ⟨hk, beq_iff_eq.mpr hvalue, fun j hj hsame => ?_⟩
    have hj' : j < xs.length := by omega
    have hmap : (xs.map f)[j]? = (xs.map f)[k]? := by
      rw [List.getElem?_map, List.getElem?_map, List.getElem?_eq_getElem hj', hx, Option.map_some,
        Option.map_some, eq_of_beq hsame, hvalue]
    have hindex := (List.getElem?_inj (by simpa using hj') h).mp hmap
    omega

/-- A number below ten is its first digit. -/
theorem firstDigit_of_lt {number : Nat} (h : number < 10) : firstDigit number = number := by
  have hall : ∀ n < 10, firstDigit n = n := by decide +kernel
  exact hall number h

/-- Only the elements of the list matter. -/
theorem findIdx?_congr {α : Type} {p q : α → Bool} {xs : List α} (h : ∀ x ∈ xs, p x = q x) :
    xs.findIdx? p = xs.findIdx? q := by
  induction xs with
  | nil => rfl
  | cons x xs ih =>
      rw [List.findIdx?_cons, List.findIdx?_cons, h x List.mem_cons_self,
        ih fun y hy => h y (List.mem_cons_of_mem _ hy)]

/-- The headings lead home while they have one digit and no passage has another digit in
its announcing lines than its number. -/
theorem leadsHome_of_one_digit {document : List JString}
    (hblocks : ∀ block ∈ passageBlocks document, announced block = some (readIndex block))
    (hlines : ∀ line ∈ translationLines document, ∀ number ∈ heading line, number < 10) :
    LeadsHome document := by
  intro line hline number hnumber
  have hdigit := firstDigit_of_lt (hlines line hline number hnumber)
  refine findIdx?_congr fun block hblock => ?_
  rw [hdigit, hblocks block hblock]
  rfl

/-- Every translation is filed under the passage of its number exactly when the digit of
every heading leads to the passage that its number leads to. -/
theorem translations_filed_iff {document : List JString} {parser : Parser}
    (hheaded : WellHeaded document) (h : fresh.parse document = .ok (true, parser)) :
    TranslationsFiled document parser ↔ LeadsHome document := by
  have hlength := (translate_of_parse h).1
  constructor
  · intro hfiled line hline number hnumber
    apply Option.ext
    intro k
    by_cases hk : k < (passageBlocks document).length
    · have hblock := List.getElem?_eq_getElem hk
      rcases Option.isSome_iff_exists.mp (hheaded.announced _ (List.getElem_mem hk)) with
        ⟨number', hnumber'⟩
      have hpassage := List.getElem?_eq_getElem (hlength ▸ hk)
      have htranslate := hfiled k _ number' _ hblock hnumber' hpassage
      have hleads := (hheaded.translate_eq_iff h hpassage number').mp htranslate line hline
      rw [lead_of_heading hnumber, hnumber, Option.some_inj] at hleads
      rw [hleads, findIdx?_eq_some_iff_of_nodup hheaded.distinct, hblock]
      simp [hnumber', eq_comm]
    · have hbound : ∀ p, (passageBlocks document).findIdx? p ≠ some k := by
        intro p hp
        exact hk (List.findIdx?_eq_some_iff_getElem.mp hp).1
      exact iff_of_false (hbound _) (hbound _)
  · intro hhome k block number passage hblock hnumber hk
    apply (hheaded.translate_eq_iff h hk number).mpr
    intro line hline
    cases hheading : heading line with
    | none =>
        have hnone := hheaded.isSome_lead ((passageBlocks document).map readIndex) hline
        rw [hheading, Option.isSome_none, Option.isSome_eq_false_iff,
          Option.isNone_iff_eq_none] at hnone
        simp [hnone]
    | some m =>
        rw [lead_of_heading hheading, hhome line hline m hheading, Option.some_inj,
          findIdx?_eq_some_iff_of_nodup hheaded.distinct, hblock]
        simp [hnumber, eq_comm]

/-- A document with two passages and their translations, the later one first. -/
def twoPassages (number : JString) : List JString :=
  wholeDocument ++ [jstr "Passage " ++ number, jstr "开始时间", jstr "郑重提示", jstr "完成时间",
    jstr "全文参考翻译", jstr "Passage " ++ number, jstr "乙", jstr "Passage 1", jstr "甲"]

/-- The parser behind it, with the index read for the second passage and what the two have
for a translation. -/
def twoParser (index : Nat) (first second : JString) : Parser where
  objects := [
    { index := 1
      id := 12
      difficulty := 7
      content := jstr "开始时间\n"
      questions := jstr "郑重提示\n"
      translate := first },
    { index := index
      content := jstr "开始时间\n"
      questions := jstr "郑重提示\n"
      translate := second },
    {}]
  passages := [some 0, some 1]
  current := some 0
  stage := .translate

/-- The document of the example is well headed. -/
theorem wellHeaded_two : WellHeaded (twoPassages (jstr "2")) where
  announced := by decide +kernel
  distinct := by decide +kernel
  headings := by decide +kernel

/-- The passages 1 and 2 have their translations. -/
theorem two_filed_iff :
    TranslationsFiled (twoPassages (jstr "2"))
        (twoParser 2 (jstr "Passage 1\n甲\n") (jstr "Passage 2\n乙\n")) ↔
      LeadsHome (twoPassages (jstr "2")) :=
  translations_filed_iff wellHeaded_two (by decide +kernel)

/-- The translation of passage 10 is filed under passage 1. -/
theorem ten_filed_under_one :
    WellHeaded (twoPassages (jstr "10")) ∧
      fresh.parse (twoPassages (jstr "10")) =
        .ok (true, twoParser 1 (jstr "Passage 10\n乙\nPassage 1\n甲\n") []) ∧
      ¬ TranslationsFiled (twoPassages (jstr "10"))
        (twoParser 1 (jstr "Passage 10\n乙\nPassage 1\n甲\n") []) := by
  refine ⟨⟨by decide +kernel, by decide +kernel, by decide +kernel⟩, by decide +kernel, ?_⟩
  intro hfiled
  have hten := hfiled 1 [{ origin := jstr "Passage 10", trim := jstr "Passage 10" }] 10
    { index := 1, content := jstr "开始时间\n", questions := jstr "郑重提示\n" }
    (by decide +kernel) (by decide +kernel) (by decide +kernel)
  exact absurd hten (by decide +kernel)

end Passage1
end TestAio
