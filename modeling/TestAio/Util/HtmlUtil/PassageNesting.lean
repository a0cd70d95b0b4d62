import TestAio.Library.Nesting
import TestAio.Util.HtmlUtil.FootnoteNumbers

/-!
# Nesting of a tokenised title

The tokeniser copies the tags of a title and puts markup around words that stand outside of
them.  A reader of what is written is therefore always in the state of a reader of the
title, except that the low surrogates of a tag are written twice.

Main results:

- Theorem {lit}`tagEffect_scannedUnits`: such a tag still matches.
- Theorem {lit}`resolvePassage_balanced`: the tokeniser keeps a title well nested.

Current gaps:

- A tag ends at the first {lit}`>`, as in the tokeniser; comments and quoted delimiters are not
  told apart.
-/

namespace TestAio
namespace HtmlUtil

open Library Library.Nesting

/-! ## HTML -/

/-- The name of a tag: what stands in front of the first white space. -/
def tagName (content : JString) : JString :=
  content.takeWhile fun c => !isTrimmed c

/-- What a tag does: a slash closes a name, and only {lit}`<br/>` does nothing. -/
def tagEffect (content : JString) : Effect JString :=
  if content = jstr "br/" then
    .skip
  else if content.head? = some 47 then
    .closes (tagName content.tail)
  else
    .opens (tagName content)

/-- HTML. -/
def html : Markup JChar JString where
  left := 60
  right := 62
  effect := tagEffect

/-- A well nested fragment. -/
abbrev Balanced (text : JString) : Prop :=
  WellNested html text

/-! ## Surrogates -/

/-- What the tokeniser writes for units in front of others. -/
def writtenBefore : JString → JString → JString
  | [], _ => []
  | u :: more, rest => codePointUnits (codePointAt u (more ++ rest)) ++ writtenBefore more rest

/-- The last unit is written with the code point that it starts. -/
theorem writtenBefore_concat (content : JString) (u : JChar) (rest : JString) :
    writtenBefore (content ++ [u]) rest =
      writtenBefore content (u :: rest) ++ codePointUnits (codePointAt u rest) := by
  induction content with
  | nil => simp [writtenBefore]
  | cons c content ih =>
      rw [List.cons_append, writtenBefore, writtenBefore, ih, List.append_assoc, List.append_assoc]
      rfl

/-- A code point does not reach over a unit that is no low surrogate. -/
theorem codePointAt_append_of_not_low {c : JChar} (hc : isLowSurrogate c = false) (u : JChar)
    (more rest : JString) : codePointAt u (more ++ c :: rest) = codePointAt u more := by
  cases more with
  | nil => simp [codePointAt, hc]
  | cons d more => rfl

/-- A unit that is no low surrogate ends what is written before it. -/
theorem writtenBefore_of_not_low {c : JChar} (hc : isLowSurrogate c = false)
    (content rest : JString) : writtenBefore content (c :: rest) = scannedUnits content := by
  induction content with
  | nil => rfl
  | cons u content ih =>
      rw [writtenBefore, scannedUnits, ih, codePointAt_append_of_not_low hc]

/-- A unit is written first of all. -/
theorem codePointUnits_codePointAt_eq (u : JChar) (rest : JString) :
    ∃ more, codePointUnits (codePointAt u rest) = u :: more ∧
      ∀ l ∈ more, isLowSurrogate l = true := by
  rw [codePointUnits_codePointAt]
  cases rest with
  | nil => exact ⟨[], rfl, by simp⟩
  | cons l rest =>
      dsimp only
      split
      · rename_i hpair
        refine ⟨[l], rfl, fun d hd => ?_⟩
        rw [List.mem_singleton.mp hd]
        exact (Bool.and_eq_true_iff.mp hpair).2
      · exact ⟨[], rfl, by simp⟩

/-- Low surrogates only have no other unit. -/
theorem not_mem_of_low {c : JChar} (hc : isLowSurrogate c = false) {text : JString}
    (h : ∀ l ∈ text, isLowSurrogate l = true) : c ∉ text := by
  intro hmem
  rw [h c hmem] at hc
  cases hc

/-- What is written for a unit holds no other unit that is no surrogate. -/
theorem not_mem_written {c u : JChar} (hc : isLowSurrogate c = false) (hu : u ≠ c)
    (rest : JString) : c ∉ codePointUnits (codePointAt u rest) := by
  rcases codePointUnits_codePointAt_eq u rest with ⟨more, hunits, hmore⟩
  rw [hunits, List.mem_cons, not_or]
  exact ⟨hu.symm, not_mem_of_low hc hmore⟩

/-- Each unit is scanned. -/
theorem mem_scannedUnits {text : JString} {u : JChar} (h : u ∈ text) : u ∈ scannedUnits text := by
  induction text with
  | nil => cases h
  | cons c text ih =>
      rw [scannedUnits, List.mem_append]
      rcases List.mem_cons.mp h with rfl | h
      · left
        rcases codePointUnits_codePointAt_eq u text with ⟨more, hunits, -⟩
        rw [hunits]
        exact List.mem_cons_self
      · exact .inr (ih h)

/-- The first unit is scanned first. -/
theorem head?_scannedUnits (text : JString) : (scannedUnits text).head? = text.head? := by
  cases text with
  | nil => rfl
  | cons u text =>
      rcases codePointUnits_codePointAt_eq u text with ⟨more, hunits, -⟩
      rw [scannedUnits, hunits]
      rfl

/-- A blank is no low surrogate. -/
theorem isLowSurrogate_of_trimmed {c : JChar} (h : isTrimmed c = true) :
    isLowSurrogate c = false := by
  simp only [isTrimmed, isLowSurrogate, decide_eq_true_eq, decide_eq_false_iff_not,
    UInt16.le_iff_toNat_le, UInt16.reduceToNat] at *
  omega

/-- The white space behind a name is no part of a pair. -/
theorem codePointAt_tagName (u : JChar) (text : JString) :
    codePointAt u (tagName text) = codePointAt u text := by
  cases text with
  | nil => rfl
  | cons c text =>
      unfold tagName
      by_cases hc : isTrimmed c = true
      · rw [List.takeWhile_cons_of_neg (by simpa using hc)]
        exact (codePointAt_append_of_not_low (isLowSurrogate_of_trimmed hc) u [] text).symm
      · rw [List.takeWhile_cons_of_pos (by simpa using hc)]
        rfl

/-- The name of a scanned tag is the scanned name. -/
theorem tagName_scannedUnits (text : JString) :
    tagName (scannedUnits text) = scannedUnits (tagName text) := by
  induction text with
  | nil => rfl
  | cons u text ih =>
      rcases codePointUnits_codePointAt_eq u text with ⟨more, hunits, hmore⟩
      by_cases hu : isTrimmed u = true
      · have hnone : ∀ behind, tagName (u :: behind) = [] :=
          fun _ => List.takeWhile_cons_of_neg (by simpa using hu)
        rw [scannedUnits, hunits, List.cons_append, hnone, hnone]
        rfl
      · have hname : tagName (u :: text) = u :: tagName text :=
          List.takeWhile_cons_of_pos (by simpa using hu)
        have hlow : ∀ l ∈ more, (!isTrimmed l) = true := by
          intro l hl
          rw [Bool.not_eq_true', ← Bool.not_eq_true]
          intro htrimmed
          have hlow := hmore l hl
          rw [isLowSurrogate_of_trimmed htrimmed] at hlow
          cases hlow
        rw [hname, scannedUnits, scannedUnits, codePointAt_tagName, ← ih, hunits]
        unfold tagName
        rw [List.cons_append, List.takeWhile_cons_of_pos (by simpa using hu),
          List.takeWhile_append_of_pos hlow, List.cons_append]

/-- Only a line break is scanned as one. -/
theorem scannedUnits_eq_br_iff (content : JString) :
    scannedUnits content = jstr "br/" ↔ content = jstr "br/" := by
  constructor
  · intro h
    have hhigh : ∀ u ∈ content, isHighSurrogate u = false := by
      intro u hu
      have hmem : u ∈ jstr "br/" := h ▸ mem_scannedUnits hu
      have hall : (jstr "br/").all (fun u => !isHighSurrogate u) = true := by decide
      simpa using List.all_eq_true.mp hall u hmem
    rw [← h]
    exact ((scannedUnits_eq_self_iff content).mpr (hasSurrogatePair_of_not_high hhigh)).symm
  · rintro rfl
    decide

/-- The slash of a closing tag is one unit. -/
theorem tail_scannedUnits {content : JString} (h : content.head? = some 47) :
    (scannedUnits content).tail = scannedUnits content.tail := by
  cases content with
  | nil => cases h
  | cons u content =>
      cases h
      have hone : codePointUnits (codePointAt 47 content) = [47] := by
        rw [codePointAt_eq_toNat_of_not_high (by decide)]
        rfl
      rw [scannedUnits, hone]
      rfl

/-- A tag whose surrogates are written twice does what the tag does, with such names. -/
theorem tagEffect_scannedUnits (content : JString) :
    tagEffect (scannedUnits content) = (tagEffect content).map scannedUnits := by
  unfold tagEffect
  rw [head?_scannedUnits]
  by_cases hbr : content = jstr "br/"
  · rw [if_pos hbr, if_pos ((scannedUnits_eq_br_iff content).mpr hbr)]
    rfl
  · rw [if_neg hbr, if_neg (mt (scannedUnits_eq_br_iff content).mp hbr)]
    by_cases hslash : content.head? = some 47
    · rw [if_pos hslash, if_pos hslash, tail_scannedUnits hslash, tagName_scannedUnits]
      rfl
    · rw [if_neg hslash, if_neg hslash, tagName_scannedUnits]
      rfl

/-! ## The tokeniser -/

/-- Letters are balanced. -/
theorem balanced_of_letters {text : JString} (h : ∀ c ∈ text, isLetterUnit c = true) :
    Balanced text := by
  apply wellNested_of_not_mem
  intro hmem
  have hletter := h 60 hmem
  revert hletter
  decide

/-- Digits are balanced. -/
theorem balanced_decimal (n : Nat) : Balanced (decimal n) := by
  apply wellNested_of_not_mem
  intro hmem
  rcases List.mem_map.mp hmem with ⟨c, hc, heq⟩
  have hdigit : c.isDigit = true := Nat.isDigit_of_mem_toDigits (by decide) (by decide) hc
  have hvalue := jchar_toNat_of_isDigit hdigit
  simp only [Char.isDigit, Bool.and_eq_true, decide_eq_true_eq] at hdigit
  have hle : c.toNat ≤ 57 := UInt32.le_iff_toNat_le.mp hdigit.2
  have hleft : html.left.toNat = 60 := rfl
  rw [heq, hleft] at hvalue
  omega

variable {studyWords : List JString} {overWords : List WordNode}

/-- However a word of letters is written, it is well nested. -/
theorem emitWord_balanced {word : JString} (hword : ∀ c ∈ word, isLetterUnit c = true)
    (nodes : List WordNode) : Balanced (emitWord studyWords overWords nodes word).1.units := by
  have hletters : Balanced word := balanced_of_letters hword
  have hbold : Balanced (jstr "<b>" ++ word ++ jstr "</b>") := by
    have hopen : Moves html (jstr "<b>") [] [jstr "b"] := by decide
    exact hletters.between hopen (by decide)
  have hitalic : Moves html (jstr "<i>" ++ word ++ jstr "</i>") [] [] := by
    have hopen : Moves html (jstr "<i>") [] [jstr "i"] := by decide
    exact hletters.between hopen (by decide)
  unfold emitWord
  split
  · exact hbold
  · split
    · have hopen : Moves html (jstr "<sup>[") [] [jstr "sup"] := by decide
      exact (balanced_decimal _).between (hitalic.append hopen) (by decide)
    · exact hletters

/-- The reader of what is written for a text in front of which a reader stands. -/
def outReader (r : Reader JChar JString) (rest : JString) : Reader JChar JString where
  tag := r.tag.map fun content => writtenBefore content rest
  opened := r.opened.map scannedUnits

/-- What has been written is read to a state. -/
def Reads (builder : List Append) (r : Reader JChar JString) : Prop :=
  Reader.read html ⟨none, []⟩ (builder.flatMap Append.units) = some r

/-- What is appended is read behind the rest. -/
theorem Reads.append {builder : List Append} {r r' : Reader JChar JString} (h : Reads builder r)
    {a : Append} (ha : r.read html a.units = some r') : Reads (builder ++ [a]) r' := by
  unfold Reads at *
  rw [List.flatMap_append, read_append, h, List.flatMap_singleton]
  exact ha

/-- Writing the pending word leaves the open tags as they are. -/
theorem Reads.flushWord {st : ResolveState} {s : List JString} (h : Reads st.builder ⟨none, s⟩)
    (hst : Pending st) : Reads (flushWord studyWords overWords st).builder ⟨none, s⟩ := by
  unfold HtmlUtil.flushWord
  split
  · exact h
  · exact h.append ((emitWord_balanced hst.letters _).moves s)

/-- A unit that opens no tag. -/
theorem read_written_outside {u : JChar} (hu : u ≠ html.left) (rest : JString)
    (s : List JString) :
    Reader.read html ⟨none, s⟩ (codePointUnits (codePointAt u rest)) = some ⟨none, s⟩ := by
  have hlow : isLowSurrogate html.left = false := by decide
  exact read_outside (not_mem_written hlow hu rest)

/-- One step outside tags. -/
theorem reads_resolveStep_outside {st : ResolveState} {s : List JString} (hst : Pending st)
    (happend : st.append = true) (h : Reads st.builder ⟨none, s.map scannedUnits⟩) {u : JChar}
    {r' : Reader JChar JString} (hstep : Reader.step html ⟨none, s⟩ u = some r')
    (rest : JString) :
    Reads (resolveStep studyWords overWords st (codePointAt u rest)).builder
      (outReader r' rest) := by
  unfold resolveStep
  rw [isLetter_codePointAt]
  by_cases hletter : isLetterUnit u = true
  · have hleft : u ≠ html.left := by
      rintro rfl
      revert hletter
      decide
    rw [step_outside hleft] at hstep
    cases hstep
    rw [if_pos hletter, readLetter, if_pos happend]
    exact h
  · rw [if_neg hletter]
    have hflushed := @Reads.flushWord studyWords overWords _ _ h hst
    by_cases hleft : u = html.left
    · subst hleft
      rw [step_left] at hstep
      cases hstep
      have hpoint : codePointAt html.left rest = 60 :=
        codePointAt_eq_toNat_of_not_high (by decide)
      have hunits : (Append.codePoint 60).units = [html.left] := rfl
      rw [hpoint, copySeparator, if_neg (by simp)]
      apply hflushed.append
      rw [hunits, read_singleton]
      exact step_left _
    · rw [step_outside hleft] at hstep
      cases hstep
      unfold copySeparator
      apply hflushed.append
      split
      · exact read_outside (by decide)
      · exact read_written_outside hleft rest _

/-- Inside a tag every code point is copied. -/
theorem builder_resolveStep_inside {st : ResolveState} (hst : Pending st)
    (happend : st.append = false) (c : Nat) :
    (resolveStep studyWords overWords st c).builder = st.builder ++ [.codePoint c] := by
  unfold resolveStep
  split
  · rw [readLetter, if_neg (by simp [happend])]
  · rw [flushWord, if_pos (hst.outside happend), copySeparator, happend]
    rfl

/-- One step inside a tag. -/
theorem reads_resolveStep_inside {st : ResolveState} {s : List JString} {content : JString}
    {u : JChar} {rest : JString} (hst : Pending st) (happend : st.append = false)
    (h : Reads st.builder (outReader ⟨some content, s⟩ (u :: rest)))
    {r' : Reader JChar JString} (hstep : Reader.step html ⟨some content, s⟩ u = some r') :
    Reads (resolveStep studyWords overWords st (codePointAt u rest)).builder
      (outReader r' rest) := by
  rw [builder_resolveStep_inside hst happend]
  apply h.append
  by_cases hright : u = html.right
  · subst hright
    simp only [Reader.step, if_true] at hstep
    rcases Option.map_eq_some_iff.mp hstep with ⟨opened, hrun, rfl⟩
    have hpoint : codePointAt html.right rest = 62 :=
      codePointAt_eq_toNat_of_not_high (by decide)
    have heffect : (html.effect (scannedUnits content)).run (s.map scannedUnits) =
        some (opened.map scannedUnits) := by
      have hrenamed : html.effect (scannedUnits content) =
          (html.effect content).map scannedUnits := tagEffect_scannedUnits content
      rw [hrenamed]
      exact Effect.run_map scannedUnits hrun
    have hwritten : writtenBefore content (html.right :: rest) = scannedUnits content :=
      writtenBefore_of_not_low (by decide) content rest
    have hunits : (Append.codePoint 62).units = [html.right] := rfl
    unfold outReader
    dsimp only
    rw [hpoint, hunits, read_singleton, Option.map_some, hwritten]
    exact step_right heffect
  · rw [step_inside hright] at hstep
    cases hstep
    have hlow : isLowSurrogate html.right = false := by decide
    unfold outReader
    dsimp only
    rw [Option.map_some, Option.map_some, writtenBefore_concat]
    exact read_inside (not_mem_written hlow hright rest)

/-- The flag of the tokeniser tells whether the reader of the title is in a tag. -/
theorem append_resolveStep {st : ResolveState} {r r' : Reader JChar JString} {u : JChar}
    (happend : st.append = r.tag.isNone) (hstep : r.step html u = some r') (rest : JString) :
    (resolveStep studyWords overWords st (codePointAt u rest)).append = r'.tag.isNone := by
  rcases r with ⟨tag, s⟩
  rw [resolveStep_append, happend]
  cases tag with
  | none =>
      by_cases hleft : u = html.left
      · subst hleft
        rw [step_left] at hstep
        cases hstep
        rfl
      · rw [step_outside hleft] at hstep
        cases hstep
        have hopen : u ≠ 60 := hleft
        rw [if_neg hopen]
        simp
  | some content =>
      by_cases hright : u = html.right
      · subst hright
        simp only [Reader.step, if_true] at hstep
        rcases Option.map_eq_some_iff.mp hstep with ⟨opened, -, rfl⟩
        rfl
      · rw [step_inside hright] at hstep
        cases hstep
        have hclose : u ≠ 62 := hright
        rw [if_neg hclose]
        simp

/-- The loop writes a text with the tags of the text it reads. -/
theorem reads_resolveLoop {st : ResolveState} {r r' : Reader JChar JString} {text : JString}
    (hst : Pending st) (happend : st.append = r.tag.isNone)
    (h : Reads st.builder (outReader r text)) (hread : r.read html text = some r') :
    Reads (resolveLoop studyWords overWords st text).builder (outReader r' []) := by
  induction text generalizing st r with
  | nil =>
      cases hread
      exact h
  | cons u rest ih =>
      rw [read_cons] at hread
      rcases Option.bind_eq_some_iff.mp hread with ⟨next, hstep, hrest⟩
      rw [resolveLoop]
      have hnext := @append_resolveStep studyWords overWords _ _ _ _ happend hstep rest
      refine ih (hst.resolveStep studyWords overWords _) hnext ?_ hrest
      rcases r with ⟨tag, s⟩
      cases tag with
      | none => exact reads_resolveStep_outside hst happend h hstep rest
      | some content => exact reads_resolveStep_inside hst happend h hstep

/-- The tokeniser keeps a title well nested. -/
theorem resolvePassage_balanced {title : JString} (h : Balanced title) :
    Balanced (resolvePassage title studyWords overWords).passage := by
  have hstart : Reads ResolveState.initial.builder (outReader ⟨none, []⟩ title) := rfl
  exact reads_resolveLoop Pending.initial rfl hstart h

/-! ## The footnoted entries -/

/-- A footnoted entry is one of the given, and its word is made of letters. -/
structure Footnoted (overWords : List WordNode) (node : WordNode) : Prop where
  mem : node ∈ overWords
  letters : ∀ c ∈ node.word, isLetterUnit c = true

/-- A word that is written keeps the footnotes. -/
theorem footnoted_emitWord {nodes : List WordNode} {word : JString}
    (hword : ∀ c ∈ word, isLetterUnit c = true) (h : ∀ node ∈ nodes, Footnoted overWords node) :
    ∀ node ∈ (emitWord studyWords overWords nodes word).2, Footnoted overWords node := by
  unfold emitWord
  split
  · exact h
  · split
    · rename_i found hfind
      intro node hnode
      rw [footnote_eq, Numbering.mem_insertNew] at hnode
      rcases hnode with hnode | rfl
      · exact h node hnode
      · refine ⟨List.mem_of_find?_eq_some hfind, ?_⟩
        rw [word_of_findWord hfind]
        exact hword
    · exact h

/-- A step keeps the footnotes. -/
theorem footnoted_resolveStep {st : ResolveState} (hst : Pending st)
    (h : ∀ node ∈ st.nodes, Footnoted overWords node) (c : Nat) :
    ∀ node ∈ (resolveStep studyWords overWords st c).nodes, Footnoted overWords node := by
  unfold resolveStep
  split
  · unfold readLetter
    split <;> exact h
  · unfold copySeparator flushWord
    split
    · exact h
    · exact footnoted_emitWord hst.letters h

/-- The loop keeps the footnotes. -/
theorem footnoted_resolveLoop {st : ResolveState} (hst : Pending st)
    (h : ∀ node ∈ st.nodes, Footnoted overWords node) (text : JString) :
    ∀ node ∈ (resolveLoop studyWords overWords st text).nodes, Footnoted overWords node := by
  induction text generalizing st with
  | nil => exact h
  | cons u rest ih =>
      exact ih (hst.resolveStep studyWords overWords _) (footnoted_resolveStep hst h _)

/-- The entries beside a passage are among the given, with words of letters. -/
theorem footnoted_resolvePassage {title : JString} {node : WordNode}
    (h : node ∈ (resolvePassage title studyWords overWords).words) : Footnoted overWords node := by
  refine footnoted_resolveLoop Pending.initial ?_ title node h
  intro other hother
  cases hother

end HtmlUtil
end TestAio
