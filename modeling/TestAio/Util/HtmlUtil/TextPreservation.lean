import TestAio.Util.HtmlUtil.ResolvePassage

/-!
# What the article tokeniser keeps of the text

The tokeniser emits the passage with markup in between.  This module compares
the emitted text, markup removed, with the passage.  Two things can go wrong:
the pending word is written only when a later unit is not a letter, and the
index moves by one unit after a two-unit code point has been copied.

Main results:

- Theorem {lit}`resolveLoop_source`: what has been appended followed by the
  pending word is what the loop has read.
- Theorem {lit}`resolveLoop_wordBuilder_eq_nil_iff`: the pending word is lost at
  the end exactly when the passage ends in a letter outside a tag.
- Theorem {lit}`resolvePassage_keeps_text_iff`: the passage survives exactly
  when neither happens.

Current gaps:

- None.
-/

namespace TestAio
namespace HtmlUtil

/-! ## Conditions on the passage -/

/-- Whether the text ends behind a {lit}`<` that no {lit}`>` follows; {lit}`inside`
says whether it starts so. -/
def insideTag (inside : Bool) (passage : JString) : Bool :=
  passage.foldl (fun inside u => if u = 60 then true else if u = 62 then false else inside)
    inside

/-- Whether the last unit is an ASCII letter. -/
def endsInLetter (passage : JString) : Bool :=
  passage.getLast?.any isLetterUnit

/-- The article text among the appended units. -/
def sourceText (builder : List Append) : JString :=
  builder.flatMap Append.source

@[simp]
theorem sourceText_append (xs ys : List Append) :
    sourceText (xs ++ ys) = sourceText xs ++ sourceText ys := by
  simp [sourceText]

@[simp]
theorem sourceText_singleton (x : Append) : sourceText [x] = x.source := by
  simp [sourceText]

/-! ## One step -/

variable (studyWords : List JString) (overWords : List WordNode)

theorem word_of_findWord {overWords : List WordNode} {word : JString} {node : WordNode}
    (h : findWord overWords word = some node) : node.word = word := by
  have hfound := List.find?_some h
  simpa using (beq_iff_eq.mp hfound).symm

/-- However a word is written, its text is the word. -/
theorem emitWord_source (nodes : List WordNode) (word : JString) :
    (emitWord studyWords overWords nodes word).1.source = word := by
  unfold emitWord
  split_ifs
  · rfl
  · split <;> rfl

/-- Flushing moves the pending word into the text. -/
theorem flushWord_source (st : ResolveState) :
    sourceText (flushWord studyWords overWords st).builder =
      sourceText st.builder ++ st.wordBuilder := by
  unfold flushWord
  split_ifs with hempty
  · simp [hempty]
  · simp [emitWord_source]

@[simp]
theorem flushWord_wordBuilder (st : ResolveState) :
    (flushWord studyWords overWords st).wordBuilder = [] := by
  unfold flushWord
  split_ifs with hempty
  · exact hempty
  · rfl

@[simp]
theorem flushWord_append (st : ResolveState) :
    (flushWord studyWords overWords st).append = st.append := by
  unfold flushWord
  split <;> rfl

/-- Inside a tag no word is pending, and a pending word is made of letters. -/
structure Pending (st : ResolveState) : Prop where
  outside : st.append = false → st.wordBuilder = []
  letters : ∀ c ∈ st.wordBuilder, isLetterUnit c = true

theorem Pending.initial : Pending .initial where
  outside := by simp [ResolveState.initial]
  letters := by simp [ResolveState.initial]

/-- A letter is a single unit. -/
theorem codePointUnits_of_isLetter {c : Nat} (h : isLetter c = true) :
    codePointUnits c = [UInt16.ofNat c] ∧ isLetterUnit (UInt16.ofNat c) = true := by
  have hc : c < 0x10000 := by
    simp only [isLetter, decide_eq_true_eq] at h
    omega
  constructor
  · simp [codePointUnits, hc]
  · rw [isLetterUnit, UInt16.toNat_ofNat', Nat.mod_eq_of_lt hc]
    exact h

theorem Pending.readLetter {st : ResolveState} (hst : Pending st) {c : Nat}
    (hc : isLetter c = true) : Pending (readLetter st c) := by
  rcases codePointUnits_of_isLetter hc with ⟨hunits, hunit⟩
  unfold HtmlUtil.readLetter
  split_ifs with hout
  · refine ⟨fun h => ?_, fun d hd => ?_⟩
    · rw [hout] at h
      contradiction
    · simp only [hunits, List.mem_append, List.mem_singleton] at hd
      rcases hd with hd | rfl
      · exact hst.letters d hd
      · exact hunit
  · exact ⟨hst.outside, hst.letters⟩

theorem Pending.resolveStep {st : ResolveState} (hst : Pending st) (c : Nat) :
    Pending (resolveStep studyWords overWords st c) := by
  unfold HtmlUtil.resolveStep
  split_ifs with hletter
  · exact hst.readLetter hletter
  · exact ⟨fun _ => by simp [copySeparator], by simp [copySeparator]⟩

/-- A letter goes to the text or to the pending word. -/
theorem readLetter_source {st : ResolveState} (hst : Pending st) (c : Nat) :
    sourceText (readLetter st c).builder ++ (readLetter st c).wordBuilder =
      sourceText st.builder ++ st.wordBuilder ++ codePointUnits c := by
  unfold readLetter
  split_ifs with hout
  · simp
  · simp [hst.outside (by simpa using hout), Append.source]

/-- A separator is copied, a space outside a tag as U+00A0. -/
theorem copySeparator_source (st : ResolveState) (c : Nat) :
    sourceText (copySeparator st c).builder = sourceText st.builder ++ codePointUnits c := by
  unfold copySeparator
  rw [sourceText_append, sourceText_singleton]
  congr 1
  split_ifs with hspace
  · rw [Bool.and_eq_true, beq_iff_eq] at hspace
    rw [hspace.2]
    rfl
  · rfl

/-- One step appends what it reads to the text or to the pending word. -/
theorem resolveStep_source {st : ResolveState} (hst : Pending st) (c : Nat) :
    sourceText (resolveStep studyWords overWords st c).builder ++
        (resolveStep studyWords overWords st c).wordBuilder =
      sourceText st.builder ++ st.wordBuilder ++ codePointUnits c := by
  unfold resolveStep
  split_ifs with hletter
  · exact readLetter_source hst c
  · rw [copySeparator_source, flushWord_source]
    simp [copySeparator]

/-! ## The whole loop -/

/-- What has been appended followed by the pending word is what was read. -/
theorem resolveLoop_source {st : ResolveState} (hst : Pending st) (p : JString) :
    sourceText (resolveLoop studyWords overWords st p).builder ++
        (resolveLoop studyWords overWords st p).wordBuilder =
      sourceText st.builder ++ st.wordBuilder ++ scannedUnits p := by
  induction p generalizing st with
  | nil => simp [resolveLoop, scannedUnits]
  | cons u rest ih =>
      rw [resolveLoop, ih (hst.resolveStep studyWords overWords _),
        resolveStep_source studyWords overWords hst, scannedUnits, List.append_assoc]

theorem Pending.resolveLoop {st : ResolveState} (hst : Pending st) (p : JString) :
    Pending (resolveLoop studyWords overWords st p) := by
  induction p generalizing st with
  | nil => exact hst
  | cons u rest ih => exact ih (hst.resolveStep studyWords overWords _)

/-- Below U+D800 the code point read is the unit itself. -/
theorem codePointAt_eq_bracket_iff (u : JChar) (rest : JString) (b : JChar)
    (hb : b.toNat < 0xD800) : codePointAt u rest = b.toNat ↔ u = b := by
  rw [codePointAt_eq_iff hb]
  exact UInt16.toNat_inj

/-- The flag after a step: only the two angle brackets change it. -/
theorem resolveStep_append (st : ResolveState) (u : JChar) (rest : JString) :
    (resolveStep studyWords overWords st (codePointAt u rest)).append =
      if u = 60 then false else if u = 62 then true else st.append := by
  have h60 : codePointAt u rest = 60 ↔ u = 60 := codePointAt_eq_bracket_iff u rest 60 (by decide)
  have h62 : codePointAt u rest = 62 ↔ u = 62 := codePointAt_eq_bracket_iff u rest 62 (by decide)
  unfold resolveStep
  rw [isLetter_codePointAt]
  by_cases hletter : isLetterUnit u = true
  · have hne : u ≠ 60 ∧ u ≠ 62 := by
      constructor <;> rintro rfl <;> revert hletter <;> decide
    rw [if_pos hletter, if_neg hne.1, if_neg hne.2]
    unfold readLetter
    split <;> rfl
  · rw [if_neg hletter]
    simp only [copySeparator, h60, h62, flushWord_append]

/-- After the loop the flag tells whether the passage ends outside a tag. -/
theorem resolveLoop_append (st : ResolveState) (p : JString) :
    (resolveLoop studyWords overWords st p).append = !insideTag (!st.append) p := by
  induction p generalizing st with
  | nil => simp [resolveLoop, insideTag]
  | cons u rest ih =>
      rw [resolveLoop, ih, resolveStep_append]
      unfold insideTag
      rw [List.foldl_cons]
      congr 2
      split_ifs <;> rfl

/-- After a step a word is pending exactly when a letter was read outside a
tag. -/
theorem resolveStep_wordBuilder_eq_nil_iff {st : ResolveState} (hst : Pending st)
    (u : JChar) (rest : JString) :
    (resolveStep studyWords overWords st (codePointAt u rest)).wordBuilder = [] ↔
      (isLetterUnit u && st.append) = false := by
  unfold resolveStep
  rw [isLetter_codePointAt]
  split_ifs with hletter
  · have hunits := (codePointUnits_of_isLetter
      ((isLetter_codePointAt u rest).trans hletter)).1
    unfold readLetter
    split_ifs with hout
    · simp [hletter, hout, hunits]
    · simp [hst.outside (by simpa using hout), hout]
  · simp [copySeparator, hletter]

/-- The pending word is lost exactly when the passage ends in a letter outside
a tag. -/
theorem resolveLoop_wordBuilder_eq_nil_iff {st : ResolveState} (hst : Pending st)
    {p : JString} (hp : p ≠ []) :
    (resolveLoop studyWords overWords st p).wordBuilder = [] ↔
      (endsInLetter p && !insideTag (!st.append) p) = false := by
  induction p generalizing st with
  | nil => contradiction
  | cons u rest ih =>
      rw [resolveLoop]
      cases rest with
      | nil =>
          rw [resolveLoop, resolveStep_wordBuilder_eq_nil_iff studyWords overWords hst]
          have hbracket : isLetterUnit u = true → u ≠ 60 ∧ u ≠ 62 := by
            intro h
            constructor <;> rintro rfl <;> revert h <;> decide
          cases hu : isLetterUnit u with
          | false => simp [endsInLetter, hu]
          | true => simp [endsInLetter, insideTag, hu, hbracket hu]
      | cons l tail =>
          rw [ih (hst.resolveStep studyWords overWords _) (by simp), resolveStep_append]
          have hlast : endsInLetter (u :: l :: tail) = endsInLetter (l :: tail) := by
            simp [endsInLetter, List.getLast?_cons_cons]
          have htag : insideTag (!st.append) (u :: l :: tail) =
              insideTag (!(if u = 60 then false else if u = 62 then true else st.append))
                (l :: tail) := by
            unfold insideTag
            rw [List.foldl_cons]
            congr 1
            split_ifs <;> rfl
          rw [hlast, htag]

/-- The passage survives the tokeniser, unit for unit, exactly when it does not
end in a letter outside a tag and holds no surrogate pair. -/
theorem resolvePassage_keeps_text_iff (passage : JString) :
    (resolvePassage passage studyWords overWords).passage =
        (resolveAppends passage studyWords overWords).flatMap Append.units ∧
      (sourceText (resolveAppends passage studyWords overWords) = passage ↔
        (endsInLetter passage && !insideTag false passage) = false ∧
          hasSurrogatePair passage = false) := by
  refine ⟨rfl, ?_⟩
  have hread := resolveLoop_source studyWords overWords Pending.initial passage
  have hletters := (Pending.initial.resolveLoop studyWords overWords passage).letters
  have hpending : (resolveLoop studyWords overWords .initial passage).wordBuilder = [] ↔
      (endsInLetter passage && !insideTag false passage) = false := by
    by_cases hp : passage = []
    · subst passage
      simp [resolveLoop, ResolveState.initial, endsInLetter]
    · exact resolveLoop_wordBuilder_eq_nil_iff studyWords overWords Pending.initial hp
  have hread' : sourceText (resolveAppends passage studyWords overWords) ++
      (resolveLoop studyWords overWords .initial passage).wordBuilder =
        scannedUnits passage := by
    simpa [ResolveState.initial, resolveAppends, sourceText] using hread
  rw [← hpending, ← scannedUnits_eq_self_iff]
  constructor
  · intro hkept
    -- A lost letter is a letter that the read units have and the passage lacks.
    have hcount := congrArg (List.countP isLetterUnit) hread'
    rw [List.countP_append, hkept, countP_scannedUnits,
      List.countP_eq_length.mpr hletters] at hcount
    have hnil : (resolveLoop studyWords overWords .initial passage).wordBuilder = [] :=
      List.length_eq_zero_iff.mp (by omega)
    rw [hnil, List.append_nil, hkept] at hread'
    exact ⟨hnil, hread'.symm⟩
  · rintro ⟨hnil, hself⟩
    rw [hnil, List.append_nil, hself] at hread'
    exact hread'

/-- The passage {lit}`cat` is lost whole: no unit behind it flushes the word. -/
theorem resolvePassage_loses_final_word :
    sourceText (resolveAppends (jstr "cat") [] []) = [] ∧
      sourceText (resolveAppends (jstr "cat") [] []) ≠ jstr "cat" := by
  decide

end HtmlUtil
end TestAio
