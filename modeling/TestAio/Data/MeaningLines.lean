import TestAio.Data.Meanings
import TestAio.Library.Recutting

/-!
# The lines of a meaning

{lit}`WordNode.fromJson` removes the break tags of a meaning, and the constructor cuts what is
left at {lit}`<br/>` and at line breaks.  A tag therefore joins what it should separate.  A line
of the meaning reads as it should if no new tag forms in it and at most one of its segments is
not empty, or nothing of it is kept whether its tags are removed or not.

Main results:

- Theorem {lit}`meanings_fromJson`: the meanings are read line by line.
- Theorem {lit}`readLine_eq_iff`: the lines that read as they should.
- Theorem {lit}`meanings_eq_segments`: meanings of such lines are cut as they should be; any
  other meaning is at most by a coincidence of two lines, one of which gains a meaning.

Current gaps:

- None.
-/

namespace TestAio

open Library

/-! ## What the meanings should be -/

/-- The break tags. -/
def breakTags : List JString :=
  [jstr "<br/>", jstr "<br>"]

/-- The segments of a meaning that are kept, escaped. -/
def expectedMeanings (meaning : JString) : List JString :=
  ((Alternatives.split [jstr "<br/>", jstr "<br>", jstr "\n"] meaning).filter isMeaning).map escape

/-! ## Lines -/

/-- The lines of a meaning. -/
def meaningLines (meaning : JString) : List JString :=
  Alternatives.split [[10]] meaning

/-- The segments of a line. -/
def lineSegments (line : JString) : List JString :=
  Alternatives.split breakTags line

/-- What a line should yield. -/
def expectedLine (line : JString) : List JString :=
  (lineSegments line).filter isMeaning

/-- What a line yields. -/
def readLine (line : JString) : List JString :=
  (Alternatives.split [jstr "<br/>"] (removeBreaks line)).filter isMeaning

/-- Without its tags a line has no new tag, and it is one of its own segments, or neither it nor
one of its segments is kept. -/
def isHarmless (line : JString) : Bool :=
  !Search.contains (removeBreaks line) (jstr "<br/>") &&
    ((lineSegments line).contains (removeBreaks line) ||
      !isMeaning (removeBreaks line) && (lineSegments line).all fun s => !isMeaning s)

/-- Without its tags a line has a new tag, or it is kept although none of its segments is. -/
def isRevived (line : JString) : Bool :=
  Search.contains (removeBreaks line) (jstr "<br/>") ||
    isMeaning (removeBreaks line) && (lineSegments line).all fun s => !isMeaning s

theorem nil_not_mem_breakTags : [] ∉ breakTags := by
  decide

theorem newline_not_mem_breakTags : ∀ tag ∈ breakTags, 10 ∉ tag := by
  intro tag htag
  rcases List.mem_pair.mp htag with rfl | rfl
  · decide
  · decide

/-- Cutting at every separator is cutting the lines at the tags. -/
theorem split_eq_flatMap_lines (meaning : JString) :
    Alternatives.split [jstr "<br/>", jstr "<br>", jstr "\n"] meaning =
      (meaningLines meaning).flatMap lineSegments :=
  Alternatives.split_append_letter nil_not_mem_breakTags newline_not_mem_breakTags meaning

/-- The constructor cuts the lines without their tags. -/
theorem split_removeBreaks (meaning : JString) :
    Alternatives.split [jstr "<br/>", jstr "\n"] (removeBreaks meaning) =
      (meaningLines meaning).flatMap fun line =>
        Alternatives.split [jstr "<br/>"] (removeBreaks line) := by
  have hword : [] ∉ [jstr "<br/>"] := by decide
  have hnewline : ∀ word ∈ [jstr "<br/>"], 10 ∉ word := by
    intro word hmem
    rw [List.mem_singleton.mp hmem]
    decide
  have hcut := Alternatives.split_append_letter hword hnewline (removeBreaks meaning)
  refine hcut.trans ?_
  have hlines : Alternatives.split [[10]] (removeBreaks meaning) =
      (meaningLines meaning).map removeBreaks :=
    Alternatives.split_letter_replace nil_not_mem_breakTags newline_not_mem_breakTags meaning
  rw [hlines, List.flatMap_map]

/-! ## Escaping -/

/-- What is written for a unit. -/
def escapeUnit (c : JChar) : JString :=
  if c = 38 then jstr "&amp;" else [c]

theorem escape_eq_flatMap (text : JString) : escape text = text.flatMap escapeUnit := by
  induction text with
  | nil => rfl
  | cons c text ih => rw [escape_cons, ih, List.flatMap_cons, escapeUnit]

/-- What is written for a unit begins with it. -/
theorem exists_escapeUnit_eq (c : JChar) : ∃ rest, escapeUnit c = c :: rest := by
  unfold escapeUnit
  by_cases hc : c = 38
  · rw [if_pos hc, hc]
    exact ⟨_, rfl⟩
  · rw [if_neg hc]
    exact ⟨[], rfl⟩

theorem escape_injective {x y : JString} (h : escape x = escape y) : x = y := by
  rw [escape_eq_flatMap, escape_eq_flatMap] at h
  induction x generalizing y with
  | nil =>
      cases y with
      | nil => rfl
      | cons d y =>
          rcases exists_escapeUnit_eq d with ⟨rest, hd⟩
          rw [List.flatMap_cons, hd] at h
          cases h
  | cons c x ih =>
      rcases exists_escapeUnit_eq c with ⟨rest, hc⟩
      cases y with
      | nil =>
          rw [List.flatMap_cons, hc] at h
          cases h
      | cons d y =>
          rcases exists_escapeUnit_eq d with ⟨rest', hd⟩
          rw [List.flatMap_cons, List.flatMap_cons] at h
          have hfirst : c = d := by
            rw [hc, hd, List.cons_append, List.cons_append, List.cons.injEq] at h
            exact h.1
          rw [hfirst, List.append_cancel_left_eq] at h
          rw [hfirst, ih h]

/-- The separators have no unit that escaping touches or brings. -/
theorem spares_escapeUnit {words : List JString}
    (hwords : (words.all fun word => (jstr "&amp;").all fun d => !word.contains d) = true) :
    Alternatives.Spares words escapeUnit := by
  intro c
  unfold escapeUnit
  by_cases hc : c = 38
  · rw [if_pos hc]
    apply Or.inr
    apply And.intro (by decide)
    intro word hword
    rw [List.all_eq_true] at hwords
    have hfree : ∀ d ∈ jstr "&amp;", d ∉ word := by
      intro d hd hmem
      have hall := List.all_eq_true.mp (hwords word hword) d hd
      rw [List.contains_iff_mem.mpr hmem] at hall
      cases hall
    apply And.intro _ hfree
    rw [hc]
    exact hfree 38 List.mem_cons_self
  · rw [if_neg hc]
    exact Or.inl rfl

theorem removeBreaks_escape (text : JString) :
    removeBreaks (escape text) = escape (removeBreaks text) := by
  rw [escape_eq_flatMap, escape_eq_flatMap]
  exact Alternatives.replace_flatMap nil_not_mem_breakTags (spares_escapeUnit (by decide)) text

theorem isMeaning_escape (text : JString) : isMeaning (escape text) = isMeaning text := by
  rw [isMeaning, isBlank_escape, startsWith_escape, isMeaning]

/-- Escaping neither brings nor moves a cut. -/
theorem filter_split_escape {words : List JString} (hne : [] ∉ words)
    (hwords : (words.all fun word => (jstr "&amp;").all fun d => !word.contains d) = true)
    (text : JString) :
    (Alternatives.split words (escape text)).filter isMeaning =
      ((Alternatives.split words text).filter isMeaning).map escape := by
  have hsame : (isMeaning ∘ escape) = isMeaning := by
    ext text
    rw [Function.comp_apply, isMeaning_escape]
  have hescape : List.flatMap escapeUnit = escape := by
    ext text
    rw [escape_eq_flatMap]
  rw [escape_eq_flatMap, Alternatives.split_flatMap hne (spares_escapeUnit hwords), hescape,
    List.filter_map, hsame]

/-! ## Reading line by line -/

/-- The empty pieces at the end are no meanings. -/
theorem filter_splitBreaks (text : JString) :
    (splitBreaks text).filter isMeaning =
      (Alternatives.split [jstr "<br/>", jstr "\n"] text).filter isMeaning := by
  unfold splitBreaks
  dsimp only
  split_ifs
  · rfl
  · apply Alternatives.filter_rdropWhile
    intro piece hempty
    rw [List.isEmpty_iff.mp hempty]
    rfl

/-- The meanings are read line by line. -/
theorem meanings_fromJson (json : WordRecord) :
    (WordNode.fromJson json).meanings =
      ((meaningLines (json.meaning.getD [])).flatMap readLine).map escape := by
  have hread : (WordNode.fromJson json).meaning =
      escape (removeBreaks (json.meaning.getD [])) := removeBreaks_escape _
  rw [WordNode.meanings, hread, filter_splitBreaks,
    filter_split_escape (by decide) (by decide), split_removeBreaks, List.filter_flatMap]
  rfl

theorem expectedMeanings_eq (meaning : JString) :
    expectedMeanings meaning = ((meaningLines meaning).flatMap expectedLine).map escape := by
  rw [expectedMeanings, split_eq_flatMap_lines, List.filter_flatMap]
  rfl

/-- A piece that begins inside a tag is kept. -/
theorem isMeaning_cons_of_tag {c : JChar} (hc : c ∈ (jstr "<br/>").tail) (rest : JString) :
    isMeaning (c :: rest) = true := by
  have hplain : isTrimmed c = false ∧ c ≠ 42 := by
    have htail : (jstr "<br/>").tail = [98, 114, 47, 62] := rfl
    rw [htail, List.mem_cons, List.mem_cons, List.mem_cons, List.mem_singleton] at hc
    rcases hc with rfl | rfl | rfl | rfl
    · decide
    · decide
    · decide
    · decide
  have hblank : isBlank (c :: rest) = false := by
    rw [← Bool.not_eq_true, isBlank_iff]
    intro hall
    have hfirst := hall c List.mem_cons_self
    rw [hplain.1] at hfirst
    cases hfirst
  have hstar : startsWith (c :: rest) (jstr "*") = false := by
    rw [← Bool.not_eq_true, startsWith, List.isPrefixOf_iff_prefix]
    intro hprefix
    exact hplain.2 (List.cons_prefix_cons.mp hprefix).1.symm
  rw [isMeaning, hblank, hstar]
  rfl

/-- The pieces of a line are its segments joined, and cut at the tags that have formed. -/
theorem flatten_segments (line : JString) : (lineSegments line).flatten = removeBreaks line :=
  (Alternatives.replace_eq_flatten_split nil_not_mem_breakTags line).symm

/-- A line in which no tag forms is read as one piece. -/
theorem readLine_of_no_tag {line : JString}
    (h : Search.contains (removeBreaks line) (jstr "<br/>") = false) :
    readLine line = [removeBreaks line].filter isMeaning := by
  have hnone : ∀ word ∈ [jstr "<br/>"], ¬ word <:+: removeBreaks line := by
    intro word hword
    rw [List.mem_singleton.mp hword, ← Search.contains_iff, h]
    exact Bool.false_ne_true
  rw [readLine, Alternatives.split_of_not_infix hnone]

/-- A line in which a tag forms does not read as it should. -/
theorem readLine_ne_of_tag {line : JString}
    (h : Search.contains (removeBreaks line) (jstr "<br/>") = true) :
    readLine line ≠ expectedLine line := by
  have htag : jstr "<br/>" ≠ [] := by decide
  have hword : [] ∉ [jstr "<br/>"] := by decide
  have hjoin := Alternatives.intercalate_split htag (removeBreaks line)
  rw [readLine, expectedLine]
  rcases Alternatives.exists_split_eq hword (removeBreaks line) with ⟨q, rest, hsplit, -⟩
  cases rest with
  | nil =>
      have hpiece : q ∈ Alternatives.split [jstr "<br/>"] (removeBreaks line) := by
        rw [hsplit]
        exact List.mem_cons_self
      rw [hsplit, List.intercalate_singleton] at hjoin
      rw [Search.contains_iff, ← hjoin] at h
      exact absurd h
        (Alternatives.not_infix_of_mem_split hword hpiece (List.mem_singleton_self _))
  | cons q' rest =>
      rw [hsplit] at hjoin ⊢
      have hfree : ∀ p ∈ lineSegments line, ¬ jstr "<br/>" <:+: p := fun p hp =>
        Alternatives.not_infix_of_mem_split nil_not_mem_breakTags hp List.mem_cons_self
      have hjoined : (lineSegments line).flatten =
          (jstr "<br/>").intercalate (q :: q' :: rest) := by
        rw [flatten_segments, hjoin]
      have hkept : ∀ c ∈ (jstr "<br/>").tail, ∀ rest, isMeaning (c :: rest) = true :=
        fun c hc rest => isMeaning_cons_of_tag hc rest
      exact (Recutting.filter_ne_of_rejoined hkept htag hfree hjoined).symm

/-- The lines that read as they should. -/
theorem readLine_eq_iff (line : JString) :
    isHarmless line = true ↔ readLine line = expectedLine line := by
  rw [isHarmless, Bool.and_eq_true, Bool.not_eq_true']
  cases htag : Search.contains (removeBreaks line) (jstr "<br/>") with
  | true =>
      apply iff_of_false
      · intro h
        cases h.1
      · exact readLine_ne_of_tag htag
  | false =>
      rw [readLine_of_no_tag htag, expectedLine, ← flatten_segments,
        Recutting.filter_singleton_eq_iff rfl]
      simp only [true_and, Bool.or_eq_true, Bool.and_eq_true, List.contains_iff_mem,
        Bool.not_eq_true', List.all_eq_true]

/-- A line that is not revived yields no more meanings than it should. -/
theorem length_readLine_le {line : JString} (h : isRevived line = false) :
    (readLine line).length ≤ (expectedLine line).length := by
  rw [isRevived, Bool.or_eq_false_iff] at h
  rw [readLine_of_no_tag h.1]
  cases hjoined : isMeaning (removeBreaks line) with
  | false =>
      rw [List.filter_singleton, hjoined]
      exact Nat.zero_le _
  | true =>
      rw [hjoined, Bool.true_and, List.all_eq_false] at h
      rcases h.2 with ⟨s, hsegment, hs⟩
      rw [Bool.not_eq_true', Bool.not_eq_false] at hs
      have hmem : s ∈ expectedLine line := List.mem_filter.mpr ⟨hsegment, hs⟩
      exact (List.length_filter_le _ _).trans (List.length_pos_of_mem hmem)

/-! ## Whole meanings -/

theorem meanings_eq_expected_iff (json : WordRecord) :
    (WordNode.fromJson json).meanings = expectedMeanings (json.meaning.getD []) ↔
      (meaningLines (json.meaning.getD [])).flatMap readLine =
        (meaningLines (json.meaning.getD [])).flatMap expectedLine := by
  rw [meanings_fromJson, expectedMeanings_eq]
  exact (List.map_injective_iff.mpr fun _ _ => escape_injective).eq_iff

/-- The meanings of a record are the segments that they should be if all lines of its meaning
are harmless.  They are otherwise only if one line is revived and another one misses or changes
what this line gains. -/
theorem meanings_eq_segments (json : WordRecord) :
    ((∀ line ∈ meaningLines (json.meaning.getD []), isHarmless line = true) →
      (WordNode.fromJson json).meanings = expectedMeanings (json.meaning.getD [])) ∧
    ((WordNode.fromJson json).meanings = expectedMeanings (json.meaning.getD []) →
      (∀ line ∈ meaningLines (json.meaning.getD []), isHarmless line = true) ∨
        (∃ line ∈ meaningLines (json.meaning.getD []), isRevived line = true) ∧
          2 ≤ (meaningLines (json.meaning.getD [])).countP fun line => !isHarmless line) := by
  rw [meanings_eq_expected_iff]
  constructor
  · intro h
    exact List.flatMap_congr fun line hline => (readLine_eq_iff line).mp (h line hline)
  · intro heq
    rcases Recutting.forall_or_two_le_countP readLine_eq_iff heq with hall | hcount
    · exact Or.inl hall
    · rw [or_iff_not_imp_right]
      intro hnone
      have hle : ∀ line ∈ meaningLines (json.meaning.getD []),
          (readLine line).length ≤ (expectedLine line).length := by
        intro line hline
        apply length_readLine_le
        rw [← Bool.not_eq_true]
        exact fun hrevived => hnone ⟨⟨line, hline, hrevived⟩, hcount⟩
      have hsame := (Recutting.flatMap_eq_iff_of_length_le hle).mp heq
      exact fun line hline => (readLine_eq_iff line).mpr (hsame line hline)

/-- A tag at the end of a line does no harm, and neither does a line break. -/
theorem meanings_two_lines :
    (WordNode.fromJson ⟨jstr "run", some (jstr "v. run<br>\nn. R&D"), none, none, none⟩).meanings =
      expectedMeanings (jstr "v. run<br>\nn. R&D") :=
  (meanings_eq_segments ⟨jstr "run", some (jstr "v. run<br>\nn. R&D"), none, none, none⟩).1 (by
    have hlines : meaningLines (jstr "v. run<br>\nn. R&D") =
        [jstr "v. run<br>", jstr "n. R&D"] := by
      decide +kernel
    intro line hline
    rw [Option.getD_some, hlines] at hline
    rcases List.mem_pair.mp hline with rfl | rfl
    · decide +kernel
    · decide +kernel)

/-- A tag between two meanings joins them, and the removal of tags can form a new one. -/
theorem meanings_joined :
    (WordNode.fromJson ⟨jstr "run", some (jstr "run<br>walk"), none, none, none⟩).meanings =
        [jstr "runwalk"] ∧
      expectedMeanings (jstr "run<br>walk") = [jstr "run", jstr "walk"] ∧
      (WordNode.fromJson ⟨jstr "run", some (jstr "a<b<br>r/>c"), none, none, none⟩).meanings =
        [jstr "a", jstr "c"] ∧
      expectedMeanings (jstr "a<b<br>r/>c") = [jstr "a<b", jstr "r/>c"] := by
  decide +kernel

-- Two lines that read wrongly can make up for each other.
example : (WordNode.fromJson
    ⟨jstr "run", some (jstr "*a<br> *b\n <br>*b"), none, none, none⟩).meanings =
      expectedMeanings (jstr "*a<br> *b\n <br>*b") ∧
    isHarmless (jstr "*a<br> *b") = false ∧ isHarmless (jstr " <br>*b") = false := by
  decide +kernel

end TestAio
