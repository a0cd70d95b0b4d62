import TestAio.Data.Meanings

/-!
# The meanings in the word table

{lit}`WordTemplate.getContext` prepares the lines of every study word, and
{lit}`WordTableTemplate.parseWordTranslate` puts each line into a copy of the first row of a
table, which it writes as XML and reads again.  An ampersand has to be written as a reference
once, since it is read once.

Main results:

- Theorem {lit}`translate_rows`: a meaning that is one line becomes one row.
- Theorem {lit}`meaning_kept_iff`: the row shows the meaning exactly when it has no ampersand.

Current gaps:

- The XML library is a parameter.  A row is known by what filling it and reading its field
  give.
-/

namespace TestAio
namespace Template

/-- The entry of {lit}`words` that {lit}`getContext` builds for a study word. -/
structure WordEntry where
  index : Nat
  word : JString
  symbol : JString
  translates : List JString

/-- The loop body of {lit}`getContext` for a study word. -/
def wordEntry (i : Nat) (word : WordNode) : WordEntry where
  index := i + 1
  word := word.word
  symbol := word.englishPronunciation
  translates := ((splitBreaks word.meaning).filter isMeaning).map escape

/-- The {lit}`words` of {lit}`getContext`, from the records of {lit}`studyWordList`. -/
def getContextWords (wordsArray : List WordRecord) : List WordEntry :=
  (wordsArray.map WordNode.fromJson).mapIdx wordEntry

section Rows

variable {Row : Type}

/-- {lit}`WordTableTemplate.parseWordTranslate`: the rows of the table afterwards, and none
for a table without a row.  {lit}`unmarshallFromTemplate` fills a row that was written as
XML. -/
def parseWordTranslate (unmarshallFromTemplate : Row → JString → Row) :
    List Row → List JString → Option (List Row)
  | [], _ => none
  | tr :: _, translates => some (translates.map (unmarshallFromTemplate tr))

variable {unmarshallFromTemplate : Row → JString → Row} {translateText : Row → JString}
  {tr : Row}

/-- A meaning that is one line becomes one row, which shows the meaning escaped once. -/
theorem translate_rows (others : List Row) {Carried : JString → Prop}
    (hparse : ∀ text, Carried text → 60 ∉ text → 62 ∉ text →
      translateText (unmarshallFromTemplate tr (escape text)) = text)
    {json : WordRecord} {meaning : JString} (hmeaning : json.meaning = some meaning)
    (hcarried : Carried (escape meaning)) (h60 : 60 ∉ meaning) (h62 : 62 ∉ meaning)
    (h10 : 10 ∉ meaning) (hkept : isMeaning meaning = true) (i : Nat) :
    ∃ row, parseWordTranslate unmarshallFromTemplate (tr :: others)
        (wordEntry i (WordNode.fromJson json)).translates = some [row] ∧
      translateText row = escape meaning := by
  have hlines : (wordEntry i (WordNode.fromJson json)).translates = [escape (escape meaning)] :=
    congrArg (List.map escape) (meanings_eq_singleton hmeaning h60 h10 hkept).2
  rw [hlines]
  exact ⟨_, rfl, hparse _ hcarried (not_mem_escape (by decide) h60)
    (not_mem_escape (by decide) h62)⟩

/-- The row shows the meaning exactly when it has no ampersand.  The parser keeps the texts that
XML can carry; a carriage return is not among them. -/
theorem meaning_kept_iff (unmarshallFromTemplate : Row → JString → Row)
    (translateText : Row → JString) (tr : Row) (others : List Row) {Carried : JString → Prop}
    (hparse : ∀ text, Carried text → 60 ∉ text → 62 ∉ text →
      translateText (unmarshallFromTemplate tr (escape text)) = text)
    (wordsArray : List WordRecord) (i : Nat) (json : WordRecord)
    (hjson : wordsArray[i]? = some json) (meaning : JString)
    (hmeaning : json.meaning = some meaning) (hcarried : Carried (escape meaning))
    (h60 : 60 ∉ meaning) (h62 : 62 ∉ meaning)
    (h10 : 10 ∉ meaning) (hblank : isBlank meaning = false)
    (hstar : startsWith meaning (jstr "*") = false) :
    ∃ entry row, (getContextWords wordsArray)[i]? = some entry ∧
      parseWordTranslate unmarshallFromTemplate (tr :: others) entry.translates = some [row] ∧
      (translateText row = meaning ↔ 38 ∉ meaning) := by
  have hkept : isMeaning meaning = true := by
    rw [isMeaning, hblank, hstar]
    rfl
  rcases translate_rows others hparse hmeaning hcarried h60 h62 h10 hkept i with ⟨row, hrow, htext⟩
  refine ⟨wordEntry i (WordNode.fromJson json), row, ?_, hrow, ?_⟩
  · rw [getContextWords, List.getElem?_mapIdx, List.getElem?_map, hjson]
    rfl
  · rw [htext]
    exact escape_eq_self_iff meaning

end Rows

/-! ## A parser that reads the reference of the ampersand -/

/-- The text that an XML parser reads where {lit}`&amp;` is the only reference. -/
def unescape (text : JString) : JString :=
  Library.Splitting.replace (jstr "&amp;") [38] text

/-- Reading undoes one level of escaping. -/
theorem unescape_escape (text : JString) : unescape (escape text) = text := by
  induction text with
  | nil => rfl
  | cons c text ih =>
      rw [escape_cons]
      by_cases hc : c = 38
      · rw [if_pos hc, hc]
        exact congrArg (38 :: ·) ih
      · have hno : ¬ jstr "&amp;" <+: c :: escape text :=
          fun h => hc (List.cons_prefix_cons.mp h).1.symm
        rw [if_neg hc, List.singleton_append, unescape, Library.Splitting.replace,
          Library.Splitting.replaceFrom, if_neg hno]
        exact congrArg (c :: ·) ih

/-- The record of a word that means {lit}`cats & dogs`. -/
def petsRecord : WordRecord where
  word := jstr "pets"
  meaning := some (jstr "cats & dogs")
  englishPronunciation := none
  americaPronunciation := none
  sentence := none

/-- A text of printable characters, which XML can carry. -/
def Printable (text : JString) : Prop :=
  ∀ c ∈ text, 32 ≤ c ∧ c < 127

instance (text : JString) : Decidable (Printable text) :=
  List.decidableBAll (fun c => 32 ≤ c ∧ c < 127) text

/-- The row for {lit}`cats & dogs` shows the reference. -/
theorem pets_not_kept :
    (∀ text : JString, 60 ∉ text → 62 ∉ text → unescape (escape text) = text) ∧
      parseWordTranslate (fun _ => unescape) [[]]
          (wordEntry 0 (WordNode.fromJson petsRecord)).translates =
        some [jstr "cats &amp; dogs"] ∧
      jstr "cats &amp; dogs" ≠ jstr "cats & dogs" :=
  ⟨fun text _ _ => unescape_escape text, by decide +kernel, by decide +kernel⟩

/-- The meaning has an ampersand, and its row shows something else. -/
theorem meaning_kept_iff_pets :
    ∃ entry row, (getContextWords [petsRecord])[0]? = some entry ∧
      parseWordTranslate (fun _ => unescape) [[]] entry.translates = some [row] ∧
      (id row = jstr "cats & dogs" ↔ 38 ∉ jstr "cats & dogs") :=
  meaning_kept_iff (fun _ => unescape) id [] []
    (fun text (_ : Printable text) _ _ => unescape_escape text)
    [petsRecord] 0 petsRecord rfl (jstr "cats & dogs") rfl (by decide +kernel) (by decide +kernel)
    (by decide +kernel) (by decide +kernel) (by decide +kernel) (by decide +kernel)

end Template
end TestAio
