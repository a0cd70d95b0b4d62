import TestAio.Data.WordNode
import TestAio.Java.Pattern
import TestAio.Library.Alternatives

/-!
# The meanings of a vocabulary entry

The part of {lit}`net.cjsah.data.WordNode` that reads an entry from its JSON record and cuts
its meaning into lines.

Main results:

- Theorem {lit}`escape_eq_self_iff`: escaping changes exactly the texts with an ampersand.
- Theorem {lit}`meanings_eq_singleton`: the meaning of a record without markup and line breaks
  is escaped once and stays one line.

Current gaps:

- A record has a word, and its sentences are given as they are read.
-/

namespace TestAio

open Library

/-- The JSON record that {lit}`WordNode.fromJson` reads; a field may be absent. -/
structure WordRecord where
  word : JString
  meaning : Option JString
  englishPronunciation : Option JString
  americaPronunciation : Option JString
  sentence : Option (List Sentence)

/-- {lit}`text.replace("&", "&amp;")`. -/
def escape (text : JString) : JString :=
  Splitting.replace [38] (jstr "&amp;") text

/-- {lit}`text.replaceAll("(<br/>|<br>)", "")`. -/
def removeBreaks (text : JString) : JString :=
  Alternatives.replace [jstr "<br/>", jstr "<br>"] [] text

/-- {lit}`text.split("(<br/>|\\n)")`.  Empty pieces at the end are dropped when there was
something to split at. -/
def splitBreaks (text : JString) : List JString :=
  let pieces := Alternatives.split [jstr "<br/>", jstr "\n"] text
  if pieces.length = 1 then pieces else pieces.rdropWhile List.isEmpty

/-- The filter {lit}`!it.trim().isEmpty() && !it.startsWith("*")`. -/
def isMeaning (it : JString) : Bool :=
  !isBlank it && !startsWith it (jstr "*")

/-- {lit}`WordNode.getMeanings()`, as the constructor computes it. -/
def WordNode.meanings (word : WordNode) : List JString :=
  (splitBreaks word.meaning).filter isMeaning

/-- {lit}`WordNode.fromJson`. -/
def WordNode.fromJson (json : WordRecord) : WordNode where
  word := json.word
  meaning := removeBreaks (escape (json.meaning.getD []))
  englishPronunciation := json.englishPronunciation.getD []
  americaPronunciation := json.americaPronunciation.getD []
  sentence := json.sentence

/-! ## Escaping -/

@[simp]
theorem escape_nil : escape [] = [] :=
  rfl

theorem escape_cons (c : JChar) (text : JString) :
    escape (c :: text) = (if c = 38 then jstr "&amp;" else [c]) ++ escape text := by
  by_cases hc : c = 38
  · rw [if_pos hc, escape, Splitting.replace, Splitting.replaceFrom,
      if_pos (List.cons_prefix_cons.mpr ⟨hc.symm, List.nil_prefix⟩)]
    rfl
  · rw [if_neg hc, escape, Splitting.replace, Splitting.replaceFrom,
      if_neg fun h => hc (List.cons_prefix_cons.mp h).1.symm]
    rfl

/-- An ampersand is written as five units. -/
theorem length_escape (text : JString) :
    (escape text).length = text.length + 4 * text.count 38 := by
  induction text with
  | nil => rfl
  | cons c text ih =>
      rw [escape_cons, List.length_append, ih, List.length_cons, List.count_cons]
      by_cases hc : c = 38
      · rw [if_pos hc, if_pos (beq_iff_eq.mpr hc)]
        have hlength : (jstr "&amp;").length = 5 := rfl
        omega
      · rw [if_neg hc, if_neg (by simpa using hc), List.length_singleton]
        omega

/-- Escaping keeps exactly the texts without an ampersand. -/
theorem escape_eq_self_iff (text : JString) : escape text = text ↔ 38 ∉ text := by
  constructor
  · intro h
    have hlength := length_escape text
    rw [h] at hlength
    exact List.count_eq_zero.mp (by omega)
  · intro h
    exact Splitting.replace_of_not_infix _ fun hoccurs =>
      h (hoccurs.subset List.mem_cons_self)

/-- Escaping brings only the units of the reference. -/
theorem not_mem_escape {c : JChar} {text : JString} (hc : c ∉ jstr "&amp;") (h : c ∉ text) :
    c ∉ escape text := by
  induction text with
  | nil => exact h
  | cons d text ih =>
      have htail := ih fun hmem => h (List.mem_cons_of_mem _ hmem)
      rw [escape_cons]
      intro hmem
      rcases List.mem_append.mp hmem with hmem | hmem
      · split_ifs at hmem
        · exact hc hmem
        · exact h (List.mem_singleton.mp hmem ▸ List.mem_cons_self)
      · exact htail hmem

/-- Escaping leaves a text blank or not. -/
theorem isBlank_escape (text : JString) : isBlank (escape text) = isBlank text := by
  rw [Bool.eq_iff_iff, isBlank_iff, isBlank_iff]
  induction text with
  | nil => rfl
  | cons c text ih =>
      rw [escape_cons, List.forall_mem_cons, List.forall_mem_append, ih]
      refine and_congr_left fun _ => ?_
      by_cases hc : c = 38
      · rw [if_pos hc, hc]
        exact ⟨fun h => h 38 List.mem_cons_self, fun h => absurd h (by decide)⟩
      · rw [if_neg hc, List.forall_mem_singleton]

theorem startsWith_escape (text : JString) :
    startsWith (escape text) (jstr "*") = startsWith text (jstr "*") := by
  cases text with
  | nil => rfl
  | cons c text =>
      rw [escape_cons]
      by_cases hc : c = 38
      · rw [if_pos hc, hc]
        rfl
      · rw [if_neg hc]
        rfl

/-! ## Lines -/

theorem not_infix_of_not_mem {c : JChar} {word text : JString} (hc : c ∈ word) (h : c ∉ text) :
    ¬ word <:+: text :=
  fun hoccurs => h (hoccurs.subset hc)

/-- A text without markup keeps its breaks. -/
theorem removeBreaks_eq_self {text : JString} (h : 60 ∉ text) : removeBreaks text = text := by
  refine Alternatives.replace_of_not_infix [] fun word hword => ?_
  have hopen : 60 ∈ word := by
    rcases List.mem_pair.mp hword with rfl | rfl <;> exact List.mem_cons_self
  exact not_infix_of_not_mem hopen h

/-- A text without markup and line breaks is one line. -/
theorem splitBreaks_eq_singleton {text : JString} (h60 : 60 ∉ text) (h10 : 10 ∉ text) :
    splitBreaks text = [text] := by
  have hsplit : Alternatives.split [jstr "<br/>", jstr "\n"] text = [text] := by
    refine Alternatives.split_of_not_infix fun word hword => ?_
    rcases List.mem_pair.mp hword with rfl | rfl
    · exact not_infix_of_not_mem List.mem_cons_self h60
    · exact not_infix_of_not_mem List.mem_cons_self h10
  rw [splitBreaks, hsplit]
  rfl

/-- The meaning of a record without markup and line breaks is escaped once and stays one
line. -/
theorem meanings_eq_singleton {json : WordRecord} {meaning : JString}
    (hmeaning : json.meaning = some meaning) (h60 : 60 ∉ meaning) (h10 : 10 ∉ meaning)
    (hkept : isMeaning meaning = true) :
    (WordNode.fromJson json).meaning = escape meaning ∧
      (WordNode.fromJson json).meanings = [escape meaning] := by
  have h60' : 60 ∉ escape meaning := not_mem_escape (by decide) h60
  have h10' : 10 ∉ escape meaning := not_mem_escape (by decide) h10
  have hread : (WordNode.fromJson json).meaning = escape meaning := by
    rw [WordNode.fromJson, hmeaning, Option.getD_some]
    exact removeBreaks_eq_self h60'
  have hkept' : isMeaning (escape meaning) = true := by
    rw [isMeaning, isBlank_escape, startsWith_escape]
    exact hkept
  refine ⟨hread, ?_⟩
  rw [WordNode.meanings, hread, splitBreaks_eq_singleton h60' h10', List.filter_cons,
    if_pos hkept', List.filter_nil]

end TestAio
