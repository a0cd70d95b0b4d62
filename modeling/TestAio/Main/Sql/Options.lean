import TestAio.Library.Filling
import TestAio.Main.Sql.Translates

/-!
# Filling up the options of every word

The translations of a word are its first options.  Each word then draws translations of all
words at random until it has eight options, and takes those it does not have yet; the words
are filled in parallel.

Main results:

- Theorem {lit}`fillStep_iff`: the filling is that of lists from a pool.
- Theorem {lit}`canFill_iff`: the words for which the filling never gets stuck and ends with
  eight distinct options each.

Current gaps:

- The final shuffle and the printing are not modelled.
-/

namespace TestAio
namespace SqlMain

open Library

/-- {lit}`TranslateOption`. -/
structure TranslateOption where
  translate : JString
  need : Bool
  selected : Bool
deriving DecidableEq

/-! ## The options in front of the filling -/

/-- The options of a word: at most eight of its own translations. -/
def ownOptions (translates : List JString) : List TranslateOption :=
  (translates.take 8).map fun it => ⟨it, true, false⟩

/-- The list {lit}`total` and the options of every word, for the meanings of the words. -/
def buildOptions (meanings : List JString) :
    Except Failure (List JString × List (List TranslateOption)) :=
  (meanings.mapM splitTranslates).map fun lists => (lists.flatten, lists.map ownOptions)

/-- The options of a word are some of its own translations, all of which are in
{lit}`total`. -/
theorem mem_of_buildOptions {meanings total : List JString}
    {words : List (List TranslateOption)} (h : buildOptions meanings = .ok (total, words)) :
    ∀ options ∈ words, options.length ≤ 8 ∧ options.map TranslateOption.translate ⊆ total := by
  rcases Effects.map_eq_ok_iff.mp h with ⟨lists, -, hlists⟩
  cases hlists
  intro options hoptions
  rcases List.mem_map.mp hoptions with ⟨translates, htranslates, rfl⟩
  have hkeys : (ownOptions translates).map TranslateOption.translate = translates.take 8 := by
    rw [ownOptions, List.map_map]
    exact List.map_id _
  constructor
  · rw [ownOptions, List.length_map, List.length_take]
    omega
  · rw [hkeys]
    intro translate htranslate
    exact List.mem_flatten.mpr ⟨translates, htranslates, List.mem_of_mem_take htranslate⟩

theorem words_eq_nil_iff {meanings total : List JString}
    {words : List (List TranslateOption)} (h : buildOptions meanings = .ok (total, words)) :
    words = [] ↔ meanings = [] := by
  rcases Effects.map_eq_ok_iff.mp h with ⟨lists, hlists, hpair⟩
  cases hpair
  have hlength := (Effects.mapM_eq_ok_iff.mp hlists).length_eq
  rw [List.map_eq_nil_iff, ← List.length_eq_zero_iff, ← hlength, List.length_eq_zero_iff]

/-! ## The filling -/

/-- {lit}`containsNot`. -/
def containsNot (meanings : List TranslateOption) (translate : JString) : Bool :=
  meanings.all fun meaning => meaning.translate != translate

/-- A turn of {lit}`while(true)` in the loop of some word: an element of {lit}`total` is drawn
and taken if the word does not have it. -/
inductive FillStep (total : List JString) :
    List (List TranslateOption) → List (List TranslateOption) → Prop
  | draw {words : List (List TranslateOption)} {w index : Nat}
      {meanings : List TranslateOption} {translate : JString} (hw : words[w]? = some meanings)
      (hshort : meanings.length < 8) (hindex : total[index]? = some translate) :
      FillStep total words (words.set w
        (if containsNot meanings translate then meanings ++ [⟨translate, false, false⟩]
        else meanings))

/-- Whenever a word draws, some element of {lit}`total` is not among its options; and when no
word draws any more, each has eight options with different translations. -/
structure CanFill (total : List JString) (words : List (List TranslateOption)) : Prop where
  progress : ∀ words', Relation.ReflTransGen (FillStep total) words words' →
    ∀ meanings ∈ words', meanings.length < 8 →
      ∃ translate ∈ total, containsNot meanings translate = true
  distinct : ∀ words', Relation.ReflTransGen (FillStep total) words words' →
    (∀ meanings ∈ words', ¬ meanings.length < 8) → ∀ meanings ∈ words',
      meanings.length = 8 ∧ (meanings.map TranslateOption.translate).Nodup

/-! ## The filling as one from a pool -/

/-- A drawn translation is kept as an option that is not needed. -/
def optionShape : Filling.Shape JString TranslateOption where
  key := TranslateOption.translate
  make := fun translate => ⟨translate, false, false⟩
  key_make := fun _ => rfl

theorem containsNot_iff (meanings : List TranslateOption) (translate : JString) :
    containsNot meanings translate = true ↔
      translate ∉ meanings.map TranslateOption.translate := by
  rw [containsNot, List.all_eq_true, List.mem_map]
  constructor
  · intro h hmem
    rcases hmem with ⟨meaning, hmeaning, hkey⟩
    have hne := h meaning hmeaning
    rw [bne_iff_ne] at hne
    exact hne hkey
  · intro h meaning hmeaning
    rw [bne_iff_ne]
    intro hkey
    exact h ⟨meaning, hmeaning, hkey⟩

theorem take_eq (meanings : List TranslateOption) (translate : JString) :
    Filling.take optionShape meanings translate =
      if containsNot meanings translate then meanings ++ [⟨translate, false, false⟩]
      else meanings := by
  unfold Filling.take
  by_cases h : translate ∈ meanings.map TranslateOption.translate
  · rw [if_neg (mt (containsNot_iff meanings translate).mp (not_not.mpr h))]
    exact if_pos h
  · rw [if_pos ((containsNot_iff meanings translate).mpr h)]
    exact if_neg h

/-- A draw of the program is a draw from the pool {lit}`total`. -/
theorem fillStep_iff {total : List JString} {words words' : List (List TranslateOption)} :
    FillStep total words words' ↔ Filling.Step optionShape total 8 words words' := by
  constructor
  · intro h
    rcases h with ⟨hw, hshort, hindex⟩
    rw [← take_eq]
    exact Filling.Step.draw hw hshort (List.mem_of_getElem? hindex)
  · intro h
    rcases h with ⟨hw, hshort, ha⟩
    rcases List.mem_iff_getElem?.mp ha with ⟨index, hindex⟩
    rw [take_eq]
    exact FillStep.draw hw hshort hindex

theorem canFill_iff_fills {total : List JString} {words : List (List TranslateOption)} :
    CanFill total words ↔ Filling.Fills optionShape total 8 words := by
  have hstep : FillStep total = Filling.Step optionShape total 8 := by
    ext s s'
    exact fillStep_iff
  have hnew : ∀ meanings translate, containsNot meanings translate = true ↔
      translate ∉ meanings.map optionShape.key := containsNot_iff
  constructor
  · intro h
    have hprogress := h.progress
    have hdistinct := h.distinct
    simp only [hstep, hnew, Nat.not_lt] at hprogress hdistinct
    exact ⟨hprogress, hdistinct⟩
  · intro h
    constructor
    · simp only [hstep, hnew]
      exact h.progress
    · simp only [hstep, Nat.not_lt]
      exact h.distinct

/-! ## Which words can be filled -/

/-- The filling never gets stuck and gives every word eight distinct options exactly if no
word repeats a translation among its first eight and, unless there are no words, the
translations of all words contain eight distinct ones. -/
theorem canFill_iff {meanings total : List JString} {words : List (List TranslateOption)}
    (h : buildOptions meanings = .ok (total, words)) :
    CanFill total words ↔
      (meanings = [] ∨ 8 ≤ total.dedup.length) ∧
        ∀ options ∈ words, (options.map TranslateOption.translate).Nodup := by
  have hgood : ∀ options ∈ words, Filling.Good optionShape total 8 options := by
    intro options hoptions
    rcases mem_of_buildOptions h options hoptions with ⟨hlength, hsubset⟩
    exact ⟨hlength, hsubset⟩
  rw [canFill_iff_fills, Filling.fills_iff hgood, words_eq_nil_iff h]
  rfl

/-- Three words with eight translations among them, so that each one draws. -/
theorem canFill_three_words :
    ∃ total words, buildOptions [jstr "1\n2\n3\n4", jstr "5\n1\n6", jstr "7\n8"] =
        .ok (total, words) ∧ words.map List.length = [4, 3, 2] ∧ CanFill total words := by
  have hbuild : buildOptions [jstr "1\n2\n3\n4", jstr "5\n1\n6", jstr "7\n8"] =
      .ok (translations (jstr "1\n2\n3\n4\n5\n1\n6\n7\n8"),
        [ownOptions (translations (jstr "1\n2\n3\n4")), ownOptions (translations (jstr "5\n1\n6")),
          ownOptions (translations (jstr "7\n8"))]) := by
    decide
  refine ⟨_, _, hbuild, by decide, (canFill_iff hbuild).mpr ⟨.inr (by decide), by decide⟩⟩

/-- The only word of the program has an empty meaning, so there is nothing to draw. -/
theorem not_canFill_empty_meaning :
    buildOptions [jstr ""] = .ok ([], [[]]) ∧ ¬ CanFill [] [[]] := by
  apply And.intro (by decide)
  intro h
  rcases h.progress [[]] Relation.ReflTransGen.refl [] List.mem_cons_self (by decide) with
    ⟨translate, htranslate, -⟩
  exact List.not_mem_nil htranslate

end SqlMain
end TestAio
