import TestAio.Util.DocUtil.Footnotes
import TestAio.Util.DocUtil.ReadRuns

/-!
# The two renderers mark the same words

{lit}`HtmlUtil.resolvePassage` compares the runs of letters of an article with the listed
words.  {lit}`DocUtil.parsePassage` searches for the letters of a word, and looks at the
first place only: a longer run that holds them there hides the word behind it.

Main results:

- Theorem {lit}`intended_iff_noneHidden`: the Word renderer gives every token the intended
  style exactly when no word is hidden.
- Theorem {lit}`same_marks_iff`: the renderers mark the same words exactly when no word is
  hidden.

Current gaps:

- None.
-/

namespace TestAio
namespace SameMarks

open Library Library.Marking Library.Tokens MarkedArticle HtmlUtil DocUtil

/-- No listed word stands behind a run that holds its letters, with no marked word between
the two.  Behind a word of the first list the second list is looked through anew. -/
structure NoneHidden (bolds italics : List JString) (passage : JString) : Prop where
  bold : Unshadowed (· <:+: ·) (· ∈ bolds) (· ∈ bolds) (articleTokens passage)
  italic : Between (· ∈ bolds) (Unshadowed (· <:+: ·) (· ∈ italics) (· ∈ italics))
    (articleTokens passage)

/-- What no pass has marked is plain, and so in no other style. -/
theorem plainRest_rest {style : Style} (hstyle : style ≠ .plain) :
    Rest plainRest style (fun _ => Style.plain) fun _ => True :=
  rest_styled fun _ => hstyle.symm

variable {bolds overWords : List WordNode} {passage : JString}

/-- The Word renderer gives every token the intended style exactly when no word is
hidden. -/
theorem intended_iff_noneHidden {marks : List Mark}
    (h : boldPass bolds overWords (articleTokens passage) marks) :
    marks = styled (intended (wordsOf bolds) (wordsOf overWords)) (articleTokens passage) ↔
      NoneHidden (wordsOf bolds) (wordsOf overWords) passage := by
  have hitalic : Rest (italicPass overWords) .bold _ _ :=
    (plainRest_rest (by simp)).pass (by simp) (plainRest_rest (by simp)).style_ne
  refine (h.styles_iff hitalic).trans ⟨fun h => ⟨h.1, fun part hpart hfree => ?_⟩,
    fun h => ⟨h.bold, fun part hpart hfree => ⟨?_, fun _ _ _ => trivial⟩⟩⟩
  · exact (h.2 part hpart hfree).1
  · exact h.italic part hpart hfree

/-- The pieces of the Word renderer and those of the HTML renderer are the same, up to the
cuts in plain text, exactly when no word is hidden. -/
theorem same_marks_iff (env : Env) (hpassage : PlainArticle passage)
    (hbolds : ∀ word ∈ bolds, IsWord isLetterUnit word.word)
    (hover : ∀ word ∈ overWords, IsWord isLetterUnit word.word) (indent : Bool) :
    ∃ enough, ∀ fuel, enough ≤ fuel → ∃ progress,
      startParse env fuel [.text passage] bolds overWords indent = .ok progress ∧
      (mergePlain ((wordPieces progress).map Piece.readSpaces) =
          mergePlain ((htmlPieces passage (wordsOf bolds) overWords).map Piece.readSpaces) ↔
        NoneHidden (wordsOf bolds) (wordsOf overWords) passage) := by
  have hne : passage ≠ [] := by
    rintro rfl
    rcases hpassage.ends with ⟨c, hc, -⟩
    simp at hc
  have hstudy : ∀ word ∈ wordsOf bolds, IsWord isLetterUnit word := by
    intro word hword
    rcases List.mem_map.mp hword with ⟨node, hnode, rfl⟩
    exact hbolds node hnode
  refine ⟨3 * passage.length + 2, fun fuel hfuel => ?_⟩
  rcases exists_startParse env hne hpassage.noBreak hbolds hover indent hfuel with
    ⟨progress, marks, hprogress, hpass, hreadings⟩
  refine ⟨progress, hprogress, ?_⟩
  have htokens : marks.map Prod.fst = articleTokens passage :=
    hpass.tokens fun _ _ h => h.tokens (@plainRest_rest .italic (by simp)).tokens
  have hsame : marks.map Prod.fst =
      (styled (intended (wordsOf bolds) (wordsOf overWords)) (articleTokens passage)).map
        Prod.fst := by
    rw [htokens, styled, List.map_map]
    exact (List.map_id _).symm
  rw [mergePlain_eq_iff, hreadings, htmlPieces_readings hpassage hstudy hover,
    readings_eq_iff hsame (htokens ▸ nil_not_mem_articleTokens passage)]
  exact intended_iff_noneHidden hpass

theorem isWord_cat : IsWord isLetterUnit (jstr "cat") :=
  ⟨by decide, List.all_eq_true.mp (by decide)⟩

theorem plainArticle_cats : PlainArticle (jstr "cats cat.") := by
  have hall : (jstr "cats cat.").all (fun c => !isHighSurrogate c) = true := by decide
  refine ⟨by decide, by decide, fun c hc => ?_, 46, by decide, by decide⟩
  simpa using List.all_eq_true.mp hall c hc

/-- A study word behind a longer run with its letters. -/
theorem same_marks_iff_cats :
    ∃ enough, ∀ fuel, enough ≤ fuel → ∃ progress,
      startParse Env.offline fuel [.text (jstr "cats cat.")] [catWord] [] true = .ok progress ∧
      (mergePlain ((wordPieces progress).map Piece.readSpaces) =
          mergePlain ((htmlPieces (jstr "cats cat.") [jstr "cat"] []).map Piece.readSpaces) ↔
        NoneHidden [jstr "cat"] [] (jstr "cats cat.")) :=
  same_marks_iff Env.offline plainArticle_cats
    (by rintro word hword; rw [List.mem_singleton.mp hword]; exact isWord_cat) (by simp) true

/-- An article in which nothing is found is one plain run. -/
theorem startParse_unmarked {env : Env} {fuel : Nat} {value : JString}
    {bolds italics : List WordNode}
    {indent : Bool} (h : cutText fuel value bolds italics = .ok [{ value := value }]) :
    startParse env (fuel + 1) [.text value] bolds italics indent =
      .ok ((ParseProgress.new indent).addRun (genR value (genRpr false false) false false)) := by
  simp only [startParse, parseHtmlNode, List.foldlM_cons, List.foldlM_nil, h, Effects.ok_bind]
  rfl

/-- The HTML renderer marks the study word, the Word renderer does not. -/
theorem cats_cat_differ :
    PlainArticle (jstr "cats cat.") ∧ IsWord isLetterUnit catWord.word ∧
      ∃ progress,
        startParse Env.offline 30 [.text (jstr "cats cat.")] [catWord] [] true = .ok progress ∧
        mergePlain ((wordPieces progress).map Piece.readSpaces) = [.plain (jstr "cats cat.")] ∧
        mergePlain ((htmlPieces (jstr "cats cat.") [jstr "cat"] []).map Piece.readSpaces) =
          [.plain (jstr "cats "), .bold (jstr "cat"), .plain (jstr ".")] := by
  refine ⟨plainArticle_cats, isWord_cat, _, startParse_unmarked (by decide +kernel), ?_, ?_⟩
  · decide +kernel
  · decide +kernel

end SameMarks
end TestAio
