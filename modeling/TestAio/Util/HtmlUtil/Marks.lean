import TestAio.Util.MarkedArticle
import TestAio.Util.HtmlUtil.FootnoteNumbers
import TestAio.Util.HtmlUtil.Segments

/-!
# The words the HTML renderer marks

The tokeniser of {lit}`resolvePassage` writes every token of an article in the style it
should have: it compares whole runs of letters with the listed words.

Main results:

- Theorem {lit}`resolveAppends_eq_writeTokens`: the loop writes the tokens of the article.
- Theorem {lit}`htmlPieces_readings`: the pieces read like the article in the intended
  styles.

Current gaps:

- None.
-/

namespace TestAio
namespace HtmlUtil

open Library Library.Marking Library.Numbering Library.Tokens MarkedArticle

/-- The piece that a group of calls writes. -/
def Append.piece : Append → Piece
  | .codePoint c => .plain (codePointUnits c)
  | .nbsp => .plain (codePointUnits 160)
  | .word w => .plain w
  | .bold w => .bold w
  | .italic w num => .italic w num

/-- The pieces {lit}`resolvePassage` emits. -/
def htmlPieces (passage : JString) (studyWords : List JString) (overWords : List WordNode) :
    List Piece :=
  (resolveAppends passage studyWords overWords).map Append.piece

/-- An article of plain text: no tag, no surrogate, and it ends behind its last word. -/
structure PlainArticle (passage : JString) : Prop where
  noTag : 60 ∉ passage
  noBreak : 10 ∉ passage
  noSurrogate : ∀ c ∈ passage, isHighSurrogate c = false
  ends : ∃ c ∈ passage.getLast?, isLetterUnit c = false

/-! ## Writing tokens -/

/-- What the loop writes for a sequence of tokens. -/
def writeTokens (studyWords : List JString) (overWords : List WordNode) :
    List WordNode → List JString → List Append
  | _, [] => []
  | nodes, token :: rest =>
      if token.all isLetterUnit then
        (emitWord studyWords overWords nodes token).1 ::
          writeTokens studyWords overWords (emitWord studyWords overWords nodes token).2 rest
      else
        token.map separator ++ writeTokens studyWords overWords nodes rest

variable {studyWords : List JString} {overWords : List WordNode}

/-- Without a {lit}`<` no tag starts. -/
theorem insideTag_of_not_mem {text : JString} (h : 60 ∉ text) : insideTag false text = false := by
  induction text with
  | nil => rfl
  | cons c text ih =>
      have hne : c ≠ 60 := fun hc => h (hc ▸ List.mem_cons_self)
      have hstep : insideTag false (c :: text) = insideTag false text := by
        rw [insideTag, List.foldl_cons, if_neg hne, ite_self]
        rfl
      rw [hstep, ih fun hmem => h (List.mem_cons_of_mem _ hmem)]

theorem writeSegments_separators (nodes : List WordNode) (text : JString)
    (rest : List Segment) :
    writeSegments studyWords overWords nodes (text.map .separator ++ rest) =
      text.map separator ++ writeSegments studyWords overWords nodes rest := by
  induction text with
  | nil => rfl
  | cons c text ih => exact congrArg (separator c :: ·) ih

/-- Where nothing opens a tag the segments are the tokens. -/
theorem writeSegments_segments {nodes : List WordNode} {ts : List JString}
    (h : ∀ token ∈ ts, 60 ∉ token) :
    writeSegments studyWords overWords nodes (segments false ts) =
      writeTokens studyWords overWords nodes ts := by
  induction ts generalizing nodes with
  | nil => rfl
  | cons token ts ih =>
      have htail := fun nodes => @ih nodes fun t ht => h t (List.mem_cons_of_mem _ ht)
      rw [segments, if_neg Bool.false_ne_true, writeTokens]
      split
      · rw [writeSegments, htail]
      · rw [insideTag_of_not_mem (h token List.mem_cons_self), writeSegments_separators, htail]

/-- The loop writes the tokens of the article. -/
theorem resolveAppends_eq_writeTokens {passage : JString} (hpassage : PlainArticle passage) :
    resolveAppends passage studyWords overWords =
      writeTokens studyWords overWords [] (articleTokens passage) := by
  have hends : endsInLetter ([] ++ passage) = false := by
    rcases hpassage.ends with ⟨c, hc, hletter⟩
    rw [List.nil_append, endsInLetter, Option.mem_def.mp hc]
    exact hletter
  have htag : ∀ token ∈ articleTokens passage, 60 ∉ token := by
    intro token htoken hmem
    refine hpassage.noTag ?_
    rw [← @flatten_tokens _ isLetterUnit passage]
    exact List.mem_flatten_of_mem htoken hmem
  have hbuilder := @resolveLoop_segments studyWords overWords .initial passage Pending.initial
    (hasSurrogatePair_of_not_high hpassage.noSurrogate) hends
  exact hbuilder.trans (writeSegments_segments htag)

/-! ## Numbers -/

/-- The footnoted entries are found under their words, which are distinct. -/
structure Noted (overWords : List WordNode) (nodes : List WordNode) : Prop where
  found : ∀ node ∈ nodes, findWord overWords node.word = some node
  nodup : (nodes.map WordNode.word).Nodup

/-- A footnote gets the number of its word. -/
theorem footnote_spec {nodes : List WordNode} {word : JString} {node : WordNode}
    (hnoted : Noted overWords nodes) (h : findWord overWords word = some node) :
    (footnote nodes node).1 = rank (insertNew (nodes.map WordNode.word) word) word ∧
      (footnote nodes node).2.map WordNode.word = insertNew (nodes.map WordNode.word) word ∧
        Noted overWords (footnote nodes node).2 := by
  have hword := word_of_findWord h
  -- An entry that was noted under the word is the one that is found.
  have hsame : ∀ other ∈ nodes, other.word = node.word → other = node := by
    intro other hother heq
    have hfound := hnoted.found other hother
    rw [heq, hword, h] at hfound
    exact (Option.some.inj hfound).symm
  have hmap := map_insertNew WordNode.word hsame
  rw [hword] at hmap
  have hnodup : ((insertNew nodes node).map WordNode.word).Nodup := by
    rw [hmap]
    exact nodup_insertNew hnoted.nodup word
  rw [footnote_eq]
  refine ⟨?_, hmap, ?_, hnodup⟩
  · have hget := congrArg (Option.map WordNode.word)
      (getElem?_rank (mem_insertNew_self nodes node))
    rw [← List.getElem?_map, Option.map_some, hword] at hget
    rw [← hmap, rank_of_getElem? hnodup hget]
    rfl
  · intro other hother
    rcases mem_insertNew.mp hother with hother | rfl
    · exact hnoted.found other hother
    · rw [hword]
      exact h

/-- A footnoted word keeps its number. -/
theorem emitWord_spec {nodes : List WordNode} {word : JString} (names : List JString)
    (hnoted : Noted overWords nodes)
    (hnames : collect (nodes.map WordNode.word)
      (italics [(word, intended studyWords (overWords.map WordNode.word) word)]) <+: names) :
    Noted overWords (emitWord studyWords overWords nodes word).2 ∧
      (emitWord studyWords overWords nodes word).2.map WordNode.word =
        collect (nodes.map WordNode.word)
          (italics [(word, intended studyWords (overWords.map WordNode.word) word)]) ∧
      (emitWord studyWords overWords nodes word).1.piece.readSpaces.units =
        reading names (word, intended studyWords (overWords.map WordNode.word) word) := by
  by_cases hstudy : word ∈ studyWords
  · have hemit : emitWord studyWords overWords nodes word = (.bold word, nodes) := by
      rw [emitWord, if_pos (List.contains_iff_mem.mpr hstudy)]
    rw [intended_of_mem_bolds hstudy, hemit]
    exact ⟨hnoted, rfl, rfl⟩
  · have hcontains : ¬ studyWords.contains word = true := by
      rw [List.contains_iff_mem]
      exact hstudy
    cases hfind : findWord overWords word with
    | some node =>
        have hmem : word ∈ overWords.map WordNode.word :=
          List.mem_map.mpr ⟨node, List.mem_of_find?_eq_some hfind, word_of_findWord hfind⟩
        have hemit : emitWord studyWords overWords nodes word =
            (.italic word (footnote nodes node).1, (footnote nodes node).2) := by
          rw [emitWord, if_neg hcontains, hfind]
        rcases footnote_spec hnoted hfind with ⟨hnum, hwords, hnoted'⟩
        rw [intended_of_mem_italics hstudy hmem] at hnames ⊢
        rw [hemit]
        refine ⟨hnoted', hwords, ?_⟩
        -- The number given here is still the number in the final list.
        have hrank : (footnote nodes node).1 = rank names word := by
          rw [hnum]
          exact (rank_eq_of_isPrefix hnames (mem_insertNew_self _ _)).symm
        rw [hrank]
        rfl
    | none =>
        have hnot : word ∉ overWords.map WordNode.word := by
          intro hmem
          rcases List.mem_map.mp hmem with ⟨node, hnode, hword⟩
          have hnone := List.find?_eq_none.mp hfind node hnode
          simp [hword] at hnone
        have hemit : emitWord studyWords overWords nodes word = (.word word, nodes) := by
          rw [emitWord, if_neg hcontains, hfind]
        rw [intended_of_not_mem hstudy hnot, hemit]
        refine ⟨hnoted, rfl, ?_⟩
        simp [Append.piece, Piece.readSpaces, Piece.units, reading]

/-- A copied unit reads like the unit. -/
theorem separator_units (c : JChar) :
    (separator c).piece.readSpaces.units = [.plain [readSpace c]] := by
  unfold separator
  split
  · rename_i hspace
    have hc : c = 32 := UInt16.toNat_inj.mp (beq_iff_eq.mp hspace)
    subst hc
    rfl
  · rw [Append.piece, codePointUnits_toNat]
    rfl

/-- The written tokens read like the tokens in the intended styles. -/
theorem writeTokens_reading {nodes : List WordNode} {ts : List JString} (names : List JString)
    (hstudy : ∀ word ∈ studyWords, IsWord isLetterUnit word)
    (hover : ∀ node ∈ overWords, IsWord isLetterUnit node.word) (hnoted : Noted overWords nodes)
    (hnames : collect (nodes.map WordNode.word)
      (italics (styled (intended studyWords (overWords.map WordNode.word)) ts)) <+: names) :
    (writeTokens studyWords overWords nodes ts).flatMap (fun a => a.piece.readSpaces.units) =
      (styled (intended studyWords (overWords.map WordNode.word)) ts).flatMap
        (reading names) := by
  induction ts generalizing nodes with
  | nil => rfl
  | cons token ts ih =>
      have hcons : styled (intended studyWords (overWords.map WordNode.word)) (token :: ts) =
          (token, intended studyWords (overWords.map WordNode.word) token) ::
            styled (intended studyWords (overWords.map WordNode.word)) ts := rfl
      rw [hcons, italics_cons, collect_append] at hnames
      rw [hcons, List.flatMap_cons, writeTokens]
      split
      · rcases emitWord_spec names hnoted ((isPrefix_collect _ _).trans hnames) with
          ⟨hnoted', hwords, hreading⟩
        rw [← hwords] at hnames
        rw [List.flatMap_cons, hreading, ih hnoted' hnames]
      · rename_i hall
        have hstyle : intended studyWords (overWords.map WordNode.word) token = .plain := by
          refine intended_of_not_mem (fun hmem => hall ?_) (fun hmem => hall ?_)
          · exact List.all_eq_true.mpr (hstudy token hmem).letters
          · rcases List.mem_map.mp hmem with ⟨node, hnode, rfl⟩
            exact List.all_eq_true.mpr (hover node hnode).letters
        rw [hstyle] at hnames ⊢
        rw [List.flatMap_append, ih hnoted hnames]
        congr 1
        rw [List.flatMap_map]
        simp only [separator_units, reading]
        exact List.flatMap_pure_eq_map _ _

/-- The pieces read like the article in the intended styles. -/
theorem htmlPieces_readings {passage : JString} (hpassage : PlainArticle passage)
    (hstudy : ∀ word ∈ studyWords, IsWord isLetterUnit word)
    (hover : ∀ node ∈ overWords, IsWord isLetterUnit node.word) :
    ((htmlPieces passage studyWords overWords).map Piece.readSpaces).flatMap Piece.units =
      readings (styled (intended studyWords (overWords.map WordNode.word))
        (articleTokens passage)) := by
  have hnoted : Noted overWords [] := ⟨by simp, List.nodup_nil⟩
  rw [htmlPieces, resolveAppends_eq_writeTokens hpassage, List.flatMap_map, List.flatMap_map]
  exact writeTokens_reading _ hstudy hover hnoted (List.prefix_refl _)

end HtmlUtil
end TestAio
