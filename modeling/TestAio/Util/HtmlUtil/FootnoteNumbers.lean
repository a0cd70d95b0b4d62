import TestAio.Data.Meanings
import TestAio.Library.Numbering
import TestAio.Util.HtmlUtil.TextPreservation

/-!
# Footnote numbers and the side list

A footnoted word is followed by the place of its entry in the list of footnoted entries, and
{lit}`HtmlUtil.ofArticle` prints that list with the places in front.  The entry is chosen by
its word and found again by all its fields.

Main results:

- Theorem {lit}`footnote_eq`: an entry is numbered by its first occurrence.
- Theorem {lit}`Numbered.resolveLoop`: marks and entries agree after every run of the loop.
- Theorem {lit}`resolvePassage_numbers`: the marks are the numbers of the side list, and they
  come up in order.

Current gaps:

- None.
-/

namespace TestAio
namespace HtmlUtil

open Library.Numbering

/-! ## The side list -/

/-- What {lit}`ofArticle` prints for a footnoted entry. -/
def sideEntry (wordIndex : Nat) (word : WordNode) : JString :=
  jstr "<br/><p>" ++ decimal (wordIndex + 1) ++ jstr ". " ++ word.word ++ codePointUnits 160 ++
    word.englishPronunciation ++ jstr "</p>" ++
    if word.meanings = [] then []
    else
      jstr "<p>" ++ word.meanings.flatMap (fun meaning => meaning ++ codePointUnits 160) ++
        jstr "</p><br/>"

/-- The side list of {lit}`ofArticle`. -/
def sideEntries (words : List WordNode) : List JString :=
  words.mapIdx sideEntry

/-! ## Marks and entries -/

/-- The number that is written with a group of calls. -/
def Append.mark : Append → Option Nat
  | .italic _ num => some num
  | _ => none

/-- The numbers in the written text, in order. -/
def marks (builder : List Append) : List Nat :=
  builder.filterMap Append.mark

/-- The marks that have been written belong to the entries that have been noted. -/
structure Numbered (st : ResolveState) : Prop where
  nodup : st.nodes.Nodup
  follows : ∀ w k, .italic w k ∈ st.builder →
    ∃ node, st.nodes[k - 1]? = some node ∧ node.word = w
  counts : CountsUp st.nodes.length (marks st.builder)

theorem Numbered.initial : Numbered .initial where
  nodup := List.nodup_nil
  follows := fun _ _ h => absurd h List.not_mem_nil
  counts := CountsUp.nil

variable {studyWords : List JString} {overWords : List WordNode}

/-- An entry is numbered by its first occurrence. -/
theorem footnote_eq (nodes : List WordNode) (node : WordNode) :
    footnote nodes node = (rank (insertNew nodes node) node, insertNew nodes node) := by
  unfold footnote
  cases hindex : nodes.idxOf? node with
  | none =>
      have hnot : node ∉ nodes := List.idxOf?_eq_none_iff.mp hindex
      rw [rank_insertNew_of_not_mem hnot, insertNew, if_neg hnot]
  | some num =>
      have hmem : node ∈ nodes := by
        by_contra hnot
        rw [List.idxOf?_eq_none_iff.mpr hnot] at hindex
        cases hindex
      rw [insertNew, if_pos hmem, rank, List.idxOf_eq_getD_idxOf?, hindex, Option.getD_some]

/-- Writing without a mark changes nothing. -/
theorem Numbered.append {st : ResolveState} (h : Numbered st) {a : Append}
    (ha : a.mark = none) (wordBuilder : JString) (append : Bool) :
    Numbered ⟨st.nodes, st.builder ++ [a], wordBuilder, append⟩ := by
  refine ⟨h.nodup, ?_, ?_⟩
  · intro w k hmem
    rcases List.mem_append.mp hmem with hmem | hmem
    · exact h.follows w k hmem
    · rw [← List.mem_singleton.mp hmem] at ha
      cases ha
  · have hmarks : marks (st.builder ++ [a]) = marks st.builder := by
      simp [marks, ha]
    rw [hmarks]
    exact h.counts

/-- A footnote keeps marks and entries together. -/
theorem Numbered.footnote {st : ResolveState} (h : Numbered st) (node : WordNode)
    (wordBuilder : JString) (append : Bool) :
    Numbered ⟨(footnote st.nodes node).2,
      st.builder ++ [.italic node.word (HtmlUtil.footnote st.nodes node).1], wordBuilder,
      append⟩ := by
  rw [footnote_eq]
  have hmem : node ∈ insertNew st.nodes node := mem_insertNew_self _ _
  refine ⟨nodup_insertNew h.nodup node, ?_, ?_⟩
  · intro w k hwritten
    rcases List.mem_append.mp hwritten with hwritten | hwritten
    · rcases h.follows w k hwritten with ⟨other, hother, hword⟩
      refine ⟨other, ?_, hword⟩
      -- The entries noted before keep their places.
      rcases isPrefix_insertNew st.nodes node with ⟨new, hnew⟩
      rw [← hnew, List.getElem?_append_left (List.getElem?_eq_some_iff.mp hother).1, hother]
    · cases List.mem_singleton.mp hwritten
      exact ⟨node, getElem?_rank hmem, rfl⟩
  · have hmarks : ∀ k, marks (st.builder ++ [.italic node.word k]) =
        marks st.builder ++ [k] := by
      intro k
      simp [marks, Append.mark]
    rw [hmarks]
    by_cases hknown : node ∈ st.nodes
    · rw [insertNew, if_pos hknown]
      refine h.counts.again (Nat.le_add_left 1 _) ?_
      exact List.idxOf_lt_length_iff.mpr hknown
    · rw [rank_insertNew_of_not_mem hknown, insertNew, if_neg hknown, List.length_append,
        List.length_singleton]
      exact h.counts.next

/-! ## The loop -/

theorem Numbered.flushWord {st : ResolveState} (h : Numbered st) :
    Numbered (flushWord studyWords overWords st) := by
  unfold HtmlUtil.flushWord
  split
  · exact h
  · by_cases hstudy : studyWords.contains st.wordBuilder = true
    · rw [emitWord, if_pos hstudy]
      exact h.append rfl _ _
    · rw [emitWord, if_neg hstudy]
      cases hfind : findWord overWords st.wordBuilder with
      | none => exact h.append rfl _ _
      | some node =>
          simp only
          rw [← word_of_findWord hfind]
          exact h.footnote node _ _

theorem Numbered.resolveStep {st : ResolveState} (h : Numbered st) (c : Nat) :
    Numbered (resolveStep studyWords overWords st c) := by
  unfold HtmlUtil.resolveStep
  split
  · unfold readLetter
    split
    · exact ⟨h.nodup, h.follows, h.counts⟩
    · exact h.append rfl _ _
  · refine Numbered.append h.flushWord ?_ _ _
    split <;> rfl

/-- Marks and entries agree after every run of the loop. -/
theorem Numbered.resolveLoop {st : ResolveState} (h : Numbered st) (p : JString) :
    Numbered (resolveLoop studyWords overWords st p) := by
  induction p generalizing st with
  | nil => exact h
  | cons u rest ih => exact ih (h.resolveStep _)

/-- The marks are the numbers of the side list, and they come up in order. -/
theorem resolvePassage_numbers (passage : JString) (studyWords : List JString)
    (overWords : List WordNode) :
    (resolvePassage passage studyWords overWords).passage =
        (resolveAppends passage studyWords overWords).flatMap Append.units ∧
      (resolvePassage passage studyWords overWords).words.Nodup ∧
      (∀ w k, .italic w k ∈ resolveAppends passage studyWords overWords →
        1 ≤ k ∧ k ≤ (resolvePassage passage studyWords overWords).words.length ∧
        (∃ node, (resolvePassage passage studyWords overWords).words[k - 1]? = some node ∧
          node.word = w) ∧
        ∃ entry, (sideEntries (resolvePassage passage studyWords overWords).words)[k - 1]? =
            some entry ∧
          jstr "<br/><p>" ++ decimal k ++ jstr ". " ++ w ++ codePointUnits 160 <+: entry) ∧
      (∀ k, 1 ≤ k → k ≤ (resolvePassage passage studyWords overWords).words.length →
        k ∈ marks (resolveAppends passage studyWords overWords)) ∧
      ∀ j k, 1 ≤ j → j < k →
        k ≤ (resolvePassage passage studyWords overWords).words.length →
        (marks (resolveAppends passage studyWords overWords)).idxOf j <
          (marks (resolveAppends passage studyWords overWords)).idxOf k := by
  have hnumbered : Numbered (resolveLoop studyWords overWords .initial passage) :=
    Numbered.initial.resolveLoop passage
  refine ⟨rfl, hnumbered.nodup, ?_, hnumbered.counts.emitted, hnumbered.counts.ordered⟩
  intro w k hmem
  have hmark : k ∈ marks (resolveAppends passage studyWords overWords) :=
    List.mem_filterMap.mpr ⟨.italic w k, hmem, rfl⟩
  rcases hnumbered.counts.range k hmark with ⟨hpos, hle⟩
  rcases hnumbered.follows w k hmem with ⟨node, hnode, hword⟩
  refine ⟨hpos, hle, ⟨node, hnode, hword⟩, sideEntry (k - 1) node, ?_, ?_⟩
  · rw [sideEntries, List.getElem?_mapIdx, resolvePassage, hnode]
    rfl
  · rw [sideEntry, hword, Nat.sub_add_cancel hpos]
    simp only [List.append_assoc, List.prefix_append_right_inj]
    exact List.prefix_append _ _

end HtmlUtil
end TestAio
