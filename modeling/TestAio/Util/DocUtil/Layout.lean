import TestAio.Library.Numbering
import TestAio.Util.DocUtil.Flow

/-!
# What a flow writes

Writing a flow mutates a progress: the current paragraph grows, and the list of
over-words grows with it.  This module gives the outcome in closed form.  The
over-words are the names of the flow in order of first occurrence, and the
blocks are laid out with the final numbers, because a number once given does
not change.

Main results:

- Theorem {lit}`Indexed.emitAll`: the entries of {lit}`overWords` are numbered 1..n
  and name distinct words.
- Theorem {lit}`emitAll_words`: the words of the entries are the over-words of the
  flow, each at its first occurrence.
- Theorem {lit}`emitAll_nodes`: the blocks written are the layout of the flow.
- Theorem {lit}`allParagraphs_tbl`: the paragraphs of a table, row by row and cell by
  cell.

Current gaps:

- None.
-/

namespace TestAio
namespace DocUtil

open Library Library.Numbering

/-! ## The entries of {lit}`overWords` -/

/-- The words of the entries. -/
def ParseProgress.words (progress : ParseProgress) : List JString :=
  progress.overWords.map OverWord.word

/-- The entries carry the indexes 1..n in order and name pairwise distinct words. -/
structure Indexed (overWords : List OverWord) : Prop where
  index_eq : ∀ (n : Nat) (entry : OverWord), overWords[n]? = some entry → entry.index = n + 1
  nodup : (overWords.map OverWord.word).Nodup

/-- The over-words at the top level of a flow, tables left out. -/
def overs : List Item → List JString
  | [] => []
  | .run _ _ _ _ (some wordNode) :: items => wordNode.word :: overs items
  | _ :: items => overs items

/-- The entry found for a noted word carries its number. -/
theorem Indexed.find?_eq {overWords : List OverWord} (h : Indexed overWords)
    {word : JString} (hmem : word ∈ overWords.map OverWord.word) :
    ∃ entry, overWords.find? (fun it => word == it.word) = some entry ∧
      entry.index = rank (overWords.map OverWord.word) word := by
  rcases List.mem_map.mp hmem with ⟨e, he, rfl⟩
  cases hfind : overWords.find? (fun it => e.word == it.word) with
  | none =>
      have := List.find?_eq_none.mp hfind e he
      simp at this
  | some entry =>
      refine ⟨entry, rfl, ?_⟩
      have hword : e.word = entry.word := by
        simpa using List.find?_some hfind
      rcases List.getElem?_of_mem (List.mem_of_find?_eq_some hfind) with ⟨n, hn⟩
      have hget : (overWords.map OverWord.word)[n]? = some e.word := by
        rw [List.getElem?_map, hn, hword]
        rfl
      rw [h.index_eq n entry hn, rank_of_getElem? h.nodup hget]

/-- Asking for a number gives the number of the word among the noted words, and
changes nothing but these. -/
theorem ParseProgress.number_spec (progress : ParseProgress)
    (h : Indexed progress.overWords) (wordNode : WordNode) :
    (progress.number wordNode).1 =
        rank (insertNew progress.words wordNode.word) wordNode.word ∧
      (progress.number wordNode).2.words = insertNew progress.words wordNode.word ∧
      Indexed (progress.number wordNode).2.overWords ∧
      (progress.number wordNode).2.nodes = progress.nodes ∧
      (progress.number wordNode).2.now = progress.now := by
  by_cases hmem : wordNode.word ∈ progress.words
  · rcases h.find?_eq hmem with ⟨entry, hfind, hindex⟩
    have hnum : progress.number wordNode = (entry.index, progress) := by
      have hne : entry.index ≠ 0 := by
        rw [hindex, rank]
        omega
      simp [ParseProgress.number, hfind, hne]
    rw [hnum, insertNew, if_pos hmem]
    exact ⟨hindex, rfl, h, rfl, rfl⟩
  · have hfind : progress.overWords.find? (fun it => wordNode.word == it.word) = none := by
      rw [List.find?_eq_none]
      intro entry hentry heq
      rw [beq_iff_eq] at heq
      exact hmem (heq ▸ List.mem_map_of_mem hentry)
    have hlength : progress.words.length = progress.overWords.length := by
      simp [ParseProgress.words]
    have hnum : progress.number wordNode = (progress.overWords.length + 1,
        { progress with overWords := progress.overWords ++
          [{ index := progress.overWords.length + 1
             word := wordNode.word
             symbol := wordNode.americaPronunciation
             translate := replaceBreaks wordNode.meaning }] }) := by
      simp [ParseProgress.number, hfind]
    have hwords : (progress.number wordNode).2.words =
        insertNew progress.words wordNode.word := by
      rw [hnum, insertNew, if_neg hmem]
      simp [ParseProgress.words]
    refine ⟨?_, hwords, ⟨?_, ?_⟩, by rw [hnum], by rw [hnum]⟩
    · rw [rank_insertNew_of_not_mem hmem, hlength, hnum]
    · intro n entry hn
      rw [hnum, List.getElem?_append] at hn
      split_ifs at hn with hlt
      · exact h.index_eq n entry hn
      · rcases List.getElem?_eq_some_iff.mp hn with ⟨hlt', hentry⟩
        have hzero : n - progress.overWords.length = 0 := by
          simpa using hlt'
        simp only [hzero, List.getElem_cons_zero] at hentry
        rw [← hentry]
        simp only
        omega
    · have hnodup := nodup_insertNew h.nodup wordNode.word
      change (progress.number wordNode).2.words.Nodup
      rw [hwords]
      exact hnodup

theorem Indexed.new (indent : Bool) : Indexed (ParseProgress.new indent).overWords where
  index_eq := by simp [ParseProgress.new]
  nodup := by simp [ParseProgress.new]

variable (env : Env)

/-- Writing an item notes its over-word, if it has one. -/
theorem emit_overWords {progress : ParseProgress} (h : Indexed progress.overWords)
    (item : Item) :
    Indexed (emit env progress item).overWords ∧
      (emit env progress item).words = collect progress.words (overs [item]) := by
  cases item with
  | run value format bold italic overWord =>
      cases overWord with
      | none => exact ⟨h, rfl⟩
      | some wordNode =>
          have hspec := ParseProgress.number_spec
            (progress.addRun (genR value format bold italic)) h wordNode
          exact ⟨hspec.2.2.1, hspec.2.1⟩
  | paragraph => exact ⟨h, rfl⟩
  | image body => exact ⟨h, rfl⟩
  | table rows => exact ⟨h, rfl⟩

theorem overs_cons (item : Item) (items : List Item) :
    overs (item :: items) = overs [item] ++ overs items := by
  cases item with
  | run value format bold italic overWord => cases overWord <;> rfl
  | paragraph => rfl
  | image body => rfl
  | table rows => rfl

/-- The entries stay numbered in order, with pairwise distinct words. -/
theorem Indexed.emitAll {progress : ParseProgress} (h : Indexed progress.overWords)
    (items : List Item) : Indexed (emitAll env progress items).overWords := by
  induction items generalizing progress with
  | nil => exact h
  | cons item items ih => exact ih (emit_overWords env h item).1

/-- The noted words are the over-words of the flow in order of first occurrence. -/
theorem emitAll_words {progress : ParseProgress} (h : Indexed progress.overWords)
    (items : List Item) :
    (emitAll env progress items).words = collect progress.words (overs items) := by
  induction items generalizing progress with
  | nil => rfl
  | cons item items ih =>
      have hemit := emit_overWords env h item
      rw [DocUtil.emitAll, ih hemit.1, hemit.2, overs_cons item items, collect_append]

/-! ## The blocks -/

/-- The paragraph an image stands in. -/
def imageParagraph (body : List UInt8) : P :=
  { genP true with content := [{ rPr := genRpr false false, content := .drawing body }] }

/-- The runs an item adds to the current paragraph, with the final numbers. -/
def itemRuns (names : List JString) : Item → List R
  | .run value format bold italic none => [genR value format bold italic]
  | .run value format bold italic (some wordNode) =>
      [genR value format bold italic, genMark (rank names wordNode.word)]
  | _ => []

/-- The blocks of a flow; {lit}`par` is the paragraph the flow continues. -/
def layout (names : List JString) (par : P) : List Item → List ContentAccessor
  | [] => [.p par]
  | .paragraph :: items => .p par :: layout names (genP true) items
  | .image body :: items =>
      .p par :: .p (imageParagraph body) :: layout names (genP true) items
  | .table rows :: items => .p par :: .tbl (emitRows env rows) :: layout names (genP true) items
  | item@(.run _ _ _ _ _) :: items =>
      layout names { par with content := par.content ++ itemRuns names item } items

theorem addImage_pointsAt {progress : ParseProgress} {init : List ContentAccessor} {par : P}
    (h : progress.PointsAt init par) (body : List UInt8) :
    (progress.addImage body).PointsAt
      (init ++ [.p par, .p (imageParagraph body)]) (genP true) := by
  have hfirst : ({ progress with afters := progress.afters ++ [body] } :
      ParseProgress).PointsAt init par := h
  have hlast := (hfirst.newParagraph.addRun
    { rPr := genRpr false false, content := .drawing body }).newParagraph
  rw [List.append_assoc] at hlast
  exact hlast

/-- An over-word is written with its mark, and the mark is its place in the list that its
word has been noted in. -/
theorem emit_overWord_pointsAt {names : List JString} {progress : ParseProgress}
    {init : List ContentAccessor} {par : P} (h : progress.PointsAt init par)
    (hindexed : Indexed progress.overWords) (value : JString) (format : RPr) (bold italic : Bool)
    {wordNode : WordNode} (hnoted : insertNew progress.words wordNode.word <+: names) :
    (emit env progress (.run value format bold italic (some wordNode))).PointsAt init
      { par with
        content := par.content ++ [genR value format bold italic] ++
          [genMark (rank names wordNode.word)] } := by
  have hspec := ParseProgress.number_spec
    (progress.addRun (genR value format bold italic)) hindexed wordNode
  have hpoint : ((progress.addRun (genR value format bold italic)).number
      wordNode).2.PointsAt init
      { par with content := par.content ++ [genR value format bold italic] } :=
    ⟨hspec.2.2.2.1.trans (h.addRun _).1, hspec.2.2.2.2.trans (h.addRun _).2⟩
  have hnum : ((progress.addRun (genR value format bold italic)).number wordNode).1 =
      rank names wordNode.word := by
    rw [hspec.1]
    exact (rank_eq_of_isPrefix hnoted (mem_insertNew_self _ _)).symm
  have hstep : emit env progress (.run value format bold italic (some wordNode)) =
      ((progress.addRun (genR value format bold italic)).number wordNode).2.addRun
        (genMark ((progress.addRun (genR value format bold italic)).number wordNode).1) := rfl
  rw [hstep, hnum]
  exact hpoint.addRun (genMark (rank names wordNode.word))

/-- A flow leaves the blocks before the current paragraph alone and writes its
layout from there on. -/
theorem emitAll_nodes (names : List JString) {progress : ParseProgress}
    {init : List ContentAccessor} {par : P} (h : progress.PointsAt init par)
    (hindexed : Indexed progress.overWords) (items : List Item)
    (hnames : (emitAll env progress items).words <+: names) :
    (emitAll env progress items).nodes = init ++ layout env names par items := by
  induction items generalizing progress init par with
  | nil => exact h.1
  | cons item items ih =>
      have hemit := emit_overWords env hindexed item
      cases item with
      | run value format bold italic overWord =>
          cases overWord with
          | none => exact ih (h.addRun _) hemit.1 hnames
          | some wordNode =>
              -- The number given here is still the number in the final list.
              have hnoted : insertNew progress.words wordNode.word <+: names := by
                refine List.IsPrefix.trans ?_ hnames
                rw [emitAll, emitAll_words env hemit.1, hemit.2]
                exact isPrefix_collect _ _
              have hpar := emit_overWord_pointsAt env h hindexed value format bold italic hnoted
              rw [emitAll, ih hpar hemit.1 hnames]
              simp [layout, itemRuns]
      | paragraph =>
          have hpar : (emit env progress .paragraph).PointsAt (init ++ [.p par]) (genP true) :=
            h.newParagraph
          rw [emitAll, ih hpar hemit.1 hnames]
          simp [layout]
      | image body =>
          have hpar : (emit env progress (.image body)).PointsAt
              (init ++ [.p par, .p (imageParagraph body)]) (genP true) :=
            addImage_pointsAt h body
          rw [emitAll, ih hpar hemit.1 hnames]
          simp [layout]
      | table rows =>
          have hpar : (emit env progress (.table rows)).PointsAt
              (init ++ [.p par, .tbl (emitRows env rows)]) (genP true) := by
            constructor <;>
              simp [emit, ParseProgress.addTable, ParseProgress.newParagraph, h.1]
          rw [emitAll, ih hpar hemit.1 hnames]
          simp [layout]

/-- The blocks that a flow writes with a fresh progress. -/
theorem emitAll_new_nodes (indent : Bool) (items : List Item) :
    (emitAll env (.new indent) items).nodes =
      layout env (collect [] (overs items)) (genP indent) items := by
  have hwords := emitAll_words env (Indexed.new indent) items
  rw [emitAll_nodes env (collect [] (overs items)) (ParseProgress.new_pointsAt indent)
    (Indexed.new indent) items (by rw [hwords]; exact List.prefix_refl _)]
  rfl

/-- The blocks of a cell in closed form. -/
theorem cellNodes_emitAll (cell : List Item) :
    cellNodes env (emitAll env (.new false) cell) =
      (trimNodes env (layout env (collect [] (overs cell)) (genP false) cell)).map
        ContentAccessor.indentCell := by
  rw [cellNodes, emitAll_new_nodes]

/-! ## Paragraphs at any depth -/

mutual

/-- The paragraphs of a block in document order. -/
def ContentAccessor.paragraphs : ContentAccessor → List P
  | .p par => [par]
  | .tbl content => rowsParagraphs content

/-- The paragraphs of a row. -/
def Tr.paragraphs : Tr → List P
  | .mk content => cellsParagraphs content

/-- The paragraphs of a cell. -/
def Tc.paragraphs : Tc → List P
  | .mk _ content => allParagraphs content

/-- The paragraphs of a list of blocks, those in table cells included. -/
def allParagraphs : List ContentAccessor → List P
  | [] => []
  | block :: blocks => block.paragraphs ++ allParagraphs blocks

/-- The paragraphs of a list of rows. -/
def rowsParagraphs : List Tr → List P
  | [] => []
  | row :: rows => row.paragraphs ++ rowsParagraphs rows

/-- The paragraphs of a list of cells. -/
def cellsParagraphs : List Tc → List P
  | [] => []
  | cell :: cells => cell.paragraphs ++ cellsParagraphs cells

end

@[simp]
theorem allParagraphs_append (xs ys : List ContentAccessor) :
    allParagraphs (xs ++ ys) = allParagraphs xs ++ allParagraphs ys := by
  induction xs with
  | nil => rfl
  | cons x xs ih => simp [allParagraphs, ih]

@[simp]
theorem allParagraphs_p (par : P) (blocks : List ContentAccessor) :
    allParagraphs (.p par :: blocks) = par :: allParagraphs blocks :=
  rfl

theorem cellsParagraphs_emitCells (width : Nat) (cells : List (List Item)) :
    cellsParagraphs (emitCells env width cells) =
      cells.flatMap fun cell =>
        allParagraphs (cellNodes env (emitAll env (.new false) cell)) := by
  induction cells with
  | nil => rfl
  | cons cell cells ih => simp [emitCells, cellsParagraphs, Tc.paragraphs, ih]

theorem rowsParagraphs_emitRows (rows : List (List (List Item))) :
    rowsParagraphs (emitRows env rows) =
      rows.flatMap fun row => row.flatMap fun cell =>
        allParagraphs (cellNodes env (emitAll env (.new false) cell)) := by
  induction rows with
  | nil => rfl
  | cons row rows ih =>
      simp [emitRows, rowsParagraphs, Tr.paragraphs, cellsParagraphs_emitCells, ih]

/-- The paragraphs of a written table are those of its cells in order. -/
theorem allParagraphs_tbl (rows : List (List (List Item))) (blocks : List ContentAccessor) :
    allParagraphs (.tbl (emitRows env rows) :: blocks) =
      (rows.flatMap fun row => row.flatMap fun cell =>
        allParagraphs (cellNodes env (emitAll env (.new false) cell))) ++
      allParagraphs blocks := by
  rw [← rowsParagraphs_emitRows]
  rfl

end DocUtil
end TestAio
