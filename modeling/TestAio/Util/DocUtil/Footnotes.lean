import TestAio.Util.DocUtil.Layout
import TestAio.Util.DocUtil.Pieces

/-!
# Footnote marks and the footnotes they point at

The conversion numbers the over-words it meets and writes the number behind each
occurrence.  A table cell is converted with a progress of its own, and the
over-words noted there are dropped with it, so the marks of a cell carry numbers
of a list nobody sees.

Main results:

- Theorem {lit}`flow_overWordsKept`: an occurrence of an over-word is written as the
  word itself.
- Theorem {lit}`followsWord_layout_iff`: outside tables every mark points right.
- Theorem {lit}`followsWord_cell_iff`: the marks of a cell point right exactly when the
  numbers given in the cell are those of the article.
- Theorem {lit}`parseHtmlNode_marks_point_right_iff`: the exact condition on the flow of
  an article under which all its marks point right.

Current gaps:

- None.
-/

namespace TestAio
namespace DocUtil

open Library Library.Numbering

/-! ## Marks that point right -/

/-- Every mark of a paragraph follows a run whose text is the word of the entry with
its number. -/
def MarksPointRight (overWords : List OverWord) (content : List R) : Prop :=
  ∀ before after k, content = before ++ genMark k :: after →
    ∃ entry, k ≠ 0 ∧ overWords[k - 1]? = some entry ∧
      before.getLast?.map R.content = some (.text entry.word)

/-- The marks of a content that stands behind a run with content {lit}`last` follow the
words that {lit}`names` has under their numbers. -/
def FollowsWord (names : List JString) : Option RunContent → List R → Prop
  | _, [] => True
  | last, r :: rs =>
      (∀ k, r = genMark k →
        ∃ word, k ≠ 0 ∧ names[k - 1]? = some word ∧ last = some (.text word)) ∧
      FollowsWord names (some r.content) rs

/-- The content of the last run. -/
def lastContent (last : Option RunContent) (content : List R) : Option RunContent :=
  (content.getLast?.map R.content).or last

@[simp]
theorem lastContent_nil (last : Option RunContent) : lastContent last [] = last := by
  simp [lastContent]

@[simp]
theorem lastContent_cons (last : Option RunContent) (r : R) (rs : List R) :
    lastContent last (r :: rs) = lastContent (some r.content) rs := by
  cases rs with
  | nil => simp [lastContent]
  | cons r' rs =>
      have hlast : (r' :: rs).getLast? = some ((r' :: rs).getLast (by simp)) :=
        List.getLast?_eq_some_getLast (by simp)
      simp [lastContent, List.getLast?_cons_cons, hlast]

@[simp]
theorem lastContent_append (last : Option RunContent) (xs : List R) (r : R) :
    lastContent last (xs ++ [r]) = some r.content := by
  simp [lastContent]

/-- The marks of two contents in a row. -/
theorem followsWord_append {names : List JString} {last : Option RunContent}
    {xs ys : List R} :
    FollowsWord names last (xs ++ ys) ↔
      FollowsWord names last xs ∧ FollowsWord names (lastContent last xs) ys := by
  induction xs generalizing last with
  | nil => simp [FollowsWord]
  | cons x xs ih => simp [FollowsWord, ih, and_assoc]

/-- Position by position, the marks of a content point right. -/
theorem followsWord_iff {names : List JString} {last : Option RunContent}
    {content : List R} :
    FollowsWord names last content ↔
      ∀ before after k, content = before ++ genMark k :: after →
        ∃ word, k ≠ 0 ∧ names[k - 1]? = some word ∧
          lastContent last before = some (.text word) := by
  induction content generalizing last with
  | nil => simp [FollowsWord]
  | cons r rs ih =>
      simp only [FollowsWord, ih]
      constructor
      · rintro ⟨hhead, hrest⟩ before after k heq
        cases before with
        | nil =>
            rw [List.nil_append, List.cons.injEq] at heq
            simpa using hhead k heq.1
        | cons b before =>
            rw [List.cons_append, List.cons.injEq] at heq
            rcases heq with ⟨rfl, heq⟩
            simpa using hrest before after k heq
      · intro h
        refine ⟨fun k hk => ?_, fun before after k heq => ?_⟩
        · simpa using h [] rs k (by simp [hk])
        · simpa using h (r :: before) after k (by simp [heq])

/-- The marks point right exactly when each one follows its word. -/
theorem marksPointRight_iff {overWords : List OverWord} {content : List R} :
    MarksPointRight overWords content ↔
      FollowsWord (overWords.map OverWord.word) none content := by
  rw [followsWord_iff]
  refine forall_congr' fun before => forall_congr' fun after => forall_congr' fun k =>
    imp_congr_right fun _ => ?_
  simp only [List.getElem?_map, Option.map_eq_some_iff, lastContent, Option.or_none]
  constructor
  · rintro ⟨entry, hk, hentry, hlast⟩
    exact ⟨entry.word, hk, ⟨entry, hentry, rfl⟩, by simpa using hlast⟩
  · rintro ⟨_, hk, ⟨entry, hentry, rfl⟩, hlast⟩
    exact ⟨entry, hk, hentry, by simpa using hlast⟩

/-- A run of text has no mark. -/
theorem followsWord_genR (names : List JString) (last : Option RunContent)
    (value : JString) (format : RPr) (bold italic : Bool) :
    FollowsWord names last [genR value format bold italic] := by
  refine ⟨fun k hk => ?_, trivial⟩
  exact absurd hk (genR_ne_genMark _ _ _ _ _)

/-- A single mark points right exactly when it has the number of the word before it. -/
theorem followsWord_genMark {names : List JString} {value : JString} {k : Nat} :
    FollowsWord names (some (.text value)) [genMark k] ↔
      k ≠ 0 ∧ names[k - 1]? = some value := by
  simp only [FollowsWord, and_true]
  constructor
  · intro h
    rcases h k rfl with ⟨word, hk, hword, hlast⟩
    cases hlast
    exact ⟨hk, hword⟩
  · rintro ⟨hk, hword⟩ k' hk'
    cases genMark_injective hk'
    exact ⟨value, hk, hword, rfl⟩

/-- A mark at the start follows nothing. -/
theorem not_followsWord_genMark_none {names : List JString} {k : Nat} :
    ¬ FollowsWord names none [genMark k] := by
  intro h
  rcases h.1 k rfl with ⟨word, -, -, hlast⟩
  cases hlast

/-! ## Occurrences of over-words -/

/-- Every occurrence of an over-word is written as the word, in the cells too. -/
inductive OverWordsKept : List Item → Prop
  | nil : OverWordsKept []
  | run {value format bold italic overWord items} :
      (∀ wordNode, overWord = some wordNode → value = wordNode.word) → OverWordsKept items →
      OverWordsKept (.run value format bold italic overWord :: items)
  | paragraph {items} : OverWordsKept items → OverWordsKept (.paragraph :: items)
  | image {body items} : OverWordsKept items → OverWordsKept (.image body :: items)
  | table {rows items} : (∀ row ∈ rows, ∀ cell ∈ row, OverWordsKept cell) →
      OverWordsKept items → OverWordsKept (.table rows :: items)

/-- Two flows in a row keep the over words. -/
theorem OverWordsKept.append {xs ys : List Item} (hxs : OverWordsKept xs)
    (hys : OverWordsKept ys) : OverWordsKept (xs ++ ys) := by
  induction hxs with
  | nil => exact hys
  | run hvalue _ ih => exact .run hvalue ih
  | paragraph _ ih => exact .paragraph ih
  | image _ ih => exact .image ih
  | table hrows _ _ ih => exact .table hrows ih

/-- Flows in a row keep the over words. -/
theorem OverWordsKept.flatten {flows : List (List Item)}
    (h : ∀ items ∈ flows, OverWordsKept items) : OverWordsKept flows.flatten := by
  induction flows with
  | nil => exact .nil
  | cons items flows ih =>
      rw [List.flatten_cons]
      exact (h items (by simp)).append (ih fun ys hys => h ys (by simp [hys]))

/-- A node that is as it should be becomes an item, and one that keeps its word. -/
theorem pieceItem_of_italicised (format : RPr) {node : PassageNode} (h : node.Italicised) :
    ∃ item, pieceItem format node = .ok item ∧ OverWordsKept [item] := by
  unfold pieceItem
  split_ifs with hnext hitalic
  · exact ⟨_, rfl, .paragraph .nil⟩
  · rcases h hitalic with ⟨-, wordNode, hwordNode, hvalue⟩
    rw [hwordNode]
    refine ⟨_, rfl, .run (fun wordNode' heq => ?_) .nil⟩
    cases heq
    exact hvalue
  · exact ⟨_, rfl, .run (fun _ heq => by cases heq) .nil⟩

/-- The flow of a text keeps its over-words. -/
theorem overWordsKept_of_mapM {format : RPr} {results : List PassageNode}
    {items : List Item} (hresults : ∀ node ∈ results, node.Italicised)
    (h : results.mapM (pieceItem format) = .ok items) : OverWordsKept items := by
  have hitems := Effects.mapM_eq_ok_iff.mp h
  clear h
  induction hitems with
  | nil => exact .nil
  | @cons node item results items hnode _ ih =>
      rcases pieceItem_of_italicised format (hresults node (by simp)) with ⟨item', hitem, hkept⟩
      rw [hnode] at hitem
      cases hitem
      exact hkept.append (ih fun n hn => hresults n (by simp [hn]))

variable (env : Env)

/-- The flows of one amount of fuel keep their over-words. -/
def FlowsKeepOverWords (fuel : Nat) : Prop :=
  (∀ childNodes format bolds italics items,
    flow env fuel childNodes format bolds italics = .ok items → OverWordsKept items) ∧
  (∀ table bolds italics items,
    tableFlow env fuel table bolds italics = .ok items → OverWordsKept items)

/-- A table keeps the over words when the flows of its cells do. -/
theorem tableFlow_overWordsKept {fuel : Nat} (ih : FlowsKeepOverWords env fuel)
    {table : List Node} {bolds italics : List WordNode} {items : List Item}
    (h : tableFlow env (fuel + 1) table bolds italics = .ok items) : OverWordsKept items := by
  simp only [tableFlow] at h
  split_ifs at h with hempty
  · cases h
    exact .nil
  · rcases Effects.map_eq_ok_iff.mp h with ⟨rows, hrows, rfl⟩
    refine .table (fun row hrow cell hcell => ?_) .nil
    rcases Effects.exists_of_mem_mapM hrows hrow with ⟨tr, -, htr⟩
    rcases Effects.exists_of_mem_mapM (readRow_eq_ok_iff.mp htr).2 hcell with ⟨td, -, htd⟩
    exact ih.1 _ _ _ _ _ htd

/-- A node keeps the over words when the flows below it do. -/
theorem flow_overWordsKept_step {fuel : Nat} (ih : FlowsKeepOverWords env fuel)
    {childNodes : List Node} {format : RPr} {bolds italics : List WordNode}
    {items : List Item} (h : flow env (fuel + 1) childNodes format bolds italics = .ok items) :
    OverWordsKept items := by
  simp only [flow] at h
  rcases Effects.map_eq_ok_iff.mp h with ⟨flows, hflows, rfl⟩
  refine OverWordsKept.flatten fun items hitems => ?_
  rcases Effects.exists_of_mem_mapM hflows hitems with ⟨node, -, hnode⟩
  cases node with
  | text value =>
      rcases Effects.bind_eq_ok_iff.mp hnode with ⟨results, hresults, hitems⟩
      exact overWordsKept_of_mapM (cutText_italicised hresults) hitems
  | element tag src childNodes =>
      cases tag with
      | br =>
          cases hnode
          exact .paragraph .nil
      | strong => exact ih.1 _ _ _ _ _ hnode
      | div => exact ih.1 _ _ _ _ _ hnode
      | span => exact ih.1 _ _ _ _ _ hnode
      | center => exact ih.1 _ _ _ _ _ hnode
      | bdo => exact ih.1 _ _ _ _ _ hnode
      | p =>
          rcases Effects.map_eq_ok_iff.mp hnode with ⟨inner, hinner, rfl⟩
          exact .paragraph ((ih.1 _ _ _ _ _ hinner).append (.paragraph .nil))
      | u => exact ih.1 _ _ _ _ _ hnode
      | table => exact ih.2 _ _ _ _ hnode
      | img =>
          cases hload : env.download src with
          | none =>
              simp only [hload] at hnode
              cases hnode
              exact .nil
          | some body =>
              simp only [hload] at hnode
              cases hnode
              exact .image .nil
      | tr =>
          cases hnode
          exact .nil
      | td =>
          cases hnode
          exact .nil
      | other =>
          cases hnode
          exact .nil
  | comment =>
      cases hnode
      exact .nil
  | other =>
      cases hnode
      exact .nil

/-- Each flow keeps the over words. -/
theorem flowsKeepOverWords (fuel : Nat) : FlowsKeepOverWords env fuel := by
  induction fuel with
  | zero =>
      refine ⟨fun _ _ _ _ _ h => ?_, fun _ _ _ _ h => ?_⟩
      · cases h
      · cases h
  | succ fuel ih =>
      exact ⟨fun _ _ _ _ _ => flow_overWordsKept_step env ih,
        fun _ _ _ _ => tableFlow_overWordsKept env ih⟩

/-- In a flow every occurrence of an over-word is written as the word itself. -/
theorem flow_overWordsKept {fuel : Nat} {childNodes : List Node} {format : RPr}
    {bolds italics : List WordNode} {items : List Item}
    (h : flow env fuel childNodes format bolds italics = .ok items) : OverWordsKept items :=
  (flowsKeepOverWords env fuel).1 _ _ _ _ _ h

/-! ## Cells whose numbers are those of the article -/

/-- The numbers given in a cell are the article's.  {lit}`own` holds the over-words of
the cell, {lit}`names` those of the article, and {lit}`leading` tells that the current
paragraph has no run so far that survives the trimming. -/
inductive CellAgrees (names : List JString) :
    List JString → Bool → List Item → Prop
  | nil {own leading} : CellAgrees names own leading []
  | plain {own leading value format bold italic items} :
      CellAgrees names own (leading && isBlank value) items →
      CellAgrees names own leading (.run value format bold italic none :: items)
  | overWord {own leading value format bold italic items} {wordNode : WordNode} :
      (leading = true → isBlank value = false) →
      names[rank own wordNode.word - 1]? =
        some (if leading then env.stripFront value (jstr " \t") else value) →
      CellAgrees names own false items →
      CellAgrees names own leading (.run value format bold italic (some wordNode) :: items)
  | paragraph {own leading items} : CellAgrees names own true items →
      CellAgrees names own leading (.paragraph :: items)
  | image {own leading body items} : CellAgrees names own true items →
      CellAgrees names own leading (.image body :: items)
  | table {own leading rows items} :
      (∀ row ∈ rows, ∀ cell ∈ row, CellAgrees names (collect [] (overs cell)) true cell) →
      CellAgrees names own true items →
      CellAgrees names own leading (.table rows :: items)

/-- In every table of the article the numbers given in the cells are the article's. -/
def TablesAgree (names : List JString) (items : List Item) : Prop :=
  ∀ rows, .table rows ∈ items → ∀ row ∈ rows, ∀ cell ∈ row,
    CellAgrees env names (collect [] (overs cell)) true cell

/-! ## The marks of a list of blocks -/

/-- All marks of all paragraphs point right. -/
def MarksFollow (names : List JString) (blocks : List ContentAccessor) : Prop :=
  ∀ par ∈ allParagraphs blocks, FollowsWord names none par.content

variable {env}

/-- The marks of a paragraph and of what follows. -/
theorem marksFollow_cons_p {names : List JString} {par : P} {blocks : List ContentAccessor} :
    MarksFollow names (.p par :: blocks) ↔
      FollowsWord names none par.content ∧ MarksFollow names blocks := by
  simp [MarksFollow]

/-- The marks of a table and of what follows. -/
theorem marksFollow_cons_tbl {names : List JString} {rows : List (List (List Item))}
    {blocks : List ContentAccessor} :
    MarksFollow names (.tbl (emitRows env rows) :: blocks) ↔
      (∀ row ∈ rows, ∀ cell ∈ row,
        MarksFollow names (cellNodes env (emitAll env (.new false) cell))) ∧
      MarksFollow names blocks := by
  simp only [MarksFollow]
  rw [allParagraphs_tbl]
  simp only [List.mem_append, List.mem_flatMap]
  constructor
  · intro h
    exact ⟨fun row hrow cell hcell par hpar => h par (.inl ⟨row, hrow, cell, hcell, hpar⟩),
      fun par hpar => h par (.inr hpar)⟩
  · rintro ⟨hrows, hblocks⟩ par (⟨row, hrow, cell, hcell, hpar⟩ | hpar)
    · exact hrows row hrow cell hcell par hpar
    · exact hblocks par hpar

/-! ## Trimming a paragraph -/

/-- Trimming reaches the second content only when nothing is left of the first one. -/
theorem trimContent_append (xs ys : List R) :
    trimContent env (xs ++ ys) =
      if trimContent env xs = [] then trimContent env ys else trimContent env xs ++ ys := by
  induction xs with
  | nil => simp [trimContent]
  | cons x xs ih =>
      rcases x with ⟨rPr, content⟩
      cases content with
      | text value => by_cases hblank : isBlank value = true <;> simp [trimContent, hblank, ih]
      | drawing body => simp [trimContent]

/-- A mark is not blank. -/
theorem isBlank_markText (k : Nat) : isBlank (markText k) = false := by
  rw [← Bool.not_eq_true, isBlank_iff]
  intro h
  have := h (jchar '[') (by simp [markText, jstr, utf16, jchar])
  exact absurd this (by decide)

/-- Trimming leaves a leading mark as it is. -/
theorem trimContent_genMark (k : Nat) : trimContent env [genMark k] = [genMark k] := by
  have hstrip : env.stripFront (markText k) (jstr " \t") = markText k := by
    rw [env.stripFront_eq]
    rfl
  simp [trimContent, genMark, isBlank_markText, hstrip]

/-- A plain run survives behind another run or when it has a visible character, and
brings no mark. -/
theorem trimContent_plain (env : Env) (names : List JString) (xs : List R) (value : JString)
    (format : RPr) (bold italic : Bool) :
    (trimContent env (xs ++ [genR value format bold italic])).isEmpty =
        ((trimContent env xs).isEmpty && isBlank value) ∧
      (FollowsWord names none (trimContent env (xs ++ [genR value format bold italic])) ↔
        FollowsWord names none (trimContent env xs)) := by
  rw [trimContent_append]
  by_cases hempty : trimContent env xs = []
  · rw [if_pos hempty, hempty]
    cases hblank : isBlank value with
    | true => simp [trimContent, genR, hblank]
    | false =>
        refine ⟨by simp [trimContent, genR, hblank], ?_⟩
        have hrun : trimContent env [genR value format bold italic] =
            [genR (env.stripFront value (jstr " \t")) format bold italic] := by
          simp [trimContent, genR, hblank]
        rw [hrun]
        simp [FollowsWord]
  · rw [if_neg hempty, followsWord_append]
    refine ⟨?_, by simp [followsWord_genR]⟩
    rw [List.isEmpty_eq_false_iff.mpr hempty]
    simp

/-- The run and the mark of an over-word at the end of a paragraph that is trimmed. -/
theorem trimContent_over (env : Env) (names : List JString) (xs : List R) (value : JString)
    (format : RPr) (bold italic : Bool) (k : Nat) :
    (trimContent env (xs ++ [genR value format bold italic, genMark k])).isEmpty = false ∧
      (FollowsWord names none
          (trimContent env (xs ++ [genR value format bold italic, genMark k])) ↔
        FollowsWord names none (trimContent env xs) ∧
        ((trimContent env xs).isEmpty = true → isBlank value = false) ∧
        k ≠ 0 ∧ names[k - 1]? =
          some (if (trimContent env xs).isEmpty then env.stripFront value (jstr " \t")
            else value)) := by
  rw [trimContent_append]
  by_cases hempty : trimContent env xs = []
  · rw [if_pos hempty, hempty]
    cases hblank : isBlank value with
    | true =>
        have hrun : trimContent env [genR value format bold italic, genMark k] =
            [genMark k] := by
          have hdrop : trimContent env [genR value format bold italic, genMark k] =
              trimContent env [genMark k] := by
            rw [trimContent]
            simp [genR, hblank]
          rw [hdrop, trimContent_genMark]
        rw [hrun]
        simp [not_followsWord_genMark_none]
    | false =>
        have hrun : trimContent env [genR value format bold italic, genMark k] =
            [genR (env.stripFront value (jstr " \t")) format bold italic] ++ [genMark k] := by
          simp [trimContent, genR, hblank]
        rw [hrun, followsWord_append]
        refine ⟨by simp, ?_⟩
        rw [lastContent_cons, lastContent_nil]
        change _ ∧ FollowsWord names (some (.text _)) _ ↔ _
        rw [followsWord_genMark]
        simp [FollowsWord]
  · have hsplit : [genR value format bold italic, genMark k] =
        [genR value format bold italic] ++ [genMark k] := rfl
    rw [if_neg hempty]
    refine ⟨by simp, ?_⟩
    rw [hsplit, followsWord_append, followsWord_append, lastContent_cons, lastContent_nil]
    change _ ∧ _ ∧ FollowsWord names (some (.text _)) _ ↔ _
    rw [followsWord_genMark]
    simp [followsWord_genR, hempty]

/-- An image is no mark. -/
theorem followsWord_imageParagraph (names : List JString) (body : List UInt8) :
    FollowsWord names none (imageParagraph body).content := by
  refine ⟨fun k hk => ?_, trivial⟩
  have := congrArg R.content hk
  simp [genMark] at this

/-! ## The marks of a cell -/

/-- The marks of a trimmed paragraph and of what follows. -/
theorem marksFollow_trim_p {names : List JString} {par : P} {blocks : List ContentAccessor} :
    MarksFollow names ((trimNodes env (.p par :: blocks)).map ContentAccessor.indentCell) ↔
      FollowsWord names none (trimContent env par.content) ∧
      MarksFollow names ((trimNodes env blocks).map ContentAccessor.indentCell) := by
  rw [trimNodes_cons_p]
  split_ifs with hempty
  · rw [hempty]
    exact (and_iff_right trivial).symm
  · exact marksFollow_cons_p

/-- The marks of a table and of the trimmed rest. -/
theorem marksFollow_trim_tbl {names : List JString} {rows : List (List (List Item))}
    {blocks : List ContentAccessor} :
    MarksFollow names ((trimNodes env (.tbl (emitRows env rows) :: blocks)).map
        ContentAccessor.indentCell) ↔
      (∀ row ∈ rows, ∀ cell ∈ row,
        MarksFollow names (cellNodes env (emitAll env (.new false) cell))) ∧
      MarksFollow names ((trimNodes env blocks).map ContentAccessor.indentCell) := by
  rw [trimNodes_cons_tbl]
  split_ifs with hempty
  · have hrows : rows = [] := by
      simpa [emitRows_eq_map] using hempty
    simp [hrows]
  · exact marksFollow_cons_tbl

/-- The marks of a cell point right exactly when its numbers are the article's. -/
theorem followsWord_cell_iff (names : List JString) (items : List Item) :
    ∀ (own : List JString) (par : P),
      MarksFollow names
          ((trimNodes env (layout env own par items)).map ContentAccessor.indentCell) ↔
        FollowsWord names none (trimContent env par.content) ∧
        CellAgrees env names own (trimContent env par.content).isEmpty items := by
  induction items using Item.listInduction with
  | nil =>
      intro own par
      rw [layout, marksFollow_trim_p]
      exact and_congr_right fun _ =>
        ⟨fun _ => .nil, fun _ => by simp [MarksFollow, trimNodes, allParagraphs]⟩
  | run value format bold italic overWord items ih =>
      intro own par
      cases overWord with
      | none =>
          have hplain := trimContent_plain env names par.content value format bold italic
          rw [layout, ih]
          simp only [itemRuns]
          rw [hplain.1, hplain.2]
          refine and_congr_right fun _ => ⟨.plain, fun h => ?_⟩
          cases h with
          | plain h => exact h
      | some wordNode =>
          have hover := trimContent_over env names par.content value format bold italic
            (rank own wordNode.word)
          have hpos : rank own wordNode.word ≠ 0 := by simp [rank]
          rw [layout, ih]
          simp only [itemRuns]
          rw [hover.1, hover.2]
          constructor
          · rintro ⟨⟨hfollows, hblank, -, hnum⟩, hrest⟩
            exact ⟨hfollows, .overWord hblank hnum hrest⟩
          · rintro ⟨hfollows, hagrees⟩
            cases hagrees with
            | overWord hblank hnum hrest => exact ⟨⟨hfollows, hblank, hpos, hnum⟩, hrest⟩
  | paragraph items ih =>
      intro own par
      rw [layout, marksFollow_trim_p, ih]
      refine and_congr_right fun _ => ⟨fun h => .paragraph h.2, fun h => ?_⟩
      cases h with
      | paragraph h => exact ⟨trivial, h⟩
  | image body items ih =>
      intro own par
      rw [layout, marksFollow_trim_p, marksFollow_trim_p, ih]
      refine and_congr_right fun _ => ⟨fun h => .image h.2.2, fun h => ?_⟩
      cases h with
      | image h => exact ⟨followsWord_imageParagraph names body, trivial, h⟩
  | table rows items hrows ih =>
      intro own par
      rw [layout, marksFollow_trim_p, marksFollow_trim_tbl, ih]
      simp only [cellNodes_emitAll]
      refine and_congr_right fun _ => ⟨fun h => .table (fun row hrow cell hcell => ?_) h.2.2,
        fun h => ?_⟩
      · exact ((hrows row hrow cell hcell _ _).mp (h.1 row hrow cell hcell)).2
      · cases h with
        | table hcells h =>
            refine ⟨fun row hrow cell hcell => ?_, trivial, h⟩
            exact (hrows row hrow cell hcell _ _).mpr ⟨trivial, hcells row hrow cell hcell⟩

/-! ## The marks of the article -/

/-- Items other than tables do not matter. -/
theorem tablesAgree_cons {names : List JString} {item : Item} {items : List Item}
    (hitem : ∀ rows, item ≠ .table rows) :
    TablesAgree env names (item :: items) ↔ TablesAgree env names items := by
  refine forall_congr' fun rows => ?_
  rw [List.mem_cons]
  constructor
  · intro h hmem
    exact h (.inr hmem)
  · rintro h (heq | hmem)
    · exact absurd heq.symm (hitem rows)
    · exact h hmem

/-- Outside tables every mark points right, so all marks of an article do exactly when
those of its cells do. -/
theorem followsWord_layout_iff (env : Env) (names : List JString) {items : List Item}
    (hkept : OverWordsKept items) :
    ∀ par : P, (∀ word ∈ overs items, word ∈ names) → FollowsWord names none par.content →
      (MarksFollow names (layout env names par items) ↔ TablesAgree env names items) := by
  induction hkept with
  | nil =>
      intro par _ hpar
      simp [layout, hpar, MarksFollow, allParagraphs, TablesAgree]
  | @run value format bold italic overWord items hvalue _ ih =>
      intro par hovers hpar
      rw [tablesAgree_cons (by simp)]
      cases overWord with
      | none =>
          refine ih _ hovers ?_
          rw [itemRuns, followsWord_append]
          exact ⟨hpar, followsWord_genR _ _ _ _ _ _⟩
      | some wordNode =>
          refine ih _ (fun word hword => hovers word (by simp [overs, hword])) ?_
          have hmem : wordNode.word ∈ names := hovers _ (by simp [overs])
          have hsplit : itemRuns names (.run value format bold italic (some wordNode)) =
              [genR value format bold italic] ++ [genMark (rank names wordNode.word)] := rfl
          rw [hsplit, followsWord_append, followsWord_append]
          refine ⟨hpar, followsWord_genR _ _ _ _ _ _, ?_⟩
          rw [lastContent_cons, lastContent_nil]
          refine followsWord_genMark.mpr ⟨by simp [rank], ?_⟩
          rw [hvalue wordNode rfl]
          exact getElem?_rank hmem
  | paragraph _ ih =>
      intro par hovers hpar
      rw [tablesAgree_cons (by simp), layout, marksFollow_cons_p,
        ih (genP true) hovers trivial]
      exact and_iff_right hpar
  | image _ ih =>
      intro par hovers hpar
      rw [tablesAgree_cons (by simp), layout, marksFollow_cons_p, marksFollow_cons_p,
        ih (genP true) hovers trivial]
      rw [and_iff_right hpar, and_iff_right (followsWord_imageParagraph names _)]
  | @table rows items _ _ _ ih =>
      intro par hovers hpar
      have hcell : ∀ cell, MarksFollow names (cellNodes env (emitAll env (.new false) cell)) ↔
          CellAgrees env names (collect [] (overs cell)) true cell := by
        intro cell
        rw [cellNodes_emitAll, followsWord_cell_iff]
        exact and_iff_right trivial
      rw [layout, marksFollow_cons_p, marksFollow_cons_tbl, ih (genP true) hovers trivial,
        and_iff_right hpar]
      simp only [hcell]
      constructor
      · rintro ⟨hrows, hitems⟩ rows' hmem
        rcases List.mem_cons.mp hmem with heq | hmem
        · cases heq
          exact hrows
        · exact hitems rows' hmem
      · intro h
        exact ⟨h rows (by simp), fun rows' hmem => h rows' (by simp [hmem])⟩

variable (env)

/-- The marks of an article all point at the right footnote exactly when in every
table cell the numbers by first occurrence in the cell agree with the numbers by
first occurrence outside the tables. -/
theorem parseHtmlNode_marks_point_right_iff {fuel : Nat} {childNodes : List Node}
    {format : RPr} {bolds italics : List WordNode} {indent : Bool} {progress : ParseProgress}
    (h : parseHtmlNode env fuel childNodes (ParseProgress.new indent) format bolds italics
      indent = .ok progress) :
    (Indexed progress.overWords ∧
        ∀ par ∈ allParagraphs progress.nodes, MarksPointRight progress.overWords par.content) ↔
      ∀ items, flow env fuel childNodes format bolds italics = .ok items →
        TablesAgree env (collect [] (overs items)) items := by
  rw [parseHtmlNode_eq_emitAll] at h
  rcases Effects.map_eq_ok_iff.mp h with ⟨items, hitems, rfl⟩
  have hindexed : Indexed (emitAll env (.new indent) items).overWords :=
    (Indexed.new indent).emitAll env items
  have hwords : (emitAll env (.new indent) items).overWords.map OverWord.word =
      collect [] (overs items) := emitAll_words env (Indexed.new indent) items
  have hlayout := followsWord_layout_iff env (collect [] (overs items))
    (flow_overWordsKept env hitems) (genP indent) (fun word hword => mem_collect hword)
    trivial
  rw [and_iff_right hindexed]
  simp only [marksPointRight_iff, hwords, emitAll_new_nodes]
  refine hlayout.trans ⟨fun hagree items' hitems' => ?_, fun hagree => hagree items hitems⟩
  rw [hitems] at hitems'
  cases hitems'
  exact hagree

/-- The vocabulary entry of the small articles below. -/
def catWord : WordNode := .ofWord (jstr "cat")

/-- A table with one cell for a text. -/
def cellTable (text : JString) : Node :=
  .element .table [] [.element .tr [] [.element .td [] [.text text]]]

/-- In a cell behind an occurrence outside the table the number is the article's. -/
theorem marks_point_right_of_cell_after_text :
    ∃ progress, parseHtmlNode Env.offline 9 [.text (jstr "cat"), cellTable (jstr "cat")]
        (ParseProgress.new true) (genRpr false false) [] [catWord] true = .ok progress ∧
      ((Indexed progress.overWords ∧ ∀ par ∈ allParagraphs progress.nodes,
          MarksPointRight progress.overWords par.content) ↔
        ∀ items, flow Env.offline 9 [.text (jstr "cat"), cellTable (jstr "cat")]
            (genRpr false false) [] [catWord] = .ok items →
          TablesAgree Env.offline (collect [] (overs items)) items) :=
  ⟨_, rfl, parseHtmlNode_marks_point_right_iff Env.offline rfl⟩

/-- An over-word that occurs in a table cell only is marked there and never listed. -/
theorem cell_mark_without_footnote :
    ∃ progress, parseHtmlNode Env.offline 9 [cellTable (jstr "cat")]
        (ParseProgress.new true) (genRpr false false) [] [catWord] true = .ok progress ∧
      ¬ (Indexed progress.overWords ∧ ∀ par ∈ allParagraphs progress.nodes,
          MarksPointRight progress.overWords par.content) := by
  let cell : P :=
    { ind := some { firstLine := 315, firstLineChars := 150 }
      content := [genR (jstr "cat") {} false true, genMark 1] }
  refine ⟨{ overWords := []
            nodes := [.p (genP true), .tbl [.mk [.mk 7152 [.p cell]]], .p (genP true)]
            afters := []
            now := 2 }, rfl, ?_⟩
  rintro ⟨-, h⟩
  have hmem : cell ∈ allParagraphs
      [.p (genP true), .tbl [.mk [.mk 7152 [.p cell]]], .p (genP true)] :=
    List.mem_cons_of_mem _ List.mem_cons_self
  rcases h cell hmem [genR (jstr "cat") {} false true] [] 1 rfl with ⟨entry, -, hentry, -⟩
  cases hentry

end DocUtil
end TestAio
