import TestAio.Util.HtmlUtil.Articles
import TestAio.Util.HtmlUtil.PassageNesting

/-!
# Nesting of the printed documents

The texts of {lit}`HtmlUtil` are written by separate appends around strings that are given.
When the given strings are well nested, so are the words and the answers, but the line over
an article opens a paragraph that is never closed.

Main results:

- Theorem {lit}`ofArticle_moves`: as many paragraphs stay open as there are articles.
- Theorem {lit}`printed_balanced_iff`: the three documents are well nested exactly when there is
  no article.

Current gaps:

- None.
-/

namespace TestAio
namespace HtmlUtil

open Library Library.Nesting

/-! ## The given strings -/

/-- The texts that are printed with a word are well nested. -/
structure NestedEntry (word : WordNode) : Prop where
  pronunciation : Balanced word.englishPronunciation
  meanings : ∀ meaning ∈ word.meanings, Balanced meaning

/-- The texts of a question are well nested. -/
structure NestedQuestion (question : SubQuestion) : Prop where
  title : ∀ text ∈ question.title, Balanced text
  options : ∀ option ∈ questionOptions question, ∀ text ∈ option.2, Balanced text

/-- The texts of an article are well nested. -/
structure NestedArticle (article : Article) : Prop where
  title : Balanced article.title
  answer : ∀ text ∈ article.answer, Balanced text
  parse : ∀ text ∈ article.parse, Balanced text
  questions : ∀ question ∈ article.questions, NestedQuestion question

/-- All strings that are embedded in the documents are well nested. -/
structure Embedded (words : List WordNode) (articles : List Article)
    (overWords : List WordNode) : Prop where
  words : ∀ word ∈ words, Balanced word.word ∧ NestedEntry word
  articles : ∀ article ∈ articles, NestedArticle article
  overWords : ∀ word ∈ overWords, NestedEntry word

/-! ## Parts -/

/-- The tags of a literal. -/
theorem moves_jstr (cs : List Char) {s t : List JString} (h : Moves html (cs.flatMap utf16) s t) :
    Moves html (jstr (String.ofList cs)) s t := by
  rw [jstr_ofList]
  exact h

/-- A literal without a tag. -/
theorem plain_balanced (cs : List Char) (h : (cs.flatMap utf16).contains 60 = false) :
    Balanced (jstr (String.ofList cs)) := by
  rw [jstr_ofList]
  apply wellNested_of_not_mem
  intro hmem
  have hcontains := List.contains_iff_mem.mpr hmem
  rw [show html.left = 60 from rfl, h] at hcontains
  cases hcontains

/-- The end of a paragraph closes it. -/
theorem paragraph_closes : Moves html (jstr "</p>") [jstr "p"] [] := by
  decide

/-- A line break is balanced. -/
theorem break_balanced : Balanced (jstr "<br/>") := by
  decide

/-- A blank that does not break is balanced. -/
theorem nbsp_balanced : Balanced (codePointUnits 160) := by
  decide

/-- A title is balanced when its name is. -/
theorem subTitle_balanced {name : JString} (h : Balanced name) : Balanced (subTitle name) := by
  have hopen : Moves html (jstr "<p style=\"font-size:20px;text-align:center;margin:12px 0;\">") []
      [jstr "p"] := moves_jstr _ (by decide)
  exact h.between hopen paragraph_closes

/-- A tip is balanced when its text is. -/
theorem addTip_balanced {tip : JString} (h : Balanced tip) (indent : Bool) :
    Balanced (addTip tip indent) := by
  have hopen : Moves html (jstr "<p style=\"font-size:12px;color:#595959;" ++
      (if indent then jstr "text-indent:24px;" else []) ++ jstr "\">") [] [jstr "p"] := by
    cases indent
    · decide
    · decide
  exact h.between hopen paragraph_closes

/-- An optional text is balanced when there is none or it is. -/
theorem appendText_balanced {text : Option JString} (h : ∀ t ∈ text, Balanced t) :
    Balanced (appendText text) := by
  cases text with
  | none =>
      change Balanced (jstr "null")
      decide
  | some t => exact h t rfl

/-- A number is balanced. -/
theorem appendNumber_balanced (n : Int) : Balanced (appendNumber n) := by
  have hsign : Balanced (if n < 0 then jstr "-" else []) := by
    split
    · decide
    · exact wellNested_nil
  exact hsign.append (balanced_decimal _)

/-! ## Words -/

/-- The meanings are balanced, each in its paragraph. -/
theorem meanings_balanced {word : WordNode} (h : NestedEntry word) :
    Balanced (word.meanings.flatMap fun meaning =>
      jstr "<p style=\"display:block;text-indent: 24px\">" ++ meaning ++ jstr "</p>") := by
  refine wellNested_flatMap fun meaning hmeaning => ?_
  have hopen : Moves html (jstr "<p style=\"display:block;text-indent: 24px\">") [] [jstr "p"] :=
    moves_jstr _ (by decide)
  exact (h.meanings meaning hmeaning).between hopen paragraph_closes

/-- The paragraphs of a word are balanced. -/
theorem wordParagraphs_balanced {word : WordNode} (hword : Balanced word.word)
    (h : NestedEntry word) (i : Nat) : Balanced (wordParagraphs i word) := by
  have hopen : Moves html (jstr "<p><span style=\"color:#595959;\">") [] [jstr "span", jstr "p"] :=
    moves_jstr _ (by decide)
  have hbold : Moves html (jstr ".</span> <b>") [jstr "span", jstr "p"] [jstr "b", jstr "p"] :=
    moves_jstr _ (by decide)
  have hplain : Moves html (jstr "</b> ") [jstr "b", jstr "p"] [jstr "p"] :=
    moves_jstr _ (by decide)
  have hhead := hword.between ((balanced_decimal (i + 1)).between hopen hbold) hplain
  exact (h.pronunciation.between hhead paragraph_closes).append (meanings_balanced h)

/-- The paragraph of a spelling is balanced. -/
theorem spellParagraph_balanced {row : JString × Nat} (h : Balanced row.1) :
    Balanced (spellParagraph row) := by
  have hopen : Moves html (jstr "<p style=\"text-align:right;margin:12px 0;\">") [] [jstr "p"] :=
    moves_jstr _ (by decide)
  have hline : Moves html (jstr ".__________") [jstr "p"] [jstr "p"] := moves_jstr _ (by decide)
  have hfront := h.between hopen (nbsp_balanced.moves _)
  exact ((balanced_decimal row.2).between hfront hline).append paragraph_closes

/-- The rows have no other spellings. -/
theorem mem_spells_of_mem_spellRows {shuffle : Shuffle} {spells : List JString}
    {row : JString × Nat} (h : row ∈ spellRows shuffle spells) : row.1 ∈ spells := by
  rw [spellRows, spellRounds_eq] at h
  exact Rounds.mem_of_mem_emitRounds shuffle.perm h

set_option maxRecDepth 2000 in
/-- The words and the drill are well nested. -/
theorem ofWords_balanced (shuffle : Shuffle) {words : List WordNode}
    (h : ∀ word ∈ words, Balanced word.word ∧ NestedEntry word) :
    Balanced (ofWords shuffle words) := by
  have hwords : Balanced (words.mapIdx wordParagraphs).flatten := by
    refine wellNested_flatten fun text htext => ?_
    rcases List.mem_mapIdx.mp htext with ⟨i, hi, rfl⟩
    rcases h words[i] (List.getElem_mem hi) with ⟨hword, hentry⟩
    exact wordParagraphs_balanced hword hentry i
  have hlist : Balanced (subTitle (jstr "生词表") ++ (words.mapIdx wordParagraphs).flatten) :=
    (subTitle_balanced (plain_balanced _ (by decide))).append hwords
  have hspells : Balanced ((spellRows shuffle (words.flatMap WordNode.meanings)).flatMap
      spellParagraph) := by
    refine wellNested_flatMap fun row hrow => spellParagraph_balanced ?_
    rcases List.mem_flatMap.mp (mem_spells_of_mem_spellRows hrow) with ⟨word, hword, hmeaning⟩
    exact (h word hword).2.meanings row.1 hmeaning
  unfold ofWords
  split
  · exact wellNested_nil
  · dsimp only
    split
    · exact hlist
    · exact ((hlist.append (subTitle_balanced (plain_balanced _ (by decide)))).append
        (addTip_balanced (plain_balanced _ (by decide)) true)).append hspells

/-! ## Articles -/

/-- The lines of the options are balanced. -/
theorem optionLines_balanced {options : List (JChar × Option JString)}
    (hnames : ∀ option ∈ options, option.1 ≠ html.left)
    (h : ∀ option ∈ options, ∀ text ∈ option.2, Balanced text) :
    Balanced (optionLines options) := by
  induction options with
  | nil => exact wellNested_nil
  | cons option options ih =>
      rcases option with ⟨name, text⟩
      have hrest : Balanced (optionLines options) :=
        ih (fun other hother => hnames other (List.mem_cons_of_mem _ hother))
          fun other hother => h other (List.mem_cons_of_mem _ hother)
      rw [optionLines]
      cases text with
      | none => exact wellNested_nil
      | some text =>
          by_cases hempty : text = []
          · subst hempty
            exact wellNested_nil
          · have hname : Balanced [name] := by
              apply wellNested_of_not_mem
              rw [List.mem_singleton]
              exact (hnames (name, some text) List.mem_cons_self).symm
            have hdot : Balanced (jstr ". ") := by decide
            have htext : Balanced text := h (name, some text) List.mem_cons_self text rfl
            rw [addOptionCheckFail_of_present name hempty, if_neg Bool.false_ne_true]
            exact (((hname.append hdot).append htext).append break_balanced).append hrest

/-- A question is well nested, whichever of its options are missing. -/
theorem questionLines_balanced {question : SubQuestion} (h : NestedQuestion question) :
    Balanced (questionLines question) := by
  have hnames : ∀ option ∈ questionOptions question, option.1 ≠ html.left := by
    intro option hoption heq
    have hname : option.1 ∈ [jchar 'A', jchar 'B', jchar 'C', jchar 'D'] :=
      List.mem_map_of_mem hoption
    rw [heq] at hname
    revert hname
    decide
  have htitle := (break_balanced.append (appendText_balanced h.title)).append break_balanced
  exact htitle.append (optionLines_balanced hnames h.options)

/-- An entry beside the passage is well nested, with or without meanings. -/
theorem sideEntry_balanced {word : WordNode} (hword : Balanced word.word) (h : NestedEntry word)
    (i : Nat) : Balanced (sideEntry i word) := by
  have hopen : Moves html (jstr "<br/><p>") [] [jstr "p"] := moves_jstr _ (by decide)
  have hdot : Moves html (jstr ". ") [jstr "p"] [jstr "p"] := moves_jstr _ (by decide)
  have hnumber := (balanced_decimal (i + 1)).between hopen hdot
  have hname := hword.between hnumber (nbsp_balanced.moves _)
  have hentry := h.pronunciation.between hname paragraph_closes
  have hmeanings : Balanced (word.meanings.flatMap fun meaning => meaning ++ codePointUnits 160) :=
    wellNested_flatMap fun meaning hmeaning => (h.meanings meaning hmeaning).append nbsp_balanced
  have hparagraph : Moves html (jstr "<p>") [] [jstr "p"] := moves_jstr _ (by decide)
  unfold sideEntry
  apply Moves.append hentry
  split
  · exact wellNested_nil
  · exact hmeanings.between hparagraph paragraph_closes

/-- The entries at the side are balanced. -/
theorem sideEntries_balanced {words : List WordNode}
    (h : ∀ word ∈ words, Balanced word.word ∧ NestedEntry word) :
    Balanced (sideEntries words).flatten := by
  refine wellNested_flatten fun text htext => ?_
  rcases List.mem_mapIdx.mp htext with ⟨i, hi, rfl⟩
  rcases h words[i] (List.getElem_mem hi) with ⟨hword, hentry⟩
  exact sideEntry_balanced hword hentry i

/-- The line over an article opens a paragraph and does not close it. -/
theorem articleHead_moves (articleIndex : Nat) (article : Article) :
    Moves html (articleHead articleIndex article) [] [jstr "p"] := by
  have hopen : Moves html (jstr "<p><b style=\"font-size:16px;\">Passage ") []
      [jstr "b", jstr "p"] := moves_jstr _ (by decide)
  have hid : Moves html (jstr "</b> 编号:") [jstr "b", jstr "p"] [jstr "p"] :=
    moves_jstr _ (by decide)
  have hcount : Moves html (jstr ", 字数:") [jstr "p"] [jstr "p"] := moves_jstr _ (by decide)
  have hstart : Moves html (jstr ", 阅读开始时间：_____点_____分") [jstr "p"] [jstr "p"] :=
    moves_jstr _ (by decide)
  have hindex := (balanced_decimal (articleIndex + 1)).between hopen hid
  exact (appendNumber_balanced article.wordCount).between
    ((appendNumber_balanced article.id).between hindex hcount) hstart

/-- The table of an article is well nested. -/
theorem articleTable_balanced {article : Article} {overWords : List WordNode}
    (h : NestedArticle article) (hover : ∀ word ∈ overWords, NestedEntry word)
    (words : List JString) : Balanced (articleTable words overWords article) := by
  have hopen : Moves html (jstr "<table style=\"margin-left:6px;\"><tr><td style=\"width:160%\">")
      [] [jstr "td", jstr "tr", jstr "table"] := moves_jstr _ (by decide)
  have hcell : Moves html (jstr "<br/></td><td>") [jstr "td", jstr "tr", jstr "table"]
      [jstr "td", jstr "tr", jstr "table"] := moves_jstr _ (by decide)
  have hclose : Moves html (jstr "</td></tr></table><br/>")
      [jstr "td", jstr "tr", jstr "table"] [] := moves_jstr _ (by decide)
  have hpassage : Balanced (resolvePassage article.title words overWords).passage :=
    resolvePassage_balanced h.title
  have hquestions : Balanced (article.questions.flatMap questionLines) :=
    wellNested_flatMap fun question hquestion =>
      questionLines_balanced (h.questions question hquestion)
  have hside : Balanced
      (sideEntries (resolvePassage article.title words overWords).words).flatten := by
    refine sideEntries_balanced fun word hword => ?_
    have hfootnoted : Footnoted overWords word := footnoted_resolvePassage hword
    exact ⟨balanced_of_letters hfootnoted.letters, hover word hfootnoted.mem⟩
  have hfront := hpassage.between hopen (break_balanced.moves _)
  exact hside.between (hquestions.between hfront hcell) hclose

set_option maxRecDepth 2000 in
/-- The tips are balanced. -/
theorem articleTips_balanced : Balanced articleTips := by
  have htip : ∀ cs indent, (cs.flatMap utf16).contains 60 = false →
      Balanced (addTip (jstr (String.ofList cs)) indent) :=
    fun cs indent hplain => addTip_balanced (plain_balanced cs hplain) indent
  exact (((((htip _ _ (by decide)).append (htip _ _ (by decide))).append
    (htip _ _ (by decide))).append (htip _ _ (by decide))).append
    (htip _ _ (by decide))).append (htip _ _ (by decide))

/-- As many paragraphs stay open as there are articles. -/
theorem ofArticle_moves {articles : List Article} {overWords : List WordNode}
    (h : ∀ article ∈ articles, NestedArticle article)
    (hover : ∀ word ∈ overWords, NestedEntry word) (words : List JString) :
    Moves html (ofArticle articles words overWords) []
      (List.replicate articles.length (jstr "p")) := by
  have hone : ∀ text ∈ articles.mapIdx fun articleIndex article =>
      articleHead articleIndex article ++ articleTable words overWords article,
      Moves html text [] [jstr "p"] := by
    intro text htext
    rcases List.mem_mapIdx.mp htext with ⟨i, hi, rfl⟩
    have hnested : NestedArticle articles[i] := h articles[i] (List.getElem_mem hi)
    exact (articleHead_moves i articles[i]).append
      ((articleTable_balanced hnested hover words).moves _)
  have hall := moves_flatten_replicate hone []
  rw [List.length_mapIdx, List.append_nil] at hall
  unfold ofArticle
  split
  · rename_i hempty
    rw [List.isEmpty_iff.mp hempty]
    exact wellNested_nil
  · have htitle : Balanced (subTitle (jstr "智能阅读训练")) :=
      subTitle_balanced (plain_balanced _ (by decide))
    exact Moves.append (htitle.append articleTips_balanced) hall

/-! ## Answers -/

/-- The lines of the answers are balanced. -/
theorem answerLines_balanced {article : Article} (h : NestedArticle article) (i : Nat) :
    Balanced (answerLines i article) := by
  have hopen : Moves html (jstr "<div><p><b style=\"font-size:16px;\">Passage ") []
      [jstr "b", jstr "p", jstr "div"] := moves_jstr _ (by decide)
  have hanswer : Moves html (jstr "</b></p><p>") [jstr "b", jstr "p", jstr "div"]
      [jstr "p", jstr "div"] := moves_jstr _ (by decide)
  have hparse : Moves html (jstr "</p><p>") [jstr "p", jstr "div"] [jstr "p", jstr "div"] :=
    moves_jstr _ (by decide)
  have hclose : Moves html (jstr "</p></div>") [jstr "p", jstr "div"] [] := moves_jstr _ (by decide)
  have hhead := (balanced_decimal (i + 1)).between hopen hanswer
  exact (appendText_balanced h.parse).between
    ((appendText_balanced h.answer).between hhead hparse) hclose

/-- The answers are well nested. -/
theorem ofAnswer_balanced {articles : List Article}
    (h : ∀ article ∈ articles, NestedArticle article) : Balanced (ofAnswer articles) := by
  unfold ofAnswer
  split
  · exact wellNested_nil
  · have htitle : Balanced (subTitle (jstr "答案")) :=
      subTitle_balanced (plain_balanced _ (by decide))
    refine htitle.append (wellNested_flatten fun text htext => ?_)
    rcases List.mem_mapIdx.mp htext with ⟨i, hi, rfl⟩
    exact answerLines_balanced (h articles[i] (List.getElem_mem hi)) i

/-! ## The three documents -/

/-- The articles are well nested exactly when there is none. -/
theorem ofArticle_balanced_iff {articles : List Article} {overWords : List WordNode}
    (h : ∀ article ∈ articles, NestedArticle article)
    (hover : ∀ word ∈ overWords, NestedEntry word) (words : List JString) :
    Balanced (ofArticle articles words overWords) ↔ articles = [] := by
  constructor
  · intro hbalanced
    have hopen : List.replicate articles.length (jstr "p") = [] :=
      (ofArticle_moves h hover words).unique hbalanced
    rw [List.replicate_eq_nil_iff] at hopen
    exact List.length_eq_zero_iff.mp hopen
  · rintro rfl
    exact wellNested_nil

/-- With well nested strings the words and the answers are always well nested, and all three
documents are exactly when there is no article. -/
theorem printed_balanced_iff (shuffle : Shuffle) {words : List WordNode}
    {articles : List Article} {overWords : List WordNode} (h : Embedded words articles overWords)
    (studyWords : List JString) :
    (Balanced (ofWords shuffle words) ∧ Balanced (ofArticle articles studyWords overWords) ∧
        Balanced (ofAnswer articles) ↔ articles = []) ∧
      Balanced (ofWords shuffle words) ∧ Balanced (ofAnswer articles) := by
  have hwords : Balanced (ofWords shuffle words) := ofWords_balanced shuffle h.words
  have hanswers : Balanced (ofAnswer articles) := ofAnswer_balanced h.articles
  have harticles : Balanced (ofArticle articles studyWords overWords) ↔ articles = [] :=
    ofArticle_balanced_iff h.articles h.overWords studyWords
  refine ⟨?_, hwords, hanswers⟩
  rw [harticles]
  exact ⟨fun hall => hall.2.1, fun hnone => ⟨hwords, hnone, hanswers⟩⟩

/-! ## A short article -/

/-- An article without tags, with a question that has one option. -/
def shortArticle : Article where
  id := 1
  title := jstr "The cat sleeps."
  parse := some (jstr "It sleeps.")
  answer := some (jstr "A")
  questions := [⟨some (jstr "What does it do?"), some (jstr "sleep"), none, none, none⟩]
  wordCount := 3

/-- The word of the short article. -/
def shortWord : WordNode where
  word := jstr "cat"
  meaning := jstr "n. pet"
  englishPronunciation := []
  americaPronunciation := []
  sentence := none

/-- A shuffle that changes nothing. -/
def Shuffle.still : Shuffle where
  run _ spells := spells
  perm _ _ := List.Perm.refl _

/-- The article of the example is nested. -/
theorem shortArticle_nested : NestedArticle shortArticle := by
  have hquestion : ∀ question ∈ shortArticle.questions, NestedQuestion question := by
    intro question hquestion
    rw [List.mem_singleton.mp hquestion]
    constructor
    · rintro _ ⟨⟩
      exact plain_balanced _ (by decide)
    · intro option hoption text htext
      simp only [questionOptions, List.mem_cons, List.not_mem_nil, or_false] at hoption
      rcases hoption with rfl | rfl | rfl | rfl
      · cases htext
        exact plain_balanced _ (by decide)
      · cases htext
      · cases htext
      · cases htext
  refine ⟨plain_balanced _ (by decide), ?_, ?_, hquestion⟩
  · rintro _ ⟨⟩
    exact plain_balanced _ (by decide)
  · rintro _ ⟨⟩
    exact plain_balanced _ (by decide)

/-- The document of the example is embedded. -/
theorem short_embedded : Embedded [shortWord] [shortArticle] [shortWord] := by
  have hentry : NestedEntry shortWord := by
    have hmeanings : shortWord.meanings = [jstr "n. pet"] := by decide +kernel
    refine ⟨wellNested_nil, ?_⟩
    rw [hmeanings, List.forall_mem_singleton]
    exact plain_balanced _ (by decide)
  refine ⟨?_, ?_, ?_⟩
  · rw [List.forall_mem_singleton]
    exact ⟨plain_balanced _ (by decide), hentry⟩
  · rw [List.forall_mem_singleton]
    exact shortArticle_nested
  · rw [List.forall_mem_singleton]
    exact hentry

/-- The paragraph over the short article stays open, and the words and the answers are well
nested. -/
theorem printed_balanced_short :
    ¬ (Balanced (ofWords Shuffle.still [shortWord]) ∧
        Balanced (ofArticle [shortArticle] [] [shortWord]) ∧ Balanced (ofAnswer [shortArticle])) ∧
      Balanced (ofWords Shuffle.still [shortWord]) ∧ Balanced (ofAnswer [shortArticle]) := by
  rcases printed_balanced_iff Shuffle.still short_embedded [] with ⟨hiff, hothers⟩
  exact ⟨mt hiff.mp (by simp), hothers⟩

/-- An article whose texts are well nested and whose title ends in no letter is printed with
a paragraph that is opened and never closed. -/
theorem short_article_left_open :
    Embedded [shortWord] [shortArticle] [shortWord] ∧ endsInLetter shortArticle.title = false ∧
      Moves html (ofArticle [shortArticle] [] [shortWord]) [] [jstr "p"] ∧
      ¬ Balanced (ofArticle [shortArticle] [] [shortWord]) := by
  have hmoves := ofArticle_moves short_embedded.articles short_embedded.overWords []
  refine ⟨short_embedded, by decide, hmoves, fun hbalanced => ?_⟩
  have hopen := hmoves.unique hbalanced
  cases hopen

end HtmlUtil
end TestAio
