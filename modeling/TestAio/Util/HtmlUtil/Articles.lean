import TestAio.Data.Article
import TestAio.Util.HtmlUtil.FootnoteNumbers
import TestAio.Util.HtmlUtil.Words

/-!
# The articles and the answers

{lit}`HtmlUtil.ofArticle` prints every article with its questions and, beside it, the entries
of its footnotes; {lit}`HtmlUtil.ofAnswer` prints the answers with their explanations.

Main results:

- Definitions {lit}`ofArticle` and {lit}`ofAnswer`.
- Theorem {lit}`optionLines_skip`: nothing is printed behind the first option that is missing.

Current gaps:

- An article has a title; the other texts may be absent.
-/

namespace TestAio
namespace HtmlUtil

/-- {lit}`builder.append(text)` for a text that may be null. -/
def appendText (text : Option JString) : JString :=
  text.getD (jstr "null")

/-- {lit}`builder.append(n)`. -/
def appendNumber (n : Int) : JString :=
  (if n < 0 then jstr "-" else []) ++ decimal n.natAbs

/-- {lit}`addOptionCheckFail`: what is printed, and the returned value. -/
def addOptionCheckFail (option : JChar) (text : Option JString) : JString × Bool :=
  match text with
  | none => ([], true)
  | some text =>
      if text.isEmpty then
        ([], true)
      else
        ([option] ++ jstr ". " ++ text ++ jstr "<br/>", false)

/-- The options of a question up to the first that fails. -/
def optionLines : List (JChar × Option JString) → JString
  | [] => []
  | option :: rest =>
      let line := addOptionCheckFail option.1 option.2
      if line.2 then line.1 else line.1 ++ optionLines rest

/-- The options of a question. -/
def questionOptions (question : SubQuestion) : List (JChar × Option JString) :=
  [(jchar 'A', question.optionA), (jchar 'B', question.optionB), (jchar 'C', question.optionC),
    (jchar 'D', question.optionD)]

/-- What {lit}`ofArticle` prints for a question. -/
def questionLines (question : SubQuestion) : JString :=
  jstr "<br/>" ++ appendText question.title ++ jstr "<br/>" ++
    optionLines (questionOptions question)

/-- The line over an article. -/
def articleHead (articleIndex : Nat) (article : Article) : JString :=
  jstr "<p><b style=\"font-size:16px;\">Passage " ++ decimal (articleIndex + 1) ++
    jstr "</b> 编号:" ++ appendNumber article.id ++ jstr ", 字数:" ++
    appendNumber article.wordCount ++ jstr ", 阅读开始时间：_____点_____分"

/-- The table of an article: the passage with its questions, and the side list. -/
def articleTable (words : List JString) (overWords : List WordNode) (article : Article) :
    JString :=
  let parseResult := resolvePassage article.title words overWords
  jstr "<table style=\"margin-left:6px;\"><tr><td style=\"width:160%\">" ++ parseResult.passage ++
    jstr "<br/>" ++ article.questions.flatMap questionLines ++ jstr "<br/></td><td>" ++
    (sideEntries parseResult.words).flatten ++ jstr "</td></tr></table><br/>"

/-- The tips over the articles. -/
def articleTips : JString :=
  addTip
      (jstr "我们进行的是刻意练习，不是简单的做阅读题，我们要实现的目标是流利性阅读，并在流利性阅读中提升学生的词汇和阅读能力。所以我们要做到以下几点：") true ++
    addTip
      (jstr "第一遍阅读中不认识的单词和句子，尽量猜测词义，并加以标记。") true ++
    addTip
      (jstr "读完全文后，要查询生词和句子的意思，并抄在右侧批注区，不要在原文上注释。复习时对照所划的单词、句子以及批注强化学习即可。") true ++
    addTip
      (jstr "流利性阅读训练的目的是提高英语语感，所以切勿为了做题而做题。需要逐字逐句的搞懂文章的意思。") true ++
    addTip
      (jstr "阅读速度是很重要的学习指标，请在理解词句的基础上尽量提高阅读速度。") true ++
    addTip
      (jstr "☆阅读计时从此处开始，请按顺序完成阅读，并注意记录时间。") false

/-- {lit}`HtmlUtil.ofArticle`. -/
def ofArticle (articles : List Article) (words : List JString) (overWords : List WordNode) :
    JString :=
  if articles.isEmpty then
    []
  else
    subTitle (jstr "智能阅读训练") ++ articleTips ++
      (articles.mapIdx fun articleIndex article =>
        articleHead articleIndex article ++ articleTable words overWords article).flatten

/-- What {lit}`ofAnswer` prints for an article. -/
def answerLines (i : Nat) (article : Article) : JString :=
  jstr "<div><p><b style=\"font-size:16px;\">Passage " ++ decimal (i + 1) ++
    jstr "</b></p><p>" ++ appendText article.answer ++ jstr "</p><p>" ++
    appendText article.parse ++ jstr "</p></div>"

/-- {lit}`HtmlUtil.ofAnswer`. -/
def ofAnswer (articles : List Article) : JString :=
  if articles.isEmpty then
    []
  else
    subTitle (jstr "答案") ++ (articles.mapIdx answerLines).flatten

/-- An option is missing. -/
def isMissing (text : Option JString) : Bool :=
  text.all List.isEmpty

theorem addOptionCheckFail_of_missing (option : JChar) {text : Option JString}
    (h : isMissing text = true) : addOptionCheckFail option text = ([], true) := by
  cases text with
  | none => rfl
  | some text =>
      have hempty : text.isEmpty = true := h
      rw [addOptionCheckFail, if_pos hempty]

theorem addOptionCheckFail_of_present (option : JChar) {text : JString} (h : text ≠ []) :
    addOptionCheckFail option (some text) =
      ([option] ++ jstr ". " ++ text ++ jstr "<br/>", false) := by
  rw [addOptionCheckFail, if_neg (by simpa using h)]

/-- Nothing is printed behind the first option that is missing. -/
theorem optionLines_skip (front rest : List (JChar × Option JString)) (option : JChar)
    {text : Option JString} (h : isMissing text = true) :
    optionLines (front ++ (option, text) :: rest) = optionLines front := by
  induction front with
  | nil =>
      simp only [List.nil_append, optionLines, addOptionCheckFail_of_missing option h, if_true]
  | cons first front ih => rw [List.cons_append, optionLines, optionLines, ih]

end HtmlUtil
end TestAio
