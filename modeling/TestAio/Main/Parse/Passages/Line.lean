import TestAio.Java.Pattern

/-!
# The lines of a document

Both passage parsers read the paragraphs of a document line by line, skip the
lines that are blank, and classify a line by how its trimmed text starts.

Main results:

- Theorem {lit}`not_translates_of_opens`: a line that opens a passage does not start a
  later section.

Current gaps:

- A document is the list of its paragraph texts.
-/

namespace TestAio
namespace Passages

/-- A line as it stands and trimmed. -/
structure Line where
  /-- The line with its blanks. -/
  origin : JString
  /-- The line without leading and trailing blanks. -/
  trim : JString
deriving DecidableEq

/-- The line break inside a paragraph. -/
def lineFeed : JChar :=
  jchar '\n'

/-- The non-blank lines of a document, in order.  Pieces that {lit}`split` drops at the end
of a paragraph are empty and would be skipped anyway. -/
def documentLines (paragraphs : List JString) : List Line :=
  paragraphs.flatMap fun text => (text.splitOn lineFeed).filterMap fun s =>
    if (trim s).isEmpty then none else some { origin := s, trim := trim s }

/-! ## Kinds of lines -/

/-- {lit}`Passage`: opens a passage. -/
def opens (line : Line) : Bool :=
  startsWith line.trim (jstr "Passage")

/-- {lit}`开始时间`: the text of the passage begins. -/
def begins (line : Line) : Bool :=
  startsWith line.trim (jstr "开始时间")

/-- {lit}`其他单词释义`: the list of further words. -/
def glossary (line : Line) : Bool :=
  startsWith line.trim (jstr "其他单词释义")

/-- {lit}`\t*郑重提示.*` is found in every line that contains the words. -/
def reminds (line : Line) : Bool :=
  Library.Search.contains line.trim (jstr "郑重提示")

/-- {lit}`完成时间`: the end of the questions. -/
def finishes (line : Line) : Bool :=
  startsWith line.trim (jstr "完成时间")

/-- {lit}`答案`: the answers of all passages. -/
def answers (line : Line) : Bool :=
  startsWith line.trim (jstr "答案")

/-- {lit}`全文参考翻译`: the translations of all passages. -/
def translates (line : Line) : Bool :=
  startsWith line.trim (jstr "全文参考翻译")

/-- The word in front of the difficulty of a document. -/
def difficultyLead : JString :=
  jstr "本次文章词汇难度值："

/-- The line names the difficulty of the document. -/
def rates (line : Line) : Bool :=
  (findNumber difficultyLead line.trim).isSome

/-- A heading of a passage is not one of the answers. -/
theorem not_answers_of_opens {line : Line} (h : opens line = true) : answers line = false :=
  not_startsWith_of_startsWith h (by decide) (by decide)

/-- A heading of a passage is not one of the translations. -/
theorem not_translates_of_opens {line : Line} (h : opens line = true) :
    translates line = false :=
  not_startsWith_of_startsWith h (by decide) (by decide)

/-- A heading of the answers opens no passage. -/
theorem not_opens_of_answers {line : Line} (h : answers line = true) : opens line = false :=
  not_startsWith_of_startsWith h (by decide) (by decide)

/-- A heading of the translations opens no passage. -/
theorem not_opens_of_translates {line : Line} (h : translates line = true) :
    opens line = false :=
  not_startsWith_of_startsWith h (by decide) (by decide)

end Passages
end TestAio
