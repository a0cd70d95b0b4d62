import TestAio.Java.Text

/-!
# Vocabulary entries

The records {lit}`net.cjsah.data.WordNode` and {lit}`net.cjsah.data.Sentence`.
A word list handed to a renderer is a list of such entries; the renderers look
an entry up by its {lit}`word` and compare entries field by field.
-/

namespace TestAio

/-- {lit}`net.cjsah.data.Sentence`; either field may be absent in the JSON. -/
structure Sentence where
  english : Option JString
  chinese : Option JString
deriving DecidableEq

/-- {lit}`net.cjsah.data.WordNode`.  The constructor derives {lit}`meanings` from
{lit}`meaning`, so it takes no part in the field-wise equality. -/
structure WordNode where
  word : JString
  meaning : JString
  englishPronunciation : JString
  americaPronunciation : JString
  sentence : Option (List Sentence)
deriving DecidableEq

/-- The one-argument constructor {lit}`WordNode(String)`. -/
def WordNode.ofWord (word : JString) : WordNode where
  word := word
  meaning := []
  englishPronunciation := []
  americaPronunciation := []
  sentence := none

@[simp]
theorem WordNode.ofWord_word (word : JString) : (WordNode.ofWord word).word = word :=
  rfl

end TestAio
