import TestAio.Java.Text

/-!
# Articles

The records {lit}`net.cjsah.data.Article` and {lit}`net.cjsah.data.SubQuestion`, as the HTML
renderer reads them.
-/

namespace TestAio

/-- {lit}`net.cjsah.data.SubQuestion`; a field may be absent in the JSON. -/
structure SubQuestion where
  title : Option JString
  optionA : Option JString
  optionB : Option JString
  optionC : Option JString
  optionD : Option JString
deriving DecidableEq

/-- {lit}`net.cjsah.data.Article`. -/
structure Article where
  id : Int
  title : JString
  parse : Option JString
  answer : Option JString
  questions : List SubQuestion
  wordCount : Int
deriving DecidableEq

end TestAio
