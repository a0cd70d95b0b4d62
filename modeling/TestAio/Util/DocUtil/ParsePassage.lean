import TestAio.Data.WordNode
import TestAio.Library.Search
import TestAio.Library.WorkList

/-!
# Cutting a text at the listed words

{lit}`DocUtil.parsePassage` works a list of text nodes off from the front.  A node
in which a listed word is found is replaced by the text before the word, a
parsed node for the word and the text behind it; a node without a match is
finished.

Main results:

- Theorem {lit}`parsePassage_eq_run`: the loop is the general work-list loop.
- Theorem {lit}`cutNode_eq_some_iff`: the one lemma on what a cut does.
- Theorem {lit}`parsePassage_isSome`: with non-empty words the loop ends.
- Theorem {lit}`parsePassage_values`: the loop only cuts the text.

Current gaps:

- The words are present strings; a {lit}`WordNode` without a word makes
  {lit}`indexOf` throw and is not modelled.
-/

namespace TestAio
namespace DocUtil

open Library

/-! ## Text nodes -/

/-- {lit}`DocUtil.PassageNode`. -/
structure PassageNode where
  value : JString
  bold : Bool := false
  italic : Bool := false
  parsed : Bool := false
  nextLine : Bool := false
  wordNode : Option WordNode := none
deriving DecidableEq

/-- The three consumers handed to {lit}`parsePassage`. -/
inductive Flag
  | nextLine
  | bold
  | italic
deriving DecidableEq

/-- {lit}`consumer.accept(part)`. -/
def Flag.accept : Flag → PassageNode → PassageNode
  | .nextLine, part => { part with nextLine := true }
  | .bold, part => { part with bold := true }
  | .italic, part => { part with italic := true }

/-- {lit}`PassageNode.substring`: unless the range is empty, a new node for it is
put in front of {lit}`append`. -/
def PassageNode.substring (node : PassageNode) (start stop : Nat)
    (append : List PassageNode) (consumer : PassageNode → PassageNode) :
    List PassageNode :=
  if start = stop then
    append
  else
    consumer { value := (node.value.take stop).drop start
               bold := node.bold
               italic := node.italic } :: append

/-- The change made to the node of a matched word. -/
def markWord (flag : Flag) (word : WordNode) (part : PassageNode) : PassageNode :=
  { flag.accept part with wordNode := some word, parsed := true }

/-! ## Matching -/

/-- {lit}`DocUtil.notLetter`. -/
def notLetter (value : JString) (index : Int) : Bool :=
  if index < 0 then
    true
  else
    match value[index.toNat]? with
    | none => true
    | some c => (decide (c < 97) || decide (122 < c)) && (decide (c < 65) || decide (90 < c))

/-- The condition under which an occurrence at {lit}`index` counts. -/
def bounded (letter : Bool) (value word : JString) (index : Nat) : Bool :=
  !letter ||
    (notLetter value ((index : Int) - 1) && notLetter value ((index + word.length : Nat) : Int))

/-- The first word of the list whose first occurrence in the value counts. -/
def matchWord (words : List WordNode) (letter : Bool) (value : JString) :
    Option (WordNode × Nat) :=
  words.findSome? fun word =>
    match Search.indexOf value word.word with
    | none => none
    | some index => if bounded letter value word.word index then some (word, index) else none

/-- The three nodes pushed back in place of a matched node. -/
def PassageNode.pushParts (node : PassageNode) (flag : Flag) (word : WordNode)
    (index : Nat) (nodes : List PassageNode) : List PassageNode :=
  let behind := node.substring (word.word.length + index) node.value.length nodes id
  let matched := node.substring index (word.word.length + index) behind (markWord flag word)
  node.substring 0 index matched id

/-- The {lit}`while` loop of {lit}`parsePassage`, for at most {lit}`fuel` iterations. -/
def parsePassageLoop (words : List WordNode) (flag : Flag) (letter : Bool) :
    Nat → List PassageNode → List PassageNode → Option (List PassageNode)
  | _, [], results => some results
  | 0, _ :: _, _ => none
  | fuel + 1, node :: nodes, results =>
      if node.parsed then
        parsePassageLoop words flag letter fuel nodes (results ++ [node])
      else
        match matchWord words letter node.value with
        | some (word, index) =>
            parsePassageLoop words flag letter fuel (node.pushParts flag word index nodes) results
        | none => parsePassageLoop words flag letter fuel nodes (results ++ [node])

/-- {lit}`DocUtil.parsePassage`; no result means that {lit}`fuel` iterations were not
enough. -/
def parsePassage (fuel : Nat) (nodes : List PassageNode) (words : List WordNode)
    (flag : Flag) (letter : Bool) : Option (List PassageNode) :=
  parsePassageLoop words flag letter fuel nodes []

/-! ## The loop as a work list -/

/-- The parts a node is replaced by, or nothing when the node is finished. -/
def cutNode (words : List WordNode) (flag : Flag) (letter : Bool) (node : PassageNode) :
    Option (List PassageNode) :=
  if node.parsed then
    none
  else
    (matchWord words letter node.value).map fun (word, index) =>
      node.pushParts flag word index []

/-- The pieces go in front of the nodes that are left. -/
theorem substring_append (node : PassageNode) (start stop : Nat)
    (xs ys : List PassageNode) (consumer : PassageNode → PassageNode) :
    node.substring start stop (xs ++ ys) consumer =
      node.substring start stop xs consumer ++ ys := by
  unfold PassageNode.substring
  split <;> simp

/-- The parts are pushed in front of whatever is waiting. -/
theorem pushParts_append (node : PassageNode) (flag : Flag) (word : WordNode)
    (index : Nat) (nodes : List PassageNode) :
    node.pushParts flag word index nodes = node.pushParts flag word index [] ++ nodes := by
  simp only [PassageNode.pushParts]
  rw [← List.nil_append nodes, substring_append, substring_append, substring_append,
    List.nil_append]

/-- The loop is a work list that cuts one node at a time. -/
theorem parsePassage_eq_run (fuel : Nat) (nodes : List PassageNode)
    (words : List WordNode) (flag : Flag) (letter : Bool) :
    parsePassage fuel nodes words flag letter =
      WorkList.run (cutNode words flag letter) fuel nodes [] := by
  unfold parsePassage
  generalize ([] : List PassageNode) = results
  induction fuel generalizing nodes results with
  | zero => cases nodes <;> rfl
  | succ fuel ih =>
      cases nodes with
      | nil => rfl
      | cons node nodes =>
          simp only [parsePassageLoop, WorkList.run, cutNode]
          split_ifs with hparsed
          · exact ih _ _
          · cases hmatch : matchWord words letter node.value with
            | none => exact ih _ _
            | some found =>
                rcases found with ⟨word, index⟩
                simp only [Option.map_some]
                rw [pushParts_append, ih]

/-! ## What a cut does -/

/-- A match is the first occurrence of a listed word, bounded as required. -/
theorem matchWord_spec {words : List WordNode} {letter : Bool} {value : JString}
    {word : WordNode} {index : Nat}
    (h : matchWord words letter value = some (word, index)) :
    word ∈ words ∧ Search.indexOf value word.word = some index ∧
      bounded letter value word.word index = true := by
  rcases List.exists_of_findSome?_eq_some h with ⟨w, hw, hfound⟩
  cases hindex : Search.indexOf value w.word with
  | none => simp [hindex] at hfound
  | some i =>
      simp only [hindex] at hfound
      split_ifs at hfound with hbounded
      cases hfound
      exact ⟨hw, hindex, hbounded⟩

/-- The pieces of a value around a match. -/
structure MatchedAt (value word before after : JString) : Prop where
  value_eq : value = before ++ word ++ after
  first : Search.indexOf value word = some before.length

/-- A word that is found stands between two texts. -/
theorem exists_matchedAt {value word : JString} {index : Nat}
    (h : Search.indexOf value word = some index) :
    ∃ before after, index = before.length ∧ MatchedAt value word before after := by
  have hsplit := Search.split_of_indexOf h
  have hlength : (value.take index).length = index := by
    rcases Search.add_length_le_of_indexOf h with hle | hnil
    · rw [List.length_take]
      omega
    · subst hnil
      rw [Search.indexOf_eq_zero List.nil_prefix] at h
      cases h
      simp
  exact ⟨value.take index, value.drop (index + word.length), hlength.symm,
    hsplit, by rw [hlength]; exact h⟩

/-- An unparsed node for a non-empty text, nothing for an empty one. -/
def plainPart (node : PassageNode) (value : JString) : List PassageNode :=
  if value = [] then [] else [{ value := value, bold := node.bold, italic := node.italic }]

/-- The node of a matched word, nothing for an empty word. -/
def wordPart (node : PassageNode) (flag : Flag) (word : WordNode) : List PassageNode :=
  if word.word = [] then
    []
  else
    [markWord flag word { value := word.word, bold := node.bold, italic := node.italic }]

/-- Around a match the parts are the text before, the word and the text behind. -/
theorem pushParts_eq {node : PassageNode} {flag : Flag} {word : WordNode}
    {before after : JString} (hvalue : node.value = before ++ word.word ++ after) :
    node.pushParts flag word before.length [] =
      plainPart node before ++ wordPart node flag word ++ plainPart node after := by
  have hbefore : (node.value.take before.length).drop 0 = before := by
    rw [hvalue, List.append_assoc, List.drop_zero, List.take_left]
  have hword : (node.value.take (word.word.length + before.length)).drop before.length =
      word.word := by
    have hlen : word.word.length + before.length = (before ++ word.word).length := by
      rw [List.length_append, Nat.add_comm]
    rw [hvalue, hlen, List.take_left, List.drop_left]
  have hafter : (node.value.take node.value.length).drop (word.word.length + before.length) =
      after := by
    have hlen : word.word.length + before.length = (before ++ word.word).length := by
      rw [List.length_append, Nat.add_comm]
    rw [List.take_length, hlen, hvalue, List.drop_left]
  have hempty₁ : (0 = before.length) = (before = []) := by
    rw [← List.length_eq_zero_iff]
    exact propext eq_comm
  have hempty₂ : (before.length = word.word.length + before.length) = (word.word = []) := by
    rw [← List.length_eq_zero_iff]
    exact propext ⟨fun h => by omega, fun h => by omega⟩
  have hempty₃ : (word.word.length + before.length = node.value.length) = (after = []) := by
    rw [hvalue, ← List.length_eq_zero_iff]
    simp only [List.length_append]
    exact propext ⟨fun h => by omega, fun h => by omega⟩
  simp only [PassageNode.pushParts, PassageNode.substring, plainPart, wordPart, hbefore, hword,
    hafter, hempty₁, hempty₂, hempty₃, id]
  split_ifs <;> simp

/-- All that a cut can do, its guards included. -/
theorem cutNode_eq_some_iff {words : List WordNode} {flag : Flag} {letter : Bool}
    {node : PassageNode} {parts : List PassageNode} :
    cutNode words flag letter node = some parts ↔
      node.parsed = false ∧ ∃ word before after,
        matchWord words letter node.value = some (word, before.length) ∧
          MatchedAt node.value word.word before after ∧
          parts = plainPart node before ++ wordPart node flag word ++ plainPart node after := by
  unfold cutNode
  cases hparsed : node.parsed with
  | true => simp
  | false =>
      simp only [Bool.false_eq_true, if_false, true_and, Option.map_eq_some_iff]
      constructor
      · rintro ⟨⟨word, index⟩, hmatch, hparts⟩
        rcases matchWord_spec hmatch with ⟨-, hindex, -⟩
        rcases exists_matchedAt hindex with ⟨before, after, rfl, hat⟩
        exact ⟨word, before, after, hmatch, hat, by rw [← hparts, pushParts_eq hat.value_eq]⟩
      · rintro ⟨word, before, after, hmatch, hat, rfl⟩
        exact ⟨(word, before.length), hmatch, pushParts_eq hat.value_eq⟩

/-- A node is done when it is parsed or no word matches. -/
theorem cutNode_eq_none_iff {words : List WordNode} {flag : Flag} {letter : Bool}
    {node : PassageNode} :
    cutNode words flag letter node = none ↔
      node.parsed = true ∨ matchWord words letter node.value = none := by
  unfold cutNode
  cases node.parsed <;> simp

@[simp]
theorem plainPart_values (node : PassageNode) (value : JString) :
    (plainPart node value).flatMap PassageNode.value = value := by
  unfold plainPart
  split_ifs with hvalue <;> simp [hvalue]

/-- A mark leaves the text. -/
theorem markWord_value (flag : Flag) (word : WordNode) (part : PassageNode) :
    (markWord flag word part).value = part.value := by
  cases flag <;> rfl

@[simp]
theorem wordPart_values (node : PassageNode) (flag : Flag) (word : WordNode) :
    (wordPart node flag word).flatMap PassageNode.value = word.word := by
  unfold wordPart
  split_ifs with hword <;> simp [hword, markWord_value]

/-- The values of the parts join to the value of the node. -/
theorem cutNode_values {words : List WordNode} {flag : Flag} {letter : Bool}
    (node : PassageNode) (parts : List PassageNode)
    (h : cutNode words flag letter node = some parts) :
    parts.flatMap PassageNode.value = node.value := by
  rcases cutNode_eq_some_iff.mp h with ⟨-, word, before, after, -, hat, rfl⟩
  simp [hat.value_eq]

/-- The loop only cuts the text. -/
theorem parsePassage_values {fuel : Nat} {nodes results : List PassageNode}
    {words : List WordNode} {flag : Flag} {letter : Bool}
    (h : parsePassage fuel nodes words flag letter = some results) :
    results.flatMap PassageNode.value = nodes.flatMap PassageNode.value := by
  rw [parsePassage_eq_run] at h
  exact (WorkList.run_eq_some_iff.mp ⟨fuel, h⟩).flatMap_eq cutNode_values

/-! ## Termination -/

/-- A weight that every cut at a non-empty word lowers. -/
def PassageNode.weight (node : PassageNode) : Nat :=
  if node.parsed then 1 else 3 * node.value.length + 1

/-- Each node weighs something. -/
theorem PassageNode.weight_pos (node : PassageNode) : 0 < node.weight := by
  unfold PassageNode.weight
  split <;> omega

/-- What a plain part weighs. -/
theorem plainPart_weight_le (node : PassageNode) (value : JString) :
    ((plainPart node value).map PassageNode.weight).sum ≤ 3 * value.length + 1 := by
  unfold plainPart
  split_ifs with hvalue
  · simp
  · simp [PassageNode.weight]

/-- What a word weighs. -/
theorem wordPart_weight_le (node : PassageNode) (flag : Flag) (word : WordNode) :
    ((wordPart node flag word).map PassageNode.weight).sum ≤ 1 := by
  unfold wordPart
  split_ifs with hword
  · simp
  · simp [PassageNode.weight, markWord]

/-- With non-empty words every cut lowers the weight. -/
theorem cutNode_weight_lt {words : List WordNode} {flag : Flag} {letter : Bool}
    (hwords : ∀ word ∈ words, word.word ≠ []) (node : PassageNode)
    (parts : List PassageNode) (h : cutNode words flag letter node = some parts) :
    (parts.map PassageNode.weight).sum < node.weight := by
  rcases cutNode_eq_some_iff.mp h with ⟨hparsed, word, before, after, hmatch, hat, rfl⟩
  have hpos : 0 < word.word.length :=
    List.length_pos_of_ne_nil (hwords word (matchWord_spec hmatch).1)
  have hlen := congrArg List.length hat.value_eq
  have h₁ := plainPart_weight_le node before
  have h₂ := wordPart_weight_le node flag word
  have h₃ := plainPart_weight_le node after
  have hnode : node.weight = 3 * node.value.length + 1 := by
    simp [PassageNode.weight, hparsed]
  simp only [List.length_append] at hlen
  simp only [List.map_append, List.sum_append]
  omega

/-- With non-empty words the loop ends within the total weight. -/
theorem parsePassage_isSome {fuel : Nat} {nodes : List PassageNode}
    {words : List WordNode} (flag : Flag) (letter : Bool)
    (hwords : ∀ word ∈ words, word.word ≠ [])
    (hfuel : (nodes.map PassageNode.weight).sum ≤ fuel) :
    (parsePassage fuel nodes words flag letter).isSome = true := by
  rw [parsePassage_eq_run]
  exact WorkList.run_isSome_of_weight_le PassageNode.weight_pos (cutNode_weight_lt hwords)
    hfuel []

end DocUtil
end TestAio
