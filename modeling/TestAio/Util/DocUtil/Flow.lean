import TestAio.Library.Effects
import TestAio.Util.DocUtil.Convert

/-!
# The conversion in two stages

The conversion reads the tree and writes the document in one mutable pass.  Here
the two are separated.  The flow of an element is what it contributes in reading
order: text runs, paragraph starts, images and tables, whose cells are flows
again.  Writing a flow is a pure fold over its items.

Main results:

- Theorem {lit}`parseHtmlNode_eq_emitAll`: the conversion is the reading of the flow
  followed by the writing of its items, aborts included.
- Theorem {lit}`flow_succ`: the flow of an element is made of the flows of its children.
- Theorem {lit}`Item.listInduction`: induction over flows, through the cells of the
  tables.

Current gaps:

- None.
-/

namespace TestAio
namespace DocUtil

open Library

/-! ## Flows -/

/-- One contribution of an element. -/
inductive Item
  /-- A run of text, as {lit}`genR` gets it; an occurrence of an over-word carries its
  entry. -/
  | run (value : JString) (format : RPr) (bold italic : Bool) (overWord : Option WordNode)
  /-- The start of a new paragraph. -/
  | paragraph
  /-- An image that could be loaded. -/
  | image (body : List UInt8)
  /-- A table as rows of cells, each cell a flow. -/
  | table (rows : List (List (List Item)))

/-- The item a node of {lit}`parsePassage` becomes. -/
def pieceItem (format : RPr) (pnode : PassageNode) : Except Abort Item :=
  if pnode.nextLine then
    .ok .paragraph
  else if pnode.italic then
    match pnode.wordNode with
    | none => .error .nullPointer
    | some wordNode =>
        .ok (.run pnode.value format pnode.bold pnode.italic (some wordNode))
  else
    .ok (.run pnode.value format pnode.bold pnode.italic none)

/-- The cells of a row, read by {lit}`read`; a row without cells makes the column
width divide by zero. -/
def readRow (read : List Node → Except Abort (List Item)) (tr : List Node) :
    Except Abort (List (List Item)) :=
  let tds := getElementsByTag .td tr
  if tds.length = 0 then .error .arithmetic else tds.mapM read

theorem readRow_eq_ok_iff {read : List Node → Except Abort (List Item)} {tr : List Node}
    {row : List (List Item)} :
    readRow read tr = .ok row ↔
      getElementsByTag .td tr ≠ [] ∧ (getElementsByTag .td tr).mapM read = .ok row := by
  unfold readRow
  simp only [List.length_eq_zero_iff]
  split_ifs with htds <;> simp [htds]

mutual

/-- The flow of the children of an element. -/
def flow (env : Env) : Nat → List Node → RPr → List WordNode → List WordNode →
    Except Abort (List Item)
  | 0, _, _, _, _ => .error .outOfFuel
  | fuel + 1, childNodes, format, bolds, italics =>
      (childNodes.mapM fun (node : Node) =>
        match node with
        | .text value => do
            let results ← cutText fuel value bolds italics
            results.mapM (pieceItem format)
        | .element tag src childNodes =>
            match tag with
            | .br => .ok [.paragraph]
            | .strong => flow env fuel childNodes (setBold (copyRpr format)) bolds italics
            | .div | .span | .center | .bdo => flow env fuel childNodes format bolds italics
            | .p =>
                (flow env fuel childNodes format bolds italics).map fun items =>
                  Item.paragraph :: items ++ [Item.paragraph]
            | .u => flow env fuel childNodes (setUnderline (copyRpr format)) [] []
            | .table => tableFlow env fuel childNodes bolds italics
            | .img =>
                match env.download src with
                | some body => .ok [.image body]
                | none => .ok []
            | .tr | .td | .other => .ok []
        | .comment | .other => .ok []).map List.flatten

/-- The flow of a table: one item, or none for a table without rows. -/
def tableFlow (env : Env) : Nat → List Node → List WordNode → List WordNode →
    Except Abort (List Item)
  | 0, _, _, _ => .error .outOfFuel
  | fuel + 1, table, bolds, italics =>
      let trs := getElementsByTag .tr table
      if trs.isEmpty then
        .ok []
      else
        (trs.mapM (readRow fun td => flow env fuel td (genRpr false false) bolds italics)).map
          fun rows => [Item.table rows]

end

/-! ## One node -/

/-- The loop body of {lit}`flow`. -/
def nodeFlow (env : Env) (fuel : Nat) (format : RPr) (bolds italics : List WordNode) :
    Node → Except Abort (List Item)
  | .text value => do
      let results ← cutText fuel value bolds italics
      results.mapM (pieceItem format)
  | .element tag src childNodes =>
      match tag with
      | .br => .ok [.paragraph]
      | .strong => flow env fuel childNodes (setBold (copyRpr format)) bolds italics
      | .div | .span | .center | .bdo => flow env fuel childNodes format bolds italics
      | .p =>
          (flow env fuel childNodes format bolds italics).map fun items =>
            Item.paragraph :: items ++ [Item.paragraph]
      | .u => flow env fuel childNodes (setUnderline (copyRpr format)) [] []
      | .table => tableFlow env fuel childNodes bolds italics
      | .img =>
          match env.download src with
          | some body => .ok [.image body]
          | none => .ok []
      | .tr | .td | .other => .ok []
  | .comment | .other => .ok []

theorem flow_succ (env : Env) (fuel : Nat) (nodes : List Node) (format : RPr)
    (bolds italics : List WordNode) :
    flow env (fuel + 1) nodes format bolds italics =
      (nodes.mapM (nodeFlow env fuel format bolds italics)).map List.flatten := by
  rw [flow]
  rfl

/-- The flow of one node. -/
theorem flow_singleton (env : Env) (fuel : Nat) (node : Node) (format : RPr)
    (bolds italics : List WordNode) :
    flow env (fuel + 1) [node] format bolds italics =
      nodeFlow env fuel format bolds italics node := by
  rw [flow_succ, List.mapM_cons, List.mapM_nil]
  cases nodeFlow env fuel format bolds italics node with
  | error e => rfl
  | ok items => exact congrArg Except.ok (List.append_nil items)

/-! ## Writing a flow -/

/-- The blocks of a cell: trimmed and indented. -/
def cellNodes (env : Env) (progress : ParseProgress) : List ContentAccessor :=
  (trimNodes env progress.nodes).map ContentAccessor.indentCell

mutual

/-- Write one item. -/
def emit (env : Env) (progress : ParseProgress) : Item → ParseProgress
  | .run value format bold italic none => progress.addRun (genR value format bold italic)
  | .run value format bold italic (some wordNode) =>
      let progress := progress.addRun (genR value format bold italic)
      let (num, progress) := progress.number wordNode
      progress.addRun (genMark num)
  | .paragraph => progress.newParagraph
  | .image body => progress.addImage body
  | .table rows =>
      let progress := { progress with afters := progress.afters ++ rowsAfters env rows }
      progress.addTable (emitRows env rows)

/-- Write the items of a flow one after the other. -/
def emitAll (env : Env) (progress : ParseProgress) : List Item → ParseProgress
  | [] => progress
  | item :: items => emitAll env (emit env progress item) items

/-- The rows of a table. -/
def emitRows (env : Env) : List (List (List Item)) → List Tr
  | [] => []
  | row :: rows => Tr.mk (emitCells env (7152 / row.length) row) :: emitRows env rows

/-- The cells of a row, each written with a progress of its own. -/
def emitCells (env : Env) (width : Nat) : List (List Item) → List Tc
  | [] => []
  | cell :: cells =>
      Tc.mk width (cellNodes env (emitAll env (.new false) cell)) :: emitCells env width cells

/-- The images of the rows of a table. -/
def rowsAfters (env : Env) : List (List (List Item)) → List (List UInt8)
  | [] => []
  | row :: rows => cellsAfters env row ++ rowsAfters env rows

/-- The images of the cells of a row. -/
def cellsAfters (env : Env) : List (List Item) → List (List UInt8)
  | [] => []
  | cell :: cells => (emitAll env (.new false) cell).afters ++ cellsAfters env cells

end

/-! ## Induction over flows -/

/-- Induction over flows: an item in front of a flow, where a table also offers the
property for the flows of its cells. -/
theorem Item.listInduction {motive : List Item → Prop} (nil : motive [])
    (run : ∀ value format bold italic overWord items, motive items →
      motive (.run value format bold italic overWord :: items))
    (paragraph : ∀ items, motive items → motive (.paragraph :: items))
    (image : ∀ body items, motive items → motive (.image body :: items))
    (table : ∀ rows items, (∀ row ∈ rows, ∀ cell ∈ row, motive cell) → motive items →
      motive (.table rows :: items))
    (items : List Item) : motive items := by
  refine Item.rec_3
    (motive_1 := fun item => ∀ items, motive items → motive (item :: items))
    (motive_2 := fun rows => ∀ row ∈ rows, ∀ cell ∈ row, motive cell)
    (motive_3 := fun row => ∀ cell ∈ row, motive cell)
    (motive_4 := motive) run paragraph image (fun rows hrows items => table rows items hrows)
    ?_ ?_ ?_ ?_ nil (fun item items hitem hitems => hitem items hitems) items
  · simp
  · intro row rows hrow hrows r hr
    rcases List.mem_cons.mp hr with rfl | hr
    · exact hrow
    · exact hrows r hr
  · simp
  · intro cell cells hcell hcells c hc
    rcases List.mem_cons.mp hc with rfl | hc
    · exact hcell
    · exact hcells c hc

/-! ## The conversion writes its flow -/

variable (env : Env)

theorem emitAll_eq_foldl (progress : ParseProgress) (items : List Item) :
    emitAll env progress items = items.foldl (emit env) progress := by
  induction items generalizing progress with
  | nil => rfl
  | cons item items ih => exact ih _

@[simp]
theorem emitAll_append (progress : ParseProgress) (xs ys : List Item) :
    emitAll env progress (xs ++ ys) = emitAll env (emitAll env progress xs) ys := by
  simp [emitAll_eq_foldl]

theorem foldl_emitAll (progress : ParseProgress) (flows : List (List Item)) :
    flows.foldl (emitAll env) progress = emitAll env progress flows.flatten := by
  induction flows generalizing progress with
  | nil => rfl
  | cons items flows ih => simp [ih]

theorem emitRows_eq_map (rows : List (List (List Item))) :
    emitRows env rows = rows.map fun row => Tr.mk (emitCells env (7152 / row.length) row) := by
  induction rows with
  | nil => rfl
  | cons row rows ih => simp [emitRows, ih]

/-- Adding a node of {lit}`parsePassage` is writing its item. -/
theorem addNode_eq (format : RPr) (progress : ParseProgress) (pnode : PassageNode) :
    addNode format progress pnode = (pieceItem format pnode).map (emit env progress) := by
  unfold addNode pieceItem
  split_ifs with hnext hitalic
  · rfl
  · cases pnode.wordNode <;> rfl
  · rfl

/-- The inner loop of {lit}`parseTable`: the cells and the images of one row. -/
theorem foldl_cells (width : Nat) (cells : List (List Item)) (docTr : List Tc)
    (progress : ParseProgress) :
    cells.foldl (fun acc cell =>
        (acc.1 ++ [Tc.mk width (cellNodes env (emitAll env (.new false) cell))],
          { acc.2 with
            afters := acc.2.afters ++ (emitAll env (.new false) cell).afters }))
        (docTr, progress) =
      (docTr ++ emitCells env width cells,
        { progress with afters := progress.afters ++ cellsAfters env cells }) := by
  induction cells generalizing docTr progress with
  | nil => simp [emitCells, cellsAfters]
  | cons cell cells ih => simp [ih, emitCells, cellsAfters]

/-- The outer loop of {lit}`parseTable`: the rows of the table. -/
theorem foldl_rows (rows : List (List (List Item))) (docTbl : List Tr)
    (progress : ParseProgress) :
    rows.foldl (fun acc row =>
        (acc.1 ++ [Tr.mk (emitCells env (7152 / row.length) row)],
          { acc.2 with afters := acc.2.afters ++ cellsAfters env row })) (docTbl, progress) =
      (docTbl ++ emitRows env rows,
        { progress with afters := progress.afters ++ rowsAfters env rows }) := by
  induction rows generalizing docTbl progress with
  | nil => simp [emitRows, rowsAfters]
  | cons row rows ih => simp [ih, emitRows, rowsAfters]

/-- One row of {lit}`parseTable` reads the flows of its cells and writes them. -/
theorem addRow_eq {convert : List Node → Except Abort ParseProgress}
    {read : List Node → Except Abort (List Item)}
    (hcells : ∀ td, convert td = (read td).map (emitAll env (.new false)))
    (acc : List Tr × ParseProgress) (tr : List Node) :
    addRow env convert acc tr = (readRow read tr).map fun row =>
      (acc.1 ++ [Tr.mk (emitCells env (7152 / row.length) row)],
        { acc.2 with afters := acc.2.afters ++ cellsAfters env row }) := by
  unfold addRow readRow
  simp only
  split_ifs with htds
  · rfl
  · rw [Effects.foldlM_eq_map_mapM read
      (fun acc cell =>
        (acc.1 ++ [Tc.mk (7152 / (getElementsByTag .td tr).length)
            (cellNodes env (emitAll env (.new false) cell))],
          { acc.2 with
            afters := acc.2.afters ++ (emitAll env (.new false) cell).afters }))]
    · cases hrow : (getElementsByTag .td tr).mapM read with
      | error e => rfl
      | ok row =>
          have hlength := (Effects.mapM_eq_ok_iff.mp hrow).length_eq
          simp only [Effects.map_ok, bind, Except.bind]
          rw [foldl_cells, hlength, List.nil_append]
    · intro td _ acc
      unfold addCell
      rw [hcells td]
      cases read td <;> rfl

/-- The conversion of an element and of a table, for one amount of fuel. -/
def WritesFlow (fuel : Nat) : Prop :=
  (∀ childNodes progress format bolds italics indent,
    parseHtmlNode env fuel childNodes progress format bolds italics indent =
      (flow env fuel childNodes format bolds italics).map (emitAll env progress)) ∧
  (∀ table progress bolds italics indent,
    parseTable env fuel table progress bolds italics indent =
      (tableFlow env fuel table bolds italics).map (emitAll env progress))

theorem parseTable_step {fuel : Nat} (ih : WritesFlow env fuel) (table : List Node)
    (progress : ParseProgress) (bolds italics : List WordNode) (indent : Bool) :
    parseTable env (fuel + 1) table progress bolds italics indent =
      (tableFlow env (fuel + 1) table bolds italics).map (emitAll env progress) := by
  simp only [parseTable, tableFlow]
  split_ifs with hempty
  · rfl
  · rw [Effects.foldlM_eq_map_mapM _ _ fun tr _ acc =>
      addRow_eq env (fun td => ih.1 td _ _ _ _ _) acc tr]
    cases (getElementsByTag .tr table).mapM
      (readRow fun td => flow env fuel td (genRpr false false) bolds italics) with
    | error e => rfl
    | ok rows =>
        simp only [Effects.map_ok, bind, Except.bind]
        rw [foldl_rows]
        rfl

theorem parseHtmlNode_step {fuel : Nat} (ih : WritesFlow env fuel) (childNodes : List Node)
    (progress : ParseProgress) (format : RPr) (bolds italics : List WordNode)
    (indent : Bool) :
    parseHtmlNode env (fuel + 1) childNodes progress format bolds italics indent =
      (flow env (fuel + 1) childNodes format bolds italics).map (emitAll env progress) := by
  simp only [parseHtmlNode, flow]
  rw [Effects.map_map]
  have hwrite : (emitAll env progress ∘ List.flatten) =
      fun flows => flows.foldl (emitAll env) progress := by
    funext flows
    exact (foldl_emitAll env progress flows).symm
  rw [hwrite]
  apply Effects.foldlM_eq_map_mapM
  intro node _ progress
  cases node with
  | text value =>
      simp only
      cases cutText fuel value bolds italics with
      | error e => rfl
      | ok results =>
          simp only [bind, Except.bind]
          rw [Effects.foldlM_eq_map_mapM (pieceItem format) (emit env)
            (fun pnode _ progress => addNode_eq env format progress pnode)]
          congr 1
          funext items
          exact (emitAll_eq_foldl env progress items).symm
  | element tag src childNodes =>
      cases tag with
      | br => rfl
      | strong => exact ih.1 _ _ _ _ _ _
      | div => exact ih.1 _ _ _ _ _ _
      | span => exact ih.1 _ _ _ _ _ _
      | center => exact ih.1 _ _ _ _ _ _
      | bdo => exact ih.1 _ _ _ _ _ _
      | p =>
          simp only [ih.1]
          cases flow env fuel childNodes format bolds italics with
          | error e => rfl
          | ok items => simp [bind, Except.bind, emitAll, emit]
      | u => exact ih.1 _ _ _ _ _ _
      | table => exact ih.2 _ _ _ _ _
      | img => cases hload : env.download src <;> simp [hload, emitAll, emit]
      | tr => rfl
      | td => rfl
      | other => rfl
  | comment => rfl
  | other => rfl

theorem writesFlow (fuel : Nat) : WritesFlow env fuel := by
  induction fuel with
  | zero => exact ⟨fun _ _ _ _ _ _ => rfl, fun _ _ _ _ _ => rfl⟩
  | succ fuel ih => exact ⟨parseHtmlNode_step env ih, parseTable_step env ih⟩

/-- The conversion reads the flow and writes its items, aborts included. -/
theorem parseHtmlNode_eq_emitAll (fuel : Nat) (childNodes : List Node)
    (progress : ParseProgress) (format : RPr) (bolds italics : List WordNode)
    (indent : Bool) :
    parseHtmlNode env fuel childNodes progress format bolds italics indent =
      (flow env fuel childNodes format bolds italics).map (emitAll env progress) :=
  (writesFlow env fuel).1 _ _ _ _ _ _

end DocUtil
end TestAio
