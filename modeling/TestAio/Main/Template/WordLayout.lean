import TestAio.Java.Text
import TestAio.Library.Siblings

/-!
# The four-column word table

{lit}`Html2Word.WordTablePolicy.render` writes numbered words into the cells of a table.  It
goes through the rows and finds for every cell the word that belongs there when the columns
are filled one after the other.

Main results:

- Theorem {lit}`mem_writes_iff`: which cells are written, and with which words.
- Theorem {lit}`index_lt_index`: further right and further down stand later words.
- Theorem {lit}`render_column_major`: the table is filled in columns, without gaps and
  repetitions, as far as its fifty rows reach.

Current gaps:

- A paragraph is the list of its runs.
-/

namespace TestAio
namespace Html2Word

/-! ## Data -/

/-- {lit}`net.cjsah.data.WordMeaning`. -/
structure WordMeaning where
  word : JString
deriving DecidableEq

/-- A run with its fonts. -/
structure Run where
  text : JString
  eastAsia : JString
  ascii : JString
  hAnsi : JString
  fontSize : Nat
deriving DecidableEq

/-- A cell; it has a paragraph. -/
structure Cell where
  first : List Run
  others : List (List Run)
deriving DecidableEq

/-- The cells of a table by rows. -/
abbrev Table := List (List Cell)

/-! ## The function -/

/-- {lit}`String.format("%03d", k)`. -/
def format03d (k : Nat) : JString :=
  List.replicate (3 - (decimal k).length) (jchar '0') ++ decimal k

/-- The run for a word. -/
def wordRun (index : Nat) (word : WordMeaning) : Run where
  text := format03d (index + 1) ++ jstr "." ++ word.word
  eastAsia := jstr "宋体"
  ascii := jstr "Times New Roman"
  hAnsi := jstr "Times New Roman"
  fontSize := 9

/-- A round of the inner loop that gets to a cell. -/
structure Write where
  row : Nat
  col : Nat
  index : Nat
deriving DecidableEq

/-- The cell that is written. -/
def Write.cell (write : Write) : Nat × Nat :=
  (write.row, write.col)

/-- The index of the word for a cell, for {lit}`n` words. -/
def wordIndex (n row col : Nat) : Nat :=
  col * (n / 4) + min (n % 4) col + row

/-- The rounds of the inner loop before its {lit}`break`. -/
def rowWrites (n row : Nat) : List Write :=
  ((List.range 4).takeWhile fun col =>
      !(decide (wordIndex n row col ≥ n) ||
        (decide (row = n / 4) && decide (col ≥ n % 4)))).map fun col =>
    { row := row, col := col, index := wordIndex n row col }

/-- The rounds of both loops, in the order of the loops. -/
def writes (n : Nat) : List Write :=
  ((List.range 50).takeWhile fun row => !decide (row = n / 4 + min (n % 4) 1)).flatMap
    (rowWrites n)

/-- {lit}`paragraph.insertNewRun(0)` with the run of a word. -/
def Cell.insert (cell : Cell) (run : Run) : Cell :=
  { cell with first := run :: cell.first }

/-- The body of the inner loop; it fails for a cell or a word that is not there. -/
def write (words : List WordMeaning) (table : Table) (w : Write) : Option Table := do
  let tableRow ← table[w.row]?
  let cell ← tableRow[w.col]?
  let word ← words[w.index]?
  some (table.set w.row (tableRow.set w.col (cell.insert (wordRun w.index word))))

/-- {lit}`WordTablePolicy.render`. -/
def render (words : Option (List WordMeaning)) (table : Table) : Option Table :=
  match words with
  | none => some table
  | some words => (writes words.length).foldlM (write words) table

/-! ## Which cells are written -/

/-- A loop over a range up to its {lit}`break`. -/
theorem mem_takeWhile_range {p : Nat → Bool} {n i : Nat} :
    i ∈ (List.range n).takeWhile p ↔ i < n ∧ ∀ j ≤ i, p j = true := by
  have hrun : ∀ s, i ∈ (List.range' s n).takeWhile p ↔
      (s ≤ i ∧ i < s + n) ∧ ∀ j, s ≤ j → j ≤ i → p j = true := by
    induction n with
    | zero =>
        intro s
        refine iff_of_false (by simp) fun h => ?_
        omega
    | succ n ih =>
        intro s
        rw [List.range'_succ, List.takeWhile_cons]
        by_cases hs : p s = true
        · rw [if_pos hs, List.mem_cons, ih]
          constructor
          · rintro (rfl | ⟨hrange, hall⟩)
            · refine ⟨by omega, fun j hsj hji => ?_⟩
              rwa [Nat.le_antisymm hji hsj]
            · refine ⟨by omega, fun j hsj hji => ?_⟩
              by_cases hj : j = s
              · rwa [hj]
              · exact hall j (by omega) hji
          · rintro ⟨hrange, hall⟩
            by_cases hi : i = s
            · exact Or.inl hi
            · exact Or.inr ⟨by omega, fun j hsj hji => hall j (by omega) hji⟩
        · rw [if_neg hs]
          refine iff_of_false List.not_mem_nil fun h => ?_
          exact hs (h.2 s (by omega) h.1.1)
  rw [List.range_eq_range', hrun 0]
  constructor
  · exact fun h => ⟨by omega, fun j hj => h.2 j (by omega) hj⟩
  · exact fun h => ⟨by omega, fun j _ hj => h.2 j hj⟩

/-- The columns are four. -/
theorem col_cases {col : Nat} (h : col < 4) : col = 0 ∨ col = 1 ∨ col = 2 ∨ col = 3 := by
  omega

/-- The cell belongs to the layout: the last row may be shorter than the others. -/
def InLayout (n row col : Nat) : Prop :=
  col < 4 ∧ (row < n / 4 ∨ row = n / 4 ∧ col < n % 4)

theorem wordIndex_lt {n row col : Nat} (h : InLayout n row col) : wordIndex n row col < n := by
  unfold InLayout at h
  unfold wordIndex
  rcases col_cases h.1 with rfl | rfl | rfl | rfl <;> omega

theorem mem_rowWrites_iff {n row : Nat} (hrow : row < n / 4 + min (n % 4) 1) {w : Write} :
    w ∈ rowWrites n row ↔
      w.row = row ∧ InLayout n row w.col ∧ w.index = wordIndex n row w.col := by
  have hcol : ∀ col, col ∈ (List.range 4).takeWhile (fun col =>
      !(decide (wordIndex n row col ≥ n) ||
        (decide (row = n / 4) && decide (col ≥ n % 4)))) ↔ InLayout n row col := by
    intro col
    rw [mem_takeWhile_range]
    simp only [Bool.not_eq_true', Bool.or_eq_false_iff, Bool.and_eq_false_iff,
      decide_eq_false_iff_not, Nat.not_le]
    constructor
    · rintro ⟨hlt, hall⟩
      have hlast := (hall col le_rfl).2
      refine ⟨hlt, ?_⟩
      omega
    · intro h
      refine ⟨h.1, fun j hj => ?_⟩
      have hbefore : InLayout n row j := by
        unfold InLayout at h ⊢
        omega
      refine ⟨wordIndex_lt hbefore, ?_⟩
      unfold InLayout at hbefore
      omega
  unfold rowWrites
  rw [List.mem_map]
  constructor
  · rintro ⟨col, hmem, rfl⟩
    exact ⟨rfl, (hcol col).mp hmem, rfl⟩
  · rintro ⟨hrow, hlayout, hindex⟩
    refine ⟨w.col, (hcol w.col).mpr hlayout, ?_⟩
    rw [← hrow] at hindex ⊢
    rw [← hindex]

/-- Which cells are written, and with which words. -/
theorem mem_writes_iff {n : Nat} {w : Write} :
    w ∈ writes n ↔
      w.row < 50 ∧ InLayout n w.row w.col ∧ w.index = wordIndex n w.row w.col := by
  have hrow : ∀ row, row ∈ (List.range 50).takeWhile
      (fun row => !decide (row = n / 4 + min (n % 4) 1)) ↔
        row < 50 ∧ row < n / 4 + min (n % 4) 1 := by
    intro row
    rw [mem_takeWhile_range]
    simp only [Bool.not_eq_true', decide_eq_false_iff_not]
    refine and_congr_right fun _ => ⟨fun h => ?_, fun h j hj => by omega⟩
    by_contra hle
    exact h _ (by omega) rfl
  unfold writes
  rw [List.mem_flatMap]
  constructor
  · rintro ⟨row, hmem, hw⟩
    rcases (hrow row).mp hmem with ⟨hlt, hend⟩
    rcases (mem_rowWrites_iff hend).mp hw with ⟨rfl, hlayout, hindex⟩
    exact ⟨hlt, hlayout, hindex⟩
  · rintro ⟨hlt, hlayout, hindex⟩
    have hend : w.row < n / 4 + min (n % 4) 1 := by
      unfold InLayout at hlayout
      omega
    exact ⟨w.row, (hrow w.row).mpr ⟨hlt, hend⟩,
      (mem_rowWrites_iff hend).mpr ⟨rfl, hlayout, hindex⟩⟩

/-- The first cell stands in a column further left, or further up in the same column. -/
def Write.Before (w w' : Write) : Prop :=
  w.col < w'.col ∨ w.col = w'.col ∧ w.row < w'.row

theorem wordIndex_lt_wordIndex {n row col row' col' : Nat} (h : InLayout n row col)
    (h' : InLayout n row' col') (hbefore : col < col' ∨ col = col' ∧ row < row') :
    wordIndex n row col < wordIndex n row' col' := by
  unfold InLayout at h h'
  unfold wordIndex
  rcases col_cases h.1 with rfl | rfl | rfl | rfl <;>
    rcases col_cases h'.1 with rfl | rfl | rfl | rfl <;> omega

/-- Further right and further down stand later words. -/
theorem index_lt_index {n : Nat} {w w' : Write} (hw : w ∈ writes n) (hw' : w' ∈ writes n)
    (h : w.Before w') : w.index < w'.index := by
  rcases mem_writes_iff.mp hw with ⟨-, hlayout, hindex⟩
  rcases mem_writes_iff.mp hw' with ⟨-, hlayout', hindex'⟩
  rw [hindex, hindex']
  exact wordIndex_lt_wordIndex hlayout hlayout' h

/-- Every word has a cell as long as the rows reach. -/
theorem exists_write {n i : Nat} (hn : (n + 3) / 4 ≤ 50) (hi : i < n) :
    ∃ w ∈ writes n, w.index = i := by
  have hcol : ∃ col row, InLayout n row col ∧ wordIndex n row col = i := by
    unfold InLayout wordIndex
    by_cases h1 : i < n / 4 + min (n % 4) 1
    · exact ⟨0, i, by omega, by omega⟩
    · by_cases h2 : i < 2 * (n / 4) + min (n % 4) 2
      · exact ⟨1, i - (n / 4 + min (n % 4) 1), by omega, by omega⟩
      · by_cases h3 : i < 3 * (n / 4) + min (n % 4) 3
        · exact ⟨2, i - (2 * (n / 4) + min (n % 4) 2), by omega, by omega⟩
        · exact ⟨3, i - (3 * (n / 4) + min (n % 4) 3), by omega, by omega⟩
  rcases hcol with ⟨col, row, hlayout, hindex⟩
  refine ⟨⟨row, col, i⟩, mem_writes_iff.mpr ⟨?_, hlayout, hindex.symm⟩, rfl⟩
  unfold InLayout at hlayout
  change row < 50
  omega

/-- No cell is written twice. -/
theorem nodup_cells_writes (n : Nat) : ((writes n).map Write.cell).Nodup := by
  have hnodup : (writes n).Nodup := by
    unfold writes
    refine @Library.Siblings.nodup_flatMap_of_keys _ _ _ id Write.row _ _ ?_
      (fun row _ => ?_) fun row _ w hw => ?_
    · rw [List.map_id]
      exact (List.takeWhile_sublist _).nodup List.nodup_range
    · apply List.Nodup.of_map Write.col
      unfold rowWrites
      rw [List.map_map]
      exact ((List.takeWhile_sublist _).nodup List.nodup_range).map fun _ _ h => h
    · rcases List.mem_map.mp hw with ⟨col, -, rfl⟩
      rfl
  apply hnodup.map_on
  intro w hw w' hw' hcell
  rcases mem_writes_iff.mp hw with ⟨-, -, hindex⟩
  rcases mem_writes_iff.mp hw' with ⟨-, -, hindex'⟩
  have hrow : w.row = w'.row := congrArg Prod.fst hcell
  have hcol : w.col = w'.col := congrArg Prod.snd hcell
  rw [← hrow, ← hcol, ← hindex] at hindex'
  cases w
  cases w'
  simp_all

/-- No word is written twice. -/
theorem nodup_indexes_writes (n : Nat) : ((writes n).map Write.index).Nodup := by
  apply (nodup_cells_writes n).of_map.map_on
  intro w hw w' hw' hindex
  by_contra hne
  have hcells : ¬ (w.row = w'.row ∧ w.col = w'.col) := by
    rintro ⟨hrow, hcol⟩
    apply hne
    cases w
    cases w'
    simp_all
  have hordered : w.Before w' ∨ w'.Before w := by
    unfold Write.Before
    omega
  rcases hordered with hbefore | hbefore
  · exact absurd (index_lt_index hw hw' hbefore) (by omega)
  · exact absurd (index_lt_index hw' hw hbefore) (by omega)

/-! ## The table behind the loops -/

/-- The cell of a table at a row and a column. -/
def cellAt (table : Table) (cell : Nat × Nat) : Option Cell :=
  table[cell.1]?.bind fun tableRow => tableRow[cell.2]?

/-- A write changes its cell and no other. -/
theorem write_eq {words : List WordMeaning} {table : Table} {w : Write} {cell : Cell}
    {word : WordMeaning} (hcell : cellAt table w.cell = some cell)
    (hword : words[w.index]? = some word) :
    ∃ table', write words table w = some table' ∧
      cellAt table' w.cell = some (cell.insert (wordRun w.index word)) ∧
      ∀ other, other ≠ w.cell → cellAt table' other = cellAt table other := by
  rcases Option.bind_eq_some_iff.mp hcell with ⟨tableRow, hrow, hcol⟩
  change table[w.row]? = some tableRow at hrow
  change tableRow[w.col]? = some cell at hcol
  have hrowLt : w.row < table.length := (List.getElem?_eq_some_iff.mp hrow).1
  have hcolLt : w.col < tableRow.length := (List.getElem?_eq_some_iff.mp hcol).1
  refine ⟨table.set w.row (tableRow.set w.col (cell.insert (wordRun w.index word))), ?_, ?_, ?_⟩
  · unfold write
    rw [hrow, hword]
    simp only [Option.bind_eq_bind, Option.bind_some]
    rw [hcol]
    rfl
  · unfold cellAt Write.cell
    rw [List.getElem?_set_self hrowLt, Option.bind_some, List.getElem?_set_self hcolLt]
  · intro other hother
    unfold cellAt
    by_cases hsameRow : w.row = other.1
    · have hotherCol : w.col ≠ other.2 := fun h => hother (Prod.ext hsameRow.symm h.symm)
      rw [← hsameRow, List.getElem?_set_self hrowLt, hrow, Option.bind_some, Option.bind_some,
        List.getElem?_set_ne hotherCol]
    · rw [List.getElem?_set_ne hsameRow]

/-- The cells of a table behind some writes: each of the written cells starts with the run of
its word, and the other cells are as before. -/
def Filled (words : List WordMeaning) (ws : List Write) (table table' : Table) : Prop :=
  (∀ w ∈ ws, ∃ cell word, cellAt table w.cell = some cell ∧ words[w.index]? = some word ∧
      cellAt table' w.cell = some (cell.insert (wordRun w.index word))) ∧
    ∀ other, other ∉ ws.map Write.cell → cellAt table' other = cellAt table other

theorem foldlM_write {words : List WordMeaning} {ws : List Write} {table : Table}
    (hnodup : (ws.map Write.cell).Nodup)
    (hthere : ∀ w ∈ ws, (cellAt table w.cell).isSome ∧ w.index < words.length) :
    ∃ table', ws.foldlM (write words) table = some table' ∧ Filled words ws table table' := by
  induction ws generalizing table with
  | nil => exact ⟨table, rfl, by simp, fun _ _ => rfl⟩
  | cons w ws ih =>
      rw [List.map_cons, List.nodup_cons] at hnodup
      have hne : ∀ w' ∈ ws, w'.cell ≠ w.cell :=
        fun w' hw' heq => hnodup.1 (heq ▸ List.mem_map_of_mem hw')
      rcases hthere w List.mem_cons_self with ⟨hsome, hlt⟩
      rcases Option.isSome_iff_exists.mp hsome with ⟨cell, hcell⟩
      have hword := List.getElem?_eq_getElem hlt
      rcases write_eq hcell hword with ⟨next, hwrite, hwritten, hframe⟩
      have hrest : ∀ w' ∈ ws, (cellAt next w'.cell).isSome ∧ w'.index < words.length := by
        intro w' hw'
        rw [hframe _ (hne w' hw')]
        exact hthere w' (List.mem_cons_of_mem _ hw')
      rcases ih hnodup.2 hrest with ⟨table', hfold, hfilled, hothers⟩
      refine ⟨table', ?_, ?_, ?_⟩
      · rw [List.foldlM_cons, hwrite]
        exact hfold
      · intro w' hw'
        rcases List.mem_cons.mp hw' with rfl | hw'
        · exact ⟨cell, _, hcell, hword, by rw [hothers _ hnodup.1, hwritten]⟩
        · rcases hfilled w' hw' with ⟨cell', word', hcell', hword', hwritten'⟩
          rw [hframe _ (hne w' hw')] at hcell'
          exact ⟨cell', word', hcell', hword', hwritten'⟩
      · intro other hother
        rw [List.map_cons, List.mem_cons, not_or] at hother
        rw [hothers other hother.2, hframe other hother.1]

/-- The table has fifty rows of four cells. -/
def Fits (table : Table) : Prop :=
  ∀ row < 50, ∃ tableRow, table[row]? = some tableRow ∧ tableRow.length = 4

/-- The table is filled in columns, without gaps and repetitions, as far as its fifty rows
reach. -/
theorem render_column_major (words : List WordMeaning) {table : Table} (h : Fits table) :
    (∃ table', render (some words) table = some table' ∧
        Filled words (writes words.length) table table') ∧
      ((writes words.length).map Write.index).Nodup ∧
      ((writes words.length).map Write.cell).Nodup ∧
      (∀ w ∈ writes words.length, w.index < words.length) ∧
      (∀ w ∈ writes words.length, ∀ w' ∈ writes words.length,
        w.Before w' → w.index < w'.index) ∧
      ((words.length + 3) / 4 ≤ 50 →
        ∀ i < words.length, i ∈ (writes words.length).map Write.index) := by
  have hlt : ∀ w ∈ writes words.length, w.index < words.length := by
    intro w hw
    rcases mem_writes_iff.mp hw with ⟨-, hlayout, hindex⟩
    rw [hindex]
    exact wordIndex_lt hlayout
  refine ⟨foldlM_write (nodup_cells_writes _) fun w hw => ⟨?_, hlt w hw⟩,
    nodup_indexes_writes _, nodup_cells_writes _, hlt,
    fun w hw w' hw' => index_lt_index hw hw', fun hn i hi => ?_⟩
  · rcases mem_writes_iff.mp hw with ⟨hrow, hlayout, -⟩
    rcases h w.row hrow with ⟨tableRow, htableRow, hlength⟩
    have hcol : w.col < tableRow.length := by
      rw [hlength]
      exact hlayout.1
    unfold cellAt Write.cell
    rw [htableRow, Option.bind_some, List.getElem?_eq_getElem hcol]
    rfl
  · rcases exists_write hn hi with ⟨w, hw, rfl⟩
    exact List.mem_map_of_mem hw

/-- Five words in an empty table. -/
theorem render_column_major_five :
    (∃ table', render (some (List.replicate 5 ⟨jstr "cat"⟩))
          (List.replicate 50 (List.replicate 4 ⟨[], []⟩)) = some table' ∧
        Filled (List.replicate 5 ⟨jstr "cat"⟩) (writes 5)
          (List.replicate 50 (List.replicate 4 ⟨[], []⟩)) table') ∧
      ((writes 5).map Write.index).Nodup ∧ ((writes 5).map Write.cell).Nodup ∧
      (∀ w ∈ writes 5, w.index < 5) ∧
      (∀ w ∈ writes 5, ∀ w' ∈ writes 5, w.Before w' → w.index < w'.index) ∧
      ((5 + 3) / 4 ≤ 50 → ∀ i < 5, i ∈ (writes 5).map Write.index) :=
  render_column_major (List.replicate 5 ⟨jstr "cat"⟩) fun row hrow =>
    ⟨List.replicate 4 ⟨[], []⟩, by rw [List.getElem?_replicate, if_pos hrow], rfl⟩

end Html2Word
end TestAio
