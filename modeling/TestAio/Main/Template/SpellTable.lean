import TestAio.Util.HtmlUtil.Words

/-!
# The spelling drill as a table

{lit}`WordTableTemplate.parseSpell` fills a table with the drill that
{lit}`HtmlUtil.ofWords` prints as paragraphs.  Its loop is written differently and leaves the
rounds one row later.

Main results:

- Theorem {lit}`length_parseSpellRows`: how many rows the table gets.
- Theorem {lit}`drills_fair`: both drills use every place of the list about equally often.
- Theorem {lit}`drills_agree_iff`: the drills have the intended length together exactly for
  at most thirty spellings.

Current gaps:

- The XML library is a parameter, as for the rows of the meanings.
-/

namespace TestAio
namespace Template

open Library HtmlUtil

/-- The loop {lit}`words` from a round on: the values of {lit}`translate` and {lit}`index`
that are filled into the rows. -/
def parseSpellFrom (shuffle : Shuffle) (count index : Nat) (spells : List JString) :
    List (JString × Nat) :=
  let shuffled := shuffle.run count spells
  let round := Rounds.emit (fun index => decide (index > 120) && decide (count ≠ 0)) index shuffled
  if round.2 then
    round.1
  else if count + 1 ≥ 4 then
    round.1
  else
    round.1 ++ parseSpellFrom shuffle (count + 1) (index + round.1.length) shuffled
termination_by 4 - count

/-- The values for the rows of the whole table. -/
def parseSpellRows (shuffle : Shuffle) (spells : List JString) : List (JString × Nat) :=
  parseSpellFrom shuffle 0 0 spells

/-- {lit}`WordTableTemplate.parseSpell`: the rows of the table afterwards, and none for a
table without a row. -/
def parseSpell {Row : Type} (unmarshallFromTemplate : Row → JString × Nat → Row)
    (shuffle : Shuffle) (spells : List JString) : List Row → Option (List Row)
  | [] => none
  | tr :: _ => some ((parseSpellRows shuffle spells).map (unmarshallFromTemplate tr))

theorem parseSpellFrom_eq (shuffle : Shuffle) {count rounds : Nat} (h : count + rounds = 4)
    (hrounds : 0 < rounds) (index : Nat) (spells : List JString) :
    parseSpellFrom shuffle count index spells =
      Rounds.emitRounds shuffle.run 121 count index spells rounds := by
  induction rounds generalizing count index spells with
  | zero => omega
  | succ rounds ih =>
      have hleave : (fun index => decide (index > 120) && decide (count ≠ 0)) =
          fun index => decide (121 ≤ index) && decide (count ≠ 0) :=
        rfl
      rw [parseSpellFrom, Rounds.emitRounds, hleave]
      split_ifs with hbroken hlast
      · rfl
      · have hrounds : rounds = 0 := by omega
        rw [hrounds, Rounds.emitRounds, List.append_nil]
      · rw [ih (by omega) (by omega)]

/-- How many rows the table gets. -/
theorem length_parseSpellRows (shuffle : Shuffle) {spells : List JString} (h : spells ≠ []) :
    (parseSpellRows shuffle spells).length =
      if 121 ≤ spells.length then spells.length + 1 else min (4 * spells.length) 121 := by
  rw [parseSpellRows, @parseSpellFrom_eq shuffle 0 4 rfl (by omega)]
  exact Rounds.length_emitRounds_zero shuffle.perm 121 h 2

theorem length_parseSpell {Row : Type} {unmarshallFromTemplate : Row → JString × Nat → Row}
    {shuffle : Shuffle} {spells : List JString} {table rows : List Row}
    (h : parseSpell unmarshallFromTemplate shuffle spells table = some rows) :
    rows.length = (parseSpellRows shuffle spells).length := by
  cases table with
  | nil => cases h
  | cons tr _ =>
      rw [← Option.some.inj h, List.length_map]

/-- Whatever rearrangements the shuffles draw, the rows of both drills are numbered without
gaps and use every place of the list between one and four times, no place twice more than
another. -/
theorem drills_fair (spells : List JString) (orders : Nat → Equiv.Perm (Fin spells.length)) :
    FairDrill spells (spellRows (Shuffle.ofOrders orders) spells) (drillPlaces orders 120) ∧
      FairDrill spells (parseSpellRows (Shuffle.ofOrders orders) spells)
        (drillPlaces orders 121) := by
  apply And.intro (spellRows_fair spells orders)
  rw [parseSpellRows, @parseSpellFrom_eq _ 0 4 rfl (by omega)]
  exact emitRounds_fairDrill spells orders 121

/-- The drills have the intended length together exactly for at most thirty spellings. -/
theorem drills_agree_iff {Row : Type} (unmarshallFromTemplate : Row → JString × Nat → Row)
    (shuffle shuffle' : Shuffle) (tr : Row) (others : List Row) (spells : List JString)
    (h : spells ≠ []) :
    (∃ rows, parseSpell unmarshallFromTemplate shuffle' spells (tr :: others) = some rows ∧
        (spellRows shuffle spells).length = rows.length ∧
        (spellRows shuffle spells).length =
          max spells.length (min (4 * spells.length) 120)) ↔
      spells.length ≤ 30 := by
  have hpos : 0 < spells.length := List.length_pos_iff.mpr h
  have hhtml := length_spellRows shuffle h
  have htable := length_parseSpellRows shuffle' h
  constructor
  · rintro ⟨rows, hrows, hsame, hlength⟩
    rw [length_parseSpell hrows, htable] at hsame
    rw [hhtml] at hsame hlength
    split_ifs at hsame hlength <;> omega
  · intro hle
    refine ⟨_, rfl, ?_⟩
    rw [List.length_map, hhtml, htable, if_neg (by omega), if_neg (by omega)]
    omega

/-- A shuffle that leaves every list as it is. -/
def unshuffled : Shuffle where
  run _ spells := spells
  perm _ _ := .refl _

/-- A shuffle that turns every list round. -/
def reversed : Shuffle where
  run _ spells := spells.reverse
  perm _ spells := spells.reverse_perm

/-- Words of one letter, of two letters and so on. -/
def spellings (count : Nat) : List JString :=
  (List.range count).map fun k => List.replicate (k + 1) 97

theorem length_spellings (count : Nat) : (spellings count).length = count := by
  rw [spellings, List.length_map, List.length_range]

/-- The table of thirty words is as long as the paragraphs, with four rows for each word; the one
of thirty-one words is not. -/
theorem drills_agree_iff_thirty :
    (∃ rows, parseSpell (fun _ => id) reversed (spellings 30) [(jstr "", 0)] = some rows ∧
        (spellRows unshuffled (spellings 30)).length = rows.length ∧
        (spellRows unshuffled (spellings 30)).length =
          max (spellings 30).length (min (4 * (spellings 30).length) 120)) ∧
      ¬ ∃ rows, parseSpell (fun _ => id) reversed (spellings 31) [(jstr "", 0)] = some rows ∧
        (spellRows unshuffled (spellings 31)).length = rows.length ∧
        (spellRows unshuffled (spellings 31)).length =
          max (spellings 31).length (min (4 * (spellings 31).length) 120) := by
  have hne : ∀ count, 0 < count → spellings count ≠ [] := fun count hpos =>
    List.ne_nil_of_length_pos ((length_spellings count).symm ▸ hpos)
  have hiff := fun count hpos => drills_agree_iff (fun _ => id) unshuffled reversed (jstr "", 0) []
    (spellings count) (hne count hpos)
  refine ⟨(hiff 30 (by decide)).mpr ?_, mt (hiff 31 (by decide)).mp ?_⟩
  · rw [length_spellings]
  · rw [length_spellings]
    decide

/-- For thirty-one spellings the table has a row more than the paragraphs. -/
theorem drills_differ_for_thirty_one :
    (spellRows unshuffled (List.replicate 31 (jstr "a"))).length = 120 ∧
      (parseSpell (fun _ => id) unshuffled (List.replicate 31 (jstr "a"))
        [(jstr "", 0)]).map List.length = some 121 := by
  have hne : List.replicate 31 (jstr "a") ≠ [] := by simp
  refine ⟨?_, ?_⟩
  · rw [length_spellRows unshuffled hne, List.length_replicate]
    rfl
  · rw [parseSpell, Option.map_some, List.length_map, length_parseSpellRows unshuffled hne,
      List.length_replicate]
    rfl

end Template
end TestAio
