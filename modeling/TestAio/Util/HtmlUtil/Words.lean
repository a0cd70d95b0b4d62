import TestAio.Data.Meanings
import TestAio.Library.FairRounds
import TestAio.Util.HtmlUtil.ResolvePassage

/-!
# The word list and its spelling drill

{lit}`HtmlUtil.ofWords` prints the words with their meanings and then a drill: the meanings
are shuffled and numbered in up to four rounds.

Main results:

- Theorem {lit}`length_spellRows`: how many rows the drill has.
- Theorem {lit}`spellRows_fair`: the drill uses every place of the list about equally often.

Current gaps:

- A shuffle is a parameter that may rearrange a list differently every time.
-/

namespace TestAio
namespace HtmlUtil

open Library

/-- {lit}`Collections.shuffle`, as the program calls it the {lit}`k`-th time. -/
structure Shuffle where
  /-- The list behind the call. -/
  run : Nat → List JString → List JString
  perm : ∀ k spells, (run k spells).Perm spells

/-- {lit}`subTitle`. -/
def subTitle (name : JString) : JString :=
  jstr "<p style=\"font-size:20px;text-align:center;margin:12px 0;\">" ++ name ++ jstr "</p>"

/-- {lit}`addTip`. -/
def addTip (tip : JString) (indent : Bool) : JString :=
  jstr "<p style=\"font-size:12px;color:#595959;" ++
    (if indent then jstr "text-indent:24px;" else []) ++ jstr "\">" ++ tip ++ jstr "</p>"

/-- What {lit}`ofWords` prints for a word. -/
def wordParagraphs (i : Nat) (word : WordNode) : JString :=
  jstr "<p><span style=\"color:#595959;\">" ++ decimal (i + 1) ++ jstr ".</span> <b>" ++
    word.word ++ jstr "</b> " ++ word.englishPronunciation ++ jstr "</p>" ++
    word.meanings.flatMap fun meaning =>
      jstr "<p style=\"display:block;text-indent: 24px\">" ++ meaning ++ jstr "</p>"

/-- What {lit}`ofWords` prints for a row of the drill. -/
def spellParagraph (row : JString × Nat) : JString :=
  jstr "<p style=\"text-align:right;margin:12px 0;\">" ++ row.1 ++ codePointUnits 160 ++
    decimal row.2 ++ jstr ".__________" ++ jstr "</p>"

/-- The rounds {lit}`i`, {lit}`i + 1` and so on of the loop {lit}`spell`: the rows with their
numbers. -/
def spellRounds (shuffle : Shuffle) (i count : Nat) (spells : List JString) :
    Nat → List (JString × Nat)
  | 0 => []
  | rounds + 1 =>
      let shuffled := shuffle.run i spells
      let round := Rounds.emit (fun count => decide (count ≥ 120) && decide (i ≠ 0)) count shuffled
      if round.2 then
        round.1
      else
        round.1 ++ spellRounds shuffle (i + 1) (count + round.1.length) shuffled rounds

/-- The rows of the drill. -/
def spellRows (shuffle : Shuffle) (spells : List JString) : List (JString × Nat) :=
  spellRounds shuffle 0 0 spells 4

/-- {lit}`HtmlUtil.ofWords`. -/
def ofWords (shuffle : Shuffle) (words : List WordNode) : JString :=
  if words.isEmpty then
    []
  else
    let builder := subTitle (jstr "生词表") ++ (words.mapIdx wordParagraphs).flatten
    let spells := words.flatMap WordNode.meanings
    if spells.isEmpty then
      builder
    else
      builder ++ subTitle (jstr "单词速记") ++
        addTip (jstr "请在今天学习的单词列表中找到对应单词，写在横线上，边抄边读，可以默写，默写后在单词列表中找到并核对，书写时保持工整。") true ++
        (spellRows shuffle spells).flatMap spellParagraph

theorem spellRounds_eq (shuffle : Shuffle) (i count : Nat) (spells : List JString)
    (rounds : Nat) :
    spellRounds shuffle i count spells rounds =
      Rounds.emitRounds shuffle.run 120 i count spells rounds := by
  induction rounds generalizing i count spells with
  | zero => rfl
  | succ rounds ih =>
      rw [spellRounds, Rounds.emitRounds, ih]

/-- How many rows the drill has. -/
theorem length_spellRows (shuffle : Shuffle) {spells : List JString} (h : spells ≠ []) :
    (spellRows shuffle spells).length =
      if 120 ≤ spells.length then spells.length + 1 else min (4 * spells.length) 120 := by
  rw [spellRows, spellRounds_eq]
  exact Rounds.length_emitRounds_zero shuffle.perm 120 h 2

/-! ## Fairness -/

/-- A shuffle that draws a rearrangement of the places of the list. -/
def Shuffle.ofOrders {n : Nat} (orders : Nat → Equiv.Perm (Fin n)) : Shuffle where
  run k spells := Rounds.permute (orders k) spells
  perm k spells := Rounds.permute_perm (orders k) spells

/-- The rounds over the places of the list: which place each row is from, and its number. -/
def drillPlaces {n : Nat} (orders : Nat → Equiv.Perm (Fin n)) (limit : Nat) :
    List (Fin n × Nat) :=
  Rounds.emitRounds (fun k => Rounds.permute (orders k)) limit 0 0 (List.finRange n) 4

/-- The rows say what stands at their places, are numbered 1, 2, 3 and so on, and use every
place between one and four times, no place twice more than another. -/
structure FairDrill (spells : List JString) (rows : List (JString × Nat))
    (places : List (Fin spells.length × Nat)) : Prop where
  rows_eq : rows = places.map fun place => (spells.get place.1, place.2)
  numbered : rows.map Prod.snd = List.range' 1 rows.length
  fair : Rounds.Fair (List.finRange spells.length) (places.map Prod.fst) 4

theorem emitRounds_fairDrill (spells : List JString)
    (orders : Nat → Equiv.Perm (Fin spells.length)) (limit : Nat) :
    FairDrill spells (Rounds.emitRounds (Shuffle.ofOrders orders).run limit 0 0 spells 4)
      (drillPlaces orders limit) where
  rows_eq := by
    have hrounds := Rounds.emitRounds_map
      (fun k places => Rounds.permute_map (orders k) spells.get places)
      limit 0 0 (List.finRange spells.length) 4
    rw [List.map_get_finRange] at hrounds
    exact hrounds
  numbered := Rounds.emitRounds_numbered _ limit 0 0 spells 4
  fair := Rounds.emitRounds_fair (fun k places => Rounds.permute_perm (orders k) places) limit
    (List.nodup_finRange _) 3

/-- The drill of {lit}`ofWords` is fair. -/
theorem spellRows_fair (spells : List JString) (orders : Nat → Equiv.Perm (Fin spells.length)) :
    FairDrill spells (spellRows (Shuffle.ofOrders orders) spells) (drillPlaces orders 120) := by
  rw [spellRows, spellRounds_eq]
  exact emitRounds_fairDrill spells orders 120

end HtmlUtil
end TestAio
