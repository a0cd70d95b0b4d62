import TestAio.Data.WordNode

/-!
# The article tokeniser of the HTML renderer

{lit}`HtmlUtil.resolvePassage` copies an article into a {lit}`StringBuilder`
and marks the listed words on the way.  One pass over the code units keeps a
pending word, a flag for the inside of a tag and the list of footnoted entries.

Main results:

- Theorem {lit}`codePointUnits_codePointAt`: copying the code point read at a
  unit copies that unit, and a second one at the start of a surrogate pair.
- Theorem {lit}`scannedUnits_eq_self_iff`: the loop reads every unit once exactly
  when the passage holds no surrogate pair.
- Theorem {lit}`countP_scannedUnits`: a unit read twice is never a letter.

Current gaps:

- The parallel streams of {lit}`StreamUtil` are modelled by their sequential
  meaning; {lit}`findFirst` respects the encounter order.
-/

namespace TestAio
namespace HtmlUtil

/-! ## Code points -/

/-- {lit}`passage.codePointAt(i)`, where {lit}`u` is the unit at {lit}`i` and
{lit}`rest` the units behind it. -/
def codePointAt (u : JChar) (rest : JString) : Nat :=
  match rest with
  | l :: _ =>
      if isHighSurrogate u && isLowSurrogate l then
        (u.toNat - 0xD800) * 0x400 + (l.toNat - 0xDC00) + 0x10000
      else
        u.toNat
  | [] => u.toNat

/-- The units that {lit}`StringBuilder.appendCodePoint` writes. -/
def codePointUnits (c : Nat) : JString :=
  if c < 0x10000 then
    [UInt16.ofNat c]
  else
    [UInt16.ofNat (0xD800 + (c - 0x10000) / 0x400),
      UInt16.ofNat (0xDC00 + (c - 0x10000) % 0x400)]

/-- {lit}`StringUtil.isLetter`. -/
def isLetter (unicode : Nat) : Bool :=
  decide ((97 ≤ unicode ∧ unicode ≤ 122) ∨ (65 ≤ unicode ∧ unicode ≤ 90))

/-- Whether a unit is an ASCII letter. -/
def isLetterUnit (c : JChar) : Bool :=
  isLetter c.toNat

/-- Whether a high surrogate is directly followed by a low one somewhere. -/
def hasSurrogatePair : JString → Bool
  | h :: l :: rest =>
      (isHighSurrogate h && isLowSurrogate l) || hasSurrogatePair (l :: rest)
  | _ => false

/-! ## The tokeniser -/

/-- One group of consecutive {lit}`builder.append` calls. -/
inductive Append
  /-- A code point copied from the passage. -/
  | codePoint (c : Nat)
  /-- The U+00A0 written for a space outside a tag. -/
  | nbsp
  /-- A pending word that is in neither list. -/
  | word (word : JString)
  /-- A study word with its {lit}`<b>` markup. -/
  | bold (word : JString)
  /-- An over-word with its {lit}`<i>` markup and the footnote number. -/
  | italic (word : JString) (num : Nat)
deriving DecidableEq

/-- The units the calls write. -/
def Append.units : Append → JString
  | .codePoint c => codePointUnits c
  | .nbsp => codePointUnits 160
  | .word w => w
  | .bold w => jstr "<b>" ++ w ++ jstr "</b>"
  | .italic w num =>
      jstr "<i>" ++ w ++ jstr "</i>" ++ jstr "<sup>[" ++ decimal num ++ jstr "]</sup>"

/-- The article text among these units: the markup is dropped and the U+00A0 is
the space it stands for. -/
def Append.source : Append → JString
  | .codePoint c => codePointUnits c
  | .nbsp => [jchar ' ']
  | .word w => w
  | .bold w => w
  | .italic w _ => w

/-- The local variables of {lit}`resolvePassage`. -/
structure ResolveState where
  nodes : List WordNode
  builder : List Append
  wordBuilder : JString
  append : Bool

/-- The variables before the loop. -/
def ResolveState.initial : ResolveState where
  nodes := []
  builder := []
  wordBuilder := []
  append := true

/-- {lit}`StreamUtil.find(overWords, it -> word.equals(it.getWord()))`. -/
def findWord (overWords : List WordNode) (word : JString) : Option WordNode :=
  overWords.find? fun it => word == it.word

/-- The footnote number of an entry, and the list of footnoted entries after it
has been asked for. -/
def footnote (nodes : List WordNode) (node : WordNode) : Nat × List WordNode :=
  match nodes.idxOf? node with
  | some num => (num + 1, nodes)
  | none => (nodes.length + 1, nodes ++ [node])

/-- How a complete word is written, and the footnoted entries afterwards. -/
def emitWord (studyWords : List JString) (overWords : List WordNode)
    (nodes : List WordNode) (word : JString) : Append × List WordNode :=
  if studyWords.contains word then
    (.bold word, nodes)
  else
    match findWord overWords word with
    | some node => (.italic word (footnote nodes node).1, (footnote nodes node).2)
    | none => (.word word, nodes)

/-- The branch {lit}`if (wordBuilder.length() > 0)`: write the pending word. -/
def flushWord (studyWords : List JString) (overWords : List WordNode)
    (st : ResolveState) : ResolveState :=
  if st.wordBuilder = [] then
    st
  else
    { st with
      wordBuilder := []
      builder := st.builder ++ [(emitWord studyWords overWords st.nodes st.wordBuilder).1]
      nodes := (emitWord studyWords overWords st.nodes st.wordBuilder).2 }

/-- The loop body for a letter: it waits in the pending word outside a tag and
is copied at once inside one. -/
def readLetter (st : ResolveState) (c : Nat) : ResolveState :=
  if st.append then
    { st with wordBuilder := st.wordBuilder ++ codePointUnits c }
  else
    { st with builder := st.builder ++ [.codePoint c] }

/-- The copy of a code point that is no letter, and the {lit}`switch` after it. -/
def copySeparator (st : ResolveState) (c : Nat) : ResolveState :=
  { st with
    builder := st.builder ++ [if st.append && c == 32 then .nbsp else .codePoint c]
    append := if c = 60 then false else if c = 62 then true else st.append }

/-- The loop body for one code point. -/
def resolveStep (studyWords : List JString) (overWords : List WordNode)
    (st : ResolveState) (c : Nat) : ResolveState :=
  if isLetter c then
    readLetter st c
  else
    copySeparator (flushWord studyWords overWords st) c

/-- The loop from the current index on.  The index moves by one unit whatever
the code point's length. -/
def resolveLoop (studyWords : List JString) (overWords : List WordNode) :
    ResolveState → JString → ResolveState
  | st, [] => st
  | st, u :: rest =>
      resolveLoop studyWords overWords
        (resolveStep studyWords overWords st (codePointAt u rest)) rest

/-- {lit}`HtmlUtil.ParseResult`. -/
structure ParseResult where
  passage : JString
  words : List WordNode

/-- The append calls made by {lit}`resolvePassage`. -/
def resolveAppends (passage : JString) (studyWords : List JString)
    (overWords : List WordNode) : List Append :=
  (resolveLoop studyWords overWords .initial passage).builder

/-- {lit}`HtmlUtil.resolvePassage`. -/
def resolvePassage (passage : JString) (studyWords : List JString)
    (overWords : List WordNode) : ParseResult where
  passage := (resolveAppends passage studyWords overWords).flatMap Append.units
  words := (resolveLoop studyWords overWords .initial passage).nodes

/-! ## What one step reads -/

theorem codePointAt_eq_toNat_of_not_high {u : JChar} {rest : JString}
    (h : isHighSurrogate u = false) : codePointAt u rest = u.toNat := by
  cases rest <;> simp [codePointAt, h]

/-- Only the unit itself decides whether a code point below U+D800 is read. -/
theorem codePointAt_eq_iff {u : JChar} {rest : JString} {c : Nat} (hc : c < 0xD800) :
    codePointAt u rest = c ↔ u.toNat = c := by
  cases hu : isHighSurrogate u with
  | false => rw [codePointAt_eq_toNat_of_not_high hu]
  | true =>
      have hhigh : 0xD800 ≤ u.toNat := by
        simp only [isHighSurrogate, decide_eq_true_eq, UInt16.le_iff_toNat_le] at hu
        simpa using hu.1
      constructor
      · intro h
        unfold codePointAt at h
        split at h
        · split at h <;> omega
        · exact h
      · intro h
        omega

theorem isLetter_codePointAt (u : JChar) (rest : JString) :
    isLetter (codePointAt u rest) = isLetterUnit u := by
  unfold isLetterUnit
  cases hu : isHighSurrogate u with
  | false => rw [codePointAt_eq_toNat_of_not_high hu]
  | true =>
      have hhigh : 0xD800 ≤ u.toNat := by
        simp only [isHighSurrogate, decide_eq_true_eq, UInt16.le_iff_toNat_le] at hu
        simpa using hu.1
      have hpoint : 0xD800 ≤ codePointAt u rest := by
        unfold codePointAt
        split
        · split <;> omega
        · exact hhigh
      simp only [isLetter]
      congr 1
      apply propext
      constructor <;> intro h <;> omega

/-- Writing the code point read at a unit gives the unit, followed by the low
surrogate when the unit opens a pair. -/
theorem codePointUnits_codePointAt (u : JChar) (rest : JString) :
    codePointUnits (codePointAt u rest) =
      match rest with
      | l :: _ => if isHighSurrogate u && isLowSurrogate l then [u, l] else [u]
      | [] => [u] := by
  have hsingle : codePointUnits u.toNat = [u] := by
    unfold codePointUnits
    rw [if_pos u.toNat_lt, UInt16.ofNat_toNat]
  cases rest with
  | nil => exact hsingle
  | cons l tail =>
      simp only [codePointAt]
      split <;> rename_i hpair
      · simp only [isHighSurrogate, isLowSurrogate, Bool.and_eq_true, decide_eq_true_eq,
          UInt16.le_iff_toNat_le, UInt16.reduceToNat] at hpair
        have hu : UInt16.ofNat (0xD800 + ((u.toNat - 0xD800) * 0x400 +
            (l.toNat - 0xDC00) + 0x10000 - 0x10000) / 0x400) = u := by
          apply UInt16.toNat_inj.mp
          rw [UInt16.toNat_ofNat']
          omega
        have hl : UInt16.ofNat (0xDC00 + ((u.toNat - 0xD800) * 0x400 +
            (l.toNat - 0xDC00) + 0x10000 - 0x10000) % 0x400) = l := by
          apply UInt16.toNat_inj.mp
          rw [UInt16.toNat_ofNat']
          omega
        unfold codePointUnits
        rw [if_neg (by omega), hu, hl]
      · exact hsingle

/-- The units the loop reads, in the order in which it reads them. -/
def scannedUnits : JString → JString
  | [] => []
  | u :: rest => codePointUnits (codePointAt u rest) ++ scannedUnits rest

theorem length_scannedUnits_ge (p : JString) : p.length ≤ (scannedUnits p).length := by
  induction p with
  | nil => simp [scannedUnits]
  | cons u rest ih =>
      have hone : 1 ≤ (codePointUnits (codePointAt u rest)).length := by
        unfold codePointUnits
        split <;> simp
      simp only [scannedUnits, List.length_append, List.length_cons]
      omega

/-- Without a surrogate pair every unit is read once. -/
theorem scannedUnits_eq_self_iff (p : JString) :
    scannedUnits p = p ↔ hasSurrogatePair p = false := by
  induction p with
  | nil => simp [scannedUnits, hasSurrogatePair]
  | cons u rest ih =>
      cases rest with
      | nil => simp [scannedUnits, hasSurrogatePair, codePointUnits_codePointAt]
      | cons l tail =>
          have hlen := length_scannedUnits_ge (l :: tail)
          rw [scannedUnits, codePointUnits_codePointAt]
          cases hpair : isHighSurrogate u && isLowSurrogate l with
          | false =>
              simp only [hpair, hasSurrogatePair, Bool.false_or, Bool.false_eq_true, if_false,
                List.singleton_append, List.cons.injEq, true_and]
              exact ih
          | true =>
              simp only [hpair, hasSurrogatePair, Bool.true_or, if_true]
              constructor
              · intro h
                have := congrArg List.length h
                simp only [List.length_append, List.length_cons, List.length_nil] at this hlen
                omega
              · intro h
                contradiction

theorem hasSurrogatePair_of_not_high {text : JString}
    (h : ∀ c ∈ text, isHighSurrogate c = false) : hasSurrogatePair text = false := by
  induction text with
  | nil => rfl
  | cons c text ih =>
      have htail := ih fun d hd => h d (List.mem_cons_of_mem _ hd)
      cases text with
      | nil => rfl
      | cons d text =>
          rw [hasSurrogatePair, h c List.mem_cons_self, htail, Bool.false_and, Bool.or_false]

/-- Reading a low surrogate twice adds no letter. -/
theorem countP_scannedUnits (p : JString) :
    (scannedUnits p).countP isLetterUnit = p.countP isLetterUnit := by
  induction p with
  | nil => simp [scannedUnits]
  | cons u rest ih =>
      rw [scannedUnits, List.countP_append, ih, codePointUnits_codePointAt]
      have hlow : ∀ l : JChar, isLowSurrogate l = true → isLetterUnit l = false := by
        intro l hl
        simp only [isLowSurrogate, decide_eq_true_eq, UInt16.le_iff_toNat_le,
          UInt16.reduceToNat] at hl
        simp only [isLetterUnit, isLetter, decide_eq_false_iff_not]
        omega
      cases rest with
      | nil => simp [List.countP_cons]
      | cons l tail =>
          cases hpair : isHighSurrogate u && isLowSurrogate l with
          | false => simp [List.countP_cons, hpair, Nat.add_comm]
          | true =>
              have hl : isLetterUnit l = false := hlow l (by simp_all)
              simp [List.countP_cons, hpair, hl, Nat.add_comm]

end HtmlUtil
end TestAio
