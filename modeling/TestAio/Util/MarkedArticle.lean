import TestAio.Library.Marking
import TestAio.Library.Numbering
import TestAio.Library.Tokens
import TestAio.Util.HtmlUtil.ResolvePassage

/-!
# Marked articles

Both renderers turn an article into a sequence of pieces: plain text, bold words and
italic words with the number of their footnote.  This module gives the pieces, the
comparison of two sequences up to the cuts in plain text, and the abstract view of
both renderers: every token of the article gets a style.

Main results:

- Theorem {lit}`mergePlain_eq_iff`: two sequences are equal after merging exactly when they are
  equal unit by unit.
- Theorem {lit}`readings_eq_iff`: two markings of one article read the same exactly
  when they give every token the same style.

Current gaps:

- None.
-/

namespace TestAio
namespace MarkedArticle

open Library Library.Marking Library.Numbering Library.Tokens

/-! ## Pieces -/

/-- A piece of a rendered article. -/
inductive Piece
  | plain (text : JString)
  | bold (word : JString)
  | italic (word : JString) (num : Nat)
deriving DecidableEq

/-- U+00A0 reads as a space. -/
def readSpace (c : JChar) : JChar :=
  if c = 0xA0 then 0x20 else c

/-- A piece with U+00A0 read as a space. -/
def Piece.readSpaces : Piece → Piece
  | .plain text => .plain (text.map readSpace)
  | piece => piece

/-- Put a piece in front of merged ones. -/
def consPiece : Piece → List Piece → List Piece
  | .plain text, .plain more :: pieces => .plain (text ++ more) :: pieces
  | .plain text, pieces => if text = [] then pieces else .plain text :: pieces
  | piece, pieces => piece :: pieces

/-- Merge adjacent plain pieces. -/
def mergePlain (pieces : List Piece) : List Piece :=
  pieces.foldr consPiece []

/-- A plain piece unit by unit. -/
def Piece.units : Piece → List Piece
  | .plain text => text.map fun c => .plain [c]
  | piece => [piece]

@[simp]
theorem mergePlain_nil : mergePlain [] = [] :=
  rfl

@[simp]
theorem mergePlain_cons (piece : Piece) (pieces : List Piece) :
    mergePlain (piece :: pieces) = consPiece piece (mergePlain pieces) :=
  rfl

/-- An empty plain piece is left out. -/
theorem consPiece_plain_nil (pieces : List Piece) : consPiece (.plain []) pieces = pieces := by
  cases pieces with
  | nil => rfl
  | cons piece pieces => cases piece <;> rfl

/-- A plain piece can be put in front in two parts. -/
theorem consPiece_plain_cons (c : JChar) (text : JString) (pieces : List Piece) :
    consPiece (.plain (c :: text)) pieces =
      consPiece (.plain [c]) (consPiece (.plain text) pieces) := by
  have hother : ∀ ps : List Piece, (∀ more qs, ps ≠ .plain more :: qs) →
      ∀ s : JString, consPiece (.plain s) ps = if s = [] then ps else .plain s :: ps := by
    intro ps hps s
    cases ps with
    | nil => rfl
    | cons p ps =>
        cases p with
        | plain more => exact absurd rfl (hps more ps)
        | bold word => rfl
        | italic word num => rfl
  by_cases hplain : ∃ more qs, pieces = .plain more :: qs
  · rcases hplain with ⟨more, qs, rfl⟩
    simp [consPiece]
  · push Not at hplain
    rw [hother pieces hplain, hother pieces hplain]
    by_cases htext : text = []
    · simp [htext, hother pieces hplain]
    · simp [htext, consPiece]

/-- A piece in front adds its units. -/
theorem units_consPiece (piece : Piece) (pieces : List Piece) :
    (consPiece piece pieces).flatMap Piece.units = piece.units ++ pieces.flatMap Piece.units := by
  cases piece with
  | bold word => rfl
  | italic word num => rfl
  | plain text =>
      induction text with
      | nil => simp [consPiece_plain_nil, Piece.units]
      | cons c text ih =>
          rw [consPiece_plain_cons]
          have hone : ∀ ps : List Piece, (consPiece (.plain [c]) ps).flatMap Piece.units =
              .plain [c] :: ps.flatMap Piece.units := by
            intro ps
            cases ps with
            | nil => rfl
            | cons p ps => cases p <;> simp [consPiece, Piece.units]
          rw [hone, ih]
          rfl

/-- Merging keeps the units. -/
theorem units_mergePlain (pieces : List Piece) :
    (mergePlain pieces).flatMap Piece.units = pieces.flatMap Piece.units := by
  induction pieces with
  | nil => rfl
  | cons piece pieces ih => rw [mergePlain_cons, units_consPiece, ih, List.flatMap_cons]

/-- The units decide the merged pieces. -/
theorem mergePlain_units (pieces : List Piece) :
    mergePlain (pieces.flatMap Piece.units) = mergePlain pieces := by
  induction pieces with
  | nil => rfl
  | cons piece pieces ih =>
      rw [List.flatMap_cons, mergePlain_cons, ← ih]
      cases piece with
      | bold word => rfl
      | italic word num => rfl
      | plain text =>
          induction text with
          | nil => simp [consPiece_plain_nil, Piece.units]
          | cons c text ihText =>
              rw [consPiece_plain_cons, ← ihText]
              rfl

/-- Two sequences are equal after merging exactly when they are equal unit by unit. -/
theorem mergePlain_eq_iff {xs ys : List Piece} :
    mergePlain xs = mergePlain ys ↔ xs.flatMap Piece.units = ys.flatMap Piece.units := by
  constructor
  · intro h
    rw [← units_mergePlain, h, units_mergePlain]
  · intro h
    rw [← mergePlain_units, h, mergePlain_units]

/-! ## Styles -/

/-- The style of a token. -/
inductive Style
  | plain
  | bold
  | italic
deriving DecidableEq

/-- A token with its style. -/
abbrev Mark := JString × Style

/-- The style every token should have: listed words are bold or, when they are only in the
second list, italic. -/
def intended (bolds italics : List JString) : JString → Style :=
  restyled (· ∈ bolds) .bold (restyled (· ∈ italics) .italic fun _ => .plain)

/-- A token of the first list is bold. -/
theorem intended_of_mem_bolds {bolds italics : List JString} {token : JString}
    (h : token ∈ bolds) : intended bolds italics token = .bold :=
  if_pos h

/-- A token of the second list only is italic. -/
theorem intended_of_mem_italics {bolds italics : List JString} {token : JString}
    (hbolds : token ∉ bolds) (hitalics : token ∈ italics) :
    intended bolds italics token = .italic := by
  rw [intended, restyled, if_neg hbolds, restyled, if_pos hitalics]

/-- A token of neither list is plain. -/
theorem intended_of_not_mem {bolds italics : List JString} {token : JString}
    (hbolds : token ∉ bolds) (hitalics : token ∉ italics) :
    intended bolds italics token = .plain := by
  rw [intended, restyled, if_neg hbolds, restyled, if_neg hitalics]

/-- What a marked token reads like, unit by unit; {lit}`names` are the numbered words. -/
def reading (names : List JString) (mark : Mark) : List Piece :=
  match mark.2 with
  | .plain => mark.1.map fun c => .plain [readSpace c]
  | .bold => [.bold mark.1]
  | .italic => [.italic mark.1 (rank names mark.1)]

/-- The italic words, which are numbered. -/
def italics (marks : List Mark) : List JString :=
  (marks.filter fun mark => mark.2 = .italic).map Prod.fst

/-- The marks of two texts in a row. -/
theorem italics_append (marks more : List Mark) :
    italics (marks ++ more) = italics marks ++ italics more := by
  simp [italics]

/-- The mark in front comes first. -/
theorem italics_cons (mark : Mark) (marks : List Mark) :
    italics (mark :: marks) = italics [mark] ++ italics marks :=
  italics_append [mark] marks

/-- The pieces of a marked article. -/
def readings (marks : List Mark) : List Piece :=
  marks.flatMap (reading (collect [] (italics marks)))

/-- Readings of one token agree at the start only in one style. -/
theorem style_eq_of_reading {names names' : List JString} {token : JString} {style style' : Style}
    {xs ys : List Piece} (htoken : token ≠ [])
    (h : reading names (token, style) ++ xs = reading names' (token, style') ++ ys) :
    style = style' := by
  cases token with
  | nil => contradiction
  | cons c token => cases style <;> cases style' <;> simp [reading] at h ⊢

/-- Two markings of one article read the same only when the styles are the same. -/
theorem eq_of_flatMap_reading {names names' : List JString} {marks marks' : List Mark}
    (htokens : marks.map Prod.fst = marks'.map Prod.fst) (hne : [] ∉ marks.map Prod.fst)
    (h : marks.flatMap (reading names) = marks'.flatMap (reading names')) : marks = marks' := by
  induction marks generalizing marks' with
  | nil => exact (List.map_eq_nil_iff.mp htokens.symm).symm
  | cons mark marks ih =>
      cases marks' with
      | nil => simp at htokens
      | cons mark' marks' =>
          rw [List.map_cons, List.map_cons, List.cons.injEq] at htokens
          rw [List.map_cons, List.mem_cons, not_or] at hne
          rw [List.flatMap_cons, List.flatMap_cons] at h
          have hmark : mark = (mark'.1, mark.2) := by rw [← htokens.1]
          rw [hmark] at h
          have hstyle := style_eq_of_reading (by rw [← htokens.1]; exact Ne.symm hne.1) h
          have hlength : (reading names (mark'.1, mark.2)).length =
              (reading names' mark').length := by
            rw [hstyle]
            unfold reading
            cases mark'.2 <;> simp
          rw [hmark, hstyle]
          congr 1
          exact ih htokens.2 hne.2 (List.append_inj_right h hlength)

/-- Two markings of one article read the same exactly when they are the same. -/
theorem readings_eq_iff {marks marks' : List Mark}
    (htokens : marks.map Prod.fst = marks'.map Prod.fst) (hne : [] ∉ marks.map Prod.fst) :
    readings marks = readings marks' ↔ marks = marks' :=
  ⟨eq_of_flatMap_reading htokens hne, fun h => by rw [h]⟩

/-- The tokens of an article: its maximal runs of letters and its other units. -/
def articleTokens (passage : JString) : List JString :=
  tokens HtmlUtil.isLetterUnit passage

/-- No token is empty. -/
theorem nil_not_mem_articleTokens (passage : JString) : [] ∉ articleTokens passage :=
  List.nil_notMem_splitBy _ _

end MarkedArticle
end TestAio
