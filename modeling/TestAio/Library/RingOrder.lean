import Mathlib.Algebra.Ring.Nat
import Mathlib.Data.List.Chain
import Mathlib.Data.List.Pairwise

/-!
# Pieces in ring order

Pieces of a buffer are handed out one behind the other, and at the front of the buffer again
when its end has no room left.  A list of pieces, the oldest first, is in ring order when a
front part of it climbs through the buffer and the rest climbs below that part.

Main results:

- Theorem {lit}`Laid.disjoint`: pieces in ring order do not overlap.
- Theorem {lit}`Laid.sublist`: pieces can be given back in any order.
- Theorems {lit}`laid_concat` and {lit}`offset_eq_none_iff`: the two ends of the order are
  all that is needed to place a further piece, and to see that there is no place.
- Theorem {lit}`mem_covers_iff`: climbing pieces without gaps cover one interval.

Current gaps:

- None.
-/

namespace TestAio
namespace Library
namespace RingOrder

/-- A piece of a buffer. -/
structure Piece where
  start : Nat
  length : Nat
deriving DecidableEq

/-- The first offset behind a piece. -/
def Piece.stop (piece : Piece) : Nat :=
  piece.start + piece.length

/-- The first piece ends where the second one starts, or in front of it. -/
def Below (a b : Piece) : Prop :=
  a.stop ≤ b.start

/-- The pieces are in ring order in a buffer. -/
structure Laid (size : Nat) (pieces : List Piece) : Prop where
  positive : ∀ piece ∈ pieces, 0 < piece.length
  bounded : ∀ piece ∈ pieces, piece.stop ≤ size
  ordered : ∃ high low, pieces = high ++ low ∧ high.Pairwise Below ∧ low.Pairwise Below ∧
    ∀ a ∈ low, ∀ b ∈ high, Below a b

/-- Where a further piece goes when there are others: the two ends of the order decide. -/
def between (size length : Nat) (oldest newest : Piece) : Option Nat :=
  if oldest.start ≤ newest.start then
    if length ≤ size - newest.stop then some newest.stop
    else if length ≤ oldest.start then some 0
    else none
  else if length ≤ oldest.start - newest.stop then some newest.stop
  else none

/-- Where a further piece goes. -/
def offset (size length : Nat) (pieces : List Piece) : Option Nat :=
  match pieces.head?, pieces.getLast? with
  | some oldest, some newest => between size length oldest newest
  | _, _ => some 0

/-- No pieces at all are laid. -/
theorem laid_nil (size : Nat) : Laid size [] where
  positive := by simp
  bounded := by simp
  ordered := ⟨[], [], by simp⟩

namespace Laid

variable {size : Nat} {pieces : List Piece}

/-- Pieces can be given back in any order. -/
theorem sublist {rest : List Piece} (h : Laid size pieces) (hsub : rest.Sublist pieces) :
    Laid size rest where
  positive piece hpiece := h.positive piece (hsub.subset hpiece)
  bounded piece hpiece := h.bounded piece (hsub.subset hpiece)
  ordered := by
    rcases h.ordered with ⟨high, low, rfl, hhigh, hlow, hcross⟩
    rcases List.sublist_append_iff.mp hsub with ⟨high', low', rfl, hhigh', hlow'⟩
    exact ⟨high', low', rfl, hhigh.sublist hhigh', hlow.sublist hlow',
      fun a ha b hb => hcross a (hlow'.subset ha) b (hhigh'.subset hb)⟩

/-- Pieces in ring order do not overlap. -/
theorem disjoint (h : Laid size pieces) :
    pieces.Pairwise fun a b => Below a b ∨ Below b a := by
  rcases h.ordered with ⟨high, low, rfl, hhigh, hlow, hcross⟩
  refine List.pairwise_append.mpr ⟨hhigh.imp Or.inl, hlow.imp Or.inl, ?_⟩
  intro b hb a ha
  exact Or.inr (hcross a ha b hb)

/-- The order is split so that nothing lies low only because nothing lies high. -/
theorem split (h : Laid size pieces) :
    ∃ high low, pieces = high ++ low ∧ high.Pairwise Below ∧ low.Pairwise Below ∧
      (∀ a ∈ low, ∀ b ∈ high, Below a b) ∧ (high = [] → low = []) := by
  rcases h.ordered with ⟨high, low, rfl, hhigh, hlow, hcross⟩
  cases high with
  | nil => exact ⟨low, [], by simp, hlow, .nil, by simp, fun _ => rfl⟩
  | cons b high => exact ⟨b :: high, low, rfl, hhigh, hlow, hcross, by simp⟩

end Laid

/-! ## The two ends of the order -/

/-- A piece below another one starts no later. -/
theorem start_le_of_below {a b : Piece} (h : Below a b) : a.start ≤ b.start :=
  (Nat.le_add_right a.start a.length).trans h

/-- The oldest one of climbing pieces lies lowest. -/
theorem le_start_of_climbing {pieces : List Piece} {oldest : Piece}
    (h : pieces.Pairwise Below) (holdest : pieces.head? = some oldest) :
    ∀ piece ∈ pieces, oldest.start ≤ piece.start := by
  rcases List.head?_eq_some_iff.mp holdest with ⟨rest, rfl⟩
  intro piece hpiece
  rcases List.mem_cons.mp hpiece with rfl | hpiece
  · exact le_rfl
  · exact start_le_of_below ((List.pairwise_cons.mp h).1 piece hpiece)

/-- The newest one ends highest. -/
theorem stop_le_of_climbing {pieces : List Piece} {newest : Piece}
    (h : pieces.Pairwise Below) (hnewest : pieces.getLast? = some newest) :
    ∀ piece ∈ pieces, piece.stop ≤ newest.stop := by
  rcases List.getLast?_eq_some_iff.mp hnewest with ⟨rest, rfl⟩
  intro piece hpiece
  rcases List.mem_append.mp hpiece with hpiece | hpiece
  · have hbelow : Below piece newest :=
      (List.pairwise_append.mp h).2.2 piece hpiece newest (by simp)
    exact hbelow.trans (Nat.le_add_right _ _)
  · rw [List.mem_singleton.mp hpiece]

/-- The order has wrapped or not, and its two ends tell which. -/
theorem Laid.ends {size : Nat} {pieces : List Piece} (h : Laid size pieces)
    {oldest newest : Piece} (holdest : pieces.head? = some oldest)
    (hnewest : pieces.getLast? = some newest) :
    (oldest.start ≤ newest.start ∧ pieces.Pairwise Below) ∨
      (newest.stop ≤ oldest.start ∧ newest.start < oldest.start ∧
        ∃ high low, pieces = high ++ low ∧ high.Pairwise Below ∧ low.Pairwise Below ∧
          (∀ a ∈ low, ∀ b ∈ high, Below a b) ∧ high.head? = some oldest ∧
          low.getLast? = some newest) := by
  rcases h.split with ⟨high, low, rfl, hhigh, hlow, hcross, hnone⟩
  have hnewest' : newest ∈ high ++ low := List.mem_of_getLast? hnewest
  have hpositive := h.positive newest hnewest'
  by_cases hempty : low = []
  · rw [hempty, List.append_nil] at holdest hnewest' ⊢
    exact Or.inl ⟨le_start_of_climbing hhigh holdest newest hnewest', hhigh⟩
  · have hhead : high.head? = some oldest := by
      rwa [List.head?_append_of_ne_nil _ fun hhigh => hempty (hnone hhigh)] at holdest
    have hlast : low.getLast? = some newest := by
      rwa [List.getLast?_append_of_ne_nil _ hempty] at hnewest
    have hbelow : newest.stop ≤ oldest.start :=
      hcross newest (List.mem_of_getLast? hlast) oldest (List.mem_of_head? hhead)
    have hlt : newest.start < newest.stop := Nat.lt_add_of_pos_right hpositive
    exact Or.inr ⟨hbelow, hlt.trans_le hbelow, high, low, rfl, hhigh, hlow, hcross, hhead, hlast⟩

/-! ## A further piece -/

/-- The places that keep the order. -/
def Room (oldest newest new : Piece) : Prop :=
  if oldest.start ≤ newest.start then
    newest.stop ≤ new.start ∨ new.stop ≤ oldest.start
  else
    newest.stop ≤ new.start ∧ new.stop ≤ oldest.start

section Further

variable {size : Nat} {pieces : List Piece} {oldest newest new : Piece}

/-- A piece behind the climbing ones goes on climbing. -/
theorem pairwise_concat (h : pieces.Pairwise Below) (hnewest : pieces.getLast? = some newest)
    (hstop : newest.stop ≤ new.start) : (pieces ++ [new]).Pairwise Below := by
  refine List.pairwise_append.mpr ⟨h, List.pairwise_singleton _ _, ?_⟩
  intro piece hpiece b hb
  rw [List.mem_singleton.mp hb]
  exact (stop_le_of_climbing h hnewest piece hpiece).trans hstop

/-- A piece that ends before the oldest one is below all that climb from it. -/
theorem below_all (h : pieces.Pairwise Below) (holdest : pieces.head? = some oldest)
    (hstart : new.stop ≤ oldest.start) : ∀ b ∈ pieces, Below new b :=
  fun b hb => hstart.trans (le_start_of_climbing h holdest b hb)

/-- A further piece keeps the order where there is room for it. -/
theorem laid_concat (h : Laid size pieces) (holdest : pieces.head? = some oldest)
    (hnewest : pieces.getLast? = some newest) (hpositive : 0 < new.length)
    (hbounded : new.stop ≤ size) (hroom : Room oldest newest new) :
    Laid size (pieces ++ [new]) where
  positive piece hpiece := by
    rcases List.mem_append.mp hpiece with hpiece | hpiece
    · exact h.positive piece hpiece
    · rwa [List.mem_singleton.mp hpiece]
  bounded piece hpiece := by
    rcases List.mem_append.mp hpiece with hpiece | hpiece
    · exact h.bounded piece hpiece
    · rwa [List.mem_singleton.mp hpiece]
  ordered := by
    unfold Room at hroom
    rcases h.ends holdest hnewest with ⟨hle, hclimb⟩ | ⟨-, hlt, high, low, rfl, hhigh, hlow,
      hcross, hhead, hlast⟩
    · rw [if_pos hle] at hroom
      rcases hroom with hbehind | hbelow
      · exact ⟨pieces ++ [new], [], by simp, pairwise_concat hclimb hnewest hbehind, .nil,
          by simp⟩
      · refine ⟨pieces, [new], rfl, hclimb, List.pairwise_singleton _ _, ?_⟩
        intro a ha
        rw [List.mem_singleton.mp ha]
        exact below_all hclimb holdest hbelow
    · rw [if_neg (by omega)] at hroom
      refine ⟨high, low ++ [new], List.append_assoc _ _ _, hhigh,
        pairwise_concat hlow hlast hroom.1, ?_⟩
      intro a ha
      rcases List.mem_append.mp ha with ha | ha
      · exact hcross a ha
      · rw [List.mem_singleton.mp ha]
        exact below_all hhigh hhead hroom.2

/-- And nowhere else. -/
theorem room_of_laid_concat (h : Laid size (pieces ++ [new]))
    (holdest : pieces.head? = some oldest) (hnewest : pieces.getLast? = some newest) :
    Room oldest newest new := by
  have hrest : Laid size pieces := h.sublist (List.sublist_append_left _ _)
  have hne : pieces ≠ [] := by
    rintro rfl
    contradiction
  have hhead : (pieces ++ [new]).head? = some oldest := by
    rwa [List.head?_append_of_ne_nil _ hne]
  have hlast : (pieces ++ [new]).getLast? = some new := List.getLast?_concat
  unfold Room
  rcases h.ends hhead hlast with ⟨-, hclimb⟩ | ⟨hstop, -, high, low, hpieces, hhigh, hlow, -,
    hheadHigh, hlastLow⟩
  · -- The order has not wrapped: the new piece lies behind the newest one.
    rw [List.pairwise_append] at hclimb
    have hbehind : newest.stop ≤ new.start :=
      hclimb.2.2 newest (List.mem_of_getLast? hnewest) new (by simp)
    rw [if_pos (le_start_of_climbing hclimb.1 holdest newest (List.mem_of_getLast? hnewest))]
    exact Or.inl hbehind
  · rcases List.getLast?_eq_some_iff.mp hlastLow with ⟨low, rfl⟩
    rw [← List.append_assoc] at hpieces
    have hpieces : pieces = high ++ low := List.append_cancel_right hpieces
    by_cases hempty : low = []
    · -- The new piece is the first one below.
      rw [hempty, List.append_nil] at hpieces
      rw [hpieces] at hnewest
      rw [if_pos (le_start_of_climbing hhigh hheadHigh newest (List.mem_of_getLast? hnewest))]
      exact Or.inr hstop
    · have hnewestLow : low.getLast? = some newest := by
        rwa [hpieces, List.getLast?_append_of_ne_nil _ hempty] at hnewest
      have hbehind : newest.stop ≤ new.start :=
        (List.pairwise_append.mp hlow).2.2 newest (List.mem_of_getLast? hnewestLow) new (by simp)
      split
      · exact Or.inl hbehind
      · exact ⟨hbehind, hstop⟩

end Further

/-! ## The search for a place -/

section Search

variable {size length : Nat} {pieces : List Piece} {oldest newest : Piece}

@[simp]
theorem offset_nil : offset size length [] = some 0 :=
  rfl

/-- Where the next piece goes depends on the oldest and the newest one. -/
theorem offset_eq (holdest : pieces.head? = some oldest)
    (hnewest : pieces.getLast? = some newest) :
    offset size length pieces = between size length oldest newest := by
  unfold offset
  rw [holdest, hnewest]

/-- Pieces have an oldest and a newest one. -/
theorem exists_ends (h : pieces ≠ []) :
    ∃ oldest newest, pieces.head? = some oldest ∧ pieces.getLast? = some newest :=
  ⟨pieces.head h, pieces.getLast h, List.head?_eq_some_head h, List.getLast?_eq_some_getLast h⟩

/-- The places that are looked at have room. -/
theorem room_of_between {start : Nat} (holdest : oldest.stop ≤ size)
    (hnewest : newest.stop ≤ size)
    (hends : oldest.start ≤ newest.start ∨ newest.stop ≤ oldest.start)
    (h : between size length oldest newest = some start) :
    start + length ≤ size ∧ Room oldest newest ⟨start, length⟩ := by
  unfold between at h
  simp only [Room, Piece.stop] at h holdest hnewest hends ⊢
  grind

/-- And no other place has room when they have none. -/
theorem not_room_of_between (h : between size length oldest newest = none) {start : Nat}
    (hbounded : start + length ≤ size) : ¬ Room oldest newest ⟨start, length⟩ := by
  unfold between at h
  simp only [Room, Piece.stop] at h ⊢
  grind

/-- A place that is found keeps the order.  Only for an empty order must the length be checked
by others. -/
theorem laid_of_offset {start : Nat} (h : Laid size pieces) (hpositive : 0 < length)
    (hlength : pieces = [] → length ≤ size) (hoffset : offset size length pieces = some start) :
    Laid size (pieces ++ [⟨start, length⟩]) := by
  by_cases hempty : pieces = []
  · subst hempty
    cases hoffset
    exact ⟨by simpa using hpositive, by simpa [Piece.stop] using hlength,
      ⟨[⟨0, length⟩], [], by simp⟩⟩
  · rcases exists_ends hempty with ⟨oldest, newest, holdest, hnewest⟩
    rw [offset_eq holdest hnewest] at hoffset
    have hends : oldest.start ≤ newest.start ∨ newest.stop ≤ oldest.start :=
      (h.ends holdest hnewest).imp And.left And.left
    rcases room_of_between (h.bounded oldest (List.mem_of_head? holdest))
      (h.bounded newest (List.mem_of_getLast? hnewest)) hends hoffset with ⟨hbounded, hroom⟩
    exact laid_concat h holdest hnewest hpositive hbounded hroom

/-- A search fails exactly when no place keeps the order. -/
theorem offset_eq_none_iff (h : Laid size pieces) (hpositive : 0 < length)
    (hlength : length ≤ size) :
    offset size length pieces = none ↔
      ∀ start, ¬ Laid size (pieces ++ [⟨start, length⟩]) := by
  constructor
  · intro hnone start hlaid
    have hempty : pieces ≠ [] := by
      rintro rfl
      contradiction
    rcases exists_ends hempty with ⟨oldest, newest, holdest, hnewest⟩
    rw [offset_eq holdest hnewest] at hnone
    exact not_room_of_between hnone (hlaid.bounded ⟨start, length⟩ (by simp))
      (room_of_laid_concat hlaid holdest hnewest)
  · intro hall
    cases hoffset : offset size length pieces with
    | none => rfl
    | some start =>
        exact absurd (laid_of_offset h hpositive (fun _ => hlength) hoffset) (hall start)

end Search

/-! ## Pieces without gaps -/

/-- The second piece starts where the first one ends, or further down. -/
def Follows (a b : Piece) : Prop :=
  b.start = a.stop ∨ b.start < a.start

/-- Pieces that follow each other keep doing so with a further one where it was looked for. -/
theorem follows_concat {size length start : Nat} {pieces : List Piece} (hpositive : 0 < length)
    (hpieces : pieces.IsChain Follows) (hoffset : offset size length pieces = some start) :
    (pieces ++ [Piece.mk start length]).IsChain Follows := by
  refine List.isChain_append.mpr ⟨hpieces, List.isChain_singleton _, ?_⟩
  intro newest hnewest new hnew
  cases hnew
  rw [Option.mem_def] at hnewest
  have hempty : pieces ≠ [] := by
    rintro rfl
    contradiction
  rcases exists_ends hempty with ⟨oldest, newest', holdest, hnewest'⟩
  rw [hnewest', Option.some.injEq] at hnewest
  rw [offset_eq holdest hnewest', hnewest] at hoffset
  unfold between at hoffset
  unfold Follows
  grind

/-- Pieces that follow each other and never go down have no gaps. -/
theorem adjacent_of_follows {pieces : List Piece} (hfollows : pieces.IsChain Follows)
    (hclimbs : pieces.IsChain fun a b => a.start ≤ b.start) :
    pieces.IsChain fun a b => b.start = a.stop := by
  rw [List.isChain_iff_getElem] at hfollows hclimbs ⊢
  intro i hi
  rcases hfollows i hi with hnext | hdown
  · exact hnext
  · exact absurd (hclimbs i hi) (Nat.not_le_of_lt hdown)

/-- Climbing pieces without gaps end inside the buffer. -/
theorem start_add_sum_le {size : Nat} {first : Piece} {rest : List Piece}
    (h : (first :: rest).IsChain fun a b => b.start = a.stop)
    (hbounded : ∀ piece ∈ first :: rest, piece.stop ≤ size) :
    first.start + ((first :: rest).map Piece.length).sum ≤ size := by
  induction rest generalizing first with
  | nil => simpa [Piece.stop] using hbounded first List.mem_cons_self
  | cons second rest ih =>
      rw [List.isChain_cons_cons] at h
      have hrest := ih h.2 (List.forall_mem_cons.mp hbounded).2
      have hsum : ((first :: second :: rest).map Piece.length).sum =
          first.length + ((second :: rest).map Piece.length).sum := rfl
      rw [h.1] at hrest
      rw [hsum, ← Nat.add_assoc]
      exact hrest

/-- The offsets in some of the pieces. -/
def Covers (pieces : List Piece) (n : Nat) : Prop :=
  ∃ piece ∈ pieces, piece.start ≤ n ∧ n < piece.stop

/-- Climbing pieces without gaps cover one interval. -/
theorem mem_covers_iff {first : Piece} {rest : List Piece}
    (h : (first :: rest).IsChain fun a b => b.start = a.stop) {n : Nat} :
    Covers (first :: rest) n ↔
      first.start ≤ n ∧ n < first.start + ((first :: rest).map Piece.length).sum := by
  induction rest generalizing first with
  | nil => simp [Covers, Piece.stop]
  | cons second rest ih =>
      rw [List.isChain_cons_cons] at h
      have hsplit : Covers (first :: second :: rest) n ↔
          (first.start ≤ n ∧ n < first.stop) ∨ Covers (second :: rest) n := by
        simp [Covers]
      have hsum : ((first :: second :: rest).map Piece.length).sum =
          first.length + ((second :: rest).map Piece.length).sum := rfl
      rw [hsplit, ih h.2, h.1, hsum]
      unfold Piece.stop
      omega

end RingOrder
end Library
end TestAio
