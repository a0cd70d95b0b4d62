import Mathlib.Data.List.Count
import Mathlib.Data.List.Infix
import Mathlib.Data.List.Perm.Basic

/-!
# Cutting joined pieces again

Pieces without a word are joined, and the joined text is cut at that word.  Some of the pieces
are kept, and a piece that begins inside the word always is.  If the word has formed at a joint,
what is kept after the second cut is never what was kept of the first pieces.

Main results:

- Theorem {lit}`exists_piece_at`: the piece in which a prefix of the joined pieces ends.
- Theorem {lit}`filter_ne_of_rejoined`: a word that forms at a joint changes what is kept.
- Theorem {lit}`filter_singleton_eq_iff`: when a single piece is what several pieces were.
- Theorem {lit}`flatMap_eq_iff_of_length_le`: two readings of a list of which one never yields
  more are equal exactly if they are so for each element.
- Theorem {lit}`forall_or_two_le_countP`: two readings that are equal agree for each element or
  differ for two.

Current gaps:

- None.
-/

namespace TestAio
namespace Library
namespace Recutting

variable {α : Type}

/-! ## The piece at a place -/

/-- A nonempty prefix of the joined pieces ends in one of them. -/
theorem exists_piece_at {pieces : List (List α)} {x r : List α} (hx : x ≠ [])
    (h : pieces.flatten = x ++ r) :
    ∃ before t u after, pieces = before ++ (t ++ u) :: after ∧ before.flatten ++ t = x ∧
      u ++ after.flatten = r ∧ t ≠ [] := by
  induction pieces generalizing x with
  | nil =>
      rw [List.flatten_nil] at h
      exact absurd (List.append_eq_nil_iff.mp h.symm).1 hx
  | cons p pieces ih =>
      rw [List.flatten_cons] at h
      rcases List.append_eq_append_iff.mp h with ⟨a, hxa, ha⟩ | ⟨a, hpa, ha⟩
      · cases a with
        | nil =>
            rw [List.append_nil] at hxa
            rw [List.nil_append] at ha
            exact ⟨[], p, [], pieces, by rw [List.append_nil]; rfl, hxa.symm, ha, hxa ▸ hx⟩
        | cons c a =>
            rcases ih (List.cons_ne_nil c a) ha with ⟨before, t, u, after, hpieces, hbefore, hr, ht⟩
            apply Exists.intro (p :: before)
            refine ⟨t, u, after, ?_, ?_, hr, ht⟩
            · rw [hpieces, List.cons_append]
            · rw [List.flatten_cons, List.append_assoc, hbefore, hxa]
      · exact ⟨[], x, a, pieces, by rw [← hpa]; rfl, rfl, ha.symm, hx⟩

/-! ## Words that form at a joint -/

section Rejoined

variable {word : List α} {kept : List α → Bool}

/-- The end of a word that no piece has lies in a piece that begins inside the word. -/
theorem exists_piece_of_word {pieces : List (List α)} {q r : List α} (hword : word ≠ [])
    (hfree : ∀ p ∈ pieces, ¬ word <:+: p) (h : pieces.flatten = q ++ word ++ r) :
    ∃ before t u after, pieces = before ++ (t ++ u) :: after ∧ before.flatten ++ t = q ++ word ∧
      u ++ after.flatten = r ∧ t ≠ [] ∧ t.length < word.length ∧ ∀ c ∈ t, c ∈ word.tail := by
  have hne : q ++ word ≠ [] := fun hnil => hword (List.append_eq_nil_iff.mp hnil).2
  rcases exists_piece_at hne h with ⟨before, t, u, after, hpieces, hbefore, hr, ht⟩
  have hsuffix : t <:+ q ++ word := ⟨before.flatten, hbefore⟩
  have hshort : t.length < word.length := by
    by_contra hlong
    have hwhole : word <:+ t :=
      List.suffix_of_suffix_length_le (List.suffix_append q word) hsuffix (by omega)
    apply hfree (t ++ u)
    · rw [hpieces]
      exact List.mem_append_right _ List.mem_cons_self
    · exact hwhole.isInfix.trans (List.prefix_append t u).isInfix
  have hinside : t <:+ word :=
    List.suffix_of_suffix_length_le hsuffix (List.suffix_append q word) (by omega)
  refine ⟨before, t, u, after, hpieces, hbefore, hr, ht, hshort, ?_⟩
  intro c hc
  cases word with
  | nil => exact absurd rfl hword
  | cons d word =>
      rcases List.suffix_cons_iff.mp hinside with hwhole | htail
      · rw [hwhole] at hshort
        omega
      · exact htail.subset hc

variable (hkept : ∀ c ∈ word.tail, ∀ rest, kept (c :: rest) = true)

include hkept

theorem kept_of_inside {t : List α} (u : List α) (ht : t ≠ []) (hinside : ∀ c ∈ t, c ∈ word.tail) :
    kept (t ++ u) = true := by
  cases t with
  | nil => exact absurd rfl ht
  | cons c t => exact hkept c (hinside c List.mem_cons_self) (t ++ u)

/-- Pieces that together begin inside the word are not all dropped. -/
theorem filter_ne_nil_of_flatten {pieces : List (List α)} {c : α} {rest : List α}
    (h : pieces.flatten = c :: rest) (hc : c ∈ word.tail) : pieces.filter kept ≠ [] := by
  induction pieces with
  | nil => cases h
  | cons p pieces ih =>
      cases p with
      | nil =>
          intro hnil
          apply ih h
          rw [List.filter_eq_nil_iff] at hnil ⊢
          exact fun q hq => hnil q (List.mem_cons_of_mem [] hq)
      | cons d p =>
          rw [List.flatten_cons, List.cons_append, List.cons.injEq] at h
          rw [List.filter_cons_of_pos (hkept d (h.1 ▸ hc) p)]
          exact List.cons_ne_nil _ _

/-- If the rest is not cut again, it cannot be the piece that it is a part of. -/
theorem append_filter_ne_singleton {t u q : List α} {pieces : List (List α)}
    (h : u ++ pieces.flatten = q) (ht : t ≠ []) (hinside : ∀ c ∈ t, c ∈ word.tail)
    (front : List (List α)) : front ++ (t ++ u) :: pieces.filter kept ≠ [q].filter kept := by
  intro heq
  have hlength := congrArg List.length heq
  have hle := List.length_filter_le kept [q]
  rw [List.length_append, List.length_cons] at hlength
  rw [List.length_singleton] at hle
  have hnone : pieces.filter kept = [] := List.length_eq_zero_iff.mp (by omega)
  have hmem : t ++ u ∈ [q].filter kept := by
    rw [← heq]
    exact List.mem_append_right _ List.mem_cons_self
  -- Both begin or end with the same letters, so the pieces after it have the letters of its front.
  have hlast : t ++ u = q := List.mem_singleton.mp (List.mem_filter.mp hmem).1
  have hperm : List.Perm pieces.flatten t := by
    rw [← List.perm_append_left_iff u, h, ← hlast]
    exact List.perm_append_comm
  cases hflat : pieces.flatten with
  | nil =>
      rw [hflat] at hperm
      exact ht hperm.nil_eq.symm
  | cons c rest =>
      have hc : c ∈ t := hperm.subset (hflat ▸ List.mem_cons_self)
      exact filter_ne_nil_of_flatten hkept hflat (hinside c hc) hnone

/-- What is left of a piece that begins inside the word, and the pieces after it, are cut again:
the piece and what is kept after it are not the last ones that are kept of the second cut. -/
theorem append_filter_ne {again : List (List α)} {t u : List α} {pieces : List (List α)}
    (hfree : ∀ p ∈ (t ++ u) :: pieces, ¬ word <:+: p) (hword : word ≠ [])
    (h : u ++ pieces.flatten = word.intercalate again) (ht : t ≠ [])
    (hinside : ∀ c ∈ t, c ∈ word.tail) (front : List (List α)) :
    front ++ (t ++ u) :: pieces.filter kept ≠ again.filter kept := by
  -- By induction on the second cut: the next word ends in a later piece, which is kept, too.
  induction again generalizing t u pieces front with
  | nil => exact List.append_ne_nil_of_right_ne_nil _ (List.cons_ne_nil _ _)
  | cons q again ih =>
      cases again with
      | nil =>
          rw [List.intercalate_singleton] at h
          exact append_filter_ne_singleton hkept h ht hinside front
      | cons q' again =>
          rw [List.intercalate_cons_cons] at h
          have hfree' : ∀ p ∈ u :: pieces, ¬ word <:+: p := by
            intro p hp
            rcases List.mem_cons.mp hp with rfl | hp
            · intro hoccurs
              exact hfree _ List.mem_cons_self (hoccurs.trans (List.suffix_append t p).isInfix)
            · exact hfree p (List.mem_cons_of_mem _ hp)
          rcases exists_piece_of_word hword hfree' h with
            ⟨before, t', u', after, hpieces, hbefore, hr, ht', hshort, hinside'⟩
          cases before with
          | nil =>
              rw [List.flatten_nil, List.nil_append] at hbefore
              rw [hbefore, List.length_append] at hshort
              omega
          | cons _ before =>
              rw [List.cons_append, List.cons.injEq] at hpieces
              have hpiece := kept_of_inside hkept u' ht' hinside'
              have hrest : ∀ p ∈ (t' ++ u') :: after, ¬ word <:+: p := by
                intro p hp
                apply hfree p
                rw [hpieces.2]
                exact List.mem_cons_of_mem _ (List.mem_append_right _ hp)
              have hstep := ih hrest hr ht' hinside'
              rw [hpieces.2, List.filter_append, List.filter_cons_of_pos hpiece]
              intro heq
              rw [← List.cons_append, ← List.append_assoc] at heq
              by_cases hq : kept q = true
              · rw [List.filter_cons_of_pos hq] at heq
                cases hfront : front ++ (t ++ u) :: before.filter kept with
                | nil => exact List.append_ne_nil_of_right_ne_nil _ (List.cons_ne_nil _ _) hfront
                | cons first rest =>
                    rw [hfront, List.cons_append, List.cons.injEq] at heq
                    exact hstep rest heq.2
              · rw [List.filter_cons_of_neg hq] at heq
                exact hstep _ heq

/-- A word that forms at a joint changes what is kept. -/
theorem filter_ne_of_rejoined {pieces again : List (List α)} {q q' : List α} (hword : word ≠ [])
    (hfree : ∀ p ∈ pieces, ¬ word <:+: p)
    (h : pieces.flatten = word.intercalate (q :: q' :: again)) :
    pieces.filter kept ≠ (q :: q' :: again).filter kept := by
  rw [List.intercalate_cons_cons] at h
  rcases exists_piece_of_word hword hfree h with
    ⟨before, t, u, after, hpieces, hbefore, hr, ht, hshort, hinside⟩
  have hpiece := kept_of_inside hkept u ht hinside
  have hrest : ∀ p ∈ (t ++ u) :: after, ¬ word <:+: p := by
    intro p hp
    apply hfree p
    rw [hpieces]
    exact List.mem_append_right _ hp
  have hstep := append_filter_ne hkept hrest hword hr ht hinside
  rw [hpieces, List.filter_append, List.filter_cons_of_pos hpiece]
  intro heq
  by_cases hq : kept q = true
  · rw [List.filter_cons_of_pos hq] at heq
    cases hfront : before.filter kept with
    | cons first rest =>
        rw [hfront, List.cons_append, List.cons.injEq] at heq
        exact hstep rest heq.2
    | nil =>
        -- The first text is a piece that begins inside the word; so do the pieces before it.
        rw [hfront, List.nil_append, List.cons.injEq] at heq
        have hlong : q.length ≤ before.flatten.length := by
          have hlength := congrArg List.length hbefore
          rw [List.length_append, List.length_append] at hlength
          omega
        have hprefix : q <+: before.flatten :=
          List.prefix_of_prefix_length_le (hbefore ▸ List.prefix_append q word)
            (List.prefix_append before.flatten t) hlong
        rcases hprefix with ⟨rest, hbegin⟩
        cases t with
        | nil => exact ht rfl
        | cons c t =>
            rw [← heq.1, List.cons_append, List.cons_append] at hbegin
            exact filter_ne_nil_of_flatten hkept hbegin.symm (hinside c List.mem_cons_self) hfront
  · rw [List.filter_cons_of_neg hq] at heq
    exact hstep _ heq

end Rejoined

/-! ## One piece instead of several -/

section Single

variable {pieces : List (List α)} {kept : List α → Bool} (hnil : kept [] = false)

include hnil

theorem filter_eq_nil_of_flatten (h : pieces.flatten = []) : pieces.filter kept = [] := by
  rw [List.filter_eq_nil_iff]
  intro p hp
  rw [List.flatten_eq_nil_iff.mp h p hp, hnil]
  exact Bool.false_ne_true

/-- A single piece is what several were if it is one of them, or if nothing is kept. -/
theorem filter_singleton_eq_iff :
    [pieces.flatten].filter kept = pieces.filter kept ↔
      pieces.flatten ∈ pieces ∨ kept pieces.flatten = false ∧ ∀ p ∈ pieces, kept p = false := by
  constructor
  · intro heq
    cases hjoined : kept pieces.flatten with
    | true =>
        rw [List.filter_cons_of_pos hjoined] at heq
        have hmem : pieces.flatten ∈ pieces.filter kept := heq ▸ List.mem_cons_self
        exact Or.inl (List.mem_filter.mp hmem).1
    | false =>
        apply Or.inr
        apply And.intro rfl
        rw [List.filter_singleton, hjoined, cond_false, eq_comm,
          List.filter_eq_nil_iff] at heq
        intro p hp
        exact (Bool.not_eq_true (kept p)).mp (heq p hp)
  · intro h
    rcases h with hmem | ⟨hjoined, hpieces⟩
    · rcases List.append_of_mem hmem with ⟨before, after, hsplit⟩
      have hlength := congrArg (fun ps => ps.flatten.length) hsplit
      rw [List.flatten_append, List.flatten_cons, List.length_append, List.length_append] at hlength
      have hbefore : before.flatten = [] := List.length_eq_zero_iff.mp (by omega)
      have hafter : after.flatten = [] := List.length_eq_zero_iff.mp (by omega)
      have hcut : pieces.filter kept = (before ++ [pieces.flatten] ++ after).filter kept := by
        rw [List.append_assoc, List.singleton_append, ← hsplit]
      rw [hcut, List.filter_append, List.filter_append, filter_eq_nil_of_flatten hnil hbefore,
        filter_eq_nil_of_flatten hnil hafter, List.nil_append, List.append_nil]
    · rw [List.filter_singleton, hjoined, cond_false, eq_comm,
        List.filter_eq_nil_iff]
      intro p hp
      rw [hpieces p hp]
      exact Bool.false_ne_true

end Single

/-! ## Comparing element by element -/

section Aligned

variable {β : Type} {f g : α → List β}

theorem length_flatMap_le {xs : List α} (hle : ∀ x ∈ xs, (f x).length ≤ (g x).length) :
    (xs.flatMap f).length ≤ (xs.flatMap g).length := by
  induction xs with
  | nil => exact Nat.le_refl 0
  | cons x xs ih =>
      rcases List.forall_mem_cons.mp hle with ⟨hx, hxs⟩
      rw [List.flatMap_cons, List.flatMap_cons, List.length_append, List.length_append]
      exact Nat.add_le_add hx (ih hxs)

/-- Two readings of a list of which one never yields more. -/
theorem flatMap_eq_iff_of_length_le {xs : List α}
    (hle : ∀ x ∈ xs, (f x).length ≤ (g x).length) :
    xs.flatMap f = xs.flatMap g ↔ ∀ x ∈ xs, f x = g x := by
  apply Iff.intro _ List.flatMap_congr
  intro heq
  induction xs with
  | nil => exact List.forall_mem_nil _
  | cons x xs ih =>
      rcases List.forall_mem_cons.mp hle with ⟨hx, hxs⟩
      rw [List.flatMap_cons, List.flatMap_cons] at heq
      have hlength := congrArg List.length heq
      rw [List.length_append, List.length_append] at hlength
      have hrest := length_flatMap_le hxs
      rcases List.append_inj heq (by omega) with ⟨hfirst, hrest⟩
      exact List.forall_mem_cons.mpr ⟨hfirst, ih hxs hrest⟩

/-- Two readings that agree for all elements but one agree for that one, too. -/
theorem eq_of_flatMap_eq {before after : List α} {x : α}
    (hbefore : ∀ y ∈ before, f y = g y) (hafter : ∀ y ∈ after, f y = g y)
    (heq : (before ++ x :: after).flatMap f = (before ++ x :: after).flatMap g) : f x = g x := by
  rw [List.flatMap_append, List.flatMap_append, List.flatMap_cons, List.flatMap_cons,
    List.flatMap_congr hbefore, List.flatMap_congr hafter, List.append_cancel_left_eq,
    List.append_cancel_right_eq] at heq
  exact heq

/-- Two readings that agree exactly for some elements are equal only if they agree for all, or
differ for at least two. -/
theorem forall_or_two_le_countP {agree : α → Bool} (hagree : ∀ x, agree x = true ↔ f x = g x)
    {xs : List α} (heq : xs.flatMap f = xs.flatMap g) :
    (∀ x ∈ xs, agree x = true) ∨ 2 ≤ xs.countP fun x => !agree x := by
  have hnot : ∀ x, (!agree x) = true ↔ agree x ≠ true := by
    intro x
    rw [Bool.not_eq_true', Ne, Bool.not_eq_true]
  rw [or_iff_not_imp_right, Nat.not_le, Nat.lt_succ_iff]
  intro hcount
  by_contra hdiffer
  rw [not_forall] at hdiffer
  rcases hdiffer with ⟨x, hdiffer⟩
  rw [Classical.not_imp] at hdiffer
  rcases List.append_of_mem hdiffer.1 with ⟨before, after, rfl⟩
  rw [List.countP_append, List.countP_cons, if_pos ((hnot x).mpr hdiffer.2)] at hcount
  have hbefore : (before.countP fun x => !agree x) = 0 := by omega
  have hafter : (after.countP fun x => !agree x) = 0 := by omega
  rw [List.countP_eq_zero] at hbefore hafter
  have hsame : ∀ ys : List α, (∀ y ∈ ys, ¬ (!agree y) = true) → ∀ y ∈ ys, f y = g y := by
    intro ys hys y hy
    rw [← hagree y]
    have hy' := hys y hy
    rw [hnot, not_not] at hy'
    exact hy'
  apply hdiffer.2
  rw [hagree]
  exact eq_of_flatMap_eq (hsame before hbefore) (hsame after hafter) heq

end Aligned

end Recutting
end Library
end TestAio
