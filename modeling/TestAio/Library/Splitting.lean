import TestAio.Library.Search

/-!
# Splitting and replacing at a pattern

Texts are cut at the occurrences of a separator, and occurrences of a pattern are
replaced.  A separator whose last letter occurs nowhere else in it is found where
it was put, and a letter that a pattern lacks bounds its occurrences.

Main results:

- Theorem {lit}`infix_append_last`: where an occurrence can lie around a letter.
- Theorem {lit}`indexOf_append_of_last`: such a separator is first found where it was put.
- Theorem {lit}`splitN_append`: a text is cut at its first occurrence.
- Theorem {lit}`replace_append_cons`: a letter that the pattern lacks splits a replacement.
- Theorem {lit}`infix_of_infix_replace`, {lit}`suffix_of_suffix_replace`: replacements bring
  no occurrence of a pattern they share no letter with.

Current gaps:

- The patterns are not empty.
-/

namespace TestAio
namespace Library
namespace Splitting

open Search

variable {α : Type}

/-! ## Occurrences around a letter -/

/-- A text without the letter is at the front only before the letter. -/
theorem prefix_append_cons {p x y : List α} {c : α} (hc : c ∉ p) (h : p <+: x ++ c :: y) :
    p <+: x := by
  induction x generalizing p with
  | nil =>
      rcases List.prefix_cons_iff.mp h with rfl | ⟨t, rfl, -⟩
      · exact List.nil_prefix
      · exact absurd List.mem_cons_self hc
  | cons a x ih =>
      rcases List.prefix_cons_iff.mp h with rfl | ⟨t, rfl, ht⟩
      · exact List.nil_prefix
      · exact (List.prefix_cons_inj a).mpr (ih (fun hmem => hc (List.mem_cons_of_mem _ hmem)) ht)

/-- A text that ends in the letter is at the front before it or ends there. -/
theorem prefix_append_last {q x y : List α} {c : α} (hc : c ∉ q) (h : q ++ [c] <+: x ++ c :: y) :
    q ++ [c] <+: x ∨ q = x := by
  induction x generalizing q with
  | nil =>
      cases q with
      | nil => exact Or.inr rfl
      | cons a q =>
          rw [List.nil_append, List.cons_append, List.cons_prefix_cons] at h
          exact absurd (h.1 ▸ List.mem_cons_self) hc
  | cons a x ih =>
      cases q with
      | nil =>
          rw [List.nil_append, List.cons_append, List.cons_prefix_cons] at h
          exact Or.inl (List.cons_prefix_cons.mpr ⟨h.1, List.nil_prefix⟩)
      | cons b q =>
          rw [List.cons_append, List.cons_append, List.cons_prefix_cons] at h
          rcases ih (fun hmem => hc (List.mem_cons_of_mem _ hmem)) h.2 with hx | rfl
          · exact Or.inl (List.cons_prefix_cons.mpr ⟨h.1, hx⟩)
          · exact Or.inr (by rw [h.1])

/-- An occurrence of a pattern that ends with the letter it has only there lies on one
side of such a letter or ends with it. -/
theorem infix_append_last {q x y : List α} {c : α} (hc : c ∉ q)
    (h : q ++ [c] <:+: x ++ c :: y) :
    q ++ [c] <:+: x ∨ q <:+ x ∨ q ++ [c] <:+: y := by
  induction x with
  | nil =>
      rcases List.infix_cons_iff.mp h with h | h
      · rcases prefix_append_last (x := []) hc h with h | rfl
        · exact Or.inl h.isInfix
        · exact Or.inr (Or.inl (List.suffix_refl _))
      · exact Or.inr (Or.inr h)
  | cons a x ih =>
      rcases List.infix_cons_iff.mp h with h | h
      · rcases prefix_append_last (x := a :: x) hc h with h | rfl
        · exact Or.inl h.isInfix
        · exact Or.inr (Or.inl (List.suffix_refl _))
      · rcases ih h with h | h | h
        · exact Or.inl (List.infix_cons h)
        · exact Or.inr (Or.inl (h.trans (List.suffix_cons a x)))
        · exact Or.inr (Or.inr h)

/-- What comes behind adds no text that ends in a letter it does not have. -/
theorem prefix_of_prefix_append {q z w : List α} {c : α} (hc : c ∉ w)
    (h : q ++ [c] <+: z ++ w) : q ++ [c] <+: z := by
  induction z generalizing q with
  | nil => exact absurd (h.subset (by simp)) hc
  | cons a z ih =>
      cases q with
      | nil =>
          rw [List.nil_append, List.cons_append, List.cons_prefix_cons] at h
          exact List.cons_prefix_cons.mpr ⟨h.1, List.nil_prefix⟩
      | cons b q =>
          rw [List.cons_append, List.cons_append, List.cons_prefix_cons] at h
          exact List.cons_prefix_cons.mpr ⟨h.1, ih h.2⟩

variable [DecidableEq α]

/-- A separator that ends with the letter it has only there is first found where it was
put, when it does not occur before. -/
theorem indexOf_append_of_last {q a : List α} (b : List α) {c : α} (hc : c ∉ q)
    (ha : ¬ q ++ [c] <:+: a) :
    indexOf (a ++ (q ++ [c]) ++ b) (q ++ [c]) = some a.length := by
  rw [indexOf_eq_some_iff]
  refine ⟨by simp, fun j hj h => ?_⟩
  have hdrop : (a ++ (q ++ [c]) ++ b).drop j = (a.drop j ++ q) ++ c :: b := by
    rw [List.append_assoc, List.drop_append_of_le_length (Nat.le_of_lt hj)]
    simp
  rw [hdrop] at h
  rcases prefix_append_last hc h with h | h
  · exact ha ((prefix_of_prefix_append hc h).isInfix.trans (List.drop_suffix j a).isInfix)
  · have hlength := congrArg List.length h
    rw [List.length_append, List.length_drop] at hlength
    omega

/-! ## Splitting -/

/-- Split a text at the first occurrences of a separator, as often as {lit}`n` allows. -/
def splitN (sep : List α) : Nat → List α → List (List α)
  | 0, text => [text]
  | n + 1, text =>
      match indexOf text sep with
      | none => [text]
      | some i => text.take i :: splitN sep n (text.drop (i + sep.length))

/-- Split a text at every occurrence of a separator. -/
def split (sep text : List α) : List (List α) :=
  splitN sep text.length text

/-- A text is cut at the first occurrence. -/
theorem splitN_append {sep x y : List α} (h : indexOf (x ++ sep ++ y) sep = some x.length)
    (n : Nat) : splitN sep (n + 1) (x ++ sep ++ y) = x :: splitN sep n y := by
  simp only [splitN, h]
  rw [List.append_assoc, List.take_left, ← List.append_assoc, ← List.length_append,
    List.drop_left]

/-- A text without the separator is one piece. -/
theorem splitN_of_not_infix {sep x : List α} (h : ¬ sep <:+: x) (n : Nat) :
    splitN sep n x = [x] := by
  cases n with
  | zero => rfl
  | succ n => simp only [splitN, indexOf_eq_none_iff.mpr h]

/-- One letter as the separator cuts at its first occurrence. -/
theorem splitN_singleton {c : α} {x : List α} (hc : c ∉ x) (n : Nat) (y : List α) :
    splitN [c] (n + 1) (x ++ c :: y) = x :: splitN [c] n y := by
  have hnone : ¬ [] ++ [c] <:+: x := fun h => hc (h.subset (by simp))
  have hindex := indexOf_append_of_last y List.not_mem_nil hnone
  have hsplit := splitN_append hindex n
  simpa using hsplit

/-- A text without the letter is one piece. -/
theorem splitN_singleton_of_not_mem {c : α} {x : List α} (hc : c ∉ x) (n : Nat) :
    splitN [c] n x = [x] :=
  splitN_of_not_infix (fun h => hc (h.subset List.mem_cons_self)) n

/-- A text with a letter is cut at the first place it stands at. -/
theorem exists_takeWhile {c : α} {text : List α} (h : c ∈ text) :
    ∃ y, c ∉ text.takeWhile (· ≠ c) ∧ text = text.takeWhile (· ≠ c) ++ c :: y ∧
      (text.dropWhile (· ≠ c)).tail = y := by
  induction text with
  | nil => exact absurd h List.not_mem_nil
  | cons d text ih =>
      by_cases hd : d = c
      · subst hd
        exact ⟨text, by simp, by simp, by simp⟩
      · have hmem : c ∈ text := by
          rcases List.mem_cons.mp h with rfl | hmem
          · exact absurd rfl hd
          · exact hmem
        rcases ih hmem with ⟨y, hnot, htext, htail⟩
        apply Exists.intro y
        rw [List.takeWhile_cons_of_pos (by simpa using hd),
          List.dropWhile_cons_of_pos (by simpa using hd), List.cons_append, ← htext]
        exact ⟨List.not_mem_cons_of_ne_of_not_mem (Ne.symm hd) hnot, rfl, htail⟩

/-! ## Replacing -/

/-- Replace from the front; the first {lit}`skip` letters belong to the last occurrence. -/
def replaceFrom (old new : List α) : Nat → List α → List α
  | _, [] => []
  | skip + 1, _ :: rest => replaceFrom old new skip rest
  | 0, c :: rest =>
      if old <+: c :: rest then new ++ replaceFrom old new (old.length - 1) rest
      else c :: replaceFrom old new 0 rest

/-- Replace every occurrence of a pattern. -/
def replace (old new text : List α) : List α :=
  replaceFrom old new 0 text

/-- Replacing works on each side of a letter that the text to replace does not have. -/
theorem replaceFrom_append_cons {old new : List α} {c : α} (hold : old ≠ []) (hc : c ∉ old)
    (x y : List α) {skip : Nat} (hskip : skip ≤ x.length) :
    replaceFrom old new skip (x ++ c :: y) =
      replaceFrom old new skip x ++ c :: replaceFrom old new 0 y := by
  induction x generalizing skip with
  | nil =>
      obtain rfl : skip = 0 := by simpa using hskip
      have hno : ¬ old <+: c :: y := by
        intro h
        rcases List.prefix_cons_iff.mp h with h | ⟨t, rfl, -⟩
        · exact hold h
        · exact hc List.mem_cons_self
      simp [replaceFrom, hno]
  | cons a x ih =>
      cases skip with
      | succ skip => exact ih (by simpa using hskip)
      | zero =>
          simp only [List.cons_append, replaceFrom]
          by_cases h : old <+: a :: x
          · have h' : old <+: a :: (x ++ c :: y) := h.trans ⟨c :: y, by simp⟩
            have hlength : old.length - 1 ≤ x.length := by
              have := h.length_le
              rw [List.length_cons] at this
              omega
            rw [if_pos h, if_pos h', ih hlength, List.append_assoc]
          · have h' : ¬ old <+: a :: (x ++ c :: y) := fun hp =>
              h (prefix_append_cons (x := a :: x) hc hp)
            rw [if_neg h, if_neg h', ih (Nat.zero_le _), List.cons_append]

/-- A letter that the pattern lacks splits a replacement. -/
theorem replace_append_cons {old : List α} (new : List α) {c : α} (hold : old ≠ [])
    (hc : c ∉ old) (x y : List α) :
    replace old new (x ++ c :: y) = replace old new x ++ c :: replace old new y :=
  replaceFrom_append_cons hold hc x y (Nat.zero_le _)

/-- A text without the one to replace stays. -/
theorem replace_of_not_infix {old : List α} (new : List α) {x : List α} (h : ¬ old <:+: x) :
    replace old new x = x := by
  unfold replace
  induction x with
  | nil => rfl
  | cons a x ih =>
      rw [List.infix_cons_iff, not_or] at h
      rw [replaceFrom, if_neg h.1, ih h.2]

/-- A letter that neither the pattern nor its replacement has stays as often as it was. -/
theorem count_replaceFrom {old new : List α} {c : α} (hold : old ≠ []) (hc : c ∉ old)
    (hnew : c ∉ new) (x : List α) (skip : Nat) :
    (replaceFrom old new skip x).count c = (x.drop skip).count c := by
  induction x generalizing skip with
  | nil => rw [replaceFrom, List.drop_nil]
  | cons a x ih =>
      cases skip with
      | succ skip => exact ih skip
      | zero =>
          rw [replaceFrom, List.drop_zero]
          split
          · rename_i h
            rcases h with ⟨y, hy⟩
            cases old with
            | nil => exact absurd rfl hold
            | cons b old =>
                rw [List.cons_append, List.cons.injEq] at hy
                have hold' : c ∉ old := fun hmem => hc (List.mem_cons_of_mem b hmem)
                have hb : b ≠ c := fun hb => hc (hb ▸ List.mem_cons_self)
                rw [List.count_append, ih, List.count_eq_zero_of_not_mem hnew, ← hy.1, ← hy.2,
                  List.length_cons, Nat.add_sub_cancel, List.drop_left,
                  List.count_cons_of_ne hb, List.count_append,
                  List.count_eq_zero_of_not_mem hold']
          · rw [List.count_cons, List.count_cons, ih, List.drop_zero]

/-- Replacing leaves the letters that it does not touch. -/
theorem count_replace {old new : List α} {c : α} (hold : old ≠ []) (hc : c ∉ old)
    (hnew : c ∉ new) (x : List α) : (replace old new x).count c = x.count c :=
  count_replaceFrom hold hc hnew x 0

section Disjoint

variable {old new p : List α} (hnew : new ≠ []) (hp : p ≠ []) (hdisjoint : ∀ c ∈ p, c ∉ new)

include hnew hdisjoint in
/-- What is at the front after replacing, and disjoint from what was written, was there before. -/
theorem prefix_of_prefix_replace {x : List α} (h : p <+: replaceFrom old new 0 x) : p <+: x := by
  induction x generalizing p with
  | nil => exact h
  | cons a x ih =>
      cases p with
      | nil => exact List.nil_prefix
      | cons c p =>
          simp only [replaceFrom] at h
          split_ifs at h with hold
          · cases new with
            | nil => exact absurd rfl hnew
            | cons d new =>
                rw [List.cons_append, List.cons_prefix_cons] at h
                exact absurd (h.1 ▸ List.mem_cons_self) (hdisjoint c List.mem_cons_self)
          · rw [List.cons_prefix_cons] at h
            refine List.cons_prefix_cons.mpr ⟨h.1, ih (fun d hd => ?_) h.2⟩
            exact hdisjoint d (List.mem_cons_of_mem _ hd)

omit [DecidableEq α] in
include hp hdisjoint in
/-- What is disjoint from the front is in the rest. -/
theorem infix_of_infix_append {z : List α} (h : p <:+: new ++ z) : p <:+: z := by
  induction new with
  | nil => exact h
  | cons d new ih =>
      rcases List.infix_cons_iff.mp h with h | h
      · cases p with
        | nil => exact absurd rfl hp
        | cons c p =>
            rw [List.cons_prefix_cons] at h
            exact absurd (h.1 ▸ List.mem_cons_self) (hdisjoint c List.mem_cons_self)
      · exact ih (fun c hc hmem => hdisjoint c hc (List.mem_cons_of_mem _ hmem)) h

include hnew hp hdisjoint in
/-- What occurs after replacing, and is disjoint from what was written, occurred before. -/
theorem infix_of_infix_replaceFrom {skip : Nat} {x : List α}
    (h : p <:+: replaceFrom old new skip x) : p <:+: x := by
  induction x generalizing skip with
  | nil => cases skip <;> exact h
  | cons a x ih =>
      cases skip with
      | succ skip => exact List.infix_cons (ih h)
      | zero =>
          by_cases hold : old <+: a :: x
          · simp only [replaceFrom, if_pos hold] at h
            exact List.infix_cons (ih (infix_of_infix_append hp hdisjoint h))
          · have hstep : replaceFrom old new 0 (a :: x) = a :: replaceFrom old new 0 x := by
              rw [replaceFrom, if_neg hold]
            rw [hstep] at h
            rcases List.infix_cons_iff.mp h with h | h
            · rw [← hstep] at h
              exact (prefix_of_prefix_replace hnew hdisjoint h).isInfix
            · exact List.infix_cons (ih h)

include hnew hp hdisjoint in
/-- A replacement brings no occurrence of a pattern it shares no letter with. -/
theorem infix_of_infix_replace {x : List α} (h : p <:+: replace old new x) : p <:+: x :=
  infix_of_infix_replaceFrom hnew hp hdisjoint h

omit [DecidableEq α] in
include hdisjoint in
/-- What is disjoint from the front is at the end of the rest. -/
theorem suffix_of_suffix_append {z : List α} (h : p <:+ new ++ z) : p <:+ z := by
  rcases List.suffix_or_suffix_of_suffix h (List.suffix_append new z) with h' | ⟨t, ht⟩
  · exact h'
  · rcases h with ⟨s, hs⟩
    rw [← ht, ← List.append_assoc, List.append_left_inj] at hs
    cases t with
    | nil => exact ⟨[], by simpa using ht.symm⟩
    | cons c t =>
        have hmem : c ∈ new := hs ▸ by simp
        exact absurd hmem (hdisjoint c (ht ▸ by simp))

include hnew in
/-- A replacement without a letter of what is put in replaced nothing. -/
theorem replaceFrom_eq_self {x : List α} (h : ∀ c ∈ replaceFrom old new 0 x, c ∉ new) :
    replaceFrom old new 0 x = x := by
  induction x with
  | nil => rfl
  | cons a x ih =>
      simp only [replaceFrom] at h ⊢
      split_ifs at h ⊢ with hold
      · cases new with
        | nil => exact absurd rfl hnew
        | cons d new => exact absurd List.mem_cons_self (h d (by simp))
      · rw [ih fun c hc => h c (List.mem_cons_of_mem _ hc)]

include hnew hdisjoint in
/-- What is at the end after replacing, and disjoint from what was written, was there before. -/
theorem suffix_of_suffix_replaceFrom {skip : Nat} {x : List α}
    (h : p <:+ replaceFrom old new skip x) : p <:+ x := by
  induction x generalizing skip with
  | nil => cases skip <;> exact h
  | cons a x ih =>
      cases skip with
      | succ skip => exact (ih h).trans (List.suffix_cons a x)
      | zero =>
          by_cases hold : old <+: a :: x
          · simp only [replaceFrom, if_pos hold] at h
            exact (ih (suffix_of_suffix_append hdisjoint h)).trans (List.suffix_cons a x)
          · have hstep : replaceFrom old new 0 (a :: x) = a :: replaceFrom old new 0 x := by
              rw [replaceFrom, if_neg hold]
            rw [hstep] at h
            rcases List.suffix_cons_iff.mp h with h | h
            · -- The whole replacement is the pattern, so nothing was replaced.
              have hsame : replaceFrom old new 0 (a :: x) = a :: x :=
                replaceFrom_eq_self hnew (by rwa [hstep, ← h])
              rw [h, ← hstep, hsame]
            · exact (ih h).trans (List.suffix_cons a x)

include hnew hdisjoint in
/-- Neither does it bring such a pattern to the end. -/
theorem suffix_of_suffix_replace {x : List α} (h : p <:+ replace old new x) : p <:+ x :=
  suffix_of_suffix_replaceFrom hnew hdisjoint h

end Disjoint

end Splitting
end Library
end TestAio
