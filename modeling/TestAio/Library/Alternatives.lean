import Mathlib.Data.List.DropRight
import Mathlib.Data.List.Find
import TestAio.Library.Splitting

/-!
# Splitting and replacing at one of several words

A pattern that offers several words matches the first of them that stands at the current
place.  The text is read from the front, and a match is passed over as a whole.

Main results:

- Theorem {lit}`split_of_not_infix`, {lit}`replace_of_not_infix`: a text without the words is one
  piece and is kept.
- Theorem {lit}`matches_induction`: the induction along the matches.
- Theorem {lit}`not_infix_of_mem_split`: no word is left in a piece.
- Theorem {lit}`replace_eq_flatten_split`, {lit}`intercalate_split`: the pieces give back the text
  without the words, and with them.
- Theorem {lit}`split_append_letter`, {lit}`split_letter_replace`: a letter that no word has can be
  cut at first.
- Theorem {lit}`split_flatMap`: a substitution of other letters keeps the cuts.

Current gaps:

- The words are not empty.
-/

namespace TestAio
namespace Library
namespace Alternatives

variable {α : Type} [DecidableEq α]

/-- The word that matches at the front of a text. -/
def matching (words : List (List α)) (text : List α) : Option (List α) :=
  words.find? fun word => word <+: text

/-- Split from the front; the first {lit}`skip` letters belong to the last match, and
{lit}`piece` has been read since. -/
def splitFrom (words : List (List α)) : Nat → List α → List α → List (List α)
  | _, piece, [] => [piece]
  | skip + 1, piece, _ :: rest => splitFrom words skip piece rest
  | 0, piece, c :: rest =>
      match matching words (c :: rest) with
      | some word => piece :: splitFrom words (word.length - 1) [] rest
      | none => splitFrom words 0 (piece ++ [c]) rest

/-- Split a text at every match. -/
def split (words : List (List α)) (text : List α) : List (List α) :=
  splitFrom words 0 [] text

/-- Replace from the front; the first {lit}`skip` letters belong to the last match. -/
def replaceFrom (words : List (List α)) (new : List α) : Nat → List α → List α
  | _, [] => []
  | skip + 1, _ :: rest => replaceFrom words new skip rest
  | 0, c :: rest =>
      match matching words (c :: rest) with
      | some word => new ++ replaceFrom words new (word.length - 1) rest
      | none => c :: replaceFrom words new 0 rest

/-- Replace every match. -/
def replace (words : List (List α)) (new text : List α) : List α :=
  replaceFrom words new 0 text

variable {words : List (List α)} {text : List α}

/-- Nothing is found in a text without the words. -/
theorem matching_eq_none (h : ∀ word ∈ words, ¬ word <:+: text) : matching words text = none := by
  refine List.find?_eq_none.mpr fun word hword => ?_
  rw [decide_eq_true_iff]
  exact fun hstart => h word hword hstart.isInfix

/-- A text without the words is one piece. -/
theorem splitFrom_of_not_infix (h : ∀ word ∈ words, ¬ word <:+: text) (piece : List α) :
    splitFrom words 0 piece text = [piece ++ text] := by
  induction text generalizing piece with
  | nil => rw [splitFrom, List.append_nil]
  | cons c text ih =>
      have htail : ∀ word ∈ words, ¬ word <:+: text :=
        fun word hword hoccurs => h word hword (List.infix_cons hoccurs)
      rw [splitFrom, matching_eq_none h]
      refine (ih htail (piece ++ [c])).trans ?_
      rw [List.append_assoc, List.singleton_append]

/-- A text without the words is one piece. -/
theorem split_of_not_infix (h : ∀ word ∈ words, ¬ word <:+: text) : split words text = [text] :=
  splitFrom_of_not_infix h []

/-- A text without the words is kept. -/
theorem replace_of_not_infix (new : List α) (h : ∀ word ∈ words, ¬ word <:+: text) :
    replace words new text = text := by
  unfold replace
  induction text with
  | nil => rfl
  | cons c text ih =>
      have htail : ∀ word ∈ words, ¬ word <:+: text :=
        fun word hword hoccurs => h word hword (List.infix_cons hoccurs)
      rw [replaceFrom, matching_eq_none h]
      exact congrArg (c :: ·) (ih htail)

/-! ## Reading a text match by match -/

/-- What is skipped is not looked at. -/
theorem splitFrom_eq_drop (skip : Nat) (piece text : List α) :
    splitFrom words skip piece text = splitFrom words 0 piece (text.drop skip) := by
  induction text generalizing skip with
  | nil =>
      rw [List.drop_nil]
      cases skip with
      | zero => rfl
      | succ skip => rfl
  | cons c text ih =>
      cases skip with
      | zero => rfl
      | succ skip => exact ih skip

/-- What is skipped is not looked at. -/
theorem replaceFrom_eq_drop (new : List α) (skip : Nat) (text : List α) :
    replaceFrom words new skip text = replaceFrom words new 0 (text.drop skip) := by
  induction text generalizing skip with
  | nil =>
      rw [List.drop_nil]
      cases skip with
      | zero => rfl
      | succ skip => rfl
  | cons c text ih =>
      cases skip with
      | zero => rfl
      | succ skip => exact ih skip

/-- What has been read since the last match is put in front. -/
theorem splitFrom_piece (piece text : List α) :
    splitFrom words 0 piece text = (split words text).modifyHead (piece ++ ·) := by
  unfold split
  induction text generalizing piece with
  | nil => rw [splitFrom, splitFrom, List.modifyHead_cons, List.append_nil]
  | cons c text ih =>
      rw [splitFrom, splitFrom]
      cases matching words (c :: text) with
      | some word =>
          dsimp only
          rw [List.modifyHead_cons, List.append_nil]
      | none =>
          dsimp only
          rw [ih (piece ++ [c]), ih ([] ++ [c]), List.modifyHead_modifyHead]
          congr 1
          ext rest
          rw [Function.comp_apply, List.nil_append, List.append_assoc]

@[simp]
theorem split_nil : split words ([] : List α) = [[]] :=
  rfl

@[simp]
theorem replace_nil (new : List α) : replace words new [] = [] :=
  rfl

/-- Where no word starts the piece goes on. -/
theorem split_skip {c : α} (h : matching words (c :: text) = none) :
    split words (c :: text) = (split words text).modifyHead (c :: ·) := by
  rw [split, splitFrom, h]
  exact splitFrom_piece [c] text

/-- Where no word starts the text is copied. -/
theorem replace_skip {new : List α} {c : α} (h : matching words (c :: text) = none) :
    replace words new (c :: text) = c :: replace words new text := by
  rw [replace, replaceFrom, h]
  rfl

/-- A word that is found ends a piece. -/
theorem split_found {word : List α} (hword : word ≠ [])
    (h : matching words (word ++ text) = some word) :
    split words (word ++ text) = [] :: split words text := by
  cases word with
  | nil => exact absurd rfl hword
  | cons c word =>
      rw [List.cons_append] at h ⊢
      rw [split, splitFrom, h]
      dsimp only
      rw [splitFrom_eq_drop, List.length_cons, Nat.add_sub_cancel, List.drop_left]
      rfl

/-- A word that is found is replaced. -/
theorem replace_found {new word : List α} (hword : word ≠ [])
    (h : matching words (word ++ text) = some word) :
    replace words new (word ++ text) = new ++ replace words new text := by
  cases word with
  | nil => exact absurd rfl hword
  | cons c word =>
      rw [List.cons_append] at h ⊢
      rw [replace, replaceFrom, h]
      dsimp only
      rw [replaceFrom_eq_drop, List.length_cons, Nat.add_sub_cancel, List.drop_left]
      rfl

/-- What is found is one of the words and starts there. -/
theorem matching_eq_some {word : List α} (h : matching words text = some word) :
    word ∈ words ∧ word <+: text := by
  apply And.intro (List.mem_of_find?_eq_some h)
  have hstart := List.find?_some h
  exact of_decide_eq_true hstart

/-- A text is read letter by letter where nothing matches, and word by word where one does. -/
theorem matches_induction {P : List α → Prop} (hwords : [] ∉ words) (hnil : P [])
    (hskip : ∀ c text, matching words (c :: text) = none → P text → P (c :: text))
    (hfound : ∀ word text, word ≠ [] → word ∈ words →
      matching words (word ++ text) = some word → P text → P (word ++ text))
    (text : List α) : P text := by
  induction hlength : text.length using Nat.strong_induction_on generalizing text with
  | _ n ih =>
      cases text with
      | nil => exact hnil
      | cons c text =>
          cases hmatching : matching words (c :: text) with
          | none =>
              apply hskip c text hmatching
              apply ih text.length _ text rfl
              rw [← hlength, List.length_cons]
              exact Nat.lt_succ_self _
          | some word =>
              rcases matching_eq_some hmatching with ⟨hmem, rest, hrest⟩
              have hword : word ≠ [] := fun h => hwords (h ▸ hmem)
              have hpos := List.length_pos_of_ne_nil hword
              rw [← hrest] at hmatching hlength ⊢
              apply hfound word rest hword hmem hmatching
              apply ih rest.length _ rest rfl
              rw [← hlength, List.length_append]
              omega

/-- What is not found in a text is not found in its front. -/
theorem matching_none_of_prefix {p : List α} (h : matching words text = none) (hp : p <+: text) :
    matching words p = none := by
  unfold matching at h ⊢
  rw [List.find?_eq_none] at h ⊢
  intro word hword hstart
  apply h word hword
  rw [decide_eq_true_iff] at hstart ⊢
  exact hstart.trans hp

/-- A word that is found does not depend on what comes behind it. -/
theorem matching_some_of_prefix {word rest p : List α}
    (h : matching words (word ++ rest) = some word) (hp : p <+: rest) :
    matching words (word ++ p) = some word := by
  unfold matching at h ⊢
  rw [List.find?_eq_some_iff_append] at h ⊢
  rcases h with ⟨-, before, after, hwords, hbefore⟩
  apply And.intro (decide_eq_true (List.prefix_append word p))
  apply Exists.intro before
  apply Exists.intro after
  apply And.intro hwords
  intro other hother
  have hnot := hbefore other hother
  rw [Bool.not_eq_true', decide_eq_false_iff_not] at hnot ⊢
  exact fun hstart => hnot (hstart.trans ((List.prefix_append_right_inj word).mpr hp))

/-- There is a first piece, and the text begins with it. -/
theorem exists_split_eq (hwords : [] ∉ words) (text : List α) :
    ∃ p ps, split words text = p :: ps ∧ p <+: text := by
  induction text using matches_induction hwords with
  | hnil => exact ⟨[], [], rfl, List.nil_prefix⟩
  | hskip c text h ih =>
      rcases ih with ⟨p, ps, hsplit, hp⟩
      rw [split_skip h, hsplit]
      exact ⟨c :: p, ps, rfl, (List.prefix_cons_inj c).mpr hp⟩
  | hfound word text hword _ h _ =>
      rw [split_found hword h]
      exact ⟨[], _, rfl, List.nil_prefix⟩

/-! ## Pieces -/

/-- No word is left in a piece. -/
theorem not_infix_of_mem_split (hwords : [] ∉ words) {p : List α} (hp : p ∈ split words text)
    {word : List α} (hword : word ∈ words) : ¬ word <:+: p := by
  have hne : word ≠ [] := fun h => hwords (h ▸ hword)
  have hempty : ¬ word <:+: [] := fun h => hne (List.eq_nil_of_infix_nil h)
  induction text using matches_induction hwords generalizing p with
  | hnil =>
      rw [split_nil, List.mem_singleton] at hp
      rw [hp]
      exact hempty
  | hskip c text h ih =>
      rcases exists_split_eq hwords text with ⟨first, rest, hsplit, hfirst⟩
      rw [split_skip h, hsplit, List.modifyHead_cons, List.mem_cons] at hp
      rcases hp with rfl | hp
      · intro hoccurs
        rcases List.infix_cons_iff.mp hoccurs with hstart | hoccurs
        · unfold matching at h
          rw [List.find?_eq_none] at h
          apply h word hword
          exact decide_eq_true (hstart.trans ((List.prefix_cons_inj c).mpr hfirst))
        · exact ih (hsplit ▸ List.mem_cons_self) hoccurs
      · exact ih (hsplit ▸ List.mem_cons_of_mem first hp)
  | hfound found text hfound _ h ih =>
      rw [split_found hfound h, List.mem_cons] at hp
      rcases hp with rfl | hp
      · exact hempty
      · exact ih hp

omit [DecidableEq α] in
/-- A letter in front of the first piece is in front of the text. -/
theorem flatten_modifyHead_cons {pieces : List (List α)} (hne : pieces ≠ []) (c : α) :
    (pieces.modifyHead (c :: ·)).flatten = c :: pieces.flatten := by
  cases pieces with
  | nil => exact absurd rfl hne
  | cons p pieces => rfl

/-- Splitting gives at least one piece. -/
theorem split_ne_nil (hwords : [] ∉ words) (text : List α) : split words text ≠ [] := by
  rcases exists_split_eq hwords text with ⟨p, ps, hsplit, -⟩
  rw [hsplit]
  exact List.cons_ne_nil p ps

/-- Removing the words joins the pieces. -/
theorem replace_eq_flatten_split (hwords : [] ∉ words) (text : List α) :
    replace words [] text = (split words text).flatten := by
  induction text using matches_induction hwords with
  | hnil => rfl
  | hskip c text h ih =>
      rw [replace_skip h, split_skip h, flatten_modifyHead_cons (split_ne_nil hwords text), ih]
  | hfound word text hword _ h ih =>
      rw [replace_found hword h, split_found hword h, ih]
      rfl

/-- The pieces of a text that is cut at one word are joined by it. -/
theorem intercalate_split {word : List α} (hword : word ≠ []) (text : List α) :
    word.intercalate (split [word] text) = text := by
  have hwords : [] ∉ [word] := fun h => hword (List.mem_singleton.mp h).symm
  induction text using matches_induction hwords with
  | hnil => rfl
  | hskip c text h ih =>
      rcases exists_split_eq hwords text with ⟨p, ps, hsplit, -⟩
      rw [split_skip h, hsplit, List.modifyHead_cons]
      rw [hsplit] at ih
      cases ps with
      | nil =>
          rw [List.intercalate_singleton] at ih ⊢
          rw [ih]
      | cons q ps =>
          rw [List.intercalate_cons_cons] at ih ⊢
          rw [List.cons_append, List.cons_append, ih]
  | hfound found text hfound hmem h ih =>
      have hsame := List.mem_singleton.mp hmem
      rw [split_found hfound h]
      rcases exists_split_eq hwords text with ⟨p, ps, hsplit, -⟩
      rw [hsplit] at ih ⊢
      rw [List.intercalate_cons_cons, ih, hsame]
      rfl

omit [DecidableEq α] in
/-- Dropping pieces at the end that are not kept anyway. -/
theorem filter_rdropWhile {p q : α → Bool} (h : ∀ x, q x = true → p x = false) (xs : List α) :
    (xs.rdropWhile q).filter p = xs.filter p := by
  induction xs using List.reverseRecOn with
  | nil => rw [List.rdropWhile_nil]
  | append_singleton xs x ih =>
      by_cases hx : q x = true
      · rw [List.rdropWhile_concat_pos _ _ _ hx, ih, List.filter_append, List.filter_singleton,
          h x hx, cond_false, List.append_nil]
      · rw [List.rdropWhile_concat_neg _ _ _ hx]

/-! ## Cutting at a letter first -/

/-- The first list of words comes first. -/
theorem matching_append (others : List (List α)) :
    matching (words ++ others) text = (matching words text).or (matching others text) :=
  List.find?_append

/-- A single letter is found exactly where it stands. -/
theorem matching_letter_cons (x c : α) (text : List α) :
    matching [[x]] (c :: text) = if x = c then some [x] else none := by
  unfold matching
  rw [List.find?_singleton]
  by_cases h : x = c
  · rw [if_pos h, if_pos]
    rw [decide_eq_true_iff, h]
    exact ⟨text, rfl⟩
  · rw [if_neg h, if_neg]
    rw [decide_eq_true_iff]
    exact fun hstart => h (List.cons_prefix_cons.mp hstart).1

/-- A letter that no word has belongs to the first piece. -/
theorem split_free_append (hwords : [] ∉ words) {free : List α}
    (hfree : ∀ c ∈ free, ∀ word ∈ words, c ∉ word) (text : List α) :
    split words (free ++ text) = (split words text).modifyHead (free ++ ·) := by
  induction free with
  | nil =>
      rcases exists_split_eq hwords text with ⟨p, ps, hsplit, -⟩
      rw [List.nil_append, hsplit]
      rfl
  | cons c free ih =>
      rcases List.forall_mem_cons.mp hfree with ⟨hc, hfree⟩
      have hskip : matching words (c :: (free ++ text)) = none := by
        unfold matching
        rw [List.find?_eq_none]
        intro word hword hstart
        rw [decide_eq_true_iff] at hstart
        cases word with
        | nil => exact hwords hword
        | cons d word =>
            apply hc (d :: word) hword
            rw [(List.cons_prefix_cons.mp hstart).1]
            exact List.mem_cons_self
      rw [List.cons_append, split_skip hskip, ih hfree, List.modifyHead_modifyHead]
      rfl

/-- A text without the letter belongs to the first piece. -/
theorem split_letter_append {x : α} {word : List α} (hx : x ∉ word) (text : List α) :
    split [[x]] (word ++ text) = (split [[x]] text).modifyHead (word ++ ·) := by
  apply split_free_append (by simp)
  intro c hc other hother hmem
  rw [List.mem_singleton.mp hother, List.mem_singleton] at hmem
  exact hx (hmem ▸ hc)

/-- A letter that no word has can be cut at first. -/
theorem split_append_letter {x : α} (hwords : [] ∉ words) (hx : ∀ word ∈ words, x ∉ word)
    (text : List α) : split (words ++ [[x]]) text = (split [[x]] text).flatMap (split words) := by
  have hletter : [] ∉ [[x]] := by simp
  have hboth : [] ∉ words ++ [[x]] := by simp [hwords]
  induction text using matches_induction hboth with
  | hnil => rfl
  | hskip c text h ih =>
      have hnone := h
      rw [matching_append, Option.or_eq_none_iff] at hnone
      rcases exists_split_eq hletter text with ⟨p, ps, hsplit, hp⟩
      have hfirst := matching_none_of_prefix hnone.1 ((List.prefix_cons_inj c).mpr hp)
      rcases exists_split_eq hwords p with ⟨q, qs, hq, -⟩
      rw [split_skip h, ih, split_skip hnone.2, hsplit, List.modifyHead_cons, List.flatMap_cons,
        List.flatMap_cons, split_skip hfirst, hq]
      rfl
  | hfound word text hword hmem h ih =>
      rw [split_found hword h, ih]
      rw [matching_append] at h
      rcases exists_split_eq hletter text with ⟨p, ps, hsplit, hp⟩
      cases hmatching : matching words (word ++ text) with
      | some found =>
          rw [hmatching, Option.some_or, Option.some_inj] at h
          subst h
          have hfirst := matching_some_of_prefix hmatching hp
          rw [split_letter_append (hx found (matching_eq_some hmatching).1), hsplit,
            List.modifyHead_cons, List.flatMap_cons, List.flatMap_cons, split_found hword hfirst]
          rfl
      | none =>
          rw [hmatching, Option.none_or] at h
          have hsame := List.mem_singleton.mp (matching_eq_some h).1
          rw [hsame] at h
          rw [hsame, split_found (List.cons_ne_nil x []) h, List.flatMap_cons, split_nil]
          rfl

/-- Removing words keeps the cuts at a letter that they do not have. -/
theorem split_letter_replace {x : α} (hwords : [] ∉ words) (hx : ∀ word ∈ words, x ∉ word)
    (text : List α) :
    split [[x]] (replace words [] text) = (split [[x]] text).map (replace words []) := by
  have hletter : [] ∉ [[x]] := by simp
  induction text using matches_induction hwords with
  | hnil => rfl
  | hskip c text h ih =>
      rw [replace_skip h]
      by_cases hc : x = c
      · subst hc
        have hfound (rest : List α) : matching [[x]] ([x] ++ rest) = some [x] := by
          rw [List.singleton_append, matching_letter_cons, if_pos rfl]
        have hne := List.cons_ne_nil x []
        have hcut (rest : List α) : split [[x]] (x :: rest) = [] :: split [[x]] rest :=
          split_found hne (hfound rest)
        rw [hcut, hcut, ih]
        rfl
      · rcases exists_split_eq hletter text with ⟨p, ps, hsplit, hp⟩
        have hfirst := matching_none_of_prefix h ((List.prefix_cons_inj c).mpr hp)
        have hskip (rest : List α) : matching [[x]] (c :: rest) = none := by
          rw [matching_letter_cons, if_neg hc]
        rw [split_skip (hskip _), ih, split_skip (hskip _), hsplit, List.modifyHead_cons,
          List.map_cons, List.map_cons, replace_skip hfirst]
        rfl
  | hfound word text hword hmem h ih =>
      rcases exists_split_eq hletter text with ⟨p, ps, hsplit, hp⟩
      have hfirst := matching_some_of_prefix h hp
      rw [replace_found hword h, List.nil_append, ih, split_letter_append (hx word hmem), hsplit,
        List.modifyHead_cons, List.map_cons, List.map_cons, replace_found hword hfirst]
      rfl

/-! ## Substituting letters -/

/-- A substitution that touches no letter of the words and brings none. -/
def Spares (words : List (List α)) (f : α → List α) : Prop :=
  ∀ c, f c = [c] ∨ f c ≠ [] ∧ ∀ word ∈ words, c ∉ word ∧ ∀ d ∈ f c, d ∉ word

omit [DecidableEq α] in
/-- What spares the words changes none at the front. -/
theorem prefix_flatMap_iff {f : α → List α} (hf : Spares words f) {word : List α}
    (hword : ∀ d ∈ word, ∃ other ∈ words, d ∈ other) :
    word <+: text.flatMap f ↔ word <+: text := by
  induction text generalizing word with
  | nil => rfl
  | cons c text ih =>
      cases word with
      | nil => exact iff_of_true List.nil_prefix List.nil_prefix
      | cons d word =>
          rw [List.flatMap_cons, List.cons_prefix_cons,
            ← ih fun e he => hword e (List.mem_cons_of_mem d he)]
          rcases hf c with hc | ⟨hne, hc⟩
          · rw [hc, List.singleton_append, List.cons_prefix_cons]
          · rcases hword d List.mem_cons_self with ⟨other, hother, hd⟩
            rcases hc other hother with ⟨hnot, hbring⟩
            constructor
            · intro h
              cases hfc : f c with
              | nil => exact absurd hfc hne
              | cons e rest =>
                  rw [hfc, List.cons_append, List.cons_prefix_cons] at h
                  rw [hfc] at hbring
                  exact absurd (h.1 ▸ hd) (hbring e List.mem_cons_self)
            · intro h
              exact absurd (h.1 ▸ hd) hnot

/-- What spares the words leaves the match as it is. -/
theorem matching_flatMap {f : α → List α} (hf : Spares words f) (text : List α) :
    matching words (text.flatMap f) = matching words text := by
  unfold matching
  apply List.find?_congr
  intro word hword
  rw [decide_eq_decide]
  exact prefix_flatMap_iff hf fun d hd => ⟨word, hword, hd⟩

omit [DecidableEq α] in
/-- The letters of a word stand for themselves. -/
theorem flatMap_eq_self {f : α → List α} (hf : Spares words f) {word : List α}
    (hword : word ∈ words) : word.flatMap f = word := by
  have hletters : ∀ c ∈ word, f c = [c] := by
    intro c hc
    rcases hf c with h | ⟨-, h⟩
    · exact h
    · exact absurd hc (h word hword).1
  rw [List.flatMap_congr hletters, List.flatMap_singleton']

/-- The cuts of a text stay where they are. -/
theorem split_flatMap {f : α → List α} (hwords : [] ∉ words) (hf : Spares words f)
    (text : List α) : split words (text.flatMap f) = (split words text).map (List.flatMap f) := by
  induction text using matches_induction hwords with
  | hnil => rfl
  | hskip c text h ih =>
      rcases exists_split_eq hwords text with ⟨p, ps, hsplit, -⟩
      have hfirst : split words ((c :: text).flatMap f) =
          (split words (text.flatMap f)).modifyHead (f c ++ ·) := by
        rcases hf c with hc | ⟨-, hc⟩
        · rw [← matching_flatMap hf, List.flatMap_cons, hc, List.singleton_append] at h
          rw [List.flatMap_cons, hc, List.singleton_append, split_skip h]
          rfl
        · rw [List.flatMap_cons]
          apply split_free_append hwords
          intro d hd word hword
          exact (hc word hword).2 d hd
      rw [hfirst, ih, split_skip h, hsplit, List.modifyHead_cons, List.map_cons, List.map_cons,
        List.modifyHead_cons, List.flatMap_cons]
  | hfound word text hword hmem h ih =>
      have hfixed := flatMap_eq_self hf hmem
      have hsame := h
      rw [← matching_flatMap hf, List.flatMap_append, hfixed] at hsame
      rw [List.flatMap_append, hfixed, split_found hword hsame, ih, split_found hword h]
      rfl

/-- Neither does it matter for the removal of words whether letters are substituted before. -/
theorem replace_flatMap {f : α → List α} (hwords : [] ∉ words) (hf : Spares words f)
    (text : List α) :
    replace words [] (text.flatMap f) = (replace words [] text).flatMap f := by
  rw [replace_eq_flatten_split hwords, split_flatMap hwords hf, replace_eq_flatten_split hwords,
    List.flatten_eq_flatMap, List.flatten_eq_flatMap, List.flatMap_map, List.flatMap_assoc]
  rfl

end Alternatives
end Library
end TestAio
