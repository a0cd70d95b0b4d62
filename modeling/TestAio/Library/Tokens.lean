import Mathlib.Data.List.SplitBy
import TestAio.Library.Search

/-!
# Words in a text

A text is cut into its maximal runs of letters and its other elements.  A search for a
word finds the first place where the letters stand, which may be inside a longer run.
This module says when the place found is a run of its own.

Main results:

- Theorem {lit}`tokens_whole`: a word that stands alone is a token, and the texts around it are
  tokenised on their own.
- Theorem {lit}`not_infix_of_first`: when the first occurrence stands alone no earlier token
  holds the word.
- Theorem {lit}`indexOf_eq_of_tokens`: when no earlier token holds the word the search finds
  the token.

Current gaps:

- None.
-/

namespace TestAio
namespace Library
namespace Tokens

open Search

variable {α : Type} (letter : α → Bool)

/-- The maximal runs of letters and the other elements, in order. -/
def tokens (text : List α) : List (List α) :=
  text.splitBy fun a b => letter a && letter b

/-- A non-empty text of letters. -/
structure IsWord (word : List α) : Prop where
  ne_nil : word ≠ []
  letters : ∀ x ∈ word, letter x = true

/-- No letter stands at the inner ends of two texts. -/
structure Alone (before after : List α) : Prop where
  before : ∀ x ∈ before.getLast?, letter x = false
  after : ∀ x ∈ after.head?, letter x = false

variable {letter}

@[simp]
theorem flatten_tokens (text : List α) : (tokens letter text).flatten = text :=
  List.flatten_splitBy _ _

@[simp]
theorem tokens_nil : tokens letter ([] : List α) = [] :=
  rfl

theorem tokens_word {word : List α} (h : IsWord letter word) : tokens letter word = [word] := by
  refine List.splitBy_of_isChain h.ne_nil (List.Pairwise.isChain ?_)
  refine List.pairwise_of_forall_mem_list fun a ha b hb => ?_
  rw [h.letters a ha, h.letters b hb]
  rfl

/-- An element that is no letter is a token. -/
theorem tokens_cons_of_not_letter {x : α} (hx : letter x = false) (text : List α) :
    tokens letter (x :: text) = [x] :: tokens letter text := by
  have happend : tokens letter ([x] ++ text) = tokens letter [x] ++ tokens letter text := by
    refine List.splitBy_append fun a ha b _ => ?_
    have hax : x = a := by simpa using ha
    rw [← hax, hx]
    rfl
  exact happend

/-- A word that stands alone is a token, and the texts around it are tokenised on their
own. -/
theorem tokens_whole {before word after : List α} (hword : IsWord letter word)
    (halone : Alone letter before after) :
    tokens letter (before ++ word ++ after) =
      tokens letter before ++ word :: tokens letter after := by
  have hleft : tokens letter (before ++ word) = tokens letter before ++ tokens letter word := by
    refine List.splitBy_append fun a ha b _ => ?_
    rw [halone.before a ha]
    rfl
  have hright : tokens letter (before ++ word ++ after) =
      tokens letter (before ++ word) ++ tokens letter after := by
    refine List.splitBy_append fun a _ b hb => ?_
    rw [halone.after b hb, Bool.and_false]
  rw [hright, hleft, tokens_word hword, List.append_assoc]
  rfl

/-- Letters in front of a text that does not start with one are a token. -/
theorem tokens_word_append {word after : List α} (hword : IsWord letter word)
    (hafter : ∀ x ∈ after.head?, letter x = false) :
    tokens letter (word ++ after) = word :: tokens letter after := by
  have halone : Alone letter [] after := ⟨by simp, hafter⟩
  simpa using tokens_whole hword halone

/-! ## Occurrences of a word -/

variable (letter) in
/-- Tokens that can stand next to one another: not both touch with a letter. -/
def Separated (ts : List (List α)) : Prop :=
  ts.IsChain fun a b => ∃ ha hb, (letter (a.getLast ha) && letter (b.head hb)) = false

theorem separated_tokens (text : List α) : Separated letter (tokens letter text) :=
  List.isChain_getLast_head_splitBy (fun a b => letter a && letter b) text

/-- A word that reaches from one text into the next makes them touch with letters. -/
theorem touch_of_crossing {word left right : List α} {k : Nat} (hword : IsWord letter word)
    (hocc : word <+: left.drop k ++ right) (hk : k < left.length)
    (hcross : (left.drop k).length < word.length) :
    (∃ a ∈ left.getLast?, letter a = true) ∧ ∃ b ∈ right.head?, letter b = true := by
  rw [List.length_drop] at hcross
  have hread : ∀ i < word.length, (left.drop k ++ right)[i]? = word[i]? := by
    intro i hi
    rcases hocc with ⟨rest, hrest⟩
    rw [← hrest, List.getElem?_append_left hi]
  have hletter : ∀ i < word.length, ∃ x ∈ word[i]?, letter x = true := by
    intro i hi
    exact ⟨word[i], List.getElem?_eq_getElem hi, hword.letters _ (List.getElem_mem hi)⟩
  constructor
  · rcases hletter (left.length - k - 1) (by omega) with ⟨a, ha, haLetter⟩
    refine ⟨a, ?_, haLetter⟩
    rw [← hread _ (by omega), List.getElem?_append_left (by rw [List.length_drop]; omega),
      List.getElem?_drop] at ha
    have hlast : k + (left.length - k - 1) = left.length - 1 := by omega
    rw [hlast] at ha
    rw [List.getLast?_eq_getElem?]
    exact ha
  · rcases hletter (left.length - k) hcross with ⟨b, hb, hbLetter⟩
    refine ⟨b, ?_, hbLetter⟩
    rw [← hread _ hcross, List.getElem?_append_right (by rw [List.length_drop]),
      List.length_drop, Nat.sub_self] at hb
    rw [List.head?_eq_getElem?]
    exact hb

/-- Separated tokens do not touch with letters. -/
theorem not_touch_of_separated {t : List α} {ts : List (List α)}
    (hsep : Separated letter (t :: ts)) {a b : α} (ha : a ∈ t.getLast?)
    (hb : b ∈ ts.flatten.head?) (haLetter : letter a = true) : letter b = false := by
  cases ts with
  | nil => simp at hb
  | cons u ts =>
      rcases List.isChain_cons_cons.mp hsep with ⟨⟨ht, hu, hpair⟩, -⟩
      have hlast : t.getLast ht = a := by
        rw [List.getLast?_eq_some_getLast ht] at ha
        exact Option.some.inj ha
      have hhead : u.head hu = b := by
        rw [List.flatten_cons, List.head?_append_of_ne_nil _ hu, List.head?_eq_some_head hu] at hb
        exact Option.some.inj hb
      rw [hlast, hhead, haLetter, Bool.true_and] at hpair
      exact hpair

/-- An occurrence that starts within some tokens lies in one of them. -/
theorem exists_token_of_prefix_drop {ts us : List (List α)} {word : List α} {k : Nat}
    (hword : IsWord letter word) (hsep : Separated letter (ts ++ us))
    (hocc : word <+: (ts ++ us).flatten.drop k) (hk : k < ts.flatten.length) :
    ∃ t ∈ ts, word <:+: t := by
  induction ts generalizing k with
  | nil => simp at hk
  | cons t ts ih =>
      rw [List.cons_append, List.flatten_cons, List.drop_append] at hocc
      by_cases hin : k < t.length
      · rw [Nat.sub_eq_zero_of_le (by omega), List.drop_zero] at hocc
        by_cases hfit : word.length ≤ (t.drop k).length
        · have hpre : word <+: t.drop k :=
            List.prefix_of_prefix_length_le hocc (List.prefix_append _ _) hfit
          exact ⟨t, List.mem_cons_self, hpre.isInfix.trans (List.drop_suffix k t).isInfix⟩
        · -- The word crosses the border of two tokens, which then touch with letters.
          rcases touch_of_crossing hword hocc hin (by omega) with
            ⟨⟨a, ha, haLetter⟩, b, hb, hbLetter⟩
          rw [not_touch_of_separated hsep ha hb haLetter] at hbLetter
          contradiction
      · rw [List.drop_eq_nil_of_le (by omega), List.nil_append] at hocc
        rw [List.flatten_cons, List.length_append] at hk
        rcases ih hsep.tail hocc (by omega) with ⟨u, hu, hoccurs⟩
        exact ⟨u, List.mem_cons_of_mem t hu, hoccurs⟩

variable [DecidableEq α]

/-- When the first occurrence of a word stands alone no token before it holds the word. -/
theorem not_infix_of_first {before word after : List α} (hword : IsWord letter word)
    (hfirst : indexOf (before ++ word ++ after) word = some before.length) :
    ∀ t ∈ tokens letter before, ¬ word <:+: t := by
  intro t ht hin
  have hbefore : word <:+: before := by
    have hflat := List.infix_of_mem_flatten ht
    rw [flatten_tokens] at hflat
    exact hin.trans hflat
  rcases hbefore with ⟨x, y, rfl⟩
  have hpos : 0 < word.length := List.length_pos_of_ne_nil hword.ne_nil
  refine not_prefix_drop_of_lt hfirst (j := x.length) ?_ ?_
  · simp only [List.length_append]
    omega
  · rw [List.append_assoc, List.append_assoc, List.append_assoc, List.drop_left]
    exact List.prefix_append _ _

/-- When no earlier token holds the word the search finds the token. -/
theorem indexOf_eq_of_tokens {text word : List α} {ts us : List (List α)}
    (hword : IsWord letter word) (htokens : tokens letter text = ts ++ word :: us)
    (hts : ∀ t ∈ ts, ¬ word <:+: t) : indexOf text word = some ts.flatten.length := by
  have hsep : Separated letter (ts ++ word :: us) := htokens ▸ separated_tokens text
  have htext : text = (ts ++ word :: us).flatten := by rw [← htokens, flatten_tokens]
  refine indexOf_eq_some_iff.mpr ⟨?_, fun k hk hocc => ?_⟩
  · rw [htext, List.flatten_append, List.drop_left, List.flatten_cons]
    exact List.prefix_append _ _
  · rw [htext] at hocc
    rcases exists_token_of_prefix_drop hword hsep hocc hk with ⟨t, ht, hin⟩
    exact hts t ht hin

omit [DecidableEq α] in
/-- A token that is a word stands alone. -/
theorem alone_of_tokens {text word : List α} {ts us : List (List α)}
    (hword : IsWord letter word) (htokens : tokens letter text = ts ++ word :: us) :
    Alone letter ts.flatten us.flatten := by
  have hsep : Separated letter (ts ++ word :: us) := htokens ▸ separated_tokens text
  rcases List.isChain_append.mp hsep with ⟨-, htail, hjoin⟩
  constructor
  · intro x hx
    rcases List.eq_nil_or_concat ts with rfl | ⟨init, t, rfl⟩
    · simp at hx
    · rcases hjoin t (by simp) word (by simp) with ⟨ht, hw, hpair⟩
      rw [List.concat_eq_append, List.flatten_append, List.flatten_singleton,
        List.getLast?_append_of_ne_nil _ ht, List.getLast?_eq_some_getLast ht] at hx
      rw [hword.letters _ (List.head_mem hw), Bool.and_true] at hpair
      rw [← Option.some.inj hx]
      exact hpair
  · intro x hx
    have hlast := List.getLast?_eq_some_getLast hword.ne_nil
    exact not_touch_of_separated htail hlast hx (hword.letters _ (List.getLast_mem _))

end Tokens
end Library
end TestAio
