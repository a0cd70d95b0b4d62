import TestAio.Util.MarkedArticle
import TestAio.Util.DocUtil.Layout
import TestAio.Util.DocUtil.Pieces
import TestAio.Util.HtmlUtil.Marks

/-!
# The words the Word renderer marks

The passes of {lit}`parsePassage` over an article are marking passes over its tokens: a word is
cut out where it is a token of its own and no token before it in the same node holds its
letters.

Main results:

- Theorem {lit}`cuts_of_expands`: a pass over a text cuts at tokens.
- Theorem {lit}`boldPass_of_cutText`: the two passes over an article as marking passes.

Current gaps:

- None.
-/

namespace TestAio
namespace DocUtil

open Library Library.Marking Library.Numbering Library.Tokens MarkedArticle HtmlUtil

/-! ## Occurrences that count -/

theorem notLetter_eq (c : JChar) :
    ((decide (c < 97) || decide (122 < c)) && (decide (c < 65) || decide (90 < c))) =
      !isLetterUnit c := by
  have h97 : c < 97 ↔ c.toNat < 97 := UInt16.lt_iff_toNat_lt
  have h122 : 122 < c ↔ 122 < c.toNat := UInt16.lt_iff_toNat_lt
  have h65 : c < 65 ↔ c.toNat < 65 := UInt16.lt_iff_toNat_lt
  have h90 : 90 < c ↔ 90 < c.toNat := UInt16.lt_iff_toNat_lt
  simp only [isLetterUnit, isLetter, h97, h122, h65, h90]
  by_cases h₁ : c.toNat < 97 <;> by_cases h₂ : 122 < c.toNat <;> by_cases h₃ : c.toNat < 65 <;>
    by_cases h₄ : 90 < c.toNat <;> simp [h₁, h₂, h₃, h₄] <;> omega

theorem notLetter_of_getElem? {value : JString} {index : Nat} :
    notLetter value (index : Int) = true ↔ ∀ c ∈ value[index]?, isLetterUnit c = false := by
  unfold notLetter
  rw [if_neg (by omega), Int.toNat_natCast]
  cases value[index]? with
  | none => simp
  | some c => simp [notLetter_eq c]

/-- An occurrence counts exactly when no letter stands next to it. -/
theorem bounded_iff {before word after : JString} :
    bounded true (before ++ word ++ after) word before.length = true ↔
      Alone isLetterUnit before after := by
  have hleft : notLetter (before ++ word ++ after) ((before.length : Int) - 1) = true ↔
      ∀ c ∈ before.getLast?, isLetterUnit c = false := by
    rcases List.eq_nil_or_concat before with rfl | ⟨init, last, rfl⟩
    · simp [notLetter]
    · have hindex : (((init.concat last).length : Nat) : Int) - 1 = (init.length : Nat) := by
        simp
      rw [hindex, notLetter_of_getElem?, List.concat_eq_append]
      simp
  have hright : notLetter (before ++ word ++ after)
      ((before.length + word.length : Nat) : Int) = true ↔
        ∀ c ∈ after.head?, isLetterUnit c = false := by
    rw [notLetter_of_getElem?, ← List.length_append,
      List.getElem?_append_right (Nat.le_refl _), Nat.sub_self, List.head?_eq_getElem?]
  simp only [bounded, Bool.not_true, Bool.false_or, Bool.and_eq_true, hleft, hright]
  exact ⟨fun h => ⟨h.1, h.2⟩, fun h => ⟨h.before, h.after⟩⟩

/-! ## One pass over a text -/

/-- The words of a list of entries. -/
abbrev wordsOf (words : List WordNode) : List JString :=
  words.map WordNode.word

/-- A text that is not marked. -/
def textNodes (value : JString) : List PassageNode :=
  if value = [] then [] else [{ value := value }]

/-- The nodes a pass makes of a text: it is cut at a listed token that no token before it
holds, or finished. -/
inductive Cuts (words : List WordNode) (flag : Flag) : JString → List PassageNode → Prop
  | done {value : JString}
      (hnone : NoMatch (· <:+: ·) (· ∈ wordsOf words) (articleTokens value)) :
      Cuts words flag value (textNodes value)
  | mark {value before after : JString} {word : WordNode} {left right : List PassageNode}
      (hword : word ∈ words)
      (htokens : articleTokens value =
        articleTokens before ++ word.word :: articleTokens after)
      (hfirst : ∀ t ∈ articleTokens before, ¬ word.word <:+: t)
      (hleft : Cuts words flag before left) (hright : Cuts words flag after right) :
      Cuts words flag value (left ++ markWord flag word { value := word.word } :: right)

variable {words bolds italics : List WordNode} {flag : Flag}

/-- Where no word is found there is no match. -/
theorem noMatch_of_matchWord (hwords : ∀ word ∈ words, IsWord isLetterUnit word.word)
    {value : JString} (h : matchWord words true value = none) :
    NoMatch (· <:+: ·) (· ∈ wordsOf words) (articleTokens value) := by
  intro before token after htokens htoken
  by_contra hfree
  push Not at hfree
  rcases List.mem_map.mp htoken with ⟨word, hword, rfl⟩
  have hisWord := hwords word hword
  have hindex := indexOf_eq_of_tokens hisWord htokens hfree
  have halone := alone_of_tokens hisWord htokens
  have hvalue : value = before.flatten ++ word.word ++ after.flatten := by
    have hflat := @flatten_tokens _ isLetterUnit value
    rw [← hflat, show tokens isLetterUnit value = _ from htokens]
    simp
  have hbounded : bounded true value word.word before.flatten.length = true := by
    rw [hvalue]
    exact bounded_iff.mpr halone
  have hnone := List.findSome?_eq_none_iff.mp h word hword
  rw [hindex] at hnone
  simp only [hbounded, if_true] at hnone
  contradiction

/-- A finished node stays. -/
theorem eq_of_expands_singleton {letter : Bool} {node : PassageNode} {out : List PassageNode}
    (hcut : cutNode words flag letter node = none)
    (h : WorkList.Expands (cutNode words flag letter) [node] out) : out = [node] :=
  (WorkList.expands_iff_of_finished (by simpa using hcut)).mp h

/-- A text that is cut expands to what its two rests expand to, with the marked word
between them. -/
theorem exists_of_expands_cut {value before after : JString} {word : WordNode}
    {out : List PassageNode}
    (hcut : cutNode words flag true { value := value } =
      some (plainPart { value := value } before ++ wordPart { value := value } flag word ++
        plainPart { value := value } after))
    (hword : word.word ≠ [])
    (h : WorkList.Expands (cutNode words flag true) [{ value := value }] out) :
    ∃ left right, out = left ++ ([markWord flag word { value := word.word }] ++ right) ∧
      WorkList.Expands (cutNode words flag true) (textNodes before) left ∧
        WorkList.Expands (cutNode words flag true) (textNodes after) right := by
  cases h with
  | keep hnone _ =>
      rw [hcut] at hnone
      contradiction
  | split hsome hrest =>
      rw [hcut] at hsome
      cases hsome
      rw [List.append_nil, List.append_assoc] at hrest
      rcases WorkList.expands_append_iff.mp hrest with ⟨left, tail, rfl, hleft, htail⟩
      rcases WorkList.expands_append_iff.mp htail with ⟨marked, right, rfl, hmarked, hright⟩
      rw [wordPart, if_neg hword] at hmarked
      have hfinished : cutNode words flag true
          (markWord flag word { value := word.word }) = none :=
        cutNode_eq_none_iff.mpr (Or.inl (by cases flag <;> rfl))
      rw [eq_of_expands_singleton hfinished hmarked]
      exact ⟨left, right, rfl, hleft, hright⟩

/-- A pass over a text cuts at tokens. -/
theorem cuts_of_expands (hwords : ∀ word ∈ words, IsWord isLetterUnit word.word)
    {value : JString} {out : List PassageNode}
    (h : WorkList.Expands (cutNode words flag true) (textNodes value) out) :
    Cuts words flag value out := by
  induction hlength : value.length using Nat.strong_induction_on generalizing value out with
  | _ n ih =>
      subst hlength
      by_cases hvalue : value = []
      · subst hvalue
        cases h
        exact Cuts.done fun before word after htokens => by simp [articleTokens] at htokens
      · rw [textNodes, if_neg hvalue] at h
        cases hcut : cutNode words flag true { value := value } with
        | none =>
            have hmatch := (cutNode_eq_none_iff.mp hcut).resolve_left (by simp)
            rw [eq_of_expands_singleton hcut h]
            have hdone := @Cuts.done words flag value (noMatch_of_matchWord hwords hmatch)
            rw [textNodes, if_neg hvalue] at hdone
            exact hdone
        | some parts =>
            rcases cutNode_eq_some_iff.mp hcut with
              ⟨-, word, before, after, hmatch, hat, rfl⟩
            rcases matchWord_spec hmatch with ⟨hmem, hindex, hbounded⟩
            have hisWord := hwords word hmem
            have hsplit : value = before ++ word.word ++ after := hat.value_eq
            have hpos : 0 < word.word.length := List.length_pos_of_ne_nil hisWord.ne_nil
            have hsum := congrArg List.length hsplit
            simp only [List.length_append] at hsum
            have halone : Alone isLetterUnit before after := by
              rw [hsplit] at hbounded
              exact bounded_iff.mp hbounded
            have hfirst : ∀ t ∈ articleTokens before, ¬ word.word <:+: t :=
              not_infix_of_first hisWord (hsplit ▸ hindex)
            have htokens : articleTokens value =
                articleTokens before ++ word.word :: articleTokens after := by
              rw [hsplit]
              exact tokens_whole hisWord halone
            rcases exists_of_expands_cut hcut hisWord.ne_nil h with
              ⟨left, right, rfl, hleft, hright⟩
            exact Cuts.mark hmem htokens hfirst
              (ih before.length (by omega) hleft rfl) (ih after.length (by omega) hright rfl)

/-! ## Both passes over a text -/

/-- The marked tokens that a node stands for. -/
def nodeMarks (node : PassageNode) : List Mark :=
  if node.bold then
    [(node.value, .bold)]
  else if node.italic then
    [(node.value, .italic)]
  else
    styled (fun _ => .plain) (articleTokens node.value)

/-- What no pass has marked is plain. -/
def plainRest (ts : List JString) (marks : List Mark) : Prop :=
  marks = styled (fun _ => .plain) ts

/-- The pass for the italic words. -/
abbrev italicPass (italics : List WordNode) : List JString → List Mark → Prop :=
  Pass (· <:+: ·) (· ∈ wordsOf italics) .italic plainRest

/-- The pass for the bold words, followed by the one for the italic words. -/
abbrev boldPass (bolds italics : List WordNode) : List JString → List Mark → Prop :=
  Pass (· <:+: ·) (· ∈ wordsOf bolds) .bold (italicPass italics)

theorem textNodes_marks (value : JString) :
    (textNodes value).flatMap nodeMarks = styled (fun _ => .plain) (articleTokens value) := by
  unfold textNodes
  split_ifs with hvalue
  · rw [hvalue]
    rfl
  · simp [nodeMarks]

/-- Cutting at the italic words is the italic pass. -/
theorem Cuts.italicPass {value : JString} {out : List PassageNode}
    (h : Cuts italics .italic value out) :
    italicPass italics (articleTokens value) (out.flatMap nodeMarks) := by
  induction h with
  | done hnone => exact Pass.done hnone (textNodes_marks _)
  | mark hword htokens hfirst _ _ ihleft ihright =>
      rw [htokens, List.flatMap_append, List.flatMap_cons]
      exact Pass.mark (List.mem_map_of_mem hword) hfirst ihleft ihright

/-- Cutting at the bold words and then at the italic ones are the two passes. -/
theorem Cuts.boldPass (hitalics : ∀ word ∈ italics, IsWord isLetterUnit word.word)
    {value : JString} {marked out : List PassageNode} (h : Cuts bolds .bold value marked)
    (hout : WorkList.Expands (cutNode italics .italic true) marked out) :
    boldPass bolds italics (articleTokens value) (out.flatMap nodeMarks) := by
  induction h generalizing out with
  | done hnone => exact Pass.done hnone (cuts_of_expands hitalics hout).italicPass
  | mark hword htokens hfirst _ _ ihleft ihright =>
      rcases WorkList.expands_append_iff.mp hout with ⟨left, tail, rfl, hleft, htail⟩
      rcases @WorkList.expands_append_iff _ _ [_] _ _ |>.mp htail with
        ⟨word, right, rfl, hmarked, hright⟩
      rw [eq_of_expands_singleton (cutNode_eq_none_iff.mpr (Or.inl rfl)) hmarked, htokens,
        List.flatMap_append, List.singleton_append, List.flatMap_cons]
      exact Pass.mark (List.mem_map_of_mem hword) hfirst (ihleft hleft) (ihright hright)

/-- A text without line feeds takes the pass for the bold words and the one for the italic
words; a pass that is left out finds nothing. -/
theorem expands_of_cutText {fuel : Nat} {value : JString} {results : List PassageNode}
    (hvalue : value ≠ []) (hbreak : 10 ∉ value)
    (h : cutText fuel value bolds italics = .ok results) :
    ∃ marked, WorkList.Expands (cutNode bolds .bold true) (textNodes value) marked ∧
      WorkList.Expands (cutNode italics .italic true) marked results := by
  have hpass : ∀ {nodes out words flag}, (if words.isEmpty then out = nodes
      else parsePassage fuel nodes words flag true = some out) →
        WorkList.Expands (cutNode words flag true) nodes out := by
    intro nodes out words flag hrun
    split_ifs at hrun with hempty
    · rw [hrun, List.isEmpty_iff.mp hempty]
      refine (WorkList.expands_iff_of_finished fun node _ => ?_).mpr rfl
      exact cutNode_eq_none_iff.mpr (Or.inr rfl)
    · rw [parsePassage_eq_run] at hrun
      exact WorkList.run_eq_some_iff.mp ⟨fuel, hrun⟩
  rcases cutText_eq_ok_iff.mp h with ⟨lines, marked, hlines, hmarked, hresults⟩
  have hstart : lines = textNodes value := by
    rw [parsePassage_eq_run] at hlines
    rw [textNodes, if_neg hvalue]
    refine eq_of_expands_singleton (cutNode_eq_none_iff.mpr (Or.inr ?_))
      (WorkList.run_eq_some_iff.mp ⟨fuel, hlines⟩)
    have hnone : Search.indexOf value lineFeed.word = none := by
      refine Search.indexOf_eq_none_iff.mpr fun hoccurs => hbreak ?_
      exact hoccurs.subset (by decide)
    simp [matchWord, hnone]
  exact ⟨marked, hstart ▸ hpass hmarked, hpass hresults⟩

/-- The nodes of an article are its tokens marked in two passes. -/
theorem boldPass_of_cutText (hbolds : ∀ word ∈ bolds, IsWord isLetterUnit word.word)
    (hitalics : ∀ word ∈ italics, IsWord isLetterUnit word.word) {fuel : Nat}
    {value : JString} {results : List PassageNode} (hvalue : value ≠ []) (hbreak : 10 ∉ value)
    (h : cutText fuel value bolds italics = .ok results) :
    boldPass bolds italics (articleTokens value) (results.flatMap nodeMarks) := by
  rcases expands_of_cutText hvalue hbreak h with ⟨marked, hmarked, hresults⟩
  exact (cuts_of_expands hbolds hmarked).boldPass hitalics hresults

end DocUtil
end TestAio
