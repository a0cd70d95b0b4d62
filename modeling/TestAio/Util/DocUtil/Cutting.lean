import TestAio.Util.DocUtil.Marks

/-!
# What a pass finds, keeps and when it ends

A pass of {lit}`parsePassage` takes each input node on its own.  An unparsed node is
cut into smaller texts as long as a word matches; the texts that cutting comes to
decide whether the pass ends and what it leaves unmarked.

Main results:

- Theorem {lit}`parsePassage_cuts`: a pass cuts the text, keeps the parsed nodes and marks
  the cut words.
- Theorem {lit}`parsePassage_finds_iff`: when the unparsed nodes of the result hold no word
  any more.
- Theorem {lit}`parsePassage_ends_iff`: when a pass ends.

Current gaps:

- None.
-/

namespace TestAio
namespace DocUtil

open Library Library.Marking Library.Tokens MarkedArticle HtmlUtil

variable {words : List WordNode} {flag : Flag} {letter : Bool}

/-! ## The nodes of a result -/

/-- Whether a node carries the flag that a consumer sets. -/
def Flag.isSet : Flag → PassageNode → Bool
  | .nextLine, part => part.nextLine
  | .bold, part => part.bold
  | .italic, part => part.italic

/-- A parsed node that was cut from another one: it stands for its word, carries the flag
of the consumer and otherwise keeps the style. -/
structure MarkedFrom (words : List WordNode) (flag : Flag) (node part : PassageNode) :
    Prop where
  word : ∃ word ∈ words, part.wordNode = some word ∧ part.value = word.word
  isSet : flag.isSet part = true
  bold : part.bold = (node.bold || decide (flag = .bold))
  italic : part.italic = (node.italic || decide (flag = .italic))

/-- What a pass makes of one node. -/
structure CutFrom (words : List WordNode) (flag : Flag) (node : PassageNode)
    (parts : List PassageNode) : Prop where
  values : parts.flatMap PassageNode.value = node.value
  kept : node.parsed = true → parts = [node]
  marked : node.parsed = false → ∀ part ∈ parts, part.parsed = true →
    MarkedFrom words flag node part

theorem markedFrom_markWord {word : WordNode} (hword : word ∈ words) (node : PassageNode) :
    MarkedFrom words flag node
      (markWord flag word { value := word.word, bold := node.bold, italic := node.italic }) := by
  cases flag <;> exact ⟨⟨word, hword, rfl, rfl⟩, rfl, by simp [markWord, Flag.accept],
    by simp [markWord, Flag.accept]⟩

/-- A pass cuts each node. -/
theorem cutFrom_of_expands {node : PassageNode} {parts : List PassageNode}
    (h : WorkList.Expands (cutNode words flag letter) [node] parts) :
    CutFrom words flag node parts := by
  refine ⟨?_, fun hparsed => ?_, fun hparsed part hpart hmarked => ?_⟩
  · rw [h.flatMap_eq cutNode_values]
    simp
  · exact eq_of_expands_singleton (cutNode_eq_none_iff.mpr (Or.inl hparsed)) h
  · -- An unparsed part has the style of the node, so what is cut from it is cut from the node.
    have hshape : ∀ part ∈ parts,
        (part.parsed = false → part.bold = node.bold ∧ part.italic = node.italic) ∧
          (part.parsed = true → MarkedFrom words flag node part) := by
      refine h.forall_mem (fun item cut hcut hitem => ?_) ?_
      · have hstyle := hitem.1 (cutNode_eq_some_iff.mp hcut).1
        refine cutNode_forall hcut (fun value => ⟨fun _ => hstyle, fun hp => ?_⟩)
          fun word hword => ⟨fun hp => ?_, fun _ => ?_⟩
        · contradiction
        · cases flag <;> contradiction
        · rw [hstyle.1, hstyle.2]
          exact markedFrom_markWord hword node
      · intro item hitem
        rw [List.mem_singleton.mp hitem]
        exact ⟨fun _ => ⟨rfl, rfl⟩, fun hp => absurd (hparsed.symm.trans hp) (by simp)⟩
    exact (hshape part hpart).2 hmarked

/-- A pass works every node off on its own, cuts the text and marks what it cuts out. -/
theorem parsePassage_cuts (hwords : ∀ word ∈ words, word.word ≠ []) (nodes : List PassageNode)
    (flag : Flag) (letter : Bool) :
    ∃ enough, ∀ fuel, enough ≤ fuel → ∃ results,
      parsePassage fuel nodes words flag letter = some results ∧
        results.flatMap PassageNode.value = nodes.flatMap PassageNode.value ∧
        (nodes.filter PassageNode.parsed).Sublist results ∧
        ∃ parts, List.Forall₂ (CutFrom words flag) nodes parts ∧ results = parts.flatten := by
  refine ⟨(nodes.map PassageNode.weight).sum, fun fuel hfuel => ?_⟩
  rcases Option.isSome_iff_exists.mp (parsePassage_isSome flag letter hwords hfuel) with
    ⟨results, hresults⟩
  refine ⟨results, hresults, parsePassage_values hresults, ?_⟩
  rw [parsePassage_eq_run] at hresults
  rcases WorkList.expands_iff_forall₂.mp (WorkList.run_eq_some_iff.mp ⟨fuel, hresults⟩) with
    ⟨parts, hparts, rfl⟩
  have hcuts : List.Forall₂ (CutFrom words flag) nodes parts :=
    hparts.imp fun _ _ => cutFrom_of_expands
  refine ⟨?_, parts, hcuts, rfl⟩
  clear hparts hresults hfuel
  induction hcuts with
  | nil => exact List.Sublist.refl _
  | @cons node part nodes parts hcut _ ih =>
      rw [List.flatten_cons]
      cases hparsed : node.parsed with
      | true =>
          rw [List.filter_cons_of_pos hparsed, hcut.kept hparsed, List.singleton_append]
          exact ih.cons_cons node
      | false =>
          rw [List.filter_cons_of_neg (by simp [hparsed])]
          exact ih.trans (List.sublist_append_right _ _)

/-- A list with a parsed node between two texts. -/
theorem parsePassage_cuts_sample :
    ∃ enough, ∀ fuel, enough ≤ fuel → ∃ results,
      parsePassage fuel
          [{ value := jstr "a cat" }, { value := jstr "cat", bold := true, parsed := true },
            { value := jstr "cats", italic := true }]
          [WordNode.ofWord (jstr "cat")] .bold true = some results ∧
        results.flatMap PassageNode.value = jstr "a catcatcats" ∧
        [({ value := jstr "cat", bold := true, parsed := true } : PassageNode)].Sublist results ∧
        ∃ parts, List.Forall₂ (CutFrom [WordNode.ofWord (jstr "cat")] .bold)
          [{ value := jstr "a cat" }, { value := jstr "cat", bold := true, parsed := true },
            { value := jstr "cats", italic := true }] parts ∧ results = parts.flatten :=
  parsePassage_cuts (by rintro word hword; rw [List.mem_singleton.mp hword]; decide) _ _ _

/-! ## Texts that cutting comes to -/

/-- The texts that cutting an unparsed text comes to: the text, and what stands before and
behind a match in such a text. -/
inductive CutsTo (words : List WordNode) (letter : Bool) (value : JString) : JString → Prop
  | refl : CutsTo words letter value value
  | before {word : WordNode} {before after : JString}
      (h : CutsTo words letter value (before ++ word.word ++ after))
      (hmatch : matchWord words letter (before ++ word.word ++ after) =
        some (word, before.length)) : CutsTo words letter value before
  | after {word : WordNode} {before after : JString}
      (h : CutsTo words letter value (before ++ word.word ++ after))
      (hmatch : matchWord words letter (before ++ word.word ++ after) =
        some (word, before.length)) : CutsTo words letter value after

/-- The unparsed parts of an unparsed node are the texts around the match, as far as there
are any. -/
theorem partOf_iff {node : PassageNode} (hnode : node.parsed = false) {text : JString} :
    (∃ part, part.parsed = false ∧ part.value = text ∧
        WorkList.PartOf (cutNode words flag letter) part node) ↔
      text ≠ [] ∧ ∃ word before after, node.value = before ++ word.word ++ after ∧
        matchWord words letter node.value = some (word, before.length) ∧
        (text = before ∨ text = after) := by
  have hplain : ∀ {value : JString} {part : PassageNode}, part ∈ plainPart node value ↔
      value ≠ [] ∧ part = { value := value, bold := node.bold, italic := node.italic } := by
    intro value part
    unfold plainPart
    split_ifs with hvalue <;> simp [hvalue]
  constructor
  · rintro ⟨part, hparsed, rfl, parts, hcut, hpart⟩
    rcases cutNode_eq_some_iff.mp hcut with ⟨-, word, before, after, hmatch, hat, rfl⟩
    have haround : part ∈ plainPart node before ∨ part ∈ plainPart node after := by
      rcases List.mem_append.mp hpart with hpart | hpart
      · rcases List.mem_append.mp hpart with hpart | hpart
        · exact Or.inl hpart
        · -- The part for the word is parsed.
          unfold wordPart at hpart
          split_ifs at hpart
          · simp at hpart
          · rw [List.mem_singleton.mp hpart] at hparsed
            contradiction
      · exact Or.inr hpart
    rcases haround with hpart | hpart
    · rcases hplain.mp hpart with ⟨hne, rfl⟩
      exact ⟨hne, word, before, after, hat.value_eq, hmatch, Or.inl rfl⟩
    · rcases hplain.mp hpart with ⟨hne, rfl⟩
      exact ⟨hne, word, before, after, hat.value_eq, hmatch, Or.inr rfl⟩
  · rintro ⟨hne, word, before, after, hvalue, hmatch, htext⟩
    refine ⟨{ value := text, bold := node.bold, italic := node.italic }, rfl, rfl, _,
      cutNode_eq_some_iff.mpr ⟨hnode, word, before, after, hmatch,
        ⟨hvalue, (matchWord_spec hmatch).2.1⟩, rfl⟩, ?_⟩
    rcases htext with rfl | rfl
    · exact List.mem_append_left _ (List.mem_append_left _ (hplain.mpr ⟨hne, rfl⟩))
    · exact List.mem_append_right _ (hplain.mpr ⟨hne, rfl⟩)

/-- The unparsed nodes that cutting comes to have the texts that cutting comes to. -/
theorem cutsTo_of_reaches {node part : PassageNode}
    (h : WorkList.Reaches (cutNode words flag letter) node part) (hpart : part.parsed = false) :
    CutsTo words letter node.value part.value := by
  induction h with
  | refl => exact .refl
  | @tail mid part hmid hstep ih =>
      have hunparsed : mid.parsed = false := by
        rcases hstep with ⟨parts, hcut, -⟩
        exact (cutNode_eq_some_iff.mp hcut).1
      rcases (partOf_iff hunparsed).mp ⟨part, hpart, rfl, hstep⟩ with
        ⟨-, word, before, after, hvalue, hmatch, htext⟩
      have hcuts := ih hunparsed
      rw [hvalue] at hcuts hmatch
      rcases htext with htext | htext
      · exact htext ▸ hcuts.before hmatch
      · exact htext ▸ hcuts.after hmatch

/-- For a text that cutting comes to there is a node, unless the text is empty. -/
theorem reaches_of_cutsTo (flag : Flag) {node : PassageNode} (hnode : node.parsed = false)
    {text : JString} (h : CutsTo words letter node.value text) (hne : text ≠ []) :
    ∃ part, part.parsed = false ∧ part.value = text ∧
      WorkList.Reaches (cutNode words flag letter) node part := by
  have hstep : ∀ {value rest : JString} {word : WordNode} {before after : JString}
      {mid : PassageNode}, mid.parsed = false → mid.value = value →
      WorkList.Reaches (cutNode words flag letter) node mid →
      value = before ++ word.word ++ after →
      matchWord words letter value = some (word, before.length) →
      rest = before ∨ rest = after → rest ≠ [] →
      ∃ part, part.parsed = false ∧ part.value = rest ∧
        WorkList.Reaches (cutNode words flag letter) node part := by
    intro value rest word before after mid hmid hvalue hreach hsplit hmatch hrest hne
    subst hvalue
    rcases (partOf_iff hmid).mpr ⟨hne, word, before, after, hsplit, hmatch, hrest⟩ with
      ⟨part, hpart, htext, hpartOf⟩
    exact ⟨part, hpart, htext, hreach.tail hpartOf⟩
  induction h with
  | refl => exact ⟨node, hnode, rfl, .refl⟩
  | before _ hmatch ih =>
      rcases ih (by simp [hne]) with ⟨mid, hmid, hvalue, hreach⟩
      exact hstep hmid hvalue hreach rfl hmatch (Or.inl rfl) hne
  | after _ hmatch ih =>
      rcases ih (by simp [hne]) with ⟨mid, hmid, hvalue, hreach⟩
      exact hstep hmid hvalue hreach rfl hmatch (Or.inr rfl) hne

/-- Cutting comes to parts of the text only. -/
theorem CutsTo.isInfix {value text : JString} (h : CutsTo words letter value text) :
    text <:+: value := by
  induction h with
  | refl => exact List.infix_refl value
  | @before word before after _ _ ih =>
      rw [List.append_assoc] at ih
      exact (List.prefix_append before _).isInfix.trans ih
  | after _ _ ih => exact (List.suffix_append _ _).isInfix.trans ih

/-! ## When a pass ends -/

/-- No text that cutting comes to is matched by an empty word, which takes nothing away. -/
def NeverEmptyMatch (words : List WordNode) (letter : Bool) (value : JString) : Prop :=
  ∀ text, CutsTo words letter value text → text ≠ [] → ∀ word index,
    matchWord words letter text = some (word, index) → word.word ≠ []

theorem CutsTo.trans {value text rest : JString} (h : CutsTo words letter value text)
    (hrest : CutsTo words letter text rest) : CutsTo words letter value rest := by
  induction hrest with
  | refl => exact h
  | before _ hmatch ih => exact ih.before hmatch
  | after _ hmatch ih => exact ih.after hmatch

/-- Matches that take something away can be cut out only finitely often. -/
theorem acc_of_neverEmptyMatch {node : PassageNode} (hnode : node.parsed = false)
    (h : NeverEmptyMatch words letter node.value) :
    Acc (WorkList.PartOf (cutNode words flag letter)) node := by
  induction hlength : node.value.length using Nat.strong_induction_on generalizing node with
  | _ n ih =>
      subst hlength
      refine Acc.intro _ fun part hpart => ?_
      cases hparsed : part.parsed with
      | true =>
          -- A parsed part is not cut any more.
          refine Acc.intro _ ?_
          rintro inner ⟨parts, hcut, -⟩
          rw [cutNode_eq_none_iff.mpr (Or.inl hparsed)] at hcut
          contradiction
      | false =>
          rcases (partOf_iff hnode).mp ⟨part, hparsed, rfl, hpart⟩ with
            ⟨hne, word, before, after, hvalue, hmatch, htext⟩
          have hword : word.word ≠ [] := by
            refine h node.value .refl ?_ word _ hmatch
            rintro hnil
            rw [hnil] at hvalue
            rcases List.append_eq_nil_iff.mp hvalue.symm with ⟨hfront, hafter⟩
            rcases List.append_eq_nil_iff.mp hfront with ⟨hbefore, -⟩
            rcases htext with htext | htext
            · exact hne (htext.trans hbefore)
            · exact hne (htext.trans hafter)
          have hpos : 0 < word.word.length := List.length_pos_of_ne_nil hword
          have hsum := congrArg List.length hvalue
          simp only [List.length_append] at hsum
          have hcuts : CutsTo words letter node.value part.value :=
            cutsTo_of_reaches (.single hpart) hparsed
          refine ih part.value.length ?_ hparsed (fun text htext => h text (hcuts.trans htext)) rfl
          rcases htext with htext | htext <;> rw [htext] <;> omega

/-- A non-empty text that an empty word matches is cut into itself. -/
theorem not_acc_of_empty_match {text : JString} {word : WordNode} {index : Nat}
    (hne : text ≠ []) (hmatch : matchWord words letter text = some (word, index))
    (hword : word.word = []) {node : PassageNode} (hnode : node.parsed = false)
    (hvalue : node.value = text) :
    ¬ Acc (WorkList.PartOf (cutNode words flag letter)) node := by
  intro hacc
  induction hacc with
  | intro node _ ih =>
      have hindex : index = 0 := by
        have hfound := (matchWord_spec hmatch).2.1
        rw [hword, Search.indexOf_eq_zero List.nil_prefix] at hfound
        exact (Option.some.inj hfound).symm
      have hself : node.value = [] ++ word.word ++ text := by rw [hword, hvalue]; rfl
      rcases (partOf_iff hnode).mpr ⟨hne, word, [], text, hself,
        by rw [hvalue, hmatch, hindex]; rfl, Or.inr rfl⟩ with ⟨part, hpart, htext, hpartOf⟩
      exact ih part hpartOf hpart htext

/-- A pass ends exactly when in no unparsed node cutting comes to a text that an empty word
matches. -/
theorem parsePassage_ends_iff (nodes : List PassageNode) (words : List WordNode) (flag : Flag)
    (letter : Bool) :
    (∃ fuel results, parsePassage fuel nodes words flag letter = some results) ↔
      ∀ node ∈ nodes, node.parsed = false → NeverEmptyMatch words letter node.value := by
  have hends : (∃ fuel results, parsePassage fuel nodes words flag letter = some results) ↔
      ∃ results, WorkList.Expands (cutNode words flag letter) nodes results := by
    rw [exists_comm]
    simp only [parsePassage_eq_run, WorkList.run_eq_some_iff]
  rw [hends, WorkList.exists_expands_iff]
  constructor
  · intro h node hnode hparsed text htext hne word index hmatch hword
    rcases reaches_of_cutsTo flag hparsed htext hne with ⟨part, hpart, hvalue, hreach⟩
    exact not_acc_of_empty_match hne hmatch hword hpart hvalue
      (WorkList.Reaches.acc hreach (h node hnode))
  · intro h node hnode
    cases hparsed : node.parsed with
    | true =>
        refine Acc.intro _ ?_
        rintro part ⟨parts, hcut, -⟩
        rw [cutNode_eq_none_iff.mpr (Or.inl hparsed)] at hcut
        contradiction
    | false => exact acc_of_neverEmptyMatch hparsed (h node hnode hparsed)

/-- No text is matched by an empty word when there is none in the list, or when the text is made of
letters and words must not be next to letters. -/
theorem neverEmptyMatch_of_ne_nil_or_letters {value : JString}
    (h : (∀ word ∈ words, word.word ≠ []) ∨
      letter = true ∧ ∀ c ∈ value, isLetterUnit c = true) :
    NeverEmptyMatch words letter value := by
  intro text htext hne word index hmatch
  rcases matchWord_spec hmatch with ⟨hword, hindex, hbounded⟩
  rcases h with hwords | ⟨rfl, hletters⟩
  · exact hwords word hword
  · intro hnil
    rw [hnil, Search.indexOf_eq_zero List.nil_prefix, Option.some.injEq] at hindex
    subst hindex
    rw [hnil] at hbounded
    have halone : Alone isLetterUnit [] text := bounded_iff.mp hbounded
    have hhead := halone.after (text.head hne) (List.head?_eq_some_head hne)
    rw [hletters _ (htext.isInfix.subset (List.head_mem hne))] at hhead
    cases hhead

/-- With an empty word in the list a pass over a text that starts with no letter never
ends. -/
theorem parsePassage_empty_word_runs_on :
    ¬ ∃ fuel results,
      parsePassage fuel [{ value := jstr "1" }] [WordNode.ofWord []] .bold true =
        some results := by
  rintro ⟨fuel, results, h⟩
  have hloop : ∀ fuel, parsePassageLoop [WordNode.ofWord []] .bold true fuel
      [{ value := jstr "1" }] [] = none := by
    intro fuel
    induction fuel with
    | zero => rfl
    | succ fuel ih => exact ih
  rw [parsePassage, hloop] at h
  contradiction

/-! ## What a pass finds -/

/-- An occurrence of a word that is bounded on both sides by a non-letter or an end. -/
def OccursWhole (value word : JString) : Prop :=
  ∃ before after, value = before ++ word ++ after ∧
    bounded true value word before.length = true

theorem OccursWhole.ne_nil {value word : JString} (h : OccursWhole value word)
    (hword : word ≠ []) : value ≠ [] := by
  rcases h with ⟨before, after, rfl, -⟩
  simp [hword]

/-- No unparsed node holds a whole occurrence of a word. -/
def AllFound (words : List WordNode) (results : List PassageNode) : Prop :=
  ∀ node ∈ results, node.parsed = false → ∀ word ∈ words, ¬ OccursWhole node.value word.word

/-- Wherever cutting comes to a whole occurrence of a word, some word is matched. -/
def MatchesWhereWhole (words : List WordNode) (value : JString) : Prop :=
  ∀ text, CutsTo words true value text → (∃ word ∈ words, OccursWhole text word.word) →
    matchWord words true text ≠ none

/-- No word of letters stands behind a run that holds its letters, with no word of the list
between the two. -/
def NoneBehind (words : List WordNode) (value : JString) : Prop :=
  Unshadowed (· <:+: ·) (· ∈ wordsOf words) (· ∈ wordsOf words) (articleTokens value)

/-- Wherever a listed word occurs in a value, neither neighbour of it is a letter. -/
def AlwaysWhole (words : List WordNode) (value : JString) : Prop :=
  ∀ word ∈ words, ∀ before after, value = before ++ word.word ++ after →
    Alone isLetterUnit before after

/-- What stands alone in a text stands alone in a part of it. -/
theorem alone_of_append (lead trail : JString) {before after : JString}
    (h : Alone isLetterUnit (lead ++ before) (after ++ trail)) :
    Alone isLetterUnit before after where
  before c hc := h.before c (by
    rw [Option.mem_def] at hc
    rw [List.getLast?_append, hc]
    rfl)
  after c hc := h.after c (by
    rw [Option.mem_def] at hc
    rw [List.head?_append, hc]
    rfl)

/-- Words that always occur whole are matched wherever they occur. -/
theorem matchesWhereWhole_of_alwaysWhole {value : JString} (h : AlwaysWhole words value) :
    MatchesWhereWhole words value := by
  rintro text htext ⟨word, hword, before, after, htext', -⟩ hnone
  have hoccurs : Search.indexOf text word.word ≠ none := by
    rw [ne_eq, Search.indexOf_eq_none_iff, not_not]
    exact ⟨before, after, htext'.symm⟩
  rcases Option.ne_none_iff_exists'.mp hoccurs with ⟨index, hindex⟩
  rcases Search.prefix_drop_of_indexOf hindex with ⟨rest, hrest⟩
  have hle : index ≤ text.length := by
    by_contra hlt
    rw [List.drop_eq_nil_of_le (by omega)] at hrest
    rw [(List.append_eq_nil_iff.mp hrest).1, Search.indexOf_eq_zero List.nil_prefix,
      Option.some.injEq] at hindex
    omega
  have hsplit : text = text.take index ++ word.word ++ rest := by
    rw [List.append_assoc, hrest, List.take_append_drop]
  -- The first occurrence in the text is one in the value.
  rcases htext.isInfix with ⟨lead, trail, hvalue⟩
  have halone : Alone isLetterUnit (text.take index) rest := by
    refine alone_of_append lead trail (h word hword _ _ ?_)
    rw [← hvalue]
    conv_lhs => rw [hsplit]
    simp only [List.append_assoc]
  have hbounded : bounded true text word.word index = true := by
    have hbounded := (@bounded_iff _ word.word _).mpr halone
    rwa [← hsplit, List.length_take, Nat.min_eq_left hle] at hbounded
  have hskipped := List.findSome?_eq_none_iff.mp hnone word hword
  simp only [hindex, hbounded, if_true] at hskipped
  cases hskipped

/-- The unparsed nodes of a result are the texts without a match that cutting comes to. -/
theorem allFound_iff (hwords : ∀ word ∈ words, word.word ≠ []) {nodes results : List PassageNode}
    (h : WorkList.Expands (cutNode words flag true) nodes results) :
    AllFound words results ↔
      ∀ node ∈ nodes, node.parsed = false → MatchesWhereWhole words node.value := by
  constructor
  · rintro hfound node hnode hparsed text htext ⟨word, hword, hwhole⟩ hnone
    have hne : text ≠ [] := hwhole.ne_nil (hwords word hword)
    rcases reaches_of_cutsTo flag hparsed htext hne with ⟨part, hpart, rfl, hreach⟩
    have hmem : part ∈ results :=
      h.mem_iff.mpr ⟨node, hnode, hreach, cutNode_eq_none_iff.mpr (Or.inr hnone)⟩
    exact hfound part hmem hpart word hword hwhole
  · intro hmatches part hpart hparsed word hword hwhole
    rcases h.mem_iff.mp hpart with ⟨node, hnode, hreach, hnone⟩
    have hunparsed : node.parsed = false := by
      rcases hreach.cases_head with rfl | ⟨mid, ⟨parts, hcut, -⟩, -⟩
      · exact hparsed
      · exact (cutNode_eq_some_iff.mp hcut).1
    refine hmatches node hnode hunparsed part.value (cutsTo_of_reaches hreach hparsed)
      ⟨word, hword, hwhole⟩ ?_
    rcases cutNode_eq_none_iff.mp hnone with htrue | hnone
    · exact absurd (hparsed.symm.trans htrue) (by simp)
    · exact hnone

/-- A word of letters occurs whole exactly when it is a token. -/
theorem occursWhole_iff {value word : JString} (hword : IsWord isLetterUnit word) :
    OccursWhole value word ↔ word ∈ articleTokens value := by
  constructor
  · rintro ⟨before, after, rfl, hbounded⟩
    rw [articleTokens, tokens_whole hword (bounded_iff.mp hbounded)]
    exact List.mem_append_right _ List.mem_cons_self
  · intro hmem
    rcases List.append_of_mem hmem with ⟨before, after, htokens⟩
    have halone := alone_of_tokens hword htokens
    have hvalue : value = before.flatten ++ word ++ after.flatten := by
      have hflat := @flatten_tokens _ isLetterUnit value
      rw [← hflat, show tokens isLetterUnit value = _ from htokens]
      simp
    refine ⟨before.flatten, after.flatten, hvalue, ?_⟩
    rw [hvalue]
    exact bounded_iff.mpr halone

theorem allFound_append {xs ys : List PassageNode} :
    AllFound words (xs ++ ys) ↔ AllFound words xs ∧ AllFound words ys :=
  List.forall_mem_append

theorem allFound_cons_of_parsed {node : PassageNode} {nodes : List PassageNode}
    (h : node.parsed = true) : AllFound words (node :: nodes) ↔ AllFound words nodes := by
  unfold AllFound
  rw [List.forall_mem_cons]
  refine and_iff_right fun hparsed => ?_
  rw [h] at hparsed
  contradiction

/-- Nothing is left of a text exactly when none of its tokens is listed. -/
theorem allFound_textNodes (hwords : ∀ word ∈ words, IsWord isLetterUnit word.word)
    {value : JString} :
    AllFound words (textNodes value) ↔ ∀ token ∈ articleTokens value, token ∉ wordsOf words := by
  have htokens : (∀ word ∈ words, ¬ OccursWhole value word.word) ↔
      ∀ token ∈ articleTokens value, token ∉ wordsOf words := by
    constructor
    · intro h token htoken hlisted
      rcases List.mem_map.mp hlisted with ⟨word, hword, rfl⟩
      exact h word hword ((occursWhole_iff (hwords word hword)).mpr htoken)
    · intro h word hword hwhole
      exact h word.word ((occursWhole_iff (hwords word hword)).mp hwhole)
        (List.mem_map_of_mem hword)
  unfold textNodes
  split_ifs with hvalue
  · subst hvalue
    simp [AllFound, articleTokens]
  · rw [← htokens]
    simp [AllFound]

/-- Among words of letters nothing is left exactly when no word is hidden. -/
theorem Cuts.allFound_iff (hwords : ∀ word ∈ words, IsWord isLetterUnit word.word)
    {value : JString} {results : List PassageNode} (h : Cuts words flag value results) :
    AllFound words results ↔ NoneBehind words value := by
  induction h with
  | done hnone =>
      rw [allFound_textNodes hwords]
      exact ⟨unshadowed_of_not_targets, hnone.not_listed⟩
  | @mark value before after word left right hword htokens hfirst _ _ ihleft ihright =>
      have hparsed : (markWord flag word { value := word.word }).parsed = true := by
        cases flag <;> rfl
      rw [allFound_append, allFound_cons_of_parsed hparsed, ihleft, ihright]
      unfold NoneBehind
      rw [htokens]
      exact (unshadowed_append_cons_iff (List.mem_map_of_mem hword) hfirst).symm

/-- Words of letters: wherever one occurs whole a word is matched, exactly when none is
hidden. -/
theorem matchesWhereWhole_iff (hwords : ∀ word ∈ words, IsWord isLetterUnit word.word)
    (value : JString) : MatchesWhereWhole words value ↔ NoneBehind words value := by
  have hne : ∀ word ∈ words, word.word ≠ [] := fun word hword => (hwords word hword).ne_nil
  rcases Option.isSome_iff_exists.mp
    (parsePassage_isSome .bold true hne (Nat.le_refl ((textNodes value).map _).sum)) with
    ⟨results, hresults⟩
  rw [parsePassage_eq_run] at hresults
  have hexpands := WorkList.run_eq_some_iff.mp ⟨_, hresults⟩
  rw [← (cuts_of_expands hwords hexpands).allFound_iff hwords,
    DocUtil.allFound_iff hne hexpands, textNodes]
  split_ifs with hvalue
  · -- Nothing occurs in the empty text.
    subst hvalue
    refine ⟨by simp, fun _ text htext => ?_⟩
    rintro ⟨word, hword, hwhole⟩
    exact absurd (List.infix_nil.mp htext.isInfix) (hwhole.ne_nil (hne word hword))
  · simp

/-- A pass finds every whole occurrence of a word exactly when wherever cutting comes to
one some word is matched; for words of letters: exactly when none is hidden.  It does when the
words occur whole only. -/
theorem parsePassage_finds_iff (hwords : ∀ word ∈ words, word.word ≠ [])
    (nodes : List PassageNode) (flag : Flag) :
    ∃ enough, ∀ fuel, enough ≤ fuel → ∃ results,
      parsePassage fuel nodes words flag true = some results ∧
        (AllFound words results ↔
          ∀ node ∈ nodes, node.parsed = false → MatchesWhereWhole words node.value) ∧
        ((∀ word ∈ words, IsWord isLetterUnit word.word) →
          (AllFound words results ↔
            ∀ node ∈ nodes, node.parsed = false → NoneBehind words node.value)) ∧
        ((∀ node ∈ nodes, node.parsed = false → AlwaysWhole words node.value) →
          AllFound words results) := by
  refine ⟨(nodes.map PassageNode.weight).sum, fun fuel hfuel => ?_⟩
  rcases Option.isSome_iff_exists.mp (parsePassage_isSome flag true hwords hfuel) with
    ⟨results, hresults⟩
  refine ⟨results, hresults, ?_⟩
  rw [parsePassage_eq_run] at hresults
  have hfound := allFound_iff hwords (WorkList.run_eq_some_iff.mp ⟨fuel, hresults⟩)
  refine ⟨hfound, fun hletters => ?_, fun hwhole => hfound.mpr fun node hnode hparsed => ?_⟩
  · rw [hfound]
    simp only [matchesWhereWhole_iff hletters]
  · exact matchesWhereWhole_of_alwaysWhole (hwhole node hnode hparsed)

/-- A word behind a longer one with its letters. -/
theorem parsePassage_finds_iff_cats :
    ∃ enough, ∀ fuel, enough ≤ fuel → ∃ results,
      parsePassage fuel [{ value := jstr "cats cat." }] [WordNode.ofWord (jstr "cat")] .bold true =
          some results ∧
        (AllFound [WordNode.ofWord (jstr "cat")] results ↔
          ∀ node ∈ [({ value := jstr "cats cat." } : PassageNode)], node.parsed = false →
            MatchesWhereWhole [WordNode.ofWord (jstr "cat")] node.value) ∧
        ((∀ word ∈ [WordNode.ofWord (jstr "cat")], IsWord isLetterUnit word.word) →
          (AllFound [WordNode.ofWord (jstr "cat")] results ↔
            ∀ node ∈ [({ value := jstr "cats cat." } : PassageNode)], node.parsed = false →
              NoneBehind [WordNode.ofWord (jstr "cat")] node.value)) ∧
        ((∀ node ∈ [({ value := jstr "cats cat." } : PassageNode)], node.parsed = false →
            AlwaysWhole [WordNode.ofWord (jstr "cat")] node.value) →
          AllFound [WordNode.ofWord (jstr "cat")] results) :=
  parsePassage_finds_iff (by rintro word hword; rw [List.mem_singleton.mp hword]; decide) _ _

/-- It is not found. -/
theorem parsePassage_misses_cat :
    ∃ results,
      parsePassage 9 [{ value := jstr "cats cat." }] [WordNode.ofWord (jstr "cat")] .bold true =
          some results ∧
        ¬ AllFound [WordNode.ofWord (jstr "cat")] results := by
  refine ⟨[{ value := jstr "cats cat." }], by decide +kernel, fun h => ?_⟩
  refine h _ List.mem_cons_self rfl _ List.mem_cons_self ?_
  exact ⟨jstr "cats ", jstr ".", by decide, by decide⟩

end DocUtil
end TestAio
