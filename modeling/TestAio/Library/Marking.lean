import Mathlib.Data.List.Infix

/-!
# Marking tokens by repeated search

A pass over a sequence of tokens looks for a listed token that no token before it
shadows, marks it, and goes on with the tokens before and behind it separately.
Where nothing can be found any more the rest of the work is left to a next pass.
A listed token stays unmarked when a token before it, with no mark in between,
shadows it; so a pass marks all listed tokens exactly when none is shadowed.

Main results:

- Theorem {lit}`unshadowed_append_cons_iff`: a mark cuts the condition in two.
- Theorem {lit}`Pass.styles_iff`: a pass gives every token the intended style exactly when no
  listed token is shadowed and the next pass does so between the marks.
- Theorem {lit}`Rest.pass`: passes can follow one another.

Current gaps:

- None.
-/

namespace TestAio
namespace Library
namespace Marking

variable {τ σ : Type}

/-- No target is shadowed by a token in front of it with no stop in between. -/
def Unshadowed (shadows : τ → τ → Prop) (stops targets : τ → Prop) (ts : List τ) : Prop :=
  ∀ before gap word after, ts = before ++ gap ++ word :: after → targets word →
    (∀ t ∈ gap, ¬ stops t) → ∀ t ∈ gap, ¬ shadows word t

/-- Nothing listed can be found: in front of every listed token something shadows it. -/
def NoMatch (shadows : τ → τ → Prop) (listed : τ → Prop) (ts : List τ) : Prop :=
  ∀ before word after, ts = before ++ word :: after → listed word →
    ∃ t ∈ before, shadows word t

/-- A pass: a found token is marked with a style, and what is left where nothing is found
goes to {lit}`rest`. -/
inductive Pass (shadows : τ → τ → Prop) (listed : τ → Prop) (style : σ)
    (rest : List τ → List (τ × σ) → Prop) : List τ → List (τ × σ) → Prop
  | done {ts : List τ} {marks : List (τ × σ)} (hnone : NoMatch shadows listed ts)
      (hrest : rest ts marks) : Pass shadows listed style rest ts marks
  | mark {ts us : List τ} {word : τ} {left right : List (τ × σ)} (hword : listed word)
      (hfirst : ∀ t ∈ ts, ¬ shadows word t) (hleft : Pass shadows listed style rest ts left)
      (hright : Pass shadows listed style rest us right) :
      Pass shadows listed style rest (ts ++ word :: us) (left ++ (word, style) :: right)

/-- Every token gets the intended style. -/
def styled (intended : τ → σ) (ts : List τ) : List (τ × σ) :=
  ts.map fun t => (t, intended t)

theorem styled_append_cons (intended : τ → σ) (ts us : List τ) (word : τ) :
    styled intended (ts ++ word :: us) =
      styled intended ts ++ (word, intended word) :: styled intended us := by
  simp [styled]

variable {shadows : τ → τ → Prop} {stops targets listed : τ → Prop}

/-- The condition holds of every part of a sequence it holds of. -/
theorem Unshadowed.part {ts us : List τ} (h : Unshadowed shadows stops targets us)
    (hpart : ts <:+: us) : Unshadowed shadows stops targets ts := by
  rcases hpart with ⟨front, back, rfl⟩
  intro before gap word after hts hword hgap
  refine h (front ++ before) gap word (after ++ back) ?_ hword hgap
  simp [hts]

/-- Where nothing is listed nothing is shadowed. -/
theorem unshadowed_of_not_targets {ts : List τ} (h : ∀ t ∈ ts, ¬ targets t) :
    Unshadowed shadows stops targets ts := by
  intro before gap word after hts hword
  exact absurd hword (h word (by simp [hts]))

/-- The first listed token of a sequence. -/
theorem exists_first (listed : τ → Prop) {ts : List τ} (h : ∃ t ∈ ts, listed t) :
    ∃ before word after, ts = before ++ word :: after ∧ listed word ∧
      ∀ t ∈ before, ¬ listed t := by
  induction ts with
  | nil => simp at h
  | cons t ts ih =>
      by_cases ht : listed t
      · exact ⟨[], t, ts, rfl, ht, by simp⟩
      · have hrest : ∃ t ∈ ts, listed t := by
          rcases h with ⟨u, hu, hlisted⟩
          rcases List.mem_cons.mp hu with rfl | hu
          · exact absurd hlisted ht
          · exact ⟨u, hu, hlisted⟩
        rcases ih hrest with ⟨before, word, after, rfl, hword, hbefore⟩
        refine ⟨t :: before, word, after, rfl, hword, fun u hu => ?_⟩
        rcases List.mem_cons.mp hu with rfl | hu
        · exact ht
        · exact hbefore u hu

/-- Where nothing is found and nothing is shadowed nothing is listed. -/
theorem NoMatch.not_listed {ts : List τ} (h : NoMatch shadows listed ts)
    (hunshadowed : Unshadowed shadows listed listed ts) : ∀ t ∈ ts, ¬ listed t := by
  by_contra hlisted
  push Not at hlisted
  rcases exists_first listed hlisted with ⟨before, word, after, hts, hword, hbefore⟩
  rcases h before word after hts hword with ⟨t, ht, hshadows⟩
  exact hunshadowed [] before word after (by simpa using hts) hword hbefore t ht hshadows

/-- A listed token cuts the condition in two. -/
theorem unshadowed_append_cons_iff {ts us : List τ} {word : τ} (hword : listed word)
    (hfirst : ∀ t ∈ ts, ¬ shadows word t) :
    Unshadowed shadows listed listed (ts ++ word :: us) ↔
      Unshadowed shadows listed listed ts ∧ Unshadowed shadows listed listed us := by
  constructor
  · intro h
    exact ⟨h.part ⟨[], word :: us, by simp⟩, h.part ⟨ts ++ [word], [], by simp⟩⟩
  · rintro ⟨hts, hus⟩ before gap target after hsplit htarget hgap
    rcases List.append_eq_append_iff.mp hsplit with ⟨front, hfront, hback⟩ | ⟨front, hfront, hback⟩
    · cases front with
      | nil =>
          -- The target is the mark.
          rw [List.nil_append, List.cons.injEq] at hback
          rw [List.append_nil] at hfront
          intro t ht
          rw [← hback.1]
          exact hfirst t (by rw [← hfront]; exact List.mem_append_right _ ht)
      | cons first front =>
          -- The target stands behind the mark, which is a stop, so the gap does too.
          rw [List.cons_append, List.cons.injEq] at hback
          rcases hback with ⟨rfl, hus'⟩
          rcases List.append_eq_append_iff.mp hfront with ⟨x, -, hgap'⟩ | ⟨x, -, hgap'⟩
          · exact absurd hword (hgap word (by simp [hgap']))
          · cases x with
            | nil =>
                rw [List.nil_append] at hgap'
                exact absurd hword (hgap word (by simp [← hgap']))
            | cons y x =>
                rw [List.cons_append, List.cons.injEq] at hgap'
                exact hus x gap target after (by rw [hus', hgap'.2]) htarget hgap
    · cases front with
      | nil =>
          rw [List.nil_append, List.cons.injEq] at hback
          rw [List.append_nil] at hfront
          intro t ht
          rw [hback.1]
          exact hfirst t (by rw [hfront]; exact List.mem_append_right _ ht)
      | cons first front =>
          rw [List.cons_append, List.cons.injEq] at hback
          rcases hback with ⟨rfl, -⟩
          exact hts before gap target front hfront htarget hgap

/-- The style that a pass and the next one intend. -/
def restyled (listed : τ → Prop) [DecidablePred listed] (style : σ) (intended : τ → σ)
    (t : τ) : σ :=
  if listed t then style else intended t

/-- The condition of the next pass between the marks. -/
def Between (listed : τ → Prop) (condition : List τ → Prop) (ts : List τ) : Prop :=
  ∀ part, part <:+: ts → (∀ t ∈ part, ¬ listed t) → condition part

/-- What a next pass does: it marks all its tokens, in styles of its own, and as intended
exactly under its condition. -/
structure Rest (rest : List τ → List (τ × σ) → Prop) (style : σ) (intended : τ → σ)
    (condition : List τ → Prop) : Prop where
  tokens : ∀ ts marks, rest ts marks → marks.map Prod.fst = ts
  style_ne : ∀ ts marks, rest ts marks → ∀ mark ∈ marks, mark.2 ≠ style
  iff : ∀ ts marks, rest ts marks → (marks = styled intended ts ↔ condition ts)
  mono : ∀ ts us, ts <:+: us → condition us → condition ts

variable {style : σ} {intended : τ → σ} {rest : List τ → List (τ × σ) → Prop}
  {condition : List τ → Prop}

/-- A pass marks all its tokens. -/
theorem Pass.tokens {ts : List τ} {marks : List (τ × σ)}
    (hrest : ∀ ts marks, rest ts marks → marks.map Prod.fst = ts)
    (h : Pass shadows listed style rest ts marks) : marks.map Prod.fst = ts := by
  induction h with
  | done _ hdone => exact hrest _ _ hdone
  | mark _ _ _ _ ihleft ihright => rw [List.map_append, List.map_cons, ihleft, ihright]

/-- The conditions of a pass hold on both sides of a mark when they hold around it. -/
theorem between_append_cons_iff {ts us : List τ} {word : τ} (hword : listed word) :
    Between listed condition (ts ++ word :: us) ↔
      Between listed condition ts ∧ Between listed condition us := by
  constructor
  · intro h
    exact ⟨fun part hpart => h part (hpart.trans ⟨[], word :: us, by simp⟩),
      fun part hpart => h part (hpart.trans ⟨ts ++ [word], [], by simp⟩)⟩
  · rintro ⟨hts, hus⟩ part ⟨front, back, hsplit⟩ hpart
    -- A part without listed tokens lies in front of the mark or behind it.
    rcases List.append_eq_append_iff.mp hsplit with ⟨x, hx, hback⟩ | ⟨x, hx, hback⟩
    · exact hts part ⟨front, x, hx.symm⟩ hpart
    · cases x with
      | nil =>
          rw [List.append_nil] at hx
          exact hts part ⟨front, [], by rw [hx, List.append_nil]⟩ hpart
      | cons y x =>
          rw [List.cons_append, List.cons.injEq] at hback
          rcases hback with ⟨rfl, hus'⟩
          rcases List.append_eq_append_iff.mp hx with ⟨z, -, hz⟩ | ⟨z, -, hz⟩
          · exact absurd hword (hpart word (by simp [hz]))
          · cases z with
            | nil =>
                rw [List.nil_append] at hz
                exact absurd hword (hpart word (by simp [← hz]))
            | cons w z =>
                rw [List.cons_append, List.cons.injEq] at hz
                exact hus part ⟨z, back, by rw [hus', hz.2]⟩ hpart

/-- A pass gives every token the intended style exactly when no listed token is shadowed and
the next pass does so between the marks. -/
theorem Pass.styles_iff [DecidablePred listed] {ts : List τ} {marks : List (τ × σ)}
    (hrest : Rest rest style intended condition)
    (h : Pass shadows listed style rest ts marks) :
    marks = styled (restyled listed style intended) ts ↔
      Unshadowed shadows listed listed ts ∧ Between listed condition ts := by
  induction h with
  | @done ts marks hnone hdone =>
      have hover : (∀ t ∈ ts, ¬ listed t) →
          styled (restyled listed style intended) ts = styled intended ts := by
        intro hfree
        refine List.map_congr_left fun t ht => ?_
        rw [restyled, if_neg (hfree t ht)]
      constructor
      · intro hmarks
        have hfree : ∀ t ∈ ts, ¬ listed t := by
          intro t ht hlisted
          refine hrest.style_ne ts marks hdone (t, restyled listed style intended t) ?_ ?_
          · rw [hmarks]
            exact List.mem_map.mpr ⟨t, ht, rfl⟩
          · rw [restyled, if_pos hlisted]
        rw [hover hfree] at hmarks
        exact ⟨unshadowed_of_not_targets hfree, fun part hpart _ =>
          hrest.mono part ts hpart ((hrest.iff ts marks hdone).mp hmarks)⟩
      · rintro ⟨hunshadowed, hbetween⟩
        have hfree := hnone.not_listed hunshadowed
        rw [hover hfree]
        exact (hrest.iff ts marks hdone).mpr (hbetween ts (List.infix_refl ts) hfree)
  | @mark ts us word left right hword hfirst hleft hright ihleft ihright =>
      rw [unshadowed_append_cons_iff hword hfirst, between_append_cons_iff hword,
        styled_append_cons]
      have hlength : left.length = (styled (restyled listed style intended) ts).length := by
        have htokens := congrArg List.length (hleft.tokens hrest.tokens)
        rw [List.length_map] at htokens
        rw [htokens, styled, List.length_map]
      have hstyle : restyled listed style intended word = style := if_pos hword
      rw [hstyle]
      constructor
      · intro heq
        rcases List.append_inj heq hlength with ⟨hl, hr⟩
        rw [List.cons.injEq] at hr
        have hleft' := ihleft.mp hl
        have hright' := ihright.mp hr.2
        exact ⟨⟨hleft'.1, hright'.1⟩, hleft'.2, hright'.2⟩
      · rintro ⟨⟨hts, hus⟩, hbts, hbus⟩
        rw [ihleft.mpr ⟨hts, hbts⟩, ihright.mpr ⟨hus, hbus⟩]

/-! ## Passes after one another -/

/-- A pass uses its own style and those of the next one. -/
theorem Pass.forall_style {P : σ → Prop} {ts : List τ} {marks : List (τ × σ)} (hstyle : P style)
    (hrest : ∀ ts marks, rest ts marks → ∀ mark ∈ marks, P mark.2)
    (h : Pass shadows listed style rest ts marks) : ∀ mark ∈ marks, P mark.2 := by
  induction h with
  | done _ hdone => exact hrest _ _ hdone
  | mark _ _ _ _ ihleft ihright =>
      intro mark hmark
      rcases List.mem_append.mp hmark with hmark | hmark
      · exact ihleft mark hmark
      · rcases List.mem_cons.mp hmark with rfl | hmark
        · exact hstyle
        · exact ihright mark hmark

/-- Giving every token the intended style, without looking, is a last pass. -/
theorem rest_styled (hintended : ∀ t, intended t ≠ style) :
    Rest (fun ts marks => marks = styled intended ts) style intended fun _ => True where
  tokens := by
    rintro ts marks rfl
    simp [styled, Function.comp_def]
  style_ne := by
    rintro ts marks rfl mark hmark
    rcases List.mem_map.mp hmark with ⟨t, -, rfl⟩
    exact hintended t
  iff := fun ts marks h => iff_of_true h trivial
  mono := fun _ _ _ _ => trivial

/-- A pass can be the next one of a pass with another style. -/
theorem Rest.pass [DecidablePred listed] (hrest : Rest rest style intended condition)
    {style' : σ} (hne : style ≠ style')
    (hstyles : ∀ ts marks, rest ts marks → ∀ mark ∈ marks, mark.2 ≠ style') :
    Rest (Pass shadows listed style rest) style' (restyled listed style intended) fun ts =>
      Unshadowed shadows listed listed ts ∧ Between listed condition ts where
  tokens := fun _ _ h => h.tokens hrest.tokens
  style_ne := fun _ _ h => h.forall_style (P := (· ≠ style')) hne hstyles
  iff := fun _ _ h => h.styles_iff hrest
  mono := fun _ _ hpart h =>
    ⟨h.1.part hpart, fun part hinner => h.2 part (hinner.trans hpart)⟩

end Marking
end Library
end TestAio
