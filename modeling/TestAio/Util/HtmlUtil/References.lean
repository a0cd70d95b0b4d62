import TestAio.Util.HtmlUtil.Segments

/-!
# Character references in an article

An article is HTML, so a run of letters between {lit}`&` and {lit}`;` names a character.  The
tokeniser looks at such a name as at any other word.

Main results:

- Theorem {lit}`resolveAppends_reference`: the name is written like a word.
- Theorem {lit}`references_kept_iff`: the references of a passage survive exactly when no name
  is a listed word.

Current gaps:

- None.
-/

namespace TestAio
namespace HtmlUtil

/-- A reference with the given name stands between two parts of a passage, outside tags. -/
structure ReferenceAt (passage x name y : JString) : Prop where
  eq : passage = x ++ [38] ++ name ++ 59 :: y
  ne_nil : name ≠ []
  letters : ∀ c ∈ name, isLetterUnit c = true
  outside : insideTag false x = false

/-- What is written for a reference is the reference. -/
def Intact (passage : JString) (studyWords : List JString) (overWords : List WordNode)
    (x name : JString) : Prop :=
  ∃ front rest, (resolvePassage (x ++ [38]) studyWords overWords).passage = front ++ [38] ∧
    (resolvePassage passage studyWords overWords).passage = front ++ [38] ++ name ++ 59 :: rest

variable {studyWords : List JString} {overWords : List WordNode}

/-- Letters outside tags join the pending word. -/
theorem resolveLoop_letters {st : ResolveState} (happend : st.append = true) {name : JString}
    (hname : ∀ c ∈ name, isLetterUnit c = true) :
    resolveLoop studyWords overWords st name =
      { st with wordBuilder := st.wordBuilder ++ name } := by
  induction name generalizing st with
  | nil => simp [resolveLoop]
  | cons c name ih =>
      have hc : isLetterUnit c = true := hname c List.mem_cons_self
      have hhigh : isHighSurrogate c = false := by
        have hle : c.toNat ≤ 122 := by
          simp only [isLetterUnit, isLetter, decide_eq_true_eq] at hc
          omega
        simp only [isHighSurrogate, UInt16.le_iff_toNat_le, UInt16.reduceToNat,
          decide_eq_false_iff_not]
        omega
      have hstep : resolveStep studyWords overWords st c.toNat =
          { st with wordBuilder := st.wordBuilder ++ [c] } := by
        have hletter : isLetter c.toNat = true := hc
        rw [resolveStep, if_pos hletter, readLetter, if_pos happend, codePointUnits_toNat]
      have hrest := @ih { st with wordBuilder := st.wordBuilder ++ [c] } happend
        fun d hd => hname d (List.mem_cons_of_mem _ hd)
      rw [resolveLoop, codePointAt_eq_toNat_of_not_high hhigh, hstep, hrest]
      simp

/-- The name of a reference is written like a word. -/
theorem resolveAppends_reference {passage x name y : JString}
    (h : ReferenceAt passage x name y) :
    ∃ nodes front rest,
      resolveAppends (x ++ [38]) studyWords overWords = front ++ [.codePoint 38] ∧
      resolveAppends passage studyWords overWords =
        front ++ [.codePoint 38] ++ [(emitWord studyWords overWords nodes name).1] ++
          .codePoint 59 :: rest := by
  rcases @resolveAppends_concat_separator studyWords overWords 38 (by decide) (by decide)
    (by decide) x with ⟨front, hfront⟩
  have happend : (resolveLoop studyWords overWords .initial (x ++ [38])).append = true := by
    have hout : insideTag false (x ++ [38]) = false := by
      rw [insideTag, List.foldl_append]
      exact h.outside
    rw [resolveLoop_append]
    exact congrArg (!·) hout
  have hnil : (resolveLoop studyWords overWords .initial (x ++ [38])).wordBuilder = [] := by
    refine (resolveLoop_wordBuilder_eq_nil_iff studyWords overWords Pending.initial
      (by simp)).mpr ?_
    rw [endsInLetter, List.getLast?_concat]
    rfl
  -- Behind the ampersand the name is the pending word, and the semicolon flushes it.
  have hread : resolveLoop studyWords overWords .initial (x ++ [38] ++ name) =
      { resolveLoop studyWords overWords .initial (x ++ [38]) with wordBuilder := name } := by
    rw [resolveLoop_concat (uncut_of_not_high (by decide) x name),
      resolveLoop_letters happend h.letters, hnil, List.nil_append]
  have hend : ∀ st : ResolveState, st.wordBuilder = name →
      (resolveStep studyWords overWords st (codePointAt 59 y)).builder =
        st.builder ++ [(emitWord studyWords overWords st.nodes name).1] ++ [.codePoint 59] := by
    intro st hst
    rw [codePointAt_eq_toNat_of_not_high (by decide), resolveStep, if_neg (by decide), flushWord,
      hst, if_neg h.ne_nil, copySeparator]
    simp
  rcases prefix_resolveLoop (resolveStep studyWords overWords
    (resolveLoop studyWords overWords .initial (x ++ [38] ++ name)) (codePointAt 59 y)) y with
    ⟨rest, hrest⟩
  refine ⟨(resolveLoop studyWords overWords .initial (x ++ [38])).nodes, front, rest, hfront, ?_⟩
  rw [h.eq, resolveAppends, resolveLoop_concat (uncut_of_not_low (by decide) _ y), resolveLoop,
    ← hrest, hend _ (by rw [hread]), hread]
  rw [resolveAppends] at hfront
  rw [hfront]
  simp

/-- A word that is printed without markup in front is in neither list. -/
theorem unlisted_of_printed {name printed tail rest : JString}
    (h : Printed studyWords overWords (.word name) printed) (hne : name ≠ [])
    (hletters : ∀ c ∈ name, isLetterUnit c = true) (heq : printed ++ tail = name ++ rest) :
    name ∉ studyWords ∧ ∀ node ∈ overWords, node.word ≠ name := by
  have hhead : ∀ more : JString, 60 :: more ≠ name ++ rest := by
    intro more hmore
    cases name with
    | nil => exact hne rfl
    | cons c name =>
        have hc : isLetterUnit 60 = true :=
          (List.cons.inj hmore).1 ▸ hletters c List.mem_cons_self
        exact absurd hc (by decide)
  cases h with
  | bold hstudy => exact absurd heq (hhead _)
  | italic num hstudy hnode hword => exact absurd heq (hhead _)
  | bare hstudy hover => exact ⟨hstudy, hover⟩

/-- A reference survives exactly when its name is no listed word. -/
theorem intact_iff {passage x name y : JString} (h : ReferenceAt passage x name y) :
    Intact passage studyWords overWords x name ↔
      name ∉ studyWords ∧ ∀ node ∈ overWords, node.word ≠ name := by
  rcases @resolveAppends_reference studyWords overWords passage x name y h with
    ⟨nodes, front, rest, hfront, hpassage⟩
  have hprinted := @printed_emitWord studyWords overWords nodes name
  have hfront' : (resolvePassage (x ++ [38]) studyWords overWords).passage =
      front.flatMap Append.units ++ [38] := by
    rw [resolvePassage, hfront, List.flatMap_append]
    rfl
  have hpassage' : (resolvePassage passage studyWords overWords).passage =
      front.flatMap Append.units ++ [38] ++
        ((emitWord studyWords overWords nodes name).1.units ++
          59 :: rest.flatMap Append.units) := by
    rw [resolvePassage, hpassage]
    simp only [List.flatMap_append, List.flatMap_cons, List.flatMap_nil, List.append_nil,
      List.append_assoc]
    rfl
  constructor
  · rintro ⟨front', rest', hsame, hkept⟩
    rw [hfront'] at hsame
    rw [hpassage', hsame, List.append_assoc (front' ++ [38]), List.append_cancel_left_eq] at hkept
    exact unlisted_of_printed hprinted h.ne_nil h.letters hkept
  · rintro ⟨hstudy, hover⟩
    refine ⟨front.flatMap Append.units, rest.flatMap Append.units, hfront', ?_⟩
    have hbare : (emitWord studyWords overWords nodes name).1.units = name := by
      generalize (emitWord studyWords overWords nodes name).1.units = printed at hprinted
      cases hprinted with
      | bold hmem => exact absurd hmem hstudy
      | italic num hmem hnode hword => exact absurd hword (hover _ hnode)
      | bare hmem hnode => rfl
    rw [hpassage', hbare, List.append_assoc (front.flatMap Append.units ++ [38])]

/-- The references of a passage survive exactly when no name is a listed word. -/
theorem references_kept_iff (passage : JString) (studyWords : List JString)
    (overWords : List WordNode) :
    (∀ x name y, ReferenceAt passage x name y → Intact passage studyWords overWords x name) ↔
      ∀ x name y, ReferenceAt passage x name y →
        name ∉ studyWords ∧ ∀ node ∈ overWords, node.word ≠ name := by
  constructor
  · intro hall x name y href
    exact (intact_iff href).mp (hall x name y href)
  · intro hall x name y href
    exact (intact_iff href).mpr (hall x name y href)

/-- The reference in {lit}`2 &times; 3.` is broken by the study word {lit}`times`. -/
theorem times_broken :
    ReferenceAt (jstr "2 &times; 3.") (jstr "2 ") (jstr "times") (jstr " 3.") ∧
      (resolvePassage (jstr "2 &times; 3.") [jstr "times"] []).passage =
        jstr "2" ++ [160] ++ jstr "&<b>times</b>;" ++ [160] ++ jstr "3." ∧
      ¬ Intact (jstr "2 &times; 3.") [jstr "times"] [] (jstr "2 ") (jstr "times") := by
  have href : ReferenceAt (jstr "2 &times; 3.") (jstr "2 ") (jstr "times") (jstr " 3.") :=
    ⟨by decide +kernel, by decide +kernel, List.all_eq_true.mp (by decide +kernel),
      by decide +kernel⟩
  refine ⟨href, by decide +kernel, fun hkept => ?_⟩
  exact ((intact_iff href).mp hkept).1 List.mem_cons_self

end HtmlUtil
end TestAio
