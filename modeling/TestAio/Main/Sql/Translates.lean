import TestAio.Data.Meanings
import TestAio.Java.Split
import TestAio.Library.Effects
import TestAio.Library.Growing

/-!
# Splitting compound translations

{lit}`net.cjsah.main.sql.Main` cuts the meaning of a word into translations and each of them
at its full-width semicolons.  The part of speech in front of the first piece is carried over
to the others.

Main results:

- Theorem {lit}`splitStep_eq_expandAt`: a translation with a part of speech is replaced by its
  first sense, and the other senses are appended.
- Theorem {lit}`splitTranslates_splits_iff`: the meanings whose translations are all split.

Current gaps:

- None.
-/

namespace TestAio
namespace SqlMain

open Library

/-- An exception of the program. -/
inductive Failure
  | indexOutOfBounds
  | arrayIndexOutOfBounds
deriving DecidableEq

/-- The full-width semicolon. -/
def semicolon : JChar := 0xff1b

/-- The full stop. -/
def dot : JChar := 46

/-! ## The loop -/

/-- The list {lit}`translates` of a meaning in front of the loop. -/
def translations (meaning : JString) : List JString :=
  (splitBreaks meaning).filter isMeaning

/-- One turn of the loop. -/
def splitStep (translates : List JString) (i : Nat) : Except Failure (List JString) :=
  match translates[i]? with
  | none => .error .indexOutOfBounds
  | some translate =>
      if semicolon ∈ translate then
        match splitUnit semicolon translate with
        | [] => .error .arrayIndexOutOfBounds
        | value :: values =>
            match Splitting.splitN [dot] 1 value with
            | [pos, sense] =>
                let carry := fun it => pos ++ jstr "  " ++ it
                .ok (translates.set i (carry sense) ++ values.map carry)
            | _ => .ok (translates ++ value :: values)
      else
        .ok translates

/-- The loop, which keeps the bound it starts with. -/
def splitTranslates (meaning : JString) : Except Failure (List JString) :=
  let translates := translations meaning
  (List.range translates.length).foldlM splitStep translates

/-! ## What a translation says -/

/-- The senses of a translation: its pieces, each with the part of speech that the first one
starts with. -/
def senses (translate : JString) : List JString :=
  match splitUnit semicolon translate with
  | [] => []
  | value :: values =>
      if semicolon ∈ translate ∧ dot ∈ value then
        let pos := value.takeWhile (· ≠ dot)
        let sense := (value.dropWhile (· ≠ dot)).tail
        (sense :: values).map fun it => pos ++ jstr "  " ++ it
      else
        value :: values

/-- A translation without a semicolon, or with a full stop in front of the first one. -/
def HasPart (translate : JString) : Prop :=
  semicolon ∈ translate → dot ∈ translate.takeWhile (· ≠ semicolon)

instance (translate : JString) : Decidable (HasPart translate) :=
  inferInstanceAs (Decidable (_ → _))

/-- The first sense. -/
def firstSense (translate : JString) : JString :=
  (senses translate).head?.getD translate

/-- The other senses. -/
def moreSenses (translate : JString) : List JString :=
  (senses translate).tail

theorem senses_of_not_mem {translate : JString} (h : semicolon ∉ translate) :
    senses translate = [translate] := by
  rw [senses, splitUnit_of_not_mem h]
  exact if_neg fun hboth => h hboth.1

/-- A compound translation with a part of speech starts with its first piece. -/
theorem splitUnit_of_hasPart {translate : JString} (hmem : semicolon ∈ translate)
    (h : HasPart translate) :
    ∃ values, splitUnit semicolon translate =
      translate.takeWhile (· ≠ semicolon) :: values := by
  have hdot := h hmem
  rcases Splitting.exists_takeWhile hmem with ⟨y, hnot, htext, -⟩
  have hne : translate.takeWhile (· ≠ semicolon) ≠ [] := List.ne_nil_of_mem hdot
  have hsplit := splitUnit_append hnot hne y
  rw [← htext] at hsplit
  exact ⟨_, hsplit⟩

/-- A turn at a translation with a part of speech, or without a semicolon, puts the first
sense in its place and appends the others. -/
theorem splitStep_eq_expandAt {translates : List JString} {i : Nat} {translate : JString}
    (hget : translates[i]? = some translate) (h : HasPart translate) :
    splitStep translates i =
      .ok (Growing.expandAt firstSense moreSenses translates i) := by
  unfold splitStep Growing.expandAt
  rw [hget]
  dsimp only
  by_cases hmem : semicolon ∈ translate
  · rcases splitUnit_of_hasPart hmem h with ⟨values, hvalues⟩
    have hdot := h hmem
    rcases Splitting.exists_takeWhile hdot with ⟨sense, hnot, hvalue, hsense⟩
    have hcut := Splitting.splitN_singleton hnot 0 sense
    rw [← hvalue] at hcut
    rw [if_pos hmem, firstSense, moreSenses, senses, hvalues]
    dsimp only
    rw [hcut, if_pos ⟨hmem, hdot⟩, hsense]
    rfl
  · rw [if_neg hmem, firstSense, moreSenses, senses_of_not_mem hmem, List.head?_cons,
      Option.getD_some, List.tail_cons, List.append_nil]
    have hlt : i < translates.length := (List.getElem?_eq_some_iff.mp hget).1
    have hval : translates[i] = translate := (List.getElem?_eq_some_iff.mp hget).2
    rw [← hval, List.set_getElem_self]

/-- The turns at translations of that kind. -/
theorem foldlM_splitStep {rest : List JString} (h : ∀ translate ∈ rest, HasPart translate)
    (done added : List JString) :
    (List.range' done.length rest.length).foldlM splitStep (done ++ rest ++ added) =
      .ok ((List.range' done.length rest.length).foldl
        (Growing.expandAt firstSense moreSenses) (done ++ rest ++ added)) := by
  induction rest generalizing done added with
  | nil => rfl
  | cons translate rest ih =>
      rcases List.forall_mem_cons.mp h with ⟨htranslate, hrest⟩
      have hget : (done ++ translate :: rest ++ added)[done.length]? = some translate := by
        simp
      have hturn := ih hrest (done ++ [firstSense translate]) (added ++ moreSenses translate)
      rw [List.length_append, List.length_singleton] at hturn
      rw [List.length_cons, List.range'_succ, List.foldlM_cons, List.foldl_cons,
        splitStep_eq_expandAt hget htranslate, Effects.ok_bind, Growing.expandAt_length]
      exact hturn

/-- When every translation is of that kind, the loop leaves the senses of all of them. -/
theorem splitTranslates_of_hasPart {meaning : JString}
    (h : ∀ translate ∈ translations meaning, HasPart translate) :
    splitTranslates meaning =
      .ok (Growing.expand firstSense moreSenses (translations meaning)) := by
  have hturns := foldlM_splitStep h [] []
  rw [List.length_nil, ← List.range_eq_range', List.nil_append, List.append_nil] at hturns
  exact hturns

theorem senses_eq_cons {translate : JString} (h : HasPart translate) :
    senses translate = firstSense translate :: moreSenses translate := by
  by_cases hmem : semicolon ∈ translate
  · rcases splitUnit_of_hasPart hmem h with ⟨values, hvalues⟩
    rw [firstSense, moreSenses, senses, hvalues]
    dsimp only
    rw [if_pos ⟨hmem, h hmem⟩]
    rfl
  · rw [firstSense, moreSenses, senses_of_not_mem hmem]
    rfl

/-- No sense contains a semicolon. -/
theorem not_mem_of_mem_senses {translate sense : JString} (h : sense ∈ senses translate) :
    semicolon ∉ sense := by
  unfold senses at h
  split at h
  · exact absurd h List.not_mem_nil
  · rename_i value values hvalues
    have hpieces : ∀ piece ∈ value :: values, semicolon ∉ piece := by
      intro piece hpiece
      rw [← hvalues] at hpiece
      exact not_mem_of_mem_splitUnit hpiece
    rcases List.forall_mem_cons.mp hpieces with ⟨hvalue, hrest⟩
    split at h
    · have htail : semicolon ∉ (value.dropWhile (· ≠ dot)).tail := fun hin =>
        hvalue ((List.dropWhile_suffix _).subset (List.mem_of_mem_tail hin))
      have hpos : semicolon ∉ value.takeWhile (· ≠ dot) := fun hin =>
        hvalue ((List.takeWhile_prefix _).subset hin)
      rcases List.mem_map.mp h with ⟨it, hit, rfl⟩
      have hnot : semicolon ∉ it := by
        rcases List.mem_cons.mp hit with rfl | hit
        · exact htail
        · exact hrest it hit
      have hblanks : semicolon ∉ jstr "  " := by decide
      intro hin
      rcases List.mem_append.mp hin with hin | hin
      · rcases List.mem_append.mp hin with hin | hin
        · exact hpos hin
        · exact hblanks hin
      · exact hnot hin
    · exact hpieces sense h

/-! ## Which meanings are split -/

/-- A compound translation without a part of speech is not replaced, and no turn at another
place touches it. -/
theorem splitStep_keeps {translates next : List JString} {i j : Nat} {translate : JString}
    (h : splitStep translates i = .ok next) (hget : translates[j]? = some translate)
    (hpart : i = j → ¬ HasPart translate) : next[j]? = some translate := by
  have hlt : j < translates.length := (List.getElem?_eq_some_iff.mp hget).1
  unfold splitStep at h
  split at h
  · cases h
  · rename_i current hcurrent
    split at h
    · rename_i hmem
      split at h
      · cases h
      · rename_i value values hvalues
        split at h
        · rename_i pos sense hcut
          by_cases hij : i = j
          · -- the first piece has no full stop, so it is not cut
            exfalso
            rw [hij, hget] at hcurrent
            cases hcurrent
            apply hpart hij
            intro _
            rw [← eq_takeWhile_of_splitUnit hvalues]
            by_contra hdot
            rw [Splitting.splitN_singleton_of_not_mem hdot] at hcut
            cases hcut
          · cases h
            rw [List.getElem?_append_left (by rwa [List.length_set]), List.getElem?_set_ne hij]
            exact hget
        · cases h
          rw [List.getElem?_append_left hlt]
          exact hget
    · cases h
      exact hget

/-- So it is still there after the loop. -/
theorem foldlM_splitStep_keeps {translates last : List JString} {positions : List Nat} {j : Nat}
    {translate : JString} (h : positions.foldlM splitStep translates = .ok last)
    (hget : translates[j]? = some translate) (hpart : ¬ HasPart translate) :
    last[j]? = some translate := by
  induction positions generalizing translates with
  | nil =>
      cases h
      exact hget
  | cons i positions ih =>
      rw [List.foldlM_cons, Effects.bind_eq_ok_iff] at h
      rcases h with ⟨next, hstep, hrun⟩
      exact ih hrun (splitStep_keeps hstep hget fun _ => hpart)

/-- The translations of a meaning are split: no semicolon is left, and what is left are the
senses of all translations. -/
structure Splits (meaning : JString) (translates : List JString) : Prop where
  separated : ∀ translate ∈ translates, semicolon ∉ translate
  senses : translates.Perm ((translations meaning).flatMap senses)

/-- The loop ends without an exception and splits everything exactly if every translation
with a semicolon has a full stop in front of its first semicolon. -/
theorem splitTranslates_splits_iff (meaning : JString) :
    (∃ translates, splitTranslates meaning = .ok translates ∧ Splits meaning translates) ↔
      ∀ translate ∈ translations meaning, HasPart translate := by
  constructor
  · intro h translate htranslate
    rcases h with ⟨translates, hrun, hsplits⟩
    by_contra hpart
    rcases List.mem_iff_getElem?.mp htranslate with ⟨j, hget⟩
    have hkept := foldlM_splitStep_keeps hrun hget hpart
    have hmem : semicolon ∈ translate := by
      by_contra hmem
      exact hpart fun h => absurd h hmem
    exact hsplits.separated translate (List.mem_of_getElem? hkept) hmem
  · intro h
    apply Exists.intro _
    apply And.intro (splitTranslates_of_hasPart h)
    have hperm := Growing.expand_perm firstSense moreSenses (translations meaning)
    have hsenses : ((translations meaning).flatMap fun x => firstSense x :: moreSenses x) =
        (translations meaning).flatMap senses :=
      List.flatMap_congr fun translate htranslate => (senses_eq_cons (h translate htranslate)).symm
    rw [hsenses] at hperm
    constructor
    · intro translate htranslate
      rcases List.mem_flatMap.mp (hperm.subset htranslate) with ⟨original, -, hsense⟩
      exact not_mem_of_mem_senses hsense
    · exact hperm

/-- A compound translation without a part of speech stays beside its pieces, and one of
semicolons only ends the program. -/
theorem splitTranslates_without_part :
    splitTranslates (jstr "跑；走") = .ok [jstr "跑；走", jstr "跑", jstr "走"] ∧
      splitTranslates (jstr "；") = .error .arrayIndexOutOfBounds ∧
      ¬ ∃ translates, splitTranslates (jstr "跑；走") = .ok translates ∧
        Splits (jstr "跑；走") translates := by
  have hrun : splitTranslates (jstr "跑；走") = .ok [jstr "跑；走", jstr "跑", jstr "走"] := by
    decide
  apply And.intro hrun
  apply And.intro (by decide)
  intro h
  rcases h with ⟨translates, hok, hsplits⟩
  rw [hrun] at hok
  cases hok
  exact hsplits.separated (jstr "跑；走") List.mem_cons_self (by decide)

end SqlMain
end TestAio
