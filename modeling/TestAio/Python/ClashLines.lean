import Mathlib.Data.List.Flatten
import Mathlib.Data.List.Infix
import Mathlib.Data.List.Sublists
import TestAio.Python.Clash

/-!
# The lines that a rewritten configuration keeps

The script {lit}`clash.py` cuts the configuration at every {lit}`rules:` line end, but puts
only the first two pieces together again.

Main results:

- Theorem {lit}`lines_redirect`: redirecting works line by line.
- Theorem {lit}`rerun_keepsLines_iff`: the configurations of which no line is lost.

Current gaps:

- None.
-/

namespace TestAio
namespace Clash

open Library Library.Search Library.Splitting

/-! ## What should be kept -/

/-- What stands behind the first key. -/
def afterKey (text : Text) : Text :=
  text.drop ((beforeKey text).length + rulesKey.length)

/-- A line behind the first key may be redirected. -/
def Redirected (line line' : Text) : Prop :=
  line' = line ∨ line' = redirect line

/-- Every line but the header of an earlier run is still there, in the same order; those
behind the first key may be redirected. -/
def KeepsLines (text text' : Text) : Prop :=
  ∃ rules, List.Forall₂ Redirected (lines (afterKey text)) rules ∧
    List.Sublist ((lines (beforeKey text ++ rulesWord)).drop (ownHeader text) ++ rules)
      (lines text')

/-- What is behind the first key. -/
theorem afterKey_append {x y : Text} (h : ¬ rulesKey <:+: x) :
    afterKey (x ++ rulesKey ++ y) = y := by
  rw [afterKey, beforeKey_append h, ← List.length_append, List.drop_left]

/-- A text with the key is what stands before its first occurrence, the key and the rest. -/
theorem exists_first_key {text : Text} (h : rulesKey <:+: text) :
    ∃ front rest, text = front ++ rulesKey ++ rest ∧ ¬ rulesKey <:+: front := by
  cases hindex : indexOf text rulesKey with
  | none => exact absurd h (indexOf_eq_none_iff.mp hindex)
  | some i =>
      apply Exists.intro (text.take i)
      apply Exists.intro (text.drop (i + rulesKey.length))
      apply And.intro (split_of_indexOf hindex)
      intro hoccurs
      rcases hoccurs with ⟨u, v, huv⟩
      have hlength := congrArg List.length huv
      have hkey : rulesKey.length = 7 := rfl
      rw [List.length_append, List.length_append, List.length_take] at hlength
      apply not_prefix_drop_of_lt hindex (j := u.length) (by omega)
      have htext : text = u ++ (rulesKey ++ (v ++ text.drop i)) := by
        rw [← List.append_assoc, ← List.append_assoc, huv, List.take_append_drop]
      rw [htext, List.drop_left]
      exact List.prefix_append _ _

/-- Redirecting a line gives one line. -/
theorem newline_not_mem_redirect {line : Text} (h : '\n' ∉ line) : '\n' ∉ redirect line := by
  intro hmem
  have hoccurs : ['\n'] <:+: redirect line := (List.singleton_infix_iff _ _).mpr hmem
  have hdirect : ∀ c ∈ ['\n'], c ∉ "DIRECT".toList := by
    intro c hc
    rw [List.mem_singleton.mp hc]
    decide
  have hline := infix_of_infix_redirect (by decide) hdirect hoccurs
  exact h ((List.singleton_infix_iff _ _).mp hline)

/-- Redirecting works line by line. -/
theorem lines_redirect (text : Text) : lines (redirect text) = (lines text).map redirect := by
  by_cases hnewline : '\n' ∈ text
  · rcases exists_line hnewline with ⟨line, rest, hline, htext⟩
    have hshorter : rest.length < text.length := by
      rw [htext, List.length_append, List.length_cons]
      omega
    rw [htext, redirect_append_cons (by decide) (by decide), lines_line hline,
      lines_line (newline_not_mem_redirect hline), List.map_cons, lines_redirect rest]
  · rw [lines, lines, List.splitOn_eq_singleton hnewline,
      List.splitOn_eq_singleton (newline_not_mem_redirect hnewline)]
    rfl
  termination_by text.length

/-! ## Counting colons -/

/-- The script neither removes a colon by redirecting nor writes one of its own. -/
theorem count_redirect (text : Text) : (redirect text).count ':' = text.count ':' := by
  unfold redirect
  rw [count_replace (by decide) (by decide) (by decide),
    count_replace (by decide) (by decide) (by decide)]

/-- The lines have the colons of the text. -/
theorem count_lines_flatten (text : Text) : (lines text).flatten.count ':' = text.count ':' := by
  unfold lines
  induction text with
  | nil => rfl
  | cons c text ih =>
      rw [List.splitOn_cons_eq_if_modifyHead]
      split
      · rename_i hc
        rw [beq_iff_eq] at hc
        rw [List.flatten_cons, List.nil_append, ih, hc, List.count_cons_of_ne (by decide)]
      · cases hlines : text.splitOn '\n' with
        | nil => exact absurd hlines (List.splitOn_ne_nil _ _)
        | cons line rest =>
            rw [hlines] at ih
            rw [List.modifyHead_cons, List.flatten_cons, List.cons_append, List.count_cons,
              List.count_cons, ← ih, List.flatten_cons]

/-- Redirected lines have the same colons. -/
theorem count_flatten_of_redirected {xs ys : List Text} (h : List.Forall₂ Redirected xs ys) :
    ys.flatten.count ':' = xs.flatten.count ':' := by
  induction h with
  | nil => rfl
  | cons hline hrest ih =>
      rw [List.flatten_cons, List.flatten_cons, List.count_append, List.count_append, ih]
      rcases hline with rfl | rfl
      · rfl
      · rw [count_redirect]

/-- What a run writes in front of the configuration and behind it has no colon. -/
theorem count_written {insert : List Text}
    (h : insert = pre ∨ ∃ domains, insert = missing domains) :
    (header insert).count ':' = 0 ∧ (added insert).count ':' = 0 := by
  have hall : (pre.sublists.all fun insert =>
      (header insert).count ':' == 0 && (added insert).count ':' == 0) = true := by
    decide +kernel
  have hsub : insert ∈ pre.sublists := by
    rw [List.mem_sublists]
    rcases h with rfl | ⟨domains, rfl⟩
    · exact List.Sublist.refl _
    · exact List.filter_sublist
  have hcounts := List.all_eq_true.mp hall insert hsub
  rw [Bool.and_eq_true, beq_iff_eq, beq_iff_eq] at hcounts
  exact hcounts

/-! ## Which configurations keep their lines -/

/-- A text that does not change keeps its lines. -/
theorem keepsLines_self {front rest : Text} (hfront : ¬ rulesKey <:+: front) :
    KeepsLines (front ++ rulesKey ++ rest) (front ++ rulesKey ++ rest) := by
  apply Exists.intro (lines rest)
  rw [afterKey_append hfront, beforeKey_append hfront]
  constructor
  · exact List.forall₂_same.mpr fun line _ => Or.inl rfl
  · have hlines : lines (front ++ rulesKey ++ rest) = lines (front ++ rulesWord) ++ lines rest := by
      rw [← lines_append_cons, rulesKey_eq]
      simp
    rw [hlines]
    exact (List.drop_sublist _ _).append_right _

/-- The lines of what a run writes. -/
theorem lines_output (insert : List Text) (front rest : Text) :
    lines (output insert front rest) =
      lines versionLine ++ lines (insertLine insert) ++
        (lines (front ++ rulesWord) ++ (lines (beforeKey rest)).map redirect) ++
        lines (addedRest insert) := by
  have htext : output insert front rest =
      versionLine ++ '\n' :: (insertLine insert ++ '\n' :: ((front ++ rulesWord) ++
        '\n' :: (redirect (beforeKey rest) ++ '\n' :: addedRest insert))) := by
    simp only [output, header, added_eq, rulesKey_eq, List.append_assoc, List.cons_append,
      List.nil_append]
  rw [htext, lines_append_cons, lines_append_cons, lines_append_cons, lines_append_cons,
    lines_redirect]
  simp only [List.append_assoc]

/-- A run on a configuration with a key keeps all lines exactly if the key does not occur
again behind its first occurrence, or the run fails because the first key ends the second
line of a header. -/
theorem rerun_keepsLines_iff (text : Text) (h : rulesKey <:+: text) :
    KeepsLines text (rerun text) ↔
      ¬ rulesKey <:+: afterKey text ∨ RulesInSecondLine text := by
  rcases exists_first_key h with ⟨front, rest, rfl, hfront⟩
  rw [afterKey_append hfront]
  by_cases hsecond : RulesInSecondLine (front ++ rulesKey ++ rest)
  · rw [rerun_of_error (clash_of_rulesInSecondLine hsecond)]
    exact iff_of_true (keepsLines_self hfront) (Or.inr hsecond)
  · rcases exists_output hfront hsecond with ⟨insert, front', hclash, -, hinsert, hown⟩
    rw [rerun_of_ok hclash, KeepsLines, afterKey_append hfront, beforeKey_append hfront, hown]
    rw [or_iff_left hsecond]
    constructor
    · intro hkeeps hagain
      rcases hkeeps with ⟨rules, hrules, hsublist⟩
      have hinsert' : insert = pre ∨ ∃ domains, insert = missing domains := by
        rcases hinsert with hinsert | ⟨domains, -, hinsert⟩
        · exact Or.inl hinsert
        · exact Or.inr ⟨domains, hinsert⟩
      have hwritten := count_written hinsert'
      have hrest := exists_first_key hagain
      rcases hrest with ⟨second, third, rfl, hsecond'⟩
      have hcount := hsublist.flatten.count_le ':'
      have hkey : rulesKey.count ':' = 1 := by decide
      have hword : rulesWord.count ':' = 1 := by decide
      rw [List.flatten_append, List.count_append, count_lines_flatten,
        count_flatten_of_redirected hrules, count_lines_flatten, count_lines_flatten,
        output, beforeKey_append hsecond'] at hcount
      simp only [List.count_append, count_redirect, hwritten, hkey, hword] at hcount
      omega
    · intro honce
      apply Exists.intro ((lines rest).map redirect)
      constructor
      · rw [List.forall₂_map_right_iff]
        exact List.forall₂_same.mpr fun line _ => Or.inr rfl
      · rw [lines_output, beforeKey_of_not_infix honce]
        exact (List.sublist_append_right _ _).trans (List.sublist_append_left _ _)

/-- A configuration with one key keeps its lines. -/
theorem keepsLines_oneKey :
    KeepsLines "port: 1\nrules:\n- a,Domestic".toList
      (rerun "port: 1\nrules:\n- a,Domestic".toList) := by
  have hkey : rulesKey <:+: "port: 1\nrules:\n- a,Domestic".toList :=
    contains_iff.mp (by decide +kernel)
  have honce : contains (afterKey "port: 1\nrules:\n- a,Domestic".toList) rulesKey = false := by
    decide +kernel
  apply (rerun_keepsLines_iff _ hkey).mpr
  left
  rw [← contains_iff, honce]
  exact Bool.false_ne_true

/-- A configuration whose second key, {lit}`sub-rules:`, merely ends with the key. -/
def subRulesConfig : Text :=
  "port: 1\nrules:\n- a,Domestic\nsub-rules:\n- b".toList

/-- What the script leaves of it. -/
theorem rerun_subRulesConfig :
    rulesKey <:+: subRulesConfig ∧
      rerun subRulesConfig =
        ("# version 1.0\n# cjsah.net csdn.net hlju.edu.cn\nport: 1\nrules:\n" ++
        "- a,DIRECT\nsub-\n\n# New Add\n- DOMAIN-SUFFIX,cjsah.net,DIRECT\n" ++
        "- DOMAIN-SUFFIX,csdn.net,DIRECT\n- DOMAIN-SUFFIX,hlju.edu.cn,DIRECT\n").toList ∧
      ¬ KeepsLines subRulesConfig (rerun subRulesConfig) := by
  have hkey : rulesKey <:+: subRulesConfig := contains_iff.mp (by decide +kernel)
  have hrun : rerun subRulesConfig =
      "# version 1.0\n# cjsah.net csdn.net hlju.edu.cn\nport: 1\nrules:\n".toList ++
        "- a,DIRECT\nsub-\n\n# New Add\n- DOMAIN-SUFFIX,cjsah.net,DIRECT\n".toList ++
        "- DOMAIN-SUFFIX,csdn.net,DIRECT\n- DOMAIN-SUFFIX,hlju.edu.cn,DIRECT\n".toList := by
    decide +kernel
  apply And.intro hkey
  apply And.intro
  · rw [String.toList_append, String.toList_append]
    exact hrun
  intro hkeeps
  rcases hkeeps with ⟨rules, hrules, hsublist⟩
  -- Three of the lines of the input have a colon, and two of the lines that are left.
  have hcount := hsublist.flatten.count_le ':'
  rw [List.flatten_append, List.count_append, count_flatten_of_redirected hrules,
    count_lines_flatten, count_lines_flatten, hrun] at hcount
  have hinput : ((lines (beforeKey subRulesConfig ++ rulesWord)).drop
      (ownHeader subRulesConfig)).flatten.count ':' +
        (afterKey subRulesConfig).count ':' = 3 := by
    decide +kernel
  have houtput : ("# version 1.0\n# cjsah.net csdn.net hlju.edu.cn\nport: 1\nrules:\n".toList ++
      "- a,DIRECT\nsub-\n\n# New Add\n- DOMAIN-SUFFIX,cjsah.net,DIRECT\n".toList ++
      "- DOMAIN-SUFFIX,csdn.net,DIRECT\n- DOMAIN-SUFFIX,hlju.edu.cn,DIRECT\n".toList).count
        ':' = 2 := by
    decide +kernel
  omega

end Clash
end TestAio
