import TestAio.Library.Effects
import TestAio.Library.Splitting

/-!
# Rewriting the proxy configuration

The script {lit}`clash.py` puts two header lines in front of a configuration, redirects
the rules behind the first {lit}`rules:` line and adds a direct rule for each domain
that the second header line does not name yet.  That line names only what the
same run inserted, so the script forgets after one run what it did.

Main results:

- Theorem {lit}`clash_of_version`: a run on a text with a version line.
- Theorem {lit}`fileAfter_eq`: the file after any number of runs.
- Theorem {lit}`direct_lines_once_iff`: the number of runs after which every domain has
  exactly one line.

Current gaps:

- The backup file is not modelled.
-/

namespace TestAio
namespace Clash

open Library Library.Search Library.Splitting

/-- A Python string; reading a file in text mode leaves {lit}`\n` as the line end. -/
abbrev Text := List Char

/-! ## The script -/

/-- The key at which the configuration is taken apart. -/
def rulesKey : Text :=
  "rules:\n".toList

/-- The list {lit}`pre`. -/
def pre : List Text :=
  ["cjsah.net".toList, "csdn.net".toList, "hlju.edu.cn".toList]

/-- {lit}`re.match('^# version [0-9.]+$', head)`. -/
def isVersionLine (head : Text) : Bool :=
  let lead := "# version ".toList
  let digits := head.drop lead.length
  lead.isPrefixOf head && !digits.isEmpty && digits.all fun c => c.isDigit || c == '.'

/-- The first line the script writes, for {lit}`version = '1.0'`. -/
def versionLine : Text :=
  "# version 1.0".toList

/-- The second line the script writes. -/
def insertLine (insert : List Text) : Text :=
  "# ".toList ++ [' '].intercalate insert

/-- The first two lines the script writes. -/
def header (insert : List Text) : Text :=
  versionLine ++ ['\n'] ++ insertLine insert ++ ['\n']

/-- The direct rule of a domain. -/
def directLine (domain : Text) : Text :=
  "- DOMAIN-SUFFIX,".toList ++ domain ++ ",DIRECT".toList

/-- What the script writes behind the configuration. -/
def added (insert : List Text) : Text :=
  "\n\n# New Add\n".toList ++ insert.flatMap fun domain => directLine domain ++ "\n".toList

/-- {lit}`replace('Domestic', 'DIRECT').replace('AsianTV', 'DIRECT')`. -/
def redirect (rules : Text) : Text :=
  replace "AsianTV".toList "DIRECT".toList (replace "Domestic".toList "DIRECT".toList rules)

/-- The exception of a run. -/
inductive PythonError
  | indexError
deriving DecidableEq

/-- {lit}`pieces[i]`. -/
def index (pieces : List Text) (i : Nat) : Except PythonError Text :=
  match pieces[i]? with
  | some piece => .ok piece
  | none => .error .indexError

/-- The script body: the new text of the file for the text it has. -/
def clash (origin : Text) : Except PythonError Text := do
  let heads := splitN ['\n'] 2 origin
  let head ← index heads 0
  let domains ← index heads 1
  let firstChange := !isVersionLine head
  let insert := if firstChange then pre else pre.filter fun domain => !contains domains domain
  let pieces := split rulesKey origin
  let first ← index pieces 0
  let first ← if firstChange then .ok first else index (splitN ['\n'] 2 first) 2
  let second ← index pieces 1
  .ok (header insert ++ first ++ rulesKey ++ redirect second ++ added insert)

/-- The file after a run; a run that fails does so before it opens the file for
writing. -/
def rerun (text : Text) : Text :=
  match clash text with
  | .ok text' => text'
  | .error _ => text

/-- The file after {lit}`n` runs. -/
def fileAfter (n : Nat) (text : Text) : Text :=
  rerun^[n] text

/-- The lines of a file. -/
def lines (text : Text) : List Text :=
  text.splitOn '\n'

/-- The lines on each side of a line feed. -/
theorem lines_append_cons (x y : Text) : lines (x ++ '\n' :: y) = lines x ++ lines y :=
  List.splitOn_append_cons_self _ _

/-- How many lines at the start of a text are the header of an earlier run. -/
def ownHeader (text : Text) : Nat :=
  if isVersionLine ((lines text).headD []) then 2 else 0

/-! ## Pieces of a text -/

/-- The word the key ends a line with. -/
def rulesWord : Text :=
  "rules:".toList

/-- The key is a word and a line feed. -/
theorem rulesKey_eq : rulesKey = rulesWord ++ ['\n'] :=
  rfl

/-- The word has no line feed. -/
theorem newline_not_mem_rulesWord : '\n' ∉ rulesWord := by
  decide

/-- What stands before the first key, or the whole text. -/
def beforeKey (text : Text) : Text :=
  match indexOf text rulesKey with
  | some i => text.take i
  | none => text

/-- Without the key everything is in front of it. -/
theorem beforeKey_of_not_infix {text : Text} (h : ¬ rulesKey <:+: text) :
    beforeKey text = text := by
  simp only [beforeKey, indexOf_eq_none_iff.mpr h]

/-- Where the key is found. -/
theorem indexOf_rulesKey {x y : Text} (h : ¬ rulesKey <:+: x) :
    indexOf (x ++ rulesKey ++ y) rulesKey = some x.length :=
  indexOf_append_of_last _ newline_not_mem_rulesWord h

/-- What is in front of the first key. -/
theorem beforeKey_append {x y : Text} (h : ¬ rulesKey <:+: x) :
    beforeKey (x ++ rulesKey ++ y) = x := by
  simp only [beforeKey, indexOf_rulesKey h]
  rw [List.append_assoc, List.take_left]

/-- The first piece is what is in front of the key. -/
theorem index_splitN_succ (n : Nat) (text : Text) :
    index (splitN rulesKey (n + 1) text) 0 = .ok (beforeKey text) := by
  cases h : indexOf text rulesKey <;> simp [splitN, index, beforeKey, h]

/-- The first two pieces of a text that holds the key. -/
theorem index_split {x : Text} (y : Text) (h : ¬ rulesKey <:+: x) :
    index (split rulesKey (x ++ rulesKey ++ y)) 0 = .ok x ∧
      index (split rulesKey (x ++ rulesKey ++ y)) 1 = .ok (beforeKey y) := by
  have hlength : ∃ n, (x ++ rulesKey ++ y).length = n + 1 + 1 := by
    have hkey : rulesKey.length = 7 := rfl
    refine ⟨x.length + 5 + y.length, ?_⟩
    rw [List.length_append, List.length_append, hkey]
    omega
  rcases hlength with ⟨n, hn⟩
  have hsplit : split rulesKey (x ++ rulesKey ++ y) = x :: splitN rulesKey (n + 1) y := by
    rw [split, hn, splitN_append (indexOf_rulesKey h)]
  rw [hsplit]
  exact ⟨rfl, index_splitN_succ n y⟩

/-- A text with a line feed starts with a line. -/
theorem exists_line {text : Text} (h : '\n' ∈ text) :
    ∃ line rest, '\n' ∉ line ∧ text = line ++ '\n' :: rest := by
  induction text with
  | nil => simp at h
  | cons c text ih =>
      by_cases hc : c = '\n'
      · exact ⟨[], text, by simp, by simp [hc]⟩
      · rcases ih (by simpa [Ne.symm hc] using h) with ⟨line, rest, hline, rfl⟩
        exact ⟨c :: line, rest, by simp [Ne.symm hc, hline], rfl⟩

/-! ## One run -/

/-- The domains a second line does not name. -/
def missing (domains : Text) : List Text :=
  pre.filter fun domain => !contains domains domain

/-- What a run writes. -/
def output (insert : List Text) (front rest : Text) : Text :=
  header insert ++ front ++ rulesKey ++ redirect (beforeKey rest) ++ added insert

/-- A run on a text whose first line is no version line. -/
theorem clash_of_not_version {line tail front rest : Text} (hline : '\n' ∉ line)
    (hversion : isVersionLine line = false) (hfront : ¬ rulesKey <:+: front)
    (htext : line ++ '\n' :: tail = front ++ rulesKey ++ rest) :
    clash (front ++ rulesKey ++ rest) = .ok (output pre front rest) := by
  have hpieces := index_split rest hfront
  have hheads : ∃ domains more, splitN ['\n'] 2 (front ++ rulesKey ++ rest) =
      line :: domains :: more := by
    rw [← htext, splitN_singleton hline]
    by_cases htail : '\n' ∈ tail
    · rcases exists_line htail with ⟨second, more, hsecond, rfl⟩
      exact ⟨second, _, by rw [splitN_singleton hsecond]⟩
    · exact ⟨tail, [], by rw [splitN_singleton_of_not_mem htail]⟩
  rcases hheads with ⟨domains, more, hheads⟩
  have hhead : index (line :: domains :: more) 0 = .ok line := rfl
  have hdomains : index (line :: domains :: more) 1 = .ok domains := rfl
  simp only [clash, hheads, hhead, hdomains, hpieces, hversion, Effects.ok_bind]
  rfl

/-- A run on a text with a version line and a key behind the second line. -/
theorem clash_of_version {head domains front : Text} (rest : Text) (hhead : '\n' ∉ head)
    (hversion : isVersionLine head = true) (hdomains : '\n' ∉ domains)
    (hfront : ¬ rulesKey <:+: head ++ '\n' :: (domains ++ '\n' :: front)) :
    clash (head ++ '\n' :: (domains ++ '\n' :: front) ++ rulesKey ++ rest) =
      .ok (output (missing domains) front rest) := by
  have hpieces := index_split rest hfront
  have hcut : ∀ x, splitN ['\n'] 2 (head ++ '\n' :: (domains ++ '\n' :: x)) =
      [head, domains, x] := by
    intro x
    rw [splitN_singleton hhead, splitN_singleton hdomains]
    rfl
  have hheads : splitN ['\n'] 2 (head ++ '\n' :: (domains ++ '\n' :: front) ++ rulesKey ++ rest) =
      [head, domains, front ++ rulesKey ++ rest] := by
    rw [← hcut]
    simp
  have hindex : index [head, domains, front ++ rulesKey ++ rest] 0 = .ok head ∧
      index [head, domains, front ++ rulesKey ++ rest] 1 = .ok domains ∧
      index [head, domains, front] 2 = .ok front := ⟨rfl, rfl, rfl⟩
  simp only [clash, hheads, hindex, hpieces, hversion, hcut, Effects.ok_bind]
  rfl

/-- A version line whose next line ends with the key. -/
def RulesInSecondLine (text : Text) : Prop :=
  ∃ head second rest, isVersionLine head = true ∧ '\n' ∉ second ∧
    text = head ++ '\n' :: (second ++ rulesKey ++ rest)

/-- A version line has neither a line feed nor a colon. -/
theorem not_mem_of_isVersionLine {head : Text} (h : isVersionLine head = true) :
    '\n' ∉ head ∧ ':' ∉ head := by
  have hletters : ∀ c ∈ head, c ∈ "# version ".toList ∨ (c.isDigit || c == '.') = true := by
    simp only [isVersionLine, Bool.and_eq_true, List.isPrefixOf_iff_prefix, List.all_eq_true] at h
    rcases h with ⟨⟨⟨digits, rfl⟩, -⟩, hdigits⟩
    intro c hc
    rcases List.mem_append.mp hc with hc | hc
    · exact Or.inl hc
    · rw [List.drop_left] at hdigits
      exact Or.inr (hdigits c hc)
  refine ⟨fun hmem => ?_, fun hmem => ?_⟩
  · exact absurd (hletters _ hmem) (by decide)
  · exact absurd (hletters _ hmem) (by decide)

/-- Then the text before the key has no third piece. -/
theorem clash_of_rulesInSecondLine {text : Text} (h : RulesInSecondLine text) :
    clash text = .error .indexError := by
  rcases h with ⟨head, second, rest, hversion, hsecond, rfl⟩
  have hletters := not_mem_of_isVersionLine hversion
  have hfront : ¬ rulesKey <:+: head ++ '\n' :: second := by
    intro hoccurs
    rcases infix_append_last newline_not_mem_rulesWord hoccurs with h | h | h
    · exact hletters.1 (h.subset (by decide))
    · exact hletters.2 (h.subset (by decide))
    · exact hsecond (h.subset (by decide))
  have hpieces := index_split rest hfront
  have htext : head ++ '\n' :: (second ++ rulesKey ++ rest) =
      head ++ '\n' :: second ++ rulesKey ++ rest := by simp
  have hheads : splitN ['\n'] 2 (head ++ '\n' :: second ++ rulesKey ++ rest) =
      [head, second ++ rulesWord, rest] := by
    have hline : '\n' ∉ second ++ rulesWord := by
      rw [List.mem_append, not_or]
      exact ⟨hsecond, newline_not_mem_rulesWord⟩
    have hcut : head ++ '\n' :: second ++ rulesKey ++ rest =
        head ++ '\n' :: ((second ++ rulesWord) ++ '\n' :: rest) := by
      simp [rulesKey_eq]
    rw [hcut, splitN_singleton hletters.1, splitN_singleton hline]
    rfl
  have hcut : splitN ['\n'] 2 (head ++ '\n' :: second) = [head, second] := by
    rw [splitN_singleton hletters.1, splitN_singleton_of_not_mem hsecond]
  have hindex : index [head, second ++ rulesWord, rest] 0 = .ok head ∧
      index [head, second ++ rulesWord, rest] 1 = .ok (second ++ rulesWord) ∧
      index [head, second] 2 = .error .indexError := ⟨rfl, rfl, rfl⟩
  rw [htext]
  simp only [clash, hheads, hindex, hpieces, hversion, hcut, Effects.ok_bind]
  rfl

/-- All domains are missing where none occurs. -/
theorem missing_eq_pre {domains : Text} (h : ∀ domain ∈ pre, ¬ domain <:+: domains) :
    missing domains = pre := by
  refine List.filter_eq_self.mpr fun domain hdomain => ?_
  rw [Bool.not_eq_true', ← Bool.not_eq_true, contains_iff]
  exact h domain hdomain

/-- A text starts with its first line. -/
theorem lines_line {line : Text} (hline : '\n' ∉ line) (x : Text) :
    lines (line ++ '\n' :: x) = line :: lines x :=
  List.splitOn_append_cons_self_of_not_mem hline x

/-- Whether the text has a header depends on its first line. -/
theorem ownHeader_line {line : Text} (hline : '\n' ∉ line) (x : Text) :
    ownHeader (line ++ '\n' :: x) = if isVersionLine line then 2 else 0 := by
  rw [ownHeader, lines_line hline]
  rfl

/-- Every other run succeeds: it keeps what stands before the key without the header of an
earlier run. -/
theorem exists_output {front rest : Text} (hfront : ¬ rulesKey <:+: front)
    (hsecond : ¬ RulesInSecondLine (front ++ rulesKey ++ rest)) :
    ∃ insert front', clash (front ++ rulesKey ++ rest) = .ok (output insert front' rest) ∧
      front' <:+ front ∧
      (insert = pre ∨ ∃ domains, domains <:+: front ∧ insert = missing domains) ∧
      (lines (front ++ rulesWord)).drop (ownHeader (front ++ rulesKey ++ rest)) =
        lines (front' ++ rulesWord) := by
  by_cases hnewline : '\n' ∈ front
  · rcases exists_line hnewline with ⟨line, tail, hline, rfl⟩
    have htext : line ++ '\n' :: (tail ++ rulesKey ++ rest) =
        line ++ '\n' :: tail ++ rulesKey ++ rest := by simp
    have hown := ownHeader_line hline (tail ++ rulesKey ++ rest)
    rw [htext] at hown
    cases hversion : isVersionLine line with
    | false =>
        apply Exists.intro pre
        apply Exists.intro (line ++ '\n' :: tail)
        apply And.intro (clash_of_not_version hline hversion hfront htext)
        apply And.intro (List.suffix_refl _)
        apply And.intro (Or.inl rfl)
        rw [hown, if_neg (by rw [hversion]; exact Bool.false_ne_true)]
        rfl
    | true =>
        by_cases htail : '\n' ∈ tail
        · rcases exists_line htail with ⟨domains, front', hdomains, rfl⟩
          apply Exists.intro (missing domains)
          apply Exists.intro front'
          apply And.intro (clash_of_version rest hline hversion hdomains hfront)
          apply And.intro ⟨line ++ '\n' :: (domains ++ ['\n']), by simp⟩
          apply And.intro (Or.inr ⟨domains, ⟨line ++ ['\n'], '\n' :: front', by simp⟩, rfl⟩)
          rw [hown, if_pos hversion, List.append_assoc, List.cons_append, lines_line hline,
            List.append_assoc, List.cons_append, lines_line hdomains]
          rfl
        · exact absurd ⟨line, tail, rest, hversion, htail, by simp⟩ hsecond
  · have hline : '\n' ∉ front ++ rulesWord := by
      rw [List.mem_append, not_or]
      exact ⟨hnewline, newline_not_mem_rulesWord⟩
    have hversion : isVersionLine (front ++ rulesWord) = false := by
      rw [← Bool.not_eq_true]
      intro hversion
      exact (not_mem_of_isVersionLine hversion).2 (List.mem_append_right _ (by decide))
    have htext : front ++ rulesWord ++ '\n' :: rest = front ++ rulesKey ++ rest := by
      simp [rulesKey_eq]
    have hown := ownHeader_line hline rest
    rw [htext] at hown
    apply Exists.intro pre
    apply Exists.intro front
    apply And.intro (clash_of_not_version hline hversion hfront htext)
    apply And.intro (List.suffix_refl _)
    apply And.intro (Or.inl rfl)
    rw [hown, if_neg (by rw [hversion]; exact Bool.false_ne_true)]
    rfl

/-- Every other first run inserts all domains. -/
theorem exists_clash_eq {front rest : Text} (hfront : ¬ rulesKey <:+: front)
    (hno : ∀ domain ∈ pre, ¬ domain <:+: front)
    (hsecond : ¬ RulesInSecondLine (front ++ rulesKey ++ rest)) :
    ∃ front', front' <:+ front ∧
      clash (front ++ rulesKey ++ rest) = .ok (output pre front' rest) := by
  rcases exists_output hfront hsecond with ⟨insert, front', hclash, hsuffix, hinsert, -⟩
  have hall : insert = pre := by
    rcases hinsert with hinsert | ⟨domains, hdomains, hinsert⟩
    · exact hinsert
    · rw [hinsert]
      exact missing_eq_pre fun domain hdomain h => hno domain hdomain (h.trans hdomains)
  rw [hall] at hclash
  exact ⟨front', hsuffix, hclash⟩

/-! ## Redirecting -/

/-- Redirecting works on each side of a letter that no name has. -/
theorem redirect_append_cons {c : Char} (hdomestic : c ∉ "Domestic".toList)
    (hasian : c ∉ "AsianTV".toList) (x y : Text) :
    redirect (x ++ c :: y) = redirect x ++ c :: redirect y := by
  unfold redirect
  rw [replace_append_cons _ (by decide) hdomestic, replace_append_cons _ (by decide) hasian]

/-- What redirecting does not write occurred before. -/
theorem infix_of_infix_redirect {p x : Text} (hp : p ≠ [])
    (hdisjoint : ∀ c ∈ p, c ∉ "DIRECT".toList) (h : p <:+: redirect x) : p <:+: x :=
  infix_of_infix_replace (by decide) hp hdisjoint
    (infix_of_infix_replace (by decide) hp hdisjoint h)

/-- What redirecting does not write was at the end before. -/
theorem suffix_of_suffix_redirect {p x : Text} (hdisjoint : ∀ c ∈ p, c ∉ "DIRECT".toList)
    (h : p <:+ redirect x) : p <:+ x :=
  suffix_of_suffix_replace (by decide) hdisjoint
    (suffix_of_suffix_replace (by decide) hdisjoint h)

/-- Neither the key nor a domain occurs. -/
structure Clean (x : Text) : Prop where
  no_key : ¬ rulesKey <:+: x
  no_domain : ∀ domain ∈ pre, ¬ domain <:+: x

/-- A part of a clean text is clean. -/
theorem Clean.of_infix {x y : Text} (h : Clean x) (hoccurs : y <:+: x) : Clean y where
  no_key hkey := h.no_key (hkey.trans hoccurs)
  no_domain domain hdomain hmem := h.no_domain domain hdomain (hmem.trans hoccurs)

/-- The key and the domains share no letter with the word that a replacement writes. -/
theorem not_mem_direct : ∀ word ∈ rulesKey :: rulesWord :: pre, ∀ c ∈ word,
    c ∉ "DIRECT".toList := by
  have hall : (rulesKey :: rulesWord :: pre).all
      (fun word => word.all fun c => !"DIRECT".toList.contains c) = true := by decide
  intro word hword c hc hmem
  have hfree := List.all_eq_true.mp (List.all_eq_true.mp hall word hword) c hc
  rw [List.contains_iff_mem.mpr hmem] at hfree
  contradiction

/-- Redirecting keeps a text clean. -/
theorem Clean.redirect {x : Text} (h : Clean x) : Clean (redirect x) where
  no_key hkey := h.no_key
    (infix_of_infix_redirect (by decide) (not_mem_direct _ List.mem_cons_self) hkey)
  no_domain domain hdomain hmem := by
    have hne : ∀ domain ∈ pre, domain ≠ [] := by decide
    refine h.no_domain domain hdomain
      (infix_of_infix_redirect (hne domain hdomain) (not_mem_direct domain ?_) hmem)
    exact List.mem_cons_of_mem _ (List.mem_cons_of_mem _ hdomain)

/-- Some copies of the word the key ends a line with. -/
def copies (j : Nat) : Text :=
  (List.replicate j rulesWord).flatten

/-- One copy more comes at the end. -/
theorem copies_succ (j : Nat) : copies (j + 1) = copies j ++ rulesWord := by
  simp [copies, List.replicate_succ']

/-- The copies have no line feed. -/
theorem newline_not_mem_copies (j : Nat) : '\n' ∉ copies j := by
  induction j with
  | zero => simp [copies]
  | succ j ih =>
      rw [copies_succ, List.mem_append, not_or]
      exact ⟨ih, newline_not_mem_rulesWord⟩

/-- Redirecting leaves the copies alone. -/
theorem redirect_copies (x : Text) (j : Nat) :
    redirect (x ++ copies j) = redirect x ++ copies j := by
  induction j with
  | zero => simp [copies]
  | succ j ih =>
      have hword : rulesWord = 'r' :: "ules:".toList := rfl
      have hrest : redirect "ules:".toList = "ules:".toList := by decide
      rw [copies_succ, hword, ← List.append_assoc,
        redirect_append_cons (by decide) (by decide), ih, hrest, List.append_assoc]

/-! ## The lines of each run -/

/-- What run {lit}`k` inserts: all domains, and nothing right after. -/
def insertOf (k : Nat) : List Text :=
  if k % 2 = 1 then pre else []

/-- Every second run inserts the domains. -/
theorem insertOf_cases (k : Nat) :
    (k % 2 = 1 ∧ insertOf k = pre) ∨ (k % 2 = 0 ∧ insertOf k = []) := by
  unfold insertOf
  split_ifs with h
  · exact Or.inl ⟨h, rfl⟩
  · exact Or.inr ⟨by omega, rfl⟩

/-- The second line of a run decides what the next one inserts. -/
theorem missing_insertLine (k : Nat) : missing (insertLine (insertOf k)) = insertOf (k + 1) := by
  rcases insertOf_cases k with ⟨hk, h⟩ | ⟨hk, h⟩
  · rw [h, insertOf, if_neg (by omega)]
    decide +kernel
  · rw [h, insertOf, if_pos (by omega)]
    decide +kernel

/-- What the script writes behind the configuration, without its first line feed. -/
def addedRest (insert : List Text) : Text :=
  "\n# New Add\n".toList ++ insert.flatMap fun domain => directLine domain ++ "\n".toList

/-- What is added starts with a line feed. -/
theorem added_eq (insert : List Text) : added insert = '\n' :: addedRest insert :=
  rfl

/-- Redirecting leaves what was added alone. -/
theorem redirect_added (x : Text) (k : Nat) :
    redirect (x ++ added (insertOf k)) = redirect x ++ added (insertOf k) := by
  have hrest : redirect (addedRest (insertOf k)) = addedRest (insertOf k) := by
    rcases insertOf_cases k with ⟨-, h⟩ | ⟨-, h⟩ <;> rw [h] <;> decide +kernel
  rw [added_eq, redirect_append_cons (by decide) (by decide), hrest]

/-- The texts that go on without a key. -/
structure Open (x : Text) : Prop where
  no_key : ¬ rulesKey <:+: x
  no_word : ¬ rulesWord <:+ x

/-- A text stays open behind what is added. -/
theorem Open.added {x : Text} (h : Open x) (k : Nat) : Open (x ++ added (insertOf k)) where
  no_key hoccurs := by
    rw [added_eq] at hoccurs
    rcases infix_append_last newline_not_mem_rulesWord hoccurs with hx | hx | hx
    · exact h.no_key hx
    · exact h.no_word hx
    · have hfree : contains (addedRest (insertOf k)) rulesKey = false := by
        rcases insertOf_cases k with ⟨-, hk⟩ | ⟨-, hk⟩ <;> rw [hk] <;> decide +kernel
      rw [← Bool.not_eq_true, contains_iff] at hfree
      exact hfree hx
  no_word hsuffix := by
    have hlast : (x ++ Clash.added (insertOf k)).getLast? = some '\n' := by
      rcases insertOf_cases k with ⟨-, hk⟩ | ⟨-, hk⟩ <;> rw [hk, List.getLast?_append] <;> rfl
    rcases hsuffix with ⟨front, hfront⟩
    have hword : rulesWord.getLast? = some ':' := rfl
    rw [← hfront, List.getLast?_append, hword] at hlast
    cases hlast

/-- What the runs from {lit}`s` on wrote, {lit}`m` of them. -/
def tails (s m : Nat) : Text :=
  (List.range' s m).flatMap fun k => added (insertOf k)

/-- One run more adds its tail at the end. -/
theorem tails_succ (s m : Nat) : tails s (m + 1) = tails s m ++ added (insertOf (s + m)) := by
  simp [tails, List.range'_concat]

/-- A text stays open behind the tails. -/
theorem Open.tails {x : Text} (h : Open x) (s m : Nat) : Open (x ++ tails s m) := by
  induction m with
  | zero => simpa [Clash.tails] using h
  | succ m ih =>
      rw [tails_succ, ← List.append_assoc]
      exact ih.added _

/-- Redirecting leaves the tails alone. -/
theorem redirect_tails (x : Text) (s m : Nat) :
    redirect (x ++ tails s m) = redirect x ++ tails s m := by
  induction m with
  | zero => simp [tails]
  | succ m ih => rw [tails_succ, ← List.append_assoc, redirect_added, ih, List.append_assoc]

/-! ## Any number of runs -/

/-- A run that succeeds writes its text. -/
theorem rerun_of_ok {text text' : Text} (h : clash text = .ok text') : rerun text = text' := by
  simp only [rerun, h]

/-- A run that fails leaves the text. -/
theorem rerun_of_error {text : Text} {e : PythonError} (h : clash text = .error e) :
    rerun text = text := by
  simp only [rerun, h]

/-- A run on a text that a run has written. -/
theorem rerun_output {k : Nat} {front rest : Text} (hfront : ¬ rulesKey <:+: front) :
    rerun (header (insertOf k) ++ front ++ rulesKey ++ rest) =
      output (insertOf (k + 1)) front rest := by
  have hversion : isVersionLine versionLine = true := by decide
  have hhead : '\n' ∉ versionLine ∧ ¬ rulesWord <:+ versionLine := by decide
  have hline : '\n' ∉ insertLine (insertOf k) ∧ ¬ rulesWord <:+ insertLine (insertOf k) := by
    rcases insertOf_cases k with ⟨-, hk⟩ | ⟨-, hk⟩ <;> rw [hk] <;> decide
  have hkey : ¬ rulesKey <:+:
      versionLine ++ '\n' :: (insertLine (insertOf k) ++ '\n' :: front) := by
    intro hoccurs
    rcases infix_append_last newline_not_mem_rulesWord hoccurs with h | h | h
    · exact hhead.1 (h.subset (by decide))
    · exact hhead.2 h
    · rcases infix_append_last newline_not_mem_rulesWord h with h | h | h
      · exact hline.1 (h.subset (by decide))
      · exact hline.2 h
      · exact hfront h
  have hclash := clash_of_version rest hhead.1 hversion hline.1 hkey
  rw [missing_insertLine] at hclash
  have htext : header (insertOf k) ++ front ++ rulesKey ++ rest =
      versionLine ++ '\n' :: (insertLine (insertOf k) ++ '\n' :: front) ++
        rulesKey ++ rest := by
    simp only [header, List.append_assoc, List.cons_append, List.nil_append]
  rw [htext]
  exact rerun_of_ok hclash

/-- While there is a copy at the end of the text, the line feed that a run adds makes a key of
it, which the next run cuts off with all that follows. -/
theorem redirect_of_lt {rules : Text} {j k : Nat} (hj : k < j)
    (hrules : Clean (rules ++ copies (j - k))) :
    Clean (redirect rules ++ copies (j - (k + 1))) ∧
      redirect (beforeKey (rules ++ copies (j - k) ++ tails (j + 1) (k - j) ++
        added (insertOf (k + 1)))) =
          redirect rules ++ copies (j - (k + 1)) ++ tails (j + 1) (k + 1 - j) := by
  have hcopies : j - k = (j - (k + 1)) + 1 := by omega
  have htails : k - j = 0 := by omega
  have htails' : k + 1 - j = 0 := by omega
  rw [hcopies, copies_succ, ← List.append_assoc] at hrules
  have hshort : Clean (rules ++ copies (j - (k + 1))) :=
    hrules.of_infix (List.prefix_append _ _).isInfix
  have hrest : rules ++ copies (j - k) ++ tails (j + 1) (k - j) ++ added (insertOf (k + 1)) =
      rules ++ copies (j - (k + 1)) ++ rulesKey ++ addedRest (insertOf (k + 1)) := by
    rw [hcopies, copies_succ, htails, added_eq, rulesKey_eq]
    simp [tails]
  constructor
  · rw [← redirect_copies]
    exact hshort.redirect
  · rw [hrest, beforeKey_append hshort.no_key, redirect_copies, htails']
    simp [tails]

/-- Once there is no copy, nothing is cut off any more. -/
theorem redirect_of_le {rules : Text} {j k : Nat} (hj : j ≤ k)
    (hrules : Clean (rules ++ copies (j - k))) (hend : ¬ rulesWord <:+ rules) :
    Clean (redirect rules ++ copies (j - (k + 1))) ∧
      redirect (beforeKey (rules ++ copies (j - k) ++ tails (j + 1) (k - j) ++
        added (insertOf (k + 1)))) =
          redirect rules ++ copies (j - (k + 1)) ++ tails (j + 1) (k + 1 - j) := by
  have hcopies : j - k = 0 := by omega
  have hcopies' : j - (k + 1) = 0 := by omega
  have htails : k + 1 - j = (k - j) + 1 := by omega
  have hindex : j + 1 + (k - j) = k + 1 := by omega
  have hnone : copies 0 = [] := rfl
  rw [hcopies, hnone, List.append_nil] at hrules
  have hopen : Open rules := ⟨hrules.no_key, hend⟩
  rw [hcopies, hcopies', hnone, List.append_nil, List.append_nil]
  apply And.intro hrules.redirect
  have hkept : beforeKey (rules ++ tails (j + 1) (k - j) ++ added (insertOf (k + 1))) =
      rules ++ tails (j + 1) (k - j) ++ added (insertOf (k + 1)) :=
    beforeKey_of_not_infix ((hopen.tails _ _).added _).no_key
  rw [hkept, redirect_added, redirect_tails, htails, tails_succ, hindex, List.append_assoc]

/-- The file after any number of runs: a copy of {lit}`rules:` at the end of the text is
lost in each run after the first one, together with what that run added, and once
there is none, what each run adds stays. -/
theorem fileAfter_eq {text front body : Text} {j : Nat} (hfront : ¬ rulesKey <:+: front)
    (hbody : ¬ rulesWord <:+ body) (hclean : Clean (body ++ copies j))
    (hfirst : rerun text = output pre front (body ++ copies j)) (k : Nat) :
    ∃ rules, Clean (rules ++ copies (j - k)) ∧ ¬ rulesWord <:+ rules ∧
      fileAfter (k + 1) text =
        header (insertOf (k + 1)) ++ front ++ rulesKey ++
          (rules ++ copies (j - k) ++ tails (j + 1) (k - j) ++ added (insertOf (k + 1))) := by
  have hletters : ∀ c ∈ rulesWord, c ∉ "DIRECT".toList :=
    not_mem_direct rulesWord (List.mem_cons_of_mem _ List.mem_cons_self)
  induction k with
  | zero =>
      refine ⟨redirect body, ?_, fun h => hbody (suffix_of_suffix_redirect hletters h), ?_⟩
      · rw [Nat.sub_zero, ← redirect_copies]
        exact hclean.redirect
      · change rerun text = _
        rw [hfirst, output, beforeKey_of_not_infix hclean.no_key, redirect_copies]
        simp [tails, insertOf]
  | succ k ih =>
      rcases ih with ⟨rules, hrules, hend, hfile⟩
      have hstep : fileAfter (k + 2) text = rerun (fileAfter (k + 1) text) :=
        Function.iterate_succ_apply' _ _ _
      rw [hstep, hfile, rerun_output hfront, output]
      have hnext : Clean (redirect rules ++ copies (j - (k + 1))) ∧
          redirect (beforeKey (rules ++ copies (j - k) ++ tails (j + 1) (k - j) ++
            added (insertOf (k + 1)))) =
              redirect rules ++ copies (j - (k + 1)) ++ tails (j + 1) (k + 1 - j) := by
        rcases Nat.lt_or_ge k j with hj | hj
        · exact redirect_of_lt hj hrules
        · exact redirect_of_le hj hrules hend
      refine ⟨redirect rules, hnext.1, fun h => hend (suffix_of_suffix_redirect hletters h), ?_⟩
      rw [hnext.2]
      simp

/-! ## Counting the direct rules -/

/-- The first line is in front of the text, and every other line is a part of it. -/
theorem exists_lines_eq (text : Text) :
    ∃ first rest, lines text = first :: rest ∧ first <+: text ∧
      ∀ line ∈ rest, line <:+: text := by
  induction text with
  | nil => exact ⟨[], [], rfl, List.prefix_refl _, by simp⟩
  | cons c text ih =>
      rcases ih with ⟨first, rest, hlines, hfirst, hrest⟩
      unfold lines at hlines ⊢
      rw [List.splitOn_cons_eq_if_modifyHead, hlines]
      split_ifs with hc
      · refine ⟨[], _, rfl, List.nil_prefix, fun line hline => List.infix_cons ?_⟩
        rcases List.mem_cons.mp hline with rfl | hline
        · exact hfirst.isInfix
        · exact hrest line hline
      · refine ⟨c :: first, rest, rfl, ?_, fun line hline => List.infix_cons (hrest line hline)⟩
        exact List.cons_prefix_cons.mpr ⟨rfl, hfirst⟩

/-- A line is a part of the text. -/
theorem infix_of_mem_lines {line text : Text} (h : line ∈ lines text) : line <:+: text := by
  rcases exists_lines_eq text with ⟨first, rest, hlines, hfirst, hrest⟩
  rw [hlines] at h
  rcases List.mem_cons.mp h with rfl | h
  · exact hfirst.isInfix
  · exact hrest line h

/-- A domain that does not occur has no line. -/
theorem count_lines_eq_zero {x domain : Text} (h : ¬ domain <:+: x) :
    (lines x).count (directLine domain) = 0 := by
  rw [List.count_eq_zero]
  intro hmem
  exact h (List.IsInfix.trans ⟨_, _, rfl⟩ (infix_of_mem_lines hmem))

/-- A run adds one line of a domain, or none. -/
theorem count_lines_added {domain : Text} (hdomain : domain ∈ pre) (x : Text) (k : Nat) :
    (lines (x ++ added (insertOf k))).count (directLine domain) =
      (lines x).count (directLine domain) + k % 2 := by
  have hrest : ∀ domain ∈ pre, (lines (addedRest pre)).count (directLine domain) = 1 := by
    decide +kernel
  have hnone : ∀ domain ∈ pre, (lines (addedRest [])).count (directLine domain) = 0 := by
    decide +kernel
  rw [added_eq, lines_append_cons, List.count_append]
  rcases insertOf_cases k with ⟨hk, h⟩ | ⟨hk, h⟩
  · rw [h, hk, hrest domain hdomain]
  · rw [h, hk, hnone domain hdomain]

/-- From run {lit}`s` on every other run adds a line. -/
theorem count_lines_tails {domain : Text} (hdomain : domain ∈ pre) (x : Text) (s m : Nat) :
    (lines (x ++ tails s m)).count (directLine domain) =
      (lines x).count (directLine domain) + ((s + m) / 2 - s / 2) := by
  induction m with
  | zero => simp [tails]
  | succ m ih =>
      rw [tails_succ, ← List.append_assoc, count_lines_added hdomain, ih]
      omega

/-- The direct rules of a domain in the file after a number of runs. -/
theorem count_lines_fileAfter {text front body : Text} {j : Nat}
    (hfront : ¬ rulesKey <:+: front) (hdomains : ∀ domain ∈ pre, ¬ domain <:+: front ++ rulesWord)
    (hbody : ¬ rulesWord <:+ body) (hclean : Clean (body ++ copies j))
    (hfirst : rerun text = output pre front (body ++ copies j)) (k : Nat) {domain : Text}
    (hdomain : domain ∈ pre) :
    (lines (fileAfter (k + 1) text)).count (directLine domain) =
      ((j + 1 + (k - j)) / 2 - (j + 1) / 2) + (k + 1) % 2 := by
  rcases fileAfter_eq hfront hbody hclean hfirst k with ⟨rules, hrules, -, hfile⟩
  have hheader : ∀ domain ∈ pre, (lines versionLine).count (directLine domain) = 0 ∧
      (lines (insertLine (insertOf (k + 1)))).count (directLine domain) = 0 := by
    rcases insertOf_cases (k + 1) with ⟨-, hk⟩ | ⟨-, hk⟩ <;> rw [hk] <;> decide +kernel
  have htext : fileAfter (k + 1) text = versionLine ++ '\n' :: (insertLine (insertOf (k + 1)) ++
      '\n' :: ((front ++ rulesWord) ++ '\n' :: (rules ++ copies (j - k) ++
        tails (j + 1) (k - j) ++ added (insertOf (k + 1))))) := by
    rw [hfile]
    simp only [header, rulesKey_eq, List.append_assoc, List.cons_append, List.nil_append]
  rw [htext, lines_append_cons, lines_append_cons, lines_append_cons, List.count_append,
    List.count_append, List.count_append, (hheader domain hdomain).1,
    (hheader domain hdomain).2, count_lines_eq_zero (hdomains domain hdomain),
    count_lines_added hdomain, count_lines_tails hdomain,
    count_lines_eq_zero (hrules.no_domain domain hdomain)]
  omega

/-- Every text ends with some number of copies. -/
theorem exists_copies (text : Text) : ∃ body j, text = body ++ copies j ∧ ¬ rulesWord <:+ body := by
  by_cases h : rulesWord <:+ text
  · rcases h with ⟨shorter, hshorter⟩
    rcases exists_copies shorter with ⟨body, j, hcopies, hbody⟩
    exact ⟨body, j + 1, by rw [copies_succ, ← List.append_assoc, ← hcopies, hshorter], hbody⟩
  · exact ⟨text, 0, by simp [copies], h⟩
termination_by text.length
decreasing_by
  have hlength : rulesWord.length = 6 := rfl
  rw [← hshorter, List.length_append, hlength]
  omega

/-- The copies at the end of a text stand behind its last line feed. -/
theorem exists_rest_copies {x rest body : Text} {j : Nat}
    (h : x ++ '\n' :: rest = body ++ copies j) :
    ∃ front, rest = front ++ copies j ∧ front <:+ body := by
  rcases List.append_eq_append_iff.mp h with ⟨t, hbody, hrest⟩ | ⟨t, hx, hcopies⟩
  · cases t with
    | nil =>
        rw [List.nil_append] at hrest
        exact absurd (hrest ▸ List.mem_cons_self) (newline_not_mem_copies j)
    | cons c t =>
        rw [List.cons_append, List.cons.injEq] at hrest
        exact ⟨t, hrest.2, ⟨x ++ [c], by rw [hbody]; simp⟩⟩
  · exact absurd (hcopies ▸ by simp) (newline_not_mem_copies j)

/-- A text with one key: what stands before it and behind it holds none. -/
theorem exists_around_key {text : Text} (h : ∃! i, rulesKey <+: text.drop i) :
    ∃ front rest, text = front ++ rulesKey ++ rest ∧ ¬ rulesKey <:+: front ∧
      ¬ rulesKey <:+: rest := by
  rcases h with ⟨i, ⟨rest, hrest⟩, hunique⟩
  have htext : text = text.take i ++ rulesKey ++ rest := by
    rw [List.append_assoc, hrest, List.take_append_drop]
  have hlength : (text.take i).length = i := by
    have hle : (rulesKey ++ rest).length ≤ text.length - i := by
      rw [hrest, List.length_drop]
    have hkey : rulesKey.length = 7 := rfl
    rw [List.length_append, hkey] at hle
    rw [List.length_take]
    omega
  refine ⟨text.take i, rest, htext, ?_, ?_⟩
  · rintro ⟨u, v, huv⟩
    have hat : rulesKey <+: text.drop u.length := by
      rw [htext, ← huv]
      simp
    have hsame := hunique _ hat
    have hshort := congrArg List.length huv
    have hkey : rulesKey.length = 7 := rfl
    rw [List.length_append, List.length_append, hlength, hkey] at hshort
    omega
  · rintro ⟨u, v, rfl⟩
    have hkey : rulesKey.length = 7 := rfl
    have hat : rulesKey <+: text.drop (i + 7 + u.length) := by
      rw [← List.drop_drop, ← List.drop_drop, ← hrest, ← hkey, List.drop_left,
        List.append_assoc, List.drop_left]
      exact List.prefix_append _ _
    have hsame := hunique _ hat
    omega

/-- Once a run fails all later ones leave the file as it is. -/
theorem fileAfter_of_error {text : Text} {e : PythonError} (h : clash text = .error e) (n : Nat) :
    fileAfter n text = text :=
  Function.iterate_fixed (rerun_of_error h) n

/-- The numbers of runs that leave one direct rule for every domain, for a text that ends
with {lit}`j` copies of {lit}`rules:`. -/
def Settled (j n : Nat) : Prop :=
  (n % 2 = 1 ∧ n ≤ j + 2) ∨ n = 2 * ((j + 1) / 2) + 2

/-- When exactly one line of a domain is left. -/
theorem settled_iff (j k : Nat) :
    ((j + 1 + (k - j)) / 2 - (j + 1) / 2) + (k + 1) % 2 = 1 ↔ Settled j (k + 1) := by
  unfold Settled
  rcases Nat.mod_two_eq_zero_or_one (k + 1) with hparity | hparity <;>
    rcases Nat.le_total k j with hle | hle <;> omega

/-- When the first run does not fail, the copies at the end decide. -/
theorem direct_lines_once_of_copies {text body : Text} {j : Nat}
    (hrules : ∃! i, rulesKey <+: text.drop i) (hno : ∀ domain ∈ pre, ¬ domain <:+: text)
    (hsecond : ¬ RulesInSecondLine text) (hcopies : text = body ++ copies j)
    (hbody : ¬ rulesWord <:+ body) (k : Nat) {domain : Text} (hdomain : domain ∈ pre) :
    (lines (fileAfter (k + 1) text)).count (directLine domain) = 1 ↔ Settled j (k + 1) := by
  rcases exists_around_key hrules with ⟨front, rest, rfl, hfront, hrest⟩
  have hrestInfix : rest <:+: front ++ rulesKey ++ rest := (List.suffix_append _ _).isInfix
  have hclean : Clean rest :=
    ⟨hrest, fun domain hdomain h => hno domain hdomain (h.trans hrestInfix)⟩
  have hfrontInfix : front ++ rulesWord <:+: front ++ rulesKey ++ rest :=
    ⟨[], '\n' :: rest, by simp [rulesKey_eq]⟩
  have hdomains : ∀ domain ∈ pre, ¬ domain <:+: front ++ rulesWord :=
    fun domain hdomain h => hno domain hdomain (h.trans hfrontInfix)
  rcases exists_clash_eq hfront
    (fun domain hdomain h => hdomains domain hdomain (h.trans (List.prefix_append _ _).isInfix))
    hsecond with ⟨front', hfront', hclash⟩
  have hline : front ++ rulesWord ++ '\n' :: rest = body ++ copies j := by
    rw [← hcopies]
    simp [rulesKey_eq]
  rcases exists_rest_copies hline with ⟨body', rfl, hbody'⟩
  have hword' : front' ++ rulesWord <:+: front ++ rulesWord := by
    rcases hfront' with ⟨u, rfl⟩
    exact ⟨u, [], by simp⟩
  rw [count_lines_fileAfter (fun h => hfront (h.trans hfront'.isInfix))
    (fun domain hdomain h => hdomains domain hdomain (h.trans hword'))
    (fun h => hbody (h.trans hbody')) hclean (rerun_of_ok hclash) k hdomain, settled_iff]

/-- After {lit}`n` runs every domain has exactly one direct rule exactly when the first run
does not fail and {lit}`n` is one of the runs that leave it so: for a text that does not
end with {lit}`rules:` the first two. -/
theorem direct_lines_once_iff {text : Text} (hrules : ∃! i, rulesKey <+: text.drop i)
    (hpre : ∀ domain ∈ pre, contains text domain = false) {n : Nat} (hn : 1 ≤ n) :
    (∀ domain ∈ pre, (lines (fileAfter n text)).count (directLine domain) = 1) ↔
      ¬ RulesInSecondLine text ∧
        ∃ body j, text = body ++ copies j ∧ ¬ rulesWord <:+ body ∧ Settled j n := by
  have hno : ∀ domain ∈ pre, ¬ domain <:+: text := by
    intro domain hdomain hoccurs
    have hcontains := contains_iff.mpr hoccurs
    rw [hpre domain hdomain] at hcontains
    contradiction
  have hmem : "cjsah.net".toList ∈ pre := List.mem_cons_self
  obtain ⟨k, rfl⟩ : ∃ k, n = k + 1 := ⟨n - 1, by omega⟩
  constructor
  · intro h
    have hsecond : ¬ RulesInSecondLine text := by
      intro hsecond
      have hone := h _ hmem
      rw [fileAfter_of_error (clash_of_rulesInSecondLine hsecond),
        count_lines_eq_zero (hno _ hmem)] at hone
      contradiction
    rcases exists_copies text with ⟨body, j, hcopies, hbody⟩
    exact ⟨hsecond, body, j, hcopies, hbody,
      (direct_lines_once_of_copies hrules hno hsecond hcopies hbody k hmem).mp (h _ hmem)⟩
  · rintro ⟨hsecond, body, j, hcopies, hbody, hsettled⟩ domain hdomain
    exact (direct_lines_once_of_copies hrules hno hsecond hcopies hbody k hdomain).mpr hsettled

/-- A configuration of three lines. -/
def smallConfig : Text :=
  "a\nrules:\nb".toList

/-- Two runs on it. -/
theorem smallConfig_twice :
    (∀ domain ∈ pre, (lines (fileAfter 2 smallConfig)).count (directLine domain) = 1) ↔
      ¬ RulesInSecondLine smallConfig ∧
        ∃ body j, smallConfig = body ++ copies j ∧ ¬ rulesWord <:+ body ∧ Settled j 2 := by
  have hshort : ∀ i < 10, rulesKey <+: smallConfig.drop i → i = 2 := by decide +kernel
  refine direct_lines_once_iff ⟨2, by decide +kernel, fun i hi => ?_⟩ (by decide +kernel)
    (by decide)
  by_cases hlt : i < 10
  · exact hshort i hlt hi
  · have hlength : smallConfig.length = 10 := rfl
    have hkey : rulesKey <+: smallConfig.drop i := hi
    rw [List.drop_eq_nil_of_le (by omega)] at hkey
    exact absurd (List.prefix_nil.mp hkey) (by decide)

/-- The third run inserts every domain again: two rules for one domain. -/
theorem smallConfig_thrice :
    ∃ domain ∈ pre, (lines (fileAfter 3 smallConfig)).count (directLine domain) = 2 :=
  ⟨"cjsah.net".toList, List.mem_cons_self, by decide +kernel⟩

end Clash
end TestAio
