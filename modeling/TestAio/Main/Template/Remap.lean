import TestAio.Java.Replacement

/-!
# Filling the texts of a row

{lit}`WordTableTemplate.remap` replaces every placeholder in the texts of a paragraph by the
value of its key.  The values pass through {lit}`Matcher.replaceAll`, which expands them.

Main results:

- Theorem {lit}`flatMap_source_parts`: the parts of a text make up the text.
- Theorem {lit}`remap_literal_iff`: the texts whose values are inserted as they are.

Current gaps:

- A row is given by the texts of the runs of its first paragraph, and a value by its string
  form.
-/

namespace TestAio
namespace Template

open Library

/-! ## Placeholders -/

/-- {lit}`[a-zA-Z0-9]`. -/
def isKeyUnit (c : JChar) : Bool :=
  decide ((97 ≤ c ∧ c ≤ 122) ∨ (65 ≤ c ∧ c ≤ 90) ∨ (48 ≤ c ∧ c ≤ 57))

/-- The match of {lit}`PATTERN` for a key. -/
def placeholder (key : JString) : JString :=
  [dollar, 123] ++ key ++ [125]

/-- The key of the match of {lit}`PATTERN` at the front of a text. -/
def matchKey (text : JString) : Option JString :=
  let key := (text.drop 2).takeWhile isKeyUnit
  if text.take 2 = [dollar, 123] ∧ key ≠ [] ∧ (text.drop (2 + key.length)).head? = some 125 then
    some key
  else
    none

/-- The parts of a text. -/
inductive Part
  | unit (c : JChar)
  | placeholder (key : JString)

/-- The parts from the front; the first {lit}`skip` units belong to the last match. -/
def partsFrom : Nat → JString → List Part
  | _, [] => []
  | skip + 1, _ :: rest => partsFrom skip rest
  | 0, c :: rest =>
      match matchKey (c :: rest) with
      | some key => .placeholder key :: partsFrom (key.length + 2) rest
      | none => .unit c :: partsFrom 0 rest

/-- The matches of {lit}`PATTERN` and the units around them. -/
def parts (text : JString) : List Part :=
  partsFrom 0 text

/-! ## The replacement -/

/-- What {lit}`replaceAll` writes for a part. -/
def replacePart (replacer : JString → JString) : Part → Except ReplacementFailure JString
  | .unit c => .ok [c]
  | .placeholder key => expandReplacement (placeholder key) (replacer key)

/-- {lit}`matcher.replaceAll(replacer)`. -/
def replaceAll (replacer : JString → JString) (text : JString) :
    Except ReplacementFailure JString :=
  ((parts text).mapM (replacePart replacer)).map List.flatten

/-- {lit}`map.getOrDefault(key, "{" + key + "}")`. -/
def getOrDefault (map : JString → Option JString) (key : JString) : JString :=
  (map key).getD ([123] ++ key ++ [125])

/-- {lit}`WordTableTemplate.remap`: the texts of the paragraph afterwards. -/
def remap (map : JString → Option JString) (texts : List JString) :
    Except ReplacementFailure (List JString) :=
  texts.mapM (replaceAll (getOrDefault map))

/-! ## What the replacement should be -/

/-- A part with its value as it is. -/
def literalPart (replacer : JString → JString) : Part → JString
  | .unit c => [c]
  | .placeholder key => replacer key

/-- A text with every placeholder replaced by its value as it is, or by its key in braces. -/
def literal (map : JString → Option JString) (text : JString) : JString :=
  (parts text).flatMap (literalPart (getOrDefault map))

/-! ## The parts of a text -/

/-- The text of a part. -/
def Part.source : Part → JString
  | .unit c => [c]
  | .placeholder key => Template.placeholder key

/-- A match stands at the front of the text, and its key consists of letters and digits. -/
theorem matchKey_eq_some {text key : JString} (h : matchKey text = some key) :
    (∃ rest, text = placeholder key ++ rest) ∧ ∀ c ∈ key, isKeyUnit c = true := by
  unfold matchKey at h
  dsimp only at h
  split at h
  · rename_i hmatch
    rcases hmatch with ⟨htake, -, hbrace⟩
    have hkey := Option.some.inj h
    have hcut : text.drop 2 = key ++ (text.drop 2).dropWhile isKeyUnit := by
      rw [← hkey, List.takeWhile_append_dropWhile]
    have hbehind : text.drop (2 + key.length) = (text.drop 2).dropWhile isKeyUnit := by
      rw [← List.drop_drop, hcut, List.drop_left, ← hcut]
    rw [hkey, hbehind] at hbrace
    constructor
    · cases hrest : (text.drop 2).dropWhile isKeyUnit with
      | nil =>
          rw [hrest] at hbrace
          cases hbrace
      | cons c rest =>
          rw [hrest, List.head?_cons, Option.some.injEq] at hbrace
          apply Exists.intro rest
          rw [← List.take_append_drop 2 text, htake, hcut, hrest, hbrace, placeholder]
          simp
    · intro c hc
      rw [← hkey] at hc
      exact List.mem_takeWhile_imp hc
  · cases h

theorem length_placeholder (key : JString) : (placeholder key).length = key.length + 3 := by
  simp [placeholder]

theorem flatMap_source_partsFrom (skip : Nat) (text : JString) :
    (partsFrom skip text).flatMap Part.source = text.drop skip := by
  induction text generalizing skip with
  | nil =>
      rw [partsFrom, List.drop_nil]
      rfl
  | cons c text ih =>
      cases skip with
      | succ skip =>
          rw [partsFrom, List.drop_succ_cons]
          exact ih skip
      | zero =>
          rw [partsFrom, List.drop_zero]
          split
          · rename_i key hkey
            rcases (matchKey_eq_some hkey).1 with ⟨rest, hrest⟩
            have hdrop : text.drop (key.length + 2) = rest := by
              have h := congrArg (List.drop (key.length + 3)) hrest
              rwa [← length_placeholder, List.drop_left, length_placeholder,
                List.drop_succ_cons] at h
            rw [List.flatMap_cons, ih, hdrop]
            exact hrest.symm
          · rw [List.flatMap_cons, ih]
            rfl

/-- The parts of a text make up the text. -/
theorem flatMap_source_parts (text : JString) : (parts text).flatMap Part.source = text :=
  flatMap_source_partsFrom 0 text

theorem isKeyUnit_of_mem_partsFrom {skip : Nat} {text key : JString}
    (h : Part.placeholder key ∈ partsFrom skip text) : ∀ c ∈ key, isKeyUnit c = true := by
  induction text generalizing skip with
  | nil =>
      rw [partsFrom] at h
      cases h
  | cons c text ih =>
      cases skip with
      | succ skip => exact ih h
      | zero =>
          rw [partsFrom] at h
          split at h
          · rename_i key' hkey
            rcases List.mem_cons.mp h with heq | h
            · cases heq
              exact (matchKey_eq_some hkey).2
            · exact ih h
          · rcases List.mem_cons.mp h with heq | h
            · cases heq
            · exact ih h

/-! ## Which values are inserted as they are -/

/-- What is written for parts agrees with a shifted literal only if nothing is shifted and
every value is plain. -/
theorem plain_of_mapM {replacer : JString → JString} {ps : List Part} {written : List JString}
    (h : ps.mapM (replacePart replacer) = .ok written) {k : Nat}
    (heq : written.flatten = shifted k (ps.flatMap (literalPart replacer))) :
    k = 0 ∧ ∀ key, Part.placeholder key ∈ ps → Plain (replacer key) := by
  induction ps generalizing written k with
  | nil =>
      cases h
      cases k with
      | zero => exact ⟨rfl, fun key hkey => absurd hkey List.not_mem_nil⟩
      | succ k => cases heq
  | cons p ps ih =>
      rw [List.mapM_cons, Effects.bind_eq_ok_iff] at h
      rcases h with ⟨first, hfirst, h⟩
      rcases Effects.bind_eq_ok_iff.mp h with ⟨rest, hrest, hwritten⟩
      cases hwritten
      rw [List.flatten_cons, List.flatMap_cons] at heq
      cases p with
      | unit c =>
          cases hfirst
          have hplain : k = 0 ∧ rest.flatten = ps.flatMap (literalPart replacer) := by
            cases k with
            | zero => exact ⟨rfl, (List.cons.inj heq).2⟩
            | succ k =>
                -- a backslash of the text cannot make up for the shift
                rw [shifted_succ, literalPart, List.singleton_append, List.singleton_append,
                  List.cons.injEq] at heq
                rw [heq.1, shifted_cons_backslash] at heq
                exact absurd (ih hrest heq.2).1 (Nat.succ_ne_zero k)
          rcases hplain with ⟨hk, hrest'⟩
          apply And.intro hk
          intro key hkey
          rcases List.mem_cons.mp hkey with hkey | hkey
          · cases hkey
          · rw [← shifted_zero (ps.flatMap _)] at hrest'
            exact (ih hrest hrest').2 key hkey
      | placeholder key =>
          have hgroup : ∃ behind, placeholder key = dollar :: 123 :: behind := ⟨_, rfl⟩
          rcases plain_or_shifted hgroup hfirst heq with hvalue | hshifted
          · rcases hvalue with ⟨hk, hvalue, hrest'⟩
            apply And.intro hk
            intro other hother
            rcases List.mem_cons.mp hother with hother | hother
            · cases hother
              exact hvalue
            · rw [← shifted_zero (ps.flatMap _)] at hrest'
              exact (ih hrest hrest').2 other hother
          · rcases hshifted with ⟨j, hrest'⟩
            exact absurd (ih hrest hrest').1 (Nat.succ_ne_zero j)

theorem mapM_of_plain {replacer : JString → JString} {ps : List Part}
    (h : ∀ key, Part.placeholder key ∈ ps → Plain (replacer key)) :
    ps.mapM (replacePart replacer) = .ok (ps.map (literalPart replacer)) := by
  rw [Effects.mapM_eq_ok_iff, List.forall₂_map_right_iff, List.forall₂_same]
  intro p hp
  cases p with
  | unit c => rfl
  | placeholder key => exact expandReplacement_of_plain _ (h key hp)

/-- A text is filled literally exactly if the values of its placeholders are plain. -/
theorem replaceAll_literal_iff (replacer : JString → JString) (text : JString) :
    replaceAll replacer text = .ok ((parts text).flatMap (literalPart replacer)) ↔
      ∀ key, Part.placeholder key ∈ parts text → Plain (replacer key) := by
  unfold replaceAll
  constructor
  · intro h
    rcases Effects.map_eq_ok_iff.mp h with ⟨written, hwritten, heq⟩
    rw [← shifted_zero ((parts text).flatMap _)] at heq
    exact (plain_of_mapM hwritten heq).2
  · intro h
    rw [mapM_of_plain h]
    rfl

theorem plain_of_key {key : JString} (h : ∀ c ∈ key, isKeyUnit c = true) :
    Plain ([123] ++ key ++ [125]) := by
  have hspecial : isKeyUnit backslash = false ∧ isKeyUnit dollar = false := by decide
  have hnot : ∀ c, c ∈ [123] ++ key ++ [125] → c ≠ backslash ∧ c ≠ dollar := by
    intro c hc
    rw [List.mem_append, List.mem_append, List.mem_singleton, List.mem_singleton] at hc
    rcases hc with (rfl | hc) | rfl
    · decide
    · have hunit := h c hc
      constructor
      · intro heq
        rw [heq, hspecial.1] at hunit
        cases hunit
      · intro heq
        rw [heq, hspecial.2] at hunit
        cases hunit
    · decide
  exact ⟨fun hmem => (hnot _ hmem).1 rfl, fun hmem => (hnot _ hmem).2 rfl⟩

/-- The texts of a paragraph are filled literally, without an exception, exactly if no value
that is inserted contains a backslash or a dollar sign. -/
theorem remap_literal_iff (map : JString → Option JString) (texts : List JString) :
    remap map texts = .ok (texts.map (literal map)) ↔
      ∀ text ∈ texts, ∀ key, Part.placeholder key ∈ parts text →
        ∀ value, map key = some value → backslash ∉ value ∧ dollar ∉ value := by
  unfold remap
  rw [Effects.mapM_eq_ok_iff, List.forall₂_map_right_iff, List.forall₂_same]
  apply forall₂_congr
  intro text htext
  rw [literal, replaceAll_literal_iff]
  apply forall₂_congr
  intro key hkey
  unfold getOrDefault
  cases hvalue : map key with
  | none =>
      rw [Option.getD_none]
      apply iff_of_true (plain_of_key (isKeyUnit_of_mem_partsFrom hkey))
      intro value h
      cases h
  | some value =>
      rw [Option.getD_some]
      constructor
      · intro h other hother
        cases hother
        exact h
      · intro h
        exact h value rfl

/-- A price raises, and a path loses its backslash. -/
theorem remap_not_literal :
    remap (fun _ => some (jstr "US$")) [jstr "$\x7bword\x7d"] = .error .illegalArgument ∧
      remap (fun _ => some (jstr "a\\b")) [jstr "$\x7bword\x7d"] = .ok [jstr "ab"] ∧
      remap (fun _ => some (jstr "a\\b")) [jstr "$\x7bword\x7d"] ≠
        .ok ([jstr "$\x7bword\x7d"].map (literal fun _ => some (jstr "a\\b"))) := by
  decide

end Template
end TestAio
