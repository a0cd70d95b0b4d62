import TestAio.Library.Threaded
import TestAio.Main.Template.Remap

/-!
# Expanding the template of the document

{lit}`WordTemplate.generate` replaces the blocks of a document whose text is a placeholder.
Whether a block is one is decided by a search for {lit}`\$\{\S+}` anywhere in its text, but
the key is cut out of the whole text.

Main results:

- Theorem {lit}`find_of_exactKey`: a block whose text is exactly one placeholder is found, and
  its key is cut out.
- Theorem {lit}`generate_eq_expected`: documents without other matches are expanded as they
  should be, exceptions included.
- Theorem {lit}`generate_eq_expected_iff`: and they are the only ones.

Current gaps:

- Reading the files, the actions behind the expansion and saving are not modelled; the blocks,
  the XML library and the registered replacers are parameters.
-/

namespace TestAio
namespace Template

open Library Library.Threaded

/-! ## Recognising a placeholder -/

/-- {lit}`\S`. -/
def isNonSpace (c : JChar) : Bool :=
  decide (c ≠ 32 ∧ c ≠ 9 ∧ c ≠ 10 ∧ c ≠ 11 ∧ c ≠ 12 ∧ c ≠ 13)

/-- The pattern matches at the front of a text. -/
def matchesAt (text : JString) : Bool :=
  decide (text.take 2 = [dollar, 123] ∧ 125 ∈ ((text.drop 2).takeWhile isNonSpace).tail)

/-- {lit}`pattern.matcher(text).find()`. -/
def find : JString → Bool
  | [] => false
  | c :: rest => matchesAt (c :: rest) || find rest

/-! ## The loop -/

/-- What the loop reads: the text of a block, the {lit}`allow-` entries of the context, the
template map, the reader of XML and the registered replacers, which may change the rest of
the context. -/
structure Setting (Block Object σ ε : Type) where
  toText : Block → JString
  allow : JString → Option Int
  json : JString → Option (List JString)
  unmarshalString : JString → Except ε Object
  finder : JString → Option (List Object → σ → Except ε (List Object × σ))

/-- An element of {lit}`newList`: a block of the document itself, an empty paragraph, or an
object that was read from the template map. -/
inductive Item (Block Object : Type)
  | same (o : Block)
  | blank
  | made (object : Object)
deriving DecidableEq

variable {Block Object σ ε : Type} (setting : Setting Block Object σ ε)

/-- The elements for a key. -/
def expandKey (key : JString) (context : σ) : Except ε (List (Item Block Object) × σ) :=
  let emptyLines := (setting.allow key).getD 0
  if emptyLines ≥ 0 then
    .ok (List.replicate emptyLines.toNat .blank, context)
  else
    match setting.json key with
    | none => .ok ([], context)
    | some array =>
        (array.mapM setting.unmarshalString).bind fun append =>
          match setting.finder key with
          | none => .ok (append.map .made, context)
          | some replace => (replace append context).map fun result =>
              (result.1.map .made, result.2)

/-- The elements for a block. -/
def blockItems (o : Block) (context : σ) : Except ε (List (Item Block Object) × σ) :=
  let value := setting.toText o
  if find value then
    expandKey setting ((value.take (value.length - 1)).drop 2) context
  else
    .ok ([.same o], context)

/-- The new block list of {lit}`WordTemplate.generate`. -/
def generate (content : List Block) (context : σ) :
    Except ε (List (Item Block Object) × σ) :=
  thread (blockItems setting) content context

/-! ## What the loop should build -/

/-- The key of a text that is exactly one placeholder: the key is not empty and has neither
blanks nor a closing brace nor the start of another placeholder in it. -/
def exactKey (text : JString) : Option JString :=
  let key := (text.drop 2).dropLast
  if text = placeholder key ∧ key ≠ [] ∧ key.all isNonSpace = true ∧ 125 ∉ key ∧
      Search.contains key [dollar, 123] = false then
    some key
  else
    none

/-- The elements a block should have: its expansion if it is exactly one placeholder, and
otherwise the block. -/
def expectedItems (o : Block) (context : σ) : Except ε (List (Item Block Object) × σ) :=
  match exactKey (setting.toText o) with
  | some key => expandKey setting key context
  | none => .ok ([.same o], context)

/-- The block list that should be built. -/
def expected (content : List Block) (context : σ) :
    Except ε (List (Item Block Object) × σ) :=
  thread (expectedItems setting) content context

/-! ## Exact placeholders -/

/-- A text that is exactly one placeholder is found, and its key is cut out. -/
theorem find_of_exactKey {text key : JString} (h : exactKey text = some key) :
    find text = true ∧ (text.take (text.length - 1)).drop 2 = key := by
  unfold exactKey at h
  dsimp only at h
  split at h
  · rename_i hexact
    have hkey := Option.some.inj h
    rw [hkey] at hexact
    rcases hexact with ⟨htext, hne, hspace, -, -⟩
    rw [List.all_eq_true] at hspace
    cases key with
    | nil => exact absurd rfl hne
    | cons c key =>
        have hrun : ((c :: key) ++ [125]).takeWhile isNonSpace = (c :: key) ++ [125] := by
          rw [List.takeWhile_eq_self_iff]
          intro d hd
          rcases List.mem_append.mp hd with hd | hd
          · exact hspace d hd
          · rw [List.mem_singleton.mp hd]
            decide
        have htext' : text = dollar :: 123 :: ((c :: key) ++ [125]) := htext
        constructor
        · have hmatch : matchesAt (dollar :: 123 :: ((c :: key) ++ [125])) = true := by
            apply decide_eq_true
            apply And.intro rfl
            have hdrop : (dollar :: 123 :: ((c :: key) ++ [125])).drop 2 =
                (c :: key) ++ [125] := rfl
            rw [hdrop, hrun, List.cons_append, List.tail_cons]
            exact List.mem_append_right _ (List.mem_singleton_self _)
          rw [htext', find, hmatch, Bool.true_or]
        · rw [htext']
          have hlength : (dollar :: 123 :: ((c :: key) ++ [125])).length - 1 =
              (dollar :: 123 :: (c :: key)).length := by
            simp
          have hcut : dollar :: 123 :: ((c :: key) ++ [125]) =
              (dollar :: 123 :: (c :: key)) ++ [125] := rfl
          rw [hlength, hcut, List.take_left]
          rfl
  · cases h

/-! ## Blocks that stay -/

/-- An element is a block of the document. -/
def isSame : Item Block Object → Bool
  | .same _ => true
  | _ => false

/-- A key is never expanded to a block of the document. -/
theorem countP_isSame_expandKey {key : JString} {context : σ}
    {result : List (Item Block Object) × σ} (h : expandKey setting key context = .ok result) :
    result.1.countP isSame = 0 := by
  have hmade : ∀ objects : List Object,
      (objects.map (Item.made : Object → Item Block Object)).countP isSame = 0 := by
    intro objects
    rw [List.countP_map, List.countP_eq_zero]
    intro object _
    exact Bool.false_ne_true
  unfold expandKey at h
  dsimp only at h
  split at h
  · cases h
    rw [List.countP_replicate]
    exact if_neg Bool.false_ne_true
  · split at h
    · cases h
      rfl
    · rcases Effects.bind_eq_ok_iff.mp h with ⟨append, -, h⟩
      split at h
      · cases h
        exact hmade append
      · rcases Effects.map_eq_ok_iff.mp h with ⟨filled, -, rfl⟩
        exact hmade filled.1

/-- The loop keeps the blocks without a match. -/
theorem blockItems_marks :
    Marks isSame (fun o => !find (setting.toText o)) (blockItems setting) := by
  intro o context result h
  unfold blockItems at h
  dsimp only at h
  split at h
  · rename_i hfind
    rw [countP_isSame_expandKey setting h, if_neg]
    dsimp only
    rw [hfind]
    exact Bool.false_ne_true
  · rename_i hfind
    rw [Bool.not_eq_true] at hfind
    cases h
    rw [if_pos]
    · rfl
    · dsimp only
      rw [hfind, Bool.not_false]

/-- The blocks that are not exactly one placeholder should be kept. -/
theorem expectedItems_marks :
    Marks isSame (fun o => (exactKey (setting.toText o)).isNone) (expectedItems setting) := by
  intro o context result h
  unfold expectedItems at h
  split at h
  · rename_i key hkey
    rw [countP_isSame_expandKey setting h, if_neg]
    dsimp only
    rw [hkey]
    exact Bool.false_ne_true
  · rename_i hkey
    cases h
    rw [if_pos]
    · rfl
    · dsimp only
      rw [hkey, Option.isNone_none]

/-- A block is handled as it should be if it has no match or is exactly one placeholder. -/
theorem blockItems_eq_expectedItems {o : Block}
    (h : find (setting.toText o) = true → (exactKey (setting.toText o)).isSome = true) :
    blockItems setting o = expectedItems setting o := by
  ext context
  unfold blockItems expectedItems
  cases hkey : exactKey (setting.toText o) with
  | none =>
      have hfind : find (setting.toText o) = false := by
        rw [← Bool.not_eq_true]
        intro hfind
        have hsome := h hfind
        rw [hkey] at hsome
        cases hsome
      rw [if_neg (by rw [hfind]; exact Bool.false_ne_true)]
  | some key =>
      rcases find_of_exactKey hkey with ⟨hfind, hcut⟩
      rw [if_pos hfind, hcut]

/-! ## Which documents are expanded -/

/-- Every match in the document is in a block whose text is exactly one placeholder. -/
def OnlyExact (content : List Block) : Prop :=
  ∀ o ∈ content, find (setting.toText o) = true → (exactKey (setting.toText o)).isSome = true

/-- Such documents are expanded as they should be, exceptions included. -/
theorem generate_eq_expected {content : List Block} (h : OnlyExact setting content)
    (context : σ) : generate setting content context = expected setting content context :=
  thread_congr (fun o ho => blockItems_eq_expectedItems setting (h o ho)) context

/-- Where the expected block list can be built, the loop builds it, with the same context or with
any, exactly if every match is in a block whose text is exactly one placeholder. -/
theorem generate_eq_expected_iff (content : List Block) (context : σ)
    (newList : List (Item Block Object) × σ)
    (h : expected setting content context = .ok newList) :
    (generate setting content context = .ok newList ↔ OnlyExact setting content) ∧
      ((∃ context', generate setting content context = .ok (newList.1, context')) ↔
        OnlyExact setting content) := by
  have hkeep : ∀ o ∈ content, (!find (setting.toText o)) = true →
      (exactKey (setting.toText o)).isNone = true := by
    intro o _ hnot
    rw [Bool.not_eq_true'] at hnot
    rw [Option.isNone_iff_eq_none]
    cases hkey : exactKey (setting.toText o) with
    | none => rfl
    | some key =>
        rw [(find_of_exactKey hkey).1] at hnot
        cases hnot
  have hsame : ∀ o ∈ content, (!find (setting.toText o)) = (exactKey (setting.toText o)).isNone →
      blockItems setting o = expectedItems setting o := by
    intro o _ heq
    apply blockItems_eq_expectedItems
    intro hfind
    rw [hfind, Bool.not_true, eq_comm, Option.isNone_eq_false_iff] at heq
    exact heq
  have hagree := thread_agree_iff (blockItems_marks setting) (expectedItems_marks setting)
    hkeep hsame h
  suffices hexact : (∀ o ∈ content, (exactKey (setting.toText o)).isNone = true →
      (!find (setting.toText o)) = true) ↔ OnlyExact setting content from
    ⟨hagree.1.trans hexact, hagree.2.trans hexact⟩
  apply forall₂_congr
  intro o _
  rw [Bool.not_eq_true', Option.isNone_iff_eq_none]
  cases find (setting.toText o) with
  | false =>
      apply iff_of_true (fun _ => rfl)
      intro hfind
      cases hfind
  | true =>
      rw [Option.isSome_iff_ne_none]
      constructor
      · intro hnone _ hkey
        cases hnone hkey
      · intro hsome hkey
        exact absurd hkey (hsome rfl)

/-- Two empty lines are allowed for the tips, and the table of the words is in the template
map; its replacer fills it. -/
def sampleSetting : Setting JString JString Unit Unit where
  toText := id
  allow := fun key =>
    if key = jstr "tip" then some 2 else if key = jstr "word" then some (-1) else none
  json := fun key => if key = jstr "word" then some [jstr "table"] else none
  unmarshalString := .ok
  finder := fun key =>
    if key = jstr "word" then some fun _ context => .ok ([jstr "filled"], context) else none

/-- The heading stays, the tips become two empty lines, and the table is filled. -/
theorem generate_sample :
    generate sampleSetting [jstr "Words", jstr "$\x7btip\x7d", jstr "$\x7bword\x7d"] () =
      .ok ([.same (jstr "Words"), .blank, .blank, .made (jstr "filled")], ()) :=
  (generate_eq_expected_iff sampleSetting
    [jstr "Words", jstr "$\x7btip\x7d", jstr "$\x7bword\x7d"] ()
    ([.same (jstr "Words"), .blank, .blank, .made (jstr "filled")], ())
    (by decide +kernel)).1.mpr (by
      intro o ho _
      rw [List.mem_cons, List.mem_cons, List.mem_singleton] at ho
      rcases ho with rfl | rfl | rfl
      · contradiction
      · decide +kernel
      · decide +kernel)

/-- A salutation with a placeholder in it, and two placeholders in one paragraph, should stay,
and they vanish. -/
theorem generate_not_expected :
    generate sampleSetting [jstr "Dear $\x7bname\x7d,"] () = .ok ([], ()) ∧
      expected sampleSetting [jstr "Dear $\x7bname\x7d,"] () =
        .ok ([.same (jstr "Dear $\x7bname\x7d,")], ()) ∧
      generate sampleSetting [jstr "$\x7bword\x7d $\x7bword\x7d"] () = .ok ([], ()) ∧
      expected sampleSetting [jstr "$\x7bword\x7d $\x7bword\x7d"] () =
        .ok ([.same (jstr "$\x7bword\x7d $\x7bword\x7d")], ()) := by
  apply And.intro (by decide +kernel)
  apply And.intro (by decide +kernel)
  apply And.intro
  · decide +kernel
  · decide +kernel

end Template
end TestAio
