import TestAio.Library.Effects
import TestAio.Util.DocUtil.Convert

/-!
# The pieces of a text

A text node is cut in up to three passes: at its line feeds, at the bold words and
at the italic words.  This module says what the nodes that come out look like.

Main results:

- Theorem {lit}`cutText_forall`: what every cut hands on holds of every piece.
- Theorem {lit}`cutText_values`: the pieces join to the text.
- Theorem {lit}`cutText_italicised`: an italic piece stands for its word.
- Theorem {lit}`exists_cutText`: with non-empty words the passes end.

Current gaps:

- None.
-/

namespace TestAio
namespace DocUtil

open Library

/-- The word that stands for a line feed. -/
def lineFeed : WordNode := .ofWord (jstr "\n")

/-- The passes that a text takes: cut at line feeds, at the bold words and at the
italic words, where an empty list of words takes no pass. -/
theorem cutText_eq_ok_iff {fuel : Nat} {value : JString} {bolds italics : List WordNode}
    {results : List PassageNode} :
    cutText fuel value bolds italics = .ok results ↔
      ∃ lines marked,
        parsePassage fuel [{ value := value }] [lineFeed] .nextLine false =
          some lines ∧
        (if bolds.isEmpty then marked = lines
          else parsePassage fuel lines bolds .bold true = some marked) ∧
        (if italics.isEmpty then results = marked
          else parsePassage fuel marked italics .italic true = some results) := by
  have helim : ∀ (o : Option (List PassageNode)) (r : List PassageNode),
      o.elim (Except.error Abort.outOfFuel) Except.ok = .ok r ↔ o = some r := by
    intro o r
    cases o <;> simp
  have hok : ∀ r results : List PassageNode,
      (Except.ok r : Except Abort _) = .ok results ↔ results = r := by
    intro r results
    rw [Except.ok.injEq, eq_comm]
  cases hbolds : bolds.isEmpty <;> cases hitalics : italics.isEmpty <;>
    simp [cutText, lineFeed, Effects.bind_eq_ok_iff, helim, hok, hbolds, hitalics]

/-- A property that the start and all cuts hand on holds of every piece. -/
theorem cutText_forall {P : PassageNode → Prop} {fuel : Nat} {value : JString}
    {bolds italics : List WordNode} {results : List PassageNode}
    (h : cutText fuel value bolds italics = .ok results) (hstart : P { value := value })
    (hcut : ∀ words flag letter node parts, (flag = .nextLine → words = [lineFeed]) →
      cutNode words flag letter node = some parts → P node → ∀ part ∈ parts, P part) :
    ∀ node ∈ results, P node := by
  have hpass : ∀ {nodes results words flag letter}, (flag = .nextLine → words = [lineFeed]) →
      parsePassage fuel nodes words flag letter = some results →
      (∀ node ∈ nodes, P node) → ∀ node ∈ results, P node := by
    intro nodes results words flag letter hwords hrun hnodes
    rw [parsePassage_eq_run] at hrun
    exact (WorkList.run_eq_some_iff.mp ⟨fuel, hrun⟩).forall_mem
      (fun node parts => hcut words flag letter node parts hwords) hnodes
  rcases cutText_eq_ok_iff.mp h with ⟨lines, marked, hlines, hmarked, hresults⟩
  have hkept : ∀ node ∈ lines, P node := hpass (fun _ => rfl) hlines (by simpa using hstart)
  have hkept' : ∀ node ∈ marked, P node := by
    split_ifs at hmarked
    · exact hmarked ▸ hkept
    · exact hpass (by simp) hmarked hkept
  split_ifs at hresults
  · exact hresults ▸ hkept'
  · exact hpass (by simp) hresults hkept'

/-- The pieces join to the text. -/
theorem cutText_values {fuel : Nat} {value : JString} {bolds italics : List WordNode}
    {results : List PassageNode} (h : cutText fuel value bolds italics = .ok results) :
    results.flatMap PassageNode.value = value := by
  rcases cutText_eq_ok_iff.mp h with ⟨lines, marked, hlines, hmarked, hresults⟩
  have hvalue : lines.flatMap PassageNode.value = value := by
    simpa using parsePassage_values hlines
  have hvalue' : marked.flatMap PassageNode.value = value := by
    split_ifs at hmarked
    · rw [hmarked, hvalue]
    · rw [parsePassage_values hmarked, hvalue]
  split_ifs at hresults
  · rw [hresults, hvalue']
  · rw [parsePassage_values hresults, hvalue']

/-! ## Shapes of pieces -/

/-- An italic node is a finished one that stands for its word. -/
def PassageNode.Italicised (node : PassageNode) : Prop :=
  node.italic = true →
    node.parsed = true ∧ ∃ wordNode, node.wordNode = some wordNode ∧ node.value = wordNode.word

/-- A node that starts a paragraph stands for a line feed. -/
def PassageNode.BreaksAtLineFeed (node : PassageNode) : Prop :=
  node.nextLine = true → node.value = jstr "\n"

/-- The parts of a cut: plain nodes, which inherit the style, and the marked word. -/
theorem cutNode_forall {P : PassageNode → Prop} {words : List WordNode} {flag : Flag}
    {letter : Bool} {node : PassageNode} {parts : List PassageNode}
    (hcut : cutNode words flag letter node = some parts)
    (hplain : ∀ value, P { value := value, bold := node.bold, italic := node.italic })
    (hword : ∀ word ∈ words,
      P (markWord flag word { value := word.word, bold := node.bold, italic := node.italic })) :
    ∀ part ∈ parts, P part := by
  rcases cutNode_eq_some_iff.mp hcut with ⟨-, word, before, after, hmatch, -, rfl⟩
  have hplainPart : ∀ value, ∀ part ∈ plainPart node value, P part := by
    intro value part hpart
    unfold plainPart at hpart
    split_ifs at hpart
    · simp at hpart
    · exact List.mem_singleton.mp hpart ▸ hplain value
  have hwordPart : ∀ part ∈ wordPart node flag word, P part := by
    intro part hpart
    unfold wordPart at hpart
    split_ifs at hpart
    · simp at hpart
    · exact List.mem_singleton.mp hpart ▸ hword word (matchWord_spec hmatch).1
  intro part hpart
  rcases List.mem_append.mp hpart with hpart | hpart
  · rcases List.mem_append.mp hpart with hpart | hpart
    · exact hplainPart _ _ hpart
    · exact hwordPart _ hpart
  · exact hplainPart _ _ hpart

theorem cutText_italicised {fuel : Nat} {value : JString} {bolds italics : List WordNode}
    {results : List PassageNode} (h : cutText fuel value bolds italics = .ok results) :
    ∀ node ∈ results, node.Italicised := by
  refine cutText_forall h (by simp [PassageNode.Italicised]) ?_
  intro words flag letter node parts _ hcut hnode
  -- A node that is still cut is not finished, so it is not italic.
  have hitalic : node.italic = false := by
    rw [← Bool.not_eq_true]
    intro hit
    have hparsed := (cutNode_eq_some_iff.mp hcut).1
    rw [(hnode hit).1] at hparsed
    contradiction
  refine cutNode_forall hcut (fun value hit => ?_) (fun word _ _ => ?_)
  · rw [hitalic] at hit
    contradiction
  · exact ⟨rfl, word, rfl, markWord_value _ _ _⟩

theorem cutText_breaksAtLineFeed {fuel : Nat} {value : JString} {bolds italics : List WordNode}
    {results : List PassageNode} (h : cutText fuel value bolds italics = .ok results) :
    ∀ node ∈ results, node.BreaksAtLineFeed := by
  refine cutText_forall h (by simp [PassageNode.BreaksAtLineFeed]) ?_
  intro words flag letter node parts hwords hcut _
  refine cutNode_forall hcut (fun value hnext => ?_) (fun word hword hnext => ?_)
  · contradiction
  · cases flag with
    | nextLine =>
        rw [hwords rfl, List.mem_singleton] at hword
        rw [hword]
        rfl
    | bold => contradiction
    | italic => contradiction

/-! ## Termination -/

/-- With non-empty words a pass never adds weight. -/
theorem parsePassage_weight_le {fuel : Nat} {nodes results : List PassageNode}
    {words : List WordNode} {flag : Flag} {letter : Bool}
    (hwords : ∀ word ∈ words, word.word ≠ [])
    (h : parsePassage fuel nodes words flag letter = some results) :
    (results.map PassageNode.weight).sum ≤ (nodes.map PassageNode.weight).sum := by
  rw [parsePassage_eq_run] at h
  exact (WorkList.run_eq_some_iff.mp ⟨fuel, h⟩).weight_le
    fun node parts hcut => (cutNode_weight_lt hwords node parts hcut).le

/-- With non-empty words the passes over a text end. -/
theorem exists_cutText {fuel : Nat} {value : JString} {bolds italics : List WordNode}
    (hbolds : ∀ word ∈ bolds, word.word ≠ []) (hitalics : ∀ word ∈ italics, word.word ≠ [])
    (hfuel : 3 * value.length + 1 ≤ fuel) :
    ∃ results, cutText fuel value bolds italics = .ok results := by
  have hlineFeed : ∀ word ∈ [lineFeed], word.word ≠ [] := by
    intro word hword
    rw [List.mem_singleton.mp hword]
    decide
  have hweight : (([{ value := value }] : List PassageNode).map PassageNode.weight).sum ≤
      fuel := by
    simpa [PassageNode.weight] using hfuel
  rcases Option.isSome_iff_exists.mp
    (parsePassage_isSome .nextLine false hlineFeed hweight) with ⟨lines, hlines⟩
  have hweight' := (parsePassage_weight_le hlineFeed hlines).trans hweight
  rcases Option.isSome_iff_exists.mp
    (parsePassage_isSome .bold true hbolds hweight') with ⟨bolded, hbolded⟩
  have hweight'' := (parsePassage_weight_le hbolds hbolded).trans hweight'
  let marked := if bolds.isEmpty then lines else bolded
  have hmarked : (marked.map PassageNode.weight).sum ≤ fuel := by
    unfold marked
    split_ifs
    · exact hweight'
    · exact hweight''
  rcases Option.isSome_iff_exists.mp
    (parsePassage_isSome .italic true hitalics hmarked) with ⟨slanted, hslanted⟩
  refine ⟨if italics.isEmpty then marked else slanted, ?_⟩
  refine cutText_eq_ok_iff.mpr ⟨lines, marked, hlines, ?_, ?_⟩
  · unfold marked
    split_ifs
    · rfl
    · exact hbolded
  · split_ifs
    · rfl
    · exact hslanted

end DocUtil
end TestAio
