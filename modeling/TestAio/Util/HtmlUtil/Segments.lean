import TestAio.Library.Tokens
import TestAio.Util.HtmlUtil.TextPreservation

/-!
# The segments of an article

The tokeniser works unit by unit with a pending word and a flag.  What it is meant to do is
about segments of the passage: the maximal runs of letters outside tags, the other units
outside tags, and what stands behind a {lit}`<` up to the next {lit}`>`.

Main results:

- Theorem {lit}`resolveLoop_segments`: the loop writes the passage segment by segment.
- Theorem {lit}`resolvePassage_marks_words`: a run outside tags is bold, italic with a mark or
  bare as the lists say, and everything else is copied.

Current gaps:

- A {lit}`<` that is never closed opens a tag up to the end of the passage, as in the code.
-/

namespace TestAio
namespace HtmlUtil

open Library Library.Tokens

/-! ## Segments -/

/-- A segment of a passage. -/
inductive Segment
  /-- A maximal run of letters outside tags. -/
  | word (word : JString)
  /-- A unit outside tags that is no letter; the {lit}`<` that opens a tag is one. -/
  | separator (c : JChar)
  /-- A unit behind a {lit}`<`, up to the next {lit}`>`. -/
  | tag (c : JChar)
deriving DecidableEq

/-- The segments of a passage that is given by its runs of letters and its other units;
{lit}`inside` tells whether it starts in a tag. -/
def segments (inside : Bool) : List JString → List Segment
  | [] => []
  | token :: rest =>
      if inside then
        token.map .tag ++ segments (insideTag true token) rest
      else if token.all isLetterUnit then
        .word token :: segments false rest
      else
        token.map .separator ++ segments (insideTag false token) rest

/-- How a unit outside the words is copied. -/
def separator (c : JChar) : Append :=
  if c.toNat == 32 then .nbsp else .codePoint c.toNat

/-- What the loop writes for a sequence of segments. -/
def writeSegments (studyWords : List JString) (overWords : List WordNode) :
    List WordNode → List Segment → List Append
  | _, [] => []
  | nodes, .word word :: rest =>
      (emitWord studyWords overWords nodes word).1 ::
        writeSegments studyWords overWords (emitWord studyWords overWords nodes word).2 rest
  | nodes, .separator c :: rest => separator c :: writeSegments studyWords overWords nodes rest
  | nodes, .tag c :: rest => .codePoint c.toNat :: writeSegments studyWords overWords nodes rest

variable {studyWords : List JString} {overWords : List WordNode}

theorem codePointUnits_toNat (c : JChar) : codePointUnits c.toNat = [c] := by
  unfold codePointUnits
  rw [if_pos c.toNat_lt, UInt16.ofNat_toNat]

theorem segments_word {word : JString} (rest : List JString)
    (hword : ∀ c ∈ word, isLetterUnit c = true) :
    segments false (word :: rest) = .word word :: segments false rest := by
  rw [segments, if_neg (by simp), if_pos (List.all_eq_true.mpr hword)]

theorem segments_separator {c : JChar} (rest : List JString) (hc : isLetterUnit c = false) :
    segments false ([c] :: rest) = .separator c :: segments (insideTag false [c]) rest := by
  rw [segments, if_neg (by simp), if_neg (by simp [hc])]
  rfl

/-- Letters do not close a tag. -/
theorem insideTag_of_letters {text : JString} (h : ∀ c ∈ text, isLetterUnit c = true)
    (inside : Bool) : insideTag inside text = inside := by
  induction text with
  | nil => rfl
  | cons c text ih =>
      have hne : c ≠ 60 ∧ c ≠ 62 := by
        have hc := h c List.mem_cons_self
        constructor <;> rintro rfl <;> revert hc <;> decide
      have hstep : insideTag inside (c :: text) = insideTag inside text := by
        rw [insideTag, List.foldl_cons, if_neg hne.1, if_neg hne.2]
        rfl
      rw [hstep, ih fun d hd => h d (List.mem_cons_of_mem _ hd)]

/-- Inside a tag the units are copied one by one. -/
theorem segments_inside (c : JChar) (text : JString) :
    segments true (tokens isLetterUnit (c :: text)) =
      .tag c :: segments (insideTag true [c]) (tokens isLetterUnit text) := by
  by_cases hc : isLetterUnit c = true
  · -- The run that starts here goes on with the letters in front of the rest.
    let word := text.takeWhile isLetterUnit
    let after := text.dropWhile isLetterUnit
    have htext : text = word ++ after := List.takeWhile_append_dropWhile.symm
    have hword : ∀ d ∈ word, isLetterUnit d = true := fun d hd => List.mem_takeWhile_imp hd
    have hafter : ∀ d ∈ after.head?, isLetterUnit d = false := by
      intro d hd
      have hhead := List.head?_dropWhile_not isLetterUnit text
      rw [Option.mem_def.mp hd] at hhead
      exact hhead
    have hone : insideTag true [c] = true := insideTag_of_letters (by simpa using hc) true
    have hrun : IsWord isLetterUnit (c :: word) :=
      ⟨List.cons_ne_nil _ _, by simpa [hc] using hword⟩
    rw [htext, ← List.cons_append, tokens_word_append hrun hafter, segments, if_pos rfl,
      insideTag_of_letters hrun.letters, hone]
    by_cases hnil : word = []
    · simp [hnil]
    · rw [tokens_word_append ⟨hnil, hword⟩ hafter, segments, if_pos rfl,
        insideTag_of_letters hword]
      rfl
  · rw [tokens_cons_of_not_letter (by simpa using hc), segments, if_pos rfl]
    rfl

/-! ## The loop writes segments -/

/-- Without a surrogate pair the unit is read. -/
theorem codePointAt_eq_toNat {c : JChar} {text : JString}
    (h : hasSurrogatePair (c :: text) = false) :
    codePointAt c text = c.toNat ∧ hasSurrogatePair text = false := by
  cases text with
  | nil => exact ⟨rfl, rfl⟩
  | cons d text =>
      rw [hasSurrogatePair, Bool.or_eq_false_iff] at h
      refine ⟨?_, h.2⟩
      rw [codePointAt, if_neg (by rw [h.1]; exact Bool.false_ne_true)]

/-- The pending word ends in front of a unit that is no letter. -/
theorem flushWord_eq {st : ResolveState} (hst : Pending st) (c : JChar)
    (hc : isLetterUnit c = false) (text : JString) :
    st.builder ++ writeSegments studyWords overWords st.nodes
        (segments (!st.append) (tokens isLetterUnit (st.wordBuilder ++ c :: text))) =
      (flushWord studyWords overWords st).builder ++
        writeSegments studyWords overWords (flushWord studyWords overWords st).nodes
          (segments (!st.append) ([c] :: tokens isLetterUnit text)) := by
  by_cases hempty : st.wordBuilder = []
  · have hflush : flushWord studyWords overWords st = st := by rw [flushWord, if_pos hempty]
    rw [hflush, hempty, List.nil_append, tokens_cons_of_not_letter hc]
  · have happend : st.append = true := by
      rw [← Bool.not_eq_false]
      exact fun hinside => hempty (hst.outside hinside)
    rw [tokens_word_append ⟨hempty, hst.letters⟩ (by simpa using hc),
      tokens_cons_of_not_letter hc, happend, Bool.not_true, segments_word _ hst.letters,
      writeSegments]
    simp [flushWord, hempty]

theorem endsInLetter_tail {c : JChar} {text : JString}
    (h : endsInLetter (c :: text) = false) : endsInLetter text = false := by
  cases text with
  | nil => rfl
  | cons d text =>
      rw [endsInLetter, List.getLast?_cons_cons] at h
      exact h

/-- The flag behind a copied unit. -/
theorem copySeparator_append (st : ResolveState) (c : JChar) :
    (copySeparator st c.toNat).append = !insideTag (!st.append) [c] := by
  have h60 : c.toNat = 60 ↔ c = 60 := @UInt16.toNat_inj c 60
  have h62 : c.toNat = 62 ↔ c = 62 := @UInt16.toNat_inj c 62
  rw [copySeparator, insideTag, List.foldl_cons, List.foldl_nil]
  simp only [h60, h62]
  split_ifs <;> simp

/-- Outside a tag a letter joins the pending word. -/
theorem resolveStep_letter_outside {st : ResolveState} {c : JChar} (hletter : isLetterUnit c = true)
    (happend : st.append = true) :
    resolveStep studyWords overWords st c.toNat =
      { st with wordBuilder := st.wordBuilder ++ [c] } := by
  have hstep : resolveStep studyWords overWords st c.toNat = readLetter st c.toNat :=
    if_pos hletter
  rw [hstep, readLetter, if_pos happend, codePointUnits_toNat]

/-- Inside a tag it is copied. -/
theorem resolveStep_letter_inside {st : ResolveState} {c : JChar} (hletter : isLetterUnit c = true)
    (happend : st.append = false) :
    resolveStep studyWords overWords st c.toNat =
      { st with builder := st.builder ++ [.codePoint c.toNat] } := by
  have hstep : resolveStep studyWords overWords st c.toNat = readLetter st c.toNat :=
    if_pos hletter
  rw [hstep, readLetter, if_neg (by simp [happend])]

/-- Any other unit writes the pending word and is copied. -/
theorem resolveStep_separator {st : ResolveState} {c : JChar} (hc : isLetterUnit c = false) :
    resolveStep studyWords overWords st c.toNat =
      copySeparator (flushWord studyWords overWords st) c.toNat := by
  have hletter : ¬ isLetterUnit c = true := by simpa using hc
  exact if_neg hletter

/-- The loop writes the segments of the pending word and of what it still reads. -/
theorem resolveLoop_segments {st : ResolveState} {text : JString} (hst : Pending st)
    (hpair : hasSurrogatePair text = false)
    (hends : endsInLetter (st.wordBuilder ++ text) = false) :
    (resolveLoop studyWords overWords st text).builder =
      st.builder ++ writeSegments studyWords overWords st.nodes
        (segments (!st.append) (tokens isLetterUnit (st.wordBuilder ++ text))) := by
  induction text generalizing st with
  | nil =>
      have hnil : st.wordBuilder = [] := by
        by_contra hne
        rw [List.append_nil, endsInLetter, List.getLast?_eq_some_getLast hne, Option.any_some,
          hst.letters _ (List.getLast_mem hne)] at hends
        exact Bool.noConfusion hends
      rw [hnil]
      exact (List.append_nil _).symm
  | cons c text ih =>
      rcases codePointAt_eq_toNat hpair with ⟨hpoint, hpair'⟩
      have hst' := hst.resolveStep studyWords overWords c.toNat
      rw [resolveLoop, hpoint]
      cases hletter : isLetterUnit c with
      | true =>
          cases happend : st.append with
          | true =>
              have htext : st.wordBuilder ++ [c] ++ text = st.wordBuilder ++ c :: text := by simp
              rw [resolveStep_letter_outside hletter happend] at hst' ⊢
              have hrest := ih hst' hpair' (by rw [htext]; exact hends)
              rw [htext] at hrest
              rw [hrest, happend]
          | false =>
              have hnil : st.wordBuilder = [] := hst.outside happend
              have hone : insideTag true [c] = true :=
                insideTag_of_letters (by simpa using hletter) true
              have hlast : endsInLetter (st.wordBuilder ++ text) = false := by
                rw [hnil, List.nil_append] at hends ⊢
                exact endsInLetter_tail hends
              rw [resolveStep_letter_inside hletter happend] at hst' ⊢
              rw [ih hst' hpair' hlast, hnil, List.nil_append, happend, Bool.not_false,
                List.nil_append, segments_inside, hone, writeSegments]
              simp
      | false =>
          have hpending :
              (copySeparator (flushWord studyWords overWords st) c.toNat).wordBuilder = [] := by
            simp [copySeparator]
          have hlast : endsInLetter
              ((copySeparator (flushWord studyWords overWords st) c.toNat).wordBuilder ++ text) =
                false := by
            rw [hpending, List.nil_append]
            rw [endsInLetter, List.getLast?_append_of_ne_nil _ (List.cons_ne_nil _ _)] at hends
            exact endsInLetter_tail hends
          have hflag : (copySeparator (flushWord studyWords overWords st) c.toNat).append =
              !insideTag (!st.append) [c] := by
            rw [copySeparator_append, flushWord_append]
          rw [resolveStep_separator hletter] at hst' ⊢
          rw [ih hst' hpair' hlast, hpending, List.nil_append, flushWord_eq hst c hletter, hflag,
            Bool.not_not]
          cases happend : st.append with
          | true =>
              rw [Bool.not_true, segments_separator _ hletter, writeSegments]
              simp [copySeparator, separator, happend]
          | false =>
              rw [Bool.not_false, segments, if_pos rfl, List.map_singleton, List.singleton_append,
                writeSegments]
              simp [copySeparator, happend]

/-! ## What the markup says -/

/-- The passage text of a segment. -/
def Segment.text : Segment → JString
  | .word w => w
  | .separator c => [c]
  | .tag c => [c]

/-- The segments cover the text they are cut from. -/
theorem flatMap_segments (inside : Bool) (ts : List JString) :
    (segments inside ts).flatMap Segment.text = ts.flatten := by
  induction ts generalizing inside with
  | nil => rfl
  | cons token rest ih =>
      have hunits : ∀ f : JChar → Segment, (∀ c, (f c).text = [c]) →
          (token.map f).flatMap Segment.text = token := by
        intro f hf
        rw [List.flatMap_map]
        simp only [hf]
        exact List.flatMap_pure_eq_map id token |>.trans (List.map_id _)
      rw [segments, List.flatten_cons]
      split_ifs
      · rw [List.flatMap_append, hunits _ fun _ => rfl, ih]
      · rw [List.flatMap_cons, ih]
        rfl
      · rw [List.flatMap_append, hunits _ fun _ => rfl, ih]

variable (studyWords overWords) in
/-- How a segment should be printed. -/
inductive Printed : Segment → JString → Prop
  /-- A study word is bold. -/
  | bold {word : JString} : word ∈ studyWords →
      Printed (.word word) (jstr "<b>" ++ word ++ jstr "</b>")
  /-- An over-word is italic and one mark follows it. -/
  | italic {word : JString} {node : WordNode} (num : Nat) : word ∉ studyWords →
      node ∈ overWords → node.word = word →
      Printed (.word word) (jstr "<i>" ++ word ++ jstr "</i>" ++
        jstr "<sup>[" ++ decimal num ++ jstr "]</sup>")
  /-- Another word is bare. -/
  | bare {word : JString} : word ∉ studyWords → (∀ node ∈ overWords, node.word ≠ word) →
      Printed (.word word) word
  /-- A space is a U+00A0. -/
  | space : Printed (.separator 32) [160]
  /-- Another unit outside tags is copied. -/
  | separator {c : JChar} : c ≠ 32 → Printed (.separator c) [c]
  /-- A tag is copied. -/
  | tag {c : JChar} : Printed (.tag c) [c]

/-- A word is printed as the lists say. -/
theorem printed_emitWord (nodes : List WordNode) (word : JString) :
    Printed studyWords overWords (.word word)
      (emitWord studyWords overWords nodes word).1.units := by
  by_cases hstudy : word ∈ studyWords
  · rw [emitWord, if_pos (List.contains_iff_mem.mpr hstudy)]
    exact .bold hstudy
  · rw [emitWord, if_neg (by rwa [List.contains_iff_mem])]
    cases hfind : findWord overWords word with
    | some node =>
        exact .italic _ hstudy (List.mem_of_find?_eq_some hfind) (word_of_findWord hfind)
    | none =>
        refine .bare hstudy fun node hnode hword => ?_
        have hnone := List.find?_eq_none.mp hfind node hnode
        exact hnone (beq_iff_eq.mpr hword.symm)

theorem printed_separator (c : JChar) :
    Printed studyWords overWords (.separator c) (separator c).units := by
  unfold separator
  split
  · rename_i hspace
    have hc : c = 32 := @UInt16.toNat_inj c 32 |>.mp (beq_iff_eq.mp hspace)
    rw [hc]
    exact .space
  · rename_i hspace
    have hne : c ≠ 32 := by
      rintro rfl
      exact hspace rfl
    rw [Append.units, codePointUnits_toNat]
    exact .separator hne

/-- Every segment is printed as it should. -/
theorem printed_writeSegments (nodes : List WordNode) (ss : List Segment) :
    List.Forall₂ (Printed studyWords overWords) ss
      ((writeSegments studyWords overWords nodes ss).map Append.units) := by
  induction ss generalizing nodes with
  | nil => exact .nil
  | cons segment ss ih =>
      cases segment with
      | word word => exact .cons (printed_emitWord nodes word) (ih _)
      | separator c => exact .cons (printed_separator c) (ih nodes)
      | tag c =>
          refine .cons ?_ (ih nodes)
          rw [Append.units, codePointUnits_toNat]
          exact .tag

/-! ## A passage in parts -/

theorem hasSurrogatePair_append {x y : JString} (h : hasSurrogatePair (x ++ y) = false) :
    hasSurrogatePair x = false ∧ hasSurrogatePair y = false := by
  induction x with
  | nil => exact ⟨rfl, h⟩
  | cons c x ih =>
      rw [List.cons_append] at h
      have htail := ih (codePointAt_eq_toNat h).2
      refine ⟨?_, htail.2⟩
      cases x with
      | nil => rfl
      | cons d x =>
          rw [List.cons_append, hasSurrogatePair, Bool.or_eq_false_iff] at h
          rw [hasSurrogatePair, h.1, htail.1, Bool.or_false]

/-- No surrogate pair is cut between two texts. -/
def Uncut (x y : JString) : Prop :=
  ∀ c ∈ x.getLast?, ∀ d ∈ y.head?, (isHighSurrogate c && isLowSurrogate d) = false

theorem codePointAt_append {c : JChar} {x y : JString} (h : Uncut (c :: x) y) :
    codePointAt c (x ++ y) = codePointAt c x := by
  cases x with
  | cons e x => rfl
  | nil =>
      cases y with
      | nil => rfl
      | cons d y =>
          have hpair := h c rfl d rfl
          rw [List.nil_append, codePointAt, codePointAt, hpair, if_neg Bool.false_ne_true]

/-- The loop reads a passage in parts. -/
theorem resolveLoop_concat {x y : JString} (h : Uncut x y) (st : ResolveState) :
    resolveLoop studyWords overWords st (x ++ y) =
      resolveLoop studyWords overWords (resolveLoop studyWords overWords st x) y := by
  induction x generalizing st with
  | nil => rfl
  | cons c x ih =>
      have htail : Uncut x y := by
        cases x with
        | nil => exact fun d hd => absurd hd (Option.not_mem_none d)
        | cons e x => exact h
      rw [List.cons_append, resolveLoop, codePointAt_append h, ih htail]
      rfl

/-- One step only appends. -/
theorem prefix_resolveStep (st : ResolveState) (c : Nat) :
    st.builder <+: (resolveStep studyWords overWords st c).builder := by
  have hflush : st.builder <+: (flushWord studyWords overWords st).builder := by
    unfold flushWord
    split
    · exact List.prefix_refl _
    · exact List.prefix_append _ _
  unfold resolveStep
  split
  · unfold readLetter
    split
    · exact List.prefix_refl _
    · exact List.prefix_append _ _
  · exact hflush.trans (List.prefix_append _ _)

/-- What has been written stays. -/
theorem prefix_resolveLoop (st : ResolveState) (p : JString) :
    st.builder <+: (resolveLoop studyWords overWords st p).builder := by
  induction p generalizing st with
  | nil => exact List.prefix_refl _
  | cons c p ih => exact (prefix_resolveStep st _).trans (ih _)

/-- A text that is copied as it is. -/
def copied (text : JString) : List Append :=
  text.map fun c => .codePoint c.toNat

theorem copied_units (text : JString) : (copied text).flatMap Append.units = text := by
  induction text with
  | nil => rfl
  | cons c text ih =>
      rw [copied, List.map_cons, List.flatMap_cons, Append.units, codePointUnits_toNat]
      exact congrArg (c :: ·) ih

/-- Inside a tag the text up to the next {lit}`>` is copied. -/
theorem resolveLoop_tag {st : ResolveState} (happend : st.append = false)
    (hnil : st.wordBuilder = []) {t : JString} (ht : 62 ∉ t)
    (hpair : hasSurrogatePair t = false) :
    resolveLoop studyWords overWords st t =
      { st with builder := st.builder ++ copied t } := by
  induction t generalizing st with
  | nil => simp [resolveLoop, copied]
  | cons c t ih =>
      rcases codePointAt_eq_toNat hpair with ⟨hpoint, hpair'⟩
      have hstep : resolveStep studyWords overWords st c.toNat =
          { st with builder := st.builder ++ [.codePoint c.toNat] } := by
        have hne : c.toNat ≠ 62 := by
          intro heq
          have hc : c = 62 := @UInt16.toNat_inj c 62 |>.mp heq
          exact ht (hc ▸ List.mem_cons_self)
        unfold resolveStep
        split
        · rw [readLetter, if_neg (by simp [happend])]
        · rw [flushWord, if_pos hnil, copySeparator, happend, if_neg hne, ite_self]
          rfl
      have hmem : 62 ∉ t := fun h => ht (List.mem_cons_of_mem _ h)
      have hrest := @ih { st with builder := st.builder ++ [.codePoint c.toNat] } happend hnil
        hmem hpair'
      rw [resolveLoop, hpoint, hstep, hrest]
      simp [copied]

/-- What is written for the front of a passage is written for the passage. -/
theorem prefix_resolveAppends {x y : JString} (h : Uncut x y) :
    resolveAppends x studyWords overWords <+: resolveAppends (x ++ y) studyWords overWords := by
  rw [resolveAppends, resolveAppends, resolveLoop_concat h]
  exact prefix_resolveLoop _ _

theorem uncut_of_not_high {c : JChar} (hc : isHighSurrogate c = false) (x y : JString) :
    Uncut (x ++ [c]) y := by
  intro d hd e _
  rw [List.getLast?_concat] at hd
  rw [← Option.some.inj hd, hc, Bool.false_and]

theorem uncut_of_not_low {c : JChar} (hc : isLowSurrogate c = false) (x y : JString) :
    Uncut x (c :: y) := by
  intro d _ e he
  rw [← Option.some.inj he, hc, Bool.and_false]

/-- A separator other than a space is copied at once. -/
theorem resolveAppends_concat_separator {c : JChar} (hc : isLetterUnit c = false)
    (hspace : c ≠ 32) (hlow : isLowSurrogate c = false) (x : JString) :
    ∃ front, resolveAppends (x ++ [c]) studyWords overWords = front ++ [.codePoint c.toNat] := by
  have hne : ¬ c.toNat = 32 := fun heq => hspace (@UInt16.toNat_inj c 32 |>.mp heq)
  refine ⟨(flushWord studyWords overWords
    (resolveLoop studyWords overWords .initial x)).builder, ?_⟩
  rw [resolveAppends, resolveLoop_concat (uncut_of_not_low hlow x []), resolveLoop, resolveLoop,
    codePointAt, resolveStep, if_neg (by simpa [isLetterUnit] using hc), copySeparator]
  simp [hne]

/-- What stands between a {lit}`<` and the next {lit}`>` is copied in one piece. -/
theorem prefix_resolveAppends_tag (x : JString) {t : JString} (y : JString) (ht : 62 ∉ t)
    (hpair : hasSurrogatePair t = false) :
    resolveAppends (x ++ [60]) studyWords overWords ++ copied (t ++ [62]) <+:
      resolveAppends (x ++ [60] ++ t ++ [62] ++ y) studyWords overWords := by
  have hopen : (resolveLoop studyWords overWords .initial (x ++ [60])).append = false := by
    rw [resolveLoop_append, insideTag, List.foldl_append]
    rfl
  have hnil : (resolveLoop studyWords overWords .initial (x ++ [60])).wordBuilder = [] :=
    (Pending.initial.resolveLoop studyWords overWords (x ++ [60])).outside hopen
  have hclose : ∀ st : ResolveState, st.append = false → st.wordBuilder = [] →
      (resolveLoop studyWords overWords st [62]).builder = st.builder ++ [.codePoint 62] := by
    intro st hst hword
    rw [resolveLoop, resolveLoop, codePointAt, resolveStep, if_neg (by decide), flushWord,
      if_pos hword, copySeparator, hst]
    rfl
  have hcopied : resolveAppends (x ++ [60] ++ t ++ [62]) studyWords overWords =
      resolveAppends (x ++ [60]) studyWords overWords ++ copied (t ++ [62]) := by
    rw [resolveAppends, resolveLoop_concat (uncut_of_not_low (by decide) _ []),
      resolveLoop_concat (uncut_of_not_high (by decide) x t),
      resolveLoop_tag hopen hnil ht hpair]
    refine (hclose { resolveLoop studyWords overWords .initial (x ++ [60]) with
      builder := (resolveLoop studyWords overWords .initial (x ++ [60])).builder ++ copied t }
      hopen hnil).trans ?_
    rw [copied, copied, List.map_append, ← List.append_assoc]
    rfl
  rw [← hcopied]
  exact prefix_resolveAppends (uncut_of_not_high (by decide) _ _)

/-- Every run of letters outside tags is printed as the lists say, every other unit is
copied, and a tag stays in one piece. -/
theorem resolvePassage_marks_words (passage : JString) (studyWords : List JString)
    (overWords : List WordNode) (hpair : hasSurrogatePair passage = false)
    (hends : endsInLetter passage = false) :
    (∃ printed : List JString,
        List.Forall₂ (Printed studyWords overWords)
          (segments false (tokens isLetterUnit passage)) printed ∧
        (resolvePassage passage studyWords overWords).passage = printed.flatten) ∧
      (segments false (tokens isLetterUnit passage)).flatMap Segment.text = passage ∧
      ∀ x t y, passage = x ++ [60] ++ t ++ [62] ++ y → 62 ∉ t →
        ∃ front rest,
          (resolvePassage (x ++ [60]) studyWords overWords).passage = front ++ [60] ∧
          (resolvePassage passage studyWords overWords).passage =
            front ++ [60] ++ t ++ [62] ++ rest := by
  have hwritten : resolveAppends passage studyWords overWords =
      writeSegments studyWords overWords [] (segments false (tokens isLetterUnit passage)) :=
    resolveLoop_segments Pending.initial hpair hends
  refine ⟨⟨(resolveAppends passage studyWords overWords).map Append.units, ?_, ?_⟩, ?_, ?_⟩
  · rw [hwritten]
    exact printed_writeSegments [] _
  · exact List.flatMap_def
  · rw [flatMap_segments, flatten_tokens]
  · rintro x t y rfl ht
    have hpair' := (hasSurrogatePair_append (hasSurrogatePair_append
      (hasSurrogatePair_append hpair).1).1).2
    rcases @resolveAppends_concat_separator studyWords overWords 60 (by decide) (by decide)
      (by decide) x with ⟨front, hfront⟩
    rcases @prefix_resolveAppends_tag studyWords overWords x t y ht hpair' with ⟨rest, hrest⟩
    refine ⟨front.flatMap Append.units, rest.flatMap Append.units, ?_, ?_⟩
    · rw [resolvePassage, hfront, List.flatMap_append]
      rfl
    · rw [resolvePassage, ← hrest, hfront]
      simp only [List.flatMap_append, copied_units, List.append_assoc]
      rfl

/-- The page {lit}`<i cat> cat sat.` with {lit}`cat` to be bold and {lit}`sat` to be italic. -/
theorem resolvePassage_marks_words_sample :
    (resolvePassage (jstr "<i cat> cat sat.") [jstr "cat"]
        [WordNode.ofWord (jstr "sat")]).passage =
        jstr "<i cat>" ++ [160] ++ jstr "<b>cat</b>" ++ [160] ++
          jstr "<i>sat</i><sup>[1]</sup>." ∧
      ∃ printed : List JString,
        List.Forall₂ (Printed [jstr "cat"] [WordNode.ofWord (jstr "sat")])
          (segments false (tokens isLetterUnit (jstr "<i cat> cat sat."))) printed ∧
        (resolvePassage (jstr "<i cat> cat sat.") [jstr "cat"]
          [WordNode.ofWord (jstr "sat")]).passage = printed.flatten :=
  ⟨by decide +kernel,
    (resolvePassage_marks_words _ _ _ (by decide +kernel) (by decide +kernel)).1⟩

end HtmlUtil
end TestAio
