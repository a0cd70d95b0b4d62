import TestAio.Java.Text
import TestAio.Library.CommonPrefix
import TestAio.Library.Utf8

/-!
# Joining and comparing strings

Two functions of {lit}`StringUtil`: the collector {lit}`join`, which a stream uses with its
elements cut into segments, and {lit}`fuzzyMatch`, which compares two texts up to case and
look-alike characters.

Main results:

- Theorem {lit}`join_collect_iff`: the collector brackets a sequence exactly when the first
  segment has elements and no other segment has.
- Theorem {lit}`fuzzyMatch_eq_true_iff`: the loop compares as many bytes of the encodings as
  the first text has UTF-16 units.
- Theorem {lit}`agreeingBytes_lt_of_not_alike`: two characters that are not alike differ in a
  byte of the first.
- Theorem {lit}`fuzzyMatch_iff_matches_iff`: the loop finds whether the texts match exactly
  when these bytes reach the place where they part.

Current gaps:

- What {lit}`toLowerCase` makes of a character depends on the default locale and is a
  parameter.
- The texts of {lit}`fuzzyMatch` have no lone surrogates.
-/

namespace TestAio
namespace StringUtil

open Library

/-! ## The join collector -/

/-- {lit}`java.util.stream.Collector`, without its characteristics. -/
structure Collector (τ α ρ : Type) where
  supplier : α
  accumulator : α → τ → α
  combiner : α → α → α
  finisher : α → ρ

/-- A segment accumulated on its own. -/
def Collector.accumulate {τ α ρ : Type} (collector : Collector τ α ρ) (segment : List τ) : α :=
  segment.foldl collector.accumulator collector.supplier

/-- The result for a stream that is cut into a first segment and further ones, merged from
left to right. -/
def Collector.collect {τ α ρ : Type} (collector : Collector τ α ρ) (first : List τ)
    (others : List (List τ)) : ρ :=
  collector.finisher ((others.map collector.accumulate).foldl collector.combiner
    (collector.accumulate first))

/-- {lit}`builder.setCharAt(builder.length() - 1, c)`, which fails on an empty builder. -/
def setLast (builder : JString) (c : JChar) : Option JString :=
  if builder.isEmpty then none else some (builder.set (builder.length - 1) c)

/-- {lit}`StringUtil.join`. -/
def join : Collector JString JString (Option JString) where
  supplier := jstr "["
  accumulator builder value := builder ++ value ++ jstr ","
  combiner r1 _ := r1
  finisher builder := setLast builder (jchar ']')

/-- The elements separated by commas, in brackets. -/
def bracketed (elements : List JString) : JString :=
  jstr "[" ++ List.intercalate (jstr ",") elements ++ jstr "]"

/-- The loop writes each value with a comma behind it. -/
theorem accumulate_join (segment : List JString) :
    join.accumulate segment = jstr "[" ++ segment.flatMap fun value => value ++ jstr "," := by
  have hrun : ∀ builder : JString, segment.foldl join.accumulator builder =
      builder ++ segment.flatMap fun value => value ++ jstr "," := by
    induction segment with
    | nil => simp
    | cons value segment ih =>
        intro builder
        rw [List.foldl_cons, ih, List.flatMap_cons]
        simp [join]
  exact hrun _

/-- The combiner drops what the other segments have accumulated. -/
theorem collect_join (first : List JString) (others : List (List JString)) :
    join.collect first others = setLast (join.accumulate first) (jchar ']') := by
  have hdrop : ∀ (builder : JString) (builders : List JString),
      builders.foldl join.combiner builder = builder := by
    intro builder builders
    induction builders with
    | nil => rfl
    | cons _ builders ih => exact ih
  exact congrArg join.finisher (hdrop _ _)

/-- Values with a comma behind each are joined with one comma more. -/
theorem flatMap_comma {elements : List JString} (h : elements ≠ []) :
    (elements.flatMap fun value => value ++ jstr ",") =
      List.intercalate (jstr ",") elements ++ jstr "," := by
  induction elements with
  | nil => contradiction
  | cons value elements ih =>
      cases elements with
      | nil => simp
      | cons next elements =>
          rw [List.flatMap_cons, ih (by simp), List.intercalate_cons_cons]
          simp

/-- Only the last character is set. -/
theorem setLast_append_singleton (builder : JString) (c d : JChar) :
    setLast (builder ++ [c]) d = some (builder ++ [d]) := by
  simp [setLast]

/-- A first segment with elements is bracketed. -/
theorem collect_join_of_ne_nil {first : List JString} (h : first ≠ [])
    (others : List (List JString)) : join.collect first others = some (bracketed first) := by
  rw [collect_join, accumulate_join, flatMap_comma h, ← List.append_assoc]
  exact setLast_append_singleton _ _ _

/-- From an empty first segment only the closing bracket is left. -/
theorem collect_join_nil (others : List (List JString)) :
    join.collect [] others = some (jstr "]") :=
  collect_join [] others

/-- A bracketed sequence is as long as the accumulated one. -/
theorem length_bracketed {elements : List JString} (h : elements ≠ []) :
    (bracketed elements).length = (join.accumulate elements).length := by
  rw [accumulate_join, flatMap_comma h, bracketed]
  simp only [List.length_append, Nat.add_assoc]
  rfl

/-- The collector yields the bracketed sequence exactly when the first segment has elements
and no other segment has. -/
theorem join_collect_iff (first : List JString) (others : List (List JString)) :
    join.collect first others = some (bracketed (first ++ others.flatten)) ↔
      first ≠ [] ∧ ∀ segment ∈ others, segment = [] := by
  by_cases hfirst : first = []
  · subst hfirst
    refine iff_of_false (fun h => ?_) fun h => h.1 rfl
    rw [collect_join_nil] at h
    have hhead := congrArg List.head? (Option.some.inj h)
    cases hhead
  · rw [collect_join_of_ne_nil hfirst]
    refine Iff.trans ⟨fun h => ?_, fun h => ?_⟩
      (List.flatten_eq_nil_iff.trans (and_iff_right hfirst).symm)
    · by_contra hothers
      have hlength := congrArg List.length (Option.some.inj h)
      rcases List.exists_cons_of_ne_nil hothers with ⟨value, rest, hrest⟩
      rw [length_bracketed hfirst, length_bracketed (by simp [hfirst]), accumulate_join,
        accumulate_join, List.flatMap_append, hrest, List.flatMap_cons] at hlength
      simp only [List.length_append] at hlength
      have hcomma : (jstr ",").length = 1 := rfl
      omega
    · rw [h, List.append_nil]

/-- Neither the empty sequence nor a sequence in two segments is bracketed. -/
theorem join_breaks_contract :
    join.collect [] [] ≠ some (bracketed ([] ++ List.flatten [])) ∧
      join.collect [jstr "a"] [[jstr "b"]] ≠
        some (bracketed ([jstr "a"] ++ List.flatten [[jstr "b"]])) := by
  decide

/-! ## Fuzzy matching -/

/-- A text without lone surrogates, as its characters. -/
abbrev Text := List Char

/-- {lit}`text.length()`, in UTF-16 units. -/
def length (text : Text) : Nat :=
  (text.flatMap utf16).length

/-- {lit}`text.getBytes()`, in UTF-8. -/
def getBytes (text : Text) : List UInt8 :=
  text.flatMap String.utf8EncodeChar

/-- {lit}`fuzzy`. -/
def fuzzy : List (List UInt8) :=
  [[48, 111], [49, 105, 108], [53, 115], [50, 122]]

/-- The variables {lit}`m1` and {lit}`m2` behind the loop over {lit}`bytes`. -/
def marks (b1 b2 : UInt8) (bytes : List UInt8) : Bool × Bool :=
  bytes.foldl
    (fun m b => if b == b1 then (true, m.2) else if b == b2 then (m.1, true) else m)
    (false, false)

/-- The two bytes let the loop over the text go on. -/
def sameByte (b1 b2 : UInt8) : Bool :=
  b1 == b2 || fuzzy.any fun bytes => (marks b1 b2 bytes).1 && (marks b1 b2 bytes).2

/-- The rounds of the loop from {lit}`i` on; there is no result when an index is out of
bounds. -/
def matchFrom (str1Bytes str2Bytes : List UInt8) (i : Nat) : Nat → Option Bool
  | 0 => some true
  | rounds + 1 => do
      let b1 ← str1Bytes[i]?
      let b2 ← str2Bytes[i]?
      if sameByte b1 b2 then matchFrom str1Bytes str2Bytes (i + 1) rounds else some false

section FuzzyMatch

-- What `toLowerCase()` makes of a character between two texts.
variable (lower : Text → Char → Text → Text)

/-- The lower cases of the characters of a text, one for every position. -/
def loweredFrom (before : Text) : Text → List Text
  | [] => []
  | c :: behind => lower before c behind :: loweredFrom (before ++ [c]) behind

/-- The lower cases of a whole text. -/
def lowered (text : Text) : List Text :=
  loweredFrom lower [] text

/-- {lit}`text.toLowerCase()`. -/
def toLowerCase (text : Text) : Text :=
  (lowered lower text).flatten

/-- {lit}`StringUtil.fuzzyMatch`. -/
def fuzzyMatch (str1 str2 : Text) : Option Bool :=
  if length str1 ≠ length str2 then
    some false
  else if length str1 = 0 then
    some true
  else
    matchFrom (getBytes (toLowerCase lower str1)) (getBytes (toLowerCase lower str2)) 0
      (length str1)

/-- The classes of characters that look alike. -/
def lookAlikes : List (List Char) :=
  [['0', 'o'], ['1', 'i', 'l'], ['5', 's'], ['2', 'z']]

/-- The lower cases of two characters are equal or belong to one class. -/
def Alike (x y : Text) : Prop :=
  x = y ∨ ∃ letters ∈ lookAlikes, ∃ c ∈ letters, ∃ d ∈ letters, x = [c] ∧ y = [d]

/-- Whether two characters are alike can be computed. -/
theorem alike_iff (x y : Text) :
    Alike x y ↔ (x == y || lookAlikes.any fun letters =>
      letters.any fun c => letters.any fun d => x == [c] && y == [d]) = true := by
  simp [Alike]

instance (x y : Text) : Decidable (Alike x y) :=
  decidable_of_iff _ (alike_iff x y).symm

/-- The texts have the same length and characters that are alike at every position. -/
def Matches (str1 str2 : Text) : Prop :=
  length str1 = length str2 ∧ List.Forall₂ Alike (lowered lower str1) (lowered lower str2)

/-! ## How far the loop gets -/

/-- The marks tell which of the two bytes occur. -/
theorem marks_eq {b1 b2 : UInt8} (h : b1 ≠ b2) (bytes : List UInt8) :
    marks b1 b2 bytes = (decide (b1 ∈ bytes), decide (b2 ∈ bytes)) := by
  have hrun : ∀ m : Bool × Bool, bytes.foldl
      (fun m b => if b == b1 then (true, m.2) else if b == b2 then (m.1, true) else m) m =
        (m.1 || decide (b1 ∈ bytes), m.2 || decide (b2 ∈ bytes)) := by
    induction bytes with
    | nil => simp
    | cons b bytes ih =>
        intro m
        rw [List.foldl_cons, ih]
        by_cases h1 : b = b1
        · subst h1
          simp [Ne.symm h]
        · by_cases h2 : b = b2
          · subst h2
            simp [h1, h]
          · simp [h1, h2, Ne.symm h1, Ne.symm h2]
  exact hrun _

/-- The loop goes on at equal bytes and at two bytes of one class. -/
theorem sameByte_iff {b1 b2 : UInt8} :
    sameByte b1 b2 = true ↔ b1 = b2 ∨ ∃ bytes ∈ fuzzy, b1 ∈ bytes ∧ b2 ∈ bytes := by
  unfold sameByte
  rw [Bool.or_eq_true, beq_iff_eq, List.any_eq_true]
  by_cases h : b1 = b2
  · simp [h]
  · simp [marks_eq h]

open CommonPrefix

/-- The loop succeeds when all bytes are the same or alike. -/
theorem matchFrom_eq_true_iff {str1Bytes str2Bytes : List UInt8} {i rounds : Nat} :
    matchFrom str1Bytes str2Bytes i rounds = some true ↔
      ∀ j, i ≤ j → j < i + rounds → ∃ b1 b2, str1Bytes[j]? = some b1 ∧
        str2Bytes[j]? = some b2 ∧ sameByte b1 b2 = true := by
  induction rounds generalizing i with
  | zero =>
      refine iff_of_true rfl fun j hj hlt => ?_
      omega
  | succ rounds ih =>
      rw [matchFrom]
      constructor
      · intro h j hj hlt
        rcases Option.bind_eq_some_iff.mp h with ⟨b1, hb1, h⟩
        rcases Option.bind_eq_some_iff.mp h with ⟨b2, hb2, h⟩
        split_ifs at h with hsame
        · by_cases hi : j = i
          · subst hi
            exact ⟨b1, b2, hb1, hb2, hsame⟩
          · exact ih.mp h j (by omega) (by omega)
        · cases h
      · intro h
        rcases h i (by omega) (by omega) with ⟨b1, b2, hb1, hb2, hsame⟩
        rw [hb1, hb2]
        simp only [Option.bind_eq_bind, Option.bind_some, hsame, if_true]
        exact ih.mpr fun j hj hlt => h j (by omega) (by omega)

/-- The bytes that two texts agree on from the start. -/
def agreeingBytes (text1 text2 : Text) : Nat :=
  agreeing (fun b1 b2 => sameByte b1 b2 = true) (getBytes text1) (getBytes text2)

/-- The loop compares as many bytes of the encodings as the first text has UTF-16 units. -/
theorem fuzzyMatch_eq_true_iff (str1 str2 : Text) :
    fuzzyMatch lower str1 str2 = some true ↔ length str1 = length str2 ∧
      length str1 ≤ agreeingBytes (toLowerCase lower str1) (toLowerCase lower str2) := by
  unfold fuzzyMatch
  split_ifs with hlength hzero
  · exact iff_of_false (by simp) fun h => hlength h.1
  · exact iff_of_true rfl ⟨not_not.mp hlength, by omega⟩
  · rw [matchFrom_eq_true_iff, agreeingBytes, le_agreeing_iff, and_iff_right (not_not.mp hlength)]
    constructor
    · exact fun h i hi => h i (Nat.zero_le i) (by omega)
    · exact fun h j _ hj => h j (by omega)

/-! ## Characters and bytes -/

/-- The bytes of two texts in a row. -/
theorem getBytes_append (text1 text2 : Text) :
    getBytes (text1 ++ text2) = getBytes text1 ++ getBytes text2 :=
  List.flatMap_append

/-- Lower cases that are alike have encodings the loop goes through. -/
theorem forall₂_sameByte_of_alike {x y : Text} (h : Alike x y) :
    List.Forall₂ (fun b1 b2 => sameByte b1 b2 = true) (getBytes x) (getBytes y) := by
  rcases h with rfl | ⟨letters, hletters, c, hc, d, hd, rfl, rfl⟩
  · exact List.forall₂_same.mpr fun b _ => sameByte_iff.mpr (Or.inl rfl)
  · have hall : (lookAlikes.all fun letters => letters.all fun c => letters.all fun d =>
        getBytes [c] == [UInt8.ofNat c.toNat] && getBytes [d] == [UInt8.ofNat d.toNat] &&
          sameByte (UInt8.ofNat c.toNat) (UInt8.ofNat d.toNat)) = true := by
      decide +kernel
    have hbytes := List.all_eq_true.mp (List.all_eq_true.mp
      (List.all_eq_true.mp hall letters hletters) c hc) d hd
    simp only [Bool.and_eq_true, beq_iff_eq] at hbytes
    rw [hbytes.1.1, hbytes.1.2]
    exact .cons hbytes.2 .nil

/-- Texts that are alike have bytes that are the same or alike. -/
theorem forall₂_sameByte_flatten {us vs : List Text} (h : List.Forall₂ Alike us vs) :
    List.Forall₂ (fun b1 b2 => sameByte b1 b2 = true) (getBytes us.flatten)
      (getBytes vs.flatten) := by
  induction h with
  | nil => exact .nil
  | cons hxy _ ih =>
      rw [List.flatten_cons, List.flatten_cons, getBytes_append, getBytes_append]
      exact List.rel_append (forall₂_sameByte_of_alike hxy) ih

variable {lower}

/-- The texts agree on the bytes in front of the place where they part, and on what the
rests agree on. -/
theorem agreeingBytes_of_parting {str1 str2 : Text} {us ss vs ts : List Text}
    (h : Parting Alike (lowered lower str1) (lowered lower str2) us ss vs ts) :
    agreeingBytes (toLowerCase lower str1) (toLowerCase lower str2) =
      (getBytes us.flatten).length + agreeingBytes ss.flatten ts.flatten := by
  unfold agreeingBytes toLowerCase
  rw [h.left, h.right, List.flatten_append, List.flatten_append, getBytes_append,
    getBytes_append, agreeing_append (forall₂_sameByte_flatten h.common)]

/-- The first {lit}`n` bytes show that the texts part where they do: when nothing is left
there, they are not more than all bytes, and otherwise they reach a byte in which the rests
differ. -/
def Shown (n : Nat) (us ss ts : List Text) : Prop :=
  if ss = [] ∧ ts = [] then
    n ≤ (getBytes us.flatten).length
  else
    (getBytes us.flatten).length + agreeingBytes ss.flatten ts.flatten < n

/-- Where the texts part, they match exactly when the loop gets through, provided that it
is shown. -/
theorem shown_iff_of_parting {str1 str2 : Text} {us ss vs ts : List Text}
    (h : Parting Alike (lowered lower str1) (lowered lower str2) us ss vs ts)
    (hlength : length str1 = length str2) :
    Shown (length str1) us ss ts ↔
      (fuzzyMatch lower str1 str2 = some true ↔ Matches lower str1 str2) := by
  rw [fuzzyMatch_eq_true_iff, Matches, and_iff_right hlength, and_iff_right hlength,
    h.forall₂_iff, agreeingBytes_of_parting h, Shown]
  split_ifs with hend
  · rcases hend with ⟨rfl, rfl⟩
    simp [agreeingBytes, getBytes]
  · rw [iff_false_right hend, Nat.not_le]

variable (lower)

/-- {lit}`fuzzyMatch` finds whether the texts match exactly when as many bytes as the first
text has UTF-16 units show where the texts part. -/
theorem fuzzyMatch_iff_matches_iff (str1 str2 : Text) :
    (fuzzyMatch lower str1 str2 = some true ↔ Matches lower str1 str2) ↔
      (length str1 = length str2 → ∀ us ss vs ts,
        Parting Alike (lowered lower str1) (lowered lower str2) us ss vs ts →
          Shown (length str1) us ss ts) := by
  constructor
  · exact fun h hlength us ss vs ts hparting => (shown_iff_of_parting hparting hlength).mpr h
  · intro h
    by_cases hlength : length str1 = length str2
    · rcases exists_parting Alike (lowered lower str1) (lowered lower str2) with
        ⟨us, ss, vs, ts, hparting⟩
      exact (shown_iff_of_parting hparting hlength).mp (h hlength us ss vs ts hparting)
    · refine iff_of_false (fun hmatch => ?_) fun hmatch => hlength hmatch.1
      exact hlength ((fuzzyMatch_eq_true_iff lower str1 str2).mp hmatch).1

/-- The lower case of an ASCII letter; other characters stay as they are. -/
def asciiLower (_before : Text) (c : Char) (_behind : Text) : Text :=
  [c.toLower]

/-- Two words that share more bytes than they have units. -/
theorem fuzzyMatch_unlike_words :
    fuzzyMatch asciiLower "中国".toList "中文".toList = some true ∧
      ¬ Matches asciiLower "中国".toList "中文".toList :=
  ⟨by decide +kernel, fun h => absurd h.2 (by decide +kernel)⟩

/-! ## Where characters differ -/

/-- The byte of an ASCII character. -/
def asciiByte (c : Char) : UInt8 :=
  UInt8.ofNat c.toNat

/-- An ASCII character is known by its byte. -/
theorem asciiByte_injective {c d : Char} (hc : c.toNat < 128) (hd : d.toNat < 128)
    (h : asciiByte c = asciiByte d) : c = d := by
  have hnat := congrArg UInt8.toNat h
  simp only [asciiByte, UInt8.toNat_ofNat'] at hnat
  apply Char.toNat_inj.mp
  omega

/-- The bytes of the classes are those of the look-alike characters. -/
theorem fuzzy_eq : fuzzy = lookAlikes.map fun letters => letters.map asciiByte :=
  rfl

/-- The fuzzy bytes are ASCII characters. -/
theorem lt_of_mem_fuzzy {bytes : List UInt8} (hbytes : bytes ∈ fuzzy) {b : UInt8}
    (hb : b ∈ bytes) : b.toNat < 128 := by
  have hall : (fuzzy.all fun bytes => bytes.all fun b => decide (b.toNat < 128)) = true := by
    decide
  have hclass := List.all_eq_true.mp hall bytes hbytes
  exact of_decide_eq_true (List.all_eq_true.mp hclass b hb)

/-- The letters that look alike are ASCII characters. -/
theorem lt_of_mem_lookAlikes {letters : List Char} (hletters : letters ∈ lookAlikes) {c : Char}
    (hc : c ∈ letters) : c.toNat < 128 := by
  have hall :
      (lookAlikes.all fun letters => letters.all fun c => decide (c.toNat < 128)) = true := by
    decide
  have hclass := List.all_eq_true.mp hall letters hletters
  exact of_decide_eq_true (List.all_eq_true.mp hclass c hc)

/-- Two ASCII characters whose bytes let the loop go on are alike. -/
theorem alike_of_sameByte {c d : Char} (hc : c.toNat < 128) (hd : d.toNat < 128)
    (h : sameByte (asciiByte c) (asciiByte d) = true) : Alike [c] [d] := by
  rcases sameByte_iff.mp h with heq | ⟨bytes, hbytes, hcMem, hdMem⟩
  · exact Or.inl (congrArg (fun c => [c]) (asciiByte_injective hc hd heq))
  · rw [fuzzy_eq] at hbytes
    rcases List.mem_map.mp hbytes with ⟨letters, hletters, rfl⟩
    rcases List.mem_map.mp hcMem with ⟨c', hc', hceq⟩
    rcases List.mem_map.mp hdMem with ⟨d', hd', hdeq⟩
    rw [← asciiByte_injective (lt_of_mem_lookAlikes hletters hc') hc hceq,
      ← asciiByte_injective (lt_of_mem_lookAlikes hletters hd') hd hdeq]
    exact Or.inr ⟨letters, hletters, c', hc', d', hd', rfl, rfl⟩

/-- Bytes that are not ASCII let the loop go on only when they are equal. -/
theorem eq_of_sameByte {b1 b2 : UInt8} (h : sameByte b1 b2 = true)
    (hbyte : 128 ≤ b1.toNat ∨ 128 ≤ b2.toNat) : b1 = b2 := by
  rcases sameByte_iff.mp h with heq | ⟨bytes, hbytes, h1, h2⟩
  · exact heq
  · have hlt1 := lt_of_mem_fuzzy hbytes h1
    have hlt2 := lt_of_mem_fuzzy hbytes h2
    omega

/-- The bytes of the first character come first. -/
theorem getBytes_cons (c : Char) (text : Text) :
    getBytes (c :: text) = String.utf8EncodeChar c ++ getBytes text :=
  List.flatMap_cons

/-- An ASCII character is alike the character whose first byte the loop accepts. -/
theorem alike_of_first_byte {c d : Char} (hc : c.toNat < 128) {b : UInt8}
    (hb : (String.utf8EncodeChar d)[0]? = some b) (hsame : sameByte (asciiByte c) b = true) :
    Alike [c] [d] := by
  by_cases hd : d.utf8Size = 1
  · have hd := Utf8.toNat_lt_of_utf8Size_eq_one hd
    rw [Utf8.utf8EncodeChar_of_ascii hd, List.getElem?_cons_zero, Option.some.injEq] at hb
    subst hb
    exact alike_of_sameByte hc hd hsame
  · have hsize := Char.utf8Size_pos d
    have hbyte : 128 ≤ b.toNat := Utf8.le_of_mem_utf8EncodeChar (by omega) (List.mem_of_getElem? hb)
    have hnat := congrArg UInt8.toNat (eq_of_sameByte hsame (Or.inr hbyte))
    rw [asciiByte, UInt8.toNat_ofNat'] at hnat
    omega

/-- A character that is not ASCII is the one whose bytes the loop accepts. -/
theorem eq_of_bytes {c d : Char} {text : Text} (hc : c.utf8Size ≠ 1)
    (h : ∀ i < c.utf8Size, ∃ b1 b2, (String.utf8EncodeChar c)[i]? = some b1 ∧
      (getBytes (d :: text))[i]? = some b2 ∧ sameByte b1 b2 = true) : c = d := by
  have hsize := Char.utf8Size_pos c
  refine @Utf8.eq_of_prefix_flatMap c d text (List.prefix_iff_getElem?.mpr fun i hi => ?_)
  rcases h i (by rwa [String.length_utf8EncodeChar] at hi) with ⟨b1, b2, hb1, hb2, hsame⟩
  have hbyte : 128 ≤ b1.toNat := Utf8.le_of_mem_utf8EncodeChar (by omega) (List.mem_of_getElem? hb1)
  rw [List.getElem?_eq_getElem hi, Option.some.injEq] at hb1
  rw [hb1, eq_of_sameByte hsame (Or.inl hbyte)]
  exact hb2

/-- Two characters that are not alike differ in a byte of the first. -/
theorem agreeingBytes_lt_of_not_alike {c d : Char} (h : ¬ Alike [c] [d]) (text1 text2 : Text) :
    agreeingBytes (c :: text1) (d :: text2) < c.utf8Size := by
  by_contra hle
  rw [Nat.not_lt, agreeingBytes, le_agreeing_iff, getBytes_cons] at hle
  have hread : ∀ i < c.utf8Size, ∃ b1 b2, (String.utf8EncodeChar c)[i]? = some b1 ∧
      (getBytes (d :: text2))[i]? = some b2 ∧ sameByte b1 b2 = true := by
    intro i hi
    rcases hle i hi with ⟨b1, b2, hb1, hb2, hsame⟩
    rw [List.getElem?_append_left (by rw [String.length_utf8EncodeChar]; exact hi)] at hb1
    exact ⟨b1, b2, hb1, hb2, hsame⟩
  by_cases hone : c.utf8Size = 1
  · have hc := Utf8.toNat_lt_of_utf8Size_eq_one hone
    rcases hread 0 (Char.utf8Size_pos c) with ⟨b1, b2, hb1, hb2, hsame⟩
    rw [Utf8.utf8EncodeChar_of_ascii hc, List.getElem?_cons_zero, Option.some.injEq] at hb1
    subst hb1
    have hdpos : 0 < (String.utf8EncodeChar d).length := by
      rw [String.length_utf8EncodeChar]
      exact Char.utf8Size_pos d
    rw [getBytes_cons, List.getElem?_append_left hdpos] at hb2
    exact h (alike_of_first_byte hc hb2 hsame)
  · exact h (Or.inl (congrArg (fun c => [c]) (eq_of_bytes hone hread)))

/-! ## ASCII texts -/

/-- A lower case that is one ASCII character. -/
def IsAscii (x : Text) : Prop :=
  ∃ c, x = [c] ∧ c.toNat < 128

/-- Lower case keeps an ASCII text ASCII, character by character. -/
theorem forall_isAscii_lowered {text : Text} (htext : ∀ c ∈ text, c.toNat < 128)
    (hlower : ∀ before c behind, c.toNat < 128 → IsAscii (lower before c behind)) :
    (lowered lower text).length = text.length ∧ ∀ x ∈ lowered lower text, IsAscii x := by
  have hrun : ∀ before, (loweredFrom lower before text).length = text.length ∧
      ∀ x ∈ loweredFrom lower before text, IsAscii x := by
    induction text with
    | nil => simp [loweredFrom]
    | cons c text ih =>
        intro before
        rcases ih (fun d hd => htext d (by simp [hd])) (before ++ [c]) with ⟨hlength, hall⟩
        rw [loweredFrom, List.length_cons, List.length_cons, hlength]
        exact ⟨rfl, List.forall_mem_cons.mpr ⟨hlower _ _ _ (htext c (by simp)), hall⟩⟩
  exact hrun []

/-- The length of an ASCII text counts its characters. -/
theorem length_of_ascii {text : Text} (htext : ∀ c ∈ text, c.toNat < 128) :
    length text = text.length := by
  induction text with
  | nil => rfl
  | cons c text ih =>
      have hc : c.toNat < 0x10000 := Nat.lt_trans (htext c (by simp)) (by decide)
      have hrest := ih fun d hd => htext d (by simp [hd])
      rw [length, List.flatMap_cons, List.length_append, ← length, hrest, utf16, if_pos hc]
      simp [Nat.add_comm]

/-- An ASCII text has one byte for each character. -/
theorem length_getBytes_of_isAscii {us : List Text} (h : ∀ x ∈ us, IsAscii x) :
    (getBytes us.flatten).length = us.length := by
  induction us with
  | nil => rfl
  | cons x us ih =>
      rcases h x (by simp) with ⟨c, rfl, hc⟩
      rw [List.flatten_cons, getBytes_append, List.length_append,
        ih fun y hy => h y (by simp [hy]), getBytes, List.flatMap_singleton,
        Utf8.utf8EncodeChar_of_ascii hc]
      simp [Nat.add_comm]

/-- As many bytes as there are ASCII characters show where two texts part. -/
theorem shown_of_isAscii {xs ys us ss vs ts : List Text} (h : Parting Alike xs ys us ss vs ts)
    (hxs : ∀ x ∈ xs, IsAscii x) (hys : ∀ y ∈ ys, IsAscii y) (hlength : xs.length = ys.length) :
    Shown xs.length us ss ts := by
  rw [h.left] at hxs hlength ⊢
  rw [h.right] at hys hlength
  rw [List.length_append, List.length_append] at hlength
  have hbytes := length_getBytes_of_isAscii fun x hx => hxs x (List.mem_append_left _ hx)
  have hcommon := h.common.length_eq
  unfold Shown
  rw [List.length_append]
  split_ifs with hend
  · rw [hend.1, List.length_nil]
    omega
  · cases ss with
    | nil =>
        cases ts with
        | nil => exact absurd ⟨rfl, rfl⟩ hend
        | cons y ts =>
            rw [List.length_nil, List.length_cons] at hlength
            omega
    | cons x ss =>
        cases ts with
        | nil =>
            rw [List.length_nil, List.length_cons] at hlength
            omega
        | cons y ts =>
            rcases hxs x (by simp) with ⟨c, rfl, hc⟩
            rcases hys y (by simp) with ⟨d, rfl, -⟩
            have hlt := @agreeingBytes_lt_of_not_alike c d h.parts ss.flatten ts.flatten
            have hsize : c.utf8Size = 1 := by
              rw [← String.length_utf8EncodeChar, Utf8.utf8EncodeChar_of_ascii hc]
              rfl
            rw [List.flatten_cons, List.flatten_cons, List.singleton_append,
              List.singleton_append, List.length_cons]
            omega

/-- On ASCII texts {lit}`fuzzyMatch` finds whether the texts match. -/
theorem fuzzyMatch_iff_matches_of_ascii {str1 str2 : Text} (h1 : ∀ c ∈ str1, c.toNat < 128)
    (h2 : ∀ c ∈ str2, c.toNat < 128)
    (hlower : ∀ before c behind, c.toNat < 128 → IsAscii (lower before c behind)) :
    fuzzyMatch lower str1 str2 = some true ↔ Matches lower str1 str2 := by
  by_cases hlength : length str1 = length str2
  · rcases forall_isAscii_lowered lower h1 hlower with ⟨hlength1, hascii1⟩
    rcases forall_isAscii_lowered lower h2 hlower with ⟨hlength2, hascii2⟩
    rcases exists_parting Alike (lowered lower str1) (lowered lower str2) with
      ⟨us, ss, vs, ts, h⟩
    apply (shown_iff_of_parting h hlength).mp
    rw [length_of_ascii h1, length_of_ascii h2] at hlength
    rw [length_of_ascii h1, ← hlength1]
    exact shown_of_isAscii h hascii1 hascii2 (by rw [hlength1, hlength2, hlength])
  · refine iff_of_false (fun hmatch => ?_) fun hmatch => hlength hmatch.1
    exact hlength ((fuzzyMatch_eq_true_iff lower str1 str2).mp hmatch).1

end FuzzyMatch

end StringUtil
end TestAio
