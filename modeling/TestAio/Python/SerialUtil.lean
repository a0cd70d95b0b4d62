import Mathlib.Data.List.Chain
import Mathlib.Data.UInt
import TestAio.Library.Framing

/-!
# Receiving frames from the serial port

The function {lit}`receive` of {lit}`serial_util.py` reads one byte at a time.  An opening
parenthesis empties the text received so far, a carriage return prints it, and every other
byte is decoded on its own and appended to it.  Between a carriage return and the next
parenthesis there is no text to append to.

Main results:

- Theorem {lit}`length_receive`: a line is printed for every carriage return.
- Theorem {lit}`receive_decodes_iff`: the streams whose frames are printed as they should be.

Current gaps:

- The characters of two bytes are a parameter; that a single byte from 0x80 on is no
  character is part of the model.
-/

namespace TestAio
namespace SerialUtil

open Library.Framing

/-- A Python string. -/
abbrev Text := List Char

/-! ## The encoding -/

/-- The character of two bytes in the GBK table. -/
abbrev Pairs := UInt8 → UInt8 → Option Char

/-- The character of a byte below 0x80. -/
def asciiChar (b : UInt8) : Char :=
  Char.ofNat b.toNat

/-- {lit}`str(data, encoding='gbk')`, where it does not raise. -/
def gbk (pairs : Pairs) : List UInt8 → Option Text
  | [] => some []
  | [b] => if b < 0x80 then some [asciiChar b] else none
  | b :: c :: data =>
      if b < 0x80 then
        (gbk pairs (c :: data)).map (asciiChar b :: ·)
      else
        (pairs b c).bind fun char => (gbk pairs data).map (char :: ·)

/-- A single byte is decoded when it is an ASCII character. -/
theorem gbk_single (pairs : Pairs) (b : UInt8) :
    gbk pairs [b] = if b < 0x80 then some [asciiChar b] else none :=
  rfl

/-- Bytes below 0x80 are characters on their own. -/
theorem gbk_of_ascii (pairs : Pairs) {data : List UInt8} (h : ∀ b ∈ data, b < 0x80) :
    gbk pairs data = some (data.map asciiChar) := by
  induction data with
  | nil => rfl
  | cons b data ih =>
      rcases List.forall_mem_cons.mp h with ⟨hb, hdata⟩
      cases data with
      | nil => exact if_pos hb
      | cons c data =>
          rw [gbk, if_pos hb, ih hdata]
          rfl

/-! ## The receiver -/

/-- An exception of the loop. -/
inductive PythonError
  | unicodeDecodeError
  | typeError
deriving DecidableEq

/-- {lit}`b'('`. -/
def opening : UInt8 := 0x28

/-- {lit}`b'\r'`. -/
def closing : UInt8 := 0x0d

/-- The two brackets differ. -/
theorem opening_ne_closing : opening ≠ closing := by
  decide

/-- One turn of the loop: the new {lit}`receiver` and the line it prints, if any. -/
def step (pairs : Pairs) (receiver : Option Text) (data : UInt8) :
    Except PythonError (Option Text × Option Text) :=
  if data = opening then
    .ok (some [], none)
  else if data = closing then
    .ok (none, some (receiver.getD "None".toList))
  else
    match gbk pairs [data], receiver with
    | none, _ => .error .unicodeDecodeError
    | some _, none => .error .typeError
    | some text, some receiver => .ok (some (receiver ++ text), none)

/-- The loop over the bytes that are read: the lines it prints and the exception that ends
it, if any. -/
def receive (pairs : Pairs) (receiver : Option Text) :
    List UInt8 → List Text × Option PythonError
  | [] => ([], none)
  | data :: rest =>
      match step pairs receiver data with
      | .error e => ([], some e)
      | .ok (receiver, line) =>
          (line.toList ++ (receive pairs receiver rest).1, (receive pairs receiver rest).2)

/-- A byte that fails ends the receiving. -/
theorem receive_of_error {pairs : Pairs} {receiver : Option Text} {data : UInt8}
    {e : PythonError} (h : step pairs receiver data = .error e) (rest : List UInt8) :
    receive pairs receiver (data :: rest) = ([], some e) := by
  rw [receive, h]

/-- A byte that is taken leaves its line in front of the later ones. -/
theorem receive_of_ok {pairs : Pairs} {receiver next : Option Text} {data : UInt8}
    {line : Option Text} (h : step pairs receiver data = .ok (next, line))
    (rest : List UInt8) :
    receive pairs receiver (data :: rest) =
      (line.toList ++ (receive pairs next rest).1, (receive pairs next rest).2) := by
  rw [receive, h]

/-! ## What a turn does -/

/-- The opening bracket starts a line. -/
theorem step_opening (pairs : Pairs) (receiver : Option Text) :
    step pairs receiver opening = .ok (some [], none) :=
  if_pos rfl

/-- The closing bracket ends the line. -/
theorem step_closing (pairs : Pairs) (receiver : Option Text) :
    step pairs receiver closing = .ok (none, some (receiver.getD "None".toList)) :=
  rfl

/-- Inside a frame a byte below 0x80 is appended. -/
theorem step_ascii (pairs : Pairs) (receiver : Text) {data : UInt8} (hopening : data ≠ opening)
    (hclosing : data ≠ closing) (hdata : data < 0x80) :
    step pairs (some receiver) data = .ok (some (receiver ++ [asciiChar data]), none) := by
  unfold step
  rw [if_neg hopening, if_neg hclosing, gbk_single, if_pos hdata]

/-- A byte from 0x80 on raises, inside a frame and outside. -/
theorem step_high (pairs : Pairs) (receiver : Option Text) {data : UInt8}
    (hopening : data ≠ opening) (hclosing : data ≠ closing) (hdata : ¬ data < 0x80) :
    step pairs receiver data = .error .unicodeDecodeError := by
  unfold step
  rw [if_neg hopening, if_neg hclosing, gbk_single, if_neg hdata]

/-- Outside a frame every byte that is no mark raises. -/
theorem step_outside (pairs : Pairs) {data : UInt8} (hopening : data ≠ opening)
    (hclosing : data ≠ closing) : ∃ e, step pairs none data = .error e := by
  by_cases hdata : data < 0x80
  · unfold step
    rw [if_neg hopening, if_neg hclosing, gbk_single, if_pos hdata]
    exact ⟨_, rfl⟩
  · exact ⟨_, step_high pairs none hopening hclosing hdata⟩

/-- A turn prints a line exactly at a carriage return. -/
theorem length_of_step {pairs : Pairs} {receiver next : Option Text} {data : UInt8}
    {line : Option Text} (h : step pairs receiver data = .ok (next, line)) :
    line.toList.length = [data].count closing := by
  unfold step at h
  split at h
  · rename_i hdata
    cases h
    rw [hdata]
    rfl
  · split at h
    · rename_i hdata
      cases h
      rw [hdata]
      rfl
    · rename_i hdata
      rw [List.count_cons_of_ne hdata]
      split at h
      · cases h
      · cases h
      · cases h
        rfl

/-- A run without an exception prints a line for every carriage return. -/
theorem length_receive {pairs : Pairs} {receiver : Option Text} {bytes : List UInt8}
    (h : (receive pairs receiver bytes).2 = none) :
    (receive pairs receiver bytes).1.length = bytes.count closing := by
  induction bytes generalizing receiver with
  | nil => rfl
  | cons data rest ih =>
      cases hstep : step pairs receiver data with
      | error e =>
          rw [receive_of_error hstep] at h
          cases h
      | ok result =>
          rcases result with ⟨next, line⟩
          rw [receive_of_ok hstep] at h ⊢
          rw [List.length_append, length_of_step hstep, ih h, ← List.count_append]
          rfl

/-! ## Which streams are decoded -/

/-- The loop raises no exception and prints the text of every frame, in order and once. -/
structure Decodes (pairs : Pairs) (bytes : List UInt8)
    (run : List Text × Option PythonError) : Prop where
  finished : run.2 = none
  printed : (frames opening closing bytes).map (gbk pairs) = run.1.map some

/-- Behind a carriage return the next frame is opened. -/
def OpensBehind (a b : UInt8) : Prop :=
  a = closing → b = opening

instance (a b : UInt8) : Decidable (OpensBehind a b) :=
  inferInstanceAs (Decidable (a = closing → b = opening))

/-- The mark that was read last, for a receiver with the given part of a frame. -/
def lastMark : Option (List UInt8) → UInt8
  | none => closing
  | some _ => opening

/-- An opening bracket may stand behind anything. -/
theorem isChain_cons_opening (a : UInt8) (bytes : List UInt8) :
    List.IsChain OpensBehind (a :: opening :: bytes) ↔
      List.IsChain OpensBehind (opening :: bytes) := by
  rw [List.isChain_cons_cons]
  exact and_iff_right fun _ => rfl

/-- In a chain it only matters whether the first byte is a carriage return. -/
theorem isChain_cons_of_ne {a b : UInt8} (ha : a ≠ closing) (hb : b ≠ closing)
    (bytes : List UInt8) :
    List.IsChain OpensBehind (a :: bytes) ↔ List.IsChain OpensBehind (b :: bytes) := by
  cases bytes with
  | nil => exact iff_of_true (List.isChain_singleton _) (List.isChain_singleton _)
  | cons c bytes =>
      rw [List.isChain_cons_cons, List.isChain_cons_cons]
      exact and_congr_left' (iff_of_true (fun h => absurd h ha) (fun h => absurd h hb))

/-- An opening bracket opens what the closing one closes. -/
theorem isChain_opening_closing (bytes : List UInt8) :
    List.IsChain OpensBehind (opening :: closing :: bytes) ↔
      List.IsChain OpensBehind (closing :: bytes) := by
  rw [List.isChain_cons_cons]
  apply and_iff_right
  intro hmark
  exact absurd hmark opening_ne_closing

/-- Inside a frame a byte that is no carriage return does not matter. -/
theorem isChain_opening_cons {b : UInt8} (hclosing : b ≠ closing) (bytes : List UInt8) :
    List.IsChain OpensBehind (opening :: b :: bytes) ↔
      List.IsChain OpensBehind (opening :: bytes) := by
  rw [List.isChain_cons_cons, isChain_cons_of_ne hclosing opening_ne_closing]
  apply and_iff_right
  intro hmark
  exact absurd hmark opening_ne_closing

/-! ## The receiver inside a frame -/

/-- The run of a receiver that holds the text of a part of a frame prints what the frames
say. -/
def DecodesFrom (pairs : Pairs) (part : Option (List UInt8)) (bytes : List UInt8) : Prop :=
  (receive pairs (part.map (List.map asciiChar)) bytes).2 = none ∧
    (framesFrom opening closing part bytes).map (gbk pairs) =
      (receive pairs (part.map (List.map asciiChar)) bytes).1.map some

/-- The frame starts, or starts again. -/
theorem decodesFrom_opening (pairs : Pairs) (part : Option (List UInt8)) (bytes : List UInt8) :
    DecodesFrom pairs part (opening :: bytes) ↔ DecodesFrom pairs (some []) bytes := by
  unfold DecodesFrom
  rw [receive_of_ok (step_opening pairs _), framesFrom, if_pos rfl]
  rfl

/-- Outside a frame a carriage return prints a line that belongs to no frame. -/
theorem not_decodesFrom_closing (pairs : Pairs) (bytes : List UInt8) :
    ¬ DecodesFrom pairs none (closing :: bytes) := by
  unfold DecodesFrom
  rw [receive_of_ok (step_closing pairs _), framesFrom, if_neg opening_ne_closing.symm, if_pos rfl]
  intro h
  rcases h with ⟨hfinished, hprinted⟩
  have hlines := length_receive hfinished
  have hframes := length_framesFrom_le opening_ne_closing none bytes
  have hlength := congrArg List.length hprinted
  simp only [List.length_map, List.length_append, Option.toList_none, Option.toList_some,
    List.length_nil, List.length_singleton] at hlength
  omega

/-- The frame ends and is printed. -/
theorem decodesFrom_closing (pairs : Pairs) {content : List UInt8}
    (hcontent : ∀ b ∈ content, b < 0x80) (bytes : List UInt8) :
    DecodesFrom pairs (some content) (closing :: bytes) ↔ DecodesFrom pairs none bytes := by
  unfold DecodesFrom
  rw [receive_of_ok (step_closing pairs _), framesFrom, if_neg opening_ne_closing.symm, if_pos rfl]
  simp only [Option.map_some, Option.getD_some, Option.toList_some, List.map_cons,
    gbk_of_ascii pairs hcontent, List.singleton_append, List.cons.injEq, true_and]
  rfl

/-- The frame goes on. -/
theorem decodesFrom_ascii (pairs : Pairs) (content : List UInt8) {b : UInt8}
    (hopening : b ≠ opening) (hclosing : b ≠ closing) (hb : b < 0x80) (bytes : List UInt8) :
    DecodesFrom pairs (some content) (b :: bytes) ↔
      DecodesFrom pairs (some (content ++ [b])) bytes := by
  have hpart : (some (content ++ [b])).map (List.map asciiChar) =
      some (content.map asciiChar ++ [asciiChar b]) := by
    rw [Option.map_some, List.map_append, List.map_singleton]
  unfold DecodesFrom
  rw [hpart, Option.map_some, receive_of_ok (step_ascii pairs _ hopening hclosing hb), framesFrom,
    if_neg hopening, if_neg hclosing]
  rfl

/-- What fails in the middle decodes to nothing. -/
theorem not_decodesFrom_of_error {pairs : Pairs} {part : Option (List UInt8)} {b : UInt8}
    {e : PythonError} (h : step pairs (part.map (List.map asciiChar)) b = .error e)
    (bytes : List UInt8) : ¬ DecodesFrom pairs part (b :: bytes) := by
  unfold DecodesFrom
  rw [receive_of_error h]
  intro hdecodes
  cases hdecodes.1

/-- Such a receiver prints what the frames say exactly if all bytes are below 0x80 and nothing
stands between the frames. -/
theorem decodesFrom_iff (pairs : Pairs) {part : Option (List UInt8)}
    (hpart : ∀ content, part = some content → ∀ b ∈ content, b < 0x80) (bytes : List UInt8) :
    DecodesFrom pairs part bytes ↔
      (∀ b ∈ bytes, b < 0x80) ∧ List.IsChain OpensBehind (lastMark part :: bytes) := by
  induction bytes generalizing part with
  | nil =>
      apply iff_of_true
      · exact ⟨rfl, rfl⟩
      · exact ⟨fun b hb => absurd hb List.not_mem_nil, List.isChain_singleton _⟩
  | cons b bytes ih =>
      rw [List.forall_mem_cons]
      by_cases hopening : b = opening
      · subst hopening
        rw [decodesFrom_opening, isChain_cons_opening, and_iff_right (by decide : opening < 0x80)]
        apply ih
        intro content hcontent c hc
        cases hcontent
        exact absurd hc List.not_mem_nil
      by_cases hclosing : b = closing
      · subst hclosing
        cases part with
        | none =>
            apply iff_of_false (not_decodesFrom_closing pairs bytes)
            intro h
            have hfirst := (List.isChain_cons_cons.mp h.2).1 rfl
            exact absurd hfirst (by decide)
        | some content =>
            rw [decodesFrom_closing pairs (hpart content rfl), lastMark, isChain_opening_closing,
              and_iff_right (by decide : closing < 0x80)]
            apply ih
            intro content hcontent
            cases hcontent
      by_cases hb : b < 0x80
      · cases part with
        | none =>
            rcases step_outside pairs hopening hclosing with ⟨e, hstep⟩
            apply iff_of_false (not_decodesFrom_of_error hstep bytes)
            intro h
            exact hopening ((List.isChain_cons_cons.mp h.2).1 rfl)
        | some content =>
            rw [decodesFrom_ascii pairs content hopening hclosing hb, lastMark,
              isChain_opening_cons hclosing, and_iff_right hb]
            apply ih
            intro longer hlonger c hc
            cases hlonger
            rcases List.mem_append.mp hc with hc | hc
            · exact hpart content rfl c hc
            · rw [List.mem_singleton.mp hc]
              exact hb
      · apply iff_of_false (not_decodesFrom_of_error (step_high pairs _ hopening hclosing hb) bytes)
        exact fun h => hb h.1.1

/-! ## Whole streams -/

/-- The receiver decodes a stream exactly if all its bytes are below 0x80 and the first byte
and every byte behind a carriage return are opening parentheses. -/
theorem receive_decodes_iff (pairs : Pairs) (bytes : List UInt8) :
    Decodes pairs bytes (receive pairs none bytes) ↔
      (∀ b ∈ bytes, b < 0x80) ∧ List.IsChain OpensBehind (closing :: bytes) := by
  have hfrom := @decodesFrom_iff pairs none (by
    intro content hcontent
    cases hcontent) bytes
  rw [DecodesFrom, framesFrom_none opening_ne_closing] at hfrom
  constructor
  · intro h
    exact hfrom.mp ⟨h.finished, h.printed⟩
  · intro h
    rcases hfrom.mpr h with ⟨hfinished, hprinted⟩
    exact ⟨hfinished, hprinted⟩

/-- The frame of one Chinese character ends the loop, as does the line feed behind a
frame; a carriage return outside all frames prints a line. -/
theorem receive_not_decodes :
    let pairs : Pairs := fun b c => if b = 0xd6 ∧ c = 0xd0 then some '中' else none
    frames opening closing [0x28, 0xd6, 0xd0, 0x0d] = [[0xd6, 0xd0]] ∧
      gbk pairs [0xd6, 0xd0] = some ['中'] ∧
      receive pairs none [0x28, 0xd6, 0xd0, 0x0d] = ([], some .unicodeDecodeError) ∧
      receive pairs none [0x28, 0x4f, 0x0d, 0x0a] = ([['O']], some .typeError) ∧
      receive pairs none [0x0d] = (["None".toList], none) ∧
      ¬ Decodes pairs [0x28, 0xd6, 0xd0, 0x0d]
        (receive pairs none [0x28, 0xd6, 0xd0, 0x0d]) := by
  intro pairs
  have hraises : receive pairs none [0x28, 0xd6, 0xd0, 0x0d] = ([], some .unicodeDecodeError) :=
    rfl
  apply And.intro (by decide)
  apply And.intro rfl
  apply And.intro hraises
  apply And.intro rfl
  apply And.intro rfl
  intro h
  have hfinished := h.finished
  rw [hraises] at hfinished
  cases hfinished

end SerialUtil
end TestAio
