import TestAio.Application.FileMain
import TestAio.Java.Long
import TestAio.Java.Split
import TestAio.Library.Effects

/-!
# The command loop of the video console

{lit}`FileMain.main` reads lines until it reads {lit}`exit`.  It warns about missing
parameters and about pairs that are no pairs, but passes paths and numbers on as they are.

Main results:

- Theorem {lit}`dispatch_safe_iff`: the lines that are taken apart without an exception and
  whose path has a title.
- Theorem {lit}`loop_not_thrown_iff`: the inputs that no line of throws.

Current gaps:

- The result of a query and what is printed besides the warnings are not modelled.
-/

namespace TestAio
namespace FileMain

open Library

/-! ## Reading a line -/

/-- What a query compares a column with. -/
inductive Value
  | text (value : JString)
  | long (value : Int)
deriving DecidableEq

/-- What a line asks for, once its parameters are read. -/
inductive Request
  | nothing
  | warn (message : JString)
  | command (command : Command)
  | query (conditions : List (JString × Value))

/-- The keys whose values {lit}`retrieve` reads as numbers. -/
def change : List JString :=
  [jstr "size", jstr "duration"]

/-- {lit}`getOrThrow`, which does not throw. -/
def getOrThrow (nodes : List JString) (index : Nat) : Option JString :=
  nodes[index]?

/-- The pair of a parameter, {lit}`null` if it is none. -/
def readPair (it : JString) : Option (JString × JString) :=
  match splitUnit (jchar '=') it with
  | [key, value] => some (key, value)
  | _ => none

/-- The condition that {lit}`retrieve` makes of a pair. -/
def condition (param : JString × JString) : Except JavaException (JString × Value) :=
  if change.contains param.1 then
    (parseLong param.2).map fun n => (param.1, .long n)
  else
    .ok (param.1, .text param.2)

/-- The request of the parameters of {lit}`query`. -/
def queryOf (param : JString) : Except JavaException Request :=
  let params := (splitUnit (jchar ',') param).map readPair
  if none ∈ params then
    .ok (.warn (jstr "参数有误"))
  else
    ((params.filterMap id).mapM condition).map .query

/-- The {lit}`switch` over the first word of a line. -/
def dispatch (probe : Probe) (nodes : List JString) : Except JavaException Request :=
  match nodes.head? with
  | none => .ok .nothing
  | some node =>
      if node = jstr "create" then
        match getOrThrow nodes 1 with
        | none => .ok (.warn (jstr "参数不全"))
        | some path => .ok (.command (.create path probe))
      else if node = jstr "update" then
        match getOrThrow nodes 1, getOrThrow nodes 2 with
        | some id, some path => (parseLong id).map fun id => .command (.update id path probe)
        | _, _ => .ok (.warn (jstr "参数不全"))
      else if node = jstr "remove" then
        match getOrThrow nodes 1 with
        | none => .ok (.warn (jstr "参数不全"))
        | some id => (parseLong id).map fun id => .command (.remove id)
      else if node = jstr "query" then
        match getOrThrow nodes 1 with
        | none => .ok (.query [])
        | some param => queryOf param
      else
        .ok .nothing

/-! ## The loop -/

/-- An exception that ends the loop. -/
inductive Thrown
  | java (e : JavaException)
  | command (e : Failure)
deriving DecidableEq

/-- One turn of the loop for a line other than {lit}`exit`: the warning, if any. -/
def turn (input : JString) (probe : Probe) (session : Session) :
    Except Thrown (Option JString) × Session :=
  match dispatch probe (splitUnit (jchar ' ') input) with
  | .error e => (.error (.java e), session)
  | .ok .nothing => (.ok none, session)
  | .ok (.warn message) => (.ok (some message), session)
  | .ok (.query _) => (.ok none, session)
  | .ok (.command command) =>
      match (perform command).run session with
      | (.ok _, session) => (.ok none, session)
      | (.error e, session) => (.error (.command e), session)

/-- How the loop ended. -/
inductive End
  | exit
  | thrown (e : Thrown)
deriving DecidableEq

/-- The loop over the lines that are typed, each with what its command draws; without an end
it waits for the next line. -/
def loop (session : Session) : List (JString × Probe) → Option End × Session
  | [] => (none, session)
  | (input, probe) :: rest =>
      if input = jstr "exit" then
        (some .exit, session)
      else
        match turn input probe session with
        | (.error e, session) => (some (.thrown e), session)
        | (.ok _, session) => loop session rest

/-! ## Which lines are safe -/

/-- The last part of a path has a dot. -/
def HasTitle (path : JString) : Prop :=
  ∃ filename, (splitPath path).getLast? = some filename ∧ jchar '.' ∈ filename

/-- If all parameters are pairs, the numbers among them can be read. -/
def SafeParams (param : JString) : Prop :=
  (∀ it ∈ splitUnit (jchar ',') param, (splitUnit (jchar '=') it).length = 2) →
    ∀ it ∈ splitUnit (jchar ',') param, ∀ key value, splitUnit (jchar '=') it = [key, value] →
      key ∈ change → IsLong value

/-- The parameters behind the first word of a line: paths have a title and numbers can be
read. -/
def SafeArgs (word : JString) (args : List JString) : Prop :=
  if word = jstr "create" then
    ∀ path ∈ args[0]?, HasTitle path
  else if word = jstr "update" then
    ∀ id ∈ args[0]?, ∀ path ∈ args[1]?, IsLong id ∧ HasTitle path
  else if word = jstr "remove" then
    ∀ id ∈ args[0]?, IsLong id
  else if word = jstr "query" then
    ∀ param ∈ args[0]?, SafeParams param
  else
    True

/-- A safe line. -/
def SafeLine (input : JString) : Prop :=
  ∀ word args, splitUnit (jchar ' ') input = word :: args → SafeArgs word args

/-- The path of a request has a title. -/
def Request.Titled : Request → Prop
  | .command (.create path _) => HasTitle path
  | .command (.update _ path _) => HasTitle path
  | _ => True

theorem titleAndType_isOk_iff (path : JString) :
    (∃ parts, titleAndType path = .ok parts) ↔ HasTitle path := by
  unfold titleAndType HasTitle
  cases (splitPath path).getLast? with
  | none => simp
  | some filename =>
      dsimp only
      cases hindex : filename.reverse.idxOf? (jchar '.') with
      | none =>
          have hnot := List.idxOf?_eq_none_iff.mp hindex
          rw [List.mem_reverse] at hnot
          simp [hnot]
      | some index =>
          have hmem : jchar '.' ∈ filename := by
            by_contra hnot
            rw [← List.mem_reverse, ← List.idxOf?_eq_none_iff, hindex] at hnot
            cases hnot
          simp [hmem]

/-- On a database whose calls succeed a command succeeds exactly if its path has a title. -/
theorem perform_isOk_iff (command : Command) {session : Session} (h : session.failing = none) :
    ((∃ u, ((perform command).run session).1 = .ok u) ↔ (Request.command command).Titled) ∧
      ((perform command).run session).2.failing = none := by
  rcases session with ⟨db, failing⟩
  cases h
  cases command with
  | create path probe =>
      have htitle := titleAndType_isOk_iff path
      dsimp only [perform, create, Request.Titled]
      rw [← htitle]
      cases titleAndType path with
      | error e => exact ⟨iff_of_false (fun h => by cases h; contradiction) (by simp), rfl⟩
      | ok parts => exact ⟨iff_of_true ⟨(), rfl⟩ ⟨parts, rfl⟩, rfl⟩
  | update id path probe =>
      have htitle := titleAndType_isOk_iff path
      dsimp only [perform, update, Request.Titled]
      rw [← htitle]
      cases titleAndType path with
      | error e => exact ⟨iff_of_false (fun h => by cases h; contradiction) (by simp), rfl⟩
      | ok parts => exact ⟨iff_of_true ⟨(), rfl⟩ ⟨parts, rfl⟩, rfl⟩
  | remove id => exact ⟨iff_of_true ⟨(), rfl⟩ trivial, rfl⟩

theorem readPair_eq_none_iff (it : JString) :
    readPair it = none ↔ (splitUnit (jchar '=') it).length ≠ 2 := by
  unfold readPair
  split
  · rename_i key value hpair
    rw [hpair]
    simp
  · rename_i hpair
    apply iff_of_true rfl
    intro hlength
    rcases List.length_eq_two.mp hlength with ⟨key, value, hkv⟩
    exact hpair key value hkv

theorem readPair_eq_some_iff {it key value : JString} :
    readPair it = some (key, value) ↔ splitUnit (jchar '=') it = [key, value] := by
  unfold readPair
  split
  · rename_i key' value' hpair
    rw [hpair]
    simp
  · rename_i hpair
    apply iff_of_false
    · intro h
      cases h
    · exact hpair key value

theorem condition_isOk_iff (param : JString × JString) :
    (∃ c, condition param = .ok c) ↔ (param.1 ∈ change → IsLong param.2) := by
  unfold condition
  split
  · rename_i hkey
    rw [List.contains_iff_mem] at hkey
    rw [Effects.map_isOk_iff, parseLong_isOk_iff]
    exact ⟨fun h _ => h, fun h => h hkey⟩
  · rename_i hkey
    rw [List.contains_iff_mem] at hkey
    exact iff_of_true ⟨_, rfl⟩ fun h => absurd h hkey

/-- The parameters of a query are read exactly if they are safe. -/
theorem queryOf_isOk_iff (param : JString) :
    (∃ request, queryOf param = .ok request) ↔ SafeParams param := by
  have hnone : none ∈ (splitUnit (jchar ',') param).map readPair ↔
      ¬ ∀ it ∈ splitUnit (jchar ',') param, (splitUnit (jchar '=') it).length = 2 := by
    rw [List.mem_map]
    simp only [readPair_eq_none_iff]
    push Not
    rfl
  unfold queryOf
  dsimp only
  split
  · rename_i hbad
    exact iff_of_true ⟨_, rfl⟩ fun hall => absurd hall (hnone.mp hbad)
  · rename_i hgood
    have hall := not_not.mp (mt hnone.mpr hgood)
    rw [Effects.map_isOk_iff, Effects.mapM_isOk_iff]
    constructor
    · intro h _ it hit key value hpair hkey
      have hmem : (key, value) ∈ ((splitUnit (jchar ',') param).map readPair).filterMap id := by
        rw [List.mem_filterMap]
        exact ⟨_, List.mem_map.mpr ⟨it, hit, readPair_eq_some_iff.mpr hpair⟩, rfl⟩
      exact (condition_isOk_iff _).mp (h _ hmem) hkey
    · intro h pair hpair
      rw [condition_isOk_iff]
      intro hkey
      rcases List.mem_filterMap.mp hpair with ⟨read, hread, rfl⟩
      rcases List.mem_map.mp hread with ⟨it, hit, hit'⟩
      exact h hall it hit pair.1 pair.2 (readPair_eq_some_iff.mp hit') hkey

/-! ## Every line -/

/-- A line is taken apart without an exception, and its path has a title, exactly if it is
safe. -/
theorem dispatch_safe_iff (probe : Probe) (word : JString) (args : List JString) :
    (∃ request, dispatch probe (word :: args) = .ok request ∧ request.Titled) ↔
      SafeArgs word args := by
  unfold dispatch SafeArgs
  rw [List.head?_cons]
  dsimp only [getOrThrow]
  rw [List.getElem?_cons_succ, List.getElem?_cons_succ]
  split
  · -- create
    cases args[0]? with
    | none => simp [Request.Titled]
    | some path => simp [Request.Titled]
  split
  · -- update
    cases args[0]? with
    | none => simp [Request.Titled]
    | some id =>
        cases args[1]? with
        | none => simp [Request.Titled]
        | some path =>
            dsimp only
            rw [Effects.exists_map_eq_ok_iff]
            simp only [Request.Titled, exists_and_right, parseLong_isOk_iff, Option.mem_def,
              Option.some.injEq, forall_eq']
  split
  · -- remove
    cases args[0]? with
    | none => simp [Request.Titled]
    | some id =>
        dsimp only
        rw [Effects.exists_map_eq_ok_iff]
        simp only [Request.Titled, and_true, parseLong_isOk_iff, Option.mem_def,
          Option.some.injEq, forall_eq']
  split
  · -- query
    cases args[0]? with
    | none => simp [Request.Titled]
    | some param =>
        dsimp only
        have htitled : ∀ request, queryOf param = .ok request → request.Titled := by
          intro request hrequest
          unfold queryOf at hrequest
          dsimp only at hrequest
          split at hrequest
          · cases hrequest
            trivial
          · rcases Effects.map_eq_ok_iff.mp hrequest with ⟨conditions, -, rfl⟩
            trivial
        simp only [Option.mem_def, Option.some.injEq, forall_eq', ← queryOf_isOk_iff]
        exact exists_congr fun request => and_iff_left_of_imp (htitled request)
  · simp [Request.Titled]

/-- On a database whose calls succeed, a turn throws nothing exactly if its line is safe. -/
theorem turn_isOk_iff (input : JString) (probe : Probe) {session : Session}
    (h : session.failing = none) :
    ((∃ warning, (turn input probe session).1 = .ok warning) ↔ SafeLine input) ∧
      (turn input probe session).2.failing = none := by
  unfold turn SafeLine
  cases splitUnit (jchar ' ') input with
  | nil => exact ⟨iff_of_true ⟨none, rfl⟩ (fun word args hnil => by cases hnil), h⟩
  | cons word args =>
      have hsafe := dispatch_safe_iff probe word args
      have hline : (∀ word' args', word :: args = word' :: args' → SafeArgs word' args') ↔
          SafeArgs word args := by
        constructor
        · intro hall
          exact hall word args rfl
        · intro hargs word' args' hcons
          cases hcons
          exact hargs
      rw [hline, ← hsafe]
      cases dispatch probe (word :: args) with
      | error e => simp [h]
      | ok request =>
          cases request with
          | nothing => simp [h, Request.Titled]
          | warn message => simp [h, Request.Titled]
          | query conditions => simp [h, Request.Titled]
          | command command =>
              rcases perform_isOk_iff command h with ⟨hok, hfailing⟩
              dsimp only
              cases hrun : (perform command).run session with
              | mk result session' =>
                  rw [hrun] at hok hfailing
                  dsimp only at hok hfailing
                  cases result with
                  | ok u => simpa [hfailing] using hok
                  | error e => simpa [hfailing] using hok

/-- On a database whose calls succeed, the loop is never ended by an exception exactly if
every line in front of the first {lit}`exit` is safe: paths have a dot in their last part, and
ids as well as sizes and durations are numbers that fit. -/
theorem loop_not_thrown_iff (session : Session) (h : session.failing = none)
    (lines : List (JString × Probe)) :
    (∀ e, (loop session lines).1 ≠ some (.thrown e)) ↔
      ∀ line ∈ lines.takeWhile (fun line => line.1 ≠ jstr "exit"), SafeLine line.1 := by
  induction lines generalizing session with
  | nil => simp [loop]
  | cons line lines ih =>
      rcases line with ⟨input, probe⟩
      rw [loop]
      by_cases hexit : input = jstr "exit"
      · rw [if_pos hexit, List.takeWhile_cons_of_neg (by simpa using hexit)]
        simp
      · rw [if_neg hexit, List.takeWhile_cons_of_pos (by simpa using hexit), List.forall_mem_cons]
        rcases turn_isOk_iff input probe h with ⟨hok, hfailing⟩
        cases hturn : turn input probe session with
        | mk result session' =>
            rw [hturn] at hok hfailing
            rw [← hok]
            cases result with
            | error e => simp
            | ok warning =>
                dsimp only
                rw [ih session' hfailing]
                simp

/-- A line of every command. -/
def typedLines : List (JString × Probe) :=
  [(jstr "create a/b.mp4", ⟨1, 600, 0⟩), (jstr "update 1 b.mp4", ⟨1, 600, 0⟩),
    (jstr "query size=5,type=mp4", ⟨1, 600, 0⟩), (jstr "remove 1", ⟨1, 600, 0⟩)]

/-- They are safe, since the loop waits for another line behind them. -/
theorem safeLine_typedLines :
    SafeLine (jstr "create a/b.mp4") ∧ SafeLine (jstr "update 1 b.mp4") ∧
      SafeLine (jstr "query size=5,type=mp4") ∧ SafeLine (jstr "remove 1") := by
  have hrun : (loop ⟨.empty, none⟩ typedLines).1 = none := by decide
  have hall : typedLines.takeWhile (fun line => line.1 ≠ jstr "exit") = typedLines := rfl
  have hsafe := (loop_not_thrown_iff ⟨.empty, none⟩ rfl typedLines).mp (by
    intro e h
    rw [hrun] at h
    cases h)
  rw [hall] at hsafe
  simp only [typedLines, List.forall_mem_cons] at hsafe
  exact ⟨hsafe.1, hsafe.2.1, hsafe.2.2.1, hsafe.2.2.2.1⟩

/-- A path without a dot, one of separators only, and ids and sizes that are no numbers end
the loop. -/
theorem loop_thrown :
    (loop ⟨.empty, none⟩ [(jstr "create video", ⟨1, 600, 0⟩), (jstr "exit", ⟨1, 600, 0⟩)]).1 =
        some (.thrown (.command .indexOutOfBounds)) ∧
      (loop ⟨.empty, none⟩ [(jstr "create /", ⟨1, 600, 0⟩), (jstr "exit", ⟨1, 600, 0⟩)]).1 =
        some (.thrown (.command .indexOutOfBounds)) ∧
      (loop ⟨.empty, none⟩ [(jstr "remove x", ⟨1, 600, 0⟩), (jstr "exit", ⟨1, 600, 0⟩)]).1 =
        some (.thrown (.java .numberFormat)) ∧
      (loop ⟨.empty, none⟩ [(jstr "query size=big", ⟨1, 600, 0⟩), (jstr "exit", ⟨1, 600, 0⟩)]).1 =
        some (.thrown (.java .numberFormat)) := by
  decide

end FileMain
end TestAio
