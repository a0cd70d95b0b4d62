import TestAio.Java.Text
import TestAio.Library.KeyedTable

/-!
# The video console

{lit}`FileMain` keeps video files and their audio channels in two tables.  Every
mapper call is one statement.  The sessions are opened with
{lit}`openSession(true)`, so each statement commits on its own, and a statement that
fails ends its command by an exception that takes nothing back.

Main results:

- Theorem {lit}`execute_eq_take`: a command leaves the tables as after the statements
  before the failing one.
- Theorem {lit}`execute_of_not_torn`: a command that does not fail between two of its
  statements is all or nothing.
- Theorem {lit}`run_consistent`: without such a failure every file has its two channels
  and every channel its file after every command.

Current gaps:

- The commands are those {lit}`main` calls; its loop over the lines is modelled apart.
- The random sizes and dates are data of the command.
-/

namespace TestAio
namespace FileMain

open Library.KeyedTable

/-! ## The tables -/

/-- A row of {lit}`video_file`. -/
structure VideoFile where
  id : Nat
  path : JString
  title : JString
  size : Nat
  time : Int
  duration : Nat
  type : JString
deriving DecidableEq

/-- A row of {lit}`video_audio`. -/
structure VideoAudio where
  id : Nat
  vid : Nat
  channel : Nat
  type : JString
  text : JString
deriving DecidableEq

/-- The database of {lit}`third.sql`; both keys are {lit}`auto_increment`. -/
structure Database where
  videoFile : Table VideoFile.id
  videoAudio : Table VideoAudio.id

/-- The database right after the tables were created. -/
def Database.empty : Database where
  videoFile := .empty _
  videoAudio := .empty _

/-- The audio rows that refer to a file. -/
def Database.audios (db : Database) (vid : Nat) : List VideoAudio :=
  db.videoAudio.rows.filter fun audio => audio.vid = vid

/-! ## Statements -/

/-- {lit}`videoFileMapper.insert`; the generated key is written back. -/
def Database.insertFile (db : Database) (make : Nat → VideoFile)
    (hmake : ∀ n, (make n).id = n) : Database :=
  { db with videoFile := db.videoFile.insert make hmake }

/-- {lit}`videoAudioMapper.insert(new VideoAudio(vid, channel, type, text))`. -/
def Database.insertAudio (db : Database) (vid channel : Nat) (type text : JString) : Database :=
  let make := fun id =>
    ({ id := id, vid := vid, channel := channel, type := type, text := text } : VideoAudio)
  { db with videoAudio := db.videoAudio.insert make fun _ => rfl }

/-- The row after {lit}`updateById`: the row with the key takes over all other fields. -/
def VideoFile.overwrite (id : Int) (file row : VideoFile) : VideoFile :=
  if (row.id : Int) = id then { file with id := row.id } else row

@[simp]
theorem VideoFile.overwrite_id (id : Int) (file row : VideoFile) :
    (VideoFile.overwrite id file row).id = row.id := by
  unfold VideoFile.overwrite
  split_ifs <;> rfl

/-- {lit}`videoFileMapper.updateById`. -/
def Database.updateFile (db : Database) (id : Int) (file : VideoFile) : Database :=
  { db with videoFile := db.videoFile.modify (VideoFile.overwrite id file)
              fun row => VideoFile.overwrite_id id file row }

/-- {lit}`videoFileMapper.deleteById`. -/
def Database.deleteFile (db : Database) (id : Int) : Database :=
  { db with videoFile := db.videoFile.remove fun row => (row.id : Int) = id }

/-- {lit}`videoAudioMapper.delete` with the condition {lit}`vid = id`. -/
def Database.deleteAudios (db : Database) (id : Int) : Database :=
  { db with videoAudio := db.videoAudio.remove fun row => (row.vid : Int) = id }

/-! ## Sessions -/

/-- The exceptions that end a command. -/
inductive Failure
  | indexOutOfBounds
  | sql
deriving DecidableEq

/-- The database and the number of statements that succeed before one fails. -/
structure Session where
  db : Database
  failing : Option Nat

/-- A command, which may end by an exception; the database keeps what was committed. -/
abbrev Mapper := ExceptT Failure (StateM Session)

/-- One statement: it fails, or it takes effect and is committed. -/
def statement (effect : Database → Database) : Mapper Unit := fun session =>
  match session.failing with
  | some 0 => (.error .sql, session)
  | failing => (.ok (), { db := effect session.db, failing := failing.map (· - 1) })

/-- {lit}`path.split("[/\\\\]")`: empty parts at the end are dropped, unless nothing was
split. -/
def splitPath (path : JString) : List JString :=
  let separator := fun c => c = jchar '/' || c = jchar '\\'
  if path.any separator then
    ((path.splitOnP separator).reverse.dropWhile List.isEmpty).reverse
  else
    [path]

/-- The file name split at its last dot. -/
def titleAndType (path : JString) : Except Failure (JString × JString) :=
  match (splitPath path).getLast? with
  | none => .error .indexOutOfBounds
  | some filename =>
      match filename.reverse.idxOf? (jchar '.') with
      | none => .error .indexOutOfBounds
      | some index =>
          .ok (filename.take (filename.length - 1 - index),
            filename.drop (filename.length - index))

/-- What a command draws at random or reads from the clock. -/
structure Probe where
  size : Nat
  duration : Nat
  time : Int

/-- The row {lit}`create` and {lit}`update` build for a path. -/
def videoRow (path title type : JString) (probe : Probe) (id : Nat) : VideoFile where
  id := id
  path := path
  title := title
  size := 1048576 * probe.size
  time := probe.time
  duration := probe.duration
  type := type

/-- The commands that change the tables. -/
inductive Command
  | create (path : JString) (probe : Probe)
  | update (id : Int) (path : JString) (probe : Probe)
  | remove (id : Int)

/-- {lit}`FileMain.create`. -/
def create (path : JString) (probe : Probe) : Mapper Unit :=
  match titleAndType path with
  | .error e => throw e
  | .ok (name, extra) => do
      let vid := (← get).db.videoFile.next
      statement (·.insertFile (videoRow path name extra probe) fun _ => rfl)
      statement (·.insertAudio vid 1 (jstr "aac") [])
      statement (·.insertAudio vid 2 (jstr "aac") [])

/-- {lit}`FileMain.update`. -/
def update (id : Int) (path : JString) (probe : Probe) : Mapper Unit :=
  match titleAndType path with
  | .error e => throw e
  | .ok (name, extra) => statement (·.updateFile id (videoRow path name extra probe 0))

/-- {lit}`FileMain.delete`. -/
def delete (id : Int) : Mapper Unit := do
  statement (·.deleteFile id)
  statement (·.deleteAudios id)

/-- The call {lit}`main` makes for a command. -/
def perform : Command → Mapper Unit
  | .create path probe => create path probe
  | .update id path probe => update id path probe
  | .remove id => delete id

/-- A command together with the number of its statements that succeed, when one
fails. -/
structure Attempt where
  command : Command
  failing : Option Nat

/-- The database after an attempt. -/
def execute (db : Database) (attempt : Attempt) : Database :=
  ((perform attempt.command).run { db := db, failing := attempt.failing }).2.db

/-- The database after a history of attempts. -/
def run (db : Database) (history : List Attempt) : Database :=
  history.foldl execute db

/-! ## A command commits a part of its statements from the front -/

/-- The statements of a command on a database, in order. -/
def statements (db : Database) : Command → List (Database → Database)
  | .create path probe =>
      match titleAndType path with
      | .error _ => []
      | .ok (name, extra) =>
          [(·.insertFile (videoRow path name extra probe) fun _ => rfl),
            (·.insertAudio db.videoFile.next 1 (jstr "aac") []),
            (·.insertAudio db.videoFile.next 2 (jstr "aac") [])]
  | .update id path probe =>
      match titleAndType path with
      | .error _ => []
      | .ok (name, extra) => [(·.updateFile id (videoRow path name extra probe 0))]
  | .remove id => [(·.deleteFile id), (·.deleteAudios id)]

/-- The database after some statements. -/
def applyAll (statements : List (Database → Database)) (db : Database) : Database :=
  statements.foldl (fun db effect => effect db) db

/-- The number of statements of an attempt that succeed. -/
def Attempt.executed (attempt : Attempt) (db : Database) : Nat :=
  min (attempt.failing.getD (statements db attempt.command).length)
    (statements db attempt.command).length

/-- The attempt fails behind its first statement. -/
def Attempt.Torn (attempt : Attempt) (db : Database) : Prop :=
  0 < attempt.executed db ∧ attempt.executed db < (statements db attempt.command).length

/-- A sequence of statements commits those before the failing one. -/
theorem forM_statement_db (effects : List (Database → Database)) (session : Session) :
    ((effects.forM statement).run session).2.db =
      applyAll (effects.take (session.failing.getD effects.length)) session.db := by
  induction effects generalizing session with
  | nil =>
      rw [List.take_nil]
      rfl
  | cons effect effects ih =>
      rcases session with ⟨db, failing⟩
      have hrest := ih { db := effect db, failing := failing.map (· - 1) }
      rcases failing with _ | _ | k
      · exact hrest
      · rfl
      · exact hrest

/-- A command runs its statements one after the other. -/
theorem perform_run (command : Command) (session : Session) :
    ((perform command).run session).2 =
      (((statements session.db command).forM statement).run session).2 := by
  rcases session with ⟨db, failing⟩
  cases command with
  | create path probe =>
      simp only [perform, create, statements]
      cases titleAndType path with
      | error e => rfl
      | ok parts => rcases failing with _ | _ | _ | _ | k <;> rfl
  | update id path probe =>
      simp only [perform, update, statements]
      cases titleAndType path with
      | error e => rfl
      | ok parts => rcases failing with _ | _ | k <;> rfl
  | remove id => rcases failing with _ | _ | _ | k <;> rfl

/-- A command leaves the tables as after the statements before the failing one. -/
theorem execute_eq_take (db : Database) (attempt : Attempt) :
    execute db attempt =
      applyAll ((statements db attempt.command).take (attempt.executed db)) db := by
  unfold execute
  rw [perform_run, forM_statement_db, Attempt.executed, ← List.take_eq_take_min]

/-- A command that does not fail behind its first statement is all or nothing. -/
theorem execute_of_not_torn {db : Database} {attempt : Attempt} (h : ¬ attempt.Torn db) :
    execute db attempt = db ∨
      execute db attempt = applyAll (statements db attempt.command) db := by
  rw [execute_eq_take]
  unfold Attempt.Torn at h
  by_cases hzero : attempt.executed db = 0
  · left
    rw [hzero]
    rfl
  · right
    rw [List.take_of_length_le (by omega)]

/-! ## Files and their channels -/

/-- Every file has exactly its two channels, and every audio row refers to a file. -/
structure Consistent (db : Database) : Prop where
  channels : ∀ file ∈ db.videoFile.rows, (db.audios file.id).map VideoAudio.channel = [1, 2]
  refers : ∀ audio ∈ db.videoAudio.rows, ∃ file ∈ db.videoFile.rows, file.id = audio.vid

theorem Consistent.empty : Consistent .empty where
  channels := by simp [Database.empty, Table.empty]
  refers := by simp [Database.empty, Table.empty]

/-- No audio row refers to the key that the next file will get. -/
theorem Consistent.audios_next {db : Database} (h : Consistent db) :
    db.audios db.videoFile.next = [] := by
  rw [Database.audios, List.filter_eq_nil_iff]
  intro audio haudio hvid
  rcases h.refers audio haudio with ⟨file, hfile, hid⟩
  have hlt := db.videoFile.key_lt file hfile
  rw [hid, of_decide_eq_true hvid] at hlt
  exact Nat.lt_irrefl _ hlt

theorem audios_insertAudio (db : Database) (vid channel : Nat) (type text : JString)
    (id : Nat) :
    ((db.insertAudio vid channel type text).audios id).map VideoAudio.channel =
      (db.audios id).map VideoAudio.channel ++ if vid = id then [channel] else [] := by
  unfold Database.audios Database.insertAudio
  rw [Table.insert_rows, List.filter_append, List.map_append]
  congr 1
  split_ifs with hid <;> simp [hid]

/-- The three statements of {lit}`create` add a file with its channels. -/
theorem Consistent.create {db : Database} (h : Consistent db) (make : Nat → VideoFile)
    (hmake : ∀ n, (make n).id = n) (type : JString) :
    Consistent (((db.insertFile make hmake).insertAudio db.videoFile.next 1 type []).insertAudio
      db.videoFile.next 2 type []) where
  channels := by
    intro file hfile
    rw [audios_insertAudio, audios_insertAudio]
    change (db.audios file.id).map _ ++ _ ++ _ = _
    change file ∈ db.videoFile.rows ++ [make db.videoFile.next] at hfile
    rcases List.mem_append.mp hfile with hfile | hfile
    · have hne : db.videoFile.next ≠ file.id :=
        (Nat.ne_of_lt (db.videoFile.key_lt file hfile)).symm
      rw [if_neg hne, if_neg hne, List.append_nil, List.append_nil]
      exact h.channels file hfile
    · have hid : db.videoFile.next = file.id := by
        rw [List.mem_singleton.mp hfile, hmake]
      rw [if_pos hid, if_pos hid, ← hid, h.audios_next]
      rfl
  refers := by
    intro audio haudio
    change audio ∈ (db.videoAudio.rows ++ [_]) ++ [_] at haudio
    change ∃ file ∈ db.videoFile.rows ++ [make db.videoFile.next], _
    have hnew : make db.videoFile.next ∈ db.videoFile.rows ++ [make db.videoFile.next] := by simp
    rcases List.mem_append.mp haudio with haudio | haudio
    · rcases List.mem_append.mp haudio with haudio | haudio
      · rcases h.refers audio haudio with ⟨file, hfile, hid⟩
        exact ⟨file, List.mem_append_left _ hfile, hid⟩
      · refine ⟨_, hnew, ?_⟩
        rw [List.mem_singleton.mp haudio, hmake]
    · refine ⟨_, hnew, ?_⟩
      rw [List.mem_singleton.mp haudio, hmake]

theorem Consistent.update {db : Database} (h : Consistent db) (id : Int) (file : VideoFile) :
    Consistent (db.updateFile id file) where
  channels := by
    intro row hrow
    rcases List.mem_map.mp hrow with ⟨old, hold, rfl⟩
    rw [VideoFile.overwrite_id]
    exact h.channels old hold
  refers := by
    intro audio haudio
    rcases h.refers audio haudio with ⟨old, hold, hid⟩
    refine ⟨VideoFile.overwrite id file old, ?_, ?_⟩
    · exact List.mem_map_of_mem hold
    · rw [VideoFile.overwrite_id, hid]

/-- The two statements of {lit}`delete` remove a file with its channels. -/
theorem Consistent.remove {db : Database} (h : Consistent db) (id : Int) :
    Consistent ((db.deleteFile id).deleteAudios id) where
  channels := by
    intro file hfile
    rcases Table.mem_remove_rows.mp hfile with ⟨hfile, hid⟩
    have hkeep : ((db.deleteFile id).deleteAudios id).audios file.id = db.audios file.id := by
      change (db.videoAudio.rows.filter _).filter _ = db.videoAudio.rows.filter _
      rw [List.filter_filter]
      refine List.filter_congr fun audio _ => ?_
      by_cases hvid : audio.vid = file.id
      · simp_all
      · simp [hvid]
    rw [hkeep]
    exact h.channels file hfile
  refers := by
    intro audio haudio
    rcases Table.mem_remove_rows.mp haudio with ⟨haudio, hvid⟩
    rcases h.refers audio haudio with ⟨file, hfile, hid⟩
    refine ⟨file, Table.mem_remove_rows.mpr ⟨hfile, ?_⟩, hid⟩
    rw [hid]
    exact hvid

/-- A full command keeps the tables consistent. -/
theorem Consistent.applyAll_statements {db : Database} (h : Consistent db)
    (command : Command) : Consistent (applyAll (statements db command) db) := by
  cases command with
  | create path probe =>
      simp only [statements]
      cases titleAndType path with
      | error e => exact h
      | ok parts => exact h.create _ _ _
  | update id path probe =>
      simp only [statements]
      cases titleAndType path with
      | error e => exact h
      | ok parts => exact h.update _ _
  | remove id => exact h.remove id

/-- An attempt that is not torn keeps the tables consistent. -/
theorem Consistent.execute {db : Database} (h : Consistent db) {attempt : Attempt}
    (htorn : ¬ attempt.Torn db) : Consistent (FileMain.execute db attempt) := by
  rcases execute_of_not_torn htorn with hsame | hall
  · rw [hsame]
    exact h
  · rw [hall]
    exact h.applyAll_statements _

/-- Some attempt of a history fails behind its first statement. -/
def TornHistory (db : Database) (history : List Attempt) : Prop :=
  ∃ before attempt after, history = before ++ attempt :: after ∧ attempt.Torn (run db before)

/-- A history without such a failure keeps the tables consistent. -/
theorem run_consistent {db : Database} (h : Consistent db) {history : List Attempt}
    (htorn : ¬ TornHistory db history) : Consistent (run db history) := by
  induction history generalizing db with
  | nil => exact h
  | cons attempt history ih =>
      have hfirst : ¬ attempt.Torn db := fun ht =>
        htorn ⟨[], attempt, history, rfl, ht⟩
      refine ih (h.execute hfirst) ?_
      rintro ⟨before, later, after, rfl, ht⟩
      exact htorn ⟨attempt :: before, later, after, rfl, ht⟩

/-- An update is never torn. -/
theorem not_torn_update (db : Database) (id : Int) (path : JString) (probe : Probe)
    (failing : Option Nat) : ¬ Attempt.Torn ⟨.update id path probe, failing⟩ db := by
  have hlength : (statements db (.update id path probe)).length ≤ 1 := by
    simp only [statements]
    cases titleAndType path <;> simp
  rintro ⟨hpos, hlt⟩
  exact absurd (hlt.trans_le hlength) (by omega)

/-- Every command of a history commits its statements up to the failing one, it is all
or nothing unless it fails behind its first statement, and as long as that has not
happened the tables are consistent after every command. -/
theorem run_commits_front (db : Database) (h : Consistent db) (history : List Attempt) :
    (∀ before attempt after, history = before ++ attempt :: after →
      execute (run db before) attempt =
          applyAll ((statements (run db before) attempt.command).take
            (attempt.executed (run db before))) (run db before) ∧
        (¬ attempt.Torn (run db before) →
          execute (run db before) attempt = run db before ∨
            execute (run db before) attempt =
              applyAll (statements (run db before) attempt.command) (run db before)) ∧
        (∀ id path probe, attempt.command = .update id path probe →
          ¬ attempt.Torn (run db before))) ∧
    (∀ before after, history = before ++ after → ¬ TornHistory db before →
      Consistent (run db before)) := by
  refine ⟨fun before attempt after _ => ⟨?_, ?_, ?_⟩, fun before after _ hbefore => ?_⟩
  · exact execute_eq_take _ _
  · exact execute_of_not_torn
  · intro id path probe hcommand
    rcases attempt with ⟨command, failing⟩
    cases hcommand
    exact not_torn_update _ _ _ _ _
  · exact run_consistent h hbefore

/-- The create command of the two examples below. -/
def createMovie (failing : Option Nat) : Attempt where
  command := .create (jstr "d/movie.mp4") { size := 1, duration := 600, time := 0 }
  failing := failing

/-- A creation on the new database, one that fails at its second statement, and a removal. -/
theorem run_commits_front_createMovie :
    (∀ before attempt after,
      [createMovie none, createMovie (some 1), ⟨.remove 1, none⟩] = before ++ attempt :: after →
      execute (run .empty before) attempt =
          applyAll ((statements (run .empty before) attempt.command).take
            (attempt.executed (run .empty before))) (run .empty before) ∧
        (¬ attempt.Torn (run .empty before) →
          execute (run .empty before) attempt = run .empty before ∨
            execute (run .empty before) attempt =
              applyAll (statements (run .empty before) attempt.command) (run .empty before)) ∧
        (∀ id path probe, attempt.command = .update id path probe →
          ¬ attempt.Torn (run .empty before))) ∧
    (∀ before after,
      [createMovie none, createMovie (some 1), ⟨.remove 1, none⟩] = before ++ after →
      ¬ TornHistory .empty before → Consistent (run .empty before)) :=
  run_commits_front .empty Consistent.empty _

/-- When the second insert of a creation fails, the file stays without a channel. -/
theorem createMovie_torn :
    execute .empty (createMovie (some 1)) ≠ .empty ∧
      execute .empty (createMovie (some 1)) ≠
        applyAll (statements .empty (createMovie (some 1)).command) .empty ∧
      ¬ Consistent (execute .empty (createMovie (some 1))) := by
  refine ⟨fun h => ?_, fun h => ?_, fun h => ?_⟩
  · have hrows := congrArg (fun db : Database => db.videoFile.rows.length) h
    exact absurd hrows (by decide)
  · have hrows := congrArg (fun db : Database => db.videoAudio.rows.length) h
    exact absurd hrows (by decide)
  · have hfile : videoRow (jstr "d/movie.mp4") (jstr "movie") (jstr "mp4")
        { size := 1, duration := 600, time := 0 } 1 ∈
          (execute .empty (createMovie (some 1))).videoFile.rows := by decide
    exact absurd (h.channels _ hfile) (by decide)

end FileMain
end TestAio
