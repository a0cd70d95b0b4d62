import TestAio.Java.Pattern
import TestAio.Library.Effects
import TestAio.Library.FileTree

/-!
# The import walk

{lit}`ParseDoc.travel` walks a directory, parses the documents it recognises and deletes
what parsed, what is junk and what it does not know.  After each deletion the
directory is deleted too when its listing is empty, or when the listing fails.

Main results:

- Theorem {lit}`exists_travel`: with enough fuel for the depth of the tree the walk ends.
- Theorem {lit}`walked_travel`: what the walk leaves intact is what its clean-up steps spare.
- Theorem {lit}`travel_preserves_iff`: no unparsed document is destroyed exactly when no
  directory whose listing fails holds anything protected at its clean-up.

Current gaps:

- The console output is not modelled.
-/

namespace TestAio
namespace ParseDoc

open Library

/-- A file name. -/
abbrev Name := JString

/-- A path below the directory the walk starts in. -/
abbrev Path := List Name

/-- A directory tree on disk. -/
abbrev Disk := FileTree Name

/-! ## Names -/

/-- {lit}`text.endsWith(tail)`. -/
def endsWith (text tail : JString) : Bool :=
  tail.isSuffixOf text

/-- {lit}`FOLDER_REGEX` is found in the name. -/
def hidden (name : Name) : Bool :=
  match name with
  | [] => false
  | c :: _ => c == jchar '.' || c == jchar '$'

/-- The names that are deleted without a look. -/
def junk (name : Name) : Bool :=
  startsWith name (jstr "._") || startsWith name (jstr "~$")

/-- The ending of a document. -/
def docx : JString :=
  jstr ".docx"

/-- What {lit}`.` does not match. -/
def isLineTerminator (c : JChar) : Bool :=
  c == 0x0A || c == 0x0D || c == 0x85 || c == 0x2028 || c == 0x2029

/-- What {lit}`.*` matches in front of the last {lit}`.docx`. -/
def beforeLastDocx : JString → Option JString
  | [] => none
  | c :: rest =>
      match beforeLastDocx rest with
      | some title => some (c :: title)
      | none => if startsWith (c :: rest) docx then some [] else none

/-- A match of {lit}`DOC_REGEX` at the start of a text: what stands between the dash and the
ending. -/
def titleAt (text : JString) : Option JString :=
  let digits := text.takeWhile isDigit
  if 5 ≤ digits.length && digits.length ≤ 20 then
    match text.drop digits.length with
    | c :: rest =>
        if c == jchar '-' then
          beforeLastDocx (rest.takeWhile fun c => !isLineTerminator c)
        else
          none
    | [] => none
  else
    none

/-- The first match of {lit}`DOC_REGEX`. -/
def docTitle : JString → Option JString
  | [] => none
  | c :: rest =>
      match titleAt (c :: rest) with
      | some title => some title
      | none => docTitle rest

/-! ## Parsers and listings -/

/-- {lit}`ParseType`. -/
inductive ParseType
  | none
  | p2
  | p1
deriving DecidableEq

/-- The predicate of each type. -/
def ParseType.predicate : ParseType → JString → Bool
  | .none, _ => false
  | .p2, title => startsWith title (jstr "分层周计划训练")
  | .p1, title => Search.contains title (jstr "阅读")

/-- The first type whose predicate holds. -/
def parseTypeOf (title : JString) : ParseType :=
  ([ParseType.none, .p2, .p1].find? fun type => type.predicate title).getD .none

/-- What running a parser comes to. -/
inductive Outcome
  | returned (value : Bool)
  | failed
deriving DecidableEq

/-- What the walk meets: the listings, which can fail, and the outcomes of the parsers. -/
structure World where
  /-- The {lit}`n`-th listing of a directory with some names. -/
  listing : Nat → List Name → Option (List Name)
  perm : ∀ n names files, listing n names = some files → files.Perm names
  parse : ParseType → Path → Outcome

/-- The two counters, the tree and what is recorded of the run. -/
structure State where
  disk : Disk
  /-- The number of listings so far. -/
  calls : Nat := 0
  totalCount : Nat := 0
  completeCount : Nat := 0
  /-- The documents whose parser returned true.  Only the statements read it. -/
  parsed : List Path := []

/-- {lit}`directory.listFiles()`. -/
def listFiles (world : World) (directory : Path) (state : State) :
    Option (List Name) × State :=
  (if state.disk.isDirectory directory then
      world.listing state.calls (state.disk.children directory)
    else
      none,
    { state with calls := state.calls + 1 })

/-- {lit}`FileUtil.del`. -/
def State.remove (state : State) (path : Path) : State :=
  { state with disk := state.disk.remove path }

/-- {lit}`parser.run` on an opened document; a file that is gone cannot be opened. -/
def runParser (world : World) (type : ParseType) (file : Path) (state : State) : Outcome :=
  if state.disk.contains file then
    match type with
    | .none => .returned false
    | .p2 | .p1 => world.parse type file
  else
    .failed

/-! ## The walk -/

/-- What {lit}`del` does to the directory of a deleted file: a failed listing counts as an
empty one. -/
def cleanUp (world : World) (directory : Path) (state : State) : State :=
  match listFiles world directory state with
  | (none, state) => state.remove directory
  | (some [], state) => state.remove directory
  | (some (_ :: _), state) => state

/-- {lit}`del` of a file in a directory. -/
def del (world : World) (directory : Path) (name : Name) (state : State) : State :=
  let file := directory ++ [name]
  if state.disk.contains file then
    cleanUp world directory (state.remove file)
  else
    state

/-- A document whose name is recognised. -/
def parseDocument (world : World) (directory : Path) (name : Name) (title : JString)
    (state : State) : State :=
  let file := directory ++ [name]
  let state := { state with totalCount := state.totalCount + 1 }
  if runParser world (parseTypeOf title) file state = .returned true then
    del world directory name
      { state with
        completeCount := state.completeCount + 1
        parsed := state.parsed ++ [file] }
  else
    state

/-- The body of the loop over a listing. -/
def visit (world : World) (descend : Path → State → Option State) (directory : Path)
    (state : State) (name : Name) : Option State :=
  if state.disk.isDirectory (directory ++ [name]) then
    if hidden name then some state else descend (directory ++ [name]) state
  else if junk name then
    some (del world directory name state)
  else if endsWith name docx then
    match docTitle name with
    | some title => some (parseDocument world directory name title state)
    | none => some state
  else
    some (del world directory name state)

/-- {lit}`travel`; fuel bounds the depth of the recursion. -/
def travel (world : World) : Nat → Path → State → Option State
  | 0, _, _ => none
  | fuel + 1, directory, state =>
      match listFiles world directory state with
      | (none, state) => some state
      | (some files, state) => files.foldlM (visit world (travel world fuel) directory) state

theorem state_of_listFiles {world : World} {directory : Path} {state state' : State}
    {files : Option (List Name)} (h : listFiles world directory state = (files, state')) :
    state' = { state with calls := state.calls + 1 } :=
  (congrArg Prod.snd h).symm

/-- Before the walk. -/
def start (disk : Disk) : State :=
  { disk := disk }

/-! ## What the walk must not destroy -/

/-- A document: no junk by its name. -/
def isDocument (entry : FileEntry Name) : Bool :=
  !entry.isDirectory && entry.path.getLast?.any fun name => !junk name && endsWith name docx

/-- An entry below a hidden directory. -/
def belowHidden (entry : FileEntry Name) : Bool :=
  entry.path.dropLast.any hidden

/-- What may go only as a parsed document. -/
def isProtected (entry : FileEntry Name) : Bool :=
  isDocument entry || belowHidden entry

/-- A document that is gone because it parsed. -/
def removedAsParsed (state : State) (entry : FileEntry Name) : Bool :=
  isDocument entry && decide (entry.path ∈ state.parsed) && decide (entry ∉ state.disk.entries)

/-- The walk destroyed no unparsed document. -/
structure Preserves (disk : Disk) (state : State) : Prop where
  /-- A document is gone only if its parser returned true. -/
  documents : ∀ entry ∈ disk.entries, isDocument entry = true →
    entry ∉ state.disk.entries → entry.path ∈ state.parsed
  /-- Nothing below a hidden directory is gone. -/
  hidden : ∀ entry ∈ disk.entries, belowHidden entry = true → entry ∈ state.disk.entries
  /-- The counter is the number of documents that are gone because they parsed. -/
  count : state.completeCount = disk.entries.countP fun entry => removedAsParsed state entry

/-! ## What the clean-up must spare -/

/-- A listing that fails behind a deletion, in a directory without anything protected. -/
def CleanUpSpares (world : World) (directory : Path) (state : State) : Prop :=
  (listFiles world directory state).1 = none →
    ∀ entry ∈ state.disk.below directory, isProtected entry = false

/-- The clean-up behind the deletion of a file meets the condition. -/
def DelSpares (world : World) (directory : Path) (name : Name) (state : State) : Prop :=
  state.disk.contains (directory ++ [name]) = true →
    CleanUpSpares world directory (state.remove (directory ++ [name]))

/-- The deletion of a parsed document meets it. -/
def ParseSpares (world : World) (directory : Path) (name : Name) (title : JString)
    (state : State) : Prop :=
  runParser world (parseTypeOf title) (directory ++ [name]) state = .returned true →
    DelSpares world directory name state

/-- Every deletion of one round of the loop meets it. -/
def VisitSpares (world : World) (descend : Path → State → Prop) (directory : Path)
    (state : State) (name : Name) : Prop :=
  if state.disk.isDirectory (directory ++ [name]) then
    if hidden name then True else descend (directory ++ [name]) state
  else if junk name then
    DelSpares world directory name state
  else if endsWith name docx then
    match docTitle name with
    | some title => ParseSpares world directory name title state
    | none => True
  else
    DelSpares world directory name state

/-- Every deletion of a walk meets it, each in the state right before it. -/
def TravelSpares (world : World) : Nat → Path → State → Prop
  | 0, _, _ => True
  | fuel + 1, directory, state =>
      match listFiles world directory state with
      | (none, _) => True
      | (some files, state) =>
          Effects.Along (visit world (travel world fuel) directory)
            (VisitSpares world (TravelSpares world fuel) directory) files state

/-! ## One deletion -/

/-- A directory the walk enters: no name on the way to it is hidden. -/
def Visible (directory : Path) : Prop :=
  ∀ name ∈ directory, hidden name = false

/-- How the state of a walk relates to the tree it started with. -/
structure Sound (disk : Disk) (state : State) : Prop where
  kept : state.disk.entries.Sublist disk.entries
  parsed : ∀ path ∈ state.parsed,
    ∃ entry ∈ disk.entries, isDocument entry = true ∧ belowHidden entry = false ∧
      entry.path = path ∧ entry ∉ state.disk.entries
  nodup : state.parsed.Nodup
  count : state.completeCount = state.parsed.length

/-- What is protected is there or was parsed. -/
def Intact (disk : Disk) (state : State) : Prop :=
  ∀ entry ∈ disk.entries, isProtected entry = true → entry ∉ state.disk.entries →
    entry.path ∈ state.parsed

/-- A part of a walk: it leaves the tree intact exactly when it meets a condition. -/
structure Walked (disk : Disk) (state : State) (spares : Prop) (state' : State) : Prop where
  sound : Sound disk state'
  intact_iff : Intact disk state' ↔ Intact disk state ∧ spares

/-- The invariant holds before the walk. -/
theorem sound_start (disk : Disk) : Sound disk (start disk) where
  kept := List.Sublist.refl _
  parsed := by simp [start]
  nodup := List.nodup_nil
  count := rfl

/-- Nothing is gone before the walk. -/
theorem intact_start (disk : Disk) : Intact disk (start disk) :=
  fun _ hentry _ hgone => absurd hentry hgone

/-- Counting and listing change no entry. -/
theorem Sound.counted {disk : Disk} {state : State} (h : Sound disk state) (calls total : Nat) :
    Sound disk { state with calls := calls, totalCount := total } :=
  ⟨h.kept, h.parsed, h.nodup, h.count⟩

/-- A part of a walk that at most counts and lists. -/
theorem Walked.counted {disk : Disk} {state : State} (h : Sound disk state) {spares : Prop}
    (hspares : spares) (calls total : Nat) :
    Walked disk state spares { state with calls := calls, totalCount := total } :=
  ⟨h.counted calls total, (and_iff_left hspares).symm⟩

/-- What a removal spares is what is not below the path. -/
theorem Walked.remove {disk : Disk} {state : State} (h : Sound disk state) (path : Path) :
    Walked disk state (∀ entry ∈ state.disk.below path, isProtected entry = false)
      (state.remove path) := by
  have hsub := state.disk.remove_sublist path
  refine ⟨⟨hsub.trans h.kept, ?_, h.nodup, h.count⟩, ?_, ?_⟩
  · intro other hother
    rcases h.parsed other hother with ⟨entry, hentry, hdocument, hhidden, hpath, hgone⟩
    exact ⟨entry, hentry, hdocument, hhidden, hpath, fun hkept => hgone (hsub.subset hkept)⟩
  · intro hintact
    constructor
    · intro entry hentry hprotected hgone
      exact hintact entry hentry hprotected fun hkept => hgone (hsub.subset hkept)
    · intro entry hentry
      rcases FileTree.mem_below.mp hentry with ⟨hmem, hbelow⟩
      by_contra hprotected
      rw [Bool.not_eq_false] at hprotected
      have hparsed := hintact entry (h.kept.subset hmem) hprotected
        fun hkept => (FileTree.mem_remove.mp hkept).2 hbelow
      -- A parsed document is gone, but this entry was still there.
      rcases h.parsed _ hparsed with ⟨other, hother, -, -, hpath, hgone⟩
      rw [disk.eq_of_path_eq hother (h.kept.subset hmem) hpath] at hgone
      exact hgone hmem
  · rintro ⟨hintact, hbelow⟩ entry hentry hprotected hgone
    by_cases hbefore : entry ∈ state.disk.entries
    · have hmem : entry ∈ state.disk.below path := by
        by_contra hnot
        rw [FileTree.mem_below, not_and] at hnot
        exact hgone (FileTree.mem_remove.mpr ⟨hbefore, hnot hbefore⟩)
      rw [hbelow entry hmem] at hprotected
      contradiction
    · exact hintact entry hentry hprotected hbefore

/-- What lies directly in a directory the walk enters is not below a hidden one. -/
theorem belowHidden_of_visible {directory : Path} (hvisible : Visible directory) {name : Name}
    {entry : FileEntry Name} (hpath : entry.path = directory ++ [name]) :
    belowHidden entry = false := by
  simp only [belowHidden, hpath, List.dropLast_concat, List.any_eq_false]
  intro name hname
  simp [hvisible name hname]

/-- A directory the walk enters is not protected itself. -/
theorem isProtected_directory {directory : Path} (hvisible : Visible directory)
    {entry : FileEntry Name} (hpath : entry.path = directory)
    (hdirectory : entry.isDirectory = true) : isProtected entry = false := by
  have hbelow : belowHidden entry = false := by
    simp only [belowHidden, hpath, List.any_eq_false]
    intro name hname
    simp [hvisible name ((List.dropLast_sublist directory).subset hname)]
  simp [isProtected, isDocument, hdirectory, hbelow]

/-- Below a directory whose listing is empty there is nothing protected. -/
theorem isProtected_of_listing_nil {world : World} {directory : Path} {state : State}
    (hvisible : Visible directory) (h : (listFiles world directory state).1 = some []) :
    ∀ entry ∈ state.disk.below directory, isProtected entry = false := by
  intro entry hentry
  unfold listFiles at h
  dsimp only at h
  by_cases hdirectory : state.disk.isDirectory directory = true
  · rw [if_pos hdirectory] at h
    -- The listing is a permutation of the children, so there are none.
    have hchildren : state.disk.children directory = [] := (world.perm _ _ _ h).nil_eq.symm
    have hpath := FileTree.eq_of_mem_below_of_children_eq_nil hchildren hentry
    rcases FileTree.isDirectory_iff.mp hdirectory with ⟨parent, hparent, hparentPath, hkind⟩
    have heq : entry = parent := state.disk.eq_of_path_eq
      (FileTree.mem_below.mp hentry).1 hparent (hpath.trans hparentPath.symm)
    subst heq
    exact isProtected_directory hvisible hpath hkind
  · rw [if_neg hdirectory] at h
    contradiction

/-- The clean-up of a directory takes away the directory alone, or what a failed listing
hides. -/
theorem Walked.cleanUp {disk : Disk} (world : World) {directory : Path} {state : State}
    (h : Sound disk state) (hvisible : Visible directory) :
    Walked disk state (CleanUpSpares world directory state)
      (cleanUp world directory state) := by
  unfold CleanUpSpares ParseDoc.cleanUp
  cases hlisting : listFiles world directory state with
  | mk files listed =>
      rcases state_of_listFiles hlisting with rfl
      have hremove := Walked.remove (h.counted (state.calls + 1) state.totalCount) directory
      cases files with
      | none => exact ⟨hremove.sound, hremove.intact_iff.trans (and_congr_right' (by simp))⟩
      | some files =>
          cases files with
          | cons name files =>
              exact Walked.counted h (fun hnone => nomatch hnone) _ _
          | nil =>
              have hnone := isProtected_of_listing_nil hvisible (congrArg Prod.fst hlisting)
              refine ⟨hremove.sound, hremove.intact_iff.trans (and_congr_right' ?_)⟩
              exact iff_of_true hnone nofun

/-- Two parts of a walk, one behind the other. -/
theorem Walked.trans {disk : Disk} {state state' state'' : State} {spares spares' : Prop}
    (h : Walked disk state spares state') (h' : Walked disk state' spares' state'')
    (hspares : spares) : Walked disk state spares' state'' :=
  ⟨h'.sound, h'.intact_iff.trans (and_congr_left' (h.intact_iff.trans (and_iff_left hspares)))⟩

/-- Deleting a file that is no document. -/
theorem Walked.del {disk : Disk} {world : World} {directory : Path} {name : Name} {state : State}
    (h : Sound disk state) (hvisible : Visible directory)
    (hfile : state.disk.isDirectory (directory ++ [name]) = false)
    (hname : junk name = true ∨ endsWith name docx = false) :
    Walked disk state (DelSpares world directory name state)
      (del world directory name state) := by
  unfold DelSpares ParseDoc.del
  dsimp only
  by_cases hcontains : state.disk.contains (directory ++ [name]) = true
  · have hspares : ∀ entry ∈ state.disk.below (directory ++ [name]),
        isProtected entry = false := by
      intro entry hentry
      have hpath := FileTree.eq_of_mem_below_file hfile hentry
      have hdocument : isDocument entry = false := by
        rcases hname with hname | hname <;> simp [isDocument, hpath, hname]
      simp [isProtected, hdocument, belowHidden_of_visible hvisible hpath]
    have hremove := Walked.remove h (directory ++ [name])
    have hclean := hremove.trans (Walked.cleanUp world hremove.sound hvisible) hspares
    rw [if_pos hcontains]
    exact ⟨hclean.sound, hclean.intact_iff.trans (and_congr_right' (by simp [hcontains]))⟩
  · rw [if_neg hcontains]
    exact Walked.counted h (fun hnow => absurd hnow hcontains) _ _

/-- A parsed document goes. -/
theorem Walked.accept {disk : Disk} {state : State} {directory : Path} {name : Name}
    (h : Sound disk state) (hvisible : Visible directory)
    (hfile : state.disk.isDirectory (directory ++ [name]) = false)
    (hcontains : state.disk.contains (directory ++ [name]) = true)
    (hname : junk name = false ∧ endsWith name docx = true) :
    Walked disk state True (State.remove
      { state with
        completeCount := state.completeCount + 1
        parsed := state.parsed ++ [directory ++ [name]] } (directory ++ [name])) := by
  rcases FileTree.contains_iff.mp hcontains with ⟨document, hdocument, hpath⟩
  have hkind : document.isDirectory = false := by
    by_contra hkind
    rw [Bool.not_eq_false] at hkind
    rw [FileTree.isDirectory_iff.mpr ⟨document, hdocument, hpath, hkind⟩] at hfile
    contradiction
  have hdisk : document ∈ disk.entries := h.kept.subset hdocument
  have hsub := state.disk.remove_sublist (directory ++ [name])
  refine ⟨⟨hsub.trans h.kept, ?_, ?_, by simp [State.remove, h.count]⟩, ?_⟩
  · intro path hparsed
    rcases List.mem_append.mp hparsed with hparsed | hparsed
    · rcases h.parsed path hparsed with ⟨entry, hentry, hentryDocument, hhidden, hentryPath, hgone⟩
      exact ⟨entry, hentry, hentryDocument, hhidden, hentryPath,
        fun hkept => hgone (hsub.subset hkept)⟩
    · refine ⟨document, hdisk, ?_, belowHidden_of_visible hvisible hpath,
        hpath.trans (List.mem_singleton.mp hparsed).symm, ?_⟩
      · simp [isDocument, hkind, hpath, hname]
      · intro hkept
        exact (FileTree.mem_remove.mp hkept).2 (hpath ▸ List.prefix_refl _)
  · refine List.nodup_append.mpr ⟨h.nodup, List.nodup_singleton _, ?_⟩
    intro path hparsed other hother heq
    rcases h.parsed path hparsed with ⟨entry, hentry, -, -, hentryPath, hgone⟩
    rw [heq, List.mem_singleton.mp hother, ← hpath] at hentryPath
    rw [disk.eq_of_path_eq hentry hdisk hentryPath] at hgone
    exact hgone hdocument
  · rw [and_true]
    constructor
    · intro hintact entry hentry hprotected hgone
      have hparsed := hintact entry hentry hprotected fun hkept => hgone (hsub.subset hkept)
      rcases List.mem_append.mp hparsed with hparsed | hparsed
      · exact hparsed
      · have heq := disk.eq_of_path_eq hentry hdisk
          ((List.mem_singleton.mp hparsed).trans hpath.symm)
        exact absurd (heq ▸ hdocument) hgone
    · intro hintact entry hentry hprotected hgone
      by_cases hbefore : entry ∈ state.disk.entries
      · have hbelow : directory ++ [name] <+: entry.path := by
          by_contra hnot
          exact hgone (FileTree.mem_remove.mpr ⟨hbefore, hnot⟩)
        have hsame := FileTree.eq_of_mem_below_file hfile
          (FileTree.mem_below.mpr ⟨hbefore, hbelow⟩)
        exact List.mem_append_right _ (List.mem_singleton.mpr hsame)
      · exact List.mem_append_left _ (hintact entry hentry hprotected hbefore)

theorem contains_of_runParser {world : World} {type : ParseType} {file : Path} {state : State}
    (h : runParser world type file state = .returned true) :
    state.disk.contains file = true := by
  unfold runParser at h
  split at h
  · assumption
  · contradiction

/-- A recognised document: it goes exactly when its parser returns true. -/
theorem Walked.parseDocument {disk : Disk} {world : World} {directory : Path} {name : Name}
    {state : State} (h : Sound disk state) (hvisible : Visible directory)
    (hfile : state.disk.isDirectory (directory ++ [name]) = false)
    (hname : junk name = false ∧ endsWith name docx = true) (title : JString) :
    Walked disk state (ParseSpares world directory name title state)
      (parseDocument world directory name title state) := by
  unfold ParseSpares ParseDoc.parseDocument
  dsimp only
  have hcounted := h.counted state.calls (state.totalCount + 1)
  by_cases hrun : runParser world (parseTypeOf title) (directory ++ [name])
      { state with totalCount := state.totalCount + 1 } = .returned true
  · have hcontains := contains_of_runParser hrun
    have haccept := Walked.accept hcounted hvisible hfile hcontains hname
    have hclean := haccept.trans (Walked.cleanUp world haccept.sound hvisible) trivial
    rw [if_pos hrun]
    unfold ParseDoc.del
    dsimp only
    rw [if_pos hcontains]
    refine ⟨hclean.sound, hclean.intact_iff.trans (and_congr_right' ?_)⟩
    exact ⟨fun hspares _ _ => hspares, fun hspares => hspares hrun hcontains⟩
  · rw [if_neg hrun]
    exact Walked.counted h (fun hnow => absurd hnow hrun) _ _

/-- One round of the loop over a listing. -/
theorem Walked.visit {disk : Disk} {world : World} {descend : Path → State → Option State}
    {spares : Path → State → Prop} {directory : Path} {state state' : State} {name : Name}
    (h : Sound disk state) (hvisible : Visible directory)
    (hdescend : ∀ path s s', Visible path → Sound disk s → descend path s = some s' →
      Walked disk s (spares path s) s')
    (hvisit : visit world descend directory state name = some state') :
    Walked disk state (VisitSpares world spares directory state name) state' := by
  unfold ParseDoc.visit at hvisit
  unfold VisitSpares
  by_cases hfile : state.disk.isDirectory (directory ++ [name]) = true
  · rw [if_pos hfile] at hvisit ⊢
    by_cases hhidden : hidden name = true
    · rw [if_pos hhidden] at hvisit ⊢
      cases hvisit
      exact Walked.counted h trivial _ _
    · rw [if_neg hhidden] at hvisit ⊢
      refine hdescend _ _ _ ?_ h hvisit
      intro other hother
      rcases List.mem_append.mp hother with hother | hother
      · exact hvisible other hother
      · rw [List.mem_singleton.mp hother]
        simpa using hhidden
  · rw [if_neg hfile] at hvisit ⊢
    rw [Bool.not_eq_true] at hfile
    by_cases hjunk : junk name = true
    · rw [if_pos hjunk] at hvisit ⊢
      cases hvisit
      exact Walked.del h hvisible hfile (Or.inl hjunk)
    · rw [if_neg hjunk] at hvisit ⊢
      by_cases hdocx : endsWith name docx = true
      · rw [if_pos hdocx] at hvisit ⊢
        cases htitle : docTitle name with
        | none =>
            rw [htitle] at hvisit
            cases hvisit
            exact Walked.counted h trivial _ _
        | some title =>
            rw [htitle] at hvisit
            cases hvisit
            exact Walked.parseDocument h hvisible hfile ⟨by simpa using hjunk, hdocx⟩ title
      · rw [if_neg hdocx] at hvisit ⊢
        cases hvisit
        exact Walked.del h hvisible hfile (Or.inr (by simpa using hdocx))

/-! ## Whole walks -/

/-- A walk leaves the tree intact exactly when all of its deletions spare what is protected. -/
theorem walked_travel {disk : Disk} {world : World} (fuel : Nat) {directory : Path}
    {state state' : State} (hvisible : Visible directory) (h : Sound disk state)
    (htravel : travel world fuel directory state = some state') :
    Walked disk state (TravelSpares world fuel directory state) state' := by
  induction fuel generalizing directory state state' with
  | zero => contradiction
  | succ fuel ih =>
      have hround : ∀ (s : State) (name : Name) (s' : State), Sound disk s →
          visit world (travel world fuel) directory s name = some s' →
            Sound disk s' ∧ (Intact disk s' ↔ Intact disk s ∧
              VisitSpares world (TravelSpares world fuel) directory s name) := by
        intro s name s' hs hvisit
        have hwalked := Walked.visit hs hvisible (fun _ _ _ => ih) hvisit
        exact ⟨hwalked.sound, hwalked.intact_iff⟩
      unfold travel at htravel
      unfold TravelSpares
      cases hlisting : listFiles world directory state with
      | mk files listed =>
          rcases state_of_listFiles hlisting with rfl
          rw [hlisting] at htravel
          have hcounted := h.counted (state.calls + 1) state.totalCount
          cases files with
          | none =>
              cases htravel
              exact Walked.counted h trivial _ _
          | some files =>
              rcases Effects.foldlM_iff_along hround files hcounted htravel with ⟨hsound, hintact⟩
              exact ⟨hsound, hintact⟩

theorem disk_cleanUp (world : World) (directory : Path) (state : State) :
    (cleanUp world directory state).disk.entries.Sublist state.disk.entries := by
  unfold cleanUp
  split
  · rename_i hlisting
    rcases state_of_listFiles hlisting with rfl
    exact FileTree.remove_sublist _ _
  · rename_i hlisting
    rcases state_of_listFiles hlisting with rfl
    exact FileTree.remove_sublist _ _
  · rename_i hlisting
    rcases state_of_listFiles hlisting with rfl
    exact List.Sublist.refl _

theorem disk_del (world : World) (directory : Path) (name : Name) (state : State) :
    (del world directory name state).disk.entries.Sublist state.disk.entries := by
  unfold del
  dsimp only
  split
  · exact (disk_cleanUp world directory _).trans (FileTree.remove_sublist _ _)
  · exact List.Sublist.refl _

theorem disk_parseDocument (world : World) (directory : Path) (name : Name) (title : JString)
    (state : State) :
    (parseDocument world directory name title state).disk.entries.Sublist
      state.disk.entries := by
  unfold parseDocument
  dsimp only
  split
  · exact disk_del world directory name _
  · exact List.Sublist.refl _

/-- A visit ends where the walk into a directory does, and no visit adds an entry. -/
theorem exists_visit (world : World) {descend : Path → State → Option State} {directory : Path}
    {state : State} (name : Name)
    (hdescend : state.disk.isDirectory (directory ++ [name]) = true →
      ∃ state', descend (directory ++ [name]) state = some state' ∧
        state'.disk.entries.Sublist state.disk.entries) :
    ∃ state', visit world descend directory state name = some state' ∧
      state'.disk.entries.Sublist state.disk.entries := by
  unfold visit
  split
  · rename_i hdirectory
    split
    · exact ⟨state, rfl, List.Sublist.refl _⟩
    · exact hdescend hdirectory
  · split
    · exact ⟨_, rfl, disk_del world directory name state⟩
    · split
      · split
        · exact ⟨_, rfl, disk_parseDocument world directory name _ state⟩
        · exact ⟨state, rfl, List.Sublist.refl _⟩
      · exact ⟨_, rfl, disk_del world directory name state⟩

/-- With fuel for the depth of the tree the walk ends. -/
theorem exists_travel (world : World) {fuel : Nat} {directory : Path} {state : State}
    (hfuel : 0 < fuel)
    (hdepth : ∀ entry ∈ state.disk.entries, entry.path.length < directory.length + fuel) :
    ∃ state', travel world fuel directory state = some state' ∧
      state'.disk.entries.Sublist state.disk.entries := by
  induction fuel generalizing directory state with
  | zero => omega
  | succ fuel ih =>
      -- Entries only go, so the bound on their depth holds all along the loop.
      have hvisit : ∀ (s : State) (name : Name), s.disk.entries.Sublist state.disk.entries →
          ∃ s', visit world (travel world fuel) directory s name = some s' ∧
            s'.disk.entries.Sublist state.disk.entries := by
        intro s name hs
        have hdescend : s.disk.isDirectory (directory ++ [name]) = true →
            ∃ s', travel world fuel (directory ++ [name]) s = some s' ∧
              s'.disk.entries.Sublist s.disk.entries := by
          intro hdirectory
          rcases FileTree.isDirectory_iff.mp hdirectory with ⟨entry, hentry, hpath, -⟩
          have hdeep := hdepth entry (hs.subset hentry)
          rw [hpath, List.length_append, List.length_singleton] at hdeep
          refine ih (by omega) fun other hother => ?_
          have hother := hdepth other (hs.subset hother)
          rw [List.length_append, List.length_singleton]
          omega
        rcases exists_visit world name hdescend with ⟨s', hs', hsub⟩
        exact ⟨s', hs', hsub.trans hs⟩
      unfold travel
      split
      · rename_i hlisting
        rcases state_of_listFiles hlisting with rfl
        exact ⟨_, rfl, List.Sublist.refl _⟩
      · rename_i hlisting
        rcases state_of_listFiles hlisting with rfl
        exact Effects.exists_foldlM_eq_some hvisit _ (List.Sublist.refl _)

/-- A walk destroyed no unparsed document exactly when it left the tree intact. -/
theorem Sound.preserves_iff {disk : Disk} {state : State} (h : Sound disk state) :
    Preserves disk state ↔ Intact disk state := by
  constructor
  · intro hpreserves entry hentry hprotected hgone
    rw [isProtected, Bool.or_eq_true] at hprotected
    rcases hprotected with hdocument | hhidden
    · exact hpreserves.documents entry hentry hdocument hgone
    · exact absurd (hpreserves.hidden entry hentry hhidden) hgone
  · intro hintact
    constructor
    · intro entry hentry hdocument hgone
      exact hintact entry hentry (by simp [isProtected, hdocument]) hgone
    · intro entry hentry hhidden
      by_contra hgone
      have hparsed := hintact entry hentry (by simp [isProtected, hhidden]) hgone
      rcases h.parsed _ hparsed with ⟨other, hother, -, hvisible, hpath, -⟩
      rw [disk.eq_of_path_eq hother hentry hpath, hhidden] at hvisible
      contradiction
    · rw [h.count, List.countP_eq_length_filter, ← List.length_map FileEntry.path]
      refine (List.Perm.length_eq ?_)
      refine (List.perm_ext_iff_of_nodup h.nodup
        (disk.nodup.sublist (List.filter_sublist.map _))).mpr fun path => ?_
      constructor
      · intro hparsed
        rcases h.parsed path hparsed with ⟨entry, hentry, hdocument, -, rfl, hgone⟩
        refine List.mem_map.mpr ⟨entry, List.mem_filter.mpr ⟨hentry, ?_⟩, rfl⟩
        simp [removedAsParsed, hdocument, hparsed, hgone]
      · intro hpath
        rcases List.mem_map.mp hpath with ⟨entry, hentry, rfl⟩
        have hremoved := (List.mem_filter.mp hentry).2
        simp only [removedAsParsed, Bool.and_eq_true, decide_eq_true_eq] at hremoved
        exact hremoved.1.2

/-- The walk ends, and it destroyed no unparsed document exactly when every directory whose
listing failed behind a deletion held nothing protected in the state right before. -/
theorem travel_preserves_iff (world : World) (disk : Disk) :
    ∀ᶠ fuel in Filter.atTop, ∃ state, travel world fuel [] (start disk) = some state ∧
      (Preserves disk state ↔ TravelSpares world fuel [] (start disk)) := by
  rcases disk.exists_depth with ⟨depth, hdepth⟩
  refine Filter.eventually_atTop.mpr ⟨depth + 1, fun fuel hfuel => ?_⟩
  have hdeep : ∀ entry ∈ (start disk).disk.entries,
      entry.path.length < ([] : Path).length + fuel := by
    intro entry hentry
    have hlt := hdepth entry hentry
    rw [List.length_nil]
    omega
  rcases exists_travel world (by omega) hdeep with ⟨state, htravel, -⟩
  have hwalked := walked_travel fuel (by simp [Visible]) (sound_start disk) htravel
  have hintact := hwalked.intact_iff.trans (and_iff_right (intact_start disk))
  exact ⟨state, htravel, hwalked.sound.preserves_iff.trans hintact⟩

/-- Two files in one directory, the first of no known kind. -/
def smallDisk : Disk where
  entries := [
    { path := [], isDirectory := true },
    { path := [jstr "a.txt"], isDirectory := false },
    { path := [jstr "12345-阅读.docx"], isDirectory := false }]
  nodup := by decide
  closed := by
    intro entry hentry path hbelow hne
    refine ⟨{ path := [], isDirectory := true }, List.mem_cons_self, ?_, rfl⟩
    simp only [List.mem_cons, List.not_mem_nil, or_false] at hentry
    have hlength : path.length < entry.path.length :=
      lt_of_le_of_ne hbelow.length_le fun heq => hne (hbelow.eq_of_length heq)
    have hnone : path.length = 0 := by
      rcases hentry with rfl | rfl | rfl <;>
        simp only [List.length_cons, List.length_nil] at hlength <;> omega
    exact (List.length_eq_zero_iff.mp hnone).symm

/-- The second listing fails; every document would parse. -/
def failingWorld : World where
  listing n names := if n = 1 then none else some names
  perm := by
    intro n names files h
    split at h
    · contradiction
    · cases h
      exact List.Perm.refl _
  parse _ _ := .returned true

/-- The clean-up behind the first file deletes the document, whose parser never runs. -/
theorem document_swept :
    ∃ state, travel failingWorld 2 [] (start smallDisk) = some state ∧
      (∃ entry ∈ smallDisk.entries, isDocument entry = true ∧ entry ∉ state.disk.entries ∧
        entry.path ∉ state.parsed) ∧ ¬ Preserves smallDisk state := by
  have hrun : (travel failingWorld 2 [] (start smallDisk)).map
      (fun state => (state.disk.entries, state.parsed)) = some ([], []) := by
    decide +kernel
  rcases Option.map_eq_some_iff.mp hrun with ⟨state, htravel, hstate⟩
  rcases Prod.mk.inj hstate with ⟨hentries, hparsed⟩
  have hdocument : isDocument { path := [jstr "12345-阅读.docx"], isDirectory := false } = true := by
    decide +kernel
  refine ⟨state, htravel, ⟨_, by simp [smallDisk], hdocument, by simp [hentries],
    by simp [hparsed]⟩, fun hpreserves => ?_⟩
  have hmem := hpreserves.documents _ (by simp [smallDisk]) hdocument (by simp [hentries])
  rw [hparsed] at hmem
  contradiction

end ParseDoc
end TestAio
