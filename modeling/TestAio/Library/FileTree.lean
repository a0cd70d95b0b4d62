import Mathlib.Algebra.Order.BigOperators.Group.List
import Mathlib.Algebra.Order.Group.Nat
import Mathlib.Data.List.Infix
import Mathlib.Data.List.Nodup

/-!
# File trees

A file tree is a list of entries with distinct paths in which every proper ancestor
of an entry is a directory.  Taking away an entry with everything below it
leaves such a tree.

Main results:

- Theorem {lit}`eq_of_mem_below_file`: below a file there is only the file.
- Theorem {lit}`eq_of_mem_below_of_children_eq_nil`: below a directory without children there is
  only the directory.

Current gaps:

- Links are not modelled.
-/

namespace TestAio
namespace Library

/-- A file or a directory. -/
structure FileEntry (α : Type) where
  /-- The names from the root to the entry. -/
  path : List α
  isDirectory : Bool
deriving DecidableEq

/-- Entries with distinct paths below directories. -/
structure FileTree (α : Type) where
  entries : List (FileEntry α)
  nodup : (entries.map FileEntry.path).Nodup
  closed : ∀ entry ∈ entries, ∀ path, path <+: entry.path → path ≠ entry.path →
    ∃ parent ∈ entries, parent.path = path ∧ parent.isDirectory = true

namespace FileTree

variable {α : Type} [DecidableEq α]

/-- The entry with a path and everything below it. -/
def below (tree : FileTree α) (path : List α) : List (FileEntry α) :=
  tree.entries.filter fun entry => path <+: entry.path

/-- Whether there is an entry with the path. -/
def contains (tree : FileTree α) (path : List α) : Bool :=
  tree.entries.any fun entry => entry.path == path

/-- Whether there is a directory with the path. -/
def isDirectory (tree : FileTree α) (path : List α) : Bool :=
  tree.entries.any fun entry => entry.path == path && entry.isDirectory

/-- The names of the entries directly below a path. -/
def children (tree : FileTree α) (path : List α) : List α :=
  tree.entries.filterMap fun entry =>
    if path ++ entry.path.getLast?.toList = entry.path then entry.path.getLast? else none

omit [DecidableEq α] in
/-- Two entries with one path are the same. -/
theorem eq_of_path_eq (tree : FileTree α) {a b : FileEntry α} (ha : a ∈ tree.entries)
    (hb : b ∈ tree.entries) (h : a.path = b.path) : a = b :=
  List.inj_on_of_nodup_map tree.nodup ha hb h

omit [DecidableEq α] in
/-- A tree has finite depth. -/
theorem exists_depth (tree : FileTree α) :
    ∃ depth, ∀ entry ∈ tree.entries, entry.path.length < depth := by
  refine ⟨(tree.entries.map fun entry => entry.path.length).sum + 1, fun entry hentry => ?_⟩
  exact Nat.lt_succ_of_le (List.single_le_sum (fun _ _ => Nat.zero_le _) _
    (List.mem_map.mpr ⟨entry, hentry, rfl⟩))

@[simp]
theorem mem_below {tree : FileTree α} {path : List α} {entry : FileEntry α} :
    entry ∈ tree.below path ↔ entry ∈ tree.entries ∧ path <+: entry.path := by
  simp [below]

theorem contains_iff {tree : FileTree α} {path : List α} :
    tree.contains path = true ↔ ∃ entry ∈ tree.entries, entry.path = path := by
  simp [contains]

theorem isDirectory_iff {tree : FileTree α} {path : List α} :
    tree.isDirectory path = true ↔
      ∃ entry ∈ tree.entries, entry.path = path ∧ entry.isDirectory = true := by
  simp [isDirectory]

/-- Takes away the entry with a path and everything below it. -/
def remove (tree : FileTree α) (path : List α) : FileTree α where
  entries := tree.entries.filter fun entry => ¬ path <+: entry.path
  nodup := tree.nodup.sublist (List.filter_sublist.map _)
  closed := by
    intro entry hentry ancestor hancestor hne
    rw [List.mem_filter] at hentry
    rcases tree.closed entry hentry.1 ancestor hancestor hne with
      ⟨parent, hparent, hpath, hdirectory⟩
    refine ⟨parent, List.mem_filter.mpr ⟨hparent, ?_⟩, hpath, hdirectory⟩
    have hkept : ¬ path <+: entry.path := by simpa using hentry.2
    have hparentKept : ¬ path <+: parent.path := by
      intro hbelow
      rw [hpath] at hbelow
      exact hkept (hbelow.trans hancestor)
    simpa using hparentKept

@[simp]
theorem mem_remove {tree : FileTree α} {path : List α} {entry : FileEntry α} :
    entry ∈ (tree.remove path).entries ↔ entry ∈ tree.entries ∧ ¬ path <+: entry.path := by
  simp [remove]

theorem remove_sublist (tree : FileTree α) (path : List α) :
    (tree.remove path).entries.Sublist tree.entries :=
  List.filter_sublist

/-- An entry strictly below a path lies below a child of it. -/
theorem exists_child {tree : FileTree α} {path : List α} {entry : FileEntry α}
    (hentry : entry ∈ tree.entries) (hbelow : path <+: entry.path) (hne : path ≠ entry.path) :
    ∃ name ∈ tree.children path, path ++ [name] <+: entry.path := by
  rcases hbelow with ⟨rest, hrest⟩
  cases rest with
  | nil => exact absurd (by simpa using hrest) hne
  | cons name rest =>
      have hchild : path ++ [name] <+: entry.path := ⟨rest, by simp [← hrest]⟩
      have hmem : ∃ child ∈ tree.entries, child.path = path ++ [name] := by
        by_cases hself : path ++ [name] = entry.path
        · exact ⟨entry, hentry, hself.symm⟩
        · rcases tree.closed entry hentry _ hchild hself with ⟨child, hmem, hpath, -⟩
          exact ⟨child, hmem, hpath⟩
      rcases hmem with ⟨child, hmem, hpath⟩
      refine ⟨name, List.mem_filterMap.mpr ⟨child, hmem, ?_⟩, hchild⟩
      simp [hpath]

theorem eq_of_mem_below_of_children_eq_nil {tree : FileTree α} {path : List α}
    {entry : FileEntry α} (hchildren : tree.children path = []) (h : entry ∈ tree.below path) :
    entry.path = path := by
  rcases mem_below.mp h with ⟨hentry, hbelow⟩
  by_contra hne
  rcases exists_child hentry hbelow (Ne.symm hne) with ⟨name, hname, -⟩
  rw [hchildren] at hname
  contradiction

theorem eq_of_mem_below_file {tree : FileTree α} {path : List α} {entry : FileEntry α}
    (hfile : tree.isDirectory path = false) (h : entry ∈ tree.below path) :
    entry.path = path := by
  rcases mem_below.mp h with ⟨hentry, hbelow⟩
  by_contra hne
  rcases tree.closed entry hentry path hbelow (Ne.symm hne) with ⟨parent, hparent⟩
  have hdirectory : tree.isDirectory path = true := isDirectory_iff.mpr ⟨parent, hparent⟩
  rw [hfile] at hdirectory
  contradiction

end FileTree
end Library
end TestAio
