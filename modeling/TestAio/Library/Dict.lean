import TestAio.Library.Numbering
import TestAio.Library.Siblings

/-!
# Dictionaries in the order of insertion

A dictionary keeps its keys in the order in which they came.  A value of a known key is
changed in place and a new key goes to the end, so no key ever occurs twice.

Main results:

- Theorem {lit}`get?_set`: only the value of the key changes.
- Theorem {lit}`keys_set`: a known key keeps its place and a new one goes to the end.
- Theorem {lit}`ext_get?`: a dictionary is its keys in order and their values.

Current gaps:

- None.
-/

namespace TestAio
namespace Library

/-- A dictionary. -/
@[ext]
structure Dict (κ α : Type) where
  entries : List (κ × α)
  nodup : (entries.map Prod.fst).Nodup

namespace Dict

variable {κ α : Type} [DecidableEq κ]

/-- The dictionary without entries. -/
def empty : Dict κ α where
  entries := []
  nodup := List.nodup_nil

/-- The keys in the order of insertion. -/
def keys (d : Dict κ α) : List κ :=
  d.entries.map Prod.fst

/-- The value of a key. -/
def get? (d : Dict κ α) (k : κ) : Option α :=
  (d.entries.find? fun entry => entry.1 = k).map Prod.snd

/-- Give a value to a key. -/
def set (d : Dict κ α) (k : κ) (v : α) : Dict κ α where
  entries := Siblings.upsert Prod.fst k (fun entry => (entry.1, v)) (k, v) d.entries
  nodup := Siblings.nodup_keys_upsert d.nodup (fun _ => rfl) rfl

theorem get?_eq_some_iff {d : Dict κ α} {k : κ} {v : α} :
    d.get? k = some v ↔ (k, v) ∈ d.entries := by
  rcases d with ⟨entries, hnodup⟩
  unfold get?
  induction entries with
  | nil => simp
  | cons entry entries ih =>
      rw [List.map_cons, List.nodup_cons] at hnodup
      rw [List.find?_cons]
      by_cases hk : entry.1 = k
      · have hlater : (k, v) ∉ entries := by
          intro hmem
          exact hnodup.1 (hk ▸ List.mem_map_of_mem hmem)
        simp only [hk, decide_true, Option.map_some, Option.some.injEq, List.mem_cons, hlater,
          or_false, Prod.ext_iff, true_and]
        exact eq_comm
      · have hother : (k, v) ≠ entry := fun heq => hk (congrArg Prod.fst heq).symm
        simp only [hk, decide_false, List.mem_cons, hother, false_or]
        exact ih hnodup.2

theorem isSome_get?_iff {d : Dict κ α} {k : κ} : (d.get? k).isSome ↔ k ∈ d.keys := by
  rw [Option.isSome_iff_exists]
  simp only [get?_eq_some_iff, keys, List.mem_map, Prod.exists, exists_and_right, exists_eq_right]

theorem get?_eq_none_iff {d : Dict κ α} {k : κ} : d.get? k = none ↔ k ∉ d.keys := by
  rw [← isSome_get?_iff, Option.not_isSome_iff_eq_none]

/-- A known key keeps its place and a new one goes to the end. -/
theorem keys_set (d : Dict κ α) (k : κ) (v : α) :
    (d.set k v).keys = Numbering.insertNew d.keys k :=
  Siblings.keys_upsert (fun _ => rfl) rfl

/-- Only the value of the key changes. -/
theorem get?_set (d : Dict κ α) (k k' : κ) (v : α) :
    (d.set k v).get? k' = if k' = k then some v else d.get? k' := by
  unfold get? set
  dsimp only
  generalize d.entries = entries
  induction entries with
  | nil =>
      by_cases hk : k' = k
      · simp [Siblings.upsert, hk]
      · simp [Siblings.upsert, hk, Ne.symm hk]
  | cons entry entries ih =>
      rw [Siblings.upsert]
      by_cases hentry : entry.1 = k
      · rw [if_pos hentry]
        by_cases hk : k' = k
        · simp [hk, hentry]
        · have hother : ¬ entry.1 = k' := fun h => hk (h.symm.trans hentry)
          simp [hk, hother]
      · rw [if_neg hentry]
        by_cases hk : entry.1 = k'
        · have hother : ¬ k' = k := fun h => hentry (hk.trans h)
          simp [hk, hother]
        · simpa [List.find?_cons, hk] using ih

/-- A dictionary is its keys in order and their values. -/
theorem ext_get? {d d' : Dict κ α} (hkeys : d.keys = d'.keys)
    (hget : ∀ k, d.get? k = d'.get? k) : d = d' := by
  have hentries : ∀ d : Dict κ α, d.entries.map (fun entry => (entry.1, d.get? entry.1)) =
      d.entries.map fun entry => (entry.1, some entry.2) := by
    intro d
    refine List.map_congr_left fun entry hentry => ?_
    rw [get?_eq_some_iff.mpr hentry]
  have hpairs : d.keys.map (fun k => (k, d.get? k)) = d'.keys.map fun k => (k, d'.get? k) := by
    rw [hkeys]
    exact List.map_congr_left fun k _ => by rw [hget]
  simp only [keys, List.map_map, Function.comp_def] at hpairs
  rw [hentries, hentries] at hpairs
  have hinjective : Function.Injective fun entry : κ × α => (entry.1, some entry.2) := by
    rintro ⟨k, v⟩ ⟨k', v'⟩ heq
    simpa using heq
  exact Dict.ext (List.map_injective_iff.mpr hinjective hpairs)

end Dict
end Library
end TestAio
