import Mathlib.Data.List.Basic

/-!
# Nesting of tags

A text holds tags, each between a left and a right delimiter.  A tag opens a name, closes
one or does neither, and a reader of the text keeps the names that are open, the last
one on top.  A text is well nested when every name that is closed is on top and nothing
stays open.

Main results:

- Theorem {lit}`Moves.frame`: what is open below a text is not seen by it.
- Theorem {lit}`WellNested.moves`: a well nested text leaves the open names as they are.
- Theorems {lit}`Moves.append`, {lit}`wellNested_flatMap`: texts are put together.

Current gaps:

- None.
-/

namespace TestAio
namespace Library
namespace Nesting

variable {α ν : Type}

/-- What a tag does. -/
inductive Effect (ν : Type)
  | skip
  | opens (name : ν)
  | closes (name : ν)
deriving DecidableEq

/-- The delimiters of the tags and what the tags do. -/
structure Markup (α ν : Type) where
  left : α
  right : α
  effect : List α → Effect ν

/-- A reader of a text: the tag it is in, with what it has read of it, and the open names. -/
structure Reader (α ν : Type) where
  tag : Option (List α)
  opened : List ν
deriving DecidableEq

/-- A tag opens a name or closes the name on top. -/
def Effect.run [DecidableEq ν] : Effect ν → List ν → Option (List ν)
  | .skip, opened => some opened
  | .opens name, opened => some (name :: opened)
  | .closes _, [] => none
  | .closes name, top :: rest => if top = name then some rest else none

/-- Rename what a tag opens or closes. -/
def Effect.map {μ : Type} (f : ν → μ) : Effect ν → Effect μ
  | .skip => .skip
  | .opens name => .opens (f name)
  | .closes name => .closes (f name)

section Effects

variable [DecidableEq ν]

/-- An effect leaves what is below on the stack alone. -/
theorem Effect.run_append {e : Effect ν} {s t : List ν} (h : e.run s = some t) (u : List ν) :
    e.run (s ++ u) = some (t ++ u) := by
  cases e with
  | skip =>
      cases h
      rfl
  | opens name =>
      cases h
      rfl
  | closes name =>
      cases s with
      | nil => cases h
      | cons top rest =>
          rw [Effect.run] at h
          split at h
          · rename_i htop
            cases h
            rw [List.cons_append, Effect.run, if_pos htop]
          · cases h

/-- Tags that are renamed in the same way still match. -/
theorem Effect.run_map {μ : Type} [DecidableEq μ] (f : ν → μ) {e : Effect ν} {s t : List ν}
    (h : e.run s = some t) : (e.map f).run (s.map f) = some (t.map f) := by
  cases e with
  | skip =>
      cases h
      rfl
  | opens name =>
      cases h
      rfl
  | closes name =>
      cases s with
      | nil => cases h
      | cons top rest =>
          rw [Effect.run] at h
          split at h
          · rename_i htop
            cases h
            rw [Effect.map, List.map_cons, Effect.run, if_pos (congrArg f htop)]
          · cases h

end Effects

variable [DecidableEq α] [DecidableEq ν] (m : Markup α ν)

/-- Read one unit. -/
def Reader.step (r : Reader α ν) (c : α) : Option (Reader α ν) :=
  match r.tag with
  | none => some (if c = m.left then { r with tag := some [] } else r)
  | some content =>
      if c = m.right then
        ((m.effect content).run r.opened).map fun opened => { tag := none, opened := opened }
      else
        some { r with tag := some (content ++ [c]) }

/-- Read a text. -/
def Reader.read (r : Reader α ν) (text : List α) : Option (Reader α ν) :=
  text.foldlM (Reader.step m) r

/-- A text that starts and ends outside tags takes the open names from one list to another. -/
def Moves (text : List α) (s t : List ν) : Prop :=
  Reader.read m ⟨none, s⟩ text = some ⟨none, t⟩

instance (text : List α) (s t : List ν) : Decidable (Moves m text s t) :=
  inferInstanceAs (Decidable (_ = _))

/-- Every tag that is opened is closed, the last one first. -/
def WellNested (text : List α) : Prop :=
  Moves m text [] []

instance (text : List α) : Decidable (WellNested m text) :=
  inferInstanceAs (Decidable (Moves m text [] []))

variable {m}

/-! ## Reading -/

@[simp]
theorem read_nil (r : Reader α ν) : r.read m [] = some r :=
  rfl

/-- A text is read from its first letter on. -/
theorem read_cons (r : Reader α ν) (c : α) (text : List α) :
    r.read m (c :: text) = (r.step m c).bind fun r => r.read m text :=
  List.foldlM_cons

/-- Reading one letter is one step. -/
theorem read_singleton (r : Reader α ν) (c : α) : r.read m [c] = r.step m c := by
  rw [read_cons]
  exact Option.bind_fun_some _

/-- Two texts are read one after the other. -/
theorem read_append (r : Reader α ν) (x y : List α) :
    r.read m (x ++ y) = (r.read m x).bind fun r => r.read m y :=
  List.foldlM_append

/-- Outside of a tag nothing but its opening matters. -/
theorem step_outside {s : List ν} {c : α} (hc : c ≠ m.left) :
    Reader.step m ⟨none, s⟩ c = some ⟨none, s⟩ := by
  simp [Reader.step, hc]

/-- The left bracket opens a tag. -/
theorem step_left (s : List ν) : Reader.step m ⟨none, s⟩ m.left = some ⟨some [], s⟩ := by
  simp [Reader.step]

/-- Inside of a tag its content grows. -/
theorem step_inside {content : List α} {s : List ν} {c : α} (hc : c ≠ m.right) :
    Reader.step m ⟨some content, s⟩ c = some ⟨some (content ++ [c]), s⟩ := by
  simp [Reader.step, hc]

/-- The right bracket ends the tag, which has its effect. -/
theorem step_right {content : List α} {s t : List ν} (h : (m.effect content).run s = some t) :
    Reader.step m ⟨some content, s⟩ m.right = some ⟨none, t⟩ := by
  simp [Reader.step, h]

/-- Text outside tags is passed over. -/
theorem read_outside {s : List ν} {text : List α} (h : m.left ∉ text) :
    Reader.read m ⟨none, s⟩ text = some ⟨none, s⟩ := by
  induction text with
  | nil => rfl
  | cons c text ih =>
      rw [List.mem_cons, not_or] at h
      rw [read_cons, step_outside (Ne.symm h.1)]
      exact ih h.2

/-- Text inside a tag is gathered. -/
theorem read_inside {content : List α} {s : List ν} {text : List α} (h : m.right ∉ text) :
    Reader.read m ⟨some content, s⟩ text = some ⟨some (content ++ text), s⟩ := by
  induction text generalizing content with
  | nil => rw [List.append_nil, read_nil]
  | cons c text ih =>
      rw [List.mem_cons, not_or] at h
      rw [read_cons, step_inside (Ne.symm h.1), List.append_cons content c text]
      exact ih h.2

/-! ## Texts -/

/-- Two texts in a row move the stack twice. -/
theorem Moves.append {x y : List α} {s t u : List ν} (hx : Moves m x s t) (hy : Moves m y t u) :
    Moves m (x ++ y) s u := by
  unfold Moves at *
  rw [read_append, hx]
  exact hy

/-- What is open below is not seen. -/
theorem read_frame {text : List α} {tag tag' : Option (List α)} {s t : List ν}
    (h : Reader.read m ⟨tag, s⟩ text = some ⟨tag', t⟩) (u : List ν) :
    Reader.read m ⟨tag, s ++ u⟩ text = some ⟨tag', t ++ u⟩ := by
  induction text generalizing tag s with
  | nil =>
      cases h
      rfl
  | cons c text ih =>
      rw [read_cons] at h
      rcases Option.bind_eq_some_iff.mp h with ⟨⟨next, opened⟩, hstep, hrest⟩
      have hframed : Reader.step m ⟨tag, s ++ u⟩ c = some ⟨next, opened ++ u⟩ := by
        cases tag with
        | none =>
            by_cases hc : c = m.left
            · subst hc
              rw [step_left] at hstep ⊢
              cases hstep
              rfl
            · rw [step_outside hc] at hstep ⊢
              cases hstep
              rfl
        | some content =>
            by_cases hc : c = m.right
            · subst hc
              simp only [Reader.step, if_true] at hstep
              rcases Option.map_eq_some_iff.mp hstep with ⟨closed, hrun, heq⟩
              cases heq
              exact step_right (Effect.run_append hrun u)
            · rw [step_inside hc] at hstep ⊢
              cases hstep
              rfl
      rw [read_cons, hframed]
      exact ih hrest

/-- What is below on the stack stays. -/
theorem Moves.frame {text : List α} {s t : List ν} (h : Moves m text s t) (u : List ν) :
    Moves m text (s ++ u) (t ++ u) :=
  read_frame h u

/-- A well nested text leaves the open names as they are. -/
theorem WellNested.moves {text : List α} (h : WellNested m text) (s : List ν) :
    Moves m text s s :=
  Moves.frame h s

/-- The empty text is well nested. -/
theorem wellNested_nil : WellNested m ([] : List α) :=
  rfl

/-- Two well nested texts in a row are well nested. -/
theorem WellNested.append {x y : List α} (hx : WellNested m x) (hy : WellNested m y) :
    WellNested m (x ++ y) :=
  Moves.append hx hy

/-- A well nested text between a text that opens names and one that closes them. -/
theorem WellNested.between {x text y : List α} {s t u : List ν} (h : WellNested m text)
    (hx : Moves m x s t) (hy : Moves m y t u) : Moves m (x ++ text ++ y) s u :=
  (hx.append (h.moves t)).append hy

/-- A text without a delimiter on the left has no tags. -/
theorem wellNested_of_not_mem {text : List α} (h : m.left ∉ text) : WellNested m text :=
  read_outside h

/-- Well nested texts in a row are well nested. -/
theorem wellNested_flatMap {β : Type} {f : β → List α} {xs : List β}
    (h : ∀ x ∈ xs, WellNested m (f x)) : WellNested m (xs.flatMap f) := by
  induction xs with
  | nil => exact wellNested_nil
  | cons x xs ih =>
      rw [List.flatMap_cons]
      exact (h x List.mem_cons_self).append (ih fun y hy => h y (List.mem_cons_of_mem _ hy))

/-- Well nested texts in a row are well nested. -/
theorem wellNested_flatten {texts : List (List α)} (h : ∀ text ∈ texts, WellNested m text) :
    WellNested m texts.flatten := by
  rw [← List.flatMap_id]
  exact wellNested_flatMap h

/-- Texts that leave a name open each leave it open as often as there are texts. -/
theorem moves_flatten_replicate {name : ν} {texts : List (List α)}
    (h : ∀ text ∈ texts, Moves m text [] [name]) (s : List ν) :
    Moves m texts.flatten s (List.replicate texts.length name ++ s) := by
  induction texts generalizing s with
  | nil => exact wellNested_nil.moves s
  | cons text texts ih =>
      have hfirst : Moves m text s (name :: s) := (h text List.mem_cons_self).frame s
      have hrest := ih (fun other hother => h other (List.mem_cons_of_mem _ hother)) (name :: s)
      rw [List.flatten_cons, List.length_cons, List.replicate_succ', List.append_assoc]
      exact hfirst.append hrest

/-- A text ends in one way. -/
theorem Moves.unique {text : List α} {s t u : List ν} (ht : Moves m text s t)
    (hu : Moves m text s u) : t = u := by
  unfold Moves at ht hu
  rw [ht] at hu
  cases hu
  rfl

end Nesting
end Library
end TestAio
