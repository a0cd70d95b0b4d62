import Mathlib.Data.List.Forall2
import Mathlib.Order.Filter.AtTopBot.Basic

/-!
# Folds that can fail

A loop with an accumulator whose body first computes something that may fail and
then updates the accumulator purely is a failing map followed by a pure fold.

Main results:

- Theorem {lit}`foldlM_eq_map_mapM`: the two ways of running the loop agree, failures
  included.
- Theorem {lit}`foldlM_history`: an invariant that mentions the elements read so far.
- Theorem {lit}`mapM_eq_ok_iff`: a failing map succeeds exactly when it succeeds on
  every element.
- Theorem {lit}`exists_of_mapM_eq_error`: a failing map that fails does so on an element.
- Theorem {lit}`eventually_mapM`: with enough fuel for every element there is enough
  for the list.
- Theorem {lit}`Safe.foldlM`: an invariant that excludes errors excludes them in the whole
  loop.
- Theorem {lit}`foldlM_iff_along`: a property that a step keeps exactly where a condition holds is
  kept by a loop exactly where the condition holds along it.

Current gaps:

- None.
-/

namespace TestAio
namespace Library
namespace Effects

variable {ε α β γ : Type}

@[simp]
theorem map_ok (f : α → β) (a : α) : (Except.ok a : Except ε α).map f = .ok (f a) :=
  rfl

@[simp]
theorem map_error (f : α → β) (e : ε) : (Except.error e : Except ε α).map f = .error e :=
  rfl

@[simp]
theorem ok_bind (a : α) (f : α → Except ε β) : (Except.ok a >>= f) = f a :=
  rfl

@[simp]
theorem error_bind (e : ε) (f : α → Except ε β) : (Except.error e >>= f) = .error e :=
  rfl

/-- Mapping twice is mapping once. -/
theorem map_map (f : α → β) (g : β → γ) (x : Except ε α) :
    (x.map f).map g = x.map (g ∘ f) := by
  cases x <;> rfl

/-- A mapped result comes from a result. -/
theorem map_eq_ok_iff {f : α → β} {x : Except ε α} {b : β} :
    x.map f = .ok b ↔ ∃ a, x = .ok a ∧ f a = b := by
  cases x <;> simp

/-- Two steps succeed when each one does. -/
theorem bind_eq_ok_iff {x : Except ε α} {f : α → Except ε β} {b : β} :
    x >>= f = .ok b ↔ ∃ a, x = .ok a ∧ f a = .ok b := by
  cases x <;> simp [bind, Except.bind]

/-- Mapping keeps the error. -/
theorem map_eq_error_iff {f : α → β} {x : Except ε α} {e : ε} :
    x.map f = .error e ↔ x = .error e := by
  cases x <;> simp

/-- Two steps fail when the first one does, or the second one after it. -/
theorem bind_eq_error_iff {x : Except ε α} {f : α → Except ε β} {e : ε} :
    x >>= f = .error e ↔ x = .error e ∨ ∃ a, x = .ok a ∧ f a = .error e := by
  cases x <;> simp [bind, Except.bind]

/-- A loop whose body fails independently of the accumulator. -/
theorem foldlM_eq_map_mapM {step : β → α → Except ε β} (read : α → Except ε γ)
    (update : β → γ → β) {xs : List α}
    (h : ∀ x ∈ xs, ∀ b, step b x = (read x).map (update b)) (b : β) :
    xs.foldlM step b = (xs.mapM read).map fun ys => ys.foldl update b := by
  induction xs generalizing b with
  | nil => rfl
  | cons x xs ih =>
      have hrest : ∀ y ∈ xs, ∀ b, step b y = (read y).map (update b) :=
        fun y hy => h y (by simp [hy])
      rw [List.foldlM_cons, List.mapM_cons, h x (by simp)]
      cases hread : read x with
      | error e => rfl
      | ok c =>
          simp only [map_ok, bind, Except.bind, ih hrest]
          cases xs.mapM read <;> rfl

/-- What holds of the elements read so far at the start and after each step holds after
the loop. -/
theorem foldlM_history {step : β → α → Except ε β} {P : List α → β → Prop}
    (hstep : ∀ done x b b', P done b → step b x = .ok b' → P (done ++ [x]) b')
    {done xs : List α} {b b' : β} (hstart : P done b) (h : xs.foldlM step b = .ok b') :
    P (done ++ xs) b' := by
  induction xs generalizing done b with
  | nil =>
      cases h
      simpa using hstart
  | cons x xs ih =>
      rw [List.foldlM_cons] at h
      rcases bind_eq_ok_iff.mp h with ⟨c, hc, hrest⟩
      simpa using ih (hstep done x b c hstart hc) hrest

/-- A failing map succeeds exactly when it succeeds element by element. -/
theorem mapM_eq_ok_iff {f : α → Except ε β} {xs : List α} {ys : List β} :
    xs.mapM f = .ok ys ↔ List.Forall₂ (fun x y => f x = .ok y) xs ys := by
  induction xs generalizing ys with
  | nil =>
      constructor
      · intro h
        cases h
        exact List.Forall₂.nil
      · intro h
        cases h
        rfl
  | cons x xs ih =>
      rw [List.mapM_cons]
      constructor
      · intro h
        rcases bind_eq_ok_iff.mp h with ⟨y, hy, h⟩
        rcases bind_eq_ok_iff.mp h with ⟨ys', hys, h⟩
        cases h
        exact List.Forall₂.cons hy (ih.mp hys)
      · intro h
        cases h with
        | cons hy hys =>
            rw [hy, ih.mpr hys]
            rfl

/-- Every result of a failing map comes from an element. -/
theorem exists_of_mem_mapM {f : α → Except ε β} {xs : List α} {ys : List β}
    (h : xs.mapM f = .ok ys) {y : β} (hy : y ∈ ys) : ∃ x ∈ xs, f x = .ok y := by
  have hpairs := mapM_eq_ok_iff.mp h
  clear h
  induction hpairs with
  | nil => simp at hy
  | @cons x y' xs ys hxy _ ih =>
      rcases List.mem_cons.mp hy with rfl | hy
      · exact ⟨x, by simp, hxy⟩
      · rcases ih hy with ⟨x', hx', hf⟩
        exact ⟨x', by simp [hx'], hf⟩

/-- A failing map that succeeds does so on every element. -/
theorem exists_of_mapM_eq_ok {f : α → Except ε β} {xs : List α} {ys : List β}
    (h : xs.mapM f = .ok ys) {x : α} (hx : x ∈ xs) : ∃ y, f x = .ok y := by
  have hpairs := mapM_eq_ok_iff.mp h
  clear h
  induction hpairs with
  | nil => exact absurd hx List.not_mem_nil
  | @cons x' y xs ys hxy _ ih =>
      rcases List.mem_cons.mp hx with rfl | hx
      · exact ⟨y, hxy⟩
      · exact ih hx

/-- A failing map that fails does so on an element. -/
theorem exists_of_mapM_eq_error {f : α → Except ε β} {xs : List α} {e : ε}
    (h : xs.mapM f = .error e) : ∃ x ∈ xs, f x = .error e := by
  induction xs with
  | nil => cases h
  | cons x xs ih =>
      rw [List.mapM_cons] at h
      cases hx : f x with
      | error d =>
          rw [hx] at h
          cases h
          exact ⟨x, List.mem_cons_self, hx⟩
      | ok y =>
          rw [hx, ok_bind] at h
          cases hxs : xs.mapM f with
          | error d =>
              rw [hxs] at h
              cases h
              rcases ih hxs with ⟨x', hx', hf⟩
              exact ⟨x', List.mem_cons_of_mem _ hx', hf⟩
          | ok ys =>
              rw [hxs] at h
              cases h

/-- A failing map succeeds if and only if it does so on every element. -/
theorem mapM_isOk_iff {f : α → Except ε β} {xs : List α} :
    (∃ ys, xs.mapM f = .ok ys) ↔ ∀ x ∈ xs, ∃ y, f x = .ok y := by
  constructor
  · intro h x hx
    rcases h with ⟨ys, hys⟩
    exact exists_of_mapM_eq_ok hys hx
  · intro h
    cases hxs : xs.mapM f with
    | ok ys => exact ⟨ys, rfl⟩
    | error e =>
        rcases exists_of_mapM_eq_error hxs with ⟨x, hx, herror⟩
        rcases h x hx with ⟨y, hok⟩
        rw [herror] at hok
        cases hok

/-- What holds of a mapped result holds of the result. -/
theorem exists_map_eq_ok_iff {f : α → β} {x : Except ε α} {P : β → Prop} :
    (∃ b, x.map f = .ok b ∧ P b) ↔ ∃ a, x = .ok a ∧ P (f a) := by
  cases x with
  | ok a => simp
  | error e => simp

/-- Mapping succeeds exactly when there is a result. -/
theorem map_isOk_iff {f : α → β} {x : Except ε α} :
    (∃ b, x.map f = .ok b) ↔ ∃ a, x = .ok a := by
  have h := exists_map_eq_ok_iff (f := f) (x := x) (P := fun _ => True)
  simpa only [and_true] using h

/-- A check in front of a computation. -/
theorem exists_guard_eq_ok_iff {p : Prop} [Decidable p] {e : ε} {rest : Except ε α} :
    (∃ x, (if p then .error e else rest) = .ok x) ↔ ¬ p ∧ ∃ x, rest = .ok x := by
  by_cases hp : p
  · rw [if_pos hp]
    apply iff_of_false
    · intro h
      rcases h with ⟨x, hx⟩
      cases hx
    · exact fun h => h.1 hp
  · rw [if_neg hp, and_iff_right hp]

/-- A check of the result. -/
theorem exists_check_eq_ok_iff {p : Prop} [Decidable p] {e : ε} {y : α} :
    (∃ x, (if p then .ok y else .error e : Except ε α) = .ok x) ↔ p := by
  by_cases hp : p
  · rw [if_pos hp]
    exact iff_of_true ⟨y, rfl⟩ hp
  · rw [if_neg hp]
    apply iff_of_false _ hp
    intro h
    rcases h with ⟨x, hx⟩
    cases hx

/-- With enough fuel for every element a failure is avoided on the list. -/
theorem eventually_mapM_ne_error {ι : Type} {l : Filter ι} {f : ι → α → Except ε β} {e : ε}
    {xs : List α} (h : ∀ x ∈ xs, ∀ᶠ n in l, f n x ≠ .error e) :
    ∀ᶠ n in l, xs.mapM (f n) ≠ .error e := by
  have hall : ∀ᶠ n in l, ∀ x ∈ xs, f n x ≠ .error e := by
    induction xs with
    | nil => exact Filter.Eventually.of_forall fun n x hx => absurd hx List.not_mem_nil
    | cons x xs ih =>
        filter_upwards [h x List.mem_cons_self,
          ih fun y hy => h y (List.mem_cons_of_mem _ hy)] with n hx hxs
        exact List.forall_mem_cons.mpr ⟨hx, hxs⟩
  refine hall.mono fun n hn herror => ?_
  rcases exists_of_mapM_eq_error herror with ⟨x, hx, hf⟩
  exact hn x hx hf

/-- Enough fuel for every element is enough for the list. -/
theorem eventually_mapM {ι : Type} {l : Filter ι} {f : ι → α → Except ε β}
    {P : α → β → Prop} {xs : List α}
    (h : ∀ x ∈ xs, ∀ᶠ n in l, ∃ y, f n x = .ok y ∧ P x y) :
    ∀ᶠ n in l, ∃ ys, xs.mapM (f n) = .ok ys ∧ List.Forall₂ P xs ys := by
  induction xs with
  | nil => exact Filter.Eventually.of_forall fun n => ⟨[], rfl, List.Forall₂.nil⟩
  | cons x xs ih =>
      have hrest := ih fun y hy => h y (by simp [hy])
      filter_upwards [h x (by simp), hrest] with n hx hxs
      rcases hx with ⟨y, hy, hP⟩
      rcases hxs with ⟨ys, hys, hPs⟩
      refine ⟨y :: ys, ?_, List.Forall₂.cons hP hPs⟩
      rw [List.mapM_cons, hy, hys]
      rfl

/-- What holds one step later from enough fuel on holds from enough fuel on. -/
theorem eventually_of_succ {p q : Nat → Prop} (h : ∀ᶠ n in Filter.atTop, p n)
    (hstep : ∀ n, p n → q (n + 1)) : ∀ᶠ n in Filter.atTop, q n := by
  rcases Filter.eventually_atTop.mp h with ⟨N, hN⟩
  refine Filter.eventually_atTop.mpr ⟨N + 1, fun n hn => ?_⟩
  cases n with
  | zero => omega
  | succ n => exact hstep n (hN n (by omega))

/-! ## Safe steps -/

/-- A step fails with an allowed error or ends where {lit}`P` holds. -/
def Safe (allowed : ε → Prop) (P : α → Prop) : Except ε α → Prop
  | .ok a => P a
  | .error e => allowed e

section Safe

variable {allowed : ε → Prop} {P : α → Prop} {x : Except ε α}

/-- Two safe steps are safe. -/
theorem Safe.bind {R : β → Prop} {f : α → Except ε β} (hx : Safe allowed P x)
    (hf : ∀ a, P a → Safe allowed R (f a)) : Safe allowed R (x >>= f) := by
  cases x with
  | ok a => exact hf a hx
  | error e => exact hx

/-- What is safe is safe for less. -/
theorem Safe.mono {Q : α → Prop} (hx : Safe allowed P x) (hPQ : ∀ a, P a → Q a) :
    Safe allowed Q x := by
  cases x with
  | ok a => exact hPQ a hx
  | error e => exact hx

/-- A safe result has the property. -/
theorem Safe.holds {a : α} (hx : Safe allowed P x) (h : x = .ok a) : P a := by
  subst h
  exact hx

/-- A safe step fails in an allowed way only. -/
theorem Safe.ne_error {e : ε} (hx : Safe allowed P x) (he : ¬ allowed e) : x ≠ .error e := by
  intro h
  subst h
  exact he hx

/-- Safe steps from an invariant to itself make a safe loop. -/
theorem Safe.foldlM {step : β → α → Except ε β} {R : β → Prop}
    (hstep : ∀ b a, R b → Safe allowed R (step b a)) (xs : List α) {b : β} (hb : R b) :
    Safe allowed R (xs.foldlM step b) := by
  induction xs generalizing b with
  | nil => exact hb
  | cons a xs ih =>
      rw [List.foldlM_cons]
      exact (hstep b a hb).bind fun c hc => ih hc

end Safe

/-! ## Loops that end -/

/-- A loop whose steps all succeed. -/
theorem foldlM_eq_some {step : β → α → Option β} {update : β → α → β} {xs : List α}
    (h : ∀ x ∈ xs, ∀ b, step b x = some (update b x)) (b : β) :
    xs.foldlM step b = some (xs.foldl update b) := by
  induction xs generalizing b with
  | nil => rfl
  | cons x xs ih =>
      rw [List.foldlM_cons, h x List.mem_cons_self, List.foldl_cons]
      exact ih (fun y hy => h y (List.mem_cons_of_mem _ hy)) (update b x)

/-- A loop whose steps succeed where an invariant holds and keep it. -/
theorem exists_foldlM_eq_some {step : β → α → Option β} {P : β → Prop}
    (hstep : ∀ b a, P b → ∃ b', step b a = some b' ∧ P b') (xs : List α) {b : β} (hb : P b) :
    ∃ b', xs.foldlM step b = some b' ∧ P b' := by
  induction xs generalizing b with
  | nil => exact ⟨b, rfl, hb⟩
  | cons a xs ih =>
      rcases hstep b a hb with ⟨c, hc, hPc⟩
      rcases ih hPc with ⟨b', hb', hPb'⟩
      refine ⟨b', ?_, hPb'⟩
      rw [List.foldlM_cons, hc]
      exact hb'

/-! ## Conditions along a loop -/

/-- Every step of a loop meets a condition on the state before it. -/
def Along (step : β → α → Option β) (P : β → α → Prop) : List α → β → Prop
  | [], _ => True
  | x :: xs, b => P b x ∧ ∀ b' ∈ step b x, Along step P xs b'

/-- When a step keeps {lit}`Q` exactly where a condition holds, a loop keeps it exactly where the
condition holds along the loop. -/
theorem foldlM_iff_along {step : β → α → Option β} {P : β → α → Prop} {R Q : β → Prop}
    (hstep : ∀ b a b', R b → step b a = some b' → R b' ∧ (Q b' ↔ Q b ∧ P b a))
    (xs : List α) {b b' : β} (hb : R b) (h : xs.foldlM step b = some b') :
    R b' ∧ (Q b' ↔ Q b ∧ Along step P xs b) := by
  induction xs generalizing b with
  | nil =>
      cases h
      exact ⟨hb, (and_iff_left trivial).symm⟩
  | cons a xs ih =>
      rw [List.foldlM_cons] at h
      rcases Option.bind_eq_some_iff.mp h with ⟨c, hc, hrest⟩
      rcases hstep b a c hb hc with ⟨hRc, hQc⟩
      rcases ih hRc hrest with ⟨hR, hQ⟩
      refine ⟨hR, ?_⟩
      have halong : Along step P (a :: xs) b ↔ P b a ∧ Along step P xs c := by
        simp [Along, hc]
      rw [hQ, hQc, halong, and_assoc]

end Effects
end Library
end TestAio
