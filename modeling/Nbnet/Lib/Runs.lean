/-
Nbnet.Lib.Runs — runs of a step function and the rules that reason about
them.

A component is a state type, a type of inputs and a step function; a run
is `List.foldl step`. `StepsMeet` says that every step of a run satisfies
a condition on the state BEFORE the step and on its input, which is how a
theorem that holds only of well-behaved runs names the runs it is about.
`run_invariant` is the induction every invariant of a run is proved by,
and `always_iff_stepsMeet` turns an exact condition on one step into an
exact condition on a run.
-/
import Mathlib.Tactic.Common

namespace Nbnet.Lib

variable {σ ι : Type*}

/-- Every step of the run from `s` over the inputs meets `ok`, judged on
the state the step starts from. -/
def StepsMeet (step : σ → ι → σ) (ok : σ → ι → Prop) : σ → List ι → Prop
  | _, [] => True
  | s, i :: is => ok s i ∧ StepsMeet step ok (step s i) is

instance StepsMeet.decidable (step : σ → ι → σ) (ok : σ → ι → Prop)
    [∀ s i, Decidable (ok s i)] : ∀ (s : σ) (is : List ι), Decidable (StepsMeet step ok s is)
  | _, [] => .isTrue trivial
  | s, i :: is =>
      have : Decidable (StepsMeet step ok (step s i) is) :=
        StepsMeet.decidable step ok (step s i) is
      inferInstanceAs (Decidable (ok s i ∧ StepsMeet step ok (step s i) is))

theorem stepsMeet_append (step : σ → ι → σ) (ok : σ → ι → Prop) (s : σ) (xs ys : List ι) :
    StepsMeet step ok s (xs ++ ys) ↔
      StepsMeet step ok s xs ∧ StepsMeet step ok (xs.foldl step s) ys := by
  induction xs generalizing s with
  | nil => simp [StepsMeet]
  | cons x xs ih => simp only [List.cons_append, StepsMeet, ih, List.foldl_cons, and_assoc]

/-- The inputs a run consumes are its inputs. -/
theorem StepsMeet.and_mem {step : σ → ι → σ} {ok : σ → ι → Prop} {s : σ} {is : List ι}
    (h : StepsMeet step ok s is) : StepsMeet step (fun s i => ok s i ∧ i ∈ is) s is := by
  have hall : ∀ (js : List ι) (s : σ), js ⊆ is → StepsMeet step ok s js →
      StepsMeet step (fun s i => ok s i ∧ i ∈ is) s js := by
    intro js
    induction js with
    | nil => exact fun _ _ _ => trivial
    | cons j js ih =>
      intro s hsub hjs
      obtain ⟨hj, hrest⟩ := List.cons_subset.mp hsub
      exact ⟨⟨hjs.1, hj⟩, ih _ hrest hjs.2⟩
  exact hall is s (List.Subset.refl is) h

/-- What every good step preserves holds after every good run. -/
theorem run_invariant (Inv : σ → Prop) {step : σ → ι → σ} {ok : σ → ι → Prop}
    (hstep : ∀ s i, Inv s → ok s i → Inv (step s i)) :
    ∀ (is : List ι) (s : σ), Inv s → StepsMeet step ok s is → Inv (is.foldl step s)
  | [], _, hs, _ => hs
  | i :: is, s, hs, hok =>
      run_invariant Inv hstep is (step s i) (hstep s i hs hok.1) hok.2

/-- An invariant that every step preserves holds after every run. -/
theorem run_invariant_all (Inv : σ → Prop) {step : σ → ι → σ}
    (hstep : ∀ s i, Inv s → Inv (step s i)) (is : List ι) (s : σ) (hs : Inv s) :
    Inv (is.foldl step s) := by
  induction is generalizing s with
  | nil => exact hs
  | cons i is ih => exact ih (step s i) (hstep s i hs)

/-- Where each step keeps `P` exactly on its condition, a run keeps `P` at
every point exactly when all its steps meet the condition. -/
theorem always_iff_stepsMeet {Inv P : σ → Prop} {step : σ → ι → σ} {ok : σ → ι → Prop}
    (hinv : ∀ s i, Inv s → Inv (step s i))
    (hstep : ∀ s i, Inv s → P s → (P (step s i) ↔ ok s i)) :
    ∀ (is : List ι) (s : σ), Inv s → P s →
      ((∀ k, P ((is.take k).foldl step s)) ↔ StepsMeet step ok s is)
  | [], s, _, hP => by simp [StepsMeet, hP]
  | i :: is, s, hI, hP => by
      have ih := always_iff_stepsMeet hinv hstep is (step s i) (hinv s i hI)
      constructor
      · intro h
        have h1 : P (step s i) := by simpa using h 1
        exact ⟨(hstep s i hI hP).mp h1, (ih h1).mp fun k => by simpa using h (k + 1)⟩
      · rintro ⟨hok, hrest⟩ k
        have h1 := (hstep s i hI hP).mpr hok
        cases k with
        | zero => simpa using hP
        | succ k => simpa using (ih h1).mpr hrest k

end Nbnet.Lib
