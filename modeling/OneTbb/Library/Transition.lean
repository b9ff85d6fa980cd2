import Mathlib.Logic.Relation

/-!
# Runs of a transition system

A system is a set of initial states and a step relation. A run is a finite
sequence of steps, so a state is reachable when some run ends in it. The
rules below are the only inductions on runs the development uses.
-/

namespace OneTbb.Transition

open Relation

variable {S : Type*}

/-- The states in which some run from an initial state ends. -/
def Reachable (init : S → Prop) (step : S → S → Prop) (s : S) : Prop :=
  ∃ s₀, init s₀ ∧ ReflTransGen step s₀ s

/-- A property kept by every step is kept by every run. -/
theorem run_preserves {step : S → S → Prop} {P : S → Prop}
    (hstep : ∀ s t, P s → step s t → P t) {s t : S}
    (run : ReflTransGen step s t) (hs : P s) : P t := by
  induction run with
  | refl => exact hs
  | tail _ last ih => exact hstep _ _ ih last

/-- The events of a list, one after the other, are a run. -/
theorem run_of_foldlM {E : Type*} {step : S → E → Option S} {events : List E} {s t : S}
    (h : events.foldlM step s = some t) :
    ReflTransGen (fun s t => ∃ event, step s event = some t) s t := by
  induction events generalizing s with
  | nil =>
    cases h
    exact .refl
  | cons event rest ih =>
    rw [List.foldlM_cons] at h
    obtain ⟨u, hu, hrest⟩ := Option.bind_eq_some_iff.mp h
    exact .head ⟨event, hu⟩ (ih hrest)

/-- The steps of a run may use what is known of all states it reaches. -/
theorem run_preserves_along {step : S → S → Prop} {P Q : S → Prop} {s t : S}
    (hreached : ∀ u, ReflTransGen step s u → Q u)
    (hstep : ∀ u v, Q u → P u → step u v → P v)
    (run : ReflTransGen step s t) (hs : P s) : P t := by
  induction run with
  | refl => exact hs
  | tail before last ih => exact hstep _ _ (hreached _ before) ih last

/-- A system whose steps all lower a measure has no infinite run. -/
theorem no_infinite_run {step : S → S → Prop} (work : S → Nat)
    (hdec : ∀ s t, step s t → work t < work s) :
    ¬ ∃ run : Nat → S, ∀ k, step (run k) (run (k + 1)) := by
  rintro ⟨run, hrun⟩
  have hbound : ∀ k, work (run k) + k ≤ work (run 0) := by
    intro k
    induction k with
    | zero => exact Nat.le_refl _
    | succ k ih =>
      have := hdec _ _ (hrun k)
      omega
  have := hbound (work (run 0) + 1)
  omega

end OneTbb.Transition
