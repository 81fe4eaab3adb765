import Mathlib

/-!
# Labelled runs of a step relation

A run takes labelled steps one after another. Quantifying over all runs from a
state is quantifying over every reachable state together with the way it was
reached. The rules below are the inductions over runs: an invariant kept by each
step holds at the end of every run, runs can be cut and joined between two steps, and a
simulation of single steps lifts to whole runs with the same labels.
-/

namespace Runs

variable {S T L : Type*}

inductive Run (step : S → L → S → Prop) : S → List L → S → Prop
  | nil (s : S) : Run step s [] s
  | cons {s s' t : S} {l : L} {ls : List L} :
      step s l s' → Run step s' ls t → Run step s (l :: ls) t

variable {step : S → L → S → Prop} {s t : S}

theorem Run.invariant {I : S → Prop}
    (hstep : ∀ s l s', I s → step s l s' → I s') {ls : List L}
    (hrun : Run step s ls t) (hs : I s) : I t := by
  induction hrun with
  | nil s => exact hs
  | cons h _ ih => exact ih (hstep _ _ _ hs h)

theorem Run.split {xs ys : List L}
    (hrun : Run step s (xs ++ ys) t) : ∃ m, Run step s xs m ∧ Run step m ys t := by
  induction xs generalizing s with
  | nil => exact ⟨s, .nil s, hrun⟩
  | cons x xs ih =>
    cases hrun with
    | cons h hrest =>
      obtain ⟨m, hxs, hys⟩ := ih hrest
      exact ⟨m, .cons h hxs, hys⟩

theorem Run.append {m : S} {xs ys : List L}
    (hxs : Run step s xs m) (hys : Run step m ys t) : Run step s (xs ++ ys) t := by
  induction hxs with
  | nil s => exact hys
  | cons h _ ih => exact .cons h (ih hys)

/-- A relation that every concrete step re-establishes through some abstract
step with the same label carries whole runs over, label by label. -/
theorem Run.simulation {astep : T → L → T → Prop}
    {R : S → T → Prop}
    (hstep : ∀ s l s' t, R s t → step s l s' → ∃ t', astep t l t' ∧ R s' t')
    {s' : S} {t : T} {ls : List L} (hrun : Run step s ls s') (hst : R s t) :
    ∃ t', Run astep t ls t' ∧ R s' t' := by
  induction hrun generalizing t with
  | nil s => exact ⟨t, .nil t, hst⟩
  | cons h _ ih =>
    obtain ⟨t1, ha, hR⟩ := hstep _ _ _ _ hst h
    obtain ⟨t2, hr, hR'⟩ := ih hR
    exact ⟨t2, .cons ha hr, hR'⟩

end Runs
