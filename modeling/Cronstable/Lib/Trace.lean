import Mathlib.Algebra.GroupWithZero.Nat
import Mathlib.Logic.Relation
import Mathlib.Tactic.Common

/-!
# Runs of a labelled transition relation

A run of `step : σ → α → σ → Prop` is a finite sequence of steps with the list of their labels.
A step function that took a list of labels made a run (`Run.of_foldlM`).

An invariant, or a preorder between states, is proved for one step and transferred to whole runs
by `Run.invariant` and `Run.rel`, what a label promises by `Run.labelled`, an invariant that speaks
of the labels passed by `Run.history`, and a quantity that each label pays for by `Run.measure`.
-/

namespace Trace

open List

variable {σ α : Type*} {step : σ → α → σ → Prop}

/-- Finite runs with the labels of their steps, oldest first. -/
inductive Run (step : σ → α → σ → Prop) : σ → List α → σ → Prop
  | nil (s : σ) : Run step s [] s
  | snoc {s t u : σ} {labels : List α} {a : α} :
      Run step s labels t → step t a u → Run step s (labels ++ [a]) u

variable {s t : σ} {labels : List α}

namespace Run

/-- One step is a run. -/
theorem single {a : α} (h : step s a t) : Run step s [a] t :=
  snoc (nil s) h

/-- A run without steps goes nowhere. -/
theorem eq_of_nil (h : Run step s [] t) : t = s := by
  generalize hlabels : ([] : List α) = labels at h
  cases h with
  | nil => rfl
  | snoc => simp at hlabels

/-- Runs compose. -/
theorem append {u : σ} {labels' : List α} (h : Run step s labels t)
    (h' : Run step t labels' u) : Run step s (labels ++ labels') u := by
  induction h' with
  | nil => simpa using h
  | snoc _ hstep ih =>
    rw [← append_assoc]
    exact snoc ih hstep

/-- Steps of one kind are steps of another. -/
theorem mono {step' : σ → α → σ → Prop} (hstep : ∀ s a t, step s a t → step' s a t)
    (h : Run step s labels t) : Run step' s labels t := by
  induction h with
  | nil => exact nil _
  | snoc _ ha ih => exact snoc ih (hstep _ _ _ ha)

/-- A step function that took all labels made a run. -/
theorem of_foldlM {f : σ → α → Option σ}
    (h : labels.foldlM f s = some t) : Run (fun s a t => f s a = some t) s labels t := by
  induction labels generalizing s with
  | nil =>
    cases h
    exact nil _
  | cons a labels ih =>
    obtain ⟨u, ha, hu⟩ := Option.bind_eq_some_iff.mp h
    exact (single ha).append (ih hu)

/-- Likewise with a guard on every step. -/
theorem of_guarded {p : σ → α → Prop} [∀ s a, Decidable (p s a)] {f : σ → α → Option σ}
    (h : labels.foldlM (fun s a => if p s a then f s a else none) s = some t) :
    Run (fun s a t => p s a ∧ f s a = some t) s labels t :=
  (of_foldlM h).mono fun _ _ _ => Option.ite_none_right_eq_some.mp

/-- A property kept by every step is kept by every run. -/
theorem invariant {P : σ → Prop} (hstep : ∀ s a t, P s → step s a t → P t)
    (h : Run step s labels t) (hs : P s) : P t := by
  induction h with
  | nil => exact hs
  | snoc _ ha ih => exact hstep _ _ _ ih ha

/-- A preorder that contains every step, given an invariant of the states passed, contains every
run. -/
theorem rel {P : σ → Prop} {R : σ → σ → Prop} (hP : ∀ s a t, P s → step s a t → P t)
    (hrefl : ∀ s, R s s) (htrans : ∀ s t u, R s t → R t u → R s u)
    (hstep : ∀ s a t, P s → step s a t → R s t)
    (h : Run step s labels t) (hs : P s) : R s t := by
  induction h with
  | nil => exact hrefl _
  | snoc hrun ha ih =>
    exact htrans _ _ _ ih (hstep _ _ _ (hrun.invariant hP hs) ha)

/-- What every step says about its label at its target, and what later steps keep, holds of every
label at the end of a run. -/
theorem labelled {P : σ → Prop} {Q : α → σ → Prop} (hP : ∀ s a t, P s → step s a t → P t)
    (hnew : ∀ s a t, P s → step s a t → Q a t)
    (hkeep : ∀ s a t, P s → step s a t → ∀ b, Q b s → Q b t)
    (h : Run step s labels t) (hs : P s) : ∀ a ∈ labels, Q a t := by
  induction h with
  | nil => simp
  | snoc hrun ha ih =>
    have hmid := hrun.invariant hP hs
    exact forall_mem_append.mpr ⟨fun b hb => hkeep _ _ _ hmid ha b (ih b hb),
      forall_mem_singleton.mpr (hnew _ _ _ hmid ha)⟩

/-- An invariant of the state and the labels passed so far. -/
theorem history {P : σ → List α → Prop} (h : Run step s labels t)
    (hstart : P s [])
    (hstep : ∀ s' done a t', a ∈ labels → P s' done → step s' a t' → P t' (done ++ [a])) :
    P t labels := by
  induction h with
  | nil => exact hstart
  | snoc _ ha ih =>
    refine hstep _ _ _ _ (by simp) (ih fun s' done a t' hmem => ?_) ha
    exact hstep s' done a t' (mem_append_left _ hmem)

/-- When every step pays for its label out of a measure, a run pays for all of its labels. -/
theorem measure {P : σ → Prop} (μ : σ → ℕ) (cost : α → ℕ)
    (hP : ∀ s a t, P s → step s a t → P t)
    (h : Run step s labels t)
    (hstep : ∀ s' a t', a ∈ labels → P s' → step s' a t' → μ t' + cost a ≤ μ s') (hs : P s) :
    μ t + (labels.map cost).sum ≤ μ s := by
  induction h with
  | nil => simp
  | snoc hrun ha ih =>
    have hpay := hstep _ _ _ (by simp) (hrun.invariant hP hs) ha
    replace ih := ih fun s' a t' hmem => hstep s' a t' (mem_append_left _ hmem)
    rw [map_append, sum_append, map_singleton, sum_singleton]
    omega

end Run

end Trace
