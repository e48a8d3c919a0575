import Mathlib.Tactic.Common

/-!
# Logs

A log numbers what was asked for in the order in which it was asked. New items are appended, and an
item is replaced at its place when it is answered.
-/

namespace Log

open List

variable {α : Type*} {log : List α} {i j : ℕ} {a b : α}

/-- An item keeps its place when others are appended. -/
theorem append_some (h : log[i]? = some a) (new : List α) : (log ++ new)[i]? = some a := by
  rw [List.getElem?_append_left (List.getElem?_eq_some_iff.mp h).1, h]

/-- An item of a longer log is an old one or a new one. -/
theorem append_cases {new : List α} (h : (log ++ new)[i]? = some a) :
    log[i]? = some a ∨ log.length ≤ i ∧ a ∈ new := by
  rcases Nat.lt_or_ge i log.length with hi | hi
  · exact .inl (getElem?_append_left hi ▸ h)
  · rw [getElem?_append_right hi] at h
    exact .inr ⟨hi, List.mem_of_getElem? h⟩

/-- An answered item has its answer. -/
theorem set_self (h : log[i]? = some a) (b : α) : (log.set i b)[i]? = some b :=
  List.getElem?_set_self (List.getElem?_eq_some_iff.mp h).1

/-- Another item is as it was. -/
theorem set_other (hne : i ≠ j) (h : log[j]? = some a) (b : α) : (log.set i b)[j]? = some a :=
  (getElem?_set_ne hne).trans h

/-- What an item is after one was answered. -/
theorem set_at {b : α} (h : log[i]? = some a) (hj : log[j]? = some b) (x : α) :
    i = j ∧ a = b ∧ (log.set i x)[j]? = some x ∨ (log.set i x)[j]? = some b := by
  by_cases hij : i = j
  · subst hij
    exact .inl ⟨rfl, Option.mem_unique h hj, set_self h x⟩
  · exact .inr (set_other hij hj x)

/-- An item of a log in which one was answered is that one, or as it was. -/
theorem set_cases (h : (log.set i b)[j]? = some a) : i = j ∧ a = b ∨ i ≠ j ∧ log[j]? = some a := by
  rw [getElem?_set] at h
  split_ifs at h with heq
  · exact .inl ⟨heq, (Option.some.inj h).symm⟩
  · exact .inr ⟨heq, h⟩

/-- What holds of every item and of a new one holds of the longer log. -/
theorem forall_append {P : α → Prop} (h : ∀ x ∈ log, P x) (hb : P b) : ∀ x ∈ log ++ [b], P x :=
  forall_mem_append.mpr ⟨h, forall_mem_singleton.mpr hb⟩

/-- Likewise of a log in which one was answered. -/
theorem forall_set {P : α → Prop} (h : ∀ x ∈ log, P x) (i : ℕ) (hb : P b) :
    ∀ x ∈ log.set i b, P x := by
  intro x hx
  rcases mem_or_eq_of_mem_set hx with hold | rfl
  · exact h x hold
  · exact hb

end Log
