import Cronstable.Lib.First
import Mathlib.Data.Int.ConditionallyCompleteOrder
import Mathlib.Order.ConditionallyCompleteLattice.Basic

/-!
# Generators

A generator is a step function on its suspended state: a resumption may never come back, may
return, or yields a value and suspends again. `Yields` relates a state to everything the generator
yields from it until it returns.

## Main results

* `exists_yields_of_first`: a generator each of whose resumptions yields the next element of a set
  bounded above yields the elements of the set in order and returns.
-/

variable {σ α : Type*}

/-- From `s` the generator yields the values of the list, one after another, and returns.
`resume s` is `none` when the resumption never comes back and `some none` when it returns. -/
inductive Yields (resume : σ → Option (Option (α × σ))) : σ → List α → Prop
  | stop {s : σ} (h : resume s = some none) : Yields resume s []
  | next {s s' : σ} {a : α} {l : List α} (h : resume s = some (some (a, s')))
      (hl : Yields resume s' l) : Yields resume s (a :: l)

/-- `pos` is the position of a suspended state and `key` that of a value. -/
theorem exists_yields_of_first {resume : σ → Option (Option (α × σ))} {S : Set ℤ} {bound : ℤ}
    (key : α → ℤ) (pos : σ → ℤ) (Inv : σ → Prop) (hbound : ∀ u ∈ S, u ≤ bound)
    (hstep : ∀ s, Inv s → ∃ r, resume s = some r ∧
      First {u | u ∈ S ∧ pos s < u} (r.map fun p => key p.1) ∧
      ∀ p ∈ r, Inv p.2 ∧ pos p.2 = key p.1)
    (s : σ) (hs : Inv s) :
    ∃ l, Yields resume s l ∧ (l.map key).SortedLT ∧ ∀ u, u ∈ l.map key ↔ u ∈ S ∧ pos s < u := by
  -- on the distance to the bound, which every value shortens
  induction hn : (bound - pos s).toNat using Nat.strong_induction_on generalizing s with
  | _ n ih =>
    obtain ⟨r, hresume, hfirst, hnext⟩ := hstep s hs
    cases r with
    | none =>
      refine ⟨[], .stop hresume, List.Pairwise.nil.sortedLT, fun u => ?_⟩
      have := First.none_iff.mp hfirst u
      simpa using this
    | some p =>
      obtain ⟨a, s'⟩ := p
      obtain ⟨hinv, hpos⟩ : Inv s' ∧ pos s' = key a := hnext (a, s') rfl
      obtain ⟨⟨hmem, hlt⟩, hmin⟩ : IsLeast {u | u ∈ S ∧ pos s < u} (key a) := hfirst
      have hle := hbound _ hmem
      obtain ⟨l, hl, hsorted, hall⟩ := ih _ (by rw [hpos]; omega) s' hinv rfl
      rw [hpos] at hall
      refine ⟨a :: l, .next hresume hl, ?_, fun u => ?_⟩
      · have hbelow : ∀ u ∈ l.map key, key a < u := fun u hu => ((hall u).mp hu).2
        exact (List.pairwise_cons.mpr ⟨hbelow, hsorted.pairwise⟩).sortedLT
      · rw [List.map_cons, List.mem_cons, hall]
        constructor
        · rintro (rfl | ⟨hu, hgt⟩)
          · exact ⟨hmem, hlt⟩
          · exact ⟨hu, hlt.trans hgt⟩
        · rintro ⟨hu, hgt⟩
          rcases eq_or_lt_of_le (hmin ⟨hu, hgt⟩) with heq | hlt'
          · exact .inl heq.symm
          · exact .inr ⟨hu, hlt'⟩
