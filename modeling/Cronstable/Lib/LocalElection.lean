import Mathlib.Combinatorics.SimpleGraph.Connectivity.Connected
import Mathlib.Data.Set.Finite.Lemmas

/-!
# Elections by local views

The vertices of a graph are ranked, and each of them sees some others. A vertex wins if nothing
that it sees ranks higher. When no one sees beyond its own component, every finite component has a
winner: the highest of all. When ranks differ, two vertices that see each other do not both win.
-/

namespace LocalElection

variable {V K : Type*} [LinearOrder K] {G : SimpleGraph V} {sees : V → Set V} {rank : V → K}

/-- Nothing that the vertex sees ranks higher. -/
def Wins (sees : V → Set V) (rank : V → K) (v : V) : Prop := ∀ w ∈ sees v, rank w ≤ rank v

/-- The highest vertex of a component wins. -/
theorem exists_wins [Finite V] (hsees : ∀ v, ∀ w ∈ sees v, G.Reachable v w) (rank : V → K)
    (c : G.ConnectedComponent) : ∃ v, G.connectedComponentMk v = c ∧ Wins sees rank v := by
  obtain ⟨v, hv, hmax⟩ := Set.exists_max_image c.supp rank c.supp.toFinite c.nonempty_supp
  refine ⟨v, hv, fun w hw => hmax w ?_⟩
  -- whoever is seen is in the component
  have hreach : G.connectedComponentMk w = G.connectedComponentMk v :=
    SimpleGraph.ConnectedComponent.eq.mpr (hsees v w hw).symm
  exact hreach.trans hv

/-- Of two vertices that see each other at most one wins. -/
theorem not_both_win (hrank : Function.Injective rank) {v w : V} (hne : v ≠ w) (hv : w ∈ sees v)
    (hw : v ∈ sees w) : ¬ (Wins sees rank v ∧ Wins sees rank w) := by
  rintro ⟨hwin, hwin'⟩
  exact hne (hrank (le_antisymm (hwin' v hw) (hwin w hv)))

end LocalElection
