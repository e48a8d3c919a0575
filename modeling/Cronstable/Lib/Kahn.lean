import Mathlib.Tactic
import Cronstable.Lib.Dict

/-!
# Kahn's count-down over a dependency relation

Kahn's algorithm keeps, for every node, how many of its dependencies have not been taken yet.
Taking a node counts down its dependents, and a dependent whose count reaches zero becomes
takeable. The algorithm is run with different orders of taking (a stack, a queue), so the
loop `Kahn.loop` is given how the released nodes join the takeable ones. Its invariant `Kahn.Inv`
is over the list `done` of nodes taken so far and the list `ready` of takeable ones.

## Main results

* `Kahn.Inv.take`: taking any takeable node keeps the invariant;
* `Kahn.Inv.ordered`: the nodes are taken in an order in which every node follows its
  dependencies;
* `Kahn.Inv.rank_lt`: when every node was taken, the position in that order is a rank that
  grows along the relation, so the relation is acyclic;
* `Kahn.Inv.mem_done_of_acyclic`: of an acyclic relation every node is taken.
-/

namespace Kahn

open List

variable {κ : Type*} [DecidableEq κ]

/-- The count of `x`; a node without a stored count has nothing to wait for. -/
def count (waiting : Dict κ ℤ) (x : κ) : ℤ := (waiting.get? x).getD 0

/-- Count down the nodes of `downs` one after another. Returns the new counts and the nodes
whose count reached zero, in the order in which they did. -/
def release (waiting : Dict κ ℤ) : List κ → Dict κ ℤ × List κ
  | [] => (waiting, [])
  | x :: downs =>
    let left := count waiting x - 1
    let rest := release (waiting.set x left) downs
    (rest.1, if left = 0 then x :: rest.2 else rest.2)

@[simp]
lemma count_set (waiting : Dict κ ℤ) (x y : κ) (n : ℤ) :
    count (waiting.set x n) y = if y = x then n else count waiting y := by
  by_cases h : y = x <;> simp [count, h]

variable {downs : List κ}

/-- Every node of `downs` is counted down once, and no other node. -/
theorem count_release (h : downs.Nodup) (waiting : Dict κ ℤ) (y : κ) :
    count (release waiting downs).1 y = count waiting y - if y ∈ downs then 1 else 0 := by
  induction downs generalizing waiting with
  | nil => simp [release]
  | cons x downs ih =>
    obtain ⟨hx, hdowns⟩ := nodup_cons.mp h
    simp only [release, ih hdowns, count_set]
    by_cases hy : y = x
    · subst hy
      simp [hx]
    · simp [hy]

/-- The nodes released are those of `downs` that had one dependency left. -/
theorem mem_release (h : downs.Nodup) (waiting : Dict κ ℤ) (y : κ) :
    y ∈ (release waiting downs).2 ↔ y ∈ downs ∧ count waiting y = 1 := by
  induction downs generalizing waiting with
  | nil => simp [release]
  | cons x downs ih =>
    obtain ⟨hx, hdowns⟩ := nodup_cons.mp h
    have hrest := ih hdowns (waiting.set x (count waiting x - 1))
    rw [count_set] at hrest
    by_cases hy : y = x
    · subst hy
      simp only [release, mem_cons, true_or, true_and]
      split
      next hzero => simp; omega
      next hzero => simp only [hrest, hx, false_and, false_iff]; omega
    · rw [if_neg hy] at hrest
      simp only [release, mem_cons, hy, false_or]
      split
      next => simpa [hy] using hrest
      next => exact hrest

/-- The nodes released come in the order of `downs`, none of them twice. -/
theorem release_sublist (waiting : Dict κ ℤ) : (release waiting downs).2 <+ downs := by
  induction downs generalizing waiting with
  | nil => exact .slnil
  | cons x downs ih =>
    simp only [release]
    split
    next => exact (ih _).cons_cons x
    next => exact (ih _).cons x

/-- Every node of the list follows its dependencies. -/
def Ordered (deps : κ → List κ) (l : List κ) : Prop :=
  ∀ before x after, l = before ++ x :: after → ∀ d ∈ deps x, d ∈ before

/-- The loop invariant: `done` are the nodes taken so far, `ready` those that can be taken. -/
structure Inv (nodes : List κ) (deps : κ → List κ) (waiting : Dict κ ℤ)
    (done ready : List κ) : Prop where
  /-- No node is taken or offered twice. -/
  nodup : (done ++ ready).Nodup
  /-- Only nodes are taken or offered. -/
  subset : ∀ x ∈ done ++ ready, x ∈ nodes
  /-- A node waits for its dependencies that were not taken. -/
  count_eq : ∀ x ∈ nodes, count waiting x = ((deps x).filter (· ∉ done)).length
  /-- The nodes taken or offered are exactly those with nothing left to wait for. -/
  mem_iff : ∀ x ∈ nodes, (x ∈ done ++ ready ↔ ∀ d ∈ deps x, d ∈ done)
  /-- The nodes were taken in dependency order. -/
  ordered : Ordered deps done

variable {nodes : List κ} {deps : κ → List κ} {waiting : Dict κ ℤ} {done ready : List κ}

variable {l : List κ} {t : κ}

/-- Exactly one dependency is missing when the missing ones are a singleton. -/
private lemma filter_length_eq_one (hl : l.Nodup) (ht : t ∈ l) (htd : t ∉ done) :
    ((l.filter (· ∉ done)).length = 1) ↔ ∀ d ∈ l, d ∈ done ++ [t] := by
  have hmem : t ∈ l.filter (· ∉ done) := by simp [ht, htd]
  constructor
  · intro hlen d hd
    obtain ⟨a, ha⟩ := length_eq_one_iff.mp hlen
    rw [ha, mem_singleton] at hmem
    by_cases hdone : d ∈ done
    · simp [hdone]
    · have hd' : d ∈ l.filter (· ∉ done) := by simp [hd, hdone]
      rw [ha] at hd'
      simp [hd', hmem]
  · intro hall
    have hperm : (l.filter (· ∉ done)).Perm [t] := by
      rw [perm_ext_iff_of_nodup (hl.filter _) (nodup_singleton t)]
      intro d
      simp only [mem_filter, decide_eq_true_eq, mem_singleton]
      constructor
      · rintro ⟨hd, hdone⟩
        simpa [hdone] using hall d hd
      · rintro rfl
        exact ⟨ht, htd⟩
    simpa using hperm.length_eq

/-- Taking `t` counts down each of its dependents once. -/
private lemma filter_length_take (hl : l.Nodup) (t : κ) (htd : t ∉ done) :
    ((l.filter (· ∉ done ++ [t])).length : ℤ) =
      ((l.filter (· ∉ done)).length : ℤ) - if t ∈ l then 1 else 0 := by
  have hfilter : l.filter (· ∉ done ++ [t]) = (l.filter (· ∉ done)).erase t := by
    rw [(hl.filter _).erase_eq_filter, filter_filter]
    congr 1
    funext d
    by_cases hd : d = t <;> simp [hd]
  rw [hfilter, length_erase]
  by_cases ht : t ∈ l
  · have hmem : t ∈ l.filter (· ∉ done) := by simp [ht, htd]
    have hpos : 0 < (l.filter (· ∉ done)).length := length_pos_of_mem hmem
    rw [if_pos hmem, if_pos ht]
    omega
  · have hmem : t ∉ l.filter (· ∉ done) := by simp [ht]
    rw [if_neg hmem, if_neg ht, sub_zero]

omit [DecidableEq κ] in
/-- A dependency-ordered list stays so when a node with every dependency in it is appended. -/
private lemma Ordered.append_singleton (h : Ordered deps done) (ht : ∀ d ∈ deps t, d ∈ done) :
    Ordered deps (done ++ [t]) := by
  intro before x after heq d hd
  rcases eq_nil_or_concat' after with rfl | ⟨after', y, rfl⟩
  · obtain ⟨rfl, hx⟩ := append_inj' heq rfl
    rw [List.cons.injEq] at hx
    rw [← hx.1] at hd
    exact ht d hd
  · have heq' : done ++ [t] = (before ++ x :: after') ++ [y] := by simpa using heq
    exact h before x after' (append_inj' heq' rfl).1 d hd

/-- Taking any takeable node keeps the invariant, whatever the order in which the remaining and
the released nodes are kept. -/
theorem Inv.take (h : Inv nodes deps waiting done ready) (hdeps : ∀ x ∈ nodes, (deps x).Nodup)
    {rest ready' : List κ} (hready : ready.Perm (t :: rest)) (hdowns : downs.Nodup)
    (hmem : ∀ x, x ∈ downs ↔ x ∈ nodes ∧ t ∈ deps x)
    (hready' : ready'.Perm (rest ++ (release waiting downs).2)) :
    Inv nodes deps (release waiting downs).1 (done ++ [t]) ready' := by
  have hnodup : (done ++ t :: rest).Nodup :=
    (List.Perm.nodup_iff (hready.append_left done)).mp h.nodup
  have htd : t ∉ done := fun htmem => (nodup_append.mp hnodup).2.2 t htmem t (by simp) rfl
  have hmemRest : ∀ x, x ∈ done ++ ready ↔ x ∈ done ++ [t] ∨ x ∈ rest := by
    intro x
    rw [mem_append, hready.mem_iff]
    simp [or_assoc]
  -- a released node was waiting for `t` alone
  have hfreed : ∀ x, x ∈ (release waiting downs).2 ↔
      x ∈ nodes ∧ t ∈ deps x ∧ ∀ d ∈ deps x, d ∈ done ++ [t] := by
    intro x
    rw [mem_release hdowns, hmem]
    constructor
    · rintro ⟨⟨hx, htx⟩, hcount⟩
      rw [h.count_eq x hx] at hcount
      exact ⟨hx, htx, (filter_length_eq_one (hdeps x hx) htx htd).mp (by exact_mod_cast hcount)⟩
    · rintro ⟨hx, htx, hall⟩
      refine ⟨⟨hx, htx⟩, ?_⟩
      rw [h.count_eq x hx]
      exact_mod_cast (filter_length_eq_one (hdeps x hx) htx htd).mpr hall
  have hnew : ∀ x ∈ (release waiting downs).2, x ∉ done ++ ready := by
    intro x hx hin
    obtain ⟨hxn, htx, -⟩ := (hfreed x).mp hx
    exact htd ((h.mem_iff x hxn).mp hin t htx)
  have hmem' : ∀ x, x ∈ done ++ [t] ++ ready' ↔
      x ∈ done ++ ready ∨ x ∈ (release waiting downs).2 := by
    intro x
    rw [mem_append, hready'.mem_iff, mem_append (s := rest), hmemRest, or_assoc]
  refine ⟨?_, ?_, ?_, ?_, ?_⟩
  · have hperm : (done ++ [t] ++ ready').Perm
        ((done ++ t :: rest) ++ (release waiting downs).2) := by
      simpa using (hready'.append_left (done ++ [t]))
    rw [hperm.nodup_iff]
    refine nodup_append.mpr ⟨hnodup, hdowns.sublist (release_sublist waiting), ?_⟩
    rintro a ha b hb rfl
    refine hnew a hb ((hmemRest a).mpr ?_)
    simpa [or_assoc] using ha
  · intro x hx
    rcases (hmem' x).mp hx with hx | hx
    · exact h.subset x hx
    · exact ((hfreed x).mp hx).1
  · intro x hx
    rw [count_release hdowns, h.count_eq x hx, filter_length_take (hdeps x hx) t htd]
    simp [hmem, hx]
  · intro x hx
    rw [hmem', h.mem_iff x hx, hfreed]
    constructor
    · rintro (hall | ⟨-, -, hall⟩) d hd
      · simp [hall d hd]
      · exact hall d hd
    · intro hall
      by_cases htx : t ∈ deps x
      · exact .inr ⟨hx, htx, hall⟩
      · left
        intro d hd
        rcases mem_append.mp (hall d hd) with hdone | hdt
        · exact hdone
        · rw [mem_singleton] at hdt
          exact absurd (hdt ▸ hd) htx
  · have htready : t ∈ done ++ ready := by
      rw [mem_append, hready.mem_iff]
      simp
    exact h.ordered.append_singleton ((h.mem_iff t (h.subset t htready)).mp htready)

/-- Nothing taken yet: every node waits for all of its dependencies. -/
theorem Inv.init (hcount : ∀ x ∈ nodes, count waiting x = (deps x).length) (hnodup : ready.Nodup)
    (hready : ∀ x, x ∈ ready ↔ x ∈ nodes ∧ deps x = []) : Inv nodes deps waiting [] ready where
  nodup := hnodup
  subset x hx := ((hready x).mp hx).1
  count_eq x hx := by simpa using hcount x hx
  mem_iff x hx := by simp [hready, hx, eq_nil_iff_forall_not_mem]
  ordered before x after heq := by simp at heq

/-- The loop: take the first takeable node, let it count down its dependents `downs`, and join
those it releases to the takeable ones. Returns the counts, the nodes taken and the takeable
ones. -/
def loop (downs : κ → List κ) (join : List κ → List κ → List κ) :
    ℕ → Dict κ ℤ → List κ → List κ → Dict κ ℤ × List κ × List κ
  | 0, waiting, done, ready => (waiting, done, ready)
  | _ + 1, waiting, done, [] => (waiting, done, [])
  | fuel + 1, waiting, done, t :: ready =>
    let released := release waiting (downs t)
    loop downs join fuel released.1 (done ++ [t]) (join ready released.2)

/-- The loop keeps the invariant, and ends with nothing to take unless the fuel runs out. -/
theorem Inv.loop {downs : κ → List κ} {join : List κ → List κ → List κ}
    (hdeps : ∀ x ∈ nodes, (deps x).Nodup) (hdowns : ∀ t, (downs t).Nodup)
    (hmem : ∀ t x, x ∈ downs t ↔ x ∈ nodes ∧ t ∈ deps x)
    (hjoin : ∀ ready released, (join ready released).Perm (ready ++ released)) (fuel : ℕ)
    {waiting : Dict κ ℤ} {done ready : List κ} (h : Inv nodes deps waiting done ready) :
    let s := Kahn.loop downs join fuel waiting done ready
    Inv nodes deps s.1 s.2.1 s.2.2 ∧ (s.2.2 = [] ∨ s.2.1.length = done.length + fuel) := by
  induction fuel generalizing waiting done ready with
  | zero => exact ⟨h, .inr rfl⟩
  | succ fuel ih =>
    cases ready with
    | nil => exact ⟨h, .inl rfl⟩
    | cons t ready =>
      have hnext := h.take hdeps (List.Perm.refl (t :: ready)) (hdowns t) (hmem t) (hjoin ready _)
      obtain ⟨hinv, hend⟩ := ih hnext
      refine ⟨hinv, hend.imp_right fun hlen => ?_⟩
      rw [length_append, length_singleton, add_assoc, add_comm 1] at hlen
      exact hlen

variable {x : κ}

/-- When as many nodes were taken as there are, every node was taken. -/
theorem Inv.mem_done (h : Inv nodes deps waiting done ready) (hlen : nodes.length ≤ done.length)
    (hx : x ∈ nodes) : x ∈ done := by
  have hsub : done.Subperm nodes :=
    subperm_of_subset h.nodup.of_append_left fun y hy =>
      h.subset y (mem_append_left _ hy)
  exact (hsub.perm_of_length_le hlen).mem_iff.mpr hx

/-- Of an acyclic relation between the nodes every node is taken once nothing can be taken. -/
theorem Inv.mem_done_of_acyclic (h : Inv nodes deps waiting done [])
    (hclosed : ∀ x ∈ nodes, ∀ d ∈ deps x, d ∈ nodes)
    (hacyclic : ∀ x, ¬ Relation.TransGen (fun x d => x ∈ nodes ∧ d ∈ deps x) x x)
    (hx : x ∈ nodes) : x ∈ done := by
  let below : {x // x ∈ nodes} → {x // x ∈ nodes} → Prop :=
    fun d x => Relation.TransGen (fun x d => x ∈ nodes ∧ d ∈ deps x) x.1 d.1
  -- the nodes are finitely many, so an acyclic relation between them has no infinite descent
  have : Std.Irrefl below := ⟨fun x => hacyclic x.1⟩
  have hwf : WellFounded below := Finite.wellFounded_of_trans_of_irrefl below
  have htaken : ∀ x : {x // x ∈ nodes}, x.1 ∈ done := by
    intro x
    induction x using hwf.induction with
    | _ x ih =>
      have hall := (h.mem_iff x.1 x.2).mpr fun d hd =>
        ih ⟨d, hclosed x.1 x.2 d hd⟩ (.single ⟨x.2, hd⟩)
      simpa using hall
  exact htaken ⟨x, hx⟩

/-- When every node was taken, the nodes taken are the nodes in another order. -/
theorem Inv.perm_done (h : Inv nodes deps waiting done ready) (hnodup : nodes.Nodup)
    (hall : ∀ x ∈ nodes, x ∈ done) : ready = [] ∧ done.Perm nodes := by
  obtain ⟨hdone, -, hdisjoint⟩ := nodup_append.mp h.nodup
  constructor
  · rw [eq_nil_iff_forall_not_mem]
    intro x hx
    exact hdisjoint x (hall x (h.subset x (mem_append_right _ hx))) x hx rfl
  · rw [perm_ext_iff_of_nodup hdone hnodup]
    exact fun x => ⟨fun hx => h.subset x (mem_append_left _ hx), hall x⟩

/-- In a dependency-ordered list, a node comes after its dependencies. -/
theorem Ordered.idxOf_lt (h : Ordered deps l) {d : κ} (hx : x ∈ l) (hd : d ∈ deps x) :
    l.idxOf d < l.idxOf x := by
  obtain ⟨before, after, heq, hnot⟩ := eq_append_cons_of_mem hx
  have hmem : d ∈ before := h before x after heq d hd
  rw [heq, idxOf_append_of_mem hmem, idxOf_append_of_notMem hnot]
  have := idxOf_lt_length_of_mem hmem
  simp only [idxOf_cons_self, add_zero]
  exact this

/-- When every node was taken, the order of taking ranks the dependency relation. -/
theorem Inv.rank_lt (h : Inv nodes deps waiting done ready) (hlen : nodes.length ≤ done.length)
    {d : κ} (hx : x ∈ nodes) (hd : d ∈ deps x) : done.idxOf d < done.idxOf x :=
  h.ordered.idxOf_lt (h.mem_done hlen hx) hd

end Kahn
