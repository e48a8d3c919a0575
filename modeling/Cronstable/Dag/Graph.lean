import Cronstable.Dag.Spec

/-!
# What validation guarantees

`validateGraph` accepts a DAG exactly when its ids are safe and distinct, its dependencies are
other tasks, its mapping directives name a direct and unmapped dependency of a plain task, and its
dependency relation is acyclic (`Usable`). `ValidSpec` collects what the runs of a DAG need of
this, with a rank in place of acyclicity; everything proved about them starts from it.

## Main results

* `validSpec_of_validateGraph`: an accepted DAG is valid;
* `ValidSpec.byId_eq_some`: the id index is the list of tasks;
* `validateGraph_exact`: the DAGs that are accepted, and what the upstream-first order of an
  accepted one is;
* `listedInOrder_iff`: in an in-order listing every dependency of a task stands before it.
-/

namespace Cronstable.Dag

open List Kahn Dict

/-- A DAG that can be run. -/
structure ValidSpec (spec : DagSpec) : Prop where
  nodup : (spec.tasks.map TaskSpec.id).Nodup
  /-- No id contains the separator of an instance key. -/
  no_hash : ∀ t ∈ spec.tasks, '#' ∉ t.id.toList
  known : ∀ t ∈ spec.tasks, ∀ dep ∈ t.dependsOn, ∃ u ∈ spec.tasks, u.id = dep
  /-- Only a plain task is mapped, over a direct dependency that is not mapped itself. -/
  expand : ∀ t ∈ spec.tasks, ∀ exp, t.expand = some exp →
    t.type = .task ∧ exp.fromTask ∈ t.dependsOn ∧
      ∀ u ∈ spec.tasks, u.id = exp.fromTask → u.expand = none
  /-- The dependency relation is acyclic: some rank grows along it. -/
  ranked : ∃ rank : String → ℕ, ∀ t ∈ spec.tasks, ∀ dep ∈ t.dependsOn, rank dep < rank t.id

/-- An id that names a task: it is not empty and has no separator, no C0 control character and no
DEL. -/
def SafeId (id : String) : Prop :=
  id ≠ "" ∧ '#' ∉ id.toList ∧ '/' ∉ id.toList ∧
    ∀ c ∈ id.toList, 0x20 ≤ c.toNat ∧ c.toNat ≠ 0x7f

/-- The task with the first id lists the second one among its dependencies. -/
def DependsOn (spec : DagSpec) (id dep : String) : Prop :=
  ∃ t ∈ spec.tasks, t.id = id ∧ dep ∈ t.dependsOn

/-- A DAG that can be loaded. -/
structure Usable (spec : DagSpec) : Prop where
  safe : ∀ t ∈ spec.tasks, SafeId t.id
  nodup : (spec.tasks.map TaskSpec.id).Nodup
  /-- Every dependency names another task. -/
  known : ∀ t ∈ spec.tasks, ∀ dep ∈ t.dependsOn, dep ≠ t.id ∧ ∃ u ∈ spec.tasks, u.id = dep
  /-- Only a plain task is mapped, over a direct dependency that is not mapped itself. -/
  expand : ∀ t ∈ spec.tasks, ∀ exp, t.expand = some exp →
    t.type = .task ∧ exp.fromTask ∈ t.dependsOn ∧
      ∃ u ∈ spec.tasks, u.id = exp.fromTask ∧ u.expand = none
  acyclic : ∀ id, ¬ Relation.TransGen (DependsOn spec) id id

/-- Every task stands after its dependencies. -/
def InOrder (tasks : List TaskSpec) : Prop :=
  ∀ before t after, tasks = before ++ t :: after → ∀ dep ∈ t.dependsOn, ∃ u ∈ before, u.id = dep

variable {spec : DagSpec} {t : TaskSpec}

/-- The id index holds exactly the tasks. -/
theorem byId_eq_some_of_nodup (hids : (spec.tasks.map TaskSpec.id).Nodup) {id : String} :
    spec.byId.get? id = some t ↔ t ∈ spec.tasks ∧ t.id = id := by
  have hnodup : ((spec.tasks.map fun t => (t.id, t)).map Prod.fst).Nodup := by
    simpa [Function.comp_def] using hids
  rw [DagSpec.byId, get?_ofList hnodup]
  simp only [mem_map, Prod.mk.injEq]
  constructor
  · rintro ⟨u, hu, hid, rfl⟩
    exact ⟨hu, hid⟩
  · rintro ⟨ht, hid⟩
    exact ⟨t, ht, hid, rfl⟩

namespace ValidSpec

lemma byId_eq_some (h : ValidSpec spec) {id : String} :
    spec.byId.get? id = some t ↔ t ∈ spec.tasks ∧ t.id = id :=
  byId_eq_some_of_nodup h.nodup

/-- A task is found under its id. -/
theorem byId_self (h : ValidSpec spec) (ht : t ∈ spec.tasks) : spec.byId.get? t.id = some t :=
  h.byId_eq_some.mpr ⟨ht, rfl⟩

/-- Tasks with the same id are the same task. -/
theorem eq_of_id (h : ValidSpec spec) {u : TaskSpec} (ht : t ∈ spec.tasks) (hu : u ∈ spec.tasks)
    (hid : t.id = u.id) : t = u := by
  have hget := h.byId_self ht
  rw [hid, h.byId_self hu] at hget
  exact (Option.some.inj hget).symm

/-- No task depends on itself. -/
theorem dep_ne (h : ValidSpec spec) (ht : t ∈ spec.tasks) {dep : String}
    (hdep : dep ∈ t.dependsOn) : dep ≠ t.id := by
  rintro rfl
  obtain ⟨rank, hrank⟩ := h.ranked
  exact lt_irrefl _ (hrank t ht _ hdep)

end ValidSpec

/-! ## The id checks -/

variable {tasks : List TaskSpec} {seen seen' : Dict String TaskSpec}

/-- A check and what follows it succeed together. -/
private lemma bind_ok {α β ε : Type} {x : Except ε α} {f : α → Except ε β} {b : β} :
    (x >>= f) = .ok b ↔ ∃ a, x = .ok a ∧ f a = .ok b := by
  cases x <;> simp [bind, Except.bind]

/-- The validator's control characters are these code points. -/
private lemma idControl_eq_false {c : Char} :
    idControl c = false ↔ 0x20 ≤ c.toNat ∧ c.toNat ≠ 0x7f := by
  simp only [idControl, Bool.or_eq_false_iff, decide_eq_false_iff_not]
  omega

private lemma validateId_ok :
    validateId t seen = .ok () ↔ SafeId t.id ∧ seen.contains t.id = false := by
  simp only [SafeId, ← idControl_eq_false]
  unfold validateId
  split_ifs with hempty hseparator hcontrol hseen
  · simp [hempty]
  · simp only [false_iff]
    tauto
  · simp only [false_iff]
    rw [any_eq_true] at hcontrol
    obtain ⟨c, hc, hctl⟩ := hcontrol
    rintro ⟨⟨-, -, -, hnone⟩, -⟩
    simp [hnone c hc] at hctl
  · simp [hseen]
  · push Not at hseparator
    simp_all

/-- Accepted ids are safe, distinct and new, and the index is built by plain writes. -/
private lemma validateIds_ok :
    validateIds tasks seen = .ok seen' ↔
      (∀ t ∈ tasks, SafeId t.id) ∧ (tasks.map TaskSpec.id).Nodup ∧
        (∀ t ∈ tasks, seen.contains t.id = false) ∧
        seen' = tasks.foldl (fun d t => d.set t.id t) seen := by
  induction tasks generalizing seen with
  | nil => simp [validateIds, eq_comm (a := seen)]
  | cons t tasks ih =>
    have hfresh : (∀ u ∈ tasks, (seen.set t.id t).contains u.id = false) ↔
        (∀ u ∈ tasks, u.id ≠ t.id) ∧ ∀ u ∈ tasks, seen.contains u.id = false := by
      rw [← forall₂_and]
      exact forall₂_congr fun u _ => by simp
    rw [validateIds, bind_ok]
    simp only [Unique.exists_iff, PUnit.default_eq_unit, validateId_ok, ih, hfresh,
      forall_mem_cons, map_cons, nodup_cons, mem_map, not_exists, not_and,
      foldl_cons]
    constructor
    · rintro ⟨⟨hsafe, hnew⟩, hsafes, hnodup, ⟨hne, hnews⟩, heq⟩
      exact ⟨⟨hsafe, hsafes⟩, ⟨hne, hnodup⟩, ⟨hnew, hnews⟩, heq⟩
    · rintro ⟨⟨hsafe, hsafes⟩, ⟨hne, hnodup⟩, ⟨hnew, hnews⟩, heq⟩
      exact ⟨⟨hsafe, hnew⟩, hsafes, hnodup, ⟨hne, hnews⟩, heq⟩

/-! ## The edge checks -/

/-- A loop of checks succeeds exactly when every check does. -/
private lemma forM_ok {α ε : Type} {l : List α} {f : α → Except ε Unit} :
    l.forM f = .ok () ↔ ∀ a ∈ l, f a = .ok () := by
  induction l with
  | nil => exact ⟨fun _ a ha => (not_mem_nil ha).elim, fun _ => rfl⟩
  | cons a l ih =>
    have hcons : (a :: l).forM f = (f a).bind fun _ => l.forM f := rfl
    rw [hcons, forall_mem_cons, ← ih]
    cases h : f a with
    | error e =>
      constructor
      · intro hbad
        cases hbad
      · rintro ⟨hbad, -⟩
        cases hbad
    | ok u => exact ⟨fun hl => ⟨rfl, hl⟩, fun hl => hl.2⟩

private lemma validateDep_ok {dep : String} :
    validateDep t seen dep = .ok () ↔ dep ≠ t.id ∧ seen.contains dep = true := by
  unfold validateDep
  split_ifs <;> simp_all

private lemma validateExpand_ok {exp : ExpandSpec} :
    validateExpand t exp seen = .ok () ↔ t.type = .task ∧ exp.fromTask ∈ t.dependsOn ∧
      ∃ u, seen.get? exp.fromTask = some u ∧ u.expand = none := by
  unfold validateExpand
  cases seen.get? exp.fromTask <;> split_ifs <;> simp_all

/-- What the edge checks ask of every task. -/
private lemma validateEdges_ok :
    validateEdges tasks seen = .ok () ↔ ∀ t ∈ tasks,
      (∀ dep ∈ t.dependsOn, dep ≠ t.id ∧ seen.contains dep = true) ∧
        ∀ exp, t.expand = some exp → t.type = .task ∧ exp.fromTask ∈ t.dependsOn ∧
          ∃ u, seen.get? exp.fromTask = some u ∧ u.expand = none := by
  rw [validateEdges, forM_ok]
  refine forall₂_congr fun t _ => ?_
  rw [bind_ok]
  simp only [Unique.exists_iff, PUnit.default_eq_unit, forM_ok, validateDep_ok]
  cases t.expand with
  | none => simp
  | some exp => simp [validateExpand_ok]

/-! ## The acyclicity check -/

section Kahn

/-- The upstreams of the task with a given id. -/
private def upstreams (spec : DagSpec) (id : String) : List String :=
  (spec.byId.get? id).elim [] TaskSpec.deps

/-- The tasks that a run of Kahn's algorithm took, and those it could take next: it took all of
them if the relation is one of known tasks and acyclic. -/
private def Taken (spec : DagSpec) (done ready : List String) : Prop :=
  (∃ waiting, Kahn.Inv (spec.tasks.map TaskSpec.id) (upstreams spec) waiting done ready) ∧
    ((∀ t ∈ spec.tasks, ∀ dep ∈ t.dependsOn, ∃ u ∈ spec.tasks, u.id = dep) →
      (∀ id, ¬ Relation.TransGen (DependsOn spec) id id) → ∀ t ∈ spec.tasks, t.id ∈ done)

variable (hids : (spec.tasks.map TaskSpec.id).Nodup)
include hids

private lemma upstreams_eq (ht : t ∈ spec.tasks) : upstreams spec t.id = t.deps := by
  rw [upstreams, (byId_eq_some_of_nodup hids).mpr ⟨ht, rfl⟩]
  rfl

private lemma mem_upstreams {id dep : String} :
    id ∈ spec.tasks.map TaskSpec.id ∧ dep ∈ upstreams spec id ↔ DependsOn spec id dep := by
  constructor
  · rintro ⟨hid, hdep⟩
    obtain ⟨t, ht, rfl⟩ := mem_map.mp hid
    rw [upstreams_eq hids ht] at hdep
    exact ⟨t, ht, rfl, mem_dedup.mp hdep⟩
  · rintro ⟨t, ht, rfl, hdep⟩
    rw [upstreams_eq hids ht]
    exact ⟨mem_map_of_mem ht, mem_dedup.mpr hdep⟩

/-- Whatever the order in which takeable tasks are kept. -/
private lemma loop_taken (join : List String → List String → List String)
    (hjoin : ∀ ready released, (join ready released).Perm (ready ++ released))
    {ready : List String} (hready : ready.Perm (roots TaskSpec.deps spec.tasks)) :
    let s := loop (dependents TaskSpec.deps spec.tasks) join spec.tasks.length
      (indegrees TaskSpec.deps spec.tasks) [] ready
    Taken spec s.2.1 s.2.2 := by
  have hmem : ∀ dep id, id ∈ dependents TaskSpec.deps spec.tasks dep ↔
      id ∈ spec.tasks.map TaskSpec.id ∧ dep ∈ upstreams spec id := by
    intro dep id
    rw [mem_upstreams hids]
    simp [dependents, DependsOn, TaskSpec.deps, and_assoc, and_comm]
  have hcount : ∀ id ∈ spec.tasks.map TaskSpec.id,
      count (indegrees TaskSpec.deps spec.tasks) id = (upstreams spec id).length := by
    intro id hid
    obtain ⟨t, ht, rfl⟩ := mem_map.mp hid
    have hkeys : ((spec.tasks.map fun t => (t.id, ((TaskSpec.deps t).length : ℤ))).map
        Prod.fst).Nodup := by
      simpa [Function.comp_def] using hids
    have hget := (get?_ofList hkeys).mpr (mem_map_of_mem ht)
    rw [Kahn.count, indegrees, hget, upstreams_eq hids ht]
    rfl
  have hroots : ∀ id, id ∈ ready ↔ id ∈ spec.tasks.map TaskSpec.id ∧ upstreams spec id = [] := by
    intro id
    rw [hready.mem_iff]
    simp only [roots, List.mem_map, List.mem_filter, List.isEmpty_iff]
    constructor
    · rintro ⟨t, ⟨ht, hempty⟩, rfl⟩
      exact ⟨⟨t, ht, rfl⟩, (upstreams_eq hids ht).trans hempty⟩
    · rintro ⟨⟨t, ht, rfl⟩, hempty⟩
      exact ⟨t, ⟨ht, (upstreams_eq hids ht).symm.trans hempty⟩, rfl⟩
  have hdeps : ∀ id ∈ spec.tasks.map TaskSpec.id, (upstreams spec id).Nodup := by
    intro id hid
    obtain ⟨t, ht, rfl⟩ := mem_map.mp hid
    rw [upstreams_eq hids ht]
    exact nodup_dedup _
  have hnodup : ∀ p : TaskSpec → Bool, ((spec.tasks.filter p).map TaskSpec.id).Nodup :=
    fun p => hids.sublist (filter_sublist.map _)
  have hinit := Kahn.Inv.init hcount (hready.nodup_iff.mpr (hnodup _)) hroots
  obtain ⟨hinv, hend⟩ := hinit.loop hdeps (fun _ => hnodup _) hmem hjoin spec.tasks.length
  refine ⟨⟨_, hinv⟩, fun hknown hacyclic t ht => ?_⟩
  rcases hend with hend | hend
  · rw [hend] at hinv
    refine hinv.mem_done_of_acyclic ?_ ?_ (mem_map_of_mem ht)
    · intro id hid dep hdep
      obtain ⟨u, hu, -, hdep⟩ := (mem_upstreams hids).mp ⟨hid, hdep⟩
      obtain ⟨v, hv, rfl⟩ := hknown u hu dep hdep
      exact mem_map_of_mem hv
    · simpa only [mem_upstreams hids] using hacyclic
  · exact hinv.mem_done (by simp [hend]) (mem_map_of_mem ht)

omit hids in
/-- `_check_acyclic` runs the loop on a stack and counts the tasks it takes. -/
private lemma kahnLoop_eq (tasks : List TaskSpec) (fuel : ℕ) (indeg : Dict String ℤ)
    (done ready : List String) :
    kahnLoop tasks fuel indeg ready done.length =
      let s := loop (dependents TaskSpec.deps tasks)
        (fun ready released => released.reverse ++ ready) fuel indeg done ready
      (s.2.1.length, s.1) := by
  induction fuel generalizing indeg done ready with
  | zero => rfl
  | succ fuel ih =>
    cases ready with
    | nil => rfl
    | cons tid ready =>
      have hnext := ih (release indeg (dependents TaskSpec.deps tasks tid)).1 (done ++ [tid])
        ((release indeg (dependents TaskSpec.deps tasks tid)).2.reverse ++ ready)
      rw [length_append, length_singleton] at hnext
      exact hnext

omit hids in
/-- `_upstream_first` runs it on a queue and lists the tasks it takes. -/
private lemma orderLoop_eq (fuel : ℕ) (waiting : Dict String ℤ) (done ready : List String) :
    orderLoop spec fuel waiting done ready =
      let s := loop (dependents (knownDeps spec) spec.tasks) List.append fuel waiting done
        ready
      s.2.1 ++ s.2.2 := by
  induction fuel generalizing waiting done ready with
  | zero => rfl
  | succ fuel ih =>
    cases ready with
    | nil => simp [orderLoop, loop]
    | cons tid ready => exact ih ..

/-- The check passes when as many tasks were taken as there are. -/
private lemma checkAcyclic_taken :
    ∃ done ready, Taken spec done ready ∧
      (checkAcyclic spec = .ok () ↔ done.length = spec.tasks.length) := by
  refine ⟨_, _, loop_taken hids (fun ready released => released.reverse ++ ready)
    (fun ready released => ?_) (reverse_perm _), ?_⟩
  · exact ((reverse_perm released).append_right ready).trans perm_append_comm
  · have hloop := kahnLoop_eq spec.tasks spec.tasks.length (indegrees TaskSpec.deps spec.tasks) []
      (roots TaskSpec.deps spec.tasks).reverse
    rw [length_nil] at hloop
    simp only [checkAcyclic, hloop]
    split_ifs with hne <;> simp_all

/-- A graph that passes the check is ranked by the order in which its tasks were taken. -/
private lemma ranked_of_checkAcyclic (h : checkAcyclic spec = .ok ()) :
    ∃ rank : String → ℕ, ∀ t ∈ spec.tasks, ∀ dep ∈ t.dependsOn, rank dep < rank t.id := by
  obtain ⟨done, ready, ⟨⟨waiting, hinv⟩, -⟩, hok⟩ := checkAcyclic_taken hids
  refine ⟨fun id => done.idxOf id, fun t ht dep hdep => ?_⟩
  refine hinv.rank_lt (by simp [hok.mp h]) (mem_map_of_mem ht) ?_
  rw [upstreams_eq hids ht]
  exact mem_dedup.mpr hdep

/-- The check passes exactly the acyclic relations. -/
private lemma checkAcyclic_ok
    (hknown : ∀ t ∈ spec.tasks, ∀ dep ∈ t.dependsOn, ∃ u ∈ spec.tasks, u.id = dep) :
    checkAcyclic spec = .ok () ↔ ∀ id, ¬ Relation.TransGen (DependsOn spec) id id := by
  constructor
  · intro h id hcycle
    obtain ⟨rank, hrank⟩ := ranked_of_checkAcyclic hids h
    -- the rank goes down along every path, so no path returns to its start
    have hdown : ∀ b, Relation.TransGen (DependsOn spec) id b → rank b < rank id := by
      intro b hpath
      induction hpath with
      | single hstep =>
        obtain ⟨t, ht, rfl, hdep⟩ := hstep
        exact hrank t ht _ hdep
      | tail _ hstep ih =>
        obtain ⟨t, ht, rfl, hdep⟩ := hstep
        exact (hrank t ht _ hdep).trans ih
    exact lt_irrefl _ (hdown id hcycle)
  · intro hacyclic
    obtain ⟨done, ready, ⟨⟨waiting, hinv⟩, hall⟩, hok⟩ := checkAcyclic_taken hids
    have hperm := (hinv.perm_done hids (by simpa using hall hknown hacyclic)).2
    rw [hok, hperm.length_eq, length_map]

end Kahn

/-- `validate_graph` accepts exactly the usable DAGs. -/
theorem validateGraph_ok : validateGraph spec = .ok () ↔ Usable spec := by
  rw [validateGraph]
  simp only [validateIds_ok, bind_ok, validateEdges_ok, Unique.exists_iff, PUnit.default_eq_unit]
  -- the index of the first loop and `byId` are built by the same writes
  have hbyId : spec.tasks.foldl (fun d t => d.set t.id t) .empty = spec.byId := by
    rw [DagSpec.byId, ofList, foldl_map]
  simp only [hbyId]
  constructor
  · rintro ⟨_, ⟨hsafe, hids, -, rfl⟩, hedges, hacyclic⟩
    have hknown : ∀ t ∈ spec.tasks, ∀ dep ∈ t.dependsOn,
        dep ≠ t.id ∧ ∃ u ∈ spec.tasks, u.id = dep := by
      intro t ht dep hdep
      obtain ⟨hne, hcontains⟩ := (hedges t ht).1 dep hdep
      obtain ⟨u, hu⟩ := contains_iff.mp hcontains
      exact ⟨hne, u, (byId_eq_some_of_nodup hids).mp hu⟩
    refine ⟨hsafe, hids, hknown, fun t ht exp hexp => ?_, ?_⟩
    · obtain ⟨htype, hdirect, u, hu, hplain⟩ := (hedges t ht).2 exp hexp
      obtain ⟨hmem, hid⟩ := (byId_eq_some_of_nodup hids).mp hu
      exact ⟨htype, hdirect, u, hmem, hid, hplain⟩
    · exact (checkAcyclic_ok hids fun t ht dep hdep => (hknown t ht dep hdep).2).mp hacyclic
  · rintro ⟨hsafe, hids, hknown, hexpand, hacyclic⟩
    refine ⟨_, ⟨hsafe, hids, by simp, rfl⟩, fun t ht => ⟨fun dep hdep => ?_, fun exp hexp => ?_⟩,
      (checkAcyclic_ok hids fun t ht dep hdep => (hknown t ht dep hdep).2).mpr hacyclic⟩
    · obtain ⟨hne, u, hu⟩ := hknown t ht dep hdep
      exact ⟨hne, contains_iff.mpr ⟨u, (byId_eq_some_of_nodup hids).mpr hu⟩⟩
    · obtain ⟨htype, hdirect, u, hmem, hid, hplain⟩ := hexpand t ht exp hexp
      exact ⟨htype, hdirect, u, (byId_eq_some_of_nodup hids).mpr ⟨hmem, hid⟩, hplain⟩

/-- An accepted DAG is valid. -/
theorem validSpec_of_validateGraph {spec : DagSpec} (h : validateGraph spec = .ok ()) :
    ValidSpec spec := by
  obtain ⟨hsafe, hids, hknown, hexpand, hacyclic⟩ := validateGraph_ok.mp h
  have hknown' : ∀ t ∈ spec.tasks, ∀ dep ∈ t.dependsOn, ∃ u ∈ spec.tasks, u.id = dep :=
    fun t ht dep hdep => (hknown t ht dep hdep).2
  refine ⟨hids, fun t ht => (hsafe t ht).2.1, hknown', fun t ht exp hexp => ?_,
    ranked_of_checkAcyclic hids ((checkAcyclic_ok hids hknown').mpr hacyclic)⟩
  obtain ⟨htype, hdirect, u, hmem, hid, hplain⟩ := hexpand t ht exp hexp
  refine ⟨htype, hdirect, fun v hv hvid => ?_⟩
  have hsame := (byId_eq_some_of_nodup hids).mpr ⟨hmem, hid⟩
  rw [(byId_eq_some_of_nodup hids).mpr ⟨hv, hvid⟩, Option.some.injEq] at hsame
  rw [hsame]
  exact hplain

/-! ## Listings in order -/

/-- In an in-order listing every dependency of a task stands before it. -/
theorem listedInOrder_iff {listed : List String} :
    listedInOrder tasks listed = true ↔ ∀ before t after, tasks = before ++ t :: after →
      ∀ dep ∈ t.dependsOn, dep ∈ listed ∨ ∃ u ∈ before, u.id = dep := by
  induction tasks generalizing listed with
  | nil => simp [listedInOrder]
  | cons u tasks ih =>
    simp only [listedInOrder, Bool.and_eq_true, all_eq_true, ih, contains_iff_mem]
    constructor
    · rintro ⟨hfirst, hrest⟩ before t after hsplit dep hdep
      cases before with
      | nil =>
        cases hsplit
        exact .inl (hfirst dep hdep)
      | cons v before =>
        cases hsplit
        rcases hrest before t after rfl dep hdep with hlisted | ⟨w, hw, hid⟩
        · rcases mem_cons.mp hlisted with rfl | hlisted
          · exact .inr ⟨u, mem_cons_self, rfl⟩
          · exact .inl hlisted
        · exact .inr ⟨w, mem_cons_of_mem _ hw, hid⟩
    · refine fun h => ⟨fun dep hdep => ?_, fun before t after hsplit dep hdep => ?_⟩
      · simpa using h [] u tasks rfl dep hdep
      · rcases h (u :: before) t after (by rw [hsplit, cons_append]) dep hdep with
          hlisted | ⟨w, hw, hid⟩
        · exact .inl (mem_cons_of_mem _ hlisted)
        · rcases mem_cons.mp hw with rfl | hw
          · exact .inl (hid ▸ mem_cons_self)
          · exact .inr ⟨w, hw, hid⟩

/-- The order of a usable DAG takes its tasks from a complete run of Kahn's algorithm. -/
private lemma order_taken (h : Usable spec) :
    ∃ done, Taken spec done [] ∧ done.Perm (spec.tasks.map TaskSpec.id) ∧
      orderLoop spec spec.tasks.length (indegrees (knownDeps spec) spec.tasks) []
        (roots (knownDeps spec) spec.tasks) = done := by
  have hdeps : ∀ t ∈ spec.tasks, knownDeps spec t = t.deps := by
    intro t ht
    refine filter_eq_self.mpr fun dep hdep => ?_
    obtain ⟨-, u, hu⟩ := h.known t ht dep (mem_dedup.mp hdep)
    exact contains_iff.mpr ⟨u, (byId_eq_some_of_nodup h.nodup).mpr hu⟩
  have hdependents : dependents (knownDeps spec) spec.tasks =
      dependents TaskSpec.deps spec.tasks := by
    funext dep
    exact congrArg (List.map TaskSpec.id) (filter_congr fun t ht => by rw [hdeps t ht])
  have hindegrees : indegrees (knownDeps spec) spec.tasks = indegrees TaskSpec.deps spec.tasks :=
    congrArg ofList (map_congr_left fun t ht => by rw [hdeps t ht])
  have hroots : roots (knownDeps spec) spec.tasks = roots TaskSpec.deps spec.tasks :=
    congrArg (List.map TaskSpec.id) (filter_congr fun t ht => by rw [hdeps t ht])
  have htaken := loop_taken h.nodup List.append (fun _ _ => List.Perm.refl _)
    (List.Perm.refl _)
  obtain ⟨⟨waiting, hinv⟩, hall⟩ := htaken
  have hknown : ∀ t ∈ spec.tasks, ∀ dep ∈ t.dependsOn, ∃ u ∈ spec.tasks, u.id = dep :=
    fun t ht dep hdep => (h.known t ht dep hdep).2
  obtain ⟨hready, hperm⟩ := hinv.perm_done h.nodup (by simpa using hall hknown h.acyclic)
  rw [hready] at hinv
  refine ⟨_, ⟨⟨waiting, hinv⟩, hall⟩, hperm, ?_⟩
  rw [hindegrees, hroots, orderLoop_eq, hdependents]
  simp only [hready, append_nil]

/-- The upstream-first order of a usable DAG. -/
private lemma upstreamFirst_spec (h : Usable spec) :
    (upstreamFirst spec = none ↔ InOrder spec.tasks) ∧
      ∀ order, upstreamFirst spec = some order → order.Perm spec.tasks ∧ InOrder order := by
  have hlisted : listedInOrder spec.tasks [] = true ↔ InOrder spec.tasks := by
    rw [listedInOrder_iff]
    simp [InOrder]
  obtain ⟨done, ⟨⟨waiting, hinv⟩, -⟩, hperm, hdone⟩ := order_taken h
  rw [upstreamFirst, hdone]
  refine ⟨by rw [← hlisted]; simp, fun order horder => ?_⟩
  have heq : done.filterMap spec.byId.get? = order := by
    split_ifs at horder
    exact Option.some.inj horder
  -- the order lists the tasks of the ids taken
  have hids : order.map TaskSpec.id = done := by
    rw [← heq, map_filterMap]
    refine (filterMap_congr fun id hid => ?_).trans filterMap_some
    obtain ⟨t, ht, rfl⟩ := mem_map.mp (hperm.mem_iff.mp hid)
    simp [(byId_eq_some_of_nodup h.nodup).mpr ⟨ht, rfl⟩]
  constructor
  · have hnodup : order.Nodup := .of_map TaskSpec.id (hids ▸ hperm.nodup_iff.mpr h.nodup)
    rw [perm_ext_iff_of_nodup hnodup (.of_map TaskSpec.id h.nodup)]
    intro t
    rw [← heq, mem_filterMap]
    simp only [byId_eq_some_of_nodup h.nodup, hperm.mem_iff]
    constructor
    · rintro ⟨-, -, ht, -⟩
      exact ht
    · exact fun ht => ⟨t.id, mem_map_of_mem ht, ht, rfl⟩
  · intro before t after hsplit dep hdep
    have ht : t ∈ spec.tasks := by
      have hmem : t ∈ order := by simp [hsplit]
      rw [← heq, mem_filterMap] at hmem
      obtain ⟨id, -, hget⟩ := hmem
      exact ((byId_eq_some_of_nodup h.nodup).mp hget).1
    have hbefore := hinv.ordered (before.map TaskSpec.id) t.id (after.map TaskSpec.id)
      (by rw [← hids, hsplit]; simp) dep
      (by rw [upstreams_eq h.nodup ht]; exact mem_dedup.mpr hdep)
    simpa using hbefore

/-- Validation is exact: a DAG is accepted when it is usable, and refused with an error otherwise.
The upstream-first order of an accepted DAG is absent exactly when its tasks are declared after
their dependencies, and is otherwise a permutation of them that lists them so. -/
theorem validateGraph_exact (spec : DagSpec) :
    (validateGraph spec = .ok () ↔ Usable spec) ∧
      ((∃ e, validateGraph spec = .error e) ↔ ¬ Usable spec) ∧
      (validateGraph spec = .ok () →
        (upstreamFirst spec = none ↔ InOrder spec.tasks) ∧
          ∀ order, upstreamFirst spec = some order → order.Perm spec.tasks ∧ InOrder order) := by
  refine ⟨validateGraph_ok, ?_, fun h => upstreamFirst_spec (validateGraph_ok.mp h)⟩
  rw [← validateGraph_ok]
  cases validateGraph spec <;> simp

/-- A DAG declared downstream first. -/
theorem validateGraph_exact_reversed :
    let spec : DagSpec :=
      { name := "d", tasks := [{ id := "b", dependsOn := ["a", "a"] }, { id := "a" }] }
    Usable spec ∧ ¬ InOrder spec.tasks := by
  intro spec
  have haccepted : validateGraph spec = .ok () := by decide +kernel
  have hexact := validateGraph_exact spec
  refine ⟨hexact.1.mp haccepted, fun hlisted => ?_⟩
  have hnone := (hexact.2.2 haccepted).1.mpr hlisted
  revert hnone
  decide +kernel

end Cronstable.Dag
