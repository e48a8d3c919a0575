import Cronstable.Lib.Dict
import Cronstable.Lib.First
import Mathlib.Data.String.Basic

/-!
# The fire heap

`_next_fire` has the next fire of every scheduled job, and `_fire_heap` mirrors it. An entry of the
heap is not removed when the job gets another fire, is dropped or comes back: an entry that the
index does not bear out is passed over when it is on top. All the same the heap answers for the
index: the soonest fire is the least of the index, and a pass over what is due launches from the
jobs whose fire has come, each once (`fire_heap_exact`).

The index is generic in the jobs. What it asks of them is a `Clockwork`: nothing here depends on
when a schedule fires.
-/

namespace Cronstable.Schedule

open List Dict

/-- What the index asks of a job. -/
structure Clockwork (J : Type) where
  enabled : J → Bool
  /-- `isinstance(job.schedule, CronTab)`. -/
  crontab : J → Bool
  /-- `_same_schedule`. -/
  sameSchedule : J → J → Bool
  /-- `_compute_next_fire`. -/
  computeNextFire : J → ℤ → Option ℤ
  /-- `_advance`: what fires of a slot that has come, and the next fire. -/
  advance : J → ℤ → ℤ → List ℤ × Option ℤ

/-- An instant and a name, ordered by the instant. -/
abbrev Entry := ℤ ×ₗ String

/-- The scheduler, between two passes or within one. -/
structure Index (J : Type) where
  /-- `cron_jobs`. -/
  jobs : Dict String J
  /-- `_next_fire`. -/
  nextFire : Dict String ℤ := .empty
  /-- `_fire_heap`. `heapq` has the least entry in front, here all are in order. -/
  heap : List Entry := []

variable {J : Type} {c : Clockwork J} {now fire : ℤ} {name : String}

/-- `heapq.heappush`. -/
def heappush (heap : List Entry) (e : Entry) : List Entry := heap.orderedInsert (· ≤ ·) e

/-- `heapq.heapify`. -/
def heapify (heap : List Entry) : List Entry := heap.insertionSort (· ≤ ·)

namespace Index

/-- `_set_next_fire`. -/
def setNextFire (s : Index J) (name : String) (fire : ℤ) : Index J :=
  { s with nextFire := s.nextFire.set name fire, heap := heappush s.heap (toLex (fire, name)) }

/-- One round of the loop of `_ensure_seeded`. -/
def seedOne (c : Clockwork J) (now : ℤ) (p : Dict String ℤ × List Entry) (item : String × J) :
    Dict String ℤ × List Entry :=
  if p.1.contains item.1 then p
  else if c.enabled item.2 && c.crontab item.2 then
    match c.computeNextFire item.2 now with
    | some fire => (p.1.set item.1 fire, p.2 ++ [toLex (fire, item.1)])
    | none => p
  else p

/-- `_ensure_seeded`. -/
def ensureSeeded (c : Clockwork J) (now : ℤ) (s : Index J) : Index J :=
  let (nextFire, fresh) := s.jobs.items.foldl (seedOne c now) (s.nextFire, [])
  if fresh.isEmpty then { s with nextFire }
  else if s.heap.length < fresh.length then
    { s with nextFire, heap := heapify (s.heap ++ fresh) }
  else { s with nextFire, heap := fresh.foldl heappush s.heap }

/-- The job is scheduled as it was before the reload. -/
def survives (c : Clockwork J) (jobs old : Dict String J) (name : String) : Bool :=
  match jobs.get? name, old.get? name with
  | some job, some before => c.enabled job && c.crontab job && c.sameSchedule before job
  | _, _ => false

/-- `_refresh_schedule`. -/
def refreshSchedule (c : Clockwork J) (now : ℤ) (old : Dict String J) (s : Index J) : Index J :=
  let kept := s.nextFire.filter fun name _ => survives c s.jobs old name
  let s := ({ s with nextFire := kept } : Index J).ensureSeeded c now
  if 2 * s.nextFire.items.length < s.heap.length then
    { s with heap := heapify (s.nextFire.items.map fun p => toLex (p.2, p.1)) }
  else s

/-- The loop of `_peek_soonest_fire`. -/
def peekLoop (nextFire : Dict String ℤ) : List Entry → List Entry × Option ℤ
  | [] => ([], none)
  | e :: heap =>
    if nextFire.get? (ofLex e).2 = some (ofLex e).1 then (e :: heap, some (ofLex e).1)
    else peekLoop nextFire heap

/-- `_peek_soonest_fire`. -/
def peekSoonestFire (s : Index J) : Index J × Option ℤ :=
  let (heap, fire) := peekLoop s.nextFire s.heap
  ({ s with heap }, fire)

/-- The loop of `_due_names`. `seen` has the names of `due`. -/
def dueLoop (nextFire : Dict String ℤ) (now : ℤ) :
    List Entry → List String → List Entry × List String
  | [], due => ([], due)
  | e :: heap, due =>
    if now < (ofLex e).1 then (e :: heap, due)
    else if (ofLex e).2 ∈ due then dueLoop nextFire now heap due
    else if nextFire.get? (ofLex e).2 = some (ofLex e).1 then
      dueLoop nextFire now heap (due ++ [(ofLex e).2])
    else dueLoop nextFire now heap due

/-- `_due_names`. -/
def dueNames (now : ℤ) (s : Index J) : Index J × List String :=
  let (heap, due) := dueLoop s.nextFire now s.heap []
  ({ s with heap }, due)

/-- The due names of `_spawn_due_jobs`, in config order. -/
def ordered (s : Index J) (due : List String) : List String :=
  (due.filter s.jobs.contains).insertionSort fun a b => s.jobs.keys.idxOf a ≤ s.jobs.keys.idxOf b

/-- One round of the loop of `_spawn_due_jobs`, with the plan so far. -/
def advanceOne (c : Clockwork J) (now : ℤ) (p : Index J × List (String × List ℤ)) (name : String) :
    Index J × List (String × List ℤ) :=
  match p.1.jobs.get? name, p.1.nextFire.get? name with
  | some job, some slot =>
    let (fires, next) := c.advance job slot now
    match next with
    | some fire => (p.1.setNextFire name fire, p.2 ++ [(name, fires)])
    | none => ({ p.1 with nextFire := p.1.nextFire.erase name }, p.2 ++ [(name, fires)])
  | _, _ => p

/-- `_spawn_due_jobs`, up to `_launch_plan`. -/
def spawnDueJobs (c : Clockwork J) (now : ℤ) (s : Index J) : Index J × List (String × List ℤ) :=
  let (s', due) := s.dueNames now
  (s'.ordered due).foldl (advanceOne c now) (s', [])

end Index

/-- What the scheduler does with its index. -/
inductive Op (J : Type)
  | seed (now : ℤ)
  /-- `_apply_reload` installs another job set, in the place of `old`. -/
  | reload (now : ℤ) (old jobs : Dict String J)
  | spawn (now : ℤ)
  | peek

/-- One operation. -/
def Index.apply (c : Clockwork J) (s : Index J) : Op J → Index J
  | .seed now => s.ensureSeeded c now
  | .reload now old jobs => ({ s with jobs } : Index J).refreshSchedule c now old
  | .spawn now => (s.spawnDueJobs c now).1
  | .peek => s.peekSoonestFire.1

/-! ## The heap answers for the index -/

/-- The heap is in order, and has an entry for every next fire but those of the names that are to be
advanced in this pass. -/
structure Index.Mirrors (s : Index J) (due : List String) : Prop where
  sorted : s.heap.Pairwise (· ≤ ·)
  known : ∀ name fire, s.nextFire.get? name = some fire → s.jobs.contains name = true
  held : ∀ name fire, s.nextFire.get? name = some fire → name ∈ due ∨ toLex (fire, name) ∈ s.heap

variable {heap : List Entry} {e : Entry}

lemma mem_heappush {e' : Entry} : e ∈ heappush heap e' ↔ e = e' ∨ e ∈ heap := by
  rw [heappush, mem_orderedInsert]

lemma mem_foldl_heappush (fresh heap : List Entry) :
    e ∈ fresh.foldl heappush heap ↔ e ∈ heap ∨ e ∈ fresh := by
  induction fresh generalizing heap with
  | nil => simp
  | cons e' fresh ih =>
    rw [foldl_cons, ih, mem_heappush, mem_cons]
    tauto

lemma sorted_foldl_heappush (fresh : List Entry) (h : heap.Pairwise (· ≤ ·)) :
    (fresh.foldl heappush heap).Pairwise (· ≤ ·) := by
  induction fresh generalizing heap with
  | nil => exact h
  | cons e fresh ih => exact ih (h.orderedInsert e heap)

lemma sorted_heapify (heap : List Entry) : (heapify heap).Pairwise (· ≤ ·) :=
  pairwise_insertionSort (· ≤ ·) heap

lemma mem_heapify : e ∈ heapify heap ↔ e ∈ heap :=
  mem_insertionSort (· ≤ ·)

namespace Index

variable {s : Index J} {due : List String} {p : Index J × List (String × List ℤ)}

/-- What the seeding loop adds to the index is fresh, and of the jobs. -/
private lemma foldl_seedOne (c : Clockwork J) (now : ℤ) (items : List (String × J))
    (nextFire : Dict String ℤ) :
    ∀ name fire, (items.foldl (seedOne c now) (nextFire, [])).1.get? name = some fire →
      nextFire.get? name = some fire ∨
        toLex (fire, name) ∈ (items.foldl (seedOne c now) (nextFire, [])).2 ∧
          name ∈ items.map Prod.fst := by
  refine List.foldlRecOn (motive := fun p : Dict String ℤ × List Entry =>
    ∀ name fire, p.1.get? name = some fire → nextFire.get? name = some fire ∨
      toLex (fire, name) ∈ p.2 ∧ name ∈ items.map Prod.fst) _ _ (fun _ _ => .inl) ?_
  intro p hp item hitem
  unfold seedOne
  split_ifs
  · exact hp
  · split
    · intro name fire hget
      rcases get?_set_cases hget with ⟨rfl, rfl⟩ | ⟨-, hget⟩
      · exact .inr ⟨by simp, mem_map_of_mem hitem⟩
      · exact (hp name fire hget).imp_right fun h => ⟨mem_append_left _ h.1, h.2⟩
    · exact hp
  · exact hp

/-- Seeding keeps the heap in step. -/
theorem Mirrors.ensureSeeded (h : s.Mirrors []) (c : Clockwork J) (now : ℤ) :
    (s.ensureSeeded c now).Mirrors [] := by
  have hseed := foldl_seedOne c now s.jobs.items s.nextFire
  unfold Index.ensureSeeded
  generalize s.jobs.items.foldl (seedOne c now) (s.nextFire, []) = p at hseed
  have hknown : ∀ name fire, p.1.get? name = some fire → s.jobs.contains name = true := by
    intro name fire hget
    rcases hseed name fire hget with hold | ⟨-, hmem⟩
    · exact h.known name fire hold
    · exact contains_iff.mpr (mem_keys_iff.mp hmem)
  -- what is next is in the old heap or fresh
  have hheld : ∀ name fire, p.1.get? name = some fire →
      toLex (fire, name) ∈ s.heap ∨ toLex (fire, name) ∈ p.2 := fun name fire hget =>
    (hseed name fire hget).imp (fun hold => (h.held name fire hold).resolve_left (by simp)) And.left
  dsimp only
  split_ifs with hempty
  · refine ⟨h.sorted, hknown, fun name fire hget => .inr ?_⟩
    simpa [isEmpty_iff.mp hempty] using hheld name fire hget
  · refine ⟨sorted_heapify _, hknown, fun name fire hget => .inr (mem_heapify.mpr ?_)⟩
    exact mem_append.mpr (hheld name fire hget)
  · refine ⟨sorted_foldl_heappush _ h.sorted, hknown, fun name fire hget => .inr ?_⟩
    exact (mem_foldl_heappush _ _).mpr (hheld name fire hget)

/-- A reload forgets the jobs that are gone or changed, and may rebuild the heap. -/
theorem Mirrors.reload (h : s.Mirrors []) (c : Clockwork J) (now : ℤ) (old jobs : Dict String J) :
    (({ s with jobs } : Index J).refreshSchedule c now old).Mirrors [] := by
  have hkept : ({ s with
      jobs, nextFire := s.nextFire.filter fun name _ => survives c jobs old name } :
        Index J).Mirrors [] := by
    refine ⟨h.sorted, fun name fire hget => ?_, fun name fire hget => ?_⟩
    · obtain ⟨-, hsurvives⟩ := get?_filter_eq_some.mp hget
      unfold survives at hsurvives
      split at hsurvives
      next job _ hjob _ => exact contains_iff.mpr ⟨job, hjob⟩
      next => cases hsurvives
    · exact h.held name fire (get?_filter_eq_some.mp hget).1
  have hseeded := hkept.ensureSeeded c now
  unfold refreshSchedule
  dsimp only
  split_ifs
  · refine ⟨sorted_heapify _, hseeded.known, fun name fire hget => .inr (mem_heapify.mpr ?_)⟩
    exact mem_map.mpr ⟨(name, fire), mem_items_iff.mpr hget, rfl⟩
  · exact hseeded

/-- The entries that are passed over are stale, so the first that is not has the soonest fire. -/
private lemma first_peekLoop (nextFire : Dict String ℤ) (hsorted : heap.Pairwise (· ≤ ·)) :
    First {t | ∃ name, nextFire.get? name = some t ∧ toLex (t, name) ∈ heap}
        (peekLoop nextFire heap).2 ∧
      (peekLoop nextFire heap).1.Pairwise (· ≤ ·) ∧
      ∀ name t, nextFire.get? name = some t → toLex (t, name) ∈ heap →
        toLex (t, name) ∈ (peekLoop nextFire heap).1 := by
  induction heap with
  | nil => exact ⟨First.none_iff.mpr (by simp), hsorted, by simp [peekLoop]⟩
  | cons e heap ih =>
    obtain ⟨hhead, htail⟩ := pairwise_cons.mp hsorted
    rw [peekLoop]
    split_ifs with hlive
    · refine ⟨⟨⟨_, hlive, mem_cons_self⟩, ?_⟩, hsorted, fun _ _ _ => id⟩
      rintro t ⟨name, -, hmem⟩
      rcases mem_cons.mp hmem with rfl | hmem
      · exact le_rfl
      · exact (Prod.Lex.le_iff.mp (hhead _ hmem)).elim le_of_lt fun h => h.1.le
    · -- a stale entry is no entry of the index
      have hstale : ∀ name t, nextFire.get? name = some t → toLex (t, name) ∈ e :: heap →
          toLex (t, name) ∈ heap := by
        intro name t hget hmem
        rcases mem_cons.mp hmem with rfl | hmem
        · exact absurd hget hlive
        · exact hmem
      obtain ⟨hfirst, hrest, hheld⟩ := ih htail
      refine ⟨hfirst.congr fun t => ?_, hrest, fun name t hget hmem =>
        hheld name t hget (hstale name t hget hmem)⟩
      exact exists_congr fun name => and_congr_right fun hget =>
        ⟨mem_cons_of_mem _, hstale name t hget⟩

/-- The soonest fire is the least of the index, and looking at it changes nothing. -/
theorem Mirrors.peekSoonestFire (h : s.Mirrors []) :
    First {t | ∃ name, s.nextFire.get? name = some t} s.peekSoonestFire.2 ∧
      s.peekSoonestFire.1.Mirrors [] := by
  have hmem : ∀ name fire, s.nextFire.get? name = some fire → toLex (fire, name) ∈ s.heap :=
    fun name fire hget => (h.held name fire hget).resolve_left (by simp)
  obtain ⟨hfirst, hsorted, hheld⟩ := first_peekLoop s.nextFire h.sorted
  refine ⟨hfirst.congr fun t => ?_, hsorted, h.known, fun name fire hget => .inr ?_⟩
  · exact exists_congr fun name => and_iff_left_of_imp (hmem name t)
  · exact hheld name fire hget (hmem name fire hget)

/-! ## A pass -/

/-- The due names are those with a live entry that has come, each once; other entries stay. -/
private lemma dueLoop_spec (nextFire : Dict String ℤ) (now : ℤ) {due : List String}
    (hsorted : heap.Pairwise (· ≤ ·)) (hdue : due.Nodup) :
    (dueLoop nextFire now heap due).1.Pairwise (· ≤ ·) ∧
      (∀ e ∈ heap, (ofLex e).1 ≤ now ∨ e ∈ (dueLoop nextFire now heap due).1) ∧
      (dueLoop nextFire now heap due).2.Nodup ∧
      ∀ name, name ∈ (dueLoop nextFire now heap due).2 ↔ name ∈ due ∨
        ∃ t ≤ now, nextFire.get? name = some t ∧ toLex (t, name) ∈ heap := by
  induction heap generalizing due with
  | nil => exact ⟨hsorted, by simp, hdue, by simp [dueLoop]⟩
  | cons e heap ih =>
    obtain ⟨hhead, htail⟩ := pairwise_cons.mp hsorted
    rw [dueLoop]
    split_ifs with hlater hseen hlive
    · -- the entries behind it are not due either
      refine ⟨hsorted, fun _ => .inr, hdue, fun name => (or_iff_left ?_).symm⟩
      rintro ⟨t, ht, -, hmem⟩
      rcases mem_cons.mp hmem with rfl | hmem
      · exact absurd hlater (not_lt.mpr ht)
      · have hle := (Prod.Lex.le_iff.mp (hhead _ hmem)).elim le_of_lt fun h => h.1.le
        exact absurd (hlater.trans_le hle) (not_lt.mpr ht)
    all_goals
      -- the entry has come: its name is due when the index bears it out
      have hcons : ∀ name,
          (∃ t ≤ now, nextFire.get? name = some t ∧ toLex (t, name) ∈ e :: heap) ↔
            name = (ofLex e).2 ∧ nextFire.get? (ofLex e).2 = some (ofLex e).1 ∨
              ∃ t ≤ now, nextFire.get? name = some t ∧ toLex (t, name) ∈ heap := by
        intro name
        constructor
        · rintro ⟨t, ht, hget, hmem⟩
          rcases mem_cons.mp hmem with rfl | hmem
          · exact .inl ⟨rfl, hget⟩
          · exact .inr ⟨t, ht, hget, hmem⟩
        · rintro (⟨rfl, hget⟩ | ⟨t, ht, hget, hmem⟩)
          · exact ⟨_, not_lt.mp hlater, hget, mem_cons_self⟩
          · exact ⟨t, ht, hget, mem_cons_of_mem _ hmem⟩
      simp only [hcons, forall_mem_cons, not_lt.mp hlater, true_or, true_and]
    · obtain ⟨hrest, hstay, hnodup, hmem⟩ := ih htail hdue
      refine ⟨hrest, hstay, hnodup, fun name => (hmem name).trans ?_⟩
      refine ⟨Or.imp_right .inr, ?_⟩
      rintro (hname | ⟨rfl, -⟩ | hname)
      · exact .inl hname
      · exact .inl hseen
      · exact .inr hname
    · have hdue' : (due ++ [(ofLex e).2]).Nodup :=
        nodup_append_comm.mp (nodup_cons.mpr ⟨hseen, hdue⟩)
      obtain ⟨hrest, hstay, hnodup, hmem⟩ := ih htail hdue'
      refine ⟨hrest, hstay, hnodup, fun name => (hmem name).trans ?_⟩
      rw [mem_append, mem_singleton, or_assoc]
      simp only [hlive, and_true]
    · obtain ⟨hrest, hstay, hnodup, hmem⟩ := ih htail hdue
      refine ⟨hrest, hstay, hnodup, fun name => (hmem name).trans ?_⟩
      simp only [hlive, and_false, false_or]

/-- The names of a pass, in config order: those whose next fire has come. -/
theorem Mirrors.dueNames (h : s.Mirrors []) (now : ℤ) :
    let names := (s.dueNames now).1.ordered (s.dueNames now).2
    names.Nodup ∧ (s.dueNames now).1.Mirrors names ∧
      ∀ name, name ∈ names ↔ ∃ t ≤ now, s.nextFire.get? name = some t := by
  obtain ⟨hsorted, hstay, hnodup, hmem⟩ :=
    dueLoop_spec s.nextFire now h.sorted nodup_nil
  have hperm := perm_insertionSort
    (fun a b => s.jobs.keys.idxOf a ≤ s.jobs.keys.idxOf b)
    ((dueLoop s.nextFire now s.heap []).2.filter s.jobs.contains)
  have hnames : ∀ name, name ∈ (s.dueNames now).1.ordered (s.dueNames now).2 ↔
      ∃ t ≤ now, s.nextFire.get? name = some t := by
    intro name
    refine hperm.mem_iff.trans ?_
    rw [mem_filter, hmem]
    constructor
    · rintro ⟨hdue, -⟩
      obtain ⟨t, ht, hget, -⟩ := hdue.resolve_left (by simp)
      exact ⟨t, ht, hget⟩
    · rintro ⟨t, ht, hget⟩
      exact ⟨.inr ⟨t, ht, hget, (h.held name t hget).resolve_left (by simp)⟩,
        h.known name t hget⟩
  refine ⟨hperm.nodup_iff.mpr (hnodup.filter _), ⟨hsorted, h.known, fun name fire hget => ?_⟩,
    hnames⟩
  rcases hstay _ ((h.held name fire hget).resolve_left (by simp)) with hle | hheld
  · exact .inl ((hnames name).mpr ⟨fire, hle, hget⟩)
  · exact .inr hheld

/-- Advancing a name gives it an entry again, or takes it out of the index. -/
theorem Mirrors.advanceOne (h : p.1.Mirrors (name :: due))
    (c : Clockwork J) (now : ℤ) : (advanceOne c now p name).1.Mirrors due := by
  have hother : ∀ name' fire, name' ≠ name → p.1.nextFire.get? name' = some fire →
      name' ∈ due ∨ toLex (fire, name') ∈ p.1.heap := fun name' fire hne hget =>
    (h.held name' fire hget).imp_left fun hmem => (mem_cons.mp hmem).resolve_left hne
  unfold Index.advanceOne
  split
  next job slot hjob hslot =>
    dsimp only
    split
    next fire hnext =>
      refine ⟨h.sorted.orderedInsert _ _, fun name' t hget => ?_, fun name' t hget => ?_⟩ <;>
        simp only [setNextFire, get?_set] at hget <;> split_ifs at hget with hname
      · rw [hname]
        exact contains_iff.mpr ⟨job, hjob⟩
      · exact h.known name' t hget
      · cases hget
        exact .inr (mem_heappush.mpr (.inl (by rw [hname])))
      · exact (hother name' t hname hget).imp_right fun hmem => mem_heappush.mpr (.inr hmem)
    next hnext =>
      refine ⟨h.sorted, fun name' t hget => ?_, fun name' t hget => ?_⟩ <;>
        simp only [get?_erase] at hget <;> split_ifs at hget with hname
      · exact h.known name' t hget
      · exact hother name' t hname hget
  next hnone =>
    refine ⟨h.sorted, h.known, fun name' t hget => hother name' t ?_ hget⟩
    -- a name of the index is one of the jobs
    rintro rfl
    obtain ⟨job, hjob⟩ := contains_iff.mp (h.known name' t hget)
    exact hnone job t hjob hget

lemma Mirrors.foldl_advanceOne (pre post : List String)
    (h : p.1.Mirrors (pre ++ post)) (c : Clockwork J) (now : ℤ) :
    (pre.foldl (Index.advanceOne c now) p).1.Mirrors post := by
  induction pre generalizing p with
  | nil => exact h
  | cons name pre ih => exact ih (h.advanceOne c now)

/-- What a name of the plan fires. -/
private def planned (c : Clockwork J) (now : ℤ) (s : Index J) (name : String) : List ℤ :=
  ((s.jobs.get? name).bind fun job =>
    (s.nextFire.get? name).map fun slot => (c.advance job slot now).1).getD []

/-- The plan of a pass has every name with what it fires. -/
private lemma plan_foldl {names : List String} (hnodup : names.Nodup)
    {p : Index J × List (String × List ℤ)}
    (hnames : ∀ name ∈ names, p.1.jobs.contains name = true ∧ p.1.nextFire.contains name = true) :
    (names.foldl (advanceOne c now) p).2 =
      p.2 ++ names.map fun name => (name, planned c now p.1 name) := by
  induction names generalizing p with
  | nil => simp
  | cons name names ih =>
    obtain ⟨hnot, hrest⟩ := nodup_cons.mp hnodup
    obtain ⟨⟨job, hjob⟩, slot, hslot⟩ :=
      (hnames name mem_cons_self).imp Dict.contains_iff.mp Dict.contains_iff.mp
    -- advancing a name leaves the others alone
    have hstep : (advanceOne c now p name).1.jobs = p.1.jobs ∧
        (advanceOne c now p name).2 = p.2 ++ [(name, planned c now p.1 name)] ∧
        ∀ name' ≠ name,
          (advanceOne c now p name).1.nextFire.get? name' = p.1.nextFire.get? name' := by
      unfold advanceOne planned
      rw [hjob, hslot]
      dsimp only
      split
      · exact ⟨rfl, rfl, fun name' hne => Dict.get?_set_of_ne _ _ hne⟩
      · exact ⟨rfl, rfl, fun name' hne => by simp [get?_erase, hne]⟩
    obtain ⟨hjobs, hplan, hother⟩ := hstep
    have hne : ∀ name' ∈ names, name' ≠ name := fun name' hmem heq => hnot (heq ▸ hmem)
    rw [foldl_cons, ih hrest, hplan, append_assoc, singleton_append]
    · congr 2
      refine map_congr_left fun name' hmem => ?_
      rw [planned, planned, hjobs, hother name' (hne name' hmem)]
    · intro name' hmem
      rw [hjobs, Dict.contains, Dict.contains, hother name' (hne name' hmem)]
      exact hnames name' (mem_cons_of_mem _ hmem)

/-- Every operation keeps the heap in step with the index. -/
theorem Mirrors.apply (h : s.Mirrors []) (c : Clockwork J) (op : Op J) :
    (s.apply c op).Mirrors [] := by
  cases op with
  | seed now => exact h.ensureSeeded c now
  | reload now old jobs => exact h.reload c now old jobs
  | spawn now =>
    obtain ⟨-, hdue, -⟩ := h.dueNames now
    exact Mirrors.foldl_advanceOne _ [] ((append_nil _).symm ▸ hdue) c now
  | peek => exact h.peekSoonestFire.2

end Index

open Index

/-- The heap answers for the index. After any operations of a scheduler that starts with an empty
index, every next fire has its entry, and in a pass every one but those that are still to be
advanced; the soonest fire is the least of the index; and a pass launches from the names whose next
fire has come, each once, with what their schedule says. -/
theorem fire_heap_exact (c : Clockwork J) (jobs : Dict String J) (ops : List (Op J)) :
    let s := ops.foldl (Index.apply c) { jobs }
    (∀ name fire, s.nextFire.get? name = some fire → toLex (fire, name) ∈ s.heap) ∧
    First {t | ∃ name, s.nextFire.get? name = some t} s.peekSoonestFire.2 ∧
    ∀ now,
      (∀ pre post, (s.dueNames now).1.ordered (s.dueNames now).2 = pre ++ post →
        let t := (pre.foldl (advanceOne c now) ((s.dueNames now).1, [])).1
        ∀ name fire, t.nextFire.get? name = some fire →
          name ∈ post ∨ toLex (fire, name) ∈ t.heap) ∧
      ((s.spawnDueJobs c now).2.map Prod.fst).Nodup ∧
      ∀ name fires, (name, fires) ∈ (s.spawnDueJobs c now).2 ↔
        ∃ job slot, s.jobs.get? name = some job ∧ s.nextFire.get? name = some slot ∧ slot ≤ now ∧
          fires = (c.advance job slot now).1 := by
  intro s
  have hs : s.Mirrors [] :=
    List.foldlRecOn (motive := fun s : Index J => s.Mirrors []) _ _ ⟨.nil, by simp, by simp⟩
      fun _ h op _ => h.apply c op
  refine ⟨fun name fire hget => (hs.held name fire hget).resolve_left (by simp),
    hs.peekSoonestFire.1, fun now => ?_⟩
  obtain ⟨hnodup, hdue, hnames⟩ := hs.dueNames now
  have hplan : (s.spawnDueJobs c now).2 = [] ++ _ := plan_foldl hnodup fun name hmem => by
    obtain ⟨t, -, hget⟩ := (hnames name).mp hmem
    exact ⟨hs.known name t hget, contains_iff.mpr ⟨t, hget⟩⟩
  rw [hplan, nil_append]
  refine ⟨fun pre post hsplit => ?_, by simpa [Function.comp_def] using hnodup, ?_⟩
  · exact (Mirrors.foldl_advanceOne pre post (p := (_, [])) (hsplit ▸ hdue) c now).held
  · intro name fires
    rw [mem_map]
    constructor
    · rintro ⟨_, hmem, heq⟩
      obtain ⟨rfl, rfl⟩ := Prod.mk.inj heq
      obtain ⟨t, ht, hget⟩ := (hnames _).mp hmem
      obtain ⟨job, hjob⟩ := contains_iff.mp (hs.known _ t hget)
      refine ⟨job, t, hjob, hget, ht, ?_⟩
      simp [planned, hjob, hget]
    · rintro ⟨job, slot, hjob, hget, hle, rfl⟩
      refine ⟨name, (hnames name).mpr ⟨slot, hle, hget⟩, ?_⟩
      simp [planned, hjob, hget]

end Cronstable.Schedule
