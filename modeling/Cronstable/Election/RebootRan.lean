import Mathlib.Data.List.Basic

/-!
# The `@reboot` one-shots that have run

`LeaseBackend` remembers which deferred `@reboot` jobs have run: those the store has told it of
(`_reboot_ran`), and those this node has marked itself (`_reboot_ran_local`). Both belong to a job
set, and are dropped once another one is live. A set of names is a list here, of which only the
members matter.
-/

namespace Cronstable.Election

/-- What a backend remembers, and the job-set ids it was recorded under. -/
structure RanSets where
  /-- `_reboot_ran`, as read from the store. -/
  ran : List String := []
  ranId : Option String := none
  /-- `_reboot_ran_local`, the marks this node has made. -/
  marks : List String := []
  marksId : Option String := none
  deriving DecidableEq, Repr

variable {current : String}

namespace RanSets

/-- `_reconcile_local_reboot_ran`. -/
def reconcileLocal (current : String) (r : RanSets) : RanSets :=
  if r.marksId ≠ some current then { r with marks := [], marksId := some current } else r

/-- `_reconcile_observed_reboot_ran`. -/
def reconcileObserved (current : String) (r : RanSets) : RanSets :=
  if r.ranId ≠ some current then { r with ran := [], ranId := none } else r

/-- `_observe_reboot_ran`: a set that was stored under another id is ignored. -/
def observe (current : String) (storedId : Option String) (stored : List String) (r : RanSets) :
    RanSets :=
  { r with ran := if storedId = some current then stored else [], ranId := some current }

/-- What `mark_reboot_ran` records before it persists. -/
def mark (current job : String) (r : RanSets) : RanSets :=
  let r := r.reconcileLocal current
  { r with marks := r.marks.insert job }

/-- `reboot_ran`, and what it leaves behind. -/
def rebootRan (current job : String) (r : RanSets) : Bool × RanSets :=
  let r := (r.reconcileLocal current).reconcileObserved current
  (decide (job ∈ r.ran ∨ job ∈ r.marks), r)

/-- Each mark satisfies `P` with the id it was made under. -/
def MarksIn (P : String → String → Prop) (r : RanSets) : Prop :=
  ∀ job ∈ r.marks, ∃ id, r.marksId = some id ∧ P id job

section MarksIn

variable {P : String → String → Prop} {r : RanSets}

/-- What marks satisfy may be weakened. -/
lemma MarksIn.mono {Q : String → String → Prop} (h : r.MarksIn P)
    (hPQ : ∀ id job, P id job → Q id job) : r.MarksIn Q := by
  intro job hjob
  obtain ⟨id, hid, hP⟩ := h job hjob
  exact ⟨id, hid, hPQ id job hP⟩

/-- Whatever the marks were, those left belong to the live job set. -/
theorem marksId_reconcileLocal (current : String) (r : RanSets) :
    (r.reconcileLocal current).marksId = some current := by
  unfold reconcileLocal
  split
  next => rfl
  next hsame => simpa using hsame

/-- Marks that are left were made under the live id. -/
lemma mem_marks_of_reconcileLocal {job : String} (h : job ∈ (r.reconcileLocal current).marks) :
    job ∈ r.marks ∧ r.marksId = some current := by
  unfold reconcileLocal at h
  split at h
  next => cases h
  next hsame => exact ⟨h, by simpa using hsame⟩

lemma reconcileLocal_of_eq (h : r.marksId = some current) : r.reconcileLocal current = r := by
  unfold reconcileLocal
  rw [if_neg (by simpa using h)]

/-- Reconciling only drops marks. -/
lemma MarksIn.reconcileLocal (h : r.MarksIn P) (current : String) :
    (r.reconcileLocal current).MarksIn P := by
  intro job hjob
  obtain ⟨hmem, hid⟩ := mem_marks_of_reconcileLocal hjob
  obtain ⟨id, hid', hP⟩ := h job hmem
  obtain rfl := Option.mem_unique hid hid'
  exact ⟨current, marksId_reconcileLocal current r, hP⟩

/-- The marks stay when what was observed is dropped. -/
lemma marks_reconcileObserved (current : String) (r : RanSets) :
    (r.reconcileObserved current).marks = r.marks ∧
      (r.reconcileObserved current).marksId = r.marksId := by
  unfold RanSets.reconcileObserved
  split <;> exact ⟨rfl, rfl⟩

lemma MarksIn.reconcileObserved (h : r.MarksIn P) (current : String) :
    (r.reconcileObserved current).MarksIn P := by
  obtain ⟨hmarks, hid⟩ := marks_reconcileObserved current r
  unfold MarksIn
  rw [hmarks, hid]
  exact h

/-- A new mark is made under the live id. -/
lemma MarksIn.mark (h : r.MarksIn P) {job : String} (hP : P current job) :
    (r.mark current job).MarksIn P := by
  intro job' hjob'
  rcases List.mem_insert_iff.mp hjob' with rfl | hold
  · exact ⟨current, marksId_reconcileLocal current r, hP⟩
  · exact h.reconcileLocal current job' hold

end MarksIn

end RanSets

end Cronstable.Election
