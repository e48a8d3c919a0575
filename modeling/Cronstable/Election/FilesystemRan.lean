import Cronstable.Election.RebootRan
import Cronstable.Lib.Log
import Cronstable.Lib.Trace
import Mathlib.Data.List.Sort
import Mathlib.Data.String.Basic

/-!
# The `@reboot`-ran stream of the filesystem backend

`FilesystemBackend` appends a record for each `@reboot` job that was marked, and remembers in
`_reboot_persisted` which jobs of the live job set the stream has. `_persist_reboot_ran` appends
what is missing; `_refresh_reboot_ran` reads the stream back. Calls of both are suspended at each
store operation, and a reload may change the live id meanwhile.

A `_persist_reboot_ran` that begins after a mark and returns should have left a record of the mark.
But an append that straddles a reload is noted in whatever set `_reboot_persisted` is by then: once
the set was re-keyed, the job counts as persisted under an id under which no record has it
(`mark_not_recorded`). When an append is noted while the set still has the id of the record, a call
that returns has done its work (`persist_records_mark`).
-/

namespace Cronstable.Election.FilesystemRan

open List Option Log RanSets

/-- A record of the stream `cluster/reboot-ran`. -/
structure Record where
  jobSetId : String
  job : String
  deriving DecidableEq, Repr

/-- `_REBOOT_RAN_KEEP`. -/
def keep : ℕ := 512

/-- The operations on the stream. -/
inductive StoreOp
  /-- `list_records`, newest first and at most `keep`. -/
  | list
  | append (record : Record)
  /-- `prune_records` down to `keep`. -/
  | prune
  deriving DecidableEq, Repr

/-- A store operation, and the records it returned once it was carried out. -/
structure StoreCall where
  op : StoreOp
  answer : Option (List Record) := none
  deriving DecidableEq, Repr

/-- Where a call of `_persist_reboot_ran` is. -/
inductive PersistPhase
  /-- It waits for the append of `job`, and `rest` comes after. -/
  | appending (call : ℕ) (job : String) (rest : List String)
  | pruning (call : ℕ)
  | returned
  | raised
  deriving DecidableEq, Repr

/-- A call of `_persist_reboot_ran`, with the id that was live when it began. -/
structure Persist where
  jobSetId : String
  phase : PersistPhase
  deriving DecidableEq, Repr

/-- One node and the stream. -/
structure Sys where
  /-- `get_job_set_id()`. -/
  live : String
  sets : RanSets := {}
  persisted : List String := []
  persistedId : Option String := none
  /-- Newest first. -/
  stream : List Record := []
  /-- All records that were ever appended. -/
  appended : List Record := []
  calls : List StoreCall := []
  persists : List Persist := []
  /-- The calls of `_refresh_reboot_ran`, each with the listing it waits for while it runs. -/
  refreshes : List (Option ℕ) := []
  deriving DecidableEq

/-- What happens to the node and the stream. -/
inductive Event
  | reload (jobSetId : String)
  | mark (job : String)
  /-- `reboot_ran` is asked. -/
  | query (job : String)
  /-- A maintenance pass calls `_persist_reboot_ran`. -/
  | persist
  /-- A maintenance pass calls `_refresh_reboot_ran`. -/
  | refresh
  /-- A store operation is carried out. -/
  | land (call : ℕ)
  /-- Another node appends to the stream. -/
  | other (record : Record)
  /-- A persist goes on. -/
  | deliver (persist : ℕ)
  /-- What a persist waits for raises. -/
  | fail (persist : ℕ)
  /-- A refresh goes on. -/
  | refreshed (refresh : ℕ)
  /-- What a refresh waits for raises. -/
  | failRefresh (refresh : ℕ)
  deriving DecidableEq

namespace Sys

/-- A store operation is sent. -/
def send (s : Sys) (op : StoreOp) : Sys := { s with calls := s.calls ++ [{ op }] }

/-- `_note_persisted`. -/
def notePersisted (s : Sys) (id : String) (jobs : List String) : Sys :=
  if s.persistedId ≠ some id then { s with persisted := jobs, persistedId := some id }
  else { s with persisted := s.persisted ∪ jobs }

/-- The next store operation of a persist, and where it then is. -/
def advance (s : Sys) (id : String) : List String → Sys × Persist
  | [] => (s.send .prune, ⟨id, .pruning s.calls.length⟩)
  | job :: rest =>
    (s.send (.append ⟨id, job⟩), ⟨id, .appending s.calls.length job rest⟩)

/-- What `_persist_reboot_ran` does first: the marks and `_reboot_persisted` are those of the live
job set. -/
def rescope (s : Sys) : Sys :=
  ({ s with sets := s.sets.reconcileLocal s.live } : Sys).notePersisted s.live []

/-- `_persist_reboot_ran` up to its first store operation. -/
def beginPersist (s : Sys) : Sys :=
  let s := s.rescope
  let missing := s.sets.marks.filter fun job => job ∉ s.persisted
  if missing = [] then { s with persists := s.persists ++ [⟨s.live, .returned⟩] }
  else
    let next := s.advance s.live (missing.insertionSort (· ≤ ·))
    { next.1 with persists := next.1.persists ++ [next.2] }

/-- The store carries out an operation. -/
def land (s : Sys) (c : ℕ) : Option Sys :=
  match s.calls[c]? with
  | some ⟨.list, none⟩ => some { s with calls := s.calls.set c ⟨.list, some (s.stream.take keep)⟩ }
  | some ⟨.append record, none⟩ =>
    some { s with
      stream := record :: s.stream, appended := record :: s.appended
      calls := s.calls.set c ⟨.append record, some []⟩ }
  | some ⟨.prune, none⟩ =>
    some { s with stream := s.stream.take keep, calls := s.calls.set c ⟨.prune, some []⟩ }
  | _ => none

/-- The store operation has been carried out. -/
def done (s : Sys) (c : ℕ) : Option (List Record) := (s.calls[c]?).bind StoreCall.answer

/-- A persist goes on: an append is noted, whatever job set `_reboot_persisted` is for. -/
def deliver (s : Sys) (p : ℕ) : Option Sys :=
  match s.persists[p]? with
  | some ⟨id, .appending c job rest⟩ =>
    if (s.done c).isSome then
      let next := Sys.advance { s with persisted := s.persisted.insert job } id rest
      some { next.1 with persists := next.1.persists.set p next.2 }
    else none
  | some ⟨id, .pruning c⟩ =>
    if (s.done c).isSome then some { s with persists := s.persists.set p ⟨id, .returned⟩ }
    else none
  | _ => none

/-- A failed append is raised; a failed prune is not. -/
def fail (s : Sys) (p : ℕ) : Option Sys :=
  match s.persists[p]? with
  | some ⟨id, .appending _ _ _⟩ => some { s with persists := s.persists.set p ⟨id, .raised⟩ }
  | some ⟨id, .pruning _⟩ => some { s with persists := s.persists.set p ⟨id, .returned⟩ }
  | _ => none

/-- `_refresh_reboot_ran` goes on with the records it read. -/
def refreshed (s : Sys) (f : ℕ) : Option Sys :=
  match s.refreshes[f]? with
  | some (some c) =>
    (s.done c).map fun records =>
      let jobs := (records.filter fun record => record.jobSetId = s.live).map Record.job
      { s with
        sets := s.sets.observe s.live (some s.live) jobs
        refreshes := s.refreshes.set f none }.notePersisted s.live jobs
  | _ => none

/-- One step of the node, the store or another node. -/
def step (s : Sys) : Event → Option Sys
  | .reload id => some { s with live := id }
  | .mark job => some { s with sets := s.sets.mark s.live job }.beginPersist
  | .query job => some { s with sets := (s.sets.rebootRan s.live job).2 }
  | .persist => some s.beginPersist
  | .refresh => some ({ s with refreshes := s.refreshes ++ [some s.calls.length] }.send .list)
  | .land c => s.land c
  | .other record =>
    some { s with stream := record :: s.stream, appended := record :: s.appended }
  | .deliver p => s.deliver p
  | .fail p => s.fail p
  | .refreshed f => s.refreshed f
  | .failRefresh f => some { s with refreshes := s.refreshes.set f none }

/-- Take events one after another. -/
def exec (s : Sys) (events : List Event) : Option Sys := events.foldlM Sys.step s

/-! ## What has been appended -/

/-- What the runs keep: whatever a node has read, noted or waited for, the stream has had. -/
structure Inv (s : Sys) : Prop where
  persisted : ∀ id, s.persistedId = some id → ∀ job ∈ s.persisted, ⟨id, job⟩ ∈ s.appended
  stream : ∀ record ∈ s.stream, record ∈ s.appended
  answers : ∀ call ∈ s.calls, ∀ records ∈ call.answer, ∀ record ∈ records, record ∈ s.appended
  appends : ∀ call ∈ s.calls, ∀ record, call.op = .append record → call.answer ≠ none →
    record ∈ s.appended
  waits : ∀ p ∈ s.persists, ∀ c job rest, p.phase = .appending c job rest →
    (s.calls[c]?).map StoreCall.op = some (.append ⟨p.jobSetId, job⟩)

/-- The invariant holds of a node that has just started. -/
lemma inv_init (live : String) : ({ live } : Sys).Inv where
  persisted := by rintro id ⟨⟩
  stream := nofun
  answers := nofun
  appends := nofun
  waits := nofun

section Steps

variable {s : Sys}

/-- Sending an operation reads and appends nothing. -/
lemma Inv.send (h : s.Inv) (op : StoreOp) : (s.send op).Inv := by
  refine { h with
    answers := forall_append h.answers nofun
    appends := forall_append h.appends fun _ _ hanswer => absurd rfl hanswer
    waits := fun p hp c job rest hphase => ?_ }
  have hop := h.waits p hp c job rest hphase
  obtain ⟨call, hcall, hsame⟩ := map_eq_some_iff.mp hop
  exact map_eq_some_iff.mpr ⟨call, append_some hcall _, hsame⟩

lemma Inv.setPersists (h : s.Inv) {persists : List Persist}
    (hwaits : ∀ p ∈ persists, ∀ c job rest, p.phase = .appending c job rest →
      (s.calls[c]?).map StoreCall.op = some (.append ⟨p.jobSetId, job⟩)) :
    ({ s with persists } : Sys).Inv :=
  { h with waits := hwaits }

/-- A persist ends. -/
theorem Inv.endPersist (h : s.Inv) (p : ℕ) {persist : Persist}
    (hends : ∀ c job rest, persist.phase ≠ .appending c job rest) :
    ({ s with persists := s.persists.set p persist } : Sys).Inv := by
  refine h.setPersists (forall_set h.waits p fun c job rest hphase => ?_)
  exact absurd hphase (hends c job rest)

/-- Jobs that have been appended may be noted. -/
lemma Inv.notePersisted (h : s.Inv) {id : String} {jobs : List String}
    (hjobs : ∀ job ∈ jobs, ⟨id, job⟩ ∈ s.appended) : (s.notePersisted id jobs).Inv := by
  unfold Sys.notePersisted
  split
  next =>
    refine { h with persisted := ?_ }
    rintro _ ⟨⟩
    exact hjobs
  next hsame =>
    have hid : s.persistedId = some id := by simpa using hsame
    refine { h with persisted := fun id' hid' job hjob => ?_ }
    obtain rfl := mem_unique hid hid'
    rcases mem_union_iff.mp hjob with hold | hnew
    · exact h.persisted id hid job hold
    · exact hjobs job hnew

end Steps

end Sys

namespace PersistPhase

/-- The jobs a persist has yet to see appended. -/
def pending : PersistPhase → List String
  | appending _ job rest => job :: rest
  | _ => []

end PersistPhase

variable {p c : ℕ}

namespace Sys

section Advance

variable {s : Sys}

/-- What is left to do is what a persist goes on with. -/
theorem advance_snd (s : Sys) (id : String) (jobs : List String) :
    (s.advance id jobs).2.jobSetId = id ∧ (s.advance id jobs).2.phase.pending = jobs := by
  cases jobs <;> exact ⟨rfl, rfl⟩

/-- A persist that goes on sends one operation. -/
lemma advance_fst (s : Sys) (id : String) (jobs : List String) :
    ∃ op, (s.advance id jobs).1 = s.send op := by
  cases jobs with
  | nil => exact ⟨_, rfl⟩
  | cons job rest => exact ⟨_, rfl⟩

lemma persists_advance (s : Sys) (id : String) (jobs : List String) :
    (s.advance id jobs).1.persists = s.persists := by
  obtain ⟨op, heq⟩ := advance_fst s id jobs
  rw [heq]
  rfl

/-- A persist that goes on waits for the append of its next job. -/
lemma waits_advance (id : String) (jobs : List String) {job : String} {rest : List String}
    (h : (s.advance id jobs).2.phase = .appending c job rest) :
    ((s.advance id jobs).1.calls[c]?).map StoreCall.op =
      some (.append ⟨(s.advance id jobs).2.jobSetId, job⟩) := by
  cases jobs with
  | nil => cases h
  | cons job' rest' =>
    cases h
    show ((s.calls ++ [_])[s.calls.length]?).map StoreCall.op = _
    rw [List.getElem?_concat_length]
    rfl

end Advance

variable {s' : Sys}

section Persists

variable {s : Sys}

/-- A note changes what counts as persisted, and for which job set. -/
lemma notePersisted_eq (s : Sys) (id : String) (jobs : List String) :
    ∃ persisted, s.notePersisted id jobs = { s with persisted, persistedId := some id } := by
  unfold notePersisted
  split
  next => exact ⟨_, rfl⟩
  next hsame =>
    have hid : s.persistedId = some id := by simpa using hsame
    exact ⟨_, by rw [← hid]⟩

section

variable (h : s.Inv)

include h

/-- The marks and the note of the live job set are as good as those before. -/
lemma Inv.rescope : s.rescope.Inv := by
  have hsets : ({ s with sets := s.sets.reconcileLocal s.live } : Sys).Inv :=
    { h with }
  exact hsets.notePersisted nofun

/-- A persist moves on to its next store operation. -/
theorem Inv.advance (id : String) (jobs : List String) {persists : List Persist}
    (hpersists : ∀ p ∈ persists, p ∈ s.persists ∨ p = (s.advance id jobs).2) :
    ({ (s.advance id jobs).1 with persists } : Sys).Inv := by
  have hsent : (s.advance id jobs).1.Inv := by
    obtain ⟨op, heq⟩ := advance_fst s id jobs
    rw [heq]
    exact h.send op
  refine hsent.setPersists fun p hp c job rest hphase => ?_
  rcases hpersists p hp with hold | rfl
  · exact hsent.waits p (persists_advance s id jobs ▸ hold) c job rest hphase
  · exact waits_advance id jobs hphase

/-- A persist that begins has appended nothing yet. -/
lemma Inv.beginPersist : s.beginPersist.Inv := by
  unfold Sys.beginPersist
  simp only
  split
  · exact h.rescope.setPersists (forall_append h.rescope.waits nofun)
  · refine h.rescope.advance _ _ fun p hp => ?_
    rw [persists_advance] at hp
    exact (mem_append.mp hp).imp_right mem_singleton.mp

/-- The record that an append has been waited for is in the stream. -/
theorem Inv.appended {p : Persist} (hp : p ∈ s.persists) {job : String} {rest : List String}
    (hphase : p.phase = .appending c job rest) (hdone : (s.done c).isSome) :
    ⟨p.jobSetId, job⟩ ∈ s.appended := by
  obtain ⟨call, hcall, hop⟩ := map_eq_some_iff.mp (h.waits p hp c job rest hphase)
  refine h.appends call (mem_of_getElem? hcall) _ hop fun hnone => ?_
  unfold done at hdone
  rw [hcall, bind_some, hnone] at hdone
  cases hdone

/-- A persist notes its append under the id of the record. -/
lemma Inv.deliver
    (hkeyed : ∀ persist ∈ s.persists[p]?, ∀ c job rest, persist.phase = .appending c job rest →
      s.persistedId = some persist.jobSetId)
    (hstep : s.deliver p = some s') : s'.Inv := by
  unfold Sys.deliver at hstep
  split at hstep
  next id c job rest hp =>
    obtain ⟨hdone, ⟨⟩⟩ := ite_none_right_eq_some.mp hstep
    have hnoted : ({ s with persisted := s.persisted.insert job } : Sys).Inv := by
      refine { h with persisted := fun id' hid' job' hjob' => ?_ }
      rcases mem_insert_iff.mp hjob' with rfl | hold
      · have hid : s.persistedId = some id := hkeyed _ hp c job' rest rfl
        obtain rfl := mem_unique hid hid'
        exact h.appended (mem_of_getElem? hp) rfl hdone
      · exact h.persisted id' hid' job' hold
    refine hnoted.advance id rest fun p' hp' => ?_
    rw [persists_advance] at hp'
    exact mem_or_eq_of_mem_set hp'
  next id c hp =>
    obtain ⟨-, ⟨⟩⟩ := ite_none_right_eq_some.mp hstep
    exact h.endPersist p (by simp)
  next => cases hstep

/-- A record of another node lands. -/
lemma Inv.other (record : Record) :
    ({ s with stream := record :: s.stream, appended := record :: s.appended } : Sys).Inv where
  persisted := fun id hid job hjob => mem_cons_of_mem _ (h.persisted id hid job hjob)
  stream := forall_mem_cons.mpr
    ⟨mem_cons_self, fun record' hold => mem_cons_of_mem _ (h.stream record' hold)⟩
  answers := fun call hcall records hrecords record' hrecord' =>
    mem_cons_of_mem _ (h.answers call hcall records hrecords record' hrecord')
  appends := fun call hcall record' hop hanswer =>
    mem_cons_of_mem _ (h.appends call hcall record' hop hanswer)
  waits := h.waits

/-- A call is answered with records that were appended, an append when its own was. -/
theorem Inv.answer {op : StoreOp} {records : List Record} (hc : s.calls[c]? = some ⟨op, none⟩)
    (hrecords : ∀ record ∈ records, record ∈ s.appended)
    (happend : ∀ record, op = .append record → record ∈ s.appended) :
    ({ s with calls := s.calls.set c ⟨op, some records⟩ } : Sys).Inv := by
  refine { h with
    answers := forall_set h.answers c ?_
    appends := forall_set h.appends c fun record hop _ => happend record hop
    waits := fun p hp c' job rest hphase => ?_ }
  · rintro _ ⟨⟩
    exact hrecords
  · -- the operations stay as they are, so whoever waits for one still does
    obtain ⟨call, hcall, hop⟩ := map_eq_some_iff.mp (h.waits p hp c' job rest hphase)
    rcases set_at hc hcall ⟨op, some records⟩ with ⟨-, rfl, hnew⟩ | hother
    · exact map_eq_some_iff.mpr ⟨_, hnew, hop⟩
    · exact map_eq_some_iff.mpr ⟨call, hother, hop⟩

/-- The store carries out an operation. -/
theorem Inv.land (hstep : s.land c = some s') : s'.Inv := by
  unfold Sys.land at hstep
  split at hstep
  next hc =>
    cases hstep
    exact h.answer hc (fun record hrecord => h.stream record (mem_of_mem_take hrecord)) (by simp)
  next record hc =>
    cases hstep
    refine (h.other record).answer hc (by simp) ?_
    rintro _ ⟨⟩
    exact mem_cons_self
  next hc =>
    cases hstep
    have hpruned : ({ s with stream := s.stream.take keep } : Sys).Inv :=
      { h with stream := fun record hrecord => h.stream record (mem_of_mem_take hrecord) }
    exact hpruned.answer hc (by simp) (by simp)
  next => cases hstep

/-- A refresh notes what it has read. -/
lemma Inv.refreshed {f : ℕ} (hstep : s.refreshed f = some s') : s'.Inv := by
  unfold Sys.refreshed at hstep
  split at hstep
  next c hf =>
    obtain ⟨records, hdone, rfl⟩ := map_eq_some_iff.mp hstep
    have hsets : ∀ sets refreshes, ({ s with sets, refreshes } : Sys).Inv := fun _ _ =>
      { h with }
    refine (hsets _ _).notePersisted fun job hjob => ?_
    -- what was read under the live id had been appended under it
    obtain ⟨record, hrecord, rfl⟩ := mem_map.mp hjob
    obtain ⟨hread, hid⟩ := mem_filter.mp hrecord
    obtain ⟨call, hcall, hanswer⟩ := bind_eq_some_iff.mp hdone
    have hmem := h.answers call (mem_of_getElem? hcall) records hanswer record hread
    rw [← of_decide_eq_true hid]
    exact hmem
  next => cases hstep

end

end Persists

end Sys

/-! ## Runs -/

/-- When an append is noted, `_reboot_persisted` still has the id of the record. -/
def Sys.Keyed (s : Sys) : Event → Prop
  | .deliver p => ∀ persist ∈ s.persists[p]?, ∀ c job rest,
      persist.phase = .appending c job rest → s.persistedId = some persist.jobSetId
  | _ => True

/-- A step in which an append is noted under the id of its record. -/
def KeyedStep (s : Sys) (event : Event) (s' : Sys) : Prop :=
  s.step event = some s' ∧ s.Keyed event

/-- Such a step keeps the invariant. -/
lemma Sys.Inv.step {s s' : Sys} {event : Event} (h : s.Inv) (hstep : KeyedStep s event s') :
    s'.Inv := by
  obtain ⟨hstep, hkeyed⟩ := hstep
  have hsets : ∀ live sets, ({ s with live, sets } : Sys).Inv := fun _ _ =>
    { h with }
  have hrefreshes : ∀ refreshes, ({ s with refreshes } : Sys).Inv := fun _ =>
    { h with }
  cases event with
  | reload id =>
    cases hstep
    exact hsets id s.sets
  | mark job =>
    cases hstep
    exact (hsets s.live (s.sets.mark s.live job)).beginPersist
  | query job =>
    cases hstep
    exact hsets s.live _
  | persist =>
    cases hstep
    exact h.beginPersist
  | refresh =>
    cases hstep
    exact (hrefreshes _).send .list
  | land c => exact h.land hstep
  | other record =>
    cases hstep
    exact h.other record
  | deliver p => exact h.deliver hkeyed hstep
  | fail p =>
    simp only [Sys.step, Sys.fail] at hstep
    split at hstep
    case h_1 | h_2 =>
      cases hstep
      exact h.endPersist p (by simp)
    case h_3 => cases hstep
  | refreshed f => exact h.refreshed hstep
  | failRefresh f =>
    cases hstep
    exact hrefreshes _

/-! ## What a mark is owed -/

/-- The record is in the stream, or the persist has raised, or it has yet to append the record. -/
def Persist.Owes (id job : String) (appended : List Record) (p : Persist) : Prop :=
  ⟨id, job⟩ ∈ appended ∨ p.phase = .raised ∨ p.jobSetId = id ∧ job ∈ p.phase.pending

namespace Sys

/-- A job was marked under the live id `id`, and the persists from the `n`th on know it. -/
structure Owes (id job : String) (n : ℕ) (s : Sys) : Prop where
  live : s.live = id
  marked : job ∈ s.sets.marks
  markedId : s.sets.marksId = some id
  persists : ∀ p persist, n ≤ p → s.persists[p]? = some persist →
    persist.Owes id job s.appended

namespace Owes

variable {s s' : Sys} {id job : String} {n : ℕ}

section

variable (h : s.Owes id job n)

include h

/-- Steps that leave the marks and the persists alone. -/
theorem frame (hlive : s'.live = id)
    (hmarks : s'.sets.marks = s.sets.marks ∧ s'.sets.marksId = s.sets.marksId)
    (happended : ∀ record ∈ s.appended, record ∈ s'.appended)
    (hpersists : s'.persists = s.persists) :
    s'.Owes id job n where
  live := hlive
  marked := hmarks.1 ▸ h.marked
  markedId := hmarks.2.trans h.markedId
  persists := by
    intro p persist hp hpersist
    rw [hpersists] at hpersist
    exact (h.persists p persist hp hpersist).imp_left (happended _)

/-- A persist moves on. -/
theorem setPersist (hlive : s'.live = s.live) (hsets : s'.sets = s.sets)
    (happended : s'.appended = s.appended) {persist persist' : Persist}
    (hpersist : s.persists[p]? = some persist) (hpersists : s'.persists = s.persists.set p persist')
    (howes : persist.Owes id job s.appended → persist'.Owes id job s.appended) :
    s'.Owes id job n where
  live := hlive.trans h.live
  marked := hsets ▸ h.marked
  markedId := hsets ▸ h.markedId
  persists := by
    intro p' persist'' hp' hpersist''
    rw [happended]
    rw [hpersists] at hpersist''
    rcases set_cases hpersist'' with ⟨rfl, rfl⟩ | ⟨-, hold⟩
    · exact howes (h.persists p persist hp' hpersist)
    · exact h.persists p' persist'' hp' hold

/-- A persist that begins owes the mark as before. -/
lemma rescope : s.rescope.Owes id job n := by
  obtain ⟨persisted, heq⟩ :=
    notePersisted_eq { s with sets := s.sets.reconcileLocal s.live } s.live []
  unfold Sys.rescope
  rw [heq, reconcileLocal_of_eq (h.markedId.trans (by rw [h.live]))]
  exact h.frame h.live ⟨rfl, rfl⟩ (fun _ hmem => hmem) rfl

/-- A persist that begins finds the mark: it is noted, or will be appended. -/
theorem beginPersist (hinv : s.Inv) : s.beginPersist.Owes id job n := by
  have hscoped := h.rescope
  have hnoted : job ∈ s.rescope.persisted → ⟨id, job⟩ ∈ s.rescope.appended := by
    obtain ⟨persisted, heq⟩ :=
      notePersisted_eq { s with sets := s.sets.reconcileLocal s.live } s.live []
    refine hinv.rescope.persisted id ?_ job
    unfold Sys.rescope
    rw [heq, h.live]
  have hmissing : ⟨id, job⟩ ∈ s.rescope.appended ∨
      job ∈ s.rescope.sets.marks.filter fun job => job ∉ s.rescope.persisted := by
    by_cases hmem : job ∈ s.rescope.persisted
    · exact .inl (hnoted hmem)
    · exact .inr (mem_filter.mpr ⟨hscoped.marked, by simpa using hmem⟩)
  -- the persist that is added owes the record like the others
  have hadd : ∀ {t : Sys} {added : Persist}, t.Owes id job n → t.appended = s.rescope.appended →
      added.Owes id job s.rescope.appended →
      ({ t with persists := t.persists ++ [added] } : Sys).Owes id job n := by
    intro t added ht happended hadded
    refine { ht with persists := fun p persist hp hpersist => ?_ }
    rcases append_cases hpersist with hold | ⟨-, hnew⟩
    · exact ht.persists p persist hp hold
    · obtain rfl := mem_singleton.mp hnew
      exact (show t.appended = _ from happended) ▸ hadded
  unfold Sys.beginPersist
  simp only
  split
  next hempty =>
    refine hadd hscoped rfl (.inl (hmissing.resolve_right fun hmem => ?_))
    rw [hempty] at hmem
    cases hmem
  next =>
    obtain ⟨op, heq⟩ := advance_fst s.rescope s.rescope.live
      ((s.rescope.sets.marks.filter fun job => job ∉ s.rescope.persisted).insertionSort (· ≤ ·))
    obtain ⟨hid, hpending⟩ := advance_snd s.rescope s.rescope.live
      ((s.rescope.sets.marks.filter fun job => job ∉ s.rescope.persisted).insertionSort (· ≤ ·))
    refine hadd ?_ ?_ ?_
    · rw [heq]
      exact hscoped.frame hscoped.live ⟨rfl, rfl⟩ (fun _ hmem => hmem) rfl
    · rw [heq]
      rfl
    · refine hmissing.imp_right fun hmem => .inr ⟨hid.trans hscoped.live, ?_⟩
      rw [hpending]
      exact (mem_insertionSort _).mpr hmem

/-- A persist that goes on owes the mark, or has seen it appended. -/
lemma deliver (hinv : s.Inv) (hstep : s.deliver p = some s') : s'.Owes id job n := by
  unfold Sys.deliver at hstep
  split at hstep
  next id' c job' rest hp =>
    obtain ⟨hdone, ⟨⟩⟩ := ite_none_right_eq_some.mp hstep
    obtain ⟨op, heq⟩ := advance_fst { s with persisted := s.persisted.insert job' } id' rest
    obtain ⟨hid, hpending⟩ :=
      advance_snd { s with persisted := s.persisted.insert job' } id' rest
    refine h.setPersist ?_ ?_ ?_ hp (by rw [persists_advance]) ?_
    · rw [heq]; rfl
    · rw [heq]; rfl
    · rw [heq]; rfl
    · rintro (hmem | hraised | ⟨rfl, hpends⟩)
      · exact .inl hmem
      · cases hraised
      · -- the append that was waited for is in the stream
        rcases mem_cons.mp hpends with rfl | hrest
        · exact .inl (hinv.appended (mem_of_getElem? hp) rfl hdone)
        · refine .inr (.inr ⟨hid, ?_⟩)
          rw [hpending]
          exact hrest
  next id' c hp =>
    obtain ⟨-, ⟨⟩⟩ := ite_none_right_eq_some.mp hstep
    refine h.setPersist rfl rfl rfl hp rfl ?_
    rintro (hmem | hraised | ⟨-, hpends⟩)
    · exact .inl hmem
    · cases hraised
    · cases hpends
  next => cases hstep

/-- A persist that fails has not returned. -/
lemma fail (hstep : s.fail p = some s') : s'.Owes id job n := by
  unfold Sys.fail at hstep
  split at hstep
  next hp =>
    cases hstep
    exact h.setPersist rfl rfl rfl hp rfl fun _ => .inr (.inl rfl)
  next hp =>
    cases hstep
    refine h.setPersist rfl rfl rfl hp rfl ?_
    rintro (hmem | hraised | ⟨-, hpends⟩)
    · exact .inl hmem
    · cases hraised
    · cases hpends
  next => cases hstep

/-- A mark stays owed as long as its id stays live. -/
theorem step (hinv : s.Inv) {event : Event} (hlive : ∀ id', event = .reload id' → id' = id)
    (hstep : s.step event = some s') : s'.Owes id job n := by
  cases event with
  | reload id' =>
    cases hstep
    exact h.frame (hlive id' rfl) ⟨rfl, rfl⟩ (fun _ hmem => hmem) rfl
  | mark job' =>
    cases hstep
    have hsame := reconcileLocal_of_eq (h.markedId.trans (by rw [← h.live]))
    refine beginPersist ⟨h.live, ?_, ?_, h.persists⟩
      { hinv with }
    · refine mem_insert_of_mem ?_
      rw [hsame]
      exact h.marked
    · show (s.sets.reconcileLocal s.live).marksId = some id
      rw [hsame]
      exact h.markedId
  | query job' =>
    cases hstep
    have hsame := reconcileLocal_of_eq (h.markedId.trans (by rw [← h.live]))
    refine h.frame h.live ?_ (fun _ hmem => hmem) rfl
    show ((s.sets.reconcileLocal s.live).reconcileObserved s.live).marks = _ ∧
      ((s.sets.reconcileLocal s.live).reconcileObserved s.live).marksId = _
    rw [hsame]
    exact marks_reconcileObserved s.live s.sets
  | persist =>
    cases hstep
    exact h.beginPersist hinv
  | refresh | failRefresh =>
    cases hstep
    exact h.frame h.live ⟨rfl, rfl⟩ (fun _ hmem => hmem) rfl
  | land c =>
    simp only [Sys.step, Sys.land] at hstep
    split at hstep
    case h_1 | h_3 =>
      cases hstep
      exact h.frame h.live ⟨rfl, rfl⟩ (fun _ hmem => hmem) rfl
    case h_2 =>
      cases hstep
      exact h.frame h.live ⟨rfl, rfl⟩ (fun _ hmem => mem_cons_of_mem _ hmem) rfl
    case h_4 => cases hstep
  | other record =>
    cases hstep
    exact h.frame h.live ⟨rfl, rfl⟩ (fun _ hmem => mem_cons_of_mem _ hmem) rfl
  | deliver p => exact h.deliver hinv hstep
  | fail p => exact h.fail hstep
  | refreshed f =>
    simp only [Sys.step, Sys.refreshed] at hstep
    split at hstep
    next =>
      obtain ⟨records, -, rfl⟩ := map_eq_some_iff.mp hstep
      obtain ⟨persisted, heq⟩ := notePersisted_eq _ _ _
      rw [heq]
      exact h.frame h.live ⟨rfl, rfl⟩ (fun _ hmem => hmem) rfl
    next => cases hstep

end

end Owes

end Sys

/-- When appends are noted under the id of their record, a persist that begins at or after a mark
and returns has left a record of the mark, if the live id is the same since. -/
theorem persist_records_mark {live job : String} {before rest : List Event} {s s' t : Sys}
    (hbefore : Trace.Run KeyedStep { live } before s) (hmark : s.step (.mark job) = some s')
    (hrest : Trace.Run KeyedStep s' rest t) (hlive : ∀ id, .reload id ∈ rest → id = s.live)
    {p : ℕ} {persist : Persist} (hp : s.persists.length ≤ p)
    (hpersist : t.persists[p]? = some persist) (hreturned : persist.phase = .returned) :
    ⟨s.live, job⟩ ∈ t.appended := by
  have hinv : s.Inv := hbefore.invariant (fun _ _ _ h hstep => h.step hstep) (Sys.inv_init live)
  have hsets : ({ s with sets := s.sets.mark s.live job } : Sys).Inv :=
    { hinv with }
  have howes : t.Inv ∧ t.Owes s.live job s.persists.length := by
    refine hrest.history (P := fun u _ => u.Inv ∧ u.Owes s.live job s.persists.length) ?_ ?_
    · cases hmark
      -- the persist of the mark itself is the first one
      have hstart : ({ s with sets := s.sets.mark s.live job } : Sys).Owes s.live job
          s.persists.length := by
        refine ⟨rfl, mem_insert_self, marksId_reconcileLocal _ _, ?_⟩
        intro p' persist' hp' hpersist'
        exact absurd (List.getElem?_eq_some_iff.mp hpersist').1 (not_lt.mpr hp')
      exact ⟨hsets.beginPersist, hstart.beginPersist hsets⟩
    · rintro u _ event u' hevent ⟨hu, howes⟩ hstep
      refine ⟨hu.step hstep, howes.step hu ?_ hstep.1⟩
      rintro id rfl
      exact hlive id hevent
  rcases howes.2.persists p persist hp hpersist with hmem | hraised | ⟨-, hpends⟩
  · exact hmem
  · rw [hreturned] at hraised
    cases hraised
  · rw [hreturned] at hpends
    cases hpends

section Runs

/-- A job is marked under `A`; its append is carried out but not yet noted when a reload makes `B`
live and a refresh has read the stream. The job is then marked under `B`. -/
private def straddling : List Event :=
  [.mark "boot", .land 0, .reload "B", .refresh, .land 1, .refreshed 0, .deliver 0, .land 2,
    .deliver 0, .mark "boot"]

/-- The persist of the second mark returns at once, and no record has the job under `B`. -/
theorem mark_not_recorded :
    (({ live := "A" } : Sys).exec straddling).map
        (fun s => (s.live, s.persists.map Persist.phase, s.appended)) =
      some ("B", [.returned, .returned], [⟨"A", "boot"⟩]) := by
  decide +kernel

/-- `Sys.Keyed` as a check. -/
private def keyed (s : Sys) : Event → Bool
  | .deliver p => s.persists[p]?.all fun persist => decide (s.persistedId = some persist.jobSetId)
  | _ => true

/-- The step, if it is such a one. -/
private def keyedStep (s : Sys) (event : Event) : Option Sys :=
  if keyed s event then s.step event else none

private lemma keyedStep_of_eq (s : Sys) (event : Event) (s' : Sys)
    (h : keyedStep s event = some s') : KeyedStep s event s' := by
  unfold keyedStep at h
  split at h
  next hkeyed =>
    refine ⟨h, ?_⟩
    cases event with
    | deliver p =>
      intro persist hp _ _ _ _
      rw [keyed, show s.persists[p]? = some persist from hp] at hkeyed
      simpa using hkeyed
    | _ => trivial
  next => cases h

/-- The first append of a mark times out, and is carried out all the same; a maintenance pass tries
again. -/
private def retrying : List Event :=
  [.fail 0, .persist, .land 0, .land 1, .deliver 1, .land 2, .deliver 1]

/-- Its persist returns, and the record is there. -/
theorem persist_records_mark_retried :
    ∃ s t, ({ live := "A" } : Sys).step (.mark "boot") = some s ∧
      Trace.Run KeyedStep s retrying t ∧
      t.persists.map Persist.phase = [.raised, .returned] ∧ ⟨"A", "boot"⟩ ∈ t.appended := by
  have hmap : (keyedStep { live := "A" } (.mark "boot")).bind (fun s =>
      (retrying.foldlM keyedStep s).map fun t => t.persists.map Persist.phase) =
      some [.raised, .returned] := by
    decide +kernel
  obtain ⟨s, hs, hmap⟩ := bind_eq_some_iff.mp hmap
  obtain ⟨t, ht, hphases⟩ := map_eq_some_iff.mp hmap
  have hmark := (keyedStep_of_eq _ _ _ hs).1
  have hrest := (Trace.Run.of_foldlM ht).mono keyedStep_of_eq
  obtain ⟨persist, hpersist, hreturned⟩ : ∃ persist, t.persists[1]? = some persist ∧
      persist.phase = .returned := by
    have hphase : (t.persists.map Persist.phase)[1]? = some .returned := by
      rw [hphases]
      rfl
    rw [List.getElem?_map] at hphase
    exact map_eq_some_iff.mp hphase
  refine ⟨s, t, hmark, hrest, hphases, ?_⟩
  exact persist_records_mark (.nil _) hmark hrest (by simp [retrying]) (Nat.zero_le 1) hpersist
    hreturned

end Runs

end Cronstable.Election.FilesystemRan
