import Cronstable.Election.RebootRan
import Cronstable.Lib.Dict
import Cronstable.Lib.Log
import Cronstable.Lib.Trace

/-!
# The `@reboot`-ran key in etcd

`EtcdBackend` keeps the jobs that have run under one key, tagged with a job-set id.
`_cas_write_reboot_ran` reads the key, folds it into the cache, and writes the union with the
node's own marks under the live id, if the key was not modified since. It is called by every
`mark_reboot_ran` and by the renew rounds, and any number of calls may be under way.

A value tagged with an id should name only jobs that were marked under that id. The call reads the
live id after its read was answered, but does not look at what id its marks were made under: a
reload during the read puts the old marks under the new id (`marks_laundered`). When the marks are
those of the live job set whenever a write is put together, every value is in order
(`stored_marks_scoped`).

Whether a renew round's read is throttled is an input (`Event.sync`): nothing here depends on it.
-/

namespace Cronstable.Election.Etcd

open List

/-- A value of the key, as `encode_reboot_ran` and `decode_reboot_ran` have it. -/
structure RanValue where
  jobSetId : String
  jobs : List String
  deriving DecidableEq, Repr

/-- What a node has in memory. -/
structure Node where
  /-- `get_job_set_id()`. -/
  live : String := ""
  sets : RanSets := {}
  deriving DecidableEq, Repr

/-- A request to etcd, with its answer once there is one. -/
inductive Request
  | range (answer : Option (Option (RanValue × ℕ)))
  /-- `build_reboot_ran_cas_txn`. -/
  | txn (value : RanValue) (modRevision : ℕ) (answer : Option Bool)
  deriving DecidableEq, Repr

/-- A call of `_cas_write_reboot_ran`: its attempt, and the request it waits for while it runs. -/
structure Writer where
  node : String
  attempt : ℕ
  awaits : Option ℕ
  deriving DecidableEq, Repr

/-- `_REBOOT_RAN_CAS_ATTEMPTS`. -/
def casAttempts : ℕ := 3

/-- The key with its modification revision, the nodes and what they wait for. -/
structure Sys where
  key : Option (RanValue × ℕ)
  revision : ℕ
  nodes : Dict String Node
  requests : List Request
  writers : List Writer
  /-- The job-set id and the job of each `mark_reboot_ran` so far. -/
  marked : List (String × String)
  deriving DecidableEq

/-- What happens in the system. -/
inductive Event
  /-- A config reload; the backend stays. -/
  | reload (node jobSetId : String)
  | mark (node job : String)
  /-- `reboot_ran` is asked. -/
  | query (node job : String)
  /-- `_sync_reboot_ran` of a renew round; `due` says that the read is not throttled. -/
  | sync (node : String) (due : Bool)
  /-- Etcd answers a request. -/
  | land (request : ℕ)
  /-- A call goes on with the answer to its request. -/
  | deliver (writer : ℕ)
  /-- A call raises: its request failed or timed out. -/
  | fail (writer : ℕ)
  deriving DecidableEq

namespace Sys

/-- Nothing is stored, and no node has done anything. -/
def init : Sys := ⟨none, 1, .empty, [], [], []⟩

/-- A node that has done nothing yet has the defaults. -/
def node (s : Sys) (i : String) : Node := (s.nodes.get? i).getD {}

/-- A node changes. -/
def setNode (s : Sys) (i : String) (n : Node) : Sys := { s with nodes := s.nodes.set i n }

/-- A request goes out. -/
def send (s : Sys) (r : Request) : Sys := { s with requests := s.requests ++ [r] }

/-- A writer moves on. -/
def setWriter (s : Sys) (w : ℕ) (writer : Writer) : Sys :=
  { s with writers := s.writers.set w writer }

/-- `_cas_write_reboot_ran` up to its first request. -/
def casWrite (s : Sys) (i : String) : Sys :=
  ({ s with writers := s.writers ++ [⟨i, 0, some s.requests.length⟩] } : Sys).send (.range none)

/-- What a node combines and may write, once it has read the key. -/
def combined (stored : Option (RanValue × ℕ)) (n : Node) : RanSets × RanValue × ℕ :=
  let sets := n.sets.observe n.live (stored.map fun v => v.1.jobSetId)
    (stored.elim [] fun v => v.1.jobs)
  (sets, ⟨n.live, sets.ran ∪ sets.marks⟩, stored.elim 0 Prod.snd)

/-- A call goes on with what it has read: it writes unless the key has all of the marks. -/
def merge (s : Sys) (w : ℕ) (writer : Writer) (stored : Option (RanValue × ℕ)) : Sys :=
  let n := s.node writer.node
  let (sets, value, modRevision) := combined stored n
  let s' := s.setNode writer.node { n with sets }
  if value.jobs.all fun job => job ∈ sets.ran then s'.setWriter w { writer with awaits := none }
  else
    (s'.setWriter w { writer with awaits := some s.requests.length }).send
      (.txn value modRevision none)

/-- A call goes on after its write: it tries again if it lost the race. -/
def retry (s : Sys) (w : ℕ) (writer : Writer) (succeeded : Bool) : Sys :=
  if succeeded ∨ casAttempts ≤ writer.attempt + 1 then
    s.setWriter w { writer with awaits := none }
  else
    (s.setWriter w ⟨writer.node, writer.attempt + 1, some s.requests.length⟩).send (.range none)

/-- Etcd answers a request. A transaction compares the modification revision of the key, which is
zero when it is absent. -/
def land (s : Sys) (c : ℕ) : Option Sys :=
  match s.requests[c]? with
  | some (.range none) => some { s with requests := s.requests.set c (.range (some s.key)) }
  | some (.txn value modRevision none) =>
    if s.key.elim 0 Prod.snd = modRevision then
      some { s with
        key := some (value, s.revision + 1), revision := s.revision + 1
        requests := s.requests.set c (.txn value modRevision (some true)) }
    else
      some { s with requests := s.requests.set c (.txn value modRevision (some false)) }
  | _ => none

/-- One step of the system. -/
def step (s : Sys) : Event → Option Sys
  | .reload i id => some (s.setNode i { s.node i with live := id })
  | .mark i job =>
    let n := s.node i
    let s' := { s with marked := (n.live, job) :: s.marked }
    some ((s'.setNode i { n with sets := n.sets.mark n.live job }).casWrite i)
  | .query i job =>
    let n := s.node i
    some (s.setNode i { n with sets := (n.sets.rebootRan n.live job).2 })
  | .sync i due =>
    let n := s.node i
    let sets := (n.sets.reconcileLocal n.live).reconcileObserved n.live
    let s' := s.setNode i { n with sets }
    -- marks that the key may not have yet are never throttled
    if due ∨ sets.marks.any fun job => job ∉ sets.ran then some (s'.casWrite i) else some s'
  | .land c => s.land c
  | .deliver w =>
    match s.writers[w]? with
    | some ⟨i, attempt, some c⟩ =>
      match s.requests[c]? with
      | some (.range (some stored)) => some (s.merge w ⟨i, attempt, some c⟩ stored)
      | some (.txn _ _ (some succeeded)) => some (s.retry w ⟨i, attempt, some c⟩ succeeded)
      | _ => none
    | _ => none
  | .fail w =>
    match s.writers[w]? with
    | some ⟨i, attempt, some _⟩ => some (s.setWriter w ⟨i, attempt, none⟩)
    | _ => none

/-- Take events one after another. -/
def exec (s : Sys) (events : List Event) : Option Sys := events.foldlM Sys.step s

/-! ## Values in order -/

/-- Each job of a value was marked while the id of the value was live. -/
def InScope (s : Sys) (value : RanValue) : Prop :=
  ∀ job ∈ value.jobs, (value.jobSetId, job) ∈ s.marked

end Sys

/-- The value that a request carries or was answered with. -/
def Request.value : Request → Option RanValue
  | range answer => answer.bind fun stored => stored.map Prod.fst
  | txn value _ _ => some value

namespace Sys

/-- What the runs keep: wherever a value may be, it is in order, and so are the marks. -/
structure Inv (s : Sys) : Prop where
  key : ∀ stored ∈ s.key, s.InScope stored.1
  requests : ∀ r ∈ s.requests, ∀ value ∈ r.value, s.InScope value
  marks : ∀ i, (s.node i).sets.MarksIn fun id job => (id, job) ∈ s.marked

/-- The invariant holds at the start. -/
lemma inv_init : init.Inv where
  key := nofun
  requests := nofun
  marks := by
    intro i job hjob
    cases hjob

/-- What a node is after one has changed. -/
lemma node_setNode (s : Sys) (i k : String) (n : Node) :
    (s.setNode i n).node k = if k = i then n else s.node k := by
  unfold node setNode
  rw [Dict.get?_set]
  split <;> rfl

section Steps

variable {s : Sys}

variable (h : s.Inv)

include h

/-- A node may change as long as its marks are among those that were made. -/
lemma Inv.setNode {i : String} {n : Node}
    (hmarks : n.sets.MarksIn fun id job => (id, job) ∈ s.marked) : (s.setNode i n).Inv where
  key := h.key
  requests := h.requests
  marks := by
    intro k
    rw [node_setNode]
    split
    · exact hmarks
    · exact h.marks k

lemma Inv.setWriter (w : ℕ) (writer : Writer) : (s.setWriter w writer).Inv :=
  { h with }

/-- A request may be sent as long as what it writes is in scope. -/
lemma Inv.send {r : Request} (hr : ∀ value ∈ r.value, s.InScope value) : (s.send r).Inv :=
  { h with requests := Log.forall_append h.requests hr }

/-- A writer that starts to read keeps the invariant. -/
lemma Inv.casWrite (i : String) : (s.casWrite i).Inv := by
  have hwriters : ({ s with writers := s.writers ++ [⟨i, 0, some s.requests.length⟩] } : Sys).Inv :=
    { h with }
  refine hwriters.send ?_
  rintro value ⟨⟩

/-- Marks are only added to what was marked. -/
theorem Inv.marking (mark : String × String) :
    ({ s with marked := mark :: s.marked } : Sys).Inv where
  key := fun stored hstored job hjob => mem_cons_of_mem _ (h.key stored hstored job hjob)
  requests := fun r hr value hvalue job hjob =>
    mem_cons_of_mem _ (h.requests r hr value hvalue job hjob)
  marks := fun i => (h.marks i).mono fun _ _ hmem => mem_cons_of_mem _ hmem

/-- What a node puts together is in order when its marks are those of the live job set. -/
theorem Inv.combined {i : String} {stored : Option (RanValue × ℕ)}
    (hstored : ∀ v ∈ stored, s.InScope v.1)
    (hlive : (s.node i).sets.marks = [] ∨ (s.node i).sets.marksId = some (s.node i).live) :
    s.InScope (combined stored (s.node i)).2.1 := by
  intro job hjob
  show ((s.node i).live, job) ∈ s.marked
  rcases mem_union_iff.mp hjob with hran | hmark
  · -- what was read counts only if it is tagged with the live id
    simp only [RanSets.observe] at hran
    split at hran
    next hid =>
      obtain ⟨v, hv, hlive⟩ := Option.map_eq_some_iff.mp hid
      rw [hv] at hran
      exact hlive ▸ hstored v hv job hran
    next => cases hran
  · obtain ⟨id, hid, hmem⟩ := h.marks i job hmark
    rcases hlive with hnone | hsame
    · exact absurd (hnone ▸ hmark : job ∈ []) (by simp)
    · obtain rfl := Option.mem_unique hid hsame
      exact hmem

/-- A writer that merges marks of the live job set writes what is in scope. -/
lemma Inv.merge {w : ℕ} {writer : Writer} {stored : Option (RanValue × ℕ)}
    (hstored : ∀ v ∈ stored, s.InScope v.1)
    (hlive : (s.node writer.node).sets.marks = [] ∨
      (s.node writer.node).sets.marksId = some (s.node writer.node).live) :
    (s.merge w writer stored).Inv := by
  have hnode : (s.setNode writer.node { s.node writer.node with
      sets := (Sys.combined stored (s.node writer.node)).1 }).Inv :=
    h.setNode (h.marks writer.node)
  unfold Sys.merge
  simp only
  split
  · exact hnode.setWriter w _
  · refine (hnode.setWriter w _).send ?_
    rintro _ ⟨⟩
    exact h.combined hstored hlive

/-- Etcd stores only what was sent. -/
lemma Inv.land {s' : Sys} {c : ℕ} (hstep : s.land c = some s') : s'.Inv := by
  unfold Sys.land at hstep
  split at hstep
  next =>
    cases hstep
    refine ⟨h.key, Log.forall_set h.requests c ?_, h.marks⟩
    intro value hvalue
    obtain ⟨stored, hstored, rfl⟩ := Option.map_eq_some_iff.mp hvalue
    exact h.key stored hstored
  next value modRevision hr =>
    have hvalue : s.InScope value := h.requests _ (mem_of_getElem? hr) value rfl
    have hset' : ∀ answer, ∀ r ∈ s.requests.set c (.txn value modRevision answer),
        ∀ v ∈ r.value, s.InScope v := by
      intro answer
      refine Log.forall_set h.requests c ?_
      rintro _ ⟨⟩
      exact hvalue
    split at hstep
    · cases hstep
      refine ⟨?_, hset' _, h.marks⟩
      rintro _ ⟨⟩
      exact hvalue
    · cases hstep
      exact ⟨h.key, hset' _, h.marks⟩
  next => cases hstep

end Steps

end Sys

/-! ## Runs -/

/-- When a call goes on with what it has read, the marks of its node are those of the live job
set. -/
def Sys.MarksLive (s : Sys) : Event → Prop
  | .deliver w => ∀ writer ∈ s.writers[w]?, ∀ c ∈ writer.awaits, ∀ stored,
      s.requests[c]? = some (.range (some stored)) →
        (s.node writer.node).sets.marks = [] ∨
          (s.node writer.node).sets.marksId = some (s.node writer.node).live
  | _ => True

/-- A step in which no merge takes marks of another job set. -/
def LiveStep (s : Sys) (event : Event) (s' : Sys) : Prop :=
  s.step event = some s' ∧ s.MarksLive event

/-- Such a step keeps the invariant. -/
lemma Sys.Inv.step {s s' : Sys} {event : Event} (h : s.Inv) (hstep : LiveStep s event s') :
    s'.Inv := by
  obtain ⟨hstep, hlive⟩ := hstep
  cases event with
  | reload i id =>
    cases hstep
    exact h.setNode (h.marks i)
  | mark i job =>
    cases hstep
    refine Sys.Inv.casWrite ?_ i
    refine (h.marking ((s.node i).live, job)).setNode ?_
    have hmarks : (s.node i).sets.MarksIn
        fun id job' => (id, job') ∈ ((s.node i).live, job) :: s.marked :=
      (h.marks i).mono fun _ _ hmem => mem_cons_of_mem _ hmem
    exact hmarks.mark mem_cons_self
  | query i job =>
    cases hstep
    exact h.setNode (((h.marks i).reconcileLocal _).reconcileObserved _)
  | sync i due =>
    have hnode := h.setNode (i := i) (n := { s.node i with
        sets := ((s.node i).sets.reconcileLocal (s.node i).live).reconcileObserved
          (s.node i).live })
      (((h.marks i).reconcileLocal _).reconcileObserved _)
    simp only [Sys.step] at hstep
    split at hstep
    next =>
      cases hstep
      exact hnode.casWrite i
    next =>
      cases hstep
      exact hnode
  | land c => exact h.land hstep
  | deliver w =>
    simp only [Sys.step] at hstep
    split at hstep
    next i attempt c hw =>
      split at hstep
      next stored hr =>
        cases hstep
        refine h.merge ?_ (hlive _ hw c rfl stored hr)
        intro v hv
        exact h.requests _ (mem_of_getElem? hr) v.1 (by rw [hv]; rfl)
      next succeeded hr =>
        cases hstep
        unfold Sys.retry
        split
        · exact h.setWriter w _
        · exact (h.setWriter w _).send (by rintro value ⟨⟩)
      next => cases hstep
    next => cases hstep
  | fail w =>
    simp only [Sys.step] at hstep
    split at hstep
    next =>
      cases hstep
      exact h.setWriter w _
    next => cases hstep

/-- When writes are put together only from marks of the live job set, the stored value names only
jobs that were marked while its id was live. -/
theorem stored_marks_scoped {events : List Event} {s : Sys}
    (hrun : Trace.Run LiveStep Sys.init events s) :
    ∀ value revision, s.key = some (value, revision) →
      ∀ job ∈ value.jobs, (value.jobSetId, job) ∈ s.marked := by
  intro value revision hkey
  have hinv : s.Inv := hrun.invariant (fun _ _ _ h hstep => h.step hstep) Sys.inv_init
  exact hinv.key (value, revision) hkey

section Runs

/-- A node marks a job; the reload to job set `B` comes while its read is under way. -/
private def reloading : List Event :=
  [.reload "a" "A", .mark "a" "boot", .land 0, .reload "a" "B", .deliver 0, .land 1]

/-- The mark that was made under `A` is stored under `B`, where nobody has made it. -/
theorem marks_laundered :
    (Sys.init.exec reloading).map (fun s => (s.key, s.marked)) =
      some (some (⟨"B", ["boot"]⟩, 2), [("A", "boot")]) := by
  decide +kernel

/-- `Sys.MarksLive` as a check. -/
private def marksLive (s : Sys) : Event → Bool
  | .deliver w => s.writers[w]?.all fun writer => decide
      ((s.node writer.node).sets.marksId = some (s.node writer.node).live)
  | _ => true

/-- The step, if it is such a one. -/
private def liveStep (s : Sys) (event : Event) : Option Sys :=
  if marksLive s event then s.step event else none

private lemma liveStep_of_eq (s : Sys) (event : Event) (s' : Sys)
    (h : liveStep s event = some s') : LiveStep s event s' := by
  unfold liveStep at h
  split at h
  next hlive =>
    refine ⟨h, ?_⟩
    cases event with
    | deliver w =>
      intro writer hw c _ stored _
      rw [marksLive, show s.writers[w]? = some writer from hw] at hlive
      exact .inr (by simpa using hlive)
    | _ => trivial
  next => cases h

/-- Two nodes of job set `A` mark a job each; the second one loses the race and tries again. Then
one of them moves on to `B`. -/
private def marking : List Event :=
  [.reload "a" "A", .reload "b" "A", .mark "a" "boot", .mark "b" "init", .land 0, .land 1,
    .deliver 0, .deliver 1, .land 2, .land 3, .deliver 0, .deliver 1, .land 4, .deliver 1, .land 5,
    .deliver 1, .reload "a" "B", .sync "a" true]

/-- The key then has both jobs, and both were marked under `A`. -/
theorem stored_marks_scoped_race :
    ∃ s, Trace.Run LiveStep Sys.init marking s ∧
      s.key = some (⟨"A", ["boot", "init"]⟩, 3) ∧
      ∀ job ∈ ["boot", "init"], ("A", job) ∈ s.marked := by
  have hmap : (marking.foldlM liveStep Sys.init).map Sys.key =
      some (some (⟨"A", ["boot", "init"]⟩, 3)) := by
    decide +kernel
  obtain ⟨s, hs, hkey⟩ := Option.map_eq_some_iff.mp hmap
  have hrun := (Trace.Run.of_foldlM hs).mono liveStep_of_eq
  exact ⟨s, hrun, hkey, stored_marks_scoped hrun _ _ hkey⟩

end Runs

end Cronstable.Election.Etcd
