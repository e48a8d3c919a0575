import Cronstable.Election.FilesystemRan
import Cronstable.Election.FilesystemSafety

/-!
# When a leader may answer that a job has not run

A leader launches a deferred `@reboot` job once `reboot_ran` answers `False`. The answer comes from
a set that was read from the stream at some time, so `FilesystemBackend` keeps a flag
(`_reboot_ran_synced`): it is cleared when the node gains leadership, set by the next re-read that
completes, and while it is cleared a leader raises instead of answering `False`.

The set belongs to a job set as well, and `reboot_ran` drops it once another id is live. The flag
stays: after a reload the leader answers `False` from an empty set, though the stream may have had
the record before the node gained leadership (`reloaded_leader_denies`). `not_ran_sound` is the
result for runs in which a node that answers from what it has re-read is only reloaded to a job set
whose set it has, or of which the re-read showed nothing.

`Sys` puts the election (`Filesystem.Sys`) and the sets of each node (`FilesystemRan.Sys`) together:
a round that gets that far makes a pass of `_maintain_reboot_ran`, which waits for a re-read and
then for a persist. The nodes share the stream.
-/

namespace Cronstable.Election.RanGate

open List Option FilesystemRan.Sys Filesystem.Node Filesystem.Phase

open Store (Time Lease)
open FilesystemRan (Record keep)

/-- `_REBOOT_RAN_REFRESH`. -/
def refreshPeriod : Time := 60

/-- Where a pass of `_maintain_reboot_ran` is. -/
inductive Pass
  /-- It waits for `_refresh_reboot_ran`, and knows what the node was when the pass began. -/
  | refreshing (refresh : ℕ) (leaderish : Bool)
  /-- It waits for `_persist_reboot_ran`. -/
  | persisting (persist : ℕ)
  deriving DecidableEq, Repr

/-- What a node remembers of the jobs that ran. -/
structure Mem where
  /-- Its sets and its calls. The stream is the shared one (`Sys.view`). -/
  ran : FilesystemRan.Sys
  /-- `_reboot_ran_synced`. -/
  synced : Bool := false
  /-- `_reboot_refresh_next`. -/
  refreshNext : Time := 0
  pass : Option Pass := none
  /-- The records that had landed when the node gained its current leadership. -/
  before : List Record := []
  /-- The records that its last completed re-read returned. -/
  seen : List Record := []

/-- The election, the stream and the nodes. -/
structure Sys where
  election : Filesystem.Sys
  /-- Newest first. -/
  stream : List Record
  /-- All records that ever landed. -/
  appended : List Record
  mems : String → Mem

/-- What happens in the system. -/
inductive Event
  /-- A step of the election. -/
  | election (e : Filesystem.Event)
  /-- A reload, a mark, a query, or a step of one of the node's store operations and persists. -/
  | ran (node : String) (e : FilesystemRan.Event)
  /-- The re-read of a pass is complete. -/
  | refreshed (node : String)
  /-- It raises. -/
  | unread (node : String)
  /-- The pass is over. -/
  | maintained (node : String)

namespace Sys

/-- The nodes remember nothing. The election and the stream are whatever they were. -/
def init (election : Filesystem.Sys) (stream : List Record) (live : String → String) : Sys :=
  ⟨election, stream, stream, fun i => { ran := { live := live i } }⟩

/-- What a node works on. -/
def view (s : Sys) (i : String) : FilesystemRan.Sys :=
  { (s.mems i).ran with stream := s.stream, appended := s.appended }

/-- What a node remembers changes. -/
def setMem (s : Sys) (i : String) (m : Mem) : Sys := { s with mems := Function.update s.mems i m }

/-- A node has worked on its sets or on the stream. -/
def put (s : Sys) (i : String) (ran : FilesystemRan.Sys) : Sys :=
  { s with stream := ran.stream, appended := ran.appended }.setMem i { s.mems i with ran }

/-- `reboot_ran`. A leader that has not re-read the stream raises. -/
def rebootRan (s : Sys) (i job : String) : Option Bool :=
  let m := s.mems i
  if (m.ran.sets.rebootRan m.ran.live job).1 then some true
  else if (s.election.node i).isLeader && !m.synced then none
  else some false

/-! ## Passes -/

/-- The node leads, or has a lease in hand. -/
def leaderish (s : Sys) (i : String) : Bool :=
  (s.election.node i).isLeader || (s.election.node i).lease.isSome

/-- The pass comes to `_persist_reboot_ran`. -/
def persist (s : Sys) (i : String) : Sys :=
  let s' := s.put i (s.view i).beginPersist
  s'.setMem i { s'.mems i with pass := some (.persisting (s.view i).persists.length) }

/-- `_maintain_reboot_ran` up to its first wait. The re-read is throttled, except for a leader that
needs it. -/
def maintain (s : Sys) (i : String) : Option Sys :=
  let m := s.mems i
  if s.leaderish i && !m.synced || decide (m.refreshNext ≤ s.election.time) then
    ((s.view i).step .refresh).map fun ran =>
      let s' := s.put i ran
      s'.setMem i
        { s'.mems i with pass := some (.refreshing (s.view i).refreshes.length (s.leaderish i)) }
  else some (s.persist i)

/-- Leadership is gained: what was read before does not count. -/
def gain (s : Sys) (i : String) : Sys :=
  s.setMem i { s.mems i with synced := false, before := s.appended }

/-- A round is cut short, and its pass with it. Store operations may still be carried out. -/
def cancel (s : Sys) (i : String) : Sys :=
  let ran := match (s.mems i).pass with
    | some (.refreshing f _) => (s.view i).step (.failRefresh f)
    | some (.persisting p) => (s.view i).step (.fail p)
    | none => none
  let s' := s.put i (ran.getD (s.view i))
  s'.setMem i { s'.mems i with pass := none }

/-- The re-read is complete: the set and the flag, the throttle, and on to the persist. -/
def refreshed (s : Sys) (i : String) : Option Sys :=
  match (s.mems i).pass with
  | some (.refreshing f _) =>
    ((s.view i).step (.refreshed f)).map fun ran =>
      let s' := s.put i ran
      let records := ((s.view i).refreshes[f]?).join.bind (s.view i).done
      (s'.setMem i { s'.mems i with
        synced := true, refreshNext := s.election.time + refreshPeriod
        seen := records.getD [] }).persist i
  | _ => none

/-- The re-read raises: a follower waits for the next period, a leader tries again next round. -/
def unread (s : Sys) (i : String) : Option Sys :=
  match (s.mems i).pass with
  | some (.refreshing f leaderish) =>
    ((s.view i).step (.failRefresh f)).map fun ran =>
      let s' := s.put i ran
      let m := s'.mems i
      let throttled := !m.synced && !leaderish
      (s'.setMem i { m with
        refreshNext := if throttled then s.election.time + refreshPeriod else m.refreshNext
        }).persist i
  | _ => none

/-- The persist has returned or raised. -/
def persisted (s : Sys) (i : String) : Bool :=
  match (s.mems i).pass with
  | some (.persisting p) => ((s.view i).persists[p]?).any fun persist =>
    persist.phase = .returned || persist.phase = .raised
  | _ => false

/-! ## Steps -/

/-- What a step of the election means for the sets. -/
def follow (s : Sys) : Filesystem.Event → Option Sys
  | .deliver i =>
    match (s.election.node i).phase with
    | .gaining .. => (s.gain i).maintain i
    | .maintaining => s.maintain i
    | _ => some s
  | .abandon i | .stop i => some (s.cancel i)
  | .maintained _ => none
  | _ => some s

/-- One step of the election, of a node's sets or of a pass. -/
def step (name : String) (ttl : Time) (s : Sys) : Event → Option Sys
  | .election e =>
    (s.election.step name ttl e).bind fun election => { s with election }.follow e
  | .ran i e =>
    match e with
    | .reload _ | .mark _ | .query _ | .land _ | .deliver _ | .fail _ =>
      ((s.view i).step e).map (s.put i)
    | _ => none
  | .refreshed i => s.refreshed i
  | .unread i => s.unread i
  | .maintained i =>
    if s.persisted i then
      (s.election.step name ttl (.maintained i)).map fun election =>
        { s with election }.setMem i { s.mems i with pass := none }
    else none

end Sys

/-! ## What a step of a node leaves alone -/

lemma getElem?_of_prefix {α : Type*} {l l' : List α} (h : l <+: l') {k : ℕ} {a : α}
    (hk : l[k]? = some a) : l'[k]? = some a := by
  obtain ⟨rest, rfl⟩ := h
  exact Log.append_some hk rest

namespace Ran

/-- A step that neither reads the stream nor changes it. -/
structure Frame (s t : FilesystemRan.Sys) : Prop where
  calls : s.calls <+: t.calls
  refreshes : s.refreshes <+: t.refreshes
  stream : t.stream = s.stream
  appended : t.appended = s.appended
  live : t.live = s.live
  ran : t.sets.ran = s.sets.ran
  ranId : t.sets.ranId = s.sets.ranId

variable {s t u : FilesystemRan.Sys} {job : String}

/-- Two such steps make one. -/
lemma Frame.trans (h : Frame s t) (h' : Frame t u) : Frame s u :=
  ⟨h.calls.trans h'.calls, h.refreshes.trans h'.refreshes, h'.stream.trans h.stream,
    h'.appended.trans h.appended, h'.live.trans h.live, h'.ran.trans h.ran,
    h'.ranId.trans h.ranId⟩

/-- A persist that goes on only sends. -/
lemma frame_advance (s : FilesystemRan.Sys) (id : String) (jobs : List String) :
    Frame s (s.advance id jobs).1 := by
  obtain ⟨op, heq⟩ := advance_fst s id jobs
  rw [heq]
  exact ⟨prefix_append _ _, prefix_rfl, rfl, rfl, rfl, rfl, rfl⟩

/-- The marks are reconciled, and what was read stays. -/
lemma sets_reconcileLocal (current : String) (r : RanSets) :
    (r.reconcileLocal current).ran = r.ran ∧ (r.reconcileLocal current).ranId = r.ranId := by
  unfold RanSets.reconcileLocal
  split <;> exact ⟨rfl, rfl⟩

/-- A set of the live job set is what `reboot_ran` answers from, and it stays. -/
theorem rebootRan_of_live {current : String} {r : RanSets} (hid : r.ranId = some current)
    (job : String) : (r.rebootRan current job).2.ran = r.ran ∧
      (r.rebootRan current job).2.ranId = some current ∧
      (job ∈ r.ran → (r.rebootRan current job).1) := by
  obtain ⟨hran, hid'⟩ := sets_reconcileLocal current r
  have hkeep : (r.reconcileLocal current).reconcileObserved current = r.reconcileLocal current :=
    if_neg (not_not.mpr (hid'.trans hid))
  simp only [RanSets.rebootRan, hkeep, decide_eq_true_eq]
  exact ⟨hran, hid'.trans hid, fun hjob => .inl (hran ▸ hjob)⟩

/-- Rescoping concerns the marks and the note. -/
lemma frame_rescope (s : FilesystemRan.Sys) : Frame s s.rescope := by
  unfold rescope
  obtain ⟨persisted, heq⟩ := notePersisted_eq
    { s with sets := s.sets.reconcileLocal s.live } s.live []
  rw [heq]
  obtain ⟨hran, hid⟩ := sets_reconcileLocal s.live s.sets
  exact ⟨prefix_rfl, prefix_rfl, rfl, rfl, rfl, hran, hid⟩

/-- A persist that begins only sends. -/
lemma frame_beginPersist (s : FilesystemRan.Sys) : Frame s s.beginPersist := by
  unfold beginPersist
  dsimp only
  split
  · exact { frame_rescope s with }
  · exact { (frame_rescope s).trans (frame_advance s.rescope s.rescope.live _) with }

/-- A persist that goes on notes and sends. -/
lemma frame_deliver {p : ℕ} (hstep : s.deliver p = some t) : Frame s t := by
  unfold deliver at hstep
  split at hstep
  case h_1 id c job rest hp =>
    obtain ⟨-, hstep⟩ := ite_none_right_eq_some.mp hstep
    cases hstep
    exact { frame_advance { s with persisted := s.persisted.insert job } id rest with }
  case h_2 =>
    obtain ⟨-, hstep⟩ := ite_none_right_eq_some.mp hstep
    cases hstep
    exact ⟨prefix_rfl, prefix_rfl, rfl, rfl, rfl, rfl, rfl⟩
  case h_3 => cases hstep

/-- A persist that fails only ends. -/
lemma frame_fail {p : ℕ} (hstep : s.fail p = some t) : Frame s t := by
  unfold fail at hstep
  split at hstep
  case h_3 => cases hstep
  all_goals
    cases hstep
    exact ⟨prefix_rfl, prefix_rfl, rfl, rfl, rfl, rfl, rfl⟩

/-- A mark is not read from the stream. -/
lemma frame_mark (hstep : s.step (.mark job) = some t) : Frame s t := by
  cases hstep
  have hmark : Frame s { s with sets := s.sets.mark s.live job } := by
    obtain ⟨hran, hid⟩ := sets_reconcileLocal s.live s.sets
    exact ⟨prefix_rfl, prefix_rfl, rfl, rfl, rfl, hran, hid⟩
  exact hmark.trans (frame_beginPersist _)

/-- A refresh that begins only sends. -/
lemma frame_refresh (hstep : s.step .refresh = some t) : Frame s t := by
  cases hstep
  exact ⟨prefix_append _ _, prefix_append _ _, rfl, rfl, rfl, rfl, rfl⟩

end Ran

/-! ## What a leader knows -/

/-- The re-read has been sent, and if it was carried out then it has these records. -/
def Awaits (ran : FilesystemRan.Sys) (f : ℕ) (before : List Record) : Prop :=
  ∃ c call, ran.refreshes[f]? = some (some c) ∧ ran.calls[c]? = some call ∧ call.op = .list ∧
    ∀ records, call.answer = some records → ∀ r ∈ before, r ∈ records

/-- The set of a node has what was seen of its job set. It is the live one, if anything was seen of
that. -/
structure Holds (seen : List Record) (live : String) (sets : RanSets) : Prop where
  ran : ∀ id, sets.ranId = some id → ∀ job, ⟨id, job⟩ ∈ seen → job ∈ sets.ran
  live : ∀ job, ⟨live, job⟩ ∈ seen → sets.ranId = some live

/-- It depends on the set and the id that it belongs to. -/
theorem Holds.congr {seen : List Record} {live : String} {sets sets' : RanSets}
    (h : Holds seen live sets) (hran : sets'.ran = sets.ran) (hid : sets'.ranId = sets.ranId) :
    Holds seen live sets' := by
  refine ⟨?_, ?_⟩
  · rw [hran, hid]
    exact h.ran
  · rw [hid]
    exact h.live

/-- A query keeps the set of the live job set, and drops another one. -/
theorem Holds.rebootRan {seen : List Record} {live : String} {sets : RanSets}
    (h : Holds seen live sets) (job : String) : Holds seen live (sets.rebootRan live job).2 := by
  by_cases hid : sets.ranId = some live
  · obtain ⟨hran, hid', -⟩ := Ran.rebootRan_of_live hid job
    exact h.congr hran (hid'.trans hid.symm)
  · -- nothing was seen of the live job set, and no set is kept
    have hnone : (sets.rebootRan live job).2.ranId = none := by
      have hid' : (sets.reconcileLocal live).ranId ≠ some live :=
        (Ran.sets_reconcileLocal live sets).2 ▸ hid
      simp [RanSets.rebootRan, RanSets.reconcileObserved, hid']
    exact ⟨by simp [hnone], fun job' hjob' => absurd (h.live job' hjob') hid⟩

/-- The last re-read was of a stream that had all that landed before leadership was gained, and the
node has what it showed. -/
structure Mem.Knows (m : Mem) : Prop where
  before : ∀ r ∈ m.before, r ∈ m.seen
  holds : Holds m.seen m.ran.live m.ran.sets

/-- Leadership is gained, and perhaps applied. -/
def Won (n : Filesystem.Node) : Prop := n.isLeader ∨ n.phase.gained.isSome

variable {ttl : Time} {name : String}

section Election

variable {s t : Filesystem.Sys} {i j : String}

lemma node_of_nodes {n : Filesystem.Node} (ht : t.nodes = s.nodes.set i n) :
    t.node j = if j = i then n else s.node j := by
  unfold Filesystem.Sys.node
  rw [ht, Dict.get?_set]
  split <;> rfl

/-- A step of one node that does not gain leadership. -/
theorem won_of_nodes {n : Filesystem.Node} (ht : t.nodes = s.nodes.set i n)
    (hlead : n.isLeader → Won (s.node i)) (hphase : n.phase.gained = none)
    (hwon : Won (t.node j)) : Won (s.node j) := by
  rw [node_of_nodes ht] at hwon
  split at hwon
  case isTrue hj =>
    rw [hj]
    exact hlead (hwon.resolve_right (by simp [hphase]))
  case isFalse => exact hwon

/-- Leadership is gained by the answer to a renew or an acquire. -/
theorem won_of_deliver (hstep : s.deliver ttl i = some t) (hwon : Won (t.node j)) :
    Won (s.node j) ∨ j = i ∧ ((t.node i).phase.gained).isSome := by
  have hkeep {n : Filesystem.Node} (ht : t.nodes = s.nodes.set i n)
      (hlead : n.isLeader → (s.node i).isLeader) (hphase : n.phase.gained = none) :
      Won (s.node j) ∨ j = i ∧ ((t.node i).phase.gained).isSome :=
    .inl (won_of_nodes ht (fun h => .inl (hlead h)) hphase hwon)
  have hgain {n : Filesystem.Node} (ht : t.nodes = s.nodes.set i n)
      (hphase : n.phase.gained.isSome) :
      Won (s.node j) ∨ j = i ∧ ((t.node i).phase.gained).isSome := by
    by_cases hj : j = i
    · exact .inr ⟨hj, by rwa [node_of_nodes ht, if_pos rfl]⟩
    · rw [node_of_nodes ht, if_neg hj] at hwon
      exact .inl hwon
  -- who counts as leader without a gain has the flag
  have hleads {n : Filesystem.Node} {mono : Time} (h : n.leads mono = true) : n.isLeader := by
    simp only [leads, Bool.and_eq_true] at h
    exact h.1.1
  unfold Filesystem.Sys.deliver at hstep
  split at hstep
  case h_1 c anchor hp =>
    obtain ⟨answer, -, rfl⟩ := map_eq_some_iff.mp hstep
    cases answer with
    | none => exact hkeep rfl id rfl
    | some lease =>
      by_cases hlead : ({ s.node i with lease := some lease } : Filesystem.Node).leads s.time
      · refine hkeep (congrArg _ (if_pos hlead)) (fun _ => hleads hlead) rfl
      · exact hgain (congrArg _ (if_neg hlead)) rfl
  case h_2 c hp =>
    obtain ⟨answer, -, rfl⟩ := map_eq_some_iff.mp hstep
    cases answer with
    | none => exact hkeep rfl id rfl
    | some lease =>
      by_cases hown : lease.holder = i
      · exact hkeep (congrArg _ (if_pos hown)) (by simp [applyFollower]) rfl
      · by_cases hlive : s.wall i - Filesystem.skewSeconds < lease.expiresAt
        · exact hkeep (congrArg _ ((if_neg hown).trans (if_pos hlive)))
            (by simp [applyFollower]) rfl
        · exact hkeep (congrArg _ ((if_neg hown).trans (if_neg hlive))) id rfl
  case h_3 c anchor hp =>
    obtain ⟨answer, -, rfl⟩ := map_eq_some_iff.mp hstep
    cases answer with
    | none => exact hkeep rfl id rfl
    | some lease =>
      by_cases hlead : (s.node i).wasLeader &&
        ({ s.node i with lease := some lease } : Filesystem.Node).leads s.time
      · refine hkeep (congrArg _ (if_pos hlead)) (fun _ => ?_) rfl
        exact hleads (Bool.and_eq_true_iff.mp hlead).2
      · exact hgain (congrArg _ (if_neg hlead)) rfl
  case h_4 c hp =>
    obtain ⟨answer, -, rfl⟩ := map_eq_some_iff.mp hstep
    cases answer with
    | none => exact hkeep rfl id rfl
    | some lease => exact hkeep rfl (by simp [applyFollower]) rfl
  case h_5 => cases hstep

/-- Leadership is gained only where a round learns that it has the lease. -/
lemma won_of_step {e : Filesystem.Event} (hstep : s.step name ttl e = some t)
    (hwon : Won (t.node j)) :
    Won (s.node j) ∨ e = .deliver j ∧ ((t.node j).phase.gained).isSome := by
  cases e with
  | tick elapsed wall =>
    cases hstep
    exact .inl hwon
  | round i =>
    obtain ⟨-, hstep⟩ := ite_none_right_eq_some.mp hstep
    cases hstep
    refine .inl ?_
    unfold Filesystem.Sys.startRound at hwon
    dsimp only at hwon
    split at hwon <;> exact won_of_nodes rfl (fun h => .inl (by exact h)) rfl hwon
  | land c io =>
    simp only [Filesystem.Sys.step] at hstep
    split at hstep
    · cases hstep
      exact .inl hwon
    · cases hstep
  | deliver i =>
    rcases won_of_deliver hstep hwon with h | ⟨rfl, h⟩
    · exact .inl h
    · exact .inr ⟨rfl, h⟩
  | abandon i =>
    cases hstep
    exact .inl (won_of_nodes rfl (fun h => .inl (by exact h)) rfl hwon)
  | maintained i =>
    simp only [Filesystem.Sys.step] at hstep
    split at hstep
    case h_1 hphase =>
      cases hstep
      refine .inl (won_of_nodes rfl (fun _ => .inr ?_) rfl hwon)
      simp [hphase, gained]
    case h_2 =>
      cases hstep
      exact .inl (won_of_nodes rfl (fun h => .inl (by exact h)) rfl hwon)
    case h_3 => cases hstep
  | stop i =>
    obtain ⟨-, hstep⟩ := ite_none_right_eq_some.mp hstep
    cases hstep
    refine .inl ?_
    unfold Filesystem.Sys.stop at hwon
    dsimp only at hwon
    split at hwon <;> exact won_of_nodes rfl (fun h => by cases h) rfl hwon

end Election

/-- What holds of a node, given the stream and whether it has won. -/
structure Mem.Inv (stream : List Record) (won : Prop) (m : Mem) : Prop where
  before : ∀ r ∈ m.before, r ∈ stream
  awaits : ∀ f b, m.pass = some (.refreshing f b) → Awaits m.ran f m.before
  knows : m.synced → won → m.Knows

/-- A pass begins or ends. -/
lemma Mem.Inv.setPass {stream : List Record} {won : Prop} {m : Mem} (h : m.Inv stream won)
    {pass : Option Pass}
    (hpass : ∀ f b, pass = some (.refreshing f b) → Awaits m.ran f m.before) :
    ({ m with pass } : Mem).Inv stream won :=
  ⟨h.before, hpass,
    fun hsynced hwon => ⟨(h.knows hsynced hwon).before, (h.knows hsynced hwon).holds⟩⟩

variable {ran : FilesystemRan.Sys}

namespace Sys

/-- The node answers, or will, from what it has re-read. -/
def Answers (s : Sys) (i : String) : Prop := (s.mems i).synced ∧ Won (s.election.node i)

/-- A node that answers from what it has re-read is reloaded to a job set of which the re-read
showed nothing, or whose set it has. -/
def Scoped (s : Sys) : Event → Prop
  | .ran i (.reload id) => s.Answers i →
      (∀ job, ⟨id, job⟩ ∉ (s.mems i).seen) ∨ (s.mems i).ran.sets.ranId = some id
  | _ => True

/-- What the runs keep, while nothing is pruned. -/
structure Inv (s : Sys) : Prop where
  landed : ∀ r ∈ s.appended, r ∈ s.stream
  mems : ∀ i, (s.mems i).Inv s.stream (Won (s.election.node i))

/-! ## Steps of one node -/

section Steps

variable {s t : Sys} {i job : String}

lemma mems_setMem (s : Sys) (i : String) (m : Mem) : (s.setMem i m).mems i = m :=
  Function.update_self ..

lemma mems_setMem_ne (s : Sys) {i j : String} (hj : j ≠ i) (m : Mem) :
    (s.setMem i m).mems j = s.mems j :=
  Function.update_of_ne hj ..

/-- A step of one node that leaves the stream as it is. -/
theorem Inv.setMem (h : s.Inv) {m : Mem} (helection : t.election = s.election)
    (hstream : t.stream = s.stream) (happended : t.appended = s.appended)
    (hothers : ∀ j, j ≠ i → t.mems j = s.mems j)
    (hm : m.Inv s.stream (Won (s.election.node i))) : (t.setMem i m).Inv := by
  refine ⟨fun r hr => ?_, fun j => ?_⟩
  · exact hstream ▸ h.landed r (happended ▸ hr)
  · show ((t.setMem i m).mems j).Inv t.stream (Won (t.election.node j))
    rw [hstream, helection]
    by_cases hj : j = i
    · rwa [hj, mems_setMem]
    · rw [mems_setMem_ne _ hj, hothers j hj]
      exact h.mems j

/-- A step of the sets that neither reads the stream nor changes it. -/
theorem Inv.framed (h : s.Inv) (hf : Ran.Frame (s.view i) ran) :
    ({ s.mems i with ran } : Mem).Inv s.stream (Won (s.election.node i)) where
  before := (h.mems i).before
  awaits f b hpass := by
    obtain ⟨c, call, hc, hcall, hop, hanswer⟩ := (h.mems i).awaits f b hpass
    refine ⟨c, call, ?_, ?_, hop, hanswer⟩
    · exact getElem?_of_prefix hf.refreshes hc
    · exact getElem?_of_prefix hf.calls hcall
  knows hsynced hwon :=
    have hknows := (h.mems i).knows hsynced hwon
    ⟨hknows.before, hf.live ▸ hknows.holds.congr hf.ran hf.ranId⟩

/-- The pass of a node is forgotten. -/
def unpass (s : Sys) (i : String) : Sys := s.setMem i { s.mems i with pass := none }

/-- What a node knows does not depend on its pass. -/
lemma Inv.unpass (h : s.Inv) (i : String) : (s.unpass i).Inv :=
  h.setMem rfl rfl rfl (fun _ _ => rfl) ((h.mems i).setPass nofun)

lemma view_unpass (s : Sys) (i : String) : (s.unpass i).view i = s.view i := by
  unfold view Sys.unpass
  rw [mems_setMem]
  rfl

/-- Whatever the pass was, the sets take a step and another one begins. -/
theorem Inv.passes (h : (s.unpass i).Inv) (hf : Ran.Frame (s.view i) ran) {pass : Option Pass}
    (hpass : ∀ f b, pass = some (.refreshing f b) → Awaits ran f (s.mems i).before) :
    ((s.put i ran).setMem i { (s.put i ran).mems i with pass }).Inv := by
  have hm := h.framed ((view_unpass s i).symm ▸ hf)
  refine h.setMem rfl hf.stream hf.appended (fun j hj => ?_) ?_
  · rw [Sys.unpass, mems_setMem_ne _ hj, put, mems_setMem_ne _ hj]
  · rw [put, mems_setMem]
    rw [Sys.unpass, mems_setMem] at hm
    exact hm.setPass hpass

/-- A pass comes to its persist. -/
lemma Inv.persist (h : (s.unpass i).Inv) : (s.persist i).Inv :=
  h.passes (Ran.frame_beginPersist _) nofun

/-- Whatever the pass was, the next one begins. -/
theorem Inv.maintain (h : (s.unpass i).Inv) (hstep : s.maintain i = some t) : t.Inv := by
  unfold Sys.maintain at hstep
  dsimp only at hstep
  split at hstep
  case isFalse =>
    cases hstep
    exact h.persist
  case isTrue =>
    obtain ⟨ran, hran, rfl⟩ := map_eq_some_iff.mp hstep
    refine h.passes (Ran.frame_refresh hran) ?_
    rintro f b ⟨⟩
    -- the listing was just sent
    cases hran
    exact ⟨_, ⟨.list, none⟩, List.getElem?_concat_length, List.getElem?_concat_length, rfl, nofun⟩

section

variable (h : s.Inv)

include h

/-- A step of the sets that leaves what was read alone, and with it the pass ends. -/
theorem Inv.quiet (ran : FilesystemRan.Sys) (hlive : ran.live = (s.mems i).ran.live)
    (hran : ran.sets.ran = (s.mems i).ran.sets.ran)
    (hid : ran.sets.ranId = (s.mems i).ran.sets.ranId) (refreshNext : Time) :
    ({ s.mems i with ran, refreshNext, pass := none } : Mem).Inv s.stream
      (Won (s.election.node i)) where
  before := (h.mems i).before
  awaits := nofun
  knows hsynced hwon :=
    have hknows := (h.mems i).knows hsynced hwon
    ⟨hknows.before, hlive ▸ hknows.holds.congr hran hid⟩

/-- A round that is cut short leaves what was read. -/
lemma Inv.cancel (i : String) : (s.cancel i).Inv := by
  have hclose {ran : FilesystemRan.Sys} (hstream : ran.stream = s.stream)
      (happended : ran.appended = s.appended) (hlive : ran.live = (s.mems i).ran.live)
      (hran : ran.sets.ran = (s.mems i).ran.sets.ran)
      (hid : ran.sets.ranId = (s.mems i).ran.sets.ranId) :
      ((s.put i ran).setMem i { (s.put i ran).mems i with pass := none }).Inv := by
    refine h.setMem rfl hstream happended (fun j hj => mems_setMem_ne _ hj _) ?_
    rw [put, mems_setMem]
    exact h.quiet ran hlive hran hid _
  unfold Sys.cancel
  split
  case h_1 | h_3 => exact hclose rfl rfl rfl rfl rfl
  case h_2 p hpass =>
    cases hfail : (s.view i).step (.fail p) with
    | none => exact hclose rfl rfl rfl rfl rfl
    | some ran =>
      have hf : Ran.Frame (s.view i) ran := Ran.frame_fail hfail
      exact hclose hf.stream hf.appended hf.live hf.ran hf.ranId

/-- A re-read that raises leaves what was read. -/
lemma Inv.unread (hstep : s.unread i = some t) : t.Inv := by
  unfold Sys.unread at hstep
  split at hstep
  case h_2 => cases hstep
  case h_1 f b hpass =>
    obtain ⟨ran, hran, rfl⟩ := map_eq_some_iff.mp hstep
    cases hran
    refine Inv.persist (h.setMem rfl rfl rfl (fun j hj => ?_) ?_)
    · rw [mems_setMem_ne _ hj, put, mems_setMem_ne _ hj]
    · rw [mems_setMem, put, mems_setMem]
      exact h.quiet { s.view i with refreshes := (s.view i).refreshes.set f none } rfl rfl rfl _

/-- A re-read that is complete: it shows all that landed before leadership was gained. -/
theorem Inv.refreshed (hstep : s.refreshed i = some t) : t.Inv := by
  unfold Sys.refreshed at hstep
  split at hstep
  case h_2 => cases hstep
  case h_1 f b hpass =>
    obtain ⟨ran, hran, rfl⟩ := map_eq_some_iff.mp hstep
    obtain ⟨c, call, hc, hcall, -, hanswer⟩ := (h.mems i).awaits f b hpass
    have hview : (s.view i).refreshes[f]? = some (some c) := hc
    simp only [FilesystemRan.Sys.step, FilesystemRan.Sys.refreshed, hview] at hran
    obtain ⟨records, hdone, rfl⟩ := map_eq_some_iff.mp hran
    have hread : call.answer = some records := by
      obtain ⟨call', hcall', hanswer'⟩ := bind_eq_some_iff.mp hdone
      obtain rfl := mem_unique hcall hcall'
      exact hanswer'
    obtain ⟨persisted, heq⟩ := notePersisted_eq
      { s.view i with
        sets := (s.view i).sets.observe (s.view i).live (some (s.view i).live)
          ((records.filter fun record => record.jobSetId = (s.view i).live).map Record.job)
        refreshes := (s.view i).refreshes.set f none }
      (s.view i).live
      ((records.filter fun record => record.jobSetId = (s.view i).live).map Record.job)
    rw [heq]
    refine Inv.persist (h.setMem rfl rfl rfl (fun j hj => ?_) ?_)
    · rw [mems_setMem_ne _ hj, put, mems_setMem_ne _ hj]
    · rw [mems_setMem, put, mems_setMem]
      refine ⟨(h.mems i).before, by simp, fun _ _ => ⟨?_, ?_, fun _ _ => rfl⟩⟩
      · simp only [hview, join_some, bind_some, hdone, getD_some]
        exact hanswer records hread
      · rintro id ⟨⟩ job hjob
        simp only [hview, join_some, bind_some, hdone, getD_some] at hjob
        simp only [RanSets.observe, if_true]
        exact mem_map.mpr ⟨_, mem_filter.mpr ⟨hjob, by simp⟩, rfl⟩

/-- Leadership is gained: nothing counts as read, and what has landed is in the stream. -/
theorem Inv.gain {election : Filesystem.Sys}
    (hwon : ∀ j, j ≠ i → Won (election.node j) → Won (s.election.node j)) :
    (({ s with election } : Sys).gain i).unpass i |>.Inv where
  landed := h.landed
  mems j := by
    by_cases hj : j = i
    · subst hj
      rw [Sys.unpass, mems_setMem, Sys.gain, mems_setMem]
      exact ⟨h.landed, nofun, nofun⟩
    · rw [Sys.unpass, mems_setMem_ne _ hj, Sys.gain, mems_setMem_ne _ hj]
      have hm := h.mems j
      exact ⟨hm.before, hm.awaits, fun hsynced h' => hm.knows hsynced (hwon j hj h')⟩

/-- The election moves on, and nobody gains leadership. -/
lemma Inv.elect {election : Filesystem.Sys}
    (hwon : ∀ j, Won (election.node j) → Won (s.election.node j)) :
    ({ s with election } : Sys).Inv where
  landed := h.landed
  mems j := by
    have hm := h.mems j
    exact ⟨hm.before, hm.awaits, fun hsynced h' => hm.knows hsynced (hwon j h')⟩

/-- What a step of the election means. -/
theorem Inv.election {e : Filesystem.Event}
    (hstep : s.step name ttl (.election e) = some t) : t.Inv := by
  obtain ⟨election, he, hfollow⟩ := bind_eq_some_iff.mp hstep
  have hwon (j : String) (hj : Won (election.node j)) := won_of_step he hj
  cases e with
  | deliver i =>
    simp only [follow] at hfollow
    split at hfollow
    case h_1 lease anchor hphase =>
      refine Inv.maintain (h.gain fun j hj hwon' => ?_) hfollow
      refine (hwon j hwon').resolve_right fun ⟨heq, _⟩ => hj ?_
      cases heq
      rfl
    case h_2 hphase =>
      refine Inv.maintain (Inv.unpass (h.elect fun j hwon' => ?_) i) hfollow
      refine (hwon j hwon').resolve_right fun ⟨heq, hgained⟩ => ?_
      cases heq
      simp [hphase, gained] at hgained
    case h_3 hgaining hmaintaining =>
      cases hfollow
      refine h.elect fun j hwon' => (hwon j hwon').resolve_right fun ⟨heq, hgained⟩ => ?_
      cases heq
      cases hphase : (election.node i).phase with
      | gaining lease anchor => exact hgaining lease anchor hphase
      | _ => simp [hphase, gained] at hgained
  | abandon i | stop i =>
    cases hfollow
    exact Inv.cancel (h.elect fun j hwon' =>
      (hwon j hwon').resolve_right fun ⟨heq, _⟩ => by cases heq) i
  | maintained i => cases hfollow
  | tick | round | land =>
    cases hfollow
    exact h.elect fun j hwon' =>
      (hwon j hwon').resolve_right fun ⟨heq, _⟩ => by cases heq

/-- A pass is over. -/
lemma Inv.maintained (hstep : s.step name ttl (.maintained i) = some t) : t.Inv := by
  obtain ⟨-, hstep⟩ := ite_none_right_eq_some.mp hstep
  obtain ⟨election, he, rfl⟩ := map_eq_some_iff.mp hstep
  refine Inv.unpass (h.elect fun j hwon' => ?_) i
  exact (won_of_step he hwon').resolve_right fun ⟨heq, _⟩ => by cases heq

/-! ## Steps of the sets -/

/-- The sets of a node change in a step that reads nothing. -/
lemma Inv.put (hf : Ran.Frame (s.view i) ran) : (s.put i ran).Inv :=
  h.setMem rfl hf.stream hf.appended (fun _ _ => rfl) (h.framed hf)

/-- The stream grows, and a listing that is carried out has all of it. -/
theorem Inv.grows {calls : List FilesystemRan.StoreCall} {stream appended : List Record}
    (hgrows : ∀ r ∈ s.stream, r ∈ stream) (hlanded : ∀ r ∈ appended, r ∈ stream)
    (hcalls : ∀ (k : ℕ) (call : FilesystemRan.StoreCall), (s.view i).calls[k]? = some call →
      call.op = .list → ∃ call', calls[k]? = some call' ∧ call'.op = .list ∧
        (call'.answer = call.answer ∨ call'.answer = some s.stream)) :
    (s.put i { s.view i with calls, stream, appended }).Inv := by
  refine ⟨hlanded, fun j => ?_⟩
  have hm := h.mems j
  by_cases hj : j = i
  · subst hj
    rw [Sys.put, mems_setMem]
    refine ⟨fun r hr => hgrows r (hm.before r hr), fun f b hpass => ?_,
      fun hsynced hwon => ⟨(hm.knows hsynced hwon).before, (hm.knows hsynced hwon).holds⟩⟩
    obtain ⟨k, call, hk, hcall, hop, hanswer⟩ := hm.awaits f b hpass
    obtain ⟨call', hcall', hop', hsame | hread⟩ := hcalls k call hcall hop
    · refine ⟨k, call', hk, hcall', hop', fun records hrecords => ?_⟩
      exact hanswer records (hsame ▸ hrecords)
    · refine ⟨k, call', hk, hcall', hop', fun records hrecords => ?_⟩
      obtain rfl := mem_unique hread hrecords
      exact hm.before
  · rw [Sys.put, mems_setMem_ne _ hj]
    exact ⟨fun r hr => hgrows r (hm.before r hr), hm.awaits, hm.knows⟩

/-- The store carries out an operation of the node. -/
theorem Inv.land (hbound : s.stream.length ≤ keep) {c : ℕ}
    (hstep : (s.view i).land c = some ran) : (s.put i ran).Inv := by
  -- the stream is not cut
  have htake : (s.view i).stream.take keep = s.stream := take_of_length_le hbound
  -- a listing is answered by itself only
  have hset {call₀ call₁ : FilesystemRan.StoreCall} (hc : (s.view i).calls[c]? = some call₀)
      (hlist : call₀.op = .list → call₁.op = .list ∧ call₁.answer = some s.stream) (k : ℕ)
      (call : FilesystemRan.StoreCall) (hcall : (s.view i).calls[k]? = some call)
      (hop : call.op = .list) : ∃ call', ((s.view i).calls.set c call₁)[k]? = some call' ∧
        call'.op = .list ∧ (call'.answer = call.answer ∨ call'.answer = some s.stream) := by
    rcases Log.set_at hc hcall call₁ with ⟨-, rfl, hnew⟩ | hother
    · exact ⟨call₁, hnew, (hlist hop).1, .inr (hlist hop).2⟩
    · exact ⟨call, hother, hop, .inl rfl⟩
  unfold FilesystemRan.Sys.land at hstep
  split at hstep
  case h_1 hc =>
    cases hstep
    exact h.grows (fun _ => id) h.landed (hset hc fun _ => ⟨rfl, congrArg some htake⟩)
  case h_2 record hc =>
    cases hstep
    exact h.grows (fun _ hr => mem_cons_of_mem _ hr) (forall_mem_cons.mpr
      ⟨mem_cons_self, fun r hr => mem_cons_of_mem _ (h.landed r hr)⟩) (hset hc nofun)
  case h_3 hc =>
    cases hstep
    refine h.grows (fun r hr => ?_) (fun r hr => ?_) (hset hc nofun)
    · rwa [htake]
    · rw [htake]
      exact h.landed r hr
  case h_4 => cases hstep

/-- The sets or the id of a node change, and what it answers from stays. -/
theorem Inv.put_sets {live : String} {sets : RanSets}
    (hholds : s.Answers i → Holds (s.mems i).seen live sets) :
    (s.put i { s.view i with live, sets }).Inv := by
  have hm := h.mems i
  refine h.setMem rfl rfl rfl (fun _ _ => rfl) ?_
  exact ⟨hm.before, hm.awaits, fun hsynced hwon =>
    ⟨(hm.knows hsynced hwon).before, hholds ⟨hsynced, hwon⟩⟩⟩

/-- A query drops a set of another job set, which the node does not answer from. -/
theorem Inv.query (hstep : (s.view i).step (.query job) = some ran) :
    (s.put i ran).Inv := by
  cases hstep
  refine h.put_sets fun ⟨hsynced, hwon⟩ => ?_
  exact ((h.mems i).knows hsynced hwon).holds.rebootRan job

/-- A node that is reloaded has what it has re-read of the new job set. -/
theorem Inv.reload {id : String} (hscoped : s.Scoped (.ran i (.reload id)))
    (hstep : (s.view i).step (.reload id) = some ran) : (s.put i ran).Inv := by
  cases hstep
  refine h.put_sets fun hanswers => ?_
  have hholds := ((h.mems i).knows hanswers.1 hanswers.2).holds
  refine ⟨hholds.ran, fun job hjob => ?_⟩
  rcases hscoped hanswers with hnone | hid
  · exact absurd hjob (hnone job)
  · exact hid

end

/-- A step of the sets is a step of what the node works on. -/
lemma put_of_step {e : FilesystemRan.Event} (hstep : s.step name ttl (.ran i e) = some t) :
    ∃ ran, (s.view i).step e = some ran ∧ t = s.put i ran := by
  simp only [Sys.step] at hstep
  split at hstep
  case h_7 => cases hstep
  all_goals
    obtain ⟨ran, hran, heq⟩ := map_eq_some_iff.mp hstep
    exact ⟨ran, hran, heq.symm⟩

/-- **One step.** While the stream is not cut, a leader knows what it must know, unless a reload
takes the set from under it. -/
theorem Inv.step (h : s.Inv) {e : Event} (hbound : s.stream.length ≤ keep) (hscoped : s.Scoped e)
    (hstep : s.step name ttl e = some t) : t.Inv := by
  cases e with
  | election e => exact h.election hstep
  | refreshed i => exact h.refreshed hstep
  | unread i => exact h.unread hstep
  | maintained i => exact h.maintained hstep
  | ran i e =>
    obtain ⟨ran, hran, rfl⟩ := put_of_step hstep
    cases e with
    | refreshed | failRefresh | persist | refresh | other => cases hstep
    | reload id => exact h.reload hscoped hran
    | mark job => exact h.put (Ran.frame_mark hran)
    | query job => exact h.query hran
    | land c => exact h.land hbound hran
    | deliver p => exact h.put (Ran.frame_deliver hran)
    | fail p => exact h.put (Ran.frame_fail hran)

end Steps

/-! ## Every run -/

/-- Nobody remembers anything at the start. -/
lemma inv_init (election : Filesystem.Sys) (stream : List Record) (live : String → String) :
    (init election stream live).Inv where
  landed _ := id
  mems _ := ⟨nofun, nofun, nofun⟩

/-- **A leader's "not ran" is sound.** In every run in which the stream has fewer than `keep`
records, and a node that answers from what it has re-read is only reloaded to a job set whose set it
has or of which the re-read showed nothing: if
`reboot_ran` answers `False` on a leader, then no record of the job under the live id had landed
when it gained leadership. Nor did its last re-read show one, which came later. -/
theorem not_ran_sound {name : String} {ttl : Time} {election : Filesystem.Sys}
    {stream : List Record} {live : String → String} {events : List Event} {s : Sys}
    (hrun : Trace.Run (fun s e t => s.stream.length < keep ∧ s.Scoped e ∧
      s.step name ttl e = some t) (init election stream live) events s)
    {i job : String} (hleader : (s.election.node i).isLeader)
    (hanswer : s.rebootRan i job = some false) :
    ⟨(s.mems i).ran.live, job⟩ ∉ (s.mems i).before ∧
      (∀ r ∈ (s.mems i).before, r ∈ (s.mems i).seen) ∧
      ⟨(s.mems i).ran.live, job⟩ ∉ (s.mems i).seen := by
  have hinv : s.Inv := hrun.invariant
    (fun _ _ _ h ⟨hbound, hscoped, hstep⟩ => h.step hbound.le hscoped hstep)
    (inv_init election stream live)
  unfold rebootRan at hanswer
  dsimp only at hanswer
  split at hanswer
  case isTrue => cases hanswer
  case isFalse hnot =>
    -- a leader that has not re-read the stream raises
    have hsynced : (s.mems i).synced := by
      by_contra hunsynced
      simp [hleader, hunsynced] at hanswer
    obtain ⟨hbefore, hholds⟩ := (hinv.mems i).knows hsynced (.inl hleader)
    have hunseen : ⟨(s.mems i).ran.live, job⟩ ∉ (s.mems i).seen := by
      intro hseen
      have hid := hholds.live job hseen
      exact hnot ((Ran.rebootRan_of_live hid job).2.2 (hholds.ran _ hid job hseen))
    exact ⟨fun hold => hunseen (hbefore _ hold), hbefore, hunseen⟩

/-- Node `b` has reloaded, node `a` has not. -/
private def rolling : Sys :=
  init (Filesystem.Sys.init 0 (fun _ => 100) none) [] fun i => if i = "b" then "new" else "old"

/-- Node `b` marks a job, and then node `a` becomes leader: read, acquire, re-read. -/
private def takenOver : List Event :=
  [.ran "b" (.mark "job"), .ran "b" (.land 0), .election (.round "a"),
    .election (.land 0 ⟨true, true⟩), .election (.deliver "a"), .election (.land 1 ⟨true, true⟩),
    .election (.deliver "a"), .ran "a" (.land 0), .refreshed "a", .maintained "a"]

/-- What node `a` answers, whether it leads, its live id, and what had landed before it did. -/
private def told (job : String) (s : Sys) : Option Bool × Bool × String × List Record :=
  (s.rebootRan "a" job, (s.election.node "a").isLeader, (s.mems "a").ran.live, (s.mems "a").before)

/-- A reload is to a job set of which nothing was seen, or whose set the node has. -/
private def inScope (s : Sys) : Event → Bool
  | .ran i (.reload id) => (s.mems i).seen.all (fun record => record.jobSetId ≠ id) ||
      (s.mems i).ran.sets.ranId = some id
  | _ => true

private lemma scoped_of_inScope {s : Sys} {e : Event} (h : inScope s e = true) : s.Scoped e := by
  unfold Scoped
  split
  next i id =>
    intro _
    have hcases : (∀ record ∈ (s.mems i).seen, record.jobSetId ≠ id) ∨
        (s.mems i).ran.sets.ranId = some id := by
      simpa [inScope] using h
    exact hcases.imp_left fun hnone job hjob => hnone _ hjob rfl
  next => trivial

/-- Node `a` is reloaded away from its job set and back, and then to one that nobody has used. -/
private def reloadedElsewhere : List Event :=
  takenOver ++ [.ran "a" (.reload "next"), .ran "a" (.reload "old"), .ran "a" (.query "job"),
    .ran "a" (.reload "next")]

/-- It answers that the job has not run, which node `b` had marked under another id. -/
theorem not_ran_sound_taken_over : ∃ s,
    Trace.Run (fun s e t => s.stream.length < keep ∧ s.Scoped e ∧ s.step "leader" 15 e = some t)
      rolling reloadedElsewhere s ∧
    s.rebootRan "a" "job" = some false ∧ (s.mems "a").before = [⟨"new", "job"⟩] ∧
    ⟨(s.mems "a").ran.live, "job"⟩ ∉ (s.mems "a").before := by
  have hfold : ((reloadedElsewhere.foldlM (fun s e =>
      if s.stream.length < keep ∧ inScope s e then s.step "leader" 15 e else none)
      rolling).map (told "job")) = some (some false, true, "next", [⟨"new", "job"⟩]) := by
    decide +kernel
  obtain ⟨s, hs, htold⟩ := map_eq_some_iff.mp hfold
  simp only [told, Prod.mk.injEq] at htold
  obtain ⟨hanswer, hleader, -, hbefore⟩ := htold
  have hrun : Trace.Run (fun s e t => s.stream.length < keep ∧ s.Scoped e ∧
      s.step "leader" 15 e = some t) rolling reloadedElsewhere s := by
    refine Trace.Run.mono (fun s e t hstep => ?_) (.of_foldlM hs)
    obtain ⟨⟨hbound, hscoped⟩, hstep⟩ := ite_none_right_eq_some.mp hstep
    exact ⟨hbound, scoped_of_inScope hscoped, hstep⟩
  exact ⟨s, hrun, hanswer, hbefore, (not_ran_sound hrun hleader hanswer).1⟩

/-- Then node `a` is reloaded as well. -/
private def reloaded : List Event := takenOver ++ [.ran "a" (.reload "new")]

/-- Once node `a` is reloaded too, its set is dropped and its flag stays: it answers that the job
has not run, which node `b` had marked under the same id before node `a` gained leadership. -/
theorem reloaded_leader_denies : ∃ s,
    Trace.Run (fun s e t => s.stream.length < keep ∧ s.step "leader" 15 e = some t)
      rolling reloaded s ∧
    (s.election.node "a").isLeader ∧ s.rebootRan "a" "job" = some false ∧
    ⟨(s.mems "a").ran.live, "job"⟩ ∈ (s.mems "a").before := by
  have hfold : ((reloaded.foldlM
      (fun s e => if s.stream.length < keep then s.step "leader" 15 e else none) rolling).map
        (told "job")) = some (some false, true, "new", [⟨"new", "job"⟩]) := by
    decide +kernel
  obtain ⟨s, hs, htold⟩ := map_eq_some_iff.mp hfold
  simp only [told, Prod.mk.injEq] at htold
  obtain ⟨hanswer, hleader, hlive, hbefore⟩ := htold
  refine ⟨s, .of_guarded hs, hleader, hanswer, ?_⟩
  rw [hlive, hbefore]
  exact mem_singleton_self _

end Sys

end Cronstable.Election.RanGate
