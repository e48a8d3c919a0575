import Cronstable.Election.Filesystem
import Cronstable.Lib.Log

/-!
# At most one leader over the filesystem store

The two skew margins keep a holder's deadline before the moment at which a challenger may take the
lease over. They do so as long as the challenger really waits for its margin, and the wall clocks
do not gain on real time. Neither is given: a read that fails is reported as an absent lease, and
the acquire that follows compares the expiry without a margin; and clocks that step forward
together do not differ. `two_leaders` has a run for each. With careful steps (`Sys.Careful`) there
is at most one leader (`one_leader`).

The invariant is about tenures: the deadlines up to which a node leads, or will once its round goes
on. A tenure that has not ended is backed by the lease file: what remains of it is at most what
remains of the lease by the holder's own wall clock, less one margin.
-/

namespace Cronstable.Election.Filesystem

open Store (Lease Time Io)
open List Option Sys Store.Section

namespace Phase

/-- The locked write a round waits for, and when it was sent. -/
def awaited : Phase → Option (ℕ × Time)
  | renewing c anchor | acquiring c anchor => some (c, anchor)
  | _ => none

/-- When the write was sent whose leadership is about to be applied. -/
def gained : Phase → Option Time
  | gaining _ anchor => some anchor
  | _ => none

end Phase

namespace StoreOp

/-- The lease a call presents. -/
def presented : StoreOp → Option Lease
  | renew lease | release lease => some lease
  | _ => none

/-- Whether the call gives a lease up. -/
def releases : StoreOp → Bool
  | release _ => true
  | _ => false

end StoreOp

variable {k : String} {deadline anchor : Time} {lease : Lease}
  {ttl : Time} {s s' : Sys} {i : String} {n : Node}

namespace Sys

/-- The deadlines up to which a node leads, or will lead once its round goes on. -/
def Tenure (ttl : Time) (s : Sys) (i : String) (deadline : Time) : Prop :=
  ((s.node i).isLeader = true ∧ (s.node i).leaseDeadline = some deadline) ∨
    (∃ anchor ∈ (s.node i).phase.gained, deadline = fenceDeadline ttl anchor) ∨
    ∃ c anchor, (s.node i).phase.awaited = some (c, anchor) ∧
      deadline = fenceDeadline ttl anchor ∧ ∃ lease, s.answer c = some (some lease)

/-- The file bears out a tenure that has not ended. -/
def Backed (s : Sys) (i : String) (deadline : Time) : Prop :=
  ∃ lease, s.file = some lease ∧ lease.holder = i ∧
    deadline - s.time ≤ lease.expiresAt - skewSeconds - s.wall i

/-- What the runs keep. -/
structure Inv (ttl : Time) (s : Sys) : Prop where
  skew : ∀ i j, s.wall i - s.wall j < 2 * skewSeconds
  tenure : ∀ i deadline, s.Tenure ttl i deadline → s.time < deadline → s.Backed i deadline
  bound : ∀ i deadline, s.Tenure ttl i deadline → deadline ≤ s.time + ttl - skewSeconds
  awaits : ∀ i c anchor, (s.node i).phase.awaited = some (c, anchor) → anchor ≤ s.time ∧
    ∃ call, s.calls[c]? = some call ∧ call.node = i ∧ call.op ≠ .read
  own : ∀ i, ∀ lease ∈ (s.node i).lease, lease.holder = i
  presented : ∀ call ∈ s.calls, ∀ lease ∈ call.op.presented, lease.holder = call.node
  answered : ∀ call ∈ s.calls, call.op ≠ .read → ∀ lease, call.answer = some (some lease) →
    lease.holder = call.node
  stopped : ∀ i, (s.node i).stopped = true →
    (s.node i).isLeader = false ∧ (s.node i).phase = .idle
  releases : ∀ call ∈ s.calls, call.op.releases = true → (s.node call.node).stopped = true

/-- A node that neither leads nor is in a round has no tenure. -/
theorem not_tenure (hidle : (s.node i).isLeader = false ∧ (s.node i).phase = .idle)
    (deadline : Time) : ¬ s.Tenure ttl i deadline := by
  rintro (⟨hlead, -⟩ | ⟨_, hphase, -⟩ | ⟨_, _, hphase, -⟩)
  · rw [hidle.1] at hlead
    cases hlead
  all_goals
    rw [hidle.2] at hphase
    cases hphase

/-- The invariant holds at the start, whatever lease there is. -/
lemma inv_init {wall : String → Time} (hskew : ∀ i j, wall i - wall j < 2 * skewSeconds)
    (ttl time : Time) (file : Option Lease) : Inv ttl (init time wall file) where
  skew := hskew
  tenure i deadline htenure := absurd htenure (not_tenure ⟨rfl, rfl⟩ deadline)
  bound i deadline htenure := absurd htenure (not_tenure ⟨rfl, rfl⟩ deadline)
  awaits := by rintro i c anchor ⟨⟩
  own := by rintro i lease ⟨⟩
  presented := nofun
  answered := nofun
  stopped := by rintro i ⟨⟩
  releases := nofun

/-- The calls a node sends in a step: they have not landed, and present the node's own lease. -/
structure Sent (i : String) (stopped : Bool) (call : StoreCall) : Prop where
  node : call.node = i
  answer : call.answer = none
  presented : ∀ lease ∈ call.op.presented, lease.holder = i
  release : call.op.releases = true → stopped = true

/-- A step of one node, which may send a call but brings no tenure that was not there. -/
structure Local (ttl : Time) (s s' : Sys) (i : String) (n : Node) (new : List StoreCall) :
    Prop where
  time : s'.time = s.time
  wall : s'.wall = s.wall
  file : s'.file = s.file
  node : ∀ k, s'.node k = if k = i then n else s.node k
  calls : s'.calls = s.calls ++ new
  sent : ∀ call ∈ new, Sent i n.stopped call
  leads : n.isLeader = true → ∀ deadline ∈ n.leaseDeadline, s.Tenure ttl i deadline
  gains : ∀ anchor ∈ n.phase.gained, s.Tenure ttl i (fenceDeadline ttl anchor)
  awaits : ∀ c anchor, n.phase.awaited = some (c, anchor) → anchor = s.time ∧
    c = s.calls.length ∧ ∃ call, new = [call] ∧ call.op ≠ .read
  own : ∀ lease ∈ n.lease, lease.holder = i
  stopped : n.stopped = true → n.isLeader = false ∧ n.phase = .idle
  stays : (s.node i).stopped = true → n.stopped = true

namespace Local

variable {new : List StoreCall}

/-- Such a step brings no tenure. -/
theorem tenure (h : Local ttl s s' i n new) (hinv : s.Inv ttl)
    (htenure : s'.Tenure ttl k deadline) : s.Tenure ttl k deadline := by
  unfold Tenure at htenure
  rw [h.node k] at htenure
  split at htenure
  next heq =>
    subst heq
    rcases htenure with ⟨hlead, hdeadline⟩ | ⟨anchor, hphase, rfl⟩ |
      ⟨c, anchor, hphase, rfl, lease, hanswer⟩
    · exact h.leads hlead deadline hdeadline
    · exact h.gains anchor hphase
    · -- a call that was just sent has no answer
      obtain ⟨-, rfl, call, hnew, -⟩ := h.awaits c anchor hphase
      have hsent := (h.sent call (by rw [hnew]; exact mem_singleton.mpr rfl)).answer
      unfold answer at hanswer
      rw [h.calls, hnew, getElem?_concat_length, bind_some, hsent] at hanswer
      cases hanswer
  next =>
    refine htenure.imp_right (Or.imp_right ?_)
    rintro ⟨c, anchor, hphase, rfl, lease, hanswer⟩
    obtain ⟨-, call, hcall, -⟩ := hinv.awaits k c anchor hphase
    rw [answer, h.calls, getElem?_append_left (List.getElem?_eq_some_iff.mp hcall).1] at hanswer
    exact ⟨c, anchor, hphase, rfl, lease, hanswer⟩

/-- Such a step keeps the invariant. -/
lemma inv (h : Local ttl s s' i n new) (hinv : s.Inv ttl) : s'.Inv ttl where
  skew := by
    rw [h.wall]
    exact hinv.skew
  tenure := by
    intro k deadline htenure hlive
    rw [h.time] at hlive
    unfold Backed
    rw [h.file, h.time, h.wall]
    exact hinv.tenure k deadline (h.tenure hinv htenure) hlive
  bound := by
    intro k deadline htenure
    rw [h.time]
    exact hinv.bound k deadline (h.tenure hinv htenure)
  awaits := by
    intro k c anchor hphase
    rw [h.node k] at hphase
    rw [h.time, h.calls]
    split at hphase
    next heq =>
      subst heq
      obtain ⟨rfl, rfl, call, hnew, hop⟩ := h.awaits c anchor hphase
      have hsent := h.sent call (by rw [hnew]; exact mem_singleton.mpr rfl)
      exact ⟨le_rfl, call, by rw [hnew, getElem?_concat_length], hsent.node, hop⟩
    next =>
      obtain ⟨hle, call, hcall, hrest⟩ := hinv.awaits k c anchor hphase
      exact ⟨hle, call, Log.append_some hcall _, hrest⟩
  own := by
    intro k lease hlease
    rw [h.node k] at hlease
    split at hlease
    next heq => exact heq ▸ h.own lease hlease
    next => exact hinv.own k lease hlease
  presented := by
    intro call hmem lease hop
    rw [h.calls] at hmem
    rcases mem_append.mp hmem with hold | hnew
    · exact hinv.presented call hold lease hop
    · rw [(h.sent call hnew).node]
      exact (h.sent call hnew).presented lease hop
  answered := by
    intro call hmem hop lease hanswer
    rw [h.calls] at hmem
    rcases mem_append.mp hmem with hold | hnew
    · exact hinv.answered call hold hop lease hanswer
    · rw [(h.sent call hnew).answer] at hanswer
      cases hanswer
  stopped := by
    intro k hstopped
    rw [h.node k] at hstopped ⊢
    split at hstopped
    next heq => rw [if_pos heq]; exact h.stopped hstopped
    next hne => rw [if_neg hne]; exact hinv.stopped k hstopped
  releases := by
    intro call hmem hop
    rw [h.calls] at hmem
    rw [h.node]
    rcases mem_append.mp hmem with hold | hnew
    · have hstopped := hinv.releases call hold hop
      split
      next heq => exact h.stays (heq ▸ hstopped)
      next => exact hstopped
    · rw [if_pos (h.sent call hnew).node]
      exact (h.sent call hnew).release hop

end Local

/-- What a node is after one has changed. -/
lemma node_setNode (s : Sys) (i k : String) (n : Node) :
    (s.setNode i n).node k = if k = i then n else s.node k := by
  unfold node setNode
  rw [Dict.get?_set]
  split <;> rfl

section Steps

/-- What the next record of a node has to meet. -/
structure Next (ttl : Time) (s : Sys) (i : String) (n : Node) : Prop where
  leads : n.isLeader = true → ∀ deadline ∈ n.leaseDeadline, s.Tenure ttl i deadline
  own : ∀ lease ∈ n.lease, lease.holder = i
  stopped : n.stopped = true ∨ (s.node i).stopped = true →
    n.stopped = true ∧ n.isLeader = false ∧ n.phase = .idle

/-- The node sends nothing. -/
theorem Inv.setNode (h : s.Inv ttl)
    (hgains : ∀ anchor ∈ n.phase.gained, s.Tenure ttl i (fenceDeadline ttl anchor))
    (hawaits : n.phase.awaited = none) (hnext : Next ttl s i n) : (s.setNode i n).Inv ttl := by
  have hlocal : Local ttl s (s.setNode i n) i n [] :=
    { time := rfl, wall := rfl, file := rfl, leads := hnext.leads, gains := hgains
      own := hnext.own
      node := fun k => node_setNode s i k n
      calls := (List.append_nil _).symm
      sent := by simp
      awaits := by simp [hawaits]
      stopped := fun hs => (hnext.stopped (.inl hs)).2
      stays := fun hs => (hnext.stopped (.inr hs)).1 }
  exact hlocal.inv h

/-- The node sends a call. -/
theorem Inv.send (h : s.Inv ttl) {op : StoreOp} (hgains : n.phase.gained = none)
    (hawaits : n.phase.awaited = none ∨
      n.phase.awaited = some (s.calls.length, s.time) ∧ op ≠ .read)
    (hpresented : ∀ lease ∈ op.presented, lease.holder = i)
    (hrelease : op.releases = true → n.stopped = true) (hnext : Next ttl s i n) :
    ((s.setNode i n).send i op).Inv ttl := by
  have hlocal : Local ttl s ((s.setNode i n).send i op) i n [{ node := i, op }] :=
    { time := rfl, wall := rfl, file := rfl, leads := hnext.leads, own := hnext.own
      node := fun k => node_setNode s i k n
      calls := rfl
      sent := by simpa using ⟨rfl, rfl, hpresented, hrelease⟩
      gains := by simp [hgains]
      awaits := by
        intro c anchor hphase
        rcases hawaits with hnone | ⟨hsome, hop⟩
        · rw [hnone] at hphase
          cases hphase
        · rw [hsome] at hphase
          cases hphase
          exact ⟨rfl, rfl, _, rfl, hop⟩
      stopped := fun hs => (hnext.stopped (.inl hs)).2
      stays := fun hs => (hnext.stopped (.inr hs)).1 }
  exact hlocal.inv h

/-- A node in a round was not stopped. -/
theorem Inv.running (h : s.Inv ttl) (hphase : (s.node i).phase ≠ .idle) :
    (s.node i).stopped = false := by
  by_contra hstopped
  exact hphase (h.stopped i (by simpa using hstopped)).2

/-- The lease a locked write returned to a round is its own. -/
theorem Inv.granted (h : s.Inv ttl) {c : ℕ} (hphase : (s.node i).phase.awaited = some (c, anchor))
    (hanswer : s.answer c = some (some lease)) : lease.holder = i := by
  obtain ⟨-, call, hcall, rfl, hop⟩ := h.awaits i c anchor hphase
  unfold answer at hanswer
  rw [hcall] at hanswer
  exact h.answered call (mem_of_getElem? hcall) hop lease hanswer

/-- The tenure of a node that keeps what it has. -/
theorem tenure_of_leader (hlead : (s.node i).isLeader = true) (deadline : Time)
    (hdeadline : deadline ∈ (s.node i).leaseDeadline) : s.Tenure ttl i deadline :=
  .inl ⟨hlead, hdeadline⟩

/-- A node that was not stopped has nothing to show for having been. -/
theorem not_stopped {P : Prop} (h : (s.node i).stopped = false)
    (hstopped : (s.node i).stopped = true ∨ (s.node i).stopped = true) : P := by
  simp [h] at hstopped

section

variable (h : s.Inv ttl)

include h

/-- A round starts with a renew or a read. -/
lemma Inv.startRound (hstopped : (s.node i).stopped = false) : (s.startRound i).Inv ttl := by
  unfold Sys.startRound
  simp only
  split
  next lease hlease =>
    refine h.send rfl (.inr ⟨rfl, by simp⟩) ?_ (by simp [StoreOp.releases])
      ⟨tenure_of_leader, h.own i, not_stopped hstopped⟩
    rintro _ ⟨⟩
    exact h.own i lease hlease
  next =>
    exact h.send rfl (.inl rfl) (by simp [StoreOp.presented]) (by simp [StoreOp.releases])
      ⟨tenure_of_leader, h.own i, not_stopped hstopped⟩

/-- A read is sent while leadership stays as it is or is fenced closed. -/
theorem Inv.reads (hstopped : (s.node i).stopped = false) {phase : Phase}
    (hgained : phase.gained = none) (hawaited : phase.awaited = none) (lost : Bool)
    {lease : Option Lease} (hlease : lease = none ∨ lease = (s.node i).lease) :
    ((s.setNode i { s.node i with leaseLost := lost, lease, phase }).send i .read).Inv ttl := by
  refine h.send hgained (.inl hawaited) (by simp [StoreOp.presented]) (by simp [StoreOp.releases])
    ⟨tenure_of_leader, ?_, not_stopped hstopped⟩
  rintro own hown
  rcases hlease with rfl | rfl
  · cases hown
  · exact h.own i own hown

/-- A locked write was answered with a lease: leadership is applied, or will be after the
refresh. -/
theorem Inv.granting {c : ℕ} (hphase : (s.node i).phase.awaited = some (c, anchor))
    (hanswer : s.answer c = some (some lease)) :
    (s.setNode i { ({ s.node i with lease := some lease } : Node).applyLeader ttl s.time lease
        anchor with phase := .maintaining }).Inv ttl ∧
      (s.setNode i { s.node i with lease := some lease, phase := .gaining lease anchor }).Inv
        ttl := by
  have hstopped : (s.node i).stopped = false := h.running fun hidle => by
    rw [hidle] at hphase
    cases hphase
  have htenure : s.Tenure ttl i (fenceDeadline ttl anchor) :=
    .inr (.inr ⟨c, anchor, hphase, rfl, lease, hanswer⟩)
  have hown : ∀ own ∈ some lease, own.holder = i := by
    rintro _ ⟨⟩
    exact h.granted hphase hanswer
  constructor
  · refine h.setNode (by rintro _ ⟨⟩) rfl ⟨?_, hown, not_stopped hstopped⟩
    rintro - _ ⟨⟩
    exact htenure
  · refine h.setNode ?_ rfl ⟨tenure_of_leader, hown, not_stopped hstopped⟩
    rintro _ ⟨⟩
    exact htenure

/-- A read showed a lease: the node follows, and adopts the lease if it is its own. -/
theorem Inv.follows (hstopped : (s.node i).stopped = false) (observed : Lease)
    {lease : Option Lease} (hlease : ∀ own ∈ lease, own.holder = i) :
    (s.setNode i { (s.node i).applyFollower ttl s.time observed with
      lease, phase := .maintaining }).Inv ttl := by
  refine h.setNode (by rintro _ ⟨⟩) rfl ⟨?_, hlease, not_stopped hstopped⟩
  rintro ⟨⟩

/-- A round that goes for the lease sends an acquire. -/
lemma Inv.campaign (hstopped : (s.node i).stopped = false) : (observed.campaign s i).Inv ttl :=
  h.send rfl (.inr ⟨rfl, by simp⟩) (by simp [StoreOp.presented]) (by simp [StoreOp.releases])
    ⟨tenure_of_leader, h.own i, not_stopped hstopped⟩

/-- The round of a node ends, for whatever reason. -/
theorem Inv.idle : (s.setNode i { s.node i with phase := .idle }).Inv ttl := by
  refine h.setNode (by rintro _ ⟨⟩) rfl ⟨tenure_of_leader, h.own i, fun hstopped => ?_⟩
  have hstopped := or_self_iff.mp hstopped
  exact ⟨hstopped, (h.stopped i hstopped).1, rfl⟩

/-- A round goes on with what its call returned. -/
lemma Inv.deliver (hstep : s.deliver ttl i = some s') : s'.Inv ttl := by
  unfold Sys.deliver at hstep
  split at hstep
  next c anchor hphase =>
    obtain ⟨answer, hanswer, rfl⟩ := map_eq_some_iff.mp hstep
    cases answer with
    | none => exact h.reads (h.running (by simp [hphase])) rfl rfl true (.inl rfl)
    | some lease =>
      obtain ⟨happlied, hgaining⟩ := h.granting (by rw [hphase]; rfl) hanswer
      simp only [renewed]
      split
      · exact happlied
      · exact hgaining
  next c hphase =>
    obtain ⟨answer, hanswer, rfl⟩ := map_eq_some_iff.mp hstep
    have hstopped := h.running (i := i) (by simp [hphase])
    cases answer with
    | none => exact h.campaign hstopped
    | some lease =>
      simp only [observed]
      split
      next hown =>
        refine h.follows hstopped lease ?_
        rintro _ ⟨⟩
        exact hown
      next =>
        split
        · exact h.follows hstopped lease nofun
        · exact h.campaign hstopped
  next c anchor hphase =>
    obtain ⟨answer, hanswer, rfl⟩ := map_eq_some_iff.mp hstep
    cases answer with
    | none => exact h.reads (h.running (by simp [hphase])) rfl rfl _ (.inr rfl)
    | some lease =>
      obtain ⟨happlied, hgaining⟩ := h.granting (by rw [hphase]; rfl) hanswer
      simp only [acquired]
      split
      · exact happlied
      · exact hgaining
  next c hphase =>
    obtain ⟨answer, hanswer, rfl⟩ := map_eq_some_iff.mp hstep
    cases answer with
    | none => exact h.idle
    | some lease =>
      refine h.follows (h.running (by simp [hphase])) lease fun own hown => ?_
      obtain ⟨heq, ⟨⟩⟩ := ite_none_right_eq_some.mp hown
      exact heq
  next => cases hstep

/-- Leadership is applied after the maintenance pass. -/
lemma Inv.maintained (hphase : (s.node i).phase = .gaining lease anchor) :
    (s.setNode i { (s.node i).applyLeader ttl s.time lease anchor with phase := .idle }).Inv
      ttl := by
  have hstopped := h.running (i := i) (by simp [hphase])
  refine h.setNode (by rintro _ ⟨⟩) rfl ⟨?_, h.own i, not_stopped hstopped⟩
  rintro - _ ⟨⟩
  exact .inr (.inl ⟨anchor, by rw [hphase]; rfl, rfl⟩)

/-- A node that stops no longer leads, and releases its lease. -/
lemma Inv.stop : (s.stop i).Inv ttl := by
  unfold Sys.stop
  simp only
  split
  next lease hlease =>
    refine h.send rfl (.inl rfl) ?_ (fun _ => rfl) ⟨by rintro ⟨⟩, nofun, fun _ => ⟨rfl, rfl, rfl⟩⟩
    rintro _ ⟨⟩
    exact h.own i lease hlease
  next =>
    exact h.setNode (by rintro _ ⟨⟩) rfl ⟨by rintro ⟨⟩, nofun, fun _ => ⟨rfl, rfl, rfl⟩⟩

end

end Steps

/-! ## A call lands -/

/-- What a locked call that writes has found and written. -/
structure Written (ttl : Time) (s : Sys) (call : StoreCall) (lease : Lease) : Prop where
  locked : call.op ≠ .read
  holder : lease.holder = call.node
  expiresAt : call.op.releases = false → lease.expiresAt = s.wall call.node + ttl
  /-- Only an acquire takes over the lease of another node. -/
  takeover : ∀ stored ∈ s.file, stored.holder ≠ call.node → call.op = .acquire

/-- A store call leaves the file as it is, or writes a lease of its node. -/
lemma runCall_cases (name : String) (ttl : Time) (s : Sys) (call : StoreCall) (io : Io)
    (hpresented : ∀ lease ∈ call.op.presented, lease.holder = call.node) :
    ((s.runCall name ttl call io).1 = s.file ∧
        (call.op ≠ .read → (s.runCall name ttl call io).2 = none)) ∨
      ∃ lease, s.runCall name ttl call io = (some lease, some lease) ∧
        Written ttl s call lease := by
  obtain ⟨i, op, answer⟩ := call
  -- a renewal and a release find the lease they present
  have htakeover {presented stored : Lease} (hholder : presented.holder = i)
      (hstored : s.file = some stored) (hsame : presented.Same stored) :
      ∀ stored' ∈ s.file, stored'.holder ≠ i → op = .acquire := by
    intro stored' hstored' hforeign
    obtain rfl := mem_unique hstored hstored'
    exact absurd (hsame.1.trans hholder) hforeign
  cases op with
  | read => exact .inl ⟨rfl, fun hop => absurd rfl hop⟩
  | acquire =>
    rcases (acquire i ttl (s.wall i) io).run_cases name s.file with
      hsame | ⟨lease, hrun, hwrites⟩
    · exact .inl ⟨congrArg Prod.fst hsame, fun _ => congrArg Prod.snd hsame⟩
    · obtain ⟨hholder, hexpires⟩ := hwrites.of_acquire
      exact .inr ⟨lease, hrun, by simp, hholder, fun _ => hexpires, fun _ _ _ => rfl⟩
  | renew presented =>
    have hholder : presented.holder = i := hpresented presented rfl
    rcases (renew presented ttl (s.wall i) io).run_cases name s.file with
      hsame | ⟨lease, hrun, hwrites⟩
    · exact .inl ⟨congrArg Prod.fst hsame, fun _ => congrArg Prod.snd hsame⟩
    · obtain ⟨⟨stored, hstored, hsame⟩, rfl⟩ := hwrites.of_renew
      exact .inr ⟨_, hrun, by simp, hholder, fun _ => rfl, htakeover hholder hstored hsame⟩
  | release presented =>
    have hholder : presented.holder = i := hpresented presented rfl
    rcases (release presented io).run_cases name s.file with
      hsame | ⟨lease, hrun, hwrites⟩
    · exact .inl ⟨congrArg Prod.fst hsame, fun _ => congrArg Prod.snd hsame⟩
    · obtain ⟨⟨stored, hstored, hsame⟩, rfl⟩ := hwrites.of_release
      exact .inr ⟨_, hrun, by simp, hholder, nofun, htakeover hholder hstored hsame⟩

section Land

variable {name : String} {c : ℕ} {op : StoreOp}

/-- The state after the call `c` of node `i` has answered. -/
def landed (s : Sys) (c : ℕ) (i : String) (op : StoreOp)
    (result : Option Lease × Option Lease) : Sys :=
  { s with file := result.1, calls := s.calls.set c ⟨i, op, some result.2⟩ }

lemma answer_landed (hcall : s.calls[c]? = some ⟨i, op, none⟩)
    (result : Option Lease × Option Lease) (c' : ℕ) :
    (s.landed c i op result).answer c' = if c' = c then some result.2 else s.answer c' := by
  unfold answer landed
  by_cases heq : c' = c
  · subst heq
    rw [Log.set_self hcall, if_pos rfl]
    rfl
  · rw [List.getElem?_set_ne (Ne.symm heq), if_neg heq]

variable (h : s.Inv ttl) (hcall : s.calls[c]? = some ⟨i, op, none⟩)

include h hcall

/-- The only tenure that a call can bring is its own node's, if it was a locked write. -/
theorem Inv.tenure_landed {result : Option Lease × Option Lease}
    (htenure : (s.landed c i op result).Tenure ttl k deadline) :
    s.Tenure ttl k deadline ∨
      k = i ∧ op ≠ .read ∧ result.2 ≠ none ∧ deadline ≤ s.time + ttl - skewSeconds := by
  rcases htenure with hlead | hgained | ⟨c', anchor, hphase, rfl, lease, hanswer⟩
  · exact .inl (.inl hlead)
  · exact .inl (.inr (.inl hgained))
  · rw [answer_landed hcall] at hanswer
    split at hanswer
    next heq =>
      subst heq
      obtain ⟨hanchor, call, hcall', hnode, hop⟩ := h.awaits k c' anchor hphase
      rw [hcall] at hcall'
      cases hcall'
      refine .inr ⟨hnode.symm, hop, ?_, ?_⟩
      · rw [Option.some.inj hanswer]
        simp
      · unfold fenceDeadline
        linarith
    next => exact .inl (.inr (.inr ⟨c', anchor, hphase, rfl, lease, hanswer⟩))

-- an acquire takes over only what is past its margin
variable {io : Io} (hmargin : op = .acquire → ∀ lease ∈ s.file, lease.holder ≠ i →
  (s.node lease.holder).stopped = false → lease.expiresAt ≤ s.wall i - skewSeconds)

include hmargin

/-- A live tenure stays backed when a call lands. -/
theorem Inv.backed_landed
    (htenure : (s.landed c i op (s.runCall name ttl ⟨i, op, none⟩ io)).Tenure ttl k deadline)
    (hlive : s.time < deadline) :
    (s.landed c i op (s.runCall name ttl ⟨i, op, none⟩ io)).Backed k deadline := by
  have hmem := mem_of_getElem? hcall
  have hnew := h.tenure_landed hcall htenure
  rcases runCall_cases name ttl s ⟨i, op, none⟩ io (h.presented _ hmem) with
    ⟨hfile, hnone⟩ | ⟨lease, hresult, hwritten⟩
  · -- the file stays, and with it every tenure
    have hold : s.Tenure ttl k deadline := by
      rcases hnew with hold | ⟨-, hop, hsome, -⟩
      · exact hold
      · exact absurd (hnone hop) hsome
    obtain ⟨stored, hstored, hrest⟩ := h.tenure k deadline hold hlive
    exact ⟨stored, hfile.trans hstored, hrest⟩
  · by_cases hk : k = i
    · subst hk
      have hbound : deadline ≤ s.time + ttl - skewSeconds := by
        rcases hnew with hold | ⟨-, -, -, hbound⟩
        · exact h.bound k deadline hold
        · exact hbound
      have hkept : op.releases = false := by
        -- only a stopped node releases, and it has no tenure
        by_contra hreleases
        have hstopped := h.releases _ hmem (by simpa using hreleases)
        exact not_tenure (s := s.landed c k op _) (h.stopped k hstopped) deadline htenure
      refine ⟨lease, congrArg Prod.fst hresult, hwritten.holder, ?_⟩
      have hexpires := hwritten.expiresAt hkept
      show deadline - s.time ≤ lease.expiresAt - skewSeconds - s.wall k
      rw [hexpires]
      show deadline - s.time ≤ s.wall k + ttl - skewSeconds - s.wall k
      linarith
    · -- a tenure of another node: the takeover came after its end
      have hold : s.Tenure ttl k deadline := hnew.resolve_right fun hown => hk hown.1
      obtain ⟨stored, hstored, rfl, hbacked⟩ := h.tenure k deadline hold hlive
      have hstopped : (s.node stored.holder).stopped = false := by
        by_contra hstopped
        exact not_tenure (h.stopped _ (by simpa using hstopped)) deadline hold
      have hacquire := hwritten.takeover stored hstored hk
      have hpast := hmargin hacquire stored hstored hk hstopped
      have hskew := h.skew i stored.holder
      have hcontra : deadline < s.time := by linarith
      exact absurd hlive (not_lt.mpr hcontra.le)

/-- A store call that is carried out keeps the invariant. -/
lemma Inv.land : (s.landed c i op (s.runCall name ttl ⟨i, op, none⟩ io)).Inv ttl := by
  have hmem := mem_of_getElem? hcall
  exact { h with
    tenure := fun k deadline htenure hlive => h.backed_landed hcall hmargin htenure hlive
    bound := by
      intro k deadline htenure
      rcases h.tenure_landed hcall htenure with hold | ⟨-, -, -, hbound⟩
      · exact h.bound k deadline hold
      · exact hbound
    awaits := by
      intro k c' anchor hphase
      obtain ⟨hle, call, hcall', hnode, hop⟩ := h.awaits k c' anchor hphase
      refine ⟨hle, ?_⟩
      rcases Log.set_at hcall hcall' ⟨i, op, some (s.runCall name ttl ⟨i, op, none⟩ io).2⟩ with
        ⟨-, rfl, hnew⟩ | hother
      · exact ⟨_, hnew, hnode, hop⟩
      · exact ⟨call, hother, hnode, hop⟩
    presented := Log.forall_set h.presented c (h.presented ⟨i, op, none⟩ hmem)
    answered := by
      refine Log.forall_set h.answered c fun hop lease hanswer => ?_
      rcases runCall_cases name ttl s ⟨i, op, none⟩ io (h.presented _ hmem) with
        ⟨-, hnone⟩ | ⟨lease', hresult, hwritten⟩
      · rw [hnone hop] at hanswer
        cases hanswer
      · rw [hresult] at hanswer
        cases hanswer
        exact hwritten.holder
    releases := Log.forall_set h.releases c (h.releases ⟨i, op, none⟩ hmem) }

end Land

/-! ## Time passes -/

/-- Tenures stay backed while the clock of the holder does not gain on real time. -/
theorem Inv.tick {elapsed : Time} {wall : String → Time} (h : s.Inv ttl)
    (helapsed : 0 ≤ elapsed) (hskew : ∀ i j, wall i - wall j < 2 * skewSeconds)
    (hrate : ∀ lease ∈ s.file, (s.node lease.holder).stopped = false →
      s.wall lease.holder < lease.expiresAt - skewSeconds →
        wall lease.holder - s.wall lease.holder ≤ elapsed) :
    ({ s with time := s.time + elapsed, wall } : Sys).Inv ttl := by
  refine { h with skew := hskew, tenure := ?_, bound := ?_, awaits := ?_ }
  · intro i deadline htenure hlive
    have hbefore : s.time < deadline := lt_of_le_of_lt (le_add_of_nonneg_right helapsed) hlive
    obtain ⟨lease, hlease, rfl, hbacked⟩ := h.tenure i deadline htenure hbefore
    have hstopped : (s.node lease.holder).stopped = false := by
      by_contra hstopped
      exact not_tenure (h.stopped _ (by simpa using hstopped)) deadline htenure
    have hrate := hrate lease hlease hstopped (by linarith)
    refine ⟨lease, hlease, rfl, ?_⟩
    show deadline - (s.time + elapsed) ≤ lease.expiresAt - skewSeconds - wall lease.holder
    linarith
  · intro i deadline htenure
    have hbound := h.bound i deadline htenure
    show deadline ≤ s.time + elapsed + ttl - skewSeconds
    linarith
  · intro i c anchor hphase
    obtain ⟨hle, hrest⟩ := h.awaits i c anchor hphase
    exact ⟨hle.trans (le_add_of_nonneg_right helapsed), hrest⟩

end Sys

/-! ## Runs -/

/-- What is given of the clocks: time does not go back, and no two wall clocks ever differ by twice
the margin. -/
def Event.Clocked : Event → Prop
  | .tick elapsed wall => 0 ≤ elapsed ∧ ∀ i j, wall i - wall j < 2 * skewSeconds
  | _ => True

/-- The steps that keep the margins: an acquire takes the lease of a node that has not stopped only
once its expiry is a margin in the past by the challenger's clock, and as long as a lease has more
than a margin left by the clock of its holder, this clock does not gain on real time. -/
def Sys.Careful (s : Sys) : Event → Prop
  | .land c _ => ∀ call ∈ s.calls[c]?, call.op = .acquire →
      ∀ lease ∈ s.file, lease.holder ≠ call.node → (s.node lease.holder).stopped = false →
        lease.expiresAt ≤ s.wall call.node - skewSeconds
  | .tick elapsed wall => ∀ lease ∈ s.file, (s.node lease.holder).stopped = false →
      s.wall lease.holder < lease.expiresAt - skewSeconds →
        wall lease.holder - s.wall lease.holder ≤ elapsed
  | _ => True

/-- A careful step of the election `name`. -/
def CarefulStep (name : String) (ttl : Time) (s : Sys) (event : Event) (s' : Sys) : Prop :=
  s.step name ttl event = some s' ∧ event.Clocked ∧ s.Careful event

/-- Every careful step keeps the invariant. -/
lemma Sys.Inv.step {name : String} {event : Event} (h : s.Inv ttl)
    (hstep : CarefulStep name ttl s event s') : s'.Inv ttl := by
  obtain ⟨hstep, hclocked, hcareful⟩ := hstep
  cases event with
  | tick elapsed wall =>
    cases hstep
    exact h.tick hclocked.1 hclocked.2 hcareful
  | round i =>
    obtain ⟨hready, ⟨⟩⟩ := ite_none_right_eq_some.mp hstep
    exact h.startRound hready.1
  | land c io =>
    simp only [Sys.step] at hstep
    split at hstep
    next i op hcall =>
      cases hstep
      exact h.land hcall (hcareful _ hcall)
    next => cases hstep
  | deliver i => exact h.deliver hstep
  | abandon i =>
    cases hstep
    exact h.idle
  | maintained i =>
    simp only [Sys.step] at hstep
    split at hstep
    next hphase =>
      cases hstep
      exact h.maintained hphase
    next =>
      cases hstep
      exact h.idle
    next => cases hstep
  | stop i =>
    obtain ⟨-, ⟨⟩⟩ := ite_none_right_eq_some.mp hstep
    exact h.stop

/-- A node that leads has a live tenure. -/
theorem Sys.tenure_of_leads (ttl : Time) (h : s.leads i = true) :
    ∃ deadline, s.Tenure ttl i deadline ∧ s.time < deadline := by
  unfold leads Node.leads at h
  simp only [Bool.and_eq_true, Option.any_eq_true, decide_eq_true_eq] at h
  obtain ⟨⟨hlead, -⟩, deadline, hdeadline, hlive⟩ := h
  exact ⟨deadline, .inl ⟨hlead, hdeadline⟩, hlive⟩

/-- When all steps are careful, no two nodes lead at one instant. -/
theorem one_leader {name : String} {ttl time : Time} {wall : String → Time} {file : Option Lease}
    {events : List Event} {s : Sys} (hskew : ∀ i j, wall i - wall j < 2 * skewSeconds)
    (hrun : Trace.Run (CarefulStep name ttl) (Sys.init time wall file) events s) :
    ∀ i j, s.leads i = true → s.leads j = true → i = j := by
  intro i j hi hj
  have hinv : s.Inv ttl :=
    hrun.invariant (fun _ _ _ h hstep => h.step hstep) (inv_init hskew ttl time file)
  obtain ⟨deadline, htenure, hlive⟩ := tenure_of_leads ttl hi
  obtain ⟨deadline', htenure', hlive'⟩ := tenure_of_leads ttl hj
  obtain ⟨lease, hfile, hholder, -⟩ := hinv.tenure i deadline htenure hlive
  obtain ⟨lease', hfile', hholder', -⟩ := hinv.tenure j deadline' htenure' hlive'
  have heq : some lease = some lease' := hfile.symm.trans hfile'
  cases heq
  exact hholder.symm.trans hholder'

section Runs

/-- The clock of node `b` is one and a half seconds ahead. -/
private def ahead (t : Time) (i : String) : Time := if i = "b" then t + 3 / 2 else t

private lemma ahead_skew (t : Time) (i j : String) : ahead t i - ahead t j < 2 * skewSeconds := by
  unfold ahead skewSeconds
  split <;> split <;> linarith

/-- A store call that answers. -/
private def works : Io := ⟨true, true⟩

/-- A node whose read finds nothing becomes leader: read, acquire, refresh. -/
private def campaigns (i : String) (c : ℕ) (read : Io) : List Event :=
  [.round i, .land c read, .deliver i, .land (c + 1) works, .deliver i, .maintained i]

private lemma clocked_campaigns (i : String) (c : ℕ) (read : Io) :
    ∀ event ∈ campaigns i c read, event.Clocked := by
  simp [campaigns, Event.Clocked]

/-- Node `a` leads. Shortly before its deadline node `b`, whose clock is ahead, fails to read the
lease file, takes the lease for absent and acquires it: by its clock it is expired. -/
def unreadableRun : List Event :=
  campaigns "a" 0 works ++ [.tick (68 / 5) (ahead (568 / 5))] ++ campaigns "b" 2 ⟨false, true⟩

/-- Node `a` leads. Both clocks step forward together. -/
def steppedRun : List Event :=
  campaigns "a" 0 works ++ [.tick 1 fun _ => 300] ++ campaigns "b" 2 works

/-- In both runs the clocks never differ by twice the margin, and two nodes lead at the end. -/
theorem two_leaders :
    (∀ event ∈ unreadableRun ++ steppedRun, event.Clocked) ∧
    ((Sys.init 0 (ahead 100) none).exec "leader" 15 unreadableRun).map
      (fun s => (s.leads "a", s.leads "b")) = some (true, true) ∧
    ((Sys.init 0 (ahead 100) none).exec "leader" 15 steppedRun).map
      (fun s => (s.leads "a", s.leads "b")) = some (true, true) := by
  refine ⟨?_, by decide +kernel, by decide +kernel⟩
  have hahead : (Event.tick (68 / 5) (ahead (568 / 5))).Clocked :=
    ⟨by decide +kernel, ahead_skew _⟩
  have hstep : (Event.tick 1 fun _ => 300).Clocked :=
    ⟨by decide +kernel, fun i j => by rw [sub_self]; decide +kernel⟩
  intro event hmem
  simp only [unreadableRun, steppedRun, mem_append, mem_singleton] at hmem
  rcases hmem with ((hmem | rfl) | hmem) | ((hmem | rfl) | hmem)
  any_goals exact clocked_campaigns _ _ _ event hmem
  · exact hahead
  · exact hstep

private instance : (event : Event) → Decidable (s.Careful event)
  | .land _ _ | .tick _ _ => by dsimp only [Careful]; infer_instance
  | .round _ | .deliver _ | .abandon _ | .maintained _ | .stop _ => .isTrue trivial

/-- Take events one after another, as long as they are careful and no time passes. -/
private def drive (s : Sys) (events : List Event) : Option Sys :=
  events.foldlM (fun s event => if s.Careful event ∧ passes event = false then
    s.step "leader" 15 event else none) s
where
  passes : Event → Bool
    | .tick _ _ => true
    | _ => false

private lemma run_drive {events : List Event} (h : (drive s events).isSome) :
    Trace.Run (CarefulStep "leader" 15) s events ((drive s events).get h) := by
  refine (Trace.Run.of_guarded (some_get h).symm).mono fun s event s' hstep => ?_
  obtain ⟨⟨hcareful, hpasses⟩, hstep⟩ := hstep
  cases event with
  | tick => cases hpasses
  | _ => exact ⟨hstep, trivial, hcareful⟩

/-- Node `a` has acquired the lease, and leads until 14. -/
private def led : Sys := (drive (Sys.init 0 (ahead 100) none) (campaigns "a" 0 works)).get
  (by decide +kernel)

/-- Half a second after the end of this tenure the lease is a margin past its end by the clock of
node `b`. -/
private def lapsed : Sys := { led with time := led.time + 29 / 2, wall := ahead (229 / 2) }

/-- Node `b` has taken the lease over. -/
private def takenOver : Sys := (drive lapsed (campaigns "b" 2 works)).get (by decide +kernel)

/-- Node `a` leads, then node `b` takes the lease over and is the only leader. -/
theorem one_leader_takeover :
    led.leads "a" = true ∧ takenOver.leads "b" = true ∧
      ∀ i, takenOver.leads i = true → i = "b" := by
  have hleads : takenOver.leads "b" = true := by decide +kernel
  have htick : CarefulStep "leader" 15 led (.tick (29 / 2) (ahead (229 / 2))) lapsed :=
    ⟨rfl, ⟨by norm_num, ahead_skew _⟩, by decide +kernel⟩
  have hrun : Trace.Run (CarefulStep "leader" 15) (Sys.init 0 (ahead 100) none) _ takenOver :=
    ((run_drive (by decide +kernel)).append (.single htick)).append (run_drive (by decide +kernel))
  exact ⟨by decide +kernel, hleads, fun i hi => one_leader (ahead_skew 100) hrun i "b" hi hleads⟩

end Runs

end Cronstable.Election.Filesystem
