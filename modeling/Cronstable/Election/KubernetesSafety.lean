import Cronstable.Election.Kubernetes
import Cronstable.Lib.Log

/-!
# At most one leader over a Kubernetes Lease

A node leads up to a deadline that lies a margin before the moment at which anybody who saw its
write may take the Lease over, so a takeover that waits is safe, and so are late writes, whose
resource version is no longer current. What is not waited for is a release: `stop` clears the
holder while the node still counts itself as leader, and does so until the transport is closed.
`two_leaders_while_stopping` has a run in which another node leads in that window. When a Lease
without a holder is written to only after the tenures of the other nodes, there is at most one
leader (`lease_one_leader`).

The invariant ties the tenures (the deadlines up to which a node leads, or will once its round goes
on) to the moment the object was written, by their node or by a release. A renew time identifies the
write of a node it came with, so an observation of a record is not older than the record.
-/

namespace Cronstable.Election.Kubernetes

open Store (Time)
open Filesystem (fenceDeadline skewSeconds)
open List Option Sys RequestOp

namespace RequestOp

/-- The object that a request was planned on. -/
def state : RequestOp → Option Record
  | replace state _ => some state
  | _ => none

end RequestOp

variable {r : Request} {k : String} {state : Record} {deadline : Time} {now : ℕ}
  {duration : String → ℕ} {s s' : Sys} {i : String} {n : Node} {op : RequestOp}

namespace Sys

/-- The deadlines up to which a node leads, or will lead once its round goes on. -/
def Tenure (duration : String → ℕ) (s : Sys) (i : String) (deadline : Time) : Prop :=
  ((s.node i).isLeader = true ∧ (s.node i).leaderUntil = some deadline) ∨
    ∃ c mono, (s.node i).phase = .writing c mono ∧
      deadline = fenceDeadline (duration i) mono ∧ s.answer c = some (.written true)

/-- A node has a tenure that has not ended. -/
def Live (duration : String → ℕ) (s : Sys) (i : String) : Prop :=
  ∃ deadline, s.Tenure duration i deadline ∧ s.time < deadline

/-- The objects that somebody may still look at. -/
def Known (s : Sys) (state : Record) : Prop :=
  s.object = some state ∨ (∃ r ∈ s.requests, r.answer = some (.found (some state))) ∨
    ∃ r ∈ s.requests, r.op.state = some state

/-- The object bears out a tenure that has not ended, or was released since. -/
def Backed (duration : String → ℕ) (s : Sys) (i : String) (deadline : Time) : Prop :=
  ∃ object, s.object = some object ∧ (object.holder = some i ∨ object.holder = none) ∧
    deadline ≤ fenceDeadline (duration i) object.landedAt

/-- A body of a round of `i`, which found `state` if it did not create the object. -/
structure Signed (duration : String → ℕ) (time : Time) (i : String) (state : Option Record)
    (body : Body) : Prop where
  named : i ≠ ""
  holder : body.holder = some i
  lasts : body.duration = some (duration i)
  /-- The lease of another node has run out. -/
  expired : ∀ found ∈ state, ∀ k, found.holder = some k → k ≠ i →
    found.landedAt + duration k ≤ time

/-- A known object was written by a request that was applied, and the current one is newest. -/
structure Stored (s : Sys) (state : Record) : Prop where
  landed : state.landedAt ≤ s.time
  written : ∃ r ∈ s.requests, r.answer = some (.written true) ∧ r.op.body = some state.toBody
  newest : ∃ object, s.object = some object ∧ state.version ≤ object.version ∧
    (state.version = object.version → state = object)

/-- What a node has observed: a write that was applied, and not after it was observed. -/
structure Observed (s : Sys) (holder : String) (renew : Option ℕ) (seen : Option Time) :
    Prop where
  written : ∃ r ∈ s.requests, r.answer = some (.written true) ∧
    ∃ body ∈ r.op.body, body.holder = some holder ∧ body.renewTime = renew
  anchored : ∃ anchor, seen = some anchor ∧ ∀ state, s.Known state →
    state.holder = some holder → state.renewTime = renew → state.landedAt ≤ anchor

/-- What the runs keep. -/
structure Inv (duration : String → ℕ) (s : Sys) : Prop where
  tenure : ∀ i deadline, s.Tenure duration i deadline → s.time < deadline →
    s.Backed duration i deadline
  alone : ∀ i k, s.Live duration i → s.Live duration k → i = k
  named : ∀ i, (s.node i).phase ≠ .idle → i ≠ ""
  writes : ∀ i c mono, (s.node i).phase = .writing c mono → mono ≤ s.time ∧
    ∃ r, s.requests[c]? = some r ∧ r.node = i ∧ ∃ body ∈ r.op.body, body.holder = some i
  signed : ∀ r ∈ s.requests, ∀ body ∈ r.op.body,
    body.holder = none ∨ Signed duration s.time r.node r.op.state body
  stamped : ∀ (c : ℕ) (r : Request) (c' : ℕ) (r' : Request),
    s.requests[c]? = some r → s.requests[c']? = some r' → ∀ body ∈ r.op.body,
    ∀ body' ∈ r'.op.body, body.holder ≠ none →
      body.holder = body'.holder → body.renewTime = body'.renewTime → c = c'
  stored : ∀ state, s.Known state → s.Stored state
  observed : ∀ i k, (s.node i).observedHolder = some k →
    s.Observed k (s.node i).observedRenew (s.node i).observedAt

/-- Nobody leads before anybody has asked. -/
lemma not_tenure_init (duration : String → ℕ) (time : Time) (i : String) (deadline : Time) :
    ¬ (init time).Tenure duration i deadline := by
  rintro (⟨hlead, -⟩ | ⟨_, _, hphase, -⟩)
  · cases hlead
  · cases hphase

/-- The invariant holds at the start. -/
lemma inv_init (duration : String → ℕ) (time : Time) : (init time).Inv duration where
  tenure := fun i deadline htenure => absurd htenure (not_tenure_init duration time i deadline)
  alone := by
    rintro i k ⟨deadline, htenure, -⟩
    exact absurd htenure (not_tenure_init duration time i deadline)
  named := fun i hphase => absurd rfl hphase
  writes := by rintro i c mono ⟨⟩
  signed := by simp [init]
  stamped := by simp [init]
  stored := by simp [init, Known]
  observed := by rintro i k ⟨⟩

/-! ## Steps of one node -/

/-- The next record of a node keeps the observation it had, or makes one now. -/
def Observes (s : Sys) (i : String) (n : Node) : Prop :=
  (n.observedHolder = (s.node i).observedHolder ∧ n.observedRenew = (s.node i).observedRenew ∧
      n.observedAt = (s.node i).observedAt) ∨
    ∃ state, s.Known state ∧ n.observedHolder = state.holder ∧
      n.observedRenew = state.renewTime ∧ n.observedAt = some s.time

/-- What the next record of a node says it observed was written. -/
lemma Inv.observes
    (h : s.Inv duration) (hobserves : s.Observes i n) {holder : String}
    (hholder : n.observedHolder = some holder) :
    s.Observed holder n.observedRenew n.observedAt := by
  rcases hobserves with ⟨hsame, hrenew, hat⟩ | ⟨state, hknown, hsame, hrenew, hat⟩
  · rw [hrenew, hat]
    exact h.observed i holder (hsame.symm.trans hholder)
  · -- the observation is of this moment, and no object is from a later one
    obtain ⟨-, ⟨r, hr, hanswer, hbody⟩, -⟩ := h.stored state hknown
    rw [hrenew, hat]
    exact ⟨⟨r, hr, hanswer, state.toBody, hbody, hsame.symm.trans hholder, rfl⟩,
      s.time, rfl, fun state' hknown' _ _ => (h.stored state' hknown').landed⟩

/-- A step of one node, which may send a request but brings no tenure that was not there. -/
structure Local (duration : String → ℕ) (s s' : Sys) (i : String) (n : Node)
    (new : Option RequestOp) : Prop where
  time : s'.time = s.time
  object : s'.object = s.object
  node : ∀ k, s'.node k = if k = i then n else s.node k
  requests : s'.requests = s.requests ++ (new.map fun op => ⟨i, op, none⟩).toList
  leads : n.isLeader = true → ∀ deadline ∈ n.leaderUntil, s.Tenure duration i deadline
  named : n.phase ≠ .idle → i ≠ ""
  writes : n.phase = (s.node i).phase ∨ ∀ c mono, n.phase = .writing c mono →
    mono = s.time ∧ c = s.requests.length ∧
      ∃ op ∈ new, ∃ body ∈ op.body, body.holder = some i
  plans : ∀ op ∈ new, ∀ state ∈ op.state, s.Known state
  signed : ∀ op ∈ new, ∀ body ∈ op.body, body.holder = none ∨
    Signed duration s.time i op.state body ∧ ∃ now ∈ body.renewTime, s.Fresh i now
  observes : s.Observes i n

namespace Local

variable {new : Option RequestOp}

section

variable (h : Local duration s s' i n new)

include h

lemma mem_old (hr : r ∈ s.requests) : r ∈ s'.requests := by
  rw [h.requests]
  exact List.mem_append_left _ hr

/-- A request after the step was there before, or was just sent. -/
lemma mem_cases (hr : r ∈ s'.requests) : r ∈ s.requests ∨ ∃ op ∈ new, r = ⟨i, op, none⟩ := by
  rw [h.requests] at hr
  refine (mem_append.mp hr).imp_right fun hr => ?_
  obtain ⟨op, hop, rfl⟩ := map_eq_some_iff.mp (mem_toList.mp hr)
  exact ⟨op, hop, rfl⟩

lemma getElem?_old {c : ℕ} (hc : c < s.requests.length) : s'.requests[c]? = s.requests[c]? := by
  rw [h.requests, getElem?_append_left hc]

/-- The same by position. -/
lemma getElem?_cases {c : ℕ} (hr : s'.requests[c]? = some r) :
    s.requests[c]? = some r ∨ c = s.requests.length ∧ ∃ op ∈ new, r = ⟨i, op, none⟩ := by
  rcases lt_or_ge c s.requests.length with hlt | hge
  · exact .inl ((h.getElem?_old hlt).symm.trans hr)
  · rw [h.requests, List.getElem?_append_right hge] at hr
    cases new with
    | none => cases hr
    | some op =>
      obtain ⟨hlt, heq⟩ := List.getElem?_eq_some_iff.mp hr
      rw [Option.map_some, Option.toList_some, List.length_singleton] at hlt
      refine .inr ⟨by omega, op, rfl, ?_⟩
      exact heq.symm.trans (List.getElem_singleton hlt)

/-- A request that was just sent is not answered and was planned on what was known. -/
theorem known (hknown : s'.Known state) : s.Known state := by
  rcases hknown with hobject | ⟨r, hr, hanswer⟩ | ⟨r, hr, hstate⟩
  · exact .inl (h.object ▸ hobject)
  · rcases h.mem_cases hr with hold | ⟨op, -, rfl⟩
    · exact .inr (.inl ⟨r, hold, hanswer⟩)
    · cases hanswer
  · rcases h.mem_cases hr with hold | ⟨op, hop, rfl⟩
    · exact .inr (.inr ⟨r, hold, hstate⟩)
    · exact h.plans op hop state hstate

/-- Such a step brings no tenure. -/
theorem tenure (hinv : s.Inv duration) (htenure : s'.Tenure duration k deadline) :
    s.Tenure duration k deadline := by
  have hold : ∀ c mono, (s.node k).phase = .writing c mono → s'.answer c = s.answer c := by
    intro c mono hphase
    obtain ⟨-, r, hr, -⟩ := hinv.writes k c mono hphase
    unfold answer
    rw [h.getElem?_old (List.getElem?_eq_some_iff.mp hr).1]
  unfold Tenure at htenure
  rw [h.node k] at htenure
  split at htenure
  next heq =>
    subst heq
    rcases htenure with ⟨hlead, hdeadline⟩ | ⟨c, mono, hphase, rfl, hanswer⟩
    · exact h.leads hlead deadline hdeadline
    · rcases h.writes with hsame | hnew
      · rw [hsame] at hphase
        exact .inr ⟨c, mono, hphase, rfl, (hold c mono hphase).symm.trans hanswer⟩
      · -- a request that was just sent has no answer
        obtain ⟨-, rfl, op, hop, -⟩ := hnew c mono hphase
        unfold answer at hanswer
        rw [h.requests, show new = some op from hop] at hanswer
        simp at hanswer
  next =>
    refine htenure.imp_right ?_
    rintro ⟨c, mono, hphase, rfl, hanswer⟩
    exact ⟨c, mono, hphase, rfl, (hold c mono hphase).symm.trans hanswer⟩

/-- What is known of an object stays. -/
lemma stored (hstored : s.Stored state) : s'.Stored state := by
  obtain ⟨hlanded, ⟨r, hr, hwritten⟩, hnewest⟩ := hstored
  refine ⟨?_, ⟨r, h.mem_old hr, hwritten⟩, ?_⟩
  · rw [h.time]
    exact hlanded
  · rw [h.object]
    exact hnewest

/-- So does what is known of an observation. -/
lemma observed {renew : Option ℕ} {seen : Option Time} (hobserved : s.Observed k renew seen) :
    s'.Observed k renew seen := by
  obtain ⟨⟨r, hr, hwritten⟩, anchor, hseen, hanchor⟩ := hobserved
  exact ⟨⟨r, h.mem_old hr, hwritten⟩, anchor, hseen,
    fun state hknown => hanchor state (h.known hknown)⟩

/-- The stamp of a new request is no stamp of an old one. -/
theorem fresh (hinv : s.Inv duration) (hop : op ∈ new) (hr : r ∈ s.requests)
    {body body' : Body} (hbody : body ∈ op.body) (hbody' : body' ∈ r.op.body)
    (hsome : body.holder ≠ none) (hholder : body'.holder = body.holder) :
    body'.renewTime ≠ body.renewTime := by
  obtain ⟨hsigned, now, hnow, hfresh⟩ :=
    (h.signed op hop body hbody).resolve_left hsome
  have hsigned' := (hinv.signed r hr body' hbody').resolve_left fun hcleared =>
    hsome (hholder.symm.trans hcleared)
  have hnode : r.node = i := by
    have heq := hsigned'.holder.symm.trans (hholder.trans hsigned.holder)
    exact Option.some.inj heq
  rw [show body.renewTime = some now from hnow]
  exact hfresh r hr hnode body' hbody'

/-- A node with a live tenure had it before. -/
lemma live (hinv : s.Inv duration) (hlive : s'.Live duration k) : s.Live duration k := by
  obtain ⟨deadline, htenure, hlive⟩ := hlive
  exact ⟨deadline, h.tenure hinv htenure, h.time ▸ hlive⟩

/-- Such a step keeps the invariant. -/
theorem inv (hinv : s.Inv duration) : s'.Inv duration where
  tenure := by
    intro k deadline htenure hlive
    rw [h.time] at hlive
    unfold Backed
    rw [h.object]
    exact hinv.tenure k deadline (h.tenure hinv htenure) hlive
  alone := fun i k hi hk => hinv.alone i k (h.live hinv hi) (h.live hinv hk)
  named := by
    intro k hphase
    rw [h.node k] at hphase
    split at hphase
    next heq => exact heq ▸ h.named hphase
    next => exact hinv.named k hphase
  writes := by
    intro k c mono hphase
    rw [h.time]
    rw [h.node k] at hphase
    have hold : (s.node k).phase = .writing c mono → mono ≤ s.time ∧
        ∃ r, s'.requests[c]? = some r ∧ r.node = k ∧ ∃ body ∈ r.op.body, body.holder = some k := by
      intro hphase
      obtain ⟨hle, r, hr, hrest⟩ := hinv.writes k c mono hphase
      exact ⟨hle, r, (h.getElem?_old (List.getElem?_eq_some_iff.mp hr).1).trans hr, hrest⟩
    split at hphase
    next heq =>
      subst heq
      rcases h.writes with hsame | hnew
      · exact hold (hsame.symm.trans hphase)
      · obtain ⟨rfl, rfl, op, hop, hbody⟩ := hnew c mono hphase
        refine ⟨le_rfl, ⟨k, op, none⟩, ?_, rfl, hbody⟩
        rw [h.requests, show new = some op from hop]
        exact getElem?_concat_length
    next => exact hold hphase
  signed := by
    intro r hr body hbody
    rw [h.time]
    rcases h.mem_cases hr with hold | ⟨op, hop, rfl⟩
    · exact hinv.signed r hold body hbody
    · exact (h.signed op hop body hbody).imp_right And.left
  stamped := by
    intro c r c' r' hr hr' body hbody body' hbody' hsome hholder hrenew
    rcases h.getElem?_cases hr with hold | ⟨rfl, op, hop, rfl⟩ <;>
      rcases h.getElem?_cases hr' with hold' | ⟨rfl, op', hop', rfl⟩
    · exact hinv.stamped c r c' r' hold hold' body hbody body' hbody' hsome hholder hrenew
    · exact absurd hrenew (h.fresh hinv hop' (mem_of_getElem? hold) hbody' hbody
        (hholder ▸ hsome) hholder)
    · exact absurd hrenew.symm (h.fresh hinv hop (mem_of_getElem? hold') hbody hbody'
        hsome hholder.symm)
    · rfl
  stored := fun state hknown => h.stored (hinv.stored state (h.known hknown))
  observed := by
    intro k holder hholder
    rw [h.node k] at hholder ⊢
    split at hholder
    next heq =>
      subst heq
      rw [if_pos rfl]
      exact h.observed (hinv.observes h.observes hholder)
    next hne =>
      rw [if_neg hne]
      exact h.observed (hinv.observed k holder hholder)

end

end Local

/-- What a node is after one has changed. -/
lemma node_setNode (s : Sys) (i k : String) (n : Node) :
    (s.setNode i n).node k = if k = i then n else s.node k := by
  unfold node setNode
  rw [Dict.get?_set]
  split <;> rfl

section Steps

section

-- what the next record of a node has to meet
variable (h : s.Inv duration)
  (hleads : n.isLeader = true → ∀ deadline ∈ n.leaderUntil, s.Tenure duration i deadline)
  (hnamed : n.phase ≠ .idle → i ≠ "") (hobserves : s.Observes i n)

include h hleads hnamed hobserves

/-- The node sends nothing. -/
theorem Inv.setNode (hphase : n.phase = (s.node i).phase ∨ n.phase = .idle) :
    (s.setNode i n).Inv duration := by
  have hlocal : Local duration s (s.setNode i n) i n none :=
    { time := rfl, object := rfl, leads := hleads, named := hnamed, observes := hobserves
      node := fun k => node_setNode s i k n
      requests := (append_nil _).symm
      writes := by
        refine hphase.imp_right fun hidle c mono hwriting => ?_
        rw [hidle] at hwriting
        cases hwriting
      plans := by simp
      signed := by simp }
  exact hlocal.inv h

/-- The node sends a request. -/
theorem Inv.send
    (hphase : n.phase = (s.node i).phase ∨ n.phase = .observing s.requests.length ∨
      n.phase = .writing s.requests.length s.time ∧ ∃ body ∈ op.body, body.holder = some i)
    (hplans : ∀ state ∈ op.state, s.Known state)
    (hsigned : ∀ body ∈ op.body, body.holder = none ∨
      Signed duration s.time i op.state body ∧ ∃ now ∈ body.renewTime, s.Fresh i now) :
    ((s.setNode i n).send i op).Inv duration := by
  have hlocal : Local duration s ((s.setNode i n).send i op) i n (some op) :=
    { time := rfl, object := rfl, leads := hleads, named := hnamed, observes := hobserves
      node := fun k => node_setNode s i k n
      requests := rfl
      writes := by
        refine hphase.imp_right fun hnew c mono hwriting => ?_
        rcases hnew with hreading | ⟨hwrites, hbody⟩
        · rw [hreading] at hwriting
          cases hwriting
        · rw [hwrites] at hwriting
          cases hwriting
          exact ⟨rfl, rfl, op, rfl, hbody⟩
      plans := by
        rintro _ ⟨⟩
        exact hplans
      signed := by
        rintro _ ⟨⟩
        exact hsigned }
  exact hlocal.inv h

/-- A read starts a round, or the release in `stop`. -/
theorem Inv.reads
    (hphase : n.phase = (s.node i).phase ∨ n.phase = .observing s.requests.length) :
    ((s.setNode i n).send i .observe).Inv duration :=
  h.send hleads hnamed hobserves (hphase.imp_right .inl) (by simp [state])
    (by simp [body])

end

/-- The tenure of a node that keeps what it has. -/
theorem tenure_of_leader (hlead : (s.node i).isLeader = true) (deadline : Time)
    (hdeadline : deadline ∈ (s.node i).leaderUntil) : s.Tenure duration i deadline :=
  .inl ⟨hlead, hdeadline⟩

/-- A node that tracks nothing keeps its observation. -/
lemma observes_self : s.Observes i (s.node i) := .inl ⟨rfl, rfl, rfl⟩

/-- `stop` and `_release` move on, and may end the leadership. -/
theorem Inv.stops (h : s.Inv duration) (stopping : Stopping) {lead : Bool}
    (hlead : lead = true → (s.node i).isLeader = true) :
    (s.setNode i { s.node i with stopping, isLeader := lead }).Inv duration :=
  h.setNode (fun h' => tenure_of_leader (hlead h')) (h.named i) observes_self (.inl rfl)

/-- An observation is kept, or is of the object that was found. -/
lemma trackObservation_cases (state : Option Record) (mono : Time) (n : Node) :
    n.trackObservation state mono = n ∨ ∃ found ∈ state, n.trackObservation state mono = { n with
      observedHolder := found.holder, observedRenew := found.renewTime
      observedAt := some mono } := by
  unfold Node.trackObservation
  cases state with
  | none => exact .inl rfl
  | some found =>
    simp only
    split
    · exact .inr ⟨found, rfl, rfl⟩
    · exact .inl rfl

/-- Tracking an observation changes nothing else. -/
theorem trackObservation_eq (state : Option Record) (mono : Time) (n : Node) :
    (n.trackObservation state mono).isLeader = n.isLeader ∧
      (n.trackObservation state mono).leaderUntil = n.leaderUntil := by
  rcases trackObservation_cases state mono n with heq | ⟨found, -, heq⟩ <;> simp [heq]

/-- A node that tracks a known object observes it. -/
theorem observes_track {state : Option Record} (hknown : ∀ found ∈ state, s.Known found) :
    s.Observes i ((s.node i).trackObservation state s.time) := by
  rcases trackObservation_cases state s.time (s.node i) with heq | ⟨found, hfound, heq⟩
  · rw [heq]
    exact observes_self
  · rw [heq]
    exact .inr ⟨found, hknown found hfound, rfl, rfl, rfl⟩

/-- What was tracked is the object that was found. -/
theorem track_found (found : Record) (mono : Time) (n : Node) :
    (n.trackObservation (some found) mono).observedHolder = found.holder ∧
      (n.trackObservation (some found) mono).observedRenew = found.renewTime := by
  unfold Node.trackObservation
  simp only
  split
  next => exact ⟨rfl, rfl⟩
  next hsame => grind

section

variable (h : s.Inv duration)

include h

/-- A known object with a holder states the holder's duration. -/
theorem Inv.holder_named {found : Record} (hknown : s.Known found)
    (hholder : found.holder = some k) : k ≠ "" ∧ found.duration = some (duration k) := by
  obtain ⟨-, ⟨r, hr, -, hbody⟩, -⟩ := h.stored found hknown
  have hsigned := (h.signed r hr found.toBody hbody).resolve_left fun hcleared =>
    absurd (hholder.symm.trans hcleared) (by simp)
  obtain rfl := Option.some.inj (hholder.symm.trans hsigned.holder)
  exact ⟨hsigned.named, hsigned.lasts⟩

/-- A node that finds the lease of another one expired has watched it for its whole duration. -/
theorem Inv.expired {found : Record} (hknown : s.Known found) (hholder : found.holder = some k)
    (hexpired : leaseIsExpired found s.time ((s.node i).trackObservation (some found)
      s.time).observedAt = true) :
    found.landedAt + duration k ≤ s.time := by
  obtain ⟨hsame, hrenew⟩ := track_found found s.time (s.node i)
  have hobserves : s.Observes i ((s.node i).trackObservation (some found) s.time) :=
    observes_track (by rintro _ ⟨⟩; exact hknown)
  obtain ⟨-, anchor, hanchor, hlanded⟩ := h.observes hobserves (hsame.trans hholder)
  have hbefore := hlanded found hknown hholder hrenew.symm
  have hlands := (h.stored found hknown).landed
  unfold leaseIsExpired at hexpired
  rw [(h.holder_named hknown hholder).2, hanchor] at hexpired
  cases hlasts : duration k with
  | zero => simpa using hlands
  | succ d =>
    rw [hlasts] at hexpired
    have hwatched : anchor + ((d + 1 : ℕ) : Time) ≤ s.time := of_decide_eq_true hexpired
    linarith

/-- A round sends the write it planned, on an object it may write to. -/
theorem Inv.sends (hfresh : s.Fresh i now) (hi : i ≠ "") {state : Option Record}
    (hknown : ∀ found ∈ state, s.Known found) {action : Action}
    (hbody : op.body = some (buildLeaseBody i now (duration i) state action))
    (hstate : ∀ found ∈ op.state, found ∈ state)
    (hexpired : ∀ found ∈ op.state, ∀ k, found.holder = some k → k ≠ i →
      found.landedAt + duration k ≤ s.time) :
    ((s.setNode i { (s.node i).trackObservation state s.time with
      phase := .writing s.requests.length s.time }).send i op).Inv duration := by
  obtain ⟨hlead, huntil⟩ := trackObservation_eq state s.time (s.node i)
  refine h.send ?_ (fun _ => hi) (observes_track hknown) (.inr (.inr ⟨rfl, _, hbody, rfl⟩))
    (fun found hfound => hknown found (hstate found hfound)) ?_
  · rw [hlead, huntil]
    exact tenure_of_leader
  · intro body hop
    obtain rfl := Option.some.inj (hbody.symm.trans hop)
    exact .inr ⟨⟨hi, rfl, rfl, hexpired⟩, now, rfl, hfresh⟩

/-- A round that waits ends, and with it the leadership. -/
theorem Inv.waits {state : Option Record} (hknown : ∀ found ∈ state, s.Known found) :
    (s.setNode i { ((s.node i).trackObservation state s.time).applyWait s.time with
      phase := .idle }).Inv duration :=
  h.setNode (by rintro ⟨⟩) (fun hphase => absurd rfl hphase) (observes_track hknown) (.inr rfl)

/-- A round plans its write: what it takes over has expired. -/
theorem Inv.plan (hfresh : s.Fresh i now) (hi : i ≠ "") {state : Option Record}
    (hknown : ∀ found ∈ state, s.Known found) : (s.plan (duration i) i now state).Inv duration := by
  unfold Sys.plan
  simp only
  split
  next => exact h.waits hknown
  next => exact h.sends hfresh hi hknown rfl (by simp [state]) (by simp [state])
  next action found hwait hcreate =>
    refine h.sends hfresh hi hknown rfl (fun _ hfound => hfound) ?_
    rintro _ ⟨⟩ k hholder hk
    -- a round that neither renews its own lease nor waits has found the other one expired
    unfold decideLeaseAction at hwait
    simp only [hholder, Option.some.injEq, hk, if_false, reduceCtorEq, false_or] at hwait
    split at hwait
    next hor =>
      rcases hor with rfl | hexpired
      · exact absurd rfl (h.holder_named (hknown _ rfl) hholder).1
      · exact h.expired (hknown _ rfl) hholder hexpired
    next => exact absurd rfl hwait
  next => exact h

/-- A round goes on: it plans its write, or applies what was written. -/
lemma Inv.deliver (hfresh : s.Fresh i now)
    (hstep : s.deliver (duration i) i now = some s') : s'.Inv duration := by
  unfold Sys.deliver at hstep
  split at hstep
  next => cases hstep
  next c hphase =>
    split at hstep
    next state hanswer =>
      have hknown : ∀ found ∈ state, s.Known found := by
        rintro found ⟨⟩
        obtain ⟨r, hr, hanswer⟩ := bind_eq_some_iff.mp hanswer
        exact .inr (.inl ⟨r, mem_of_getElem? hr, hanswer⟩)
      simp only at hstep
      split at hstep
      next =>
        cases hstep
        obtain ⟨hlead, huntil⟩ := trackObservation_eq state s.time (s.node i)
        refine h.setNode ?_ (fun hidle => absurd rfl hidle) (observes_track hknown) (.inr rfl)
        rw [hlead, huntil]
        exact tenure_of_leader
      next =>
        cases hstep
        exact h.plan hfresh (h.named i (by simp [hphase])) hknown
    next => cases hstep
  next c mono hphase =>
    split at hstep
    next ok hanswer =>
      cases hstep
      -- leadership is applied for the tenure that the answer had brought
      refine h.setNode ?_ (fun hidle => absurd rfl hidle) ?_ (.inr rfl)
      · cases ok with
        | false => rintro ⟨⟩
        | true =>
          rintro - _ ⟨⟩
          exact .inr ⟨c, mono, hphase, rfl, hanswer⟩
      · unfold Node.applyWrite
        split <;> exact observes_self
    next => cases hstep

/-- `_release` goes on: it sends a body without a holder, or ends. -/
lemma Inv.release (hstep : s.release (duration i) i = some s') : s'.Inv duration := by
  unfold Sys.release at hstep
  simp only at hstep
  split at hstep
  next c hstopping =>
    split at hstep
    next state hanswer =>
      split at hstep
      next hholder =>
        cases hstep
        obtain ⟨r, hr, hanswer⟩ := bind_eq_some_iff.mp hanswer
        refine h.send tenure_of_leader (h.named i) observes_self (.inl rfl) ?_ ?_
        · rintro _ ⟨⟩
          exact .inr (.inl ⟨r, mem_of_getElem? hr, hanswer⟩)
        · rintro _ ⟨⟩
          exact .inl rfl
      next =>
        cases hstep
        exact h.stops .closing id
    next =>
      cases hstep
      exact h.stops .closing id
    next => cases hstep
  next c hstopping =>
    obtain ⟨-, ⟨⟩⟩ := ite_none_right_eq_some.mp hstep
    exact h.stops .closing id
  next => cases hstep

end

end Steps

/-! ## The apiserver answers -/

/-- The write of a request that was applied, and the version it was given. -/
structure Applied (s : Sys) (op : RequestOp) (body : Body) (version : ℕ) : Prop where
  body : op.body = some body
  /-- A replace is applied to the object it was planned on, and a create to none. -/
  found : s.object.map Record.version = op.state.map Record.version
  newer : ∀ object ∈ s.object, object.version < version

/-- A request leaves the object as it is, or is applied. -/
lemma serve_cases (s : Sys) (op : RequestOp) :
    ((s.serve op).1 = s.object ∧ ((s.serve op).2 = .written false ∨
        (s.serve op).2 = .found s.object)) ∨
      ∃ body version, s.serve op = (some (s.store version body), .written true) ∧
        Applied s op body version := by
  unfold serve
  cases op with
  | observe => exact .inl ⟨rfl, .inr rfl⟩
  | create body =>
    simp only
    split
    next hnone =>
      refine .inr ⟨body, 1, rfl, rfl, ?_, ?_⟩
      · simp [hnone, state]
      · simp [hnone]
    next => exact .inl ⟨rfl, .inl rfl⟩
  | replace state body =>
    simp only
    split
    next object hobject =>
      split
      next hversion =>
        refine .inr ⟨body, object.version + 1, rfl, rfl, ?_, ?_⟩
        · simp [hobject, RequestOp.state, hversion]
        · simp [hobject]
      next => exact .inl ⟨rfl, .inl rfl⟩
    next => exact .inl ⟨rfl, .inl rfl⟩

section Land

variable {c : ℕ}

/-- The state after the request `c` of node `i` was answered. -/
def landed (s : Sys) (c : ℕ) (i : String) (op : RequestOp) (result : Option Record × Answer) :
    Sys :=
  { s with object := result.1, requests := s.requests.set c ⟨i, op, some result.2⟩ }

section

variable (hr : s.requests[c]? = some ⟨i, op, none⟩)

include hr

/-- Only the request that was answered has a new answer. -/
lemma answer_landed (result : Option Record × Answer) (c' : ℕ) :
    (s.landed c i op result).answer c' = if c' = c then some result.2 else s.answer c' := by
  unfold answer landed
  by_cases heq : c' = c
  · subst heq
    rw [Log.set_self hr, if_pos rfl]
    rfl
  · rw [List.getElem?_set_ne (Ne.symm heq), if_neg heq]

lemma getElem?_landed (result : Option Record × Answer) {c' : ℕ}
    (hr' : s.requests[c']? = some r) :
    ∃ answer, (s.landed c i op result).requests[c']? = some { r with answer } := by
  rcases Log.set_at hr hr' ⟨i, op, some result.2⟩ with ⟨-, rfl, hnew⟩ | hother
  · exact ⟨_, hnew⟩
  · exact ⟨r.answer, hother⟩

/-- An answer changes nothing about what was asked. -/
theorem getElem?_of_landed {result : Option Record × Answer} {c' : ℕ}
    (hr' : (s.landed c i op result).requests[c']? = some r) :
    ∃ answer, s.requests[c']? = some { r with answer } := by
  rcases Log.set_cases hr' with ⟨rfl, rfl⟩ | ⟨-, hold⟩
  · exact ⟨none, hr⟩
  · exact ⟨r.answer, hold⟩

/-- A request that was answered keeps its answer. -/
theorem mem_landed (result : Option Record × Answer) (hmem : r ∈ s.requests)
    (hanswer : r.answer ≠ none) : r ∈ (s.landed c i op result).requests := by
  obtain ⟨c', hr'⟩ := List.mem_iff_getElem?.mp hmem
  refine List.mem_iff_getElem?.mpr ⟨c', ?_⟩
  rcases Log.set_at hr hr' ⟨i, op, some result.2⟩ with ⟨-, rfl, -⟩ | hother
  · exact absurd rfl hanswer
  · exact hother

/-- What is known after an answer was known before, or was just written. -/
theorem known_landed (hknown : (s.landed c i op (s.serve op)).Known state) :
    s.Known state ∨ ∃ body version, s.serve op = (some state, .written true) ∧
      state = s.store version body ∧ Applied s op body version := by
  have hcases := serve_cases s op
  rcases hknown with hobject | ⟨r, hmem, hanswer⟩ | ⟨r, hmem, hstate⟩
  · rcases hcases with ⟨hsame, -⟩ | ⟨body, version, hserve, happlied⟩
    · exact .inl (.inl (hsame.symm.trans hobject))
    · obtain rfl := Option.some.inj ((congrArg Prod.fst hserve).symm.trans hobject)
      exact .inr ⟨body, version, hserve, rfl, happlied⟩
  · rcases mem_or_eq_of_mem_set hmem with hold | rfl
    · exact .inl (.inr (.inl ⟨r, hold, hanswer⟩))
    · -- the answer of a read is the current object
      have hfound := Option.some.inj hanswer
      rcases hcases with ⟨-, hrefused | hread⟩ | ⟨body, version, hserve, -⟩
      · rw [hrefused] at hfound
        cases hfound
      · rw [hread] at hfound
        exact .inl (.inl (Answer.found.inj hfound))
      · rw [hserve] at hfound
        cases hfound
  · rcases mem_or_eq_of_mem_set hmem with hold | rfl
    · exact .inl (.inr (.inr ⟨r, hold, hstate⟩))
    · exact .inl (.inr (.inr ⟨_, mem_of_getElem? hr, hstate⟩))

end

section

variable (h : s.Inv duration) (hr : s.requests[c]? = some ⟨i, op, none⟩)

include h hr

/-- What is known of an object holds after a request was answered. -/
lemma Inv.stored_landed (hknown : (s.landed c i op (s.serve op)).Known state) :
    (s.landed c i op (s.serve op)).Stored state := by
  rcases known_landed hr hknown with hold | ⟨body, version, hserve, rfl, happlied⟩
  · obtain ⟨hlands, ⟨r, hmem, hwritten, hbody⟩, object, hobject, hle, heq⟩ := h.stored state hold
    refine ⟨hlands, ⟨r, mem_landed hr _ hmem (by simp [hwritten]), hwritten, hbody⟩, ?_⟩
    rcases serve_cases s op with ⟨hsame, -⟩ | ⟨body, version, hserve, happlied⟩
    · exact ⟨object, hsame.trans hobject, hle, heq⟩
    · -- the version of a new object is a new one
      have hnewer := happlied.newer object hobject
      refine ⟨s.store version body, congrArg Prod.fst hserve, ?_, fun hversion => ?_⟩
      · exact (hle.trans_lt hnewer).le
      · exact absurd hversion (hle.trans_lt hnewer).ne
  · refine ⟨le_rfl, ⟨⟨i, op, some (.written true)⟩, ?_, rfl, happlied.body⟩, ?_⟩
    · unfold landed
      rw [hserve]
      exact List.mem_set (List.getElem?_eq_some_iff.mp hr).1 _
    · exact ⟨s.store version body, congrArg Prod.fst hserve, le_rfl, fun _ => rfl⟩

/-- An observation is not older than a record that was just written. -/
lemma Inv.observed_landed {holder : String} {renew : Option ℕ} {seen : Option Time}
    (hobserved : s.Observed holder renew seen) :
    (s.landed c i op (s.serve op)).Observed holder renew seen := by
  obtain ⟨⟨r, hmem, hwritten, body, hbody, hholder, hrenew⟩, anchor, hseen, hanchor⟩ := hobserved
  refine ⟨⟨r, mem_landed hr _ hmem (by simp [hwritten]), hwritten, body, hbody, hholder, hrenew⟩,
    anchor, hseen, fun state hknown hholder' hrenew' => ?_⟩
  rcases known_landed hr hknown with hold | ⟨body', version, hserve, rfl, happlied⟩
  · exact hanchor state hold hholder' hrenew'
  · -- a write that was observed had been applied, so it is not the one that is applied now
    obtain ⟨c', hr'⟩ := List.mem_iff_getElem?.mp hmem
    obtain rfl := h.stamped c ⟨i, op, none⟩ c' r hr hr' body' happlied.body body hbody
      (fun hnone => absurd (hholder'.symm.trans hnone) (by simp))
      (hholder'.trans hholder.symm) (hrenew'.trans hrenew.symm)
    rw [hr] at hr'
    cases hr'
    cases hwritten

/-- The only tenure that an answer can bring is the one of the node that asked. -/
theorem Inv.tenure_landed {result : Option Record × Answer}
    (htenure : (s.landed c i op result).Tenure duration k deadline) :
    s.Tenure duration k deadline ∨ k = i ∧ result.2 = .written true ∧
      (∃ body ∈ op.body, body.holder = some i) ∧
      deadline ≤ fenceDeadline (duration i) s.time := by
  rcases htenure with hlead | ⟨c', mono, hphase, rfl, hanswer⟩
  · exact .inl (.inl hlead)
  · rw [answer_landed hr] at hanswer
    split at hanswer
    next heq =>
      subst heq
      obtain ⟨hmono, r, hr', rfl, hbody⟩ := h.writes k c' mono hphase
      rw [hr] at hr'
      cases hr'
      refine .inr ⟨rfl, Option.some.inj hanswer, hbody, ?_⟩
      unfold fenceDeadline
      linarith
    next => exact .inl (.inr ⟨c', mono, hphase, rfl, hanswer⟩)

/-- An object that a request is applied to is the one it was planned on. -/
theorem Inv.found_eq {body : Body} {version : ℕ} (happlied : Applied s op body version)
    {object : Record} (hobject : s.object = some object) : op.state = some object := by
  have hfound := happlied.found
  rw [hobject] at hfound
  obtain ⟨state, hstate, hversion⟩ := map_eq_some_iff.mp hfound.symm
  have hknown : s.Known state := .inr (.inr ⟨_, mem_of_getElem? hr, hstate⟩)
  obtain ⟨object', hobject', -, heq⟩ := (h.stored state hknown).newest
  obtain rfl := Option.some.inj (hobject.symm.trans hobject')
  rw [hstate, heq hversion]

omit hr in
/-- A live tenure does not outlast the fence of a write that is applied now. -/
theorem Inv.fence_le (htenure : s.Tenure duration k deadline) (hlive : s.time < deadline) :
    deadline ≤ fenceDeadline (duration k) s.time := by
  obtain ⟨object, hobject, -, hfence⟩ := h.tenure k deadline htenure hlive
  have hlands := (h.stored object (.inl hobject)).landed
  unfold fenceDeadline at hfence ⊢
  linarith

-- a Lease without a holder is written to after the tenures of the other nodes
variable (hover : ∀ body version, Applied s op body version → body.holder ≠ none →
  ∀ object, s.object = some object → object.holder = none → ∀ k, s.Live duration k → k = i)

include hover

/-- A node with a live tenure is the one whose round writes. -/
theorem Inv.own_of_applied {body : Body} {version : ℕ} (happlied : Applied s op body version)
    (hsome : body.holder ≠ none) (htenure : s.Tenure duration k deadline)
    (hlive : s.time < deadline) : k = i := by
  obtain ⟨object, hobject, hholder | hnone, hfence⟩ := h.tenure k deadline htenure hlive
  · by_contra hk
    -- a takeover: the tenure has ended
    have hsigned := (h.signed _ (mem_of_getElem? hr) body happlied.body).resolve_left hsome
    have hexpired := hsigned.expired object (h.found_eq hr happlied hobject) k hholder hk
    have hskew : (0 : Time) < skewSeconds := by decide +kernel
    unfold fenceDeadline at hfence
    linarith
  · exact hover body version happlied hsome object hobject hnone k ⟨deadline, htenure, hlive⟩

/-- A live tenure stays backed when a request is answered. -/
theorem Inv.backed_landed
    (htenure : (s.landed c i op (s.serve op)).Tenure duration k deadline)
    (hlive : s.time < deadline) : (s.landed c i op (s.serve op)).Backed duration k deadline := by
  have hnew := h.tenure_landed hr htenure
  rcases serve_cases s op with ⟨hsame, hrefused⟩ | ⟨body, version, hserve, happlied⟩
  · -- the object stays, and with it every tenure
    have hold : s.Tenure duration k deadline := by
      refine hnew.resolve_right ?_
      rintro ⟨-, hwritten, -, -⟩
      rcases hrefused with hrefused | hrefused <;>
        · rw [hrefused] at hwritten
          cases hwritten
    obtain ⟨object, hobject, hrest⟩ := h.tenure k deadline hold hlive
    exact ⟨object, hsame.trans hobject, hrest⟩
  · refine ⟨s.store version body, congrArg Prod.fst hserve, ?_, ?_⟩
    · rcases h.signed _ (mem_of_getElem? hr) body happlied.body with hnone | hsigned
      · exact .inr hnone
      · have hown : k = i := by
          rcases hnew with hold | ⟨hk, -⟩
          · exact h.own_of_applied hr hover happlied (by simp [hsigned.holder]) hold hlive
          · exact hk
        exact .inl (hown ▸ hsigned.holder)
    · rcases hnew with hold | ⟨rfl, -, -, hbound⟩
      · exact h.fence_le hold hlive
      · exact hbound

/-- The tenures that have not ended stay those of one node when a request is answered. -/
theorem Inv.alone_landed {k k' : String}
    (hk : (s.landed c i op (s.serve op)).Live duration k)
    (hk' : (s.landed c i op (s.serve op)).Live duration k') : k = k' := by
  obtain ⟨deadline, htenure, hlive⟩ := hk
  obtain ⟨deadline', htenure', hlive'⟩ := hk'
  -- a node beside the one that gained a tenure is the one that wrote
  have hown : ∀ {k deadline}, (s.serve op).2 = .written true →
      (∃ body ∈ op.body, body.holder = some i) → s.Tenure duration k deadline →
      s.time < deadline → k = i := by
    rintro k deadline hwritten ⟨body, hbody, hholder⟩ hold hlive
    rcases serve_cases s op with ⟨-, hrefused | hread⟩ | ⟨body', version, -, happlied⟩
    · rw [hrefused] at hwritten
      cases hwritten
    · rw [hread] at hwritten
      cases hwritten
    · obtain rfl := Option.some.inj (happlied.body.symm.trans hbody)
      exact h.own_of_applied hr hover happlied (by simp [hholder]) hold hlive
  rcases h.tenure_landed hr htenure with hold | ⟨rfl, hwritten, hbody, -⟩ <;>
    rcases h.tenure_landed hr htenure' with hold' | ⟨rfl, hwritten', hbody', -⟩
  · exact h.alone k k' ⟨deadline, hold, hlive⟩ ⟨deadline', hold', hlive'⟩
  · exact hown hwritten' hbody' hold hlive
  · exact (hown hwritten hbody hold' hlive').symm
  · rfl

/-- An answer of the apiserver keeps the invariant. -/
theorem Inv.land : (s.landed c i op (s.serve op)).Inv duration where
  tenure := fun _ _ htenure hlive => h.backed_landed hr hover htenure hlive
  alone := fun _ _ hk hk' => h.alone_landed hr hover hk hk'
  named := h.named
  writes := by
    intro k c' mono hphase
    obtain ⟨hle, r, hr', hnode, hbody⟩ := h.writes k c' mono hphase
    obtain ⟨answer, hr''⟩ := getElem?_landed hr (s.serve op) hr'
    exact ⟨hle, _, hr'', hnode, hbody⟩
  signed := Log.forall_set h.signed c (h.signed ⟨i, op, none⟩ (mem_of_getElem? hr))
  stamped := by
    intro c₁ r₁ c₂ r₂ hr₁ hr₂ body₁ hbody₁ body₂ hbody₂
    obtain ⟨answer₁, hold₁⟩ := getElem?_of_landed hr hr₁
    obtain ⟨answer₂, hold₂⟩ := getElem?_of_landed hr hr₂
    exact h.stamped c₁ { r₁ with answer := answer₁ } c₂ { r₂ with answer := answer₂ } hold₁ hold₂
      body₁ hbody₁ body₂ hbody₂
  stored := fun _ hknown => h.stored_landed hr hknown
  observed := fun k holder hholder => h.observed_landed hr (h.observed k holder hholder)

end

end Land

/-! ## Time passes -/

/-- Time ends tenures and leases, and brings none. -/
theorem Inv.tick {elapsed : Time} (h : s.Inv duration)
    (helapsed : 0 ≤ elapsed) : ({ s with time := s.time + elapsed } : Sys).Inv duration := by
  have hlater : s.time ≤ s.time + elapsed := le_add_of_nonneg_right helapsed
  exact { h with
    tenure := fun i deadline htenure hlive => h.tenure i deadline htenure (hlater.trans_lt hlive)
    alone := by
      rintro i k ⟨deadline, htenure, hlive⟩ ⟨deadline', htenure', hlive'⟩
      exact h.alone i k ⟨deadline, htenure, hlater.trans_lt hlive⟩
        ⟨deadline', htenure', hlater.trans_lt hlive'⟩
    writes := fun i c mono hphase => ⟨(h.writes i c mono hphase).1.trans hlater,
      (h.writes i c mono hphase).2⟩
    signed := by
      intro r hr body hbody
      refine (h.signed r hr body hbody).imp_right fun hsigned => ?_
      exact ⟨hsigned.named, hsigned.holder, hsigned.lasts, fun found hfound k hk hne =>
        (hsigned.expired found hfound k hk hne).trans hlater⟩
    stored := by
      intro state hknown
      obtain ⟨hlanded, hwritten, hnewest⟩ := h.stored state hknown
      exact ⟨hlanded.trans hlater, hwritten, hnewest⟩
    observed := fun i k hholder =>
      ⟨(h.observed i k hholder).written, (h.observed i k hholder).anchored⟩ }

end Sys

/-! ## Runs -/

/-- The steps that hand the Lease over only after a tenure: a node whose write is applied to a Lease
without a holder finds no other node with a tenure that has not ended. -/
def Sys.HandsOver (duration : String → ℕ) (s : Sys) : Event → Prop
  | .land c => ∀ i state body, s.requests[c]? = some ⟨i, .replace state body, none⟩ →
      body.holder ≠ none → state.holder = none →
      s.object.map Record.version = some state.version →
        ∀ k, s.Live duration k → k = i
  | _ => True

/-- A step that hands the Lease over only after a tenure. -/
def OrderlyStep (duration : String → ℕ) (s : Sys) (event : Event) (s' : Sys) : Prop :=
  s.step duration event = some s' ∧ s.HandsOver duration event

/-- A step that does keeps the invariant. -/
theorem Sys.Inv.step {event : Event} (h : s.Inv duration)
    (hstep : OrderlyStep duration s event s') : s'.Inv duration := by
  obtain ⟨hstep, hover⟩ := hstep
  cases event with simp only [Sys.step] at hstep
  | tick elapsed =>
    obtain ⟨helapsed, ⟨⟩⟩ := ite_none_right_eq_some.mp hstep
    exact h.tick helapsed
  | round i =>
    obtain ⟨hready, ⟨⟩⟩ := ite_none_right_eq_some.mp hstep
    exact h.reads tenure_of_leader (fun _ => hready.1) observes_self (.inr rfl)
  | land c =>
    split at hstep
    next i op hr =>
      cases hstep
      refine h.land hr fun body version happlied hsome object hobject hnone => ?_
      -- an object that is there is only replaced
      have hfound := h.found_eq hr happlied hobject
      cases op with
      | observe | create => cases hfound
      | replace state body' =>
        obtain rfl := Option.some.inj happlied.body
        obtain rfl := Option.some.inj hfound
        exact hover i state body' hr hsome hnone happlied.found
    next => cases hstep
  | deliver i now =>
    split at hstep
    next hfresh => exact h.deliver hfresh hstep
    next => cases hstep
  | abandon i =>
    cases hstep
    exact h.setNode tenure_of_leader (fun hidle => absurd rfl hidle) observes_self
      (.inr rfl)
  | stop i =>
    obtain ⟨-, ⟨⟩⟩ := ite_none_right_eq_some.mp hstep
    unfold stop
    simp only
    split
    next => exact h.reads tenure_of_leader (h.named i) observes_self (.inl rfl)
    next => exact h.stops .closing id
  | release i => exact h.release hstep
  | giveUp i =>
    split at hstep
    case h_1 | h_2 =>
      cases hstep
      exact h.stops .closing id
    case h_3 => cases hstep
  | closed i =>
    obtain ⟨-, ⟨⟩⟩ := ite_none_right_eq_some.mp hstep
    exact h.stops .stopped (by rintro ⟨⟩)

/-- A node that leads has a live tenure. -/
theorem Sys.live_of_leads (duration : String → ℕ) (h : s.leads i = true) :
    s.Live duration i := by
  unfold leads Node.leads at h
  simp only [Bool.and_eq_true, Option.any_eq_true, decide_eq_true_eq] at h
  obtain ⟨hlead, deadline, hdeadline, hlive⟩ := h
  exact ⟨deadline, .inl ⟨hlead, hdeadline⟩, hlive⟩

/-- When a Lease without a holder is written to only after the tenures of the other nodes, no two
nodes lead at one instant. -/
theorem lease_one_leader {duration : String → ℕ} {time : Time} {events : List Event} {s : Sys}
    (hrun : Trace.Run (OrderlyStep duration) (Sys.init time) events s) :
    ∀ i j, s.leads i = true → s.leads j = true → i = j := by
  intro i j hi hj
  have hinv : s.Inv duration :=
    hrun.invariant (fun _ _ _ h hstep => h.step hstep) (inv_init duration time)
  exact hinv.alone i j (live_of_leads duration hi) (live_of_leads duration hj)

/-! ### A stopping leader -/

section Runs

/-- The durations of the two nodes below. -/
def fifteen : String → ℕ := fun _ => 15

/-- A node creates the Lease and leads. -/
private def creates : List Event :=
  [.round "a", .land 0, .deliver "a" 100, .land 1, .deliver "a" 101]

/-- It is stopped, and clears the holder. -/
private def hands : List Event := [.stop "a", .land 2, .release "a", .land 3]

/-- Another node finds the Lease without a holder. -/
private def takes : List Event :=
  [.round "b", .land 4, .deliver "b" 100, .land 5, .deliver "b" 101]

/-- A node that is being stopped has released the Lease and still leads, and another node leads
too. -/
theorem two_leaders_while_stopping :
    (Sys.exec fifteen (Sys.init 0) (creates ++ hands ++ takes)).map
      (fun s => (s.leads "a", s.leads "b")) = some (true, true) := by
  decide +kernel

/-- A node has neither a round nor a deadline that is not past. -/
private def through (s : Sys) (n : Node) : Bool :=
  n.phase = .idle && n.leaderUntil.all fun deadline => decide (deadline ≤ s.time)

/-- A write finds a holder, or the other nodes are through. -/
private def quiet (s : Sys) : Event → Bool
  | .land c => s.requests[c]?.all fun r => r.op.state.all (fun state => state.holder.isSome) ||
      s.nodes.items.all fun item => item.1 = r.node || through s item.2
  | _ => true

/-- A node that is through, or has done nothing, has no tenure that has not ended. -/
private lemma not_live_of_through (h : through s (s.node i) = true) (duration : String → ℕ) :
    ¬ s.Live duration i := by
  have hpast : (s.node i).phase = .idle ∧ ∀ d ∈ (s.node i).leaderUntil, d ≤ s.time := by
    simpa [through, Option.all_eq_true] using h
  rintro ⟨deadline, ⟨-, huntil⟩ | ⟨c, mono, hphase, -⟩, hlive⟩
  · exact absurd hlive (not_lt.mpr (hpast.2 deadline huntil))
  · rw [hpast.1] at hphase
    cases hphase

private lemma handsOver_of_quiet {event : Event} (h : quiet s event = true)
    (duration : String → ℕ) : s.HandsOver duration event := by
  cases event with
  | land c =>
    intro i state body hr _ hnone _ k hlive
    have hothers : ∀ k n, s.nodes.get? k = some n → k = i ∨ through s n = true := by
      simpa [quiet, hr, RequestOp.state, hnone, Dict.mem_items_iff] using h
    by_contra hk
    refine not_live_of_through ?_ duration hlive
    unfold node
    cases hget : s.nodes.get? k with
    | none => rfl
    | some n => exact (hothers k n hget).resolve_left hk
  | _ => trivial

/-- The step, if it is quiet. -/
private def orderly (s : Sys) (event : Event) : Option Sys :=
  if quiet s event then s.step fifteen event else none

private lemma orderlyStep_of_orderly (s : Sys) (event : Event) (s' : Sys)
    (h : orderly s event = some s') : OrderlyStep fifteen s event s' := by
  unfold orderly at h
  split at h
  next hquiet => exact ⟨h, handsOver_of_quiet hquiet fifteen⟩
  next => cases h

/-- The first node is stopped while it leads, and the second one writes after its deadline. -/
private def handedRun : List Event := creates ++ hands ++ [.tick 14] ++ takes

/-- Then the second node leads, and only it does. -/
theorem lease_one_leader_handed :
    ∃ s, Trace.Run (OrderlyStep fifteen) (Sys.init 0) handedRun s ∧
      s.leads "b" = true ∧ ∀ i, s.leads i = true → i = "b" := by
  have hmap : (handedRun.foldlM orderly (init 0)).map (fun s => s.leads "b") = some true := by
    decide +kernel
  obtain ⟨s, hs, hleads⟩ := map_eq_some_iff.mp hmap
  have hrun := (Trace.Run.of_foldlM hs).mono orderlyStep_of_orderly
  exact ⟨s, hrun, hleads, fun i hi => lease_one_leader hrun i "b" hi hleads⟩

end Runs

end Cronstable.Election.Kubernetes
