import Cronstable.Cluster.View
import Cronstable.Lib.LocalElection

/-!
# Elections that never skip

A `PreferLeader` job runs on the node that leads what it can reach, quorum or not: the lowest name
for a single leader, and the rendezvous winner of the job in `spread` mode. A node works with
itself, the peers it agrees with, and those that such a peer reports to agree with
(`_available_contenders`), so each node has a set of its own.

In a mesh with symmetric agreement and current reports the set of a node is what it reaches in two
steps. The lowest name and the highest score of a component win there and wherever they are seen, so
no job is skipped, and two nodes that are at most two steps apart see each other and are not both
owner (`available_owners`). Nodes that are farther apart may be.
-/

namespace Cronstable.Cluster

open List LocalElection

/-- `_SETTLE_ROUNDS`. -/
def settleRounds : ℕ := 3

/-- `elect_available_leader`. -/
def electAvailableLeader (nodeName : String) (agreeingPeerNames : List String) : String :=
  agreeingPeerNames.foldl min nodeName

/-- `elect_available_job_owner`. -/
def electAvailableJobOwner (score : String → String → ℕ) (jobName nodeName : String)
    (agreeingPeerNames : List String) : Option String :=
  hrwOwner score jobName (nodeName :: agreeingPeerNames)

/-- The statuses of `_STALE_STATUSES`. -/
def Status.stale : Status → Bool
  | .unknown | .unreachable | .untrusted => true
  | _ => false

/-- The statuses of `_FAILED_STATUSES`. -/
def Status.failed : Status → Bool
  | .unreachable | .untrusted => true
  | _ => false

/-- A peer and the rounds that did not reach it. -/
structure Polled where
  state : PeerState
  failedRounds : ℕ := 0
  deriving DecidableEq, Repr

/-- A node of the cluster with what decides about the elections that never skip. -/
structure Poller where
  nodeName : String
  instanceId : String
  distribution : String
  electsLeader : Bool
  peers : List Polled
  pollRounds : ℕ
  /-- `_view_settled_latched`. -/
  settledLatched : Bool
  distrustRounds : ℕ
  deriving DecidableEq, Repr

namespace Poller

/-- The node as the other elections see it. -/
def manager (n : Poller) : Manager where
  nodeName := n.nodeName
  instanceId := n.instanceId
  distribution := n.distribution
  electsLeader := n.electsLeader
  peerCount := n.peers.length
  peers := n.peers.map Polled.state

/-- `_agreeing_peer_names`. -/
def agreeingPeerNames (n : Poller) : List String := n.manager.agreeingPeerNames

/-- The peer failed too recently for reports of it to be believed. -/
def distrusts (n : Poller) (p : Polled) : Bool :=
  p.state.status.failed && decide (p.failedRounds < n.distrustRounds)

/-- `_available_contenders`. -/
def availableContenders (n : Poller) : List String :=
  let accounted := n.nodeName :: n.agreeingPeerNames
  let distrusted := (n.peers.filter n.distrusts).filterMap fun p => p.state.nodeName
  sorted ((n.manager.agreeingPeers.flatMap fun p => p.mutualAgreeing.getD []).dedup.filter
    fun name => name ≠ "" ∧ name ∉ accounted ∧ name ∉ distrusted)

/-- The members of `_available_owner_members` besides the node itself. -/
def availableOthers (n : Poller) : List String := n.agreeingPeerNames ++ n.availableContenders

/-- `available_leader_name`. -/
def availableLeaderName (n : Poller) : String := electAvailableLeader n.nodeName n.availableOthers

/-- `available_job_owner`. -/
def availableJobOwner (score : String → String → ℕ) (n : Poller) (jobName : String) : String :=
  hrwOwnerBytes score jobName n.nodeName n.availableOthers

/-- `view_settled`. -/
def viewSettled (n : Poller) : Bool :=
  n.settledLatched ||
    !(n.peers.any fun p => p.state.status == .unknown) &&
      (decide (settleRounds ≤ n.pollRounds) ||
        n.peers.all fun p =>
          !(p.state.status == .agreed && p.state.reportsMembers &&
            !((p.state.members.getD []).any fun m => m.instance_ == n.instanceId)))

/-- `_lower_instance_twins`. -/
def lowerInstanceTwins (n : Poller) : List (List String) :=
  (n.peers.filter fun p =>
    !p.state.status.stale && p.state.nodeName == some n.nodeName &&
      p.state.instanceId.any fun id => id ≠ "" && id < n.instanceId).map
    fun p => p.state.mutualAgreeing.getD []

/-- `_cedes_to_lower_instance`. -/
def cedesToLowerInstance (n : Poller) (ownsFor : String → List String → Bool) : Bool :=
  n.lowerInstanceTwins.any (ownsFor n.nodeName)

/-- `is_available_leader`. -/
def isAvailableLeader (n : Poller) : Bool :=
  n.viewSettled && n.availableLeaderName == n.nodeName &&
    !n.cedesToLowerInstance fun name view => electAvailableLeader name view == name

/-- `is_available_job_owner`. -/
def isAvailableJobOwner (score : String → String → ℕ) (n : Poller) (jobName : String) : Bool :=
  n.viewSettled && n.availableJobOwner score jobName == n.nodeName &&
    !n.cedesToLowerInstance fun name view =>
      electAvailableJobOwner score jobName name view == some name

/-- Everyone the node ranks. -/
def availableMembers (n : Poller) : List String := n.nodeName :: n.availableOthers

lemma availableLeaderName_eq_iff (n : Poller) :
    n.availableLeaderName = n.nodeName ↔ ∀ name ∈ n.availableMembers, n.nodeName ≤ name := by
  obtain ⟨hmem, hle⟩ := foldl_min_spec n.nodeName n.availableOthers
  constructor
  · intro heq name hname
    have hlow := hle name hname
    rwa [show n.availableOthers.foldl min n.nodeName = n.nodeName from heq] at hlow
  · intro hlow
    exact le_antisymm (hle _ mem_cons_self) (hlow _ hmem)

lemma availableJobOwner_eq_iff (score : String → String → ℕ) (n : Poller) (jobName : String) :
    n.availableJobOwner score jobName = n.nodeName ↔
      ∀ name ∈ n.availableMembers, hrwKey score jobName name ≤ hrwKey score jobName n.nodeName := by
  obtain ⟨hmem, hle⟩ := hrwOwnerBytes_spec score jobName n.nodeName n.availableOthers
  constructor
  · intro heq name hname
    have hhigh := hle name hname
    rwa [show hrwOwnerBytes score jobName n.nodeName n.availableOthers = n.nodeName from heq]
      at hhigh
  · intro hhigh
    exact hrwKey_injective score jobName (le_antisymm (hhigh _ hmem) (hle _ mem_cons_self))

lemma mem_availableContenders {n : Poller} {name : String}
    (htrust : ∀ p ∈ n.peers, n.distrusts p = false) :
    name ∈ n.availableContenders ↔
      (∃ p ∈ n.manager.agreeingPeers, name ∈ p.mutualAgreeing.getD []) ∧ name ≠ "" ∧
        name ∉ n.nodeName :: n.agreeingPeerNames := by
  have hnone : n.peers.filter n.distrusts = [] := by
    rw [filter_eq_nil_iff]
    intro p hp
    simp [htrust p hp]
  simp only [availableContenders, mem_sorted, mem_filter, mem_dedup, mem_flatMap,
    decide_eq_true_eq, hnone, filterMap_nil, not_mem_nil, not_false_eq_true, and_true]

end Poller

/-! ## The mesh -/

/-- Distinctly named nodes whose views are settled, with symmetric agreement and current reports,
and without a peer that failed just now. -/
structure Mesh (nodes : List Poller) : Prop where
  names : (nodes.map Poller.nodeName).Nodup
  named : ∀ n ∈ nodes, n.nodeName ≠ ""
  settled : ∀ n ∈ nodes, n.viewSettled
  trusted : ∀ n ∈ nodes, ∀ p ∈ n.peers, n.distrusts p = false
  /-- Whom a node has reached is a node of the mesh. -/
  observed : ∀ n ∈ nodes, ∀ p ∈ n.peers, p.state.status.stale = false →
    ∃ m ∈ nodes, p.state.nodeName = some m.nodeName ∧ p.state.instanceId = some m.instanceId
  reports : ∀ n ∈ nodes, ∀ p ∈ n.manager.agreeingPeers, ∃ m ∈ nodes,
    p.nodeName = some m.nodeName ∧ p.mutualAgreeing = some m.manager.mutualAgreeing
  symm : ∀ n ∈ nodes, ∀ m ∈ nodes, m.nodeName ∈ n.agreeingPeerNames →
    n.nodeName ∈ m.agreeingPeerNames

namespace Mesh

variable {nodes : List Poller} {n m w : Poller}

lemma eq_of_name (h : Mesh nodes) (hn : n ∈ nodes) (hm : m ∈ nodes)
    (hname : n.nodeName = m.nodeName) : n = m :=
  inj_on_of_nodup_map h.names hn hm hname

/-- The agreement between the nodes. -/
def graph (h : Mesh nodes) : SimpleGraph {n // n ∈ nodes} where
  Adj n m := n ≠ m ∧ m.1.nodeName ∈ n.1.agreeingPeerNames
  symm := ⟨fun n m ⟨hne, hmem⟩ => ⟨hne.symm, h.symm n.1 n.2 m.1 m.2 hmem⟩⟩
  loopless := ⟨fun _ h => h.1 rfl⟩

/-- Whom a node ranks. -/
def sees (_ : Mesh nodes) (n : {n // n ∈ nodes}) : Set {n // n ∈ nodes} :=
  {m | m.1.nodeName ∈ n.1.availableMembers}

section

variable (h : Mesh nodes)

include h

/-- What an agreeing peer reports is whom it agrees with. -/
theorem exists_agreeing (hn : n ∈ nodes) {p : PeerState} (hp : p ∈ n.manager.agreeingPeers) :
    ∃ w ∈ nodes, w.nodeName ∈ n.agreeingPeerNames ∧
      ∀ name, name ∈ p.mutualAgreeing.getD [] ↔ name ∈ w.agreeingPeerNames := by
  obtain ⟨w, hw, hname, hmutual⟩ := h.reports n hn p hp
  refine ⟨w, hw, ?_, fun name => ?_⟩
  · refine mem_filter.mpr ⟨mem_filterMap.mpr ⟨p, hp, hname⟩, ?_⟩
    simpa using h.named w hw
  · rw [hmutual]
    exact mem_sorted

lemma exists_peer (hn : n ∈ nodes) (hm : m ∈ nodes) (hagree : m.nodeName ∈ n.agreeingPeerNames) :
    ∃ p ∈ n.manager.agreeingPeers,
      ∀ name, name ∈ p.mutualAgreeing.getD [] ↔ name ∈ m.agreeingPeerNames := by
  obtain ⟨p, hp, hname⟩ := mem_filterMap.mp (mem_filter.mp hagree).1
  obtain ⟨w, hw, hname', hmutual⟩ := h.reports n hn p hp
  have heq : w = m := h.eq_of_name hw hm (Option.mem_unique hname' hname)
  refine ⟨p, hp, fun name => ?_⟩
  rw [hmutual, heq]
  exact mem_sorted

/-- Every name that a node ranks is that of a node in its component. -/
theorem exists_reachable (n : {n // n ∈ nodes}) {name : String}
    (hname : name ∈ n.1.availableMembers) : ∃ m, m.1.nodeName = name ∧ h.graph.Reachable n m := by
  -- whom a node agrees with is a node next to it
  have hnext (v : {n // n ∈ nodes}) {name : String} (hv : name ∈ v.1.agreeingPeerNames) :
      ∃ m : {n // n ∈ nodes}, m.1.nodeName = name ∧ h.graph.Reachable v m := by
    obtain ⟨p, hp, hpname⟩ := mem_filterMap.mp (mem_filter.mp hv).1
    obtain ⟨m, hm, hmname, -⟩ := h.reports v.1 v.2 p hp
    have heq : m.nodeName = name := Option.mem_unique hmname hpname
    refine ⟨⟨m, hm⟩, heq, ?_⟩
    by_cases hne : v = ⟨m, hm⟩
    · rw [hne]
    · exact SimpleGraph.Adj.reachable ⟨hne, heq ▸ hv⟩
  rcases mem_cons.mp hname with rfl | hother
  · exact ⟨n, rfl, .refl n⟩
  rcases mem_append.mp hother with hagree | hcontends
  · exact hnext n hagree
  · obtain ⟨⟨p, hp, hreported⟩, -⟩ :=
      (Poller.mem_availableContenders (h.trusted n.1 n.2)).mp hcontends
    obtain ⟨w, hw, hwname, hreports⟩ := h.exists_agreeing n.2 hp
    obtain ⟨w', hw'name, hreach⟩ := hnext n hwname
    obtain rfl : w' = ⟨w, hw⟩ := Subtype.ext (h.eq_of_name w'.2 hw hw'name)
    obtain ⟨m, hmname, hreach'⟩ := hnext ⟨w, hw⟩ ((hreports name).mp hreported)
    exact ⟨m, hmname, hreach.trans hreach'⟩

lemma reachable_of_sees (n m : {n // n ∈ nodes}) (hm : m ∈ h.sees n) : h.graph.Reachable n m := by
  obtain ⟨m', hname, hreach⟩ := h.exists_reachable n hm
  rwa [Subtype.ext (h.eq_of_name m'.2 m.2 hname)] at hreach

/-- A node ranks those that are next to it, and those next to one of them. -/
theorem sees_of_near {n m : {n // n ∈ nodes}}
    (hnear : h.graph.Adj n m ∨ ∃ w, h.graph.Adj n w ∧ h.graph.Adj m w) : m ∈ h.sees n := by
  rcases hnear with hadj | ⟨w, hn, hm⟩
  · exact mem_cons_of_mem _ (mem_append_left _ hadj.2)
  · by_cases haccounted : m.1.nodeName ∈ n.1.nodeName :: n.1.agreeingPeerNames
    · rcases mem_cons.mp haccounted with hself | hagree
      · show m.1.nodeName ∈ n.1.availableMembers
        rw [hself]
        exact mem_cons_self
      · exact mem_cons_of_mem _ (mem_append_left _ hagree)
    · -- the common peer reports it
      obtain ⟨p, hp, hreports⟩ := h.exists_peer n.2 w.2 hn.2
      have hreported := (hreports m.1.nodeName).mpr hm.symm.2
      refine mem_cons_of_mem _ (mem_append_right _ ?_)
      exact (Poller.mem_availableContenders (h.trusted n.1 n.2)).mpr
        ⟨⟨p, hp, hreported⟩, h.named m.1 m.2, haccounted⟩

/-- No other node has the name, so there is no twin to cede to. -/
theorem lowerInstanceTwins_eq_nil (hn : n ∈ nodes) : n.lowerInstanceTwins = [] := by
  rw [Poller.lowerInstanceTwins, map_eq_nil_iff, filter_eq_nil_iff]
  intro p hp htwin
  simp only [Bool.and_eq_true, Bool.not_eq_true', beq_iff_eq, Option.any_eq_true,
    decide_eq_true_eq] at htwin
  obtain ⟨⟨hfresh, hname⟩, id, hid, -, hlower⟩ := htwin
  obtain ⟨m, hm, hname', hid'⟩ := h.observed n hn p hp hfresh
  have heq : m = n := h.eq_of_name hm hn (Option.mem_unique hname' hname)
  obtain rfl : id = n.instanceId := heq ▸ Option.mem_unique hid hid'
  exact lt_irrefl _ hlower

/-- The names that a node ranks stand for the nodes that it sees. -/
theorem forall_members_iff (n : {n // n ∈ nodes}) (P : String → Prop) :
    (∀ name ∈ n.1.availableMembers, P name) ↔ ∀ m ∈ h.sees n, P m.1.nodeName := by
  constructor
  · exact fun hall m hm => hall m.1.nodeName hm
  · intro hall name hname
    obtain ⟨m, rfl, -⟩ := h.exists_reachable n hname
    exact hall m hname

end

open LocalElection in
lemma isAvailableLeader_iff (h : Mesh nodes) (n : {n // n ∈ nodes}) :
    n.1.isAvailableLeader ↔ Wins h.sees (fun m => OrderDual.toDual m.1.nodeName) n := by
  simp only [Poller.isAvailableLeader, h.settled n.1 n.2, Poller.cedesToLowerInstance,
    h.lowerInstanceTwins_eq_nil n.2, any_nil, Bool.not_false, Bool.true_and, Bool.and_true,
    beq_iff_eq, Poller.availableLeaderName_eq_iff]
  exact h.forall_members_iff n fun name => n.1.nodeName ≤ name

open LocalElection in
lemma isAvailableJobOwner_iff (h : Mesh nodes) (score : String → String → ℕ) (jobName : String)
    (n : {n // n ∈ nodes}) : n.1.isAvailableJobOwner score jobName ↔
      Wins h.sees (fun m => hrwKey score jobName m.1.nodeName) n := by
  simp only [Poller.isAvailableJobOwner, h.settled n.1 n.2, Poller.cedesToLowerInstance,
    h.lowerInstanceTwins_eq_nil n.2, any_nil, Bool.not_false, Bool.true_and, Bool.and_true,
    beq_iff_eq, Poller.availableJobOwner_eq_iff]
  exact h.forall_members_iff n fun name =>
    hrwKey score jobName name ≤ hrwKey score jobName n.1.nodeName

/-- **Ownership that never skips.** In every component of the mesh some node leads, and some node
owns each job; and two nodes that agree, or agree with a common peer, do not both lead or both own
a job. -/
theorem available_owners (h : Mesh nodes) (score : String → String → ℕ) :
    (∀ c : h.graph.ConnectedComponent,
      (∃ n, h.graph.connectedComponentMk n = c ∧ n.1.isAvailableLeader) ∧
        ∀ jobName, ∃ n, h.graph.connectedComponentMk n = c ∧
          n.1.isAvailableJobOwner score jobName) ∧
    ∀ n m, n ≠ m → (h.graph.Adj n m ∨ ∃ w, h.graph.Adj n w ∧ h.graph.Adj m w) →
      ¬ (n.1.isAvailableLeader ∧ m.1.isAvailableLeader) ∧
        ∀ jobName, ¬ (n.1.isAvailableJobOwner score jobName ∧
          m.1.isAvailableJobOwner score jobName) := by
  have hname : Function.Injective fun m : {n // n ∈ nodes} => m.1.nodeName :=
    fun m m' heq => Subtype.ext (h.eq_of_name m.2 m'.2 heq)
  simp only [h.isAvailableLeader_iff, h.isAvailableJobOwner_iff]
  refine ⟨fun c => ⟨?_, fun jobName => ?_⟩, fun n m hne hnear => ?_⟩
  · exact exists_wins h.reachable_of_sees _ c
  · exact exists_wins h.reachable_of_sees _ c
  · have hsees : m ∈ h.sees n := h.sees_of_near hnear
    have hsees' : n ∈ h.sees m :=
      h.sees_of_near (hnear.imp (·.symm) fun ⟨w, hn, hm⟩ => ⟨w, hm, hn⟩)
    refine ⟨not_both_win ?_ hne hsees hsees', fun jobName =>
      not_both_win ?_ hne hsees hsees'⟩
    · exact OrderDual.toDual.injective.comp hname
    · exact (hrwKey_injective score jobName).comp hname

/-- A peer that agrees and sees us, with those it agrees with. -/
private def reached (name me : String) (names : List String) : Polled where
  state :=
    { status := .agreed, nodeName := some name, instanceId := some name
      members := some [⟨me, me, true⟩], mutualAgreeing := some names }

private def settledNode (name : String) (peers : List Polled) : Poller where
  nodeName := name
  instanceId := name
  distribution := "spread"
  electsLeader := true
  peers := peers
  pollRounds := 3
  settledLatched := false
  distrustRounds := 2

private def left : Poller := settledNode "a" [reached "b" "a" ["a", "c"]]

private def middle : Poller := settledNode "b" [reached "a" "b" ["b"], reached "c" "b" ["b"]]

private def right : Poller := settledNode "c" [reached "b" "c" ["a", "c"]]

/-- The ends of a chain do not reach each other, and have the middle in common. -/
private lemma mesh_chain : Mesh [left, middle, right] where
  names := by decide +kernel
  named := by decide +kernel
  settled := by decide +kernel
  trusted := by decide +kernel
  observed := by decide +kernel
  reports := by decide +kernel
  symm := by decide +kernel

/-- Some node of the chain leads, and of its ends not both own a job. -/
theorem available_owners_chain :
    (∃ n ∈ [left, middle, right], n.isAvailableLeader) ∧
      ¬ (left.isAvailableJobOwner (fun _ _ => 0) "backup" ∧
        right.isAvailableJobOwner (fun _ _ => 0) "backup") := by
  have hleft : left ∈ [left, middle, right] := by simp
  have hmiddle : middle ∈ [left, middle, right] := by simp
  have hright : right ∈ [left, middle, right] := by simp
  have hapart : left.nodeName ≠ right.nodeName := by decide +kernel
  have hends : left.nodeName ≠ middle.nodeName ∧ right.nodeName ≠ middle.nodeName := by
    decide +kernel
  have hsees : middle.nodeName ∈ left.agreeingPeerNames ∧
      middle.nodeName ∈ right.agreeingPeerNames := by
    decide +kernel
  have hnear : mesh_chain.graph.Adj ⟨left, hleft⟩ ⟨middle, hmiddle⟩ :=
    ⟨fun heq => hends.1 (congrArg (fun n => n.1.nodeName) heq), hsees.1⟩
  have hnear' : mesh_chain.graph.Adj ⟨right, hright⟩ ⟨middle, hmiddle⟩ :=
    ⟨fun heq => hends.2 (congrArg (fun n => n.1.nodeName) heq), hsees.2⟩
  obtain ⟨hsome, hone⟩ := mesh_chain.available_owners fun _ _ => 0
  obtain ⟨⟨n, -, hleads⟩, -⟩ := hsome (mesh_chain.graph.connectedComponentMk ⟨left, hleft⟩)
  refine ⟨⟨n.1, n.2, hleads⟩, ?_⟩
  exact (hone ⟨left, hleft⟩ ⟨right, hright⟩
    (fun heq => hapart (congrArg (fun n => n.1.nodeName) heq))
    (.inr ⟨⟨middle, hmiddle⟩, hnear, hnear'⟩)).2 "backup"

end Mesh

end Cronstable.Cluster
