import Mathlib.Data.List.MinMax
import Mathlib.Data.List.Sort
import Mathlib.Data.Prod.Lex
import Mathlib.Data.String.Basic

/-!
# What a node of the gossip cluster derives from its view

A `ClusterManager` polls its peers and keeps what each of them last reported: its identity, whom it
sees agreeing, whom it mutually agrees with, and whom it vouches for as quorate. From that it
derives the peers it mutually agrees with, the candidates it may elect, the leader, and in `spread`
mode the owner of each job.

Sets of names are lists here; where the source iterates over a set it sorts the result, and where it
counts one the list has no repetitions. The hash that scores a job and a node is a parameter.
Memoisation, logging and the `available_*` elections are left out.
-/

namespace Cronstable.Cluster

open List

inductive Status
  | unknown
  | self
  | agreed
  | syncing
  | drifted
  | unreachable
  | untrusted
  | conflict
  deriving DecidableEq, Repr

/-- An entry of the member list a peer reports. -/
structure Member where
  name : String
  instance_ : String
  agreed : Bool
  deriving DecidableEq, Repr

/-- What a node knows of one peer. -/
structure PeerState where
  status : Status := .unknown
  nodeName : Option String := none
  instanceId : Option String := none
  members : Option (List Member) := none
  reportsMembers : Bool := true
  declaredSize : Option ℕ := none
  declaredDistribution : Option String := none
  declaredElectLeader : Option Bool := none
  mutualAgreeing : Option (List String) := none
  quorateVouched : Option (List String) := none
  deriving DecidableEq, Repr

/-- `_peer_sees_me_agreed`. -/
def peerSeesMeAgreed (members : Option (List Member)) (myInstance : String) : Bool :=
  (members.getD []).any fun m => m.agreed && m.instance_ == myInstance

/-- `_declares_divergent`. -/
def declaresDivergent {α : Type} [DecidableEq α] (declared : Option α) (ours : α) : Bool :=
  declared.any fun d => decide (d ≠ ours)

/-- `quorum_size`: a strict majority. -/
def quorumSize (clusterSize : ℕ) : ℕ := clusterSize / 2 + 1

/-- `MAX_ADVERTISED_CANDIDATE_NAMES`. -/
def maxAdvertisedCandidateNames : ℕ := 512

/-- `sorted`, by code points. -/
def sorted (names : List String) : List String := names.insertionSort (· ≤ ·)

/-- `elect_leader`. -/
def electLeader (nodeName : String) (livePeerNames : List String) (clusterSize : ℕ)
    (candidateNames : Option (List String)) : Option String :=
  if livePeerNames.length + 1 < quorumSize clusterSize then none
  else some ((candidateNames.getD livePeerNames).foldl min nodeName)

/-- How `_hrw_owner` ranks a node: by score, then by name. -/
def hrwKey (score : String → String → ℕ) (jobName name : String) : ℕ ×ₗ String :=
  toLex (score jobName name, name)

/-- `_hrw_owner`. -/
def hrwOwner (score : String → String → ℕ) (jobName : String) (members : List String) :
    Option String :=
  members.argmax (hrwKey score jobName)

/-- `_hrw_owner_bytes`, over the first member and the others. -/
def hrwOwnerBytes (score : String → String → ℕ) (jobName first : String)
    (others : List String) : String :=
  others.foldl (fun best name =>
    if score jobName best < score jobName name ∨
        (score jobName name = score jobName best ∧ best < name) then name
    else best) first

/-- Keep the first peer of each instance. -/
def dedupInstances (seen : List String) : List PeerState → List PeerState
  | [] => []
  | p :: rest =>
    match p.instanceId with
    | none => p :: dedupInstances seen rest
    | some id =>
      if id ∈ seen then dedupInstances seen rest else p :: dedupInstances (id :: seen) rest

/-- A node of the cluster with its view of the peers it lists. -/
structure Manager where
  nodeName : String
  instanceId : String
  distribution : String
  electsLeader : Bool
  peerCount : ℕ
  peers : List PeerState
  deriving DecidableEq, Repr

namespace Manager

/-- `cluster_size`: the listed peers and this node, without itself and without an instance that is
listed twice. -/
def clusterSize (m : Manager) : ℕ :=
  let others := m.peers.filter fun p => p.status ≠ .self
  let ids := others.filterMap PeerState.instanceId
  m.peerCount + 1 - (m.peers.length - others.length) - (ids.length - ids.dedup.length)

/-- `quorum`. -/
def quorum (m : Manager) : ℕ := quorumSize m.clusterSize

/-- A peer that counts: it agrees, sees us agreeing, and declares nothing that differs. -/
def agrees (m : Manager) (p : PeerState) : Bool :=
  p.status == .agreed && p.nodeName.isSome &&
    (peerSeesMeAgreed p.members m.instanceId || !p.reportsMembers) &&
    !(declaresDivergent p.declaredSize m.clusterSize ||
      declaresDivergent p.declaredDistribution m.distribution ||
      declaresDivergent p.declaredElectLeader m.electsLeader)

/-- `_agreeing_peers`. -/
def agreeingPeers (m : Manager) : List PeerState := dedupInstances [] (m.peers.filter m.agrees)

/-- The names of some peers, without empty ones. -/
def namesOf (peers : List PeerState) : List String :=
  (peers.filterMap PeerState.nodeName).filter (· ≠ "")

/-- `_agreeing_peer_names`. -/
def agreeingPeerNames (m : Manager) : List String := namesOf m.agreeingPeers

/-- The `mutual_agreeing` that a node reports. -/
def mutualAgreeing (m : Manager) : List String := sorted m.agreeingPeerNames

/-- The agreeing peers that report `name` in their own `mutual_agreeing`. -/
def witnesses (m : Manager) (name : String) : List String :=
  ((m.agreeingPeers.filter fun p => name ∈ p.mutualAgreeing.getD []).filterMap
    PeerState.nodeName).dedup

/-- The nodes that are confirmed as quorate by witnesses, before the cap. -/
def confirmed (m : Manager) : List String :=
  let reported := (m.agreeingPeers.flatMap fun p => p.mutualAgreeing.getD []).dedup.filter
    fun name => name ≠ "" ∧ name ∉ m.nodeName :: m.agreeingPeerNames
  sorted (reported.filter fun name => m.quorum ≤ (m.witnesses name).length + 1)

/-- `_bridge_candidates`. -/
def bridgeCandidates (m : Manager) : List String := m.confirmed.take maxAdvertisedCandidateNames

/-- The agreeing peers that report a quorum themselves. -/
def directCandidates (m : Manager) : List String :=
  namesOf (m.agreeingPeers.filter fun p => m.quorum ≤ (p.mutualAgreeing.getD []).length + 1)

/-- `_eligible_candidates`. -/
def eligibleCandidates (m : Manager) : List String := m.directCandidates ++ m.bridgeCandidates

/-- `_capped_vouched`, the `quorate_vouched` that a node reports. -/
def cappedVouched (m : Manager) : List String :=
  (sorted m.eligibleCandidates).take maxAdvertisedCandidateNames

/-- `_unconfirmed_contenders`. -/
def unconfirmedContenders (m : Manager) : List String :=
  let accounted := m.nodeName :: (m.agreeingPeerNames ++ m.eligibleCandidates)
  sorted ((m.agreeingPeers.flatMap fun p => p.quorateVouched.getD []).dedup.filter
    fun name => name ≠ "" ∧ name ∉ accounted)

/-- `leader_name`. -/
def leaderName (m : Manager) : Option String :=
  Cluster.electLeader m.nodeName m.agreeingPeerNames m.clusterSize (some m.eligibleCandidates)

/-- `is_leader`. -/
def isLeader (m : Manager) : Bool := m.leaderName == some m.nodeName

/-- `is_quorate`. -/
def isQuorate (m : Manager) : Bool := m.leaderName.isSome

/-- The members of `_spread_owner_set` besides the node itself. -/
def spreadOthers (m : Manager) : List String := m.eligibleCandidates ++ m.unconfirmedContenders

/-- The members of `_spread_owner_set`. -/
def spreadMembers (m : Manager) : List String := m.nodeName :: m.spreadOthers

/-- The quorum gate of `_spread_owner_set`. -/
def spreadQuorate (m : Manager) : Bool :=
  decide (quorumSize m.clusterSize ≤ 1 + m.agreeingPeerNames.length)

/-- `job_owner`. -/
def jobOwner (score : String → String → ℕ) (m : Manager) (jobName : String) : Option String :=
  if m.spreadQuorate then some (hrwOwnerBytes score jobName m.nodeName m.spreadOthers) else none

/-- `is_job_owner`. -/
def isJobOwner (score : String → String → ℕ) (m : Manager) (jobName : String) : Bool :=
  m.jobOwner score jobName == some m.nodeName

end Manager

/-! ## Elections over lists -/

lemma mem_sorted {names : List String} {name : String} : name ∈ sorted names ↔ name ∈ names :=
  mem_insertionSort _

lemma length_sorted (names : List String) : (sorted names).length = names.length :=
  length_insertionSort _ names

section

variable (score : String → String → ℕ)

include score

/-- The loop over the encoded names computes the owner. -/
theorem hrwOwner_cons (jobName first : String) (others : List String) :
    hrwOwner score jobName (first :: others) = some (hrwOwnerBytes score jobName first others) := by
  have hloop : ∀ best : String,
      others.foldl (List.argAux fun b c => hrwKey score jobName c < hrwKey score jobName b)
        (some best) = some (hrwOwnerBytes score jobName best others) := by
    induction others with
    | nil => intro best; rfl
    | cons name rest ih =>
      intro best
      have hstep : List.argAux (fun b c => hrwKey score jobName c < hrwKey score jobName b)
          (some best) name = some (if score jobName best < score jobName name ∨
            (score jobName name = score jobName best ∧ best < name) then name else best) := by
        have hiff : hrwKey score jobName best < hrwKey score jobName name ↔
            score jobName best < score jobName name ∨
              (score jobName name = score jobName best ∧ best < name) := by
          unfold hrwKey
          rw [Prod.Lex.toLex_lt_toLex]
          simp only [eq_comm]
        simp only [List.argAux, hiff]
        split <;> rfl
      rw [foldl_cons, hstep, ih]
      rfl
  exact hloop first

/-- The owner is a member that no member outranks. -/
theorem hrwOwnerBytes_spec (jobName first : String) (others : List String) :
    hrwOwnerBytes score jobName first others ∈ first :: others ∧
      ∀ name ∈ first :: others, hrwKey score jobName name ≤
        hrwKey score jobName (hrwOwnerBytes score jobName first others) := by
  have howner := hrwOwner_cons score jobName first others
  exact ⟨argmax_mem howner, fun name hname => le_of_mem_argmax hname howner⟩

/-- No two members rank the same. -/
theorem hrwKey_injective (jobName : String) : Function.Injective (hrwKey score jobName) := by
  intro name name' heq
  exact congrArg Prod.snd (toLex.injective heq)

/-- The owner depends only on who the members are. -/
theorem hrwOwnerBytes_congr (jobName : String) {first first' : String}
    {others others' : List String} (h : ∀ name, name ∈ first :: others ↔ name ∈ first' :: others') :
    hrwOwnerBytes score jobName first others = hrwOwnerBytes score jobName first' others' := by
  obtain ⟨hmem, hle⟩ := hrwOwnerBytes_spec score jobName first others
  obtain ⟨hmem', hle'⟩ := hrwOwnerBytes_spec score jobName first' others'
  exact hrwKey_injective score jobName
    (le_antisymm (hle' _ ((h _).mp hmem)) (hle _ ((h _).mpr hmem')))

end

/-- The lowest name is among the candidates, and below all of them. -/
theorem foldl_min_spec (first : String) (names : List String) :
    names.foldl min first ∈ first :: names ∧
      ∀ name ∈ first :: names, names.foldl min first ≤ name :=
  List.min?_eq_some_iff.mp List.min?_cons'

/-- What the cap drops is not below everything that is kept. -/
theorem exists_le_mem_take {names : List String} {name : String} {cap : ℕ} (hcap : 0 < cap)
    (h : name ∈ names) : ∃ kept ∈ (sorted names).take cap, kept ≤ name := by
  have hsorted : (sorted names).Pairwise (· ≤ ·) := pairwise_insertionSort _ _
  cases hlist : sorted names with
  | nil =>
    rw [← mem_sorted, hlist] at h
    cases h
  | cons head rest =>
    rw [← mem_sorted, hlist] at h
    rw [hlist] at hsorted
    refine ⟨head, ?_, ?_⟩
    · cases cap with
      | zero => omega
      | succ n => exact mem_cons_self
    · rcases mem_cons.mp h with rfl | hrest
      · exact le_rfl
      · exact (pairwise_cons.mp hsorted).1 name hrest

end Cronstable.Cluster
