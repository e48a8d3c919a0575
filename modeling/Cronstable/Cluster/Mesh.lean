import Cronstable.Cluster.View
import Mathlib.Data.Finset.Card

/-!
# Elections in a converged mesh

Nodes that agree on the size of the cluster need not all reach each other. In a converged mesh
(`Converged`) agreement is symmetric, and what a node knows of a peer it agrees with is what that
peer derives now. Then the candidates that a node may elect are quorate, however it came to know
them: by their own report, through witnesses, or vouched for by a peer.

Two strict majorities of the members meet. So a quorate node that another quorate node does not
reach has a neighbour in common with it, who vouches for it: in `spread` mode every quorate node
works with the same members, and each job has one owner (`spread_one_owner`). A single leader is
decided without the vouched names, and two nodes may both lead when the bridge between them is thin
(`single_leader_elected`).
-/

namespace Cronstable.Cluster

open List Manager

/-- What a node has of the peer `m` is what `m` derives now. -/
structure Reports (m : Manager) (p : PeerState) : Prop where
  name : p.nodeName = some m.nodeName
  instanceId : p.instanceId = some m.instanceId
  mutualAgreeing : p.mutualAgreeing = some m.mutualAgreeing
  quorateVouched : p.quorateVouched = some m.cappedVouched

/-- Distinctly named nodes that agree on the size of the cluster, with symmetric agreement and
current reports. -/
structure Converged (size : ℕ) (nodes : List Manager) : Prop where
  names : (nodes.map Manager.nodeName).Nodup
  named : ∀ n ∈ nodes, n.nodeName ≠ ""
  instances : (nodes.map Manager.instanceId).Nodup
  clusterSize : ∀ n ∈ nodes, n.clusterSize = size
  reports : ∀ n ∈ nodes, ∀ p ∈ n.agreeingPeers,
    ∃ m ∈ nodes, m.nodeName ≠ n.nodeName ∧ Reports m p
  symm : ∀ n ∈ nodes, ∀ m ∈ nodes, m.nodeName ∈ n.agreeingPeerNames →
    n.nodeName ∈ m.agreeingPeerNames

/-- The peers that are kept are of different instances. -/
theorem dedupInstances_spec (seen : List String) (peers : List PeerState) :
    (∀ p ∈ dedupInstances seen peers, ∀ id ∈ p.instanceId, id ∉ seen) ∧
      (dedupInstances seen peers).Pairwise fun p q => ∀ id ∈ p.instanceId,
        q.instanceId ≠ some id := by
  induction peers generalizing seen with
  | nil => simp [dedupInstances]
  | cons p rest ih =>
    unfold dedupInstances
    split
    next hnone =>
      obtain ⟨hseen, hpair⟩ := ih seen
      exact ⟨forall_mem_cons.mpr ⟨by simp [hnone], hseen⟩,
        pairwise_cons.mpr ⟨by simp [hnone], hpair⟩⟩
    next id hsome =>
      split
      next => exact ih seen
      next hnew =>
        obtain ⟨hseen, hpair⟩ := ih (id :: seen)
        refine ⟨forall_mem_cons.mpr ⟨by simpa [hsome] using hnew, fun q hq id' hid' hmem => ?_⟩,
          pairwise_cons.mpr ⟨fun q hq id' hid' => ?_, hpair⟩⟩
        · exact hseen q hq id' hid' (mem_cons_of_mem _ hmem)
        · rw [hsome] at hid'
          cases hid'
          exact fun hq' => hseen q hq id hq' mem_cons_self

variable {name : String}

namespace Manager

/-- Both gates count the same nodes. -/
theorem isQuorate_eq (m : Manager) : m.isQuorate = m.spreadQuorate := by
  unfold isQuorate leaderName Cluster.electLeader spreadQuorate
  split
  next hlt => simp [hlt, Nat.add_comm 1]
  next hge => simp [Nat.add_comm 1, not_lt.mp hge]

lemma mem_confirmed {m : Manager} :
    name ∈ m.confirmed ↔ (∃ p ∈ m.agreeingPeers, name ∈ p.mutualAgreeing.getD []) ∧
      (name ≠ "" ∧ name ∉ m.nodeName :: m.agreeingPeerNames) ∧
      m.quorum ≤ (m.witnesses name).length + 1 := by
  unfold confirmed
  rw [mem_sorted]
  simp only [mem_filter, mem_dedup, mem_flatMap, decide_eq_true_eq, and_assoc]

lemma mem_namesOf {peers : List PeerState} :
    name ∈ namesOf peers ↔ (∃ p ∈ peers, p.nodeName = some name) ∧ name ≠ "" := by
  unfold namesOf
  simp only [mem_filter, mem_filterMap, decide_eq_true_eq]

lemma mem_unconfirmedContenders {m : Manager} :
    name ∈ m.unconfirmedContenders ↔
      (∃ p ∈ m.agreeingPeers, name ∈ p.quorateVouched.getD []) ∧ name ≠ "" ∧
        name ∉ m.nodeName :: (m.agreeingPeerNames ++ m.eligibleCandidates) := by
  unfold unconfirmedContenders
  rw [mem_sorted]
  simp only [mem_filter, mem_dedup, mem_flatMap, decide_eq_true_eq]

end Manager

namespace Converged

variable {size : ℕ} {nodes : List Manager} {n m : Manager}

section

variable (h : Converged size nodes) (hn : n ∈ nodes)

include h hn

lemma eq_of_name (hm : m ∈ nodes) (hname : n.nodeName = m.nodeName) : n = m :=
  inj_on_of_nodup_map h.names hn hm hname

/-- The agreeing names are those of the nodes that a node has reports of. -/
theorem mem_agreeing :
    name ∈ n.agreeingPeerNames ↔
      ∃ p ∈ n.agreeingPeers, ∃ m ∈ nodes, Reports m p ∧ m.nodeName = name := by
  unfold agreeingPeerNames
  rw [mem_namesOf]
  constructor
  · rintro ⟨⟨p, hp, hname⟩, -⟩
    obtain ⟨m, hm, -, hreports⟩ := h.reports n hn p hp
    exact ⟨p, hp, m, hm, hreports, Option.mem_unique hreports.name hname⟩
  · rintro ⟨p, hp, m, hm, hreports, rfl⟩
    exact ⟨⟨p, hp, hreports.name⟩, h.named m hm⟩

lemma exists_of_agreeing (hname : name ∈ n.agreeingPeerNames) :
    ∃ m ∈ nodes, m.nodeName = name := by
  obtain ⟨p, hp, m, hm, -, hname⟩ := (h.mem_agreeing hn).mp hname
  exact ⟨m, hm, hname⟩

lemma not_agreeing_self : n.nodeName ∉ n.agreeingPeerNames := by
  intro hself
  obtain ⟨⟨p, hp, hname⟩, -⟩ := mem_namesOf.mp hself
  obtain ⟨m, -, hne, hreports⟩ := h.reports n hn p hp
  exact hne (Option.mem_unique hreports.name hname)

/-- Peers of different instances have different names. -/
theorem nodup_names {peers : List PeerState} (hpeers : peers.Sublist n.agreeingPeers) :
    (peers.filterMap PeerState.nodeName).Nodup := by
  have hpair := (dedupInstances_spec [] (n.peers.filter n.agrees)).2.sublist hpeers
  refine List.Pairwise.filterMap _ ?_ (hpair.imp_of_mem (S := fun p q => ∀ name ∈ p.nodeName,
    ∀ name' ∈ q.nodeName, name ≠ name') ?_)
  · intro p q hpq name hname name' hname'
    exact hpq name hname name' hname'
  · rintro p q hp hq hdiff name hname name' hname' rfl
    obtain ⟨m, hm, -, hreports⟩ := h.reports n hn p (hpeers.subset hp)
    obtain ⟨m', hm', -, hreports'⟩ := h.reports n hn q (hpeers.subset hq)
    have heq : m = m' := h.eq_of_name hm hm' (by
      rw [← Option.mem_unique hname hreports.name,
        ← Option.mem_unique hname' hreports'.name])
    exact hdiff m.instanceId hreports.instanceId (heq ▸ hreports'.instanceId)

lemma nodup_agreeing : n.agreeingPeerNames.Nodup :=
  (h.nodup_names hn (List.Sublist.refl _)).filter _

/-- A node is quorate when it and its neighbours are a majority. -/
theorem quorate_iff :
    n.spreadQuorate = true ↔ quorumSize size ≤ n.agreeingPeerNames.length + 1 := by
  unfold spreadQuorate
  rw [h.clusterSize n hn, decide_eq_true_eq, Nat.add_comm]

end

section

variable (h : Converged size nodes) (hn : n ∈ nodes)

include h hn

/-- A neighbour that reports a quorum is quorate, and the other way round. -/
theorem mem_directCandidates :
    name ∈ n.directCandidates ↔
      ∃ m ∈ nodes, m.nodeName = name ∧ name ∈ n.agreeingPeerNames ∧ m.spreadQuorate = true := by
  unfold directCandidates
  rw [mem_namesOf]
  have hcount : ∀ {p : PeerState} {m : Manager}, m ∈ nodes → Reports m p →
      (n.quorum ≤ (p.mutualAgreeing.getD []).length + 1 ↔ m.spreadQuorate = true) := by
    intro p m hm hreports
    rw [h.quorate_iff hm, hreports.mutualAgreeing, Option.getD_some, mutualAgreeing, length_sorted,
      quorum, h.clusterSize n hn]
  constructor
  · rintro ⟨⟨p, hp, hname⟩, -⟩
    obtain ⟨hp, hquorum⟩ := mem_filter.mp hp
    obtain ⟨m, hm, -, hreports⟩ := h.reports n hn p hp
    have hsame := Option.mem_unique hreports.name hname
    exact ⟨m, hm, hsame, (h.mem_agreeing hn).mpr ⟨p, hp, m, hm, hreports, hsame⟩,
      (hcount hm hreports).mp (of_decide_eq_true hquorum)⟩
  · rintro ⟨m, hm, rfl, hagrees, hquorate⟩
    obtain ⟨p, hp, m', hm', hreports, hname⟩ := (h.mem_agreeing hn).mp hagrees
    obtain rfl := h.eq_of_name hm' hm hname
    refine ⟨⟨p, mem_filter.mpr ⟨hp, ?_⟩, hreports.name⟩, h.named m' hm⟩
    exact decide_eq_true ((hcount hm hreports).mpr hquorate)

/-- The witnesses of a name are the common neighbours. -/
theorem mem_witnesses {witness : String} :
    witness ∈ n.witnesses name ↔ ∃ k ∈ nodes, k.nodeName = witness ∧
      witness ∈ n.agreeingPeerNames ∧ name ∈ k.agreeingPeerNames := by
  unfold witnesses
  rw [mem_dedup, mem_filterMap]
  constructor
  · rintro ⟨p, hp, hwitness⟩
    obtain ⟨hp, hmem⟩ := mem_filter.mp hp
    obtain ⟨k, hk, -, hreports⟩ := h.reports n hn p hp
    have hsame := Option.mem_unique hreports.name hwitness
    refine ⟨k, hk, hsame, (h.mem_agreeing hn).mpr ⟨p, hp, k, hk, hreports, hsame⟩, ?_⟩
    rw [hreports.mutualAgreeing] at hmem
    exact mem_sorted.mp (of_decide_eq_true hmem)
  · rintro ⟨k, hk, rfl, hagrees, hmem⟩
    obtain ⟨p, hp, k', hk', hreports, hname⟩ := (h.mem_agreeing hn).mp hagrees
    obtain rfl := h.eq_of_name hk' hk hname
    refine ⟨p, mem_filter.mpr ⟨hp, ?_⟩, hreports.name⟩
    rw [hreports.mutualAgreeing]
    exact decide_eq_true (mem_sorted.mpr hmem)

/-- Whoever the witnesses confirm is quorate: all of them are neighbours of the node. -/
theorem quorate_of_confirmed (hname : name ∈ n.confirmed) :
    ∃ m ∈ nodes, m.nodeName = name ∧ m.spreadQuorate = true := by
  obtain ⟨⟨p, hp, hmem⟩, -, hquorum⟩ := mem_confirmed.mp hname
  obtain ⟨k, hk, -, hreports⟩ := h.reports n hn p hp
  rw [hreports.mutualAgreeing] at hmem
  obtain ⟨m, hm, rfl⟩ := h.exists_of_agreeing hk (mem_sorted.mp hmem)
  refine ⟨m, hm, rfl, (h.quorate_iff hm).mpr ?_⟩
  have hsub : n.witnesses m.nodeName ⊆ m.agreeingPeerNames := by
    intro witness hwitness
    obtain ⟨k', hk', rfl, -, hknows⟩ := (h.mem_witnesses hn).mp hwitness
    exact h.symm k' hk' m hm hknows
  have hlen : (n.witnesses m.nodeName).length ≤ m.agreeingPeerNames.length :=
    (subperm_of_subset (nodup_dedup _) hsub).length_le
  rw [quorum, h.clusterSize n hn] at hquorum
  omega

/-- Whoever a node may elect is quorate. -/
theorem quorate_of_eligible (hname : name ∈ n.eligibleCandidates) :
    ∃ m ∈ nodes, m.nodeName = name ∧ m.spreadQuorate = true := by
  rcases mem_append.mp hname with hdirect | hbridge
  · obtain ⟨m, hm, hsame, -, hquorate⟩ := (h.mem_directCandidates hn).mp hdirect
    exact ⟨m, hm, hsame, hquorate⟩
  · unfold bridgeCandidates at hbridge
    exact h.quorate_of_confirmed hn (mem_of_mem_take hbridge)

end

/-! ## Spread -/

section

variable (h : Converged size nodes)

include h

/-- Two quorate nodes that do not reach each other have a neighbour in common. -/
theorem exists_common (hsize : nodes.length ≤ size) (hn : n ∈ nodes) (hm : m ∈ nodes)
    (hquorate : n.spreadQuorate = true) (hquorate' : m.spreadQuorate = true)
    (hne : m.nodeName ≠ n.nodeName) (hapart : m.nodeName ∉ n.agreeingPeerNames) :
    ∃ k ∈ nodes, k.nodeName ∈ n.agreeingPeerNames ∧ m.nodeName ∈ k.agreeingPeerNames := by
  -- a node with its neighbours, as a subset of the members
  have hclosed : ∀ {k : Manager}, k ∈ nodes → k.spreadQuorate = true →
      insert k.nodeName k.agreeingPeerNames.toFinset ⊆ (nodes.map nodeName).toFinset ∧
        quorumSize size ≤ (insert k.nodeName k.agreeingPeerNames.toFinset).card := by
    intro k hk hquorate
    constructor
    · intro name hname
      rw [mem_toFinset, mem_map]
      rcases Finset.mem_insert.mp hname with rfl | hagrees
      · exact ⟨k, hk, rfl⟩
      · exact h.exists_of_agreeing hk (mem_toFinset.mp hagrees)
    · rw [Finset.card_insert_of_notMem (by simpa using h.not_agreeing_self hk),
        toFinset_card_of_nodup (h.nodup_agreeing hk)]
      exact (h.quorate_iff hk).mp hquorate
  obtain ⟨hsub, hcard⟩ := hclosed hn hquorate
  obtain ⟨hsub', hcard'⟩ := hclosed hm hquorate'
  have hmembers : (nodes.map nodeName).toFinset.card ≤ size :=
    (toFinset_card_le _).trans (by rw [length_map]; exact hsize)
  have hmeet : (nodes.map nodeName).toFinset.card <
      (insert n.nodeName n.agreeingPeerNames.toFinset).card +
        (insert m.nodeName m.agreeingPeerNames.toFinset).card := by
    unfold quorumSize at hcard hcard'
    omega
  obtain ⟨name, hname⟩ := Finset.inter_nonempty_of_card_lt_card_add_card hsub hsub' hmeet
  obtain ⟨hin, hin'⟩ := Finset.mem_inter.mp hname
  simp only [Finset.mem_insert, mem_toFinset] at hin hin'
  -- neither of the two is the element that both have
  rcases hin with rfl | hin
  · rcases hin' with heq | hin'
    · exact absurd heq.symm hne
    · exact absurd (h.symm m hm n hn hin') hapart
  · rcases hin' with rfl | hin'
    · exact absurd hin hapart
    · obtain ⟨k, hk, rfl⟩ := h.exists_of_agreeing hn hin
      exact ⟨k, hk, hin, h.symm m hm k hk hin'⟩

/-- A node elects no name twice, so it elects at most as many as there are members. -/
theorem length_eligible_le (hn : n ∈ nodes) : n.eligibleCandidates.length ≤ nodes.length := by
  have hdirect : n.directCandidates.Nodup :=
    (h.nodup_names hn filter_sublist).filter _
  have hbridge : n.bridgeCandidates.Nodup := by
    unfold bridgeCandidates confirmed sorted
    refine List.Nodup.sublist (take_sublist _ _) ?_
    rw [(perm_insertionSort _ _).nodup_iff]
    exact ((nodup_dedup _).filter _).filter _
  have hdisjoint : n.directCandidates.Disjoint n.bridgeCandidates := by
    intro name hdirect hbridge
    obtain ⟨-, -, -, hagrees, -⟩ := (h.mem_directCandidates hn).mp hdirect
    have hfar := (mem_confirmed.mp (mem_of_mem_take hbridge)).2.1.2
    exact hfar (mem_cons_of_mem _ hagrees)
  have hsub : n.eligibleCandidates ⊆ nodes.map nodeName := by
    intro name hname
    obtain ⟨m, hm, hsame, -⟩ := h.quorate_of_eligible hn hname
    exact mem_map.mpr ⟨m, hm, hsame⟩
  have hle := (subperm_of_subset (hdirect.append hbridge hdisjoint) hsub).length_le
  rwa [length_map] at hle

section

variable (hsize : nodes.length ≤ size) (hcap : size ≤ maxAdvertisedCandidateNames)

include hsize hcap

/-- What a node vouches for is what it may elect, in a cluster that the cap does not reach. -/
theorem mem_cappedVouched (hn : n ∈ nodes) :
    name ∈ n.cappedVouched ↔ name ∈ n.eligibleCandidates := by
  unfold cappedVouched
  rw [take_of_length_le, mem_sorted]
  rw [length_sorted]
  exact (h.length_eligible_le hn).trans (hsize.trans hcap)

/-- A quorate node works with exactly the quorate nodes. -/
theorem mem_spreadMembers (hn : n ∈ nodes) (hquorate : n.spreadQuorate = true) :
    name ∈ n.spreadMembers ↔ ∃ m ∈ nodes, m.nodeName = name ∧ m.spreadQuorate = true := by
  constructor
  · intro hname
    rcases mem_cons.mp hname with rfl | hname
    · exact ⟨n, hn, rfl, hquorate⟩
    · rcases mem_append.mp hname with heligible | hcontends
      · exact h.quorate_of_eligible hn heligible
      · -- a contender was vouched for by a neighbour, who may elect it
        obtain ⟨⟨p, hp, hvouched⟩, -⟩ := mem_unconfirmedContenders.mp hcontends
        obtain ⟨k, hk, -, hreports⟩ := h.reports n hn p hp
        rw [hreports.quorateVouched] at hvouched
        exact h.quorate_of_eligible hk ((h.mem_cappedVouched hsize hcap hk).mp hvouched)
  · rintro ⟨m, hm, rfl, hquorate'⟩
    by_cases hself : m.nodeName = n.nodeName
    · rw [hself]
      exact mem_cons_self
    refine mem_cons_of_mem _ (mem_append.mpr ?_)
    by_cases hnear : m.nodeName ∈ n.agreeingPeerNames
    · exact .inl (mem_append_left _
        ((h.mem_directCandidates hn).mpr ⟨m, hm, rfl, hnear, hquorate'⟩))
    by_cases heligible : m.nodeName ∈ n.eligibleCandidates
    · exact .inl heligible
    -- the node is out of sight, but a common neighbour vouches for it
    obtain ⟨k, hk, hknown, hknows⟩ :=
      h.exists_common hsize hn hm hquorate hquorate' hself hnear
    obtain ⟨p, hp, k', hk', hreports, hname⟩ := (h.mem_agreeing hn).mp hknown
    obtain rfl := h.eq_of_name hk' hk hname
    refine .inr (mem_unconfirmedContenders.mpr ⟨⟨p, hp, ?_⟩, h.named m hm, ?_⟩)
    · rw [hreports.quorateVouched, Option.getD_some, h.mem_cappedVouched hsize hcap hk]
      exact mem_append_left _
        ((h.mem_directCandidates hk).mpr ⟨m, hm, rfl, hknows, hquorate'⟩)
    · simp [hself, hnear, heligible]

/-- All quorate nodes name the same owner. -/
theorem jobOwner_eq (score : String → String → ℕ) (jobName : String) (hn : n ∈ nodes)
    (hm : m ∈ nodes) (hquorate : n.spreadQuorate = true) (hquorate' : m.spreadQuorate = true) :
    n.jobOwner score jobName = m.jobOwner score jobName := by
  unfold jobOwner
  rw [if_pos hquorate, if_pos hquorate']
  refine congrArg some (hrwOwnerBytes_congr score jobName fun name => ?_)
  exact (h.mem_spreadMembers hsize hcap hn hquorate).trans
    (h.mem_spreadMembers hsize hcap hm hquorate').symm

/-- The owner that a quorate node names is a quorate node. -/
theorem exists_owner (score : String → String → ℕ) (jobName : String) (hn : n ∈ nodes)
    (hquorate : n.spreadQuorate = true) :
    ∃ m ∈ nodes, m.spreadQuorate = true ∧ n.jobOwner score jobName = some m.nodeName := by
  have hmem : hrwOwnerBytes score jobName n.nodeName n.spreadOthers ∈ n.spreadMembers :=
    (hrwOwnerBytes_spec score jobName n.nodeName n.spreadOthers).1
  obtain ⟨m, hm, hname, hquorate'⟩ := (h.mem_spreadMembers hsize hcap hn hquorate).mp hmem
  refine ⟨m, hm, hquorate', ?_⟩
  unfold jobOwner
  rw [if_pos hquorate, hname]

end

end

lemma spreadQuorate_of_owner {score : String → String → ℕ} {jobName : String}
    (hown : n.isJobOwner score jobName = true) :
    n.spreadQuorate = true ∧ n.jobOwner score jobName = some n.nodeName := by
  have howner : n.jobOwner score jobName = some n.nodeName := by
    simpa [isJobOwner] using hown
  refine ⟨?_, howner⟩
  unfold jobOwner at howner
  split at howner
  next hquorate => exact hquorate
  next => cases howner

/-! ## One leader -/

lemma mem_leader_candidates (hleader : n.leaderName = some name) :
    name ∈ n.nodeName :: n.eligibleCandidates ∧
      ∀ name' ∈ n.nodeName :: n.eligibleCandidates, name ≤ name' := by
  unfold leaderName electLeader at hleader
  split at hleader
  · cases hleader
  · cases hleader
    exact foldl_min_spec n.nodeName n.eligibleCandidates

/-- A node that another one sees as quorate, directly or through witnesses, is one that it elects if
none is lower. -/
theorem exists_eligible_le (h : Converged size nodes) (hn : n ∈ nodes) (hm : m ∈ nodes)
    (hquorate : m.spreadQuorate = true) (hne : m.nodeName ≠ n.nodeName)
    (hseen : m.nodeName ∈ n.agreeingPeerNames ∨
      ∃ common : List String, common.Nodup ∧ quorumSize size ≤ common.length + 1 ∧
        common ≠ [] ∧
        ∀ name ∈ common, name ∈ n.agreeingPeerNames ∧ name ∈ m.agreeingPeerNames) :
    ∃ name ∈ n.eligibleCandidates, name ≤ m.nodeName := by
  by_cases hnear : m.nodeName ∈ n.agreeingPeerNames
  · exact ⟨m.nodeName, mem_append_left _
      ((h.mem_directCandidates hn).mpr ⟨m, hm, rfl, hnear, hquorate⟩), le_rfl⟩
  · obtain ⟨common, hnodup, hquorum, hsome, hcommon⟩ := hseen.resolve_left hnear
    have hwitness : ∀ name ∈ common, name ∈ n.witnesses m.nodeName := by
      intro name hname
      obtain ⟨hin, hin'⟩ := hcommon name hname
      obtain ⟨k, hk, rfl⟩ := h.exists_of_agreeing hn hin
      exact (h.mem_witnesses hn).mpr ⟨k, hk, rfl, hin, h.symm m hm k hk hin'⟩
    have hlen := (subperm_of_subset hnodup hwitness).length_le
    have hconfirmed : m.nodeName ∈ n.confirmed := by
      refine mem_confirmed.mpr ⟨?_, ⟨h.named m hm, ?_⟩, ?_⟩
      · -- one of the witnesses has reported it
        obtain ⟨name, hname⟩ := exists_mem_of_ne_nil _ hsome
        obtain ⟨hin, hin'⟩ := hcommon name hname
        obtain ⟨p, hp, k, hk, hreports, rfl⟩ := (h.mem_agreeing hn).mp hin
        refine ⟨p, hp, ?_⟩
        rw [hreports.mutualAgreeing]
        exact mem_sorted.mpr (h.symm m hm k hk hin')
      · simp [hne, hnear]
      · rw [quorum, h.clusterSize n hn]
        omega
    -- the cap may drop it, but then keeps a lower name
    obtain ⟨name, hkept, hle⟩ := exists_le_mem_take (by decide : 0 < maxAdvertisedCandidateNames)
      (mem_sorted.mp hconfirmed)
    exact ⟨name, mem_append_right _ hkept, hle⟩

/-- A leader is quorate, and lowest among itself and whom it may elect. -/
theorem leader_spec (hleads : n.isLeader = true) :
    n.spreadQuorate = true ∧ ∀ name ∈ n.eligibleCandidates, n.nodeName ≤ name := by
  have hleader : n.leaderName = some n.nodeName := by simpa [isLeader] using hleads
  constructor
  · rw [← isQuorate_eq, isQuorate, hleader]
    rfl
  · intro name hname
    exact (mem_leader_candidates hleader).2 name (mem_cons_of_mem _ hname)

/-- Of two leaders, the higher one does not see the lower one. -/
theorem not_seen_of_leaders (h : Converged size nodes) (hn : n ∈ nodes) (hm : m ∈ nodes)
    (hlt : m.nodeName < n.nodeName) (hleads : n.isLeader = true) (hleads' : m.isLeader = true) :
    m.nodeName ∉ n.agreeingPeerNames ∧ ∀ common : List String, common.Nodup → common ≠ [] →
      (∀ name ∈ common, name ∈ n.agreeingPeerNames ∧ name ∈ m.agreeingPeerNames) →
        common.length + 1 < quorumSize size := by
  have hunseen : ∀ name ∈ n.eligibleCandidates, ¬ name ≤ m.nodeName := fun name hname hle =>
    absurd ((leader_spec hleads).2 name hname) (not_le.mpr (hle.trans_lt hlt))
  have hquorate := (leader_spec hleads').1
  constructor
  · intro hnear
    obtain ⟨name, hname, hle⟩ := h.exists_eligible_le hn hm hquorate hlt.ne (.inl hnear)
    exact hunseen name hname hle
  · intro common hnodup hsome hcommon
    by_contra hquorum
    obtain ⟨name, hname, hle⟩ := h.exists_eligible_le hn hm hquorate hlt.ne
      (.inr ⟨common, hnodup, not_lt.mp hquorum, hsome, hcommon⟩)
    exact hunseen name hname hle

/-- Two members make a majority of at least two. -/
theorem two_le_quorumSize (hsize : nodes.length ≤ size) (hn : n ∈ nodes) (hm : m ∈ nodes)
    (hne : n.nodeName ≠ m.nodeName) : 2 ≤ quorumSize size := by
  have htwo : 2 ≤ nodes.length := by
    have hsub : [n.nodeName, m.nodeName] ⊆ nodes.map nodeName := by
      intro name hname
      simp only [mem_cons, not_mem_nil, or_false] at hname
      rcases hname with rfl | rfl
      · exact mem_map_of_mem hn
      · exact mem_map_of_mem hm
    have hle := (subperm_of_subset (by simpa using hne) hsub).length_le
    simpa using hle
  unfold quorumSize
  omega

end Converged

/-- In a converged mesh the quorate nodes all work with the same members, the quorate nodes, and
each job is owned by exactly one of them, or by nobody when there are none. -/
theorem spread_one_owner (score : String → String → ℕ) {size : ℕ} {nodes : List Manager}
    (hcap : size ≤ 512) (hsize : nodes.length ≤ size) (h : Converged size nodes) :
    (∀ n ∈ nodes, n.spreadQuorate = true → ∀ name, name ∈ n.spreadMembers ↔
        ∃ m ∈ nodes, m.nodeName = name ∧ m.spreadQuorate = true) ∧
      ∀ jobName, ((∀ n ∈ nodes, n.spreadQuorate = false) ∧
          ∀ n ∈ nodes, n.isJobOwner score jobName = false) ∨
        ∃! n, n ∈ nodes ∧ n.isJobOwner score jobName = true := by
  refine ⟨fun n hn hquorate name => h.mem_spreadMembers hsize hcap hn hquorate, fun jobName => ?_⟩
  by_cases hany : ∃ n ∈ nodes, n.spreadQuorate = true
  · right
    obtain ⟨n, hn, hquorate⟩ := hany
    obtain ⟨owner, howner, hquorate', hnames⟩ :=
      h.exists_owner hsize hcap score jobName hn hquorate
    have hself : owner.jobOwner score jobName = some owner.nodeName :=
      (h.jobOwner_eq hsize hcap score jobName howner hn hquorate' hquorate).trans hnames
    refine ⟨owner, ⟨howner, by simpa [isJobOwner] using hself⟩, ?_⟩
    rintro m ⟨hm, hown⟩
    obtain ⟨hquorate'', hself'⟩ := Converged.spreadQuorate_of_owner hown
    have hsame := h.jobOwner_eq hsize hcap score jobName hm howner hquorate'' hquorate'
    rw [hself', hself] at hsame
    exact h.eq_of_name hm howner (Option.some.inj hsame)
  · left
    have hnone : ∀ n ∈ nodes, n.spreadQuorate = false := by
      intro n hn
      by_contra hquorate
      exact hany ⟨n, hn, by simpa using hquorate⟩
    refine ⟨hnone, fun n hn => ?_⟩
    by_contra hown
    have hquorate := (Converged.spreadQuorate_of_owner (by simpa using hown)).1
    exact absurd ((hnone n hn).symm.trans hquorate) (by simp)

/-- In a converged mesh the first of the quorate nodes leads, only quorate nodes are reported as
leader, nobody leads without a quorum, and two leaders are out of each other's sight: they do not
agree, and have fewer neighbours in common than it takes to confirm one to the other. -/
theorem single_leader_elected {size : ℕ} {nodes : List Manager} (h : Converged size nodes) :
    ((∃ n ∈ nodes, n.isQuorate = true) → ∃ n ∈ nodes, n.isQuorate = true ∧
        (∀ m ∈ nodes, m.isQuorate = true → n.nodeName ≤ m.nodeName) ∧ n.isLeader = true) ∧
      (∀ n ∈ nodes, n.isQuorate = true → ∀ name, n.leaderName = some name →
        ∃ m ∈ nodes, m.nodeName = name ∧ m.isQuorate = true) ∧
      (∀ n ∈ nodes, n.isQuorate = false → n.isLeader = false) ∧
      ∀ n ∈ nodes, ∀ m ∈ nodes, n.nodeName ≠ m.nodeName → n.isLeader = true →
        m.isLeader = true → m.nodeName ∉ n.agreeingPeerNames ∧
          ∀ common : List String, common.Nodup →
            (∀ name ∈ common, name ∈ n.agreeingPeerNames ∧ name ∈ m.agreeingPeerNames) →
            common ≠ [] ∨ nodes.length ≤ size → common.length + 1 < quorumSize size := by
  simp only [isQuorate_eq]
  have hcandidates : ∀ n ∈ nodes, n.spreadQuorate = true → ∀ name, n.leaderName = some name →
      ∃ m ∈ nodes, m.nodeName = name ∧ m.spreadQuorate = true := by
    intro n hn hquorate name hleader
    rcases mem_cons.mp (Converged.mem_leader_candidates hleader).1 with rfl | heligible
    · exact ⟨n, hn, rfl, hquorate⟩
    · exact h.quorate_of_eligible hn heligible
  refine ⟨?_, hcandidates, ?_, ?_⟩
  · rintro ⟨n, hn, hquorate⟩
    -- the first of the quorate nodes elects a quorate node, which cannot be before it
    obtain ⟨first, hargmin⟩ : ∃ first,
        first ∈ (nodes.filter spreadQuorate).argmin nodeName := by
      refine Option.ne_none_iff_exists'.mp fun hnone => ?_
      have hmem := mem_filter.mpr ⟨hn, hquorate⟩
      rw [argmin_eq_none.mp hnone] at hmem
      cases hmem
    obtain ⟨hfirst, hfirst'⟩ := mem_filter.mp (argmin_mem hargmin)
    have hleast : ∀ m ∈ nodes, m.spreadQuorate = true → first.nodeName ≤ m.nodeName :=
      fun m hm hquorate' => le_of_mem_argmin (mem_filter.mpr ⟨hm, hquorate'⟩) hargmin
    refine ⟨first, hfirst, hfirst', hleast, ?_⟩
    have hsome : first.leaderName.isSome = true := (isQuorate_eq first).trans hfirst'
    obtain ⟨name, hleader⟩ := Option.isSome_iff_exists.mp hsome
    obtain ⟨m, hm, rfl, hquorate'⟩ := hcandidates first hfirst hfirst' name hleader
    have hle := (Converged.mem_leader_candidates hleader).2 first.nodeName mem_cons_self
    have heq := le_antisymm hle (hleast m hm hquorate')
    simp [isLeader, hleader, heq]
  · intro n hn hnot
    by_contra hleads
    have hquorate := (Converged.leader_spec (by simpa using hleads)).1
    exact absurd (hnot.symm.trans hquorate) (by simp)
  · intro n hn m hm hne hleads hleads'
    have hfew {common : List String} (hsome : common ≠ [] ∨ nodes.length ≤ size)
        (hthin : common ≠ [] → common.length + 1 < quorumSize size) :
        common.length + 1 < quorumSize size := by
      by_cases hnone : common = []
      · subst hnone
        exact Converged.two_le_quorumSize (hsome.resolve_left fun h' => h' rfl) hn hm hne
      · exact hthin hnone
    rcases lt_or_gt_of_ne hne with hlt | hgt
    · obtain ⟨hfar, hthin⟩ := h.not_seen_of_leaders hm hn hlt hleads' hleads
      exact ⟨fun hnear => hfar (h.symm n hn m hm hnear), fun common hnodup hcommon hsome =>
        hfew hsome (hthin common hnodup · fun name hname => (hcommon name hname).symm)⟩
    · obtain ⟨hfar, hthin⟩ := h.not_seen_of_leaders hn hm hgt hleads hleads'
      exact ⟨hfar, fun common hnodup hcommon hsome =>
        hfew hsome (hthin common hnodup · hcommon)⟩

section Thin

instance (m : Manager) (p : PeerState) : Decidable (Reports m p) :=
  decidable_of_iff (p.nodeName = some m.nodeName ∧ p.instanceId = some m.instanceId ∧
      p.mutualAgreeing = some m.mutualAgreeing ∧ p.quorateVouched = some m.cappedVouched)
    ⟨fun ⟨h₁, h₂, h₃, h₄⟩ => ⟨h₁, h₂, h₃, h₄⟩,
      fun h => ⟨h.name, h.instanceId, h.mutualAgreeing, h.quorateVouched⟩⟩

/-- A peer that agrees with node `me`, and reports these names. -/
private def agreeing (me name : String) (mutualAgreeing quorateVouched : List String) :
    PeerState where
  status := .agreed
  nodeName := some name
  instanceId := some name
  members := some [⟨me, me, true⟩]
  declaredSize := some 5
  mutualAgreeing := some mutualAgreeing
  quorateVouched := some quorateVouched

private def member (name : String) (peers : List PeerState) : Manager where
  nodeName := name
  instanceId := name
  distribution := "spread"
  electsLeader := true
  peerCount := 4
  peers := peers

/-- Two groups of two, and node `k` between `a` and `c`: three of the five nodes are quorate, and
`k` alone witnesses `a` to `c`. -/
private def thin : List Manager :=
  [member "a" [agreeing "a" "b" ["a"] ["a"], agreeing "a" "k" ["a", "c"] ["a", "c"]],
    member "b" [agreeing "b" "a" ["b", "k"] ["k"]],
    member "c" [agreeing "c" "d" ["c"] ["c"], agreeing "c" "k" ["a", "c"] ["a", "c"]],
    member "d" [agreeing "d" "c" ["d", "k"] ["k"]],
    member "k" [agreeing "k" "a" ["b", "k"] ["k"], agreeing "k" "c" ["d", "k"] ["k"]]]

private lemma converged_thin : Converged 5 thin where
  names := by decide +kernel
  named := by decide +kernel
  instances := by decide +kernel
  clusterSize := by decide +kernel
  reports := by decide +kernel
  symm := by decide +kernel

/-- Each job of the thin mesh has one owner, though nobody sees all of the quorate nodes but `k`. -/
theorem spread_one_owner_thin :
    Converged 5 thin ∧ ∃! n, n ∈ thin ∧ n.isJobOwner (fun _ _ => 0) "backup" = true := by
  refine ⟨converged_thin, ?_⟩
  refine ((spread_one_owner (fun _ _ => 0) (by decide) (by decide) converged_thin).2
    "backup").resolve_left fun hnone => ?_
  have hquorate : ∃ n ∈ thin, n.spreadQuorate = true := by decide +kernel
  obtain ⟨n, hn, hquorate⟩ := hquorate
  exact absurd ((hnone.1 n hn).symm.trans hquorate) (by simp)

/-- Both `a` and `c` lead there, and what they have in common is too thin to see across. -/
theorem single_leader_elected_thin :
    Converged 5 thin ∧ (∃ n ∈ thin, ∃ m ∈ thin, n.nodeName = "a" ∧ m.nodeName = "c" ∧
      n.isLeader = true ∧ m.isLeader = true ∧ m.nodeName ∉ n.agreeingPeerNames) := by
  refine ⟨converged_thin, ?_⟩
  have hleaders : ∃ n ∈ thin, ∃ m ∈ thin, n.nodeName = "a" ∧ m.nodeName = "c" ∧
      n.isLeader = true ∧ m.isLeader = true := by decide +kernel
  obtain ⟨n, hn, m, hm, hname, hname', hleads, hleads'⟩ := hleaders
  have hne : n.nodeName ≠ m.nodeName := by
    rw [hname, hname']
    decide
  exact ⟨n, hn, m, hm, hname, hname', hleads, hleads',
    ((single_leader_elected converged_thin).2.2.2 n hn m hm hne hleads hleads').1⟩

end Thin

end Cronstable.Cluster
