import Cronstable.Cluster.View
import Cronstable.Lib.Dict
import Cronstable.Lib.Log
import Cronstable.Lib.Trace

/-!
# Gossip about `@reboot` jobs that ran

A node of the gossip cluster remembers which `@reboot` jobs it ran and which ones were pushed to it
(`_ran_reboot_jobs`), and for each peer what the peer's last `/peer` body said. It passes all of it
on, in its own `/peer` body and in pushes. Everything is about a job set: a mark made under one
job-set id must not retire a job of another one.

`State.step` is any number of nodes. A poll is cut at its request and at the response; `net` has
every message that was sent, and any of them may be delivered at any time, to anybody, and any
number of times. Reloads change the id of a node at any moment, and the node aligns what it
remembers only when it next polls, marks or is pushed to.

`marks_scoped` is the result: what a node believes or says of a job under an id goes back to a call
of `mark_reboot_ran` on a node on which that id was live.

Of a `/peer` body only the fields that decide about the ran jobs are told apart; the others are one
text that the digest covers. Node statistics, logging and the degradation of oversized bodies are
left out.
-/

namespace Cronstable.Cluster.RebootGossip

open List Option

/-- `MAX_REBOOT_JOB_NAME_LEN`. -/
def maxRebootJobNameLen : ℕ := 128

/-- `MAX_ADVERTISED_REBOOT_JOBS`. -/
def maxAdvertisedRebootJobs : ℕ := 512

/-- `MAX_PEER_FIELD_LEN`. -/
def maxPeerFieldLen : ℕ := 256

/-- `MAX_PEER_ETAG_LEN`. -/
def maxPeerEtagLen : ℕ := 128

/-- `SCHEME_VERSION`. -/
def schemeVersion : String := "v1"

/-- A `/peer` body. -/
structure Body where
  nodeName : Option String
  jobSetId : Option String
  scheme : Option String
  instanceId : Option String
  ranRebootJobs : List String
  /-- All other fields. -/
  rest : String
  deriving DecidableEq, Repr

/-- What the nodes share. -/
structure Env where
  /-- `str.isprintable`. -/
  printable : String → Bool
  /-- `_peer_etag`. -/
  etag : Body → String
  driftAfter : ℕ

/-- What a poll learns from a body. -/
structure Observation where
  name : Option String
  jobSetId : Option String
  scheme : Option String
  instanceId : Option String
  ran : List String
  deriving DecidableEq, Repr

/-- What a node knows of one peer. -/
structure Peer where
  status : Status := .unknown
  jobSetId : Option String := none
  /-- `ran_reboot_jobs`. -/
  ran : Option (List String) := none
  mismatchStreak : ℕ := 0
  selfConfirmed : Bool := false
  deriving DecidableEq, Repr

/-- A poll of one peer. -/
structure Poll where
  host : String
  /-- The id that was live when the round began. -/
  myId : String
  /-- Once the request is sent, the entry of `_peer_observation_cache` it was sent with. -/
  sent : Option (Option (String × Observation)) := none
  done : Bool := false
  deriving DecidableEq, Repr

/-- What `_handle_peer` keeps its response under: the writes to the peer table, the live id, and the
id and the number of the recorded runs. -/
abbrev Key := ℕ × String × Option String × ℕ

structure Node where
  name : String
  instanceId : String
  hosts : List String
  /-- `get_job_set_id()`. -/
  live : String
  /-- `_ran_reboot_jobs`. -/
  ran : List String := []
  /-- `_ran_jobs_job_set_id`. -/
  ranId : Option String := none
  peers : Dict String Peer
  /-- How often a peer was written. -/
  writes : ℕ := 0
  /-- `_peer_observation_cache`. -/
  observed : Dict String (String × Observation) := .empty
  /-- `_peer_response_cache`. -/
  served : Option (Key × String × Body) := none
  polls : List Poll := []

inductive Message
  | body (etag : String) (b : Body)
  /-- The answer 304. -/
  | notModified
  | push (jobSetId : String) (names : List String)
  deriving DecidableEq, Repr

/-- How a poll fails. -/
inductive Fault
  | untrusted
  /-- A timeout, an error status, an oversized or a malformed body. -/
  | unreachable
  | unexpected
  deriving DecidableEq, Repr

inductive Event
  | reload (p : ℕ) (jobSetId : String)
  /-- A new process, with a new instance id. -/
  | restart (p : ℕ) (instanceId : String)
  | mark (p : ℕ) (job : String)
  /-- `_poll_all` begins. -/
  | round (p : ℕ)
  /-- `_observe_peer` sends its request. -/
  | request (p k : ℕ)
  /-- It gets a message of the net. -/
  | receive (p k m : ℕ)
  | fault (p k : ℕ) (fault : Fault)
  /-- `_handle_peer`, for a request with `If-None-Match`. Kept responses are used while fresh. -/
  | serve (p : ℕ) (tag : Option String) (fresh : Bool) (rest : String)
  /-- `_handle_reboot_ran` gets a message of the net. -/
  | pushed (p m : ℕ)
  deriving DecidableEq, Repr

/-- `_parse_str_list`, with the names so far. -/
def parseStrList (ok : String → Bool) (maxItems : ℕ) (out : List String) :
    List String → List String
  | [] => out
  | item :: rest =>
    if ok item then
      let out := out.insert item
      if maxItems ≤ out.length then out else parseStrList ok maxItems out rest
    else parseStrList ok maxItems out rest

namespace Env

/-- The names that are taken from a peer. -/
def parseRan (env : Env) (names : List String) : List String :=
  parseStrList
    (fun item => item ≠ "" && item.length ≤ maxRebootJobNameLen && env.printable item)
    maxAdvertisedRebootJobs [] names

/-- An identity field of a body is absent, or neither empty nor too long nor unprintable. -/
def fieldOk (env : Env) (field : Option String) : Bool :=
  field.all fun value =>
    value ≠ "" && value.length ≤ maxPeerFieldLen && env.printable value

/-- What `_observe_peer` makes of a body. -/
def observe (env : Env) (b : Body) : Option Observation :=
  if [b.nodeName, b.jobSetId, b.scheme, b.instanceId].all env.fieldOk then
    some ⟨b.nodeName, b.jobSetId, b.scheme, b.instanceId, env.parseRan b.ranRebootJobs⟩
  else none

/-- A tag that may be kept. -/
def tagOk (env : Env) (tag : String) : Bool :=
  tag.length ≤ maxPeerEtagLen && env.printable tag

end Env

namespace Peer

/-- `ClusterView.record_success`. -/
def recordSuccess (driftAfter : ℕ) (myName myInstance myId : String) (o : Observation) (p : Peer) :
    Peer :=
  let p := { p with jobSetId := o.jobSetId, ran := some o.ran, selfConfirmed := false }
  if o.name = some myName then
    if o.instanceId ≠ none ∧ o.instanceId ≠ some myInstance then { p with status := .conflict }
    else { p with status := .self, selfConfirmed := true, mismatchStreak := 0 }
  else if o.scheme ≠ none ∧ o.scheme ≠ some schemeVersion then { p with status := .drifted }
  else if o.jobSetId = some myId then { p with status := .agreed, mismatchStreak := 0 }
  else
    let streak := p.mismatchStreak + 1
    { p with
      mismatchStreak := streak, status := if driftAfter ≤ streak then .drifted else .syncing }

/-- `ClusterView.record_failure`. The id it last reported stays. -/
def recordFailure (untrusted : Bool) (p : Peer) : Peer :=
  { p with
    status := if p.selfConfirmed then .self else if untrusted then .untrusted else .unreachable
    ran := none }

end Peer

namespace Node

/-- What a process starts with. -/
def fresh (name instanceId : String) (hosts : List String) (live : String) : Node :=
  { name, instanceId, hosts, live, peers := .ofList (hosts.map fun host => (host, {})) }

/-- `_reconcile_job_set_id`, to the live id. -/
def reconcile (n : Node) : Node :=
  let ran := if n.ranId ≠ none ∧ n.ranId ≠ some n.live then [] else n.ran
  { n with ran, ranId := some n.live }

/-- A peer's ran jobs count under the live id only. -/
def counts (n : Node) (p : Peer) : Bool := p.status = .agreed ∧ p.jobSetId = some n.live

/-- Our own recorded runs count under the live id only. -/
def ownCount (n : Node) : Bool := n.ranId = none ∨ n.ranId = some n.live

/-- `advertised_ran_jobs`. -/
def advertisedRanJobs (n : Node) : List String :=
  (if n.ownCount then n.ran else []) ++
    n.peers.values.flatMap fun p => if n.counts p then p.ran.getD [] else []

/-- What is advertised, sorted and cut. -/
def advertised (n : Node) : List String :=
  (sorted n.advertisedRanJobs.dedup).take maxAdvertisedRebootJobs

/-- `reboot_ran`. -/
def rebootRan (n : Node) (job : String) : Bool :=
  n.ownCount && decide (job ∈ n.ran) ||
    n.peers.values.any fun p => n.counts p && decide (job ∈ p.ran.getD [])

/-- `_peer_payload`. -/
def payload (n : Node) (rest : String) : Body where
  nodeName := some n.name
  jobSetId := some n.live
  scheme := some schemeVersion
  instanceId := some n.instanceId
  ranRebootJobs := n.advertised
  rest := rest

def key (n : Node) : Key := (n.writes, n.live, n.ranId, n.ran.length)

/-- `_handle_peer`: the kept response if it is still the right one, else a new one. -/
def respond (env : Env) (n : Node) (fresh : Bool) (rest : String) : String × Body :=
  match n.served with
  | some (key, response) =>
    if key = n.key ∧ fresh then response
    else (env.etag (n.payload rest), n.payload rest)
  | none => (env.etag (n.payload rest), n.payload rest)

/-- A request whose `If-None-Match` has the tag is answered without the body. -/
def reply (tag : Option String) (response : String × Body) : Message :=
  if tag = some response.1 then .notModified else .body response.1 response.2

/-- A peer was observed, or was not. -/
def setPeer (n : Node) (host : String) (f : Peer → Peer) : Node :=
  { n with
    peers := n.peers.set host (f ((n.peers.get? host).getD {}))
    writes := n.writes + 1 }

def succeed (env : Env) (n : Node) (q : Poll) (o : Observation) : Node :=
  n.setPeer q.host (Peer.recordSuccess env.driftAfter n.name n.instanceId q.myId o)

def failPoll (n : Node) (q : Poll) (untrusted : Bool) : Node :=
  n.setPeer q.host (Peer.recordFailure untrusted)

/-- `_observe_peer` from the response on. -/
def receive (env : Env) (n : Node) (q : Poll) (cached : Option (String × Observation)) :
    Message → Option Node
  | .notModified =>
    match cached with
    -- an unsolicited 304
    | none => some (n.failPoll q false)
    | some (_, o) => some (n.succeed env q o)
  | .body etag b =>
    match env.observe b with
    | none => some (n.failPoll q false)
    | some o =>
      let n := n.succeed env q o
      some { n with
        observed := if env.tagOk etag then n.observed.set q.host (etag, o)
          else n.observed.erase q.host }
  | .push .. => none

/-- `_handle_reboot_ran`. -/
def pushed (env : Env) (n : Node) (jobSetId : String) (names : List String) : Node :=
  if jobSetId = n.live then
    let n := n.reconcile
    let ran := n.ran ∪ env.parseRan names
    { n with
      ran := if maxAdvertisedRebootJobs < ran.length then
          (sorted ran).take maxAdvertisedRebootJobs
        else ran }
  else n

end Node

structure State where
  nodes : ℕ → Node
  /-- Every message that was sent. -/
  net : List Message := []

namespace State

def setNode (s : State) (p : ℕ) (n : Node) : State :=
  { s with nodes := Function.update s.nodes p n }

def send (s : State) (m : Message) : State := { s with net := s.net ++ [m] }

/-- `mark_reboot_ran`, with its push. -/
def mark (s : State) (p : ℕ) (job : String) : State :=
  let n := (s.nodes p).reconcile
  let n := { n with ran := n.ran.insert job }
  let s := s.setNode p n
  if n.hosts = [] ∨ n.advertised = [] then s else s.send (.push n.live n.advertised)

/-- A poll of a node has come to its response. -/
def settle (s : State) (p k : ℕ) (q : Poll) (n : Node) : State :=
  s.setNode p { n with polls := n.polls.set k { q with done := true } }

def step (env : Env) (s : State) : Event → Option State
  | .reload p jobSetId => some (s.setNode p { s.nodes p with live := jobSetId })
  | .restart p instanceId =>
    let n := s.nodes p
    some (s.setNode p (.fresh n.name instanceId n.hosts n.live))
  | .mark p job => some (s.mark p job)
  | .round p =>
    let n := (s.nodes p).reconcile
    if n.polls.all (·.done) then
      some (s.setNode p { n with polls := n.hosts.map fun host => { host, myId := n.live } })
    else none
  | .request p k =>
    let n := s.nodes p
    match n.polls[k]? with
    | some q =>
      if q.sent = none then
        let q := { q with sent := some (n.observed.get? q.host) }
        some (s.setNode p { n with polls := n.polls.set k q })
      else none
    | none => none
  | .receive p k m => do
    let q ← (s.nodes p).polls[k]?
    let cached ← q.sent
    let message ← s.net[m]?
    if q.done then none
    else (Node.receive env (s.nodes p) q cached message).map (s.settle p k q)
  | .fault p k fault =>
    match (s.nodes p).polls[k]? with
    | some q =>
      let n := (s.nodes p).failPoll q (fault = .untrusted)
      if q.done then none
      else some (s.settle p k q
        { n with
          observed := if fault = .unexpected then n.observed.erase q.host else n.observed })
    | none => none
  | .serve p tag fresh rest =>
    let n := s.nodes p
    let response := n.respond env fresh rest
    some ((s.setNode p { n with served := some (n.key, response) }).send
      (Node.reply tag response))
  | .pushed p m =>
    match s.net[m]? with
    | some (.push jobSetId names) =>
      some (s.setNode p ((s.nodes p).pushed env jobSetId names))
    | _ => none

end State

/-! ## Provenance -/

variable {job : String} {names : List String} {q : Poll} {p : ℕ}

section Provenance

variable {M M' : String → String → Prop} {env : Env}

/-- The jobs were marked under the id, as far as there is one. -/
def Scoped (M : String → String → Prop) (jobSetId : Option String) (jobs : List String) : Prop :=
  ∀ id, jobSetId = some id → ∀ job ∈ jobs, M id job

lemma Scoped.mono {jobSetId : Option String} {jobs : List String} (h : Scoped M jobSetId jobs)
    (hM : ∀ id job, M id job → M' id job) : Scoped M' jobSetId jobs :=
  fun id hid job hjob => hM id job (h id hid job hjob)

/-- What a message says of a job. -/
def Message.Names (jobSetId job : String) : Message → Prop
  | .body _ b => b.jobSetId = some jobSetId ∧ job ∈ b.ranRebootJobs
  | .notModified => False
  | .push id names => id = jobSetId ∧ job ∈ names

/-- Where `M` says which job was marked under which id, all that a node remembers was marked under
the id it is remembered with. -/
structure Node.Inv (M : String → String → Prop) (n : Node) : Prop where
  ran : ∀ job ∈ n.ran, ∃ id, n.ranId = some id ∧ M id job
  peers : ∀ host p, n.peers.get? host = some p → Scoped M p.jobSetId (p.ran.getD [])
  observed : ∀ host tag o, n.observed.get? host = some (tag, o) → Scoped M o.jobSetId o.ran
  served : ∀ key etag b, n.served = some (key, etag, b) → Scoped M b.jobSetId b.ranRebootJobs
  polls : ∀ q ∈ n.polls, ∀ tag o, q.sent = some (some (tag, o)) → Scoped M o.jobSetId o.ran

structure State.Inv (M : String → String → Prop) (s : State) : Prop where
  nodes : ∀ p, (s.nodes p).Inv M
  net : ∀ m ∈ s.net, ∀ id job, m.Names id job → M id job

lemma mem_of_parseStrList {ok : String → Bool} {maxItems : ℕ} {out : List String}
    (h : job ∈ parseStrList ok maxItems out names) : job ∈ out ∨ job ∈ names := by
  induction names generalizing out with
  | nil => exact .inl h
  | cons item rest ih =>
    have hinsert (h : job ∈ out.insert item) : job ∈ out ∨ job ∈ item :: rest := by
      rcases mem_insert_iff.mp h with rfl | h
      · exact .inr mem_cons_self
      · exact .inl h
    unfold parseStrList at h
    split at h
    · dsimp only at h
      split at h
      · exact hinsert h
      · rcases ih h with h | h
        · exact hinsert h
        · exact .inr (mem_cons_of_mem _ h)
    · exact (ih h).imp_right (mem_cons_of_mem _)

lemma mem_of_parseRan (h : job ∈ env.parseRan names) : job ∈ names :=
  (mem_of_parseStrList h).resolve_left not_mem_nil

/-- What a poll learns, the body says. -/
theorem scoped_of_observe {b : Body} {o : Observation} (h : env.observe b = some o)
    (hb : Scoped M b.jobSetId b.ranRebootJobs) : Scoped M o.jobSetId o.ran := by
  obtain ⟨-, heq⟩ := ite_none_right_eq_some.mp h
  cases heq
  exact fun id hid job hjob => hb id hid job (mem_of_parseRan hjob)

namespace Peer

/-- The id and the jobs of a peer come from one observation. -/
theorem recordSuccess_eq (driftAfter : ℕ) (myName myInstance myId : String) (o : Observation)
    (p : Peer) : (p.recordSuccess driftAfter myName myInstance myId o).jobSetId = o.jobSetId ∧
      (p.recordSuccess driftAfter myName myInstance myId o).ran = some o.ran := by
  unfold recordSuccess
  split
  · split <;> exact ⟨rfl, rfl⟩
  · split
    · exact ⟨rfl, rfl⟩
    · split <;> exact ⟨rfl, rfl⟩

end Peer

namespace Node

variable {n : Node}

lemma Inv.mono (h : n.Inv M) (hM : ∀ id job, M id job → M' id job) : n.Inv M' where
  ran job hjob := by
    obtain ⟨id, hid, hmark⟩ := h.ran job hjob
    exact ⟨id, hid, hM id job hmark⟩
  peers host p hp := (h.peers host p hp).mono hM
  observed host tag o ho := (h.observed host tag o ho).mono hM
  served key etag b hb := (h.served key etag b hb).mono hM
  polls q hq tag o ho := (h.polls q hq tag o ho).mono hM

lemma inv_fresh (name instanceId : String) (hosts : List String) (live : String) :
    (fresh name instanceId hosts live).Inv M where
  ran := nofun
  peers host p hp := by
    obtain ⟨host', -, heq⟩ := mem_map.mp (Dict.mem_of_get?_ofList hp)
    obtain ⟨-, rfl⟩ := Prod.mk.inj heq
    exact nofun
  observed := by simp [fresh]
  served := nofun
  polls := nofun

section

variable (h : n.Inv M)

include h

/-- After a reconcile what is recorded was marked under the live id. -/
theorem Inv.reconcile : n.reconcile.Inv M := by
  refine { h with ran := fun job hjob => ⟨n.live, rfl, ?_⟩ }
  simp only [Node.reconcile] at hjob
  split at hjob
  case isTrue => cases hjob
  case isFalse hsame =>
    obtain ⟨id, hid, hmark⟩ := h.ran job hjob
    have hlive : id = n.live := by
      by_contra hne
      exact hsame ⟨by simp [hid], by simpa [hid] using hne⟩
    exact hlive ▸ hmark

/-- The recorded runs that count, and those of the peers that count, were marked under the live
id. -/
theorem Inv.own (hown : n.ownCount) (hjob : job ∈ n.ran) : M n.live job := by
  obtain ⟨id, hid, hmark⟩ := h.ran job hjob
  have hlive : id = n.live := by simpa [ownCount, hid] using hown
  exact hlive ▸ hmark

lemma Inv.counted {p : Peer} (hp : p ∈ n.peers.values) (hcounts : n.counts p)
    (hjob : job ∈ p.ran.getD []) : M n.live job := by
  obtain ⟨host, hp⟩ := Dict.mem_values_iff.mp hp
  have hlive : p.status = .agreed ∧ p.jobSetId = some n.live := by simpa [counts] using hcounts
  exact h.peers host p hp n.live hlive.2 job hjob

lemma Inv.rebootRan (hran : n.rebootRan job) : M n.live job := by
  simp only [Node.rebootRan, Bool.or_eq_true, Bool.and_eq_true, decide_eq_true_eq,
    List.any_eq_true] at hran
  rcases hran with ⟨hown, hjob⟩ | ⟨p, hp, hcounts, hjob⟩
  · exact h.own hown hjob
  · exact h.counted hp hcounts hjob

lemma Inv.advertised (hjob : job ∈ n.advertised) : M n.live job := by
  have hall := mem_dedup.mp (mem_sorted.mp (mem_of_mem_take hjob))
  rcases mem_append.mp hall with hjob | hjob
  · split at hjob
    case isTrue hown => exact h.own hown hjob
    case isFalse => cases hjob
  · obtain ⟨p, hp, hjob⟩ := mem_flatMap.mp hjob
    split at hjob
    case isTrue hcounts => exact h.counted hp hcounts hjob
    case isFalse => cases hjob

lemma Inv.payload (rest : String) :
    Scoped M (n.payload rest).jobSetId (n.payload rest).ranRebootJobs := by
  rintro id ⟨⟩ job hjob
  exact h.advertised hjob

lemma Inv.respond (fresh : Bool) (rest : String) :
    Scoped M (n.respond env fresh rest).2.jobSetId (n.respond env fresh rest).2.ranRebootJobs := by
  unfold Node.respond
  split
  case h_1 key response hserved =>
    split
    · exact h.served key response.1 response.2 hserved
    · exact h.payload rest
  case h_2 => exact h.payload rest

end

lemma names_reply {tag : Option String} {response : String × Body}
    (h : Scoped M response.2.jobSetId response.2.ranRebootJobs) {id : String}
    (hnames : (reply tag response).Names id job) : M id job := by
  unfold reply at hnames
  split at hnames
  · exact hnames.elim
  · exact h id hnames.1 job hnames.2

section

variable (h : n.Inv M)

include h

lemma Inv.setPeer {host : String} {f : Peer → Peer}
    (hf : ∀ p : Peer, Scoped M p.jobSetId (p.ran.getD []) →
      Scoped M (f p).jobSetId ((f p).ran.getD [])) :
    (n.setPeer host f).Inv M := by
  refine { h with peers := fun host' p hp => ?_ }
  simp only [Node.setPeer, Dict.get?_set] at hp
  split at hp
  case isTrue =>
    cases hp
    refine hf _ ?_
    cases hold : n.peers.get? host with
    | none => simp [Scoped]
    | some p => exact h.peers host p hold
  case isFalse => exact h.peers host' p hp

lemma Inv.succeed {o : Observation} (ho : Scoped M o.jobSetId o.ran) :
    (n.succeed env q o).Inv M := by
  refine h.setPeer fun p _ => ?_
  obtain ⟨hid, hran⟩ :=
    Peer.recordSuccess_eq env.driftAfter n.name n.instanceId q.myId o p
  rw [hid, hran]
  exact ho

lemma Inv.failPoll (q : Poll) (untrusted : Bool) : (n.failPoll q untrusted).Inv M :=
  h.setPeer fun _ _ => nofun

lemma Inv.setPolls {polls : List Poll}
    (hpolls : ∀ q ∈ polls, ∀ tag o, q.sent = some (some (tag, o)) → Scoped M o.jobSetId o.ran) :
    ({ n with polls } : Node).Inv M :=
  { h with polls := hpolls }

lemma Inv.setObserved {observed : Dict String (String × Observation)}
    (hobserved : ∀ host tag o, observed.get? host = some (tag, o) → Scoped M o.jobSetId o.ran) :
    ({ n with observed } : Node).Inv M :=
  { h with observed := hobserved }

lemma Inv.erase (host host' : String) (tag : String) (o : Observation)
    (ho : (n.observed.erase host).get? host' = some (tag, o)) : Scoped M o.jobSetId o.ran :=
  h.observed host' tag o (Dict.of_get?_erase ho).2

/-- A response is recorded, whatever it is. -/
theorem Inv.receive {cached : Option (String × Observation)}
    (hcached : ∀ tag o, cached = some (tag, o) → Scoped M o.jobSetId o.ran) {m : Message}
    (hm : ∀ id job, m.Names id job → M id job) {n' : Node}
    (hstep : n.receive env q cached m = some n') : n'.Inv M := by
  unfold Node.receive at hstep
  split at hstep
  case h_1 =>
    split at hstep
    · cases hstep
      exact h.failPoll q false
    · cases hstep
      exact h.succeed (hcached _ _ rfl)
  case h_2 etag b =>
    split at hstep
    · cases hstep
      exact h.failPoll q false
    case h_2 o hobserve =>
      cases hstep
      have ho : Scoped M o.jobSetId o.ran :=
        scoped_of_observe hobserve fun id hid job hjob => hm id job ⟨hid, hjob⟩
      have hn : (n.succeed env q o).Inv M := h.succeed ho
      refine hn.setObserved fun host tag o' ho' => ?_
      split at ho'
      · rcases Dict.get?_set_cases ho' with ⟨-, heq⟩ | ⟨-, hold⟩
        · obtain ⟨-, rfl⟩ := Prod.mk.inj heq
          exact ho
        · exact hn.observed host tag o' hold
      · exact hn.erase q.host host tag o' ho'
  case h_3 => cases hstep

/-- A push is taken in only under the live id. -/
theorem Inv.pushed {jobSetId : String} (hnames : ∀ job ∈ names, M jobSetId job) :
    (n.pushed env jobSetId names).Inv M := by
  unfold Node.pushed
  split
  case isFalse => exact h
  case isTrue hid =>
    subst hid
    have hn := h.reconcile
    have hunion : ∀ job ∈ n.reconcile.ran ∪ env.parseRan names, M n.live job := by
      intro job hjob
      rcases mem_union_iff.mp hjob with hjob | hjob
      · obtain ⟨id, hid, hmark⟩ := hn.ran job hjob
        cases hid
        exact hmark
      · exact hnames job (mem_of_parseRan hjob)
    refine { hn with ran := fun job hjob => ⟨n.live, rfl, hunion job ?_⟩ }
    dsimp only at hjob
    split at hjob
    · exact mem_sorted.mp (mem_of_mem_take hjob)
    · exact hjob

end

end Node

namespace State

variable {s t : State}

lemma Inv.setNode (h : s.Inv M) {n : Node} (hn : n.Inv M) : (s.setNode p n).Inv M where
  nodes := (Function.forall_update_iff s.nodes fun _ n => n.Inv M).mpr ⟨hn, fun p' _ => h.nodes p'⟩
  net := h.net

lemma Inv.send (h : s.Inv M) {m : Message} (hm : ∀ id job, m.Names id job → M id job) :
    (s.send m).Inv M :=
  { h with net := Log.forall_append h.net hm }

lemma Inv.mark (h : s.Inv M) (hmark : M (s.nodes p).live job) : (s.mark p job).Inv M := by
  have hn := (h.nodes p).reconcile
  have hadded : ({ (s.nodes p).reconcile with
      ran := (s.nodes p).reconcile.ran.insert job } : Node).Inv M := by
    refine { hn with ran := fun job' hjob' => ?_ }
    rcases mem_insert_iff.mp hjob' with rfl | hold
    · exact ⟨_, rfl, hmark⟩
    · exact hn.ran job' hold
  unfold State.mark
  dsimp only
  split
  · exact h.setNode hadded
  · refine (h.setNode hadded).send ?_
    rintro id job' ⟨rfl, hjob'⟩
    exact hadded.advertised hjob'

/-- A poll is over. -/
theorem Inv.settle (h : s.Inv M) {k : ℕ} {n : Node} (hn : n.Inv M)
    (hq : ∀ tag o, q.sent = some (some (tag, o)) → Scoped M o.jobSetId o.ran) :
    (s.settle p k q n).Inv M :=
  h.setNode (hn.setPolls (Log.forall_set hn.polls k hq))

/-- **One step.** Only `mark_reboot_ran` says something new. -/
theorem Inv.step (h : s.Inv M) {e : Event} (hstep : s.step env e = some t)
    (hmark : ∀ p job, e = .mark p job → M (s.nodes p).live job) : t.Inv M := by
  cases e with simp only [State.step] at hstep
  | reload p jobSetId =>
    cases hstep
    have hn := h.nodes p
    exact h.setNode { hn with }
  | restart p instanceId =>
    cases hstep
    exact h.setNode (Node.inv_fresh ..)
  | mark p job =>
    cases hstep
    exact h.mark (hmark p job rfl)
  | round p =>
    obtain ⟨-, hstep⟩ := ite_none_right_eq_some.mp hstep
    cases hstep
    refine h.setNode ((h.nodes p).reconcile.setPolls fun q hq tag o ho => ?_)
    obtain ⟨host, -, rfl⟩ := mem_map.mp hq
    cases ho
  | request p k =>
    split at hstep
    case h_2 => cases hstep
    case h_1 q hq =>
      obtain ⟨-, hstep⟩ := ite_none_right_eq_some.mp hstep
      cases hstep
      refine h.setNode ((h.nodes p).setPolls (Log.forall_set (h.nodes p).polls k ?_))
      exact fun tag o ho => (h.nodes p).observed q.host tag o (Option.some.inj ho)
  | receive p k m =>
    obtain ⟨q, hq, hstep⟩ := bind_eq_some_iff.mp hstep
    obtain ⟨cached, hcached, hstep⟩ := bind_eq_some_iff.mp hstep
    obtain ⟨message, hmessage, hstep⟩ := bind_eq_some_iff.mp hstep
    obtain ⟨-, hstep⟩ := ite_none_left_eq_some.mp hstep
    obtain ⟨n, hn, rfl⟩ := map_eq_some_iff.mp hstep
    have hsent := (h.nodes p).polls q (mem_of_getElem? hq)
    have hcached' : ∀ tag o, cached = some (tag, o) → Scoped M o.jobSetId o.ran :=
      fun tag o ho => hsent tag o (ho ▸ hcached)
    refine h.settle ((h.nodes p).receive hcached' ?_ hn) hsent
    exact h.net message (mem_of_getElem? hmessage)
  | fault p k fault =>
    split at hstep
    case h_2 => cases hstep
    case h_1 q hq =>
      obtain ⟨-, hstep⟩ := ite_none_left_eq_some.mp hstep
      cases hstep
      have hn := (h.nodes p).failPoll q (fault = .untrusted)
      refine h.settle (hn.setObserved fun host tag o ho => ?_)
        ((h.nodes p).polls q (mem_of_getElem? hq))
      split at ho
      · exact hn.erase q.host host tag o ho
      · exact hn.observed host tag o ho
  | serve p tag fresh rest =>
    cases hstep
    have hn := h.nodes p
    have hbody : Scoped M ((s.nodes p).respond env fresh rest).2.jobSetId
        ((s.nodes p).respond env fresh rest).2.ranRebootJobs := hn.respond fresh rest
    refine (h.setNode ?_).send fun id job => Node.names_reply hbody
    refine { hn with served := fun key etag b hserved => ?_ }
    obtain ⟨-, hresponse⟩ := Prod.mk.inj (Option.some.inj hserved)
    rw [hresponse] at hbody
    exact hbody
  | pushed p m =>
    split at hstep
    case h_2 => cases hstep
    case h_1 jobSetId names hm =>
      cases hstep
      refine h.setNode ((h.nodes p).pushed fun job hjob => ?_)
      exact h.net _ (mem_of_getElem? hm) jobSetId job ⟨rfl, hjob⟩

/-! ## Every run -/

/-- Nodes that have just started, and nothing was sent. -/
structure Starts (s : State) : Prop where
  nodes : ∀ p, ∃ name instanceId hosts live, s.nodes p = .fresh name instanceId hosts live
  net : s.net = []

/-- In the course of a run, some node was asked to mark the job while the id was live on it. -/
def Called (env : Env) (s : State) (events : List Event) (jobSetId job : String) : Prop :=
  ∃ before p rest t, events = before ++ .mark p job :: rest ∧
    Trace.Run (fun s e t => s.step env e = some t) s before t ∧ (t.nodes p).live = jobSetId

/-- **Marks stay in their job set.** In every run, what `reboot_ran` answers, and what a body or a
push says, goes back to a call of `mark_reboot_ran` on a node on which the id was live. -/
theorem marks_scoped {s t : State} {events : List Event} (hs : s.Starts)
    (hrun : Trace.Run (fun s e t => s.step env e = some t) s events t) :
    (∀ p job, (t.nodes p).rebootRan job → Called env s events (t.nodes p).live job) ∧
      ∀ m ∈ t.net, ∀ id job, m.Names id job → Called env s events id job := by
  suffices hinv : Trace.Run (fun s e t => s.step env e = some t) s events t ∧
      t.Inv (Called env s events) from
    ⟨fun p job hran => (hinv.2.nodes p).rebootRan hran, hinv.2.net⟩
  refine Trace.Run.history (P := fun u done =>
    Trace.Run (fun s e t => s.step env e = some t) s done u ∧ u.Inv (Called env s done)) hrun
      ⟨.nil s, fun p => ?_, by simp [hs.net]⟩ ?_
  · obtain ⟨name, instanceId, hosts, live, hn⟩ := hs.nodes p
    rw [hn]
    exact Node.inv_fresh ..
  · rintro s' done e t' - ⟨hrun', hinv'⟩ hstep
    refine ⟨hrun'.snoc hstep, ?_⟩
    -- what was called before is called still, and a mark is called now
    have hcalled : ∀ id job, Called env s done id job → Called env s (done ++ [e]) id job := by
      rintro id job ⟨before, p, rest, u, rfl, hbefore, hlive⟩
      exact ⟨before, p, rest ++ [e], u, by simp, hbefore, hlive⟩
    have hold : s'.Inv (Called env s (done ++ [e])) :=
      ⟨fun p => (hinv'.nodes p).mono hcalled,
        fun m hm id job hnames => hcalled id job (hinv'.net m hm id job hnames)⟩
    refine hold.step hstep fun p job he => ?_
    exact ⟨done, p, [], s', by rw [he], hrun', rfl⟩

/-- Two nodes that poll each other. -/
private def pair : State where
  nodes p := if p = 0 then .fresh "a" "1" ["b"] "old" else .fresh "b" "2" ["a"] "old"

private def plain : Env := { printable := fun _ => true, etag := fun _ => "tag", driftAfter := 3 }

/-- The first node marks a job and serves a body. The second one polls it, is reloaded and back, and
polls again: the answer is a 304. -/
private def replayed : List Event :=
  [.mark 0 "job", .serve 0 none true "", .round 1, .request 1 0, .receive 1 0 1, .reload 1 "new",
    .reload 1 "old", .serve 0 (some "tag") true "", .round 1, .request 1 0, .receive 1 0 2]

theorem marks_scoped_replayed : ∃ t,
    Trace.Run (fun s e t => s.step plain e = some t) pair replayed t ∧
      (t.nodes 1).rebootRan "job" ∧ (t.nodes 1).ran = [] ∧
      Called plain pair replayed (t.nodes 1).live "job" := by
  have hfold : ((replayed.foldlM (step plain) pair).map fun t =>
      ((t.nodes 1).rebootRan "job", (t.nodes 1).ran)) = some (true, []) := by
    decide +kernel
  obtain ⟨t, ht, hsummary⟩ := map_eq_some_iff.mp hfold
  obtain ⟨hran, hown⟩ := Prod.mk.inj hsummary
  have hstarts : pair.Starts := by
    refine ⟨fun p => ?_, rfl⟩
    by_cases hp : p = 0
    · exact ⟨"a", "1", ["b"], "old", if_pos hp⟩
    · exact ⟨"b", "2", ["a"], "old", if_neg hp⟩
  have hrun := Trace.Run.of_foldlM ht
  exact ⟨t, hrun, hran, hown, (marks_scoped hstarts hrun).1 1 "job" hran⟩

end State

end Provenance

end Cronstable.Cluster.RebootGossip
