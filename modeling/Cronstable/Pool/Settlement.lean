import Cronstable.Lib.Log
import Cronstable.Lib.Trace
import Cronstable.Pool.Moves
import Mathlib.Tactic.Linarith

/-!
# Retry settlements

When a run succeeds or its ladder is cancelled, `settle_retries` cancels the retries that wait in
the pools. A node remembers a settlement per pool and scope until a flush has carried it out. A
flush submits the settlements it finds one after another and waits for each; a submitted mutation
may be given up by its flush and still land later, or run without landing.

`Sys` is one pool with the memory of every node: the stored document, the settlement objects in the
order they were made, which object each node remembers for a scope, the mutations submitted so far
and the flushes. `Sys.step` takes one event and tells what can be observed of it.

`Sys.effect_of_step` says what a step can do to the document and the settlements, and the lemmas
after it what follows for the generation of a scope, for an entry and for a settlement. `Timely`
and `Keeps` name the steps that lose no cancellation.
-/

namespace Cronstable.Pool

open List

/-! ## The system -/

/-- A settlement in the memory of a node. -/
structure Object where
  node : String
  scope : Scope
  settlement : Settlement
  /-- The generation that was stored when the settlement was made; the program does not keep
  it. -/
  born : String
  deriving DecidableEq

/-- A submitted settlement transform. -/
structure Mutation where
  object : ℕ
  conf : Option PoolConf
  now : Time
  landed : Bool
  deriving DecidableEq

/-- One call of `_flush_retry_settlements`. -/
structure Flush where
  node : String
  /-- The settlements still to be submitted. -/
  todo : List ℕ
  /-- The mutation waited for. -/
  waiting : Option ℕ
  /-- Whether the call is over, and then whether it returned without raising. -/
  outcome : Option Bool
  deriving DecidableEq

/-- One pool and what the nodes remember about it. -/
structure Sys where
  doc : Option PoolBody
  objects : List Object
  /-- `_retry_settlements`, of every node. -/
  pending : Dict (String × Scope) ℕ
  mutations : List Mutation
  flushes : List Flush
  deriving DecidableEq

namespace Sys

/-- Nothing is stored and nothing is under way. -/
def init : Sys := ⟨none, [], .empty, [], []⟩

/-- The stored entry at a key. -/
def entry (s : Sys) (key : String) : Option Entry := s.doc.bind (·.entries.get? key)

/-- The stored generation of a scope. -/
def generation (s : Sys) (scope : Scope) : String := (s.doc.map (·.generation scope)).getD ""

/-- `setdefault` with a new settlement. -/
def setdefault (node reason : String) (s : Sys) (target : Scope × String) : Sys :=
  match s.pending.get? (node, target.1) with
  | some _ => s
  | none =>
    { s with
      objects := s.objects ++
        [⟨node, target.1, { generation := target.2, reason }, s.generation target.1⟩]
      pending := s.pending.set (node, target.1) s.objects.length }

/-- The settlements a node remembers. -/
def remembered (node : String) (s : Sys) : List ℕ :=
  s.pending.items.filterMap fun p => if p.1.1 = node then some p.2 else none

/-- A flush starts with the settlements the node remembers. -/
def startFlush (node : String) (s : Sys) : Sys :=
  { s with flushes := s.flushes ++ [⟨node, s.remembered node, none, none⟩] }

@[simp]
lemma startFlush_doc (node : String) (s : Sys) : (s.startFlush node).doc = s.doc := rfl

@[simp]
lemma startFlush_objects (node : String) (s : Sys) :
    (s.startFlush node).objects = s.objects := rfl

@[simp]
lemma startFlush_mutations (node : String) (s : Sys) :
    (s.startFlush node).mutations = s.mutations := rfl

end Sys

/-- What happens in the system. -/
inductive Event
  /-- `settle_retries` reaches the pool: each scope with a new generation. -/
  | settle (node reason : String) (targets : List (Scope × String))
  /-- Another call starts a flush. -/
  | flush (node : String)
  /-- A flush submits its next settlement. -/
  | submit (flush : ℕ) (conf : Option PoolConf) (now : Time)
  /-- The transform of a mutation runs, and its document is not stored. -/
  | attempt (mutation : ℕ)
  | land (mutation : ℕ)
  /-- A flush hears that its mutation landed. -/
  | answer (flush : ℕ)
  /-- A flush gives up: its mutation raised or timed out. -/
  | fail (flush : ℕ)
  /-- A flush has carried out everything it found. -/
  | finish (flush : ℕ)
  /-- Any other transform lands. -/
  | request (r : Request)

/-- What can be observed of a step. -/
inductive Obs
  /-- A new entry was written at the key. -/
  | created (key : String)
  | claimed (key : String)
  /-- The settlement took effect. -/
  | settled (object : ℕ)
  deriving DecidableEq

/-- What the reply to a request shows. -/
def observe : Op → Reply → List Obs
  | .enqueue _ _ key _ _ _, .added _ => [.created key]
  | .claim _ _ key, .claimed _ => [.claimed key]
  | _, _ => []

namespace Sys

/-- Run the transform of a mutation on the stored document. -/
def runSettle (s : Sys) (m : Mutation) (object : Object) : PoolBody × Settlement :=
  settle object.scope object.settlement (prepare m.conf false m.now s.doc) m.now

/-- Keep what a transform recorded in its settlement. -/
def record (s : Sys) (o : ℕ) (object : Object) (settlement : Settlement) : Sys :=
  { s with objects := s.objects.set o { object with settlement } }

/-- One step of the system. -/
def step (pool : String) (s : Sys) : Event → Option (Sys × List Obs)
  | .settle node reason targets =>
    let generations := targets.map Prod.snd
    -- generations are random and never drawn twice
    if generations.Nodup ∧ ∀ g ∈ generations,
        g ≠ "" ∧ g ∉ s.objects.map (·.settlement.generation) then
      some ((targets.foldl (setdefault node reason) s).startFlush node, [])
    else none
  | .flush node => some (s.startFlush node, [])
  | .submit f conf now =>
    match s.flushes[f]? with
    | some ⟨node, o :: todo, none, none⟩ =>
      some ({ s with
        mutations := s.mutations ++ [⟨o, conf, now, false⟩]
        flushes := s.flushes.set f ⟨node, todo, some s.mutations.length, none⟩ }, [])
    | _ => none
  | .attempt m =>
    match s.mutations[m]? with
    | some mutation =>
      match mutation.landed, s.objects[mutation.object]? with
      | false, some object =>
        some (s.record mutation.object object (s.runSettle mutation object).2, [])
      | _, _ => none
    | none => none
  | .land m =>
    match s.mutations[m]? with
    | some mutation =>
      match mutation.landed, s.objects[mutation.object]? with
      | false, some object =>
        let result := s.runSettle mutation object
        let effective := result.2.previous = some (s.generation object.scope)
        some ({ s.record mutation.object object result.2 with
          doc := some result.1
          mutations := s.mutations.set m { mutation with landed := true } },
          if effective then [.settled mutation.object] else [])
      | _, _ => none
    | none => none
  | .answer f =>
    match s.flushes[f]? with
    | some ⟨node, todo, some m, none⟩ =>
      match s.mutations[m]? with
      | some ⟨o, _, _, true⟩ =>
        let s' := { s with flushes := s.flushes.set f ⟨node, todo, none, none⟩ }
        -- the settlement is forgotten unless another one took its place
        match s.objects[o]? with
        | some object =>
          if s.pending.get? (node, object.scope) = some o then
            some ({ s' with pending := s.pending.erase (node, object.scope) }, [])
          else some (s', [])
        | none => none
      | _ => none
    | _ => none
  | .fail f =>
    match s.flushes[f]? with
    | some ⟨node, todo, waiting, none⟩ =>
      some ({ s with flushes := s.flushes.set f ⟨node, todo, waiting, some false⟩ }, [])
    | _ => none
  | .finish f =>
    match s.flushes[f]? with
    | some ⟨node, [], none, none⟩ =>
      some ({ s with flushes := s.flushes.set f ⟨node, [], none, some true⟩ }, [])
    | _ => none
  | .request r =>
    match r.op with
    | .settle _ _ => none
    | op =>
      match change pool r.conf r.now op s.doc with
      | .ok (body, reply) => some ({ s with doc := some body }, observe op reply)
      | .error _ => some (s, [])

end Sys

/-- Take events one after another and collect what is observed. -/
def Sys.exec (pool : String) (s : Sys) : List Event → Option (Sys × List Obs)
  | [] => some (s, [])
  | event :: events => do
    let (s', seen) ← s.step pool event
    let (s'', seen') ← s'.exec pool events
    some (s'', seen ++ seen')

/-! ## Timely steps -/

/-- A retry whose ladder was cancelled. -/
def Entry.Revoked (e : Entry) : Prop :=
  e.payload.retryCancelled = true ∧ ∃ retry ∈ e.payload.retry, 0 < retry.count

/-- The lease of the entry has run out. -/
def Entry.Lapsed (now : Time) (e : Entry) : Prop :=
  e.state = .running ∧ ∃ deadline ∈ e.leaseUntil, deadline ≤ now

/-- The retry at the key, once revoked, does not go back to the queue: its lease has not lapsed, and
it is not handed back. -/
def Sys.Calm (key : String) (s : Sys) (now : Time) (op : Op) : Prop :=
  ∀ e, s.entry key = some e → e.Revoked →
    ¬ e.Lapsed now ∧ ∀ owner reason, op ≠ .finish key owner .queued reason

/-- A transform that has recorded no generation yet finds the one its settlement was made under. -/
def Sys.Punctual (s : Sys) (object : Object) : Prop :=
  object.settlement.previous = none → s.generation object.scope = object.born

/-- The steps that lose and repeat no cancellation: a call finds no settlement of its scopes left
over on its node, and the transforms are punctual. -/
def Sys.Timely (s : Sys) : Event → Prop
  | .settle node _ targets => ∀ target ∈ targets, s.pending.get? (node, target.1) = none
  | .attempt m | .land m => ∀ mutation ∈ s.mutations[m]?,
      ∀ object ∈ s.objects[mutation.object]?, s.Punctual object
  | _ => True

/-- The steps that do not put the retry at the key back into the queue once it was revoked. -/
def Sys.Keeps (key : String) (s : Sys) : Event → Prop
  | .land m => ∀ mutation ∈ s.mutations[m]?, ∀ object ∈ s.objects[mutation.object]?,
      s.Calm key mutation.now (.settle object.scope object.settlement)
  | .request r => s.Calm key r.now r.op
  | _ => True

/-- A step, labelled with its event and what is observed. -/
def Step (pool : String) (s : Sys) (label : Event × List Obs) (s' : Sys) : Prop :=
  s.step pool label.1 = some (s', label.2)

/-- A timely step. -/
def TimelyStep (pool : String) (s : Sys) (label : Event × List Obs) (s' : Sys) : Prop :=
  Step pool s label s' ∧ s.Timely label.1

/-- A timely step that keeps the retry at the key out of the queue. -/
def KeepingStep (pool key : String) (s : Sys) (label : Event × List Obs) (s' : Sys) : Prop :=
  TimelyStep pool s label s' ∧ s.Keeps key label.1

/-! ## Moves of a retry -/

variable {key : String} {e' e : Entry} {now : Time} {op : Op}

/-- What identifies a retry stays along a move, and its cancellation too. -/
theorem Move.identity (h : Move now op key e e') :
    e'.scope = e.scope ∧ e'.payload.retry = e.payload.retry ∧
      (e.payload.retryCancelled = true → e'.payload.retryCancelled = true) := by
  cases h with
  | settle scope reason =>
    unfold settleEntry
    split
    next => exact ⟨rfl, rfl, id⟩
    next =>
      split
      next => exact ⟨rfl, rfl, id⟩
      next =>
        simp only
        split <;> exact ⟨rfl, rfl, fun _ => rfl⟩
  | _ => exact ⟨rfl, rfl, id⟩

/-- So it does along a chain of moves. -/
lemma Moves.identity (h : Moves now op key e e') :
    e'.scope = e.scope ∧ e'.payload.retry = e.payload.retry ∧
      (e.payload.retryCancelled = true → e'.payload.retryCancelled = true) := by
  induction h with
  | refl => exact ⟨rfl, rfl, id⟩
  | tail _ hmove ih =>
    obtain ⟨hscope, hretry, hcancelled⟩ := hmove.identity
    exact ⟨hscope.trans ih.1, hretry.trans ih.2.1, fun hc => hcancelled (ih.2.2 hc)⟩

/-- A revoked retry stays revoked. -/
lemma Entry.Revoked.moves (h : e.Revoked) (hmoves : Moves now op key e e') : e'.Revoked := by
  obtain ⟨-, hretry, hcancelled⟩ := hmoves.identity
  exact ⟨hcancelled h.1, by rw [hretry]; exact h.2⟩

/-- A settlement does not queue an entry. -/
theorem settleEntry_state (scope : Scope) (reason : String) (now : Time) (h : e.state ≠ .queued) :
    (settleEntry scope reason now e).state = e.state ∧
      (settleEntry scope reason now e).leaseUntil = e.leaseUntil := by
  unfold settleEntry
  split
  next => exact ⟨rfl, rfl⟩
  next =>
    split
    next => exact ⟨rfl, rfl⟩
    next =>
      rw [if_neg fun hq => h hq.1]
      exact ⟨rfl, rfl⟩

/-- A revoked retry that does not wait, and whose lease holds, does not come to wait. -/
theorem Move.not_queued (h : Move now op key e e') (hwait : e.state ≠ .queued)
    (hlease : ¬ e.Lapsed now) (hop : ∀ owner reason, op ≠ .finish key owner .queued reason) :
    e'.state ≠ .queued ∧ ¬ e'.Lapsed now := by
  cases h with
  | lapse hrun hlapsed => exact absurd ⟨hrun, hlapsed⟩ hlease
  | expire hqueued | cancel _ hqueued | claim _ hqueued => exact absurd hqueued hwait
  | @close owner closing reason hfinish howner =>
    cases closing with
    | queued => exact absurd hfinish (hop owner reason)
    | finished | cancelled => exact ⟨nofun, fun hl => by cases hl.1⟩
  | renew hrun =>
    refine ⟨hwait, ?_⟩
    rintro ⟨-, deadline, hdeadline, hle⟩
    cases hdeadline
    have : (0 : Time) < leaseSeconds := by decide +kernel
    exact absurd hle (not_le.mpr (by linarith))
  | settle scope reason =>
    obtain ⟨hstate, hlease'⟩ := settleEntry_state scope reason now hwait
    refine ⟨by rw [hstate]; exact hwait, ?_⟩
    rintro ⟨hrun, hlapsed⟩
    rw [hstate] at hrun
    rw [hlease'] at hlapsed
    exact hlease ⟨hrun, hlapsed⟩
  | observe => exact ⟨hwait, hlease⟩

/-- The same along a chain of moves. -/
lemma Moves.not_queued (h : Moves now op key e e') (hwait : e.state ≠ .queued)
    (hlease : ¬ e.Lapsed now) (hop : ∀ owner reason, op ≠ .finish key owner .queued reason) :
    e'.state ≠ .queued := by
  have hboth : e'.state ≠ .queued ∧ ¬ e'.Lapsed now := by
    induction h with
    | refl => exact ⟨hwait, hlease⟩
    | tail _ hmove ih => exact hmove.not_queued ih.1 ih.2 hop
  exact hboth.1

/-- A settlement of its own scope revokes a retry and takes it out of the queue. -/
theorem settleEntry_revokes (reason : String) (now : Time)
    (h : ∃ retry ∈ e.payload.retry, 0 < retry.count) :
    (settleEntry e.scope reason now e).Revoked ∧
      (settleEntry e.scope reason now e).state ≠ .queued := by
  obtain ⟨retry, hretry, hcount⟩ := h
  unfold settleEntry
  rw [hretry]
  simp only [ne_eq, not_true_eq_false, if_false]
  split
  next => exact ⟨⟨rfl, retry, hretry, hcount⟩, nofun⟩
  next hstay => exact ⟨⟨rfl, retry, hretry, hcount⟩, fun hqueued => hstay ⟨hqueued, hcount⟩⟩

/-! ## What a step can do -/

variable {s s' : Sys} {label : Event × List Obs} {o : ℕ}

namespace Sys

/-- Maintenance keeps the generations. -/
lemma generation_prepare (s : Sys) (conf : Option PoolConf) (strict : Bool) (now : Time)
    (scope : Scope) : (prepare conf strict now s.doc).generation scope = s.generation scope := by
  unfold PoolBody.generation
  rw [(prepare_entries conf strict now s.doc).2]
  unfold generation
  cases s.doc <;> rfl

/-- Where an entry of the document an action works on comes from. -/
theorem entry_of_prepare {conf : Option PoolConf} {strict : Bool} (op : Op)
    (h : (prepare conf strict now s.doc).entries.get? key = some e') :
    ∃ e, s.entry key = some e ∧ Moves now op key e e' :=
  moves_prepare op h

/-- What a run of a settlement transform leaves: the first run records the generation it finds, and
the document changes only under the recorded generation. -/
theorem runSettle_cases (s : Sys) (m : Mutation) (object : Object) :
    (s.runSettle m object).2 = { object.settlement with
        previous := some (object.settlement.previous.getD (s.generation object.scope)) } ∧
      ((object.settlement.previous.getD (s.generation object.scope) =
            s.generation object.scope ∧
          (s.runSettle m object).1 = { prepare m.conf false m.now s.doc with
            retryGenerations := (prepare m.conf false m.now s.doc).retryGenerations.set
              object.scope object.settlement.generation
            entries := (prepare m.conf false m.now s.doc).entries.mapVal fun _ e =>
              settleEntry object.scope object.settlement.reason m.now e }) ∨
        (object.settlement.previous.getD (s.generation object.scope) ≠
            s.generation object.scope ∧
          (s.runSettle m object).1 = prepare m.conf false m.now s.doc)) := by
  unfold runSettle settle
  simp only [generation_prepare, ne_eq, Option.some.injEq, ite_not]
  split
  next heq => exact ⟨rfl, .inl ⟨heq, rfl⟩⟩
  next hne => exact ⟨rfl, .inr ⟨hne, rfl⟩⟩

/-- What the loop of `settle_retries` over the scopes has done since `s`, having drawn
`generations`. -/
structure Extended (s : Sys) (node : String) (generations : List String) (s' : Sys) : Prop where
  doc : s'.doc = s.doc
  mutations : s'.mutations = s.mutations
  flushes : s'.flushes = s.flushes
  objects : ∃ new, s'.objects = s.objects ++ new ∧
    (∀ object ∈ new, object.settlement.previous = none ∧
      object.born = s.generation object.scope) ∧
    (new.map (·.settlement.generation)).Sublist generations
  /-- What the node remembers is an earlier settlement or one of the new ones. -/
  pending : ∀ scope o, s'.pending.get? (node, scope) = some o →
    s.pending.get? (node, scope) = some o ∨
      s.objects.length ≤ o ∧ ∃ object, s'.objects[o]? = some object ∧ object.scope = scope

/-- One round of the loop. -/
lemma Extended.setdefault {node : String} {generations : List String}
    (h : s.Extended node generations s') (reason : String) (target : Scope × String) :
    s.Extended node (generations ++ [target.2]) (s'.setdefault node reason target) := by
  obtain ⟨new, hobjects, hnew, hsub⟩ := h.objects
  unfold Sys.setdefault
  split
  next =>
    exact { h with objects := ⟨new, hobjects, hnew, hsub.trans (sublist_append_left _ _)⟩ }
  next =>
    refine { h with objects := ?_, pending := ?_ }
    · refine ⟨new ++ [⟨node, target.1, { generation := target.2, reason },
        s'.generation target.1⟩], by simp [hobjects], Log.forall_append hnew ⟨rfl, ?_⟩, ?_⟩
      · unfold Sys.generation
        rw [h.doc]
      · rw [map_append]
        exact hsub.append (List.Sublist.refl _)
    · intro scope o hget
      simp only [Dict.get?_set] at hget
      split at hget
      next heq =>
        cases heq
        cases hget
        refine .inr ⟨by simp [hobjects], _, List.getElem?_concat_length, rfl⟩
      next =>
        rcases h.pending scope o hget with hold | ⟨hle, object, hobject, hscope⟩
        · exact .inl hold
        · exact .inr ⟨hle, object, Log.append_some hobject _, hscope⟩

/-- The rest of the loop. -/
lemma Extended.foldl {node : String} {generations : List String}
    (h : s.Extended node generations s') (reason : String) (targets : List (Scope × String)) :
    s.Extended node (generations ++ targets.map Prod.snd)
      (targets.foldl (Sys.setdefault node reason) s') := by
  induction targets generalizing s' generations with
  | nil => simpa using h
  | cons target targets ih => simpa using ih (h.setdefault reason target)

/-- The loop over the scopes, from its start. -/
theorem extended_settle (s : Sys) (node reason : String) (targets : List (Scope × String)) :
    s.Extended node (targets.map Prod.snd) (targets.foldl (Sys.setdefault node reason) s) := by
  have hstart : s.Extended node [] s :=
    ⟨rfl, rfl, rfl, ⟨[], by simp⟩, fun _ _ hget => .inl hget⟩
  exact hstart.foldl reason targets

/-- After a round the node remembers a settlement of its scope. -/
lemma contains_setdefault (node reason : String) (s : Sys) (target : Scope × String) :
    (s.setdefault node reason target).pending.contains (node, target.1) = true ∧
      ∀ key, s.pending.contains key = true →
        (s.setdefault node reason target).pending.contains key = true := by
  unfold setdefault
  split
  next o hget => exact ⟨Dict.contains_iff.mpr ⟨o, hget⟩, fun _ h => h⟩
  next => exact ⟨by simp [Dict.contains_set], fun key h => by simp [Dict.contains_set, h]⟩

/-- After the loop the node remembers a settlement of every scope it was called for. -/
theorem contains_settle (node reason : String) (s : Sys) {targets : List (Scope × String)}
    {target : Scope × String} (h : target ∈ targets) :
    (targets.foldl (setdefault node reason) s).pending.contains (node, target.1) = true := by
  have hkeep : ∀ (l : List (Scope × String)) (s : Sys) key, s.pending.contains key = true →
      (l.foldl (setdefault node reason) s).pending.contains key = true := by
    intro l
    induction l with
    | nil => exact fun _ _ hkey => hkey
    | cons a l ih =>
      exact fun s key hkey => ih _ key ((contains_setdefault node reason s a).2 key hkey)
  induction targets generalizing s with
  | nil => cases h
  | cons a targets ih =>
    rcases mem_cons.mp h with rfl | h
    · exact hkeep targets _ _ (contains_setdefault node reason s target).1
    · exact ih _ h

/-- The ways in which a step changes the document or the settlements. -/
inductive Effect (s : Sys) : Event × List Obs → Sys → Prop
  /-- A call of `settle_retries`, which starts a flush. -/
  | call {node reason : String} {targets : List (Scope × String)} {s' : Sys}
      (hnodup : (targets.map Prod.snd).Nodup)
      (hfresh : ∀ g ∈ targets.map Prod.snd, g ≠ "" ∧ g ∉ s.objects.map (·.settlement.generation))
      (hextended : s.Extended node (targets.map Prod.snd) s') :
      Effect s (.settle node reason targets, []) (s'.startFlush node)
  | attempt {m : ℕ} {mutation : Mutation} {object : Object}
      (hmutation : s.mutations[m]? = some mutation)
      (hobject : s.objects[mutation.object]? = some object) :
      Effect s (.attempt m, []) (s.record mutation.object object (s.runSettle mutation object).2)
  | land {m : ℕ} {mutation : Mutation} {object : Object} {obs : List Obs}
      (hmutation : s.mutations[m]? = some mutation)
      (hobject : s.objects[mutation.object]? = some object)
      (hobs : obs = if (s.runSettle mutation object).2.previous =
        some (s.generation object.scope) then [.settled mutation.object] else []) :
      Effect s (.land m, obs)
        { s.record mutation.object object (s.runSettle mutation object).2 with
          doc := some (s.runSettle mutation object).1
          mutations := s.mutations.set m { mutation with landed := true } }
  | request {r : Request} {body : PoolBody} {reply : Reply}
      (hop : ∀ scope settlement, r.op ≠ .settle scope settlement)
      (haction : r.op.action r.now (prepare r.conf r.op.strict r.now s.doc) = .ok (body, reply)) :
      Effect s (.request r, observe r.op reply) { s with doc := some body }
  /-- Bookkeeping of the flushes, and a request that raised. -/
  | quiet {event : Event} {s' : Sys} (hdoc : s'.doc = s.doc) (hobjects : s'.objects = s.objects) :
      Effect s (event, []) s'

/-- Every step is one of them. -/
lemma effect_of_step {pool : String} {event : Event} {obs : List Obs}
    (h : s.step pool event = some (s', obs)) : s.Effect (event, obs) s' := by
  cases event with simp only [step] at h
  | settle node reason targets =>
    obtain ⟨hfresh, ⟨⟩⟩ := Option.ite_none_right_eq_some.mp h
    exact .call hfresh.1 hfresh.2 (extended_settle s node reason targets)
  | flush node =>
    cases h
    exact .quiet rfl rfl
  | submit | fail | finish =>
    split at h
    · cases h
      exact .quiet rfl rfl
    · cases h
  | attempt m | land m =>
    split at h
    next mutation hmutation =>
      split at h
      next object hlanded hobject =>
        cases h
        first | exact .attempt hmutation hobject | exact .land hmutation hobject rfl
      next => cases h
    next => cases h
  | answer f =>
    repeat' split at h
    all_goals cases h
    all_goals exact .quiet rfl rfl
  | request r =>
    split at h
    next => cases h
    next op hop =>
      split at h
      next body reply hchange =>
        cases h
        unfold change at hchange
        split at hchange
        · cases hchange
        · exact .request hop hchange
      next =>
        cases h
        exact .quiet rfl rfl

/-- What becomes of a settlement: it is kept, or a run of its transform records a generation. -/
theorem Effect.object (h : s.Effect label s') {object : Object}
    (hobject : s.objects[o]? = some object) :
    s'.objects[o]? = some object ∨ ∃ m mutation, (label.1 = .attempt m ∨ label.1 = .land m) ∧
      s.mutations[m]? = some mutation ∧ mutation.object = o ∧
      s'.objects[o]? = some { object with settlement := { object.settlement with
        previous := some (object.settlement.previous.getD (s.generation object.scope)) } } := by
  cases h with
  | call _ _ hextended =>
    obtain ⟨new, hobjects, -⟩ := hextended.objects
    left
    rw [startFlush_objects, hobjects]
    exact Log.append_some hobject _
  | @attempt m mutation x hmutation hx | @land m mutation x _ hmutation hx =>
    rw [(s.runSettle_cases mutation x).1]
    rcases Log.set_at hx hobject _ with ⟨ho, rfl, hnew⟩ | hother
    · exact .inr ⟨m, mutation, by simp, hmutation, ho, hnew⟩
    · exact .inl hother
  | request => exact .inl hobject
  | quiet _ hobjects => exact .inl (by rw [hobjects]; exact hobject)

/-- A timely run of the transform records the generation its settlement was made under. -/
theorem Effect.recorded (h : s.Effect label s') (htimely : s.Timely label.1) {object : Object}
    (hobject : s.objects[o]? = some object)
    (hprevious : ∀ previous ∈ object.settlement.previous, previous = object.born) :
    ∃ object', s'.objects[o]? = some object' ∧ object'.scope = object.scope ∧
      object'.born = object.born ∧
      object'.settlement.generation = object.settlement.generation ∧
      ∀ previous ∈ object'.settlement.previous, previous = object'.born := by
  rcases h.object hobject with hsame | ⟨m, mutation, hlabel, hmutation, rfl, hrecord⟩
  · exact ⟨object, hsame, rfl, rfl, rfl, hprevious⟩
  · refine ⟨_, hrecord, rfl, rfl, rfl, ?_⟩
    rintro _ ⟨⟩
    have hpunctual : s.Punctual object := by
      rcases hlabel with hlabel | hlabel <;>
        · rw [hlabel] at htimely
          exact htimely mutation hmutation object hobject
    cases hfirst : object.settlement.previous with
    | none => exact hpunctual hfirst
    | some previous => exact hprevious previous hfirst

/-- Only a settlement that was made takes effect. -/
theorem Effect.settled_exists (h : s.Effect label s') (hobs : Obs.settled o ∈ label.2) :
    ∃ object, s.objects[o]? = some object := by
  cases h with
  | call | attempt | quiet => cases hobs
  | request =>
    simp only [observe] at hobs
    split at hobs <;> simp at hobs
  | @land m mutation object obs hmutation hobject heq =>
    rw [heq] at hobs
    split at hobs
    · cases mem_singleton.mp hobs
      exact ⟨object, hobject⟩
    · cases hobs

/-- What a settlement keeps for good. -/
def ident (object : Object) : Scope × String × String :=
  (object.scope, object.born, object.settlement.generation)

/-- A step keeps what identifies the settlements and adds new ones under fresh generations. -/
theorem Effect.objects (h : s.Effect label s') :
    ∃ old new, s'.objects = old ++ new ∧ old.map ident = s.objects.map ident ∧
      (∀ object ∈ new, object.settlement.previous = none ∧
        object.born = s.generation object.scope) ∧
      (new.map (·.settlement.generation)).Nodup ∧
      ∀ g ∈ new.map (·.settlement.generation),
        g ≠ "" ∧ g ∉ s.objects.map (·.settlement.generation) := by
  cases h with
  | call hnodup hfresh hextended =>
    obtain ⟨new, hobjects, hnew, hsub⟩ := hextended.objects
    exact ⟨s.objects, new, hobjects, rfl, hnew, hsub.nodup hnodup,
      fun g hg => hfresh g (hsub.subset hg)⟩
  | @attempt m mutation x _ hx | @land m mutation x _ _ hx =>
    refine ⟨_, [], (append_nil _).symm, ?_, by simp, by simp, by simp⟩
    have hsame : ident { x with settlement := (s.runSettle mutation x).2 } = ident x := by
      rw [(s.runSettle_cases mutation x).1]
      rfl
    obtain ⟨hbound, hget⟩ := List.getElem?_eq_some_iff.mp hx
    rw [record, map_set, hsame, ← hget]
    conv_lhs => rw [← getElem_map ident (h := by simpa using hbound)]
    exact set_getElem_self _
  | request => exact ⟨s.objects, [], (append_nil _).symm, rfl, by simp, by simp, by simp⟩
  | quiet _ hobjects =>
    exact ⟨s.objects, [], by simp [hobjects], rfl, by simp, by simp, by simp⟩

/-- A settlement that lands, by the generation it recorded or finds on its first run. -/
theorem land_cases {pool : String} {m : ℕ} {obs : List Obs}
    (h : s.step pool (.land m) = some (s', obs)) {mutation : Mutation}
    (hmutation : s.mutations[m]? = some mutation) :
    ∃ object, s.objects[mutation.object]? = some object ∧
      s'.doc = some (s.runSettle mutation object).1 ∧
      obs = if (s.runSettle mutation object).2.previous = some (s.generation object.scope) then
        [.settled mutation.object] else [] := by
  simp only [step, hmutation] at h
  split at h
  next object hlanded hobject =>
    cases h
    exact ⟨object, hobject, rfl, rfl⟩
  next => cases h

/-- The document after a settlement landed. -/
theorem entry_of_land {m : Mutation} {object : Object}
    (h : (s.runSettle m object).1.entries.get? key = some e') :
    ∃ e, s.entry key = some e ∧
      Moves m.now (.settle object.scope object.settlement) key e e' := by
  obtain ⟨e₁, hget, hmoves⟩ := (movedTo_settle object.scope object.settlement
    (prepare m.conf false m.now s.doc) m.now).entries key e' h
  obtain ⟨e, hentry, hmoves'⟩ := entry_of_prepare (.settle object.scope object.settlement) hget
  exact ⟨e, hentry, hmoves'.trans hmoves⟩

lemma entry_congr (h : s'.doc = s.doc) (key : String) : s'.entry key = s.entry key := by
  unfold entry
  rw [h]

lemma generation_congr (h : s'.doc = s.doc) (scope : Scope) :
    s'.generation scope = s.generation scope := by
  unfold generation
  rw [h]

/-- A request that is no settlement keeps the generations. -/
theorem generation_request {r : Request} {body : PoolBody} {reply : Reply}
    (hop : ∀ scope settlement, r.op ≠ .settle scope settlement)
    (haction : r.op.action r.now (prepare r.conf r.op.strict r.now s.doc) = .ok (body, reply))
    (scope : Scope) : body.generation scope = s.generation scope := by
  rw [← s.generation_prepare r.conf r.op.strict r.now scope]
  rcases action_cases haction with hmoved | ⟨_, _, _, _, _, _, -, hadd, -⟩
  · unfold PoolBody.generation
    rw [hmoved.generations hop]
  · obtain ⟨-, rfl, -⟩ := addFresh_cases hadd
    rfl

/-- The generation of a scope changes only when a settlement of that scope lands under the
generation it recorded or finds on its first run; it is spent then. -/
theorem Effect.generation (h : s.Effect label s') (scope : Scope) :
    s'.generation scope = s.generation scope ∧
        (∀ o object, Obs.settled o ∈ label.2 → s.objects[o]? = some object →
          object.scope ≠ scope) ∨
      ∃ m mutation object, label = (.land m, [.settled mutation.object]) ∧
        s.mutations[m]? = some mutation ∧ s.objects[mutation.object]? = some object ∧
        object.scope = scope ∧
        object.settlement.previous.getD (s.generation scope) = s.generation scope ∧
        s'.generation scope = object.settlement.generation ∧
        ∀ key e', s'.entry key = some e' → ∃ e₁,
          (prepare mutation.conf false mutation.now s.doc).entries.get? key = some e₁ ∧
          e' = settleEntry scope object.settlement.reason mutation.now e₁ := by
  cases h with
  | call _ _ hextended =>
    exact .inl ⟨generation_congr (by rw [startFlush_doc, hextended.doc]) scope, nofun⟩
  | attempt => exact .inl ⟨rfl, nofun⟩
  | request hop haction =>
    refine .inl ⟨generation_request hop haction scope, fun o object hobs => ?_⟩
    unfold observe at hobs
    split at hobs <;> simp at hobs
  | quiet hdoc => exact .inl ⟨generation_congr hdoc scope, nofun⟩
  | @land m mutation object obs hmutation hobject hobs =>
    obtain ⟨hrecord, ⟨heffective, hbody⟩ | ⟨hstale, hbody⟩⟩ := s.runSettle_cases mutation object
    · have hobs' : obs = [.settled mutation.object] := by
        rw [hobs, hrecord, if_pos (congrArg some heffective)]
      by_cases hscope : object.scope = scope
      · subst hscope
        refine .inr ⟨m, mutation, object, by rw [hobs'], hmutation, hobject, rfl, heffective,
          ?_, fun key e' hentry => ?_⟩
        · show (s.runSettle mutation object).1.generation object.scope = _
          rw [hbody]
          simp [PoolBody.generation]
        · have hentry : (s.runSettle mutation object).1.entries.get? key = some e' := hentry
          rw [hbody, Dict.get?_mapVal] at hentry
          obtain ⟨e₁, hget, rfl⟩ := Option.map_eq_some_iff.mp hentry
          exact ⟨e₁, hget, rfl⟩
      · refine .inl ⟨?_, fun o object' hmem hobject' => ?_⟩
        · show (s.runSettle mutation object).1.generation scope = _
          rw [← s.generation_prepare mutation.conf false mutation.now scope, hbody]
          simp [PoolBody.generation, Dict.get?_set_of_ne _ _ (Ne.symm hscope)]
        · rw [hobs', mem_singleton] at hmem
          cases hmem
          rw [hobject] at hobject'
          cases hobject'
          exact hscope
    · refine .inl ⟨?_, fun o object' hmem => ?_⟩
      · show (s.runSettle mutation object).1.generation scope = _
        rw [hbody, generation_prepare]
      · rw [hobs, hrecord, if_neg (fun heq => hstale (Option.some.inj heq))] at hmem
        cases hmem

/-- Where an entry comes from, unless a request wrote it anew. -/
theorem Effect.entry (h : s.Effect label s') (hcreated : Obs.created key ∉ label.2)
    (hentry : s'.entry key = some e') : ∃ e, s.entry key = some e ∧
      (e' = e ∨ ∃ now op, (s.Keeps key label.1 → s.Calm key now op) ∧ Moves now op key e e') := by
  cases h with
  | @call node _ _ s'' _ _ hextended =>
    have hentry : s''.entry key = some e' := hentry
    rw [entry_congr hextended.doc] at hentry
    exact ⟨e', hentry, .inl rfl⟩
  | attempt => exact ⟨e', hentry, .inl rfl⟩
  | quiet hdoc =>
    rw [entry_congr hdoc] at hentry
    exact ⟨e', hentry, .inl rfl⟩
  | land hmutation hobject =>
    obtain ⟨e, he, hmoves⟩ := entry_of_land hentry
    exact ⟨e, he, .inr ⟨_, _, fun hkeeps => hkeeps _ hmutation _ hobject, hmoves⟩⟩
  | @request r body reply hop haction =>
    rcases entry_of_action haction hentry with ⟨e, he, hmoves⟩ | ⟨_, _, _, _, _, hadd, -, rfl, -⟩
    · exact ⟨e, he, .inr ⟨_, _, id, hmoves⟩⟩
    · rw [hadd] at hcreated
      exact absurd (mem_singleton.mpr rfl) hcreated

end Sys

end Cronstable.Pool
