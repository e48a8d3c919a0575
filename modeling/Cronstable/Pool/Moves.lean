import Cronstable.Pool.Doc

/-!
# What a transform does to an entry

A transform of the pool document touches an entry in a few ways only, which `Move` lists. Every
entry of the new document is either the one that an `enqueue` wrote or the end of a chain of moves
of the entry stored at its key (`change_moves`), so what holds along every move holds along every
transform. The generations of the retry scopes move with settlements alone (`generation_change`).
-/

namespace Cronstable.Pool

/-- The ways in which an operation touches the entry at `key`. -/
inductive Move (now : Time) (op : Op) (key : String) : Entry → Entry → Prop
  | lapse {e : Entry} (hrun : e.state = .running)
      (hlapsed : ∃ deadline ∈ e.leaseUntil, deadline ≤ now) :
      Move now op key e { e with state := .queued, owner := none }
  | expire {e : Entry} (hqueued : e.state = .queued) :
      Move now op key e
        { e with state := .expired, reason := some "queue timeout", finishedAt := some now }
  | cancel {e : Entry} (reason : String) (hqueued : e.state = .queued) :
      Move now op key e
        { e with state := .cancelled, reason := some reason, finishedAt := some now }
  | claim {e : Entry} {host owner : String} (hop : op = .claim host owner key)
      (hqueued : e.state = .queued) (hretry : e.payload.retryCancelled = true →
        ∀ retry ∈ e.payload.retry, retry.count = 0) :
      Move now op key e
        { e with
          state := .running, owner := some owner, leaseUntil := some (now + leaseSeconds) }
  | close {e : Entry} {owner : String} {closing : Closing} {reason : Option String}
      (hop : op = .finish key owner closing reason) (howner : e.owner = some owner) :
      Move now op key e
        { e with
          state := closing.state, reason := reason, finishedAt := some now, owner := none }
  | renew {e : Entry} (hrun : e.state = .running) :
      Move now op key e { e with leaseUntil := some (now + leaseSeconds) }
  | settle {e : Entry} (scope : Scope) (reason : String) :
      Move now op key e (settleEntry scope reason now e)
  | observe {e : Entry} : Move now op key e { e with observed := true }

/-- A chain of moves. -/
abbrev Moves (now : Time) (op : Op) (key : String) : Entry → Entry → Prop :=
  Relation.ReflTransGen (Move now op key)

/-- Every entry of `body'` is moved from the one of `body` at its key, the capacity stays, and the
generations change only by a settlement. -/
structure MovedTo (now : Time) (op : Op) (body body' : PoolBody) : Prop where
  entries : ∀ key e', body'.entries.get? key = some e' →
    ∃ e, body.entries.get? key = some e ∧ Moves now op key e e'
  slots : body'.slots = body.slots
  generations : (∀ scope s, op ≠ .settle scope s) →
    body'.retryGenerations = body.retryGenerations

variable {key : String} {now : Time} {op : Op} {body body' body'' : PoolBody} {e' : Entry}

lemma MovedTo.refl (body : PoolBody) : MovedTo now op body body :=
  ⟨fun _ e' hget => ⟨e', hget, .refl⟩, rfl, fun _ => rfl⟩

/-- Two transforms make one. -/
lemma MovedTo.trans (h : MovedTo now op body body') (h' : MovedTo now op body' body'') :
    MovedTo now op body body'' := by
  refine ⟨fun key e'' hget'' => ?_, h'.slots.trans h.slots,
    fun hop => (h'.generations hop).trans (h.generations hop)⟩
  obtain ⟨e', hget', hmoves'⟩ := h'.entries key e'' hget''
  obtain ⟨e, hget, hmoves⟩ := h.entries key e' hget'
  exact ⟨e, hget, hmoves.trans hmoves'⟩

/-- One entry moves, every other one stays. -/
theorem MovedTo.set {e : Entry} (hget : body.entries.get? key = some e)
    (hmoves : Moves now op key e e') : MovedTo now op body (body.setEntry key e') := by
  refine ⟨fun key' e'' hget' => ?_, rfl, fun _ => rfl⟩
  rcases Dict.get?_set_cases hget' with ⟨rfl, rfl⟩ | ⟨-, hold⟩
  · exact ⟨e, hget, hmoves⟩
  · exact ⟨e'', hold, .refl⟩

/-- Every entry moves in place. -/
theorem MovedTo.mapVal {f : Entry → Entry} {generations : Dict Scope String}
    (hf : ∀ key e, Moves now op key e (f e))
    (hgenerations : (∀ scope s, op ≠ .settle scope s) → generations = body.retryGenerations) :
    MovedTo now op body { body with
      entries := body.entries.mapVal fun _ e => f e, retryGenerations := generations } := by
  refine ⟨fun key e' hget' => ?_, rfl, hgenerations⟩
  rw [Dict.get?_mapVal] at hget'
  obtain ⟨e, hget, rfl⟩ := Option.map_eq_some_iff.mp hget'
  exact ⟨e, hget, hf key e⟩

/-! ## Maintenance -/

/-- A lease lapses in at most one move. -/
lemma moves_lapse (now : Time) (op : Op) (key : String) (e : Entry) :
    Moves now op key e (lapse now e) := by
  unfold lapse
  split
  next h =>
    refine .single (.lapse h.1 ?_)
    simpa [Option.any_eq_true] using h.2
  next => exact .refl

/-- A queue timeout is at most one move. -/
lemma moves_expire (now : Time) (op : Op) (key : String) (e : Entry) :
    Moves now op key e (expire now e) := by
  unfold expire
  split
  next h => exact .single (.expire h.1)
  next => exact .refl

/-- What retention leaves was there before. -/
private lemma get?_foldl_erase {l : List Entry} {d : Dict String Entry} {e : Entry}
    (h : (l.foldl (fun d e => d.erase e.id) d).get? key = some e) : d.get? key = some e := by
  induction l generalizing d with
  | nil => exact h
  | cons a l ih =>
    exact (Dict.of_get?_erase (ih h)).2

/-- Maintenance moves entries and drops some. -/
lemma movedTo_maintain (now : Time) (op : Op) (body : PoolBody) :
    MovedTo now op body (maintain body now) := by
  refine ⟨fun key e' hget' => ?_, rfl, fun _ => rfl⟩
  have hmapped := get?_foldl_erase hget'
  rw [Dict.get?_mapVal] at hmapped
  obtain ⟨e, hget, rfl⟩ := Option.map_eq_some_iff.mp hmapped
  exact ⟨e, hget, (moves_lapse now op key e).trans (moves_expire now op key _)⟩

/-- A resize touches the capacity alone. -/
lemma resize_entries (conf : Option PoolConf) (body : PoolBody) :
    (resize conf body).entries = body.entries ∧
      (resize conf body).retryGenerations = body.retryGenerations := by
  unfold resize
  split
  · split <;> exact ⟨rfl, rfl⟩
  · exact ⟨rfl, rfl⟩

/-- The entries an action works on are the maintained ones. -/
lemma prepare_entries (conf : Option PoolConf) (strict : Bool) (now : Time)
    (current : Option PoolBody) :
    (prepare conf strict now current).entries =
        (maintain (current.getD (newBody conf)) now).entries ∧
      (prepare conf strict now current).retryGenerations =
        (current.getD (newBody conf)).retryGenerations := by
  unfold prepare
  split
  · exact resize_entries conf _
  · exact ⟨rfl, rfl⟩

/-- The document an action works on is moved from the stored one. -/
theorem moves_prepare {conf : Option PoolConf} {strict : Bool} (op : Op)
    {current : Option PoolBody}
    (h : (prepare conf strict now current).entries.get? key = some e') :
    ∃ e, current.bind (·.entries.get? key) = some e ∧ Moves now op key e e' := by
  rw [(prepare_entries conf strict now current).1] at h
  obtain ⟨e, hget, hmoves⟩ := (movedTo_maintain now op _).entries key e' h
  cases current with
  | none => cases hget
  | some body => exact ⟨e, hget, hmoves⟩

/-! ## Actions -/

/-- A retry that was cancelled is superseded. -/
theorem retrySuperseded_of_cancelled (body : PoolBody) {payload : Payload} {retry : Retry}
    (hcancelled : payload.retryCancelled = true) (hretry : retry ∈ payload.retry)
    (hcount : 0 < retry.count) : retrySuperseded body payload = true := by
  simp only [retrySuperseded, retryCurrent, hcancelled, Option.any_eq_true, Bool.and_eq_true,
    Bool.not_true, Bool.false_and, Bool.not_false, and_true, decide_eq_true_eq]
  exact ⟨retry, hretry, hcount⟩

/-- A claim takes a queued entry that is not superseded, or cancels one that is. -/
lemma movedTo_claim (host owner key : String) (body : PoolBody) (now : Time) :
    MovedTo now (.claim host owner key) body (claim host owner key body now).1 := by
  rcases claim_cases host owner key body now with
    ⟨hsame, -⟩ | ⟨e, hget, hqueued, ⟨-, hcancel⟩ | ⟨hcurrent, -, hclaim⟩⟩
  · rw [hsame]
    exact .refl _
  · rw [hcancel]
    exact .set hget (.single (.cancel _ hqueued))
  · rw [hclaim]
    refine .set hget (.single (.claim rfl hqueued fun hcancelled retry hretry => ?_))
    by_contra hcount
    have hsuper := retrySuperseded_of_cancelled body hcancelled hretry (Nat.pos_of_ne_zero hcount)
    rw [hcurrent] at hsuper
    cases hsuper

/-- The owner of an entry closes it. -/
lemma movedTo_finish (key owner : String) (closing : Closing) (reason : Option String)
    (body : PoolBody) (now : Time) :
    MovedTo now (.finish key owner closing reason) body
      (finish key owner closing reason body now).1 := by
  unfold finish
  split
  next e hget =>
    split
    next howner => exact .set hget (.single (.close rfl howner))
    next => exact .refl _
  next => exact .refl _

/-- A renewal moves the lease of an entry. -/
lemma movedTo_renew (op : Op) (key owner : String) (body : PoolBody) (now : Time) :
    MovedTo now op body (renew key owner body now).1 := by
  unfold renew
  split
  next e hget =>
    split
    next hrun => exact .set hget (.single (.renew hrun.1))
    next => exact .refl _
  next => exact .refl _

variable {reply : Reply}

/-- A waiting entry is cancelled. -/
lemma movedTo_cancel {reason : String}
    (hcancel : cancel key reason body now = .ok (body', reply)) : MovedTo now op body body' := by
  unfold cancel at hcancel
  split at hcancel
  next => cases hcancel
  next e hget =>
    split at hcancel
    · cases hcancel
      exact .refl _
    · split at hcancel
      · cases hcancel
      next hqueued =>
        cases hcancel
        exact .set hget (.single (.cancel reason (not_not.mp hqueued)))

/-- A settlement may touch every entry. -/
lemma movedTo_settle (scope : Scope) (s : Settlement) (body : PoolBody) (now : Time) :
    MovedTo now (.settle scope s) body (settle scope s body now).1 := by
  unfold settle
  simp only
  split
  next => exact .refl _
  next =>
    exact .mapVal (fun key e => .single (.settle scope s.reason))
      fun hop => absurd rfl (hop scope s)

/-- A task that is retired no longer waits, and counts as observed. -/
lemma movedTo_retireOne (op : Op) (now : Time) (body : PoolBody) (key : String) :
    MovedTo now op body (retireOne now body key) := by
  unfold retireOne
  split
  next => exact .refl _
  next e hget =>
    split
    next => exact .refl _
    next =>
      split
      next hqueued =>
        exact .set hget
          (Relation.ReflTransGen.tail (.single (.cancel "task is no longer waiting" hqueued))
            .observe)
      next => exact .set hget (.single .observe)

/-- So do all tasks that are retired. -/
lemma movedTo_retire (op : Op) (now : Time) (body : PoolBody) (keys : List String) :
    MovedTo now op body (keys.foldl (retireOne now) body) := by
  induction keys generalizing body with
  | nil => exact .refl _
  | cons key keys ih => exact (movedTo_retireOne op now body key).trans (ih _)

/-- An entry counts as observed. -/
lemma movedTo_acknowledge (op : Op) (now : Time) (body : PoolBody) (key : String) :
    MovedTo now op body (acknowledge key body) := by
  unfold acknowledge
  split
  next => exact .refl _
  next e hget => exact .set hget (.single .observe)

private lemma fst_of_ok {p : PoolBody × Reply}
    (h : (.ok p : Except String (PoolBody × Reply)) = .ok (body, reply)) : body = p.1 := by
  cases h
  rfl

/-- What an action can do: move the entries, or write the new entry of an `enqueue`. -/
theorem action_cases
    (h : op.action now body = .ok (body', reply)) :
    MovedTo now op body body' ∨
      ∃ conf job key context retryState resume,
        op = .enqueue conf job key context retryState resume ∧
        addFresh conf job key context retryState body now = .ok (body', reply) ∧
        ∀ old, body.entries.get? key = some old →
          old.state = .cancelled ∨ old.state = .expired := by
  cases op with
  | enqueue conf job key context retryState resume =>
    rcases add_cases h with ⟨rfl, -⟩ | ⟨hadd, hold⟩
    · exact .inl (.refl _)
    · exact .inr ⟨conf, job, key, context, retryState, resume, rfl, hadd, hold⟩
  | cancel key reason => exact .inl (movedTo_cancel h)
  | claim host owner key =>
    rw [fst_of_ok h]
    exact .inl (movedTo_claim host owner key body now)
  | finish key owner closing reason =>
    rw [fst_of_ok h]
    exact .inl (movedTo_finish key owner closing reason body now)
  | renew key owner =>
    rw [fst_of_ok h]
    exact .inl (movedTo_renew _ key owner body now)
  | settle scope s =>
    rw [fst_of_ok h]
    exact .inl (movedTo_settle scope s body now)
  | retire keys =>
    rw [fst_of_ok h]
    exact .inl (movedTo_retire _ now body keys)
  | acknowledge key =>
    rw [fst_of_ok h]
    exact .inl (movedTo_acknowledge _ now body key)
  | read =>
    rw [fst_of_ok h]
    exact .inl (.refl _)

/-- Where an entry of the new document comes from: the stored one was moved, or a new one was
written where maintenance left none or a closed one. -/
theorem entry_of_action {conf : Option PoolConf} {doc : Option PoolBody}
    (h : op.action now (prepare conf op.strict now doc) = .ok (body, reply))
    (hget : body.entries.get? key = some e') :
    (∃ e, doc.bind (·.entries.get? key) = some e ∧ Moves now op key e e') ∨
      ∃ conf' job context retryState resume,
        op = .enqueue conf' job key context retryState resume ∧ e'.state = .queued ∧
        reply = .added e' ∧
        ∀ old, (prepare conf op.strict now doc).entries.get? key = some old →
          old.state = .cancelled ∨ old.state = .expired := by
  rcases action_cases h with
    hmoved | ⟨conf', job, key', context, retryState, resume, hop, hadd, hold⟩
  · obtain ⟨e₁, h₁, hmoves₁⟩ := hmoved.entries key e' hget
    obtain ⟨e, he, hmoves⟩ := moves_prepare op h₁
    exact .inl ⟨e, he, hmoves.trans hmoves₁⟩
  · obtain ⟨-, rfl, rfl⟩ := addFresh_cases hadd
    rcases Dict.get?_set_cases hget with ⟨rfl, rfl⟩ | ⟨-, h₁⟩
    · exact .inr ⟨conf', job, context, retryState, resume, hop, rfl, rfl, hold⟩
    · exact .inl (moves_prepare op h₁)

end Cronstable.Pool
