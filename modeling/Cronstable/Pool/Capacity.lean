import Cronstable.Lib.Trace
import Cronstable.Pool.Moves

/-!
# Capacity and shape of a pool

Over every interleaving of the pool transforms, with whatever clocks and configurations the nodes
have, the running entries fit the capacity, exactly they have an owner, no live entry needs more
than the capacity, and the capacity changes only when nothing waits or runs.

Every move but that of a claim eases its entry (`Eases`): it brings no entry to life or to run, and
takes the owner along with the run. A claim takes free slots, and an `enqueue` writes an entry that
waits.

## Main results

* `Lands.sound`: a transform keeps a document sound;
* `sound_of_run`: what holds in every stored document and of every change of capacity.
-/

namespace Cronstable.Pool

open Dict

/-- The running entries fit, and owners and sizes are in order. -/
structure Sound (body : PoolBody) : Prop where
  capacity : body.usedSlots ≤ body.slots
  owner : ∀ e ∈ body.entries.values, e.owner.isSome ↔ e.state = .running
  fits : ∀ e ∈ body.entries.values, e.state = .queued ∨ e.state = .running → e.slots ≤ body.slots

variable {body : PoolBody} {e : Entry} {key : String}

/-- An entry that waits or runs fits the pool. -/
lemma Sound.slots_le (h : Sound body) (hget : body.entries.get? key = some e)
    (hlive : e.state = .queued ∨ e.state = .running) : e.slots ≤ body.slots :=
  h.fits e (mem_values_iff.mpr ⟨key, hget⟩) hlive

/-! ## Easing -/

/-- `e'` asks for no more than `e`, and has an owner exactly when it runs. -/
structure Eases (e e' : Entry) : Prop where
  slots : e'.slots = e.slots
  running : e'.state = .running → e.state = .running
  live : e'.state = .queued → e.state = .queued ∨ e.state = .running
  owner : e'.owner.isSome ↔ e'.state = .running

lemma Eases.refl (h : e.owner.isSome ↔ e.state = .running) : Eases e e :=
  ⟨rfl, id, .inl, h⟩

variable {e' : Entry}

/-- Two such changes make one. -/
lemma Eases.trans {e'' : Entry} (h : Eases e e') (h' : Eases e' e'') : Eases e e'' := by
  refine ⟨h'.slots.trans h.slots, fun hr => h.running (h'.running hr), fun hq => ?_, h'.owner⟩
  rcases h'.live hq with hq | hr
  · exact h.live hq
  · exact .inr (h.running hr)

/-- A waiting entry that is closed had no owner to lose. -/
private lemma eases_close (h : e.owner.isSome ↔ e.state = .running) (hqueued : e.state = .queued)
    (hslots : e'.slots = e.slots) (howner : e'.owner = e.owner)
    (hclosed : e'.state.terminal = true) : Eases e e' := by
  have hrun : e'.state ≠ .running := fun hr => by rw [hr] at hclosed; cases hclosed
  have hwait : e'.state ≠ .queued := fun hq => by rw [hq] at hclosed; cases hclosed
  refine ⟨hslots, fun hr => absurd hr hrun, fun hq => absurd hq hwait, ?_⟩
  rw [howner, h, hqueued]
  exact iff_of_false nofun hrun

/-- A settlement closes an entry or leaves its slots. -/
lemma eases_settleEntry (scope : Scope) (reason : String) (now : Time)
    (h : e.owner.isSome ↔ e.state = .running) : Eases e (settleEntry scope reason now e) := by
  unfold settleEntry
  split
  next => exact .refl h
  next =>
    split
    next => exact .refl h
    next =>
      simp only
      split
      next hqueued => exact eases_close h hqueued.1 rfl rfl rfl
      next => exact ⟨rfl, id, .inl, h⟩

variable {now : Time} {op : Op}

/-- Every move but that of a claim eases. -/
theorem Move.eases (h : Move now op key e e') (hop : ∀ host owner key, op ≠ .claim host owner key)
    (howner : e.owner.isSome ↔ e.state = .running) : Eases e e' := by
  cases h with
  | lapse hrun => exact ⟨rfl, nofun, fun _ => .inr hrun, by simp⟩
  | expire hqueued | cancel _ hqueued => exact eases_close howner hqueued rfl rfl rfl
  | claim hclaim => exact absurd hclaim (hop _ _ _)
  | @close owner closing reason hfinish hown =>
    -- only a running entry has an owner
    have hrun : e.state = .running := howner.mp (by simp [hown])
    refine ⟨rfl, fun _ => hrun, fun _ => .inr hrun, ?_⟩
    cases closing <;> simp [Closing.state]
  | renew | observe => exact ⟨rfl, id, .inl, howner⟩
  | settle scope reason => exact eases_settleEntry scope reason now howner

/-- No move but a claim takes slots. -/
lemma Moves.eases (h : Moves now op key e e') (hop : ∀ host owner key, op ≠ .claim host owner key)
    (howner : e.owner.isSome ↔ e.state = .running) : Eases e e' := by
  induction h with
  | refl => exact .refl howner
  | tail _ hmove ih => exact ih.trans (hmove.eases hop ih.owner)

variable {body' : PoolBody}

/-- Moves that are not of a claim keep a document sound. -/
theorem Sound.moved (h : Sound body) (hmoved : MovedTo now op body body')
    (hop : ∀ host owner key, op ≠ .claim host owner key) : Sound body' := by
  have heases : ∀ key e', body'.entries.get? key = some e' →
      ∃ e, body.entries.get? key = some e ∧ Eases e e' := by
    intro key e' hget'
    obtain ⟨e, hget, hmoves⟩ := hmoved.entries key e' hget'
    exact ⟨e, hget, hmoves.eases hop (h.owner e (mem_values_iff.mpr ⟨key, hget⟩))⟩
  refine ⟨?_, fun e' he' => ?_, fun e' he' hlive => ?_⟩
  · have hused : body'.usedSlots ≤ body.usedSlots := by
      refine total_mono fun key e' hget' => ?_
      obtain ⟨e, hget, hease⟩ := heases key e' hget'
      refine ⟨e, hget, ?_⟩
      unfold Entry.usedSlots
      split
      next hrun => rw [if_pos (hease.running hrun), hease.slots]
      next => exact Nat.zero_le _
    rw [hmoved.slots]
    exact hused.trans h.capacity
  · obtain ⟨key, hget'⟩ := mem_values_iff.mp he'
    obtain ⟨e, -, hease⟩ := heases key e' hget'
    exact hease.owner
  · obtain ⟨key, hget'⟩ := mem_values_iff.mp he'
    obtain ⟨e, hget, hease⟩ := heases key e' hget'
    rw [hmoved.slots, hease.slots]
    rcases hlive with hq | hr
    · exact h.slots_le hget (hease.live hq)
    · exact h.slots_le hget (.inr (hease.running hr))

/-! ## Resizing -/

/-- A resize happens only with every entry closed, when nothing is asked for. -/
theorem Sound.resize (h : Sound body) (conf : Option PoolConf) : Sound (resize conf body) := by
  unfold Pool.resize
  cases conf with
  | none => exact h
  | some conf =>
    simp only
    split
    next hsplit =>
      have hclosed : ∀ e ∈ body.entries.values, e.state.terminal = true := by
        simpa using hsplit.2
      refine ⟨?_, h.owner, fun e he hlive => ?_⟩
      · -- no entry runs, so nothing is used
        have hused : body.usedSlots = 0 := by
          refine List.sum_eq_zero fun n hn => ?_
          obtain ⟨e, he, rfl⟩ := List.mem_map.mp hn
          refine if_neg fun hrun => ?_
          have := hclosed e he
          rw [hrun] at this
          cases this
        show body.usedSlots ≤ conf.slots
        omega
      · have := hclosed e he
        rw [EntryState.terminal_eq_false_iff.mpr hlive] at this
        cases this
    next => exact h

/-- A new document has no entries. -/
lemma sound_newBody (conf : Option PoolConf) : Sound (newBody conf) := by
  refine ⟨Nat.zero_le _, ?_, ?_⟩ <;> intro e he <;> cases he

/-- The document an action works on is sound if the stored one is. -/
lemma Sound.prepare {current : Option PoolBody} (h : ∀ body ∈ current, Sound body)
    (conf : Option PoolConf) (strict : Bool) (now : Time) :
    Sound (prepare conf strict now current) := by
  have hcurrent : Sound (current.getD (newBody conf)) := by
    cases current with
    | none => exact sound_newBody conf
    | some body => exact h body rfl
  have hmaintained := hcurrent.moved (movedTo_maintain now .read _) nofun
  unfold Pool.prepare
  split
  · exact hmaintained.resize conf
  · exact hmaintained

/-! ## Actions -/

/-- Writing an entry that does not run, or one that fits the free slots. -/
theorem Sound.set (h : Sound body) (hfree : body.usedSlots + e.usedSlots ≤ body.slots)
    (hsize : e.slots ≤ body.slots) (howner : e.owner.isSome ↔ e.state = .running) :
    Sound (body.setEntry key e) := by
  have hwritten : ∀ e' ∈ (body.setEntry key e).entries.values,
      e' = e ∨ e' ∈ body.entries.values := by
    intro e' he'
    obtain ⟨key', hget⟩ := mem_values_iff.mp he'
    rcases get?_set_cases hget with ⟨-, heq⟩ | ⟨-, hold⟩
    · exact .inl heq
    · exact .inr (mem_values_iff.mpr ⟨key', hold⟩)
  refine ⟨(total_set_le _ _ _ _).trans hfree, fun e' he' => ?_, fun e' he' hlive => ?_⟩
  · rcases hwritten e' he' with rfl | hold
    · exact howner
    · exact h.owner e' hold
  · rcases hwritten e' he' with rfl | hold
    · exact hsize
    · exact h.fits e' hold hlive

/-- An admission adds an entry that fits. -/
lemma Sound.add {conf : PoolConf} {job : Job} {context : Payload} {retryState : Option RetryState}
    {resume : Bool} {reply : Reply} (h : Sound body) (hjob : job.poolSlots ≤ conf.slots)
    (hadd : add conf job key context retryState resume body now = .ok (body', reply)) :
    Sound body' := by
  rcases add_cases hadd with ⟨rfl, -⟩ | ⟨hfresh, -⟩
  · exact h
  · obtain ⟨hslots, rfl, -⟩ := addFresh_cases hfresh
    refine h.set ?_ ?_ (by simp [newEntry])
    · -- a new entry waits
      show body.usedSlots + 0 ≤ body.slots
      exact h.capacity
    · rw [hslots]
      exact hjob

/-- An admitted entry fits the free slots. -/
theorem admits_fits (h : admits body e = true) :
    (e.slots : ℤ) ≤ (body.slots : ℤ) - body.usedSlots := by
  unfold admits at h
  cases hhead : head body.entries.values with
  | none => simp [hhead] at h
  | some first =>
    rw [hhead] at h
    simp only [Option.any_some, Bool.and_eq_true, decide_eq_true_eq] at h
    exact h.2

/-- A claim takes no more than the free slots. -/
lemma Sound.claim (h : Sound body) (host owner key : String) (now : Time) :
    Sound (claim host owner key body now).1 := by
  rcases claim_cases host owner key body now with
    ⟨hsame, -⟩ | ⟨e, hget, hqueued, ⟨-, hcancel⟩ | ⟨-, hadmits, hclaim⟩⟩
  · rw [hsame]
    exact h
  · rw [hcancel]
    have hmoved : MovedTo now .read body _ :=
      .set hget (.single (.cancel "retry superseded" hqueued))
    exact h.moved hmoved nofun
  · rw [hclaim]
    have hfree := admits_fits hadmits
    have hsize := h.slots_le hget (.inl hqueued)
    refine h.set ?_ hsize (by simp)
    show body.usedSlots + e.slots ≤ body.slots
    omega

/-! ## Runs -/

/-- A job needs no more than the capacity its own node has configured. -/
def Op.Fits : Op → Prop
  | enqueue conf job _ _ _ _ => job.poolSlots ≤ conf.slots
  | _ => True

/-- A transform lands: the store applies it, or keeps the document if the action raises. -/
def Lands (pool : String) (doc : Option PoolBody) (r : Request) (doc' : Option PoolBody) : Prop :=
  r.op.Fits ∧ doc' = match change pool r.conf r.now r.op doc with
    | .ok (body, _) => some body
    | .error _ => doc

/-- An action keeps a document sound, and its capacity. -/
theorem Sound.action {reply : Reply} (h : Sound body) (hfits : op.Fits)
    (haction : op.action now body = .ok (body', reply)) :
    Sound body' ∧ body'.slots = body.slots := by
  rcases action_cases haction with
    hmoved | ⟨conf, job, key, context, retryState, resume, rfl, hadd, -⟩
  · refine ⟨?_, hmoved.slots⟩
    by_cases hop : ∃ host owner key, op = .claim host owner key
    · obtain ⟨host, owner, key, rfl⟩ := hop
      have hclaim : Pool.claim host owner key body now = (body', reply) := Except.ok.inj haction
      have := h.claim host owner key now
      rwa [hclaim] at this
    · push Not at hop
      exact h.moved hmoved hop
  · obtain ⟨-, rfl, -⟩ := addFresh_cases hadd
    exact ⟨h.add hfits haction, rfl⟩

variable {pool : String} {r : Request}

/-- What a transform that lands has done. -/
theorem Lands.cases {doc doc' : Option PoolBody} (h : Lands pool doc r doc') :
    doc' = doc ∨ ∃ body' reply, doc' = some body' ∧
      r.op.action r.now (prepare r.conf r.op.strict r.now doc) = .ok (body', reply) := by
  obtain ⟨-, rfl⟩ := h
  unfold change
  split
  next body' reply hchange =>
    split at hchange
    · cases hchange
    · exact .inr ⟨body', reply, rfl, hchange⟩
  next => exact .inl rfl

/-- A transform keeps the stored document sound. -/
theorem Lands.sound {doc doc' : Option PoolBody} (h : Lands pool doc r doc')
    (hdoc : ∀ body ∈ doc, Sound body) : ∀ body ∈ doc', Sound body := by
  rcases h.cases with rfl | ⟨body', reply, rfl, haction⟩
  · exact hdoc
  · rintro _ ⟨⟩
    exact ((Sound.prepare hdoc r.conf r.op.strict r.now).action h.1 haction).1

/-- Preparing a document changes its capacity only when maintenance leaves every entry closed. -/
theorem terminal_of_resized (conf : Option PoolConf) (strict : Bool)
    (h : (prepare conf strict now (some body)).slots ≠ body.slots) :
    ∀ e ∈ (maintain body now).entries.values, e.state.terminal = true := by
  have hkeep : (maintain body now).slots = body.slots := rfl
  simp only [prepare, Option.getD_some] at h
  split at h
  · unfold resize at h
    split at h
    · split at h
      next hsplit => simpa using hsplit.2
      next => exact absurd hkeep h
    · exact absurd hkeep h
  · exact absurd hkeep h

/-- A transform that changes the capacity finds, after its maintenance, every entry closed. -/
theorem Lands.terminal_of_slots_ne (h : Lands pool (some body) r (some body')) (hbody : Sound body)
    (hne : body'.slots ≠ body.slots) :
    ∀ e ∈ (maintain body r.now).entries.values, e.state.terminal = true := by
  rcases h.cases with heq | ⟨_, reply, heq, haction⟩
  · cases heq
    exact absurd rfl hne
  · cases heq
    have hprepared : Sound (prepare r.conf r.op.strict r.now (some body)) :=
      Sound.prepare (by rintro _ ⟨⟩; exact hbody) r.conf r.op.strict r.now
    refine terminal_of_resized r.conf r.op.strict ?_
    rwa [← (hprepared.action h.1 haction).2]

/-- Whatever transforms land in whatever order, in the stored document the running entries fit the
capacity, exactly they have an owner and every live entry fits; and a transform that lands next
changes the capacity only if nothing waits or runs in the document it maintained. -/
theorem sound_of_run {pool : String} {requests : List Request} {doc : Option PoolBody}
    (h : Trace.Run (Lands pool) none requests doc) (body : PoolBody) (hbody : doc = some body) :
    Sound body ∧
      ∀ r body', Lands pool doc r (some body') → body'.slots ≠ body.slots →
        ∀ e ∈ (maintain body r.now).entries.values,
          e.state ≠ .queued ∧ e.state ≠ .running := by
  have hsound : ∀ b ∈ doc, Sound b :=
    h.invariant (P := fun doc => ∀ b ∈ doc, Sound b)
      (fun _ _ _ hdoc hlands => hlands.sound hdoc) nofun
  subst hbody
  refine ⟨hsound body rfl, fun r body' hlands hne e he => ?_⟩
  have hterminal := hlands.terminal_of_slots_ne (hsound body rfl) hne e he
  constructor <;> intro hstate <;> rw [hstate] at hterminal <;> cases hterminal

/-- A job of two slots enters a pool of three and is claimed. -/
theorem sound_of_run_claimed :
    ∃ body, body.usedSlots = 2 ∧ Sound body ∧
      ∀ r body', Lands "io" (some body) r (some body') → body'.slots ≠ body.slots →
        ∀ e ∈ (maintain body r.now).entries.values,
          e.state ≠ .queued ∧ e.state ≠ .running := by
  let conf : PoolConf := ⟨3, 10⟩
  let job : Job := ⟨"backup", "io", 2, 0, 60, "d"⟩
  have hrun : Trace.Run (Lands "io") none
      ([] ++ [⟨some conf, 5, .enqueue conf job "k" {} none false⟩] ++
        [⟨some conf, 3, .claim "h" "o" "k"⟩]) _ :=
    .snoc (.snoc (.nil none) ⟨show 2 ≤ 3 by decide, rfl⟩) ⟨trivial, rfl⟩
  exact ⟨_, by decide +kernel, sound_of_run hrun _ rfl⟩

end Cronstable.Pool
