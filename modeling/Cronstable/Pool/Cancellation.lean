import Cronstable.Pool.Settlement

/-!
# Cancelled retries stay cancelled

What the runs of the settlement system keep when their steps are timely.

## Main results

* `Track.step`: what is known of a waiting retry while a call that settles its scope is under way;
* `Chain.step`: the generations of a scope never come back;
* `settlement_exact`: with timely steps no cancellation is lost and no late settlement cancels
  again;
* `settlement_lost`: two runs of untimely steps, one of which loses a cancellation while the other
  repeats one.
-/

namespace Cronstable.Pool

open List Sys Obs Set Log

/-! ## No cancellation is lost -/

namespace Sys

/-- The entry at the key, if any, is a revoked retry. -/
def Revoked (key : String) (s : Sys) : Prop := ∀ e, s.entry key = some e → e.Revoked

/-- The entry at the key, if any, is a revoked retry that does not wait. -/
def Flagged (key : String) (s : Sys) : Prop :=
  ∀ e, s.entry key = some e → e.Revoked ∧ e.state ≠ .queued

/-- The mutations from the `n`-th on that carry the settlement. -/
def Submitted (n o m : ℕ) (mutation : Mutation) (s : Sys) : Prop :=
  n ≤ m ∧ s.mutations[m]? = some mutation ∧ mutation.object = o

/-- Such a mutation landed. -/
def Landed (n o : ℕ) (s : Sys) : Prop :=
  ∃ m mutation, s.Submitted n o m mutation ∧ mutation.landed = true

/-- While the flush is under way, it still has the settlement before it or a mutation of the
settlement landed. -/
def Carried (n f o : ℕ) (s : Sys) : Prop :=
  n ≤ s.mutations.length ∧ ∃ flush, s.flushes[f]? = some flush ∧ (flush.outcome = none →
    o ∈ flush.todo ∨ (∃ m ∈ flush.waiting, ∃ mutation, s.Submitted n o m mutation) ∨
      s.Landed n o)

end Sys

variable {s s' : Sys} {pool key : String} {label : Event × List Obs}

/-- A retry stays revoked, whatever happens. -/
theorem Sys.Revoked.step (h : s.Revoked key) (hstep : Step pool s label s')
    (hcreated : created key ∉ label.2) : s'.Revoked key := by
  intro e' hentry
  obtain ⟨e, he, rfl | ⟨now, op, -, hmoves⟩⟩ := (effect_of_step hstep).entry hcreated hentry
  · exact h _ he
  · exact (h e he).moves hmoves

/-- It stays out of the queue as well, when the step keeps it there. -/
theorem Sys.Flagged.step (h : s.Flagged key) (hstep : Step pool s label s')
    (hkeeps : s.Keeps key label.1) (hcreated : created key ∉ label.2) : s'.Flagged key := by
  intro e' hentry
  obtain ⟨e, he, rfl | ⟨now, op, hcalm, hmoves⟩⟩ := (effect_of_step hstep).entry hcreated hentry
  · exact h _ he
  · obtain ⟨hrevoked, hwait⟩ := h e he
    obtain ⟨hlease, hop⟩ := hcalm hkeeps e he hrevoked
    exact ⟨hrevoked.moves hmoves, hmoves.not_queued hwait hlease hop⟩

/-- A revoked retry is not claimed. -/
theorem Sys.Revoked.not_claimed (h : s.Revoked key) (hstep : Step pool s label s') :
    claimed key ∉ label.2 := by
  intro hclaimed
  obtain ⟨event, obs⟩ := label
  cases effect_of_step hstep with
  | call | attempt | quiet => cases hclaimed
  | land hmutation hobject hobs =>
    rw [hobs] at hclaimed
    split at hclaimed <;> simp at hclaimed
  | @request r body reply hop haction =>
    have hclaimed : claimed key ∈ observe r.op reply := hclaimed
    cases hr : r.op with
    | claim host owner key' =>
      rw [hr] at haction hclaimed
      have hclaim : claim host owner key' (prepare r.conf true r.now s.doc) r.now =
        (body, reply) := Except.ok.inj haction
      rcases claim_cases host owner key' (prepare r.conf true r.now s.doc) r.now with
        ⟨-, queued, hrefused⟩ | ⟨e₁, hget, -, ⟨-, hcancel⟩ | ⟨hcurrent, -, htaken⟩⟩
      · rw [hclaim] at hrefused
        rw [show reply = _ from hrefused] at hclaimed
        cases hclaimed
      · rw [hclaim] at hcancel
        cases hcancel
        cases hclaimed
      · rw [hclaim] at htaken
        cases htaken
        obtain rfl : key = key' := by simpa [observe] using hclaimed
        -- the entry is not superseded in the maintained document, a revoked one would be
        obtain ⟨e, he, hmoves⟩ := entry_of_prepare r.op hget
        obtain ⟨hcancelled, retry, hretry, hcount⟩ := (h e he).moves hmoves
        rw [retrySuperseded_of_cancelled _ hcancelled hretry hcount] at hcurrent
        cases hcurrent
    | enqueue =>
      unfold observe at hclaimed
      split at hclaimed <;> simp_all
    | _ =>
      rw [hr] at hclaimed
      cases hclaimed

variable {obs : List Obs} {event : Event}

/-- What a step does to the submitted mutations. -/
theorem Sys.step_mutations (h : s.step pool event = some (s', obs)) :
    s'.mutations = s.mutations ∨
      (∃ o conf now, s'.mutations = s.mutations ++ [⟨o, conf, now, false⟩]) ∨
      ∃ m mutation, event = .land m ∧ s.mutations[m]? = some mutation ∧
        s'.mutations = s.mutations.set m { mutation with landed := true } := by
  cases event with simp only [step] at h
  | settle node reason targets =>
    obtain ⟨-, ⟨⟩⟩ := Option.ite_none_right_eq_some.mp h
    exact .inl (extended_settle s node reason targets).mutations
  | submit f conf now =>
    split at h
    · cases h
      exact .inr (.inl ⟨_, _, _, rfl⟩)
    · cases h
  | land m =>
    split at h
    next mutation hmutation =>
      split at h
      · cases h
        exact .inr (.inr ⟨m, mutation, rfl, hmutation, rfl⟩)
      · cases h
    next => cases h
  | _ =>
    repeat' split at h
    all_goals cases h
    all_goals exact .inl rfl

variable {f : ℕ}

/-- What a step does to a flush. -/
theorem Sys.step_flush (h : s.step pool event = some (s', obs)) {flush : Flush}
    (hflush : s.flushes[f]? = some flush) :
    s'.flushes[f]? = some flush ∨
      (∃ o todo conf now, flush.todo = o :: todo ∧ flush.waiting = none ∧
        s'.mutations = s.mutations ++ [⟨o, conf, now, false⟩] ∧
        s'.flushes[f]? = some { flush with todo, waiting := some s.mutations.length }) ∨
      (∃ m mutation, flush.waiting = some m ∧ s.mutations[m]? = some mutation ∧
        mutation.landed = true ∧ s'.mutations = s.mutations ∧
        s'.flushes[f]? = some { flush with waiting := none }) ∨
      ∃ outcome, s'.flushes[f]? = some { flush with outcome := some outcome } := by
  cases event with simp only [step] at h
  | settle node reason targets =>
    obtain ⟨-, ⟨⟩⟩ := Option.ite_none_right_eq_some.mp h
    refine .inl ?_
    simp only [startFlush, (extended_settle s node reason targets).flushes]
    exact append_some hflush _
  | flush node =>
    cases h
    exact .inl (append_some hflush _)
  | submit f' conf now =>
    split at h
    next node o todo hat =>
      cases h
      rcases set_at hat hflush _ with ⟨-, rfl, hnew⟩ | hother
      · exact .inr (.inl ⟨o, todo, conf, now, rfl, rfl, rfl, hnew⟩)
      · exact .inl hother
    next => cases h
  | answer f' =>
    split at h
    next node todo m hat =>
      split at h
      next o conf now hmutation =>
        rcases set_at hat hflush ⟨node, todo, none, none⟩ with ⟨-, rfl, hnew⟩ | hother
        · refine .inr (.inr (.inl ⟨m, _, rfl, hmutation, rfl, ?_⟩))
          repeat' split at h
          all_goals cases h
          all_goals exact ⟨rfl, hnew⟩
        · refine .inl ?_
          repeat' split at h
          all_goals cases h
          all_goals exact hother
      next => cases h
    next => cases h
  | fail f' | finish f' =>
    split at h
    next hat =>
      cases h
      rcases set_at hat hflush _ with ⟨-, rfl, hnew⟩ | hother
      · exact .inr (.inr (.inr ⟨_, hnew⟩))
      · exact .inl hother
    next => cases h
  | _ =>
    repeat' split at h
    all_goals cases h
    all_goals exact .inl hflush

variable {o n : ℕ}

/-- A mutation keeps its settlement, and stays landed. -/
theorem Sys.Submitted.step {m : ℕ} {mutation : Mutation} (h : s.Submitted n o m mutation)
    (hstep : s.step pool event = some (s', obs)) :
    ∃ mutation', s'.Submitted n o m mutation' ∧
      (mutation.landed = true → mutation'.landed = true) := by
  obtain ⟨hle, hmutation, hobject⟩ := h
  rcases step_mutations hstep with hsame | ⟨_, _, _, happend⟩ | ⟨m', mutation', -, hat, hset⟩
  · exact ⟨mutation, ⟨hle, hsame ▸ hmutation, hobject⟩, id⟩
  · exact ⟨mutation, ⟨hle, happend ▸ append_some hmutation _, hobject⟩, id⟩
  · rcases set_at hat hmutation { mutation' with landed := true } with ⟨-, rfl, hnew⟩ | hother
    · exact ⟨{ mutation' with landed := true }, ⟨hle, hset ▸ hnew, hobject⟩, fun _ => rfl⟩
    · exact ⟨mutation, ⟨hle, hset ▸ hother, hobject⟩, id⟩

/-- A mutation that landed stays so. -/
lemma Sys.Landed.step (h : s.Landed n o) (hstep : s.step pool event = some (s', obs)) :
    s'.Landed n o := by
  obtain ⟨m, mutation, hsubmitted, hlanded⟩ := h
  obtain ⟨mutation', hsubmitted', hlanded'⟩ := hsubmitted.step hstep
  exact ⟨m, mutation', hsubmitted', hlanded' hlanded⟩

/-- A mutation that landed did so before, or lands in this step. -/
theorem Sys.Landed.of_step (hstep : s.step pool event = some (s', obs)) (h : s'.Landed n o) :
    s.Landed n o ∨ ∃ m mutation, event = .land m ∧ s.mutations[m]? = some mutation ∧
      mutation.object = o := by
  obtain ⟨m, mutation, ⟨hle, hmutation, hobject⟩, hlanded⟩ := h
  rcases step_mutations hstep with hsame | ⟨_, _, _, happend⟩ | ⟨m', mutation', hevent, hat, hset⟩
  · rw [hsame] at hmutation
    exact .inl ⟨m, mutation, ⟨hle, hmutation, hobject⟩, hlanded⟩
  · rcases append_cases (happend ▸ hmutation) with hold | ⟨-, hnew⟩
    · exact .inl ⟨m, mutation, ⟨hle, hold, hobject⟩, hlanded⟩
    · -- a mutation that was just submitted has not landed
      rw [mem_singleton.mp hnew] at hlanded
      cases hlanded
  · rcases set_cases (hset ▸ hmutation) with ⟨-, rfl⟩ | ⟨-, hold⟩
    · exact .inr ⟨m', mutation', hevent, hat, hobject⟩
    · exact .inl ⟨m, mutation, ⟨hle, hold, hobject⟩, hlanded⟩

/-- Mutations are only added. -/
lemma Sys.length_mutations_step (h : s.step pool event = some (s', obs)) :
    s.mutations.length ≤ s'.mutations.length := by
  rcases step_mutations h with hsame | ⟨_, _, _, happend⟩ | ⟨_, _, -, -, hset⟩
  · rw [hsame]
  · simp [happend]
  · simp [hset]

/-- A flush submits its settlements one after another and waits for each. -/
lemma Sys.Carried.step (h : s.Carried n f o) (hstep : s.step pool event = some (s', obs)) :
    s'.Carried n f o := by
  obtain ⟨hn, flush, hflush, hcarried⟩ := h
  refine ⟨hn.trans (length_mutations_step hstep), ?_⟩
  rcases step_flush hstep hflush with
    hsame | ⟨o', todo, conf, now, htodo, hwaiting, hmutations, hnew⟩ |
    ⟨m, mutation, hwaiting, hm, hlanded, hmutations, hnew⟩ | ⟨outcome, hnew⟩
  · refine ⟨flush, hsame, fun hopen => ?_⟩
    rcases hcarried hopen with hmem | ⟨m, hm, mutation, hsubmitted⟩ | hlanded
    · exact .inl hmem
    · obtain ⟨mutation', hsubmitted', -⟩ := hsubmitted.step hstep
      exact .inr (.inl ⟨m, hm, mutation', hsubmitted'⟩)
    · exact .inr (.inr (hlanded.step hstep))
  · -- the next settlement is submitted: the flush waits for it now
    refine ⟨_, hnew, fun hopen => ?_⟩
    rcases hcarried hopen with hmem | ⟨m, hm, -⟩ | hlanded
    · rw [htodo] at hmem
      rcases mem_cons.mp hmem with rfl | hmem
      · refine .inr (.inl ⟨_, rfl, ⟨o, conf, now, false⟩, hn, ?_, rfl⟩)
        rw [hmutations]
        exact List.getElem?_concat_length
      · exact .inl hmem
    · rw [hwaiting] at hm
      cases hm
    · exact .inr (.inr (hlanded.step hstep))
  · -- the flush hears of a mutation that landed
    refine ⟨_, hnew, fun hopen => ?_⟩
    rcases hcarried hopen with hmem | ⟨m', hm', mutation', hsubmitted⟩ | hlanded'
    · exact .inl hmem
    · rw [hwaiting] at hm'
      cases hm'
      have hsame : some mutation = some mutation' := hm.symm.trans hsubmitted.2.1
      cases hsame
      refine .inr (.inr ⟨m, mutation, ⟨hsubmitted.1, ?_, hsubmitted.2.2⟩, hlanded⟩)
      rw [hmutations]
      exact hm
    · exact .inr (.inr (hlanded'.step hstep))
  · exact ⟨_, hnew, nofun⟩

/-- What is known of a retry of scope `scope` at `key`, while flush `f` carries out the settlement
`o` that was made under `generation` when there were `n` mutations. -/
structure Track (scope : Scope) (key generation : String) (n f o : ℕ) (s : Sys) : Prop where
  retry : ∀ e, s.entry key = some e →
    e.scope = scope ∧ ∃ retry ∈ e.payload.retry, 0 < retry.count
  /-- Until some settlement of the scope has taken effect, the generation stays. -/
  flagged : s.generation scope = generation ∨ s.Flagged key
  object : ∃ object, s.objects[o]? = some object ∧ object.scope = scope ∧
    object.born = generation ∧ ∀ previous ∈ object.settlement.previous, previous = generation
  landed : s.Landed n o → s.Flagged key
  carried : s.Carried n f o

variable {scope : Scope}

/-- One step that keeps the retry out of the queue once it was revoked. -/
theorem Track.step {generation : String} (h : Track scope key generation n f o s)
    (hkeeping : KeepingStep pool key s label s') (hcreated : created key ∉ label.2) :
    Track scope key generation n f o s' := by
  obtain ⟨hstep, hkeeps⟩ := hkeeping
  have heffect := effect_of_step hstep.1
  obtain ⟨object, hobject, hscope, hborn, hprevious⟩ := h.object
  have hretry : ∀ e', s'.entry key = some e' →
      e'.scope = scope ∧ ∃ retry ∈ e'.payload.retry, 0 < retry.count := by
    intro e' hentry
    obtain ⟨e, he, rfl | ⟨now, op, -, hmoves⟩⟩ := heffect.entry hcreated hentry
    · exact h.retry _ he
    · obtain ⟨hsame, hretry, -⟩ := hmoves.identity
      rw [hsame, hretry]
      exact h.retry e he
  -- a settlement of the scope that takes effect revokes the retry
  have hflagged : s'.generation scope = s.generation scope ∧
      (∀ o object, settled o ∈ label.2 → s.objects[o]? = some object →
        object.scope ≠ scope) ∨ s'.Flagged key := by
    rcases heffect.generation scope with hsame | ⟨m, mutation, x, -, -, -, -, -, -, hentries⟩
    · exact .inl hsame
    · refine .inr fun e' hentry => ?_
      obtain ⟨e₁, hget, rfl⟩ := hentries key e' hentry
      obtain ⟨e, he, hmoves⟩ := entry_of_prepare .read hget
      obtain ⟨hsame, hretry, -⟩ := hmoves.identity
      obtain ⟨hscope₁, hcount⟩ := h.retry e he
      have := settleEntry_revokes x.settlement.reason mutation.now (e := e₁) (by rwa [hretry])
      rwa [hsame, hscope₁] at this
  obtain ⟨object', hobject', hscope', hborn', -, hprevious'⟩ :=
    heffect.recorded hstep.2 hobject (hborn ▸ hprevious)
  refine ⟨hretry, ?_, ⟨object', hobject', hscope'.trans hscope, hborn'.trans hborn, ?_⟩, ?_,
    h.carried.step hstep.1⟩
  · rcases hflagged with ⟨hsame, -⟩ | hflagged
    · rcases h.flagged with hgeneration | hold
      · exact .inl (hsame.trans hgeneration)
      · exact .inr (hold.step hstep.1 hkeeps hcreated)
    · exact .inr hflagged
  · rwa [hborn', hborn] at hprevious'
  · intro hlanded
    rcases hflagged with ⟨-, hnone⟩ | hflagged
    · refine Sys.Flagged.step ?_ hstep.1 hkeeps hcreated
      rcases Sys.Landed.of_step hstep.1 hlanded with hold | ⟨m, mutation, hevent, hm, rfl⟩
      · exact h.landed hold
      · -- the mutation takes effect under its own generation, so that is not the stored one
        obtain ⟨event, obs⟩ := label
        obtain rfl : event = .land m := hevent
        obtain ⟨x, hx, -, hobs⟩ := land_cases hstep.1 hm
        rw [hobject] at hx
        cases hx
        refine h.flagged.resolve_left fun hgeneration => hnone _ _ ?_ hobject hscope
        have heffective : object.settlement.previous.getD (s.generation object.scope) =
            s.generation object.scope := by
          cases hfirst : object.settlement.previous with
          | none => rfl
          | some previous =>
            rw [hscope, hgeneration]
            exact hprevious previous hfirst
        rw [hobs, (s.runSettle_cases mutation object).1, heffective, if_pos rfl]
        exact mem_singleton.mpr rfl
    · exact hflagged

/-! ## Generations never come back -/

/-- The generations of a scope: `past` holds those that were stored and are no longer. -/
structure Chain (scope : Scope) (past : Set String) (s : Sys) : Prop where
  current : s.generation scope ∉ past
  born : ∀ object ∈ s.objects, object.scope = scope →
    object.born ∈ insert (s.generation scope) past
  /-- A settlement whose generation was stored was made under a past one. -/
  spent : ∀ object ∈ s.objects, object.scope = scope →
    object.settlement.generation ∈ insert (s.generation scope) past → object.born ∈ past
  seen : ∀ g ∈ insert (s.generation scope) past,
    g = "" ∨ g ∈ s.objects.map (·.settlement.generation)
  unique : (s.objects.map (·.settlement.generation)).Nodup
  recorded : ∀ object ∈ s.objects, ∀ previous ∈ object.settlement.previous,
    previous = object.born

/-- No generation is past at the start. -/
lemma chain_init (scope : Scope) : Chain scope ∅ init :=
  ⟨by simp, nofun, nofun, by simp [init, generation], nodup_nil, nofun⟩

variable {past : Set String} {object : Object}

/-- A settlement takes effect under the generation it was made under only. -/
theorem Chain.born_of_effective (h : Chain scope past s) (hmem : object ∈ s.objects)
    (hpunctual : s.Punctual object)
    (heffective : object.settlement.previous.getD (s.generation object.scope) =
      s.generation object.scope) : object.born = s.generation object.scope := by
  cases hfirst : object.settlement.previous with
  | none => exact (hpunctual hfirst).symm
  | some previous =>
    rw [hfirst] at heffective
    rw [← h.recorded object hmem previous hfirst]
    exact heffective

/-- The objects of the next state keep `recorded`. -/
theorem Chain.recorded_step (h : Chain scope past s) (hstep : TimelyStep pool s label s') :
    ∀ object ∈ s'.objects, ∀ previous ∈ object.settlement.previous, previous = object.born := by
  have heffect := effect_of_step hstep.1
  intro object' hmem
  obtain ⟨i, hi⟩ := mem_iff_getElem?.mp hmem
  obtain ⟨old, new, hobjects, hold, hnew, -⟩ := heffect.objects
  by_cases hbound : i < s.objects.length
  · have hget : s.objects[i]? = some s.objects[i] := List.getElem?_eq_getElem hbound
    obtain ⟨x, hx, -, -, -, hrecorded⟩ :=
      heffect.recorded hstep.2 hget (h.recorded _ (mem_of_getElem? hget))
    rw [hi] at hx
    cases hx
    exact hrecorded
  · have hlength : old.length = s.objects.length := by simpa using congrArg List.length hold
    rw [hobjects, List.getElem?_append_right (by omega)] at hi
    intro previous hprevious
    rw [(hnew object' (mem_of_getElem? hi)).1] at hprevious
    cases hprevious

/-- One step: the generation of the scope stays, or becomes a past one for good. -/
theorem Chain.step (h : Chain scope past s) (hstep : TimelyStep pool s label s') :
    ∃ past', past ⊆ past' ∧ Chain scope past' s' ∧
      ∀ o object, settled o ∈ label.2 → s.objects[o]? = some object → object.scope = scope →
        s.generation scope ∈ past' := by
  have heffect := effect_of_step hstep.1
  obtain ⟨old, new, hobjects, hold, hnew, hnodup, hfresh⟩ := heffect.objects
  have hgenerations : s'.objects.map (·.settlement.generation) =
      s.objects.map (·.settlement.generation) ++ new.map (·.settlement.generation) := by
    rw [hobjects, map_append]
    congr 1
    simpa [ident, map_map, Function.comp_def] using congrArg (List.map (·.2.2)) hold
  have hunique : (s'.objects.map (·.settlement.generation)).Nodup := by
    rw [hgenerations, nodup_append]
    refine ⟨h.unique, hnodup, fun g hg g' hg' heq => (hfresh g' hg').2 (heq ▸ hg)⟩
  -- every settlement of the next state is an old one or was made in this step
  have horigin : ∀ object' ∈ s'.objects, object'.scope = scope →
      (∃ object ∈ s.objects, object.scope = scope ∧ object.born = object'.born ∧
        object.settlement.generation = object'.settlement.generation) ∨
      (object'.born = s.generation scope ∧
        object'.settlement.generation ∉ insert (s.generation scope) past ∧
        object'.settlement.generation ∉ s.objects.map (·.settlement.generation)) := by
    intro object' hmem hscope
    rw [hobjects] at hmem
    rcases mem_append.mp hmem with hmem | hmem
    · have hident : ident object' ∈ s.objects.map ident :=
        hold ▸ mem_map_of_mem hmem
      obtain ⟨object, hobject, heq⟩ := mem_map.mp hident
      simp only [ident, Prod.mk.injEq] at heq
      exact .inl ⟨object, hobject, heq.1.trans hscope, heq.2.1, heq.2.2⟩
    · obtain ⟨hne, hnot⟩ := hfresh _ (mem_map_of_mem hmem)
      refine .inr ⟨by rw [(hnew object' hmem).2, hscope], fun hseen => ?_, hnot⟩
      exact (h.seen _ hseen).elim hne hnot
  have hseen : ∀ g ∈ insert (s.generation scope) past,
      g = "" ∨ g ∈ s'.objects.map (·.settlement.generation) := by
    intro g hg
    rw [hgenerations]
    exact (h.seen g hg).imp_right (mem_append_left _)
  rcases heffect.generation scope with ⟨hsame, hnone⟩ |
    ⟨m, mutation, x, hlabel, hmutation, hx, hscope, heffective, hgeneration, -⟩
  · refine ⟨past, subset_rfl, ⟨?_, ?_, ?_, ?_, hunique, h.recorded_step hstep⟩,
      fun o object hobs hobject heq => absurd heq (hnone o object hobs hobject)⟩ <;> rw [hsame]
    · exact h.current
    · intro object' hmem hscope'
      rcases horigin object' hmem hscope' with ⟨object, hobject, hsc, hborn, -⟩ | ⟨hborn, -⟩
      · exact hborn ▸ h.born object hobject hsc
      · exact hborn ▸ mem_insert _ _
    · intro object' hmem hscope' hspent
      rcases horigin object' hmem hscope' with ⟨object, hobject, hsc, hborn, hgen⟩ | ⟨-, hnot, -⟩
      · exact hborn ▸ h.spent object hobject hsc (hgen ▸ hspent)
      · exact absurd hspent hnot
    · exact hseen
  · -- the settlement was made under the stored generation, which is past from now on
    have hxmem : x ∈ s.objects := mem_of_getElem? hx
    have hborn : x.born = s.generation scope := by
      rw [← hscope] at heffective ⊢
      have hevent : label.1 = .land m := congrArg Prod.fst hlabel
      have htimely : s.Timely (.land m) := hevent ▸ hstep.2
      exact h.born_of_effective hxmem (htimely mutation hmutation x hx) heffective
    have hnew' : x.settlement.generation ∉ insert (s.generation scope) past := fun hspent =>
      h.current (hborn ▸ h.spent x hxmem hscope hspent)
    refine ⟨insert (s.generation scope) past, subset_insert _ _,
      ⟨?_, ?_, ?_, ?_, hunique, h.recorded_step hstep⟩, fun _ _ _ _ _ => mem_insert _ _⟩ <;>
      rw [hgeneration]
    · exact hnew'
    · intro object' hmem hscope'
      rcases horigin object' hmem hscope' with ⟨object, hobject, hsc, hb, -⟩ | ⟨hb, -⟩
      · exact mem_insert_of_mem _ (hb ▸ h.born object hobject hsc)
      · exact mem_insert_of_mem _ (hb ▸ mem_insert _ _)
    · intro object' hmem hscope' hspent
      rcases horigin object' hmem hscope' with
        ⟨object, hobject, hsc, hb, hgen⟩ | ⟨-, hnot, hnot'⟩
      · rcases mem_insert_iff.mp hspent with heq | hspent
        · obtain rfl : object = x :=
            inj_on_of_nodup_map h.unique hobject hxmem (hgen.trans heq)
          exact hb ▸ hborn ▸ mem_insert _ _
        · exact mem_insert_of_mem _ (hb ▸ h.spent object hobject hsc (hgen ▸ hspent))
      · rcases mem_insert_iff.mp hspent with heq | hspent
        · exact absurd (heq ▸ mem_map_of_mem hxmem) hnot'
        · exact absurd hspent hnot
    · intro g hg
      rcases mem_insert_iff.mp hg with rfl | hg
      · refine .inr ?_
        rw [hgenerations]
        exact mem_append_left _ (mem_map_of_mem hxmem)
      · exact hseen g hg

/-! ## Runs -/

/-- The entry at the key is not written anew. -/
def Untouched (key : String) (labels : List (Event × List Obs)) : Prop :=
  ∀ label ∈ labels, Obs.created key ∉ label.2

/-- A call of `settle_retries` starts to track every retry that waits in its scopes. -/
theorem track_of_call {node reason : String} {targets : List (Scope × String)} {s₁ : Sys}
    (hcall : TimelyStep pool s (.settle node reason targets, obs) s₁) {target : Scope × String}
    (htarget : target ∈ targets) {e : Entry} (hentry : s.entry key = some e)
    (hscope : e.scope = target.1) (hretry : ∃ retry ∈ e.payload.retry, 0 < retry.count) :
    ∃ o, Track target.1 key (s.generation target.1) s.mutations.length s.flushes.length o s₁ := by
  obtain ⟨hstep, htimely⟩ := hcall
  have hextended := extended_settle s node reason targets
  have hcontains := contains_settle node reason s htarget
  obtain ⟨-, ⟨⟩⟩ := Option.ite_none_right_eq_some.mp hstep
  revert hextended hcontains
  generalize targets.foldl (setdefault node reason) s = s'
  intro hextended hcontains
  obtain ⟨o, ho⟩ := Dict.contains_iff.mp hcontains
  -- the node remembered no settlement of the scope, so this one is new
  rcases hextended.pending target.1 o ho with hold | ⟨hle, object, hobject, hobjscope⟩
  · rw [htimely target htarget] at hold
    cases hold
  · obtain ⟨new, hobjects, hnew, -⟩ := hextended.objects
    have hmem : object ∈ new := by
      rw [hobjects, List.getElem?_append_right hle] at hobject
      exact mem_of_getElem? hobject
    have hsame : (s'.startFlush node).entry key = some e :=
      (entry_congr hextended.doc key).trans hentry
    refine ⟨o, ⟨?_, .inl (generation_congr hextended.doc target.1), ?_, ?_, ?_⟩⟩
    · rw [hsame]
      rintro _ ⟨⟩
      exact ⟨hscope, hretry⟩
    · refine ⟨object, hobject, hobjscope, by rw [(hnew object hmem).2, hobjscope], ?_⟩
      rw [(hnew object hmem).1]
      exact nofun
    · rintro ⟨m, mutation, ⟨hm, hmutation, -⟩, -⟩
      rw [startFlush_mutations, hextended.mutations] at hmutation
      have := (List.getElem?_eq_some_iff.mp hmutation).1
      omega
    · refine ⟨by rw [startFlush_mutations, hextended.mutations],
        ⟨node, s'.remembered node, none, none⟩, ?_, fun _ => ?_⟩
      · rw [← hextended.flushes]
        exact List.getElem?_concat_length
      · refine .inl (mem_filterMap.mpr ⟨((node, target.1), o), ?_, if_pos rfl⟩)
        exact Dict.mem_items_iff.mpr ho

/-- When the flush is over, the retry is flagged. -/
theorem Track.flagged_of_finish {generation : String} (h : Track scope key generation n f o s)
    (hfinish : Step pool s (.finish f, obs) s') : s'.Flagged key := by
  have hstep := hfinish
  simp only [Step, Sys.step] at hstep
  split at hstep
  next node hflush =>
    cases hstep
    obtain ⟨-, flush, hflush', hcarried⟩ := h.carried
    rw [hflush] at hflush'
    cases hflush'
    rcases hcarried rfl with hmem | ⟨m, hm, -⟩ | hlanded
    · cases hmem
    · cases hm
    · exact (h.landed hlanded).step hfinish trivial (by simp)
  next => cases hstep

/-- A revoked retry is never claimed. -/
theorem Sys.Revoked.run {labels : List (Event × List Obs)} (h : s.Revoked key)
    (hrun : Trace.Run (Step pool) s labels s') (huntouched : Untouched key labels) :
    ∀ label ∈ labels, claimed key ∉ label.2 := by
  have hboth : s'.Revoked key ∧ ∀ label ∈ labels, claimed key ∉ label.2 := by
    refine hrun.history (P := fun s labels => s.Revoked key ∧
      ∀ label ∈ labels, claimed key ∉ label.2) ⟨h, by simp⟩ ?_
    intro s₁ done label s₂ hmem ih hstep
    exact ⟨ih.1.step hstep (huntouched label hmem),
      forall_mem_append.mpr ⟨ih.2, forall_mem_singleton.mpr (ih.1.not_claimed hstep)⟩⟩
  exact hboth.2

/-- A settlement under which another one of its scope has taken effect lands without effect. -/
theorem Chain.land_stale {m : ℕ} {mutation : Mutation} (h : Chain scope past s)
    (hmutation : s.mutations[m]? = some mutation)
    (hobject : s.objects[mutation.object]? = some object) (hscope : object.scope = scope)
    (hpast : object.born ∈ past) (hland : TimelyStep pool s (.land m, obs) s') :
    s'.doc = some (prepare mutation.conf false mutation.now s.doc) ∧ obs = [] := by
  obtain ⟨x, hx, hdoc, hobs⟩ := land_cases hland.1 hmutation
  rw [hobject] at hx
  cases hx
  obtain ⟨hrecord, ⟨heffective, -⟩ | ⟨hstale, hbody⟩⟩ := s.runSettle_cases mutation object
  · have hpunctual := hland.2 mutation hmutation object hobject
    have hborn := h.born_of_effective (mem_of_getElem? hobject) hpunctual heffective
    rw [hborn, hscope] at hpast
    exact absurd hpast h.current
  · refine ⟨by rw [hdoc, hbody], ?_⟩
    rw [hrecord, if_neg fun heq => hstale (Option.some.inj heq)] at hobs
    exact hobs

/-- Once a settlement of the scope has taken effect, the generation an earlier one was made under
is past. -/
theorem Chain.run {labels : List (Event × List Obs)} (h : Chain scope past s)
    (hobject : s.objects[o]? = some object) (hscope : object.scope = scope)
    (hrun : Trace.Run (TimelyStep pool) s labels s') :
    ∃ past' object', Chain scope past' s' ∧ s'.objects[o]? = some object' ∧
      object'.scope = scope ∧
      ∀ label ∈ labels, ∀ o', settled o' ∈ label.2 →
        ∃ x, s'.objects[o']? = some x ∧ (x.scope = scope → object'.born ∈ past') := by
  refine hrun.history (P := fun s labels => ∃ past' object', Chain scope past' s ∧
    s.objects[o]? = some object' ∧ object'.scope = scope ∧
    ∀ label ∈ labels, ∀ o', settled o' ∈ label.2 →
      ∃ x, s.objects[o']? = some x ∧ (x.scope = scope → object'.born ∈ past'))
    ⟨past, object, h, hobject, hscope, by simp⟩ ?_
  rintro s₁ done label s₂ - ⟨past₁, x₁, hchain, hx₁, hscope₁, hdone⟩ hstep
  have heffect := effect_of_step hstep.1
  have hkeep : ∀ (i : ℕ) (x : Object), s₁.objects[i]? = some x →
      ∃ x' : Object, s₂.objects[i]? = some x' ∧ x'.scope = x.scope ∧ x'.born = x.born := by
    intro i x hx
    obtain ⟨x', hx', hsc, hborn, -⟩ :=
      heffect.recorded hstep.2 hx (hchain.recorded x (mem_of_getElem? hx))
    exact ⟨x', hx', hsc, hborn⟩
  obtain ⟨past₂, hsub, hchain₂, hsettled⟩ := hchain.step hstep
  obtain ⟨x₂, hx₂, hscope₂, hborn₂⟩ := hkeep o x₁ hx₁
  refine ⟨past₂, x₂, hchain₂, hx₂, hscope₂.trans hscope₁, fun label' hlabel' o' ho' => ?_⟩
  rw [hborn₂]
  rcases mem_append.mp hlabel' with hlabel' | hlabel'
  · obtain ⟨x, hx, himp⟩ := hdone label' hlabel' o' ho'
    obtain ⟨x', hx', hsc, -⟩ := hkeep o' x hx
    exact ⟨x', hx', fun heq => hsub (himp (hsc.symm.trans heq))⟩
  · obtain rfl := mem_singleton.mp hlabel'
    obtain ⟨y, hy⟩ : ∃ y, s₁.objects[o']? = some y := heffect.settled_exists ho'
    obtain ⟨y', hy', hsc, -⟩ := hkeep o' y hy
    refine ⟨y', hy', fun heq => ?_⟩
    have hnow := hsettled o' y ho' hy (hsc.symm.trans heq)
    rcases mem_insert_iff.mp (hchain.born x₁ (mem_of_getElem? hx₁) hscope₁) with
      hborn | hborn
    · rw [hborn]
      exact hnow
    · exact hsub hborn

/-- With timely steps no cancellation is lost and none is repeated. A call of `settle_retries` at
`s` starts the flush `s.flushes.length`. Let a retry wait in one of the call's scopes at `s`, and
not be put back into the queue during the flush. When the flush finishes, it no longer waits, and
whatever happens afterwards, it is never claimed. A settlement made at `s` that lands after another
settlement of its scope has taken effect changes nothing beyond the maintenance that every transform
does. -/
theorem settlement_exact {pool : String} {labels : List (Event × List Obs)} {s s₁ : Sys}
    {node reason : String} {targets : List (Scope × String)} {obs : List Obs}
    (hrun : Trace.Run (TimelyStep pool) Sys.init labels s)
    (hcall : TimelyStep pool s (.settle node reason targets, obs) s₁) :
    (∀ target ∈ targets, ∀ key e, s.entry key = some e → e.scope = target.1 →
      e.state = .queued → (∃ retry ∈ e.payload.retry, 0 < retry.count) →
      ∀ during s₂ seen s₃, Trace.Run (KeepingStep pool key) s₁ during s₂ →
        Untouched key during → Step pool s₂ (.finish s.flushes.length, seen) s₃ →
        (∀ e', s₃.entry key = some e' → e'.state ≠ .queued) ∧
        ∀ later s₄, Trace.Run (Step pool) s₃ later s₄ → Untouched key later →
          ∀ label ∈ later, Obs.claimed key ∉ label.2) ∧
    ∀ o object, s.objects.length ≤ o → s₁.objects[o]? = some object →
      ∀ during s₂, Trace.Run (TimelyStep pool) s₁ during s₂ →
        (∃ label ∈ during, ∃ o' object', Obs.settled o' ∈ label.2 ∧
          s₂.objects[o']? = some object' ∧ object'.scope = object.scope) →
        ∀ m mutation seen s₃, s₂.mutations[m]? = some mutation → mutation.object = o →
          TimelyStep pool s₂ (.land m, seen) s₃ →
          s₃.doc = some (prepare mutation.conf false mutation.now s₂.doc) ∧ seen = [] := by
  constructor
  · intro target htarget key e hentry hscope _ hretry during s₂ seen s₃ hduring huntouched hfinish
    obtain ⟨o, htrack⟩ := track_of_call hcall htarget hentry hscope hretry
    have htrack₂ : Track target.1 key (s.generation target.1) s.mutations.length
        s.flushes.length o s₂ :=
      hduring.history (P := fun s' _ => Track target.1 key (s.generation target.1)
        s.mutations.length s.flushes.length o s') htrack
        fun _ _ label _ hmem htrack hstep => htrack.step hstep (huntouched label hmem)
    have hflagged := htrack₂.flagged_of_finish hfinish
    exact ⟨fun e' hentry' => (hflagged e' hentry').2,
      fun later s₄ hlater => Sys.Revoked.run (fun e' hentry' => (hflagged e' hentry').1) hlater⟩
  · rintro o object - hobject during s₂ hduring ⟨label, hlabel, o', x, hsettled, hx, hsame⟩
      m mutation seen s₃ hmutation rfl hland
    obtain ⟨past, hchain⟩ : ∃ past, Chain object.scope past s₁ :=
      (hrun.snoc hcall).invariant (P := fun s => ∃ past, Chain object.scope past s)
        (fun _ _ _ hs hstep => by
          obtain ⟨past, hchain⟩ := hs
          obtain ⟨past', -, hchain', -⟩ := hchain.step hstep
          exact ⟨past', hchain'⟩) ⟨∅, chain_init _⟩
    obtain ⟨past₂, object₂, hchain₂, hobject₂, hscope₂, hpast⟩ := hchain.run hobject rfl hduring
    obtain ⟨y, hy, himp⟩ := hpast label hlabel o' hsettled
    rw [hx] at hy
    cases hy
    exact hchain₂.land_stale hmutation hobject₂ hscope₂ (himp hsame) hland

section Runs

/-- The scope of the job, on any host. -/
private def backupScope : Scope := ⟨"backup", none⟩

/-- A pool of one slot. -/
private def ioConf : PoolConf := ⟨1, 10⟩

/-- A node enqueues the first retry of the job. -/
private def enqueueRetry (now : Time) : Event :=
  .request ⟨some ioConf, now, .enqueue ioConf ⟨"backup", "io", 1, 0, 60, "d"⟩ "k" {}
    (some ⟨none, false, 1, 5⟩) false⟩

/-- A retry waits when node `a` settles, and the flush carries the settlement out. -/
private def timelyRun : List Event :=
  [enqueueRetry 1, .settle "a" "succeeded" [(backupScope, "g1")], .submit 0 (some ioConf) 2,
    .land 0, .answer 0, .finish 0]

/-- The state after the first `n` events of that run. -/
private def timelyAt (n : ℕ) : Sys :=
  ((Sys.init.exec "io" (timelyRun.take n)).map Prod.fst).getD Sys.init

/-- Where no entry was revoked, none goes back to the queue. -/
private lemma calm_of_items
    (h : ∀ body ∈ s.doc, ∀ p ∈ body.entries.items, p.2.payload.retryCancelled = false)
    (key : String) (now : Time) (op : Op) : s.Calm key now op := by
  intro e hentry hrevoked
  obtain ⟨body, hdoc, hget⟩ := Option.bind_eq_some_iff.mp hentry
  have := h body hdoc (key, e) (Dict.mem_items_iff.mpr hget)
  rw [hrevoked.1] at this
  cases this

/-- In that run the retry no longer waits when the flush is over, and is never claimed. -/
theorem settlement_exact_finished :
    (timelyAt 1).entry "k" ≠ none ∧
      (∀ e, (timelyAt 6).entry "k" = some e → e.state ≠ .queued) ∧
      ∀ later s, Trace.Run (Step "io") (timelyAt 6) later s → Untouched "k" later →
        ∀ label ∈ later, Obs.claimed "k" ∉ label.2 := by
  have hrun : Trace.Run (TimelyStep "io") init ([] ++ [(enqueueRetry 1, [.created "k"])])
      (timelyAt 1) :=
    .snoc (.nil _) ⟨show _ = _ by decide +kernel, trivial⟩
  have hcall : TimelyStep "io" (timelyAt 1)
      (.settle "a" "succeeded" [(backupScope, "g1")], []) (timelyAt 2) :=
    ⟨show _ = _ by decide +kernel, show ∀ target ∈ [(backupScope, "g1")], _ by decide +kernel⟩
  have hsubmit : KeepingStep "io" "k" (timelyAt 2) (.submit 0 (some ioConf) 2, []) (timelyAt 3) :=
    ⟨⟨show _ = _ by decide +kernel, trivial⟩, trivial⟩
  have hland : KeepingStep "io" "k" (timelyAt 3) (.land 0, [.settled 0]) (timelyAt 4) := by
    refine ⟨⟨show _ = _ by decide +kernel, fun mutation _ object hobject _ => ?_⟩,
      fun _ _ _ _ => ?_⟩
    · have hborn : ∀ object ∈ (timelyAt 3).objects,
          (timelyAt 3).generation object.scope = object.born := by decide +kernel
      exact hborn object (mem_of_getElem? hobject)
    · exact calm_of_items (by decide +kernel) _ _ _
  have hanswer : KeepingStep "io" "k" (timelyAt 4) (.answer 0, []) (timelyAt 5) :=
    ⟨⟨show _ = _ by decide +kernel, trivial⟩, trivial⟩
  have hfinish : Step "io" (timelyAt 5) (.finish (timelyAt 1).flushes.length, []) (timelyAt 6) :=
    show _ = _ by decide +kernel
  have hentry : (timelyAt 1).entry "k" = some (newEntry ⟨"backup", "io", 1, 0, 60, "d"⟩ "k"
      (retryContext (newBody (some ioConf)) ⟨"backup", "io", 1, 0, 60, "d"⟩ {}
        (some ⟨none, false, 1, 5⟩)) 1) := by decide +kernel
  refine ⟨by rw [hentry]; simp, ?_⟩
  exact (settlement_exact hrun hcall).1 (backupScope, "g1") (mem_singleton.mpr rfl) "k" _
    hentry rfl rfl ⟨⟨1, 5⟩, rfl, Nat.one_pos⟩ _ _ _ _
    (.snoc (.snoc (.single hsubmit) hland) hanswer) (by simp [Untouched]) hfinish

/-- Node `a` settles, its mutation lands but times out for it, node `b` enqueues a retry, and node
`a` settles again with the object it still remembers. -/
def reusedRun : List Event :=
  [.settle "a" "succeeded" [(backupScope, "g1")], .submit 0 (some ioConf) 1, .land 0, .fail 0,
    enqueueRetry 2, .settle "a" "succeeded" [(backupScope, "g2")], .submit 1 (some ioConf) 3,
    .land 1, .answer 1, .finish 1]

/-- The mutation of node `a` has not run when node `b` settles and enqueues a retry. -/
def lateRun : List Event :=
  [.settle "a" "succeeded" [(backupScope, "g1")], .submit 0 (some ioConf) 1, .fail 0,
    .settle "b" "succeeded" [(backupScope, "g2")], .submit 1 (some ioConf) 2, .land 1, .answer 1,
    .finish 1, enqueueRetry 3, .land 0]

/-- In the first run the second call returns without an error, the retry that waited when it began
still waits and is claimed. In the second run the late mutation cancels the retry that was enqueued
after the newer settlement. -/
theorem settlement_lost :
    (Sys.init.exec "io" reusedRun).map (fun p => (p.1.flushes.map Flush.outcome,
        (p.1.entry "k").map Entry.state)) =
      some ([some false, some true], some .queued) ∧
    (Sys.init.exec "io" (reusedRun ++ [.request ⟨some ioConf, 4, .claim "b" "o" "k"⟩])).map
        Prod.snd = some [.settled 0, .created "k", .claimed "k"] ∧
    (Sys.init.exec "io" lateRun).map (fun p => (p.2, (p.1.entry "k").map Entry.state)) =
      some ([.settled 1, .created "k", .settled 0], some .cancelled) := by
  decide +kernel

end Runs

end Cronstable.Pool
