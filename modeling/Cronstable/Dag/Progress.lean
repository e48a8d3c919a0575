import Cronstable.Dag.Visit

/-!
# A pass never leaves a run stuck

After a pass that was given the item list of every task awaiting one, the run is over or something
is still under way: an entry is running or waits for its next attempt. A run whose remaining
entries are all pending would never be looked at again by anything but the clock, so this is what
keeps a DAG moving.

The argument follows the source. The claim loop is left only when a walk ended nothing or when the
declaration order lists every upstream first (`claimLoop_exit`; the count of live entries bounds
the rounds). In both cases the walk that came last saw, at each task, the upstreams as they are at
the end, and a task whose upstreams are done is not left pending (`walkTask_rests`). Along the
rank of the DAG every task is then done (`groupState_terminal`).

## Main results

* `claimLoop_exit`: the loop is left by its own test;
* `plan_progress`: the run is over or an entry is running or up for retry.
-/

namespace Cronstable.Dag

open List Dict

open Trace (Run)

variable {spec : DagSpec} {body body' : RunBody} {t : TaskSpec} {p q : Pass}
  (now : Time) (proc host : String)

/-! ## What a pass does to an entry -/

/-- The entry is owned by a process that works on it. -/
def TaskEntry.InFlight (e : TaskEntry) : Prop := e.state = .running ∧ e.proc ≠ none

variable {e : TaskEntry} {key : String}

/-- A pass ends an entry without a success or leaves it running, and in flight when it launched
it. It does not touch what is in flight. -/
theorem EntryStep.of_inPass {e' : TaskEntry} {ev : Event} (h : EntryStep spec body key e ev e')
    (hpass : ev.inPass = true) :
    ¬ e.InFlight ∧
      ((ev.endings = 1 ∧ e'.state.terminal = true ∧ e'.state ≠ .success) ∨
        (ev.endings = 0 ∧ e'.state = .running)) ∧
      (ev.launches ≠ [] → e'.InFlight) := by
  -- what is claimed was not running
  have hclaimed : ∀ {task : TaskSpec}, Claimable spec body task e → ¬ e.InFlight := by
    rintro task (⟨hstate, -⟩ | hstate) ⟨hrunning, -⟩ <;> rw [hstate] at hrunning <;>
      cases hrunning
  cases h with
  | settle _ _ _ _ _ _ _ hidle hterm hne =>
    exact ⟨fun h => h.2 (hidle h.1), .inl ⟨rfl, hterm, hne⟩, fun h => absurd rfl h⟩
  | park _ _ _ _ _ _ _ hclaim => exact ⟨hclaimed hclaim, .inr ⟨rfl, rfl⟩, fun h => absurd rfl h⟩
  | claim _ _ _ _ _ _ _ _ _ hclaim =>
    exact ⟨hclaimed hclaim, .inr ⟨rfl, rfl⟩, fun _ => ⟨rfl, nofun⟩⟩
  | poke _ _ _ _ _ _ _ _ _ hstate hproc =>
    exact ⟨fun h => h.2 hproc, .inr ⟨rfl, hstate⟩, fun _ => ⟨hstate, nofun⟩⟩
  | pid | release | finish | decided | recover => cases hpass

/-- The same for a document: an entry is as before, or it was rewritten as above. -/
theorem BodyStep.of_inPass {ev : Event} (h : BodyStep spec body ev body')
    (hpass : ev.inPass = true) (key : String) :
    body'.tasks.get? key = body.tasks.get? key ∨
      (∀ e, body.tasks.get? key = some e → ¬ e.InFlight) ∧
        ∃ e', body'.tasks.get? key = some e' ∧
          ((ev.endings = 1 ∧ e'.state.terminal = true ∧ e'.state ≠ .success) ∨
            (ev.endings = 0 ∧ e'.state = .running)) := by
  cases h with
  | @entry k e e' _ hget hstep =>
    by_cases hk : key = k
    · subst hk
      obtain ⟨hidle, hstate, -⟩ := hstep.of_inPass hpass
      refine .inr ⟨fun e₀ he₀ => ?_, e', by simp, hstate⟩
      rw [hget] at he₀
      exact Option.some.inj he₀ ▸ hidle
    · exact .inl (by simp [hk])
  | @hole task record i item now _ _ _ hget =>
    by_cases hk : key = instanceKey task.id i
    · subst hk
      refine .inr ⟨fun e₀ he₀ => ?_, missingEntry task i (some item) now, by simp,
        .inl ⟨rfl, rfl, fun h => by cases h⟩⟩
      rw [hget] at he₀
      cases he₀
    · exact .inl (by simp [hk])
  | recover | stamp => cases hpass

namespace Advances

section

variable (h : Advances spec p q)

include h

/-- A pass leaves an entry as it is, ends it without a success or leaves it running. -/
theorem entry_cases (key : String) :
    q.body.tasks.get? key = p.body.tasks.get? key ∨
      ∃ e, q.body.tasks.get? key = some e ∧
        (e.state.terminal = true ∧ e.state ≠ .success ∨ e.state = .running) := by
  obtain ⟨events, h⟩ := h
  refine h.run.history (P := fun b _ => b.tasks.get? key = p.body.tasks.get? key ∨
    ∃ e, b.tasks.get? key = some e ∧
      (e.state.terminal = true ∧ e.state ≠ .success ∨ e.state = .running)) (.inl rfl) ?_
  intro b _ ev b' hev hb hstep
  rcases hstep.of_inPass (h.inPass ev hev) key with heq | ⟨-, e', he', hstate⟩
  · rwa [heq]
  · exact .inr ⟨e', he', hstate.imp (fun hs => hs.2) (fun hs => hs.2)⟩

/-- A pass that launched something leaves an entry in flight. -/
theorem exists_inFlight (hp : p.result.launches = []) (hq : q.result.launches ≠ []) :
    ∃ key e, q.body.tasks.get? key = some e ∧ e.InFlight := by
  obtain ⟨events, h⟩ := h
  refine h.run.history (P := fun b done => done.flatMap Event.launches ≠ [] →
    ∃ key e, b.tasks.get? key = some e ∧ e.InFlight) (fun hne => absurd rfl hne) ?_ ?_
  · intro b done ev b' hev hb hstep hne
    by_cases hlaunch : ev.launches = []
    · -- an earlier launch is still in flight
      obtain ⟨key, e, he, hfl⟩ := hb (by simpa [hlaunch] using hne)
      rcases hstep.of_inPass (h.inPass ev hev) key with heq | ⟨hidle, -⟩
      · exact ⟨key, e, heq.trans he, hfl⟩
      · exact absurd hfl (hidle e he)
    · cases hstep with
      | @entry key e e' _ hget hentry =>
        exact ⟨key, e', by simp, (hentry.of_inPass (h.inPass ev hev)).2.2 hlaunch⟩
      | hole | recover | stamp => exact absurd rfl hlaunch
  · rwa [h.launches, hp, nil_append] at hq

/-- In a pass that ended nothing, whatever is terminal was so before. -/
theorem terminal_before (hended : q.result.ended = p.result.ended)
    (hget : q.body.tasks.get? key = some e) (hterm : e.state.terminal = true) :
    p.body.tasks.get? key = some e := by
  obtain ⟨events, h⟩ := h
  have hzero : ∀ ev ∈ events, ev.endings = 0 := by
    have hsum : (events.map Event.endings).sum = 0 := by
      have := h.ended
      omega
    intro ev hev
    exact sum_eq_zero_iff.mp hsum _ (mem_map_of_mem hev)
  refine h.run.history (P := fun b _ => ∀ e, b.tasks.get? key = some e →
    e.state.terminal = true → p.body.tasks.get? key = some e) (fun _ he _ => he) ?_ e hget hterm
  intro b _ ev b' hev hb hstep e' he' hterm'
  rcases hstep.of_inPass (h.inPass ev hev) key with heq | ⟨-, e'', he'', hstate⟩
  · exact hb e' (heq ▸ he') hterm'
  · rw [he'] at he''
    cases he''
    rcases hstate with ⟨hone, -⟩ | ⟨-, hrunning⟩
    · rw [hzero ev hev] at hone
      cases hone
    · rw [hrunning] at hterm'
      cases hterm'

lemma launches_nil (hq : q.result.launches = []) : p.result.launches = [] := by
  obtain ⟨events, h⟩ := h
  rw [h.launches] at hq
  exact (append_eq_nil_iff.mp hq).1

/-- Without a launch nothing is deferred. -/
theorem deferred_eq (hp : p.result.deferred = false) (hq : q.result.launches = []) :
    q.result.deferred = false := by
  obtain ⟨events, h⟩ := h
  cases hd : q.result.deferred with
  | false => rfl
  | true =>
    rcases h.deferred hd with hp' | hne
    · rw [hp] at hp'
      cases hp'
    · exact absurd hq hne

lemma ended_le : p.result.ended ≤ q.result.ended := by
  obtain ⟨events, h⟩ := h
  have := h.ended
  omega

end

end Advances

/-! ## The loop is left by its own test -/

/-- How many entries are not terminal. -/
def RunBody.liveCount (body : RunBody) : ℕ := body.tasks.values.countP fun e => !e.state.terminal

section

variable (hspec : ValidSpec spec)

include hspec

/-- A pass ends live entries only. -/
theorem Advances.liveCount_le (h : Advances spec p q)
    (hwf : WF spec p.body) :
    q.body.liveCount + q.result.ended ≤ p.body.liveCount + p.result.ended := by
  obtain ⟨events, h⟩ := h
  have hpay := h.run.measure (P := WF spec) RunBody.liveCount Event.endings
    (fun _ _ _ hb hstep => hb.step hspec hstep) ?_ hwf
  · have := h.ended
    omega
  intro b ev b' hev hb hstep
  have hpass := h.inPass ev hev
  cases hstep with
  | @entry key e e' _ hget hentry =>
    have hlive : e.state.terminal = false := (Bool.or_eq_false_iff.mp hentry.live).1
    have hcount := countP_values_set hget (fun e => !e.state.terminal) e'
    obtain ⟨-, hstate, -⟩ := hentry.of_inPass hpass
    simp only [RunBody.liveCount, RunBody.setEntry_tasks]
    rcases hstate with ⟨hone, hterm, -⟩ | ⟨hzero, hrunning⟩
    · simp only [hlive, hterm, Bool.not_false, Bool.not_true, if_true, Bool.false_eq_true,
        if_false] at hcount
      omega
    · simp only [hlive, hrunning, TaskState.terminal_ctor, Bool.not_false, if_true] at hcount
      omega
  | hole _ _ hrecord hitem hget =>
    obtain ⟨e, he⟩ := hb.no_hole hrecord (List.getElem?_eq_some_iff.mp hitem).1
    rw [hget] at he
    cases he
  | recover | stamp => cases hpass

/-- The claim loop ends with a walk that ended nothing, unless the declaration order makes a second
walk unnecessary: the fuel does not run out. -/
theorem claimLoop_exit {fuel : ℕ} (hwf : WF spec p.body)
    (hfuel : p.body.liveCount < fuel) :
    ∃ p', Advances spec p p' ∧
      claimLoop spec now proc host fuel p.result.ended (walkAndClaim spec now proc host p) =
        walkAndClaim spec now proc host p' ∧
      ((walkAndClaim spec now proc host p').result.ended = p'.result.ended ∨
        upstreamFirst spec = none) := by
  induction fuel generalizing p with
  | zero => omega
  | succ fuel ih =>
    have hwalk := walkAndClaim_advances now proc host hspec p
    unfold claimLoop
    split
    next hmore =>
      cases horder : upstreamFirst spec with
      | none => exact ⟨p, .refl p, rfl, .inr rfl⟩
      | some order =>
        -- the walk ended an entry, so fewer are left to end
        have hsettle := settleDependents_advances now hspec
          (fun t ht => mem_tasks_of_upstreamFirst hspec horder ht)
          (walkAndClaim spec now proc host p)
        have hnext := hwalk.trans hsettle
        have hcount := hnext.liveCount_le hspec hwf
        have hle := hsettle.ended_le
        obtain ⟨p', hp', hexit⟩ := ih (hnext.wf hspec hwf) (by omega)
        rw [horder] at hexit
        exact ⟨p', hnext.trans hp', hexit⟩
    next hdone =>
      exact ⟨p, .refl p, rfl, .inl (le_antisymm (not_lt.mp hdone) hwalk.ended_le)⟩

/-- The same for the whole claim half. -/
theorem propagateAndClaim_exit (hwf : WF spec p.body) :
    ∃ p', Advances spec p p' ∧
      propagateAndClaim spec now proc host p = walkAndClaim spec now proc host p' ∧
      ((walkAndClaim spec now proc host p').result.ended = p'.result.ended ∨
        upstreamFirst spec = none) := by
  refine claimLoop_exit now proc host hspec hwf ?_
  have hle : p.body.liveCount ≤ p.body.tasks.values.length := countP_le_length
  rw [values, length_map] at hle
  rw [claimFuel]
  omega

/-! ## The last walk -/

/-- A visit that deferred nothing leaves no entry of a task pending whose upstreams are done, unless
the task awaits its list. -/
private lemma walkTask_ne_pending (hwf : WF spec p.body)
    (ht : t ∈ spec.tasks)
    (hdeferred : (walkTask spec now proc host p t).result.deferred = false)
    (hverdict : depsVerdict spec p.body t ≠ .wait)
    (hsource : ∀ exp, t.expand = some exp → p.body.mapped.contains t.id = false →
      effectiveState spec p.body exp.fromTask = .success →
      ∀ e, p.body.tasks.get? t.id = some e → e.state ≠ .pending)
    {key : String} (hown : Owns t.id key)
    (hget : (walkTask spec now proc host p t).body.tasks.get? key = some e) :
    e.state ≠ .pending := by
  intro hpending
  by_cases hexpanded : t.expand.isSome = true → p.body.mapped.contains t.id = true
  · have hrests := walkTask_rests hspec hwf ht hexpanded hdeferred hown hget
    simp only [Rests, hpending] at hrests
    exact hverdict hrests
  · -- a placeholder is held pending by an open upstream or by a source that succeeded
    obtain ⟨hexp, hnone⟩ : t.expand.isSome = true ∧ p.body.mapped.contains t.id = false := by
      simpa using hexpanded
    have htouch := (walkTask_touches now proc host hspec ht p).advances
    obtain ⟨exp, hexp⟩ := Option.isSome_iff_exists.mp hexp
    obtain ⟨e₀, he₀⟩ := hwf.entry t ht
    obtain ⟨-, hdep, -⟩ := hspec.expand t ht exp hexp
    obtain ⟨u, hu, hid⟩ := hspec.known t ht _ hdep
    have hpresent : p.body.tasks.contains exp.fromTask = true :=
      Dict.contains_iff.mpr (hid ▸ hwf.entry u hu)
    have hkey : key = t.id := by
      cases ((htouch.wf hspec hwf).slot hspec ht hown hget).2 with
      | plain hkey | waiting hkey | group hkey => exact hkey
      | inst _ _ hrec =>
        rw [Dict.contains, ← htouch.mapped_eq, hrec] at hnone
        cases hnone
    rw [hkey, walkTask_of_placeholder hexp hnone] at hget
    obtain ⟨hpending₀, -, -, hfailure, hskipped⟩ :=
      held_of_pending hexp hpresent he₀ hget hpending
    have hdone := terminal_of_depsVerdict hverdict hdep hpresent
    rw [effectiveState_eq] at hfailure hskipped
    refine hsource exp hexp hnone ?_ e₀ he₀ hpending₀
    rw [effectiveState_eq]
    exact TaskState.eq_success hdone hfailure hskipped

/-- A walk over other tasks leaves the keys of a task alone. -/
private lemma foldl_walkTask_frame {l : List TaskSpec}
    (hl : ∀ u ∈ l, u ∈ spec.tasks) (ht : t ∈ spec.tasks) (hne : ∀ u ∈ l, u.id ≠ t.id) (p : Pass)
    (hown : Owns t.id key) :
    (l.foldl (walkTask spec now proc host) p).body.tasks.get? key = p.body.tasks.get? key := by
  refine List.foldlRecOn (motive := fun q : Pass =>
    q.body.tasks.get? key = p.body.tasks.get? key) l _ rfl ?_
  intro q hq u hu
  rw [(walkTask_touches now proc host hspec (hl u hu) q).frame key fun h => hne u hu ?_, hq]
  exact h.id_eq (hspec.no_hash u (hl u hu)) (hspec.no_hash t ht) hown

omit hspec in
/-- A group that is done was so before when its done entries were there in a document with the same
fan-outs. -/
private lemma groupState_eq_of_terminal {id : String} (hmapped : body'.mapped = body.mapped)
    (hstate : ∀ key e, Owns id key → body'.tasks.get? key = some e → e.state.terminal = true →
      body.tasks.get? key = some e)
    (h : (mappedGroupState body' id).terminal = true) :
    mappedGroupState body id = mappedGroupState body' id := by
  -- a missing entry reads as pending, so a terminal one is present
  have hkey : ∀ key, Owns id key → (stateOrPending body'.tasks key).terminal = true →
      stateOrPending body.tasks key = stateOrPending body'.tasks key := by
    intro key hown hterm
    cases hget : body'.tasks.get? key with
    | none =>
      rw [stateOrPending, hget] at hterm
      cases hterm
    | some e =>
      rw [stateOrPending_of_get? hget] at hterm ⊢
      rw [stateOrPending_of_get? (hstate key e hown hget hterm)]
  by_cases hrec : ∃ record, body.mapped.get? id = some (some record)
  · obtain ⟨record, hrec⟩ := hrec
    have hrec' : body'.mapped.get? id = some (some record) := hmapped ▸ hrec
    rw [mappedGroupState_terminal_of_record hrec'] at h
    rw [mappedGroupState_of_record hrec, mappedGroupState_of_record hrec', foldMappedInstances,
      foldMappedInstances]
    refine congrArg (fun states => (reduceStates states false false).outcome) ?_
    exact map_congr_left fun i hi =>
      hkey _ (.inr ⟨i, rfl⟩) (h i (mem_range.mp hi))
  · push Not at hrec
    rw [mappedGroupState_of_no_record (hmapped ▸ hrec)] at h
    rw [mappedGroupState_of_no_record hrec, mappedGroupState_of_no_record (hmapped ▸ hrec)]
    exact hkey id (.inl rfl) h

/-- The last walk of a pass, from `p` to `q`, comes to the task `t` as the pass `v`. -/
structure VisitedAt (spec : DagSpec) (now : Time) (proc host : String) (p q : Pass) (t : TaskSpec)
    (v : Pass) : Prop where
  reached : Advances spec p v
  visit : Advances spec v (walkTask spec now proc host v t)
  rest : Advances spec (walkTask spec now proc host v t) q
  /-- The other visits leave the entries of the task alone. -/
  frame : ∀ key, Owns t.id key →
    q.body.tasks.get? key = (walkTask spec now proc host v t).body.tasks.get? key
  /-- An upstream that is done at the end was so at the visit. -/
  upstream : ∀ dep ∈ t.dependsOn, (mappedGroupState q.body dep).terminal = true →
    mappedGroupState v.body dep = mappedGroupState q.body dep
  deferred : q.result.deferred = false →
    (walkTask spec now proc host v t).result.deferred = false

/-- Every task is visited in the last walk, with the upstreams as they are at its end: the walk
ended nothing, or it comes to the upstreams of a task first. -/
theorem walkAndClaim_visit
    (hexit : (walkAndClaim spec now proc host p).result.ended = p.result.ended ∨
      upstreamFirst spec = none)
    (ht : t ∈ spec.tasks) :
    ∃ v, VisitedAt spec now proc host p (walkAndClaim spec now proc host p) t v := by
  -- cut the walk at the visit of this task
  obtain ⟨before, after, hsplit⟩ := append_of_mem ht
  have hnodup := hspec.nodup
  rw [hsplit, map_append, nodup_append] at hnodup
  have hbefore : ∀ u ∈ before, u ∈ spec.tasks := fun u hu => by simp [hsplit, hu]
  have hafter : ∀ u ∈ after, u ∈ spec.tasks := fun u hu => by simp [hsplit, hu]
  have hafterNe : ∀ u ∈ after, u.id ≠ t.id := fun u hu heq =>
    (nodup_cons.mp hnodup.2.1).1 (heq ▸ mem_map_of_mem hu)
  set v := before.foldl (walkTask spec now proc host) p
  have hresult : walkAndClaim spec now proc host p =
      after.foldl (walkTask spec now proc host) (walkTask spec now proc host v t) := by
    rw [walkAndClaim, hsplit, foldl_append, foldl_cons]
  rw [hresult] at hexit ⊢
  have hreached : Advances spec p v :=
    .foldl (fun r u hu => (walkTask_touches now proc host hspec (hbefore u hu) r).advances) p
  have hvisit := (walkTask_touches now proc host hspec ht v).advances
  have hrest : Advances spec (walkTask spec now proc host v t)
      (after.foldl (walkTask spec now proc host) (walkTask spec now proc host v t)) :=
    .foldl (fun r u hu => (walkTask_touches now proc host hspec (hafter u hu) r).advances) _
  refine ⟨v, hreached, hvisit, hrest,
    fun key hown => foldl_walkTask_frame now proc host hspec hafter ht hafterNe _ hown,
    fun dep hdep hdone => ?_, ?_⟩
  · obtain ⟨u, hu, rfl⟩ := hspec.known t ht dep hdep
    refine groupState_eq_of_terminal (hvisit.trans hrest).mapped_eq
      (fun k e hk he hterm => ?_) hdone
    rcases hexit with hended | horder
    · refine (hvisit.trans hrest).terminal_before ?_ he hterm
      have := hreached.ended_le
      have := (hvisit.trans hrest).ended_le
      omega
    · -- in order, the upstreams were visited before this task and not again
      have hlisted : listedInOrder spec.tasks [] = true := by
        unfold upstreamFirst at horder
        split at horder
        next h => exact h
        next => cases horder
      obtain ⟨w, hw, hid⟩ : ∃ w ∈ before, w.id = u.id :=
        (listedInOrder_iff.mp hlisted _ _ _ hsplit _ hdep).resolve_left (by simp)
      have hne : ∀ w' ∈ t :: after, w'.id ≠ u.id := fun w' hw' heq =>
        hnodup.2.2 _ (mem_map_of_mem hw) _
          (map_cons ▸ mem_map_of_mem hw') (hid.trans heq.symm)
      have hsame := foldl_walkTask_frame now proc host hspec
        (l := t :: after) (forall_mem_cons.mpr ⟨ht, hafter⟩) hu hne v hk
      exact hsame.symm.trans he
  · refine List.foldlRecOn (motive := fun r : Pass => r.result.deferred = false →
      (walkTask spec now proc host v t).result.deferred = false) after _ id ?_
    intro r hr u _ hdeferred
    exact hr (walkTask_deferred hdeferred)

/-- A task that its upstreams let go at the end was let go at its visit, with the same verdict. -/
theorem VisitedAt.depsVerdict_eq (ht : t ∈ spec.tasks) {v : Pass}
    (h : VisitedAt spec now proc host p q t v) (hwf : WF spec p.body)
    (hverdict : depsVerdict spec q.body t ≠ .wait) :
    depsVerdict spec v.body t = depsVerdict spec q.body t := by
  have hwfv := h.reached.wf hspec hwf
  have hwfq := (h.visit.trans h.rest).wf hspec hwfv
  refine depsVerdict_of_groups fun dep hdep => ?_
  obtain ⟨u, hu, rfl⟩ := hspec.known t ht dep hdep
  have hpresent := contains_iff.mpr (hwfq.entry u hu)
  exact ⟨(contains_iff.mpr (hwfv.entry u hu)).trans hpresent.symm,
    h.upstream _ hdep (terminal_of_depsVerdict hverdict hdep hpresent)⟩

/-- The last walk of a pass leaves no task pending whose upstreams are done at its end. -/
private lemma walkAndClaim_ne_pending (hwf : WF spec p.body)
    (hdeferred : p.result.deferred = false)
    (hlaunches : (walkAndClaim spec now proc host p).result.launches = [])
    (hexit : (walkAndClaim spec now proc host p).result.ended = p.result.ended ∨
      upstreamFirst spec = none)
    (hsource : ∀ q, Advances spec p q → ∀ t ∈ spec.tasks, ∀ exp, t.expand = some exp →
      q.body.mapped.contains t.id = false → effectiveState spec q.body exp.fromTask = .success →
      ∀ e, q.body.tasks.get? t.id = some e → e.state ≠ .pending) (ht : t ∈ spec.tasks)
    (hverdict : depsVerdict spec (walkAndClaim spec now proc host p).body t ≠ .wait)
    (hown : Owns t.id key)
    (hget : (walkAndClaim spec now proc host p).body.tasks.get? key = some e) :
    e.state ≠ .pending := by
  obtain ⟨v, hv⟩ := walkAndClaim_visit now proc host hspec hexit ht
  have hnil := hv.rest.launches_nil hlaunches
  have hthen : depsVerdict spec v.body t ≠ .wait := by
    rw [hv.depsVerdict_eq now proc host hspec ht hwf hverdict]
    exact hverdict
  rw [hv.frame key hown] at hget
  have hnone := hv.reached.deferred_eq hdeferred (hv.visit.launches_nil hnil)
  exact walkTask_ne_pending now proc host hspec (hv.reached.wf hspec hwf) ht
    (hv.visit.deferred_eq hnone hnil) hthen (hsource v hv.reached t ht) hown hget

/-! ## Along the rank of the DAG -/

/-- When no task with its upstreams done has a pending entry and nothing is under way, every task
is done. -/
theorem groupState_terminal (hwf : WF spec body)
    (hmoved : ∀ t ∈ spec.tasks, depsVerdict spec body t ≠ .wait → ∀ key e, Owns t.id key →
      body.tasks.get? key = some e → e.state ≠ .pending)
    (hstill : ∀ key e, body.tasks.get? key = some e →
      e.state ≠ .running ∧ e.state ≠ .upForRetry)
    (t : TaskSpec) (ht : t ∈ spec.tasks) : (mappedGroupState body t.id).terminal = true := by
  obtain ⟨rank, hrank⟩ := hspec.ranked
  -- the upstreams of a task have a smaller rank
  induction hn : rank t.id using Nat.strong_induction_on generalizing t with
  | h n ih =>
    have hverdict : depsVerdict spec body t ≠ .wait := by
      refine depsVerdict_ne_wait fun dep hdep => ?_
      obtain ⟨u, hu, rfl⟩ := hspec.known t ht dep hdep
      exact ih _ (hn ▸ hrank t ht _ hdep) u hu rfl
    have hentry : ∀ key e, Owns t.id key → body.tasks.get? key = some e →
        e.state ≠ .expanded → e.state.terminal = true := by
      intro key e hown he hexpanded
      have hpending := hmoved t ht hverdict key e hown he
      obtain ⟨hrunning, hretry⟩ := hstill key e he
      have hknown := hwf.recognised key e he
      cases hs : e.state with
      | unrecognised raw => exact absurd hs (hknown raw)
      | _ => simp_all
    cases hrec : body.mapped.get? t.id with
    | none =>
      obtain ⟨e, he⟩ := hwf.entry t ht
      rw [mappedGroupState_of_no_record (by simp [hrec]), stateOrPending_of_get? he]
      refine hentry _ e (.inl rfl) he fun hexpanded => ?_
      cases (hwf.slot hspec ht (.inl rfl) he).2 with
      | plain _ _ _ hs | inst _ _ _ _ _ _ hs => exact hs hexpanded
      | waiting _ _ _ _ hs => rw [hexpanded] at hs; rcases hs with hs | ⟨hs, -⟩ <;> cases hs
      | group _ _ _ hcontains =>
        rw [Dict.contains, hrec] at hcontains
        cases hcontains
    | some r =>
      obtain ⟨-, -, -, -, record, rfl, hall⟩ := hwf.recorded _ _ hrec
      rw [mappedGroupState_terminal_of_record hrec]
      intro i hi
      obtain ⟨e, he⟩ := hall i hi
      rw [stateOrPending_of_get? he]
      refine hentry _ e (.inr ⟨i, rfl⟩) he fun hexpanded => ?_
      have hne : instanceKey t.id i ≠ t.id := instanceKey_ne (hspec.no_hash t ht) i
      cases (hwf.slot hspec ht (.inr ⟨i, rfl⟩) he).2 with
      | plain hkey | waiting hkey | group hkey => exact hne hkey
      | inst _ _ _ _ _ _ hs => exact hs hexpanded

omit hspec in
/-- A document whose tasks are all done has nothing that holds the run open. -/
theorem not_holdsOpen (hwf : WF spec body) (h : (mappedGroupState body t.id).terminal = true) :
    ¬ HoldsOpen body t := by
  unfold HoldsOpen
  cases hrec : body.mapped.get? t.id with
  | none =>
    rintro ⟨e, he, hopen⟩
    rw [mappedGroupState_of_no_record (by simp [hrec]), stateOrPending_of_get? he, hopen] at h
    cases h
  | some r =>
    obtain ⟨-, -, -, -, record, rfl, -⟩ := hwf.recorded _ _ hrec
    rintro ⟨i, hi, hopen⟩
    rw [mappedGroupState_terminal_of_record hrec] at h
    rw [h i hi] at hopen
    cases hopen

/-! ## The pass -/

/-- Something is under way: an entry is running or waits for its next attempt. -/
def UnderWay (body : RunBody) : Prop :=
  ∃ key e, body.tasks.get? key = some e ∧ (e.state = .running ∨ e.state = .upForRetry)

omit hspec in
lemma not_underWay : ¬ UnderWay body ↔ ∀ key e, body.tasks.get? key = some e →
    e.state ≠ .running ∧ e.state ≠ .upForRetry := by
  simp [UnderWay, not_or]

/-- Every task awaiting its list was given one. -/
def ListsSupplied (spec : DagSpec) (body : RunBody) (expansions : Expansions) : Prop :=
  ∀ id source key, (id, source, key) ∈ tasksAwaitingExpansion spec body →
    ∃ items, expansions.get? id = some (some items)

variable {expansions : Expansions}

/-- With every list supplied, no placeholder is pending over a source that succeeded. -/
private lemma source_open (hwf : WF spec body)
    (hopen : body.terminalRun = false) (hlists : ListsSupplied spec body expansions)
    (hp : p = applyExpansions spec expansions now { body }) (hq : Advances spec p q)
    (ht : t ∈ spec.tasks) {exp : ExpandSpec} (hexp : t.expand = some exp)
    (hnone : q.body.mapped.contains t.id = false)
    (hsource : effectiveState spec q.body exp.fromTask = .success)
    (he : q.body.tasks.get? t.id = some e) : e.state ≠ .pending := by
  intro hpending
  obtain ⟨-, hdep, hplain⟩ := hspec.expand t ht exp hexp
  obtain ⟨u, hu, hid⟩ := hspec.known t ht _ hdep
  have huplain := hplain u hu hid
  have heffect : ∀ v ∈ spec.tasks, ExpandEffect spec now expansions body p.body v := fun v hv =>
    hp ▸ applyExpansions_task hspec expansions now { body } hv
  -- neither a success nor a pending entry is made by a pass
  have hkeep : ∀ {key : String} {e : TaskEntry}, q.body.tasks.get? key = some e →
      e.state = .success ∨ e.state = .pending → p.body.tasks.get? key = some e := by
    intro key e he hstate
    rcases hq.entry_cases key with heq | ⟨e', he', hnew⟩
    · rwa [heq] at he
    · rw [he] at he'
      cases he'
      rcases hstate with hs | hs <;> rw [hs] at hnew <;> simp at hnew
  have hsucc : effectiveState spec body exp.fromTask = .success := by
    have hunmapped : ∀ b : RunBody, WF spec b → b.mapped.get? u.id = none := by
      intro b hb
      cases hrec : b.mapped.get? u.id with
      | none => rfl
      | some r =>
        obtain ⟨v, hv, hvid, hsome, -⟩ := hb.recorded _ _ hrec
        rw [hspec.eq_of_id hv hu hvid, huplain] at hsome
        cases hsome
    have hwfq : WF spec q.body := by
      refine hq.wf hspec ?_
      rw [hp]
      exact hwf.expand hspec expansions now
    rw [effectiveState_eq, ← hid] at hsource ⊢
    rw [mappedGroupState_of_no_record (by simp [hunmapped _ hwfq])] at hsource
    rw [mappedGroupState_of_no_record (by simp [hunmapped _ hwf])]
    obtain ⟨eu, heu⟩ := hwfq.entry u hu
    rw [stateOrPending_of_get? heu] at hsource
    have hbefore := hkeep heu (.inl hsource)
    rw [((heffect u hu).sameTask (.inl huplain)).2 _ (.inl rfl)] at hbefore
    rwa [stateOrPending_of_get? hbefore]
  have hbefore := hkeep he (.inr hpending)
  rw [Dict.contains, hq.mapped_eq, ← Dict.contains] at hnone
  cases heffect t ht with
  | same hsame hnot hcap =>
    rw [hsame.2 _ (.inl rfl)] at hbefore
    have hunrecorded : body.mapped.contains t.id = false := by
      rwa [Dict.contains, hsame.1, ← Dict.contains] at hnone
    -- the task was awaiting its list, so the list was used
    have hawaiting : (t.id, exp.fromTask, exp.key) ∈ tasksAwaitingExpansion spec body := by
      rw [tasksAwaitingExpansion, hopen]
      refine mem_filterMap.mpr ⟨t, ?_, ?_⟩
      · exact mem_filter.mpr ⟨ht, by simp [hexp]⟩
      · simp [hexp, hunrecorded, hbefore, hpending, hsucc]
    obtain ⟨items, hitems⟩ := hlists _ _ _ hawaiting
    by_cases hlen : items.length ≤ maxMappedItems
    · exact hnot items hitems ⟨exp, hexp, hunrecorded, hsucc, hlen⟩
    · exact hcap items hitems ⟨⟨exp, hexp, hunrecorded, hsucc, by simp⟩, not_le.mp hlen, e,
        hbefore, hpending⟩
  | capped _ _ _ _ _ _ _ hentry =>
    rw [hentry] at hbefore
    cases hbefore
    cases hpending
  | recorded _ _ _ hmapped =>
    rw [Dict.contains, hmapped] at hnone
    cases hnone

/-- The whole pass without its pre-scan: the run is over or something is under way, and something
is when launches were deferred. -/
private lemma fullPlan_progress (hwf : WF spec body)
    (hopen : body.terminalRun = false) (hlists : ListsSupplied spec body expansions) :
    ((fullPlan spec now proc host expansions body).body.terminalRun = true ∨
        UnderWay (fullPlan spec now proc host expansions body).body) ∧
      ((fullPlan spec now proc host expansions body).result.deferred = true →
        UnderWay (fullPlan spec now proc host expansions body).body) := by
  set p := applyExpansions spec expansions now { body } with hp
  obtain ⟨hpLaunches, hpDeferred, -⟩ : p.result.launches = [] ∧ p.result.deferred = false ∧ _ :=
    applyExpansions_result spec expansions now { body }
  have hwfp : WF spec p.body := hwf.expand hspec expansions now
  obtain ⟨p', hp', hloop, hexit⟩ := propagateAndClaim_exit now proc host hspec hwfp
  set q := propagateAndClaim spec now proc host p with hq
  have hpq : Advances spec p q := propagateAndClaim_advances now proc host hspec p
  have hwfq : WF spec q.body := hpq.wf hspec hwfp
  -- a launch is in flight at the end
  have hlaunched : q.result.launches ≠ [] → UnderWay q.body := by
    intro hne
    obtain ⟨key, e, he, hrunning, -⟩ := hpq.exists_inFlight hpLaunches hne
    exact ⟨key, e, he, .inl hrunning⟩
  have hfull : fullPlan spec now proc host expansions body = maybeTerminalise spec q := rfl
  obtain ⟨htasks, -⟩ := maybeTerminalise_tasks spec q
  have hunder : UnderWay q.body → UnderWay (maybeTerminalise spec q).body := by
    rintro ⟨key, e, he, hstate⟩
    exact ⟨key, e, htasks ▸ he, hstate⟩
  rw [hfull]
  refine ⟨?_, fun hd => hunder ?_⟩
  · by_cases hway : UnderWay q.body
    · exact .inr (hunder hway)
    left
    have hnil : q.result.launches = [] := not_not.mp fun hne => hway (hlaunched hne)
    have hp'nil : p'.result.launches = [] :=
      (walkAndClaim_advances now proc host hspec p').launches_nil (hloop ▸ hnil)
    have hmoved : ∀ t ∈ spec.tasks, depsVerdict spec q.body t ≠ .wait → ∀ key e, Owns t.id key →
        q.body.tasks.get? key = some e → e.state ≠ .pending := by
      intro t ht hverdict key e hown he
      rw [hloop] at hverdict he hnil
      refine walkAndClaim_ne_pending now proc host hspec (hp'.wf hspec hwfp)
        (hp'.deferred_eq hpDeferred hp'nil) hnil hexit ?_ ht hverdict hown he
      intro r hr u hu exp hexp hnone hsource e' he'
      exact source_open now hspec hwf hopen hlists hp (hp'.trans hr) hu hexp hnone hsource he'
    -- nothing is under way, so every task is done and the run is terminalised
    have hdone := groupState_terminal hspec hwfq hmoved (not_underWay.mp hway)
    have hscan : terminalScan q.body spec.tasks false ≠ none := by
      rw [Ne, terminalScan_eq_none]
      rintro ⟨t, ht, hholds⟩
      exact not_holdsOpen hwfq (hdone t ht) hholds
    obtain ⟨failed, hfailed⟩ := Option.ne_none_iff_exists'.mp hscan
    rw [maybeTerminalise, hfailed]
    cases failed <;> rfl
  · by_contra hway
    have hnil : q.result.launches = [] := not_not.mp fun hne => hway (hlaunched hne)
    have hnone : (maybeTerminalise spec q).result.deferred = q.result.deferred := by
      unfold maybeTerminalise
      split <;> rfl
    rw [hnone, hpq.deferred_eq hpDeferred hnil] at hd
    cases hd

/-- A pass that reports no change ends on the document it started from. -/
theorem fullPlan_unchanged
    (h : (fullPlan spec now proc host expansions body).result.changed = false) :
    (fullPlan spec now proc host expansions body).body = body := by
  unfold fullPlan at h ⊢
  set p := applyExpansions spec expansions now { body } with hp
  have hpq := propagateAndClaim_advances now proc host hspec p
  set q := propagateAndClaim spec now proc host p
  have hq : q.result.changed = false := (maybeTerminalise_tasks spec q).2.2.2 h
  have hbody : q.body = body := by
    rw [hpq.eq_of_unchanged hq]
    obtain ⟨events, hpass⟩ := hpq
    rw [hp, applyExpansions_unchanged expansions now { body } (hpass.changed hq).1]
  rw [← hbody]
  -- the state of the run was written back as it was
  unfold maybeTerminalise at h ⊢
  split at h
  next => rfl
  next =>
    have hstate := (Bool.or_eq_false_iff.mp h).2
    simp only [ne_eq, decide_not, Bool.not_eq_false', decide_eq_true_eq] at hstate
    simp only [← hstate]

/-- In a document that the pre-scan calls quiescent something is under way. -/
private lemma underWay_of_isQuiescent (hwf : WF spec body) {now : Time}
    {proc : String} (h : isQuiescent spec body now proc expansions = true) : UnderWay body := by
  by_contra hway
  have hstill := not_underWay.mp hway
  obtain ⟨-, -, hact, key, e, hget, hblocked⟩ := isQuiescent_iff.mp h
  -- nothing is under way, so an entry that rests waits for its upstreams
  have hwaits : ∀ {key : String} {e : TaskEntry}, body.tasks.get? key = some e →
      Parked spec body now proc key e → ∃ t ∈ spec.tasks, Owns t.id key ∧
        depsVerdict spec body t = .wait := by
    rintro key e he ⟨t, hid, hplace, hrest⟩
    obtain ⟨u, hu, heid, hslot⟩ := hwf.owner key e he
    rw [heid, Option.bind_some, hspec.byId_self hu] at hid
    cases hid
    refine ⟨_, hu, hslot.owns, ?_⟩
    obtain ⟨hrunning, hretry⟩ := hstill key e he
    unfold Resting at hrest
    split at hrest
    next hs => exact absurd hs hretry
    next hs => exact absurd hs hrunning
    next => exact hrest.2
    next => exact hrest.elim
  have hmoved : ∀ t ∈ spec.tasks, depsVerdict spec body t ≠ .wait → ∀ key e, Owns t.id key →
      body.tasks.get? key = some e → e.state ≠ .pending := by
    intro t ht hverdict key e hown he hpending
    rcases entryQuiescence_eq spec body now proc key e with ⟨-, hsettled⟩ | ⟨-, -, hparked⟩ |
      ⟨hact', -⟩
    · rcases hsettled with hterm | ⟨hexpanded, -⟩
      · rw [hpending] at hterm
        cases hterm
      · rw [hpending] at hexpanded
        cases hexpanded
    · obtain ⟨u, hu, huown, hwait⟩ := hwaits he hparked
      rw [hspec.eq_of_id hu ht
        (huown.id_eq (hspec.no_hash u hu) (hspec.no_hash t ht) hown)] at hwait
      exact hverdict hwait
    · exact hact key e he hact'
  have hdone := groupState_terminal hspec hwf hmoved hstill
  obtain ⟨t, ht, -, hwait⟩ := hwaits hget (entryQuiescence_eq_blocked.mp hblocked)
  refine depsVerdict_ne_wait (fun dep hdep => ?_) hwait
  obtain ⟨u, hu, rfl⟩ := hspec.known t ht dep hdep
  exact hdone u hu

end

/-- No run deadlocks. After a pass that was given the list of every task awaiting one, the run is
over or an entry is running or up for retry; so a run that goes on is not left with nothing but
pending entries, and without anything under way the pass deferred nothing. -/
theorem plan_progress (hvalid : validateGraph spec = .ok ()) (hreach : Reachable spec body)
    (now : Time) (proc host : String) (expansions : Expansions)
    (hlists : ListsSupplied spec body expansions) :
    (((Op.plan now proc host expansions).apply spec body).terminalRun = true ∨
        UnderWay ((Op.plan now proc host expansions).apply spec body)) ∧
      (((Op.plan now proc host expansions).apply spec body).terminalRun = false →
        ∃ key e, ((Op.plan now proc host expansions).apply spec body).tasks.get? key = some e ∧
          e.state.terminal = false ∧ e.state ≠ .pending ∧ e.state ≠ .expanded) ∧
      (¬ UnderWay ((Op.plan now proc host expansions).apply spec body) →
        (planAndClaim spec now proc host expansions body).2.deferred = false) := by
  have hspec := validSpec_of_validateGraph hvalid
  have hwf := hreach.wf hspec
  set body' := (Op.plan now proc host expansions).apply spec body with hbody'
  have hmain : (body'.terminalRun = true ∨ UnderWay body') ∧
      ((planAndClaim spec now proc host expansions body).2.deferred = true → UnderWay body') := by
    simp only [hbody', Op.apply, Op.write, planAndClaim]
    split
    next hterm => exact ⟨.inl hterm, fun h => nomatch h⟩
    next hopen =>
      split
      next hquiet =>
        exact ⟨.inr (underWay_of_isQuiescent hspec hwf hquiet), fun h => nomatch h⟩
      next =>
        have hopen : body.terminalRun = false := by simpa using hopen
        have hfull := fullPlan_progress now proc host hspec hwf hopen hlists
        split
        next => exact hfull
        next hkept =>
          -- an unchanged pass ends on the document it started from
          have hsame := fullPlan_unchanged now proc host hspec (by simpa using hkept)
          rw [hsame] at hfull
          exact hfull
  refine ⟨hmain.1, fun hopen => ?_, fun hway => ?_⟩
  · obtain ⟨key, e, he, hstate⟩ := hmain.1.resolve_left (by simp [hopen])
    exact ⟨key, e, he, by rcases hstate with h | h <;> simp [h]⟩
  · by_contra hd
    exact hway (hmain.2 (by simpa using hd))

/-- A task mapped over one that is declared after it. -/
def reversedSpec : DagSpec :=
  { name := "reversed"
    tasks := [
      { id := "m", dependsOn := ["src"], expand := some { fromTask := "src", key := "items" } },
      { id := "src" }] }

/-- The source was claimed and succeeded: the mapped task awaits its list. -/
def reversedBody : RunBody :=
  applyAll reversedSpec [.plan 1 "p" "h" .empty,
      .finish [{ taskkey := "src", success := true, task := { id := "src" } }] 2]
    (newRunBody "reversed" "k" "r" none "cron" 0 reversedSpec)

theorem plan_progress_reversed :
    tasksAwaitingExpansion reversedSpec reversedBody = [("m", "src", "items")] ∧
      (((Op.plan 3 "p" "h" (Dict.ofList [("m", some [.null])])).apply reversedSpec
          reversedBody).terminalRun = true ∨
        UnderWay ((Op.plan 3 "p" "h" (Dict.ofList [("m", some [.null])])).apply reversedSpec
          reversedBody)) := by
  have hawaiting : tasksAwaitingExpansion reversedSpec reversedBody = [("m", "src", "items")] := by
    decide +kernel
  have hlists : ListsSupplied reversedSpec reversedBody (ofList [("m", some [.null])]) := by
    intro id source key hmem
    rw [hawaiting, mem_singleton] at hmem
    cases hmem
    exact ⟨_, rfl⟩
  exact ⟨hawaiting, (plan_progress (by decide +kernel) ((Reachable.fresh ..).applyAll _) 3 "p" "h"
    _ hlists).1⟩

end Cronstable.Dag
