import Cronstable.Lib.Log
import Cronstable.Store.Slot

/-!
# The releases of a cluster slot and its later claims

A release that its caller gave up is out when the next claim takes the lease over: the claim keeps
the fence, and the release then expires the lease under the run that claimed it
(`stale_release_expires_claim`). Where no claim installs a lease whose release is out, the lease of
a claim is safe from the releases of the claims before it (`release_spares_claim`): those that are
out present smaller fences, and the lease file has passed them.
-/

namespace Cronstable.Slot

open Trace Store List Option

variable {op : Op} {call fence : ℕ} {lease : Lease} {answered : Bool}

namespace Node

/-! ## The invariant -/

/-- The node holds a lease of this fence, presents one in a call, or was answered one. -/
def Knows (s : Node) (fence : ℕ) : Prop :=
  (∃ lease ∈ s.lease, lease.fence = fence) ∨ (∃ lease, some lease ∈ s.tasks ∧ lease.fence = fence) ∨
    ∃ call ∈ s.calls, (∃ lease ∈ call.op.lease?, lease.fence = fence) ∨
      ∃ lease, call.answer = some (some lease) ∧ lease.fence = fence

/-- The fence was issued: the lease file has it, or a greater one. -/
def Issued (s : Node) (fence : ℕ) : Prop := ∃ stored ∈ s.stored, fence ≤ stored.fence

/-- What the runs keep. -/
structure Inv (s : Node) : Prop where
  known : ∀ fence, s.Knows fence → s.Issued fence
  /-- The releases that are out present smaller fences than the lease of the claim. -/
  spares : ∀ lease ∈ s.lease, ∀ fence, s.ReleaseOut fence → fence < lease.fence
  /-- What a claim was answered is at least as new as every release that is out. -/
  claiming : ∀ call, (s.mutex = .acquiring call ∨ s.mutex = .reading call) →
    ∀ c ∈ s.calls[call]?, ∀ lease, c.answer = some (some lease) →
      ∀ fence, s.ReleaseOut fence → fence ≤ lease.fence
  /-- A release that is inside the mutex found no claim, and none comes in. -/
  releasing : ∀ call, (s.mutex = .releasing call ∨ s.mutex = .phantom call) → s.lease = none
  alive : s.renewer.any Renewer.alive → s.lease.isSome
  /-- A renew keeps the fence. -/
  renewed : ∀ call, s.renewer = some (.renewing call) → ∃ c ∈ s.calls[call]?, ∃ lease,
    c.op = .renew lease ∧ (∃ own ∈ s.lease, lease.fence = own.fence) ∧
      ∀ answer, c.answer = some (some answer) → answer.fence = lease.fence

/-- The invariant holds at the start. -/
lemma Starts.inv {s : Node} (h : s.Starts) : s.Inv where
  known fence hk := by simp [Knows, h.lease, h.tasks, h.calls] at hk
  spares := by simp [h.lease]
  claiming := by simp [h.mutex]
  releasing := by simp [h.mutex]
  alive := by simp [h.renewer]
  renewed := by simp [h.renewer]

section Steps

variable {cfg : Config} {s : Node}

/-- A node knows the fence that it releases. -/
lemma ReleaseOut.knows (h : s.ReleaseOut fence) : s.Knows fence := by
  obtain ⟨call, hcall, -, lease, hop, rfl⟩ := h
  exact .inr (.inr ⟨call, hcall, .inl ⟨lease, by simp [hop, Op.lease?], rfl⟩⟩)

/-! ### Calls begin -/

/-- A call that goes out brings the fence of its lease. -/
lemma knows_issue (h : (s.issue op).Knows fence) :
    s.Knows fence ∨ ∃ lease ∈ op.lease?, lease.fence = fence := by
  rcases h with h | h | ⟨call, hcall, h⟩
  · exact .inl (.inl h)
  · exact .inl (.inr (.inl h))
  · rcases mem_append.mp hcall with hcall | hcall
    · exact .inl (.inr (.inr ⟨call, hcall, h⟩))
    · obtain rfl := mem_singleton.mp hcall
      rcases h with h | ⟨lease, h, -⟩
      · exact .inr h
      · cases h

/-- Only a release is a release. -/
lemma releaseOut_issue (h : (s.issue op).ReleaseOut fence) :
    s.ReleaseOut fence ∨ ∃ lease, op = .release lease := by
  obtain ⟨call, hcall, hout, lease, hop, hfence⟩ := h
  rcases mem_append.mp hcall with hcall | hcall
  · exact .inl ⟨call, hcall, hout, lease, hop, hfence⟩
  · obtain rfl := mem_singleton.mp hcall
    exact .inr ⟨lease, hop⟩

/-- A call begins, inside the mutex or in the renewer. -/
theorem Inv.issue (h : s.Inv) {mutex : Mutex} {renewer : Option Renewer}
    (hop : ∀ lease ∈ op.lease?, s.Issued lease.fence)
    (hrelease : ∀ lease, op = .release lease → s.lease = none ∧
      ∀ call, mutex ≠ .acquiring call ∧ mutex ≠ .reading call)
    (hclaiming : ∀ call, mutex = .acquiring call ∨ mutex = .reading call →
      call = s.calls.length ∨ s.mutex = mutex)
    (hreleasing : ∀ call, mutex = .releasing call ∨ mutex = .phantom call → s.lease = none)
    (halive : renewer.any Renewer.alive → s.lease.isSome)
    (hrenewing : ∀ call, renewer = some (.renewing call) →
      s.renewer = renewer ∨ call = s.calls.length ∧ ∃ lease ∈ s.lease, op = .renew lease) :
    ({ s.issue op with mutex, renewer } : Node).Inv where
  known fence hk := by
    have hk : (s.issue op).Knows fence := hk
    rcases knows_issue hk with hk | ⟨lease, hlease, rfl⟩
    · exact h.known fence hk
    · exact hop lease hlease
  spares lease hlease fence hout := by
    rcases releaseOut_issue hout with hout | ⟨_, rfl⟩
    · exact h.spares lease hlease fence hout
    · have hnone := (hrelease _ rfl).1
      simp [Node.issue, hnone] at hlease
  claiming call hmutex c hc lease hanswer fence hout := by
    rcases Log.append_cases hc with hc | ⟨-, hnew⟩
    · rcases releaseOut_issue hout with hout | ⟨_, rfl⟩
      · rcases hclaiming call hmutex with rfl | hsame
        · simp at hc
        · exact h.claiming call (hsame ▸ hmutex) c hc lease hanswer fence hout
      · obtain ⟨hacquiring, hreading⟩ := (hrelease _ rfl).2 call
        exact absurd hmutex (not_or.mpr ⟨hacquiring, hreading⟩)
    · obtain rfl := mem_singleton.mp hnew
      cases hanswer
  releasing := hreleasing
  alive := halive
  renewed call hrenewer := by
    rcases hrenewing call hrenewer with hsame | ⟨rfl, lease, hlease, rfl⟩
    · obtain ⟨c, hc, hrest⟩ := h.renewed call (hsame.trans hrenewer)
      exact ⟨c, Log.append_some hc _, hrest⟩
    · exact ⟨{ op := .renew lease }, by simp [Node.issue], lease, rfl, ⟨lease, hlease, rfl⟩,
        by simp⟩

/-! ### Calls are carried out -/

/-- A section leaves the fence of the file as it is, or raises it. -/
theorem fence_le_run {sec : Section} {stored : Lease} {current : Option Lease}
    (h : stored ∈ current) :
    ∃ stored' ∈ (sec.run cfg.name current).1, stored.fence ≤ stored'.fence := by
  rcases sec.run_cases cfg.name current with hrun | ⟨lease, hrun, hwrites⟩
  · exact ⟨stored, by simpa [hrun] using h, le_rfl⟩
  · rw [mem_def.mp h] at hwrites
    refine ⟨lease, by simp [hrun], ?_⟩
    rcases hwrites.fence with hlt | ⟨heq, -⟩ <;> omega

/-- What a section answers is what it stored. -/
theorem run_answer {sec : Section} {current : Option Lease}
    (h : (sec.run cfg.name current).2 = some lease) :
    (sec.run cfg.name current).1 = some lease := by
  rcases sec.run_cases cfg.name current with hrun | ⟨lease', hrun, -⟩
  · simp [hrun] at h
  · simpa [hrun] using h

variable {ttl now : Time} {io : Io}

/-- No call lowers the stored fence. -/
lemma fence_le_serve {stored : Lease} (h : stored ∈ s.stored) :
    ∃ stored' ∈ (s.serve cfg ttl now io op).1, stored.fence ≤ stored'.fence := by
  cases op with
  | acquire | renew | release => exact fence_le_run h
  | read => exact ⟨stored, h, le_rfl⟩

/-- A call that is granted answers with what it stored. -/
lemma serve_answer (h : (s.serve cfg ttl now io op).2 = some lease) :
    (s.serve cfg ttl now io op).1 = some lease := by
  cases op with
  | acquire | renew | release => exact run_answer h
  | read =>
    simp only [serve] at h ⊢
    split at h
    · exact (filter_eq_some_iff.mp h).1
    · cases h

/-- A renewal keeps the fence. -/
lemma renew_answer {answer : Lease}
    (h : (s.serve cfg ttl now io (.renew lease)).2 = some answer) : answer.fence = lease.fence := by
  rcases (Section.renew lease ttl now io).run_cases cfg.name s.stored with
    hrun | ⟨written, hrun, hwrites⟩
  · simp [serve, hrun] at h
  · obtain rfl : written = answer := by simpa [serve, hrun] using h
    rw [hwrites.of_renew.2]

/-- The lease file changes, and its fence does not decrease. -/
theorem Inv.store (h : s.Inv) {stored : Option Lease}
    (hfence : ∀ l ∈ s.stored, ∃ l' ∈ stored, l.fence ≤ l'.fence) :
    ({ s with stored } : Node).Inv := by
  refine { h with known := fun fence hk => ?_ }
  obtain ⟨l, hl, hle⟩ := h.known fence hk
  obtain ⟨l', hl', hle'⟩ := hfence l hl
  exact ⟨l', hl', hle.trans hle'⟩

/-- A call that is carried out keeps the invariant. -/
lemma Inv.land (h : s.Inv) (hcall : s.calls[call]? = some { op, answer := none }) :
    ({ s with
      stored := (s.serve cfg ttl now io op).1
      calls := s.calls.set call { op, answer := some (s.serve cfg ttl now io op).2 } } :
        Node).Inv := by
  set t : Node := { s with
    stored := (s.serve cfg ttl now io op).1
    calls := s.calls.set call { op, answer := some (s.serve cfg ttl now io op).2 } }
  have hissued (fence : ℕ) (hk : s.Issued fence) : t.Issued fence := by
    obtain ⟨l, hl, hle⟩ := hk
    obtain ⟨l', hl', hle'⟩ := fence_le_serve hl
    exact ⟨l', hl', hle.trans hle'⟩
  have hold (c : Call) (hc : c ∈ t.calls) :
      c ∈ s.calls ∨ c = { op, answer := some (s.serve cfg ttl now io op).2 } :=
    mem_or_eq_of_mem_set hc
  have hout (fence : ℕ) (hk : t.ReleaseOut fence) : s.ReleaseOut fence := by
    obtain ⟨c, hc, hnone, hrest⟩ := hk
    rcases hold c hc with hc | rfl
    · exact ⟨c, hc, hnone, hrest⟩
    · cases hnone
  refine ⟨?_, fun lease hlease fence hk => h.spares lease hlease fence (hout fence hk), ?_,
    h.releasing, h.alive, ?_⟩
  · rintro fence (hk | hk | ⟨c, hc, hk⟩)
    · exact hissued _ (h.known _ (.inl hk))
    · exact hissued _ (h.known _ (.inr (.inl hk)))
    · rcases hold c hc with hc | rfl
      · exact hissued _ (h.known _ (.inr (.inr ⟨c, hc, hk⟩)))
      · rcases hk with hk | ⟨lease, hanswer, rfl⟩
        · exact hissued _ (h.known _ (.inr (.inr ⟨_, mem_of_getElem? hcall, .inl hk⟩)))
        · exact ⟨lease, serve_answer (Option.some.inj hanswer), le_rfl⟩
  · intro call' hmutex c hc lease hanswer fence hk
    rcases Log.set_cases hc with ⟨-, rfl⟩ | ⟨-, hc⟩
    · -- what is answered now is in the file, which has passed every fence the node knows
      obtain ⟨l, hl, hle⟩ := h.known fence (hout fence hk).knows
      obtain ⟨l', hl', hle'⟩ : ∃ l' ∈ (s.serve cfg ttl now io op).1, l.fence ≤ l'.fence :=
        fence_le_serve hl
      have heq := serve_answer (Option.some.inj hanswer)
      obtain rfl := mem_unique hl' heq
      exact hle.trans hle'
    · exact h.claiming call' hmutex c hc lease hanswer fence (hout fence hk)
  · intro call' hrenewer
    obtain ⟨c, hc, lease, hop, hown, hanswer⟩ := h.renewed call' hrenewer
    rcases Log.set_at hcall hc { op, answer := some (s.serve cfg ttl now io op).2 } with
      ⟨-, rfl, hnew⟩ | hother
    · refine ⟨_, hnew, lease, hop, hown, fun answer ha => ?_⟩
      subst hop
      exact renew_answer (Option.some.inj ha)
    · exact ⟨c, hother, lease, hop, hown, hanswer⟩

/-! ### Claims, releases and renewals -/

/-- A node knows what a call answered. -/
lemma knows_of_result (h : s.result call answered = some (some lease)) :
    s.Knows lease.fence ∧ ∃ c ∈ s.calls[call]?, c.answer = some (some lease) := by
  unfold result at h
  split at h
  · obtain ⟨c, hc, hanswer⟩ := bind_eq_some_iff.mp h
    exact ⟨.inr (.inr ⟨c, mem_of_getElem? hc, .inr ⟨lease, hanswer, rfl⟩⟩), c, hc, hanswer⟩
  · cases h

/-- The mutex is left, and what is counted changes. -/
theorem Inv.leave (h : s.Inv) {mutex : Mutex} (refs instances : ℕ)
    (hmutex : mutex = .free ∨ mutex = .reconciling) :
    ({ s with refs, instances, mutex } : Node).Inv := by
  refine { h with claiming := fun call hcall => ?_, releasing := fun call hcall => ?_ }
  all_goals rcases hmutex with rfl | rfl <;> simp at hcall

/-- A claim installs the lease it was answered. -/
theorem Inv.install (h : s.Inv) (hmutex : s.mutex = .acquiring call ∨ s.mutex = .reading call)
    (hresult : s.result call answered = some (some lease)) (hclear : ¬ s.ReleaseOut lease.fence) :
    (s.install lease).Inv := by
  obtain ⟨hknows, c, hc, hanswer⟩ := knows_of_result hresult
  refine ⟨?_, ?_, by simp [Node.install], by simp [Node.install], by simp [Node.install],
    by simp [Node.install]⟩
  · rintro fence (⟨l, hl, rfl⟩ | hk)
    · obtain rfl : lease = l := by simpa [Node.install] using hl
      exact h.known _ hknows
    · exact h.known _ (.inr hk)
  · intro l hl fence hout
    obtain rfl : lease = l := by simpa [Node.install] using hl
    have hle := h.claiming call hmutex c hc lease hanswer fence hout
    have hne : fence ≠ lease.fence := fun heq => hclear (heq ▸ hout)
    omega

/-- The lease of the slot is given up: it is released later, or it was taken over. -/
theorem Inv.drop (h : s.Inv) {tasks : List (Option Lease)} {renewer : Option Renewer} (refs : ℕ)
    (htasks : ∀ lease, some lease ∈ tasks → s.Knows lease.fence)
    (halive : renewer.any Renewer.alive = false) :
    ({ s with refs, lease := none, renewer, tasks } : Node).Inv where
  known := by
    rintro fence (⟨l, hl, -⟩ | ⟨l, hl, rfl⟩ | hk)
    · simp at hl
    · exact h.known _ (htasks l hl)
    · exact h.known _ (.inr (.inr hk))
  spares := by simp
  claiming := h.claiming
  releasing := by simp
  alive hrenewer := absurd hrenewer (by simp [halive])
  renewed call hcall := by
    have hcall : renewer = some (.renewing call) := hcall
    simp [hcall, Renewer.alive] at halive

/-- The renewer goes back to sleep. -/
theorem Inv.sleep (h : s.Inv) (hlease : s.lease.isSome) :
    ({ s with renewer := some .asleep } : Node).Inv :=
  { h with alive := fun _ => hlease, renewed := by simp }

/-- A renew was answered. -/
theorem Inv.renew (h : s.Inv) (hrenewer : s.renewer = some (.renewing call))
    (hresult : s.result call answered = some (some lease)) :
    ({ s with lease := some lease, renewer := some .asleep } : Node).Inv := by
  obtain ⟨hknows, c, hc, hanswer⟩ := knows_of_result hresult
  obtain ⟨c', hc', presented, -, ⟨own, hown, hfence⟩, hkeeps⟩ := h.renewed call hrenewer
  obtain rfl := mem_unique hc hc'
  have hsame : lease.fence = own.fence := (hkeeps lease hanswer).trans hfence
  refine ⟨?_, ?_, h.claiming, fun call' hmutex => ?_, by simp, by simp⟩
  · rintro fence (⟨l, hl, rfl⟩ | hk)
    · obtain rfl : lease = l := by simpa using hl
      exact h.known _ hknows
    · exact h.known _ (.inr hk)
  · intro l hl fence hout
    obtain rfl : lease = l := by simpa using hl
    exact hsame ▸ h.spares own hown fence hout
  · simp [h.releasing call' hmutex] at hown

variable {t : Node}

/-- A run asks for the slot. -/
theorem Inv.step_claim (h : s.Inv) (hstep : s.step cfg .claim = some t) : t.Inv := by
  simp only [Node.step] at hstep
  split at hstep
  case h_2 => cases hstep
  case h_1 hmutex =>
    split at hstep
    · cases hstep
      exact { h with }
    · cases hstep
      exact h.issue (by simp [Op.lease?]) (by simp) (by simp) (by simp) h.alive
        fun _ hr => .inl (hr.symm ▸ rfl)

/-- The acquire of a claim was answered or given up. -/
theorem Inv.step_acquired (h : s.Inv) (hclear : s.Clear cfg (.acquired answered))
    (hstep : s.step cfg (.acquired answered) = some t) : t.Inv := by
  simp only [Node.step] at hstep
  split at hstep
  case h_2 => cases hstep
  case h_1 call hmutex =>
    obtain ⟨result, hresult, rfl⟩ := map_eq_some_iff.mp hstep
    cases result with
    | some lease =>
      exact h.install (.inl hmutex) hresult
        (hclear lease (by simp [installs, hmutex, hresult]))
    | none =>
      exact h.issue (by simp [Op.lease?]) (by simp) (by simp) (by simp) h.alive
        fun _ _ => .inl rfl

/-- The read of a claim that was not granted was answered or given up. -/
theorem Inv.step_observed (h : s.Inv) (hclear : s.Clear cfg (.observed answered now))
    (hstep : s.step cfg (.observed answered now) = some t) : t.Inv := by
  simp only [Node.step] at hstep
  split at hstep
  case h_2 => cases hstep
  case h_1 call hmutex =>
    obtain ⟨result, hresult, rfl⟩ := map_eq_some_iff.mp hstep
    cases result with
    | none => exact h.leave _ _ (.inl rfl)
    | some lease =>
      dsimp only
      split
      case isTrue hown =>
        exact h.install (.inr hmutex) hresult
          (hclear lease (by simp [installs, hmutex, hresult, hown]))
      case isFalse =>
        split <;> exact h.leave _ _ (.inl rfl)

/-- A run of the slot ends. -/
theorem Inv.step_finish (h : s.Inv) (hstep : s.step cfg .finish = some t) : t.Inv := by
  simp only [Node.step] at hstep
  split at hstep
  case h_2 => cases hstep
  case h_1 =>
    split at hstep
    · cases hstep
      exact { h with }
    split at hstep
    · cases hstep
      exact { h with }
    · cases hstep
      refine h.drop _ (fun lease hlease => ?_) rfl
      rcases mem_append.mp hlease with hlease | hlease
      · exact .inr (.inl ⟨lease, hlease, rfl⟩)
      · exact .inl ⟨lease, (mem_singleton.mp hlease).symm, rfl⟩

/-- A release comes into the mutex. -/
theorem Inv.step_release (h : s.Inv) {task : ℕ} (hstep : s.step cfg (.release task) = some t) :
    t.Inv := by
  simp only [Node.step] at hstep
  split at hstep
  case h_2 => cases hstep
  case h_1 claimed hmutex htask =>
    -- the task leaves the queue; what it presents is known
    have hqueue : ({ s with tasks := s.tasks.eraseIdx task } : Node).Inv := by
      refine { h with known := ?_ }
      rintro fence (hk | ⟨l, hl, rfl⟩ | hk)
      · exact h.known _ (.inl hk)
      · exact h.known _ (.inr (.inl ⟨l, mem_of_mem_eraseIdx hl, rfl⟩))
      · exact h.known _ (.inr (.inr hk))
    split at hstep
    · cases hstep
      exact hqueue
    case isFalse hnone =>
      have hnone : s.lease = none := by simpa using hnone
      split at hstep
      case h_1 lease =>
        cases hstep
        refine hqueue.issue ?_ (by simp [hnone]) (by simp) (fun _ _ => hnone) h.alive
          fun _ hr => .inl (hr.symm ▸ rfl)
        rintro _ ⟨⟩
        exact h.known _ (.inr (.inl ⟨lease, mem_of_getElem? htask, rfl⟩))
      case h_2 =>
        cases hstep
        exact hqueue.issue (by simp [Op.lease?]) (by simp) (by simp) (fun _ _ => hnone) h.alive
          fun _ hr => .inl (hr.symm ▸ rfl)

/-- A release that has no lease looks for one of its own. -/
theorem Inv.step_phantomRead (h : s.Inv) (hstep : s.step cfg (.phantomRead answered) = some t) :
    t.Inv := by
  simp only [Node.step] at hstep
  split at hstep
  case h_2 => cases hstep
  case h_1 call hmutex =>
    obtain ⟨result, hresult, rfl⟩ := map_eq_some_iff.mp hstep
    cases result with
    | none => exact h.leave _ _ (.inl rfl)
    | some lease =>
      dsimp only
      split
      case isTrue hown =>
        refine h.issue ?_ (by simp [hown.2]) (by simp) (fun _ _ => hown.2) h.alive
          fun _ hr => .inl (hr.symm ▸ rfl)
        rintro _ ⟨⟩
        exact h.known _ (knows_of_result hresult).1
      case isFalse => exact h.leave _ _ (.inl rfl)

/-- The renewer wakes up. -/
theorem Inv.step_renew (h : s.Inv) (hstep : s.step cfg .renew = some t) : t.Inv := by
  simp only [Node.step] at hstep
  split at hstep
  case h_2 => cases hstep
  case h_1 hrenewer =>
    cases hstep
    split
    case h_1 lease hlease =>
      refine h.issue ?_ (by simp) (fun _ _ => .inr rfl) h.releasing (by simp [hlease]) ?_
      · rintro _ ⟨⟩
        exact h.known _ (.inl ⟨lease, hlease, rfl⟩)
      · rintro _ ⟨⟩
        exact .inr ⟨rfl, lease, hlease, rfl⟩
    case h_2 hnone =>
      exact { h with alive := by simp [Renewer.alive], renewed := by simp }

/-- A renew was answered or given up. -/
theorem Inv.step_renewed (h : s.Inv) (hstep : s.step cfg (.renewed answered) = some t) : t.Inv := by
  simp only [Node.step] at hstep
  split at hstep
  case h_2 => cases hstep
  case h_1 call hrenewer =>
    have hlease : s.lease.isSome := h.alive (by simp [hrenewer, Renewer.alive])
    obtain ⟨result, hresult, rfl⟩ := map_eq_some_iff.mp hstep
    cases result with
    | some lease => exact h.renew hrenewer hresult
    | none =>
      dsimp only
      split
      · exact h.issue (by simp [Op.lease?]) (by simp) (fun _ _ => .inr rfl) h.releasing
          (fun _ => hlease) (by simp)
      · exact h.sleep hlease

/-- The renewer has looked at the lease that it could not renew. -/
theorem Inv.step_renewRead (h : s.Inv) (hstep : s.step cfg (.renewRead answered) = some t) :
    t.Inv := by
  simp only [Node.step] at hstep
  split at hstep
  case h_2 => cases hstep
  case h_1 call lease hrenewer hlease =>
    have hlease : s.lease.isSome := by simp [hlease]
    obtain ⟨result, hresult, rfl⟩ := map_eq_some_iff.mp hstep
    cases result with
    | none => exact h.sleep hlease
    | some observed =>
      dsimp only
      split
      · exact h.drop s.refs (fun l hl => .inr (.inl ⟨l, hl, rfl⟩)) rfl
      · exact h.sleep hlease

/-- Every clear step keeps the invariant. -/
theorem Inv.step (h : s.Inv) {e : Event} (hclear : s.Clear cfg e)
    (hstep : s.step cfg e = some t) : t.Inv := by
  cases e with
  | claim => exact h.step_claim hstep
  | acquired answered => exact h.step_acquired hclear hstep
  | observed answered now => exact h.step_observed hclear hstep
  | reconciled | released =>
    simp only [Node.step] at hstep
    split at hstep
    case h_2 => cases hstep
    case h_1 =>
      cases hstep
      exact h.leave _ _ (.inl rfl)
  | instances count =>
    cases hstep
    exact { h with }
  | finish => exact h.step_finish hstep
  | release task => exact h.step_release hstep
  | phantomRead answered => exact h.step_phantomRead hstep
  | renew => exact h.step_renew hstep
  | renewed answered => exact h.step_renewed hstep
  | renewRead answered => exact h.step_renewRead hstep
  | land call ttl now io =>
    simp only [Node.step] at hstep
    split at hstep
    case h_2 => cases hstep
    case h_1 op hcall =>
      cases hstep
      exact h.land hcall
  | foreign sec =>
    simp only [Node.step] at hstep
    split at hstep
    · cases hstep
    · cases hstep
      exact h.store fun l hl => fence_le_run hl

end Steps

/-- A release that is carried out while a claim has its lease installed leaves the lease file
unexpired, in every run whose steps are clear. -/
theorem release_spares_claim {cfg : Config} {s₀ s t : Node} {events : List Event} (hs : s₀.Starts)
    (hrun : Run (fun s e t => s.Clear cfg e ∧ s.step cfg e = some t) s₀ events s)
    (hclaimed : s.lease.isSome) {call : ℕ} {lease : Lease} {answer : Option (Option Lease)}
    (hcall : s.calls[call]? = some { op := .release lease, answer }) {ttl now : Time} {io : Io}
    (hstep : s.step cfg (.land call ttl now io) = some t) : t.stored = s.stored := by
  have hinv : s.Inv := hrun.invariant (fun _ _ _ h hstep => h.step hstep.1 hstep.2) hs.inv
  simp only [step, hcall] at hstep
  split at hstep
  case h_2 => cases hstep
  case h_1 op heq =>
    cases heq
    cases hstep
    obtain ⟨own, hown⟩ := isSome_iff_exists.mp hclaimed
    have hlt : lease.fence < own.fence := hinv.spares own hown lease.fence
      ⟨_, mem_of_getElem? hcall, rfl, lease, rfl, rfl⟩
    -- the file has passed the fence of the release
    obtain ⟨stored, hstored, hle⟩ := hinv.known own.fence (.inl ⟨own, hown, rfl⟩)
    rcases (Section.release lease io).run_cases cfg.name s.stored with hsame | ⟨_, -, hwrites⟩
    · simp [serve, hsame]
    · obtain ⟨⟨stored', hstored', hmatch⟩, -⟩ := hwrites.of_release
      obtain rfl := mem_unique hstored hstored'
      have := hmatch.2
      omega

/-! ## Two runs -/

/-- One slot, on a store that must answer. -/
private def demo : Config := { name := "slots/job", holder := "a#1", failClosed := true }

/-- A store call that works. -/
private def fine : Io := { readable := true, lands := true }

/-- A claim whose acquire is answered at once. -/
private def claimed (call : ℕ) (now : Time) : List Event :=
  [.claim, .land call 30 now fine, .acquired true, .reconciled]

/-- A run is launched, ends and is finished; its release gives up on its call. -/
private def givenUp : List Event :=
  [.instances 1, .instances 0, .finish, .release 0, .released]

/-- Nobody has claimed the slot. -/
private def empty : Node := { stored := none }

private lemma empty_starts : empty.Starts := ⟨rfl, rfl, rfl, rfl, rfl⟩

/-- The fence that a call releases, while it is out. -/
private def outFence : Call → Option ℕ
  | { op := .release lease, answer := none } => some lease.fence
  | _ => none

private lemma outFence_eq_some {call : Call} :
    outFence call = some fence ↔
      call.answer = none ∧ ∃ lease, call.op = .release lease ∧ lease.fence = fence := by
  obtain ⟨op, answer⟩ := call
  cases op <;> cases answer <;> simp [outFence]

instance (s : Node) (fence : ℕ) : Decidable (s.ReleaseOut fence) :=
  decidable_of_iff (∃ call ∈ s.calls, outFence call = some fence)
    (exists_congr fun _ => and_congr_right fun _ => outFence_eq_some)

/-- The step, if it is clear. -/
private def clearStep (s : Node) (e : Event) : Option Node :=
  if ∀ lease ∈ s.installs demo e, ¬ s.ReleaseOut lease.fence then s.step demo e else none

/-- The second claim comes after the lease expired and takes the next fence, so the release of the
first one misses it. -/
theorem release_spares_claim_expired : ∃ s t : Node,
    Run (fun s e t => s.Clear demo e ∧ s.step demo e = some t) empty
      (claimed 0 0 ++ givenUp ++ claimed 2 100) s ∧
    s.lease = some ⟨"slots/job", "a#1", 2, 130⟩ ∧
      s.step demo (.land 1 30 101 fine) = some t ∧ t.stored = s.stored := by
  have hfold : (((claimed 0 0 ++ givenUp ++ claimed 2 100).foldlM clearStep empty).bind fun s =>
      (s.step demo (.land 1 30 101 fine)).map fun _ =>
        (s.lease, s.calls[1]?.map outFence)) =
      some (some ⟨"slots/job", "a#1", 2, 130⟩, some (some 1)) := by
    decide +kernel
  obtain ⟨s, hs, hfold⟩ := bind_eq_some_iff.mp hfold
  obtain ⟨t, ht, hsummary⟩ := map_eq_some_iff.mp hfold
  obtain ⟨hlease, hcall⟩ := Prod.mk.inj hsummary
  obtain ⟨⟨op, answer⟩, hcall, hout⟩ := map_eq_some_iff.mp hcall
  obtain ⟨hanswer, lease, hop, -⟩ := outFence_eq_some.mp hout
  have hrun := Run.of_guarded hs
  subst hop
  exact ⟨s, t, hrun, hlease, ht,
    release_spares_claim empty_starts hrun (by simp [hlease]) hcall ht⟩

/-- The second claim takes the unexpired lease over and keeps its fence; then the release of the
first one is carried out, and the lease of the running claim is released. -/
theorem stale_release_expires_claim : ∃ s t : Node, empty.Starts ∧
    Run (fun s e t => s.step demo e = some t) empty (claimed 0 0 ++ givenUp ++ claimed 2 15) s ∧
    s.lease = some ⟨"slots/job", "a#1", 1, 45⟩ ∧ s.stored = s.lease ∧
      s.step demo (.land 1 30 16 fine) = some t ∧
      t.stored = some ⟨"slots/job", "a#1", 1, 0⟩ := by
  have hfold : (((claimed 0 0 ++ givenUp ++ claimed 2 15).foldlM (step demo) empty).bind fun s =>
      (s.step demo (.land 1 30 16 fine)).map fun t => (s.lease, s.stored, t.stored)) =
      some (some ⟨"slots/job", "a#1", 1, 45⟩, some ⟨"slots/job", "a#1", 1, 45⟩,
        some ⟨"slots/job", "a#1", 1, 0⟩) := by
    decide +kernel
  obtain ⟨s, hs, hfold⟩ := bind_eq_some_iff.mp hfold
  obtain ⟨t, ht, hsummary⟩ := map_eq_some_iff.mp hfold
  simp only [Prod.mk.injEq] at hsummary
  obtain ⟨hlease, hstored, hafter⟩ := hsummary
  exact ⟨s, t, empty_starts, .of_foldlM hs, hlease, hstored.trans hlease.symm, ht, hafter⟩

end Node

end Cronstable.Slot
