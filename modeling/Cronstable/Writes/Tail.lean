import Cronstable.Lib.Trace
import Mathlib.Algebra.Order.Group.Nat

/-!
# Chains of durable writes

`_install_tail_task` spawns each write of a name behind the write that is the tail of the name at
that moment, and makes it the tail. A write waits for its direct predecessor only; that it starts
after all the writes queued before it is a property of the chain.

The chains of retry, pause and in-flight records spawn with `_track_state_write`, which sheds a
write when too many are pending: a placeholder that ends at once takes its place in the chain. The
completion chain never sheds. The code that queued a write may cancel it, and the bodies of
in-flight and completion writes give up on a store call after `STATE_OP_TIMEOUT`. The task is then
done, but the store call goes on in its thread, and its record is named only when it gets there.

A predecessor that ends before the writes queued ahead of it drops the wait for all of them, so the
chain keeps its order only where a write is shed or cancelled behind writes that are over, and where
a store call that was left behind lands before the next body begins (`Chain.Clear`):
`chain_ordered`. In `shed_write_reorders` a shed write lets the next one overtake.
-/

namespace Cronstable.Writes

open Trace List Option

/-- `MAX_PENDING_STATE_WRITES`. -/
def maxPendingStateWrites : ℕ := 8192

/-- Where the task of a queued write is. -/
inductive Status
  /-- Not begun, or waiting for its predecessor. -/
  | waiting
  /-- In its body. -/
  | running
  /-- Its body returned or raised. -/
  | returned
  /-- Cancelled before its body began. -/
  | withdrawn
  /-- Cancelled in its body, or its body gave up on the store call, which may still be carried
  out. -/
  | abandoned
  /-- Shed; the placeholder has not run. -/
  | shed
  /-- Shed; the placeholder has run. -/
  | dropped
  deriving DecidableEq

/-- `task.done()`. -/
def Status.done : Status → Bool
  | .returned | .withdrawn | .abandoned | .dropped => true
  | .waiting | .running | .shed => false

/-- The body of the write has finished, or will never run. -/
def Status.over : Status → Bool
  | .waiting | .running => false
  | .returned | .withdrawn | .abandoned | .shed | .dropped => true

variable {st : Status}

/-- A task that is done has no body to run. -/
lemma Status.over_of_done (h : st.done) : st.over := by
  cases st <;> first | rfl | cases h

/-- The body of the write has begun, or never will. -/
def Status.begun (st : Status) : Bool := st != .waiting

/-- The body of the write has begun. -/
def Status.ran : Status → Bool
  | .running | .returned | .abandoned => true
  | .waiting | .withdrawn | .shed | .dropped => false

/-- A body that has begun is past its wait. -/
lemma Status.begun_of_ran (h : st.ran) : st.begun := by
  cases st <;> first | rfl | cases h

/-- A queued write. -/
structure Write where
  /-- The tail when it was queued. -/
  prev : Option ℕ
  /-- Where its task is. -/
  status : Status

/-- The writes queued for one name on one tail, in the order in which they were queued. -/
structure Chain where
  /-- The tasks that were spawned for the name. -/
  writes : List Write := []
  /-- `tail.get(name)`. -/
  tail : Option ℕ := none
  /-- How many other writes `_pending_state_writes` holds. -/
  others : ℕ := 0
  /-- The writes whose records landed, newest first. -/
  landed : List ℕ := []

/-- What happens to the writes of a name. -/
inductive Event
  /-- Other writes are tracked, or end. -/
  | others (count : ℕ)
  /-- `_install_tail_task`. -/
  | queue
  /-- The task of a write gets past its wait. -/
  | start (i : ℕ)
  /-- The record of a write is stored. -/
  | land (i : ℕ)
  /-- The body of a write returns or raises. -/
  | finish (i : ℕ)
  /-- The body of a write gives up on its store call (`asyncio.wait_for`) and returns. -/
  | timeout (i : ℕ)
  /-- The code that queued a write cancels it. -/
  | cancel (i : ℕ)
  /-- The done callback of a write drops it from the tail. -/
  | clear (i : ℕ)

variable {i : ℕ}

namespace Chain

/-- Where a write is. -/
def status? (s : Chain) (i : ℕ) : Option Status := s.writes[i]?.map Write.status

/-- The task of a write moves on. -/
def setStatus (s : Chain) (i : ℕ) (status : Status) : Chain :=
  { s with writes := s.writes.modify i ({ · with status }) }

/-- `len(self._pending_state_writes) >= MAX_PENDING_STATE_WRITES`. -/
def overloaded (s : Chain) : Bool :=
  decide (maxPendingStateWrites ≤ (s.writes.filter fun w => !w.status.done).length + s.others)

/-- One step of the chain. `sheds` says whether it spawns with `_track_state_write`. -/
def step (sheds : Bool) (s : Chain) : Event → Option Chain
  | .others count => some { s with others := count }
  | .queue =>
    let status := if sheds && s.overloaded then .shed else .waiting
    some { s with
      writes := s.writes ++ [{ prev := s.tail, status }]
      tail := some s.writes.length }
  | .start i =>
    match s.writes[i]? with
    | some { prev, status := .waiting } =>
      if ∀ p ∈ prev, ∀ st ∈ s.status? p, st.done then some (s.setStatus i .running) else none
    | some { status := .shed, .. } => some (s.setStatus i .dropped)
    | _ => none
  | .land i =>
    match s.status? i with
    | some .running | some .abandoned =>
      if i ∈ s.landed then none else some { s with landed := i :: s.landed }
    | _ => none
  | .finish i => if s.status? i = some .running then some (s.setStatus i .returned) else none
  | .timeout i => if s.status? i = some .running then some (s.setStatus i .abandoned) else none
  | .cancel i =>
    match s.status? i with
    | some .waiting => some (s.setStatus i .withdrawn)
    | some .running => some (s.setStatus i .abandoned)
    | some .shed => some (s.setStatus i .dropped)
    | _ => some s
  | .clear i =>
    if ∃ st ∈ s.status? i, st.done then
      some (if s.tail = some i then { s with tail := none } else s)
    else none

/-- All the writes queued before this place are over. -/
def OverBefore (s : Chain) (i : ℕ) : Prop := ∀ j < i, ∀ st ∈ s.status? j, st.over

/-- What a step must be clear of: a write is shed or cancelled behind one that is not over, or a
store call that was left behind lands when the body of a later write has begun. -/
def Clear (sheds : Bool) (s : Chain) : Event → Prop
  | .queue => sheds && s.overloaded → s.OverBefore s.writes.length
  | .cancel i => s.status? i = some .waiting → s.OverBefore i
  | .land i =>
    s.status? i = some .abandoned →
      ∀ j < s.writes.length, i < j → ∀ st ∈ s.status? j, ¬ st.ran
  | _ => True

/-! ## The invariant -/

/-- What clear steps keep. -/
structure Inv (s : Chain) : Prop where
  /-- The tail is the write queued last. -/
  tail : ∀ t ∈ s.tail, t + 1 = s.writes.length
  /-- Without a tail there is nothing to wait for. -/
  tail_none : s.tail = none → s.OverBefore s.writes.length
  /-- A write waits for the one queued just before it, or there was nothing to wait for. -/
  prev : ∀ i w, s.writes[i]? = some w → (∀ p ∈ w.prev, p + 1 = i) ∧ (w.prev = none → s.OverBefore i)
  /-- Behind a write that has not begun, none has. -/
  order : ∀ i, ∀ st ∈ s.status? i, st.begun → s.OverBefore i
  /-- The record of a write is stored by its body. -/
  landed : ∀ i ∈ s.landed, ∃ st ∈ s.status? i, st.ran
  /-- A record lands after those of the writes queued before it. -/
  sorted : s.landed.Pairwise (· > ·)

variable {sheds : Bool} {s : Chain}

/-- Only the write itself moves on. -/
lemma status?_setStatus (i j : ℕ) (st : Status) :
    (s.setStatus i st).status? j =
      if i = j then (s.status? j).map fun _ => st else s.status? j := by
  unfold status? setStatus
  rw [List.getElem?_modify]
  split <;> simp [Option.map_map, Function.comp_def]

lemma status?_of_getElem {w : Write} (h : s.writes[i]? = some w) :
    s.status? i = some w.status := by
  simp [status?, h]

/-- A write that has a status was queued. -/
lemma lt_length_of_status? (h : s.status? i = some st) : i < s.writes.length :=
  (List.getElem?_eq_some_iff.mp (map_eq_some_iff.mp h).choose_spec.1).1

/-- A write that gets over stays in the way of nobody. -/
theorem OverBefore.setStatus {k : ℕ} (h : s.OverBefore k) (hst : i < k → st.over) :
    (s.setStatus i st).OverBefore k := by
  intro j hj st' hst'
  rw [status?_setStatus] at hst'
  split at hst'
  case isTrue heq =>
    subst heq
    obtain ⟨_, -, rfl⟩ := map_eq_some_iff.mp hst'
    exact hst hj
  case isFalse => exact h j hj st' hst'

/-- The task of a write moves on, and all the writes before it are over. -/
theorem Inv.setStatus (h : s.Inv) (hbefore : s.OverBefore i)
    (hmove : ∀ st' ∈ s.status? i, st'.over → st.over)
    (hran : ∀ st' ∈ s.status? i, st'.ran → st.ran)
    (hrunning : ¬ st.over → s.status? i = some .waiting) : (s.setStatus i st).Inv := by
  -- a write is in the way of the later ones only while it is not over
  have hkeep (k : ℕ) (hk : s.OverBefore k) : (s.setStatus i st).OverBefore k := by
    refine hk.setStatus fun hik => ?_
    cases hst : s.status? i with
    | some st' => exact hmove st' hst (hk i hik st' hst)
    | none =>
      by_contra hover
      simp [hst] at hrunning
      exact hover hrunning
  refine ⟨?_, ?_, ?_, ?_, ?_, h.sorted⟩
  · simpa [Chain.setStatus] using h.tail
  · intro hnone
    simpa [Chain.setStatus] using hkeep _ (h.tail_none hnone)
  · intro j w hw
    obtain ⟨w', hw', hprev⟩ : ∃ w', s.writes[j]? = some w' ∧ w'.prev = w.prev := by
      simp only [Chain.setStatus, List.getElem?_modify] at hw
      obtain ⟨w', hw', rfl⟩ := map_eq_some_iff.mp hw
      refine ⟨w', hw', ?_⟩
      split <;> rfl
    obtain ⟨hlast, hfirst⟩ := h.prev j w' hw'
    exact ⟨hprev ▸ hlast, fun hnone => hkeep j (hfirst (hprev.trans hnone))⟩
  · intro j st' hst' hbegun
    rw [status?_setStatus] at hst'
    split at hst'
    case isTrue heq => exact hkeep j (heq ▸ hbefore)
    case isFalse => exact hkeep j (h.order j st' hst' hbegun)
  · intro j hj
    obtain ⟨st', hst', hran'⟩ := h.landed j hj
    rw [status?_setStatus]
    split
    case isTrue heq =>
      subst heq
      exact ⟨st, by simp [mem_def.mp hst'], hran st' hst' hran'⟩
    case isFalse => exact ⟨st', hst', hran'⟩

/-- A write that is past its wait gets over. -/
theorem Inv.setStatus_over (h : s.Inv) {st' : Status} (hst : s.status? i = some st')
    (hbegun : st'.begun) (hover : st.over) (hran : st'.ran → st.ran) : (s.setStatus i st).Inv := by
  refine h.setStatus (h.order i st' hst hbegun) (fun _ _ _ => hover) (fun st'' hst'' => ?_)
    (fun hnot => absurd hover hnot)
  obtain rfl := mem_unique hst hst''
  exact hran

/-- A name without writes. -/
lemma Inv.initial : ({} : Chain).Inv where
  tail := by simp
  tail_none := by simp [OverBefore]
  prev := by simp
  order := by simp [status?]
  landed := by simp
  sorted := .nil

/-- A write that is done has none before it in its way, and is in nobody's. -/
lemma Inv.overBefore_succ (h : s.Inv) (hst : s.status? i = some st) (hdone : st.done) :
    s.OverBefore (i + 1) := by
  have hbegun : st.begun := by
    cases st <;> first | rfl | cases hdone
  intro j hj st' hst'
  rcases Nat.lt_succ_iff_lt_or_eq.mp hj with hj | rfl
  · exact h.order i st hst hbegun j hj st' hst'
  · obtain rfl := mem_unique hst hst'
    exact Status.over_of_done hdone

/-- A write whose wait is over has none before it in its way. -/
theorem Inv.overBefore_of_prev (h : s.Inv) {w : Write} (hw : s.writes[i]? = some w)
    (hprev : ∀ p ∈ w.prev, ∀ st ∈ s.status? p, st.done) : s.OverBefore i := by
  obtain ⟨hlast, hfirst⟩ := h.prev i w hw
  cases hp : w.prev with
  | none => exact hfirst hp
  | some p =>
    have hpi : p + 1 = i := hlast p hp
    subst hpi
    obtain ⟨st, hst⟩ : ∃ st, s.status? p = some st := by
      have hlen : p + 1 < s.writes.length := (List.getElem?_eq_some_iff.mp hw).1
      exact ⟨_, status?_of_getElem (List.getElem?_eq_getElem (Nat.lt_of_succ_lt hlen))⟩
    exact h.overBefore_succ hst (hprev p hp st hst)

/-- A write is queued behind the tail, and nothing is dropped from the wait of the next one. -/
lemma Inv.queue (h : s.Inv) {status : Status} (hstatus : status = .waiting ∨ status = .shed)
    (hclear : status = .shed → s.OverBefore s.writes.length) :
    ({ s with
      writes := s.writes ++ [{ prev := s.tail, status }]
      tail := some s.writes.length } : Chain).Inv := by
  set t : Chain :=
    { s with writes := s.writes ++ [{ prev := s.tail, status }], tail := some s.writes.length }
  have hold (i : ℕ) (hi : i < s.writes.length) : t.writes[i]? = s.writes[i]? :=
    List.getElem?_append_left hi
  have hbefore (i : ℕ) (hi : i ≤ s.writes.length) (h : s.OverBefore i) : t.OverBefore i := by
    intro j hj st hst
    refine h j hj st ?_
    rwa [status?, hold j (by omega)] at hst
  have hcases (i : ℕ) (w : Write) (hw : t.writes[i]? = some w) :
      i < s.writes.length ∧ s.writes[i]? = some w ∨
        i = s.writes.length ∧ w = { prev := s.tail, status } := by
    by_cases hi : i < s.writes.length
    · exact .inl ⟨hi, hold i hi ▸ hw⟩
    · have hlen := (List.getElem?_eq_some_iff.mp hw).1
      have hi : i = s.writes.length := by
        simp only [t, length_append, length_singleton] at hlen
        omega
      subst hi
      simp only [t, List.getElem?_concat_length] at hw
      exact .inr ⟨rfl, (Option.some.inj hw).symm⟩
  have hstatus? (i : ℕ) (st : Status) (hst : t.status? i = some st) :
      i < s.writes.length ∧ s.status? i = some st ∨ i = s.writes.length ∧ st = status := by
    obtain ⟨w, hw, rfl⟩ := map_eq_some_iff.mp hst
    rcases hcases i w hw with ⟨hi, hw⟩ | ⟨hi, rfl⟩
    · exact .inl ⟨hi, status?_of_getElem hw⟩
    · exact .inr ⟨hi, rfl⟩
  refine ⟨?_, ?_, ?_, ?_, ?_, h.sorted⟩
  · rintro _ ⟨⟩
    simp [t]
  · simp [t]
  · intro i w hw
    rcases hcases i w hw with ⟨hi, hw⟩ | ⟨rfl, rfl⟩
    · obtain ⟨hlast, hfirst⟩ := h.prev i w hw
      exact ⟨hlast, fun hnone => hbefore i hi.le (hfirst hnone)⟩
    · exact ⟨h.tail, fun hnone => hbefore _ le_rfl (h.tail_none hnone)⟩
  · intro i st hst hbegun
    rcases hstatus? i st hst with ⟨hi, hst⟩ | ⟨rfl, rfl⟩
    · exact hbefore i hi.le (h.order i st hst hbegun)
    · -- only a shed write is queued past its wait
      rcases hstatus with rfl | rfl
      · cases hbegun
      · exact hbefore _ le_rfl (hclear rfl)
  · intro i hi
    obtain ⟨st, hst, hran⟩ := h.landed i hi
    exact ⟨st, by rwa [mem_def, status?, hold i (lt_length_of_status? hst)], hran⟩

/-- The record of a write lands while no later body has begun. -/
lemma Inv.land (h : s.Inv) (hst : s.status? i = some st) (hran : st.ran) (hnew : i ∉ s.landed)
    (hlater : ∀ j, i < j → ∀ st ∈ s.status? j, ¬ st.ran) :
    ({ s with landed := i :: s.landed } : Chain).Inv := by
  refine { h with
    landed := forall_mem_cons.mpr ⟨⟨st, hst, hran⟩, h.landed⟩
    sorted := pairwise_cons.mpr ⟨fun j hj => ?_, h.sorted⟩ }
  obtain ⟨st', hst', hran'⟩ := h.landed j hj
  rcases Nat.lt_trichotomy j i with hji | rfl | hij
  · exact hji
  · exact absurd hj hnew
  · exact absurd hran' (hlater j hij st' hst')

/-- While a write is in its body, no later one has begun. -/
lemma Inv.not_ran_of_running (h : s.Inv) (hrunning : s.status? i = some .running) {j : ℕ}
    (hij : i < j) (hst : st ∈ s.status? j) : ¬ st.ran := fun hran =>
  absurd (h.order j st hst (Status.begun_of_ran hran) i hij _ hrunning) (by decide)

variable {t : Chain}

/-- The task of a write gets past its wait. -/
theorem Inv.step_start (h : s.Inv) (hstep : s.step sheds (.start i) = some t) : t.Inv := by
  simp only [Chain.step] at hstep
  split at hstep
  case h_1 prev hw =>
    obtain ⟨hprev, hstep⟩ := ite_none_right_eq_some.mp hstep
    cases hstep
    have hst := status?_of_getElem hw
    exact h.setStatus (h.overBefore_of_prev hw hprev) (by simp [hst, Status.over])
      (fun _ _ _ => rfl) (fun _ => hst)
  case h_2 prev hw =>
    cases hstep
    exact h.setStatus_over (status?_of_getElem hw) rfl rfl nofun
  case h_3 => cases hstep

/-- The record of a write lands, from its body or from the store call it left behind. -/
theorem Inv.step_land (h : s.Inv) (hclear : s.Clear sheds (.land i))
    (hstep : s.step sheds (.land i) = some t) : t.Inv := by
  simp only [Chain.step] at hstep
  split at hstep
  case h_1 hst =>
    -- in its body, behind which none has begun
    obtain ⟨hnew, hstep⟩ := ite_none_left_eq_some.mp hstep
    cases hstep
    exact h.land hst rfl hnew fun j hij st => h.not_ran_of_running hst hij
  case h_2 hst =>
    -- left behind, as the step being clear allows
    obtain ⟨hnew, hstep⟩ := ite_none_left_eq_some.mp hstep
    cases hstep
    exact h.land hst rfl hnew fun j hij st hst' =>
      hclear hst j (lt_length_of_status? hst') hij st hst'
  case h_3 => cases hstep

/-- A write is cancelled. -/
theorem Inv.step_cancel (h : s.Inv) (hclear : s.Clear sheds (.cancel i))
    (hstep : s.step sheds (.cancel i) = some t) : t.Inv := by
  simp only [Chain.step] at hstep
  split at hstep
  case h_1 hst =>
    cases hstep
    exact h.setStatus (hclear hst) (fun _ _ _ => rfl) (by simp [hst, Status.ran])
      (by simp [Status.over])
  case h_2 hst =>
    cases hstep
    exact h.setStatus_over hst rfl rfl fun _ => rfl
  case h_3 hst =>
    cases hstep
    exact h.setStatus_over hst rfl rfl nofun
  case h_4 =>
    cases hstep
    exact h

/-- A write that is done leaves the tail. -/
theorem Inv.step_clear (h : s.Inv) (hstep : s.step sheds (.clear i) = some t) : t.Inv := by
  obtain ⟨⟨st, hst, hdone⟩, hstep⟩ := ite_none_right_eq_some.mp hstep
  cases hstep
  split
  case isFalse => exact h
  case isTrue htail =>
    refine { h with tail := by simp, tail_none := fun _ => ?_ }
    -- the tail was the last write, and it is done
    have hlast : i + 1 = s.writes.length := h.tail i htail
    exact (hlast ▸ h.overBefore_succ hst hdone : s.OverBefore s.writes.length)

/-- Every clear step keeps the invariant. -/
theorem Inv.step (h : s.Inv) {e : Event} (hclear : s.Clear sheds e)
    (hstep : s.step sheds e = some t) : t.Inv := by
  cases e with
  | others count =>
    cases hstep
    exact { h with }
  | queue =>
    cases hstep
    refine h.queue ?_ fun hshed => hclear ?_
    · split <;> simp
    · by_contra hfree
      simp [hfree] at hshed
  | start i => exact h.step_start hstep
  | land i => exact h.step_land hclear hstep
  | finish i | timeout i =>
    obtain ⟨hst, hstep⟩ := ite_none_right_eq_some.mp hstep
    cases hstep
    exact h.setStatus_over hst rfl rfl fun _ => rfl
  | cancel i => exact h.step_cancel hclear hstep
  | clear i => exact h.step_clear hstep

/-! ## Runs -/

/-- The writes of a chain keep their order in every run whose steps are clear: the body of a write
starts only when all the writes queued before it are over, and the newest record is that of the
write queued last among those that landed. -/
theorem chain_ordered {events : List Event}
    (hrun : Run (fun s e t => s.Clear sheds e ∧ s.step sheds e = some t) {} events s) :
    (∀ i t, s.step sheds (.start i) = some t → s.status? i = some .waiting → s.OverBefore i) ∧
      ∀ i ∈ s.landed.head?, ∀ j ∈ s.landed, j ≤ i := by
  have hinv : s.Inv := hrun.invariant (fun _ _ _ h hstep => h.step hstep.1 hstep.2) .initial
  constructor
  · intro i t hstep hwaiting
    simp only [step] at hstep
    split at hstep
    case h_1 prev hw =>
      exact hinv.overBefore_of_prev hw (ite_none_right_eq_some.mp hstep).1
    case h_2 prev hw => simp [status?_of_getElem hw] at hwaiting
    case h_3 => cases hstep
  · intro i hi j hj
    cases hlanded : s.landed with
    | nil => simp [hlanded] at hj
    | cons k rest =>
      have hsorted := hinv.sorted
      rw [hlanded, pairwise_cons] at hsorted
      obtain rfl : k = i := by simpa [hlanded] using hi
      rcases mem_cons.mp (hlanded ▸ hj) with rfl | hj
      · exact le_rfl
      · exact (hsorted.1 j hj).le

/-- Three writes. The body of the first gives up on its store call, which lands before the second
is shed. -/
private def shedBehindTimeout : List Event :=
  [.queue, .start 0, .timeout 0, .clear 0, .land 0, .others maxPendingStateWrites, .queue, .start 1,
    .clear 1, .others 0, .queue, .start 2, .land 2]

instance (s : Chain) (i : ℕ) : Decidable (s.OverBefore i) :=
  inferInstanceAs (Decidable (∀ j < i, ∀ st ∈ s.status? j, st.over))

instance (sheds : Bool) (s : Chain) (e : Event) : Decidable (s.Clear sheds e) := by
  cases e <;> unfold Clear <;> infer_instance

/-- A step, if it is clear. -/
private def clearStep (s : Chain) (e : Event) : Option Chain :=
  if s.Clear true e then s.step true e else none

/-- A clear run in which a write is left behind and another is shed. -/
theorem chain_ordered_shed : ∃ s : Chain,
    Run (fun s e t => s.Clear true e ∧ s.step true e = some t) {} shedBehindTimeout s ∧
      s.landed = [2, 0] ∧ ∀ i ∈ s.landed.head?, ∀ j ∈ s.landed, j ≤ i := by
  have hfold : ((shedBehindTimeout.foldlM clearStep {}).map Chain.landed) = some [2, 0] := by
    decide +kernel
  obtain ⟨s, hs, hlanded⟩ := map_eq_some_iff.mp hfold
  have hrun := Run.of_guarded hs
  exact ⟨s, hrun, hlanded, (chain_ordered hrun).2⟩

/-- The second of three writes is shed while the first has not begun. -/
private def shedBehindWaiting : List Event :=
  [.queue, .others (maxPendingStateWrites - 1), .queue, .start 1, .clear 1, .others 0, .queue]

/-- The placeholder of a shed write ends at once, so the third write starts before the first, and
the record of the first ends up the newest. -/
theorem shed_write_reorders : ∃ s t : Chain,
    Run (fun s e t => s.step true e = some t) {} shedBehindWaiting s ∧
      s.status? 2 = some .waiting ∧ (s.step true (.start 2)).isSome ∧ ¬ s.OverBefore 2 ∧
      Run (fun s e t => s.step true e = some t) s [.start 2, .land 2, .start 0, .land 0] t ∧
      t.landed = [0, 2] := by
  have hfold : ((shedBehindWaiting.foldlM (step true) {}).bind fun s =>
      ([.start 2, .land 2, .start 0, .land 0].foldlM (step true) s).map fun t =>
        (s.status? 2, (s.step true (.start 2)).isSome, decide (s.OverBefore 2), t.landed)) =
      some (some .waiting, true, false, [0, 2]) := by
    decide +kernel
  obtain ⟨s, hs, hfold⟩ := bind_eq_some_iff.mp hfold
  obtain ⟨t, ht, hsummary⟩ := map_eq_some_iff.mp hfold
  simp only [Prod.mk.injEq, decide_eq_false_iff_not] at hsummary
  obtain ⟨hwaiting, hstarts, hbefore, hlanded⟩ := hsummary
  exact ⟨s, t, .of_foldlM hs, hwaiting, hstarts, hbefore, .of_foldlM ht, hlanded⟩

-- so does a store call that was left behind, with nothing shed or cancelled
example : ([.queue, .start 0, .timeout 0, .clear 0, .queue, .start 1, .land 1, .land 0].foldlM
    (step true) {}).map Chain.landed = some [0, 1] := by
  decide +kernel

end Chain

end Cronstable.Writes
