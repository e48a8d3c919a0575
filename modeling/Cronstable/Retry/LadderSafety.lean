import Cronstable.Retry.Ladder
import Mathlib.Data.List.Range

/-!
# Each attempt of a retry ladder is launched at most once

The nodes meet at the newest record of the stream. What carries the argument: a node whose record
is the newest owes only the attempt that comes next, and a record that leaves an attempt to be
launched leaves that one (`State.Inv`). Then a retry that found its own record on top under the
claim lease launches an attempt that nobody launched.

The program keeps this as long as its steps are clear of two situations (`State.Clear`). A retry
that goes on must have the lease, and must not go on because the newest record is a handoff: a
handoff has no `host`, so that of another host is not seen to be one. And a `pending` or a `handoff`
must not land on the record of a node that resumed the ladder before.
`launched_attempts_nodup` is the result, `attempt_launched_twice` a run of the program in which a
node that was held back launches the attempt that another node resumed, launched and handed on.
-/

namespace Cronstable.Retry

open Trace List Option Scan Node State Ladder Function Record

variable {Host : Type}

/-! ## What a node owes -/

/-- The attempt that the ladder of a node can still announce or launch. -/
def Ladder.owed (l : Ladder) : Option ℕ :=
  match l.phase with
  | .launching _ | .running => some (l.count + 1)
  | .aborting _ => none
  | .waiting | .denied | .reading _ | .settling _ => some l.count

/-- The task holds the claim lease. -/
def Phase.leased : Phase → Bool
  | .reading lease | .settling lease | .launching lease | .aborting lease => lease
  | .waiting | .denied | .running => false

/-- The scan holds the claim lease. -/
def Scan.leased : Scan Host → Bool
  | .idle | .found .. => false
  | .holding .. | .checked .. | .writing .. | .claimed .. | .declined => true

/-- The record that a scan carries, with its attempt. -/
def Scan.carried : Scan Host → Option (Record Host × ℕ)
  | .found r k _ | .holding r k _ | .checked r k _ | .writing r k _ => some (r, k)
  | .idle | .claimed .. | .declined => none

/-- The attempt that a scan saw to be the one that comes next, under the lease. -/
def Scan.seen : Scan Host → Option ℕ
  | .checked _ k _ | .writing _ k _ => some k
  | .idle | .found .. | .holding .. | .claimed .. | .declined => none

/-- The attempt whose claim landed. -/
def Scan.won : Scan Host → Option ℕ
  | .claimed k _ => some k
  | .idle | .found .. | .holding .. | .checked .. | .writing .. | .declined => none

variable {r : Record Host} {attempt : ℕ} {now : Time} {scan : Scan Host}

namespace Node

/-- The attempts that a node can still announce or launch. -/
def Owes (x : Node Host) (k : ℕ) : Prop :=
  (∃ r ∈ x.queue, r.attempt? = some k) ∨ (∃ l ∈ x.ladder, l.owed = some k) ∨ x.scan.won = some k

/-- The node works under the claim lease. -/
def Leased (x : Node Host) : Prop := (∃ l ∈ x.ladder, l.phase.leased) ∨ x.scan.leased

/-- The node is past the check of the newest record, for this attempt. -/
def Decides (x : Node Host) (k : ℕ) : Prop :=
  (∃ l ∈ x.ladder, l.phase = .settling true ∧ l.count = k) ∨ x.scan.seen = some k

/-- How the parts of a node fit together. -/
structure Tidy (n : Host) (x : Node Host) : Prop where
  /-- The scan looks for a ladder only while the node has none. -/
  alone : ∀ l ∈ x.ladder, x.scan = .idle
  /-- A settled record in the queue ends the ladder of the node. -/
  live : x.ladder.isSome ∨ x.scan.won.isSome → ∀ r ∈ x.queue, r.attempt?.isSome
  sorted : x.queue.Pairwise fun r r' => r'.attempt?.isSome → r.attempt?.isSome
  /-- No decision goes on without the lease. -/
  serial : ∀ l ∈ x.ladder, l.phase ≠ .settling false
  wrote : ∀ r ∈ x.queue, r.writer = n
  carried : ∀ r k, x.scan.carried = some (r, k) → r.attempt? = some k
  claim : ∀ r k nb, x.scan = .writing r k nb → r.writer = n

/-! ### How a node changes -/

section Changes

variable {x : Node Host} {n : Host} {l l' : Ladder} {k : ℕ}

/-- A ladder that is due waits. -/
lemma due?_eq_some (h : x.due? now = some l) : x.ladder = some l ∧ l.phase = .waiting := by
  obtain ⟨hl, hdue⟩ := filter_eq_some_iff.mp h
  exact ⟨hl, (of_decide_eq_true hdue).1⟩

/-- While a node has a ladder, every queued record leaves an attempt. -/
lemma Tidy.queue_live (h : x.Tidy n) (hl : x.ladder = some l) :
    ∀ r ∈ x.queue, r.attempt?.isSome :=
  h.live (.inl (by simp [hl]))

lemma Tidy.scan_idle (h : x.Tidy n) (hl : x.ladder = some l) : x.scan = .idle := h.alone l hl

/-- The ladder of a node changes. -/
theorem Tidy.setLadder (h : x.Tidy n) (hl : x.ladder = some l) (hp : l'.phase ≠ .settling false) :
    ({ x with ladder := some l' } : Node Host).Tidy n :=
  { h with
    alone := fun _ _ => h.scan_idle hl
    live := fun _ => h.queue_live hl
    serial := by
      rintro _ ⟨⟩
      exact hp }

/-- The ladder of a node ends. -/
theorem Tidy.dropLadder (h : x.Tidy n) : ({ x with ladder := none } : Node Host).Tidy n :=
  { h with
    alone := by simp
    live := fun hwon => h.live (.inr (by simpa using hwon))
    serial := by simp }

/-- What holds of the queue and of a record holds of both. -/
theorem forall_mem_queueRetryWrite {p : Record Host → Prop} (h : ∀ r ∈ x.queue, p r) (hr : p r) :
    ∀ r' ∈ (x.queueRetryWrite r).queue, p r' :=
  forall_mem_append.mpr ⟨h, forall_mem_singleton.mpr hr⟩

/-- A record that leaves an attempt is queued behind others that do. -/
theorem Tidy.queueOpen (h : x.Tidy n) (hlive : ∀ r ∈ x.queue, r.attempt?.isSome)
    (hr : r.attempt?.isSome) (hwriter : r.writer = n) : (x.queueRetryWrite r).Tidy n :=
  { h with
    live := fun _ => forall_mem_queueRetryWrite hlive hr
    sorted := pairwise_append.mpr
      ⟨h.sorted, pairwise_singleton _ _, fun r' hr' _ _ _ => hlive r' hr'⟩
    wrote := forall_mem_queueRetryWrite h.wrote hwriter }

/-- A settled record is queued by a node whose ladder ends with it. -/
theorem Tidy.queueSettled (h : x.Tidy n) (hr : r.attempt? = none) (hwriter : r.writer = n)
    (hwon : x.scan.won = none) : ({ x.queueRetryWrite r with ladder := none } : Node Host).Tidy n :=
  { h with
    alone := by simp
    live := fun hlive => by simp [queueRetryWrite, hwon] at hlive
    sorted := by
      refine pairwise_append.mpr ⟨h.sorted, pairwise_singleton _ _, ?_⟩
      intro r' _ r'' hr'' hsome
      rw [mem_singleton.mp hr'', hr] at hsome
      cases hsome
    serial := by simp
    wrote := forall_mem_queueRetryWrite h.wrote hwriter }

/-- The scan of a node that has no ladder moves on. -/
theorem Tidy.setScan (h : x.Tidy n) (hnone : x.ladder = none)
    (hwon : scan.won.isSome → ∀ r ∈ x.queue, r.attempt?.isSome)
    (hcarried : ∀ r k, scan.carried = some (r, k) → r.attempt? = some k)
    (hclaim : ∀ r k nb, scan = .writing r k nb → r.writer = n) : (x.setScan scan).Tidy n :=
  { h with
    alone := by simp [Node.setScan, hnone]
    live := fun hlive => hwon (by simpa [Node.setScan, hnone] using hlive)
    carried := hcarried
    claim := hclaim }

/-- A retry may be armed while the scan is idle. -/
lemma Tidy.scheduleRetryJob (h : x.Tidy n) (hlive : ∀ r ∈ x.queue, r.attempt?.isSome)
    (hidle : x.scan = .idle) (now delay : Time) : (x.scheduleRetryJob n now delay k).Tidy n :=
  { h.queueOpen (r := .pending k (now + delay) n now none) hlive rfl rfl with
    alone := fun _ _ => hidle
    live := fun _ => forall_mem_queueRetryWrite hlive rfl
    serial := by
      rintro _ ⟨⟩
      simp }

/-- A ladder may end while the scan has not won another. -/
lemma Tidy.cancelJobRetries (h : x.Tidy n) (hwon : x.scan.won = none) (now : Time)
    (settle : Reason) : (x.cancelJobRetries n now k settle).Tidy n := by
  unfold Node.cancelJobRetries
  split
  · exact h.queueSettled rfl rfl hwon
  · exact h.dropLadder

/-- A ladder may be handed off. -/
lemma Tidy.abandonRetry (h : x.Tidy n) (hl : x.ladder = some l) (now : Time) :
    (x.abandonRetry n now l).Tidy n :=
  (h.queueOpen (h.queue_live hl) rfl rfl).dropLadder

/-- A ladder that owes no more than before. -/
lemma Owes.of_setLadder (hl : x.ladder = some l) (howed : ∀ k, l'.owed = some k → l.owed = some k)
    (h : ({ x with ladder := some l' } : Node Host).Owes k) : x.Owes k := by
  rcases h with h | ⟨_, ⟨⟩, h⟩ | h
  · exact .inl h
  · exact .inr (.inl ⟨l, hl, howed k h⟩)
  · exact .inr (.inr h)

/-- A ladder that ended owes nothing. -/
lemma Owes.of_dropLadder (h : ({ x with ladder := none } : Node Host).Owes k) : x.Owes k := by
  rcases h with h | ⟨_, ⟨⟩, -⟩ | h
  · exact .inl h
  · exact .inr (.inr h)

/-- A queued record owes its attempt. -/
lemma Owes.of_queue (h : (x.queueRetryWrite r).Owes k) : r.attempt? = some k ∨ x.Owes k := by
  rcases h with ⟨r', hr', h⟩ | h
  · rcases mem_append.mp hr' with hr' | hr'
    · exact .inr (.inl ⟨r', hr', h⟩)
    · exact .inl (mem_singleton.mp hr' ▸ h)
  · exact .inr (.inr h)

/-- A retry that is armed owes its attempt. -/
lemma Owes.of_scheduleRetryJob {delay : Time}
    (h : (x.scheduleRetryJob n now delay attempt).Owes k) :
    k = attempt ∨ ({ x with ladder := none } : Node Host).Owes k := by
  rcases h with ⟨r, hr, h⟩ | ⟨_, ⟨⟩, h⟩ | h
  · rcases mem_append.mp hr with hr | hr
    · exact .inr (.inl ⟨r, hr, h⟩)
    · rw [mem_singleton.mp hr] at h
      exact .inl (Option.some.inj h).symm
  · exact .inl (Option.some.inj h).symm
  · exact .inr (.inr (.inr h))

/-- The end of a ladder owes nothing. -/
lemma Owes.of_cancelJobRetries {count : ℕ} {settle : Reason}
    (h : (x.cancelJobRetries n now count settle).Owes k) : x.Owes k := by
  unfold cancelJobRetries at h
  split at h
  · exact h.of_dropLadder.of_queue.resolve_left (by simp [attempt?])
  · exact h.of_dropLadder

/-- A scan that has not won owes nothing. -/
lemma Owes.of_setScan (hwon : scan.won = none) (h : (x.setScan scan).Owes k) : x.Owes k := by
  rcases h with h | h | h
  · exact .inl h
  · exact .inr (.inl h)
  · simp [setScan, hwon] at h

lemma Tidy.ladder_eq_none (h : x.Tidy n) (hscan : x.scan ≠ .idle) : x.ladder = none :=
  eq_none_iff_forall_not_mem.mpr fun l hl => hscan (h.alone l hl)

/-- A node that decides nothing. -/
lemma not_decides (hladder : ∀ l ∈ x.ladder, l.phase ≠ .settling true)
    (hscan : x.scan.seen = none) : ¬ x.Decides k := by
  rintro (⟨l, hl, hphase, -⟩ | hseen)
  · exact hladder l hl hphase
  · simp [hscan] at hseen

/-- A node that works without the lease. -/
lemma not_leased (hladder : ∀ l ∈ x.ladder, l.phase.leased = false)
    (hscan : x.scan.leased = false) : ¬ x.Leased := by
  rintro (⟨l, hl, hphase⟩ | hleased)
  · simp [hladder l hl] at hphase
  · simp [hscan] at hleased

end Changes

end Node

variable {notBefore : Time} {job : Job} {s t : State Host} {n : Host}

namespace State

/-- The attempt that comes next. -/
def next (s : State Host) : ℕ := s.launched.length + 1

/-- No other node wrote the newest record of the ladder. -/
def Own (s : State Host) (n : Host) : Prop := ∀ r ∈ s.records.head?, r.writer = n

/-- What the runs keep. -/
structure Inv (s : State Host) : Prop where
  launched : s.launched.map Prod.snd = (List.range' 1 s.launched.length).reverse
  newest : ∀ r ∈ s.newest, ∀ k, r.attempt? = some k → k = s.next
  own : ∀ n k, s.Own n → (s.nodes n).Owes k → k = s.next
  decides : ∀ n k, (s.nodes n).Decides k → k = s.next
  leased : ∀ n, (s.nodes n).Leased → s.lease = some n
  tidy : ∀ n, (s.nodes n).Tidy n

variable [DecidableEq Host]

/-- A ladder starts with the failure of a scheduled run on node `n`. Nothing is left of the earlier
ladders of the job. -/
structure Starts (n : Host) (s : State Host) : Prop where
  records : s.records = []
  older : ∀ r ∈ s.older.head?, r.attempt? = none
  lease : s.lease = none
  launched : s.launched = []
  queue : ∀ m, (s.nodes m).queue = []
  scan : ∀ m, (s.nodes m).scan = .idle
  running : ∃ l ∈ (s.nodes n).ladder, l.count = 0 ∧ l.phase = .running
  others : ∀ m, m ≠ n → (s.nodes m).ladder = none

/-- What a step must be clear of. -/
def Clear (s : State Host) : Event Host → Prop
  -- a pending or a handoff lands on a record of the node that queued it
  | .land n => ∀ r ∈ (s.nodes n).queue.head?, r.attempt?.isSome → s.Own n
  -- a decision that goes on holds the lease, and read a record that names its host
  | .read n => s.moved n = false →
      (∀ l ∈ (s.nodes n).ladder, l.phase ≠ .reading false) ∧ ∀ r ∈ s.newest, r.host?.isSome
  | _ => True

/-- At the start there is only the scheduled run. -/
lemma Starts.ladder {m : Host} {l : Ladder} (h : s.Starts n)
    (hl : l ∈ (s.nodes m).ladder) : l.count = 0 ∧ l.phase = .running := by
  by_cases hm : m = n
  · subst hm
    obtain ⟨l', hl', hrunning⟩ := h.running
    exact mem_unique hl' hl ▸ hrunning
  · simp [h.others m hm] at hl

/-- The invariant holds at the start. -/
lemma Starts.inv (h : s.Starts n) : s.Inv where
  launched := by simp [h.launched]
  newest r hr k hk := by
    have hr : r ∈ s.older.head? := by simpa [newest, h.records] using hr
    simp [h.older r hr] at hk
  own m k _ howes := by
    rcases howes with ⟨r, hr, -⟩ | ⟨l, hl, howed⟩ | hwon
    · simp [h.queue m] at hr
    · simpa [owed, h.ladder hl, next, h.launched, eq_comm] using howed
    · simp [h.scan m, won] at hwon
  decides m k hdec := by
    rcases hdec with ⟨l, hl, hsettling, -⟩ | hseen
    · simp [h.ladder hl] at hsettling
    · simp [h.scan m, seen] at hseen
  leased m hleased := by
    rcases hleased with ⟨l, hl, hleased⟩ | hleased
    · simp [h.ladder hl, Phase.leased] at hleased
    · simp [h.scan m, leased] at hleased
  tidy m := by
    refine ⟨fun _ _ => h.scan m, ?_, ?_, fun l hl => ?_, ?_, ?_, ?_⟩
    · simp [h.queue m]
    · simp [h.queue m]
    · simp [h.ladder hl]
    · simp [h.queue m]
    · simp [h.scan m, carried]
    · simp [h.scan m]

/-! ## The steps -/

variable {l : Ladder}

section Steps

variable {x : Node Host} {lease : Option Host}

/-- A step of one node that appends nothing. What the node owes it owed before. -/
theorem Inv.quiet (h : s.Inv) (ranAt : Option Time) (howes : ∀ k, x.Owes k → (s.nodes n).Owes k)
    (hdecides : ∀ k, x.Decides k → k = s.next) (hleased : x.Leased → lease = some n)
    (hothers : ∀ m ≠ n, s.lease = some m → lease = some m) (htidy : x.Tidy n) :
    ({ s with lease, ranAt }.setNode n x : State Host).Inv where
  launched := h.launched
  newest := h.newest
  own := (forall_update_iff s.nodes fun m y => ∀ k, s.Own m → y.Owes k → k = s.next).mpr
    ⟨fun k hown hk => h.own n k hown (howes k hk), fun m _ => h.own m⟩
  decides := (forall_update_iff s.nodes fun _ y => ∀ k, y.Decides k → k = s.next).mpr
    ⟨hdecides, fun m _ => h.decides m⟩
  leased := (forall_update_iff s.nodes fun m y => y.Leased → lease = some m).mpr
    ⟨hleased, fun m hm hy => hothers m hm (h.leased m hy)⟩
  tidy := (forall_update_iff s.nodes fun m y => y.Tidy m).mpr ⟨htidy, fun m _ => h.tidy m⟩

/-- A step of one node that keeps the lease. -/
theorem Inv.keep (h : s.Inv) (howes : ∀ k, x.Owes k → (s.nodes n).Owes k)
    (hdecides : ∀ k, x.Decides k → k = s.next) (hleased : x.Leased → s.lease = some n)
    (htidy : x.Tidy n) : (s.setNode n x).Inv :=
  h.quiet s.ranAt howes hdecides hleased (fun _ _ hm => hm) htidy

/-- A record of a node lands. From then on all that the node owes must be the attempt that comes
next; the other nodes owe whatever they like. -/
theorem Inv.append (h : s.Inv) {launched : List (Host × ℕ)} (hwriter : r.writer = n)
    (hlaunched : launched.map Prod.snd = (List.range' 1 launched.length).reverse)
    (hnext : launched.length = s.launched.length ∨ s.lease = some n)
    (hopen : ∀ k, r.attempt? = some k → k = launched.length + 1)
    (howes : ∀ k, x.Owes k → k = launched.length + 1)
    (hdecides : ∀ k, x.Decides k → k = launched.length + 1) (hleased : x.Leased → s.lease = some n)
    (htidy : x.Tidy n) :
    ({ s.append r with launched }.setNode n x : State Host).Inv where
  launched := hlaunched
  newest r' hr' k hk := by
    obtain rfl : r = r' := by simpa [State.newest, setNode, State.append] using hr'
    exact hopen k hk
  own m k hown hm := by
    -- the newest record is this node's
    obtain rfl : n = m := by
      rw [← hwriter]
      exact hown r rfl
    exact howes k (by simpa [setNode, append] using hm)
  decides m k hm := by
    by_cases hmn : m = n
    · subst hmn
      exact hdecides k (by simpa [setNode, State.append] using hm)
    · have hm : (s.nodes m).Decides k := by simpa [setNode, State.append, hmn] using hm
      rcases hnext with hnext | hlease
      · simpa [next, setNode, hnext] using h.decides m k hm
      · -- a node past its check holds the lease
        have hmlease : s.lease = some m := h.leased m (by
          rcases hm with ⟨l, hl, hphase, -⟩ | hseen
          · exact .inl ⟨l, hl, by simp [hphase, Phase.leased]⟩
          · right
            revert hseen
            cases (s.nodes m).scan <;> simp [Scan.seen, Scan.leased])
        rw [hlease] at hmlease
        exact absurd (Option.some.inj hmlease).symm hmn
  leased := (forall_update_iff s.nodes fun m y => y.Leased → s.lease = some m).mpr
    ⟨hleased, fun m _ => h.leased m⟩
  tidy := (forall_update_iff s.nodes fun m y => y.Tidy m).mpr ⟨htidy, fun m _ => h.tidy m⟩

/-- The node that acquires the lease is the only one to hold it. -/
theorem others_of_grants (hgrants : s.grants n) : ∀ m ≠ n, s.lease = some m → some n = some m := by
  intro m hm hlease
  simp only [grants, hlease, all_some, beq_iff_eq] at hgrants
  exact absurd hgrants hm

omit [DecidableEq Host] in
lemma releaseLease_eq (held : Bool) :
    s.releaseLease held = { s with lease := if held then none else s.lease } := by
  cases held <;> rfl

omit [DecidableEq Host] in
/-- The node that releases the lease was the only one to hold it. -/
theorem others_of_release (held : Bool) (hheld : held → s.lease = some n) :
    ∀ m ≠ n, s.lease = some m → (if held then none else s.lease) = some m := by
  intro m hm hlease
  split
  case isTrue hyes => exact absurd (mem_unique (hheld hyes) hlease).symm hm
  case isFalse => exact hlease

section

variable (h : s.Inv)

include h

/-- A node releases the lease that it holds. -/
lemma Inv.release {held : Bool} (hheld : held → s.lease = some n)
    (howes : ∀ k, x.Owes k → (s.nodes n).Owes k) (hdecides : ∀ k, ¬ x.Decides k)
    (hleased : ¬ x.Leased) (htidy : x.Tidy n) : ((s.releaseLease held).setNode n x).Inv := by
  rw [releaseLease_eq]
  exact h.quiet s.ranAt howes (fun k hk => absurd hk (hdecides k)) (fun hx => absurd hx hleased)
    (others_of_release held hheld) htidy

/-- The task of the ladder moves on. -/
theorem Inv.setLadder {l' : Ladder} (hl : (s.nodes n).ladder = some l)
    (howed : ∀ k, l'.owed = some k → l.owed = some k)
    (hdecides : l'.phase = .settling true → l'.count = s.next)
    (hserial : l'.phase ≠ .settling false) (hleased : l'.phase.leased → lease = some n)
    (hothers : ∀ m ≠ n, s.lease = some m → lease = some m) :
    ({ s with lease }.setNode n { s.nodes n with ladder := some l' } : State Host).Inv := by
  have hidle := (h.tidy n).scan_idle hl
  refine h.quiet s.ranAt (fun k hk => hk.of_setLadder hl howed) ?_ ?_ hothers
    ((h.tidy n).setLadder hl hserial)
  · rintro k (⟨_, ⟨⟩, hphase, rfl⟩ | hseen)
    · exact hdecides hphase
    · simp [hidle, Scan.seen] at hseen
  · rintro (⟨_, ⟨⟩, hphase⟩ | hscan)
    · exact hleased hphase
    · simp [hidle, Scan.leased] at hscan

/-- A run ends: its ladder goes on with the next attempt, or ends. -/
lemma Inv.finish {outcome : Outcome}
    (hstep : s.finish job n now outcome = some t) : t.Inv := by
  unfold State.finish at hstep
  split at hstep
  case h_2 => cases hstep
  case h_1 count armedAt delay due hl =>
    -- the row of the run and the instant of its end are not what the invariant speaks of
    set x : Node Host :=
      { s.nodes n with rows := (s.nodes n).rows ++ [now], lastCompletedAt := some now } with hx
    have htidy : x.Tidy n := { h.tidy n with }
    have hidle : x.scan = .idle := htidy.scan_idle hl
    have howed (k : ℕ) (hk : x.Owes k) : (s.nodes n).Owes k := hk
    -- a ladder that ends, or waits for its next attempt, holds no lease
    have hquiet (y : Node Host) (hy : ∀ l ∈ y.ladder, l.phase = .waiting) (hscan : y.scan = x.scan)
        (hyowes : ∀ k, y.Owes k → (s.nodes n).Owes k) (hytidy : y.Tidy n) :
        (s.setNode n y).Inv := by
      refine h.keep hyowes (fun k hk => absurd hk (not_decides ?_ ?_))
        (fun hk => absurd hk (not_leased ?_ ?_)) hytidy
      · intro l hl
        simp [hy l hl]
      · simp [hscan, hidle, Scan.seen]
      · intro l hl
        simp [hy l hl, Phase.leased]
      · simp [hscan, hidle, Scan.leased]
    have hcancel (settle : Reason) :
        (s.setNode n (x.cancelJobRetries n now count settle)).Inv := by
      refine hquiet _ ?_ ?_ (fun k hk => howed k hk.of_cancelJobRetries)
        (htidy.cancelJobRetries (by simp [hidle, won]) now settle)
      · unfold cancelJobRetries
        split <;> simp
      · unfold cancelJobRetries
        split <;> rfl
    cases outcome with cases hstep
    | succeeded | cancelled => exact hcancel _
    | failed =>
      unfold handleJobFailure
      split
      · exact hcancel _
      · refine hquiet _ ?_ rfl (fun k hk => ?_)
          (htidy.scheduleRetryJob (htidy.queue_live hl) hidle _ _)
        · rintro _ ⟨⟩
          rfl
        · rcases hk.of_scheduleRetryJob with rfl | hk
          · exact .inr (.inl ⟨_, hl, rfl⟩)
          · exact howed k hk.of_dropLadder

/-- The oldest ladder write of a node lands. -/
theorem Inv.land {rest : List (Record Host)} (hqueue : (s.nodes n).queue = r :: rest)
    (hclear : r.attempt?.isSome → s.Own n) :
    ((s.append r).setNode n { s.nodes n with queue := rest }).Inv := by
  have htidy := h.tidy n
  have hmem : ∀ r' ∈ rest, r' ∈ (s.nodes n).queue := fun r' hr' => by simp [hqueue, hr']
  have hsorted := htidy.sorted
  rw [hqueue, pairwise_cons] at hsorted
  have howed (k : ℕ) (hk : ({ s.nodes n with queue := rest } : Node Host).Owes k) :
      (s.nodes n).Owes k := by
    rcases hk with ⟨r', hr', hk⟩ | hk
    · exact .inl ⟨r', hmem r' hr', hk⟩
    · exact .inr hk
  refine h.append (htidy.wrote r (by simp [hqueue])) h.launched (.inl rfl) (fun k hk => ?_)
    (fun k hk => ?_) (h.decides n) (h.leased n) ?_
  · exact h.own n k (hclear (by simp [hk])) (.inl ⟨r, by simp [hqueue], hk⟩)
  · cases hopen : r.attempt?.isSome with
    | true => exact h.own n k (hclear hopen) (howed k hk)
    | false =>
      -- behind a settled record only settled ones are queued, and the ladder has ended
      have hended : ¬ ((s.nodes n).ladder.isSome ∨ (s.nodes n).scan.won.isSome) := fun hlive =>
        absurd (htidy.live hlive r (by simp [hqueue])) (by simp [hopen])
      rcases hk with ⟨r', hr', hk⟩ | ⟨l, hl, -⟩ | hwon
      · exact absurd (hsorted.1 r' hr' (by simp [hk])) (by simp [hopen])
      · exact absurd (.inl (isSome_iff_exists.mpr ⟨l, hl⟩)) hended
      · exact absurd (.inr (isSome_iff_exists.mpr ⟨k, hwon⟩)) hended
  · exact { htidy with
      live := fun hlive r' hr' => htidy.live hlive r' (hmem r' hr')
      sorted := hsorted.2
      wrote := fun r' hr' => htidy.wrote r' (hmem r' hr') }

/-- A retry that was denied the lease goes on, or waits. -/
lemma Inv.observe (failClosed : Bool) (now : Time) (hl : (s.nodes n).ladder = some l)
    (hphase : l.phase = .denied) : (s.observe failClosed n now l).Inv := by
  have hdefer : (s.setNode n ((s.nodes n).defer l now)).Inv :=
    h.setLadder hl (by simp [owed, hphase]) (by simp) (by simp) (by simp [Phase.leased])
      fun _ _ hm => hm
  have hread (lease : Bool) (hlease : lease → s.lease = some n) :
      (s.setNode n ((s.nodes n).setPhase l (.reading lease))).Inv :=
    h.setLadder hl (by simp [owed, hphase]) (by simp) (by simp) hlease fun _ _ hm => hm
  unfold State.observe
  split
  case h_1 m hm =>
    split
    · exact hread true fun _ => by simp_all
    · exact hdefer
  case h_2 =>
    split
    · exact hdefer
    · exact hread false (by simp)

/-- A retry that is not seen to have moved, on a clear step, is the one that comes next. -/
theorem Inv.count_eq_next {lease : Bool} (hl : (s.nodes n).ladder = some l)
    (hphase : l.phase = .reading lease) (hmoved : s.moved n = false)
    (hhost : ∀ r ∈ s.newest, r.host?.isSome) : l.count = s.next := by
  refine h.own n l.count (fun r hr => ?_) (.inr (.inl ⟨l, hl, by simp [owed, hphase]⟩))
  have hnewest : s.newest = some r := by
    rw [State.newest, List.head?_append, mem_def.mp hr, some_or]
  have hsome := hhost r hnewest
  -- the newest record names a host, and it is not another one
  cases r with
  | handoff => simp [host?] at hsome
  | pending | settled => simpa [moved, hnewest, host?, writer] using hmoved

/-- A retry reads the newest record, and stays clear of a handoff. -/
lemma Inv.read {lease : Bool} (hl : (s.nodes n).ladder = some l)
    (hphase : l.phase = .reading lease) (hclear : s.Clear (.read n)) :
    (s.setNode n ((s.nodes n).setPhase l
      (if s.moved n then .aborting lease else .settling lease))).Inv := by
  have hlease : lease → s.lease = some n := fun hlease =>
    h.leased n (.inl ⟨l, hl, by simp [hphase, Phase.leased, hlease]⟩)
  cases hmoved : s.moved n with
  | true =>
    exact h.setLadder hl (by simp [owed]) (by simp) (by simp) hlease fun _ _ hm => hm
  | false =>
    obtain ⟨hheld, hhost⟩ := hclear hmoved
    have htrue : lease = true := by
      cases lease with
      | true => rfl
      | false => exact absurd hphase (hheld l hl)
    subst htrue
    have hcount := h.count_eq_next hl hphase hmoved hhost
    exact h.setLadder hl (by simp [owed, hphase]) (fun _ => hcount) (by simp) hlease
      fun _ _ hm => hm

/-- A retry that passed the check is launched. -/
theorem Inv.consume {lease : Bool} (now : Time) (hl : (s.nodes n).ladder = some l)
    (hphase : l.phase = .settling lease) (hqueue : (s.nodes n).queue = []) :
    ({ s.append (.settled .launched l.count n now) with
      launched := (n, l.count) :: s.launched }.setNode n
        ((s.nodes n).setPhase l (.launching lease)) : State Host).Inv := by
  have htidy := h.tidy n
  have hidle := htidy.scan_idle hl
  obtain rfl : lease = true := by
    cases lease with
    | true => rfl
    | false => exact absurd hphase (htidy.serial l hl)
  have hcount : l.count = s.next := h.decides n _ (.inl ⟨l, hl, hphase, rfl⟩)
  have hlease : s.lease = some n := h.leased n (.inl ⟨l, hl, by simp [hphase, Phase.leased]⟩)
  refine h.append rfl ?_ (.inr hlease) (by simp [attempt?]) ?_ ?_ (fun _ => hlease)
    (htidy.setLadder hl (by simp))
  · rw [map_cons, h.launched, length_cons, range'_concat]
    simp [hcount, next, Nat.add_comm 1]
  · rintro k (⟨r, hr, -⟩ | ⟨_, ⟨⟩, hk⟩ | hwon)
    · simp [setPhase, hqueue] at hr
    · rw [← Option.some.inj hk, hcount]
      rfl
    · simp [setPhase, hidle, won] at hwon
  · intro k hk
    refine absurd hk (not_decides ?_ (by simp [setPhase, hidle, seen]))
    rintro _ ⟨⟩
    simp

/-- A retry is handed off. -/
lemma Inv.abandon (now : Time) (hl : (s.nodes n).ladder = some l) (hphase : l.phase = .waiting) :
    (s.setNode n ((s.nodes n).abandonRetry n now l)).Inv := by
  have hidle := (h.tidy n).scan_idle hl
  refine h.keep (fun k hk => ?_) (fun k hk => absurd hk (not_decides ?_ ?_))
    (fun hk => absurd hk (not_leased ?_ ?_)) ((h.tidy n).abandonRetry hl now)
  · rcases hk.of_dropLadder.of_queue with hk | hk
    · exact .inr (.inl ⟨l, hl, by simpa [owed, hphase, attempt?] using hk⟩)
    · exact hk
  · simp [abandonRetry]
  · simp [abandonRetry, queueRetryWrite, hidle, Scan.seen]
  · simp [abandonRetry]
  · simp [abandonRetry, queueRetryWrite, hidle, Scan.leased]

/-- The claim scan moves on. -/
theorem Inv.setScan (hnone : (s.nodes n).ladder = none) (hwon : scan.won = none)
    (hseen : ∀ k, scan.seen = some k → k = s.next) (hleased : scan.leased → lease = some n)
    (hcarried : ∀ r k, scan.carried = some (r, k) → r.attempt? = some k)
    (hclaim : ∀ r k nb, scan = .writing r k nb → r.writer = n)
    (hothers : ∀ m ≠ n, s.lease = some m → lease = some m) :
    ({ s with lease }.setNode n ((s.nodes n).setScan scan) : State Host).Inv := by
  refine h.quiet s.ranAt (fun k hk => hk.of_setScan hwon) ?_ ?_ hothers
    ((h.tidy n).setScan hnone (by simp [hwon]) hcarried hclaim)
  · rintro k (⟨l, hl, -⟩ | hk)
    · simp [Node.setScan, hnone] at hl
    · exact hseen k hk
  · rintro (⟨l, hl, -⟩ | hk)
    · simp [Node.setScan, hnone] at hl
    · exact hleased hk

omit [DecidableEq Host] in
/-- A node that scans under the lease has no ladder. -/
theorem Inv.scanning (hscan : (s.nodes n).scan = scan) (hleased : scan.leased) :
    (s.nodes n).Tidy n ∧ (s.nodes n).ladder = none ∧ s.lease = some n := by
  subst hscan
  refine ⟨h.tidy n, (h.tidy n).ladder_eq_none fun hidle => ?_, h.leased n (.inr hleased)⟩
  simp [hidle, Scan.leased] at hleased

/-- The claim scan reads the record again under the lease. -/
theorem Inv.recheck (hscan : (s.nodes n).scan = .holding r attempt notBefore) :
    (s.setNode n ((s.nodes n).setScan
      (if s.newest = some r then .checked r attempt notBefore else .declined))).Inv := by
  obtain ⟨htidy, hnone, hlease⟩ := h.scanning hscan rfl
  have hattempt : r.attempt? = some attempt :=
    htidy.carried r attempt (by simp [hscan, carried])
  split
  case isTrue hnewest =>
    refine h.setScan hnone rfl ?_ (fun _ => hlease) ?_ (by simp) fun _ _ hm => hm
    · rintro _ ⟨⟩
      exact h.newest r hnewest attempt hattempt
    · rintro _ _ ⟨⟩
      exact hattempt
  case isFalse =>
    exact h.setScan hnone rfl (by simp [seen]) (fun _ => hlease) (by simp [carried])
      (by simp) fun _ _ hm => hm

/-- The claim scan reads the run ledger. -/
theorem Inv.ledger (now : Time) (hscan : (s.nodes n).scan = .checked r attempt notBefore) :
    (s.ledger n now r attempt notBefore).Inv := by
  obtain ⟨htidy, hnone, hlease⟩ := h.scanning hscan rfl
  unfold State.ledger
  split
  · have hqueued := htidy.queueSettled (r := .settled .supersededByRun attempt n now) rfl rfl
      (by simp [hscan, won])
    refine h.keep (fun k hk => ?_) (fun k hk => absurd hk (Node.not_decides ?_ rfl))
      (fun _ => hlease) ?_
    · exact (hk.of_setScan rfl).of_queue.resolve_left (by simp [attempt?])
    · simp [Node.setScan, Node.queueRetryWrite, hnone]
    · exact ⟨by simp [Node.setScan, Node.queueRetryWrite, hnone],
        by simp [Node.setScan, Node.queueRetryWrite, hnone, won], hqueued.sorted,
        by simp [Node.setScan, Node.queueRetryWrite, hnone], hqueued.wrote,
        by simp [Node.setScan, carried], by simp [Node.setScan]⟩
  · refine h.setScan hnone rfl ?_ (fun _ => hlease) ?_ ?_ fun _ _ hm => hm
    · rintro _ ⟨⟩
      exact h.decides n attempt (.inr (by simp [hscan, seen]))
    · rintro _ _ ⟨⟩
      rfl
    · rintro _ _ _ ⟨⟩
      rfl

/-- The claim lands. -/
theorem Inv.claim (hscan : (s.nodes n).scan = .writing r attempt notBefore)
    (hqueue : (s.nodes n).queue = []) :
    ((s.append r).setNode n ((s.nodes n).setScan (.claimed attempt notBefore))).Inv := by
  obtain ⟨htidy, hnone, hlease⟩ := h.scanning hscan rfl
  have hattempt : r.attempt? = some attempt :=
    htidy.carried r attempt (by simp [hscan, carried])
  have hnext : attempt = s.next := h.decides n attempt (.inr (by simp [hscan, seen]))
  refine h.append (htidy.claim r attempt notBefore hscan) h.launched (.inl rfl) (fun k hk => ?_) ?_
    (fun k hk => absurd hk (Node.not_decides ?_ rfl)) (fun _ => hlease)
    (htidy.setScan hnone (by simp [hqueue]) (by simp [carried]) (by simp))
  · rw [hattempt] at hk
    exact (Option.some.inj hk).symm.trans hnext
  · rintro k (⟨r', hr', -⟩ | ⟨l, hl, -⟩ | hwon)
    · simp [Node.setScan, hqueue] at hr'
    · simp [Node.setScan, hnone] at hl
    · exact (Option.some.inj hwon).symm.trans hnext
  · simp [Node.setScan, hnone]

/-- The claim scan ends, and arms the ladder it claimed. -/
theorem Inv.arm (now : Time) (hscan : (s.nodes n).scan = .claimed attempt notBefore) :
    ((s.releaseLease true).arm n now attempt notBefore).Inv := by
  obtain ⟨htidy, hnone, hlease⟩ := h.scanning hscan rfl
  have hlive : ∀ r ∈ (s.nodes n).queue, r.attempt?.isSome := htidy.live (.inr (by
    simp [hscan, won]))
  have hidle : ((s.nodes n).setScan .idle).Tidy n :=
    htidy.setScan hnone (fun _ => hlive) (by simp [carried]) (by simp)
  have harmed : ((s.nodes n).setScan .idle).ladder.isSome = false := by simp [Node.setScan, hnone]
  have hnodes : (s.releaseLease true).nodes n = s.nodes n := rfl
  simp only [State.arm, hnodes, harmed, Bool.false_eq_true, if_false]
  refine h.release (fun _ => hlease) (fun k hk => ?_) (fun k => not_decides ?_ rfl)
    (not_leased ?_ rfl) (hidle.scheduleRetryJob hlive rfl _ _)
  · rcases hk.of_scheduleRetryJob with rfl | hk
    · exact .inr (.inr (by simp [hscan, won]))
    · exact hk.of_dropLadder.of_setScan rfl
  · rintro _ ⟨⟩
    simp
  · rintro _ ⟨⟩
    rfl

variable {failClosed : Bool}

/-- A run row lands. -/
theorem Inv.step_landRow (hstep : s.step job failClosed (.landRow n) = some t) : t.Inv := by
  simp only [State.step] at hstep
  split at hstep
  case h_2 => cases hstep
  case h_1 at_ rest hrows =>
    cases hstep
    exact h.quiet _ (fun _ hk => hk) (h.decides n) (h.leased n) (fun _ _ hm => hm)
      { h.tidy n with }

/-- A due retry is held back. -/
theorem Inv.step_defer (hstep : s.step job failClosed (.defer n now) = some t) : t.Inv := by
  simp only [State.step] at hstep
  obtain ⟨l, hdue, rfl⟩ := map_eq_some_iff.mp hstep
  obtain ⟨hl, hphase⟩ := due?_eq_some hdue
  exact h.setLadder hl (by simp [owed, hphase]) (by simp) (by simp)
    (by simp [Phase.leased]) fun _ _ hm => hm

/-- A due retry asks for the claim lease. -/
theorem Inv.step_acquire (hstep : s.step job failClosed (.acquire n now) = some t) : t.Inv := by
  simp only [State.step] at hstep
  obtain ⟨l, hdue, rfl⟩ := map_eq_some_iff.mp hstep
  obtain ⟨hl, hphase⟩ := due?_eq_some hdue
  split
  case isTrue hgrants =>
    exact h.setLadder hl (by simp [owed, hphase]) (by simp) (by simp) (fun _ => rfl)
      (others_of_grants hgrants)
  case isFalse =>
    exact h.setLadder hl (by simp [owed, hphase]) (by simp) (by simp)
      (by simp [Phase.leased]) fun _ _ hm => hm

/-- A retry releases the claim lease, or the slot of its ladder with it. -/
theorem Inv.step_release (hstep : s.step job failClosed (.release n) = some t) : t.Inv := by
  simp only [State.step] at hstep
  split at hstep
  case h_2 => cases hstep
  case h_1 l hl =>
    have hidle := (h.tidy n).scan_idle hl
    have hlease (lease : Bool) (hleased : l.phase.leased = lease) :
        lease → s.lease = some n := fun hheld => h.leased n (.inl ⟨l, hl, by simp_all⟩)
    split at hstep
    case h_1 lease hphase =>
      cases hstep
      rw [releaseLease_eq]
      exact h.setLadder hl (by simp [owed, hphase]) (by simp) (by simp)
        (by simp [Phase.leased])
        (others_of_release lease (hlease lease (by simp [hphase, Phase.leased])))
    case h_2 lease hphase =>
      cases hstep
      exact h.release (hlease lease (by simp [hphase, Phase.leased]))
        (fun k hk => hk.of_dropLadder)
        (fun k => not_decides (by simp) (by simp [hidle, Scan.seen]))
        (not_leased (by simp) (by simp [hidle, Scan.leased])) (h.tidy n).dropLadder
    case h_3 => cases hstep

/-- The claim scan finds a record that it may claim. -/
theorem Inv.step_scan (hstep : s.step job failClosed (.scan n now) = some t) : t.Inv := by
  simp only [State.step] at hstep
  split at hstep
  case h_2 => cases hstep
  case h_1 r hnewest =>
    split at hstep
    case h_2 => cases hstep
    case h_1 attempt notBefore hidle hnone hclaimable =>
      split at hstep
      · cases hstep
      · cases hstep
        refine h.setScan hnone rfl (by simp [Scan.seen]) (by simp [Scan.leased]) ?_ (by simp)
          fun _ _ hm => hm
        rintro _ _ ⟨⟩
        exact attempt?_of_claimable hclaimable

/-- The claim scan asks for the claim lease. -/
theorem Inv.step_scanAcquire (hstep : s.step job failClosed (.scanAcquire n) = some t) : t.Inv := by
  simp only [State.step] at hstep
  split at hstep
  case h_2 => cases hstep
  case h_1 r attempt notBefore hscan =>
    cases hstep
    have hnone := (h.tidy n).ladder_eq_none (by simp [hscan])
    split
    case isTrue hgrants =>
      refine h.setScan hnone rfl (by simp [seen]) (fun _ => rfl) ?_ (by simp)
        (others_of_grants hgrants)
      rintro _ _ ⟨⟩
      exact (h.tidy n).carried r attempt (by simp [hscan, Scan.carried])
    case isFalse =>
      exact h.setScan hnone rfl (by simp [Scan.seen]) (by simp [Scan.leased])
        (by simp [carried]) (by simp) fun _ _ hm => hm

/-- The claim scan releases the lease, and arms the ladder it has won. -/
theorem Inv.step_scanRelease (hstep : s.step job failClosed (.scanRelease n now) = some t) :
    t.Inv := by
  simp only [State.step] at hstep
  split at hstep
  case h_1 hscan =>
    cases hstep
    have hnone := (h.tidy n).ladder_eq_none (by simp [hscan])
    exact h.setScan hnone rfl (by simp [Scan.seen]) (by simp [Scan.leased])
      (by simp [Scan.carried]) (by simp)
      (others_of_release true fun _ => h.leased n (.inr (by simp [hscan, Scan.leased])))
  case h_2 attempt notBefore hscan =>
    cases hstep
    exact h.arm now hscan
  case h_3 => cases hstep

/-- Every clear step keeps the invariant. -/
theorem Inv.step {e : Event Host} (hclear : s.Clear e)
    (hstep : s.step job failClosed e = some t) : t.Inv := by
  cases e with
  | finish n now outcome => exact h.finish hstep
  | land n =>
    simp only [State.step] at hstep
    split at hstep
    case h_2 => cases hstep
    case h_1 r rest hqueue =>
      cases hstep
      exact h.land hqueue (hclear r (by simp [hqueue]))
  | landRow n => exact h.step_landRow hstep
  | defer n now => exact h.step_defer hstep
  | acquire n now => exact h.step_acquire hstep
  | observe n now =>
    simp only [State.step] at hstep
    split at hstep
    case h_2 => cases hstep
    case h_1 l hl =>
      obtain ⟨hphase, hstep⟩ := ite_none_right_eq_some.mp hstep
      cases hstep
      exact h.observe failClosed now hl hphase
  | read n =>
    simp only [State.step] at hstep
    split at hstep
    case h_2 => cases hstep
    case h_1 l hl =>
      split at hstep
      case h_2 => cases hstep
      case h_1 lease hphase =>
        cases hstep
        exact h.read hl hphase hclear
  | consume n now =>
    simp only [State.step] at hstep
    split at hstep
    case h_2 => cases hstep
    case h_1 l hl =>
      split at hstep
      case h_2 => cases hstep
      case h_1 lease hphase =>
        obtain ⟨hqueue, hstep⟩ := ite_none_right_eq_some.mp hstep
        cases hstep
        exact h.consume now hl hphase hqueue
  | release n => exact h.step_release hstep
  | abandon n now =>
    simp only [State.step] at hstep
    obtain ⟨l, hdue, rfl⟩ := map_eq_some_iff.mp hstep
    obtain ⟨hl, hphase⟩ := due?_eq_some hdue
    exact h.abandon now hl hphase
  | scan n now => exact h.step_scan hstep
  | scanAcquire n => exact h.step_scanAcquire hstep
  | recheck n =>
    simp only [State.step] at hstep
    split at hstep
    case h_2 => cases hstep
    case h_1 r attempt notBefore hscan =>
      cases hstep
      exact h.recheck hscan
  | ledger n now =>
    simp only [State.step] at hstep
    split at hstep
    case h_2 => cases hstep
    case h_1 r attempt notBefore hscan =>
      cases hstep
      exact h.ledger now hscan
  | claim n =>
    simp only [State.step] at hstep
    split at hstep
    case h_2 => cases hstep
    case h_1 r attempt notBefore hscan =>
      obtain ⟨hqueue, hstep⟩ := ite_none_right_eq_some.mp hstep
      cases hstep
      exact h.claim hscan hqueue
  | scanRelease n now => exact h.step_scanRelease hstep

end

end Steps

/-- Each attempt of a ladder is launched at most once in the cluster, in every run whose steps are
clear. -/
theorem launched_attempts_nodup {job : Job} {failClosed : Bool} {n : Host} {s t : State Host}
    {events : List (Event Host)} (hs : s.Starts n)
    (hrun : Run (fun s e t => s.Clear e ∧ s.step job failClosed e = some t) s events t) :
    (t.launched.map Prod.snd).Nodup := by
  have hinv : t.Inv := hrun.invariant (fun _ _ _ h hstep => h.step hstep.1 hstep.2) hs.inv
  rw [hinv.launched, nodup_iff_pairwise_ne, pairwise_reverse]
  exact (nodup_range' 1).imp Ne.symm

/-! ## Two runs -/

instance (s : State Host) (n : Host) : Decidable (s.Own n) :=
  inferInstanceAs (Decidable (∀ r ∈ s.records.head?, r.writer = n))

instance (s : State Host) (e : Event Host) : Decidable (s.Clear e) := by
  cases e <;> unfold Clear <;> infer_instance

end State

/-- A job with a minute between its attempts. -/
private def minuteJob : Job :=
  { maximumRetries := 3, startingDeadlineSeconds := 0, delay := fun _ => 60 * 1000000 }

/-- The scheduled run is on node `0`, and node `1` does nothing. -/
private def firstRun : State (Fin 2) :=
  { nodes := fun m => if m = 0 then { ladder := some { count := 0, phase := .running } } else {} }

private lemma firstRun_starts : firstRun.Starts 0 where
  records := rfl
  older := by simp [firstRun]
  lease := rfl
  launched := rfl
  queue m := by
    simp only [firstRun]
    split <;> rfl
  scan m := by
    simp only [firstRun]
    split <;> rfl
  running := ⟨_, rfl, rfl, rfl⟩
  others m hm := by simp [firstRun, hm]

/-- A scan of a node claims the newest record and arms its attempt. -/
private def resume (n : Fin 2) (now : Time) : List (Event (Fin 2)) :=
  [.scan n now, .scanAcquire n, .recheck n, .ledger n now, .claim n, .scanRelease n now, .land n]

/-- A retry that is due is launched. -/
private def launch (n : Fin 2) (now : Time) : List (Event (Fin 2)) :=
  [.acquire n now, .read n, .consume n now, .release n]

/-- Node `0` hands its first retry off when it is due; node `1` resumes it, and launches it and the
next one. -/
private def handedOff : List (Event (Fin 2)) :=
  [.finish 0 0 .failed, .land 0, .landRow 0, .abandon 0 60000000, .land 0] ++
    resume 1 61000000 ++ launch 1 61000000 ++
    [.finish 1 65000000 .failed, .land 1, .landRow 1] ++ launch 1 125000000

/-- The step, if it is clear. -/
private def clearStep (s : State (Fin 2)) (e : Event (Fin 2)) : Option (State (Fin 2)) :=
  if s.Clear e then s.step minuteJob false e else none

/-- A clear run in which the ladder moves and two attempts are launched. -/
theorem launched_attempts_nodup_handed_off :
    ∃ t : State (Fin 2),
      Run (fun s e t => s.Clear e ∧ s.step minuteJob false e = some t) firstRun handedOff t ∧
        t.launched = [(1, 2), (1, 1)] ∧ (t.launched.map Prod.snd).Nodup := by
  have hrun : ((handedOff.foldlM clearStep firstRun).map launched) =
      some [(1, 2), (1, 1)] := by
    decide +kernel
  obtain ⟨t, ht, hlaunched⟩ := map_eq_some_iff.mp hrun
  have hclear := Run.of_guarded ht
  exact ⟨t, hclear, hlaunched, launched_attempts_nodup firstRun_starts hclear⟩

/-- Node `0` is held back by its gate. Node `1` resumes the first retry, launches it, arms the
second and hands it off; the gate of node `0` then opens. -/
private def heldBack : List (Event (Fin 2)) :=
  [.finish 0 0 .failed, .land 0, .landRow 0, .defer 0 60000000] ++
    resume 1 100000000 ++ launch 1 100000000 ++
    [.finish 1 105000000 .failed, .land 1, .landRow 1, .defer 0 120000000,
      .abandon 1 165000000, .land 1] ++ launch 0 180000000

/-- The handoff on top of the stream names no `host`, so node `0` goes on with the first retry. -/
theorem attempt_launched_twice :
    ∃ t : State (Fin 2), firstRun.Starts 0 ∧
      Run (fun s e t => s.step minuteJob true e = some t) firstRun heldBack t ∧
        t.launched = [(0, 1), (1, 1)] ∧ ¬ (t.launched.map Prod.snd).Nodup := by
  have hrun : ((heldBack.foldlM (step minuteJob true) firstRun).map launched) =
      some [(0, 1), (1, 1)] := by
    decide +kernel
  obtain ⟨t, ht, hlaunched⟩ := map_eq_some_iff.mp hrun
  refine ⟨t, firstRun_starts, .of_foldlM ht, hlaunched, ?_⟩
  rw [hlaunched]
  decide

end Cronstable.Retry
