import Cronstable.Lib.Trace
import Mathlib.Algebra.Order.Ring.Rat
import Mathlib.Data.NNRat.Defs

/-!
# Leases of the filesystem store

A lease is one small file that every node rewrites under an exclusive lock: the holder, a fence
that counts the takeovers, and the wall-clock second at which it expires. A release keeps the file
and sets the expiry to `0.0`, so the fence survives.

The locked sections `_acquire_sync`, `_renew_sync` and `_release_sync` each read the file, decide
what to write and write it. `acquire`, `renew` and `release` are those decisions on what was read,
and `commit` is what the input and output make of a decision: an unreadable file or a write that
fails leaves the file as it is and the caller empty-handed. `time.time` counts seconds since the
epoch, so its readings are not negative.

`lease_safe` is what the fence and the expiry guarantee over every interleaving of sections.
-/

namespace Cronstable.Store

/-- Wall-clock seconds since the epoch, and differences of them. -/
abbrev Time := ℚ

/-- A lease, as a file holds it and as a call returns it. -/
structure Lease where
  name : String
  holder : String
  fence : ℕ
  expiresAt : Time
  deriving DecidableEq, Repr

namespace Lease

/-- Whether a presented lease is the stored one: same holder and same fence. -/
def Same (lease stored : Lease) : Prop :=
  stored.holder = lease.holder ∧ stored.fence = lease.fence

instance (lease stored : Lease) : Decidable (lease.Same stored) :=
  inferInstanceAs (Decidable (_ ∧ _))

end Lease

/-! ## Sections -/

/-- What `_acquire_sync` decides to write, having read `current`. -/
def acquire (name holder : String) (ttl now : Time) (current : Option Lease) : Option Lease :=
  match current with
  | none => some ⟨name, holder, 1, now + ttl⟩
  | some stored =>
    if stored.holder ≠ holder ∧ now < stored.expiresAt then none
    else if stored.holder = holder ∧ now < stored.expiresAt then
      some ⟨name, holder, stored.fence, now + ttl⟩
    else some ⟨name, holder, stored.fence + 1, now + ttl⟩

/-- What `_renew_sync` decides to write. The expiry of a lease that was not released may have
passed. -/
def renew (lease : Lease) (ttl now : Time) (current : Option Lease) : Option Lease :=
  match current with
  | none => none
  | some stored =>
    if lease.Same stored ∧ 0 < stored.expiresAt then
      some { lease with expiresAt := now + ttl }
    else none

/-- What `_release_sync` decides to write. -/
def release (lease : Lease) (current : Option Lease) : Option Lease :=
  match current with
  | none => none
  | some stored => if lease.Same stored then some { lease with expiresAt := 0 } else none

/-- How reading and writing the file go. -/
structure Io where
  readable : Bool
  lands : Bool
  deriving DecidableEq, Repr

/-- The file after a section and the lease that was written, if any. -/
def commit (io : Io) (current : Option Lease) (decision : Option Lease → Option Lease) :
    Option Lease × Option Lease :=
  match if io.readable && io.lands then decision current else none with
  | some lease => (some lease, some lease)
  | none => (current, none)

/-- A write lands with what was decided, or nothing is written. -/
lemma commit_cases {P : Lease → Prop} {io : Io} {current : Option Lease}
    {decision : Option Lease → Option Lease}
    (h : ∀ lease, decision current = some lease → P lease) :
    commit io current decision = (current, none) ∨
      ∃ lease, commit io current decision = (some lease, some lease) ∧ P lease := by
  unfold commit
  split
  next lease hlease =>
    split at hlease
    · exact .inr ⟨lease, rfl, h lease hlease⟩
    · cases hlease
  next => exact .inl rfl

/-- A locked section. -/
inductive Section
  | acquire (holder : String) (ttl : Time) (now : Time) (io : Io)
  | renew (lease : Lease) (ttl : Time) (now : Time) (io : Io)
  | release (lease : Lease) (io : Io)

variable {lease : Lease} {io : Io} {ttl now : Time} {holder : String} {current : Option Lease}

namespace Section

/-- The lease a renew or a release presents. -/
def presented : Section → Option Lease
  | acquire .. => none
  | renew lease .. | release lease _ => some lease

/-- The lease name a section of the lease `name` works on. -/
def On (name : String) (sec : Section) : Prop := ∀ lease ∈ sec.presented, lease.name = name

/-- What the section makes of the file, and the lease it wrote: an acquire and a renew return that
lease, a release returns nothing. -/
def run (name : String) (current : Option Lease) : Section → Option Lease × Option Lease
  | acquire holder ttl now io => commit io current (Store.acquire name holder ttl now)
  | renew lease ttl now io => commit io current (Store.renew lease ttl now)
  | release lease io => commit io current (Store.release lease)

/-- The clock after the section, and what is assumed of its arguments: a positive ttl, a reading
that is not before the last one. -/
def Reads (clock clock' : ℚ≥0) : Section → Prop
  | acquire _ ttl now _ | renew _ ttl now _ => 0 < ttl ∧ clock ≤ clock' ∧ now = clock'
  | release _ _ => clock' = clock

/-- Readings of the clock are not negative. -/
theorem Reads.now_nonneg {clock clock' : ℚ≥0} (h : (acquire holder ttl now io).Reads clock clock') :
    0 ≤ now := by
  rw [h.2.2]
  exact clock'.2

/-- What a section that writes has found and what it writes. -/
inductive Writes (name : String) : Section → Option Lease → Lease → Prop
  | first {holder : String} {ttl now : Time} {io : Io} :
      Writes name (acquire holder ttl now io) none ⟨name, holder, 1, now + ttl⟩
  /-- The holder takes its own unexpired lease again. -/
  | again {holder : String} {ttl now : Time} {io : Io} {stored : Lease}
      (hholder : stored.holder = holder) (hlive : now < stored.expiresAt) :
      Writes name (acquire holder ttl now io) (some stored)
        ⟨name, holder, stored.fence, now + ttl⟩
  | takeover {holder : String} {ttl now : Time} {io : Io} {stored : Lease}
      (hexpired : stored.expiresAt ≤ now) :
      Writes name (acquire holder ttl now io) (some stored)
        ⟨name, holder, stored.fence + 1, now + ttl⟩
  | renew {lease stored : Lease} {ttl now : Time} {io : Io} (hsame : lease.Same stored)
      (hkept : 0 < stored.expiresAt) :
      Writes name (renew lease ttl now io) (some stored) { lease with expiresAt := now + ttl }
  | release {lease stored : Lease} {io : Io} (hsame : lease.Same stored) :
      Writes name (release lease io) (some stored) { lease with expiresAt := 0 }

/-- A section leaves the file alone, or writes one lease. -/
theorem run_cases (name : String) (current : Option Lease) (sec : Section) :
    sec.run name current = (current, none) ∨
      ∃ lease, sec.run name current = (some lease, some lease) ∧ sec.Writes name current lease := by
  cases sec with
  | acquire holder ttl now io =>
    refine commit_cases fun lease hdecision => ?_
    unfold Store.acquire at hdecision
    split at hdecision
    next =>
      cases hdecision
      exact .first
    next stored =>
      split at hdecision
      next => cases hdecision
      next hfree =>
        split at hdecision
        next hown =>
          cases hdecision
          exact .again hown.1 hown.2
        next hother =>
          cases hdecision
          -- held by nobody: whoever the holder is, the lease is expired
          refine .takeover (not_lt.mp fun hlive => ?_)
          by_cases hholder : stored.holder = holder
          · exact hother ⟨hholder, hlive⟩
          · exact hfree ⟨hholder, hlive⟩
  | renew lease ttl now io =>
    refine commit_cases fun lease' hdecision => ?_
    unfold Store.renew at hdecision
    split at hdecision
    next => cases hdecision
    next stored =>
      obtain ⟨hok, ⟨⟩⟩ := Option.ite_none_right_eq_some.mp hdecision
      exact .renew hok.1 hok.2
  | release lease io =>
    refine commit_cases fun lease' hdecision => ?_
    unfold Store.release at hdecision
    split at hdecision
    next => cases hdecision
    next stored =>
      obtain ⟨hok, ⟨⟩⟩ := Option.ite_none_right_eq_some.mp hdecision
      exact .release hok

variable {name : String}

/-- A write keeps the fence and the holder, or raises the fence. -/
theorem Writes.fence {sec : Section} {stored : Lease} (h : sec.Writes name (some stored) lease) :
    stored.fence < lease.fence ∨
      lease.fence = stored.fence ∧ lease.holder = stored.holder := by
  cases h with
  | again hholder => exact .inr ⟨rfl, hholder.symm⟩
  | takeover => exact .inl (Nat.lt_succ_self _)
  | renew hsame | release hsame => exact .inr ⟨hsame.2.symm, hsame.1.symm⟩

/-- An acquire writes a lease of its holder that lasts for the time to live. -/
lemma Writes.of_acquire (h : (Section.acquire holder ttl now io).Writes name current lease) :
    lease.holder = holder ∧ lease.expiresAt = now + ttl := by
  cases h <;> exact ⟨rfl, rfl⟩

/-- A renewal writes the lease that was presented, which is the stored one. -/
lemma Writes.of_renew {presented : Lease}
    (h : (Section.renew presented ttl now io).Writes name current lease) :
    (∃ stored, current = some stored ∧ presented.Same stored) ∧
      lease = { presented with expiresAt := now + ttl } := by
  cases h with
  | renew hsame => exact ⟨⟨_, rfl, hsame⟩, rfl⟩

/-- A release writes the lease that was presented, and it has run out. -/
lemma Writes.of_release {presented : Lease}
    (h : (Section.release presented io).Writes name current lease) :
    (∃ stored, current = some stored ∧ presented.Same stored) ∧
      lease = { presented with expiresAt := 0 } := by
  cases h with
  | release hsame => exact ⟨⟨_, rfl, hsame⟩, rfl⟩

end Section

/-! ## Runs of sections -/

/-- The lease file and the last reading of the clock. -/
structure File where
  lease : Option Lease
  clock : ℚ≥0

variable {name : String} {s s' : File} {label : Section × Option Lease}

/-- One section on the lease `name`, labelled with the lease it wrote. -/
def Locked (name : String) (s : File) (label : Section × Option Lease) (s' : File) : Prop :=
  label.1.On name ∧ label.1.Reads s.clock s'.clock ∧
    label.1.run name s.lease = (s'.lease, label.2)

/-- What a section did. -/
theorem Locked.cases
    (h : Locked name s label s') :
    s'.lease = s.lease ∧ label.2 = none ∨
      ∃ lease, s'.lease = some lease ∧ label.2 = some lease ∧
        label.1.Writes name s.lease lease := by
  obtain ⟨-, -, hrun⟩ := h
  rcases label.1.run_cases name s.lease with hsame | ⟨lease, hwrite, hwrites⟩
  · rw [hsame] at hrun
    obtain ⟨hlease, hlabel⟩ := Prod.mk.inj hrun
    exact .inl ⟨hlease.symm, hlabel.symm⟩
  · rw [hwrite] at hrun
    obtain ⟨hlease, hlabel⟩ := Prod.mk.inj hrun
    exact .inr ⟨lease, hlease.symm, hlabel.symm, hwrites⟩

/-- A renew or release whose lease is not the stored one changes nothing. -/
theorem Locked.foreign
    (h : Locked name s label s') (hpresented : lease ∈ label.1.presented)
    (hforeign : ∀ stored ∈ s.lease, ¬ lease.Same stored) : s'.lease = s.lease ∧ label.2 = none := by
  obtain ⟨sec, written⟩ := label
  rcases h.cases with hsame | ⟨lease', -, -, hwrites⟩
  · exact hsame
  · obtain ⟨stored, hstored, hsame⟩ : ∃ stored, s.lease = some stored ∧ lease.Same stored := by
      generalize s.lease = current at hwrites
      cases hwrites with
      | first | again | takeover => cases hpresented
      | renew hsame | release hsame =>
        cases hpresented
        exact ⟨_, rfl, hsame⟩
    exact absurd hsame (hforeign stored hstored)

/-- The lease an acquire returned is stored, under the holder that asked for it. -/
theorem Locked.granted
    (h : Locked name s (.acquire holder ttl now io, some lease) s') :
    s'.lease = some lease ∧ lease.holder = holder := by
  rcases h.cases with ⟨-, hnone⟩ | ⟨lease', hlease, hsome, hwrites⟩
  · cases hnone
  · cases hsome
    exact ⟨hlease, hwrites.of_acquire.1⟩

/-- The fence `fence` was issued to `holder`: it is still the stored one, or was passed. -/
def Issued (fence : ℕ) (holder : String) (s : File) : Prop :=
  ∃ stored, s.lease = some stored ∧
    (fence < stored.fence ∨ stored.fence = fence ∧ stored.holder = holder)

/-- The fence `fence` was released: it was passed, or the stored lease is marked. -/
def Retired (fence : ℕ) (s : File) : Prop :=
  ∃ stored, s.lease = some stored ∧
    (fence < stored.fence ∨ stored.fence = fence ∧ stored.expiresAt = 0)

section Steps

variable {fence : ℕ}

/-- A fence that was issued stays with its holder. -/
lemma Issued.step (h : Issued fence holder s) (hstep : Locked name s label s') :
    Issued fence holder s' := by
  obtain ⟨stored, hstored, hissued⟩ := h
  rcases hstep.cases with ⟨hsame, -⟩ | ⟨lease, hlease, -, hwrites⟩
  · exact ⟨stored, by rw [hsame, hstored], hissued⟩
  · rw [hstored] at hwrites
    refine ⟨lease, hlease, ?_⟩
    rcases hissued with hpassed | ⟨hfence, hholder⟩
    · rcases hwrites.fence with hraised | ⟨hkept, -⟩ <;> omega
    · rcases hwrites.fence with hraised | ⟨hkept, hsame⟩
      · exact .inl (by omega)
      · exact .inr ⟨hkept.trans hfence, hsame.trans hholder⟩

/-- No section revives a released fence: an acquire takes the next one, a renew is refused. -/
theorem Retired.step (h : Retired fence s) (hstep : Locked name s label s') : Retired fence s' := by
  obtain ⟨stored, hstored, hretired⟩ := h
  rcases hstep.cases with ⟨hsame, -⟩ | ⟨lease, hlease, -, hwrites⟩
  · exact ⟨stored, by rw [hsame, hstored], hretired⟩
  · rw [hstored] at hwrites
    refine ⟨lease, hlease, ?_⟩
    rcases hretired with hpassed | ⟨hfence, hmark⟩
    · rcases hwrites.fence with hraised | ⟨hkept, -⟩ <;> omega
    · obtain ⟨sec, written⟩ := label
      have hreads := hstep.2.1
      cases hwrites with
      | again _ hlive =>
        rw [hmark] at hlive
        exact absurd hlive (not_lt.mpr hreads.now_nonneg)
      | takeover => exact .inl (by simp [← hfence])
      | renew _ hkept => exact absurd hmark hkept.ne'
      | release hsame => exact .inr ⟨hsame.2.symm.trans hfence, rfl⟩

end Steps

/-- An acquire that returns an issued fence is by its holder, and finds its lease unexpired. -/
theorem Issued.acquire {holder' : String} {fence : ℕ} (h : Issued fence holder s)
    (hstep : Locked name s (.acquire holder' ttl now io, some lease) s')
    (hfence : fence = lease.fence) :
    holder = holder' ∧ ∃ stored, s.lease = some stored ∧ stored.holder = holder ∧
      stored.fence = fence ∧ now < stored.expiresAt := by
  obtain ⟨stored, hstored, hissued⟩ := h
  rcases hstep.cases with ⟨-, hnone⟩ | ⟨lease', -, hsome, hwrites⟩
  · cases hnone
  · cases hsome
    rw [hstored] at hwrites
    cases hwrites with
    | again hholder hlive =>
      rcases hissued with hpassed | ⟨hsame, hold⟩
      · exact absurd hfence hpassed.ne
      · exact ⟨hold.symm.trans hholder, stored, hstored, hold, hsame, hlive⟩
    | takeover =>
      have : fence = stored.fence + 1 := hfence
      omega

/-- A renew of a released fence is refused. -/
theorem Retired.renew {answer : Option Lease}
    (h : Retired lease.fence s) (hstep : Locked name s (.renew lease ttl now io, answer) s') :
    answer = none := by
  obtain ⟨stored, hstored, hretired⟩ := h
  rcases hstep.cases with ⟨-, hnone⟩ | ⟨lease', -, -, hwrites⟩
  · exact hnone
  · rw [hstored] at hwrites
    cases hwrites with
    | renew hsame hkept =>
      rcases hretired with hpassed | ⟨-, hmark⟩
      · exact absurd hsame.2.symm hpassed.ne
      · exact absurd hmark hkept.ne'

/-- A release of the fence took effect. -/
def Releases (fence : ℕ) (label : Section × Option Lease) : Prop :=
  ∃ lease io mark, label = (.release lease io, some mark) ∧ lease.fence = fence

/-- A release that took effect marks the stored lease. -/
theorem Retired.of_releases
    {fence : ℕ} (hstep : Locked name s label s') (h : Releases fence label) : Retired fence s' := by
  obtain ⟨lease, io, mark, rfl, rfl⟩ := h
  rcases hstep.cases with ⟨-, hnone⟩ | ⟨lease', hlease, -, hwrites⟩
  · cases hnone
  · obtain ⟨-, rfl⟩ := hwrites.of_release
    exact ⟨_, hlease, .inr ⟨rfl, rfl⟩⟩

/-- Once a release of a fence took effect, the fence stays retired. -/
theorem retired_of_run {labels : List (Section × Option Lease)}
    (hrun : Trace.Run (Locked name) s labels s') (fence : ℕ) :
    ∀ label ∈ labels, Releases fence label → Retired fence s' :=
  hrun.labelled (P := fun _ => True) (Q := fun label s => Releases fence label → Retired fence s)
    (fun _ _ _ _ _ => trivial) (fun _ _ _ _ hstep => Retired.of_releases hstep)
    (fun _ _ _ _ hstep _ hold hlabel => (hold hlabel).step hstep) trivial

/-- The holders whose stored lease is unexpired at `t`. -/
def File.Holds (s : File) (t : Time) (holder : String) : Prop :=
  ∃ lease ∈ s.lease, lease.holder = holder ∧ t < lease.expiresAt

/-- What a run of sections guarantees, from whatever file to whatever file: the fence does not
decrease; at most one holder has an unexpired lease; a renew or release whose lease is not the
stored one changes nothing. If the run began right after an acquire, a later acquire returns its
fence only to the same holder, while the lease of that fence is unexpired and no release of it took
effect. If it began right after a release took effect, no renew of that fence succeeds. -/
theorem lease_safe {name : String} {s s' : File} {labels : List (Section × Option Lease)}
    (hrun : Trace.Run (Locked name) s labels s') :
    (∀ lease ∈ s.lease, ∃ lease' ∈ s'.lease, lease.fence ≤ lease'.fence) ∧
    (∀ t holder holder', s'.Holds t holder → s'.Holds t holder' → holder = holder') ∧
    (∀ label s'', Locked name s' label s'' → ∀ lease ∈ label.1.presented,
      (∀ stored ∈ s'.lease, ¬ lease.Same stored) → s''.lease = s'.lease ∧ label.2 = none) ∧
    (∀ s₀ holder ttl now io granted s'' holder' ttl' now' io' granted',
      Locked name s₀ (.acquire holder ttl now io, some granted) s →
      Locked name s' (.acquire holder' ttl' now' io', some granted') s'' →
      granted.fence = granted'.fence →
      holder = holder' ∧
        (∃ stored ∈ s'.lease, stored.holder = holder ∧ stored.fence = granted.fence ∧
          now' < stored.expiresAt) ∧
        ∀ label ∈ labels, ¬ Releases granted.fence label) ∧
    (∀ s₀ label lease ttl now io answer s'', Locked name s₀ label s →
      Releases lease.fence label → Locked name s' (.renew lease ttl now io, answer) s'' →
      answer = none) := by
  refine ⟨?_, ?_, ?_, ?_, ?_⟩
  · intro lease hlease
    have hissued : Issued lease.fence lease.holder s' :=
      hrun.invariant (fun _ _ _ h hstep => h.step hstep) ⟨lease, hlease, .inr ⟨rfl, rfl⟩⟩
    obtain ⟨lease', hlease', hfence⟩ := hissued
    exact ⟨lease', hlease', by omega⟩
  · rintro t holder holder' ⟨lease, hlease, rfl, -⟩ ⟨lease', hlease', rfl, -⟩
    have hsame : some lease = some lease' := hlease.symm.trans hlease'
    exact congrArg Lease.holder (Option.some.inj hsame)
  · intro label s'' hstep lease hpresented hforeign
    exact hstep.foreign hpresented hforeign
  · intro s₀ holder ttl now io granted s'' holder' ttl' now' io' granted' hfirst hlater hfence
    obtain ⟨hlease, rfl⟩ := hfirst.granted
    have hissued : Issued granted.fence granted.holder s' :=
      hrun.invariant (fun _ _ _ h hstep => h.step hstep) ⟨granted, hlease, .inr ⟨rfl, rfl⟩⟩
    obtain ⟨hholder, stored, hstored, hsame, hkept, hlive⟩ := hissued.acquire hlater hfence
    refine ⟨hholder, ⟨stored, hstored, hsame, hkept, hlive⟩, fun label hmem hreleases => ?_⟩
    -- a released lease is marked as expired for every clock
    obtain ⟨stored', hstored', hretired⟩ := retired_of_run hrun _ label hmem hreleases
    have heq : some stored = some stored' := hstored.symm.trans hstored'
    cases heq
    rcases hretired with hpassed | ⟨-, hmark⟩
    · omega
    · rw [hmark] at hlive
      exact absurd hlive (not_lt.mpr hlater.2.1.now_nonneg)
  · intro s₀ label lease ttl now io answer s'' hrelease hreleases hrenew
    have hretired : Retired lease.fence s' :=
      hrun.invariant (fun _ _ _ h hstep => h.step hstep) (Retired.of_releases hrelease hreleases)
    exact hretired.renew hrenew

/-- Node `a` takes the lease, gives it up, and node `b` takes it over. -/
theorem lease_safe_takeover :
    ∃ s s' : File, s.lease = some ⟨"leader", "a", 1, 15⟩ ∧
      s'.lease = some ⟨"leader", "b", 2, 17⟩ ∧
      ∀ lease ttl now io answer s'', lease.fence = 1 →
        Locked "leader" s' (.renew lease ttl now io, answer) s'' → answer = none := by
  have hgive : Locked "leader" ⟨some ⟨"leader", "a", 1, 15⟩, 5⟩
      (.release ⟨"leader", "a", 1, 15⟩ ⟨true, true⟩, some ⟨"leader", "a", 1, 0⟩)
      ⟨some ⟨"leader", "a", 1, 0⟩, 5⟩ :=
    ⟨by rintro _ ⟨⟩; rfl, rfl, by decide +kernel⟩
  have htake : Locked "leader" ⟨some ⟨"leader", "a", 1, 0⟩, 5⟩
      (.acquire "b" 10 7 ⟨true, true⟩, some ⟨"leader", "b", 2, 17⟩)
      ⟨some ⟨"leader", "b", 2, 17⟩, 7⟩ :=
    ⟨nofun, ⟨by decide +kernel, by decide +kernel, by decide +kernel⟩, by decide +kernel⟩
  refine ⟨⟨some ⟨"leader", "a", 1, 15⟩, 5⟩, ⟨some ⟨"leader", "b", 2, 17⟩, 7⟩, rfl, rfl,
    fun lease ttl now io answer s'' hfence hrenew => ?_⟩
  exact (lease_safe (.single htake)).2.2.2.2 _ _ lease ttl now io answer s'' hgive
    ⟨_, _, _, rfl, hfence.symm⟩ hrenew

end Cronstable.Store
