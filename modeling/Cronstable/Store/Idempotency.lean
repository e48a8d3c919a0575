import Cronstable.Store.Lease
import Mathlib.Data.List.Induction
import Mathlib.Tactic.Linarith

/-!
# Idempotency keys

A claim of a key is a document that says when it was made and, with a positive ttl, when it expires.
`idempotency_claim` reads the clock first and then waits for the lock of the document, so it decides
by a reading that may be old; a sweep of the garbage collection deletes documents that expired a
whole grace before it began. The two meet when a claim that has waited finds no document, because
one that it would have compared with was just deleted.

`State.step` is one key, with any number of claims, releases and sweeps in any order. A claim's
locked section runs less than the grace after its reading, which is what makes up for the deletion:
`claims_never_overlap`.
-/

namespace Cronstable.Store.Idempotency

open List Option

/-- A claim that was granted. -/
structure Claim where
  claimedAt : Time
  ttl : Time
deriving DecidableEq

/-- The document of a claim. -/
structure Doc where
  claimedAt : Time
  /-- Missing for a permanent claim. -/
  expiresAt : Option Time
deriving DecidableEq

/-- What `_claim` writes. -/
def Claim.body (c : Claim) : Doc where
  claimedAt := c.claimedAt
  expiresAt := if 0 < c.ttl then some (c.claimedAt + c.ttl) else none

/-- What happened to the key, for the record. -/
inductive Entry where
  | granted (c : Claim)
  /-- A release that found a document. -/
  | released
deriving DecidableEq

/-- A sweep: `cutoff` is fixed when it begins, and `candidate` is what it read without the lock. -/
structure Sweep where
  cutoff : Time
  candidate : Bool
deriving DecidableEq

/-- One key, and the calls that are under way. -/
structure State where
  clock : Time
  doc : Option Doc
  /-- Claims that have read the clock and not had the lock, with their readings. -/
  claims : List Claim
  sweeps : List Sweep
  log : List Entry
deriving DecidableEq

/-- What a node does next. -/
inductive Event where
  | tick (t : Time)
  /-- `idempotency_claim` reads the clock. -/
  | claim (ttl : Time)
  /-- A claim has the lock. Its write may fail. -/
  | enter (i : ℕ) (lands : Bool)
  /-- `idempotency_release`. -/
  | release
  /-- `_gc_sync` reads the clock. -/
  | sweep
  /-- The sweep reads the document without the lock. -/
  | look (i : ℕ)
  /-- The sweep has the lock and reads the document again. -/
  | collect (i : ℕ)

/-- `_idem_doc_expired`. -/
def docExpired (doc : Option Doc) (cutoff : Time) : Bool :=
  match doc.bind Doc.expiresAt with
  | some expires => expires ≤ cutoff
  | none => false

/-- Whether `_claim` keeps what it finds. -/
def standing (doc : Option Doc) (now : Time) : Bool :=
  match doc with
  | some d => d.expiresAt.all fun expires => now < expires
  | none => false

namespace State

variable (grace : Time)

/-- The locked section of a claim. -/
def enter (s : State) (c : Claim) (lands : Bool) : State :=
  if standing s.doc c.claimedAt || !lands then s
  else { s with doc := some c.body, log := s.log ++ [.granted c] }

/-- `delete_document`. -/
def release (s : State) : State :=
  match s.doc with
  | some _ => { s with doc := none, log := s.log ++ [.released] }
  | none => s

/-- One step. The section of a claim is in time if it runs less than the grace after the reading. -/
def step (s : State) : Event → Option State
  | .tick t => if s.clock ≤ t then some { s with clock := t } else none
  | .claim ttl => some { s with claims := s.claims ++ [⟨s.clock, ttl⟩] }
  | .enter i lands => do
    let c ← s.claims[i]?
    if s.clock < c.claimedAt + grace then
      some (enter { s with claims := s.claims.eraseIdx i } c lands)
    else none
  | .release => some s.release
  | .sweep => some { s with sweeps := s.sweeps ++ [⟨s.clock - max 0 grace, false⟩] }
  | .look i => do
    let w ← s.sweeps[i]?
    some { s with sweeps := s.sweeps.set i { w with candidate := docExpired s.doc w.cutoff } }
  | .collect i => do
    let w ← s.sweeps[i]?
    if w.candidate then
      some { s with doc := if docExpired s.doc w.cutoff then none else s.doc }
    else none

/-- Nothing is under way; there may be a document from before. -/
def Start (s : State) : Prop := s.claims = [] ∧ s.sweeps = [] ∧ s.log = []

end State

/-! ## Epochs -/

/-- The second claim was made after the first one, which had a ttl, had expired. -/
def After (c c' : Claim) : Prop := 0 < c.ttl ∧ c.claimedAt + c.ttl ≤ c'.claimedAt

/-- The claims that were granted since the last release. -/
def epoch : List Entry → List Claim :=
  List.foldl (fun claims e => match e with | .granted c => claims ++ [c] | .released => []) []

/-- A grant belongs to the current epoch. -/
@[simp]
lemma epoch_granted (log : List Entry) (c : Claim) :
    epoch (log ++ [.granted c]) = epoch log ++ [c] := by
  simp [epoch]

/-- A release begins an epoch. -/
@[simp]
lemma epoch_released (log : List Entry) : epoch (log ++ [.released]) = [] := by
  simp [epoch]

variable {c : Claim}

/-- A claim that no release followed is of the last epoch. -/
theorem mem_epoch {before after : List Entry} (h : Entry.released ∉ after) :
    c ∈ epoch (before ++ .granted c :: after) := by
  induction after using List.reverseRecOn with
  | nil => simp
  | append_singleton after e ih =>
    have hafter : Entry.released ∉ after := fun hmem => h (mem_append_left _ hmem)
    have hassoc : before ++ Entry.granted c :: (after ++ [e]) =
        before ++ Entry.granted c :: after ++ [e] := by simp
    rw [hassoc]
    cases e with
    | granted c' =>
      rw [epoch_granted]
      exact mem_append_left _ (ih hafter)
    | released => simp at h

/-- Claims that come after each other. -/
lemma After.trans {d e : Claim} (h : After c d) (h' : After d e) : After c e :=
  ⟨h.1, by linarith [h.2, h'.1, h'.2]⟩

/-- A claim that came after the last one of an epoch came after all of them. -/
theorem pairwise_snoc {claims : List Claim} (h : claims.Pairwise After)
    (hlast : ∀ g, claims.getLast? = some g → After g c) : (claims ++ [c]).Pairwise After := by
  refine pairwise_append.mpr ⟨h, pairwise_singleton _ _, fun a ha b hb => ?_⟩
  rw [mem_singleton.mp hb]
  cases claims using List.reverseRecOn with
  | nil => cases ha
  | append_singleton init g =>
    have hg : After g c := hlast g (by simp)
    rcases mem_append.mp ha with ha | ha
    · exact ((pairwise_append.mp h).2.2 a ha g (by simp)).trans hg
    · rwa [mem_singleton.mp ha]

/-! ## Safety -/

/-- The invariant: the last claim of the epoch stands in the document, or was swept a grace after it
expired. -/
structure Inv (grace : Time) (s : State) : Prop where
  cutoffs : ∀ w ∈ s.sweeps, w.cutoff + grace ≤ s.clock
  ordered : (epoch s.log).Pairwise After
  held : ∀ g, (epoch s.log).getLast? = some g →
    s.doc = some g.body ∨ s.doc = none ∧ 0 < g.ttl ∧ g.claimedAt + g.ttl + grace ≤ s.clock
  apart : ∀ before c between c' after,
    s.log = before ++ .granted c :: (between ++ .granted c' :: after) →
    .released ∈ between ∨ After c c'

namespace Inv

variable {grace : Time} {s : State}

/-- A new entry makes pairs only with claims of its epoch. -/
private lemma apart_snoc {log : List Entry} {e : Entry}
    (h : ∀ before c between c' after,
      log = before ++ .granted c :: (between ++ .granted c' :: after) →
      .released ∈ between ∨ After c c')
    (hnew : ∀ c', e = .granted c' → ∀ c ∈ epoch log, After c c') :
    ∀ before c between c' after,
      log ++ [e] = before ++ .granted c :: (between ++ .granted c' :: after) →
      .released ∈ between ∨ After c c' := by
  intro before c between c' after heq
  cases after using List.reverseRecOn with
  | nil =>
    have hassoc : before ++ Entry.granted c :: (between ++ [Entry.granted c']) =
        before ++ Entry.granted c :: between ++ [Entry.granted c'] := by simp
    rw [hassoc] at heq
    obtain ⟨hlog, he⟩ := append_inj' heq rfl
    by_cases hreleased : Entry.released ∈ between
    · exact .inl hreleased
    · refine .inr (hnew c' (singleton_inj.mp he) c ?_)
      rw [hlog]
      exact mem_epoch hreleased
  | append_singleton after x =>
    have hassoc : before ++ Entry.granted c :: (between ++ Entry.granted c' :: (after ++ [x])) =
        before ++ Entry.granted c :: (between ++ Entry.granted c' :: after) ++ [x] := by simp
    rw [hassoc] at heq
    exact h _ _ _ _ _ (append_inj' heq rfl).1

section

variable (h : Inv grace s)

include h

/-- A claim that may be granted came after the last one. -/
private lemma after_held {g : Claim} (hg : (epoch s.log).getLast? = some g)
    (hstanding : standing s.doc c.claimedAt = false) (hlate : s.clock < c.claimedAt + grace) :
    After g c := by
  rcases h.held g hg with hdoc | ⟨-, hpos, hswept⟩
  · -- the document is there, so the claim compared with it
    rw [hdoc] at hstanding
    by_cases hpos : 0 < g.ttl
    · simp only [standing, Claim.body, hpos, if_true, all_some, decide_eq_false_iff_not,
        not_lt] at hstanding
      exact ⟨hpos, hstanding⟩
    · simp [standing, Claim.body, hpos] at hstanding
  · exact ⟨hpos, by linarith⟩

/-- A claim enters while its grace lasts. -/
lemma enter {lands : Bool} (hlate : s.clock < c.claimedAt + grace) :
    Inv grace (s.enter c lands) := by
  unfold State.enter
  split
  · exact h
  · rename_i hgo
    have hstanding : standing s.doc c.claimedAt = false := by
      cases hst : standing s.doc c.claimedAt with
      | true => simp [hst] at hgo
      | false => rfl
    have hordered : (epoch s.log ++ [c]).Pairwise After :=
      pairwise_snoc h.ordered fun g hg => h.after_held hg hstanding hlate
    refine ⟨h.cutoffs, ?_, fun g hg => .inl ?_, apart_snoc h.apart ?_⟩
    · rwa [epoch_granted]
    · rw [epoch_granted, List.getLast?_concat, Option.some.injEq] at hg
      rw [hg]
    · intro c' hc' a ha
      cases hc'
      exact (pairwise_append.mp hordered).2.2 a ha c (by simp)

/-- A release begins an epoch, in which nothing was granted. -/
lemma release : Inv grace s.release := by
  unfold State.release
  split
  · refine ⟨h.cutoffs, ?_, fun g hg => ?_, apart_snoc h.apart ?_⟩
    · rw [epoch_released]
      exact .nil
    · rw [epoch_released] at hg
      cases hg
    · intro c' hc'
      cases hc'
  · exact h

/-- A sweep deletes only what expired a grace before it began. -/
theorem collect {w : Sweep} (hw : w ∈ s.sweeps) :
    Inv grace { s with doc := if docExpired s.doc w.cutoff then none else s.doc } := by
  refine { h with held := fun g hg => ?_ }
  rcases h.held g hg with hdoc | ⟨hdoc, hswept⟩
  · cases hexpired : docExpired s.doc w.cutoff with
    | false => exact .inl hdoc
    | true =>
      refine .inr ⟨rfl, ?_⟩
      rw [hdoc] at hexpired
      have hcutoff := h.cutoffs w hw
      by_cases hpos : 0 < g.ttl
      · simp only [docExpired, Claim.body, hpos, if_true, bind_some,
          decide_eq_true_eq] at hexpired
        exact ⟨hpos, by linarith⟩
      · simp [docExpired, Claim.body, hpos] at hexpired
  · refine .inr ⟨?_, hswept⟩
    simp [hdoc]

/-- Time passes. -/
lemma tick {t : Time} (ht : s.clock ≤ t) : Inv grace { s with clock := t } where
  cutoffs w hw := (h.cutoffs w hw).trans ht
  ordered := h.ordered
  held g hg := (h.held g hg).imp_right fun ⟨hdoc, hpos, hswept⟩ => ⟨hdoc, hpos, hswept.trans ht⟩
  apart := h.apart

/-- What happens to the lists of calls does not matter, as long as the cutoffs are old. -/
private lemma calls (claims : List Claim) {sweeps : List Sweep}
    (hsweeps : ∀ w ∈ sweeps, w.cutoff + grace ≤ s.clock) : Inv grace { s with claims, sweeps } :=
  { h with cutoffs := hsweeps }

/-- Every step keeps the invariant. -/
lemma step {e : Event} {t : State} (hstep : s.step grace e = some t) : Inv grace t := by
  cases e with
  | tick t' =>
    obtain ⟨ht, hstep⟩ := ite_none_right_eq_some.mp hstep
    cases hstep
    exact h.tick ht
  | claim ttl =>
    cases hstep
    exact h.calls _ h.cutoffs
  | enter i lands =>
    obtain ⟨c, -, hstep⟩ := bind_eq_some_iff.mp hstep
    obtain ⟨hlate, hstep⟩ := ite_none_right_eq_some.mp hstep
    cases hstep
    exact (h.calls (s.claims.eraseIdx i) h.cutoffs).enter hlate
  | release =>
    cases hstep
    exact h.release
  | sweep =>
    cases hstep
    refine h.calls s.claims (forall_mem_append.mpr ⟨h.cutoffs, forall_mem_singleton.mpr ?_⟩)
    linarith [le_max_right 0 grace]
  | look i =>
    obtain ⟨w, hw, hstep⟩ := bind_eq_some_iff.mp hstep
    cases hstep
    refine h.calls s.claims fun w' hw' => ?_
    rcases mem_or_eq_of_mem_set hw' with hw' | rfl
    · exact h.cutoffs w' hw'
    · exact h.cutoffs w (mem_of_getElem? hw)
  | collect i =>
    obtain ⟨w, hw, hstep⟩ := bind_eq_some_iff.mp hstep
    obtain ⟨-, hstep⟩ := ite_none_right_eq_some.mp hstep
    cases hstep
    exact h.collect (mem_of_getElem? hw)

end

end Inv

/-- Between two claims that were granted, a release took effect, or the first one had a ttl and had
expired when the second one read the clock. -/
theorem claims_never_overlap {grace : Time} {s t : State} {events : List Event}
    (hrun : Trace.Run (fun s e t => s.step grace e = some t) s events t) (hs : s.Start)
    {before between after : List Entry} {c c' : Claim}
    (hlog : t.log = before ++ .granted c :: (between ++ .granted c' :: after)) :
    .released ∈ between ∨ 0 < c.ttl ∧ c.claimedAt + c.ttl ≤ c'.claimedAt := by
  obtain ⟨-, hsweeps, hempty⟩ := hs
  have hstart : Inv grace s := by
    refine ⟨?_, ?_, ?_, ?_⟩
    · rw [hsweeps]
      simp
    · rw [hempty]
      exact .nil
    · rw [hempty]
      intro g hg
      cases hg
    · rw [hempty]
      simp
  exact (hrun.invariant (fun _ _ _ h hstep => h.step hstep) hstart).apart _ _ _ _ _ hlog

/-! A claim for five seconds. A later one reads the clock a second after that, waits, and finds that
a sweep has been there. -/

/-- Nothing is claimed. -/
private def unclaimed : State := ⟨0, none, [], [], []⟩

/-- A later claim reads the clock, and enters when the first one was swept. -/
private def swept : List Event :=
  [.claim 5, .enter 0 true, .tick 6, .claim 0, .tick 15, .sweep, .look 0, .collect 0, .enter 0 true]

theorem claims_never_overlap_swept :
    ∃ t : State, Trace.Run (fun (s : State) e t => s.step 10 e = some t) unclaimed swept t ∧
      t.log = [.granted ⟨0, 5⟩, .granted ⟨6, 0⟩] ∧
      (.released ∈ ([] : List Entry) ∨ 0 < (5 : Time) ∧ (0 : Time) + 5 ≤ 6) := by
  have hfold : (swept.foldlM (State.step 10) unclaimed).map State.log =
      some [.granted ⟨0, 5⟩, .granted ⟨6, 0⟩] := by
    decide +kernel
  obtain ⟨t, ht, hlog⟩ := map_eq_some_iff.mp hfold
  have hrun := Trace.Run.of_foldlM ht
  have hlog' : t.log = [] ++ .granted ⟨0, 5⟩ :: ([] ++ .granted ⟨6, 0⟩ :: []) := hlog
  exact ⟨t, hrun, hlog, claims_never_overlap hrun ⟨rfl, rfl, rfl⟩ hlog'⟩

end Cronstable.Store.Idempotency
