import Cronstable.Store.NameKeyed
import Mathlib.Data.List.ReduceOption

/-!
# Pruning spares the newest record of a value

Whatever a process remembers was in the stream once. An append unlinks a record only if its process
has known a newer one with the same value, and a pass only if it has read one; so a newer record was
there at some time. The newest record of a value that was ever there is covered by one that is there
now (`State.Inv.covered`): nothing leaves without a newer record, so the newest name never
decreases, whatever the order in which the records came.

`newest_record_stays` is the result.
-/

namespace Cronstable.NameKeyed

open FieldFacts List Option Dict State

/-! ## Processes -/

variable {name n : Name} {value : Option String}

namespace Proc

variable {ever ever' : Name → String → Prop} {q : Proc}

/-- What the process remembers is true. -/
def Sound (ever : Name → String → Prop) (q : Proc) : Prop :=
  ∀ f, q.facts = some f → f.Sound ever

/-- What a process remembers stays true as records are added. -/
lemma Sound.mono (h : q.Sound ever) (hever : ∀ n v, ever n v → ever' n v) : q.Sound ever' :=
  fun f hf => (h f hf).mono hever

/-- The facts a process takes are sound. -/
lemma Sound.take (h : q.Sound ever) : q.take.Sound ever := by
  unfold Proc.take
  cases hf : q.facts with
  | none => exact sound_empty q.tables
  | some f => exact h f hf

/-- A process may remember sound facts. -/
lemma sound_put {f : FieldFacts} (hf : f.Sound ever) : (q.put f).Sound ever := by
  intro g hg
  simp only [Proc.put] at hg
  split at hg
  · cases hg
  · exact Option.some.inj hg ▸ hf

/-- It may shed facts, -/
lemma Sound.shed (h : q.Sound ever) (excess : ℕ) : (q.shed excess).Sound ever := by
  unfold Proc.shed
  split
  · exact h
  case h_2 f hf => exact sound_put ((h f hf).shed _ _)

/-- drop one, -/
lemma Sound.drop (h : q.Sound ever) (name : Name) : (q.drop name).Sound ever :=
  sound_put (h.take.forget name)

/-- and learn what was read. -/
lemma Sound.learn (h : q.Sound ever) (hunique : ∀ n v v', ever n v → ever n v' → v = v')
    {learned : List (Name × String)} (hlearned : ∀ p ∈ learned, ever p.1 p.2)
    (listing : List Name) (mark : Option Mark) (gone : List Name) (crowded : Bool) :
    (q.learn learned listing mark gone crowded).Sound ever :=
  sound_put (h.take.fold hunique hlearned _ _ _ _)

/-- The record that `_superseded_twice` finds is superseded. -/
theorem Sound.supersededTwice (h : q.Sound ever) (hn : q.supersededTwice value = some n) :
    ∃ v, value = some v ∧ Superseded ever n v := by
  obtain ⟨v, hv, hn⟩ := bind_eq_some_iff.mp hn
  obtain ⟨f, hf, hn⟩ := bind_eq_some_iff.mp hn
  exact ⟨v, hv, (h f hf).superseded hn⟩

/-- The section of `_unlink_superseded` keeps the facts true, and dooms superseded records only. -/
theorem Sound.superseded (h : q.Sound ever) (hunique : ∀ n v v', ever n v → ever n v' → v = v')
    {value : String} {stale : Option Name} (hname : ever name value)
    (hstale : ∀ n, stale = some n → Superseded ever n value) :
    (q.superseded name value stale).1.Sound ever ∧
      ∀ n ∈ (q.superseded name value stale).2.1, Superseded ever n value := by
  obtain ⟨hlearn, hpushed⟩ := h.take.learn hname fun v hv =>
    hunique name v value (h.take.holds name v hv) hname
  refine ⟨sound_put (hlearn.foldl_forget _), fun n hn => ?_⟩
  have hmem : some n ∈ [stale, (q.take.learn name value).2] :=
    reduceOption_mem_iff.mp (mem_filter.mp (mem_dedup.mp hn)).1
  rcases mem_cons.mp hmem with heq | hmem
  · exact hstale n heq.symm
  · exact hpushed n (mem_singleton.mp hmem).symm

end Proc

/-! ## Threads -/

/-- What a pass has read: the records that it keeps are newer than those it has yet to read. -/
structure PassSound (ever : Name → String → Prop) (todo : List Name) (kept : List (Name × String)) :
    Prop where
  seen : ∀ p ∈ kept, ever p.1 p.2
  sorted : todo.Pairwise (· > ·)
  older : ∀ p ∈ kept, ∀ n ∈ todo, n < p.1

/-- What a lookup is about to learn is true. -/
def Stage.Sound (ever : Name → String → Prop) : Stage → Prop
  | .ready | .listing .. | .listed .. => True
  | .reading sc | .examining sc _ _ | .consulting sc | .learning sc _ | .recalling sc _
  | .dropping sc _ | .rereading sc _ | .closing sc => ∀ p ∈ sc.learned, ever p.1 p.2

/-- What a thread goes by is true. -/
def Thread.Sound (ever : Name → String → Prop) : Thread → Prop
  | .writing a stale => ∀ n, stale = some n → ∃ v, a.value = some v ∧ Superseded ever n v
  | .written a stale => (∀ n, stale = some n → ∃ v, a.value = some v ∧ Superseded ever n v) ∧
      ∀ v, a.value = some v → ever a.name v
  | .confirming _ doomed _ | .unlinking _ doomed => ∀ n ∈ doomed, ∃ v, Superseded ever n v
  | .passing _ (.reading _ todo kept _) => PassSound ever todo kept
  | .passing _ (.unlinking _ name todo kept _) =>
    (∃ v, Superseded ever name v) ∧ PassSound ever todo kept
  | .looking _ st => st.Sound ever
  | _ => True

/-- The append that the thread is about to complete. -/
def Thread.carries : Thread → Option Append
  | .appended a => some a
  | .passing w _ => w.carrier
  | _ => none

variable {x : Thread}

section Threads

variable {ever ever' : Name → String → Prop}

/-- What a pass has kept stays true as records are added. -/
lemma PassSound.mono {todo : List Name} {kept : List (Name × String)}
    (h : PassSound ever todo kept) (hever : ∀ n v, ever n v → ever' n v) :
    PassSound ever' todo kept :=
  ⟨fun p hp => hever p.1 p.2 (h.seen p hp), h.sorted, h.older⟩

/-- So does what a thread relies on. -/
lemma Thread.Sound.mono (h : x.Sound ever) (hever : ∀ n v, ever n v → ever' n v) :
    x.Sound ever' := by
  have hdoomed {doomed : List Name} (hd : ∀ n ∈ doomed, ∃ v, Superseded ever n v) :
      ∀ n ∈ doomed, ∃ v, Superseded ever' n v := by
    intro n hn
    obtain ⟨v, hv⟩ := hd n hn
    exact ⟨v, hv.mono hever⟩
  have hstale {stale : Option Name} {a : Append}
      (hs : ∀ n, stale = some n → ∃ v, a.value = some v ∧ Superseded ever n v) :
      ∀ n, stale = some n → ∃ v, a.value = some v ∧ Superseded ever' n v := by
    intro n hn
    obtain ⟨v, hv, hsup⟩ := hs n hn
    exact ⟨v, hv, hsup.mono hever⟩
  cases x with
  | idle | dropping | appended | answered | raised => trivial
  | writing a stale => exact hstale h
  | written a stale => exact ⟨hstale h.1, fun v hv => hever _ _ (h.2 v hv)⟩
  | confirming | unlinking => exact hdoomed h
  | passing w st =>
    cases st with
    | ready | listing => trivial
    | reading => exact PassSound.mono h hever
    | unlinking =>
      obtain ⟨⟨v, hv⟩, hpass⟩ := h
      exact ⟨⟨v, hv.mono hever⟩, hpass.mono hever⟩
  | looking l st =>
    cases st with
    | ready | listing | listed => trivial
    | reading | examining | consulting | learning | recalling | dropping | rereading | closing =>
      exact fun p hp => hever p.1 p.2 (h p hp)

end Threads

variable {io : Io} {v : String} {proc : ℕ} {strict readable : Bool}

namespace State

/-! ## Records -/

section Records

variable {s t : State} {e : Event}

/-- A readable record of the value was there. -/
def Ever (s : State) (n : Name) (v : String) : Prop :=
  ∃ r, s.records.get? n = some r ∧ r.value = some v ∧ r.readable

/-- A readable record of the value is there. -/
def Here (s : State) (n : Name) (v : String) : Prop :=
  ∃ r, s.records.get? n = some r ∧ r.value = some v ∧ r.readable ∧ r.gone = none

/-- A record that is there is one that ever was. -/
lemma Here.ever (h : s.Here n v) : s.Ever n v := by
  obtain ⟨r, hr, hv, hread, -⟩ := h
  exact ⟨r, hr, hv, hread⟩

/-- A name has one record. -/
lemma ever_unique (n : Name) (v v' : String) (h : s.Ever n v) (h' : s.Ever n v') : v = v' := by
  obtain ⟨r, hr, hv, -⟩ := h
  obtain ⟨r', hr', hv', -⟩ := h'
  obtain rfl := mem_unique hr hr'
  exact mem_unique hv hv'

/-- A record that lands takes no other's name. -/
lemma ever_land (hnew : s.records.get? name = none) (h : s.Ever n v) :
    (s.land name value readable).Ever n v := by
  obtain ⟨r, hr, hrest⟩ := h
  exact ⟨r, get?_set_of_none hnew hr, hrest⟩

/-- A record that is unlinked was there, and its value is known. -/
theorem ever_unlink : (s.unlink name).Ever n v ↔ s.Ever n v := by
  unfold unlink
  split
  case h_2 => exact Iff.rfl
  case h_1 r hr =>
    split
    case isFalse => exact Iff.rfl
    case isTrue =>
      unfold Ever
      by_cases hn : n = name
      · subst hn
        simp [hr]
      · simp [hn]

/-- A record that is unlinked is remembered as it was. -/
theorem get?_unlink {r : Record} (hr : s.records.get? n = some r) :
    ∃ r', (s.unlink name).records.get? n = some r' ∧ r'.value = r.value ∧
      r'.readable = r.readable ∧ r'.born = r.born := by
  unfold unlink
  split
  case h_2 => exact ⟨r, hr, rfl, rfl, rfl⟩
  case h_1 r₀ hr₀ =>
    split
    case isFalse => exact ⟨r, hr, rfl, rfl, rfl⟩
    case isTrue =>
      by_cases hn : n = name
      · subst hn
        obtain rfl := mem_unique hr hr₀
        exact ⟨{ r with gone := some s.steps }, by simp, rfl, rfl, rfl⟩
      · exact ⟨r, by simpa [hn] using hr, rfl, rfl, rfl⟩

/-- An unlink touches the records only. -/
lemma unlink_eq (s : State) (name : Name) :
    (s.unlink name).procs = s.procs ∧ (s.unlink name).threads = s.threads ∧
      (s.unlink name).completed = s.completed ∧ (s.unlink name).steps = s.steps := by
  unfold unlink
  split
  · split <;> exact ⟨rfl, rfl, rfl, rfl⟩
  · exact ⟨rfl, rfl, rfl, rfl⟩

/-- The other records stay. -/
lemma here_unlink (hne : n ≠ name) (h : s.Here n v) : (s.unlink name).Here n v := by
  obtain ⟨r, hr, hrest⟩ := h
  unfold unlink
  split
  case h_2 => exact ⟨r, hr, hrest⟩
  case h_1 =>
    split
    case isFalse => exact ⟨r, hr, hrest⟩
    case isTrue => exact ⟨r, by simpa [hne] using hr, hrest⟩

end Records

/-! ## The invariant -/

/-- What the runs keep. -/
structure Inv (s : State) : Prop where
  procs : ∀ q, (s.procs q).Sound s.Ever
  cache : ∀ q, ∀ n ∈ (s.procs q).cache, ∃ r, s.records.get? n = some r ∧ r.readable
  /-- A record that was there has one that is there at least as new. -/
  covered : ∀ n v, s.Ever n v → ∃ n', n ≤ n' ∧ s.Here n' v
  threads : ∀ p, (s.threads p).Sound s.Ever

section Steps

variable {s t : State} {p : ℕ}

/-- A thread moves on. -/
lemma Inv.setThread (h : s.Inv) (hx : x.Sound s.Ever) : (s.setThread p x).Inv := by
  refine { h with threads := ?_ }
  exact (Function.forall_update_iff s.threads fun _ x => x.Sound s.Ever).mpr
    ⟨hx, fun q _ => h.threads q⟩

/-- A process learns something. -/
lemma Inv.setProc (h : s.Inv) {i : ℕ} {q : Proc} (hq : q.Sound s.Ever)
    (hcache : ∀ n ∈ q.cache, ∃ r, s.records.get? n = some r ∧ r.readable) :
    (s.setProc i q).Inv := by
  refine { h with procs := ?_, cache := ?_ }
  · exact (Function.forall_update_iff s.procs fun _ q => q.Sound s.Ever).mpr
      ⟨hq, fun j _ => h.procs j⟩
  · exact (Function.forall_update_iff s.procs fun _ q => ∀ n ∈ q.cache,
      ∃ r, s.records.get? n = some r ∧ r.readable).mpr ⟨hcache, fun j _ => h.cache j⟩

/-- A step is counted. -/
theorem Inv.counted (h : s.Inv) (steps : ℕ) : ({ s with steps } : State).Inv :=
  { h with }

/-- An append is completed. -/
lemma Inv.complete (h : s.Inv) (carrier : Option Append) : (s.complete p carrier).Inv := by
  have hdone : ({ s with completed := s.completed ++ carrier.toList } : State).Inv :=
    { h with }
  exact hdone.setThread trivial

/-- A record that was read is readable. -/
theorem Inv.read (h : s.Inv) (hread : s.read proc strict io name = .data value) :
    ∃ r, s.records.get? name = some r ∧ r.value = value ∧ r.readable := by
  unfold State.read at hread
  split at hread
  case h_1 => cases hread
  case h_2 r hr =>
    split at hread
    case isTrue =>
      split at hread
      · split at hread <;> cases hread
      · split at hread
        case isTrue hok =>
          cases hread
          exact ⟨r, hr, rfl, (Bool.and_eq_true_iff.mp hok).1⟩
        case isFalse => cases hread
    case isFalse =>
      split at hread
      case isTrue hcached =>
        cases hread
        -- it was readable when it was cached
        have hmem : name ∈ (s.procs proc).cache := by
          simpa using (Bool.and_eq_true_iff.mp hcached).2
        obtain ⟨r', hr', hreadable⟩ := h.cache proc name hmem
        obtain rfl := mem_unique hr hr'
        exact ⟨r, hr, rfl, hreadable⟩
      case isFalse =>
        split at hread
        case isTrue hok =>
          cases hread
          simp only [Bool.and_eq_true] at hok
          exact ⟨r, hr, rfl, hok.1.2⟩
        case isFalse => cases hread

/-- The cache of a process is its own. -/
lemma cache_eq (s : State) (proc : ℕ) (strict : Bool) (name : Name) :
    (s.cache proc strict name).records = s.records ∧
      (s.cache proc strict name).threads = s.threads ∧
      (s.cache proc strict name).completed = s.completed := by
  unfold cache
  split <;> exact ⟨rfl, rfl, rfl⟩

/-- A cached record is no new one. -/
lemma ever_cache : (s.cache proc strict name).Ever n v ↔ s.Ever n v := by
  unfold Ever
  rw [(s.cache_eq proc strict name).1]

section

variable (h : s.Inv)

include h

/-- A record that was read may be cached. -/
lemma Inv.cached (hread : s.read proc strict io name = .data value) :
    (s.cache proc strict name).Inv := by
  unfold State.cache
  split
  case isTrue => exact h
  case isFalse =>
    refine h.setProc (h.procs proc) fun n hn => ?_
    rcases mem_cons.mp hn with rfl | hn
    · obtain ⟨r, hr, -, hreadable⟩ := h.read hread
      exact ⟨r, hr, hreadable⟩
    · exact h.cache proc n hn

/-- A record lands under a new name. -/
theorem Inv.land (hnew : s.records.get? name = none) : (s.land name value readable).Inv := by
  have hkeep {n : Name} {r : Record} (hr : s.records.get? n = some r) :
      (s.land name value readable).records.get? n = some r :=
    get?_set_of_none hnew hr
  refine ⟨fun q => (h.procs q).mono fun _ _ => ever_land hnew, fun q n hn => ?_, fun n v hn => ?_,
    fun q => (h.threads q).mono fun _ _ => ever_land hnew⟩
  · obtain ⟨r, hr, hreadable⟩ := h.cache q n hn
    exact ⟨r, hkeep hr, hreadable⟩
  · obtain ⟨r, hr, hv, hreadable⟩ := hn
    by_cases hname : n = name
    · subst hname
      obtain rfl : (⟨value, readable, s.steps, none⟩ : Record) = r := by
        simpa [State.land] using hr
      exact ⟨n, le_rfl, _, hr, hv, hreadable, rfl⟩
    · have hold : s.records.get? n = some r := by simpa [State.land, hname] using hr
      obtain ⟨n', hle, r', hr', hrest⟩ := h.covered n v ⟨r, hold, hv, hreadable⟩
      exact ⟨n', hle, r', get?_set_of_none hnew hr', hrest⟩

/-- A superseded record leaves. What it covered is covered by what covers its successor. -/
theorem Inv.unlink (hsup : Superseded s.Ever name v) : (s.unlink name).Inv := by
  have hever {n : Name} {w : String} (hn : s.Ever n w) : (s.unlink name).Ever n w :=
    ever_unlink.mpr hn
  obtain ⟨hprocs, hthreads, -⟩ := s.unlink_eq name
  refine ⟨fun q => ?_, fun q n hn => ?_, fun n w hn => ?_, fun q => ?_⟩
  · rw [hprocs]
    exact (h.procs q).mono fun _ _ => hever
  · obtain ⟨r, hr, hreadable⟩ := h.cache q n (hprocs ▸ hn)
    obtain ⟨r', hr', -, hread, -⟩ := get?_unlink hr
    exact ⟨r', hr', hread ▸ hreadable⟩
  · obtain ⟨hname, next, hnext, hlt⟩ := hsup
    obtain ⟨n', hle, hhere⟩ := h.covered n w (ever_unlink.mp hn)
    by_cases hne : n' = name
    · subst hne
      obtain rfl := s.ever_unique n' w v hhere.ever hname
      obtain ⟨n'', hle', hhere'⟩ := h.covered next w hnext
      have hgt : n' < n'' := hlt.trans_le hle'
      exact ⟨n'', hle.trans hgt.le, here_unlink hgt.ne' hhere'⟩
    · exact ⟨n', hle, here_unlink hne hhere⟩
  · rw [hthreads]
    exact (h.threads q).mono fun _ _ => hever

/-- A step of an append. -/
theorem Inv.append (hx : x.Sound s.Ever) (hstep : s.stepAppend p io x = some t) : t.Inv := by
  unfold stepAppend at hstep
  split at hstep
  case h_1 a stale =>
    split at hstep
    case isTrue => cases hstep
    case isFalse hnew =>
      cases hstep
      have hnew : s.records.get? a.name = none := by simpa [Dict.contains] using hnew
      refine (h.land hnew).setThread ⟨fun n hn => ?_, fun v hv => ?_⟩
      · obtain ⟨v, hv, hsup⟩ := hx n hn
        exact ⟨v, hv, hsup.mono fun _ _ => ever_land hnew⟩
      · exact ⟨_, get?_set_self _ _ _, hv, rfl⟩
  case h_2 a stale =>
    split at hstep
    case h_1 =>
      cases hstep
      exact h.setThread trivial
    case h_2 value hvalue =>
      have hstale (n : Name) (hn : stale = some n) : Superseded s.Ever n value := by
        obtain ⟨v, hv, hsup⟩ := hx.1 n hn
        obtain rfl := mem_unique hvalue hv
        exact hsup
      obtain ⟨hproc, hdoomed⟩ := (h.procs a.proc).superseded s.ever_unique
        (hx.2 value hvalue) hstale
      split at hstep
      case h_1 q doomed other heq =>
        rw [heq] at hproc hdoomed
        cases hstep
        have hcache : q.cache = (s.procs a.proc).cache := by
          have hq := congrArg (fun x : Proc × List Name × Option Name => x.1.cache) heq
          exact hq.symm
        have hset := h.setProc (i := a.proc) hproc (hcache ▸ h.cache a.proc)
        refine hset.setThread ?_
        split
        · trivial
        · trivial
        · exact fun n hn => ⟨value, hdoomed n hn⟩
  case h_3 =>
    cases hstep
    refine h.setThread ?_
    split
    · exact hx
    · trivial
  case h_4 a other =>
    cases hstep
    have hset := h.setProc (i := a.proc) ((h.procs a.proc).drop other) (h.cache a.proc)
    exact hset.setThread trivial
  case h_5 =>
    cases hstep
    exact h.setThread trivial
  case h_6 a older doomed =>
    cases hstep
    obtain ⟨v, hv⟩ := hx older mem_cons_self
    have hrest : ∀ n ∈ doomed, ∃ v, Superseded s.Ever n v :=
      fun n hn => hx n (mem_cons_of_mem _ hn)
    split
    · refine (h.unlink hv).setThread fun n hn => ?_
      obtain ⟨w, hw⟩ := hrest n hn
      exact ⟨w, hw.mono fun _ _ => ever_unlink.mpr⟩
    · exact h.setThread hrest
  case h_7 =>
    split at hstep
    · cases hstep
      exact h.setThread trivial
    · cases hstep
      exact h.complete _
  case h_8 => cases hstep

/-- A step of a pass. -/
theorem Inv.pass {w : Pass} {st : PassStage} (hst : (Thread.passing w st).Sound s.Ever)
    (hstep : s.stepPass p io w st = some t) : t.Inv := by
  unfold stepPass at hstep
  split at hstep
  case h_1 =>
    cases hstep
    exact h.setThread trivial
  case h_2 begun =>
    obtain ⟨hlisted, hstep⟩ := ite_none_right_eq_some.mp hstep
    cases hstep
    have hnodup : io.listing.Nodup := by
      simp only [listable, Bool.and_eq_true, decide_eq_true_eq] at hlisted
      exact hlisted.1.1
    refine h.setThread ⟨by simp, ?_, by simp⟩
    -- no name comes twice
    have hge : (io.listing.insertionSort (· ≥ ·)).Pairwise (· ≥ ·) :=
      pairwise_insertionSort _ _
    have hne := (perm_insertionSort (· ≥ ·) io.listing).nodup_iff.mpr hnodup
    exact (hge.and hne).imp fun h => lt_of_le_of_ne h.1 (Ne.symm h.2)
  case h_3 names kept gone =>
    cases hstep
    split
    · exact h.complete _
    · have hset := h.setProc (i := w.proc) ((h.procs w.proc).learn s.ever_unique hst.seen
        (names.filter (· ∉ gone)) w.mark gone io.crowded) (h.cache w.proc)
      exact hset.complete _
  case h_4 names name todo kept gone =>
    obtain ⟨hname, hsorted⟩ := pairwise_cons.mp hst.sorted
    have htail : PassSound s.Ever todo kept :=
      ⟨hst.seen, hsorted, fun p hp n hn => hst.older p hp n (mem_cons_of_mem _ hn)⟩
    split at hstep
    case h_1 value hread =>
      have hcached := h.cached hread
      obtain ⟨r, hr, hvalue, hreadable⟩ := h.read hread
      have hever : s.Ever name value := ⟨r, hr, hvalue, hreadable⟩
      have hmono {n : Name} {v : String} (hn : s.Ever n v) :
          (s.cache w.proc false name).Ever n v := ever_cache.mpr hn
      -- the record is newer than those that are left
      have hkeep : PassSound s.Ever todo (kept ++ [(name, value)]) :=
        ⟨forall_mem_append.mpr ⟨hst.seen, forall_mem_singleton.mpr hever⟩, hsorted,
          forall_mem_append.mpr ⟨htail.older, forall_mem_singleton.mpr hname⟩⟩
      split at hstep
      case isTrue =>
        cases hstep
        exact hcached.setThread (hkeep.mono fun _ _ => hmono)
      case isFalse hseen =>
        split at hstep
        case isTrue =>
          cases hstep
          exact hcached.setThread (hkeep.mono fun _ _ => hmono)
        case isFalse =>
          cases hstep
          refine hcached.setThread ⟨⟨value, ?_⟩, htail.mono fun _ _ => hmono⟩
          -- a newer record of the value was kept
          obtain ⟨q, hq, hsnd⟩ := mem_map.mp (not_not.mp hseen)
          refine ⟨hmono hever, q.1, hmono (hsnd ▸ hst.seen q hq), ?_⟩
          exact hst.older q hq name mem_cons_self
    case h_2 hread =>
      cases hstep
      exact (h.cached hread).setThread (htail.mono fun _ _ => ever_cache.mpr)
    case h_3 =>
      cases hstep
      exact h.setThread htail
  case h_5 =>
    obtain ⟨⟨v, hv⟩, hpass⟩ := hst
    split at hstep
    · cases hstep
      exact (h.unlink hv).setThread (hpass.mono fun _ _ => ever_unlink.mpr)
    · cases hstep
      exact h.setThread hpass

/-- What a scan notes is true. -/
theorem Inv.note (hread : s.read proc strict io name = .data value) {sc : Scan}
    (hsc : ∀ p ∈ sc.learned, s.Ever p.1 p.2) : ∀ p ∈ sc.note name value, s.Ever p.1 p.2 := by
  unfold Scan.note
  split
  case h_2 => exact hsc
  case h_1 v =>
    split
    case isFalse => exact hsc
    case isTrue => exact forall_mem_append.mpr ⟨hsc, forall_mem_singleton.mpr (h.read hread)⟩

/-- A step of a lookup. -/
theorem Inv.lookup {l : Lookup} {st : Stage} (hst : st.Sound s.Ever)
    (hstep : s.stepLookup p io l st = some t) : t.Inv := by
  unfold stepLookup at hstep
  split at hstep
  case h_1 =>
    cases hstep
    exact h.setThread trivial
  case h_2 =>
    obtain ⟨-, hstep⟩ := ite_none_right_eq_some.mp hstep
    split at hstep <;>
    · cases hstep
      exact h.setThread trivial
  case h_3 =>
    cases hstep
    exact h.setThread (fun p hp => by cases hp)
  case h_4 sc =>
    split at hstep
    case h_1 =>
      cases hstep
      exact h.setThread hst
    case h_2 name todo htodo =>
      split at hstep
      case h_1 value hread =>
        cases hstep
        refine (h.cached hread).setThread ?_
        have hnote := h.note hread hst
        split <;> exact fun q hq => ever_cache.mpr (hnote q hq)
      case h_2 =>
        cases hstep
        refine h.setThread ?_
        split <;> exact hst
      case h_3 | h_4 =>
        cases hstep
        exact h.setThread hst
  case h_5 =>
    cases hstep
    refine h.setThread ?_
    split <;> exact hst
  case h_6 =>
    cases hstep
    exact h.setThread hst
  case h_7 sc known =>
    cases hstep
    have hlearn : (if sc.learned = [] then s else s.setProc l.proc
        ((s.procs l.proc).learn sc.learned sc.listing l.mark [] io.crowded)).Inv ∧
        (if sc.learned = [] then s else s.setProc l.proc
          ((s.procs l.proc).learn sc.learned sc.listing l.mark [] io.crowded)).Ever = s.Ever := by
      split
      · exact ⟨h, rfl⟩
      · exact ⟨h.setProc ((h.procs l.proc).learn s.ever_unique hst _ _ _ _) (h.cache l.proc), rfl⟩
    refine hlearn.1.setThread ?_
    rw [hlearn.2]
    split
    · trivial
    · split
      · split <;> exact hst
      · exact hst
  case h_8 =>
    cases hstep
    refine h.setThread ?_
    split
    · exact hst
    · split <;> exact hst
  case h_9 sc known =>
    cases hstep
    have hset := h.setProc (i := l.proc) ((h.procs l.proc).drop known) (h.cache l.proc)
    exact hset.setThread hst
  case h_10 sc known =>
    split at hstep
    case h_1 hread =>
      cases hstep
      refine (h.cached hread).setThread ?_
      split <;> exact fun q hq => ever_cache.mpr (hst q hq)
    case h_2 =>
      cases hstep
      refine h.setThread ?_
      split <;> exact hst
    case h_3 =>
      cases hstep
      exact h.setThread hst
    case h_4 =>
      cases hstep
      exact h.setThread trivial
  case h_11 sc =>
    cases hstep
    have hend (l : Lookup) (answer : Option Name) : Thread.Sound s.Ever
        (if l.passes ≤ supersededRescans then .looking l .ready
          else if l.strict then .raised l else .answered l answer) := by
      split
      · trivial
      · split <;> trivial
    unfold close
    split
    · exact h.setThread trivial
    · exact h.setThread (hend _ _)

end

variable {e : Event}

/-- Every step keeps the invariant. -/
theorem Inv.step (h : s.Inv) (hstep : s.step e = some t) : t.Inv := by
  obtain ⟨u, happly, rfl⟩ := map_eq_some_iff.mp hstep
  refine Inv.counted ?_ _
  cases e with simp only [apply] at happly
  | arrive name value =>
    split at happly
    case isTrue => cases happly
    case isFalse hnew =>
      cases happly
      exact h.land (by simpa [Dict.contains] using hnew)
  | shed proc excess =>
    cases happly
    refine h.setProc ((h.procs proc).shed excess) ?_
    have hcache : ((s.procs proc).shed excess).cache = (s.procs proc).cache := by
      unfold Proc.shed
      split <;> rfl
    rw [hcache]
    exact h.cache proc
  | append p proc name value =>
    split at happly
    · cases happly
      exact h.setThread fun n hn => (h.procs proc).supersededTwice hn
    · cases happly
  | prune | lookup =>
    split at happly
    · cases happly
      exact h.setThread trivial
    · cases happly
  | go p io =>
    have hthread := h.threads p
    simp only [advance] at happly
    split at happly
    case h_1 hp => exact h.pass (hp ▸ hthread) happly
    case h_2 hp => exact h.lookup (by rw [hp] at hthread; exact hthread) happly
    case h_3 => exact h.append hthread happly

/-! ## Every step's records -/

/-- What a step does to the records. -/
inductive Change (s : State) (e : Event) (t : State) : Prop
  | quiet (h : t.records = s.records)
  | land (name : Name) (value : Option String) (readable : Bool)
      (hnew : s.records.get? name = none) (hreadable : readable ∨ e = .arrive name value)
      (h : t.records = s.records.set name { value, readable, born := s.steps })
  | leave (name : Name) (r : Record) (hunlinks : s.unlinks e = some name)
      (hr : s.records.get? name = some r) (hhere : r.gone = none)
      (h : t.records = s.records.set name { r with gone := some s.steps })

/-- An unlink of a record that is there. -/
theorem unlink_cases (s : State) (name : Name) :
    (s.unlink name).records = s.records ∧ s.present name = false ∨
      ∃ r, s.records.get? name = some r ∧ r.gone = none ∧ s.present name ∧
        (s.unlink name).records = s.records.set name { r with gone := some s.steps } := by
  unfold unlink present
  cases hr : s.records.get? name with
  | none => simp
  | some r =>
    cases hgone : r.gone with
    | none => exact .inr ⟨r, rfl, hgone, by simp [hgone], by simp [hgone]⟩
    | some k => exact .inl (by simp [hgone])

lemma Change.congr {u : State} (h : Change s e u) (hrecords : t.records = u.records) :
    Change s e t := by
  cases h with
  | quiet h => exact .quiet (hrecords.trans h)
  | land name value readable hnew hreadable h =>
    exact .land name value readable hnew hreadable (hrecords.trans h)
  | leave name r hunlinks hr hhere h =>
    exact .leave name r hunlinks hr hhere (hrecords.trans h)

/-- A step touches the records and what processes remember. -/
structure Touch (s : State) (e : Event) (t : State) : Prop where
  change : Change s e t
  threads : t.threads = s.threads
  completed : t.completed = s.completed

/-- A step of a thread: it goes on, or completes the append that it carries. -/
inductive Moves (s : State) (p : ℕ) (e : Event) : State → Prop
  | goes {u : State} (x : Thread) (h : Touch s e u) : Moves s p e (u.setThread p x)
  | ends {u : State} (h : Touch s e u) : Moves s p e (u.complete p (s.threads p).carries)

/-- A move of a thread changes the records like its step. -/
lemma Moves.change (h : Moves s p e t) : Change s e t := by
  cases h with
  | goes _ h | ends h => exact h.change.congr rfl

lemma touch_self : Touch s e s := ⟨.quiet rfl, rfl, rfl⟩

lemma touch_setProc {i : ℕ} {q : Proc} : Touch s e (s.setProc i q) := ⟨.quiet rfl, rfl, rfl⟩

lemma touch_cache : Touch s e (s.cache proc strict name) :=
  ⟨.quiet (s.cache_eq ..).1, (s.cache_eq ..).2.1, (s.cache_eq ..).2.2⟩

lemma touch_land (hnew : ¬ s.records.contains name)
    (hreadable : readable ∨ e = .arrive name value) : Touch s e (s.land name value readable) :=
  ⟨.land name value readable (by simpa [Dict.contains] using hnew) hreadable rfl, rfl, rfl⟩

lemma touch_unlink (hunlinks : s.present name → s.unlinks e = some name) :
    Touch s e (s.unlink name) := by
  obtain ⟨-, hthreads, hcompleted, -⟩ := s.unlink_eq name
  refine ⟨?_, hthreads, hcompleted⟩
  rcases s.unlink_cases name with ⟨hsame, -⟩ | ⟨r, hr, hgone, hhere, hset⟩
  · exact .quiet hsame
  · exact .leave name r (hunlinks hhere) hr hgone hset

/-- A lookup changes no record. -/
lemma moves_stepLookup {l : Lookup} {st : Stage} (hstep : s.stepLookup p io l st = some t) :
    Moves s p e t ∧ t.records = s.records := by
  unfold stepLookup at hstep
  split at hstep
  case h_2 =>
    obtain ⟨-, hstep⟩ := ite_none_right_eq_some.mp hstep
    split at hstep <;>
    · cases hstep
      exact ⟨.goes _ touch_self, rfl⟩
  case h_4 =>
    split at hstep
    · cases hstep
      exact ⟨.goes _ touch_self, rfl⟩
    · split at hstep
      · cases hstep
        exact ⟨.goes _ touch_cache, (s.cache_eq ..).1⟩
      all_goals
        cases hstep
        exact ⟨.goes _ touch_self, rfl⟩
  case h_7 =>
    cases hstep
    split
    · exact ⟨.goes _ touch_self, rfl⟩
    · exact ⟨.goes _ touch_setProc, rfl⟩
  case h_9 =>
    cases hstep
    exact ⟨.goes _ touch_setProc, rfl⟩
  case h_10 =>
    split at hstep
    · cases hstep
      exact ⟨.goes _ touch_cache, (s.cache_eq ..).1⟩
    all_goals
      cases hstep
      exact ⟨.goes _ touch_self, rfl⟩
  case h_11 =>
    cases hstep
    unfold close
    split <;> exact ⟨.goes _ touch_self, rfl⟩
  all_goals
    cases hstep
    exact ⟨.goes _ touch_self, rfl⟩

/-- A pass unlinks at most the record it is at. -/
lemma moves_stepPass {w : Pass} {st : PassStage} (hp : s.threads p = .passing w st)
    (hstep : s.stepPass p io w st = some t) : Moves s p (.go p io) t := by
  have hcarries : w.carrier = (s.threads p).carries := by rw [hp, Thread.carries]
  unfold stepPass at hstep
  split at hstep
  case h_1 =>
    cases hstep
    exact .goes _ touch_self
  case h_2 =>
    obtain ⟨-, hstep⟩ := ite_none_right_eq_some.mp hstep
    cases hstep
    exact .goes _ touch_self
  case h_3 =>
    cases hstep
    rw [hcarries]
    split
    · exact .ends touch_self
    · exact .ends touch_setProc
  case h_4 =>
    split at hstep
    · split at hstep
      · cases hstep
        exact .goes _ touch_cache
      · split at hstep <;>
        · cases hstep
          exact .goes _ touch_cache
    · cases hstep
      exact .goes _ touch_cache
    · cases hstep
      exact .goes _ touch_self
  case h_5 =>
    split at hstep
    case isTrue hhere =>
      cases hstep
      exact .goes _ (touch_unlink fun _ => by simp [unlinks, hp, hhere])
    case isFalse =>
      cases hstep
      exact .goes _ touch_self

/-- An append lands its record and unlinks those behind it. -/
lemma moves_stepAppend (hp : s.threads p = x) (hstep : s.stepAppend p io x = some t) :
    Moves s p (.go p io) t := by
  unfold stepAppend at hstep
  split at hstep
  case h_1 =>
    split at hstep
    case isTrue => cases hstep
    case isFalse hnew =>
      cases hstep
      exact .goes _ (touch_land hnew (.inl rfl))
  case h_2 =>
    split at hstep
    · cases hstep
      exact .goes _ touch_self
    · split at hstep
      cases hstep
      exact .goes _ touch_setProc
  case h_4 =>
    cases hstep
    exact .goes _ touch_setProc
  case h_6 =>
    cases hstep
    refine .goes _ ?_
    split
    case isTrue hio => exact touch_unlink fun hhere => by simp [unlinks, hp, hio, hhere]
    case isFalse => exact touch_self
  case h_7 a =>
    split at hstep
    · cases hstep
      exact .goes _ touch_self
    · cases hstep
      have hcarries : some a = (s.threads p).carries := by rw [hp, Thread.carries]
      exact hcarries ▸ .ends touch_self
  case h_8 => cases hstep
  all_goals
    cases hstep
    exact .goes _ touch_self

/-- What a step does to the records. -/
lemma change_of_step (hstep : s.step e = some t) : Change s e t := by
  obtain ⟨u, happly, rfl⟩ := map_eq_some_iff.mp hstep
  suffices hu : Change s e u from hu.congr rfl
  cases e with
  | arrive name value =>
    simp only [apply] at happly
    split at happly
    case isTrue => cases happly
    case isFalse hnew =>
      cases happly
      exact (touch_land hnew (.inr rfl)).change
  | shed proc excess =>
    cases happly
    exact .quiet rfl
  | append | prune | lookup =>
    simp only [apply] at happly
    split at happly
    · cases happly
      exact .quiet rfl
    · cases happly
  | go p io =>
    simp only [apply, advance] at happly
    split at happly
    case h_1 hp => exact (moves_stepPass hp happly).change
    case h_2 => exact (moves_stepLookup happly).1.change
    case h_3 => exact (moves_stepAppend rfl happly).change

/-- Nothing leaves without being unlinked. -/
theorem Change.unlinks_eq (h : Change s e t) (hthere : s.present n) (hleft : t.present n = false) :
    s.unlinks e = some n := by
  cases h with
  | quiet h =>
    rw [present, h] at hleft
    rw [present, hleft] at hthere
    cases hthere
  | land name value readable hnew hreadable h =>
    rw [present, h, get?_set] at hleft
    split at hleft
    · cases hleft
    · rw [present, hleft] at hthere
      cases hthere
  | leave name r hunlinks hr hhere h =>
    rw [present, h, get?_set] at hleft
    split at hleft
    case isTrue hn => exact hn ▸ hunlinks
    case isFalse =>
      rw [present, hleft] at hthere
      cases hthere

/-- A step that unlinks a record works on a superseded one. -/
theorem Inv.superseded_of_unlinks (h : s.Inv) (hn : s.unlinks e = some n) :
    ∃ v, Superseded s.Ever n v := by
  unfold unlinks at hn
  split at hn
  case h_2 => cases hn
  case h_1 p io =>
    have hthread := h.threads p
    split at hn
    case h_1 hp =>
      obtain ⟨-, ⟨⟩⟩ := ite_none_right_eq_some.mp hn
      rw [hp] at hthread
      exact hthread _ mem_cons_self
    case h_2 hp =>
      obtain ⟨-, ⟨⟩⟩ := ite_none_right_eq_some.mp hn
      rw [hp] at hthread
      exact hthread.1
    case h_3 => cases hn

end Steps

/-! ## Every run -/

/-- The processes have just started; the stream may hold records. -/
structure Starts (s : State) : Prop where
  procs : ∀ q, (s.procs q).facts = none ∧ (s.procs q).cache = []
  records : ∀ n r, s.records.get? n = some r → r.gone = none ∧ r.born < s.steps
  threads : ∀ p, s.threads p = .idle
  completed : s.completed = []

/-- The invariant holds at the start. -/
lemma Starts.inv {s : State} (h : s.Starts) : s.Inv where
  procs q f hf := by simp [(h.procs q).1] at hf
  cache q := by simp [(h.procs q).2]
  covered n v hn := by
    obtain ⟨r, hr, hv, hreadable⟩ := hn
    exact ⟨n, le_rfl, r, hr, hv, hreadable, (h.records n r hr).1⟩
  threads p := by
    rw [h.threads p]
    trivial

/-- **The newest record stays.** In every run, a record that leaves the stream holds a value of
which a newer readable record is there. -/
theorem newest_record_stays {s t u : State} {events : List Event} (hs : s.Starts)
    (hrun : Trace.Run (fun s e t => s.step e = some t) s events t) {e : Event}
    (hstep : t.step e = some u) {n : Name} (hthere : t.present n) (hleft : u.present n = false) :
    ∃ r v n' r', t.records.get? n = some r ∧ r.value = some v ∧ n < n' ∧
      t.records.get? n' = some r' ∧ r'.value = some v ∧ r'.readable ∧ r'.gone = none := by
  have hinv : t.Inv := hrun.invariant (fun _ _ _ h hstep => h.step hstep) hs.inv
  have hunlinks := (change_of_step hstep).unlinks_eq hthere hleft
  obtain ⟨v, ⟨r, hr, hv, -⟩, next, hnext, hlt⟩ := hinv.superseded_of_unlinks hunlinks
  obtain ⟨n', hle, r', hr', hv', hreadable, hgone⟩ := hinv.covered next v hnext
  exact ⟨r, v, n', r', hr, hv, hlt.trans_le hle, hr', hv', hreadable, hgone⟩

/-- An append of a value by one thread, with no pass. -/
def put (p proc : ℕ) (name : Name) (value : String) : List Event :=
  [.append p proc name (some value), .go p {}, .go p {}, .go p {}]

/-- There are no records. -/
def bare : State :=
  { steps := 0, records := .empty, procs := fun _ => {}, threads := fun _ => .idle
    completed := [] }

lemma bare_starts : bare.Starts where
  procs _ := ⟨rfl, rfl⟩
  records := by simp [bare]
  threads _ := rfl
  completed := rfl

/-- A peer with a fast clock appends record 9, which the process does not know. It appends records
1 and 2, and its next append finds record 1 two versions behind. -/
private def overtaken : List Event :=
  put 1 1 9 "v" ++ put 0 0 1 "v" ++ put 0 0 2 "v" ++
    [.append 0 0 3 (some "v"), .go 0 {}, .go 0 {}, .go 0 {}]

theorem newest_record_stays_overtaken : ∃ t u, Trace.Run (fun s e t => s.step e = some t) bare
    overtaken t ∧ t.step (.go 0 {}) = some u ∧ t.present 1 ∧ u.present 1 = false ∧
      ∃ r v n' r', t.records.get? 1 = some r ∧ r.value = some v ∧ 1 < n' ∧
        t.records.get? n' = some r' ∧ r'.value = some v ∧ r'.readable ∧ r'.gone = none := by
  have hfold : ((overtaken.foldlM step bare).bind fun t => (t.step (.go 0 {})).map fun u =>
      (t.present 1, u.present 1)) = some (true, false) := by
    decide +kernel
  obtain ⟨t, ht, hfold⟩ := bind_eq_some_iff.mp hfold
  obtain ⟨u, hu, hsummary⟩ := map_eq_some_iff.mp hfold
  obtain ⟨hthere, hleft⟩ := Prod.mk.inj hsummary
  have hrun := Trace.Run.of_foldlM ht
  exact ⟨t, u, hrun, hu, hthere, hleft, newest_record_stays bare_starts hrun hu hthere hleft⟩

end State

end Cronstable.NameKeyed
