import Cronstable.CronExpr.Civil
import Cronstable.Lib.Zone

/-!
# The aware search

`CronTab.nextInstant` answers the first scheduled UTC instant after an aware date-time. A label is
scheduled at its fold 0 reading (`CronTab.fires`). Label order and instant order disagree around a
spring-forward, where the readings of the skipped labels fall behind the gap among those of the
labels shown there. The search therefore starts from a seed rewound by the jump
(`gapRewoundSeed`), skips the labels whose instant has passed (`nextPending`), and compares a
shifted match with the first match shown behind the gap, whose edge a binary search finds
(`gapEdge`).

The binary search works on whole seconds. Behind a gap that is not a whole number of seconds long
it can reach two ends between which it never moves; then the source loops for ever, which is `none`
here.

## Main results

* `gapRewoundSeed_cases`: what the seed is;
* `first_nextInstant`: with whole jumps, the search returns the least scheduled instant after the
  date-time.
-/

namespace Cronstable.CronExpr

open Calendar Zone First

/-- `_GAP_PROBE`. -/
def gapProbe : ℤ := 26 * hour

section Search

variable (z : Zone)

/-- `_gap_rewound_seed`: the naive seed of a forward scan from `now`. -/
def gapRewoundSeed (now : Aware) (nowUtc : ℤ) : ℤ :=
  let civil := now.civil
  let earlier := z.astimezone (nowUtc - gapProbe)
  let offNow := z.utcoffset now
  let offThen := z.utcoffset earlier
  if offNow ≤ offThen then civil
  else
    let jump := offNow - offThen
    let atEdge := z.utcoffset (z.astimezone (nowUtc - jump))
    if atEdge = offNow then civil else civil - jump

/-- The second halfway between the ends of the binary search. -/
def gapMid (low high : ℤ) : ℤ := (low * second + (high - low * second) / 2) / second

lemma gapMid_bounds {low high : ℤ} (h : second < high - low * second) :
    low ≤ gapMid low high ∧ low * second ≤ gapMid low high * second ∧
      gapMid low high * second < high := by
  unfold gapMid
  simp only [units] at h ⊢
  omega

/-- The binary search of `_next_instant` for the first valid second behind a gap. `low` counts
whole seconds. An iteration that moves neither end repeats for ever: `none`. -/
def gapEdge (low high : ℤ) : Option ℤ :=
  if _hopen : second < high - low * second then
    let mid := gapMid low high
    if z.label (z.resolve (mid * second)) = mid * second then gapEdge low (mid * second)
    else if mid = low then none
    else gapEdge mid high
  else some high
termination_by (high - low * second).toNat
decreasing_by
  all_goals
    have hmid := gapMid_bounds _hopen
    simp only [units, mid] at *
    omega

end Search

/-- The first date-time past the horizon. -/
def pastHorizon : ℤ := datetime (yearHorizon + 1) 1 1 0 0 0

variable {c : ℤ}

namespace CronTab

variable (tab : CronTab)

lemma Matches.lt_pastHorizon (h : tab.Matches c) : c < pastHorizon := by
  have hyear : getYear pastHorizon = yearHorizon + 1 := by decide +kernel
  refine lt_of_dayNumber_lt ((dayNumber_lt_iff _ _).mpr (.inl ?_))
  have := h.2.1
  omega

lemma nextCivil_bounds {target : ℤ} (h : tab.nextCivil c = some target) :
    c < target ∧ target < pastHorizon := by
  have hfirst := tab.first_nextCivil c
  rw [h] at hfirst
  exact ⟨hfirst.1.2, Matches.lt_pastHorizon tab hfirst.1.1⟩

section Search

variable (z : Zone)

/-- The skip loop of `_next_instant`: the first match after `civil` whose instant has not
passed. -/
def nextPending (nowUtc civil : ℤ) : Option ℤ :=
  match _hnext : tab.nextCivil civil with
  | none => none
  | some target =>
    let resolvedUtc := z.resolve target
    let resolvedCivil := z.label resolvedUtc
    if nowUtc < resolvedUtc then some target
    else nextPending nowUtc (max target resolvedCivil)
termination_by (pastHorizon - civil).toNat
decreasing_by
  have := tab.nextCivil_bounds _hnext
  omega

/-- `_next_instant`: the first scheduled UTC instant after `now`. The outer `none` is a search
that never returns. -/
def nextInstant (now : Aware) (nowUtc : ℤ) : Option (Option ℤ) :=
  match tab.nextPending z nowUtc (gapRewoundSeed z now nowUtc) with
  | none => some none
  | some target =>
    let resolvedUtc := z.resolve target
    let resolvedCivil := z.label resolvedUtc
    if resolvedCivil = target then some (some resolvedUtc)
    else
      let shown := z.label nowUtc
      match tab.nextCivil (max target shown) with
      | none => some (some resolvedUtc)
      | some rival =>
        if resolvedCivil ≤ rival then some (some resolvedUtc)
        else
          let rivalUtc := z.resolve rival
          if z.label rivalUtc = rival then some (some rivalUtc)
          else
            -- the first rival is skipped as well: look behind the gap
            (gapEdge z (target / second) resolvedCivil).map fun high =>
              match tab.nextCivil (max (high - second) shown) with
              | none => some resolvedUtc
              | some rival =>
                if rival < resolvedCivil then some (z.resolve rival) else some resolvedUtc

/-- The scheduled instants: the fold 0 readings of the matching labels. -/
def fires : Set ℤ := {u | ∃ c, tab.Matches c ∧ z.resolve c = u}

end Search

end CronTab

/-! ## The seed -/

variable {n civil : ℤ}

section Seed

variable {z : Zone}

/-- Skipped labels of the gap at `t` can still be scheduled after the instant `n`. -/
def Pending (z : Zone) (n t : ℤ) : Prop :=
  z.Gap t ∧ t ≤ n ∧ n < t + (z.off t - z.off (t - 1))

/-- What the seed is when the offsets at its three probes are known. -/
private lemma gapRewoundSeed_eq {now : Aware} {before : ℤ}
    (hbefore : z.off (n - gapProbe) = before) :
    gapRewoundSeed z now n =
      if z.utcoffset now ≤ before then now.civil
      else if z.off (n - (z.utcoffset now - before)) = z.utcoffset now then now.civil
      else now.civil - (z.utcoffset now - before) := by
  simp only [gapRewoundSeed, utcoffset_astimezone, hbefore]

/-- The seed is the label shown, but with the offset from before the gap while skipped labels are
pending. -/
theorem gapRewoundSeed_cases (z : Zone) (now : Aware) :
    (∃ t, Pending z (z.instant now) t ∧
        gapRewoundSeed z now (z.instant now) = z.instant now + z.off (t - 1)) ∨
      (∀ t, ¬ Pending z (z.instant now) t) ∧
        gapRewoundSeed z now (z.instant now) = z.label (z.instant now) := by
  have hunits := units
  have hprobe : gapProbe = 93600000000 := by decide
  have hoffset : z.utcoffset now = now.civil - z.instant now := rfl
  set n := z.instant now with hn
  -- either the label of `now` is shown, or it is skipped and read with one of the two offsets
  have hread : z.label n = now.civil ∨ ∃ t, z.Skips t now.civil ∧
      (n = now.civil - z.off (t - 1) ∨ n = now.civil - z.off t) := by
    rw [hn, instant]
    split
    · rcases z.resolveLate_cases now.civil with ⟨h, -⟩ | ⟨t, hskip, h⟩
      · exact .inl h
      · exact .inr ⟨t, hskip, .inr h⟩
    · rcases z.resolve_cases now.civil with ⟨h, -⟩ | ⟨t, hskip, h⟩
      · exact .inl h
      · exact .inr ⟨t, hskip, .inl h⟩
  rcases hread with hshown | ⟨t, hskip, hread⟩
  · have hoff : z.utcoffset now = z.off n := by
      unfold label at hshown
      omega
    rcases z.steady_or_transition (n - gapProbe) n with hsteady | ⟨t, ht, hlo, hhi⟩
    · -- no transition in the window of the probe
      have hsame : z.off n = z.off (n - gapProbe) := hsteady n (by omega) le_rfl
      rw [gapRewoundSeed_eq hsame.symm, hoff, if_pos le_rfl]
      refine .inr ⟨?_, hshown.symm⟩
      rintro t ⟨hgap, hle, hlt⟩
      have hjump := z.jump t
      have hat : z.off t = z.off (n - gapProbe) := hsteady t (by omega) hle
      have hbefore : z.off (t - 1) = z.off (n - gapProbe) := hsteady (t - 1) (by omega) (by omega)
      omega
    · have hafter : z.off n = z.off t := off_after ht hhi (by omega)
      have hbefore : z.off (n - gapProbe) = z.off (t - 1) := off_before ht (by omega) hlo
      have hjump := z.jump t
      rw [gapRewoundSeed_eq hbefore, hoff, hafter]
      -- another gap cannot be this close
      have honly : ∀ t', Pending z n t' → t' = t := by
        rintro t' ⟨hgap, hle, hlt⟩
        have := z.jump t'
        exact hgap.transition.eq_of_close ht (by omega) (by omega)
      by_cases hgap : z.Gap t
      · have hgrew : z.off (t - 1) < z.off t := hgap
        rw [if_neg (by omega)]
        rcases lt_or_ge (n - (z.off t - z.off (t - 1))) t with hopen | hpast
        · have hedge : z.off (n - (z.off t - z.off (t - 1))) = z.off (t - 1) :=
            off_before ht (by omega) hopen
          refine .inl ⟨t, ⟨hgap, hhi, by omega⟩, ?_⟩
          omega
        · have hedge : z.off (n - (z.off t - z.off (t - 1))) = z.off t :=
            off_after ht hpast (by omega)
          rw [hedge, if_pos rfl]
          refine .inr ⟨fun t' hpending => ?_, hshown.symm⟩
          have heq := honly t' hpending
          subst heq
          have := hpending.2.2
          omega
      · have hshrank : z.off t ≤ z.off (t - 1) := not_lt.mp hgap
        rw [if_pos hshrank]
        exact .inr ⟨fun t' hpending => hgap (honly t' hpending ▸ hpending.1), hshown.symm⟩
  · have hgap := hskip.gap
    have hjump := z.jump t
    obtain ⟨hlow, hhigh⟩ := hskip
    rcases hread with hread | hread
    · -- fold 0: read with the offset from before the gap, behind it
      have hbefore : z.off (n - gapProbe) = z.off (t - 1) :=
        off_before hgap.transition (by omega) (by omega)
      rw [gapRewoundSeed_eq hbefore]
      exact .inl ⟨t, ⟨hgap, by omega, by omega⟩, by omega⟩
    · -- fold 1: read with the offset from after the gap, ahead of it
      have hbefore : z.off (n - gapProbe) = z.off (t - 1) :=
        off_before hgap.transition (by omega) (by omega)
      have hoff : z.utcoffset now = z.off t := by omega
      have hedge : z.off (n - (z.off t - z.off (t - 1))) = z.off (t - 1) :=
        off_before hgap.transition (by omega) (by omega)
      have hlabel : z.off n = z.off (t - 1) := off_before hgap.transition (by omega) (by omega)
      rw [gapRewoundSeed_eq hbefore, hoff, if_neg (by omega), if_neg (by omega), label,
        hlabel]
      refine .inr ⟨?_, by omega⟩
      rintro t' ⟨hgap', hle, hlt⟩
      have := z.jump t'
      have := hgap'.transition.eq_of_close hgap.transition (by omega) (by omega)
      omega

/-- No label up to `civil` is read after the instant `n`, as far as `p` asks, and every skipped
label behind `civil` is. -/
structure Settled (z : Zone) (p : ℤ → Prop) (civil n : ℤ) : Prop where
  past : ∀ c, p c → c ≤ civil → z.resolve c ≤ n
  skipped : ∀ t c, z.Skips t c → civil < c → n < z.resolve c

lemma Settled.of_seed (now : Aware) (p : ℤ → Prop) :
    Settled z p (gapRewoundSeed z now (z.instant now)) (z.instant now) := by
  have hunits := units
  rcases gapRewoundSeed_cases z now with ⟨t, ⟨hgap, hle, hlt⟩, hseed⟩ | ⟨hnone, hseed⟩
  all_goals
    rw [hseed]
    generalize z.instant now = n at *
  · have hjump := z.jump t
    have ha := z.bound (t - 1)
    have hb := z.bound t
    refine ⟨fun c _ hc => ?_, fun t' c hskip hc => ?_⟩
    · by_contra hlate
      have hlate : n < z.resolve c := not_le.mp hlate
      rcases z.resolve_cases c with ⟨hshown, -⟩ | ⟨t', hskip, heq⟩
      · -- a label shown behind the gap is above it
        have := le_label_of_gap_le hgap (hle.trans hlate.le)
        omega
      · have hbounds := hskip.resolve_bounds
        have hjump' := z.jump t'
        have ha' := z.bound (t' - 1)
        have hgap' := hskip.gap.transition
        have heq' := hgap'.eq_of_close hgap.transition (by omega) (by omega)
        subst heq'
        omega
    · have hbounds := hskip.resolve_bounds
      have hb' := z.bound t'
      by_contra hearly
      have hhigh := hskip.2
      have heq' := hskip.gap.transition.eq_of_close hgap.transition (by omega) (by omega)
      subst heq'
      rw [hskip.resolve_eq] at hearly
      omega
  · refine ⟨fun c _ hc => ?_, fun t c hskip hc => ?_⟩
    · rcases z.resolve_cases c with ⟨hshown, -⟩ | ⟨t, hskip, -⟩
      · exact (resolve_mono hshown hc).trans (resolve_le rfl)
      · have hbounds := hskip.resolve_bounds
        have hpast : t ≤ n := by
          by_contra hahead
          have := label_lt_of_lt_gap hskip.gap (not_le.mp hahead)
          have := hskip.1
          omega
        by_contra hlate
        exact hnone t ⟨hskip.gap, hpast, by omega⟩
    · have hbounds := hskip.resolve_bounds
      by_contra hearly
      have := le_label_of_gap_le hskip.gap (u := n)
      have := hskip.2
      omega

/-- A first match that has passed is skipped over. It is shown at its instant, since the skipped
labels are still to come. -/
theorem Settled.skip {p : ℤ → Prop} {target : ℤ} (h : Settled z p civil n)
    (hfirst : IsLeast {c | p c ∧ civil < c} target) (hpast : z.resolve target ≤ n) :
    Settled z p (max target (z.label (z.resolve target))) n := by
  have hshown : z.label (z.resolve target) = target := by
    by_contra hne
    obtain ⟨t, hskip⟩ := exists_skips hne
    have := h.skipped t target hskip hfirst.1.2
    omega
  rw [hshown, max_self]
  refine ⟨fun c hc hle => ?_, fun t c hskip hlt => ?_⟩
  · rcases lt_or_ge civil c with hlt | hge
    · have heq : c = target := le_antisymm hle (hfirst.2 ⟨hc, hlt⟩)
      rw [heq]
      exact hpast
    · exact h.past c hc hge
  · exact h.skipped t c hskip (hfirst.1.2.trans hlt)

/-- At the instant of a first match that is shown, everything before it has passed. -/
theorem Settled.fire {p : ℤ → Prop} {target : ℤ} (h : Settled z p civil n)
    (hfirst : IsLeast {c | p c ∧ civil < c} target) (hlater : n < z.resolve target)
    (hshown : z.label (z.resolve target) = target) : Settled z p target (z.resolve target) := by
  refine ⟨fun c hc hle => ?_, fun t c hskip hlt => ?_⟩
  · rcases lt_or_ge civil c with hlt | hge
    · rw [le_antisymm hle (hfirst.2 ⟨hc, hlt⟩)]
    · exact (h.past c hc hge).trans hlater.le
  · -- past the gap the clock would show more than the skipped label
    have hbounds := hskip.resolve_bounds
    by_contra hearly
    have := le_label_of_gap_le hskip.gap (u := z.resolve target)
    have := hskip.2
    omega

end Seed

namespace CronTab

variable (tab : CronTab) {z : Zone}

/-! ## The skip loop -/

/-- The skip loop finds the first match whose instant has not passed. -/
theorem first_nextPending (h : Settled z tab.Matches civil n) :
    First {c | tab.Matches c ∧ n < z.resolve c} (tab.nextPending z n civil) := by
  fun_induction tab.nextPending z n civil with
  | case1 civil hnext =>
    have hfirst := tab.first_nextCivil civil
    rw [hnext] at hfirst
    refine none_iff.mpr fun c hc => none_iff.mp hfirst c ⟨hc.1, ?_⟩
    by_contra hle
    have := h.past c hc.1 (not_lt.mp hle)
    have := hc.2
    omega
  | case2 civil target hnext resolvedUtc hfuture =>
    have hfirst := tab.first_nextCivil civil
    rw [hnext] at hfirst
    refine ⟨⟨hfirst.1.1, hfuture⟩, fun c hc => hfirst.2 ⟨hc.1, ?_⟩⟩
    by_contra hle
    have := h.past c hc.1 (not_lt.mp hle)
    have := hc.2
    omega
  | case3 civil target hnext resolvedUtc resolvedCivil hpast ih =>
    have hfirst := tab.first_nextCivil civil
    rw [hnext] at hfirst
    exact ih (h.skip hfirst (not_lt.mp hpast))

end CronTab

/-! ## The edge of a gap -/

section Edge

variable {z : Zone} {t target : ℤ}

/-- From a skipped label to the label shown at its reading, exactly what lies behind the gap is
valid. -/
theorem label_resolve_iff (hskip : z.Skips t target) (hlo : target ≤ c)
    (hhi : c < target + (z.off t - z.off (t - 1))) :
    z.label (z.resolve c) = c ↔ t + z.off t ≤ c := by
  have htarget := hskip.2
  constructor
  · intro hshown
    by_contra hlt
    have hin : z.Skips t c := ⟨hskip.1.trans hlo, not_le.mp hlt⟩
    exact hin.label_ne _ hshown
  · intro hle
    exact (hskip.gap.resolve_behind hle (by omega)).2

/-- The binary search returns the first whole second behind the gap. -/
theorem gapEdge_eq (hskip : z.Skips t target) (low high : ℤ) (hlow : target ≤ low * second)
    (hbelow : low * second < t + z.off t) (habove : t + z.off t ≤ high)
    (hhigh : high ≤ target + (z.off t - z.off (t - 1))) (hwhole : second ∣ high) :
    ∃ edge, gapEdge z low high = some edge ∧ second ∣ edge ∧ t + z.off t ≤ edge ∧
      edge - second < t + z.off t := by
  fun_induction gapEdge z low high with
  | case1 low high hopen mid hvalid ih =>
    have hmid : low * second ≤ mid * second ∧ mid * second < high := (gapMid_bounds hopen).2
    have hedge := (label_resolve_iff hskip (by omega) (by omega)).mp hvalid
    exact ih hlow hbelow hedge (by omega) (Int.dvd_mul_left ..)
  | case2 low high hopen mid hinvalid hstuck =>
    -- ends that are whole seconds more than one apart have a second between them
    exfalso
    obtain ⟨k, rfl⟩ := hwhole
    have : mid = (low * second + (second * k - low * second) / 2) / second := rfl
    simp only [units] at *
    omega
  | case3 low high hopen mid hinvalid hmoved ih =>
    have hmid : low * second ≤ mid * second ∧ mid * second < high := (gapMid_bounds hopen).2
    have hedge := mt (label_resolve_iff hskip (by omega) (by omega)).mpr hinvalid
    exact ih (by omega) (not_le.mp hedge) habove hhigh hwhole
  | case4 low high hclosed => exact ⟨high, rfl, hwhole, habove, by omega⟩

end Edge

namespace CronTab

variable (tab : CronTab) {z : Zone}

/-! ## The search -/

/-- The matches shown behind a gap ahead of the reading of a skipped match. -/
def rivals (z : Zone) (n t target : ℤ) : Set ℤ :=
  {c | tab.Matches c ∧ t + z.off t ≤ c ∧ c < target + (z.off t - z.off (t - 1)) ∧ z.label n < c}

/-- Before the reading of a skipped label, an instant has passed exactly when its label was
shown. -/
theorem lt_resolve_iff {t target : ℤ} (hskip : z.Skips t target) (hn : n < z.resolve target)
    (hlo : t + z.off t ≤ c) (hhi : c < target + (z.off t - z.off (t - 1))) :
    n < z.resolve c ↔ z.label n < c := by
  have hunits := units
  have hjump := z.jump t
  have hbounds := hskip.resolve_bounds
  have htarget := hskip.2
  rw [(hskip.gap.resolve_behind hlo (by omega)).1]
  rcases lt_or_ge n t with hbefore | hbehind
  · have := label_lt_of_lt_gap hskip.gap hbefore
    omega
  · rw [label, off_after hskip.gap.transition hbehind (by omega)]
    omega

/-- The first scheduled instant when the first pending match is skipped: that of its first rival,
or its own. -/
theorem first_of_rivals {t target : ℤ} {r : Option ℤ} (hskip : z.Skips t target)
    (htarget : IsLeast {c | tab.Matches c ∧ n < z.resolve c} target)
    (hr : First (tab.rivals z n t target) r) :
    IsLeast {u | u ∈ tab.fires z ∧ n < u} ((r.map z.resolve).getD (z.resolve target)) := by
  have hlow := hskip.2
  obtain ⟨⟨hmatch, hn⟩, hmin⟩ := htarget
  -- a match that is no rival is not read before the target
  have hfar : ∀ c, tab.Matches c → n < z.resolve c → c ∉ tab.rivals z n t target →
      z.resolve target ≤ z.resolve c := by
    intro c hc hnc hnot
    refine hskip.resolve_le_resolve (hmin ⟨hc, hnc⟩) fun hlo => ?_
    by_contra hhi
    exact hnot ⟨hc, hlo, not_le.mp hhi, (lt_resolve_iff hskip hn hlo (not_le.mp hhi)).mp hnc⟩
  -- and a rival is read at its label less the offset behind the gap
  have hnear : ∀ c ∈ tab.rivals z n t target, z.resolve c = c - z.off t := fun c hc =>
    (hskip.gap.resolve_behind hc.2.1 (by have := hc.2.2.1; omega)).1
  cases r with
  | none =>
    refine ⟨⟨⟨target, hmatch, rfl⟩, hn⟩, ?_⟩
    rintro _ ⟨⟨c, hc, rfl⟩, hnc⟩
    exact hfar c hc hnc (none_iff.mp hr c)
  | some rival =>
    obtain ⟨hrival, hfirst⟩ := hr
    have hat := hnear rival hrival
    refine ⟨⟨⟨rival, hrival.1, rfl⟩, ?_⟩, ?_⟩
    · exact (lt_resolve_iff hskip hn hrival.2.1 hrival.2.2.1).mpr hrival.2.2.2
    · rintro _ ⟨⟨c, hc, rfl⟩, hnc⟩
      show z.resolve rival ≤ z.resolve c
      by_cases hmem : c ∈ tab.rivals z n t target
      · rw [hnear c hmem]
        have := hfirst hmem
        omega
      · have hle := hfar c hc hnc hmem
        have hup := hrival.2.2.1
        rw [hskip.resolve_eq] at hle
        omega

/-- `_next_instant` with whole jumps: the search returns, with the least scheduled instant after
`now`, or nothing when there is none. -/
theorem first_nextInstant (hz : z.WholeJumps) (now : Aware) :
    ∃ r, tab.nextInstant z now (z.instant now) = some r ∧
      First {u | u ∈ tab.fires z ∧ z.instant now < u} r := by
  have hpending := tab.first_nextPending (Settled.of_seed (z := z) now tab.Matches)
  set n := z.instant now with hn
  unfold nextInstant
  cases htarget : tab.nextPending z n (gapRewoundSeed z now n) with
  | none =>
    rw [htarget] at hpending
    refine ⟨none, rfl, none_iff.mpr ?_⟩
    rintro _ ⟨⟨c, hc, rfl⟩, hnc⟩
    exact none_iff.mp hpending c ⟨hc, hnc⟩
  | some target =>
    rw [htarget] at hpending
    simp only
    split
    next hshown =>
      -- a match that is shown is read before every later one
      refine ⟨_, rfl, ⟨⟨target, hpending.1.1, rfl⟩, hpending.1.2⟩, ?_⟩
      rintro _ ⟨⟨c, hc, rfl⟩, hnc⟩
      exact resolve_mono hshown (hpending.2 ⟨hc, hnc⟩)
    next hskipped =>
      obtain ⟨t, hskip⟩ := exists_skips hskipped
      have hcivil := hskip.label_resolve
      have hlow := hskip.2
      have hanswer := fun r => tab.first_of_rivals (r := r) hskip hpending
      have hrival := tab.first_nextCivil (max target (z.label n))
      cases hnext : tab.nextCivil (max target (z.label n)) with
      | none =>
        rw [hnext] at hrival
        refine ⟨_, rfl, hanswer none (none_iff.mpr fun c hc => ?_)⟩
        refine none_iff.mp hrival c ⟨hc.1, max_lt ?_ hc.2.2.2⟩
        have := hc.2.1
        omega
      | some rival =>
        rw [hnext] at hrival
        have hafter : ∀ c ∈ tab.rivals z n t target, rival ≤ c := fun c hc =>
          hrival.2 ⟨hc.1, max_lt (by have := hc.2.1; omega) hc.2.2.2⟩
        obtain ⟨htr, hsr⟩ := max_lt_iff.mp hrival.1.2
        simp only
        split
        next hbeyond =>
          refine ⟨_, rfl, hanswer none (none_iff.mpr fun c hc => ?_)⟩
          have := hafter c hc
          have := hc.2.2.1
          omega
        next hahead =>
          have hup : rival < target + (z.off t - z.off (t - 1)) := by omega
          split
          next hvalid =>
            have hbehind := (label_resolve_iff hskip htr.le hup).mp hvalid
            exact ⟨_, rfl, hanswer (some rival) ⟨⟨hrival.1.1, hbehind, hup, hsr⟩, hafter⟩⟩
          next hinvalid =>
            have hwhole : target / second * second = target :=
              Int.ediv_mul_cancel hpending.1.1.1
            -- two whole seconds are skipped, so the jump is longer than a second
            have hjump : z.off (t - 1) + second < z.off t := by
              obtain ⟨k, hk⟩ := hpending.1.1.1
              obtain ⟨k', hk'⟩ := hrival.1.1.1
              simp only [units] at *
              omega
            obtain ⟨high, hhigh, hdvd, hedge, hlast⟩ :=
              gapEdge_eq hskip (target / second) (z.label (z.resolve target))
                hwhole.ge (by omega) (by have := hskip.1; omega) hcivil.le
                (by rw [hcivil]; exact Int.dvd_add hpending.1.1.1 (hz t hjump))
            rw [hhigh]
            simp only [Option.map_some]
            have hsecond := tab.first_nextCivil (max (high - second) (z.label n))
            -- whole seconds after the one before the edge are behind the gap
            have hmem : ∀ c, tab.Matches c → (t + z.off t ≤ c ↔ high - second < c) := by
              intro c hc
              obtain ⟨⟨k, rfl⟩, -⟩ := hc
              simp only [units] at *
              omega
            cases hnext' : tab.nextCivil (max (high - second) (z.label n)) with
            | none =>
              rw [hnext'] at hsecond
              refine ⟨_, rfl, hanswer none (none_iff.mpr fun c hc => ?_)⟩
              exact none_iff.mp hsecond c
                ⟨hc.1, max_lt ((hmem c hc.1).mp hc.2.1) hc.2.2.2⟩
            | some rival' =>
              rw [hnext'] at hsecond
              have hafter' : ∀ c ∈ tab.rivals z n t target, rival' ≤ c := fun c hc =>
                hsecond.2 ⟨hc.1, max_lt ((hmem c hc.1).mp hc.2.1) hc.2.2.2⟩
              obtain ⟨hbehind, hsr'⟩ := max_lt_iff.mp hsecond.1.2
              simp only
              refine ⟨_, rfl, ?_⟩
              split
              next hup' =>
                refine hanswer (some rival') ⟨⟨hsecond.1.1, ?_, by omega, hsr'⟩, hafter'⟩
                exact (hmem rival' hsecond.1.1).mpr hbehind
              next hbeyond =>
                refine hanswer none (none_iff.mpr fun c hc => ?_)
                have := hafter' c hc
                have := hc.2.2.1
                omega

end CronTab

end Cronstable.CronExpr
