import Cronstable.Lib.Calendar

/-!
# Time zones as step functions

A zone gives every instant of the UTC line its offset. The offset changes at transitions, which
are more than 52 hours apart and jump by at most 24 hours, and it stays below a day in absolute
value. The wall clock shows at an instant the label `label u = u + off u`.

Labels are read back with a fold, as PEP 495 has it. A label shown once is read as its instant; a
label shown twice as the first of the two (fold 0) or the second (fold 1); a label that was skipped
with the offset from before the gap (fold 0) or from after it (fold 1).

## Main results

* `resolve_cases`, `resolveLate_cases`: the two readings of a label;
* `resolve_mono`: the first reading of a shown label is before that of every later label;
* `instant_astimezone`: an instant survives its trip through the wall clock.
-/

open Calendar (second hour day units)

/-- A UTC-to-offset step function. -/
structure Zone where
  /-- The offset at an instant, in microseconds. -/
  off : ℤ → ℤ
  bound : ∀ u, -day < off u ∧ off u < day
  spaced : ∀ t t', off (t - 1) ≠ off t → off (t' - 1) ≠ off t' → t < t' → 52 * hour < t' - t
  jump : ∀ t, off t - off (t - 1) ≤ day ∧ off (t - 1) - off t ≤ day

namespace Zone

variable (z : Zone)

/-- Every jump ahead of more than a second is a whole number of seconds, as in zone data that counts
offsets in seconds. Jumps back and shorter ones are free. -/
def WholeJumps : Prop := ∀ t, z.off (t - 1) + second < z.off t → second ∣ z.off t - z.off (t - 1)

/-- What the wall clock shows. -/
def label (u : ℤ) : ℤ := u + z.off u

/-- The offset changes at `t`. -/
def Transition (t : ℤ) : Prop := z.off (t - 1) ≠ z.off t

/-- The wall clock springs forward at `t`. -/
def Gap (t : ℤ) : Prop := z.off (t - 1) < z.off t

/-- The label `c` is skipped at `t`. -/
def Skips (t c : ℤ) : Prop := t + z.off (t - 1) ≤ c ∧ c < t + z.off t

/-- Read a label with the offset at `probe`, and if that is not in force there, with the one that
is. -/
def readFrom (c probe : ℤ) : ℤ :=
  let u := c - z.off probe
  if z.label u = c then u
  else if z.label (c - z.off u) = c then c - z.off u
  else u

/-- The instant of a label with fold 0. -/
def resolve (c : ℤ) : ℤ := z.readFrom c (c - day)

/-- The instant of a label with fold 1. -/
def resolveLate (c : ℤ) : ℤ := z.readFrom c (c + day)

variable {z}

/-! ## Around a transition -/

variable {t : ℤ}

lemma Gap.transition (h : z.Gap t) : z.Transition t := ne_of_lt h

variable {c : ℤ}

lemma Skips.gap (h : z.Skips t c) : z.Gap t := by
  obtain ⟨hlo, hhi⟩ := h
  unfold Gap
  omega

variable {u : ℤ}

/-- Without a transition the offset stays. -/
theorem off_eq_of_no_transition {v : ℤ} (huv : u ≤ v) (h : ∀ t, u < t → t ≤ v → ¬ z.Transition t) :
    z.off v = z.off u := by
  induction v, huv using Int.leInduction with
  | base => rfl
  | succ v hv ih =>
    have hlast := h (v + 1) (by omega) le_rfl
    simp only [Transition, add_sub_cancel_right, not_not] at hlast
    rw [← hlast]
    exact ih fun t ht htv => h t ht (by omega)

/-- Transitions that are close are the same. -/
theorem Transition.eq_of_close {t' : ℤ} (h : z.Transition t) (h' : z.Transition t')
    (hclose : t' - t ≤ 52 * hour) (hclose' : t - t' ≤ 52 * hour) : t = t' := by
  rcases lt_trichotomy t t' with hlt | heq | hgt
  · have := z.spaced t t' h h' hlt
    omega
  · exact heq
  · have := z.spaced t' t h' h hgt
    omega

lemma off_before {w : ℤ} (h : z.Transition t) (hw : t - 52 * hour ≤ w) (hlt : w < t) :
    z.off w = z.off (t - 1) := by
  refine (off_eq_of_no_transition (by omega) fun t' ht' hle hother => ?_).symm
  have := z.spaced t' t hother h (by omega)
  omega

lemma off_after {w : ℤ} (h : z.Transition t) (hle : t ≤ w) (hw : w ≤ t + 52 * hour) :
    z.off w = z.off t := by
  refine off_eq_of_no_transition hle fun t' ht' hle' hother => ?_
  have := z.spaced t t' h hother ht'
  omega

/-- A stretch of at most 52 hours holds at most one transition. -/
theorem steady_or_transition (z : Zone) (u v : ℤ) :
    (∀ w, u ≤ w → w ≤ v → z.off w = z.off u) ∨ ∃ t, z.Transition t ∧ u < t ∧ t ≤ v := by
  by_cases h : ∃ t, z.Transition t ∧ u < t ∧ t ≤ v
  · exact .inr h
  · push Not at h
    refine .inl fun w huw hwv => off_eq_of_no_transition huw fun t hut htw ht => ?_
    have := h t ht hut
    omega

/-- Labels shown before a spring-forward are below the gap. -/
theorem label_lt_of_lt_gap (h : z.Gap t) (hlt : u < t) : z.label u < t + z.off (t - 1) := by
  have hunits := units
  unfold label
  by_cases hnear : t - 52 * hour ≤ u
  · rw [off_before h.transition hnear hlt]
    omega
  · have := z.bound u
    have := z.bound (t - 1)
    omega

/-- Labels shown after a spring-forward are above the gap. -/
theorem le_label_of_gap_le (h : z.Gap t) (hle : t ≤ u) : t + z.off t ≤ z.label u := by
  have hunits := units
  unfold label
  by_cases hnear : u ≤ t + 52 * hour
  · rw [off_after h.transition hle hnear]
    omega
  · have := z.bound u
    have := z.bound t
    omega

/-- A skipped label is never shown. -/
theorem Skips.label_ne (h : z.Skips t c) (u : ℤ) : z.label u ≠ c := by
  have hgap := h.gap
  obtain ⟨hlo, hhi⟩ := h
  rcases lt_or_ge u t with hlt | hge
  · have := label_lt_of_lt_gap hgap hlt
    omega
  · have := le_label_of_gap_le hgap hge
    omega

/-- A label is skipped at one transition only. -/
theorem Skips.unique {t' : ℤ} (h : z.Skips t c) (h' : z.Skips t' c) : t = t' := by
  have hunits := units
  have hb := z.bound t
  have hb' := z.bound t'
  have ha := z.bound (t - 1)
  have ha' := z.bound (t' - 1)
  have hgap := h.gap.transition
  have hgap' := h'.gap.transition
  obtain ⟨hlo, hhi⟩ := h
  obtain ⟨hlo', hhi'⟩ := h'
  exact hgap.eq_of_close hgap' (by omega) (by omega)

/-! ## Reading a label -/

/-- All that can show a label or be its reading lies within a day of it. -/
private lemma near_label (h : z.label u = c) : c - day < u ∧ u < c + day := by
  have := z.bound u
  unfold label at h
  omega

/-- The readings of a label, by where its reading with the offset of the probe falls. -/
private lemma readFrom_eq {probe : ℤ} (hu : u = c - z.off probe) :
    z.readFrom c probe = if z.label u = c then u
      else if z.label (c - z.off u) = c then c - z.off u else u := by
  rw [hu, readFrom]

/-- Fold 0 reads a label as the first instant that shows it, and a skipped one with the offset from
before the gap. -/
theorem resolve_cases (z : Zone) (c : ℤ) :
    (z.label (z.resolve c) = c ∧ ∀ u, z.label u = c → z.resolve c ≤ u) ∨
      ∃ t, z.Skips t c ∧ z.resolve c = c - z.off (t - 1) := by
  have hunits := units
  have hprobe := z.bound (c - day)
  rcases steady_or_transition z (c - day) (c + day) with hsteady | ⟨t, ht, hlo, hhi⟩
  · left
    have hoff : z.off (c - z.off (c - day)) = z.off (c - day) := hsteady _ (by omega) (by omega)
    have hshown : z.label (c - z.off (c - day)) = c := by
      rw [label]
      omega
    have heq : z.resolve c = c - z.off (c - day) := by
      rw [resolve, readFrom_eq rfl, if_pos hshown]
    rw [heq]
    refine ⟨hshown, fun u hu => ?_⟩
    have hnear := near_label hu
    rw [label, hsteady u (by omega) (by omega)] at hu
    omega
  · have hbefore : ∀ w, c - day ≤ w → w < t → z.off w = z.off (t - 1) := fun w _ hw =>
      off_before ht (by omega) hw
    have hafter : ∀ w, t ≤ w → w ≤ c + day → z.off w = z.off t := fun w hw _ =>
      off_after ht hw (by omega)
    have ha := z.bound (t - 1)
    have hb := z.bound t
    rw [resolve, readFrom_eq (u := c - z.off (t - 1)) (by rw [hbefore _ le_rfl hlo])]
    rcases lt_or_ge (c - z.off (t - 1)) t with hfirst | hlate
    · -- the offset from before the transition is in force
      have hshown : z.label (c - z.off (t - 1)) = c := by
        rw [label, hbefore _ (by omega) hfirst]
        omega
      rw [if_pos hshown]
      refine .inl ⟨hshown, fun u hu => ?_⟩
      have hnear := near_label hu
      rcases lt_or_ge u t with hut | hut
      · rw [label, hbefore u (by omega) hut] at hu
        omega
      · omega
    · have hne : z.label (c - z.off (t - 1)) ≠ c := by
        rw [label, hafter _ hlate (by omega)]
        have : z.off (t - 1) ≠ z.off t := ht
        omega
      rw [if_neg hne, hafter _ hlate (by omega)]
      rcases lt_or_ge (c - z.off t) t with hskip | hshow
      · -- neither offset is in force: the label is skipped
        have hne' : z.label (c - z.off t) ≠ c := by
          rw [label, hbefore _ (by omega) hskip]
          omega
        rw [if_neg hne']
        exact .inr ⟨t, ⟨by omega, by omega⟩, rfl⟩
      · have hshown : z.label (c - z.off t) = c := by
          rw [label, hafter _ hshow (by omega)]
          omega
        rw [if_pos hshown]
        refine .inl ⟨hshown, fun u hu => ?_⟩
        have hnear := near_label hu
        rcases lt_or_ge u t with hut | hut
        · rw [label, hbefore u (by omega) hut] at hu
          omega
        · rw [label, hafter u hut (by omega)] at hu
          omega

/-- The zone with the time line turned around. -/
private def mirror (z : Zone) : Zone where
  off u := -z.off (-u)
  bound u := by
    have := z.bound (-u)
    omega
  spaced t t' h h' hlt := by
    have hturn : ∀ w, -z.off (-(w - 1)) ≠ -z.off (-w) → z.off (1 - w - 1) ≠ z.off (1 - w) := by
      intro w hw heq
      rw [show -(w - 1) = 1 - w by omega, show -w = 1 - w - 1 by omega, heq] at hw
      exact hw rfl
    have := z.spaced (1 - t') (1 - t) (hturn t' h') (hturn t h) (by omega)
    omega
  jump t := by
    have := z.jump (1 - t)
    rw [show 1 - t - 1 = -t by omega, show 1 - t = -(t - 1) by omega] at this
    omega

private lemma off_mirror (u : ℤ) : z.mirror.off (-u) = -z.off u := by simp [mirror]

private lemma label_mirror : z.mirror.label (-u) = -c ↔ z.label u = c := by
  rw [label, off_mirror, label]
  omega

/-- Turned around, fold 1 is fold 0. -/
private lemma resolve_mirror : z.mirror.resolve (-c) = -z.resolveLate c := by
  have hsub : ∀ w, -c - z.mirror.off (-w) = -(c - z.off w) := by
    intro w
    rw [off_mirror]
    omega
  rw [resolve, resolveLate, show -c - day = -(c + day) by omega]
  simp only [readFrom, hsub, label_mirror]
  split_ifs <;> rfl

/-- Fold 1 reads a label as the last instant that shows it, and a skipped one with the offset from
after the gap. -/
theorem resolveLate_cases (z : Zone) (c : ℤ) :
    (z.label (z.resolveLate c) = c ∧ ∀ u, z.label u = c → u ≤ z.resolveLate c) ∨
      ∃ t, z.Skips t c ∧ z.resolveLate c = c - z.off t := by
  rcases z.mirror.resolve_cases (-c) with ⟨hshown, hleast⟩ | ⟨t, ⟨hlo, hhi⟩, heq⟩
  · rw [resolve_mirror, label_mirror] at hshown
    refine .inl ⟨hshown, fun u hu => ?_⟩
    have := hleast (-u) (label_mirror.mpr hu)
    rw [resolve_mirror] at this
    omega
  · -- what is skipped at `t` when turned around is skipped at `1 - t`
    rw [show t - 1 = -(1 - t) by omega, off_mirror] at hlo heq
    have hoff : z.mirror.off t = -z.off (1 - t - 1) := by
      rw [← off_mirror]
      congr 1
      omega
    rw [resolve_mirror] at heq
    exact .inr ⟨1 - t, ⟨by omega, by omega⟩, by omega⟩

/-- The first reading of a shown label. -/
theorem resolve_le (h : z.label u = c) : z.resolve c ≤ u := by
  rcases z.resolve_cases c with ⟨-, hleast⟩ | ⟨t, hskip, -⟩
  · exact hleast u h
  · exact absurd h (hskip.label_ne u)

/-- A shown label is shown at its first reading. -/
theorem label_resolve (h : z.label u = c) : z.label (z.resolve c) = c := by
  rcases z.resolve_cases c with ⟨hshown, -⟩ | ⟨t, hskip, -⟩
  · exact hshown
  · exact absurd h (hskip.label_ne u)

/-- A skipped label is read with the offset from before the gap. -/
theorem Skips.resolve_eq (h : z.Skips t c) : z.resolve c = c - z.off (t - 1) := by
  rcases z.resolve_cases c with ⟨hshown, -⟩ | ⟨t', hskip, heq⟩
  · exact absurd hshown (h.label_ne _)
  · rw [heq, h.unique hskip]

/-- The reading of a skipped label falls behind the gap, within the length of the jump. -/
theorem Skips.resolve_bounds (h : z.Skips t c) :
    t ≤ z.resolve c ∧ z.resolve c < t + (z.off t - z.off (t - 1)) := by
  rw [h.resolve_eq]
  obtain ⟨hlo, hhi⟩ := h
  omega

/-- At the reading of a skipped label the clock shows the label shifted by the jump. -/
theorem Skips.label_resolve (h : z.Skips t c) :
    z.label (z.resolve c) = c + (z.off t - z.off (t - 1)) := by
  have hunits := units
  obtain ⟨hlo, hhi⟩ := h.resolve_bounds
  have := z.jump t
  rw [label, off_after h.gap.transition hlo (by omega), h.resolve_eq]
  omega

/-- A label that is not shown at its reading is skipped. -/
theorem exists_skips (h : z.label (z.resolve c) ≠ c) : ∃ t, z.Skips t c := by
  rcases z.resolve_cases c with ⟨hshown, -⟩ | ⟨t, hskip, -⟩
  · exact absurd hshown h
  · exact ⟨t, hskip⟩

/-- The clock never shows less than the label it was read from. -/
theorem le_label_resolve (z : Zone) (c : ℤ) : c ≤ z.label (z.resolve c) := by
  rcases z.resolve_cases c with ⟨hshown, -⟩ | ⟨t, hskip, -⟩
  · exact hshown.ge
  · have : z.off (t - 1) < z.off t := hskip.gap
    rw [hskip.label_resolve]
    omega

/-- A reading is within a day of its label. -/
theorem resolve_lt (z : Zone) (c : ℤ) : z.resolve c < c + day := by
  rcases z.resolve_cases c with ⟨hshown, -⟩ | ⟨t, -, heq⟩
  · have := near_label hshown
    omega
  · have := z.bound (t - 1)
    omega

/-- The first reading of a shown label comes before the reading of every later label. -/
theorem resolve_mono {c' : ℤ} (h : z.label (z.resolve c) = c) (hle : c ≤ c') :
    z.resolve c ≤ z.resolve c' := by
  have hunits := units
  by_contra hlt
  have hearly : z.resolve c' < z.resolve c := not_le.mp hlt
  -- at the reading of `c'` the clock is already past `c`
  have hpast : c < z.label (z.resolve c') := by
    refine lt_of_le_of_ne (hle.trans (z.le_label_resolve c')) fun heq => ?_
    exact hlt (resolve_le heq.symm)
  have hb := z.bound (z.resolve c)
  have hb' := z.bound (z.resolve c')
  have hc : z.resolve c + z.off (z.resolve c) = c := h
  have hc' : c < z.resolve c' + z.off (z.resolve c') := hpast
  -- so it was set back in between, and had shown `c` before
  rcases steady_or_transition z (z.resolve c') (z.resolve c) with
    hsteady | ⟨t, ht, hlo, hhi⟩
  · rw [hsteady _ hearly.le le_rfl] at hc
    omega
  · have hbefore : z.off (z.resolve c') = z.off (t - 1) := off_before ht (by omega) hlo
    have hafter : z.off (z.resolve c) = z.off t := off_after ht hhi (by omega)
    have hoff : z.off (c - z.off (t - 1)) = z.off (t - 1) := off_before ht (by omega) (by omega)
    have hshown : z.label (c - z.off (t - 1)) = c := by
      rw [label]
      omega
    have := resolve_le hshown
    omega

/-! ## Behind a gap -/

/-- The labels shown right behind a gap, as far as skipped ones are read there. -/
theorem Gap.resolve_behind (h : z.Gap t) (hlo : t + z.off t ≤ c)
    (hhi : c < t + z.off t + (z.off t - z.off (t - 1))) :
    z.resolve c = c - z.off t ∧ z.label (z.resolve c) = c := by
  have hunits := units
  have hjump := z.jump t
  have hoff : z.off (c - z.off t) = z.off t := off_after h.transition (by omega) (by omega)
  have hat : z.label (c - z.off t) = c := by
    rw [label]
    omega
  have hle := resolve_le hat
  have hshown := label_resolve hat
  have hbehind : t ≤ z.resolve c := by
    by_contra hlt
    have := label_lt_of_lt_gap h (not_le.mp hlt)
    omega
  refine ⟨?_, hshown⟩
  rw [label, off_after h.transition hbehind (by omega)] at hshown
  omega

/-- A label that is neither below a skipped one nor shown ahead of its reading is not read before
it. -/
theorem Skips.resolve_le_resolve {c' : ℤ} (h : z.Skips t c) (hle : c ≤ c')
    (hfar : t + z.off t ≤ c' → c + (z.off t - z.off (t - 1)) ≤ c') :
    z.resolve c ≤ z.resolve c' := by
  have hunits := units
  have hbounds := h.resolve_bounds
  have hjump := z.jump t
  have hgap := h.gap
  by_contra hlt
  have hearly : z.resolve c' < z.resolve c := not_le.mp hlt
  rcases z.resolve_cases c' with ⟨hshown, -⟩ | ⟨t', hskip, heq⟩
  · have hbehind : t ≤ z.resolve c' := by
      by_contra hbefore
      have := label_lt_of_lt_gap hgap (not_le.mp hbefore)
      have := h.1
      omega
    have hpast := le_label_of_gap_le hgap hbehind
    have hlabel := h.label_resolve
    have hoff : z.off (z.resolve c) = z.off t := off_after hgap.transition hbounds.1 (by omega)
    rw [label] at hlabel
    rw [hshown] at hpast
    rw [label, off_after hgap.transition hbehind (by omega)] at hshown
    omega
  · have hbounds' := hskip.resolve_bounds
    have hb' := z.bound t'
    have ha := z.bound (t - 1)
    have hlow := h.1
    have heq' := hskip.gap.transition.eq_of_close hgap.transition (by omega) (by omega)
    subst heq'
    rw [h.resolve_eq] at hearly
    omega

end Zone

/-! ## Aware date-times -/

/-- A date-time with a zone: the label and the fold it is read with. -/
structure Aware where
  civil : ℤ
  fold : Bool
  deriving DecidableEq, Repr

namespace Zone

variable (z : Zone)

/-- The instant of an aware date-time. -/
def instant (a : Aware) : ℤ := if a.fold then z.resolveLate a.civil else z.resolve a.civil

/-- The offset of an aware date-time. -/
def utcoffset (a : Aware) : ℤ := a.civil - z.instant a

/-- The aware date-time of an instant: the label shown, with fold 1 when it was shown before. -/
def astimezone (u : ℤ) : Aware := { civil := z.label u, fold := decide (z.resolve (z.label u) ≠ u) }

@[simp]
lemma astimezone_civil (u : ℤ) : (z.astimezone u).civil = z.label u := rfl

/-- An instant survives its trip through the wall clock. -/
@[simp]
theorem instant_astimezone (u : ℤ) : z.instant (z.astimezone u) = u := by
  have hunits := units
  unfold instant astimezone
  by_cases hfirst : z.resolve (z.label u) = u
  · simp [hfirst]
  · simp only [ne_eq, hfirst, not_false_eq_true, decide_true, if_true]
    -- the label was shown before, so one transition set the clock back and `u` shows it last
    have hearly : z.resolve (z.label u) < u := lt_of_le_of_ne (resolve_le rfl) hfirst
    have hshown : z.label (z.resolve (z.label u)) = z.label u := label_resolve rfl
    rcases z.resolveLate_cases (z.label u) with ⟨hlast, hgreatest⟩ | ⟨t, hskip, -⟩
    · refine (hgreatest u rfl).antisymm' ?_
      by_contra hlt
      have hlate : u < z.resolveLate (z.label u) := not_le.mp hlt
      -- one transition before `u` and another after it would be too close
      set r := z.resolve (z.label u)
      set s := z.resolveLate (z.label u)
      have hr : r + z.off r = u + z.off u := hshown
      have hs : s + z.off s = u + z.off u := hlast
      have hbr := z.bound r
      have hbs := z.bound s
      rcases steady_or_transition z r u with hsteady | ⟨t, ht, hlo, hhi⟩
      · rw [hsteady u hearly.le le_rfl] at hr
        omega
      · rcases steady_or_transition z u s with hsteady | ⟨t', ht', hlo', hhi'⟩
        · rw [hsteady s hlate.le le_rfl] at hs
          omega
        · have hspaced := z.spaced t t' ht ht' (by omega)
          omega
    · exact absurd rfl (hskip.label_ne u)

@[simp]
lemma utcoffset_astimezone (u : ℤ) : z.utcoffset (z.astimezone u) = z.off u := by
  rw [utcoffset, instant_astimezone, astimezone_civil, label]
  omega

/-- The zone of one offset. -/
def fixed (offset : ℤ) (h : -day < offset ∧ offset < day) : Zone where
  off _ := offset
  bound _ := h
  spaced _ _ hne := absurd rfl hne
  jump _ := by
    have := units
    omega

section Fixed

variable {offset : ℤ} {h : -day < offset ∧ offset < day}

@[simp]
lemma label_fixed (u : ℤ) : (fixed offset h).label u = u + offset := rfl

/-- With one offset every label is shown once. -/
@[simp]
theorem resolve_fixed (c : ℤ) : (fixed offset h).resolve c = c - offset := by
  have hshown : (fixed offset h).label (c - offset) = c := by simp
  exact if_pos hshown

@[simp]
lemma resolveLate_fixed (c : ℤ) : (fixed offset h).resolveLate c = c - offset := by
  have hshown : (fixed offset h).label (c - offset) = c := by simp
  exact if_pos hshown

@[simp]
lemma instant_fixed (a : Aware) : (fixed offset h).instant a = a.civil - offset := by
  simp [instant]

/-- An offset that never changes has no jumps. -/
lemma wholeJumps_fixed : (fixed offset h).WholeJumps := fun t _ => by
  show second ∣ offset - offset
  rw [Int.sub_self]
  exact Int.dvd_zero second

end Fixed

end Zone
