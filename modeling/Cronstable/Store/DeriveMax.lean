import Cronstable.Lib.Log
import Cronstable.Store.Records

/-!
# What `derive_max` returns

The memo of `derive_max` is sound as long as every record appears under a name above the names that
are remembered as folded, and a listing shows all the records up to the newest one that it shows.
Names are floor-clamped by each process on its own, a record appears only after it was named, and a
listing that overlaps two appends may show the second one alone: `derive_max_missed` are three runs
in which a call passes over a record. `derive_max_covers` is what holds when the records appear in
order (`Stream.InOrder`).
-/

namespace Cronstable.Store

open List Option Dict

variable {α : Type*}

/-! ## Folded records -/

/-- The two directories agree up to `bound`, where the second one may hold fewer records. -/
def KeptUpTo (bound : Stem) (dir dir' : Dict Stem (Dict String α)) : Prop :=
  ∀ name data, name ≤ bound → dir'.get? name = some data → dir.get? name = some data

variable {bound : Stem}

variable {s s' : Stream α} {call : Call α} {c : ℕ}

/-- A call that fails changes no other call. -/
theorem Stream.calls_fail (h : s.fail c call = some s') :
    ∃ call', s'.calls = s.calls.set c call' := by
  unfold Stream.fail at h
  split at h <;> cases h <;> exact ⟨_, rfl⟩

/-- The name up to which a call will remember that everything was folded. -/
def Call.mark : Call α → Option Stem
  | .recalling _ _ _ newest => some newest
  | .folding _ _ newest _ _ _ => some newest
  | _ => none

/-- The names that are remembered as folded, or will be by a call under way. -/
def Stream.marks (s : Stream α) : List Stem :=
  (s.procs.values.flatMap fun p => p.memo.values.map Prod.fst) ++ s.calls.filterMap Call.mark

/-- What a process remembers as folded is a mark. -/
lemma Stream.mem_marks_of_memo {token field : String} {mark : Stem} {best : Option α}
    (h : (s.proc token).memo.get? field = some (mark, best)) : mark ∈ s.marks := by
  unfold proc at h
  cases hproc : s.procs.get? token with
  | none =>
    rw [hproc] at h
    cases h
  | some p =>
    rw [hproc, getD_some] at h
    refine mem_append_left _ (mem_flatMap.mpr ⟨p, mem_values_iff.mpr ⟨token, hproc⟩, ?_⟩)
    exact mem_map.mpr ⟨(mark, best), mem_values_iff.mpr ⟨field, h⟩, rfl⟩

/-- What a call will remember as folded is a mark. -/
lemma Stream.mem_marks_of_call {mark : Stem} (h : call ∈ s.calls) (hmark : mark ∈ call.mark) :
    mark ∈ s.marks :=
  mem_append_right _ (mem_filterMap.mpr ⟨call, h, hmark⟩)

variable [LinearOrder α]

/-- `best` bounds the field of every record up to `bound`, those of `todo` apart. -/
def Covers (dir : Dict Stem (Dict String α)) (field : String) (bound : Stem) (todo : List Stem)
    (best : Option α) : Prop :=
  ∀ name data, dir.get? name = some data → name ≤ bound → name ∉ todo →
    ∀ v ∈ data.get? field, ∃ b ∈ best, v ≤ b

variable {dir : Dict Stem (Dict String α)} {field : String} {best : Option α}

/-- What was bounded is bounded in a directory with fewer records. -/
lemma Covers.kept {dir' : Dict Stem (Dict String α)} {todo : List Stem}
    (h : Covers dir field bound todo best) (hkept : KeptUpTo bound dir dir') :
    Covers dir' field bound todo best :=
  fun name data hget hle => h name data (hkept name data hle hget) hle

/-- A step of the fold bounds what was bounded before and the value read. -/
theorem le_foldValue {value : Option α} :
    (∀ b ∈ best, ∃ b' ∈ foldValue best value, b ≤ b') ∧
      ∀ v ∈ value, ∃ b' ∈ foldValue best value, v ≤ b' := by
  cases value with
  | none => exact ⟨fun b hb => ⟨b, hb, le_rfl⟩, nofun⟩
  | some v =>
    cases best with
    | none => exact ⟨nofun, fun w hw => ⟨v, rfl, by cases hw; exact le_rfl⟩⟩
    | some b =>
      simp only [foldValue, mem_some_iff]
      split
      next hlt =>
        refine ⟨?_, ?_⟩
        · rintro _ rfl
          exact ⟨v, rfl, hlt.le⟩
        · rintro _ rfl
          exact ⟨v, rfl, le_rfl⟩
      next hnot =>
        refine ⟨?_, ?_⟩
        · rintro _ rfl
          exact ⟨b, rfl, le_rfl⟩
        · rintro _ rfl
          exact ⟨b, rfl, not_lt.mp hnot⟩

/-- Reading the next record: gone records need no bound. -/
theorem Covers.read {stem : Stem} {todo : List Stem}
    (h : Covers dir field bound (stem :: todo) best) :
    Covers dir field bound todo
      (foldValue best ((dir.get? stem).bind (·.get? field))) := by
  intro name data hget hle htodo v hv
  by_cases hname : name = stem
  · subst hname
    refine le_foldValue.2 v ?_
    rw [hget]
    exact hv
  · obtain ⟨b, hb, hvb⟩ := h name data hget hle (by simp [hname, htodo]) v hv
    obtain ⟨b', hb', hbb'⟩ := le_foldValue.1 b hb
    exact ⟨b', hb', hvb.trans hbb'⟩

/-- Where a call starts to read, everything else up to the newest name is bounded by what the
process remembers. -/
theorem covers_fromMemo {listing : List Stem} {newest : Stem} {cached : Option (Stem × Option α)}
    (hlisting : ∀ name data, dir.get? name = some data → name ≤ newest → name ∈ listing)
    (hcached : ∀ watermark best, cached = some (watermark, best) →
      Covers dir field watermark [] best) :
    Covers dir field newest (Stream.fromMemo listing newest cached).2
      (Stream.fromMemo listing newest cached).1 := by
  have hscratch : Covers dir field newest listing none := fun name data hget hle hnot =>
    absurd (hlisting name data hget hle) hnot
  unfold Stream.fromMemo
  split
  next => exact hscratch
  next watermark best =>
    have hold := hcached watermark best rfl
    split
    next heq => exact heq ▸ hold
    next =>
      split
      next hlt =>
        intro name data hget hle hnot
        -- a listed name that is not read again is at or below the watermark
        have hfolded : name ≤ watermark := by
          by_contra habove
          exact hnot (mem_filter.mpr
            ⟨hlisting name data hget hle, by simpa using habove⟩)
        exact hold name data hget hfolded (by simp)
      next => exact hscratch

/-! ## The invariant -/

namespace Call

/-- What a call knows about the directory. -/
def Sound (dir : Dict Stem (Dict String α)) : Call α → Prop
  | recalling _ _ names newest =>
    ∀ name data, dir.get? name = some data → name ≤ newest → name ∈ names
  | folding _ field newest best todo _ => Covers dir field newest todo best
  | _ => True

/-- A call knows as much about a directory that agrees up to its mark. -/
lemma Sound.kept {dir' : Dict Stem (Dict String α)} (h : call.Sound dir)
    (hkept : ∀ mark ∈ call.mark, KeptUpTo mark dir dir') : call.Sound dir' := by
  cases call with
  | recalling token field names newest =>
    exact fun name data hget hle => h name data (hkept newest rfl name data hle hget) hle
  | folding token field newest best todo wipes => exact Covers.kept h (hkept newest rfl)
  | _ => trivial

end Call

variable {returned : Option (Option α)}

namespace Stream

/-- A record appears under a name above every mark, and a listing that `derive_max` has made shows
all the records that are there up to the newest one it shows. -/
def InOrder (s : Stream α) : StreamEvent α → Prop
  | .advance c _ =>
    match s.calls[c]? with
    | some (.writing stem _) => ∀ mark ∈ s.marks, mark < stem
    | some (.listing (.deriveMax _ _) _ shown) =>
      ∀ name ∈ s.dir.keys, (∃ newest ∈ shown, name ≤ newest) → name ∈ shown
    | _ => True
  | _ => True

instance (s : Stream α) (event : StreamEvent α) : Decidable (s.InOrder event) := by
  unfold InOrder
  split
  · split <;> infer_instance
  · infer_instance

/-- Memos and calls agree with the directory. -/
structure Consistent (s : Stream α) : Prop where
  /-- A remembered value bounds the records up to the remembered name. -/
  memo : ∀ token field mark best, (s.proc token).memo.get? field = some (mark, best) →
    Covers s.dir field mark [] best
  /-- Every call knows what it should. -/
  calls : ∀ call ∈ s.calls, call.Sound s.dir

/-- A stream without records. -/
lemma consistent_init : (init : Stream α).Consistent := ⟨nofun, nofun⟩

section

variable (h : s.Consistent)

include h

/-- A step that keeps the directory up to the marks, and whose new memos and calls agree with
it. -/
theorem Consistent.next (hdir : ∀ mark ∈ s.marks, KeptUpTo mark s.dir s'.dir)
    (hmemo : ∀ token field mark best, (s'.proc token).memo.get? field = some (mark, best) →
      (s.proc token).memo.get? field = some (mark, best) ∨ Covers s'.dir field mark [] best)
    (hcalls : ∀ call ∈ s'.calls, call ∈ s.calls ∨ call.Sound s'.dir) : s'.Consistent := by
  constructor
  · intro token field mark best hget
    rcases hmemo token field mark best hget with hold | hnew
    · exact (h.memo token field mark best hold).kept (hdir mark (mem_marks_of_memo hold))
    · exact hnew
  · intro call hmem
    rcases hcalls call hmem with hold | hnew
    · exact (h.calls call hold).kept fun mark hmark => hdir mark (mem_marks_of_call hold hmark)
    · exact hnew

/-- A step of one call that leaves the directory and the memos alone. -/
theorem Consistent.setCall (c : ℕ) (hcall : call.Sound s.dir) : (s.setCall c call).Consistent := by
  refine h.next (fun _ _ _ _ _ hget => hget) (fun _ _ _ _ hget => .inl hget)
    fun call' hmem => ?_
  rcases mem_or_eq_of_mem_set hmem with hold | rfl
  · exact .inl hold
  · exact .inr hcall

/-- A call starts. -/
lemma Consistent.push (hcall : call.Sound s.dir) : (s.push call).Consistent := by
  refine h.next (fun _ _ _ _ _ hget => hget) (fun _ _ _ _ hget => .inl hget)
    fun call' hmem => ?_
  rcases mem_append.mp hmem with hold | hnew
  · exact .inl hold
  · exact .inr (mem_singleton.mp hnew ▸ hcall)

/-- A process comes to remember something else. -/
theorem Consistent.setProc (token : String) {p : Proc α}
    (hmemo : ∀ field mark best, p.memo.get? field = some (mark, best) →
      (s.proc token).memo.get? field = some (mark, best) ∨ Covers s.dir field mark [] best) :
    (s.setProc token p).Consistent := by
  refine h.next (fun _ _ _ _ _ hget => hget) ?_ fun call hmem => .inl hmem
  intro token' field mark best hget
  rw [proc_setProc] at hget
  split at hget
  next heq => exact heq ▸ hmemo field mark best hget
  next => exact .inl hget

/-- The directory changes above the marks only. -/
theorem Consistent.setDir (hdir : ∀ mark ∈ s.marks, KeptUpTo mark s.dir dir) :
    ({ s with dir } : Stream α).Consistent :=
  h.next hdir (fun _ _ _ _ hget => .inl hget) fun _ hmem => .inl hmem

/-- A listing ends, and `derive_max` has seen all the records up to the newest one. -/
theorem Consistent.listed {now : ℕ} {purpose : Listing α} {before shown : List Stem}
    (hcall : s.calls[c]? = some (.listing purpose before shown))
    (horder : s.InOrder (.advance c now)) : (s.setCall c (purpose.next shown)).Consistent := by
  refine h.setCall c ?_
  cases purpose with
  | floorScan | prune => trivial
  | deriveMax token field =>
    simp only [InOrder, hcall] at horder
    simp only [Listing.next]
    split
    case h_1 => trivial
    case h_2 newest hnewest =>
      intro name data hget hle
      exact horder name (mem_keys_iff.mpr ⟨data, hget⟩) ⟨newest, maximum_mem hnewest, hle⟩

/-- A call that goes on keeps memos and calls in agreement with the directory. -/
theorem Consistent.advance {now : ℕ} (hcall : s.calls[c]? = some call)
    (horder : s.InOrder (.advance c now)) (hstep : s.advance c now call = some (s', returned)) :
    s'.Consistent := by
  have hsound := h.calls call (mem_of_getElem? hcall)
  cases call with
  | listing purpose before shown =>
    obtain ⟨-, hstep⟩ := ite_none_right_eq_some.mp hstep
    cases hstep
    exact h.listed hcall horder
  | naming token data disk =>
    cases hstep
    refine (h.setProc token fun field mark best hget => .inl ?_).setCall c trivial
    have hmemo := Proc.nextRecordName_memo token now disk (s.proc token)
    exact (congrArg (·.get? field) hmemo).symm.trans hget
  | writing stem data =>
    cases hstep
    simp only [InOrder, hcall] at horder
    refine (h.setDir fun mark hmark => ?_).setCall c trivial
    intro name data' hle hget
    rwa [get?_set_of_ne _ _ (hle.trans_lt (horder mark hmark)).ne] at hget
  | raising token names keep =>
    cases hstep
    exact (h.setProc token (p := (s.proc token).raiseFloor names.maximum)
      fun field mark best hget => .inl hget).setCall c trivial
  | deleting token doomed wipe =>
    cases doomed with
    | nil =>
      cases hstep
      refine (h.setProc token fun field mark best hget => .inl ?_).setCall c trivial
      cases wipe
      · exact hget
      · cases hget
    | cons stem doomed =>
      cases hstep
      exact (h.setDir fun _ _ _ _ _ hget => (of_get?_erase hget).2).setCall c trivial
  | clearing token field =>
    cases hstep
    exact (h.setProc token fun field' mark best hget =>
      .inl (of_get?_erase hget).2).setCall c trivial
  | recalling token field listing newest =>
    cases hstep
    refine h.setCall c ?_
    have hcovers := covers_fromMemo hsound (h.memo token field)
    intro name data hget hle hnot
    exact hcovers name data hget hle fun hmem => hnot ((mem_insertionSort _).mpr hmem)
  | folding token field newest best todo wipes =>
    cases todo with
    | cons stem todo =>
      cases hstep
      exact h.setCall c (Covers.read hsound)
    | nil =>
      cases hstep
      refine (h.setProc token fun field' mark best' hget => ?_).setCall c trivial
      split at hget
      next =>
        rcases get?_set_cases hget with ⟨rfl, heq⟩ | ⟨-, hget⟩
        · cases heq
          exact .inr hsound
        · exact .inl hget
      next => exact .inl hget
  | ended => cases hstep

end

end Stream

/-! ## Runs -/

/-- A step in which records appear in order, labelled with its event and what it returns. -/
def OrderedStep (s : Stream α) (label : StreamEvent α × Option (Option α)) (s' : Stream α) :
    Prop :=
  s.step label.1 = some (s', label.2) ∧ s.InOrder label.1

/-- Every step in order keeps memos and calls in agreement with the directory. -/
lemma Stream.Consistent.step {label : StreamEvent α × Option (Option α)} (h : s.Consistent)
    (hstep : OrderedStep s label s') : s'.Consistent := by
  obtain ⟨event, returned⟩ := label
  obtain ⟨hstep, horder⟩ := hstep
  cases event with
  | append token data =>
    simp only [Stream.step] at hstep
    split at hstep <;> cases hstep <;> exact h.push trivial
  | prune | derive =>
    cases hstep
    exact h.push trivial
  | «show» c stem =>
    simp only [Stream.step] at hstep
    split at hstep
    · obtain ⟨-, hstep⟩ := ite_none_right_eq_some.mp hstep
      cases hstep
      exact h.setCall c trivial
    · cases hstep
  | advance c now =>
    obtain ⟨call, hcall, hadvance⟩ := bind_eq_some_iff.mp hstep
    exact h.advance hcall horder hadvance
  | fail c =>
    obtain ⟨s'', hfail, heq⟩ := map_eq_some_iff.mp hstep
    cases heq
    obtain ⟨call, -, hfail⟩ := bind_eq_some_iff.mp hfail
    unfold Stream.fail at hfail
    split at hfail <;> cases hfail <;> exact h.setCall c trivial
  | forget token | spend token =>
    cases hstep
    exact h.setProc token fun _ _ _ hget => .inl hget

/-- The call is a `derive_max` of the field whose listing shows or has shown the name, or one as
new, or is over. -/
def Stream.Tracks (c : ℕ) (field : String) (name : Stem) (s : Stream α) : Prop :=
  (∃ token before shown, s.calls[c]? = some (.listing (.deriveMax token field) before shown) ∧
      name ∈ before) ∨
    (∃ token listing newest, s.calls[c]? = some (.recalling token field listing newest) ∧
      name ≤ newest) ∨
    (∃ token newest best todo wipes,
      s.calls[c]? = some (.folding token field newest best todo wipes) ∧ name ≤ newest) ∨
    s.calls[c]? = some .ended

/-- A call that goes on changes no other call. -/
theorem Stream.calls_advance {now : ℕ} (h : s.advance c now call = some (s', returned)) :
    ∃ call', s'.calls = s.calls.set c call' := by
  unfold Stream.advance at h
  split at h
  case h_1 =>
    obtain ⟨-, h⟩ := ite_none_right_eq_some.mp h
    cases h
    exact ⟨_, rfl⟩
  all_goals cases h <;> exact ⟨_, rfl⟩

/-- What a step does to a call: nothing, unless it is a step of that call. -/
theorem Stream.call_step {event : StreamEvent α} (h : s.step event = some (s', returned))
    (hcall : s.calls[c]? = some call) :
    s'.calls[c]? = some call ∨
      (∃ now, event = .advance c now ∧ s.advance c now call = some (s', returned)) ∨
      (event = .fail c ∧ s.fail c call = some s') ∨
      ∃ purpose before shown stem, call = .listing purpose before shown ∧
        s'.calls[c]? = some (.listing purpose before (stem :: shown)) := by
  have hpush : ∀ new : Call α, (s.push new).calls[c]? = some call := fun new =>
    Log.append_some hcall [new]
  cases event with
  | append token data =>
    simp only [Stream.step] at h
    split at h <;> cases h <;> exact .inl (hpush _)
  | prune | derive =>
    cases h
    exact .inl (hpush _)
  | «show» c' stem =>
    simp only [Stream.step] at h
    split at h
    case h_1 purpose before shown hcall' =>
      obtain ⟨-, h⟩ := ite_none_right_eq_some.mp h
      cases h
      rcases Log.set_at hcall' hcall (.listing purpose before (stem :: shown)) with
        ⟨-, rfl, hset⟩ | hset
      · exact .inr (.inr (.inr ⟨purpose, before, shown, stem, rfl, hset⟩))
      · exact .inl hset
    case h_2 => cases h
  | advance c' now =>
    obtain ⟨call', hcall', hadvance⟩ := bind_eq_some_iff.mp h
    by_cases heq : c' = c
    · subst heq
      rw [hcall] at hcall'
      cases hcall'
      exact .inr (.inl ⟨now, rfl, hadvance⟩)
    · obtain ⟨_, hcalls⟩ := calls_advance hadvance
      exact .inl (hcalls ▸ Log.set_other heq hcall _)
  | fail c' =>
    obtain ⟨s'', hfail, heq⟩ := map_eq_some_iff.mp h
    cases heq
    obtain ⟨call', hcall', hfail⟩ := bind_eq_some_iff.mp hfail
    by_cases heq : c' = c
    · subst heq
      rw [hcall] at hcall'
      cases hcall'
      exact .inr (.inr (.inl ⟨rfl, hfail⟩))
    · obtain ⟨_, hcalls⟩ := calls_fail hfail
      exact .inl (hcalls ▸ Log.set_other heq hcall _)
  | forget token | spend token =>
    cases h
    exact .inl hcall

section

variable {event : StreamEvent α} {name : Stem} {token : String}

/-- A listing that began with a record in the directory shows it if it is there at the end. -/
theorem Stream.Tracks.step_listing {before shown : List Stem}
    (hcall : s.calls[c]? = some (.listing (.deriveMax token field) before shown))
    (hname : name ∈ before) (hthere : name ∈ s.dir.keys)
    (hstep : s.step event = some (s', returned)) : s'.Tracks c field name := by
  rcases call_step hstep hcall with hsame | ⟨now, -, hadvance⟩ | ⟨-, hfail⟩ |
    ⟨purpose, before', shown', stem, heq, hnext⟩
  · exact .inl ⟨token, before, shown, hsame, hname⟩
  · obtain ⟨hall, hadvance⟩ := ite_none_right_eq_some.mp hadvance
    cases hadvance
    -- what was there throughout was shown
    have hshown : name ∈ shown := hall name hname hthere
    cases hnewest : shown.maximum with
    | bot => exact absurd hshown (by simp [maximum_eq_bot.mp hnewest])
    | coe newest =>
      refine .inr (.inl ⟨token, shown, newest, ?_, le_maximum_of_mem hshown hnewest⟩)
      have hnext : (Listing.deriveMax token field).next shown =
          Call.recalling (α := α) token field shown newest := by
        simp [Listing.next, hnewest]
      exact hnext ▸ Log.set_self hcall _
  · cases hfail
    exact .inr (.inr (.inr (Log.set_self hcall _)))
  · cases heq
    exact .inl ⟨token, before, stem :: shown, hnext, hname⟩

/-- A call that reads the records keeps to the newest name it has listed. -/
theorem Stream.Tracks.step_folding {newest : Stem} {best : Option α} {todo : List Stem} {wipes : ℕ}
    (hcall : s.calls[c]? = some (.folding token field newest best todo wipes))
    (hle : name ≤ newest) (hstep : s.step event = some (s', returned)) :
    s'.Tracks c field name := by
  rcases call_step hstep hcall with hsame | ⟨now, -, hadvance⟩ | ⟨-, hfail⟩ | ⟨_, _, _, _, heq, -⟩
  · exact .inr (.inr (.inl ⟨token, newest, best, todo, wipes, hsame, hle⟩))
  · cases todo with
    | nil =>
      cases hadvance
      exact .inr (.inr (.inr (Log.set_self hcall _)))
    | cons stem todo =>
      cases hadvance
      exact .inr (.inr (.inl ⟨token, newest, _, todo, wipes, Log.set_self hcall _, hle⟩))
  · cases todo with
    | nil => cases hfail
    | cons stem todo =>
      cases hfail
      exact .inr (.inr (.inr (Log.set_self hcall _)))
  · cases heq

/-- A call of `derive_max` tracks a record as long as it is there. -/
theorem Stream.Tracks.step (h : s.Tracks c field name) (hthere : name ∈ s.dir.keys)
    (hstep : s.step event = some (s', returned)) : s'.Tracks c field name := by
  rcases h with ⟨token, before, shown, hcall, hname⟩ | ⟨token, listing, newest, hcall, hle⟩ |
    ⟨token, newest, best, todo, wipes, hcall, hle⟩ | hover
  · exact step_listing hcall hname hthere hstep
  · rcases call_step hstep hcall with hsame | ⟨now, -, hadvance⟩ | ⟨-, hfail⟩ | ⟨_, _, _, _, heq, -⟩
    · exact .inr (.inl ⟨token, listing, newest, hsame, hle⟩)
    · cases hadvance
      exact .inr (.inr (.inl ⟨token, newest, _, _, _, Log.set_self hcall _, hle⟩))
    · cases hfail
    · cases heq
  · exact step_folding hcall hle hstep
  · rcases call_step hstep hover with hsame | ⟨now, -, hadvance⟩ | ⟨-, hfail⟩ | ⟨_, _, _, _, heq, -⟩
    · exact .inr (.inr (.inr hsame))
    · cases hadvance
    · cases hfail
    · cases heq

end

/-- When the records appear in order, a call of `derive_max` that returns, returns a value at least
as large as the field of every record that is in the directory from its beginning to its end. -/
theorem derive_max_covers {labels during : List (StreamEvent α × Option (Option α))}
    {s s₁ s₂ s₃ : Stream α} {token field : String} {returned : Option (Option α)} {now : ℕ}
    {value : Option α} {name : Stem} {data : Dict String α}
    (hrun : Trace.Run OrderedStep Stream.init labels s)
    (hcall : OrderedStep s (.derive token field, returned) s₁)
    (hbegin : s.dir.get? name = some data)
    (hduring : Trace.Run
      (fun s label s' => OrderedStep s label s' ∧ s'.dir.get? name = some data) s₁ during s₂)
    (hreturn : OrderedStep s₂ (.advance s.calls.length now, some value) s₃) :
    ∀ v ∈ data.get? field, ∃ best ∈ value, v ≤ best := by
  intro v hv
  have hordered : Trace.Run OrderedStep s₁ during s₂ := hduring.mono fun _ _ _ h => h.1
  have hconsistent : s₂.Consistent :=
    ((hrun.snoc hcall).append hordered).invariant (fun _ _ _ h hstep => h.step hstep)
      Stream.consistent_init
  have hlisting : s₁.dir.get? name = some data ∧ s₁.Tracks s.calls.length field name := by
    cases hcall.1
    exact ⟨hbegin, .inl ⟨token, s.dir.keys, [], List.getElem?_concat_length,
      mem_keys_iff.mpr ⟨data, hbegin⟩⟩⟩
  obtain ⟨hend, htracks⟩ : s₂.dir.get? name = some data ∧ s₂.Tracks s.calls.length field name :=
    hduring.invariant (P := fun s' => s'.dir.get? name = some data ∧
        s'.Tracks s.calls.length field name)
      (fun _ _ _ h hstep => ⟨hstep.2, h.2.step (mem_keys_iff.mpr ⟨data, h.1⟩) hstep.1.1⟩) hlisting
  obtain ⟨call, hat, hadvance⟩ := bind_eq_some_iff.mp hreturn.1
  rcases htracks with ⟨_, _, _, hlisting, -⟩ | ⟨_, _, _, hrecalling, -⟩ |
    ⟨token', newest, best, todo, wipes, hfolding, hle⟩ | hover
  · -- a call that lists, or has just listed, does not return
    rw [hlisting] at hat
    cases hat
    obtain ⟨-, hadvance⟩ := ite_none_right_eq_some.mp hadvance
    cases hadvance
  · rw [hrecalling] at hat
    cases hat
    cases hadvance
  · rw [hfolding] at hat
    cases hat
    cases todo with
    | cons stem todo => cases hadvance
    | nil =>
      cases hadvance
      have hcovers : Covers s₂.dir field newest [] value :=
        hconsistent.calls _ (mem_of_getElem? hfolding)
      exact hcovers name data hend hle (by simp) v hv
  · rw [hover] at hat
    cases hat
    cases hadvance

section Runs

/-- A record with one field. -/
private def cursor (n : ℕ) : Dict String ℕ := Dict.empty.set "fireTime" n

/-- A call lists the directory and finds these records. -/
private def listed (c : ℕ) (stems : List Stem) : List (StreamEvent ℕ) :=
  stems.map (.show c) ++ [.advance c 0]

/-- A call of `derive_max` that finds these records and reads some. -/
private def derived (c : ℕ) (stems : List Stem) (reads : ℕ) : List (StreamEvent ℕ) :=
  listed c stems ++ replicate (reads + 2) (.advance c 0)

/-- An append from its start to its end. -/
private def whole (token : String) (c now n : ℕ) (listing : List (StreamEvent ℕ)) :
    List (StreamEvent ℕ) :=
  [.append token (cursor n)] ++ listing ++ [.advance c now, .advance c now]

/-- The first record. -/
private def first : Stem := ⟨100, "a", 1⟩

/-- A step in order that returns what the label says, after which the first record is there if it
should be. -/
private def ordered (there : Bool) (s : Stream ℕ) (label : StreamEvent ℕ × Option (Option ℕ)) :
    Option (Stream ℕ) :=
  (s.step label.1).bind fun p =>
    if p.2 = label.2 ∧ s.InOrder label.1 ∧ (there → p.1.dir.get? first = some (cursor 7)) then
      some p.1
    else none

private lemma of_ordered {there : Bool} {s t : Stream ℕ}
    {label : StreamEvent ℕ × Option (Option ℕ)} (h : ordered there s label = some t) :
    OrderedStep s label t ∧ (there → t.dir.get? first = some (cursor 7)) := by
  obtain ⟨⟨t', returned⟩, hstep, h⟩ := bind_eq_some_iff.mp h
  obtain ⟨⟨hreturned, horder, hthere⟩, h⟩ := ite_none_right_eq_some.mp h
  cases h
  cases hreturned
  exact ⟨⟨hstep, horder⟩, hthere⟩

/-- A call folds the first record and remembers it. -/
private def before : List (StreamEvent ℕ × Option (Option ℕ)) :=
  (whole "a" 0 100 7 (listed 0 [])).map (·, none) ++
    [(.derive "a" "fireTime", none), (.show 1 first, none), (.advance 1 0, none),
      (.advance 1 0, none), (.advance 1 0, none), (.advance 1 0, some (some 7))]

/-- The listing of the next call overlaps an append of another process, and shows both records. -/
private def overlap : List (StreamEvent ℕ × Option (Option ℕ)) :=
  (whole "b" 3 200 9 (.show 2 first :: listed 3 [first]) ++ listed 2 [⟨200, "b", 1⟩] ++
    replicate 2 (StreamEvent.advance 2 0)).map (·, none)

/-- A record is folded and another one appears while the next call lists the directory. -/
theorem derive_max_covers_overlapped : ∃ s s₁ s₂ s₃ : Stream ℕ,
    Trace.Run OrderedStep Stream.init before s ∧
      OrderedStep s (.derive "a" "fireTime", none) s₁ ∧ Trace.Run OrderedStep s₁ overlap s₂ ∧
      OrderedStep s₂ (.advance s.calls.length 0, some (some 9)) s₃ ∧
      ∃ best ∈ (some 9 : Option ℕ), 7 ≤ best := by
  have hfold : ((before.foldlM (ordered false) Stream.init).bind fun s =>
      (ordered true s (.derive "a" "fireTime", none)).bind fun s₁ =>
        (overlap.foldlM (ordered true) s₁).bind fun s₂ =>
          (ordered true s₂ (.advance s.calls.length 0, some (some 9))).map fun _ =>
            decide (s.dir.get? first = some (cursor 7))) = some true := by
    decide +kernel
  obtain ⟨s, hs, hfold⟩ := bind_eq_some_iff.mp hfold
  obtain ⟨s₁, hs₁, hfold⟩ := bind_eq_some_iff.mp hfold
  obtain ⟨s₂, hs₂, hfold⟩ := bind_eq_some_iff.mp hfold
  obtain ⟨s₃, hs₃, hfirst⟩ := map_eq_some_iff.mp hfold
  have hrun : Trace.Run OrderedStep Stream.init before s :=
    (Trace.Run.of_foldlM hs).mono fun _ _ _ h => (of_ordered h).1
  have hduring : Trace.Run (fun s label s' => OrderedStep s label s' ∧
      s'.dir.get? first = some (cursor 7)) s₁ overlap s₂ :=
    (Trace.Run.of_foldlM hs₂).mono fun _ _ _ h => ⟨(of_ordered h).1, (of_ordered h).2 rfl⟩
  have hcall := (of_ordered hs₁).1
  have hreturn := (of_ordered hs₃).1
  have hcovers := derive_max_covers hrun hcall (of_decide_eq_true hfirst) hduring hreturn
  exact ⟨s, s₁, s₂, s₃, hrun, hcall, hduring.mono fun _ _ _ h => h.1, hreturn,
    hcovers 7 (by decide +kernel)⟩

/-- Process `a` has a floor when process `b`, whose clock is ahead, appends a record and `a` folds
it; the next record of `a` is named below. -/
def skewedRun : List (StreamEvent ℕ) :=
  whole "a" 0 100 0 (listed 0 []) ++ whole "b" 1 200 1 (listed 1 [first]) ++
    .derive "a" "fireTime" :: derived 2 [first, ⟨200, "b", 1⟩] 2 ++
    whole "a" 3 101 5 [] ++
    .derive "a" "fireTime" :: derived 4 [first, ⟨101, "a", 2⟩, ⟨200, "b", 1⟩] 0

/-- Two threads of one process: the record that was named first appears last. -/
def overtakenRun : List (StreamEvent ℕ) :=
  .append "a" (cursor 5) :: listed 0 [] ++ .advance 0 100 :: whole "a" 1 101 1 [] ++
    .derive "a" "fireTime" :: derived 2 [⟨101, "a", 2⟩] 1 ++ [.advance 0 102] ++
    .derive "a" "fireTime" :: derived 3 [first, ⟨101, "a", 2⟩] 0

/-- The listing of a call begins before two appends and shows only the record of the second. -/
def overlappedRun : List (StreamEvent ℕ) :=
  .derive "a" "fireTime" :: whole "a" 1 100 5 (listed 1 []) ++ whole "a" 2 101 1 [] ++
    derived 0 [⟨101, "a", 2⟩] 1 ++
    .derive "a" "fireTime" :: derived 3 [first, ⟨101, "a", 2⟩] 0

/-- In these runs the last call of `derive_max` returns 1 while a record with the value 5 has been
in the directory since before it began. -/
theorem derive_max_missed :
    (Stream.init.exec skewedRun).map Prod.snd = some [some 1, some 1] ∧
    (Stream.init.exec overtakenRun).map Prod.snd = some [some 1, some 1] ∧
    (Stream.init.exec overlappedRun).map Prod.snd = some [some 1, some 1] ∧
    (Stream.init.exec (skewedRun.take 20)).map (fun p => p.1.dir.values) =
      some [cursor 0, cursor 1, cursor 5] ∧
    (Stream.init.exec (overtakenRun.take 13)).map (fun p => p.1.dir.values) =
      some [cursor 1, cursor 5] ∧
    (Stream.init.exec (overlappedRun.take 13)).map (fun p => p.1.dir.values) =
      some [cursor 5, cursor 1] := by
  decide +kernel

end Runs

end Cronstable.Store
