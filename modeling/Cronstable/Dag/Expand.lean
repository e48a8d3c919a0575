import Cronstable.Dag.Refine

/-!
# What supplied item lists do to a document

`applyExpansions` visits the supplied lists one after another. Each visit writes under the keys of
one task, and whether it does depends on that task's own record and on the state of its source,
which is never mapped itself. So the lists do not interfere, and the effect on a task is read off
the document before the first visit: nothing, a placeholder failed at the cap, or a recorded
fan-out.

## Main results

* `applyExpansions_task`: the effect of the supplied lists on one task;
* `applyExpansions_frame`: no other entry and no other record changes.
-/

namespace Cronstable.Dag

open List

variable {spec : DagSpec} {t u : TaskSpec}

/-- A list is recorded for a task: the task is mapped and not expanded yet, its source succeeded,
and the list is within the cap. The source does not ask for the other upstreams of the task, nor
whether the placeholder is still pending. -/
def Eligible (spec : DagSpec) (body : RunBody) (t : TaskSpec) (items : List Json) : Prop :=
  ∃ exp, t.expand = some exp ∧ body.mapped.contains t.id = false ∧
    effectiveState spec body exp.fromTask = .success ∧ items.length ≤ maxMappedItems

/-- A list over the cap, for a pending placeholder that would have taken a shorter one. -/
def Oversize (spec : DagSpec) (body : RunBody) (t : TaskSpec) (items : List Json) : Prop :=
  Eligible spec body t [] ∧ maxMappedItems < items.length ∧
    ∃ e, body.tasks.get? t.id = some e ∧ e.state = .pending

/-- Nothing that belongs to a task changed. -/
def SameTask (body body' : RunBody) (t : TaskSpec) : Prop :=
  body'.mapped.get? t.id = body.mapped.get? t.id ∧
    ∀ key, Owns t.id key → body'.tasks.get? key = body.tasks.get? key

namespace SameTask

lemma refl (body : RunBody) (t : TaskSpec) : SameTask body body t := ⟨rfl, fun _ _ => rfl⟩

lemma trans {b b' b'' : RunBody} (h : SameTask b b' t) (h' : SameTask b' b'' t) :
    SameTask b b'' t :=
  ⟨h'.1.trans h.1, fun key hk => (h'.2 key hk).trans (h.2 key hk)⟩

/-- An unchanged task has the same group state. -/
theorem groupState_eq {b b' : RunBody} (h : SameTask b b' t) :
    mappedGroupState b' t.id = mappedGroupState b t.id :=
  mappedGroupState_congr h.1 fun key hk => by rw [RunBody.stateAt, RunBody.stateAt, h.2 key hk]

end SameTask

/-! ## Recording one list -/

/-- The keys of the instances of one task are distinct. -/
private lemma instanceKeys_nodup (hhash : '#' ∉ t.id.toList) (items : List Json) :
    (items.zipIdx.map fun p => instanceKey t.id p.2).Nodup := by
  have hidx : (items.zipIdx.map Prod.snd).Nodup := by
    rw [zipIdx_map_snd]
    exact nodup_range'
  have hinj : Function.Injective (instanceKey t.id) := fun i j hij =>
    (instanceKey_inj hhash hhash hij).2
  have hmap := hidx.map hinj
  rwa [map_map] at hmap

/-- What materialising a fan-out does to every lookup. -/
theorem get?_materialise (hhash : '#' ∉ t.id.toList) (tasks : Dict String TaskEntry) (now : Time)
    (items : List Json) (key : String) (e : TaskEntry) :
    (materialise tasks t now items).get? key = some e ↔
      (∃ i item, items[i]? = some item ∧ key = instanceKey t.id i ∧
        e = instanceEntry t now i item) ∨
      ((∀ i < items.length, key ≠ instanceKey t.id i) ∧ tasks.get? key = some e) := by
  have hwrites := Dict.get?_foldl_set (fun p : Json × ℕ => instanceKey t.id p.2)
    (fun p => instanceEntry t now p.2 p.1) (instanceKeys_nodup hhash items) tasks key e
  refine hwrites.trans ?_
  have hmem : ∀ p : Json × ℕ, p ∈ items.zipIdx ↔ items[p.2]? = some p.1 := by
    rintro ⟨item, i⟩
    exact mem_zipIdx_iff_getElem?
  constructor
  · rintro (⟨p, hp, rfl, rfl⟩ | ⟨hnot, hget⟩)
    · exact .inl ⟨p.2, p.1, (hmem p).mp hp, rfl, rfl⟩
    · refine .inr ⟨fun i hi heq => hnot ?_, hget⟩
      exact mem_map.mpr ⟨(items[i], i), (hmem _).mpr (List.getElem?_eq_getElem hi), heq.symm⟩
  · rintro (⟨i, item, hitem, rfl, rfl⟩ | ⟨hnot, hget⟩)
    · exact .inl ⟨(item, i), (hmem _).mpr hitem, rfl, rfl⟩
    · refine .inr ⟨fun hin => ?_, hget⟩
      obtain ⟨p, hp, heq⟩ := mem_map.mp hin
      obtain ⟨hlt, -⟩ := List.getElem?_eq_some_iff.mp ((hmem p).mp hp)
      exact hnot p.2 hlt heq.symm

/-- What marking the placeholder does to every lookup. -/
private lemma get?_markExpanded (tasks : Dict String TaskEntry) (now : Time) (key : String) :
    (markExpanded tasks t now).get? key =
      if key = t.id then
        (tasks.get? t.id).map fun e => { e with state := .expanded, updatedAt := some now }
      else tasks.get? key := by
  unfold markExpanded
  cases hget : tasks.get? t.id with
  | none =>
    by_cases hkey : key = t.id
    · simp [hkey, hget]
    · simp [hkey]
  | some e => simp

section

variable (hhash : '#' ∉ t.id.toList) (body : RunBody) (now : Time) (items : List Json)

include hhash body now items

/-- Recording a fan-out leaves every key of another task alone. -/
theorem recordExpansion_frame {key : String} (hkey : ¬ Owns t.id key) :
    (recordExpansion body t now items).tasks.get? key = body.tasks.get? key := by
  have hne : key ≠ t.id := fun heq => hkey (.inl heq)
  have hinst : ∀ i, key ≠ instanceKey t.id i := fun i heq => hkey (.inr ⟨i, heq⟩)
  apply Option.ext
  intro e
  rw [recordExpansion, get?_materialise hhash, get?_markExpanded, if_neg hne]
  simp [hinst]

/-- The placeholder of a recorded fan-out becomes the group marker. -/
theorem recordExpansion_placeholder :
    (recordExpansion body t now items).tasks.get? t.id =
      (body.tasks.get? t.id).map fun e => { e with state := .expanded, updatedAt := some now } := by
  have hinst : ∀ i, t.id ≠ instanceKey t.id i := fun i heq => instanceKey_ne hhash i heq.symm
  apply Option.ext
  intro e
  rw [recordExpansion, get?_materialise hhash, get?_markExpanded]
  simp [hinst]

/-- The instances of a recorded fan-out are fresh, and a key beyond the list is left alone. -/
theorem recordExpansion_instance (i : ℕ) :
    (recordExpansion body t now items).tasks.get? (instanceKey t.id i) =
      match items[i]? with
      | some item => some (instanceEntry t now i item)
      | none => body.tasks.get? (instanceKey t.id i) := by
  have hne : instanceKey t.id i ≠ t.id := instanceKey_ne hhash i
  have hinj : ∀ j, instanceKey t.id i = instanceKey t.id j → i = j := fun j h =>
    (instanceKey_inj hhash hhash h).2
  apply Option.ext
  intro e
  rw [recordExpansion, get?_materialise hhash, get?_markExpanded, if_neg hne]
  cases hitem : items[i]? with
  | some item =>
    obtain ⟨hlt, -⟩ := List.getElem?_eq_some_iff.mp hitem
    constructor
    · rintro (⟨j, item', hj, hkey, rfl⟩ | ⟨hnot, -⟩)
      · rw [← hinj j hkey, hitem] at hj
        cases hj
        rw [hinj j hkey]
      · exact absurd rfl (hnot i hlt)
    · intro he
      exact .inl ⟨i, item, hitem, rfl, (Option.some.inj he).symm⟩
  | none =>
    have hle : items.length ≤ i := List.getElem?_eq_none_iff.mp hitem
    constructor
    · rintro (⟨j, item', hj, hkey, -⟩ | ⟨-, hget⟩)
      · rw [← hinj j hkey, hitem] at hj
        cases hj
      · exact hget
    · intro hget
      refine .inr ⟨fun j hj hkey => ?_, hget⟩
      have := hinj j hkey
      omega

end

/-! ## One supplied list -/

section

variable (hspec : ValidSpec spec)

include hspec

/-- What one supplied list can do: nothing, fail a pending placeholder at the cap, or record the
fan-out; the last exactly when the list is eligible. -/
theorem applyExpansion_cases (now : Time) (p : Pass) (id : String) (items : Option (List Json)) :
    ((applyExpansion spec now p id items).body = p.body ∧
      ∀ t ∈ spec.tasks, t.id = id → ∀ l, items = some l →
        ¬ Eligible spec p.body t l ∧ ¬ Oversize spec p.body t l) ∨
    (∃ t ∈ spec.tasks, t.id = id ∧ t.expand.isSome ∧ p.body.mapped.contains t.id = false ∧
      ∃ e reason, p.body.tasks.get? id = some e ∧ e.state = .pending ∧
        (applyExpansion spec now p id items).body =
          p.body.setEntry id (terminaliseTask { e with failReason := reason } .failed now) ∧
        ∀ l, items = some l → ¬ Eligible spec p.body t l) ∨
    ∃ t ∈ spec.tasks, t.id = id ∧ ∃ l, items = some l ∧ Eligible spec p.body t l ∧
      (applyExpansion spec now p id items).body = recordExpansion p.body t now l := by
  unfold applyExpansion
  cases items with
  | none => exact .inl ⟨rfl, fun _ _ _ l hl => nomatch hl⟩
  | some l =>
    cases hbyId : spec.byId.get? id with
    | none =>
      refine .inl ⟨rfl, fun t ht hid => ?_⟩
      rw [← hid, hspec.byId_self ht] at hbyId
      cases hbyId
    | some t =>
      obtain ⟨ht, hid⟩ := hspec.byId_eq_some.mp hbyId
      -- the task found is the one with this id
      have honly : ∀ {P : TaskSpec → Prop}, P t → ∀ u ∈ spec.tasks, u.id = id → P u := by
        intro P hP u hu huid
        rwa [hspec.eq_of_id hu ht (huid.trans hid.symm)]
      have hlist : ∀ {P : List Json → Prop}, P l → ∀ l', some l = some l' → P l' :=
        fun hP l' hl' => Option.some.inj hl' ▸ hP
      cases hexp : t.expand with
      | none =>
        have hnot : ∀ l', ¬ Eligible spec p.body t l' := by
          rintro l' ⟨exp, hsome, -⟩
          rw [hexp] at hsome
          cases hsome
        exact .inl ⟨by simp [hexp], honly fun l' _ => ⟨hnot l', fun h => hnot [] h.1⟩⟩
      | some exp =>
        simp only [hexp]
        subst hid
        split
        next hrecorded =>
          have hnot : ∀ l', ¬ Eligible spec p.body t l' := by
            rintro l' ⟨-, -, hnone, -⟩
            rw [hrecorded] at hnone
            cases hnone
          exact .inl ⟨rfl, honly fun l' _ => ⟨hnot l', fun h => hnot [] h.1⟩⟩
        next hrecorded =>
          have hnone : p.body.mapped.contains t.id = false := by simpa using hrecorded
          split
          next hsource =>
            have hnot : ∀ l', ¬ Eligible spec p.body t l' := by
              rintro l' ⟨exp', hexp', -, hsucc, -⟩
              rw [hexp] at hexp'
              cases hexp'
              exact hsource hsucc
            exact .inl ⟨rfl, honly fun l' _ => ⟨hnot l', fun h => hnot [] h.1⟩⟩
          next hsource =>
            split
            next hcap =>
              have hbad : ¬ Eligible spec p.body t l := by
                rintro ⟨-, -, -, -, hle⟩
                omega
              cases hget : p.body.tasks.get? t.id with
              | none =>
                refine .inl ⟨rfl, honly (hlist ⟨hbad, ?_⟩)⟩
                rintro ⟨-, -, e, he, -⟩
                rw [hget] at he
                cases he
              | some e =>
                simp only
                split
                next hpending =>
                  exact .inr (.inl ⟨t, ht, rfl, by simp [hexp], hnone, e, _, rfl,
                    hpending, rfl, hlist hbad⟩)
                next hpending =>
                  refine .inl ⟨rfl, honly (hlist ⟨hbad, ?_⟩)⟩
                  rintro ⟨-, -, e', he', hpending'⟩
                  rw [hget] at he'
                  cases he'
                  exact hpending hpending'
            next hcap =>
              exact .inr (.inr ⟨t, ht, rfl, l, rfl,
                ⟨exp, hexp, hnone, not_not.mp hsource, by omega⟩, rfl⟩)

/-- One supplied list leaves the records of other ids and the keys of other tasks alone. -/
theorem applyExpansion_frame (now : Time) (p : Pass) (id : String) (items : Option (List Json)) :
    (∀ id', id' ≠ id →
      (applyExpansion spec now p id items).body.mapped.get? id' = p.body.mapped.get? id') ∧
    ∀ key, (∀ t ∈ spec.tasks, t.id = id → t.expand.isSome → ¬ Owns t.id key) →
      (applyExpansion spec now p id items).body.tasks.get? key = p.body.tasks.get? key := by
  rcases applyExpansion_cases hspec now p id items with
    ⟨hbody, -⟩ | ⟨t, ht, rfl, hexp, -, e, reason, -, -, hbody, -⟩ | ⟨t, ht, rfl, l, -, helig, hbody⟩
  · rw [hbody]
    exact ⟨fun _ _ => rfl, fun _ _ => rfl⟩
  · rw [hbody]
    refine ⟨fun _ _ => rfl, fun key hkey => ?_⟩
    have hne : key ≠ t.id := fun heq => hkey t ht rfl hexp (.inl heq)
    simp [hne]
  · rw [hbody]
    obtain ⟨exp, hexp, -⟩ := helig
    refine ⟨fun id' hid => by simp [recordExpansion, hid], fun key hkey => ?_⟩
    exact recordExpansion_frame (hspec.no_hash t ht) _ _ _ (hkey t ht rfl (by simp [hexp]))

/-- A list supplied for another task, or for a task that is not mapped, changes nothing of a
task. -/
private lemma applyExpansion_same (now : Time) (p : Pass) {id : String}
    (items : Option (List Json)) (hu : u ∈ spec.tasks) (h : u.id ≠ id ∨ u.expand = none) :
    SameTask p.body (applyExpansion spec now p id items).body u := by
  by_cases hid : u.id = id
  · have hplain : u.expand = none := h.resolve_left (not_not.mpr hid)
    have hbody : (applyExpansion spec now p id items).body = p.body := by
      rcases applyExpansion_cases hspec now p id items with
        ⟨hbody, -⟩ | ⟨t, ht, htid, hexp, -⟩ | ⟨t, ht, htid, l, -, ⟨exp, hexp, -⟩, -⟩
      · exact hbody
      all_goals
        rw [← hspec.eq_of_id hu ht (hid.trans htid.symm), hplain] at hexp
        cases hexp
    rw [hbody]
    exact .refl _ _
  · obtain ⟨hmapped, htasks⟩ := applyExpansion_frame hspec now p id items
    refine ⟨hmapped _ hid, fun key hkey => htasks key fun t ht htid _ hown => ?_⟩
    exact hid ((hkey.id_eq (hspec.no_hash u hu) (hspec.no_hash t ht) hown).trans htid)

/-- The same for a whole sequence of lists. -/
private lemma foldl_applyExpansion_same (now : Time) (l : List (String × Option (List Json)))
    (hu : u ∈ spec.tasks) (h : u.id ∉ l.map Prod.fst ∨ u.expand = none) (p : Pass) :
    SameTask p.body (l.foldl (fun p e => applyExpansion spec now p e.1 e.2) p).body u := by
  refine List.foldlRecOn (motive := fun q : Pass => SameTask p.body q.body u) l _ (.refl _ _) ?_
  intro q hq e he
  refine hq.trans (applyExpansion_same hspec now q e.2 hu ?_)
  exact h.imp_left fun hnot heq => hnot (heq ▸ mem_map_of_mem he)

end

/-! ## All supplied lists -/

/-- Eligibility looks at the task itself and at its unmapped source. -/
theorem eligible_congr (hspec : ValidSpec spec) {body body' : RunBody} (ht : t ∈ spec.tasks)
    (hsame : SameTask body body' t)
    (hplain : ∀ u ∈ spec.tasks, u.expand = none → SameTask body body' u) (l : List Json) :
    Eligible spec body' t l ↔ Eligible spec body t l := by
  unfold Eligible
  have hcontains : body'.mapped.contains t.id = body.mapped.contains t.id := by
    rw [Dict.contains, Dict.contains, hsame.1]
  have hsource : ∀ exp, t.expand = some exp →
      effectiveState spec body' exp.fromTask = effectiveState spec body exp.fromTask := by
    intro exp hexp
    obtain ⟨-, hdep, hunmapped⟩ := hspec.expand t ht exp hexp
    obtain ⟨u, hu, hid⟩ := hspec.known t ht _ hdep
    rw [effectiveState_eq, effectiveState_eq, ← hid]
    exact (hplain u hu (hunmapped u hu hid)).groupState_eq
  rw [hcontains]
  constructor
  · rintro ⟨exp, hexp, hnone, hsucc, hle⟩
    exact ⟨exp, hexp, hnone, hsource exp hexp ▸ hsucc, hle⟩
  · rintro ⟨exp, hexp, hnone, hsucc, hle⟩
    exact ⟨exp, hexp, hnone, (hsource exp hexp).trans hsucc, hle⟩

/-- What the supplied lists do to one task. -/
inductive ExpandEffect (spec : DagSpec) (now : Time) (expansions : Expansions)
    (body body' : RunBody) (t : TaskSpec) : Prop
  | same (hsame : SameTask body body' t)
      (hnot : ∀ l, expansions.get? t.id = some (some l) → ¬ Eligible spec body t l)
      (hcap : ∀ l, expansions.get? t.id = some (some l) → ¬ Oversize spec body t l)
  /-- The list exceeded the cap. -/
  | capped (e : TaskEntry) (reason : Option String) (hexp : t.expand.isSome)
      (hnone : body.mapped.contains t.id = false) (hget : body.tasks.get? t.id = some e)
      (hpending : e.state = .pending)
      (hmapped : body'.mapped.get? t.id = body.mapped.get? t.id)
      (hentry : body'.tasks.get? t.id =
        some (terminaliseTask { e with failReason := reason } .failed now))
      (hinst : ∀ i, body'.tasks.get? (instanceKey t.id i) =
        body.tasks.get? (instanceKey t.id i))
      (hnot : ∀ l, expansions.get? t.id = some (some l) → ¬ Eligible spec body t l)
  | recorded (l : List Json) (hlist : expansions.get? t.id = some (some l))
      (helig : Eligible spec body t l)
      (hmapped : body'.mapped.get? t.id = some (some { items := l, expandedAt := now }))
      (hentry : body'.tasks.get? t.id = (body.tasks.get? t.id).map fun e =>
        { e with state := .expanded, updatedAt := some now })
      (hinst : ∀ i, body'.tasks.get? (instanceKey t.id i) =
        match l[i]? with
        | some item => some (instanceEntry t now i item)
        | none => body.tasks.get? (instanceKey t.id i))

/-- What the supplied lists write under the keys of a task. -/
inductive Written (now : Time) (body : RunBody) (t : TaskSpec) : String → TaskEntry → Prop
  | failed (e : TaskEntry) (reason : Option String) (hget : body.tasks.get? t.id = some e) :
      Written now body t t.id (terminaliseTask { e with failReason := reason } .failed now)
  | marked (e : TaskEntry) (hget : body.tasks.get? t.id = some e) :
      Written now body t t.id { e with state := .expanded, updatedAt := some now }
  | fresh (i : ℕ) (item : Json) :
      Written now body t (instanceKey t.id i) (instanceEntry t now i item)

namespace ExpandEffect

variable {now : Time} {expansions : Expansions} {body body' : RunBody}

/-- An entry under a key of the task was there before, or was written. -/
theorem entry (h : ExpandEffect spec now expansions body body' t) {key : String} {e : TaskEntry}
    (hown : Owns t.id key) (hget : body'.tasks.get? key = some e) :
    body.tasks.get? key = some e ∨ Written now body t key e := by
  cases h with
  | same hsame => exact .inl (hsame.2 key hown ▸ hget)
  | capped e₀ reason _ _ hget₀ _ _ hentry hinst =>
    rcases hown with rfl | ⟨i, rfl⟩
    · cases hget.symm.trans hentry
      exact .inr (.failed e₀ reason hget₀)
    · exact .inl (hinst i ▸ hget)
  | recorded l _ _ _ hentry hinst =>
    rcases hown with rfl | ⟨i, rfl⟩
    · obtain ⟨e₀, hget₀, rfl⟩ := Option.map_eq_some_iff.mp (hentry.symm.trans hget)
      exact .inr (.marked e₀ hget₀)
    · rw [hinst i] at hget
      split at hget
      · cases hget
        exact .inr (.fresh i _)
      · exact .inl hget

/-- Nothing is written for a plain task, or over a recorded fan-out. -/
theorem sameTask (h : ExpandEffect spec now expansions body body' t)
    (hworked : t.expand = none ∨ body.mapped.contains t.id = true) : SameTask body body' t := by
  have hopen : ¬ (t.expand.isSome ∧ body.mapped.contains t.id = false) := by
    rintro ⟨hexp, hnone⟩
    rcases hworked with hplain | hrec
    · simp [hplain] at hexp
    · simp [hrec] at hnone
  cases h with
  | same hsame => exact hsame
  | capped _ _ hexp hnone => exact absurd ⟨hexp, hnone⟩ hopen
  | recorded _ _ helig =>
    obtain ⟨exp, hexp, hnone, -⟩ := helig
    exact absurd ⟨by simp [hexp], hnone⟩ hopen

end ExpandEffect

/-- The supplied lists act on each task by its own list alone, as seen in the document they
started from. -/
theorem applyExpansions_task (hspec : ValidSpec spec) (expansions : Expansions) (now : Time)
    (p : Pass) (ht : t ∈ spec.tasks) :
    ExpandEffect spec now expansions p.body (applyExpansions spec expansions now p).body t := by
  cases hget : expansions.get? t.id with
  | none =>
    have hnot : t.id ∉ expansions.items.map Prod.fst := by
      intro hmem
      obtain ⟨x, hx⟩ := Dict.mem_keys_iff.mp hmem
      rw [hget] at hx
      cases hx
    have habsent : ∀ l, expansions.get? t.id ≠ some (some l) := by simp [hget]
    exact .same (foldl_applyExpansion_same hspec now _ ht (.inl hnot) p)
      (fun l hl => absurd hl (habsent l)) (fun l hl => absurd hl (habsent l))
  | some x =>
    -- cut the sequence at the one list of this task
    obtain ⟨before, after, hsplit⟩ :=
      append_of_mem (Dict.mem_items_iff.mpr hget)
    have hnodup := expansions.nodup
    rw [hsplit, map_append, nodup_append] at hnodup
    have hbefore : t.id ∉ before.map Prod.fst := fun hmem =>
      hnodup.2.2 _ hmem _ mem_cons_self rfl
    have hafter : t.id ∉ after.map Prod.fst := (nodup_cons.mp hnodup.2.1).1
    set q := before.foldl (fun p e => applyExpansion spec now p e.1 e.2) p with hq
    have hresult : applyExpansions spec expansions now p =
        after.foldl (fun p e => applyExpansion spec now p e.1 e.2)
          (applyExpansion spec now q t.id x) := by
      rw [applyExpansions, hsplit, foldl_append, foldl_cons]
    have hsame : SameTask p.body q.body t :=
      foldl_applyExpansion_same hspec now before ht (.inl hbefore) p
    have hrest : SameTask (applyExpansion spec now q t.id x).body
        (applyExpansions spec expansions now p).body t := by
      rw [hresult]
      exact foldl_applyExpansion_same hspec now after ht (.inl hafter) _
    have helig : ∀ l, Eligible spec q.body t l ↔ Eligible spec p.body t l :=
      eligible_congr hspec ht hsame fun u hu hplain =>
        foldl_applyExpansion_same hspec now before hu (.inr hplain) p
    have hhash := hspec.no_hash t ht
    have hinst : ∀ i, Owns t.id (instanceKey t.id i) := fun i => .inr ⟨i, rfl⟩
    have hown : Owns t.id t.id := .inl rfl
    rcases applyExpansion_cases hspec now q t.id x with
      ⟨hbody, hnot⟩ | ⟨u, hu, hid, hexp, hnone, e, reason, hentry, hpending, hbody, hnot⟩ |
      ⟨u, hu, hid, l, rfl, hel, hbody⟩
    · rw [hbody] at hrest
      refine .same (hsame.trans hrest) (fun l hl hel => ?_) (fun l hl hover => ?_)
      · rw [hget] at hl
        exact (hnot t ht rfl l (Option.some.inj hl)).1 ((helig l).mpr hel)
      · rw [hget] at hl
        obtain ⟨hel, hlen, e, he, hpending⟩ := hover
        exact (hnot t ht rfl l (Option.some.inj hl)).2
          ⟨(helig []).mpr hel, hlen, e, (hsame.2 _ hown).trans he, hpending⟩
    · obtain rfl := hspec.eq_of_id hu ht hid
      rw [hbody] at hrest
      refine .capped e reason hexp ?_ (hsame.2 _ hown ▸ hentry) hpending
        (hrest.1.trans hsame.1) ?_ ?_ fun l hl hel => ?_
      · rwa [Dict.contains, ← hsame.1]
      · rw [hrest.2 _ hown]
        simp
      · intro i
        rw [hrest.2 _ (hinst i), ← hsame.2 _ (hinst i)]
        simp [instanceKey_ne hhash i]
      · rw [hget] at hl
        exact hnot l (Option.some.inj hl) ((helig l).mpr hel)
    · obtain rfl := hspec.eq_of_id hu ht hid
      rw [hbody] at hrest
      refine .recorded l hget ((helig l).mp hel) ?_ ?_ ?_
      · rw [hrest.1]
        simp [recordExpansion]
      · rw [hrest.2 _ hown, recordExpansion_placeholder hhash, hsame.2 _ hown]
      · intro i
        rw [hrest.2 _ (hinst i), recordExpansion_instance hhash, hsame.2 _ (hinst i)]

/-- A supplied list changes nothing or reports a change. -/
private lemma applyExpansion_changed (now : Time) (p : Pass) (id : String)
    (items : Option (List Json)) :
    applyExpansion spec now p id items = p ∨
      (applyExpansion spec now p id items).result.changed = true := by
  generalize hq : applyExpansion spec now p id items = q
  unfold applyExpansion at hq
  split at hq
  next =>
    split at hq
    next => exact .inl hq.symm
    next =>
      split_ifs at hq
      · exact .inl hq.symm
      · exact .inl hq.symm
      · split at hq
        next => exact .inl hq.symm
        next =>
          split_ifs at hq
          · exact .inr (hq ▸ rfl)
          · exact .inl hq.symm
      · exact .inr (hq ▸ rfl)
  next => exact .inl hq.symm

/-- Lists that do not report a change left the document alone. -/
theorem applyExpansions_unchanged (expansions : Expansions) (now : Time) (p : Pass)
    (h : (applyExpansions spec expansions now p).result.changed = false) :
    applyExpansions spec expansions now p = p := by
  refine List.foldlRecOn (motive := fun q : Pass => q.result.changed = false → q = p)
    _ _ (fun _ => rfl) ?_ h
  intro q hq e _ hchanged
  rcases applyExpansion_changed now q e.1 e.2 with hsame | hnew
  · rw [hsame] at hchanged ⊢
    exact hq hchanged
  · rw [hnew] at hchanged
    cases hchanged

/-- What belongs to no task of the DAG is left alone. -/
theorem applyExpansions_frame (hspec : ValidSpec spec) (expansions : Expansions) (now : Time)
    (p : Pass) :
    (∀ id, (∀ t ∈ spec.tasks, t.id ≠ id) →
      (applyExpansions spec expansions now p).body.mapped.get? id = p.body.mapped.get? id) ∧
    ∀ key, (∀ t ∈ spec.tasks, ¬ Owns t.id key) →
      (applyExpansions spec expansions now p).body.tasks.get? key = p.body.tasks.get? key := by
  refine List.foldlRecOn (motive := fun q : Pass =>
    (∀ id, (∀ t ∈ spec.tasks, t.id ≠ id) → q.body.mapped.get? id = p.body.mapped.get? id) ∧
      ∀ key, (∀ t ∈ spec.tasks, ¬ Owns t.id key) →
        q.body.tasks.get? key = p.body.tasks.get? key)
    _ _ ⟨fun _ _ => rfl, fun _ _ => rfl⟩ ?_
  rintro q ⟨hmapped, htasks⟩ e -
  obtain ⟨hmapped', htasks'⟩ := applyExpansion_frame hspec now q e.1 e.2
  refine ⟨fun id hid => ?_, fun key hkey => ?_⟩
  · by_cases heq : id = e.1
    · -- a list for an unknown id is skipped
      rcases applyExpansion_cases hspec now q e.1 e.2 with
        ⟨hbody, -⟩ | ⟨t, ht, htid, -⟩ | ⟨t, ht, htid, -⟩
      · rw [hbody, hmapped id hid]
      all_goals exact absurd (htid.trans heq.symm) (hid t ht)
    · rw [hmapped' id heq, hmapped id hid]
  · rw [htasks' key fun t ht _ _ => hkey t ht, htasks key hkey]

end Cronstable.Dag
