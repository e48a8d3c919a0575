import Cronstable.Lib.Dict
import Mathlib.Data.List.Sort

/-!
# What a process remembers of a stream's records

The records of a name-keyed stream hold a string in one field, and a record supersedes the older
ones with the same string. A process remembers which string a record holds, and for each string the
newest record and the one before it. A record never changes and its name is never used again, so
what is remembered stays true; but the record may have left.

Names are numbers here, since only their order matters. Which table the facts are kept in is a
number, too: a listing that was begun under one table is not compared with another.

## Main definitions

* `FieldFacts.learn`, `forget`, `shed`: `_FieldFacts`;
* `FieldFacts.fold`: `_field_index_learn`, without the index around it;
* `FieldFacts.Sound`: the facts are true of the records there ever were, and the two newest records
  of a string are in order.
-/

namespace Cronstable.NameKeyed

open List Option Dict

/-- Names of record files. -/
abbrev Name := ℕ

/-- `_FIELD_INDEX_MAX_VALUE_CHARS`. -/
def maxValueChars : ℕ := 256

/-- `_FIELD_INDEX_STALE_SLACK`. -/
def staleSlack : ℕ := 64

/-- `_FieldFacts`. -/
structure FieldFacts where
  values : Dict Name String := .empty
  newest : Dict String Name := .empty
  prior : Dict String Name := .empty
  /-- `values` lists its records oldest first. -/
  ordered : Bool := true
  /-- How many records `values` has taken in. -/
  added : ℕ := 0
  /-- Which dict `values` is. -/
  table : ℕ

/-- `_FieldMark`: where the facts stood before a listing. -/
structure Mark where
  table : ℕ
  added : ℕ

variable {name : Name} {value v : String}

namespace FieldFacts

/-! ## The facts -/

/-- A record that is not known yet is noted last. -/
def note (f : FieldFacts) (name : Name) (value : String) : FieldFacts :=
  if f.values.contains name then f
  else
    { f with
      values := f.values.set name value
      ordered := f.ordered && !f.values.keys.getLast?.any fun last => decide (name < last)
      added := f.added + 1 }

/-- A record becomes the one before the newest, if it is newer than that one. -/
def push (f : FieldFacts) (value : String) (name : Name) : FieldFacts × Option Name :=
  match f.prior.get? value with
  | none => ({ f with prior := f.prior.set value name }, none)
  | some prior =>
    if prior < name then ({ f with prior := f.prior.set value name }, some prior) else (f, none)

/-- `learn`, with the record that it pushes out of the two newest. -/
def learn (f : FieldFacts) (name : Name) (value : String) : FieldFacts × Option Name :=
  if maxValueChars < value.length then (f, none)
  else
    let f := f.note name value
    match f.newest.get? value with
    | none => ({ f with newest := f.newest.set value name }, none)
    | some newest =>
      if newest < name then
        push { f with newest := f.newest.set value name } value newest
      else if newest = name then (f, none)
      else f.push value name

/-- `forget`. -/
def forget (f : FieldFacts) (name : Name) : FieldFacts :=
  match f.values.get? name with
  | none => f
  | some value =>
    let values := f.values.erase name
    if f.prior.get? value = some name then
      { f with values, prior := f.prior.erase value }
    else if f.newest.get? value = some name then
      match f.prior.get? value with
      | none => { f with values, newest := f.newest.erase value }
      | some prior =>
        { f with
          values, newest := f.newest.set value prior, prior := f.prior.erase value }
    else { f with values }

/-- The fact about the first record goes. -/
def popOldest (f : FieldFacts) : FieldFacts :=
  match f.values.items with
  | [] => f
  | (name, value) :: _ =>
    let values := f.values.erase name
    if f.prior.get? value = some name then { f with values, prior := f.prior.erase value }
    else if f.newest.get? value = some name then
      { f with values, newest := f.newest.erase value }
    else { f with values }

/-- The records in order, in a new table. -/
def sort (f : FieldFacts) (table : ℕ) : FieldFacts :=
  { f with
    values :=
      ⟨f.values.items.insertionSort fun a b => a.1 ≤ b.1,
        ((List.perm_insertionSort _ _).map Prod.fst).nodup_iff.mpr f.values.nodup⟩
    ordered := true
    table }

/-- `shed`. A sort needs a new table. -/
def shed (f : FieldFacts) (table excess : ℕ) : FieldFacts :=
  if excess = 0 then f
  else if f.values.items.length ≤ excess then
    { f with values := .empty, newest := .empty, prior := .empty }
  else popOldest^[excess] (if f.ordered then f else f.sort table)

/-- Where the facts stand, for a sweep that comes later. -/
def mark (f : FieldFacts) : Mark := { table := f.table, added := f.added }

/-- Facts about records that have left the listing are swept out, once there are too many. Those
added since the mark stay. -/
def sweep (f : FieldFacts) (listing : List Name) (mark : Option Mark) (slack : ℕ) : FieldFacts :=
  match mark with
  | none => f
  | some mark =>
    if listing.length + slack < f.values.items.length ∧ f.table = mark.table then
      let recent := f.values.keys.reverse.take (f.added - mark.added)
      (f.values.keys.filter fun n => n ∉ listing ∧ n ∉ recent).foldl forget f
    else f

/-- What `_field_index_learn` does to the facts. `learned` is newest first. -/
def fold (f : FieldFacts) (learned : List (Name × String)) (listing : List Name)
    (mark : Option Mark) (gone : List Name) (slack : ℕ) : FieldFacts :=
  let f := learned.reverse.foldl (fun f p => (f.learn p.1 p.2).1) f
  sweep (gone.foldl forget f) listing mark slack

/-! ## Soundness -/

/-- The facts are true, and the record before the newest is older than it. -/
structure Sound (ever : Name → String → Prop) (f : FieldFacts) : Prop where
  holds : ∀ n v, f.values.get? n = some v → ever n v
  newest : ∀ v n, f.newest.get? v = some n → f.values.get? n = some v
  prior : ∀ v n, f.prior.get? v = some n →
    f.values.get? n = some v ∧ ∃ n', f.newest.get? v = some n' ∧ n < n'
  ordered : f.ordered → f.values.keys.Pairwise (· < ·)

/-- A newer record with the same string was there, too. -/
def Superseded (ever : Name → String → Prop) (n : Name) (v : String) : Prop :=
  ever n v ∧ ∃ n', ever n' v ∧ n < n'

section Sound

variable {ever ever' : Name → String → Prop} {f : FieldFacts}

/-- Facts stay sound as records are added. -/
lemma Sound.mono (h : f.Sound ever) (hever : ∀ n v, ever n v → ever' n v) : f.Sound ever' :=
  { h with holds := fun n v hn => hever n v (h.holds n v hn) }

/-- A record stays superseded. -/
lemma Superseded.mono {n : Name} (h : Superseded ever n v) (hever : ∀ n v, ever n v → ever' n v) :
    Superseded ever' n v := by
  obtain ⟨hn, n', hn', hlt⟩ := h
  exact ⟨hever n v hn, n', hever n' v hn', hlt⟩

/-- Nothing is known at first. -/
theorem sound_empty (table : ℕ) : ({ table } : FieldFacts).Sound ever :=
  ⟨by simp, by simp, by simp, by simp [Dict.keys, Dict.empty]⟩

section

variable (h : f.Sound ever)

include h

/-- The record before the newest is superseded. -/
theorem Sound.superseded {n : Name} (hn : f.prior.get? v = some n) : Superseded ever n v := by
  obtain ⟨hvalue, n', hnewest, hlt⟩ := h.prior v n hn
  exact ⟨h.holds n v hvalue, n', h.holds n' v (h.newest v n' hnewest), hlt⟩

/-- A record of the value is noted. -/
lemma Sound.note (hname : ever name value)
    (hsame : ∀ v, f.values.get? name = some v → v = value) :
    (f.note name value).Sound ever ∧ (f.note name value).values.get? name = some value := by
  unfold FieldFacts.note
  split
  case isTrue hmem =>
    obtain ⟨v, hv⟩ := Dict.contains_iff.mp hmem
    exact ⟨h, hsame v hv ▸ hv⟩
  case isFalse hnew =>
    have hnone : f.values.get? name = none := by simpa [Dict.contains] using hnew
    refine ⟨⟨forall_set h.holds hname,
      fun v n hn => get?_set_of_none hnone (h.newest v n hn), fun v n hn => ?_,
      fun hord => ?_⟩, by simp⟩
    · obtain ⟨hvalue, hrest⟩ := h.prior v n hn
      exact ⟨get?_set_of_none hnone hvalue, hrest⟩
    · -- the name is last, and above the one that was
      obtain ⟨hold, hlast⟩ : f.ordered = true ∧
          (f.values.keys.getLast?.any fun last => decide (name < last)) = false := by
        simpa using hord
      have hsorted := h.ordered hold
      have hitems : (f.values.set name value).keys = f.values.keys ++ [name] := by
        simp [Dict.keys, items_set_of_get?_eq_none value hnone]
      rw [hitems]
      refine pairwise_append.mpr ⟨hsorted, pairwise_singleton _ _, ?_⟩
      intro n hn m hm
      obtain rfl := mem_singleton.mp hm
      obtain ⟨last, hget⟩ : ∃ last, f.values.keys.getLast? = some last := by
        cases hl : f.values.keys.getLast? with
        | none => simp [List.getLast?_eq_none_iff.mp hl] at hn
        | some last => exact ⟨last, rfl⟩
      have hle : n ≤ last := by
        obtain ⟨front, hfront⟩ := List.getLast?_eq_some_iff.mp hget
        rw [hfront] at hn hsorted
        rcases mem_append.mp hn with hn | hn
        · exact ((pairwise_append.mp hsorted).2.2 n hn last (by simp)).le
        · exact (mem_singleton.mp hn).le
      have hge : last ≤ m := by simpa [hget] using hlast
      have hne : n ≠ m := by
        rintro rfl
        obtain ⟨v, hv⟩ := mem_keys_iff.mp hn
        simp [hnone] at hv
      exact lt_of_le_of_ne (hle.trans hge) hne

/-- What is pushed out of the two newest records is superseded by both. -/
theorem Sound.push {newest : Name} (hname : f.values.get? name = some value)
    (hnewest : f.newest.get? value = some newest) (hlt : name < newest) :
    (f.push value name).1.Sound ever ∧
      ∀ n, (f.push value name).2 = some n → Superseded ever n value := by
  have hset : ({ f with prior := f.prior.set value name } : FieldFacts).Sound ever := by
    exact { h with prior := forall_set h.prior ⟨hname, newest, hnewest, hlt⟩ }
  unfold FieldFacts.push
  split
  case h_1 => exact ⟨hset, by simp⟩
  case h_2 prior hprior =>
    split
    · refine ⟨hset, ?_⟩
      rintro _ ⟨⟩
      exact h.superseded hprior
    · exact ⟨h, by simp⟩

/-- A record is learned that holds the value. -/
theorem Sound.learn (hname : ever name value)
    (hsame : ∀ v, f.values.get? name = some v → v = value) :
    (f.learn name value).1.Sound ever ∧
      ∀ n, (f.learn name value).2 = some n → Superseded ever n value := by
  unfold FieldFacts.learn
  split
  case isTrue => exact ⟨h, by simp⟩
  obtain ⟨hnote, hvalue⟩ := h.note hname hsame
  generalize f.note name value = g at hnote hvalue
  -- the name becomes the newest of its value
  have hset (hold : ∀ newest, g.newest.get? value = some newest → newest < name) :
      ({ g with newest := g.newest.set value name } : FieldFacts).Sound ever := by
    refine { hnote with
      newest := forall_set hnote.newest hvalue, prior := fun v n hn => ?_ }
    obtain ⟨hprior, n', hnewest, hlt⟩ := hnote.prior v n hn
    refine ⟨hprior, ?_⟩
    by_cases hv : v = value
    · subst hv
      exact ⟨name, by simp, hlt.trans (hold n' hnewest)⟩
    · exact ⟨n', by simpa [hv] using hnewest, hlt⟩
  dsimp only
  split
  case h_1 hnone => exact ⟨hset (by simp [hnone]), by simp⟩
  case h_2 newest hnewest =>
    split
    case isTrue hlt =>
      have hold : ∀ n, g.newest.get? value = some n → n < name := by
        rintro n hn
        obtain rfl := mem_unique hnewest hn
        exact hlt
      exact (hset hold).push (hnote.newest value newest hnewest) (by simp) hlt
    case isFalse hle =>
      split
      · exact ⟨hnote, by simp⟩
      case isFalse hne =>
        exact hnote.push hvalue hnewest (lt_of_le_of_ne (not_lt.mp hle) (Ne.symm hne))

/-- The fact about a record goes that is neither of the two newest of its value. -/
theorem Sound.erase (hnewest : ∀ v, f.newest.get? v ≠ some name)
    (hprior : ∀ v, f.prior.get? v ≠ some name) :
    ({ f with values := f.values.erase name } : FieldFacts).Sound ever := by
  have hkeep {n : Name} {v : String} (hne : n ≠ name) (hn : f.values.get? n = some v) :
      (f.values.erase name).get? n = some v := by
    simpa [hne] using hn
  refine ⟨fun n v hn => ?_, fun v n hn => ?_, fun v n hn => ?_, fun hord =>
    (h.ordered hord).sublist (List.filter_sublist.map _)⟩
  · exact h.holds n v (of_get?_erase hn).2
  · exact hkeep (fun heq => hnewest v (heq ▸ hn)) (h.newest v n hn)
  · obtain ⟨hvalue, hrest⟩ := h.prior v n hn
    exact ⟨hkeep (fun heq => hprior v (heq ▸ hn)) hvalue, hrest⟩

/-- A value loses the record before its newest one. -/
theorem Sound.erasePrior (value : String) :
    ({ f with prior := f.prior.erase value } : FieldFacts).Sound ever :=
  { h with prior := fun v n hn => h.prior v n (of_get?_erase hn).2 }

/-- A value of which only the newest record is known loses it, or has another one in its place. -/
theorem Sound.setNewest (hprior : f.prior.get? value = none) {newest : Dict String Name}
    (hother : ∀ v, v ≠ value → newest.get? v = f.newest.get? v)
    (hself : ∀ n, newest.get? value = some n → f.values.get? n = some value) :
    ({ f with newest } : FieldFacts).Sound ever := by
  refine ⟨h.holds, fun v n hn => ?_, fun v n hn => ?_, h.ordered⟩
  · by_cases hv : v = value
    · subst hv
      exact hself n hn
    · exact h.newest v n ((hother v hv).symm.trans hn)
  · have hv : v ≠ value := by
      rintro rfl
      simp [hprior] at hn
    obtain ⟨hvalue, n', hnewest, hlt⟩ := h.prior v n hn
    exact ⟨hvalue, n', (hother v hv).trans hnewest, hlt⟩

/-- A record is among the two newest of its own value only. -/
theorem Sound.value_unique (hname : f.values.get? name = some value)
    (hv : f.newest.get? v = some name ∨ f.prior.get? v = some name) : v = value := by
  have hget : f.values.get? name = some v := by
    rcases hv with hv | hv
    · exact h.newest v name hv
    · exact (h.prior v name hv).1
  exact mem_unique hget hname

/-- Facts may be forgotten. -/
lemma Sound.forget (name : Name) : (f.forget name).Sound ever := by
  unfold FieldFacts.forget
  split
  case h_1 => exact h
  case h_2 value hvalue =>
    split
    case isTrue hprior =>
      -- the newest record of the value is another one
      refine Sound.erase (h.erasePrior value) (fun v hv => ?_) fun v hv => ?_
      · obtain rfl := h.value_unique hvalue (.inl hv)
        obtain ⟨-, n', hnewest, hlt⟩ := h.prior v name hprior
        obtain rfl := mem_unique hnewest hv
        exact absurd hlt (lt_irrefl _)
      · obtain ⟨hne, hv⟩ := of_get?_erase hv
        exact hne (h.value_unique hvalue (.inr hv))
    case isFalse hprior =>
      split
      case isFalse hnewest =>
        refine h.erase (fun v hv => ?_) fun v hv => ?_
        · exact hnewest (h.value_unique hvalue (.inl hv) ▸ hv)
        · exact hprior (h.value_unique hvalue (.inr hv) ▸ hv)
      case isTrue hnewest =>
        split
        case h_1 hnone =>
          have hset : ({ f with newest := f.newest.erase value } : FieldFacts).Sound ever :=
            h.setNewest hnone (fun v hv => by simp [hv]) (by simp)
          refine Sound.erase hset (fun v hv => ?_) fun v hv => ?_
          · obtain ⟨hne, hv⟩ := of_get?_erase hv
            exact hne (h.value_unique hvalue (.inl hv))
          · exact hprior (h.value_unique hvalue (.inr hv) ▸ hv)
        case h_2 prior hsome =>
          have hne : prior ≠ name := by
            rintro rfl
            exact hprior hsome
          have hset : ({ f with
              newest := f.newest.set value prior
              prior := f.prior.erase value } : FieldFacts).Sound ever := by
            have hnone : (f.prior.erase value).get? value = none := by simp
            refine (h.erasePrior value).setNewest hnone (fun v hv => by simp [hv]) fun n hn => ?_
            obtain rfl : prior = n := by simpa using hn
            exact (h.prior value prior hsome).1
          refine Sound.erase hset (fun v hv => ?_) fun v hv => ?_
          · rcases get?_set_cases hv with ⟨-, heq⟩ | ⟨hne, hv⟩
            · exact hne heq.symm
            · exact hne (h.value_unique hvalue (.inl hv))
          · obtain ⟨hne, hv⟩ := of_get?_erase hv
            exact hne (h.value_unique hvalue (.inr hv))

/-- The oldest record goes. With it goes the newest of a value only if no older one is known. -/
theorem Sound.popOldest (hord : f.ordered) : f.popOldest.Sound ever ∧ f.popOldest.ordered := by
  unfold FieldFacts.popOldest
  split
  case h_1 => exact ⟨h, hord⟩
  case h_2 name value rest hitems =>
    have hvalue : f.values.get? name = some value :=
      mem_items_iff.mp (hitems ▸ mem_cons_self)
    have hleast {n : Name} (hn : n ∈ f.values.keys) : name ≤ n := by
      have hsorted := h.ordered hord
      rw [Dict.keys, hitems] at hn hsorted
      rcases mem_cons.mp hn with rfl | hn
      · exact le_rfl
      · exact ((pairwise_cons.mp hsorted).1 n hn).le
    split
    case isTrue hprior =>
      refine ⟨?_, hord⟩
      have hforget := h.forget name
      simpa only [FieldFacts.forget, hvalue, hprior, if_true] using hforget
    case isFalse hprior =>
      split
      case isTrue hnewest =>
        have hnone : f.prior.get? value = none := by
          by_contra hsome
          obtain ⟨n, hn⟩ := ne_none_iff_exists'.mp hsome
          obtain ⟨hn, n', hn', hlt⟩ := h.prior value n hn
          obtain rfl := mem_unique hn' hnewest
          exact absurd (hleast (mem_keys_iff.mpr ⟨value, hn⟩)) (not_le.mpr hlt)
        refine ⟨?_, hord⟩
        have hforget := h.forget name
        simpa [FieldFacts.forget, hvalue, hnewest, hnone] using hforget
      case isFalse hnewest =>
        refine ⟨?_, hord⟩
        have hforget := h.forget name
        simpa only [FieldFacts.forget, hvalue, hprior, hnewest, if_false] using hforget

/-- Sorting the facts keeps them sound. -/
lemma Sound.sort (table : ℕ) : (f.sort table).Sound ever ∧ (f.sort table).ordered := by
  have hperm : (f.sort table).values.items.Perm f.values.items := perm_insertionSort _ _
  have hget (n : Name) (v : String) :
      (f.sort table).values.get? n = some v ↔ f.values.get? n = some v := by
    rw [← mem_items_iff, ← mem_items_iff, hperm.mem_iff]
  refine ⟨⟨fun n v hn => h.holds n v ((hget n v).mp hn),
    fun v n hn => (hget n v).mpr (h.newest v n hn), fun v n hn => ?_, fun _ => ?_⟩, rfl⟩
  · obtain ⟨hvalue, hrest⟩ := h.prior v n hn
    exact ⟨(hget n v).mpr hvalue, hrest⟩
  · -- no name comes twice
    have hle : (f.sort table).values.keys.Pairwise (· ≤ ·) :=
      pairwise_map.mpr (pairwise_insertionSort _ _)
    exact (hle.and (f.sort table).values.nodup).imp fun h => lt_of_le_of_ne h.1 h.2

/-- So does shedding the oldest of them. -/
lemma Sound.shed (table excess : ℕ) : (f.shed table excess).Sound ever := by
  unfold FieldFacts.shed
  split
  case isTrue => exact h
  split
  case isTrue => exact ⟨by simp, by simp, by simp, by simp [Dict.keys, Dict.empty]⟩
  have hstart : (if f.ordered then f else f.sort table).Sound ever ∧
      (if f.ordered then f else f.sort table).ordered := by
    split
    case isTrue hord => exact ⟨h, hord⟩
    case isFalse => exact h.sort table
  generalize (if f.ordered then f else f.sort table) = g at hstart
  have hpop (n : ℕ) : (FieldFacts.popOldest^[n] g).Sound ever ∧
      (FieldFacts.popOldest^[n] g).ordered := by
    induction n with
    | zero => exact hstart
    | succ n ih =>
      rw [Function.iterate_succ_apply']
      exact ih.1.popOldest ih.2
  exact (hpop excess).1

/-- Several facts may be forgotten. -/
lemma Sound.foldl_forget (names : List Name) : (names.foldl FieldFacts.forget f).Sound ever := by
  induction names generalizing f with
  | nil => exact h
  | cons name names ih => exact ih (h.forget name)

/-- Sweeping the facts of records that have left keeps them sound. -/
lemma Sound.sweep (listing : List Name) (mark : Option Mark) (slack : ℕ) :
    (f.sweep listing mark slack).Sound ever := by
  unfold FieldFacts.sweep
  split
  · exact h
  · split
    · exact h.foldl_forget _
    · exact h

/-- What a scan or a pass has read is folded into the facts. A record holds one value. -/
theorem Sound.fold (hunique : ∀ n v v', ever n v → ever n v' → v = v')
    {learned : List (Name × String)} (hlearned : ∀ p ∈ learned, ever p.1 p.2) (listing : List Name)
    (mark : Option Mark) (gone : List Name) (slack : ℕ) :
    (f.fold learned listing mark gone slack).Sound ever := by
  refine Sound.sweep (Sound.foldl_forget ?_ gone) listing mark slack
  have hread : ∀ p ∈ learned.reverse, ever p.1 p.2 := fun p hp =>
    hlearned p (mem_reverse.mp hp)
  generalize learned.reverse = read at hread
  induction read generalizing f with
  | nil => exact h
  | cons p read ih =>
    have hp := hread p mem_cons_self
    refine ih ?_ fun q hq => hread q (mem_cons_of_mem _ hq)
    exact (h.learn hp fun v hv => hunique p.1 v p.2 (h.holds p.1 v hv) hp).1

end

end Sound

end FieldFacts

end Cronstable.NameKeyed
