import Mathlib.Algebra.GroupWithZero.Nat
import Mathlib.Algebra.Order.BigOperators.Group.Finset

/-!
# Insertion-ordered dictionaries

A dictionary in the sense of scripting languages: at most one value per key, iterated in the
order in which the keys were first inserted. Overwriting a key keeps its position, so a program
that rewrites a value in place leaves the iteration order alone, and two dictionaries built by
the same writes are equal as values.

`Dict κ ν` carries the uniqueness of its keys as a field. Lookups are stated through `get?`;
`Dict.get?_set`, `Dict.get?_erase` and `Dict.get?_mapVal` say what every update does to every
lookup, and the proofs of a client need nothing else.

## Main definitions

* `Dict.get?`, `Dict.contains`, `Dict.keys`, `Dict.values`: reading;
* `Dict.set`, `Dict.erase`, `Dict.mapVal`, `Dict.ofList`: writing.
-/

/-- A dictionary with distinct keys, in insertion order. -/
structure Dict (κ ν : Type*) where
  /-- The key-value pairs, oldest key first. -/
  items : List (κ × ν)
  /-- No key occurs twice. -/
  nodup : (items.map Prod.fst).Nodup

namespace Dict

open List

variable {κ ν μ : Type*}

variable {d : Dict κ ν}

/-- Dictionaries with the same items in the same order are equal. -/
@[ext]
theorem ext {d' : Dict κ ν} (h : d.items = d'.items) : d = d' := by
  cases d
  cases h
  rfl

instance [DecidableEq κ] [DecidableEq ν] : DecidableEq (Dict κ ν) := fun d d' =>
  decidable_of_iff (d.items = d'.items) ⟨Dict.ext, fun h => h ▸ rfl⟩

/-- The empty dictionary. -/
def empty : Dict κ ν := ⟨[], List.nodup_nil⟩

/-- The keys, oldest first. -/
def keys (d : Dict κ ν) : List κ := d.items.map Prod.fst

/-- The values, in the order of their keys. -/
def values (d : Dict κ ν) : List ν := d.items.map Prod.snd

variable {k k' : κ} {v : ν} {l : List (κ × ν)}

section Lookup

variable [DecidableEq κ]

/-- The value stored at `k`, if any. -/
def get? (d : Dict κ ν) (k : κ) : Option ν := d.items.lookup k

/-- Whether a value is stored at `k`. -/
def contains (d : Dict κ ν) (k : κ) : Bool := (d.get? k).isSome

@[simp]
lemma get?_empty (k : κ) : (empty : Dict κ ν).get? k = none := rfl

@[simp]
lemma contains_empty (k : κ) : (empty : Dict κ ν).contains k = false := rfl

/-- A key is present exactly when a lookup succeeds. -/
theorem contains_iff : d.contains k = true ↔ ∃ v, d.get? k = some v :=
  Option.isSome_iff_exists

/-- A key is absent exactly when a lookup fails. -/
theorem contains_eq_false_iff : d.contains k = false ↔ d.get? k = none := by
  simp [contains]

/-- A head pair with another key does not take part in a lookup. -/
private lemma lookup_cons_of_ne (v' : ν) (l : List (κ × ν)) (h : k ≠ k') :
    ((k', v') :: l).lookup k = l.lookup k := by
  have hne : (k == k') = false := beq_eq_false_iff_ne.mpr h
  rw [lookup_cons, hne]

/-- In an association list with distinct keys, a pair is a member exactly when its key looks up
to its value. -/
private lemma lookup_eq_some_iff_mem (h : (l.map Prod.fst).Nodup) :
    l.lookup k = some v ↔ (k, v) ∈ l := by
  induction l with
  | nil => simp
  | cons p l ih =>
    obtain ⟨k', v'⟩ := p
    simp only [map_cons, nodup_cons] at h
    by_cases hk : k = k'
    · subst hk
      -- the key of the head occurs nowhere in the tail
      have hnot : (k, v) ∉ l := fun hmem => h.1 (mem_map_of_mem (f := Prod.fst) hmem)
      simp [hnot, eq_comm]
    · rw [lookup_cons_of_ne v' l hk, ih h.2]
      simp [hk]

/-- The items are the graph of `get?`. -/
theorem mem_items_iff : (k, v) ∈ d.items ↔ d.get? k = some v :=
  (lookup_eq_some_iff_mem d.nodup).symm

/-- The values are the range of `get?`. -/
theorem mem_values_iff : v ∈ d.values ↔ ∃ k, d.get? k = some v := by
  simp only [values, mem_map, Prod.exists, exists_eq_right, mem_items_iff]

/-- The keys are the domain of `get?`. -/
theorem mem_keys_iff : k ∈ d.keys ↔ ∃ v, d.get? k = some v := by
  simp only [keys, mem_map, Prod.exists, exists_and_right, exists_eq_right, mem_items_iff]

end Lookup

section Set

variable [DecidableEq κ]

/-- Overwrite the value at `k` in place, or append the pair at the end. -/
private def setList (k : κ) (v : ν) : List (κ × ν) → List (κ × ν)
  | [] => [(k, v)]
  | (k', v') :: l => if k' = k then (k', v) :: l else (k', v') :: setList k v l

private lemma mem_keys_setList :
    k' ∈ (setList k v l).map Prod.fst ↔ k' = k ∨ k' ∈ l.map Prod.fst := by
  induction l with
  | nil => simp [setList]
  | cons p l ih =>
    obtain ⟨k₀, v₀⟩ := p
    by_cases h : k₀ = k
    · subst h
      simp [setList]
    · simp only [setList, h, if_false, map_cons, mem_cons, ih]
      tauto

private lemma nodup_setList (h : (l.map Prod.fst).Nodup) :
    ((setList k v l).map Prod.fst).Nodup := by
  induction l with
  | nil => simp [setList]
  | cons p l ih =>
    obtain ⟨k₀, v₀⟩ := p
    simp only [map_cons, nodup_cons] at h
    by_cases hk : k₀ = k
    · subst hk
      simpa [setList] using h
    · simp only [setList, hk, if_false, map_cons, nodup_cons]
      refine ⟨fun hmem => ?_, ih h.2⟩
      rcases mem_keys_setList.mp hmem with heq | hmem
      · exact hk heq
      · exact h.1 hmem

/-- Store `v` at `k`. A present key keeps its position; a new key goes last. -/
def set (d : Dict κ ν) (k : κ) (v : ν) : Dict κ ν :=
  ⟨setList k v d.items, nodup_setList d.nodup⟩

/-- What a write does to every lookup. -/
@[simp]
theorem get?_set (d : Dict κ ν) (k : κ) (v : ν) (k' : κ) :
    (d.set k v).get? k' = if k' = k then some v else d.get? k' := by
  obtain ⟨l, hl⟩ := d
  simp only [set, get?]
  clear hl
  induction l with
  | nil =>
    by_cases hk : k' = k
    · simp [setList, hk]
    · simp [setList, lookup_cons_of_ne v [] hk, hk]
  | cons p l ih =>
    obtain ⟨k₀, v₀⟩ := p
    by_cases h : k₀ = k
    · subst h
      by_cases hk : k' = k₀
      · simp [setList, hk]
      · simp [setList, lookup_cons_of_ne _ l hk, hk]
    · by_cases hk : k' = k₀
      · subst hk
        simp [setList, h]
      · simp only [setList, h, if_false, lookup_cons_of_ne _ _ hk, ih]

/-- Writing at `k` stores the value. -/
theorem get?_set_self (d : Dict κ ν) (k : κ) (v : ν) : (d.set k v).get? k = some v := by
  simp

/-- Writing at `k` leaves every other key alone. -/
theorem get?_set_of_ne (d : Dict κ ν) (v : ν) (h : k' ≠ k) : (d.set k v).get? k' = d.get? k' := by
  simp [h]

/-- A write of a new key keeps what is stored. -/
theorem get?_set_of_none {w : ν} (hnone : d.get? k = none) (h : d.get? k' = some v) :
    (d.set k w).get? k' = some v := by
  rw [get?_set, if_neg, h]
  rintro rfl
  simp [hnone] at h

/-- What is stored after a write was written, or was there. -/
theorem get?_set_cases {w : ν} (h : (d.set k w).get? k' = some v) :
    k' = k ∧ v = w ∨ k' ≠ k ∧ d.get? k' = some v := by
  rw [get?_set] at h
  split_ifs at h with hk
  · exact .inl ⟨hk, (Option.some.inj h).symm⟩
  · exact .inr ⟨hk, h⟩

lemma forall_set {P : κ → ν → Prop} (h : ∀ k v, d.get? k = some v → P k v) (hv : P k v) :
    ∀ k' w, (d.set k v).get? k' = some w → P k' w := by
  intro k' w hget
  rcases get?_set_cases hget with ⟨rfl, rfl⟩ | ⟨-, hget⟩
  · exact hv
  · exact h k' w hget

/-- After a write the written key is present and every other key is as before. -/
@[simp]
theorem contains_set (d : Dict κ ν) (k : κ) (v : ν) (k' : κ) :
    (d.set k v).contains k' = (decide (k' = k) || d.contains k') := by
  by_cases h : k' = k <;> simp [contains, h]

/-- Writing back the stored value changes nothing, the position of the key included. -/
theorem set_eq_self (h : d.get? k = some v) : d.set k v = d := by
  apply Dict.ext
  obtain ⟨l, hl⟩ := d
  simp only [set, get?] at h ⊢
  clear hl
  induction l with
  | nil => simp at h
  | cons p l ih =>
    obtain ⟨k₀, v₀⟩ := p
    by_cases hk : k₀ = k
    · subst hk
      simp only [lookup_cons_self, Option.some.injEq] at h
      simp [setList, h]
    · rw [lookup_cons_of_ne v₀ l (Ne.symm hk)] at h
      simp [setList, hk, ih h]

/-- A new key goes last. -/
theorem items_set_of_get?_eq_none (v : ν) (h : d.get? k = none) :
    (d.set k v).items = d.items ++ [(k, v)] := by
  obtain ⟨l, hl⟩ := d
  simp only [set, get?] at h ⊢
  clear hl
  induction l with
  | nil => rfl
  | cons p l ih =>
    obtain ⟨k₀, v₀⟩ := p
    by_cases hk : k₀ = k
    · subst hk
      simp at h
    · rw [lookup_cons_of_ne v₀ l (Ne.symm hk)] at h
      simp [setList, hk, ih h]

/-- Overwriting a value exchanges it in every count. -/
theorem countP_values_set (h : d.get? k = some v) (p : ν → Bool) (w : ν) :
    (d.set k w).values.countP p + (if p v then 1 else 0) =
      d.values.countP p + (if p w then 1 else 0) := by
  obtain ⟨l, hl⟩ := d
  simp only [set, get?, values] at h ⊢
  clear hl
  induction l with
  | nil => simp at h
  | cons q l ih =>
    obtain ⟨k₀, v₀⟩ := q
    by_cases hk : k₀ = k
    · subst hk
      simp only [lookup_cons_self, Option.some.injEq] at h
      subst h
      simp only [setList, if_true, map_cons, countP_cons]
      omega
    · rw [lookup_cons_of_ne v₀ l (Ne.symm hk)] at h
      simp only [setList, hk, if_false, map_cons, countP_cons]
      have := ih h
      omega

/-- The dictionary built by writing a list of pairs from left to right: the last value written
at a key is the one kept. -/
def ofList (l : List (κ × ν)) : Dict κ ν := l.foldl (fun d p => d.set p.1 p.2) empty

/-- Writing pairs with distinct keys: a written key has its pair's value, any other its old one. -/
theorem get?_foldl_set {α : Type*} (key : α → κ) (val : α → ν) {l : List α}
    (h : (l.map key).Nodup) (d : Dict κ ν) (k : κ) (v : ν) :
    (l.foldl (fun d a => d.set (key a) (val a)) d).get? k = some v ↔
      (∃ a ∈ l, key a = k ∧ val a = v) ∨ (k ∉ l.map key ∧ d.get? k = some v) := by
  induction l generalizing d with
  | nil => simp
  | cons a l ih =>
    obtain ⟨ha, hl⟩ := nodup_cons.mp (map_cons ▸ h)
    rw [foldl_cons, ih hl, get?_set]
    by_cases hk : k = key a
    · subst hk
      -- the key of the head is not written again
      have hnot : ∀ b ∈ l, key b ≠ key a := fun b hb heq => ha (heq ▸ mem_map_of_mem hb)
      constructor
      · rintro (⟨b, hb, heq, -⟩ | ⟨-, hv⟩)
        · exact absurd heq (hnot b hb)
        · exact .inl ⟨a, mem_cons_self, rfl, by simpa using hv⟩
      · rintro (⟨b, hb, heq, hv⟩ | ⟨hn, -⟩)
        · rcases mem_cons.mp hb with rfl | hb
          · exact .inr ⟨ha, by simp [hv]⟩
          · exact absurd heq (hnot b hb)
        · exact absurd (by simp) hn
    · rw [if_neg hk]
      simp only [mem_cons, exists_eq_or_imp, map_cons, hk, false_or]
      have hne : ¬ key a = k := fun h => hk h.symm
      simp [hne]

/-- With distinct keys the dictionary built from a list has exactly its pairs. -/
theorem get?_ofList (h : (l.map Prod.fst).Nodup) : (ofList l).get? k = some v ↔ (k, v) ∈ l := by
  rw [ofList, get?_foldl_set Prod.fst Prod.snd h]
  simp

/-- The dictionary built from a list has no other pairs. -/
theorem mem_of_get?_ofList (h : (ofList l).get? k = some v) : (k, v) ∈ l := by
  suffices hall : ∀ d : Dict κ ν, (l.foldl (fun d p => d.set p.1 p.2) d).get? k = some v →
      (k, v) ∈ l ∨ d.get? k = some v from
    (hall empty h).resolve_right (by simp)
  clear h
  induction l with
  | nil => exact fun d h => .inr h
  | cons p l ih =>
    intro d h
    rcases ih (d.set p.1 p.2) h with hmem | hset
    · exact .inl (mem_cons_of_mem _ hmem)
    · rw [get?_set] at hset
      split at hset
      case isTrue hk =>
        cases hset
        exact .inl (hk ▸ mem_cons_self)
      case isFalse => exact .inr hset

end Set

section MapVal

variable [DecidableEq κ]

/-- Rewrite every value in place. -/
def mapVal (f : κ → ν → μ) (d : Dict κ ν) : Dict κ μ :=
  ⟨d.items.map fun p => (p.1, f p.1 p.2), by
    have h : (fun p : κ × ν => (p.1, f p.1 p.2).1) = Prod.fst := rfl
    rw [List.map_map, Function.comp_def, h]
    exact d.nodup⟩

/-- What a rewrite of every value does to every lookup. -/
@[simp]
theorem get?_mapVal (f : κ → ν → μ) (d : Dict κ ν) (k : κ) :
    (d.mapVal f).get? k = (d.get? k).map (f k) := by
  obtain ⟨l, hl⟩ := d
  simp only [mapVal, get?]
  clear hl
  induction l with
  | nil => rfl
  | cons p l ih =>
    obtain ⟨k₀, v₀⟩ := p
    by_cases hk : k = k₀
    · subst hk
      simp
    · simp only [map_cons, lookup_cons_of_ne _ _ hk, ih]

end MapVal

section Filter

/-- Keep the pairs that satisfy `p`. -/
def filter (p : κ → ν → Bool) (d : Dict κ ν) : Dict κ ν :=
  ⟨d.items.filter fun q => p q.1 q.2, d.nodup.sublist (List.filter_sublist.map _)⟩

variable [DecidableEq κ]

/-- What a filter does to every lookup. -/
theorem get?_filter_eq_some {p : κ → ν → Bool} :
    (d.filter p).get? k = some v ↔ d.get? k = some v ∧ p k v = true := by
  rw [← mem_items_iff, ← mem_items_iff]
  simp [filter]

/-- Remove the pair at `k`, if any. -/
def erase (d : Dict κ ν) (k : κ) : Dict κ ν := d.filter fun k' _ => decide (k' ≠ k)

/-- What a removal does to every lookup. -/
@[simp]
theorem get?_erase (d : Dict κ ν) (k k' : κ) :
    (d.erase k).get? k' = if k' = k then none else d.get? k' := by
  apply Option.ext
  intro v
  by_cases h : k' = k <;> simp [erase, get?_filter_eq_some, h]

/-- What is stored after a removal was there, at another key. -/
theorem of_get?_erase (h : (d.erase k).get? k' = some v) : k' ≠ k ∧ d.get? k' = some v := by
  rw [get?_erase] at h
  split_ifs at h with hk
  exact ⟨hk, h⟩

end Filter

section Total

variable [DecidableEq κ]

/-- The sum of a weight over the values. -/
def total (f : ν → ℕ) (d : Dict κ ν) : ℕ := (d.values.map f).sum

/-- A total is a sum over the keys. -/
theorem total_eq_sum_keys (f : ν → ℕ) (d : Dict κ ν) :
    d.total f = ∑ k ∈ d.keys.toFinset, ((d.get? k).map f).getD 0 := by
  rw [keys, sum_toFinset _ d.nodup, total, values, map_map, map_map]
  refine congrArg List.sum (map_congr_left fun p hp => ?_)
  have hget : d.get? p.1 = some p.2 := mem_items_iff.mp hp
  simp [hget]

/-- A total does not grow when every value left replaces one of at least its weight. -/
theorem total_mono {f : ν → ℕ} {d' : Dict κ ν}
    (h : ∀ k v', d'.get? k = some v' → ∃ v, d.get? k = some v ∧ f v' ≤ f v) :
    d'.total f ≤ d.total f := by
  rw [total_eq_sum_keys, total_eq_sum_keys]
  have hkeys : d'.keys.toFinset ⊆ d.keys.toFinset := fun k hk => by
    obtain ⟨v', hv'⟩ := mem_keys_iff.mp (mem_toFinset.mp hk)
    obtain ⟨v, hv, -⟩ := h k v' hv'
    exact mem_toFinset.mpr (mem_keys_iff.mpr ⟨v, hv⟩)
  refine (Finset.sum_le_sum fun k hk => ?_).trans (Finset.sum_le_sum_of_subset hkeys)
  obtain ⟨v', hv'⟩ := mem_keys_iff.mp (mem_toFinset.mp hk)
  obtain ⟨v, hv, hle⟩ := h k v' hv'
  simpa [hv, hv'] using hle

/-- Writing a value adds at most its weight to a total. -/
theorem total_set_le (f : ν → ℕ) (d : Dict κ ν) (k : κ) (v : ν) :
    (d.set k v).total f ≤ d.total f + f v := by
  rw [total_eq_sum_keys, total_eq_sum_keys]
  have hkeys : (d.set k v).keys.toFinset = insert k d.keys.toFinset := by
    ext k'
    simp only [mem_toFinset, mem_keys_iff, Finset.mem_insert, get?_set]
    by_cases hk : k' = k <;> simp [hk]
  -- the key written counts once, every other key as before
  rw [hkeys, ← Finset.insert_erase (Finset.mem_insert_self k d.keys.toFinset),
    Finset.sum_insert (Finset.notMem_erase _ _), get?_set_self]
  have hrest : ∑ k' ∈ (insert k d.keys.toFinset).erase k, (((d.set k v).get? k').map f).getD 0 ≤
      ∑ k' ∈ d.keys.toFinset, ((d.get? k').map f).getD 0 := by
    refine (Finset.sum_le_sum fun k' hk' => ?_).trans
      (Finset.sum_le_sum_of_subset (Finset.erase_insert_subset k d.keys.toFinset))
    rw [get?_set_of_ne d v (Finset.ne_of_mem_erase hk')]
  show f v + _ ≤ _
  omega

end Total

end Dict
