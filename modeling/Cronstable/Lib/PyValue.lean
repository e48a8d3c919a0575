import Mathlib.Data.List.Nodup
import Mathlib.Data.Rat.Defs

/-!
# Values with identity

The data that a scripting language keeps in nested dictionaries and lists. A dictionary is an
object: besides its items it has an address, so that a program can tell two equal dictionaries
apart, and can share one. `PyValue` is the tree that such a value unfolds to; every dictionary in it
is labelled with its address. `strip` forgets the addresses, and two values are `Alike` when nothing
else tells them apart.

`Agree` relates two dictionaries with the same keys, key by key, and `Like` two that are alike but
for such keys. A program that overwrites the keys where a relation is weaker than `Alike` makes the
dictionaries alike, one key at a time (`Like.set`, `Like.refine`).

## Main definitions

* `PyValue.fold`: recursion over a value, from which the other traversals are made;
* `PyValue.strip`, `PyValue.Alike`, `PyValue.addrs`: identity;
* `Items.get`, `Items.set`, `Items.erase`, `Items.update`: dictionaries as lists of items;
* `Items.Agree`, `Items.Like`: two dictionaries, key by key.
-/

/-- A floating-point number. The two zeros are one. -/
inductive PyFloat where
  | finite (q : Rat)
  | infinity (negative : Bool)
  | nan
deriving DecidableEq

/-- A value of nested dictionaries and lists. -/
inductive PyValue where
  | null
  | bool (b : Bool)
  | int (n : ℤ)
  | float (x : PyFloat)
  | str (s : String)
  | list (elems : List PyValue)
  /-- The dictionary object at `addr`, its items in insertion order. -/
  | dict (addr : ℕ) (items : List (String × PyValue))

/-- The items of a dictionary, in insertion order. -/
abbrev Items := List (String × PyValue)

namespace PyValue

open List PyValue

/-- Neither a list nor a dictionary. -/
def isAtom : PyValue → Bool
  | .list _ | .dict _ _ => false
  | _ => true

/-- `v is None`. -/
def isNull : PyValue → Bool
  | .null => true
  | _ => false

/-- `id(v)`, for a dictionary. -/
def addr : PyValue → ℕ
  | .dict a _ => a
  | _ => 0

@[simp]
lemma addr_dict (a : ℕ) (items : Items) : (dict a items).addr = a := rfl

/-- Induction over a value, with one case for all atoms. -/
@[elab_as_elim]
theorem induction {P : PyValue → Prop} (atom : ∀ v : PyValue, v.isAtom = true → P v)
    (list : ∀ elems, (∀ v ∈ elems, P v) → P (.list elems))
    (dict : ∀ addr items, (∀ p ∈ items, P p.2) → P (.dict addr items)) (v : PyValue) : P v := by
  refine rec (motive_1 := P) (motive_2 := fun elems => ∀ v ∈ elems, P v)
    (motive_3 := fun items => ∀ p ∈ items, P p.2) (motive_4 := fun p => P p.2)
    (atom _ rfl) (fun _ => atom _ rfl) (fun _ => atom _ rfl) (fun _ => atom _ rfl)
    (fun _ => atom _ rfl) list dict ?_ ?_ ?_ ?_ (fun _ _ h => h) v
  · simp
  · intro head tail hhead htail
    exact forall_mem_cons.mpr ⟨hhead, htail⟩
  · simp
  · intro head tail hhead htail
    exact forall_mem_cons.mpr ⟨hhead, htail⟩

variable {v : PyValue}

section Fold

variable {α : Type*} (atom : PyValue → α) (list : List α → α) (dict : ℕ → List (String × α) → α)

mutual

/-- Replace the constructors of a value, from the leaves up. -/
def fold : PyValue → α
  | .list elems => list (foldElems elems)
  | .dict addr items => dict addr (foldItems items)
  | v => atom v

/-- `fold`, on the elements of a list. -/
def foldElems : List PyValue → List α
  | [] => []
  | v :: vs => fold v :: foldElems vs

/-- `fold`, on the items of a dictionary. -/
def foldItems : List (String × PyValue) → List (String × α)
  | [] => []
  | (k, v) :: rest => (k, fold v) :: foldItems rest

end

lemma fold_atom (h : v.isAtom = true) : fold atom list dict v = atom v := by
  cases v with
  | list | dict => simp [isAtom] at h
  | _ => rfl

lemma fold_list (elems : List PyValue) :
    fold atom list dict (.list elems) = list (elems.map (fold atom list dict)) := by
  have h : foldElems atom list dict elems = elems.map (fold atom list dict) := by
    induction elems with
    | nil => rfl
    | cons v vs ih => simp only [foldElems, ih, map_cons]
  rw [fold, h]

lemma fold_dict (addr : ℕ) (items : Items) :
    fold atom list dict (.dict addr items) =
      dict addr (items.map fun p => (p.1, fold atom list dict p.2)) := by
  have h : foldItems atom list dict items = items.map fun p => (p.1, fold atom list dict p.2) := by
    induction items with
    | nil => rfl
    | cons p rest ih => simp only [foldItems, ih, map_cons]
  rw [fold, h]

end Fold

variable {w : PyValue}

section Identity

/-- The value without the addresses. -/
def strip : PyValue → PyValue := fold id .list fun _ items => .dict 0 items

lemma strip_atom (h : v.isAtom = true) : v.strip = v := fold_atom _ _ _ h

@[simp]
lemma strip_list (elems : List PyValue) : (list elems).strip = .list (elems.map strip) :=
  fold_list _ _ _ elems

@[simp]
lemma strip_dict (a : ℕ) (items : Items) :
    (dict a items).strip = .dict 0 (items.map fun p => (p.1, p.2.strip)) :=
  fold_dict _ _ _ a items

@[simp]
lemma strip_null : null.strip = .null := rfl

@[simp]
lemma strip_bool (b : Bool) : (bool b).strip = .bool b := rfl

@[simp]
lemma strip_int (n : ℤ) : (int n).strip = .int n := rfl

@[simp]
lemma strip_float (x : PyFloat) : (float x).strip = .float x := rfl

@[simp]
lemma strip_str (s : String) : (str s).strip = .str s := rfl

@[simp]
lemma isNull_strip (v : PyValue) : v.strip.isNull = v.isNull := by
  cases v <;> simp [isNull]

/-- The values are the same but for the identity of their dictionaries. -/
def Alike (v w : PyValue) : Prop := v.strip = w.strip

lemma Alike.refl (v : PyValue) : v.Alike v := rfl

lemma Alike.isNull (h : v.Alike w) : v.isNull = w.isNull := by
  rw [← isNull_strip v, h, isNull_strip]

/-- What is alike to a dictionary is one, with items that are alike. -/
theorem Alike.exists_dict {a : ℕ} {items : Items} (h : (dict a items).Alike w) :
    ∃ b items', w = .dict b items' ∧
      items.map (fun p => (p.1, p.2.strip)) = items'.map fun p => (p.1, p.2.strip) := by
  cases w with
  | dict b items' =>
    rw [Alike, strip_dict, strip_dict, dict.injEq] at h
    exact ⟨b, items', rfl, h.2⟩
  | _ => simp [Alike] at h

/-- The addresses of the dictionaries in a value. -/
def addrs : PyValue → List ℕ :=
  fold (fun _ => []) List.flatten fun a items => a :: items.flatMap Prod.snd

lemma mem_addrs_dict {a b : ℕ} {items : Items} :
    b ∈ (dict a items).addrs ↔ b = a ∨ ∃ p ∈ items, b ∈ p.2.addrs := by
  simp [addrs, fold_dict, mem_flatMap]

lemma mem_addrs_list {b : ℕ} {elems : List PyValue} :
    b ∈ (list elems).addrs ↔ ∃ v ∈ elems, b ∈ v.addrs := by
  simp [addrs, fold_list]

end Identity

section Equality

/-- The number that a boolean, an integer or a finite float is. -/
def number? : PyValue → Option Rat
  | .bool b => some (if b then 1 else 0)
  | .int n => some n
  | .float (.finite q) => some q
  | _ => none

/-- `==`, with an atom on the left. Numbers are compared by value, whatever their types, and a `NaN`
is equal to nothing. -/
def atomEq (v w : PyValue) : Bool :=
  match v.number?, w.number? with
  | some x, some y => x == y
  | none, none =>
    match v, w with
    | .null, .null => true
    | .str s, .str t => s == t
    | .float (.infinity negative), .float (.infinity negative') => negative == negative'
    | _, _ => false
  | _, _ => false

/-- `==` on values. The order of the items does not matter. -/
def pyEq : PyValue → PyValue → Bool :=
  fold atomEq
    (fun elems w =>
      match w with
      | .list ws => elems.length == ws.length && (elems.zip ws).all fun p => p.1 p.2
      | _ => false)
    (fun _ items w =>
      match w with
      | .dict _ items' =>
        items.length == items'.length && items.all fun p => (items'.lookup p.1).any p.2
      | _ => false)

/-- Identity plays no part in equality. -/
theorem pyEq_strip (v : PyValue) : v.strip.pyEq = v.pyEq := by
  induction v using induction with
  | atom v h => rw [strip_atom h]
  | list elems ih =>
    have h : elems.map (pyEq ∘ strip) = elems.map pyEq := map_congr_left ih
    rw [strip_list]
    unfold pyEq at h ⊢
    rw [fold_list, fold_list, map_map, h]
  | dict a items ih =>
    have h : items.map ((fun p => (p.1, pyEq p.2)) ∘ fun p => (p.1, p.2.strip)) =
        items.map fun p => (p.1, pyEq p.2) :=
      map_congr_left fun p hp => Prod.ext rfl (ih p hp)
    rw [strip_dict]
    unfold pyEq at h ⊢
    rw [fold_dict, fold_dict, map_map, h]

lemma Alike.pyEq (h : v.Alike w) : v.pyEq = w.pyEq := by
  rw [← pyEq_strip v, h, pyEq_strip]

end Equality

end PyValue

namespace Items

open PyValue

/-- `d.get(k)`: missing keys read as null. -/
def get (items : Items) (k : String) : PyValue := (items.lookup k).getD .null

/-- `d[k] = v`: overwrite in place, or append. -/
def set (k : String) (v : PyValue) : Items → Items
  | [] => [(k, v)]
  | (k', v') :: rest => if k' = k then (k', v) :: rest else (k', v') :: set k v rest

/-- The items of the other keys. -/
def erase (items : Items) (k : String) : Items := items.filter fun p => p.1 ≠ k

/-- `d.update(new)`. -/
def update (items new : Items) : Items := new.foldl (fun d p => d.set p.1 p.2) items

/-- The keys, oldest first. -/
def keys (items : Items) : List String := items.map Prod.fst

/-- The items without the addresses of their values. -/
def strip (items : Items) : Items := items.map fun p => (p.1, p.2.strip)

lemma alike_dict_iff {a b : ℕ} {items items' : Items} :
    (dict a items).Alike (.dict b items') ↔ items.strip = items'.strip := by
  rw [Alike, strip_dict, strip_dict, dict.injEq]
  exact ⟨fun h => h.2, fun h => ⟨rfl, h⟩⟩

variable {k j : String} {p : String × PyValue}

section Lookup

lemma lookup_cons_self (p : String × PyValue) (rest : Items) :
    (p :: rest).lookup p.1 = some p.2 := by
  obtain ⟨k, v⟩ := p
  simp

lemma lookup_cons_ne (h : k ≠ p.1) (rest : Items) : (p :: rest).lookup k = rest.lookup k := by
  obtain ⟨j, v⟩ := p
  have hne : (k == j) = false := beq_eq_false_iff_ne.mpr h
  rw [List.lookup_cons, hne]

lemma get_cons_self (k : String) (v : PyValue) (rest : Items) :
    Items.get ((k, v) :: rest) k = v := by
  rw [get, lookup_cons_self (k, v), Option.getD_some]

lemma get_cons_ne (h : j ≠ k) (v : PyValue) (rest : Items) :
    Items.get ((k, v) :: rest) j = Items.get rest j := by
  rw [get, lookup_cons_ne (p := (k, v)) h, get]

end Lookup

section Strip

/-- A lookup finds the stripped value. -/
theorem lookup_strip (items : Items) (k : String) :
    items.strip.lookup k = (items.lookup k).map PyValue.strip := by
  induction items with
  | nil => rfl
  | cons p rest ih =>
    have hstrip : Items.strip (p :: rest) = (p.1, p.2.strip) :: Items.strip rest := rfl
    rw [hstrip]
    by_cases hk : k = p.1
    · subst hk
      rw [lookup_cons_self (p.1, p.2.strip), lookup_cons_self]
      rfl
    · rw [lookup_cons_ne (p := (p.1, p.2.strip)) hk, lookup_cons_ne hk, ih]

lemma get_strip (items : Items) (k : String) : items.strip.get k = (items.get k).strip := by
  rw [get, lookup_strip, get]
  cases items.lookup k <;> rfl

/-- Stripped alike, two dictionaries read alike. -/
theorem get_alike {items items' : Items} (h : items.strip = items'.strip) (k : String) :
    (items.get k).Alike (items'.get k) := by
  rw [Alike, ← get_strip, ← get_strip, h]

lemma strip_set (items : Items) (k : String) (v : PyValue) :
    (items.set k v).strip = items.strip.set k v.strip := by
  induction items with
  | nil => rfl
  | cons p rest ih =>
    by_cases hk : p.1 = k
    · simp [set, strip, hk]
    · simpa [set, strip, hk] using ih

lemma strip_erase (items : Items) (k : String) : (items.erase k).strip = items.strip.erase k := by
  simp [erase, strip, List.filter_map, Function.comp_def]

lemma strip_update (items new : Items) :
    (items.update new).strip = items.strip.update new.strip := by
  induction new generalizing items with
  | nil => rfl
  | cons p rest ih =>
    have h := ih (items.set p.1 p.2)
    rw [strip_set] at h
    exact h

end Strip

variable {v : PyValue}

section Keys

variable {items : Items}

lemma mem_keys_set : j ∈ (items.set k v).keys ↔ j = k ∨ j ∈ items.keys := by
  induction items with
  | nil => simp [set, keys]
  | cons p rest ih =>
    by_cases hk : p.1 = k
    · subst hk
      simp [set, keys]
    · simp only [keys] at ih
      simp only [set, hk, if_false, keys, List.map_cons, List.mem_cons, ih]
      tauto

/-- Overwriting leaves the keys distinct. -/
theorem nodup_set (h : items.keys.Nodup) (k : String) (v : PyValue) :
    (items.set k v).keys.Nodup := by
  induction items with
  | nil => simp [set, keys]
  | cons p rest ih =>
    obtain ⟨hnot, hrest⟩ := List.nodup_cons.mp h
    by_cases hk : p.1 = k
    · simpa [set, hk, keys] using h
    · have hnot' : p.1 ∉ (set k v rest).keys := by
        rw [mem_keys_set]
        rintro (heq | hmem)
        exacts [hk heq, hnot hmem]
      simpa [set, hk, keys] using ⟨by simpa [keys] using hnot', ih hrest⟩

lemma nodup_update (h : items.keys.Nodup) (new : Items) : (items.update new).keys.Nodup := by
  induction new generalizing items with
  | nil => exact h
  | cons p rest ih => exact ih (nodup_set h p.1 p.2)

lemma mem_set (h : p ∈ items.set k v) : p = (k, v) ∨ p ∈ items := by
  induction items with
  | nil => exact .inl (List.mem_singleton.mp h)
  | cons q rest ih =>
    by_cases hk : q.1 = k
    · rw [set, if_pos hk] at h
      rcases List.mem_cons.mp h with rfl | h
      · exact .inl (by rw [hk])
      · exact .inr (List.mem_cons_of_mem _ h)
    · rw [set, if_neg hk] at h
      rcases List.mem_cons.mp h with rfl | h
      · exact .inr List.mem_cons_self
      · exact (ih h).imp_right (List.mem_cons_of_mem _)

/-- An item of an updated dictionary comes from one side. -/
theorem mem_update {new : Items} (h : p ∈ items.update new) : p ∈ items ∨ p ∈ new := by
  induction new generalizing items with
  | nil => exact .inl h
  | cons q rest ih =>
    rcases ih h with h | h
    · rcases mem_set h with rfl | h
      · exact .inr List.mem_cons_self
      · exact .inl h
    · exact .inr (List.mem_cons_of_mem _ h)

/-- A new key goes to the end. -/
theorem set_of_not_mem (h : k ∉ items.keys) (v : PyValue) : items.set k v = items ++ [(k, v)] := by
  induction items with
  | nil => rfl
  | cons p rest ih =>
    have hne : k ≠ p.1 := fun heq => h (heq ▸ List.mem_cons_self)
    have hrest : k ∉ keys rest := fun hmem => h (List.mem_cons_of_mem _ hmem)
    rw [set, if_neg (Ne.symm hne), ih hrest, List.cons_append]

/-- With distinct keys, an item is what its key reads. -/
theorem get_of_mem (h : items.keys.Nodup) (hp : p ∈ items) : items.get p.1 = p.2 := by
  induction items with
  | nil => simp at hp
  | cons q rest ih =>
    obtain ⟨hnot, hrest⟩ := List.nodup_cons.mp h
    rcases List.mem_cons.mp hp with rfl | hp
    · rw [get, lookup_cons_self, Option.getD_some]
    · have hne : p.1 ≠ q.1 := fun heq => hnot (heq ▸ List.mem_map_of_mem hp)
      rw [get, lookup_cons_ne hne]
      exact ih hrest hp

/-- A key that is not overwritten reads as before. -/
theorem get_set_of_ne (hne : j ≠ k) (items : Items) (v : PyValue) :
    (items.set k v).get j = items.get j := by
  induction items with
  | nil => rw [get, set, lookup_cons_ne hne, get]
  | cons p rest ih =>
    by_cases hk : p.1 = k
    · have hj : j ≠ p.1 := hk ▸ hne
      rw [set, if_pos hk, get, get, lookup_cons_ne (p := (p.1, v)) hj, lookup_cons_ne hj]
    · rw [set, if_neg hk, get, get]
      by_cases hj : j = p.1
      · rw [hj, lookup_cons_self, lookup_cons_self]
      · rw [lookup_cons_ne (p := (p.1, p.2)) hj, lookup_cons_ne hj]
        exact ih

lemma get_update_of_not_mem {new : Items} (h : k ∉ new.keys) :
    (items.update new).get k = items.get k := by
  induction new generalizing items with
  | nil => rfl
  | cons p rest ih =>
    have hne : k ≠ p.1 := fun heq => h (heq ▸ List.mem_cons_self)
    have hrest : k ∉ keys rest := fun hmem => h (List.mem_cons_of_mem _ hmem)
    exact (ih hrest).trans (get_set_of_ne hne items p.2)

end Keys

section Agree

/-- Two dictionaries with the same keys in the same order, whose values are related key by key. -/
structure Agree (R : String → PyValue → PyValue → Prop) (items items' : Items) : Prop where
  distinct : items.keys.Nodup
  related : List.Forall₂ (fun p q => p.1 = q.1 ∧ R p.1 p.2 q.2) items items'

variable {R S : String → PyValue → PyValue → Prop} {items items' : Items}

/-- Values that are alike at every key strip to the same items. -/
theorem Agree.strip_eq (h : Agree (fun _ => Alike) items items') : items.strip = items'.strip := by
  obtain ⟨-, h⟩ := h
  induction h with
  | nil => rfl
  | cons hp _ ih =>
    simp only [strip, List.map_cons] at ih ⊢
    rw [ih, hp.1, hp.2]

/-- The two lookups of a key. -/
theorem Agree.lookup (h : Agree R items items') (k : String) :
    (items.lookup k = none ∧ items'.lookup k = none) ∨
      ∃ v w, items.lookup k = some v ∧ items'.lookup k = some w ∧ R k v w := by
  obtain ⟨-, h⟩ := h
  induction h with
  | nil => exact .inl ⟨rfl, rfl⟩
  | @cons p q _ _ hp _ ih =>
    by_cases hk : k = p.1
    · subst hk
      exact .inr ⟨p.2, q.2, lookup_cons_self p _, hp.1 ▸ lookup_cons_self q _, hp.2⟩
    · rw [lookup_cons_ne hk, lookup_cons_ne (hp.1 ▸ hk)]
      exact ih

/-- Away from a key that does not occur, the relation may change. -/
private lemma related_elsewhere (hrest : ∀ j, j ≠ k → ∀ v w, R j v w → S j v w)
    {items items' : Items} (h : List.Forall₂ (fun p q => p.1 = q.1 ∧ R p.1 p.2 q.2) items items')
    (hnot : k ∉ items.keys) : List.Forall₂ (fun p q => p.1 = q.1 ∧ S p.1 p.2 q.2) items items' := by
  induction h with
  | nil => exact .nil
  | @cons p q rest _ hp _ ih =>
    have hne : p.1 ≠ k := fun heq => hnot (heq ▸ List.mem_cons_self)
    exact .cons ⟨hp.1, hrest _ hne _ _ hp.2⟩ (ih fun hmem => hnot (List.mem_cons_of_mem _ hmem))

/-- Change the relation at one key, where it holds of what the key reads. -/
theorem Agree.refine (h : Agree R items items') (k : String)
    (hk : ∀ v w, items.lookup k = some v → items'.lookup k = some w → R k v w → S k v w)
    (hrest : ∀ j, j ≠ k → ∀ v w, R j v w → S j v w) : Agree S items items' := by
  refine ⟨h.distinct, ?_⟩
  obtain ⟨hdistinct, h⟩ := h
  induction h with
  | nil => exact .nil
  | @cons p q rest rest' hp hforall ih =>
    obtain ⟨hnot, hnodup⟩ := List.nodup_cons.mp hdistinct
    by_cases hpk : p.1 = k
    · subst hpk
      have hleft := lookup_cons_self p rest
      have hright : (q :: rest').lookup p.1 = some q.2 := hp.1 ▸ lookup_cons_self q rest'
      exact .cons ⟨hp.1, hk _ _ hleft hright hp.2⟩ (related_elsewhere hrest hforall hnot)
    · refine .cons ⟨hp.1, hrest _ hpk _ _ hp.2⟩ (ih (fun v w hv hw => hk v w ?_ ?_) hnodup)
      · rw [lookup_cons_ne (Ne.symm hpk), hv]
      · rw [lookup_cons_ne (hp.1 ▸ Ne.symm hpk), hw]

/-- Overwrite one key on both sides. -/
theorem Agree.set (h : Agree R items items') {w : PyValue} (hk : S k v w)
    (hrest : ∀ j, j ≠ k → ∀ v w, R j v w → S j v w) : Agree S (items.set k v) (items'.set k w) := by
  refine ⟨nodup_set h.distinct k v, ?_⟩
  obtain ⟨hdistinct, h⟩ := h
  induction h with
  | nil => exact .cons ⟨rfl, hk⟩ .nil
  | @cons p q rest rest' hp hforall ih =>
    obtain ⟨hnot, hnodup⟩ := List.nodup_cons.mp hdistinct
    by_cases hpk : p.1 = k
    · have hqk : q.1 = k := hp.1 ▸ hpk
      simp only [Items.set, hpk, hqk, if_true]
      exact .cons ⟨rfl, hk⟩ (related_elsewhere hrest hforall (hpk ▸ hnot))
    · have hqk : q.1 ≠ k := hp.1 ▸ hpk
      simp only [Items.set, hpk, hqk, if_false]
      exact .cons ⟨hp.1, hrest _ hpk _ _ hp.2⟩ (ih hnodup)

/-- The dictionaries are alike, but for values that `R` relates. -/
def Like (R : String → PyValue → PyValue → Prop) (items items' : Items) : Prop :=
  items.strip = items'.strip ∨ Agree R items items'

lemma Like.get (h : Like R items items') (k : String) (hk : ∀ v w, v.Alike w → R k v w) :
    R k (items.get k) (items'.get k) := by
  rcases h with h | h
  · exact hk _ _ (get_alike h k)
  · rcases h.lookup k with ⟨hleft, hright⟩ | ⟨v, w, hleft, hright, hvw⟩
    · rw [Items.get, Items.get, hleft, hright]
      exact hk _ _ (.refl _)
    · rwa [Items.get, Items.get, hleft, hright]

/-- Where a key reads alike, nothing is left to relate there. -/
theorem Like.refine (h : Like R items items') (hk : (items.get k).Alike (items'.get k)) :
    Like (Function.update R k Alike) items items' := by
  rcases h with h | h
  · exact .inl h
  · refine .inr (h.refine k (fun v w hv hw _ => ?_) fun j hj v w hvw => ?_)
    · rw [Function.update_self]
      simpa only [Items.get, hv, hw, Option.getD_some] using hk
    · rwa [Function.update_of_ne hj]

/-- After values that are alike are written to a key, nothing is left to relate there. -/
theorem Like.set (h : Like R items items') {w : PyValue} (hvw : v.Alike w) :
    Like (Function.update R k Alike) (items.set k v) (items'.set k w) := by
  rcases h with h | h
  · refine .inl ?_
    rw [strip_set, strip_set, h, hvw]
  · refine .inr (h.set ?_ fun j hj x y hxy => ?_)
    · rwa [Function.update_self]
    · rwa [Function.update_of_ne hj]

lemma Like.strip_eq (h : Like R items items') (hR : ∀ k v w, R k v w → v.Alike w) :
    items.strip = items'.strip := by
  rcases h with h | h
  · exact h
  · exact Agree.strip_eq ⟨h.distinct, h.related.imp fun _ _ hpq => ⟨hpq.1, hR _ _ _ hpq.2⟩⟩

end Agree

end Items
