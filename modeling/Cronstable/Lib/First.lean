import Mathlib.Data.List.Sort
import Mathlib.Data.Prod.Lex
import Mathlib.Order.Bounds.Basic

/-!
# First elements

What a forward search answers: the least element of the set it looks through, or nothing when the
set is empty. A search that looks through one stretch after another is put together by
`First.append`, a search digit by digit by `First.lex`, and the searches in a sorted tuple
(`bisectLeft`, `bisectRight`) are first elements of its values.
-/

variable {α β γ : Type*} [LinearOrder α] [LinearOrder β] [LinearOrder γ]

/-- The answer of a forward search through `s`. -/
def First (s : Set α) : Option α → Prop
  | some x => IsLeast s x
  | none => s = ∅

namespace First

variable {s s' : Set α} {r r' : Option α}

/-- A set has one first element. -/
theorem unique (h : First s r) (h' : First s r') : r = r' := by
  cases r with
  | none =>
    cases r' with
    | none => rfl
    | some x =>
      have hmem := h'.1
      rw [show s = ∅ from h] at hmem
      exact hmem.elim
  | some x =>
    cases r' with
    | none =>
      have hmem := h.1
      rw [show s = ∅ from h'] at hmem
      exact hmem.elim
    | some y => rw [IsLeast.unique h h']

lemma congr (h : First s r) (hs : ∀ x, x ∈ s ↔ x ∈ s') : First s' r := by
  rwa [← Set.ext hs]

lemma none_iff : First s none ↔ ∀ x, x ∉ s := Set.eq_empty_iff_forall_notMem

/-- Two searches, the second through what lies behind everything the first looked through. -/
theorem append (h : First s r) (h' : First s' r') (hle : ∀ x ∈ s, ∀ y ∈ s', x ≤ y) :
    First (s ∪ s') (r.or r') := by
  cases r with
  | none =>
    rw [show s = ∅ from h, Set.empty_union]
    exact h'
  | some x =>
    refine ⟨.inl h.1, fun y hy => ?_⟩
    rcases hy with hy | hy
    · exact h.2 hy
    · exact hle x h.1 y hy

/-- A search through the image under a strictly increasing map. -/
theorem map (h : First s r) {f : α → β} (hf : StrictMonoOn f s) : First (f '' s) (r.map f) := by
  cases r with
  | none =>
    rw [show s = ∅ from h, Set.image_empty]
    rfl
  | some x =>
    refine ⟨Set.mem_image_of_mem f h.1, ?_⟩
    rintro _ ⟨y, hy, rfl⟩
    exact (hf.le_iff_le h.1 hy).mpr (h.2 hy)

/-- A search that gives up behind a bound. -/
theorem filter_le (h : First s r) (e : α) :
    First {x | x ∈ s ∧ x ≤ e} (r.filter fun x => decide (x ≤ e)) := by
  cases r with
  | none =>
    refine none_iff.mpr fun x hx => ?_
    exact none_iff.mp h x hx.1
  | some x =>
    by_cases hx : x ≤ e
    · rw [Option.filter_some_pos (by simpa using hx)]
      exact ⟨⟨h.1, hx⟩, fun y hy => h.2 hy.1⟩
    · rw [Option.filter_some_neg (by simpa using hx)]
      refine none_iff.mpr fun y hy => hx ?_
      exact (h.2 hy.1).trans hy.2

/-- A search digit by digit: under the leading digit `d` through the lower digits that satisfy `p`,
then at the next leading digit and its least lower digits. -/
theorem lex {V : Set α} {S : Set β} {p : β → Prop} (pair : α → β → γ) {d : α} {least : β}
    {low : Option β} (next : Option α) (same : Option γ)
    (hpair : ∀ v ∈ V, ∀ x ∈ S, ∀ v' ∈ V, ∀ x' ∈ S, v < v' ∨ v = v' ∧ x < x' → pair v x < pair v' x')
    (hlow : First {x | x ∈ S ∧ p x} low) (hleast : IsLeast S least)
    (hnext : First {v | v ∈ V ∧ d < v} next) (hin : d ∈ V → same = low.map (pair d))
    (hout : d ∉ V → same = none) :
    First {c | ∃ v ∈ V, ∃ x ∈ S, c = pair v x ∧ (d < v ∨ d = v ∧ p x)}
      (same.or (next.map (pair · least))) := by
  have hsame : First {c | d ∈ V ∧ ∃ x ∈ S, c = pair d x ∧ p x} same := by
    by_cases hd : d ∈ V
    · have hmono : StrictMonoOn (pair d) {x | x ∈ S ∧ p x} := fun x hx x' hx' hlt =>
        hpair d hd x hx.1 d hd x' hx'.1 (.inr ⟨rfl, hlt⟩)
      rw [hin hd]
      refine (hlow.map hmono).congr fun c => ?_
      constructor
      · rintro ⟨x, ⟨hx, hp⟩, rfl⟩
        exact ⟨hd, x, hx, rfl, hp⟩
      · rintro ⟨-, x, hx, rfl, hp⟩
        exact ⟨x, ⟨hx, hp⟩, rfl⟩
    · rw [hout hd]
      exact none_iff.mpr fun c hc => hd hc.1
  have hlater : First {c | ∃ v ∈ V, d < v ∧ ∃ x ∈ S, c = pair v x}
      (next.map (pair · least)) := by
    cases next with
    | none =>
      refine none_iff.mpr ?_
      rintro c ⟨v, hv, hlt, -⟩
      exact none_iff.mp hnext v ⟨hv, hlt⟩
    | some v =>
      obtain ⟨⟨hv, hlt⟩, hmin⟩ := hnext
      refine ⟨⟨v, hv, hlt, least, hleast.1, rfl⟩, ?_⟩
      rintro c ⟨v', hv', hlt', x, hx, rfl⟩
      rcases (hmin ⟨hv', hlt'⟩).eq_or_lt with rfl | hvv'
      · rcases (hleast.2 hx).eq_or_lt with rfl | hlx
        · exact le_rfl
        · exact (hpair v hv least hleast.1 v hv x hx (.inr ⟨rfl, hlx⟩)).le
      · exact (hpair v hv least hleast.1 v' hv' x hx (.inl hvv')).le
  refine (hsame.append hlater ?_).congr fun c => ?_
  · rintro c ⟨hd, x, hx, rfl, -⟩ c' ⟨v, hv, hlt, x', hx', rfl⟩
    exact (hpair d hd x hx v hv x' hx' (.inl hlt)).le
  · constructor
    · rintro (⟨hd, x, hx, rfl, hp⟩ | ⟨v, hv, hlt, x, hx, rfl⟩)
      · exact ⟨d, hd, x, hx, rfl, .inr ⟨rfl, hp⟩⟩
      · exact ⟨v, hv, x, hx, rfl, .inl hlt⟩
    · rintro ⟨v, hv, x, hx, rfl, hlt | ⟨rfl, hp⟩⟩
      · exact .inr ⟨v, hv, hlt, x, hx, rfl⟩
      · exact .inl ⟨hv, x, hx, rfl, hp⟩

/-- What comes after `a` is the first of it and what comes after that. -/
theorem after_eq_insert {a x : α} (h : IsLeast {u | u ∈ s ∧ a < u} x) {q : α → Prop} (hx : q x) :
    {u | u ∈ s ∧ a < u ∧ q u} = insert x {u | u ∈ s ∧ x < u ∧ q u} := by
  ext u
  constructor
  · rintro ⟨hu, hau, hq⟩
    rcases (h.2 ⟨hu, hau⟩).eq_or_lt with rfl | hlt
    · exact .inl rfl
    · exact .inr ⟨hu, hlt, hq⟩
  · rintro (rfl | ⟨hu, hlt, hq⟩)
    · exact ⟨h.1.1, h.1.2, hx⟩
    · exact ⟨hu, h.1.2.trans hlt, hq⟩

omit [LinearOrder α] [LinearOrder β] in
/-- The pairs of a search digit by digit. -/
theorem mem_digits {V : Set α} {S : Set β} {q : α → β → Prop} (c : α ×ₗ β) :
    (∃ v ∈ V, ∃ x ∈ S, c = toLex (v, x) ∧ q v x) ↔ (c.1 ∈ V ∧ c.2 ∈ S) ∧ q c.1 c.2 := by
  constructor
  · rintro ⟨v, hv, x, hx, rfl, h⟩
    exact ⟨⟨hv, hx⟩, h⟩
  · rintro ⟨⟨hv, hx⟩, h⟩
    exact ⟨c.1, hv, c.2, hx, rfl, h⟩

end First

/-! ## Sorted tuples -/

/-- How many values of a sorted tuple are below `x`. -/
def bisectLeft (l : List α) (x : α) : ℕ := l.findIdx fun v => decide (x ≤ v)

/-- How many values of a sorted tuple are at most `x`. -/
def bisectRight (l : List α) (x : α) : ℕ := l.findIdx fun v => decide (x < v)

section Sorted

variable {l : List α} (hl : l.SortedLT)

include hl

/-- The values from position `n` on are those that satisfy `q`. -/
private lemma first_getElem? {n : ℕ} {q : α → Prop}
    (hq : ∀ i (hi : i < l.length), q l[i] ↔ n ≤ i) : First {v | v ∈ l ∧ q v} l[n]? := by
  cases hn : l[n]? with
  | none =>
    refine First.none_iff.mpr ?_
    rintro v ⟨hv, hqv⟩
    obtain ⟨i, hi, rfl⟩ := List.getElem_of_mem hv
    have := (hq i hi).mp hqv
    have := List.getElem?_eq_none_iff.mp hn
    omega
  | some x =>
    obtain ⟨hlen, rfl⟩ := List.getElem?_eq_some_iff.mp hn
    refine ⟨⟨List.getElem_mem hlen, (hq n hlen).mpr le_rfl⟩, ?_⟩
    rintro v ⟨hv, hqv⟩
    obtain ⟨i, hi, rfl⟩ := List.getElem_of_mem hv
    exact hl.getElem_le_getElem_iff.mpr ((hq i hi).mp hqv)

/-- A test that stays true starts to hold at its first position. -/
private lemma findIdx_le_iff {p : α → Bool} (hp : ∀ v w, v ≤ w → p v = true → p w = true) {i : ℕ}
    (hi : i < l.length) : l.findIdx p ≤ i ↔ p l[i] = true := by
  constructor
  · intro hle
    have hlen : l.findIdx p < l.length := by omega
    exact hp _ _ (hl.getElem_le_getElem_iff.mpr hle) (List.findIdx_getElem (w := hlen))
  · intro hpi
    by_contra hlt
    rw [List.not_of_lt_findIdx (not_le.mp hlt)] at hpi
    cases hpi

lemma first_bisectLeft (x : α) : First {v | v ∈ l ∧ x ≤ v} l[bisectLeft l x]? :=
  first_getElem? hl fun _ hi =>
    ((findIdx_le_iff hl (fun v w hvw hv => by simp at hv ⊢; exact hv.trans hvw) hi).trans
      (by simp)).symm

lemma first_bisectRight (x : α) : First {v | v ∈ l ∧ x < v} l[bisectRight l x]? :=
  first_getElem? hl fun _ hi =>
    ((findIdx_le_iff hl (fun v w hvw hv => by simp at hv ⊢; exact hv.trans_le hvw) hi).trans
      (by simp)).symm

/-- Where a forward search for `x` stands: at `x`, with the next value behind it, or at the next
value. -/
theorem bisectLeft_cases (x : α) :
    (x ∈ l ∧ l[bisectLeft l x]? = some x ∧ First {v | v ∈ l ∧ x < v} l[bisectLeft l x + 1]?) ∨
      x ∉ l ∧ First {v | v ∈ l ∧ x < v} l[bisectLeft l x]? := by
  have hleft := first_bisectLeft hl x
  by_cases hx : x ∈ l
  · have hat : l[bisectLeft l x]? = some x := hleft.unique ⟨⟨hx, le_rfl⟩, fun v hv => hv.2⟩
    obtain ⟨hlen, hget⟩ := List.getElem?_eq_some_iff.mp hat
    refine .inl ⟨hx, hat, first_getElem? hl fun i hi => ?_⟩
    have hlt : x < l[i] ↔ l[bisectLeft l x] < l[i] := by rw [hget]
    rw [hlt, hl.getElem_lt_getElem_iff]
    omega
  · refine .inr ⟨hx, hleft.congr fun v => and_congr_right fun hv => ?_⟩
    exact ⟨fun hle => hle.lt_of_ne fun heq => hx (heq ▸ hv), le_of_lt⟩

/-- The head of a sorted tuple is its least value. -/
theorem isLeast_head (hne : l ≠ []) : IsLeast {v | v ∈ l} (l.head hne) := by
  refine ⟨List.head_mem hne, fun v hv => ?_⟩
  obtain ⟨i, hi, rfl⟩ := List.getElem_of_mem hv
  rw [List.head_eq_getElem]
  exact hl.getElem_le_getElem_iff.mpr (Nat.zero_le i)

/-- The last value of a sorted tuple is its greatest. -/
theorem isGreatest_getLast (hne : l ≠ []) : IsGreatest {v | v ∈ l} (l.getLast hne) := by
  refine ⟨List.getLast_mem hne, fun v hv => ?_⟩
  obtain ⟨i, hi, rfl⟩ := List.getElem_of_mem hv
  rw [List.getLast_eq_getElem]
  exact hl.getElem_le_getElem_iff.mpr (by omega)

/-- One level of a forward search digit by digit: `low` is the search through the lower digits under
the leading digit `d`, `least` are the least ones. -/
def lexFirst (l : List α) (d : α) (low : Option β) (least : β) : Option (α × β) :=
  match l[bisectLeft l d]? with
  | none => none
  | some v =>
    if d < v then some (v, least)
    else (low.map fun x => (d, x)).or (l[bisectLeft l d + 1]?.map fun v => (v, least))

variable {S : Set β} {p : β → Prop} {low : Option β} {x₀ : β}

lemma first_lexFirst (d : α) (hlow : First {x | x ∈ S ∧ p x} low) (hleast : IsLeast S x₀) :
    First {c : α ×ₗ β | (c.1 ∈ l ∧ c.2 ∈ S) ∧ (d < c.1 ∨ d = c.1 ∧ p c.2)}
      (lexFirst l d low x₀) := by
  have hlex := fun next same hnext hin hout => (First.lex _ (V := {v | v ∈ l}) (d := d) next same
    (fun v _ x _ v' _ x' _ h => Prod.Lex.toLex_lt_toLex.mpr h) hlow hleast hnext hin hout).congr
    First.mem_digits
  unfold lexFirst
  rcases bisectLeft_cases hl d with ⟨hd, hat, hnext⟩ | ⟨hd, hnext⟩
  · rw [hat]
    simp only [lt_irrefl, if_false]
    exact hlex _ _ hnext (fun _ => rfl) fun h => absurd hd h
  · cases hv : l[bisectLeft l d]? with
    | none =>
      rw [hv] at hnext
      exact hlex none none hnext (fun h => absurd h hd) fun _ => rfl
    | some v =>
      rw [hv] at hnext
      simp only [if_pos hnext.1.2]
      exact hlex (some v) none hnext (fun h => absurd h hd) fun _ => rfl

end Sorted
