import Mathlib.Tactic
import Cronstable.Lib.Dict
import Cronstable.Lib.PyText

/-!
# The names of converted jobs

`_unique_names` counts how often it has seen a name and appends the count to a repetition. It does
not compare the new name with the others (`names_distinct_iff`, `names_collide`).
-/

namespace Cronstable.TaskXml

open List Function

/-- `"{}-{}".format(name, n)`. -/
def suffixed (name : String) (n : ℕ) : String := name ++ "-" ++ toString n

/-- The loop over the jobs, each given by its name. -/
def renameFrom (seen : Dict String ℕ) : List String → List String
  | [] => []
  | name :: names =>
    match seen.get? name with
    | none => name :: renameFrom (seen.set name 1) names
    | some n => suffixed name (n + 1) :: renameFrom (seen.set name (n + 1)) names

/-- `_unique_names`: the names of the jobs of all tasks, in order. -/
def uniqueNames (tasks : List (List String)) : List String := renameFrom .empty tasks.flatten

/-- The names, each with the number of its occurrence after `seen` others. -/
def occurrences (seen : String → ℕ) : List String → List (String × ℕ)
  | [] => []
  | name :: names =>
    (name, seen name + 1) :: occurrences (Function.update seen name (seen name + 1)) names

/-- What becomes of an occurrence. -/
def renamed (p : String × ℕ) : String := if p.2 = 1 then p.1 else suffixed p.1 p.2

variable {seen : String → ℕ} {names : List String}

lemma mem_occurrences {name : String} {k : ℕ} :
    (name, k) ∈ occurrences seen names ↔ seen name < k ∧ k ≤ seen name + names.count name := by
  induction names generalizing seen with
  | nil =>
    simp only [occurrences, not_mem_nil, count_nil, false_iff]
    omega
  | cons head names ih =>
    rw [occurrences, mem_cons, ih, Prod.mk.injEq]
    by_cases hname : name = head
    · subst hname
      rw [update_self, count_cons_self]
      simp only [true_and]
      omega
    · rw [count_cons_of_ne (Ne.symm hname)]
      simp [hname]

lemma nodup_occurrences : (occurrences seen names).Nodup := by
  induction names generalizing seen with
  | nil => exact nodup_nil
  | cons head names ih =>
    refine nodup_cons.mpr ⟨fun hmem => ?_, ih⟩
    rw [mem_occurrences, update_self] at hmem
    omega

lemma map_fst_occurrences : (occurrences seen names).map Prod.fst = names := by
  induction names generalizing seen with
  | nil => rfl
  | cons head names ih => rw [occurrences, map_cons, ih]

/-- The names that the loop gives, by occurrence. -/
theorem renameFrom_eq {seen : Dict String ℕ} (hseen : ∀ name n, seen.get? name = some n → 0 < n) :
    renameFrom seen names =
      (occurrences (fun name => (seen.get? name).getD 0) names).map renamed := by
  induction names generalizing seen with
  | nil => rfl
  | cons head names ih =>
    have hnext (n : ℕ) (hn : 0 < n) : renameFrom (seen.set head n) names =
        (occurrences (update (fun name => (seen.get? name).getD 0) head n) names).map
          renamed := by
      rw [ih (Dict.forall_set hseen hn)]
      congr 2
      funext name
      rw [Dict.get?_set, update_apply]
      split <;> rfl
    rw [renameFrom, occurrences]
    cases hget : seen.get? head with
    | none => simp [hnext 1 one_pos, renamed]
    | some n => simp [hnext (n + 1) n.succ_pos, renamed, (hseen head n hget).ne']

/-- The suffix is read back: it ends in the digits after the last dash. -/
theorem suffixed_inj {a b : String} {i j : ℕ} (h : suffixed a i = suffixed b j) :
    a = b ∧ i = j := by
  have hdash (n : ℕ) : '-' ∉ (toString n).toList.reverse := by
    intro hmem
    rw [mem_reverse, Nat.toString_eq_repr, Nat.toList_repr] at hmem
    exact absurd (Nat.isDigit_of_mem_toDigits (by decide) (by decide) hmem) (by decide)
  have hlist := congrArg (fun s => s.toList.reverse) h
  simp only [suffixed, String.toList_append, reverse_append, show "-".toList = ['-'] from rfl,
    reverse_singleton, singleton_append] at hlist
  obtain ⟨hdigits, hname⟩ := PyText.append_sep_inj (hdash i) (hdash j) hlist
  exact ⟨String.toList_inj.mp (reverse_injective hname),
    PyText.toString_nat_inj (String.toList_inj.mp (reverse_injective hdigits))⟩

/-- The names get distinct, and a name that occurs once is kept, exactly when no name that a
repetition gets is the name of a job. -/
theorem names_distinct_iff (tasks : List (List String)) :
    ((uniqueNames tasks).Nodup ∧ ∀ (i : ℕ) name, tasks.flatten[i]? = some name →
        tasks.flatten.count name = 1 → (uniqueNames tasks)[i]? = some name) ↔
      ∀ name k, 2 ≤ k → k ≤ tasks.flatten.count name → suffixed name k ∉ tasks.flatten := by
  rw [uniqueNames, renameFrom_eq (by simp)]
  generalize tasks.flatten = names
  simp only [Dict.get?_empty, Option.getD_none]
  have hmem (p : String × ℕ) : p ∈ occurrences (fun _ => 0) names ↔
      1 ≤ p.2 ∧ p.2 ≤ names.count p.1 := by
    simpa [Nat.succ_le_iff] using @mem_occurrences (fun _ => 0) names p.1 p.2
  constructor
  · rintro ⟨hnodup, -⟩ name k hk hcount hname
    -- the repetition and the first occurrence of the other name
    have heq := inj_on_of_nodup_map hnodup ((hmem (name, k)).mpr ⟨by omega, hcount⟩)
      ((hmem (suffixed name k, 1)).mpr ⟨le_rfl, count_pos_iff.mpr hname⟩)
      (by simp [renamed]; omega)
    have := (Prod.mk.inj heq).2
    omega
  · intro hfree
    have hclash {p q : String × ℕ} (hp : p ∈ occurrences (fun _ => 0) names)
        (hq : q ∈ occurrences (fun _ => 0) names) (hpq : p.2 = 1) (hne : q.2 ≠ 1) :
        p.1 ≠ suffixed q.1 q.2 := by
      intro heq
      obtain ⟨h1, h2⟩ := (hmem p).mp hp
      obtain ⟨h3, h4⟩ := (hmem q).mp hq
      exact hfree q.1 q.2 (by omega) h4 (heq ▸ count_pos_iff.mp (by omega))
    refine ⟨nodup_occurrences.map_on ?_, ?_⟩
    · intro p hp q hq heq
      unfold renamed at heq
      split_ifs at heq with h1 h2 h2
      · exact Prod.ext heq (h1.trans h2.symm)
      · exact absurd heq (hclash hp hq h1 h2)
      · exact absurd heq.symm (hclash hq hp h2 h1)
      · exact Prod.ext_iff.mpr (suffixed_inj heq)
    · intro i name hi honce
      have hfst := congrArg (·[i]?) (@map_fst_occurrences (fun _ => 0) names)
      obtain ⟨p, hp, rfl⟩ := Option.map_eq_some_iff.mp ((getElem?_map.symm.trans hfst).trans hi)
      have hk := (hmem p).mp (mem_of_getElem? hp)
      rw [getElem?_map, hp, Option.map_some, renamed, if_pos (by omega)]

/-- Of three tasks with one trigger each, the second takes the name of the third. -/
theorem names_collide : ¬ (uniqueNames [["a"], ["a"], ["a-2"]]).Nodup := by decide +kernel

end Cronstable.TaskXml
