import Cronstable.Lib.Dict

/-!
# The sample of names in a cell

The heatmap shows in each cell who collides there: the first names, in entry order, of the jobs
that fire in it. `_fill_cell_jobs` drops a cell from the pending list of a schedule once the list
of the cell is full. A full list never changes, so nothing is lost (`cell_samples_exact`).
-/

namespace Cronstable.Schedule

open List

/-- What the fill reads of an entry. -/
structure ScheduleEntry where
  name : String

/-- The hour and the minute of a fire, in the zone on display. -/
abbrev Cell := ℕ × ℕ

/-- `_NAME_CAP`. -/
def nameCap : ℕ := 10

/-- The list at `k`, or the empty one of `setdefault`. -/
def listAt {α β : Type} [DecidableEq α] (d : Dict α (List β)) (k : α) : List β :=
  (d.get? k).getD []

/-- What a visit makes of the list of a cell. -/
def addName (name : String) (atCell : List String) : List String :=
  if atCell.length < nameCap ∧ name ∉ atCell then atCell ++ [name] else atCell

/-- The names in each cell. -/
abbrev CellJobs := Dict Cell (List String)

/-- Of each schedule that was walked its fires and its weight. -/
abbrev WalkCache (κ : Type) := Dict κ (List Cell × ℕ)

/-- The loop over `enumerate(remaining)`. `keep` is there once a cell is full, and then starts with
the cells before that one. -/
def visitCells (name : String) (remaining : List Cell) :
    List (Cell × ℕ) → CellJobs → Option (List Cell) → CellJobs × Option (List Cell)
  | [], cellJobs, keep => (cellJobs, keep)
  | (cell, index) :: rest, cellJobs, keep =>
    let atCell := addName name (listAt cellJobs cell)
    visitCells name remaining rest (cellJobs.set cell atCell)
      (if atCell.length < nameCap then keep.map (· ++ [cell])
        else some (keep.getD (remaining.take index)))

structure Fill (κ : Type) where
  pending : Dict κ (List Cell)
  cellJobs : CellJobs

variable {κ : Type} [DecidableEq κ]

/-- One round of the loop over the entries. -/
def Fill.visit (s : Fill κ) (p : ScheduleEntry × κ) : Fill κ :=
  match s.pending.get? p.2 with
  | none | some [] => s
  | some remaining =>
    let (cellJobs, keep) := visitCells p.1.name remaining remaining.zipIdx s.cellJobs none
    { pending := (keep.map (s.pending.set p.2)).getD s.pending, cellJobs }

/-- `_fill_cell_jobs`. The strict `zip` raises unless there is one key for each entry. -/
def fillCellJobs (entries : List ScheduleEntry) (keys : List κ) (walkCache : WalkCache κ)
    (cellJobs : CellJobs) : Option CellJobs :=
  if entries.length = keys.length then
    let pending := walkCache.mapVal fun _ walk => walk.1.eraseDups
    some ((entries.zip keys).foldl Fill.visit { pending, cellJobs }).cellJobs
  else none

/-- Where a schedule fires; nowhere if it was not walked. -/
def walk (walkCache : WalkCache κ) (key : κ) : List Cell :=
  ((walkCache.get? key).map Prod.fst).getD []

/-- The first distinct names among the entries that fire in `cell`. -/
def sample (walkCache : WalkCache κ) (paired : List (ScheduleEntry × κ)) (cell : Cell) :
    List String :=
  ((paired.filter fun p => cell ∈ walk walkCache p.2).map (·.1.name)).eraseDups.take nameCap

variable {name : String} {l : List String} {remaining : List Cell}

lemma addName_of_full (h : nameCap ≤ l.length) : addName name l = l :=
  if_neg fun hlt => absurd hlt.1 (not_lt.mpr h)

lemma addName_addName : addName name (addName name l) = addName name l := by
  by_cases h : l.length < nameCap ∧ name ∉ l
  · simp [addName, h]
  · simp only [addName, if_neg h]

/-- Truncated as it grows or at the end, the list of distinct names is the same. -/
theorem addName_take_eraseDups :
    addName name (l.eraseDups.take nameCap) = (l ++ [name]).eraseDups.take nameCap := by
  by_cases hfull : nameCap ≤ l.eraseDups.length
  · rw [addName_of_full (by simp [hfull]), eraseDups_append, take_append_of_le_length hfull]
  · have hlt := not_le.mp hfull
    rw [take_of_length_le hlt.le, eraseDups_append, addName]
    by_cases hmem : name ∈ l
    · simp [hmem, removeAll, take_of_length_le hlt.le]
    · have hone : [name].eraseDups = [name] := rfl
      have hle : (l.eraseDups ++ [name]).length ≤ nameCap := by
        rw [length_append]
        exact hlt
      simp [hmem, removeAll, hlt, hone, take_of_length_le hle]

lemma listAt_set {α β : Type} [DecidableEq α] (d : Dict α (List β)) (k k' : α) (v : List β) :
    listAt (d.set k v) k' = if k' = k then v else listAt d k' := by
  by_cases h : k' = k <;> simp [listAt, h]

lemma listAt_visitCells (cells : List (Cell × ℕ)) (jobs : CellJobs) (keep : Option (List Cell))
    (c : Cell) :
    listAt (visitCells name remaining cells jobs keep).1 c =
      if c ∈ cells.map Prod.fst then addName name (listAt jobs c) else listAt jobs c := by
  induction cells generalizing jobs keep with
  | nil => simp [visitCells]
  | cons p rest ih =>
    rw [visitCells, ih]
    simp only [listAt_set, map_cons, mem_cons]
    by_cases hc : c = p.1
    · simp [hc, addName_addName]
    · simp only [hc, if_false, false_or]

/-- What stays pending: the cells that are not full once the entry has been there. -/
theorem mem_keep (name : String) (pre cells : List Cell) (h : pre ++ cells = remaining)
    (jobs : CellJobs) (keep : Option (List Cell)) (c : Cell) :
    c ∈ (visitCells name remaining (cells.zipIdx pre.length) jobs keep).2.getD remaining ↔
      c ∈ keep.getD pre ∨ c ∈ cells ∧ (addName name (listAt jobs c)).length < nameCap := by
  induction cells generalizing pre jobs keep with
  | nil =>
    subst h
    simp [visitCells]
  | cons cell rest ih =>
    have htake : remaining.take pre.length = pre := by simp [← h]
    have ih := ih (pre ++ [cell]) (by simpa using h)
    rw [length_append, length_singleton] at ih
    rw [zipIdx_cons, visitCells, ih, htake, listAt_set]
    by_cases hc : c = cell
    · subst hc
      by_cases hlt : (addName name (listAt jobs c)).length < nameCap
      · cases keep <;> simp [hlt]
      · simp [hlt, addName_addName]
    · cases keep <;> split_ifs <;> simp [hc]

/-- What the fill has come to after the entries `done`. A cell that is no longer pending is full. -/
structure Fill.Exact (walkCache : WalkCache κ) (done : List (ScheduleEntry × κ)) (s : Fill κ) :
    Prop where
  names : ∀ cell, listAt s.cellJobs cell = sample walkCache done cell
  pending : ∀ key, ∀ cell ∈ listAt s.pending key, cell ∈ walk walkCache key
  dropped : ∀ key, ∀ cell ∈ walk walkCache key, cell ∉ listAt s.pending key →
    nameCap ≤ (listAt s.cellJobs cell).length

namespace Fill

variable {walkCache : WalkCache κ} {done : List (ScheduleEntry × κ)} {s : Fill κ}
  {p : ScheduleEntry × κ}

/-- A schedule that is not pending anywhere need not be skipped. -/
theorem visit_eq : s.visit p =
    let remaining := listAt s.pending p.2
    let r := visitCells p.1.name remaining remaining.zipIdx s.cellJobs none
    { pending := (r.2.map (s.pending.set p.2)).getD s.pending, cellJobs := r.1 } := by
  unfold visit
  split <;> simp [listAt, visitCells, *]

lemma listAt_visit (cell : Cell) :
    listAt (s.visit p).cellJobs cell = if cell ∈ listAt s.pending p.2 then
      addName p.1.name (listAt s.cellJobs cell) else listAt s.cellJobs cell := by
  simp [visit_eq, listAt_visitCells]

lemma mem_pending_visit (key : κ) (cell : Cell) :
    cell ∈ listAt (s.visit p).pending key ↔ cell ∈ listAt s.pending key ∧
      (key = p.2 → (addName p.1.name (listAt s.cellJobs cell)).length < nameCap) := by
  have hkeep := mem_keep p.1.name [] (listAt s.pending p.2) rfl s.cellJobs none cell
  rw [visit_eq]
  simp only [nil_append, length_nil, Option.getD_none, not_mem_nil, false_or] at hkeep ⊢
  by_cases hkey : key = p.2
  · subst hkey
    rw [forall_prop_of_true rfl, ← hkeep]
    cases (visitCells _ _ _ _ _).2 <;> simp [listAt_set]
  · cases (visitCells _ _ _ _ _).2 <;> simp [listAt_set, hkey]

/-- One entry: a cell that its schedule no longer visits could not have taken the name. -/
theorem Exact.visit (h : s.Exact walkCache done) : (s.visit p).Exact walkCache (done ++ [p]) where
  names cell := by
    rw [listAt_visit, h.names]
    by_cases hfires : cell ∈ walk walkCache p.2
    · have hsample : sample walkCache (done ++ [p]) cell =
          addName p.1.name (sample walkCache done cell) := by
        simp [sample, hfires, addName_take_eraseDups]
      rw [hsample, ite_eq_left_iff]
      -- the cell was dropped when it was full, and has been since
      intro hdropped
      exact (addName_of_full (h.names cell ▸ h.dropped _ _ hfires hdropped)).symm
    · rw [if_neg fun hpending => hfires (h.pending _ _ hpending)]
      simp [sample, hfires]
  pending key cell hcell := h.pending key cell ((mem_pending_visit key cell).mp hcell).1
  dropped key cell hfires hdropped := by
    rw [listAt_visit]
    -- dropped by this visit, which left it full, or by an earlier one
    by_cases hpending : cell ∈ listAt s.pending key
    · obtain ⟨rfl, hfull⟩ : key = p.2 ∧ _ := by simpa [mem_pending_visit, hpending] using hdropped
      rwa [if_pos hpending]
    · have hfull := h.dropped key cell hfires hpending
      rwa [addName_of_full hfull, ite_self]

/-- The whole loop, from any point of it. -/
theorem Exact.foldl (paired : List (ScheduleEntry × κ)) (h : s.Exact walkCache done) :
    (paired.foldl Fill.visit s).Exact walkCache (done ++ paired) := by
  induction paired generalizing done s with
  | nil => simpa using h
  | cons p paired ih => simpa using ih h.visit

end Fill

/-- The list of each cell is the sample of the entries whose schedule fires in it. -/
theorem cell_samples_exact (entries : List ScheduleEntry) (keys : List κ) (walkCache : WalkCache κ)
    (h : entries.length = keys.length) :
    ∃ cellJobs, fillCellJobs entries keys walkCache .empty = some cellJobs ∧
      ∀ cell, listAt cellJobs cell = sample walkCache (entries.zip keys) cell := by
  have hstart : Fill.Exact walkCache [] ⟨walkCache.mapVal fun _ w => w.1.eraseDups, .empty⟩ := by
    refine ⟨fun _ => rfl, fun key => ?_, fun key => ?_⟩ <;>
      cases hget : walkCache.get? key <;> simp +contextual [listAt, walk, hget]
  exact ⟨_, if_pos h, (hstart.foldl (entries.zip keys)).names⟩

/-- Eleven jobs of one schedule, and one of another. -/
private def crowd : List ScheduleEntry :=
  ["a", "b", "c", "d", "e", "f", "g", "h", "i", "j", "k", "l"].map .mk

/-- The second schedule has the crowded cell twice, and one more. -/
private def crowdWalks : WalkCache ℕ :=
  .ofList [(1, ([(0, 5)], 1)), (2, ([(0, 5), (0, 6), (0, 5)], 1))]

/-- The shared cell is full after ten names, and the other one is not. -/
theorem shared_cell_sample :
    ∃ cellJobs, fillCellJobs crowd (replicate 11 1 ++ [2]) crowdWalks .empty = some cellJobs ∧
      listAt cellJobs (0, 5) = ["a", "b", "c", "d", "e", "f", "g", "h", "i", "j"] ∧
      listAt cellJobs (0, 6) = ["l"] := by
  obtain ⟨cellJobs, hfill, hcell⟩ := cell_samples_exact crowd (replicate 11 1 ++ [2]) crowdWalks
    (by rfl)
  exact ⟨cellJobs, hfill, (hcell (0, 5)).trans (by decide), (hcell (0, 6)).trans (by decide)⟩

end Cronstable.Schedule
