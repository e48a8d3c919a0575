import Cronstable.Store.NameKeyedSafety

/-!
# What a name-keyed lookup finds

A value that was published has a record at all times, since nothing leaves without a newer record.
A lookup has to see one of them. Its listing takes time, and while it goes on the record that was
there when it began may be superseded twice and unlinked: then the listing may show neither that
record nor those that came since, and a process that remembers none of them answers that there is no
such record (`published_value_missed`). A best-effort lookup that met a record gone in each of its
passes answers with what it has read, which may be nothing.

`lookup_finds_published` is the result, for runs in which the newest record of a value stays while
a lookup of the value lists the directory, and to the end of the last pass of a best-effort lookup.

The argument follows a lookup stage by stage (`Stage.Looks`). The record that was the newest when
the listing began is in the listing. From then on the scan has yet to read it, has a record at
least as new, or has met a record gone; in the last case the lookup lists the stream again, and the
next listing differs.
-/

namespace Cronstable.NameKeyed

open FieldFacts List Option Dict Thread Stage Function

/-! ## The runs -/

/-- All records are readable. -/
def Event.Reads : Event → Prop
  | .arrive .. => False
  | .go _ io => io.reads
  | _ => True

instance : DecidablePred Event.Reads
  | .arrive .. => isFalse id
  | .go _ io => inferInstanceAs (Decidable (io.reads = true))
  | .shed .. | .append .. | .prune .. | .lookup .. => isTrue trivial

/-- A best-effort lookup answers after this pass. -/
def Lookup.Last (l : Lookup) : Prop := l.strict = false ∧ l.passes = supersededRescans

/-- The newest record when the listing of the pass began. -/
def Stage.floor : Stage → Option Name
  | .ready => none
  | .listing _ floor | .listed _ floor => floor
  | .reading sc | .examining sc _ _ | .consulting sc | .learning sc _ | .recalling sc _
  | .dropping sc _ | .rereading sc _ | .closing sc => sc.floor

/-- The lookup needs the record: it lists the directory, or it is in its last pass. -/
def Thread.Needs (n : Name) : Thread → Prop
  | .looking _ (.listing _ floor) => floor = some n
  | .looking l st => l.Last ∧ st.floor = some n
  | _ => False

variable {n : Name} {e : Event} {names : List Name} {v : String} {begun : ℕ}

namespace State

/-- What a step must be clear of: it unlinks a record that a lookup needs. -/
def Clear (s : State) (e : Event) : Prop :=
  ∀ n, s.unlinks e = some n → ∀ p, ¬ (s.threads p).Needs n

/-! ## Growth -/

/-- Records come and leave, and are otherwise as they were. -/
structure Grows (s t : State) : Prop where
  records : ∀ n r, s.records.get? n = some r → ∃ r', t.records.get? n = some r' ∧
    r'.value = r.value ∧ r'.readable = r.readable ∧ r'.born = r.born ∧
    ∀ k, r.gone = some k → r'.gone = some k

/-- The record has left. -/
def Gone (s : State) (n : Name) : Prop := ∃ r k, s.records.get? n = some r ∧ r.gone = some k

/-- The record had left before that step. -/
def GoneBefore (s : State) (n : Name) (begun : ℕ) : Prop :=
  ∃ r k, s.records.get? n = some r ∧ r.gone = some k ∧ k < begun

/-- The record came before that step. -/
def BornBefore (s : State) (n : Name) (begun : ℕ) : Prop :=
  ∃ r, s.records.get? n = some r ∧ r.born < begun

/-- These are records. -/
def Known (s : State) (names : List Name) : Prop := ∀ n ∈ names, ∃ r, s.records.get? n = some r

/-- A record of the value, at least as new as those that were published before. -/
def Published (s : State) (l : Lookup) (n : Name) : Prop :=
  s.Ever n l.value ∧ ∀ m ∈ l.before, m ≤ n

/-- A listing of these records is behind: one of them has left, or there was a newer record of the
value. -/
def Behind (s : State) (value : String) (names : List Name) : Prop :=
  s.Known names ∧ ((∃ n ∈ names, s.Gone n) ∨
    ∃ k, s.Ever k value ∧ ∀ n ∈ names, s.Ever n value → n < k)

/-- The append has landed. -/
def Landed (s : State) (a : Append) : Prop := ∀ v, a.value = some v → s.Ever a.name v

section Growth

variable {s t : State}

lemma Grows.of_eq (h : t.records = s.records) : Grows s t :=
  ⟨fun _ r hr => ⟨r, h ▸ hr, rfl, rfl, rfl, fun _ => id⟩⟩

/-- Records come, or leave, or neither. -/
lemma Change.grows (h : Change s e t) : Grows s t := by
  cases h with
  | quiet h => exact .of_eq h
  | land name value readable hnew hreadable h =>
    refine ⟨fun n r hr => ⟨r, ?_, rfl, rfl, rfl, fun _ => id⟩⟩
    simpa [h] using get?_set_of_none hnew hr
  | leave name r hunlinks hr hhere h =>
    refine ⟨fun n r' hr' => ?_⟩
    by_cases hn : n = name
    · subst hn
      obtain rfl := mem_unique hr hr'
      exact ⟨{ r with gone := some s.steps }, by simp [h], rfl, rfl, rfl, by simp [hhere]⟩
    · exact ⟨r', by simpa [h, hn] using hr', rfl, rfl, rfl, fun _ => id⟩

section

variable (h : Grows s t)

include h

/-- There was such a record. -/
lemma Grows.ever (hn : s.Ever n v) : t.Ever n v := by
  obtain ⟨r, hr, hv, hreadable⟩ := hn
  obtain ⟨r', hr', hvalue, hread, -⟩ := h.records n r hr
  exact ⟨r', hr', hvalue ▸ hv, hread ▸ hreadable⟩

/-- The value of a record that was there before is what it was. -/
theorem Grows.ever_of_known (hknown : ∃ r, s.records.get? n = some r) (hn : t.Ever n v) :
    s.Ever n v := by
  obtain ⟨r, hr⟩ := hknown
  obtain ⟨r', hr', hvalue, hread, -⟩ := h.records n r hr
  obtain ⟨r'', hr'', hv, hreadable⟩ := hn
  obtain rfl := mem_unique hr' hr''
  exact ⟨r, hr, hvalue ▸ hv, hread ▸ hreadable⟩

/-- A record that has left does not come back. -/
lemma Grows.gone (hn : s.Gone n) : t.Gone n := by
  obtain ⟨r, k, hr, hk⟩ := hn
  obtain ⟨r', hr', -, -, -, hgone⟩ := h.records n r hr
  exact ⟨r', k, hr', hgone k hk⟩

lemma Grows.goneBefore (hn : s.GoneBefore n begun) : t.GoneBefore n begun := by
  obtain ⟨r, k, hr, hk, hlt⟩ := hn
  obtain ⟨r', hr', -, -, -, hgone⟩ := h.records n r hr
  exact ⟨r', k, hr', hgone k hk, hlt⟩

lemma Grows.bornBefore (hn : s.BornBefore n begun) : t.BornBefore n begun := by
  obtain ⟨r, hr, hlt⟩ := hn
  obtain ⟨r', hr', -, -, hborn, -⟩ := h.records n r hr
  exact ⟨r', hr', hborn ▸ hlt⟩

/-- What was a record is one. -/
lemma Grows.known (hn : s.Known names) : t.Known names := by
  intro n hmem
  obtain ⟨r, hr⟩ := hn n hmem
  obtain ⟨r', hr', -⟩ := h.records n r hr
  exact ⟨r', hr'⟩

lemma Grows.published {l : Lookup} (hn : s.Published l n) : t.Published l n :=
  ⟨h.ever hn.1, hn.2⟩

/-- A listing that is behind stays behind. -/
lemma Grows.behind {value : String} (hb : s.Behind value names) : t.Behind value names := by
  obtain ⟨hknown, hb⟩ := hb
  refine ⟨h.known hknown, ?_⟩
  rcases hb with ⟨n, hn, hgone⟩ | ⟨k, hk, hall⟩
  · exact .inl ⟨n, hn, h.gone hgone⟩
  · exact .inr ⟨k, h.ever hk, fun n hn hever => hall n hn (h.ever_of_known (hknown n hn) hever)⟩

lemma Grows.landed {a : Append} (ha : s.Landed a) : t.Landed a :=
  fun v hv => h.ever (ha v hv)

end

/-- A record that has left is not there. -/
theorem Gone.not_present (h : s.Gone n) : s.present n = false := by
  obtain ⟨r, k, hr, hk⟩ := h
  simp [present, hr, hk]

end Growth

end State

/-! ## Stages -/

open State

/-- What holds of a lookup throughout. -/
structure Lookup.Sound (s : State) (l : Lookup) : Prop where
  before : ∀ m ∈ l.before, s.Ever m l.value
  newest : ∀ n, l.newest = some n → s.Ever n l.value
  passes : l.passes ≤ supersededRescans
  behind : ∀ names, l.behind = some names → s.Behind l.value names

/-- What holds of a scan throughout. Its listing has the record that was the newest when it began,
and if it met a record gone, then the listing is behind. -/
structure Scan.Base (s : State) (l : Lookup) (sc : Scan) : Prop where
  known : s.Known sc.listing
  floor : ∃ n, sc.floor = some n ∧ s.Published l n ∧ n ∈ sc.listing ∧ (l.Last → s.present n)
  behind : sc.superseded → sc.repeats → s.Behind l.value sc.listing

/-- The scan reads: every record of the value that it listed is yet to be read, unless it met a
record gone. -/
structure Scan.Reading (s : State) (l : Lookup) (sc : Scan) : Prop extends Scan.Base s l sc where
  sorted : sc.todo.Pairwise (· > ·)
  listed : ∀ n ∈ sc.todo, n ∈ sc.listing
  unhit : sc.hit = none
  rest : ∀ n ∈ sc.listing, s.Ever n l.value → sc.superseded ∨ n ∈ sc.todo
  last : l.Last → ∀ n, sc.floor = some n → n ∈ sc.todo

/-- The scan has read: every record of the value that it listed is at most as new as what it has,
unless it met a record gone. -/
structure Scan.Done (s : State) (l : Lookup) (sc : Scan) : Prop extends Scan.Base s l sc where
  hit : ∀ n, sc.hit = some n → s.Ever n l.value
  rest : ∀ n ∈ sc.listing, s.Ever n l.value → sc.superseded ∨ ∃ m, sc.hit = some m ∧ n ≤ m
  last : l.Last → ∀ n, sc.floor = some n → ∃ m, sc.hit = some m ∧ n ≤ m

/-- What holds at each stage of a lookup of a published value. -/
def Stage.Looks (s : State) (l : Lookup) : Stage → Prop
  | .ready => True
  | .listing begun floor => ∃ n, floor = some n ∧ s.Published l n ∧ s.present n ∧
      s.BornBefore n begun ∧ ∀ names, l.behind = some names → s.Known names ∧
        ((∃ m ∈ names, s.GoneBefore m begun) ∨ ∀ m ∈ names, s.Ever m l.value → m < n)
  | .listed names floor => s.Known names ∧ names.Nodup ∧
      ∃ n, floor = some n ∧ s.Published l n ∧ n ∈ names ∧ (l.Last → s.present n)
  | .reading sc => sc.Reading s l
  -- the record has left, and the scan is about to know
  | .examining sc name recalled => s.Gone name ∧
      if recalled then Scan.Done s l { sc with superseded := true }
      else Scan.Reading s l { sc with superseded := true }
  | .consulting sc | .closing sc | .dropping sc _ => sc.Done s l
  | .learning sc known => sc.Done s l ∧ ∀ k, known = some k → s.Ever k l.value
  | .recalling sc k | .rereading sc k => sc.Done s l ∧ s.Ever k l.value ∧
      ∀ n, sc.hit = some n → n < k

/-- A strict read of the scan raised. -/
def Stage.failed : Stage → Bool
  | .ready | .listing .. | .listed .. => false
  | .reading sc | .examining sc _ _ | .consulting sc | .learning sc _ | .recalling sc _
  | .dropping sc _ | .rereading sc _ | .closing sc => sc.failed

/-- What holds of a thread. -/
def Thread.Looks (s : State) : Thread → Prop
  | .written a _ | .confirming a _ _ | .dropping a _ | .unlinking a _ | .appended a => s.Landed a
  | .passing w _ => ∀ a, w.carrier = some a → s.Landed a
  | .looking l st => st.failed = false ∧ (l.before ≠ [] → l.Sound s ∧ st.Looks s l)
  | .answered l answer => l.before ≠ [] → ∃ n, answer = some n ∧ s.Published l n
  | .raised l => l.strict
  | .idle | .writing .. => True

variable {x : Thread} {st : Stage}

section Mono

variable {s t : State} {l : Lookup} {sc : Scan}

/-- What a lookup knows stays true. -/
lemma Lookup.Sound.mono (h : l.Sound s) (hg : Grows s t) : l.Sound t :=
  ⟨fun m hm => hg.ever (h.before m hm), fun n hn => hg.ever (h.newest n hn), h.passes,
    fun names hb => hg.behind (h.behind names hb)⟩

section

variable (hg : Grows s t) (hkeep : ∀ n, l.Last → sc.floor = some n → s.present n → t.present n)

include hg hkeep

/-- So does what a scan started from, -/
lemma Scan.Base.mono (h : sc.Base s l) : sc.Base t l := by
  obtain ⟨n, hn, hpub, hmem, hlast⟩ := h.floor
  exact ⟨hg.known h.known, ⟨n, hn, hg.published hpub, hmem, fun hl => hkeep n hl hn (hlast hl)⟩,
    fun hs hr => hg.behind (h.behind hs hr)⟩

/-- what it has read so far, -/
lemma Scan.Reading.mono (h : sc.Reading s l) : sc.Reading t l where
  toBase := h.toBase.mono hg hkeep
  sorted := h.sorted
  listed := h.listed
  unhit := h.unhit
  rest n hn hever := h.rest n hn (hg.ever_of_known (h.known n hn) hever)
  last := h.last

/-- and what it has read in the end. -/
lemma Scan.Done.mono (h : sc.Done s l) : sc.Done t l where
  toBase := h.toBase.mono hg hkeep
  hit n hn := hg.ever (h.hit n hn)
  rest n hn hever := h.rest n hn (hg.ever_of_known (h.known n hn) hever)
  last := h.last

end

/-- What a lookup knows stays true while the record that it needs stays. -/
theorem Stage.Looks.mono (h : st.Looks s l) (hg : Grows s t)
    (hkeep : ∀ n, (looking l st).Needs n → s.present n → t.present n) : st.Looks t l := by
  cases st with
  | ready => trivial
  | listing begun floor =>
    obtain ⟨n, hn, hpub, hhere, hborn, hbehind⟩ := h
    refine ⟨n, hn, hg.published hpub, hkeep n hn hhere, hg.bornBefore hborn,
      fun names hnames => ?_⟩
    obtain ⟨hknown, hrest⟩ := hbehind names hnames
    refine ⟨hg.known hknown, ?_⟩
    rcases hrest with ⟨m, hm, hgone⟩ | hall
    · exact .inl ⟨m, hm, hg.goneBefore hgone⟩
    · exact .inr fun m hm hever => hall m hm (hg.ever_of_known (hknown m hm) hever)
  | listed names floor =>
    obtain ⟨hknown, hnodup, n, hn, hpub, hmem, hlast⟩ := h
    exact ⟨hg.known hknown, hnodup, n, hn, hg.published hpub, hmem,
      fun hl => hkeep n ⟨hl, hn⟩ (hlast hl)⟩
  | reading sc => exact Scan.Reading.mono hg (fun n hl hn => hkeep n ⟨hl, hn⟩) h
  | examining sc name recalled =>
    refine ⟨hg.gone h.1, ?_⟩
    cases recalled
    · exact Scan.Reading.mono hg (fun n hl hn => hkeep n ⟨hl, hn⟩) h.2
    · exact Scan.Done.mono hg (fun n hl hn => hkeep n ⟨hl, hn⟩) h.2
  | consulting sc | closing sc | dropping sc =>
    exact Scan.Done.mono hg (fun n hl hn => hkeep n ⟨hl, hn⟩) h
  | learning sc known =>
    exact ⟨h.1.mono hg fun n hl hn => hkeep n ⟨hl, hn⟩, fun k hk => hg.ever (h.2 k hk)⟩
  | recalling sc k | rereading sc k =>
    exact ⟨h.1.mono hg fun n hl hn => hkeep n ⟨hl, hn⟩, hg.ever h.2.1, h.2.2⟩

/-- A lookup that has lost no record it needs goes on as it was. -/
lemma Thread.Looks.mono (h : x.Looks s) (hg : Grows s t)
    (hkeep : ∀ n, x.Needs n → s.present n → t.present n) : x.Looks t := by
  cases x with
  | idle | writing => trivial
  | written | confirming | dropping | unlinking | appended => exact hg.landed h
  | passing w st => exact fun a ha => hg.landed (h a ha)
  | looking l st =>
    exact ⟨h.1, fun hne => ⟨(h.2 hne).1.mono hg, (h.2 hne).2.mono hg hkeep⟩⟩
  | answered l answer =>
    intro hne
    obtain ⟨n, hn, hpub⟩ := h hne
    exact ⟨n, hn, hg.published hpub⟩
  | raised l => exact h

end Mono

/-! ## Scans -/

variable {name : Name} {todo : List Name}

section Scans

variable {s : State} {l : Lookup} {sc : Scan}

/-- The scan passes over a record that has left. -/
theorem Scan.Reading.skip (h : sc.Reading s l) (htodo : sc.todo = name :: todo)
    (hgone : s.Gone name) (repeats : Bool) (unread : List Name) :
    Scan.Reading s l { sc with todo, superseded := true, repeats, unread } := by
  have hmem : name ∈ sc.listing := h.listed name (htodo ▸ mem_cons_self)
  have hsorted := h.sorted
  rw [htodo] at hsorted
  refine ⟨⟨h.known, h.floor, fun _ _ => ⟨h.known, .inl ⟨name, hmem, hgone⟩⟩⟩,
    (pairwise_cons.mp hsorted).2, fun n hn => ?_, h.unhit, fun _ _ _ => .inl rfl,
    fun hl n hn => ?_⟩
  · exact h.listed n (htodo ▸ mem_cons_of_mem _ hn)
  · -- in the last pass the record that is needed is there
    obtain ⟨n', hn', -, -, hhere⟩ := h.floor
    obtain rfl := mem_unique hn' hn
    have hne : n' ≠ name := by
      rintro rfl
      rw [hgone.not_present] at hhere
      cases hhere hl
    have hold := h.last hl n' hn'
    rw [htodo] at hold
    exact (mem_cons.mp hold).resolve_left hne

/-- The scan passes over a record of another value. -/
theorem Scan.Reading.pass (h : sc.Reading s l) (htodo : sc.todo = name :: todo)
    (hother : ¬ s.Ever name l.value) (learned : List (Name × String)) :
    Scan.Reading s l { sc with todo, learned } := by
  have hsorted := h.sorted
  rw [htodo] at hsorted
  have htail {n : Name} (hn : n ∈ sc.todo) (hever : s.Ever n l.value) : n ∈ todo := by
    rw [htodo] at hn
    rcases mem_cons.mp hn with rfl | hn
    · exact absurd hever hother
    · exact hn
  refine ⟨⟨h.known, h.floor, h.behind⟩, (pairwise_cons.mp hsorted).2, fun n hn => ?_, h.unhit,
    fun n hn hever => (h.rest n hn hever).imp_right fun hmem => htail hmem hever,
    fun hl n hn => ?_⟩
  · exact h.listed n (htodo ▸ mem_cons_of_mem _ hn)
  · obtain ⟨n', hn', hpub, -⟩ := h.floor
    obtain rfl := mem_unique hn' hn
    exact htail (h.last hl n' hn') hpub.1

/-- The scan comes to a record of the value. What is left is older. -/
theorem Scan.Reading.found (h : sc.Reading s l) (htodo : sc.todo = name :: todo)
    (hever : s.Ever name l.value) (learned : List (Name × String)) :
    Scan.Done s l { sc with todo := [], learned, hit := some name } := by
  have hsorted := h.sorted
  rw [htodo] at hsorted
  have hle {n : Name} (hn : n ∈ sc.todo) : n ≤ name := by
    rw [htodo] at hn
    rcases mem_cons.mp hn with rfl | hn
    · exact le_rfl
    · exact ((pairwise_cons.mp hsorted).1 n hn).le
  refine ⟨⟨h.known, h.floor, h.behind⟩, ?_, fun n hn hv => ?_, fun hl n hn => ?_⟩
  · rintro n ⟨⟩
    exact hever
  · exact (h.rest n hn hv).imp_right fun hmem => ⟨name, rfl, hle hmem⟩
  · exact ⟨name, rfl, hle (h.last hl n hn)⟩

/-- The scan has read everything. -/
theorem Scan.Reading.done (h : sc.Reading s l) (htodo : sc.todo = []) : sc.Done s l := by
  refine ⟨h.toBase, by simp [h.unhit], fun n hn hever => ?_, fun hl n hn => ?_⟩
  · have hrest := h.rest n hn hever
    simp only [htodo, not_mem_nil, or_false] at hrest
    exact .inl hrest
  · have hmem := h.last hl n hn
    simp [htodo] at hmem

/-- A remembered record turns out to be gone. -/
theorem Scan.Done.supersede (h : sc.Done s l) (repeats : Bool) (unread : List Name)
    (hbehind : repeats → s.Behind l.value sc.listing) :
    Scan.Done s l { sc with superseded := true, repeats, unread } :=
  ⟨⟨h.known, h.floor, fun _ => hbehind⟩, h.hit, fun _ _ _ => .inl rfl, h.last⟩

/-- A remembered record is newer than what the scan has. -/
theorem Scan.Done.recall (h : sc.Done s l) {k : Name} (hk : s.Ever k l.value)
    (hnewer : ∀ n, sc.hit = some n → n < k) : Scan.Done s l { sc with hit := some k } := by
  refine ⟨⟨h.known, h.floor, h.behind⟩, ?_, fun n hn hever => ?_, fun hl n hn => ?_⟩
  · rintro n ⟨⟩
    exact hk
  · rcases h.rest n hn hever with hs | ⟨m, hm, hle⟩
    · exact .inl hs
    · exact .inr ⟨k, rfl, hle.trans (hnewer m hm).le⟩
  · obtain ⟨m, hm, hle⟩ := h.last hl n hn
    exact ⟨k, rfl, hle.trans (hnewer m hm).le⟩

/-- A listing that lacks a remembered record is behind. -/
theorem Scan.Done.behind_of_recall (h : sc.Done s l) (hclean : sc.superseded = false) {k : Name}
    (hk : s.Ever k l.value) (hnewer : ∀ n, sc.hit = some n → n < k) :
    s.Behind l.value sc.listing := by
  refine ⟨h.known, .inr ⟨k, hk, fun n hn hever => ?_⟩⟩
  rcases h.rest n hn hever with hs | ⟨m, hm, hle⟩
  · simp [hclean] at hs
  · exact hle.trans_lt (hnewer m hm)

end Scans

variable {proc : ℕ} {strict : Bool}

namespace State

/-! ## Steps of a lookup -/

/-- What the runs keep. -/
structure Sees (s : State) : Prop where
  inv : s.Inv
  stamps : ∀ n r, s.records.get? n = some r →
    r.born < s.steps ∧ ∀ k, r.gone = some k → k < s.steps
  readable : ∀ n r, s.records.get? n = some r → r.readable
  completed : ∀ a ∈ s.completed, s.Landed a
  threads : ∀ p, (s.threads p).Looks s

section Lookups

variable {s t : State} {p : ℕ} {io : Io} {l : Lookup} {sc : Scan}

/-- The newest record of a value is one of its records. -/
lemma newestOf_here (h : s.newestOf v = some n) : s.Here n v := by
  have hmem := List.max?_mem h
  obtain ⟨⟨m, r⟩, hitem, hif⟩ := mem_filterMap.mp hmem
  obtain ⟨⟨hv, hreadable, hgone⟩, heq⟩ := ite_none_right_eq_some.mp hif
  cases heq
  exact ⟨r, mem_items_iff.mp hitem, hv, hreadable, hgone⟩

/-- The newest record of a value is at least as new as any that is there. -/
theorem Here.le_newestOf {m : Name} (h : s.Here m v) : ∃ n, s.newestOf v = some n ∧ m ≤ n := by
  obtain ⟨r, hr, hv, hreadable, hgone⟩ := h
  have hmem : m ∈ s.records.items.filterMap fun p =>
      if p.2.value = some v ∧ p.2.readable ∧ p.2.gone = none then some p.1 else none :=
    mem_filterMap.mpr ⟨(m, r), mem_items_iff.mpr hr, by simp [hv, hreadable, hgone]⟩
  cases hmax : s.newestOf v with
  | none =>
    have hnil := List.max?_eq_none_iff.mp hmax
    rw [hnil] at hmem
    cases hmem
  | some n => exact ⟨n, rfl, (List.max?_eq_some_iff.mp hmax).2 m hmem⟩

/-- A lookup of a published value begins to list: it is there. -/
theorem Sees.ready (h : s.Sees) (hl : l.Sound s) (hne : l.before ≠ []) :
    (listing s.steps (s.newestOf l.value)).Looks s l := by
  -- whatever there was of the value is covered by the newest record
  have hcover {k : Name} (hk : s.Ever k l.value) : ∃ n, s.newestOf l.value = some n ∧ k ≤ n := by
    obtain ⟨m, hle, hhere⟩ := h.inv.covered k l.value hk
    obtain ⟨n, hn, hle'⟩ := hhere.le_newestOf
    exact ⟨n, hn, hle.trans hle'⟩
  obtain ⟨m, hm⟩ := exists_mem_of_ne_nil _ hne
  obtain ⟨n, hn, -⟩ := hcover (hl.before m hm)
  have habove {k : Name} (hk : s.Ever k l.value) : k ≤ n := by
    obtain ⟨n', hn', hle⟩ := hcover hk
    obtain rfl := mem_unique hn hn'
    exact hle
  obtain ⟨r, hr, hv, hreadable, hgone⟩ := newestOf_here hn
  refine ⟨n, hn, ⟨⟨r, hr, hv, hreadable⟩, fun k hk => habove (hl.before k hk)⟩, ?_, ?_,
    fun names hnames => ?_⟩
  · simp [present, hr, hgone]
  · exact ⟨r, hr, (h.stamps n r hr).1⟩
  · obtain ⟨hknown, hbehind⟩ := hl.behind names hnames
    refine ⟨hknown, ?_⟩
    rcases hbehind with ⟨g, hg, r', k, hr', hk⟩ | ⟨k, hk, hall⟩
    · exact .inl ⟨g, hg, r', k, hr', hk, (h.stamps g r' hr').2 k hk⟩
    · exact .inr fun x hx hever => (hall x hx hever).trans_le (habove hk)

/-- What a listing may show. -/
lemma listable_iff : s.listable begun names ↔
    names.Nodup ∧ (∀ n r, s.records.get? n = some r → r.born < begun → r.gone = none → n ∈ names) ∧
      ∀ n ∈ names, ∃ r, s.records.get? n = some r ∧ ∀ k, r.gone = some k → begun < k := by
  simp only [listable, Bool.and_eq_true, decide_eq_true_eq, List.all_eq_true, and_assoc]
  refine and_congr_right fun _ => and_congr ?_ ?_
  · constructor
    · exact fun h n r hr => h (n, r) (mem_items_iff.mpr hr)
    · exact fun h p hp => h p.1 p.2 (mem_items_iff.mp hp)
  · simp [Option.any_eq_true, Option.all_eq_true]

/-- The listing has the record that was the newest when it began, and differs from one that was
behind. -/
theorem listed_of_listing {floor : Option Name} (hst : (listing begun floor).Looks s l)
    (hlisted : s.listable begun names) :
    (listed names floor).Looks s l ∧
      ∀ behind, l.behind = some behind → sameEntries behind names = false := by
  obtain ⟨hnodup, hmust, hmay⟩ := listable_iff.mp hlisted
  obtain ⟨n, hn, hpub, hhere, ⟨r, hr, hborn⟩, hbehind⟩ := hst
  have hgone : r.gone = none := by simpa [present, hr] using hhere
  have hmem : n ∈ names := hmust n r hr hborn hgone
  refine ⟨⟨fun m hm => ?_, hnodup, n, hn, hpub, hmem, fun _ => hhere⟩, fun behind hb => ?_⟩
  · obtain ⟨r', hr', -⟩ := hmay m hm
    exact ⟨r', hr'⟩
  · by_contra hsame
    have hsame : sameEntries behind names = true := by simpa using hsame
    simp only [sameEntries, Bool.and_eq_true, List.all_eq_true, decide_eq_true_eq] at hsame
    rcases (hbehind behind hb).2 with ⟨g, hg, r', k, hr', hk, hlt⟩ | hall
    · -- a record that had left is not listed
      obtain ⟨r'', hr'', hlive⟩ := hmay g (hsame.1 g hg)
      obtain rfl := mem_unique hr' hr''
      exact absurd (hlive k hk) (not_lt.mpr hlt.le)
    · exact absurd (hall n (hsame.2 n hmem) hpub.1) (lt_irrefl n)

/-- The scan begins: every record of the value that was listed is to be read. -/
theorem reading_of_listed {floor : Option Name} (hst : (listed names floor).Looks s l)
    {known : Dict Name String} (hknown : ∀ n v, known.get? n = some v → s.Ever n v)
    (htodo : todo =
      (names.filter fun n => (known.get? n).all (· == l.value)).insertionSort (· ≥ ·)) :
    Scan.Reading s l { listing := names, known, todo, floor } := by
  obtain ⟨hlisted, hnodup, n, hn, hpub, hmem, hlast⟩ := hst
  have hperm : todo.Perm (names.filter fun n => (known.get? n).all (· == l.value)) :=
    htodo ▸ perm_insertionSort _ _
  -- what is known to hold another value does hold another
  have hall {m : Name} (hm : m ∈ names) (hever : s.Ever m l.value) : m ∈ todo := by
    refine hperm.mem_iff.mpr (mem_filter.mpr ⟨hm, ?_⟩)
    cases hget : known.get? m with
    | none => rfl
    | some v => simp [s.ever_unique m v l.value (hknown m v hget) hever]
  refine ⟨⟨hlisted, ⟨n, hn, hpub, hmem, hlast⟩, by simp⟩, ?_, fun m hm => ?_, rfl,
    fun m hm hever => .inr (hall hm hever), fun _ m hm => ?_⟩
  · have hge : todo.Pairwise (· ≥ ·) := htodo ▸ pairwise_insertionSort _ _
    have hne : todo.Nodup := hperm.nodup_iff.mpr (hnodup.filter _)
    exact (hge.and hne).imp fun h => lt_of_le_of_ne h.1 (Ne.symm h.2)
  · exact (mem_filter.mp (hperm.mem_iff.mp hm)).1
  · obtain rfl := mem_unique hn hm
    exact hall hmem hpub.1

/-! ### Reads -/

/-- With readable records, a read of a record fails only when it has left. -/
theorem Sees.read (h : s.Sees) (hreads : io.reads) (hknown : ∃ r, s.records.get? name = some r) :
    (∃ value, s.read proc strict io name = .data value) ∨
      (s.read proc strict io name = .missing ∨ s.read proc strict io name = .stale) ∧
        s.Gone name := by
  obtain ⟨r, hr⟩ := hknown
  have hreadable := h.readable name r hr
  unfold State.read
  rw [hr]
  cases hgone : r.gone with
  | none =>
    refine .inl ⟨r.value, ?_⟩
    simp [hgone, hreadable, hreads]
  | some k =>
    have hg : s.Gone name := ⟨r, k, hr, hgone⟩
    simp only [hgone]
    cases strict
    · by_cases hcached : io.cached && decide (name ∈ (s.procs proc).cache)
      · exact .inl ⟨r.value, by simp [hcached]⟩
      · exact .inr ⟨.inl (by simp [hcached]), hg⟩
    · cases io.stale
      · exact .inr ⟨.inl rfl, hg⟩
      · exact .inr ⟨.inr rfl, hg⟩

/-! ### Stages -/

lemma threads_setThread (s : State) (p : ℕ) (x : Thread) : (s.setThread p x).threads p = x :=
  update_self ..

/-- A lookup goes on to the next stage. -/
theorem Looks.next {u : State} {st' : Stage} (h : (looking l st).Looks s)
    (hst : st'.failed = false ∧ (st.Looks s l → st'.Looks s l)) :
    ((u.setThread p (.looking l st')).threads p).Looks s := by
  rw [threads_setThread]
  exact ⟨hst.1, fun hne => ⟨(h.2 hne).1, hst.2 (h.2 hne).2⟩⟩

/-- While all records are readable no read fails. -/
lemma Sees.read_ne_failed (h : s.Sees) (hreads : io.reads) :
    s.read proc strict io name ≠ .failed := by
  intro hfailed
  by_cases hknown : ∃ r, s.records.get? name = some r
  · rcases h.read hreads hknown with ⟨value, hread⟩ | ⟨hread | hread, -⟩
    all_goals
      rw [hread] at hfailed
      cases hfailed
  · have hnone : s.records.get? name = none := by
      simpa [eq_none_iff_forall_ne_some] using hknown
    simp [State.read, hnone] at hfailed

/-- What a read tells of the value of a record. -/
theorem Sees.read_ever (h : s.Sees) {value : Option String}
    (hread : s.read proc strict io name = .data value) (v : String) :
    value = some v ↔ s.Ever name v := by
  obtain ⟨r, hr, rfl, hreadable⟩ := h.inv.read hread
  constructor
  · exact fun hv => ⟨r, hr, hv, hreadable⟩
  · rintro ⟨r', hr', hv, -⟩
    obtain rfl := mem_unique hr hr'
    exact hv

/-- A record that does not read has left. -/
theorem Sees.read_gone (h : s.Sees) (hreads : io.reads) (hknown : ∃ r, s.records.get? name = some r)
    (hread : s.read proc strict io name = .missing ∨ s.read proc strict io name = .stale) :
    s.Gone name := by
  rcases h.read hreads hknown with ⟨value, hdata⟩ | ⟨-, hgone⟩
  · rw [hdata] at hread
    rcases hread with hread | hread <;> cases hread
  · exact hgone

/-- A step of a scan that reads. -/
theorem Sees.reading (h : s.Sees) (hreads : io.reads)
    (hlooks : (looking l (.reading sc)).Looks s)
    (hstep : s.stepLookup p io l (.reading sc) = some t) : (t.threads p).Looks s := by
  have hfail : sc.failed = false := hlooks.1
  unfold State.stepLookup at hstep
  dsimp only at hstep
  split at hstep
  case h_1 htodo =>
    cases hstep
    exact Looks.next hlooks ⟨hfail, fun hst => hst.done htodo⟩
  case h_2 name todo htodo =>
    have hknown (hst : sc.Reading s l) : ∃ r, s.records.get? name = some r :=
      hst.known name (hst.listed name (htodo ▸ mem_cons_self))
    split at hstep
    case h_1 value hread =>
      cases hstep
      have hvalue := h.read_ever hread l.value
      refine Looks.next hlooks ?_
      split
      case isTrue hv => exact ⟨hfail, fun hst => hst.found htodo (hvalue.mp hv) _⟩
      case isFalse hv =>
        exact ⟨hfail, fun hst => hst.pass htodo (fun hever => hv (hvalue.mpr hever)) _⟩
    case h_2 hread =>
      cases hstep
      have hskip (hst : sc.Reading s l) : s.Gone name ∧ Scan.Reading s l
          { sc with todo, superseded := true, unread := name :: sc.unread } := by
        have hgone := h.read_gone hreads (hknown hst) (.inl hread)
        exact ⟨hgone, hst.skip htodo hgone sc.repeats _⟩
      refine Looks.next hlooks ?_
      split
      case isTrue hsup =>
        refine ⟨hfail, fun hst => ?_⟩
        have hrest := (hskip hst).2
        rw [← hsup] at hrest
        exact hrest
      case isFalse => exact ⟨hfail, hskip⟩
    case h_3 hread =>
      cases hstep
      refine Looks.next hlooks ⟨hfail, fun hst => ?_⟩
      exact hst.skip htodo (h.read_gone hreads (hknown hst) (.inr hread)) false sc.unread
    case h_4 hread => exact absurd hread (h.read_ne_failed hreads)

/-- A step of a scan that reads a remembered record. -/
theorem Sees.rereading (h : s.Sees) (hreads : io.reads) {known : Name}
    (hlooks : (looking l (.rereading sc known)).Looks s)
    (hstep : s.stepLookup p io l (.rereading sc known) = some t) : (t.threads p).Looks s := by
  have hfail : sc.failed = false := hlooks.1
  unfold State.stepLookup at hstep
  dsimp only at hstep
  split at hstep
  case h_1 value hread =>
    cases hstep
    refine Looks.next hlooks ?_
    split
    · exact ⟨hfail, fun hst => hst.1.recall hst.2.1 hst.2.2⟩
    · exact ⟨hfail, And.left⟩
  case h_2 hread =>
    cases hstep
    refine Looks.next hlooks ?_
    split
    case isTrue hsup =>
      refine ⟨hfail, fun hst => ?_⟩
      have hrest := hst.1.supersede sc.repeats (known :: sc.unread) (hst.1.behind hsup)
      rw [← hsup] at hrest
      exact hrest
    case isFalse hsup =>
      refine ⟨hfail, fun ⟨hdone, hever, hnewer⟩ => ?_⟩
      have ⟨r, hr, _⟩ := hever
      refine ⟨h.read_gone hreads ⟨r, hr⟩ (.inl hread), hdone.supersede _ _ fun _ => ?_⟩
      exact hdone.behind_of_recall (by simpa using hsup) hever hnewer
  case h_3 =>
    cases hstep
    exact Looks.next hlooks ⟨hfail, fun hst => hst.1.supersede false sc.unread (by simp)⟩
  case h_4 hread => exact absurd hread (h.read_ne_failed hreads)

/-- The newer of two records is one of them, and at least as new as the second. -/
theorem newer_some {a : Option Name} {m : Name} (P : Name → Prop) (ha : ∀ n, a = some n → P n)
    (hm : P m) : ∃ n, newer a (some m) = some n ∧ m ≤ n ∧ P n := by
  cases a with
  | none => exact ⟨m, rfl, le_rfl, hm⟩
  | some k =>
    refine ⟨max k m, rfl, le_max_right k m, ?_⟩
    rcases max_choice k m with heq | heq <;> rw [heq]
    · exact ha k rfl
    · exact hm

/-- The newer of two records is one of them. -/
lemma newer_ever {a b : Option Name} (P : Name → Prop) (ha : ∀ n, a = some n → P n)
    (hb : ∀ n, b = some n → P n) : ∀ n, newer a b = some n → P n := by
  intro n hn
  cases b with
  | none =>
    refine ha n ?_
    cases a <;> exact hn
  | some m =>
    obtain ⟨n', hn', -, hP⟩ := newer_some P ha (hb m rfl)
    obtain rfl := mem_unique hn' hn
    exact hP

/-- The end of a pass. -/
theorem Sees.closing (hst : l.before ≠ [] → l.Sound s ∧ sc.Done s l) :
    ((s.close p l sc).threads p).Looks s := by
  unfold close
  split
  case isTrue hclean =>
    -- nothing was gone, so the record that was the newest has been read, or a newer one
    rw [threads_setThread]
    intro hne
    obtain ⟨n, -, hpub, hmem, -⟩ := (hst hne).2.floor
    rcases (hst hne).2.rest n hmem hpub.1 with hsup | ⟨m, hm, hle⟩
    · simp [hsup] at hclean
    · exact ⟨m, hm, (hst hne).2.hit m hm, fun k hk => (hpub.2 k hk).trans hle⟩
  case isFalse hsup =>
    have hsup : sc.superseded := by simpa using hsup
    rw [threads_setThread]
    dsimp only
    split
    case isTrue hpasses =>
      refine ⟨rfl, fun hne => ⟨⟨(hst hne).1.before, ?_, hpasses, fun names hnames => ?_⟩, trivial⟩⟩
      · exact newer_ever _ (hst hne).1.newest (hst hne).2.hit
      · obtain ⟨hrepeats, heq⟩ := ite_none_right_eq_some.mp hnames
        cases heq
        exact (hst hne).2.behind hsup hrepeats
    case isFalse hpasses =>
      split
      case isTrue hstrict => exact hstrict
      case isFalse hstrict =>
        -- the last pass of a best-effort lookup has read a record that is new enough
        intro hne
        obtain ⟨hl, hdone⟩ := hst hne
        have hlast : l.Last := by
          refine ⟨by simpa using hstrict, ?_⟩
          have hle := hl.passes
          omega
        obtain ⟨n, hn, hpub, -⟩ := hdone.floor
        obtain ⟨m, hm, hle⟩ := hdone.last hlast n hn
        obtain ⟨k, hk, hmk, hever⟩ := newer_some (fun n => s.Ever n l.value) hl.newest
          (hdone.hit m hm)
        rw [hm]
        exact ⟨k, hk, hever, fun x hx => ((hpub.2 x hx).trans hle).trans hmk⟩

/-- Every step of a lookup. -/
theorem Sees.stepLookup (h : s.Sees) (hreads : io.reads) (hlooks : (looking l st).Looks s)
    (hstep : s.stepLookup p io l st = some t) : (t.threads p).Looks s := by
  have hst := hlooks.2
  cases st with
  | ready =>
    cases hstep
    rw [threads_setThread]
    exact ⟨rfl, fun hne => ⟨(hst hne).1, h.ready (hst hne).1 hne⟩⟩
  | listing begun floor =>
    obtain ⟨hlisted, hstep⟩ := ite_none_right_eq_some.mp hstep
    split at hstep
    case isTrue hsame =>
      cases hstep
      rw [threads_setThread]
      intro hne
      -- impossible: the listing differs from the one that was behind
      obtain ⟨behind, hb, hsame⟩ := (Option.any_eq_true ..).mp hsame
      rw [(listed_of_listing (hst hne).2 hlisted).2 behind hb] at hsame
      cases hsame
    case isFalse =>
      cases hstep
      exact Looks.next hlooks ⟨rfl, fun hst => (listed_of_listing hst hlisted).1⟩
  | listed names floor =>
    cases hstep
    refine Looks.next hlooks ⟨rfl, fun hst => reading_of_listed hst (fun n v hn => ?_) rfl⟩
    cases hf : (s.procs l.proc).facts with
    | none => simp [hf] at hn
    | some f => exact (h.inv.procs l.proc f hf).holds n v (by simpa [hf] using hn)
  | reading sc => exact h.reading hreads hlooks hstep
  | examining sc name recalled =>
    cases hstep
    cases recalled
    all_goals
      refine Looks.next hlooks ⟨hlooks.1, fun hst => ?_⟩
      rw [hst.1.not_present]
      exact hst.2
  | consulting sc =>
    cases hstep
    refine Looks.next hlooks ⟨hlooks.1, fun hst => ⟨hst, fun k hk => ?_⟩⟩
    obtain ⟨f, hf, hk⟩ := bind_eq_some_iff.mp hk
    have hsound := h.inv.procs l.proc f hf
    exact hsound.holds k l.value (hsound.newest l.value k hk)
  | learning sc known =>
    cases hstep
    have hfail : sc.failed = false := hlooks.1
    generalize (if sc.learned = [] then s else _) = u
    simp only [hfail, Bool.false_eq_true, if_false]
    split
    case h_1 k =>
      split
      case isTrue hnewer =>
        refine Looks.next hlooks ⟨hfail, fun hst => ⟨hst.1, hst.2 k rfl, fun n hn => ?_⟩⟩
        simpa [hn] using hnewer
      case isFalse => exact Looks.next hlooks ⟨hfail, And.left⟩
    case h_2 => exact Looks.next hlooks ⟨hfail, And.left⟩
  | recalling sc known =>
    cases hstep
    refine Looks.next hlooks ?_
    split
    · exact ⟨hlooks.1, And.left⟩
    · split
      · exact ⟨hlooks.1, And.left⟩
      · exact ⟨hlooks.1, id⟩
  | dropping sc known =>
    cases hstep
    exact Looks.next hlooks ⟨hlooks.1, fun hst => hst.supersede false sc.unread (by simp)⟩
  | rereading sc known => exact h.rereading hreads hlooks hstep
  | closing sc =>
    cases hstep
    exact Sees.closing hst

/-! ## Steps of the other threads -/

/-- An append that lands is landed from then on. -/
theorem looks_stepAppend (hx : x.Looks s) (hg : Grows s t) (hstep : s.stepAppend p io x = some t) :
    (t.threads p).Looks t := by
  unfold stepAppend at hstep
  split at hstep
  case h_1 a stale =>
    split at hstep
    case isTrue => cases hstep
    case isFalse hnew =>
      cases hstep
      rw [threads_setThread]
      intro v hv
      exact ⟨_, get?_set_self .., hv, rfl⟩
  case h_2 a stale =>
    split at hstep
    · cases hstep
      rw [threads_setThread]
      exact hg.landed hx
    · split at hstep
      cases hstep
      rw [threads_setThread]
      split <;> exact hg.landed hx
  case h_3 a doomed other =>
    cases hstep
    rw [threads_setThread]
    split <;> exact hg.landed hx
  case h_7 a =>
    split at hstep
    · cases hstep
      rw [threads_setThread]
      rintro b ⟨⟩
      exact hg.landed hx
    · cases hstep
      rw [complete, threads_setThread]
      trivial
  case h_8 => cases hstep
  all_goals
    cases hstep
    rw [threads_setThread]
    exact hg.landed hx

/-- A pass keeps the append that carries it. -/
theorem looks_stepPass {w : Pass} {st : PassStage} (hx : (passing w st).Looks s)
    (hg : Grows s t) (hstep : s.stepPass p io w st = some t) : (t.threads p).Looks t := by
  have hcarrier : ∀ a, w.carrier = some a → t.Landed a := fun a ha => hg.landed (hx a ha)
  unfold stepPass at hstep
  split at hstep
  case h_1 =>
    cases hstep
    rw [threads_setThread]
    exact hcarrier
  case h_2 =>
    obtain ⟨-, hstep⟩ := ite_none_right_eq_some.mp hstep
    cases hstep
    rw [threads_setThread]
    exact hcarrier
  case h_3 =>
    cases hstep
    rw [complete, threads_setThread]
    trivial
  case h_4 =>
    split at hstep
    · split at hstep
      · cases hstep
        rw [threads_setThread]
        exact hcarrier
      · split at hstep <;>
        · cases hstep
          rw [threads_setThread]
          exact hcarrier
    all_goals
      cases hstep
      rw [threads_setThread]
      exact hcarrier
  case h_5 =>
    split at hstep <;>
    · cases hstep
      rw [threads_setThread]
      exact hcarrier

/-! ### What a step leaves alone -/

/-- The other threads are where they were, and no append is completed but the thread's own. -/
structure Frame (s : State) (p : ℕ) (t : State) : Prop where
  others : ∀ p', p' ≠ p → t.threads p' = s.threads p'
  completed : ∀ a ∈ t.completed, a ∈ s.completed ∨ (s.threads p).carries = some a

lemma frame_setThread : Frame s p (s.setThread p x) :=
  ⟨fun _ hne => update_of_ne hne .., fun _ => .inl⟩

/-- A move of a thread leaves the others alone. -/
lemma Moves.frame (h : Moves s p e t) : Frame s p t := by
  cases h with
  | goes x h =>
    exact ⟨fun p' hne => (update_of_ne hne ..).trans (congrFun h.threads p'),
      fun _ ha => .inl (h.completed ▸ ha)⟩
  | ends h =>
    refine ⟨fun p' hne => (update_of_ne hne ..).trans (congrFun h.threads p'),
      fun a ha => ?_⟩
    rcases mem_append.mp ha with ha | ha
    · exact .inl (h.completed ▸ ha)
    · exact .inr (mem_toList.mp ha)

/-! ## Every run -/

/-- A lookup begins: what was published before it is there. -/
theorem Sees.begins (h : s.Sees) (proc : ℕ) (value : String) (strict : Bool) (mark : Option Mark) :
    (looking { proc, value, strict, mark, before := s.completed.filterMap fun a =>
      if a.value = some value then some a.name else none } .ready).Looks s := by
  refine ⟨rfl, fun _ => ⟨⟨fun m hm => ?_, by simp, by simp [supersededRescans], by simp⟩, trivial⟩⟩
  obtain ⟨a, ha, hif⟩ := mem_filterMap.mp hm
  obtain ⟨hv, heq⟩ := ite_none_right_eq_some.mp hif
  cases heq
  exact h.completed a ha value hv

/-- The thread that moves, and what is left alone. -/
theorem Sees.moves (h : s.Sees) (hreads : e.Reads) (hstep : s.apply e = some t) (hg : Grows s t) :
    ∃ p, Frame s p t ∧
      ((t.threads p).Looks t ∨ t.records = s.records ∧ (t.threads p).Looks s) := by
  cases e with simp only [apply] at hstep
  | arrive => exact hreads.elim
  | shed proc excess =>
    cases hstep
    exact ⟨0, ⟨fun _ _ => rfl, fun _ => .inl⟩, .inr ⟨rfl, h.threads 0⟩⟩
  | append p proc name value =>
    split at hstep
    · cases hstep
      refine ⟨p, frame_setThread, .inl ?_⟩
      rw [threads_setThread]
      trivial
    · cases hstep
  | prune p proc =>
    split at hstep
    · cases hstep
      refine ⟨p, frame_setThread, .inl ?_⟩
      rw [threads_setThread]
      rintro a ⟨⟩
    · cases hstep
  | lookup p proc value strict =>
    split at hstep
    · cases hstep
      refine ⟨p, frame_setThread, .inr ⟨rfl, ?_⟩⟩
      rw [threads_setThread]
      exact h.begins proc value strict _
    · cases hstep
  | go p io =>
    have hlooks := h.threads p
    refine ⟨p, ?_⟩
    simp only [advance] at hstep
    split at hstep
    case h_1 hp =>
      exact ⟨(moves_stepPass hp hstep).frame, .inl (looks_stepPass (hp ▸ hlooks) hg hstep)⟩
    case h_2 hp =>
      obtain ⟨hmoves, hsame⟩ := moves_stepLookup (e := .go p io) hstep
      refine ⟨hmoves.frame, .inr ⟨hsame, ?_⟩⟩
      exact h.stepLookup hreads (hp ▸ hlooks) hstep
    case h_3 => exact ⟨(moves_stepAppend rfl hstep).frame, .inl (looks_stepAppend hlooks hg hstep)⟩

/-- An append that is completed has landed. -/
lemma Frame.landed (h : s.Sees) (hf : Frame s p t) {a : Append} (ha : a ∈ t.completed) :
    s.Landed a := by
  rcases hf.completed a ha with ha | hcarries
  · exact h.completed a ha
  · have hlooks := h.threads p
    cases hp : s.threads p with
    | appended b =>
      rw [hp] at hlooks hcarries
      cases hcarries
      exact hlooks
    | passing w st =>
      rw [hp] at hlooks hcarries
      exact hlooks a hcarries
    | _ =>
      rw [hp] at hcarries
      cases hcarries

/-- Records come and leave before the present step. -/
lemma Change.stamps (h : Change s e t) (hsteps : t.steps = s.steps + 1)
    (hs : ∀ n r, s.records.get? n = some r →
      r.born < s.steps ∧ ∀ k, r.gone = some k → k < s.steps) :
    ∀ n r, t.records.get? n = some r → r.born < t.steps ∧ ∀ k, r.gone = some k → k < t.steps := by
  have hold (n : Name) (r : Record) (hr : s.records.get? n = some r) :
      r.born < t.steps ∧ ∀ k, r.gone = some k → k < t.steps := by
    obtain ⟨hborn, hgone⟩ := hs n r hr
    rw [hsteps]
    exact ⟨hborn.trans (Nat.lt_succ_self _), fun k hk => (hgone k hk).trans (Nat.lt_succ_self _)⟩
  cases h with
  | quiet h => rwa [h]
  | land name value readable hnew hreadable h =>
    rw [h]
    exact forall_set hold ⟨hsteps ▸ Nat.lt_succ_self _, by simp⟩
  | leave name r' hunlinks hr' hhere h =>
    rw [h]
    refine forall_set hold ⟨(hold name r' hr').1, ?_⟩
    rintro k ⟨⟩
    exact hsteps ▸ Nat.lt_succ_self _

/-- All records stay readable. -/
lemma Change.readable (h : Change s e t) (hreads : e.Reads)
    (hs : ∀ n r, s.records.get? n = some r → r.readable) :
    ∀ n r, t.records.get? n = some r → r.readable := by
  cases h with
  | quiet h => rwa [h]
  | land name value readable hnew hreadable h =>
    rw [h]
    refine forall_set hs ?_
    rcases hreadable with hreadable | rfl
    · exact hreadable
    · exact hreads.elim
  | leave name r' hunlinks hr' hhere h =>
    rw [h]
    exact forall_set hs (hs name r' hr')

/-- One step keeps what every thread knows, if it is clear of the lookups. -/
theorem Sees.step (h : s.Sees) (hreads : e.Reads) (hclear : s.Clear e) (hstep : s.step e = some t) :
    t.Sees := by
  have hchange := change_of_step hstep
  have hinv := h.inv.step hstep
  obtain ⟨u, happly, rfl⟩ := map_eq_some_iff.mp hstep
  have hg : Grows s u := ⟨hchange.grows.records⟩
  -- what a lookup needs is not unlinked
  have hkeep {p : ℕ} {n : Name} (hneeds : (s.threads p).Needs n) (hn : s.present n) :
      u.present n := by
    by_contra hleft
    have hleft : u.present n = false := by simpa using hleft
    exact hclear n (hchange.unlinks_eq hn hleft) p hneeds
  obtain ⟨p, hframe, hmoved⟩ := h.moves hreads happly hg
  have hthreads (p' : ℕ) : (u.threads p').Looks u := by
    by_cases hp : p' = p
    · subst hp
      rcases hmoved with hlooks | ⟨hsame, hlooks⟩
      · exact hlooks
      · exact hlooks.mono hg fun n _ hn => by rwa [present, hsame]
    · rw [hframe.others p' hp]
      exact (h.threads p').mono hg fun n => hkeep
  refine ⟨hinv, hchange.stamps rfl h.stamps, hchange.readable hreads h.readable,
    fun a ha => hg.landed (hframe.landed h ha), fun p' => ?_⟩
  exact (hthreads p').mono (.of_eq rfl) fun _ _ => id

/-- At the start nothing has been looked up. -/
lemma Starts.sees (h : s.Starts) (hreadable : ∀ n r, s.records.get? n = some r → r.readable) :
    s.Sees where
  inv := h.inv
  stamps n r hr := by
    obtain ⟨hgone, hborn⟩ := h.records n r hr
    exact ⟨hborn, by simp [hgone]⟩
  readable := hreadable
  completed := by simp [h.completed]
  threads p := by
    rw [h.threads p]
    trivial

end Lookups

/-- **A lookup finds what was published.** In every run in which all records are readable and no
step unlinks a record that a lookup needs, a lookup that answers has a record of the value that is
at least as new as every append of the value that was completed when it began, if there was one; and
only strict lookups raise. -/
theorem lookup_finds_published {s t : State} {events : List Event} (hs : s.Starts)
    (hreadable : ∀ n r, s.records.get? n = some r → r.readable)
    (hrun : Trace.Run (fun s e t => e.Reads ∧ s.Clear e ∧ s.step e = some t) s events t) :
    (∀ p l answer, t.threads p = .answered l answer → l.before ≠ [] →
      ∃ n, answer = some n ∧ t.Ever n l.value ∧ ∀ m ∈ l.before, m ≤ n) ∧
    ∀ p l, t.threads p = .raised l → l.strict := by
  have hsees : t.Sees := hrun.invariant
    (fun _ _ _ h ⟨hreads, hclear, hstep⟩ => h.step hreads hclear hstep) (hs.sees hreadable)
  refine ⟨fun p l answer hp hne => ?_, fun p l hp => ?_⟩
  · have hlooks := hsees.threads p
    rw [hp] at hlooks
    exact hlooks hne
  · have hlooks := hsees.threads p
    rw [hp] at hlooks
    exact hlooks

/-- What a lookup knew when it began, and what it answered. -/
private def outcome : Thread → Option (List Name × Option Name)
  | .answered l answer => some (l.before, answer)
  | _ => none

/-- What the outcome shows of a lookup. -/
private lemma of_outcome {before : List Name} {answer : Option Name}
    (h : outcome x = some (before, answer)) : ∃ l, x = .answered l answer ∧ l.before = before := by
  unfold outcome at h
  split at h
  case h_1 l answer' =>
    obtain ⟨rfl, rfl⟩ := Prod.mk.inj (Option.some.inj h)
    exact ⟨l, rfl, rfl⟩
  case h_2 => cases h

/-- A lookup in the second process, which remembers nothing. -/
private def scan (listing : List Name) : List Event :=
  [.go 1 { listing }, .go 1 {}, .go 1 {}, .go 1 {}, .go 1 {}, .go 1 {}]

/-- Records 1 and 2 are published. While a lookup lists the directory, record 3 lands and its append
is about to unlink record 1. -/
private def superseding : List Event :=
  put 0 0 1 "v" ++ put 0 0 2 "v" ++ [.lookup 1 1 "v" true, .go 1 {}] ++
    [.append 0 0 3 (some "v"), .go 0 {}, .go 0 {}, .go 0 {}]

/-- The state then. -/
private def doomed : State := (superseding.foldlM State.step bare).getD bare

/-- A run of steps that unlink nothing. -/
private lemma run_of_quiet {events : List Event} {s t : State}
    (h : events.foldlM (fun s e => if e.Reads ∧ s.unlinks e = none then s.step e else none) s =
      some t) : Trace.Run (fun s e t => e.Reads ∧ s.Clear e ∧ s.step e = some t) s events t := by
  refine Trace.Run.mono (fun s e t hstep => ?_) (.of_guarded h)
  obtain ⟨⟨hreads, hnone⟩, hstep⟩ := hstep
  exact ⟨hreads, by simp [Clear, hnone], hstep⟩

/-- The lookup needs record 2, and no other thread looks. -/
private lemma clear_doomed : doomed.unlinks (.go 0 {}) = some 1 ∧ doomed.Clear (.go 0 {}) := by
  have hunlinks : doomed.unlinks (.go 0 {}) = some 1 := by decide +kernel
  refine ⟨hunlinks, fun n hn p => ?_⟩
  obtain rfl := Option.some.inj (hunlinks.symm.trans hn)
  match p with
  | 0 => exact id
  | 1 =>
    have hthread : ∃ l, doomed.threads 1 = .looking l (.listing 9 (some 2)) := ⟨_, rfl⟩
    obtain ⟨l, hl⟩ := hthread
    rw [hl]
    simp [Thread.Needs]
  | p + 2 =>
    have hidle : doomed.threads (p + 2) = .idle := rfl
    rw [hidle]
    exact id

/-- Its append unlinks record 1 while the lookup lists, which may show the record all the same. -/
theorem lookup_finds_published_beside_append : ∃ t l,
    Trace.Run (fun s e t => e.Reads ∧ s.Clear e ∧ s.step e = some t) bare
        (superseding ++ [.go 0 {}] ++ scan [1, 2]) t ∧
      t.threads 1 = .answered l (some 2) ∧ l.before = [1, 2] ∧
      ∃ n, some 2 = some n ∧ t.Ever n l.value ∧ ∀ m ∈ l.before, m ≤ n := by
  have hstart : superseding.foldlM
      (fun s e => if e.Reads ∧ s.unlinks e = none then s.step e else none) bare =
        some doomed := rfl
  obtain ⟨s, hs⟩ : ∃ s, doomed.step (.go 0 {}) = some s := ⟨_, rfl⟩
  have hfold : (((scan [1, 2]).foldlM
      (fun s e => if e.Reads ∧ s.unlinks e = none then s.step e else none)
        ((doomed.step (.go 0 {})).getD bare)).map fun t => outcome (t.threads 1)) =
          some (some ([1, 2], some 2)) := by
    decide +kernel
  rw [hs] at hfold
  obtain ⟨t, ht, hout⟩ := map_eq_some_iff.mp hfold
  obtain ⟨l, hl, hbefore⟩ := of_outcome hout
  have hreads : (Event.go 0 {}).Reads := rfl
  have hrun := ((run_of_quiet hstart).snoc ⟨hreads, clear_doomed.2, hs⟩).append (run_of_quiet ht)
  have hfound := lookup_finds_published bare_starts (by simp [bare]) hrun
  exact ⟨t, l, hrun, hl, hbefore, hfound.1 1 l (some 2) hl (by simp [hbefore])⟩

/-- Record 1 is published. While a lookup lists the directory, the next two appends land and the
second of them unlinks record 1. -/
private def missed : List Event :=
  put 0 0 1 "v" ++ [.lookup 1 1 "v" true, .go 1 {}] ++ put 0 0 2 "v" ++
    [.append 0 0 3 (some "v"), .go 0 {}, .go 0 {}, .go 0 {}, .go 0 {}, .go 0 {}, .go 0 {}] ++
    scan []

/-- A listing that overlaps two appends of a value may have no record of it, and then a strict
lookup answers that there is none, though all records are readable and names increase. -/
theorem published_value_missed : ∃ t l,
    Trace.Run (fun s e t => e.Reads ∧ s.step e = some t) bare missed t ∧
      t.threads 1 = .answered l none ∧ l.before = [1] := by
  have hfold : ((missed.foldlM
      (fun (s : State) (e : Event) => if e.Reads then s.step e else none) bare).map fun t =>
        outcome (t.threads 1)) = some (some ([1], none)) := by
    decide +kernel
  obtain ⟨t, ht, hout⟩ := map_eq_some_iff.mp hfold
  obtain ⟨l, hl, hbefore⟩ := of_outcome hout
  exact ⟨t, l, .of_guarded ht, hl, hbefore⟩

end State

end Cronstable.NameKeyed
