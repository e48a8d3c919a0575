import Cronstable.Lib.Trace

/-!
# File locks and their reclamation

A lease or a document has a data file, which is replaced as a whole, and beside it a lock file.
`_locked` opens the lock file, creating it if need be, takes the exclusive lock on the inode it has
open, and then looks whether the path still names that inode; if not, it begins again. Two sweeps
unlink lock files while they hold them: `_gc_leases_sync` with a dead lease, and
`_reclaim_idle_lock_sync` where the data file is gone. So the lock at one path is many inodes over
time, and a thread may wait for one that the path no longer names.

`State.step` is one lock path with any number of threads, cut at the system calls. The kernel grants
the lock of an inode to one open file at a time. It gives a new file any inode that nobody has open:
inode numbers come back. Calls may fail, threads may raise anywhere, and processes may crash. The
sections of the mutators read and write the data file in any way. Windows, which unlinks lock files
after their release, is left out.

## Main definitions

* `Phase`: where a thread is;
* `State.check`: what a sweep looks at, once without the lock and once under it;
* `State.step`: the system calls;
* `Access`: an access to the data file, with the section it is made in.

## Main results

* `State.Inv.inside_unique`: one thread at a time is inside a section;
* `accesses_contiguous`: no section's accesses to the data file are interleaved with another's.
-/

namespace Cronstable.FileLock

open Function Option

/-- The inode of a lock file. -/
abbrev Inode := ℕ

/-- The threads of all processes. -/
abbrev Thread := ℕ

/-- Instants and delays. -/
abbrev Instant := ℕ

/-- What `stat` tells of a lock file. -/
structure LockFile where
  size : ℕ
  mtime : Instant

/-- The data file. -/
structure DataFile (α : Type*) where
  content : α
  mtime : Instant

/-- What a thread came for. -/
inductive Job
  /-- A section that reads and writes the data file. -/
  | mutate (touch : Bool)
  /-- `_gc_leases_sync` at a lease. -/
  | gcLease (cutoff : Instant) (dryRun : Bool)
  /-- `_reclaim_idle_lock_sync`. -/
  | reclaim (cutoff : Instant) (dryRun : Bool)

/-- What a sweep looks at next. -/
inductive Check
  /-- `_lease_dead_past_grace` asks for the modification time of the lease file, -/
  | dating (cutoff : Instant)
  /-- and then reads it. -/
  | reading (cutoff mtime : Instant)
  /-- `_reclaim_idle_lock_sync` asks for the modification time of the lock file, -/
  | aging (cutoff : Instant)
  /-- and then whether the data file exists. -/
  | looking

/-- Where a thread is inside a section. -/
inductive Place
  | body
  /-- A sweep judges again. -/
  | checking (c : Check)
  /-- It unlinks the data file. -/
  | dropping
  /-- It unlinks the lock file. -/
  | unlinking

/-- Where a thread is. `ours` is the inode that `fstat` told. -/
inductive Phase
  | idle
  /-- A sweep judges without the lock. -/
  | prechecking (job : Job) (c : Check)
  | opening (job : Job)
  | opened (job : Job) (i : Inode)
  /-- The lock file is empty, and gets its byte. -/
  | seeding (job : Job) (i ours : Inode)
  | waiting (job : Job) (i ours : Inode)
  /-- It has the lock, and looks whether the path names the inode. -/
  | verifying (job : Job) (i ours : Inode)
  /-- It is inside a section, which has a number of its own. -/
  | inside (i : Inode) (number : ℕ) (place : Place)
  /-- It unlocks, and closes; then it begins again, or is done. -/
  | unlocking (i : Inode) (again : Option Job)
  | closing (i : Inode) (again : Option Job)

/-- An access to the data file, in the section of that number. -/
structure Access where
  number : ℕ
  writes : Bool
  deriving DecidableEq

/-- What happens to the lock file and its threads. -/
inductive Event (α : Type*)
  | tick (delay : Instant)
  | start (p : Thread) (job : Job)
  /-- A sweep's next look, which may fail. -/
  | precheck (p : Thread) (ok : Bool)
  /-- `os.open`; a file that it creates gets the inode. -/
  | openFile (p : Thread) (new : Inode)
  | fstat (p : Thread)
  | seed (p : Thread)
  | grant (p : Thread)
  /-- `os.stat` of the lock path, and the touch of the lock file. -/
  | verify (p : Thread) (ok touched : Bool)
  /-- A mutator reads. -/
  | read (p : Thread)
  /-- A mutator replaces the data file, or unlinks it. -/
  | write (p : Thread) (content : Option α) (ok : Bool)
  /-- The next call of a sweep under the lock. -/
  | sweep (p : Thread) (ok : Bool)
  /-- A call raises, or the section ends. -/
  | leave (p : Thread)
  | unlock (p : Thread)
  | close (p : Thread)
  | crash (p : Thread)

namespace Job

/-- What a sweep judges by. -/
def check : Job → Option Check
  | .mutate _ => none
  | .gcLease cutoff _ => some (.dating cutoff)
  | .reclaim cutoff _ => some (.aging cutoff)

/-- Whether a sweep only looks. -/
def dryRun : Job → Bool
  | .mutate _ => false
  | .gcLease _ dryRun | .reclaim _ dryRun => dryRun

/-- Where a section begins. -/
def place (job : Job) : Place :=
  match job.check with
  | some c => .checking c
  | none => .body

/-- Whether the job wants a fresh modification time. -/
def touches : Job → Bool
  | .mutate touch => touch
  | _ => false

end Job

/-- The look is one at the data file. -/
def Check.accesses : Check → Bool
  | .aging _ => false
  | _ => true

/-- Once its last look allows, `_gc_leases_sync` drops the lease; both drop the lock file. -/
def Check.next : Check → Place
  | .dating _ | .reading .. => .dropping
  | .aging _ | .looking => .unlinking

namespace Phase

/-- The inode that a thread has open. -/
def inode : Phase → Option Inode
  | .idle | .prechecking .. | .opening _ => none
  | .opened _ i | .seeding _ i _ | .waiting _ i _ | .verifying _ i _ | .inside i _ _
  | .unlocking i _ | .closing i _ => some i

/-- The inode whose lock it has. -/
def holds : Phase → Option Inode
  | .verifying _ i _ | .inside i _ _ | .unlocking i _ => some i
  | _ => none

end Phase

/-- One lock path, with its data file and its threads. -/
structure State (α : Type*) where
  clock : Instant
  /-- What the lock path names. -/
  path : Option Inode
  files : Inode → LockFile
  /-- The threads that have an inode open. -/
  openers : Inode → List Thread
  /-- The open file that an inode's lock is granted to. -/
  lock : Inode → Option Thread
  data : Option (DataFile α)
  phases : Thread → Phase
  /-- How many sections have begun. -/
  sections : ℕ
  /-- The accesses made inside sections, newest first. -/
  log : List Access

/-- A look comes to the next one, or to its answer. -/
inductive Verdict
  | look (c : Check)
  | answer (yes : Bool)

namespace State

variable {α : Type*} (expiresAt : α → Option Instant)

/-- A thread moves on. -/
def setPhase (s : State α) (p : Thread) (x : Phase) : State α :=
  { s with phases := Function.update s.phases p x }

/-- An access to the data file is made inside a section. -/
def access (s : State α) (number : ℕ) (writes : Bool) : State α :=
  { s with log := { number, writes } :: s.log }

/-- One look of `_lease_dead_past_grace`, or of `_reclaim_idle_lock_sync`. `expiresAt` reads the
lease, and is `none` on what cannot be read. -/
def check (s : State α) (ok : Bool) : Check → Verdict
  | .dating cutoff =>
    match ok, s.data with
    | true, some file => .look (.reading cutoff file.mtime)
    | _, _ => .answer false
  | .reading cutoff mtime =>
    match ok, s.data.bind fun file => expiresAt file.content with
    | true, some expires => .answer (decide (expires < cutoff ∧ mtime < cutoff))
    | _, _ => .answer false
  | .aging cutoff =>
    match ok, s.path with
    | true, some i => if cutoff ≤ (s.files i).mtime then .answer false else .look .looking
    | _, _ => .answer false
  -- `os.path.exists` is false when its `stat` fails
  | .looking => .answer (!ok || s.data.isNone)

/-- `os.open`: the file that the path names, or a new one. -/
def openFile (s : State α) (p : Thread) (job : Job) (new : Inode) : Option (State α) :=
  match s.path with
  | some i =>
    some ({ s with openers := Function.update s.openers i (p :: s.openers i) }.setPhase p
      (.opened job i))
  | none =>
    let file : LockFile := { size := 0, mtime := s.clock }
    -- an inode that somebody has open is not free
    if s.openers new = [] then
      some ({ s with
        path := some new, files := Function.update s.files new file
        openers := Function.update s.openers new [p]
        lock := Function.update s.lock new none }.setPhase p (.opened job new))
    else none

/-- The path is looked at under the lock. -/
def verify (s : State α) (p : Thread) (job : Job) (i ours : Inode) (ok touched : Bool) : State α :=
  if ok ∧ s.path = some ours then
    let file : LockFile :=
      { s.files i with mtime := if job.touches && touched then s.clock else (s.files i).mtime }
    { s with files := Function.update s.files i file, sections := s.sections + 1 }.setPhase p
      (.inside i s.sections job.place)
  -- a ghost inode: the path is opened afresh
  else s.setPhase p (.unlocking i (some job))

/-- The next call of a sweep under the lock. Failed unlinks are passed over. -/
def sweep (s : State α) (p : Thread) (i : Inode) (number : ℕ) (ok : Bool) :
    Place → Option (State α)
  | .body => none
  | .checking c =>
    let t := if c.accesses then s.access number false else s
    some (t.setPhase p (match s.check expiresAt ok c with
      | .look c => .inside i number (.checking c)
      | .answer true => .inside i number c.next
      | .answer false => .unlocking i none))
  | .dropping =>
    let t := s.access number true
    some ({ t with data := if ok then none else s.data }.setPhase p
      (.inside i number .unlinking))
  | .unlinking =>
    some ({ s with path := if ok then none else s.path }.setPhase p (.unlocking i none))

/-- A process crashes: its files are closed, and locks on them go. -/
def crash (s : State α) (p : Thread) : State α :=
  { s with
    openers := fun i => (s.openers i).erase p
    lock := fun i => if s.lock i = some p then none else s.lock i }.setPhase p .idle

/-- A call raises, or the section ends. -/
def leave : Phase → Option Phase
  | .opening _ => some .idle
  | .opened _ i | .seeding _ i _ | .waiting _ i _ => some (.closing i none)
  | .verifying _ i _ | .inside i _ _ => some (.unlocking i none)
  | _ => none

/-- One system call, or the passing of time. -/
def step (s : State α) : Event α → Option (State α)
  | .tick delay => some { s with clock := s.clock + delay }
  | .start p job =>
    match s.phases p with
    | .idle =>
      some (s.setPhase p (match job.check with
        | some c => .prechecking job c
        | none => .opening job))
    | _ => none
  | .precheck p ok =>
    match s.phases p with
    | .prechecking job c =>
      some (s.setPhase p (match s.check expiresAt ok c with
        | .look c => .prechecking job c
        | .answer true => if job.dryRun then .idle else .opening job
        | .answer false => .idle))
    | _ => none
  | .openFile p new =>
    match s.phases p with
    | .opening job => s.openFile p job new
    | _ => none
  | .fstat p =>
    match s.phases p with
    | .opened job i =>
      some (s.setPhase p
        (if (s.files i).size = 0 then .seeding job i i else .waiting job i i))
    | _ => none
  | .seed p =>
    match s.phases p with
    | .seeding job i ours =>
      let file : LockFile := { size := 1, mtime := s.clock }
      some ({ s with files := Function.update s.files i file }.setPhase p
        (.waiting job i ours))
    | _ => none
  | .grant p =>
    match s.phases p with
    | .waiting job i ours =>
      if s.lock i = none then
        some ({ s with lock := Function.update s.lock i (some p) }.setPhase p
          (.verifying job i ours))
      else none
    | _ => none
  | .verify p ok touched =>
    match s.phases p with
    | .verifying job i ours => some (s.verify p job i ours ok touched)
    | _ => none
  | .read p =>
    match s.phases p with
    | .inside _ number .body => some (s.access number false)
    | _ => none
  | .write p content ok =>
    match s.phases p with
    | .inside _ number .body =>
      let t := s.access number true
      let data := content.map fun content => ({ content, mtime := s.clock } : DataFile α)
      some { t with data := if ok then data else s.data }
    | _ => none
  | .sweep p ok =>
    match s.phases p with
    | .inside i number place => s.sweep expiresAt p i number ok place
    | _ => none
  | .leave p => (leave (s.phases p)).map (s.setPhase p)
  | .unlock p =>
    match s.phases p with
    | .unlocking i again =>
      some ({ s with lock := Function.update s.lock i none }.setPhase p (.closing i again))
    | _ => none
  | .close p =>
    match s.phases p with
    | .closing i again =>
      let openers := Function.update s.openers i ((s.openers i).erase p)
      some ({ s with openers }.setPhase p (match again with
        | some job => .opening job
        | none => .idle))
    | _ => none
  | .crash p => some (s.crash p)

end State

/-! ## Lists in groups -/

section Grouped

variable {β : Type*}

/-- Equal elements of a list stand together. -/
def Grouped : List β → Prop
  | [] => True
  | b :: l => (b ∈ l → l.head? = some b) ∧ Grouped l

/-- What stands between two equal elements is equal to them. -/
theorem Grouped.between {l : List β} (h : Grouped l) {i j k : ℕ} (hij : i ≤ j) (hjk : j ≤ k)
    {b c : β} (hi : l[i]? = some b) (hj : l[j]? = some c) (hk : l[k]? = some b) : c = b := by
  induction l generalizing i j k with
  | nil => simp at hi
  | cons d l ih =>
    obtain ⟨hhead, htail⟩ := h
    match i, j, k with
    | i, 0, _ =>
      obtain rfl : i = 0 := Nat.le_zero.mp hij
      exact mem_unique hj hi
    | 0, j + 1, k + 1 =>
      -- the first element comes again, so the tail begins with it
      obtain rfl : d = b := by simpa using hi
      have hmem : d ∈ l := List.mem_of_getElem? hk
      have hzero : l[0]? = some d := by
        rw [← List.head?_eq_getElem?]
        exact hhead hmem
      exact ih htail (Nat.zero_le j) (Nat.le_of_succ_le_succ hjk) hzero hj hk
    | i + 1, j + 1, k + 1 =>
      exact ih htail (Nat.le_of_succ_le_succ hij) (Nat.le_of_succ_le_succ hjk) hi hj hk

end Grouped

/-! ## The invariant -/

/-- `fstat` told the inode that is open. -/
def Phase.Same : Phase → Prop
  | .seeding _ i ours | .waiting _ i ours | .verifying _ i ours => ours = i
  | _ => True

variable {i : Inode} {n : ℕ} {place : Place}

namespace State

variable {α : Type*} {s t : State α} {p : Thread} {x : Phase} {expiresAt : α → Option Instant}

/-- The numbers of the sections that the accesses were made in. -/
def numbers (s : State α) : List ℕ := s.log.map Access.number

/-- What holds of a thread inside the section of that number: the path names the inode whose lock
the thread has, and nobody has accessed the data file since it did. -/
def Inside (s : State α) (i : Inode) (n : ℕ) : Prop :=
  s.path = some i ∧ n < s.sections ∧ (n ∈ s.numbers → s.numbers.head? = some n)

lemma Inside.named (h : s.Inside i n) : s.path = some i := h.1

lemma Inside.begun (h : s.Inside i n) : n < s.sections := h.2.1

lemma Inside.newest (h : s.Inside i n) :
    n ∈ s.numbers → s.numbers.head? = some n := h.2.2

/-- What the runs keep. -/
structure Inv (s : State α) : Prop where
  pinned : ∀ p i, (s.phases p).inode = some i → p ∈ s.openers i
  locked : ∀ p i, (s.phases p).holds = some i → s.lock i = some p
  same : ∀ p, (s.phases p).Same
  inside : ∀ p i n place, s.phases p = .inside i n place → s.Inside i n
  begun : ∀ n ∈ s.numbers, n < s.sections
  grouped : Grouped s.numbers

/-- One thread at a time is inside a section. Both have the lock of the inode that the path
names. -/
theorem Inv.inside_unique (h : s.Inv) {q : Thread} {j : Inode} {m : ℕ} {place' : Place}
    (hp : s.phases p = .inside i n place) (hq : s.phases q = .inside j m place') : p = q := by
  have hij : some i = some j := (h.inside p i n place hp).named.symm.trans
    (h.inside q j m place' hq).named
  have hlock := h.locked p i (by rw [hp]; rfl)
  rw [some.inj hij, h.locked q j (by rw [hq]; rfl)] at hlock
  exact (some.inj hlock).symm

/-! ### What the kernel does -/

section

variable (h : s.Inv)

include h

/-- Times, sizes and the content of the data file do not matter. -/
theorem Inv.with_files (clock : Instant) (files : Inode → LockFile) (data : Option (DataFile α)) :
    ({ s with clock, files, data } : State α).Inv :=
  { h with }

/-- A thread moves on, with what its new phase needs. -/
theorem Inv.setPhase (hinode : ∀ i, x.inode = some i → p ∈ s.openers i)
    (hholds : ∀ i, x.holds = some i → s.lock i = some p) (hsame : x.Same)
    (hinside : ∀ i n place, x = .inside i n place → s.Inside i n) : (s.setPhase p x).Inv where
  pinned := (forall_update_iff s.phases fun q x => ∀ i, x.inode = some i →
    q ∈ s.openers i).mpr ⟨hinode, fun q _ => h.pinned q⟩
  locked := (forall_update_iff s.phases fun q x => ∀ i, x.holds = some i →
    s.lock i = some q).mpr ⟨hholds, fun q _ => h.locked q⟩
  same := (forall_update_iff s.phases fun _ x => x.Same).mpr ⟨hsame, fun q _ => h.same q⟩
  inside := (forall_update_iff s.phases fun _ x => ∀ i n place, x = .inside i n place →
    s.Inside i n).mpr ⟨hinside, fun q _ => h.inside q⟩
  begun := h.begun
  grouped := h.grouped

/-- A thread moves on without a lock. -/
theorem Inv.setFree (hinode : x.inode = none) (hholds : x.holds = none) (hsame : x.Same) :
    (s.setPhase p x).Inv := by
  refine h.setPhase (by simp [hinode]) (by simp [hholds]) hsame ?_
  rintro i n place rfl
  cases hinode

/-- A thread moves on with the file it has open, and no other lock than it has. -/
theorem Inv.stay (hinode : x.inode = (s.phases p).inode)
    (hholds : ∀ i, x.holds = some i → (s.phases p).holds = some i) (hsame : x.Same)
    (hinside : ∀ i n place, x = .inside i n place → ∃ place', s.phases p = .inside i n place') :
    (s.setPhase p x).Inv := by
  refine h.setPhase (fun i hi => h.pinned p i (hinode.symm.trans hi))
    (fun i hi => h.locked p i (hholds i hi)) hsame fun i n place hx => ?_
  obtain ⟨place', hp⟩ := hinside i n place hx
  exact h.inside p i n place' hp

/-- A thread inside a section accesses the data file. Nobody else is inside one. -/
theorem Inv.access {writes : Bool} (hp : s.phases p = .inside i n place) :
    (s.access n writes).Inv := by
  have hinside := h.inside p i n place hp
  refine { h with
    inside := fun q j m place' hq => ?_
    begun := List.forall_mem_cons.mpr ⟨hinside.begun, h.begun⟩
    grouped := ⟨hinside.newest, h.grouped⟩ }
  obtain rfl := h.inside_unique hp hq
  obtain ⟨rfl, rfl, rfl⟩ := Phase.inside.inj (hp.symm.trans hq)
  exact ⟨hinside.named, hinside.begun, fun _ => rfl⟩

/-- The lock of a thread that needs it no more is released. -/
theorem Inv.unlocked (hp : (s.phases p).holds = none) (hlock : s.lock i = some p) :
    ({ s with lock := update s.lock i none } : State α).Inv := by
  refine { h with locked := fun q j hq => ?_ }
  have hj : j ≠ i := by
    rintro rfl
    rw [h.locked q j hq] at hlock
    cases hlock
    simp [hp] at hq
  simpa [hj] using h.locked q j hq

/-- A thread that has no file open is none of the openers of any inode. -/
theorem Inv.closed (hp : (s.phases p).inode = none) (openers : Inode → List Thread)
    (hopeners : ∀ i q, q ≠ p → q ∈ s.openers i → q ∈ openers i) :
    ({ s with openers } : State α).Inv := by
  refine { h with pinned := fun q i hq => ?_ }
  refine hopeners i q ?_ (h.pinned q i hq)
  rintro rfl
  simp [hp] at hq

/-- The lock of an inode is granted. -/
theorem Inv.granted (hfree : s.lock i = none) :
    ({ s with lock := update s.lock i (some p) } : State α).Inv := by
  refine { h with locked := fun q j hq => ?_ }
  have hlock := h.locked q j hq
  have hj : j ≠ i := by
    rintro rfl
    simp [hfree] at hlock
  simpa [hj] using hlock

/-- A thread opens a file that exists. -/
theorem Inv.reopened (i : Inode) :
    ({ s with openers := update s.openers i (p :: s.openers i) } : State α).Inv := by
  refine { h with pinned := fun q j hq => ?_ }
  have hmem := h.pinned q j hq
  by_cases hj : j = i
  · subst hj
    simp [hmem]
  · simpa [hj] using hmem

/-- A section begins. -/
theorem Inv.entered : ({ s with sections := s.sections + 1 } : State α).Inv :=
  { h with
    inside := fun p i n place hp => ⟨(h.inside p i n place hp).named,
      Nat.lt_succ_of_lt (h.inside p i n place hp).begun, (h.inside p i n place hp).newest⟩
    begun := fun n hn => Nat.lt_succ_of_lt (h.begun n hn) }

/-- A file is created at a path that names none. Nobody is inside a section, and nobody has the
inode open. -/
theorem Inv.created {new : Inode} (hpath : s.path = none) (hfree : s.openers new = []) :
    ({ s with
      path := some new, openers := update s.openers new [p]
      lock := update s.lock new none } : State α).Inv := by
  have hne {q : Thread} {i : Inode} (hq : (s.phases q).inode = some i) : i ≠ new := by
    rintro rfl
    simpa [hfree] using h.pinned q i hq
  have hopen {x : Phase} {i : Inode} (hx : x.holds = some i) : x.inode = some i := by
    cases x <;> first | exact hx | cases hx
  refine { h with
    pinned := fun q i hq => ?_, locked := fun q i hq => ?_, inside := fun q i n place hq => ?_ }
  · simpa [hne hq] using h.pinned q i hq
  · simpa [hne (hopen hq)] using h.locked q i hq
  · have hnamed := (h.inside q i n place hq).named
    simp [hpath] at hnamed

end

/-! ### Steps -/

section

variable (h : s.Inv)

include h

/-- `os.open` -/
theorem Inv.openFile {job : Job} {new : Inode}
    (hstep : s.openFile p job new = some t) : t.Inv := by
  unfold State.openFile at hstep
  split at hstep
  case h_1 i hpath =>
    cases hstep
    refine Inv.setPhase (h.reopened i) ?_ (by simp [Phase.holds]) trivial (by simp)
    rintro _ ⟨⟩
    simp
  case h_2 hpath =>
    obtain ⟨hfree, hstep⟩ := ite_none_right_eq_some.mp hstep
    cases hstep
    refine Inv.setPhase ((h.created hpath hfree).with_files _ _ _) ?_ (by simp [Phase.holds])
      trivial (by simp)
    rintro _ ⟨⟩
    simp

/-- The path is looked at under the lock. -/
theorem Inv.verify {job : Job} {ours : Inode} {ok touched : Bool}
    (hp : s.phases p = .verifying job i ours) : (s.verify p job i ours ok touched).Inv := by
  have hopen : p ∈ s.openers i := h.pinned p i (by rw [hp]; rfl)
  have hlock : s.lock i = some p := h.locked p i (by rw [hp]; rfl)
  have hsame : ours = i := by
    have hp' := h.same p
    rwa [hp] at hp'
  unfold State.verify
  split
  case isTrue hpath =>
    refine Inv.setPhase (h.entered.with_files _ _ _) ?_ ?_ trivial ?_
    · rintro _ ⟨⟩
      exact hopen
    · rintro _ ⟨⟩
      exact hlock
    · -- the number is new
      rintro _ _ _ ⟨⟩
      exact ⟨hsame ▸ hpath.2, Nat.lt_succ_self _, fun hmem =>
        absurd (h.begun _ hmem) (Nat.lt_irrefl _)⟩
  case isFalse =>
    refine h.stay (by rw [hp]; rfl) (fun j hj => ?_) trivial (by simp)
    rw [hp]
    exact hj

section

variable (hp : s.phases p = .inside i n place)

include hp

/-- A thread leaves its section, and keeps the lock for now. -/
theorem Inv.left (again : Option Job) : (s.setPhase p (.unlocking i again)).Inv := by
  refine h.stay (by rw [hp]; rfl) (fun j hj => ?_) trivial (by simp)
  rw [hp]
  exact hj

/-- A thread goes on inside its section. -/
theorem Inv.went (place' : Place) : (s.setPhase p (.inside i n place')).Inv := by
  refine h.stay (by rw [hp]; rfl) (fun j hj => ?_) trivial ?_
  · rw [hp]
    exact hj
  · rintro _ _ _ ⟨⟩
    exact ⟨place, hp⟩

/-- The next call of a sweep under the lock. -/
theorem Inv.sweep {ok : Bool}
    (hstep : s.sweep expiresAt p i n ok place = some t) : t.Inv := by
  cases place with
  | body => cases hstep
  | checking c =>
    cases hstep
    obtain ⟨hlooked, hphase⟩ : (if c.accesses then s.access n false else s).Inv ∧
        (if c.accesses then s.access n false else s).phases p = .inside i n (.checking c) := by
      split
      · exact ⟨h.access hp, hp⟩
      · exact ⟨h, hp⟩
    generalize (if c.accesses then s.access n false else s) = looked at hlooked hphase ⊢
    split
    · exact hlooked.went hphase _
    · exact hlooked.went hphase _
    · exact hlooked.left hphase none
  | dropping =>
    cases hstep
    exact Inv.went ((h.access hp).with_files _ _ _) hp .unlinking
  | unlinking =>
    cases hstep
    have hleft := h.left hp none
    cases ok
    · exact hleft
    · -- the thread was the only one inside a section, and it is out
      refine { hleft with inside := fun q j m place hq => False.elim ?_ }
      by_cases hqp : q = p
      · simp [State.setPhase, hqp] at hq
      · exact hqp (h.inside_unique (by simpa [State.setPhase, hqp] using hq) hp)

end

/-- A process crashes. -/
theorem Inv.crash (p : Thread) : (s.crash p).Inv := by
  have hidle : (s.setPhase p .idle).Inv := h.setFree rfl rfl trivial
  have hphase : (s.setPhase p .idle).phases p = .idle := by simp [State.setPhase]
  have hclosed := hidle.closed (by rw [hphase]; rfl) (fun i => (s.openers i).erase p)
    fun i q hq hmem => (List.mem_erase_of_ne hq).mpr hmem
  refine ⟨hclosed.pinned, fun q i hq => ?_, hclosed.same, hclosed.inside, hclosed.begun,
    hclosed.grouped⟩
  have hqp : q ≠ p := by
    rintro rfl
    have hq : ((s.setPhase q .idle).phases q).holds = some i := hq
    rw [hphase] at hq
    cases hq
  have hlock : s.lock i = some q := hclosed.locked q i hq
  simp [State.crash, State.setPhase, hlock, hqp]

/-- A call raises, or the section ends. -/
theorem Inv.leave (hleave : State.leave (s.phases p) = some x) : (s.setPhase p x).Inv := by
  generalize hp : s.phases p = y at hleave
  cases y with
  | idle | prechecking | unlocking | closing => cases hleave
  | opening =>
    cases hleave
    exact h.setFree rfl rfl trivial
  | opened | seeding | waiting =>
    cases hleave
    exact h.stay (by rw [hp]; rfl) (by simp [Phase.holds]) trivial (by simp)
  | verifying job i ours =>
    cases hleave
    refine h.stay (by rw [hp]; rfl) (fun j hj => ?_) trivial (by simp)
    rw [hp]
    exact hj
  | inside i n place =>
    cases hleave
    exact h.left hp none

/-- Every step keeps the invariant. -/
theorem Inv.step {e : Event α}
    (hstep : s.step expiresAt e = some t) : t.Inv := by
  cases e with simp only [State.step] at hstep
  | tick delay =>
    cases hstep
    exact h.with_files _ _ _
  | start p job =>
    split at hstep
    · cases hstep
      split <;> exact h.setFree rfl rfl trivial
    · cases hstep
  | precheck p ok =>
    split at hstep
    · cases hstep
      repeat' split
      all_goals exact h.setFree rfl rfl trivial
    · cases hstep
  | openFile p new =>
    split at hstep
    · exact h.openFile hstep
    · cases hstep
  | fstat p =>
    split at hstep
    case h_1 hp =>
      cases hstep
      split <;> exact h.stay (by rw [hp]; rfl) (by simp [Phase.holds]) rfl (by simp)
    case h_2 => cases hstep
  | seed p =>
    split at hstep
    case h_1 hp =>
      cases hstep
      have hsame := h.same p
      rw [hp] at hsame
      exact Inv.stay (h.with_files _ _ _) (by rw [hp]; rfl) (by simp [Phase.holds]) hsame
        (by simp)
    case h_2 => cases hstep
  | grant p =>
    split at hstep
    case h_1 job i ours hp =>
      obtain ⟨hfree, hstep⟩ := ite_none_right_eq_some.mp hstep
      cases hstep
      have hsame := h.same p
      rw [hp] at hsame
      refine Inv.setPhase (h.granted hfree) ?_ ?_ hsame (by simp)
      · exact fun j hj => h.pinned p j (by rw [hp]; exact hj)
      · rintro _ ⟨⟩
        simp
    case h_2 => cases hstep
  | verify p ok touched =>
    split at hstep
    case h_1 hp =>
      cases hstep
      exact h.verify hp
    case h_2 => cases hstep
  | read p =>
    split at hstep
    case h_1 hp =>
      cases hstep
      exact h.access hp
    case h_2 => cases hstep
  | write p content ok =>
    split at hstep
    case h_1 hp =>
      cases hstep
      exact (h.access hp).with_files _ _ _
    case h_2 => cases hstep
  | sweep p ok =>
    split at hstep
    case h_1 hp => exact h.sweep hp hstep
    case h_2 => cases hstep
  | leave p =>
    obtain ⟨x, hx, rfl⟩ := map_eq_some_iff.mp hstep
    exact h.leave hx
  | unlock p =>
    split at hstep
    case h_1 i again hp =>
      cases hstep
      -- first the thread moves on, then the lock goes
      have hmoved : (s.setPhase p (.closing i again)).Inv :=
        h.stay (by rw [hp]; rfl) (by simp [Phase.holds]) trivial (by simp)
      exact hmoved.unlocked (by simp [State.setPhase, Phase.holds])
        (h.locked p i (by rw [hp]; rfl))
    case h_2 => cases hstep
  | close p =>
    split at hstep
    case h_1 i again hp =>
      cases hstep
      have hopeners (j : Inode) (q : Thread) (hq : q ≠ p) (hmem : q ∈ s.openers j) :
          q ∈ update s.openers i ((s.openers i).erase p) j := by
        by_cases hj : j = i
        · subst hj
          simpa [List.mem_erase_of_ne hq] using hmem
        · simpa [hj] using hmem
      cases again with
      | none =>
        have hmoved : (s.setPhase p .idle).Inv := h.setFree rfl rfl trivial
        exact hmoved.closed (by simp [State.setPhase, Phase.inode]) _ hopeners
      | some job =>
        have hmoved : (s.setPhase p (.opening job)).Inv := h.setFree rfl rfl trivial
        exact hmoved.closed (by simp [State.setPhase, Phase.inode]) _ hopeners
    case h_2 => cases hstep
  | crash p =>
    cases hstep
    exact h.crash p

end

/-! ## Every run -/

/-- No thread has come yet. The path may name a file, and there may be data. -/
structure Starts (s : State α) : Prop where
  phases : ∀ p, s.phases p = .idle
  log : s.log = []

/-- The invariant holds at the start. -/
lemma Starts.inv (h : s.Starts) : s.Inv where
  pinned p := by simp [h.phases p, Phase.inode]
  locked p := by simp [h.phases p, Phase.holds]
  same p := by simp [h.phases p, Phase.Same]
  inside p := by simp [h.phases p]
  begun := by simp [numbers, h.log]
  grouped := by simp [numbers, h.log, Grouped]

/-- **Sections exclude each other.** In every run, an access to the data file that is made between
two accesses of one section is made in that section. -/
theorem accesses_contiguous {expiresAt : α → Option Instant} {t : State α} {events : List (Event α)}
    (hs : s.Starts) (hrun : Trace.Run (fun s e t => s.step expiresAt e = some t) s events t)
    {i j k : ℕ} (hij : i < j) (hjk : j < k) {a b c : Access} (ha : t.log[i]? = some a)
    (hb : t.log[j]? = some b) (hc : t.log[k]? = some c) (hac : a.number = c.number) :
    b.number = a.number := by
  have hinv : t.Inv := hrun.invariant (fun _ _ _ h hstep => h.step hstep) hs.inv
  have hnumber {l : ℕ} {d : Access} (hd : t.log[l]? = some d) :
      t.numbers[l]? = some d.number := by
    simp [numbers, hd]
  exact hinv.grouped.between (Nat.le_of_lt hij) (Nat.le_of_lt hjk) (hnumber ha) (hnumber hb)
    (hac ▸ hnumber hc)

/-- There is no lock file. -/
private def bare : State ℕ :=
  { clock := 0, path := none, files := fun _ => { size := 0, mtime := 0 }, openers := fun _ => []
    lock := fun _ => none, data := none, phases := fun _ => .idle, sections := 0, log := [] }

/-- A thread comes and opens the lock file; a new one is `new`. -/
private def comes (p : Thread) (new : Inode) : List (Event ℕ) :=
  [.start p (.mutate false), .openFile p new, .fstat p]

/-- A thread gets the lock and verifies it. -/
private def enters (p : Thread) : List (Event ℕ) := [.grant p, .verify p true false]

/-- A thread leaves its section. -/
private def exits (p : Thread) : List (Event ℕ) := [.leave p, .unlock p, .close p]

/-- A lease is written and dies. A sweep drops it with its lock file while thread 1 waits for the
lock, and thread 2 makes a new lock file. Thread 1 gets the lock of the old one, finds the path to
name another, and begins again. -/
private def swept : List (Event ℕ) :=
  comes 2 7 ++ [.seed 2] ++ enters 2 ++ [.write 2 (some 5) true] ++ exits 2 ++
    [.tick 100, .start 0 (.gcLease 50 false), .precheck 0 true, .precheck 0 true, .openFile 0 9,
      .fstat 0] ++ enters 0 ++ comes 1 9 ++
    [.sweep 0 true, .sweep 0 true, .sweep 0 true, .sweep 0 true, .unlock 0] ++ comes 2 8 ++
    [.seed 2] ++ enters 1 ++ enters 2 ++ [.read 2, .unlock 1, .close 1, .openFile 1 9, .fstat 1,
      .write 2 (some 200) true] ++ exits 2 ++ enters 1 ++ [.read 1, .write 1 (some 300) true]

theorem accesses_contiguous_swept : ∃ (t : State ℕ) (a b c : Access),
    Trace.Run (fun s e t => s.step some e = some t) bare swept t ∧
      t.numbers = [3, 3, 2, 2, 1, 1, 1, 0] ∧ t.log[4]? = some a ∧ t.log[5]? = some b ∧
      t.log[6]? = some c ∧ b.number = a.number := by
  have hfold : (swept.foldlM (step some) bare).map (fun t => t.log) =
      some [⟨3, true⟩, ⟨3, false⟩, ⟨2, true⟩, ⟨2, false⟩, ⟨1, true⟩, ⟨1, false⟩, ⟨1, false⟩,
        ⟨0, true⟩] := by
    decide +kernel
  obtain ⟨t, ht, hlog⟩ := map_eq_some_iff.mp hfold
  have hrun := Trace.Run.of_foldlM ht
  have ha : t.log[4]? = some ⟨1, true⟩ := by simp [hlog]
  have hb : t.log[5]? = some ⟨1, false⟩ := by simp [hlog]
  have hc : t.log[6]? = some ⟨1, false⟩ := by simp [hlog]
  exact ⟨t, _, _, _, hrun, by simp [numbers, hlog], ha, hb, hc,
    accesses_contiguous ⟨fun _ => rfl, rfl⟩ hrun (by decide) (by decide) ha hb hc rfl⟩

end State

end Cronstable.FileLock
