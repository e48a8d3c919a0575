import Cronstable.Store.FieldFacts
import Cronstable.Lib.Trace

/-!
# Name-keyed record streams

An append to a name-keyed stream supersedes the older records that hold the same string in one
field. It unlinks the record two versions behind its own, if its process remembers one, and now and
then it runs a pass over the stream that keeps the newest record of each string. A lookup lists the
directory and reads from the newest record down; a record that it listed and that has left since
makes it list the stream again.

`State.step` is one stream with any number of threads in any number of processes, cut at the system
calls and at the sections under the index lock of a process. A listing takes time: it has every
record that was there all along, and may have those that came or went meanwhile. A record is
readable or it is not; a read of a readable one may fail all the same. Records leave only through
appends and passes. The facts of a process may be shed at any time, as far as anybody likes, since
the index is shared with other streams.

File names that are no records, and the floors that names are minted above, are left out: an append
comes with its name.

## Main definitions

* `State.step`: one step of a thread;
* `State.unlinks`: the record that a step unlinks;
* `Thread`, `PassStage`, `Stage`: where an append, a pass and a lookup are.
-/

namespace Cronstable.NameKeyed

/-- `_SUPERSEDED_RESCANS`. -/
def supersededRescans : ℕ := 3

/-- A record file, and the steps at which it came and left. -/
structure Record where
  /-- The string that it holds in the field. -/
  value : Option String
  readable : Bool
  born : ℕ
  gone : Option ℕ := none
  deriving DecidableEq

/-- What a process remembers. -/
structure Proc where
  /-- The entry of the stream in `_field_index`. -/
  facts : Option FieldFacts := none
  /-- How many tables there were. -/
  tables : ℕ := 0
  /-- The record cache. -/
  cache : List Name := []

namespace Proc

/-- `_field_index_mark`. -/
def mark (q : Proc) : Option Mark := q.facts.map FieldFacts.mark

/-- `_field_index_take`. -/
def take (q : Proc) : FieldFacts := q.facts.getD { table := q.tables }

/-- `_field_index_put`, without what it sheds. -/
def put (q : Proc) (f : FieldFacts) : Proc :=
  { q with facts := if f.values.items = [] then none else some f, tables := q.tables + 1 }

/-- The index sheds facts of the stream. -/
def shed (q : Proc) (excess : ℕ) : Proc :=
  match q.facts with
  | none => q
  | some f => q.put (f.shed q.tables excess)

/-- `_field_index_drop`. -/
def drop (q : Proc) (name : Name) : Proc := q.put (q.take.forget name)

/-- `_field_index_learn`. The index may be over its budget. -/
def learn (q : Proc) (learned : List (Name × String)) (listing : List Name) (mark : Option Mark)
    (gone : List Name) (crowded : Bool) : Proc :=
  q.put (q.take.fold learned listing mark gone (if crowded then 0 else staleSlack))

/-- `_superseded_twice`. -/
def supersededTwice (q : Proc) (value : Option String) : Option Name := do
  let value ← value
  let f ← q.facts
  f.prior.get? value

/-- The section of `_unlink_superseded`: the facts afterwards, the records to unlink, and the newer
record that is remembered beside the new one. -/
def superseded (q : Proc) (name : Name) (value : String) (stale : Option Name) :
    Proc × List Name × Option Name :=
  let (f, pushed) := q.take.learn name value
  let newest := f.newest.get? value
  let prior := f.prior.get? value
  let doomed := ([stale, pushed].reduceOption.filter fun older =>
    some older ≠ newest ∧ some older ≠ prior).dedup
  (q.put (doomed.foldl FieldFacts.forget f), doomed, if newest = some name then prior else newest)

end Proc

/-- What the environment decides in a step. -/
structure Io where
  /-- What a listing shows. -/
  listing : List Name := []
  /-- A read of a readable record succeeds. -/
  reads : Bool := true
  /-- A best-effort read finds the record in the cache. -/
  cached : Bool := false
  /-- A strict read of a record that has left meets a stale handle. -/
  stale : Bool := false
  unlinks : Bool := true
  /-- A pass is due. -/
  due : Bool := false
  /-- The index is over its budget. -/
  crowded : Bool := false

/-- An append of a record. -/
structure Append where
  proc : ℕ
  name : Name
  value : Option String

/-- A pass of `_prune_latest_by_sync`. -/
structure Pass where
  proc : ℕ
  /-- The append that carries it. -/
  carrier : Option Append
  spare : Option String
  mark : Option Mark

/-- Where a pass is. `kept` is newest first. -/
inductive PassStage
  | ready
  | listing (begun : ℕ)
  | reading (names todo : List Name) (kept : List (Name × String)) (gone : List Name)
  | unlinking (names : List Name) (name : Name) (todo : List Name) (kept : List (Name × String))
      (gone : List Name)

/-- A lookup of `_newest_record_with_sync`. -/
structure Lookup where
  proc : ℕ
  value : String
  strict : Bool
  mark : Option Mark
  /-- The appends of the value that were completed when it began. -/
  before : List Name
  /-- How many passes there were. -/
  passes : ℕ := 0
  /-- The newest record of the value that any pass read. -/
  newest : Option Name := none
  behind : Option (List Name) := none

/-- A pass of a lookup. -/
structure Scan where
  listing : List Name
  /-- What was known when the scan began. -/
  known : Dict Name String
  todo : List Name
  learned : List (Name × String) := []
  hit : Option Name := none
  superseded : Bool := false
  repeats : Bool := true
  unread : List Name := []
  /-- A strict read raised. -/
  failed : Bool := false
  /-- The newest record of the value when the listing began. -/
  floor : Option Name

/-- Where a lookup is. -/
inductive Stage
  | ready
  | listing (begun : ℕ) (floor : Option Name)
  | listed (names : List Name) (floor : Option Name)
  | reading (sc : Scan)
  /-- A record did not read: has it left? -/
  | examining (sc : Scan) (name : Name) (recalled : Bool)
  /-- The facts are asked for the newest record, -/
  | consulting (sc : Scan)
  /-- and learn what was read. -/
  | learning (sc : Scan) (known : Option Name)
  /-- `recall` confirms the record, -/
  | recalling (sc : Scan) (known : Name)
  /-- drops its fact, -/
  | dropping (sc : Scan) (known : Name)
  /-- or reads it. -/
  | rereading (sc : Scan) (known : Name)
  | closing (sc : Scan)

/-- Where a thread is. -/
inductive Thread
  | idle
  | writing (a : Append) (stale : Option Name)
  | written (a : Append) (stale : Option Name)
  | confirming (a : Append) (doomed : List Name) (other : Name)
  | dropping (a : Append) (other : Name)
  | unlinking (a : Append) (doomed : List Name)
  | appended (a : Append)
  | passing (w : Pass) (st : PassStage)
  | looking (l : Lookup) (st : Stage)
  | answered (l : Lookup) (answer : Option Name)
  | raised (l : Lookup)

/-- What happens to the stream. -/
inductive Event
  /-- A record arrives that cannot be read here. -/
  | arrive (name : Name) (value : Option String)
  | shed (proc excess : ℕ)
  | append (p proc : ℕ) (name : Name) (value : Option String)
  | prune (p proc : ℕ)
  | lookup (p proc : ℕ) (value : String) (strict : Bool)
  /-- The next step of a thread. -/
  | go (p : ℕ) (io : Io)

/-- One stream. -/
structure State where
  steps : ℕ
  /-- Every record there was. -/
  records : Dict Name Record
  procs : ℕ → Proc
  threads : ℕ → Thread
  completed : List Append

/-- What a read comes to. -/
inductive Read
  | data (value : Option String)
  | missing
  | stale
  | failed

/-- Two listings have the same entries. -/
def sameEntries (a b : List Name) : Bool := a.all (· ∈ b) && b.all (· ∈ a)

/-- What the scan learns from a record. -/
def Scan.note (sc : Scan) (name : Name) (value : Option String) : List (Name × String) :=
  match value with
  | some v =>
    if v.length ≤ maxValueChars ∧ sc.known.get? name ≠ some v then sc.learned ++ [(name, v)]
    else sc.learned
  | none => sc.learned

/-- The newer of two records. -/
def newer : Option Name → Option Name → Option Name
  | none, b => b
  | a, none => a
  | some a, some b => some (max a b)

namespace State

/-! ## The directory -/

/-- A thread moves on. -/
def setThread (s : State) (p : ℕ) (x : Thread) : State :=
  { s with threads := Function.update s.threads p x }

/-- What a process remembers changes. -/
def setProc (s : State) (q : ℕ) (x : Proc) : State :=
  { s with procs := Function.update s.procs q x }

/-- `os.lstat` finds the record. -/
def present (s : State) (name : Name) : Bool := (s.records.get? name).any (·.gone.isNone)

/-- A record lands. -/
def land (s : State) (name : Name) (value : Option String) (readable : Bool) : State :=
  { s with records := s.records.set name { value, readable, born := s.steps } }

/-- A record is unlinked. -/
def unlink (s : State) (name : Name) : State :=
  match s.records.get? name with
  | some r =>
    if r.gone.isNone then
      { s with records := s.records.set name { r with gone := some s.steps } }
    else s
  | none => s

/-- A listing that began then may show these records now. -/
def listable (s : State) (begun : ℕ) (listing : List Name) : Bool :=
  decide listing.Nodup &&
    (s.records.items.all fun p =>
      decide (p.2.born < begun → p.2.gone = none → p.1 ∈ listing)) &&
    listing.all fun n => (s.records.get? n).any fun r => r.gone.all fun k => decide (begun < k)

/-- The newest readable record of a value. -/
def newestOf (s : State) (value : String) : Option Name :=
  (s.records.items.filterMap fun p =>
    if p.2.value = some value ∧ p.2.readable ∧ p.2.gone = none then some p.1 else none).max?

/-- `_read_record`. -/
def read (s : State) (proc : ℕ) (strict : Bool) (io : Io) (name : Name) : Read :=
  match s.records.get? name with
  | none => .missing
  | some r =>
    if strict then
      if r.gone.isSome then (if io.stale then .stale else .missing)
      else if r.readable && io.reads then .data r.value
      else .failed
    else if io.cached && decide (name ∈ (s.procs proc).cache) then .data r.value
    else if r.gone.isNone && r.readable && io.reads then .data r.value
    else .missing

/-- A record that a best-effort read got is cached. -/
def cache (s : State) (proc : ℕ) (strict : Bool) (name : Name) : State :=
  if strict then s
  else s.setProc proc { s.procs proc with cache := name :: (s.procs proc).cache }

/-! ## Appends -/

/-- An append is over. -/
def complete (s : State) (p : ℕ) (carrier : Option Append) : State :=
  { s with completed := s.completed ++ carrier.toList }.setThread p .idle

/-- `_append_sync`, from its write on. -/
def stepAppend (s : State) (p : ℕ) (io : Io) : Thread → Option State
  | .writing a stale =>
    -- names are not used twice
    if s.records.contains a.name then none
    else some ((s.land a.name a.value true).setThread p (.written a stale))
  | .written a stale =>
    match a.value with
    | none => some (s.setThread p (.appended a))
    | some value =>
      match (s.procs a.proc).superseded a.name value stale with
      | (q, doomed, other) =>
        some ((s.setProc a.proc q).setThread p (match doomed, other with
          | [], _ | _, none => .appended a
          | doomed, some other => .confirming a doomed other))
  | .confirming a doomed other =>
    some (s.setThread p (if s.present other then .unlinking a doomed else .dropping a other))
  | .dropping a other =>
    some ((s.setProc a.proc ((s.procs a.proc).drop other)).setThread p (.appended a))
  | .unlinking a [] => some (s.setThread p (.appended a))
  | .unlinking a (older :: doomed) =>
    let t := if io.unlinks then s.unlink older else s
    some (t.setThread p (.unlinking a doomed))
  | .appended a =>
    if io.due then
      let w : Pass :=
        { proc := a.proc, carrier := some a, spare := a.value, mark := (s.procs a.proc).mark }
      some (s.setThread p (.passing w .ready))
    else some (s.complete p (some a))
  | _ => none

/-! ## Passes -/

/-- `_prune_latest_by_sync`. -/
def stepPass (s : State) (p : ℕ) (io : Io) (w : Pass) : PassStage → Option State
  | .ready => some (s.setThread p (.passing w (.listing s.steps)))
  | .listing begun =>
    if s.listable begun io.listing then
      let names := io.listing.insertionSort (· ≥ ·)
      some (s.setThread p (.passing w (.reading names names [] [])))
    else none
  | .reading names [] kept gone =>
    let left := names.filter (· ∉ gone)
    let q := (s.procs w.proc).learn kept left w.mark gone io.crowded
    let t := if kept = [] then s else s.setProc w.proc q
    some (t.complete p w.carrier)
  | .reading names (name :: todo) kept gone =>
    match s.read w.proc false io name with
    | .data (some value) =>
      let t := s.cache w.proc false name
      if value ∉ kept.map Prod.snd then
        some (t.setThread p (.passing w (.reading names todo (kept ++ [(name, value)]) gone)))
      else if w.spare = some value then
        some (t.setThread p (.passing { w with spare := none }
          (.reading names todo (kept ++ [(name, value)]) gone)))
      else some (t.setThread p (.passing w (.unlinking names name todo kept gone)))
    | .data none =>
      let t := s.cache w.proc false name
      some (t.setThread p (.passing w (.reading names todo kept gone)))
    | _ => some (s.setThread p (.passing w (.reading names todo kept gone)))
  | .unlinking names name todo kept gone =>
    if io.unlinks && s.present name then
      some ((s.unlink name).setThread p (.passing w (.reading names todo kept (gone ++ [name]))))
    else some (s.setThread p (.passing w (.reading names todo kept gone)))

/-! ## Lookups -/

/-- A scan is over: the lookup is settled, lists again, or gives up. -/
def close (s : State) (p : ℕ) (l : Lookup) (sc : Scan) : State :=
  if !sc.superseded then s.setThread p (.answered l sc.hit)
  else
    let newest := newer l.newest sc.hit
    let behind := if sc.repeats then some sc.listing else none
    let l := { l with newest, behind, passes := l.passes + 1 }
    s.setThread p (if l.passes ≤ supersededRescans then .looking l .ready
      else if l.strict then .raised l
      else .answered l newest)

/-- `_newest_record_with_sync` under `_newest_settled`. -/
def stepLookup (s : State) (p : ℕ) (io : Io) (l : Lookup) : Stage → Option State
  | .ready => some (s.setThread p (.looking l (.listing s.steps (s.newestOf l.value))))
  | .listing begun floor =>
    if s.listable begun io.listing then
      if l.behind.any fun behind => sameEntries behind io.listing then
        some (s.setThread p (.answered l l.newest))
      else some (s.setThread p (.looking l (.listed io.listing floor)))
    else none
  | .listed listing floor =>
    let known := ((s.procs l.proc).facts.map FieldFacts.values).getD .empty
    let todo := (listing.filter fun n => (known.get? n).all (· == l.value)).insertionSort (· ≥ ·)
    some (s.setThread p (.looking l (.reading { listing, known, todo, floor })))
  | .reading sc =>
    match sc.todo with
    | [] => some (s.setThread p (.looking l (.consulting sc)))
    | name :: todo =>
      match s.read l.proc l.strict io name with
      | .data value =>
        let t := s.cache l.proc l.strict name
        let sc := { sc with todo, learned := sc.note name value }
        some (t.setThread p (.looking l (if value = some l.value then
            .consulting { sc with hit := some name, todo := [] }
          else .reading sc)))
      | .missing =>
        let sc := { sc with todo, unread := name :: sc.unread }
        some (s.setThread p (.looking l (if sc.superseded then .reading sc
          else .examining sc name false)))
      | .stale =>
        let sc := { sc with todo, superseded := true, repeats := false }
        some (s.setThread p (.looking l (.reading sc)))
      | .failed =>
        some (s.setThread p (.looking l (.consulting { sc with failed := true, todo := [] })))
  | .examining sc name recalled =>
    let sc := { sc with superseded := !s.present name }
    some (s.setThread p (.looking l (if recalled then .closing sc else .reading sc)))
  | .consulting sc =>
    let known := (s.procs l.proc).facts.bind fun f => f.newest.get? l.value
    some (s.setThread p (.looking l (.learning sc known)))
  | .learning sc known =>
    let q := (s.procs l.proc).learn sc.learned sc.listing l.mark [] io.crowded
    let t := if sc.learned = [] then s else s.setProc l.proc q
    some (t.setThread p (if sc.failed then .raised l
      else match known with
        | some known =>
          if sc.hit.all fun hit => decide (hit < known) then .looking l (.recalling sc known)
          else .looking l (.closing sc)
        | none => .looking l (.closing sc)))
  | .recalling sc known =>
    some (s.setThread p (.looking l (if !s.present known then .dropping sc known
      else if known ∈ sc.unread then .closing sc
      else .rereading sc known)))
  | .dropping sc known =>
    let sc := { sc with superseded := true, repeats := false }
    some ((s.setProc l.proc ((s.procs l.proc).drop known)).setThread p
      (.looking l (.closing sc)))
  | .rereading sc known =>
    match s.read l.proc l.strict io known with
    | .data value =>
      let sc := if value = some l.value then { sc with hit := some known } else sc
      some ((s.cache l.proc l.strict known).setThread p (.looking l (.closing sc)))
    | .missing =>
      let sc := { sc with unread := known :: sc.unread }
      some (s.setThread p (.looking l (if sc.superseded then .closing sc
        else .examining sc known true)))
    | .stale =>
      some (s.setThread p (.looking l
        (.closing { sc with superseded := true, repeats := false })))
    | .failed => some (s.setThread p (.raised l))
  | .closing sc => some (s.close p l sc)

/-! ## Steps -/

/-- The next step of a thread. -/
def advance (s : State) (p : ℕ) (io : Io) : Option State :=
  match s.threads p with
  | .passing w st => s.stepPass p io w st
  | .looking l st => s.stepLookup p io l st
  | x => s.stepAppend p io x

/-- What an event does, apart from being counted. -/
def apply (s : State) : Event → Option State
  | .arrive name value =>
    if s.records.contains name then none else some (s.land name value false)
  | .shed proc excess => some (s.setProc proc ((s.procs proc).shed excess))
  | .append p proc name value =>
    match s.threads p with
    | .idle =>
      some (s.setThread p (.writing { proc, name, value }
        ((s.procs proc).supersededTwice value)))
    | _ => none
  | .prune p proc =>
    match s.threads p with
    | .idle =>
      let w : Pass := { proc, carrier := none, spare := none, mark := (s.procs proc).mark }
      some (s.setThread p (.passing w .ready))
    | _ => none
  | .lookup p proc value strict =>
    match s.threads p with
    | .idle =>
      let before := s.completed.filterMap fun a =>
        if a.value = some value then some a.name else none
      let l : Lookup := { proc, value, strict, mark := (s.procs proc).mark, before }
      some (s.setThread p (.looking l .ready))
    | _ => none
  | .go p io => s.advance p io

/-- One step. -/
def step (s : State) (e : Event) : Option State :=
  (s.apply e).map fun t => { t with steps := s.steps + 1 }

/-- The record that a step unlinks. -/
def unlinks (s : State) : Event → Option Name
  | .go p io =>
    match s.threads p with
    | .unlinking _ (older :: _) => if io.unlinks && s.present older then some older else none
    | .passing _ (.unlinking _ name _ _ _) =>
      if io.unlinks && s.present name then some name else none
    | _ => none
  | _ => none

end State

end Cronstable.NameKeyed
