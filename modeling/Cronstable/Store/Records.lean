import Cronstable.Lib.Dict
import Cronstable.Lib.Trace
import Mathlib.Data.List.Sort
import Mathlib.Data.Prod.Lex
import Mathlib.Data.String.Basic

/-!
# Record streams of the filesystem store

A stream is a directory with one file per record. The name of a record starts with the second at
which it was named, then come a token of the process and a sequence number, so that names sort by
time; a process keeps a floor per stream and names no record at or below it. `derive_max` returns
the largest value of a field over the records. A process remembers for each field the newest name
it has folded and the value it found, and the next call reads only the names above.

`Stream` is one stream with everything the processes remember about it and the calls that are under
way, each at one of its suspension points: a call of one thread may stop anywhere between a
listing, a section under one of the process's locks, a read and a write. `Stream.step` takes one
event. A listing of the directory goes entry by entry: it shows every record that is there from its
beginning to its end, and may or may not show one that appears or is deleted in between. A name
sorts as its three parts do, since the first and the last are padded and the tokens have one length.
Foreign file names, records that cannot be parsed and the name-keyed index are left out.
-/

namespace Cronstable.Store

/-! ## Names -/

/-- The stem of a record's file name. -/
structure Stem where
  /-- Microseconds since the epoch. -/
  epoch : ℕ
  /-- `_instance`. -/
  token : String
  /-- `_next_seq`. -/
  seq : ℕ
  deriving DecidableEq, Repr

namespace Stem

/-- The parts in the order in which they are compared. -/
def key (stem : Stem) : ℕ ×ₗ String ×ₗ ℕ := toLex (stem.epoch, toLex (stem.token, stem.seq))

/-- Names are equal when their parts are. -/
lemma key_injective : Function.Injective key := by
  rintro ⟨epoch, token, seq⟩ ⟨epoch', token', seq'⟩ h
  have hparts := toLex.injective h
  have htail := toLex.injective (congrArg Prod.snd hparts)
  have hhead : epoch = epoch' := congrArg Prod.fst hparts
  have htoken : token = token' := congrArg Prod.fst htail
  have hseq : seq = seq' := congrArg Prod.snd htail
  rw [hhead, htoken, hseq]

instance : LinearOrder Stem := LinearOrder.lift' key key_injective

end Stem

/-- What a process remembers about the stream. -/
structure Proc (α : Type*) where
  /-- The last sequence number taken. -/
  seq : ℕ := 0
  /-- `_record_name_floor`: `none` if it was not seeded or has been dropped since. -/
  floor : Option (WithBot Stem) := none
  /-- `_derive_memo`: for each field the newest name folded and the value found. -/
  memo : Dict String (Stem × Option α) := .empty
  /-- `_derive_wipe_gen`. -/
  wipes : ℕ := 0
  deriving DecidableEq

namespace Proc

variable {α : Type*}

/-- `_next_record_name` under the floor lock: the floor is seeded with what was found on disk, and
a stem that does not clear it takes the floor's second plus one microsecond. -/
def nextRecordName (token : String) (now : ℕ) (disk : WithBot Stem) (p : Proc α) :
    Stem × Proc α :=
  let floor := max (p.floor.getD disk) disk
  let stem : Stem := ⟨now, token, p.seq + 1⟩
  match floor with
  | some above =>
    if stem ≤ above then
      let stem : Stem := ⟨above.epoch + 1, token, p.seq + 2⟩
      (stem, { p with seq := p.seq + 2, floor := some stem })
    else (stem, { p with seq := p.seq + 1, floor := some stem })
  | none => (stem, { p with seq := p.seq + 1, floor := some stem })

/-- Naming a record leaves the memo alone. -/
lemma nextRecordName_memo (token : String) (now : ℕ) (disk : WithBot Stem) (p : Proc α) :
    (p.nextRecordName token now disk).2.memo = p.memo := by
  unfold nextRecordName
  simp only
  split
  · split <;> rfl
  · rfl

/-- `_record_name_floor_raise`: never lowers a floor and seeds none. -/
def raiseFloor (stem : WithBot Stem) (p : Proc α) : Proc α :=
  { p with floor := p.floor.map fun known => max known stem }

end Proc

/-! ## Calls -/

/-- What the directory is listed for. -/
inductive Listing (α : Type*)
  /-- `_record_name_floor_scan`, from an append that found no floor. -/
  | floorScan (token : String) (data : Dict String α)
  /-- `_prune_sync`. -/
  | prune (token : String) (keep : ℕ)
  /-- `_derive_max_sync`. -/
  | deriveMax (token field : String)
  deriving DecidableEq

/-- A call under way, at one of its suspension points. -/
inductive Call (α : Type*)
  /-- In `os.listdir`, which began when the records `before` were there and has shown some. -/
  | listing (purpose : Listing α) (before shown : List Stem)
  /-- `_append_sync` is about to name the record, having found `disk`. -/
  | naming (token : String) (data : Dict String α) (disk : WithBot Stem)
  /-- It is about to write the record. -/
  | writing (stem : Stem) (data : Dict String α)
  /-- `_prune_sync` has listed the directory. -/
  | raising (token : String) (names : List Stem) (keep : ℕ)
  /-- It deletes the oldest records. -/
  | deleting (token : String) (doomed : List Stem) (wipe : Bool)
  /-- `_derive_max_sync` has found no record. -/
  | clearing (token field : String)
  /-- It has listed the directory and is about to look at the memo. -/
  | recalling (token field : String) (listing : List Stem) (newest : Stem)
  /-- It reads the records `todo` and has folded the rest up to `newest`. -/
  | folding (token field : String) (newest : Stem) (best : Option α) (todo : List Stem)
      (wipes : ℕ)
  /-- The call has returned or raised. -/
  | ended
  deriving DecidableEq

/-- What a call does with its listing. -/
def Listing.next {α : Type*} (shown : List Stem) : Listing α → Call α
  | floorScan token data => .naming token data shown.maximum
  | prune token keep => .raising token shown keep
  | deriveMax token field =>
    match shown.maximum with
    | none => .clearing token field
    | some newest => .recalling token field shown newest

/-- One step of the fold: a record without the field is passed over. -/
def foldValue {α : Type*} [LinearOrder α] (best value : Option α) : Option α :=
  match value, best with
  | none, best => best
  | some v, none => some v
  | some v, some b => if b < v then some v else some b

/-- One stream, the processes and their calls. -/
structure Stream (α : Type*) where
  /-- The records in the directory. -/
  dir : Dict Stem (Dict String α)
  /-- What the processes remember, by their tokens. -/
  procs : Dict String (Proc α)
  /-- The calls in the order in which they were made. -/
  calls : List (Call α)
  deriving DecidableEq

/-- What happens to the stream. -/
inductive StreamEvent (α : Type*)
  /-- `append_record`. -/
  | append (token : String) (data : Dict String α)
  /-- `prune_records`. -/
  | prune (token : String) (keep : ℕ)
  /-- `derive_max`. -/
  | derive (token field : String)
  /-- The listing of a call comes to the entry of a record. -/
  | show (call : ℕ) (stem : Stem)
  /-- A call goes on to its next suspension point; `now` is its process's clock. -/
  | advance (call now : ℕ)
  /-- The file operation a call is about to make raises `OSError`. -/
  | fail (call : ℕ)
  /-- The bounded map of floors is emptied. -/
  | forget (token : String)
  /-- A file of another stream takes a sequence number. -/
  | spend (token : String)

namespace Stream

variable {α : Type*}

/-- No record and no call. -/
def init : Stream α := ⟨.empty, .empty, []⟩

/-- What a process remembers; one that just started remembers nothing. -/
def proc (s : Stream α) (token : String) : Proc α := (s.procs.get? token).getD {}

/-- A process comes to remember something else. -/
def setProc (s : Stream α) (token : String) (p : Proc α) : Stream α :=
  { s with procs := s.procs.set token p }

/-- The other processes remember what they did. -/
lemma proc_setProc (s : Stream α) (token token' : String) (p : Proc α) :
    (s.setProc token p).proc token' = if token' = token then p else s.proc token' := by
  unfold proc setProc
  rw [Dict.get?_set]
  split <;> rfl

/-- A call moves on. -/
def setCall (s : Stream α) (c : ℕ) (call : Call α) : Stream α :=
  { s with calls := s.calls.set c call }

/-- Start a call. -/
def push (s : Stream α) (call : Call α) : Stream α := { s with calls := s.calls ++ [call] }

/-- Start a call that lists the directory first. -/
def list (s : Stream α) (purpose : Listing α) : Stream α := s.push (.listing purpose s.dir.keys [])

/-- Where `derive_max` starts to read, given what the process remembers for the field. -/
def fromMemo (listing : List Stem) (newest : Stem) (cached : Option (Stem × Option α)) :
    Option α × List Stem :=
  match cached with
  | none => (none, listing)
  | some (watermark, best) =>
    if newest = watermark then (best, [])
    else if watermark < newest then (best, listing.filter fun n => decide (watermark < n))
    -- the watermark is gone and nothing is newer: the stream was made anew
    else (none, listing)

variable [LinearOrder α]

/-- A call goes on. With the new state comes what a `derive_max` that ends here returns. -/
def advance (s : Stream α) (c now : ℕ) : Call α → Option (Stream α × Option (Option α))
  | .listing purpose before shown =>
    if ∀ stem ∈ before, stem ∈ s.dir.keys → stem ∈ shown then
      some (s.setCall c (purpose.next shown), none)
    else none
  | .naming token data disk =>
    let (stem, p) := (s.proc token).nextRecordName token now disk
    some ((s.setProc token p).setCall c (.writing stem data), none)
  | .writing stem data => some ({ s with dir := s.dir.set stem data }.setCall c .ended, none)
  | .raising token names keep =>
    let doomed := (names.insertionSort (· ≤ ·)).take (names.length - keep)
    some ((s.setProc token ((s.proc token).raiseFloor names.maximum)).setCall c
      (.deleting token doomed (keep == 0)), none)
  | .deleting token (stem :: doomed) wipe =>
    some ({ s with dir := s.dir.erase stem }.setCall c (.deleting token doomed wipe), none)
  | .deleting token [] wipe =>
    let p := s.proc token
    let p := if wipe then { p with memo := .empty, wipes := p.wipes + 1 } else p
    some ((s.setProc token p).setCall c .ended, none)
  | .clearing token field =>
    let p := s.proc token
    some ((s.setProc token { p with memo := p.memo.erase field }).setCall c .ended, some none)
  | .recalling token field listing newest =>
    let p := s.proc token
    let (best, todo) := fromMemo listing newest (p.memo.get? field)
    let todo := todo.insertionSort (· ≤ ·)
    some (s.setCall c (.folding token field newest best todo p.wipes), none)
  | .folding token field newest best (stem :: todo) wipes =>
    let value := (s.dir.get? stem).bind (·.get? field)
    some (s.setCall c (.folding token field newest (foldValue best value) todo wipes), none)
  | .folding token field newest best [] wipes =>
    let p := s.proc token
    let p := if p.wipes = wipes then { p with memo := p.memo.set field (newest, best) } else p
    some ((s.setProc token p).setCall c .ended, some best)
  | .ended => none

/-- A file operation fails: an unreadable directory seeds an empty floor and an `unlink` that fails
is passed over; any other failure is raised out of the call. -/
def fail (s : Stream α) (c : ℕ) : Call α → Option (Stream α)
  | .listing (.floorScan token data) _ _ => some (s.setCall c (.naming token data ⊥))
  | .deleting token (_ :: doomed) wipe => some (s.setCall c (.deleting token doomed wipe))
  | .listing _ _ _ | .writing _ _ | .folding _ _ _ _ (_ :: _) _ => some (s.setCall c .ended)
  | _ => none

/-- One step of the stream. -/
def step (s : Stream α) : StreamEvent α → Option (Stream α × Option (Option α))
  | .append token data =>
    if (s.proc token).floor.isSome then some (s.push (.naming token data ⊥), none)
    else some (s.list (.floorScan token data), none)
  | .prune token keep => some (s.list (.prune token keep), none)
  | .derive token field => some (s.list (.deriveMax token field), none)
  | .show c stem =>
    match s.calls[c]? with
    | some (.listing purpose before shown) =>
      if stem ∈ s.dir.keys ∧ stem ∉ shown then
        some (s.setCall c (.listing purpose before (stem :: shown)), none)
      else none
    | _ => none
  | .advance c now => (s.calls[c]?).bind (s.advance c now)
  | .fail c => ((s.calls[c]?).bind (s.fail c)).map (·, none)
  | .forget token => some (s.setProc token { s.proc token with floor := none }, none)
  | .spend token =>
    some (s.setProc token { s.proc token with seq := (s.proc token).seq + 1 }, none)

/-- Take events one after another and collect what the calls of `derive_max` return. -/
def exec (s : Stream α) : List (StreamEvent α) → Option (Stream α × List (Option α))
  | [] => some (s, [])
  | event :: events => do
    let (s', returned) ← s.step event
    let (s'', later) ← s'.exec events
    some (s'', returned.toList ++ later)

end Stream

end Cronstable.Store
