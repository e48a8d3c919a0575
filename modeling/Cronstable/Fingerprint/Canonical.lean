import Cronstable.Lib.CanonicalJson
import Cronstable.Lib.Dict
import Cronstable.Lib.PyText

/-!
# The job-set fingerprint

`job_set_id` hashes the effective configuration of every job. A job is made canonical: what is
secret is replaced by a placeholder, what is still at a default that came later is left out, and the
rest is one nested dictionary, whose numbers are normalized and whose sorted JSON is hashed.

The hook blocks (`onFailure` and its like) are most of that text, and jobs share them as objects. So
a call carries a memo, with tables that are keyed by the address of a block: its redacted copy, the
normalized copy of that, and the JSON text of the latter, which is spliced into the text of a job. A
table keyed by address is only as good as the addresses: `Mem.live` has those in use, and the
allocator is any that never hands one of them out. What nothing refers to is given back after each
job, and its address may come again.
-/

namespace Cronstable.Fingerprint

open CanonicalJson

/-! ## Jobs -/

/-- `concurrencyPolicy`. -/
inductive ConcurrencyPolicy where
  | allow | forbid | replace
deriving DecidableEq

/-- The text of a `concurrencyPolicy`. -/
def ConcurrencyPolicy.text : ConcurrencyPolicy → String
  | .allow => "Allow"
  | .forbid => "Forbid"
  | .replace => "Replace"

/-- `concurrencyScope`. -/
inductive ConcurrencyScope where
  | node | cluster
deriving DecidableEq

/-- The text of a `concurrencyScope`. -/
def ConcurrencyScope.text : ConcurrencyScope → String
  | .node => "node"
  | .cluster => "cluster"

/-- `clusterPolicy`. -/
inductive ClusterPolicy where
  | leader | preferLeader | everyNode
deriving DecidableEq

/-- The text of a `clusterPolicy`. -/
def ClusterPolicy.text : ClusterPolicy → String
  | .leader => "Leader"
  | .preferLeader => "PreferLeader"
  | .everyNode => "EveryNode"

/-- `priority`, one of `PRIORITY_LEVELS`. -/
inductive Priority where
  | idle | belowNormal | normal | aboveNormal | high
deriving DecidableEq

/-- The text of a `priority`. -/
def Priority.text : Priority → String
  | .idle => "idle"
  | .belowNormal => "below-normal"
  | .normal => "normal"
  | .aboveNormal => "above-normal"
  | .high => "high"

/-- The value of a `Float()` option: parsed as a float, or the integer of a default. -/
inductive Number where
  | int (n : ℤ)
  | float (x : PyFloat)

/-- A number, as a value. -/
def Number.value : Number → PyValue
  | .int n => .int n
  | .float x => .float x

/-- `user` and `group`, as configured. -/
inductive Account where
  | id (n : ℤ)
  | name (s : String)

/-- An account, as a value. -/
def Account.value : Account → PyValue
  | .id n => .int n
  | .name s => .str s

/-- A value, or null. -/
def orNull (v : Option PyValue) : PyValue := v.getD .null

/-- A column of an object-form schedule: one word, which the configuration was checked for. -/
def Column := { s : String // PyText.split s = [s] }

/-- The object form of a schedule. -/
structure ScheduleObject where
  second : Option Column
  minute : Option Column
  hour : Option Column
  dayOfMonth : Option Column
  month : Option Column
  dayOfWeek : Option Column
  year : Option Column

/-- `schedule_unparsed`. -/
inductive Schedule where
  | line (text : String)
  | object (spec : ScheduleObject)

/-- A command for a shell, or an argument list. -/
inductive Command where
  | shell (text : String)
  | argv (args : List String)

/-- A dictionary object. -/
structure Block where
  addr : ℕ
  items : Items

/-- A dictionary object, as a value. -/
def Block.value (b : Block) : PyValue := .dict b.addr b.items

/-- An entry of `environment`. -/
structure EnvVar where
  key : String
  value : String

/-- An entry of `secrets`. -/
structure Secret where
  name : String
  value : Option String
  fromFile : Option String
  fromEnvVar : Option String

/-- `ResourceLimits`. -/
structure ResourceLimits where
  cpu : Option PyFloat
  memory : Option ℤ
  processes : Option ℤ
  required : Bool

/-- The attributes of a `JobConfig` that its identity is about. -/
structure JobConfig where
  name : String
  command : Command
  schedule : Schedule
  /-- The name of the zone; none for the host's clock. -/
  timezone : Option String
  failsWhen : Block
  onFailure : Block
  onPermanentFailure : Block
  onSuccess : Block
  environment : List EnvVar
  secrets : List Secret
  statsd : Option Block
  user : Option Account
  group : Option Account
  shell : String
  concurrencyPolicy : ConcurrencyPolicy
  concurrencyScope : ConcurrencyScope
  clusterPolicy : ClusterPolicy
  onlyIfLastSucceeded : Bool
  captureStderr : Bool
  captureStdout : Bool
  saveLimit : ℤ
  maxLineLength : ℤ
  executionTimeout : Option Number
  killTimeout : Number
  priority : Priority
  streamPrefix : String
  enabled : Bool
  verify : Option Block
  pool : Option String
  poolSlots : ℤ
  queuePriority : ℤ
  queueTimeout : Number
  resourceLimits : Option ResourceLimits

namespace JobConfig

/-- The hook blocks. -/
def hooks (job : JobConfig) : List Block := [job.onFailure, job.onPermanentFailure, job.onSuccess]

/-- The dictionary objects that a job refers to. -/
def blocks (job : JobConfig) : List Block :=
  job.hooks ++ job.failsWhen :: job.statsd.toList ++ job.verify.toList

/-- The addresses of the dictionaries of a job. -/
def addrs (job : JobConfig) : List ℕ := job.blocks.flatMap fun b => b.value.addrs

end JobConfig

/-! ## Memory -/

/-- What hands out addresses: any choice, on any grounds, of one that is not in use. -/
structure Allocator where
  pick : (clock : ℕ) → (live : List ℕ) → ℕ
  fresh : ∀ clock live, pick clock live ∉ live

/-- `SharedNodeMemo`. Every entry keeps the object whose address is its key. -/
structure SharedNodeMemo where
  redacted : Dict ℕ (Block × Block)
  normalized : Dict ℕ (PyValue × PyValue)
  fragments : Dict ℕ (PyValue × Option Text)

/-- `_new_memo`. -/
def newMemo : SharedNodeMemo := ⟨.empty, .empty, .empty⟩

/-- The addresses of the objects that a memo keeps. -/
def SharedNodeMemo.pinned (memo : SharedNodeMemo) : List ℕ :=
  memo.redacted.values.flatMap (fun e => e.1.value.addrs ++ e.2.value.addrs) ++
    memo.normalized.values.flatMap (fun e => e.1.addrs ++ e.2.addrs) ++
    memo.fragments.values.flatMap fun e => e.1.addrs

/-- What a call sees of the memory. -/
structure Mem where
  /-- The memo that the caller passed, if any. -/
  memo : Option SharedNodeMemo
  /-- The addresses in use. -/
  live : List ℕ
  /-- The allocations so far. -/
  clock : ℕ

variable (A : Allocator) (floatRepr : Rat → Text) (sha256 : Text → String)

/-- Take an address. -/
def alloc (s : Mem) : ℕ × Mem :=
  let a := A.pick s.clock s.live
  (a, { s with live := a :: s.live, clock := s.clock + 1 })

/-- Build a dictionary. -/
def newDict (items : Items) (s : Mem) : PyValue × Mem :=
  let a := alloc A s
  (.dict a.1 items, a.2)

/-! ## Canonical form -/

/-- `SCHEME_VERSION`. -/
def schemeVersion : String := "v1"

/-- `_SECRET_PLACEHOLDER`. -/
def secretPlaceholder : PyValue := .str "<redacted>"

/-- `DEFAULT_REPORT_SHELL_TIMEOUT`. -/
def defaultReportShellTimeout : PyValue := .int 60

/-- `DEFAULT_PUSH_REPORT`. -/
def defaultPushReport : PyValue :=
  .dict 0
    [("enabled", .bool false), ("priority", .str "time-sensitive"), ("includeLogTail", .bool true)]

/-- `DEFAULT_EVENTLOG_REPORT`. -/
def defaultEventlogReport : PyValue :=
  .dict 0 [("enabled", .bool false), ("source", .str "cronstable"), ("includeOutput", .bool false)]

/-- `_schedule_field`, of a column that was checked. -/
def scheduleField (column : Option Column) : String := (column.map (·.1)).getD "*"

/-- `schedule_object_to_crontab`. -/
def scheduleObjectToCrontab (spec : ScheduleObject) : String :=
  let five :=
    [spec.minute, spec.hour, spec.dayOfMonth, spec.month, spec.dayOfWeek].map scheduleField
  match spec.second, spec.year with
  | some _, _ => " ".intercalate (scheduleField spec.second :: five ++ [scheduleField spec.year])
  | none, some _ => " ".intercalate (five ++ [scheduleField spec.year])
  | none, none => " ".intercalate five

/-- `_schedule_repr`. -/
def scheduleRepr : Schedule → String
  | .line text => " ".intercalate (PyText.split text)
  | .object spec => scheduleObjectToCrontab spec

/-- `_command_repr`. -/
def commandRepr : Command → Items
  | .argv args => [("argv", .list (args.map .str))]
  | .shell text => [("shell_command", .str text)]

/-- The items of a dictionary with an inline secret: one with a `value` that is not null. -/
def inlineSecret : PyValue → Option Items
  | .dict _ items => if (Items.get items "value").isNull then none else some items
  | _ => none

/-- The copy of a reporter's block with the inline secret at `key` replaced; none if there is
nothing to replace. -/
def redactHolder (key : String) (holder : PyValue) (s : Mem) : Option PyValue × Mem :=
  match holder with
  | .dict _ items =>
    match inlineSecret (Items.get items key) with
    | some secret =>
      let inner := newDict A (secret.set "value" secretPlaceholder) s
      let outer := newDict A (Items.set key inner.1 items) inner.2
      (some outer.1, outer.2)
    | none => (none, s)
  | _ => (none, s)

/-- The items of a webhook block after its `url` was looked at. -/
def redactUrl (webhook : Items) (s : Mem) : Option Items × Mem :=
  match inlineSecret (webhook.get "url") with
  | some secret =>
    let inner := newDict A (secret.set "value" secretPlaceholder) s
    (some (webhook.set "url" inner.1), inner.2)
  | none => (none, s)

/-- The items of a webhook block after its `headers` were looked at, too. -/
def redactHeaders (webhook : Items) (newWebhook : Option Items) (s : Mem) : Option Items × Mem :=
  match webhook.get "headers" with
  | .dict _ headers =>
    let hidden := newDict A (headers.map fun p => (p.1, secretPlaceholder)) s
    (some ((newWebhook.getD webhook).set "headers" hidden.1), hidden.2)
  | _ => (newWebhook, s)

/-- The copy of a webhook block with its secrets replaced; none if there is nothing to replace. -/
def redactWebhook (webhook : PyValue) (s : Mem) : Option PyValue × Mem :=
  match webhook with
  | .dict _ items =>
    let url := redactUrl A items s
    let headers := redactHeaders A items url.1 url.2
    match headers.1 with
    | some items =>
      let copy := newDict A items headers.2
      (some copy.1, copy.2)
    | none => (none, headers.2)
  | _ => (none, s)

/-- Write a replacement, if there is one. -/
def replace (items : Items) (k : String) (v : Option PyValue) : Items :=
  match v with
  | some v => items.set k v
  | none => items

/-- `_redact_report`. -/
def redactReport (report : Items) (s : Mem) : Block × Mem :=
  let out := alloc A s
  let sentry := redactHolder A "dsn" (report.get "sentry") out.2
  let withSentry := replace report "sentry" sentry.1
  let mail := redactHolder A "password" (withSentry.get "mail") sentry.2
  let withMail := replace withSentry "mail" mail.1
  let webhook := redactWebhook A (withMail.get "webhook") mail.2
  (⟨out.1, replace withMail "webhook" webhook.1⟩, webhook.2)

/-- A reporter's block leaves the identity while it is at its default. -/
def popDefault (name : String) (default : PyValue) (items : Items) : Items :=
  if (items.get name).pyEq default then items.erase name else items

/-- The copy of a `shell` block without a `timeout` that is at its default. -/
def omitTimeout (shell : PyValue) (s : Mem) : Option PyValue × Mem :=
  match shell with
  | .dict _ items =>
    if (Items.get items "timeout").pyEq defaultReportShellTimeout then
      let copy := newDict A (Items.erase items "timeout") s
      (some copy.1, copy.2)
    else (none, s)
  | _ => (none, s)

/-- `_omit_default_report_fields`, which changes the block that it is given. -/
def omitDefaultReportFields (report : Block) (s : Mem) : Block × Mem :=
  let shell := omitTimeout A (report.items.get "shell") s
  let items := replace report.items "shell" shell.1
  let items := popDefault "push" defaultPushReport items
  (⟨report.addr, popDefault "eventlog" defaultEventlogReport items⟩, shell.2)

/-- The value of a float in canonical form. -/
def normalizeFloat : PyFloat → PyValue
  | .finite q => if q.den = 1 then .int q.num else .float (.finite q)
  | x => .float x

/-- `isinstance(v, _NORMALIZABLE)`. -/
def normalizable : PyValue → Bool
  | .float _ | .dict _ _ | .list _ => true
  | _ => false

mutual

/-- `_normalize_numbers`. The table is read, and never written. -/
def normalizeNumbers (table : Option (Dict ℕ (PyValue × PyValue))) :
    PyValue → Mem → PyValue × Mem
  | .dict addr items, s =>
    match table.bind (·.get? addr) with
    | some hit => (hit.2, s)
    | none =>
      let out := alloc A s
      let items := normalizeItems table items out.2
      (.dict out.1 items.1, items.2)
  | .list elems, s =>
    let elems := normalizeElems table elems s
    (.list elems.1, elems.2)
  | .float x, s => (normalizeFloat x, s)
  | v, s => (v, s)

/-- The list comprehension of `_normalize_numbers`. -/
def normalizeElems (table : Option (Dict ℕ (PyValue × PyValue))) :
    List PyValue → Mem → List PyValue × Mem
  | [], s => ([], s)
  | v :: vs, s =>
    let head := if normalizable v then normalizeNumbers table v s else (v, s)
    let tail := normalizeElems table vs head.2
    (head.1 :: tail.1, tail.2)

/-- The dictionary comprehension of `_normalize_numbers`. -/
def normalizeItems (table : Option (Dict ℕ (PyValue × PyValue))) :
    List (String × PyValue) → Mem → List (String × PyValue) × Mem
  | [], s => ([], s)
  | (k, v) :: rest, s =>
    let head := if normalizable v then normalizeNumbers table v s else (v, s)
    let tail := normalizeItems table rest head.2
    ((k, head.1) :: tail.1, tail.2)

end

/-- The part of `_redact_action` that makes a redacted copy. -/
def redactBlock (action : Block) (s : Mem) : Block × Mem :=
  let out := alloc A s
  match action.items.get "report" with
  | .dict _ report =>
    let redacted := redactReport A report out.2
    let trimmed := omitDefaultReportFields A redacted.1 redacted.2
    (⟨out.1, action.items.set "report" trimmed.1.value⟩, trimmed.2)
  | _ => (⟨out.1, action.items⟩, out.2)

/-- The part of `_redact_action` that writes to the memo. -/
def remember (action out : Block) (s : Mem) : Mem :=
  match s.memo with
  | none => s
  | some memo =>
    let normalized := normalizeNumbers A none out.value s
    { normalized.2 with
      memo := some
        { memo with
          redacted := memo.redacted.set action.addr (action, out)
          normalized := memo.normalized.set out.addr (out.value, normalized.1) } }

/-- `_redact_action`. -/
def redactAction (action : Block) (s : Mem) : Block × Mem :=
  match s.memo.bind (·.redacted.get? action.addr) with
  | some hit => (hit.2, s)
  | none =>
    let out := redactBlock A action s
    (out.1, remember A action out.1 out.2)

/-- The scalar options of `_SCALAR_IDENTITY`. -/
def scalarIdentity (job : JobConfig) : Items :=
  [("shell", .str job.shell), ("concurrencyPolicy", .str job.concurrencyPolicy.text),
    ("clusterPolicy", .str job.clusterPolicy.text),
    ("onlyIfLastSucceeded", .bool job.onlyIfLastSucceeded),
    ("captureStderr", .bool job.captureStderr), ("captureStdout", .bool job.captureStdout),
    ("saveLimit", .int job.saveLimit), ("maxLineLength", .int job.maxLineLength),
    ("executionTimeout", orNull (job.executionTimeout.map Number.value)),
    ("killTimeout", job.killTimeout.value), ("streamPrefix", .str job.streamPrefix),
    ("enabled", .bool job.enabled)]

/-- The scalar options of `_NONDEFAULT_IDENTITY` that are not at their defaults. -/
def nondefaultIdentity (job : JobConfig) : Items :=
  (if job.concurrencyScope ≠ .node then
    [("concurrencyScope", .str job.concurrencyScope.text)] else []) ++
  if job.priority ≠ .normal then [("priority", .str job.priority.text)] else []

/-- A key of the canonical form that is only there when it is set. -/
def whenSet (k : String) (v : Option PyValue) : Items := v.toList.map fun v => (k, v)

/-- The items of the canonical form, around the dictionaries that are built for it. -/
def identityItems (job : JobConfig) (command onFailure onPermanentFailure onSuccess : PyValue)
    (pool limits : Option PyValue) : Items :=
  let out : Items :=
    [("name", .str job.name), ("command", command), ("schedule", .str (scheduleRepr job.schedule)),
      ("timezone", orNull (job.timezone.map .str)), ("failsWhen", job.failsWhen.value),
      ("onFailure", onFailure), ("onPermanentFailure", onPermanentFailure),
      ("onSuccess", onSuccess),
      ("environment",
        .list (((job.environment.map EnvVar.key).insertionSort (· ≤ ·)).map .str)),
      ("statsd", orNull (job.statsd.map Block.value)),
      ("user", orNull (job.user.map Account.value)),
      ("group", orNull (job.group.map Account.value))]
  (out.update (scalarIdentity job)).update
    (nondefaultIdentity job ++ whenSet "verify" (job.verify.map Block.value) ++
      whenSet "pool" pool ++ whenSet "resourceLimits" limits)

/-- The `pool` of the canonical form. -/
def poolIdentity (job : JobConfig) : Option Items :=
  job.pool.map fun pool =>
    [("name", .str pool), ("slots", .int job.poolSlots), ("priority", .int job.queuePriority),
      ("timeout", job.queueTimeout.value)]

/-- The `resourceLimits` of the canonical form. -/
def limitsIdentity (job : JobConfig) : Option Items :=
  job.resourceLimits.map fun caps =>
    [("cpu", orNull (caps.cpu.map .float)), ("memory", orNull (caps.memory.map .int)),
      ("processes", orNull (caps.processes.map .int)), ("required", .bool caps.required)]

/-- Build a dictionary, if there is one to build. -/
def newDict? (items : Option Items) (s : Mem) : Option PyValue × Mem :=
  match items with
  | some items =>
    let d := newDict A items s
    (some d.1, d.2)
  | none => (none, s)

/-- `canonical_job`. -/
def canonicalJob (job : JobConfig) (s : Mem) : Block × Mem :=
  let command := newDict A (commandRepr job.command) s
  let onFailure := redactAction A job.onFailure command.2
  let onPermanentFailure := redactAction A job.onPermanentFailure onFailure.2
  let onSuccess := redactAction A job.onSuccess onPermanentFailure.2
  let out := alloc A onSuccess.2
  let pool := newDict? A (poolIdentity job) out.2
  let limits := newDict? A (limitsIdentity job) pool.2
  (⟨out.1, identityItems job command.1 onFailure.1.value onPermanentFailure.1.value
      onSuccess.1.value pool.1 limits.1⟩, limits.2)

/-! ## Bytes and digests -/

/-- `_HOOK_KEYS`. -/
def hookKeys : List String := ["onFailure", "onPermanentFailure", "onSuccess"]

/-- `_HOOK_PREFIXES`. -/
def hookPrefix (key : String) : Text := encodeString key ++ [':']

/-- `_hook_fragment`: the text is kept from the second sighting on. -/
def hookFragment (block : PyValue) (table : Dict ℕ (PyValue × Option Text)) :
    Text × Dict ℕ (PyValue × Option Text) :=
  match table.get? block.addr with
  | none => (encode floatRepr block, table.set block.addr (block, none))
  | some (_, some fragment) => (fragment, table)
  | some (_, none) =>
    let fragment := encode floatRepr block
    (fragment, table.set block.addr (block, some fragment))

/-- The text of a run of keys, without its braces. -/
def runText (run : Items) : List Text :=
  if run.isEmpty then [] else [(encode floatRepr (.dict 0 run)).tail.dropLast]

/-- The loop of `_spliced_bytes` over the sorted keys. -/
def splicedParts (doc : Items) :
    List String → Items → Dict ℕ (PyValue × Option Text) →
      List Text × Dict ℕ (PyValue × Option Text)
  | [], run, table => (runText floatRepr run, table)
  | key :: keys, run, table =>
    if key ∈ hookKeys then
      let fragment := hookFragment floatRepr (doc.get key) table
      let rest := splicedParts doc keys [] fragment.2
      (runText floatRepr run ++ (hookPrefix key ++ fragment.1) :: rest.1, rest.2)
    else splicedParts doc keys (run.set key (doc.get key)) table

/-- `_spliced_bytes`. -/
def splicedBytes (doc : Items) (table : Dict ℕ (PyValue × Option Text)) :
    Text × Dict ℕ (PyValue × Option Text) :=
  let parts := splicedParts floatRepr doc (doc.keys.insertionSort (· ≤ ·)) [] table
  ('\x7b' :: joinComma parts.1 ++ ['\x7d'], parts.2)

/-- The items of a dictionary. -/
def itemsOf : PyValue → Items
  | .dict _ items => items
  | _ => []

/-- `_canonical_bytes`. -/
def canonicalBytes (obj : PyValue) (s : Mem) : Text × Mem :=
  match s.memo with
  | none =>
    let doc := normalizeNumbers A none obj s
    (encode floatRepr doc.1, doc.2)
  | some memo =>
    let doc := normalizeNumbers A (some memo.normalized) obj s
    let bytes := splicedBytes floatRepr (itemsOf doc.1) memo.fragments
    (bytes.1, { doc.2 with memo := some { memo with fragments := bytes.2 } })

/-- `job_digest`. -/
def jobDigest (job : JobConfig) (s : Mem) : String × Mem :=
  let doc := canonicalJob A job s
  let bytes := canonicalBytes A floatRepr doc.1.value doc.2
  (sha256 bytes.1, bytes.2)

/-- The jobs of one call. An address names one object. -/
structure Fleet where
  jobs : List JobConfig
  coherent : ∀ b ∈ jobs.flatMap JobConfig.hooks, ∀ b' ∈ jobs.flatMap JobConfig.hooks,
    b.addr = b'.addr → b = b'

namespace Fleet

variable (fleet : Fleet)

/-- The addresses of the dictionaries of all jobs. -/
def addrs : List ℕ := fleet.jobs.flatMap JobConfig.addrs

/-- Give back what neither the jobs nor the memo refer to. -/
def release (s : Mem) : Mem :=
  { s with live := fleet.addrs ++ (s.memo.map SharedNodeMemo.pinned).getD [] }

/-- The memory with a new memo. -/
def start : Mem := fleet.release { memo := some newMemo, live := [], clock := 0 }

/-- The digests of some of the jobs, one after another with one memo. -/
def digests : List JobConfig → Mem → List String × Mem
  | [], s => ([], s)
  | job :: jobs, s =>
    let digest := jobDigest A floatRepr sha256 job s
    let rest := digests jobs (fleet.release digest.2)
    (digest.1 :: rest.1, rest.2)

/-- `job_set_id`. -/
def jobSetId : String :=
  let digests := (fleet.digests A floatRepr sha256 fleet.jobs fleet.start).1
  let combined :=
    schemeVersion ++ "\n" ++ "\n".intercalate (digests.insertionSort (· ≤ ·))
  schemeVersion ++ ":" ++ sha256 combined.toList

end Fleet

end Cronstable.Fingerprint
