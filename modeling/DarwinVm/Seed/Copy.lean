import DarwinVm.Lib.Bytes
import DarwinVm.Lib.Except

/-!
# The copy of a Data volume

`tools/rootfs/data_seed_helper.c` fills a new Data volume with what a directory of the System volume
holds, one child at a time (`copyTreeContents`). A child is copied by `copyfile`, which calls back
(`copyStatus`) and goes by the answer. The callback is told what to do by a context, and the two modes
of the helper that copy (`runFull`, `runCopyData`) set it up for themselves.

`copyfile` belongs to the system. What it calls back with, and what it returns, is arbitrary here
(`Copy`), but that it goes on after any answer but `COPYFILE_QUIT`, and fails after that one.
-/

namespace DarwinVm.Seed

/-- What ends the helper before a mode returns. -/
inductive Stop
  /-- `exit` -/
  | exit (code : ℤ)
  /-- A signal. -/
  | signal
  deriving DecidableEq

/-! ## The callback -/

def copyfileContinue : ℤ := 0
def copyfileSkip : ℤ := 1
def copyfileQuit : ℤ := 2
def copyfileRecurseFile : ℤ := 1
def copyfileStart : ℤ := 1
def copyfileErr : ℤ := 3

/-- What the callback is called with, and `errno`. A path is `none` if it is a null pointer. -/
structure Callback where
  what : ℤ
  stage : ℤ
  errno : ℤ
  src : Option Bytes
  dst : Option Bytes
  deriving DecidableEq

/-- `struct copy_context`, as `memset` leaves it where no other value is given. -/
structure Context where
  skip_source : Option Bytes := none
  skip_timezone_source : Option Bytes := none
  tag : Option Bytes := none
  diagnostic : Bool := false
  abort_on_error : Bool := false
  allow_sandbox_errors : Bool := false
  saw_error : Bool := false
  error_what : ℤ := 0
  error_stage : ℤ := 0
  error_errno : ℤ := 0
  last_source : Bytes := []
  last_destination : Bytes := []
  error_source : Bytes := []
  error_destination : Bytes := []
  files : ℕ := 0
  allowed_errors : ℕ := 0

/-- `DATA_MOUNT` -/
def dataMount : Bytes := ascii "/private/var".toList

/-- `SOURCE_ROOT` -/
def sourceRoot : Bytes := ascii "/private/var/hardware/private/var".toList

/-- `TIMEZONE_LOCALTIME_REL` -/
def timezoneLocaltimeRel : Bytes := ascii "db/timezone/localtime".toList

/-- The roots of `allowed_sandbox_copy_destination`. -/
def allowedRoots : List Bytes := [
  dataMount ++ ascii "/root/Library/Lockdown".toList,
  dataMount ++ ascii "/MobileDevice/ProvisioningProfiles".toList,
  dataMount ++ ascii "/mobile/Library/WebClips".toList,
  dataMount ++ ascii "/mobile/Library/Safari".toList,
  dataMount ++ ascii "/OOPJit".toList,
  dataMount ++ ascii "/protected/trustd".toList]

/-- `allowed_sandbox_copy_destination` -/
def allowedSandboxCopyDestination : Option Bytes → Bool
  | none => false
  | some dst => allowedRoots.any fun root => dst = root || (root ++ ascii ['/']).isPrefixOf dst

/-- A member of the context of 1024 bytes, after a path that fits has been copied to it. -/
def store (old : Bytes) : Option Bytes → Bytes
  | some path => if path.length < 1024 then path else old
  | none => old

/-- One more, in an `unsigned long`. -/
def increment (n : ℕ) : ℕ := (n + 1) % 2 ^ 64

section Helper

-- Does `strcmp` of a text and a null pointer return 0? The language leaves it open, and on most
-- systems the process does not survive it.
variable (strcmpNull : Bytes → Except Stop Bool)

/-- `exact` -/
def exact (got want : Option Bytes) : Except Stop Bool :=
  match got, want with
  | none, _ => .ok false
  | some got, some want => .ok (got = want)
  | some got, none => strcmpNull got

/-- `copy_status`, without what it prints: the answer, and the context after it. -/
def copyStatus (ctx : Context) (cb : Callback) : Except Stop (ℤ × Context) := do
  let ctx := { ctx with
    last_source := store ctx.last_source cb.src
    last_destination := store ctx.last_destination cb.dst }
  if ← exact strcmpNull cb.src ctx.skip_source then .ok (copyfileSkip, ctx)
  else if ← exact strcmpNull cb.src ctx.skip_timezone_source then .ok (copyfileSkip, ctx)
  else if cb.stage = copyfileErr ∧ ctx.abort_on_error then
    if ctx.allow_sandbox_errors && allowedSandboxCopyDestination cb.dst then
      .ok (copyfileContinue, { ctx with allowed_errors := increment ctx.allowed_errors })
    else if ctx.saw_error then .ok (copyfileQuit, ctx)
    else
      .ok (copyfileQuit, { ctx with
        saw_error := true
        error_what := cb.what
        error_stage := cb.stage
        error_errno := cb.errno
        error_source := store ctx.error_source cb.src
        error_destination := store ctx.error_destination cb.dst })
  else if cb.what = copyfileRecurseFile ∧ cb.stage = copyfileStart then
    .ok (copyfileContinue, { ctx with files := increment ctx.files })
  else .ok (copyfileContinue, ctx)

/-! ## Copies -/

/-- A call of `copyfile`, with the preparation of its state. -/
structure Copy where
  /-- The state could be allocated and set. -/
  allocated : Bool
  /-- What `copyfile` calls back with. -/
  callbacks : List Callback
  /-- What it returns if no answer tells it to quit. -/
  rc : ℤ

/-- The callbacks of a copy: is one answered with `COPYFILE_QUIT`? -/
def statuses (ctx : Context) : List Callback → Except Stop (Bool × Context)
  | [] => .ok (false, ctx)
  | cb :: callbacks => do
    let (answer, ctx) ← copyStatus strcmpNull ctx cb
    let (quit, ctx) ← statuses ctx callbacks
    .ok (answer = copyfileQuit || quit, ctx)

/-- `copyfile` -/
def copyfile (copy : Copy) (ctx : Context) : Except Stop (ℤ × Context) := do
  let (quit, ctx) ← statuses strcmpNull ctx copy.callbacks
  .ok (if quit ∧ copy.rc = 0 then -1 else copy.rc, ctx)

/-- `copy_tree` -/
def copyTree (copy : Copy) (ctx : Context) : Except Stop (ℤ × Context) :=
  if copy.allocated then copyfile strcmpNull copy ctx else .error (.exit 1)

/-- An entry of a directory, and its copy. -/
structure Entry where
  d_name : Bytes
  copy : Copy

/-- What the calls on a directory give: whether it can be opened, its entries in the order of
`readdir`, and whether it can be closed. -/
structure Listing where
  opened : Bool
  entries : List Entry
  closed : Bool

/-- The entry is the directory itself or the one above. -/
def isDots (e : Entry) : Bool := e.d_name = ascii ['.'] || e.d_name = ascii ['.', '.']

/-- The path of an entry fits into 1024 bytes, with the final NUL. -/
def fits (dir : Bytes) (e : Entry) : Bool := dir.length + 1 + e.d_name.length < 1024

/-- The loop of `copy_tree_contents`: the last result of a copy. -/
def copyEntries (source_root dest : Bytes) (ctx : Context) :
    List Entry → Except Stop (ℤ × Context)
  | [] => .ok (0, ctx)
  | e :: entries =>
    if isDots e then copyEntries source_root dest ctx entries
    else if fits source_root e && fits dest e then do
      let (rc, ctx) ← copyTree strcmpNull e.copy ctx
      if rc ≠ 0 then .ok (rc, ctx) else copyEntries source_root dest ctx entries
    else .error (.exit 1)

/-- `copy_tree_contents` -/
def copyTreeContents (source_root dest : Bytes) (listing : Listing) (ctx : Context) :
    Except Stop (ℤ × Context) :=
  if listing.opened then do
    let (rc, ctx) ← copyEntries strcmpNull source_root dest ctx listing.entries
    if listing.closed then .ok (rc, ctx) else .error (.exit 1)
  else .error (.exit 1)

/-! ## Modes -/

/-- What the other calls of a mode return. A function that exits or returns nothing is true if it
returns. -/
structure Calls where
  aks_bootstrap_fs : ℤ
  mkb_create : ℤ
  /-- Whether the file is a regular one, if it is there. -/
  systembag : Option Bool
  systembag_writing : Option Bool
  precreate_timezone_link : Bool
  verify_timezone_symlink : Bool
  root : Bool
  mobile : Bool
  uml_create : ℤ → Bool
  marker_open : Bool
  marker_write : Bool
  marker_fsync : Bool
  marker_close : Bool

/-- A call without which the helper exits. -/
def require (b : Bool) : Except Stop Unit := if b then .ok () else .error (.exit 1)

/-- `initialise_data` -/
def initialiseData (calls : Calls) : Except Stop Unit := do
  require (calls.aks_bootstrap_fs = 0)
  require (calls.mkb_create = 0)
  require (calls.systembag ≠ some false)
  require (calls.systembag_writing ≠ some false)

/-- The source that both modes skip. -/
def skipSource : Bytes := ascii "/private/var/hardware/private/var/hardware".toList

/-- The source that the second mode skips. -/
def skipTimezoneSource : Bytes := sourceRoot ++ ascii ['/'] ++ timezoneLocaltimeRel

/-- The context of `run_full`. -/
def fullContext : Context := { skip_source := some skipSource }

/-- The context of `run_copy_data`. -/
def copyDataContext : Context where
  skip_source := some skipSource
  skip_timezone_source := some skipTimezoneSource
  tag := some (ascii "copy-data".toList)
  abort_on_error := true
  allow_sandbox_errors := true

/-- What can be seen of a mode: whether `COMPLETE_MARKER` has been made, whether
`DVM_SEED_COPY_DATA_RC=0` has been printed, and what has ended the helper. -/
structure Outcome where
  marker : Bool
  copy_data_rc : Bool
  stop : Option Stop

/-- The mode has reported success. -/
def Outcome.Success (o : Outcome) : Prop := o.marker = true ∨ o.copy_data_rc = true

variable (calls : Calls) (source dest : Bytes) (listing : Listing)

/-- `run_full` up to the marker. -/
def fullCopy (with_aks_setup : Bool) : Except Stop Unit := do
  initialiseData calls
  let (rc, ctx) ← copyTreeContents strcmpNull source dest listing fullContext
  require (rc = 0)
  require (ctx.files ≠ 0)
  require (calls.root && calls.mobile)
  require (calls.uml_create (if with_aks_setup then 1 else 0))
  require calls.marker_open

/-- `run_full` -/
def runFull (with_aks_setup : Bool) : Outcome :=
  match fullCopy strcmpNull calls source dest listing with_aks_setup with
  | .error stop => ⟨false, false, some stop⟩
  | .ok () =>
    -- The marker is there as soon as it has been opened.
    if calls.marker_write && calls.marker_fsync && calls.marker_close then ⟨true, false, none⟩
    else ⟨true, false, some (.exit 1)⟩

/-- `run_copy_data` up to the last line. -/
def copyData : Except Stop Unit := do
  require calls.precreate_timezone_link
  initialiseData calls
  let (rc, ctx) ← copyTreeContents strcmpNull source dest listing copyDataContext
  require (rc = 0)
  require calls.verify_timezone_symlink
  require (ctx.files ≠ 0)

/-- `run_copy_data` -/
def runCopyData : Outcome :=
  match copyData strcmpNull calls source dest listing with
  | .error stop => ⟨false, false, some stop⟩
  | .ok () => ⟨false, true, none⟩

/-- The modes that copy. -/
inductive Mode
  | full (with_aks_setup : Bool)
  | copyData
  deriving DecidableEq

/-- The mode, as `main` starts it. -/
def run : Mode → Outcome
  | .full with_aks_setup => runFull strcmpNull calls source dest listing with_aks_setup
  | .copyData => runCopyData strcmpNull calls source dest listing

end Helper

end DarwinVm.Seed
