import Mathlib.Data.UInt
import DarwinVm.Lib.System

/-!
# The power source service

`tools/re/power_pv_service.c` publishes one synthetic battery. Everything after its start runs as
blocks on one serial queue: the initial publication, delayed retries, resyncs after a restart of
powerd, and the shutdown. A state is what is left after some blocks, and a step runs one block whole.

The results of the calls to the power source, notify, and CoreFoundation APIs are given by `APIs`, a
function of the number of calls made before. A state carries the list of the calls made so far, with
what the service was doing at each creation of a source; no block reads more of it than its length.
-/

namespace DarwinVm.Power

/-- `IOReturn`. -/
abbrev IOReturn := Int32

/-- `kIOReturnSuccess`. -/
def kIOReturnSuccess : IOReturn := 0

/-- `kName`. -/
def kName : String := "Darwin VM"

/-- `kType`. -/
def kType : String := "InternalBattery"

/-- `kTransport`. -/
def kTransport : String := "Internal"

/-- `kState`. -/
def kState : String := "AC Power"

/-- `kPercentState`: a valid reading, on external power, fully charged, of 100 percent. -/
def kPercentState : UInt64 :=
  (1 : UInt64) <<< 19 ||| (1 : UInt64) <<< 16 ||| (1 : UInt64) <<< 21 ||| 100

/-- `IOPSPowerSourceID`: an opaque handle, and the `psid` in its layout. -/
structure Source where
  handle : ℕ
  psid : Int32
  deriving DecidableEq

/-- The description of a listed power source; a missing entry, or one of another type, is `none`. -/
structure Description where
  name : Option String
  type : Option String
  transport : Option String
  state : Option String
  current : Option Int32
  maximum : Option Int32
  present : Option Bool
  charging : Option Bool
  charged : Option Bool
  id : Option Int32

/-- What `verify_publication` gets from the APIs. -/
structure Verification where
  /-- Could every CoreFoundation string be created? -/
  strings : Bool
  /-- The descriptions of the listed sources, if the snapshot and its list could be copied. -/
  snapshot : Option (List (Option Description))

/-- The results of the API calls, by the number of calls made before. -/
structure APIs where
  pid : UInt32
  create : ℕ → IOReturn × Option Source
  set_details : ℕ → IOReturn
  release_source : ℕ → IOReturn
  verification : ℕ → Verification
  get_percent : ℕ → IOReturn × Int32 × Bool × Bool
  notify_set_state : ℕ → Int32
  notify_post : ℕ → Int32
  notify_get_state : ℕ → Int32 × UInt64

/-- What runs next: a step of `main`, or a block on the queue. -/
inductive Block
  /-- `main` registers for the percentage. -/
  | registerPercent (result token : Int32)
  /-- `main` registers for resyncs, with the signal handlers installed. -/
  | registerResync (result token : Int32)
  /-- The initial publication. -/
  | initial
  /-- A delayed retry. -/
  | retry (generation : ℕ)
  /-- powerd has restarted. -/
  | resync (token : Int32)
  /-- SIGTERM or SIGINT. -/
  | shutdown (signal_number : Int32)
  /-- `main` stops the service after an initial failure. -/
  | initialFailed
  /-- `main` ends after an initial failure. -/
  | finish
  deriving DecidableEq

/-- How far `main` has come, and whether the process still runs. -/
inductive Phase
  | starting | registering | registered
  /-- The initial publication has failed. -/
  | failed
  /-- `dispatch_main`. -/
  | running
  /-- Stopped after an initial failure. -/
  | stopped
  | exited (status : ℤ)
  /-- `fatal` has ended the process in the middle of a block. -/
  | fatal
  deriving DecidableEq

/-- An API call with its result. A creation is recorded with the block that makes it, and with the
generation and `stopping` at the call. -/
inductive Call
  | create (block : Block) (generation : ℕ) (stopping : Bool) (result : IOReturn)
    (source : Option Source)
  | setDetails (source : Source) (result : IOReturn)
  | releaseSource (source : Source) (result : IOReturn)
  | verify (result : Option Bool)
  | getPercent (result : IOReturn) (percent : Int32) (charging full : Bool)
  | notifySetState (state : UInt64) (result : Int32)
  | notifyPost (result : Int32)
  | notifyGetState (result : Int32) (state : UInt64)
  | notifyCancel (token : Int32)

/-- `struct Publisher`. -/
structure Publisher where
  /-- Is `details` set? -/
  details : Bool
  source : Option Source
  resync_token : Int32
  percent_token : Int32
  percent_owned : Bool
  retry_seconds : ℕ
  retry_generation : ℕ
  ready : Bool
  stopping : Bool
  initial_publish_complete : Bool
  resync_pending : Bool

/-- A state of the service. -/
structure Service where
  publisher : Publisher
  phase : Phase
  /-- The generations of the retries that are scheduled and have not run. -/
  retries : List ℕ
  /-- The block that runs, or has run last. -/
  block : Block
  /-- The calls made so far. -/
  calls : List Call
  /-- Has the initial publication succeeded? -/
  published : Bool

/-- The service at the start of `main`. -/
def Service.init : Service :=
  ⟨⟨true, none, -1, -1, false, 0, 0, false, false, false, false⟩, .starting, [], .initial, [], false⟩

/-- Make a call. -/
def Service.call (s : Service) (c : Call) : Service := { s with calls := s.calls ++ [c] }

variable (apis : APIs)

/-! ## Verification -/

/-- `power_source_id`; without a `psid` the process ends. -/
def powerSourceId (source : Source) : Option UInt32 :=
  if source.psid ≤ 0 then none
  else some ((apis.pid &&& 0xffff) <<< 16 ||| (source.psid.toUInt32 &&& 0xffff))

/-- `dictionary_matches`. -/
def dictionaryMatches (expected_power_source_id : UInt32) (d : Description) : Bool :=
  d.name = some kName && d.type = some kType && d.transport = some kTransport &&
    d.state = some kState && d.current = some 100 && d.maximum = some 100 &&
    d.present = some true && d.charging = some false && d.charged = some true &&
    d.id.map Int32.toUInt32 = some expected_power_source_id

/-- `verify_publication`: is the source the only one listed, and as published? `none` when the process
ends. -/
def verifyPublication (v : Verification) (source : Source) : Option Bool :=
  if ¬ v.strings then none
  else
    match powerSourceId apis source, v.snapshot with
    | none, _ => none
    | some _, none => some false
    | some id, some list =>
      let hits := list.countP fun d => d.any (dictionaryMatches id)
      some (hits = 1 && list.length = 1)

/-! ## Publication -/

/-- `withdraw_percent`. -/
def withdrawPercent (s : Service) : Service :=
  if ¬ s.publisher.percent_owned ∨ s.publisher.percent_token < 0 then s
  else
    let (result, state) := apis.notify_get_state s.calls.length
    let s := s.call (.notifyGetState result state)
    let s :=
      if result = 0 ∧ state = kPercentState then
        let result := apis.notify_set_state s.calls.length
        let s := s.call (.notifySetState 0 result)
        if result = 0 then s.call (.notifyPost (apis.notify_post s.calls.length)) else s
      else s
    { s with publisher := { s.publisher with percent_owned := false } }

/-- `publish_percent`. -/
def publishPercent (s : Service) : Bool × Service :=
  let set_result := apis.notify_set_state s.calls.length
  let s := s.call (.notifySetState kPercentState set_result)
  let (post_result, s) :=
    if set_result = 0 then
      let post_result := apis.notify_post s.calls.length
      (post_result, s.call (.notifyPost post_result))
    else (-1, s)
  let (state_result, state) := apis.notify_get_state s.calls.length
  let s := s.call (.notifyGetState state_result state)
  let (read_result, percent, charging, full) := apis.get_percent s.calls.length
  let s := s.call (.getPercent read_result percent charging full)
  let percent_owned := set_result = 0 && state_result = 0 && state = kPercentState
  let valid := percent_owned && post_result = 0 && read_result = kIOReturnSuccess &&
    percent = 100 && !charging && full
  (valid, { s with publisher := { s.publisher with percent_owned := percent_owned } })

/-- `release_current_source`. -/
def releaseCurrentSource (s : Service) : IOReturn × Service :=
  let s := withdrawPercent apis s
  match s.publisher.source with
  | none => (kIOReturnSuccess, s)
  | some source =>
    let result := apis.release_source s.calls.length
    let s := s.call (.releaseSource source result)
    -- A restarted server may reject this opaque client handle; never reuse it.
    (result, { s with publisher := { s.publisher with source := none, ready := false } })

/-- `schedule_retry`. -/
def scheduleRetry (s : Service) : Service :=
  let delay := if s.publisher.retry_seconds = 0 then 1 else s.publisher.retry_seconds
  let delay := if delay > 30 then 30 else delay
  let retry_seconds := if delay < 30 then delay * 2 else 30
  let generation := s.publisher.retry_generation + 1
  { s with
    publisher :=
      { s.publisher with retry_seconds := retry_seconds, retry_generation := generation }
    retries := s.retries ++ [generation] }

/-- The end of `publish_source` at `failed`. -/
def publishFailed (retry_on_failure : Bool) (s : Service) : Service :=
  let s := { s with publisher := { s.publisher with source := none, ready := false } }
  if retry_on_failure ∧ ¬ s.publisher.stopping then scheduleRetry s else s

/-- `publish_source` with a source that has not been validated. -/
def rejectSource (source : Source) (retry_on_failure : Bool) (s : Service) : Service :=
  let s := withdrawPercent apis s
  let s := s.call (.releaseSource source (apis.release_source s.calls.length))
  publishFailed retry_on_failure s

/-- `publish_source` with a source that has been validated. -/
def acceptSource (source : Source) (s : Service) : Service :=
  { s with
    publisher :=
      { s.publisher with
        source := some source
        ready := true
        retry_seconds := 1
        retry_generation := s.publisher.retry_generation + 1 } }

/-- `publish_source` with a source that has been created. -/
def validateSource (source : Source) (retry_on_failure : Bool) (s : Service) : Bool × Service :=
  let set_result := apis.set_details s.calls.length
  let s := s.call (.setDetails source set_result)
  if set_result ≠ kIOReturnSuccess then (false, rejectSource apis source retry_on_failure s)
  else
    let verified := verifyPublication apis (apis.verification s.calls.length) source
    let s := s.call (.verify verified)
    match verified with
    | none => (false, { s with phase := .fatal })
    | some false => (false, rejectSource apis source retry_on_failure s)
    | some true =>
      let (valid, s) := publishPercent apis s
      if valid then (true, acceptSource source s)
      else (false, rejectSource apis source retry_on_failure s)

/-- `publish_source` once no source is left. -/
def createSource (retry_on_failure : Bool) (s : Service) : Bool × Service :=
  let (create_result, source) := apis.create s.calls.length
  let s := s.call
    (.create s.block s.publisher.retry_generation s.publisher.stopping create_result source)
  match source with
  | none => (false, publishFailed retry_on_failure s)
  | some source =>
    if create_result ≠ kIOReturnSuccess then
      let s := s.call (.releaseSource source (apis.release_source s.calls.length))
      (false, publishFailed retry_on_failure s)
    else validateSource apis source retry_on_failure s

/-- `publish_source`. -/
def publishSource (retry_on_failure : Bool) (s : Service) : Bool × Service :=
  if s.publisher.stopping ∨ ¬ s.publisher.details then (false, s)
  else
    createSource apis retry_on_failure
      (if s.publisher.source.isSome then (releaseCurrentSource apis s).2 else s)

/-! ## Blocks -/

/-- `retry_publish`. -/
def retryPublish (generation : ℕ) (s : Service) : Service :=
  if s.publisher.stopping ∨ s.publisher.ready ∨ generation ≠ s.publisher.retry_generation then s
  else (publishSource apis true s).2

/-- `++publisher.retry_generation`. -/
def supersede (s : Service) : Service :=
  { s with
    publisher := { s.publisher with retry_generation := s.publisher.retry_generation + 1 } }

/-- `powerd_resync`. -/
def powerdResync (token : Int32) (s : Service) : Service :=
  if s.publisher.stopping ∨ token ≠ s.publisher.resync_token then s
  else if ¬ s.publisher.initial_publish_complete then
    { s with publisher := { s.publisher with resync_pending := true } }
  else
    -- Supersede a pending delayed retry.
    let s := supersede s
    let s := (releaseCurrentSource apis s).2
    (publishSource apis true s).2

/-- `publisher.stopping = 1`, and no retry is current any more. -/
def stop (s : Service) : Service :=
  supersede { s with publisher := { s.publisher with stopping := true } }

/-- `notify_cancel`, if the token is one. -/
def cancelToken (token : Int32) (s : Service) : Service :=
  if 0 ≤ token then s.call (.notifyCancel token) else s

/-- `shutdown_on_queue`. -/
def shutdownOnQueue (s : Service) : Service :=
  if s.publisher.stopping then s
  else
    let s := cancelToken s.publisher.resync_token (stop s)
    let (release_result, s) := releaseCurrentSource apis s
    let s := cancelToken s.publisher.percent_token s
    { s with
      publisher := { s.publisher with details := false }
      phase := .exited (if release_result = kIOReturnSuccess then 0 else 1) }

/-- The block of the initial publication in `main`. -/
def initialPublish (s : Service) : Service :=
  let (initially_ready, s) := publishSource apis false s
  if s.phase = .fatal then s
  else
    let s := { s with
      publisher := { s.publisher with initial_publish_complete := true }
      published := initially_ready }
    if initially_ready ∧ s.publisher.resync_pending then
      let s := { s with publisher := { s.publisher with resync_pending := false } }
      let s := powerdResync apis s.publisher.resync_token s
      if s.phase = .fatal then s
      else { s with phase := if s.publisher.ready then .running else .failed }
    else { s with phase := if initially_ready then .running else .failed }

/-- The block of `main` after an initial failure. -/
def initialFailed (s : Service) : Service :=
  { (releaseCurrentSource apis (stop s)).2 with phase := .stopped }

/-- The end of `main` after an initial failure. -/
def finish (s : Service) : Service :=
  let s := s.call (.notifyCancel s.publisher.resync_token)
  { s with publisher := { s.publisher with details := false }, phase := .exited 1 }

/-- Does the process run, with its signal handlers installed? -/
def Phase.alive : Phase → Bool
  | .registering | .registered | .failed | .running | .stopped => true
  | .starting | .exited _ | .fatal => false

/-- The blocks of the service, each whole. -/
def Service.step (s : Service) (b : Block) : Option Service :=
  let s := { s with block := b }
  match b with
  | .registerPercent result token =>
    if s.phase = .starting then
      if result ≠ 0 ∨ token < 0 then some { s with phase := .fatal }
      else
        some { s with publisher := { s.publisher with percent_token := token }, phase := .registering }
    else none
  | .registerResync result token =>
    if s.phase = .registering then
      let s := { s with publisher := { s.publisher with resync_token := token } }
      some { s with phase := if result ≠ 0 ∨ token < 0 then .exited 1 else .registered }
    else none
  | .initial => if s.phase = .registered then some (initialPublish apis s) else none
  | .retry generation =>
    if s.phase.alive ∧ generation ∈ s.retries then
      some (retryPublish apis generation { s with retries := s.retries.erase generation })
    else none
  | .resync token => if s.phase.alive then some (powerdResync apis token s) else none
  | .shutdown _ => if s.phase.alive then some (shutdownOnQueue apis s) else none
  | .initialFailed => if s.phase = .failed then some (initialFailed apis s) else none
  | .finish => if s.phase = .stopped then some (finish s) else none

/-- The service as a labelled system. -/
def service : System Service Block := ⟨.init, Service.step apis⟩

end DarwinVm.Power
