import DarwinVm.Lib.System
import DarwinVm.Hid.Handle

/-!
# The injector

The threads of `tools/input/dvm_hid.c` as one labelled system, a step for each locked region and for
each action outside the lock that another thread can see: the reader (`handle`, and the release at
the end of input), the worker (`dispatch_thread`, `recover_services`), `hid_thread`, and the
notification callback `cb_notify`, which writes `state` before it takes the lock. The worker's lock
is taken again right after a dispatch, so that the end of one round of its loop and the start of the
next are one region.

A state carries a history besides the data of the program. The history only records what the steps
do; no step reads it.
-/

namespace DarwinVm.Hid

/-- Where the worker thread is. -/
inductive Worker
  /-- Before the lock at the top of its loop, or waiting on `op_cond`. -/
  | idle
  /-- In the dispatch call of an operation. -/
  | dispatching (o : Op)
  /-- The dispatch has returned and is reported; the lock comes next. -/
  | reported (ok : Bool)
  /-- The queue has been emptied; the first region of `recover_services` comes next. -/
  | recovering
  /-- Before an attempt to create the services. -/
  | attempting (attempt : ℕ)
  /-- The old services are forgotten, and the new ones are being created. -/
  | creating (attempt : ℕ)
  /-- The services have been created, or not; the second region of `recover_services` is next. -/
  | created (ok : Bool) (attempt : ℕ)
  deriving DecidableEq

/-- Is the worker between emptying the queue and setting the services ready again? -/
def Worker.inRecovery : Worker → Bool
  | .idle | .dispatching _ | .reported _ => false
  | .recovering | .attempting _ | .creating _ | .created _ _ => true

/-- A record that the reader has handled: its code, and the operations that it queued. -/
structure Handled where
  record : Record
  code : Code
  queued : List Op
  /-- Did it take over from a held contact? -/
  replaced : Bool

/-- What has happened. -/
structure History where
  /-- Every operation queued, in order. -/
  appended : List Op
  /-- For each operation in the queue, how many recoveries had finished when it was queued. -/
  tags : List ℕ
  /-- For each dispatch, how many recoveries had finished when its operation was queued, and when it
  was dispatched. -/
  dispatched : List (ℕ × ℕ)
  /-- The operations given to the current services. -/
  sent : List Op
  /-- The DVMI2D lines: identity and result. -/
  reports : List ((UInt32 × UInt32) × Bool)
  /-- The operations flushed by recoveries. -/
  flushed : List Op
  /-- The records handled. -/
  handled : List Handled
  /-- The operation queued by the release at the end of input. -/
  eofQueued : List Op
  /-- How many recoveries have finished. -/
  recovered : ℕ
  /-- Has a loss been notified since the creation of the current services began? -/
  lossSince : Bool

/-- A state of the injector. -/
structure Injector where
  shared : Shared
  worker : Worker
  /-- `failures` of `dispatch_thread`. -/
  failures : ℕ
  /-- Is `hid_thread` still to run its locked region? -/
  initializing : Bool
  /-- The callbacks that have written `state` and not yet taken the lock. -/
  notifying : ℕ
  /-- Has the reader reached the end of its input? -/
  ended : Bool
  history : History

/-- The step that a thread takes. -/
inductive Label
  /-- The reader handles a record. -/
  | record (r : Record)
  /-- The reader reaches the end of its input. -/
  | eof
  /-- The worker takes the lock at the top of its loop. -/
  | wake
  /-- A dispatch returns and is reported. -/
  | dispatched (ok : Bool)
  /-- The worker takes the lock after a dispatch. -/
  | relock
  /-- The first locked region of `recover_services`. -/
  | recoverBegin
  /-- An attempt to create the services begins. -/
  | createBegin
  /-- The attempt ends. -/
  | createEnd (ok : Bool)
  /-- The second locked region of `recover_services`. -/
  | recoverEnd
  /-- `cb_notify` with a loss, type 3 or 5, writes `state`. -/
  | notify
  /-- The locked region of `cb_notify`. -/
  | notifyLocked
  /-- The locked region of `hid_thread`, after `initialize_hid`. -/
  | initialized (ok : Bool)

namespace Injector

/-- The injector when its threads start. -/
def init : Injector :=
  ⟨.init, .idle, 0, true, 0, false, ⟨[], [], [], [], [], [], [], [], 0, false⟩⟩

/-- The operations that the reader has queued in a region. -/
def newOps (s s' : Shared) : List Op := s'.ops.toList.drop s.ops.len

/-- The history of a region in which the reader queues operations. -/
def History.queue (h : History) (l : List Op) : History :=
  { h with appended := h.appended ++ l, tags := h.tags ++ l.map fun _ => h.recovered }

/-- Does a record take over from a held contact, so that it queues the release of that contact and
an operation of its own? -/
def replaces (s : Shared) (r : Record) : Bool :=
  s.state = .R && s.held &&
    (r.kind = .D || (r.epoch ≠ s.epoch && (r.kind = .B || r.kind = .W)))

/-- The reader handles a record. -/
def read (cfg : Config) (r : Record) (m : Injector) : Injector :=
  let (code, s) := handle cfg false r m.shared
  let l := newOps m.shared s
  let h := History.queue m.history l
  { m with
    shared := s
    history := { h with handled := h.handled ++ [⟨r, code, l, replaces m.shared r⟩] } }

/-- The reader ends. -/
def readEnd (cfg : Config) (m : Injector) : Injector :=
  let s := eof cfg m.shared
  let l := newOps m.shared s
  { m with
    shared := s
    ended := true
    history := { History.queue m.history l with eofQueued := l } }

/-- A recovery starts by emptying the queue. -/
def flush (m : Injector) : Injector :=
  { m with
    shared := { m.shared with ops := m.shared.ops.clear }
    worker := .recovering
    history := { m.history with
      tags := [], flushed := m.history.flushed ++ m.shared.ops.toList } }

/-- The worker goes to the dispatch of an operation that it has taken out of the queue. -/
def take (o : Op) (ops : Ring Op opQueue) (m : Injector) : Injector :=
  { m with
    shared := { m.shared with ops := ops }
    worker := .dispatching o
    history := { m.history with
      tags := m.history.tags.tail
      dispatched := m.history.dispatched ++
        [(m.history.tags.headD m.history.recovered, m.history.recovered)]
      sent := m.history.sent ++ [o] } }

/-- The top of the loop of `dispatch_thread`, under the lock. -/
def loopTop (m : Injector) : Injector :=
  if m.shared.need_recovery then m.flush
  else
    match m.shared.ops.pop with
    | none => { m with worker := .idle }
    | some (o, ops) => m.take o ops

/-- The worker takes the lock after a dispatch: it counts failures in a row, and goes on at the top
of its loop. -/
def countFailures (ok : Bool) (m : Injector) : Injector :=
  let failures := if ok then 0 else m.failures + 1
  let need_recovery := if failures ≥ 2 then true else m.shared.need_recovery
  { m with failures := failures, shared := { m.shared with need_recovery := need_recovery } }

/-- The first locked region of `recover_services`. -/
def recoverBegin (m : Injector) : Injector :=
  { m with
    shared := { m.shared with state := .I, recoveries := m.shared.recoveries + 1 }
    worker := .attempting 1 }

/-- An attempt to create the services begins. -/
def createBegin (n : ℕ) (m : Injector) : Injector :=
  { m with
    worker := .creating n
    history := { m.history with sent := [], lossSince := false } }

/-- The services are ready again: the second locked region of `recover_services`, after which the
worker takes the lock at the top of its loop. -/
def recoverDone (m : Injector) : Injector :=
  { m with
    shared := { m.shared with need_recovery := false, held := false, state := .R }
    worker := .idle
    failures := 0
    history := { m.history with recovered := m.history.recovered + 1 } }

/-- A dispatch returns, and its result is reported. -/
def report (o : Op) (ok : Bool) (m : Injector) : Injector :=
  { m with
    worker := .reported ok
    history := { m.history with reports := m.history.reports ++ [(o.ident, ok)] } }

/-- `cb_notify` with a loss writes `state`. -/
def notify (m : Injector) : Injector :=
  { m with
    shared := { m.shared with state := .L }
    notifying := m.notifying + 1
    history := { m.history with lossSince := true } }

/-- The locked region of `cb_notify`. -/
def notifyLocked (m : Injector) : Injector :=
  { m with
    shared := { m.shared with need_recovery := true }
    notifying := m.notifying - 1 }

/-- The locked region of `hid_thread`. -/
def initialized (ok : Bool) (m : Injector) : Injector :=
  { m with
    shared := { m.shared with state := if ok then .R else .L }
    initializing := false }

/-- The steps of the injector. -/
def step (cfg : Config) (m : Injector) : Label → Option Injector
  | .record r => if m.ended then none else some (read cfg r m)
  | .eof => if m.ended then none else some (readEnd cfg m)
  | .wake =>
    match m.worker with
    | .idle => some (loopTop m)
    | _ => none
  | .dispatched ok =>
    match m.worker with
    | .dispatching o => some (report o ok m)
    | _ => none
  | .relock =>
    match m.worker with
    | .reported ok => some (loopTop (countFailures ok m))
    | _ => none
  | .recoverBegin =>
    match m.worker with
    | .recovering => some (recoverBegin m)
    | _ => none
  | .createBegin =>
    match m.worker with
    | .attempting n => some (createBegin n m)
    | _ => none
  | .createEnd ok =>
    match m.worker with
    | .creating n => some { m with worker := .created ok n }
    | _ => none
  | .recoverEnd =>
    match m.worker with
    | .created true _ => some (recoverDone m)
    | .created false n => some { m with worker := .attempting (n + 1) }
    | _ => none
  | .notify => some (notify m)
  | .notifyLocked => if m.notifying = 0 then none else some (notifyLocked m)
  | .initialized ok => if m.initializing then some (initialized ok m) else none

/-- The steps as a relation, one case for each. -/
inductive Step (cfg : Config) (m : Injector) : Label → Injector → Prop
  | record {r : Record} (h : m.ended = false) : Step cfg m (.record r) (read cfg r m)
  | eof (h : m.ended = false) : Step cfg m .eof (readEnd cfg m)
  | wake (h : m.worker = .idle) : Step cfg m .wake m.loopTop
  | dispatched {o : Op} {ok : Bool} (h : m.worker = .dispatching o) :
    Step cfg m (.dispatched ok) (report o ok m)
  | relock {ok : Bool} (h : m.worker = .reported ok) :
    Step cfg m .relock (countFailures ok m).loopTop
  | recoverBegin (h : m.worker = .recovering) : Step cfg m .recoverBegin (recoverBegin m)
  | createBegin {n : ℕ} (h : m.worker = .attempting n) :
    Step cfg m .createBegin (createBegin n m)
  | createEnd {n : ℕ} {ok : Bool} (h : m.worker = .creating n) :
    Step cfg m (.createEnd ok) { m with worker := .created ok n }
  | recoverDone {n : ℕ} (h : m.worker = .created true n) : Step cfg m .recoverEnd (recoverDone m)
  | recoverRetry {n : ℕ} (h : m.worker = .created false n) :
    Step cfg m .recoverEnd { m with worker := .attempting (n + 1) }
  | notify : Step cfg m .notify (notify m)
  | notifyLocked (h : 0 < m.notifying) : Step cfg m .notifyLocked (notifyLocked m)
  | initialized {ok : Bool} (h : m.initializing = true) :
    Step cfg m (.initialized ok) (initialized ok m)

variable {cfg : Config} {m m' : Injector} {a : Label}

/-- Every step of the injector is one of the cases. -/
theorem Step.of_step (h : step cfg m a = some m') : Step cfg m a m' := by
  cases a <;> simp only [step] at h
  case record r =>
    split at h
    · cases h
    · obtain rfl := Option.some.inj h
      exact .record (by simpa using ‹¬m.ended = true›)
  case eof =>
    split at h
    · cases h
    · obtain rfl := Option.some.inj h
      exact .eof (by simpa using ‹¬m.ended = true›)
  case recoverEnd =>
    split at h
    · obtain rfl := Option.some.inj h
      exact .recoverDone ‹_›
    · obtain rfl := Option.some.inj h
      exact .recoverRetry ‹_›
    · cases h
  case notify =>
    obtain rfl := Option.some.inj h
    exact .notify
  case notifyLocked =>
    split at h
    · cases h
    · obtain rfl := Option.some.inj h
      exact .notifyLocked (Nat.pos_of_ne_zero ‹_›)
  case initialized ok =>
    split at h
    · obtain rfl := Option.some.inj h
      exact .initialized ‹_›
    · cases h
  all_goals
    split at h
    · obtain rfl := Option.some.inj h
      constructor
      assumption
    · cases h

/-- What the worker does at the top of its loop. -/
theorem loopTop_cases (m : Injector) :
    (m.shared.need_recovery = true ∧ m.loopTop = m.flush) ∨
      (m.shared.need_recovery = false ∧ m.shared.ops.toList = [] ∧
        m.loopTop = { m with worker := .idle }) ∨
      (m.shared.need_recovery = false ∧ ∃ o ops, m.shared.ops.toList = o :: ops.toList ∧
        m.loopTop = m.take o ops) := by
  unfold loopTop
  cases hneed : m.shared.need_recovery with
  | true => exact .inl ⟨rfl, rfl⟩
  | false =>
    cases hpop : m.shared.ops.pop with
    | none => exact .inr (.inl ⟨rfl, Ring.pop_eq_none.1 hpop, rfl⟩)
    | some p => exact .inr (.inr ⟨rfl, p.1, p.2, Ring.toList_pop hpop, rfl⟩)

/-- The operations that a region queues, when it only queues. -/
theorem newOps_eq {s s' : Shared} {l : List Op} (h : s'.ops.toList = s.ops.toList ++ l) :
    newOps s s' = l := by
  rw [newOps, h, ← Ring.length_toList, List.drop_left]

/-- What a record does to the injector: it has the effect of `handle`, and queues `l`. -/
theorem read_spec (cfg : Config) (r : Record) (m : Injector) :
    let e := effect (m.shared.state = .R) (r.epoch ≠ m.shared.epoch) m.shared.held
      m.shared.free r.kind
    ∃ s l, read cfg r m =
        { m with
          shared := s
          history := { History.queue m.history l with
            handled := m.history.handled ++ [⟨r, e.code, l, replaces m.shared r⟩] } } ∧
      s.state = m.shared.state ∧ s.need_recovery = m.shared.need_recovery ∧ s.held = e.held ∧
      s.ops.toList = m.shared.ops.toList ++ l ∧ l.map Op.mark = e.queued ∧
      ∀ o ∈ l, o.ident = r.ident := by
  intro e
  obtain ⟨ht, hcode⟩ := handle_effect cfg r m.shared
  obtain ⟨l, hops, hmarks, hident⟩ := ht.ops
  refine ⟨(handle cfg false r m.shared).2, l, ?_, ht.state, ht.need_recovery, ht.held, hops,
    hmarks, hident⟩
  simp only [read, newOps_eq hops, hcode]
  rfl

/-- What the end of input does to the injector: it releases a held contact if the services are
ready, which queues `l`. -/
theorem readEnd_spec (cfg : Config) (m : Injector) :
    let e : Effect := ⟨m.shared.held, [], .Q⟩
    let e := if m.shared.state = .R then e.release m.shared.free else e
    ∃ s l, readEnd cfg m =
        { m with
          shared := s
          ended := true
          history := { History.queue m.history l with eofQueued := l } } ∧
      s.state = m.shared.state ∧ s.need_recovery = m.shared.need_recovery ∧ s.held = e.held ∧
      s.ops.toList = m.shared.ops.toList ++ l ∧ l.map Op.mark = e.queued ∧
      ∀ o ∈ l, o.ident = (m.shared.epoch, 0) := by
  intro _ e
  have ht := eof_effect cfg m.shared
  obtain ⟨l, hops, hmarks, hident⟩ := ht.ops
  refine ⟨eof cfg m.shared, l, ?_, ht.state, ht.need_recovery, ht.held, hops, hmarks, hident⟩
  simp only [readEnd, newOps_eq hops]

end Injector

/-- The injector as a labelled system. -/
def injector (cfg : Config) : System Injector Label := ⟨.init, Injector.step cfg⟩

end DarwinVm.Hid
