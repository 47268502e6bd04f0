import Mathlib.Data.Rat.Defs
import DarwinVm.Lib.Bracket
import DarwinVm.Lib.Ring
import DarwinVm.Hid.Record

/-!
# The reader's side of the injector

The data that `tools/input/dvm_hid.c` keeps under its lock, and what the reader thread does to it:
`queue_op`, `release_contact`, and `handle`, with the timestamps of `timeline_timestamp`. Each
function takes the locked data and returns its result with the data after it. Coordinates are exact
fractions of the display, and `mach_absolute_time` reads a clock that the configuration supplies.

`effect` is what `handle` does to the contact and the queue, on the few values that this depends on;
`handle_effect` shows that `handle` does just that.
-/

namespace DarwinVm.Hid

/-- `state`: `I` initialising, `R` ready, `L` lost. -/
inductive Status
  | I | R | L
  deriving DecidableEq, Repr

/-- The code of an acknowledgement: `Q` accepted, `N` not ready, `F` refused. -/
inductive Code
  | Q | N | F
  deriving DecidableEq, Repr

/-- The `kind` of an operation: `T` touch, `B` button, `W` wheel. -/
inductive OpKind
  | T | B | W
  deriving DecidableEq, Repr

/-- `struct op`. -/
structure Op where
  epoch : UInt32
  seq : UInt32
  kind : OpKind
  x : ℚ
  y : ℚ
  down : Bool
  edge : Bool
  usage : UInt32
  ts : UInt64
  notches : Int32
  deriving DecidableEq

instance : Inhabited Op := ⟨⟨0, 0, .T, 0, 0, false, false, 0, 0, 0⟩⟩

/-- The identity under which the completion of an operation is reported. -/
def Op.ident (o : Op) : UInt32 × UInt32 := (o.epoch, o.seq)

/-- `OP_QUEUE`. -/
abbrev opQueue : ℕ := 32

instance : NeZero opQueue := ⟨by decide⟩

/-- The guest's clock. -/
structure Config where
  timebase_numer : UInt32
  timebase_denom : UInt32
  /-- The values that successive calls of `mach_absolute_time` return. -/
  clock : ℕ → UInt64

/-- A clock that stands still. -/
def frozen : Config := ⟨1, 1, fun _ => 0⟩

/-- The data under the lock. -/
structure Shared where
  state : Status
  need_recovery : Bool
  recoveries : ℕ
  epoch : UInt32
  held : Bool
  held_x : ℚ
  held_y : ℚ
  gesture_base_mach : UInt64
  gesture_base_host_ms : Int64
  /-- `ops`, `op_head`, and `op_len`. -/
  ops : Ring Op opQueue
  /-- How often the clock has been read. -/
  clock_reads : ℕ

/-- The data when the program starts. -/
def Shared.init : Shared :=
  ⟨.I, false, 0, 0, false, 0, 0, 0, 0, Ring.empty fun _ => default, 0⟩

variable (cfg : Config)

/-- `mach_absolute_time`. -/
def machAbsoluteTime (s : Shared) : UInt64 × Shared :=
  (cfg.clock s.clock_reads, { s with clock_reads := s.clock_reads + 1 })

/-- `timeline_timestamp`: the host's time since the start of the gesture, on the guest's clock, but
never later than now. -/
def timelineTimestamp (host_ms : Int64) (s : Shared) : UInt64 × Shared :=
  let (now, s) := machAbsoluteTime cfg s
  if host_ms = 0 ∨ s.gesture_base_mach = 0 ∨ host_ms < s.gesture_base_host_ms then (now, s)
  else
    let ticks := (host_ms - s.gesture_base_host_ms).toUInt64 * 1000000 *
      cfg.timebase_denom.toUInt64 / cfg.timebase_numer.toUInt64
    let ts := s.gesture_base_mach + ticks
    (if ts < now then ts else now, s)

/-- `queue_op`: queue one operation; false when the worker is too far behind. -/
def queueOp (r : Record) (kind : OpKind) (x y : ℚ) (down edge : Bool) (usage : UInt32)
    (s : Shared) : Bool × Shared :=
  let (ts, s') := timelineTimestamp cfg r.host_ms s
  match s.ops.push ⟨r.epoch, r.seq, kind, x, y, down, edge, usage, ts, r.c⟩ with
  | none => (false, s)
  | some ops => (true, { s' with ops := ops })

/-- `release_contact`. -/
def releaseContact (r : Record) (s : Shared) : Bool × Shared :=
  if ¬ s.held then (true, s)
  else queueOp cfg r .T s.held_x s.held_y false true 0 { s with held := false }

/-- The start of `handle`: a record of another epoch releases the contact of the old one. -/
def openEpoch (r : Record) (s : Shared) : Shared :=
  if r.epoch ≠ s.epoch then
    let s := if s.state = .R then (releaseContact cfg r s).2 else s
    { s with held := false, epoch := r.epoch }
  else s

/-- A down edge or a button starts a gesture: its time is the base of the timestamps. -/
def rebase (r : Record) (s : Shared) : Shared :=
  let (now, s) := machAbsoluteTime cfg s
  { s with gesture_base_mach := now, gesture_base_host_ms := r.host_ms }

/-- `r->a / 32767.0`. -/
def coordinate (a : UInt32) : ℚ := (a.toNat : ℚ) / 32767

/-- The code of a queueing result. -/
def queued (p : Bool × Shared) : Code × Shared := (if p.1 then .Q else .F, p.2)

@[simp] theorem queued_snd (p : Bool × Shared) : (queued p).2 = p.2 := rfl

/-- `handle`: what the reader thread does with a record under the lock. -/
def handle (validate_only : Bool) (r : Record) (s : Shared) : Code × Shared :=
  if validate_only then (.Q, s)
  else
    let s := openEpoch cfg r s
    let x := coordinate r.a
    let y := coordinate r.b
    match r.kind with
    | .P => (.Q, s)
    | .C =>
      if s.state ≠ .R then (.Q, { s with held := false })
      else queued (releaseContact cfg r s)
    | .B =>
      if s.state ≠ .R then (.N, s)
      else queued (queueOp cfg r .B 0 0 (r.b ≠ 0) true r.a (rebase cfg r s))
    | .W =>
      if s.state ≠ .R then (.N, s)
      -- A real drag owns the finger.
      else if s.held then (.Q, s)
      else queued (queueOp cfg r .W x y false false 0 s)
    | .D =>
      if s.state ≠ .R then (.N, { s with held := false })
      else
        -- Never stack two contacts.
        let s := if s.held then (releaseContact cfg r s).2 else s
        let s := { rebase cfg r s with held := true, held_x := x, held_y := y }
        queued (queueOp cfg r .T x y true true 0 s)
    | .M =>
      if s.state ≠ .R then (.N, { s with held := false })
      else if ¬ s.held then (.Q, s)
      else queued (queueOp cfg r .T x y true false 0 { s with held_x := x, held_y := y })
    | .U =>
      if s.state ≠ .R then (.N, { s with held := false })
      else if ¬ s.held then (.Q, s)
      else
        queued (queueOp cfg r .T x y false true 0
          { s with held_x := x, held_y := y, held := false })

/-- The end of `reader`: at the end of the input the contact is released, under sequence number
zero of the current epoch. -/
def eof (s : Shared) : Shared :=
  if s.state = .R then (releaseContact cfg ⟨s.epoch, 0, 0, 0, 0, .P, 0⟩ s).2 else s

/-! ## What a record does to the contact -/

/-- The mark that an operation makes on the contact; a button makes none. -/
def Op.mark (o : Op) : Option Mark :=
  match o.kind, o.down, o.edge with
  | .T, true, true => some .opening
  | .T, true, false => some .inner
  | .T, false, true => some .closing
  | .T, false, false => some .stray
  | .W, _, _ => some .atom
  | .B, _, _ => none

/-- The marks of a sequence of operations. -/
def marks (l : List Op) : List Mark := l.filterMap Op.mark

/-- The marks of operations, from what `effect` says of them. -/
theorem marks_of_map {l : List Op} {ms : List (Option Mark)} (h : l.map Op.mark = ms) :
    marks l = ms.filterMap id := by
  rw [← h, List.filterMap_map]
  rfl

@[simp] theorem marks_append (l l' : List Op) : marks (l ++ l') = marks l ++ marks l' := by
  simp [marks]

/-- What a record does: `held` after it, the marks of the operations that it queues, and the code
of its acknowledgement. -/
structure Effect where
  held : Bool
  queued : List (Option Mark)
  code : Code
  deriving DecidableEq

/-- Queue an operation with a mark, while there are free slots. -/
def Effect.put (free : ℕ) (e : Effect) (m : Option Mark) : Effect :=
  if e.queued.length < free then { e with queued := e.queued ++ [m], code := .Q }
  else { e with code := .F }

/-- Release the contact. -/
def Effect.release (free : ℕ) (e : Effect) : Effect :=
  if e.held then { e with held := false }.put free (some .closing) else { e with code := .Q }

/-- What a record does to the contact and the queue: `ready` says that `state` is `R`, `newEpoch`
that the record is of another epoch, and `free` is the number of free slots of the queue. -/
def effect (ready newEpoch held : Bool) (free : ℕ) (kind : Kind) : Effect :=
  let e : Effect := ⟨held, [], .Q⟩
  let e := if newEpoch then { if ready then e.release free else e with held := false } else e
  match kind with
  | .P => { e with code := .Q }
  | .C => if ready then e.release free else { e with held := false, code := .Q }
  | .B => if ready then e.put free none else { e with code := .N }
  | .W =>
    if ready then if e.held then { e with code := .Q } else e.put free (some .atom)
    else { e with code := .N }
  | .D =>
    if ready then
      { if e.held then e.release free else e with held := true }.put free (some .opening)
    else { e with held := false, code := .N }
  | .M =>
    if ready then if e.held then e.put free (some .inner) else { e with code := .Q }
    else { e with held := false, code := .N }
  | .U =>
    if ready then
      if e.held then { e with held := false }.put free (some .closing) else { e with code := .Q }
    else { e with held := false, code := .N }

/-- The number of free slots of the queue. -/
def Shared.free (s : Shared) : ℕ := opQueue - s.ops.len

/-- The data `s`, reached from `s₀` within the handling of `r`, has the effect `e`: what it has of
the contact is `e`'s, the operations queued since make the marks of `e` under the identity of `r`,
and the services' state is as it was. -/
structure Tracks (r : Record) (s₀ : Shared) (e : Effect) (s : Shared) : Prop where
  state : s.state = s₀.state
  need_recovery : s.need_recovery = s₀.need_recovery
  recoveries : s.recoveries = s₀.recoveries
  held : s.held = e.held
  ops : ∃ added, s.ops.toList = s₀.ops.toList ++ added ∧ added.map Op.mark = e.queued ∧
    ∀ o ∈ added, o.ident = r.ident

variable {cfg} {r : Record} {s₀ s : Shared} {e : Effect}

/-- Nothing has been done yet. -/
theorem Tracks.refl (r : Record) (s : Shared) (c : Code) : Tracks r s ⟨s.held, [], c⟩ s :=
  ⟨rfl, rfl, rfl, rfl, [], by simp, rfl, by simp⟩

/-- The queue is as long as before plus the marks queued. -/
theorem Tracks.len (h : Tracks r s₀ e s) : s.ops.len = s₀.ops.len + e.queued.length := by
  obtain ⟨added, hops, hmarks, -⟩ := h.ops
  rw [← Ring.length_toList, hops, ← hmarks]
  simp

/-- `timeline_timestamp` only reads the clock. -/
theorem timelineTimestamp_snd (host_ms : Int64) (s : Shared) :
    (timelineTimestamp cfg host_ms s).2 = { s with clock_reads := s.clock_reads + 1 } := by
  unfold timelineTimestamp machAbsoluteTime
  dsimp only
  split <;> rfl

/-- `queue_op` queues an operation while there are free slots, and says whether it did. -/
theorem queueOp_tracks (h : Tracks r s₀ e s) {kind : OpKind} {x y : ℚ} {down edge : Bool}
    {usage : UInt32} {m : Option Mark}
    (hm : ∀ ts, Op.mark ⟨r.epoch, r.seq, kind, x, y, down, edge, usage, ts, r.c⟩ = m) :
    Tracks r s₀ (e.put s₀.free m) (queued (queueOp cfg r kind x y down edge usage s)).2 ∧
      (queued (queueOp cfg r kind x y down edge usage s)).1 = (e.put s₀.free m).code := by
  have hlen := h.len
  unfold queueOp Effect.put
  simp only [timelineTimestamp_snd]
  generalize ho : Op.mk r.epoch r.seq kind x y down edge usage _ r.c = o
  cases hpush : s.ops.push o with
  | none =>
    have hfull := Ring.push_eq_none.1 hpush
    rw [if_neg (by unfold Shared.free; omega)]
    exact ⟨⟨h.state, h.need_recovery, h.recoveries, h.held, h.ops⟩, rfl⟩
  | some ops =>
    have hfree : e.queued.length < s₀.free := by
      have hlen' := Ring.len_push hpush
      have hle := ops.len_le
      unfold Shared.free
      omega
    rw [if_pos hfree]
    refine ⟨⟨h.state, h.need_recovery, h.recoveries, h.held, ?_⟩, rfl⟩
    obtain ⟨added, hops, hmarks, hident⟩ := h.ops
    refine ⟨added ++ [o], ?_, ?_, ?_⟩
    · show ops.toList = _
      rw [Ring.toList_push hpush, hops, List.append_assoc]
    · rw [List.map_append, hmarks, List.map_cons, ← ho, hm]
      rfl
    · intro o' ho'
      rcases List.mem_append.1 ho' with ho' | ho'
      · exact hident o' ho'
      · rw [List.mem_singleton.1 ho', ← ho]
        rfl

/-- A change of the data that the effect does not speak of. -/
theorem Tracks.congr (h : Tracks r s₀ e s) {s' : Shared} {e' : Effect} (hstate : s'.state = s.state)
    (hneed : s'.need_recovery = s.need_recovery) (hrec : s'.recoveries = s.recoveries)
    (hops : s'.ops = s.ops) (hheld : s'.held = e'.held) (hqueued : e'.queued = e.queued) :
    Tracks r s₀ e' s' := by
  obtain ⟨added, h1, h2, h3⟩ := h.ops
  exact ⟨hstate.trans h.state, hneed.trans h.need_recovery, hrec.trans h.recoveries, hheld,
    added, hops ▸ h1, hqueued ▸ h2, h3⟩

/-- `release_contact` queues an up edge if a contact is held. -/
theorem releaseContact_tracks (h : Tracks r s₀ e s) :
    Tracks r s₀ (e.release s₀.free) (queued (releaseContact cfg r s)).2 ∧
      (queued (releaseContact cfg r s)).1 = (e.release s₀.free).code := by
  unfold releaseContact Effect.release
  rw [h.held]
  cases hheld : e.held with
  | false =>
    refine ⟨h.congr rfl rfl rfl rfl ?_ rfl, rfl⟩
    simp [h.held, hheld]
  | true =>
    have h' : Tracks r s₀ { e with held := false } { s with held := false } :=
      h.congr rfl rfl rfl rfl rfl rfl
    simpa using queueOp_tracks h' (fun _ => rfl)

/-- The start of `handle` releases the contact of an older epoch. -/
theorem openEpoch_tracks (cfg : Config) (r : Record) (s : Shared) :
    let e : Effect := ⟨s.held, [], .Q⟩
    Tracks r s
      (if r.epoch ≠ s.epoch then
        { if s.state = .R then e.release s.free else e with held := false } else e)
      (openEpoch cfg r s) ∧ (openEpoch cfg r s).epoch = r.epoch := by
  intro e
  have h : Tracks r s e s := Tracks.refl r s .Q
  unfold openEpoch
  by_cases hepoch : r.epoch = s.epoch
  · simpa [hepoch] using h
  · by_cases hstate : s.state = .R
    · simp only [ne_eq, hepoch, not_false_eq_true, if_true, hstate, and_true]
      exact (releaseContact_tracks h).1.congr rfl rfl rfl rfl rfl rfl
    · simp only [ne_eq, hepoch, not_false_eq_true, if_true, hstate, if_false, and_true]
      exact h.congr rfl rfl rfl rfl rfl rfl

/-- `handle` does what `effect` says, and acknowledges the record with its code. -/
theorem handle_effect (cfg : Config) (r : Record) (s : Shared) :
    let e := effect (s.state = .R) (r.epoch ≠ s.epoch) s.held s.free r.kind
    Tracks r s e (handle cfg false r s).2 ∧ (handle cfg false r s).1 = e.code := by
  obtain ⟨h, -⟩ := openEpoch_tracks cfg r s
  unfold handle effect
  simp only [Bool.false_eq_true, if_false, decide_eq_true_eq] at h ⊢
  generalize openEpoch cfg r s = s₁ at h ⊢
  generalize (if r.epoch ≠ s.epoch then _ else _ : Effect) = e at h ⊢
  obtain ⟨held, ms, code⟩ := e
  obtain rfl : s₁.held = held := h.held
  by_cases hR : s.state = .R
  · have hready := eq_true (h.state.trans hR)
    simp only [hready, hR, ne_eq, not_true_eq_false, if_false, if_true]
    cases r.kind with
    | P => exact ⟨h.congr rfl rfl rfl rfl rfl rfl, rfl⟩
    | C => exact releaseContact_tracks h
    | B =>
      have h₁ : Tracks r s ⟨s₁.held, ms, code⟩ (rebase cfg r s₁) :=
        h.congr rfl rfl rfl rfl rfl rfl
      exact queueOp_tracks h₁ fun _ => by simp [Op.mark]
    | W =>
      dsimp only
      split
      · exact ⟨h.congr rfl rfl rfl rfl rfl rfl, rfl⟩
      · exact queueOp_tracks h fun _ => rfl
    | D =>
      -- The contact that is held, if any, is released first.
      have h₁ : Tracks r s
          (if s₁.held then Effect.release s.free ⟨s₁.held, ms, code⟩ else ⟨s₁.held, ms, code⟩)
          (if s₁.held then (releaseContact cfg r s₁).2 else s₁) := by
        split
        · exact (releaseContact_tracks h).1
        · exact h
      dsimp only
      generalize (if s₁.held then Effect.release s.free _ else _ : Effect) = e₁ at h₁ ⊢
      generalize (if s₁.held then (releaseContact cfg r s₁).2 else s₁ : Shared) = s₂ at h₁ ⊢
      have h₂ : Tracks r s { e₁ with held := true }
          { rebase cfg r s₂ with
            held := true, held_x := coordinate r.a, held_y := coordinate r.b } :=
        h₁.congr rfl rfl rfl rfl rfl rfl
      exact queueOp_tracks h₂ fun _ => rfl
    | M =>
      have h₁ : Tracks r s ⟨s₁.held, ms, code⟩
          { s₁ with held_x := coordinate r.a, held_y := coordinate r.b } :=
        h.congr rfl rfl rfl rfl rfl rfl
      by_cases hheld : s₁.held = true
      · simp only [eq_true hheld, not_true_eq_false, if_true, if_false]
        exact queueOp_tracks h₁ fun _ => rfl
      · simp only [eq_false hheld, not_false_eq_true, if_true, if_false]
        exact ⟨h.congr rfl rfl rfl rfl rfl rfl, trivial⟩
    | U =>
      have h₁ : Tracks r s ⟨false, ms, code⟩
          { s₁ with held_x := coordinate r.a, held_y := coordinate r.b, held := false } :=
        h.congr rfl rfl rfl rfl rfl rfl
      by_cases hheld : s₁.held = true
      · simp only [eq_true hheld, not_true_eq_false, if_true, if_false]
        exact queueOp_tracks h₁ fun _ => rfl
      · simp only [eq_false hheld, not_false_eq_true, if_true, if_false]
        exact ⟨h.congr rfl rfl rfl rfl rfl rfl, trivial⟩
  · -- Not ready: nothing is queued, and every touch record and a cancel drop the contact.
    have hready : (s₁.state = .R) = False := by simp [h.state, hR]
    have hdrop : Tracks r s ⟨false, ms, code⟩ { s₁ with held := false } :=
      h.congr rfl rfl rfl rfl rfl rfl
    simp only [hready, hR, ne_eq, not_false_eq_true, if_true, if_false]
    cases r.kind with
    | P | B | W => exact ⟨h.congr rfl rfl rfl rfl rfl rfl, rfl⟩
    | C | D | M | U => exact ⟨hdrop.congr rfl rfl rfl rfl rfl rfl, rfl⟩

/-- The release at the end of the input, under the identity that it is queued with. -/
theorem eof_effect (cfg : Config) (s : Shared) :
    let e : Effect := ⟨s.held, [], .Q⟩
    Tracks ⟨s.epoch, 0, 0, 0, 0, .P, 0⟩ s (if s.state = .R then e.release s.free else e)
      (eof cfg s) := by
  intro e
  have h : Tracks ⟨s.epoch, 0, 0, 0, 0, .P, 0⟩ s e s := Tracks.refl _ s .Q
  unfold eof
  split
  · exact (releaseContact_tracks h).1
  · exact h

end DarwinVm.Hid
