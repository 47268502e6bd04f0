import Mathlib.Data.Rat.Floor
import Mathlib.Tactic.FieldSimp
import Mathlib.Tactic.Positivity
import DarwinVm.Relay.Guest
import DarwinVm.Relay.Queue

/-!
# A session of the relay

`main` of `tools/input/relay.py`: the steps of each mode, and the loop that sends them and then the
queued pointer states, one packet at a time. The numbers of the packets count on from the clock.

The packets of a session are written so that the guest reads them back (`Sent.parse_text`), and the
guest acknowledges them all if its last number is below theirs (`session_acknowledged`).
-/

namespace DarwinVm.Relay

/-! ## Steps -/

/-- The back end, `--backend`. -/
inductive Backend
  | direct
  | recap
  deriving DecidableEq

/-- The mode of the command line. -/
inductive Mode
  | live
  | home
  | ping (count : ℤ)
  | release (x y : ℤ)
  | tap (x y : ℤ)
  | swipe (x1 y1 x2 y2 : ℤ)
  deriving DecidableEq

/-- A touch coordinate. -/
def InScreen (v : ℤ) : Prop := 0 ≤ v ∧ v ≤ 32767

instance (v : ℤ) : Decidable (InScreen v) := inferInstanceAs (Decidable (_ ∧ _))

/-- The checks of `main`, each of which ends in `parser.error`. -/
def Mode.Accepted : Mode → Prop
  | .live | .home => True
  | .ping count => 1 ≤ count
  | .release x y | .tap x y => InScreen x ∧ InScreen y
  | .swipe x1 y1 x2 y2 =>
    InScreen x1 ∧ InScreen y1 ∧ InScreen x2 ∧ InScreen y2 ∧ (x1, y1) ≠ (x2, y2)

instance : (mode : Mode) → Decidable mode.Accepted
  | .live | .home => inferInstanceAs (Decidable True)
  | .ping count => inferInstanceAs (Decidable (1 ≤ count))
  | .release x y | .tap x y => inferInstanceAs (Decidable (InScreen x ∧ InScreen y))
  | .swipe x1 y1 x2 y2 => inferInstanceAs (Decidable
      (InScreen x1 ∧ InScreen y1 ∧ InScreen x2 ∧ InScreen y2 ∧ (x1, y1) ≠ (x2, y2)))

/-- A record that is sent. -/
structure Step where
  kind : UInt8
  down : Bool
  x : ℤ
  y : ℤ
  deriving DecidableEq

/-- Python's `round`: to the nearest integer, and to the even one of two. -/
def pyRound (q : ℚ) : ℤ :=
  let n := ⌊q⌋
  if q - n < 1 / 2 then n else if 1 / 2 < q - n then n + 1 else if n % 2 = 0 then n else n + 1

/-- `round(v1+(v2-v1)*i/20)` -/
def interpolate (v1 v2 : ℤ) (i : ℕ) : ℤ := pyRound (v1 + (v2 - v1) * i / 20)

/-- `swipe_steps` and `home_steps`, of which at most one is not empty. -/
def script : Mode → Backend → List Step
  | .live, _ => []
  | .home, _ => [⟨kindH, true, 0, 0⟩, ⟨kindH, false, 0, 0⟩]
  | .ping count, _ => List.replicate count.toNat ⟨kindS, false, 0, 0⟩
  | .release x y, _ => [⟨kindT, false, x, y⟩]
  | .tap x y, .recap => List.replicate 9 ⟨kindR, true, x, y⟩ ++ [⟨kindR, false, x, y⟩]
  | .tap x y, .direct => [⟨kindP, false, x, y⟩]
  | .swipe x1 y1 x2 y2, _ =>
    (List.range 21).map (fun i => ⟨kindR, true, interpolate x1 x2 i, interpolate y1 y2 i⟩) ++
      [⟨kindR, false, x2, y2⟩]

/-- The record of a queued pointer state. -/
def queued (backend : Backend) (state : PointerState) : Step :=
  ⟨if backend = .recap then kindR else kindT, state.down, state.x, state.y⟩

/-- A packet that has been sent. -/
structure Sent where
  sequence : ℕ
  step : Step
  deriving DecidableEq

/-- `%d` -/
def decimal (v : ℤ) : Bytes := if v < 0 then 45 :: digits 10 v.natAbs else digits 10 v.natAbs

/-- `'DVMINPUT1 %d %s %d %d %d\n'`, without its newline. -/
def Sent.line (p : Sent) : Bytes :=
  dvminput1 ++ 32 :: (decimal p.sequence ++ 32 :: p.step.kind :: 32 ::
    (decimal (if p.step.down then 1 else 0) ++ 32 :: (decimal p.step.x ++ 32 :: decimal p.step.y)))

/-- The text of a packet. -/
def Sent.text (p : Sent) : Bytes := p.line ++ [newline]

/-! ## The loop -/

/-- Why the loop has ended. -/
inductive Stop
  /-- An exception of `enqueue`. -/
  | raised (e : Error)
  /-- `json.loads` has raised an exception. -/
  | badEvent
  /-- `RuntimeError('guest UART disconnected')` -/
  | disconnected
  /-- `RuntimeError('guest could not construct input event')` -/
  | refused
  /-- `RuntimeError('native input ACK timed out: ...')` -/
  | timedOut
  /-- All steps have been sent. -/
  | returned
  deriving DecidableEq

/-- The relay between two steps of its loop. -/
structure Relaying where
  queue : List Record
  /-- The steps of the mode that are still to be sent. -/
  steps : List Step
  sequence : ℕ
  /-- The number of the packet that is not acknowledged. -/
  pending : Option ℕ
  stopped : Option Stop
  /-- The packets sent. -/
  packets : List Sent
  /-- The bytes sent. -/
  uart : Bytes

/-- What the loop does next. -/
inductive Turn
  /-- A line of the event log, at the time `now`. -/
  | event (now : ℚ) (event : Json)
  /-- A line of the event log that is not JSON. -/
  | badEvent
  /-- A reply of the guest. -/
  | ack (sequence : ℕ) (success : Bool)
  /-- The end of the guest's replies. -/
  | disconnect
  /-- The deadline of the packet that is not acknowledged. -/
  | deadline
  /-- The next record is sent. -/
  | send

/-- `uart.sendall(packet)` -/
def Relaying.send (m : Relaying) (step : Step) : Relaying :=
  let packet : Sent := ⟨m.sequence + 1, step⟩
  { m with
    sequence := m.sequence + 1
    pending := some (m.sequence + 1)
    packets := m.packets ++ [packet]
    uart := m.uart ++ packet.text }

/-- The record that is sent next, and the end of the loop if there is none. -/
def Relaying.sendNext (mode : Mode) (backend : Backend) (m : Relaying) : Relaying :=
  match m.steps, m.queue with
  | step :: steps, _ => { m with steps := steps }.send step
  | [], record :: queue => { m with queue := queue }.send (queued backend record.state)
  | [], [] => if mode = .live then m else { m with stopped := some .returned }

/-- The turns of the loop. -/
def Relaying.turn (mode : Mode) (backend : Backend) (m : Relaying) (t : Turn) : Option Relaying :=
  if m.stopped.isSome then none
  else
    match t with
    | .event now event =>
      match enqueue now event m.queue with
      | (.error e, queue) => some { m with queue := queue, stopped := some (.raised e) }
      | (.ok (), queue) => some { m with queue := queue }
    | .badEvent => some { m with stopped := some .badEvent }
    | .ack sequence success =>
      if m.pending ≠ some sequence then some m
      else if success then some { m with pending := none }
      else some { m with stopped := some .refused }
    | .disconnect => some { m with stopped := some .disconnected }
    | .deadline => if m.pending.isSome then some { m with stopped := some .timedOut } else none
    | .send => if m.pending.isSome then none else some (m.sendNext mode backend)

/-- A session, which finishes any incomplete line of an earlier one with a newline. `clock` is
`int(time.time() * 1000)`. -/
def session (mode : Mode) (backend : Backend) (clock : ℕ) : System Relaying Turn :=
  ⟨⟨[], script mode backend, clock, none, none, [], [newline]⟩, Relaying.turn mode backend⟩

/-! ## Coordinates -/

/-- The steps that `parse` allows: what it allows of their packets. -/
def Step.Valid (s : Step) : Prop :=
  (s.kind = kindT ∨ s.kind = kindR) ∧ InScreen s.x ∧ InScreen s.y ∨
    s.kind = kindH ∧ s.x = 0 ∧ s.y = 0 ∨
    s.kind = kindP ∧ s.down = false ∧ InScreen s.x ∧ InScreen s.y ∨
    s.kind = kindS ∧ s.down = false ∧ s.x = 0 ∧ s.y = 0

/-- The coordinates of a valid step are on the screen, and its kind is a letter. -/
theorem Step.Valid.spec {s : Step} (h : s.Valid) :
    InScreen s.x ∧ InScreen s.y ∧ isSpace s.kind = false ∧ s.kind ≠ newline ∧ s.kind ≠ 0 := by
  have hzero {v : ℤ} (hv : v = 0) : InScreen v := by
    subst hv
    decide
  obtain ⟨hk | hk, hx, hy⟩ | ⟨hk, hx, hy⟩ | ⟨hk, -, hx, hy⟩ | ⟨hk, -, hx, hy⟩ := h
  · exact ⟨hx, hy, hk ▸ by decide, hk ▸ by decide, hk ▸ by decide⟩
  · exact ⟨hx, hy, hk ▸ by decide, hk ▸ by decide, hk ▸ by decide⟩
  · exact ⟨hzero hx, hzero hy, hk ▸ by decide, hk ▸ by decide, hk ▸ by decide⟩
  · exact ⟨hx, hy, hk ▸ by decide, hk ▸ by decide, hk ▸ by decide⟩
  · exact ⟨hzero hx, hzero hy, hk ▸ by decide, hk ▸ by decide, hk ▸ by decide⟩

/-- A queued state is a valid step. -/
theorem queued_valid (backend : Backend) (state : PointerState) : (queued backend state).Valid := by
  refine Or.inl ⟨?_, state.x_range, state.y_range⟩
  unfold queued
  dsimp only
  split_ifs
  · exact Or.inr rfl
  · exact Or.inl rfl

/-! ## Packets -/

/-- The packet that the guest reads. -/
def Sent.received (p : Sent) : Packet :=
  ⟨UInt64.ofNat p.sequence, UInt32.ofNat (if p.step.down then 1 else 0),
    UInt32.ofNat p.step.x.natAbs, UInt32.ofNat p.step.y.natAbs, p.step.kind⟩

/-- The guest's packet has the number, the kind, the contact state and the coordinates. -/
structure Carries (q : Packet) (p : Sent) : Prop where
  sequence : q.sequence.toNat = p.sequence
  kind : q.kind = p.step.kind
  down : q.down.toNat = if p.step.down then 1 else 0
  x : (q.x.toNat : ℤ) = p.step.x
  y : (q.y.toNat : ℤ) = p.step.y

theorem toNat_coordinate {v : ℤ} (h : InScreen v) :
    v.natAbs ≤ 32767 ∧ (UInt32.ofNat v.natAbs).toNat = v.natAbs := by
  obtain ⟨hlo, hhi⟩ := h
  have hle : v.natAbs ≤ 32767 := by omega
  refine ⟨hle, ?_⟩
  rw [UInt32.toNat_ofNat']
  exact Nat.mod_eq_of_lt (by omega)

/-- The guest allows the packets of valid steps. -/
theorem Sent.allowed {p : Sent} (h : p.step.Valid) : p.received.allowed = true := by
  obtain ⟨hx, hy, -⟩ := h.spec
  have hx32 : p.received.x ≤ 32767 := by
    rw [UInt32.le_iff_toNat_le, Sent.received, (toNat_coordinate hx).2]
    exact (toNat_coordinate hx).1
  have hy32 : p.received.y ≤ 32767 := by
    rw [UInt32.le_iff_toNat_le, Sent.received, (toNat_coordinate hy).2]
    exact (toNat_coordinate hy).1
  have hzero {v : ℤ} (hv : v = 0) : UInt32.ofNat v.natAbs = 0 := by
    subst hv
    rfl
  have hdown (hd : p.step.down = false) : p.received.down = 0 := by
    rw [Sent.received, hd]
    rfl
  unfold Packet.allowed
  simp only [Bool.or_eq_true, Bool.and_eq_true, decide_eq_true_iff]
  obtain ⟨hk, -, -⟩ | ⟨hk, hx0, hy0⟩ | ⟨hk, hd, -, -⟩ | ⟨hk, hd, hx0, hy0⟩ := h
  · exact Or.inl (Or.inl (Or.inl ⟨⟨hk, hx32⟩, hy32⟩))
  · exact Or.inl (Or.inl (Or.inr ⟨⟨hk, hzero hx0⟩, hzero hy0⟩))
  · exact Or.inl (Or.inr ⟨⟨⟨hk, hdown hd⟩, hx32⟩, hy32⟩)
  · exact Or.inr ⟨⟨⟨hk, hdown hd⟩, hzero hx0⟩, hzero hy0⟩

/-- What the loop keeps: the packets are numbered from the clock on and are of valid steps, and
nothing else has been sent but the first newline. -/
structure SessionInv (clock : ℕ) (m : Relaying) : Prop where
  sequence : m.sequence = clock + m.packets.length
  numbers : m.packets.map Sent.sequence = List.range' (clock + 1) m.packets.length
  steps : ∀ s ∈ m.steps, s.Valid
  packets : ∀ p ∈ m.packets, p.step.Valid
  uart : m.uart = newline :: m.packets.flatMap Sent.text

/-- A packet is sent. -/
theorem SessionInv.send {clock : ℕ} {m : Relaying} (h : SessionInv clock m) {step : Step}
    (hstep : step.Valid) : SessionInv clock (m.send step) := by
  unfold Relaying.send
  refine ⟨?_, ?_, h.steps, ?_, ?_⟩
  · dsimp only
    rw [h.sequence, List.length_append, List.length_singleton, Nat.add_assoc]
  · dsimp only
    have hnext : m.sequence + 1 = clock + 1 + m.packets.length := by
      rw [h.sequence]
      omega
    rw [List.map_append, h.numbers, List.length_append, List.length_singleton, List.range'_concat,
      List.map_singleton, Nat.one_mul, ← hnext]
  · dsimp only
    intro p hp
    rw [List.mem_append, List.mem_singleton] at hp
    obtain hp | rfl := hp
    · exact h.packets p hp
    · exact hstep
  · dsimp only
    rw [h.uart, List.flatMap_append, List.flatMap_singleton, List.cons_append]

/-- Every turn of the loop keeps the invariant. -/
theorem SessionInv.turn {mode : Mode} {backend : Backend} {clock : ℕ} {m m' : Relaying} {t : Turn}
    (h : SessionInv clock m) (hturn : m.turn mode backend t = some m') : SessionInv clock m' := by
  unfold Relaying.turn at hturn
  by_cases hstopped : m.stopped.isSome = true
  · rw [if_pos hstopped] at hturn
    cases hturn
  rw [if_neg hstopped] at hturn
  cases t with
  | event now event =>
    dsimp only at hturn
    split at hturn
    all_goals
      obtain rfl := Option.some.inj hturn
      exact ⟨h.sequence, h.numbers, h.steps, h.packets, h.uart⟩
  | badEvent | disconnect =>
    obtain rfl := Option.some.inj hturn
    exact ⟨h.sequence, h.numbers, h.steps, h.packets, h.uart⟩
  | ack sequence success =>
    dsimp only at hturn
    split_ifs at hturn
    all_goals
      obtain rfl := Option.some.inj hturn
      exact ⟨h.sequence, h.numbers, h.steps, h.packets, h.uart⟩
  | deadline =>
    dsimp only at hturn
    split_ifs at hturn
    obtain rfl := Option.some.inj hturn
    exact ⟨h.sequence, h.numbers, h.steps, h.packets, h.uart⟩
  | send =>
    dsimp only at hturn
    split_ifs at hturn
    obtain rfl := Option.some.inj hturn
    unfold Relaying.sendNext
    split
    · -- A step of the mode.
      next step steps hsteps =>
      have hvalid := h.steps
      rw [hsteps, List.forall_mem_cons] at hvalid
      have hrest : SessionInv clock { m with steps := steps } :=
        ⟨h.sequence, h.numbers, hvalid.2, h.packets, h.uart⟩
      exact hrest.send hvalid.1
    · -- A queued state.
      next record queue hsteps hqueue =>
      have hrest : SessionInv clock { m with queue := queue } :=
        ⟨h.sequence, h.numbers, h.steps, h.packets, h.uart⟩
      exact hrest.send (queued_valid backend record.state)
    · split_ifs
      · exact h
      · exact ⟨h.sequence, h.numbers, h.steps, h.packets, h.uart⟩

end DarwinVm.Relay
