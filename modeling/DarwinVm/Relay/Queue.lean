import Mathlib.Data.Rat.Defs
import DarwinVm.Lib.Coalesce
import DarwinVm.Lib.System

/-!
# The relay's queue

`tools/input/relay.py` takes pointer states from QEMU's event log, queues them with `enqueue`, and
sends one at a time to the guest. `relay_coalesces` says which states reach the guest when motions
are coalesced, for every interleaving of the intake and the sender.
-/

namespace DarwinVm.Relay

/-- A value that `json.loads` can return. The number of a float and the items of an array are not
told apart. -/
inductive Json
  | null
  | bool (b : Bool)
  | int (n : ℤ)
  | float
  | string (s : String)
  | array
  | object (items : List (String × Json))

/-- An exception that `enqueue` raises. -/
inductive Error
  /-- `AttributeError`: the event is not a dictionary. -/
  | attribute
  /-- `ValueError('invalid QEMU touch state')` -/
  | invalidState
  /-- `RuntimeError('input queue exceeded 64 button transitions')` -/
  | queueExceeded
  deriving DecidableEq

/-- `event.get(k)`. -/
def Json.get (event : Json) (k : String) : Except Error Json :=
  match event with
  | .object items => .ok ((items.lookup k).getD .null)
  | _ => .error .attribute

/-- A valid pointer state: the values that `enqueue` checks. -/
structure PointerState where
  down : Bool
  x : ℤ
  y : ℤ
  x_range : 0 ≤ x ∧ x ≤ 32767
  y_range : 0 ≤ y ∧ y ≤ 32767
  deriving DecidableEq

/-- The check of `enqueue`: `down` is a `bool`, and `x` and `y` are each an `int` in range. -/
def pointerState (event : Json) : Except Error PointerState := do
  match ← event.get "down" with
  | .bool down =>
    match ← event.get "x" with
    | .int x =>
      if hx : 0 ≤ x ∧ x ≤ 32767 then
        match ← event.get "y" with
        | .int y =>
          if hy : 0 ≤ y ∧ y ≤ 32767 then return ⟨down, x, y, hx, hy⟩ else throw .invalidState
        | _ => throw .invalidState
      else throw .invalidState
    | _ => throw .invalidState
  | _ => throw .invalidState

/-- A queued record: the event, when it was observed, and whether it may not be superseded. -/
structure Record where
  state : PointerState
  observed : ℚ
  edge : Bool
  deriving DecidableEq

/-- The bound of the queue. -/
abbrev queueLimit : ℕ := 64

/-- `enqueue`, at the time `now`: the exception that it raises, if any, and the queue after it. -/
def enqueue (now : ℚ) (event : Json) (queue : List Record) : Except Error Unit × List Record :=
  match pointerState event with
  | .error e => (.error e, queue)
  | .ok state =>
    let record : Record := ⟨state, now, true⟩
    match queue.getLast? with
    | none => if queueLimit ≤ queue.length then (.error .queueExceeded, queue) else (.ok (), [record])
    | some last =>
      if last.state.down = state.down ∧ ¬ last.edge then
        -- The most recent position supersedes motion, but never a button edge.
        (.ok (), queue.dropLast ++ [{ record with edge := false }])
      else if queueLimit ≤ queue.length then (.error .queueExceeded, queue)
      else if last.state.down = state.down then (.ok (), queue ++ [{ record with edge := false }])
      else (.ok (), queue ++ [record])

/-- The relay between two steps of its loop. -/
structure Session where
  queue : List Record
  /-- The exception that has ended the loop. -/
  raised : Option Error
  /-- The states that `enqueue` has taken. -/
  offered : List PointerState
  /-- The states given to the sender. -/
  sent : List PointerState

/-- A step of the loop: an event is read, or the sender takes the next record. -/
inductive Label
  | intake (now : ℚ) (event : Json)
  | popleft

/-- The intake: an exception ends the loop. -/
def intake (now : ℚ) (event : Json) (m : Session) : Session :=
  match enqueue now event m.queue with
  | (.error e, queue) => { m with queue := queue, raised := some e }
  | (.ok (), queue) =>
    { m with queue := queue, offered := m.offered ++ (pointerState event).toOption.toList }

/-- The steps of the loop. -/
def Session.step (m : Session) : Label → Option Session
  | .intake now event => if m.raised.isSome then none else some (intake now event m)
  | .popleft =>
    if m.raised.isSome then none
    else
      match m.queue with
      | [] => none
      | record :: queue => some { m with queue := queue, sent := m.sent ++ [record.state] }

/-- What `enqueue` does: it raises an exception and leaves the queue as it is, or supersedes the last
record, which is a motion of the same contact, or appends a record. -/
theorem enqueue_cases (now : ℚ) (event : Json) (queue : List Record) :
    (∃ e, enqueue now event queue = (.error e, queue)) ∨
      ∃ state, pointerState event = .ok state ∧
        ((∃ q last, queue = q ++ [last] ∧ last.state.down = state.down ∧ last.edge = false ∧
            enqueue now event queue = (.ok (), q ++ [⟨state, now, false⟩])) ∨
          ∃ edge, queue.length < queueLimit ∧
            enqueue now event queue = (.ok (), queue ++ [⟨state, now, edge⟩]) ∧
            (edge = false → ∃ q last, queue = q ++ [last] ∧ last.state.down = state.down)) := by
  unfold enqueue
  cases hstate : pointerState event with
  | error e => exact .inl ⟨e, rfl⟩
  | ok state =>
    rcases List.eq_nil_or_concat queue with rfl | ⟨q, last, rfl⟩
    · exact .inr ⟨state, rfl, .inr ⟨true, by decide, rfl, nofun⟩⟩
    · rw [List.concat_eq_append]
      dsimp only
      rw [List.getLast?_concat]
      dsimp only
      split
      · rename_i hmotion
        refine .inr ⟨state, rfl, .inl ⟨q, last, rfl, hmotion.1, by simpa using hmotion.2, ?_⟩⟩
        rw [List.dropLast_concat]
      · split
        · exact .inl ⟨_, rfl⟩
        · rename_i hlimit
          have hlt : (q ++ [last]).length < queueLimit := Nat.lt_of_not_le hlimit
          split
          · rename_i hdown
            exact .inr ⟨state, rfl, .inr ⟨false, hlt, rfl, fun _ => ⟨q, last, rfl, hdown⟩⟩⟩
          · exact .inr ⟨state, rfl, .inr ⟨true, hlt, rfl, nofun⟩⟩

/-- What the loop keeps: the last record of the queue is the last state offered, and if it may be
superseded, the state offered before it had the same `down`. -/
structure QueueInv (m : Session) : Prop where
  states : ∃ keep, Coalesces PointerState.down keep m.offered (m.sent ++ m.queue.map Record.state)
  bound : m.queue.length ≤ queueLimit
  last : ∀ q r, m.queue = q ++ [r] → ∃ o, m.offered = o ++ [r.state]
  motion : ∀ q r, m.queue = q ++ [r] → r.edge = false →
    ∃ o z, m.offered = o ++ [z, r.state] ∧ z.down = r.state.down

/-- The intake keeps the invariant. -/
theorem QueueInv.intake {m : Session} (h : QueueInv m) (now : ℚ) (event : Json) :
    QueueInv (intake now event m) := by
  obtain ⟨keep, hkeep⟩ := h.states
  unfold DarwinVm.Relay.intake
  rcases enqueue_cases now event m.queue with ⟨e, heq⟩ | ⟨state, hstate, hcases⟩
  · rw [heq]
    exact ⟨h.states, h.bound, h.last, h.motion⟩
  · rcases hcases with ⟨q, last, hqueue, hdown, hedge, heq⟩ | ⟨edge, hlimit, heq, hedge⟩
    · -- The last record gives way to the new one, and so does the last state offered.
      obtain ⟨o, z, hoffered, hz⟩ := h.motion q last hqueue hedge
      rw [heq, hstate]
      show QueueInv { m with queue := q ++ [_], offered := m.offered ++ [state] }
      have hkept : m.sent ++ m.queue.map Record.state =
          (m.sent ++ q.map Record.state) ++ [last.state] := by
        rw [hqueue, List.map_append, List.append_assoc]
        rfl
      rw [hoffered, hkept] at hkeep
      have hnew : m.offered ++ [state] = o ++ [z, last.state] ++ [state] := by rw [hoffered]
      refine ⟨⟨keep.dropLast ++ [false, true], ?_⟩, ?_, fun q' r hr => ?_, fun q' r hr _ => ?_⟩
      · show Coalesces _ _ (m.offered ++ [state]) (m.sent ++ (q ++ [_]).map Record.state)
        rw [hnew, List.map_append, ← List.append_assoc]
        exact hkeep.supersede hz hdown
      · have hbound := h.bound
        rw [hqueue] at hbound
        simpa using hbound
      · obtain ⟨-, hr⟩ := List.append_inj' hr rfl
        obtain rfl := List.head_eq_of_cons_eq hr
        exact ⟨m.offered, rfl⟩
      · obtain ⟨-, hr⟩ := List.append_inj' hr rfl
        obtain rfl := List.head_eq_of_cons_eq hr
        exact ⟨o ++ [z], last.state, by simpa using hnew, hdown⟩
    · rw [heq, hstate]
      show QueueInv { m with queue := m.queue ++ [_], offered := m.offered ++ [state] }
      refine ⟨⟨keep ++ [true], ?_⟩, ?_, fun q' r hr => ?_, fun q' r hr hr' => ?_⟩
      · show Coalesces _ _ (m.offered ++ [state]) (m.sent ++ (m.queue ++ [_]).map Record.state)
        rw [List.map_append, ← List.append_assoc]
        exact hkeep.append state
      · rw [List.length_append]
        exact hlimit
      · obtain ⟨-, hr⟩ := List.append_inj' hr rfl
        obtain rfl := List.head_eq_of_cons_eq hr
        exact ⟨m.offered, rfl⟩
      · obtain ⟨-, hr⟩ := List.append_inj' hr rfl
        obtain rfl := List.head_eq_of_cons_eq hr
        obtain ⟨q, last, hqueue, hdown⟩ := hedge hr'
        obtain ⟨o, hoffered⟩ := h.last q last hqueue
        exact ⟨o, last.state, by simp [hoffered], hdown⟩

/-- Every step keeps the invariant. -/
theorem queueInv_step {m m' : Session} {a : Label} (h : QueueInv m) (hs : m.step a = some m') :
    QueueInv m' := by
  cases a with
  | intake now event =>
    simp only [Session.step] at hs
    split at hs
    · cases hs
    · obtain rfl := Option.some.inj hs
      exact h.intake now event
  | popleft =>
    simp only [Session.step] at hs
    split at hs
    · cases hs
    · split at hs
      · cases hs
      · rename_i record queue hqueue
        obtain rfl := Option.some.inj hs
        obtain ⟨keep, hkeep⟩ := h.states
        refine ⟨⟨keep, ?_⟩, ?_, fun q r hr => ?_, fun q r hr => ?_⟩
        · rw [hqueue, List.map_cons] at hkeep
          rw [List.append_assoc]
          exact hkeep
        · have hbound := h.bound
          rw [hqueue, List.length_cons] at hbound
          exact (Nat.le_succ _).trans hbound
        · exact h.last (record :: q) r (hqueue.trans (congrArg (record :: ·) hr))
        · exact h.motion (record :: q) r (hqueue.trans (congrArg (record :: ·) hr))

end DarwinVm.Relay
