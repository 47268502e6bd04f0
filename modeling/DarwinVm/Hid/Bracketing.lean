import DarwinVm.Hid.Injector

/-!
# Contacts are bracketed

While the services stay ready, the touch operations that the reader queues should form whole
contacts, and `held` should tell whether the last one is still down. The reader sets `held` before it
knows whether the queue takes the operation, so this fails when a full queue refuses an edge.
`contact_bracketing` says exactly when: the runs that keep the contacts bracketed are those in which
every record that needs room for an edge finds it (`Room`).
-/

namespace DarwinVm.Hid

open Injector (Step History.queue)

/-- The services are ready, or being created for the first time, and nothing has asked for their
recovery. -/
def Ready (m : Injector) : Prop := m.shared.state ≠ .L ∧ m.shared.need_recovery = false

instance : DecidablePred Ready := fun _ => inferInstanceAs (Decidable (_ ∧ _))

/-- The touch operations queued form whole contacts and wheel gestures, and then perhaps a contact
that is still down; `held` tells whether there is one. -/
structure WellBracketed (m : Injector) : Prop where
  contacts : ∃ (bs : List (List Mark)) (tail : List Mark), (∀ l ∈ bs, IsBlock l) ∧
    marks m.history.appended = bs.flatten ++ tail ∧
    (tail = [] ∨ ∃ n, tail = .opening :: List.replicate n .inner)
  held : m.shared.held = endsOpen (marks m.history.appended)

/-- The bracketing of the contacts, mark by mark. -/
theorem wellBracketed_iff (m : Injector) :
    WellBracketed m ↔ bracketRun false (marks m.history.appended) = some m.shared.held := by
  constructor
  · rintro ⟨⟨bs, tail, hbs, hmarks, htail⟩, hheld⟩
    have hrun : ∃ b, bracketRun false (marks m.history.appended) = some b := by
      rcases htail with htail | htail
      · exact ⟨false, bracketRun_eq_some_iff.2 ⟨bs, tail, hbs, hmarks, .inl ⟨rfl, htail⟩⟩⟩
      · exact ⟨true, bracketRun_eq_some_iff.2 ⟨bs, tail, hbs, hmarks, .inr ⟨rfl, htail⟩⟩⟩
    obtain ⟨b, hb⟩ := hrun
    rw [hb, hheld, endsOpen_of_bracketRun hb]
  · intro h
    obtain ⟨bs, tail, hbs, hmarks, htail⟩ := bracketRun_eq_some_iff.1 h
    exact ⟨⟨bs, tail, hbs, hmarks, htail.imp (·.2) (·.2)⟩, (endsOpen_of_bracketRun h).symm⟩

/-- The room that a record needs when the services are ready. A down edge needs a free slot; when it
replaces a held contact, exactly one free slot is the failing case, since the queue then takes the
up edge and refuses the down edge. Any other record that gives up a held contact, by an up edge, a
cancel, or a new epoch, needs a free slot. -/
def RoomFor (newEpoch held : Bool) (free : ℕ) (kind : Kind) : Prop :=
  match kind with
  | .D => if held then free ≠ 1 else 0 < free
  | .U | .C => held = true → 0 < free
  | .M | .P | .B | .W => newEpoch = true → held = true → 0 < free

instance (newEpoch held : Bool) (free : ℕ) :
    ∀ kind, Decidable (RoomFor newEpoch held free kind)
  | .D => inferInstanceAs (Decidable (if held then free ≠ 1 else 0 < free))
  | .U | .C => inferInstanceAs (Decidable (held = true → 0 < free))
  | .M | .P | .B | .W => inferInstanceAs (Decidable (newEpoch = true → held = true → 0 < free))

/-- The condition on a step of the reader: a record, or the release at the end of input, finds the
room that it needs. -/
def Room (m : Injector) : Label → Prop
  | .record r =>
    m.shared.state = .R → RoomFor (r.epoch ≠ m.shared.epoch) m.shared.held m.shared.free r.kind
  | .eof => m.shared.state = .R → m.shared.held = true → 0 < m.shared.free
  | _ => True

instance (m : Injector) : ∀ a, Decidable (Room m a)
  | .record _ | .eof => inferInstanceAs (Decidable (_ → _))
  | .wake | .dispatched _ | .relock | .recoverBegin | .createBegin | .createEnd _ | .recoverEnd
  | .notify | .notifyLocked | .initialized _ => inferInstanceAs (Decidable True)

/-- A record handled while the services are ready keeps the bracketing exactly when it finds the
room that it needs. -/
theorem effect_ready_iff (newEpoch held : Bool) (free : ℕ) (kind : Kind) :
    bracketRun held ((effect true newEpoch held free kind).queued.filterMap id) =
        some (effect true newEpoch held free kind).held ↔
      RoomFor newEpoch held free kind := by
  rcases free with _ | _ | free <;> cases newEpoch <;> cases held <;> cases kind <;>
    simp [effect, Effect.put, Effect.release, RoomFor, bracketStep]

/-- Without a held contact, a record that is handled while the services are not ready changes
nothing. -/
theorem effect_not_ready (newEpoch : Bool) (free : ℕ) (kind : Kind) :
    (effect false newEpoch false free kind).queued = [] ∧
      (effect false newEpoch false free kind).held = false := by
  cases newEpoch <;> cases kind <;> exact ⟨rfl, rfl⟩

/-- What the runs keep that stay ready and bracketed. -/
structure BracketInv (m : Injector) : Prop where
  run : bracketRun false (marks m.history.appended) = some m.shared.held
  held : m.shared.state ≠ .R → m.shared.held = false
  worker : m.worker.inRecovery = false

/-- A run of marks after a bracketed history. -/
theorem BracketInv.run_append {m : Injector} (h : BracketInv m) {l : List Op}
    {ms : List (Option Mark)} (hl : l.map Op.mark = ms) (b : Bool) :
    bracketRun false (marks (m.history.appended ++ l)) = some b ↔
      bracketRun m.shared.held (ms.filterMap id) = some b := by
  rw [marks_append, bracketRun_append, h.run, marks_of_map hl]
  rfl

/-- In a ready run, a step of another thread than the reader changes neither `held` nor what has
been queued. -/
theorem BracketInv.of_same {m m' : Injector} (h : BracketInv m)
    (happ : m'.history.appended = m.history.appended) (hheld : m'.shared.held = m.shared.held)
    (hstate : m.shared.state = .R → m'.shared.state = .R)
    (hworker : m'.worker.inRecovery = false) : BracketInv m' := by
  refine ⟨by rw [happ, hheld, h.run], fun hne => ?_, hworker⟩
  rw [hheld]
  exact h.held fun heq => hne (hstate heq)

/-- In a ready run, the top of the worker's loop keeps the invariant. -/
theorem BracketInv.loopTop {m n : Injector} (h : BracketInv m)
    (happ : n.history.appended = m.history.appended) (hheld : n.shared.held = m.shared.held)
    (hstate : n.shared.state = m.shared.state) (hready : n.loopTop.shared.need_recovery = false) :
    BracketInv n.loopTop := by
  rcases n.loopTop_cases with ⟨hneed, heq⟩ | ⟨-, -, heq⟩ | ⟨-, o, ops, -, heq⟩
  · rw [heq, Injector.flush, hneed] at hready
    cases hready
  · rw [heq]
    exact h.of_same happ hheld (fun hR => hstate.trans hR) rfl
  · rw [heq]
    exact h.of_same happ hheld (fun hR => hstate.trans hR) rfl

/-- A ready step keeps the invariant exactly when it finds the room that it needs. -/
theorem bracketInv_step {cfg : Config} {m m' : Injector} {a : Label} (hready' : Ready m') (h : BracketInv m)
    (hs : Step cfg m a m') : (Room m a → BracketInv m') ∧ (¬ Room m a → ¬ WellBracketed m') := by
  have hother : BracketInv m' → Room m a → (Room m a → BracketInv m') ∧
      (¬ Room m a → ¬ WellBracketed m') :=
    fun hm' hroom => ⟨fun _ => hm', fun hn => absurd hroom hn⟩
  cases hs with
  | @record r hended =>
    obtain ⟨s, l, heq, hstate, -, hheld, -, hmarks, -⟩ := Injector.read_spec cfg r m
    have hrun := fun b => h.run_append hmarks b
    rw [heq, wellBracketed_iff]
    show (_ → BracketInv ⟨s, m.worker, m.failures, m.initializing, m.notifying, m.ended, _⟩) ∧
      (_ → ¬ bracketRun false (marks (m.history.appended ++ l)) = some s.held)
    by_cases hR : m.shared.state = .R
    · have key := effect_ready_iff (r.epoch ≠ m.shared.epoch) m.shared.held m.shared.free r.kind
      simp only [hR, decide_true] at hheld hrun
      rw [← hrun, ← hheld] at key
      exact ⟨fun hroom => ⟨key.2 (hroom hR), fun hne => absurd (hstate.trans hR) hne, h.worker⟩,
        fun hroom hb => hroom fun _ => key.1 hb⟩
    · -- The services are still being created: no contact is held, and nothing is queued.
      obtain ⟨hq, hh⟩ := effect_not_ready (r.epoch ≠ m.shared.epoch) m.shared.free r.kind
      simp only [hR, decide_false, h.held hR, hq] at hheld hrun
      rw [hh] at hheld
      exact ⟨fun _ => ⟨(hrun _).2 (congrArg some hheld.symm), fun _ => hheld, h.worker⟩,
        fun hroom => absurd (fun hR' => absurd hR' hR) hroom⟩
  | eof hended =>
    obtain ⟨s, l, heq, hstate, -, hheld, -, hmarks, -⟩ := Injector.readEnd_spec cfg m
    have hrun := fun b => h.run_append hmarks b
    rw [heq, wellBracketed_iff]
    show (_ → BracketInv ⟨s, m.worker, m.failures, m.initializing, m.notifying, true, _⟩) ∧
      (_ → ¬ bracketRun false (marks (m.history.appended ++ l)) = some s.held)
    by_cases hR : m.shared.state = .R
    · -- The release is that of a cancel record of the same epoch.
      have key := effect_ready_iff false m.shared.held m.shared.free .C
      have heff : effect true false m.shared.held m.shared.free .C =
        Effect.release m.shared.free ⟨m.shared.held, [], .Q⟩ := rfl
      simp only [hR, if_true] at hheld hrun
      rw [heff, ← hrun, ← hheld] at key
      exact ⟨fun hroom => ⟨key.2 (hroom hR), fun hne => absurd (hstate.trans hR) hne, h.worker⟩,
        fun hroom hb => hroom fun _ => key.1 hb⟩
    · simp only [hR, if_false] at hheld hrun
      rw [h.held hR] at hheld
      refine ⟨fun _ => ⟨(hrun _).2 ?_, fun _ => hheld, h.worker⟩,
        fun hroom => absurd (fun hR' => absurd hR' hR) hroom⟩
      rw [hheld, h.held hR]
      rfl
  | wake hw => exact hother (h.loopTop rfl rfl rfl hready'.2) trivial
  | dispatched hw => exact hother (h.of_same rfl rfl id rfl) trivial
  | relock hw => exact hother (h.loopTop rfl rfl rfl hready'.2) trivial
  | notify => exact absurd rfl hready'.1
  | notifyLocked hn => cases hready'.2
  | @initialized ok hi =>
    cases ok with
    | true => exact hother (h.of_same rfl rfl (fun _ => rfl) h.worker) trivial
    | false => exact absurd rfl hready'.1
  | recoverBegin hw | createBegin hw | createEnd hw | recoverDone hw | recoverRetry hw =>
    have hin := h.worker
    rw [hw] at hin
    cases hin

/-- In a run in which the services stay ready, the contacts are bracketed in every state exactly
when every record, and the release at the end of input, finds the room that it needs. -/
theorem contact_bracketing (cfg : Config) (as : List Label)
    (hready : (injector cfg).Throughout Ready .init as) :
    (injector cfg).Throughout WellBracketed .init as ↔ (injector cfg).Meets Room .init as := by
  refine (System.meets_iff_throughout (J := BracketInv) ?_ ?_ ?_ ?_ hready).symm
  · exact fun m hm => (wellBracketed_iff m).2 hm.run
  · exact fun m a m' _ hm' h hroom hs => (bracketInv_step hm' h (Step.of_step hs)).1 hroom
  · exact fun m a m' _ hm' h hroom hs => (bracketInv_step hm' h (Step.of_step hs)).2 hroom
  · exact ⟨rfl, fun _ => rfl, rfl⟩

/-- A run with a contact and its release, and pops in between. -/
def tapRun : List Label :=
  [.initialized true, .record ⟨7, 1, 100, 200, 0, .D, 5⟩, .wake, .dispatched true, .relock,
    .record ⟨7, 2, 110, 220, 0, .M, 9⟩, .record ⟨7, 3, 110, 220, 0, .U, 12⟩, .wake, .eof]

/-- The contact of `tapRun` is bracketed. -/
theorem contact_bracketing_tap : (injector frozen).Throughout WellBracketed .init tapRun :=
  (contact_bracketing frozen tapRun (by decide)).2 (by decide)

/-- A contact that fills the queue while the worker is busy: there is no slot left for its up
edge. -/
def fullQueueRun : List Label :=
  [.initialized true, .record ⟨7, 1, 100, 200, 0, .D, 5⟩] ++
    List.replicate 31 (.record ⟨7, 2, 110, 220, 0, .M, 9⟩) ++ [.record ⟨7, 3, 110, 220, 0, .U, 12⟩]

/-- The services stay ready, but when the queue is full the up edge is lost and `held` dropped. -/
theorem contact_bracketing_full_queue :
    ¬ ∀ (cfg : Config) (as : List Label), (injector cfg).Throughout Ready .init as →
      (injector cfg).Throughout WellBracketed .init as := by
  intro h
  have hb := (h frozen fullQueueRun (by decide +kernel)).mono fun m hm => hm.held
  revert hb
  decide +kernel

end DarwinVm.Hid
