import DarwinVm.Hid.Injector

/-!
# Recoveries isolate the new services from the old gestures

A recovery empties the queue, creates the services anew, and lets go of the contact, in three locked
regions. What has been queued before it ends belongs to services that are gone, and afterwards `held`
should tell of the contact on the new ones. `recovery_isolation` is about the runs in which nothing
is queued while a recovery is in progress (`NothingStale`): these keep the two apart exactly when no
record drops a contact that is down on the new services without queueing its up edge
(`NothingDropped`).
-/

namespace DarwinVm.Hid

open Injector (Step)

/-- The services have been created anew, and no recovery is in progress. -/
def Injector.renewed (m : Injector) : Bool := 0 < m.history.recovered && !m.worker.inRecovery

/-- After what the current services have been sent and will be sent from the queue, is a contact
down? -/
def Injector.contactDown (m : Injector) : Bool :=
  endsOpen (marks (m.history.sent ++ m.shared.ops.toList))

/-- Every operation is dispatched to services created by the recovery that was the last one when the
operation was queued, and no contact is left down on new services while `held` is false. -/
structure Isolated (m : Injector) : Prop where
  dispatched : ∀ d ∈ m.history.dispatched, d.1 = d.2
  held : m.renewed = true → m.contactDown = true → m.shared.held = true

/-- Does a record queue an operation? -/
def queues (ready newEpoch held : Bool) (free : ℕ) (kind : Kind) : Bool :=
  ready && 0 < free &&
    (newEpoch && held ||
      match kind with
      | .D | .B => true
      | .W => !held
      | .M | .U | .C => held
      | .P => false)

/-- Does a record drop a contact that is down without queueing its up edge? With ready services this
takes a full queue; otherwise every touch record, cancel, and new epoch does it. -/
def drops (ready newEpoch : Bool) (free : ℕ) (kind : Kind) : Bool :=
  match kind with
  | .D => !ready
  | .U | .C => !ready || free = 0
  | .M => !ready || newEpoch && free = 0
  | .P | .B | .W => newEpoch && (!ready || free = 0)

/-- While a recovery is in progress, nothing is queued. -/
def NothingStale (m : Injector) : Label → Prop
  | .record r => m.worker.inRecovery = true →
    queues (m.shared.state = .R) (r.epoch ≠ m.shared.epoch) m.shared.held m.shared.free r.kind = false
  | .eof => m.worker.inRecovery = true → m.shared.state = .R → m.shared.held = true →
    m.shared.free = 0
  | _ => True

instance (m : Injector) : ∀ a, Decidable (NothingStale m a)
  | .record _ | .eof => inferInstanceAs (Decidable (_ → _))
  | .wake | .dispatched _ | .relock | .recoverBegin | .createBegin | .createEnd _ | .recoverEnd
  | .notify | .notifyLocked | .initialized _ => inferInstanceAs (Decidable True)

/-- A contact that is down on new services is not dropped without its up edge. -/
def NothingDropped (m : Injector) : Label → Prop
  | .record r => m.renewed = true → m.contactDown = true →
    drops (m.shared.state = .R) (r.epoch ≠ m.shared.epoch) m.shared.free r.kind = false
  | .eof => m.renewed = true → m.contactDown = true → m.shared.state = .R → m.shared.free ≠ 0
  | _ => True

instance (m : Injector) : ∀ a, Decidable (NothingDropped m a)
  | .record _ | .eof => inferInstanceAs (Decidable (_ → _))
  | .wake | .dispatched _ | .relock | .recoverBegin | .createBegin | .createEnd _ | .recoverEnd
  | .notify | .notifyLocked | .initialized _ => inferInstanceAs (Decidable True)

/-- `queues` says when `handle` queues an operation. -/
theorem queues_eq_false_iff (ready newEpoch held : Bool) (free : ℕ) (kind : Kind) :
    queues ready newEpoch held free kind = false ↔
      (effect ready newEpoch held free kind).queued = [] := by
  rcases free with _ | _ | free <;> cases ready <;> cases newEpoch <;> cases held <;> cases kind <;>
    simp [queues, effect, Effect.put, Effect.release]

/-- `drops` says when `handle` drops a contact that is down: `isDown` tells whether the operations
before the record leave a contact down. -/
theorem drops_eq_false_iff (ready newEpoch held isDown : Bool) (free : ℕ) (kind : Kind)
    (hheld : isDown = true → held = true) :
    let e := effect ready newEpoch held free kind
    let ms := e.queued.filterMap id
    ((if ms = [] then isDown else endsOpen ms) = true → e.held = true) ↔
      (isDown = true → drops ready newEpoch free kind = false) := by
  cases isDown with
  | true =>
    obtain rfl := hheld rfl
    rcases free with _ | _ | free <;> cases ready <;> cases newEpoch <;> cases kind <;>
      simp [drops, effect, Effect.put, Effect.release, endsOpen]
  | false =>
    rcases free with _ | _ | free <;> cases ready <;> cases newEpoch <;> cases held <;>
      cases kind <;> simp [effect, Effect.put, Effect.release, endsOpen]

/-- Have the old services been forgotten by an attempt to create new ones? -/
def Worker.creatingServices : Worker → Bool
  | .creating _ | .created _ _ => true
  | .idle | .dispatching _ | .reported _ | .recovering | .attempting _ => false

/-- What the runs keep in which nothing is queued while a recovery is in progress: all that is in
the queue has been queued since the last recovery. -/
structure QueueInv (m : Injector) : Prop where
  tags : m.history.tags = List.replicate m.shared.ops.len m.history.recovered
  flushed : m.worker.inRecovery = true → m.shared.ops.len = 0
  sent : m.worker.creatingServices = true → m.history.sent = []
  dispatched : ∀ d ∈ m.history.dispatched, d.1 = d.2

/-- Operations queued outside of a recovery keep the invariant. -/
theorem QueueInv.queue {m m' : Injector} {l : List Op} (h : QueueInv m)
    (hl : m.worker.inRecovery = true → l = [])
    (hops : m'.shared.ops.toList = m.shared.ops.toList ++ l)
    (htags : m'.history.tags = m.history.tags ++ l.map fun _ => m.history.recovered)
    (hrecovered : m'.history.recovered = m.history.recovered)
    (hworker : m'.worker = m.worker) (hsent : m'.history.sent = m.history.sent)
    (hdispatched : m'.history.dispatched = m.history.dispatched) : QueueInv m' := by
  have hlen : m'.shared.ops.len = m.shared.ops.len + l.length := by
    rw [← Ring.length_toList, hops, List.length_append, Ring.length_toList]
  refine ⟨?_, fun hr => ?_, ?_, hdispatched ▸ h.dispatched⟩
  · rw [htags, h.tags, hlen, hrecovered, List.map_const', List.replicate_append_replicate]
  · rw [hworker] at hr
    rw [hlen, h.flushed hr, hl hr, List.length_nil]
  · rw [hworker, hsent]
    exact h.sent

/-- A step that leaves the queue and the dispatches as they are keeps the invariant. -/
theorem QueueInv.of_same {m m' : Injector} (h : QueueInv m) (hops : m'.shared.ops = m.shared.ops)
    (htags : m'.history.tags = m.history.tags)
    (hrecovered : m'.history.recovered = m.history.recovered)
    (hdispatched : m'.history.dispatched = m.history.dispatched)
    (hflushed : m'.worker.inRecovery = true → m.worker.inRecovery = true)
    (hsent : m'.worker.creatingServices = true → m'.history.sent = []) : QueueInv m' := by
  refine ⟨?_, fun hr => ?_, hsent, hdispatched ▸ h.dispatched⟩
  · rw [htags, h.tags, hops, hrecovered]
  · rw [hops]
    exact h.flushed (hflushed hr)

/-- The top of the worker's loop keeps the invariant: it takes out the operation at the head of the
queue, which has been queued since the last recovery. -/
theorem QueueInv.loopTop {m : Injector} (h : QueueInv m) : QueueInv m.loopTop := by
  rcases m.loopTop_cases with ⟨-, heq⟩ | ⟨-, -, heq⟩ | ⟨-, o, ops, hops, heq⟩
  · rw [heq]
    exact ⟨rfl, fun _ => rfl, nofun, h.dispatched⟩
  · rw [heq]
    exact h.of_same rfl rfl rfl rfl nofun nofun
  · rw [heq]
    have hlen : m.shared.ops.len = ops.len + 1 := by
      rw [← Ring.length_toList, hops, List.length_cons, Ring.length_toList]
    have htags : m.history.tags = m.history.recovered ::
        List.replicate ops.len m.history.recovered := by
      rw [h.tags, hlen, List.replicate_succ]
    refine ⟨?_, nofun, nofun, fun d hd => ?_⟩
    · show m.history.tags.tail = List.replicate ops.len m.history.recovered
      rw [htags, List.tail_cons]
    · rcases List.mem_append.1 hd with hd | hd
      · exact h.dispatched d hd
      · rw [List.mem_singleton.1 hd, htags]
        rfl

/-- A step at which nothing is queued in a recovery keeps the invariant. -/
theorem queueInv_step {cfg : Config} {m m' : Injector} {a : Label} (h : QueueInv m)
    (ha : NothingStale m a) (hs : Step cfg m a m') : QueueInv m' := by
  cases hs with
  | @record r hended =>
    obtain ⟨s, l, heq, -, -, -, hops, hmarks, -⟩ := Injector.read_spec cfg r m
    rw [heq]
    refine h.queue (fun hr => ?_) hops rfl rfl rfl rfl rfl
    rw [(queues_eq_false_iff _ _ _ _ _).1 (ha hr)] at hmarks
    exact List.map_eq_nil_iff.1 hmarks
  | eof hended =>
    obtain ⟨s, l, heq, -, -, -, hops, hmarks, -⟩ := Injector.readEnd_spec cfg m
    rw [heq]
    refine h.queue (fun hr => ?_) hops rfl rfl rfl rfl rfl
    refine List.map_eq_nil_iff.1 (hmarks.trans ?_)
    split
    · rename_i hR
      unfold Effect.release Effect.put
      split
      · rename_i hheld
        rw [if_neg (by rw [ha hr hR hheld]; exact Nat.not_lt_zero _)]
      · rfl
    · rfl
  | wake hw => exact h.loopTop
  | dispatched hw => exact h.of_same rfl rfl rfl rfl nofun nofun
  | relock hw =>
    refine QueueInv.loopTop (h.of_same rfl rfl rfl rfl id fun hc => ?_)
    rw [show (Injector.countFailures _ m).worker = m.worker from rfl, hw] at hc
    cases hc
  | recoverBegin hw => exact h.of_same rfl rfl rfl rfl (fun _ => by rw [hw]; rfl) nofun
  | createBegin hw => exact h.of_same rfl rfl rfl rfl (fun _ => by rw [hw]; rfl) fun _ => rfl
  | createEnd hw =>
    exact h.of_same rfl rfl rfl rfl (fun _ => by rw [hw]; rfl) fun _ => h.sent (by rw [hw]; rfl)
  | recoverDone hw =>
    -- The queue is still empty, so nothing in it is older than this recovery.
    have hlen : m.shared.ops.len = 0 := h.flushed (by rw [hw]; rfl)
    refine ⟨?_, nofun, nofun, h.dispatched⟩
    show m.history.tags = List.replicate m.shared.ops.len _
    rw [h.tags, hlen]
    rfl
  | recoverRetry hw => exact h.of_same rfl rfl rfl rfl (fun _ => by rw [hw]; rfl) nofun
  | notify => exact h.of_same rfl rfl rfl rfl id h.sent
  | notifyLocked hn => exact h.of_same rfl rfl rfl rfl id h.sent
  | initialized hi => exact h.of_same rfl rfl rfl rfl id h.sent

/-- A step that changes neither what has been sent and queued nor `held`, and that ends no recovery,
leaves no contact down. -/
theorem Isolated.of_same {m m' : Injector} (h : Isolated m) (hq : QueueInv m')
    (hdown : m'.contactDown = m.contactDown) (hheld : m'.shared.held = m.shared.held)
    (hrenewed : m'.renewed = true → m.renewed = true) : Isolated m' := by
  refine ⟨hq.dispatched, fun hr hd => ?_⟩
  rw [hheld]
  exact h.held (hrenewed hr) (hdown ▸ hd)

/-- The top of the worker's loop leaves no contact down: an operation taken out of the queue is
sent. -/
theorem Isolated.loopTop {m : Injector} (h : Isolated m) (hq : QueueInv m.loopTop)
    (hworker : m.worker.inRecovery = false) : Isolated m.loopTop := by
  have hrenewed : ∀ b, (decide (0 < m.history.recovered) && b) = true → m.renewed = true := by
    intro b hb
    rw [Injector.renewed, hworker, Bool.not_false, Bool.and_true]
    exact (Bool.and_eq_true_iff.1 hb).1
  rcases m.loopTop_cases with ⟨-, heq⟩ | ⟨-, -, heq⟩ | ⟨-, o, ops, hops, heq⟩
  · rw [heq] at hq ⊢
    refine ⟨hq.dispatched, fun hr => ?_⟩
    simp [Injector.renewed, Injector.flush, Worker.inRecovery] at hr
  · rw [heq] at hq ⊢
    exact h.of_same hq rfl rfl (hrenewed _)
  · rw [heq] at hq ⊢
    refine h.of_same hq ?_ rfl (hrenewed _)
    show endsOpen (marks (m.history.sent ++ [o] ++ ops.toList)) = m.contactDown
    rw [Injector.contactDown, hops, List.append_assoc, List.singleton_append]

/-- What the operations queued in a region do to the contact of the services. -/
theorem contactDown_queue {m m' : Injector} {l : List Op} {ms : List (Option Mark)}
    (hsent : m'.history.sent = m.history.sent)
    (hops : m'.shared.ops.toList = m.shared.ops.toList ++ l) (hmarks : l.map Op.mark = ms) :
    m'.contactDown = if ms.filterMap id = [] then m.contactDown else endsOpen (ms.filterMap id) := by
  rw [Injector.contactDown, hsent, hops, ← List.append_assoc, marks_append, endsOpen_append,
    marks_of_map hmarks]
  rfl

/-- While a recovery is in progress, the current services are not new. -/
theorem isolated_of_inRecovery {m : Injector} (hq : QueueInv m)
    (hworker : m.worker.inRecovery = true) : Isolated m := by
  refine ⟨hq.dispatched, fun hr => ?_⟩
  rw [Injector.renewed, hworker, Bool.not_true, Bool.and_false] at hr
  cases hr

/-- A region of the reader leaves no contact down exactly when the services are not new, or when
what it queues and does to `held` leaves none down. -/
theorem isolated_queue_iff {m m' : Injector} {l : List Op} {ms : List (Option Mark)}
    (hq : QueueInv m') (hrenewed : m'.renewed = m.renewed)
    (hsent : m'.history.sent = m.history.sent)
    (hops : m'.shared.ops.toList = m.shared.ops.toList ++ l) (hmarks : l.map Op.mark = ms) :
    Isolated m' ↔ (m.renewed = true →
      (if ms.filterMap id = [] then m.contactDown else endsOpen (ms.filterMap id)) = true →
        m'.shared.held = true) := by
  rw [← contactDown_queue hsent hops hmarks, ← hrenewed]
  exact ⟨fun h => h.held, fun h => ⟨hq.dispatched, h⟩⟩

/-- Among the steps at which nothing is queued in a recovery, those that leave no contact down are
those that drop no contact. -/
theorem isolated_step {cfg : Config} {m m' : Injector} {a : Label} (hq : QueueInv m)
    (hq' : QueueInv m') (h : Isolated m) (hs : Step cfg m a m') :
    (NothingDropped m a → Isolated m') ∧ (¬ NothingDropped m a → ¬ Isolated m') := by
  have hother : Isolated m' → NothingDropped m a →
      (NothingDropped m a → Isolated m') ∧ (¬ NothingDropped m a → ¬ Isolated m') :=
    fun hm' ha => ⟨fun _ => hm', fun hn => absurd ha hn⟩
  have hiff : (Isolated m' ↔ NothingDropped m a) →
      (NothingDropped m a → Isolated m') ∧ (¬ NothingDropped m a → ¬ Isolated m') :=
    fun h => ⟨h.2, fun hn hm' => hn (h.1 hm')⟩
  cases hs with
  | @record r hended =>
    obtain ⟨s, l, heq, -, -, hheld, hops, hmarks, -⟩ := Injector.read_spec cfg r m
    rw [heq] at hq' hiff ⊢
    refine hiff ((isolated_queue_iff (m := m) hq' rfl rfl hops hmarks).trans ?_)
    refine forall_congr' fun hr => ?_
    have key := drops_eq_false_iff (m.shared.state = .R) (r.epoch ≠ m.shared.epoch) m.shared.held
      m.contactDown m.shared.free r.kind (h.held hr)
    dsimp only at key
    rw [← hheld] at key
    exact key
  | eof hended =>
    obtain ⟨s, l, heq, -, -, hheld, hops, hmarks, -⟩ := Injector.readEnd_spec cfg m
    rw [heq] at hq' hiff ⊢
    refine hiff ((isolated_queue_iff (m := m) hq' rfl rfl hops hmarks).trans ?_)
    refine forall_congr' fun hr => ?_
    by_cases hR : m.shared.state = .R
    · -- The release is that of a cancel record of the same epoch.
      have key := drops_eq_false_iff true false m.shared.held m.contactDown m.shared.free .C
        (h.held hr)
      have heff : effect true false m.shared.held m.shared.free .C =
        Effect.release m.shared.free ⟨m.shared.held, [], .Q⟩ := rfl
      simp only [if_pos hR] at hheld ⊢
      dsimp only at key
      rw [heff, ← hheld] at key
      refine key.trans (forall_congr' fun _ => ?_)
      simp [drops, hR]
    · simp only [if_neg hR] at hheld ⊢
      refine ⟨fun _ _ hR' => absurd hR' hR, fun _ hd => ?_⟩
      rw [hheld]
      exact h.held hr hd
  | wake hw => exact hother (h.loopTop hq' (by rw [hw]; rfl)) trivial
  | dispatched hw =>
    refine hother (h.of_same hq' rfl rfl fun hr => ?_) trivial
    rw [Injector.renewed, hw]
    exact hr
  | @relock ok hw =>
    have hq₁ : QueueInv (Injector.countFailures ok m) :=
      hq.of_same rfl rfl rfl rfl id hq.sent
    exact hother ((h.of_same hq₁ rfl rfl id).loopTop hq' (by
      show m.worker.inRecovery = false
      rw [hw]
      rfl)) trivial
  | recoverBegin hw => exact hother (isolated_of_inRecovery hq' rfl) trivial
  | createBegin hw => exact hother (isolated_of_inRecovery hq' rfl) trivial
  | createEnd hw => exact hother (isolated_of_inRecovery hq' rfl) trivial
  | recoverRetry hw => exact hother (isolated_of_inRecovery hq' rfl) trivial
  | recoverDone hw =>
    -- Nothing has been sent to the new services, and nothing is queued for them.
    refine hother ⟨hq'.dispatched, fun _ hd => ?_⟩ trivial
    have hlen : m.shared.ops.toList = [] := by
      rw [← List.length_eq_zero_iff, Ring.length_toList]
      exact hq.flushed (by rw [hw]; rfl)
    have hsent : m.history.sent = [] := hq.sent (by rw [hw]; rfl)
    have hdown : m.recoverDone.contactDown = false := by
      show endsOpen (marks (m.history.sent ++ m.shared.ops.toList)) = false
      rw [hsent, hlen]
      rfl
    rw [hdown] at hd
    cases hd
  | notify => exact hother (h.of_same hq' rfl rfl id) trivial
  | notifyLocked hn => exact hother (h.of_same hq' rfl rfl id) trivial
  | initialized hi => exact hother (h.of_same hq' rfl rfl id) trivial

/-- In every run in which nothing is queued while a recovery is in progress: old operations never
reach new services and no contact is left down on them, in every state, exactly when no step drops a
contact that is down on new services without queueing its up edge. -/
theorem recovery_isolation (cfg : Config) (as : List Label)
    (hstale : (injector cfg).Meets NothingStale .init as) :
    (injector cfg).Throughout Isolated .init as ↔
      (injector cfg).Meets NothingDropped .init as := by
  have hinit : QueueInv .init := ⟨rfl, nofun, nofun, by simp [Injector.init]⟩
  have hinit' : Isolated .init := ⟨hinit.dispatched, nofun⟩
  have hq : (injector cfg).Throughout QueueInv .init as :=
    System.throughout_of_meets (fun m a m' h ha hs => queueInv_step h ha (Step.of_step hs)) hinit
      hstale
  refine (System.meets_iff_throughout (J := Isolated) (fun _ h => h) ?_ ?_ hinit' hq).symm
  · exact fun m a m' hm hm' h ha hs => (isolated_step hm hm' h (Step.of_step hs)).1 ha
  · exact fun m a m' hm hm' h ha hs => (isolated_step hm hm' h (Step.of_step hs)).2 ha

/-- A contact of services that are lost and created anew, and one on the new services. -/
def renewedRun : List Label :=
  [.initialized true, .record ⟨7, 1, 100, 200, 0, .D, 5⟩, .notify, .notifyLocked, .wake,
    .recoverBegin, .createBegin, .createEnd true, .recoverEnd, .record ⟨7, 2, 110, 220, 0, .D, 9⟩,
    .wake, .dispatched true, .relock, .record ⟨7, 3, 110, 220, 0, .U, 12⟩]

/-- The old contact dies with the old services, and the one on the new services is released. -/
theorem recovery_isolation_renewed : (injector frozen).Throughout Isolated .init renewedRun :=
  (recovery_isolation frozen renewedRun (by decide)).2 (by decide)

/-- Two dispatches fail, and a contact begins between the emptying of the queue and the first locked
region of the recovery, while the state is still ready. -/
def staleRun : List Label :=
  [.initialized true, .record ⟨7, 1, 64, 1, 0, .B, 5⟩, .record ⟨7, 2, 64, 0, 0, .B, 6⟩, .wake,
    .dispatched false, .relock, .dispatched false, .relock, .record ⟨7, 3, 100, 200, 0, .D, 7⟩,
    .recoverBegin, .createBegin, .createEnd true, .recoverEnd, .wake]

/-- The down edge of that contact goes to the new services. -/
theorem recovery_isolation_stale :
    ¬ ∀ (cfg : Config) (as : List Label), (injector cfg).Throughout Isolated .init as := by
  intro h
  have hdispatched := (h frozen staleRun).mono fun m hm => hm.dispatched
  revert hdispatched
  decide

end DarwinVm.Hid
