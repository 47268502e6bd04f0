import DarwinVm.Hid.Injector

/-!
# Losses of the services are not forgotten

`cb_notify` marks the services lost and asks for their recovery, and the worker takes the request
back when it has created new ones. `loss_kept` says in which runs no loss is forgotten: those in
which the first creation of the services does not fail unnoticed, and in which no recovery ends
after a loss of the services that it has just made (`Noticed`).
-/

namespace DarwinVm.Hid

open Injector (Step)

/-- A recovery is asked for, or a notification is about to ask for one. -/
def Injector.Pending (m : Injector) : Prop := m.shared.need_recovery = true ∨ 0 < m.notifying

instance (m : Injector) : Decidable m.Pending := inferInstanceAs (Decidable (_ ∨ _))

/-- The ready state means that every loss since the creation of the services began still has its
recovery pending, and the lost state that a recovery is pending or running. -/
structure LossKept (m : Injector) : Prop where
  ready : m.shared.state = .R → m.history.lossSince = true → m.Pending
  lost : m.shared.state = .L → m.Pending ∨ m.worker.inRecovery = true

/-- The condition on a step: when the first creation of the services fails, a recovery is pending
already; and when a recovery ends, no loss has been notified since its creation of the services
began, or the notification is still to ask for the next recovery. -/
def Noticed (m : Injector) : Label → Prop
  | .initialized false => m.Pending
  | .recoverEnd =>
    ∀ n, m.worker = .created true n → m.history.lossSince = true → 0 < m.notifying
  | _ => True

/-- What these runs keep. -/
structure LossInv (m : Injector) : Prop where
  since : m.history.lossSince = true → m.Pending
  lost : m.shared.state = .L → m.Pending
  recovery : m.worker.inRecovery = true → m.shared.need_recovery = true

/-- The invariant gives the property. -/
theorem LossInv.kept {m : Injector} (h : LossInv m) : LossKept m :=
  ⟨fun _ => h.since, fun hL => .inl (h.lost hL)⟩

/-- A pending recovery stays pending while the request is not taken back and no callback ends. -/
theorem pending_of_le {m m' : Injector} (hp : m.Pending)
    (hneed : m.shared.need_recovery = true → m'.shared.need_recovery = true)
    (hnotify : m.notifying ≤ m'.notifying) : m'.Pending :=
  hp.imp hneed fun h => h.trans_le hnotify

/-- A step that takes no request back, and after which no loss or lost state is new, keeps the
invariant. -/
theorem LossInv.of_le {m m' : Injector} (h : LossInv m)
    (hneed : m.shared.need_recovery = true → m'.shared.need_recovery = true)
    (hnotify : m.notifying ≤ m'.notifying)
    (hsince : m'.history.lossSince = true → m.history.lossSince = true)
    (hlost : m'.shared.state = .L → m.shared.state = .L)
    (hworker : m'.worker.inRecovery = true →
      m.worker.inRecovery = true ∨ m'.shared.need_recovery = true) : LossInv m' := by
  refine ⟨fun hs => ?_, fun hL => ?_, fun hr => ?_⟩
  · exact pending_of_le (h.since (hsince hs)) hneed hnotify
  · exact pending_of_le (h.lost (hlost hL)) hneed hnotify
  · rcases hworker hr with hr | hneed'
    · exact hneed (h.recovery hr)
    · exact hneed'

/-- The top of the worker's loop keeps the invariant. -/
theorem LossInv.loopTop {m : Injector} (h : LossInv m) : LossInv m.loopTop := by
  rcases m.loopTop_cases with ⟨hneed, heq⟩ | ⟨-, -, heq⟩ | ⟨-, o, ops, -, heq⟩
  · rw [heq]
    exact h.of_le id le_rfl id id fun _ => .inr hneed
  · rw [heq]
    exact h.of_le id le_rfl id id nofun
  · rw [heq]
    exact h.of_le id le_rfl id id nofun

/-- A step keeps the invariant exactly when it meets the condition. -/
theorem lossInv_step {cfg : Config} {m m' : Injector} {a : Label} (h : LossInv m)
    (hs : Step cfg m a m') : (Noticed m a → LossInv m') ∧ (¬ Noticed m a → ¬ LossKept m') := by
  have hother : LossInv m' → Noticed m a →
      (Noticed m a → LossInv m') ∧ (¬ Noticed m a → ¬ LossKept m') :=
    fun hm' ha => ⟨fun _ => hm', fun hn => absurd ha hn⟩
  cases hs with
  | @record r hended =>
    obtain ⟨s, l, heq, hstate, hneed, -⟩ := Injector.read_spec cfg r m
    rw [heq] at hother ⊢
    refine hother (h.of_le ?_ le_rfl id ?_ .inl) trivial
    · exact fun hn => hneed.trans hn
    · exact fun hL => hstate.symm.trans hL
  | eof hended =>
    obtain ⟨s, l, heq, hstate, hneed, -⟩ := Injector.readEnd_spec cfg m
    rw [heq] at hother ⊢
    refine hother (h.of_le ?_ le_rfl id ?_ .inl) trivial
    · exact fun hn => hneed.trans hn
    · exact fun hL => hstate.symm.trans hL
  | wake hw => exact hother h.loopTop trivial
  | dispatched hw => exact hother (h.of_le id le_rfl id id nofun) trivial
  | @relock ok hw =>
    have hcount : LossInv (Injector.countFailures ok m) := by
      refine h.of_le (fun hn => ?_) le_rfl id id .inl
      show (if _ then true else m.shared.need_recovery) = true
      rw [hn, ite_self]
    exact hother hcount.loopTop trivial
  | recoverBegin hw =>
    -- The lost state gives way to the initialising one.
    refine hother (h.of_le id le_rfl id (nofun) fun _ => .inl ?_) trivial
    rw [hw]
    rfl
  | createBegin hw =>
    refine hother (h.of_le id le_rfl (nofun) id fun _ => .inl ?_) trivial
    rw [hw]
    rfl
  | createEnd hw =>
    refine hother (h.of_le id le_rfl id id fun _ => .inl ?_) trivial
    rw [hw]
    rfl
  | recoverRetry hw =>
    refine hother (h.of_le id le_rfl id id fun _ => .inl ?_) fun n hn => ?_
    · rw [hw]
      rfl
    · rw [hw] at hn
      cases hn
  | recoverDone hw =>
    -- The request is taken back; only a callback in progress can be pending now.
    constructor
    · intro hnoticed
      exact ⟨fun hs => .inr (hnoticed _ hw hs), nofun, nofun⟩
    · intro hn hkept
      refine hn fun n _ hs => ?_
      rcases hkept.ready rfl hs with hneed | hnotify
      · cases hneed
      · exact hnotify
  | notify =>
    have hp : (Injector.notify m).Pending := .inr (Nat.succ_pos _)
    exact hother ⟨fun _ => hp, fun _ => hp, h.recovery⟩ trivial
  | notifyLocked hn => exact hother ⟨fun _ => .inl rfl, fun _ => .inl rfl, fun _ => rfl⟩ trivial
  | @initialized ok hi =>
    cases ok with
    | true => exact hother (h.of_le id le_rfl id (nofun) .inl) trivial
    | false =>
      constructor
      · exact fun hp => ⟨h.since, fun _ => hp, h.recovery⟩
      · -- No recovery is running either: a running one is asked for.
        intro hn hkept
        rcases hkept.lost rfl with hp | hr
        · exact hn hp
        · exact hn (.inl (h.recovery hr))

/-- In every run: no loss of the services is forgotten in any state, exactly when every step of the
run meets the condition. -/
theorem loss_kept (cfg : Config) (as : List Label) :
    (injector cfg).Throughout LossKept .init as ↔ (injector cfg).Meets Noticed .init as := by
  have hinit : LossInv .init := ⟨nofun, nofun, nofun⟩
  have htrue : (injector cfg).Throughout (fun _ => True) .init as :=
    System.throughout_of_step (fun _ _ _ _ _ => trivial) trivial as
  refine (System.meets_iff_throughout (J := LossInv) ?_ ?_ ?_ hinit htrue).symm
  · exact fun m hm => hm.kept
  · exact fun m a m' _ _ h ha hs => (lossInv_step h (Step.of_step hs)).1 ha
  · exact fun m a m' _ _ h ha hs => (lossInv_step h (Step.of_step hs)).2 ha

/-- The services are lost, and the new ones are lost again while they are being created. -/
def lostTwiceRun : List Label :=
  [.initialized true, .notify, .notifyLocked, .wake, .recoverBegin, .createBegin, .notify,
    .notifyLocked, .createEnd true, .recoverEnd]

/-- The second loss is forgotten: the state is ready, and no recovery is pending. -/
theorem loss_kept_lost_twice :
    ¬ ∀ (cfg : Config) (as : List Label), (injector cfg).Throughout LossKept .init as := by
  intro h
  have hready := (h frozen lostTwiceRun).mono fun m hm => hm.ready
  revert hready
  decide

end DarwinVm.Hid
