import DarwinVm.Lib.System
import Mathlib.Algebra.Order.Ring.Rat
import Mathlib.Data.List.Nodup
import Mathlib.Logic.Function.Basic

/-!
# The probe watcher

`tools/re/probe_watch.py` watches the event directory that the callbacks of
`tools/re/display_iokit_callbacks.py` write: a call has a pending event from its entry to its return.
The watcher claims the oldest overdue call by renaming its pending event, and requests a stop unless
the return callback has revoked the claim in the meantime.

The system takes one file-system step of one party at a time, in any order, over any number of calls.
-/

namespace DarwinVm.Probe

/-- A file of the event directory. -/
inductive File
  | ready
  | pending (callId : ℕ)
  | claimed (callId : ℕ)
  | returned (callId : ℕ)
  deriving DecidableEq

/-- What an event file says of a call. -/
structure Event where
  callId : ℕ
  selector : ℕ
  time : ℚ
  deriving DecidableEq

/-- The event directory. -/
abbrev Dir := File → Option Event

namespace Dir

/-- `_write_event`, whose rename makes the file at once. -/
def write (d : Dir) (f : File) (e : Event) : Dir := Function.update d f (some e)

/-- `os.unlink`, where a file that is not found is no error. -/
def unlink (d : Dir) (f : File) : Dir := Function.update d f none

/-- `os.replace`, if the file is found. -/
def replace (d : Dir) (f g : File) : Option Dir := (d f).map fun e => (d.unlink f).write g e

variable {d d' : Dir} {p c n : ℕ}

theorem unlink_eq_some {f g : File} {e : Event} (h : d.unlink f g = some e) : d g = some e := by
  unfold unlink at h
  rw [Function.update_apply] at h
  split_ifs at h
  exact h

theorem replace_pending (h : d.replace (.pending p) (.claimed c) = some d') :
    d' (.pending n) = if n = p then none else d (.pending n) := by
  obtain ⟨e, -, rfl⟩ := Option.map_eq_some_iff.mp h
  simp [write, unlink, Function.update_apply]

theorem replace_claimed (h : d.replace (.pending p) (.claimed c) = some d') :
    d' (.claimed n) = if n = c then d (.pending p) else d (.claimed n) := by
  obtain ⟨e, he, rfl⟩ := Option.map_eq_some_iff.mp h
  simp [write, unlink, Function.update_apply, he]

end Dir

/-- Where the callbacks of a call are, with its event. -/
inductive Call
  /-- The call has not been entered. -/
  | absent
  /-- `_plant_return`, before it writes the pending event. -/
  | entering (e : Event)
  /-- The call has been entered and has not returned. -/
  | inside (e : Event)
  /-- `on_return`, before it removes the pending event. -/
  | removingPending (e : Event)
  /-- `on_return`, before it removes the claimed event. -/
  | removingClaimed (e : Event)
  /-- `on_return`, before it writes the returned event. -/
  | writingReturned (e : Event)
  /-- The call has returned. -/
  | returned (e : Event)
  deriving DecidableEq

/-- An item of `overdue`. -/
structure Overdue where
  callId : ℕ
  entered : ℚ
  /-- The call of the name of the pending file. -/
  path : ℕ
  deriving DecidableEq

/-- Where the watcher is. -/
inductive Watcher
  /-- At the start of a round of the loop. -/
  | polling
  /-- Before `os.listdir`. -/
  | listing (now : ℚ)
  /-- Before it reads the next of the pending files. -/
  | reading (now : ℚ) (names : List ℕ) (overdue : List Overdue)
  /-- Before `os.replace`. -/
  | claiming (item : Overdue)
  /-- Before `os.path.exists(returned_path)`. -/
  | checkingReturned (callId : ℕ)
  /-- Before `os.path.exists(claimed_path)`. -/
  | checkingClaimed (callId : ℕ)
  /-- Before `os.unlink(claimed_path)`. -/
  | unlinking (callId : ℕ)
  /-- Before `write_stop`. -/
  | stopping (callId : ℕ)
  /-- The watcher has returned. -/
  | done
  deriving DecidableEq

/-- A state of the session. -/
structure State where
  time : ℚ
  dir : Dir
  /-- `NEXT_CALL_ID` -/
  nextCallId : ℕ
  calls : ℕ → Call
  watcher : Watcher
  /-- The call of the stop file, if a selector stop has been requested. -/
  stop : Option ℕ
  /-- The calls that polls have chosen so far. -/
  choices : List ℕ
  /-- The calls that have been claimed so far. -/
  claims : List ℕ

/-- A step of one of the parties. -/
inductive Action
  /-- Time passes, or the clock is set. -/
  | tick (d : ℚ)
  /-- `install` writes the ready event. -/
  | install
  /-- A call with a selector is entered. -/
  | enter (selector : ℕ)
  /-- A call returns, so that its return callback starts. -/
  | ret (callId : ℕ)
  /-- The next step of the callback of a call. -/
  | callback (callId : ℕ)
  /-- The next step of the watcher, where the directory is listed in this order. -/
  | watch (names : List ℕ)
  /-- The watcher returns for another reason: a line of a log, or the longest time. -/
  | quit
  deriving DecidableEq

/-- The next step of the callbacks of a call. -/
def callback (selector : ℕ) (time : ℚ) (d : Dir) : Call → Option (Dir × Call)
  | .entering e => some (d.write (.pending e.callId) e, .inside e)
  | .removingPending e => some (d.unlink (.pending e.callId), .removingClaimed e)
  | .removingClaimed e => some (d.unlink (.claimed e.callId), .writingReturned e)
  | .writingReturned e =>
    some (if e.selector = selector then
      d.write (.returned e.callId) ⟨e.callId, e.selector, time⟩ else d, .returned e)
  | _ => none

/-- `now - entered >= args.pending_secs`, for an event with the selector. -/
def IsOverdue (selector : ℕ) (pendingSecs now : ℚ) (e : Event) : Prop :=
  e.selector = selector ∧ pendingSecs ≤ now - e.time

instance (selector : ℕ) (pendingSecs now : ℚ) (e : Event) :
    Decidable (IsOverdue selector pendingSecs now e) := inferInstanceAs (Decidable (_ ∧ _))

/-- `min(overdue, key=lambda item: item[1])`: the first of the oldest items. -/
def oldest : Overdue → List Overdue → Overdue
  | o, [] => o
  | o, o' :: os => if o'.entered < o.entered then oldest o' os else oldest o os

/-- The next step of the watcher. -/
def watch (selector : ℕ) (pendingSecs : ℚ) (s : State) (listed : List ℕ) : Option State :=
  match s.watcher with
  | .polling =>
    some { s with watcher := if (s.dir .ready).isSome then .listing s.time else .polling }
  | .listing now =>
    -- `os.listdir` returns the names in any order.
    if listed.Nodup ∧ (∀ n ∈ listed, (s.dir (.pending n)).isSome) ∧
        ∀ n < s.nextCallId, (s.dir (.pending n)).isSome → n ∈ listed then
      some { s with watcher := .reading now listed [] }
    else none
  | .reading now (n :: names) overdue =>
    match s.dir (.pending n) with
    | some e =>
      if IsOverdue selector pendingSecs now e then
        some { s with watcher := .reading now names (overdue ++ [⟨e.callId, e.time, n⟩]) }
      else some { s with watcher := .reading now names overdue }
    | none => some { s with watcher := .reading now names overdue }
  | .reading _ [] [] => some { s with watcher := .polling }
  | .reading _ [] (o :: os) =>
    some { s with watcher := .claiming (oldest o os), choices := s.choices ++ [(oldest o os).path] }
  | .claiming o =>
    match s.dir.replace (.pending o.path) (.claimed o.callId) with
    | some d =>
      some { s with dir := d, watcher := .checkingReturned o.callId, claims := s.claims ++ [o.callId] }
    | none => some { s with watcher := .polling }
  | .checkingReturned c =>
    some { s with watcher :=
      if (s.dir (.returned c)).isSome then .unlinking c else .checkingClaimed c }
  | .checkingClaimed c =>
    some { s with watcher := if (s.dir (.claimed c)).isSome then .stopping c else .unlinking c }
  | .unlinking c => some { s with dir := s.dir.unlink (.claimed c), watcher := .polling }
  | .stopping c => some { s with stop := some c, watcher := .done }
  | .done => none

/-- A step of the session. -/
def step (selector : ℕ) (pendingSecs : ℚ) (s : State) : Action → Option State
  | .tick d => some { s with time := s.time + d }
  | .install => some { s with dir := s.dir.write .ready ⟨0, 0, s.time⟩ }
  | .enter sel =>
    -- The guest only runs once the callbacks are installed.
    if (s.dir .ready).isSome then
      let e : Event := ⟨s.nextCallId, sel, s.time⟩
      some { s with
        nextCallId := s.nextCallId + 1
        calls := Function.update s.calls s.nextCallId
          (if sel = selector then .entering e else .inside e) }
    else none
  | .ret n =>
    match s.calls n with
    | .inside e => some { s with calls := Function.update s.calls n (.removingPending e) }
    | _ => none
  | .callback n =>
    (callback selector s.time s.dir (s.calls n)).map fun (d, c) =>
      { s with dir := d, calls := Function.update s.calls n c }
  | .watch names => watch selector pendingSecs s names
  | .quit =>
    match s.watcher with
    | .polling => some { s with watcher := .done }
    | _ => none

/-- The session: the directory is empty at first, and no call has been entered. -/
def session (selector : ℕ) (pendingSecs : ℚ) : System State Action where
  init := ⟨0, fun _ => none, 1, fun _ => .absent, .polling, none, [], []⟩
  step := step selector pendingSecs

variable {selector : ℕ} {pendingSecs : ℚ} {s s' : State}

/-! ## The invariant -/

/-- The event of a call. -/
def Call.event : Call → Option Event
  | .absent => none
  | .entering e | .inside e | .removingPending e | .removingClaimed e | .writingReturned e
  | .returned e => some e

/-- The pending event of the call has been written, or never will be. -/
def Call.Planted : Call → Prop
  | .absent | .entering _ => False
  | _ => True

/-- The return callback has revoked the claim of the call. -/
def Call.Revoked : Call → Prop
  | .writingReturned _ | .returned _ => True
  | _ => False

/-- A call can only be chosen by the poll that has it as a name or as an item. -/
def WatcherOk (s : State) : Prop :=
  match s.watcher with
  | .reading _ names overdue =>
    (∀ n ∈ names, (s.calls n).Planted ∧ n ∉ s.choices) ∧
      ∀ o ∈ overdue, o.callId = o.path ∧ (s.calls o.path).Planted ∧ o.path ∉ s.choices
  | .claiming o => o.callId = o.path ∧ o.path ∈ s.choices
  | _ => True

/-- What holds in every state of a session. -/
structure Inv (selector : ℕ) (s : State) : Prop where
  /-- Only calls with a number below the next have been entered. -/
  absent : ∀ n, s.nextCallId ≤ n → s.calls n = .absent
  /-- Events have the number of their call. -/
  event : ∀ n e, (s.calls n).event = some e → e.callId = n
  /-- A pending event is that of a call that has not returned and is not claimed. -/
  pending : ∀ n e, s.dir (.pending n) = some e →
    (s.calls n = .inside e ∨ s.calls n = .removingPending e) ∧ n ∉ s.claims
  /-- A claimed event is that of a call whose return callback has not revoked the claim. -/
  claimed : ∀ n e, s.dir (.claimed n) = some e → ¬(s.calls n).Revoked
  /-- A call that was chosen is pending until it is claimed. -/
  chosen : ∀ n ∈ s.choices, (s.calls n).Planted ∧
    ((s.dir (.pending n)).isSome → ∃ o, s.watcher = .claiming o ∧ o.path = n)
  /-- No call is chosen twice. -/
  choices : s.choices.Nodup
  /-- Only chosen calls are claimed, and each once. -/
  claims : s.claims.Nodup ∧ s.claims ⊆ s.choices
  watcher : WatcherOk s

theorem inv_init : Inv selector (session selector pendingSecs).init where
  absent _ _ := rfl
  event _ _ h := nomatch h
  pending _ _ h := nomatch h
  claimed _ _ h := nomatch h
  chosen _ h := nomatch h
  choices := List.nodup_nil
  claims := ⟨List.nodup_nil, List.nil_subset _⟩
  watcher := trivial

/-- The callbacks of a call go on with its event. -/
theorem callback_event {time : ℚ} {d d' : Dir} {c c' : Call}
    (h : callback selector time d c = some (d', c')) : c'.event = c.event ∧ c.event.isSome := by
  cases c <;> simp only [callback, Option.some.injEq, Prod.mk.injEq, reduceCtorEq] at h
  all_goals
    obtain ⟨-, rfl⟩ := h
    exact ⟨rfl, rfl⟩

/-- The callbacks of a call change the pending and the claimed file of the call only. -/
theorem callback_dir {time : ℚ} {d d' : Dir} {c c' : Call} {e : Event}
    (h : callback selector time d c = some (d', c')) (he : c.event = some e) {n : ℕ}
    (hn : n ≠ e.callId) :
    d' (.pending n) = d (.pending n) ∧ d' (.claimed n) = d (.claimed n) := by
  cases c <;> simp only [callback, Option.some.injEq, Prod.mk.injEq, reduceCtorEq] at h
  all_goals
    obtain ⟨rfl, -⟩ := h
    cases he
  case writingReturned =>
    split_ifs <;> simp [Dir.write]
  all_goals simp [Dir.write, Dir.unlink, hn]

/-- What the watcher has read stays as it is while calls go on. -/
theorem WatcherOk.of_calls (h : WatcherOk s) (hwatcher : s'.watcher = s.watcher)
    (hchoices : s'.choices = s.choices)
    (hcalls : ∀ n, (s.calls n).Planted → (s'.calls n).Planted) : WatcherOk s' := by
  unfold WatcherOk at h ⊢
  rw [hwatcher, hchoices]
  split at h
  · exact ⟨fun n hn => ⟨hcalls n (h.1 n hn).1, (h.1 n hn).2⟩,
      fun o ho => ⟨(h.2 o ho).1, hcalls _ (h.2 o ho).2.1, (h.2 o ho).2.2⟩⟩
  · exact h
  · trivial

/-- A step of a call that is under way, and of its files. -/
theorem Inv.of_call (h : Inv selector s) {n : ℕ} {c : Call} {d : Dir} {e : Event}
    (hevent : (s.calls n).event = some e) (hc : c.event = some e)
    (hplanted : (s.calls n).Planted → c.Planted)
    (hother : ∀ m, m ≠ n → d (.pending m) = s.dir (.pending m) ∧ d (.claimed m) = s.dir (.claimed m))
    (hpending : ∀ e', d (.pending n) = some e' →
      (c = .inside e' ∨ c = .removingPending e') ∧
        (s.dir (.pending n) = some e' ∨ ¬(s.calls n).Planted))
    (hclaimed : ∀ e', d (.claimed n) = some e' → s.dir (.claimed n) = some e' ∧
      ¬(¬(s.calls n).Revoked ∧ c.Revoked)) :
    Inv selector { s with dir := d, calls := Function.update s.calls n c } where
  absent m hm := by
    have hne : m ≠ n := by
      rintro rfl
      rw [h.absent m hm] at hevent
      cases hevent
    exact (Function.update_of_ne hne _ _).trans (h.absent m hm)
  event m e' he' := by
    by_cases hm : m = n
    · subst hm
      dsimp only at he'
      rw [Function.update_self, hc] at he'
      exact h.event m e' (hevent.trans he')
    · dsimp only at he'
      rw [Function.update_of_ne hm] at he'
      exact h.event m e' he'
  pending m e' he' := by
    dsimp only at he' ⊢
    by_cases hm : m = n
    · subst hm
      obtain ⟨hcall, hwas | hnot⟩ := hpending e' he'
      · exact ⟨by rwa [Function.update_self], (h.pending m e' hwas).2⟩
      · exact ⟨by rwa [Function.update_self], fun hmem => hnot (h.chosen m (h.claims.2 hmem)).1⟩
    · rw [(hother m hm).1] at he'
      rw [Function.update_of_ne hm]
      exact h.pending m e' he'
  claimed m e' he' := by
    dsimp only at he' ⊢
    by_cases hm : m = n
    · subst hm
      obtain ⟨hwas, hnot⟩ := hclaimed e' he'
      rw [Function.update_self]
      exact fun hrevoked => hnot ⟨h.claimed m e' hwas, hrevoked⟩
    · rw [(hother m hm).2] at he'
      rw [Function.update_of_ne hm]
      exact h.claimed m e' he'
  chosen m hm := by
    obtain ⟨hp, hclaiming⟩ := h.chosen m hm
    dsimp only at hm ⊢
    by_cases hmn : m = n
    · subst hmn
      rw [Function.update_self]
      refine ⟨hplanted hp, fun hsome => ?_⟩
      obtain ⟨e', he'⟩ := Option.isSome_iff_exists.mp hsome
      obtain ⟨-, hwas | hnot⟩ := hpending e' he'
      · exact hclaiming (Option.isSome_iff_exists.mpr ⟨e', hwas⟩)
      · exact absurd hp hnot
    · rw [Function.update_of_ne hmn, (hother m hmn).1]
      exact ⟨hp, hclaiming⟩
  choices := h.choices
  claims := h.claims
  watcher := by
    refine h.watcher.of_calls rfl rfl fun m hp => ?_
    by_cases hm : m = n
    · subst hm
      exact (congrArg Call.Planted (Function.update_self ..)).mpr (hplanted hp)
    · exact (congrArg Call.Planted (Function.update_of_ne hm ..)).mpr hp

/-- The invariant after a step of the callbacks of a call. -/
theorem Inv.callback (h : Inv selector s) {n : ℕ} {d : Dir} {c : Call}
    (hs : callback selector s.time s.dir (s.calls n) = some (d, c)) :
    Inv selector { s with dir := d, calls := Function.update s.calls n c } := by
  obtain ⟨hevent, hsome⟩ := callback_event hs
  obtain ⟨e, he⟩ := Option.isSome_iff_exists.mp hsome
  have hn := h.event n e he
  have hother : ∀ m, m ≠ n →
      d (.pending m) = s.dir (.pending m) ∧ d (.claimed m) = s.dir (.claimed m) :=
    fun m hm => callback_dir hs he (hn ▸ hm)
  have hpending := h.pending n
  have hclaimed := h.claimed n
  refine h.of_call he (hevent.trans he) ?_ hother ?_ ?_
  all_goals
    generalize s.calls n = c₀ at hs he hpending hclaimed ⊢
    cases c₀ <;>
      simp only [Probe.callback, Option.some.injEq, Prod.mk.injEq, reduceCtorEq] at hs
    all_goals
      cases he
      obtain ⟨rfl, rfl⟩ := hs
      subst hn
  -- The call stays planted, or is planted now.
  case refine_1.entering => exact fun _ => trivial
  case refine_1.removingPending => exact fun _ => trivial
  case refine_1.removingClaimed => exact fun _ => trivial
  case refine_1.writingReturned => exact fun _ => trivial
  -- A pending event is written on entry, and removed on return.
  case refine_2.entering =>
    intro e' he'
    rw [Dir.write, Function.update_self, Option.some.injEq] at he'
    exact ⟨.inl (congrArg Call.inside he'), .inr id⟩
  case refine_2.removingPending =>
    intro e' he'
    rw [Dir.unlink, Function.update_self] at he'
    cases he'
  case refine_2.removingClaimed =>
    intro e' he'
    rw [Dir.unlink, Function.update_of_ne (by simp)] at he'
    obtain ⟨hcall | hcall, -⟩ := hpending e' he' <;> cases hcall
  case refine_2.writingReturned =>
    intro e' he'
    split_ifs at he'
    · rw [Dir.write, Function.update_of_ne (by simp)] at he'
      obtain ⟨hcall | hcall, -⟩ := hpending e' he' <;> cases hcall
    · obtain ⟨hcall | hcall, -⟩ := hpending e' he' <;> cases hcall
  -- The claimed event is removed before the claim counts as revoked.
  case refine_3.entering =>
    intro e' he'
    rw [Dir.write, Function.update_of_ne (by simp)] at he'
    exact ⟨he', fun hrevoked => hrevoked.2⟩
  case refine_3.removingPending =>
    intro e' he'
    rw [Dir.unlink, Function.update_of_ne (by simp)] at he'
    exact ⟨he', fun hrevoked => hrevoked.2⟩
  case refine_3.removingClaimed =>
    intro e' he'
    rw [Dir.unlink, Function.update_self] at he'
    cases he'
  case refine_3.writingReturned =>
    intro e' he'
    split_ifs at he'
    · rw [Dir.write, Function.update_of_ne (by simp)] at he'
      exact ⟨he', fun hrevoked => hrevoked.1 trivial⟩
    · exact ⟨he', fun hrevoked => hrevoked.1 trivial⟩

/-- The oldest item is one of them, and no item is older. -/
theorem oldest_mem : ∀ (o : Overdue) (os : List Overdue), oldest o os ∈ o :: os ∧
    ∀ o' ∈ o :: os, (oldest o os).entered ≤ o'.entered
  | o, [] => by
    rw [oldest]
    refine ⟨List.mem_cons_self .., fun o' ho' => ?_⟩
    obtain rfl | ho' := List.mem_cons.mp ho'
    · exact le_rfl
    · cases ho'
  | o, o₁ :: os => by
    rw [oldest]
    split_ifs with hlt
    · obtain ⟨hmem, hle⟩ := oldest_mem o₁ os
      refine ⟨List.mem_cons_of_mem o hmem, fun o' ho' => ?_⟩
      obtain rfl | ho' := List.mem_cons.mp ho'
      · exact (hle o₁ (List.mem_cons_self ..)).trans hlt.le
      · exact hle o' ho'
    · obtain ⟨hmem, hle⟩ := oldest_mem o os
      have hfirst := hle o (List.mem_cons_self ..)
      refine ⟨?_, fun o' ho' => ?_⟩
      · obtain heq | hmem := List.mem_cons.mp hmem
        · exact List.mem_cons.mpr (.inl heq)
        · exact List.mem_cons_of_mem o (List.mem_cons_of_mem o₁ hmem)
      · obtain rfl | ho' := List.mem_cons.mp ho'
        · exact hfirst
        obtain rfl | ho' := List.mem_cons.mp ho'
        · exact hfirst.trans (not_lt.mp hlt)
        · exact hle o' (List.mem_cons_of_mem o ho')

/-- A step of the watcher that changes no file and claims nothing. -/
theorem Inv.of_watcher (h : Inv selector s) {w : Watcher}
    (hclaiming : ∀ o, s.watcher = .claiming o → (s.dir (.pending o.path)).isSome → w = s.watcher)
    (hok : WatcherOk { s with watcher := w }) : Inv selector { s with watcher := w } where
  absent := h.absent
  event := h.event
  pending := h.pending
  claimed := h.claimed
  chosen n hn := by
    obtain ⟨hp, hchosen⟩ := h.chosen n hn
    refine ⟨hp, fun hsome => ?_⟩
    obtain ⟨o, ho, rfl⟩ := hchosen hsome
    exact ⟨o, (hclaiming o ho hsome).trans ho, rfl⟩
  choices := h.choices
  claims := h.claims
  watcher := hok

/-- A pending event is that of its call. -/
theorem Inv.event_of_pending (h : Inv selector s) {n : ℕ} {e : Event}
    (he : s.dir (.pending n) = some e) : (s.calls n).event = some e := by
  obtain ⟨hcall | hcall, -⟩ := h.pending n e he <;> rw [hcall] <;> rfl

/-- The call of a pending event is planted, and was chosen only if it is being claimed. -/
theorem Inv.of_pending (h : Inv selector s) {n : ℕ} {e : Event} (he : s.dir (.pending n) = some e) :
    e.callId = n ∧ (s.calls n).Planted ∧ ¬(s.calls n).Revoked ∧
      (n ∈ s.choices → ∃ o, s.watcher = .claiming o ∧ o.path = n) := by
  obtain ⟨hcall, -⟩ := h.pending n e he
  refine ⟨h.event n e (h.event_of_pending he), ?_, ?_, fun hn => ?_⟩
  · obtain hcall | hcall := hcall <;> rw [hcall] <;> trivial
  · obtain hcall | hcall := hcall <;> rw [hcall] <;> exact id
  · exact (h.chosen n hn).2 (Option.isSome_iff_exists.mpr ⟨e, he⟩)

/-- The invariant after the choice of an item. -/
theorem Inv.choose (h : Inv selector s) {now : ℚ} {o : Overdue} {os : List Overdue}
    (hw : s.watcher = .reading now [] (o :: os)) :
    Inv selector { s with
      watcher := .claiming (oldest o os), choices := s.choices ++ [(oldest o os).path] } := by
  have hok := h.watcher
  rw [WatcherOk, hw] at hok
  obtain ⟨hid, hplanted, hfresh⟩ := hok.2 _ (oldest_mem o os).1
  refine ⟨h.absent, h.event, h.pending, h.claimed, fun n hn => ?_, ?_, ?_, ?_⟩
  · obtain hn | hn := List.mem_append.mp hn
    · obtain ⟨hp, hchosen⟩ := h.chosen n hn
      refine ⟨hp, fun hsome => ?_⟩
      obtain ⟨o', ho', -⟩ := hchosen hsome
      rw [hw] at ho'
      cases ho'
    · rw [List.mem_singleton] at hn
      subst hn
      exact ⟨hplanted, fun _ => ⟨_, rfl, rfl⟩⟩
  · rw [← List.concat_eq_append]
    exact List.Nodup.concat hfresh h.choices
  · exact ⟨h.claims.1, List.Subset.trans h.claims.2 (List.subset_append_left _ _)⟩
  · exact ⟨hid, List.mem_append_right _ (List.mem_singleton.mpr rfl)⟩

/-- The invariant after a claim. -/
theorem Inv.claim (h : Inv selector s) {o : Overdue} {d : Dir} (hw : s.watcher = .claiming o)
    (hd : s.dir.replace (.pending o.path) (.claimed o.callId) = some d) :
    Inv selector { s with
      dir := d, watcher := .checkingReturned o.callId, claims := s.claims ++ [o.callId] } := by
  have hok := h.watcher
  rw [WatcherOk, hw] at hok
  obtain ⟨hid, hchosen⟩ := hok
  obtain ⟨e, he, -⟩ := Option.map_eq_some_iff.mp hd
  have hnew := (h.pending _ e he).2
  refine ⟨h.absent, h.event, fun n e' he' => ?_, fun n e' he' => ?_, fun n hn => ?_, h.choices,
    ⟨?_, ?_⟩, trivial⟩
  · dsimp only at he' ⊢
    rw [Dir.replace_pending hd] at he'
    split_ifs at he' with hn
    obtain ⟨hcall, hnot⟩ := h.pending n e' he'
    refine ⟨hcall, fun hmem => ?_⟩
    obtain hmem | hmem := List.mem_append.mp hmem
    · exact hnot hmem
    · exact hn ((List.mem_singleton.mp hmem).trans hid)
  · dsimp only at he' ⊢
    rw [Dir.replace_claimed hd] at he'
    split_ifs at he' with hn
    · rw [hn, hid]
      exact (h.of_pending he).2.2.1
    · exact h.claimed n e' he'
  · obtain ⟨hp, hpending⟩ := h.chosen n hn
    refine ⟨hp, fun hsome => ?_⟩
    dsimp only at hsome
    rw [Dir.replace_pending hd] at hsome
    split_ifs at hsome with hn
    · cases hsome
    · obtain ⟨o', ho', hpath⟩ := hpending hsome
      rw [hw] at ho'
      cases ho'
      exact absurd hpath.symm hn
  · rw [← List.concat_eq_append]
    exact List.Nodup.concat (hid ▸ hnew) h.claims.1
  · refine List.append_subset.mpr ⟨h.claims.2, List.cons_subset.mpr ⟨?_, List.nil_subset _⟩⟩
    rwa [hid]

/-- The invariant after the watcher has read the pending event of a call. -/
theorem Inv.read (h : Inv selector s) {now : ℚ} {n : ℕ} {names : List ℕ} {overdue : List Overdue}
    (hw : s.watcher = .reading now (n :: names) overdue) {items : List Overdue}
    (hitems : ∀ o ∈ items, ∃ e, s.dir (.pending n) = some e ∧ o = ⟨e.callId, e.time, n⟩) :
    Inv selector { s with watcher := .reading now names (overdue ++ items) } := by
  have hok := h.watcher
  rw [WatcherOk, hw] at hok
  obtain ⟨hnames, hoverdue⟩ := hok
  rw [List.forall_mem_cons] at hnames
  refine h.of_watcher (fun o ho => nomatch hw.symm.trans ho) ⟨hnames.2, fun o ho => ?_⟩
  obtain ho | ho := List.mem_append.mp ho
  · exact hoverdue o ho
  · obtain ⟨e, he, rfl⟩ := hitems o ho
    exact ⟨(h.of_pending he).1, hnames.1⟩

/-- The invariant after a step of the watcher. -/
theorem Inv.watch (h : Inv selector s) {listed : List ℕ}
    (hs : watch selector pendingSecs s listed = some s') : Inv selector s' := by
  unfold Probe.watch at hs
  split at hs
  case h_1 hw =>
    cases hs
    refine h.of_watcher (fun o ho => nomatch hw.symm.trans ho) ?_
    unfold WatcherOk
    split_ifs <;> trivial
  case h_2 now hw =>
    split_ifs at hs with hlisted
    cases hs
    refine h.of_watcher (fun o ho => nomatch hw.symm.trans ho) ⟨fun n hn => ?_, nofun⟩
    obtain ⟨e, he⟩ := Option.isSome_iff_exists.mp (hlisted.2.1 n hn)
    obtain ⟨-, hplanted, -, hchosen⟩ := h.of_pending he
    refine ⟨hplanted, fun hmem => ?_⟩
    obtain ⟨o, ho, -⟩ := hchosen hmem
    exact nomatch hw.symm.trans ho
  case h_3 now n names overdue hw =>
    -- Only an event that is found adds an item.
    have hskip := h.read hw (List.forall_mem_nil _)
    rw [List.append_nil] at hskip
    split at hs
    case h_1 e he =>
      split_ifs at hs
      · cases hs
        exact h.read hw fun o ho => ⟨e, he, List.mem_singleton.mp ho⟩
      · cases hs
        exact hskip
    case h_2 =>
      cases hs
      exact hskip
  case h_4 hw =>
    cases hs
    exact h.of_watcher (fun o ho => nomatch hw.symm.trans ho) trivial
  case h_5 hw =>
    cases hs
    exact h.choose hw
  case h_6 o hw =>
    split at hs
    case h_1 d hd =>
      cases hs
      exact h.claim hw hd
    case h_2 hd =>
      cases hs
      refine h.of_watcher (fun o' ho' hsome => ?_) trivial
      -- The pending event of the choice is gone.
      obtain ⟨e, he⟩ := Option.isSome_iff_exists.mp hsome
      cases hw.symm.trans ho'
      rw [Dir.replace, he] at hd
      cases hd
  case h_7 hw =>
    cases hs
    refine h.of_watcher (fun o ho => nomatch hw.symm.trans ho) ?_
    unfold WatcherOk
    split_ifs <;> trivial
  case h_8 hw =>
    cases hs
    refine h.of_watcher (fun o ho => nomatch hw.symm.trans ho) ?_
    unfold WatcherOk
    split_ifs <;> trivial
  case h_9 c hw =>
    cases hs
    have hpolling := h.of_watcher (w := .polling) (fun o ho => nomatch hw.symm.trans ho) trivial
    have hkeep : ∀ {f : File} {e : Event}, s.dir.unlink (.claimed c) f = some e →
        s.dir f = some e := Dir.unlink_eq_some
    refine ⟨h.absent, h.event, fun n e he => hpolling.pending n e (hkeep he),
      fun n e he => hpolling.claimed n e (hkeep he), fun n hn => ?_, h.choices, h.claims, trivial⟩
    obtain ⟨hp, hchosen⟩ := hpolling.chosen n hn
    refine ⟨hp, fun hsome => hchosen ?_⟩
    obtain ⟨e, he⟩ := Option.isSome_iff_exists.mp hsome
    exact Option.isSome_iff_exists.mpr ⟨e, hkeep he⟩
  case h_10 hw =>
    cases hs
    have hdone := h.of_watcher (w := .done) (fun o ho => nomatch hw.symm.trans ho) trivial
    exact ⟨hdone.absent, hdone.event, hdone.pending, hdone.claimed, hdone.chosen, hdone.choices,
      hdone.claims, trivial⟩
  case h_11 => cases hs

/-- The invariant after the entry of a call. -/
theorem Inv.enter (h : Inv selector s) {c : Call} {e : Event} (he : c.event = some e)
    (hid : e.callId = s.nextCallId) (hrevoked : ¬c.Revoked) :
    Inv selector { s with
      nextCallId := s.nextCallId + 1, calls := Function.update s.calls s.nextCallId c } := by
  have hnew := h.absent s.nextCallId le_rfl
  have hother : ∀ m, (s.calls m).Planted → m ≠ s.nextCallId := by
    rintro m hp rfl
    rw [hnew] at hp
    exact hp
  refine ⟨fun m hm => ?_, fun m e' he' => ?_, fun m e' he' => ?_, fun m e' he' => ?_,
    fun m hm => ?_, h.choices, h.claims, ?_⟩
  · dsimp only at hm ⊢
    rw [Function.update_of_ne (by omega)]
    exact h.absent m (by omega)
  · dsimp only at he'
    by_cases hm : m = s.nextCallId
    · rw [hm, Function.update_self, he, Option.some.injEq] at he'
      rw [← he', hid, hm]
    · rw [Function.update_of_ne hm] at he'
      exact h.event m e' he'
  · dsimp only at he' ⊢
    rw [Function.update_of_ne (hother m (h.of_pending he').2.1)]
    exact h.pending m e' he'
  · dsimp only at he' ⊢
    by_cases hm : m = s.nextCallId
    · rwa [hm, Function.update_self]
    · rw [Function.update_of_ne hm]
      exact h.claimed m e' he'
  · have hchosen := h.chosen m hm
    dsimp only at hm ⊢
    rwa [Function.update_of_ne (hother m hchosen.1)]
  · refine h.watcher.of_calls rfl rfl fun m hp => ?_
    dsimp only
    rwa [Function.update_of_ne (hother m hp)]

/-- The invariant after a call starts to return. -/
theorem Inv.ret (h : Inv selector s) {n : ℕ} {e : Event} (hn : s.calls n = .inside e) :
    Inv selector { s with calls := Function.update s.calls n (.removingPending e) } := by
  refine h.of_call (d := s.dir) (e := e) (by rw [hn]; rfl) rfl (fun _ => trivial)
    (fun _ _ => ⟨rfl, rfl⟩) (fun e' he' => ?_) (fun e' he' => ⟨he', fun hrevoked => hrevoked.2⟩)
  obtain ⟨hcall | hcall, -⟩ := h.pending n e' he'
  · rw [hn, Call.inside.injEq] at hcall
    exact ⟨.inr (congrArg Call.removingPending hcall), .inl he'⟩
  · rw [hn] at hcall
    cases hcall

/-- The invariant after a step of the session. -/
theorem Inv.step (h : Inv selector s) {a : Action}
    (hs : step selector pendingSecs s a = some s') : Inv selector s' := by
  cases a with
  | tick d =>
    cases hs
    exact ⟨h.absent, h.event, h.pending, h.claimed, h.chosen, h.choices, h.claims, h.watcher⟩
  | install =>
    cases hs
    exact ⟨h.absent, h.event, h.pending, h.claimed, h.chosen, h.choices, h.claims, h.watcher⟩
  | enter sel =>
    unfold Probe.step at hs
    dsimp only at hs
    split_ifs at hs
    all_goals
      cases hs
      exact h.enter rfl rfl id
  | ret n =>
    unfold Probe.step at hs
    dsimp only at hs
    split at hs
    · rename_i e hn
      cases hs
      exact h.ret hn
    · cases hs
  | callback n =>
    obtain ⟨⟨d, c⟩, hc, rfl⟩ := Option.map_eq_some_iff.mp hs
    exact h.callback hc
  | watch names => exact h.watch hs
  | quit =>
    unfold Probe.step at hs
    dsimp only at hs
    split at hs
    · rename_i hw
      cases hs
      exact h.of_watcher (fun o ho => nomatch hw.symm.trans ho) trivial
    · cases hs

end DarwinVm.Probe
