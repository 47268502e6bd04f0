import DarwinVm.Hid.Injector

/-!
# Dispatches are accounted for

The worker reports the result of every dispatch on a line of its own, under the identity of the record
that queued the operation. `dispatch_accounting` counts the lines of each record: one for each
operation that it queued, once the queue has drained, less those that a recovery has flushed. A record
queues at most one operation, or two when it takes over from a held contact.
-/

namespace DarwinVm.Hid

open Injector (Step)

/-- The number of operations of an identity. -/
def opCount (id : UInt32 × UInt32) (l : List Op) : ℕ := (l.map Op.ident).count id

@[simp] theorem opCount_nil (id : UInt32 × UInt32) : opCount id [] = 0 := rfl

@[simp] theorem opCount_append (id : UInt32 × UInt32) (l l' : List Op) :
    opCount id (l ++ l') = opCount id l + opCount id l' := by
  rw [opCount, List.map_append, List.count_append]
  rfl

/-- Operations of one identity are counted under it. -/
theorem opCount_of_ident {id : UInt32 × UInt32} {l : List Op} (h : ∀ o ∈ l, o.ident = id) :
    opCount id l = l.length := by
  rw [opCount, List.map_congr_left h, List.map_const', List.count_replicate_self]

/-- Operations of another identity are not counted. -/
theorem opCount_of_ident_ne {id id' : UInt32 × UInt32} {l : List Op} (h : ∀ o ∈ l, o.ident = id)
    (hne : id ≠ id') : opCount id' l = 0 := by
  rw [opCount, List.map_congr_left h, List.map_const', List.count_replicate, if_neg]
  simpa using hne

/-- The number of DVMI2D lines of an identity. -/
def Injector.lines (m : Injector) (id : UInt32 × UInt32) : ℕ := (m.history.reports.map Prod.fst).count id

/-- The operation in the dispatch call. -/
def Worker.inflight : Worker → List Op
  | .dispatching o => [o]
  | .idle | .reported _ | .recovering | .attempting _ | .creating _ | .created _ _ => []

/-- Nothing is queued or being dispatched. -/
def Injector.drained (m : Injector) : Prop := m.shared.ops.toList = [] ∧ m.worker.inflight = []

/-- The completion lines of each identity, up to the release at the end of input, which has sequence
number zero. -/
structure Accounted (m : Injector) : Prop where
  /-- A record has at most one line, or two if it took over from a held contact. -/
  atMost : ∀ h ∈ m.history.handled, m.lines h.record.ident ≤
    (if h.replaced then 2 else 1) + opCount h.record.ident m.history.eofQueued
  /-- Once the queue has drained, a record none of whose operations has been flushed has a line for
  each of them. -/
  drained : ∀ h ∈ m.history.handled, m.drained → opCount h.record.ident m.history.flushed = 0 →
    m.lines h.record.ident = h.queued.length + opCount h.record.ident m.history.eofQueued
  /-- There are no other lines. -/
  other : ∀ id, (∀ h ∈ m.history.handled, h.record.ident ≠ id) →
    m.lines id ≤ opCount id m.history.eofQueued
  eof : m.history.eofQueued.length ≤ 1 ∧ ∀ o ∈ m.history.eofQueued, o.seq = 0

/-- The records of a run. -/
def records : List Label → List Record
  | [] => []
  | .record r :: as => r :: records as
  | _ :: as => records as

/-- A record has another identity than all those handled before it. -/
def Fresh (m : Injector) : Label → Prop
  | .record r => ∀ h ∈ m.history.handled, h.record.ident ≠ r.ident
  | _ => True

/-- What every run keeps: each operation queued has been reported or flushed, or is being dispatched,
or is in the queue; and the operations queued are those of the records handled and of the release at
the end of input. -/
structure AccountInv (m : Injector) : Prop where
  conserved : ∀ id, opCount id m.history.appended = m.lines id + opCount id m.history.flushed +
    opCount id m.worker.inflight + opCount id m.shared.ops.toList
  appended : m.history.appended = (m.history.handled.flatMap Handled.queued) ++ m.history.eofQueued
  ident : ∀ h ∈ m.history.handled, ∀ o ∈ h.queued, o.ident = h.record.ident
  length : ∀ h ∈ m.history.handled, h.queued.length ≤ if h.replaced then 2 else 1
  distinct : (m.history.handled.map fun h => h.record.ident).Nodup
  eof : m.history.eofQueued.length ≤ 1 ∧ ∀ o ∈ m.history.eofQueued, o.seq = 0
  ended : m.ended = false → m.history.eofQueued = []

/-- A record queues at most one operation, or two when it takes over from a held contact. -/
theorem length_effect_queued (ready newEpoch held : Bool) (free : ℕ) (kind : Kind) :
    (effect ready newEpoch held free kind).queued.length ≤
      if ready && held && (kind = .D || (newEpoch && (kind = .B || kind = .W))) then 2 else 1 := by
  rcases free with _ | _ | free <;> cases ready <;> cases newEpoch <;> cases held <;> cases kind <;>
    simp [effect, Effect.put, Effect.release]

/-- The operations of a record among those of records with distinct identities. -/
theorem opCount_flatMap {hs : List Handled} {h : Handled}
    (hident : ∀ h ∈ hs, ∀ o ∈ h.queued, o.ident = h.record.ident)
    (hdistinct : (hs.map fun h => h.record.ident).Nodup) (hmem : h ∈ hs) :
    opCount h.record.ident (hs.flatMap Handled.queued) = h.queued.length := by
  induction hs with
  | nil => cases hmem
  | cons h' hs ih =>
    simp only [List.mem_cons, forall_eq_or_imp, List.map_cons, List.nodup_cons] at hident hdistinct
    have hne : ∀ h ∈ hs, h.record.ident ≠ h'.record.ident :=
      fun h hh heq => hdistinct.1 (heq ▸ List.mem_map_of_mem hh)
    rw [List.flatMap_cons, opCount_append]
    rcases List.mem_cons.1 hmem with rfl | hmem
    · rw [opCount_of_ident hident.1, Nat.add_eq_left]
      refine List.count_eq_zero.2 fun hin => ?_
      obtain ⟨o, ho, heq⟩ := List.mem_map.1 hin
      obtain ⟨h'', hh'', ho⟩ := List.mem_flatMap.1 ho
      exact hne h'' hh'' ((hident.2 h'' hh'' o ho).symm.trans heq)
    · rw [ih hident.2 hdistinct.2 hmem, opCount_of_ident_ne hident.1 (hne h hmem).symm, Nat.zero_add]

/-- The invariant gives the accounts. -/
theorem AccountInv.accounted {m : Injector} (hm : AccountInv m) : Accounted m := by
  have hcount : ∀ h ∈ m.history.handled, opCount h.record.ident m.history.appended =
      h.queued.length + opCount h.record.ident m.history.eofQueued := by
    intro h hh
    rw [hm.appended, opCount_append, opCount_flatMap hm.ident hm.distinct hh]
  refine ⟨fun h hh => ?_, fun h hh hdrained hflushed => ?_, fun id hid => ?_, hm.eof⟩
  · have hconserved := hm.conserved h.record.ident
    have hlength := hm.length h hh
    rw [hcount h hh] at hconserved
    omega
  · have hconserved := hm.conserved h.record.ident
    rw [hcount h hh, hflushed, hdrained.1, hdrained.2] at hconserved
    exact hconserved.symm
  · have hconserved := hm.conserved id
    have hzero : opCount id (m.history.handled.flatMap Handled.queued) = 0 := by
      refine List.count_eq_zero.2 fun hin => ?_
      obtain ⟨o, ho, heq⟩ := List.mem_map.1 hin
      obtain ⟨h, hh, ho⟩ := List.mem_flatMap.1 ho
      exact hid h hh ((hm.ident h hh o ho).symm.trans heq)
    rw [hm.appended, opCount_append, hzero] at hconserved
    omega

/-- A step that leaves the reader's side as it is, and only moves operations on, keeps the
invariant. -/
theorem AccountInv.of_moved {m m' : Injector} (h : AccountInv m)
    (happended : m'.history.appended = m.history.appended)
    (hhandled : m'.history.handled = m.history.handled)
    (heof : m'.history.eofQueued = m.history.eofQueued) (hended : m'.ended = m.ended)
    (hmoved : ∀ id, m'.lines id + opCount id m'.history.flushed + opCount id m'.worker.inflight +
      opCount id m'.shared.ops.toList = m.lines id + opCount id m.history.flushed +
        opCount id m.worker.inflight + opCount id m.shared.ops.toList) : AccountInv m' := by
  refine ⟨fun id => ?_, ?_, ?_, ?_, ?_, ?_, ?_⟩
  · rw [hmoved, happended, h.conserved]
  · rw [happended, hhandled, heof, h.appended]
  · rw [hhandled]
    exact h.ident
  · rw [hhandled]
    exact h.length
  · rw [hhandled]
    exact h.distinct
  · rw [heof]
    exact h.eof
  · rw [hended, heof]
    exact h.ended

/-- The top of the worker's loop keeps the invariant: it moves the queue to the flushed operations, or
its head to the dispatch call. -/
theorem AccountInv.loopTop {m : Injector} (h : AccountInv m) (hinflight : m.worker.inflight = []) :
    AccountInv m.loopTop := by
  rcases m.loopTop_cases with ⟨-, heq⟩ | ⟨-, -, heq⟩ | ⟨-, o, ops, hops, heq⟩
  · rw [heq]
    refine h.of_moved rfl rfl rfl rfl fun id => ?_
    show m.lines id + opCount id (m.history.flushed ++ m.shared.ops.toList) + opCount id [] +
      opCount id m.shared.ops.clear.toList = _
    rw [hinflight, opCount_append, Ring.toList_clear, opCount_nil]
    omega
  · rw [heq]
    refine h.of_moved rfl rfl rfl rfl fun id => ?_
    rw [hinflight]
    rfl
  · rw [heq]
    refine h.of_moved rfl rfl rfl rfl fun id => ?_
    show m.lines id + opCount id m.history.flushed + opCount id [o] + opCount id ops.toList = _
    have hhead : opCount id (o :: ops.toList) = opCount id [o] + opCount id ops.toList :=
      opCount_append id [o] ops.toList
    rw [hinflight, hops, hhead, opCount_nil]
    omega

/-- Operations that the reader queues are accounted for. -/
theorem conserved_queue {m m' : Injector} {l : List Op} (h : AccountInv m)
    (happended : m'.history.appended = m.history.appended ++ l)
    (hreports : m'.history.reports = m.history.reports)
    (hflushed : m'.history.flushed = m.history.flushed) (hworker : m'.worker = m.worker)
    (hops : m'.shared.ops.toList = m.shared.ops.toList ++ l) (id : UInt32 × UInt32) :
    opCount id m'.history.appended = m'.lines id + opCount id m'.history.flushed +
      opCount id m'.worker.inflight + opCount id m'.shared.ops.toList := by
  rw [happended, opCount_append, h.conserved, Injector.lines, Injector.lines, hreports, hflushed,
    hworker, hops, opCount_append]
  omega

/-- A step at which no identity comes again keeps the invariant. -/
theorem accountInv_step {cfg : Config} {m m' : Injector} {a : Label} (h : AccountInv m)
    (ha : Fresh m a) (hs : Step cfg m a m') : AccountInv m' := by
  cases hs with
  | @record r hended =>
    obtain ⟨s, l, heq, -, -, -, hops, hmarks, hident⟩ := Injector.read_spec cfg r m
    have hlength : l.length ≤ if Injector.replaces m.shared r then 2 else 1 := by
      rw [← List.length_map Op.mark, hmarks]
      exact length_effect_queued _ _ _ _ _
    rw [heq]
    refine ⟨conserved_queue h rfl rfl rfl rfl hops, ?_, ?_, ?_, ?_, h.eof, h.ended⟩
    · show m.history.appended ++ l =
        (m.history.handled ++ [_]).flatMap Handled.queued ++ m.history.eofQueued
      rw [h.appended, h.ended hended, List.flatMap_append, List.flatMap_singleton, List.append_nil,
        List.append_nil]
    · intro h' hh' o ho
      rcases List.mem_append.1 hh' with hh' | hh'
      · exact h.ident h' hh' o ho
      · obtain rfl := List.mem_singleton.1 hh'
        exact hident o ho
    · intro h' hh'
      rcases List.mem_append.1 hh' with hh' | hh'
      · exact h.length h' hh'
      · obtain rfl := List.mem_singleton.1 hh'
        exact hlength
    · show ((m.history.handled ++ [_]).map _).Nodup
      rw [List.map_append, List.map_singleton, ← List.concat_eq_append, List.nodup_concat]
      refine ⟨fun hin => ?_, h.distinct⟩
      obtain ⟨h', hh', heq'⟩ := List.mem_map.1 hin
      exact ha h' hh' heq'
  | eof hended =>
    obtain ⟨s, l, heq, -, -, -, hops, hmarks, hident⟩ := Injector.readEnd_spec cfg m
    have hlength : l.length ≤ 1 := by
      rw [← List.length_map Op.mark, hmarks]
      unfold Effect.release Effect.put
      split_ifs <;> simp
    rw [heq]
    refine ⟨conserved_queue h rfl rfl rfl rfl hops, ?_, h.ident, h.length, h.distinct, ?_, nofun⟩
    · show m.history.appended ++ l = m.history.handled.flatMap Handled.queued ++ l
      rw [h.appended, h.ended hended, List.append_nil]
    · exact ⟨hlength, fun o ho => congrArg Prod.snd (hident o ho)⟩
  | wake hw => exact h.loopTop (by rw [hw]; rfl)
  | @dispatched o ok hw =>
    refine h.of_moved rfl rfl rfl rfl fun id => ?_
    have hlines : (Injector.report o ok m).lines id = m.lines id + opCount id [o] := by
      show ((m.history.reports ++ [(o.ident, ok)]).map Prod.fst).count id = _
      rw [List.map_append, List.count_append]
      rfl
    show (Injector.report o ok m).lines id + opCount id m.history.flushed + opCount id [] +
      opCount id m.shared.ops.toList = _
    rw [hlines, hw, opCount_nil]
    show _ = m.lines id + opCount id m.history.flushed + opCount id [o] + _
    omega
  | @relock ok hw =>
    have hcount : AccountInv (Injector.countFailures ok m) :=
      h.of_moved rfl rfl rfl rfl fun _ => rfl
    refine hcount.loopTop ?_
    show m.worker.inflight = []
    rw [hw]
    rfl
  | recoverBegin hw | createBegin hw | createEnd hw | recoverDone hw | recoverRetry hw =>
    refine h.of_moved rfl rfl rfl rfl fun id => ?_
    rw [hw]
    rfl
  | notify => exact h.of_moved rfl rfl rfl rfl fun _ => rfl
  | notifyLocked hn => exact h.of_moved rfl rfl rfl rfl fun _ => rfl
  | initialized hi => exact h.of_moved rfl rfl rfl rfl fun _ => rfl

/-- The records handled are those of the run, so that distinct identities are fresh ones. -/
theorem meets_fresh {cfg : Config} {m : Injector} {as : List Label}
    (h : ((m.history.handled.map Handled.record ++ records as).map Record.ident).Nodup) :
    (injector cfg).Meets Fresh m as := by
  induction as generalizing m with
  | nil => trivial
  | cons a as ih =>
    intro m' hm'
    have hs : Step cfg m a m' := Step.of_step hm'
    have hother : m'.history.handled = m.history.handled → records (a :: as) = records as →
        (injector cfg).Meets Fresh m' as := by
      intro hhandled hrecords
      refine ih ?_
      rw [hhandled, ← hrecords]
      exact h
    have hloop : ∀ n : Injector, n.loopTop.history.handled = n.history.handled := by
      intro n
      rcases n.loopTop_cases with ⟨-, heq⟩ | ⟨-, -, heq⟩ | ⟨-, o, ops, -, heq⟩ <;> rw [heq] <;> rfl
    cases hs with
    | @record r hended =>
      obtain ⟨s, l, heq, -⟩ := Injector.read_spec cfg r m
      have hhandled : (Injector.read cfg r m).history.handled.map Handled.record =
          m.history.handled.map Handled.record ++ [r] := by
        rw [heq]
        exact List.map_append
      refine ⟨fun h' hh' heq' => ?_, ih ?_⟩
      · rw [List.map_append, List.nodup_append] at h
        refine h.2.2 _ ?_ _ (List.mem_map_of_mem List.mem_cons_self) heq'
        exact List.mem_map_of_mem (List.mem_map_of_mem hh')
      · rw [hhandled, List.append_assoc]
        exact h
    | eof hended =>
      obtain ⟨s, l, heq, -⟩ := Injector.readEnd_spec cfg m
      exact ⟨trivial, hother (by rw [heq]; rfl) rfl⟩
    | wake hw => exact ⟨trivial, hother (hloop m) rfl⟩
    | relock hw => exact ⟨trivial, hother (hloop _) rfl⟩
    | dispatched hw | recoverBegin hw | createBegin hw | createEnd hw | recoverDone hw
    | recoverRetry hw | notify | notifyLocked hn | initialized hi =>
      exact ⟨trivial, hother rfl rfl⟩

/-- In every run over records with distinct identities, in every state: the completion lines of each
record are those of the operations that it has queued. -/
theorem dispatch_accounting (cfg : Config) (as : List Label)
    (hdistinct : ((records as).map Record.ident).Nodup) :
    (injector cfg).Throughout Accounted .init as := by
  have hinit : AccountInv .init :=
    ⟨fun _ => rfl, rfl, by simp [Injector.init], by simp [Injector.init], List.nodup_nil,
      by simp [Injector.init], fun _ => rfl⟩
  have hfresh : (injector cfg).Meets Fresh .init as := meets_fresh hdistinct
  have hinv : (injector cfg).Throughout AccountInv .init as :=
    System.throughout_of_meets (fun m a m' h ha hs => accountInv_step h ha (Step.of_step hs)) hinit
      hfresh
  exact hinv.mono fun m hm => hm.accounted

/-- A contact that replaces another one, with every dispatch reported. -/
def replacedRun : List Label :=
  [.initialized true, .record ⟨7, 1, 100, 200, 0, .D, 5⟩, .record ⟨7, 2, 110, 220, 0, .D, 9⟩, .wake,
    .dispatched true, .relock, .dispatched true, .relock, .dispatched false]

/-- The accounts of `replacedRun`. -/
theorem dispatch_accounting_replaced : (injector frozen).Throughout Accounted .init replacedRun :=
  dispatch_accounting frozen replacedRun (by decide)

/-- The second record of `replacedRun` has two completion lines. -/
theorem dispatch_accounting_two_lines :
    ¬ ∀ (cfg : Config) (as : List Label), ((records as).map Record.ident).Nodup →
      (injector cfg).Throughout (fun m => ∀ id, m.lines id ≤ 1) .init as := by
  intro h
  have hlines := (h frozen replacedRun (by decide)).mono fun m hm => hm (7, 2)
  revert hlines
  decide

end DarwinVm.Hid
