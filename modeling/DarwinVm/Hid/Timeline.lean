import DarwinVm.Hid.Accounting

/-!
# The timeline of the operations

Every queued operation is given a timestamp: the host's time since the start of the gesture, put on
the guest's clock, but never later than now. `Serves` says what the timestamps of a record should be,
and `timestamps` that they are, and never go back, as long as no record comes so long after the start
of its gesture that the time does not fit 64 bits (`InTime`).
-/

namespace DarwinVm.Hid

/-- What the timestamps depend on. -/
structure Timeline where
  base_mach : UInt64
  base_host_ms : Int64
  /-- How often the clock has been read. -/
  reads : ℕ

/-- The timeline in the locked data. -/
def Shared.timeline (s : Shared) : Timeline :=
  ⟨s.gesture_base_mach, s.gesture_base_host_ms, s.clock_reads⟩

/-- A record is timed from the start of the gesture. -/
def Timeline.Timed (t : Timeline) (host_ms : Int64) : Prop :=
  host_ms ≠ 0 ∧ t.base_mach ≠ 0 ∧ t.base_host_ms ≤ host_ms

/-- The milliseconds from the start of the gesture. -/
def Timeline.elapsed (t : Timeline) (host_ms : Int64) : ℕ :=
  (host_ms.toInt - t.base_host_ms.toInt).toNat

variable (cfg : Config)

/-- Milliseconds in ticks of the clock, rounded down. -/
def ticks (d : ℕ) : ℕ := d * 1000000 * cfg.timebase_denom.toNat / cfg.timebase_numer.toNat

/-- The difference, the products and the sum of a timestamp are what they are in exact arithmetic. -/
def Timeline.Fits (t : Timeline) (host_ms : Int64) : Prop :=
  t.Timed host_ms →
    t.elapsed host_ms < 2 ^ 63 ∧
      t.elapsed host_ms * 1000000 * cfg.timebase_denom.toNat < 2 ^ 64 ∧
      t.base_mach.toNat + ticks cfg (t.elapsed host_ms) < 2 ^ 64

/-- The timestamp in exact arithmetic: the time in the gesture, or now if that is earlier. -/
def Timeline.IsStamp (t : Timeline) (host_ms : Int64) (ts : UInt64) : Prop :=
  (t.Timed host_ms →
    ts.toNat = min (cfg.clock t.reads).toNat (t.base_mach.toNat + ticks cfg (t.elapsed host_ms))) ∧
  (¬t.Timed host_ms → ts = cfg.clock t.reads)

/-- What the timestamps of a record's operations should be: between the readings of the clock that
start a gesture, each is the exact one, and nothing overflows. -/
inductive Serves (host_ms : Int64) : Timeline → List UInt64 → Timeline → Prop
  | done (t : Timeline) : Serves host_ms t [] t
  | rebase {t t' : Timeline} {l : List UInt64} :
    Serves host_ms ⟨cfg.clock t.reads, host_ms, t.reads + 1⟩ l t' → Serves host_ms t l t'
  | stamp {t t' : Timeline} {ts : UInt64} {l : List UInt64} :
    t.Fits cfg host_ms → t.IsStamp cfg host_ms ts →
      Serves host_ms { t with reads := t.reads + 1 } l t' → Serves host_ms t (ts :: l) t'

/-- The operations queued between two states have the timestamps that they should have. -/
def Served (host_ms : Int64) (s s' : Shared) : Prop :=
  ∃ l, s'.ops.toList = s.ops.toList ++ l ∧
    Serves cfg host_ms s.timeline (l.map Op.ts) s'.timeline

/-- A record queues an operation that is timed from a gesture which it does not start. -/
def QueuesOnBase (s : Shared) (r : Record) : Prop :=
  s.state = .R ∧ s.ops.len < opQueue ∧
    (s.held ∧ (r.epoch ≠ s.epoch ∨ r.kind = .C ∨ r.kind = .D ∨ r.kind = .M ∨ r.kind = .U) ∨
      r.kind = .W ∧ (¬s.held ∨ r.epoch ≠ s.epoch))

/-- A record does not come too long after the start of its gesture. -/
def InTime (m : Injector) : Label → Prop
  | .record r => QueuesOnBase m.shared r → m.shared.timeline.Fits cfg r.host_ms
  | _ => True

/-- The operations that a step queues have the timestamps that they should have. -/
def Exact (m : Injector) : Label → Prop
  | .record r => Served cfg r.host_ms m.shared (handle cfg false r m.shared).2
  | .eof => Served cfg 0 m.shared (eof cfg m.shared)
  | _ => True

/-- The timestamps of the operations queued never go back. -/
def InOrder (m : Injector) : Prop := (m.history.appended.map Op.ts).Pairwise (· ≤ ·)

instance (t : Timeline) (host_ms : Int64) : Decidable (t.Timed host_ms) :=
  inferInstanceAs (Decidable (_ ∧ _ ∧ _))

instance (t : Timeline) (host_ms : Int64) : Decidable (t.Fits cfg host_ms) :=
  inferInstanceAs (Decidable (_ → _))

instance (s : Shared) (r : Record) : Decidable (QueuesOnBase s r) :=
  inferInstanceAs (Decidable (_ ∧ _ ∧ _))

instance : ∀ (m : Injector) (a : Label), Decidable (InTime cfg m a)
  | _, .record _ => inferInstanceAs (Decidable (_ → _))
  | _, .eof | _, .wake | _, .dispatched _ | _, .relock | _, .recoverBegin | _, .createBegin
  | _, .createEnd _ | _, .recoverEnd | _, .notify | _, .notifyLocked | _, .initialized _ =>
    inferInstanceAs (Decidable True)

/-! ## Exact timestamps -/

variable {cfg}

/-- A signed number as an unsigned one. -/
theorem toNat_toUInt64 (x : Int64) : (x.toUInt64.toNat : ℤ) = x.toInt % 2 ^ 64 := by
  have h := BitVec.toInt_eq_toNat_cond x.toBitVec
  have hx : x.toUInt64.toNat = x.toBitVec.toNat := rfl
  have hi : x.toInt = x.toBitVec.toInt := rfl
  have hlt := x.toBitVec.isLt
  rw [hx, hi, h]
  split_ifs <;> omega

/-- A difference that does not overflow. -/
theorem toNat_sub_of_le {a b : Int64} (hab : a ≤ b) :
    ((b - a).toUInt64.toNat : ℤ) = b.toInt - a.toInt := by
  rw [Int64.toUInt64_sub, UInt64.toNat_sub]
  have ha := toNat_toUInt64 a
  have hb := toNat_toUInt64 b
  have hle := Int64.le_iff_toInt_le.mp hab
  have := a.le_toInt
  have := b.toInt_lt
  omega

/-- The ticks are computed exactly, if nothing overflows. -/
theorem toNat_ticks {d : UInt64} (h : d.toNat * 1000000 * cfg.timebase_denom.toNat < 2 ^ 64) :
    (d * 1000000 * cfg.timebase_denom.toUInt64 / cfg.timebase_numer.toUInt64).toNat =
      ticks cfg d.toNat := by
  have hmillion : (1000000 : UInt64).toNat = 1000000 := rfl
  have hprod : (d * 1000000).toNat * cfg.timebase_denom.toNat =
      d.toNat * 1000000 * cfg.timebase_denom.toNat := by
    rw [UInt64.toNat_mul, hmillion]
    rcases Nat.eq_zero_or_pos cfg.timebase_denom.toNat with hd | hd
    · rw [hd, Nat.mul_zero, Nat.mul_zero]
    · rw [Nat.mod_eq_of_lt (Nat.lt_of_le_of_lt (Nat.le_mul_of_pos_right _ hd) h)]
  rw [UInt64.toNat_div, UInt64.toNat_mul, UInt32.toNat_toUInt64, UInt32.toNat_toUInt64, hprod,
    Nat.mod_eq_of_lt h]
  rfl

/-- The timestamp is the exact one, if nothing overflows. -/
theorem isStamp_of_fits {host_ms : Int64} {s : Shared} (h : s.timeline.Fits cfg host_ms) :
    s.timeline.IsStamp cfg host_ms (timelineTimestamp cfg host_ms s).1 := by
  unfold timelineTimestamp machAbsoluteTime
  dsimp only
  by_cases hnow : host_ms = 0 ∨ s.gesture_base_mach = 0 ∨ host_ms < s.gesture_base_host_ms
  · rw [if_pos hnow]
    refine ⟨fun ht => ?_, fun _ => rfl⟩
    obtain hz | hz | hz := hnow
    · exact absurd hz ht.1
    · exact absurd hz ht.2.1
    · exact absurd ht.2.2 (Int64.not_le.mpr hz)
  · rw [if_neg hnow]
    rw [not_or, not_or, Int64.not_lt] at hnow
    refine ⟨fun ht => ?_, fun ht => absurd hnow ht⟩
    obtain ⟨-, hprod, hsum⟩ := h ht
    have hsub := toNat_sub_of_le hnow.2.2
    have helapsed : s.timeline.elapsed host_ms =
        (host_ms - s.gesture_base_host_ms).toUInt64.toNat := by
      rw [Timeline.elapsed, ← Int.toNat_natCast (host_ms - s.gesture_base_host_ms).toUInt64.toNat,
        hsub]
      rfl
    rw [helapsed] at hprod hsum ⊢
    have hticks := toNat_ticks hprod
    have hts : (s.gesture_base_mach + (host_ms - s.gesture_base_host_ms).toUInt64 * 1000000 *
        cfg.timebase_denom.toUInt64 / cfg.timebase_numer.toUInt64).toNat =
          s.timeline.base_mach.toNat +
            ticks cfg (host_ms - s.gesture_base_host_ms).toUInt64.toNat := by
      rw [UInt64.toNat_add, hticks]
      exact Nat.mod_eq_of_lt hsum
    have hmach : s.timeline.reads = s.clock_reads := rfl
    rw [← hts, hmach]
    split_ifs with hlt
    · rw [UInt64.lt_iff_toNat_lt] at hlt
      exact (Nat.min_eq_right hlt.le).symm
    · rw [UInt64.lt_iff_toNat_lt, not_lt] at hlt
      exact (Nat.min_eq_left hlt).symm

/-! ## The timestamps of a record -/

theorem Serves.append {host_ms : Int64} {t t' t'' : Timeline} {l l' : List UInt64}
    (h : Serves cfg host_ms t l t') (h' : Serves cfg host_ms t' l' t'') :
    Serves cfg host_ms t (l ++ l') t'' := by
  induction h with
  | done => exact h'
  | rebase _ ih => exact .rebase (ih h')
  | stamp hfits hstamp _ ih => exact .stamp hfits hstamp (ih h')

/-- A change of the data that the timestamps do not depend on. -/
theorem Served.of_eq {host_ms : Int64} {s s' : Shared} (hops : s'.ops.toList = s.ops.toList)
    (ht : s'.timeline = s.timeline) : Served cfg host_ms s s' :=
  ⟨[], by rw [hops, List.append_nil], ht ▸ .done _⟩

theorem Served.trans {host_ms : Int64} {s s' s'' : Shared} (h : Served cfg host_ms s s')
    (h' : Served cfg host_ms s' s'') : Served cfg host_ms s s'' := by
  obtain ⟨l, hops, hl⟩ := h
  obtain ⟨l', hops', hl'⟩ := h'
  refine ⟨l ++ l', by rw [hops', hops, List.append_assoc], ?_⟩
  rw [List.map_append]
  exact hl.append hl'

/-- An operation that is queued has the exact timestamp, if nothing overflows. -/
theorem queueOp_served {r : Record} {s : Shared} {kind : OpKind} {x y : ℚ} {down edge : Bool}
    {usage : UInt32} (h : s.ops.len < opQueue → s.timeline.Fits cfg r.host_ms) :
    Served cfg r.host_ms s (queueOp cfg r kind x y down edge usage s).2 := by
  unfold queueOp
  dsimp only
  cases hpush : s.ops.push _ with
  | none => exact .of_eq rfl rfl
  | some ops =>
    have hlen : s.ops.len < opQueue := by
      by_contra hfull
      rw [Ring.push_eq_none.mpr (not_lt.mp hfull)] at hpush
      cases hpush
    refine ⟨_, Ring.toList_push hpush, .stamp (h hlen) (isStamp_of_fits (h hlen)) ?_⟩
    rw [timelineTimestamp_snd]
    exact .done _

/-- The release of a contact. -/
theorem releaseContact_served {r : Record} {s : Shared}
    (h : s.held → s.ops.len < opQueue → s.timeline.Fits cfg r.host_ms) :
    Served cfg r.host_ms s (releaseContact cfg r s).2 := by
  unfold releaseContact
  by_cases hheld : s.held = true
  · rw [if_neg (not_not.mpr hheld)]
    exact queueOp_served (s := { s with held := false }) (h hheld)
  · rw [if_pos hheld]
    exact .of_eq rfl rfl

/-- An operation that starts a gesture has the time of its start. -/
theorem rebase_served (r : Record) (s : Shared) : Served cfg r.host_ms s (rebase cfg r s) :=
  ⟨[], (List.append_nil _).symm, .rebase (.done _)⟩

theorem ticks_zero : ticks cfg 0 = 0 := by simp [ticks]

/-- Nothing overflows at the start of a gesture. -/
theorem fits_rebase (r : Record) (s : Shared) :
    (rebase cfg r s).timeline.Fits cfg r.host_ms := by
  have hzero : (rebase cfg r s).timeline.elapsed r.host_ms = 0 := by
    have hbase : (rebase cfg r s).timeline.base_host_ms = r.host_ms := rfl
    rw [Timeline.elapsed, hbase, Int.sub_self]
    rfl
  intro _
  rw [hzero, ticks_zero]
  exact ⟨by norm_num, by norm_num, UInt64.toNat_lt _⟩

/-- Whether a timestamp overflows depends on the start of the gesture only. -/
theorem Served.fits_congr {r : Record} {s s' : Shared}
    (hmach : s'.gesture_base_mach = s.gesture_base_mach)
    (hhost : s'.gesture_base_host_ms = s.gesture_base_host_ms) :
    s'.timeline.Fits cfg r.host_ms ↔ s.timeline.Fits cfg r.host_ms := by
  unfold Timeline.Fits Timeline.Timed Timeline.elapsed Shared.timeline
  rw [hmach, hhost]

theorem queueOp_base (r : Record) (kind : OpKind) (x y : ℚ) (down edge : Bool) (usage : UInt32)
    (s : Shared) :
    (queueOp cfg r kind x y down edge usage s).2.gesture_base_mach = s.gesture_base_mach ∧
      (queueOp cfg r kind x y down edge usage s).2.gesture_base_host_ms =
        s.gesture_base_host_ms := by
  unfold queueOp
  dsimp only
  rw [timelineTimestamp_snd]
  split <;> exact ⟨rfl, rfl⟩

theorem releaseContact_base (r : Record) (s : Shared) :
    (releaseContact cfg r s).2.gesture_base_mach = s.gesture_base_mach ∧
      (releaseContact cfg r s).2.gesture_base_host_ms = s.gesture_base_host_ms := by
  unfold releaseContact
  split_ifs
  · exact queueOp_base ..
  · exact ⟨rfl, rfl⟩

/-- The release at the start of `handle`. -/
theorem openEpoch_served {r : Record} {s : Shared}
    (h : QueuesOnBase s r → s.timeline.Fits cfg r.host_ms) :
    Served cfg r.host_ms s (openEpoch cfg r s) := by
  unfold openEpoch
  split_ifs with hepoch hstate
  · have hrel := releaseContact_served (r := r) (s := s) fun hheld hlen =>
      h ⟨hstate, hlen, Or.inl ⟨hheld, Or.inl hepoch⟩⟩
    exact hrel.trans (.of_eq rfl rfl)
  · exact .of_eq rfl rfl
  · exact .of_eq rfl rfl

/-- The data after the start of `handle`. -/
theorem openEpoch_spec (r : Record) (s : Shared) :
    (openEpoch cfg r s).state = s.state ∧
      (openEpoch cfg r s).gesture_base_mach = s.gesture_base_mach ∧
      (openEpoch cfg r s).gesture_base_host_ms = s.gesture_base_host_ms ∧
      s.ops.len ≤ (openEpoch cfg r s).ops.len ∧
      ((openEpoch cfg r s).held ↔ s.held ∧ r.epoch = s.epoch) := by
  have ht := (openEpoch_tracks cfg r s).1
  have hbase := @releaseContact_base cfg r s
  refine ⟨ht.state, ?_, ?_, ht.len ▸ Nat.le_add_right .., ?_⟩
  · unfold openEpoch
    split_ifs
    · exact hbase.1
    · rfl
    · rfl
  · unfold openEpoch
    split_ifs
    · exact hbase.2
    · rfl
    · rfl
  · rw [ht.held]
    by_cases hepoch : r.epoch = s.epoch <;> simp [hepoch]

/-- The operations of a record have the timestamps that they should have. -/
theorem handle_served {r : Record} {s : Shared}
    (h : QueuesOnBase s r → s.timeline.Fits cfg r.host_ms) :
    Served cfg r.host_ms s (handle cfg false r s).2 := by
  have hopen := openEpoch_served h
  obtain ⟨hstate, hmach, hhost, hlen, hheld⟩ := openEpoch_spec r s
  unfold handle
  rw [if_neg Bool.false_ne_true]
  dsimp only
  refine hopen.trans ?_
  generalize openEpoch cfg r s = s₁ at *
  rw [← Served.fits_congr hmach hhost] at h
  -- A contact that is still held, and an operation on it.
  have hon (hR : s₁.state = .R) (hs : s₁.held = true)
      (hk : r.kind = .C ∨ r.kind = .D ∨ r.kind = .M ∨ r.kind = .U) (hfull : s₁.ops.len < opQueue) :
      s₁.timeline.Fits cfg r.host_ms :=
    h ⟨hstate ▸ hR, hlen.trans_lt hfull, Or.inl ⟨(hheld.mp hs).1, Or.inr hk⟩⟩
  cases hk : r.kind with
  | P => exact .of_eq rfl rfl
  | C =>
    dsimp only
    split_ifs with hR
    · exact .of_eq rfl rfl
    · exact releaseContact_served fun hs => hon (not_not.mp hR) hs (Or.inl hk)
  | B =>
    dsimp only
    split_ifs with hR
    · exact .of_eq rfl rfl
    · exact (rebase_served r s₁).trans (queueOp_served fun _ => fits_rebase r s₁)
  | W =>
    dsimp only
    split_ifs with hR hs
    · exact .of_eq rfl rfl
    · exact .of_eq rfl rfl
    · refine queueOp_served fun hfull => h ⟨hstate ▸ not_not.mp hR, hlen.trans_lt hfull, Or.inr ⟨hk, ?_⟩⟩
      by_contra hno
      rw [not_or, not_not, not_not] at hno
      exact hs (hheld.mpr hno)
  | D =>
    dsimp only
    split_ifs with hR hs
    · exact .of_eq rfl rfl
    · have hrel := releaseContact_served fun hs => hon (not_not.mp hR) hs (Or.inr (Or.inl hk))
      generalize (releaseContact cfg r s₁).2 = s₂ at *
      have hstart : Served cfg r.host_ms s₂ { rebase cfg r s₂ with
          held := true, held_x := coordinate r.a, held_y := coordinate r.b } := rebase_served r s₂
      exact (hrel.trans hstart).trans (queueOp_served fun _ => fits_rebase r s₂)
    · have hstart : Served cfg r.host_ms s₁ { rebase cfg r s₁ with
          held := true, held_x := coordinate r.a, held_y := coordinate r.b } := rebase_served r s₁
      exact hstart.trans (queueOp_served fun _ => fits_rebase r s₁)
  | M =>
    dsimp only
    split_ifs with hR hs
    · exact .of_eq rfl rfl
    · exact queueOp_served
        (s := { s₁ with held_x := coordinate r.a, held_y := coordinate r.b })
        (hon (not_not.mp hR) hs (Or.inr (Or.inr (Or.inl hk))))
    · exact .of_eq rfl rfl
  | U =>
    dsimp only
    split_ifs with hR hs
    · exact .of_eq rfl rfl
    · exact queueOp_served
        (s := { s₁ with held_x := coordinate r.a, held_y := coordinate r.b, held := false })
        (hon (not_not.mp hR) hs (Or.inr (Or.inr (Or.inr hk))))
    · exact .of_eq rfl rfl

/-- The release at the end of the input has the time of the clock. -/
theorem eof_served (s : Shared) : Served cfg 0 s (eof cfg s) := by
  unfold eof
  split_ifs
  · exact releaseContact_served (r := ⟨s.epoch, 0, 0, 0, 0, .P, 0⟩) fun _ _ ht => absurd rfl ht.1
  · exact .of_eq rfl rfl

/-! ## The order of the timestamps -/

theorem ticks_mono {d d' : ℕ} (h : d ≤ d') : ticks cfg d ≤ ticks cfg d' := by
  unfold ticks
  exact Nat.div_le_div_right (Nat.mul_le_mul_right _ (Nat.mul_le_mul_right _ h))

/-- No timestamp from `host_ms` on is before `ts`: the time of the clock is not, and the time in the
gesture is not either, if there is one. -/
structure Timeline.Bound (cfg : Config) (t : Timeline) (ts : ℕ) (host_ms : Int64) : Prop where
  clock : ts ≤ (cfg.clock t.reads).toNat
  gesture : t.base_mach = 0 ∨
    t.base_host_ms ≤ host_ms ∧ ts ≤ t.base_mach.toNat + ticks cfg (t.elapsed host_ms)

/-- A later record is not stamped earlier. -/
theorem Timeline.Bound.mono {t : Timeline} {ts : ℕ} {host_ms host_ms' : Int64}
    (h : t.Bound cfg ts host_ms) (hle : host_ms ≤ host_ms') : t.Bound cfg ts host_ms' := by
  refine ⟨h.clock, h.gesture.imp_right fun ⟨hbase, hts⟩ => ⟨Int64.le_trans hbase hle, ?_⟩⟩
  refine hts.trans (Nat.add_le_add_left (ticks_mono ?_) _)
  have := Int64.le_iff_toInt_le.mp hle
  unfold Timeline.elapsed
  omega

/-- An exact timestamp is bounded by itself, and not before what the timeline bounds. -/
theorem stamp_bound {t : Timeline} {host_ms : Int64} {ts : UInt64} (hhost : host_ms ≠ 0)
    (hb : t.Bound cfg 0 host_ms) (h : t.IsStamp cfg host_ms ts) :
    t.Bound cfg ts.toNat host_ms ∧ ∀ x, t.Bound cfg x host_ms → x ≤ ts.toNat := by
  obtain hzero | ⟨hle, -⟩ := hb.gesture
  · -- There is no gesture yet.
    have hts := h.2 fun ht => ht.2.1 hzero
    exact ⟨⟨by rw [hts], Or.inl hzero⟩, fun x hx => hts ▸ hx.clock⟩
  · by_cases hmach : t.base_mach = 0
    · have hts := h.2 fun ht => ht.2.1 hmach
      exact ⟨⟨by rw [hts], Or.inl hmach⟩, fun x hx => hts ▸ hx.clock⟩
    · have hts := h.1 ⟨hhost, hmach, hle⟩
      rw [hts]
      refine ⟨⟨Nat.min_le_left _ _, Or.inr ⟨hle, Nat.min_le_right _ _⟩⟩, fun x hx => ?_⟩
      obtain hx' | ⟨-, hx'⟩ := hx.gesture
      · exact absurd hx' hmach
      · exact Nat.le_min.mpr ⟨hx.clock, hx'⟩

/-- The timestamps of a record are in order, after those that bound them, and bound the next ones. -/
theorem Serves.ordered (hclock : ∀ i j, i ≤ j → cfg.clock i ≤ cfg.clock j) {host_ms : Int64}
    (hhost : host_ms ≠ 0) {t t' : Timeline} {l : List UInt64} (h : Serves cfg host_ms t l t')
    {before : List ℕ} (hb : t.Bound cfg 0 host_ms) (hbefore : ∀ ts ∈ before, t.Bound cfg ts host_ms)
    (hord : before.Pairwise (· ≤ ·)) :
    (before ++ l.map UInt64.toNat).Pairwise (· ≤ ·) ∧ t'.Bound cfg 0 host_ms ∧
      ∀ ts ∈ before ++ l.map UInt64.toNat, t'.Bound cfg ts host_ms := by
  induction h generalizing before with
  | done t =>
    rw [List.map_nil, List.append_nil]
    exact ⟨hord, hb, hbefore⟩
  | @rebase t t' l _ ih =>
    have hstart : ∀ ts, t.Bound cfg ts host_ms →
        Timeline.Bound cfg ⟨cfg.clock t.reads, host_ms, t.reads + 1⟩ ts host_ms := by
      intro ts hts
      refine ⟨hts.clock.trans (UInt64.le_iff_toNat_le.mp (hclock _ _ (Nat.le_succ _))), Or.inr ?_⟩
      exact ⟨Int64.le_refl _, hts.clock.trans (Nat.le_add_right ..)⟩
    exact ih (hstart 0 hb) (fun ts hts => hstart ts (hbefore ts hts)) hord
  | @stamp t t' ts l _ hstamp _ ih =>
    have hnext : ∀ x, t.Bound cfg x host_ms →
        Timeline.Bound cfg { t with reads := t.reads + 1 } x host_ms := fun x hx =>
      ⟨hx.clock.trans (UInt64.le_iff_toNat_le.mp (hclock _ _ (Nat.le_succ _))), hx.gesture⟩
    obtain ⟨hts, hge⟩ := stamp_bound hhost hb hstamp
    have hlast : (before ++ [ts.toNat]).Pairwise (· ≤ ·) := by
      rw [List.pairwise_append]
      refine ⟨hord, List.pairwise_singleton _ _, fun x hx y hy => ?_⟩
      rw [List.mem_singleton.mp hy]
      exact hge x (hbefore x hx)
    have hall : ∀ x ∈ before ++ [ts.toNat],
        Timeline.Bound cfg { t with reads := t.reads + 1 } x host_ms := by
      intro x hx
      obtain hx | hx := List.mem_append.mp hx
      · exact hnext x (hbefore x hx)
      · rw [List.mem_singleton.mp hx]
        exact hnext _ hts
    have h := ih (hnext 0 hb) hall hlast
    rwa [List.append_assoc] at h

/-- Without a host time, the timestamps are in order too. -/
theorem Serves.ordered_zero (hclock : ∀ i j, i ≤ j → cfg.clock i ≤ cfg.clock j) {t t' : Timeline}
    {l : List UInt64} (h : Serves cfg 0 t l t') {before : List ℕ}
    (hbefore : ∀ ts ∈ before, ts ≤ (cfg.clock t.reads).toNat) (hord : before.Pairwise (· ≤ ·)) :
    (before ++ l.map UInt64.toNat).Pairwise (· ≤ ·) ∧
      ∀ ts ∈ before ++ l.map UInt64.toNat, ts ≤ (cfg.clock t'.reads).toNat := by
  induction h generalizing before with
  | done t =>
    rw [List.map_nil, List.append_nil]
    exact ⟨hord, hbefore⟩
  | @rebase t t' l _ ih =>
    have hle := UInt64.le_iff_toNat_le.mp (hclock t.reads (t.reads + 1) (Nat.le_succ _))
    exact ih (fun ts hts => (hbefore ts hts).trans hle) hord
  | @stamp t t' ts l _ hstamp _ ih =>
    have hle := UInt64.le_iff_toNat_le.mp (hclock t.reads (t.reads + 1) (Nat.le_succ _))
    have hts := hstamp.2 fun ht => ht.1 rfl
    have hlast : (before ++ [ts.toNat]).Pairwise (· ≤ ·) := by
      rw [List.pairwise_append]
      refine ⟨hord, List.pairwise_singleton _ _, fun x hx y hy => ?_⟩
      rw [List.mem_singleton.mp hy, hts]
      exact hbefore x hx
    have hall : ∀ x ∈ before ++ [ts.toNat], x ≤ (cfg.clock (t.reads + 1)).toNat := by
      intro x hx
      obtain hx | hx := List.mem_append.mp hx
      · exact (hbefore x hx).trans hle
      · rw [List.mem_singleton.mp hx, hts]
        exact hle
    have h := ih hall hlast
    rwa [List.append_assoc] at h

/-! ## Runs -/

/-- What a run keeps while the records still to come are `rs`: the timestamps of the operations queued
are in order, and the next ones are not before them. -/
structure TimelineInv (cfg : Config) (rs : List Record) (m : Injector) : Prop where
  ordered : (m.history.appended.map (UInt64.toNat ∘ Op.ts)).Pairwise (· ≤ ·)
  clock : ∀ o ∈ m.history.appended, o.ts.toNat ≤ (cfg.clock m.shared.clock_reads).toNat
  bound : m.ended = true ∨ ∀ r ∈ rs, m.shared.timeline.Bound cfg 0 r.host_ms ∧
    ∀ o ∈ m.history.appended, m.shared.timeline.Bound cfg o.ts.toNat r.host_ms

/-- A step that leaves the timeline as it is, and queues nothing, keeps the invariant. -/
theorem TimelineInv.of_eq {rs : List Record} {m m' : Injector} (h : TimelineInv cfg rs m)
    (happended : m'.history.appended = m.history.appended)
    (ht : m'.shared.timeline = m.shared.timeline) (hended : m'.ended = m.ended) :
    TimelineInv cfg rs m' := by
  have hreads : m'.shared.clock_reads = m.shared.clock_reads := congrArg Timeline.reads ht
  refine ⟨?_, ?_, ?_⟩
  · rw [happended]
    exact h.ordered
  · rw [happended, hreads]
    exact h.clock
  · rw [happended, ht, hended]
    exact h.bound

/-- A record keeps the invariant. -/
theorem TimelineInv.read (hclock : ∀ i j, i ≤ j → cfg.clock i ≤ cfg.clock j) {r : Record}
    {rs : List Record} {m : Injector} (h : TimelineInv cfg (r :: rs) m) (hended : m.ended = false)
    (hhost : r.host_ms ≠ 0) (hle : ∀ r' ∈ rs, r.host_ms ≤ r'.host_ms)
    (hserved : Served cfg r.host_ms m.shared (handle cfg false r m.shared).2) :
    TimelineInv cfg rs (Injector.read cfg r m) := by
  obtain ⟨l, hops, hserves⟩ := hserved
  have hbound := h.bound.resolve_left (by simp [hended]) r (List.mem_cons_self ..)
  have happended : (Injector.read cfg r m).history.appended = m.history.appended ++ l := by
    rw [← Injector.newOps_eq hops]
    rfl
  have hts : (m.history.appended ++ l).map (UInt64.toNat ∘ Op.ts) =
      m.history.appended.map (UInt64.toNat ∘ Op.ts) ++ (l.map Op.ts).map UInt64.toNat := by
    rw [List.map_append, List.map_map]
  have hall : ∀ ts ∈ m.history.appended.map (UInt64.toNat ∘ Op.ts),
      m.shared.timeline.Bound cfg ts r.host_ms := by
    intro ts hmem
    obtain ⟨o, ho, rfl⟩ := List.mem_map.mp hmem
    exact hbound.2 o ho
  obtain ⟨hord, hzero, hnext⟩ := hserves.ordered hclock hhost hbound.1 hall h.ordered
  rw [← hts] at hord hnext
  have hnext : ∀ o ∈ m.history.appended ++ l, _ := fun o ho =>
    hnext (o.ts.toNat) (List.mem_map_of_mem (f := UInt64.toNat ∘ Op.ts) ho)
  refine ⟨?_, ?_, Or.inr fun r' hr' => ⟨hzero.mono (hle r' hr'), ?_⟩⟩
  · rw [happended]
    exact hord
  · rw [happended]
    exact fun o ho => (hnext o ho).clock
  · rw [happended]
    exact fun o ho => (hnext o ho).mono (hle r' hr')

/-- The end of the input keeps the invariant. -/
theorem TimelineInv.readEnd (hclock : ∀ i j, i ≤ j → cfg.clock i ≤ cfg.clock j) {rs : List Record}
    {m : Injector} (h : TimelineInv cfg rs m) : TimelineInv cfg rs (Injector.readEnd cfg m) := by
  obtain ⟨l, hops, hserves⟩ := eof_served m.shared
  have happended : (Injector.readEnd cfg m).history.appended = m.history.appended ++ l := by
    rw [← Injector.newOps_eq hops]
    rfl
  have hts : (m.history.appended ++ l).map (UInt64.toNat ∘ Op.ts) =
      m.history.appended.map (UInt64.toNat ∘ Op.ts) ++ (l.map Op.ts).map UInt64.toNat := by
    rw [List.map_append, List.map_map]
  have hall : ∀ ts ∈ m.history.appended.map (UInt64.toNat ∘ Op.ts),
      ts ≤ (cfg.clock m.shared.timeline.reads).toNat := by
    intro ts hmem
    obtain ⟨o, ho, rfl⟩ := List.mem_map.mp hmem
    exact h.clock o ho
  obtain ⟨hord, hnext⟩ := hserves.ordered_zero hclock hall h.ordered
  rw [← hts] at hord hnext
  refine ⟨?_, ?_, Or.inl rfl⟩
  · rw [happended]
    exact hord
  · rw [happended]
    exact fun o ho => hnext _ (List.mem_map_of_mem (f := UInt64.toNat ∘ Op.ts) ho)

/-- The worker keeps the invariant at the top of its loop. -/
theorem TimelineInv.loopTop {rs : List Record} {m : Injector} (h : TimelineInv cfg rs m) :
    TimelineInv cfg rs m.loopTop := by
  obtain ⟨-, heq⟩ | ⟨-, -, heq⟩ | ⟨-, o, ops, -, heq⟩ := m.loopTop_cases <;> rw [heq] <;>
    exact h.of_eq rfl rfl rfl

/-- A step keeps the invariant, and queues operations with the timestamps that they should have. -/
theorem TimelineInv.step (hclock : ∀ i j, i ≤ j → cfg.clock i ≤ cfg.clock j) {a : Label}
    {as : List Label} {m m' : Injector} (h : TimelineInv cfg (records (a :: as)) m)
    (hhost : ∀ r ∈ records (a :: as), r.host_ms ≠ 0)
    (hord : (records (a :: as)).Pairwise fun r r' => r.host_ms ≤ r'.host_ms)
    (hin : InTime cfg m a) (hstep : (injector cfg).step m a = some m') :
    Exact cfg m a ∧ TimelineInv cfg (records as) m' := by
  cases Injector.Step.of_step hstep with
  | @record r hended =>
    have hserved := handle_served hin
    rw [records, List.pairwise_cons] at hord
    exact ⟨hserved, h.read hclock hended (hhost r (List.mem_cons_self ..)) hord.1 hserved⟩
  | eof _ => exact ⟨eof_served m.shared, h.readEnd hclock⟩
  | wake _ => exact ⟨trivial, h.loopTop⟩
  | dispatched _ => exact ⟨trivial, h.of_eq rfl rfl rfl⟩
  | @relock ok _ =>
    have hcount : TimelineInv cfg (records as) (m.countFailures ok) := h.of_eq rfl rfl rfl
    exact ⟨trivial, hcount.loopTop⟩
  | recoverBegin _ => exact ⟨trivial, h.of_eq rfl rfl rfl⟩
  | createBegin _ => exact ⟨trivial, h.of_eq rfl rfl rfl⟩
  | createEnd _ => exact ⟨trivial, h.of_eq rfl rfl rfl⟩
  | recoverDone _ => exact ⟨trivial, h.of_eq rfl rfl rfl⟩
  | recoverRetry _ => exact ⟨trivial, h.of_eq rfl rfl rfl⟩
  | notify => exact ⟨trivial, h.of_eq rfl rfl rfl⟩
  | notifyLocked _ => exact ⟨trivial, h.of_eq rfl rfl rfl⟩
  | initialized _ => exact ⟨trivial, h.of_eq rfl rfl rfl⟩

theorem TimelineInv.monotone {rs : List Record} {m : Injector} (h : TimelineInv cfg rs m) :
    InOrder m := by
  have hord := h.ordered
  rw [List.pairwise_map] at hord
  rw [InOrder, List.pairwise_map]
  exact hord.imp fun hle => UInt64.le_iff_toNat_le.mpr hle

/-- The records still to come after a step. -/
theorem records_sublist (a : Label) (as : List Label) :
    (records as).Sublist (records (a :: as)) := by
  cases a with
  | record r => exact List.sublist_cons_self _ _
  | _ => exact List.Sublist.refl _

theorem timestamps_from (hclock : ∀ i j, i ≤ j → cfg.clock i ≤ cfg.clock j) :
    ∀ {as : List Label} {m : Injector}, TimelineInv cfg (records as) m →
      (∀ r ∈ records as, r.host_ms ≠ 0) →
      (records as).Pairwise (fun r r' => r.host_ms ≤ r'.host_ms) →
      (injector cfg).Meets (InTime cfg) m as →
      (injector cfg).Throughout InOrder m as ∧ (injector cfg).Meets (Exact cfg) m as
  | [], m, h, _, _, _ => ⟨h.monotone, trivial⟩
  | a :: as, m, h, hhost, hord, hin => by
    have hsub := records_sublist a as
    have hrun (m' : Injector) (hm' : (injector cfg).step m a = some m') := by
      have hkeep := h.step hclock hhost hord (hin m' hm').1 hm'
      have ih := timestamps_from hclock hkeep.2 (fun r hr => hhost r (hsub.subset hr))
        (hord.sublist hsub) (hin m' hm').2
      exact And.intro hkeep.1 ih
    exact ⟨⟨h.monotone, fun m' hm' => (hrun m' hm').2.1⟩,
      fun m' hm' => ⟨(hrun m' hm').1, (hrun m' hm').2.2⟩⟩

/-- While the host's times of the records do not go back, and no record comes too long after the
start of its gesture, every timestamp is the exact one, and the timestamps never go back. -/
theorem timestamps (hclock : ∀ i j, i ≤ j → cfg.clock i ≤ cfg.clock j) {as : List Label}
    (hhost : ∀ r ∈ records as, r.host_ms ≠ 0)
    (hord : (records as).Pairwise fun r r' => r.host_ms ≤ r'.host_ms)
    (hin : (injector cfg).Meets (InTime cfg) .init as) :
    (injector cfg).Throughout InOrder .init as ∧ (injector cfg).Meets (Exact cfg) .init as := by
  refine timestamps_from hclock ⟨List.Pairwise.nil, List.forall_mem_nil _, Or.inr fun r _ => ?_⟩
    hhost hord hin
  exact ⟨⟨Nat.zero_le _, Or.inl rfl⟩, List.forall_mem_nil _⟩

/-- A clock that is read twice at the start of a gesture, and much later after that. -/
def lateClock : Config := ⟨1, 1, fun i => if i < 2 then 1000 else 50000⟩

theorem lateClock_mono (i j : ℕ) (h : i ≤ j) : lateClock.clock i ≤ lateClock.clock j := by
  unfold lateClock
  dsimp only
  split_ifs
  · exact UInt64.le_refl _
  · decide
  · omega
  · exact UInt64.le_refl _

/-- A contact and a move of it, `d` milliseconds later. -/
def moveAfter (d : Int64) : List Label :=
  [.initialized true, .record ⟨1, 1, 0, 0, 0, .D, 1⟩, .record ⟨1, 2, 9, 9, 0, .M, 1 + d⟩]

/-- The timestamps of a move in time. -/
theorem timestamps_move : (injector lateClock).Throughout InOrder .init (moveAfter 1) ∧
    (injector lateClock).Meets (Exact lateClock) .init (moveAfter 1) :=
  timestamps lateClock_mono (by decide) (by decide) (by decide +kernel)

/-- The records of `moveAfter (2 ^ 58)`. -/
theorem parse_moveAfter : ∀ r ∈ records (moveAfter (2 ^ 58)), ∃ line, parse line = some r := by
  intro r hr
  simp only [moveAfter, records, List.mem_cons, List.not_mem_nil, or_false] at hr
  obtain rfl | rfl := hr
  · exact ⟨ascii "DVMI2 1 1 D 0 0 0 1".toList, by decide +kernel⟩
  · exact ⟨ascii "DVMI2 1 2 M 9 9 0 288230376151711745".toList, by decide +kernel⟩

theorem Serves.reads_le {host_ms : Int64} {t t' : Timeline} {l : List UInt64}
    (h : Serves cfg host_ms t l t') : t.reads + l.length ≤ t'.reads := by
  induction h with
  | done => exact le_rfl
  | rebase _ ih => exact (Nat.add_le_add_right (Nat.le_succ _) _).trans ih
  | stamp _ _ _ ih =>
    rw [List.length_cons]
    dsimp only at ih
    omega

/-- If the clock is read once for one timestamp, nothing overflows. -/
theorem Serves.fits {host_ms : Int64} {t t' : Timeline} {ts : UInt64}
    (h : Serves cfg host_ms t [ts] t') (hreads : t'.reads = t.reads + 1) :
    t.Fits cfg host_ms := by
  cases h with
  | rebase h =>
    have hle := h.reads_le
    rw [List.length_singleton] at hle
    dsimp only at hle
    omega
  | stamp hfits _ _ => exact hfits

/-- The move of `moveAfter (2 ^ 58)`, and the injector before it. -/
def move : Record := ⟨1, 2, 9, 9, 0, .M, 1 + 2 ^ 58⟩

def down : Injector :=
  Injector.read lateClock ⟨1, 1, 0, 0, 0, .D, 1⟩ (Injector.initialized true .init)

theorem len_down : (handle lateClock false move down.shared).2.ops.len = 2 ∧
    down.shared.ops.len = 1 := by
  decide +kernel

theorem reads_down : (handle lateClock false move down.shared).2.timeline.reads =
    down.shared.timeline.reads + 1 := by
  decide +kernel

/-- The time of a move that comes `2 ^ 58` milliseconds after its contact overflows. -/
theorem not_timestamps : ¬∀ (cfg : Config) (as : List Label),
    (∀ i j, i ≤ j → cfg.clock i ≤ cfg.clock j) → (∀ i, 0 < cfg.clock i) →
    0 < cfg.timebase_numer → 0 < cfg.timebase_denom →
    (∀ r ∈ records as, ∃ line, parse line = some r) → (∀ r ∈ records as, r.host_ms ≠ 0) →
    (records as).Pairwise (fun r r' => r.host_ms ≤ r'.host_ms) →
      (injector cfg).Throughout InOrder .init as ∧ (injector cfg).Meets (Exact cfg) .init as := by
  intro h
  have hpos (i : ℕ) : 0 < lateClock.clock i := by
    unfold lateClock
    dsimp only
    split_ifs <;> decide
  have hrun := (h lateClock (moveAfter (2 ^ 58)) lateClock_mono hpos (by decide) (by decide)
    parse_moveAfter (by decide +kernel) (by decide +kernel)).2
  -- The state before the move, and the operations that it queues.
  have hmove : Served lateClock (1 + 2 ^ 58) down.shared (handle lateClock false move down.shared).2 :=
    (((hrun _ rfl).2 _ rfl).2 _ rfl).1
  obtain ⟨l, hops, hserves⟩ := hmove
  have hlen := congrArg List.length hops
  rw [List.length_append, Ring.length_toList, Ring.length_toList, len_down.1, len_down.2] at hlen
  match l with
  | [] => cases hlen
  | _ :: _ :: _ =>
    rw [List.length_cons, List.length_cons] at hlen
    omega
  | [o] =>
    have hfits := hserves.fits reads_down
    revert hfits
    decide +kernel

end DarwinVm.Hid
