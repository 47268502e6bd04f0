import DarwinVm.Power.Service

/-!
# The life of a power source

At every block boundary the service holds the source that it has published, if any, and no other, and
is ready exactly when it holds one; and while it is neither ready nor stopping, one scheduled retry
will try again. `lifecycle` shows this for every order of the blocks and all results of the APIs.
-/

namespace DarwinVm.Power

/-- Does a call create a source? -/
def Call.creates : Call → Bool
  | .create _ _ _ _ source => source.isSome
  | _ => false

/-- Does a call release a source? -/
def Call.releases : Call → Bool
  | .releaseSource _ _ => true
  | _ => false

/-- A creation is made while the service is not stopping, and by a retry only if that carries the
current generation. -/
def Call.Lawful : Call → Prop
  | .create block generation stopping _ _ =>
    stopping = false ∧ ∀ g, block = .retry g → g = generation
  | _ => True

/-- A call that neither creates nor releases a source. -/
def Call.quiet : Call → Bool
  | .create _ _ _ _ _ | .releaseSource _ _ => false
  | _ => true

/-- The number of sources created. -/
def Service.created (s : Service) : ℕ := s.calls.countP Call.creates

/-- The number of sources released. -/
def Service.released (s : Service) : ℕ := s.calls.countP Call.releases

/-- What holds at every block boundary. -/
structure Lifecycle (s : Service) : Prop where
  /-- The sources created and not released are that of the publisher. -/
  outstanding : s.created = s.released + s.publisher.source.isSome.toNat
  ready : s.publisher.ready = s.publisher.source.isSome
  /-- Nothing has been created after `stopping` was set, nor by a superseded retry. -/
  creations : ∀ c ∈ s.calls, c.Lawful
  /-- After a successful initial publication, one retry is current unless the service is ready or
  stopping. -/
  unready : s.published = true → s.publisher.ready = false → s.publisher.stopping = false →
    s.retries.count s.publisher.retry_generation = 1
  current : s.publisher.ready = true → s.retries.count s.publisher.retry_generation = 0

/-! ## What the functions keep -/

/-- The service has `k` sources created and not released, and every creation was lawful. -/
structure Holds (s : Service) (k : ℕ) : Prop where
  outstanding : s.created = s.released + k
  lawful : ∀ c ∈ s.calls, c.Lawful

/-- A quiet call changes no number of sources. -/
theorem Holds.quiet {s s' : Service} {k : ℕ} {c : Call} (h : Holds s k) (hc : c.quiet = true)
    (hcalls : s'.calls = s.calls ++ [c]) : Holds s' k := by
  have hcreates : c.creates = false := by cases c <;> first | rfl | cases hc
  have hreleases : c.releases = false := by cases c <;> first | rfl | cases hc
  have hlawful : c.Lawful := by cases c <;> trivial
  refine ⟨?_, fun c' hc' => ?_⟩
  · have houtstanding := h.outstanding
    simp only [Service.created, Service.released, hcalls, List.countP_append, List.countP_singleton,
      hcreates, hreleases, Bool.false_eq_true, if_false] at houtstanding ⊢
    exact houtstanding
  · rw [hcalls] at hc'
    rcases List.mem_append.1 hc' with hc' | hc'
    · exact h.lawful c' hc'
    · rw [List.mem_singleton.1 hc']
      exact hlawful

/-- A creation counts if it gives a source. -/
theorem Holds.create {s : Service} {k : ℕ} (h : Holds s k) (result : IOReturn)
    (source : Option Source) (hstop : s.publisher.stopping = false)
    (hblock : ∀ g, s.block = .retry g → g = s.publisher.retry_generation) :
    Holds (s.call (.create s.block s.publisher.retry_generation s.publisher.stopping result source))
      (k + source.isSome.toNat) := by
  refine ⟨?_, fun c hc => ?_⟩
  · have houtstanding := h.outstanding
    simp only [Service.created, Service.released, Service.call, List.countP_append,
      List.countP_singleton, Call.creates, Call.releases, Bool.false_eq_true, if_false]
      at houtstanding ⊢
    cases source <;> simp <;> omega
  · rcases List.mem_append.1 hc with hc | hc
    · exact h.lawful c hc
    · rw [List.mem_singleton.1 hc]
      exact ⟨hstop, hblock⟩

/-- A release gives a source back. -/
theorem Holds.release {s : Service} {k : ℕ} (h : Holds s (k + 1)) (source : Source)
    (result : IOReturn) : Holds (s.call (.releaseSource source result)) k := by
  refine ⟨?_, fun c hc => ?_⟩
  · have houtstanding := h.outstanding
    simp only [Service.created, Service.released, Service.call, List.countP_append,
      List.countP_singleton, Call.creates, Call.releases, Bool.false_eq_true, if_false, if_true]
      at houtstanding ⊢
    omega
  · rcases List.mem_append.1 hc with hc | hc
    · exact h.lawful c hc
    · rw [List.mem_singleton.1 hc]
      trivial

/-- What steers the service, and no publication changes. -/
structure Core where
  details : Bool
  stopping : Bool
  phase : Phase
  block : Block

/-- What steers a service, and no publication changes. -/
def Service.core (s : Service) : Core :=
  ⟨s.publisher.details, s.publisher.stopping, s.phase, s.block⟩

/-- The services differ at most in quiet calls, and in whether they own the percentage. -/
structure Steady (s s' : Service) : Prop where
  core : s'.core = s.core
  source : s'.publisher.source = s.publisher.source
  ready : s'.publisher.ready = s.publisher.ready
  generation : s'.publisher.retry_generation = s.publisher.retry_generation
  retries : s'.retries = s.retries
  holds : ∀ k, Holds s k → Holds s' k

theorem Steady.refl (s : Service) : Steady s s := ⟨rfl, rfl, rfl, rfl, rfl, fun _ h => h⟩

theorem Steady.trans {s s' s'' : Service} (h : Steady s s') (h' : Steady s' s'') : Steady s s'' :=
  ⟨h'.core.trans h.core, h'.source.trans h.source, h'.ready.trans h.ready,
    h'.generation.trans h.generation, h'.retries.trans h.retries, fun k hk => h'.holds k (h.holds k hk)⟩

/-- A quiet call. -/
theorem steady_call (s : Service) {c : Call} (hc : c.quiet = true) : Steady s (s.call c) :=
  ⟨rfl, rfl, rfl, rfl, rfl, fun _ h => h.quiet hc rfl⟩

/-- A change of who owns the percentage. -/
theorem steady_percent_owned (s : Service) (b : Bool) :
    Steady s { s with publisher := { s.publisher with percent_owned := b } } :=
  ⟨rfl, rfl, rfl, rfl, rfl, fun _ h => ⟨h.outstanding, h.lawful⟩⟩

variable (apis : APIs)

/-- `withdraw_percent` only makes quiet calls. -/
theorem withdrawPercent_steady (s : Service) : Steady s (withdrawPercent apis s) := by
  unfold withdrawPercent
  split
  · exact Steady.refl s
  · dsimp only
    refine Steady.trans ?_ (steady_percent_owned _ _)
    have hget := fun r w => steady_call s (c := .notifyGetState r w) rfl
    split
    · split
      · exact ((hget _ _).trans (steady_call _ rfl)).trans (steady_call _ rfl)
      · exact (hget _ _).trans (steady_call _ rfl)
    · exact hget _ _

/-- `publish_percent` only makes quiet calls. -/
theorem publishPercent_steady (s : Service) : Steady s (publishPercent apis s).2 := by
  unfold publishPercent
  dsimp only
  refine Steady.trans ?_ (steady_percent_owned _ _)
  refine Steady.trans (Steady.trans ?_ (steady_call _ rfl)) (steady_call _ rfl)
  split
  · exact (steady_call s rfl).trans (steady_call _ rfl)
  · exact steady_call s rfl

/-- `release_current_source` releases the source, if there is one. -/
theorem releaseCurrentSource_spec {s : Service} (hready : s.publisher.ready = s.publisher.source.isSome)
    (hholds : Holds s s.publisher.source.isSome.toNat) :
    let s' := (releaseCurrentSource apis s).2
    Holds s' 0 ∧ s'.publisher.source = none ∧ s'.publisher.ready = false ∧
      s'.publisher.retry_generation = s.publisher.retry_generation ∧ s'.retries = s.retries ∧
      s'.core = s.core := by
  have h := withdrawPercent_steady apis s
  have hholds' := h.holds _ hholds
  unfold releaseCurrentSource
  dsimp only
  split
  · rename_i hsource
    have hnone : s.publisher.source = none := h.source.symm.trans hsource
    rw [hnone] at hready hholds'
    exact ⟨hholds', hsource, h.ready.trans hready, h.generation, h.retries, h.core⟩
  · rename_i source hsource
    have hsome : s.publisher.source = some source := h.source.symm.trans hsource
    rw [hsome] at hholds'
    have hrelease := Holds.release (k := 0) hholds' source
      (apis.release_source (withdrawPercent apis s).calls.length)
    exact ⟨⟨hrelease.outstanding, hrelease.lawful⟩, rfl, rfl, h.generation, h.retries, h.core⟩

/-- What a publication does: it holds a source and is ready, under a new generation, or holds none and
has scheduled a retry under a new generation, if it was to. -/
structure Published (retry_on_failure : Bool) (s : Service) (p : Bool × Service) : Prop where
  holds : Holds p.2 p.1.toNat
  source : p.2.publisher.source.isSome = p.1
  ready : p.2.publisher.ready = p.1
  generation : p.2.publisher.retry_generation =
    if p.1 || retry_on_failure then s.publisher.retry_generation + 1
    else s.publisher.retry_generation
  retries : p.2.retries =
    if !p.1 && retry_on_failure then s.retries ++ [s.publisher.retry_generation + 1] else s.retries
  core : p.2.core = s.core

/-- What has been done before the publication. -/
theorem Published.of_same {retry_on_failure : Bool} {s s' : Service} {p : Bool × Service}
    (h : Published retry_on_failure s' p)
    (hgeneration : s'.publisher.retry_generation = s.publisher.retry_generation)
    (hretries : s'.retries = s.retries) (hcore : s'.core = s.core) :
    Published retry_on_failure s p :=
  ⟨h.holds, h.source, h.ready, hgeneration ▸ h.generation, hgeneration ▸ hretries ▸ h.retries,
    h.core.trans hcore⟩

/-- `publish_source` at `failed`. -/
theorem publishFailed_published (retry_on_failure : Bool) {s : Service} (hholds : Holds s 0)
    (hstop : s.publisher.stopping = false) :
    Published retry_on_failure s (false, publishFailed retry_on_failure s) := by
  unfold publishFailed
  cases retry_on_failure with
  | false => exact ⟨⟨hholds.outstanding, hholds.lawful⟩, rfl, rfl, rfl, rfl, rfl⟩
  | true =>
    dsimp only
    rw [if_pos ⟨rfl, Bool.not_eq_true _ ▸ hstop⟩]
    exact ⟨⟨hholds.outstanding, hholds.lawful⟩, rfl, rfl, rfl, rfl, rfl⟩

/-- A source that is rejected is released. -/
theorem rejectSource_published (source : Source) (retry_on_failure : Bool) {s : Service}
    (hholds : Holds s 1) (hstop : s.publisher.stopping = false) :
    Published retry_on_failure s (false, rejectSource apis source retry_on_failure s) := by
  have h := withdrawPercent_steady apis s
  have hrelease := Holds.release (k := 0) (h.holds 1 hholds) source
    (apis.release_source (withdrawPercent apis s).calls.length)
  have hstop' : (withdrawPercent apis s).publisher.stopping = false :=
    (congrArg Core.stopping h.core).trans hstop
  exact (publishFailed_published retry_on_failure hrelease hstop').of_same h.generation h.retries
    h.core

/-- A source that is accepted becomes that of the publisher. -/
theorem acceptSource_published (source : Source) (retry_on_failure : Bool) {s : Service}
    (hholds : Holds s 1) : Published retry_on_failure s (true, acceptSource source s) :=
  ⟨⟨hholds.outstanding, hholds.lawful⟩, rfl, rfl, rfl, rfl, rfl⟩

/-- A source that has been created is accepted or rejected, or the process ends. -/
theorem validateSource_published (source : Source) (retry_on_failure : Bool) {s : Service}
    (hholds : Holds s 1) (hstop : s.publisher.stopping = false) :
    (validateSource apis source retry_on_failure s).2.phase = .fatal ∨
      Published retry_on_failure s (validateSource apis source retry_on_failure s) := by
  have hreject : ∀ {s' : Service}, Steady s s' →
      Published retry_on_failure s (false, rejectSource apis source retry_on_failure s') :=
    fun {s'} h => (rejectSource_published apis source retry_on_failure (h.holds 1 hholds)
      ((congrArg Core.stopping h.core).trans hstop)).of_same h.generation h.retries h.core
  unfold validateSource
  dsimp only
  have hset := steady_call s (c := .setDetails source (apis.set_details s.calls.length)) rfl
  split
  · exact .inr (hreject hset)
  · generalize verifyPublication apis _ source = verified
    have hverify := hset.trans (steady_call _ (c := .verify verified) rfl)
    have hpercent := hverify.trans (publishPercent_steady apis _)
    cases verified with
    | none => exact .inl rfl
    | some valid =>
      cases valid with
      | false => exact .inr (hreject hverify)
      | true =>
        dsimp only
        split
        · have haccept := acceptSource_published source retry_on_failure (hpercent.holds 1 hholds)
          exact .inr (haccept.of_same hpercent.generation hpercent.retries hpercent.core)
        · exact .inr (hreject hpercent)

/-- A source that is created is released if the creation failed, and validated otherwise. -/
theorem createSource_published (retry_on_failure : Bool) {s : Service} (hholds : Holds s 0)
    (hstop : s.publisher.stopping = false)
    (hblock : ∀ g, s.block = .retry g → g = s.publisher.retry_generation) :
    (createSource apis retry_on_failure s).2.phase = .fatal ∨
      Published retry_on_failure s (createSource apis retry_on_failure s) := by
  unfold createSource
  generalize apis.create s.calls.length = created
  obtain ⟨create_result, source⟩ := created
  have hcreate := hholds.create create_result source hstop hblock
  cases source with
  | none =>
    have hfailed := publishFailed_published retry_on_failure hcreate hstop
    exact .inr (hfailed.of_same rfl rfl rfl)
  | some source =>
    dsimp only
    split
    · have hrelease := fun result => Holds.release (k := 0) hcreate source result
      have hfailed := fun result =>
        publishFailed_published retry_on_failure (hrelease result) hstop
      exact .inr ((hfailed _).of_same rfl rfl rfl)
    · refine (validateSource_published apis source retry_on_failure hcreate hstop).imp id
        fun h => h.of_same rfl rfl rfl

/-- `publish_source`, while the service is not stopping. -/
theorem publishSource_published (retry_on_failure : Bool) {s : Service}
    (hstop : s.publisher.stopping = false) (hdetails : s.publisher.details = true)
    (hready : s.publisher.ready = s.publisher.source.isSome)
    (hholds : Holds s s.publisher.source.isSome.toNat)
    (hblock : ∀ g, s.block = .retry g → g = s.publisher.retry_generation) :
    (publishSource apis retry_on_failure s).2.phase = .fatal ∨
      Published retry_on_failure s (publishSource apis retry_on_failure s) := by
  unfold publishSource
  rw [if_neg (by simp [hstop, hdetails])]
  obtain ⟨hholds₁, -, -, hgeneration, hretries, hcore⟩ :=
    releaseCurrentSource_spec apis hready hholds
  split
  · -- A source that is still there is released first.
    have hstop₁ := (congrArg Core.stopping hcore).trans hstop
    have hblock₁ : (releaseCurrentSource apis s).2.block = s.block := congrArg Core.block hcore
    refine (createSource_published apis retry_on_failure hholds₁ hstop₁ ?_).imp id
      fun h => h.of_same hgeneration hretries hcore
    rw [hblock₁, hgeneration]
    exact hblock
  · rename_i hnone
    rw [Bool.not_eq_true] at hnone
    rw [hnone] at hholds
    exact createSource_published apis retry_on_failure hholds hstop hblock

/-! ## The invariant -/

/-- What every block keeps, besides the life of the source: the scheduled retries carry different
generations, none of which is still to come. -/
structure LifecycleInv (s : Service) : Prop extends Lifecycle s where
  bound : ∀ g ∈ s.retries, g ≤ s.publisher.retry_generation
  nodup : s.retries.Nodup
  details : s.publisher.stopping = false → s.publisher.details = true
  stopped : s.phase = .stopped → s.publisher.stopping = true

/-- What the invariant says of the sources. -/
theorem LifecycleInv.holds {s : Service} (h : LifecycleInv s) :
    Holds s s.publisher.source.isSome.toNat :=
  ⟨h.outstanding, h.creations⟩

/-- A service that is not stopping has not been stopped. -/
theorem LifecycleInv.phase_ne_stopped {s : Service} (h : LifecycleInv s)
    (hstop : s.publisher.stopping = false) : s.phase ≠ .stopped := by
  intro hphase
  rw [h.stopped hphase] at hstop
  cases hstop

/-- A change of fields of which the invariant does not speak. -/
theorem LifecycleInv.of_same {s s' : Service} (h : LifecycleInv s) (hcalls : s'.calls = s.calls)
    (hsource : s'.publisher.source = s.publisher.source)
    (hready : s'.publisher.ready = s.publisher.ready)
    (hgeneration : s'.publisher.retry_generation = s.publisher.retry_generation)
    (hretries : s'.retries = s.retries)
    (hstopping : s'.publisher.stopping = s.publisher.stopping)
    (hdetails : s'.publisher.details = s.publisher.details)
    (hpublished : s'.published = true → s.published = true ∨ s.publisher.ready = true)
    (hphase : s'.phase = .stopped → s.publisher.stopping = true) : LifecycleInv s' := by
  refine ⟨⟨?_, ?_, ?_, fun hp hr hs => ?_, fun hr => ?_⟩, ?_, ?_, fun hs => ?_, fun hp => ?_⟩
  · rw [Service.created, Service.released, hcalls, hsource]
    exact h.outstanding
  · rw [hready, hsource, h.ready]
  · rw [hcalls]
    exact h.creations
  · rw [hready] at hr
    rw [hstopping] at hs
    rw [hretries, hgeneration]
    rcases hpublished hp with hp | hr'
    · exact h.unready hp hr hs
    · rw [hr] at hr'
      cases hr'
  · rw [hready] at hr
    rw [hretries, hgeneration]
    exact h.current hr
  · rw [hretries, hgeneration]
    exact h.bound
  · rw [hretries]
    exact h.nodup
  · rw [hstopping] at hs
    rw [hdetails]
    exact h.details hs
  · rw [hstopping]
    exact hphase hp

/-- A generation after those of the scheduled retries is not among them. -/
theorem count_succ_eq_zero {retries : List ℕ} {generation : ℕ} (h : ∀ g ∈ retries, g ≤ generation) :
    retries.count (generation + 1) = 0 :=
  List.count_eq_zero.2 fun hin => absurd (h _ hin) (Nat.not_succ_le_self generation)

/-- A publication gives the invariant, if it schedules a retry on failure, or if the initial publication
is not taken for a success on failure. -/
theorem Published.inv {retry_on_failure : Bool} {s : Service} {p : Bool × Service}
    (h : Published retry_on_failure s p) (hbound : ∀ g ∈ s.retries, g ≤ s.publisher.retry_generation)
    (hnodup : s.retries.Nodup) (hstop : s.publisher.stopping = false)
    (hdetails : s.publisher.details = true) (hphase : s.phase ≠ .stopped)
    (hretry : retry_on_failure = true ∨ (p.2.published = true → p.1 = true)) : LifecycleInv p.2 := by
  have hgeneration := h.generation
  have hretries := h.retries
  have hstop' : p.2.publisher.stopping = false := (congrArg Core.stopping h.core).trans hstop
  have hdetails' : p.2.publisher.details = true := (congrArg Core.details h.core).trans hdetails
  have hphase' : p.2.phase = s.phase := congrArg Core.phase h.core
  have hzero := count_succ_eq_zero hbound
  refine ⟨⟨?_, h.ready.trans h.source.symm, h.holds.lawful, fun hp hr _ => ?_, fun hr => ?_⟩, ?_, ?_,
    fun _ => hdetails', fun hs => absurd (hphase'.symm.trans hs) hphase⟩
  · rw [h.source]
    exact h.holds.outstanding
  · -- The publication has failed, so it has scheduled a retry.
    rw [h.ready] at hr
    rcases hretry with rfl | hsuccess
    · rw [hretries, hgeneration, hr]
      simp only [Bool.false_or, Bool.not_false, Bool.and_true, if_true, List.count_append, hzero,
        List.count_singleton_self]
    · rw [hsuccess hp] at hr
      cases hr
  · rw [h.ready] at hr
    rw [hretries, hgeneration, hr]
    exact hzero
  · intro g hg
    rw [hretries] at hg
    rw [hgeneration]
    split at hg
    · rename_i hfailed
      rw [Bool.and_eq_true_iff] at hfailed
      rw [hfailed.2, Bool.or_true, if_pos rfl]
      rcases List.mem_append.1 hg with hg | hg
      · exact (hbound g hg).trans (Nat.le_succ _)
      · exact (List.mem_singleton.1 hg).le
    · split
      · exact (hbound g hg).trans (Nat.le_succ _)
      · exact hbound g hg
  · rw [hretries]
    split
    · rw [← List.concat_eq_append, List.nodup_concat]
      exact ⟨List.count_eq_zero.1 hzero, hnodup⟩
    · exact hnodup

/-- The release of the source under a new generation, after which nothing is current. -/
theorem LifecycleInv.supersede_release {s : Service} (h : LifecycleInv s) :
    let s' := (releaseCurrentSource apis (supersede s)).2
    Holds s' 0 ∧ s'.publisher.source = none ∧ s'.publisher.ready = false ∧
      (∀ g ∈ s'.retries, g ≤ s'.publisher.retry_generation) ∧ s'.retries.Nodup ∧
      s'.core = s.core := by
  have hholds : Holds (supersede s) (supersede s).publisher.source.isSome.toNat :=
    ⟨h.outstanding, h.creations⟩
  obtain ⟨hholds', hsource, hready, hgeneration, hretries, hcore⟩ :=
    releaseCurrentSource_spec apis (s := supersede s) h.ready hholds
  refine ⟨hholds', hsource, hready, ?_, ?_, hcore⟩
  · rw [hretries, hgeneration]
    exact fun g hg => (h.bound g hg).trans (Nat.le_succ _)
  · rw [hretries]
    exact h.nodup

/-- A state with nothing to hold, in which the service is stopping. -/
theorem lifecycleInv_of_stopping {s : Service} (hholds : Holds s 0)
    (hsource : s.publisher.source = none) (hready : s.publisher.ready = false)
    (hbound : ∀ g ∈ s.retries, g ≤ s.publisher.retry_generation) (hnodup : s.retries.Nodup)
    (hstop : s.publisher.stopping = true) : LifecycleInv s := by
  refine ⟨⟨?_, ?_, hholds.lawful, fun _ _ hs => ?_, fun hr => ?_⟩, hbound, hnodup, fun hs => ?_,
    fun _ => hstop⟩
  · rw [hsource]
    exact hholds.outstanding
  · rw [hsource]
    exact hready
  · rw [hstop] at hs
    cases hs
  · rw [hready] at hr
    cases hr
  · rw [hstop] at hs
    cases hs

/-! ## The blocks -/

/-- `retry_publish`, once its retry is no longer scheduled. -/
theorem retryPublish_inv {s : Service} (h : LifecycleInv s) (generation : ℕ)
    (hblock : s.block = .retry generation) :
    let s' := retryPublish apis generation { s with retries := s.retries.erase generation }
    s'.phase = .fatal ∨ LifecycleInv s' := by
  have hbound : ∀ g ∈ s.retries.erase generation, g ≤ s.publisher.retry_generation :=
    fun g hg => h.bound g (List.mem_of_mem_erase hg)
  have hnodup : (s.retries.erase generation).Nodup := h.nodup.erase generation
  unfold retryPublish
  dsimp only
  split
  · -- A superseded retry leaves the current one, if any.
    rename_i hguard
    refine .inr ⟨⟨h.outstanding, h.ready, h.creations, fun hp hr hs => ?_, fun hr => ?_⟩, hbound,
      hnodup, h.details, h.stopped⟩
    · have hne : generation ≠ s.publisher.retry_generation := by
        rcases hguard with hs' | hr' | hne
        · exact absurd (hs'.symm.trans hs) (by decide)
        · exact absurd (hr'.symm.trans hr) (by decide)
        · exact hne
      show (s.retries.erase generation).count s.publisher.retry_generation = 1
      rw [List.count_erase_of_ne hne.symm]
      exact h.unready hp hr hs
    · exact Nat.le_zero.1 ((List.erase_sublist.count_le _).trans (h.current hr).le)
  · rename_i hguard
    simp only [not_or, Bool.not_eq_true, ne_eq, not_not] at hguard
    obtain ⟨hstop, -, hgeneration⟩ := hguard
    have hblock' : ∀ g, s.block = .retry g → g = s.publisher.retry_generation := by
      intro g hg
      rw [hblock] at hg
      rw [← hgeneration, Block.retry.inj hg]
    have hpublish := publishSource_published apis true
      (s := { s with retries := s.retries.erase generation }) hstop (h.details hstop) h.ready
      ⟨h.outstanding, h.creations⟩ hblock'
    refine hpublish.imp id fun hp => ?_
    exact hp.inv hbound hnodup hstop (h.details hstop) (h.phase_ne_stopped hstop) (.inl rfl)

/-- `powerd_resync`. -/
theorem powerdResync_inv {s : Service} (h : LifecycleInv s) (token : Int32)
    (hblock : ∀ g, s.block ≠ .retry g) :
    (powerdResync apis token s).phase = .fatal ∨ LifecycleInv (powerdResync apis token s) := by
  unfold powerdResync
  split
  · exact .inr h
  · rename_i hguard
    simp only [not_or, Bool.not_eq_true] at hguard
    have hstop := hguard.1
    split
    · exact .inr (h.of_same rfl rfl rfl rfl rfl rfl rfl .inl h.stopped)
    · obtain ⟨hholds, hsource, hready, hbound, hnodup, hcore⟩ := h.supersede_release apis
      dsimp only
      generalize (releaseCurrentSource apis (supersede s)).2 = s₁ at *
      have hstop₁ : s₁.publisher.stopping = false := (congrArg Core.stopping hcore).trans hstop
      have hdetails₁ : s₁.publisher.details = true :=
        (congrArg Core.details hcore).trans (h.details hstop)
      have hphase₁ : s₁.phase ≠ .stopped :=
        fun hs => h.phase_ne_stopped hstop ((congrArg Core.phase hcore).symm.trans hs)
      have hblock₁ : ∀ g, s₁.block = .retry g → g = s₁.publisher.retry_generation :=
        fun g hg => absurd ((congrArg Core.block hcore).symm.trans hg) (hblock g)
      have hready₁ : s₁.publisher.ready = s₁.publisher.source.isSome := by
        rw [hready, hsource]
        rfl
      have hholds₁ : Holds s₁ s₁.publisher.source.isSome.toNat := by
        rw [hsource]
        exact hholds
      refine (publishSource_published apis true hstop₁ hdetails₁ hready₁ hholds₁ hblock₁).imp id
        fun hp => ?_
      exact hp.inv hbound hnodup hstop₁ hdetails₁ hphase₁ (.inl rfl)

/-- Calls and other fields of which the invariant does not speak, once nothing is held. -/
theorem Holds.of_calls {s s' : Service} {k : ℕ} (h : Holds s k) (hcalls : s'.calls = s.calls) :
    Holds s' k := by
  refine ⟨?_, ?_⟩
  · rw [Service.created, Service.released, hcalls]
    exact h.outstanding
  · rw [hcalls]
    exact h.lawful

/-- `notify_cancel` is a quiet call. -/
theorem cancelToken_steady (token : Int32) (s : Service) : Steady s (cancelToken token s) := by
  unfold cancelToken
  split
  · exact steady_call s rfl
  · exact Steady.refl s

/-- A service that stops. -/
theorem LifecycleInv.stop {s : Service} (h : LifecycleInv s) :
    LifecycleInv { s with publisher := { s.publisher with stopping := true } } := by
  refine ⟨⟨h.outstanding, h.ready, h.creations, fun _ _ hs => ?_, h.current⟩, h.bound, h.nodup,
    fun hs => ?_, fun _ => rfl⟩
  · cases hs
  · cases hs

/-- `shutdown_on_queue`. -/
theorem shutdownOnQueue_inv {s : Service} (h : LifecycleInv s) :
    LifecycleInv (shutdownOnQueue apis s) := by
  unfold shutdownOnQueue
  split
  · exact h
  · have hholds : Holds (stop s) (stop s).publisher.source.isSome.toNat := h.stop.holds.of_calls rfl
    have hcancel := cancelToken_steady s.publisher.resync_token (stop s)
    dsimp only
    generalize cancelToken s.publisher.resync_token (stop s) = s₁ at hcancel ⊢
    have hready₁ : s₁.publisher.ready = s₁.publisher.source.isSome := by
      rw [hcancel.ready, hcancel.source]
      exact h.ready
    have hholds₁ : Holds s₁ s₁.publisher.source.isSome.toNat := by
      rw [hcancel.source]
      exact hcancel.holds _ hholds
    obtain ⟨hholds₂, hsource, hready, hgeneration, hretries, hcore⟩ :=
      releaseCurrentSource_spec apis hready₁ hholds₁
    have hcancel' := cancelToken_steady (releaseCurrentSource apis s₁).2.publisher.percent_token
      (releaseCurrentSource apis s₁).2
    have hretries' := (hcancel'.retries.trans hretries).trans hcancel.retries
    have hgeneration' := (hcancel'.generation.trans hgeneration).trans hcancel.generation
    have hcore' := (hcancel'.core.trans hcore).trans hcancel.core
    refine lifecycleInv_of_stopping ((hcancel'.holds 0 hholds₂).of_calls rfl)
      (hcancel'.source.trans hsource) (hcancel'.ready.trans hready) ?_ ?_
      (congrArg Core.stopping hcore')
    · intro g hg
      have hg' : g ∈ s.retries := hretries' ▸ hg
      exact (h.bound g hg').trans ((Nat.le_succ _).trans hgeneration'.ge)
    · show (cancelToken _ _).retries.Nodup
      rw [hretries']
      exact h.nodup

/-- The block after an initial failure. -/
theorem initialFailed_inv {s : Service} (h : LifecycleInv s) : LifecycleInv (initialFailed apis s) := by
  obtain ⟨hholds, hsource, hready, hbound, hnodup, hcore⟩ := h.stop.supersede_release apis
  exact lifecycleInv_of_stopping (hholds.of_calls rfl) hsource hready hbound hnodup
    (congrArg Core.stopping hcore)

/-- The end of `main` after an initial failure. -/
theorem finish_inv {s : Service} (h : LifecycleInv s) (hphase : s.phase = .stopped) :
    LifecycleInv (finish s) := by
  have hcancel := (steady_call s (c := .notifyCancel s.publisher.resync_token) rfl).holds _ h.holds
  have hstop := h.stopped hphase
  refine ⟨⟨hcancel.outstanding, h.ready, hcancel.lawful, h.unready, h.current⟩, h.bound, h.nodup,
    fun hs => ?_, fun _ => hstop⟩
  exact absurd (hstop.symm.trans hs) (by decide)

/-- The initial publication. -/
theorem initialPublish_inv {s : Service} (h : LifecycleInv s) (hphase : s.phase = .registered)
    (hblock : s.block = .initial) :
    (initialPublish apis s).phase = .fatal ∨ LifecycleInv (initialPublish apis s) := by
  -- What holds after the publication.
  have hpublish : (publishSource apis false s).2.phase = .fatal ∨
      LifecycleInv { (publishSource apis false s).2 with
        publisher := { (publishSource apis false s).2.publisher with
          initial_publish_complete := true }
        published := (publishSource apis false s).1 } ∧
      (publishSource apis false s).2.core = s.core := by
    cases hstop : s.publisher.stopping with
    | true =>
      have heq : publishSource apis false s = (false, s) := by simp [publishSource, hstop]
      rw [heq]
      exact .inr ⟨h.of_same rfl rfl rfl rfl rfl rfl rfl nofun h.stopped, rfl⟩
    | false =>
      have hblock' : ∀ g, s.block = .retry g → g = s.publisher.retry_generation := by
        rw [hblock]
        exact nofun
      refine (publishSource_published apis false hstop (h.details hstop) h.ready h.holds hblock').imp
        id fun hp => ⟨?_, hp.core⟩
      have hp' : Published false s ((publishSource apis false s).1,
          { (publishSource apis false s).2 with
            publisher := { (publishSource apis false s).2.publisher with
              initial_publish_complete := true }
            published := (publishSource apis false s).1 }) :=
        ⟨hp.holds.of_calls rfl, hp.source, hp.ready, hp.generation, hp.retries, hp.core⟩
      exact hp'.inv h.bound h.nodup hstop (h.details hstop) (by rw [hphase]; decide) (.inr id)
  unfold initialPublish
  dsimp only
  generalize publishSource apis false s = p at hpublish ⊢
  rcases hpublish with hfatal | ⟨hinv, hcore⟩
  · rw [if_pos hfatal]
    exact .inl hfatal
  · have hphase' : p.2.phase = .registered := (congrArg Core.phase hcore).trans hphase
    have hblock' : p.2.block = .initial := (congrArg Core.block hcore).trans hblock
    rw [if_neg (by rw [hphase']; decide)]
    split
    · -- A resync has come before the initial publication.
      have hresync := powerdResync_inv apis (s := { p.2 with
          publisher := { p.2.publisher with
            initial_publish_complete := true
            resync_pending := false }
          published := p.1 })
        (hinv.of_same rfl rfl rfl rfl rfl rfl rfl .inl hinv.stopped) p.2.publisher.resync_token
        (by rw [hblock']; exact nofun)
      rcases hresync with hfatal | hinv'
      · rw [if_pos hfatal]
        exact .inl hfatal
      · split
        · exact .inr hinv'
        · refine .inr (hinv'.of_same rfl rfl rfl rfl rfl rfl rfl .inl fun hs => ?_)
          dsimp only at hs
          split at hs <;> cases hs
    · refine .inr (hinv.of_same rfl rfl rfl rfl rfl rfl rfl .inl fun hs => ?_)
      dsimp only at hs
      split at hs <;> cases hs

/-- A block keeps the invariant, unless it ends the process. -/
theorem lifecycleInv_step {s s' : Service} {b : Block} (h : LifecycleInv s)
    (hs : s.step apis b = some s') : s'.phase = .fatal ∨ LifecycleInv s' := by
  have hb : LifecycleInv { s with block := b } :=
    h.of_same rfl rfl rfl rfl rfl rfl rfl .inl h.stopped
  cases b with
  | registerPercent result token =>
    simp only [Service.step] at hs
    split at hs
    · split at hs
      · obtain rfl := Option.some.inj hs
        exact .inl rfl
      · obtain rfl := Option.some.inj hs
        exact .inr (hb.of_same rfl rfl rfl rfl rfl rfl rfl .inl nofun)
    · cases hs
  | registerResync result token =>
    simp only [Service.step] at hs
    split at hs
    · obtain rfl := Option.some.inj hs
      refine .inr (hb.of_same rfl rfl rfl rfl rfl rfl rfl .inl fun hp => ?_)
      dsimp only at hp
      split at hp <;> cases hp
    · cases hs
  | initial =>
    simp only [Service.step] at hs
    split at hs
    · rename_i hphase
      obtain rfl := Option.some.inj hs
      exact initialPublish_inv apis hb hphase rfl
    · cases hs
  | retry generation =>
    simp only [Service.step] at hs
    split at hs
    · obtain rfl := Option.some.inj hs
      exact retryPublish_inv apis hb generation rfl
    · cases hs
  | resync token =>
    simp only [Service.step] at hs
    split at hs
    · obtain rfl := Option.some.inj hs
      exact powerdResync_inv apis hb token nofun
    · cases hs
  | shutdown signal_number =>
    simp only [Service.step] at hs
    split at hs
    · obtain rfl := Option.some.inj hs
      exact .inr (shutdownOnQueue_inv apis hb)
    · cases hs
  | initialFailed =>
    simp only [Service.step] at hs
    split at hs
    · obtain rfl := Option.some.inj hs
      exact .inr (initialFailed_inv apis hb)
    · cases hs
  | finish =>
    simp only [Service.step] at hs
    split at hs
    · rename_i hphase
      obtain rfl := Option.some.inj hs
      exact .inr (finish_inv hb hphase)
    · cases hs

/-- In every run, for all results of the APIs: unless `fatal` has ended the process in the middle of a
block, the life of the source is in order at every block boundary. -/
theorem lifecycle (apis : APIs) (bs : List Block) :
    (service apis).Throughout (fun s => s.phase ≠ .fatal → Lifecycle s) .init bs := by
  have hinit : LifecycleInv .init :=
    ⟨⟨rfl, rfl, by simp [Service.init], nofun, nofun⟩, by simp [Service.init], List.nodup_nil,
      fun _ => rfl, nofun⟩
  have hstep : ∀ s b s', (s.phase = .fatal ∨ LifecycleInv s) → (service apis).step s b = some s' →
      (s'.phase = .fatal ∨ LifecycleInv s') := by
    rintro s b s' (hfatal | hinv) hs
    · -- After `fatal`, no block runs any more.
      exfalso
      cases b <;> simp [service, Service.step, hfatal, Phase.alive] at hs
    · exact lifecycleInv_step apis hinv hs
  refine (System.throughout_of_step hstep (.inr hinit) bs).mono fun s hs hfatal => ?_
  rcases hs with hs | hs
  · exact absurd hs hfatal
  · exact hs.toLifecycle

end DarwinVm.Power
