import DarwinVm.Seed.Copy

/-!
# Errors of a copy

A mode of the helper is fail-closed if it reports success only when every error that `copyfile` has
called back with may be tolerated (`FailClosed`). The callback keeps the rules of its context
(`copyStatus_rules`), so that what one answer says of its callback is true of all callbacks of a copy
that has succeeded (`copyEntries_ok`). In the mode that copies the data an error that may not be
tolerated is answered with `COPYFILE_QUIT`. In the full mode it never is.
-/

namespace DarwinVm.Seed

section Helper

variable {strcmpNull : Bytes → Except Stop Bool} {calls : Calls} {source dest : Bytes}
  {listing : Listing} {ctx ctx' : Context} {cb : Callback} {answer rc : ℤ}

/-! ## Callbacks -/

/-- What the answers of the callback depend on. -/
def Context.rules (ctx : Context) : Option Bytes × Option Bytes × Bool × Bool :=
  (ctx.skip_source, ctx.skip_timezone_source, ctx.abort_on_error, ctx.allow_sandbox_errors)

/-- The callback does not change the rules. -/
theorem copyStatus_rules (h : copyStatus strcmpNull ctx cb = .ok (answer, ctx')) :
    ctx'.rules = ctx.rules := by
  obtain ⟨skips, -, h⟩ := bind_eq_ok.mp h
  cases skips with
  | true =>
    obtain ⟨-, rfl⟩ := Prod.mk.inj (Except.ok.inj h)
    rfl
  | false =>
    rw [if_neg Bool.false_ne_true] at h
    obtain ⟨skipsTimezone, -, h⟩ := bind_eq_ok.mp h
    split_ifs at h
    all_goals
      obtain ⟨-, rfl⟩ := Prod.mk.inj (Except.ok.inj h)
      rfl

/-- An answer that does not tell to quit says something of the callback, in a context with these
rules. -/
def Accepts (strcmpNull : Bytes → Except Stop Bool) (rules : Option Bytes × Option Bytes × Bool × Bool)
    (P : Callback → Prop) : Prop :=
  ∀ ctx cb answer ctx', ctx.rules = rules → copyStatus strcmpNull ctx cb = .ok (answer, ctx') →
    answer ≠ copyfileQuit → P cb

/-- What is true of the entry of a child that has been copied. -/
structure Copied (P : Callback → Prop) (source dest : Bytes) (e : Entry) : Prop where
  source_fits : fits source e = true
  dest_fits : fits dest e = true
  allocated : e.copy.allocated = true
  rc : e.copy.rc = 0
  callbacks : ∀ cb ∈ e.copy.callbacks, P cb

variable {rules : Option Bytes × Option Bytes × Bool × Bool} {P : Callback → Prop}

/-- If no answer tells to quit, each answer says what it says. -/
theorem statuses_ok (hP : Accepts strcmpNull rules P) : ∀ {callbacks : List Callback}
    {ctx ctx' : Context} {quit : Bool}, ctx.rules = rules →
    statuses strcmpNull ctx callbacks = .ok (quit, ctx') →
    ctx'.rules = rules ∧ (quit = false → ∀ cb ∈ callbacks, P cb)
  | [], ctx, ctx', quit, hrules, h => by
    obtain ⟨-, rfl⟩ := Prod.mk.inj (Except.ok.inj h)
    exact ⟨hrules, fun _ => List.forall_mem_nil _⟩
  | cb :: callbacks, ctx, ctx', quit, hrules, h => by
    obtain ⟨⟨answer, ctx₁⟩, hcb, h⟩ := bind_eq_ok.mp h
    obtain ⟨⟨quit₁, ctx₂⟩, hrest, h⟩ := bind_eq_ok.mp h
    obtain ⟨rfl, rfl⟩ := Prod.mk.inj (Except.ok.inj h)
    obtain ⟨hrules₂, hall⟩ := statuses_ok hP ((copyStatus_rules hcb).trans hrules) hrest
    refine ⟨hrules₂, fun hquit => ?_⟩
    rw [Bool.or_eq_false_iff, decide_eq_false_iff_not] at hquit
    exact List.forall_mem_cons.mpr ⟨hP ctx cb answer ctx₁ hrules hcb hquit.1, hall hquit.2⟩

/-- If `copyfile` succeeds, it has not been told to quit. -/
theorem copyTree_ok (hP : Accepts strcmpNull rules P) {copy : Copy} (hrules : ctx.rules = rules)
    (h : copyTree strcmpNull copy ctx = .ok (rc, ctx')) : ctx'.rules = rules ∧
      (rc = 0 → copy.allocated = true ∧ copy.rc = 0 ∧ ∀ cb ∈ copy.callbacks, P cb) := by
  unfold copyTree at h
  split_ifs at h with hallocated
  obtain ⟨⟨quit, ctx₁⟩, hstatuses, h⟩ := bind_eq_ok.mp h
  obtain ⟨rfl, rfl⟩ := Prod.mk.inj (Except.ok.inj h)
  obtain ⟨hrules', hall⟩ := statuses_ok hP hrules hstatuses
  refine ⟨hrules', fun hrc => ?_⟩
  split_ifs at hrc with hquit
  have hnot : quit = false := by
    rw [← Bool.not_eq_true]
    exact fun h => hquit ⟨h, hrc⟩
  exact ⟨hallocated, hrc, hall hnot⟩

/-- If the loop over the children ends with success, all of them have been copied. -/
theorem copyEntries_ok (hP : Accepts strcmpNull rules P) : ∀ {entries : List Entry}
    {ctx ctx' : Context}, ctx.rules = rules →
    copyEntries strcmpNull source dest ctx entries = .ok (0, ctx') →
    ∀ e ∈ entries, isDots e = false → Copied P source dest e
  | [], _, _, _, _ => List.forall_mem_nil _
  | e :: entries, ctx, ctx', hrules, h => by
    unfold copyEntries at h
    split_ifs at h with hdots hfits
    · refine List.forall_mem_cons.mpr ⟨fun hnot => ?_, copyEntries_ok hP hrules h⟩
      rw [hdots] at hnot
      cases hnot
    · obtain ⟨⟨rc, ctx₁⟩, htree, h⟩ := bind_eq_ok.mp h
      obtain ⟨hrules₁, hcopied⟩ := copyTree_ok hP hrules htree
      dsimp only at h
      split_ifs at h with hrc
      · -- A child that has not been copied ends the loop.
        exact absurd (Prod.mk.inj (Except.ok.inj h)).1 hrc
      · rw [not_not] at hrc
        rw [Bool.and_eq_true] at hfits
        obtain ⟨hallocated, hzero, hall⟩ := hcopied hrc
        exact List.forall_mem_cons.mpr ⟨fun _ => ⟨hfits.1, hfits.2, hallocated, hzero, hall⟩,
          copyEntries_ok hP hrules₁ h⟩

/-- If the contents of a directory have been copied, all children have been. -/
theorem copyTreeContents_ok (hP : Accepts strcmpNull rules P) (hrules : ctx.rules = rules)
    (h : copyTreeContents strcmpNull source dest listing ctx = .ok (0, ctx')) :
    listing.opened = true ∧ listing.closed = true ∧
      ∀ e ∈ listing.entries, isDots e = false → Copied P source dest e := by
  unfold copyTreeContents at h
  by_cases hopened : listing.opened = true
  · rw [if_pos hopened] at h
    obtain ⟨⟨rc, ctx₁⟩, hentries, h⟩ := bind_eq_ok.mp h
    dsimp only at h
    split_ifs at h with hclosed
    obtain ⟨rfl, rfl⟩ := Prod.mk.inj (Except.ok.inj h)
    exact ⟨hopened, hclosed, copyEntries_ok hP hrules hentries⟩
  · rw [if_neg hopened] at h
    cases h

theorem require_eq_ok {b : Bool} {u : Unit} : require b = .ok u ↔ b = true := by
  cases b with
  | false => exact ⟨nofun, nofun⟩
  | true => exact ⟨fun _ => rfl, fun _ => rfl⟩

/-! ## Modes -/

/-- The callbacks of all children. A mode that reports success has copied all of them. -/
def raised (listing : Listing) : List Callback :=
  (listing.entries.filter fun e => !isDots e).flatMap fun e => e.copy.callbacks

theorem mem_raised : cb ∈ raised listing ↔
    ∃ e ∈ listing.entries, isDots e = false ∧ cb ∈ e.copy.callbacks := by
  rw [raised, List.mem_flatMap]
  simp only [List.mem_filter, Bool.not_eq_eq_eq_not, Bool.not_true, and_assoc]

/-- The sources that a mode skips. -/
def Mode.skipped : Mode → List Bytes
  | .full _ => [skipSource]
  | .copyData => [skipSource, skipTimezoneSource]

/-- An error that a mode may go on after: its destination may fail, or its source is skipped. -/
def Tolerated (mode : Mode) (cb : Callback) : Prop :=
  allowedSandboxCopyDestination cb.dst = true ∨ ∃ src ∈ mode.skipped, cb.src = some src

/-- If the mode reports success, all errors that it has been told of may be tolerated. -/
def FailClosed (strcmpNull : Bytes → Except Stop Bool) (calls : Calls) (source dest : Bytes)
    (listing : Listing) (mode : Mode) : Prop :=
  (run strcmpNull calls source dest listing mode).Success →
    ∀ cb ∈ raised listing, cb.stage = copyfileErr → Tolerated mode cb

theorem exact_some {got : Option Bytes} {want : Bytes} :
    exact strcmpNull got (some want) = .ok (got = some want) := by
  cases got with
  | none => rfl
  | some got =>
    rw [exact]
    congr 1
    simp only [Option.some.injEq]

/-- With the rules of the mode that copies the data, an error that may not be tolerated is answered
with `COPYFILE_QUIT`. -/
theorem accepts_copyData : Accepts strcmpNull copyDataContext.rules fun cb =>
    cb.stage = copyfileErr → Tolerated .copyData cb := by
  intro ctx cb answer ctx' hrules h hquit hstage
  have hskip : ctx.skip_source = some skipSource := congrArg (fun r => r.1) hrules
  have htimezone : ctx.skip_timezone_source = some skipTimezoneSource :=
    congrArg (fun r => r.2.1) hrules
  have habort : ctx.abort_on_error = true := congrArg (fun r => r.2.2.1) hrules
  have hallow : ctx.allow_sandbox_errors = true := congrArg (fun r => r.2.2.2) hrules
  unfold copyStatus at h
  dsimp only at h
  rw [hskip, htimezone, habort, hallow, exact_some, exact_some] at h
  obtain ⟨skips, hskips, h⟩ := bind_eq_ok.mp h
  cases skips with
  | true => exact Or.inr ⟨_, List.mem_cons_self .., of_decide_eq_true (Except.ok.inj hskips)⟩
  | false =>
    rw [if_neg Bool.false_ne_true] at h
    obtain ⟨skipsTimezone, htimezones, h⟩ := bind_eq_ok.mp h
    cases skipsTimezone with
    | true =>
      have hmem : skipTimezoneSource ∈ Mode.copyData.skipped :=
        List.mem_cons_of_mem _ (List.mem_singleton_self _)
      exact Or.inr ⟨_, hmem, of_decide_eq_true (Except.ok.inj htimezones)⟩
    | false =>
      rw [if_neg Bool.false_ne_true, if_pos ⟨hstage, rfl⟩, Bool.true_and] at h
      by_cases hallowed : allowedSandboxCopyDestination cb.dst = true
      · exact Or.inl hallowed
      · -- The first such error is recorded, and the answer is the same for the others.
        rw [if_neg hallowed] at h
        split_ifs at h
        all_goals exact absurd (Prod.mk.inj (Except.ok.inj h)).1.symm hquit

/-- The mode that copies the data reports success only if all errors may be tolerated. -/
theorem failClosed_copyData : FailClosed strcmpNull calls source dest listing .copyData := by
  intro hsuccess cb hcb hstage
  obtain ⟨u, hcopy⟩ : ∃ u, copyData strcmpNull calls source dest listing = .ok u := by
    unfold Outcome.Success run runCopyData at hsuccess
    cases h : copyData strcmpNull calls source dest listing with
    | error stop =>
      rw [h] at hsuccess
      obtain h | h := hsuccess
      all_goals cases h
    | ok u => exact ⟨u, rfl⟩
  obtain ⟨_, -, h⟩ := bind_eq_ok.mp hcopy
  obtain ⟨_, -, h⟩ := bind_eq_ok.mp h
  obtain ⟨⟨rc, ctx⟩, hcontents, h⟩ := bind_eq_ok.mp h
  obtain ⟨_, hrc, -⟩ := bind_eq_ok.mp h
  obtain rfl := of_decide_eq_true (require_eq_ok.mp hrc)
  obtain ⟨-, -, hcopied⟩ := copyTreeContents_ok accepts_copyData rfl hcontents
  obtain ⟨e, he, hdots, hcb⟩ := mem_raised.mp hcb
  exact (hcopied e he hdots).callbacks cb hcb hstage

/-! ## The full mode -/

/-- The callback returns in the full mode. There a source that is not the skipped one is compared with
a null pointer. -/
def Returns (strcmpNull : Bytes → Except Stop Bool) (cb : Callback) : Prop :=
  cb.src = some skipSource ∨ ∃ b, exact strcmpNull cb.src none = .ok b

/-- The callback counts a file in the full mode. -/
def counted (strcmpNull : Bytes → Except Stop Bool) (cb : Callback) : Bool :=
  cb.what = copyfileRecurseFile && cb.stage = copyfileStart && cb.src ≠ some skipSource &&
    (exact strcmpNull cb.src none).toOption = some false

/-- What it takes for the full mode to make the marker. -/
structure Completes (strcmpNull : Bytes → Except Stop Bool) (calls : Calls) (source dest : Bytes)
    (listing : Listing) (with_aks_setup : Bool) : Prop where
  aks : calls.aks_bootstrap_fs = 0
  mkb : calls.mkb_create = 0
  systembag : calls.systembag ≠ some false
  systembag_writing : calls.systembag_writing ≠ some false
  opened : listing.opened = true
  closed : listing.closed = true
  copied : ∀ e ∈ listing.entries, isDots e = false → Copied (Returns strcmpNull) source dest e
  files : (raised listing).countP (counted strcmpNull) % 2 ^ 64 ≠ 0
  root : calls.root = true
  mobile : calls.mobile = true
  layout : calls.uml_create (if with_aks_setup then 1 else 0) = true
  marker : calls.marker_open = true

/-- With the rules of the full mode, the callback answers whenever it returns. -/
theorem accepts_full : Accepts strcmpNull fullContext.rules (Returns strcmpNull) := by
  intro ctx cb answer ctx' hrules h _
  have hskip : ctx.skip_source = some skipSource := congrArg (fun r => r.1) hrules
  have htimezone : ctx.skip_timezone_source = none := congrArg (fun r => r.2.1) hrules
  unfold copyStatus at h
  dsimp only at h
  rw [hskip, htimezone, exact_some] at h
  obtain ⟨skips, hskips, h⟩ := bind_eq_ok.mp h
  cases skips with
  | true => exact Or.inl (of_decide_eq_true (Except.ok.inj hskips))
  | false =>
    rw [if_neg Bool.false_ne_true] at h
    obtain ⟨skipsTimezone, htimezones, -⟩ := bind_eq_ok.mp h
    exact Or.inr ⟨skipsTimezone, htimezones⟩

/-- A callback that returns in the full mode is never answered with `COPYFILE_QUIT`. -/
theorem copyStatus_full (hrules : ctx.rules = fullContext.rules) (hcb : Returns strcmpNull cb) :
    ∃ answer ctx', copyStatus strcmpNull ctx cb = .ok (answer, ctx') ∧ answer ≠ copyfileQuit ∧
      ctx'.files = if counted strcmpNull cb then increment ctx.files else ctx.files := by
  have hskip : ctx.skip_source = some skipSource := congrArg (fun r => r.1) hrules
  have htimezone : ctx.skip_timezone_source = none := congrArg (fun r => r.2.1) hrules
  have habort : ctx.abort_on_error = false := congrArg (fun r => r.2.2.1) hrules
  unfold copyStatus
  simp only [hskip, htimezone, habort, exact_some, bind, Except.bind, Bool.false_eq_true, and_false,
    if_false]
  by_cases hsource : cb.src = some skipSource
  · have hcounted : counted strcmpNull cb = false := by simp [counted, hsource]
    simp only [hsource, decide_true, if_true, hcounted]
    exact ⟨_, _, rfl, by decide, rfl⟩
  · obtain ⟨b, hb⟩ := hcb.resolve_left hsource
    simp only [hsource, decide_false, Bool.false_eq_true, if_false, hb]
    cases b with
    | true =>
      have hcounted : counted strcmpNull cb = false := by simp [counted, hb, Except.toOption]
      simp only [if_true, hcounted]
      exact ⟨_, _, rfl, by decide, rfl⟩
    | false =>
      have hcounted : counted strcmpNull cb = true ↔
          cb.what = copyfileRecurseFile ∧ cb.stage = copyfileStart := by
        simp [counted, hb, Except.toOption, hsource]
      rw [if_neg Bool.false_ne_true]
      by_cases hfile : cb.what = copyfileRecurseFile ∧ cb.stage = copyfileStart
      · rw [if_pos hfile, if_pos (hcounted.mpr hfile)]
        exact ⟨_, _, rfl, by decide, rfl⟩
      · rw [if_neg hfile, if_neg (fun h => hfile (hcounted.mp h))]
        exact ⟨_, _, rfl, by decide, rfl⟩

/-- The files of a copy that returns in the full mode are counted, and no answer tells it to quit. -/
theorem statuses_full : ∀ {callbacks : List Callback} {ctx : Context},
    ctx.rules = fullContext.rules → ctx.files < 2 ^ 64 →
    (∀ cb ∈ callbacks, Returns strcmpNull cb) →
    ∃ ctx', statuses strcmpNull ctx callbacks = .ok (false, ctx') ∧ ctx'.rules = ctx.rules ∧
      ctx'.files = (ctx.files + callbacks.countP (counted strcmpNull)) % 2 ^ 64
  | [], ctx, _, hfiles, _ => ⟨ctx, rfl, rfl, (Nat.mod_eq_of_lt hfiles).symm⟩
  | cb :: callbacks, ctx, hrules, hfiles, h => by
    rw [List.forall_mem_cons] at h
    obtain ⟨answer, ctx₁, hcb, hquit, hfiles₁⟩ := copyStatus_full hrules h.1
    have hrules₁ := copyStatus_rules hcb
    have hlt : ctx₁.files < 2 ^ 64 := by
      rw [hfiles₁, increment]
      split_ifs <;> omega
    obtain ⟨ctx₂, hrest, hrules₂, hfiles₂⟩ := statuses_full (hrules₁.trans hrules) hlt h.2
    refine ⟨ctx₂, ?_, hrules₂.trans hrules₁, ?_⟩
    · simp only [statuses, hcb, hrest, bind, Except.bind, hquit, decide_false, Bool.false_or]
    · rw [hfiles₂, hfiles₁, increment, List.countP_cons]
      split_ifs <;> omega

/-- The loop over children that can be copied in the full mode ends with success. -/
theorem copyEntries_full : ∀ {entries : List Entry} {ctx : Context},
    ctx.rules = fullContext.rules → ctx.files < 2 ^ 64 →
    (∀ e ∈ entries, isDots e = false → Copied (Returns strcmpNull) source dest e) →
    ∃ ctx', copyEntries strcmpNull source dest ctx entries = .ok (0, ctx') ∧
      ctx'.files = (ctx.files + ((entries.filter fun e => !isDots e).flatMap
        fun e => e.copy.callbacks).countP (counted strcmpNull)) % 2 ^ 64
  | [], ctx, _, hfiles, _ => ⟨ctx, rfl, (Nat.mod_eq_of_lt hfiles).symm⟩
  | e :: entries, ctx, hrules, hfiles, h => by
    rw [List.forall_mem_cons] at h
    unfold copyEntries
    by_cases hdots : isDots e = true
    · rw [if_pos hdots, List.filter_cons_of_neg (by rw [hdots]; decide)]
      exact copyEntries_full hrules hfiles h.2
    · have hchild : isDots e = false := Bool.eq_false_iff.mpr hdots
      have hcopied := h.1 hchild
      obtain ⟨ctx₁, hstatuses, hrules₁, hfiles₁⟩ :=
        statuses_full hrules hfiles hcopied.callbacks
      have hlt : ctx₁.files < 2 ^ 64 := by
        rw [hfiles₁]
        exact Nat.mod_lt _ (by decide)
      obtain ⟨ctx₂, hrest, hfiles₂⟩ := copyEntries_full (hrules₁.trans hrules) hlt h.2
      have htree : copyTree strcmpNull e.copy ctx = .ok (0, ctx₁) := by
        rw [copyTree, if_pos hcopied.allocated, copyfile, hstatuses]
        simp only [bind, Except.bind, hcopied.rc, Bool.false_eq_true, false_and, if_false]
      refine ⟨ctx₂, ?_, ?_⟩
      · rw [if_neg hdots, if_pos (by rw [hcopied.source_fits, hcopied.dest_fits]; rfl), htree]
        exact hrest
      · rw [List.filter_cons_of_pos (by rw [hchild]; rfl), List.flatMap_cons, List.countP_append,
          hfiles₂, hfiles₁]
        omega

/-- The children of a directory can be copied in the full mode, and their files are counted. -/
theorem copyTreeContents_full (hopened : listing.opened = true) (hclosed : listing.closed = true)
    (hcopied : ∀ e ∈ listing.entries, isDots e = false →
      Copied (Returns strcmpNull) source dest e) :
    ∃ ctx, copyTreeContents strcmpNull source dest listing fullContext = .ok (0, ctx) ∧
      ctx.files = (raised listing).countP (counted strcmpNull) % 2 ^ 64 := by
  have hrules : fullContext.rules = fullContext.rules := rfl
  obtain ⟨ctx, hentries, hfiles⟩ := copyEntries_full hrules (by decide) hcopied
  refine ⟨ctx, ?_, ?_⟩
  · rw [copyTreeContents, if_pos hopened, hentries]
    simp only [bind, Except.bind, hclosed, if_true]
  · have hzero : fullContext.files = 0 := rfl
    rw [hfiles, hzero, Nat.zero_add, raised]

theorem initialiseData_eq_ok {u : Unit} : initialiseData calls = .ok u ↔
    calls.aks_bootstrap_fs = 0 ∧ calls.mkb_create = 0 ∧ calls.systembag ≠ some false ∧
      calls.systembag_writing ≠ some false := by
  simp only [initialiseData, bind, bind_eq_ok, require_eq_ok, exists_const, decide_eq_true_eq]

/-- The full mode comes to make the marker exactly if nothing is in its way. -/
theorem fullCopy_eq_ok {with_aks_setup : Bool} {u : Unit} :
    fullCopy strcmpNull calls source dest listing with_aks_setup = .ok u ↔
      Completes strcmpNull calls source dest listing with_aks_setup := by
  constructor
  · intro h
    obtain ⟨_, hinit, h⟩ := bind_eq_ok.mp h
    obtain ⟨⟨rc, ctx⟩, hcontents, h⟩ := bind_eq_ok.mp h
    obtain ⟨_, hrc, h⟩ := bind_eq_ok.mp h
    obtain ⟨_, hfiles, h⟩ := bind_eq_ok.mp h
    obtain ⟨_, hstrings, h⟩ := bind_eq_ok.mp h
    obtain ⟨_, hlayout, hmarker⟩ := bind_eq_ok.mp h
    obtain ⟨haks, hmkb, hsystembag, hwriting⟩ := initialiseData_eq_ok.mp hinit
    obtain rfl := of_decide_eq_true (require_eq_ok.mp hrc)
    obtain ⟨hopened, hclosed, hcopied⟩ := copyTreeContents_ok accepts_full rfl hcontents
    -- There is only one context that the copy can end with.
    obtain ⟨ctx', hcontents', hcount⟩ := copyTreeContents_full hopened hclosed hcopied
    obtain rfl := (Prod.mk.inj (Except.ok.inj (hcontents.symm.trans hcontents'))).2
    have hne := of_decide_eq_true (require_eq_ok.mp hfiles)
    rw [hcount] at hne
    obtain ⟨hroot, hmobile⟩ := Bool.and_eq_true_iff.mp (require_eq_ok.mp hstrings)
    exact ⟨haks, hmkb, hsystembag, hwriting, hopened, hclosed, hcopied, hne, hroot, hmobile,
      require_eq_ok.mp hlayout, require_eq_ok.mp hmarker⟩
  · intro h
    obtain ⟨ctx, hcontents, hcount⟩ := copyTreeContents_full h.opened h.closed h.copied
    have hinit : initialiseData calls = .ok () :=
      initialiseData_eq_ok.mpr ⟨h.aks, h.mkb, h.systembag, h.systembag_writing⟩
    have hne : ctx.files ≠ 0 := hcount ▸ h.files
    refine bind_eq_ok.mpr ⟨(), hinit, bind_eq_ok.mpr ⟨_, hcontents, ?_⟩⟩
    refine bind_eq_ok.mpr ⟨(), rfl, bind_eq_ok.mpr ⟨(), ?_, bind_eq_ok.mpr ⟨(), ?_, ?_⟩⟩⟩
    · exact require_eq_ok.mpr (decide_eq_true hne)
    · rw [h.root, h.mobile]
      rfl
    · exact bind_eq_ok.mpr ⟨(), require_eq_ok.mpr h.layout, require_eq_ok.mpr h.marker⟩

/-- The full mode reports success exactly if nothing is in the way of the marker. -/
theorem full_success_iff {with_aks_setup : Bool} :
    (run strcmpNull calls source dest listing (.full with_aks_setup)).Success ↔
      Completes strcmpNull calls source dest listing with_aks_setup := by
  have hrun : run strcmpNull calls source dest listing (.full with_aks_setup) =
    runFull strcmpNull calls source dest listing with_aks_setup := rfl
  rw [hrun, ← fullCopy_eq_ok (u := ()), runFull]
  cases h : fullCopy strcmpNull calls source dest listing with_aks_setup with
  | error stop =>
    constructor
    · rintro (h | h) <;> cases h
    · intro h
      cases h
  | ok u =>
    refine ⟨fun _ => rfl, fun _ => Or.inl ?_⟩
    dsimp only
    split_ifs <;> rfl

/-- A mode is fail-closed exactly if it is the one that copies the data, or if all errors may be
tolerated, or if something else is in the way of the marker. -/
theorem failClosed_iff (strcmpNull : Bytes → Except Stop Bool) (calls : Calls) (source dest : Bytes)
    (listing : Listing) (mode : Mode) :
    FailClosed strcmpNull calls source dest listing mode ↔
      mode = .copyData ∨
      (∀ cb ∈ raised listing, cb.stage = copyfileErr → Tolerated mode cb) ∨
      ∃ with_aks_setup, mode = .full with_aks_setup ∧
        ¬Completes strcmpNull calls source dest listing with_aks_setup := by
  constructor
  · intro h
    cases mode with
    | copyData => exact Or.inl rfl
    | full with_aks_setup =>
      by_cases hcompletes : Completes strcmpNull calls source dest listing with_aks_setup
      · exact Or.inr (Or.inl (h (full_success_iff.mpr hcompletes)))
      · exact Or.inr (Or.inr ⟨with_aks_setup, rfl, hcompletes⟩)
  · rintro (rfl | htolerated | ⟨with_aks_setup, rfl, hnot⟩)
    · exact failClosed_copyData
    · exact fun _ => htolerated
    · exact fun hsuccess => absurd (full_success_iff.mp hsuccess) hnot

end Helper

/-- Calls that all do what they are to do. -/
def allCalls : Calls :=
  ⟨0, 0, some true, none, true, true, true, true, fun _ => true, true, true, true, true⟩

/-- The error that the file of `unreadable` is reported with. -/
def readError (src : Option Bytes) : Callback :=
  ⟨4, copyfileErr, 13, src, some (dataMount ++ ascii ['/', 'x'])⟩

/-- A directory with one file, whose copy is started and then fails. -/
def unreadable (src : Option Bytes) : Listing where
  opened := true
  entries := [⟨ascii ['x'], true, [⟨copyfileRecurseFile, copyfileStart, 0, src,
    some (dataMount ++ ascii ['/', 'x'])⟩, readError src], 0⟩]
  closed := true

/-- The full mode reports success although the file has not been copied, whether the callback is given
no source, so that nothing is compared with the null pointer, or the comparison returns. -/
theorem not_failClosed :
    ¬FailClosed (fun _ => .error .signal) allCalls sourceRoot dataMount (unreadable none)
      (.full false) ∧
    ¬FailClosed (fun _ => .ok false) allCalls sourceRoot dataMount
      (unreadable (some (sourceRoot ++ ascii ['/', 'x']))) (.full false) := by
  constructor
  · intro h
    have hsuccess : (run (fun _ => .error .signal) allCalls sourceRoot dataMount (unreadable none)
      (.full false)).marker = true := by decide +kernel
    have hraised : readError none ∈ raised (unreadable none) := by decide +kernel
    obtain hallowed | ⟨src, -, hsrc⟩ := h (Or.inl hsuccess) _ hraised rfl
    · exact absurd hallowed (by decide +kernel)
    · cases hsrc
  · intro h
    have hsuccess : (run (fun _ => .ok false) allCalls sourceRoot dataMount
      (unreadable (some (sourceRoot ++ ascii ['/', 'x']))) (.full false)).marker = true := by
      decide +kernel
    have hraised : readError (some (sourceRoot ++ ascii ['/', 'x'])) ∈
      raised (unreadable (some (sourceRoot ++ ascii ['/', 'x']))) := by decide +kernel
    obtain hallowed | ⟨src, hsrc, heq⟩ := h (Or.inl hsuccess) _ hraised rfl
    · exact absurd hallowed (by decide +kernel)
    · obtain rfl := List.mem_singleton.mp hsrc
      exact absurd heq (by decide +kernel)

end DarwinVm.Seed
