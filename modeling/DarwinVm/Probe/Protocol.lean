import DarwinVm.Probe.Watch

/-!
# The claim protocol of the probe watcher

What holds in every session of `Probe/Watch.lean`. A stop is requested for a call only if its return
callback had not revoked the claim when the watcher looked for it, no call is claimed twice, and a
poll that lists a call that is overdue and does not return chooses an overdue call that is no younger
(`claim_protocol`). As no call is chosen twice, younger calls never keep an older one waiting.
-/

namespace DarwinVm.Probe

variable {selector : ℕ} {pendingSecs : ℚ} {s s' : State}

/-- The steps of the watcher. -/
def Action.isWatch : Action → Bool
  | .watch _ => true
  | _ => false

/-- What a step of another party than the watcher keeps. -/
structure Kept (s : State) (a : Action) (s' : State) : Prop where
  other : ¬a.isWatch
  watcher : s'.watcher = s.watcher
  stop : s'.stop = s.stop
  choices : s'.choices = s.choices
  claims : s'.claims = s.claims
  /-- A call keeps its event. -/
  event : ∀ n e, (s.calls n).event = some e → (s'.calls n).event = some e
  /-- A call that does not return stays, and so does its pending event. -/
  inside : ∀ n e, s.calls n = .inside e → a ≠ .ret n →
    s'.calls n = .inside e ∧ s'.dir (.pending n) = s.dir (.pending n)

/-- A step is one of the watcher, or keeps what the watcher does and the calls that do not return. -/
theorem step_cases {a : Action} (h : Inv selector s) (hs : step selector pendingSecs s a = some s') :
    (∃ names, a = .watch names ∧ watch selector pendingSecs s names = some s') ∨
      (a = .quit ∧ s.watcher = .polling ∧ s' = { s with watcher := .done }) ∨ Kept s a s' := by
  cases a with
  | watch names => exact .inl ⟨names, rfl, hs⟩
  | quit =>
    unfold step at hs
    dsimp only at hs
    split at hs
    · rename_i hw
      cases hs
      exact .inr (.inl ⟨rfl, hw, rfl⟩)
    · cases hs
  | tick d =>
    cases hs
    exact .inr (.inr ⟨Bool.false_ne_true, rfl, rfl, rfl, rfl, fun _ _ he => he, fun _ _ hc _ => ⟨hc, rfl⟩⟩)
  | install =>
    cases hs
    exact .inr (.inr ⟨Bool.false_ne_true, rfl, rfl, rfl, rfl, fun _ _ he => he, fun _ _ hc _ => ⟨hc, rfl⟩⟩)
  | enter sel =>
    -- The call that is entered has no event yet.
    have hnew := h.absent s.nextCallId le_rfl
    have hne : ∀ {n e}, (s.calls n).event = some e → n ≠ s.nextCallId := by
      rintro n e he rfl
      rw [hnew] at he
      cases he
    unfold step at hs
    dsimp only at hs
    split_ifs at hs
    all_goals
      cases hs
      refine .inr (.inr ⟨Bool.false_ne_true, rfl, rfl, rfl, rfl, fun n e he => ?_, fun n e hc _ => ⟨?_, rfl⟩⟩)
      · exact (congrArg Call.event (Function.update_of_ne (hne he) _ _)).trans he
      · have he : (s.calls n).event = some e := by rw [hc]; rfl
        exact (Function.update_of_ne (hne he) _ _).trans hc
  | ret m =>
    unfold step at hs
    dsimp only at hs
    split at hs
    · rename_i e hm
      cases hs
      refine .inr (.inr ⟨Bool.false_ne_true, rfl, rfl, rfl, rfl, fun n e' he => ?_, fun n e' hc hne => ⟨?_, rfl⟩⟩)
      · dsimp only
        by_cases hn : n = m
        · rw [hn, hm] at he
          rw [hn, Function.update_self]
          exact he
        · rwa [Function.update_of_ne hn]
      · exact (Function.update_of_ne (fun hn => hne (congrArg Action.ret hn.symm)) _ _).trans hc
    · cases hs
  | callback m =>
    obtain ⟨⟨d, c⟩, hc, rfl⟩ := Option.map_eq_some_iff.mp hs
    obtain ⟨hevent, hsome⟩ := callback_event hc
    obtain ⟨e, he⟩ := Option.isSome_iff_exists.mp hsome
    have hm := h.event m e he
    refine .inr (.inr ⟨Bool.false_ne_true, rfl, rfl, rfl, rfl, fun n e' he' => ?_, fun n e' hin _ => ?_⟩)
    · dsimp only
      by_cases hn : n = m
      · rw [hn] at he' ⊢
        rw [Function.update_self]
        exact hevent.trans he'
      · rwa [Function.update_of_ne hn]
    · have hn : n ≠ m := by
        rintro rfl
        rw [hin] at hc
        cases hc
      dsimp only
      rw [Function.update_of_ne hn]
      exact ⟨hin, (callback_dir hc he (hm ▸ hn)).1⟩

/-! ## Stops -/

/-- A stop has been requested for the call, or is about to be. -/
def Stopping (c : ℕ) (s : State) : Prop := s.watcher = .stopping c ∨ s.stop = some c

/-- A stop is requested after the claimed event has been found. -/
theorem stopping_of_step {a : Action} {c : ℕ} (h : Inv selector s)
    (hs : step selector pendingSecs s a = some s') (hbefore : ¬Stopping c s)
    (hafter : Stopping c s') :
    ∃ names, a = .watch names ∧ s.watcher = .checkingClaimed c ∧ (s.dir (.claimed c)).isSome := by
  -- Only a watcher that goes on to stop makes a difference.
  have hsame : s'.stop = s.stop → s'.watcher = .stopping c := by
    intro hstop
    obtain hw | hc := hafter
    · exact hw
    · exact absurd (.inr (hstop ▸ hc)) hbefore
  obtain ⟨names, rfl, hwatch⟩ | ⟨-, -, rfl⟩ | hkept := step_cases h hs
  · refine ⟨names, rfl, ?_⟩
    unfold watch at hwatch
    split at hwatch
    case h_8 c' hw =>
      cases hwatch
      have hto := hsame rfl
      dsimp only at hto
      split_ifs at hto with hclaimed
      rw [Watcher.stopping.injEq] at hto
      exact hto ▸ ⟨hw, hclaimed⟩
    case h_10 c' hw =>
      cases hwatch
      obtain hc | hc := hafter
      · cases hc
      · rw [Option.some.injEq] at hc
        exact absurd (.inl (hc ▸ hw)) hbefore
    case h_11 => cases hwatch
    -- The other steps of the watcher go elsewhere.
    all_goals
      repeat' split at hwatch
      all_goals
        cases hwatch
        try grind
  · cases hsame rfl
  · exact absurd (.inl (hkept.watcher ▸ hsame hkept.stop)) hbefore

/-! ## Polls -/

/-- Choices and claims stay. -/
theorem grows_of_step {a : Action} (h : Inv selector s)
    (hs : step selector pendingSecs s a = some s') :
    s.choices <+: s'.choices ∧ s.claims ⊆ s'.claims := by
  obtain ⟨names, rfl, hwatch⟩ | ⟨-, -, rfl⟩ | hkept := step_cases h hs
  · unfold watch at hwatch
    split at hwatch
    all_goals
      repeat' split at hwatch
      all_goals
        cases hwatch
        try exact ⟨List.prefix_rfl, List.Subset.refl _⟩
    · exact ⟨List.prefix_append _ _, List.Subset.refl _⟩
    · exact ⟨List.prefix_rfl, List.subset_append_left _ _⟩
  · exact ⟨List.prefix_rfl, List.Subset.refl _⟩
  · rw [hkept.choices, hkept.claims]
    exact ⟨List.prefix_rfl, List.Subset.refl _⟩

variable (selector pendingSecs) in
/-- A call that was pending and overdue when the directory was listed, and is no younger. -/
def Older (listed : Dir) (now : ℚ) (e : Event) (n : ℕ) : Prop :=
  ∃ e', listed (.pending n) = some e' ∧ IsOverdue selector pendingSecs now e' ∧ e'.time ≤ e.time

variable (selector pendingSecs) in
/-- The poll has made its choice, after these: an older call, or the call, which it has claimed. -/
def Chose (listed : Dir) (now : ℚ) (choices : List ℕ) (x : ℕ) (e : Event) (s : State) : Prop :=
  ∃ n, s.choices[choices.length]? = some n ∧ Older selector pendingSecs listed now e n ∧
    (n = x → x ∈ s.claims)

variable (selector pendingSecs) in
/-- The poll is under way, and makes its choice and claims it in `k` more steps of the watcher. -/
inductive InPoll (listed : Dir) (now : ℚ) (choices : List ℕ) (x : ℕ) (e : Event) :
    ℕ → State → Prop
  | reading {s : State} {names : List ℕ} {overdue : List Overdue}
      (hwatcher : s.watcher = .reading now names overdue) (hchoices : s.choices = choices)
      (hinside : s.calls x = .inside e) (hpending : s.dir (.pending x) = some e)
      (hfound : x ∈ names ∨ ∃ o ∈ overdue, o.entered = e.time)
      (hnames : ∀ n ∈ names, ∃ e', listed (.pending n) = some e' ∧ (s.calls n).event = some e')
      (hoverdue : ∀ o ∈ overdue, ∃ e', listed (.pending o.path) = some e' ∧
        IsOverdue selector pendingSecs now e' ∧ e'.time = o.entered) :
      InPoll listed now choices x e (names.length + 2) s
  | claiming {s : State} {o : Overdue} (hwatcher : s.watcher = .claiming o)
      (hchoices : s.choices = choices ++ [o.path])
      (hinside : s.calls x = .inside e) (hpending : s.dir (.pending x) = some e)
      (holder : Older selector pendingSecs listed now e o.path) :
      InPoll listed now choices x e 1 s

variable {listed : Dir} {now : ℚ} {choices : List ℕ} {x k : ℕ} {e : Event} {a : Action}

theorem InPoll.pos (hp : InPoll selector pendingSecs listed now choices x e k s) : 0 < k := by
  cases hp with
  | reading => omega
  | claiming => omega

/-- A step of another party leaves the poll where it is. -/
theorem InPoll.kept (hp : InPoll selector pendingSecs listed now choices x e k s)
    (hkept : Kept s a s') (hne : a ≠ .ret x) :
    InPoll selector pendingSecs listed now choices x e k s' := by
  cases hp with
  | reading hwatcher hchoices hinside hpending hfound hnames hoverdue =>
    obtain ⟨hinside', hdir⟩ := hkept.inside x e hinside hne
    refine .reading (hkept.watcher.trans hwatcher) (hkept.choices.trans hchoices) hinside'
      (hdir.trans hpending) hfound (fun n hn => ?_) hoverdue
    obtain ⟨e', he', hevent⟩ := hnames n hn
    exact ⟨e', he', hkept.event n e' hevent⟩
  | claiming hwatcher hchoices hinside hpending holder =>
    obtain ⟨hinside', hdir⟩ := hkept.inside x e hinside hne
    exact .claiming (hkept.watcher.trans hwatcher) (hkept.choices.trans hchoices) hinside'
      (hdir.trans hpending) holder

/-- The poll goes on after it has read the event of a call. -/
theorem InPoll.read {n : ℕ} {rest : List ℕ} {overdue : List Overdue} (h : Inv selector s)
    (hover : IsOverdue selector pendingSecs now e) {w : Watcher}
    (hw : w = .reading now rest overdue ∧
        (∀ e', s.dir (.pending n) = some e' → ¬IsOverdue selector pendingSecs now e') ∨
      ∃ e', s.dir (.pending n) = some e' ∧ IsOverdue selector pendingSecs now e' ∧
        w = .reading now rest (overdue ++ [⟨e'.callId, e'.time, n⟩]))
    (hchoices : s.choices = choices) (hinside : s.calls x = .inside e)
    (hpending : s.dir (.pending x) = some e)
    (hfound : x ∈ n :: rest ∨ ∃ o ∈ overdue, o.entered = e.time)
    (hnames : ∀ m ∈ n :: rest, ∃ e', listed (.pending m) = some e' ∧ (s.calls m).event = some e')
    (hoverdue : ∀ o ∈ overdue, ∃ e', listed (.pending o.path) = some e' ∧
      IsOverdue selector pendingSecs now e' ∧ e'.time = o.entered) :
    InPoll selector pendingSecs listed now choices x e (rest.length + 2)
      { s with watcher := w } := by
  rw [List.forall_mem_cons] at hnames
  obtain ⟨rfl, hnot⟩ | ⟨e', he', hover', rfl⟩ := hw
  · -- The event that is skipped is not that of the call.
    refine .reading rfl hchoices hinside hpending ?_ hnames.2 hoverdue
    refine hfound.imp_left fun hx => ?_
    obtain rfl | hx := List.mem_cons.mp hx
    · exact absurd hover (hnot e hpending)
    · exact hx
  · refine .reading rfl hchoices hinside hpending ?_ hnames.2 fun o ho => ?_
    · obtain hx | ⟨o, ho, ht⟩ := hfound
      · obtain rfl | hx := List.mem_cons.mp hx
        · rw [hpending, Option.some.injEq] at he'
          exact .inr ⟨_, List.mem_append_right _ (List.mem_singleton.mpr rfl), he' ▸ rfl⟩
        · exact .inl hx
      · exact .inr ⟨o, List.mem_append_left _ ho, ht⟩
    · obtain ho | ho := List.mem_append.mp ho
      · exact hoverdue o ho
      · rw [List.mem_singleton.mp ho]
        obtain ⟨e'', he'', hevent⟩ := hnames.1
        rw [h.event_of_pending he', Option.some.injEq] at hevent
        exact ⟨e', hevent ▸ he'', hover', rfl⟩

/-- A step of the watcher takes the poll on. -/
theorem InPoll.watch {names : List ℕ} (h : Inv selector s)
    (hover : IsOverdue selector pendingSecs now e)
    (hp : InPoll selector pendingSecs listed now choices x e (k + 1) s)
    (hs : watch selector pendingSecs s names = some s') :
    InPoll selector pendingSecs listed now choices x e k s' ∨
      Chose selector pendingSecs listed now choices x e s' := by
  generalize hk : k + 1 = k₁ at hp
  unfold Probe.watch at hs
  cases hp with
  | reading hwatcher hchoices hinside hpending hfound hnames hoverdue =>
    rename_i rest overdue
    rw [hwatcher] at hs
    cases rest with
    | cons n rest =>
      rw [List.length_cons] at hk
      obtain rfl : k = rest.length + 2 := by omega
      left
      dsimp only at hs
      split at hs
      case h_1 e' he' =>
        split_ifs at hs with hover'
        · cases hs
          exact InPoll.read h hover (.inr ⟨e', he', hover', rfl⟩) hchoices hinside hpending hfound
            hnames hoverdue
        · cases hs
          refine InPoll.read h hover (.inl ⟨rfl, fun e'' he'' => ?_⟩) hchoices hinside hpending
            hfound hnames hoverdue
          rw [he', Option.some.injEq] at he''
          exact he'' ▸ hover'
      case h_2 hnone =>
        cases hs
        refine InPoll.read h hover (.inl ⟨rfl, fun e' he' => ?_⟩) hchoices hinside hpending hfound
          hnames hoverdue
        rw [hnone] at he'
        cases he'
    | nil =>
      obtain hx | ⟨o, ho, ht⟩ := hfound
      · cases hx
      cases overdue with
      | nil => cases ho
      | cons o₁ os =>
        cases hs
        obtain rfl : k = 1 := by
          rw [List.length_nil] at hk
          omega
        -- The choice is no younger than the item of the call.
        obtain ⟨hmem, hle⟩ := oldest_mem o₁ os
        obtain ⟨e', he', hover', ht'⟩ := hoverdue _ hmem
        refine .inl (.claiming rfl (congrArg (· ++ _) hchoices) hinside hpending ⟨e', he', hover', ?_⟩)
        calc e'.time = (oldest o₁ os).entered := ht'
          _ ≤ o.entered := hle o ho
          _ = e.time := ht
  | claiming hwatcher hchoices hinside hpending holder =>
    rename_i o
    right
    have hok := h.watcher
    rw [WatcherOk, hwatcher] at hok
    have hlast : s.choices[choices.length]? = some o.path := by
      rw [hchoices, List.getElem?_append_right le_rfl, Nat.sub_self]
      rfl
    rw [hwatcher] at hs
    dsimp only at hs
    split at hs
    case h_1 d hd =>
      cases hs
      refine ⟨o.path, hlast, holder, fun hx => List.mem_append_right _ (List.mem_singleton.mpr ?_)⟩
      rw [hok.1, hx]
    case h_2 hd =>
      cases hs
      refine ⟨o.path, hlast, holder, fun hx => ?_⟩
      -- The pending event of a call that does not return is not gone.
      rw [hx, Dir.replace, hpending] at hd
      cases hd

/-- A poll that has made its choice has made it. -/
theorem Chose.step (h : Inv selector s) (hc : Chose selector pendingSecs listed now choices x e s)
    (hs : step selector pendingSecs s a = some s') :
    Chose selector pendingSecs listed now choices x e s' := by
  obtain ⟨n, hn, hold, hclaimed⟩ := hc
  obtain ⟨hchoices, hclaims⟩ := grows_of_step h hs
  obtain ⟨more, hmore⟩ := hchoices
  refine ⟨n, ?_, hold, fun hx => hclaims (hclaimed hx)⟩
  obtain ⟨hlt, -⟩ := List.getElem?_eq_some_iff.mp hn
  rw [← hmore, List.getElem?_append_left hlt, hn]

/-- A poll makes its choice after enough steps of the watcher, whatever the other parties do. -/
theorem InPoll.run (hover : IsOverdue selector pendingSecs now e) : ∀ {run : List Action} {s : State}
    {k : ℕ}, Inv selector s → InPoll selector pendingSecs listed now choices x e k s ∨
      Chose selector pendingSecs listed now choices x e s →
    (session selector pendingSecs).exec s run = some s' → .ret x ∉ run →
    k ≤ run.countP Action.isWatch → Chose selector pendingSecs listed now choices x e s'
  | [], s, k, _, hp, hrun, _, hk => by
    obtain rfl : s = s' := by simpa using hrun
    refine hp.resolve_left fun hp => ?_
    have hpos := hp.pos
    rw [List.countP_nil] at hk
    omega
  | a :: run, s, k, h, hp, hrun, hret, hk => by
    obtain ⟨t, hs, hrun'⟩ := Option.bind_eq_some_iff.mp hrun
    rw [List.mem_cons, not_or] at hret
    have ht := h.step hs
    obtain hp | hc := hp
    swap
    · exact InPoll.run hover (k := 0) ht (.inr (hc.step h hs)) hrun' hret.2 (Nat.zero_le _)
    rw [List.countP_cons] at hk
    obtain ⟨names, rfl, hwatch⟩ | ⟨rfl, hw, -⟩ | hkept := step_cases h hs
    · obtain ⟨k, rfl⟩ := Nat.exists_eq_add_one_of_ne_zero hp.pos.ne'
      exact InPoll.run hover ht (hp.watch h hover hwatch) hrun' hret.2 (Nat.le_of_succ_le_succ hk)
    · -- The watcher is not between two polls.
      cases hp with
      | reading hwatcher => cases hw.symm.trans hwatcher
      | claiming hwatcher => cases hw.symm.trans hwatcher
    · rw [if_neg hkept.other] at hk
      exact InPoll.run hover ht (.inl (hp.kept hkept (Ne.symm hret.1))) hrun' hret.2 hk

/-! ## The protocol -/

/-- In every session, a stop is requested for a call only if its claim was not revoked when the
watcher looked for it, no call is claimed or chosen twice, and a poll that lists a call that is
overdue and does not return chooses an overdue call that is no younger. If there is no other, it
claims the call. -/
theorem claim_protocol {run : List Action} {s : State}
    (hrun : (session selector pendingSecs).exec (session selector pendingSecs).init run = some s) :
    (∀ c, s.stop = some c → ∃ before names after t, run = before ++ .watch names :: after ∧
      (session selector pendingSecs).exec (session selector pendingSecs).init before = some t ∧
      t.watcher = .checkingClaimed c ∧ ¬(t.calls c).Revoked) ∧
    s.claims.Nodup ∧ s.choices.Nodup ∧
    ∀ now names t x e, s.watcher = .listing now →
      step selector pendingSecs s (.watch names) = some t → s.calls x = .inside e →
      s.dir (.pending x) = some e → IsOverdue selector pendingSecs now e →
      ∀ run' s', (session selector pendingSecs).exec t run' = some s' → .ret x ∉ run' →
        names.length + 2 ≤ run'.countP Action.isWatch →
          (∃ n e', s'.choices[s.choices.length]? = some n ∧ s.dir (.pending n) = some e' ∧
            IsOverdue selector pendingSecs now e' ∧ e'.time ≤ e.time) ∧
          ((∀ n e', n ≠ x → s.dir (.pending n) = some e' → IsOverdue selector pendingSecs now e' →
            e.time < e'.time) → x ∈ s'.claims) := by
  have hinv : ∀ {run s}, (session selector pendingSecs).exec (session selector pendingSecs).init
      run = some s → Inv selector s :=
    fun hrun => System.exec_of_step (fun s a s' h hs => h.step hs) inv_init hrun
  refine ⟨fun c hc => ?_, (hinv hrun).claims.1, (hinv hrun).choices, ?_⟩
  · have hinit : ¬Stopping c (session selector pendingSecs).init := by
      rintro (hw | hstop)
      · cases hw
      · cases hstop
    obtain ⟨before, a, after, u, v, rfl, hbefore, hs, hu, hv⟩ :=
      System.exists_step_of_exec hrun hinit (.inr hc)
    obtain ⟨names, rfl, hwatcher, hclaimed⟩ := stopping_of_step (hinv hbefore) hs hu hv
    obtain ⟨e, he⟩ := Option.isSome_iff_exists.mp hclaimed
    exact ⟨before, names, after, u, rfl, hbefore, hwatcher, (hinv hbefore).claimed c e he⟩
  · intro now names t x e hwatcher hs hinside hpending hover run' s' hrun' hret hk
    have h := hinv hrun
    have ht := h.step hs
    unfold step watch at hs
    rw [hwatcher] at hs
    dsimp only at hs
    split_ifs at hs with hlisted
    cases hs
    -- The poll starts with all pending calls still to be read.
    have hlt : x < s.nextCallId := by
      by_contra hge
      rw [h.absent x (not_lt.mp hge)] at hinside
      cases hinside
    have hstart : InPoll selector pendingSecs s.dir now s.choices x e (names.length + 2)
        { s with watcher := .reading now names [] } := by
      refine .reading rfl rfl hinside hpending (.inl ?_) (fun n hn => ?_) nofun
      · exact hlisted.2.2 x hlt (Option.isSome_iff_exists.mpr ⟨e, hpending⟩)
      · obtain ⟨e', he'⟩ := Option.isSome_iff_exists.mp (hlisted.2.1 n hn)
        exact ⟨e', he', h.event_of_pending he'⟩
    obtain ⟨n, hn, ⟨e', he', hover', hle⟩, hclaimed⟩ :=
      InPoll.run hover ht (.inl hstart) hrun' hret hk
    refine ⟨⟨n, e', hn, he', hover', hle⟩, fun hyoungest => hclaimed ?_⟩
    by_contra hne
    exact absurd hle (not_le.mpr (hyoungest n e' hne he' hover'))

/-- Two calls are entered, and are overdue when the watcher looks. -/
def stalledRun : List Action :=
  [.install, .enter 0x4f, .callback 1, .tick 1, .enter 0x4f, .callback 2, .tick 60, .watch []]

/-- The younger call returns while the watcher reads the events. -/
def pollRun : List Action :=
  [.watch [], .ret 2, .callback 2, .watch [], .watch [], .watch []]

/-- The state in which the watcher lists the directory. -/
def stalled : State :=
  ((session 0x4f 30).exec (session 0x4f 30).init stalledRun).getD (session 0x4f 30).init

/-- The state after the listing. -/
def stalledListed : State := ((session 0x4f 30).step stalled (.watch [2, 1])).getD stalled

/-- The older call is claimed. -/
theorem claim_protocol_stalled :
    ∃ s', (session 0x4f 30).exec stalledListed pollRun = some s' ∧ 1 ∈ s'.claims := by
  have hrun : (session 0x4f 30).exec (session 0x4f 30).init stalledRun = some stalled := rfl
  have hpoll := (claim_protocol hrun).2.2.2 61 [2, 1] stalledListed 1 ⟨1, 0x4f, 0⟩
    (by decide +kernel) (by rfl) (by decide +kernel) (by decide +kernel) (by decide +kernel)
  obtain ⟨s', hs'⟩ := Option.isSome_iff_exists.mp
    (by decide +kernel : ((session 0x4f 30).exec stalledListed pollRun).isSome)
  refine ⟨s', hs', (hpoll pollRun s' hs' (by decide) (by decide)).2 fun n e hn he _ => ?_⟩
  -- There is one other event, of a call that was entered later.
  have hinv : Inv 0x4f stalled := System.exec_of_step (fun _ _ _ h hs => h.step hs) inv_init hrun
  have hlt : n < 3 := by
    by_contra hge
    obtain ⟨-, hplanted, -⟩ := hinv.of_pending he
    rw [hinv.absent n (not_lt.mp hge)] at hplanted
    exact hplanted
  have hother : ∀ m < 3, m ≠ 1 → ∀ e' ∈ stalled.dir (.pending m), 0 < e'.time := by decide +kernel
  exact hother n hlt hn e he

end DarwinVm.Probe
