import DarwinVm.Power.Lifecycle

/-!
# The percentage word is withdrawn

While it is ready, the service keeps a word with the percentage in a notify state, and
`withdraw_percent` takes it back as long as `percent_owned` is set. `percent_withdrawn` says in which
runs no word is left behind when the service is not ready: those in which every store of the word is
read back. When the read after a store fails, `publish_percent` gives up the ownership of a word that
is stored, and the withdrawal that follows does nothing.
-/

namespace DarwinVm.Power

/-- What the calls tell of the word. -/
structure Watch where
  /-- Has the word been stored, with no withdrawal of it begun since? -/
  unwithdrawn : Bool
  /-- Has a read found another word since it was stored? -/
  replaced : Bool
  /-- Is the next read that with which `publish_percent` checks its store? -/
  checking : Bool
  deriving DecidableEq

/-- A call is seen. `publish_percent` reads the state after each store of the word; any other read is
that of `withdraw_percent`, which makes one only if `percent_owned` is set. -/
def Watch.see (w : Watch) : Call → Watch
  | .notifySetState state result =>
    if state = kPercentState then
      if result = 0 then ⟨true, false, true⟩ else { w with checking := true }
    else if result = 0 then { w with unwithdrawn := false }
    else w
  | .notifyGetState result state =>
    ⟨w.unwithdrawn && w.checking, w.replaced || (result = 0 && state ≠ kPercentState), false⟩
  | _ => w

/-- What the calls made so far tell. -/
def Service.watch (s : Service) : Watch := s.calls.foldl Watch.see ⟨false, false, false⟩

/-- The service is not ready, or has ended. -/
def Service.Down (s : Service) : Prop :=
  s.publisher.ready = false ∨ s.phase = .fatal ∨ ∃ status, s.phase = .exited status

/-- A service that is down has called `withdraw_percent` with `percent_owned` set since it last stored
the word. -/
def Withdrawn (s : Service) : Prop := s.Down → s.watch.unwithdrawn = false

/-- A service that is down has done so, or has seen that the state holds another word. -/
def NotStale (s : Service) : Prop :=
  s.Down → ¬(s.watch.unwithdrawn = true ∧ s.watch.replaced = false)

/-- The successful stores of the word in `calls`, the first of which has the number `k`, are read back
with results that are `good`: the read is the second call after the store. -/
def Checked (apis : APIs) (good : Int32 × UInt64 → Prop) (k : ℕ) (calls : List Call) : Prop :=
  ∀ n, calls[n]? = some (.notifySetState kPercentState 0) → good (apis.notify_get_state (k + n + 2))

/-- The stores that a block makes are read back with results that are `good`. -/
def ReadBack (apis : APIs) (good : Int32 × UInt64 → Prop) (s : Service) (b : Block) : Prop :=
  ∀ s' ∈ s.step apis b, Checked apis good s.calls.length (s'.calls.drop s.calls.length)

/-! ## The calls -/

/-- A call that neither writes nor reads the notify state. -/
def Call.unseen : Call → Bool
  | .notifySetState _ _ | .notifyGetState _ _ => false
  | _ => true

theorem Watch.see_of_unseen (w : Watch) {c : Call} (h : c.unseen = true) : w.see c = w := by
  cases c <;> first | rfl | cases h

@[simp] theorem watch_call (s : Service) (c : Call) : (s.call c).watch = s.watch.see c := by
  rw [Service.watch, Service.call, List.foldl_append]
  rfl

@[simp] theorem calls_call (s : Service) (c : Call) : (s.call c).calls = s.calls ++ [c] := rfl

variable {apis : APIs} {good : Int32 × UInt64 → Prop} {k : ℕ}

theorem checked_append {l₁ l₂ : List Call} :
    Checked apis good k (l₁ ++ l₂) ↔ Checked apis good k l₁ ∧ Checked apis good (k + l₁.length) l₂ := by
  constructor
  · refine fun h => ⟨fun n hn => h n ?_, fun n hn => ?_⟩
    · rw [List.getElem?_append_left (List.getElem?_eq_some_iff.1 hn).1]
      exact hn
    · have := h (l₁.length + n) (by
        rw [List.getElem?_append_right (Nat.le_add_right _ _), Nat.add_sub_cancel_left]
        exact hn)
      rwa [← Nat.add_assoc] at this
  · rintro ⟨h₁, h₂⟩ n hn
    rcases lt_or_ge n l₁.length with hlt | hge
    · rw [List.getElem?_append_left hlt] at hn
      exact h₁ n hn
    · rw [List.getElem?_append_right hge] at hn
      have := h₂ _ hn
      rwa [show k + l₁.length + (n - l₁.length) = k + n by omega] at this

/-- Calls of which none is a successful store of the word. -/
def NoStore (l : List Call) : Prop := .notifySetState kPercentState 0 ∉ l

theorem NoStore.checked {l : List Call} (h : NoStore l) : Checked apis good k l :=
  fun _ hn => absurd (List.mem_of_getElem? hn) h

theorem noStore_append {l₁ l₂ : List Call} : NoStore (l₁ ++ l₂) ↔ NoStore l₁ ∧ NoStore l₂ := by
  simp only [NoStore, List.mem_append, not_or]

/-- Of the calls from a successful store on, only that one has to be read back. -/
theorem checked_store {l : List Call} (h : NoStore l) :
    Checked apis good k (.notifySetState kPercentState 0 :: l) ↔
      good (apis.notify_get_state (k + 2)) := by
  rw [← List.singleton_append, checked_append, and_iff_left h.checked]
  refine ⟨fun hs => hs 0 rfl, fun hg n hn => ?_⟩
  obtain ⟨hn', -⟩ := List.getElem?_eq_some_iff.1 hn
  obtain rfl : n = 0 := by rwa [List.length_singleton, Nat.lt_one_iff] at hn'
  exact hg

/-- A word is pending if it is stored and not withdrawn, and, unless `strict`, not seen replaced. -/
def Pending (strict : Bool) (w : Watch) : Prop :=
  w.unwithdrawn = true ∧ (w.replaced = true → strict = true)

/-- The result of a read after a store: it succeeds and, if `strict`, gives the word. -/
def Good (strict : Bool) (r : Int32 × UInt64) : Prop :=
  r.1 = 0 ∧ (strict = true → r.2 = kPercentState)

/-! ## What the functions do to the word -/

/-- The token is that of the state before, and so is the phase, unless the process has ended. -/
structure Frame (s s' : Service) : Prop where
  token : s'.publisher.percent_token = s.publisher.percent_token
  phase : s'.phase = s.phase ∨ s'.phase = .fatal

theorem Frame.trans {s s' s'' : Service} (h : Frame s s') (h' : Frame s' s'') : Frame s s'' :=
  ⟨h'.token.trans h.token,
    h'.phase.elim (fun he => h.phase.imp he.trans he.trans) Or.inr⟩

/-- Between the two states, no call stores the word. -/
structure Storeless (s s' : Service) : Prop extends Frame s s' where
  calls : ∃ l, NoStore l ∧ s'.calls = s.calls ++ l

theorem Storeless.of_calls {s s' : Service} (h : s'.calls = s.calls) (hframe : Frame s s') :
    Storeless s s' := ⟨hframe, [], List.not_mem_nil, by rw [List.append_nil, h]⟩

/-- Neither a call is made nor the frame left. -/
theorem Storeless.of_same {s s' : Service} (h : s'.calls = s.calls)
    (ht : s'.publisher.percent_token = s.publisher.percent_token) (hp : s'.phase = s.phase) :
    Storeless s s' := .of_calls h ⟨ht, .inl hp⟩

theorem Storeless.refl (s : Service) : Storeless s s := .of_same rfl rfl rfl

theorem Storeless.trans {s s' s'' : Service} (h : Storeless s s') (h' : Storeless s' s'') :
    Storeless s s'' := by
  obtain ⟨l, hl, hcalls⟩ := h.calls
  obtain ⟨l', hl', hcalls'⟩ := h'.calls
  refine ⟨h.toFrame.trans h'.toFrame, l ++ l', noStore_append.2 ⟨hl, hl'⟩, ?_⟩
  rw [hcalls', hcalls, List.append_assoc]

theorem storeless_call (s : Service) {c : Call} (hc : c ≠ .notifySetState kPercentState 0) :
    Storeless s (s.call c) :=
  ⟨⟨rfl, .inl rfl⟩, [c], fun h => hc (List.mem_singleton.1 h).symm, rfl⟩

/-- What is known between two calls: a pending word is owned. -/
structure Owns (strict : Bool) (s : Service) : Prop where
  idle : s.watch.checking = false
  pending : Pending strict s.watch → s.publisher.percent_owned = true

/-- No word is pending or owned. -/
structure Clear (strict : Bool) (s : Service) : Prop where
  idle : s.watch.checking = false
  pending : ¬Pending strict s.watch
  owned : s.publisher.percent_owned = false

/-- A word is pending that nobody owns. -/
structure Lost (strict : Bool) (s : Service) : Prop where
  pending : Pending strict s.watch
  owned : s.publisher.percent_owned = false

/-- What a part of a block does to the word, which depends on its stores: if they are all read back,
`K` holds after it, and if not, `L` does. -/
def Outcome (apis : APIs) (strict : Bool) (K L : Service → Prop) (s s' : Service) : Prop :=
  ∃ l, s'.calls = s.calls ++ l ∧ Frame s s' ∧
    ((Checked apis (Good strict) s.calls.length l ∧ K s') ∨
      (¬Checked apis (Good strict) s.calls.length l ∧ L s'))

variable {strict : Bool} {K K' L L' : Service → Prop} {s s₁ s' : Service}

theorem Storeless.outcome (h : Storeless s s') (hK : K s') : Outcome apis strict K L s s' := by
  obtain ⟨l, hl, hcalls⟩ := h.calls
  exact ⟨l, hcalls, h.toFrame, .inl ⟨hl.checked, hK⟩⟩

/-- Two parts after one another, the second of which makes no store if the first has lost a word. -/
theorem Outcome.trans (h : Outcome apis strict K L s s₁)
    (hK : K s₁ → Outcome apis strict K' L' s₁ s') (hL : L s₁ → Storeless s₁ s' ∧ L' s') :
    Outcome apis strict K' L' s s' := by
  obtain ⟨l, hcalls, hframe, hl⟩ := h
  have hlength : s₁.calls.length = s.calls.length + l.length := by
    rw [hcalls, List.length_append]
  rcases hl with ⟨hchecked, hk⟩ | ⟨hchecked, hlost⟩
  · obtain ⟨l', hcalls', hframe', hl'⟩ := hK hk
    rw [hlength] at hl'
    refine ⟨l ++ l', by rw [hcalls', hcalls, List.append_assoc], hframe.trans hframe', ?_⟩
    rw [checked_append, and_iff_right hchecked]
    exact hl'
  · obtain ⟨hstoreless, hlost'⟩ := hL hlost
    obtain ⟨l', -, hcalls'⟩ := hstoreless.calls
    refine ⟨l ++ l', by rw [hcalls', hcalls, List.append_assoc],
      hframe.trans hstoreless.toFrame, ?_⟩
    rw [checked_append]
    exact .inr ⟨fun h => hchecked h.1, hlost'⟩

/-- A part that begins without a store. -/
theorem Outcome.after (h : Storeless s s₁) (h' : Outcome apis strict K L s₁ s') :
    Outcome apis strict K L s s' :=
  (h.outcome (K := fun _ => True) (L := fun _ => False) trivial).trans (fun _ => h') False.elim

/-- A part that ends without a store. -/
theorem Outcome.before (h : Outcome apis strict K L s s₁) (h' : Storeless s₁ s')
    (hK : K s₁ → K' s') (hL : L s₁ → L' s') : Outcome apis strict K' L' s s' :=
  h.trans (fun hk => h'.outcome (hK hk)) fun hl => ⟨h', hL hl⟩

theorem kPercentState_ne_zero : (0 : UInt64) ≠ kPercentState := by decide

theorem Clear.owns (h : Clear strict s) : Owns strict s := ⟨h.idle, fun hp => absurd hp h.pending⟩

/-- A pending word is not pending for a state that owns none. -/
theorem Owns.clear (h : Owns strict s) (howned : s.publisher.percent_owned = false) :
    Clear strict s := by
  refine ⟨h.idle, fun hp => ?_, howned⟩
  rw [h.pending hp] at howned
  cases howned

/-- Nothing that these properties speak of changes. -/
theorem Clear.of_same (h : Clear strict s) (hcalls : s'.calls = s.calls)
    (howned : s'.publisher.percent_owned = s.publisher.percent_owned) : Clear strict s' := by
  have hwatch : s'.watch = s.watch := by rw [Service.watch, hcalls, Service.watch]
  exact ⟨hwatch ▸ h.idle, hwatch ▸ h.pending, howned.trans h.owned⟩

theorem Clear.call (h : Clear strict s) {c : Call} (hc : c.unseen = true) :
    Clear strict (s.call c) := by
  have hwatch : (s.call c).watch = s.watch := by rw [watch_call, Watch.see_of_unseen _ hc]
  exact ⟨hwatch ▸ h.idle, hwatch ▸ h.pending, h.owned⟩

variable (apis)

/-- `withdraw_percent` begins a withdrawal if the word is owned. -/
theorem withdrawPercent_clear (h : Owns strict s) (ht : ¬s.publisher.percent_token < 0) :
    Storeless s (withdrawPercent apis s) ∧ Clear strict (withdrawPercent apis s) := by
  have hset : ∀ r, Call.notifySetState 0 r ≠ .notifySetState kPercentState 0 := fun r hc =>
    kPercentState_ne_zero (Call.notifySetState.inj hc).1
  rw [withdrawPercent]
  split
  · -- The word is not owned, so none is pending.
    rename_i howned
    rw [or_iff_left ht, Bool.not_eq_true] at howned
    exact ⟨.refl s, h.clear howned⟩
  · generalize apis.notify_get_state s.calls.length = r
    obtain ⟨result, state⟩ := r
    have hget : Storeless s (s.call (.notifyGetState result state)) := storeless_call s nofun
    have hwatch : (s.call (.notifyGetState result state)).watch.unwithdrawn = false := by
      rw [watch_call]
      simp only [Watch.see, h.idle, Bool.and_false]
    have hidle : (s.call (.notifyGetState result state)).watch.checking = false := by
      rw [watch_call]
      rfl
    dsimp only
    generalize s.call (.notifyGetState result state) = s₁ at hget hwatch hidle ⊢
    -- The rest of the withdrawal makes nothing pending.
    have hdone : ∀ {s₂ : Service}, Storeless s₁ s₂ → s₂.watch.unwithdrawn = false →
        s₂.watch.checking = false →
        Storeless s { s₂ with publisher := { s₂.publisher with percent_owned := false } } ∧
          Clear strict { s₂ with publisher := { s₂.publisher with percent_owned := false } } := by
      intro s₂ hstoreless hun hidle
      refine ⟨(hget.trans hstoreless).trans (.of_same rfl rfl rfl), hidle, fun hp => ?_, rfl⟩
      exact Bool.false_ne_true (hun.symm.trans hp.1)
    have hzero : ∀ r, (s₁.call (.notifySetState 0 r)).watch.unwithdrawn = false ∧
        (s₁.call (.notifySetState 0 r)).watch.checking = false := by
      intro r
      rw [watch_call, Watch.see, if_neg kPercentState_ne_zero]
      split
      · exact ⟨rfl, hidle⟩
      · exact ⟨hwatch, hidle⟩
    split
    · generalize apis.notify_set_state s₁.calls.length = result'
      have hstore := storeless_call s₁ (hset result')
      split
      · have hpost := fun r => hstore.trans (storeless_call _ (c := .notifyPost r) nofun)
        refine hdone (hpost _) ?_ ?_
        · rw [watch_call]
          exact (hzero result').1
        · rw [watch_call]
          exact (hzero result').2
      · exact hdone hstore (hzero result').1 (hzero result').2
    · exact hdone (.refl s₁) hwatch hidle

/-- `withdraw_percent` does nothing without ownership. -/
theorem withdrawPercent_of_not_owned (h : s.publisher.percent_owned = false) :
    withdrawPercent apis s = s := by
  rw [withdrawPercent, if_pos (.inl (by rw [h]; exact Bool.false_ne_true))]

/-- After a store and the read that checks it, the word is owned if the read is good, and lost if
not. -/
theorem owns_or_lost {result : Int32} {state : UInt64}
    (hwatch : s.watch = ⟨true, result = 0 && state ≠ kPercentState, false⟩)
    (howned : s.publisher.percent_owned = (decide (result = 0) && decide (state = kPercentState))) :
    (Good strict (result, state) ∧ Owns strict s) ∨ (¬Good strict (result, state) ∧ Lost strict s) := by
  by_cases hresult : result = 0
  · by_cases hstate : state = kPercentState
    · -- The word has been stored.
      refine .inl ⟨⟨hresult, fun _ => hstate⟩, by rw [hwatch], fun _ => ?_⟩
      rw [howned, decide_eq_true hresult, decide_eq_true hstate, Bool.and_self]
    · -- Another word has been read.
      have hreplaced : s.watch.replaced = true := by
        rw [hwatch]
        simp only [hresult, hstate, ne_eq, not_false_eq_true, decide_true, Bool.and_self]
      cases strict with
      | true =>
        refine .inr ⟨fun hgood => hstate (hgood.2 rfl), ⟨by rw [hwatch], fun _ => rfl⟩, ?_⟩
        rw [howned, decide_eq_false hstate, Bool.and_false]
      | false =>
        exact .inl ⟨⟨hresult, nofun⟩, by rw [hwatch], fun hp => nomatch hp.2 hreplaced⟩
  · -- The read has failed.
    refine .inr ⟨fun hgood => hresult hgood.1, ⟨by rw [hwatch], fun hreplaced => ?_⟩, ?_⟩
    · rw [hwatch] at hreplaced
      simp only [hresult, decide_false, Bool.false_and] at hreplaced
      cases hreplaced
    · rw [howned, decide_eq_false hresult, Bool.false_and]

/-- `publish_percent` owns the word that it has stored if the read after the store is good; if not,
nobody owns it. -/
theorem publishPercent_outcome (h : Clear strict s) :
    Outcome apis strict (Owns strict) (Lost strict) s (publishPercent apis s).2 ∧
      ((publishPercent apis s).1 = true →
        (publishPercent apis s).2.publisher.percent_owned = true) := by
  rw [publishPercent]
  generalize apis.get_percent = get_percent
  generalize apis.notify_set_state s.calls.length = set_result
  generalize apis.notify_post (s.call (.notifySetState kPercentState set_result)).calls.length = post
  split
  rename_i post_result s₁ heq
  generalize hread : apis.notify_get_state s₁.calls.length = r
  obtain ⟨state_result, state⟩ := r
  dsimp only
  generalize get_percent _ = read
  obtain ⟨read_result, percent, charging, full⟩ := read
  dsimp only
  constructor
  · by_cases hset : set_result = 0
    · -- The word is stored by the call after those so far, and read by the second one after that.
      subst hset
      rw [if_pos rfl, Prod.mk.injEq] at heq
      obtain ⟨rfl, rfl⟩ := heq
      have hlength : ((s.call (.notifySetState kPercentState 0)).call
          (.notifyPost post)).calls.length = s.calls.length + 2 := by
        simp only [calls_call, List.length_append, List.length_singleton, Nat.add_assoc]
      refine ⟨.notifySetState kPercentState 0 :: [.notifyPost post,
        .notifyGetState state_result state, .getPercent read_result percent charging full], ?_,
          ⟨rfl, .inl rfl⟩, ?_⟩
      · simp only [calls_call, List.append_assoc, List.cons_append, List.nil_append]
      · rw [checked_store (by simp [NoStore]), ← hlength, hread]
        have hwatch : ((((s.call (.notifySetState kPercentState 0)).call (.notifyPost post)).call
            (.notifyGetState state_result state)).call
              (.getPercent read_result percent charging full)).watch =
            ⟨true, state_result = 0 && state ≠ kPercentState, false⟩ := by
          simp only [watch_call, Watch.see, if_true, Bool.false_or, Bool.and_self]
        exact owns_or_lost hwatch (by simp only [decide_true, Bool.true_and])
    · -- The store fails, and changes nothing.
      rw [if_neg hset, Prod.mk.injEq] at heq
      obtain ⟨rfl, rfl⟩ := heq
      have hstore : Call.notifySetState kPercentState set_result ≠ .notifySetState kPercentState 0 :=
        fun hc => hset (Call.notifySetState.inj hc).2
      have hstoreless := ((storeless_call s hstore).trans (storeless_call _
        (c := .notifyGetState state_result state) nofun)).trans (storeless_call _
          (c := .getPercent read_result percent charging full) nofun)
      have hwatch : (((s.call (.notifySetState kPercentState set_result)).call
          (.notifyGetState state_result state)).call
            (.getPercent read_result percent charging full)).watch =
          ⟨s.watch.unwithdrawn,
            s.watch.replaced || (state_result = 0 && state ≠ kPercentState), false⟩ := by
        simp only [watch_call, Watch.see, if_true, if_neg hset, Bool.and_true]
      have hpending : ¬Pending strict ⟨s.watch.unwithdrawn,
          s.watch.replaced || (state_result = 0 && state ≠ kPercentState), false⟩ := by
        rintro ⟨hun, hreplaced⟩
        refine h.pending ⟨hun, fun hr => hreplaced ?_⟩
        dsimp only
        rw [hr, Bool.true_or]
      have howns : Owns strict (((s.call (.notifySetState kPercentState set_result)).call
          (.notifyGetState state_result state)).call
            (.getPercent read_result percent charging full)) :=
        ⟨by rw [hwatch], fun hp => absurd (hwatch ▸ hp) hpending⟩
      refine Storeless.outcome (K := Owns strict) (hstoreless.trans (.of_same rfl rfl rfl)) ?_
      exact ⟨howns.idle, fun hp => absurd (hwatch ▸ hp) hpending⟩
  · intro hvalid
    simp only [Bool.and_eq_true] at hvalid ⊢
    exact hvalid.1.1.1.1.1

/-! ## What the blocks do to the word -/

/-- The process runs, and is not stopping. -/
def Service.Live (s : Service) : Prop := s.phase.alive = true ∧ s.publisher.stopping = false

theorem Service.Live.of_core (h : s.Live) (hcore : s'.core = s.core) : s'.Live :=
  ⟨(congrArg (·.phase.alive) hcore).trans h.1, (congrArg Core.stopping hcore).trans h.2⟩

/-- What holds between two blocks: a pending word is owned, and a service that owns it is ready. -/
structure Kept (strict : Bool) (s : Service) : Prop extends Owns strict s where
  ready : s.publisher.percent_owned = true → s.publisher.ready = true
  source : s.publisher.ready = s.publisher.source.isSome
  live : s.publisher.percent_owned = true → s.Live

/-- A word is pending, and the service is not ready. -/
structure Left (strict : Bool) (s : Service) : Prop where
  pending : Pending strict s.watch
  ready : s.publisher.ready = false

theorem Clear.kept (h : Clear strict s) (hready : s.publisher.ready = false)
    (hsource : s.publisher.source = none) : Kept strict s := by
  have hnot : s.publisher.percent_owned ≠ true := by rw [h.owned]; exact Bool.false_ne_true
  refine ⟨h.owns, fun ho => absurd ho hnot, ?_, fun ho => absurd ho hnot⟩
  rw [hready, hsource]
  rfl

/-- A service without a source owns no word. -/
theorem Kept.clear (h : Kept strict s) (hsource : s.publisher.source = none) : Clear strict s := by
  refine h.toOwns.clear (Bool.not_eq_true _ ▸ fun ho => ?_)
  have hready := h.ready ho
  rw [h.source, hsource] at hready
  cases hready

/-- `release_current_source` withdraws the word. -/
theorem releaseCurrentSource_clear (h : Owns strict s) (ht : ¬s.publisher.percent_token < 0)
    (hsource : s.publisher.ready = s.publisher.source.isSome) :
    let s' := (releaseCurrentSource apis s).2
    Storeless s s' ∧ Clear strict s' ∧ s'.publisher.source = none ∧ s'.publisher.ready = false ∧
      s'.core = s.core := by
  obtain ⟨hstoreless, hclear⟩ := withdrawPercent_clear apis h ht
  have hsteady := withdrawPercent_steady apis s
  rw [releaseCurrentSource]
  dsimp only
  generalize withdrawPercent apis s = s₁ at hstoreless hclear hsteady ⊢
  split
  · rename_i hnone
    refine ⟨hstoreless, hclear, hnone, ?_, hsteady.core⟩
    rw [hsteady.ready, hsource, ← hsteady.source, hnone]
    rfl
  · rename_i source hsome
    have hrelease := storeless_call s₁
      (c := .releaseSource source (apis.release_source s₁.calls.length)) nofun
    exact ⟨hstoreless.trans (hrelease.trans (.of_same rfl rfl rfl)), (hclear.call rfl).of_same rfl rfl,
      rfl, rfl, hsteady.core⟩

/-- `publish_source` at `failed` makes no calls, and is not ready. -/
theorem publishFailed_spec (retry_on_failure : Bool) (s : Service) :
    let s' := publishFailed retry_on_failure s
    s'.calls = s.calls ∧ s'.publisher.percent_token = s.publisher.percent_token ∧
      s'.phase = s.phase ∧ s'.publisher.percent_owned = s.publisher.percent_owned ∧ s'.publisher.source = none ∧
        s'.publisher.ready = false := by
  rw [publishFailed]
  dsimp only
  split
  · exact ⟨rfl, rfl, rfl, rfl, rfl, rfl⟩
  · exact ⟨rfl, rfl, rfl, rfl, rfl, rfl⟩

theorem publishFailed_kept (retry_on_failure : Bool) (h : Clear strict s) :
    Storeless s (publishFailed retry_on_failure s) ∧ Kept strict (publishFailed retry_on_failure s) := by
  obtain ⟨hcalls, htoken, hphase, howned, hsource, hready⟩ := publishFailed_spec retry_on_failure s
  exact ⟨.of_same hcalls htoken hphase, (h.of_same hcalls howned).kept hready hsource⟩

/-- A rejected source is released after the withdrawal of the word. -/
theorem rejectSource_kept (source : Source) (retry_on_failure : Bool) (h : Owns strict s)
    (ht : ¬s.publisher.percent_token < 0) :
    Storeless s (rejectSource apis source retry_on_failure s) ∧
      Kept strict (rejectSource apis source retry_on_failure s) := by
  obtain ⟨hstoreless, hclear⟩ := withdrawPercent_clear apis h ht
  have hrelease := storeless_call (withdrawPercent apis s) (c := .releaseSource source
    (apis.release_source (withdrawPercent apis s).calls.length)) nofun
  obtain ⟨hfailed, hkept⟩ := publishFailed_kept retry_on_failure (hclear.call (c := .releaseSource
    source (apis.release_source (withdrawPercent apis s).calls.length)) rfl)
  exact ⟨(hstoreless.trans hrelease).trans hfailed, hkept⟩

/-- A lost word stays when the source is rejected: the withdrawal does nothing. -/
theorem rejectSource_left (source : Source) (retry_on_failure : Bool) (h : Lost strict s) :
    Storeless s (rejectSource apis source retry_on_failure s) ∧
      Left strict (rejectSource apis source retry_on_failure s) := by
  rw [rejectSource, withdrawPercent_of_not_owned apis h.owned]
  have hrelease := storeless_call s
    (c := .releaseSource source (apis.release_source s.calls.length)) nofun
  obtain ⟨hcalls, htoken, hphase, -, -, hready⟩ := publishFailed_spec retry_on_failure
    (s.call (.releaseSource source (apis.release_source s.calls.length)))
  refine ⟨hrelease.trans (.of_same hcalls htoken hphase), ?_, hready⟩
  have hwatch : (publishFailed retry_on_failure
      (s.call (.releaseSource source (apis.release_source s.calls.length)))).watch = s.watch := by
    rw [Service.watch, hcalls, ← Service.watch, watch_call]
    rfl
  rw [hwatch]
  exact h.pending

/-- A created source is accepted with the word stored, or rejected, or the process ends. -/
theorem validateSource_outcome (source : Source) (retry_on_failure : Bool) (h : Clear strict s)
    (ht : ¬s.publisher.percent_token < 0) (hready : s.publisher.ready = false)
    (hsource : s.publisher.source = none) (hlive : s.Live) :
    Outcome apis strict (Kept strict) (Left strict) s
      (validateSource apis source retry_on_failure s).2 := by
  rw [validateSource]
  have hset := storeless_call s (c := .setDetails source (apis.set_details s.calls.length)) nofun
  have hclear := h.call (c := .setDetails source (apis.set_details s.calls.length)) rfl
  dsimp only
  split
  · obtain ⟨hstoreless, hkept⟩ := rejectSource_kept apis source retry_on_failure hclear.owns ht
    exact (hset.trans hstoreless).outcome hkept
  · generalize verifyPublication apis _ source = verified
    have hverify := fun v => hset.trans (storeless_call _ (c := .verify v) nofun)
    have hclear' := fun v => hclear.call (c := .verify v) rfl
    cases verified with
    | none =>
      dsimp only
      refine Storeless.outcome (K := Kept strict)
        ((hverify none).trans (.of_calls rfl ⟨rfl, .inr rfl⟩)) ?_
      refine Clear.kept ?_ hready hsource
      exact (hclear' none).of_same rfl rfl
    | some valid =>
      cases valid with
      | false =>
        obtain ⟨hstoreless, hkept⟩ :=
          rejectSource_kept apis source retry_on_failure (hclear' (some false)).owns ht
        exact ((hverify (some false)).trans hstoreless).outcome hkept
      | true =>
        obtain ⟨houtcome, howned⟩ := publishPercent_outcome apis (hclear' (some true))
        have hsteady := publishPercent_steady apis
          ((s.call (.setDetails source (apis.set_details s.calls.length))).call (.verify (some true)))
        refine Outcome.after (hverify (some true)) ?_
        dsimp only
        generalize publishPercent apis _ = p at houtcome howned hsteady ⊢
        split
        · -- The source is accepted, with the word that is owned.
          rename_i hvalid
          refine houtcome.before (.of_same rfl rfl rfl) (fun howns => ?_) (fun hlost => ?_)
          · refine ⟨⟨howns.idle, howns.pending⟩, fun _ => rfl, rfl, fun _ => ?_⟩
            exact hlive.of_core hsteady.core
          · exact absurd (howned hvalid) (by rw [hlost.owned]; exact Bool.false_ne_true)
        · have ht' : ¬p.2.publisher.percent_token < 0 := by
            obtain ⟨-, -, hframe, -⟩ := houtcome
            rw [hframe.token]
            exact ht
          refine houtcome.trans (fun howns => ?_) fun hlost =>
            rejectSource_left apis source retry_on_failure hlost
          obtain ⟨hstoreless, hkept⟩ := rejectSource_kept apis source retry_on_failure howns ht'
          exact hstoreless.outcome hkept

/-- `publish_source` once no source is left. -/
theorem createSource_outcome (retry_on_failure : Bool) (h : Clear strict s)
    (ht : ¬s.publisher.percent_token < 0) (hready : s.publisher.ready = false)
    (hsource : s.publisher.source = none) (hlive : s.Live) :
    Outcome apis strict (Kept strict) (Left strict) s (createSource apis retry_on_failure s).2 := by
  rw [createSource]
  generalize apis.create s.calls.length = created
  obtain ⟨create_result, source⟩ := created
  have hcreate := storeless_call s (c := .create s.block s.publisher.retry_generation
    s.publisher.stopping create_result source) nofun
  have hclear := h.call (c := .create s.block s.publisher.retry_generation
    s.publisher.stopping create_result source) rfl
  cases source with
  | none =>
    obtain ⟨hstoreless, hkept⟩ := publishFailed_kept retry_on_failure hclear
    exact (hcreate.trans hstoreless).outcome hkept
  | some source =>
    dsimp only
    split
    · have hrelease := fun r => storeless_call (s.call (.create s.block
        s.publisher.retry_generation s.publisher.stopping create_result (some source)))
          (c := .releaseSource source r) nofun
      have hclear' := fun r => hclear.call (c := .releaseSource source r) rfl
      obtain ⟨hstoreless, hkept⟩ := publishFailed_kept retry_on_failure (hclear' _)
      exact ((hcreate.trans (hrelease _)).trans hstoreless).outcome hkept
    · exact (validateSource_outcome apis source retry_on_failure hclear ht hready hsource
        hlive).after hcreate

/-- `publish_source`. -/
theorem publishSource_outcome (retry_on_failure : Bool) (h : Kept strict s)
    (ht : ¬s.publisher.percent_token < 0) (halive : s.phase.alive = true) :
    Outcome apis strict (Kept strict) (Left strict) s (publishSource apis retry_on_failure s).2 := by
  rw [publishSource]
  split
  · exact (Storeless.refl s).outcome h
  · rename_i hnot
    have hlive : s.Live := ⟨halive, Bool.not_eq_true _ ▸ fun hstop => hnot (.inl hstop)⟩
    split
    · -- A source that is still there is released first.
      obtain ⟨hstoreless, hclear, hnone, hready, hcore⟩ :=
        releaseCurrentSource_clear apis h.toOwns ht h.source
      have ht' : ¬(releaseCurrentSource apis s).2.publisher.percent_token < 0 := by
        rw [hstoreless.token]
        exact ht
      exact (createSource_outcome apis retry_on_failure hclear ht' hready hnone
        (hlive.of_core hcore)).after hstoreless
    · rename_i hnone
      rw [Bool.not_eq_true, Option.isSome_eq_false_iff, Option.isNone_iff_eq_none] at hnone
      have hready : s.publisher.ready = false := by rw [h.source, hnone]; rfl
      exact createSource_outcome apis retry_on_failure (h.clear hnone) ht hready hnone hlive

theorem validateSource_ready (source : Source) (retry_on_failure : Bool) (s : Service)
    (h : (validateSource apis source retry_on_failure s).1 = true) :
    (validateSource apis source retry_on_failure s).2.publisher.ready = true := by
  rw [validateSource] at h ⊢
  dsimp only at h ⊢
  split at h
  · cases h
  · rename_i hset
    rw [if_neg hset]
    generalize verifyPublication apis _ source = verified at h ⊢
    cases verified with
    | none => cases h
    | some valid =>
      cases valid with
      | false => cases h
      | true =>
        dsimp only at h ⊢
        split at h
        · rename_i hvalid
          rw [if_pos hvalid]
          rfl
        · cases h

/-- `publish_source` succeeds only if the service is ready after it. -/
theorem publishSource_ready (retry_on_failure : Bool) (s : Service)
    (h : (publishSource apis retry_on_failure s).1 = true) :
    (publishSource apis retry_on_failure s).2.publisher.ready = true := by
  rw [publishSource] at h ⊢
  split at h
  · cases h
  · rename_i hnot
    rw [if_neg hnot]
    generalize (if s.publisher.source.isSome then _ else s) = s₁ at h ⊢
    rw [createSource] at h ⊢
    generalize apis.create s₁.calls.length = created at h ⊢
    obtain ⟨create_result, source⟩ := created
    cases source with
    | none => cases h
    | some source =>
      dsimp only at h ⊢
      split at h
      · cases h
      · rename_i hcreate
        rw [if_neg hcreate]
        exact validateSource_ready apis source retry_on_failure _ h

/-- `retry_publish`. -/
theorem retryPublish_outcome (generation : ℕ) (h : Kept strict s)
    (ht : ¬s.publisher.percent_token < 0) (halive : s.phase.alive = true) :
    Outcome apis strict (Kept strict) (Left strict) s (retryPublish apis generation s) := by
  rw [retryPublish]
  split
  · exact (Storeless.refl s).outcome h
  · exact publishSource_outcome apis true h ht halive

/-- `powerd_resync`. -/
theorem powerdResync_outcome (token : Int32) (h : Kept strict s)
    (ht : ¬s.publisher.percent_token < 0) (halive : s.phase.alive = true) :
    Outcome apis strict (Kept strict) (Left strict) s (powerdResync apis token s) := by
  rw [powerdResync]
  split
  · exact (Storeless.refl s).outcome h
  · split
    · refine Storeless.outcome (K := Kept strict) (.of_same rfl rfl rfl) ?_
      exact ⟨⟨h.idle, h.pending⟩, h.ready, h.source, h.live⟩
    · dsimp only
      have howns : Owns strict (supersede s) := ⟨h.idle, h.pending⟩
      obtain ⟨hstoreless, hclear, hnone, hready, hcore⟩ :=
        releaseCurrentSource_clear apis howns ht h.source
      have ht' : ¬(releaseCurrentSource apis (supersede s)).2.publisher.percent_token < 0 := by
        rw [hstoreless.token]
        exact ht
      have hbefore : Storeless s (supersede s) := .of_same rfl rfl rfl
      have hpublish := publishSource_outcome apis true (hclear.kept hready hnone) ht'
        ((congrArg (·.phase.alive) hcore).trans halive)
      exact hpublish.after (hbefore.trans hstoreless)

/-- The cancellation of a token is no store. -/
theorem cancelToken_spec (token : Int32) (s : Service) :
    let s' := cancelToken token s
    Storeless s s' ∧ s'.watch = s.watch ∧ s'.publisher = s.publisher := by
  rw [cancelToken]
  split
  · exact ⟨storeless_call s nofun, watch_call s _, rfl⟩
  · exact ⟨.refl s, rfl, rfl⟩

/-- A service that stops withdraws the word. -/
theorem stop_release (h : Kept strict s) (ht : ¬s.publisher.percent_token < 0) :
    let s' := (releaseCurrentSource apis (stop s)).2
    Storeless s s' ∧ Clear strict s' ∧ s'.publisher.source = none ∧ s'.publisher.ready = false := by
  have howns : Owns strict (stop s) := ⟨h.idle, h.pending⟩
  obtain ⟨hstoreless, hclear, hnone, hready, -⟩ := releaseCurrentSource_clear apis howns ht h.source
  have hstop : Storeless s (stop s) := .of_same rfl rfl rfl
  exact ⟨hstop.trans hstoreless, hclear, hnone, hready⟩

/-- `shutdown_on_queue`. -/
theorem shutdownOnQueue_kept (h : Kept strict s) (ht : ¬s.publisher.percent_token < 0) :
    (∃ l, NoStore l ∧ (shutdownOnQueue apis s).calls = s.calls ++ l) ∧
      Kept strict (shutdownOnQueue apis s) := by
  rw [shutdownOnQueue]
  split
  · exact ⟨(Storeless.refl s).calls, h⟩
  · dsimp only
    have hstop : Storeless s (stop s) := .of_same rfl rfl rfl
    obtain ⟨hcancel, hwatch, hpublisher⟩ := cancelToken_spec s.publisher.resync_token (stop s)
    generalize cancelToken s.publisher.resync_token (stop s) = s₁ at hcancel hwatch hpublisher ⊢
    have howns : Owns strict s₁ := by
      refine ⟨hwatch ▸ h.idle, fun hp => ?_⟩
      rw [hpublisher]
      exact h.pending (hwatch ▸ hp)
    obtain ⟨hrelease, hclear, hnone, hready, -⟩ := releaseCurrentSource_clear apis howns
      (by rw [hpublisher]; exact ht) (by rw [hpublisher]; exact h.source)
    generalize (releaseCurrentSource apis s₁).2 = s₂ at hrelease hclear hnone hready ⊢
    obtain ⟨hcancel', hwatch', hpublisher'⟩ := cancelToken_spec s₂.publisher.percent_token s₂
    generalize cancelToken s₂.publisher.percent_token s₂ = s₃ at hcancel' hwatch' hpublisher' ⊢
    refine ⟨(((hstop.trans hcancel).trans hrelease).trans hcancel').calls, Clear.kept ?_ ?_ ?_⟩
    · exact ⟨hwatch' ▸ hclear.idle, hwatch' ▸ hclear.pending, hpublisher' ▸ hclear.owned⟩
    · exact hpublisher' ▸ hready
    · exact hpublisher' ▸ hnone

/-- The initial publication has not begun. -/
def Phase.early : Phase → Bool
  | .starting | .registering | .registered => true
  | _ => false

/-- What holds at every block boundary, with the life of the source. -/
structure PercentInv (strict : Bool) (s : Service) : Prop extends Kept strict s where
  token : s.phase.alive = true → ¬s.publisher.percent_token < 0
  early : s.phase.early = true → s.retries = [] ∧
    s.publisher.initial_publish_complete = false ∧ s.publisher.percent_owned = false
  lifecycle : s.phase = .fatal ∨ LifecycleInv s

variable {apis}

/-- What the block does to the word: if the stores that it makes are all read back, `K` holds after
it, and if not, a word is left. -/
def BlockOutcome (apis : APIs) (strict : Bool) (K : Service → Prop) (s s' : Service) : Prop :=
  ∃ l, s'.calls = s.calls ++ l ∧ ((Checked apis (Good strict) s.calls.length l ∧ K s') ∨
    (¬Checked apis (Good strict) s.calls.length l ∧ Left strict s'))

theorem BlockOutcome.mono (h : BlockOutcome apis strict K s s') (hK : K s' → K' s') :
    BlockOutcome apis strict K' s s' := by
  obtain ⟨l, hcalls, hl⟩ := h
  exact ⟨l, hcalls, hl.imp (And.imp_right hK) id⟩

theorem BlockOutcome.of_storeless (h : ∃ l, NoStore l ∧ s'.calls = s.calls ++ l) (hK : K s') :
    BlockOutcome apis strict K s s' := by
  obtain ⟨l, hl, hcalls⟩ := h
  exact ⟨l, hcalls, .inl ⟨hl.checked, hK⟩⟩

/-- What the source and the phase are is all that `Kept` needs to know but for the calls. -/
theorem Kept.of_same (h : Kept strict s) (hcalls : s'.calls = s.calls)
    (howned : s'.publisher.percent_owned = s.publisher.percent_owned)
    (hready : s'.publisher.ready = s.publisher.ready)
    (hsource : s'.publisher.source = s.publisher.source)
    (hlive : s.publisher.percent_owned = true → s.Live → s'.Live) : Kept strict s' := by
  have hwatch : s'.watch = s.watch := by rw [Service.watch, hcalls, Service.watch]
  refine ⟨⟨hwatch ▸ h.idle, fun hp => howned.trans (h.pending (hwatch ▸ hp))⟩, fun ho => ?_, ?_,
    fun ho => hlive (howned ▸ ho) (h.live (howned ▸ ho))⟩
  · exact hready.trans (h.ready (howned ▸ ho))
  · rw [hready, hsource]
    exact h.source

theorem Left.of_same (h : Left strict s) (hcalls : s'.calls = s.calls)
    (hready : s'.publisher.ready = s.publisher.ready) : Left strict s' := by
  have hwatch : s'.watch = s.watch := by rw [Service.watch, hcalls, Service.watch]
  exact ⟨hwatch ▸ h.pending, hready.trans h.ready⟩

/-- What is done after the last call of a block. -/
theorem Outcome.block (h : Outcome apis strict (Kept strict) (Left strict) s s₁)
    (hcalls : s'.calls = s₁.calls) (hready : s'.publisher.ready = s₁.publisher.ready)
    (hK : Kept strict s₁ → K s') : BlockOutcome apis strict K s s' := by
  obtain ⟨l, hl, -, hor⟩ := h
  refine ⟨l, hcalls.trans hl, hor.imp (And.imp_right hK) (And.imp_right fun hleft => ?_)⟩
  exact hleft.of_same hcalls hready

variable (apis)

/-- The initial publication, which may be followed by a resync that has come before it. -/
theorem initialPublish_outcome (h : Kept strict s) (ht : ¬s.publisher.percent_token < 0)
    (hphase : s.phase = .registered) :
    BlockOutcome apis strict (Kept strict) s (initialPublish apis s) ∧
      (initialPublish apis s).publisher.percent_token = s.publisher.percent_token ∧
        (initialPublish apis s).phase.early = false := by
  have hpublish := publishSource_outcome apis false h ht (by rw [hphase]; rfl)
  have hsuccess := publishSource_ready apis false s
  rw [initialPublish]
  generalize publishSource apis false s = p at hpublish hsuccess ⊢
  obtain ⟨ready, s₁⟩ := p
  obtain ⟨-, -, hframe, -⟩ := id hpublish
  dsimp only at hpublish hsuccess hframe ⊢
  have hlive : ∀ {s₂ : Service} {b : Bool},
      s₂.Live → ({ s₂ with phase := if b then .running else .failed } : Service).Live := by
    intro s₂ b hs
    refine ⟨?_, hs.2⟩
    cases b <;> rfl
  split
  · -- `fatal` has ended the process.
    rename_i hfatal
    exact ⟨hpublish.block rfl rfl id, hframe.token, by rw [hfatal]; rfl⟩
  · rename_i hfatal
    have hphase₁ : s₁.phase = .registered := (hframe.phase.resolve_right hfatal).trans hphase
    split
    · rename_i hpending
      obtain ⟨rfl, -⟩ := hpending
      -- The resync runs on the state of the initial publication.
      have hresync : ∀ s₂ : Service, s₂.calls = s₁.calls →
          s₂.publisher.percent_token = s₁.publisher.percent_token → s₂.phase = s₁.phase →
          (Kept strict s₁ → Kept strict s₂) → Outcome apis strict (Kept strict) (Left strict) s
            (powerdResync apis s₁.publisher.resync_token s₂) := by
        intro s₂ hcalls htoken hphase₂ hkept₂
        refine hpublish.trans (fun hkept => ?_) fun hleft => ?_
        · refine (powerdResync_outcome apis s₁.publisher.resync_token (hkept₂ hkept) ?_ ?_).after
            (.of_same hcalls htoken hphase₂)
          · rw [htoken, hframe.token]
            exact ht
          · rw [hphase₂, hphase₁]
            rfl
        · exact absurd (hsuccess rfl) (by rw [hleft.ready]; exact Bool.false_ne_true)
      have hresync := hresync { s₁ with
        publisher := { s₁.publisher with initial_publish_complete := true, resync_pending := false }
        published := true } rfl rfl rfl fun hkept => hkept.of_same rfl rfl rfl rfl fun _ => id
      generalize powerdResync apis s₁.publisher.resync_token _ = s₂ at hresync ⊢
      obtain ⟨-, -, hframe₂, -⟩ := id hresync
      split
      · rename_i hfatal₂
        exact ⟨hresync.block rfl rfl id, hframe₂.token, by rw [hfatal₂]; rfl⟩
      · refine ⟨hresync.block rfl rfl fun hkept => hkept.of_same rfl rfl rfl rfl fun _ => hlive,
          hframe₂.token, ?_⟩
        cases s₂.publisher.ready <;> rfl
    · refine ⟨hpublish.block rfl rfl fun hkept => hkept.of_same rfl rfl rfl rfl fun _ => hlive,
        hframe.token, ?_⟩
      cases ready <;> rfl

/-- In the early phases, a resync is only noted. -/
theorem powerdResync_early (token : Int32) (h : s.publisher.initial_publish_complete = false) :
    (powerdResync apis token s).retries = s.retries ∧
      (powerdResync apis token s).publisher.initial_publish_complete = false ∧
        (powerdResync apis token s).publisher.percent_owned = s.publisher.percent_owned := by
  rw [powerdResync]
  split
  · exact ⟨rfl, h, rfl⟩
  · rw [if_pos (by rw [h]; exact Bool.false_ne_true)]
    exact ⟨rfl, h, rfl⟩

/-- A block keeps the invariant, or leaves a word because the read after a store is not good. -/
theorem percentInv_step {b : Block} (h : PercentInv strict s) (hs : s.step apis b = some s') :
    BlockOutcome apis strict (PercentInv strict) s s' := by
  have hlifecycle : s'.phase = .fatal ∨ LifecycleInv s' := by
    rcases h.lifecycle with hfatal | hinv
    · -- After `fatal`, no block runs any more.
      exfalso
      cases b <;> simp [Service.step, hfatal, Phase.alive] at hs
    · exact lifecycleInv_step apis hinv hs
  have hnever {P : Prop} (hfalse : false = true) : P := absurd hfalse Bool.false_ne_true
  have hb : Kept strict { s with block := b } := h.toKept.of_same rfl rfl rfl rfl fun _ => id
  have hsame : ∃ l, NoStore l ∧ s.calls = s.calls ++ l := (Storeless.refl s).calls
  -- A word that is not owned may be lost from sight by any phase.
  have hunowned : ∀ {s₁ s₂ : Service}, Kept strict s₁ → s₁.publisher.percent_owned = false →
      s₂.calls = s₁.calls → s₂.publisher.percent_owned = s₁.publisher.percent_owned →
      s₂.publisher.ready = s₁.publisher.ready → s₂.publisher.source = s₁.publisher.source →
      Kept strict s₂ := fun hkept hnot hcalls howned hready hsource =>
    hkept.of_same hcalls howned hready hsource fun ho => absurd ho (by rw [hnot]; exact Bool.false_ne_true)
  cases b with
  | registerPercent result token =>
    simp only [Service.step] at hs
    split at hs
    · rename_i hphase
      obtain ⟨hretries, hcomplete, howned⟩ := h.early (by rw [hphase]; rfl)
      split at hs
      · obtain rfl := Option.some.inj hs
        exact .of_storeless hsame ⟨hunowned hb howned rfl rfl rfl rfl, hnever, hnever, hlifecycle⟩
      · rename_i htoken
        obtain rfl := Option.some.inj hs
        refine .of_storeless hsame ⟨hunowned hb howned rfl rfl rfl rfl, fun _ => ?_, fun _ => ?_,
          hlifecycle⟩
        · exact fun hneg => htoken (.inr hneg)
        · exact ⟨hretries, hcomplete, howned⟩
    · cases hs
  | registerResync result token =>
    simp only [Service.step] at hs
    split at hs
    · rename_i hphase
      obtain ⟨hretries, hcomplete, howned⟩ := h.early (by rw [hphase]; rfl)
      obtain rfl := Option.some.inj hs
      refine .of_storeless hsame ⟨hunowned hb howned rfl rfl rfl rfl, fun _ => ?_, fun _ => ?_,
        hlifecycle⟩
      · exact h.token (by rw [hphase]; rfl)
      · exact ⟨hretries, hcomplete, howned⟩
    · cases hs
  | initial =>
    simp only [Service.step] at hs
    split at hs
    · rename_i hphase
      obtain rfl := Option.some.inj hs
      have ht := h.token (by rw [hphase]; rfl)
      obtain ⟨houtcome, htoken, hearly⟩ := initialPublish_outcome apis hb ht hphase
      refine houtcome.mono fun hkept => ⟨hkept, fun _ => ?_, fun he => ?_, hlifecycle⟩
      · rw [htoken]
        exact ht
      · rw [hearly] at he
        cases he
    · cases hs
  | retry generation =>
    simp only [Service.step] at hs
    split at hs
    · rename_i hcan
      obtain ⟨halive, hmem⟩ := hcan
      obtain rfl := Option.some.inj hs
      have ht := h.token halive
      have hkept : Kept strict { s with
          block := .retry generation, retries := s.retries.erase generation } :=
        hb.of_same rfl rfl rfl rfl fun _ => id
      have houtcome := retryPublish_outcome apis generation hkept ht halive
      obtain ⟨-, -, hframe, -⟩ := id houtcome
      refine houtcome.block rfl rfl fun hkept => ⟨hkept, fun _ => ?_, fun he => ?_, hlifecycle⟩
      · rw [hframe.token]
        exact ht
      · rcases hframe.phase with hphase | hphase
        · rw [(h.early (hphase ▸ he)).1] at hmem
          cases hmem
        · rw [hphase] at he
          cases he
    · cases hs
  | resync token =>
    simp only [Service.step] at hs
    split at hs
    · rename_i halive
      obtain rfl := Option.some.inj hs
      have ht := h.token halive
      have houtcome := powerdResync_outcome apis token hb ht halive
      obtain ⟨-, -, hframe, -⟩ := id houtcome
      refine houtcome.block rfl rfl fun hkept => ⟨hkept, fun _ => ?_, fun he => ?_, hlifecycle⟩
      · rw [hframe.token]
        exact ht
      · rcases hframe.phase with hphase | hphase
        · obtain ⟨hretries, hcomplete, howned⟩ := h.early (hphase ▸ he)
          obtain ⟨hretries', hcomplete', howned'⟩ := powerdResync_early apis token
            (s := { s with block := .resync token }) hcomplete
          exact ⟨hretries'.trans hretries, hcomplete', howned'.trans howned⟩
        · rw [hphase] at he
          cases he
    · cases hs
  | shutdown signal_number =>
    simp only [Service.step] at hs
    split at hs
    · rename_i halive
      obtain rfl := Option.some.inj hs
      have ht := h.token halive
      obtain ⟨hcalls, hkept⟩ := shutdownOnQueue_kept apis hb ht
      by_cases hstop : s.publisher.stopping = true
      · have heq : shutdownOnQueue apis { s with block := .shutdown signal_number } =
            { s with block := .shutdown signal_number } := if_pos hstop
        rw [heq] at hcalls hkept hlifecycle ⊢
        exact .of_storeless hcalls ⟨hkept, fun _ => ht, h.early, hlifecycle⟩
      · have hexited : ∃ status, (shutdownOnQueue apis { s with
            block := .shutdown signal_number }).phase = .exited status := by
          rw [shutdownOnQueue, if_neg hstop]
          exact ⟨_, rfl⟩
        obtain ⟨status, hexited⟩ := hexited
        exact .of_storeless hcalls ⟨hkept, by rw [hexited]; exact hnever, by rw [hexited]; exact hnever,
          hlifecycle⟩
    · cases hs
  | initialFailed =>
    simp only [Service.step] at hs
    split at hs
    · rename_i hphase
      obtain rfl := Option.some.inj hs
      have ht := h.token (by rw [hphase]; rfl)
      obtain ⟨hstoreless, hclear, hnone, hready⟩ := stop_release apis hb ht
      have hkept := hclear.kept hready hnone
      refine .of_storeless hstoreless.calls ⟨hunowned hkept hclear.owned rfl rfl rfl rfl, fun _ => ?_,
        hnever, hlifecycle⟩
      exact hstoreless.token ▸ ht
    · cases hs
  | finish =>
    simp only [Service.step] at hs
    split at hs
    · rename_i hphase
      obtain rfl := Option.some.inj hs
      -- The service has been stopping since the block before, so it owns no word.
      have hinv := h.lifecycle.resolve_left (by rw [hphase]; exact Phase.noConfusion)
      have hnot : s.publisher.percent_owned ≠ true := fun ho => by
        have hstop := (h.live ho).2
        rw [hinv.stopped hphase] at hstop
        cases hstop
      have hclear : Clear strict (s.call (.notifyCancel s.publisher.resync_token)) :=
        (h.toOwns.clear (Bool.not_eq_true _ ▸ hnot)).call rfl
      have hcancel := storeless_call s (c := .notifyCancel s.publisher.resync_token) (by intro h; cases h)
      have hfinish : Clear strict (finish { s with block := .finish }) := hclear.of_same rfl rfl
      refine .of_storeless hcancel.calls ⟨⟨hfinish.owns, fun ho => absurd ho hnot, h.source,
        fun ho => absurd ho hnot⟩, hnever, hnever, hlifecycle⟩
    · cases hs

/-- No word is pending while the service is down, in the runs in which every read after a store of the
word is good, and only in these. -/
theorem pending_iff (strict : Bool) (bs : List Block) :
    (service apis).Meets (ReadBack apis (Good strict)) .init bs ↔
      (service apis).Throughout (fun s => s.Down → ¬Pending strict s.watch) .init bs := by
  have hnever {P : Prop} (hfalse : false = true) : P := absurd hfalse Bool.false_ne_true
  have hinit : PercentInv strict .init := by
    have hlifecycle : LifecycleInv .init :=
      ⟨⟨rfl, rfl, by simp [Service.init], hnever, hnever⟩, by simp [Service.init], List.nodup_nil,
        fun _ => rfl, by intro h; cases h⟩
    exact ⟨⟨⟨rfl, fun hp => hnever hp.1⟩, hnever, rfl, hnever⟩, hnever, fun _ => ⟨rfl, rfl, rfl⟩, .inr hlifecycle⟩
  -- The stores of a block are those among the calls that it appends.
  have hread : ∀ {s s' : Service} {b : Block} {l : List Call}, s.step apis b = some s' →
      s'.calls = s.calls ++ l →
      (ReadBack apis (Good strict) s b ↔ Checked apis (Good strict) s.calls.length l) := by
    intro s s' b l hs hcalls
    have hdrop : s'.calls.drop s.calls.length = l := by rw [hcalls, List.drop_left]
    rw [← hdrop]
    refine ⟨fun h => h s' hs, fun h t ht => ?_⟩
    obtain rfl := Option.some.inj (hs.symm.trans ht)
    exact h
  refine System.meets_iff_throughout (J := PercentInv strict) (Q := fun _ => True) ?_ ?_ ?_ hinit ?_
  · intro s h hdown hp
    have howned := h.pending hp
    rcases hdown with hready | hfatal | ⟨status, hexited⟩
    · rw [h.ready howned] at hready
      cases hready
    · have halive := (h.live howned).1
      rw [hfatal] at halive
      cases halive
    · have halive := (h.live howned).1
      rw [hexited] at halive
      cases halive
  · intro s b s' _ _ h hgood hs
    obtain ⟨l, hcalls, ⟨-, hinv⟩ | ⟨hbad, -⟩⟩ := percentInv_step apis h hs
    · exact hinv
    · exact absurd ((hread hs hcalls).1 hgood) hbad
  · intro s b s' _ _ h hbad hs hthrough
    obtain ⟨l, hcalls, ⟨hgood, -⟩ | ⟨-, hleft⟩⟩ := percentInv_step apis h hs
    · exact hbad ((hread hs hcalls).2 hgood)
    · exact hthrough (.inl hleft.ready) hleft.pending
  · exact System.throughout_of_step (fun _ _ _ _ _ => trivial) trivial bs

/-- In which runs no word is left behind by a service that is down. It has been withdrawn, with
ownership, in those in which every read after a store of the word succeeds and finds the word; and it
has been withdrawn or seen replaced in those in which every read after a store succeeds. -/
theorem percent_withdrawn (apis : APIs) (bs : List Block) :
    ((service apis).Throughout Withdrawn .init bs ↔
      (service apis).Meets (ReadBack apis fun r => r = (0, kPercentState)) .init bs) ∧
    ((service apis).Throughout NotStale .init bs ↔
      (service apis).Meets (ReadBack apis fun r => r.1 = 0) .init bs) := by
  have hstrict : (Good true) = fun r => r = (0, kPercentState) := by
    funext r
    rw [Good, Prod.ext_iff]
    simp only [true_implies]
  have hlax : (Good false) = fun r => r.1 = 0 := by
    funext r
    simp only [Good, Bool.false_eq_true, false_implies, and_true]
  have hwithdrawn : Withdrawn = fun s => s.Down → ¬Pending true s.watch := by
    funext s
    simp only [Withdrawn, Pending, implies_true, and_true, Bool.not_eq_true]
  have hstale : NotStale = fun s => s.Down → ¬Pending false s.watch := by
    funext s
    simp only [NotStale, Pending, Bool.false_eq_true, imp_false, Bool.not_eq_true]
  rw [hwithdrawn, hstale, ← hstrict, ← hlax]
  exact ⟨(pending_iff apis true bs).symm, (pending_iff apis false bs).symm⟩

/-- A native source list with the published source alone, and a notify state whose reads fail. -/
def failingReads : APIs where
  pid := 1
  create _ := (0, some ⟨1, 5⟩)
  set_details _ := 0
  release_source _ := 0
  verification _ := ⟨true, some [some ⟨kName, kType, kTransport, kState, some 100, some 100, some true,
    some false, some true, some 65541⟩]⟩
  get_percent _ := (0, 100, false, true)
  notify_set_state _ := 0
  notify_post _ := 0
  notify_get_state _ := (1, 0)

/-- The word of an initial publication is left when its read fails: `main` goes on to the failure of the
initial publication, with no withdrawal of the word. -/
theorem stale_of_failingReads :
    ¬(service failingReads).Throughout Withdrawn .init
        [.registerPercent 0 3, .registerResync 0 4, .initial, .initialFailed, .finish] ∧
      ¬(service failingReads).Throughout NotStale .init
        [.registerPercent 0 3, .registerResync 0 4, .initial, .initialFailed, .finish] := by
  have hrun : ((service failingReads).exec .init
      [.registerPercent 0 3, .registerResync 0 4, .initial, .initialFailed, .finish]).any
        (fun s => s.publisher.ready = false ∧ s.watch = ⟨true, false, false⟩) = true := by
    decide +kernel
  obtain ⟨s, hexec, hs⟩ := (Option.any_eq_true _ _).1 hrun
  obtain ⟨hready, hwatch⟩ := of_decide_eq_true hs
  constructor
  · intro h
    have hun := h.last hexec (.inl hready)
    rw [hwatch] at hun
    cases hun
  · intro h
    exact h.last hexec (.inl hready) (by rw [hwatch]; exact ⟨rfl, rfl⟩)

end DarwinVm.Power
