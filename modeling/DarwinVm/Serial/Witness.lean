import DarwinVm.Serial.Batch

/-!
# What the markers of a batch prove

A marker is what `/bin/cksum` prints for a part when it was right, and `wait_for_markers` looks for
it in all that it receives. It says nothing of what was done to the part since: the marker of an
earlier attempt can come after a later one has damaged the part (`returned_damaged`). The parts are
exact when a batch is accepted, if no command changes a part while its marker is in sight, and if
nothing but `/bin/cksum` makes a marker (`returned_exact`). The invariant is that a part whose marker
is in sight is exact.
-/

namespace DarwinVm.Serial.Batch

/-- A part of an upload. -/
structure Part where
  number : ℕ
  chunk : Text
  deriving DecidableEq

/-- The entry of a part. -/
def Part.entry (cksum : Bytes → UInt32) (path : Text) (p : Part) : Entry :=
  part cksum path p.chunk p.number

/-- The bytes of the marker of a part. -/
def Part.witness (cksum : Bytes → UInt32) (path : Text) (p : Part) : Bytes :=
  utf8 (p.entry cksum path).marker

/-- The parts of a file that a batch sends. -/
def partsOf (cksum : Bytes → UInt32) (path : Text) (blob : Bytes) (entries : List Entry) : List Part :=
  ((fileChunks path blob).mapIdx fun i chunk => ⟨i + 1, chunk⟩).filter (·.entry cksum path ∈ entries)

/-- What `wait_for_markers` received, and the drain after it. -/
def heard : Phase → Bytes
  | .marking _ es | .draining es | .returned es => (received es).flatten
  | .prompting _ _ | .settling _ | .recovering _ | .exited => []

/-- What the markers are looked for in, now or later. -/
def State.window (s : State) : Bytes := heard s.phase ++ s.flight

/-- All markers were seen. -/
def Phase.Accepted : Phase → Prop
  | .draining _ | .returned _ => True
  | _ => False

/-- `checked_batch` has returned. -/
def Phase.Returned : Phase → Prop
  | .returned _ => True
  | _ => False

section

variable (cksum : Bytes → UInt32) (resolve : Text → Text) (path : Text) (parts : List Part)

/-- The marker of a part is in sight. -/
def Live (s : State) (p : Part) : Prop := p.witness cksum path <:+: s.window

/-- The files of the parts hold their chunks. -/
def Exact (s : State) : Prop :=
  ∀ p ∈ parts, s.files (resolve (partPath path p.number)) = some (utf8 p.chunk)

/-- What is written to a part whose marker is in sight is its chunk. What `/bin/cksum` prints brings
a marker into sight only if it is the marker. -/
def Keeps (s : State) : Effect → Prop
  | .write name content => ∀ p ∈ parts, resolve name = resolve (partPath path p.number) →
      Live cksum path s p → content = some (utf8 p.chunk)
  | .sum name => ∀ p ∈ parts,
      p.witness cksum path <:+: s.window ++ printed cksum resolve s (.sum name) →
        Live cksum path s p ∨
          printed cksum resolve s (.sum name) = p.witness cksum path ++ utf8 ['\r', '\n']

/-- What the shell does next keeps the parts, and nothing else brings a marker into sight. -/
def Careful (s : State) : Label → Prop
  | .run => ∀ e ∈ s.todo.head?, Keeps cksum resolve path parts s e
  | .say text => ∀ p ∈ parts, p.witness cksum path <:+: s.window ++ text → Live cksum path s p
  | _ => True

/-- The content that `/bin/cksum` reads. -/
def summed (s : State) : Label → Option Bytes
  | .run => s.todo.head?.bind fun e => match e with
    | .sum name => s.files (resolve name)
    | .write _ _ => none
  | _ => none

/-- The contents that `/bin/cksum` reads are some of `contents`. -/
def Sums (contents : Set Bytes) (s : State) (a : Label) : Prop :=
  ∀ content ∈ summed resolve s a, content ∈ contents

end

/-! ## The waits -/

/-- What `wait_for_markers` found is kept. -/
theorem keptAfter_of_markersFrom {wanted : Finset Text} : ∀ {es : List Recv} {seen : Finset Text}
    {t : Text}, seen ⊆ wanted → markersFrom wanted seen (tail t) es = true →
      ∀ m ∈ wanted, m ∈ seen ∨ KeptAfter t m (received es)
  | [], _, _, _, h => absurd h Bool.false_ne_true
  | .blocked :: es, _, _, hsub, h => @keptAfter_of_markersFrom wanted es _ _ hsub h
  | .reset :: _, _, _, _, h => absurd h Bool.false_ne_true
  | .data c :: es, seen, t, hsub, h => by
    intro m hm
    rw [markersFrom] at h
    by_cases hc : c = []
    · rw [if_pos hc] at h
      exact absurd h Bool.false_ne_true
    rw [if_neg hc, tail_append] at h
    dsimp only at h
    rw [received, keptAfter_cons_iff]
    generalize hseen : seen ∪ wanted.filter (fun m => literal m (tail (t ++ utf8DecodeReplace c))) =
      seen' at h
    have hsub' : seen' ⊆ wanted := hseen ▸ Finset.union_subset hsub (Finset.filter_subset _ _)
    have hmem : m ∈ seen' → m ∈ seen ∨ m <:+: tail (t ++ utf8DecodeReplace c) := by
      rw [← hseen, Finset.mem_union, Finset.mem_filter]
      exact fun h => h.imp_right fun h => of_decide_eq_true h.2
    by_cases hall : seen'.card = wanted.card
    · rw [Finset.eq_of_subset_of_card_le hsub' hall.ge] at hmem
      exact (hmem hm).imp_right Or.inl
    · rw [if_neg hall] at h
      obtain hm | hm := keptAfter_of_markersFrom hsub' h m hm
      · exact (hmem hm).imp_right Or.inl
      · exact Or.inr (Or.inr hm)

/-- The markers that `wait_for_markers` found occur in what it received. -/
theorem infix_of_waitForMarkers {ms : List Text} {es : List Recv} (h : waitForMarkers ms es = true)
    {m : Text} (hm : m ∈ ms) (hr : replacement ∉ m) : utf8 m <:+: (received es).flatten := by
  have hkept := (@keptAfter_of_markersFrom ms.toFinset es ∅ [] (Finset.empty_subset _) h m
    (List.mem_toFinset.mpr hm)).resolve_left (Finset.notMem_empty m)
  have hocc := (keptAfter_nil_iff.mp hkept).occurs hr
  rwa [Occurs, occurs_utf8DecodeReplace hr] at hocc

/-- What is received is no longer in flight. -/
theorem rest_eq {flight left : Bytes} {e : Recv} (h : rest flight e = some left) (es : List Recv) :
    (received (es ++ [e])).flatten ++ left = (received es).flatten ++ flight := by
  have happend : ∀ es, (received (es ++ [e])).flatten = (received es).flatten ++ (received [e]).flatten := by
    intro es
    induction es with
    | nil => rfl
    | cons d es ih =>
      cases d with
      | data chunk =>
        rw [List.cons_append, received, received, List.flatten_cons, List.flatten_cons, ih,
          List.append_assoc]
      | blocked => exact ih
      | reset => exact ih
  rw [happend, List.append_assoc]
  congr 1
  cases e with
  | data chunk =>
    obtain ⟨⟨⟨after, rfl⟩, -⟩, h⟩ := Option.ite_none_right_eq_some.mp h
    obtain rfl := Option.some.inj h
    rw [received, received, List.flatten_singleton, List.drop_left]
  | blocked => exact (Option.some.inj h).symm
  | reset => exact (Option.some.inj h).symm

/-! ## What a step does -/

section

variable {shell : Shell.Guest} {cksum : Bytes → UInt32} {resolve : Text → Text}
variable {search : Text → Bool} {entries : List Entry} {attempts : ℕ} {s s' : State}

/-- A step that leaves the files and prints nothing: no marker comes into sight, and when all were
seen, none goes out of it. -/
structure Quiet (entries : List Entry) (s s' : State) : Prop where
  files : s'.files = s.files
  window : s'.window <:+ s.window
  kept : s.phase.Accepted → s'.window = s.window
  seen : s'.phase.Accepted → s.phase.Accepted ∨
    ∃ es, waitForMarkers (entries.map (·.marker)) es = true ∧ (received es).flatten <+: s'.window

/-- The phase and the output stay as they are. -/
theorem Quiet.of_same (hfiles : s'.files = s.files) (hphase : s'.phase = s.phase)
    (hflight : s'.flight = s.flight) : Quiet entries s s' := by
  have hwindow : s'.window = s.window := by
    unfold State.window
    rw [hphase, hflight]
  exact ⟨hfiles, ⟨[], hwindow⟩, fun _ => hwindow, fun h => Or.inl (hphase ▸ h)⟩

/-- The host goes to a phase in which it has seen no marker. -/
structure Restarts (s s' : State) : Prop where
  files : s'.files = s.files
  flight : s'.flight = s.flight
  heard : heard s'.phase = []
  notAccepted : ¬s'.phase.Accepted

theorem restarts_exited : Restarts s { s with phase := .exited } := ⟨rfl, rfl, rfl, id⟩

theorem restarts_prompt (attempt : ℕ) : Restarts s (s.prompt attempt) := ⟨rfl, rfl, rfl, id⟩

theorem restarts_submit (attempt : ℕ) : Restarts s (s.submit entries attempt) :=
  ⟨rfl, rfl, rfl, id⟩

theorem restarts_next (attempt : ℕ) : Restarts s (s.next attempts attempt) := by
  unfold State.next
  split_ifs
  · exact restarts_exited
  · exact restarts_prompt _

theorem restarts_recover (attempt : ℕ) : Restarts s (s.recover attempts attempt) := by
  unfold State.recover
  split_ifs
  · exact restarts_exited
  · exact ⟨rfl, rfl, rfl, id⟩

/-- What was received is forgotten, and some of what is in flight is received. -/
theorem Restarts.quiet {left : Bytes} (hs : ¬s.phase.Accepted) (hleft : left <:+ s.flight)
    (h : Restarts { s with flight := left } s') : Quiet entries s s' := by
  refine ⟨h.files, ?_, fun h => absurd h hs, fun h' => absurd h' h.notAccepted⟩
  unfold State.window
  rw [h.heard, List.nil_append, h.flight]
  exact hleft.trans (List.suffix_append _ _)

theorem quiet_receive {e : Recv} {left : Bytes} (hrest : rest s.flight e = some left)
    (h : { s with flight := left }.receive search entries attempts e = some s') :
    Quiet entries s s' := by
  have hleft : left <:+ s.flight := ⟨_, rest_eq hrest []⟩
  obtain ⟨phase, wire, typed, pending, todo, files, flight⟩ := s
  cases phase with
  | prompting attempt es =>
    obtain rfl := Option.some.inj h
    refine Restarts.quiet id hleft ?_
    split_ifs
    · exact ⟨rfl, rfl, rfl, id⟩
    · exact restarts_next attempt
    · exact ⟨rfl, rfl, rfl, id⟩
  | settling attempt =>
    obtain rfl := Option.some.inj h
    exact Restarts.quiet id hleft ⟨rfl, rfl, rfl, id⟩
  | marking attempt es =>
    obtain rfl := Option.some.inj h
    by_cases hseen : waitForMarkers (entries.map (·.marker)) (es ++ [e]) = true
    · rw [if_pos hseen]
      refine ⟨rfl, ⟨[], rest_eq hrest es⟩, fun h => absurd h id, fun _ => Or.inr ⟨_, hseen, ?_⟩⟩
      exact List.prefix_append _ _
    · rw [if_neg hseen]
      split_ifs
      · exact Restarts.quiet id hleft (restarts_recover attempt)
      · exact ⟨rfl, ⟨[], rest_eq hrest es⟩, fun h => absurd h id, fun h => absurd h id⟩
  | recovering attempt =>
    obtain rfl := Option.some.inj h
    exact Restarts.quiet id hleft ⟨rfl, rfl, rfl, id⟩
  | draining es =>
    obtain rfl := Option.some.inj h
    have hwindow := rest_eq hrest es
    exact ⟨rfl, ⟨[], hwindow⟩, fun _ => hwindow, fun _ => Or.inl trivial⟩
  | returned es => cases h
  | exited => cases h

theorem quiet_timeout (h : s.timeout entries attempts = some s') : Quiet entries s s' := by
  obtain ⟨phase, wire, typed, pending, todo, files, flight⟩ := s
  cases phase with
  | prompting attempt es =>
    obtain rfl := Option.some.inj h
    exact Restarts.quiet id List.suffix_rfl (restarts_next attempt)
  | settling attempt =>
    obtain rfl := Option.some.inj h
    exact Restarts.quiet id List.suffix_rfl (restarts_submit attempt)
  | marking attempt es =>
    obtain rfl := Option.some.inj h
    exact Restarts.quiet id List.suffix_rfl (restarts_recover attempt)
  | recovering attempt =>
    obtain rfl := Option.some.inj h
    exact Restarts.quiet id List.suffix_rfl (restarts_prompt (attempt + 1))
  | draining es =>
    obtain rfl := Option.some.inj h
    exact ⟨rfl, List.suffix_rfl, fun _ => rfl, fun _ => Or.inl trivial⟩
  | returned es => cases h
  | exited => cases h

theorem quiet_type (b : UInt8) (other : Option (List Effect)) :
    Quiet entries s (s.type shell b other) := by
  unfold State.type
  split_ifs
  · exact .of_same rfl rfl rfl
  · unfold State.enter
    dsimp only
    split
    · exact .of_same rfl rfl rfl
    · exact .of_same rfl rfl rfl
  · exact .of_same rfl rfl rfl

/-- The shell does the next thing, or the guest prints something, or it is a quiet step. -/
theorem step_cases {a : Label}
    (h : step shell cksum resolve search entries attempts s a = some s') :
    (∃ e es, a = .run ∧ s.todo = e :: es ∧ s' =
        { s with todo := es, files := wrote resolve s e, flight := s.flight ++ printed cksum resolve s e }) ∨
      (∃ text, a = .say text ∧ s' = { s with flight := s.flight ++ text }) ∨ Quiet entries s s' := by
  cases a with
  | recv e =>
    obtain ⟨left, hrest, h⟩ := Option.bind_eq_some_iff.mp h
    exact Or.inr (Or.inr (quiet_receive hrest h))
  | timeout => exact Or.inr (Or.inr (quiet_timeout h))
  | lose =>
    obtain ⟨phase, wire, typed, pending, todo, files, flight⟩ := s
    cases wire with
    | nil => cases h
    | cons b wire =>
      obtain rfl := Option.some.inj h
      exact Or.inr (Or.inr (.of_same rfl rfl rfl))
  | arrive other =>
    obtain ⟨phase, wire, typed, pending, todo, files, flight⟩ := s
    cases wire with
    | nil => cases h
    | cons b wire =>
      obtain rfl := Option.some.inj h
      have := @quiet_type shell entries ⟨phase, wire, typed, pending, todo, files, flight⟩ b other
      exact Or.inr (Or.inr ⟨this.files, this.window, this.kept, this.seen⟩)
  | run =>
    refine Or.inl ?_
    obtain ⟨phase, wire, typed, pending, todo, files, flight⟩ := s
    cases todo with
    | nil => cases h
    | cons e es => exact ⟨e, es, rfl, rfl, (Option.some.inj h).symm⟩
  | say text => exact Or.inr (Or.inl ⟨text, rfl, (Option.some.inj h).symm⟩)

end

/-! ## The markers -/

/-- Texts in front of a blank. -/
theorem blank_inj : ∀ {a a' t t' : Text}, ' ' ∉ a → ' ' ∉ a' → a ++ ' ' :: t = a' ++ ' ' :: t' →
    a = a' ∧ t = t'
  | [], [], _, _, _, _, h => ⟨rfl, (List.cons.inj h).2⟩
  | [], _ :: _, _, _, _, h', h => absurd (List.cons.inj h).1 fun h => h' (h ▸ List.mem_cons_self ..)
  | _ :: _, [], _, _, h, _, heq => absurd (List.cons.inj heq).1 fun h' => h (h' ▸ List.mem_cons_self ..)
  | c :: a, c' :: a', _, _, h, h', heq => by
    obtain ⟨hc, htail⟩ := List.cons.inj heq
    obtain ⟨ha, ht⟩ := blank_inj (fun hmem => h (List.mem_cons_of_mem c hmem))
      (fun hmem => h' (List.mem_cons_of_mem c' hmem)) htail
    exact ⟨by rw [hc, ha], ht⟩

theorem blank_notMem_decimal (n : ℕ) : ' ' ∉ decimal n := fun h =>
  absurd (isDigit_of_mem_decimal h) (by decide)

section

variable {cksum : Bytes → UInt32} {resolve : Text → Text} {path : Text} {p : Part}

/-- The marker of a part is what `/bin/cksum` prints for its file when it has the sum of the chunk. -/
theorem eq_of_sumLine {name : Text} {content : Bytes}
    (h : sumLine cksum name content = p.witness cksum path ++ utf8 ['\r', '\n']) :
    name = partPath path p.number ∧ cksum content = cksum (utf8 p.chunk) := by
  unfold sumLine Part.witness Part.entry part at h
  have happend : ∀ t t', utf8 t ++ utf8 t' = utf8 (t ++ t') := fun t t' => List.flatMap_append.symm
  rw [happend] at h
  have h := List.append_cancel_right (utf8_injective h)
  rw [List.append_assoc, List.append_assoc, List.cons_append, List.cons_append] at h
  obtain ⟨hsum, h⟩ := blank_inj (blank_notMem_decimal _) (blank_notMem_decimal _) h
  obtain ⟨-, hname⟩ := blank_inj (blank_notMem_decimal _) (blank_notMem_decimal _) h
  exact ⟨hname, UInt32.toNat_inj.mp (decimal_inj hsum)⟩

/-- The marker of a part of a path in ASCII has no replacement characters. -/
theorem replacement_notMem_marker (h : ∀ c ∈ partDir path, c.toNat < 128) :
    replacement ∉ (p.entry cksum path).marker := by
  have hlt : ∀ {c : Char}, c.toNat < 128 → replacement ≠ c := by
    rintro c hc rfl
    exact absurd hc (by decide)
  have hdecimal (n : ℕ) : replacement ∉ decimal n := fun hmem =>
    hlt (lt_of_isDigit (isDigit_of_mem_decimal hmem)) rfl
  have hpath : replacement ∉ partPath path p.number := by
    intro hmem
    obtain hmem | hmem := List.mem_append.mp hmem
    · exact hlt (h _ hmem) rfl
    · obtain heq | hmem := List.mem_cons.mp hmem
      · exact absurd heq (by decide)
      · exact hlt (lt_of_isDigit (isDigit_of_mem_zeroPad hmem)) rfl
  have hblank : replacement ≠ ' ' := by decide
  unfold Part.entry part
  dsimp only
  rw [List.mem_append, List.mem_append, List.mem_cons, List.mem_cons]
  rintro ((hmem | hmem | hmem) | hmem | hmem)
  · exact hdecimal _ hmem
  · exact hblank hmem
  · exact hdecimal _ hmem
  · exact hblank hmem
  · exact hpath hmem

end

section

variable {shell : Shell.Guest} {cksum : Bytes → UInt32} {resolve : Text → Text}
variable {search : Text → Bool} {entries : List Entry} {attempts : ℕ} {path : Text}
variable {parts : List Part} {contents : Set Bytes} {s s' : State}

/-- A part whose marker is in sight is exact, and when the batch is accepted, all markers are. -/
structure Inv (cksum : Bytes → UInt32) (resolve : Text → Text) (path : Text) (parts : List Part)
    (s : State) : Prop where
  exact : ∀ p ∈ parts, Live cksum path s p →
    s.files (resolve (partPath path p.number)) = some (utf8 p.chunk)
  seen : s.phase.Accepted → ∀ p ∈ parts, Live cksum path s p

/-- A quiet step keeps the invariant. -/
theorem Inv.quiet (hascii : ∀ c ∈ partDir path, c.toNat < 128)
    (hparts : ∀ p ∈ parts, p.entry cksum path ∈ entries) (h : Inv cksum resolve path parts s)
    (hstep : Quiet entries s s') : Inv cksum resolve path parts s' where
  exact p hp hlive := by
    rw [hstep.files]
    exact h.exact p hp (List.IsInfix.trans hlive hstep.window.isInfix)
  seen haccepted p hp := by
    unfold Live
    obtain hs | ⟨es, hes, hpre⟩ := hstep.seen haccepted
    · rw [hstep.kept hs]
      exact h.seen hs p hp
    · have hmarker := infix_of_waitForMarkers hes (List.mem_map_of_mem (hparts p hp))
        (replacement_notMem_marker hascii)
      exact List.IsInfix.trans hmarker hpre.isInfix

/-- More output brings a marker into sight only if the part is exact. -/
theorem Inv.print {out : Bytes} (h : Inv cksum resolve path parts s)
    (hwindow : s'.window = s.window ++ out) (hfiles : s'.files = s.files) (hphase : s'.phase = s.phase)
    (hnew : ∀ p ∈ parts, p.witness cksum path <:+: s.window ++ out →
      Live cksum path s p ∨ s.files (resolve (partPath path p.number)) = some (utf8 p.chunk)) :
    Inv cksum resolve path parts s' where
  exact p hp hlive := by
    unfold Live at hlive
    rw [hwindow] at hlive
    rw [hfiles]
    exact (hnew p hp hlive).elim (h.exact p hp) id
  seen haccepted p hp := by
    unfold Live
    rw [hwindow]
    exact List.IsInfix.trans (h.seen (hphase ▸ haccepted) p hp) (List.prefix_append _ _).isInfix

/-- A step that meets the condition keeps the invariant. -/
theorem Inv.step (hascii : ∀ c ∈ partDir path, c.toNat < 128)
    (hparts : ∀ p ∈ parts, p.entry cksum path ∈ entries) (hinj : Set.InjOn cksum contents)
    (hchunks : ∀ p ∈ parts, utf8 p.chunk ∈ contents) {a : Label}
    (h : Inv cksum resolve path parts s) (hsums : Sums resolve contents s a)
    (hcareful : Careful cksum resolve path parts s a)
    (hstep : step shell cksum resolve search entries attempts s a = some s') :
    Inv cksum resolve path parts s' := by
  obtain ⟨e, es, rfl, htodo, rfl⟩ | ⟨text, rfl, rfl⟩ | hquiet := step_cases hstep
  · have hhead : s.todo.head? = some e := by rw [htodo, List.head?_cons]
    have hkeeps : Keeps cksum resolve path parts s e := hcareful e hhead
    cases e with
    | write name content =>
      -- Nothing is printed, so the markers in sight are the same.
      have hlive (p : Part) : Live cksum path
          { s with todo := es, files := wrote resolve s (.write name content), flight := s.flight ++ [] } p ↔
            Live cksum path s p := by
        unfold Live State.window
        rw [List.append_nil]
      refine ⟨fun p hp hp' => ?_, fun haccepted p hp => (hlive p).mpr (h.seen haccepted p hp)⟩
      have hp' := (hlive p).mp hp'
      by_cases hname : resolve name = resolve (partPath path p.number)
      · dsimp only
        rw [wrote_write, hkeeps p hp hname hp', hname, Function.update_self]
      · dsimp only
        rw [wrote_write, Function.update_of_ne (Ne.symm hname)]
        exact h.exact p hp hp'
    | sum name =>
      refine h.print (List.append_assoc ..).symm rfl rfl fun p hp hinfix => ?_
      refine (hkeeps p hp hinfix).imp_right fun hprinted => ?_
      cases hfile : s.files (resolve name) with
      | none =>
        -- The marker is not empty.
        rw [printed_none hfile] at hprinted
        have hlen := congrArg List.length hprinted
        rw [List.length_append] at hlen
        exact absurd hlen (Nat.ne_of_lt (Nat.add_pos_right _ (by decide)))
      | some content =>
        rw [printed_some hfile] at hprinted
        obtain ⟨rfl, hsum⟩ := eq_of_sumLine hprinted
        have hread : summed resolve s .run = some content := by
          unfold summed
          dsimp only
          rw [hhead, Option.bind_some]
          exact hfile
        have := hinj (hsums content hread) (hchunks p hp) hsum
        rw [hfile, this]
  · refine h.print (List.append_assoc ..).symm rfl rfl fun p hp hinfix => Or.inl (hcareful p hp hinfix)
  · exact h.quiet hascii hparts hquiet

/-- What a line of the batch writes when it arrives whole keeps the parts, if their names lead to
different files. -/
theorem keeps_own {q : Part} (hfiles : ∀ p ∈ parts,
      resolve (partPath path q.number) = resolve (partPath path p.number) → p = q) :
    Keeps cksum resolve path parts s (.write (partPath path q.number) (some (utf8 q.chunk))) := by
  intro p hp hname _
  rw [hfiles p hp hname]

/-- The first attempt begins with nothing received. -/
theorem window_init (start : State) :
    (checkedBatch shell cksum resolve search entries attempts start).init.window = start.flight ∧
      ¬(checkedBatch shell cksum resolve search entries attempts start).init.phase.Accepted := by
  unfold checkedBatch
  dsimp only
  split_ifs
  · exact ⟨rfl, id⟩
  · exact ⟨rfl, id⟩

theorem Phase.Returned.accepted {phase : Phase} (h : phase.Returned) : phase.Accepted := by
  cases phase with
  | returned es => trivial
  | _ => exact h.elim

/-- In a run that begins with no marker in sight, and in which every step keeps the parts whose
markers are, a batch that is accepted is exact. -/
theorem returned_exact {blob : Bytes} {uploadBatch : ℕ} {plan : Plan} {start : State}
    {run : List Label} (hup : upload cksum path blob uploadBatch = .ok plan)
    (hinj : Set.InjOn cksum contents) (hchunks : ∀ chunk ∈ fileChunks path blob, utf8 chunk ∈ contents)
    (hstart : ∀ p ∈ partsOf cksum path blob entries, ¬p.witness cksum path <:+: start.flight)
    (hsums : (checkedBatch shell cksum resolve search entries attempts start).Meets
      (Sums resolve contents) (checkedBatch shell cksum resolve search entries attempts start).init run)
    (hcareful : (checkedBatch shell cksum resolve search entries attempts start).Meets
      (Careful cksum resolve path (partsOf cksum path blob entries))
      (checkedBatch shell cksum resolve search entries attempts start).init run) :
    (checkedBatch shell cksum resolve search entries attempts start).Throughout
      (fun s => s.phase.Returned → Exact resolve path (partsOf cksum path blob entries) s)
      (checkedBatch shell cksum resolve search entries attempts start).init run := by
  obtain ⟨-, hall, -⟩ := upload_eq_ok_iff.mp hup
  have hascii : ∀ c ∈ partDir path, c.toNat < 128 := fun c hc =>
    of_decide_eq_true (List.all_eq_true.mp hall c hc)
  have hparts : ∀ p ∈ partsOf cksum path blob entries, p.entry cksum path ∈ entries := fun p hp =>
    of_decide_eq_true (List.mem_filter.mp hp).2
  have hchunks' : ∀ p ∈ partsOf cksum path blob entries, utf8 p.chunk ∈ contents := by
    intro p hp
    obtain ⟨i, hi, rfl⟩ := List.mem_mapIdx.mp (List.mem_filter.mp hp).1
    exact hchunks _ (List.getElem_mem hi)
  obtain ⟨hwindow, hphase⟩ := @window_init shell cksum resolve search entries attempts start
  have hinit : Inv cksum resolve path (partsOf cksum path blob entries)
      (checkedBatch shell cksum resolve search entries attempts start).init := by
    refine ⟨fun p hp hlive => ?_, fun h => absurd h hphase⟩
    unfold Live at hlive
    rw [hwindow] at hlive
    exact absurd hlive (hstart p hp)
  have hrun := System.throughout_of_meets (P := Inv cksum resolve path (partsOf cksum path blob entries))
    (fun s a s' h hC hstep => h.step hascii hparts hinj hchunks' hC.1 hC.2 hstep) hinit
    (hsums.and hcareful)
  exact hrun.mono fun s h hreturned p hp => h.exact p hp (h.seen hreturned.accepted p hp)

end

/-! ## Runs -/

section

variable (cksum : Bytes → UInt32) (resolve : Text → Text) (path : Text) (parts : List Part)

instance (s : State) (p : Part) : Decidable (Live cksum path s p) :=
  inferInstanceAs (Decidable (_ <:+: _))

instance (s : State) : ∀ e, Decidable (Keeps cksum resolve path parts s e)
  | .write _ _ => inferInstanceAs (Decidable (∀ p ∈ parts, _))
  | .sum _ => inferInstanceAs (Decidable (∀ p ∈ parts, _))

instance (s : State) : ∀ a, Decidable (Careful cksum resolve path parts s a)
  | .run => inferInstanceAs (Decidable (∀ e ∈ s.todo.head?, Keeps cksum resolve path parts s e))
  | .say _ => inferInstanceAs (Decidable (∀ p ∈ parts, _))
  | .recv _ | .timeout | .lose | .arrive _ => inferInstanceAs (Decidable True)

instance (l : List Bytes) (s : State) (a : Label) : Decidable (Sums resolve {c | c ∈ l} s a) :=
  inferInstanceAs (Decidable (∀ content ∈ summed resolve s a, content ∈ l))

instance : DecidablePred Phase.Returned := fun phase => match phase with
  | .returned _ => inferInstanceAs (Decidable True)
  | .prompting _ _ | .settling _ | .marking _ _ | .recovering _ | .draining _ | .exited =>
    inferInstanceAs (Decidable False)

instance (s : State) : Decidable (Exact resolve path parts s) :=
  inferInstanceAs (Decidable (∀ p ∈ parts, _))

end

/-- `(?:^|[\r\n])# ?`. -/
def promptRe (t : Text) : Bool := ['#'] <+: t ∨ ['\r', '#'] <:+: t ∨ ['\n', '#'] <:+: t

/-- What the guest prints for a prompt. -/
def prompt : Bytes := utf8 "# ".toList

/-- A file of one part. -/
def oneBlob : Bytes := [0, 0, 0]

/-- The part line. -/
def oneCommand : Text := partCommand plainPath "AAAA".toList 1

/-- The marker of the part. -/
def oneMarker : Text := "1257162693 4 /private/var/.dvm-data-seed/.upload-parts/000001".toList

/-- The batch of the part. -/
def oneBatch : List Entry := [⟨oneCommand, oneMarker⟩]

/-- The guest waits for a line. -/
def idle : State where
  phase := .exited
  wire := []
  typed := []
  pending := []
  todo := []
  files _ := none
  flight := []

/-- The batch is sent to the guest. -/
def oneUpload : System State Label :=
  checkedBatch someGuest posixCksum id promptRe oneBatch 8 idle

/-- Two newlines arrive and give two prompts, and the line is sent after the first of them. -/
def prompted : List Label :=
  [.arrive none, .say prompt, .arrive none, .say prompt, .recv (.data prompt), .timeout]

/-- The markers do not come. The second prompt is taken for the one of the next attempt. -/
def again : List Label :=
  [.timeout, .timeout] ++ List.replicate 4 (.arrive none) ++ [.recv (.data prompt), .timeout]

/-- The line arrives whole. -/
@[irreducible] def whole : List Label := List.replicate (wire oneCommand).length (.arrive none)

/-- The first character of the chunk does not arrive. -/
def cut : List Label :=
  List.replicate 18 (.arrive none) ++ .lose :: List.replicate ((wire oneCommand).length - 19) (.arrive none)

/-- The marker comes, and then nothing more. -/
def accepted : List Label := [.recv (.data (utf8 (oneMarker ++ ['\r', '\n']))), .timeout]

theorem fileChunks_oneBlob : fileChunks plainPath oneBlob = ["AAAA".toList] := by decide +kernel

/-- The batch is the one of the upload. -/
theorem mem_batches_oneBlob : ∃ plan, upload posixCksum plainPath oneBlob 4 = .ok plan ∧
    oneBatch ∈ plan.batches := by
  refine ⟨_, upload_eq_ok_iff.mpr ⟨safe_plainPath, by decide +kernel, by decide +kernel, rfl⟩, ?_⟩
  dsimp only
  rw [fileChunks_oneBlob]
  decide +kernel

theorem partsOf_oneBlob : partsOf posixCksum plainPath oneBlob oneBatch = [⟨1, "AAAA".toList⟩] := by
  unfold partsOf
  rw [fileChunks_oneBlob]
  decide +kernel

/-- The line is sent. -/
def sent (attempt : ℕ) (flight : Bytes) : State :=
  { idle with phase := .marking attempt [], wire := sendCommandBatch [oneCommand], flight }

/-- The line is read. -/
def entered (attempt : ℕ) (flight : Bytes) : State :=
  { idle with
    phase := .marking attempt []
    todo := [.write (partPath plainPath 1) (some (utf8 "AAAA".toList)), .sum (partPath plainPath 1)]
    flight }

theorem exec_whole (attempt : ℕ) (flight : Bytes) :
    oneUpload.exec (sent attempt flight) whole = some (entered attempt flight) := by
  have hchunk : '\x27' ∉ "AAAA".toList := by decide
  have hline : ∀ c ∈ ": :; ".toList ++ oneCommand, c.toNat ≠ 3 ∧ c.toNat ≠ 10 := by decide +kernel
  have hwire : (sent attempt flight).wire = wire oneCommand ++ [] := rfl
  unfold whole
  exact exec_wire safe_plainPath plain_plainPath hchunk hline hwire rfl rfl

theorem exec_prompted : oneUpload.exec oneUpload.init prompted = some (sent 1 prompt) := by rfl

/-- The contents of the part. -/
def oneContents : List Bytes := [utf8 "AAAA".toList, utf8 "AAA".toList]

theorem injOn_oneContents : Set.InjOn posixCksum {c | c ∈ oneContents} := by
  have hnodup : (oneContents.map posixCksum).Nodup := by decide +kernel
  exact fun a ha b hb h => List.inj_on_of_nodup_map hnodup ha hb h

/-- Nothing of the line arrives. -/
@[irreducible] def lost : List Label := List.replicate (wire oneCommand).length .lose

theorem exec_lost : oneUpload.exec (sent 1 prompt) lost = some { sent 1 prompt with wire := [] } := by
  have hwire : (sent 1 prompt).wire = wire oneCommand ++ [] := rfl
  unfold lost
  exact exec_lose hwire

theorem exec_again : oneUpload.exec { sent 1 prompt with wire := [] } again = some (sent 2 []) := by
  rfl

/-- A run in which the line is lost in the first attempt. -/
def secondAttempt : List Label :=
  prompted ++ (lost ++ (again ++ (whole ++ ([.run, .run] ++ accepted))))

/-- What the labels of a line meet, and what the other steps of the run meet, is met in the run. -/
theorem meets_secondAttempt {C : State → Label → Prop}
    (hlabels : ∀ a ∈ [Label.lose, .arrive none], ∀ s, C s a)
    (hprompted : oneUpload.Meets C oneUpload.init prompted)
    (hagain : oneUpload.Meets C { sent 1 prompt with wire := [] } again)
    (haccepted : oneUpload.Meets C (entered 2 []) ([.run, .run] ++ accepted)) :
    oneUpload.Meets C oneUpload.init secondAttempt := by
  have hrepeat : ∀ a ∈ [Label.lose, .arrive none], ∀ n, ∀ b ∈ List.replicate n a, ∀ s, C s b := by
    intro a ha n b hb s
    obtain rfl := List.eq_of_mem_replicate hb
    exact hlabels b ha s
  have hlost : ∀ a ∈ lost, ∀ s, C s a := by
    unfold lost
    exact hrepeat .lose (List.mem_cons_self ..) _
  have hwhole : ∀ a ∈ whole, ∀ s, C s a := by
    unfold whole
    exact hrepeat (.arrive none) (List.mem_cons_of_mem _ (List.mem_cons_self ..)) _
  exact .append exec_prompted hprompted (.append_of_labels exec_lost hlost
    (.append exec_again hagain (.append_of_labels (exec_whole 2 []) hwhole haccepted)))

/-- A batch of which the first attempt is lost. -/
theorem returned_exact_lost : oneUpload.Throughout
    (fun s => s.phase.Returned → Exact id plainPath (partsOf posixCksum plainPath oneBlob oneBatch) s)
    oneUpload.init secondAttempt := by
  obtain ⟨plan, hup, -⟩ := mem_batches_oneBlob
  have hchunks : ∀ chunk ∈ fileChunks plainPath oneBlob, utf8 chunk ∈ {c | c ∈ oneContents} := by
    rw [fileChunks_oneBlob]
    decide
  have hstart : ∀ p ∈ partsOf posixCksum plainPath oneBlob oneBatch,
      ¬p.witness posixCksum plainPath <:+: idle.flight := by
    rw [partsOf_oneBlob]
    decide +kernel
  have hsums : oneUpload.Meets (Sums id {c | c ∈ oneContents}) oneUpload.init secondAttempt := by
    refine meets_secondAttempt (fun a ha s => ?_) (by decide +kernel) (by decide +kernel)
      (by decide +kernel)
    obtain rfl | ha := List.mem_cons.mp ha
    · nofun
    · obtain rfl := List.mem_singleton.mp ha
      nofun
  have hcareful : oneUpload.Meets
      (Careful posixCksum id plainPath (partsOf posixCksum plainPath oneBlob oneBatch))
      oneUpload.init secondAttempt := by
    rw [partsOf_oneBlob]
    refine meets_secondAttempt (fun a ha s => ?_) (by decide +kernel) (by decide +kernel)
      (by decide +kernel)
    obtain rfl | ha := List.mem_cons.mp ha
    · trivial
    · obtain rfl := List.mem_singleton.mp ha
      trivial
  exact returned_exact hup injOn_oneContents hchunks hstart hsums hcareful

/-- The marker of the first attempt comes in the second one, after the chunk of the part was cut. -/
def late : List Label :=
  [.run, .run] ++ again ++ cut ++ [.run] ++ accepted

/-- A batch that is accepted with a damaged part: the condition on the commands is needed. -/
theorem returned_damaged : ∃ s, oneUpload.exec oneUpload.init (prompted ++ (whole ++ late)) = some s ∧
    s.phase.Returned ∧ ¬Exact id plainPath (partsOf posixCksum plainPath oneBlob oneBatch) s := by
  have hlate : ((oneUpload.exec (entered 1 prompt) late).any fun s =>
      s.phase.Returned ∧ ¬Exact id plainPath [⟨1, "AAAA".toList⟩] s) = true := by decide +kernel
  obtain ⟨s, hs, h⟩ := Option.any_eq_true _ _ |>.mp hlate
  rw [partsOf_oneBlob, System.exec_append, exec_prompted, Option.bind_some, System.exec_append,
    exec_whole, Option.bind_some]
  exact ⟨s, hs, of_decide_eq_true h⟩

end DarwinVm.Serial.Batch
