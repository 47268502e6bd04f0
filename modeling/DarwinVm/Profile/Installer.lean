import DarwinVm.Profile.Prepare

/-!
# A run of the installer

Whatever is on the volume and whatever becomes of the writes, the installer changes nothing unless all
of its checks hold (`Verified`), writes nothing but what it has checked, and prints its last line only
after each write has been read back (`installer_atomic`).

The checks come before all other commands and leave the volume as it is (`exec_test`), so that a
command that writes is only come to if they hold (`verified_of_writing`). Two contents that a test
finds the same are equal, as long as `cksum` tells apart those that it is given in this run
(`Distinct`).
-/

namespace DarwinVm.Profile

open Script
open Signature (Digest)
open Signature.Payload (sums)

variable {g : Guest} {p : Prepared} {patched : Bool} {v : Volume} {s : State} {c : Command}
  {cs ds pre post : List Command} {target payload : Text} {range : Option (ℕ × ℕ)} {b : Bytes}

/-! ## Tests -/

/-- A command that looks at the volume and leaves it as it is, and prints nothing. -/
def Command.isTest : Command → Bool
  | .line _ | .mount _ | .nonempty _ | .noneOf _ | .same _ _ _ | .absent _ => true
  | _ => false

/-- What a command that is a test finds. -/
def passes (g : Guest) (c : Command) (v : Volume) : Prop := (exec g c ⟨v, [], []⟩).2 = true

/-- What a test does depends on the volume only, which it leaves as it is. -/
theorem exec_test (hc : c.isTest = true) : (exec g c s).1.volume = s.volume ∧
    (exec g c s).1.printed = s.printed ∧ ((exec g c s).2 = true ↔ passes g c s.volume) := by
  cases c <;> first | exact ⟨rfl, rfl, Iff.rfl⟩ | cases hc

/-- Tests leave the volume as it is, and succeed if each of them does. -/
theorem run_tests (hcs : ∀ c ∈ cs, c.isTest = true) : (run g cs v).1.volume = v ∧
    (run g cs v).1.printed = [] ∧ ((run g cs v).2 = true ↔ ∀ c ∈ cs, passes g c v) := by
  have hstep : ∀ c ∈ cs, ∀ s : State,
      ((exec g c s).1.volume, (exec g c s).1.printed) = (s.volume, s.printed) ∧
        ((exec g c s).2 = true ↔ passes g c s.volume) := by
    intro c hc s
    obtain ⟨hvolume, hprinted, hok⟩ := exec_test (g := g) (s := s) (hcs c hc)
    exact ⟨by rw [hvolume, hprinted], hok⟩
  obtain ⟨hview, hok⟩ := runAll_tests (s := ⟨v, [], []⟩) (fun s : State => (s.volume, s.printed))
    (fun c view => passes g c view.1) hstep
  exact ⟨congrArg Prod.fst hview, congrArg Prod.snd hview, hok⟩

theorem isTest_of_mem_checking {checks : List Item} {additions : List Addition}
    (hc : c ∈ checking checks additions patched) : c.isTest = true := by
  obtain hc | hc := List.mem_append.mp hc
  · obtain hc | hc := List.mem_append.mp hc
    · have hall : ∀ c ∈ prologue patched, c.isTest = true := by
        cases patched <;> decide
      exact hall c hc
    · obtain ⟨k, -, rfl⟩ := List.mem_map.mp hc
      rfl
  · obtain ⟨a, -, rfl⟩ := List.mem_map.mp hc
    rfl

theorem not_isTest_of_isWriting (hc : c.isWriting = true) : c.isTest = false := by
  cases c <;> first | rfl | cases hc

/-! ## Contents -/

/-- `cksum` tells apart the contents that are compared in a run. -/
def Distinct (g : Guest) (cs : List Command) (v : Volume) : Prop :=
  ∀ a b, (a, b) ∈ (run g cs v).1.compared → g.cksum a = g.cksum b → a = b

/-- What has been compared stays so. -/
theorem compared_mono (cs : List Command) (s : State) :
    s.compared ⊆ (runAll (exec g) cs s).1.compared := by
  refine runAll_invariant (P := fun s' : State => s.compared ⊆ s'.compared) (fun c _ s' h => ?_)
    (List.Subset.refl _)
  cases c
  case same => exact List.subset_append_of_subset_left _ h
  all_goals exact h

/-- A test that succeeds finds the payload in the range of the file. -/
theorem read_of_same (hdistinct : Distinct g (pre ++ .same target range payload :: post) v)
    (hpayload : g.libexec payload = some b)
    (hok : (run g (pre ++ [.same target range payload]) v).2 = true) :
    g.read (run g pre v).1.volume target range = some b := by
  obtain ⟨hpre, hsame⟩ := runAll_append_ok.mp hok
  change (runAll (exec g) pre ⟨v, [], []⟩).2 = true at hpre
  generalize hstate : (runAll (exec g) pre ⟨v, [], []⟩).1 = s₁ at hsame
  have hread : (run g pre v).1 = s₁ := hstate
  rw [hread]
  have hexec : (exec g (.same target range payload) s₁).2 = true := by
    by_contra hnot
    rw [Bool.not_eq_true] at hnot
    rw [runAll_cons_of_failed hnot] at hsame
    cases hsame
  have hsubst : g.substitution (g.read s₁.volume target range) = g.cksum b := by
    have := of_decide_eq_true hexec
    rwa [hpayload] at this
  cases hgot : g.read s₁.volume target range with
  | none =>
    rw [hgot] at hsubst
    exact absurd hsubst (List.append_ne_nil_of_right_ne_nil _ (List.cons_ne_nil _ _)).symm
  | some a =>
    rw [hgot] at hsubst
    -- The pair of contents is among those that the run compares.
    have hmem : (a, b) ∈ (exec g (.same target range payload) s₁).1.compared := by
      refine List.mem_append_right _ ?_
      rw [hgot, hpayload]
      exact List.mem_singleton_self _
    have hrun : (run g (pre ++ .same target range payload :: post) v).1 =
        (runAll (exec g) post (exec g (.same target range payload) s₁).1).1 := by
      rw [run, runAll_append_of_ok hpre, hstate, runAll_cons_of_ok hexec]
    rw [hdistinct a b (hrun ▸ compared_mono post _ hmem) hsubst]

/-- A range that is found with something in it is one of a file. -/
theorem contents_of_read (h : g.read v target range = some b) (hb : range ≠ none → b ≠ []) :
    g.contents v target range = some b := by
  cases range with
  | none => exact h
  | some range =>
    cases hcontents : g.contents v target (some range) with
    | none =>
      rw [Guest.read, hcontents] at h
      exact absurd (Option.some.inj h).symm (hb nofun)
    | some a => rwa [Guest.read, hcontents] at h

/-! ## The checks -/

/-- All checks hold of the volume: the files that belong to it are there and none is left from before,
each range is as its payload says, and no file is there that is to be added. -/
structure Verified (g : Guest) (p : Prepared) (patched : Bool) (v : Volume) : Prop where
  start : ∀ c ∈ prologue patched, passes g c v
  preimage : ∀ c ∈ p.checks, ∀ b, (c.payload, b) ∈ p.files →
    g.contents v c.target c.range = some b
  absent : ∀ a ∈ p.additions, g.exists v a.target = false

/-- The script of what has been prepared. -/
def Prepared.script (p : Prepared) (patched : Bool) : List Command :=
  commands p.checks p.writes p.additions patched

/-- The part of the script that checks, and the rest. -/
theorem Prepared.script_eq (p : Prepared) (patched : Bool) :
    p.script patched = checking p.checks p.additions patched ++
      (.echo "DVM_PROFILE_PREIMAGES_VERIFIED".toList :: writing p.writes p.additions patched ++
        [.sync, .echo installed]) := by
  rw [Prepared.script, commands, List.append_assoc, List.append_assoc]
  rfl

/-- `/libexec` has the payloads. -/
def Prepared.Present (p : Prepared) (g : Guest) : Prop := ∀ f ∈ p.files, g.libexec f.1 = some f.2

/-- If the tests succeed, all checks hold. -/
theorem verified_of_run (hp : p.Sound) (hpresent : p.Present g)
    (hdistinct : Distinct g (p.script patched) v)
    (hok : (run g (checking p.checks p.additions patched) v).2 = true) :
    Verified g p patched v := by
  have htests : ∀ c ∈ checking p.checks p.additions patched, c.isTest = true :=
    fun c hc => isTest_of_mem_checking hc
  have hpasses := (run_tests htests).2.2.mp hok
  refine ⟨fun c hc => hpasses c (List.mem_append_left _ (List.mem_append_left _ hc)),
    fun c hc b hb => ?_, fun a ha => ?_⟩
  · have hmem : c.check ∈ checking p.checks p.additions patched :=
      List.mem_append_left _ (List.mem_append_right _ (List.mem_map_of_mem hc))
    obtain ⟨pre, post, hsplit⟩ := List.append_of_mem hmem
    have hpre : ∀ c' ∈ pre, c'.isTest = true := fun c' hc' =>
      htests c' (hsplit ▸ List.mem_append_left _ hc')
    rw [hsplit, List.append_cons] at hok
    rw [Prepared.script_eq, hsplit, List.append_assoc] at hdistinct
    have hread := read_of_same hdistinct (hpresent _ hb) (runAll_append_ok.mp hok).1
    rw [(run_tests hpre).1] at hread
    obtain ⟨b', hb', -, hne⟩ := hp.check c hc
    have hfound : g.libexec c.payload = some b := hpresent _ hb
    have hfound' : g.libexec c.payload = some b' := hpresent _ hb'
    obtain rfl := Option.some.inj (hfound.symm.trans hfound')
    refine contents_of_read hread fun hrange => hne fun hoffset => hrange ?_
    rw [Item.range, hoffset, Option.map_none]
  · have hmem : Command.absent a.target ∈ checking p.checks p.additions patched :=
      List.mem_append_right _ (List.mem_map.mpr ⟨a, ha, rfl⟩)
    have habsent : (!g.exists v a.target) = true := hpasses _ hmem
    rwa [Bool.not_eq_true'] at habsent

/-- A command that writes is only come to if all checks hold. -/
theorem verified_of_writing (hp : p.Sound) (hpresent : p.Present g)
    (hdistinct : Distinct g (p.script patched) v) (hsplit : p.script patched = pre ++ c :: post)
    (hc : c.isWriting = true) (hok : (run g pre v).2 = true) : Verified g p patched v := by
  refine verified_of_run hp hpresent hdistinct ?_
  rw [Prepared.script_eq] at hsplit
  obtain ⟨cs, hpre, -⟩ | ⟨cs, hchecking, hrest⟩ := List.append_eq_append_iff.mp hsplit
  · rw [hpre] at hok
    exact (runAll_append_ok.mp hok).1
  · cases cs with
    | nil => rwa [hchecking, List.append_nil]
    | cons c' cs =>
      -- The command would be one of the tests.
      obtain ⟨rfl, -⟩ := List.cons.inj hrest
      have hmem : c ∈ checking p.checks p.additions patched := by
        rw [hchecking]
        exact List.mem_append_right _ List.mem_cons_self
      have htest := isTest_of_mem_checking hmem
      rw [not_isTest_of_isWriting hc] at htest
      cases htest

/-- If a check does not hold, the volume is left as it is and nothing is printed. -/
theorem run_of_not_verified (hp : p.Sound) (hpresent : p.Present g)
    (hdistinct : Distinct g (p.script patched) v) (hnot : ¬Verified g p patched v) :
    (run g (p.script patched) v).1.volume = v ∧ (run g (p.script patched) v).1.printed = [] := by
  have hfailed : (run g (checking p.checks p.additions patched) v).2 = false := by
    rw [← Bool.not_eq_true]
    exact fun hok => hnot (verified_of_run hp hpresent hdistinct hok)
  have hrun : run g (p.script patched) v = run g (checking p.checks p.additions patched) v := by
    rw [Prepared.script_eq]
    exact runAll_append_of_failed hfailed
  obtain ⟨hvolume, hprinted, -⟩ :=
    run_tests (g := g) (v := v) fun c hc => isTest_of_mem_checking hc
  rw [hrun]
  exact ⟨hvolume, hprinted⟩

/-! ## The writes -/

/-- The file that a command writes, or the range of it. -/
def Command.region : Command → Option (Text × Option (ℕ × ℕ))
  | .cp _ target => some (target, none)
  | .dd _ target offset length => some (target, some (offset, length))
  | _ => none

theorem region_of_isTest (hc : c.isTest = true) : c.region = none := by
  cases c <;> first | rfl | cases hc

/-- The commands for a write write its range. -/
theorem region_of_mem_write {w : Item} (hc : c ∈ w.write)
    (hregion : c.region = some (target, range)) : w.target = target ∧ w.range = range := by
  unfold Item.write at hc
  unfold Item.range
  cases hoffset : w.offset with
  | none =>
    rw [hoffset] at hc
    simp only [List.mem_cons, List.not_mem_nil, or_false] at hc
    obtain rfl | rfl | rfl := hc
    · obtain ⟨rfl, rfl⟩ := Prod.mk.inj (Option.some.inj hregion)
      exact ⟨rfl, rfl⟩
    all_goals cases hregion
  | some offset =>
    rw [hoffset] at hc
    simp only [List.mem_cons, List.not_mem_nil, or_false] at hc
    obtain rfl | rfl := hc
    · obtain ⟨rfl, rfl⟩ := Prod.mk.inj (Option.some.inj hregion)
      exact ⟨rfl, rfl⟩
    · cases hregion

/-- The commands for an addition write all of its file. -/
theorem region_of_mem_addition {a : Addition} (hc : c ∈ a.write)
    (hregion : c.region = some (target, range)) : a.target = target ∧ range = none := by
  simp only [Addition.write, List.mem_cons, List.not_mem_nil, or_false] at hc
  obtain rfl | rfl | rfl | rfl := hc
  · obtain ⟨rfl, rfl⟩ := Prod.mk.inj (Option.some.inj hregion)
    exact ⟨rfl, rfl⟩
  all_goals cases hregion

/-- What the script writes is a range that it has a check for, or a file that it tests to be absent. -/
theorem region_checked (hp : p.Sound) (hc : c ∈ p.script patched)
    (hregion : c.region = some (target, range)) :
    (∃ k ∈ p.checks, k.target = target ∧ k.range = range) ∨
      ∃ a ∈ p.additions, a.target = target ∧ range = none := by
  rw [Prepared.script_eq] at hc
  obtain hc | hc := List.mem_append.mp hc
  · rw [region_of_isTest (isTest_of_mem_checking hc)] at hregion
    cases hregion
  · obtain hc | hc := List.mem_append.mp hc
    · obtain rfl | hc := List.mem_cons.mp hc
      · cases hregion
      · unfold writing at hc
        split_ifs at hc
        · obtain rfl | hc := List.mem_cons.mp hc
          · cases hregion
          · obtain hc | hc := List.mem_append.mp hc
            · obtain ⟨w, hw, hc⟩ := List.mem_flatMap.mp hc
              obtain ⟨rfl, rfl⟩ := region_of_mem_write hc hregion
              exact Or.inl (hp.write w hw).1
            · obtain ⟨a, ha, hc⟩ := List.mem_flatMap.mp hc
              exact Or.inr ⟨a, ha, region_of_mem_addition hc hregion⟩
        · cases hc
    · have hends : ∀ c ∈ [Command.sync, .echo installed], c.region = none := by decide
      rw [hends c hc] at hregion
      cases hregion

/-! ## The last line -/

theorem isTest_or_isWriting_of_mem_writing {writes : List Item} {additions : List Addition}
    (hc : c ∈ writing writes additions patched) : c.isTest = true ∨ c.isWriting = true := by
  unfold writing at hc
  split_ifs at hc
  · obtain rfl | hc := List.mem_cons.mp hc
    · exact Or.inr rfl
    · obtain hc | hc := List.mem_append.mp hc
      · obtain ⟨w, -, hc⟩ := List.mem_flatMap.mp hc
        unfold Item.write at hc
        cases hoffset : w.offset with
        | none =>
          rw [hoffset] at hc
          simp only [List.mem_cons, List.not_mem_nil, or_false] at hc
          obtain rfl | rfl | rfl := hc
          · exact Or.inr rfl
          · exact Or.inr rfl
          · exact Or.inl rfl
        | some offset =>
          rw [hoffset] at hc
          simp only [List.mem_cons, List.not_mem_nil, or_false] at hc
          obtain rfl | rfl := hc
          · exact Or.inr rfl
          · exact Or.inl rfl
      · obtain ⟨a, -, hc⟩ := List.mem_flatMap.mp hc
        simp only [Addition.write, List.mem_cons, List.not_mem_nil, or_false] at hc
        obtain rfl | rfl | rfl | rfl := hc
        · exact Or.inr rfl
        · exact Or.inr rfl
        · exact Or.inr rfl
        · exact Or.inl rfl
  · cases hc

/-- No command but `echo` prints. -/
theorem exec_printed (hc : c.isTest = true ∨ c.isWriting = true) :
    (exec g c s).1.printed = s.printed := by
  cases c
  case echo => obtain hc | hc := hc <;> cases hc
  all_goals rfl

/-- The last line is printed by a script that has run to its end only. -/
theorem ok_of_printed (h : installed ∈ (run g (p.script patched) v).1.printed) :
    (run g (p.script patched) v).2 = true := by
  have hscript : p.script patched = (checking p.checks p.additions patched ++
      (.echo "DVM_PROFILE_PREIMAGES_VERIFIED".toList :: writing p.writes p.additions patched ++
        [.sync])) ++ [.echo installed] := by
    rw [Prepared.script_eq]
    simp only [List.append_assoc, List.cons_append, List.nil_append]
  rw [hscript] at h ⊢
  generalize hbody : checking p.checks p.additions patched ++
    (.echo "DVM_PROFILE_PREIMAGES_VERIFIED".toList :: writing p.writes p.additions patched ++
      [.sync]) = body at h ⊢
  -- Before the last command, the last line has not been printed.
  have hnot : installed ∉ (run g body v).1.printed := by
    refine runAll_invariant (P := fun s : State => installed ∉ s.printed) (fun c hc s hs => ?_)
      (List.not_mem_nil)
    rw [← hbody] at hc
    obtain hc | hc := List.mem_append.mp hc
    · rwa [exec_printed (Or.inl (isTest_of_mem_checking hc))]
    · obtain hc | hc := List.mem_append.mp hc
      · obtain rfl | hc := List.mem_cons.mp hc
        · refine fun hmem => (List.mem_append.mp hmem).elim hs fun hmem => ?_
          exact absurd (List.mem_singleton.mp hmem) (by decide)
        · rwa [exec_printed (isTest_or_isWriting_of_mem_writing hc)]
      · obtain rfl := List.mem_singleton.mp hc
        rwa [exec_printed (Or.inr rfl)]
  cases hok : (run g body v).2 with
  | true => exact runAll_append_ok.mpr ⟨hok, rfl⟩
  | false =>
    have hrun : run g (body ++ [.echo installed]) v = run g body v := runAll_append_of_failed hok
    rw [hrun] at h
    exact absurd h hnot

/-- After some commands of a script that are all run, of which the last are those for a write, the
range of a file has a content. -/
def ReadBack (g : Guest) (script part : List Command) (v : Volume) (target : Text)
    (range : Option (ℕ × ℕ)) (b : Bytes) : Prop :=
  ∃ pre post s, script = pre ++ part ++ post ∧ run g (pre ++ part) v = (s, true) ∧
    g.contents s.volume target range = some b

/-- What ends with a test, and has been run to its end, has read back the payload of the test. -/
theorem readBack_of_ok {part : List Command} (hdistinct : Distinct g cs v)
    (hok : (run g cs v).2 = true)
    (hcs : cs = pre ++ (part ++ [.same target range payload]) ++ post)
    (hpayload : g.libexec payload = some b) (hb : range ≠ none → b ≠ []) :
    ReadBack g cs (part ++ [.same target range payload]) v target range b := by
  rw [hcs] at hok
  have hpart := (runAll_append_ok.mp hok).1
  rw [← List.append_assoc] at hpart
  have hsame : Distinct g ((pre ++ part) ++ .same target range payload :: post) v := by
    rwa [List.append_cons, List.append_assoc pre part, ← hcs]
  have hread := read_of_same hsame hpayload hpart
  refine ⟨pre, post, (run g (pre ++ part ++ [.same target range payload]) v).1, hcs, ?_, ?_⟩
  · rw [← List.append_assoc]
    exact Prod.ext rfl hpart
  · -- The test leaves the volume as it is.
    have hvolume : (run g (pre ++ part ++ [.same target range payload]) v).1.volume =
        (run g (pre ++ part) v).1.volume := by
      have hpre := (runAll_append_ok.mp hpart).1
      rw [run, runAll_append_of_ok hpre, runAll]
      split_ifs <;> rfl
    rw [hvolume]
    exact contents_of_read hread hb

/-- A range with a check of the same range is not empty. -/
theorem write_ne_nil (hp : p.Sound) {w : Item} (hw : w ∈ p.writes) (hlen : w.offset ≠ none →
    w.length = b.length) (hrange : w.range ≠ none) : b ≠ [] := by
  obtain ⟨⟨k, hk, -, hsame⟩, -⟩ := hp.write w hw
  obtain ⟨b', -, hlength, hne⟩ := hp.check k hk
  unfold Item.range at hsame hrange
  cases hoffset : w.offset with
  | none => exact absurd (by rw [hoffset, Option.map_none]) hrange
  | some offset =>
    cases hoffset' : k.offset with
    | none =>
      rw [hoffset, hoffset'] at hsame
      cases hsame
    | some offset' =>
      rw [hoffset, hoffset'] at hsame
      obtain ⟨-, hlengths⟩ := Prod.mk.inj (Option.some.inj hsame)
      have hpos := List.length_pos_iff.mpr (hne (by rw [hoffset']; nofun))
      have := hlen (by rw [hoffset]; nofun)
      exact List.ne_nil_of_length_pos (by omega)

/-- The commands for a write end with the test of its range. -/
theorem exists_write (w : Item) : ∃ part, w.write = part ++ [.same w.target w.range w.payload] := by
  unfold Item.write Item.range
  cases w.offset with
  | none => exact ⟨[.cp w.payload w.target, .chown w.target], rfl⟩
  | some offset => exact ⟨[.dd w.payload w.target offset w.length], rfl⟩

theorem infix_flatMap {α β : Type} {f : α → List β} {l : List α} {a : α} (h : a ∈ l) :
    f a <:+: l.flatMap f := by
  rw [List.flatMap_def]
  exact List.infix_of_mem_flatten (List.mem_map_of_mem h)

/-- The commands of the writes are a part of the script of the patched profile. -/
theorem infix_script {part : List Command}
    (hpart : part <:+: p.writes.flatMap Item.write ++ p.additions.flatMap Addition.write) :
    part <:+: p.script true := by
  rw [Prepared.script_eq]
  refine List.infix_append_of_infix_right (List.infix_append_of_infix_left ?_)
  exact List.infix_cons (List.infix_cons hpart)

/-! ## All of it -/

/-- What is known of the installer, whatever is on the volume. -/
structure Atomic (g : Guest) (p : Prepared) (patched : Bool) (v : Volume) : Prop where
  /-- A payload is one file. -/
  payloads : (p.files.map Prod.fst).Nodup
  /-- If a check does not hold, nothing changes and the last line is not printed. -/
  unchanged : ¬Verified g p patched v → (run g (p.script patched) v).1.volume = v ∧
    installed ∉ (run g (p.script patched) v).1.printed
  /-- A command that writes is run after all checks, which hold. -/
  guarded : ∀ pre c post, p.script patched = pre ++ c :: post → c.isWriting = true →
    (run g pre v).2 = true → Verified g p patched v
  /-- What is written is a range that has a check, or a file that is tested to be absent. -/
  checked : ∀ c ∈ p.script patched, ∀ target range, c.region = some (target, range) →
    (∃ k ∈ p.checks, k.target = target ∧ k.range = range) ∨
      ∃ a ∈ p.additions, a.target = target ∧ range = none
  /-- If the last line is printed, each write has been read back. -/
  writes : installed ∈ (run g (p.script patched) v).1.printed → ∀ w ∈ p.writes,
    ∃ b, (w.payload, b) ∈ p.files ∧ ReadBack g (p.script patched) w.write v w.target w.range b
  /-- And so has each addition. -/
  additions : installed ∈ (run g (p.script patched) v).1.printed → ∀ a ∈ p.additions,
    ∃ b, (a.payload, b) ∈ p.files ∧ ReadBack g (p.script patched) a.write v a.target none b

/-- Whatever `prepare` assembles, and whatever the volume and its writes do: if `/libexec` has the
payloads and `cksum` tells apart what the run compares, the installer changes nothing unless all checks
hold, writes what it has checked, and reports success after all has been read back. -/
theorem installer_atomic (sha256 : Bytes → Digest) (i : Inputs) (p : Prepared) (g : Guest)
    (v : Volume) (hprepare : prepare sha256 i = .ok p) (hpresent : p.Present g)
    (hdistinct : Distinct g (p.script i.patched) v) : Atomic g p i.patched v := by
  have hp := prepare_sound hprepare
  have hnative : ∀ {α : Type} {l : List α} {x : α}, x ∈ l → (i.patched = false → l = []) →
      i.patched = true := by
    intro α l x hx hl
    rw [← Bool.not_eq_false]
    intro hi
    rw [hl hi] at hx
    cases hx
  refine ⟨hp.nodup, fun hnot => ?_, fun pre c post hsplit hc hok => ?_,
    fun c hc target range hregion => ?_, fun hprinted w hw => ?_, fun hprinted a ha => ?_⟩
  · obtain ⟨hvolume, hprinted⟩ := run_of_not_verified hp hpresent hdistinct hnot
    rw [hprinted]
    exact ⟨hvolume, List.not_mem_nil⟩
  · exact verified_of_writing hp hpresent hdistinct hsplit hc hok
  · exact region_checked hp hc hregion
  · have hi := hnative hw fun hi => (prepare_native hi hprepare).1
    obtain ⟨b, hb, hlen⟩ := (hp.write w hw).2
    obtain ⟨part, hpart⟩ := exists_write w
    have hinfix : w.write <:+: p.writes.flatMap Item.write ++ p.additions.flatMap Addition.write :=
      List.infix_append_of_infix_left (infix_flatMap hw)
    obtain ⟨pre, post, hsplit⟩ := infix_script hinfix
    rw [hpart] at hsplit ⊢
    rw [hi] at hprinted hdistinct ⊢
    exact ⟨b, hb, readBack_of_ok hdistinct (ok_of_printed hprinted) hsplit.symm (hpresent _ hb)
      (write_ne_nil hp hw hlen)⟩
  · have hi := hnative ha fun hi => (prepare_native hi hprepare).2
    obtain ⟨b, hb⟩ := hp.addition a ha
    have hinfix : a.write <:+: p.writes.flatMap Item.write ++ p.additions.flatMap Addition.write :=
      List.infix_append_of_infix_right (infix_flatMap ha)
    obtain ⟨pre, post, hsplit⟩ := infix_script hinfix
    have hwrite : a.write = [.cp a.payload a.target, .chmod a.mode a.target, .chown a.target] ++
      [.same a.target none a.payload] := rfl
    rw [hwrite] at hsplit ⊢
    rw [hi] at hprinted hdistinct ⊢
    exact ⟨b, hb, readBack_of_ok hdistinct (ok_of_printed hprinted) hsplit.symm (hpresent _ hb)
      fun hnone => absurd rfl hnone⟩

/-! ## A run -/

/-- Files of one byte, and no caches. -/
def fileInputs : Inputs where
  patched := true
  specs := []
  caches _ := []
  powerd := [1]
  launchd_cache := [2]
  powerd_after := [3]
  launchd_after := [4]
  job _ := [5]
  binary _ := [6]

/-- What is prepared for them. -/
def filePrepared : Prepared :=
  (((⟨[], [], [], []⟩ : Prepared).add powerdPath [1] none none).add launchdPath [2] none
    none).addPatched fileInputs

/-- A guest without links, whose writes do what they are asked to. The checksum is the number of the
bytes in base 256. -/
def plainGuest : Guest where
  mounts := true
  resolve path := path
  entries _ := []
  libexec name := filePrepared.files.lookup name
  crc s := s.foldl (fun n b => n * 256 + b.toUInt32) 0
  disturbed _ _ := none

/-- The volume that the installer is made for. -/
def fileVolume : Volume where
  files := [
    ("/usr/lib/libobjc-trampolines.dylib".toList, ⟨[7], [], []⟩),
    ("/usr/lib/libramrod.dylib".toList, ⟨[8], [], []⟩),
    (powerdPath, ⟨[1], [], []⟩),
    (launchdPath, ⟨[2], [], []⟩)]
  dirs := []

theorem installer_atomic_files :
    installed ∈ (run plainGuest (filePrepared.script true) fileVolume).1.printed ∧
      Atomic plainGuest filePrepared true fileVolume := by
  have hprinted : installed ∈ (run plainGuest (filePrepared.script true) fileVolume).1.printed := by
    decide +kernel
  have hpresent : filePrepared.Present plainGuest := by
    have hall : ∀ f ∈ filePrepared.files, plainGuest.libexec f.1 = some f.2 := by decide +kernel
    exact hall
  have hdistinct : ∀ x ∈ (run plainGuest (filePrepared.script true) fileVolume).1.compared,
      plainGuest.cksum x.1 = plainGuest.cksum x.2 → x.1 = x.2 := by decide +kernel
  exact ⟨hprinted, installer_atomic sums fileInputs filePrepared plainGuest fileVolume rfl hpresent
    fun a b hab => hdistinct (a, b) hab⟩

end DarwinVm.Profile
