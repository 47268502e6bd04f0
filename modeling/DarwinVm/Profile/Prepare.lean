import DarwinVm.Profile.Script
import DarwinVm.Signature.Patched

/-!
# What the installer is made of

`prepare` of `tools/rootfs/bootstrap_profile.py` assembles the checks, the writes and the additions of
the installer, and the files that it takes its payloads from: a check for each region of the cache
payloads and for the two files that are replaced as a whole, and a write for each region that changes.
Every payload has a name of its own (`Prepared.nodup`), so that the guest finds in it what was put
there, and a write has a check of the same range of the same file (`Prepared.checked`).
-/

namespace DarwinVm.Profile

open Signature (Json Digest)
open Signature.Payload (Region cachePayload)

/-- `CACHE_ROOT` -/
def cacheRoot : Text := "/System/Library/Caches/com.apple.dyld/".toList

/-- `POWERD` -/
def powerdPath : Text := "/System/Library/CoreServices/powerd.bundle/powerd".toList

/-- `LAUNCHD` -/
def launchdPath : Text := "/System/Library/xpc/launchd.plist".toList

/-- What `prepare` is given, and what the programs that it runs return. -/
structure Inputs where
  patched : Bool
  specs : List Json
  /-- The files in the directory of the caches. -/
  caches : Text → Bytes
  powerd : Bytes
  launchd_cache : Bytes
  /-- The powerd that `patch_powerd_virtual_battery.py` makes. -/
  powerd_after : Bytes
  /-- The launchd cache with the jobs of the helpers. -/
  launchd_after : Bytes
  /-- The job of a helper. -/
  job : Text → Bytes
  /-- The program of a helper. -/
  binary : Text → Bytes

/-- What `prepare` assembles, with the files in the directory of the payloads. -/
structure Prepared where
  files : List (Text × Bytes)
  checks : List Item
  writes : List Item
  additions : List Addition

/-- The name of the payload of a check. -/
def beforeName (n : ℕ) : Text := "profile-".toList ++ decimal n ++ "-before".toList

/-- The name of the payload of the write for a check. -/
def afterName (n : ℕ) : Text := "profile-".toList ++ decimal n ++ "-after".toList

/-- `add` -/
def Prepared.add (p : Prepared) (target : Text) (before : Bytes) (after : Option Bytes)
    (offset : Option ℕ) : Prepared :=
  let n := p.checks.length
  let p := { p with
    files := p.files ++ [(beforeName n, before)]
    checks := p.checks ++ [⟨target, beforeName n, offset, before.length⟩] }
  match after with
  | none => p
  | some after =>
    if before = after then p
    else { p with
      files := p.files ++ [(afterName n, after)]
      writes := p.writes ++ [⟨target, afterName n, offset, after.length⟩] }

/-- The loop over the regions of a payload. -/
def Prepared.addRegions (p : Prepared) (name : Text) (patched : Bool) (regions : List Region) :
    Prepared :=
  regions.foldl (fun p r =>
    p.add (cacheRoot ++ name) r.before (if patched then some r.after else none) (some r.offset)) p

theorem Prepared.addRegions_cons (p : Prepared) (name : Text) (patched : Bool) (r : Region)
    (regions : List Region) : p.addRegions name patched (r :: regions) =
      (p.add (cacheRoot ++ name) r.before (if patched then some r.after else none)
        (some r.offset)).addRegions name patched regions := rfl

/-- `spec['cache_name']`, which is joined to a path. -/
def cacheName (spec : Json) : Except Signature.Payload.Error Text := do
  match ← Signature.Payload.getItem spec "cache_name".toList with
  | .string name => .ok name
  | _ => .error .type

/-- The body of the loop over the specifications. -/
def addSpec (sha256 : Bytes → Digest) (i : Inputs) (p : Prepared) (spec : Json) :
    Except Signature.Payload.Error Prepared := do
  let name ← cacheName spec
  let (regions, _) ← cachePayload sha256 (String.ofList name) (i.caches name) spec
  .ok (p.addRegions name i.patched regions)

/-- A helper: the payloads of its job and its program, and where they are put. -/
def Prepared.addHelper (i : Inputs) (p : Prepared) (name : Text) : Prepared :=
  let path := "/System/Library/LaunchDaemons/com.apple.dvm-".toList ++ name ++ ".plist".toList
  let profile := "profile-".toList ++ name
  { p with
    files := p.files ++ [(profile ++ ".plist".toList, i.job name), (profile, i.binary name)]
    additions := p.additions ++ [⟨path, profile ++ ".plist".toList, "644".toList⟩,
      ⟨"/usr/local/libexec/dvm-".toList ++ name, profile, "755".toList⟩] }

/-- What the patched profile adds. -/
def Prepared.addPatched (i : Inputs) (p : Prepared) : Prepared :=
  let p := { p with
    files := p.files ++ [("profile-powerd".toList, i.powerd_after)]
    writes := p.writes ++ [⟨powerdPath, "profile-powerd".toList, none, 0⟩] }
  let p := ["input".toList, "power-pv-service".toList].foldl (Prepared.addHelper i) p
  { p with
    files := p.files ++ [("profile-launchd".toList, i.launchd_after)]
    writes := p.writes ++ [⟨launchdPath, "profile-launchd".toList, none, 0⟩] }

/-- `prepare`, as far as the installer and its payloads. -/
def prepare (sha256 : Bytes → Digest) (i : Inputs) : Except Signature.Payload.Error Prepared := do
  let p ← i.specs.foldlM (addSpec sha256 i) ⟨[], [], [], []⟩
  let p := (p.add powerdPath i.powerd none none).add launchdPath i.launchd_cache none none
  .ok (if i.patched then p.addPatched i else p)

/-! ## Names -/

theorem beforeName_inj {m n : ℕ} (h : beforeName m = beforeName n) : m = n :=
  decimal_inj (List.append_cancel_left (List.append_cancel_right h))

theorem afterName_inj {m n : ℕ} (h : afterName m = afterName n) : m = n :=
  decimal_inj (List.append_cancel_left (List.append_cancel_right h))

theorem beforeName_ne_afterName (m n : ℕ) : beforeName m ≠ afterName n := by
  have hends : ∀ a b : Text, a ++ "-before".toList ≠ b ++ "-after".toList := by
    intro a b h
    have hlast := congrArg List.getLast? h
    simp at hlast
  exact hends _ _

/-- The name is one of the first `n` checks or of their writes. -/
def Numbered (n : ℕ) (name : Text) : Prop := ∃ k < n, name = beforeName k ∨ name = afterName k

/-- After its start, the name of a check goes on with a digit. -/
theorem Numbered.digit {n : ℕ} {name : Text} (h : Numbered n name) :
    ((name.drop 8).head?.any Char.isDigit) = true := by
  have hhead : ∀ k (stop : Text), (("profile-".toList ++ decimal k ++ stop).drop 8).head?.any
      Char.isDigit = true := by
    intro k stop
    obtain ⟨c, t, hk⟩ := List.exists_cons_of_ne_nil (decimal_ne_nil k)
    have hc : c ∈ decimal k := hk ▸ List.mem_cons_self
    rw [hk]
    exact isDigit_of_mem_decimal hc
  obtain ⟨k, -, rfl | rfl⟩ := h
  · exact hhead k _
  · exact hhead k _

theorem Numbered.mono {m n : ℕ} {name : Text} (h : Numbered m name) (hmn : m ≤ n) :
    Numbered n name := by
  obtain ⟨k, hk, hname⟩ := h
  exact ⟨k, hk.trans_le hmn, hname⟩

theorem not_numbered_before (n : ℕ) : ¬Numbered n (beforeName n) := by
  rintro ⟨k, hk, h | h⟩
  · exact absurd (beforeName_inj h) (by omega)
  · exact beforeName_ne_afterName n k h

theorem not_numbered_after (n : ℕ) : ¬Numbered n (afterName n) := by
  rintro ⟨k, hk, h | h⟩
  · exact beforeName_ne_afterName k n h.symm
  · exact absurd (afterName_inj h) (by omega)

/-! ## What is assembled -/

/-- Every payload has a name of its own, and is a file. A check of a range is not empty, and a write
has a check of the same range of the same file, and as many bytes as the range. -/
structure Prepared.Sound (p : Prepared) : Prop where
  nodup : (p.files.map Prod.fst).Nodup
  check : ∀ c ∈ p.checks, ∃ b, (c.payload, b) ∈ p.files ∧ c.length = b.length ∧
    (c.offset ≠ none → b ≠ [])
  write : ∀ w ∈ p.writes, (∃ c ∈ p.checks, c.target = w.target ∧ c.range = w.range) ∧
    ∃ b, (w.payload, b) ∈ p.files ∧ (w.offset ≠ none → w.length = b.length)
  addition : ∀ a ∈ p.additions, ∃ b, (a.payload, b) ∈ p.files

/-- So far, all payloads are those of the checks and of their writes. -/
structure Prepared.Adding (p : Prepared) : Prop extends p.Sound where
  numbered : ∀ f ∈ p.files, Numbered p.checks.length f.1

/-- Nothing is lost when files, checks and writes are added. -/
theorem Prepared.Sound.append {p : Prepared} (h : p.Sound) {files : List (Text × Bytes)}
    {checks writes : List Item} {additions : List Addition}
    (hnew : ∀ f ∈ files, f.1 ∉ p.files.map Prod.fst) (hnodup : (files.map Prod.fst).Nodup)
    (hcheck : ∀ c ∈ checks, ∃ b, (c.payload, b) ∈ files ∧ c.length = b.length ∧
      (c.offset ≠ none → b ≠ []))
    (hwrite : ∀ w ∈ writes, (∃ c ∈ p.checks ++ checks, c.target = w.target ∧ c.range = w.range) ∧
      ∃ b, (w.payload, b) ∈ files ∧ (w.offset ≠ none → w.length = b.length))
    (haddition : ∀ a ∈ additions, ∃ b, (a.payload, b) ∈ files) :
    Prepared.Sound ⟨p.files ++ files, p.checks ++ checks, p.writes ++ writes,
      p.additions ++ additions⟩ where
  nodup := by
    rw [List.map_append, List.nodup_append]
    refine ⟨h.nodup, hnodup, fun a ha b hb hab => ?_⟩
    obtain ⟨f, hf, rfl⟩ := List.mem_map.mp hb
    exact hnew f hf (hab ▸ ha)
  check c hc := by
    obtain hc | hc := List.mem_append.mp hc
    · obtain ⟨b, hb, hrest⟩ := h.check c hc
      exact ⟨b, List.mem_append_left _ hb, hrest⟩
    · obtain ⟨b, hb, hrest⟩ := hcheck c hc
      exact ⟨b, List.mem_append_right _ hb, hrest⟩
  write w hw := by
    obtain hw | hw := List.mem_append.mp hw
    · obtain ⟨⟨c, hc, hsame⟩, b, hb, hlen⟩ := h.write w hw
      exact ⟨⟨c, List.mem_append_left _ hc, hsame⟩, b, List.mem_append_left _ hb, hlen⟩
    · obtain ⟨hc, b, hb, hlen⟩ := hwrite w hw
      exact ⟨hc, b, List.mem_append_right _ hb, hlen⟩
  addition a ha := by
    obtain ha | ha := List.mem_append.mp ha
    · obtain ⟨b, hb⟩ := h.addition a ha
      exact ⟨b, List.mem_append_left _ hb⟩
    · obtain ⟨b, hb⟩ := haddition a ha
      exact ⟨b, List.mem_append_right _ hb⟩

/-- The content of the write for a check, if there is one. -/
def changed (before : Bytes) (after : Option Bytes) : List Bytes :=
  (after.filter fun after => before ≠ after).toList

theorem changed_cases (before : Bytes) (after : Option Bytes) :
    changed before after = [] ∨ ∃ b, changed before after = [b] := by
  unfold changed
  cases after.filter fun after => before ≠ after with
  | none => exact Or.inl rfl
  | some b => exact Or.inr ⟨b, rfl⟩

/-- What is added. -/
theorem Prepared.add_eq (p : Prepared) (target : Text) (before : Bytes) (after : Option Bytes)
    (offset : Option ℕ) : p.add target before after offset =
      ⟨p.files ++ (beforeName p.checks.length, before) ::
          (changed before after).map fun b => (afterName p.checks.length, b),
        p.checks ++ [⟨target, beforeName p.checks.length, offset, before.length⟩],
        p.writes ++ (changed before after).map fun b =>
          ⟨target, afterName p.checks.length, offset, b.length⟩,
        p.additions ++ []⟩ := by
  unfold Prepared.add changed
  cases after with
  | none => simp
  | some after => by_cases h : before = after <;> simp [h, Option.filter]

/-- A payload is added under two new names. -/
theorem Prepared.Adding.add {p : Prepared} (h : p.Adding) {target : Text} {before : Bytes}
    {after : Option Bytes} {offset : Option ℕ} (hne : offset ≠ none → before ≠ [])
    (hlen : ∀ b ∈ after, b.length = before.length) :
    (p.add target before after offset).Adding := by
  have hchanged : ∀ b ∈ changed before after, b.length = before.length := by
    intro b hb
    have hmem := Option.mem_toList.mp hb
    exact hlen b (Option.mem_filter_iff.mp hmem).1
  have hfiles : ∀ f ∈ (beforeName p.checks.length, before) ::
      (changed before after).map fun b => (afterName p.checks.length, b),
      f.1 = beforeName p.checks.length ∨ f.1 = afterName p.checks.length := by
    intro f hf
    obtain rfl | hf := List.mem_cons.mp hf
    · exact Or.inl rfl
    · obtain ⟨b, -, rfl⟩ := List.mem_map.mp hf
      exact Or.inr rfl
  rw [Prepared.add_eq]
  refine ⟨h.toSound.append (fun f hf hold => ?_) ?_ ?_ ?_ (List.forall_mem_nil _), ?_⟩
  · obtain ⟨f', hf', heq⟩ := List.mem_map.mp hold
    have hnumbered := heq ▸ h.numbered f' hf'
    obtain hname | hname := hfiles f hf
    · exact not_numbered_before _ (hname ▸ hnumbered)
    · exact not_numbered_after _ (hname ▸ hnumbered)
  · rw [List.map_cons, List.map_map, List.nodup_cons]
    refine ⟨fun hmem => ?_, ?_⟩
    · obtain ⟨b, -, hb⟩ := List.mem_map.mp hmem
      exact beforeName_ne_afterName _ _ hb.symm
    · obtain hnone | ⟨b, hsome⟩ := changed_cases before after
      · rw [hnone]
        exact List.nodup_nil
      · rw [hsome]
        exact List.nodup_singleton _
  · intro c hc
    obtain rfl := List.mem_singleton.mp hc
    exact ⟨before, List.mem_cons_self, rfl, hne⟩
  · intro w hw
    obtain ⟨b, hb, rfl⟩ := List.mem_map.mp hw
    refine ⟨⟨_, List.mem_append_right _ (List.mem_singleton_self _), rfl, ?_⟩, b, ?_, fun _ => rfl⟩
    · unfold Item.range
      dsimp only
      rw [hchanged b hb]
    · exact List.mem_cons_of_mem _ (List.mem_map.mpr ⟨b, hb, rfl⟩)
  · intro f hf
    rw [List.length_append, List.length_singleton]
    obtain hf | hf := List.mem_append.mp hf
    · exact (h.numbered f hf).mono (Nat.le_succ _)
    · exact ⟨p.checks.length, Nat.lt_succ_self _, hfiles f hf⟩

/-- The regions of a payload are added. -/
theorem Prepared.Adding.addRegions {name : Text} {patched : Bool} : ∀ {regions : List Region}
    {p : Prepared}, p.Adding →
    (∀ r ∈ regions, r.before ≠ [] ∧ r.after.length = r.before.length) →
    (p.addRegions name patched regions).Adding
  | [], _, h, _ => h
  | r :: regions, p, h, hr => by
    rw [List.forall_mem_cons] at hr
    have hlen : ∀ b ∈ (if patched then some r.after else none), b.length = r.before.length := by
      intro b hb
      split_ifs at hb
      · obtain rfl := Option.mem_some_iff.mp hb
        exact hr.1.2
      · cases hb
    rw [addRegions_cons]
    exact addRegions (h.add (fun _ => hr.1.1) hlen) hr.2

/-- The loop over the specifications. -/
theorem Prepared.Adding.addSpecs {sha256 : Bytes → Digest} {i : Inputs} : ∀ {specs : List Json}
    {p p' : Prepared}, p.Adding → specs.foldlM (addSpec sha256 i) p = .ok p' → p'.Adding
  | [], p, p', h, hok => by
    obtain rfl := Except.ok.inj hok
    exact h
  | spec :: specs, p, p', h, hok => by
    rw [List.foldlM_cons] at hok
    obtain ⟨p₁, hspec, hok⟩ := bind_eq_ok.mp hok
    obtain ⟨name, -, hspec⟩ := bind_eq_ok.mp hspec
    obtain ⟨⟨regions, cdhash⟩, hpayload, hspec⟩ := bind_eq_ok.mp hspec
    obtain rfl := Except.ok.inj hspec
    obtain ⟨edits, d, hreturned, rfl, -⟩ := Signature.Payload.cachePayload_ok hpayload
    refine addSpecs (h.addRegions fun r hr => ⟨hreturned.before_ne_nil hr, ?_⟩) hok
    exact (hreturned.before_regions hr).2

/-- The payloads that only the patched profile has. -/
def patchedFiles (i : Inputs) : List (Text × Bytes) := [
  ("profile-powerd".toList, i.powerd_after),
  ("profile-input.plist".toList, i.job "input".toList),
  ("profile-input".toList, i.binary "input".toList),
  ("profile-power-pv-service.plist".toList, i.job "power-pv-service".toList),
  ("profile-power-pv-service".toList, i.binary "power-pv-service".toList),
  ("profile-launchd".toList, i.launchd_after)]

/-- Their names. -/
def patchedNames : List Text := ["profile-powerd", "profile-input.plist", "profile-input",
  "profile-power-pv-service.plist", "profile-power-pv-service", "profile-launchd"].map String.toList

theorem map_patchedFiles (i : Inputs) : (patchedFiles i).map Prod.fst = patchedNames := rfl

/-- The files that it replaces as a whole. -/
def patchedWrites : List Item := [
  ⟨powerdPath, "profile-powerd".toList, none, 0⟩, ⟨launchdPath, "profile-launchd".toList, none, 0⟩]

/-- The files that it adds. -/
def patchedAdditions : List Addition := [
  ⟨"/System/Library/LaunchDaemons/com.apple.dvm-input.plist".toList,
    "profile-input.plist".toList, "644".toList⟩,
  ⟨"/usr/local/libexec/dvm-input".toList, "profile-input".toList, "755".toList⟩,
  ⟨"/System/Library/LaunchDaemons/com.apple.dvm-power-pv-service.plist".toList,
    "profile-power-pv-service.plist".toList, "644".toList⟩,
  ⟨"/usr/local/libexec/dvm-power-pv-service".toList, "profile-power-pv-service".toList,
    "755".toList⟩]

theorem Prepared.addPatched_eq (p : Prepared) (i : Inputs) : p.addPatched i =
    ⟨p.files ++ patchedFiles i, p.checks ++ [], p.writes ++ patchedWrites,
      p.additions ++ patchedAdditions⟩ := by
  unfold Prepared.addPatched
  simp only [List.foldl_cons, List.foldl_nil, Prepared.addHelper, List.append_assoc,
    List.append_nil]
  rfl

/-- The names of the payloads that only the patched profile has are not those of checks. -/
theorem not_numbered_patched {i : Inputs} {n : ℕ} : ∀ f ∈ patchedFiles i, ¬Numbered n f.1 := by
  have hdigits : ∀ name ∈ patchedNames, ((name.drop 8).head?.any Char.isDigit) = false := by
    decide +kernel
  intro f hf hnumbered
  have hmem : f.1 ∈ patchedNames := map_patchedFiles i ▸ List.mem_map_of_mem hf
  have hdigit := hnumbered.digit
  rw [hdigits f.1 hmem] at hdigit
  cases hdigit

/-- What the patched profile adds. -/
theorem Prepared.Adding.addPatched {p : Prepared} {i : Inputs} (h : p.Adding)
    (hpowerd : ∃ c ∈ p.checks, c.target = powerdPath ∧ c.range = none)
    (hlaunchd : ∃ c ∈ p.checks, c.target = launchdPath ∧ c.range = none) :
    (p.addPatched i).Sound := by
  rw [Prepared.addPatched_eq]
  refine h.toSound.append (fun f hf hold => ?_) ?_ (List.forall_mem_nil _) ?_ ?_
  · obtain ⟨f', hf', heq⟩ := List.mem_map.mp hold
    exact not_numbered_patched f hf (heq ▸ h.numbered f' hf')
  · have hnames : patchedNames.Nodup := by decide +kernel
    exact hnames
  · simp only [patchedWrites, List.forall_mem_cons, List.append_nil]
    refine ⟨⟨hpowerd, i.powerd_after, ?_, nofun⟩, ⟨hlaunchd, i.launchd_after, ?_, nofun⟩,
      List.forall_mem_nil _⟩
    · simp [patchedFiles]
    · simp [patchedFiles]
  · simp only [patchedAdditions, List.forall_mem_cons]
    refine ⟨⟨i.job "input".toList, ?_⟩, ⟨i.binary "input".toList, ?_⟩,
      ⟨i.job "power-pv-service".toList, ?_⟩, ⟨i.binary "power-pv-service".toList, ?_⟩,
      List.forall_mem_nil _⟩
    all_goals simp [patchedFiles]

/-- What is prepared is sound. -/
theorem prepare_sound {sha256 : Bytes → Digest} {i : Inputs} {p : Prepared}
    (h : prepare sha256 i = .ok p) : p.Sound := by
  obtain ⟨p₁, hspecs, h⟩ := bind_eq_ok.mp h
  obtain rfl := Except.ok.inj h
  have hstart : Prepared.Adding ⟨[], [], [], []⟩ := by
    refine ⟨⟨List.nodup_nil, ?_, ?_, ?_⟩, ?_⟩
    all_goals exact List.forall_mem_nil _
  have hadding : ((p₁.add powerdPath i.powerd none none).add launchdPath i.launchd_cache none
      none).Adding := by
    refine ((hstart.addSpecs hspecs).add ?_ ?_).add ?_ ?_
    all_goals nofun
  split_ifs
  · have hpowerd := List.mem_append_right p₁.checks
      (List.mem_singleton_self (⟨powerdPath, beforeName p₁.checks.length, none, i.powerd.length⟩ : Item))
    exact hadding.addPatched ⟨_, List.mem_append_left _ hpowerd, rfl, rfl⟩
      ⟨⟨launchdPath, _, none, _⟩, List.mem_append_right _ (List.mem_singleton_self _), rfl, rfl⟩
  · exact hadding.toSound

/-! ## The regions of the payloads -/

/-- All of the one is in the other. -/
structure Prepared.Sub (p q : Prepared) : Prop where
  files : p.files ⊆ q.files
  checks : p.checks ⊆ q.checks
  writes : p.writes ⊆ q.writes

theorem Prepared.Sub.refl (p : Prepared) : p.Sub p :=
  ⟨List.Subset.refl _, List.Subset.refl _, List.Subset.refl _⟩

theorem Prepared.Sub.trans {p q r : Prepared} (h : p.Sub q) (h' : q.Sub r) : p.Sub r :=
  ⟨List.Subset.trans h.files h'.files, List.Subset.trans h.checks h'.checks,
    List.Subset.trans h.writes h'.writes⟩

/-- A region is checked, and written if it changes and the profile is the patched one. -/
structure Prepared.Has (p : Prepared) (name : Text) (patched : Bool) (r : Region) : Prop where
  check : ∃ c ∈ p.checks, c.target = cacheRoot ++ name ∧ c.offset = some r.offset ∧
    (c.payload, r.before) ∈ p.files
  write : patched = true → r.before ≠ r.after → ∃ w ∈ p.writes, w.target = cacheRoot ++ name ∧
    w.offset = some r.offset ∧ (w.payload, r.after) ∈ p.files

theorem Prepared.Has.mono {p q : Prepared} {name : Text} {patched : Bool} {r : Region}
    (h : p.Has name patched r) (hpq : p.Sub q) : q.Has name patched r where
  check := by
    obtain ⟨c, hc, htarget, hoffset, hfile⟩ := h.check
    exact ⟨c, hpq.checks hc, htarget, hoffset, hpq.files hfile⟩
  write hpatched hne := by
    obtain ⟨w, hw, htarget, hoffset, hfile⟩ := h.write hpatched hne
    exact ⟨w, hpq.writes hw, htarget, hoffset, hpq.files hfile⟩

theorem Prepared.sub_add (p : Prepared) (target : Text) (before : Bytes) (after : Option Bytes)
    (offset : Option ℕ) : p.Sub (p.add target before after offset) := by
  rw [Prepared.add_eq]
  exact ⟨List.subset_append_left _ _, List.subset_append_left _ _, List.subset_append_left _ _⟩

theorem Prepared.sub_addPatched (p : Prepared) (i : Inputs) : p.Sub (p.addPatched i) := by
  rw [Prepared.addPatched_eq]
  exact ⟨List.subset_append_left _ _, List.subset_append_left _ _, List.subset_append_left _ _⟩

/-- What is added for a region. -/
theorem Prepared.has_add (p : Prepared) (name : Text) (patched : Bool) (r : Region) :
    (p.add (cacheRoot ++ name) r.before (if patched then some r.after else none)
      (some r.offset)).Has name patched r := by
  rw [Prepared.add_eq]
  refine ⟨⟨_, List.mem_append_right _ (List.mem_singleton_self _), rfl, rfl, ?_⟩,
    fun hpatched hne => ?_⟩
  · exact List.mem_append_right _ List.mem_cons_self
  · have hchanged : changed r.before (if patched then some r.after else none) = [r.after] := by
      rw [hpatched, if_pos rfl, changed, Option.filter_some, if_pos (decide_eq_true hne)]
      rfl
    rw [hchanged]
    refine ⟨_, List.mem_append_right _ (List.mem_singleton_self _), rfl, rfl, ?_⟩
    exact List.mem_append_right _ (List.mem_cons_of_mem _ (List.mem_singleton_self _))

theorem Prepared.sub_addRegions (name : Text) (patched : Bool) : ∀ (regions : List Region)
    (p : Prepared), p.Sub (p.addRegions name patched regions)
  | [], p => Sub.refl p
  | r :: regions, p => by
    rw [addRegions_cons]
    exact (p.sub_add _ _ _ _).trans (sub_addRegions name patched regions _)

/-- All regions of a payload are added. -/
theorem Prepared.has_addRegions {name : Text} {patched : Bool} {r : Region} :
    ∀ {regions : List Region} {p : Prepared}, r ∈ regions →
      (p.addRegions name patched regions).Has name patched r
  | r' :: regions, p, hr => by
    obtain rfl | hr := List.mem_cons.mp hr
    · exact (p.has_add name patched r).mono (sub_addRegions name patched regions _)
    · rw [addRegions_cons]
      exact has_addRegions hr

/-- The payload of a specification is added, with all of its regions. -/
theorem has_addSpecs {sha256 : Bytes → Digest} {i : Inputs} {spec : Json} :
    ∀ {specs : List Json} {p p' : Prepared}, specs.foldlM (addSpec sha256 i) p = .ok p' →
      p.Sub p' ∧ (spec ∈ specs → ∃ name regions cdhash, cacheName spec = .ok name ∧
        cachePayload sha256 (String.ofList name) (i.caches name) spec = .ok (regions, cdhash) ∧
        ∀ r ∈ regions, p'.Has name i.patched r)
  | [], p, p', hok => by
    obtain rfl := Except.ok.inj hok
    exact ⟨Prepared.Sub.refl p, nofun⟩
  | spec' :: specs, p, p', hok => by
    rw [List.foldlM_cons] at hok
    obtain ⟨p₁, hspec, hok⟩ := bind_eq_ok.mp hok
    obtain ⟨name, hname, hspec⟩ := bind_eq_ok.mp hspec
    obtain ⟨⟨regions, cdhash⟩, hpayload, hspec⟩ := bind_eq_ok.mp hspec
    obtain rfl := Except.ok.inj hspec
    obtain ⟨hsub, hrest⟩ := @has_addSpecs sha256 i spec specs _ p' hok
    refine ⟨(p.sub_addRegions name i.patched regions).trans hsub, fun hmem => ?_⟩
    obtain rfl | hmem := List.mem_cons.mp hmem
    · exact ⟨name, regions, cdhash, hname, hpayload,
        fun r hr => (Prepared.has_addRegions hr).mono hsub⟩
    · exact hrest hmem

/-- Each region of the payload of each specification has a check of what it holds before, and a write
of what it holds after. -/
theorem prepare_complete {sha256 : Bytes → Digest} {i : Inputs} {p : Prepared} {spec : Json}
    (h : prepare sha256 i = .ok p) (hspec : spec ∈ i.specs) :
    ∃ name regions cdhash, cacheName spec = .ok name ∧
      cachePayload sha256 (String.ofList name) (i.caches name) spec = .ok (regions, cdhash) ∧
      ∀ r ∈ regions, p.Has name i.patched r := by
  obtain ⟨p₁, hspecs, h⟩ := bind_eq_ok.mp h
  obtain rfl := Except.ok.inj h
  obtain ⟨name, regions, cdhash, hname, hpayload, hhas⟩ := (has_addSpecs hspecs).2 hspec
  refine ⟨name, regions, cdhash, hname, hpayload, fun r hr => (hhas r hr).mono ?_⟩
  have hsub := (p₁.sub_add powerdPath i.powerd none none).trans
    (Prepared.sub_add _ launchdPath i.launchd_cache none none)
  split_ifs
  · exact hsub.trans (Prepared.sub_addPatched _ i)
  · exact hsub

/-! ## The native profile -/

/-- Nothing is to be written. -/
def Prepared.Native (p : Prepared) : Prop := p.writes = [] ∧ p.additions = []

theorem Prepared.Native.add {p : Prepared} (h : p.Native) (target : Text) (before : Bytes)
    (offset : Option ℕ) : (p.add target before none offset).Native := h

theorem Prepared.Native.addRegions {name : Text} : ∀ {regions : List Region} {p : Prepared},
    p.Native → (p.addRegions name false regions).Native
  | [], _, h => h
  | r :: regions, p, h => by
    rw [addRegions_cons]
    exact addRegions (h.add _ _ _)

theorem Prepared.Native.addSpecs {sha256 : Bytes → Digest} {i : Inputs} (hi : i.patched = false) :
    ∀ {specs : List Json} {p p' : Prepared}, p.Native →
      specs.foldlM (addSpec sha256 i) p = .ok p' → p'.Native
  | [], p, p', h, hok => by
    obtain rfl := Except.ok.inj hok
    exact h
  | spec :: specs, p, p', h, hok => by
    rw [List.foldlM_cons] at hok
    obtain ⟨p₁, hspec, hok⟩ := bind_eq_ok.mp hok
    obtain ⟨name, -, hspec⟩ := bind_eq_ok.mp hspec
    obtain ⟨⟨regions, cdhash⟩, -, hspec⟩ := bind_eq_ok.mp hspec
    obtain rfl := Except.ok.inj hspec
    rw [hi] at hok
    exact addSpecs hi h.addRegions hok

/-- The native profile writes and adds nothing. -/
theorem prepare_native {sha256 : Bytes → Digest} {i : Inputs} {p : Prepared}
    (hi : i.patched = false) (h : prepare sha256 i = .ok p) : p.Native := by
  obtain ⟨p₁, hspecs, h⟩ := bind_eq_ok.mp h
  obtain rfl := Except.ok.inj h
  have hstart : Prepared.Native ⟨[], [], [], []⟩ := ⟨rfl, rfl⟩
  rw [hi, if_neg Bool.false_ne_true]
  exact ((hstart.addSpecs hi hspecs).add _ _ _).add _ _ _

end DarwinVm.Profile
