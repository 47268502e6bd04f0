import DarwinVm.Lib.Dict
import DarwinVm.Lib.Except
import DarwinVm.Lib.Utf8

/-!
# Merging the ExclaveOS payload

`merge_tree` of `tools/rootfs/merge_exclave.py`: the payload of a source image is copied to a staging
tree next to the destination, and the staging tree is renamed to the destination once it has the
inventory of the payload. Every step may fail, and a copy may leave anything in the staging tree. The
states that the target goes through are listed in order, so that a call that is interrupted leaves it in
one of them, and the next call may find any of them.

In all of these states but the last one after a rename the destination is as it was
(`mergeTree_states`), and a call after one that succeeded changes nothing (`merge_all_or_nothing`).
-/

namespace DarwinVm.Rootfs

/-! ## Trees and inventories -/

/-- What is at a path: a file, a symbolic link with its target, a directory, or something else. -/
inductive FileTree
  | file (data : Bytes)
  | link (target : Text)
  | special
  | dir (entries : List (Text × FileTree))

/-- The entries of a directory. -/
abbrev Entries := List (Text × FileTree)

/-- A record of an inventory. -/
inductive Record
  | file (size : ℕ) (sha256 : Text)
  | link (target : Text)
  deriving DecidableEq

/-- The records of an inventory by their relative paths. -/
abbrev Records := List (Text × Record)

variable (sha256 : Bytes → Text)

/-- A record below a directory. -/
def under (root : Text) (r : Text × Record) : Text × Record := (root ++ '/' :: r.1, r.2)

mutual

/-- The records of an entry of a directory, and of what is below it. -/
def recordsOf (name : Text) : FileTree → Records
  | .file data => [(name, .file data.length (sha256 data))]
  | .link target => [(name, .link target)]
  | .special => []
  | .dir entries => (inventoryOf entries).map (under name)

/-- The records of a directory. -/
def inventoryOf : Entries → Records
  | [] => []
  | (name, t) :: entries => recordsOf name t ++ inventoryOf entries

end

/-- `inventory`: nothing is below what is no directory. -/
def inventory : FileTree → Records
  | .dir entries => inventoryOf sha256 entries
  | _ => []

/-! ## The call -/

/-- How `merge_tree` fails. -/
inductive MergeError
  /-- `'missing required ExclaveOS asset: ' + name` -/
  | missingAsset (name : Text)
  /-- `'unexpected ExclaveOS root entry: ' + str(root)` -/
  | unexpectedRoot (name : Text)
  /-- `'existing ExclaveOS tree differs; refusing to overwrite it'` -/
  | treeDiffers
  /-- `'ExclaveOS copy failed hash/symlink verification'` -/
  | copyDiffers
  /-- `NotADirectoryError`, or `FileExistsError` where a directory is to be made. -/
  | inTheWay
  /-- An `OSError` of a step. -/
  | os (message : Text)
  deriving DecidableEq

/-- The steps that ask the system. -/
inductive Step
  | asset (name : Text)
  | list
  | read (root : Text)
  | exists
  | readDestination
  | makeParent
  | makeStaging
  | copy (root : Text)
  | verify
  | rename
  deriving DecidableEq

/-- What goes wrong in a call: the steps that fail, and what the staging tree has after `copytree` of a
root, given what it had. -/
structure Faults where
  fails : Step → Option Text
  copytree : Entries → Text × FileTree → Entries

/-- Where symbolic links lead: whether there is a file of the source behind a link, at the path that goes
through it, and what a link at the destination leads to. -/
structure Links where
  file : List Text → Bool
  destination : Text → Option FileTree

/-- What is at the parent of the destination: nothing, something that is no directory, or a directory
that may have a destination and a staging tree. -/
inductive Target
  | missing
  | blocked
  | folder (destination staging : Option FileTree)

/-- What is at the destination. -/
def Target.destination : Target → Option FileTree
  | .folder destination _ => destination
  | _ => none

/-- What `destination.exists()` finds: links are followed. -/
def Target.reached (links : Links) (target : Target) : Option FileTree :=
  match target.destination with
  | some (.link path) => links.destination path
  | found => found

/-- The result of a call, and the states that it takes the target through, in order. -/
structure Outcome where
  result : Except MergeError Records
  states : List Target

/-- The state after a call. -/
def Outcome.final (o : Outcome) (target : Target) : Target := o.states.getLastD target

variable (links : Links) (faults : Faults)

/-- A step that may fail. -/
def attempt (s : Step) : Except MergeError Unit :=
  match faults.fails s with
  | some message => .error (.os message)
  | none => .ok ()

/-- `(source / path).is_file()`, which follows links. -/
def isFile : (seen path : List Text) → FileTree → Bool
  | seen, path, .link _ => links.file (seen ++ path)
  | _, [], .file _ => true
  | seen, name :: path, .dir entries =>
    match entries.lookup name with
    | some t => isFile (seen ++ [name]) path t
    | none => false
  | _, _, _ => false

/-- `ASSETS` -/
def assets : List Text :=
  ["System".toList, "ExclaveKit".toList, "System".toList, "Library".toList, "Frameworks".toList,
    "SILManagerComponent.framework".toList, "secureindicatorassets".toList]

/-- The required assets. -/
def assetNames : List Text :=
  ["cam_mic.plist".toList, "cam_mic_constraints.plist".toList, "cam_mic.bin".toList]

/-- The loop over the required assets. -/
def checkAssets (source : Entries) : List Text → Except MergeError Unit
  | [] => .ok ()
  | name :: names => do
    attempt faults (.asset name)
    if isFile links [] (assets ++ [name]) (.dir source) then checkAssets source names
    else .error (.missingAsset name)

/-- The payload directories: the entries at the root whose names do not start with a dot. -/
def rootsOf (source : Entries) : Entries := source.filter fun e => e.1.head? ≠ some '.'

/-- The loop over the roots, which collects the records. -/
def readRoots : Entries → Except MergeError Records
  | [] => .ok []
  | (name, .dir entries) :: roots => do
    attempt faults (.read name)
    let records ← readRoots roots
    .ok ((inventoryOf sha256 entries).map (under name) ++ records)
  | (name, _) :: _ => .error (.unexpectedRoot name)

/-- The part of `merge_tree` before it looks at the destination. -/
def expected (source : Entries) : Except MergeError Records := do
  checkAssets links faults source assetNames
  attempt faults .list
  readRoots sha256 faults (rootsOf source)

/-- The loop of `copytree` over the roots: how it fails, and what the staging tree has after each. -/
def copyRoots : Entries → Entries → Except MergeError Unit × List Entries
  | [], _ => (.ok (), [])
  | root :: roots, staging =>
    let staging := faults.copytree staging root
    match attempt faults (.copy root.1) with
    | .error e => (.error e, [staging])
    | .ok () => ((copyRoots roots staging).1, staging :: (copyRoots roots staging).2)

/-- The end of `merge_tree`, with the staging tree in place. -/
def verifyAndRename (records : Records) (destination : Option FileTree) (staging : Entries) :
    Except MergeError Records := do
  attempt faults .verify
  if SameItems (inventoryOf sha256 staging) records then
    attempt faults .rename
    -- A directory does not replace a link that leads nowhere.
    if destination.isSome then .error .inTheWay else .ok records
  else .error .copyDiffers

/-- The part of `merge_tree` after the parent of the destination is there. -/
def installIn (roots : Entries) (records : Records) (destination staging : Option FileTree) : Outcome :=
  let made := .folder destination staging
  match attempt faults .makeStaging, staging with
  | .error e, _ => ⟨.error e, [made]⟩
  -- An interrupted call has left its staging tree.
  | .ok (), some _ => ⟨.error .inTheWay, [made]⟩
  | .ok (), none =>
    let copied := copyRoots faults roots []
    let states := made :: ([] :: copied.2).map fun es => .folder destination (some (.dir es))
    match copied.1 with
    | .error e => ⟨.error e, states⟩
    | .ok () =>
      let entries := copied.2.getLastD []
      match verifyAndRename sha256 faults records destination entries with
      | .error e => ⟨.error e, states⟩
      | .ok records => ⟨.ok records, states ++ [.folder (some (.dir entries)) none]⟩

/-- The part of `merge_tree` after it has found no destination. -/
def install (roots : Entries) (records : Records) (target : Target) : Outcome :=
  match attempt faults .makeParent, target with
  | .error e, _ => ⟨.error e, []⟩
  | .ok (), .blocked => ⟨.error .inTheWay, []⟩
  | .ok (), .missing => installIn sha256 faults roots records none none
  | .ok (), .folder destination staging => installIn sha256 faults roots records destination staging

/-- `merge_tree` -/
def mergeTree (source : Entries) (target : Target) : Outcome :=
  match expected sha256 links faults source with
  | .error e => ⟨.error e, []⟩
  | .ok records =>
    match attempt faults .exists, target.reached links with
    | .error e, _ => ⟨.error e, []⟩
    | .ok (), some t =>
      match attempt faults .readDestination with
      | .error e => ⟨.error e, []⟩
      | .ok () =>
        if SameItems (inventory sha256 t) records then ⟨.ok records, []⟩ else ⟨.error .treeDiffers, []⟩
    | .ok (), none => install sha256 faults (rootsOf source) records target

/-! ## What a call does -/

/-- The source has the required assets, and its roots are directories. -/
structure Valid (source : Entries) : Prop where
  assets : ∀ name ∈ assetNames, isFile links [] (assets ++ [name]) (.dir source) = true
  roots : ∀ e ∈ rootsOf source, ∃ entries, e.2 = .dir entries

/-- The records of the payload. -/
def payload (source : Entries) : Records :=
  (rootsOf source).flatMap fun e => (inventory sha256 e.2).map (under e.1)

/-- No step fails. -/
def NoFaults : Prop := ∀ s, faults.fails s = none

/-- `copytree` copies. -/
def Faithful : Prop := ∀ staging root, faults.copytree staging root = staging ++ [root]

/-- The call fails, and the destination stays as it was. -/
def Refused (target : Target) (o : Outcome) : Prop :=
  (∃ e, o.result = .error e) ∧ ∀ t ∈ o.states, t.destination = target.destination

/-- The call accepts the destination that is there. -/
def Accepted (records : Records) (target : Target) (o : Outcome) : Prop :=
  o = ⟨.ok records, []⟩ ∧ ∃ t, target.reached links = some t ∧ SameItems (inventory sha256 t) records

/-- The call creates a destination that was not there, by one rename at its end. -/
def Renamed (records : Records) (target : Target) (o : Outcome) : Prop :=
  o.result = .ok records ∧ target.destination = none ∧ ∃ before entries,
    o.states = before ++ [.folder (some (.dir entries)) none] ∧
      (∀ t ∈ before, t.destination = none) ∧ SameItems (inventoryOf sha256 entries) records

variable {sha256 links faults} {source : Entries} {target : Target} {records : Records}

theorem attempt_eq_ok {s : Step} {u : Unit} : attempt faults s = .ok u ↔ faults.fails s = none := by
  unfold attempt
  cases faults.fails s with
  | none => exact iff_of_true rfl rfl
  | some message => exact iff_of_false nofun nofun

theorem NoFaults.attempt (h : NoFaults faults) (s : Step) : attempt faults s = .ok () :=
  attempt_eq_ok.mpr (h s)

/-! ### Reading the payload -/

theorem checkAssets_ok : ∀ {names : List Text}, checkAssets links faults source names = .ok () →
    ∀ name ∈ names, isFile links [] (assets ++ [name]) (.dir source) = true
  | [], _ => List.forall_mem_nil _
  | name :: names, h => by
    simp only [checkAssets, bind, bind_eq_ok] at h
    obtain ⟨-, -, h⟩ := h
    split_ifs at h with hfile
    exact List.forall_mem_cons.mpr ⟨hfile, checkAssets_ok h⟩

theorem checkAssets_of_noFaults (hf : NoFaults faults) : ∀ {names : List Text},
    (∀ name ∈ names, isFile links [] (assets ++ [name]) (.dir source) = true) →
      checkAssets links faults source names = .ok ()
  | [], _ => rfl
  | name :: names, h => by
    obtain ⟨hname, hnames⟩ := List.forall_mem_cons.mp h
    rw [checkAssets, hf.attempt, if_pos hname]
    exact checkAssets_of_noFaults hf hnames

theorem readRoots_ok : ∀ {roots : Entries} {records : Records},
    readRoots sha256 faults roots = .ok records → (∀ e ∈ roots, ∃ entries, e.2 = .dir entries) ∧
      records = roots.flatMap fun e => (inventory sha256 e.2).map (under e.1)
  | [], records, h => ⟨List.forall_mem_nil _, (Except.ok.inj h).symm⟩
  | (name, .dir entries) :: roots, records, h => by
    simp only [readRoots, bind, bind_eq_ok] at h
    obtain ⟨-, -, rest, hrest, h⟩ := h
    obtain ⟨hdirs, rfl⟩ := readRoots_ok hrest
    obtain rfl := Except.ok.inj h
    exact ⟨List.forall_mem_cons.mpr ⟨⟨entries, rfl⟩, hdirs⟩, rfl⟩

theorem readRoots_of_noFaults (hf : NoFaults faults) : ∀ {roots : Entries},
    (∀ e ∈ roots, ∃ entries, e.2 = .dir entries) → readRoots sha256 faults roots =
      .ok (roots.flatMap fun e => (inventory sha256 e.2).map (under e.1))
  | [], _ => rfl
  | (name, t) :: roots, h => by
    obtain ⟨⟨entries, rfl⟩, hroots⟩ := List.forall_mem_cons.mp h
    rw [readRoots, hf.attempt, readRoots_of_noFaults hf hroots]
    rfl

/-- What is expected is the payload of a valid source. -/
theorem expected_ok (h : expected sha256 links faults source = .ok records) :
    Valid links source ∧ records = payload sha256 source := by
  simp only [expected, bind, bind_eq_ok] at h
  obtain ⟨⟨⟩, hassets, -, -, h⟩ := h
  obtain ⟨hroots, hrecords⟩ := readRoots_ok h
  exact ⟨⟨checkAssets_ok hassets, hroots⟩, hrecords⟩

theorem expected_of_noFaults (hf : NoFaults faults) (h : Valid links source) :
    expected sha256 links faults source = .ok (payload sha256 source) := by
  rw [expected, checkAssets_of_noFaults hf h.assets, hf.attempt]
  exact readRoots_of_noFaults hf h.roots

/-! ### Copying -/

/-- A copy that is verified has the inventory that is expected, and takes the place of nothing. -/
theorem verifyAndRename_ok {destination : Option FileTree} {staging : Entries} {r : Records}
    (h : verifyAndRename sha256 faults records destination staging = .ok r) :
    r = records ∧ destination = none ∧ SameItems (inventoryOf sha256 staging) records := by
  simp only [verifyAndRename, bind, bind_eq_ok] at h
  obtain ⟨-, -, h⟩ := h
  by_cases hsame : SameItems (inventoryOf sha256 staging) records
  · rw [if_pos hsame, bind_eq_ok] at h
    obtain ⟨-, -, h⟩ := h
    cases destination with
    | some t => cases h
    | none => exact ⟨(Except.ok.inj h).symm, rfl, hsame⟩
  · rw [if_neg hsame] at h
    cases h

/-- Whatever fails, a call that finds no destination leaves none, or ends with a rename. -/
theorem installIn_outcome (roots : Entries) {target : Target} {destination staging : Option FileTree}
    (htarget : target.destination = destination) :
    Refused target (installIn sha256 faults roots records destination staging) ∨
      Renamed sha256 records target (installIn sha256 faults roots records destination staging) := by
  have hmade : (Target.folder destination staging).destination = target.destination := htarget.symm
  unfold installIn
  cases attempt faults .makeStaging with
  | error e => exact Or.inl ⟨⟨e, rfl⟩, List.forall_mem_singleton.mpr hmade⟩
  | ok u =>
    cases staging with
    | some t => exact Or.inl ⟨⟨_, rfl⟩, List.forall_mem_singleton.mpr hmade⟩
    | none =>
      dsimp only
      generalize copyRoots faults roots [] = copied
      -- While roots are copied, only the staging tree changes.
      have hstates : ∀ t ∈ Target.folder destination none ::
          ([] :: copied.2).map (fun es => Target.folder destination (some (.dir es))),
            t.destination = target.destination := by
        refine List.forall_mem_cons.mpr ⟨hmade, fun t ht => ?_⟩
        obtain ⟨es, -, rfl⟩ := List.mem_map.mp ht
        exact htarget.symm
      generalize Target.folder destination none :: _ = states at hstates ⊢
      cases copied.1 with
      | error e => exact Or.inl ⟨⟨e, rfl⟩, hstates⟩
      | ok u =>
        dsimp only
        generalize copied.2.getLastD [] = entries
        cases hrename : verifyAndRename sha256 faults records destination entries with
        | error e => exact Or.inl ⟨⟨e, rfl⟩, hstates⟩
        | ok r =>
          obtain ⟨rfl, hnone, hsame⟩ := verifyAndRename_ok hrename
          rw [← htarget] at hnone
          exact Or.inr ⟨rfl, hnone, states, entries, rfl, fun t ht => (hstates t ht).trans hnone, hsame⟩

theorem install_outcome (roots : Entries) (records : Records) (target : Target) :
    Refused target (install sha256 faults roots records target) ∨
      Renamed sha256 records target (install sha256 faults roots records target) := by
  unfold install
  cases attempt faults .makeParent with
  | error e => exact Or.inl ⟨⟨e, rfl⟩, List.forall_mem_nil _⟩
  | ok u =>
    cases target with
    | missing => exact installIn_outcome roots rfl
    | blocked => exact Or.inl ⟨⟨_, rfl⟩, List.forall_mem_nil _⟩
    | folder destination staging => exact installIn_outcome roots rfl

/-! ### The whole call -/

/-- What a call does: it refuses, accepts the destination that is there, or creates it. -/
theorem mergeTree_outcome (sha256 : Bytes → Text) (links : Links) (faults : Faults) (source : Entries) (target : Target) :
    Refused target (mergeTree sha256 links faults source target) ∨
      Accepted sha256 links (payload sha256 source) target
        (mergeTree sha256 links faults source target) ∨
      Renamed sha256 (payload sha256 source) target (mergeTree sha256 links faults source target) := by
  unfold mergeTree
  cases hexpected : expected sha256 links faults source with
  | error e => exact Or.inl ⟨⟨e, rfl⟩, List.forall_mem_nil _⟩
  | ok records =>
    obtain ⟨-, rfl⟩ := expected_ok hexpected
    cases attempt faults .exists with
    | error e => exact Or.inl ⟨⟨e, rfl⟩, List.forall_mem_nil _⟩
    | ok u =>
      cases hreached : target.reached links with
      | none =>
        obtain h | h := install_outcome (rootsOf source) (payload sha256 source) target
        · exact Or.inl h
        · exact Or.inr (Or.inr h)
      | some t =>
        dsimp only
        cases attempt faults .readDestination with
        | error e => exact Or.inl ⟨⟨e, rfl⟩, List.forall_mem_nil _⟩
        | ok u =>
          dsimp only
          split_ifs with hsame
          · exact Or.inr (Or.inl ⟨rfl, t, hreached, hsame⟩)
          · exact Or.inl ⟨⟨_, rfl⟩, List.forall_mem_nil _⟩

/-- A destination that is there is compared, and nothing is changed. -/
theorem mergeTree_reached {t : FileTree} (h : target.reached links = some t) :
    (mergeTree sha256 links faults source target).states = [] ∧
      ∀ records, (mergeTree sha256 links faults source target).result = .ok records →
        SameItems (inventory sha256 t) (payload sha256 source) := by
  unfold mergeTree
  cases hexpected : expected sha256 links faults source with
  | error e => exact ⟨rfl, nofun⟩
  | ok records =>
    obtain ⟨-, rfl⟩ := expected_ok hexpected
    cases attempt faults .exists with
    | error e => exact ⟨rfl, nofun⟩
    | ok u =>
      rw [h]
      dsimp only
      cases attempt faults .readDestination with
      | error e => exact ⟨rfl, nofun⟩
      | ok u =>
        dsimp only
        split_ifs with hsame
        · exact ⟨rfl, fun _ _ => hsame⟩
        · exact ⟨rfl, nofun⟩

/-- If nothing fails, a destination that is there is accepted exactly if it has the payload. -/
theorem mergeTree_of_noFaults {t : FileTree} (hf : NoFaults faults) (hvalid : Valid links source)
    (h : target.reached links = some t) : (mergeTree sha256 links faults source target).result =
      if SameItems (inventory sha256 t) (payload sha256 source) then .ok (payload sha256 source)
      else .error .treeDiffers := by
  unfold mergeTree
  rw [expected_of_noFaults hf hvalid, hf.attempt, hf.attempt, h]
  dsimp only
  split_ifs <;> rfl

theorem valid_of_ok (h : (mergeTree sha256 links faults source target).result = .ok records) :
    Valid links source := by
  unfold mergeTree at h
  cases hexpected : expected sha256 links faults source with
  | error e =>
    rw [hexpected] at h
    cases h
  | ok r => exact (expected_ok hexpected).1

/-- A call that succeeds returns the payload, and leaves a destination that has it. -/
theorem mergeTree_ok (h : (mergeTree sha256 links faults source target).result = .ok records) :
    records = payload sha256 source ∧
      ∃ t, ((mergeTree sha256 links faults source target).final target).reached links = some t ∧
        SameItems (inventory sha256 t) (payload sha256 source) := by
  obtain ⟨⟨e, herror⟩, -⟩ | ⟨ho, t, hreached, hsame⟩ | ⟨hok, -, before, entries, hstates, -, hsame⟩ :=
    mergeTree_outcome sha256 links faults source target
  · rw [herror] at h
    cases h
  · rw [ho] at h ⊢
    exact ⟨(Except.ok.inj h).symm, t, hreached, hsame⟩
  · rw [hok] at h
    refine ⟨(Except.ok.inj h).symm, .dir entries, ?_, hsame⟩
    rw [Outcome.final, hstates, List.getLastD_concat]
    rfl

/-- A faithful copy of the roots is the roots. -/
theorem copyRoots_of_noFaults (hf : NoFaults faults) (hcopy : Faithful faults) :
    ∀ roots staging : Entries, (copyRoots faults roots staging).1 = .ok () ∧
      (copyRoots faults roots staging).2.getLastD staging = staging ++ roots
  | [], staging => ⟨rfl, (List.append_nil staging).symm⟩
  | root :: roots, staging => by
    obtain ⟨hok, hlast⟩ := copyRoots_of_noFaults hf hcopy roots (staging ++ [root])
    rw [copyRoots, hcopy, hf.attempt]
    refine ⟨hok, ?_⟩
    rw [List.getLastD_cons, hlast, List.append_assoc, List.singleton_append]

theorem inventoryOf_roots : ∀ {roots : Entries}, (∀ e ∈ roots, ∃ entries, e.2 = .dir entries) →
    inventoryOf sha256 roots = roots.flatMap fun e => (inventory sha256 e.2).map (under e.1)
  | [], _ => rfl
  | (name, t) :: roots, h => by
    obtain ⟨⟨entries, rfl⟩, hroots⟩ := List.forall_mem_cons.mp h
    rw [inventoryOf, inventoryOf_roots hroots, recordsOf]
    rfl

/-- If nothing fails and there is neither a destination nor a staging tree, the payload is put there. -/
theorem mergeTree_creates (hf : NoFaults faults) (hcopy : Faithful faults) (hvalid : Valid links source)
    (htarget : target = .missing ∨ target = .folder none none) :
    (mergeTree sha256 links faults source target).result = .ok (payload sha256 source) ∧
      (mergeTree sha256 links faults source target).final target =
        .folder (some (.dir (rootsOf source))) none := by
  obtain ⟨hok, hlast⟩ := copyRoots_of_noFaults hf hcopy (rootsOf source) []
  have hsame : SameItems (inventoryOf sha256 (rootsOf source)) (payload sha256 source) := by
    rw [inventoryOf_roots hvalid.roots]
    exact SameItems.refl _
  have hrename : verifyAndRename sha256 faults (payload sha256 source) none (rootsOf source) =
      .ok (payload sha256 source) := by
    rw [verifyAndRename, hf.attempt, hf.attempt, if_pos hsame]
    rfl
  have hreached : target.reached links = none := by
    obtain rfl | rfl := htarget <;> rfl
  have hinstall : install sha256 faults (rootsOf source) (payload sha256 source) target =
      installIn sha256 faults (rootsOf source) (payload sha256 source) none none := by
    unfold install
    rw [hf.attempt]
    obtain rfl | rfl := htarget <;> rfl
  have hin : ∃ states, installIn sha256 faults (rootsOf source) (payload sha256 source) none none =
      ⟨.ok (payload sha256 source), states ++ [.folder (some (.dir (rootsOf source))) none]⟩ := by
    unfold installIn
    rw [hf.attempt]
    dsimp only
    rw [hok, hlast, List.nil_append]
    dsimp only
    rw [hrename]
    exact ⟨_, rfl⟩
  obtain ⟨states, hin⟩ := hin
  rw [mergeTree, expected_of_noFaults hf hvalid, hf.attempt, hreached]
  dsimp only
  rw [hinstall, hin]
  exact ⟨rfl, List.getLastD_concat ..⟩

/-! ### Some calls -/

/-- The target after some calls, with what goes wrong in each. -/
def merges (sha256 : Bytes → Text) (links : Links) (source : Entries) : List Faults → Target → Target
  | [], target => target
  | faults :: later, target =>
    merges sha256 links source later ((mergeTree sha256 links faults source target).final target)

theorem Refused.final_destination {o : Outcome} (h : Refused target o) :
    (o.final target).destination = target.destination := by
  unfold Outcome.final
  obtain hnil | ⟨before, last, hstates⟩ := o.states.eq_nil_or_concat
  · rw [hnil]
    rfl
  · rw [List.concat_eq_append] at hstates
    rw [hstates, List.getLastD_concat]
    exact h.2 last (by rw [hstates]; exact List.mem_append_right _ (List.mem_singleton_self last))

/-- After any number of calls the destination is as it was, or it has been made of the payload. -/
theorem merges_destination (sha256 : Bytes → Text) (links : Links) (source : Entries) :
    ∀ (calls : List Faults) (target : Target),
      (merges sha256 links source calls target).destination = target.destination ∨
        target.destination = none ∧ ∃ entries,
          (merges sha256 links source calls target).destination = some (.dir entries) ∧
            SameItems (inventoryOf sha256 entries) (payload sha256 source)
  | [], target => Or.inl rfl
  | faults :: later, target => by
    have ih := merges_destination sha256 links source later
      ((mergeTree sha256 links faults source target).final target)
    rw [merges]
    obtain hrefused | ⟨ho, -⟩ | ⟨-, hnone, before, entries, hstates, -, hsame⟩ :=
      mergeTree_outcome sha256 links faults source target
    · rwa [hrefused.final_destination] at ih
    · rwa [ho] at ih ⊢
    · -- Later calls find the destination that this one has made.
      have hfinal : ((mergeTree sha256 links faults source target).final target).destination =
          some (.dir entries) := by
        rw [Outcome.final, hstates, List.getLastD_concat]
        rfl
      rw [hfinal] at ih
      obtain hkept | ⟨hnever, -⟩ := ih
      · exact Or.inr ⟨hnone, entries, hkept, hsame⟩
      · cases hnever

/-- The merge is all or nothing, whatever fails. Every state that it takes the target through has the
destination as it was, except the last one of a call that found none, which is made by a rename and has
the inventory of the payload; a call that fails leaves the destination as it was. A destination that is
there is never changed, refused if it differs, and accepted if it does not and nothing fails. A call
after one that succeeded changes nothing, and returns the same records if nothing fails. And if nothing
fails, a destination that is not there is created. -/
theorem merge_all_or_nothing (sha256 : Bytes → Text) (links : Links) (faults : Faults) (source : Entries)
    (target : Target) :
    ((∀ t ∈ (mergeTree sha256 links faults source target).states, t.destination = target.destination) ∨
      Renamed sha256 (payload sha256 source) target (mergeTree sha256 links faults source target)) ∧
    (∀ e, (mergeTree sha256 links faults source target).result = .error e →
      ∀ t ∈ (mergeTree sha256 links faults source target).states, t.destination = target.destination) ∧
    (∀ t, target.reached links = some t →
      (mergeTree sha256 links faults source target).states = [] ∧
      (¬SameItems (inventory sha256 t) (payload sha256 source) →
        ∃ e, (mergeTree sha256 links faults source target).result = .error e) ∧
      (NoFaults faults → Valid links source → (mergeTree sha256 links faults source target).result =
        if SameItems (inventory sha256 t) (payload sha256 source) then .ok (payload sha256 source)
        else .error .treeDiffers)) ∧
    (∀ records, (mergeTree sha256 links faults source target).result = .ok records →
      records = payload sha256 source ∧ ∀ faults',
        (mergeTree sha256 links faults' source
          ((mergeTree sha256 links faults source target).final target)).states = [] ∧
        (NoFaults faults' → (mergeTree sha256 links faults' source
          ((mergeTree sha256 links faults source target).final target)).result = .ok records)) ∧
    (NoFaults faults → Faithful faults → Valid links source →
      (target = .missing ∨ target = .folder none none) →
        (mergeTree sha256 links faults source target).result = .ok (payload sha256 source) ∧
        (mergeTree sha256 links faults source target).final target =
          .folder (some (.dir (rootsOf source))) none) := by
  have houtcome := mergeTree_outcome sha256 links faults source target
  refine ⟨?_, fun e he => ?_, fun t ht => ⟨(mergeTree_reached ht).1, fun hdiffers => ?_,
    fun hf hvalid => mergeTree_of_noFaults hf hvalid ht⟩, fun records hok => ?_, mergeTree_creates⟩
  · obtain ⟨-, hstates⟩ | ⟨ho, -⟩ | hrenamed := houtcome
    · exact Or.inl hstates
    · rw [ho]
      exact Or.inl (List.forall_mem_nil _)
    · exact Or.inr hrenamed
  · obtain ⟨-, hstates⟩ | ⟨ho, -⟩ | ⟨hok, -⟩ := houtcome
    · exact hstates
    · rw [ho] at he
      cases he
    · rw [hok] at he
      cases he
  · cases hresult : (mergeTree sha256 links faults source target).result with
    | error e => exact ⟨e, rfl⟩
    | ok records => exact absurd ((mergeTree_reached ht).2 records hresult) hdiffers
  · obtain ⟨rfl, t, hreached, hsame⟩ := mergeTree_ok hok
    refine ⟨rfl, fun faults' => ⟨(mergeTree_reached hreached).1, fun hf => ?_⟩⟩
    rw [mergeTree_of_noFaults hf (valid_of_ok hok) hreached, if_pos hsame]

/-- A payload of the required assets. -/
def sampleSource : Entries :=
  [("System".toList, assets.tail.foldr (fun name t => FileTree.dir [(name, t)])
    (FileTree.dir (assetNames.map fun name => (name, FileTree.file []))))]

/-- It is created when it is not there, and then accepted. -/
theorem merge_all_or_nothing_sample :
    (mergeTree (fun _ => []) ⟨fun _ => false, fun _ => none⟩ ⟨fun _ => none, fun es e => es ++ [e]⟩
      sampleSource .missing).final .missing = .folder (some (.dir sampleSource)) none ∧
    (mergeTree (fun _ => []) ⟨fun _ => false, fun _ => none⟩ ⟨fun _ => none, fun es e => es ++ [e]⟩
      sampleSource (.folder (some (.dir sampleSource)) none)).states = [] := by
  have hroots : rootsOf sampleSource = sampleSource := by rfl
  have hvalid : Valid ⟨fun _ => false, fun _ => none⟩ sampleSource := by
    refine ⟨by decide, fun e he => ?_⟩
    rw [hroots] at he
    obtain rfl := List.mem_singleton.mp he
    exact ⟨_, rfl⟩
  obtain ⟨-, -, -, hagain, hcreates⟩ := merge_all_or_nothing (fun _ => []) ⟨fun _ => false, fun _ => none⟩
    ⟨fun _ => none, fun es e => es ++ [e]⟩ sampleSource .missing
  obtain ⟨hok, hfinal⟩ := hcreates (fun _ => rfl) (fun _ _ => rfl) hvalid (Or.inl rfl)
  have hsecond := ((hagain _ hok).2 ⟨fun _ => none, fun es e => es ++ [e]⟩).1
  rw [hfinal, hroots] at hsecond
  rw [hroots] at hfinal
  exact ⟨hfinal, hsecond⟩

end DarwinVm.Rootfs
