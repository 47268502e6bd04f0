import DarwinVm.Checkpoint.Restore

/-!
# A restore of a restore

What `restore_argv` makes of a command line in which each option has a value that is not an option:
the items one by one, and then the items that were missing (`restoreArgv_words`). A restore of the
result gives what a restore of the source gives (`restore_composes`). An option at the end, without a
value, is passed on as it is, and then takes the word that follows it in the result
(`not_restore_composes`).
-/

namespace DarwinVm.Checkpoint

open Argv

variable (resolve : Text → Text)

/-- What the loop makes of a proper item. -/
inductive Restored (old new : Text) (t : Target) (devices : List Text) : Item → List Item → Prop
  /-- An option that is left out. -/
  | drop {name value} (h : name ∈ dropped) : Restored old new t devices (.option name value) []
  /-- The monitor. -/
  | monitor {value} :
    Restored old new t devices (.option Arg.monitor value) [.option Arg.monitor (monitorSpec t)]
  /-- A drive. -/
  | drive {value rewritten} (h : replaceDriveFile resolve value old new = .ok rewritten) :
    Restored old new t devices (.option Arg.drive value) [.option Arg.drive rewritten]
  /-- A character device. -/
  | chardev {value} : Restored old new t devices (.option Arg.chardev value)
    [.option Arg.chardev (if isSerialSocket devices value then rewriteSocket t value else value)]
  /-- A serial device. -/
  | serial {value} : Restored old new t devices (.option Arg.serial value)
    [.option Arg.serial (if fileScheme <+: value then fileScheme ++ t.serial else value)]
  /-- `-daemonize` -/
  | daemonize : Restored old new t devices (.word Arg.daemonize) []
  /-- Another word. -/
  | word {w} (h : w ∉ valued) (hne : w ≠ Arg.daemonize) : Restored old new t devices (.word w) [.word w]

variable {old new : Text} {t : Target} {devices : List Text}

theorem restored_of_restoreItem {i : Item} {out : List Item} (hi : i.Proper valued optionNames)
    (h : restoreItem resolve old new t devices i = .ok out) :
    Restored resolve old new t devices i out := by
  obtain ⟨hm, hd, hc, hs⟩ := notMem_dropped
  obtain ⟨hdm, hcm, hcd, hsm, hsd, hsc⟩ := names_ne
  cases i with
  | option name value =>
    rw [restoreItem] at h
    rcases cases_of_mem_valued hi.1 with hname | rfl | rfl | rfl | rfl
    · rw [if_pos hname] at h
      obtain rfl := Except.ok.inj h
      exact .drop hname
    · rw [if_neg hm, if_pos rfl] at h
      obtain rfl := Except.ok.inj h
      exact .monitor
    · rw [if_neg hd, if_neg hdm, if_pos rfl] at h
      cases hr : replaceDriveFile resolve value old new with
      | error e =>
        rw [hr] at h
        cases h
      | ok rewritten =>
        rw [hr] at h
        obtain rfl := Except.ok.inj h
        exact .drive hr
    · rw [if_neg hc, if_neg hcm, if_neg hcd, if_pos rfl] at h
      obtain rfl := Except.ok.inj h
      exact .chardev
    · rw [if_neg hs, if_neg hsm, if_neg hsd, if_neg hsc] at h
      obtain rfl := Except.ok.inj h
      exact .serial
  | word w =>
    rw [restoreItem] at h
    by_cases hw : w = Arg.daemonize
    · rw [if_pos hw] at h
      obtain rfl := Except.ok.inj h
      rw [hw]
      exact .daemonize
    · rw [if_neg hw] at h
      obtain rfl := Except.ok.inj h
      exact .word hi hw

theorem restoreItem_of_restored {i : Item} {out : List Item}
    (h : Restored resolve old new t devices i out) :
    restoreItem resolve old new t devices i = .ok out := by
  obtain ⟨hm, hd, hc, hs⟩ := notMem_dropped
  obtain ⟨hdm, hcm, hcd, hsm, hsd, hsc⟩ := names_ne
  cases h with
  | drop h => rw [restoreItem, if_pos h]
  | monitor => rw [restoreItem, if_neg hm, if_pos rfl]
  | drive h =>
    rw [restoreItem, if_neg hd, if_neg hdm, if_pos rfl, h]
    rfl
  | chardev => rw [restoreItem, if_neg hc, if_neg hcm, if_neg hcd, if_pos rfl]
  | serial => rw [restoreItem, if_neg hs, if_neg hsm, if_neg hsd, if_neg hsc]
  | daemonize => rw [restoreItem, if_pos rfl]
  | word _ hne => rw [restoreItem, if_neg hne]

/-! ## Values -/

/-- The names have none of the characters that the specifications have. -/
theorem notMem_optionNames {v : Text} (h : '=' ∈ v ∨ ':' ∈ v) : v ∉ optionNames := by
  have hall : ∀ name ∈ optionNames, '=' ∉ name ∧ ':' ∉ name := by decide
  intro hv
  exact h.elim (hall v hv).1 (hall v hv).2

theorem monitorSpec_notMem (t : Target) : monitorSpec t ∉ optionNames := by
  refine notMem_optionNames (Or.inr ?_)
  rw [monitorSpec, List.append_assoc]
  exact List.mem_append_left _ (by decide)

theorem fileScheme_notMem (d : Text) : fileScheme ++ d ∉ optionNames :=
  notMem_optionNames (Or.inr (List.mem_append_left _ (by decide)))

theorem rewriteSocket_notMem (t : Target) (spec : Text) : rewriteSocket t spec ∉ optionNames := by
  refine notMem_optionNames (Or.inl ?_)
  have hsign : '=' ∈ pathKey ++ t.uart := List.mem_append_left t.uart (by decide)
  refine mem_joinComponents hsign ?_
  exact List.mem_append_right _ List.mem_cons_self

/-- A drive that is no option name does not become one. -/
theorem rewritten_notMem {spec spec' : Text} (hcomma : ',' ∉ new) (hspec : spec ∉ optionNames)
    (h : replaceDriveFile resolve spec old new = .ok spec') : spec' ∉ optionNames := by
  obtain ⟨-, rfl⟩ | ⟨-, hparts⟩ := replaceDriveFile_spec resolve hcomma h
  · exact hspec
  · refine notMem_optionNames (Or.inl ?_)
    have hsign : '=' ∈ fileKey ++ new := List.mem_append_left new (by decide)
    rw [← joinComponents_components spec']
    exact mem_joinComponents hsign
      (replaceFile_subset resolve hparts).1

/-- The parts of a socket that are kept. -/
theorem components_rewriteSocket {t : Target} (huart : ',' ∉ t.uart) (hserial : ',' ∉ t.serial)
    (spec : Text) : components (rewriteSocket t spec) =
      (components spec).filter (fun p => ¬pathKey <+: p ∧ ¬logfileKey <+: p) ++
        [pathKey ++ t.uart, logfileKey ++ t.serial] := by
  have hpath : ',' ∉ pathKey ++ t.uart := by
    rw [List.mem_append, not_or]
    exact ⟨by decide, huart⟩
  have hlogfile : ',' ∉ logfileKey ++ t.serial := by
    rw [List.mem_append, not_or]
    exact ⟨by decide, hserial⟩
  refine components_joinComponents (by simp) fun q hq => ?_
  rcases List.mem_append.mp hq with hq | hq
  · exact comma_notMem_components (List.mem_of_mem_filter hq)
  · rcases List.mem_cons.mp hq with rfl | hq
    · exact hpath
    · rw [List.mem_singleton.mp hq]
      exact hlogfile

/-- An id is no endpoint. -/
theorem not_prefix_idKey (device : Text) :
    ¬pathKey <+: idKey ++ device ∧ ¬logfileKey <+: idKey ++ device := by
  have hid : (idKey ++ device).head? = some 'i' := rfl
  refine ⟨?_, ?_⟩
  · rintro ⟨rest, h⟩
    have hpath : (pathKey ++ rest).head? = some 'p' := rfl
    rw [h, hid] at hpath
    exact absurd (Option.some.inj hpath) (by decide)
  · rintro ⟨rest, h⟩
    have hlogfile : (logfileKey ++ rest).head? = some 'l' := rfl
    rw [h, hid] at hlogfile
    exact absurd (Option.some.inj hlogfile) (by decide)

/-- A socket of a serial device stays one. -/
theorem isSerialSocket_rewriteSocket {t : Target} (huart : ',' ∉ t.uart) (hserial : ',' ∉ t.serial)
    {spec : Text} (h : isSerialSocket devices spec = true) :
    isSerialSocket devices (rewriteSocket t spec) = true := by
  rw [isSerialSocket, decide_eq_true_eq, List.any_eq_true] at h ⊢
  obtain ⟨hhead, device, hdevice, hid⟩ := h
  rw [decide_eq_true_eq] at hid
  obtain ⟨rest, hspec⟩ := List.head?_eq_some_iff.mp hhead
  have hsocket : ¬pathKey <+: socketKind ∧ ¬logfileKey <+: socketKind := by decide
  have hkey := not_prefix_idKey device
  rw [components_rewriteSocket huart hserial, hspec]
  refine ⟨?_, device, hdevice, ?_⟩
  · rw [List.filter_cons_of_pos (by rwa [decide_eq_true_eq])]
    rfl
  · rw [decide_eq_true_eq, ← hspec]
    exact List.mem_append_left _ (List.mem_filter.mpr ⟨hid, by rwa [decide_eq_true_eq]⟩)

/-- The endpoints that a restore added are replaced by the next one. -/
theorem rewriteSocket_rewriteSocket {t t' : Target} (huart : ',' ∉ t.uart) (hserial : ',' ∉ t.serial)
    (spec : Text) : rewriteSocket t' (rewriteSocket t spec) = rewriteSocket t' spec := by
  have hpath : pathKey <+: pathKey ++ t.uart := List.prefix_append _ _
  have hlogfile : logfileKey <+: logfileKey ++ t.serial := List.prefix_append _ _
  rw [rewriteSocket, components_rewriteSocket huart hserial, List.filter_append, List.filter_filter,
    rewriteSocket]
  simp [hpath, hlogfile]

/-! ## What an item becomes -/

/-- The disk of a command line. -/
def isDisk : Item → Bool
  | .option name value => name = Arg.drive ∧ ansId ∈ components value
  | .word _ => false

/-- The serial devices that an item names. -/
def deviceOf : Item → List Text
  | .option name value => if name = Arg.serial then (after chardevScheme value).toList else []
  | .word _ => []

/-- The items that a restore removes, changes, or adds. -/
def owned (devices : List Text) : Item → Bool
  | .option name value =>
    name ∈ dropped ∨ name = Arg.monitor ∨ isDisk (.option name value) = true ∨
      isLog devices (.option name value) = true
  | .word w => w = Arg.daemonize ∨ w = Arg.pause

/-- The names and the words that a restore leaves out. -/
def leftOut : List Text := dropped ++ [Arg.daemonize]

theorem leftOut_subset : leftOut ⊆ optionNames := by decide

theorem proper_option {name value : Text} (hname : name ∈ valued) (hne : name ∉ dropped)
    (hvalue : value ∉ optionNames) : (Item.option name value).Proper valued optionNames ∧
      ∀ w ∈ leftOut, w ∉ (Item.option name value).words := by
  refine ⟨⟨hname, hvalue⟩, fun w hw hmem => ?_⟩
  rcases List.mem_cons.mp hmem with rfl | hmem
  · rcases List.mem_append.mp hw with hw | hw
    · exact hne hw
    · rw [List.mem_singleton.mp hw] at hname
      exact absurd hname (by decide)
  · rw [List.mem_singleton.mp hmem] at hw
    exact hvalue (leftOut_subset hw)

/-- A file is no device. -/
theorem after_fileScheme (d : Text) : after chardevScheme (fileScheme ++ d) = none := by
  rw [after, if_neg]
  rintro ⟨rest, h⟩
  have hchardev : (chardevScheme ++ rest).head? = some 'c' := rfl
  have hfile : (fileScheme ++ d).head? = some 'f' := rfl
  rw [h, hfile] at hchardev
  exact absurd (Option.some.inj hchardev) (by decide)

/-- What an item becomes: items of the same kind, proper ones, and none that is left out. -/
structure Kind (devices : List Text) (i : Item) (out : List Item) : Prop where
  /-- They are proper, without the names and words that are left out. -/
  proper : ∀ j ∈ out, j.Proper valued optionNames ∧ ∀ w ∈ leftOut, w ∉ j.words
  /-- A monitor stays a monitor. -/
  monitor : out.any isMonitor = isMonitor i
  /-- A log stays a log. -/
  log : out.any (isLog devices) = isLog devices i
  /-- A disk stays a disk. -/
  disk : out.any isDisk = isDisk i
  /-- They name the same serial devices. -/
  device : out.flatMap deviceOf = deviceOf i
  /-- `-S` stays. -/
  pause : Item.word Arg.pause ∈ out ↔ Item.word Arg.pause = i
  /-- An item that is not owned stays as it is. -/
  kept : out.filter (fun j => !owned devices j) = [i].filter fun j => !owned devices j

theorem Restored.kind {i : Item} {out : List Item} (hcomma : ',' ∉ new) (huart : ',' ∉ t.uart)
    (hserial : ',' ∉ t.serial) (hi : i.Proper valued optionNames)
    (h : Restored resolve old new t devices i out) : Kind devices i out := by
  obtain ⟨hm, hd, hc, hs⟩ := notMem_dropped
  obtain ⟨hdm, hcm, hcd, hsm, hsd, hsc⟩ := names_ne
  cases h with
  | @drop name value h =>
    obtain ⟨h₁, h₂, h₃, h₄⟩ := ne_of_mem_dropped name h
    constructor <;> simp [isMonitor, isLog, isDisk, deviceOf, owned, h, h₁, h₂, h₃, h₄]
  | @monitor value =>
    have hproper := proper_option (by decide) hm (monitorSpec_notMem t)
    constructor <;> simp [isMonitor, isLog, isDisk, deviceOf, owned, hdm.symm, hcm.symm, hsm.symm]
    exact hproper
  | @drive value rewritten h =>
    have hproper := proper_option (by decide) hd (rewritten_notMem resolve hcomma hi.2 h)
    obtain ⟨hans, rfl⟩ | ⟨hans, hparts⟩ := replaceDriveFile_spec resolve hcomma h
    · constructor <;> simp [isMonitor, isLog, isDisk, deviceOf, owned, hdm, hcd.symm, hsd.symm, hd, hans]
      exact hproper
    · have hans' := (mem_replaceFile resolve not_fileKey_ansId hparts).mpr hans
      constructor <;>
        simp [isMonitor, isLog, isDisk, deviceOf, owned, hdm, hcd.symm, hsd.symm, hd, hans, hans']
      exact hproper
  | @chardev value =>
    by_cases hown : isSerialSocket devices value = true
    · have hproper := proper_option (by decide) hc (rewriteSocket_notMem t value)
      have hown' := isSerialSocket_rewriteSocket huart hserial hown
      constructor <;>
        simp [isMonitor, isLog, isDisk, deviceOf, owned, hcm, hcd, hsc.symm, hc, hown, hown']
      exact hproper
    · have hproper := proper_option (by decide) hc hi.2
      constructor <;> simp [isMonitor, isLog, isDisk, deviceOf, owned, hcm, hcd, hsc.symm, hc, hown]
      exact hproper
  | @serial value =>
    by_cases hfile : fileScheme <+: value
    · have hproper := proper_option (by decide) hs (fileScheme_notMem t.serial)
      have hvalue : after chardevScheme value = none := by
        obtain ⟨d, rfl⟩ := hfile
        exact after_fileScheme d
      constructor <;>
        simp [isMonitor, isLog, isDisk, deviceOf, owned, hsm, hsd, hsc, hs, hfile, hvalue,
          after_fileScheme]
      exact hproper
    · have hproper := proper_option (by decide) hs hi.2
      constructor <;> simp [isMonitor, isLog, isDisk, deviceOf, owned, hsm, hsd, hsc, hs, hfile]
      exact hproper
  | daemonize =>
    have hpause : Arg.pause ≠ Arg.daemonize := by decide
    constructor <;> simp [isMonitor, isLog, isDisk, deviceOf, owned, hpause]
  | @word w h hne =>
    constructor <;> simp [isMonitor, isLog, isDisk, deviceOf, owned]
    refine ⟨h, fun w' hw' => ?_⟩
    rw [Item.words, List.mem_singleton]
    rintro rfl
    rcases List.mem_append.mp hw' with hw' | hw'
    · exact h (List.mem_append_left _ hw')
    · exact hne (List.mem_singleton.mp hw')

/-! ## What the items become -/

theorem restoreItems_cons_ok {i : Item} {is outs : List Item}
    (h : restoreItems resolve old new t devices (i :: is) = .ok outs) :
    ∃ out rest, restoreItem resolve old new t devices i = .ok out ∧
      restoreItems resolve old new t devices is = .ok rest ∧ outs = out ++ rest := by
  simp only [restoreItems, bind, bind_eq_ok] at h
  obtain ⟨out, hout, rest, hrest, h⟩ := h
  exact ⟨out, rest, hout, hrest, (Except.ok.inj h).symm⟩

theorem restoreItems_append (is' : List Item) : ∀ is : List Item,
    restoreItems resolve old new t devices (is ++ is') =
      (restoreItems resolve old new t devices is).bind fun outs =>
        (restoreItems resolve old new t devices is').map (outs ++ ·)
  | [] => by
    rw [List.nil_append, restoreItems]
    cases restoreItems resolve old new t devices is' <;> rfl
  | i :: is => by
    rw [List.cons_append, restoreItems, restoreItems, restoreItems_append is' is]
    cases restoreItem resolve old new t devices i with
    | error e => rfl
    | ok out =>
      cases restoreItems resolve old new t devices is with
      | error e => rfl
      | ok outs =>
        cases restoreItems resolve old new t devices is' with
        | error e => rfl
        | ok outs' => exact congrArg Except.ok (List.append_assoc out outs outs').symm

theorem restoreItems_singleton (i : Item) :
    restoreItems resolve old new t devices [i] = restoreItem resolve old new t devices i := by
  rw [restoreItems, restoreItems]
  cases restoreItem resolve old new t devices i with
  | error e => rfl
  | ok out => exact congrArg Except.ok (List.append_nil out)

/-- The items of a restore are of the kinds of those of the source. -/
theorem kinds (hcomma : ',' ∉ new) (huart : ',' ∉ t.uart) (hserial : ',' ∉ t.serial) :
    ∀ {is outs : List Item}, (∀ i ∈ is, i.Proper valued optionNames) →
      restoreItems resolve old new t devices is = .ok outs →
        (∀ j ∈ outs, j.Proper valued optionNames ∧ ∀ w ∈ leftOut, w ∉ j.words) ∧
          outs.any isMonitor = is.any isMonitor ∧
            outs.any (isLog devices) = is.any (isLog devices) ∧
              outs.any isDisk = is.any isDisk ∧ outs.flatMap deviceOf = is.flatMap deviceOf ∧
                (Item.word Arg.pause ∈ outs ↔ Item.word Arg.pause ∈ is) ∧
                  outs.filter (fun j => !owned devices j) = is.filter fun j => !owned devices j
  | [], outs, _, h => by
    obtain rfl := Except.ok.inj h
    simp
  | i :: is, outs, hproper, h => by
    obtain ⟨hi, his⟩ := List.forall_mem_cons.mp hproper
    obtain ⟨out, rest, hout, hrest, rfl⟩ := restoreItems_cons_ok resolve h
    have hk := (restored_of_restoreItem resolve hi hout).kind resolve hcomma huart hserial hi
    obtain ⟨h₁, h₂, h₃, h₄, h₅, h₆, h₇⟩ := kinds hcomma huart hserial his hrest
    refine ⟨fun j hj => (List.mem_append.mp hj).elim (hk.proper j) (h₁ j), ?_, ?_, ?_, ?_, ?_, ?_⟩
    · rw [List.any_append, hk.monitor, h₂, List.any_cons]
    · rw [List.any_append, hk.log, h₃, List.any_cons]
    · rw [List.any_append, hk.disk, h₄, List.any_cons]
    · rw [List.flatMap_append, hk.device, h₅, List.flatMap_cons]
    · rw [List.mem_append, hk.pause, h₆, List.mem_cons]
    · rw [List.filter_append, hk.kept, h₇, ← List.filter_append, List.singleton_append]

/-- The disks are the drives that a restore to another file changes. -/
theorem any_changesDrive (hcomma : ',' ∉ new) (hne : resolve old ≠ resolve new) :
    ∀ {is outs : List Item}, (∀ i ∈ is, i.Proper valued optionNames) →
      restoreItems resolve old new t devices is = .ok outs →
        is.any (changesDrive resolve old new) = is.any isDisk
  | [], _, _, _ => rfl
  | i :: is, outs, hproper, h => by
    obtain ⟨hi, his⟩ := List.forall_mem_cons.mp hproper
    obtain ⟨out, rest, hout, hrest, rfl⟩ := restoreItems_cons_ok resolve h
    have hi' : changesDrive resolve old new i = isDisk i := by
      obtain ⟨hdm, hcm, hcd, hsm, hsd, hsc⟩ := names_ne
      cases restored_of_restoreItem resolve hi hout with
      | drop hname => simp [changesDrive, isDisk, (ne_of_mem_dropped _ hname).2.1]
      | drive hr =>
        have hiff := changesDrive_iff resolve hcomma hne hr
        simp only [changesDrive, isDisk, hr, Except.toOption, true_and, ne_eq, Option.some.injEq]
        exact decide_eq_decide.mpr hiff
      | monitor => simp [changesDrive, isDisk, hdm.symm]
      | chardev => simp [changesDrive, isDisk, hcd]
      | serial => simp [changesDrive, isDisk, hsd]
      | daemonize => rfl
      | word _ _ => rfl
    rw [List.any_cons, List.any_cons, hi', any_changesDrive hcomma hne his hrest]

/-- An item that was restored is restored again. -/
theorem restoreItems_restored {d₀ d₁ d₂ : Text} {t₁ t₂ : Target} (hcomma : ',' ∉ d₁)
    (huart : ',' ∉ t₁.uart) (hserial : ',' ∉ t₁.serial) {i : Item} {out : List Item}
    (h : Restored resolve d₀ d₁ t₁ devices i out) :
    restoreItems resolve d₁ d₂ t₂ devices out = restoreItem resolve d₀ d₂ t₂ devices i := by
  cases h with
  | drop h => rw [restoreItem, if_pos h, restoreItems]
  | monitor =>
    rw [restoreItems_singleton, restoreItem_of_restored resolve .monitor, restoreItem_of_restored resolve .monitor]
  | drive h =>
    obtain ⟨-, hd, -, -⟩ := notMem_dropped
    rw [restoreItems_singleton, restoreItem, restoreItem, if_neg hd, if_neg hd, if_neg names_ne.1, if_neg names_ne.1,
      if_pos rfl, if_pos rfl, replaceDriveFile_replaceDriveFile resolve hcomma h]
  | @chardev value =>
    rw [restoreItems_singleton, restoreItem_of_restored resolve .chardev, restoreItem_of_restored resolve .chardev]
    by_cases hown : isSerialSocket devices value = true
    · rw [if_pos hown, if_pos hown, if_pos (isSerialSocket_rewriteSocket huart hserial hown),
        rewriteSocket_rewriteSocket huart hserial]
    · rw [if_neg hown, if_neg hown]
  | @serial value =>
    rw [restoreItems_singleton, restoreItem_of_restored resolve .serial, restoreItem_of_restored resolve .serial]
    by_cases hfile : fileScheme <+: value
    · rw [if_pos hfile, if_pos hfile, if_pos (List.prefix_append fileScheme _)]
    · rw [if_neg hfile, if_neg hfile]
  | daemonize => rw [restoreItem, if_pos rfl, restoreItems]
  | word h hne =>
    rw [restoreItems_singleton, restoreItem_of_restored resolve (.word h hne),
      restoreItem_of_restored resolve (.word h hne)]

/-- Items that were restored are restored again. -/
theorem restoreItems_restoreItems {d₀ d₁ d₂ : Text} {t₁ t₂ : Target} (hcomma : ',' ∉ d₁)
    (huart : ',' ∉ t₁.uart) (hserial : ',' ∉ t₁.serial) :
    ∀ {is outs : List Item}, (∀ i ∈ is, i.Proper valued optionNames) →
      restoreItems resolve d₀ d₁ t₁ devices is = .ok outs →
        restoreItems resolve d₁ d₂ t₂ devices outs = restoreItems resolve d₀ d₂ t₂ devices is
  | [], outs, _, h => by
    obtain rfl := Except.ok.inj h
    rfl
  | i :: is, outs, hproper, h => by
    obtain ⟨hi, his⟩ := List.forall_mem_cons.mp hproper
    obtain ⟨out, rest, hout, hrest, rfl⟩ := restoreItems_cons_ok resolve h
    have hstep : restoreItems resolve d₁ d₂ t₂ devices out = restoreItem resolve d₀ d₂ t₂ devices i :=
      restoreItems_restored resolve hcomma huart hserial (restored_of_restoreItem resolve hi hout)
    rw [restoreItems_append, hstep, restoreItems_restoreItems hcomma huart hserial his hrest,
      restoreItems]
    cases restoreItem resolve d₀ d₂ t₂ devices i with
    | error e => rfl
    | ok out =>
      cases restoreItems resolve d₀ d₂ t₂ devices is <;> rfl

/-- Whether items are restored does not depend on the new resources. -/
theorem exists_restoreItems (new' : Text) (t' : Target) :
    ∀ {is outs : List Item}, (∀ i ∈ is, i.Proper valued optionNames) →
      restoreItems resolve old new t devices is = .ok outs →
        ∃ outs', restoreItems resolve old new' t' devices is = .ok outs'
  | [], _, _, _ => ⟨[], rfl⟩
  | i :: is, outs, hproper, h => by
    obtain ⟨hi, his⟩ := List.forall_mem_cons.mp hproper
    obtain ⟨out, rest, hout, hrest, rfl⟩ := restoreItems_cons_ok resolve h
    obtain ⟨rest', hrest'⟩ := exists_restoreItems new' t' his hrest
    have hstep : ∃ out', Restored resolve old new' t' devices i out' := by
      cases restored_of_restoreItem resolve hi hout with
      | drop hname => exact ⟨_, .drop hname⟩
      | monitor => exact ⟨_, .monitor⟩
      | drive hr =>
        obtain ⟨rewritten, hr'⟩ := exists_replaceDriveFile resolve new' hr
        exact ⟨_, .drive hr'⟩
      | chardev => exact ⟨_, .chardev⟩
      | serial => exact ⟨_, .serial⟩
      | daemonize => exact ⟨_, .daemonize⟩
      | word hw hne => exact ⟨_, .word hw hne⟩
    obtain ⟨out', hout'⟩ := hstep
    rw [restoreItems, restoreItem_of_restored resolve hout', hrest']
    exact ⟨_, rfl⟩

/-! ## The command line -/

/-- The monitor, if it was missing. -/
def monitorItems (t : Target) (is : List Item) : List Item :=
  if is.any isMonitor then [] else [.option Arg.monitor (monitorSpec t)]

/-- `-S`, if it was missing. -/
def pauseItems (program : Text) (body : List Item) : List Item :=
  if Arg.pause ∈ program :: words body then [] else [.word Arg.pause]

/-- The debugger port, and the state. -/
def stateItems (t : Target) : List Item :=
  (match t.gdbPort with
    | some port => [.option Arg.gdb (tcpScheme ++ (toString port).toList)]
    | none => []) ++ [.option Arg.incoming (fileScheme ++ t.state)]

/-- The result for items that were restored. -/
def resultWords (t : Target) (program : Text) (is outs : List Item) : List Text :=
  program :: words (outs ++ monitorItems t is ++ pauseItems program (outs ++ monitorItems t is) ++
    stateItems t)

/-- `restore_argv` item by item. -/
theorem restoreArgv_words {program : Text} {is : List Item}
    (hproper : ∀ i ∈ is, i.Proper valued optionNames) :
    restoreArgv resolve (program :: words is) old new t =
      (restoreItems resolve old new t (serialDevices (program :: words is)) is).bind fun outs =>
        if is.any (changesDrive resolve old new) = false then .error .noDisk
        else if is.any (isLog (serialDevices (program :: words is))) = false then .error .noLog
        else .ok (resultWords t program is outs) := by
  simp only [restoreArgv, bind]
  rw [restoreLoop_words resolve old new t _ hproper]
  cases restoreItems resolve old new t (serialDevices (program :: words is)) is with
  | error e => rfl
  | ok outs =>
    simp only [Except.map, Except.bind, Bool.false_or, List.singleton_append, Bool.not_eq_true]
    refine if_congr Iff.rfl rfl (if_congr Iff.rfl rfl (congrArg Except.ok ?_))
    have hmonitor : (if is.any isMonitor = true then program :: words outs
        else program :: words outs ++ [Arg.monitor, monitorSpec t]) =
        program :: words (outs ++ monitorItems t is) := by
      rw [words_append, monitorItems]
      split_ifs <;> simp
    have hpause : ∀ body, (if Arg.pause ∉ program :: words body then
        program :: words body ++ [Arg.pause] else program :: words body) =
        program :: words (body ++ pauseItems program body) := by
      intro body
      rw [words_append, pauseItems]
      split_ifs <;> simp_all
    have hstate : gdbWords t ++ [Arg.incoming, fileScheme ++ t.state] = words (stateItems t) := by
      rw [gdbWords, stateItems]
      cases t.gdbPort <;> rfl
    rw [hmonitor, hpause, List.append_assoc, hstate, List.cons_append, ← words_append]
    rfl

theorem serialDevices_cons_cons (w v : Text) (ws : List Text) :
    serialDevices (w :: v :: ws) = deviceOf (.option w v) ++ serialDevices (v :: ws) := by
  rw [serialDevices, List.tail_cons, List.zip_cons_cons, deviceOf]
  by_cases hw : w = Arg.serial
  · rw [if_pos hw]
    cases hdevice : after chardevScheme v with
    | none =>
      rw [List.filterMap_cons_none (by rw [if_pos hw, hdevice])]
      rfl
    | some d =>
      rw [List.filterMap_cons_some (by rw [if_pos hw, hdevice])]
      rfl
  · rw [if_neg hw, List.filterMap_cons_none (by rw [if_neg hw])]
    rfl

theorem serialDevices_of_ne {w : Text} (h : w ≠ Arg.serial) (ws : List Text) :
    serialDevices (w :: ws.take 1) = [] := by
  cases ws with
  | nil => rfl
  | cons v ws =>
    rw [List.take_succ_cons, List.take_zero, serialDevices_cons_cons, deviceOf, if_neg h]
    rfl

/-- The devices of a command line, by its items. The first word may be one, too. -/
theorem serialDevices_words : ∀ {is : List Item} (w : Text),
    (∀ i ∈ is, i.Proper valued optionNames) →
      serialDevices (w :: words is) =
        serialDevices (w :: (words is).take 1) ++ is.flatMap deviceOf
  | [], w, _ => rfl
  | .option name value :: is, w, h => by
    obtain ⟨⟨-, hvalue⟩, his⟩ := List.forall_mem_cons.mp h
    have hne : value ≠ Arg.serial := by
      rintro rfl
      exact hvalue (by decide)
    rw [words_option, serialDevices_cons_cons, serialDevices_cons_cons, serialDevices_words value his,
      serialDevices_of_ne hne, List.take_succ_cons, List.take_zero, serialDevices_cons_cons,
      List.flatMap_cons, List.nil_append, List.append_assoc]
    rfl
  | .word u :: is, w, h => by
    obtain ⟨hu, his⟩ := List.forall_mem_cons.mp h
    have hne : u ≠ Arg.serial := by
      rintro rfl
      exact hu (by decide)
    rw [words_word, serialDevices_cons_cons, serialDevices_words u his, serialDevices_of_ne hne,
      List.take_succ_cons, List.take_zero, serialDevices_cons_cons, List.flatMap_cons,
      List.nil_append, List.append_assoc]
    rfl

/-- `-S` is a word of its own. -/
theorem pause_mem_words : ∀ {is : List Item}, (∀ i ∈ is, i.Proper valued optionNames) →
    (Arg.pause ∈ words is ↔ Item.word Arg.pause ∈ is)
  | [], _ => iff_of_false List.not_mem_nil List.not_mem_nil
  | .option name value :: is, h => by
    obtain ⟨⟨hname, hvalue⟩, his⟩ := List.forall_mem_cons.mp h
    have hname' : Arg.pause ≠ name := by
      rintro rfl
      exact absurd hname (by decide)
    have hvalue' : Arg.pause ≠ value := by
      rintro rfl
      exact hvalue (by decide)
    rw [words_option, List.mem_cons, List.mem_cons, List.mem_cons, pause_mem_words his]
    simp [hname', hvalue']
  | .word u :: is, h => by
    obtain ⟨-, his⟩ := List.forall_mem_cons.mp h
    rw [words_word, List.mem_cons, List.mem_cons, pause_mem_words his, Item.word.injEq]

/-! ## A second restore -/

theorem pause_notMem_valued : Arg.pause ∉ valued := by decide

/-- What `restore_argv` adds. -/
def addedItems (t : Target) (program : Text) (is outs : List Item) : List Item :=
  monitorItems t is ++ pauseItems program (outs ++ monitorItems t is) ++ stateItems t

theorem mem_stateItems {t : Target} {i : Item} (h : i ∈ stateItems t) :
    ∃ name value, i = .option name value ∧ name ∈ dropped ∧ value ∉ optionNames := by
  rcases List.mem_append.mp h with h | h
  · cases hport : t.gdbPort with
    | none =>
      rw [hport] at h
      exact absurd h List.not_mem_nil
    | some port =>
      rw [hport] at h
      refine ⟨_, _, List.mem_singleton.mp h, by decide, notMem_optionNames (Or.inr ?_)⟩
      exact List.mem_append_left _ (by decide)
  · exact ⟨_, _, List.mem_singleton.mp h, by decide, fileScheme_notMem t.state⟩

/-- The added items are proper, and they name no serial device. -/
theorem addedItems_spec (t : Target) (program : Text) (is outs : List Item) :
    ∀ i ∈ addedItems t program is outs, i.Proper valued optionNames ∧ deviceOf i = [] := by
  intro i hi
  rcases List.mem_append.mp hi with hi | hi
  · rcases List.mem_append.mp hi with hi | hi
    · rw [monitorItems] at hi
      split_ifs at hi
      · exact absurd hi List.not_mem_nil
      · rw [List.mem_singleton.mp hi]
        exact ⟨⟨by decide, monitorSpec_notMem t⟩, by rw [deviceOf, if_neg names_ne.2.2.2.1.symm]⟩
    · rw [pauseItems] at hi
      split_ifs at hi
      · exact absurd hi List.not_mem_nil
      · rw [List.mem_singleton.mp hi]
        exact ⟨pause_notMem_valued, rfl⟩
  · obtain ⟨name, value, rfl, hname, hvalue⟩ := mem_stateItems hi
    have hne : name ≠ Arg.serial := (ne_of_mem_dropped name hname).2.2.2
    rw [deviceOf, if_neg hne]
    exact ⟨⟨List.mem_append_left _ hname, hvalue⟩, rfl⟩

theorem owned_of_mem_addedItems {t : Target} {program : Text} {is outs : List Item} {i : Item}
    (hi : i ∈ addedItems t program is outs) : owned devices i = true := by
  rcases List.mem_append.mp hi with hi | hi
  · rcases List.mem_append.mp hi with hi | hi
    · rw [monitorItems] at hi
      split_ifs at hi
      · exact absurd hi List.not_mem_nil
      · rw [List.mem_singleton.mp hi, owned, decide_eq_true_eq]
        exact Or.inr (Or.inl rfl)
    · rw [pauseItems] at hi
      split_ifs at hi
      · exact absurd hi List.not_mem_nil
      · rw [List.mem_singleton.mp hi, owned, decide_eq_true_eq]
        exact Or.inr rfl
  · obtain ⟨name, value, rfl, hname, -⟩ := mem_stateItems hi
    rw [owned, decide_eq_true_eq]
    exact Or.inl hname

theorem resultWords_eq (t : Target) (program : Text) (is outs : List Item) :
    resultWords t program is outs = program :: words (outs ++ addedItems t program is outs) := by
  rw [resultWords, addedItems, ← List.append_assoc, ← List.append_assoc]

/-- What a second restore makes of the items that the first one added. -/
theorem restoreItems_addedItems (t t' : Target) (program : Text) (is outs : List Item) :
    restoreItems resolve old new t' devices (addedItems t program is outs) =
      .ok (monitorItems t' is ++ pauseItems program (outs ++ monitorItems t is)) := by
  have hmonitor : restoreItems resolve old new t' devices (monitorItems t is) =
      .ok (monitorItems t' is) := by
    rw [monitorItems, monitorItems]
    split_ifs
    · rfl
    · rw [restoreItems_singleton, restoreItem_of_restored resolve .monitor]
  have hpause : ∀ body, restoreItems resolve old new t' devices (pauseItems program body) =
      .ok (pauseItems program body) := by
    intro body
    rw [pauseItems]
    split_ifs
    · rfl
    · rw [restoreItems_singleton, restoreItem_of_restored resolve (.word pause_notMem_valued (by decide))]
  have hstate : ∀ {state : List Item}, (∀ i ∈ state, i ∈ stateItems t) →
      restoreItems resolve old new t' devices state = .ok [] := by
    intro state
    induction state with
    | nil => exact fun _ => rfl
    | cons i state ih =>
      intro h
      obtain ⟨name, value, rfl, hname, -⟩ := mem_stateItems (h i List.mem_cons_self)
      rw [restoreItems, restoreItem, if_pos hname, ih fun j hj => h j (List.mem_cons_of_mem _ hj)]
      rfl
  rw [addedItems, restoreItems_append, restoreItems_append, hmonitor, hpause, hstate fun _ => id]
  simp [Except.bind, Except.map]

/-- The first word of the options stays, if the program has the name of an option. -/
theorem take_one_words {program : Text} {is outs : List Item} (hprogram : program = Arg.serial)
    (hform : Formed valued optionNames (program :: words is)) (hproper : ∀ i ∈ is, i.Proper valued optionNames)
    (h : restoreItems resolve old new t devices is = .ok outs) (added : List Item) :
    (words (outs ++ added)).take 1 = (words is).take 1 := by
  -- The word after such a program is its value, which is not an option.
  obtain ⟨v, hv, hnames⟩ := hform 0 program rfl (by rw [hprogram]; decide)
  match is, hproper, h, hv with
  | .option name value :: is, hproper, h, hv =>
    obtain rfl := Option.some.inj hv
    exact absurd (List.mem_append_left _ (hproper _ List.mem_cons_self).1) hnames
  | .word u :: is, hproper, h, hv =>
    obtain rfl := Option.some.inj hv
    have hne : u ≠ Arg.daemonize := by
      rintro rfl
      exact hnames (by decide)
    obtain ⟨out, rest, hout, -, rfl⟩ := restoreItems_cons_ok resolve h
    rw [restoreItem, if_neg hne] at hout
    obtain rfl := Except.ok.inj hout
    rfl

/-- The result of a restore has the serial devices of the source. -/
theorem serialDevices_result {program : Text} {is outs : List Item} (hcomma : ',' ∉ new)
    (huart : ',' ∉ t.uart) (hserial : ',' ∉ t.serial)
    (hform : Formed valued optionNames (program :: words is))
    (hproper : ∀ i ∈ is, i.Proper valued optionNames)
    (h : restoreItems resolve old new t devices is = .ok outs) :
    serialDevices (resultWords t program is outs) = serialDevices (program :: words is) := by
  obtain ⟨houts, -, -, -, hdevice, -, -⟩ := kinds resolve hcomma huart hserial hproper h
  have hadded := addedItems_spec t program is outs
  have hall : ∀ i ∈ outs ++ addedItems t program is outs, i.Proper valued optionNames := fun i hi =>
    (List.mem_append.mp hi).elim (fun hi => (houts i hi).1) fun hi => (hadded i hi).1
  have hnone : (addedItems t program is outs).flatMap deviceOf = [] :=
    List.flatMap_eq_nil_iff.mpr fun i hi => (hadded i hi).2
  rw [resultWords_eq, serialDevices_words program hall, serialDevices_words program hproper,
    List.flatMap_append, hdevice, hnone, List.append_nil]
  by_cases hprogram : program = Arg.serial
  · rw [take_one_words resolve hprogram hform hproper h]
  · rw [serialDevices_of_ne hprogram, serialDevices_of_ne hprogram]

/-- The items that are restored in a result, and the words that are left out of it. -/
structure Rewritten (t : Target) (src out : List Text) : Prop where
  /-- The program stays. -/
  program : out.head? = src.head?
  /-- What was left out comes back only as the new debugger port and the new state, at the end. -/
  leftOut : ∃ body, out = body ++ words (stateItems t) ∧ ∀ w ∈ leftOut, w ∉ body.tail
  /-- There is one `-incoming`. -/
  incoming : out.tail.count Arg.incoming = 1
  /-- The items that a restore does not own stay, in their order. -/
  kept : (items valued out.tail).filter (fun i => !owned (serialDevices src) i) =
    (items valued src.tail).filter fun i => !owned (serialDevices src) i

/-- What `restore_argv` returns, and on what command lines it does. -/
theorem restoreArgv_eq_ok_iff {program : Text} {is : List Item} {out : List Text}
    (hcomma : ',' ∉ new) (hne : resolve old ≠ resolve new)
    (hproper : ∀ i ∈ is, i.Proper valued optionNames) :
    restoreArgv resolve (program :: words is) old new t = .ok out ↔
      ∃ outs, restoreItems resolve old new t (serialDevices (program :: words is)) is = .ok outs ∧
        is.any isDisk = true ∧ is.any (isLog (serialDevices (program :: words is))) = true ∧
          out = resultWords t program is outs := by
  rw [restoreArgv_words resolve hproper]
  cases houts : restoreItems resolve old new t (serialDevices (program :: words is)) is with
  | error e => exact iff_of_false (fun h => nomatch h) fun ⟨_, h, _⟩ => nomatch h
  | ok outs =>
    rw [any_changesDrive resolve hcomma hne hproper houts]
    simp only [Except.bind, Except.ok.injEq, exists_eq_left']
    cases is.any isDisk <;> cases is.any (isLog (serialDevices (program :: words is))) <;>
      simp [eq_comm]

/-- A result is rewritten from the source. -/
theorem rewritten_result {program : Text} {is outs : List Item} (hcomma : ',' ∉ new)
    (huart : ',' ∉ t.uart) (hserial : ',' ∉ t.serial)
    (hproper : ∀ i ∈ is, i.Proper valued optionNames)
    (h : restoreItems resolve old new t (serialDevices (program :: words is)) is = .ok outs) :
    Rewritten t (program :: words is) (resultWords t program is outs) := by
  obtain ⟨houts, -, -, -, -, -, hkept⟩ := kinds resolve hcomma huart hserial hproper h
  have hadded := addedItems_spec t program is outs
  have hall : ∀ i ∈ outs ++ addedItems t program is outs, i.Proper valued optionNames := fun i hi =>
    (List.mem_append.mp hi).elim (fun hi => (houts i hi).1) fun hi => (hadded i hi).1
  -- Nothing that is left out stands before the debugger port and the state.
  have hbody : ∀ w ∈ leftOut,
      w ∉ words (outs ++ monitorItems t is ++ pauseItems program (outs ++ monitorItems t is)) := by
    intro w hw hmem
    obtain ⟨j, hj, hwj⟩ := List.mem_flatMap.mp hmem
    rcases List.mem_append.mp hj with hj | hj
    · rcases List.mem_append.mp hj with hj | hj
      · exact (houts j hj).2 w hw hwj
      · rw [monitorItems] at hj
        split_ifs at hj
        · exact absurd hj List.not_mem_nil
        · rw [List.mem_singleton.mp hj] at hwj
          exact (proper_option (by decide) notMem_dropped.1 (monitorSpec_notMem t)).2 w hw hwj
    · rw [pauseItems] at hj
      split_ifs at hj
      · exact absurd hj List.not_mem_nil
      · rw [List.mem_singleton.mp hj, Item.words, List.mem_singleton] at hwj
        rw [hwj] at hw
        exact absurd hw (by decide)
  have hresult : resultWords t program is outs =
      program :: (words (outs ++ monitorItems t is ++ pauseItems program (outs ++ monitorItems t is)) ++
        words (stateItems t)) := by
    rw [resultWords, ← words_append]
  refine ⟨rfl, ⟨program :: _, hresult, hbody⟩, ?_, ?_⟩
  · have hport : ∀ port : ℤ, Arg.incoming ≠ tcpScheme ++ (toString port).toList := by
      intro port heq
      have hname : Arg.incoming ∉ optionNames :=
        heq ▸ notMem_optionNames (Or.inr (List.mem_append_left _ (by decide)))
      exact hname (by decide)
    have hfile : Arg.incoming ≠ fileScheme ++ t.state := by
      intro heq
      exact absurd (show Arg.incoming ∈ optionNames by decide) (heq ▸ fileScheme_notMem t.state)
    have hgdb : Arg.gdb ≠ Arg.incoming := by decide
    rw [hresult, List.tail_cons, List.count_append,
      List.count_eq_zero_of_not_mem (hbody _ (by decide)), stateItems]
    cases t.gdbPort with
    | none => simp [words, Item.words, hfile.symm]
    | some port =>
      simp [words, Item.words, List.count_cons, hfile.symm, hgdb]
      exact fun heq => hport port heq.symm
  · have hnone : (addedItems t program is outs).filter
        (fun i => !owned (serialDevices (program :: words is)) i) = [] := by
      rw [List.filter_eq_nil_iff]
      intro i hi
      rw [owned_of_mem_addedItems hi]
      exact Bool.false_ne_true
    rw [resultWords_eq, List.tail_cons, List.tail_cons, items_words hall, items_words hproper,
      List.filter_append, hkept, hnone, List.append_nil]

/-- `-S` is missing in what one restore makes of items if it is missing in what another one does. -/
theorem pauseItems_congr {program : Text} {bodies bodies' : List Item}
    (hbodies : ∀ i ∈ bodies, i.Proper valued optionNames)
    (hbodies' : ∀ i ∈ bodies', i.Proper valued optionNames)
    (h : Item.word Arg.pause ∈ bodies ↔ Item.word Arg.pause ∈ bodies') :
    pauseItems program bodies = pauseItems program bodies' := by
  have hiff : Arg.pause ∈ program :: words bodies ↔ Arg.pause ∈ program :: words bodies' := by
    rw [List.mem_cons, List.mem_cons, pause_mem_words hbodies, pause_mem_words hbodies', h]
  rw [pauseItems, pauseItems]
  exact if_congr hiff rfl rfl

theorem proper_append_monitorItems (t : Target) (is : List Item) {outs : List Item}
    (h : ∀ i ∈ outs, i.Proper valued optionNames) :
    ∀ i ∈ outs ++ monitorItems t is, i.Proper valued optionNames := by
  intro i hi
  rcases List.mem_append.mp hi with hi | hi
  · exact h i hi
  · rw [monitorItems] at hi
    split_ifs at hi
    · exact absurd hi List.not_mem_nil
    · rw [List.mem_singleton.mp hi]
      exact ⟨by decide, monitorSpec_notMem t⟩

theorem pause_mem_append_monitorItems (t : Target) (is outs : List Item) :
    Item.word Arg.pause ∈ outs ++ monitorItems t is ↔ Item.word Arg.pause ∈ outs := by
  rw [monitorItems]
  split_ifs <;> simp

/-- A result has a monitor, the one of the source or the one that was added. -/
theorem any_isMonitor_added {t : Target} {program : Text} {is outs : List Item}
    (h : outs.any isMonitor = is.any isMonitor) :
    (outs ++ addedItems t program is outs).any isMonitor = true := by
  rw [List.any_append, h, addedItems, List.any_append, List.any_append, monitorItems]
  cases hmonitor : is.any isMonitor with
  | true => simp
  | false => simp [isMonitor]

/-- A result has `-S`. -/
theorem pauseItems_added (program : Text) (body : List Item) :
    pauseItems program (body ++ pauseItems program body) = [] := by
  refine if_pos ?_
  rw [words_append, pauseItems]
  split_ifs with h
  · simpa using h
  · simp

/-- A restore of a restored command line, from the disk that it runs on, is a restore of the
source. -/
theorem restore_composes {src out : List Text} {d₀ d₁ d₂ : Text} {t₁ t₂ : Target}
    (hform : Formed valued optionNames src)
    (hcomma : ∀ text ∈ [d₀, d₁, d₂, t₁.serial, t₁.uart, t₂.serial, t₂.uart], ',' ∉ text)
    (h₀₁ : resolve d₀ ≠ resolve d₁) (h₀₂ : resolve d₀ ≠ resolve d₂) (h₁₂ : resolve d₁ ≠ resolve d₂)
    (h : restoreArgv resolve src d₀ d₁ t₁ = .ok out) :
    (∃ result, restoreArgv resolve out d₁ d₂ t₂ = .ok result ∧
      restoreArgv resolve src d₀ d₂ t₂ = .ok result) ∧ Rewritten t₁ src out := by
  have hd₁ : ',' ∉ d₁ := hcomma _ (by simp)
  have hd₂ : ',' ∉ d₂ := hcomma _ (by simp)
  have hserial : ',' ∉ t₁.serial := hcomma _ (by simp)
  have huart : ',' ∉ t₁.uart := hcomma _ (by simp)
  have hserial' : ',' ∉ t₂.serial := hcomma _ (by simp)
  have huart' : ',' ∉ t₂.uart := hcomma _ (by simp)
  match src, hform, h with
  | program :: ws, hform, h =>
    have hsub : valued ⊆ optionNames := List.subset_append_left _ _
    obtain ⟨is, rfl, hproper⟩ := hform.tail.exists_items hsub
    obtain ⟨outs, houts, hdisk, hlog, rfl⟩ :=
      (restoreArgv_eq_ok_iff resolve hd₁ h₀₁ hproper).mp h
    refine ⟨?_, rewritten_result resolve hd₁ huart hserial hproper houts⟩
    obtain ⟨outs', houts'⟩ := exists_restoreItems resolve d₂ t₂ hproper houts
    obtain ⟨hkind, hmonitor, hlogs, hdisks, -, hpause, -⟩ :=
      kinds resolve hd₁ huart hserial hproper houts
    obtain ⟨hkind', -, -, -, -, hpause', -⟩ := kinds resolve hd₂ huart' hserial' hproper houts'
    have hadded := addedItems_spec t₁ program is outs
    have hall : ∀ i ∈ outs ++ addedItems t₁ program is outs, i.Proper valued optionNames := fun i hi =>
      (List.mem_append.mp hi).elim (fun hi => (hkind i hi).1) fun hi => (hadded i hi).1
    -- `-S` is in both results, or missing in both.
    have hsame : pauseItems program (outs ++ monitorItems t₁ is) =
        pauseItems program (outs' ++ monitorItems t₂ is) :=
      pauseItems_congr (proper_append_monitorItems t₁ is fun i hi => (hkind i hi).1)
        (proper_append_monitorItems t₂ is fun i hi => (hkind' i hi).1)
        (by rw [pause_mem_append_monitorItems, pause_mem_append_monitorItems, hpause, hpause'])
    have hsecond : restoreItems resolve d₁ d₂ t₂ (serialDevices (program :: words is))
        (outs ++ addedItems t₁ program is outs) =
          .ok (outs' ++ (monitorItems t₂ is ++ pauseItems program (outs' ++ monitorItems t₂ is))) := by
      rw [restoreItems_append, restoreItems_restoreItems resolve hd₁ huart hserial hproper houts,
        restoreItems_addedItems, houts', hsame]
      rfl
    refine ⟨resultWords t₂ program is outs', ?_,
      (restoreArgv_eq_ok_iff resolve hd₂ h₀₂ hproper).mpr ⟨outs', houts', hdisk, hlog, rfl⟩⟩
    have hdevices := serialDevices_result resolve hd₁ huart hserial hform hproper houts
    rw [resultWords_eq] at hdevices
    rw [resultWords_eq]
    refine (restoreArgv_eq_ok_iff resolve hd₂ h₁₂ hall).mpr ?_
    rw [hdevices]
    refine ⟨_, hsecond, ?_, ?_, ?_⟩
    · rw [List.any_append, hdisks, hdisk, Bool.true_or]
    · rw [List.any_append, hlogs, hlog, Bool.true_or]
    · have hnoMonitor : monitorItems t₂ (outs ++ addedItems t₁ program is outs) = [] :=
        if_pos (any_isMonitor_added hmonitor)
      have hnoPause := pauseItems_added program (outs' ++ monitorItems t₂ is)
      rw [List.append_assoc] at hnoPause
      rw [resultWords, resultWords, hnoMonitor, List.append_nil, hnoPause, List.append_nil,
        List.append_assoc outs']

/-- New resources, in a directory of their own. -/
def targetIn (dir : String) (port : Option ℤ) : Target where
  monitor := (dir ++ "/monitor").toList
  serial := (dir ++ "/serial").toList
  uart := (dir ++ "/uart").toList
  state := (dir ++ "/state").toList
  gdbPort := port

/-- A command line of a native boot. -/
def someArgv : List Text :=
  ["qemu", "-M", "darwin", "-daemonize", "-serial", "chardev:input_uart",
    "-chardev", "socket,id=input_uart,path=/old/uart,server=on,logfile=/old/log",
    "-drive", "if=none,id=ans,file=/images/source.qcow2", "-gdb", "tcp::1234",
    "-qmp", "unix:/old/qmp"].map String.toList

/-- The disks of two restores. -/
def sourceDisk : Text := "/images/source.qcow2".toList

/-- The disk of the first restore. -/
def firstDisk : Text := "/first/disk.qcow2".toList

/-- The disk of the second restore. -/
def secondDisk : Text := "/second/disk.qcow2".toList

/-- A restore of a restore of the command line. -/
theorem restore_composes_someArgv :
    ∃ out, restoreArgv id someArgv sourceDisk firstDisk (targetIn "/first" (some 2345)) = .ok out ∧
      (∃ result, restoreArgv id out firstDisk secondDisk (targetIn "/second" none) = .ok result ∧
        restoreArgv id someArgv sourceDisk secondDisk (targetIn "/second" none) = .ok result) ∧
        Rewritten (targetIn "/first" (some 2345)) someArgv out := by
  have hform : Formed valued optionNames someArgv := by
    have hwords : words (items valued someArgv) = someArgv := by decide +kernel
    have hproper : ∀ i ∈ items valued someArgv, i.Proper valued optionNames := by decide +kernel
    rw [← hwords]
    exact formed_words (List.subset_append_left _ _) hproper
  have hcomma : ∀ text ∈ [sourceDisk, firstDisk, secondDisk, (targetIn "/first" (some 2345)).serial,
      (targetIn "/first" (some 2345)).uart, (targetIn "/second" none).serial,
      (targetIn "/second" none).uart], ',' ∉ text := by decide +kernel
  have hne : sourceDisk ≠ firstDisk ∧ sourceDisk ≠ secondDisk ∧ firstDisk ≠ secondDisk := by
    decide +kernel
  have hok : (restoreArgv id someArgv sourceDisk firstDisk
      (targetIn "/first" (some 2345))).toOption.isSome := by decide +kernel
  obtain ⟨out, hout⟩ := exists_of_isOk hok
  exact ⟨out, hout, restore_composes id hform hcomma hne.1 hne.2.1 hne.2.2 hout⟩

/-- A command line with an option at the end that has no value. -/
def openArgv : List Text :=
  ["qemu", "-serial", "file:/old/log", "-drive", "id=ans,file=/images/source.qcow2", "-gdb"].map
    String.toList

/-- A name of the disk of the source, as a symbolic link. -/
def linkName : Text := "/images/link.qcow2".toList

/-- Resolution with the symbolic link. -/
def followLink (text : Text) : Text := if text = linkName then sourceDisk else text

/-- A command line with the disk under the name of the link. -/
def linkArgv : List Text :=
  ["qemu", "-serial", "file:/old/log", "-drive", "id=ans,file=/images/link.qcow2"].map String.toList

/-- An option at the end, without a value, is passed on, and the second restore takes the word after
it. Two names of one disk are different texts, and a restore to the other name of the disk finds
nothing to change. -/
theorem not_restore_composes :
    (¬∀ (src out : List Text) (d₀ d₁ d₂ : Text) (t₁ t₂ : Target),
      (∀ n w v, src[n]? = some w → w ∈ valued → src[n + 1]? = some v → v ∉ optionNames) →
      (∀ text ∈ [d₀, d₁, d₂, t₁.serial, t₁.uart, t₂.serial, t₂.uart], ',' ∉ text) →
      [d₀, d₁, d₂, t₁.serial, t₁.uart, t₂.serial, t₂.uart].Nodup →
      restoreArgv id src d₀ d₁ t₁ = .ok out →
        restoreArgv id out d₁ d₂ t₂ = restoreArgv id src d₀ d₂ t₂) ∧
      ¬∀ (resolve : Text → Text) (src out : List Text) (d₀ d₁ d₂ : Text) (t₁ t₂ : Target),
        (∀ n w v, src[n]? = some w → w ∈ valued → src[n + 1]? = some v → v ∉ optionNames) →
        (∀ text ∈ [d₀, d₁, d₂, t₁.serial, t₁.uart, t₂.serial, t₂.uart], ',' ∉ text) →
        [d₀, d₁, d₂, t₁.serial, t₁.uart, t₂.serial, t₂.uart].Nodup →
        restoreArgv resolve src d₀ d₁ t₁ = .ok out →
          restoreArgv resolve out d₁ d₂ t₂ = restoreArgv resolve src d₀ d₂ t₂ := by
  have hvalues : ∀ src : List Text,
      (∀ r ∈ src.zip src.tail, r.1 ∈ valued → r.2 ∉ optionNames) →
        ∀ n w v, src[n]? = some w → w ∈ valued → src[n + 1]? = some v → v ∉ optionNames := by
    intro src h n w v hw hvalued hv
    refine h (w, v) (List.mem_iff_getElem?.mpr ⟨n, ?_⟩) hvalued
    rw [List.getElem?_zip_eq_some]
    exact ⟨hw, by rwa [List.getElem?_tail]⟩
  refine ⟨fun h => ?_, fun h => ?_⟩
  · have hok : (restoreArgv id openArgv sourceDisk firstDisk (targetIn "/first" none)).toOption.isSome := by
      decide +kernel
    obtain ⟨out, hout⟩ := exists_of_isOk hok
    have hne : (restoreArgv id openArgv sourceDisk firstDisk (targetIn "/first" none)).bind
        (fun out => restoreArgv id out firstDisk secondDisk (targetIn "/second" none)) ≠
          restoreArgv id openArgv sourceDisk secondDisk (targetIn "/second" none) := by
      decide +kernel
    rw [hout] at hne
    have hpairs : ∀ r ∈ openArgv.zip openArgv.tail, r.1 ∈ valued → r.2 ∉ optionNames := by
      decide +kernel
    exact hne (h openArgv out sourceDisk firstDisk secondDisk (targetIn "/first" none)
      (targetIn "/second" none) (hvalues openArgv hpairs) (by decide +kernel) (by decide +kernel) hout)
  · have hok : (restoreArgv followLink linkArgv sourceDisk firstDisk
        (targetIn "/first" none)).toOption.isSome := by
      decide +kernel
    obtain ⟨out, hout⟩ := exists_of_isOk hok
    have hne : (restoreArgv followLink linkArgv sourceDisk firstDisk (targetIn "/first" none)).bind
        (fun out => restoreArgv followLink out firstDisk linkName (targetIn "/second" none)) ≠
          restoreArgv followLink linkArgv sourceDisk linkName (targetIn "/second" none) := by
      decide +kernel
    rw [hout] at hne
    have hpairs : ∀ r ∈ linkArgv.zip linkArgv.tail, r.1 ∈ valued → r.2 ∉ optionNames := by
      decide +kernel
    exact hne (h followLink linkArgv out sourceDisk firstDisk linkName (targetIn "/first" none)
      (targetIn "/second" none) (hvalues linkArgv hpairs) (by decide +kernel) (by decide +kernel) hout)

end DarwinVm.Checkpoint
