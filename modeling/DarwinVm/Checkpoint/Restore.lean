import DarwinVm.Lib.Argv
import DarwinVm.Lib.Except

/-!
# The command line of a restore

`restore_argv` and `replace_drive_file` of `tools/checkpoint_common.py`: the command line of a
captured VM, rewritten for the resources of a restored one. A restored VM can be captured in turn, and
its command line restored from the disk that it runs on; `restore_composes` says that nothing is left
of the restore in between.
-/

namespace DarwinVm.Checkpoint

open Argv

/-! ## The code -/

/-- How `restore_argv` fails. -/
inductive RestoreError
  /-- `IndexError` of `source[0]` -/
  | noProgram
  /-- `f"ANS drive in captured argv is {current}, expected {old}"` -/
  | otherDisk (current old : Text)
  /-- `"captured ANS -drive has no file= component"` -/
  | noFile
  /-- `"captured argv did not contain the selected ANS disk"` -/
  | noDisk
  /-- `"captured argv has no rewritable serial logfile"` -/
  | noLog
  deriving DecidableEq

/-- The parameters of `restore_argv` for the new host resources. -/
structure Target where
  /-- `monitor` -/
  monitor : Text
  /-- `serial` -/
  serial : Text
  /-- `uart` -/
  uart : Text
  /-- `state` -/
  state : Text
  /-- `gdb_port` -/
  gdbPort : Option ℤ

/-- `-incoming` -/
def Arg.incoming : Text := "-incoming".toList

/-- `-gdb` -/
def Arg.gdb : Text := "-gdb".toList

/-- `-pidfile` -/
def Arg.pidfile : Text := "-pidfile".toList

/-- `-qmp` -/
def Arg.qmp : Text := "-qmp".toList

/-- `-monitor` -/
def Arg.monitor : Text := "-monitor".toList

/-- `-drive` -/
def Arg.drive : Text := "-drive".toList

/-- `-chardev` -/
def Arg.chardev : Text := "-chardev".toList

/-- `-serial` -/
def Arg.serial : Text := "-serial".toList

/-- `-daemonize` -/
def Arg.daemonize : Text := "-daemonize".toList

/-- `-S` -/
def Arg.pause : Text := "-S".toList

/-- The options that are left out with their values. -/
def dropped : List Text := [Arg.incoming, Arg.gdb, Arg.pidfile, Arg.qmp]

/-- The options with a value that `restore_argv` interprets. -/
def valued : List Text := dropped ++ [Arg.monitor, Arg.drive, Arg.chardev, Arg.serial]

/-- The options that `restore_argv` interprets. -/
def optionNames : List Text := valued ++ [Arg.daemonize, Arg.pause]

/-- `id=ans`, as a component of a drive. -/
def ansId : Text := "id=ans".toList

/-- `id=` -/
def idKey : Text := "id=".toList

/-- `file=` -/
def fileKey : Text := "file=".toList

/-- `path=` -/
def pathKey : Text := "path=".toList

/-- `logfile=` -/
def logfileKey : Text := "logfile=".toList

/-- `socket` -/
def socketKind : Text := "socket".toList

/-- `chardev:` -/
def chardevScheme : Text := "chardev:".toList

/-- `file:` -/
def fileScheme : Text := "file:".toList

/-- `unix:` -/
def unixScheme : Text := "unix:".toList

/-- `tcp::` -/
def tcpScheme : Text := "tcp::".toList

section

-- `Path(text).resolve()`
variable (resolve : Text → Text)

/-- The loop of `replace_drive_file` over the parts. -/
def replaceFile (old new : Text) : List Text → Except RestoreError (List Text)
  | [] => .error .noFile
  | part :: parts =>
    if fileKey <+: part then
      let current := resolve (part.drop 5)
      if current ≠ resolve old then .error (.otherDisk current old)
      else .ok ((fileKey ++ new) :: parts)
    else (replaceFile old new parts).map (part :: ·)

/-- `replace_drive_file` -/
def replaceDriveFile (spec old new : Text) : Except RestoreError Text :=
  let parts := components spec
  if ansId ∉ parts then .ok spec else (replaceFile resolve old new parts).map joinComponents

/-- What follows a text at its start: `text.removeprefix(start)` where it `startswith(start)`. -/
def after (start text : Text) : Option Text :=
  if start <+: text then some (text.drop start.length) else none

/-- `serial_devices` -/
def serialDevices (source : List Text) : List Text :=
  (source.zip source.tail).filterMap fun r =>
    if r.1 = Arg.serial then after chardevScheme r.2 else none

/-- A socket with the id of a serial device. -/
def isSerialSocket (devices : List Text) (spec : Text) : Bool :=
  (components spec).head? = some socketKind ∧
    devices.any fun device => idKey ++ device ∈ components spec

/-- The socket with the new endpoints. -/
def rewriteSocket (t : Target) (spec : Text) : Text :=
  joinComponents ((components spec).filter
    (fun p => ¬pathKey <+: p ∧ ¬logfileKey <+: p) ++
      [pathKey ++ t.uart, logfileKey ++ t.serial])

/-- `f"unix:{monitor},server,nowait"` -/
def monitorSpec (t : Target) : Text := unixScheme ++ t.monitor ++ ",server,nowait".toList

/-- The variables of the loop in `restore_argv`. -/
structure Loop where
  /-- `out` -/
  out : List Text
  /-- `saw_monitor` -/
  sawMonitor : Bool
  /-- `saw_drive` -/
  sawDrive : Bool
  /-- `saw_serial` -/
  sawSerial : Bool

/-- The loop of `restore_argv`, from the word at `i` on. -/
def restoreLoop (old new : Text) (t : Target) (devices : List Text) :
    List Text → Loop → Except RestoreError Loop
  | [], s => .ok s
  | [arg], s => .ok (if arg = Arg.daemonize then s else { s with out := s.out ++ [arg] })
  | arg :: value :: rest, s =>
    if arg ∈ dropped then restoreLoop old new t devices rest s
    else if arg = Arg.monitor then
      restoreLoop old new t devices rest
        { s with out := s.out ++ [arg, monitorSpec t], sawMonitor := true }
    else if arg = Arg.drive then
      match replaceDriveFile resolve value old new with
      | .error e => .error e
      | .ok rewritten =>
        restoreLoop old new t devices rest
          { s with out := s.out ++ [arg, rewritten], sawDrive := s.sawDrive || rewritten ≠ value }
    else if arg = Arg.chardev then
      if isSerialSocket devices value then
        restoreLoop old new t devices rest
          { s with out := s.out ++ [arg, rewriteSocket t value], sawSerial := true }
      else restoreLoop old new t devices rest { s with out := s.out ++ [arg, value] }
    else if arg = Arg.serial then
      if fileScheme <+: value then
        restoreLoop old new t devices rest
          { s with out := s.out ++ [arg, fileScheme ++ t.serial], sawSerial := true }
      else restoreLoop old new t devices rest { s with out := s.out ++ [arg, value] }
    else if arg = Arg.daemonize then restoreLoop old new t devices (value :: rest) s
    else restoreLoop old new t devices (value :: rest) { s with out := s.out ++ [arg] }

/-- `["-gdb", f"tcp::{gdb_port}"]` -/
def gdbWords (t : Target) : List Text :=
  match t.gdbPort with
  | some port => [Arg.gdb, tcpScheme ++ (toString port).toList]
  | none => []

/-- `restore_argv` -/
def restoreArgv (source : List Text) (sourceDisk restoreDisk : Text) (t : Target) :
    Except RestoreError (List Text) :=
  match source with
  | [] => .error .noProgram
  | program :: rest => do
    let devices := serialDevices source
    let s ← restoreLoop resolve sourceDisk restoreDisk t devices rest ⟨[program], false, false, false⟩
    if ¬s.sawDrive then .error .noDisk else
    let out := if s.sawMonitor then s.out else s.out ++ [Arg.monitor, monitorSpec t]
    if ¬s.sawSerial then .error .noLog else
    let out := if Arg.pause ∉ out then out ++ [Arg.pause] else out
    let out := out ++ gdbWords t
    .ok (out ++ [Arg.incoming, fileScheme ++ t.state])

/-! ## One item -/

/-- What the loop makes of an item. -/
def restoreItem (old new : Text) (t : Target) (devices : List Text) :
    Item → Except RestoreError (List Item)
  | .option name value =>
    if name ∈ dropped then .ok []
    else if name = Arg.monitor then .ok [.option name (monitorSpec t)]
    else if name = Arg.drive then
      (replaceDriveFile resolve value old new).map fun rewritten => [.option name rewritten]
    else if name = Arg.chardev then
      .ok [.option name (if isSerialSocket devices value then rewriteSocket t value else value)]
    else .ok [.option name (if fileScheme <+: value then fileScheme ++ t.serial else value)]
  | .word w => .ok (if w = Arg.daemonize then [] else [.word w])

/-- The monitor of a command line. -/
def isMonitor : Item → Bool
  | .option name _ => name = Arg.monitor
  | .word _ => false

/-- A drive that a restore changes. -/
def changesDrive (old new : Text) : Item → Bool
  | .option name value =>
    name = Arg.drive ∧ (replaceDriveFile resolve value old new).toOption ≠ some value
  | .word _ => false

/-- A serial log: the socket of a serial device, or a file. -/
def isLog (devices : List Text) : Item → Bool
  | .option name value => name = Arg.chardev ∧ isSerialSocket devices value = true ∨
      name = Arg.serial ∧ fileScheme <+: value
  | .word _ => false

/-- What the loop makes of items. -/
def restoreItems (old new : Text) (t : Target) (devices : List Text) :
    List Item → Except RestoreError (List Item)
  | [] => .ok []
  | i :: is => do
    let out ← restoreItem resolve old new t devices i
    let outs ← restoreItems old new t devices is
    .ok (out ++ outs)

theorem cases_of_mem_valued {name : Text} (h : name ∈ valued) :
    name ∈ dropped ∨ name = Arg.monitor ∨ name = Arg.drive ∨ name = Arg.chardev ∨
      name = Arg.serial := by
  rcases List.mem_append.mp h with h | h
  · exact Or.inl h
  · rw [List.mem_cons, List.mem_cons, List.mem_cons, List.mem_singleton] at h
    exact Or.inr h

/-- The names that are left out are none of the others. -/
theorem ne_of_mem_dropped : ∀ name ∈ dropped, name ≠ Arg.monitor ∧ name ≠ Arg.drive ∧
    name ≠ Arg.chardev ∧ name ≠ Arg.serial := by decide

theorem notMem_dropped : Arg.monitor ∉ dropped ∧ Arg.drive ∉ dropped ∧
    Arg.chardev ∉ dropped ∧ Arg.serial ∉ dropped := by decide

theorem names_ne : Arg.drive ≠ Arg.monitor ∧ Arg.chardev ≠ Arg.monitor ∧
    Arg.chardev ≠ Arg.drive ∧ Arg.serial ≠ Arg.monitor ∧
      Arg.serial ≠ Arg.drive ∧ Arg.serial ≠ Arg.chardev := by decide

/-- A turn of the loop at an option. -/
theorem restoreLoop_option (old new : Text) (t : Target) (devices : List Text) {name : Text}
    (value : Text) (ws : List Text) (s : Loop) (h : name ∈ valued) :
    restoreLoop resolve old new t devices (name :: value :: ws) s =
      (restoreItem resolve old new t devices (.option name value)).bind fun out =>
        restoreLoop resolve old new t devices ws
          ⟨s.out ++ words out, s.sawMonitor || isMonitor (.option name value),
            s.sawDrive || changesDrive resolve old new (.option name value),
            s.sawSerial || isLog devices (.option name value)⟩ := by
  obtain ⟨hm, hd, hc, hs⟩ := notMem_dropped
  obtain ⟨hdm, hcm, hcd, hsm, hsd, hsc⟩ := names_ne
  rw [restoreLoop]
  unfold restoreItem isMonitor changesDrive isLog
  rcases cases_of_mem_valued h with h | rfl | rfl | rfl | rfl
  · obtain ⟨h₁, h₂, h₃, h₄⟩ := ne_of_mem_dropped name h
    simp [h, h₁, h₂, h₃, h₄, Except.bind]
  · simp [hm, hdm.symm, hcm.symm, hsm.symm, Except.bind]
  · cases hr : replaceDriveFile resolve value old new <;>
      simp [hd, hdm, hcd.symm, hsd.symm, hr, Except.bind, Except.map, Except.toOption]
  · by_cases hown : isSerialSocket devices value = true <;>
      simp [hc, hcm, hcd, hsc.symm, hown, Except.bind]
  · by_cases hfile : fileScheme <+: value <;> simp [hs, hsm, hsd, hsc, hfile, Except.bind]

/-- A turn of the loop at another word. -/
theorem restoreLoop_word (old new : Text) (t : Target) (devices : List Text) {w : Text}
    (ws : List Text) (s : Loop) (h : w ∉ valued) :
    restoreLoop resolve old new t devices (w :: ws) s =
      (restoreItem resolve old new t devices (.word w)).bind fun out =>
        restoreLoop resolve old new t devices ws
          ⟨s.out ++ words out, s.sawMonitor || isMonitor (.word w),
            s.sawDrive || changesDrive resolve old new (.word w),
            s.sawSerial || isLog devices (.word w)⟩ := by
  unfold restoreItem isMonitor changesDrive isLog
  rw [valued, List.mem_append, not_or] at h
  simp only [List.mem_cons, List.not_mem_nil, or_false, not_or] at h
  obtain ⟨h₀, h₁, h₂, h₃, h₄⟩ := h
  cases ws with
  | nil =>
    rw [restoreLoop]
    by_cases hw : w = Arg.daemonize <;> simp [hw, Except.bind, restoreLoop]
  | cons v ws =>
    rw [restoreLoop, if_neg h₀, if_neg h₁, if_neg h₂, if_neg h₃, if_neg h₄]
    by_cases hw : w = Arg.daemonize
    · rw [if_pos hw]
      simp [hw, Except.bind]
    · rw [if_neg hw]
      simp [hw, Except.bind]

/-- The loop works item by item. -/
theorem restoreLoop_words (old new : Text) (t : Target) (devices : List Text) :
    ∀ {is : List Item} {s : Loop}, (∀ i ∈ is, i.Proper valued optionNames) →
      restoreLoop resolve old new t devices (words is) s =
        (restoreItems resolve old new t devices is).map fun outs =>
          ⟨s.out ++ words outs, s.sawMonitor || is.any isMonitor,
            s.sawDrive || is.any (changesDrive resolve old new), s.sawSerial || is.any (isLog devices)⟩
  | [], s, _ => by simp [restoreLoop, restoreItems, Except.map]
  | i :: is, s, h => by
    obtain ⟨hi, h⟩ := List.forall_mem_cons.mp h
    have hstep : ∀ s, restoreLoop resolve old new t devices (words (i :: is)) s =
        (restoreItem resolve old new t devices i).bind fun out =>
          restoreLoop resolve old new t devices (words is)
            ⟨s.out ++ words out, s.sawMonitor || isMonitor i,
              s.sawDrive || changesDrive resolve old new i, s.sawSerial || isLog devices i⟩ := by
      intro s
      cases i with
      | option name value => exact restoreLoop_option resolve old new t devices value _ s hi.1
      | word w => exact restoreLoop_word resolve old new t devices _ s hi
    rw [hstep, restoreItems]
    cases restoreItem resolve old new t devices i with
    | error e => rfl
    | ok out =>
      simp only [Except.bind, bind, restoreLoop_words old new t devices h]
      cases restoreItems resolve old new t devices is with
      | error e => rfl
      | ok outs => simp [Except.map, Bool.or_assoc]

/-! ## Drives -/

theorem replaceFile_cons {old new part : Text} {parts parts' : List Text}
    (h : replaceFile resolve old new (part :: parts) = .ok parts') :
    fileKey <+: part ∧ resolve (part.drop 5) = resolve old ∧ parts' = (fileKey ++ new) :: parts ∨
      ¬fileKey <+: part ∧ ∃ rest, replaceFile resolve old new parts = .ok rest ∧ parts' = part :: rest := by
  rw [replaceFile] at h
  by_cases hfile : fileKey <+: part
  · rw [if_pos hfile] at h
    by_cases hold : resolve (part.drop 5) = resolve old
    · rw [if_neg (not_not.mpr hold)] at h
      exact Or.inl ⟨hfile, hold, (Except.ok.inj h).symm⟩
    · rw [if_pos hold] at h
      cases h
  · rw [if_neg hfile] at h
    cases hrest : replaceFile resolve old new parts with
    | error e =>
      rw [hrest] at h
      cases h
    | ok rest =>
      rw [hrest] at h
      exact Or.inr ⟨hfile, rest, rfl, (Except.ok.inj h).symm⟩

theorem drop_fileKey (t : Text) : (fileKey ++ t).drop 5 = t := rfl

/-- A file that was replaced is replaced again. -/
theorem replaceFile_replaceFile {d₀ d₁ d₂ : Text} : ∀ {parts parts' : List Text},
    replaceFile resolve d₀ d₁ parts = .ok parts' →
      replaceFile resolve d₁ d₂ parts' = replaceFile resolve d₀ d₂ parts
  | part :: parts, parts', h => by
    obtain ⟨hfile, hold, rfl⟩ | ⟨hfile, rest, hrest, rfl⟩ := replaceFile_cons resolve h
    · rw [replaceFile, replaceFile, if_pos (List.prefix_append fileKey d₁), if_pos hfile,
        drop_fileKey, if_neg (not_not.mpr rfl), if_neg (not_not.mpr hold)]
    · rw [replaceFile, replaceFile, if_neg hfile, if_neg hfile, replaceFile_replaceFile hrest]

/-- Whether a file is replaced does not depend on the new one. -/
theorem exists_replaceFile {d₀ d₁ : Text} (d₂ : Text) : ∀ {parts parts' : List Text},
    replaceFile resolve d₀ d₁ parts = .ok parts' →
      ∃ parts'', replaceFile resolve d₀ d₂ parts = .ok parts''
  | part :: parts, parts', h => by
    obtain ⟨hfile, hold, rfl⟩ | ⟨hfile, rest, hrest, rfl⟩ := replaceFile_cons resolve h
    · rw [replaceFile, if_pos hfile, if_neg (not_not.mpr hold)]
      exact ⟨_, rfl⟩
    · obtain ⟨rest', hrest'⟩ := exists_replaceFile d₂ hrest
      rw [replaceFile, if_neg hfile, hrest']
      exact ⟨_, rfl⟩

theorem exists_replaceDriveFile {d₀ d₁ spec spec' : Text} (d₂ : Text)
    (h : replaceDriveFile resolve spec d₀ d₁ = .ok spec') :
    ∃ spec'', replaceDriveFile resolve spec d₀ d₂ = .ok spec'' := by
  rw [replaceDriveFile] at h ⊢
  by_cases hans : ansId ∈ components spec
  · rw [if_neg (not_not.mpr hans)] at h ⊢
    cases hparts : replaceFile resolve d₀ d₁ (components spec) with
    | error e =>
      rw [hparts] at h
      cases h
    | ok parts =>
      obtain ⟨parts', hparts'⟩ := exists_replaceFile resolve d₂ hparts
      rw [hparts']
      exact ⟨_, rfl⟩
  · rw [if_pos hans]
    exact ⟨_, rfl⟩

/-- Only a component with a file is changed. -/
theorem mem_replaceFile {d₀ d₁ q : Text} (hq : ¬fileKey <+: q) : ∀ {parts parts' : List Text},
    replaceFile resolve d₀ d₁ parts = .ok parts' → (q ∈ parts' ↔ q ∈ parts)
  | part :: parts, parts', h => by
    obtain ⟨hfile, -, rfl⟩ | ⟨-, rest, hrest, rfl⟩ := replaceFile_cons resolve h
    · have hne : q ≠ fileKey ++ d₁ := by
        rintro rfl
        exact hq (List.prefix_append fileKey d₁)
      have hne' : q ≠ part := by
        rintro rfl
        exact hq hfile
      simp [hne, hne']
    · rw [List.mem_cons, List.mem_cons, mem_replaceFile hq hrest]

/-- The new file is a component, and the other components are kept. -/
theorem replaceFile_subset {d₀ d₁ : Text} : ∀ {parts parts' : List Text},
    replaceFile resolve d₀ d₁ parts = .ok parts' →
      fileKey ++ d₁ ∈ parts' ∧ ∀ q ∈ parts', q = fileKey ++ d₁ ∨ q ∈ parts
  | part :: parts, parts', h => by
    obtain ⟨-, -, rfl⟩ | ⟨-, rest, hrest, rfl⟩ := replaceFile_cons resolve h
    · refine ⟨List.mem_cons_self, fun q hq => ?_⟩
      rcases List.mem_cons.mp hq with rfl | hq
      · exact Or.inl rfl
      · exact Or.inr (List.mem_cons_of_mem _ hq)
    · obtain ⟨hnew, hsub⟩ := replaceFile_subset hrest
      refine ⟨List.mem_cons_of_mem _ hnew, fun q hq => ?_⟩
      rcases List.mem_cons.mp hq with rfl | hq
      · exact Or.inr List.mem_cons_self
      · exact (hsub q hq).imp_right (List.mem_cons_of_mem _)

/-- Files that are not the same are told apart in the parts. -/
theorem replaceFile_ne {d₀ d₁ : Text} (hne : resolve d₀ ≠ resolve d₁) :
    ∀ {parts parts' : List Text}, replaceFile resolve d₀ d₁ parts = .ok parts' → parts' ≠ parts
  | part :: parts, parts', h => by
    obtain ⟨-, hold, rfl⟩ | ⟨-, rest, hrest, rfl⟩ := replaceFile_cons resolve h
    · intro heq
      have hpart := (List.cons.inj heq).1
      rw [← hpart, drop_fileKey] at hold
      exact hne hold.symm
    · intro heq
      exact replaceFile_ne hne hrest (List.cons.inj heq).2

theorem not_fileKey_ansId : ¬fileKey <+: ansId := by decide

theorem comma_notMem_fileKey {d : Text} (h : ',' ∉ d) : ',' ∉ fileKey ++ d := by
  rw [List.mem_append, not_or]
  exact ⟨by decide, h⟩

/-- What a drive is that was replaced. -/
theorem replaceDriveFile_spec {d₀ d₁ spec spec' : Text} (hcomma : ',' ∉ d₁)
    (h : replaceDriveFile resolve spec d₀ d₁ = .ok spec') :
    ansId ∉ components spec ∧ spec' = spec ∨
      ansId ∈ components spec ∧ replaceFile resolve d₀ d₁ (components spec) = .ok (components spec') := by
  rw [replaceDriveFile] at h
  by_cases hans : ansId ∈ components spec
  · rw [if_neg (not_not.mpr hans)] at h
    cases hparts : replaceFile resolve d₀ d₁ (components spec) with
    | error e =>
      rw [hparts] at h
      cases h
    | ok parts =>
      rw [hparts] at h
      obtain ⟨hnew, hsub⟩ := replaceFile_subset resolve hparts
      have hfree : ∀ q ∈ parts, ',' ∉ q := by
        intro q hq
        rcases hsub q hq with rfl | hq
        · exact comma_notMem_fileKey hcomma
        · exact comma_notMem_components hq
      obtain rfl := Except.ok.inj h
      rw [components_joinComponents (List.ne_nil_of_mem hnew) hfree]
      exact Or.inr ⟨hans, rfl⟩
  · rw [if_pos hans] at h
    exact Or.inl ⟨hans, (Except.ok.inj h).symm⟩

/-- A drive that was replaced is replaced again. -/
theorem replaceDriveFile_replaceDriveFile {d₀ d₁ d₂ spec spec' : Text} (hcomma : ',' ∉ d₁)
    (h : replaceDriveFile resolve spec d₀ d₁ = .ok spec') :
    replaceDriveFile resolve spec' d₁ d₂ = replaceDriveFile resolve spec d₀ d₂ := by
  obtain ⟨hans, rfl⟩ | ⟨hans, hparts⟩ := replaceDriveFile_spec resolve hcomma h
  · rw [replaceDriveFile, replaceDriveFile, if_pos hans, if_pos hans]
  · have hans' := (mem_replaceFile resolve not_fileKey_ansId hparts).mpr hans
    rw [replaceDriveFile, replaceDriveFile, if_neg (not_not.mpr hans'), if_neg (not_not.mpr hans),
      replaceFile_replaceFile resolve hparts]

/-- The drives that a restore to another file changes are those with `id=ans`. -/
theorem changesDrive_iff {d₀ d₁ spec spec' : Text} (hcomma : ',' ∉ d₁) (hne : resolve d₀ ≠ resolve d₁)
    (h : replaceDriveFile resolve spec d₀ d₁ = .ok spec') : spec' ≠ spec ↔ ansId ∈ components spec := by
  obtain ⟨hans, rfl⟩ | ⟨hans, hparts⟩ := replaceDriveFile_spec resolve hcomma h
  · exact iff_of_false (fun hne => hne rfl) hans
  · refine iff_of_true ?_ hans
    rintro rfl
    exact replaceFile_ne resolve hne hparts rfl

end

end DarwinVm.Checkpoint
