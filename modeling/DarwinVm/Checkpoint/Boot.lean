import DarwinVm.Checkpoint.Restore

/-!
# The command line of a warm boot

`boot_command` of `tools/warm_boot_probe.py`, which boots only the disk of a checkpoint. It knows the
disk by the text `id=ans,` in the specification of the drive, where `replace_drive_file` and
`ans_drive_path` look for a component `id=ans`. The text stands in a specification if a component that
is not the last one ends with `id=ans`, so that a drive whose last component is `id=ans` is refused,
and one with another key that ends with `id` is taken (`boot_agrees`).
-/

namespace DarwinVm.Checkpoint

open Argv

/-- `-loadvm` -/
def Arg.loadvm : Text := "-loadvm".toList

/-- `-s` -/
def Arg.gdbShort : Text := "-s".toList

/-- `remove` -/
def removed : List Text :=
  [Arg.incoming, Arg.loadvm, Arg.monitor, Arg.qmp, Arg.gdb, Arg.chardev, Arg.serial]

/-- The options with a value that `boot_command` interprets. -/
def bootValued : List Text := removed ++ [Arg.drive]

/-- The options that `boot_command` interprets. -/
def bootNames : List Text := bootValued ++ [Arg.pause, Arg.gdbShort]

/-- The names that a boot leaves out. -/
def bootLeftOut : List Text := removed ++ [Arg.pause, Arg.gdbShort]

/-- How `boot_command` fails. -/
inductive BootError
  /-- `IndexError` of `argv[i + 1]` -/
  | noValue
  /-- `'unexpected non-ANS drive'` -/
  | otherDrive
  deriving DecidableEq

/-- `if=none,id=ans,file=` -/
def driveHead : Text := "if=none,id=ans,file=".toList

/-- `/disk.qcow2,format=qcow2` -/
def driveTail : Text := "/disk.qcow2,format=qcow2".toList

/-- `f'if=none,id=ans,file={out}/disk.qcow2,format=qcow2'` -/
def bootDrive (out : Text) : Text := driveHead ++ out ++ driveTail

/-- The loop of `boot_command`, from the word at `i` on. -/
def bootLoop (out : Text) : List Text → List Text → Except BootError (List Text)
  | [], command => .ok command
  | [key], command =>
    if key ∈ removed then .ok command
    else if key = Arg.pause ∨ key = Arg.gdbShort then .ok command
    else if key = Arg.drive then .error .noValue
    else .ok (command ++ [key])
  | key :: value :: rest, command =>
    if key ∈ removed then bootLoop out rest command
    else if key = Arg.pause ∨ key = Arg.gdbShort then bootLoop out (value :: rest) command
    else if key = Arg.drive then
      if ¬ansId ++ [','] <:+: value then .error .otherDrive
      else bootLoop out rest (command ++ [key, bootDrive out])
    else bootLoop out (value :: rest) (command ++ [key])

/-- `/monitor.sock,server=on,wait=off` -/
def monitorTail : Text := "/monitor.sock,server=on,wait=off".toList

/-- `/qmp.sock,server=on,wait=off` -/
def qmpTail : Text := "/qmp.sock,server=on,wait=off".toList

/-- `socket,id=warm_uart,path=` -/
def uartHead : Text := "socket,id=warm_uart,path=".toList

/-- `/uart.sock,server=on,wait=off,logfile=` -/
def uartMiddle : Text := "/uart.sock,server=on,wait=off,logfile=".toList

/-- `/serial.log` -/
def uartTail : Text := "/serial.log".toList

/-- `chardev:warm_uart` -/
def warmUart : Text := "chardev:warm_uart".toList

/-- The options that `boot_command` adds. -/
def bootItems (out : Text) : List Item :=
  [.option Arg.monitor (unixScheme ++ out ++ monitorTail),
    .option Arg.qmp (unixScheme ++ out ++ qmpTail),
    .option Arg.chardev (uartHead ++ out ++ uartMiddle ++ out ++ uartTail),
    .option Arg.serial warmUart]

/-- `boot_command` -/
def bootCommand (argv : List Text) (out : Text) : Except BootError (List Text) :=
  (bootLoop out argv []).map (· ++ words (bootItems out))

/-! ## The other tools -/

/-- How `ans_drive_path` fails. -/
inductive TemplateError
  /-- `f"template option {option} has no value"` -/
  | noValue (option : Text)
  /-- `"ANS -drive must contain exactly one file= component"` -/
  | files
  /-- `"template must contain exactly one id=ans -drive"` -/
  | drives

/-- `option_values` -/
def optionValues (option : Text) : List Text → Except TemplateError (List Text)
  | [] => .ok []
  | [w] => if w = option then .error (.noValue option) else .ok []
  | w :: v :: ws =>
    if w = option then (optionValues option ws).map (v :: ·) else optionValues option (v :: ws)

/-- The loop of `ans_drive_path` over the drives. -/
def ansPaths (resolve : Text → Text) : List Text → Except TemplateError (List Text)
  | [] => .ok []
  | spec :: specs =>
    let parts := components spec
    if ansId ∉ parts then ansPaths resolve specs
    else
      match parts.filter (fileKey <+: ·) with
      | [part] => (ansPaths resolve specs).map (resolve (part.drop 5) :: ·)
      | _ => .error .files

/-- `ans_drive_path` -/
def ansDrivePath (resolve : Text → Text) (argv : List Text) : Except TemplateError Text := do
  let specs ← optionValues Arg.drive argv
  match ← ansPaths resolve specs with
  | [path] => .ok path
  | _ => .error .drives

/-- Both tools pass over the drives without the component. -/
theorem others_passed (resolve : Text → Text) {spec : Text} (h : ansId ∉ components spec) :
    (∀ old new, replaceDriveFile resolve spec old new = .ok spec) ∧
      ∀ specs, ansPaths resolve (spec :: specs) = ansPaths resolve specs :=
  ⟨fun _ _ => if_pos h, fun _ => if_pos h⟩

/-! ## Agreement -/

/-- The specification of a drive. -/
def driveOf : Item → Option Text
  | .option name value => if name = Arg.drive then some value else none
  | .word _ => none

/-- The specifications of the drives, as `option_values` finds them. -/
def driveSpecs (argv : List Text) : List Text :=
  match optionValues Arg.drive argv with
  | .ok specs => specs
  | .error _ => []

/-- A result has its own monitor, QMP, and serial options at the end, and none of the options that are
left out before them. -/
structure Own (out : Text) (command : List Text) : Prop where
  /-- The options at the end. -/
  own : ∃ body, command = body ++ words (bootItems out) ∧
    ∀ w ∈ bootLeftOut, w ∉ body
  /-- No RAM comes in, and nothing waits. -/
  fresh : ∀ w ∈ [Arg.incoming, Arg.loadvm, Arg.gdb, Arg.pause, Arg.gdbShort], w ∉ command

/-- `boot_command` agrees with the other tools on a command line. -/
structure Agrees (argv : List Text) : Prop where
  /-- It takes the drives that they take. -/
  drives : ∀ out, (∃ command, bootCommand argv out = .ok command) ↔
    ∀ spec ∈ driveSpecs argv, ansId ∈ components spec
  /-- Its results have their own endpoints. -/
  own : ∀ out command, bootCommand argv out = .ok command → Own out command
  /-- A boot of a boot is a boot. -/
  twice : ∀ out out', (bootCommand argv out).bind (bootCommand · out') = bootCommand argv out'

/-- All drives have a component `id=ans`, or not all do, no matter whether the last component is
looked at and whether a longer key counts. -/
def Told (argv : List Text) : Prop :=
  (∀ spec ∈ driveSpecs argv, ∃ part ∈ (components spec).dropLast, ansId <:+ part) ↔
    ∀ spec ∈ driveSpecs argv, ansId ∈ components spec

theorem optionValues_of_ne {option w : Text} (h : w ≠ option) (ws : List Text) :
    optionValues option (w :: ws) = optionValues option ws := by
  cases ws with
  | nil => simp only [optionValues, if_neg h]
  | cons v ws => rw [optionValues, if_neg h]

/-- `option_values` finds the specifications of the drives. -/
theorem optionValues_words : ∀ {is : List Item}, (∀ i ∈ is, i.Proper bootValued bootNames) →
    optionValues Arg.drive (words is) = .ok (is.filterMap driveOf)
  | [], _ => rfl
  | .word w :: is, h => by
    obtain ⟨hw, his⟩ := List.forall_mem_cons.mp h
    have hne : w ≠ Arg.drive := by
      rintro rfl
      exact hw (by decide)
    rw [words_word, List.filterMap_cons_none rfl, optionValues_of_ne hne, optionValues_words his]
  | .option name value :: is, h => by
    obtain ⟨⟨-, hvalue⟩, his⟩ := List.forall_mem_cons.mp h
    have hne : value ≠ Arg.drive := by
      rintro rfl
      exact hvalue (by decide)
    rw [words_option, optionValues, optionValues_of_ne hne, optionValues_words his]
    by_cases hname : name = Arg.drive
    · rw [if_pos hname, List.filterMap_cons_some (by rw [driveOf, if_pos hname])]
      rfl
    · rw [if_neg hname, List.filterMap_cons_none (by rw [driveOf, if_neg hname])]

/-! ## The items -/

/-- Does `boot_command` take a drive? -/
def taken (spec : Text) : Bool := ansId ++ [','] <:+: spec

/-- What the loop makes of an item with a drive that is taken. -/
def bootItem (out : Text) : Item → List Item
  | .option name _ => if name = Arg.drive then [.option Arg.drive (bootDrive out)] else []
  | .word w => if w = Arg.pause ∨ w = Arg.gdbShort then [] else [.word w]

theorem cases_of_mem_bootValued {name : Text} (h : name ∈ bootValued) :
    name ∈ removed ∧ name ≠ Arg.drive ∨ name ∉ removed ∧ name = Arg.drive := by
  have hdrive : Arg.drive ∉ removed := by decide
  rcases List.mem_append.mp h with h | h
  · refine Or.inl ⟨h, ?_⟩
    rintro rfl
    exact hdrive h
  · rw [List.mem_singleton.mp h]
    exact Or.inr ⟨hdrive, rfl⟩

theorem drive_ne : Arg.drive ≠ Arg.pause ∧ Arg.drive ≠ Arg.gdbShort := by decide

/-- The loop works item by item, and stops at a drive that it does not take. -/
theorem bootLoop_words (out : Text) : ∀ {is : List Item} {command : List Text},
    (∀ i ∈ is, i.Proper bootValued bootNames) →
      bootLoop out (words is) command =
        if (is.filterMap driveOf).all taken = true then .ok (command ++ words (is.flatMap (bootItem out)))
        else .error .otherDrive
  | [], command, _ => by simp [bootLoop]
  | .option name value :: is, command, h => by
    obtain ⟨⟨hname, -⟩, his⟩ := List.forall_mem_cons.mp h
    obtain ⟨hp, hg⟩ := drive_ne
    rw [words_option, bootLoop, List.flatMap_cons, words_append]
    obtain ⟨hremoved, hne⟩ | ⟨hremoved, rfl⟩ := cases_of_mem_bootValued hname
    · rw [if_pos hremoved, bootLoop_words out his, bootItem, if_neg hne,
        List.filterMap_cons_none (by rw [driveOf, if_neg hne])]
      rfl
    · rw [if_neg hremoved, if_neg (not_or.mpr ⟨hp, hg⟩), if_pos rfl, bootLoop_words out his, bootItem,
        if_pos rfl, List.filterMap_cons_some (by rw [driveOf, if_pos rfl]), List.all_cons, taken]
      by_cases htaken : ansId ++ [','] <:+: value
      · simp [htaken]
      · simp [htaken]
  | .word w :: is, command, h => by
    obtain ⟨hw, his⟩ := List.forall_mem_cons.mp h
    have hw : w ∉ removed ∧ w ≠ Arg.drive := by
      have hw' : w ∉ bootValued := hw
      rw [bootValued, List.mem_append, not_or, List.mem_singleton] at hw'
      exact hw'
    have hstep : bootLoop out (w :: words is) command = bootLoop out (words is)
        (command ++ words (bootItem out (.word w))) := by
      rw [bootItem]
      cases words is with
      | nil =>
        simp only [bootLoop, if_neg hw.1, if_neg hw.2]
        split_ifs <;> simp
      | cons v ws =>
        simp only [bootLoop, if_neg hw.1, if_neg hw.2]
        split_ifs <;> simp
    rw [words_word, hstep, bootLoop_words out his, List.flatMap_cons, words_append,
      List.filterMap_cons_none rfl, List.append_assoc]

theorem bootCommand_words (out : Text) {is : List Item}
    (h : ∀ i ∈ is, i.Proper bootValued bootNames) :
    bootCommand (words is) out =
      if (is.filterMap driveOf).all taken = true then
        .ok (words (is.flatMap (bootItem out) ++ bootItems out))
      else .error .otherDrive := by
  rw [bootCommand, bootLoop_words out h, words_append]
  split_ifs <;> simp [Except.map]

/-- The drive that `boot_command` writes is one that it takes. -/
theorem taken_bootDrive (out : Text) : taken (bootDrive out) = true := by
  have h : ansId ++ [','] <:+: driveHead := by decide
  rw [taken, decide_eq_true_eq, bootDrive, List.append_assoc]
  exact h.trans (List.prefix_append driveHead _).isInfix

/-- A value of `boot_command` is no name, for a character that no name has. -/
theorem notMem_bootNames {v : Text} (h : '=' ∈ v ∨ ':' ∈ v) : v ∉ bootNames := by
  have hall : ∀ name ∈ bootNames, '=' ∉ name ∧ ':' ∉ name := by decide
  intro hv
  exact h.elim (hall v hv).1 (hall v hv).2

theorem bootDrive_notMem (out : Text) : bootDrive out ∉ bootNames := by
  refine notMem_bootNames (Or.inl ?_)
  rw [bootDrive, List.append_assoc]
  exact List.mem_append_left _ (by decide)

/-- The options that are added are proper, and among those that are left out by the next boot. -/
theorem bootItems_spec (out : Text) : ∀ i ∈ bootItems out, ∃ name value, i = .option name value ∧
    name ∈ [Arg.monitor, Arg.qmp, Arg.chardev, Arg.serial] ∧ value ∉ bootNames := by
  have hunix : ∀ d e : Text, unixScheme ++ d ++ e ∉ bootNames := by
    intro d e
    refine notMem_bootNames (Or.inr ?_)
    rw [List.append_assoc]
    exact List.mem_append_left _ (by decide)
  have hsocket : uartHead ++ out ++ uartMiddle ++ out ++ uartTail ∉ bootNames := by
    refine notMem_bootNames (Or.inl ?_)
    simp only [List.append_assoc]
    exact List.mem_append_left _ (by decide)
  have hserial : warmUart ∉ bootNames := by decide
  intro i hi
  rw [bootItems, List.mem_cons, List.mem_cons, List.mem_cons, List.mem_singleton] at hi
  obtain rfl | rfl | rfl | rfl := hi
  · exact ⟨_, _, rfl, by decide, hunix _ _⟩
  · exact ⟨_, _, rfl, by decide, hunix _ _⟩
  · exact ⟨_, _, rfl, by decide, hsocket⟩
  · exact ⟨_, _, rfl, by decide, hserial⟩

/-- What an item becomes: proper items without what is left out, with a drive that is taken. -/
theorem bootItem_spec (out : Text) {i : Item} (hi : i.Proper bootValued bootNames) :
    ∀ j ∈ bootItem out i, j.Proper bootValued bootNames ∧ (∀ w ∈ bootLeftOut, w ∉ j.words) ∧
      ∀ spec, driveOf j = some spec → taken spec = true := by
  have hsub : bootLeftOut ⊆ bootNames := by decide
  intro j hj
  cases i with
  | option name value =>
    rw [bootItem] at hj
    split_ifs at hj with hname
    · rw [List.mem_singleton.mp hj]
      refine ⟨⟨by decide, bootDrive_notMem out⟩, fun w hw => ?_, fun spec hspec => ?_⟩
      · have hdrive : Arg.drive ∉ bootLeftOut := by decide
        rw [Item.words, List.mem_cons, List.mem_singleton, not_or]
        exact ⟨fun h => hdrive (h ▸ hw), fun h => bootDrive_notMem out (h ▸ hsub hw)⟩
      · rw [driveOf, if_pos rfl] at hspec
        rw [← Option.some.inj hspec]
        exact taken_bootDrive out
    · exact absurd hj List.not_mem_nil
  | word w =>
    rw [bootItem] at hj
    split_ifs at hj with hw
    · exact absurd hj List.not_mem_nil
    · rw [List.mem_singleton.mp hj]
      refine ⟨hi, fun w' hw' => ?_, fun spec hspec => by cases hspec⟩
      rw [Item.words, List.mem_singleton]
      rintro rfl
      rcases List.mem_append.mp hw' with hw' | hw'
      · exact hi (List.mem_append_left _ hw')
      · rw [List.mem_cons, List.mem_singleton] at hw'
        exact hw hw'

/-- A boot of what an item becomes. -/
theorem bootItem_bootItem (out out' : Text) (i : Item) :
    (bootItem out i).flatMap (bootItem out') = bootItem out' i := by
  cases i with
  | option name value =>
    by_cases hname : name = Arg.drive
    · simp [bootItem, hname]
    · simp [bootItem, hname]
  | word w =>
    by_cases hw : w = Arg.pause ∨ w = Arg.gdbShort
    · simp [bootItem, hw]
    · simp [bootItem, hw]

theorem bootItem_bootItems (out out' : Text) : (bootItems out).flatMap (bootItem out') = [] := by
  refine List.flatMap_eq_nil_iff.mpr fun i hi => ?_
  obtain ⟨name, value, rfl, hname, -⟩ := bootItems_spec out i hi
  have hne : ∀ name ∈ [Arg.monitor, Arg.qmp, Arg.chardev, Arg.serial], name ≠ Arg.drive := by decide
  rw [bootItem, if_neg (hne name hname)]

/-- The items of a result are proper, and its drives are taken. -/
theorem result_spec (out : Text) {is : List Item} (h : ∀ i ∈ is, i.Proper bootValued bootNames) :
    ∀ j ∈ is.flatMap (bootItem out) ++ bootItems out, j.Proper bootValued bootNames ∧
      ∀ spec, driveOf j = some spec → taken spec = true := by
  intro j hj
  rcases List.mem_append.mp hj with hj | hj
  · obtain ⟨i, hi, hj⟩ := List.mem_flatMap.mp hj
    obtain ⟨hproper, -, htaken⟩ := bootItem_spec out (h i hi) j hj
    exact ⟨hproper, htaken⟩
  · obtain ⟨name, value, rfl, hname, hvalue⟩ := bootItems_spec out j hj
    have hall : ∀ name ∈ [Arg.monitor, Arg.qmp, Arg.chardev, Arg.serial],
        name ∈ bootValued ∧ name ≠ Arg.drive := by decide
    obtain ⟨hvalued, hne⟩ := hall name hname
    refine ⟨⟨hvalued, hvalue⟩, fun spec hspec => ?_⟩
    rw [driveOf, if_neg hne] at hspec
    cases hspec

/-- A boot of a boot is a boot. -/
theorem bootCommand_bootCommand (out out' : Text) {is : List Item}
    (h : ∀ i ∈ is, i.Proper bootValued bootNames) :
    (bootCommand (words is) out).bind (bootCommand · out') = bootCommand (words is) out' := by
  have hresult := result_spec out h
  have htaken : ((is.flatMap (bootItem out) ++ bootItems out).filterMap driveOf).all taken = true := by
    rw [List.all_eq_true]
    intro spec hspec
    obtain ⟨j, hj, hspec⟩ := List.mem_filterMap.mp hspec
    exact (hresult j hj).2 spec hspec
  rw [bootCommand_words out h, bootCommand_words out' h]
  by_cases hall : (is.filterMap driveOf).all taken = true
  · rw [if_pos hall, if_pos hall, Except.bind, bootCommand_words out' fun j hj => (hresult j hj).1,
      if_pos htaken, List.flatMap_append, bootItem_bootItems, List.append_nil, List.flatMap_assoc]
    simp only [bootItem_bootItem]
  · rw [if_neg hall, if_neg hall, Except.bind]

/-- A result has its own endpoints. -/
theorem own_result (out : Text) {is : List Item} (h : ∀ i ∈ is, i.Proper bootValued bootNames) :
    Own out (words (is.flatMap (bootItem out) ++ bootItems out)) := by
  have hbody : ∀ w ∈ bootLeftOut, w ∉ words (is.flatMap (bootItem out)) := by
    intro w hw hmem
    obtain ⟨j, hj, hwj⟩ := List.mem_flatMap.mp hmem
    obtain ⟨i, hi, hj⟩ := List.mem_flatMap.mp hj
    exact (bootItem_spec out (h i hi) j hj).2.1 w hw hwj
  refine ⟨⟨_, words_append _ _, hbody⟩, fun w hw => ?_⟩
  rw [words_append, List.mem_append, not_or]
  have hsub : ∀ w ∈ [Arg.incoming, Arg.loadvm, Arg.gdb, Arg.pause, Arg.gdbShort],
      w ∈ bootLeftOut ∧ w ∈ bootNames ∧ w ∉ [Arg.monitor, Arg.qmp, Arg.chardev, Arg.serial] := by
    decide
  obtain ⟨hleft, hnames, hown⟩ := hsub w hw
  refine ⟨hbody w hleft, fun hmem => ?_⟩
  obtain ⟨j, hj, hwj⟩ := List.mem_flatMap.mp hmem
  obtain ⟨name, value, rfl, hname, hvalue⟩ := bootItems_spec out j hj
  rcases List.mem_cons.mp hwj with rfl | hwj
  · exact hown hname
  · rw [List.mem_singleton.mp hwj] at hnames
    exact hvalue hnames

/-! ## When the tools agree -/

/-- A drive is taken if a component that is not the last one ends with `id=ans`. -/
theorem taken_iff {spec : Text} :
    taken spec = true ↔ ∃ part ∈ (components spec).dropLast, ansId <:+ part := by
  rw [taken, decide_eq_true_eq, comma_isInfix_iff (by decide)]

/-- `boot_command` agrees with the other tools exactly on the command lines where a look at the
components tells the drives as its look at the text does. -/
theorem boot_agrees {argv : List Text} (hform : Formed bootValued bootNames argv) :
    Agrees argv ↔ Told argv := by
  have hsub : bootValued ⊆ bootNames := List.subset_append_left _ _
  obtain ⟨is, rfl, hproper⟩ := hform.exists_items hsub
  have hspecs : driveSpecs (words is) = is.filterMap driveOf := by
    rw [driveSpecs, optionValues_words hproper]
  have haccept : ∀ out, (∃ command, bootCommand (words is) out = .ok command) ↔
      ∀ spec ∈ driveSpecs (words is), ∃ part ∈ (components spec).dropLast, ansId <:+ part := by
    intro out
    have hiff : (is.filterMap driveOf).all taken = true ↔
        ∀ spec ∈ driveSpecs (words is), ∃ part ∈ (components spec).dropLast, ansId <:+ part := by
      rw [List.all_eq_true, hspecs]
      exact forall₂_congr fun spec _ => taken_iff
    rw [bootCommand_words out hproper, ← hiff]
    split_ifs with hall
    · exact iff_of_true ⟨_, rfl⟩ hall
    · exact iff_of_false (fun ⟨_, h⟩ => nomatch h) hall
  refine ⟨fun h => (haccept []).symm.trans (h.drives []), fun h => ⟨?_, ?_, ?_⟩⟩
  · exact fun out => (haccept out).trans h
  · intro out command hcommand
    rw [bootCommand_words out hproper] at hcommand
    split_ifs at hcommand
    rw [← Except.ok.inj hcommand]
    exact own_result out hproper
  · exact fun out out' => bootCommand_bootCommand out out' hproper

/-- A command line with the disk as the manifests have it. -/
def manifestArgv : List Text :=
  ["qemu", "-S", "-drive", "if=none,id=ans,file=/d.qcow2,format=qcow2", "-serial", "file:/log"].map
    String.toList

theorem formed_of_items {argv : List Text} (hwords : words (items bootValued argv) = argv)
    (hproper : ∀ i ∈ items bootValued argv, i.Proper bootValued bootNames) :
    Formed bootValued bootNames argv :=
  hwords ▸ formed_words (List.subset_append_left _ _) hproper

/-- The tools agree on it. -/
theorem boot_agrees_manifestArgv : Agrees manifestArgv := by
  have hform : Formed bootValued bootNames manifestArgv :=
    formed_of_items (by decide +kernel) (by decide +kernel)
  have htold : Told manifestArgv := by
    unfold Told
    decide +kernel
  exact (boot_agrees hform).mpr htold

/-- A command line with the id of the disk at the end of its specification. -/
def lastArgv : List Text := ["qemu", "-drive", "if=none,file=/d.qcow2,id=ans"].map String.toList

/-- A command line with another disk, and a key that ends as the id does. -/
def otherArgv : List Text :=
  ["qemu", "-drive", "if=none,grid=ans,file=/other.qcow2"].map String.toList

/-- The disk is refused if its id stands last, and a drive without an id is taken for it if another
key ends as the id does. -/
theorem not_boot_agrees :
    (¬∀ argv, Formed bootValued bootNames argv → ∀ out,
      (∀ spec ∈ driveSpecs argv, ansId ∈ components spec) →
        ∃ command, bootCommand argv out = .ok command) ∧
      ¬∀ argv, Formed bootValued bootNames argv → ∀ out,
        (∃ command, bootCommand argv out = .ok command) →
          ∀ spec ∈ driveSpecs argv, ansId ∈ components spec := by
  refine ⟨fun h => ?_, fun h => ?_⟩
  · have hform : Formed bootValued bootNames lastArgv :=
      formed_of_items (by decide +kernel) (by decide +kernel)
    have hrefused : bootCommand lastArgv [] = .error .otherDrive := by decide +kernel
    obtain ⟨command, hcommand⟩ := h lastArgv hform [] (by decide +kernel)
    rw [hrefused] at hcommand
    cases hcommand
  · have hform : Formed bootValued bootNames otherArgv :=
      formed_of_items (by decide +kernel) (by decide +kernel)
    have htaken : ∃ command, bootCommand otherArgv [] = .ok command :=
      exists_of_isOk (by decide +kernel)
    have hnone : ¬∀ spec ∈ driveSpecs otherArgv, ansId ∈ components spec := by decide +kernel
    exact hnone (h otherArgv hform [] htaken)

end DarwinVm.Checkpoint
