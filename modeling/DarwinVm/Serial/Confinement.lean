import DarwinVm.Lib.Shell
import DarwinVm.Serial.Framing

/-!
# The paths of an upload stay in the staging namespaces

`remote_path_is_safe` looks at the start of a path and at its components, and `upload` puts the path
into shell lines without quotes. A path made of characters that mean nothing to the shell (`Plain`)
stays what it is, and each line runs the commands of its template on files of the staging namespaces
(`confinement`). Any other path is taken apart by the shell.
-/

namespace DarwinVm.Serial

open Shell

/-- A staging namespace or a path in one, with no component that leads out. -/
def Under (p : Text) : Prop :=
  (∃ root ∈ roots, p = root.dropLast ∨ root <+: p) ∧ ['.', '.'] ∉ p.splitOn '/'

/-- The commands whose words name no files. -/
def noFiles : List Text := [":", "echo", "printf", "test", "set"].map String.toList

/-- The files that a command names: its redirections, and its words that are no options. -/
def files (s : Simple) : List Text :=
  s.targets ++ if s.argv.headD [] ∈ noFiles then [] else s.argv.tail.filter (·.head? ≠ some '-')

/-- A line runs the commands with some names, on files of the staging namespaces. -/
def Confined (g : Guest) (names : List Text) (command : Text) : Prop :=
  ∃ run, read g (": :; ".toList ++ command ++ ['\n']) = some run ∧
    run.map (·.argv.headD []) = names ∧ ∀ s ∈ run, ∀ p ∈ files s, Under p

/-- The names of the commands in the templates of `setup`. -/
def setupNames : List (List Text) :=
  [[":", "mkdir", "echo"], [":", "/bin/rm", "echo"], [":", "/bin/rm", "echo"]].map
    (·.map String.toList)

/-- The names of the commands in the template of a part. -/
def partNames : List Text := [":", "printf", "/bin/cksum"].map String.toList

/-- The names of the commands in the templates of `finish`. -/
def finishNames : List (List Text) :=
  [[":", "/bin/cat", "echo"], [":", "/bin/base64", "echo"], [":", "wc", "test", "echo"],
    [":", "cksum", "set", "test", "echo"], [":", "/bin/rm", "/bin/rmdir", "echo"]].map
    (·.map String.toList)

/-! ## The paths -/

/-- A directory whose files are under a staging namespace. -/
def Staged (dir : Text) : Prop :=
  (∃ root ∈ roots, root <+: dir ++ ['/']) ∧ ['.', '.'] ∉ dir.splitOn '/'

/-- A file of a staged directory. -/
theorem Staged.child {dir name : Text} (h : Staged dir) (hslash : '/' ∉ name)
    (hname : name ≠ ['.', '.']) : Under (dir ++ '/' :: name) := by
  obtain ⟨⟨root, hroot, hstart⟩, hdots⟩ := h
  refine ⟨⟨root, hroot, Or.inr (hstart.trans ⟨name, by simp⟩)⟩, ?_⟩
  rw [List.splitOn_append_cons_self, List.splitOn_eq_singleton hslash, List.mem_append,
    List.mem_singleton, not_or]
  exact ⟨hdots, hname.symm⟩

/-- A directory of a staged directory. -/
theorem Staged.dir {dir name : Text} (h : Staged dir) (hslash : '/' ∉ name)
    (hname : name ≠ ['.', '.']) : Staged (dir ++ '/' :: name) := by
  obtain ⟨⟨root, hroot, hstart⟩, hdots⟩ := h
  refine ⟨⟨root, hroot, hstart.trans ⟨name ++ ['/'], by simp⟩⟩, ?_⟩
  rw [List.splitOn_append_cons_self, List.splitOn_eq_singleton hslash, List.mem_append,
    List.mem_singleton, not_or]
  exact ⟨hdots, hname.symm⟩

/-- A safe path is a file of a staged directory. -/
theorem exists_parent {path : Text} (h : remotePathIsSafe path = true) :
    ∃ a base, path = a ++ '/' :: base ∧ '/' ∉ base ∧ base ≠ ['.', '.'] ∧ Staged a := by
  obtain ⟨⟨root, hroot, name, -, hpath⟩, hdots⟩ := remotePathIsSafe_iff.mp h
  have hends : ∀ root ∈ roots, root = root.dropLast ++ ['/'] := by decide
  have hstart : root <+: path.rdropWhile (· ≠ '/') := by
    rw [hpath, hends root hroot]
    exact prefix_rdropWhile (by decide) _ name
  have hne : path.rdropWhile (· ≠ '/') ≠ [] := fun hnil => by
    rw [hnil, List.prefix_nil] at hstart
    exact absurd (hstart ▸ hroot) (by decide)
  have hlast := List.rdropWhile_last_not (· ≠ '/') path hne
  rw [decide_eq_true_iff, not_not] at hlast
  have hhead := List.dropLast_append_getLast hne
  have hjoin : path.rdropWhile (· ≠ '/') ++ path.rtakeWhile (· ≠ '/') = path :=
    List.rdropWhile_append_rtakeWhile
  have hslash : '/' ∉ path.rtakeWhile (· ≠ '/') := fun hmem => by
    have := List.mem_rtakeWhile_imp hmem
    rw [decide_eq_true_iff] at this
    exact this rfl
  rw [hlast] at hhead
  generalize path.rtakeWhile (· ≠ '/') = base at hjoin hslash
  generalize path.rdropWhile (· ≠ '/') = head at hstart hhead hjoin
  rw [← hhead] at hstart hjoin
  rw [← hjoin, List.append_assoc, List.singleton_append, List.splitOn_append_cons_self,
    List.splitOn_eq_singleton hslash, List.mem_append, List.mem_singleton, not_or] at hdots
  exact ⟨head.dropLast, base, by rw [← hjoin, List.append_assoc]; rfl, hslash, fun h => hdots.2 h.symm,
    ⟨root, hroot, hstart⟩, hdots.1⟩

/-- The directory of a safe path is what is in front of slashes and the name. -/
theorem dirname_append {path : Text} (h : remotePathIsSafe path = true) :
    ∃ rest, path = dirname path ++ '/' :: rest := by
  obtain ⟨a, base, rfl, hslash, -, hstaged⟩ := exists_parent h
  have hhead : (a ++ '/' :: base).rdropWhile (· ≠ '/') = a ++ ['/'] := by
    have hbase : ∀ c ∈ base.reverse, decide (c ≠ '/') = true := fun c hc =>
      decide_eq_true fun h => hslash (h ▸ List.mem_reverse.mp hc)
    rw [List.rdropWhile, List.reverse_append, List.reverse_cons, List.append_assoc,
      List.dropWhile_append_of_pos hbase]
    simp
  have hne : a ++ ['/'] ≠ List.replicate (a ++ ['/']).length '/' := fun h => by
    obtain ⟨root, hroot, hstart⟩ := hstaged.1
    have hall : ∀ root ∈ roots, 'p' ∈ root := by decide
    have hmem := hstart.subset (hall root hroot)
    rw [h] at hmem
    exact absurd (List.eq_of_mem_replicate hmem) (by decide)
  have hdir : dirname (a ++ '/' :: base) = a.rdropWhile (· = '/') := by
    rw [dirname, hhead, if_pos hne, List.rdropWhile_concat_pos _ _ _ (by decide)]
  -- Only slashes are dropped from the directory.
  obtain ⟨n, hn⟩ : ∃ n, a = a.rdropWhile (· = '/') ++ List.replicate n '/' := by
    refine ⟨(a.rtakeWhile (· = '/')).length, ?_⟩
    have hall : a.rtakeWhile (· = '/') = List.replicate (a.rtakeWhile (· = '/')).length '/' :=
      List.eq_replicate_iff.mpr ⟨rfl, fun c hc => by
        have := List.mem_rtakeWhile_imp hc
        rwa [decide_eq_true_iff] at this⟩
    rw [← hall, List.rdropWhile_append_rtakeWhile]
  refine ⟨List.replicate n '/' ++ base, ?_⟩
  rw [hdir]
  conv_lhs => rw [hn]
  rw [List.append_assoc, ← List.cons_append, ← List.replicate_succ, List.replicate_succ',
    List.append_assoc]
  rfl

/-- The directory of a safe path is staged. -/
theorem staged_dirname {path : Text} (h : remotePathIsSafe path = true) :
    Staged (dirname path) ∧ Under (dirname path) := by
  obtain ⟨⟨root, hroot, name, -, hpath⟩, hdots⟩ := remotePathIsSafe_iff.mp h
  obtain ⟨rest, hrest⟩ := dirname_append h
  have hends : ∀ root ∈ roots, root = root.dropLast ++ ['/'] := by decide
  have hpre : root.dropLast <+: dirname path := hpath ▸ prefix_dirname hroot name
  have hdots' : ['.', '.'] ∉ (dirname path).splitOn '/' := fun hmem => by
    rw [hrest, List.splitOn_append_cons_self] at hdots
    exact hdots (List.mem_append_left _ hmem)
  have hdir : dirname path ++ ['/'] <+: path := ⟨rest, by rw [List.append_assoc]; exact hrest.symm⟩
  have hroot' : root <+: path := hpath ▸ List.prefix_append root name
  have hlen : root.length = root.dropLast.length + 1 := by
    conv_lhs => rw [hends root hroot]
    rw [List.length_append, List.length_singleton]
  refine ⟨⟨⟨root, hroot, List.prefix_of_prefix_length_le hroot' hdir ?_⟩, hdots'⟩,
    ⟨root, hroot, ?_⟩, hdots'⟩
  · have := hpre.length_le
    rw [List.length_append, List.length_singleton]
    omega
  · -- The directory is the namespace, or goes on after it.
    rcases Nat.lt_or_ge root.dropLast.length (dirname path).length with h | h
    · refine Or.inr (List.prefix_of_prefix_length_le hroot' ?_ (by omega))
      exact (List.prefix_append _ _).trans hdir
    · exact Or.inl (hpre.eq_of_length_le h).symm

section

variable {g : Guest} {path : Text}

/-- The remote path, also with a suffix. -/
theorem under_append (h : remotePathIsSafe path = true) {suffix : Text} (hslash : '/' ∉ suffix)
    (hlen : suffix = [] ∨ 2 < suffix.length) : Under (path ++ suffix) := by
  obtain ⟨a, base, rfl, hbase, hdots, hstaged⟩ := exists_parent h
  rw [List.append_assoc, List.cons_append]
  refine hstaged.child (fun hmem => (List.mem_append.mp hmem).elim hbase hslash) fun heq => ?_
  obtain rfl | hlen := hlen
  · exact hdots (by rwa [List.append_nil] at heq)
  · have := congrArg List.length heq
    rw [List.length_append, List.length_cons, List.length_singleton] at this
    omega

theorem under_path (h : remotePathIsSafe path = true) : Under path := by
  have := under_append h List.not_mem_nil (Or.inl rfl)
  rwa [List.append_nil] at this

theorem under_encodedPath (h : remotePathIsSafe path = true) : Under (encodedPath path) :=
  under_append h (by decide) (Or.inr (by decide))

theorem staged_partDir (h : remotePathIsSafe path = true) : Staged (partDir path) :=
  (staged_dirname h).1.dir (by decide) (by decide)

theorem under_partDir (h : remotePathIsSafe path = true) : Under (partDir path) :=
  (staged_dirname h).1.child (by decide) (by decide)

theorem under_partPath (h : remotePathIsSafe path = true) (number : ℕ) :
    Under (partPath path number) := by
  have hdigits : ∀ c ∈ zeroPad 6 number, c.isDigit = true := fun c => isDigit_of_mem_zeroPad
  refine (staged_partDir h).child (fun hmem => ?_) fun heq => ?_
  · exact absurd (hdigits _ hmem) (by decide)
  · exact absurd (hdigits '.' (heq ▸ List.mem_cons_self ..)) (by decide)

/-- What matches the pattern for the parts is in their directory. -/
theorem under_partGlob (h : remotePathIsSafe path = true) (hplain : Plain (partDir path)) :
    ∀ p ∈ pathnames g (bare (partGlob path)), Under p := by
  intro p hp
  have hstar : "/*".toList = ['/', '*'] := by decide
  rw [partGlob, hstar] at hp
  obtain rfl | ⟨dir, name, hname, rfl⟩ := mem_pathnames hplain (by decide) (List.cons_ne_nil _ _) hp
  · exact (staged_partDir h).child (by decide) (by decide)
  · obtain ⟨hentry, hmatch⟩ := List.mem_filter.mp hname
    refine (staged_partDir h).child (g.noSlash dir name hentry) fun heq => ?_
    -- A star does not match a dot at the start.
    have hdot := (of_decide_eq_true hmatch).2 (by rw [heq]; rfl)
    exact absurd hdot (by decide)

/-- What matches the pattern for the parts of the former tool is next to the path. -/
theorem under_oldPartGlob (h : remotePathIsSafe path = true) (hplain : Plain path) :
    ∀ p ∈ pathnames g (bare (encodedPath path ++ ".part.*".toList)), Under p := by
  intro p hp
  obtain ⟨a, base, rfl, hslash, -, hstaged⟩ := exists_parent h
  have hsuffix : Plain ".b64.part.".toList := by decide
  have hlen : 2 < ".b64.part.".toList.length := by decide
  have hslash' : '/' ∉ ".b64.part.".toList := by decide
  have hlit : ".b64".toList ++ ".part.*".toList = ".b64.part.".toList ++ ['*'] := by decide
  rw [encodedPath, List.append_assoc, hlit] at hp
  generalize ".b64.part.".toList = suffix at hsuffix hlen hslash' hp
  have ha : Plain a := fun c hc => hplain c (List.mem_append_left _ hc)
  have hbase : Plain base := fun c hc =>
    hplain c (List.mem_append_right _ (List.mem_cons_of_mem _ hc))
  have hlast : '/' ∉ base ++ suffix ++ ['*'] := by
    simp only [List.mem_append, List.mem_singleton, hslash, hslash', false_or]
    decide
  have hlong (s : Text) : base ++ suffix ++ s ≠ ['.', '.'] := fun heq => by
    have := congrArg List.length heq
    simp only [List.length_append, List.length_cons, List.length_nil] at this
    omega
  rw [List.append_assoc, List.cons_append, ← List.append_assoc base] at hp
  obtain rfl | ⟨dir, name, hname, rfl⟩ := mem_pathnames ha hlast
    (List.append_ne_nil_of_right_ne_nil _ (List.cons_ne_nil _ _)) hp
  · exact hstaged.child hlast (hlong ['*'])
  · obtain ⟨hentry, hmatch⟩ := List.mem_filter.mp hname
    refine hstaged.child (g.noSlash dir name hentry) fun heq => ?_
    rw [bare_append] at hmatch
    obtain ⟨s, hs, -⟩ := matchName_append (hbase.append hsuffix).inactive (of_decide_eq_true hmatch).1
    rw [map_fst_bare, heq] at hs
    exact hlong s hs.symm

end

/-! ## The guard and the status -/

/-- The command of the guard. -/
def guard : Simple := ⟨[[':'], [':']], []⟩

theorem steps_guard (g : Guest) : Steps g Frame.start ": :; ".toList (ready [] [] false [guard]) :=
  fun _ => rfl

/-- The end of a line prints something, and names no files. -/
def Echoes (g : Guest) (t : Text) : Prop :=
  ∀ run, ∃ more f, Steps g (ready [] [] false run) t f ∧
    Ends g f (run ++ [⟨"echo".toList :: more, []⟩])

theorem named_echo : Named "echo".toList := by decide

/-- A line that says if the command in front of it succeeded. -/
theorem echoes_status (g : Guest) {mark : Text} (ht : Tame mark) (hs : Starts mark) :
    Echoes g (" echo ".toList ++ mark ++ "$?".toList) := by
  intro run
  have hecho : Steps g (ready [] [] false run) " echo ".toList
      (ready ["echo".toList] [] false run) := fun _ => rfl
  have hstatus : Steps g (reading ["echo".toList] [] false run mark) "$?".toList
      ⟨.bare, some (bare mark ++ (g.param '?').map (·, .expanded), false), ["echo".toList], [],
        false, run⟩ := fun _ => rfl
  exact ⟨_, _, (hecho.trans (steps_word ht hs)).trans hstatus, ends_word named_echo _ _⟩

/-- A line of commands whose files are in the namespaces, and of what it prints. -/
theorem confined_of_steps {g : Guest} {f : Frame} {t tail : Text} {run : List Simple}
    (ht : Steps g (ready [] [] false [guard]) t f) (hend : Ends g f (guard :: run))
    (htail : Echoes g tail) (hfiles : ∀ s ∈ run, ∀ p ∈ files s, Under p) :
    Confined g ([':'] :: run.map (·.argv.headD []) ++ ["echo".toList]) (t ++ [';'] ++ tail) := by
  obtain ⟨more, f', hsteps, hends⟩ := htail (guard :: run)
  refine ⟨_, hends.read ((steps_guard g).trans ((ht.trans hend.steps).trans hsteps)), ?_, ?_⟩
  · rw [List.map_append, List.map_cons]
    rfl
  · intro s hs p hp
    obtain hs | hs := List.mem_append.mp hs
    · obtain rfl | hs := List.mem_cons.mp hs
      · exact absurd hp (List.not_mem_nil)
      · exact hfiles s hs p hp
    · obtain rfl := List.mem_singleton.mp hs
      exact absurd hp (List.not_mem_nil)

/-- The files of a command whose words come after some options. -/
theorem files_of_options {name : Text} (hname : name ∉ noFiles) {options words targets : List Text}
    (hoptions : ∀ w ∈ options, w.head? = some '-') (hwords : ∀ w ∈ words, Under w)
    (htargets : ∀ p ∈ targets, Under p) :
    ∀ p ∈ files ⟨name :: (options ++ words), targets⟩, Under p := by
  intro p hp
  obtain hp | hp := List.mem_append.mp hp
  · exact htargets p hp
  · have hargv : (name :: (options ++ words)).headD [] ∉ noFiles := hname
    rw [if_neg hargv] at hp
    obtain ⟨hmem, hdash⟩ := List.mem_filter.mp hp
    obtain hmem | hmem := List.mem_append.mp hmem
    · exact absurd (hoptions p hmem) (of_decide_eq_true hdash)
    · exact hwords p hmem

/-! ## The lines -/

/-- The words of the lines that are made of a path are left as they are. -/
structure PlainWords (path : Text) : Prop where
  remote : PlainWord path
  encoded : PlainWord (encodedPath path)
  dir : PlainWord (dirname path)
  parts : PlainWord (partDir path)

/-- A safe path starts with a slash, and so does its directory. -/
theorem plainWords {path : Text} (hsafe : remotePathIsSafe path = true) (hplain : Plain path) :
    PlainWords path := by
  obtain ⟨rest, hrest⟩ := dirname_append hsafe
  have hdir : Plain (dirname path) := fun c hc => hplain c (hrest ▸ List.mem_append_left _ hc)
  obtain ⟨⟨root, hroot, name, -, hpath⟩, -⟩ := remotePathIsSafe_iff.mp hsafe
  have hstarts : ∀ root ∈ roots, Starts root ∧ Starts root.dropLast := by decide
  have hword : PlainWord path :=
    ⟨hplain, (hstarts root hroot).1.of_start (hpath ▸ List.prefix_append root name)⟩
  have hword' : PlainWord (dirname path) :=
    ⟨hdir, (hstarts root hroot).2.of_start (hpath ▸ prefix_dirname hroot name)⟩
  have hb64 : Plain ".b64".toList := by decide
  have hparts : Plain "/.upload-parts".toList := by decide
  exact ⟨hword, hword.append hb64, hword', hword'.append hparts⟩

theorem tame_partGlob {path : Text} (h : PlainWords path) :
    Tame (partGlob path) ∧ Starts (partGlob path) := by
  have hglob : Tame "/*".toList := by decide
  exact ⟨h.parts.plain.tame.append hglob, h.parts.starts.of_start (List.prefix_append _ _)⟩

/-- Digits mean nothing to the shell. -/
theorem plain_of_isDigit {t : Text} (h : ∀ c ∈ t, c.isDigit = true) : Plain t := by
  have hnone : ∀ c ∈ '*' :: '?' :: special, c.isDigit = false := by decide
  intro c hc
  have hno : c ∉ '*' :: '?' :: special := fun hmem =>
    Bool.false_ne_true ((hnone c hmem).symm.trans (h c hc))
  rw [List.mem_cons, List.mem_cons, not_or, not_or] at hno
  exact ⟨hno.2.2, hno.1, hno.2.1⟩

theorem plainWord_decimal (n : ℕ) : PlainWord (decimal n) := by
  have hdigit : ∀ c ∈ decimal n, c.isDigit = true := fun c => isDigit_of_mem_decimal
  refine ⟨plain_of_isDigit hdigit, ?_⟩
  obtain ⟨c, t, ht⟩ := List.exists_cons_of_ne_nil (Nat.toDigits_ne_nil (b := 10) (n := n))
  have ht' : decimal n = c :: t := ht
  have hc := hdigit c (ht' ▸ List.mem_cons_self ..)
  have hhead : (decimal n).head? = some c := congrArg List.head? ht'
  unfold Starts
  rw [hhead, Option.any_some, decide_eq_true_iff]
  constructor <;>
    · rintro rfl
      exact absurd hc (by decide)

theorem PlainWords.part {path : Text} (h : PlainWords path) (number : ℕ) :
    PlainWord (partPath path number) := by
  have hslash : Plain ['/'] := by decide
  have hdigits : Plain (zeroPad 6 number) := plain_of_isDigit fun c => isDigit_of_mem_zeroPad
  exact h.parts.append (hslash.append hdigits)

/-! ## The lines -/

/-- The end of a line that prints a text with the status of a command. -/
structure Status (lit mark : Text) : Prop where
  eq : lit = [';'] ++ (" echo ".toList ++ mark ++ "$?".toList)
  tame : Tame mark
  starts : Starts mark

section

variable {g : Guest} {path : Text}

theorem under_one {p : Text} (h : Under p) : ∀ w ∈ [p], Under w :=
  List.forall_mem_singleton.mpr h

theorem under_pair {p q : Text} (hp : Under p) (hq : Under q) : ∀ w ∈ [p, q], Under w :=
  List.forall_mem_cons.mpr ⟨hp, under_one hq⟩

/-- A line with one command and its status. -/
theorem confined_command {name lit₀ t lit mark : Text} {options words targets : List Text} {f : Frame}
    (hname : name ∉ noFiles) (hoptions : ∀ w ∈ options, w.head? = some '-')
    (hwords : ∀ w ∈ words, Under w) (htargets : ∀ p ∈ targets, Under p)
    (hstart : Steps g (ready [] [] false [guard]) lit₀ (ready (name :: options) [] false [guard]))
    (ht : Steps g (ready (name :: options) [] false [guard]) t f)
    (hend : Ends g f [guard, ⟨name :: (options ++ words), targets⟩]) (hstatus : Status lit mark) :
    Confined g [[':'], name, "echo".toList] (lit₀ ++ t ++ lit) := by
  rw [hstatus.eq, ← List.append_assoc (lit₀ ++ t)]
  refine confined_of_steps (hstart.trans ht) hend (echoes_status g hstatus.tame hstatus.starts)
    fun s hs => ?_
  obtain rfl := List.mem_singleton.mp hs
  exact files_of_options hname hoptions hwords htargets

/-- `mkdir -p` makes the directory and the one for the parts. -/
theorem confined_setup_dir (hsafe : remotePathIsSafe path = true) (h : PlainWords path) :
    Confined g [[':'], "mkdir".toList, "echo".toList]
      ("mkdir -p ".toList ++ (dirname path ++ [' '] ++ partDir path) ++
        "; echo DVM_UPLOAD_SETUP_DIR_RC=$?".toList) := by
  have hname : Named "mkdir".toList ∧ "mkdir".toList ∉ noFiles := by decide
  have hstatus : Status "; echo DVM_UPLOAD_SETUP_DIR_RC=$?".toList
    "DVM_UPLOAD_SETUP_DIR_RC=".toList := ⟨by decide, by decide, by decide⟩
  have hoptions : ∀ w ∈ ["-p".toList], w.head? = some '-' := by decide
  have hwords : ∀ w ∈ [dirname path, partDir path], Under w :=
    under_pair (staged_dirname hsafe).2 (under_partDir hsafe)
  have hend := @PlainWord.ends g _ ["-p".toList, dirname path] [] [guard] h.parts _ hname.1
  exact confined_command hname.2 hoptions hwords (List.forall_mem_nil _) (fun _ => rfl)
    (h.dir.steps_next.trans h.parts.steps) hend hstatus

/-- `/bin/rm -f` removes the remote file and its text. -/
theorem confined_setup_target (hsafe : remotePathIsSafe path = true) (h : PlainWords path) :
    Confined g [[':'], "/bin/rm".toList, "echo".toList]
      ("/bin/rm -f ".toList ++ (path ++ [' '] ++ encodedPath path) ++
        "; echo DVM_UPLOAD_SETUP_TARGET_RC=$?".toList) := by
  have hname : Named "/bin/rm".toList ∧ "/bin/rm".toList ∉ noFiles := by decide
  have hstatus : Status "; echo DVM_UPLOAD_SETUP_TARGET_RC=$?".toList
    "DVM_UPLOAD_SETUP_TARGET_RC=".toList := ⟨by decide, by decide, by decide⟩
  have hoptions : ∀ w ∈ ["-f".toList], w.head? = some '-' := by decide
  have hwords : ∀ w ∈ [path, encodedPath path], Under w :=
    under_pair (under_path hsafe) (under_encodedPath hsafe)
  have hend := @PlainWord.ends g _ ["-f".toList, path] [] [guard] h.encoded _ hname.1
  exact confined_command hname.2 hoptions hwords (List.forall_mem_nil _) (fun _ => rfl)
    (h.remote.steps_next.trans h.encoded.steps) hend hstatus

/-- `/bin/rm -f` removes parts that were left. -/
theorem confined_setup_parts (hsafe : remotePathIsSafe path = true) (h : PlainWords path) :
    Confined g [[':'], "/bin/rm".toList, "echo".toList]
      ("/bin/rm -f ".toList ++ (encodedPath path ++ ".part.*".toList ++ [' '] ++ partGlob path) ++
        "; echo DVM_UPLOAD_SETUP_RC=$?".toList) := by
  have hname : Named "/bin/rm".toList ∧ "/bin/rm".toList ∉ noFiles := by decide
  have hstatus : Status "; echo DVM_UPLOAD_SETUP_RC=$?".toList
    "DVM_UPLOAD_SETUP_RC=".toList := ⟨by decide, by decide, by decide⟩
  have hoptions : ∀ w ∈ ["-f".toList], w.head? = some '-' := by decide
  have hold : Tame (encodedPath path ++ ".part.*".toList) := h.encoded.plain.tame.append (by decide)
  have hold' : Starts (encodedPath path ++ ".part.*".toList) :=
    h.encoded.starts.of_start (List.prefix_append _ _)
  have hglob : Tame (partGlob path) ∧ Starts (partGlob path) := tame_partGlob h
  have hwords : ∀ w ∈ pathnames g (bare (encodedPath path ++ ".part.*".toList)) ++
      pathnames g (bare (partGlob path)), Under w :=
    List.forall_mem_append.mpr ⟨under_oldPartGlob hsafe h.remote.plain,
      under_partGlob hsafe h.parts.plain⟩
  have hend := @ends_reading g _ (["-f".toList] ++
    pathnames g (bare (encodedPath path ++ ".part.*".toList))) [] [guard] _ hname.1 hglob.2
  exact confined_command hname.2 hoptions hwords (List.forall_mem_nil _) (fun _ => rfl)
    ((steps_next hold hold').trans (steps_word hglob.1 hglob.2)) hend hstatus

/-- `/bin/cat` joins the parts. -/
theorem confined_join (hsafe : remotePathIsSafe path = true) (h : PlainWords path) :
    Confined g [[':'], "/bin/cat".toList, "echo".toList]
      ("/bin/cat ".toList ++ (partGlob path ++ " > ".toList ++ encodedPath path) ++
        "; echo DVM_UPLOAD_JOIN_RC=$?".toList) := by
  have hname : Named "/bin/cat".toList ∧ "/bin/cat".toList ∉ noFiles := by decide
  have hstatus : Status "; echo DVM_UPLOAD_JOIN_RC=$?".toList
    "DVM_UPLOAD_JOIN_RC=".toList := ⟨by decide, by decide, by decide⟩
  have hglob := tame_partGlob h
  have hend := @ends_redirecting g (encodedPath path) (pathnames g (bare (partGlob path))) []
    [guard] _ hname.1
  exact confined_command hname.2 (List.forall_mem_nil _) (under_partGlob hsafe h.parts.plain)
    (under_one (under_encodedPath hsafe)) (fun _ => rfl)
    ((steps_to hglob.1 hglob.2).trans h.encoded.steps) hend hstatus

/-- `/bin/base64 -d` decodes the text. -/
theorem confined_decode (hsafe : remotePathIsSafe path = true) (h : PlainWords path) :
    Confined g [[':'], "/bin/base64".toList, "echo".toList]
      ("/bin/base64 -d ".toList ++ (encodedPath path ++ " > ".toList ++ path) ++
        "; echo DVM_UPLOAD_DECODE_RC=$?".toList) := by
  have hname : Named "/bin/base64".toList ∧ "/bin/base64".toList ∉ noFiles := by decide
  have hstatus : Status "; echo DVM_UPLOAD_DECODE_RC=$?".toList
    "DVM_UPLOAD_DECODE_RC=".toList := ⟨by decide, by decide, by decide⟩
  have hoptions : ∀ w ∈ ["-d".toList], w.head? = some '-' := by decide
  have hto := @steps_to g _ ["/bin/base64".toList, "-d".toList] [guard] h.encoded.plain.tame
    h.encoded.starts
  rw [pathnames_plain h.encoded.plain] at hto
  have hend := @ends_redirecting g path ["-d".toList, encodedPath path] [] [guard] _ hname.1
  exact confined_command hname.2 hoptions (under_one (under_encodedPath hsafe))
    (under_one (under_path hsafe)) (fun _ => rfl) (hto.trans h.remote.steps) hend hstatus

/-- Some commands name no files but those of their redirections. -/
theorem files_of_targets {name : Text} (hname : name ∈ noFiles) {args targets : List Text}
    (htargets : ∀ p ∈ targets, Under p) : ∀ p ∈ files ⟨name :: args, targets⟩, Under p := by
  have hargv : (name :: args).headD [] ∈ noFiles := hname
  intro p hp
  rw [files, if_pos hargv, List.append_nil] at hp
  exact htargets p hp

/-- `test` compares the size of the decoded file. -/
theorem confined_size (hsafe : remotePathIsSafe path = true) (h : PlainWords path) (n : ℕ) :
    Confined g [[':'], "wc".toList, "test".toList, "echo".toList]
      ("test \"".toList ++ ("$(".toList ++ ("wc -c < ".toList ++ path) ++ [')']) ++
        ("\" -eq ".toList ++ decimal n) ++ "; echo DVM_UPLOAD_SIZE_RC=$?".toList) := by
  have hstatus : Status "; echo DVM_UPLOAD_SIZE_RC=$?".toList
    "DVM_UPLOAD_SIZE_RC=".toList := ⟨by decide, by decide, by decide⟩
  have hwc : Named "wc".toList ∧ "wc".toList ∉ noFiles := by decide
  have htest : Named "test".toList ∧ "test".toList ∈ noFiles := by decide
  have hoptions : ∀ w ∈ ["-c".toList], w.head? = some '-' := by decide
  -- The substitution is in quotes, and has a redirection.
  have hopen : Steps g (ready [] [] false [guard]) "test \"".toList
      ⟨.double, some ([], true), ["test".toList], [], false, [guard]⟩ := fun _ => rfl
  have hinner : Steps g Frame.start "wc -c < ".toList (ready ["wc".toList, "-c".toList] [] true []) :=
    fun _ => rfl
  have hwc_ends : Ends g (reading ["wc".toList, "-c".toList] [] true [] path)
      [⟨["wc".toList, "-c".toList], [path]⟩] := ends_redirecting hwc.1
  have hclose (w : Word) (run : List Simple) : Steps g ⟨.double, some (w, true), ["test".toList], [],
      false, run⟩ "\" -eq ".toList (ready ("test".toList :: ((fields w true).flatMap (pathnames g) ++
        ["-eq".toList])) [] false run) := fun _ => rfl
  have hline := (hopen.trans (steps_quoted_substitution (hinner.trans h.remote.steps) hwc_ends)).trans
    ((hclose _ _).trans (plainWord_decimal n).steps)
  rw [hstatus.eq, ← List.append_assoc (_ ++ ("\" -eq ".toList ++ decimal n))]
  refine confined_of_steps hline ((plainWord_decimal n).ends htest.1)
    (echoes_status g hstatus.tame hstatus.starts) fun s hs => ?_
  obtain rfl | hs := List.mem_cons.mp hs
  · exact @files_of_options _ hwc.2 _ [] _ hoptions (List.forall_mem_nil _)
      (under_one (under_path hsafe))
  · obtain rfl := List.mem_singleton.mp hs
    exact files_of_targets htest.2 (List.forall_mem_nil _)

/-- `test` compares the sum of the decoded file. -/
theorem confined_cksum (hsafe : remotePathIsSafe path = true) (h : PlainWords path) (n : ℕ) :
    Confined g [[':'], "cksum".toList, "set".toList, "test".toList, "echo".toList]
      ("set -- ".toList ++ ("$(".toList ++ ("cksum ".toList ++ path) ++ [')']) ++ [';'] ++
        (" test \"$1\" = ".toList ++ decimal n) ++ "; echo DVM_UPLOAD_CKSUM_RC=$?".toList) := by
  have hstatus : Status "; echo DVM_UPLOAD_CKSUM_RC=$?".toList
    "DVM_UPLOAD_CKSUM_RC=".toList := ⟨by decide, by decide, by decide⟩
  have hcksum : Named "cksum".toList ∧ "cksum".toList ∉ noFiles := by decide
  have hset : Named "set".toList ∧ "set".toList ∈ noFiles := by decide
  have htest : Named "test".toList ∧ "test".toList ∈ noFiles := by decide
  have hopen : Steps g (ready [] [] false [guard]) "set -- ".toList
      (ready ["set".toList, "--".toList] [] false [guard]) := fun _ => rfl
  have hinner : Steps g Frame.start "cksum ".toList (ready ["cksum".toList] [] false []) :=
    fun _ => rfl
  have hcksum_ends : Ends g (reading ["cksum".toList] [] false [] path)
      [⟨["cksum".toList, path], []⟩] := h.remote.ends hcksum.1
  have hcompare (run : List Simple) : Steps g (ready [] [] false run) " test \"$1\" = ".toList
      (ready ("test".toList :: ((fields ((g.param '1').map (·, .quoted)) true).flatMap (pathnames g) ++
        ["=".toList])) [] false run) := fun _ => rfl
  have hline := ((hopen.trans (steps_bare_substitution (hinner.trans h.remote.steps) hcksum_ends)).trans
    (ends_word hset.1 _ _).steps).trans ((hcompare _).trans (plainWord_decimal n).steps)
  rw [hstatus.eq, ← List.append_assoc (_ ++ (" test \"$1\" = ".toList ++ decimal n))]
  refine confined_of_steps hline ((plainWord_decimal n).ends htest.1)
    (echoes_status g hstatus.tame hstatus.starts) fun s hs => ?_
  obtain rfl | hs := List.mem_cons.mp hs
  · exact @files_of_options _ hcksum.2 [] _ _ (List.forall_mem_nil _)
      (under_one (under_path hsafe)) (List.forall_mem_nil _)
  obtain rfl | hs := List.mem_cons.mp hs
  · exact files_of_targets hset.2 (List.forall_mem_nil _)
  · obtain rfl := List.mem_singleton.mp hs
    exact files_of_targets htest.2 (List.forall_mem_nil _)

/-- The last line prints the size of the file, too. -/
theorem echoes_bytes (g : Guest) (n : ℕ) : Echoes g (" echo ".toList ++
    "DVM_UPLOAD_FINAL_RC=".toList ++ "$? ".toList ++ ("DVM_UPLOAD_BYTES=".toList ++ decimal n)) := by
  intro run
  have hmark : Tame "DVM_UPLOAD_FINAL_RC=".toList ∧ Starts "DVM_UPLOAD_FINAL_RC=".toList := by decide
  have hbytes : PlainWord ("DVM_UPLOAD_BYTES=".toList ++ decimal n) :=
    PlainWord.append ⟨by decide, by decide⟩ (plainWord_decimal n).plain
  have hecho : Steps g (ready [] [] false run) " echo ".toList
      (ready ["echo".toList] [] false run) := fun _ => rfl
  have hstatus : Steps g (reading ["echo".toList] [] false run "DVM_UPLOAD_FINAL_RC=".toList)
      "$? ".toList (ready ("echo".toList :: (fields (bare "DVM_UPLOAD_FINAL_RC=".toList ++
        (g.param '?').map (·, .expanded)) false).flatMap (pathnames g)) [] false run) := fun _ => rfl
  exact ⟨_, _, (((hecho.trans (steps_word hmark.1 hmark.2)).trans hstatus).trans hbytes.steps),
    hbytes.ends named_echo⟩

/-- `/bin/rm -f` and `/bin/rmdir` remove the text and the parts. -/
theorem confined_cleanup (hsafe : remotePathIsSafe path = true) (h : PlainWords path) (n : ℕ) :
    Confined g [[':'], "/bin/rm".toList, "/bin/rmdir".toList, "echo".toList]
      ("/bin/rm -f ".toList ++ (encodedPath path ++ [' '] ++ partGlob path) ++ [';'] ++
        (" /bin/rmdir ".toList ++ partDir path) ++ [';'] ++ (" echo ".toList ++
          "DVM_UPLOAD_FINAL_RC=".toList ++ "$? ".toList ++
            ("DVM_UPLOAD_BYTES=".toList ++ decimal n))) := by
  have hrm : Named "/bin/rm".toList ∧ "/bin/rm".toList ∉ noFiles := by decide
  have hrmdir : Named "/bin/rmdir".toList ∧ "/bin/rmdir".toList ∉ noFiles := by decide
  have hoptions : ∀ w ∈ ["-f".toList], w.head? = some '-' := by decide
  have hglob := tame_partGlob h
  have hrm_open : Steps g (ready [] [] false [guard]) "/bin/rm -f ".toList
      (ready ["/bin/rm".toList, "-f".toList] [] false [guard]) := fun _ => rfl
  have hrm_ends := @ends_reading g _ ["-f".toList, encodedPath path] [] [guard] _ hrm.1 hglob.2
  have hrmdir_open (run : List Simple) : Steps g (ready [] [] false run) " /bin/rmdir ".toList
      (ready ["/bin/rmdir".toList] [] false run) := fun _ => rfl
  have hline := ((hrm_open.trans (h.encoded.steps_next.trans (steps_word hglob.1 hglob.2))).trans
    hrm_ends.steps).trans ((hrmdir_open _).trans h.parts.steps)
  refine confined_of_steps hline (h.parts.ends hrmdir.1) (echoes_bytes g n) fun s hs => ?_
  obtain rfl | hs := List.mem_cons.mp hs
  · exact @files_of_options _ hrm.2 ["-f".toList] (encodedPath path :: _) _ hoptions
      (List.forall_mem_cons.mpr ⟨under_encodedPath hsafe, under_partGlob hsafe h.parts.plain⟩)
      (List.forall_mem_nil _)
  · obtain rfl := List.mem_singleton.mp hs
    exact @files_of_options _ hrmdir.2 [] _ _ (List.forall_mem_nil _)
      (under_one (under_partDir hsafe)) (List.forall_mem_nil _)

/-- A part line writes the chunk between its quotes to the part, and reads the part. -/
theorem read_part (h : PlainWords path) {chunk : Text} (hchunk : '\x27' ∉ chunk) (number : ℕ) :
    read g (": :; ".toList ++ partCommand path chunk number ++ ['\n']) = some [guard,
      ⟨["printf".toList, "%s".toList, chunk], [partPath path number]⟩,
      ⟨["/bin/cksum".toList, partPath path number], []⟩] := by
  have hprintf : Named "printf".toList := by decide
  have hcksum : Named "/bin/cksum".toList := by decide
  have hopen : Steps g (ready [] [] false [guard]) "printf '%s' '".toList
      ⟨.single, some ([], true), ["printf".toList, "%s".toList], [], false, [guard]⟩ := fun _ => rfl
  have hclose (w : Word) : Steps g
      ⟨.single, some (w, true), ["printf".toList, "%s".toList], [], false, [guard]⟩ "' > ".toList
      (ready ("printf".toList :: ("%s".toList :: (fields w true).flatMap (pathnames g))) [] true
        [guard]) := fun _ => rfl
  have hread (run : List Simple) : Steps g (ready [] [] false run) " /bin/cksum ".toList
      (ready ["/bin/cksum".toList] [] false run) := fun _ => rfl
  have hwrite := ((hopen.trans (steps_single hchunk [])).trans (hclose _)).trans (h.part number).steps
  have hline := (steps_guard g).trans ((hwrite.trans (ends_redirecting hprintf).steps).trans
    ((hread _).trans (h.part number).steps))
  have hrun := ((h.part number).ends hcksum).read hline
  have hlit : "; /bin/cksum ".toList = [';'] ++ " /bin/cksum ".toList := by decide
  have htext : ": :; ".toList ++ partCommand path chunk number ++ ['\n'] =
      ": :; ".toList ++ ("printf '%s' '".toList ++ chunk ++ "' > ".toList ++ partPath path number ++
        [';'] ++ (" /bin/cksum ".toList ++ partPath path number)) ++ ['\n'] := by
    unfold partCommand
    rw [hlit]
    simp only [List.append_assoc]
  rw [List.nil_append, fields_quoted, List.flatMap_singleton, pathnames_quoted, ← htext] at hrun
  exact hrun

/-- `printf` writes a part, and `/bin/cksum` reads it. -/
theorem confined_part (hsafe : remotePathIsSafe path = true) (h : PlainWords path) {chunk : Text}
    (hchunk : '\x27' ∉ chunk) (number : ℕ) :
    Confined g partNames (partCommand path chunk number) := by
  have hprintf : "printf".toList ∈ noFiles := by decide
  have hcksum : "/bin/cksum".toList ∉ noFiles := by decide
  refine ⟨_, read_part h hchunk number, rfl, List.forall_mem_cons.mpr ⟨?_, List.forall_mem_cons.mpr
    ⟨?_, List.forall_mem_singleton.mpr ?_⟩⟩⟩
  · exact fun p hp => absurd hp List.not_mem_nil
  · exact files_of_targets hprintf (under_one (under_partPath hsafe number))
  · exact @files_of_options _ hcksum [] _ _ (List.forall_mem_nil _)
      (under_one (under_partPath hsafe number)) (List.forall_mem_nil _)

end

/-- Every line of an upload to a safe path of characters that mean nothing to the shell runs the
commands of its template, on files of the staging namespaces. -/
theorem confinement (g : Guest) (cksum : Bytes → UInt32) {path : Text}
    (hsafe : remotePathIsSafe path = true) (hplain : Plain path) (blob : Bytes) :
    List.Forall₂ (fun names e => Confined g names e.command) setupNames (setup path) ∧
      (∀ e ∈ parts cksum path (fileChunks path blob), Confined g partNames e.command) ∧
        List.Forall₂ (fun names e => Confined g names e.command) finishNames
          (finish cksum path blob) := by
  have h := plainWords hsafe hplain
  have hblank : " ".toList = [' '] := by decide
  refine ⟨?_, ?_, ?_⟩
  · have hdir := confined_setup_dir (g := g) hsafe h
    have htarget := confined_setup_target (g := g) hsafe h
    have hparts := confined_setup_parts (g := g) hsafe h
    simp only [List.append_assoc] at hdir htarget hparts
    unfold setup
    simp only [List.append_assoc, hblank]
    exact .cons hdir (.cons htarget (.cons hparts .nil))
  · intro e he
    obtain ⟨i, hi, rfl⟩ := List.mem_mapIdx.mp he
    have hquote : '\x27' ∉ '=' :: base64Alphabet := by decide +kernel
    exact confined_part hsafe h (fun hmem => hquote (fileChunks_subset (List.getElem_mem hi) hmem))
      (i + 1)
  · have hjoin := confined_join (g := g) hsafe h
    have hdecode := confined_decode (g := g) hsafe h
    have hsize := confined_size (g := g) hsafe h blob.length
    have hsum := confined_cksum (g := g) hsafe h (cksum blob).toNat
    have hclean := confined_cleanup (g := g) hsafe h blob.length
    have hwc : "test \"$(wc -c < ".toList = "test \"".toList ++ ("$(".toList ++ "wc -c < ".toList) := by
      decide
    have heq : ")\" -eq ".toList = [')'] ++ "\" -eq ".toList := by decide
    have hset : "set -- $(cksum ".toList = "set -- ".toList ++ ("$(".toList ++ "cksum ".toList) := by
      decide
    have htest : "); test \"$1\" = ".toList = [')'] ++ ([';'] ++ " test \"$1\" = ".toList) := by decide
    have hrmdir : "; /bin/rmdir ".toList = [';'] ++ " /bin/rmdir ".toList := by decide
    have hfinal : "; echo DVM_UPLOAD_FINAL_RC=$? DVM_UPLOAD_BYTES=".toList =
        [';'] ++ (" echo ".toList ++ ("DVM_UPLOAD_FINAL_RC=".toList ++
          ("$? ".toList ++ "DVM_UPLOAD_BYTES=".toList))) := by decide
    simp only [List.append_assoc] at hjoin hdecode hsize hsum hclean
    unfold finish
    simp only [List.append_assoc, hblank, hwc, heq, hset, htest, hrmdir, hfinal]
    exact .cons hjoin (.cons hdecode (.cons hsize (.cons hsum (.cons hclean .nil))))

/-- A guest with some names in each directory, and a value for all parameters. -/
def someGuest : Guest where
  entries _ := ["private", "var", ".dvm-data-seed", "dev", ".."].map String.toList
  noSlash := fun _ => by decide
  param _ := " /dev".toList
  output _ := []

theorem plain_plainPath : Plain plainPath := by decide +kernel

/-- A name in the shorter namespace, without characters that mean something to the shell. -/
theorem confinement_plain : remotePathIsSafe plainPath = true ∧ Plain plainPath ∧
    List.Forall₂ (fun names e => Confined someGuest names e.command) setupNames (setup plainPath) ∧
      (∀ e ∈ parts posixCksum plainPath (fileChunks plainPath [104, 105]),
        Confined someGuest partNames e.command) ∧
          List.Forall₂ (fun names e => Confined someGuest names e.command) finishNames
            (finish posixCksum plainPath [104, 105]) := by
  have hsafe : remotePathIsSafe plainPath = true := by decide +kernel
  have hplain : Plain plainPath := by decide +kernel
  exact ⟨hsafe, hplain, confinement someGuest posixCksum hsafe hplain [104, 105]⟩

/-! ## The characters that are excluded -/

/-- A line runs a command that is not in its template, or names a file outside of the staging
namespaces. -/
def Escapes (g : Guest) (names : List Text) (command : Text) : Prop :=
  ∃ run ∈ read g (": :; ".toList ++ command ++ ['\n']),
    ∃ s ∈ run, s.argv.headD [] ∉ names ∨ ∃ p ∈ files s, ¬Under p

instance : DecidablePred Under := fun _ => inferInstanceAs (Decidable (_ ∧ _))

instance (g : Guest) (names : List Text) (command : Text) : Decidable (Escapes g names command) :=
  inferInstanceAs (Decidable (∃ run ∈ _, _))

/-- A line that escapes is not confined. -/
theorem Escapes.not_confined {g : Guest} {names : List Text} {command : Text}
    (h : Escapes g names command) : ¬Confined g names command := by
  rintro ⟨run, hread, rfl, hfiles⟩
  obtain ⟨run', hread', s, hs, hescapes⟩ := h
  obtain rfl : run = run' := Option.some.inj (hread.symm.trans hread')
  obtain hname | ⟨p, hp, hunder⟩ := hescapes
  · exact hname (List.mem_map_of_mem hs)
  · exact hunder (hfiles s hs p hp)

/-- A path with a second command in it. -/
def commandPath : Text := "/private/var/.dvm-data-seed/x; reboot".toList

/-- The line that removes the remote file runs the second command. -/
theorem not_confinement : ¬∀ g cksum path, remotePathIsSafe path = true → ∀ blob,
    List.Forall₂ (fun names e => Confined g names e.command) setupNames (setup path) ∧
      (∀ e ∈ parts cksum path (fileChunks path blob), Confined g partNames e.command) ∧
        List.Forall₂ (fun names e => Confined g names e.command) finishNames
          (finish cksum path blob) := by
  intro h
  have hsetup := (h someGuest posixCksum commandPath (by decide +kernel) []).1
  have hescapes : ∃ l ∈ setupNames.zip (setup commandPath),
      Escapes someGuest l.1 l.2.command := by decide +kernel
  obtain ⟨⟨names, e⟩, hmem, he⟩ := hescapes
  exact he.not_confined (List.forall₂_zip hsetup hmem)

/-- A name that is taken apart at a character. -/
def escaping (c : Char) : Text :=
  match c with
  | '\x27' | '\x22' => ['.', c, '.', c, '/', 'd', 'e', 'v']
  | '\x5c' => ['.', c, '.', '/', 'd', 'e', 'v']
  | '*' | '?' => ['.', c, '/', 'd', 'e', 'v']
  | '$' => ['a', c, '1']
  | _ => ['a', c, '/', 'd', 'e', 'v']

/-- No other character can be allowed in a path: with each of them, and characters that mean nothing
to the shell, there is an accepted path that escapes. -/
theorem exists_escapes : ∀ c ∈ [' ', '\t', '\n', ';', '&', '|', '<', '>', '\x27', '\x22', '\x5c', '$',
      '*', '?'], ∃ path, remotePathIsSafe path = true ∧
        (∀ d ∈ path, d = c ∨ d ∉ special ∧ d ≠ '*' ∧ d ≠ '?') ∧
          ∃ l ∈ setupNames.zip (setup path), Escapes someGuest l.1 l.2.command := by
  intro c hc
  refine ⟨"/private/var/.dvm-data-seed/".toList ++ escaping c, ?_⟩
  revert c
  decide +kernel

end DarwinVm.Serial
