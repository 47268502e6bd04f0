import DarwinVm.Lib.Dict
import DarwinVm.Lib.Escape
import DarwinVm.Lib.Tree

/-!
# The command line of a running process

`process_argv_env` of `tools/checkpoint_common.py`: the arguments and the environment of a process,
read from the two files of `/proc` on Linux (`procArgvEnv`) and from the `KERN_PROCARGS2` buffer on
macOS (`procargs2ArgvEnv`). Arguments and environment may be any bytes but NUL (`Process`), and a
`Layout` is the way in which a host lays them out.

Both readers take empty strings for padding somewhere. `processArgvEnv_iff` says when they are exact.
-/

namespace DarwinVm.Checkpoint

/-- The equals sign. -/
def equals : UInt8 := 61

/-- An environment, in the order of its items. -/
abbrev Environ := List (EscapedText × EscapedText)

/-- `RuntimeError` -/
inductive ProcessError
  /-- `"kern.procargs2 returned a short buffer"` -/
  | short
  /-- `"unterminated kern.procargs2 string"` -/
  | unterminated
  deriving DecidableEq

/-! ## Linux -/

/-- `text.split("=", 1)` of a text with an equals sign in it. -/
def cutText (t : EscapedText) : EscapedText × EscapedText :=
  let sign := Escaped.char (Char.ofNat equals.toNat)
  (t.takeWhile (· ≠ sign), (t.dropWhile (· ≠ sign)).drop 1)

/-- The arguments and the environment in the bytes of `cmdline` and of `environ`. -/
def procArgvEnv (cmdline environ : Bytes) : List EscapedText × Environ :=
  (((cmdline.splitOn 0).filter (· ≠ [])).map decodeEscape,
    setItems [] (((environ.splitOn 0).filter (equals ∈ ·)).map fun x => cutText (decodeEscape x)))

/-! ## macOS -/

/-- `take_string`, with the bytes of the buffer from `pos` on: the string, and the bytes after it. -/
def takeString (s : Bytes) : Except ProcessError (Bytes × Bytes) :=
  if 0 ∈ s then .ok (cText s, s.drop ((cText s).length + 1)) else .error .unterminated

/-- `while pos < len(raw) and raw[pos] == 0: pos += 1` -/
def skipNuls (s : Bytes) : Bytes := s.dropWhile (· = 0)

/-- `item.split(b"=", 1)` of an item with an equals sign in it. -/
def cutItem (item : Bytes) : Bytes × Bytes :=
  (item.takeWhile (· ≠ equals), (item.dropWhile (· ≠ equals)).drop 1)

/-- A key and a value, both decoded. -/
def decodePair : Bytes × Bytes → EscapedText × EscapedText := Prod.map decodeEscape decodeEscape

/-- `env` after an item. -/
def addItem (env : Environ) (item : Bytes) : Environ :=
  if equals ∈ item then setItem env (decodePair (cutItem item)) else env

/-- The loop over the items of the environment. Each takes at least one byte. -/
def readItems : ℕ → Bytes → Environ → Except ProcessError Environ
  | _, [], env => .ok env
  | 0, _ :: _, env => .ok env
  | k + 1, b :: s, env => do
    let (item, rest) ← takeString (b :: s)
    if item = [] then .ok env else readItems k rest (addItem env item)

/-- `struct.unpack_from("=i", raw)[0]`, as the number of turns of `range(argc)`. -/
def argumentCount (raw : Bytes) : ℕ :=
  let word := leNat (raw.take 4)
  if word < 2 ^ 31 then word else 0

/-- The arguments and the environment in the buffer of `KERN_PROCARGS2`. -/
def procargs2ArgvEnv (raw : Bytes) : Except ProcessError (List EscapedText × Environ) := do
  if raw.length < 4 then .error .short
  else
    let (_, s) ← takeString (raw.drop 4)
    let (argv, s) ← readMany takeString (argumentCount raw) (skipNuls s)
    let s := skipNuls s
    let env ← readItems s.length s []
    .ok (argv.map decodeEscape, env)

/-- What a host says of a process. -/
inductive Host
  | linux (cmdline environ : Bytes)
  | darwin (raw : Bytes)

/-- `process_argv_env` -/
def processArgvEnv : Host → Except ProcessError (List EscapedText × Environ)
  | .linux cmdline environ => .ok (procArgvEnv cmdline environ)
  | .darwin raw => procargs2ArgvEnv raw

/-! ## Processes and their layouts -/

/-- A process: at least one argument, as many as an `int` can count, and an environment with different
keys that are not empty. -/
structure Process where
  args : List Bytes
  env : List (Bytes × Bytes)
  args_ne_nil : args ≠ []
  length_args_lt : args.length < 2 ^ 31
  nul_notMem_args : ∀ a ∈ args, 0 ∉ a
  keys : ∀ e ∈ env, e.1 ≠ [] ∧ equals ∉ e.1 ∧ 0 ∉ e.1 ∧ 0 ∉ e.2
  nodup_keys : (env.map Prod.fst).Nodup

/-- The arguments of a process as Python has them. -/
def Process.argv (p : Process) : List EscapedText := p.args.map decodeEscape

/-- The environment of a process as Python has it. -/
def Process.environ (p : Process) : Environ := p.env.map decodePair

/-- Strings, each with its NUL. -/
def strings (l : List Bytes) : Bytes := l.flatMap (· ++ [0])

/-- The item of a key and its value. -/
def item (e : Bytes × Bytes) : Bytes := e.1 ++ equals :: e.2

/-- The buffer of `KERN_PROCARGS2` around the arguments and the environment: the path and its
padding, the NULs that separate the parts, and the strings that the kernel adds. -/
structure Buffer where
  path : Bytes
  padding : ℕ
  gap : ℕ
  separator : ℕ
  apple : List Bytes
  trailing : ℕ
  nul_notMem_path : 0 ∉ path
  apple_strings : ∀ a ∈ apple, a ≠ [] ∧ 0 ∉ a

/-- The part of the buffer after the environment. -/
def Buffer.tail (b : Buffer) : Bytes :=
  List.replicate b.separator 0 ++ (strings b.apple ++ List.replicate b.trailing 0)

/-- The buffer of a process. -/
def Buffer.raw (b : Buffer) (p : Process) : Bytes :=
  leBytes 4 p.args.length ++ (b.path ++ 0 :: (List.replicate b.padding 0 ++ (strings p.args ++
    (List.replicate b.gap 0 ++ (strings (p.env.map item) ++ b.tail)))))

/-- How a host lays out a process. -/
inductive Layout
  | linux
  | darwin (b : Buffer)

/-- A process on a host. -/
def Layout.host (p : Process) : Layout → Host
  | .linux => .linux (strings p.args) (strings (p.env.map item))
  | .darwin b => .darwin (b.raw p)

/-- The items among strings that the kernel adds. -/
def appleItems (apple : List Bytes) : List (Bytes × Bytes) :=
  (apple.filter (equals ∈ ·)).map cutItem

/-- The kernel's strings do not come into the environment: they are separated from one that is not
empty, or their items leave it as it is. -/
def Buffer.KeepsEnviron (b : Buffer) (p : Process) : Prop :=
  p.env ≠ [] ∧ 0 < b.separator ∨ setItems p.env (appleItems b.apple) = p.env

/-- On Linux no argument is empty. On macOS the first one is not, and the environment is kept. -/
def Layout.Exact (p : Process) : Layout → Prop
  | .linux => [] ∉ p.args
  | .darwin b => p.args.head? ≠ some [] ∧ b.KeepsEnviron p

/-! ## Strings and items -/

theorem splitOn_strings : ∀ {l : List Bytes}, (∀ a ∈ l, 0 ∉ a) → (strings l).splitOn 0 = l ++ [[]]
  | [], _ => rfl
  | a :: l, h => by
    rw [List.forall_mem_cons] at h
    rw [strings, List.flatMap_cons, List.append_assoc, List.singleton_append, ← strings,
      List.splitOn_append_cons_self_of_not_mem h.1, splitOn_strings h.2, List.cons_append]

/-- The sign cuts an item into its key and its value. -/
theorem cut_append {α : Type} [DecidableEq α] {sign : α} {key : List α} (h : sign ∉ key)
    (value : List α) :
    (key ++ sign :: value).takeWhile (· ≠ sign) = key ∧
      ((key ++ sign :: value).dropWhile (· ≠ sign)).drop 1 = value := by
  have hkey : ∀ x ∈ key, decide (x ≠ sign) = true := by
    intro x hx
    rw [decide_eq_true_iff]
    rintro rfl
    exact h hx
  rw [List.takeWhile_append_of_pos hkey, List.dropWhile_append_of_pos hkey,
    List.takeWhile_cons_of_neg (by simp), List.dropWhile_cons_of_neg (by simp), List.append_nil]
  exact ⟨rfl, rfl⟩

theorem cutItem_item {e : Bytes × Bytes} (h : equals ∉ e.1) : cutItem (item e) = e := by
  obtain ⟨hkey, hvalue⟩ := cut_append h e.2
  exact Prod.ext hkey hvalue

theorem equals_mem_item (e : Bytes × Bytes) : equals ∈ item e :=
  List.mem_append_right _ (List.mem_cons_self ..)

/-- An item is cut in the same place before and after it is decoded. -/
theorem cutText_item {e : Bytes × Bytes} (h : equals ∉ e.1) :
    cutText (decodeEscape (item e)) = decodePair e := by
  have hsign : Escaped.char (Char.ofNat equals.toNat) ∉ decodeEscape e.1 :=
    fun hmem => h (mem_of_char_mem (by decide) hmem)
  obtain ⟨hkey, hvalue⟩ := cut_append hsign (decodeEscape e.2)
  rw [item, decodeEscape_append_cons (by decide)]
  exact Prod.ext hkey hvalue

/-- Items with different keys make up the environment. -/
theorem Process.setItems_environ (p : Process) : setItems [] p.environ = p.environ := by
  rw [setItems_of_nodup, List.nil_append]
  rw [List.nil_append, Process.environ, List.map_map]
  have hkeys : (p.env.map (Prod.fst ∘ decodePair)) = (p.env.map Prod.fst).map decodeEscape := by
    rw [List.map_map]
    rfl
  rw [hkeys]
  exact p.nodup_keys.map decodeEscape_injective

theorem Process.nul_notMem_items (p : Process) : ∀ x ∈ p.env.map item, x ≠ [] ∧ 0 ∉ x := by
  intro x hx
  obtain ⟨e, he, rfl⟩ := List.mem_map.mp hx
  obtain ⟨hne, -, hkey, hvalue⟩ := p.keys e he
  refine ⟨fun h => hne (List.append_eq_nil_iff.mp h).1, ?_⟩
  rw [item, List.mem_append, List.mem_cons, not_or, not_or]
  exact ⟨hkey, by decide, hvalue⟩

/-- The environment is read exactly on Linux. -/
theorem procArgvEnv_environ (p : Process) (cmdline : Bytes) :
    (procArgvEnv cmdline (strings (p.env.map item))).2 = p.environ := by
  unfold procArgvEnv
  dsimp only
  have hall : ∀ x ∈ p.env.map item, decide (equals ∈ x) = true := by
    intro x hx
    obtain ⟨e, -, rfl⟩ := List.mem_map.mp hx
    exact decide_eq_true (equals_mem_item e)
  have hcut : (p.env.map item).map (fun x => cutText (decodeEscape x)) = p.environ := by
    rw [List.map_map]
    exact List.map_congr_left fun e he => cutText_item (p.keys e he).2.1
  rw [splitOn_strings fun x hx => (p.nul_notMem_items x hx).2, List.filter_append,
    List.filter_eq_self.mpr hall, List.filter_cons_of_neg (by decide), List.filter_nil,
    List.append_nil, hcut, p.setItems_environ]

/-- The arguments are read exactly on Linux if none is empty. -/
theorem procArgvEnv_argv_iff (p : Process) (environ : Bytes) :
    (procArgvEnv (strings p.args) environ).1 = p.argv ↔ [] ∉ p.args := by
  unfold procArgvEnv Process.argv
  dsimp only
  rw [(List.map_injective_iff.mpr decodeEscape_injective).eq_iff, splitOn_strings p.nul_notMem_args,
    List.filter_append, List.filter_cons_of_neg (by decide), List.filter_nil, List.append_nil,
    List.filter_eq_self]
  constructor
  · intro h hmem
    exact absurd (h [] hmem) (by decide)
  · rintro h a ha
    rw [decide_eq_true_iff]
    rintro rfl
    exact h ha

/-! ## Reading the buffer -/

theorem cText_append {x : Bytes} (h : 0 ∉ x) (r : Bytes) : cText (x ++ 0 :: r) = x := by
  have hx : ∀ b ∈ x, decide (b ≠ 0) = true := by
    intro b hb
    rw [decide_eq_true_iff]
    rintro rfl
    exact h hb
  rw [cText, List.takeWhile_append_of_pos hx, List.takeWhile_cons_of_neg (by decide), List.append_nil]

/-- A string is taken with its NUL. -/
theorem takeString_append {x : Bytes} (h : 0 ∉ x) (r : Bytes) :
    takeString (x ++ 0 :: r) = .ok (x, r) := by
  have hdrop : (x ++ 0 :: r).drop (x.length + 1) = r := by
    rw [← List.drop_drop, List.drop_left, List.drop_one, List.tail_cons]
  rw [takeString, if_pos (List.mem_append_right x (List.mem_cons_self ..)), cText_append h, hdrop]

theorem readMany_strings (r : Bytes) : ∀ {l : List Bytes}, (∀ a ∈ l, 0 ∉ a) →
    readMany takeString l.length (strings l ++ r) = .ok (l, r)
  | [], _ => rfl
  | a :: l, h => by
    rw [List.forall_mem_cons] at h
    have hcons : strings (a :: l) ++ r = a ++ 0 :: (strings l ++ r) := by
      rw [strings, List.flatMap_cons, List.append_assoc, List.append_assoc]
      rfl
    rw [hcons, List.length_cons, readMany, takeString_append h.1]
    simp only [bind, Except.bind, readMany_strings r h.2]

theorem skipNuls_replicate (n : ℕ) (s : Bytes) : skipNuls (List.replicate n 0 ++ s) = skipNuls s := by
  rw [skipNuls, List.dropWhile_append_of_pos]
  · rfl
  · intro b hb
    rw [List.eq_of_mem_replicate hb]
    rfl

/-- Strings of which the first is not empty start with no NUL. -/
theorem skipNuls_strings {a : Bytes} (ha : a ≠ []) (hnul : 0 ∉ a) (l : List Bytes) (r : Bytes) :
    skipNuls (strings (a :: l) ++ r) = strings (a :: l) ++ r := by
  obtain ⟨b, t, rfl⟩ := List.exists_cons_of_ne_nil ha
  have hb : b ≠ 0 := fun h => hnul (h ▸ List.mem_cons_self ..)
  rw [strings, List.flatMap_cons, List.cons_append, List.cons_append, List.cons_append, skipNuls,
    List.dropWhile_cons_of_neg (by simp [hb])]

/-- More turns than bytes make no difference. -/
theorem readItems_eq_of_le : ∀ {k k' : ℕ} {s : Bytes} (env : Environ), s.length ≤ k →
    s.length ≤ k' → readItems k s env = readItems k' s env
  | 0, _, [], _, _, _ | _ + 1, 0, [], _, _, _ | _ + 1, _ + 1, [], _, _, _ => by
    simp only [readItems]
  | k + 1, k' + 1, b :: s, env, h, h' => by
    rw [List.length_cons, Nat.succ_le_succ_iff] at h h'
    unfold readItems
    cases htake : takeString (b :: s) with
    | error e => rfl
    | ok r =>
      have hlen : r.2.length ≤ s.length := by
        unfold takeString at htake
        split_ifs at htake
        obtain rfl := Except.ok.inj htake
        rw [List.length_drop, List.length_cons]
        omega
      simp only [bind, Except.bind]
      split_ifs
      · rfl
      · exact readItems_eq_of_le _ (hlen.trans h) (hlen.trans h')

/-- The items of the environment, one after the other. -/
theorem readItems_strings (r : Bytes) : ∀ {l : List Bytes} (env : Environ),
    (∀ x ∈ l, x ≠ [] ∧ 0 ∉ x) → readItems (strings l ++ r).length (strings l ++ r) env =
      readItems r.length r (l.foldl addItem env)
  | [], _, _ => rfl
  | x :: l, env, h => by
    rw [List.forall_mem_cons] at h
    obtain ⟨b, t, hx⟩ := List.exists_cons_of_ne_nil h.1.1
    have hcons : strings (x :: l) ++ r = x ++ 0 :: (strings l ++ r) := by
      rw [strings, List.flatMap_cons, List.append_assoc, List.append_assoc]
      rfl
    have htake := takeString_append h.1.2 (strings l ++ r)
    rw [hcons]
    rw [hx, List.cons_append] at htake ⊢
    rw [List.length_cons, readItems, htake]
    simp only [bind, Except.bind]
    rw [if_neg (List.cons_ne_nil b t), ← hx, List.foldl_cons, ← readItems_strings r _ h.2]
    refine readItems_eq_of_le _ ?_ le_rfl
    rw [List.length_append, List.length_append, List.length_cons, List.length_append]
    omega

/-- The environment ends at an empty string. -/
theorem readItems_nul (s : Bytes) (env : Environ) : readItems (0 :: s).length (0 :: s) env = .ok env := by
  have htake : takeString (0 :: s) = .ok ([], s) := takeString_append (List.not_mem_nil) s
  rw [List.length_cons, readItems, htake]
  rfl

theorem readItems_replicate (n : ℕ) (env : Environ) :
    readItems (List.replicate n (0 : UInt8)).length (List.replicate n 0) env = .ok env := by
  cases n with
  | zero => rfl
  | succ n => exact readItems_nul _ env

theorem foldl_addItem (env : Environ) : ∀ apple : List Bytes,
    apple.foldl addItem env = setItems env ((appleItems apple).map decodePair) := by
  intro apple
  induction apple generalizing env with
  | nil => rfl
  | cons a apple ih =>
    rw [List.foldl_cons, ih, addItem, appleItems, appleItems]
    by_cases ha : equals ∈ a
    · rw [if_pos ha, List.filter_cons_of_pos (p := fun x => decide (equals ∈ x)) (decide_eq_true ha)]
      rfl
    · rw [if_neg ha, List.filter_cons_of_neg (p := fun x => decide (equals ∈ x))
        (by rwa [decide_eq_true_iff])]

/-- The items of the environment are the environment. -/
theorem foldl_environ (p : Process) : (p.env.map item).foldl addItem [] = p.environ := by
  have hitems : appleItems (p.env.map item) = p.env := by
    have hall : ∀ x ∈ p.env.map item, decide (equals ∈ x) = true := by
      intro x hx
      obtain ⟨e, -, rfl⟩ := List.mem_map.mp hx
      exact decide_eq_true (equals_mem_item e)
    rw [appleItems, List.filter_eq_self.mpr hall, List.map_map]
    exact (List.map_congr_left fun e he => cutItem_item (p.keys e he).2.1).trans (List.map_id _)
  rw [foldl_addItem, hitems]
  exact p.setItems_environ

/-- The environment that is read: that of the process, and what the kernel's strings make of it if
they are read too. -/
theorem readItems_tail (b : Buffer) (p : Process) :
    let s := skipNuls (List.replicate b.gap 0 ++ (strings (p.env.map item) ++ b.tail))
    readItems s.length s [] = .ok (if p.env ≠ [] ∧ 0 < b.separator then p.environ
      else setItems p.environ ((appleItems b.apple).map decodePair)) := by
  dsimp only
  have happle : readItems (strings b.apple ++ List.replicate b.trailing 0).length
      (strings b.apple ++ List.replicate b.trailing 0) p.environ =
      .ok (setItems p.environ ((appleItems b.apple).map decodePair)) := by
    rw [readItems_strings _ _ b.apple_strings, readItems_replicate, foldl_addItem]
  rw [skipNuls_replicate]
  cases henv : p.env with
  | nil =>
    -- Without an environment the kernel's strings stand where it would.
    have hempty : p.environ = [] := by
      rw [Process.environ, henv]
      rfl
    rw [if_neg (fun h => h.1 rfl), List.map_nil, Buffer.tail]
    rw [show strings [] = [] from rfl, List.nil_append, skipNuls_replicate]
    rw [hempty] at happle ⊢
    cases hlist : b.apple with
    | nil =>
      rw [show strings [] = [] from rfl, List.nil_append, ← List.append_nil (List.replicate _ _),
        skipNuls_replicate]
      rfl
    | cons a l =>
      obtain ⟨ha, hnul⟩ := b.apple_strings a (hlist ▸ List.mem_cons_self ..)
      rw [hlist] at happle
      rw [skipNuls_strings ha hnul, happle]
  | cons e env =>
    have hitems := p.nul_notMem_items
    have henviron := foldl_environ p
    rw [henv] at hitems henviron
    obtain ⟨he, hnul⟩ := hitems (item e) (List.mem_cons_self ..)
    rw [List.map_cons, skipNuls_strings he hnul, ← List.map_cons, readItems_strings _ _ hitems,
      henviron, Buffer.tail]
    cases b.separator with
    | zero =>
      rw [if_neg (fun h => absurd h.2 (lt_irrefl 0))]
      exact happle
    | succ n =>
      rw [if_pos ⟨List.cons_ne_nil e env, n.succ_pos⟩, List.replicate_succ, List.cons_append,
        readItems_nul]

/-- The arguments are read after the path, and the environment after them. -/
theorem procargs2ArgvEnv_raw (b : Buffer) (p : Process) :
    procargs2ArgvEnv (b.raw p) = (readMany takeString p.args.length (skipNuls (strings p.args ++
      (List.replicate b.gap 0 ++ (strings (p.env.map item) ++ b.tail))))).bind fun r =>
        (readItems (skipNuls r.2).length (skipNuls r.2) []).bind fun env =>
          .ok (r.1.map decodeEscape, env) := by
  have hlen : (leBytes 4 p.args.length).length = 4 := length_leBytes 4 _
  have hlt := p.length_args_lt
  have htake : (b.raw p).take 4 = leBytes 4 p.args.length := by
    rw [Buffer.raw, List.take_append_of_le_length hlen.ge, List.take_of_length_le hlen.le]
  have hcount : argumentCount (b.raw p) = p.args.length := by
    unfold argumentCount
    dsimp only
    rw [htake, leNat_leBytes_of_lt (by omega), if_pos hlt]
  have hdrop : (b.raw p).drop 4 = b.path ++ 0 :: (List.replicate b.padding 0 ++ (strings p.args ++
      (List.replicate b.gap 0 ++ (strings (p.env.map item) ++ b.tail)))) := by
    rw [Buffer.raw, List.drop_append_of_le_length hlen.ge, List.drop_eq_nil_of_le hlen.le,
      List.nil_append]
  have hshort : ¬(b.raw p).length < 4 := by
    rw [Buffer.raw, List.length_append, hlen]
    omega
  unfold procargs2ArgvEnv
  rw [if_neg hshort, hdrop, takeString_append b.nul_notMem_path, hcount]
  simp only [bind, Except.bind]
  rw [skipNuls_replicate]

/-- What is read if the first argument is not empty. -/
theorem procargs2ArgvEnv_of_head (b : Buffer) (p : Process) (h : p.args.head? ≠ some []) :
    procargs2ArgvEnv (b.raw p) = .ok (p.argv, if p.env ≠ [] ∧ 0 < b.separator then p.environ
      else setItems p.environ ((appleItems b.apple).map decodePair)) := by
  have hskip (r : Bytes) : skipNuls (strings p.args ++ r) = strings p.args ++ r := by
    obtain ⟨a, args, hargs⟩ := List.exists_cons_of_ne_nil p.args_ne_nil
    rw [hargs, List.head?_cons, ne_eq, Option.some.injEq] at h
    rw [hargs]
    exact skipNuls_strings h (p.nul_notMem_args a (hargs ▸ List.mem_cons_self ..)) args r
  rw [procargs2ArgvEnv_raw, hskip, readMany_strings _ p.nul_notMem_args, Except.bind,
    readItems_tail b p, Except.bind]
  rfl

/-- No empty string is taken after NULs have been skipped. -/
theorem takeString_skipNuls_ne_nil {s x t : Bytes} (h : takeString (skipNuls s) = .ok (x, t)) :
    x ≠ [] := by
  unfold takeString at h
  split_ifs at h with hmem
  obtain ⟨c, s', hs⟩ := List.exists_cons_of_ne_nil (List.ne_nil_of_mem hmem)
  have hc := List.head?_dropWhile_not (· = (0 : UInt8)) s
  rw [← skipNuls, hs, List.head?_cons] at hc
  have hc0 : c ≠ 0 := of_decide_eq_false hc
  obtain ⟨rfl, -⟩ := Prod.mk.inj (Except.ok.inj h)
  rw [hs, cText, List.takeWhile_cons_of_pos (by rwa [decide_eq_true_iff])]
  exact List.cons_ne_nil _ _

/-- An empty first argument is not read. -/
theorem argv_ne_of_head (b : Buffer) (p : Process) (h : p.args.head? = some [])
    {argv : List EscapedText} {env : Environ}
    (hread : procargs2ArgvEnv (b.raw p) = .ok (argv, env)) : argv ≠ p.argv := by
  obtain ⟨a, args, hargs⟩ := List.exists_cons_of_ne_nil p.args_ne_nil
  rw [hargs, List.head?_cons, Option.some.injEq] at h
  subst h
  rw [procargs2ArgvEnv_raw, bind_eq_ok] at hread
  obtain ⟨⟨l, s⟩, hl, hread⟩ := hread
  obtain ⟨_, -, hread⟩ := bind_eq_ok.mp hread
  obtain ⟨rfl, -⟩ := Prod.mk.inj (Except.ok.inj hread)
  rw [hargs, List.length_cons, readMany] at hl
  obtain ⟨⟨x, t⟩, hx, hl⟩ := bind_eq_ok.mp hl
  obtain ⟨⟨xs, t'⟩, -, hl⟩ := bind_eq_ok.mp hl
  obtain ⟨rfl, -⟩ := Prod.mk.inj (Except.ok.inj hl)
  have hne : x ≠ [] := takeString_skipNuls_ne_nil hx
  intro heq
  rw [Process.argv, hargs, List.map_cons, List.map_cons, List.cons.injEq, decodeEscape_inj] at heq
  exact hne heq.1

/-- A process is read exactly on Linux if no argument is empty, and on macOS if the first argument
is not empty and the kernel's strings do not come into the environment. -/
theorem processArgvEnv_iff (p : Process) (l : Layout) :
    processArgvEnv (l.host p) = .ok (p.argv, p.environ) ↔ l.Exact p := by
  cases l with
  | linux =>
    unfold Layout.host processArgvEnv Layout.Exact
    dsimp only
    rw [Except.ok.injEq, Prod.ext_iff, procArgvEnv_argv_iff, procArgvEnv_environ]
    exact and_iff_left rfl
  | darwin b =>
    unfold Layout.host processArgvEnv Layout.Exact
    dsimp only
    by_cases hhead : p.args.head? = some []
    · refine iff_of_false (fun h => argv_ne_of_head b p hhead h rfl) (fun h => h.1 hhead)
    · rw [procargs2ArgvEnv_of_head b p hhead, Except.ok.injEq, Prod.mk.injEq, and_iff_right rfl,
        and_iff_right hhead, Buffer.KeepsEnviron]
      split_ifs with hsep
      · exact iff_of_true rfl (Or.inl hsep)
      · have hmap : setItems p.environ ((appleItems b.apple).map decodePair) =
            (setItems p.env (appleItems b.apple)).map decodePair :=
          setItems_map decodeEscape_injective decodeEscape _ _
        have hinj : Function.Injective decodePair :=
          decodeEscape_injective.prodMap decodeEscape_injective
        rw [hmap, Process.environ, (List.map_injective_iff.mpr hinj).eq_iff, or_iff_right hsep]

/-- An argument that is empty is lost on Linux. -/
theorem not_processArgvEnv : ¬∀ (p : Process) (l : Layout),
    processArgvEnv (l.host p) = .ok (p.argv, p.environ) := by
  intro h
  let p : Process :=
    { args := [[97], [], [98]]
      env := []
      args_ne_nil := by decide
      length_args_lt := by decide
      nul_notMem_args := by decide
      keys := by decide
      nodup_keys := by decide }
  have hmem : [] ∉ p.args := (processArgvEnv_iff p .linux).mp (h p .linux)
  exact hmem (by decide)

end DarwinVm.Checkpoint
