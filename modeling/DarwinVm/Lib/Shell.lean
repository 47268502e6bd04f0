import DarwinVm.Lib.Decimal
import DarwinVm.Lib.Keyed

/-!
# Shell lines

What a POSIX shell makes of a line (`read`): the simple commands that it runs, with their words after
quote removal, parameter expansion, command substitution, field splitting and pathname expansion, and
the files of their redirections. The line is read character by character (`step`), with one `Frame`
for each command substitution that is open. What is not modelled gives none: compound commands and
functions, assignments, `&&`, `||`, `>>` and here-documents, comments, tildes, backquotes, bracket
patterns, and the other parameters.
-/

namespace DarwinVm.Shell

/-- Where a character of a word comes from. -/
inductive Origin
  | bare
  | quoted
  | expanded
  deriving DecidableEq

/-- The characters of a word. -/
abbrev Word := List (Char × Origin)

/-- A command, with its words and the files that its redirections open. -/
structure Simple where
  argv : List Text
  targets : List Text
  deriving DecidableEq

/-- What the shell finds when it expands the words of a line. -/
structure Guest where
  /-- The names in a directory, among them `.` and `..`. -/
  entries : Text → List Text
  /-- A name in a directory has no slash. -/
  noSlash : ∀ dir, ∀ name ∈ entries dir, '/' ∉ name
  /-- The value of a special or positional parameter. -/
  param : Char → Text
  /-- What commands print, without the newlines at the end. -/
  output : List Simple → Text

/-! ## Pathname expansion -/

/-- A character that stands for others in a pattern. -/
def active (c : Char × Origin) : Bool := c.2 ≠ .quoted ∧ (c.1 = '*' ∨ c.1 = '?')

/-- A name matches a pattern. -/
def matchName : Word → Text → Bool
  | [], t => t = []
  | c :: w, t =>
    if active c ∧ c.1 = '*' then t.tails.any (matchName w)
    else match t with
      | [] => false
      | d :: t => (active c ∨ c.1 = d) ∧ matchName w t

/-- The names in a directory that match a pattern. A dot at the start is matched by a dot only. -/
def matching (g : Guest) (dir : Text) (w : Word) : List Text :=
  (g.entries dir).filter fun name =>
    matchName w name ∧ (name.head? = some '.' → (w.map Prod.fst).head? = some '.')

/-- The pathnames that match the components of a pattern, after a directory. -/
def expandPath (g : Guest) : Text → List Word → List Text
  | dir, [] => [dir]
  | dir, [w] => if w = [] then [dir] else (matching g dir w).map (dir ++ ·)
  | dir, w :: ws =>
    if w = [] then expandPath g (dir ++ ['/']) ws
    else (matching g dir w).flatMap fun name => expandPath g (dir ++ name ++ ['/']) ws

/-- A field, or the pathnames that it matches if it is a pattern and matches any. -/
def pathnames (g : Guest) (w : Word) : List Text :=
  if w.any active then
    match sortByKey id (expandPath g [] (w.splitOnP (·.1 = '/'))) with
    | [] => [w.map Prod.fst]
    | paths => paths
  else [w.map Prod.fst]

/-- The fields of a word: it is split at the blanks that an expansion gave. A word with quotes is a
field even if it is empty. -/
def fields (w : Word) (quotes : Bool) : List Word :=
  let parts := (w.splitOnP fun c => c.2 = .expanded ∧ c.1 ∈ [' ', '\t', '\n']).filter (· ≠ [])
  if parts = [] ∧ quotes then [[]] else parts

/-! ## The reader -/

/-- What the next character is part of. In quotes of two strokes, `double` is true. -/
inductive Mode
  | bare
  | single
  | double
  | escaped (double : Bool)
  | dollar (double : Bool)
  deriving DecidableEq

/-- What was read of a line, or of a command substitution. -/
structure Frame where
  mode : Mode
  /-- The word that is read, and if it has quotes. -/
  word : Option (Word × Bool)
  /-- The words of the command. -/
  args : List Text
  /-- The files of the redirections of the command. -/
  targets : List Text
  /-- The next word is the file of a redirection. -/
  redirecting : Bool
  /-- The commands that were run. -/
  run : List Simple
  deriving DecidableEq

/-- Nothing was read. -/
def Frame.start : Frame := ⟨.bare, none, [], [], false, []⟩

/-- More characters of the word. -/
def Frame.push (f : Frame) (t : Text) (o : Origin) : Frame :=
  { f with word := some ((f.word.getD ([], false)).1 ++ t.map (·, o), (f.word.getD ([], false)).2) }

/-- A quote in the word. -/
def Frame.quote (f : Frame) : Frame :=
  { f with word := some ((f.word.getD ([], false)).1, true) }

/-- The mode after an escape or an expansion. -/
def Frame.resume (f : Frame) (double : Bool) : Frame :=
  { f with mode := if double then .double else .bare }

/-- The end of a word. -/
def endWord (g : Guest) (f : Frame) : Frame :=
  match f.word with
  | none => f
  | some (w, quotes) =>
    if f.redirecting then
      { f with word := none, redirecting := false, targets := f.targets ++ [w.map Prod.fst] }
    else { f with word := none, args := f.args ++ (fields w quotes).flatMap (pathnames g) }

/-- The words that start no simple command. -/
def reserved : List Text :=
  ["!", "\x7b", "\x7d", "case", "do", "done", "elif", "else", "esac", "fi", "for", "if", "in", "then",
    "until", "while"].map String.toList

/-- The end of a command. Only some may be empty. -/
def endCommand (g : Guest) (mayBeEmpty : Bool) (f : Frame) : Option Frame :=
  let f := endWord g f
  if f.redirecting then none
  else if f.args = [] ∧ f.targets = [] then if mayBeEmpty then some f else none
  else if f.args.head?.any fun name => name ∈ reserved ∨ '=' ∈ name then none
  else some { f with args := [], targets := [], run := f.run ++ [⟨f.args, f.targets⟩] }

/-- What commands print, in the place of their substitution. -/
def Frame.substitute (g : Guest) (f : Frame) (run : List Simple) : Frame :=
  Frame.push { f with run := f.run ++ run } (g.output run)
    (if f.mode = .double then .quoted else .expanded)

/-- The number of a file descriptor in front of a redirection. -/
def isNumber : Option (Word × Bool) → Bool
  | none => false
  | some (w, quotes) => ¬quotes ∧ w ≠ [] ∧ w.all fun c => c.2 = .bare ∧ c.1.isDigit

/-- A character outside of quotes. -/
def stepBare (g : Guest) (f : Frame) (fs : List Frame) (c : Char) : Option (Frame × List Frame) :=
  if c ∈ [' ', '\t'] then some (endWord g f, fs)
  else if c ∈ ['\n', ';', '&', '|'] then (endCommand g (c = '\n') f).map (·, fs)
  else if c ∈ ['<', '>'] then
    if isNumber f.word ∨ (endWord g f).redirecting then none
    else some ({ endWord g f with redirecting := true }, fs)
  else if c = '\x27' then some ({ f.quote with mode := .single }, fs)
  else if c = '\x22' then some ({ f.quote with mode := .double }, fs)
  else if c = '\x5c' then some ({ f with mode := .escaped false }, fs)
  else if c = '$' then some ({ f with mode := .dollar false }, fs)
  else if c = ')' then
    match fs with
    | [] => none
    | f' :: fs => (endCommand g true f).map fun f => (f'.substitute g f.run, fs)
  else if c ∈ ['\x60', '(', '['] ∨ c ∈ ['#', '~'] ∧ f.word = none then none
  else some (f.push [c] .bare, fs)

/-- One character of a line, with the frames of the open substitutions. -/
def step (g : Guest) : Frame × List Frame → Char → Option (Frame × List Frame)
  | (f, fs), c =>
    match f.mode with
    | .bare => stepBare g f fs c
    | .single => some (if c = '\x27' then f.resume false else f.push [c] .quoted, fs)
    | .double =>
      if c = '\x22' then some (f.resume false, fs)
      else if c = '\x5c' then some ({ f with mode := .escaped true }, fs)
      else if c = '$' then some ({ f with mode := .dollar true }, fs)
      else if c = '\x60' then none
      else some (f.push [c] .quoted, fs)
    | .escaped double =>
      if c = '\n' then some (f.resume double, fs)
      else if double ∧ c ∉ ['$', '\x60', '\x22', '\x5c'] then
        some ((f.resume double).push ['\x5c', c] .quoted, fs)
      else some ((f.resume double).push [c] .quoted, fs)
    | .dollar double =>
      if c = '(' then some (Frame.start, f.resume double :: fs)
      else if c ∈ "?#-$!0123456789".toList then
        some ((f.resume double).push (g.param c) (if double then .quoted else .expanded), fs)
      else none

/-- The commands that a line runs, in their order. -/
def read (g : Guest) (line : Text) : Option (List Simple) :=
  match line.foldlM (step g) (Frame.start, []) with
  | some (f, []) => if f.mode = .bare then (endCommand g true f).map Frame.run else none
  | _ => none

/-! ## Words without a meaning to the shell -/

/-- The characters that mean something in the middle of a word. -/
def special : List Char :=
  [' ', '\t', '\n', ';', '&', '|', '<', '>', '\x27', '\x22', '\x5c', '$', ')', '\x60', '(', '[']

/-- A text that is part of a word, and may be part of a pattern. -/
def Tame (t : Text) : Prop := ∀ c ∈ t, c ∉ special

/-- A text that is a part of a word and of no pattern. -/
def Plain (t : Text) : Prop := ∀ c ∈ t, c ∉ special ∧ c ≠ '*' ∧ c ≠ '?'

/-- A text that can start a word. -/
def Starts (t : Text) : Prop := t.head?.any fun c => c ≠ '#' ∧ c ≠ '~'

instance : DecidablePred Tame := fun t => inferInstanceAs (Decidable (∀ c ∈ t, c ∉ special))

instance : DecidablePred Plain :=
  fun t => inferInstanceAs (Decidable (∀ c ∈ t, c ∉ special ∧ c ≠ '*' ∧ c ≠ '?'))

instance : DecidablePred Starts :=
  fun t => inferInstanceAs (Decidable ((t.head?.any fun c => c ≠ '#' ∧ c ≠ '~') = true))

theorem Starts.exists_cons {t : Text} (h : Starts t) : ∃ c t', t = c :: t' ∧ c ≠ '#' ∧ c ≠ '~' := by
  match t with
  | [] => exact absurd h Bool.false_ne_true
  | c :: t => exact ⟨c, t, rfl, of_decide_eq_true h⟩

theorem Starts.ne_nil {t : Text} (h : Starts t) : t ≠ [] := by
  obtain ⟨c, t, rfl, -⟩ := h.exists_cons
  exact List.cons_ne_nil c t

theorem Plain.tame {t : Text} (h : Plain t) : Tame t := fun c hc => (h c hc).1

theorem Plain.append {t t' : Text} (h : Plain t) (h' : Plain t') : Plain (t ++ t') := fun c hc =>
  (List.mem_append.mp hc).elim (h c) (h' c)

theorem Tame.append {t t' : Text} (h : Tame t) (h' : Tame t') : Tame (t ++ t') := fun c hc =>
  (List.mem_append.mp hc).elim (h c) (h' c)

/-- A text goes on as it starts. -/
theorem Starts.of_start {t t' : Text} (h : Starts t) (h' : t <+: t') : Starts t' := by
  obtain ⟨c, t, rfl, -⟩ := h.exists_cons
  obtain ⟨s, rfl⟩ := h'
  exact h

/-- A text as it stands in a line. -/
def bare (t : Text) : Word := t.map (·, .bare)

theorem bare_append (t t' : Text) : bare (t ++ t') = bare t ++ bare t' := List.map_append

theorem map_fst_bare (t : Text) : (bare t).map Prod.fst = t := by
  rw [bare, List.map_map]
  exact List.map_id t

/-- A bare text is one field. -/
theorem fields_bare {t : Text} (ht : t ≠ []) (quotes : Bool) : fields (bare t) quotes = [bare t] := by
  have hsplit : (bare t).splitOnP (fun c => c.2 = .expanded ∧ c.1 ∈ [' ', '\t', '\n']) = [bare t] := by
    refine List.splitOnP_eq_singleton fun c hc => ?_
    obtain ⟨c, -, rfl⟩ := List.mem_map.mp hc
    exact decide_eq_false fun h => Origin.noConfusion h.1
  have hne : bare t ≠ [] := fun h => ht (List.map_eq_nil_iff.mp h)
  rw [fields, hsplit, List.filter_singleton]
  simp only [hne, ne_eq, not_false_eq_true, decide_true, cond_true, List.cons_ne_nil, false_and,
    if_false]

/-- A quoted text is one field, also when it is empty. -/
theorem fields_quoted (t : Text) :
    fields (t.map (·, .quoted)) true = [t.map (·, .quoted)] := by
  have hsplit : (t.map fun c => (c, Origin.quoted)).splitOnP
      (fun c => c.2 = .expanded ∧ c.1 ∈ [' ', '\t', '\n']) = [t.map (·, .quoted)] := by
    refine List.splitOnP_eq_singleton fun c hc => ?_
    obtain ⟨c, -, rfl⟩ := List.mem_map.mp hc
    exact decide_eq_false fun h => Origin.noConfusion h.1
  rw [fields, hsplit, List.filter_singleton]
  by_cases hnil : t.map (fun c => (c, Origin.quoted)) = []
  · simp only [hnil, ne_eq, not_true_eq_false, decide_false, cond_false, and_self, if_true]
  · simp only [hnil, ne_eq, not_false_eq_true, decide_true, cond_true, List.cons_ne_nil, false_and,
      if_false]

/-- A quoted text is no pattern. -/
theorem pathnames_quoted (t : Text) (g : Guest) : pathnames g (t.map (·, .quoted)) = [t] := by
  have hno : ¬(t.map fun c => (c, Origin.quoted)).any active = true := by
    rw [List.any_eq_true]
    rintro ⟨d, hd, hact⟩
    obtain ⟨c, -, hc⟩ := List.mem_map.mp hd
    have := (of_decide_eq_true hact).1
    exact this (congrArg Prod.snd hc).symm
  rw [pathnames, if_neg hno, List.map_map]
  exact congrArg (fun t => [t]) (List.map_id t)

/-- A plain text has no characters that stand for others. -/
theorem Plain.inactive {t : Text} (ht : Plain t) : ∀ c ∈ bare t, active c = false := by
  intro d hd
  obtain ⟨c, hc, rfl⟩ := List.mem_map.mp hd
  exact decide_eq_false fun h => h.2.elim (ht c hc).2.1 (ht c hc).2.2

/-- A plain text is no pattern. -/
theorem pathnames_plain {t : Text} (ht : Plain t) (g : Guest) : pathnames g (bare t) = [t] := by
  have hno : ¬(bare t).any active = true := by
    rw [List.any_eq_true]
    rintro ⟨d, hd, hact⟩
    exact Bool.false_ne_true ((ht.inactive d hd).symm.trans hact)
  rw [pathnames, if_neg hno, map_fst_bare]

/-! ## The names that a pattern matches -/

/-- A text that is no pattern matches itself only. -/
theorem matchName_append {w w' : Word} (hw : ∀ c ∈ w, active c = false) : ∀ {t : Text},
    matchName (w ++ w') t = true → ∃ s, t = w.map Prod.fst ++ s ∧ matchName w' s = true := by
  induction w with
  | nil => exact fun {t} h => ⟨t, rfl, h⟩
  | cons c w ih =>
    intro t h
    rw [List.forall_mem_cons] at hw
    have hact : ¬(active c = true ∧ c.1 = '*') := by
      rw [hw.1]
      exact fun h => Bool.false_ne_true h.1
    match t with
    | [] =>
      rw [List.cons_append, matchName, if_neg hact] at h
      exact absurd h Bool.false_ne_true
    | d :: t =>
      rw [List.cons_append, matchName, if_neg hact, hw.1] at h
      obtain ⟨hd, h⟩ := of_decide_eq_true h
      obtain ⟨s, rfl, hs⟩ := ih hw.2 h
      obtain rfl : c.1 = d := hd.resolve_left Bool.false_ne_true
      exact ⟨s, rfl, hs⟩

/-- The components of a text, each with a slash, make up the text with a slash. -/
theorem flatMap_splitOnP : ∀ w : Word,
    (w.splitOnP (·.1 = '/')).flatMap (fun v => v.map Prod.fst ++ ['/']) = w.map Prod.fst ++ ['/']
  | [] => rfl
  | c :: w => by
    have ih := flatMap_splitOnP w
    obtain ⟨v, vs, hvs⟩ := List.exists_cons_of_ne_nil (List.splitOnP_ne_nil (·.1 = '/') w)
    rw [hvs, List.flatMap_cons] at ih
    rw [List.splitOnP_cons_eq_if_modifyHead]
    split
    · next hc =>
      rw [hvs, List.flatMap_cons, List.flatMap_cons, ih, List.map_cons, of_decide_eq_true hc]
      rfl
    · rw [hvs, List.modifyHead_cons, List.flatMap_cons, List.map_cons, List.map_cons,
        List.cons_append, List.cons_append, List.cons_append, ih]

/-- What a pattern matches, of whose components only the last one is a pattern. -/
theorem mem_expandPath {g : Guest} {w : Word} (hw : w ≠ []) {p : Text} : ∀ {ws : List Word} {dir : Text},
    (∀ v ∈ ws, ∀ c ∈ v, active c = false) → p ∈ expandPath g dir (ws ++ [w]) →
      ∃ dir' name, name ∈ matching g dir' w ∧
        p = dir ++ ws.flatMap (fun v => v.map Prod.fst ++ ['/']) ++ name
  | [], dir, _, h => by
    rw [List.nil_append, expandPath, if_neg hw] at h
    obtain ⟨name, hname, rfl⟩ := List.mem_map.mp h
    exact ⟨dir, name, hname, by rw [List.flatMap_nil, List.append_nil]⟩
  | v :: ws, dir, hws, h => by
    rw [List.forall_mem_cons] at hws
    obtain ⟨v', vs, hvs⟩ : ∃ v' vs, ws ++ [w] = v' :: vs :=
      List.exists_cons_of_ne_nil (List.append_ne_nil_of_right_ne_nil _ (List.cons_ne_nil _ _))
    rw [List.cons_append, hvs, expandPath, ← hvs] at h
    · split at h
      · next hv =>
        obtain ⟨dir', name, hname, rfl⟩ := mem_expandPath hw hws.2 h
        exact ⟨dir', name, hname, by rw [hv, List.flatMap_cons, List.append_assoc dir]; rfl⟩
      · obtain ⟨n, hn, h⟩ := List.mem_flatMap.mp h
        obtain ⟨dir', name, hname, rfl⟩ := mem_expandPath hw hws.2 h
        -- The component is no pattern, so that only it is matched.
        have hmatch := (of_decide_eq_true (List.mem_filter.mp hn).2).1
        rw [← List.append_nil v] at hmatch
        obtain ⟨s, rfl, hs⟩ := matchName_append hws.1 hmatch
        obtain rfl : s = [] := of_decide_eq_true hs
        exact ⟨dir', name, hname, by simp only [List.flatMap_cons, List.append_assoc, List.append_nil]⟩
    · exact List.cons_ne_nil _ _

/-- A component has the characters of the text. -/
theorem subset_of_mem_splitOnP {p : Char × Origin → Bool} : ∀ {w v : Word}, v ∈ w.splitOnP p → v ⊆ w
  | [], v, h => by
    rw [List.splitOnP_nil, List.mem_singleton] at h
    rw [h]
    exact List.nil_subset []
  | c :: w, v, h => by
    rw [List.splitOnP_cons_eq_if_modifyHead] at h
    obtain ⟨u, us, hus⟩ := List.exists_cons_of_ne_nil (List.splitOnP_ne_nil p w)
    have hsub (v : Word) (hv : v ∈ u :: us) : v ⊆ w := subset_of_mem_splitOnP (hus ▸ hv)
    split at h
    · obtain rfl | h := List.mem_cons.mp h
      · exact List.nil_subset _
      · exact List.subset_cons_of_subset c (hsub v (hus ▸ h))
    · rw [hus, List.modifyHead_cons] at h
      obtain rfl | h := List.mem_cons.mp h
      · exact List.cons_subset_cons c (hsub u (List.mem_cons_self ..))
      · exact List.subset_cons_of_subset c (hsub v (List.mem_cons_of_mem u h))

/-- What a pattern in the last component of a text matches: itself, or names in the place of it. -/
theorem mem_pathnames {g : Guest} {a last p : Text} (ha : Plain a) (hlast : '/' ∉ last)
    (hne : last ≠ []) (h : p ∈ pathnames g (bare (a ++ '/' :: last))) :
    p = a ++ '/' :: last ∨ ∃ dir name, name ∈ matching g dir (bare last) ∧ p = a ++ '/' :: name := by
  have hsplit : (bare (a ++ '/' :: last)).splitOnP (·.1 = '/') =
      (bare a).splitOnP (·.1 = '/') ++ [bare last] := by
    have hbare : bare (a ++ '/' :: last) = bare a ++ ('/', .bare) :: bare last := bare_append _ _
    rw [hbare, List.splitOnP_append_cons _ _ rfl]
    refine congrArg _ (List.splitOnP_eq_singleton fun c hc => ?_)
    obtain ⟨d, hd, rfl⟩ := List.mem_map.mp hc
    exact decide_eq_false fun heq => hlast (heq ▸ hd)
  have hinactive : ∀ v ∈ (bare a).splitOnP (·.1 = '/'), ∀ c ∈ v, active c = false :=
    fun v hv c hc => ha.inactive c (subset_of_mem_splitOnP hv hc)
  unfold pathnames at h
  split at h
  · split at h
    · exact Or.inl (by rwa [map_fst_bare, List.mem_singleton] at h)
    · rw [(perm_sortByKey _).mem_iff, hsplit] at h
      obtain ⟨dir, name, hname, rfl⟩ :=
        mem_expandPath (fun h => hne (List.map_eq_nil_iff.mp h)) hinactive h
      refine Or.inr ⟨dir, name, hname, ?_⟩
      rw [flatMap_splitOnP, map_fst_bare, List.nil_append, List.append_assoc]
      rfl
  · exact Or.inl (by rwa [map_fst_bare, List.mem_singleton] at h)

/-! ## Reading a line -/

/-- The characters of a text lead from one frame to another. -/
def Steps (g : Guest) (f : Frame) (t : Text) (f' : Frame) : Prop :=
  ∀ fs, t.foldlM (step g) (f, fs) = some (f', fs)

/-- Between words. -/
def ready (args targets : List Text) (redirecting : Bool) (run : List Simple) : Frame :=
  ⟨.bare, none, args, targets, redirecting, run⟩

/-- In a word. -/
def reading (args targets : List Text) (redirecting : Bool) (run : List Simple) (t : Text) : Frame :=
  ⟨.bare, some (bare t, false), args, targets, redirecting, run⟩

section

variable {g : Guest} {f f' f'' : Frame} {t t' : Text} {args targets : List Text} {redirecting : Bool}
  {run : List Simple}

theorem Steps.trans (h : Steps g f t f') (h' : Steps g f' t' f'') : Steps g f (t ++ t') f'' := by
  intro fs
  rw [List.foldlM_append, h fs]
  exact h' fs

/-- A character without a meaning is a part of the word. -/
theorem stepBare_tame {c : Char} (hc : c ∉ special) (hstart : f.word ≠ none ∨ c ≠ '#' ∧ c ≠ '~')
    (fs : List Frame) : stepBare g f fs c = some (f.push [c] .bare, fs) := by
  simp only [special, List.mem_cons, List.not_mem_nil, or_false, not_or] at hc
  have hstart' : ¬((c = '#' ∨ c = '~') ∧ f.word = none) := fun h =>
    hstart.elim (· h.2) fun h' => h.1.elim h'.1 h'.2
  unfold stepBare
  simp only [List.mem_cons, List.not_mem_nil, or_false, hc, hstart', if_false, or_self]

theorem steps_more (ht : Tame t) (s : Text) :
    Steps g (reading args targets redirecting run s) t
      (reading args targets redirecting run (s ++ t)) := by
  induction t generalizing s with
  | nil =>
    intro fs
    rw [List.append_nil]
    rfl
  | cons c t ih =>
    intro fs
    unfold Tame at ht
    rw [List.forall_mem_cons] at ht
    have hstep : step g (reading args targets redirecting run s, fs) c =
        some (reading args targets redirecting run (s ++ [c]), fs) := by
      refine (stepBare_tame ht.1 (Or.inl (Option.some_ne_none _)) fs).trans ?_
      simp only [reading, bare_append]
      rfl
    rw [List.foldlM_cons, hstep]
    exact (ih ht.2 (s ++ [c]) fs).trans (by rw [List.append_assoc]; rfl)

/-- A word is read. -/
theorem steps_word (ht : Tame t) (hs : Starts t) :
    Steps g (ready args targets redirecting run) t (reading args targets redirecting run t) := by
  obtain ⟨c, t, rfl, hc⟩ := hs.exists_cons
  intro fs
  unfold Tame at ht
  rw [List.forall_mem_cons] at ht
  have hstep : step g (ready args targets redirecting run, fs) c =
      some (reading args targets redirecting run [c], fs) :=
    stepBare_tame ht.1 (Or.inr hc) fs
  rw [List.foldlM_cons, hstep]
  exact steps_more ht.2 [c] fs

/-- The end of a word. -/
theorem steps_blank (w : Word) (quotes : Bool) :
    Steps g ⟨.bare, some (w, quotes), args, targets, false, run⟩ [' ']
      (ready (args ++ (fields w quotes).flatMap (pathnames g)) targets false run) :=
  fun _ => rfl

/-- A word and a blank. -/
theorem steps_next (ht : Tame t) (hs : Starts t) : Steps g (ready args targets false run) (t ++ [' '])
    (ready (args ++ pathnames g (bare t)) targets false run) := by
  have h := @steps_blank g args targets run (bare t) false
  rw [fields_bare hs.ne_nil, List.flatMap_singleton] at h
  exact (steps_word ht hs).trans h

/-- A word and a redirection. -/
theorem steps_to (ht : Tame t) (hs : Starts t) : Steps g (ready args [] false run) (t ++ " > ".toList)
    (ready (args ++ pathnames g (bare t)) [] true run) := by
  have hto : Steps g (ready (args ++ pathnames g (bare t)) [] false run) "> ".toList
      (ready (args ++ pathnames g (bare t)) [] true run) := fun _ => rfl
  have h := (steps_next ht hs).trans hto
  rwa [List.append_assoc] at h

/-- The command that a frame holds may end, and some commands were run then. -/
def Ends (g : Guest) (f : Frame) (run : List Simple) : Prop :=
  f.mode = .bare ∧ ∀ mayBeEmpty, endCommand g mayBeEmpty f = some (ready [] [] false run)

/-- A name of a simple command. -/
def Named (name : Text) : Prop := name ∉ reserved ∧ '=' ∉ name

instance : DecidablePred Named :=
  fun name => inferInstanceAs (Decidable (name ∉ reserved ∧ '=' ∉ name))

theorem ends_word {name : Text} (hname : Named name) (w : Word) (quotes : Bool) :
    Ends g ⟨.bare, some (w, quotes), name :: args, targets, false, run⟩
      (run ++ [⟨name :: (args ++ (fields w quotes).flatMap (pathnames g)), targets⟩]) := by
  refine ⟨rfl, fun mayBeEmpty => ?_⟩
  have hreserved : ¬(Option.any (fun name => decide (name ∈ reserved ∨ '=' ∈ name)) (some name)) = true :=
    fun h => (of_decide_eq_true h).elim hname.1 hname.2
  unfold endCommand endWord
  simp only [Bool.false_eq_true, if_false, List.cons_append, List.cons_ne_nil, false_and,
    List.head?_cons, hreserved]
  rfl

theorem ends_reading {name : Text} (hname : Named name) (hs : Starts t) :
    Ends g (reading (name :: args) targets false run t)
      (run ++ [⟨name :: (args ++ pathnames g (bare t)), targets⟩]) := by
  have h := @ends_word g args targets run name hname (bare t) false
  rwa [fields_bare hs.ne_nil, List.flatMap_singleton] at h

theorem ends_redirecting {name : Text} (hname : Named name) :
    Ends g (reading (name :: args) targets true run t)
      (run ++ [⟨name :: args, targets ++ [t]⟩]) := by
  refine ⟨rfl, fun mayBeEmpty => ?_⟩
  have hreserved : ¬(Option.any (fun name => decide (name ∈ reserved ∨ '=' ∈ name)) (some name)) = true :=
    fun h => (of_decide_eq_true h).elim hname.1 hname.2
  unfold endCommand endWord reading
  simp only [Bool.false_eq_true, if_false, if_true, List.cons_ne_nil, false_and,
    List.head?_cons, hreserved, map_fst_bare]
  rfl

/-- A word that the shell leaves as it is. -/
structure PlainWord (t : Text) : Prop where
  plain : Plain t
  starts : Starts t

theorem PlainWord.append (h : PlainWord t) (h' : Plain t') : PlainWord (t ++ t') :=
  ⟨h.plain.append h', h.starts.of_start (List.prefix_append t t')⟩

theorem PlainWord.steps (h : PlainWord t) :
    Steps g (ready args targets redirecting run) t (reading args targets redirecting run t) :=
  steps_word h.plain.tame h.starts

theorem PlainWord.steps_next (h : PlainWord t) :
    Steps g (ready args targets false run) (t ++ [' ']) (ready (args ++ [t]) targets false run) := by
  have hnext := @Shell.steps_next g t args targets run h.plain.tame h.starts
  rwa [pathnames_plain h.plain] at hnext

theorem PlainWord.ends (h : PlainWord t) {name : Text} (hname : Named name) :
    Ends g (reading (name :: args) targets false run t)
      (run ++ [⟨name :: (args ++ [t]), targets⟩]) := by
  have hend := @ends_reading g t args targets run name hname h.starts
  rwa [pathnames_plain h.plain] at hend

/-- A command before a semicolon. -/
theorem Ends.steps (h : Ends g f run) : Steps g f [';'] (ready [] [] false run) := by
  intro fs
  have hstep : step g (f, fs) ';' = (endCommand g false f).map (·, fs) := by
    rw [step, h.1]
    rfl
  rw [List.foldlM_cons, hstep, h.2 false]
  rfl

/-- A line of commands, the last of them before the newline. -/
theorem Ends.read (h : Ends g f run) (ht : Steps g Frame.start t f) :
    read g (t ++ ['\n']) = some run := by
  have hstep : step g (f, []) '\n' = (endCommand g true f).map (·, []) := by
    rw [step, h.1]
    rfl
  have hfold : (t ++ ['\n']).foldlM (step g) (Frame.start, []) = some (ready [] [] false run, []) := by
    rw [List.foldlM_append, ht []]
    refine Eq.trans (b := ['\n'].foldlM (step g) (f, [])) rfl ?_
    rw [List.foldlM_cons, hstep, h.2 true]
    rfl
  rw [Shell.read, hfold]
  rfl

/-- A command substitution, in quotes or not. -/
theorem steps_substitution {word : Option (Word × Bool)} {mode : Mode} {inner : List Simple}
    (hmode : mode = .bare ∨ mode = .double) (ht : Steps g Frame.start t f) (h : Ends g f inner) :
    Steps g ⟨mode, word, args, targets, redirecting, run⟩ ("$(".toList ++ t ++ [')'])
      (Frame.substitute g ⟨mode, word, args, targets, redirecting, run⟩ inner) := by
  intro fs
  have hopen : "$(".toList.foldlM (step g) (⟨mode, word, args, targets, redirecting, run⟩, fs) =
      some (Frame.start, ⟨mode, word, args, targets, redirecting, run⟩ :: fs) := by
    obtain rfl | rfl := hmode <;> rfl
  have hclose : step g (f, ⟨mode, word, args, targets, redirecting, run⟩ :: fs) ')' =
      (endCommand g true f).map fun f =>
        (Frame.substitute g ⟨mode, word, args, targets, redirecting, run⟩ f.run, fs) := by
    rw [step, h.1]
    rfl
  rw [List.foldlM_append, List.foldlM_append, hopen]
  refine Eq.trans (b := (t.foldlM (step g) (Frame.start, _ :: fs)).bind
    ([')'].foldlM (step g))) rfl ?_
  rw [ht, Option.bind_some, List.foldlM_cons, hclose, h.2 true]
  rfl

/-- What commands print is a part of a word in quotes. -/
theorem steps_quoted_substitution {w : Word} {inner : List Simple} (ht : Steps g Frame.start t f)
    (h : Ends g f inner) : Steps g ⟨.double, some (w, true), args, targets, redirecting, run⟩
      ("$(".toList ++ t ++ [')'])
      ⟨.double, some (w ++ (g.output inner).map (·, .quoted), true), args, targets, redirecting,
        run ++ inner⟩ :=
  steps_substitution (Or.inr rfl) ht h

/-- What commands print is a word. -/
theorem steps_bare_substitution {inner : List Simple} (ht : Steps g Frame.start t f)
    (h : Ends g f inner) : Steps g (ready args targets redirecting run) ("$(".toList ++ t ++ [')'])
      ⟨.bare, some ((g.output inner).map (·, .expanded), false), args, targets, redirecting,
        run ++ inner⟩ :=
  steps_substitution (Or.inl rfl) ht h

/-- Characters in quotes. -/
theorem steps_single (ht : '\x27' ∉ t) (w : Word) :
    Steps g ⟨.single, some (w, true), args, targets, redirecting, run⟩ t
      ⟨.single, some (w ++ t.map (·, .quoted), true), args, targets, redirecting, run⟩ := by
  induction t generalizing w with
  | nil =>
    intro fs
    rw [List.map_nil, List.append_nil]
    rfl
  | cons c t ih =>
    intro fs
    rw [List.mem_cons, not_or] at ht
    have hstep : step g (⟨.single, some (w, true), args, targets, redirecting, run⟩, fs) c =
        some (⟨.single, some (w ++ [(c, .quoted)], true), args, targets, redirecting, run⟩, fs) := by
      simp only [step, if_neg (Ne.symm ht.1)]
      rfl
    rw [List.foldlM_cons, hstep]
    have hrest := ih ht.2 (w ++ [(c, .quoted)]) fs
    rwa [List.append_assoc] at hrest

end

end DarwinVm.Shell
