import DarwinVm.Lib.Utf8

/-!
# Command lines

A command line as options with their values and other words (`Item`), for a list of the names that
take a value. Words in which each such name has a value, and no value is a name, are read in one way
only (`Formed.exists_items`, `items_words`), so that a program which rewrites them word by word is a
program on the items. The second part is about specifications `a=b,c=d`, which are split at commas.
-/

namespace DarwinVm.Argv

/-- An option with its value, or another word. -/
inductive Item
  | option (name value : Text)
  | word (w : Text)
  deriving DecidableEq

/-- The words of an item. -/
def Item.words : Item → List Text
  | .option name value => [name, value]
  | .word w => [w]

/-- The words of items. -/
def words (is : List Item) : List Text := is.flatMap Item.words

/-- The items of words, from left to right. -/
def items (valued : List Text) : List Text → List Item
  | [] => []
  | [w] => [.word w]
  | w :: v :: ws => if w ∈ valued then .option w v :: items valued ws else .word w :: items valued (v :: ws)

/-- Each name that takes a value has one, and it is not a name. -/
def Formed (valued names ws : List Text) : Prop :=
  ∀ n w, ws[n]? = some w → w ∈ valued → ∃ v, ws[n + 1]? = some v ∧ v ∉ names

/-- An option with a value that is not a name, or a word that takes no value. -/
def Item.Proper (valued names : List Text) : Item → Prop
  | .option name value => name ∈ valued ∧ value ∉ names
  | .word w => w ∉ valued

instance (valued names : List Text) : (i : Item) → Decidable (i.Proper valued names)
  | .option name value => inferInstanceAs (Decidable (name ∈ valued ∧ value ∉ names))
  | .word w => inferInstanceAs (Decidable (w ∉ valued))

variable {valued names : List Text}

@[simp] theorem words_nil : words [] = [] := rfl

@[simp] theorem words_option (name value : Text) (is : List Item) :
    words (.option name value :: is) = name :: value :: words is := rfl

@[simp] theorem words_word (w : Text) (is : List Item) : words (.word w :: is) = w :: words is := rfl

@[simp] theorem words_append (is is' : List Item) : words (is ++ is') = words is ++ words is' :=
  List.flatMap_append

theorem Formed.tail {w : Text} {ws : List Text} (h : Formed valued names (w :: ws)) :
    Formed valued names ws := fun n => h (n + 1)

/-- Words are the words of their items, which are proper. -/
theorem Formed.items_spec (hsub : valued ⊆ names) : ∀ {ws : List Text}, Formed valued names ws →
    words (items valued ws) = ws ∧ ∀ i ∈ items valued ws, i.Proper valued names
  | [], _ => ⟨rfl, fun _ h => nomatch h⟩
  | [w], h => by
    refine ⟨rfl, fun i hi => ?_⟩
    obtain rfl := List.mem_singleton.mp hi
    intro hw
    obtain ⟨v, hv, -⟩ := h 0 w rfl hw
    cases hv
  | w :: v :: ws, h => by
    unfold items
    by_cases hw : w ∈ valued
    · obtain ⟨hwords, hproper⟩ := h.tail.tail.items_spec hsub
      obtain ⟨v', hv, hnames⟩ := h 0 w rfl hw
      obtain rfl := Option.some.inj hv
      rw [if_pos hw, words_option, hwords]
      exact ⟨rfl, List.forall_mem_cons.mpr ⟨⟨hw, hnames⟩, hproper⟩⟩
    · obtain ⟨hwords, hproper⟩ := h.tail.items_spec hsub
      rw [if_neg hw, words_word, hwords]
      exact ⟨rfl, List.forall_mem_cons.mpr ⟨hw, hproper⟩⟩

theorem Formed.exists_items (hsub : valued ⊆ names) {ws : List Text} (h : Formed valued names ws) :
    ∃ is, words is = ws ∧ ∀ i ∈ is, i.Proper valued names :=
  ⟨items valued ws, h.items_spec hsub⟩

theorem Formed.cons {w : Text} {ws : List Text} (hw : w ∉ valued) (h : Formed valued names ws) :
    Formed valued names (w :: ws) := by
  intro n w' hget hmem
  cases n with
  | zero =>
    obtain rfl := Option.some.inj hget
    exact absurd hmem hw
  | succ n => exact h n w' hget hmem

/-- The words of proper items are well formed. -/
theorem formed_words (hsub : valued ⊆ names) : ∀ {is : List Item},
    (∀ i ∈ is, i.Proper valued names) → Formed valued names (words is)
  | [], _ => fun _ _ hget => nomatch hget
  | .word w :: is, h => by
    obtain ⟨hw, his⟩ := List.forall_mem_cons.mp h
    exact (formed_words hsub his).cons hw
  | .option name value :: is, h => by
    obtain ⟨⟨hname, hvalue⟩, his⟩ := List.forall_mem_cons.mp h
    have hrest := (formed_words hsub his).cons fun hmem => hvalue (hsub hmem)
    intro n w hget hmem
    cases n with
    | zero => exact ⟨value, rfl, hvalue⟩
    | succ n => exact hrest n w hget hmem

/-- Proper items are read back from their words. -/
theorem items_words : ∀ {is : List Item}, (∀ i ∈ is, i.Proper valued names) →
    items valued (words is) = is
  | [], _ => rfl
  | .option name value :: is, h => by
    obtain ⟨⟨hname, -⟩, h⟩ := List.forall_mem_cons.mp h
    rw [words_option, items, if_pos hname, items_words h]
  | .word w :: is, h => by
    obtain ⟨hw, h⟩ := List.forall_mem_cons.mp h
    have hw : w ∉ valued := hw
    rw [words_word]
    cases hrest : words is with
    | nil =>
      have hnil : is = [] := by
        cases is with
        | nil => rfl
        | cons i is => cases i <;> cases hrest
      rw [hnil, items]
    | cons v ws => rw [items, if_neg hw, ← hrest, items_words h]

/-! ## Specifications -/

/-- `spec.split(",")` -/
def components (spec : Text) : List Text := spec.splitOn ','

/-- `",".join(parts)` -/
def joinComponents (parts : List Text) : Text := [','].intercalate parts

theorem components_ne_nil (spec : Text) : components spec ≠ [] := List.splitOn_ne_nil ',' spec

theorem joinComponents_components (spec : Text) : joinComponents (components spec) = spec :=
  List.intercalate_splitOn ','

/-- Parts without commas are taken apart where they were joined. -/
theorem components_joinComponents {parts : List Text} (hne : parts ≠ [])
    (h : ∀ part ∈ parts, ',' ∉ part) : components (joinComponents parts) = parts :=
  List.splitOn_intercalate ',' h hne

theorem components_append_comma (s t : Text) :
    components (s ++ ',' :: t) = components s ++ components t :=
  List.splitOn_append_cons_self s t

theorem comma_notMem_components : ∀ {spec part : Text}, part ∈ components spec → ',' ∉ part
  | [], part, h => by
    obtain rfl := List.mem_singleton.mp h
    exact List.not_mem_nil
  | c :: spec, part, h => by
    rw [components, List.splitOn_cons_eq_if_modifyHead] at h
    obtain ⟨first, rest, hsplit⟩ := List.exists_cons_of_ne_nil (components_ne_nil spec)
    have hmem : ∀ {q : Text}, q ∈ first :: rest → ',' ∉ q := fun hq =>
      comma_notMem_components (hsplit ▸ hq)
    rw [components] at hsplit
    by_cases hc : c = ','
    · -- A comma starts a new part.
      rw [if_pos (beq_iff_eq.mpr hc), hsplit] at h
      rcases List.mem_cons.mp h with rfl | h
      · exact List.not_mem_nil
      · exact hmem h
    · rw [if_neg (fun h => hc (beq_iff_eq.mp h)), hsplit, List.modifyHead_cons] at h
      rcases List.mem_cons.mp h with rfl | h
      · rw [List.mem_cons, not_or]
        exact ⟨Ne.symm hc, hmem List.mem_cons_self⟩
      · exact hmem (List.mem_cons_of_mem _ h)

theorem joinComponents_cons {part : Text} {parts : List Text} (h : parts ≠ []) :
    joinComponents (part :: parts) = part ++ ',' :: joinComponents parts := by
  obtain ⟨next, rest, rfl⟩ := List.exists_cons_of_ne_nil h
  rw [joinComponents, joinComponents, List.intercalate_cons_cons, List.append_assoc]
  rfl

theorem joinComponents_concat (part : Text) : ∀ parts : List Text,
    joinComponents (parts ++ [part]) = parts.flatMap (· ++ [',']) ++ part
  | [] => List.intercalate_singleton
  | first :: parts => by
    rw [List.cons_append, joinComponents_cons (List.append_ne_nil_of_right_ne_nil _ (by simp)),
      joinComponents_concat part parts, List.flatMap_cons, List.append_assoc, List.append_assoc]
    rfl

theorem mem_joinComponents {c : Char} {part : Text} (hc : c ∈ part) : ∀ {parts : List Text},
    part ∈ parts → c ∈ joinComponents parts
  | [last], hmem => by
    obtain rfl := List.mem_singleton.mp hmem
    rwa [joinComponents, List.intercalate_singleton]
  | first :: next :: rest, hmem => by
    rw [joinComponents_cons (List.cons_ne_nil next rest), List.mem_append, List.mem_cons]
    rcases List.mem_cons.mp hmem with rfl | hmem
    · exact Or.inl hc
    · exact Or.inr (Or.inr (mem_joinComponents hc hmem))

/-- Parts are in front of the last part of a specification. -/
theorem exists_components (spec : Text) :
    ∃ parts part, components spec = parts ++ [part] ∧ spec = parts.flatMap (· ++ [',']) ++ part := by
  have h := List.dropLast_append_getLast (components_ne_nil spec)
  refine ⟨_, _, h.symm, ?_⟩
  rw [← joinComponents_concat, h, joinComponents_components]

/-- A text without commas makes the last part longer. -/
theorem components_append {key spec part : Text} {parts : List Text} (hkey : ',' ∉ key)
    (h : components spec = parts ++ [part]) : components (spec ++ key) = parts ++ [part ++ key] := by
  have hmem : ∀ q ∈ parts ++ [part ++ key], ',' ∉ q := by
    intro q hq
    rcases List.mem_append.mp hq with hq | hq
    · exact comma_notMem_components (h ▸ List.mem_append_left _ hq)
    · rw [List.mem_singleton.mp hq, List.mem_append, not_or]
      exact ⟨comma_notMem_components (h ▸ List.mem_append_right _ List.mem_cons_self), hkey⟩
  rw [← components_joinComponents (by simp) hmem, joinComponents_concat, ← List.append_assoc,
    ← joinComponents_concat, ← h, joinComponents_components]

/-- A key with a comma after it stands in a specification if a part that is not the last one ends
with the key. -/
theorem comma_isInfix_iff {key spec : Text} (hkey : ',' ∉ key) :
    key ++ [','] <:+: spec ↔ ∃ part ∈ (components spec).dropLast, key <:+ part := by
  refine ⟨?_, ?_⟩
  · rintro ⟨s, t, rfl⟩
    obtain ⟨parts, part, hs, -⟩ := exists_components s
    have hsplit : components (s ++ (key ++ [',']) ++ t) = parts ++ (part ++ key) :: components t := by
      rw [← List.append_assoc, List.append_assoc, List.singleton_append, components_append_comma,
        components_append hkey hs, List.append_assoc, List.singleton_append]
    refine ⟨part ++ key, ?_, List.suffix_append part key⟩
    rw [hsplit, List.dropLast_append_of_ne_nil (List.cons_ne_nil _ _),
      List.dropLast_cons_of_ne_nil (components_ne_nil t)]
    exact List.mem_append_right _ List.mem_cons_self
  · rintro ⟨part, hmem, front, rfl⟩
    obtain ⟨parts, last, hparts, hspec⟩ := exists_components spec
    rw [hparts, List.dropLast_concat] at hmem
    obtain ⟨before, behind, rfl⟩ := List.append_of_mem hmem
    refine ⟨before.flatMap (· ++ [',']) ++ front, behind.flatMap (· ++ [',']) ++ last, ?_⟩
    rw [hspec, List.flatMap_append, List.flatMap_cons]
    simp only [List.append_assoc]

end DarwinVm.Argv
