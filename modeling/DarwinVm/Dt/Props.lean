import DarwinVm.Dt.Fixup

/-!
# The nodes of the fixup

How the fixups of `dt_fixup.py` get at a tree: the `props` of a node as a dict (`get`, `put`,
`remove`), and its children by name (`d[key]`, `key in d`). An edit of a child leaves the other
children as they are (`onChild_eq_ok_iff`).
-/

namespace DarwinVm.Dt.Fixup

/-! ## Properties -/

/-- `props.get(k)` -/
def get (k : Text) : List Entry → Option Value
  | [] => none
  | e :: ps => if e.1 = k then some e.2 else get k ps

/-- `props[k] = v` -/
def put (k : Text) (v : Value) (ps : List Entry) : List Entry := upsert Prod.fst ps (k, v)

/-- `del props[k]`, for a key of `props`. -/
def remove (k : Text) (ps : List Entry) : List Entry := ps.filter fun e => e.1 ≠ k

/-- The properties with other keys than these, in order. -/
def others (ks : List Text) (ps : List Entry) : List Entry := ps.filter fun e => e.1 ∉ ks

variable {k k' : Text} {v : Value} {ks : List Text}

@[simp] theorem get_put_self : ∀ ps : List Entry, get k (put k v ps) = some v
  | [] => if_pos rfl
  | e :: ps => by
    unfold put upsert
    split_ifs with h
    · exact if_pos rfl
    · unfold get
      rw [if_neg h]
      exact get_put_self ps

theorem get_put_of_ne (h : k' ≠ k) : ∀ ps : List Entry, get k (put k' v ps) = get k ps
  | [] => if_neg h
  | e :: ps => by
    unfold put upsert
    split_ifs with he
    · unfold get
      rw [if_neg h, if_neg (he.trans_ne h)]
    · unfold get
      rw [← put, get_put_of_ne h ps]

@[simp] theorem get_remove_self : ∀ ps : List Entry, get k (remove k ps) = none
  | [] => rfl
  | e :: ps => by
    unfold remove
    rw [List.filter_cons]
    split_ifs with h
    · unfold get
      rw [if_neg (of_decide_eq_true h)]
      exact get_remove_self ps
    · exact get_remove_self ps

theorem get_remove_of_ne (h : k' ≠ k) : ∀ ps : List Entry, get k (remove k' ps) = get k ps
  | [] => rfl
  | e :: ps => by
    unfold remove
    rw [List.filter_cons]
    split_ifs with he
    · unfold get
      rw [← remove, get_remove_of_ne h ps]
    · have hk : e.1 = k' := by simpa using he
      rw [← remove, get_remove_of_ne h ps, get, if_neg (hk.trans_ne h)]

/-- A property that is put again stays as it is. -/
theorem put_of_get : ∀ {ps : List Entry}, get k ps = some v → put k v ps = ps
  | [], h => by cases h
  | e :: ps, h => by
    unfold get at h
    unfold put upsert
    split_ifs at h with he
    · rw [if_pos he, ← Option.some.inj h, ← he]
    · rw [if_neg he, ← put, put_of_get h]

theorem others_put (h : k ∈ ks) : ∀ ps : List Entry, others ks (put k v ps) = others ks ps
  | [] => by simp [put, upsert, others, h]
  | e :: ps => by
    have ih := others_put h ps
    unfold put upsert
    split_ifs with he
    · have hk : e.1 ∈ ks := he.symm ▸ h
      simp [others, h, hk]
    · unfold others at ih ⊢
      rw [List.filter_cons, List.filter_cons, ← put, ih]

theorem others_remove (h : k ∈ ks) (ps : List Entry) : others ks (remove k ps) = others ks ps := by
  unfold others remove
  rw [List.filter_filter]
  refine List.filter_congr fun e _ => ?_
  have hne : e.1 ∉ ks → e.1 ≠ k := fun he hek => he (hek ▸ h)
  by_cases he : e.1 ∈ ks
  · simp [he]
  · simp [he, hne he]

/-! ## Children -/

/-- The key of a node's name. -/
def nameKey : Text := "name".toList

/-- The key of the names of the drivers that a node is for. -/
def compatible : Text := "compatible".toList

/-- The node of the devices. -/
def armIo : Text := "arm-io".toList

/-- How a fixup fails on a tree that lacks what it looks for. -/
inductive LookupError
  /-- `KeyError` -/
  | key (k : Text)
  /-- `f"key {key} not present in node {self.props['name']}"` -/
  | noChild (key : Text) (node : Value)
  /-- `TypeError` of a name that is no text -/
  | type
  deriving DecidableEq

/-- The error of `__getitem__`, which tells the name of the node. -/
def missing (key : Text) (d : Node) : LookupError :=
  match get nameKey d.items with
  | none => .key nameKey
  | some n => .noChild key n

/-- The loop of `__contains__`. -/
def containsChild (key : Text) : List Node → Except LookupError Bool
  | [] => .ok false
  | c :: cs =>
    match get nameKey c.items with
    | none => .error (.key nameKey)
    | some n => if n = .str key then .ok true else containsChild key cs

/-- The loop of `__getitem__`, with an edit of the child that it finds. -/
def editChild (key : Text) (e : LookupError) (f : Node → Except LookupError Node) :
    List Node → Except LookupError (List Node)
  | [] => .error e
  | c :: cs =>
    match get nameKey c.items with
    | none => .error (.key nameKey)
    | some n =>
      if n = .str key then (f c).map (· :: cs) else (editChild key e f cs).map (c :: ·)

/-- An edit of `d[key]`. -/
def onChild (key : Text) (f : Node → Except LookupError Node) (d : Node) :
    Except LookupError Node :=
  (editChild key (missing key d) f d.children).map (.node d.items)

/-- A node with other children. -/
def mapChildren (f : List Node → List Node) (d : Node) : Node := .node d.items (f d.children)

/-- The child that `key` finds: it has the name, and the children before it have others. -/
def ChildAt (key : Text) (cs : List Node) (i : ℕ) : Prop :=
  (∃ c, cs[i]? = some c ∧ get nameKey c.items = some (.str key)) ∧
    ∀ j < i, ∀ c, cs[j]? = some c → ∃ n, get nameKey c.items = some n ∧ n ≠ .str key

variable {key : Text} {e : LookupError} {f : Node → Except LookupError Node} {cs cs' : List Node}

theorem childAt_zero {c : Node} :
    ChildAt key (c :: cs) 0 ↔ get nameKey c.items = some (.str key) := by
  constructor
  · rintro ⟨⟨c, hc, hn⟩, -⟩
    cases hc
    exact hn
  · exact fun h => ⟨⟨c, rfl, h⟩, fun j hj => absurd hj (Nat.not_lt_zero j)⟩

theorem childAt_succ {c : Node} {i : ℕ} : ChildAt key (c :: cs) (i + 1) ↔
    (∃ n, get nameKey c.items = some n ∧ n ≠ .str key) ∧ ChildAt key cs i := by
  constructor
  · rintro ⟨hc, hlt⟩
    exact ⟨hlt 0 (Nat.succ_pos i) c rfl, hc, fun j hj => hlt (j + 1) (Nat.succ_lt_succ hj)⟩
  · rintro ⟨hc, hi, hlt⟩
    refine ⟨hi, fun j hj b hb => ?_⟩
    match j with
    | 0 =>
      cases hb
      exact hc
    | j + 1 => exact hlt j (Nat.lt_of_succ_lt_succ hj) b hb

/-- An edit of a child edits the one that the key finds. -/
theorem editChild_eq_ok_iff : ∀ {cs cs' : List Node}, editChild key e f cs = .ok cs' ↔
    ∃ i c c', ChildAt key cs i ∧ cs[i]? = some c ∧ f c = .ok c' ∧ cs' = cs.set i c'
  | [], cs' => by
    refine ⟨nofun, ?_⟩
    rintro ⟨i, c, -, -, hc, -⟩
    cases hc
  | c :: cs, cs' => by
    have hmap : ∀ {α β : Type} {x : Except LookupError α} {g : α → β} {b : β},
        x.map g = .ok b ↔ ∃ a, x = .ok a ∧ g a = b := by
      intro α β x g b
      cases x with
      | error err => exact ⟨nofun, fun ⟨_, h, _⟩ => nomatch h⟩
      | ok a =>
        refine ⟨fun h => ⟨a, rfl, Except.ok.inj h⟩, ?_⟩
        rintro ⟨_, h, rfl⟩
        cases h
        rfl
    unfold editChild
    split
    · next hn =>
      refine ⟨nofun, ?_⟩
      rintro ⟨i, b, b', hi, -⟩
      match i with
      | 0 => rw [childAt_zero, hn] at hi; cases hi
      | i + 1 => rw [childAt_succ, hn] at hi; obtain ⟨⟨_, h, -⟩, -⟩ := hi; cases h
    · next n hn =>
      split_ifs with h
      · subst h
        rw [hmap]
        constructor
        · rintro ⟨c', hc, rfl⟩
          exact ⟨0, c, c', childAt_zero.mpr hn, rfl, hc, rfl⟩
        · rintro ⟨i, b, b', hi, hb, hf, rfl⟩
          match i with
          | 0 =>
            cases hb
            exact ⟨b', hf, rfl⟩
          | i + 1 =>
            rw [childAt_succ, hn] at hi
            obtain ⟨⟨m, hm, hne⟩, -⟩ := hi
            exact absurd (Option.some.inj hm).symm hne
      · rw [hmap]
        simp only [editChild_eq_ok_iff]
        constructor
        · rintro ⟨_, ⟨i, b, b', hi, hb, hf, rfl⟩, rfl⟩
          exact ⟨i + 1, b, b', childAt_succ.mpr ⟨⟨n, hn, h⟩, hi⟩, hb, hf, rfl⟩
        · rintro ⟨i, b, b', hi, hb, hf, rfl⟩
          match i with
          | 0 =>
            rw [childAt_zero, hn] at hi
            exact absurd (Option.some.inj hi) h
          | i + 1 => exact ⟨_, ⟨i, b, b', (childAt_succ.mp hi).2, hb, hf, rfl⟩, rfl⟩

/-- An edit of a child leaves the node and the other children as they are. -/
theorem onChild_eq_ok_iff {d d' : Node} : onChild key f d = .ok d' ↔
    ∃ i c c', ChildAt key d.children i ∧ d.children[i]? = some c ∧ f c = .ok c' ∧
      d' = .node d.items (d.children.set i c') := by
  unfold onChild
  constructor
  · intro h
    cases hcs : editChild key (missing key d) f d.children with
    | error err => rw [hcs] at h; cases h
    | ok cs' =>
      rw [hcs] at h
      cases h
      obtain ⟨i, c, c', hi, hc, hf, rfl⟩ := editChild_eq_ok_iff.mp hcs
      exact ⟨i, c, c', hi, hc, hf, rfl⟩
  · rintro ⟨i, c, c', hi, hc, hf, rfl⟩
    rw [editChild_eq_ok_iff.mpr ⟨i, c, c', hi, hc, hf, rfl⟩]
    rfl

/-- A key finds one child. -/
theorem ChildAt.unique {i j : ℕ} (hi : ChildAt key cs i) (hj : ChildAt key cs j) : i = j := by
  have hle : ∀ {i j : ℕ}, ChildAt key cs i → ChildAt key cs j → ¬i < j := by
    rintro i j ⟨⟨c, hc, hn⟩, -⟩ ⟨-, hj⟩ hlt
    obtain ⟨n, hn', hne⟩ := hj i hlt c hc
    rw [hn] at hn'
    exact hne (Option.some.inj hn').symm
  have h₁ := hle hi hj
  have h₂ := hle hj hi
  omega

end DarwinVm.Dt.Fixup
