import DarwinVm.Dt.Props
import DarwinVm.Lib.Accum
import DarwinVm.Lib.Decimal

/-!
# Which drivers match

The passes of `dt_fixup.py` that decide which nodes keep `compatible`: `del_compat`, which leaves it
to the kept paths and the supported drivers, `fixup_spmi`, which leaves it to the PMU among the
children of the SPMI controller, and `fixup_darts`, which numbers the DARTs that keep it. Each pass
changes the properties of a node by its names from the root alone (`delCompat_spec`,
`fixupSpmi_spec`, `fixupDarts_spec`), and the three together do what `filterDrivers_local` says.
-/

namespace DarwinVm.Dt.Fixup

/-! ## The passes -/

def deviceType : Text := "device_type".toList
def dartId : Text := "dart-id".toList
def nubSpmi0 : Text := "nub-spmi0".toList
def spmiPath : Text := "arm-io/nub-spmi0".toList
def dispext0Path : Text := "arm-io/dispext0".toList
def deviceTree : Value := .str "device-tree".toList
def extDisplay : Value := .str "ext-display-subsystem".toList
def dart : Value := .str "dart".toList

/-- The prefix of a four-byte number. -/
def u32 : Text := "u32:".toList

/-- `SUPPORTED_DRIVERS` -/
def supportedDrivers : List Bytes :=
  ["AppleARM".toList, "aic".toList, "arm-io".toList, "uart-1,samsung".toList].map utf8

/-- `b'pmu,spmi'` -/
def pmuSpmi : Bytes := utf8 "pmu,spmi".toList

/-- The `compat` of a node, as bytes. -/
def compatBytes : Value → Bytes
  | .str s => utf8 s
  | .bytes b => b

/-- `any(x in compat for x in SUPPORTED_DRIVERS)` -/
def Supported (v : Value) : Prop := ∃ x ∈ supportedDrivers, x <:+: compatBytes v

/-- `any(rel == k or rel.startswith(k + '/') for k in KEEP_COMPAT_PATHS)` -/
def KeptPath (keep : List Text) (rel : Text) : Prop := ∃ k ∈ keep, rel = k ∨ k ++ ['/'] <+: rel

instance (v : Value) : Decidable (Supported v) :=
  inferInstanceAs (Decidable (∃ x ∈ supportedDrivers, _))

instance (keep : List Text) (rel : Text) : Decidable (KeptPath keep rel) :=
  inferInstanceAs (Decidable (∃ k ∈ keep, _))

/-- `path.lstrip('/')` -/
def lstrip (path : Text) : Text := path.dropWhile (· = '/')

/-- The path of a child in `del_compat`. -/
def childPath (path : Text) (ps : List Entry) (name : Text) : Text :=
  if path ≠ [] ∨ get nameKey ps ≠ some deviceTree then path ++ '/' :: name else name

/-- `c.props['name']`, to which a path is joined. -/
def childName (c : Node) : Except LookupError Text :=
  match get nameKey c.items with
  | none => .error (.key nameKey)
  | some (.str n) => .ok n
  | some (.bytes _) => .error .type

/-- The properties of a node whose `compatible` is left to the supported drivers. -/
def stripDriver (ps : List Entry) : List Entry :=
  match get compatible ps with
  | none => ps
  | some v => if Supported v then ps else remove compatible ps

/-- The properties of a node after `del_compat`. -/
def stripProps (keep : List Text) (rel : Text) (ps : List Entry) : List Entry :=
  if KeptPath keep rel then ps
  else
    let ps := stripDriver ps
    if rel = dispext0Path ∧ get compatible ps = none ∧ get deviceType ps = some extDisplay then
      remove deviceType ps
    else ps

mutual
/-- `del_compat` -/
def delCompat (keep : List Text) : Text → Node → Except LookupError Node
  | path, .node ps cs => do
    let cs ← delCompatAll keep path ps cs
    .ok (.node (stripProps keep (lstrip path) ps) cs)

/-- The loop over the children in `del_compat`. -/
def delCompatAll (keep : List Text) (path : Text) (ps : List Entry) :
    List Node → Except LookupError (List Node)
  | [] => .ok []
  | c :: cs => do
    let name ← childName c
    let c ← delCompat keep (childPath path ps name) c
    let cs ← delCompatAll keep path ps cs
    .ok (c :: cs)
end

/-- The properties of a child of the SPMI controller after `fixup_spmi`. -/
def stripSpmi (ps : List Entry) : List Entry :=
  match get compatible ps with
  | none => ps
  | some v => if pmuSpmi <+: compatBytes v then ps else remove compatible ps

/-- The loop over the children of the SPMI controller in `fixup_spmi`. -/
def stripSpmiChildren (spmi : Node) : Node :=
  mapChildren (List.map fun c => .node (stripSpmi c.items) c.children) spmi

/-- `fixup_spmi` -/
def fixupSpmi (keep : List Text) (d : Node) : Except LookupError Node :=
  if spmiPath ∉ keep then .ok d
  else
    onChild armIo (fun a => do
      let present ← containsChild nubSpmi0 a.children
      if present then
        onChild nubSpmi0 (fun s => .ok (stripSpmiChildren s)) a
      else .ok a) d

/-- One turn of the loop in `fixup_darts`. -/
def numberDart (n : ℕ) (c : Node) : ℕ × Node :=
  if get deviceType c.items = some dart ∧ get compatible c.items ≠ none then
    (n + 1, .node (put dartId (.str (u32 ++ decimal n)) c.items) c.children)
  else (n, c)

/-- `fixup_darts` -/
def fixupDarts (d : Node) : Except LookupError Node :=
  onChild armIo (fun a => .ok (mapChildren (fun cs => (mapAccum numberDart 0 cs).2) a)) d

/-- The three passes in the order of `fixup`. -/
def filterDrivers (keep : List Text) (d : Node) : Except LookupError Node := do
  let d ← delCompat keep [] d
  let d ← fixupSpmi keep d
  fixupDarts d

/-! ## Names and paths -/

/-- The name of a node. -/
def nameOf (c : Node) : Text :=
  match get nameKey c.items with
  | some (.str n) => n
  | _ => []

/-- The names of the nodes on the way to a node, from below the root. -/
def namesAt : Node → List ℕ → List Text
  | _, [] => []
  | d, i :: q =>
    match d.children[i]? with
    | none => []
    | some c => nameOf c :: namesAt c q

/-- The path of a node with these names, relative to the root. -/
def pathOf (ns : List Text) : Text := lstrip (ns.flatMap fun n => '/' :: n)

/-- The node with the names is a direct child of the one with the others. -/
def ChildOf (parent ns : List Text) : Prop := ns ≠ [] ∧ ns.dropLast = parent

instance (parent ns : List Text) : Decidable (ChildOf parent ns) :=
  inferInstanceAs (Decidable (_ ∧ _))

/-- Below the root, each node has a name without a slash, and siblings have different ones. -/
inductive WellNamed : Node → Prop
  | node {ps : List Entry} {cs : List Node}
    (named : ∀ c ∈ cs, ∃ n, get nameKey c.items = some (.str n) ∧ '/' ∉ n)
    (distinct : (cs.map nameOf).Nodup) (children : ∀ c ∈ cs, WellNamed c) : WellNamed (.node ps cs)

theorem WellNamed.named' {d : Node} (h : WellNamed d) :
    ∀ c ∈ d.children, ∃ n, get nameKey c.items = some (.str n) ∧ '/' ∉ n := by
  cases h with
  | node named _ _ => exact named

theorem WellNamed.distinct' {d : Node} (h : WellNamed d) : (d.children.map nameOf).Nodup := by
  cases h with
  | node _ distinct _ => exact distinct

theorem WellNamed.child {d c : Node} (h : WellNamed d) (hc : c ∈ d.children) : WellNamed c := by
  cases h with
  | node _ _ children => exact children c hc

theorem nameOf_of_get {c : Node} {n : Text} (h : get nameKey c.items = some (.str n)) :
    nameOf c = n := by
  unfold nameOf
  rw [h]

theorem WellNamed.get_name {d c : Node} (h : WellNamed d) (hc : c ∈ d.children) :
    get nameKey c.items = some (.str (nameOf c)) := by
  obtain ⟨n, hn, -⟩ := h.named' c hc
  rw [nameOf_of_get hn, hn]

/-- A name finds the child that has it. -/
theorem WellNamed.childAt_iff {d : Node} (h : WellNamed d) {key : Text} {i : ℕ} :
    ChildAt key d.children i ↔ ∃ c, d.children[i]? = some c ∧ nameOf c = key := by
  constructor
  · rintro ⟨⟨c, hc, hn⟩, -⟩
    exact ⟨c, hc, nameOf_of_get hn⟩
  · rintro ⟨c, hc, rfl⟩
    refine ⟨⟨c, hc, h.get_name (List.mem_of_getElem? hc)⟩, fun j hj b hb => ?_⟩
    refine ⟨_, h.get_name (List.mem_of_getElem? hb), fun he => ?_⟩
    have hbi : (d.children.map nameOf)[j]? = some (nameOf b) := by rw [List.getElem?_map, hb]; rfl
    have hci : (d.children.map nameOf)[i]? = some (nameOf c) := by rw [List.getElem?_map, hc]; rfl
    rw [Value.str.inj he] at hbi
    have hlt : j < (d.children.map nameOf).length := (List.getElem?_eq_some_iff.mp hbi).1
    exact absurd ((List.getElem?_inj hlt h.distinct').mp (hbi.trans hci.symm)) (Nat.ne_of_lt hj)

theorem lstrip_append (a b : Text) :
    lstrip (a ++ b) = if lstrip a = [] then lstrip b else lstrip a ++ b := by
  unfold lstrip
  rw [List.dropWhile_append]
  simp only [List.isEmpty_iff]

/-- Slashes before a path do not matter for the paths below it. -/
theorem lstrip_append_congr {a a' : Text} (h : lstrip a = lstrip a') (b : Text) :
    lstrip (a ++ b) = lstrip (a' ++ b) := by
  rw [lstrip_append, lstrip_append, h]

theorem lstrip_childPath {path : Text} {ns : List Text} (h : lstrip path = pathOf ns)
    (ps : List Entry) (n : Text) : lstrip (childPath path ps n) = pathOf (ns ++ [n]) := by
  have hpath : pathOf (ns ++ [n]) = lstrip (path ++ '/' :: n) := by
    unfold pathOf at h ⊢
    rw [List.flatMap_append, List.flatMap_singleton]
    exact lstrip_append_congr h.symm _
  unfold childPath
  split_ifs with hp
  · exact hpath.symm
  · have hnil : path = [] := by_contra fun hne => hp (Or.inl hne)
    rw [hpath, hnil]
    rfl

/-! ## Changes by name -/

/-- Each node changes as `R` says, by its names from the root. -/
def Changes (R : List Text → List Entry → List Entry → Prop) (d d' : Node) : Prop :=
  ∀ q, Option.Rel (R (namesAt d q)) (d.itemsAt q) (d'.itemsAt q)

variable {R S : List Text → List Entry → List Entry → Prop} {d d' d'' c : Node} {key : Text}
  {keep : List Text}

theorem rel_some_iff {α β : Type} {r : α → β → Prop} {a : α} {b : β} :
    Option.Rel r (some a) (some b) ↔ r a b :=
  ⟨fun | .some h => h, .some⟩

/-- The nodes of a tree change as its root and its children do. -/
theorem changes_node {ps ps' : List Entry} {cs cs' : List Node} :
    Changes R (.node ps cs) (.node ps' cs') ↔ R [] ps ps' ∧
      ∀ i : ℕ, Option.Rel (fun c c' => Changes (fun ns => R (nameOf c :: ns)) c c') cs[i]? cs'[i]? := by
  constructor
  · intro h
    refine ⟨rel_some_iff.mp (h []), fun i => ?_⟩
    have hi : ∀ q, Option.Rel (R (namesAt (.node ps cs) (i :: q))) (cs[i]?.bind (·.itemsAt q))
        (cs'[i]?.bind (·.itemsAt q)) := fun q => h (i :: q)
    simp only [namesAt, Tree.children_node] at hi
    cases hc : cs[i]? with
    | none =>
      cases hc' : cs'[i]? with
      | none => exact .none
      | some c' =>
        have := hi []
        rw [hc, hc', Option.bind_none, Option.bind_some, Tree.itemsAt_nil] at this
        cases this
    | some c =>
      cases hc' : cs'[i]? with
      | none =>
        have := hi []
        rw [hc, hc', Option.bind_none, Option.bind_some, Tree.itemsAt_nil] at this
        cases this
      | some c' =>
        simp only [hc, hc', Option.bind_some] at hi
        exact .some hi
  · rintro ⟨hroot, hcs⟩ q
    match q with
    | [] => exact .some hroot
    | i :: q =>
      have hi := hcs i
      rw [Tree.itemsAt_cons, Tree.itemsAt_cons, Tree.children_node, Tree.children_node, namesAt,
        Tree.children_node]
      cases hc : cs[i]? with
      | none =>
        rw [hc] at hi
        cases hc' : cs'[i]? with
        | none => exact .none
        | some c' => rw [hc'] at hi; cases hi
      | some c =>
        rw [hc] at hi
        cases hc' : cs'[i]? with
        | none => rw [hc'] at hi; cases hi
        | some c' =>
          rw [hc'] at hi
          exact rel_some_iff.mp hi q

theorem Changes.mono (h : Changes R d d') (hRS : ∀ ns ps ps', R ns ps ps' → S ns ps ps') :
    Changes S d d' := by
  intro q
  have hq := h q
  cases hd : d.itemsAt q <;> cases hd' : d'.itemsAt q <;> rw [hd, hd'] at hq <;> cases hq
  · exact .none
  · next hr => exact .some (hRS _ _ _ hr)

theorem Changes.refl (h : ∀ ns ps, R ns ps ps) (d : Node) : Changes R d d := by
  intro q
  cases d.itemsAt q with
  | none => exact .none
  | some ps => exact .some (h _ ps)

/-- A change of the root alone. -/
theorem changes_root {ps : List Entry} (hroot : R [] c.items ps) (h : ∀ n ns ps, R (n :: ns) ps ps) :
    Changes R c (.node ps c.children) := by
  cases c with
  | node ps' cs =>
    refine changes_node.mpr ⟨hroot, fun i => ?_⟩
    rw [Tree.children_node]
    cases cs[i]? with
    | none => exact .none
    | some c => exact .some (.refl (h _) c)

/-- What leaves the names as they are. -/
def KeepsNames (R : List Text → List Entry → List Entry → Prop) : Prop :=
  ∀ ns ps ps', R ns ps ps' → get nameKey ps' = get nameKey ps

theorem Changes.nameOf_eq (h : Changes R d d') (hR : KeepsNames R) : nameOf d' = nameOf d := by
  have hroot := h []
  rw [Tree.itemsAt_nil, Tree.itemsAt_nil, rel_some_iff] at hroot
  unfold nameOf
  rw [hR _ _ _ hroot]

theorem Changes.namesAt_eq : ∀ {R : List Text → List Entry → List Entry → Prop} {d d' : Node},
    Changes R d d' → KeepsNames R → ∀ q, namesAt d' q = namesAt d q
  | _, _, _, _, _, [] => rfl
  | R, .node ps cs, .node ps' cs', h, hR, i :: q => by
    have hi := (changes_node.mp h).2 i
    unfold namesAt
    rw [Tree.children_node, Tree.children_node]
    cases hc : cs[i]? with
    | none =>
      cases hc' : cs'[i]? with
      | none => rfl
      | some c' => rw [hc, hc'] at hi; cases hi
    | some c =>
      cases hc' : cs'[i]? with
      | none => rw [hc, hc'] at hi; cases hi
      | some c' =>
        rw [hc, hc', rel_some_iff] at hi
        have hname : KeepsNames fun ns => R (nameOf c :: ns) := fun ns => hR _
        dsimp only
        rw [hi.nameOf_eq hname, hi.namesAt_eq hname q]

/-- One change after the other. -/
theorem Changes.trans (h : Changes R d d') (hR : KeepsNames R) (h' : Changes S d' d'') :
    Changes (fun ns ps ps'' => ∃ ps', R ns ps ps' ∧ S ns ps' ps'') d d'' := by
  intro q
  have hq := h q
  have hq' := h' q
  rw [h.namesAt_eq hR] at hq'
  cases hd : d.itemsAt q <;> cases hd' : d'.itemsAt q <;> rw [hd, hd'] at hq <;> cases hq
  · cases hd'' : d''.itemsAt q <;> rw [hd', hd''] at hq' <;> cases hq'
    exact .none
  · next hr =>
    cases hd'' : d''.itemsAt q <;> rw [hd', hd''] at hq' <;> cases hq'
    next hs => exact .some ⟨_, hr, hs⟩

theorem Changes.wellNamed {d d' : Node} (h : Changes R d d') (hR : KeepsNames R)
    (hd : WellNamed d) : WellNamed d' := by
  induction d using Tree.induct generalizing R d' with
  | node ps cs ih =>
    cases d' with
    | node ps' cs' =>
      have hcs := (changes_node.mp h).2
      have hchild : ∀ c' ∈ cs', ∃ c ∈ cs, Changes (fun ns => R (nameOf c :: ns)) c c' := by
        intro c' hc'
        obtain ⟨i, hi⟩ := List.mem_iff_getElem?.mp hc'
        have hr := hcs i
        cases hc : cs[i]? with
        | none => rw [hc, hi] at hr; cases hr
        | some c =>
          rw [hc, hi, rel_some_iff] at hr
          exact ⟨c, List.mem_of_getElem? hc, hr⟩
      have hmap : cs'.map nameOf = cs.map nameOf := by
        refine List.ext_getElem? fun i => ?_
        have hr := hcs i
        rw [List.getElem?_map, List.getElem?_map]
        cases hc : cs[i]? with
        | none =>
          cases hc' : cs'[i]? with
          | none => rfl
          | some c' => rw [hc, hc'] at hr; cases hr
        | some c =>
          cases hc' : cs'[i]? with
          | none => rw [hc, hc'] at hr; cases hr
          | some c' =>
            rw [hc, hc', rel_some_iff] at hr
            rw [Option.map_some, Option.map_some, hr.nameOf_eq fun ns => hR _]
      refine .node (fun c' hc' => ?_) (hmap ▸ hd.distinct') fun c' hc' => ?_
      · obtain ⟨c, hc, hr⟩ := hchild c' hc'
        obtain ⟨n, hn, hslash⟩ := hd.named' c hc
        have hroot := hr []
        rw [Tree.itemsAt_nil, Tree.itemsAt_nil, rel_some_iff] at hroot
        exact ⟨n, by rw [hR _ _ _ hroot, hn], hslash⟩
      · obtain ⟨c, hc, hr⟩ := hchild c' hc'
        exact ih c hc hr (fun ns => hR _) (hd.child hc)

/-- An edit of the child with a name changes the nodes below it, if other nodes may stay. -/
theorem Changes.onChild {f : Node → Except LookupError Node} {a a' : Node} (hd : WellNamed d)
    (ha : a ∈ d.children) (hname : nameOf a = key) (hf : f a = .ok a')
    (h : Changes (fun ns => R (key :: ns)) a a')
    (hstay : ∀ ns ps, ns.head? ≠ some key → R ns ps ps) :
    ∃ d', onChild key f d = .ok d' ∧ Changes R d d' := by
  obtain ⟨i, hi⟩ := List.mem_iff_getElem?.mp ha
  refine ⟨_, onChild_eq_ok_iff.mpr ⟨i, a, a', hd.childAt_iff.mpr ⟨a, hi, hname⟩, hi, hf, rfl⟩, ?_⟩
  cases d with
  | node ps cs =>
    refine changes_node.mpr ⟨hstay [] ps nofun, fun j => ?_⟩
    rw [Tree.children_node] at hi ⊢
    have hlt : i < cs.length := (List.getElem?_eq_some_iff.mp hi).1
    by_cases hij : i = j
    · subst hij
      rw [List.getElem?_set_self hlt, hi]
      exact .some (hname.symm ▸ h)
    · rw [List.getElem?_set_ne hij]
      cases hc : cs[j]? with
      | none => exact .none
      | some c =>
        refine .some (.refl (fun ns ps => hstay _ ps fun he => ?_) c)
        -- Another child of the same name would be the child itself.
        have hcj : (cs.map nameOf)[j]? = (cs.map nameOf)[i]? := by
          rw [List.getElem?_map, List.getElem?_map, hc, hi, Option.map_some, Option.map_some,
            hname, Option.some.inj he]
        have hjlt : j < (cs.map nameOf).length := by
          rw [List.length_map]
          exact (List.getElem?_eq_some_iff.mp hc).1
        exact hij ((List.getElem?_inj hjlt hd.distinct').mp hcj).symm

/-! ## What each pass changes -/

/-- What `del_compat` does to a node. -/
def Stripped (keep ns : List Text) (ps ps' : List Entry) : Prop :=
  ps' = stripProps keep (pathOf ns) ps

/-- What `fixup_spmi` does to a node. -/
def SpmiStripped (keep ns : List Text) (ps ps' : List Entry) : Prop :=
  ps' = if spmiPath ∈ keep ∧ ChildOf [armIo, nubSpmi0] ns then stripSpmi ps else ps

/-- The node is a DART among the devices, with `compatible`. -/
def BoundDart (ns : List Text) (ps : List Entry) : Prop :=
  ChildOf [armIo] ns ∧ get deviceType ps = some dart ∧ get compatible ps ≠ none

/-- What `fixup_darts` does to a node. -/
def Numbered (ns : List Text) (ps ps' : List Entry) : Prop :=
  (BoundDart ns ps → ∃ n, ps' = put dartId (.str (u32 ++ decimal n)) ps) ∧
    (¬BoundDart ns ps → ps' = ps)

/-- `del_compat` strips each node by its path. -/
theorem delCompat_spec (t : Node) {path : Text} {ns : List Text} (hpath : lstrip path = pathOf ns)
    (h : WellNamed t) : ∃ t', delCompat keep path t = .ok t' ∧
      Changes (fun ms => Stripped keep (ns ++ ms)) t t' := by
  induction t using Tree.induct generalizing path ns with
  | node ps cs ih =>
    have hall : ∀ l : List Node, l ⊆ cs → ∃ l', delCompatAll keep path ps l = .ok l' ∧
        ∀ i : ℕ, Option.Rel (fun c c' => Changes (fun ms => Stripped keep (ns ++ nameOf c :: ms)) c c')
          l[i]? l'[i]? := by
      intro l
      induction l with
      | nil => exact fun _ => ⟨[], rfl, fun _ => .none⟩
      | cons c l ihl =>
        intro hl
        obtain ⟨hc, hl⟩ := List.cons_subset.mp hl
        have hname : childName c = .ok (nameOf c) := by
          unfold childName
          rw [h.get_name hc]
        obtain ⟨c', hc', hcc⟩ := ih c hc (lstrip_childPath hpath ps (nameOf c)) (h.child hc)
        obtain ⟨l', hl', hll⟩ := ihl hl
        refine ⟨c' :: l', ?_, fun i => ?_⟩
        · simp only [delCompatAll, hname, hc', hl', bind, Except.bind]
        · match i with
          | 0 =>
            refine .some (hcc.mono fun ms ps ps' hr => ?_)
            rwa [List.append_assoc, List.singleton_append] at hr
          | i + 1 => exact hll i
    obtain ⟨cs', hcs', hr⟩ := hall cs (List.Subset.refl cs)
    refine ⟨_, ?_, changes_node.mpr ⟨rfl, hr⟩⟩
    simp only [delCompat, hcs', bind, Except.bind, hpath, List.append_nil]

theorem childOf_iff {parent ns : List Text} : ChildOf parent ns ↔ ∃ n, ns = parent ++ [n] := by
  constructor
  · rintro ⟨hne, rfl⟩
    exact ⟨ns.getLast hne, (List.dropLast_append_getLast hne).symm⟩
  · rintro ⟨n, rfl⟩
    exact ⟨by simp, List.dropLast_concat⟩

/-- A name is among those of well-named children, or it is not. -/
theorem WellNamed.containsChild (h : WellNamed d) (key : Text) :
    containsChild key d.children = .ok (decide (∃ c ∈ d.children, nameOf c = key)) := by
  have hall : ∀ l : List Node, l ⊆ d.children →
      Fixup.containsChild key l = .ok (decide (∃ c ∈ l, nameOf c = key)) := by
    intro l
    induction l with
    | nil => exact fun _ => rfl
    | cons c l ih =>
      intro hl
      obtain ⟨hc, hl⟩ := List.cons_subset.mp hl
      unfold Fixup.containsChild
      rw [h.get_name hc]
      dsimp only
      by_cases hn : nameOf c = key
      · rw [if_pos (congrArg Value.str hn)]
        simp [hn]
      · rw [if_neg fun he => hn (Value.str.inj he), ih hl]
        simp [hn]
  exact hall _ (List.Subset.refl _)

/-- Below a node, the changes of its children alone. -/
theorem changes_mapChildren {f : List Node → List Node} (hroot : ∀ ps, R [] ps ps)
    (h : ∀ i : ℕ, Option.Rel (fun c c' => Changes (fun ns => R (nameOf c :: ns)) c c')
      d.children[i]? (f d.children)[i]?) : Changes R d (mapChildren f d) := by
  cases d with
  | node ps cs => exact changes_node.mpr ⟨hroot ps, h⟩

/-- `fixup_spmi` strips the children of the SPMI controller. -/
theorem fixupSpmi_spec (h : WellNamed d) (harm : ∃ a ∈ d.children, nameOf a = armIo) :
    ∃ d', fixupSpmi keep d = .ok d' ∧ Changes (SpmiStripped keep) d d' := by
  have hstay : ∀ ns ps, ¬ChildOf [armIo, nubSpmi0] ns → SpmiStripped keep ns ps ps :=
    fun ns ps hns => (if_neg fun hc => hns hc.2).symm
  unfold fixupSpmi
  by_cases hkeep : spmiPath ∈ keep
  · rw [if_neg (not_not.mpr hkeep)]
    obtain ⟨a, ha, hname⟩ := harm
    have hcontains := (h.child ha).containsChild nubSpmi0
    have hother : ∀ ns ps, ns.head? ≠ some armIo → SpmiStripped keep ns ps ps := by
      intro ns ps hne
      refine hstay ns ps fun hc => ?_
      obtain ⟨n, rfl⟩ := childOf_iff.mp hc
      exact hne rfl
    by_cases hnub : ∃ s ∈ a.children, nameOf s = nubSpmi0
    · obtain ⟨s, hs, hsname⟩ := hnub
      have hleaf : Changes (fun ns => SpmiStripped keep (armIo :: nubSpmi0 :: ns)) s
          (stripSpmiChildren s) := by
        refine changes_mapChildren (fun ps => hstay _ ps (by decide)) fun i => ?_
        rw [List.getElem?_map]
        cases s.children[i]? with
        | none => exact .none
        | some c =>
          refine .some (changes_root ?_ fun n ns ps => hstay _ ps fun hc => ?_)
          · exact (if_pos ⟨hkeep, childOf_iff.mpr ⟨nameOf c, rfl⟩⟩).symm
          · obtain ⟨m, hm⟩ := childOf_iff.mp hc
            have hlen := congrArg List.length hm
            simp at hlen
      have hinner : ∀ ns ps, ns.head? ≠ some nubSpmi0 →
          SpmiStripped keep (armIo :: ns) ps ps := by
        intro ns ps hne
        refine hstay _ ps fun hc => ?_
        obtain ⟨n, hn⟩ := childOf_iff.mp hc
        obtain rfl : ns = [nubSpmi0, n] := (List.cons.inj hn).2
        exact hne rfl
      obtain ⟨a', ha', hchange⟩ := Changes.onChild (R := fun ns => SpmiStripped keep (armIo :: ns))
        (f := fun s => .ok (stripSpmiChildren s)) (h.child ha) hs hsname rfl hleaf hinner
      refine Changes.onChild h ha hname ?_ hchange hother
      rw [hcontains, decide_eq_true ⟨s, hs, hsname⟩]
      exact ha'
    · have hsame : Changes (fun ns => SpmiStripped keep (armIo :: ns)) a a := by
        cases a with
        | node ps cs =>
          refine changes_node.mpr ⟨hstay _ ps (by decide), fun i => ?_⟩
          cases hc : cs[i]? with
          | none => exact .none
          | some c =>
            refine .some (.refl (fun ns ps => hstay _ ps fun hchild => ?_) c)
            obtain ⟨n, hn⟩ := childOf_iff.mp hchild
            have hname := (List.cons.inj (List.cons.inj hn).2).1
            exact hnub ⟨c, List.mem_of_getElem? hc, hname⟩
      refine Changes.onChild h ha hname ?_ hsame hother
      rw [hcontains, decide_eq_false hnub]
      rfl
  · rw [if_pos hkeep]
    exact ⟨d, rfl, .refl (fun ns ps => (if_neg fun hc => hkeep hc.1).symm) d⟩

theorem numbered_numberDart (n : ℕ) (c : Node) :
    Changes (fun ns => Numbered (armIo :: nameOf c :: ns)) c (numberDart n c).2 := by
  have hchild : ChildOf [armIo] [armIo, nameOf c] := childOf_iff.mpr ⟨nameOf c, rfl⟩
  have hdeep : ∀ m ns ps, Numbered (armIo :: nameOf c :: m :: ns) ps ps := by
    refine fun m ns ps => ⟨fun hb => ?_, fun _ => rfl⟩
    obtain ⟨k, hk⟩ := childOf_iff.mp hb.1
    have := congrArg List.length hk
    simp at this
  unfold numberDart
  split_ifs with hc
  · exact changes_root ⟨fun _ => ⟨n, rfl⟩, fun hb => absurd ⟨hchild, hc⟩ hb⟩ hdeep
  · cases c with
    | node ps cs => exact changes_root ⟨fun hb => absurd hb.2 hc, fun _ => rfl⟩ hdeep

/-- The node keeps `compatible` and is a DART. -/
def IsDart (c : Node) : Prop := get deviceType c.items = some dart ∧ get compatible c.items ≠ none

instance (c : Node) : Decidable (IsDart c) := inferInstanceAs (Decidable (_ ∧ _))

/-- The numbers of the DARTs among some nodes, in order. -/
def dartIds (cs : List Node) : List (Option Value) :=
  (cs.filter fun c => IsDart c).map fun c => get dartId c.items

theorem dartIds_cons_of_pos {cs : List Node} (h : IsDart c) :
    dartIds (c :: cs) = get dartId c.items :: dartIds cs := by
  unfold dartIds
  rw [List.filter_cons, if_pos (decide_eq_true h), List.map_cons]

theorem dartIds_cons_of_neg {cs : List Node} (h : ¬IsDart c) :
    dartIds (c :: cs) = dartIds cs := by
  unfold dartIds
  rw [List.filter_cons, if_neg (by simpa using h)]

/-- The DARTs are numbered in order. -/
theorem dartIds_mapAccum : ∀ (n : ℕ) (cs : List Node), ∃ k,
    dartIds (mapAccum numberDart n cs).2 =
      (List.range' n k).map fun i => some (.str (u32 ++ decimal i))
  | _, [] => ⟨0, rfl⟩
  | n, c :: cs => by
    unfold mapAccum
    by_cases hc : IsDart c
    · have hnum : numberDart n c =
          (n + 1, .node (put dartId (.str (u32 ++ decimal n)) c.items) c.children) := if_pos hc
      obtain ⟨k, hk⟩ := dartIds_mapAccum (n + 1) cs
      have hdart : IsDart (.node (put dartId (.str (u32 ++ decimal n)) c.items) c.children) := by
        unfold IsDart
        rw [Tree.items_node, get_put_of_ne (by decide), get_put_of_ne (by decide)]
        exact hc
      refine ⟨k + 1, ?_⟩
      rw [hnum, List.range'_succ, List.map_cons, ← hk]
      dsimp only
      rw [dartIds_cons_of_pos hdart, Tree.items_node, get_put_self]
    · have hnum : numberDart n c = (n, c) := if_neg hc
      obtain ⟨k, hk⟩ := dartIds_mapAccum n cs
      refine ⟨k, ?_⟩
      rw [hnum, ← hk]
      exact dartIds_cons_of_neg hc

/-- `fixup_darts` numbers the DARTs among the devices. -/
theorem fixupDarts_spec (h : WellNamed d) (harm : ∃ a ∈ d.children, nameOf a = armIo) :
    ∃ d', fixupDarts d = .ok d' ∧ Changes Numbered d d' ∧
      ∀ a ∈ d'.children, nameOf a = armIo → ∃ k,
        dartIds a.children = (List.range k).map fun i => some (.str (u32 ++ decimal i)) := by
  obtain ⟨a, ha, hname⟩ := harm
  have hstay : ∀ ns ps, ¬ChildOf [armIo] ns → Numbered ns ps ps :=
    fun ns ps hns => ⟨fun hb => absurd hb.1 hns, fun _ => rfl⟩
  have hother : ∀ ns ps, ns.head? ≠ some armIo → Numbered ns ps ps := by
    intro ns ps hne
    refine hstay ns ps fun hc => ?_
    obtain ⟨n, rfl⟩ := childOf_iff.mp hc
    exact hne rfl
  have hchange : Changes (fun ns => Numbered (armIo :: ns)) a
      (mapChildren (fun cs => (mapAccum numberDart 0 cs).2) a) := by
    refine changes_mapChildren (fun ps => hstay _ ps (by decide)) fun i => ?_
    rw [getElem?_mapAccum]
    cases a.children[i]? with
    | none => exact .none
    | some c => exact .some (numbered_numberDart _ c)
  obtain ⟨d', hd', hchanges⟩ := Changes.onChild (f := fun a =>
    .ok (mapChildren (fun cs => (mapAccum numberDart 0 cs).2) a)) h ha hname rfl hchange hother
  refine ⟨d', hd', hchanges, fun b hb hbname => ?_⟩
  obtain ⟨i, c, c', hi, hc, hf, rfl⟩ := onChild_eq_ok_iff.mp hd'
  rw [Tree.children_node] at hb
  obtain ⟨j, hj⟩ := List.mem_iff_getElem?.mp hb
  by_cases hij : i = j
  · subst hij
    rw [List.getElem?_set_self (List.getElem?_eq_some_iff.mp hc).1] at hj
    obtain rfl : c' = b := Option.some.inj hj
    obtain ⟨k, hk⟩ := dartIds_mapAccum 0 c.children
    rw [← Except.ok.inj hf, mapChildren, Tree.children_node, hk]
    exact ⟨k, by rw [List.range_eq_range']⟩
  · rw [List.getElem?_set_ne hij] at hj
    exact absurd (hi.unique (h.childAt_iff.mpr ⟨b, hj, hbname⟩)) hij

/-! ## What the passes make of a node -/

/-- The keys that the passes may change. -/
def filteredKeys : List Text := [compatible, deviceType, dartId]

/-- The node has a supported driver. -/
def Driven (ps : List Entry) : Prop := ∃ v, get compatible ps = some v ∧ Supported v

/-- The node is to keep `compatible`: it has it, its path is a kept path or below one or its value
contains a supported driver, and it is no child of a kept SPMI controller other than the PMU. -/
def KeepsCompatible (keep ns : List Text) (ps : List Entry) : Prop :=
  ∃ v, get compatible ps = some v ∧ (KeptPath keep (pathOf ns) ∨ Supported v) ∧
    ¬(spmiPath ∈ keep ∧ ChildOf [armIo, nubSpmi0] ns ∧ ¬pmuSpmi <+: compatBytes v)

/-- The node is to lose `device_type`: it is the second display, outside the kept paths and left
without `compatible`. -/
def LosesType (keep ns : List Text) (ps : List Entry) : Prop :=
  pathOf ns = dispext0Path ∧ ¬KeptPath keep dispext0Path ∧ ¬KeepsCompatible keep ns ps ∧
    get deviceType ps = some extDisplay

/-- The node is to be numbered: it is a DART among the devices that keeps `compatible`. -/
def NumberedDart (keep ns : List Text) (ps : List Entry) : Prop :=
  ChildOf [armIo] ns ∧ get deviceType ps = some dart ∧ KeepsCompatible keep ns ps

/-- The properties of a node before and after the passes. -/
structure NodeFiltered (keep ns : List Text) (ps ps' : List Entry) : Prop where
  kept : KeepsCompatible keep ns ps → get compatible ps' = get compatible ps
  stripped : ¬KeepsCompatible keep ns ps → get compatible ps' = none
  untyped : LosesType keep ns ps → get deviceType ps' = none
  typed : ¬LosesType keep ns ps → get deviceType ps' = get deviceType ps
  unnumbered : ¬NumberedDart keep ns ps → get dartId ps' = get dartId ps
  others : others filteredKeys ps' = others filteredKeys ps

variable {ns : List Text} {ps ps' : List Entry} {rel : Text}

theorem stripDriver_of_driven (h : Driven ps) : stripDriver ps = ps := by
  obtain ⟨v, hv, hs⟩ := h
  unfold stripDriver
  rw [hv]
  exact if_pos hs

theorem stripDriver_cases (ps : List Entry) :
    stripDriver ps = ps ∨ stripDriver ps = remove compatible ps := by
  unfold stripDriver
  split
  · exact Or.inl rfl
  · split_ifs
    · exact Or.inl rfl
    · exact Or.inr rfl

theorem get_stripDriver_of_ne {k : Text} (hk : compatible ≠ k) (ps : List Entry) :
    get k (stripDriver ps) = get k ps := by
  rcases stripDriver_cases ps with h | h <;> rw [h]
  exact get_remove_of_ne hk ps

theorem get_stripDriver (h : ¬Driven ps) : get compatible (stripDriver ps) = none := by
  unfold stripDriver
  split
  · next hn => exact hn
  · next v hv =>
    rw [if_neg fun hs => h ⟨v, hv, hs⟩]
    exact get_remove_self ps

/-- `del_compat` leaves a node on a kept path. -/
theorem stripProps_of_kept (h : KeptPath keep rel) : stripProps keep rel ps = ps := if_pos h

/-- The node is the second display and has lost its driver. -/
def Undriven (rel : Text) (ps : List Entry) : Prop :=
  rel = dispext0Path ∧ ¬Driven ps ∧ get deviceType ps = some extDisplay

theorem stripProps_of_undriven (h : ¬KeptPath keep rel) (hu : Undriven rel ps) :
    stripProps keep rel ps = remove deviceType (stripDriver ps) := by
  unfold stripProps
  rw [if_neg h]
  refine if_pos ⟨hu.1, get_stripDriver hu.2.1, ?_⟩
  rw [get_stripDriver_of_ne (by decide), hu.2.2]

theorem stripProps_of_not_undriven (h : ¬KeptPath keep rel) (hu : ¬Undriven rel ps) :
    stripProps keep rel ps = stripDriver ps := by
  unfold stripProps
  rw [if_neg h]
  refine if_neg fun hc => hu ⟨hc.1, fun hd => ?_, ?_⟩
  · obtain ⟨v, hv, -⟩ := id hd
    have hnone := hc.2.1
    rw [stripDriver_of_driven hd, hv] at hnone
    cases hnone
  · rw [← hc.2.2, get_stripDriver_of_ne (by decide)]

/-- The cases of `del_compat`. -/
theorem stripProps_cases (keep : List Text) (rel : Text) (ps : List Entry) :
    stripProps keep rel ps = ps ∨ stripProps keep rel ps = stripDriver ps ∨
      stripProps keep rel ps = remove deviceType (stripDriver ps) := by
  by_cases h : KeptPath keep rel
  · exact Or.inl (stripProps_of_kept h)
  · by_cases hu : Undriven rel ps
    · exact Or.inr (Or.inr (stripProps_of_undriven h hu))
    · exact Or.inr (Or.inl (stripProps_of_not_undriven h hu))

theorem get_stripProps_of_ne {k : Text} (hk : compatible ≠ k) (hk' : deviceType ≠ k) :
    get k (stripProps keep rel ps) = get k ps := by
  rcases stripProps_cases keep rel ps with h | h | h <;> rw [h]
  · exact get_stripDriver_of_ne hk ps
  · rw [get_remove_of_ne hk', get_stripDriver_of_ne hk]

theorem others_stripDriver (ps : List Entry) :
    Fixup.others filteredKeys (stripDriver ps) = Fixup.others filteredKeys ps := by
  rcases stripDriver_cases ps with h | h <;> rw [h]
  exact others_remove (by decide) ps

theorem others_stripProps (keep : List Text) (rel : Text) (ps : List Entry) :
    Fixup.others filteredKeys (stripProps keep rel ps) = Fixup.others filteredKeys ps := by
  rcases stripProps_cases keep rel ps with h | h | h <;> rw [h]
  · exact others_stripDriver ps
  · rw [others_remove (by decide), others_stripDriver]

/-- `del_compat` leaves `compatible` to the kept paths and the supported drivers. -/
theorem get_compatible_stripProps (keep : List Text) (rel : Text) (ps : List Entry) :
    (KeptPath keep rel ∨ Driven ps → get compatible (stripProps keep rel ps) = get compatible ps) ∧
      (¬(KeptPath keep rel ∨ Driven ps) → get compatible (stripProps keep rel ps) = none) := by
  by_cases h : KeptPath keep rel
  · rw [stripProps_of_kept h]
    exact ⟨fun _ => rfl, fun hn => absurd (Or.inl h) hn⟩
  · have hstrip : get compatible (stripProps keep rel ps) = get compatible (stripDriver ps) := by
      by_cases hu : Undriven rel ps
      · rw [stripProps_of_undriven h hu, get_remove_of_ne (by decide)]
      · rw [stripProps_of_not_undriven h hu]
    rw [hstrip]
    refine ⟨fun hk => ?_, fun hn => get_stripDriver fun hd => hn (Or.inr hd)⟩
    rw [stripDriver_of_driven (hk.resolve_left h)]

/-- `del_compat` takes the type of the second display when it takes its driver. -/
theorem get_deviceType_stripProps (keep : List Text) (rel : Text) (ps : List Entry) :
    (¬KeptPath keep rel ∧ Undriven rel ps → get deviceType (stripProps keep rel ps) = none) ∧
      (¬(¬KeptPath keep rel ∧ Undriven rel ps) →
        get deviceType (stripProps keep rel ps) = get deviceType ps) := by
  refine ⟨fun h => ?_, fun h => ?_⟩
  · rw [stripProps_of_undriven h.1 h.2, get_remove_self]
  · by_cases hk : KeptPath keep rel
    · rw [stripProps_of_kept hk]
    · rw [stripProps_of_not_undriven hk fun hu => h ⟨hk, hu⟩, get_stripDriver_of_ne (by decide)]

theorem stripSpmi_cases (ps : List Entry) : stripSpmi ps = ps ∨ stripSpmi ps = remove compatible ps := by
  unfold stripSpmi
  split
  · exact Or.inl rfl
  · split_ifs
    · exact Or.inl rfl
    · exact Or.inr rfl

/-- A node after `del_compat` and `fixup_spmi` has `compatible` if it is to keep it. -/
theorem get_compatible_of_spmiStripped (h : SpmiStripped keep ns (stripProps keep (pathOf ns) ps) ps') :
    (KeepsCompatible keep ns ps → get compatible ps' = get compatible ps) ∧
      (¬KeepsCompatible keep ns ps → get compatible ps' = none) := by
  obtain ⟨hkeep, hlose⟩ := get_compatible_stripProps keep (pathOf ns) ps
  obtain ⟨ps₁, hps₁⟩ : ∃ ps₁, ps₁ = stripProps keep (pathOf ns) ps := ⟨_, rfl⟩
  rw [← hps₁] at h hkeep hlose
  have hnone : get compatible ps₁ = none → get compatible ps' = none := by
    intro hn
    have hsame : stripSpmi ps₁ = ps₁ := by
      unfold stripSpmi
      rw [hn]
    rw [h, hsame, ite_self, hn]
  by_cases hA : KeptPath keep (pathOf ns) ∨ Driven ps
  · have hps := hkeep hA
    cases hv : get compatible ps with
    | none =>
      rw [hv] at hps
      refine ⟨?_, fun _ => hnone hps⟩
      rintro ⟨v, hv', -⟩
      rw [hv] at hv'
      cases hv'
    | some v =>
      rw [hv] at hps
      have hA' : KeptPath keep (pathOf ns) ∨ Supported v := by
        refine hA.imp_right ?_
        rintro ⟨w, hw, hs⟩
        rw [hv] at hw
        exact Option.some.inj hw ▸ hs
      by_cases hB : spmiPath ∈ keep ∧ ChildOf [armIo, nubSpmi0] ns
      · have hstrip : ps' = stripSpmi ps₁ := h.trans (if_pos hB)
        unfold stripSpmi at hstrip
        rw [hps] at hstrip
        dsimp only at hstrip
        split_ifs at hstrip with hpmu
        · refine ⟨fun _ => by rw [hstrip, hps], fun hn => ?_⟩
          exact absurd ⟨v, hv, hA', fun hc => hc.2.2 hpmu⟩ hn
        · refine ⟨?_, fun _ => by rw [hstrip, get_remove_self]⟩
          rintro ⟨w, hw, -, hspmi⟩
          rw [hv] at hw
          obtain rfl := Option.some.inj hw
          exact absurd ⟨hB.1, hB.2, hpmu⟩ hspmi
      · have hstrip : ps' = ps₁ := h.trans (if_neg hB)
        refine ⟨fun _ => by rw [hstrip, hps], fun hn => ?_⟩
        exact absurd ⟨v, hv, hA', fun hc => hB ⟨hc.1, hc.2.1⟩⟩ hn
  · refine ⟨?_, fun _ => hnone (hlose hA)⟩
    rintro ⟨v, hv, hor, -⟩
    exact absurd (hor.imp_right fun hs => ⟨v, hv, hs⟩) hA

/-- `fixup_spmi` changes `compatible` alone. -/
theorem SpmiStripped.frame (h : SpmiStripped keep ns ps ps') :
    (∀ k, compatible ≠ k → get k ps' = get k ps) ∧
      Fixup.others filteredKeys ps' = Fixup.others filteredKeys ps := by
  have hcases : ps' = ps ∨ ps' = remove compatible ps := by
    unfold SpmiStripped at h
    split_ifs at h
    · rw [h]
      exact stripSpmi_cases ps
    · exact Or.inl h
  rcases hcases with rfl | rfl
  · exact ⟨fun _ _ => rfl, rfl⟩
  · exact ⟨fun k hk => get_remove_of_ne hk ps, others_remove (by decide) ps⟩

/-- `fixup_darts` changes `dart-id` alone. -/
theorem Numbered.frame (h : Numbered ns ps ps') :
    (∀ k, dartId ≠ k → get k ps' = get k ps) ∧
      Fixup.others filteredKeys ps' = Fixup.others filteredKeys ps := by
  by_cases hb : BoundDart ns ps
  · obtain ⟨n, rfl⟩ := h.1 hb
    exact ⟨fun k hk => get_put_of_ne hk ps, others_put (by decide) ps⟩
  · rw [h.2 hb]
    exact ⟨fun _ _ => rfl, rfl⟩

/-- The second display is no child of the SPMI controller. -/
theorem pathOf_spmi_child (n : Text) : pathOf [armIo, nubSpmi0, n] ≠ dispext0Path := by
  intro h
  have hhead : (pathOf [armIo, nubSpmi0, n]).take 8 = "arm-io/n".toList := rfl
  rw [h] at hhead
  revert hhead
  decide

/-- The second display loses its type if it is outside the kept paths and has lost its driver. -/
theorem losesType_iff :
    LosesType keep ns ps ↔ ¬KeptPath keep (pathOf ns) ∧ Undriven (pathOf ns) ps := by
  constructor
  · rintro ⟨hpath, hkept, hkeeps, htype⟩
    rw [hpath]
    refine ⟨hkept, rfl, ?_, htype⟩
    rintro ⟨v, hv, hs⟩
    refine hkeeps ⟨v, hv, Or.inr hs, ?_⟩
    rintro ⟨-, hchild, -⟩
    obtain ⟨n, rfl⟩ := childOf_iff.mp hchild
    exact pathOf_spmi_child n hpath
  · rintro ⟨hkept, hpath, hdriven, htype⟩
    refine ⟨hpath, hpath ▸ hkept, ?_, htype⟩
    rintro ⟨v, hv, hor, -⟩
    exact hdriven ⟨v, hv, hor.resolve_left hkept⟩

/-- What the three passes together make of a node. -/
theorem nodeFiltered {ps₁ ps₂ : List Entry} (h₁ : Stripped keep ns ps ps₁)
    (h₂ : SpmiStripped keep ns ps₁ ps₂) (h₃ : Numbered ns ps₂ ps') :
    NodeFiltered keep ns ps ps' := by
  subst h₁
  obtain ⟨hkeeps, hloses⟩ := get_compatible_of_spmiStripped h₂
  obtain ⟨huntyped, htyped⟩ := get_deviceType_stripProps keep (pathOf ns) ps
  obtain ⟨hget₂, hothers₂⟩ := h₂.frame
  obtain ⟨hget₃, hothers₃⟩ := h₃.frame
  have hcompat := hget₃ compatible (by decide)
  have htype := (hget₃ deviceType (by decide)).trans (hget₂ deviceType (by decide))
  rw [← losesType_iff] at huntyped htyped
  refine ⟨fun h => ?_, fun h => ?_, fun h => ?_, fun h => ?_, fun h => ?_, ?_⟩
  · rw [hcompat, hkeeps h]
  · rw [hcompat, hloses h]
  · rw [htype, huntyped h]
  · rw [htype, htyped h]
  · -- The node is no DART, or it has lost `compatible`.
    have hunbound : ¬BoundDart ns ps₂ := by
      rintro ⟨hchild, hdart, hsome⟩
      have hkept : KeepsCompatible keep ns ps := by_contra fun hn => hsome (hloses hn)
      rw [hget₂ deviceType (by decide)] at hdart
      refine h ⟨hchild, ?_, hkept⟩
      by_cases hl : LosesType keep ns ps
      · rw [huntyped hl] at hdart
        cases hdart
      · rwa [htyped hl] at hdart
    rw [h₃.2 hunbound, hget₂ dartId (by decide),
      get_stripProps_of_ne (by decide) (by decide)]
  · rw [hothers₃, hothers₂, others_stripProps]

/-! ## The tree -/

/-- What the passes do to a tree: each node is filtered by its names from the root, and the DARTs
among the devices are numbered in order. -/
structure Filtered (keep : List Text) (d d' : Node) : Prop where
  nodes : Changes (NodeFiltered keep) d d'
  darts : ∀ a ∈ d'.children, nameOf a = armIo → ∃ k,
    dartIds a.children = (List.range k).map fun i => some (.str (u32 ++ decimal i))

theorem keepsNames_stripped : KeepsNames (Stripped keep) := by
  rintro ns ps _ rfl
  exact get_stripProps_of_ne (by decide) (by decide)

theorem keepsNames_spmiStripped : KeepsNames (SpmiStripped keep) :=
  fun _ _ _ h => h.frame.1 nameKey (by decide)

/-- The child with a name is there after a change that keeps the names. -/
theorem Changes.exists_child (h : Changes R d d') (hR : KeepsNames R)
    (hkey : ∃ a ∈ d.children, nameOf a = key) : ∃ a ∈ d'.children, nameOf a = key := by
  obtain ⟨a, ha, hname⟩ := hkey
  obtain ⟨i, hi⟩ := List.mem_iff_getElem?.mp ha
  cases d with
  | node ps cs =>
    cases d' with
    | node ps' cs' =>
      have hr := (changes_node.mp h).2 i
      rw [Tree.children_node] at hi ⊢
      cases hc' : cs'[i]? with
      | none => rw [hi, hc'] at hr; cases hr
      | some c' =>
        rw [hi, hc', rel_some_iff] at hr
        exact ⟨c', List.mem_of_getElem? hc', (hr.nameOf_eq fun ns => hR _).trans hname⟩

/-- The passes filter the drivers of a well-named tree with an `arm-io`, and do nothing else. -/
theorem filterDrivers_local (keep : List Text) (d : Node) (h : WellNamed d)
    (harm : ∃ a ∈ d.children, nameOf a = armIo) :
    ∃ d', filterDrivers keep d = .ok d' ∧ Filtered keep d d' := by
  have hroot : lstrip [] = pathOf [] := rfl
  obtain ⟨d₁, hd₁, h₁⟩ : ∃ t', delCompat keep [] d = .ok t' ∧ Changes (Stripped keep) d t' :=
    delCompat_spec d hroot h
  have hwell₁ := h₁.wellNamed keepsNames_stripped h
  have harm₁ := h₁.exists_child keepsNames_stripped harm
  obtain ⟨d₂, hd₂, h₂⟩ : ∃ t', fixupSpmi keep d₁ = .ok t' ∧ Changes (SpmiStripped keep) d₁ t' :=
    fixupSpmi_spec hwell₁ harm₁
  have hwell₂ := h₂.wellNamed keepsNames_spmiStripped hwell₁
  have harm₂ := h₂.exists_child keepsNames_spmiStripped harm₁
  obtain ⟨d₃, hd₃, h₃, hdarts⟩ := fixupDarts_spec hwell₂ harm₂
  refine ⟨d₃, ?_, ?_, hdarts⟩
  · simp only [filterDrivers, hd₁, hd₂, hd₃, bind, Except.bind]
  · have h₁₂ := h₁.trans keepsNames_stripped h₂
    have hkeeps : KeepsNames fun ns ps ps'' =>
        ∃ ps', Stripped keep ns ps ps' ∧ SpmiStripped keep ns ps' ps'' := by
      rintro ns ps ps'' ⟨ps', hs, hs'⟩
      rw [keepsNames_spmiStripped _ _ _ hs', keepsNames_stripped _ _ _ hs]
    refine (h₁₂.trans hkeeps h₃).mono ?_
    rintro ns ps ps' ⟨ps₂, ⟨ps₁, hs₁, hs₂⟩, hs₃⟩
    exact nodeFiltered hs₁ hs₂ hs₃

/-- A tree with a DART of the display and a UART of another make. -/
def oneDart : Node :=
  .node [(nameKey, deviceTree)] [.node [(nameKey, .str armIo)]
    [.node [(nameKey, .str "dart-dcp".toList), (deviceType, dart),
        (compatible, .str "dart,t8110".toList)] [],
      .node [(nameKey, .str "uart0".toList), (compatible, .str "uart-1".toList)] []]]

theorem wellNamed_leaf (ps : List Entry) : WellNamed (.node ps []) := .node nofun .nil nofun

theorem wellNamed_oneDart : WellNamed oneDart := by
  refine .node ?_ (by decide) ?_ <;> rw [List.forall_mem_singleton]
  · exact ⟨armIo, by decide, by decide⟩
  · refine .node ?_ (by decide) ?_ <;> rw [List.forall_mem_cons, List.forall_mem_singleton]
    · exact ⟨⟨"dart-dcp".toList, by decide, by decide⟩, "uart0".toList, by decide, by decide⟩
    · exact ⟨wellNamed_leaf _, wellNamed_leaf _⟩

/-- The passes keep the DART for the display, and number it. -/
theorem filterDrivers_local_oneDart :
    ∃ d', filterDrivers ["arm-io/dart-dcp".toList] oneDart = .ok d' ∧
      Filtered ["arm-io/dart-dcp".toList] oneDart d' :=
  filterDrivers_local _ oneDart wellNamed_oneDart
    ⟨_, List.mem_singleton_self _, by decide⟩

end DarwinVm.Dt.Fixup
