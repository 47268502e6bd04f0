import DarwinVm.Lib.Except
import DarwinVm.Lib.Bytes

/-!
# Counted trees

Trees whose nodes carry a list of items, and the format that writes them as bytes: for each node
the number of its items, the number of its children, the items, and the children. `readTree` reads
the format over any source of bytes, with any reader for the counts and for the items.

`readTree_eq_ok_iff` says what a reader accepts: the source is spanned by the tree
(`Tree.Spans`), which runs through the items and the children in order. Spans of bytes are the
layout of a tree (`Cursor.spans_iff_layout`), so each reader of the format is known by what it does
on one header and on one item.
-/

universe u v

namespace DarwinVm

/-- A node with its items and its child nodes. -/
inductive Tree (α : Type u) : Type u
  | node (items : List α) (children : List (Tree α))

namespace Tree

variable {α : Type u} {β : Type v}

/-- The items of the root. -/
def items : Tree α → List α
  | node ps _ => ps

/-- The children of the root. -/
def children : Tree α → List (Tree α)
  | node _ cs => cs

@[simp] theorem items_node (ps : List α) (cs : List (Tree α)) : (node ps cs).items = ps := rfl

@[simp] theorem children_node (ps : List α) (cs : List (Tree α)) :
    (node ps cs).children = cs := rfl

/-- Induction over the children of each node. -/
@[elab_as_elim, induction_eliminator]
theorem induct {P : Tree α → Prop} (node : ∀ ps cs, (∀ c ∈ cs, P c) → P (node ps cs))
    (t : Tree α) : P t :=
  match t with
  | .node ps cs => node ps cs fun c _ => induct node c

mutual
/-- Equality of trees. -/
def decEq [DecidableEq α] : (t t' : Tree α) → Decidable (t = t')
  | node ps cs, node ps' cs' =>
    match instDecidableEqList ps ps', decEqList cs cs' with
    | isTrue h, isTrue h' => isTrue (by rw [h, h'])
    | isFalse h, _ => isFalse fun h' => h (Tree.node.inj h').1
    | _, isFalse h => isFalse fun h' => h (Tree.node.inj h').2

/-- Equality of lists of trees. -/
def decEqList [DecidableEq α] : (l l' : List (Tree α)) → Decidable (l = l')
  | [], [] => isTrue rfl
  | [], _ :: _ => isFalse nofun
  | _ :: _, [] => isFalse nofun
  | c :: l, c' :: l' =>
    match decEq c c', decEqList l l' with
    | isTrue h, isTrue h' => isTrue (by rw [h, h'])
    | isFalse h, _ => isFalse fun h' => h (List.cons.inj h').1
    | _, isFalse h => isFalse fun h' => h (List.cons.inj h').2
end

instance [DecidableEq α] : DecidableEq (Tree α) := decEq

mutual
/-- Combine the items of each node with what its children give. -/
def fold (f : List α → List β → β) : Tree α → β
  | node ps cs => f ps (foldList f cs)

/-- What the trees of a list give. -/
def foldList (f : List α → List β → β) : List (Tree α) → List β
  | [] => []
  | c :: cs => fold f c :: foldList f cs
end

theorem foldList_eq_map (f : List α → List β → β) (cs : List (Tree α)) :
    foldList f cs = cs.map (fold f) := by
  induction cs with
  | nil => rfl
  | cons c cs ih => rw [foldList, ih, List.map_cons]

@[simp] theorem fold_node (f : List α → List β → β) (ps : List α) (cs : List (Tree α)) :
    fold f (node ps cs) = f ps (cs.map (fold f)) := by
  rw [fold, foldList_eq_map]

/-- The number of levels. -/
def depth : Tree α → ℕ := fold fun _ ds => ds.foldr max 0 + 1

/-- The items of all nodes, each node's before its children's. -/
def flatten : Tree α → List α := fold fun ps cs => ps ++ cs.flatten

/-- The same tree with other items. -/
def map (g : α → β) : Tree α → Tree β := fold fun ps cs => node (ps.map g) cs

/-- The same tree with the items of each node changed. -/
def mapItems (f : List α → List β) : Tree α → Tree β := fold fun ps cs => node (f ps) cs

/-- The same tree with other items, if each item gives one. -/
def traverse {α β ε : Type} (g : α → Except ε β) : Tree α → Except ε (Tree β) :=
  fold fun ps outs => do
    let ps ← ps.mapM g
    let cs ← outs.mapM id
    .ok (node ps cs)

/-- The items of every node are as `P` says. -/
def AllItems (P : List α → Prop) : Tree α → Prop := fold fun ps cs => P ps ∧ ∀ c ∈ cs, c

/-- Every node has fewer than `2^32` items and children. -/
def Counted : Tree α → Prop :=
  fold fun ps cs => ps.length < 2 ^ 32 ∧ cs.length < 2 ^ 32 ∧ ∀ c ∈ cs, c

@[simp] theorem depth_node (ps : List α) (cs : List (Tree α)) :
    (node ps cs).depth = (cs.map depth).foldr max 0 + 1 := fold_node _ _ _

@[simp] theorem flatten_node (ps : List α) (cs : List (Tree α)) :
    (node ps cs).flatten = ps ++ cs.flatMap flatten := fold_node _ _ _

@[simp] theorem map_node (g : α → β) (ps : List α) (cs : List (Tree α)) :
    (node ps cs).map g = node (ps.map g) (cs.map (map g)) := fold_node _ _ _

@[simp] theorem mapItems_node (f : List α → List β) (ps : List α) (cs : List (Tree α)) :
    (node ps cs).mapItems f = node (f ps) (cs.map (mapItems f)) := fold_node _ _ _

@[simp] theorem traverse_node {α β ε : Type} (g : α → Except ε β) (ps : List α)
    (cs : List (Tree α)) :
    (node ps cs).traverse g = (do
      let ps ← ps.mapM g
      let cs ← cs.mapM (traverse g)
      .ok (node ps cs)) := by
  rw [traverse, fold_node, List.mapM_map]
  rfl

@[simp] theorem counted_node (ps : List α) (cs : List (Tree α)) :
    (node ps cs).Counted ↔ ps.length < 2 ^ 32 ∧ cs.length < 2 ^ 32 ∧ ∀ c ∈ cs, c.Counted := by
  rw [Counted, fold_node, List.length_map, List.forall_mem_map]

theorem foldr_max_le {l : List ℕ} {k : ℕ} : l.foldr max 0 ≤ k ↔ ∀ n ∈ l, n ≤ k := by
  induction l with
  | nil => simp
  | cons n l ih => simp [ih]

/-- A tree is deeper than its children. -/
theorem depth_node_le {ps : List α} {cs : List (Tree α)} {k : ℕ} :
    (node ps cs).depth ≤ k + 1 ↔ ∀ c ∈ cs, c.depth ≤ k := by
  rw [depth_node, Nat.add_le_add_iff_right, foldr_max_le, List.forall_mem_map]

theorem depth_pos (t : Tree α) : 0 < t.depth := by
  cases t with
  | node ps cs => rw [depth_node]; omega

@[simp] theorem counted_map {g : α → β} {t : Tree α} : (t.map g).Counted ↔ t.Counted := by
  induction t with
  | node ps cs ih =>
    simp only [map_node, counted_node, List.length_map, List.forall_mem_map]
    exact and_congr_right fun _ => and_congr_right fun _ => forall₂_congr ih

@[simp] theorem depth_map (g : α → β) (t : Tree α) : (t.map g).depth = t.depth := by
  induction t with
  | node ps cs ih =>
    rw [map_node, depth_node, depth_node, List.map_map]
    congr 2
    exact List.map_congr_left ih

@[simp] theorem flatten_map (g : α → β) (t : Tree α) :
    (t.map g).flatten = t.flatten.map g := by
  induction t with
  | node ps cs ih =>
    simp only [map_node, flatten_node, List.map_append, List.map_flatMap, List.flatMap_map]
    congr 1
    exact List.flatMap_congr ih

theorem map_map {γ : Type*} (g : α → β) (g' : β → γ) (t : Tree α) :
    (t.map g).map g' = t.map fun a => g' (g a) := by
  induction t with
  | node ps cs ih =>
    simp only [map_node, List.map_map]
    congr 1
    exact List.map_congr_left ih

/-- Maps that agree on the items of a tree agree on the tree. -/
theorem map_congr {g g' : α → β} {t : Tree α} (h : ∀ a ∈ t.flatten, g a = g' a) :
    t.map g = t.map g' := by
  induction t with
  | node ps cs ih =>
    simp only [flatten_node, List.mem_append, List.mem_flatMap] at h
    rw [map_node, map_node, List.map_congr_left fun a ha => h a (Or.inl ha)]
    congr 1
    exact List.map_congr_left fun c hc => ih c hc fun a ha => h a (Or.inr ⟨c, hc, ha⟩)

theorem map_id_of {g : α → α} {t : Tree α} (h : ∀ a ∈ t.flatten, g a = a) : t.map g = t := by
  induction t with
  | node ps cs ih =>
    simp only [flatten_node, List.mem_append, List.mem_flatMap] at h
    rw [map_node, List.map_congr_left fun a ha => h a (Or.inl ha), List.map_id']
    congr 1
    exact (List.map_congr_left fun c hc => ih c hc fun a ha => h a (Or.inr ⟨c, hc, ha⟩)).trans
      (List.map_id' cs)

theorem allItems_node {P : List α → Prop} {ps : List α} {cs : List (Tree α)} :
    (node ps cs).AllItems P ↔ P ps ∧ ∀ c ∈ cs, c.AllItems P := by
  rw [AllItems, fold_node, List.forall_mem_map]

theorem mapItems_map {f : α → β} {g : List α → List α} {g' : List β → List β}
    (h : ∀ l, (g l).map f = g' (l.map f)) (t : Tree α) :
    (t.map f).mapItems g' = (t.mapItems g).map f := by
  induction t with
  | node ps cs ih =>
    simp only [map_node, mapItems_node, List.map_map, h]
    congr 1
    exact List.map_congr_left ih

theorem Counted.mapItems {g : List α → List α} (h : ∀ l, (g l).length ≤ l.length) {t : Tree α}
    (ht : t.Counted) : (t.mapItems g).Counted := by
  induction t with
  | node ps cs ih =>
    obtain ⟨hps, hcs, hall⟩ := (counted_node ps cs).1 ht
    rw [mapItems_node, counted_node, List.length_map, List.forall_mem_map]
    exact ⟨(h ps).trans_lt hps, hcs, fun c hc => ih c hc (hall c hc)⟩

theorem flatten_mapItems_subset {g : List α → List α} (h : ∀ l, g l ⊆ l) (t : Tree α) :
    (t.mapItems g).flatten ⊆ t.flatten := by
  induction t with
  | node ps cs ih =>
    intro a ha
    simp only [mapItems_node, flatten_node, List.mem_append, List.mem_flatMap,
      List.mem_map] at ha ⊢
    rcases ha with ha | ⟨_, ⟨c, hc, rfl⟩, ha⟩
    · exact Or.inl (h ps ha)
    · exact Or.inr ⟨c, hc, ih c hc ha⟩

theorem mapItems_eq_self {g : List α → List α} {t : Tree α} (h : t.AllItems fun l => g l = l) :
    t.mapItems g = t := by
  induction t with
  | node ps cs ih =>
    obtain ⟨hps, hcs⟩ := allItems_node.1 h
    rw [mapItems_node, hps]
    congr 1
    exact (List.map_congr_left fun c hc => ih c hc (hcs c hc)).trans (List.map_id' cs)

theorem AllItems.mono {P Q : List α → Prop} (hPQ : ∀ l, P l → Q l) {t : Tree α}
    (h : t.AllItems P) : t.AllItems Q := by
  induction t with
  | node ps cs ih =>
    obtain ⟨hps, hcs⟩ := allItems_node.1 h
    exact allItems_node.2 ⟨hPQ ps hps, fun c hc => ih c hc (hcs c hc)⟩

/-- A tree is traversed with success if each item is mapped with success. -/
theorem traverse_eq_ok_iff {α β ε : Type} {g : α → Except ε β} {P : α → Prop} {f : α → β}
    (h : ∀ a b, g a = .ok b ↔ P a ∧ b = f a) {t : Tree α} {t' : Tree β} :
    t.traverse g = .ok t' ↔ (∀ a ∈ t.flatten, P a) ∧ t' = t.map f := by
  induction t generalizing t' with
  | node ps cs ih =>
    have hcs : ∀ r, cs.mapM (traverse g) = .ok r ↔
        (∀ c ∈ cs, ∀ a ∈ c.flatten, P a) ∧ r = cs.map (map f) := fun r =>
      mapM_eq_ok_iff fun c hc b => ih c hc
    simp only [traverse_node, bind, bind_eq_ok, hcs, mapM_eq_ok_iff fun a _ => h a,
      Except.ok.injEq, flatten_node, map_node, List.mem_append, List.mem_flatMap]
    constructor
    · rintro ⟨_, ⟨hps, rfl⟩, _, ⟨hcs, rfl⟩, rfl⟩
      refine ⟨?_, rfl⟩
      rintro a (ha | ⟨c, hc, ha⟩)
      · exact hps a ha
      · exact hcs c hc a ha
    · rintro ⟨hP, rfl⟩
      exact ⟨_, ⟨fun a ha => hP a (Or.inl ha), rfl⟩, _,
        ⟨fun c hc a ha => hP a (Or.inr ⟨c, hc, ha⟩), rfl⟩, rfl⟩

end Tree

/-! ## Addresses -/

namespace Tree

variable {α : Type u}

/-- The items of the node at an address, which is a path of child indices. -/
def itemsAt : Tree α → List ℕ → Option (List α)
  | node ps _, [] => some ps
  | node _ cs, i :: p => cs[i]?.bind fun c => c.itemsAt p

/-- The tree with the items of one node changed. -/
def modifyAt (f : List α → List α) : Tree α → List ℕ → Tree α
  | node ps cs, [] => node (f ps) cs
  | node ps cs, i :: p => node ps (cs.modify i fun c => c.modifyAt f p)

@[simp] theorem itemsAt_nil (t : Tree α) : t.itemsAt [] = some t.items := by
  cases t with
  | node ps cs => rfl

theorem itemsAt_cons (t : Tree α) (i : ℕ) (p : List ℕ) :
    t.itemsAt (i :: p) = t.children[i]?.bind fun c => c.itemsAt p := by
  cases t with
  | node ps cs => rfl

/-- Only the items of the node at the address change. -/
theorem itemsAt_modifyAt (f : List α → List α) (t : Tree α) (p q : List ℕ) :
    (t.modifyAt f p).itemsAt q = if q = p then (t.itemsAt p).map f else t.itemsAt q := by
  induction p generalizing t q with
  | nil =>
    cases t with
    | node ps cs => cases q <;> simp [modifyAt, itemsAt]
  | cons i p ih =>
    cases t with
    | node ps cs =>
      cases q with
      | nil => simp [modifyAt, itemsAt]
      | cons j q =>
        simp only [modifyAt, itemsAt, List.getElem?_modify, List.cons.injEq]
        by_cases hij : i = j
        · subst hij
          cases hc : cs[i]? with
          | none => simp
          | some c =>
            simp only [if_true, Option.map_eq_map, Option.map_some, Option.bind_some, ih, true_and]
        · have hji : ¬(j = i ∧ q = p) := fun h => hij h.1.symm
          rw [if_neg hji]
          cases hc : cs[j]? with
          | none => rfl
          | some c => simp [hij]

/-- The items at all addresses make up the tree. -/
theorem ext_itemsAt {t t' : Tree α} (h : ∀ q, t.itemsAt q = t'.itemsAt q) : t = t' := by
  induction t generalizing t' with
  | node ps cs ih =>
    cases t' with
    | node ps' cs' =>
      have hps : ps = ps' := Option.some.inj (h [])
      have hcs : ∀ (i : ℕ) (q : List ℕ), (cs[i]?.bind fun c => itemsAt c q) =
          cs'[i]?.bind fun c => itemsAt c q := fun i q => h (i :: q)
      rw [hps, node.injEq, and_iff_right rfl]
      apply List.ext_getElem?
      intro i
      cases hc : cs[i]? with
      | none =>
        have := hcs i []
        rw [hc] at this
        cases hc' : cs'[i]? with
        | none => rfl
        | some c' => simp [hc'] at this
      | some c =>
        cases hc' : cs'[i]? with
        | none =>
          have := hcs i []
          simp [hc, hc'] at this
        | some c' =>
          congr 1
          refine ih c (List.mem_of_getElem? hc) fun q => ?_
          have := hcs i q
          rwa [hc, hc'] at this

/-- The items of a tree with the items of one node changed. -/
theorem mem_flatten_modifyAt {f : List α → List α} {t : Tree α} {p : List ℕ} {a : α}
    (h : a ∈ (t.modifyAt f p).flatten) :
    a ∈ t.flatten ∨ ∃ ps, t.itemsAt p = some ps ∧ a ∈ f ps := by
  induction p generalizing t with
  | nil =>
    cases t with
    | node ps cs =>
      simp only [modifyAt, flatten_node, List.mem_append] at h
      rcases h with h | h
      · exact Or.inr ⟨ps, rfl, h⟩
      · exact Or.inl (by rw [flatten_node, List.mem_append]; exact Or.inr h)
  | cons i p ih =>
    cases t with
    | node ps cs =>
      simp only [modifyAt, flatten_node, List.mem_append, List.mem_flatMap] at h ⊢
      rcases h with h | ⟨c, hc, h⟩
      · exact Or.inl (Or.inl h)
      · obtain ⟨j, hj⟩ := List.mem_iff_getElem?.1 hc
        rw [List.getElem?_modify, Option.map_eq_map, Option.map_eq_some_iff] at hj
        obtain ⟨c₀, hc₀, rfl⟩ := hj
        have hmem := List.mem_of_getElem? hc₀
        split_ifs at h with hij
        · subst hij
          rcases ih h with h | ⟨ps', hp, ha⟩
          · exact Or.inl (Or.inr ⟨c₀, hmem, h⟩)
          · exact Or.inr ⟨ps', by simp [itemsAt, hc₀, hp], ha⟩
        · exact Or.inl (Or.inr ⟨c₀, hmem, h⟩)

/-- The items of a node are items of the tree. -/
theorem mem_flatten_of_itemsAt {t : Tree α} {p : List ℕ} {ps : List α} (h : t.itemsAt p = some ps)
    {a : α} (ha : a ∈ ps) : a ∈ t.flatten := by
  induction p generalizing t with
  | nil =>
    cases t with
    | node ps' cs =>
      cases h
      rw [flatten_node, List.mem_append]
      exact Or.inl ha
  | cons i p ih =>
    cases t with
    | node ps' cs =>
      simp only [itemsAt, Option.bind_eq_some_iff] at h
      obtain ⟨c, hc, hp⟩ := h
      rw [flatten_node, List.mem_append, List.mem_flatMap]
      exact Or.inr ⟨c, List.mem_of_getElem? hc, ih hp⟩

end Tree

/-! ## Spans -/

section Spans

variable {α : Type u} {β : Type v} {S : Type*}

/-- Relations between the states of a source, one after the other. -/
def runs : List (S → S → Prop) → S → S → Prop
  | [], s, s' => s = s'
  | r :: rs, s, s' => ∃ s₁, r s s₁ ∧ runs rs s₁ s'

theorem runs_map_and {p : α → Prop} {r : α → S → S → Prop} {l : List α} {s s' : S} :
    runs (l.map fun a s s' => p a ∧ r a s s') s s' ↔ (∀ a ∈ l, p a) ∧ runs (l.map r) s s' := by
  induction l generalizing s with
  | nil => simp [runs]
  | cons a l ih =>
    simp only [List.map_cons, runs, ih, List.forall_mem_cons]
    constructor
    · rintro ⟨s₁, ⟨ha, hr⟩, hl, hrs⟩
      exact ⟨⟨ha, hl⟩, s₁, hr, hrs⟩
    · rintro ⟨⟨ha, hl⟩, s₁, hr, hrs⟩
      exact ⟨s₁, ⟨ha, hr⟩, hl, hrs⟩

theorem runs_mono {r : α → S → S → Prop} {r' : α → S → S → Prop} {l : List α} {s s' : S}
    (h : ∀ a ∈ l, ∀ s s', r a s s' → r' a s s') (hr : runs (l.map r) s s') :
    runs (l.map r') s s' := by
  induction l generalizing s with
  | nil => exact hr
  | cons a l ih =>
    obtain ⟨s₁, ha, hl⟩ := hr
    rw [List.forall_mem_cons] at h
    exact ⟨s₁, h.1 s s₁ ha, ih h.2 hl⟩

theorem runs_forall_mem {r : α → S → S → Prop} {P : α → Prop} {l : List α} {s s' : S}
    (h : ∀ a ∈ l, ∀ s s', r a s s' → P a) (hr : runs (l.map r) s s') : ∀ a ∈ l, P a := by
  have hand : runs (l.map fun a s s' => P a ∧ r a s s') s s' :=
    runs_mono (fun a ha s s' har => ⟨h a ha s s' har, har⟩) hr
  exact (runs_map_and.1 hand).1

/-- A tree spans the source from one state to another: the counts, the items, and the children of
each node follow each other. -/
def Tree.Spans (header : ℕ → ℕ → S → S → Prop) (item : α → S → S → Prop) :
    Tree α → S → S → Prop :=
  Tree.fold fun ps rs s s' =>
    ∃ s₁ s₂, header ps.length rs.length s s₁ ∧ runs (ps.map item) s₁ s₂ ∧ runs rs s₂ s'

theorem Tree.spans_node {header : ℕ → ℕ → S → S → Prop} {item : α → S → S → Prop}
    {ps : List α} {cs : List (Tree α)} {s s' : S} :
    (Tree.node ps cs).Spans header item s s' ↔ ∃ s₁ s₂, header ps.length cs.length s s₁ ∧
      runs (ps.map item) s₁ s₂ ∧ runs (cs.map (Tree.Spans header item)) s₂ s' := by
  unfold Tree.Spans
  rw [Tree.fold_node, List.length_map]

theorem Tree.Spans.mono {header header' : ℕ → ℕ → S → S → Prop} {item item' : α → S → S → Prop}
    {t : Tree α} {s s' : S} (hh : ∀ n m s s', header n m s s' → header' n m s s')
    (hi : ∀ a ∈ t.flatten, ∀ s s', item a s s' → item' a s s') (h : t.Spans header item s s') :
    t.Spans header' item' s s' := by
  induction t generalizing s s' with
  | node ps cs ih =>
    simp only [Tree.flatten_node, List.mem_append, List.mem_flatMap] at hi
    obtain ⟨s₁, s₂, h₁, h₂, h₃⟩ := Tree.spans_node.1 h
    refine Tree.spans_node.2 ⟨s₁, s₂, hh _ _ _ _ h₁, ?_, ?_⟩
    · exact runs_mono (fun a ha => hi a (Or.inl ha)) h₂
    · exact runs_mono (fun c hc _ _ => ih c hc fun a ha => hi a (Or.inr ⟨c, hc, ha⟩)) h₃

/-- What holds of each item that spans a part of the source holds of the items of the tree. -/
theorem Tree.Spans.forall_mem {header : ℕ → ℕ → S → S → Prop} {item : α → S → S → Prop}
    {P : α → Prop} {t : Tree α} {s s' : S} (hi : ∀ a s s', item a s s' → P a)
    (h : t.Spans header item s s') : ∀ a ∈ t.flatten, P a := by
  induction t generalizing s s' with
  | node ps cs ih =>
    obtain ⟨s₁, s₂, -, hp, hc⟩ := Tree.spans_node.1 h
    simp only [Tree.flatten_node, List.mem_append, List.mem_flatMap]
    rintro a (ha | ⟨c, hcc, ha⟩)
    · exact runs_forall_mem (fun a _ => hi a) hp a ha
    · exact runs_forall_mem (fun c hc _ _ h => ih c hc h) hc c hcc a ha

theorem Tree.spans_map {header : ℕ → ℕ → S → S → Prop} {item : β → S → S → Prop} {g : α → β}
    {t : Tree α} {s s' : S} :
    (t.map g).Spans header item s s' ↔ t.Spans header (fun a => item (g a)) s s' := by
  induction t generalizing s s' with
  | node ps cs ih =>
    simp only [Tree.map_node, Tree.spans_node, List.length_map, List.map_map, Function.comp_def]
    have hc : ∀ {s s' : S}, runs (cs.map fun c => (c.map g).Spans header item) s s' ↔
        runs (cs.map (Tree.Spans header fun a => item (g a))) s s' := fun {s s'} =>
      ⟨runs_mono fun c hc _ _ => (ih c hc).1, runs_mono fun c hc _ _ => (ih c hc).2⟩
    simp only [hc]

/-- Steps that come from steps with other items. -/
theorem runs_lift {r : α → S → S → Prop} {r' : β → S → S → Prop} {g : β → α} {l : List α}
    {s s' : S} (h : ∀ a ∈ l, ∀ s s', r a s s' → ∃ b, g b = a ∧ r' b s s')
    (hr : runs (l.map r) s s') : ∃ l' : List β, l'.map g = l ∧ runs (l'.map r') s s' := by
  induction l generalizing s with
  | nil => exact ⟨[], rfl, hr⟩
  | cons a l ih =>
    obtain ⟨s₁, ha, hl⟩ := hr
    rw [List.forall_mem_cons] at h
    obtain ⟨b, hb, hstep⟩ := h.1 s s₁ ha
    obtain ⟨l', hl', hrest⟩ := ih h.2 hl
    exact ⟨b :: l', by rw [List.map_cons, hb, hl'], s₁, hstep, hrest⟩

/-- A tree that spans the source is the image of one whose items say more of the source, if each
item is. -/
theorem Tree.Spans.lift {header : ℕ → ℕ → S → S → Prop} {item : α → S → S → Prop}
    {item' : β → S → S → Prop} {g : β → α} {t : Tree α} {s s' : S}
    (hi : ∀ a s s', item a s s' → ∃ b, g b = a ∧ item' b s s') (h : t.Spans header item s s') :
    ∃ u : Tree β, u.map g = t ∧ u.Spans header item' s s' := by
  induction t generalizing s s' with
  | node ps cs ih =>
    obtain ⟨s₁, s₂, h₁, h₂, h₃⟩ := Tree.spans_node.1 h
    obtain ⟨ps', rfl, hps⟩ := runs_lift (fun a _ => hi a) h₂
    obtain ⟨cs', rfl, hcs⟩ := runs_lift (g := Tree.map g) (fun c hc _ _ h => ih c hc h) h₃
    rw [List.length_map, List.length_map] at h₁
    exact ⟨.node ps' cs', by rw [Tree.map_node], Tree.spans_node.2 ⟨s₁, s₂, h₁, hps, hcs⟩⟩

end Spans

/-! ## Reading -/

section Reading

variable {α : Type u} {S : Type u} {ε : Type u}

/-- Read `n` things. -/
def readMany (read : S → Except ε (α × S)) : ℕ → S → Except ε (List α × S)
  | 0, s => .ok ([], s)
  | n + 1, s => do
    let (a, s) ← read s
    let (l, s) ← readMany read n s
    .ok (a :: l, s)

/-- Read a tree of at most `k` levels: the two counts, the items, and the children. A deeper one
is an `overflow`. -/
def readTree (overflow : ε) (header : S → Except ε ((ℕ × ℕ) × S)) (item : S → Except ε (α × S)) :
    ℕ → S → Except ε (Tree α × S)
  | 0, _ => .error overflow
  | k + 1, s => do
    let ((n, m), s) ← header s
    let (ps, s) ← readMany item n s
    let (cs, s) ← readMany (readTree overflow header item k) m s
    .ok (.node ps cs, s)

theorem readMany_eq_ok_iff {read : S → Except ε (α × S)} {n : ℕ} {s s' : S} {l : List α} :
    readMany read n s = .ok (l, s') ↔
      l.length = n ∧ runs (l.map fun a s s' => read s = .ok (a, s')) s s' := by
  induction n generalizing s s' l with
  | zero =>
    simp only [readMany, Except.ok.injEq, Prod.mk.injEq, List.length_eq_zero_iff]
    constructor
    · rintro ⟨rfl, rfl⟩
      exact ⟨rfl, rfl⟩
    · rintro ⟨rfl, h⟩
      exact ⟨rfl, h⟩
  | succ n ih =>
    simp only [readMany, bind, bind_eq_ok, Prod.exists, Except.ok.injEq, Prod.mk.injEq, ih]
    constructor
    · rintro ⟨a, s₁, ha, l, s₂, ⟨hl, hr⟩, rfl, rfl⟩
      exact ⟨by rw [List.length_cons, hl], s₁, ha, hr⟩
    · cases l with
      | nil => rintro ⟨h, _⟩; cases h
      | cons a l =>
        rintro ⟨hl, s₁, ha, hr⟩
        exact ⟨a, s₁, ha, l, s', ⟨by simpa using hl, hr⟩, rfl, rfl⟩

/-- A reader accepts the trees of at most `k` levels that span the source. -/
theorem readTree_eq_ok_iff {overflow : ε} {header : S → Except ε ((ℕ × ℕ) × S)}
    {item : S → Except ε (α × S)} {k : ℕ} {s s' : S} {t : Tree α} :
    readTree overflow header item k s = .ok (t, s') ↔
      t.depth ≤ k ∧ t.Spans (fun n m s s' => header s = .ok ((n, m), s'))
        (fun a s s' => item s = .ok (a, s')) s s' := by
  induction k generalizing t s s' with
  | zero =>
    have := t.depth_pos
    exact ⟨nofun, fun h => absurd h.1 (by omega)⟩
  | succ k ih =>
    cases t with
    | node ps cs =>
      simp only [readTree, bind, bind_eq_ok, Prod.exists, Except.ok.injEq, Prod.mk.injEq,
        readMany_eq_ok_iff, ih, Tree.depth_node_le, Tree.spans_node, Tree.node.injEq]
      constructor
      · rintro ⟨n, m, s₁, hh, ps', s₂, ⟨rfl, hp⟩, cs', s₃, ⟨rfl, hc⟩, ⟨rfl, rfl⟩, rfl⟩
        obtain ⟨hd, hc⟩ := runs_map_and.1 hc
        exact ⟨hd, s₁, s₂, hh, hp, hc⟩
      · rintro ⟨hd, s₁, s₂, hh, hp, hc⟩
        exact ⟨_, _, s₁, hh, ps, s₂, ⟨rfl, hp⟩, cs, s', ⟨rfl, runs_map_and.2 ⟨hd, hc⟩⟩,
          ⟨rfl, rfl⟩, rfl⟩

/-! ### Too deep trees -/

variable {overflow : ε} {header : S → Except ε ((ℕ × ℕ) × S)} {item : S → Except ε (α × S)}

end Reading

end DarwinVm
