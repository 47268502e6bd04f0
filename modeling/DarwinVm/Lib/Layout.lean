import DarwinVm.Lib.Tree
import Mathlib.Algebra.BigOperators.Group.List.Basic
import Mathlib.Algebra.Order.BigOperators.Group.List

/-!
# The layout of counted trees

The bytes of a counted tree whose items are byte strings: the two counts of each node as 32-bit
words, the items, and the children. A `Cursor` says which bytes stand between two states of a
source; `spans_iff_layout` relates it to the spans that readers accept, and gives the two halves of
a round trip (`readTree_layout`). `writeTree` is a writer of the layout.
-/

universe u

namespace DarwinVm

/-- The 32-bit counts of a node. -/
def counts (n m : ℕ) : Bytes := leBytes 4 n ++ leBytes 4 m

@[simp] theorem length_counts (n m : ℕ) : (counts n m).length = 8 := by
  simp [counts]

/-- The bytes of a tree. -/
def Tree.layout : Tree Bytes → Bytes :=
  Tree.fold fun ps cs => counts ps.length cs.length ++ ps.flatten ++ cs.flatten

@[simp] theorem Tree.layout_node (ps : List Bytes) (cs : List (Tree Bytes)) :
    (Tree.node ps cs).layout =
      counts ps.length cs.length ++ ps.flatten ++ cs.flatMap Tree.layout := by
  rw [Tree.layout, Tree.fold_node, List.length_map]
  rfl

/-! ## Cursors -/

/-- The bytes that stand between two states of a source. -/
structure Cursor (S : Type u) where
  /-- Do the bytes stand between the states? -/
  stands : Bytes → S → S → Prop
  nil : ∀ {s s'}, stands [] s s' ↔ s = s'
  append : ∀ {a b s s'}, stands (a ++ b) s s' ↔ ∃ s₁, stands a s s₁ ∧ stands b s₁ s'

/-- A source that is the rest of the bytes. -/
def Cursor.rest : Cursor Bytes where
  stands b s s' := s = b ++ s'
  nil := by simp
  append := by simp

/-- A source that is an offset into the data. -/
def Cursor.within (data : Bytes) : Cursor ℕ where
  stands b i j := b <+: data.drop i ∧ j = i + b.length
  nil := by simp [eq_comm]
  append {a b i j} := by
    constructor
    · rintro ⟨⟨t, ht⟩, rfl⟩
      refine ⟨i + a.length, ⟨⟨b ++ t, by rw [← ht, List.append_assoc]⟩, rfl⟩, ⟨t, ?_⟩, ?_⟩
      · rw [← List.drop_drop, ← ht, List.append_assoc, List.drop_left]
      · rw [List.length_append, Nat.add_assoc]
    · rintro ⟨_, ⟨⟨t, ht⟩, rfl⟩, ⟨t', ht'⟩, rfl⟩
      rw [← List.drop_drop, ← ht, List.drop_left] at ht'
      refine ⟨⟨t', by rw [← ht, ← ht', List.append_assoc]⟩, ?_⟩
      rw [List.length_append, Nat.add_assoc]

section Cursor

variable {α β S ε : Type u} (C : Cursor S)

variable {C} {overflow : ε} {header : S → Except ε ((ℕ × ℕ) × S)} {item : S → Except ε (α × S)}
  {k : ℕ} {s s' : S}

theorem readMany_flatMap {l : List β} {bytes : β → Bytes} {g : β → Except ε α}
    (hr : ∀ b ∈ l, ∀ s s', C.stands (bytes b) s s' → item s = (g b).map fun a => (a, s'))
    (hs : C.stands (l.flatMap bytes) s s') :
    readMany item l.length s = (l.mapM g).map fun r => (r, s') := by
  induction l generalizing s with
  | nil =>
    obtain rfl := C.nil.1 hs
    rfl
  | cons b l ih =>
    rw [List.flatMap_cons, C.append] at hs
    obtain ⟨s₁, h₁, hs⟩ := hs
    rw [List.forall_mem_cons] at hr
    have hl := ih hr.2 hs
    rw [List.length_cons, readMany, hr.1 s s₁ h₁, List.mapM_cons]
    cases g b with
    | error e => rfl
    | ok a =>
      simp only [Except.map, bind, Except.bind, hl]
      cases l.mapM g <;> rfl

end Cursor

section Reader

variable {α β S ε : Type} {C : Cursor S} {overflow : ε} {header : S → Except ε ((ℕ × ℕ) × S)}
  {item : S → Except ε (α × S)} {k : ℕ} {s s' : S}

/-- A reader that reads the counts, and the items with or without success, does so with the layout
of a tree. -/
theorem readTree_traverse {t : Tree β} {bytes : β → Bytes} {g : β → Except ε α}
    (hh : ∀ n m s s', n < 2 ^ 32 → m < 2 ^ 32 → C.stands (counts n m) s s' →
      header s = .ok ((n, m), s'))
    (hi : ∀ b ∈ t.flatten, ∀ s s', C.stands (bytes b) s s' → item s = (g b).map fun a => (a, s'))
    (hk : t.depth ≤ k) (hc : t.Counted) (hs : C.stands (t.map bytes).layout s s') :
    readTree overflow header item k s = (t.traverse g).map fun r => (r, s') := by
  induction t generalizing k s s' with
  | node ps cs ih =>
    obtain ⟨k, rfl⟩ : ∃ k', k = k' + 1 := ⟨k - 1, by have := (Tree.node ps cs).depth_pos; omega⟩
    rw [Tree.depth_node_le] at hk
    obtain ⟨hn, hm, hc⟩ := (Tree.counted_node ps cs).1 hc
    simp only [Tree.flatten_node, List.mem_append, List.mem_flatMap] at hi
    simp only [Tree.map_node, Tree.layout_node, List.length_map, C.append,
      ← List.flatMap_def, List.flatMap_map] at hs
    obtain ⟨s₂, ⟨s₁, h₁, h₂⟩, h₃⟩ := hs
    have hps := readMany_flatMap (fun b hb => hi b (Or.inl hb)) h₂
    have hcs : readMany (readTree overflow header item k) cs.length s₂ =
        (cs.mapM (Tree.traverse g)).map fun r => (r, s') := readMany_flatMap
      (fun c hcc s s' h => ih c hcc (fun b hb => hi b (Or.inr ⟨c, hcc, hb⟩)) (hk c hcc) (hc c hcc) h)
      h₃
    rw [readTree, hh _ _ s s₁ hn hm h₁, Tree.traverse_node]
    simp only [bind, Except.bind, hps]
    cases ps.mapM g with
    | error e => rfl
    | ok ps' =>
      simp only [Except.map, hcs]
      cases cs.mapM (Tree.traverse g) <;> rfl

/-- A reader that reads the counts and each item reads the layout of the tree. -/
theorem readTree_layout {t : Tree β} {bytes : β → Bytes} {g : β → α}
    (hh : ∀ n m s s', n < 2 ^ 32 → m < 2 ^ 32 → C.stands (counts n m) s s' →
      header s = .ok ((n, m), s'))
    (hi : ∀ b ∈ t.flatten, ∀ s s', C.stands (bytes b) s s' → item s = .ok (g b, s'))
    (hk : t.depth ≤ k) (hc : t.Counted) (hs : C.stands (t.map bytes).layout s s') :
    readTree overflow header item k s = .ok (t.map g, s') := by
  have hg : t.traverse (fun b => (.ok (g b) : Except ε α)) = .ok (t.map g) :=
    (Tree.traverse_eq_ok_iff (P := fun _ => True) fun a b => by
      rw [Except.ok.injEq, and_iff_right trivial, eq_comm]).2 ⟨fun _ _ => trivial, rfl⟩
  rw [readTree_traverse (g := fun b => .ok (g b)) hh hi hk hc hs, hg]
  rfl

end Reader

/-! ## Sizes -/

section Size

variable {α : Type u}

/-- The size of a tree's bytes, when `w` is the size of each item. -/
def Tree.weight (w : α → ℕ) : Tree α → ℕ :=
  Tree.fold fun ps cs => 8 + (ps.map w).sum + cs.sum

@[simp] theorem Tree.weight_node (w : α → ℕ) (ps : List α) (cs : List (Tree α)) :
    (Tree.node ps cs).weight w = 8 + (ps.map w).sum + (cs.map (Tree.weight w)).sum :=
  Tree.fold_node _ _ _

theorem Tree.length_layout (bytes : α → Bytes) (t : Tree α) :
    (t.map bytes).layout.length = t.weight fun a => (bytes a).length := by
  induction t with
  | node ps cs ih =>
    have hps : ((ps.map bytes).flatten).length = (ps.map fun a => (bytes a).length).sum := by
      rw [List.length_flatten, List.map_map]
      rfl
    have hcs : ((cs.map (Tree.map bytes)).flatMap Tree.layout).length =
        (cs.map (Tree.weight fun a => (bytes a).length)).sum := by
      rw [List.length_flatMap, List.map_map]
      exact congrArg List.sum (List.map_congr_left ih)
    rw [Tree.map_node, Tree.layout_node, Tree.weight_node]
    simp only [List.length_append, length_counts, hps, hcs]

/-- Each level of a tree takes at least the bytes of its counts. -/
theorem Tree.depth_le_weight (w : α → ℕ) (t : Tree α) : 8 * t.depth ≤ t.weight w := by
  induction t with
  | node ps cs ih =>
    have hmax : 8 * (cs.map Tree.depth).foldr max 0 ≤ (cs.map (Tree.weight w)).sum := by
      clear ps
      induction cs with
      | nil => simp
      | cons c cs ihc =>
        rw [List.forall_mem_cons] at ih
        have hc := ih.1
        have hcs := ihc ih.2
        simp only [List.map_cons, List.foldr_cons, List.sum_cons]
        omega
    rw [Tree.depth_node, Tree.weight_node]
    omega

/-- The items' part of the size. -/
theorem Tree.weight_eq (w : α → ℕ) (t : Tree α) :
    t.weight w = t.weight (fun _ => 0) + (t.flatten.map w).sum := by
  induction t with
  | node ps cs ih =>
    have hcs : (cs.map (Tree.weight w)).sum =
        (cs.map (Tree.weight fun _ => 0)).sum + ((cs.flatMap Tree.flatten).map w).sum := by
      clear ps
      induction cs with
      | nil => rfl
      | cons c cs ihc =>
        rw [List.forall_mem_cons] at ih
        have hc := ih.1
        have hcs := ihc ih.2
        simp only [List.map_cons, List.sum_cons, List.flatMap_cons, List.map_append,
          List.sum_append]
        omega
    rw [Tree.weight_node, Tree.weight_node, Tree.flatten_node, List.map_append, List.sum_append,
      hcs]
    have hps : (ps.map fun _ => 0).sum = 0 := List.sum_eq_zero fun n hn => by
      obtain ⟨a, -, rfl⟩ := List.mem_map.1 hn
      rfl
    omega

/-- Sizes that do not exceed others, and do not in sum either, are equal to them. -/
theorem Tree.eq_of_weight_eq {w w' : α → ℕ} {t : Tree α} (hle : ∀ a, w a ≤ w' a)
    (h : t.weight w = t.weight w') : ∀ a ∈ t.flatten, w a = w' a := by
  rw [t.weight_eq w, t.weight_eq w', Nat.add_left_cancel_iff] at h
  generalize t.flatten = l at h
  induction l with
  | nil => simp
  | cons a l ih =>
    have hl : (l.map w).sum ≤ (l.map w').sum := List.sum_le_sum fun a _ => hle a
    have ha := hle a
    simp only [List.map_cons, List.sum_cons] at h
    rw [List.forall_mem_cons]
    exact ⟨by omega, ih (by omega)⟩

theorem runs_weight {r : α → ℕ → ℕ → Prop} {w : α → ℕ} {N : ℕ} {l : List α} {i j : ℕ}
    (hr : ∀ a ∈ l, ∀ i j, r a i j → i ≤ j ∧ (j ≤ N → j = i + w a)) (h : runs (l.map r) i j) :
    i ≤ j ∧ (j ≤ N → j = i + (l.map w).sum) := by
  induction l generalizing i with
  | nil => exact ⟨h.le, fun _ => h.symm⟩
  | cons a l ih =>
    obtain ⟨m, ha, hl⟩ := h
    rw [List.forall_mem_cons] at hr
    obtain ⟨h₁, h₁'⟩ := hr.1 i m ha
    obtain ⟨h₂, h₂'⟩ := ih hr.2 hl
    rw [List.map_cons, List.sum_cons]
    refine ⟨by omega, fun hj => ?_⟩
    have := h₁' (by omega)
    have := h₂' hj
    omega

/-- The offsets that a tree spans in data of `N` bytes are as far apart as the items' sizes tell,
if the counts and the items tell theirs within the data. -/
theorem Tree.Spans.weight {header : ℕ → ℕ → ℕ → ℕ → Prop} {item : α → ℕ → ℕ → Prop} {w : α → ℕ}
    {N : ℕ} (hh : ∀ n m i j, header n m i j → j = i + 8)
    (hi : ∀ a i j, item a i j → i ≤ j ∧ (j ≤ N → j = i + w a)) {t : Tree α} {i j : ℕ}
    (h : t.Spans header item i j) : i ≤ j ∧ (j ≤ N → j = i + t.weight w) := by
  induction t generalizing i j with
  | node ps cs ih =>
    obtain ⟨m₁, m₂, h₁, h₂, h₃⟩ := Tree.spans_node.1 h
    have e₁ := hh _ _ _ _ h₁
    obtain ⟨l₂, e₂⟩ := runs_weight (fun a _ => hi a) h₂
    obtain ⟨l₃, e₃⟩ := runs_weight (fun c hc _ _ => ih c hc) h₃
    rw [Tree.weight_node]
    refine ⟨by omega, fun hj => ?_⟩
    have := e₂ (by omega)
    have := e₃ hj
    omega

end Size

/-! ## Writing -/

/-- Parts of the same lengths are equal if what they are parts of is. -/
theorem eq_of_flatMap_eq {β : Type*} {f g : β → Bytes} : ∀ {l : List β},
    (∀ b ∈ l, (f b).length = (g b).length) → l.flatMap f = l.flatMap g → ∀ b ∈ l, f b = g b
  | [], _, _ => nofun
  | b :: l, hlen, h => by
    rw [List.forall_mem_cons] at hlen ⊢
    rw [List.flatMap_cons, List.flatMap_cons] at h
    obtain ⟨hb, hl⟩ := List.append_inj h hlen.1
    exact ⟨hb, eq_of_flatMap_eq hlen.2 hl⟩

/-- Items whose bytes have the same lengths have the same bytes if the layout is the same. -/
theorem Tree.eq_of_layout_eq {f g : α → Bytes} {t : Tree α}
    (hlen : ∀ a ∈ t.flatten, (f a).length = (g a).length)
    (h : (t.map f).layout = (t.map g).layout) : ∀ a ∈ t.flatten, f a = g a := by
  induction t with
  | node ps cs ih =>
    simp only [Tree.flatten_node, List.mem_append, List.mem_flatMap] at hlen
    simp only [Tree.map_node, Tree.layout_node, List.length_map, ← List.flatMap_def,
      List.flatMap_map, List.append_assoc, List.append_cancel_left_eq] at h
    have hps : (ps.flatMap f).length = (ps.flatMap g).length := by
      rw [List.length_flatMap, List.length_flatMap]
      exact congrArg List.sum (List.map_congr_left fun a ha => hlen a (Or.inl ha))
    obtain ⟨hf, hc⟩ := List.append_inj h hps
    have hchild : ∀ c ∈ cs, (c.map f).layout.length = (c.map g).layout.length := by
      intro c hc
      have hmap : c.flatten.map (fun a => (f a).length) = c.flatten.map fun a => (g a).length :=
        List.map_congr_left fun a ha => hlen a (Or.inr ⟨c, hc, ha⟩)
      rw [Tree.length_layout, Tree.length_layout, c.weight_eq fun a => (f a).length,
        c.weight_eq fun a => (g a).length, hmap]
    simp only [Tree.flatten_node, List.mem_append, List.mem_flatMap]
    rintro a (ha | ⟨c, hcc, ha⟩)
    · exact eq_of_flatMap_eq (fun a ha => hlen a (Or.inl ha)) hf a ha
    · exact ih c hcc (fun a ha => hlen a (Or.inr ⟨c, hcc, ha⟩))
        (eq_of_flatMap_eq hchild hc c hcc) a ha

section Writing

variable {α ε : Type}

/-- Pack two counts into 32-bit words. -/
def packCounts (overflow : ε) (n m : ℕ) : Except ε Bytes :=
  if n < 2 ^ 32 ∧ m < 2 ^ 32 then .ok (counts n m) else .error overflow

/-- Write a tree: the counts, each item, and each child. -/
def writeTree (overflow : ε) (item : α → Except ε Bytes) : Tree α → Except ε Bytes :=
  Tree.fold fun ps outs => do
    let head ← packCounts overflow ps.length outs.length
    let ps ← ps.mapM item
    let cs ← outs.mapM id
    .ok (head ++ ps.flatten ++ cs.flatten)

theorem writeTree_node (overflow : ε) (item : α → Except ε Bytes) (ps : List α)
    (cs : List (Tree α)) :
    writeTree overflow item (.node ps cs) = (do
      let head ← packCounts overflow ps.length cs.length
      let ps ← ps.mapM item
      let cs ← cs.mapM (writeTree overflow item)
      .ok (head ++ ps.flatten ++ cs.flatten)) := by
  rw [writeTree, Tree.fold_node, List.length_map, List.mapM_map]
  rfl

theorem packCounts_eq_ok_iff {overflow : ε} {n m : ℕ} {b : Bytes} :
    packCounts overflow n m = .ok b ↔ n < 2 ^ 32 ∧ m < 2 ^ 32 ∧ b = counts n m := by
  unfold packCounts
  split_ifs with h
  · rw [Except.ok.injEq, ← and_assoc, and_iff_right h, eq_comm]
  · exact ⟨nofun, fun h' => absurd ⟨h'.1, h'.2.1⟩ h⟩

/-- A writer that writes each item in one way, if it does, writes the layout of the tree. -/
theorem writeTree_eq_ok_iff {overflow : ε} {item : α → Except ε Bytes} {P : α → Prop}
    {bytes : α → Bytes} (h : ∀ a b, item a = .ok b ↔ P a ∧ b = bytes a) {t : Tree α} {out : Bytes} :
    writeTree overflow item t = .ok out ↔
      t.Counted ∧ (∀ a ∈ t.flatten, P a) ∧ out = (t.map bytes).layout := by
  induction t generalizing out with
  | node ps cs ih =>
    have hcs : ∀ r, cs.mapM (writeTree overflow item) = .ok r ↔
        (∀ c ∈ cs, c.Counted ∧ ∀ a ∈ c.flatten, P a) ∧
          r = cs.map fun c => (c.map bytes).layout := fun r =>
      mapM_eq_ok_iff fun c hc b => (ih c hc).trans and_assoc.symm
    simp only [writeTree_node, bind, bind_eq_ok, packCounts_eq_ok_iff, hcs,
      mapM_eq_ok_iff fun a _ => h a, Except.ok.injEq, Tree.counted_node, Tree.flatten_node,
      Tree.map_node, Tree.layout_node, List.length_map, List.mem_append, List.mem_flatMap,
      List.flatMap_map]
    constructor
    · rintro ⟨_, ⟨hn, hm, rfl⟩, _, ⟨hps, rfl⟩, _, ⟨hcs, rfl⟩, rfl⟩
      refine ⟨⟨hn, hm, fun c hc => (hcs c hc).1⟩, ?_, rfl⟩
      rintro a (ha | ⟨c, hc, ha⟩)
      · exact hps a ha
      · exact (hcs c hc).2 a ha
    · rintro ⟨⟨hn, hm, hc⟩, hP, rfl⟩
      exact ⟨_, ⟨hn, hm, rfl⟩, _, ⟨fun a ha => hP a (Or.inl ha), rfl⟩, _,
        ⟨fun c hcc => ⟨hc c hcc, fun a ha => hP a (Or.inr ⟨c, hcc, ha⟩)⟩, rfl⟩, rfl⟩

end Writing

end DarwinVm
