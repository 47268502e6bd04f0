import DarwinVm.Dt.Drivers
import DarwinVm.Dt.Recode
import Mathlib.Logic.Relation

/-!
# Edits of a tree

A run of `dt_fixup.py` is a sequence of edits: a property is put into a node or removed from it, or
a node is renamed, dropped, or added without children. `Scope` says by the names of the nodes from
the root what may be edited, and `Edits` are sequences of such edits. Whatever their order, they
leave what is outside of the scope as it was (`Edits.revised`), and an entry of the result was there
before or is one that may be put (`Edits.mem_flatten`).
-/

namespace DarwinVm.Dt.Fixup

/-- The keys are different, as those of a dict are. -/
def Keyed (ps : List Entry) : Prop := (ps.map Prod.fst).Nodup

instance (ps : List Entry) : Decidable (Keyed ps) := inferInstanceAs (Decidable (List.Nodup _))

/-! ## Scopes -/

/-- What may be edited, by the names of the nodes from the root. -/
structure Scope where
  /-- A node with the names may be renamed or dropped, or get its name. -/
  nodes : List Text → Prop
  /-- A node with the names may be added. -/
  adds : List Text → Prop
  /-- The entry may be put into the node. -/
  puts : List Text → Entry → Prop
  /-- The property may be removed from the node. -/
  removes : List Text → Text → Prop

/-- An edit of the node with the names. -/
inductive Edit (S : Scope) : List Text → Node → Node → Prop
  | put {ns : List Text} {d : Node} {e : Entry} (h : S.puts ns e) (hname : e.1 ≠ nameKey) :
      Edit S ns d (.node (put e.1 e.2 d.items) d.children)
  | remove {ns : List Text} {d : Node} {k : Text} (h : S.removes ns k) (hname : k ≠ nameKey) :
      Edit S ns d (.node (remove k d.items) d.children)
  | rename {ns : List Text} {ps : List Entry} {l r : List Node} {c : Node} {n : Text}
      (hold : S.nodes (ns ++ [nameOf c])) (hnew : S.nodes (ns ++ [n]))
      (h : S.puts (ns ++ [n]) (nameKey, .str n)) :
      Edit S ns (.node ps (l ++ c :: r))
        (.node ps (l ++ .node (put nameKey (.str n) c.items) c.children :: r))
  | drop {ns : List Text} {ps : List Entry} {l r : List Node} {c : Node}
      (h : S.nodes (ns ++ [nameOf c])) : Edit S ns (.node ps (l ++ c :: r)) (.node ps (l ++ r))
  | add {ns : List Text} {d : Node} {ps : List Entry} (hnode : S.adds (ns ++ [nameOf (.node ps [])]))
      (h : ∀ e ∈ ps, S.puts (ns ++ [nameOf (.node ps [])]) e) (hkeyed : Keyed ps) :
      Edit S ns d (.node d.items (d.children ++ [.node ps []]))
  | child {ns : List Text} {ps : List Entry} {l r : List Node} {c c' : Node}
      (h : Edit S (ns ++ [nameOf c]) c c') :
      Edit S ns (.node ps (l ++ c :: r)) (.node ps (l ++ c' :: r))

/-- Edits of the node with the names. -/
def Edits (S : Scope) (ns : List Text) : Node → Node → Prop := Relation.ReflTransGen (Edit S ns)

variable {S : Scope} {ns : List Text} {d d' d'' c c' : Node} {ps : List Entry} {cs cs' : List Node}

theorem Edits.refl : Edits S ns d d := Relation.ReflTransGen.refl

theorem Edits.trans (h : Edits S ns d d') (h' : Edits S ns d' d'') : Edits S ns d d'' :=
  Relation.ReflTransGen.trans h h'

theorem Edit.edits (h : Edit S ns d d') : Edits S ns d d' := Relation.ReflTransGen.single h

/-- An edit of a node leaves its name. -/
theorem Edit.get_name (h : Edit S ns d d') : get nameKey d'.items = get nameKey d.items := by
  cases h with
  | put h hname => exact get_put_of_ne hname _
  | remove h hname => exact get_remove_of_ne hname _
  | rename | drop | add | child => rfl

theorem Edits.get_name (h : Edits S ns d d') : get nameKey d'.items = get nameKey d.items := by
  induction h with
  | refl => rfl
  | tail _ h ih => rw [h.get_name, ih]

theorem Edits.nameOf_eq (h : Edits S ns d d') : nameOf d' = nameOf d := by
  unfold nameOf
  rw [h.get_name]

/-- Edits of a child are edits of the node. -/
theorem Edits.child {l r : List Node} (h : Edits S (ns ++ [nameOf c]) c c') :
    Edits S ns (.node ps (l ++ c :: r)) (.node ps (l ++ c' :: r)) := by
  induction h with
  | refl => exact .refl
  | tail h h' ih =>
    refine ih.trans (Edit.edits (.child ?_))
    rwa [Edits.nameOf_eq h]

/-- Edits of the children, one after the other. -/
theorem Edits.children : ∀ {ps : List Entry} {l cs cs' : List Node},
    List.Forall₂ (fun c c' => Edits S (ns ++ [nameOf c]) c c') cs cs' →
      Edits S ns (.node ps (l ++ cs)) (.node ps (l ++ cs'))
  | _, _, _, _, .nil => .refl
  | ps, l, c :: cs, c' :: cs', .cons h hcs => by
    have hrest : Edits S ns (.node ps (l ++ [c'] ++ cs)) (.node ps (l ++ [c'] ++ cs')) :=
      Edits.children hcs
    rw [List.append_assoc, List.append_assoc] at hrest
    exact h.child.trans hrest

/-! ## What edits leave -/

/-- The node has the name. -/
def Named (n : Text) (c : Node) : Prop := get nameKey c.items = some (.str n)

instance (n : Text) (c : Node) : Decidable (Named n c) := inferInstanceAs (Decidable (_ = _))

/-- The node with the names from here, each of them the first of its name. -/
def find : Node → List Text → Option Node
  | d, [] => some d
  | d, n :: ns => (d.children.find? fun c => Named n c).bind fun c => find c ns

theorem find_cons (d : Node) (n : Text) (ns : List Text) :
    find d (n :: ns) = (d.children.find? fun c => Named n c).bind fun c => find c ns := rfl

/-- Each property is as it was, or was put or removed in the scope. -/
def Revised (S : Scope) (ns : List Text) (c c' : Node) : Prop :=
  ∀ k, get k c'.items = get k c.items ∨ (∃ v, get k c'.items = some v ∧ S.puts ns (k, v)) ∨
    get k c'.items = none ∧ S.removes ns k

/-- None of the nodes on the way from `ns` may be renamed, dropped or added. -/
def Scope.Fixed (S : Scope) (ns ms : List Text) : Prop :=
  ∀ m, m ≠ [] → m <+: ms → ¬S.nodes (ns ++ m) ∧ ¬S.adds (ns ++ m)

theorem Named.nameOf_eq {n : Text} (h : Named n c) : nameOf c = n := nameOf_of_get h

theorem rel_refl {α : Type} {r : α → α → Prop} (h : ∀ a, r a a) : ∀ o : Option α, Option.Rel r o o
  | none => .none
  | some a => .some (h a)

theorem rel_trans {α : Type} {r s t : α → α → Prop} (h : ∀ {a b c}, r a b → s b c → t a c) :
    ∀ {o p q : Option α}, Option.Rel r o p → Option.Rel s p q → Option.Rel t o q
  | _, _, _, .none, .none => .none
  | _, _, _, .some hr, .some hs => .some (h hr hs)

theorem Revised.refl (c : Node) : Revised S ns c c := fun _ => Or.inl rfl

/-- A property that is neither put nor removed stays. -/
theorem Revised.get_eq (h : Revised S ns c c') {k : Text} (hput : ∀ v, ¬S.puts ns (k, v))
    (hremove : ¬S.removes ns k) : get k c'.items = get k c.items := by
  obtain h | ⟨v, -, h⟩ | ⟨-, h⟩ := h k
  · exact h
  · exact absurd h (hput v)
  · exact absurd h hremove

theorem Revised.trans {c'' : Node} (h : Revised S ns c c') (h' : Revised S ns c' c'') :
    Revised S ns c c'' := by
  intro k
  obtain hk | hk := h' k
  · rw [hk]
    exact h k
  · exact Or.inr hk

/-- Below a node, the same children are found. -/
theorem rel_find_of_children (hcs : d'.children = d.children) {n : Text} {ms : List Text} :
    Option.Rel (Revised S (ns ++ n :: ms)) (find d (n :: ms)) (find d' (n :: ms)) := by
  unfold find
  rw [hcs]
  exact rel_refl .refl _

/-- Among the children, one that has not the name does not matter. -/
theorem find?_of_not {l r : List Node} {p : Node → Bool} (h : p c = false) :
    (l ++ c :: r).find? p = (l ++ r).find? p := by
  rw [List.find?_append, List.find?_append, List.find?_cons, h]

/-- An edit leaves each node outside of the scope where it was, with the properties it had. -/
theorem Edit.revised (h : Edit S ns d d') : ∀ ms, S.Fixed ns ms →
    Option.Rel (Revised S (ns ++ ms)) (find d ms) (find d' ms) := by
  induction h with
  | @put ns d e h hname =>
    rintro (_ | ⟨n, ms⟩) -
    · rw [List.append_nil]
      refine .some fun k => ?_
      by_cases hk : e.1 = k
      · subst hk
        exact Or.inr (Or.inl ⟨e.2, get_put_self _, h⟩)
      · exact Or.inl (get_put_of_ne hk _)
    · exact rel_find_of_children rfl
  | @remove ns d k h hname =>
    rintro (_ | ⟨n, ms⟩) -
    · rw [List.append_nil]
      refine .some fun k' => ?_
      by_cases hk : k = k'
      · subst hk
        exact Or.inr (Or.inr ⟨get_remove_self _, h⟩)
      · exact Or.inl (get_remove_of_ne hk _)
    · exact rel_find_of_children rfl
  | @rename ns ps l r c n hold hnew h =>
    rintro (_ | ⟨m, ms⟩) hms
    · exact .some (.refl _)
    · have hm : ¬S.nodes (ns ++ [m]) := (hms [m] (List.cons_ne_nil _ _) ⟨ms, rfl⟩).1
      have hc : decide (Named m c) = false :=
        decide_eq_false fun hn => hm (hn.nameOf_eq ▸ hold)
      have hc' : decide (Named m (.node (Fixup.put nameKey (.str n) c.items) c.children)) = false := by
        refine decide_eq_false fun hn => hm ?_
        have hget : get nameKey (Fixup.put nameKey (.str n) c.items) = some (.str m) := hn
        rw [get_put_self] at hget
        rwa [← Value.str.inj (Option.some.inj hget)]
      unfold find
      rw [Tree.children_node, Tree.children_node, find?_of_not hc, find?_of_not hc']
      exact rel_refl .refl _
  | @drop ns ps l r c h =>
    rintro (_ | ⟨m, ms⟩) hms
    · exact .some (.refl _)
    · have hm : ¬S.nodes (ns ++ [m]) := (hms [m] (List.cons_ne_nil _ _) ⟨ms, rfl⟩).1
      have hc : decide (Named m c) = false := decide_eq_false fun hn => hm (hn.nameOf_eq ▸ h)
      unfold find
      rw [Tree.children_node, Tree.children_node, find?_of_not hc]
      exact rel_refl .refl _
  | @add ns d ps hnode h hkeyed =>
    rintro (_ | ⟨m, ms⟩) hms
    · exact .some (.refl _)
    · have hm : ¬S.adds (ns ++ [m]) := (hms [m] (List.cons_ne_nil _ _) ⟨ms, rfl⟩).2
      have hc : decide (Named m (.node ps [])) = false :=
        decide_eq_false fun hn => hm (hn.nameOf_eq ▸ hnode)
      unfold find
      rw [Tree.children_node, find?_of_not hc, List.append_nil]
      exact rel_refl .refl _
  | @child ns ps l r c c' h ih =>
    rintro (_ | ⟨m, ms⟩) hms
    · exact .some (.refl _)
    · have hname : Named m c' ↔ Named m c := by
        unfold Named
        rw [h.get_name]
      unfold find
      rw [Tree.children_node, Tree.children_node, List.find?_append, List.find?_append,
        List.find?_cons, List.find?_cons, decide_eq_decide.mpr hname]
      cases l.find? fun c => decide (Named m c) with
      | some b => exact rel_refl .refl _
      | none =>
        rw [Option.none_or, Option.none_or]
        by_cases hm : Named m c
        · rw [decide_eq_true hm]
          have hfixed : S.Fixed (ns ++ [nameOf c]) ms := by
            intro p hp hpre
            rw [hm.nameOf_eq, List.append_assoc]
            exact hms (m :: p) (List.cons_ne_nil _ _) (List.cons_prefix_cons.mpr ⟨rfl, hpre⟩)
          have := ih ms hfixed
          rwa [hm.nameOf_eq, List.append_assoc] at this
        · rw [decide_eq_false hm]
          exact rel_refl .refl _

/-- Edits leave each node outside of the scope where it was, with the properties it had. -/
theorem Edits.revised (h : Edits S ns d d') {ms : List Text} (hms : S.Fixed ns ms) :
    Option.Rel (Revised S (ns ++ ms)) (find d ms) (find d' ms) := by
  induction h with
  | refl => exact rel_refl .refl _
  | tail _ h ih =>
    exact rel_trans (fun hab hbc => hab.trans hbc) ih (h.revised ms hms)

/-- An entry after an edit was there before, or may be put. -/
theorem Edit.mem_flatten (h : Edit S ns d d') {e : Entry} (he : e ∈ d'.flatten) :
    e ∈ d.flatten ∨ ∃ ms, S.puts ms e := by
  induction h with
  | @put ns d e' h hname =>
    cases d with
    | node ps cs =>
      simp only [Tree.flatten_node, Tree.items_node, Tree.children_node, List.mem_append] at he ⊢
      obtain he | he := he
      · obtain rfl | he := mem_upsert he
        · exact Or.inr ⟨ns, h⟩
        · exact Or.inl (Or.inl he)
      · exact Or.inl (Or.inr he)
  | @remove ns d k h hname =>
    cases d with
    | node ps cs =>
      simp only [Tree.flatten_node, Tree.items_node, Tree.children_node, List.mem_append] at he ⊢
      exact Or.inl (he.imp_left fun he => (List.mem_filter.mp he).1)
  | @rename ns ps l r c n hold hnew h =>
    cases c with
    | node qs bs =>
      simp only [Tree.flatten_node, Tree.items_node, Tree.children_node, List.mem_append,
        List.flatMap_append, List.flatMap_cons] at he ⊢
      obtain he | he | (he | he) | he := he
      · exact Or.inl (Or.inl he)
      · exact Or.inl (Or.inr (Or.inl he))
      · obtain rfl | he := mem_upsert he
        · exact Or.inr ⟨_, h⟩
        · exact Or.inl (Or.inr (Or.inr (Or.inl (Or.inl he))))
      · exact Or.inl (Or.inr (Or.inr (Or.inl (Or.inr he))))
      · exact Or.inl (Or.inr (Or.inr (Or.inr he)))
  | @drop ns ps l r c h =>
    simp only [Tree.flatten_node, List.mem_append, List.flatMap_append, List.flatMap_cons] at he ⊢
    exact Or.inl (he.imp_right (Or.imp_right Or.inr))
  | @add ns d ps hnode h hkeyed =>
    cases d with
    | node qs bs =>
      simp only [Tree.flatten_node, Tree.items_node, Tree.children_node, List.mem_append,
        List.flatMap_append, List.flatMap_cons, List.flatMap_nil, List.append_nil] at he ⊢
      obtain he | he | he := he
      · exact Or.inl (Or.inl he)
      · exact Or.inl (Or.inr he)
      · exact Or.inr ⟨_, h e he⟩
  | @child ns ps l r c c' h ih =>
    simp only [Tree.flatten_node, List.mem_append, List.flatMap_append, List.flatMap_cons] at he ⊢
    obtain he | he | he | he := he
    · exact Or.inl (Or.inl he)
    · exact Or.inl (Or.inr (Or.inl he))
    · exact (ih he).imp_left fun he => Or.inr (Or.inr (Or.inl he))
    · exact Or.inl (Or.inr (Or.inr (Or.inr he)))

/-- An entry after edits was there before, or may be put. -/
theorem Edits.mem_flatten (h : Edits S ns d d') {e : Entry} (he : e ∈ d'.flatten) :
    e ∈ d.flatten ∨ ∃ ms, S.puts ms e := by
  induction h with
  | refl => exact Or.inl he
  | tail _ h ih => exact (h.mem_flatten he).elim ih Or.inr

/-! ## Keys -/

theorem keyed_put {ps : List Entry} (h : Keyed ps) (k : Text) (v : Value) : Keyed (put k v ps) := by
  have hkeys : ∀ {l : List Entry}, (put k v l).map Prod.fst = l.map Prod.fst ∨
      k ∉ l.map Prod.fst ∧ (put k v l).map Prod.fst = l.map Prod.fst ++ [k] := by
    intro l
    induction l with
    | nil => exact Or.inr ⟨List.not_mem_nil, rfl⟩
    | cons e l ih =>
      unfold put upsert
      split_ifs with he
      · exact Or.inl (by rw [List.map_cons, List.map_cons, he])
      · rw [← put]
        obtain ih | ⟨hk, ih⟩ := ih
        · exact Or.inl (by rw [List.map_cons, List.map_cons, ih])
        · refine Or.inr ⟨?_, by rw [List.map_cons, List.map_cons, ih, List.cons_append]⟩
          rw [List.map_cons, List.mem_cons, not_or]
          exact ⟨Ne.symm he, hk⟩
  unfold Keyed
  obtain he | ⟨hk, he⟩ := hkeys (l := ps)
  · rw [he]
    exact h
  · rw [he]
    exact List.Nodup.append h (List.nodup_singleton k)
      (List.disjoint_singleton.mpr hk)

theorem keyed_remove {ps : List Entry} (h : Keyed ps) (k : Text) : Keyed (remove k ps) :=
  List.Nodup.sublist (List.filter_sublist.map Prod.fst) h

/-- An edit keeps the keys of each node different. -/
theorem Edit.keyed (h : Edit S ns d d') (hd : d.AllItems Keyed) : d'.AllItems Keyed := by
  induction h with
  | @put ns d e h hname =>
    cases d with
    | node ps cs =>
      rw [Tree.allItems_node] at hd
      exact Tree.allItems_node.mpr ⟨keyed_put hd.1 _ _, hd.2⟩
  | @remove ns d k h hname =>
    cases d with
    | node ps cs =>
      rw [Tree.allItems_node] at hd
      exact Tree.allItems_node.mpr ⟨keyed_remove hd.1 _, hd.2⟩
  | @rename ns ps l r c n hold hnew h =>
    cases c with
    | node qs bs =>
      simp only [Tree.allItems_node, List.forall_mem_append, List.forall_mem_cons] at hd ⊢
      obtain ⟨hps, hl, ⟨hqs, hbs⟩, hr⟩ := hd
      exact ⟨hps, hl, ⟨keyed_put hqs _ _, hbs⟩, hr⟩
  | @drop ns ps l r c h =>
    simp only [Tree.allItems_node, List.forall_mem_append, List.forall_mem_cons] at hd ⊢
    exact ⟨hd.1, hd.2.1, hd.2.2.2⟩
  | @add ns d ps hnode h hkeyed =>
    cases d with
    | node qs cs =>
      simp only [Tree.allItems_node, Tree.items_node, Tree.children_node, List.forall_mem_append,
        List.forall_mem_singleton] at hd ⊢
      exact ⟨hd.1, hd.2, hkeyed, nofun⟩
  | @child ns ps l r c c' h ih =>
    simp only [Tree.allItems_node, List.forall_mem_append, List.forall_mem_cons] at hd ⊢
    exact ⟨hd.1, hd.2.1, ih hd.2.2.1, hd.2.2.2⟩

theorem Edits.keyed (h : Edits S ns d d') (hd : d.AllItems Keyed) : d'.AllItems Keyed := by
  induction h with
  | refl => exact hd
  | tail _ h ih => exact h.keyed ih

/-! ## Sizes -/

/-- The number of nodes. -/
def size : Node → ℕ := Tree.fold fun _ ns => ns.sum + 1

@[simp] theorem size_node (ps : List Entry) (cs : List Node) :
    size (.node ps cs) = (cs.map size).sum + 1 := Tree.fold_node _ _ _

/-- The number of nodes below the children of the root. -/
def grand (d : Node) : ℕ := (d.children.map fun c => size c - 1).sum

theorem size_pos (d : Node) : 0 < size d := by
  cases d with
  | node ps cs =>
    rw [size_node]
    exact Nat.succ_pos _

/-- Where no node is added, an edit does not give more nodes. -/
theorem Edit.size_le (h : Edit S ns d d') (hadds : ∀ ms, ms ≠ [] → ¬S.adds (ns ++ ms)) :
    size d' ≤ size d := by
  induction h with
  | @put ns d e h hname => cases d; exact le_rfl
  | @remove ns d k h hname => cases d; exact le_rfl
  | @rename ns ps l r c n hold hnew h => cases c; simp
  | @drop ns ps l r c h =>
    simp only [size_node, List.map_append, List.map_cons, List.sum_append, List.sum_cons]
    omega
  | @add ns d ps hnode h hkeyed => exact absurd hnode (hadds _ (List.cons_ne_nil _ _))
  | @child ns ps l r c c' h ih =>
    have hle := ih fun ms _ => by
      rw [List.append_assoc]
      exact hadds _ (List.cons_ne_nil _ _)
    simp only [size_node, List.map_append, List.map_cons, List.sum_append, List.sum_cons]
    omega

/-- Where nodes are added to the root alone, edits do not give more nodes below its children. -/
theorem Edits.grand_le (h : Edits S [] d d') (hadds : ∀ n ns, S.adds (n :: ns) → ns = []) :
    grand d' ≤ grand d := by
  induction h with
  | refl => exact le_rfl
  | tail _ h ih =>
    refine le_trans ?_ ih
    unfold grand
    cases h with
    | put h hname => exact le_rfl
    | remove h hname => exact le_rfl
    | @rename _ ps l r c n hold hnew h => cases c; simp
    | @drop _ ps l r c h =>
      simp only [Tree.children_node, List.map_append, List.map_cons, List.sum_append, List.sum_cons]
      omega
    | @add _ _ ps hnode h hkeyed => simp
    | @child _ ps l r c c' h =>
      have hle := h.size_le fun ms hms hadd => hms (hadds _ _ hadd)
      simp only [Tree.children_node, List.map_append, List.map_cons, List.sum_append, List.sum_cons]
      omega

end DarwinVm.Dt.Fixup
