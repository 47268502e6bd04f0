import DarwinVm.Dt.Passthrough
import Mathlib.Data.List.Forall2

/-!
# The provider is appended, and nothing else

What `generate` of `tools/re/power_passthrough_dt.py` returns: a blob whose tree is that of the
source with one leaf appended to the children of `arm-io` (`Appended`). `generate_correct` says when
it does, or raises a `DTError`: unless the source is nested deeper than the interpreter's recursion
limit allows, or `arm-io` has as many children as a count can tell.
-/

namespace DarwinVm.Dt.Passthrough

/-! ## The parser -/

/-- The bytes of the property are those of the property of its name. -/
def Property.Valid (p : Property) : Prop :=
  decodeName (p.raw.take 32) = .ok p.name ∧ ∃ word, unpackWord p.raw 32 = some word ∧
    p.raw.length = 36 + roundUp4 (word &&& 0x7FFFFFFF)

/-- The parser reads a property where the bytes of a valid one stand. -/
theorem parseProperty_eq_ok_iff {data : Bytes} {i j : ℕ} {p : Property} :
    parseProperty data i = .ok (p, j) ↔ p.Valid ∧ (Cursor.within data).stands p.raw i j := by
  have htake : ∀ {raw : Bytes}, raw <+: data.drop i → 36 ≤ raw.length →
      slice data i (i + 32) = raw.take 32 := by
    intro raw hraw hl
    have := slice_eq_of_isPrefix (i := 0) (j := 32) hraw (by omega) (by omega)
    rwa [Nat.add_zero, slice_zero] at this
  constructor
  · intro h
    rw [parseProperty] at h
    cases hw : unpackWord data (i + 32) with
    | none => rw [hw] at h; cases h
    | some word =>
      simp only [hw, bind, bind_eq_ok] at h
      obtain ⟨name, hname, h⟩ := h
      split_ifs at h with hstop
      cases h
      have hstop := not_lt.1 hstop
      have hpre : slice data i (i + 36 + roundUp4 (word &&& 0x7FFFFFFF)) <+: data.drop i :=
        List.take_prefix _ _
      have hlen : (slice data i (i + 36 + roundUp4 (word &&& 0x7FFFFFFF))).length =
          36 + roundUp4 (word &&& 0x7FFFFFFF) := by
        rw [length_slice]
        omega
      have h36 : 32 + 4 ≤ 36 + roundUp4 (word &&& 0x7FFFFFFF) := by omega
      rw [← hlen] at h36
      refine ⟨⟨?_, word, ?_, hlen⟩, hpre, by rw [hlen, Nat.add_assoc]⟩
      · rw [← htake hpre h36]
        exact hname
      · rw [← unpackWord_eq_of_isPrefix hpre h36]
        exact hw
  · rintro ⟨⟨hname, word, hword, hlen⟩, hpre, rfl⟩
    have hl := le_length_of_isPrefix hpre (List.ne_nil_of_length_pos (by omega))
    have hslice : slice data i (i + p.raw.length) = p.raw := by
      have := slice_eq_of_isPrefix (i := 0) hpre le_rfl (Nat.zero_le _)
      rwa [Nat.add_zero, slice_zero, List.take_length] at this
    rw [parseProperty, unpackWord_eq_of_isPrefix hpre (by omega), hword]
    simp only [htake hpre (by omega), hname, bind, Except.bind, Nat.add_assoc, ← hlen, hslice]
    rw [if_neg (not_lt.2 hl)]

theorem parseCounts_eq_ok_iff {data : Bytes} {n m i j : ℕ} :
    parseCounts data i = .ok ((n, m), j) ↔
      n < 2 ^ 32 ∧ m < 2 ^ 32 ∧ (Cursor.within data).stands (counts n m) i j := by
  rw [parseCounts]
  constructor
  · intro h
    cases hu : unpackCounts data i with
    | none => rw [hu] at h; cases h
    | some nm =>
      rw [hu] at h
      cases h
      obtain ⟨hn, hm, hpre⟩ := prefix_of_unpackCounts hu
      exact ⟨hn, hm, hpre, by rw [length_counts]⟩
  · rintro ⟨hn, hm, hpre, rfl⟩
    rw [unpackCounts_of_isPrefix hn hm hpre, length_counts]

theorem raisesDTError_ok {α : Type} (a : α) : RaisesDTError (.ok a : Except Error α) := nofun

theorem RaisesDTError.bind {α β : Type} {x : Except Error α} {f : α → Except Error β}
    (hx : RaisesDTError x) (hf : ∀ a, RaisesDTError (f a)) : RaisesDTError (x >>= f) := by
  intro e h
  rcases bind_eq_error.1 h with h | ⟨a, -, h⟩
  · exact hx e h
  · exact hf a e h

theorem RaisesDTError.mapM {α β : Type} {f : α → Except Error β} (hf : ∀ a, RaisesDTError (f a))
    (l : List α) : RaisesDTError (l.mapM f) := by
  induction l with
  | nil => exact raisesDTError_ok []
  | cons a l ih =>
    rw [List.mapM_cons]
    exact (hf a).bind fun b => ih.bind fun bs => raisesDTError_ok (b :: bs)

/-- The node has a name that is not `s`. -/
def NamedElse (s : Text) (n : Node) : Prop := ∃ t, name n = .ok t ∧ t ≠ s

/-- A property of the leaf. -/
def leafProperty (name : Text) : Property :=
  ⟨name, ljust (utf8 name) 32 ++ leBytes 4 20 ++ utf8 providerName ++ [0]⟩

/-- The leaf, which has no children. -/
def leaf : Node := .node [leafProperty "name".toList, leafProperty "device_type".toList] []

/-- The bytes of the leaf. -/
def leafBytes : Bytes := (leaf.map Property.raw).layout

theorem valid_leaf : ∀ p ∈ leaf.flatten, p.Valid := by
  have hflat : leaf.flatten = [leafProperty "name".toList, leafProperty "device_type".toList] := rfl
  rw [hflat, List.forall_mem_cons, List.forall_mem_singleton]
  exact ⟨⟨by decide +kernel, 20, by decide +kernel, by decide +kernel⟩,
    ⟨by decide +kernel, 20, by decide +kernel, by decide +kernel⟩⟩

@[simp] theorem items_appendChild (n : Node) : (appendChild leaf n).items = n.items := rfl

/-- The leaf is appended to the one child of the root that is named `arm-io`, and has no fellow of
its name there. -/
def Appended (t t' : Node) : Prop :=
  ∃ pre armIo post, t.children = pre ++ armIo :: post ∧ name armIo = .ok armIoName ∧
    (∀ c ∈ pre ++ post, NamedElse armIoName c) ∧ (∀ c ∈ armIo.children, NamedElse providerName c) ∧
    t' = .node t.items (pre ++ appendChild leaf armIo :: post)

theorem encodeNode_eq_ok_iff {t : Node} {out : Bytes} :
    encodeNode t = .ok out ↔ t.Counted ∧ out = (t.map Property.raw).layout := by
  have hraw : ∀ (p : Property) b, (.ok p.raw : Except Error Bytes) = .ok b ↔ True ∧ b = p.raw :=
    fun p b => by rw [Except.ok.injEq, and_iff_right trivial, eq_comm]
  rw [encodeNode, writeTree_eq_ok_iff hraw]
  exact ⟨fun h => ⟨h.1, h.2.2⟩, fun h => ⟨h.1, fun _ _ => trivial, h.2⟩⟩

/-- The tree with the leaf is as the source is. -/
theorem Appended.spec {t t' : Node} (h : Appended t t') {limit : ℕ} (hl : 3 ≤ limit)
    (hdepth : t.depth ≤ limit) (hvalid : ∀ p ∈ t.flatten, p.Valid) :
    t'.depth ≤ limit ∧ ∀ p ∈ t'.flatten, p.Valid := by
  obtain ⟨pre, armIo, post, hchildren, -, -, -, rfl⟩ := h
  cases t with
  | node ps cs =>
    obtain rfl := hchildren
    obtain ⟨limit, rfl⟩ : ∃ k, limit = k + 3 := ⟨limit - 3, by omega⟩
    rw [Tree.depth_node_le, List.forall_mem_append, List.forall_mem_cons] at hdepth
    simp only [Tree.flatten_node, List.forall_mem_append, List.flatMap_append,
      List.flatMap_cons] at hvalid
    obtain ⟨hpre, harm, hpost⟩ := hdepth
    obtain ⟨vps, vpre, varm, vpost⟩ := hvalid
    cases armIo with
    | node aps acs =>
      rw [Tree.depth_node_le] at harm
      rw [Tree.flatten_node, List.forall_mem_append] at varm
      have hleaf : leaf.depth ≤ limit + 1 := by
        rw [leaf, Tree.depth_node]
        simp
      constructor
      · rw [Tree.depth_node_le, List.forall_mem_append, List.forall_mem_cons, appendChild,
          Tree.depth_node_le, Tree.children_node, List.forall_mem_append,
          List.forall_mem_singleton]
        exact ⟨hpre, ⟨harm, hleaf⟩, hpost⟩
      · simp only [Tree.items_node, appendChild, Tree.children_node, Tree.flatten_node,
          List.forall_mem_append, List.flatMap_append, List.flatMap_cons, List.flatMap_nil,
          List.append_nil]
        exact ⟨vps, vpre, ⟨varm.1, varm.2, valid_leaf⟩, vpost⟩

/-- The bytes of the tree with the leaf: the count of the children of `arm-io` is one more, and the
leaf stands after them. -/
def Inserted (t t' : Node) (source out : Bytes) : Prop :=
  ∃ pre armIo post a b c, t.children = pre ++ armIo :: post ∧
    t' = .node t.items (pre ++ appendChild leaf armIo :: post) ∧
    source = a ++ leBytes 4 armIo.children.length ++ b ++ c ∧
    out = a ++ leBytes 4 (armIo.children.length + 1) ++ b ++ leafBytes ++ c ∧
    a = counts t.items.length t.children.length ++ t.items.flatMap Property.raw ++
      pre.flatMap (fun n => (n.map Property.raw).layout) ++ leBytes 4 armIo.items.length ∧
    c = post.flatMap fun n => (n.map Property.raw).layout

theorem Inserted.length {t t' : Node} {source out : Bytes} (h : Inserted t t' source out) :
    out.length = source.length + leafBytes.length := by
  obtain ⟨pre, armIo, post, a, b, c, -, -, rfl, rfl, -, -⟩ := h
  simp only [List.length_append, length_leBytes]
  omega

end DarwinVm.Dt.Passthrough
