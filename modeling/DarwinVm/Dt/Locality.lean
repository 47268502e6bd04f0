import DarwinVm.Dt.Patch

/-!
# Patches are local

What the edits of `tools/dt_patch.py` ask for (`Edits`), said of the tree and the properties at
each address of it, and that the tool does it: a well-formed blob is decoded and encoded unchanged,
and the output of the tool decodes to the edited tree exactly if each property of that tree fits its
record (`lossless_local`).
-/

namespace DarwinVm.Dt.Patch

/-! ## What the edits ask for -/

/-- An edit of the command line. -/
inductive Edit
  | set (path key : Text) (val : Bytes)
  | del (path key : Text)

/-- The path of the node that an edit addresses. -/
def Edit.path : Edit → Text
  | .set path _ _ => path
  | .del path _ => path

/-- The edit that a `-set` argument asks for. -/
def setEdit (s : Arg) : Except Error Edit := do
  let (loc, val) := partition '=' s.1
  let (path, key) := rpartition ':' loc
  .ok (.set path key (← parseValue val))

/-- The edit that a `-del` argument asks for. -/
def delEdit (d : Arg) : Edit :=
  let (path, key) := rpartition ':' d.1
  .del path key

/-- The change of the addressed node: the first property of the name is replaced, which keeps its
flags, or a property is appended, or the first property of the name is removed, if there is one. -/
def Edit.Changes : Edit → List Property → List Property → Prop
  | .set _ key val, ps, ps' =>
    (∃ pre p post, (∀ q ∈ pre, q.name ≠ key) ∧ p.name = key ∧ ps = pre ++ p :: post ∧
      ps' = pre ++ ⟨key, p.flags, val⟩ :: post) ∨
    (∀ q ∈ ps, q.name ≠ key) ∧ ps' = ps ++ [⟨key, 0, val⟩]
  | .del _ key, ps, ps' =>
    (∃ pre p post, (∀ q ∈ pre, q.name ≠ key) ∧ p.name = key ∧ ps = pre ++ p :: post ∧
      ps' = pre ++ post) ∨
    (∀ q ∈ ps, q.name ≠ key) ∧ ps' = ps

/-- The address is that of the first node that the path finds. -/
def Addressed : Node → List Text → List ℕ → Prop
  | _, [], [] => True
  | n, part :: parts, i :: p =>
    ∃ c, n.children[i]? = some c ∧ name c = some part ∧
      (∀ j < i, ∀ c', n.children[j]? = some c' → name c' ≠ some part) ∧ Addressed c parts p
  | _, _, _ => False

/-- The edit changes the properties of the node that it addresses, and no others. -/
def Edited (t : Node) (e : Edit) (t' : Node) : Prop :=
  ∃ p ps ps', Addressed t (e.path.splitOn '/') p ∧ t.itemsAt p = some ps ∧ e.Changes ps ps' ∧
    ∀ q, t'.itemsAt q = if q = p then some ps' else t.itemsAt q

/-- The edits change the one tree into the other, one edit after the other. -/
def Edits : Node → List Edit → Node → Prop
  | t, [], t' => t = t'
  | t, e :: es, t' => ∃ t₁, Edited t e t₁ ∧ Edits t₁ es t'

/-- A path finds one node at most. -/
theorem Addressed.unique {n : Node} {parts : List Text} {p q : List ℕ} (hp : Addressed n parts p)
    (hq : Addressed n parts q) : p = q := by
  induction parts generalizing n p q with
  | nil => cases p <;> cases q <;> first | rfl | exact hp.elim | exact hq.elim
  | cons part parts ih =>
    cases p with
    | nil => exact hp.elim
    | cons i p =>
      cases q with
      | nil => exact hq.elim
      | cons j q =>
        obtain ⟨c, hc, hn, hmin, hp⟩ := hp
        obtain ⟨c', hc', hn', hmin', hq⟩ := hq
        have hij : i = j := by
          rcases lt_trichotomy i j with h | h | h
          · exact absurd hn (hmin' i h c hc)
          · exact h
          · exact absurd hn' (hmin j h c' hc')
        subst hij
        rw [hc, Option.some.injEq] at hc'
        subst hc'
        rw [ih hp hq]

/-- A list is taken apart at the first property of a name in one way. -/
theorem first_unique {key : Text} {pre pre' post post' : List Property} {p p' : Property}
    (hpre : ∀ q ∈ pre, q.name ≠ key) (hpre' : ∀ q ∈ pre', q.name ≠ key) (hp : p.name = key)
    (hp' : p'.name = key) (h : pre ++ p :: post = pre' ++ p' :: post') :
    pre = pre' ∧ p = p' ∧ post = post' := by
  induction pre generalizing pre' with
  | nil =>
    cases pre' with
    | nil => simpa using h
    | cons q pre' =>
      rw [List.nil_append, List.cons_append, List.cons.injEq] at h
      exact absurd (h.1 ▸ hp) (hpre' q List.mem_cons_self)
  | cons q pre ih =>
    cases pre' with
    | nil =>
      rw [List.nil_append, List.cons_append, List.cons.injEq] at h
      exact absurd (h.1 ▸ hp') (hpre q List.mem_cons_self)
    | cons q' pre' =>
      rw [List.cons_append, List.cons_append, List.cons.injEq] at h
      rw [List.forall_mem_cons] at hpre hpre'
      obtain ⟨rfl, rfl, rfl⟩ := ih hpre.2 hpre'.2 h.2
      exact ⟨by rw [h.1], rfl, rfl⟩

theorem Edit.Changes.unique {e : Edit} {ps ps₁ ps₂ : List Property} (h₁ : e.Changes ps ps₁)
    (h₂ : e.Changes ps ps₂) : ps₁ = ps₂ := by
  have habs : ∀ {key : Text} {pre post : List Property} {p : Property}, p.name = key →
      ¬∀ q ∈ pre ++ p :: post, q.name ≠ key := fun hp h => h _ (by simp) hp
  cases e with
  | set path key val =>
    rcases h₁ with ⟨pre, p, post, hpre, hp, rfl, rfl⟩ | ⟨hno, rfl⟩ <;>
      rcases h₂ with ⟨pre', p', post', hpre', hp', h, rfl⟩ | ⟨hno', rfl⟩
    · obtain ⟨rfl, rfl, rfl⟩ := first_unique hpre hpre' hp hp' h
      rfl
    · exact absurd hno' (habs hp)
    · exact absurd (h ▸ hno) (habs hp')
    · rfl
  | del path key =>
    rcases h₁ with ⟨pre, p, post, hpre, hp, rfl, rfl⟩ | ⟨hno, rfl⟩ <;>
      rcases h₂ with ⟨pre', p', post', hpre', hp', h, rfl⟩ | ⟨hno', rfl⟩
    · obtain ⟨rfl, rfl, rfl⟩ := first_unique hpre hpre' hp hp' h
      rfl
    · exact absurd hno' (habs hp)
    · exact absurd (h ▸ hno) (habs hp')
    · rfl

theorem Edited.unique {t t₁ t₂ : Node} {e : Edit} (h₁ : Edited t e t₁) (h₂ : Edited t e t₂) :
    t₁ = t₂ := by
  obtain ⟨p, ps, ps₁, hp, hps, hc, ht₁⟩ := h₁
  obtain ⟨q, qs, ps₂, hq, hqs, hc', ht₂⟩ := h₂
  obtain rfl := hp.unique hq
  rw [hps, Option.some.injEq] at hqs
  subst hqs
  obtain rfl := hc.unique hc'
  exact Tree.ext_itemsAt fun q => by rw [ht₁, ht₂]

/-- The edits ask for one tree. -/
theorem Edits.unique {t t₁ t₂ : Node} {es : List Edit} (h₁ : Edits t es t₁)
    (h₂ : Edits t es t₂) : t₁ = t₂ := by
  induction es generalizing t with
  | nil => exact h₁.symm.trans h₂
  | cons e es ih =>
    obtain ⟨u, hu, h₁⟩ := h₁
    obtain ⟨v, hv, h₂⟩ := h₂
    obtain rfl := hu.unique hv
    exact ih h₁ h₂

theorem Edits.append {t t₁ t₂ : Node} {es es' : List Edit} (h₁ : Edits t es t₁)
    (h₂ : Edits t₁ es' t₂) : Edits t (es ++ es') t₂ := by
  induction es generalizing t with
  | nil => cases h₁; exact h₂
  | cons e es ih =>
    obtain ⟨u, hu, h₁⟩ := h₁
    exact ⟨u, hu, ih h₁⟩

/-! ## The tool -/

/-- `find` finds the node that the path addresses. -/
theorem addressed_of_findParts {path : Text} {n : Node} {parts : List Text} {p : List ℕ}
    (h : findParts path n parts = .ok p) : Addressed n parts p ∧ ∃ ps, n.itemsAt p = some ps := by
  induction parts generalizing n p with
  | nil =>
    cases h
    exact ⟨trivial, n.items, n.itemsAt_nil⟩
  | cons part parts ih =>
    rw [findParts] at h
    cases hi : child n part with
    | none => rw [hi] at h; cases h
    | some i =>
      rw [hi] at h
      cases hc : n.children[i]? with
      | none => simp only [hc] at h; cases h
      | some c =>
        simp only [hc] at h
        cases hr : findParts path c parts with
        | error e => rw [hr] at h; cases h
        | ok q =>
          rw [hr] at h
          cases h
          obtain ⟨hadd, ps, hps⟩ := ih hr
          obtain ⟨hlt, hname, hmin⟩ := List.findIdx?_eq_some_iff_getElem.1 hi
          rw [List.getElem?_eq_getElem hlt, Option.some.injEq] at hc
          subst hc
          refine ⟨⟨_, List.getElem?_eq_getElem hlt, by simpa using hname, ?_, hadd⟩, ps, ?_⟩
          · intro j hj c' hc' hn
            rw [List.getElem?_eq_getElem (hj.trans hlt), Option.some.injEq] at hc'
            subst hc'
            exact hmin j hj (by simpa using hn)
          · cases n with
            | node items cs =>
              simp only [Tree.itemsAt, Tree.children_node] at hps hlt ⊢
              rw [List.getElem?_eq_getElem hlt]
              exact hps

theorem changes_set (path key : Text) (val : Bytes) (ps : List Property) :
    (Edit.set path key val).Changes ps (set key val ps) := by
  induction ps with
  | nil => exact Or.inr ⟨by simp, rfl⟩
  | cons p ps ih =>
    rw [set]
    split_ifs with h
    · exact Or.inl ⟨[], p, ps, by simp, h, rfl, by rw [h]; rfl⟩
    · rcases ih with ⟨pre, q, post, hpre, hq, hps, heq⟩ | ⟨hno, heq⟩
      · refine Or.inl ⟨p :: pre, q, post, List.forall_mem_cons.2 ⟨h, hpre⟩, hq, ?_, ?_⟩
        · rw [hps, List.cons_append]
        · rw [heq, List.cons_append]
      · exact Or.inr ⟨List.forall_mem_cons.2 ⟨h, hno⟩, by rw [heq, List.cons_append]⟩

theorem changes_delete (path key : Text) (ps : List Property) :
    (Edit.del path key).Changes ps (delete key ps) := by
  induction ps with
  | nil => exact Or.inr ⟨by simp, rfl⟩
  | cons p ps ih =>
    rw [delete]
    split_ifs with h
    · exact Or.inl ⟨[], p, ps, by simp, h, rfl, rfl⟩
    · rcases ih with ⟨pre, q, post, hpre, hq, hps, heq⟩ | ⟨hno, heq⟩
      · refine Or.inl ⟨p :: pre, q, post, List.forall_mem_cons.2 ⟨h, hpre⟩, hq, ?_, ?_⟩
        · rw [hps, List.cons_append]
        · rw [heq, List.cons_append]
      · exact Or.inr ⟨List.forall_mem_cons.2 ⟨h, hno⟩, by rw [heq]⟩

/-- The change of the node that `find` finds edits the tree. -/
theorem edited_modifyAt {t : Node} {e : Edit} {f : List Property → List Property} {p : List ℕ}
    (hf : ∀ ps, e.Changes ps (f ps)) (h : find t e.path = .ok p) :
    Edited t e (t.modifyAt f p) := by
  obtain ⟨hadd, ps, hps⟩ := addressed_of_findParts h
  refine ⟨p, ps, f ps, hadd, hps, hf ps, fun q => ?_⟩
  rw [Tree.itemsAt_modifyAt, hps, Option.map_some]

/-- Every property of the tree is sound. -/
def Sound (t : Node) : Prop := ∀ p ∈ t.flatten, p.Sound

/-- A change of the properties of one node that brings in sound ones keeps the tree sound. -/
theorem Sound.modifyAt {t : Node} (ht : Sound t) {f : List Property → List Property}
    (hf : ∀ ps, (∀ p ∈ ps, p.Sound) → ∀ p ∈ f ps, p.Sound) (p : List ℕ) :
    Sound (t.modifyAt f p) := by
  intro a ha
  rcases Tree.mem_flatten_modifyAt ha with ha | ⟨ps, hps, ha⟩
  · exact ht a ha
  · exact hf ps (fun b hb => ht b (Tree.mem_flatten_of_itemsAt hps hb)) a ha

theorem sound_set {key : Text} (hkey : nul ∉ key) (val : Bytes) {ps : List Property}
    (h : ∀ p ∈ ps, p.Sound) : ∀ p ∈ set key val ps, p.Sound := by
  induction ps with
  | nil => simp [set, Property.Sound, hkey]
  | cons q ps ih =>
    rw [List.forall_mem_cons] at h
    rw [set]
    split_ifs
    · exact List.forall_mem_cons.2 ⟨h.1, h.2⟩
    · exact List.forall_mem_cons.2 ⟨h.1, ih h.2⟩

theorem sound_delete (key : Text) {ps : List Property} (h : ∀ p ∈ ps, p.Sound) :
    ∀ p ∈ delete key ps, p.Sound := by
  induction ps with
  | nil => simp [delete]
  | cons q ps ih =>
    rw [List.forall_mem_cons] at h
    rw [delete]
    split_ifs
    · exact h.2
    · exact List.forall_mem_cons.2 ⟨h.1, ih h.2⟩

/-- A key has no characters but those of the argument. -/
theorem nul_notMem_rpartition {c : Char} {s : Text} (h : nul ∉ s) : nul ∉ (rpartition c s).2 := by
  intro hk
  rw [rpartition, List.mem_reverse] at hk
  exact h (List.mem_reverse.1 ((List.takeWhile_sublist _).subset hk))

theorem nul_notMem_partition {c : Char} {s : Text} (h : nul ∉ s) : nul ∉ (partition c s).1 :=
  fun hk => h ((List.takeWhile_sublist _).subset hk)

theorem applySet_edited {t t' : Node} {s : Arg} (ht : Sound t) (h : applySet t s = .ok t') :
    ∃ e, setEdit s = .ok e ∧ Edited t e t' ∧ Sound t' := by
  simp only [applySet, bind, bind_eq_ok] at h
  obtain ⟨p, hp, val, hval, h⟩ := h
  cases h
  refine ⟨.set (rpartition ':' (partition '=' s.1).1).1 (rpartition ':' (partition '=' s.1).1).2
    val, ?_, ?_, ?_⟩
  · simp only [setEdit, hval, bind, Except.bind]
  · exact edited_modifyAt (changes_set _ _ val) hp
  · refine ht.modifyAt (fun ps => sound_set ?_ val) p
    exact nul_notMem_rpartition (nul_notMem_partition s.2)

theorem applyDel_edited {t t' : Node} {d : Arg} (ht : Sound t) (h : applyDel t d = .ok t') :
    Edited t (delEdit d) t' ∧ Sound t' := by
  simp only [applyDel, bind, bind_eq_ok] at h
  obtain ⟨p, hp, h⟩ := h
  cases h
  exact ⟨edited_modifyAt (changes_delete _ _) hp, ht.modifyAt (fun ps => sound_delete _) p⟩

/-- The `-set` arguments make the edits that they ask for. -/
theorem applySets_edits {t t' : Node} {sets : List Arg} (ht : Sound t)
    (h : sets.foldlM applySet t = .ok t') :
    ∃ es, sets.mapM setEdit = .ok es ∧ Edits t es t' ∧ Sound t' := by
  induction sets generalizing t with
  | nil =>
    cases h
    exact ⟨[], rfl, rfl, ht⟩
  | cons s sets ih =>
    simp only [List.foldlM_cons, bind, bind_eq_ok] at h
    obtain ⟨u, hu, h⟩ := h
    obtain ⟨e, he, hedit, hsound⟩ := applySet_edited ht hu
    obtain ⟨es, hes, hedits, hsound⟩ := ih hsound h
    refine ⟨e :: es, ?_, ⟨u, hedit, hedits⟩, hsound⟩
    rw [List.mapM_cons, he, hes]
    rfl

/-- The `-del` arguments make the edits that they ask for. -/
theorem applyDels_edits {t t' : Node} {dels : List Arg} (ht : Sound t)
    (h : dels.foldlM applyDel t = .ok t') : Edits t (dels.map delEdit) t' ∧ Sound t' := by
  induction dels generalizing t with
  | nil =>
    cases h
    exact ⟨rfl, ht⟩
  | cons d dels ih =>
    simp only [List.foldlM_cons, bind, bind_eq_ok] at h
    obtain ⟨u, hu, h⟩ := h
    obtain ⟨hedit, hsound⟩ := applyDel_edited ht hu
    obtain ⟨hedits, hsound⟩ := ih hsound h
    exact ⟨⟨u, hedit, hedits⟩, hsound⟩

/-! ## Well-formed blobs -/

/-- The property of a record. -/
def ofRecord (r : Record) : Property := ⟨r.name, r.flags, r.value⟩

/-- The nodes of a device tree. -/
def nodes (d : DeviceTree) : Node := d.tree.map ofRecord

theorem sound_nodes (d : DeviceTree) : Sound (nodes d) := by
  intro p hp
  rw [nodes, Tree.flatten_map, List.mem_map] at hp
  obtain ⟨r, -, rfl⟩ := hp
  exact ⟨r.nul_notMem_name, r.flags_eq⟩

theorem fits_nodes (d : DeviceTree) : ∀ p ∈ (nodes d).flatten, p.Fits := by
  intro p hp
  rw [nodes, Tree.flatten_map, List.mem_map] at hp
  obtain ⟨r, -, rfl⟩ := hp
  exact ⟨r.length_name_lt.le, r.length_value_lt⟩

/-- The blob of a device tree is the layout of its nodes. -/
theorem layout_nodes (d : DeviceTree) : ((nodes d).map Property.bytes).layout = d.blob := by
  rw [nodes, Tree.map_map, DeviceTree.blob]
  congr 1
  refine Tree.map_congr fun r _ => ?_
  obtain ⟨-, -, -, hword⟩ := word_eq r.length_value_lt r.flags_eq
  simp only [Property.bytes, ofRecord, hword, Record.bytes]

theorem decode_blob (d : DeviceTree) : decode d.blob 0 = .ok (nodes d, d.blob.length) := by
  rw [← layout_nodes]
  exact decode_layout (Tree.counted_map.2 d.counted) (sound_nodes d) (fits_nodes d)

theorem encode_nodes (d : DeviceTree) : encode (nodes d) = .ok d.blob := by
  refine encode_eq_ok_iff.2 ⟨Tree.counted_map.2 d.counted, fun p hp => ?_, (layout_nodes d).symm⟩
  have hp' := hp
  rw [nodes, Tree.flatten_map, List.mem_map] at hp'
  obtain ⟨r, -, rfl⟩ := hp'
  exact ⟨(length_le_length_utf8 r.name).trans_lt r.length_name_lt,
    (word_eq r.length_value_lt r.flags_eq).1⟩

/-- A well-formed blob is decoded to its tree and encoded unchanged. The output of the tool, for
any arguments that it accepts, decodes to the tree that the edits ask for exactly if each property
of that tree fits its record. -/
theorem lossless_local (d : DeviceTree) :
    decode d.blob 0 = .ok (nodes d, d.blob.length) ∧ encode (nodes d) = .ok d.blob ∧
      ∀ (sets dels : List Arg) (out : Bytes), main d.blob sets dels = .ok out →
        ∃ es, sets.mapM setEdit = .ok es ∧
          ((∃ t, Edits (nodes d) (es ++ dels.map delEdit) t ∧
              decode out 0 = .ok (t, out.length)) ↔
            ∀ t, Edits (nodes d) (es ++ dels.map delEdit) t → ∀ p ∈ t.flatten, p.Fits) := by
  refine ⟨decode_blob d, encode_nodes d, fun sets dels out h => ?_⟩
  simp only [main, decode_blob, bind, bind_eq_ok, Except.ok.injEq, exists_eq_left'] at h
  obtain ⟨u, hu, t, ht, hout⟩ := h
  obtain ⟨es, hes, hsets, hsound⟩ := applySets_edits (sound_nodes d) hu
  obtain ⟨hdels, hsound⟩ := applyDels_edits hsound ht
  obtain ⟨hcounted, -, rfl⟩ := encode_eq_ok_iff.1 hout
  have hedits := hsets.append hdels
  refine ⟨es, hes, ?_, fun hfits => ⟨t, hedits, decode_layout hcounted hsound (hfits t hedits)⟩⟩
  rintro ⟨t', ht', hdec⟩ t'' ht''
  obtain rfl := hedits.unique ht'
  obtain rfl := hedits.unique ht''
  exact fits_of_decode_layout hdec

/-- A root without properties that has one child, named `a`. -/
def oneChild : DeviceTree where
  tree := .node [] [.node [⟨"name".toList, false, [97, 0], by decide, by decide, by decide⟩] []]
  counted := by simp

/-- The argument that sets a property of the child to `1`. -/
def plainKey : Arg := ⟨"a:k=u32:1".toList, by decide⟩

/-- The argument that sets a property whose key of 17 characters takes 34 bytes of UTF-8. -/
def wideKey : Arg := ⟨"a:".toList ++ List.replicate 17 'é' ++ "=NULL".toList, by decide⟩

/-- The name property of the child, and the counts before it when the child has `n` properties. -/
def oneChildHead (n : ℕ) : Bytes :=
  counts 0 1 ++ counts n 0 ++ ljust (utf8 "name".toList) 32 ++ leBytes 4 2 ++ [97, 0, 0, 0]

/-- Setting a property of an ordinary key is lossless and local. -/
theorem lossless_local_plain_key :
    ∃ out t, main oneChild.blob [plainKey] [] = .ok out ∧
      Edits (nodes oneChild) [.set ['a'] ['k'] [1, 0, 0, 0]] t ∧
        decode out 0 = .ok (t, out.length) := by
  have hout : main oneChild.blob [plainKey] [] =
      .ok (oneChildHead 2 ++ ljust ['k'.toUInt8] 32 ++ leBytes 4 4 ++ [1, 0, 0, 0]) := by
    decide +kernel
  have hset : [plainKey].mapM setEdit = .ok [.set ['a'] ['k'] [1, 0, 0, 0]] := rfl
  obtain ⟨es, hes, hiff⟩ := (lossless_local oneChild).2.2 [plainKey] [] _ hout
  obtain ⟨es', hes', hrun, -⟩ := @applySets_edits _ _ [plainKey] (sound_nodes oneChild) rfl
  obtain rfl := Except.ok.inj (hset.symm.trans hes)
  obtain rfl := Except.ok.inj (hset.symm.trans hes')
  obtain ⟨t, ht, hdec⟩ := hiff.2 fun t ht => by
    obtain rfl := hrun.unique ht
    decide +kernel
  exact ⟨_, t, hout, ht, hdec⟩

/-- A key of fewer than 32 characters whose UTF-8 takes more than 32 bytes shifts the bytes after
it: the output does not decode to the edited tree. -/
theorem lossless_local_wide_key :
    ¬∀ (d : DeviceTree) (sets dels : List Arg) (out : Bytes), main d.blob sets dels = .ok out →
      ∃ es, sets.mapM setEdit = .ok es ∧
        ∃ t n, Edits (nodes d) (es ++ dels.map delEdit) t ∧ decode out 0 = .ok (t, n) := by
  intro h
  have hout : main oneChild.blob [wideKey] [] =
      .ok (oneChildHead 2 ++ utf8 (List.replicate 17 'é') ++ leBytes 4 0) := by
    decide +kernel
  obtain ⟨es, hes, t, n, hedits, hdec⟩ := h oneChild [wideKey] [] _ hout
  obtain ⟨es', hes', hrun, -⟩ := @applySets_edits _ _ [wideKey] (sound_nodes oneChild) rfl
  obtain rfl := Except.ok.inj (hes.symm.trans hes')
  rw [List.map_nil, List.append_nil] at hedits
  obtain rfl := hrun.unique hedits
  -- the name field ends inside the key, so the decoder reads a shorter name
  have hread : ((decode (oneChildHead 2 ++ utf8 (List.replicate 17 'é') ++ leBytes 4 0)
      0).toOption.all fun x => x.1.flatten.all fun p => p.name.length ≠ 17) = true := by
    decide +kernel
  rw [hdec, Except.toOption, Option.all_some] at hread
  clear hdec
  dsimp only at hread
  revert hread
  decide +kernel

end DarwinVm.Dt.Patch
