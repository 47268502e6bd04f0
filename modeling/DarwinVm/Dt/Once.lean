import DarwinVm.Dt.Reread
import DarwinVm.Dt.Scope

/-!
# A one-shot transform

`fixup` of `dt_fixup.py` refuses a tree that it made, before it edits anything. The mark that it
leaves in the tree survives the passes after it (`Booted.edits`) and the way through the bytes of the
file, so that a run of `main` on what a run of `main` wrote ends with the message for it
(`main_once`).
-/

namespace DarwinVm.Dt.Fixup

variable {o : Options} {nvram : Bytes} {tree d d' : Node}

/-! ## The mark -/

/-- A lookup of `chosen` finds it, with the version that a run leaves. -/
def Booted (d : Node) : Prop := ∃ c, child chosen d = .ok c ∧ get firmwareVersion c.items = some ibootName

/-- No child of the root is moved. -/
theorem not_moved {n : Text} : ¬Moved o [n] := nofun

/-- The properties that are removed. -/
theorem Removed.key {ns : List Text} {k : Text} (h : Removed o ns k) :
    k ∈ [compatible, deviceType, routes, functionWait, secureRootPrefix] := by
  cases h <;> decide

/-- The mark is written with itself alone, and is not removed. -/
theorem get_version_of_edit {ns : List Text} {c c' : Node} (h : Edit (scope o nvram tree) ns c c')
    (hc : get firmwareVersion c.items = some ibootName) :
    get firmwareVersion c'.items = some ibootName := by
  have hrel := rel_some_iff.mp (h.revised [] fun m hm hpre => absurd (List.prefix_nil.mp hpre) hm)
  obtain hsame | ⟨v, hv, hput⟩ | ⟨-, hremove⟩ := hrel firmwareVersion
  · exact hsame.trans hc
  · have hversion : v = ibootName := (Written.reserved hput).version rfl
    rw [hv, hversion]
  · exact absurd (Removed.key hremove) (by decide)

/-- The mark stays in a tree through edits in the scope. -/
theorem Booted.edit (h : Booted d) (hedit : Edit (scope o nvram tree) [] d d') : Booted d' := by
  obtain ⟨c, hc, hv⟩ := h
  obtain ⟨l, r, hd, hname, hl⟩ := child_eq_ok_iff.mp hc
  cases hedit with
  | put | remove => exact ⟨c, child_eq_ok_iff.mpr ⟨l, r, hd, hname, hl⟩, hv⟩
  | rename hold => exact absurd hold not_moved
  | drop h => exact absurd h not_moved
  | @add _ _ ps hnode h hkeyed =>
    have happ : d.children ++ [.node ps []] = l ++ c :: (r ++ [.node ps []]) := by
      rw [hd, List.append_assoc, List.cons_append]
    exact ⟨c, child_eq_ok_iff.mpr ⟨l, _, happ, hname, hl⟩, hv⟩
  | @child _ ps l' r' b b' h =>
    have hget := h.get_name
    have hfound : ∀ {m : List Node}, Passed chosen m → b = c → Booted (.node ps (m ++ b' :: r')) := by
      rintro m hm rfl
      exact ⟨b', child_eq_ok_iff.mpr ⟨m, r', rfl, hget.trans hname, hm⟩, get_version_of_edit h hv⟩
    rw [Tree.children_node] at hd
    obtain ⟨m, rfl, hm⟩ | ⟨m, rfl, hm⟩ := List.append_eq_append_iff.mp hd
    · cases m with
      | nil =>
        rw [List.append_nil] at hl
        exact hfound hl (List.cons.inj hm).1
      | cons a m =>
        -- The edited child comes before the one that is found, with the name it had.
        obtain ⟨rfl, rfl⟩ := List.cons.inj hm
        have happ : l' ++ b' :: (m ++ c :: r) = l' ++ b' :: m ++ c :: r := by
          rw [List.append_assoc, List.cons_append]
        refine ⟨c, child_eq_ok_iff.mpr ⟨l' ++ b' :: m, r, happ, hname, ?_⟩, hv⟩
        unfold Passed at hl ⊢
        rw [List.forall_mem_append, List.forall_mem_cons] at hl ⊢
        rw [hget]
        exact hl
    · cases m with
      | nil =>
        rw [List.append_nil]
        exact hfound hl (List.cons.inj hm).1.symm
      | cons a m =>
        obtain ⟨rfl, rfl⟩ := List.cons.inj hm
        have happ : l ++ c :: m ++ b' :: r' = l ++ c :: (m ++ b' :: r') := by
          rw [List.append_assoc, List.cons_append]
        exact ⟨c, child_eq_ok_iff.mpr ⟨l, _, happ, hname, hl⟩, hv⟩

theorem Booted.edits (h : Booted d) (hedits : Edits (scope o nvram tree) [] d d') : Booted d' := by
  induction hedits with
  | refl => exact h
  | tail _ hedit ih => exact ih.edit hedit

/-- The passes leave the mark. -/
theorem booted_setBoot (h : setBoot o d = .ok d') : Booted d' := by
  unfold setBoot at h
  simp only [bind, bind_eq_ok] at h
  obtain ⟨gen, -, h⟩ := h
  obtain ⟨l, c, r, c', -, hname, hl, hc, rfl⟩ := within_eq_ok_iff.mp h
  obtain rfl := Except.ok.inj hc
  have hkeys : nameKey ∉ (bootEntries o gen).map Prod.fst := by
    simp only [bootEntries, entry, List.map_cons, List.map_nil]
    decide
  have hassign : Edits (scope o [] c) [chosen] c (assign (bootEntries o gen) c) :=
    edits_assign (fun e he => .boot he) hkeys
  refine ⟨_, child_eq_ok_iff.mpr ⟨l, r, rfl, hassign.get_name.trans hname, hl⟩, ?_⟩
  unfold bootEntries assign
  simp only [List.foldl_cons, List.foldl_nil, Tree.items_node]
  rw [get_put_of_ne (by decide), get_put_self]

/-- A tree that the fixup made is marked. -/
theorem booted_fixup (h : fixup o nvram d = .ok d') : Booted d' := by
  have hcons : passes o nvram = setPlatformName :: setBoot o :: (passes o nvram).drop 2 := rfl
  have hpasses := (fixup_eq_ok h).2
  rw [hcons] at hpasses
  simp only [List.foldlM_cons, bind, bind_eq_ok] at hpasses
  obtain ⟨d₁, h₁, d₂, h₂, hrest⟩ := hpasses
  have hplatform : Edits (scope o nvram d) [] d d₁ := edits_setPlatformName .refl h₁
  have hboot : Edits (scope o nvram d) [] d₁ d₂ := edits_setBoot h₂
  exact (booted_setBoot h₂).edits (edits_foldlM (hplatform.trans hboot)
    (fun pass hpass => edits_passes pass (List.mem_of_mem_drop hpass)) hrest)

/-! ## What is decoded -/

theorem nul_notMem_pyHex (n : ℕ) : nul ∉ pyHex n := by
  unfold pyHex
  rw [List.mem_cons, List.mem_cons, not_or, not_or]
  refine ⟨by decide, by decide, fun hmem => ?_⟩
  have hdigit : (0 : UInt8) ∈ digits 16 n := List.mem_map.mpr ⟨nul, hmem, rfl⟩
  exact absurd (isDigitOf_of_mem_digits (by decide) le_rfl hdigit) (by decide)

theorem nul_notMem_decimal (n : ℕ) : nul ∉ decimal n := fun h =>
  absurd (isDigit_of_mem_decimal h) (by decide)

theorem nul_notMem_intText (n : ℤ) : nul ∉ intText n := by
  unfold intText
  split_ifs
  · rw [List.mem_cons, not_or]
    exact ⟨by decide, nul_notMem_decimal _⟩
  · exact nul_notMem_decimal _

theorem nul_notMem_append {s t : Text} (hs : nul ∉ s) (ht : nul ∉ t) : nul ∉ s ++ t := by
  rw [List.mem_append, not_or]
  exact ⟨hs, ht⟩

/-- What is guessed of a value has no NUL in its text. -/
theorem nulFree_decodeProp {k : Text} {val : Bytes} {v : Value} (h : decodeProp k val = some v) :
    v.NulFree := by
  unfold decodeProp at h
  split_ifs at h
  · obtain ⟨t, ht, rfl⟩ := Option.map_eq_some_iff.mp h
    exact (utf8_prefix_of_decode ht).2
  · obtain rfl := Option.some.inj h
    exact (by decide : (Value.str "<NULL>".toList).NulFree)
  · obtain rfl := Option.some.inj h
    exact nul_notMem_append (by decide) (nul_notMem_pyHex _)
  · obtain rfl := Option.some.inj h
    exact nul_notMem_append (by decide) (nul_notMem_pyHex _)
  · obtain rfl := Option.some.inj h
    trivial

/-- An entry that is decoded has no NUL. -/
theorem nulFree_decodeEntry {s s' : Bytes} {e : Entry} (h : decodeEntry s = .ok (e, s')) :
    NulFree e := by
  unfold decodeEntry at h
  split at h
  · next name hname =>
    split at h
    · next len hlen =>
      dsimp only at h
      split at h
      · next v hv =>
        obtain ⟨rfl, -⟩ := Prod.mk.inj (Except.ok.inj h)
        exact ⟨(utf8_prefix_of_decode hname).2, nulFree_decodeProp hv⟩
      · cases h
    · cases h
  · cases h

theorem keyed_toDict (ps : List Entry) : Keyed (toDict Prod.fst ps) := by
  induction ps using List.reverseRecOn with
  | nil => exact List.nodup_nil
  | append_singleton ps e ih =>
    unfold toDict at ih ⊢
    rw [List.foldl_append]
    exact keyed_put ih e.1 e.2

/-- A tree that is decoded has no NUL in its entries, and dicts in its nodes. -/
theorem decodeNode_spec {dtree rest : Bytes} (h : decodeNode dtree = .ok (d, rest)) :
    (∀ e ∈ d.flatten, NulFree e) ∧ d.AllItems Keyed := by
  have hdicts : ∀ t : Node, (t.mapItems (toDict Prod.fst)).AllItems Keyed := by
    intro t
    induction t using Tree.induct with
    | node ps cs ih =>
      rw [Tree.mapItems_node, Tree.allItems_node]
      exact ⟨keyed_toDict ps, fun c hc => by
        obtain ⟨b, hb, rfl⟩ := List.mem_map.mp hc
        exact ih b hb⟩
  unfold decodeNode at h
  cases ht : readTree Error.tooSmall decodeCounts decodeEntry (dtree.length + 1) dtree with
  | error e => rw [ht] at h; cases h
  | ok t =>
    rw [ht] at h
    obtain ⟨rfl, -⟩ := Prod.mk.inj (Except.ok.inj h)
    refine ⟨fun e he => ?_, hdicts t.1⟩
    have hspec := Tree.Spans.forall_mem (fun e s s' => nulFree_decodeEntry (e := e))
      (readTree_eq_ok_iff.mp ht).2
    exact hspec e (Tree.flatten_mapItems_subset (fun l => (toDict_spec _ l).2) t.1 he)

/-! ## What is written -/

theorem nul_notMem_resize {blocks : ℤ} : ∀ {n : ℕ} {s : Text}, nul ∉ s → nul ∉ resize blocks n s
  | n, [], _ => by
    cases n <;> exact List.not_mem_nil
  | n + 1, c :: s, h => by
    rw [List.mem_cons, not_or] at h
    have hrest : nul ∉ resize blocks n s := nul_notMem_resize h.2
    exact hrest
  | 0, c :: s, h => by
    rw [List.mem_cons, not_or] at h
    unfold resize
    dsimp only
    split_ifs
    · exact nul_notMem_append (nul_notMem_append (by decide) (nul_notMem_intText _))
        (nul_notMem_resize h.2)
    · rw [List.mem_cons, not_or]
      exact ⟨h.1, nul_notMem_resize h.2⟩

theorem nul_notMem_resized {blocks : ℤ} {opts : Text} (h : Resized tree blocks opts)
    (htree : ∀ e ∈ tree.flatten, NulFree e) : nul ∉ opts := by
  obtain ⟨n, opts₀, hmem, rfl⟩ := h
  induction n with
  | zero => exact (htree _ hmem).2
  | succ n ih =>
    rw [Function.iterate_succ_apply']
    exact nul_notMem_resize ih

theorem mem_flatten_of_propAt {ns : List Text} {k : Text} {v : Value} (h : propAt d ns k = some v) :
    (k, v) ∈ d.flatten := by
  unfold propAt at h
  rw [Option.bind_eq_some_iff] at h
  obtain ⟨c, hc, hv⟩ := h
  refine flatten_find hc ?_
  cases c with
  | node ps cs =>
    rw [Tree.flatten_node]
    exact List.mem_append_left _ (mem_of_get hv)

/-- An entry under another key is no name. -/
theorem plain_of_ne {k : Text} {v : Value} (hnul : nul ∉ k) (hk : k ≠ nameKey) (hv : v.NulFree) :
    NulFree (k, v) ∧ PlainName (k, v) :=
  ⟨⟨hnul, hv⟩, fun h => absurd h hk⟩

theorem nulFree_u32Value (n : ℕ) : (u32Value n).NulFree :=
  nul_notMem_append (by decide) (nul_notMem_decimal n)

theorem nulFree_u64Value (n : ℕ) : (u64Value n).NulFree :=
  nul_notMem_append (by decide) (nul_notMem_pyHex n)

theorem plain_ctrrEntries (i : ℕ) : ∀ e ∈ ctrrEntries i, NulFree e ∧ PlainName e := by
  unfold ctrrEntries
  simp only [List.forall_mem_cons]
  refine ⟨by decide, plain_of_ne (by decide) (by decide) (nulFree_u32Value _),
    plain_of_ne (by decide) (by decide) (nulFree_u32Value _), by decide, by decide, by decide,
    by decide, by decide, by decide, by decide, by decide, by decide, by decide, by decide, nofun⟩

theorem plain_chipEntries {p : Text} {es : List Entry} (h : chipEntries p = .ok es) :
    ∀ e ∈ es, NulFree e ∧ PlainName e := by
  unfold chipEntries at h
  split at h
  · split_ifs at h
    · split at h
      · obtain rfl := Except.ok.inj h
        rw [List.forall_mem_singleton]
        exact plain_of_ne (by decide) (by decide)
          (nul_notMem_append (by decide) (nul_notMem_pyHex _))
      · cases h
    · obtain rfl := Except.ok.inj h
      nofun
  · obtain rfl := Except.ok.inj h
    nofun

/-- What is written has no NUL, if the name of the platform and the options have none, and the names
look like no numbers. -/
theorem Written.plain {ns : List Text} {e : Entry} (h : Written o nvram tree ns e)
    (htree : ∀ e ∈ tree.flatten, NulFree e)
    (hplatform : ∀ v p, propAt tree [armIo] compatible = some v → platformOf v = .ok p → nul ∉ p) :
    NulFree e ∧ PlainName e := by
  cases h with
  | platform hv hp => exact plain_of_ne (by decide) (by decide) (hplatform _ _ hv hp)
  | @boot gen e h =>
    unfold bootEntries at h
    simp only [List.mem_cons, List.not_mem_nil, or_false] at h
    obtain rfl | rfl | rfl | rfl := h
    · split_ifs <;> decide
    · exact plain_of_ne (by decide) (by decide)
        (nul_notMem_append (by decide) (nul_notMem_intText _))
    · decide
    · decide
  | seed h he =>
    obtain rfl | he := List.mem_cons.mp he
    · exact plain_of_ne (by decide) (by decide) trivial
    · obtain rfl := List.mem_singleton.mp he
      decide
  | serial h =>
    exact plain_of_ne (by decide) (by decide) (htree _ (mem_flatten_of_propAt h)).2
  | nvram h =>
    unfold nvramEntries at h
    simp only [List.mem_cons, List.not_mem_nil, or_false] at h
    obtain rfl | rfl | rfl | rfl | rfl := h
    · decide
    · decide
    · exact plain_of_ne (by decide) (by decide) trivial
    · exact plain_of_ne (by decide) (by decide) (nulFree_u32Value _)
    · exact plain_of_ne (by decide) (by decide) (nulFree_u32Value _)
  | ctrr hb h => exact plain_ctrrEntries _ _ h
  | nub hslot h =>
    unfold placeEntries at h
    simp only [List.mem_cons, List.not_mem_nil, or_false] at h
    obtain rfl | rfl | rfl | rfl := h
    · decide
    · exact plain_of_ne (by decide) (by decide) (nulFree_u64Value _)
    · exact plain_of_ne (by decide) (by decide) (nulFree_u64Value _)
    · decide
  | options hb h =>
    exact plain_of_ne (by decide) (by decide) (nul_notMem_resize (nul_notMem_resized h htree))
  | chip _ _ _ hes he => exact plain_chipEntries hes _ he
  | dart => exact plain_of_ne (by decide) (by decide) (nulFree_u32Value _)
  | tableSize => exact plain_of_ne (by decide) (by decide) (nulFree_u32Value _)
  | cpu h =>
    exact (by decide : ∀ e ∈ entry "state" "running" :: frequencyEntries, NulFree e ∧ PlainName e) _ h
  | hmac h => exact (by decide : ∀ e ∈ hmacEntries, NulFree e ∧ PlainName e) _ h
  | rtc _ h => exact (by decide : ∀ e ∈ rtcNode.items, NulFree e ∧ PlainName e) _ h
  | amcc h => exact (by decide : ∀ e ∈ amccEntries, NulFree e ∧ PlainName e) _ h
  | sepNub _ h =>
    exact (by decide : ∀ e ∈ [entry "rom-panic-bytes" "u32:0x100", entry "sepfw-loaded" "u32:0x1"],
      NulFree e ∧ PlainName e) _ h
  | region h => exact (by decide : ∀ e ∈ regionEntries, NulFree e ∧ PlainName e) _ h
  | noRtc | vmm | gate | disk | ephemeral | keybag | sepFirmware | sepLoad | aic | debug |
    activation => decide

/-! ## A second run -/

/-- What is found in a node is found when it comes back. -/
theorem get_map_rereadEntry {k : Text} {v : Value} : ∀ {ps : List Entry},
    (∀ e ∈ ps, (rereadEntry e).1 = e.1) → get k ps = some v →
      get k (ps.map rereadEntry) = some (rereadEntry (k, v)).2
  | e :: ps, hkey, h => by
    rw [List.forall_mem_cons] at hkey
    unfold get at h
    rw [List.map_cons]
    unfold get
    rw [hkey.1]
    split_ifs at h ⊢ with hk
    · obtain rfl := Option.some.inj h
      rw [← hk]
    · exact get_map_rereadEntry hkey.2 h

/-- The mark comes back, where the keys and the names do. -/
theorem Booted.reread (h : Booted d) (hkey : ∀ e ∈ d.flatten, (rereadEntry e).1 = e.1)
    (hname : ∀ e ∈ d.flatten, PlainName e ∧ (e.1 = nameKey → rereadEntry e = e)) :
    Booted (d.map rereadEntry) := by
  obtain ⟨c, hc, hv⟩ := h
  obtain ⟨l, r, hd, hcname, hl⟩ := child_eq_ok_iff.mp hc
  have hitems : ∀ b ∈ d.children, ∀ e ∈ b.items, e ∈ d.flatten := by
    intro b hb e he
    refine mem_flatten_child hb ?_
    cases b with
    | node ps cs =>
      rw [Tree.flatten_node]
      exact List.mem_append_left _ he
  have hback : ∀ b ∈ d.children, ∀ k v, get k b.items = some v →
      get k (b.map rereadEntry).items = some (rereadEntry (k, v)).2 := by
    intro b hb k v h
    cases b with
    | node ps cs =>
      rw [Tree.map_node]
      exact get_map_rereadEntry (fun e he => hkey e (hitems _ hb e he)) h
  have hnamed : ∀ b ∈ d.children, ∀ v, get nameKey b.items = some v →
      get nameKey (b.map rereadEntry).items = some v := by
    intro b hb v h
    rw [hback b hb _ _ h, (hname _ (hitems b hb _ (mem_of_get h))).2 rfl]
  have hcd : c ∈ d.children := by
    rw [hd]
    exact List.mem_append_right l (List.mem_cons_self ..)
  refine ⟨c.map rereadEntry, child_eq_ok_iff.mpr
    ⟨l.map (Tree.map rereadEntry), r.map (Tree.map rereadEntry), ?_, hnamed c hcd _ hcname, ?_⟩, ?_⟩
  · cases d with
    | node ps cs =>
      rw [Tree.children_node] at hd
      rw [Tree.map_node, Tree.children_node, hd, List.map_append, List.map_cons]
  · intro b' hb'
    obtain ⟨b, hb, rfl⟩ := List.mem_map.mp hb'
    obtain ⟨n, hn, hne⟩ := hl b hb
    have hbd : b ∈ d.children := by
      rw [hd]
      exact List.mem_append_left _ hb
    exact ⟨n, hnamed b hbd n hn, hne⟩
  · rw [hback c hcd _ _ hv]
    decide +kernel

/-- A tree with the mark is refused. -/
theorem fixup_of_booted (h : Booted d) : fixup o nvram d = .error .patched := by
  obtain ⟨c, hc, hv⟩ := h
  unfold fixup
  rw [hc]
  exact if_pos hv

/-- What `main` runs. -/
theorem main_eq_ok {dtree out rest : Bytes} (hdec : decodeNode dtree = .ok (d, rest))
    (h : main o nvram dtree = .ok out) : ∃ d₁ d₂, fixup o nvram d = .ok d₁ ∧
      fixupDevelopmentActivation o d₁ = .ok d₂ ∧ encodeNode d₂ = .ok out := by
  unfold main at h
  rw [hdec] at h
  simp only [Except.mapError, bind, bind_eq_ok, Except.ok.injEq, exists_eq_left'] at h
  obtain ⟨d₁, hfix, d₂, hact, henc⟩ := h
  refine ⟨d₁, d₂, hfix, hact, ?_⟩
  cases he : encodeNode d₂ with
  | error e => rw [he] at henc; cases henc
  | ok b => rw [he] at henc; exact congrArg _ (Except.ok.inj henc)

/-- A tree that is fixed up has a name of the platform, and it is that of its `compatible`. -/
theorem getPlatformName_of_fixup (h : fixup o nvram d = .ok d') {v : Value} {p : Text}
    (hv : propAt d [armIo] compatible = some v) (hp : platformOf v = .ok p) :
    getPlatformName d = .ok p := by
  have hpasses := (fixup_eq_ok h).2
  unfold passes at hpasses
  rw [List.foldlM_cons] at hpasses
  obtain ⟨d₁, h₁, -⟩ := bind_eq_ok.mp hpasses
  obtain ⟨q, hq, -⟩ := bind_eq_ok.mp h₁
  obtain ⟨w, hw, hpw⟩ := getPlatformName_edits (Edits.refl (S := scope o nvram d)) hq
  obtain rfl := Option.some.inj (hv.symm.trans hw)
  rw [hq, ← hpw, hp]

/-- What a run of `main` wrote is refused by each run after it, with the message for it. The names of
the nodes look like no numbers, and that of the platform has no NUL. -/
theorem main_once (o o' : Options) (nvram nvram' dtree out rest : Bytes) (d : Node)
    (hdec : decodeNode dtree = .ok (d, rest))
    (hnames : ∀ e ∈ d.flatten, PlainName e)
    (hplatform : ∀ p, getPlatformName d = .ok p → nul ∉ p)
    (h : main o nvram dtree = .ok out) (hout : out.length < 2 ^ 31) :
    main o' nvram' out = .error .patched := by
  obtain ⟨d₁, d₂, hfix, hact, henc⟩ := main_eq_ok hdec h
  have hedits : Edits (scope o nvram d) [] d₁ d₂ := edits_fixupDevelopmentActivation hact
  have hbooted : Booted d₂ := (booted_fixup hfix).edits hedits
  have hall : Edits (scope o nvram d) [] d d₂ := (edits_fixup hfix).trans hedits
  obtain ⟨hentries, hkeyed⟩ := decodeNode_spec hdec
  have hplain : ∀ e ∈ d₂.flatten, NulFree e ∧ PlainName e := by
    intro e he
    obtain hin | ⟨ns, hput⟩ := hall.mem_flatten he
    · exact ⟨hentries e hin, hnames e hin⟩
    · exact Written.plain hput hentries fun v p hv hp =>
        hplatform p (getPlatformName_of_fixup hfix hv hp)
  obtain ⟨-, hok, -⟩ := encodeNode_eq_ok_iff.mp henc
  have hreread := decodeNode_reread henc hout (fun e he => (hplain e he).1)
    (fun e he => (hplain e he).2) (hall.keyed hkeyed)
  have hback : Booted (d₂.map rereadEntry) := hbooted.reread
    (fun e he => rereadEntry_key (hok e he).choose_spec (hplain e he).1 (hplain e he).2)
    fun e he => ⟨(hplain e he).2,
      rereadEntry_name (hok e he).choose_spec (hplain e he).1 (hplain e he).2⟩
  have hrun : main o' nvram' out = fixup o' nvram' (d₂.map rereadEntry) >>= fun d =>
      fixupDevelopmentActivation o' d >>= fun d => (encodeNode d).mapError .codec := by
    unfold main
    rw [hreread]
    rfl
  rw [hrun, fixup_of_booted hback]
  rfl

/-- The bytes of a tree, as the loader reads them. -/
def phoneBytes : Bytes := ((encodeNode phone).toOption).getD []

theorem main_once_phone : ∃ out, main stock [0] phoneBytes = .ok out ∧
    main ⟨[sepPath], 0x400000000, some 8, true, true⟩ [1] out = .error .patched := by
  obtain ⟨out, h, hout⟩ : ∃ out, main stock [0] phoneBytes = .ok out ∧ out.length < 2 ^ 31 :=
    exists_of_any (by decide +kernel)
  obtain ⟨⟨d, rest⟩, hdec, hnames, hname⟩ : ∃ p, decodeNode phoneBytes = .ok p ∧
      (∀ e ∈ p.1.flatten, PlainName e) ∧ getPlatformName p.1 = .ok "t8140".toList :=
    exists_of_any (by decide +kernel)
  refine ⟨out, h, main_once stock _ [0] [1] phoneBytes out rest d hdec hnames ?_ h hout⟩
  intro p hp
  rw [hname] at hp
  rw [← Except.ok.inj hp]
  decide

end DarwinVm.Dt.Fixup
