import DarwinVm.Dt.Edits
import DarwinVm.Dt.Whole

/-!
# The scope of the fixup

What `fixup` of `dt_fixup.py` may write (`Written`), remove (`Removed`) and move (`Moved`), by the
names of the nodes from the root. Each of its passes is a sequence of edits in this scope, and so is
the whole of it (`fixup_edits`).
-/

namespace DarwinVm.Dt.Fixup

/-! ## The scope -/

section

-- The tree before the fixup.
variable (o : Options) (nvram : Bytes) (tree : Node)

/-- The properties of a nub in a region at a base. -/
def placeEntries (base : ℕ) : List Entry :=
  [(preLoaded, one), (regionBase, u64Value base), (regionSize, u64Value iopRegionSize),
    (noFirmwareService, absent)]

/-- The property of the node with the names. -/
def propAt (d : Node) (ns : List Text) (k : Text) : Option Value :=
  (find d ns).bind fun c => get k c.items

/-- The options of a volume, resized as often as it may be. -/
def Resized (blocks : ℤ) (opts : Text) : Prop :=
  ∃ n opts₀, (mntopts, .str opts₀) ∈ tree.flatten ∧ opts = (resize blocks 0)^[n] opts₀

/-- An entry that may be written into the node with the names. -/
inductive Written : List Text → Entry → Prop
  | platform {v : Value} {p : Text} (h : propAt tree [armIo] compatible = some v)
      (hp : platformOf v = .ok p) : Written [] (platformKey, .str p)
  | boot {gen : ℤ} {e : Entry} (h : e ∈ bootEntries o gen) : Written [chosen] e
  | cpu {e : Entry} (h : e ∈ entry "state" "running" :: frequencyEntries) : Written [cpus, cpu0] e
  | seed {v : Value} {e : Entry} (h : propAt tree [chosen] randomSeedKey = some v)
      (he : e ∈ seedEntries v) : Written [chosen] e
  | serial {v : Value} (h : propAt tree [armIo, uart0] phandle = some v) :
      Written [defaults] (serialDevice, v)
  | nvram {e : Entry} (h : e ∈ nvramEntries nvram) : Written [chosen] e
  | hmac {e : Entry} (h : e ∈ hmacEntries) : Written [armIo, sep, iopSepNub, invalidateHmac] e
  | noRtc (hkeep : spmiPath ∉ o.keep) : Written [] (entry "no-rtc" "<NULL>")
  | rtc {e : Entry} (hkeep : spmiPath ∉ o.keep) (h : e ∈ rtcNode.items) : Written [rtc] e
  | vmm : Written [defaults] (entry "vmm-present" "u32:1")
  | amcc {e : Entry} (h : e ∈ amccEntries) : Written [chosen, lockRegs, amcc] e
  | ctrr {b : ℕ × Text} {e : Entry} (hb : b ∈ ctrrs) (h : e ∈ ctrrEntries b.1) :
      Written [chosen, lockRegs, amcc, b.2] e
  | dart {n : Text} {i : ℕ} (h : i < grand tree) : Written [armIo, n] (dartId, u32Value i)
  | gate {n : Text} : Written [armIo, n] (ignoreGating, absent)
  | nub {n m : Text} {slot : ℕ} {e : Entry} (h : slot < grand tree)
      (he : e ∈ placeEntries (slotBase slot)) :
      Written [armIo, n, m] e
  | disk {blocks : ℤ} (hb : o.ephemeralDataBlocks = some blocks) :
      Written [filesystems, fstabDisk] (nameKey, .str fstabDisk)
  | ephemeral {blocks : ℤ} (hb : o.ephemeralDataBlocks = some blocks) :
      Written [filesystems, fstab] (nameKey, .str fstab)
  | options {n opts : Text} {blocks : ℤ} (hb : o.ephemeralDataBlocks = some blocks)
      (h : Resized tree blocks opts) :
      Written [filesystems, fstabEphemeral, n] (mntopts, .str (resize blocks 0 opts))
  | keybag (h : o.skipKeybag = true) : Written [product] (entry "boot-ios-diagnostics" "u32:1")
  | sepNub {e : Entry} (hkeep : sepPath ∈ o.keep)
      (h : e ∈ [entry "rom-panic-bytes" "u32:0x100", entry "sepfw-loaded" "u32:0x1"]) :
      Written [armIo, sep, iopSepNub] e
  | sepFirmware (hkeep : sepPath ∈ o.keep) : Written [chosen, memoryMap] ("SEPFW".toList, unset)
  | sepLoad (hkeep : sepPath ∈ o.keep) : Written [chosen] (entry "sepfw-load-at-boot" "u32:0x0")
  | chip {v : Value} {p : Text} {es : List Entry} {e : Entry} (hkeep : sepPath ∈ o.keep)
      (h : propAt tree [armIo] compatible = some v) (hp : platformOf v = .ok p)
      (hes : chipEntries p = .ok es) (he : e ∈ es) : Written [chosen] e
  | tableSize {n : ℕ} (h : n ≤ grand tree) : Written [filesystems, fstab] (maxFsEntries, u32Value n)
  | aic : Written [armIo, aic] (entry "aic-iack-offset" "u64:0x1000")
  | region {e : Entry} (h : e ∈ regionEntries) : Written [chosen, memoryMap] e
  | debug (h : o.developmentActivation = true) : Written [chosen] (entry "debug-enabled" "u32:1")
  | activation (h : o.developmentActivation = true) :
      Written [product] (entry "allow-hactivation" "u32:1")

/-- A property that may be removed from the node with the names. -/
inductive Removed : List Text → Text → Prop
  | driver {ns : List Text} (h : ¬KeptPath o.keep (pathOf ns)) : Removed ns compatible
  | display {ns : List Text} (hpath : pathOf ns = dispext0Path) (h : ¬KeptPath o.keep (pathOf ns)) :
      Removed ns deviceType
  | slave {n : Text} (hkeep : spmiPath ∈ o.keep) : Removed [armIo, nubSpmi0, n] compatible
  | route {n m : Text} : Removed [armIo, n, m] routes
  | wait (hkeep : sepPath ∈ o.keep) : Removed [armIo, sep, iopSepNub] functionWait
  | root : Removed [] secureRootPrefix

/-- A node that may be renamed or dropped, or get its name. -/
inductive Moved : List Text → Prop
  | sgx : Moved [armIo, sgx]
  | dockchannel : Moved [armIo, dockchannelUart]
  | sep (hkeep : sepPath ∉ o.keep) : Moved [armIo, sep]
  | xART (hkeep : sepPath ∈ o.keep) : Moved [armIo, sep, iopSepNub, xART]
  | volume {n : Text} : Moved [filesystems, fstab, n]
  | table {blocks : ℤ} {n : Text} (hb : o.ephemeralDataBlocks = some blocks)
      (hn : n ∈ [fstab, fstabDisk, fstabEphemeral]) : Moved [filesystems, n]

/-- What the fixup may edit. -/
def scope : Scope where
  nodes := Moved o
  adds ns := spmiPath ∉ o.keep ∧ ns = [rtc]
  puts := Written o nvram tree
  removes := Removed o

end

/-! ## Edits of one node -/

section

variable {S : Scope} {ns : List Text} {d d' : Node} {f : Node → Except Failure Node}

/-- A node that is found is in the tree. -/
theorem flatten_find : ∀ {ms : List Text} {d c : Node}, find d ms = some c → c.flatten ⊆ d.flatten
  | [], d, c, h => by
    obtain rfl : d = c := Option.some.inj h
    exact List.Subset.refl _
  | n :: ms, .node ps cs, c, h => by
    unfold find at h
    rw [Tree.children_node, Option.bind_eq_some_iff] at h
    obtain ⟨b, hb, h⟩ := h
    intro e he
    rw [Tree.flatten_node]
    exact List.mem_append_right ps
      (List.mem_flatMap.mpr ⟨b, List.mem_of_find?_eq_some hb, flatten_find h he⟩)

theorem size_find : ∀ {ms : List Text} {d c : Node}, find d ms = some c → size c ≤ size d
  | [], d, c, h => by
    obtain rfl : d = c := Option.some.inj h
    exact le_rfl
  | n :: ms, .node ps cs, c, h => by
    unfold find at h
    rw [Tree.children_node, Option.bind_eq_some_iff] at h
    obtain ⟨b, hb, h⟩ := h
    have hsum := List.single_le_sum (fun _ _ => Nat.zero_le _) _
      (List.mem_map_of_mem (f := size) (List.mem_of_find?_eq_some hb))
    have := size_find h
    rw [size_node]
    omega

/-- The nodes below a node that is found are below a child of the root. -/
theorem size_find_le {n : Text} {ms : List Text} {c : Node} (h : find d (n :: ms) = some c) :
    size c ≤ grand d + 1 := by
  unfold find at h
  rw [Option.bind_eq_some_iff] at h
  obtain ⟨b, hb, h⟩ := h
  have hsum := List.single_le_sum (fun _ _ => Nat.zero_le _) _
    (List.mem_map_of_mem (f := fun c => size c - 1) (List.mem_of_find?_eq_some hb))
  have hle := size_find h
  unfold grand
  omega

theorem find_singleton {key : Text} {l r : List Node} {c : Node} (hd : d.children = l ++ c :: r)
    (hc : get nameKey c.items = some (.str key)) (hl : Passed key l) : find d [key] = some c := by
  have hnone : l.find? (fun b => Named key b) = none := by
    rw [List.find?_eq_none]
    intro b hb hn
    obtain ⟨n, hn', hne⟩ := hl b hb
    have hname : get nameKey b.items = some (.str key) := of_decide_eq_true hn
    rw [hn'] at hname
    exact hne (Option.some.inj hname)
  unfold find
  rw [hd, List.find?_append, hnone, Option.none_or,
    List.find?_cons_of_pos (p := fun b => decide (Named key b)) (decide_eq_true hc)]
  rfl

theorem find_append {d : Node} : ∀ {ms ms' : List Text}, find d (ms ++ ms') = (find d ms).bind (find · ms')
  | [], _ => rfl
  | n :: ms, ms' => by
    rw [List.cons_append, find_cons, find_cons]
    cases d.children.find? fun c => Named n c with
    | none => rfl
    | some c => exact find_append

theorem edits_within {key : Text} (h : within key f d = .ok d')
    (hf : ∀ c c', find d [key] = some c → f c = .ok c' → Edits S (ns ++ [key]) c c') :
    Edits S ns d d' := by
  obtain ⟨l, c, r, c', hd, hc, hl, hfc, rfl⟩ := within_eq_ok_iff.mp h
  have hedits := hf c c' (find_singleton hd hc hl) hfc
  cases d with
  | node ps cs =>
    rw [Tree.children_node] at hd
    rw [hd, Tree.items_node]
    refine Edits.child ?_
    rwa [nameOf_of_get hc]

theorem edits_withinAll : ∀ {ks : List Text} {ns : List Text} {d d' : Node},
    withinAll ks f d = .ok d' →
      (∀ c c', find d ks = some c → f c = .ok c' → Edits S (ns ++ ks) c c') → Edits S ns d d'
  | [], ns, d, d', h, hf => by
    have := hf d d' rfl h
    rwa [List.append_nil] at this
  | k :: ks, ns, d, d', h, hf => by
    refine edits_within h fun c c' hc hcc => edits_withinAll hcc fun b b' hb hbb => ?_
    rw [List.append_assoc]
    refine hf b b' ?_ hbb
    rw [← List.singleton_append, find_append, hc]
    exact hb

theorem edits_put {e : Entry} (h : S.puts ns e) (hname : e.1 ≠ nameKey) :
    Edits S ns d (.node (put e.1 e.2 d.items) d.children) := Edit.edits (.put h hname)

theorem edits_assign : ∀ {es : List Entry} {d : Node}, (∀ e ∈ es, S.puts ns e) →
    nameKey ∉ es.map Prod.fst → Edits S ns d (assign es d)
  | [], .node ps cs, _, _ => .refl
  | e :: es, d, h, hname => by
    rw [List.map_cons, List.mem_cons, not_or] at hname
    have hput := edits_put (d := d) (h e (List.mem_cons_self ..)) (Ne.symm hname.1)
    exact hput.trans (edits_assign (fun e he => h e (List.mem_cons_of_mem _ he)) hname.2)

theorem edits_set {ks : List Text} {es : List Entry} (h : set ks es d = .ok d')
    (hes : ∀ e ∈ es, S.puts (ns ++ ks) e) (hname : nameKey ∉ es.map Prod.fst) : Edits S ns d d' :=
  edits_withinAll h fun c c' _ hc => by
    obtain rfl := Except.ok.inj hc
    exact edits_assign hes hname

theorem edits_pop {k : Text} (h : S.removes ns k) (hname : k ≠ nameKey) : Edits S ns d (pop k d) :=
  Edit.edits (.remove h hname)

theorem edits_removeChild {key : Text} (h : removeChild key d = .ok d') (hkey : S.nodes (ns ++ [key])) :
    Edits S ns d d' := by
  obtain ⟨l, c, r, hd, hc, rfl⟩ := removeChild_eq_ok h
  cases d with
  | node ps cs =>
    rw [Tree.children_node] at hd
    rw [hd, Tree.items_node]
    refine Edit.edits (.drop ?_)
    rwa [nameOf_of_get hc]

theorem edits_ifChild {key : Text} (h : ifChild key f d = .ok d')
    (hf : f d = .ok d' → Edits S ns d d') : Edits S ns d d' := by
  obtain h | rfl := ifChild_eq_ok h
  · exact hf h
  · exact .refl

/-- A child gets another name, and is edited before that. -/
theorem edits_rename {key n : Text} {g : Node → Node}
    (h : within key (fun c => .ok (g (assign [(nameKey, .str n)] c))) d = .ok d')
    (hg : ∀ c c', find d [key] = some c → g (assign [(nameKey, .str n)] c) = c' →
      ∃ c₁, Edits S (ns ++ [key]) c c₁ ∧ c' = .node (put nameKey (.str n) c₁.items) c₁.children)
    (hold : S.nodes (ns ++ [key])) (hnew : S.nodes (ns ++ [n]))
    (hput : S.puts (ns ++ [n]) (nameKey, .str n)) : Edits S ns d d' := by
  obtain ⟨l, c, r, c', hd, hc, hl, hfc, rfl⟩ := within_eq_ok_iff.mp h
  obtain ⟨c₁, hedits, rfl⟩ := hg c c' (find_singleton hd hc hl) (Except.ok.inj hfc)
  cases d with
  | node ps cs =>
    rw [Tree.children_node] at hd
    rw [hd, Tree.items_node]
    have hname := nameOf_of_get hc
    have hchild : Edits S ns (.node ps (l ++ c :: r)) (.node ps (l ++ c₁ :: r)) :=
      Edits.child (by rwa [hname])
    refine hchild.trans (Edit.edits (.rename ?_ hnew hput))
    rwa [hedits.nameOf_eq, hname]

/-- Each child is edited by itself. -/
theorem edits_mapChildren {g : Node → Node}
    (h : ∀ c ∈ d.children, Edits S (ns ++ [nameOf c]) c (g c)) :
    Edits S ns d (mapChildren (List.map g) d) := by
  cases d with
  | node ps cs =>
    have hall : List.Forall₂ (fun c c' => Edits S (ns ++ [nameOf c]) c c') cs (cs.map g) := by
      rw [List.forall₂_map_right_iff, List.forall₂_same]
      exact h
    exact Edits.children (l := []) hall

theorem edits_onChild {key : Text} {f : Node → Except LookupError Node}
    (h : onChild key f d = .ok d')
    (hf : ∀ c c', find d [key] = some c → f c = .ok c' → Edits S (ns ++ [key]) c c') :
    Edits S ns d d' := by
  obtain ⟨i, c, c', ⟨⟨b, hb, hname⟩, hlt⟩, hi, hfc, rfl⟩ := onChild_eq_ok_iff.mp h
  rw [hi] at hb
  obtain rfl := Option.some.inj hb
  have hpassed : Passed key (d.children.take i) := by
    intro b hb
    obtain ⟨j, hj, hget⟩ := List.mem_take_iff_getElem.mp hb
    exact hlt j (by omega) b (by rw [← hget]; exact List.getElem?_eq_getElem _)
  cases d with
  | node ps cs =>
    rw [Tree.children_node] at hi hpassed ⊢
    obtain ⟨hlt, rfl⟩ := List.getElem?_eq_some_iff.mp hi
    have hsplit : cs = cs.take i ++ cs[i] :: cs.drop (i + 1) := by
      rw [List.getElem_cons_drop, List.take_append_drop]
    have hset : cs.set i c' = cs.take i ++ c' :: cs.drop (i + 1) :=
      List.set_eq_take_append_cons_drop .. |>.trans (if_pos hlt)
    rw [hset]
    nth_rewrite 1 [hsplit]
    refine Edits.child ?_
    rw [nameOf_of_get hname]
    exact hf _ _ (find_singleton hsplit hname hpassed) hfc

end

/-! ## The passes -/

section

variable {o : Options} {nvram : Bytes} {tree d d' : Node}

/-- Properties that a pass reads, and that others must not write as they like. -/
def reserved : List Text := [compatible, phandle, randomSeedKey, mntopts, firmwareVersion]

/-- What is written under those names: the seed, the options and the version alone, and with what
they can be. -/
structure Reserved (o : Options) (tree : Node) (e : Entry) : Prop where
  compatible : e.1 ≠ compatible
  phandle : e.1 ≠ phandle
  seed : e.1 = randomSeedKey → ∃ v, propAt tree [chosen] randomSeedKey = some v ∧
    e.2 = .bytes (List.replicate v.len 65)
  options : e.1 = mntopts → ∃ blocks opts, o.ephemeralDataBlocks = some blocks ∧
    Resized tree blocks opts ∧ e.2 = .str (resize blocks 0 opts)
  version : e.1 = firmwareVersion → e.2 = ibootName

theorem Reserved.of_notMem {e : Entry} (h : e.1 ∉ reserved) : Reserved o tree e := by
  unfold Fixup.reserved at h
  simp only [List.mem_cons, List.not_mem_nil, or_false, not_or] at h
  obtain ⟨hcompatible, hphandle, hseed, hoptions, hversion⟩ := h
  exact ⟨hcompatible, hphandle, fun h => absurd h hseed, fun h => absurd h hoptions,
    fun h => absurd h hversion⟩

theorem Reserved.of_keys {es : List Entry} (h : ∀ k ∈ es.map Prod.fst, k ∉ reserved) {e : Entry}
    (he : e ∈ es) : Reserved o tree e :=
  .of_notMem (h _ (List.mem_map_of_mem he))

/-- The only key of `chip-id`. -/
theorem keys_chipEntries {p : Text} {es : List Entry} (h : chipEntries p = .ok es) :
    ∀ k ∈ es.map Prod.fst, k = chipId := by
  unfold chipEntries at h
  split at h
  · split_ifs at h
    · split at h
      · obtain rfl := Except.ok.inj h
        exact List.forall_mem_singleton.mpr rfl
      · cases h
    · obtain rfl := Except.ok.inj h
      exact nofun
  · obtain rfl := Except.ok.inj h
    exact nofun

theorem Written.reserved {ns : List Text} {e : Entry} (h : Written o nvram tree ns e) :
    Reserved o tree e := by
  cases h with
  | boot h =>
    have hversion : Reserved o tree (firmwareVersion, ibootName) :=
      ⟨by decide, by decide, fun h => absurd h (by decide), fun h => absurd h (by decide),
        fun _ => rfl⟩
    unfold bootEntries at h
    simp only [List.mem_cons, List.not_mem_nil, or_false] at h
    obtain rfl | rfl | rfl | rfl := h
    · exact .of_notMem (by decide : "dram-base".toList ∉ Fixup.reserved)
    · exact .of_notMem (by decide : "dram-size".toList ∉ Fixup.reserved)
    · exact hversion
    · exact .of_notMem (by decide)
  | cpu h => exact .of_keys (by decide) h
  | @seed v e h he =>
    obtain rfl | he := List.mem_cons.mp he
    · have hne : ∀ k ∈ [Fixup.compatible, Fixup.phandle, mntopts, firmwareVersion],
          randomSeedKey ≠ k := by decide
      exact ⟨hne _ (by decide), hne _ (by decide), fun _ => ⟨v, h, rfl⟩,
        fun h => absurd h (hne _ (by decide)), fun h => absurd h (hne _ (by decide))⟩
    · exact .of_keys (by decide) he
  | nvram h =>
    refine .of_keys ?_ h
    simp only [nvramEntries, entry, List.map_cons, List.map_nil]
    decide
  | hmac h => exact .of_keys (by decide) h
  | rtc _ h => exact .of_keys (by decide) h
  | amcc h => exact .of_keys (by decide) h
  | ctrr _ h =>
    refine .of_keys ?_ h
    simp only [ctrrEntries, entry, List.map_cons, List.map_nil]
    decide
  | nub _ h =>
    refine .of_keys ?_ h
    simp only [placeEntries, List.map_cons, List.map_nil]
    decide
  | @options n opts blocks hb h =>
    have hne : ∀ k ∈ [Fixup.compatible, Fixup.phandle, randomSeedKey, firmwareVersion],
        mntopts ≠ k := by decide
    exact ⟨hne _ (by decide), hne _ (by decide), fun h => absurd h (hne _ (by decide)),
      fun _ => ⟨blocks, opts, hb, h, rfl⟩, fun h => absurd h (hne _ (by decide))⟩
  | sepNub _ h => exact .of_keys (by decide) h
  | chip _ _ _ hes he =>
    refine .of_keys (fun k hk => ?_) he
    rw [keys_chipEntries hes k hk]
    decide
  | region h => exact .of_keys (by decide) h
  | platform => exact .of_notMem (by decide : platformKey ∉ Fixup.reserved)
  | serial => exact .of_notMem (by decide : serialDevice ∉ Fixup.reserved)
  | dart => exact .of_notMem (by decide : dartId ∉ Fixup.reserved)
  | tableSize => exact .of_notMem (by decide : maxFsEntries ∉ Fixup.reserved)
  | noRtc | vmm | gate | disk | ephemeral | keybag | sepFirmware | sepLoad | aic | debug |
    activation => exact .of_notMem (by decide)

/-- A property of a node that stays in its place, as the passes find it. -/
theorem propAt_edits (hd : Edits (scope o nvram tree) [] tree d) {ns : List Text}
    (hns : (scope o nvram tree).Fixed [] ns) {k : Text} {v : Value} (hv : propAt d ns k = some v) :
    propAt tree ns k = some v ∨ Written o nvram tree ns (k, v) := by
  have hrel := hd.revised hns
  unfold propAt at hv ⊢
  cases hc : find d ns with
  | none => rw [hc] at hv; cases hv
  | some c =>
    rw [hc] at hv hrel
    cases hc₀ : find tree ns with
    | none => rw [hc₀] at hrel; cases hrel
    | some c₀ =>
      rw [hc₀] at hrel
      obtain h | ⟨w, hw, hput⟩ | ⟨hnone, -⟩ := rel_some_iff.mp hrel k
      · exact Or.inl (h.symm.trans hv)
      · obtain rfl := Option.some.inj (hw.symm.trans hv)
        exact Or.inr hput
      · exact nomatch hnone.symm.trans hv

theorem mem_of_get {k : Text} {v : Value} : ∀ {ps : List Entry}, get k ps = some v → (k, v) ∈ ps
  | e :: ps, h => by
    unfold get at h
    split_ifs at h with he
    · rw [← he, ← Option.some.inj h]
      exact List.mem_cons_self ..
    · exact List.mem_cons_of_mem e (mem_of_get h)

theorem find_of_child {key : Text} {c : Node} (h : child key d = .ok c) : find d [key] = some c := by
  obtain ⟨l, r, hd, hc, hl⟩ := child_eq_ok_iff.mp h
  exact find_singleton hd hc hl

theorem propAt_of_find {ns : List Text} {c : Node} {k : Text} {v : Value} (hc : find d ns = some c)
    (hv : get k c.items = some v) : propAt d ns k = some v := by
  unfold propAt
  rw [hc]
  exact hv

/-- The nodes that may be moved, but for the volumes. -/
def moved : List (List Text) :=
  [[armIo, sgx], [armIo, dockchannelUart], [armIo, sep], [armIo, sep, iopSepNub, xART],
    [filesystems, fstab], [filesystems, fstabDisk], [filesystems, fstabEphemeral], [rtc]]

/-- Nodes that stay in their places. -/
theorem fixed_of_inits {ns : List Text}
    (h : ∀ m ∈ ns.inits, m ∉ moved ∧ m.take 2 ≠ [filesystems, fstab]) :
    (scope o nvram tree).Fixed [] ns := by
  intro m _ hpre
  obtain ⟨hm, htake⟩ := h m ((List.mem_inits m ns).mpr hpre)
  refine ⟨fun hmoved => ?_, fun hadd => ?_⟩
  · have hmoved : Moved o m := hmoved
    cases hmoved with
    | volume => exact htake rfl
    | @table _ n _ hn =>
      have htables : ∀ n ∈ [fstab, fstabDisk, fstabEphemeral], [filesystems, n] ∈ moved := by decide
      exact hm (htables n hn)
    | sgx | dockchannel | sep | xART => exact hm (by decide)
  · obtain rfl : m = [rtc] := hadd.2
    exact hm (by decide)

/-- The name of the platform is that of the tree before. -/
theorem getPlatformName_edits (hd : Edits (scope o nvram tree) [] tree d) {p : Text}
    (hp : getPlatformName d = .ok p) :
    ∃ v, propAt tree [armIo] compatible = some v ∧ platformOf v = .ok p := by
  unfold getPlatformName at hp
  simp only [bind, bind_eq_ok, prop_eq_ok_iff] at hp
  obtain ⟨c, hc, v, hv, hp⟩ := hp
  refine ⟨v, ?_, hp⟩
  obtain h | h := propAt_edits hd (fixed_of_inits (by decide)) (propAt_of_find (find_of_child hc) hv)
  · exact h
  · exact absurd rfl h.reserved.compatible

theorem edits_setPlatformName (hd : Edits (scope o nvram tree) [] tree d)
    (h : setPlatformName d = .ok d') : Edits (scope o nvram tree) [] d d' := by
  unfold setPlatformName at h
  simp only [bind, bind_eq_ok, Except.ok.injEq] at h
  obtain ⟨p, hp, rfl⟩ := h
  obtain ⟨v, hv, hplatform⟩ := getPlatformName_edits hd hp
  refine edits_assign (List.forall_mem_singleton.mpr (.platform hv hplatform)) ?_
  simp only [List.map_singleton]
  decide

theorem edits_setBoot (h : setBoot o d = .ok d') : Edits (scope o nvram tree) [] d d' := by
  unfold setBoot at h
  simp only [bind, bind_eq_ok] at h
  obtain ⟨gen, -, h⟩ := h
  refine edits_set h (fun e he => .boot he) ?_
  simp only [bootEntries, entry, List.map_cons, List.map_nil]
  decide

theorem edits_setRandomSeed (hd : Edits (scope o nvram tree) [] tree d)
    (h : setRandomSeed d = .ok d') : Edits (scope o nvram tree) [] d d' := by
  refine edits_withinAll h fun c c' hc hcc => ?_
  simp only [bind, bind_eq_ok, prop_eq_ok_iff, Except.ok.injEq] at hcc
  obtain ⟨v, hv, rfl⟩ := hcc
  obtain ⟨w, hw, hlen⟩ : ∃ w, propAt tree [chosen] randomSeedKey = some w ∧ w.len = v.len := by
    obtain h | h := propAt_edits hd (fixed_of_inits (by decide)) (propAt_of_find hc hv)
    · exact ⟨v, h, rfl⟩
    · obtain ⟨w, hw, he⟩ := h.reserved.seed rfl
      obtain rfl : v = .bytes (List.replicate w.len 65) := he
      exact ⟨w, hw, List.length_replicate.symm⟩
  have hes : seedEntries v = seedEntries w := by
    unfold seedEntries
    rw [hlen]
  refine edits_assign (fun e he => .seed hw (hes ▸ he)) ?_
  simp only [seedEntries, entry, List.map_cons, List.map_nil]
  decide

theorem edits_setSerialDevice (hd : Edits (scope o nvram tree) [] tree d)
    (h : setSerialDevice d = .ok d') : Edits (scope o nvram tree) [] d d' := by
  unfold setSerialDevice at h
  simp only [bind, bind_eq_ok, prop_eq_ok_iff] at h
  obtain ⟨a, ha, u, hu, v, hv, h⟩ := h
  have hfind : find d [armIo, uart0] = some u := by
    rw [← List.singleton_append, find_append, find_of_child ha]
    exact find_of_child hu
  have hv' : propAt tree [armIo, uart0] phandle = some v := by
    obtain h | h := propAt_edits hd (fixed_of_inits (by decide)) (propAt_of_find hfind hv)
    · exact h
    · exact absurd rfl h.reserved.phandle
  refine edits_set h (List.forall_mem_singleton.mpr (.serial hv')) ?_
  simp only [List.map_singleton]
  decide

theorem edits_nvram (h : set [chosen] (nvramEntries nvram) d = .ok d') :
    Edits (scope o nvram tree) [] d d' := by
  refine edits_set h (fun e he => .nvram he) ?_
  simp only [nvramEntries, entry, List.map_cons, List.map_nil]
  decide

theorem edits_setInvalidateHmac (h : setInvalidateHmac d = .ok d') :
    Edits (scope o nvram tree) [] d d' :=
  edits_withinAll h fun _ _ _ hcc => edits_ifChild hcc fun hset =>
    edits_set hset (fun _ he => .hmac he) (by decide)

theorem edits_addRtc (o : Options) (d : Node) : Edits (scope o nvram tree) [] d (addRtc o d) := by
  unfold addRtc
  split_ifs with hkeep
  · exact .refl
  · have hassign : Edits (scope o nvram tree) [] d (assign [entry "no-rtc" "<NULL>"] d) :=
      edits_assign (List.forall_mem_singleton.mpr (.noRtc hkeep)) (by decide)
    exact hassign.trans (Edit.edits (.add ⟨hkeep, by decide⟩ (fun e he => .rtc hkeep he) (by decide)))

theorem edits_setAmcc (h : setAmcc d = .ok d') : Edits (scope o nvram tree) [] d d' := by
  have hbanks : ∀ {bs : List (ℕ × Text)} {a a' : Node}, bs ⊆ ctrrs →
      bs.foldlM (fun a b => set [b.2] (ctrrEntries b.1) a) a = .ok a' →
        Edits (scope o nvram tree) [chosen, lockRegs, amcc] a a' := by
    intro bs
    induction bs with
    | nil =>
      intro a a' _ h
      obtain rfl : a = a' := Except.ok.inj h
      exact .refl
    | cons b bs ih =>
      intro a a' hsub h
      simp only [List.foldlM_cons, bind, bind_eq_ok] at h
      obtain ⟨a₁, h₁, h⟩ := h
      rw [List.cons_subset] at hsub
      refine Edits.trans (edits_set h₁ (fun e he => .ctrr hsub.1 he) ?_) (ih hsub.2 h)
      simp only [ctrrEntries, entry, List.map_cons, List.map_nil]
      decide
  refine edits_withinAll h fun a a' _ haa => ?_
  have hassign : Edits (scope o nvram tree) [chosen, lockRegs, amcc] a (assign amccEntries a) :=
    edits_assign (fun e he => .amcc he) (by decide)
  exact hassign.trans (hbanks (List.Subset.refl _) haa)

/-! ### The drivers -/

theorem edits_stripProps {ns : List Text} (ps : List Entry) (cs : List Node) :
    Edits (scope o nvram tree) ns (.node ps cs) (.node (stripProps o.keep (pathOf ns) ps) cs) := by
  unfold stripProps
  split_ifs with hkept
  · exact .refl
  · have hdriver : Edits (scope o nvram tree) ns (.node ps cs) (.node (stripDriver ps) cs) := by
      unfold stripDriver
      split
      · exact .refl
      · split_ifs
        · exact .refl
        · exact edits_pop (d := .node ps cs) (.driver hkept) (by decide)
    dsimp only
    split_ifs with hdisplay
    · exact hdriver.trans
        (edits_pop (d := .node (stripDriver ps) cs) (.display hdisplay.1 hkept) (by decide))
    · exact hdriver

/-- `del_compat` edits each node by its path. -/
theorem edits_delCompat (t : Node) {path : Text} {ns : List Text} {t' : Node}
    (hpath : lstrip path = pathOf ns) (h : delCompat o.keep path t = .ok t') :
    Edits (scope o nvram tree) ns t t' := by
  induction t using Tree.induct generalizing path ns t' with
  | node ps cs ih =>
    have hall : ∀ l : List Node, l ⊆ cs → ∀ l', delCompatAll o.keep path ps l = .ok l' →
        List.Forall₂ (fun c c' => Edits (scope o nvram tree) (ns ++ [nameOf c]) c c') l l' := by
      intro l
      induction l with
      | nil =>
        intro _ l' h
        obtain rfl : [] = l' := Except.ok.inj h
        exact .nil
      | cons c l ihl =>
        intro hl l' h
        obtain ⟨hc, hl⟩ := List.cons_subset.mp hl
        simp only [delCompatAll, bind, bind_eq_ok, Except.ok.injEq] at h
        obtain ⟨name, hname, c', hc', l₁, hl₁, rfl⟩ := h
        have hnameOf : nameOf c = name := by
          unfold childName at hname
          unfold nameOf
          split at hname
          · cases hname
          · next n hn =>
            rw [hn]
            exact Except.ok.inj hname
          · cases hname
        refine .cons (ih c hc (lstrip_childPath hpath ps _) ?_) (ihl hl l₁ hl₁)
        rwa [hnameOf]
    simp only [delCompat, bind, bind_eq_ok, Except.ok.injEq] at h
    obtain ⟨cs', hcs', rfl⟩ := h
    rw [hpath]
    have hchildren : Edits (scope o nvram tree) ns (.node ps cs) (.node ps cs') :=
      Edits.children (l := []) (hall cs (List.Subset.refl cs) cs' hcs')
    exact hchildren.trans (edits_stripProps ps cs')

theorem edits_fixupSpmi (h : fixupSpmi o.keep d = .ok d') : Edits (scope o nvram tree) [] d d' := by
  unfold fixupSpmi at h
  by_cases hkeep : spmiPath ∈ o.keep
  · rw [if_neg (not_not.mpr hkeep)] at h
    refine edits_onChild h fun a a' _ haa => ?_
    simp only [bind, bind_eq_ok] at haa
    obtain ⟨b, -, haa⟩ := haa
    cases b with
    | false =>
      obtain rfl : a = a' := Except.ok.inj haa
      exact .refl
    | true =>
      refine edits_onChild haa fun s s' _ hss => ?_
      obtain rfl := Except.ok.inj hss
      refine edits_mapChildren fun c _ => ?_
      cases c with
      | node ps cs =>
        unfold stripSpmi
        rw [Tree.items_node]
        split
        · exact .refl
        · split_ifs
          · exact .refl
          · exact edits_pop (d := .node ps cs) (.slave hkeep) (by decide)
  · rw [if_pos hkeep] at h
    obtain rfl := Except.ok.inj h
    exact .refl

theorem edits_dropExclaveRoutes (h : dropExclaveRoutes d = .ok d') :
    Edits (scope o nvram tree) [] d d' := by
  refine edits_withinAll h fun a a' _ haa => ?_
  obtain rfl := Except.ok.inj haa
  refine edits_mapChildren fun c _ => ?_
  unfold dropRoutes
  split_ifs
  · exact .refl
  · exact edits_mapChildren fun nub _ => edits_pop .route (by decide)

/-- The children of a node that is found, and the nodes below them, are not too many. -/
theorem children_le (hd : Edits (scope o nvram tree) [] tree d) {n : Text} {ms : List Text} {c : Node}
    (hc : find d (n :: ms) = some c) : (c.children.map size).sum ≤ grand tree := by
  have hle := size_find_le hc
  have hgrand := hd.grand_le fun n ns hadd => (List.cons.inj hadd.2).2
  cases c with
  | node ps cs =>
    rw [size_node] at hle
    rw [Tree.children_node]
    omega

theorem length_le_size (cs : List Node) : cs.length ≤ (cs.map size).sum := by
  induction cs with
  | nil => exact le_rfl
  | cons c cs ih =>
    have := size_pos c
    rw [List.length_cons, List.map_cons, List.sum_cons]
    omega

theorem edits_fixupDarts (hd : Edits (scope o nvram tree) [] tree d) (h : fixupDarts d = .ok d') :
    Edits (scope o nvram tree) [] d d' := by
  have hall : ∀ (cs : List Node) (n : ℕ), n + cs.length ≤ grand tree → List.Forall₂
      (fun c c' => Edits (scope o nvram tree) [armIo, nameOf c] c c') cs (mapAccum numberDart n cs).2 := by
    intro cs
    induction cs with
    | nil => exact fun _ _ => .nil
    | cons c cs ih =>
      intro n hn
      rw [List.length_cons] at hn
      unfold mapAccum numberDart
      split_ifs
      · have hput : Written o nvram tree [armIo, nameOf c] (dartId, u32Value n) := .dart (by omega)
        have hedit : Edits (scope o nvram tree) [armIo, nameOf c] c
            (.node (put dartId (u32Value n) c.items) c.children) :=
          edits_put (e := (dartId, u32Value n)) hput (by decide : dartId ≠ nameKey)
        exact .cons hedit (ih (n + 1) (by omega))
      · exact .cons .refl (ih n (by omega))
  unfold fixupDarts at h
  refine edits_onChild h fun a a' ha haa => ?_
  obtain rfl := Except.ok.inj haa
  have hle := (length_le_size a.children).trans (children_le hd ha)
  cases a with
  | node ps cs => exact Edits.children (l := []) (hall cs 0 (by rw [Nat.zero_add]; exact hle))

/-! ### The coprocessors -/

theorem edits_fixupNub {n : Text} {slot : ℕ} (hslot : slot < grand tree) (nub : Node) :
    Edits (scope o nvram tree) [armIo, n, nameOf nub] nub (fixupNub slot nub).2 := by
  unfold fixupNub
  split_ifs
  · have hname : nameKey ∉ (placeEntries (slotBase slot)).map Prod.fst := by
      simp only [placeEntries, List.map_cons, List.map_nil]
      decide
    have hputs : ∀ e ∈ placeEntries (slotBase slot),
        (scope o nvram tree).puts [armIo, n, nameOf nub] e := fun e he => Written.nub hslot he
    exact edits_assign hputs hname
  · exact .refl

theorem edits_fixupIops (hd : Edits (scope o nvram tree) [] tree d) (h : fixupIops d = .ok d') :
    Edits (scope o nvram tree) [] d d' := by
  have hnubs : ∀ {n : Text} (cs : List Node) (slot : ℕ), slot + cs.length ≤ grand tree →
      (mapAccum fixupNub slot cs).1 ≤ slot + cs.length ∧ List.Forall₂
        (fun c c' => Edits (scope o nvram tree) [armIo, n, nameOf c] c c') cs
          (mapAccum fixupNub slot cs).2 := by
    intro n cs
    induction cs with
    | nil => exact fun _ _ => ⟨le_rfl, .nil⟩
    | cons c cs ih =>
      intro slot hslot
      rw [List.length_cons] at hslot ⊢
      have hnext : (fixupNub slot c).1 ≤ slot + 1 := by
        unfold fixupNub
        split_ifs
        · exact le_rfl
        · exact Nat.le_succ slot
      obtain ⟨hle, hall⟩ := ih (fixupNub slot c).1 (by omega)
      refine ⟨?_, .cons (edits_fixupNub (by omega) c) hall⟩
      unfold mapAccum
      dsimp only
      omega
  have hiops : ∀ (cs : List Node) (slot : ℕ), slot + (cs.map size).sum ≤ grand tree → List.Forall₂
      (fun c c' => Edits (scope o nvram tree) [armIo, nameOf c] c c') cs (mapAccum fixupIop slot cs).2 := by
    intro cs
    induction cs with
    | nil => exact fun _ _ => .nil
    | cons c cs ih =>
      intro slot hslot
      rw [List.map_cons, List.sum_cons] at hslot
      have hpos := size_pos c
      cases c with
      | node ps bs =>
        have hlen := length_le_size bs
        rw [size_node] at hslot
        obtain ⟨hle, hall⟩ := hnubs (n := nameOf (.node ps bs)) bs slot (by omega)
        unfold mapAccum fixupIop
        rw [Tree.items_node]
        split_ifs
        · exact .cons .refl (ih slot (by omega))
        · have hgate : Edits (scope o nvram tree) [armIo, nameOf (.node ps bs)] (.node ps bs)
              (.node (put ignoreGating absent ps) bs) :=
            edits_put (e := (ignoreGating, absent)) .gate (by decide)
          have hbelow : Edits (scope o nvram tree) [armIo, nameOf (.node ps bs)]
              (.node (put ignoreGating absent ps) bs)
              (.node (put ignoreGating absent ps) (mapAccum fixupNub slot bs).2) :=
            Edits.children (l := []) hall
          exact .cons (hgate.trans hbelow) (ih (mapAccum fixupNub slot bs).1 (by omega))
  unfold fixupIops at h
  refine edits_onChild h fun a a' ha haa => ?_
  obtain rfl := Except.ok.inj haa
  have hle := children_le hd ha
  cases a with
  | node ps cs => exact Edits.children (l := []) (hiops cs 0 (by rw [Nat.zero_add]; exact hle))

/-! ### The filesystems -/

theorem mem_flatten_child {c : Node} (hc : c ∈ d.children) {e : Entry} (he : e ∈ c.flatten) :
    e ∈ d.flatten := by
  cases d with
  | node ps cs =>
    rw [Tree.flatten_node]
    exact List.mem_append_right ps (List.mem_flatMap.mpr ⟨c, hc, he⟩)

/-- The options of a volume are those of the tree before, resized or not. -/
theorem resized_of_source {blocks : ℤ} (hb : o.ephemeralDataBlocks = some blocks) {opts : Text}
    (h : (mntopts, .str opts) ∈ tree.flatten ∨ ∃ ms, Written o nvram tree ms (mntopts, .str opts)) :
    Resized tree blocks opts := by
  obtain h | ⟨ms, hput⟩ := h
  · exact ⟨0, opts, h, rfl⟩
  · obtain ⟨blocks', opts', hb', ⟨n, opts₀, hmem, rfl⟩, he⟩ := (Written.reserved hput).options rfl
    obtain rfl := Option.some.inj (hb.symm.trans hb')
    exact ⟨n + 1, opts₀, hmem, by rw [Function.iterate_succ_apply', Value.str.inj he]⟩

theorem edits_resizeVolume {blocks : ℤ} (hb : o.ephemeralDataBlocks = some blocks) {n : Text}
    {vol : Node} (hvol : ∀ e ∈ vol.flatten, e ∈ tree.flatten ∨ ∃ ms, Written o nvram tree ms e) :
    Edits (scope o nvram tree) [filesystems, fstabEphemeral, n] vol (resizeVolume blocks vol) := by
  unfold resizeVolume
  split
  · next opts hopts =>
    split_ifs
    · have hmem : (mntopts, .str opts) ∈ vol.flatten := by
        cases vol with
        | node ps cs =>
          rw [Tree.flatten_node]
          exact List.mem_append_left _ (mem_of_get hopts)
      have hput : Written o nvram tree [filesystems, fstabEphemeral, n]
          (mntopts, .str (resize blocks 0 opts)) := .options hb (resized_of_source hb (hvol _ hmem))
      exact edits_put (e := (mntopts, .str (resize blocks 0 opts))) hput (by decide : mntopts ≠ nameKey)
    · exact .refl
  · exact .refl

theorem edits_fixupEphemeralData (hd : Edits (scope o nvram tree) [] tree d)
    (h : fixupEphemeralData o d = .ok d') : Edits (scope o nvram tree) [] d d' := by
  unfold fixupEphemeralData at h
  split at h
  · obtain rfl := Except.ok.inj h
    exact .refl
  · next blocks hb =>
    refine edits_withinAll h fun fs fs' hfs hpromote => ?_
    unfold promote at hpromote
    simp only [bind, bind_eq_ok] at hpromote
    obtain ⟨b, -, hpromote⟩ := hpromote
    cases b with
    | false => cases hpromote
    | true =>
      rw [if_pos rfl] at hpromote
      simp only [bind_eq_ok] at hpromote
      obtain ⟨fs₁, hdisk, heph⟩ := hpromote
      have hmoved : ∀ n ∈ [fstab, fstabDisk, fstabEphemeral], Moved o [filesystems, n] :=
        fun n hn => .table hb hn
      have hdisk' : Edits (scope o nvram tree) [filesystems] fs fs₁ :=
        edits_rename (g := id) hdisk (fun c c' _ hc => ⟨c, .refl, hc.symm⟩)
          (hmoved fstab (by decide)) (hmoved fstabDisk (by decide)) (.disk hb)
      refine hdisk'.trans (edits_rename (g := mapChildren (List.map (resizeVolume blocks))) heph
        (fun c c' hc hcc => ⟨mapChildren (List.map (resizeVolume blocks)) c, ?_, hcc.symm⟩)
        (hmoved fstabEphemeral (by decide)) (hmoved fstab (by decide)) (.ephemeral hb))
      refine edits_mapChildren fun vol hvol => ?_
      refine edits_resizeVolume hb fun e he => ?_
      obtain he | hput := hdisk'.mem_flatten (flatten_find hc (mem_flatten_child hvol he))
      · exact hd.mem_flatten (flatten_find hfs he)
      · exact Or.inr hput

theorem edits_fixupSkipKeybag (h : fixupSkipKeybag o d = .ok d') :
    Edits (scope o nvram tree) [] d d' := by
  unfold fixupSkipKeybag at h
  split_ifs at h with hskip
  · exact edits_set h (List.forall_mem_singleton.mpr (.keybag hskip)) (by decide)
  · obtain rfl := Except.ok.inj h
    exact .refl

theorem edits_fixupSep (hd : Edits (scope o nvram tree) [] tree d)
    (h : fixupSep o d = .ok d') : Edits (scope o nvram tree) [] d d' := by
  unfold fixupSep at h
  by_cases hkeep : sepPath ∈ o.keep
  · rw [if_neg (not_not.mpr hkeep)] at h
    simp only [bind, bind_eq_ok] at h
    obtain ⟨d₁, h₁, d₂, h₂, d₃, h₃, p, hp, es, hes, d₄, h₄, h⟩ := h
    have e₁ : Edits (scope o nvram tree) [] d d₁ := by
      refine edits_withinAll h₁ fun n n' _ hn => ?_
      obtain rfl := Except.ok.inj hn
      have hpanic : Edits (scope o nvram tree) [armIo, sep, iopSepNub] n
          (assign [entry "rom-panic-bytes" "u32:0x100"] n) :=
        edits_assign (List.forall_mem_singleton.mpr (.sepNub hkeep (by decide))) (by decide)
      have hwait : ∀ c, Edits (scope o nvram tree) [armIo, sep, iopSepNub] c (pop functionWait c) :=
        fun c => edits_pop (.wait hkeep) (by decide)
      exact (hpanic.trans (hwait _)).trans
        (edits_assign (List.forall_mem_singleton.mpr (.sepNub hkeep (by decide))) (by decide))
    have e₂ : Edits (scope o nvram tree) [] d₁ d₂ :=
      edits_set h₂ (List.forall_mem_singleton.mpr (.sepFirmware hkeep)) (by decide)
    have e₃ : Edits (scope o nvram tree) [] d₂ d₃ :=
      edits_set h₃ (List.forall_mem_singleton.mpr (.sepLoad hkeep)) (by decide)
    have hd₃ := hd.trans ((e₁.trans e₂).trans e₃)
    obtain ⟨v, hv, hplatform⟩ := getPlatformName_edits hd₃ hp
    have e₄ : Edits (scope o nvram tree) [] d₃ d₄ := by
      refine edits_set h₄ (fun e he => .chip hkeep hv hplatform hes he) fun hmem => ?_
      exact absurd (keys_chipEntries hes _ hmem) (by decide)
    have e₅ : Edits (scope o nvram tree) [] d₄ d' :=
      edits_withinAll h fun n n' _ hn => edits_ifChild hn fun hrem =>
        edits_removeChild hrem (.xART hkeep)
    exact ((((e₁.trans e₂).trans e₃).trans e₄).trans e₅)
  · rw [if_pos hkeep] at h
    exact edits_withinAll h fun a a' _ haa => edits_ifChild haa fun hrem =>
      edits_removeChild hrem (.sep hkeep)

/-- Children are dropped one after the other. -/
theorem edits_filter {S : Scope} {ns : List Text} {p : Node → Bool} : ∀ {ps : List Entry} {l cs : List Node},
    (∀ c ∈ cs, S.nodes (ns ++ [nameOf c])) →
      Edits S ns (.node ps (l ++ cs)) (.node ps (l ++ cs.filter p))
  | _, _, [], _ => .refl
  | ps, l, c :: cs, h => by
    rw [List.forall_mem_cons] at h
    rw [List.filter_cons]
    split_ifs
    · have hrest : Edits S ns (.node ps (l ++ [c] ++ cs)) (.node ps (l ++ [c] ++ cs.filter p)) :=
        edits_filter h.2
      rwa [List.append_assoc, List.append_assoc] at hrest
    · exact (Edit.edits (.drop h.1)).trans (edits_filter h.2)

theorem edits_dropUnavailable {tab : Node} (h : tab.children.length ≤ grand tree) :
    Edits (scope o nvram tree) [filesystems, fstab] tab (dropUnavailable tab) := by
  have hdrop : Edits (scope o nvram tree) [filesystems, fstab] tab
      (.node tab.items (tab.children.filter fun v => Available v)) := by
    cases tab with
    | node ps cs => exact edits_filter (l := []) fun c _ => .volume
  unfold dropUnavailable
  dsimp only
  generalize tab.children.filter (fun v => Available v) = vs at hdrop ⊢
  split_ifs with hlt
  · have hput : Written o nvram tree [filesystems, fstab] (maxFsEntries, u32Value vs.length) :=
      .tableSize (hlt.1.le.trans h)
    have hsize : Edits (scope o nvram tree) [filesystems, fstab] (.node tab.items vs)
        (.node (put maxFsEntries (u32Value vs.length) tab.items) vs) :=
      edits_put (e := (maxFsEntries, u32Value vs.length)) hput (by decide : maxFsEntries ≠ nameKey)
    exact hdrop.trans hsize
  · exact hdrop

theorem edits_fixupFstabDropUnavailable (hd : Edits (scope o nvram tree) [] tree d)
    (h : fixupFstabDropUnavailable d = .ok d') : Edits (scope o nvram tree) [] d d' := by
  refine edits_withinAll h fun fs fs' hfs hif => edits_ifChild hif fun hwithin => ?_
  refine edits_withinAll hwithin fun tab tab' htab hdrop => ?_
  obtain rfl := Except.ok.inj hdrop
  have hfind : find d [filesystems, fstab] = some tab := by
    rw [← List.singleton_append, find_append, hfs]
    exact htab
  exact edits_dropUnavailable ((length_le_size _).trans (children_le hd hfind))

theorem edits_fixupAic (h : withinAll [armIo, aic] fixupAic d = .ok d') :
    Edits (scope o nvram tree) [] d d' := by
  refine edits_withinAll h fun a a' _ haa => ?_
  unfold fixupAic at haa
  split at haa
  · cases haa
  · split_ifs at haa <;> obtain rfl := Except.ok.inj haa
    · exact edits_assign (List.forall_mem_singleton.mpr .aic) (by decide)
    · exact .refl

theorem edits_fixupSptm (h : fixupSptm d = .ok d') : Edits (scope o nvram tree) [] d d' := by
  unfold fixupSptm at h
  simp only [bind, bind_eq_ok] at h
  obtain ⟨d₁, h₁, h⟩ := h
  have hregions : Edits (scope o nvram tree) [] d d₁ :=
    edits_set h₁ (fun e he => .region he) (by decide)
  exact hregions.trans (edits_withinAll h fun a a' _ haa => edits_removeChild haa .sgx)

theorem edits_dropSecureRootPrefix (h : dropSecureRootPrefix d = .ok d') :
    Edits (scope o nvram tree) [] d d' := by
  unfold dropSecureRootPrefix at h
  simp only [bind, bind_eq_ok, Except.ok.injEq] at h
  obtain ⟨_, -, rfl⟩ := h
  exact edits_pop .root (by decide)

/-! ## The whole -/

/-- Each pass is a sequence of edits in the scope. -/
theorem edits_passes :
    ∀ pass ∈ passes o nvram, ∀ d d', Edits (scope o nvram tree) [] tree d → pass d = .ok d' →
      Edits (scope o nvram tree) [] d d' := by
  have hcpu : ∀ e ∈ entry "state" "running" :: frequencyEntries, Written o nvram tree [cpus, cpu0] e :=
    fun e he => .cpu he
  have hroot : lstrip [] = pathOf [] := rfl
  unfold passes
  simp only [List.forall_mem_cons]
  refine ⟨fun d d' hd h => edits_setPlatformName hd h,
    fun d d' _ h => edits_setBoot h,
    fun d d' _ h => edits_set h
      (List.forall_mem_singleton.mpr (hcpu _ (List.mem_cons_self ..))) (by decide),
    fun d d' hd h => edits_setRandomSeed hd h,
    fun d d' hd h => edits_setSerialDevice hd h,
    fun d d' _ h => edits_set h (fun e he => hcpu e (List.mem_cons_of_mem _ he)) (by decide),
    fun d d' _ h => edits_nvram h,
    fun d d' _ h => edits_setInvalidateHmac h,
    fun d d' _ h => edits_withinAll h fun a a' _ haa => edits_removeChild haa .dockchannel,
    fun d d' _ h => ?_,
    fun d d' _ h => edits_set h (List.forall_mem_singleton.mpr .vmm) (by decide),
    fun d d' _ h => edits_setAmcc h,
    fun d d' _ h => edits_delCompat d hroot (lookup_eq_ok_iff.mp h),
    fun d d' _ h => edits_fixupSpmi (lookup_eq_ok_iff.mp h),
    fun d d' _ h => edits_dropExclaveRoutes h,
    fun d d' hd h => edits_fixupDarts hd (lookup_eq_ok_iff.mp h),
    fun d d' hd h => edits_fixupIops hd (lookup_eq_ok_iff.mp h),
    fun d d' hd h => edits_fixupEphemeralData hd h,
    fun d d' _ h => edits_fixupSkipKeybag h,
    fun d d' hd h => edits_fixupSep hd h,
    fun d d' hd h => edits_fixupFstabDropUnavailable hd h,
    fun d d' _ h => edits_fixupAic h,
    fun d d' _ h => edits_fixupSptm h,
    fun d d' _ h => edits_dropSecureRootPrefix h, nofun⟩
  obtain rfl := Except.ok.inj h
  exact edits_addRtc o d

/-- What passes in the scope do is a sequence of edits in it. -/
theorem edits_foldlM : ∀ {ps : List (Node → Except Failure Node)} {d d' : Node},
    Edits (scope o nvram tree) [] tree d →
      (∀ pass ∈ ps, ∀ d d', Edits (scope o nvram tree) [] tree d → pass d = .ok d' →
        Edits (scope o nvram tree) [] d d') →
      ps.foldlM (fun d pass => pass d) d = .ok d' → Edits (scope o nvram tree) [] d d'
  | [], d, d', _, _, h => by
    obtain rfl : d = d' := Except.ok.inj h
    exact .refl
  | pass :: ps, d, d', hd, hps, h => by
    simp only [List.foldlM_cons, bind, bind_eq_ok] at h
    obtain ⟨d₁, h₁, h⟩ := h
    rw [List.forall_mem_cons] at hps
    have hedits := hps.1 d d₁ hd h₁
    exact hedits.trans (edits_foldlM (hd.trans hedits) hps.2 h)

/-- What `fixup` runs. -/
theorem fixup_eq_ok (h : fixup o nvram d = .ok d') :
    (∃ c, child chosen d = .ok c ∧ get firmwareVersion c.items ≠ some ibootName) ∧
      (passes o nvram).foldlM (fun d pass => pass d) d = .ok d' := by
  unfold fixup at h
  simp only [bind, bind_eq_ok] at h
  obtain ⟨c, hc, h⟩ := h
  split_ifs at h with hv
  exact ⟨⟨c, hc, hv⟩, h⟩

/-- The fixup is a sequence of edits in its scope. -/
theorem edits_fixup (h : fixup o nvram d = .ok d') : Edits (scope o nvram d) [] d d' :=
  edits_foldlM .refl edits_passes (fixup_eq_ok h).2

theorem edits_fixupDevelopmentActivation (h : fixupDevelopmentActivation o d = .ok d') :
    Edits (scope o nvram tree) [] d d' := by
  unfold fixupDevelopmentActivation at h
  split_ifs at h with hdev
  · simp only [bind, bind_eq_ok] at h
    obtain ⟨d₁, h₁, h⟩ := h
    have hdebug : Edits (scope o nvram tree) [] d d₁ :=
      edits_set h₁ (List.forall_mem_singleton.mpr (.debug hdev)) (by decide)
    exact hdebug.trans (edits_set h (List.forall_mem_singleton.mpr (.activation hdev)) (by decide))
  · obtain rfl := Except.ok.inj h
    exact .refl

/-- What the fixup does to a tree. A node that stays in its place is there afterwards if it was there
before, and each of its properties is as it was, or has a value that the fixup writes there, or is
one that it removes. No entry is in the result that was not in the tree and is not written. -/
theorem fixup_scoped (o : Options) (nvram : Bytes) (d d' : Node) (h : fixup o nvram d = .ok d') :
    (∀ ns, (scope o nvram d).Fixed [] ns →
      Option.Rel (Revised (scope o nvram d) ns) (find d ns) (find d' ns)) ∧
    ∀ e ∈ d'.flatten, e ∈ d.flatten ∨ ∃ ns, Written o nvram d ns e :=
  ⟨fun _ hns => (edits_fixup h).revised hns, fun _ he => (edits_fixup h).mem_flatten he⟩

/-- A node of a name. -/
def named (n : String) (ps : List Entry) (cs : List Node) : Node :=
  .node ((nameKey, .str n.toList) :: ps) cs

/-- A tree with what the fixup looks for. -/
def phone : Node := named "device-tree" [entry "secure-root-prefix" "md"] [
  named "chosen" [(randomSeedKey, .bytes [1, 2, 3, 4, 5])] [named "memory-map" [] [],
    named "lock-regs" [] [named "amcc" [] [named "amcc-ctrr-a" [] [], named "amcc-ctrr-b" [] [],
      named "amcc-ctrr-c" [] [], named "amcc-ctrr-d" [] []]]],
  named "cpus" [] [named "cpu0" [] []],
  named "defaults" [] [],
  named "arm-io" [entry "compatible" "arm-io,t8140", entry "soc-generation" "H17"] [
    named "uart0" [entry "AAPL,phandle" "u32:0x41"] [],
    named "dart-dcp" [entry "device_type" "dart", entry "compatible" "dart,t8110"] [],
    named "sep" [entry "compatible" "iop-sep,ascwrap-v6"] [named "iop-sep-nub" [] [named "xART" [] []]],
    named "dockchannel-uart" [] [],
    named "aic" [entry "compatible" "aic,3"] [],
    named "sgx" [] []],
  named "filesystems" [] [
    named "fstab" [entry "max_fs_entries" "u32:0x2"] [named "xart" [entry "vol.fs_name" "xART"] [],
      named "data" [entry "vol.fs_name" "Data"] []]],
  named "product" [] []]

/-- No feature is enabled. -/
def stock : Options := ⟨[], 0x200000000, none, false, false⟩

theorem fixup_scoped_phone : ∃ d', fixup stock [0] phone = .ok d' ∧
    (∀ ns, (scope stock [0] phone).Fixed [] ns →
      Option.Rel (Revised (scope stock [0] phone) ns) (find phone ns) (find d' ns)) ∧
    ∀ e ∈ d'.flatten, e ∈ phone.flatten ∨ ∃ ns, Written stock [0] phone ns e := by
  obtain ⟨d', h⟩ : ∃ d', fixup stock [0] phone = .ok d' := exists_of_isOk (by decide +kernel)
  exact ⟨d', h, fixup_scoped stock [0] phone d' h⟩

end

end DarwinVm.Dt.Fixup
