import Mathlib
import DarwinVm.Dt.Props
import DarwinVm.Lib.Accum

/-!
# Regions for the coprocessors

`fixup_iops` of `dt_fixup.py`, which gives each coprocessor nub that has no firmware region one of
its own, and the pass that `tools/ans/dt_ans_fixup.py` runs after it. The regions are taken from
slots in order. A slot is used once (`slot_lt`) and a nub that has its region is passed over, so
that another run of either pass finds nothing to do (`iop_regions`).
-/

namespace DarwinVm.Dt.Fixup

/-! ## The keys and the values -/

def ignoreGating : Text := "ignore-gating".toList
def preLoaded : Text := "pre-loaded".toList
def regionBase : Text := "region-base".toList
def regionSize : Text := "region-size".toList
def noFirmwareService : Text := "no-firmware-service".toList
def rtbuddy : Text := "rtbuddy".toList

/-- `"<NULL>"` -/
def absent : Value := .str "<NULL>".toList

/-- `"u32:1"` -/
def one : Value := .str "u32:1".toList

/-- The prefix of an eight-byte number. -/
def u64 : Text := "u64:".toList

/-- `f"u64:{n:#x}"` -/
def u64Value (n : ℕ) : Value := .str (u64 ++ pyHex n)

/-- `'u64:0x0'` -/
def zeroRegion : Value := u64Value 0

/-- `IOP_REGION_BASE` -/
def iopRegionBase : ℕ := 0x10010000000

/-- `IOP_REGION_SIZE` -/
def iopRegionSize : ℕ := 0x100000

/-- `IOP_REGION_STRIDE` -/
def iopRegionStride : ℕ := 0x1000000

/-! ## The passes -/

/-- The `compat` of a nub. -/
def compatText (ps : List Entry) : Text :=
  match get compatible ps with
  | none => []
  | some (.str s) => s
  | some (.bytes b) => utf8DecodeReplace b

/-- `nub.props.get('region-base') in (None, 'u64:0x0')` -/
def Unplaced (ps : List Entry) : Prop :=
  get regionBase ps = none ∨ get regionBase ps = some zeroRegion

/-- The nub is to be given a region: RTBuddy drives it, and it has none. -/
def Eligible (ps : List Entry) : Prop := rtbuddy <:+: compatText ps ∧ Unplaced ps

instance (ps : List Entry) : Decidable (Unplaced ps) := inferInstanceAs (Decidable (_ ∨ _))

instance (ps : List Entry) : Decidable (Eligible ps) := inferInstanceAs (Decidable (_ ∧ _))

/-- The properties of a nub whose firmware is already resident in a region at a base. -/
def place (base : ℕ) (ps : List Entry) : List Entry :=
  put noFirmwareService absent <| put regionSize (u64Value iopRegionSize) <|
    put regionBase (u64Value base) <| put preLoaded one ps

/-- The base of the region of a slot. -/
def slotBase (slot : ℕ) : ℕ := iopRegionBase + slot * iopRegionStride

/-- One turn of the loop over the nubs in `fixup_iops`. -/
def fixupNub (slot : ℕ) (nub : Node) : ℕ × Node :=
  if Eligible nub.items then (slot + 1, .node (place (slotBase slot) nub.items) nub.children)
  else (slot, nub)

/-- One turn of the loop over the children of `arm-io` in `fixup_iops`. -/
def fixupIop (slot : ℕ) (c : Node) : ℕ × Node :=
  if get compatible c.items = none then (slot, c)
  else
    let (slot, nubs) := mapAccum fixupNub slot c.children
    (slot, .node (put ignoreGating absent c.items) nubs)

/-- `fixup_iops` -/
def fixupIops (d : Node) : Except LookupError Node :=
  onChild armIo (fun a => .ok (mapChildren (fun cs => (mapAccum fixupIop 0 cs).2) a)) d

/-- One turn of the loop over the nubs in the pass of `dt_ans_fixup.py`. -/
def ansNub (nub : Node) : Node :=
  if ¬rtbuddy <:+: compatText nub.items then nub
  else if ¬Unplaced nub.items then nub
  else if get preLoaded nub.items ≠ none ∧ get regionBase nub.items ≠ some zeroRegion then nub
  else .node (place iopRegionBase nub.items) nub.children

/-- One turn of the loop over the children of `arm-io` in the pass of `dt_ans_fixup.py`. -/
def ansIop (c : Node) : Node :=
  if get compatible c.items = none then c else mapChildren (List.map ansNub) c

/-- The pass that `dt_ans_fixup.py` runs after `fixup_iops`. -/
def ansPass (d : Node) : Except LookupError Node :=
  onChild armIo (fun a => .ok (mapChildren (List.map ansIop) a)) d

/-! ## The regions -/

/-- A number that a property holds. -/
def numberOf (v : Option Value) : Option ℤ :=
  match v with
  | some (.str s) => if u64 <+: s then int0 (s.drop 4) else none
  | _ => none

/-- The addresses of the region of a nub. -/
def region (ps : List Entry) : Option (Set ℤ) := do
  let base ← numberOf (get regionBase ps)
  let size ← numberOf (get regionSize ps)
  some (Set.Ico base (base + size))

/-- The nub is given a region: its parent is a child of `arm-io`, at index `i` of the root, with
`compatible`, and the nub is eligible. -/
def EligibleAt (d : Node) (i j k : ℕ) (ps : List Entry) : Prop :=
  d.itemsAt [i, j, k] = some ps ∧ Eligible ps ∧
    ∃ qs, d.itemsAt [i, j] = some qs ∧ get compatible qs ≠ none

/-- The keys of the properties of a placed nub. -/
def placedKeys : List Text := [preLoaded, regionBase, regionSize, noFirmwareService]

/-- The properties of a placed nub: its firmware is resident at the base, and the other properties
are as they were. -/
structure Placed (base : ℕ) (ps ps' : List Entry) : Prop where
  preLoaded : get preLoaded ps' = some one
  regionBase : get regionBase ps' = some (u64Value base)
  regionSize : get regionSize ps' = some (u64Value iopRegionSize)
  noFirmwareService : get noFirmwareService ps' = some absent
  others : others placedKeys ps' = others placedKeys ps

/-- What `fixup_iops` makes of a tree with `arm-io` at index `i`. -/
structure Regions (i : ℕ) (d d' : Node) : Prop where
  /-- Each eligible nub is placed. -/
  placed : ∀ j k ps, EligibleAt d i j k ps →
    ∃ ps' base, d'.itemsAt [i, j, k] = some ps' ∧ Placed base ps ps'
  /-- The regions of different nubs are disjoint. -/
  disjoint : ∀ j k ps j' k' ps', EligibleAt d i j k ps → EligibleAt d i j' k' ps' →
    (j, k) ≠ (j', k') → ∃ r r', (d'.itemsAt [i, j, k]).bind region = some r ∧
      (d'.itemsAt [i, j', k']).bind region = some r' ∧ Disjoint r r'
  /-- A child of `arm-io` with `compatible` gains `ignore-gating`. -/
  gated : ∀ j ps, d.itemsAt [i, j] = some ps → get compatible ps ≠ none →
    d'.itemsAt [i, j] = some (put ignoreGating absent ps)
  /-- All other nodes are as they were. -/
  frame : ∀ q, (∀ j k ps, q = [i, j, k] → ¬EligibleAt d i j k ps) →
    (∀ j ps, q = [i, j] → d.itemsAt q = some ps → get compatible ps = none) →
    d'.itemsAt q = d.itemsAt q

/-! ## Nubs -/

theorem placed_place (base : ℕ) (ps : List Entry) : Placed base ps (place base ps) where
  preLoaded := by
    unfold place
    rw [get_put_of_ne (by decide), get_put_of_ne (by decide), get_put_of_ne (by decide),
      get_put_self]
  regionBase := by
    unfold place
    rw [get_put_of_ne (by decide), get_put_of_ne (by decide), get_put_self]
  regionSize := by
    unfold place
    rw [get_put_of_ne (by decide), get_put_self]
  noFirmwareService := get_put_self _
  others := by
    unfold place
    rw [others_put (by decide), others_put (by decide), others_put (by decide),
      others_put (by decide)]

theorem numberOf_u64Value (n : ℕ) : numberOf (some (u64Value n)) = some (n : ℤ) := by
  have hdrop : (u64 ++ pyHex n).drop 4 = pyHex n := rfl
  unfold u64Value numberOf
  dsimp only
  rw [if_pos (List.prefix_append _ _), hdrop, int0_pyHex]

theorem region_of_placed {base : ℕ} {ps ps' : List Entry} (h : Placed base ps ps') :
    region ps' = some (Set.Ico (base : ℤ) (base + iopRegionSize)) := by
  unfold region
  rw [h.regionBase, h.regionSize, numberOf_u64Value, numberOf_u64Value]
  rfl

/-- A nub with a region at a base other than zero is passed over. -/
theorem not_unplaced {base : ℕ} {ps ps' : List Entry} (hb : base ≠ 0) (h : Placed base ps ps') :
    ¬Unplaced ps' := by
  unfold Unplaced
  rw [h.regionBase]
  rintro (hnone | hzero)
  · cases hnone
  · have hnum := congrArg numberOf hzero
    rw [numberOf_u64Value, zeroRegion, numberOf_u64Value, Option.some.injEq] at hnum
    exact hb (by exact_mod_cast hnum)

theorem slotBase_ne_zero (slot : ℕ) : slotBase slot ≠ 0 := by
  unfold slotBase iopRegionBase
  omega

/-- The regions of different slots are disjoint. -/
theorem disjoint_slots {m n : ℕ} (h : m < n) :
    Disjoint (Set.Ico (slotBase m : ℤ) (slotBase m + iopRegionSize))
      (Set.Ico (slotBase n : ℤ) (slotBase n + iopRegionSize)) := by
  rw [Set.Ico_disjoint_Ico]
  refine (min_le_left _ _).trans (le_trans ?_ (le_max_right _ _))
  unfold slotBase iopRegionBase iopRegionSize iopRegionStride
  omega

theorem le_fixupNub (slot : ℕ) (nub : Node) : slot ≤ (fixupNub slot nub).1 := by
  unfold fixupNub
  split_ifs
  · exact Nat.le_succ slot
  · exact le_rfl

theorem le_fixupIop (slot : ℕ) (c : Node) : slot ≤ (fixupIop slot c).1 := by
  unfold fixupIop
  split_ifs
  · exact le_rfl
  · exact le_mapAccum le_fixupNub slot _

/-! ## Slots -/

/-- The slot before the child of `arm-io` at an index. -/
def iopSlot (cs : List Node) (j : ℕ) : ℕ := (mapAccum fixupIop 0 (cs.take j)).1

/-- The slot before the nub at an index of such a child. -/
def nubSlot (cs : List Node) (j : ℕ) (c : Node) (k : ℕ) : ℕ :=
  (mapAccum fixupNub (iopSlot cs j) (c.children.take k)).1

variable {cs : List Node} {j j' k k' : ℕ} {c c' nub nub' : Node}

theorem nubSlot_succ (hk : c.children[k]? = some nub) (h : Eligible nub.items) :
    nubSlot cs j c (k + 1) = nubSlot cs j c k + 1 := by
  unfold nubSlot
  rw [mapAccum_take_succ _ hk, fixupNub, if_pos h]

theorem nubSlot_mono (h : k ≤ k') : nubSlot cs j c k ≤ nubSlot cs j c k' :=
  mapAccum_take_le le_fixupNub _ _ h

/-- The slots of the nubs of a child lie between those before it and after it. -/
theorem nubSlot_le (hj : cs[j]? = some c) (hc : get compatible c.items ≠ none) (k : ℕ) :
    nubSlot cs j c k ≤ iopSlot cs (j + 1) := by
  have hall : nubSlot cs j c c.children.length = iopSlot cs (j + 1) := by
    unfold iopSlot
    rw [mapAccum_take_succ _ hj, fixupIop, if_neg hc, nubSlot, List.take_length]
    rfl
  rcases Nat.le_total k c.children.length with h | h
  · exact (nubSlot_mono h).trans hall.le
  · have htake : c.children.take k = c.children.take c.children.length := by
      rw [List.take_of_length_le h, List.take_length]
    rw [nubSlot, htake, ← nubSlot, hall]

/-- An eligible nub takes its slot, so that the nubs after it have later ones. -/
theorem slot_lt (hj : cs[j]? = some c) (hc : get compatible c.items ≠ none)
    (hk : c.children[k]? = some nub) (h : Eligible nub.items) (hj' : cs[j']? = some c')
    (hlt : j < j' ∨ j = j' ∧ k < k') : nubSlot cs j c k < nubSlot cs j' c' k' := by
  rw [← Nat.succ_le_iff, Nat.succ_eq_add_one, ← nubSlot_succ hk h]
  rcases hlt with hlt | ⟨rfl, hlt⟩
  · calc nubSlot cs j c (k + 1) ≤ iopSlot cs (j + 1) := nubSlot_le hj hc _
      _ ≤ iopSlot cs j' := mapAccum_take_le le_fixupIop _ _ hlt
      _ ≤ nubSlot cs j' c' k' := le_mapAccum le_fixupNub _ _
  · obtain rfl : c = c' := Option.some.inj (hj.symm.trans hj')
    exact nubSlot_mono hlt

/-! ## The children of `arm-io` -/

/-- The children of `arm-io` after `fixup_iops`. -/
def placedIops (cs : List Node) : List Node := (mapAccum fixupIop 0 cs).2

theorem getElem?_placedIops (cs : List Node) (j : ℕ) :
    (placedIops cs)[j]? = cs[j]?.map fun c => (fixupIop (iopSlot cs j) c).2 :=
  getElem?_mapAccum _ _ _

/-- A child without `compatible` is left as it is. -/
theorem fixupIop_of_none (slot : ℕ) (h : get compatible c.items = none) :
    (fixupIop slot c).2 = c := by
  unfold fixupIop
  rw [if_pos h]

theorem fixupIop_of_some (slot : ℕ) (h : get compatible c.items ≠ none) :
    (fixupIop slot c).2 =
      .node (put ignoreGating absent c.items) (mapAccum fixupNub slot c.children).2 := by
  unfold fixupIop
  rw [if_neg h]

theorem fixupNub_of_eligible (slot : ℕ) (h : Eligible nub.items) :
    (fixupNub slot nub).2 = .node (place (slotBase slot) nub.items) nub.children := by
  unfold fixupNub
  rw [if_pos h]

theorem fixupNub_of_not_eligible (slot : ℕ) (h : ¬Eligible nub.items) :
    (fixupNub slot nub).2 = nub := by
  unfold fixupNub
  rw [if_neg h]

/-- A nub below `arm-io` after `fixup_iops`. -/
theorem nub_placedIops (hj : cs[j]? = some c) (hc : get compatible c.items ≠ none)
    (hk : c.children[k]? = some nub) : ((placedIops cs)[j]?.bind fun c => c.children[k]?) =
      some (fixupNub (nubSlot cs j c k) nub).2 := by
  rw [getElem?_placedIops, hj, Option.map_some, Option.bind_some, fixupIop_of_some _ hc,
    Tree.children_node, getElem?_mapAccum, hk]
  rfl

/-- A nub that was placed is not eligible, and is as the extra pass leaves it. -/
theorem not_eligible_fixupNub (slot : ℕ) (nub : Node) : ¬Eligible (fixupNub slot nub).2.items := by
  by_cases h : Eligible nub.items
  · rw [fixupNub_of_eligible slot h, Tree.items_node]
    exact fun hp => not_unplaced (slotBase_ne_zero slot) (placed_place _ _) hp.2
  · rwa [fixupNub_of_not_eligible slot h]

/-- The extra pass leaves a nub that is not eligible. -/
theorem ansNub_of_not_eligible (h : ¬Eligible nub.items) : ansNub nub = nub := by
  unfold ansNub
  split_ifs with h₁ h₂ h₃
  · rfl
  · exact absurd ⟨h₁, h₂⟩ h
  · rfl
  · rfl

/-- No nub of a child is eligible. -/
def Settled (c : Node) : Prop :=
  get compatible c.items = none ∨
    get ignoreGating c.items = some absent ∧ ∀ nub ∈ c.children, ¬Eligible nub.items

theorem settled_fixupIop (slot : ℕ) (c : Node) : Settled (fixupIop slot c).2 := by
  by_cases h : get compatible c.items = none
  · rw [fixupIop_of_none slot h]
    exact Or.inl h
  · rw [fixupIop_of_some slot h]
    refine Or.inr ⟨get_put_self _, fun nub hnub => ?_⟩
    rw [Tree.children_node] at hnub
    obtain ⟨k, hk⟩ := List.mem_iff_getElem?.mp hnub
    rw [getElem?_mapAccum, Option.map_eq_some_iff] at hk
    obtain ⟨b, -, rfl⟩ := hk
    exact not_eligible_fixupNub _ b

/-- A settled child is left as it is by both passes. -/
theorem fixupIop_of_settled (slot : ℕ) (h : Settled c) : (fixupIop slot c).2 = c := by
  cases c with
  | node ps cs =>
    rcases h with h | ⟨hgate, hnubs⟩
    · exact fixupIop_of_none slot h
    · by_cases hc : get compatible (Tree.node ps cs).items = none
      · exact fixupIop_of_none slot hc
      · rw [fixupIop_of_some slot hc, put_of_get hgate, mapAccum_eq_self fun nub hnub s =>
          fixupNub_of_not_eligible s (hnubs nub hnub)]
        rfl

theorem ansIop_of_settled (h : Settled c) : ansIop c = c := by
  cases c with
  | node ps cs =>
    unfold ansIop
    split_ifs with hc
    · rfl
    · obtain ⟨-, hnubs⟩ := h.resolve_left hc
      have hmap : cs.map ansNub = cs :=
        (List.map_congr_left fun nub hnub => ansNub_of_not_eligible (hnubs nub hnub)).trans
          (List.map_id' cs)
      unfold mapChildren
      rw [Tree.children_node, hmap]
      rfl

theorem settled_placedIops (cs : List Node) : ∀ c ∈ placedIops cs, Settled c := by
  intro c hc
  obtain ⟨j, hj⟩ := List.mem_iff_getElem?.mp hc
  rw [getElem?_placedIops, Option.map_eq_some_iff] at hj
  obtain ⟨b, -, rfl⟩ := hj
  exact settled_fixupIop _ b

theorem placedIops_idem (cs : List Node) : placedIops (placedIops cs) = placedIops cs :=
  mapAccum_eq_self fun c hc s => fixupIop_of_settled s (settled_placedIops cs c hc)

theorem map_ansIop_placedIops (cs : List Node) : (placedIops cs).map ansIop = placedIops cs := by
  rw [List.map_congr_left fun c hc => ansIop_of_settled (settled_placedIops cs c hc), List.map_id']

/-! ## The tree -/

/-- The tree after `fixup_iops`, where `arm-io` is the child `a` at index `i`. -/
def placedTree (d : Node) (i : ℕ) (a : Node) : Node :=
  .node d.items (d.children.set i (mapChildren placedIops a))

variable {d a : Node} {i : ℕ}

theorem fixupIops_of_childAt (hi : ChildAt armIo d.children i) (ha : d.children[i]? = some a) :
    fixupIops d = .ok (placedTree d i a) :=
  onChild_eq_ok_iff.mpr ⟨i, a, _, hi, ha, rfl, rfl⟩

/-- The `arm-io` of the tree after `fixup_iops`. -/
theorem getElem?_placedTree (ha : d.children[i]? = some a) :
    (placedTree d i a).children[i]? = some (mapChildren placedIops a) := by
  have hlt : i < d.children.length := (List.getElem?_eq_some_iff.mp ha).1
  unfold placedTree
  rw [Tree.children_node, List.getElem?_set_self hlt]

theorem childAt_placedTree (hi : ChildAt armIo d.children i) (ha : d.children[i]? = some a) :
    ChildAt armIo (placedTree d i a).children i := by
  obtain ⟨⟨c, hc, hn⟩, hlt⟩ := hi
  obtain rfl : a = c := Option.some.inj (ha.symm.trans hc)
  refine ⟨⟨_, getElem?_placedTree ha, hn⟩, fun j hj b hb => ?_⟩
  unfold placedTree at hb
  rw [Tree.children_node, List.getElem?_set_ne (Nat.ne_of_gt hj)] at hb
  exact hlt j hj b hb

/-- A second `fixup_iops` changes nothing. -/
theorem fixupIops_placedTree (hi : ChildAt armIo d.children i) (ha : d.children[i]? = some a) :
    fixupIops (placedTree d i a) = .ok (placedTree d i a) := by
  refine onChild_eq_ok_iff.mpr ⟨i, _, _, childAt_placedTree hi ha, getElem?_placedTree ha, rfl, ?_⟩
  unfold placedTree mapChildren
  simp only [Tree.items_node, Tree.children_node, List.set_set]
  rw [← placedIops, placedIops_idem]

/-- The extra pass changes nothing. -/
theorem ansPass_placedTree (hi : ChildAt armIo d.children i) (ha : d.children[i]? = some a) :
    ansPass (placedTree d i a) = .ok (placedTree d i a) := by
  refine onChild_eq_ok_iff.mpr ⟨i, _, _, childAt_placedTree hi ha, getElem?_placedTree ha, rfl, ?_⟩
  unfold placedTree mapChildren
  simp only [Tree.items_node, Tree.children_node, List.set_set, map_ansIop_placedIops]

/-- An eligible nub is a child of a child of `arm-io`. -/
theorem exists_of_eligibleAt (ha : d.children[i]? = some a) {ps : List Entry}
    (h : EligibleAt d i j k ps) : ∃ c nub, a.children[j]? = some c ∧
      get compatible c.items ≠ none ∧ c.children[k]? = some nub ∧ nub.items = ps ∧ Eligible ps := by
  obtain ⟨hps, he, qs, hqs, hc⟩ := h
  simp only [Tree.itemsAt_cons, ha, Option.bind_some, Option.bind_eq_some_iff,
    Tree.itemsAt_nil] at hps hqs
  obtain ⟨c, hj, nub, hk, hnub⟩ := hps
  obtain ⟨c', hj', hc'⟩ := hqs
  obtain rfl : c = c' := Option.some.inj (hj.symm.trans hj')
  rw [← Option.some.inj hc'] at hc
  exact ⟨c, nub, hj, hc, hk, Option.some.inj hnub, he⟩

/-- The properties of an eligible nub after `fixup_iops`. -/
theorem itemsAt_placedTree (ha : d.children[i]? = some a) (hj : a.children[j]? = some c)
    (hc : get compatible c.items ≠ none) (hk : c.children[k]? = some nub) (he : Eligible nub.items) :
    (placedTree d i a).itemsAt [i, j, k] =
      some (place (slotBase (nubSlot a.children j c k)) nub.items) := by
  have hnub := nub_placedIops hj hc hk
  rw [fixupNub_of_eligible _ he, Option.bind_eq_some_iff] at hnub
  obtain ⟨c', hc', hk'⟩ := hnub
  simp only [Tree.itemsAt_cons, getElem?_placedTree ha, Option.bind_some, mapChildren,
    Tree.children_node, hc', hk', Tree.itemsAt_nil, Tree.items_node]

theorem regions_placedTree (ha : d.children[i]? = some a) : Regions i d (placedTree d i a) where
  placed := by
    intro j k ps h
    obtain ⟨c, nub, hj, hc, hk, rfl, he⟩ := exists_of_eligibleAt ha h
    exact ⟨_, _, itemsAt_placedTree ha hj hc hk he, placed_place _ _⟩
  disjoint := by
    intro j k ps j' k' ps' h h' hne
    obtain ⟨c, nub, hj, hc, hk, rfl, he⟩ := exists_of_eligibleAt ha h
    obtain ⟨c', nub', hj', hc', hk', rfl, he'⟩ := exists_of_eligibleAt ha h'
    rw [itemsAt_placedTree ha hj hc hk he, itemsAt_placedTree ha hj' hc' hk' he',
      Option.bind_some, Option.bind_some]
    refine ⟨_, _, region_of_placed (placed_place _ _), region_of_placed (placed_place _ _), ?_⟩
    · -- One of the nubs is before the other, and its slot too.
      have hcases : (j < j' ∨ j = j' ∧ k < k') ∨ j' < j ∨ j' = j ∧ k' < k := by
        rw [ne_eq, Prod.mk.injEq] at hne
        omega
      rcases hcases with hlt | hlt
      · exact disjoint_slots (slot_lt hj hc hk he hj' hlt)
      · exact (disjoint_slots (slot_lt hj' hc' hk' he' hj hlt)).symm
  gated := by
    intro j ps hps hc
    simp only [Tree.itemsAt_cons, ha, Option.bind_some, Option.bind_eq_some_iff,
      Tree.itemsAt_nil, Option.some.injEq] at hps
    obtain ⟨c, hj, rfl⟩ := hps
    simp only [Tree.itemsAt_cons, getElem?_placedTree ha, Option.bind_some, mapChildren,
      Tree.children_node, getElem?_placedIops, hj, Option.map_some, fixupIop_of_some _ hc,
      Tree.itemsAt_nil, Tree.items_node]
  frame := by
    intro q hnub hiop
    match q with
    | [] => rw [Tree.itemsAt_nil, Tree.itemsAt_nil, placedTree, Tree.items_node]
    | i' :: q =>
      by_cases hii : i' = i
      · subst hii
        rw [Tree.itemsAt_cons, Tree.itemsAt_cons, getElem?_placedTree ha, ha, Option.bind_some,
          Option.bind_some]
        match q with
        | [] => rw [Tree.itemsAt_nil, Tree.itemsAt_nil, mapChildren, Tree.items_node]
        | j :: q =>
          rw [Tree.itemsAt_cons, Tree.itemsAt_cons, mapChildren, Tree.children_node,
            getElem?_placedIops]
          cases hj : a.children[j]? with
          | none => rfl
          | some c =>
            rw [Option.map_some, Option.bind_some, Option.bind_some]
            by_cases hc : get compatible c.items = none
            · rw [fixupIop_of_none _ hc]
            · have hjd : d.itemsAt [i', j] = some c.items := by
                simp only [Tree.itemsAt_cons, ha, hj, Option.bind_some, Tree.itemsAt_nil]
              rw [fixupIop_of_some _ hc]
              match q with
              | [] => exact absurd (hiop j _ rfl hjd) hc
              | k :: q =>
                rw [Tree.itemsAt_cons, Tree.itemsAt_cons, Tree.children_node, getElem?_mapAccum]
                cases hk : c.children[k]? with
                | none => rfl
                | some nub =>
                  rw [Option.map_some, Option.bind_some, Option.bind_some]
                  by_cases he : Eligible nub.items
                  · have hkd : d.itemsAt [i', j, k] = some nub.items := by
                      simp only [Tree.itemsAt_cons, ha, hj, hk, Option.bind_some,
                        Tree.itemsAt_nil]
                    rw [fixupNub_of_eligible _ he]
                    match q with
                    | [] => exact absurd ⟨hkd, he, _, hjd, hc⟩ (hnub j k _ rfl)
                    | l :: q => rw [Tree.itemsAt_cons, Tree.itemsAt_cons, Tree.children_node]
                  · rw [fixupNub_of_not_eligible _ he]
      · rw [Tree.itemsAt_cons, Tree.itemsAt_cons, placedTree, Tree.children_node,
          List.getElem?_set_ne (Ne.symm hii)]

/-- A tree without an `arm-io` is rejected. -/
theorem fixupIops_error (h : ∀ i, ¬ChildAt armIo d.children i) : ∃ e, fixupIops d = .error e := by
  cases hd : fixupIops d with
  | error e => exact ⟨e, rfl⟩
  | ok d' =>
    obtain ⟨i, _, _, hi, -⟩ := onChild_eq_ok_iff.mp hd
    exact absurd hi (h i)

/-- What `fixup_iops` does to a tree. Each eligible nub is placed in a region of its own, and the
other nodes are left as they are, but for `ignore-gating`. A second run changes nothing, and the
extra pass neither. A tree without an `arm-io` is rejected. -/
theorem iop_regions (d : Node) :
    (∀ i, ChildAt armIo d.children i → ∃ d', fixupIops d = .ok d' ∧ Regions i d d' ∧
      fixupIops d' = .ok d' ∧ ansPass d' = .ok d') ∧
    ((∀ i, ¬ChildAt armIo d.children i) → ∃ e, fixupIops d = .error e) := by
  refine ⟨fun i hi => ?_, fixupIops_error⟩
  obtain ⟨a, ha, -⟩ := hi.1
  exact ⟨placedTree d i a, fixupIops_of_childAt hi ha, regions_placedTree ha,
    fixupIops_placedTree hi ha, ansPass_placedTree hi ha⟩

/-- A tree with the display and the storage coprocessors, of which the latter has the placeholder
for a region. -/
def twoIops : Node :=
  let nub (ps : List Entry) : Node :=
    .node ((compatible, .str "iop-nub,rtbuddy-v2".toList) :: ps) []
  .node [] [.node [(nameKey, .str armIo)]
    [.node [(compatible, .str "iop,ascwrap-v6".toList)] [nub []],
      .node [(compatible, .bytes [105, 111, 112])] [nub [(regionBase, zeroRegion)]]]]

/-- The two coprocessors get different regions. -/
theorem iop_regions_twoIops :
    ∃ d', fixupIops twoIops = .ok d' ∧ Regions 0 twoIops d' ∧ fixupIops d' = .ok d' ∧
      ansPass d' = .ok d' :=
  (iop_regions twoIops).1 0 (childAt_zero.mpr (by decide))

end DarwinVm.Dt.Fixup
