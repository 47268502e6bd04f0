import DarwinVm.Dt.Passthrough
import DarwinVm.Dt.Patch
import DarwinVm.Lib.Occurs

/-!
# The two parsers of a device tree

`decode` of `tools/dt_patch.py` and `parse_node` of `tools/re/power_passthrough_dt.py` read one
format. The first takes slices, which Python cuts off at the end of the blob, and the second checks
each bound. Both walk over the same property records (`recordOffsets`), and they agree on a blob
that the first accepts exactly if every record lies inside of the blob and every name field has a
terminator (`decode_agrees_iff`).
-/

namespace DarwinVm.Dt.Strictness

/-! ## Records -/

/-- The length word of the record at an offset. -/
def lengthWord (buf : Bytes) (i : ℕ) : ℕ := leNat (slice buf (i + 32) (i + 36))

/-- The length of the value of the record at an offset. -/
def valueLength (buf : Bytes) (i : ℕ) : ℕ := lengthWord buf i &&& 0x7FFFFFFF

/-- The name field of the record at an offset. -/
def nameField (buf : Bytes) (i : ℕ) : Bytes := slice buf i (i + 32)

/-- The end of the record at an offset, with the padding of its value. -/
def recordEnd (buf : Bytes) (i : ℕ) : ℕ := i + 36 + roundUp4 (valueLength buf i)

/-- The record at an offset, as the offset, if its length word is there. -/
def recordOffset (buf : Bytes) (i : ℕ) : Except Patch.Error (ℕ × ℕ) :=
  if i + 36 ≤ buf.length then .ok (i, recordEnd buf i) else .error .struct

/-- The offsets of the property records of a blob, as a tree of its nodes. -/
def recordOffsets (buf : Bytes) (off : ℕ) : Except Patch.Error (Tree ℕ × ℕ) :=
  readTree .struct (Patch.decodeCounts buf) (recordOffset buf) (buf.length + 1) off

/-- The record at an offset lies inside of the blob with its padding, and its name is terminated. -/
structure Whole (buf : Bytes) (i : ℕ) : Prop where
  inside : recordEnd buf i ≤ buf.length
  terminated : 0 ∈ nameField buf i

/-- Every property record of a blob is whole. -/
def Intact (buf : Bytes) (off : ℕ) : Prop :=
  ∀ offsets stop, recordOffsets buf off = .ok (offsets, stop) →
    ∀ i ∈ offsets.flatten, Whole buf i

/-! ## The properties of a record -/

/-- The property that `decode` makes of a record. -/
def decoded (buf : Bytes) (i : ℕ) : Patch.Property :=
  ⟨utf8DecodeReplace (cText (nameField buf i)), lengthWord buf i &&& 0x80000000,
    slice buf (i + 36) (i + 36 + valueLength buf i)⟩

/-- The property that `parse_node` makes of a record. -/
def parsed (buf : Bytes) (i : ℕ) : Passthrough.Property :=
  ⟨(cText (nameField buf i)).map fun b => Char.ofNat b.toNat, slice buf i (recordEnd buf i)⟩

/-- The name, the flags and the value of a property that keeps its record. -/
def reading (q : Passthrough.Property) : Patch.Property :=
  let word := leNat (slice q.raw 32 36)
  ⟨q.name, word &&& 0x80000000, slice q.raw 36 (36 + (word &&& 0x7FFFFFFF))⟩

/-- `parse_node` accepts the blob too, and gives the same nodes, names, values, flags and end. It may
go down as many levels as the tree has. -/
def Agrees (buf : Bytes) (off : ℕ) (t : Patch.Node) (stop : ℕ) : Prop :=
  ∀ limit, t.depth ≤ limit → ∃ t', Passthrough.parseNode limit buf off = .ok (t', stop) ∧
    t'.map reading = t

theorem unpackWord_eq (buf : Bytes) (i : ℕ) : unpackWord buf (i + 32) =
    if i + 36 ≤ buf.length then some (lengthWord buf i) else none := rfl

/-- `decode` makes its property of each record. -/
theorem decodeProperty_eq (buf : Bytes) (i : ℕ) :
    Patch.decodeProperty buf i = (recordOffset buf i).map fun r => (decoded buf r.1, r.2) := by
  rw [Patch.decodeProperty, unpackWord_eq, recordOffset]
  split_ifs with h
  · rfl
  · rfl

/-- A name is ASCII if its bytes are, and is read the same by both. -/
theorem ascii_name {s : Bytes} (h : ∀ c ∈ utf8DecodeReplace s, c.toNat < 128) :
    (∀ b ∈ s, b < 128) ∧ (s.map fun b => Char.ofNat b.toNat) = utf8DecodeReplace s := by
  have hrep : replacement ∉ utf8DecodeReplace s := fun hmem => absurd (h _ hmem) (by decide)
  have hs : s = utf8 (utf8DecodeReplace s) := (reads_utf8ReplaceUpTo le_rfl).eq_utf8 hrep
  have hbytes : ∀ b ∈ s, b < 128 := by
    intro b hb
    rw [hs, utf8, List.mem_flatMap] at hb
    obtain ⟨c, hc, hb⟩ := hb
    have hlt : c.val.toNat < 128 := h c hc
    rw [String.utf8EncodeChar, if_pos (by omega), List.mem_singleton] at hb
    rw [hb, UInt8.lt_iff_toNat_lt, UInt8.toNat_ofNat']
    exact (Nat.mod_le _ _).trans_lt hlt
  refine ⟨hbytes, utf8_injective ?_⟩
  rw [utf8_ascii hbytes, ← hs]

/-- `decode_name` accepts the terminated ASCII names. -/
theorem decodeName_eq_ok_iff {field : Bytes} {t : Text} :
    Passthrough.decodeName field = .ok t ↔ 0 ∈ field ∧ (∀ b ∈ cText field, b < 128) ∧
      t = (cText field).map fun b => Char.ofNat b.toNat := by
  unfold Passthrough.decodeName
  split_ifs with hnul hascii
  · rw [List.all_eq_true] at hascii
    rw [Except.ok.injEq]
    constructor
    · rintro rfl
      exact ⟨hnul, fun b hb => of_decide_eq_true (hascii b hb), rfl⟩
    · rintro ⟨-, -, rfl⟩
      rfl
  · refine ⟨nofun, fun h => absurd ?_ hascii⟩
    rw [List.all_eq_true]
    exact fun b hb => decide_eq_true (h.2.1 b hb)
  · exact ⟨nofun, fun h => absurd h.1 hnul⟩

/-- `parse_node` accepts the records that are whole and have ASCII names. -/
theorem parseProperty_eq_ok_iff {buf : Bytes} {i j : ℕ} {q : Passthrough.Property} :
    Passthrough.parseProperty buf i = .ok (q, j) ↔ recordOffset buf i = .ok (i, j) ∧
      Whole buf i ∧ (∀ b ∈ cText (nameField buf i), b < 128) ∧ q = parsed buf i := by
  unfold Passthrough.parseProperty recordOffset
  rw [unpackWord_eq]
  by_cases hi : i + 36 ≤ buf.length
  · rw [if_pos hi, if_pos hi]
    dsimp only
    constructor
    · intro h
      obtain ⟨name, hname, h⟩ := bind_eq_ok.mp h
      obtain ⟨hnul, hascii, rfl⟩ := decodeName_eq_ok_iff.mp hname
      split_ifs at h with hstop
      obtain ⟨rfl, rfl⟩ := Prod.mk.inj (Except.ok.inj h)
      exact ⟨rfl, ⟨Nat.le_of_not_lt hstop, hnul⟩, hascii, rfl⟩
    · rintro ⟨hj, ⟨hinside, hnul⟩, hascii, rfl⟩
      obtain rfl := (Prod.mk.inj (Except.ok.inj hj)).2
      refine bind_eq_ok.mpr ⟨_, decodeName_eq_ok_iff.mpr ⟨hnul, hascii, rfl⟩, ?_⟩
      have hstop : ¬i + 36 + roundUp4 (lengthWord buf i &&& 0x7FFFFFFF) > buf.length :=
        Nat.not_lt.mpr hinside
      rw [if_neg hstop]
      rfl
  · rw [if_neg hi, if_neg hi]
    exact ⟨nofun, fun h => nomatch h.1⟩

/-- The property of a whole record with an ASCII name is the one that `decode` makes. -/
theorem reading_parsed {buf : Bytes} {i : ℕ} (hwhole : recordEnd buf i ≤ buf.length)
    (hascii : ∀ c ∈ (decoded buf i).name, c.toNat < 128) :
    reading (parsed buf i) = decoded buf i := by
  have hround := le_roundUp4 (valueLength buf i)
  have hraw : slice buf i (recordEnd buf i) <+: buf.drop i := List.take_prefix _ _
  have hlen : (slice buf i (recordEnd buf i)).length = 36 + roundUp4 (valueLength buf i) := by
    rw [length_slice]
    unfold recordEnd at hwhole ⊢
    omega
  have hword : leNat (slice (parsed buf i).raw 32 36) = lengthWord buf i := by
    rw [lengthWord, slice_eq_of_isPrefix hraw (by omega) (by omega)]
    rfl
  have hvalue : slice (parsed buf i).raw 36 (36 + valueLength buf i) = (decoded buf i).raw := by
    rw [decoded, Nat.add_assoc i, slice_eq_of_isPrefix hraw (by omega) (by omega)]
    rfl
  unfold reading
  dsimp only
  rw [hword, show lengthWord buf i &&& 0x7FFFFFFF = valueLength buf i from rfl, hvalue]
  exact congrArg (fun name => Patch.Property.mk name _ _) (ascii_name hascii).2

/-! ## The trees -/

theorem recordOffset_eq_ok {buf : Bytes} {i j k : ℕ} (h : recordOffset buf i = .ok (j, k)) :
    j = i := by
  unfold recordOffset at h
  split_ifs at h
  exact (Prod.mk.inj (Except.ok.inj h)).1.symm

/-- The counts of both parsers stand at the same offsets. -/
theorem parseCounts_eq_ok_iff {buf : Bytes} {i : ℕ} {r : (ℕ × ℕ) × ℕ} :
    Passthrough.parseCounts buf i = .ok r ↔ Patch.decodeCounts buf i = .ok r := by
  unfold Passthrough.parseCounts Patch.decodeCounts
  cases unpackCounts buf i with
  | none => exact ⟨nofun, nofun⟩
  | some nm => rw [Except.ok.injEq, Except.ok.injEq]

/-- `decode` reads the records of the blob. -/
theorem decode_eq_ok {buf : Bytes} {off stop : ℕ} {t : Patch.Node}
    (h : Patch.decode buf off = .ok (t, stop)) :
    ∃ offsets, recordOffsets buf off = .ok (offsets, stop) ∧ offsets.map (decoded buf) = t := by
  obtain ⟨hdepth, hspans⟩ := readTree_eq_ok_iff.mp h
  obtain ⟨offsets, rfl, hoffsets⟩ : ∃ offsets : Tree ℕ, offsets.map (decoded buf) = t ∧
      offsets.Spans (fun n m s s' => Patch.decodeCounts buf s = .ok ((n, m), s'))
        (fun i s s' => recordOffset buf s = .ok (i, s')) off stop := hspans.lift fun p i j hp => by
      rw [decodeProperty_eq] at hp
      cases hi : recordOffset buf i with
      | error e => rw [hi] at hp; cases hp
      | ok r =>
        rw [hi] at hp
        obtain ⟨rfl, rfl⟩ := Prod.mk.inj (Except.ok.inj hp)
        exact ⟨r.1, rfl, rfl⟩
  rw [Tree.depth_map] at hdepth
  exact ⟨offsets, readTree_eq_ok_iff.mpr ⟨hdepth, hoffsets⟩, rfl⟩

/-- `parse_node` reads the records of the blob, all of them whole. -/
theorem parseNode_eq_ok {buf : Bytes} {limit off stop : ℕ} {t : Passthrough.Node}
    (h : Passthrough.parseNode limit buf off = .ok (t, stop)) (hdepth : t.depth ≤ buf.length + 1) :
    ∃ offsets, recordOffsets buf off = .ok (offsets, stop) ∧
      (∀ i ∈ offsets.flatten, Whole buf i) ∧ offsets.map (parsed buf) = t := by
  obtain ⟨-, hspans⟩ := readTree_eq_ok_iff.mp h
  obtain ⟨offsets, rfl, hoffsets⟩ : ∃ offsets : Tree ℕ, offsets.map (parsed buf) = t ∧
      offsets.Spans (fun n m s s' => Passthrough.parseCounts buf s = .ok ((n, m), s'))
        (fun i s s' => recordOffset buf s = .ok (i, s') ∧ Whole buf i) off stop :=
    hspans.lift fun q i j hq => by
      obtain ⟨hi, hwhole, -, rfl⟩ := parseProperty_eq_ok_iff.mp hq
      exact ⟨i, rfl, hi, hwhole⟩
  rw [Tree.depth_map] at hdepth
  refine ⟨offsets, readTree_eq_ok_iff.mpr ⟨hdepth, ?_⟩, hoffsets.forall_mem fun _ _ _ h => h.2, rfl⟩
  exact hoffsets.mono (fun n m s s' hcounts => parseCounts_eq_ok_iff.mp hcounts)
    fun a _ s s' h => h.1

/-- Records that are whole and have ASCII names are read by `parse_node`. -/
theorem parseNode_of_whole {buf : Bytes} {limit off stop : ℕ} {offsets : Tree ℕ}
    (h : recordOffsets buf off = .ok (offsets, stop)) (hlimit : offsets.depth ≤ limit)
    (hwhole : ∀ i ∈ offsets.flatten, Whole buf i)
    (hascii : ∀ i ∈ offsets.flatten, ∀ b ∈ cText (nameField buf i), b < 128) :
    Passthrough.parseNode limit buf off = .ok (offsets.map (parsed buf), stop) := by
  obtain ⟨-, hspans⟩ := readTree_eq_ok_iff.mp h
  rw [Passthrough.parseNode, readTree_eq_ok_iff, Tree.depth_map, Tree.spans_map]
  refine ⟨hlimit, hspans.mono (fun n m s s' hcounts => parseCounts_eq_ok_iff.mpr hcounts) ?_⟩
  intro i hi s s' hs
  obtain rfl := recordOffset_eq_ok hs
  exact parseProperty_eq_ok_iff.mpr ⟨hs, hwhole i hi, hascii i hi, rfl⟩

/-- On a blob that `decode` accepts with ASCII names, `parse_node` agrees exactly if every property
record lies inside of the blob with its padding, and every name field has a terminator. -/
theorem decode_agrees_iff {buf : Bytes} {off stop : ℕ} {t : Patch.Node}
    (h : Patch.decode buf off = .ok (t, stop))
    (hascii : ∀ p ∈ t.flatten, ∀ c ∈ p.name, c.toNat < 128) :
    Agrees buf off t stop ↔ Intact buf off := by
  obtain ⟨offsets, hoffsets, rfl⟩ := decode_eq_ok h
  have hnames : ∀ i ∈ offsets.flatten, ∀ c ∈ (decoded buf i).name, c.toNat < 128 := by
    intro i hi
    refine hascii (decoded buf i) ?_
    rw [Tree.flatten_map]
    exact List.mem_map_of_mem hi
  constructor
  · intro hagrees offsets' stop' hoffsets' i hi
    obtain ⟨rfl, -⟩ := Prod.mk.inj (Except.ok.inj (hoffsets.symm.trans hoffsets'))
    obtain ⟨t', hparse, ht'⟩ := hagrees _ le_rfl
    -- Both trees have as many levels, which the bytes of the blob bound.
    have hdepth : t'.depth ≤ buf.length + 1 := by
      have hle := (readTree_eq_ok_iff.mp h).1
      rwa [← ht', Tree.depth_map] at hle
    obtain ⟨offsets', hoffsets', hwhole, -⟩ := parseNode_eq_ok hparse hdepth
    obtain ⟨rfl, -⟩ := Prod.mk.inj (Except.ok.inj (hoffsets.symm.trans hoffsets'))
    exact hwhole i hi
  · intro hintact limit hlimit
    have hwhole := hintact offsets stop hoffsets
    rw [Tree.depth_map] at hlimit
    refine ⟨_, parseNode_of_whole hoffsets hlimit hwhole
      fun i hi => (ascii_name (hnames i hi)).1, ?_⟩
    rw [Tree.map_map]
    exact Tree.map_congr fun i hi => reading_parsed (hwhole i hi).inside (hnames i hi)

/-- A root with one property `a` whose length word says four bytes, and then the rest of the blob. -/
def oneProperty (rest : Bytes) : Bytes :=
  counts 1 0 ++ ljust [97] 32 ++ leBytes 4 4 ++ rest

/-- The whole of the value is there. -/
theorem decode_agrees_oneProperty :
    Patch.decode (oneProperty [1, 2, 3, 4]) 0 =
      .ok (.node [⟨"a".toList, 0, [1, 2, 3, 4]⟩] [], 48) ∧
    (Agrees (oneProperty [1, 2, 3, 4]) 0 (.node [⟨"a".toList, 0, [1, 2, 3, 4]⟩] []) 48 ↔
      Intact (oneProperty [1, 2, 3, 4]) 0) := by
  have h : Patch.decode (oneProperty [1, 2, 3, 4]) 0 =
      .ok (.node [⟨"a".toList, 0, [1, 2, 3, 4]⟩] [], 48) := by decide +kernel
  exact ⟨h, decode_agrees_iff h (by decide)⟩

/-- A value that runs past the end of the blob is cut off by `decode` and refused by `parse_node`. -/
theorem not_decode_agrees : ¬∀ buf off t stop, Patch.decode buf off = .ok (t, stop) →
    (∀ p ∈ t.flatten, ∀ c ∈ p.name, c.toNat < 128) → Agrees buf off t stop := by
  intro h
  have hdecode : Patch.decode (oneProperty []) 0 =
      .ok (.node [⟨"a".toList, 0, []⟩] [], 48) := by decide +kernel
  obtain ⟨t', hparse, -⟩ := h _ _ _ _ hdecode (by decide) 1 (by decide)
  have herror : Passthrough.parseNode 1 (oneProperty []) 0 =
      .error (.dtError (.truncatedProperty "a".toList)) := by decide +kernel
  rw [herror] at hparse
  cases hparse

end DarwinVm.Dt.Strictness
