import DarwinVm.Dt.Locality
import DarwinVm.Dt.Recode
import DarwinVm.Lib.Occurs

/-!
# From the fixup to the patch

The bytes that `encode_node` of `dt_fixup.py` writes, read by `decode` of `tools/dt_patch.py` and
written again by `encode`. The two tools agree on a tree if each of its properties fits the format
(`Representable`). The length that the fixup writes for a text counts its characters, where the
bytes are its UTF-8, so that a text with other characters than ASCII is cut short.
-/

namespace DarwinVm.Dt.Fixup

/-- A text that `parse_prop_entry` takes for neither a number nor an absent value. -/
def Plain (v : Text) : Prop :=
  ¬"u32:".toList <+: v ∧ ¬"u64:".toList <+: v ∧ v ≠ "<NULL>".toList

instance (v : Text) : Decidable (Plain v) := inferInstanceAs (Decidable (_ ∧ _ ∧ _))

/-- The bytes that a value means: the UTF-8 of a text and the NUL that ends it, the word of a
number, or the bytes themselves. -/
def Value.raw : Value → Bytes
  | .bytes v => v
  | .str v =>
    if Plain v then utf8 v ++ [0]
    else ((parsePropEntry (.str v)).toOption.map Prod.snd).getD []

/-- The property that an entry means. -/
def toProperty (e : Entry) : Patch.Property := ⟨e.1, 0, e.2.raw⟩

/-- The patch tool reads all of the bytes, finds the nodes with the properties that the entries
mean, and writes the same bytes again. -/
def Consistent (d : Node) (out : Bytes) : Prop :=
  Patch.decode out 0 = .ok (d.map toProperty, out.length) ∧
    Patch.encode (d.map toProperty) = .ok out

/-- The value fits the format: bytes and a text with its NUL leave the top bit of the length free,
and a text is ASCII. -/
def Value.Fits : Value → Prop
  | .bytes v => v.length < placeholderBit
  | .str v => Plain v → v.length + 1 < placeholderBit ∧ ∀ c ∈ v, c.toNat < 128

/-- The entry fits the format: there is no NUL in the name, and the value fits. -/
def Representable (e : Entry) : Prop := nul ∉ e.1 ∧ e.2.Fits

/-- The bytes of an entry. -/
def entryBytes (e : Entry) : Bytes := (encodeEntry e).toOption.getD []

/-! ## Entries -/

/-- `encode_node` writes the layout of the tree, if it writes anything. -/
theorem encodeNode_eq_ok_iff {d : Node} {out : Bytes} :
    encodeNode d = .ok out ↔ d.Counted ∧ (∀ e ∈ d.flatten, ∃ b, encodeEntry e = .ok b) ∧
      out = (d.map entryBytes).layout := by
  refine writeTree_eq_ok_iff fun e b => ?_
  rw [entryBytes]
  cases encodeEntry e with
  | error err => exact ⟨nofun, fun h => nomatch h.1.choose_spec⟩
  | ok c => simp [Except.toOption, eq_comm]

/-- What is written of an entry. -/
theorem encodeEntry_inv {k : Text} {v : Value} {b : Bytes} (h : encodeEntry (k, v) = .ok b) :
    ∃ len val, parsePropEntry v = .ok (len, val) ∧ val.length % 4 = 0 ∧ len < 2 ^ 32 ∧
      k.length < 32 ∧ (ljust (utf8 k) 32).getLast? = some 0 ∧
        b = ljust (utf8 k) 32 ++ leBytes 4 len ++ val := by
  rw [encodeEntry] at h
  dsimp only at h
  split_ifs at h with h₁ h₂
  simp only [bind, bind_eq_ok, Prod.exists] at h
  obtain ⟨len, val, hparse, h⟩ := h
  split_ifs at h with h₃ h₄
  exact ⟨len, val, hparse, not_not.mp h₃, not_le.mp h₄, not_le.mp h₁, not_not.mp h₂,
    (Except.ok.inj h).symm⟩

/-- A number is packed into as many bytes as are declared. -/
theorem packText_length {k len : ℕ} {v : Text} {val : Bytes} (h : packText k v = .ok (len, val)) :
    len = k ∧ val.length = k := by
  unfold packText at h
  split at h
  · cases h
  · split at h
    · cases h
    · next n _ b hb =>
      cases h
      unfold packInt at hb
      split_ifs at hb
      cases hb
      exact ⟨rfl, length_leBytes _ _⟩

/-- What is written of a value that is no plain text: the bytes that it means, padded. -/
theorem parsePropEntry_raw {v : Value} {len : ℕ} {val : Bytes}
    (h : parsePropEntry v = .ok (len, val)) (hv : ∀ t, v = .str t → ¬Plain t) :
    len = v.raw.length ∧ val = ljust v.raw (roundUp4 v.raw.length) := by
  match v with
  | .bytes v =>
    cases h
    exact ⟨rfl, rfl⟩
  | .str t =>
    have hraw : (Value.str t).raw = val := by
      have hmap : ((parsePropEntry (.str t)).toOption.map Prod.snd).getD [] = val := by
        rw [h]
        rfl
      exact (if_neg (hv t rfl)).trans hmap
    rw [hraw]
    have hword : ∀ {k : ℕ}, k % 4 = 0 → packText k (t.drop 4) = .ok (len, val) →
        len = val.length ∧ val = ljust val (roundUp4 val.length) := by
      intro k hk hp
      obtain ⟨rfl, hlen⟩ := packText_length hp
      rw [hlen, roundUp4_of_mod hk, ljust_of_length_le hlen.ge]
      exact ⟨rfl, rfl⟩
    unfold parsePropEntry at h
    dsimp only at h
    split_ifs at h with h₁ h₂ h₃
    · exact hword (by norm_num) h
    · exact hword (by norm_num) h
    · cases h
      exact ⟨rfl, rfl⟩
    · exact absurd ⟨h₁, h₂, h₃⟩ (hv t rfl)

/-- What is written of a plain text: its UTF-8, padded as if each character took a byte. -/
theorem parsePropEntry_plain {t : Text} {len : ℕ} {val : Bytes}
    (h : parsePropEntry (.str t) = .ok (len, val)) (ht : Plain t) :
    len = t.length + 1 ∧ val = ljust (utf8 t) (roundUp4 (t.length + 1)) := by
  unfold parsePropEntry at h
  dsimp only at h
  rw [if_neg ht.1, if_neg ht.2.1, if_neg ht.2.2] at h
  split_ifs at h
  cases h
  exact ⟨rfl, rfl⟩

theorem raw_of_plain {t : Text} (ht : Plain t) : (Value.str t).raw = utf8 t ++ [0] := if_pos ht

/-- The record of the property that an entry means. -/
theorem bytes_toProperty (k : Text) (v : Value) :
    (toProperty (k, v)).bytes = ljust (utf8 k) 32 ++ leBytes 4 v.raw.length ++
      ljust v.raw (roundUp4 v.raw.length) := by
  rw [toProperty, Patch.Property.bytes, Nat.or_zero]

/-- What a value that fits means leaves the top bit of its length free. -/
theorem length_raw_lt {v : Value} (hv : v.Fits) {len : ℕ} {val : Bytes}
    (h : parsePropEntry v = .ok (len, val)) : v.raw.length < placeholderBit := by
  match v with
  | .bytes v => exact hv
  | .str t =>
    by_cases ht : Plain t
    · obtain ⟨hlen, hascii⟩ := hv ht
      rw [raw_of_plain ht, List.length_append, List.length_singleton,
        length_utf8_eq_iff.mpr hascii]
      exact hlen
    · have hno : ∀ t', Value.str t = .str t' → ¬Plain t' := by
        rintro _ ⟨⟩
        exact ht
      rw [← (parsePropEntry_raw h hno).1]
      have hword : ∀ {k : ℕ}, k ≤ 8 → packText k (t.drop 4) = .ok (len, val) →
          len < placeholderBit := by
        intro k hk hp
        rw [(packText_length hp).1, placeholderBit]
        omega
      unfold parsePropEntry at h
      dsimp only at h
      split_ifs at h with h₁ h₂ h₃
      · exact hword (by norm_num) h
      · exact hword le_rfl h
      · cases h
        decide
      · exact absurd ⟨h₁, h₂, h₃⟩ ht

/-- An ASCII text and its NUL, padded. -/
theorem ljust_ascii {t : Text} (h : (utf8 t).length = t.length) :
    ljust (utf8 t ++ [0]) (roundUp4 (t.length + 1)) = ljust (utf8 t) (roundUp4 (t.length + 1)) := by
  have hle := le_roundUp4 (t.length + 1)
  obtain ⟨n, hn⟩ : ∃ n, roundUp4 (t.length + 1) = t.length + 1 + n := Nat.exists_eq_add_of_le hle
  have hpad : t.length + 1 + n - t.length = n + 1 := by omega
  rw [hn, ljust, ljust, List.length_append, List.length_singleton, h, Nat.add_sub_cancel_left, hpad,
    List.append_assoc, List.singleton_append, List.replicate_succ]

/-- An entry that fits is written as the record of the property that it means. -/
theorem encodeEntry_of_representable {e : Entry} {b : Bytes} (h : encodeEntry e = .ok b)
    (he : Representable e) : b = (toProperty e).bytes := by
  obtain ⟨k, v⟩ := e
  obtain ⟨len, val, hparse, -, -, -, -, rfl⟩ := encodeEntry_inv h
  rw [bytes_toProperty]
  by_cases hv : ∃ t, v = .str t ∧ Plain t
  · obtain ⟨t, rfl, ht⟩ := hv
    obtain ⟨rfl, rfl⟩ := parsePropEntry_plain hparse ht
    have hascii := length_utf8_eq_iff.mpr (he.2 ht).2
    rw [raw_of_plain ht, List.length_append, List.length_singleton, hascii, ljust_ascii hascii]
  · obtain ⟨rfl, rfl⟩ := parsePropEntry_raw hparse fun t hvt ht => hv ⟨t, hvt, ht⟩
    rfl

/-- The bytes of an entry are no more than those of the property that it means. -/
theorem length_entryBytes_le (e : Entry) :
    (entryBytes e).length ≤ (toProperty e).bytes.length := by
  obtain ⟨k, v⟩ := e
  unfold entryBytes
  cases h : encodeEntry (k, v) with
  | error err => exact Nat.zero_le _
  | ok b =>
    obtain ⟨len, val, hparse, -, -, -, -, rfl⟩ := encodeEntry_inv h
    rw [bytes_toProperty]
    simp only [Except.toOption, Option.getD_some, List.length_append, length_leBytes]
    suffices hle : val.length ≤ (ljust v.raw (roundUp4 v.raw.length)).length by omega
    by_cases hv : ∃ t, v = .str t ∧ Plain t
    · obtain ⟨t, rfl, ht⟩ := hv
      obtain ⟨-, rfl⟩ := parsePropEntry_plain hparse ht
      have hchars := length_le_length_utf8 t
      rw [raw_of_plain ht, length_ljust, length_ljust, List.length_append, List.length_singleton]
      unfold roundUp4
      omega
    · obtain ⟨-, rfl⟩ := parsePropEntry_raw hparse fun t hvt ht => hv ⟨t, hvt, ht⟩
      exact le_rfl

/-- A plain text that is written as the record of the property that it means is ASCII. -/
theorem ascii_of_bytes_eq {k t : Text} {b : Bytes} (h : encodeEntry (k, .str t) = .ok b)
    (hb : b = (toProperty (k, .str t)).bytes) (ht : Plain t)
    (hlt : (Value.str t).raw.length < placeholderBit) : ∀ c ∈ t, c.toNat < 128 := by
  obtain ⟨len, val, hparse, -, -, -, -, rfl⟩ := encodeEntry_inv h
  obtain ⟨rfl, rfl⟩ := parsePropEntry_plain hparse ht
  have hchars := length_le_length_utf8 t
  rw [raw_of_plain ht, List.length_append, List.length_singleton, placeholderBit] at hlt
  rw [bytes_toProperty, raw_of_plain ht, List.length_append, List.length_singleton,
    List.append_assoc, List.append_assoc, List.append_cancel_left_eq] at hb
  obtain ⟨hword, -⟩ := List.append_inj hb (by rw [length_leBytes, length_leBytes])
  -- The length words tell the number of characters and the number of bytes.
  have hlen := congrArg leNat hword
  rw [leNat_leBytes_of_lt (by omega), leNat_leBytes_of_lt (by omega)] at hlen
  exact length_utf8_eq_iff.mp (by omega)

/-! ## Names -/

/-- A name that the patch tool reads has no NUL. -/
theorem nul_notMem_name {buf : Bytes} {i j : ℕ} {p : Patch.Property}
    (h : Patch.decodeProperty buf i = .ok (p, j)) : nul ∉ p.name := by
  rw [Patch.decodeProperty] at h
  cases hw : unpackWord buf (i + 32) with
  | none => rw [hw] at h; cases h
  | some n =>
    rw [hw] at h
    cases h
    intro hmem
    have hocc := (occurs_utf8DecodeReplace (p := [nul]) (by decide) _).mp
      (List.singleton_infix_iff _ _ |>.mpr hmem)
    have hzero : (0 : UInt8) ∈ cText (slice buf i (i + 32)) :=
      hocc.subset (by decide)
    have := List.mem_takeWhile_imp hzero
    simp at this

/-- A name without a NUL that fills its field is shorter than it. -/
theorem length_utf8_lt {k : Text} (hk : nul ∉ k)
    (h : (ljust (utf8 k) 32).getLast? = some 0) : (utf8 k).length < 32 := by
  rcases Nat.lt_or_ge (utf8 k).length 32 with hlt | hge
  · exact hlt
  · rw [ljust_of_length_le hge] at h
    exact absurd (zero_mem_utf8.mp (List.mem_of_getLast? h)) hk

/-! ## Trees -/

/-- The two tools agree on a tree that fits the format. -/
theorem consistent_of_representable {d : Node} {out : Bytes} (h : encodeNode d = .ok out)
    (hd : ∀ e ∈ d.flatten, Representable e) : Consistent d out := by
  obtain ⟨hc, hok, rfl⟩ := encodeNode_eq_ok_iff.mp h
  have hlayout : d.map entryBytes = (d.map toProperty).map Patch.Property.bytes := by
    rw [Tree.map_map]
    refine Tree.map_congr fun e he => ?_
    obtain ⟨b, hb⟩ := hok e he
    rw [entryBytes, hb]
    exact encodeEntry_of_representable hb (hd e he)
  have hprop : ∀ p ∈ (d.map toProperty).flatten, p.Sound ∧ p.Fits ∧ p.name.length < 32 ∧
      p.raw.length ||| p.flags < 2 ^ 32 := by
    rw [Tree.flatten_map]
    rintro _ hp
    obtain ⟨⟨k, v⟩, he, rfl⟩ := List.mem_map.mp hp
    obtain ⟨b, hb⟩ := hok _ he
    obtain ⟨_, _, hparse, -, -, hk, hlast, -⟩ := encodeEntry_inv hb
    obtain ⟨hnul, hfits⟩ := hd _ he
    have hlen := length_raw_lt hfits hparse
    have hword : v.raw.length ||| 0 < 2 ^ 32 := (word_eq hlen (Or.inl rfl)).1
    exact ⟨⟨hnul, Or.inl rfl⟩, ⟨(length_utf8_lt hnul hlast).le, hlen⟩, hk, hword⟩
  unfold Consistent
  rw [hlayout]
  exact ⟨Patch.decode_layout (Tree.counted_map.mpr hc) (fun p hp => (hprop p hp).1)
      fun p hp => (hprop p hp).2.1,
    Patch.encode_eq_ok_iff.mpr ⟨Tree.counted_map.mpr hc, fun p hp => (hprop p hp).2.2, rfl⟩⟩

/-- A tree that the two tools agree on fits the format. -/
theorem representable_of_consistent {d : Node} {out : Bytes} (h : encodeNode d = .ok out)
    (hc : Consistent d out) : ∀ e ∈ d.flatten, Representable e := by
  obtain ⟨-, hok, hout⟩ := encodeNode_eq_ok_iff.mp h
  obtain ⟨hdec, henc⟩ := hc
  obtain ⟨-, -, hout'⟩ := Patch.encode_eq_ok_iff.mp henc
  have hfits : ∀ p ∈ (d.map toProperty).flatten, p.Fits := by
    refine Patch.fits_of_decode_layout ?_
    rw [← hout']
    exact hdec
  have hnul : ∀ p ∈ (d.map toProperty).flatten, nul ∉ p.name :=
    Tree.Spans.forall_mem (fun _ _ _ => nul_notMem_name) (readTree_eq_ok_iff.mp hdec).2
  rw [Tree.flatten_map, List.forall_mem_map] at hfits hnul
  -- No entry is longer than its property, and all of them together are as long.
  rw [hout, Tree.map_map] at hout'
  have hweight : d.weight (fun e => (entryBytes e).length) =
      d.weight fun e => (toProperty e).bytes.length := by
    rw [← Tree.length_layout, ← Tree.length_layout, hout']
  have hbytes := Tree.eq_of_layout_eq (Tree.eq_of_weight_eq length_entryBytes_le hweight) hout'
  rintro ⟨k, v⟩ he
  refine ⟨hnul _ he, ?_⟩
  have hlen := (hfits _ he).2
  match v with
  | .bytes v => exact hlen
  | .str t =>
    intro ht
    obtain ⟨b, hb⟩ := hok _ he
    have heq := hbytes _ he
    rw [entryBytes, hb] at heq
    have hascii := ascii_of_bytes_eq hb heq ht hlen
    rw [toProperty, raw_of_plain ht, List.length_append, List.length_singleton,
      length_utf8_eq_iff.mpr hascii] at hlen
    exact ⟨hlen, hascii⟩

/-- The two tools agree on a tree that `encode_node` writes exactly if each entry of it fits the
format. -/
theorem encodeNode_consistent (d : Node) (out : Bytes) (h : encodeNode d = .ok out) :
    Consistent d out ↔ ∀ e ∈ d.flatten, Representable e :=
  ⟨representable_of_consistent h, consistent_of_representable h⟩

/-- A node with an accent in its name, which a blob can hold. -/
def accented : Node := .node [("name".toList, .str "é".toList)] []

/-- The bytes of the node: a length of two for two bytes of UTF-8 and the NUL. -/
def accentedBytes : Bytes :=
  counts 1 0 ++ ljust (ascii "name".toList) 32 ++ leBytes 4 2 ++ [0xC3, 0xA9, 0, 0]

theorem encodeNode_accented : encodeNode accented = .ok accentedBytes := by decide +kernel

/-- The condition decides for the node with the accent. -/
theorem encodeNode_consistent_accented :
    encodeNode accented = .ok accentedBytes ∧
      (Consistent accented accentedBytes ↔ ∀ e ∈ accented.flatten, Representable e) :=
  ⟨encodeNode_accented, encodeNode_consistent accented accentedBytes encodeNode_accented⟩

/-- The patch tool reads the name of the node without the NUL that ends it. -/
theorem not_encodeNode_consistent :
    ¬∀ d out, encodeNode d = .ok out → Consistent d out := by
  intro h
  obtain ⟨hdec, -⟩ := h accented accentedBytes encodeNode_accented
  revert hdec
  decide +kernel

end DarwinVm.Dt.Fixup
