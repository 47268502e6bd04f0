import DarwinVm.Dt.Edits
import DarwinVm.Dt.Pipeline
import DarwinVm.Lib.Digits

/-!
# What is written, read again

`decode_node` of `dt_fixup.py` on the bytes that its `encode_node` wrote. An entry comes back under
its name, with what is guessed of its bytes, if there is no NUL in its name or in its text
(`decodeNode_encodeNode`). Where the keys of each node are different, as those of a dict are, the
tree that comes back is the one that was written, entry by entry (`decodeNode_reread`).
-/

namespace DarwinVm.Dt.Fixup

/-! ## Entries -/

/-- There is no NUL in a text. -/
def Value.NulFree : Value → Prop
  | .str t => nul ∉ t
  | .bytes _ => True

instance : (v : Value) → Decidable v.NulFree
  | .str t => inferInstanceAs (Decidable (nul ∉ t))
  | .bytes _ => inferInstanceAs (Decidable True)

/-- There is no NUL in the name of an entry, or in its text. -/
def NulFree (e : Entry) : Prop := nul ∉ e.1 ∧ e.2.NulFree

instance (e : Entry) : Decidable (NulFree e) := inferInstanceAs (Decidable (_ ∧ _))

/-- A text that looks like no number. -/
def Value.PlainText : Value → Prop
  | .str t => Plain t
  | .bytes _ => False

instance : (v : Value) → Decidable v.PlainText
  | .str t => inferInstanceAs (Decidable (Plain t))
  | .bytes _ => inferInstanceAs (Decidable False)

/-- If the entry is a name, it looks like no number. -/
def PlainName (e : Entry) : Prop := e.1 = nameKey → e.2.PlainText

instance (e : Entry) : Decidable (PlainName e) := inferInstanceAs (Decidable (_ → _))

/-- What `decode_node` makes of the bytes of an entry. -/
def reread (e : Entry) : Except Error Entry := do
  let (_, val) ← parsePropEntry e.2
  match decodeProp e.1 val with
  | some v => .ok (e.1, v)
  | none => .error .unicode

/-- The length that is written is the one that is read, with the padding. -/
theorem length_parsePropEntry {v : Value} {len : ℕ} {val : Bytes}
    (h : parsePropEntry v = .ok (len, val)) (hv : v.NulFree) :
    val.length = roundUp4 len := by
  by_cases htext : ∃ t, v = .str t ∧ Plain t
  · obtain ⟨t, rfl, ht⟩ := htext
    have hlast : val.getLast? = some 0 := by
      unfold parsePropEntry at h
      dsimp only at h
      rw [if_neg ht.1, if_neg ht.2.1, if_neg ht.2.2] at h
      split_ifs at h with hlast
      obtain ⟨-, rfl⟩ := Prod.mk.inj (Except.ok.inj h)
      exact not_not.mp hlast
    obtain ⟨rfl, rfl⟩ := parsePropEntry_plain h ht
    rw [length_ljust, max_eq_right]
    by_contra hlt
    rw [ljust_of_length_le (Nat.le_of_not_le hlt)] at hlast
    exact hv (zero_mem_utf8.mp (List.mem_of_getLast? hlast))
  · obtain ⟨rfl, rfl⟩ := parsePropEntry_raw h fun t hvt ht => htext ⟨t, hvt, ht⟩
    rw [length_ljust, max_eq_right (le_roundUp4 _)]

/-- The bytes of an entry are read again. -/
theorem decodeEntry_of_encodeEntry {e : Entry} {b s s' : Bytes} (h : encodeEntry e = .ok b)
    (he : NulFree e) (hlt : b.length < 2 ^ 31) (hs : Cursor.rest.stands b s s') :
    decodeEntry s = (reread e).map fun e' => (e', s') := by
  obtain ⟨k, v⟩ := e
  obtain ⟨len, val, hparse, -, hlen, hk, hlast, rfl⟩ := encodeEntry_inv h
  have hkey := length_utf8_lt he.1 hlast
  have hval := length_parsePropEntry hparse he.2
  have hn : (ljust (utf8 k) 32).length = 32 := by rw [length_ljust, max_eq_right hkey.le]
  have hlt' : len < 2 ^ 31 := by
    have := le_roundUp4 len
    rw [List.length_append, hval] at hlt
    omega
  have hand : len &&& 0x7FFFFFFF = len := by
    have hmod := Nat.and_two_pow_sub_one_eq_mod len 31
    rw [Nat.mod_eq_of_lt hlt'] at hmod
    exact hmod
  have hpre : ljust (utf8 k) 32 ++ leBytes 4 len ++ val <+: s.drop 0 := ⟨s', hs.symm⟩
  have hname : slice s 0 32 = ljust (utf8 k) 32 := by
    have := slice_of_isPrefix (a := []) (b := ljust (utf8 k) 32)
      (by simpa only [List.append_assoc, List.nil_append] using hpre)
    rwa [hn, List.length_nil, Nat.add_zero, Nat.zero_add] at this
  have hword : unpackWord s 32 = some len := by
    have := unpackWord_of_isPrefix (n := len) (by omega) hpre
    rwa [hn, Nat.zero_add] at this
  have hslice : slice s 36 (36 + roundUp4 len) = val := by
    have := slice_of_isPrefix (a := ljust (utf8 k) 32 ++ leBytes 4 len) (b := val) (c := [])
      (by simpa only [List.append_nil] using hpre)
    rwa [List.length_append, hn, length_leBytes, hval] at this
  have hdrop : s.drop (36 + roundUp4 len) = s' := by
    have hl : (ljust (utf8 k) 32 ++ leBytes 4 len ++ val).length = 36 + roundUp4 len := by
      rw [List.length_append, List.length_append, hn, length_leBytes, hval]
    rw [← hl, hs, List.drop_left]
  unfold decodeEntry reread
  rw [hname, decodeNullTerminatedString_utf8 he.1]
  simp only [hword, hand, hslice, hdrop, hparse, bind, Except.bind]
  cases decodeProp k val <;> rfl

/-- What is no name and looks like a text is one. -/
theorem exists_decodeProp {k : Text} (hk : k ≠ nameKey) (val : Bytes) :
    ∃ v, decodeProp k val = some v := by
  unfold decodeProp
  split_ifs with htext
  · have hp : isProbablyAString val = true := htext.resolve_left hk
    have hascii : ∀ b ∈ val, b < 128 := by
      have h := of_decide_eq_true hp
      simpa using h.2.2.1
    obtain ⟨u, hu⟩ : ∃ u, utf8Decode val = some u :=
      ⟨_, utf8Decode_eq_some_iff.mpr (utf8_ascii hascii).symm⟩
    exact ⟨_, by rw [decodeNullTerminatedString, hu]; rfl⟩
  all_goals exact ⟨_, rfl⟩

/-- A name that looks like no number comes back. -/
theorem reread_name {t : Text} {b : Bytes} (h : encodeEntry (nameKey, .str t) = .ok b)
    (hnul : nul ∉ t) (ht : Plain t) : reread (nameKey, .str t) = .ok (nameKey, .str t) := by
  obtain ⟨len, val, hparse, -⟩ := encodeEntry_inv h
  obtain ⟨rfl, rfl⟩ := parsePropEntry_plain hparse ht
  have hname : nameKey = "name".toList ∨
      isProbablyAString (ljust (utf8 t) (roundUp4 (t.length + 1))) = true := Or.inl rfl
  unfold reread
  simp only [hparse, bind, Except.bind, decodeProp_of_text hname,
    decodeNullTerminatedString_utf8 hnul, Option.map_some]

/-- An entry comes back under its name. -/
theorem reread_eq_ok {e : Entry} {b : Bytes} (h : encodeEntry e = .ok b) (he : NulFree e)
    (hname : PlainName e) : ∃ v, reread e = .ok (e.1, v) := by
  obtain ⟨k, v⟩ := e
  by_cases hk : k = nameKey
  · subst hk
    match v, hname rfl with
    | .str t, hplain => exact ⟨_, reread_name h he.2 hplain⟩
  · obtain ⟨len, val, hparse, -⟩ := encodeEntry_inv h
    obtain ⟨w, hw⟩ := exists_decodeProp hk val
    refine ⟨w, ?_⟩
    unfold reread
    simp only [hparse, bind, Except.bind, hw]

/-! ## Trees -/

theorem Tree.le_weight {α : Type} (w : α → ℕ) {t : Tree α} {a : α} (h : a ∈ t.flatten) :
    w a ≤ t.weight w := by
  rw [Tree.weight_eq]
  have := List.single_le_sum (fun _ _ => Nat.zero_le _) _ (List.mem_map_of_mem (f := w) h)
  omega

/-- What `encode_node` wrote is read with the same nodes. -/
theorem decodeNode_encodeNode {d : Node} {out : Bytes} (h : encodeNode d = .ok out)
    (hout : out.length < 2 ^ 31) (hd : ∀ e ∈ d.flatten, NulFree e) :
    decodeNode out = (d.traverse reread).map fun t => (t.mapItems (toDict Prod.fst), []) := by
  obtain ⟨hcounted, hok, rfl⟩ := encodeNode_eq_ok_iff.mp h
  have hlen := Tree.length_layout entryBytes d
  have hdepth := d.depth_le_weight fun e => (entryBytes e).length
  have hcounts : ∀ n m (s s' : Bytes), n < 2 ^ 32 → m < 2 ^ 32 →
      Cursor.rest.stands (counts n m) s s' → decodeCounts s = .ok ((n, m), s') := by
    intro n m s s' hn hm hs
    have hpre : counts n m <+: s.drop 0 := ⟨s', hs.symm⟩
    have hdrop : s.drop 8 = s' := by rw [hs, ← length_counts n m, List.drop_left]
    rw [decodeCounts, unpackCounts_of_isPrefix hn hm hpre, hdrop]
  have hentry : ∀ e ∈ d.flatten, ∀ s s', Cursor.rest.stands (entryBytes e) s s' →
      decodeEntry s = (reread e).map fun e' => (e', s') := by
    intro e he s s' hs
    obtain ⟨b, hb⟩ := hok e he
    have hbytes : entryBytes e = b := by
      unfold entryBytes
      rw [hb]
      rfl
    have hle := Tree.le_weight (fun e => (entryBytes e).length) he
    rw [hbytes] at hs hle
    exact decodeEntry_of_encodeEntry hb (hd e he) (by omega) hs
  have hread : readTree Error.tooSmall decodeCounts decodeEntry ((d.map entryBytes).layout.length + 1)
      (d.map entryBytes).layout = (d.traverse reread).map fun t => (t, []) :=
    readTree_traverse hcounts hentry (by omega) hcounted (List.append_nil _).symm
  rw [decodeNode, hread]
  cases d.traverse reread <;> rfl

/-- The entry that comes back. -/
def rereadEntry (e : Entry) : Entry := ((reread e).toOption).getD e

theorem rereadEntry_key {e : Entry} {b : Bytes} (h : encodeEntry e = .ok b) (he : NulFree e)
    (hname : PlainName e) : (rereadEntry e).1 = e.1 := by
  obtain ⟨v, hv⟩ := reread_eq_ok h he hname
  unfold rereadEntry
  rw [hv]
  rfl

/-- A name comes back as it was. -/
theorem rereadEntry_name {e : Entry} {b : Bytes} (h : encodeEntry e = .ok b) (he : NulFree e)
    (hname : PlainName e) (hk : e.1 = nameKey) : rereadEntry e = e := by
  obtain ⟨k, v⟩ := e
  obtain rfl : k = nameKey := hk
  match v, hname rfl with
  | .str t, hplain =>
    unfold rereadEntry
    rw [reread_name h he.2 hplain]
    rfl

/-- Entries that come back under their names make the same dicts. -/
theorem allItems_map {f : Entry → Entry} {d : Node} (h : d.AllItems Keyed)
    (hf : ∀ e ∈ d.flatten, (f e).1 = e.1) :
    (d.map f).AllItems fun ps => toDict Prod.fst ps = ps := by
  induction d using Tree.induct with
  | node ps cs ih =>
    simp only [Tree.flatten_node, List.mem_append, List.mem_flatMap] at hf
    obtain ⟨hps, hcs⟩ := Tree.allItems_node.mp h
    rw [Tree.map_node, Tree.allItems_node]
    refine ⟨toDict_of_nodup ?_, fun c hc => ?_⟩
    · have hmap : ps.map (Prod.fst ∘ f) = ps.map Prod.fst :=
        List.map_congr_left fun e he => hf e (Or.inl he)
      rw [List.map_map, hmap]
      exact hps
    · obtain ⟨b, hb, rfl⟩ := List.mem_map.mp hc
      exact ih b hb (hcs b hb) fun e he => hf e (Or.inr ⟨b, hb, he⟩)

/-- Where the keys of each node are different, what `encode_node` wrote is read entry by entry. -/
theorem decodeNode_reread {d : Node} {out : Bytes} (h : encodeNode d = .ok out)
    (hout : out.length < 2 ^ 31) (hd : ∀ e ∈ d.flatten, NulFree e)
    (hname : ∀ e ∈ d.flatten, PlainName e) (hkeys : d.AllItems Keyed) :
    decodeNode out = .ok (d.map rereadEntry, []) := by
  obtain ⟨-, hok, -⟩ := encodeNode_eq_ok_iff.mp h
  have hreread : ∀ e ∈ d.flatten, ∃ v, reread e = .ok (e.1, v) := fun e he =>
    reread_eq_ok (hok e he).choose_spec (hd e he) (hname e he)
  have hentry : ∀ e ∈ d.flatten, (rereadEntry e).1 = e.1 := fun e he =>
    rereadEntry_key (hok e he).choose_spec (hd e he) (hname e he)
  have hiff : ∀ a b, reread a = .ok b ↔ (∃ c, reread a = .ok c) ∧ b = rereadEntry a := by
    intro a b
    unfold rereadEntry
    cases reread a with
    | error e => exact ⟨nofun, fun h => nomatch h.1.choose_spec⟩
    | ok c => simp [Except.toOption, eq_comm]
  have htraverse : d.traverse reread = .ok (d.map rereadEntry) :=
    (Tree.traverse_eq_ok_iff hiff).mpr ⟨fun e he => ⟨_, (hreread e he).choose_spec⟩, rfl⟩
  rw [decodeNode_encodeNode h hout hd, htraverse, Except.map,
    Tree.mapItems_eq_self (allItems_map hkeys hentry)]

end DarwinVm.Dt.Fixup
