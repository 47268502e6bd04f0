import DarwinVm.Dt.Fixup
import Mathlib.Data.List.TakeWhile

/-!
# What the fixup's codec keeps

What `decode_node` and `encode_node` of `dt_fixup.py` make of a well-formed blob, with no edit in
between. The nodes stay as they are, a node keeps one property of each name, and each property is
made anew from what was guessed of it (`recode`). It comes back with the length word and the bytes
it had exactly if it is `Kept`.
-/

namespace DarwinVm.Dt.Fixup

/-- The value of a record as `decode_node` slices it, with the padding. -/
def padded (r : Record) : Bytes := ljust r.value (roundUp4 r.value.length)

/-- The entry of a record. -/
def decodeRecord (r : Record) : Except Error Entry :=
  match decodeProp r.name (padded r) with
  | some v => .ok (r.name, v)
  | none => .error .unicode

/-- The record that the codec makes of a record. -/
def recode (r : Record) : Except Error Bytes := do
  encodeEntry (← decodeRecord r)

/-- The value is taken for a text. -/
def Textual (r : Record) : Prop := r.name = "name".toList ∨ isProbablyAString (padded r) = true

/-- The text of a value of `n` bytes: a text of one character less and the NULs after it. It does
not look like a number or an absent value. -/
def IsText (t : Text) (n : ℕ) (p : Bytes) : Prop :=
  t.length + 1 = n ∧ p = ljust (utf8 t) (roundUp4 n) ∧ p.getLast? = some 0 ∧ nul ∉ t ∧
    ¬"u32:".toList <+: t ∧ ¬"u64:".toList <+: t ∧ t ≠ "<NULL>".toList

/-- The record comes back as it was: it is no placeholder, and its value is a text with its NULs,
or no text and of a length that needs no padding. -/
def Kept (r : Record) : Prop :=
  r.placeholder = false ∧
    ((Textual r ∧ ∃ t, IsText t r.value.length (padded r)) ∨
      ¬Textual r ∧ r.value.length % 4 = 0)

theorem length_padded (r : Record) : (padded r).length = roundUp4 r.value.length := by
  rw [padded, length_ljust, Nat.max_eq_right (le_roundUp4 _)]

/-! ## Entries -/

theorem decodeNullTerminatedString_utf8 {t : Text} (h : nul ∉ t) (n : ℕ) :
    decodeNullTerminatedString (ljust (utf8 t) n) = some t := by
  have hz : ∀ k, List.replicate k 0 = utf8 (List.replicate k nul) := by
    intro k
    induction k with
    | zero => rfl
    | succ k ih => rw [List.replicate_succ, List.replicate_succ, utf8_cons, ← ih]; rfl
  have hne : ∀ c ∈ t, decide (c ≠ nul) = true := by
    intro c hc
    rw [decide_eq_true_eq]
    rintro rfl
    exact h hc
  have happ : ∀ t t' : Text, utf8 t ++ utf8 t' = utf8 (t ++ t') := fun t t' => by
    simp only [utf8, List.flatMap_append]
  rw [decodeNullTerminatedString, ljust, hz, happ, utf8Decode_utf8, Option.map_some,
    List.takeWhile_append_of_pos hne]
  cases n - (utf8 t).length with
  | zero => rw [List.replicate_zero, List.takeWhile_nil, List.append_nil]
  | succ k => rw [List.replicate_succ, List.takeWhile_cons_of_neg (by simp), List.append_nil]

/-- The entry of a record is decoded with what is left after the record. -/
theorem decodeEntry_of_stands {r : Record} {s s' : Bytes}
    (h : Cursor.rest.stands r.bytes s s') :
    decodeEntry s = (decodeRecord r).map fun e => (e, s') := by
  have hpre : r.bytes <+: s.drop 0 := ⟨s', h.symm⟩
  have hn : (ljust (utf8 r.name) 32).length = 32 := by
    rw [length_ljust, Nat.max_eq_right r.length_name_lt.le]
  obtain ⟨hlt, -, hlen, hor⟩ := word_eq r.length_value_lt r.flags_eq
  rw [hor] at hlt hlen
  have hname : slice s 0 32 = ljust (utf8 r.name) 32 := by
    have := slice_of_isPrefix (a := []) (b := ljust (utf8 r.name) 32)
      (by simpa only [Record.bytes, List.append_assoc, List.nil_append] using hpre)
    rwa [hn, List.length_nil, Nat.add_zero, Nat.zero_add] at this
  have hw : unpackWord s 32 = some (r.value.length + r.flags) := by
    have := unpackWord_of_isPrefix (n := r.value.length + r.flags) (by omega) hpre
    rwa [hn, Nat.zero_add] at this
  have hval : slice s 36 (36 + roundUp4 r.value.length) = padded r := by
    have := slice_of_isPrefix
      (a := ljust (utf8 r.name) 32 ++ leBytes 4 (r.value.length + r.flags)) (b := padded r)
      (c := []) (by simpa only [Record.bytes, padded, List.append_nil] using hpre)
    rwa [List.length_append, hn, length_leBytes, length_padded] at this
  have hdrop : s.drop (36 + roundUp4 r.value.length) = s' := by
    have hl : r.bytes.length = 36 + roundUp4 r.value.length := by
      have hp := length_padded r
      rw [padded] at hp
      rw [Record.bytes, List.length_append, List.length_append, hn, length_leBytes, hp]
    rw [← hl, h, List.drop_left]
  rw [decodeEntry, hname, decodeNullTerminatedString_utf8 r.nul_notMem_name]
  simp only [hw, hlen, hval, hdrop, decodeRecord]
  cases decodeProp r.name (padded r) <;> rfl

/-- An entry with a name of a record is encoded if its value is. -/
theorem encodeEntry_eq_ok_iff {k : Text} (hk : (utf8 k).length < 32) {v : Value} {b : Bytes} :
    encodeEntry (k, v) = .ok b ↔ ∃ len val, parsePropEntry v = .ok (len, val) ∧
      val.length % 4 = 0 ∧ len < 2 ^ 32 ∧ b = ljust (utf8 k) 32 ++ leBytes 4 len ++ val := by
  have hlen := (length_le_length_utf8 k).trans_lt hk
  rw [encodeEntry]
  simp only [if_neg (not_le.2 hlen), getLast?_ljust hk, ne_eq, not_true, if_false, bind,
    bind_eq_ok, Prod.exists]
  refine exists_congr fun len => exists_congr fun val => and_congr_right fun _ => ?_
  have hout : (ljust (utf8 k) 32 ++ leBytes 4 len ++ val).length = 36 + val.length := by
    rw [List.length_append, List.length_append, length_ljust, Nat.max_eq_right hk.le,
      length_leBytes]
  split_ifs with h₁ h₂ h₃
  · exact ⟨nofun, fun h => absurd h.2.1 (not_lt.2 h₂)⟩
  · rw [Except.ok.injEq]
    exact ⟨fun h => ⟨h₁, not_le.1 h₂, h.symm⟩, fun h => h.2.2.symm⟩
  · rw [hout] at h₃
    omega
  · exact ⟨nofun, fun h => absurd h.1 h₁⟩

theorem recode_eq_ok_iff {r : Record} {b : Bytes} :
    recode r = .ok b ↔ ∃ v len val, decodeProp r.name (padded r) = some v ∧
      parsePropEntry v = .ok (len, val) ∧ val.length % 4 = 0 ∧ len < 2 ^ 32 ∧
        b = ljust (utf8 r.name) 32 ++ leBytes 4 len ++ val := by
  rw [recode, decodeRecord]
  cases decodeProp r.name (padded r) with
  | none => exact ⟨nofun, fun ⟨_, _, _, h, _⟩ => nomatch h⟩
  | some v =>
    simp only [bind, Except.bind, encodeEntry_eq_ok_iff r.length_name_lt, Option.some.injEq,
      exists_eq_left', exists_and_left]

/-! ## Kept records -/

/-- A word that spells bytes of its size is packed into them. -/
theorem packText_pyHex (b : Bytes) : packText b.length (pyHex (leNat b)) = .ok (b.length, b) := by
  have hlt := leNat_lt b
  have hpack : packInt b.length (leNat b) = some b := by
    rw [packInt, if_pos ⟨by omega, by exact_mod_cast hlt⟩, Int.toNat_natCast, leBytes_leNat]
  simp only [packText, int0_pyHex, hpack]

/-- What is no text is encoded with its padding. -/
theorem parsePropEntry_of_not_text {name : Text} {p : Bytes} (hname : name ≠ "name".toList)
    (hp : isProbablyAString p = false) (h4 : p.length % 4 = 0) :
    ∃ v, decodeProp name p = some v ∧ parsePropEntry v = .ok (p.length, p) := by
  have hstart : ∀ {s t : Text}, s <+: s ++ t := fun {s t} => List.prefix_append s t
  rw [decodeProp, if_neg (by rw [hp]; exact fun h => h.elim hname nofun)]
  split_ifs with h₀ h₁ h₂
  · refine ⟨_, rfl, ?_⟩
    rw [List.length_eq_zero_iff] at h₀
    subst h₀
    rfl
  · refine ⟨_, rfl, ?_⟩
    have := packText_pyHex p
    rw [h₁] at this ⊢
    rw [parsePropEntry, if_pos hstart]
    exact this
  · refine ⟨_, rfl, ?_⟩
    have := packText_pyHex p
    rw [h₂] at this ⊢
    rw [parsePropEntry, if_neg (by simp), if_pos hstart]
    exact this
  · refine ⟨_, rfl, ?_⟩
    rw [parsePropEntry, roundUp4_of_mod h4, ljust_of_length_le le_rfl]

/-- The text that a value is taken for. -/
theorem decodeProp_of_text {name : Text} {p : Bytes}
    (h : name = "name".toList ∨ isProbablyAString p = true) :
    decodeProp name p = (decodeNullTerminatedString p).map .str := by
  rw [decodeProp, if_pos h]

/-- The text before the first NUL of some bytes. -/
theorem utf8_prefix_of_decode {p : Bytes} {t : Text}
    (h : decodeNullTerminatedString p = some t) : utf8 t <+: p ∧ nul ∉ t := by
  obtain ⟨u, hu, rfl⟩ := Option.map_eq_some_iff.1 h
  rw [utf8Decode_eq_some_iff] at hu
  subst hu
  constructor
  · refine ⟨utf8 (u.dropWhile (· ≠ nul)), ?_⟩
    rw [utf8, utf8, ← List.flatMap_append, List.takeWhile_append_dropWhile, utf8]
  · intro hmem
    have := List.mem_takeWhile_imp hmem
    simp at this

/-- A text that looks like a number has another length or other bytes than the number. -/
theorem not_packText {t : Text} {p : Bytes} {k : ℕ} {pre : Text} (hpre : pre <+: t)
    (hk : k = 4 ∧ pre = "u32:".toList ∨ k = 8 ∧ pre = "u64:".toList) (ht : utf8 t <+: p)
    (hp : p.length = k) : packText k (t.drop 4) ≠ .ok (k, p) := by
  obtain ⟨s, rfl⟩ := hpre
  intro h
  have hdrop : (pre ++ s).drop 4 = s := by rcases hk with ⟨-, rfl⟩ | ⟨-, rfl⟩ <;> rfl
  have happ : utf8 (pre ++ s) = utf8 pre ++ utf8 s := List.flatMap_append
  have hlen := ht.length_le
  have hs := length_le_length_utf8 s
  rw [happ, List.length_append] at hlen
  rw [hdrop, packText] at h
  rcases hk with ⟨rfl, rfl⟩ | ⟨rfl, rfl⟩
  · have h4 : (utf8 "u32:".toList).length = 4 := by decide
    obtain rfl : s = [] := List.length_eq_zero_iff.1 (by omega)
    cases h
  · have h4 : (utf8 "u64:".toList).length = 4 := by decide
    cases hn : int0 s with
    | none => rw [hn] at h; cases h
    | some n =>
      have hlt := int0_lt hn
      rw [hn] at h
      cases hb : packInt 8 n with
      | none => simp only [hb] at h; cases h
      | some b =>
        simp only [hb, Except.ok.injEq, Prod.mk.injEq, true_and] at h
        subst h
        rw [packInt] at hb
        split_ifs at hb with hrange
        cases hb
        have hsmall : n.toNat < 2 ^ 16 := by
          have : (16 : ℤ) ^ s.length ≤ 16 ^ 4 :=
            pow_le_pow_right₀ (by omega) (by omega)
          omega
        obtain ⟨r, hr⟩ := ht
        have hval := leNat_leBytes_of_lt (k := 8) (n := n.toNat) (by omega)
        rw [← hr, happ] at hval
        have hbytes : utf8 "u64:".toList = [0x75, 0x36, 0x34, 0x3A] := by decide
        rw [hbytes] at hval
        simp only [List.cons_append, List.nil_append, leNat] at hval
        have e₀ : (0x75 : UInt8).toNat = 0x75 := rfl
        have e₁ : (0x36 : UInt8).toNat = 0x36 := rfl
        have e₂ : (0x34 : UInt8).toNat = 0x34 := rfl
        have e₃ : (0x3A : UInt8).toNat = 0x3A := rfl
        omega

/-- The record that the codec makes is the record itself if it has its length word and its
bytes. -/
theorem bytes_eq_iff (r : Record) {len : ℕ} {val : Bytes} (hlen : len < 2 ^ 32) :
    ljust (utf8 r.name) 32 ++ leBytes 4 len ++ val = r.bytes ↔
      len = r.value.length + r.flags ∧ val = padded r := by
  have hword := r.word_lt
  rw [Record.bytes, padded, List.append_assoc, List.append_assoc, List.append_cancel_left_eq]
  constructor
  · intro h
    obtain ⟨hw, hv⟩ := List.append_inj h (by rw [length_leBytes, length_leBytes])
    have := congrArg leNat hw
    rw [leNat_leBytes_of_lt (by omega), leNat_leBytes_of_lt (by omega)] at this
    exact ⟨this, hv⟩
  · rintro ⟨rfl, rfl⟩
    rfl

theorem recode_eq_bytes_iff {r : Record} :
    recode r = .ok r.bytes ↔ ∃ v, decodeProp r.name (padded r) = some v ∧
      parsePropEntry v = .ok (r.value.length + r.flags, padded r) := by
  have h4 : (padded r).length % 4 = 0 := by rw [length_padded, roundUp4_mod]
  have hlt := r.word_lt
  rw [recode_eq_ok_iff]
  constructor
  · rintro ⟨v, len, val, hv, hparse, -, hlen, hb⟩
    obtain ⟨rfl, rfl⟩ := (bytes_eq_iff r hlen).1 hb.symm
    exact ⟨v, hv, hparse⟩
  · rintro ⟨v, hv, hparse⟩
    exact ⟨v, _, _, hv, hparse, h4, hlt, ((bytes_eq_iff r hlt).2 ⟨rfl, rfl⟩).symm⟩

/-- The flags are too high a bit to come from a length near that of the value. -/
theorem flags_eq_zero {r : Record} {k : ℕ} (hk : k ≤ r.value.length + 8)
    (h : k = r.value.length + r.flags) : r.flags = 0 := by
  rcases r.flags_eq with hf | hf
  · exact hf
  · rw [hf, placeholderBit] at h
    omega

/-- A text is encoded as its value was exactly if it is the text of the value. -/
theorem parsePropEntry_text_iff {r : Record} {t : Text} (ht : utf8 t <+: padded r)
    (hnul : nul ∉ t) :
    parsePropEntry (.str t) = .ok (r.value.length + r.flags, padded r) ↔
      r.placeholder = false ∧ IsText t r.value.length (padded r) := by
  have hround := roundUp4_lt r.value.length
  have hlp := length_padded r
  have hchars := (length_le_length_utf8 t).trans ht.length_le
  have hnum : ∀ {k : ℕ} {pre : Text}, pre <+: t →
      (k = 4 ∧ pre = "u32:".toList ∨ k = 8 ∧ pre = "u64:".toList) →
      packText k (t.drop 4) ≠ .ok (r.value.length + r.flags, padded r) := by
    intro k pre hpre hk h
    have hklen : r.value.length + r.flags = k := by
      rw [packText] at h
      cases hn : int0 (t.drop 4) with
      | none => rw [hn] at h; cases h
      | some n =>
        rw [hn] at h
        cases hb : packInt k n with
        | none => simp only [hb] at h; cases h
        | some b =>
          simp only [hb, Except.ok.injEq, Prod.mk.injEq] at h
          exact h.1.symm
    have hpl : (padded r).length = k := by
      have hf := flags_eq_zero (by omega) hklen.symm
      rw [hf, Nat.add_zero] at hklen
      rw [hlp, hklen]
      exact roundUp4_of_mod (by omega)
    rw [hklen] at h
    exact not_packText hpre hk ht hpl h
  rw [parsePropEntry]
  dsimp only
  split_ifs with h₁ h₂ h₃ h₄
  · exact ⟨fun h => absurd h (hnum h₁ (Or.inl ⟨rfl, rfl⟩)), fun h => absurd h₁ h.2.2.2.2.2.1⟩
  · exact ⟨fun h => absurd h (hnum h₂ (Or.inr ⟨rfl, rfl⟩)), fun h => absurd h₂ h.2.2.2.2.2.2.1⟩
  · refine ⟨fun h => ?_, fun h => absurd h₃ h.2.2.2.2.2.2.2⟩
    simp only [Except.ok.injEq, Prod.mk.injEq] at h
    subst h₃
    rw [← h.2] at ht
    exact absurd ht.length_le (by decide)
  · refine ⟨nofun, fun h => ?_⟩
    obtain ⟨-, hn, hp, hlast, -⟩ := h
    rw [hn, ← hp] at h₄
    exact absurd hlast h₄
  · simp only [Except.ok.injEq, Prod.mk.injEq]
    rw [← r.flags_eq_zero_iff]
    constructor
    · rintro ⟨hlen, hp⟩
      have hf := flags_eq_zero (by omega) hlen
      have hn : t.length + 1 = r.value.length := by omega
      rw [hn] at hp h₄
      rw [hp] at h₄
      exact ⟨hf, hn, hp.symm, not_not.1 h₄, hnul, h₁, h₂, h₃⟩
    · rintro ⟨hf, hn, hp, -⟩
      rw [hn]
      exact ⟨by omega, hp.symm⟩

/-- The codec gives a record back as it was exactly if the record is kept. -/
theorem recode_eq_bytes_iff_kept (r : Record) : recode r = .ok r.bytes ↔ Kept r := by
  have h4 : (padded r).length % 4 = 0 := by rw [length_padded, roundUp4_mod]
  rw [recode_eq_bytes_iff, Kept]
  by_cases htext : Textual r
  · rw [decodeProp_of_text htext]
    simp only [htext, true_and, not_true, false_and, or_false]
    constructor
    · rintro ⟨v, hv, hparse⟩
      obtain ⟨t, ht, rfl⟩ := Option.map_eq_some_iff.1 hv
      obtain ⟨hpre, hnul⟩ := utf8_prefix_of_decode ht
      obtain ⟨hf, his⟩ := (parsePropEntry_text_iff hpre hnul).1 hparse
      exact ⟨hf, t, his⟩
    · rintro ⟨hf, t, his⟩
      have hp := his.2.1
      have hnul := his.2.2.2.1
      refine ⟨.str t, by rw [hp, decodeNullTerminatedString_utf8 hnul]; rfl, ?_⟩
      refine (parsePropEntry_text_iff ?_ hnul).2 ⟨hf, his⟩
      rw [hp]
      exact List.prefix_append _ _
  · have hno := not_or.1 htext
    obtain ⟨v, hv, hparse⟩ := parsePropEntry_of_not_text hno.1
      (Bool.eq_false_iff.2 hno.2) h4
    simp only [hv, htext, not_false_eq_true, false_and, false_or, true_and, Option.some.injEq,
      exists_eq_left', hparse, Except.ok.injEq, Prod.mk.injEq, and_true, length_padded]
    rw [← r.flags_eq_zero_iff]
    have hround := roundUp4_lt r.value.length
    have hle := le_roundUp4 r.value.length
    have hmod := roundUp4_mod r.value.length
    constructor
    · intro h
      have hf := flags_eq_zero (by omega) h
      omega
    · rintro ⟨hf, hn⟩
      rw [roundUp4_of_mod hn, hf, Nat.add_zero]

/-- The value is no text, or an ASCII text that does not look like a number. -/
def Ordinary (r : Record) : Prop :=
  Textual r → (∀ b ∈ r.value, b < 128) ∧ ¬utf8 "u32:".toList <+: r.value ∧
    ¬utf8 "u64:".toList <+: r.value

/-- Bytes that no zero is among start the value if they start the padded value. -/
theorem prefix_value {r : Record} {s : Bytes} (hs : 0 ∉ s) (h : s <+: padded r) :
    s <+: r.value := by
  rw [padded, ljust] at h
  rcases List.prefix_or_prefix_of_prefix h (List.prefix_append _ _) with hle | ⟨t, rfl⟩
  · exact hle
  · rw [List.prefix_append_right_inj] at h
    cases t with
    | nil => rw [List.append_nil]
    | cons b t =>
      obtain ⟨u, hu⟩ := h
      have hb : b ∈ List.replicate (roundUp4 r.value.length - r.value.length) 0 := by
        rw [← hu]
        exact List.mem_append_left _ List.mem_cons_self
      rw [List.eq_of_mem_replicate hb] at hs
      exact absurd (List.mem_append_right _ List.mem_cons_self) hs

/-- An ordinary record is encoded again. -/
theorem recode_ordinary {r : Record} (h : Ordinary r) : ∃ b, recode r = .ok b := by
  have hlp := length_padded r
  have hround := roundUp4_lt r.value.length
  have hlen := r.length_value_lt
  rw [placeholderBit] at hlen
  have h4 : (padded r).length % 4 = 0 := by rw [hlp, roundUp4_mod]
  suffices ∃ v len val, decodeProp r.name (padded r) = some v ∧
      parsePropEntry v = .ok (len, val) ∧ val.length % 4 = 0 ∧ len < 2 ^ 32 by
    obtain ⟨v, len, val, hv, hparse, hval, hlt⟩ := this
    exact ⟨_, recode_eq_ok_iff.2 ⟨v, len, val, hv, hparse, hval, hlt, rfl⟩⟩
  by_cases htext : Textual r
  · obtain ⟨hascii, h32, h64⟩ := h htext
    have hp : ∀ b ∈ padded r, b < 128 := by
      intro b hb
      rcases List.mem_append.1 hb with hb | hb
      · exact hascii b hb
      · rw [List.eq_of_mem_replicate hb]
        decide
    have hutf8 := utf8_ascii hp
    generalize hu : (padded r).map (fun b => Char.ofNat b.toNat) = u at hutf8
    have hdec : decodeNullTerminatedString (padded r) = some (u.takeWhile (· ≠ nul)) := by
      rw [decodeNullTerminatedString, ← hutf8, utf8Decode_utf8, Option.map_some]
    generalize ht : u.takeWhile (· ≠ nul) = t at hdec
    obtain ⟨hpre, hnul⟩ := utf8_prefix_of_decode hdec
    have hbytes : (utf8 t).length = t.length := by
      have htu : t <+: u := ht ▸ List.takeWhile_prefix _
      have hlen_u : u.length = (utf8 u).length := by rw [hutf8, ← hu, List.length_map]
      obtain ⟨w, rfl⟩ := htu
      have ht := length_le_length_utf8 t
      have hw := length_le_length_utf8 w
      rw [utf8, List.flatMap_append, ← utf8, ← utf8, List.length_append, List.length_append]
        at hlen_u
      omega
    have hno : ∀ s : Text, nul ∉ s → ¬utf8 s <+: r.value → ¬s <+: t := by
      rintro s hs hnot ⟨w, rfl⟩
      refine hnot (prefix_value (fun h0 => hs (zero_mem_utf8.1 h0)) ?_)
      refine List.IsPrefix.trans ?_ hpre
      rw [utf8, utf8, List.flatMap_append]
      exact List.prefix_append _ _
    have hle := hpre.length_le
    have hle4 := le_roundUp4 (t.length + 1)
    refine ⟨.str t, ?_⟩
    rw [decodeProp_of_text htext, hdec, parsePropEntry, if_neg (hno _ (by decide) h32),
      if_neg (hno _ (by decide) h64)]
    split_ifs
    · exact ⟨0, [], rfl, rfl, rfl, by omega⟩
    · refine ⟨t.length + 1, ljust (utf8 t) (roundUp4 (t.length + 1)), rfl, ?_, ?_, by omega⟩
      · exact if_neg (not_not.2 (getLast?_ljust (by omega)))
      · rw [length_ljust, Nat.max_eq_right (by omega), roundUp4_mod]
  · have hno := not_or.1 htext
    obtain ⟨v, hv, hparse⟩ := parsePropEntry_of_not_text hno.1 (Bool.eq_false_iff.2 hno.2) h4
    exact ⟨v, _, _, hv, hparse, h4, by omega⟩

/-! ## Well-formed blobs -/

/-- The records that a node keeps, one of each name. -/
def merged (d : DeviceTree) : Tree Record := d.tree.mapItems (toDict Record.name)

/-- The bytes that the codec makes of a record. -/
def recoded (r : Record) : Bytes := (recode r).toOption.getD []

/-- The record has an entry. -/
def Decodable (r : Record) : Prop := (decodeProp r.name (padded r)).isSome

/-- The entry of a decodable record. -/
def entryOf (r : Record) : Entry := (r.name, (decodeProp r.name (padded r)).getD (.bytes []))

theorem decodeRecord_eq_ok_iff (r : Record) (e : Entry) :
    decodeRecord r = .ok e ↔ Decodable r ∧ e = entryOf r := by
  rw [decodeRecord, Decodable, entryOf]
  cases decodeProp r.name (padded r) with
  | none => exact ⟨nofun, fun h => nomatch h.1⟩
  | some v => rw [Except.ok.injEq, Option.isSome_some, Option.getD_some, eq_comm]; simp

theorem encodeEntry_entryOf {r : Record} (h : Decodable r) :
    encodeEntry (entryOf r) = recode r := by
  rw [recode, (decodeRecord_eq_ok_iff r _).2 ⟨h, rfl⟩]
  rfl

theorem map_upsert {α β : Type} {key : α → Text} {key' : β → Text} {f : α → β}
    (h : ∀ a, key' (f a) = key a) (l : List α) (a : α) :
    (upsert key l a).map f = upsert key' (l.map f) (f a) := by
  induction l with
  | nil => rfl
  | cons b l ih =>
    rw [upsert, List.map_cons, upsert, h, h]
    split_ifs
    · rfl
    · rw [List.map_cons, ih]

theorem map_toDict {α β : Type} {key : α → Text} {key' : β → Text} {f : α → β}
    (h : ∀ a, key' (f a) = key a) (l : List α) :
    (toDict key l).map f = toDict key' (l.map f) := by
  have hfold : ∀ l acc : List α, (l.foldl (upsert key) acc).map f =
      (l.map f).foldl (upsert key') (acc.map f) := by
    intro l
    induction l with
    | nil => intro acc; rfl
    | cons a l ih =>
      intro acc
      rw [List.foldl_cons, ih, map_upsert h, List.map_cons, List.foldl_cons]
  exact hfold l []

theorem length_upsert_le {α : Type} (key : α → Text) (l : List α) (a : α) :
    (upsert key l a).length ≤ l.length + 1 := by
  induction l with
  | nil => rfl
  | cons b l ih =>
    rw [upsert]
    split_ifs
    · simp
    · simpa using ih

theorem mem_upsert {α : Type} {key : α → Text} {l : List α} {a b : α}
    (h : b ∈ upsert key l a) : b = a ∨ b ∈ l := by
  induction l with
  | nil => exact Or.inl (List.mem_singleton.1 h)
  | cons c l ih =>
    rw [upsert] at h
    split_ifs at h
    · rcases List.mem_cons.1 h with h | h
      · exact Or.inl h
      · exact Or.inr (List.mem_cons_of_mem c h)
    · rcases List.mem_cons.1 h with h | h
      · exact Or.inr (h ▸ List.mem_cons_self)
      · exact (ih h).imp id (List.mem_cons_of_mem c)

/-- A dict has no more entries than are put into it, and no others. -/
theorem toDict_spec {α : Type} (key : α → Text) (l : List α) :
    (toDict key l).length ≤ l.length ∧ toDict key l ⊆ l := by
  induction l using List.reverseRecOn with
  | nil => exact ⟨le_rfl, List.Subset.refl _⟩
  | append_singleton l a ih =>
    rw [toDict, List.foldl_append, List.foldl_cons, List.foldl_nil, ← toDict]
    constructor
    · have := length_upsert_le key (toDict key l) a
      rw [List.length_append, List.length_singleton]
      omega
    · intro b hb
      rcases mem_upsert hb with rfl | hb
      · simp
      · exact List.mem_append_left _ (ih.2 hb)

/-- Entries of different names are put into a dict in order. -/
theorem toDict_of_nodup {α : Type} {key : α → Text} {l : List α} (h : (l.map key).Nodup) :
    toDict key l = l := by
  have hnew : ∀ {l : List α} {a : α}, key a ∉ l.map key → upsert key l a = l ++ [a] := by
    intro l a ha
    induction l with
    | nil => rfl
    | cons b l ih =>
      rw [List.map_cons, List.mem_cons, not_or] at ha
      rw [upsert, if_neg (Ne.symm ha.1), ih ha.2, List.cons_append]
  induction l using List.reverseRecOn with
  | nil => rfl
  | append_singleton l a ih =>
    rw [List.map_append, List.map_singleton, List.nodup_append] at h
    have ha : key a ∉ l.map key := fun hmem => h.2.2 _ hmem _ List.mem_cons_self rfl
    rw [toDict, List.foldl_append, List.foldl_cons, List.foldl_nil, ← toDict, ih h.1, hnew ha]

/-- The codec reads the entries of the records and puts them into dicts. -/
theorem decodeNode_blob (d : DeviceTree) :
    decodeNode d.blob = (d.tree.traverse decodeRecord).map fun t =>
      (t.mapItems (toDict Prod.fst), []) := by
  have hdepth := d.tree.depth_le_weight fun r => r.bytes.length
  rw [← Tree.length_layout] at hdepth
  have hcounts : ∀ n m (s s' : Bytes), n < 2 ^ 32 → m < 2 ^ 32 →
      Cursor.rest.stands (counts n m) s s' → decodeCounts s = .ok ((n, m), s') := by
    intro n m s s' hn hm hs
    have hpre : counts n m <+: s.drop 0 := ⟨s', hs.symm⟩
    have hdrop : s.drop 8 = s' := by rw [hs, ← length_counts n m, List.drop_left]
    rw [decodeCounts, unpackCounts_of_isPrefix hn hm hpre, hdrop]
  have hread : readTree Error.tooSmall decodeCounts decodeEntry (d.blob.length + 1) d.blob =
      (d.tree.traverse decodeRecord).map fun t => (t, []) :=
    readTree_traverse hcounts (fun r _ _ _ => decodeEntry_of_stands (r := r))
      (by rw [DeviceTree.blob]; omega) d.counted (List.append_nil _).symm
  rw [decodeNode, hread]
  cases d.tree.traverse decodeRecord <;> rfl

theorem counted_merged (d : DeviceTree) : (merged d).Counted :=
  d.counted.mapItems fun l => (toDict_spec _ l).1

/-- What the codec writes, and when it does. -/
theorem codec_eq_ok_iff (d : DeviceTree) (out : Bytes) :
    codec d.blob = .ok out ↔ (∀ r ∈ d.tree.flatten, Decodable r) ∧
      (∀ r ∈ (merged d).flatten, ∃ b, recode r = .ok b) ∧
        out = ((merged d).map recoded).layout := by
  have htraverse : ∀ t, d.tree.traverse decodeRecord = .ok t ↔
      (∀ r ∈ d.tree.flatten, Decodable r) ∧ t = d.tree.map entryOf := fun t =>
    Tree.traverse_eq_ok_iff decodeRecord_eq_ok_iff
  have hnode : (d.tree.map entryOf).mapItems (toDict Prod.fst) = (merged d).map entryOf :=
    Tree.mapItems_map (fun l => map_toDict (fun _ => rfl) l) d.tree
  have hencode : ∀ e b, encodeEntry e = .ok b ↔
      (∃ b, encodeEntry e = .ok b) ∧ b = (encodeEntry e).toOption.getD [] := by
    intro e b
    cases encodeEntry e with
    | error err => exact ⟨nofun, fun h => nomatch h.1.choose_spec⟩
    | ok c => simp [Except.toOption, eq_comm]
  have hmem : ∀ r ∈ (merged d).flatten, r ∈ d.tree.flatten := fun r hr =>
    Tree.flatten_mapItems_subset (fun l => (toDict_spec _ l).2) d.tree hr
  simp only [codec, decodeNode_blob, bind, bind_eq_ok, Prod.exists]
  constructor
  · rintro ⟨n, rest, hn, hout⟩
    cases ht : d.tree.traverse decodeRecord with
    | error e => rw [ht] at hn; cases hn
    | ok t =>
      rw [ht] at hn
      cases hn
      obtain ⟨hdec, rfl⟩ := (htraverse t).1 ht
      rw [hnode, encodeNode, writeTree_eq_ok_iff hencode, Tree.flatten_map, Tree.map_map] at hout
      obtain ⟨-, hall, rfl⟩ := hout
      refine ⟨hdec, fun r hr => ?_, ?_⟩
      · obtain ⟨b, hb⟩ := hall _ (List.mem_map_of_mem hr)
        exact ⟨b, by rw [← encodeEntry_entryOf (hdec r (hmem r hr)), hb]⟩
      · congr 1
        refine Tree.map_congr fun r hr => ?_
        rw [recoded, encodeEntry_entryOf (hdec r (hmem r hr))]
  · rintro ⟨hdec, hrec, rfl⟩
    refine ⟨_, _, by rw [(htraverse _).2 ⟨hdec, rfl⟩]; rfl, ?_⟩
    rw [hnode, encodeNode, writeTree_eq_ok_iff hencode, Tree.flatten_map, Tree.map_map]
    refine ⟨Tree.counted_map.2 (counted_merged d), ?_, ?_⟩
    · rintro _ he
      obtain ⟨r, hr, rfl⟩ := List.mem_map.1 he
      obtain ⟨b, hb⟩ := hrec r hr
      exact ⟨b, by rw [encodeEntry_entryOf (hdec r (hmem r hr)), hb]⟩
    · congr 1
      refine Tree.map_congr fun r hr => ?_
      rw [recoded, encodeEntry_entryOf (hdec r (hmem r hr))]

/-- What the codec does to a well-formed blob, with no edit in between. It writes the nodes in
their places, with one property of each name in each node, and each property as it makes it anew. A
property keeps its name. It comes back with its length word and its bytes exactly if it is kept, and
it comes back at all if it is ordinary. -/
theorem codec_recodes (d : DeviceTree) :
    (∀ out, codec d.blob = .ok out ↔ (∀ r ∈ d.tree.flatten, Decodable r) ∧
      (∀ r ∈ (merged d).flatten, ∃ b, recode r = .ok b) ∧
        out = ((merged d).map recoded).layout) ∧
    (d.tree.AllItems (fun rs => (rs.map Record.name).Nodup) → merged d = d.tree) ∧
    ∀ r ∈ d.tree.flatten, (∀ b, recode r = .ok b → b.take 32 = ljust (utf8 r.name) 32) ∧
      (recode r = .ok r.bytes ↔ Kept r) ∧ (Ordinary r → Decodable r ∧ ∃ b, recode r = .ok b) := by
  refine ⟨codec_eq_ok_iff d, fun h => ?_, fun r _ => ⟨fun b hb => ?_, recode_eq_bytes_iff_kept r,
    fun h => ?_⟩⟩
  · exact Tree.mapItems_eq_self (h.mono fun l => toDict_of_nodup)
  · obtain ⟨v, len, val, -, -, -, -, rfl⟩ := recode_eq_ok_iff.1 hb
    have hn : (ljust (utf8 r.name) 32).length = 32 := by
      rw [length_ljust, Nat.max_eq_right r.length_name_lt.le]
    rw [List.append_assoc, List.take_append_of_le_length hn.ge, List.take_of_length_le hn.le]
  · obtain ⟨b, hb⟩ := recode_ordinary h
    obtain ⟨v, len, val, hv, -⟩ := recode_eq_ok_iff.1 hb
    exact ⟨by rw [Decodable, hv]; rfl, b, hb⟩

/-- A root whose `random-seed` is letters to its end. -/
def randomSeed : DeviceTree where
  tree := .node [⟨"random-seed".toList, false, [65, 65, 65, 65], by decide, by decide,
    by decide⟩] []
  counted := by simp

/-- The letters come back with a NUL that they did not have. -/
theorem codec_recodes_random_seed : ¬∀ d : DeviceTree, codec d.blob = .ok d.blob := by
  intro h
  have hout := h randomSeed
  revert hout
  decide +kernel

end DarwinVm.Dt.Fixup
