import DarwinVm.Lib.CString

/-!
# UTF-8

Texts as lists of characters, their UTF-8 (`utf8`), and Python's two ways back: `utf8Decode` is
`decode("utf8")`, which refuses what is not UTF-8, and `utf8DecodeReplace` is
`decode("utf8", "replace")`, which puts one replacement character in the place of each longest
part that could have started a character.
-/

namespace DarwinVm

/-- A text, as the list of its characters. -/
abbrev Text := List Char

instance (priority := high) lawfulBEqText : LawfulBEq Text := inferInstance

/-- What holds of the characters of a text is decided on the text, not on all characters. -/
instance (priority := high) decidableForallMem (p : Char → Prop) [DecidablePred p] (t : Text) :
    Decidable (∀ c ∈ t, p c) := List.decidableBAll p t

instance (priority := high) decidableExistsMem (p : Char → Prop) [DecidablePred p] (t : Text) :
    Decidable (∃ c ∈ t, p c) := List.decidableBEx p t

/-- `t.encode("utf8")`. -/
def utf8 (t : Text) : Bytes := t.flatMap String.utf8EncodeChar

/-- The character that the bytes start with. -/
def utf8Head? (s : Bytes) : Option Char := s.toByteArray.utf8DecodeChar? 0

/-- The characters of at most `k` bytes, if they are UTF-8. -/
def utf8DecodeUpTo : ℕ → Bytes → Option Text
  | _, [] => some []
  | 0, _ :: _ => none
  | k + 1, b :: s => do
    let c ← utf8Head? (b :: s)
    let t ← utf8DecodeUpTo k ((b :: s).drop c.utf8Size)
    some (c :: t)

/-- `s.decode("utf8")`. -/
def utf8Decode (s : Bytes) : Option Text := utf8DecodeUpTo s.length s

/-- The NUL character. -/
def nul : Char := '\x00'

/-- U+FFFD, which stands for bytes that are not UTF-8. -/
def replacement : Char := '\uFFFD'

/-- The number of continuation bytes after a first byte, with the least and the greatest second
byte. No character starts with the other bytes. -/
def utf8Lead (b : UInt8) : ℕ × UInt8 × UInt8 :=
  if 0xC2 ≤ b ∧ b ≤ 0xDF then (1, 0x80, 0xBF)
  else if b = 0xE0 then (2, 0xA0, 0xBF)
  else if b = 0xED then (2, 0x80, 0x9F)
  else if 0xE1 ≤ b ∧ b ≤ 0xEF then (2, 0x80, 0xBF)
  else if b = 0xF0 then (3, 0x90, 0xBF)
  else if 0xF1 ≤ b ∧ b ≤ 0xF3 then (3, 0x80, 0xBF)
  else if b = 0xF4 then (3, 0x80, 0x8F)
  else (0, 0x80, 0xBF)

/-- What is left after up to `n` continuation bytes, the first of them between `lo` and `hi`. -/
def utf8SkipTail : ℕ → UInt8 → UInt8 → Bytes → Bytes
  | 0, _, _, s => s
  | _ + 1, _, _, [] => []
  | n + 1, lo, hi, b :: s => if lo ≤ b ∧ b ≤ hi then utf8SkipTail n 0x80 0xBF s else b :: s

/-- What is left of bytes that start with no character after the longest part of them that could
have started one. -/
def utf8SkipBad (b : UInt8) (s : Bytes) : Bytes :=
  utf8SkipTail (utf8Lead b).1 (utf8Lead b).2.1 (utf8Lead b).2.2 s

/-- The characters of at most `k` bytes, with replacement characters for what is not UTF-8. -/
def utf8ReplaceUpTo : ℕ → Bytes → Text
  | _, [] => []
  | 0, _ :: _ => []
  | k + 1, b :: s =>
    match utf8Head? (b :: s) with
    | some c => c :: utf8ReplaceUpTo k ((b :: s).drop c.utf8Size)
    | none => replacement :: utf8ReplaceUpTo k (utf8SkipBad b s)

/-- `s.decode("utf8", "replace")`. -/
def utf8DecodeReplace (s : Bytes) : Text := utf8ReplaceUpTo s.length s

@[simp] theorem utf8_nil : utf8 [] = [] := rfl

@[simp] theorem utf8_cons (c : Char) (t : Text) :
    utf8 (c :: t) = String.utf8EncodeChar c ++ utf8 t := rfl

/-- The text of a character's bytes starts with the character. -/
theorem utf8Head?_encode (c : Char) (s : Bytes) :
    utf8Head? (String.utf8EncodeChar c ++ s) = some c := by
  rw [utf8Head?, List.toByteArray_append, ByteArray.utf8DecodeChar?_utf8EncodeChar_append]

/-- A text that starts with a character starts with the character's bytes. -/
theorem eq_of_utf8Head? {s : Bytes} {c : Char} (h : utf8Head? s = some c) :
    s = String.utf8EncodeChar c ++ s.drop c.utf8Size := by
  obtain ⟨l, hl⟩ := ByteArray.exists_of_utf8DecodeChar?_eq_some h
  have hs : s = String.utf8EncodeChar c ++ l.data.toList := by
    have := congrArg (fun b : ByteArray => b.data.toList) hl
    simpa using this
  have hd : s.drop c.utf8Size = l.data.toList := by
    rw [hs, ← String.length_utf8EncodeChar, List.drop_left]
  rw [hd]
  exact hs

/-- A character takes at least one byte. -/
theorem length_utf8EncodeChar_pos (c : Char) : 0 < (String.utf8EncodeChar c).length := by
  rw [String.length_utf8EncodeChar]
  exact c.utf8Size_pos

/-- A text takes at least one byte for each character. -/
theorem length_le_length_utf8 (t : Text) : t.length ≤ (utf8 t).length := by
  induction t with
  | nil => simp
  | cons c t ih =>
    have := length_utf8EncodeChar_pos c
    rw [utf8_cons, List.length_append, List.length_cons]
    omega

/-- The bytes of a text with a first character, taken apart. -/
theorem utf8_cons_eq (c : Char) (t : Text) :
    ∃ b s, utf8 (c :: t) = b :: s ∧ utf8Head? (b :: s) = some c ∧
      (b :: s).drop c.utf8Size = utf8 t := by
  obtain ⟨b, l, hb⟩ := List.exists_cons_of_length_pos (length_utf8EncodeChar_pos c)
  have hs : utf8 (c :: t) = b :: (l ++ utf8 t) := by rw [utf8_cons, hb, List.cons_append]
  refine ⟨b, l ++ utf8 t, hs, ?_, ?_⟩
  · rw [← hs, utf8_cons, utf8Head?_encode]
  · rw [← hs, utf8_cons, ← String.length_utf8EncodeChar, List.drop_left]

theorem utf8DecodeUpTo_utf8 {k : ℕ} {t : Text} (h : t.length ≤ k) :
    utf8DecodeUpTo k (utf8 t) = some t := by
  induction t generalizing k with
  | nil => cases k <;> rfl
  | cons c t ih =>
    obtain ⟨b, s, hs, hc, ht⟩ := utf8_cons_eq c t
    obtain _ | k := k
    · simp at h
    · rw [hs, utf8DecodeUpTo, hc, Option.bind_eq_bind, Option.bind_some, ht]
      rw [ih (by simpa using h), Option.bind_eq_bind, Option.bind_some]

theorem utf8ReplaceUpTo_utf8 {k : ℕ} {t : Text} (h : t.length ≤ k) :
    utf8ReplaceUpTo k (utf8 t) = t := by
  induction t generalizing k with
  | nil => cases k <;> rfl
  | cons c t ih =>
    obtain ⟨b, s, hs, hc, ht⟩ := utf8_cons_eq c t
    obtain _ | k := k
    · simp at h
    · rw [hs, utf8ReplaceUpTo, hc]
      simp only [ht, ih (by simpa using h)]

/-- The bytes of a text are decoded to the text. -/
@[simp] theorem utf8Decode_utf8 (t : Text) : utf8Decode (utf8 t) = some t :=
  utf8DecodeUpTo_utf8 (length_le_length_utf8 t)

/-- Nothing is replaced in the bytes of a text. -/
@[simp] theorem utf8DecodeReplace_utf8 (t : Text) : utf8DecodeReplace (utf8 t) = t :=
  utf8ReplaceUpTo_utf8 (length_le_length_utf8 t)

theorem eq_of_utf8DecodeUpTo {k : ℕ} {s : Bytes} {t : Text} (h : utf8DecodeUpTo k s = some t) :
    s = utf8 t := by
  induction k generalizing s t with
  | zero =>
    cases s with
    | nil => cases h; rfl
    | cons b s => cases h
  | succ k ih =>
    cases s with
    | nil => cases h; rfl
    | cons b s =>
      simp only [utf8DecodeUpTo, Option.bind_eq_bind, Option.bind_eq_some_iff,
        Option.some.injEq] at h
      obtain ⟨c, hc, t, ht, rfl⟩ := h
      rw [utf8_cons, ← ih ht]
      exact eq_of_utf8Head? hc

/-- What is decoded are the bytes of the text. -/
theorem utf8Decode_eq_some_iff {s : Bytes} {t : Text} : utf8Decode s = some t ↔ s = utf8 t := by
  constructor
  · exact eq_of_utf8DecodeUpTo
  · rintro rfl
    exact utf8Decode_utf8 t

theorem utf8_injective : Function.Injective utf8 := by
  intro t t' h
  have := utf8Decode_utf8 t
  rw [h, utf8Decode_utf8] at this
  exact (Option.some.inj this).symm

/-! ## The NUL character and ASCII -/

/-- An ASCII byte is a character of its own. -/
theorem mem_utf8EncodeChar {c : Char} {b : UInt8} (hb : b.toNat < 128) :
    b ∈ String.utf8EncodeChar c ↔ c.toNat = b.toNat := by
  have hbyte : ∀ n, b = UInt8.ofNat n ↔ n % 256 = b.toNat := by
    intro n
    rw [← UInt8.toNat_inj, UInt8.toNat_ofNat', eq_comm]
  have hc : c.toNat = c.val.toNat := rfl
  rw [hc, String.utf8EncodeChar]
  split_ifs <;> simp only [List.mem_cons, List.not_mem_nil, or_false, hbyte] <;> omega

/-- A text has an ASCII byte if it has its character. -/
theorem mem_utf8 {t : Text} {b : UInt8} (hb : b.toNat < 128) :
    b ∈ utf8 t ↔ ∃ c ∈ t, c.toNat = b.toNat := by
  simp only [utf8, List.mem_flatMap, mem_utf8EncodeChar hb]

/-- A text has a zero byte if it has a NUL character. -/
theorem zero_mem_utf8 {t : Text} : 0 ∈ utf8 t ↔ nul ∈ t := by
  have hnul : ∀ c : Char, c.toNat = 0 ↔ c = nul := fun c => Char.toNat_inj (d := nul)
  rw [mem_utf8 (by decide)]
  simp only [UInt8.toNat_zero, hnul, exists_eq_right]

/-- ASCII bytes are the UTF-8 of as many characters. -/
theorem utf8_ascii {s : Bytes} (h : ∀ b ∈ s, b < 128) :
    utf8 (s.map fun b => Char.ofNat b.toNat) = s := by
  induction s with
  | nil => rfl
  | cons b s ih =>
    rw [List.forall_mem_cons] at h
    have hb : b.toNat < 128 := UInt8.lt_iff_toNat_lt.1 h.1
    have hvalid : b.toNat.isValidChar := Or.inl (by omega)
    have hval : (Char.ofNat b.toNat).val.toNat = b.toNat := by
      rw [Char.ofNat, dif_pos hvalid]
      rfl
    have henc : String.utf8EncodeChar (Char.ofNat b.toNat) = [b] := by
      rw [String.utf8EncodeChar, hval, if_pos (by omega), UInt8.ofNat_toNat]
    rw [List.map_cons, utf8_cons, henc, ih h.2]
    rfl

/-- A character takes one byte if it is ASCII. -/
theorem length_utf8EncodeChar_eq_one_iff (c : Char) :
    (String.utf8EncodeChar c).length = 1 ↔ c.toNat < 128 := by
  have hc : c.toNat = c.val.toNat := rfl
  rw [hc, String.utf8EncodeChar]
  split_ifs <;> simp <;> omega

/-- A text takes as many bytes as it has characters if it is ASCII. -/
theorem length_utf8_eq_iff {t : Text} : (utf8 t).length = t.length ↔ ∀ c ∈ t, c.toNat < 128 := by
  induction t with
  | nil => simp
  | cons c t ih =>
    have hc := length_utf8EncodeChar_pos c
    have ht := length_le_length_utf8 t
    rw [List.forall_mem_cons, ← ih, ← length_utf8EncodeChar_eq_one_iff, utf8_cons,
      List.length_append, List.length_cons]
    omega

end DarwinVm
