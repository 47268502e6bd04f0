import DarwinVm.Lib.Utf8

/-!
# Base64

The text of bytes in base64 (`base64Encode`), three bytes in four characters and padding at the end
only, and the bytes of such a text (`base64Decode`). A text is decoded to some bytes if it is their
encoding (`base64Decode_eq_some_iff`).
-/

namespace DarwinVm

/-- The characters for the numbers below 64. -/
def base64Alphabet : Text :=
  "ABCDEFGHIJKLMNOPQRSTUVWXYZabcdefghijklmnopqrstuvwxyz0123456789+/".toList

/-- The character for six bits. -/
def sextetChar (n : ℕ) : Char := base64Alphabet.getD n '='

/-- The six bits for a character. -/
def sextet? (c : Char) : Option ℕ := base64Alphabet.idxOf? c

/-- `base64.b64encode`. -/
def base64Encode : Bytes → Text
  | [] => []
  | [a] => [sextetChar (a.toNat / 4), sextetChar (a.toNat % 4 * 16), '=', '=']
  | [a, b] =>
    [sextetChar (a.toNat / 4), sextetChar (a.toNat % 4 * 16 + b.toNat / 16),
      sextetChar (b.toNat % 16 * 4), '=']
  | a :: b :: c :: s =>
    sextetChar (a.toNat / 4) :: sextetChar (a.toNat % 4 * 16 + b.toNat / 16) ::
      sextetChar (b.toNat % 16 * 4 + c.toNat / 64) :: sextetChar (c.toNat % 64) :: base64Encode s

/-- The bytes of a base64 text. The padding stands at the end, and the bits in front of it are zero. -/
def base64Decode : Text → Option Bytes
  | [] => some []
  | x :: y :: z :: w :: t => do
    let a ← sextet? x
    let b ← sextet? y
    if w = '=' then
      if t ≠ [] then none
      else if z = '=' then
        if b % 16 = 0 then some [UInt8.ofNat (a * 4 + b / 16)] else none
      else
        let c ← sextet? z
        if c % 4 = 0 then
          some [UInt8.ofNat (a * 4 + b / 16), UInt8.ofNat (b % 16 * 16 + c / 4)]
        else none
    else
      let c ← sextet? z
      let d ← sextet? w
      let s ← base64Decode t
      some (UInt8.ofNat (a * 4 + b / 16) :: UInt8.ofNat (b % 16 * 16 + c / 4) ::
        UInt8.ofNat (c % 4 * 64 + d) :: s)
  | _ => none

/-- The number of a character is its place in the alphabet. -/
theorem sextet?_eq_some_iff {c : Char} {n : ℕ} :
    sextet? c = some n ↔ n < 64 ∧ sextetChar n = c := by
  have hplace : ∀ m < 64, sextet? (sextetChar m) = some m := by decide +kernel
  constructor
  · intro h
    obtain ⟨hlt, hc, -⟩ := List.idxOf?_eq_some_iff.mp h
    refine ⟨hlt, ?_⟩
    rw [sextetChar, List.getD_eq_getElem?_getD, List.getElem?_eq_getElem hlt, Option.getD_some, hc]
  · rintro ⟨hlt, rfl⟩
    exact hplace n hlt

/-- The padding is in no place of the alphabet. -/
theorem sextetChar_ne {n : ℕ} (h : n < 64) : sextetChar n ≠ '=' := by
  have hpad : sextet? '=' = none := by decide +kernel
  intro heq
  have := sextet?_eq_some_iff.mpr ⟨h, heq⟩
  rw [hpad] at this
  cases this

theorem sextet?_sextetChar {n : ℕ} (h : n < 64) : sextet? (sextetChar n) = some n :=
  sextet?_eq_some_iff.mpr ⟨h, rfl⟩

/-- What is encoded is decoded. -/
theorem base64Decode_encode (s : Bytes) : base64Decode (base64Encode s) = some s := by
  have hofNat (n : ℕ) (b : UInt8) (h : n = b.toNat) : UInt8.ofNat n = b := by
    rw [h, UInt8.ofNat_toNat]
  induction s using base64Encode.induct with
  | case1 => rfl
  | case2 a =>
    have ha := a.toNat_lt
    rw [base64Encode, base64Decode, sextet?_sextetChar (by omega), sextet?_sextetChar (by omega)]
    simp only [Option.bind_eq_bind, Option.bind_some, if_true, ne_eq, not_true_eq_false, if_false]
    rw [if_pos (by omega), hofNat _ a (by omega)]
  | case3 a b =>
    have ha := a.toNat_lt
    have hb := b.toNat_lt
    rw [base64Encode, base64Decode, sextet?_sextetChar (by omega), sextet?_sextetChar (by omega)]
    simp only [Option.bind_eq_bind, Option.bind_some, if_true, ne_eq, not_true_eq_false, if_false]
    rw [if_neg (sextetChar_ne (by omega)), sextet?_sextetChar (by omega), Option.bind_some,
      if_pos (by omega), hofNat _ a (by omega), hofNat _ b (by omega)]
  | case4 a b c s ih =>
    have ha := a.toNat_lt
    have hb := b.toNat_lt
    have hc := c.toNat_lt
    rw [base64Encode, base64Decode, sextet?_sextetChar (by omega), sextet?_sextetChar (by omega),
      sextet?_sextetChar (by omega), sextet?_sextetChar (by omega), ih]
    simp only [Option.bind_eq_bind, Option.bind_some]
    rw [if_neg (sextetChar_ne (n := c.toNat % 64) (by omega)), hofNat _ a (by omega), hofNat _ b (by omega), hofNat _ c (by omega)]

/-- What is decoded is encoded as the text again. -/
theorem eq_base64Encode : ∀ {t : Text} {s : Bytes}, base64Decode t = some s → t = base64Encode s
  | [], s, h => by
    cases h
    rfl
  | [_], _, h | [_, _], _, h | [_, _, _], _, h => nomatch h
  | x :: y :: z :: w :: t, s, h => by
    have htoNat (n : ℕ) (hn : n < 256) : (UInt8.ofNat n).toNat = n := by
      rw [UInt8.toNat_ofNat', Nat.mod_eq_of_lt hn]
    have hchar {a b : ℕ} (h : a = b) : sextetChar a = sextetChar b := congrArg _ h
    simp only [base64Decode, Option.bind_eq_bind, Option.bind_eq_some_iff, sextet?_eq_some_iff] at h
    obtain ⟨a, ⟨ha, rfl⟩, b, ⟨hb, rfl⟩, h⟩ := h
    split at h
    · next hw =>
      split at h
      · cases h
      · next ht =>
        rw [not_not.mp ht, hw]
        split at h
        · next hz =>
          -- One byte, and two characters of padding.
          split at h <;> cases h
          rw [base64Encode, htoNat _ (by omega), hz]
          simp only [List.cons.injEq, and_true]
          exact ⟨hchar (by omega), hchar (by omega)⟩
        · -- Two bytes, and one character of padding.
          simp only [Option.bind_eq_some_iff, sextet?_eq_some_iff] at h
          obtain ⟨c, ⟨hc, rfl⟩, h⟩ := h
          split at h <;> cases h
          rw [base64Encode, htoNat _ (by omega), htoNat _ (by omega)]
          simp only [List.cons.injEq, and_true]
          exact ⟨hchar (by omega), hchar (by omega), hchar (by omega)⟩
    · simp only [Option.bind_eq_some_iff, sextet?_eq_some_iff] at h
      obtain ⟨c, ⟨hc, rfl⟩, d, ⟨hd, rfl⟩, s, hs, h⟩ := h
      cases h
      rw [base64Encode, ← eq_base64Encode hs, htoNat _ (by omega), htoNat _ (by omega),
        htoNat _ (by omega)]
      simp only [List.cons.injEq, and_true]
      exact ⟨hchar (by omega), hchar (by omega), hchar (by omega), hchar (by omega)⟩

/-- A text is decoded to some bytes if it is their encoding. -/
theorem base64Decode_eq_some_iff {t : Text} {s : Bytes} :
    base64Decode t = some s ↔ t = base64Encode s := by
  constructor
  · exact eq_base64Encode
  · rintro rfl
    exact base64Decode_encode s

theorem sextetChar_mem (n : ℕ) : sextetChar n ∈ '=' :: base64Alphabet := by
  rw [sextetChar, List.getD_eq_getElem?_getD]
  cases h : base64Alphabet[n]? with
  | none => exact List.mem_cons_self ..
  | some c => exact List.mem_cons_of_mem _ (List.mem_of_getElem? h)

/-- A base64 text has characters of the alphabet and padding only. -/
theorem base64Encode_subset (s : Bytes) : base64Encode s ⊆ '=' :: base64Alphabet := by
  induction s using base64Encode.induct with
  | case1 => exact List.nil_subset _
  | case2 a => simp only [base64Encode, List.cons_subset, sextetChar_mem, true_and,
      List.mem_cons_self, List.nil_subset]
  | case3 a b => simp only [base64Encode, List.cons_subset, sextetChar_mem, true_and,
      List.mem_cons_self, List.nil_subset]
  | case4 a b c s ih => simp only [base64Encode, List.cons_subset, sextetChar_mem, true_and, ih]

end DarwinVm
