import DarwinVm.Lib.PyText

/-!
# Numbers in a byte stream

The digits of a number in a base up to sixteen, as `printf` writes them (`digits`, and `padDigits`
with a width), and the number that digits spell (`value`). The digits spell the number
(`value_digits`). A byte is two digits of base sixteen, and `bytes.fromhex` reads them
(`fromHex_hexPair`).
-/

namespace DarwinVm

/-- The value of a digit, with small letters for the digits from ten on. -/
def digitValue? (b : UInt8) : Option ℕ :=
  if 48 ≤ b ∧ b ≤ 57 then some (b.toNat - 48)
  else if 97 ≤ b ∧ b ≤ 102 then some (b.toNat - 87)
  else none

/-- The class of the digits of a base: `[0-9]` or `[0-9a-f]`. -/
def isDigitOf (base : ℕ) (b : UInt8) : Bool := (digitValue? b).any (· < base)

/-- The number that digits spell. -/
def value (base : ℕ) (s : Bytes) : ℕ :=
  s.foldl (fun n b => n * base + (digitValue? b).getD 0) 0

/-- `%u` and `%x`: the digits of a number. -/
def digits (base n : ℕ) : Bytes := ascii (Nat.toDigits base n)

/-- `%0wx`: the digits with zeros in front of them. -/
def padDigits (w base n : ℕ) : Bytes :=
  List.replicate (w - (digits base n).length) 48 ++ digits base n

/-- `s.decode('ascii')` of bytes below 128. -/
def asciiText (s : Bytes) : Text := s.map fun b => Char.ofNat b.toNat

/-- `%02x`: the two digits of a byte. -/
def hexPair (b : UInt8) : Bytes := padDigits 2 16 b.toNat

/-- The byte of a digit. -/
def digitByte (d : ℕ) : UInt8 := UInt8.ofNat d.digitChar.toNat

theorem digitValue?_digitByte {d : ℕ} (h : d < 16) : digitValue? (digitByte d) = some d := by
  have hall : ∀ d < 16, digitValue? (digitByte d) = some d := by decide
  exact hall d h

theorem isDigitOf_digitByte {base d : ℕ} (hb : base ≤ 16) (h : d < base) :
    isDigitOf base (digitByte d) = true := by
  rw [isDigitOf, digitValue?_digitByte (h.trans_le hb), Option.any_some, decide_eq_true h]

theorem digits_of_lt {base n : ℕ} (h : n < base) : digits base n = [digitByte n] := by
  rw [digits, Nat.toDigits_of_lt_base h]
  rfl

/-- The digits of a number, one by one. -/
theorem digits_eq {base n : ℕ} (hb : 1 < base) (h : base ≤ n) :
    digits base n = digits base (n / base) ++ [digitByte (n % base)] := by
  rw [digits, Nat.toDigits_of_base_le hb h, digits, ascii, List.map_append]
  rfl

theorem digits_ne_nil (base n : ℕ) : digits base n ≠ [] := by
  rw [digits, ascii, ne_eq, List.map_eq_nil_iff]
  exact Nat.toDigits_ne_nil

theorem length_digits_le {base w n : ℕ} (hb : 1 < base) (hw : 0 < w) (h : n < base ^ w) :
    (digits base n).length ≤ w := by
  rw [digits, ascii, List.length_map]
  exact (Nat.length_toDigits_le_iff hb hw).mpr h

theorem value_append (base : ℕ) (s : Bytes) (b : UInt8) :
    value base (s ++ [b]) = value base s * base + (digitValue? b).getD 0 := by
  rw [value, List.foldl_append]
  rfl

/-- The digits of a number are digits of the base, and spell it. -/
theorem digits_spec {base : ℕ} (hb : 1 < base) (h16 : base ≤ 16) (n : ℕ) :
    (∀ b ∈ digits base n, isDigitOf base b = true) ∧ value base (digits base n) = n := by
  induction n using Nat.strongRecOn with
  | ind n ih =>
    rcases Nat.lt_or_ge n base with h | h
    · rw [digits_of_lt h]
      refine ⟨fun b hmem => ?_, ?_⟩
      · rw [List.mem_singleton.mp hmem]
        exact isDigitOf_digitByte h16 h
      · rw [← List.nil_append [digitByte n], value_append, digitValue?_digitByte (h.trans_le h16)]
        simp [value]
    · have hmod := Nat.mod_lt n (Nat.lt_of_lt_of_le Nat.zero_lt_one hb.le)
      obtain ⟨hmem, hvalue⟩ := ih (n / base) (Nat.div_lt_self (by omega) hb)
      rw [digits_eq hb h]
      refine ⟨fun b hb' => ?_, ?_⟩
      · rcases List.mem_append.mp hb' with hb' | hb'
        · exact hmem b hb'
        · rw [List.mem_singleton.mp hb']
          exact isDigitOf_digitByte h16 hmod
      · rw [value_append, hvalue, digitValue?_digitByte (hmod.trans_le h16), Option.getD_some,
          Nat.div_add_mod']

theorem isDigitOf_of_mem_digits {base n : ℕ} (hb : 1 < base) (h16 : base ≤ 16) {b : UInt8}
    (h : b ∈ digits base n) : isDigitOf base b = true :=
  (digits_spec hb h16 n).1 b h

/-- The digits of a number are read back. -/
theorem value_digits {base : ℕ} (hb : 1 < base) (h16 : base ≤ 16) (n : ℕ) :
    value base (digits base n) = n :=
  (digits_spec hb h16 n).2

theorem value_replicate_append (base : ℕ) (s : Bytes) : ∀ k : ℕ,
    value base (List.replicate k 48 ++ s) = value base s
  | 0 => rfl
  | k + 1 => by
    have h : digitValue? 48 = some 0 := by decide
    rw [List.replicate_succ, List.cons_append, ← value_replicate_append base s k, value, value,
      List.foldl_cons, h, Option.getD_some, Nat.zero_mul]

theorem value_padDigits {base : ℕ} (hb : 1 < base) (h16 : base ≤ 16) (w n : ℕ) :
    value base (padDigits w base n) = n := by
  rw [padDigits, value_replicate_append, value_digits hb h16]

theorem isDigitOf_of_mem_padDigits {base w n : ℕ} (hb : 1 < base) (h16 : base ≤ 16) {b : UInt8}
    (h : b ∈ padDigits w base n) : isDigitOf base b = true := by
  rcases List.mem_append.mp h with h | h
  · rw [List.eq_of_mem_replicate h]
    exact isDigitOf_digitByte h16 (Nat.lt_of_lt_of_le Nat.zero_lt_one hb.le)
  · exact isDigitOf_of_mem_digits hb h16 h

theorem length_padDigits {base w n : ℕ} (hb : 1 < base) (hw : 0 < w) (h : n < base ^ w) :
    (padDigits w base n).length = w := by
  have := length_digits_le hb hw h
  rw [padDigits, List.length_append, List.length_replicate]
  omega

/-! ## Hexadecimal bytes -/

theorem length_hexPair (b : UInt8) : (hexPair b).length = 2 :=
  length_padDigits (by decide) (by decide) b.toNat_lt

theorem hexPair_eq (b : UInt8) : hexPair b = [digitByte (b.toNat / 16), digitByte (b.toNat % 16)] := by
  have hlt : b.toNat < 16 ^ 2 := b.toNat_lt
  unfold hexPair padDigits
  rcases Nat.lt_or_ge b.toNat 16 with h | h
  · rw [digits_of_lt h, Nat.div_eq_of_lt h, Nat.mod_eq_of_lt h]
    rfl
  · rw [digits_eq (by decide) h, digits_of_lt (Nat.div_lt_of_lt_mul hlt)]
    rfl

/-- The character of a digit is read as the digit. -/
theorem digitOf_digitByte {d : ℕ} (h : d < 16) :
    digitOf 16 (Char.ofNat (digitByte d).toNat) = some d ∧
      isPySpace (Char.ofNat (digitByte d).toNat) = false := by
  have hall : ∀ d < 16, digitOf 16 (Char.ofNat (digitByte d).toNat) = some d ∧
      isPySpace (Char.ofNat (digitByte d).toNat) = false := by decide
  exact hall d h

theorem fromHex_hexPair_append (b : UInt8) (t : Text) :
    fromHex (asciiText (hexPair b) ++ t) = (fromHex t).map (b :: ·) := by
  have hhi : b.toNat / 16 < 16 := Nat.div_lt_of_lt_mul b.toNat_lt
  obtain ⟨hc, hspace⟩ := digitOf_digitByte hhi
  obtain ⟨hd, -⟩ := digitOf_digitByte (Nat.mod_lt b.toNat (show 0 < 16 by decide))
  rw [hexPair_eq, asciiText, List.map_cons, List.map_singleton, List.cons_append,
    List.singleton_append, fromHex, hspace]
  simp only [Bool.false_eq_true, if_false, hc, hd, Option.bind_eq_bind, Option.bind_some,
    Nat.div_add_mod, UInt8.ofNat_toNat]
  cases fromHex t <;> rfl

/-- `bytes.fromhex` reads the two digits of each byte. -/
theorem fromHex_hexPair : ∀ s : Bytes, fromHex (asciiText (s.flatMap hexPair)) = some s
  | [] => rfl
  | b :: s => by
    have h : asciiText ((b :: s).flatMap hexPair) =
        asciiText (hexPair b) ++ asciiText (s.flatMap hexPair) := by
      rw [List.flatMap_cons, asciiText, asciiText, asciiText, List.map_append]
    rw [h, fromHex_hexPair_append, fromHex_hexPair s]
    rfl

end DarwinVm
