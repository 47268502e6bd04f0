import DarwinVm.Lib.PyText

/-!
# Decimal digits and white space in texts

What `str.isdecimal` and `str.isspace` tell of a character (`decimal?`, `isWhitespace`), and `int(s, 0)`
for any text (`pyInt0`): the digits of other scripts count as the ASCII digits, and any white space
as a space.
-/

namespace DarwinVm

/-- The decimal digits zero. Each is followed by the other nine. -/
def decimalZeros : List ℕ :=
  [0x30, 0x660, 0x6F0, 0x7C0, 0x966, 0x9E6, 0xA66, 0xAE6, 0xB66, 0xBE6, 0xC66, 0xCE6, 0xD66, 0xDE6,
    0xE50, 0xED0, 0xF20, 0x1040, 0x1090, 0x17E0, 0x1810, 0x1946, 0x19D0, 0x1A80, 0x1A90, 0x1B50,
    0x1BB0, 0x1C40, 0x1C50, 0xA620, 0xA8D0, 0xA900, 0xA9D0, 0xA9F0, 0xAA50, 0xABF0, 0xFF10, 0x104A0,
    0x10D30, 0x11066, 0x110F0, 0x11136, 0x111D0, 0x112F0, 0x11450, 0x114D0, 0x11650, 0x116C0, 0x11730,
    0x118E0, 0x11950, 0x11C50, 0x11D50, 0x11DA0, 0x16A60, 0x16AC0, 0x16B50, 0x1D7CE, 0x1D7D8, 0x1D7E2,
    0x1D7EC, 0x1D7F6, 0x1E140, 0x1E2F0, 0x1E950, 0x1FBF0]

/-- The value of a decimal digit. -/
def decimal? (c : Char) : Option ℕ :=
  (decimalZeros.find? fun z => z ≤ c.toNat ∧ c.toNat < z + 10).map (c.toNat - ·)

/-- `str.isspace` of a character. -/
def isWhitespace (c : Char) : Bool :=
  let n := c.toNat
  9 ≤ n ∧ n ≤ 13 ∨ 28 ≤ n ∧ n ≤ 32 ∨ n = 0x85 ∨ n = 0xA0 ∨ n = 0x1680 ∨ 0x2000 ≤ n ∧ n ≤ 0x200A ∨
    n = 0x2028 ∨ n = 0x2029 ∨ n = 0x202F ∨ n = 0x205F ∨ n = 0x3000

/-- The text of a number in ASCII, with a question mark for what no number has. -/
def asciiNumber (s : Text) : Text :=
  s.map fun c =>
    if c.toNat < 127 then c
    else if isWhitespace c then ' '
    else match decimal? c with
      | some d => Char.ofNat (48 + d)
      | none => '?'

/-- `int(s, 0)`. -/
def pyInt0 (s : Text) : Option ℤ := int0 (asciiNumber s)

example : pyInt0 [Char.ofNat 0x2003, Char.ofNat 0x664, '2'] = some 42 := by decide +kernel

end DarwinVm
