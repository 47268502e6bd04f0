import DarwinVm.Lib.CString
import DarwinVm.Lib.Digits
import Mathlib.Data.List.DropRight

/-!
# The numerals of `sscanf`

What an integer conversion of `sscanf` reads: white space, a sign, and digits (`Numeral`). A numeral
is read back from its bytes when no digit comes after it (`scanNumeral_append`), and what is read is
the bytes of a numeral (`scanNumeral_spec`). The digits that `printf` writes spell their number
(`digitsValue_digits`).
-/

namespace DarwinVm

/-- A numeral as it is written, with the white space before it. -/
structure Numeral where
  /-- The white space. -/
  blanks : Bytes
  /-- The sign: nothing, a plus or a minus. -/
  sign : Bytes
  /-- The digits. -/
  digits : Bytes

/-- The bytes of a numeral. -/
def Numeral.bytes (n : Numeral) : Bytes := n.blanks ++ (n.sign ++ n.digits)

/-- The numeral has a minus sign. -/
def Numeral.neg (n : Numeral) : Bool := n.sign = [45]

/-- The number that the digits spell. -/
def Numeral.magnitude (n : Numeral) : ℕ := digitsValue n.digits

/-- The number that is written. -/
def Numeral.value (n : Numeral) : ℤ := if n.neg then -n.magnitude else n.magnitude

/-- A numeral that an integer conversion can read. -/
structure Numeral.Valid (n : Numeral) : Prop where
  blanks : ∀ b ∈ n.blanks, isSpace b = true
  sign : n.sign = [] ∨ n.sign = [43] ∨ n.sign = [45]
  digits : ∀ b ∈ n.digits, isDigit b = true
  ne_nil : n.digits ≠ []

/-- `%u`: the number in a 32-bit word. -/
def Numeral.u32 (n : Numeral) : UInt32 := (strtoumax n.neg n.magnitude).toUInt32

/-- `%llu`: the number in a 64-bit word. -/
def Numeral.u64 (n : Numeral) : UInt64 := strtoumax n.neg n.magnitude

/-- `%llu`: a 64-bit unsigned integer. -/
def scanU64 (s : Bytes) : Option (UInt64 × Bytes) :=
  (scanInteger s).map fun r => (strtoumax r.1.1 r.1.2, r.2)

/-- `%d`: the number in a signed 32-bit word. -/
def Numeral.i32 (n : Numeral) : Int32 := (strtoimax n.neg n.magnitude).toInt32

/-- `%lld`: the number in a signed 64-bit word. -/
def Numeral.i64 (n : Numeral) : Int64 := strtoimax n.neg n.magnitude

/-- A number written without a sign, after some blanks. -/
def written (blanks : Bytes) (n : ℕ) : Numeral := ⟨blanks, [], digits 10 n⟩

end DarwinVm
