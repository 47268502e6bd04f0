import DarwinVm.Lib.CString

/-!
# DVMI2 records

The records that the host injects into the console, and `parse` of `tools/input/dvm_hid.c`, which
reads one from a line with `sscanf` and checks the ranges of its fields.
-/

namespace DarwinVm.Hid

/-- The kind letter of a record: `D` down, `M` move, `U` up, `C` cancel, `P` ping, `B` button,
`W` wheel. -/
inductive Kind
  | D | M | U | C | P | B | W
  deriving DecidableEq, Repr

/-- The kind of a letter, if `parse` knows it. -/
def Kind.ofByte (b : UInt8) : Option Kind :=
  if b = 68 then some .D else if b = 77 then some .M else if b = 85 then some .U
  else if b = 67 then some .C else if b = 80 then some .P else if b = 66 then some .B
  else if b = 87 then some .W else none

/-- `struct record`. -/
structure Record where
  epoch : UInt32
  seq : UInt32
  a : UInt32
  b : UInt32
  c : Int32
  kind : Kind
  host_ms : Int64
  deriving DecidableEq, Repr

/-- The identity under which a record's acknowledgement and completions are reported. -/
def Record.ident (r : Record) : UInt32 × UInt32 := (r.epoch, r.seq)

/-- The ranges that `parse` allows the fields of each kind. -/
def Record.inRange (r : Record) : Bool :=
  match r.kind with
  | .D | .M | .U => r.a ≤ 32767 && r.b ≤ 32767 && r.c = 0
  | .W => r.a ≤ 32767 && r.b ≤ 32767 && r.c ≠ 0 && r.c ≥ -8 && r.c ≤ 8
  | .C | .P => r.a = 0 && r.b = 0 && r.c = 0
  | .B => r.a ≤ 0xffff && r.b ≤ 1 && r.c = 0

/-- The tag word of a record. -/
def dvmi2 : Bytes := ascii ['D', 'V', 'M', 'I', '2']

/-- The text that `reader` looks for in a line. -/
def dvmi2Tag : Bytes := ascii ['D', 'V', 'M', 'I', '2', ' ']

/-- `sscanf(line, "DVMI2 %u %u %c %u %u %d %lld %n", ...)`: the seven fields, with what is left of
the line at `%n`. Every blank of the format is a white-space directive. -/
def scanRecord (line : Bytes) :
    Option ((UInt32 × UInt32 × UInt8 × UInt32 × UInt32 × Int32 × Int64) × Bytes) := do
  let s ← scanLiteral dvmi2 line
  let (epoch, s) ← scanU32 (scanSpace s)
  let (seq, s) ← scanU32 (scanSpace s)
  let (kind, s) ← scanChar (scanSpace s)
  let (a, s) ← scanU32 (scanSpace s)
  let (b, s) ← scanU32 (scanSpace s)
  let (c, s) ← scanI32 (scanSpace s)
  let (host_ms, s) ← scanI64 (scanSpace s)
  return ((epoch, seq, kind, a, b, c, host_ms), scanSpace s)

/-- `parse`: the record on a line. `line[consumed]` must be the final NUL, so the record is all of
the line. -/
def parse (line : Bytes) : Option Record :=
  match scanRecord line with
  | none => none
  | some ((epoch, seq, letter, a, b, c, host_ms), rest) =>
    if rest ≠ [] then none
    else
      match Kind.ofByte letter with
      | none => none
      | some kind =>
        let r : Record := ⟨epoch, seq, a, b, c, kind, host_ms⟩
        if r.inRange then some r else none

/-- A parsed record is in range. -/
theorem inRange_of_parse {line : Bytes} {r : Record} (h : parse line = some r) :
    r.inRange = true := by
  unfold parse at h
  split at h
  · cases h
  · split at h
    · cases h
    · split at h
      · cases h
      · dsimp only at h
        split at h
        · rename_i hr
          obtain rfl := Option.some.inj h
          exact hr
        · cases h

example : (parse (ascii "DVMI2 1 7 B 64 1 0 0".toList)).map Record.kind = some .B := by decide

end DarwinVm.Hid
