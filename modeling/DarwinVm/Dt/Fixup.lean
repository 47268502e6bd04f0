import DarwinVm.Dt.Format
import DarwinVm.Lib.PyText

/-!
# The codec of the fixup

`dt_fixup.py`: the codec that guesses from the bytes of a property what it is. `decode_node` turns
a value into a text or leaves its bytes, with the padding and without the placeholder bit, and
`encode_node` makes the length and the bytes of a property from what `decode_node` left.
-/

namespace DarwinVm.Dt.Fixup

/-- A value of `ADTNode.props`. -/
inductive Value
  | str (v : Text)
  | bytes (v : Bytes)
  deriving DecidableEq

/-- An entry of `ADTNode.props`. -/
abbrev Entry := Text × Value

/-- An `ADTNode`: the entries of `props` in order, and the `children`. -/
abbrev Node := Tree Entry

/-- How the codec fails. -/
inductive Error
  /-- `'dtree is too small'` -/
  | tooSmall
  /-- `struct.error` -/
  | struct
  /-- `UnicodeDecodeError` -/
  | unicode
  /-- `ValueError` of `int` -/
  | number
  /-- `f"Property {rv2} isn't NULL terminated ({rv2[-1]})"` -/
  | valueNotTerminated (rv2 : Bytes)
  /-- `f"property name {k} is too long"` -/
  | nameTooLong (k : Text)
  /-- `f"Property name {prop_name} isn't NULL terminated ({prop_name[-1]})"` -/
  | nameNotTerminated (name : Bytes)
  /-- `f"Property {k}'s value isn't a multiple of 4 bytes long ({prop_val})"` -/
  | valueLength (k : Text) (val : Bytes)
  /-- `f"Binary stream misaligned at property {k}"` -/
  | misaligned (k : Text)
  deriving DecidableEq

/-! ## Decoding -/

/-- `decode_null_terminated_string` -/
def decodeNullTerminatedString (s : Bytes) : Option Text :=
  (utf8Decode s).map (·.takeWhile (· ≠ nul))

/-- `str.isprintable` of an ASCII character. -/
def isPrintable (b : UInt8) : Bool := 32 ≤ b ∧ b < 127

/-- `is_probably_a_string`: printable ASCII, at least three bytes of it, and then NULs only. -/
def isProbablyAString (s : Bytes) : Bool :=
  s ≠ [] ∧ (s.dropWhile (· ≠ 0)).all (· = 0) ∧ s.all (· < 128) ∧ 3 ≤ (cText s).length ∧
    (cText s).all isPrintable

/-- `decode_prop` -/
def decodeProp (name : Text) (prop : Bytes) : Option Value :=
  if name = "name".toList ∨ isProbablyAString prop then
    (decodeNullTerminatedString prop).map .str
  else if prop.length = 0 then some (.str "<NULL>".toList)
  else if prop.length = 4 then some (.str ("u32:".toList ++ pyHex (leNat prop)))
  else if prop.length = 8 then some (.str ("u64:".toList ++ pyHex (leNat prop)))
  else some (.bytes prop)

/-- Put an element into a list in the place of the one with its key, or at the end: `d[k] = v` for
a dict. -/
def upsert {α : Type} (key : α → Text) (l : List α) (a : α) : List α :=
  match l with
  | [] => [a]
  | b :: l => if key b = key a then a :: l else b :: upsert key l a

/-- The entries of a dict after they are put into it one after the other. -/
def toDict {α : Type} (key : α → Text) (l : List α) : List α := l.foldl (upsert key) []

/-- The counts in `decode_node`, and the rest of `dt`. -/
def decodeCounts (dt : Bytes) : Except Error ((ℕ × ℕ) × Bytes) :=
  match unpackCounts dt 0 with
  | some nm => .ok (nm, dt.drop 8)
  | none => .error .tooSmall

/-- One turn of the loop over the properties in `decode_node`, and the rest of `dt`. -/
def decodeEntry (dt : Bytes) : Except Error (Entry × Bytes) := do
  let some name := decodeNullTerminatedString (slice dt 0 32) | .error .unicode
  let some len := unpackWord dt 32 | .error .struct
  let len := roundUp4 (len &&& 0x7FFFFFFF)
  let some val := decodeProp name (slice dt 36 (36 + len)) | .error .unicode
  .ok ((name, val), dt.drop (36 + len))

/-- `decode_node`, with the rest of `dt` in the place of the size: `dt[child_sz:]` is what the
child leaves of `dt`. Each level of the tree takes eight bytes, so the levels are no more than the
bytes. -/
def decodeNode (dt : Bytes) : Except Error (Node × Bytes) :=
  (readTree .tooSmall decodeCounts decodeEntry (dt.length + 1) dt).map fun r =>
    (r.1.mapItems (toDict Prod.fst), r.2)

/-! ## Encoding -/

/-- A number that `int` and `struct.pack` make into `k` bytes. -/
def packText (k : ℕ) (v : Text) : Except Error (ℕ × Bytes) :=
  match int0 v with
  | none => .error .number
  | some n =>
    match packInt k n with
    | none => .error .struct
    | some b => .ok (k, b)

/-- `parse_prop_entry` -/
def parsePropEntry : Value → Except Error (ℕ × Bytes)
  | .bytes v => .ok (v.length, ljust v (roundUp4 v.length))
  | .str v =>
    if "u32:".toList <+: v then packText 4 (v.drop 4)
    else if "u64:".toList <+: v then packText 8 (v.drop 4)
    else if v = "<NULL>".toList then .ok (0, [])
    else
      let strlen := v.length + 1
      let rv2 := ljust (utf8 v) (roundUp4 strlen)
      if rv2.getLast? ≠ some 0 then .error (.valueNotTerminated rv2) else .ok (strlen, rv2)

/-- One turn of the loop over the properties in `encode_node`. What is written before it is
aligned, so that the stream is as the property is. -/
def encodeEntry (e : Entry) : Except Error Bytes := do
  let (k, v) := e
  if 32 ≤ k.length then .error (.nameTooLong k) else
  let name := ljust (utf8 k) 32
  if name.getLast? ≠ some 0 then .error (.nameNotTerminated name) else
  let (len, val) ← parsePropEntry v
  if val.length % 4 ≠ 0 then .error (.valueLength k val) else
  if 2 ^ 32 ≤ len then .error .struct else
  let out := name ++ leBytes 4 len ++ val
  if out.length % 4 ≠ 0 then .error (.misaligned k) else .ok out

/-- `encode_node` -/
def encodeNode (d : Node) : Except Error Bytes := writeTree .struct encodeEntry d

/-- `decode_node` and then `encode_node`, as `main` runs them around the fixups. -/
def codec (dt : Bytes) : Except Error Bytes := do
  let (d, _) ← decodeNode dt
  encodeNode d

end DarwinVm.Dt.Fixup
