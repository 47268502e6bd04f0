import DarwinVm.Dt.Format
import DarwinVm.Lib.PyText

/-!
# Patching a device tree

`tools/dt_patch.py`: the codec that keeps each property as raw bytes, and the edits of the command
line. An edit addresses a node by a path of names and a property by its key, and changes the first
property of that name in the first node that the path finds.

The codec keeps a tree exactly if each property of it fits its record (`decode_layout`,
`fits_of_decode_layout`). A key of fewer than 32 characters need not fit: its UTF-8 may take more
bytes than the name field has.
-/

namespace DarwinVm.Dt.Patch

/-- An entry of `Node.props`. -/
structure Property where
  name : Text
  flags : ℕ
  raw : Bytes
  deriving DecidableEq

/-- A node with its `props` and its `children`. -/
abbrev Node := Tree Property

/-- How the tool fails. -/
inductive Error
  /-- `struct.error` -/
  | struct
  /-- `assert len(name) < 32, name` -/
  | assertion (name : Text)
  /-- `"dt_patch: no node %s (stuck at %r)" % (path, part)` -/
  | noNode (path part : Text)
  /-- `ValueError` of a number or of `bytes.fromhex` -/
  | value
  deriving DecidableEq

/-! ## Nodes -/

/-- `Node.name` -/
def name (n : Node) : Option Text :=
  (n.items.find? fun p => p.name = "name".toList).map fun p => utf8DecodeReplace (cText p.raw)

/-- `Node.child`, as the index of the child. -/
def child (n : Node) (s : Text) : Option ℕ := n.children.findIdx? fun c => name c = some s

/-- `Node.set` -/
def set (key : Text) (val : Bytes) : List Property → List Property
  | [] => [⟨key, 0, val⟩]
  | p :: ps => if p.name = key then ⟨p.name, p.flags, val⟩ :: ps else p :: set key val ps

/-- `Node.delete` -/
def delete (key : Text) : List Property → List Property
  | [] => []
  | p :: ps => if p.name = key then ps else p :: delete key ps

/-! ## The codec -/

/-- One turn of the loop over the properties in `decode`. -/
def decodeProperty (buf : Bytes) (off : ℕ) : Except Error (Property × ℕ) := do
  let name := utf8DecodeReplace (cText (slice buf off (off + 32)))
  let some rawLen := unpackWord buf (off + 32) | .error .struct
  let flags := rawLen &&& 0x80000000
  let plen := rawLen &&& 0x7FFFFFFF
  .ok (⟨name, flags, slice buf (off + 36) (off + 36 + plen)⟩, off + 36 + roundUp4 plen)

/-- The counts in `decode`. -/
def decodeCounts (buf : Bytes) (off : ℕ) : Except Error ((ℕ × ℕ) × ℕ) :=
  match unpackCounts buf off with
  | some nm => .ok (nm, off + 8)
  | none => .error .struct

/-- `decode`. Each level of the tree takes eight bytes, so the levels are no more than the bytes. -/
def decode (buf : Bytes) (off : ℕ) : Except Error (Node × ℕ) :=
  readTree .struct (decodeCounts buf) (decodeProperty buf) (buf.length + 1) off

/-- The record of a property. -/
def Property.bytes (p : Property) : Bytes :=
  ljust (utf8 p.name) 32 ++ leBytes 4 (p.raw.length ||| p.flags) ++
    ljust p.raw (roundUp4 p.raw.length)

/-- One turn of the loop over the properties in `encode`. -/
def encodeProperty (p : Property) : Except Error Bytes :=
  if 32 ≤ p.name.length then .error (.assertion p.name)
  else if 2 ^ 32 ≤ p.raw.length ||| p.flags then .error .struct
  else .ok p.bytes

/-- `encode` -/
def encode (n : Node) : Except Error Bytes := writeTree .struct encodeProperty n

/-- The property fits its record: the name its field, and the length its bits of the word. -/
def Property.Fits (p : Property) : Prop :=
  (utf8 p.name).length ≤ 32 ∧ p.raw.length < placeholderBit

instance (p : Property) : Decidable p.Fits := inferInstanceAs (Decidable (_ ∧ _))

/-- What holds of every property that is read from a blob or set. -/
def Property.Sound (p : Property) : Prop :=
  nul ∉ p.name ∧ (p.flags = 0 ∨ p.flags = placeholderBit)

theorem Property.length_bytes (p : Property) :
    p.bytes.length = max (utf8 p.name).length 32 + 4 + roundUp4 p.raw.length := by
  have := le_roundUp4 p.raw.length
  rw [Property.bytes, List.length_append, List.length_append, length_ljust, length_ljust,
    length_leBytes, Nat.max_eq_right this]

/-- A record whose property fits is decoded to the property. -/
theorem decodeProperty_of_stands {p : Property} (hp : p.Sound) (hf : p.Fits) {buf : Bytes}
    {i j : ℕ} (h : (Cursor.within buf).stands p.bytes i j) :
    decodeProperty buf i = .ok (p, j) := by
  obtain ⟨hpre, rfl⟩ := h
  obtain ⟨hword, hflags, hlen, -⟩ := word_eq hf.2 hp.2
  have hn : (ljust (utf8 p.name) 32).length = 32 := by
    rw [length_ljust, Nat.max_eq_right hf.1]
  have hname : slice buf i (i + 32) = ljust (utf8 p.name) 32 := by
    have := slice_of_isPrefix (a := []) (b := ljust (utf8 p.name) 32)
      (by simpa only [Property.bytes, List.append_assoc, List.nil_append] using hpre)
    rwa [hn, List.length_nil, Nat.add_zero] at this
  have hw : unpackWord buf (i + 32) = some (p.raw.length ||| p.flags) := by
    have := unpackWord_of_isPrefix (n := p.raw.length ||| p.flags) (by omega) hpre
    rwa [hn] at this
  have hval : slice buf (i + 36) (i + 36 + p.raw.length) = p.raw := by
    have := slice_of_isPrefix
      (a := ljust (utf8 p.name) 32 ++ leBytes 4 (p.raw.length ||| p.flags)) (b := p.raw)
      (c := List.replicate (roundUp4 p.raw.length - p.raw.length) 0)
      (by simpa only [Property.bytes, ljust, List.append_assoc] using hpre)
    rwa [List.length_append, hn, length_leBytes] at this
  rw [decodeProperty]
  simp only [hname, cText_ljust_utf8 hp.1, utf8DecodeReplace_utf8, hw, hflags, hlen, hval]
  rw [p.length_bytes, Nat.max_eq_right hf.1, ← Nat.add_assoc]

/-- The end of a property that lies within the data is that of its record, and the value is
shorter than the bits of its length can tell. -/
theorem decodeProperty_size {p : Property} {buf : Bytes} {i j : ℕ}
    (h : decodeProperty buf i = .ok (p, j)) :
    p.raw.length < placeholderBit ∧ i ≤ j ∧
      (j ≤ buf.length → j = i + (36 + roundUp4 p.raw.length)) := by
  rw [decodeProperty] at h
  cases hw : unpackWord buf (i + 32) with
  | none => rw [hw] at h; cases h
  | some n =>
    rw [hw] at h
    cases h
    have hlow : n &&& 0x7FFFFFFF = n % 2 ^ 31 := Nat.and_two_pow_sub_one_eq_mod n 31
    have hlt : n &&& 0x7FFFFFFF < placeholderBit := by
      rw [hlow, placeholderBit]
      omega
    have hle := le_roundUp4 (n &&& 0x7FFFFFFF)
    simp only [length_slice, Nat.add_sub_cancel_left]
    refine ⟨by omega, by omega, fun hj => ?_⟩
    rw [Nat.min_eq_left (by omega), Nat.add_assoc]

theorem encodeProperty_eq_ok_iff (p : Property) (b : Bytes) :
    encodeProperty p = .ok b ↔
      (p.name.length < 32 ∧ p.raw.length ||| p.flags < 2 ^ 32) ∧ b = p.bytes := by
  rw [encodeProperty]
  split_ifs with h₁ h₂
  · exact ⟨nofun, fun h => by omega⟩
  · exact ⟨nofun, fun h => by omega⟩
  · rw [Except.ok.injEq, and_iff_right ⟨by omega, by omega⟩, eq_comm]

/-- `encode` writes the layout of the tree, if it writes anything. -/
theorem encode_eq_ok_iff {n : Node} {out : Bytes} :
    encode n = .ok out ↔ n.Counted ∧
      (∀ p ∈ n.flatten, p.name.length < 32 ∧ p.raw.length ||| p.flags < 2 ^ 32) ∧
        out = (n.map Property.bytes).layout :=
  writeTree_eq_ok_iff encodeProperty_eq_ok_iff

theorem decodeCounts_of_stands {buf : Bytes} {n m i j : ℕ} (hn : n < 2 ^ 32) (hm : m < 2 ^ 32)
    (h : (Cursor.within buf).stands (counts n m) i j) :
    decodeCounts buf i = .ok ((n, m), j) := by
  obtain ⟨hpre, rfl⟩ := h
  rw [decodeCounts, unpackCounts_of_isPrefix hn hm hpre, length_counts]

/-- The layout of a tree whose properties fit is decoded to the tree. -/
theorem decode_layout {t : Node} (hc : t.Counted) (hs : ∀ p ∈ t.flatten, p.Sound)
    (hf : ∀ p ∈ t.flatten, p.Fits) :
    decode (t.map Property.bytes).layout 0 =
      .ok (t, (t.map Property.bytes).layout.length) := by
  have hdepth := t.depth_le_weight fun p => p.bytes.length
  rw [← Tree.length_layout] at hdepth
  have hread : decode (t.map Property.bytes).layout 0 =
      .ok (t.map fun p => p, (t.map Property.bytes).layout.length) :=
    readTree_layout (C := Cursor.within _) (fun _ _ _ _ => decodeCounts_of_stands)
      (fun p hp _ _ => decodeProperty_of_stands (hs p hp) (hf p hp)) (by omega) hc
      ⟨List.prefix_rfl, by rw [Nat.zero_add]⟩
  rwa [Tree.map_id_of fun p _ => rfl] at hread

/-- A tree that is decoded from all of its layout has properties that fit. -/
theorem fits_of_decode_layout {t : Node}
    (h : decode (t.map Property.bytes).layout 0 =
      .ok (t, (t.map Property.bytes).layout.length)) : ∀ p ∈ t.flatten, p.Fits := by
  obtain ⟨-, hspans⟩ := readTree_eq_ok_iff.1 h
  have hraw : ∀ p ∈ t.flatten, p.raw.length < placeholderBit :=
    Tree.Spans.forall_mem (fun _ _ _ hp => (decodeProperty_size hp).1) hspans
  have hcounts : ∀ n m i j, decodeCounts (t.map Property.bytes).layout i = .ok ((n, m), j) →
      j = i + 8 := by
    intro n m i j hh
    rw [decodeCounts] at hh
    cases hu : unpackCounts (t.map Property.bytes).layout i with
    | none => rw [hu] at hh; cases hh
    | some nm => rw [hu] at hh; cases hh; rfl
  -- the decoder steps over 36 bytes and the value, where the encoder wrote the whole name
  have hsize := (hspans.weight hcounts
    fun p i j (hp : decodeProperty _ i = .ok (p, j)) => (decodeProperty_size hp).2).2 le_rfl
  rw [Tree.length_layout, Nat.zero_add] at hsize
  have hle : ∀ p : Property, 36 + roundUp4 p.raw.length ≤ p.bytes.length := by
    intro p
    rw [p.length_bytes]
    omega
  have heq := Tree.eq_of_weight_eq hle hsize.symm
  intro p hp
  have := heq p hp
  rw [p.length_bytes] at this
  exact ⟨by omega, hraw p hp⟩

/-! ## The command line -/

/-- `parse_value` -/
def parseValue (v : Text) : Except Error Bytes :=
  let orError (b : Option Bytes) (e : Error) := b.elim (.error e) .ok
  if v = "NULL".toList ∨ v = "<NULL>".toList ∨ v = [] then .ok []
  else if "u32:".toList <+: v then
    match int0 (v.drop 4) with
    | some n => orError (packInt 4 n) .struct
    | none => .error .value
  else if "u64:".toList <+: v then
    match int0 (v.drop 4) with
    | some n => orError (packInt 8 n) .struct
    | none => .error .value
  else if "hex:".toList <+: v then orError (fromHex (v.drop 4)) .value
  else .ok (utf8 v ++ [0])

/-- The loop of `find` over the parts of the path. -/
def findParts (path : Text) : Node → List Text → Except Error (List ℕ)
  | _, [] => .ok []
  | n, part :: parts =>
    match child n part with
    | none => .error (.noNode path part)
    | some i =>
      match n.children[i]? with
      | none => .error (.noNode path part)
      | some c => (findParts path c parts).map (i :: ·)

/-- `find`, as the address of the node. -/
def find (root : Node) (path : Text) : Except Error (List ℕ) :=
  findParts path root (path.splitOn '/')

/-- An argument of the command line, which has no NUL character. -/
abbrev Arg := { s : Text // nul ∉ s }

/-- One turn of the loop over `a.sets` in `main`. -/
def applySet (root : Node) (s : Arg) : Except Error Node := do
  let (loc, val) := partition '=' s.1
  let (path, key) := rpartition ':' loc
  let p ← find root path
  let val ← parseValue val
  .ok (root.modifyAt (set key val) p)

/-- One turn of the loop over `a.dels` in `main`. -/
def applyDel (root : Node) (d : Arg) : Except Error Node := do
  let (path, key) := rpartition ':' d.1
  let p ← find root path
  .ok (root.modifyAt (delete key) p)

/-- `main`, from the bytes of the input file to those of the output file. -/
def main (buf : Bytes) (sets dels : List Arg) : Except Error Bytes := do
  let (root, _) ← decode buf 0
  let root ← sets.foldlM applySet root
  let root ← dels.foldlM applyDel root
  encode root

end DarwinVm.Dt.Patch
