import DarwinVm.Lib.Patch
import DarwinVm.Lib.Except

/-!
# Code directories

`tools/input/prepare_display_policy.py`: the primary CodeDirectory of an embedded signature
(`parseCodeDirectory`) and the hash of one code page in it (`rehashCodePage`). A signature is a
SuperBlob, a header with an index of the blobs in it, and every offset and size of it is a
big-endian word that the file gives.

A struct that is unpacked beyond the end of the data raises `struct.error`, and a key that is not
in a dictionary `KeyError`. Neither is ever raised (`codeDirectory_safe`).
-/

namespace DarwinVm.Signature

/-- What the functions raise. -/
inductive Error
  /-- `ValueError` -/
  | value (message : String)
  /-- `struct.error` -/
  | struct
  /-- `KeyError` -/
  | key
  deriving DecidableEq

/-- The error is a `ValueError`. -/
def Error.isValueError : Error → Bool
  | .value _ => true
  | _ => false

def superblobMagic : ℕ := 0xFADE0CC0
def codedirectoryMagic : ℕ := 0xFADE0C02
def cssslotCodedirectory : ℕ := 0

/-- `SUPERBLOB_HEADER.size` -/
def superblobHeaderSize : ℕ := 12

/-- `SUPERBLOB_INDEX.size` -/
def superblobIndexSize : ℕ := 8

/-- `CODEDIRECTORY_HEADER.size` -/
def codedirectoryHeaderSize : ℕ := 44

/-- `SUPERBLOB_HEADER.unpack_from(signature)`: magic, length and count. -/
def unpackSuperblob (s : Bytes) : Except Error (ℕ × ℕ × ℕ) :=
  if superblobHeaderSize ≤ s.length then .ok (be32 s 0, be32 s 4, be32 s 8) else .error .struct

/-- `SUPERBLOB_INDEX.unpack_from(signature, off)`: a slot and its offset. -/
def unpackIndex (s : Bytes) (off : ℕ) : Except Error (ℕ × ℕ) :=
  if off + superblobIndexSize ≤ s.length then .ok (be32 s off, be32 s (off + 4))
  else .error .struct

/-- The fixed header of a CodeDirectory. -/
structure Header where
  magic : ℕ
  cd_length : ℕ
  version : ℕ
  flags : ℕ
  hash_offset : ℕ
  identifier_offset : ℕ
  special_slots : ℕ
  code_slots : ℕ
  limit : ℕ
  hash_size : ℕ
  hash_type : ℕ
  platform : ℕ
  page_shift : ℕ
  spare : ℕ

/-- The header that stands at an offset, `>9I4BI`. -/
def headerAt (s : Bytes) (off : ℕ) : Header :=
  ⟨be32 s off, be32 s (off + 4), be32 s (off + 8), be32 s (off + 12), be32 s (off + 16),
    be32 s (off + 20), be32 s (off + 24), be32 s (off + 28), be32 s (off + 32),
    byteAt s (off + 36), byteAt s (off + 37), byteAt s (off + 38), byteAt s (off + 39),
    be32 s (off + 40)⟩

/-- `CODEDIRECTORY_HEADER.unpack_from(signature, off)` -/
def unpackHeader (s : Bytes) (off : ℕ) : Except Error Header :=
  if off + codedirectoryHeaderSize ≤ s.length then .ok (headerAt s off) else .error .struct

/-- The loop over the index: `slots` after the entries from `index` on, of which `n` are left. -/
def readSlots (signature : Bytes) : ℕ → ℕ → List (ℕ × ℕ) → Except Error (List (ℕ × ℕ))
  | 0, _, slots => .ok slots
  | n + 1, index, slots => do
    let (slot, offset) ← unpackIndex signature (superblobHeaderSize + index * superblobIndexSize)
    if slot ∈ slots.map Prod.fst then .error (.value "duplicate SuperBlob slot")
    else readSlots signature n (index + 1) (slots ++ [(slot, offset)])

/-- `slots[slot]` -/
def getSlot (slots : List (ℕ × ℕ)) (slot : ℕ) : Except Error ℕ :=
  match slots.lookup slot with
  | some offset => .ok offset
  | none => .error .key

/-- What `parse_code_directory` returns. -/
structure CodeDirectory where
  cd : Bytes
  cd_offset : ℕ
  slot_offset : ℕ
  deriving DecidableEq

/-- The checks of `parse_code_directory` on the SuperBlob: the declared length, the end of the index
and the slots of the index. -/
def parseSuperblob (signature : Bytes) : Except Error (ℕ × ℕ × List (ℕ × ℕ)) := do
  if signature.length < superblobHeaderSize then
    .error (.value "signature is too short for a SuperBlob header")
  else
    let (magic, length, count) ← unpackSuperblob signature
    if magic ≠ superblobMagic then .error (.value "unsupported signature SuperBlob magic")
    else if length < superblobHeaderSize ∨ signature.length < length then
      .error (.value "invalid declared SuperBlob length")
    else if length < superblobHeaderSize + count * superblobIndexSize then
      .error (.value "truncated SuperBlob index")
    else
      let slots ← readSlots signature count 0 []
      if cssslotCodedirectory ∉ slots.map Prod.fst then
        .error (.value "SuperBlob has no primary CodeDirectory")
      else .ok (length, superblobHeaderSize + count * superblobIndexSize, slots)

/-- The checks of `parse_code_directory` on the CodeDirectory at `cd_offset`. -/
def parseDirectory (signature : Bytes) (page_index : ℕ) (required_code_end : ℤ)
    (length index_end cd_offset : ℕ) : Except Error CodeDirectory := do
  if cd_offset < index_end then
    .error (.value "CodeDirectory overlaps the SuperBlob index")
  else if length < cd_offset + codedirectoryHeaderSize then
    .error (.value "truncated CodeDirectory header")
  else
    let h ← unpackHeader signature cd_offset
    if h.magic ≠ codedirectoryMagic then
      .error (.value "primary SuperBlob slot is not a CodeDirectory")
    else if h.cd_length < codedirectoryHeaderSize ∨ length < cd_offset + h.cd_length then
      .error (.value "truncated CodeDirectory")
    else if h.flags ≠ 2 ∨ h.hash_type ≠ 2 ∨ h.hash_size ≠ 32 ∨ h.page_shift ≠ 14 then
      .error (.value "requires existing ad-hoc SHA-256/16 KiB CodeDirectory")
    else if (h.limit : ℤ) < required_code_end then
      .error (.value "target instructions are outside the CodeDirectory code limit")
    else if h.code_slots ≤ page_index then
      .error (.value "target code page is outside the CodeDirectory hash table")
    else if h.hash_offset < codedirectoryHeaderSize ∨
        h.cd_length < h.hash_offset + h.code_slots * h.hash_size then
      .error (.value "invalid CodeDirectory code-hash table")
    else
      .ok ⟨slice signature cd_offset (cd_offset + h.cd_length), cd_offset,
        h.hash_offset + page_index * h.hash_size⟩

/-- `parse_code_directory` -/
def parseCodeDirectory (signature : Bytes) (page_index : ℕ) (required_code_end : ℤ) :
    Except Error CodeDirectory := do
  let (length, index_end, slots) ← parseSuperblob signature
  let cd_offset ← getSlot slots cssslotCodedirectory
  parseDirectory signature page_index required_code_end length index_end cd_offset

/-- A SHA-256 digest. -/
abbrev Digest := { s : Bytes // s.length = 32 }

/-- What `rehash_code_page` returns. -/
structure Rehashed where
  cd : Bytes
  cd_offset : ℕ
  slot_offset : ℕ
  old_hash : Bytes
  new_hash : Bytes
  deriving DecidableEq

/-- `rehash_code_page`, with `hashlib.sha256` as `sha256`. -/
def rehashCodePage (sha256 : Bytes → Digest) (signature : Bytes) (page_index : ℕ)
    (source_page patched_page : Bytes) (required_code_end : ℤ) : Except Error Rehashed := do
  let r ← parseCodeDirectory signature page_index required_code_end
  let old_hash := slice r.cd r.slot_offset (r.slot_offset + 32)
  if old_hash ≠ (sha256 source_page).1 then
    .error (.value "source code page does not match its signature")
  else
    let new_hash := (sha256 patched_page).1
    .ok ⟨assign r.cd r.slot_offset (r.slot_offset + 32) new_hash, r.cd_offset, r.slot_offset,
      old_hash, new_hash⟩

/-! ## Bounds -/

/-- The declared length of a SuperBlob. -/
def declaredLength (signature : Bytes) : ℕ := be32 signature 4

/-- The end of the declared index of a SuperBlob. -/
def indexEnd (signature : Bytes) : ℕ := superblobHeaderSize + be32 signature 8 * superblobIndexSize

/-- A code directory is the part of its SuperBlob that it says, after the index, and the hash of the
page lies in it after its header. -/
structure CodeDirectory.InBounds (signature : Bytes) (r : CodeDirectory) : Prop where
  superblob : declaredLength signature ≤ signature.length
  index : indexEnd signature ≤ r.cd_offset
  directory : r.cd_offset + r.cd.length ≤ declaredLength signature
  cd : r.cd = slice signature r.cd_offset (r.cd_offset + r.cd.length)
  header : codedirectoryHeaderSize ≤ r.slot_offset
  slot : r.slot_offset + 32 ≤ r.cd.length

/-- What follows a step that raises nothing but `ValueError` raises nothing else. -/
theorem isValueError_bind {α β : Type} {x : Except Error α} {f : α → Except Error β} {e : Error}
    (hx : ∀ e, x = .error e → e.isValueError = true)
    (hf : ∀ a, x = .ok a → ∀ e, f a = .error e → e.isValueError = true)
    (h : x.bind f = .error e) : e.isValueError = true := by
  obtain h | ⟨a, ha, h⟩ := bind_eq_error.mp h
  · exact hx e h
  · exact hf a ha e h

/-- A `ValueError` is raised. -/
theorem isValueError_value {α : Type} {message : String} {e : Error}
    (h : (Except.error (.value message) : Except Error α) = .error e) : e.isValueError = true := by
  obtain rfl := Except.error.inj h
  rfl

/-- The entries of an index that lies inside the data are all there. -/
theorem readSlots_error {signature : Bytes} : ∀ {n index : ℕ} {slots : List (ℕ × ℕ)} {e : Error},
    superblobHeaderSize + (index + n) * superblobIndexSize ≤ signature.length →
    readSlots signature n index slots = .error e → e.isValueError = true
  | 0, _, _, _, _, h => nomatch h
  | n + 1, index, slots, e, hfits, h => by
    rw [superblobHeaderSize, superblobIndexSize] at hfits
    refine isValueError_bind (fun e h => ?_) (fun a _ e h => ?_) h
    · rw [unpackIndex, superblobHeaderSize, superblobIndexSize, if_pos (by omega)] at h
      cases h
    · dsimp only at h
      split_ifs at h
      · exact isValueError_value h
      · refine readSlots_error ?_ h
        rw [superblobHeaderSize, superblobIndexSize]
        omega

/-- A SuperBlob is refused with a `ValueError`. -/
theorem parseSuperblob_error {signature : Bytes} {e : Error}
    (h : parseSuperblob signature = .error e) : e.isValueError = true := by
  unfold parseSuperblob at h
  split_ifs at h with hshort
  · exact isValueError_value h
  · refine isValueError_bind (fun e h => ?_) (fun a ha e h => ?_) h
    · rw [unpackSuperblob, if_pos (by omega)] at h
      cases h
    · rw [unpackSuperblob, if_pos (by omega)] at ha
      obtain rfl := Except.ok.inj ha
      dsimp only at h
      split_ifs at h with hmagic hlength hindex
      · exact isValueError_value h
      · exact isValueError_value h
      · exact isValueError_value h
      · refine isValueError_bind (fun e h => readSlots_error ?_ h) (fun slots _ e h => ?_) h
        · rw [Nat.zero_add]
          omega
        · split_ifs at h
          exact isValueError_value h

/-- A SuperBlob that is accepted lies inside the data with its index, and has a code directory. -/
theorem parseSuperblob_ok {signature : Bytes} {length index_end : ℕ} {slots : List (ℕ × ℕ)}
    (h : parseSuperblob signature = .ok (length, index_end, slots)) :
    length = declaredLength signature ∧ index_end = indexEnd signature ∧
      length ≤ signature.length ∧ cssslotCodedirectory ∈ slots.map Prod.fst := by
  unfold parseSuperblob at h
  split_ifs at h with hshort
  obtain ⟨a, ha, h⟩ := bind_eq_ok.mp h
  rw [unpackSuperblob, if_pos (by omega)] at ha
  obtain rfl := Except.ok.inj ha
  dsimp only at h
  split_ifs at h with hmagic hlength hindex
  obtain ⟨slots', -, h⟩ := bind_eq_ok.mp h
  split_ifs at h with hslot
  cases h
  exact ⟨rfl, rfl, by omega, hslot⟩

/-- A slot that is in the dictionary is found. -/
theorem getSlot_error {slots : List (ℕ × ℕ)} {slot : ℕ} {e : Error}
    (hmem : slot ∈ slots.map Prod.fst) (h : getSlot slots slot = .error e) :
    e.isValueError = true := by
  unfold getSlot at h
  split at h
  · cases h
  · next hnone =>
    obtain ⟨p, hp, rfl⟩ := List.mem_map.mp hmem
    have := List.lookup_eq_none_iff.mp hnone p hp
    simp at this

/-- A CodeDirectory inside of a SuperBlob that is inside of the data is refused with a
`ValueError`. -/
theorem parseDirectory_error {signature : Bytes} {page length index_end cd_offset : ℕ}
    {required : ℤ} {e : Error} (hlength : length ≤ signature.length)
    (h : parseDirectory signature page required length index_end cd_offset = .error e) :
    e.isValueError = true := by
  unfold parseDirectory at h
  split_ifs at h with hindex hheader
  · exact isValueError_value h
  · exact isValueError_value h
  · refine isValueError_bind (fun e h => ?_) (fun a _ e h => ?_) h
    · rw [unpackHeader, if_pos (by omega)] at h
      cases h
    · split_ifs at h
      all_goals exact isValueError_value h

/-- What is returned for a CodeDirectory, and what has been checked of it. -/
theorem parseDirectory_ok {signature : Bytes} {page length index_end cd_offset : ℕ} {required : ℤ}
    {r : CodeDirectory}
    (h : parseDirectory signature page required length index_end cd_offset = .ok r) :
    let h := headerAt signature cd_offset
    index_end ≤ cd_offset ∧ cd_offset + h.cd_length ≤ length ∧ page < h.code_slots ∧
      codedirectoryHeaderSize ≤ h.hash_offset ∧
      h.hash_offset + h.code_slots * 32 ≤ h.cd_length ∧
      r = ⟨slice signature cd_offset (cd_offset + h.cd_length), cd_offset,
        h.hash_offset + page * 32⟩ := by
  unfold parseDirectory at h
  split_ifs at h with hindex hheader
  obtain ⟨a, ha, h⟩ := bind_eq_ok.mp h
  unfold unpackHeader at ha
  split_ifs at ha
  obtain rfl := Except.ok.inj ha
  dsimp only at h ⊢
  generalize headerAt signature cd_offset = header at h ⊢
  split_ifs at h with hmagic hcd hform hlimit hpage hhashes
  have hsize : header.hash_size = 32 := by
    by_contra hne
    exact hform (Or.inr (Or.inr (Or.inl hne)))
  rw [hsize] at hhashes h
  refine ⟨by omega, by omega, by omega, by omega, by omega, ?_⟩
  exact (Except.ok.inj h).symm

/-- What is returned for a signature. Of the page only the offset of its hash depends. -/
theorem parseCodeDirectory_ok {signature : Bytes} {page : ℕ} {required : ℤ} {r : CodeDirectory}
    (h : parseCodeDirectory signature page required = .ok r) :
    let header := headerAt signature r.cd_offset
    (∃ slots, parseSuperblob signature =
        .ok (declaredLength signature, indexEnd signature, slots) ∧
      getSlot slots cssslotCodedirectory = .ok r.cd_offset) ∧
      r.cd = slice signature r.cd_offset (r.cd_offset + header.cd_length) ∧
      r.slot_offset = header.hash_offset + page * 32 ∧ r.InBounds signature := by
  obtain ⟨⟨length, index_end, slots⟩, hsuper, h⟩ := bind_eq_ok.mp h
  obtain ⟨cd_offset, hslot, h⟩ := bind_eq_ok.mp h
  obtain ⟨rfl, rfl, hlength, -⟩ := parseSuperblob_ok hsuper
  obtain ⟨hindex, hdir, hpage, hheader, hhashes, rfl⟩ := parseDirectory_ok h
  dsimp only
  have hcd : (slice signature cd_offset
      (cd_offset + (headerAt signature cd_offset).cd_length)).length =
      (headerAt signature cd_offset).cd_length := by
    rw [length_slice]
    omega
  refine ⟨⟨slots, hsuper, hslot⟩, rfl, rfl, hlength, hindex, ?_, ?_, ?_, ?_⟩
  · dsimp only
    rw [hcd]
    exact hdir
  · dsimp only
    rw [hcd]
  · dsimp only
    omega
  · dsimp only
    rw [hcd]
    omega

/-- A signature is refused with a `ValueError`. -/
theorem parseCodeDirectory_error {signature : Bytes} {page : ℕ} {required : ℤ} {e : Error}
    (h : parseCodeDirectory signature page required = .error e) : e.isValueError = true := by
  refine isValueError_bind (fun e h => parseSuperblob_error h)
    (fun ⟨length, index_end, slots⟩ hsuper e h => ?_) h
  obtain ⟨-, -, hlength, hmem⟩ := parseSuperblob_ok hsuper
  exact isValueError_bind (fun e h => getSlot_error hmem h)
    (fun _ _ e h => parseDirectory_error hlength h) h

/-- The hashes of two pages of a signature lie apart in one code directory. -/
theorem slots_apart {signature : Bytes} {page page' : ℕ} {required required' : ℤ}
    {r r' : CodeDirectory} (hne : page' ≠ page)
    (h : parseCodeDirectory signature page required = .ok r)
    (h' : parseCodeDirectory signature page' required' = .ok r') :
    r'.cd = r.cd ∧ r'.cd_offset = r.cd_offset ∧
      (r.slot_offset + 32 ≤ r'.slot_offset ∨ r'.slot_offset + 32 ≤ r.slot_offset) := by
  obtain ⟨⟨slots, hsuper, hoffset⟩, hcd, hslot, -⟩ := parseCodeDirectory_ok h
  obtain ⟨⟨slots', hsuper', hoffset'⟩, hcd', hslot', -⟩ := parseCodeDirectory_ok h'
  have hslots : slots' = slots := by
    rw [hsuper] at hsuper'
    exact (congrArg (fun p => p.2.2) (Except.ok.inj hsuper')).symm
  have hsame : r'.cd_offset = r.cd_offset := by
    rw [hslots, hoffset] at hoffset'
    exact (Except.ok.inj hoffset').symm
  rw [hsame] at hcd' hslot'
  refine ⟨hcd'.trans hcd.symm, hsame, ?_⟩
  rw [hslot, hslot']
  omega

/-! ## Data that change -/

section Congr

variable {s s' : Bytes}

/-- A word is the same in data that agree there. -/
theorem be32_congr {off n : ℕ} (hk : ∀ k < n, s'[k]? = s[k]?) (hoff : off + 4 ≤ n) :
    be32 s' off = be32 s off := by
  rw [be32, be32, slice_congr fun k _ hlt => hk k (by omega)]

theorem byteAt_congr {off n : ℕ} (hk : ∀ k < n, s'[k]? = s[k]?) (hoff : off + 1 ≤ n) :
    byteAt s' off = byteAt s off := by
  rw [byteAt, byteAt, slice_congr fun k _ hlt => hk k (by omega)]

theorem unpackIndex_congr {off n : ℕ} (hlen : s'.length = s.length) (hk : ∀ k < n, s'[k]? = s[k]?)
    (hoff : off + 8 ≤ n) : unpackIndex s' off = unpackIndex s off := by
  rw [unpackIndex, unpackIndex, hlen, be32_congr hk (by omega), be32_congr hk (by omega)]

theorem headerAt_congr {off n : ℕ} (hk : ∀ k < n, s'[k]? = s[k]?) (hoff : off + 44 ≤ n) :
    headerAt s' off = headerAt s off := by
  simp only [headerAt]
  rw [be32_congr hk (by omega), be32_congr hk (by omega), be32_congr hk (by omega),
    be32_congr hk (by omega), be32_congr hk (by omega), be32_congr hk (by omega),
    be32_congr hk (by omega), be32_congr hk (by omega), be32_congr hk (by omega),
    byteAt_congr hk (by omega), byteAt_congr hk (by omega), byteAt_congr hk (by omega),
    byteAt_congr hk (by omega), be32_congr hk (by omega)]

/-- The entries of an index are read from the index only. -/
theorem readSlots_congr {m : ℕ} (hlen : s'.length = s.length) (hk : ∀ k < m, s'[k]? = s[k]?) :
    ∀ (n index : ℕ) (slots : List (ℕ × ℕ)),
      superblobHeaderSize + (index + n) * superblobIndexSize ≤ m →
      readSlots s' n index slots = readSlots s n index slots
  | 0, _, _, _ => rfl
  | n + 1, index, slots, hm => by
    rw [superblobHeaderSize, superblobIndexSize] at hm
    rw [readSlots, readSlots,
      unpackIndex_congr hlen hk (by rw [superblobHeaderSize, superblobIndexSize]; omega)]
    congr 1
    funext ⟨slot, offset⟩
    dsimp only
    split_ifs
    · rfl
    · refine readSlots_congr hlen hk n (index + 1) _ ?_
      rw [superblobHeaderSize, superblobIndexSize]
      omega

/-- A SuperBlob is read from its header and its index only. -/
theorem parseSuperblob_congr {m : ℕ} (hlen : s'.length = s.length) (hk : ∀ k < m, s'[k]? = s[k]?)
    (hm : indexEnd s ≤ m) : parseSuperblob s' = parseSuperblob s := by
  have hindex : superblobHeaderSize + be32 s 8 * superblobIndexSize ≤ m := hm
  rw [superblobHeaderSize, superblobIndexSize] at hindex
  have hunpack : unpackSuperblob s' = unpackSuperblob s := by
    rw [unpackSuperblob, unpackSuperblob, hlen, be32_congr hk (by omega), be32_congr hk (by omega),
      be32_congr hk (by omega)]
  unfold parseSuperblob
  rw [hlen, hunpack]
  unfold unpackSuperblob
  split_ifs with hshort hsize
  · rfl
  · have hslots : readSlots s' (be32 s 8) 0 [] = readSlots s (be32 s 8) 0 [] := by
      refine readSlots_congr hlen hk _ 0 [] ?_
      rw [superblobHeaderSize, superblobIndexSize, Nat.zero_add]
      exact hindex
    simp only [bind, Except.bind, hslots]
  · rfl

/-- A code directory is found in data that agree up to the end of its header, with the bytes that
these data have there. -/
theorem parseCodeDirectory_congr {page : ℕ} {r : CodeDirectory}
    (h : parseCodeDirectory s page 0 = .ok r) (hlen : s'.length = s.length)
    (hk : ∀ k < r.cd_offset + codedirectoryHeaderSize, s'[k]? = s[k]?) :
    parseCodeDirectory s' page 0 =
      .ok { r with cd := slice s' r.cd_offset (r.cd_offset + r.cd.length) } := by
  obtain ⟨-, -, -, hbounds⟩ := parseCodeDirectory_ok h
  have hindex := hbounds.index
  rw [codedirectoryHeaderSize] at hk
  obtain ⟨⟨length, index_end, slots⟩, hsuper, h⟩ := bind_eq_ok.mp h
  obtain ⟨cd_offset, hslot, h⟩ := bind_eq_ok.mp h
  obtain ⟨rfl, rfl, hlength, -⟩ := parseSuperblob_ok hsuper
  obtain ⟨-, hcd, -, -, -, hr⟩ := parseDirectory_ok h
  have hoffset : r.cd_offset = cd_offset := by rw [hr]
  rw [hoffset] at hk hindex ⊢
  have hsize : r.cd.length = (headerAt s cd_offset).cd_length := by
    rw [hr]
    dsimp only
    rw [length_slice]
    omega
  refine bind_eq_ok.mpr ⟨_, (parseSuperblob_congr hlen hk (by omega)).trans hsuper, ?_⟩
  refine bind_eq_ok.mpr ⟨cd_offset, hslot, ?_⟩
  unfold parseDirectory at h ⊢
  split_ifs at h ⊢ with h1 h2
  obtain ⟨a, ha, h⟩ := bind_eq_ok.mp h
  have hheader : unpackHeader s' cd_offset = .ok a := by
    rw [← ha, unpackHeader, unpackHeader, hlen, headerAt_congr hk (by omega)]
  refine bind_eq_ok.mpr ⟨a, hheader, ?_⟩
  have hsame : a = headerAt s cd_offset := by
    unfold unpackHeader at ha
    split_ifs at ha
    exact (Except.ok.inj ha).symm
  split_ifs at h ⊢
  rw [hsize, ← hsame, ← Except.ok.inj h]

end Congr

/-- A rehashed code directory is the parsed one but for the 32 bytes of the page's hash. -/
structure Rehashed.Changes (sha256 : Bytes → Digest) (patched_page : Bytes) (r : CodeDirectory)
    (r' : Rehashed) : Prop where
  cd_offset : r'.cd_offset = r.cd_offset
  slot_offset : r'.slot_offset = r.slot_offset
  length : r'.cd.length = r.cd.length
  old_hash : r'.old_hash = slice r.cd r.slot_offset (r.slot_offset + 32)
  new_hash : r'.new_hash = (sha256 patched_page).1
  slot : slice r'.cd r.slot_offset (r.slot_offset + 32) = r'.new_hash
  others : ∀ k, k < r.slot_offset ∨ r.slot_offset + 32 ≤ k → r'.cd[k]? = r.cd[k]?

/-- A page is rehashed in a code directory that is parsed. -/
theorem rehashCodePage_ok {sha256 : Bytes → Digest} {signature source patched : Bytes} {page : ℕ}
    {required : ℤ} {r' : Rehashed}
    (h : rehashCodePage sha256 signature page source patched required = .ok r') :
    ∃ r, parseCodeDirectory signature page required = .ok r ∧ r'.Changes sha256 patched r := by
  obtain ⟨r, hr, h⟩ := bind_eq_ok.mp h
  dsimp only at h
  split_ifs at h with hold
  obtain rfl := Except.ok.inj h
  obtain ⟨-, -, -, hbounds⟩ := parseCodeDirectory_ok hr
  have hfits : r.slot_offset + (sha256 patched).1.length = r.slot_offset + 32 := by
    rw [(sha256 patched).2]
  exact ⟨r, hr, rfl, rfl, length_assign hfits hbounds.slot, rfl, rfl,
    slice_assign hfits hbounds.slot, fun k hk => getElem?_assign hfits hbounds.slot hk⟩

/-- A page is refused with a `ValueError`. -/
theorem rehashCodePage_error {sha256 : Bytes → Digest} {signature source patched : Bytes} {page : ℕ}
    {required : ℤ} {e : Error}
    (h : rehashCodePage sha256 signature page source patched required = .error e) :
    e.isValueError = true := by
  refine isValueError_bind (fun e h => parseCodeDirectory_error h) (fun r _ e h => ?_) h
  dsimp only at h
  split_ifs at h
  exact isValueError_value h

/-- Whatever the data of a signature, it is refused with a `ValueError`, or what is returned is in
bounds, the hashes of its pages lie apart, and rehashing a page changes its hash and nothing else. -/
theorem codeDirectory_safe (sha256 : Bytes → Digest) (signature : Bytes) (page_index : ℕ)
    (source_page patched_page : Bytes) (required_code_end : ℤ) :
    (∀ e, parseCodeDirectory signature page_index required_code_end = .error e →
      e.isValueError = true) ∧
    (∀ e, rehashCodePage sha256 signature page_index source_page patched_page required_code_end =
      .error e → e.isValueError = true) ∧
    (∀ r, parseCodeDirectory signature page_index required_code_end = .ok r →
      r.InBounds signature ∧ ∀ page' required' r', page' ≠ page_index →
        parseCodeDirectory signature page' required' = .ok r' →
        r'.cd = r.cd ∧ r'.cd_offset = r.cd_offset ∧
          (r.slot_offset + 32 ≤ r'.slot_offset ∨ r'.slot_offset + 32 ≤ r.slot_offset)) ∧
    ∀ r', rehashCodePage sha256 signature page_index source_page patched_page required_code_end =
      .ok r' → ∃ r, parseCodeDirectory signature page_index required_code_end = .ok r ∧
        r.InBounds signature ∧ r'.Changes sha256 patched_page r := by
  refine ⟨fun e h => parseCodeDirectory_error h, fun e h => rehashCodePage_error h, fun r h => ?_,
    fun r' h => ?_⟩
  · obtain ⟨-, -, -, hbounds⟩ := parseCodeDirectory_ok h
    exact ⟨hbounds, fun page' required' r' hne h' => slots_apart hne h h'⟩
  · obtain ⟨r, hr, hchanges⟩ := rehashCodePage_ok h
    obtain ⟨-, -, -, hbounds⟩ := parseCodeDirectory_ok hr
    exact ⟨r, hr, hbounds, hchanges⟩

/-- A signature with one code directory of one page. -/
def oneSlot : Bytes :=
  [0xFA, 0xDE, 0x0C, 0xC0, 0, 0, 0, 96, 0, 0, 0, 1, 0, 0, 0, 0, 0, 0, 0, 20,
    0xFA, 0xDE, 0x0C, 0x02, 0, 0, 0, 76, 0, 2, 4, 0, 0, 0, 0, 2, 0, 0, 0, 44, 0, 0, 0, 0,
    0, 0, 0, 0, 0, 0, 0, 1, 0, 0, 0x40, 0, 32, 2, 0, 14, 0, 0, 0, 0] ++ List.replicate 32 7

example : (parseCodeDirectory oneSlot 0 0).map CodeDirectory.slot_offset = .ok 44 := by
  decide +kernel

end DarwinVm.Signature
