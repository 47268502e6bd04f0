import DarwinVm.Lib.Digits
import DarwinVm.Lib.Keyed
import DarwinVm.Lib.Patch
import DarwinVm.Lib.Unicode
import DarwinVm.Signature.Directory
import Mathlib.Data.List.Lex
import Mathlib.Data.Prod.Lex

/-!
# Patched pages of a shared cache

`cache_payload` of `tools/rootfs/bootstrap_profile.py` checks reviewed edits of a shared cache
(`reviewedEdits`) and returns the regions of the file that are to be written: each page that is
edited, and its hash in the code directory of the file's signature. The file is not written here, but
by the installer, which checks what stands in each region before.

The pages are hashed one by one into one copy of the code directory. `cachePayload_patches` says what
the file is after the regions have been written, in any order.
-/

namespace DarwinVm.Signature

/-- A value that `json.loads` can return. The values of floats are not told apart. -/
inductive Json
  | null
  | bool (b : Bool)
  | int (n : ℤ)
  | float
  | string (s : Text)
  | array (items : List Json)
  | object (items : List (Text × Json))

namespace Payload

/-- What `cache_payload` raises. -/
inductive Error
  /-- `ValueError` with a message of the tools. -/
  | value (message : String)
  /-- `ValueError` of `int` or of `bytes.fromhex`. -/
  | literal
  /-- `TypeError` -/
  | type
  /-- `KeyError` -/
  | key
  /-- What `parse_code_directory` raises. -/
  | directory (e : Signature.Error)
  deriving DecidableEq

/-- `v[k]` for a text `k`. -/
def getItem (v : Json) (k : Text) : Except Error Json :=
  match v with
  | .object items =>
    match items.lookup k with
    | some x => .ok x
    | none => .error .key
  | _ => .error .type

/-- What `for item in v` goes over. -/
def iter : Json → Except Error (List Json)
  | .array items => .ok items
  | .object items => .ok (items.map fun p => .string p.1)
  | .string s => .ok (s.map fun c => .string [c])
  | _ => .error .type

/-! ## Edits -/

/-- `PAGE_SIZE` -/
def pageSize : ℕ := 16384

/-- An edit: the bytes at an offset, and those that replace them. -/
structure Edit where
  offset : ℕ
  before : Bytes
  after : Bytes
  deriving DecidableEq

/-- `re.fullmatch(r'dyld_shared_cache_arm64e(?:\.\d{2})?', name)` -/
def isCacheName (name : Text) : Bool :=
  let base := "dyld_shared_cache_arm64e".toList
  base.isPrefixOf name &&
    match name.drop base.length with
    | [] => true
    | ['.', a, b] => (decimal? a).isSome && (decimal? b).isSome
    | _ => false

/-- The check of `spec['cache_name']`. -/
def checkName (spec : Json) : Except Error Unit := do
  match ← getItem spec "cache_name".toList with
  | .string name =>
    if isCacheName name then .ok () else .error (.value "unsupported cache filename")
  | _ => .error .type

/-- The check of `spec.get('purpose')`, for a `spec` that is a dictionary. -/
def checkPurpose (spec : Json) : Except Error Unit :=
  match getItem spec "purpose".toList with
  | .ok (.string s) =>
    if s.all isWhitespace then .error (.value "a reviewed purpose is required") else .ok ()
  | _ => .error (.value "a reviewed purpose is required")

/-- The offset of an edit, which is `none` if it is not an integer. -/
def readOffset : Json → Except Error (Option ℤ)
  | .string s =>
    match pyInt0 s with
    | some n => .ok (some n)
    | none => .error .literal
  | .int n => .ok (some n)
  | _ => .ok none

/-- `bytes.fromhex(v)` -/
def readHex : Json → Except Error Bytes
  | .string s =>
    match fromHex s with
    | some b => .ok b
    | none => .error .literal
  | _ => .error .type

/-- The offset and the bytes of an edit, as the item says. -/
def readEdit (item : Json) : Except Error (Option ℤ × Bytes × Bytes) := do
  let offset ← readOffset (← getItem item "offset".toList)
  let before ← readHex (← getItem item "before".toList)
  let after ← readHex (← getItem item "after".toList)
  .ok (offset, before, after)

/-- The checks of one edit. -/
def checkEdit (file : Bytes) (item : Json) : Except Error Edit := do
  let (offset, before, after) ← readEdit item
  match offset with
  | none => .error (.value "edits require equal nonempty lengths after the cache header")
  | some offset =>
    if offset < 4096 ∨ before = [] ∨ before.length ≠ after.length then
      .error (.value "edits require equal nonempty lengths after the cache header")
    else
      let offset := offset.toNat
      if pageSize < before.length ∨
          offset / pageSize ≠ (offset + before.length - 1) / pageSize then
        .error (.value "each edit must fit in one code page")
      else if slice file offset (offset + before.length) ≠ before then
        .error (.value ("preimage mismatch at " ++ String.ofList (pyHex offset)))
      else if before = after then .error (.value "no-op edit")
      else .ok ⟨offset, before, after⟩

/-- `edits.sort()` -/
def sortEdits (edits : List Edit) : List Edit :=
  sortByKey (fun e => toLex (e.offset, toLex (e.before, e.after))) edits

/-- An edit goes on where the next one starts. -/
def overlapping (edits : List Edit) : Bool :=
  (edits.zip edits.tail).any fun (left, right) => right.offset < left.offset + left.before.length

/-- `reviewed_edits`, on the bytes of the file. -/
def reviewedEdits (spec : Json) (file : Bytes) : Except Error (List Edit) := do
  checkName spec
  checkPurpose spec
  let items ← iter (← getItem spec "edits".toList)
  let edits ← items.mapM (checkEdit file)
  if edits = [] ∨ 32 < edits.length then .error (.value "requires 1..32 reviewed edits")
  else if overlapping (sortEdits edits) then .error (.value "overlapping edits")
  else .ok (sortEdits edits)

/-! ## The payload -/

/-- A region that is to be written, with what it holds before. -/
structure Region where
  offset : ℕ
  before : Bytes
  after : Bytes
  deriving DecidableEq

/-- The bytes of a page with its edits. -/
def editPage (edits : List Edit) (page : ℕ) (before : Bytes) : Bytes :=
  edits.foldl (fun after e =>
    if e.offset / pageSize = page then
      let within := e.offset % pageSize
      assign after within (within + e.before.length) e.after
    else after) before

/-- The header of the file. -/
def headerOf (file : Bytes) : Bytes := slice file 0 4096

/-- Where the signature starts, as the header says. -/
def signatureOffset (file : Bytes) : ℕ := leNat (slice (headerOf file) 0x28 0x30)

/-- The size of the signature, as the header says. -/
def signatureSize (file : Bytes) : ℕ := leNat (slice (headerOf file) 0x30 0x38)

/-- The signature of the file. -/
def signatureOf (file : Bytes) : Bytes :=
  slice file (signatureOffset file) (signatureOffset file + signatureSize file)

/-- `parse_code_directory` -/
def parse (signature : Bytes) (page : ℕ) (required_code_end : ℤ) : Except Error CodeDirectory :=
  (parseCodeDirectory signature page required_code_end).mapError .directory

variable (sha256 : Bytes → Digest) (cache : String) (file : Bytes)

/-- The body of the loop over the pages: the code directory and the regions after a page. -/
def pageStep (cd_offset : ℕ) (edits : List Edit) (state : Bytes × List Region) (page : ℕ) :
    Except Error (Bytes × List Region) := do
  let (cd, regions) := state
  let before := slice file (page * pageSize) (page * pageSize + pageSize)
  let r ← parse (signatureOf file) page 0
  let slot := r.slot_offset
  let old_hash := slice cd slot (slot + 32)
  if before.length ≠ pageSize ∨ (sha256 before).1 ≠ old_hash then
    .error (.value ("original signed page mismatch: " ++ cache ++ ", page " ++ toString page))
  else
    let after := editPage edits page before
    let new_hash := (sha256 after).1
    .ok (assign cd slot (slot + 32) new_hash,
      regions ++ [⟨page * pageSize, before, after⟩,
        ⟨signatureOffset file + cd_offset + slot, old_hash, new_hash⟩])

/-- The pages that are edited, in their order. -/
def editedPages (edits : List Edit) : List ℕ :=
  sortByKey id (edits.map fun e => e.offset / pageSize).dedup

/-- `hashlib.sha256(data).hexdigest()` -/
def hexdigest (data : Bytes) : Bytes := (sha256 data).1.flatMap hexPair

/-- `cache_payload`, on the bytes of the file at the path `cache`, and with `hashlib.sha256` as
`sha256`. -/
def cachePayload (spec : Json) : Except Error (List Region × Bytes) := do
  let header := headerOf file
  if header.length ≠ 4096 ∨ ¬ascii "dyld".toList <+: header then
    .error (.value ("invalid shared cache: " ++ cache))
  else if 32 * 1024 * 1024 < signatureSize file ∨
      file.length < signatureOffset file + signatureSize file then
    .error (.value "invalid signature bounds")
  else
    let edits ← reviewedEdits spec file
    let end_ : ℕ := (edits.map fun e => e.offset + e.before.length).foldr max 0
    let r ← parse (signatureOf file) 0 end_
    let (cd, regions) ← (editedPages edits).foldlM (pageStep sha256 cache file r.cd_offset edits)
      (r.cd, [⟨0, header, header⟩])
    .ok (regions, (hexdigest sha256 cd).take 40)

end Payload

end DarwinVm.Signature
