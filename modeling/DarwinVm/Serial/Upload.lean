import Mathlib.Data.List.DropRight
import DarwinVm.Lib.Base64
import DarwinVm.Lib.Decimal
import DarwinVm.Lib.Keyed

/-!
# The lines of an upload

`upload` of `tools/serial.py` sends the base64 text of a file to the guest shell, in numbered part
files that the shell joins and decodes. The commands and the markers that it waits for are texts made
of the remote path (`setup`, `part`, `finish`), and `upload` gives all of them, the part lines in the
batches that go under one prompt.
-/

namespace DarwinVm.Serial

/-! ## The remote path -/

/-- The staging namespaces, each with a slash at its end. -/
def roots : List Text :=
  ["/private/var/.dvm-data-seed/".toList, "/private/var/hardware/.dvm-data-seed/".toList]

/-- `remote_path_is_safe`. -/
def remotePathIsSafe (path : Text) : Bool :=
  roots.any (fun root => root.isPrefixOf path ∧ path ≠ root) ∧ ['.', '.'] ∉ path.splitOn '/'

/-- `os.path.dirname`. -/
def dirname (p : Text) : Text :=
  let head := p.rdropWhile (· ≠ '/')
  if head ≠ List.replicate head.length '/' then head.rdropWhile (· = '/') else head

/-- `encoded_path`. -/
def encodedPath (path : Text) : Text := path ++ ".b64".toList

/-- `part_dir`. -/
def partDir (path : Text) : Text := dirname path ++ "/.upload-parts".toList

/-- `part_glob`. -/
def partGlob (path : Text) : Text := partDir path ++ "/*".toList

/-- `part_path`, the file of the part with a number. -/
def partPath (path : Text) (number : ℕ) : Text := partDir path ++ '/' :: zeroPad 6 number

/-! ## The commands -/

/-- A command for the guest shell, with the marker that proves that it ran. -/
structure Entry where
  /-- The line, without its guard and its newline. -/
  command : Text
  /-- What the guest prints. -/
  marker : Text
  deriving DecidableEq

/-- The commands that make room for the upload. -/
def setup (path : Text) : List Entry :=
  [⟨"mkdir -p ".toList ++ dirname path ++ " ".toList ++ partDir path ++
      "; echo DVM_UPLOAD_SETUP_DIR_RC=$?".toList, "DVM_UPLOAD_SETUP_DIR_RC=0".toList⟩,
    ⟨"/bin/rm -f ".toList ++ path ++ " ".toList ++ encodedPath path ++
      "; echo DVM_UPLOAD_SETUP_TARGET_RC=$?".toList, "DVM_UPLOAD_SETUP_TARGET_RC=0".toList⟩,
    ⟨"/bin/rm -f ".toList ++ encodedPath path ++ ".part.*".toList ++ " ".toList ++ partGlob path ++
      "; echo DVM_UPLOAD_SETUP_RC=$?".toList, "DVM_UPLOAD_SETUP_RC=0".toList⟩]

/-- The command that writes a part file and prints its sum. -/
def partCommand (path chunk : Text) (number : ℕ) : Text :=
  "printf '%s' '".toList ++ chunk ++ "' > ".toList ++ partPath path number ++
    "; /bin/cksum ".toList ++ partPath path number

section

-- The sum that `cksum` prints.
variable (cksum : Bytes → UInt32)

/-- The command for a part, with what `cksum` prints for the part. -/
def part (path chunk : Text) (number : ℕ) : Entry where
  command := partCommand path chunk number
  marker := decimal (cksum (utf8 chunk)).toNat ++ ' ' :: decimal chunk.length ++
    ' ' :: partPath path number

/-- The commands that join the parts, decode the text, and check and clean up. -/
def finish (path : Text) (blob : Bytes) : List Entry :=
  [⟨"/bin/cat ".toList ++ partGlob path ++ " > ".toList ++ encodedPath path ++
      "; echo DVM_UPLOAD_JOIN_RC=$?".toList, "DVM_UPLOAD_JOIN_RC=0".toList⟩,
    ⟨"/bin/base64 -d ".toList ++ encodedPath path ++ " > ".toList ++ path ++
      "; echo DVM_UPLOAD_DECODE_RC=$?".toList, "DVM_UPLOAD_DECODE_RC=0".toList⟩,
    ⟨"test \"$(wc -c < ".toList ++ path ++ ")\" -eq ".toList ++ decimal blob.length ++
      "; echo DVM_UPLOAD_SIZE_RC=$?".toList, "DVM_UPLOAD_SIZE_RC=0".toList⟩,
    ⟨"set -- $(cksum ".toList ++ path ++ "); test \"$1\" = ".toList ++
      decimal (cksum blob).toNat ++ "; echo DVM_UPLOAD_CKSUM_RC=$?".toList,
      "DVM_UPLOAD_CKSUM_RC=0".toList⟩,
    ⟨"/bin/rm -f ".toList ++ encodedPath path ++ " ".toList ++ partGlob path ++ "; /bin/rmdir ".toList ++
      partDir path ++ "; echo DVM_UPLOAD_FINAL_RC=$? DVM_UPLOAD_BYTES=".toList ++ decimal blob.length,
      "DVM_UPLOAD_FINAL_RC=0 DVM_UPLOAD_BYTES=".toList ++ decimal blob.length⟩]

/-! ## The batches -/

/-- `line_overhead`, the length of a part line without a chunk. -/
def lineOverhead (path : Text) : ℕ := (": :; ".toList ++ partCommand path [] 1 ++ ['\n']).length

/-- `chunk_bytes`. -/
def chunkBytes (path : Text) : ℤ := min 120 ((252 - (lineOverhead path : ℤ)) / 4 * 4)

/-- The parts of `k` characters, the last of them of the rest. -/
def chunks (k : ℕ) (t : Text) : List Text :=
  (List.range ((t.length + k - 1) / k)).map fun i => (t.drop (i * k)).take k

/-- The entries in batches of `n`, after the `entries` of a batch that is not full. -/
def batches (n : ℕ) : List Entry → List Entry → List (List Entry)
  | entries, [] => if entries = [] then [] else [entries]
  | entries, e :: es =>
    let entries := entries ++ [e]
    if entries.length = n then entries :: batches n [] es else batches n entries es

/-- What `upload` does not go on with. -/
inductive UploadError
  /-- `serial: upload target must be in a supported .dvm-data-seed namespace` -/
  | unsafePath
  /-- `UnicodeEncodeError`: the directory is not in ASCII. -/
  | notAscii
  /-- `serial: upload target leaves no room for a safe chunk line` -/
  | noRoom
  deriving DecidableEq

/-- What an upload sends, each command after the one before it. -/
structure Plan where
  /-- The commands of `setup`. -/
  setup : List Entry
  /-- The part commands, in batches. -/
  batches : List (List Entry)
  /-- The commands of `finish`. -/
  finish : List Entry

/-- The chunks of a file for a path. -/
def fileChunks (path : Text) (blob : Bytes) : List Text :=
  chunks (chunkBytes path).toNat (base64Encode blob)

/-- The part commands for the chunks, numbered from 1. -/
def parts (path : Text) (chunks : List Text) : List Entry :=
  chunks.mapIdx fun i chunk => part cksum path chunk (i + 1)

/-- `upload`, with the size of a batch. Only an unsafe path is refused before the commands of `setup`
are sent. -/
def upload (path : Text) (blob : Bytes) (uploadBatch : ℕ) : Except UploadError Plan :=
  if ¬remotePathIsSafe path then .error .unsafePath
  else if ¬(partDir path).all (·.toNat < 128) then .error .notAscii
  else if chunkBytes path ≤ 0 then .error .noRoom
  else .ok
    { setup := setup path
      batches := batches uploadBatch [] (parts cksum path (fileChunks path blob))
      finish := finish cksum path blob }

end

/-- `send_command`: a line, with its guard and its newline. -/
def wire (command : Text) : Bytes := utf8 (": :; ".toList ++ command ++ ['\n'])

/-- The lines of a plan. -/
def Plan.lines (plan : Plan) : List Bytes :=
  (plan.setup ++ plan.batches.flatten ++ plan.finish).map fun e => wire e.command

/-! ## The sum -/

/-- The remainder of a polynomial, with one more byte. -/
def crcByte (crc : UInt32) (b : UInt8) : UInt32 :=
  (fun c : UInt32 => if c ≥ 0x80000000 then (c <<< 1) ^^^ 0x04C11DB7 else c <<< 1)^[8]
    (crc ^^^ (b.toUInt32 <<< 24))

/-- A number in as few bytes as it has, the last of them first. -/
def lengthBytes (n : ℕ) : Bytes := if n = 0 then [] else leBytes (n.log2 / 8 + 1) n

/-- The sum that `cksum` of POSIX prints. -/
def posixCksum (s : Bytes) : UInt32 := ~~~((s ++ lengthBytes s.length).foldl crcByte 0)

example : posixCksum (ascii "123456789".toList) = 930766865 := by decide +kernel

/-! ## The directory -/

/-- What is dropped at the end of a text ends at the last character that is not. -/
theorem prefix_rdropWhile {p : Char → Bool} {x : Char} (hx : ¬p x) (a : Text) :
    ∀ b : Text, a ++ [x] <+: (a ++ [x] ++ b).rdropWhile p := by
  intro b
  induction b using List.reverseRecOn with
  | nil => rw [List.append_nil, List.rdropWhile_concat_neg _ _ _ hx]
  | append_singleton b c ih =>
    rw [← List.append_assoc, List.rdropWhile_concat]
    split_ifs
    · exact ih
    · exact (List.prefix_append (a ++ [x]) b).trans (List.prefix_append _ _)

/-- A safe path is in a staging namespace, has a name there, and no component that leads out. -/
theorem remotePathIsSafe_iff {path : Text} : remotePathIsSafe path = true ↔
    (∃ root ∈ roots, ∃ name, name ≠ [] ∧ path = root ++ name) ∧ ['.', '.'] ∉ path.splitOn '/' := by
  rw [remotePathIsSafe, decide_eq_true_iff, List.any_eq_true]
  refine and_congr_left fun _ => exists_congr fun root => and_congr_right fun _ => ?_
  rw [decide_eq_true_iff, List.isPrefixOf_iff_prefix]
  constructor
  · rintro ⟨⟨name, rfl⟩, hne⟩
    exact ⟨name, fun h => hne (by rw [h, List.append_nil]), rfl⟩
  · rintro ⟨name, hne, rfl⟩
    exact ⟨List.prefix_append root name, fun h => hne (List.append_right_eq_self.mp h)⟩

/-- The directory of a path in a namespace is the namespace or in it. -/
theorem prefix_dirname {root : Text} (hroot : root ∈ roots) (name : Text) :
    root.dropLast <+: dirname (root ++ name) := by
  obtain ⟨r, hr⟩ : ∃ r, root = r ++ ['d'] ++ ['/'] := by
    simp only [roots, List.mem_cons, List.not_mem_nil, or_false] at hroot
    obtain rfl | rfl := hroot
    · exact ⟨"/private/var/.dvm-data-see".toList, by decide⟩
    · exact ⟨"/private/var/hardware/.dvm-data-see".toList, by decide⟩
  obtain ⟨b, hb⟩ := prefix_rdropWhile (p := (· ≠ '/')) (x := '/') (by decide) (r ++ ['d']) name
  rw [dirname, hr, List.dropLast_concat, ← hb]
  have hne : r ++ ['d'] ++ ['/'] ++ b ≠
      List.replicate (r ++ ['d'] ++ ['/'] ++ b).length '/' := fun h => by
    have hmem : 'd' ∈ r ++ ['d'] ++ ['/'] ++ b := by simp
    rw [h] at hmem
    exact absurd (List.eq_of_mem_replicate hmem) (by decide)
  rw [if_pos hne, List.append_assoc (r ++ ['d'])]
  exact prefix_rdropWhile (by decide) r _

end DarwinVm.Serial
