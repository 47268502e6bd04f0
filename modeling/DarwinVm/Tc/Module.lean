import Mathlib.Data.Char
import Mathlib.Data.List.Lex
import DarwinVm.Lib.Except
import DarwinVm.Lib.PyText
import DarwinVm.Lib.Keyed

/-!
# Trust cache modules

The binary format of `build_tc.py` and `tools/rootfs/merge_tc.py`: a header of 24 bytes, with a
version, a UUID, and a count, and as many entries, of 22 bytes in version 1 and of 24 in version 2,
each of which begins with a hash of 20 bytes. `make_trustcache` writes a module of version 1 for a
list of hashes, and `main` merges modules into one of version 2.
-/

namespace DarwinVm.Tc

/-- What the two tools raise. -/
inductive Error
  /-- `AssertionError`: a line that is not of 40 characters. -/
  | assertion
  /-- `ValueError` of `bytes.fromhex` -/
  | value
  /-- `struct.error` -/
  | struct
  /-- `f"{path}: unsupported trust cache version {version}"` -/
  | unsupportedVersion (path : Text) (version : ℕ)
  /-- `f"{path}: size mismatch (v{version}, {n} entries, {len(data)} B)"` -/
  | sizeMismatch (path : Text) (version n length : ℕ)
  /-- `"usage: merge_tc.py out.bin in1.bin [in2.bin ...]"` -/
  | usage
  deriving DecidableEq

/-- The hash of an entry, `e[:20]`. -/
def entryHash (e : Bytes) : Bytes := e.take 20

/-- `HDR.pack(version, uuid, n)`, with numbers that fit their fields. -/
def header (version : ℕ) (uuid : Bytes) (n : ℕ) : Bytes := leBytes 4 version ++ uuid ++ leBytes 4 n

@[simp] theorem length_header {version n : ℕ} {uuid : Bytes} (h : uuid.length = 16) :
    (header version uuid n).length = 24 := by
  simp only [header, List.length_append, length_leBytes, h]

/-- The fields of a header. -/
theorem slice_header {version n : ℕ} {uuid rest : Bytes} (h : uuid.length = 16) :
    slice (header version uuid n ++ rest) 0 4 = leBytes 4 version ∧
      slice (header version uuid n ++ rest) 4 20 = uuid ∧
        slice (header version uuid n ++ rest) 20 24 = leBytes 4 n := by
  have hv := length_leBytes 4 version
  have hn := length_leBytes 4 n
  simp only [header, List.append_assoc]
  generalize leBytes 4 version = v at hv ⊢
  generalize leBytes 4 n = c at hn ⊢
  refine ⟨?_, ?_, ?_⟩
  · rw [slice, List.drop_zero, Nat.sub_zero, ← hv, List.take_left]
  · rw [slice, ← hv, List.drop_left, hv, show 20 - 4 = 16 from rfl, ← h, List.take_left]
  · rw [slice, show 20 = (v ++ uuid).length by rw [List.length_append, hv, h], ← List.append_assoc,
      List.drop_left, List.length_append, hv, h, show 24 - (4 + 16) = 4 from rfl, ← hn,
      List.take_left]

/-- The first 24 bytes are the header of their fields. -/
theorem header_eq_take {data : Bytes} (h : 24 ≤ data.length) :
    header (leNat (slice data 0 4)) (slice data 4 20) (leNat (slice data 20 24)) = data.take 24 := by
  have hlen : ∀ i, i + 4 ≤ 24 → (slice data i (i + 4)).length = 4 := by
    intro i hi
    rw [length_slice]
    omega
  have h0 := leBytes_leNat (slice data 0 4)
  have h20 := leBytes_leNat (slice data 20 24)
  rw [hlen 0 (by omega)] at h0
  rw [hlen 20 (by omega)] at h20
  have h4 : data.take 4 ++ (data.drop 4).take 16 = data.take 20 := List.take_add.symm
  have h16 : data.take 20 ++ (data.drop 20).take 4 = data.take 24 := List.take_add.symm
  rw [header, h0, h20, slice, slice, slice, List.drop_zero]
  exact (congrArg (· ++ _) h4).trans h16

/-! ## Building -/

/-- Where `str.splitlines` ends a line. -/
def isLineBoundary (c : Char) : Bool :=
  (10 ≤ c.toNat ∧ c.toNat ≤ 13) ∨ (28 ≤ c.toNat ∧ c.toNat ≤ 30) ∨ c.toNat = 0x85 ∨
    c.toNat = 0x2028 ∨ c.toNat = 0x2029

/-- `str.splitlines`, with the part of the first line that has been read. -/
def splitlinesFrom : Text → Text → List Text
  | line, [] => if line = [] then [] else [line]
  | line, c :: s =>
    if isLineBoundary c then
      -- A carriage return and a newline end one line.
      match c, s with
      | '\r', '\n' :: s => line :: splitlinesFrom [] s
      | _, s => line :: splitlinesFrom [] s
    else splitlinesFrom (line ++ [c]) s

/-- `str.splitlines` -/
def splitlines (s : Text) : List Text := splitlinesFrom [] s

/-- An entry of `make_trustcache`: the hash that the line spells, the hash type, and no flags. -/
def makeEntry (h : Text) : Except Error Bytes :=
  match fromHex h with
  | some hash => .ok (hash ++ [2] ++ [0])
  | none => .error .value

/-- `make_trustcache`, from the text of the hash list to the bytes that are written. -/
def makeTrustcache (text : Text) : Except Error Bytes := do
  let hashes := (splitlines text).insertionSort (· ≤ ·)
  if hashes.any fun h => h.length ≠ 40 then .error .assertion else
  if ¬hashes.length < 2 ^ 32 then .error .struct else
  let entries ← hashes.mapM makeEntry
  .ok (header 1 (List.replicate 16 65) hashes.length ++ entries.flatten)

/-! ## Merging -/

/-- `load`, on the data of the file. -/
def load (path : Text) (data : Bytes) : Except Error (ℕ × Bytes × List Bytes) := do
  if data.length < 24 then .error .struct else
  let version := leNat (slice data 0 4)
  let uuid := slice data 4 20
  let n := leNat (slice data 20 24)
  let elen ←
    if version = 2 then .ok 24
    else if version = 1 then .ok 22
    else .error (.unsupportedVersion path version)
  if data.length ≠ 24 + n * elen then .error (.sizeMismatch path version n data.length) else
  let entries := (List.range n).map fun i =>
    let e := slice data (24 + i * elen) (24 + (i + 1) * elen)
    if elen = 22 then e ++ [0, 0] else e
  .ok (version, uuid, entries)

/-- A module that `load` has accepted. -/
structure Loaded (version : ℕ) (uuid : Bytes) (raw entries : List Bytes) : Prop where
  uuid : uuid.length = 16
  count : raw.length < 2 ^ 32
  /-- The entries of version 1 are extended by zeros. -/
  entries : (version = 2 ∧ (∀ e ∈ raw, e.length = 24) ∧ entries = raw) ∨
    (version = 1 ∧ (∀ e ∈ raw, e.length = 22) ∧ entries = raw.map (· ++ [0, 0]))

/-- Data of `n` entries of a length are read in full. -/
theorem entries_spec {data : Bytes} {n elen : ℕ} (h : data.length = 24 + n * elen) :
    let raw := (List.range n).map fun i => slice data (24 + i * elen) (24 + (i + 1) * elen)
    raw.length = n ∧ (∀ e ∈ raw, e.length = elen) ∧ data = data.take 24 ++ raw.flatten := by
  refine ⟨by rw [List.length_map, List.length_range], fun e he => ?_, ?_⟩
  · obtain ⟨i, hi, rfl⟩ := List.mem_map.mp he
    have hle : (i + 1) * elen ≤ n * elen := Nat.mul_le_mul_right _ (List.mem_range.mp hi)
    rw [length_slice, h]
    rw [Nat.add_one_mul] at hle ⊢
    omega
  · rw [flatten_map_slice h.symm, List.take_append_drop]

/-- `load` accepts the modules of the two versions. -/
theorem load_eq_ok_iff {path : Text} {data uuid : Bytes} {version : ℕ} {entries : List Bytes} :
    load path data = .ok (version, uuid, entries) ↔ ∃ raw, Loaded version uuid raw entries ∧
      data = header version uuid raw.length ++ raw.flatten := by
  constructor
  · intro h
    rw [load] at h
    split at h
    · cases h
    rename_i hshort
    have hlen : 24 ≤ data.length := not_lt.mp hshort
    have huuid : (slice data 4 20).length = 16 := by
      rw [length_slice]
      omega
    have hcount : leNat (slice data 20 24) < 2 ^ 32 := by
      have hlt := leNat_lt (slice data 20 24)
      rw [length_slice, show min (24 - 20) (data.length - 20) = 4 by omega] at hlt
      exact hlt
    have hheader := header_eq_take hlen
    generalize leNat (slice data 0 4) = v at h hheader
    generalize slice data 4 20 = u at h huuid hheader
    generalize leNat (slice data 20 24) = n at h hcount hheader
    simp only [bind] at h
    split at h
    · rename_i hv
      rw [Except.bind] at h
      split at h
      · cases h
      rename_i hsize
      obtain ⟨hraw, heach, hdata⟩ := entries_spec (not_not.mp hsize)
      cases h
      refine ⟨_, ⟨huuid, ?_, .inl ⟨hv, heach, ?_⟩⟩, ?_⟩
      · rw [hraw]
        exact hcount
      · simp only [show (24 : ℕ) = 22 ↔ False by decide, if_false]
      · rw [hraw, hheader]
        exact hdata
    · split at h
      · rename_i hv
        rw [Except.bind] at h
        split at h
        · cases h
        rename_i hsize
        obtain ⟨hraw, heach, hdata⟩ := entries_spec (not_not.mp hsize)
        cases h
        refine ⟨_, ⟨huuid, ?_, .inr ⟨hv, heach, ?_⟩⟩, ?_⟩
        · rw [hraw]
          exact hcount
        · rw [List.map_map]
          rfl
        · rw [hraw, hheader]
          exact hdata
      · cases h
  · rintro ⟨raw, ⟨huuid, hcount, hentries⟩, rfl⟩
    have hheader : (header version uuid raw.length).length = 24 := length_header huuid
    obtain ⟨hversion, hu, hn⟩ :=
      @slice_header version raw.length uuid raw.flatten huuid
    have hlen : (header version uuid raw.length ++ raw.flatten).length = 24 + raw.flatten.length := by
      rw [List.length_append, hheader]
    have hflat : ∀ elen, (∀ e ∈ raw, e.length = elen) → raw.flatten.length = raw.length * elen := by
      intro elen h
      rw [List.length_flatten, List.map_congr_left h, List.map_const', List.sum_replicate_nat]
    rw [load, if_neg (by omega), hu, hn, leNat_leBytes_of_lt (by omega)]
    rcases hentries with ⟨rfl, heach, rfl⟩ | ⟨rfl, heach, hentries⟩
    · have hmap := map_slice_flatten (header 2 uuid entries.length) heach
      rw [hheader] at hmap
      simp only [hversion, leNat_leBytes_of_lt (show 2 < 256 ^ 4 by decide), if_true, bind,
        Except.bind, show (24 : ℕ) = 22 ↔ False by decide, if_false, hmap]
      rw [if_neg (not_not.mpr (by rw [hlen, hflat 24 heach]))]
    · have hmap := map_slice_flatten (header 1 uuid raw.length) heach
      rw [hheader] at hmap
      simp only [hversion, leNat_leBytes_of_lt (show 1 < 256 ^ 4 by decide),
        show (1 : ℕ) = 2 ↔ False by decide, if_true, bind, Except.bind, if_false]
      rw [if_neg (not_not.mpr (by rw [hlen, hflat 22 heach]))]
      have hpad := congrArg (List.map (· ++ [(0 : UInt8), 0])) hmap
      rw [List.map_map] at hpad
      rw [hentries, ← hpad]
      rfl

/-- What `main` keeps from one module to the next. -/
structure Merge where
  all_entries : List Bytes
  seen : List Bytes
  dupes : ℕ
  uuid0 : Option Bytes

/-- One turn of the loop over the entries of a module. -/
def Merge.addEntry (s : Merge) (e : Bytes) : Merge :=
  if entryHash e ∈ s.seen then { s with dupes := s.dupes + 1 }
  else { s with seen := entryHash e :: s.seen, all_entries := s.all_entries ++ [e] }

/-- One turn of the loop over the modules, each with its path and its data. -/
def Merge.addModule (s : Merge) (m : Text × Bytes) : Except Error Merge := do
  let (_, uuid, entries) ← load m.1 m.2
  let s := if s.uuid0 = none then { s with uuid0 := some uuid } else s
  .ok (entries.foldl Merge.addEntry s)

/-- `main`, from the modules to the bytes that are written. -/
def main (modules : List (Text × Bytes)) : Except Error Bytes := do
  if modules = [] then .error .usage else
  let s ← modules.foldlM Merge.addModule ⟨[], [], 0, none⟩
  let all_entries := sortByKey entryHash s.all_entries
  if ¬all_entries.length < 2 ^ 32 then .error .struct else
  match s.uuid0 with
  | none => .error .struct
  | some uuid0 => .ok (header 2 uuid0 all_entries.length ++ all_entries.flatten)

end DarwinVm.Tc
