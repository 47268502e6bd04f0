import Mathlib
import DarwinVm.Serial.Upload

/-!
# The framing of an upload

The shell joins the part files in the order of their names (`joined`). With fewer than a million
parts the names have six digits and the order of the numbers, so that the joined text is the base64
text of the file; the seventh digit of the millionth part breaks the order, and lengthens the line of
the part, which was measured with six. Of the other lines, the last one, which cleans up, is the
longest, and nothing bounds the name of the file in it. `upload_framing` says exactly when the joined
text is decoded to the file and all lines are short.
-/

namespace DarwinVm.Serial

/-- The texts in the order of the names of their files, joined: `cat part_dir/*`. -/
def joined (path : Text) (chunks : List Text) : Text :=
  ((sortByKey Prod.fst (chunks.mapIdx fun i chunk => (partPath path (i + 1), chunk))).map
    Prod.snd).flatten

/-- The condition for an upload that is framed well. -/
structure Fits (path : Text) (blob : Bytes) : Prop where
  /-- There are fewer than a million parts, or those from the millionth on are in places where they
  do not change the text. -/
  order : (fileChunks path blob).length < 10 ^ 6 ∨
    joined path (fileChunks path blob) = (fileChunks path blob).flatten
  /-- The lines from the millionth part on are short. -/
  wide : ∀ i chunk, (fileChunks path blob)[i]? = some chunk → 10 ^ 6 ≤ i + 1 →
    2 * (dirname path).length + 2 * (decimal (i + 1)).length + chunk.length ≤ 186
  /-- The line that cleans up is short. -/
  cleanup : (utf8 path).length + 2 * (dirname path).length + (decimal blob.length).length ≤ 140

/-! ## The chunks -/

/-- The parts of a text make up the text. -/
theorem flatten_range_map {k : ℕ} {t : Text} : ∀ {n : ℕ}, t.length ≤ n * k →
    ((List.range n).map fun i => (t.drop (i * k)).take k).flatten = t
  | 0, h => by
    rw [Nat.zero_mul] at h
    rw [List.length_eq_zero_iff.mp (Nat.le_zero.mp h)]
    rfl
  | n + 1, h => by
    have hrest : (t.drop k).length ≤ n * k := by
      rw [List.length_drop]
      rw [Nat.succ_mul] at h
      omega
    have hcongr : ((fun i => (t.drop (i * k)).take k) ∘ Nat.succ) =
        fun i => ((t.drop k).drop (i * k)).take k := by
      funext i
      simp only [Function.comp_apply, Nat.succ_mul, List.drop_drop, Nat.add_comm]
    rw [List.range_succ_eq_map, List.map_cons, List.map_map, List.flatten_cons, hcongr,
      flatten_range_map hrest, Nat.zero_mul, List.drop_zero, List.take_append_drop]

theorem flatten_chunks {k : ℕ} (hk : 0 < k) (t : Text) : (chunks k t).flatten = t := by
  refine flatten_range_map ?_
  have := Nat.div_add_mod (t.length + k - 1) k
  have hmod := Nat.mod_lt (t.length + k - 1) hk
  rw [Nat.mul_comm]
  omega

theorem length_le_of_mem_chunks {k : ℕ} {t chunk : Text} (h : chunk ∈ chunks k t) :
    chunk.length ≤ k := by
  obtain ⟨i, -, rfl⟩ := List.mem_map.mp h
  exact List.length_take_le ..

/-- No entry is lost between batches. -/
theorem flatten_batches (n : ℕ) : ∀ entries es : List Entry,
    (batches n entries es).flatten = entries ++ es
  | entries, [] => by
    rw [batches]
    split_ifs with h
    · rw [h]
      rfl
    · rw [List.flatten_singleton, List.append_nil]
  | entries, e :: es => by
    rw [batches]
    split_ifs
    · rw [List.flatten_cons, flatten_batches n [] es, List.append_assoc]
      rfl
    · rw [flatten_batches n _ es, List.append_assoc]
      rfl

/-! ## The names -/

/-- The names of the parts below the millionth have the order of the numbers. -/
theorem partPath_lt (path : Text) {m n : ℕ} (hmn : m < n) (hn : n < 10 ^ 6) :
    partPath path m < partPath path n := by
  rw [partPath, partPath, zeroPad_eq (by norm_num) (hmn.trans hn), zeroPad_eq (by norm_num) hn]
  exact List.append_left_lt (List.cons_lt_cons_iff.mpr (Or.inr ⟨rfl, padded_lt hmn hn⟩))

/-- The millionth name comes before the one of the part before it. -/
example : zeroPad 6 1000000 < zeroPad 6 999999 := by decide +kernel

/-- Fewer than a million parts are joined in the order of their numbers. -/
theorem joined_eq (path : Text) {chunks : List Text} (h : chunks.length < 10 ^ 6) :
    joined path chunks = chunks.flatten := by
  have hasc : Ascending Prod.fst
      (chunks.mapIdx fun i chunk => (partPath path (i + 1), chunk)) := by
    refine List.pairwise_iff_getElem.mpr fun i j hi hj hij => ?_
    rw [List.getElem_mapIdx, List.getElem_mapIdx]
    rw [List.length_mapIdx] at hj
    exact partPath_lt path (Nat.succ_lt_succ hij) (by omega)
  have hsnd : (chunks.mapIdx fun i chunk => (partPath path (i + 1), chunk)).map Prod.snd = chunks := by
    refine List.ext_getElem (by rw [List.length_map, List.length_mapIdx]) fun i hi hj => ?_
    rw [List.getElem_map, List.getElem_mapIdx]
  rw [joined, hasc.sortByKey_eq, hsnd]

/-! ## The lines -/

theorem length_utf8_append (t t' : Text) :
    (utf8 (t ++ t')).length = (utf8 t).length + (utf8 t').length := by
  rw [utf8, List.flatMap_append, List.length_append]
  rfl

theorem length_utf8_cons {c : Char} (hc : c.toNat < 128) (t : Text) :
    (utf8 (c :: t)).length = (utf8 t).length + 1 := by
  have hsize : c.utf8Size = 1 := by
    rw [Char.utf8Size_eq_one_iff, UInt32.le_iff_toNat_le]
    exact Nat.le_of_lt_succ hc
  rw [utf8_cons, List.length_append, String.length_utf8EncodeChar, hsize, Nat.add_comm]

/-- An ASCII text takes one byte for each character. -/
theorem length_utf8_ascii : ∀ {t : Text}, (∀ c ∈ t, c.toNat < 128) → (utf8 t).length = t.length
  | [], _ => rfl
  | c :: t, h => by
    rw [List.forall_mem_cons] at h
    rw [length_utf8_cons h.1, length_utf8_ascii h.2, List.length_cons]

theorem length_utf8_decimal (n : ℕ) : (utf8 (decimal n)).length = (decimal n).length :=
  length_utf8_ascii fun _ hc => lt_of_isDigit (isDigit_of_mem_decimal hc)

/-- A guard of five bytes, the command and a newline. -/
theorem length_wire (command : Text) : (wire command).length = (utf8 command).length + 6 := by
  rw [wire, length_utf8_append, length_utf8_append]
  simp +ground only []
  omega

section

variable {cksum : Bytes → UInt32} {path : Text} {blob : Bytes}

theorem length_encodedPath : (utf8 (encodedPath path)).length = (utf8 path).length + 4 := by
  rw [encodedPath, length_utf8_append]
  simp +ground only []

theorem length_partDir : (utf8 (partDir path)).length = (utf8 (dirname path)).length + 14 := by
  rw [partDir, length_utf8_append]
  simp +ground only []

theorem length_partGlob : (utf8 (partGlob path)).length = (utf8 (dirname path)).length + 16 := by
  rw [partGlob, length_utf8_append, length_partDir]
  simp +ground only []

theorem length_partPath (number : ℕ) : (utf8 (partPath path number)).length =
    (utf8 (dirname path)).length + 15 + max 6 (decimal number).length := by
  have hpad : ∀ c ∈ zeroPad 6 number, c.toNat < 128 := fun c hc =>
    lt_of_isDigit (isDigit_of_mem_zeroPad hc)
  rw [partPath, length_utf8_append, length_partDir, length_utf8_cons (by decide),
    length_utf8_ascii hpad, length_zeroPad]
  omega

/-- The lines that make room are short when the last one is. -/
theorem setup_short (h : (utf8 path).length + 2 * (utf8 (dirname path)).length ≤ 139)
    (hdir : 27 ≤ (utf8 (dirname path)).length) :
    ∀ e ∈ setup path, (wire e.command).length ≤ 252 := by
  simp only [setup, List.forall_mem_cons, length_wire, length_utf8_append, length_encodedPath,
    length_partDir, length_partGlob, List.not_mem_nil, false_implies, implies_true, and_true]
  simp +ground only []
  refine ⟨?_, ?_, ?_⟩ <;> omega

theorem length_decimal_le {n k : ℕ} (hk : 0 < k) : (decimal n).length ≤ k ↔ n < 10 ^ k :=
  Nat.length_toDigits_le_iff (by norm_num) hk

/-- The other lines are short exactly when the one that cleans up is. -/
theorem finish_short_iff (hdir : 27 ≤ (utf8 (dirname path)).length) :
    (∀ e ∈ finish cksum path blob, (wire e.command).length ≤ 252) ↔
      (utf8 path).length + 2 * (utf8 (dirname path)).length + (decimal blob.length).length ≤ 140 := by
  have hsum : (decimal (cksum blob).toNat).length ≤ 10 :=
    (length_decimal_le (by norm_num)).mpr ((cksum blob).toNat_lt.trans (by norm_num))
  simp only [finish, List.forall_mem_cons, length_wire, length_utf8_append, length_encodedPath,
    length_partDir, length_partGlob, length_utf8_decimal, List.not_mem_nil, false_implies,
    implies_true, and_true]
  simp +ground only []
  constructor
  · rintro ⟨-, -, -, -, h⟩
    omega
  · intro h
    refine ⟨?_, ?_, ?_, ?_, ?_⟩ <;> omega

/-- The line of a part. -/
theorem length_wire_part {chunk : Text} (hchunk : ∀ c ∈ chunk, c.toNat < 128) (number : ℕ) :
    (wire (part cksum path chunk number).command).length =
      66 + 2 * (utf8 (dirname path)).length + 2 * max 6 (decimal number).length + chunk.length := by
  unfold part partCommand
  simp only [length_wire, length_utf8_append, length_partPath, length_utf8_ascii hchunk]
  simp +ground only []
  omega

theorem lineOverhead_eq : lineOverhead path = 78 + 2 * (dirname path).length := by
  have hone : (zeroPad 6 1).length = 6 := rfl
  unfold lineOverhead partCommand partPath partDir
  simp only [List.length_append, List.length_cons, hone]
  simp +ground only []
  omega

/-- A line with six digits has room for a chunk. -/
theorem chunkBytes_le (h : 0 < chunkBytes path) :
    (chunkBytes path).toNat + 2 * (dirname path).length ≤ 174 := by
  rw [chunkBytes, lineOverhead_eq] at h ⊢
  omega

/-- The chunks of a file are texts in base64. -/
theorem fileChunks_subset {chunk : Text} (h : chunk ∈ fileChunks path blob) :
    chunk ⊆ '=' :: base64Alphabet := by
  obtain ⟨i, -, rfl⟩ := List.mem_map.mp h
  exact fun c hc => base64Encode_subset blob (List.mem_of_mem_drop (List.mem_of_mem_take hc))

theorem fileChunks_ascii {chunk : Text} (h : chunk ∈ fileChunks path blob) :
    ∀ c ∈ chunk, c.toNat < 128 := by
  have hascii : ∀ c ∈ '=' :: base64Alphabet, c.toNat < 128 := by decide +kernel
  exact fun c hc => hascii c (fileChunks_subset h hc)

/-- The lines of the parts are short exactly when those from the millionth on are. -/
theorem parts_short_iff (hascii : (utf8 (dirname path)).length = (dirname path).length)
    (hroom : 0 < chunkBytes path) :
    (∀ e ∈ parts cksum path (fileChunks path blob), (wire e.command).length ≤ 252) ↔
      ∀ i chunk, (fileChunks path blob)[i]? = some chunk → 10 ^ 6 ≤ i + 1 →
        2 * (dirname path).length + 2 * (decimal (i + 1)).length + chunk.length ≤ 186 := by
  have hline {i : ℕ} {chunk : Text} (h : (fileChunks path blob)[i]? = some chunk) :
      (wire (part cksum path chunk (i + 1)).command).length =
        66 + 2 * (utf8 (dirname path)).length + 2 * max 6 (decimal (i + 1)).length + chunk.length :=
    length_wire_part (fileChunks_ascii (List.mem_of_getElem? h)) (i + 1)
  have hdigits (n : ℕ) : (decimal n).length ≤ 6 ↔ n < 10 ^ 6 := length_decimal_le (by norm_num)
  have hfull (c : Text) (h : c ∈ fileChunks path blob) := length_le_of_mem_chunks h
  have hle := chunkBytes_le hroom
  constructor
  · intro h i chunk hi hwide
    have hmem : part cksum path chunk (i + 1) ∈ parts cksum path (fileChunks path blob) := by
      refine List.mem_of_getElem? (i := i) ?_
      rw [parts, List.getElem?_mapIdx, hi]
      rfl
    have := h _ hmem
    have := mt (hdigits (i + 1)).mp (by omega)
    rw [hline hi] at *
    omega
  · intro h e he
    obtain ⟨i, hi, rfl⟩ := List.mem_mapIdx.mp he
    have hget := List.getElem?_eq_getElem hi
    have := hfull _ (List.getElem_mem hi)
    rw [hline hget]
    rcases Nat.lt_or_ge (i + 1) (10 ^ 6) with hsix | hwide
    · have := (hdigits (i + 1)).mpr hsix
      omega
    · have := h i _ hget hwide
      have := mt (hdigits (i + 1)).mp (by omega)
      omega

end

/-- The directory of an accepted path is not shorter than the shorter namespace. -/
theorem length_dirname {path : Text} (h : remotePathIsSafe path = true) :
    27 ≤ (dirname path).length := by
  obtain ⟨⟨root, hroot, name, -, rfl⟩, -⟩ := remotePathIsSafe_iff.mp h
  refine Nat.le_trans ?_ (prefix_dirname hroot name).length_le
  have hall : ∀ root ∈ roots, 27 ≤ root.dropLast.length := by decide
  exact hall root hroot

/-- An upload that is not refused. -/
theorem upload_eq_ok_iff {cksum : Bytes → UInt32} {path : Text} {blob : Bytes} {uploadBatch : ℕ}
    {plan : Plan} : upload cksum path blob uploadBatch = .ok plan ↔
      remotePathIsSafe path = true ∧ (partDir path).all (·.toNat < 128) = true ∧
        0 < chunkBytes path ∧ plan =
          { setup := setup path
            batches := batches uploadBatch [] (parts cksum path (fileChunks path blob))
            finish := finish cksum path blob } := by
  unfold upload
  by_cases hsafe : remotePathIsSafe path = true
  · rw [if_neg (not_not.mpr hsafe), and_iff_right hsafe]
    by_cases hascii : (partDir path).all (·.toNat < 128) = true
    · rw [if_neg (not_not.mpr hascii), and_iff_right hascii]
      by_cases hroom : 0 < chunkBytes path
      · rw [if_neg (Int.not_le.mpr hroom), and_iff_right hroom, Except.ok.injEq, eq_comm]
      · rw [if_pos (Int.not_lt.mp hroom)]
        exact iff_of_false nofun fun h => hroom h.1
    · rw [if_pos hascii]
      exact iff_of_false nofun fun h => hascii h.1
  · rw [if_pos hsafe]
    exact iff_of_false nofun fun h => hsafe h.1

/-- The joined parts of an upload that goes on are decoded to the file and all of its lines have at
most 252 bytes, exactly when the upload fits. -/
theorem upload_framing {cksum : Bytes → UInt32} {path : Text} {blob : Bytes} {uploadBatch : ℕ}
    {plan : Plan} (h : upload cksum path blob uploadBatch = .ok plan) :
    (base64Decode (joined path (fileChunks path blob)) = some blob ∧
      ∀ line ∈ plan.lines, line.length ≤ 252) ↔ Fits path blob := by
  obtain ⟨hsafe, hascii, hroom, rfl⟩ := upload_eq_ok_iff.mp h
  have hdir : (utf8 (dirname path)).length = (dirname path).length := by
    refine length_utf8_ascii fun c hc => ?_
    have := List.all_eq_true.mp hascii c (List.mem_append_left _ hc)
    exact of_decide_eq_true this
  have hlong := length_dirname hsafe
  have hflat : (fileChunks path blob).flatten = base64Encode blob :=
    flatten_chunks (by omega) _
  have hdecode : base64Decode (joined path (fileChunks path blob)) = some blob ↔
      joined path (fileChunks path blob) = (fileChunks path blob).flatten := by
    rw [base64Decode_eq_some_iff, hflat]
  have hparts := @parts_short_iff cksum path blob hdir hroom
  have hfinish := @finish_short_iff cksum path blob (hdir ▸ hlong)
  rw [hdecode]
  unfold Plan.lines
  dsimp only
  rw [flatten_batches, List.nil_append, List.forall_mem_map, List.forall_mem_append,
    List.forall_mem_append, hparts, hfinish, hdir]
  constructor
  · rintro ⟨horder, ⟨-, hwide⟩, hcleanup⟩
    exact ⟨Or.inr horder, hwide, hcleanup⟩
  · rintro ⟨horder, hwide, hcleanup⟩
    have hdigits : 0 < (decimal blob.length).length := Nat.length_toDigits_pos
    refine ⟨horder.elim (joined_eq path) id, ⟨setup_short ?_ (hdir ▸ hlong), hwide⟩, hcleanup⟩
    rw [hdir]
    omega

/-- A name in the shorter namespace. -/
def plainPath : Text := "/private/var/.dvm-data-seed/tool".toList

theorem safe_plainPath : remotePathIsSafe plainPath = true := by decide +kernel

/-- The plan of an upload of five bytes in batches of four. -/
def plainPlan : Plan where
  setup := setup plainPath
  batches := batches 4 [] (parts posixCksum plainPath (fileChunks plainPath [104, 101, 108, 108, 111]))
  finish := finish posixCksum plainPath [104, 101, 108, 108, 111]

/-- A short upload. -/
theorem upload_framing_plain :
    upload posixCksum plainPath [104, 101, 108, 108, 111] 4 = .ok plainPlan ∧
      ((base64Decode (joined plainPath (fileChunks plainPath [104, 101, 108, 108, 111])) =
          some [104, 101, 108, 108, 111] ∧
        ∀ line ∈ plainPlan.lines, line.length ≤ 252) ↔
          Fits plainPath [104, 101, 108, 108, 111]) := by
  have h : upload posixCksum plainPath [104, 101, 108, 108, 111] 4 = .ok plainPlan :=
    upload_eq_ok_iff.mpr ⟨by decide +kernel, by decide +kernel, by decide +kernel, rfl⟩
  exact ⟨h, upload_framing h⟩

/-- A name of 31 characters in the longer namespace. -/
def longPath : Text := "/private/var/hardware/.dvm-data-seed/".toList ++ List.replicate 31 'a'

/-- The line that cleans up after an upload of one byte to a long name is too long. -/
theorem not_framing : ¬∀ path blob uploadBatch plan,
    upload posixCksum path blob uploadBatch = .ok plan →
      base64Decode (joined path (fileChunks path blob)) = some blob ∧
        ∀ line ∈ plan.lines, line.length ≤ 252 := by
  intro h
  have hplan := (@upload_eq_ok_iff posixCksum longPath [1] 4 _).mpr
    ⟨by decide +kernel, by decide +kernel, by decide +kernel, rfl⟩
  have hlines := (h longPath [1] 4 _ hplan).2
  have hfinish := @finish_short_iff posixCksum longPath [1] (by decide +kernel)
  refine absurd (hfinish.mp fun e he => hlines _ ?_) (by decide +kernel)
  exact List.mem_map_of_mem (List.mem_append_right _ he)

end DarwinVm.Serial
