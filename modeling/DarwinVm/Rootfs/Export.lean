import DarwinVm.Lib.Crc
import DarwinVm.Lib.CString
import DarwinVm.Lib.Digits
import DarwinVm.Lib.Except

/-!
# The export of a guest file

`tools/rootfs/export_guest_file.c` prints a file of the guest as lines with hexadecimal records, and
`tools/rootfs/decode_guest_file.py` finds them in the log of the console. Other lines may stand
between them, and a line may end with a carriage return (`Carries`). The file comes back
(`export_roundtrip`).
-/

namespace DarwinVm.Rootfs

/-! ## The exporter -/

/-- The loop over the bits of a byte in `main`. -/
def crcBit (crc : BitVec 32) : BitVec 32 := (crc >>> 1) ^^^ (0xedb88320#32 &&& (0#32 - (crc &&& 1#32)))

/-- `crc ^= bytes[i]`, and the eight bits. -/
def crcByte (crc : BitVec 32) (b : UInt8) : BitVec 32 := crcBit^[8] (crc ^^^ b.toBitVec.setWidth 32)

/-- The `crc` that `main` prints for the bytes. -/
def exportCrc (s : Bytes) : BitVec 32 := s.foldl crcByte (BitVec.allOnes 32) ^^^ BitVec.allOnes 32

/-- `"DVM_FILE_BEGIN "` -/
def beginMark : Bytes := ascii "DVM_FILE_BEGIN ".toList

/-- `"DVM_FILE_HEX "` -/
def hexMark : Bytes := ascii "DVM_FILE_HEX ".toList

/-- `"DVM_FILE_END "` -/
def endMark : Bytes := ascii "DVM_FILE_END ".toList

/-- The space between two fields. -/
def space : UInt8 := 32

/-- `"DVM_FILE_BEGIN %lld"` -/
def beginLine (size : ℕ) : Bytes := beginMark ++ digits 10 size

/-- `"DVM_FILE_HEX %zx "`, and `"%02x"` for each byte. -/
def hexLine (offset : ℕ) (bytes : Bytes) : Bytes :=
  hexMark ++ (digits 16 offset ++ space :: bytes.flatMap hexPair)

/-- `"DVM_FILE_END %zu %08x"` -/
def endLine (offset : ℕ) (crc : BitVec 32) : Bytes :=
  endMark ++ (digits 10 offset ++ space :: padDigits 8 16 crc.toNat)

/-- The loop of `main` over what `fread` returns: the lines, and the `offset` and the `crc` at the
end. Each turn takes a byte at least, so the turns are no more than the bytes. -/
def exportLoop : ℕ → ℕ → BitVec 32 → Bytes → List Bytes × ℕ × BitVec 32
  | 0, offset, crc, _ => ([], offset, crc)
  | turns + 1, offset, crc, input =>
    let bytes := input.take 256
    if bytes.length = 0 then ([], offset, crc)
    else
      let r := exportLoop turns (offset + bytes.length) (bytes.foldl crcByte crc) (input.drop 256)
      (hexLine offset bytes :: r.1, r.2)

/-- `main` for a regular file that can be read: the lines, and the status. -/
def exportGuestFile (file : Bytes) : List Bytes × ℕ :=
  if file.length = 0 ∨ 16 * 1024 * 1024 < file.length then ([], 3)
  else
    let (records, offset, crc) := exportLoop (file.length + 1) 0 (BitVec.allOnes 32) file
    if offset ≠ file.length then (beginLine file.length :: records, 4)
    else (beginLine file.length :: records ++ [endLine offset (crc ^^^ BitVec.allOnes 32)], 0)

/-! ## The decoder -/

/-- `zlib.crc32` -/
def crc32 (s : Bytes) : BitVec 32 := Crc.check (Crc.byteTable 0xedb88320#32) s

/-- `\r?$`: the line without a carriage return at its end. -/
def stripReturn (l : Bytes) : Bytes := if l.getLast? = some carriageReturn then l.dropLast else l

/-- What follows a text at the start of a line. -/
def after (mark l : Bytes) : Option Bytes := if mark <+: l then some (l.drop mark.length) else none

/-- `[0-9]+` or `[0-9a-f]+` up to the end of the line. -/
def field (base : ℕ) (s : Bytes) : Option Bytes := if s ≠ [] ∧ s.all (isDigitOf base) then some s else none

/-- Two fields with a space between them. -/
def twoFields (base base' : ℕ) (s : Bytes) : Option (Bytes × Bytes) := do
  let a ← field base (s.takeWhile (· ≠ space))
  let b ← field base' ((s.dropWhile (· ≠ space)).drop 1)
  some (a, b)

/-- `^DVM_FILE_BEGIN (\d+)\r?$` -/
def matchBegin (l : Bytes) : Option Bytes := (after beginMark (stripReturn l)).bind (field 10)

/-- `^DVM_FILE_HEX ([0-9a-f]+) ([0-9a-f]+)\r?$` -/
def matchHex (l : Bytes) : Option (Bytes × Bytes) :=
  (after hexMark (stripReturn l)).bind (twoFields 16 16)

/-- `^DVM_FILE_END (\d+) ([0-9a-f]{8})\r?$` -/
def matchEnd (l : Bytes) : Option (Bytes × Bytes) :=
  ((after endMark (stripReturn l)).bind (twoFields 10 16)).filter (·.2.length = 8)

/-- `re.findall` with `re.M`: no expression spans lines or stands twice in one. -/
def findall {α : Type} (m : Bytes → Option α) (raw : Bytes) : List α :=
  (raw.splitOn newline).filterMap m

/-- Why `decode` refuses a log. -/
inductive DecodeError
  /-- `'requires exactly one begin/end record'` -/
  | records
  /-- `'non-contiguous export'` -/
  | notContiguous
  /-- `ValueError` of `bytes.fromhex` -/
  | fromhex
  /-- `'export size mismatch'` -/
  | size
  /-- `'export CRC mismatch'` -/
  | crc
  deriving DecidableEq

/-- The loop of `decode` over the records. -/
def decodeRecords : Bytes → List (Bytes × Bytes) → Except DecodeError Bytes
  | output, [] => .ok output
  | output, (offset, data) :: records =>
    if value 16 offset ≠ output.length then .error .notContiguous
    else
      match fromHex (asciiText data) with
      | none => .error .fromhex
      | some bytes => decodeRecords (output ++ bytes) records

/-- `decode` -/
def decode (raw : Bytes) : Except DecodeError Bytes :=
  match findall matchBegin raw, findall matchEnd raw with
  | [size], [(size', crc)] => do
    let output ← decodeRecords [] (findall matchHex raw)
    if output.length ≠ value 10 size ∨ output.length ≠ value 10 size' then .error .size
    else if (crc32 output).toNat ≠ value 16 crc then .error .crc
    else .ok output
  | _, _ => .error .records

/-! ## The log -/

/-- A line that one of the expressions matches. -/
def isRecord (l : Bytes) : Bool :=
  (matchBegin l).isSome || (matchHex l).isSome || (matchEnd l).isSome

/-- A line, with a line feed after it or with a carriage return and a line feed. -/
def EndsAs (l e : Bytes) : Prop := l = e ∨ l = e ++ [carriageReturn]

instance (l e : Bytes) : Decidable (EndsAs l e) := inferInstanceAs (Decidable (_ ∨ _))

/-- A log carries lines: they are its records, in order. What the other lines are does not matter. -/
def Carries (raw : Bytes) (out : List Bytes) : Prop :=
  List.Forall₂ EndsAs ((raw.splitOn newline).filter isRecord) out

/-- The records of an accepted log: each one starts where the one before it ended, and they make up
the bytes. -/
def Contiguous : ℕ → List (Bytes × Bytes) → Bytes → Prop
  | _, [], output => output = []
  | start, (offset, data) :: records, output =>
    value 16 offset = start ∧ ∃ bytes output', fromHex (asciiText data) = some bytes ∧
      output = bytes ++ output' ∧ Contiguous (start + bytes.length) records output'

/-- What an accepted log says of the bytes. -/
def Declares (raw output : Bytes) : Prop :=
  ∃ size size' crc, findall matchBegin raw = [size] ∧ findall matchEnd raw = [(size', crc)] ∧
    value 10 size = output.length ∧ value 10 size' = output.length ∧
      value 16 crc = (crc32 output).toNat ∧ Contiguous 0 (findall matchHex raw) output

/-! ## The check -/

/-- A turn of the loop is a division step. -/
theorem crcBit_eq_step : crcBit = Crc.step 0xedb88320#32 := by
  funext crc
  have hmask : ∀ p : Bool, 0xedb88320#32 &&& (0#32 - (BitVec.ofBool p).setWidth 32) =
      if p then 0xedb88320#32 else 0#32 := by decide
  rw [crcBit, Crc.step, BitVec.and_one_eq_setWidth_ofBool_getLsbD, hmask]

/-- The loop of the exporter is `zlib.crc32`. -/
theorem exportCrc_eq_crc32 (s : Bytes) : exportCrc s = crc32 s := by
  have h : crcByte = Crc.byteBits 0xedb88320#32 := by
    funext crc b
    rw [crcByte, crcBit_eq_step, Crc.byteBits]
  unfold crc32
  rw [← Crc.check_byteBits _ (by decide), exportCrc, Crc.check, h]

/-! ## The lines of the exporter -/

theorem stripReturn_of_endsAs {l e : Bytes} (h : EndsAs l e) (he : carriageReturn ∉ e) :
    stripReturn l = e := by
  obtain rfl | rfl := h
  · rw [stripReturn, if_neg]
    intro hlast
    exact he (List.mem_of_getLast? hlast)
  · rw [stripReturn, List.getLast?_concat, if_pos rfl, List.dropLast_concat]

theorem after_append (mark s : Bytes) : after mark (mark ++ s) = some s := by
  rw [after, if_pos (List.prefix_append mark s), List.drop_left]

/-- The marks differ in their first ten bytes. -/
theorem after_eq_none {mark mark' : Bytes} (s : Bytes) (h : 10 ≤ mark.length) (h' : 10 ≤ mark'.length)
    (hne : mark.take 10 ≠ mark'.take 10) : after mark (mark' ++ s) = none := by
  rw [after, if_neg]
  intro hpre
  refine hne ?_
  calc mark.take 10 = (mark' ++ s).take 10 := by
        rw [List.prefix_iff_eq_take.mp hpre, List.take_take, Nat.min_eq_left h]
    _ = mark'.take 10 := List.take_append_of_le_length h'

theorem field_eq {base : ℕ} {s : Bytes} (hne : s ≠ []) (h : ∀ b ∈ s, isDigitOf base b = true) :
    field base s = some s := by
  rw [field, if_pos ⟨hne, List.all_eq_true.mpr h⟩]

theorem ne_space_of_isDigitOf {base : ℕ} {b : UInt8} (h : isDigitOf base b = true) : b ≠ space := by
  rintro rfl
  have : digitValue? space = none := by decide
  rw [isDigitOf, this] at h
  exact Bool.false_ne_true h

theorem ne_carriageReturn_of_isDigitOf {base : ℕ} {b : UInt8} (h : isDigitOf base b = true) :
    b ≠ carriageReturn := by
  rintro rfl
  have : digitValue? carriageReturn = none := by decide
  rw [isDigitOf, this] at h
  exact Bool.false_ne_true h

/-- Two fields of digits are taken apart at the space. -/
theorem twoFields_append {base base' : ℕ} {a b : Bytes} (ha : a ≠ []) (hb : b ≠ [])
    (hda : ∀ c ∈ a, isDigitOf base c = true) (hdb : ∀ c ∈ b, isDigitOf base' c = true) :
    twoFields base base' (a ++ space :: b) = some (a, b) := by
  have hspace : ∀ c ∈ a, decide (c ≠ space) = true := fun c hc =>
    decide_eq_true (ne_space_of_isDigitOf (hda c hc))
  have htake : (a ++ space :: b).takeWhile (· ≠ space) = a := by
    rw [List.takeWhile_append_of_pos hspace, List.takeWhile_cons_of_neg (by simp), List.append_nil]
  have hdrop : (a ++ space :: b).dropWhile (· ≠ space) = space :: b := by
    rw [List.dropWhile_append_of_pos hspace, List.dropWhile_cons_of_neg (by simp)]
  rw [twoFields, htake, hdrop, field_eq ha hda, List.drop_one, List.tail_cons, field_eq hb hdb]
  rfl

theorem hexPairs_spec {bytes : Bytes} (h : bytes ≠ []) :
    bytes.flatMap hexPair ≠ [] ∧ ∀ c ∈ bytes.flatMap hexPair, isDigitOf 16 c = true := by
  refine ⟨?_, ?_⟩
  · obtain ⟨b, rest, rfl⟩ := List.exists_cons_of_ne_nil h
    have := length_hexPair b
    rw [List.flatMap_cons]
    intro hnil
    rw [(List.append_eq_nil_iff.mp hnil).1] at this
    exact absurd this (by decide)
  · intro c hc
    obtain ⟨b, -, hb⟩ := List.mem_flatMap.mp hc
    exact isDigitOf_of_mem_padDigits (by decide) (by decide) hb

/-- What the expressions make of a line of the exporter, however it ends. -/
theorem match_beginLine {l : Bytes} (n : ℕ) (h : EndsAs l (beginLine n)) :
    matchBegin l = some (digits 10 n) ∧ matchHex l = none ∧ matchEnd l = none := by
  have hd : ∀ b ∈ digits 10 n, isDigitOf 10 b = true := fun b =>
    isDigitOf_of_mem_digits (by decide) (by decide)
  have hstrip : stripReturn l = beginMark ++ digits 10 n := by
    refine stripReturn_of_endsAs h ?_
    rw [List.mem_append, not_or]
    exact ⟨by decide, fun hmem => ne_carriageReturn_of_isDigitOf (hd _ hmem) rfl⟩
  refine ⟨?_, ?_, ?_⟩
  · rw [matchBegin, hstrip, after_append, Option.bind_some, field_eq (digits_ne_nil 10 n) hd]
  · rw [matchHex, hstrip, after_eq_none _ (by decide) (by decide) (by decide), Option.bind_none]
  · rw [matchEnd, hstrip, after_eq_none _ (by decide) (by decide) (by decide), Option.bind_none]
    rfl

theorem match_hexLine {l bytes : Bytes} (offset : ℕ) (hne : bytes ≠ [])
    (h : EndsAs l (hexLine offset bytes)) :
    matchBegin l = none ∧ matchHex l = some (digits 16 offset, bytes.flatMap hexPair) ∧
      matchEnd l = none := by
  have hd : ∀ b ∈ digits 16 offset, isDigitOf 16 b = true := fun b =>
    isDigitOf_of_mem_digits (by decide) (by decide)
  obtain ⟨hdata, hx⟩ := hexPairs_spec hne
  have hstrip : stripReturn l =
      hexMark ++ (digits 16 offset ++ space :: bytes.flatMap hexPair) := by
    refine stripReturn_of_endsAs h ?_
    rw [List.mem_append, List.mem_append, List.mem_cons, not_or, not_or, not_or]
    exact ⟨by decide, fun hmem => ne_carriageReturn_of_isDigitOf (hd _ hmem) rfl, by decide,
      fun hmem => ne_carriageReturn_of_isDigitOf (hx _ hmem) rfl⟩
  refine ⟨?_, ?_, ?_⟩
  · rw [matchBegin, hstrip, after_eq_none _ (by decide) (by decide) (by decide), Option.bind_none]
  · rw [matchHex, hstrip, after_append, Option.bind_some,
      twoFields_append (digits_ne_nil 16 offset) hdata hd hx]
  · rw [matchEnd, hstrip, after_eq_none _ (by decide) (by decide) (by decide), Option.bind_none]
    rfl

theorem match_endLine {l : Bytes} (offset : ℕ) (crc : BitVec 32) (h : EndsAs l (endLine offset crc)) :
    matchBegin l = none ∧ matchHex l = none ∧
      matchEnd l = some (digits 10 offset, padDigits 8 16 crc.toNat) := by
  have hd : ∀ b ∈ digits 10 offset, isDigitOf 10 b = true := fun b =>
    isDigitOf_of_mem_digits (by decide) (by decide)
  have hx : ∀ b ∈ padDigits 8 16 crc.toNat, isDigitOf 16 b = true := fun b =>
    isDigitOf_of_mem_padDigits (by decide) (by decide)
  have hlen : (padDigits 8 16 crc.toNat).length = 8 :=
    length_padDigits (by decide) (by decide) crc.isLt
  have hne : padDigits 8 16 crc.toNat ≠ [] := List.ne_nil_of_length_eq_add_one hlen
  have hstrip : stripReturn l =
      endMark ++ (digits 10 offset ++ space :: padDigits 8 16 crc.toNat) := by
    refine stripReturn_of_endsAs h ?_
    rw [List.mem_append, List.mem_append, List.mem_cons, not_or, not_or, not_or]
    exact ⟨by decide, fun hmem => ne_carriageReturn_of_isDigitOf (hd _ hmem) rfl, by decide,
      fun hmem => ne_carriageReturn_of_isDigitOf (hx _ hmem) rfl⟩
  refine ⟨?_, ?_, ?_⟩
  · rw [matchBegin, hstrip, after_eq_none _ (by decide) (by decide) (by decide), Option.bind_none]
  · rw [matchHex, hstrip, after_eq_none _ (by decide) (by decide) (by decide), Option.bind_none]
  · rw [matchEnd, hstrip, after_append, Option.bind_some,
      twoFields_append (digits_ne_nil 10 offset) hne hd hx, Option.filter_some, hlen]
    rfl

/-! ## The round trip -/

/-- The lines of the loop are records of the input, from the offset on. -/
theorem exportLoop_spec : ∀ {turns offset : ℕ} {crc : BitVec 32} {input : Bytes},
    input.length < turns →
      (exportLoop turns offset crc input).2 = (offset + input.length, input.foldl crcByte crc) ∧
        ∀ ls, List.Forall₂ EndsAs ls (exportLoop turns offset crc input).1 →
          ls.filterMap matchBegin = [] ∧ ls.filterMap matchEnd = [] ∧
            ∀ output : Bytes, output.length = offset →
              decodeRecords output (ls.filterMap matchHex) = .ok (output ++ input)
  | turns + 1, offset, crc, input, hturns => by
    unfold exportLoop
    by_cases hnil : (input.take 256).length = 0
    · -- `fread` is at the end of the input.
      have hinput : input = [] := by
        rw [List.length_take] at hnil
        exact List.length_eq_zero_iff.mp (by omega)
      simp only [if_pos hnil]
      subst hinput
      refine ⟨rfl, fun ls hls => ?_⟩
      rw [List.forall₂_nil_right_iff.mp hls]
      refine ⟨rfl, rfl, fun output _ => ?_⟩
      rw [List.append_nil]
      rfl
    · have hrest : (input.drop 256).length < turns := by
        rw [List.length_take] at hnil
        rw [List.length_drop]
        omega
      have hne : input.take 256 ≠ [] := fun h => hnil (by rw [h]; rfl)
      obtain ⟨hend, hlines⟩ := @exportLoop_spec turns (offset + (input.take 256).length)
        ((input.take 256).foldl crcByte crc) (input.drop 256) hrest
      simp only [if_neg hnil]
      refine ⟨?_, fun ls hls => ?_⟩
      · rw [hend, ← List.foldl_append, List.take_append_drop, Nat.add_assoc, ← List.length_append,
          List.take_append_drop]
      · obtain ⟨l, ls, hl, hls', rfl⟩ := List.forall₂_cons_right_iff.mp hls
        obtain ⟨hbegin, hhex, hend⟩ := match_hexLine offset hne hl
        obtain ⟨hbegins, hends, hdecode⟩ := hlines ls hls'
        rw [List.filterMap_cons_none hbegin, List.filterMap_cons_none hend]
        refine ⟨hbegins, hends, fun output houtput => ?_⟩
        -- The record is in its place, and what follows starts where it ends.
        rw [List.filterMap_cons_some hhex, decodeRecords, value_digits (by decide) (by decide),
          if_neg (not_not.mpr houtput.symm), fromHex_hexPair]
        simp only
        rw [hdecode _ (by rw [List.length_append, houtput]), List.append_assoc,
          List.take_append_drop]

/-- The records of a log are found on the lines that are records. -/
theorem findall_eq {α : Type} {m : Bytes → Option α} (h : ∀ l, (m l).isSome → isRecord l = true)
    (raw : Bytes) : findall m raw = ((raw.splitOn newline).filter isRecord).filterMap m := by
  have hm : ∀ l, (if isRecord l = true then m l else none) = m l := by
    intro l
    by_cases hl : isRecord l = true
    · rw [if_pos hl]
    · rw [if_neg hl]
      exact (Option.not_isSome_iff_eq_none.mp (mt (h l) hl)).symm
  rw [findall, List.filterMap_filter]
  simp only [hm]

theorem isRecord_of_match {l : Bytes} (h : (matchBegin l).isSome ∨ (matchHex l).isSome ∨
    (matchEnd l).isSome) : isRecord l = true := by
  rw [isRecord, Bool.or_eq_true, Bool.or_eq_true]
  exact or_assoc.mpr h

theorem exists_of_forall₂_concat {r : Bytes → Bytes → Prop} {l l' : List Bytes} {b : Bytes}
    (h : List.Forall₂ r l (l' ++ [b])) :
    ∃ ls a, List.Forall₂ r ls l' ∧ r a b ∧ l = ls ++ [a] := by
  obtain ⟨a, as, ha, has, hdrop⟩ :=
    List.forall₂_cons_right_iff.mp (List.forall₂_drop_append l l' [b] h)
  rw [List.forall₂_nil_right_iff.mp has] at hdrop
  refine ⟨l.take l'.length, a, List.forall₂_take_append l l' [b] h, ha, ?_⟩
  rw [← hdrop, List.take_append_drop]

/-- A log that carries the lines of the exporter is decoded to the file. -/
theorem decode_of_carries {file raw : Bytes} (hpos : 1 ≤ file.length)
    (hmax : file.length ≤ 16 * 1024 * 1024) (h : Carries raw (exportGuestFile file).1) :
    decode raw = .ok file := by
  obtain ⟨hend, hlines⟩ := @exportLoop_spec (file.length + 1) 0 (BitVec.allOnes 32) file
    (Nat.lt_succ_self _)
  rw [Nat.zero_add] at hend
  have hout : (exportGuestFile file).1 = beginLine file.length ::
      ((exportLoop (file.length + 1) 0 (BitVec.allOnes 32) file).1 ++
        [endLine file.length (exportCrc file)]) := by
    rw [exportGuestFile, if_neg (by omega)]
    simp only [hend, ne_eq, not_true, if_false, List.cons_append]
    rfl
  rw [Carries, hout] at h
  obtain ⟨b, rest, hb, hrest, hls⟩ := List.forall₂_cons_right_iff.mp h
  obtain ⟨ls, e, hls', he, rfl⟩ := exists_of_forall₂_concat hrest
  obtain ⟨hb₁, hb₂, hb₃⟩ := match_beginLine _ hb
  obtain ⟨he₁, he₂, he₃⟩ := match_endLine _ _ he
  obtain ⟨hbegins, hends, hdecode⟩ := hlines ls hls'
  have hbegin : findall matchBegin raw = [digits 10 file.length] := by
    rw [findall_eq (fun l hl => isRecord_of_match (Or.inl hl)), hls, List.filterMap_cons_some hb₁,
      List.filterMap_append, hbegins, List.filterMap_cons_none he₁]
    rfl
  have hfin : findall matchEnd raw =
      [(digits 10 file.length, padDigits 8 16 (exportCrc file).toNat)] := by
    rw [findall_eq (fun l hl => isRecord_of_match (Or.inr (Or.inr hl))), hls,
      List.filterMap_cons_none hb₃, List.filterMap_append, hends, List.filterMap_cons_some he₃]
    rfl
  have hhex : findall matchHex raw = ls.filterMap matchHex := by
    rw [findall_eq (fun l hl => isRecord_of_match (Or.inr (Or.inl hl))), hls,
      List.filterMap_cons_none hb₂, List.filterMap_append, List.filterMap_cons_none he₂,
      List.filterMap_nil, List.append_nil]
  rw [decode, hbegin, hfin]
  simp only [hhex, hdecode [] rfl, List.nil_append, value_digits, value_padDigits, Nat.reduceLT,
    Nat.reduceLeDiff, exportCrc_eq_crc32, bind, Except.bind, ne_eq, not_true, or_self, if_false]

/-- The loop over the records puts together those that are contiguous. -/
theorem contiguous_of_decodeRecords : ∀ {records : List (Bytes × Bytes)} {output result : Bytes},
    decodeRecords output records = .ok result →
      ∃ rest, result = output ++ rest ∧ Contiguous output.length records rest
  | [], output, result, h => by
    obtain rfl := Except.ok.inj h
    exact ⟨[], (List.append_nil _).symm, rfl⟩
  | (offset, data) :: records, output, result, h => by
    rw [decodeRecords] at h
    by_cases hoff : value 16 offset = output.length
    · rw [if_neg (not_not.mpr hoff)] at h
      match hdata : fromHex (asciiText data), h with
      | some bytes, h =>
        obtain ⟨rest, rfl, hrest⟩ := contiguous_of_decodeRecords h
        rw [List.length_append] at hrest
        exact ⟨bytes ++ rest, List.append_assoc _ _ _, hoff, bytes, rest, hdata, rfl, hrest⟩
    · rw [if_pos hoff] at h
      cases h

/-- The bytes of an accepted log are those that its records declare. -/
theorem declares_of_decode {raw output : Bytes} (h : decode raw = .ok output) :
    Declares raw output := by
  unfold decode at h
  match hbegin : findall matchBegin raw, hend : findall matchEnd raw, h with
  | [size], [(size', crc)], h =>
    simp only [bind, bind_eq_ok] at h
    obtain ⟨result, hresult, h⟩ := h
    split_ifs at h with hsize hcrc
    obtain rfl := Except.ok.inj h
    obtain ⟨rest, rfl, hrest⟩ := contiguous_of_decodeRecords hresult
    rw [not_or, not_not, not_not] at hsize
    rw [not_not] at hcrc
    exact ⟨size, size', crc, hbegin, hend, hsize.1.symm, hsize.2.symm, hcrc.symm, hrest⟩

/-- A file of up to 16 MiB comes back from every log that carries its lines, the check of the
exporter is `zlib.crc32`, and the bytes of a log that is accepted are the ones it declares. -/
theorem export_roundtrip :
    (∀ file raw : Bytes, 1 ≤ file.length → file.length ≤ 16 * 1024 * 1024 →
      Carries raw (exportGuestFile file).1 → decode raw = .ok file) ∧
    (∀ s : Bytes, exportCrc s = crc32 s) ∧
    (∀ raw output : Bytes, decode raw = .ok output → Declares raw output) :=
  ⟨fun _ _ => decode_of_carries, exportCrc_eq_crc32, fun _ _ => declares_of_decode⟩

/-- A log of the two bytes of `hi`, with other lines between the records. -/
def someLog : Bytes :=
  ascii ("boot\r\nDVM_FILE_BEGIN 2\r\nlogin: DVM_FILE_END\nDVM_FILE_HEX 0 6869\n" ++
    "DVM_FILE_END 2 d8932aac\r\n# ").toList

/-- The log is decoded to the two bytes. -/
theorem export_roundtrip_someLog : Carries someLog (exportGuestFile [104, 105]).1 ∧
    decode someLog = .ok [104, 105] ∧ Declares someLog [104, 105] := by
  have hrecords : (someLog.splitOn newline).filter isRecord =
      [ascii "DVM_FILE_BEGIN 2\r".toList, ascii "DVM_FILE_HEX 0 6869".toList,
        ascii "DVM_FILE_END 2 d8932aac\r".toList] := by decide +kernel
  have hlines : (exportGuestFile [104, 105]).1 =
      [ascii "DVM_FILE_BEGIN 2".toList, ascii "DVM_FILE_HEX 0 6869".toList,
        ascii "DVM_FILE_END 2 d8932aac".toList] := by decide +kernel
  have hbegin : EndsAs (ascii "DVM_FILE_BEGIN 2\r".toList) (ascii "DVM_FILE_BEGIN 2".toList) := by
    decide +kernel
  have hend : EndsAs (ascii "DVM_FILE_END 2 d8932aac\r".toList)
      (ascii "DVM_FILE_END 2 d8932aac".toList) := by decide +kernel
  have hcarries : Carries someLog (exportGuestFile [104, 105]).1 := by
    rw [Carries, hrecords, hlines]
    exact .cons hbegin (.cons (Or.inl rfl) (.cons hend .nil))
  have hdecode := export_roundtrip.1 [104, 105] someLog (by decide) (by decide) hcarries
  exact ⟨hcarries, hdecode, export_roundtrip.2.2 someLog [104, 105] hdecode⟩

end DarwinVm.Rootfs
