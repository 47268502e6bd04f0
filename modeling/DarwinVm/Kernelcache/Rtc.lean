import DarwinVm.Lib.A64
import DarwinVm.Lib.Except
import DarwinVm.Lib.Patch
import Mathlib.Tactic.IntervalCases

/-!
# The wall clock of the host

`rtc_pv_patch.py` replaces the body of `AppleARMPE::getGMTTimeOfDay` in a kernelcache by ten words
that read the time of the host from a system register. `patch_image` changes those words alone, and
refuses an image that it patched (`patchImage_spec`). Wherever the patched image is mapped for a
kernel, a call of the function stores what `emulate_patched_get` says, through both of its pointers,
and touches nothing else that its caller keeps (`patched_get`).
-/

namespace DarwinVm.Kernelcache

/-- `BASE` -/
def base : ℕ := 0xFFFFFFF007004000

namespace Rtc

open A64

/-! ## The image -/

/-- `GET_GMT_TIME_OF_DAY` -/
def getGmtTimeOfDay : ℕ := 0xFFFFFFF0085CDFD0

/-- `TARGET_UUID` -/
def targetUuid : Bytes :=
  [0x16, 0xff, 0x5b, 0xb5, 0xe0, 0x4d, 0x6d, 0xd5, 0x50, 0xf2, 0xc6, 0x62, 0x3c, 0xf1, 0x9a, 0x56]

/-- `MACHO_64_MAGIC` -/
def machoMagic : ℕ := 0xFEEDFACF

/-- `LC_UUID` -/
def lcUuid : ℕ := 0x1B

/-- `ORIGINAL_WORDS` -/
def originalWords : List ℕ :=
  [0xD503237F, 0xD100C3FF, 0xA9014FF4, 0xA9027BFD, 0x910083FD, 0xAA0203F4, 0xAA0103F3, 0x528003C8,
    0xF90007E8, 0x90FF5D60]

/-- `BTI_C` -/
def btiC : ℕ := 0xD503245F

/-- `NANOSECONDS_PER_SECOND` -/
def nanosecondsPerSecond : ℕ := 1000000000

/-- `PATCH_WORDS` -/
def patchWords : List ℕ :=
  [btiC, 0xD538FF23, 0xD2994004, 0xF2A77344, 0x9AC40865, 0x9B048CA3, 0xF9000025, 0xB9000043,
    0x52800000, 0xD65F03C0]

/-- `PATCH_OFFSET` -/
def patchOffset : ℕ := getGmtTimeOfDay - base

/-- The words of the patch, at their place. -/
def patch : Patch := ⟨patchOffset, pack patchWords⟩

/-- Why an image or a patch is refused: the texts of `ValueError`. -/
inductive Refusal
  /-- `"RTC PV patch length does not cover its guarded entry"` -/
  | length
  /-- `"RTC PV patch must begin with a BTI c landing pad"` -/
  | landingPad
  /-- `"RTC status instruction is not MOVZ W0"` -/
  | status
  /-- `"file is too short for a mach_header_64"` -/
  | header
  /-- `"not a little-endian 64-bit Mach-O"` -/
  | magic
  /-- `"Mach-O load commands extend past end of file"` -/
  | extent
  /-- `"truncated Mach-O load command"` -/
  | truncated
  /-- `"invalid Mach-O load command size"` -/
  | size
  /-- `"invalid LC_UUID size"` -/
  | uuidSize
  /-- `"Mach-O has no LC_UUID"` -/
  | noUuid
  /-- `"unsupported kernelcache UUID (expected iPhone17,3 24A5430a)"` -/
  | uuid
  /-- `"kernelcache is too short for AppleARMPE::getGMTTimeOfDay"` -/
  | short
  /-- `"AppleARMPE::getGMTTimeOfDay guard mismatch; refusing to patch ..."` -/
  | guard
  deriving DecidableEq

/-- `validate_patch_words` -/
def validatePatchWords (words : List ℕ) : Except Refusal Unit :=
  if words.length ≠ originalWords.length then .error .length
  else if words[0]? ≠ some btiC then .error .landingPad
  else .ok ()

/-- `decode_mov_wide` -/
def decodeMovWide (word : ℕ) : ℕ × ℕ := (word >>> 5 &&& 0xffff, word >>> 21 &&& 3)

/-- `emulate_patched_get` -/
def emulatePatchedGet (epochNs : ℤ) : Except Refusal (ℤ × ℤ × ℕ) :=
  let low := decodeMovWide (patchWords.getD 2 0)
  let high := decodeMovWide (patchWords.getD 3 0)
  let divisor : ℕ := low.1 <<< (16 * low.2) ||| high.1 <<< (16 * high.2)
  let statusWord := patchWords.getD 8 0
  if statusWord &&& 0xFFE0001F ≠ 0x52800000 then .error .status
  else
    let status := decodeMovWide statusWord
    .ok (epochNs / divisor, epochNs % divisor, status.1 <<< (16 * status.2))

/-- A word of the bytes, `struct.unpack_from("<I", data, off)`. -/
def wordAt (data : Bytes) (off : ℕ) : ℕ := leNat (slice data off (off + 4))

/-- The loop of `macho_uuid`, for the load commands that are left. -/
def findUuid (data : Bytes) (fin : ℕ) : ℕ → ℕ → Except Refusal Bytes
  | 0, _ => .error .noUuid
  | n + 1, cursor =>
    let command := wordAt data cursor
    let size := wordAt data (cursor + 4)
    if fin < cursor + 8 then .error .truncated
    else if size < 8 ∨ fin < cursor + size then .error .size
    else if command = lcUuid then
      if size ≠ 24 then .error .uuidSize else .ok (slice data (cursor + 8) (cursor + 24))
    else findUuid data fin n (cursor + size)

/-- `macho_uuid` -/
def machoUuid (data : Bytes) : Except Refusal Bytes :=
  let ncmds := wordAt data 16
  let sizeofcmds := wordAt data 20
  if data.length < 32 then .error .header
  else if wordAt data 0 ≠ machoMagic then .error .magic
  else if data.length < 32 + sizeofcmds then .error .extent
  else findUuid data (32 + sizeofcmds) ncmds 32

section

-- The digest of `hashlib.sha256`, in hexadecimal.
variable (sha256 : Bytes → List Char)

/-- `validate_input` -/
def validateInput (data : Bytes) : Except Refusal (List Char) := do
  let uuid ← machoUuid data
  if uuid ≠ targetUuid then .error .uuid
  else if data.length < patchOffset + (pack originalWords).length then .error .short
  else if slice data patchOffset (patchOffset + (pack originalWords).length) ≠ pack originalWords then
    .error .guard
  else .ok (sha256 data)

/-- `patch_image` -/
def patchImage (data : Bytes) : Except Refusal (Bytes × List Char) := do
  validatePatchWords patchWords
  let sourceSha ← validateInput sha256 data
  .ok (patch.write data, sourceSha)

end

/-! ## The patch -/

variable {sha256 : Bytes → List Char} {data result : Bytes} {sha : List Char}

/-- What `patch_image` makes. -/
theorem patchImage_eq_ok (h : patchImage sha256 data = .ok (result, sha)) :
    patch.stop ≤ data.length ∧ result = patch.write data ∧ sha = sha256 data := by
  have hlen : (pack originalWords).length = patch.bytes.length := rfl
  unfold patchImage at h
  obtain ⟨_, -, h⟩ := bind_eq_ok.mp h
  obtain ⟨_, hinput, h⟩ := bind_eq_ok.mp h
  obtain ⟨rfl, rfl⟩ := Prod.mk.inj (Except.ok.inj h)
  unfold validateInput at hinput
  obtain ⟨uuid, -, hinput⟩ := bind_eq_ok.mp hinput
  split_ifs at hinput with huuid hshort hguard
  refine ⟨?_, rfl, (Except.ok.inj hinput).symm⟩
  rw [hlen] at hshort
  exact Nat.not_lt.mp hshort

/-- An image that was patched is refused. -/
theorem patchImage_patched (h : patchImage sha256 data = .ok (result, sha)) :
    ∀ r, patchImage sha256 result ≠ .ok r := by
  rintro ⟨result', sha'⟩ h'
  obtain ⟨hstop, rfl, -⟩ := patchImage_eq_ok h
  unfold patchImage at h'
  obtain ⟨_, -, h'⟩ := bind_eq_ok.mp h'
  obtain ⟨_, hinput, -⟩ := bind_eq_ok.mp h'
  unfold validateInput at hinput
  obtain ⟨uuid, -, hinput⟩ := bind_eq_ok.mp hinput
  split_ifs at hinput with huuid hshort hguard
  rw [not_not] at hguard
  have hpatched : slice (patch.write data) patch.offset patch.stop = patch.bytes :=
    (Patch.holds_write hstop).bytes
  exact absurd (hguard.symm.trans hpatched) (by decide)

/-! ## The call -/

/-- `S3_0_C15_C15_1`, the nanoseconds of the host. -/
def rtcNs : BitVec 15 := 0x47F9

/-- What a call of the function does: it returns what `emulate_patched_get` says, and stores it
through the two pointers. -/
structure Serves (s s' : State) : Prop where
  returns : s'.pc = s.get 30
  emulated : emulatePatchedGet (s.sys rtcNs).toNat = .ok (leNat (s'.mem.read (s.get 1) 8),
    leNat (s'.mem.read (s.get 2) 4), (s'.get 0).toNat)
  time : leNat (s'.mem.read (s.get 1) 8) * nanosecondsPerSecond + leNat (s'.mem.read (s.get 2) 4) =
    (s.sys rtcNs).toNat
  fraction : leNat (s'.mem.read (s.get 2) 4) < nanosecondsPerSecond
  registers : ∀ r : Reg, r ∉ [0, 3, 4, 5] → s'.get r = s.get r
  sp : s'.sp = s.sp
  sys : s'.sys = s.sys
  memory : ∀ x : Addr, 8 ≤ (x - s.get 1).toNat → 4 ≤ (x - s.get 2).toNat → s'.mem x = s.mem x

/-- The instructions of the patch, before the return. -/
def body : List Insn :=
  [.hint 34, .mrs 3 rtcNs, .movz true 4 0xca00 0, .movk true 4 0x3b9a 1, .udiv true 5 3 4,
    .msub true 3 5 4 3, .str true 5 1 0, .str false 3 2 0, .movz false 0 0 0]

theorem decode_body : ∀ j i, body[j]? = some i → i.Straight ∧
    ∃ w, patchWords[0 + j]? = some w ∧ decode (BitVec.ofNat 32 w) = some i := by
  intro j i hi
  have hj : j < 9 := (List.getElem?_eq_some_iff.mp hi).1
  interval_cases j <;> cases hi <;> exact ⟨trivial, _, rfl, by decide⟩

/-- The seconds and the nanoseconds of a time. -/
theorem divide_time (n : Word) :
    (n / 1000000000#64).toNat = n.toNat / nanosecondsPerSecond ∧
      (n - n / 1000000000#64 * 1000000000#64).toNat = n.toNat % nanosecondsPerSecond := by
  have hdiv : (n / 1000000000#64).toNat = n.toNat / nanosecondsPerSecond := BitVec.toNat_udiv ..
  refine ⟨hdiv, ?_⟩
  have hlt := n.isLt
  have hlit : (1000000000#64).toNat = 1000000000 := rfl
  rw [BitVec.toNat_sub, BitVec.toNat_mul, hdiv, hlit]
  unfold nanosecondsPerSecond
  omega

/-- The arithmetic, before the stores. -/
theorem divided (s : State) : ∃ t, (body.take 6).foldl exec s = t ∧ t.mem = s.mem ∧
    t.get 5 = s.sys rtcNs / 1000000000#64 ∧
    t.get 3 = s.sys rtcNs - s.sys rtcNs / 1000000000#64 * 1000000000#64 ∧
    t.get 1 = s.get 1 ∧ t.get 2 = s.get 2 := by
  refine ⟨_, rfl, ?_⟩
  simp [body, exec, narrow]

/-- The memory, from the arithmetic to the return: two stores through the pointers. -/
theorem mem_body (s : State) : (∀ j ≤ 6, ((body.take j).foldl exec s).mem = s.mem) ∧
    ∃ m, m = s.mem.write (s.get 1) (leBytes 8 ((s.sys rtcNs).toNat / nanosecondsPerSecond)) ∧
      ((body.take 7).foldl exec s).mem = m ∧ ∀ j, 8 ≤ j → j ≤ 9 → ((body.take j).foldl exec s).mem =
        m.write (s.get 2) (leBytes 4 ((s.sys rtcNs).toNat % nanosecondsPerSecond)) := by
  obtain ⟨hseconds, hnanoseconds⟩ := divide_time (s.sys rtcNs)
  obtain ⟨t, ht, hmem, h₅, h₃, h₁, h₂⟩ := divided s
  have hstores : ∀ j, (body.take (j + 6)).foldl exec s = ((body.drop 6).take j).foldl exec t := by
    intro j
    rw [← ht, ← List.foldl_append, Nat.add_comm j, List.take_add]
  have hseven : ((body.take 7).foldl exec s).mem = s.mem.write (s.get 1)
      (leBytes 8 ((s.sys rtcNs).toNat / nanosecondsPerSecond)) := by
    have hstore : (body.drop 6).take 1 = [.str true 5 1 0] := rfl
    rw [hstores 1, hstore, List.foldl_cons, List.foldl_nil, mem_exec_str, address_zero (by decide),
      h₁, h₅, hmem, hseconds]
    rfl
  have height : ((body.take 8).foldl exec s).mem = ((body.take 7).foldl exec s).mem.write (s.get 2)
      (leBytes 4 ((s.sys rtcNs).toNat % nanosecondsPerSecond)) := by
    have hstore : (body.drop 6).take 2 = [.str true 5 1 0, .str false 3 2 0] := rfl
    have hstore' : (body.drop 6).take 1 = [.str true 5 1 0] := rfl
    rw [hstores 1, hstores 2, hstore, hstore', List.foldl_cons, List.foldl_cons, List.foldl_nil,
      List.foldl_cons, List.foldl_nil, mem_exec_str, address_zero (by decide), get_exec_str,
      get_exec_str, h₂, h₃, hnanoseconds]
    rfl
  rw [hseven] at height
  refine ⟨fun j hj => ?_, _, rfl, hseven, fun j hj hj' => ?_⟩
  · interval_cases j <;> simp [body, exec, narrow]
  · obtain rfl | rfl : j = 8 ∨ j = 9 := by omega
    · exact height
    · have hlast : (body.drop 6).take 3 = (body.drop 6).take 2 ++ [.movz false 0 0 0] := rfl
      rw [← height, hstores 3, hstores 2, hlast, List.foldl_append]
      exact State.mem_set

theorem registers_body (s : State) {r : Reg} (h : r ∉ [0, 3, 4, 5]) :
    (body.foldl exec s).get r = s.get r := by
  simp only [List.mem_cons, List.not_mem_nil, or_false, not_or] at h
  have h₀ : 0#5 ≠ r := Ne.symm h.1
  have h₃ : 3#5 ≠ r := Ne.symm h.2.1
  have h₄ : 4#5 ≠ r := Ne.symm h.2.2.1
  have h₅ : 5#5 ≠ r := Ne.symm h.2.2.2
  simp [body, exec, narrow, h₀, h₃, h₄, h₅]

/-- The words of the patch stand at the place of the function. -/
theorem holds_patch {m : Memory} (h : patchImage sha256 data = .ok (result, sha))
    (hm : m.Holds (BitVec.ofNat 64 base) result) :
    m.Holds (BitVec.ofNat 64 getGmtTimeOfDay) (pack patchWords) := by
  obtain ⟨hstop, rfl, -⟩ := patchImage_eq_ok h
  obtain ⟨hle, hbytes⟩ := Patch.holds_write hstop
  have hslice := Memory.Holds.slice (i := patch.offset) hm hle
  rw [hbytes] at hslice
  exact hslice

/-- The leaf arithmetic. -/
theorem emulatePatchedGet_eq (n : ℤ) :
    emulatePatchedGet n = .ok (n / nanosecondsPerSecond, n % nanosecondsPerSecond, 0) := rfl

/-- A call serves its caller if the memory has the time and nothing else is touched. -/
theorem serves {s s' : State} (hret : s'.pc = s.get 30)
    (hkept : ∀ r : Reg, r ∉ [0, 3, 4, 5] → s'.get r = s.get r) (hstatus : s'.get 0 = 0)
    (hsp : s'.sp = s.sp) (hsys : s'.sys = s.sys) (hapart : Memory.Apart (s.get 1) 8 (s.get 2) 4)
    (hmem : s'.mem = (s.mem.write (s.get 1) (leBytes 8 ((s.sys rtcNs).toNat / nanosecondsPerSecond))).write
      (s.get 2) (leBytes 4 ((s.sys rtcNs).toNat % nanosecondsPerSecond))) : Serves s s' := by
  have hlt := (s.sys rtcNs).isLt
  have hsec : (s.sys rtcNs).toNat / nanosecondsPerSecond < 256 ^ 8 :=
    Nat.lt_of_le_of_lt (Nat.div_le_self _ _) hlt
  have hnsec : (s.sys rtcNs).toNat % nanosecondsPerSecond < nanosecondsPerSecond :=
    Nat.mod_lt _ (by decide)
  have hread₁ : leNat (s'.mem.read (s.get 1) 8) = (s.sys rtcNs).toNat / nanosecondsPerSecond := by
    rw [hmem, read_write_apart (by rwa [length_leBytes]) (by decide),
      leNat_read_write hsec (by decide)]
  have hread₂ : leNat (s'.mem.read (s.get 2) 4) = (s.sys rtcNs).toNat % nanosecondsPerSecond := by
    rw [hmem, leNat_read_write (hnsec.trans (by decide)) (by decide)]
  refine ⟨hret, ?_, ?_, ?_, hkept, hsp, hsys, fun x h₁ h₂ => ?_⟩
  · rw [emulatePatchedGet_eq, hread₁, hread₂, hstatus]
    rfl
  · rw [hread₁, hread₂, Nat.div_add_mod']
  · rwa [hread₂]
  · rw [hmem, write_apply_of_le (by rwa [length_leBytes]), write_apply_of_le (by rwa [length_leBytes])]

/-- What `patch_image` makes has the length of the image and its bytes outside of the function, and
is refused if it is patched again. Where it is mapped, a call of the function with two pointers that
do not meet, nor point into its code, gives the time of the host as `emulate_patched_get` does. -/
theorem patched_get (h : patchImage sha256 data = .ok (result, sha)) :
    (result.length = data.length ∧ (∀ k, ¬patch.Covers k → result[k]? = data[k]?) ∧
      ∀ r, patchImage sha256 result ≠ .ok r) ∧
    ∀ s : State, s.mem.Holds (BitVec.ofNat 64 base) result →
      s.pc = BitVec.ofNat 64 getGmtTimeOfDay → Memory.Apart s.pc 40 (s.get 1) 8 →
      Memory.Apart s.pc 40 (s.get 2) 4 → Memory.Apart (s.get 1) 8 (s.get 2) 4 →
      ∃ s', steps 10 s = some s' ∧ Serves s s' := by
  obtain ⟨hstop, hresult, -⟩ := patchImage_eq_ok h
  refine ⟨⟨?_, fun k hk => ?_, patchImage_patched h⟩, ?_⟩
  · rw [hresult, Patch.length_write hstop]
  · rw [hresult, Patch.getElem?_write hstop hk]
  intro s hm hpc h₁ h₂ hapart
  have hcode := holds_patch h hm
  rw [← hpc] at hcode
  -- The call arrives at the landing pad.
  have hpad : steps 10 s = steps 10 { s with called := false } :=
    steps_pad (fetch_of_holds (k := 0) hcode rfl (BitVec.add_zero _).symm) (i := .hint 34)
      (by decide) rfl
  generalize hs : ({ s with called := false } : State) = t at hpad
  have hpc₁ : t.pc = s.pc := by rw [← hs]
  have hx : ∀ r, t.get r = s.get r := fun r => by rw [← hs]; rfl
  have hsys : t.sys = s.sys := by rw [← hs]
  have hsp : t.sp = s.sp := by rw [← hs]
  have hmem₁ : t.mem = s.mem := by rw [← hs]
  have hcode₁ : t.mem.Holds s.pc (pack patchWords) := by rwa [hmem₁]
  obtain ⟨hsix, m, hm', hseven, hnine⟩ := mem_body t
  have hlen : (pack patchWords).length = 40 := rfl
  have hfits : (pack patchWords).length ≤ 2 ^ 64 := by
    rw [hlen]
    norm_num
  have hcode₂ : m.Holds s.pc (pack patchWords) := by
    rw [hm']
    exact hcode₁.write (by rwa [hlen, length_leBytes, hx]) hfits
  have hmem : ∀ j ≤ 9, ((body.take j).foldl exec t).mem.Holds t.pc (pack patchWords) := by
    intro j hj
    rw [hpc₁]
    obtain hj' | rfl | hj' : j ≤ 6 ∨ j = 7 ∨ 8 ≤ j := by omega
    · rwa [hsix j hj']
    · rwa [hseven]
    · rw [hnine j hj' hj]
      exact hcode₂.write (by rwa [hlen, length_leBytes, hx]) hfits
  obtain ⟨hsteps, hpc', hcalled⟩ := steps_straight (k := 0) decode_body
    (fun j hj => hmem j hj.le) (BitVec.add_zero _).symm (by rw [← hs])
  have hret : step (body.foldl exec t) = some (exec (body.foldl exec t) (.ret 30)) :=
    step_code (k := 9) (hmem 9 le_rfl) hpc' hcalled rfl (by decide)
  refine ⟨exec (body.foldl exec t) (.ret 30), ?_, ?_⟩
  · rw [hpad]
    exact (steps_add body.length 1 t).trans (by rw [hsteps, Option.bind_some, steps_cons hret]; rfl)
  · have hkept : ∀ r : Reg, r ∉ [0, 3, 4, 5] → (body.foldl exec t).get r = s.get r := fun r hr =>
      (registers_body t hr).trans (hx r)
    have hmem' := hnine 9 (by decide) le_rfl
    have htake : body.take 9 = body := rfl
    rw [hm', hmem₁, hx, hx, hsys, htake] at hmem'
    have hregs : (body.foldl exec t).sp = t.sp ∧ (body.foldl exec t).sys = t.sys ∧
        (body.foldl exec t).get 0 = 0 := by
      simp [body, exec]
    generalize body.foldl exec t = u at hkept hmem' hregs
    exact serves (hkept 30 (by decide)) hkept hregs.2.2 (hregs.1.trans hsp) (hregs.2.1.trans hsys)
      hapart hmem'

/-- The header of an image with one load command, which tells its UUID. -/
def targetHeader : Bytes := pack [machoMagic, 0, 0, 0, 1, 24, 0, 0, lcUuid, 24] ++ targetUuid

/-- An image with the pieces that the guard reads. -/
@[irreducible] def targetImage : Bytes :=
  targetHeader ++ List.replicate (patchOffset - targetHeader.length) 0 ++ pack originalWords

theorem length_targetImage : targetImage.length = patchOffset + 40 := by
  have hheader : targetHeader.length ≤ patchOffset := by decide
  have hwords : (pack originalWords).length = 40 := rfl
  unfold targetImage
  rw [List.length_append, List.length_append, List.length_replicate, hwords]
  omega

theorem slice_targetImage {i j : ℕ} (hj : j ≤ targetHeader.length) :
    slice targetImage i j = slice targetHeader i j := by
  refine slice_congr fun k _ hk => ?_
  unfold targetImage
  rw [List.append_assoc, List.getElem?_append_left (by omega)]

theorem machoUuid_targetImage : machoUuid targetImage = .ok targetUuid := by
  have hlen := length_targetImage
  have hword : ∀ off, off + 4 ≤ targetHeader.length → wordAt targetImage off = wordAt targetHeader off :=
    fun off h => by rw [wordAt, wordAt, slice_targetImage h]
  have hcmds : wordAt targetImage 16 = 1 := hword 16 (by decide)
  have hsize : wordAt targetImage 20 = 24 := hword 20 (by decide)
  have hmagic : wordAt targetImage 0 = machoMagic := hword 0 (by decide)
  have hcommand : wordAt targetImage 32 = lcUuid := hword 32 (by decide)
  have hsize' : wordAt targetImage 36 = 24 := hword 36 (by decide)
  have hoffset : patchOffset = 22847440 := rfl
  unfold machoUuid
  dsimp only
  rw [hcmds, hsize, hmagic, if_neg (by omega), if_neg (by decide), if_neg (by omega)]
  unfold findUuid
  dsimp only
  rw [hcommand, hsize', if_neg (by decide), if_neg (by decide), if_pos rfl, if_neg (by decide),
    slice_targetImage (by decide)]
  rfl

/-- The guard finds the original words. -/
theorem guard_targetImage : slice targetImage patchOffset (patchOffset + (pack originalWords).length) =
    pack originalWords := by
  have hheader : targetHeader.length ≤ patchOffset := by decide
  have hpre : (targetHeader ++ List.replicate (patchOffset - targetHeader.length) 0).length =
      patchOffset := by
    rw [List.length_append, List.length_replicate, Nat.add_sub_cancel' hheader]
  have himage : targetHeader ++ List.replicate (patchOffset - targetHeader.length) 0 ++
      pack originalWords ++ [] <+: targetImage.drop 0 := by
    rw [List.append_nil, List.drop_zero, targetImage]
  have hslice := slice_of_isPrefix himage
  rwa [hpre, Nat.zero_add] at hslice

theorem patchImage_targetImage :
    patchImage sha256 targetImage = .ok (patch.write targetImage, sha256 targetImage) := by
  have hwords : (pack originalWords).length = 40 := rfl
  have hinput : validateInput sha256 targetImage = .ok (sha256 targetImage) := by
    unfold validateInput
    rw [machoUuid_targetImage, guard_targetImage, hwords, length_targetImage]
    simp only [bind, Except.bind]
    rw [if_neg (by decide), if_neg (Nat.lt_irrefl _), if_neg (by decide)]
  unfold patchImage
  rw [hinput]
  rfl

/-- A call with pointers to low memory, an hour after the epoch. -/
def targetCall (result : Bytes) : State where
  x r := if r = 1 then 0x1000 else 0x2000
  sp := 0x8000
  pc := BitVec.ofNat 64 getGmtTimeOfDay
  sys _ := 3600000000001
  mem := Memory.write (fun _ => 0) (BitVec.ofNat 64 base) result
  called := true

/-- The digest of the image. -/
def targetSha (_ : Bytes) : List Char :=
  "2b4f928fce46060f67936420c42e526917bde189b48a7eed46d4fc541913456c".toList

theorem patched_get_targetImage : ∃ result sha, patchImage targetSha targetImage = .ok (result, sha) ∧
    ∃ s', steps 10 (targetCall result) = some s' ∧ Serves (targetCall result) s' := by
  have hpatch : patchImage targetSha targetImage =
      .ok (patch.write targetImage, targetSha targetImage) := patchImage_targetImage
  have hlen : (patch.write targetImage).length ≤ 2 ^ 64 := by
    have hwords : patch.stop = patchOffset + 40 := rfl
    have hstop : patch.stop ≤ targetImage.length := by rw [hwords, length_targetImage]
    have hoffset : patchOffset = 22847440 := rfl
    rw [Patch.length_write hstop, length_targetImage, hoffset]
    norm_num
  -- From here on, the image is any that the tool has patched.
  generalize patch.write targetImage = result at hpatch hlen
  have hpc : (targetCall result).pc = BitVec.ofNat 64 getGmtTimeOfDay := rfl
  have h₁ : (targetCall result).get 1 = 0x1000#64 := rfl
  have h₂ : (targetCall result).get 2 = 0x2000#64 := rfl
  refine ⟨result, _, hpatch,
    (patched_get hpatch).2 (targetCall result) (holds_write hlen) hpc ?_ ?_ ?_⟩
  · rw [hpc, h₁]
    exact (apart_of_le (by decide) (by decide)).symm
  · rw [hpc, h₂]
    exact (apart_of_le (by decide) (by decide)).symm
  · rw [h₁, h₂]
    exact apart_of_le (by decide) (by decide)

end Rtc

end DarwinVm.Kernelcache
