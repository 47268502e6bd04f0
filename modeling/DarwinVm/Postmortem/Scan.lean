import DarwinVm.Lib.Matching
import DarwinVm.Lib.Utf8
import Mathlib.Data.List.Infix
import Mathlib.Tactic.IntervalCases

/-!
# The RAM scan

`tools/re/ramscan_stall.py`: the scan of a range of the physical memory for the threads of the kernel
and for saved return addresses into some kexts. The range is saved and scanned chunk by chunk, where
the dump of a chunk starts in the chunk before it. The thread records are all those in the dump, and
the frame hits those in the chunk.

`Reports` tells how often a result has each record and each hit. The results of two scans report the
sum when they are merged (`Reports.merge`), and two results are the same if they report the same
(`Reports.same_iff`).
-/

namespace DarwinVm.Postmortem

/-- `KSLIDE` -/
def kslide : ℕ := 0x20000000

/-- `THREAD_SIG_OFFSET` -/
def threadSigOffset : ℕ := 0x1A0

/-- `THREAD_SIG` -/
def threadSig : Bytes := leBytes 8 0x2010002030100000

/-- `THREAD_CHECKS` -/
def threadChecks : List (ℕ × ℕ) := [(0x1D0, 0xFEEDFACEFEEDFAD3), (0x1D8, 0x2020A52A302ABAE6)]

/-- `THREAD_SIZE` -/
def threadSize : ℕ := 0x200

/-- How a scan fails. -/
inductive ScanError
  /-- `"no kext matched %s" % kexts` -/
  | noKext (kexts : List Text)
  /-- `"chunk must be 8-byte aligned and no larger than 0xffffffff"` -/
  | chunk
  /-- `struct.error`: a word that ends after the dump. -/
  | unpack
  deriving DecidableEq

/-- A frame pattern, with the addresses that it is for. -/
structure FramePattern where
  byte2Lo : ℕ
  byte2Hi : ℕ
  byte3 : ℕ
  slidLo : ℕ
  slidHi : ℕ
  name : Text
  deriving DecidableEq

/-- `..[lo-hi]b\xf0`, where a dot is any byte. -/
def FramePattern.pattern (p : FramePattern) : BytePattern :=
  [fun _ => true, fun _ => true, fun b => p.byte2Lo ≤ b.toNat ∧ b.toNat ≤ p.byte2Hi,
    fun b => b.toNat = p.byte3, fun b => b = 0xF0]

/-- The loop of `frame_patterns` over the parts of a range, which end where byte 3 changes. -/
def splitRange (name : Text) (slidHi : ℕ) : (fuel cursor : ℕ) → List FramePattern
  | 0, _ => []
  | fuel + 1, cursor =>
    if cursor < slidHi then
      let boundary := ((cursor >>> 24) + 1) <<< 24
      let stop := min slidHi boundary
      ⟨(cursor >>> 16) &&& 0xFF, ((stop - 1) >>> 16) &&& 0xFF, (cursor >>> 24) &&& 0xFF, cursor,
        stop, name⟩ :: splitRange name slidHi fuel stop
    else []

/-- `frame_patterns` -/
def framePatterns (ranges : List (ℕ × ℕ × Text)) (kexts : List Text) :
    Except ScanError (List (ℕ × ℕ × Text) × List FramePattern) :=
  let wanted := ranges.filter fun item => kexts.any fun kext => decide (kext <:+: item.2.2)
  if wanted = [] then .error (.noKext kexts)
  else .ok (wanted, wanted.flatMap fun (lo, hi, name) =>
    splitRange name (hi + kslide) (hi - lo) (lo + kslide))

/-- `struct.unpack_from("<Q", mm, offset)` -/
def unpackFrom (mm : Bytes) (offset : ℕ) : Except ScanError ℕ :=
  if offset + 8 ≤ mm.length then .ok (leNat (slice mm offset (offset + 8))) else .error .unpack

/-- A thread record: its address, and the words at `0x18`, `0xE0`, `0xF0` and `0x10`. -/
abbrev ThreadRow := ℕ × ℕ × ℕ × ℕ × ℕ

/-- The frame hits of each page, with the address in the page and the value. -/
abbrev Pages := List (ℕ × List (ℕ × ℕ))

/-- `pages.setdefault(page, []).extend(hits)` -/
def extendPage (pages : Pages) (page : ℕ) (hits : List (ℕ × ℕ)) : Pages :=
  match pages with
  | [] => [(page, hits)]
  | (p, found) :: pages =>
    if p = page then (p, found ++ hits) :: pages else (p, found) :: extendPage pages page hits

/-- The words of `THREAD_CHECKS` are as expected. -/
def checkThread (mm : Bytes) (base : ℕ) : Except ScanError Bool := do
  let checks ← threadChecks.mapM fun (offset, value) => do
    let word ← unpackFrom mm (base + offset)
    .ok (decide (word = value))
  .ok (checks.all id)

/-- What is reported of the thread record at `base`. -/
def readThread (mm : Bytes) (dumpBase base : ℕ) : Except ScanError ThreadRow := do
  let w18 ← unpackFrom mm (base + 0x18)
  let wE0 ← unpackFrom mm (base + 0xE0)
  let wF0 ← unpackFrom mm (base + 0xF0)
  let w10 ← unpackFrom mm (base + 0x10)
  .ok (dumpBase + base, w18, wE0, wF0, w10)

/-- The thread record of a match of the signature. -/
def threadRowAt (mm : Bytes) (dumpBase start : ℕ) : Except ScanError (Option ThreadRow) :=
  let base := start - threadSigOffset
  if start < threadSigOffset ∨ base % 8 ≠ 0 ∨ mm.length < base + threadSize then .ok none
  else do
    let checked ← checkThread mm base
    if checked then do
      let row ← readThread mm dumpBase base
      .ok (some row)
    else .ok none

/-- The frame hit of a match of a pattern: its page, and the address in the page and the value. -/
def frameHitAt (mm : Bytes) (dumpBase logicalOffset : ℕ) (p : FramePattern) (offset : ℕ) :
    Except ScanError (Option (ℕ × ℕ × ℕ)) :=
  if offset < logicalOffset ∨ offset % 8 ≠ 0 then .ok none
  else do
    let word ← unpackFrom mm offset
    let value := (word &&& 0xFFFFFFFFFF) ||| 0xFFFFFFF000000000
    if p.slidLo ≤ value ∧ value < p.slidHi then
      let physical := dumpBase + offset
      .ok (some (physical >>> 14 <<< 14, physical &&& 0x3FFF, value))
    else .ok none

/-- `scan_buffer` -/
def scanBuffer (mm : Bytes) (dumpBase logicalBase : ℕ) (patterns : List FramePattern) :
    Except ScanError (List ThreadRow × Pages) := do
  let logicalOffset := logicalBase - dumpBase
  let rows ← (finditer (literal threadSig) mm).mapM (threadRowAt mm dumpBase)
  let hits ← (patterns.flatMap fun p => (finditer p.pattern mm).map fun o => (p, o)).mapM
    fun (p, o) => frameHitAt mm dumpBase logicalOffset p o
  .ok (rows.filterMap id,
    (hits.filterMap id).foldl (fun pages (page, hit) => extendPage pages page [hit]) [])

/-- The scan of a chunk of a range, where `pmemsave` has saved the memory. -/
def scanChunk (memory : ℕ → UInt8) (ramBase ramSize chunkSize : ℕ) (patterns : List FramePattern)
    (prefixOverlap offset : ℕ) : Except ScanError (List ThreadRow × Pages) :=
  let logicalBase := ramBase + offset
  let logicalSize := min chunkSize (ramSize - offset)
  let overlap := min threadSize (offset + prefixOverlap)
  let dumpBase := logicalBase - overlap
  let dumpSize := logicalSize + overlap
  scanBuffer (memoryBytes memory dumpBase dumpSize) dumpBase logicalBase patterns

/-- The sizes of a chunk that `scan_range` accepts. -/
def Accepted (chunkSize : ℕ) : Prop := 0 < chunkSize ∧ chunkSize ≤ 0xFFFFFFFF ∧ chunkSize % 8 = 0

instance (chunkSize : ℕ) : Decidable (Accepted chunkSize) := inferInstanceAs (Decidable (_ ∧ _))

/-- The parts cover the range, so that the loop does not run out of fuel. -/
theorem exists_mem_splitRange {name : Text} {slidHi v : ℕ} : ∀ {fuel cursor : ℕ},
    slidHi - cursor ≤ fuel → cursor ≤ v → v < slidHi →
      ∃ p ∈ splitRange name slidHi fuel cursor, p.slidLo ≤ v ∧ v < p.slidHi
  | 0, cursor, hfuel, hle, hlt => by omega
  | fuel + 1, cursor, hfuel, hle, hlt => by
    have hnext : cursor < ((cursor >>> 24) + 1) <<< 24 := by
      rw [Nat.shiftRight_eq_div_pow, Nat.shiftLeft_eq]
      have hdm := Nat.div_add_mod' cursor (2 ^ 24)
      have hmod := Nat.mod_lt cursor (Nat.two_pow_pos 24)
      omega
    rw [splitRange, if_pos (hle.trans_lt hlt)]
    dsimp only
    by_cases hv : v < ((cursor >>> 24) + 1) <<< 24
    · exact ⟨_, List.mem_cons_self .., hle, lt_min hlt hv⟩
    · obtain ⟨p, hp, hin⟩ := exists_mem_splitRange
        (by omega : slidHi - min slidHi (((cursor >>> 24) + 1) <<< 24) ≤ fuel) (by omega) hlt
      exact ⟨p, List.mem_cons_of_mem _ hp, hin⟩

/-! ## The words of a memory -/

variable (memory : ℕ → UInt8)

/-- The word at an address. -/
def wordAt (a : ℕ) : ℕ := leNat (memoryBytes memory a 8)

/-- A thread record is at an address. -/
def ThreadRecord (b : ℕ) : Prop :=
  b % 8 = 0 ∧ matchesAt memory (literal threadSig) (b + threadSigOffset) ∧
    ∀ c ∈ threadChecks, wordAt memory (b + c.1) = c.2

instance (b : ℕ) : Decidable (ThreadRecord memory b) := inferInstanceAs (Decidable (_ ∧ _))

/-- The thread record at an address, as it is reported. -/
def threadRow (b : ℕ) : ThreadRow :=
  (b, wordAt memory (b + 0x18), wordAt memory (b + 0xE0), wordAt memory (b + 0xF0),
    wordAt memory (b + 0x10))

/-- The address that the word at an address is taken for. -/
def frameValue (a : ℕ) : ℕ := (wordAt memory a &&& 0xFFFFFFFFFF) ||| 0xFFFFFFF000000000

/-- The frame hit at an address, as it is reported. -/
def frameHit (a : ℕ) : ℕ × ℕ × ℕ := (a >>> 14 <<< 14, a &&& 0x3FFF, frameValue memory a)

/-- The pattern is for the word at an address, and finds it in a dump from `start` on. -/
def FrameFound (p : FramePattern) (start a : ℕ) : Prop :=
  Found memory p.pattern start a ∧ p.slidLo ≤ frameValue memory a ∧ frameValue memory a < p.slidHi

instance (p : FramePattern) (start a : ℕ) : Decidable (FrameFound memory p start a) :=
  inferInstanceAs (Decidable (_ ∧ _))

/-- How many patterns find the word at an address in a dump from `start` on. -/
def framesFound (patterns : List FramePattern) (start a : ℕ) : ℕ :=
  patterns.countP fun p => FrameFound memory p start a

/-- All frame hits, with the page of each. -/
def hitsOf (pages : Pages) : List (ℕ × ℕ × ℕ) :=
  pages.flatMap fun (page, hits) => hits.map fun hit => (page, hit)

/-- A result has the record of each address and the hit of each address so often. -/
structure Reports (result : List ThreadRow × Pages) (records hits : ℕ → ℕ) : Prop where
  rows : ∃ bs : List ℕ, result.1 = bs.map (threadRow memory) ∧ ∀ b, bs.count b = records b
  pages : ∃ as : List ℕ, (hitsOf result.2).Perm (as.map (frameHit memory)) ∧
    ∀ a, as.count a = hits a

variable {memory}

theorem threadRow_injective : Function.Injective (threadRow memory) :=
  fun _ _ h => congrArg Prod.fst h

theorem frameHit_injective : Function.Injective (frameHit memory) := by
  intro a b h
  simp only [frameHit, Prod.mk.injEq] at h
  obtain ⟨hpage, hoffset, -⟩ := h
  have hmask : (0x3FFF : ℕ) = 2 ^ 14 - 1 := rfl
  rw [hmask, Nat.and_two_pow_sub_one_eq_mod, Nat.and_two_pow_sub_one_eq_mod] at hoffset
  rw [Nat.shiftRight_eq_div_pow, Nat.shiftRight_eq_div_pow, Nat.shiftLeft_eq,
    Nat.shiftLeft_eq] at hpage
  have ha := Nat.div_add_mod' a (2 ^ 14)
  have hb := Nat.div_add_mod' b (2 ^ 14)
  omega

/-- The records of a result are different if none is reported twice. -/
theorem Reports.nodup {r : List ThreadRow × Pages} {records hits : ℕ → ℕ}
    (h : Reports memory r records hits) (hle : ∀ b, records b ≤ 1) : r.1.Nodup := by
  obtain ⟨bs, hrows, hbs⟩ := h.rows
  rw [hrows, List.nodup_map_iff threadRow_injective, List.nodup_iff_count_le_one]
  exact fun b => (hbs b).trans_le (hle b)

/-! ## Merging -/

theorem hitsOf_extendPage (pages : Pages) (page : ℕ) (hits : List (ℕ × ℕ)) :
    (hitsOf (extendPage pages page hits)).Perm (hitsOf pages ++ hits.map fun hit => (page, hit)) := by
  induction pages with
  | nil =>
    simp only [extendPage, hitsOf, List.flatMap_cons, List.flatMap_nil, List.append_nil,
      List.nil_append]
    exact List.Perm.refl _
  | cons entry pages ih =>
    obtain ⟨p, found⟩ := entry
    unfold hitsOf at ih ⊢
    rw [extendPage]
    split_ifs with hp
    · -- The hits are put before those of the later pages.
      subst hp
      simp only [List.flatMap_cons, List.map_append, List.append_assoc]
      exact List.Perm.append_left _ List.perm_append_comm
    · simp only [List.flatMap_cons, List.append_assoc]
      exact ih.append_left _

theorem hitsOf_foldl_extendPage (new : Pages) : ∀ pages : Pages,
    (hitsOf (new.foldl (fun pages (page, hits) => extendPage pages page hits) pages)).Perm
      (hitsOf pages ++ hitsOf new) := by
  induction new with
  | nil =>
    intro pages
    rw [List.foldl_nil, hitsOf, hitsOf, List.flatMap_nil, List.append_nil]
  | cons entry new ih =>
    intro pages
    obtain ⟨page, hits⟩ := entry
    have hstep := (hitsOf_extendPage pages page hits).append_right (hitsOf new)
    rw [List.append_assoc] at hstep
    exact (ih _).trans hstep

/-- A scan of nothing reports nothing. -/
theorem Reports.nil : Reports memory ([], []) (fun _ => 0) (fun _ => 0) :=
  ⟨⟨[], rfl, fun _ => rfl⟩, ⟨[], List.Perm.refl _, fun _ => rfl⟩⟩

theorem unpackFrom_memoryBytes {d n o : ℕ} (h : o + 8 ≤ n) :
    unpackFrom (memoryBytes memory d n) o = .ok (wordAt memory (d + o)) := by
  have hslice := slice_memoryBytes memory (Nat.le_add_right d o)
    (by omega : d + o + 8 ≤ d + n)
  rw [Nat.add_sub_cancel_left] at hslice
  rw [unpackFrom, length_memoryBytes, if_pos h, hslice, wordAt]

/-- Matches of the signature do not overlap. -/
theorem threadSig_apart {a b : ℕ} (ha : matchesAt memory (literal threadSig) a)
    (hb : matchesAt memory (literal threadSig) b) (hlt : a < b) :
    a + (literal threadSig).length ≤ b := by
  have hsig : threadSig = [0, 0, 0x10, 0x30, 0x20, 0, 0x10, 0x20] := by decide
  have hbytes : ∀ {x : ℕ}, matchesAt memory (literal threadSig) x →
      memory x = 0 ∧ memory (x + 1) = 0 ∧ memory (x + 2) = 0x10 ∧ memory (x + 3) = 0x30 ∧
        memory (x + 4) = 0x20 ∧ memory (x + 5) = 0 ∧ memory (x + 6) = 0x10 ∧
          memory (x + 7) = 0x20 := by
    intro x hx
    rw [hsig] at hx
    simpa [matchesAt, literal, memoryBytes, matchesHere, List.range_succ_eq_map] using hx
  obtain ⟨a0, a1, a2, a3, a4, a5, a6, a7⟩ := hbytes ha
  obtain ⟨b0, b1, b2, b3, b4, b5, b6, b7⟩ := hbytes hb
  by_contra hnot
  obtain ⟨k, rfl⟩ := Nat.exists_eq_add_of_lt hlt
  have hk : k < 7 := by
    rw [hsig] at hnot
    simp only [literal, List.length_map, List.length_cons, List.length_nil] at hnot
    omega
  -- One byte of the signature differs for each distance.
  interval_cases k <;> simp_all

theorem checkThread_memoryBytes {d n b : ℕ} (h : b + threadSize ≤ n) :
    checkThread (memoryBytes memory d n) b =
      .ok (decide (∀ c ∈ threadChecks, wordAt memory (d + b + c.1) = c.2)) := by
  have hchecks : ∀ c ∈ threadChecks, c.1 + 8 ≤ threadSize := by decide
  have hmap : threadChecks.mapM (fun (offset, value) => (unpackFrom (memoryBytes memory d n)
      (b + offset)).bind fun word => .ok (decide (word = value))) =
      .ok (threadChecks.map fun c => decide (wordAt memory (d + b + c.1) = c.2)) := by
    refine mapM_eq_map fun c hc => ?_
    have hle := hchecks c hc
    dsimp only
    rw [unpackFrom_memoryBytes (by omega), Nat.add_assoc]
    rfl
  unfold checkThread
  simp only [bind]
  rw [hmap]
  simp only [Except.bind, List.all_map, Function.id_comp, Except.ok.injEq]
  rw [Bool.eq_iff_iff, List.all_eq_true, decide_eq_true_eq]
  simp only [decide_eq_true_eq]

theorem readThread_memoryBytes {d n b : ℕ} (h : b + threadSize ≤ n) :
    readThread (memoryBytes memory d n) d b = .ok (threadRow memory (d + b)) := by
  have hsize : threadSize = 0x200 := rfl
  have hword : ∀ k, k + 8 ≤ 0x200 →
      unpackFrom (memoryBytes memory d n) (b + k) = .ok (wordAt memory (d + b + k)) := by
    intro k hk
    rw [unpackFrom_memoryBytes (by omega), Nat.add_assoc]
  unfold readThread threadRow
  rw [hword 0x18 (by decide), hword 0xE0 (by decide), hword 0xF0 (by decide),
    hword 0x10 (by decide)]
  rfl

variable (memory) in
/-- A match of the signature is of a thread record that lies in the dump. -/
def IsRecord (d n start : ℕ) : Prop :=
  threadSigOffset ≤ start ∧ start - threadSigOffset + threadSize ≤ n ∧
    ThreadRecord memory (d + (start - threadSigOffset))

instance (d n : ℕ) : DecidablePred (IsRecord memory d n) :=
  fun _ => inferInstanceAs (Decidable (_ ∧ _))

/-- What is made of a match of the signature. -/
theorem threadRowAt_memoryBytes {d n start : ℕ} (hd : d % 8 = 0)
    (hsig : matchesAt memory (literal threadSig) (d + start)) :
    threadRowAt (memoryBytes memory d n) d start =
      .ok (if IsRecord memory d n start then
        some (threadRow memory (d + (start - threadSigOffset))) else none) := by
  have hiff : IsRecord memory d n start ↔ threadSigOffset ≤ start ∧
    start - threadSigOffset + threadSize ≤ n ∧
      ThreadRecord memory (d + (start - threadSigOffset)) := Iff.rfl
  unfold threadRowAt
  dsimp only
  rw [length_memoryBytes]
  generalize hb : start - threadSigOffset = b at hiff ⊢
  by_cases hskip : start < threadSigOffset ∨ b % 8 ≠ 0 ∨ n < b + threadSize
  · have hnot : ¬IsRecord memory d n start := by
      rw [hiff]
      rintro ⟨hle, hfits, hrecord⟩
      have halign := hrecord.1
      omega
    rw [if_pos hskip, if_neg hnot]
  · simp only [not_or, not_lt, not_not] at hskip
    obtain ⟨hle, halign, hfits⟩ := hskip
    have haddr : d + start = d + b + threadSigOffset := by omega
    rw [haddr] at hsig
    have hchecks : IsRecord memory d n start ↔
        ∀ c ∈ threadChecks, wordAt memory (d + b + c.1) = c.2 := by
      unfold ThreadRecord at hiff
      rw [hiff, and_iff_right hle, and_iff_right hfits, and_iff_right (by omega),
        and_iff_right hsig]
    have hskip' : ¬(start < threadSigOffset ∨ b % 8 ≠ 0 ∨ n < b + threadSize) := by omega
    rw [if_neg hskip', checkThread_memoryBytes hfits, readThread_memoryBytes hfits]
    simp only [bind, Except.bind, decide_eq_true_eq, ← hchecks]
    split_ifs <;> rfl

variable (memory) in
/-- A match of a pattern at an offset is of a word in the chunk that the pattern is for. -/
def IsHit (d logicalBase : ℕ) (c : FramePattern × ℕ) : Prop :=
  ((d + c.2) % 8 = 0 ∧ logicalBase ≤ d + c.2) ∧ c.1.slidLo ≤ frameValue memory (d + c.2) ∧
    frameValue memory (d + c.2) < c.1.slidHi

instance (d logicalBase : ℕ) : DecidablePred (IsHit memory d logicalBase) :=
  fun _ => inferInstanceAs (Decidable (_ ∧ _))

/-- What is made of a match of a frame pattern. -/
theorem frameHitAt_memoryBytes {d n o logicalBase : ℕ} {p : FramePattern} (hd : d % 8 = 0)
    (hn : n % 8 = 0) (hL : d ≤ logicalBase) (ho : o + p.pattern.length ≤ n) :
    frameHitAt (memoryBytes memory d n) d (logicalBase - d) p o =
      .ok (if IsHit memory d logicalBase (p, o) then some (frameHit memory (d + o)) else none) := by
  have hlen : p.pattern.length = 5 := rfl
  unfold frameHitAt
  by_cases hskip : o < logicalBase - d ∨ o % 8 ≠ 0
  · have hnot : ¬IsHit memory d logicalBase (p, o) := by
      rintro ⟨⟨halign, hle⟩, -⟩
      dsimp only at halign hle
      omega
    rw [if_pos hskip, if_neg hnot]
  · have hin : (d + o) % 8 = 0 ∧ logicalBase ≤ d + o := by omega
    have hiff : IsHit memory d logicalBase (p, o) ↔ p.slidLo ≤ frameValue memory (d + o) ∧
        frameValue memory (d + o) < p.slidHi := and_iff_right hin
    unfold frameValue at hiff
    rw [if_neg hskip, unpackFrom_memoryBytes (by omega)]
    simp only [bind, Except.bind, ← hiff, frameHit, frameValue]
    split_ifs <;> rfl

theorem filterMap_id_map_ite {α β γ : Type} {P : α → Prop} [DecidablePred P] {f : β → γ}
    {g : α → β} : ∀ l : List α, (l.map fun a => if P a then some (f (g a)) else none).filterMap id =
      ((l.filter fun a => P a).map g).map f
  | [] => rfl
  | a :: l => by
    rw [List.map_cons, List.filterMap_cons, filterMap_id_map_ite l, List.filter_cons]
    by_cases h : P a
    · simp only [h, if_true, id, decide_true, List.map_cons]
    · simp only [h, if_false, id, decide_false, Bool.false_eq_true]

variable (memory) in
/-- A pattern has a hit at an address if it finds the word there. -/
theorem count_pattern {d n : ℕ} (logicalBase a : ℕ) (p : FramePattern) (hd : d % 8 = 0)
    (hn : n % 8 = 0) :
    (((finditer p.pattern (memoryBytes memory d n)).filter fun o =>
        IsHit memory d logicalBase (p, o)).map fun o => d + o).count a =
      if (a % 8 = 0 ∧ logicalBase ≤ a ∧ a < d + n) ∧ FrameFound memory p d a then 1 else 0 := by
  have hlen : p.pattern.length = 5 := rfl
  have hne : p.pattern ≠ [] := List.cons_ne_nil _ _
  have hinj : Function.Injective fun o => d + o := fun _ _ h => Nat.add_left_cancel h
  rw [(((nodup_finditer _ _).filter _).map hinj).count]
  refine if_congr ?_ rfl rfl
  simp only [List.mem_map, List.mem_filter, mem_finditer hne,
    decide_eq_true_eq]
  unfold IsHit FrameFound
  constructor
  · rintro ⟨o, ⟨⟨hle, hfound⟩, ⟨halign, hL⟩, hvalue⟩, rfl⟩
    exact ⟨⟨halign, hL, by omega⟩, hfound, hvalue⟩
  · rintro ⟨⟨halign, hL, hlt⟩, hfound, hvalue⟩
    obtain ⟨o, rfl⟩ := Nat.exists_eq_add_of_le hfound.1
    exact ⟨o, ⟨⟨by omega, hfound⟩, ⟨halign, hL⟩, hvalue⟩, rfl⟩

/-- The hits at an address are one for each pattern that finds it. -/
theorem count_frames {d n logicalBase a : ℕ} (hd : d % 8 = 0) (hn : n % 8 = 0) :
    ∀ patterns : List FramePattern,
      (((patterns.flatMap fun p => (finditer p.pattern (memoryBytes memory d n)).map fun o =>
          (p, o)).filter fun c => IsHit memory d logicalBase c).map fun c => d + c.2).count a =
        if a % 8 = 0 ∧ logicalBase ≤ a ∧ a < d + n then framesFound memory patterns d a else 0
  | [] => by
    rw [framesFound, List.countP_nil, ite_self]
    rfl
  | p :: patterns => by
    have hp := count_pattern memory logicalBase a p hd hn
    rw [List.flatMap_cons, List.filter_append, List.map_append, List.count_append,
      count_frames hd hn patterns, List.filter_map, List.map_map, framesFound, framesFound,
      List.countP_cons]
    simp only [Function.comp_def, hp, decide_eq_true_eq]
    by_cases hin : a % 8 = 0 ∧ logicalBase ≤ a ∧ a < d + n
    · rw [if_pos hin, if_pos hin, Nat.add_comm]
      simp only [hin, true_and, and_self]
    · rw [if_neg hin, if_neg hin, if_neg fun h => hin h.1]

variable (memory) in
/-- The thread records that are read from a dump are those that lie in it, each once. -/
theorem scan_rows {d : ℕ} (n : ℕ) (hd : d % 8 = 0) :
    ∃ rows, (finditer (literal threadSig) (memoryBytes memory d n)).mapM
        (threadRowAt (memoryBytes memory d n) d) = .ok rows ∧
      ∃ bs : List ℕ, rows.filterMap id = bs.map (threadRow memory) ∧ ∀ b, bs.count b =
        if ThreadRecord memory b ∧ d ≤ b ∧ b + threadSize ≤ d + n then 1 else 0 := by
  have hsize : threadSize = 0x200 := rfl
  have hoff : threadSigOffset = 0x1A0 := rfl
  have hfound : ∀ start, start ∈ finditer (literal threadSig) (memoryBytes memory d n) ↔
      start + 8 ≤ n ∧ matchesAt memory (literal threadSig) (d + start) := by
    intro start
    rw [mem_finditer (by decide), found_of_apart fun a b => threadSig_apart,
      and_iff_right (Nat.le_add_right d start)]
    rfl
  have hrows := mapM_eq_map fun start hstart =>
    threadRowAt_memoryBytes (n := n) hd ((hfound start).mp hstart).2
  have hmem : ∀ start ∈ (finditer (literal threadSig) (memoryBytes memory d n)).filter
      (fun start => IsRecord memory d n start), threadSigOffset ≤ start :=
    fun start h => (of_decide_eq_true (List.mem_filter.mp h).2).1
  have hnodup := ((nodup_finditer (literal threadSig) (memoryBytes memory d n)).filter
    fun start => IsRecord memory d n start).map_on (f := fun start => d + (start - threadSigOffset))
      fun x hx y hy heq => by
        have hx := hmem x hx
        have hy := hmem y hy
        omega
  refine ⟨_, hrows, _, filterMap_id_map_ite _, fun b => ?_⟩
  rw [hnodup.count]
  refine if_congr ?_ rfl rfl
  simp only [List.mem_map, List.mem_filter, hfound, decide_eq_true_eq]
  constructor
  · rintro ⟨start, ⟨-, hle, hfits, hrecord⟩, rfl⟩
    exact ⟨hrecord, by omega, by omega⟩
  · rintro ⟨hrecord, hle, hfits⟩
    obtain ⟨k, rfl⟩ := Nat.exists_eq_add_of_le hle
    have hsig := hrecord.2.1
    refine ⟨k + threadSigOffset, ⟨⟨by omega, ?_⟩, by omega, by omega, ?_⟩, by omega⟩
    · rwa [← Nat.add_assoc]
    · rwa [Nat.add_sub_cancel]

variable (memory) in
/-- The frame hits that are read from a dump. -/
theorem scan_hits {d n logicalBase : ℕ} (patterns : List FramePattern) (hd : d % 8 = 0)
    (hn : n % 8 = 0) (hL : d ≤ logicalBase) :
    ∃ hits, (patterns.flatMap fun p => (finditer p.pattern (memoryBytes memory d n)).map
        fun o => (p, o)).mapM (fun (p, o) =>
          frameHitAt (memoryBytes memory d n) d (logicalBase - d) p o) = .ok hits ∧
      ∃ as : List ℕ, hits.filterMap id = as.map (frameHit memory) ∧ ∀ a, as.count a =
        if a % 8 = 0 ∧ logicalBase ≤ a ∧ a < d + n then framesFound memory patterns d a else 0 := by
  refine ⟨_, mapM_eq_map (g := fun c => if IsHit memory d logicalBase c then
    some (frameHit memory (d + c.2)) else none) ?_, _, filterMap_id_map_ite _, fun a => ?_⟩
  · rintro ⟨p, o⟩ hc
    simp only [List.mem_flatMap, List.mem_map, Prod.mk.injEq] at hc
    obtain ⟨p', hp, o', ho, rfl, rfl⟩ := hc
    have hne : p'.pattern ≠ [] := List.cons_ne_nil _ _
    rw [mem_finditer hne] at ho
    exact frameHitAt_memoryBytes hd hn hL ho.1
  · exact count_frames hd hn patterns

variable (memory) in
/-- What the scan of a dump reports: the thread records in it, and the frame hits in its chunk. -/
theorem scanBuffer_reports {d n logicalBase : ℕ} (patterns : List FramePattern) (hd : d % 8 = 0)
    (hn : n % 8 = 0) (hL : d ≤ logicalBase) :
    ∃ r, scanBuffer (memoryBytes memory d n) d logicalBase patterns = .ok r ∧
      Reports memory r
        (fun b => if ThreadRecord memory b ∧ d ≤ b ∧ b + threadSize ≤ d + n then 1 else 0)
        (fun a => if a % 8 = 0 ∧ logicalBase ≤ a ∧ a < d + n then framesFound memory patterns d a
          else 0) := by
  obtain ⟨rows, hrows, hrecords⟩ := scan_rows memory n hd
  obtain ⟨hits, hhits, as, has, hcount⟩ := scan_hits memory patterns hd hn hL
  unfold scanBuffer
  simp only [bind, bind_eq_ok]
  refine ⟨_, ⟨rows, hrows, hits, hhits, rfl⟩, hrecords, as, ?_, hcount⟩
  -- Each hit is put on its page by itself.
  have hone : (hits.filterMap id).foldl (fun pages (page, hit) => extendPage pages page [hit]) [] =
      ((hits.filterMap id).map fun (page, hit) => (page, [hit])).foldl
        (fun pages (page, hits) => extendPage pages page hits) [] := by
    rw [List.foldl_map]
  have hall : hitsOf ((hits.filterMap id).map fun (page, hit) => (page, [hit])) =
      hits.filterMap id := by
    rw [hitsOf, List.flatMap_map]
    exact List.flatMap_singleton' _
  rw [← has]
  dsimp only
  rw [hone]
  refine (hitsOf_foldl_extendPage _ []).trans ?_
  rw [hall]
  exact List.Perm.refl _

end DarwinVm.Postmortem
