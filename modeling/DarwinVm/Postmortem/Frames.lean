import DarwinVm.Postmortem.Chunks

/-!
# The frame hits of one scan

The frame patterns find aligned words by their bytes: a word whose low 40 bits are those of an address
in a wanted range matches the pattern of the part of the range that its address is in
(`matchesAt_iff`), and of no other part, as the parts are apart (`pairwise_patterns`). But `finditer`
looks for the next match after the end of the one before, and a match that is not aligned may end in a
wanted word, which is then lost. `scan_buffer` reports every wanted word once exactly when it loses
none (`scanBuffer_frames`).
-/

namespace DarwinVm.Postmortem

/-- The memory that has a buffer at an address. -/
def bufferMemory (dumpBase : ℕ) (mm : Bytes) (a : ℕ) : UInt8 := mm.getD (a - dumpBase) 0

variable (memory : ℕ → UInt8)

/-- The low 40 bits of the word are those of an address in a wanted range, after the slide. -/
def Wanted (wanted : List (ℕ × ℕ × Text)) (a : ℕ) : Prop :=
  ∃ r ∈ wanted, ∃ v, (r.1 + kslide ≤ v ∧ v < r.2.1 + kslide) ∧ v % 2 ^ 40 = wordAt memory a % 2 ^ 40

/-- The address of the word is one with `0xf0` as its fifth byte that a pattern is for, and no match of
the pattern that is found starts in the four bytes before. -/
def Clear (patterns : List FramePattern) (start a : ℕ) : Prop :=
  memory (a + 4) = 0xF0 ∧ ∃ p ∈ patterns,
    (p.slidLo ≤ frameValue memory a ∧ frameValue memory a < p.slidHi) ∧
      ∀ b < a, a < b + 5 → ¬Found memory p.pattern start b

/-- Two ranges have no address in common. -/
def RangesApart (r r' : ℕ × ℕ × Text) : Prop :=
  ∀ v, ¬((r.1 ≤ v ∧ v < r.2.1) ∧ r'.1 ≤ v ∧ v < r'.2.1)

/-- The address of an aligned word of a buffer, at or after `logical_base`. -/
def InBuffer (mm : Bytes) (dumpBase logicalBase a : ℕ) : Prop :=
  a % 8 = 0 ∧ dumpBase ≤ a ∧ logicalBase ≤ a ∧ a < dumpBase + mm.length

/-- The scan reports the wanted words of the buffer, each once with its page, its offset in the page
and its canonical value, and no others. -/
def FramesExact (mm : Bytes) (dumpBase logicalBase : ℕ) (wanted : List (ℕ × ℕ × Text))
    (patterns : List FramePattern) : Prop :=
  ∃ r, scanBuffer mm dumpBase logicalBase patterns = .ok r ∧ ∃ as : List ℕ,
    (hitsOf r.2).Perm (as.map (frameHit (bufferMemory dumpBase mm))) ∧ as.Nodup ∧
      ∀ a, a ∈ as ↔ InBuffer mm dumpBase logicalBase a ∧ Wanted (bufferMemory dumpBase mm) wanted a

variable {memory}

theorem memoryBytes_bufferMemory (d : ℕ) (mm : Bytes) :
    memoryBytes (bufferMemory d mm) d mm.length = mm := by
  refine List.ext_getElem (length_memoryBytes ..) fun i hi hi' => ?_
  simp only [memoryBytes, List.getElem_map, List.getElem_range, bufferMemory, Nat.add_sub_cancel_left]
  rw [List.getD_eq_getElem?_getD, List.getElem?_eq_getElem hi', Option.getD_some]

/-! ## The bytes of a word -/

variable (memory) in
theorem wordAt_eq (a : ℕ) : wordAt memory a =
    (memory a).toNat + 256 * ((memory (a + 1)).toNat + 256 * ((memory (a + 2)).toNat +
      256 * ((memory (a + 3)).toNat + 256 * ((memory (a + 4)).toNat + 256 * ((memory (a + 5)).toNat +
        256 * ((memory (a + 6)).toNat + 256 * (memory (a + 7)).toNat)))))) := by
  simp [wordAt, memoryBytes, List.range_succ, leNat]

variable (memory) in
/-- The bytes 2, 3 and 4 of a word. -/
theorem wordAt_bytes (a : ℕ) : wordAt memory a / 2 ^ 16 % 256 = (memory (a + 2)).toNat ∧
    wordAt memory a / 2 ^ 24 % 256 = (memory (a + 3)).toNat ∧
      wordAt memory a % 2 ^ 40 / 2 ^ 32 = (memory (a + 4)).toNat := by
  have hlt (k : ℕ) : (memory k).toNat < 256 := (memory k).toNat_lt
  have h0 := hlt a
  have h1 := hlt (a + 1)
  have h2 := hlt (a + 2)
  have h3 := hlt (a + 3)
  have h4 := hlt (a + 4)
  have h := wordAt_eq memory a
  omega

variable (memory) in
/-- The canonical value has the low four bytes of the word, and the bits of its fifth byte. -/
theorem frameValue_eq (a : ℕ) : frameValue memory a % 2 ^ 32 = wordAt memory a % 2 ^ 32 ∧
    frameValue memory a / 2 ^ 32 = (memory (a + 4)).toNat ||| 0xFFFFFFF0 := by
  have hmask : (0xFFFFFFFFFF : ℕ) = 2 ^ 40 - 1 := rfl
  have hhigh : (0xFFFFFFF000000000 : ℕ) / 2 ^ 32 = 0xFFFFFFF0 := rfl
  have hlow : (0xFFFFFFF000000000 : ℕ) % 2 ^ 32 = 0 := rfl
  rw [frameValue, hmask, Nat.and_two_pow_sub_one_eq_mod, Nat.or_mod_two_pow, Nat.or_div_two_pow, hhigh,
    hlow, Nat.or_zero, (wordAt_bytes memory a).2.2]
  exact ⟨Nat.mod_mod_of_dvd _ (by decide), rfl⟩

/-- An address with `0xf0` as its fifth byte is the word's own, up to the bits that the word has above. -/
theorem frameValue_mod {a : ℕ} (h : memory (a + 4) = 0xF0) :
    frameValue memory a % 2 ^ 40 = wordAt memory a % 2 ^ 40 := by
  obtain ⟨hlow, hhigh⟩ := frameValue_eq memory a
  have hbyte := (wordAt_bytes memory a).2.2
  have hor : (0xF0 : UInt8).toNat ||| 0xFFFFFFF0 = 0xFFFFFFF0 := by decide
  have hval : (0xF0 : UInt8).toNat = 0xF0 := rfl
  rw [h] at hhigh hbyte
  rw [hor] at hhigh
  rw [hval] at hbyte
  omega

/-! ## The parts of a range -/

/-- A pattern is for a part of the addresses from `lo` to `hi`, which all have the same byte 3. -/
structure IsPart (lo hi : ℕ) (p : FramePattern) : Prop where
  lo_le : lo ≤ p.slidLo
  le_hi : p.slidHi ≤ hi
  lt : p.slidLo < p.slidHi
  block : (p.slidHi - 1) / 2 ^ 24 = p.slidLo / 2 ^ 24
  byte2Lo : p.byte2Lo = p.slidLo / 2 ^ 16 % 256
  byte2Hi : p.byte2Hi = (p.slidHi - 1) / 2 ^ 16 % 256
  byte3 : p.byte3 = p.slidLo / 2 ^ 24 % 256

/-- The addresses of two patterns are apart. -/
def Apart (p q : FramePattern) : Prop :=
  ∀ v, ¬((p.slidLo ≤ v ∧ v < p.slidHi) ∧ q.slidLo ≤ v ∧ v < q.slidHi)

/-- The parts of a range, and that they are apart. -/
theorem splitRange_parts (name : Text) (hi : ℕ) : ∀ fuel cursor : ℕ,
    (∀ p ∈ splitRange name hi fuel cursor, IsPart cursor hi p) ∧
      (splitRange name hi fuel cursor).Pairwise Apart
  | 0, cursor => ⟨List.forall_mem_nil _, List.Pairwise.nil⟩
  | fuel + 1, cursor => by
    have hbyte : (0xFF : ℕ) = 2 ^ 8 - 1 := rfl
    rw [splitRange]
    split_ifs with hlt
    · dsimp only
      rw [Nat.shiftLeft_eq, hbyte]
      simp only [Nat.shiftRight_eq_div_pow, Nat.and_two_pow_sub_one_eq_mod]
      obtain ⟨stop, hstop⟩ : ∃ stop, stop = min hi ((cursor / 2 ^ 24 + 1) * 2 ^ 24) := ⟨_, rfl⟩
      obtain ⟨hparts, hapart⟩ := splitRange_parts name hi fuel stop
      rw [← hstop]
      have hcursor : cursor < stop := by omega
      constructor
      · rw [List.forall_mem_cons]
        have hle : stop ≤ hi := by omega
        have hblock : (stop - 1) / 2 ^ 24 = cursor / 2 ^ 24 := by omega
        refine ⟨⟨le_rfl, hle, hcursor, hblock, rfl, rfl, rfl⟩, ?_⟩
        · intro p hp
          have hpart := hparts p hp
          exact ⟨hcursor.le.trans hpart.lo_le, hpart.le_hi, hpart.lt, hpart.block, hpart.byte2Lo,
            hpart.byte2Hi, hpart.byte3⟩
      · refine List.pairwise_cons.mpr ⟨?_, hapart⟩
        -- The next parts start where this one stops.
        rintro p hp v ⟨⟨-, hv⟩, hv', -⟩
        have hle := (hparts p hp).lo_le
        dsimp only at hv
        omega
    · exact ⟨List.forall_mem_nil _, List.Pairwise.nil⟩

/-- The pattern of a part matches a word whose address is in the part, if its fifth byte is `0xf0`. -/
theorem matchesAt_iff {lo hi a : ℕ} {p : FramePattern} (hpart : IsPart lo hi p)
    (hlo : p.slidLo ≤ frameValue memory a) (hhi : frameValue memory a < p.slidHi) :
    matchesAt memory p.pattern a ↔ memory (a + 4) = 0xF0 := by
  obtain ⟨hlow, -⟩ := frameValue_eq memory a
  obtain ⟨hb2, hb3, -⟩ := wordAt_bytes memory a
  have hblock := hpart.block
  have hmatch : matchesAt memory p.pattern a ↔
      (p.byte2Lo ≤ (memory (a + 2)).toNat ∧ (memory (a + 2)).toNat ≤ p.byte2Hi) ∧
        (memory (a + 3)).toNat = p.byte3 ∧ memory (a + 4) = 0xF0 := by
    simp [matchesAt, FramePattern.pattern, memoryBytes, matchesHere, List.range_succ_eq_map]
  rw [hmatch, hpart.byte2Lo, hpart.byte2Hi, hpart.byte3]
  have hbytes : (p.slidLo / 2 ^ 16 % 256 ≤ (memory (a + 2)).toNat ∧
      (memory (a + 2)).toNat ≤ (p.slidHi - 1) / 2 ^ 16 % 256) ∧
        (memory (a + 3)).toNat = p.slidLo / 2 ^ 24 % 256 := by
    omega
  rw [and_iff_right hbytes.1, and_iff_right hbytes.2]

/-- The patterns of the wanted ranges. -/
def partsOf (wanted : List (ℕ × ℕ × Text)) : List FramePattern :=
  wanted.flatMap fun r => splitRange r.2.2 (r.2.1 + kslide) (r.2.1 - r.1) (r.1 + kslide)

theorem framePatterns_eq {ranges wanted : List (ℕ × ℕ × Text)} {kexts : List Text}
    {patterns : List FramePattern} (hp : framePatterns ranges kexts = .ok (wanted, patterns)) :
    patterns = partsOf wanted := by
  rw [framePatterns] at hp
  split_ifs at hp
  obtain ⟨rfl, rfl⟩ := Prod.mk.inj (Except.ok.inj hp)
  rfl

/-- Every pattern is for a part of a wanted range. -/
theorem exists_isPart {wanted : List (ℕ × ℕ × Text)} {p : FramePattern} (h : p ∈ partsOf wanted) :
    ∃ r ∈ wanted, IsPart (r.1 + kslide) (r.2.1 + kslide) p := by
  obtain ⟨r, hr, hp⟩ := List.mem_flatMap.mp h
  exact ⟨r, hr, (splitRange_parts ..).1 p hp⟩

/-- The addresses of a pattern are apart from those of the others when the ranges are apart. -/
theorem pairwise_partsOf {wanted : List (ℕ × ℕ × Text)}
    (hwanted : wanted.Pairwise RangesApart) :
    (partsOf wanted).Pairwise Apart := by
  rw [partsOf, List.pairwise_flatMap]
  refine ⟨fun r _ => (splitRange_parts ..).2, hwanted.imp ?_⟩
  rintro r r' hapart p hp q hq v ⟨⟨hplo, hphi⟩, hqlo, hqhi⟩
  have hpart := (splitRange_parts ..).1 p hp
  have hpart' := (splitRange_parts ..).1 q hq
  have hlo := hpart.lo_le
  have hhi := hpart.le_hi
  have hlo' := hpart'.lo_le
  have hhi' := hpart'.le_hi
  exact hapart (v - kslide) (by omega)

/-! ## What the patterns find -/

section Patterns

variable {wanted : List (ℕ × ℕ × Text)} {start a : ℕ}

/-- A pattern finds a word when its fifth byte is `0xf0`, its address is one that the pattern is for,
and no match that is found before overlaps it. -/
theorem exists_frameFound_iff (hle : start ≤ a) :
    (∃ p ∈ partsOf wanted, FrameFound memory p start a) ↔ Clear memory (partsOf wanted) start a := by
  have hlen (p : FramePattern) : p.pattern.length = 5 := rfl
  constructor
  · rintro ⟨p, hp, hfound, hin⟩
    rw [found_iff, hlen] at hfound
    obtain ⟨-, hat, hnone⟩ := hfound
    obtain ⟨r, -, hpart⟩ := exists_isPart hp
    exact ⟨(matchesAt_iff hpart hin.1 hin.2).mp hat, p, hp, hin, hnone⟩
  · rintro ⟨hbyte, p, hp, hin, hnone⟩
    obtain ⟨r, -, hpart⟩ := exists_isPart hp
    refine ⟨p, hp, ?_, hin⟩
    rw [found_iff, hlen]
    exact ⟨hle, (matchesAt_iff hpart hin.1 hin.2).mpr hbyte, hnone⟩

/-- What the patterns find is wanted. -/
theorem wanted_of_clear (h : Clear memory (partsOf wanted) start a) : Wanted memory wanted a := by
  obtain ⟨hbyte, p, hp, ⟨hlo, hhi⟩, -⟩ := h
  obtain ⟨r, hr, hpart⟩ := exists_isPart hp
  exact ⟨r, hr, frameValue memory a, ⟨hpart.lo_le.trans hlo, hhi.trans_le hpart.le_hi⟩,
    frameValue_mod hbyte⟩

/-- No two patterns find the same word. -/
theorem framesFound_eq {patterns : List FramePattern} (hapart : patterns.Pairwise Apart) :
    framesFound memory patterns start a =
      if ∃ p ∈ patterns, FrameFound memory p start a then 1 else 0 := by
  unfold framesFound
  induction patterns with
  | nil => simp
  | cons p patterns ih =>
    rw [List.pairwise_cons] at hapart
    rw [List.countP_cons, ih hapart.2]
    by_cases hfound : FrameFound memory p start a
    · have hnone : ¬∃ q ∈ patterns, FrameFound memory q start a := by
        rintro ⟨q, hq, hfound'⟩
        exact hapart.1 q hq _ ⟨hfound.2, hfound'.2⟩
      rw [if_neg hnone, if_pos (decide_eq_true hfound), if_pos ⟨p, List.mem_cons_self, hfound⟩]
    · have hnot : ¬decide (FrameFound memory p start a) = true := by rwa [decide_eq_true_eq]
      rw [if_neg hnot, Nat.add_zero]
      refine if_congr ?_ rfl rfl
      rw [List.exists_mem_cons_iff, or_iff_right hfound]

end Patterns

/-- A logical base before the dump is as good as one at its start. -/
theorem scanBuffer_max (mm : Bytes) (d logicalBase : ℕ) (patterns : List FramePattern) :
    scanBuffer mm d logicalBase patterns = scanBuffer mm d (max d logicalBase) patterns := by
  have hoffset : max d logicalBase - d = logicalBase - d := by omega
  unfold scanBuffer
  rw [hoffset]

/-- The scan reports every wanted word of the buffer once, and nothing else, exactly when every wanted
word is clear. -/
theorem scanBuffer_frames {ranges wanted : List (ℕ × ℕ × Text)} {kexts : List Text}
    {patterns : List FramePattern} {mm : Bytes} {dumpBase : ℕ} (logicalBase : ℕ)
    (hp : framePatterns ranges kexts = .ok (wanted, patterns))
    (hwanted : wanted.Pairwise RangesApart)
    (hsize : mm.length % 8 = 0) (hbase : dumpBase % 8 = 0) :
    FramesExact mm dumpBase logicalBase wanted patterns ↔
      ∀ a, InBuffer mm dumpBase logicalBase a → Wanted (bufferMemory dumpBase mm) wanted a →
        Clear (bufferMemory dumpBase mm) patterns dumpBase a := by
  obtain rfl := framePatterns_eq hp
  obtain ⟨r, hr, -, bs, hbs, hcount⟩ := scanBuffer_reports (bufferMemory dumpBase mm) (partsOf wanted)
    hbase hsize (le_max_left dumpBase logicalBase)
  rw [memoryBytes_bufferMemory, ← scanBuffer_max] at hr
  have hmem (a : ℕ) : InBuffer mm dumpBase logicalBase a ↔
      a % 8 = 0 ∧ max dumpBase logicalBase ≤ a ∧ a < dumpBase + mm.length := by
    unfold InBuffer
    omega
  have hcount (a : ℕ) : bs.count a =
      if a % 8 = 0 ∧ max dumpBase logicalBase ≤ a ∧ a < dumpBase + mm.length then
        if ∃ p ∈ partsOf wanted, FrameFound (bufferMemory dumpBase mm) p dumpBase a then 1 else 0
      else 0 := by
    rw [hcount, framesFound_eq (pairwise_partsOf hwanted)]
  have hnodup : bs.Nodup := by
    rw [List.nodup_iff_count_le_one]
    intro a
    rw [hcount]
    split_ifs <;> omega
  -- The hits are those of the clear words.
  have hclear (a : ℕ) : a ∈ bs ↔ InBuffer mm dumpBase logicalBase a ∧
      Clear (bufferMemory dumpBase mm) (partsOf wanted) dumpBase a := by
    rw [← List.count_pos_iff, hcount, hmem]
    by_cases hin : a % 8 = 0 ∧ max dumpBase logicalBase ≤ a ∧ a < dumpBase + mm.length
    · have hfound : (∃ p ∈ partsOf wanted, FrameFound (bufferMemory dumpBase mm) p dumpBase a) ↔
          Clear (bufferMemory dumpBase mm) (partsOf wanted) dumpBase a :=
        exists_frameFound_iff ((le_max_left _ _).trans hin.2.1)
      rw [if_pos hin, and_iff_right hin, ← hfound]
      split_ifs with h
      · exact iff_of_true Nat.one_pos h
      · exact iff_of_false (lt_irrefl 0) h
    · rw [if_neg hin]
      exact iff_of_false (lt_irrefl 0) fun h => hin h.1
  constructor
  · rintro ⟨r', hr', as, has, -, hexact⟩ a hin hw
    obtain rfl := Except.ok.inj (hr.symm.trans hr')
    have hperm := (List.map_perm_map_iff frameHit_injective).mp (has.symm.trans hbs)
    exact ((hclear a).mp (hperm.mem_iff.mp ((hexact a).mpr ⟨hin, hw⟩))).2
  · intro h
    refine ⟨r, hr, bs, hbs, hnodup, fun a => ?_⟩
    rw [hclear]
    exact and_congr_right fun hin => ⟨wanted_of_clear, h a hin⟩

/-- A word in the range is reported from a buffer of its own. -/
theorem scanBuffer_frames_single :
    FramesExact (leBytes 8 0xFFFFFFF028000100) dram dram [appleTest] [testPattern] := by
  refine (scanBuffer_frames dram framePatterns_appleTest (List.pairwise_singleton _ _) (by decide)
    (by decide)).mpr fun a hin _ => ?_
  obtain ⟨halign, hle, -, hlt⟩ := hin
  have hlen : (leBytes 8 0xFFFFFFF028000100).length = 8 := rfl
  have hbase : dram % 8 = 0 := by decide
  obtain rfl : a = dram := by omega
  refine ⟨by decide, testPattern, List.mem_singleton_self _, by decide, fun b hb _ hfound => ?_⟩
  exact absurd hfound.1 (Nat.not_le.mpr hb)

/-- The last byte of a word and the first of a word in the range make a match with each other, so that
the word in the range is lost. -/
theorem not_scanBuffer_frames :
    ¬∀ (ranges wanted : List (ℕ × ℕ × Text)) (kexts : List Text) (patterns : List FramePattern)
      (mm : Bytes) (dumpBase logicalBase : ℕ), framePatterns ranges kexts = .ok (wanted, patterns) →
        wanted.Pairwise RangesApart → mm.length % 8 = 0 → dumpBase % 8 = 0 → logicalBase % 8 = 0 →
          FramesExact mm dumpBase logicalBase wanted patterns := by
  intro h
  obtain ⟨mm, hmm⟩ : ∃ mm, mm = leBytes 8 0x2800000000000000 ++ leBytes 8 0xFFFFFFF0280001F0 := ⟨_, rfl⟩
  obtain ⟨r, hr, as, has, -, hexact⟩ := h _ _ _ _ mm dram dram framePatterns_appleTest
    (List.pairwise_singleton _ _) (hmm ▸ by decide) (by decide) (by decide)
  have hnone : (scanBuffer mm dram dram [testPattern]).toOption.map Prod.snd = some [] := by
    rw [hmm]
    decide +kernel
  rw [hr] at hnone
  rw [Option.some.inj hnone] at has
  have hmem : dram + 8 ∈ as := by
    refine (hexact _).mpr ⟨⟨by decide, by decide, by decide, by rw [hmm]; decide⟩, appleTest,
      List.mem_singleton_self _, 0xFFFFFFF0280001F0, ?_⟩
    rw [hmm]
    decide
  have hnil : as = [] := List.map_eq_nil_iff.mp (List.nil_perm.mp has)
  rw [hnil] at hmem
  exact List.not_mem_nil hmem

end DarwinVm.Postmortem
