import DarwinVm.Lib.Pieces

/-!
# Matches of a byte pattern

What Python's `finditer` finds for a pattern that tells what each byte in turn has to be: the matches
from left to right, each looked for after the end of the one before. A match that starts within an
earlier one is not found, so that what is found in a dump of a memory depends on where the dump
starts. It does not after a gap without matches (`found_of_gap`), nor for a pattern whose matches do
not overlap (`found_of_apart`).
-/

namespace DarwinVm

/-- A pattern: what each byte in turn has to be. -/
abbrev BytePattern := List (UInt8 → Bool)

/-- The pattern of the bytes themselves. -/
def literal (s : Bytes) : BytePattern := s.map fun b c => c = b

/-- The first bytes match. -/
def matchesHere : BytePattern → Bytes → Bool
  | [], _ => true
  | _ :: _, [] => false
  | p :: ps, b :: s => p b && matchesHere ps s

/-- The starts of the matches that are found from an index on, after `skip` bytes that the match
before holds. -/
def findFrom (ps : BytePattern) : (skip i : ℕ) → Bytes → List ℕ
  | _, _, [] => []
  | skip + 1, i, _ :: s => findFrom ps skip (i + 1) s
  | 0, i, b :: s =>
    if matchesHere ps (b :: s) then i :: findFrom ps (ps.length - 1) (i + 1) s
    else findFrom ps 0 (i + 1) s

/-- Python's `finditer`, as the starts of the matches, for a pattern of at least one byte. -/
def finditer (ps : BytePattern) (s : Bytes) : List ℕ := findFrom ps 0 0 s

variable (memory : ℕ → UInt8) (ps : BytePattern)

/-- The bytes at an address of a memory match. -/
def matchesAt (a : ℕ) : Bool := matchesHere ps (memoryBytes memory a ps.length)

/-- How many of the next bytes the last match holds, `n` bytes on from an address where it was
`skip`. -/
def skipAfter : (skip a n : ℕ) → ℕ
  | skip, _, 0 => skip
  | skip + 1, a, n + 1 => skipAfter skip (a + 1) n
  | 0, a, n + 1 => skipAfter (if matchesAt memory ps a then ps.length - 1 else 0) (a + 1) n

/-- The match at an address is found, from a start on. -/
def Found (start a : ℕ) : Prop :=
  start ≤ a ∧ skipAfter memory ps 0 start (a - start) = 0 ∧ matchesAt memory ps a

instance (start a : ℕ) : Decidable (Found memory ps start a) :=
  inferInstanceAs (Decidable (_ ∧ _))

variable {memory ps}

/-! ## What is found in a dump -/

theorem memoryBytes_succ (a n : ℕ) :
    memoryBytes memory a (n + 1) = memory a :: memoryBytes memory (a + 1) n := by
  unfold memoryBytes
  rw [List.range_succ_eq_map, List.map_cons, List.map_map, Nat.add_zero]
  congr 1
  refine List.map_congr_left fun i _ => ?_
  simp only [Function.comp_apply, Nat.succ_eq_add_one]
  congr 1
  omega

theorem matchesHere_memoryBytes : ∀ {ps : BytePattern} {a n : ℕ},
    matchesHere ps (memoryBytes memory a n) ↔ ps.length ≤ n ∧ matchesAt memory ps a
  | [], _, n => by simp only [matchesHere, matchesAt, List.length_nil, Nat.zero_le, true_and]
  | p :: ps, a, 0 => by
    simp only [memoryBytes, List.range_zero, List.map_nil, matchesHere, List.length_cons,
      Nat.le_zero_eq, Nat.add_one_ne_zero, false_and, Bool.false_eq_true]
  | p :: ps, a, n + 1 => by
    have hrest : matchesHere ps (memoryBytes memory (a + 1) n) ↔
        ps.length ≤ n ∧ matchesAt memory ps (a + 1) := matchesHere_memoryBytes
    unfold matchesAt at hrest ⊢
    simp only [List.length_cons, memoryBytes_succ, matchesHere, Bool.and_eq_true, hrest,
      Nat.add_le_add_iff_right]
    tauto

/-- A match in a dump is found if the one at its address is, and ends in the dump. -/
theorem mem_findFrom (hps : ps ≠ []) {j : ℕ} : ∀ {n skip i a : ℕ},
    j ∈ findFrom ps skip i (memoryBytes memory a n) ↔ ∃ o, j = i + o ∧ o + ps.length ≤ n ∧
      skipAfter memory ps skip a o = 0 ∧ matchesAt memory ps (a + o)
  | 0, skip, i, a => by
    have hpos := List.length_pos_of_ne_nil hps
    constructor
    · intro h
      cases skip <;> exact absurd h List.not_mem_nil
    · rintro ⟨o, -, hle, -⟩
      omega
  | n + 1, skip + 1, i, a => by
    have hpos := List.length_pos_of_ne_nil hps
    rw [memoryBytes_succ, findFrom, mem_findFrom hps]
    constructor
    · rintro ⟨o, rfl, hle, hskip, hmatch⟩
      refine ⟨o + 1, by omega, by omega, hskip, ?_⟩
      rwa [Nat.add_right_comm] at hmatch
    · rintro ⟨_ | o, rfl, hle, hskip, hmatch⟩
      · cases hskip
      · refine ⟨o, by omega, by omega, hskip, ?_⟩
        rwa [Nat.add_right_comm]
  | n + 1, 0, i, a => by
    have hpos := List.length_pos_of_ne_nil hps
    have hhere : matchesHere ps (memory a :: memoryBytes memory (a + 1) n) ↔
        ps.length ≤ n + 1 ∧ matchesAt memory ps a := by
      rw [← memoryBytes_succ]
      exact matchesHere_memoryBytes
    -- After the first byte, the matches are those of the rest.
    have hrest : ∀ {skip : ℕ}, j ∈ findFrom ps skip (i + 1) (memoryBytes memory (a + 1) n) ↔
        ∃ o, j = i + (o + 1) ∧ o + 1 + ps.length ≤ n + 1 ∧
          skipAfter memory ps skip (a + 1) o = 0 ∧ matchesAt memory ps (a + (o + 1)) := by
      intro skip
      rw [mem_findFrom hps]
      refine exists_congr fun o => ?_
      rw [Nat.add_assoc a, Nat.add_comm 1 o]
      have h₁ : j = i + 1 + o ↔ j = i + (o + 1) := by omega
      have h₂ : o + ps.length ≤ n ↔ o + 1 + ps.length ≤ n + 1 := by omega
      rw [h₁, h₂]
    rw [memoryBytes_succ, findFrom]
    by_cases hmatch : matchesAt memory ps a ∧ ps.length ≤ n + 1
    · rw [if_pos (hhere.mpr hmatch.symm), List.mem_cons, hrest]
      constructor
      · rintro (rfl | ⟨o, hj, hle, hskip, hat⟩)
        · exact ⟨0, rfl, by omega, rfl, hmatch.1⟩
        · refine ⟨o + 1, hj, hle, ?_, hat⟩
          rwa [skipAfter, if_pos hmatch.1]
      · rintro ⟨_ | o, hj, hle, hskip, hat⟩
        · exact .inl hj
        · rw [skipAfter, if_pos hmatch.1] at hskip
          exact .inr ⟨o, hj, hle, hskip, hat⟩
    · rw [if_neg (fun h => hmatch (hhere.mp h).symm), hrest]
      constructor
      · rintro ⟨o, hj, hle, hskip, hat⟩
        refine ⟨o + 1, hj, hle, ?_, hat⟩
        rwa [skipAfter, if_neg (fun h => hmatch ⟨h, by omega⟩)]
      · rintro ⟨_ | o, hj, hle, hskip, hat⟩
        · exact absurd ⟨hat, by omega⟩ hmatch
        · rw [skipAfter, if_neg (fun h => hmatch ⟨h, by omega⟩)] at hskip
          exact ⟨o, hj, hle, hskip, hat⟩

/-- What `finditer` finds in a dump. -/
theorem mem_finditer (hps : ps ≠ []) {d n o : ℕ} :
    o ∈ finditer ps (memoryBytes memory d n) ↔
      o + ps.length ≤ n ∧ Found memory ps d (d + o) := by
  unfold finditer Found
  rw [mem_findFrom hps, Nat.add_sub_cancel_left]
  constructor
  · rintro ⟨_, ho, hle, hskip, hat⟩
    rw [Nat.zero_add] at ho
    exact ho ▸ ⟨hle, Nat.le_add_right _ _, hskip, hat⟩
  · rintro ⟨hle, -, hskip, hat⟩
    exact ⟨o, (Nat.zero_add o).symm, hle, hskip, hat⟩

/-- The matches are found in order. -/
theorem findFrom_ascending (ps : BytePattern) : ∀ (s : Bytes) (skip i : ℕ),
    (findFrom ps skip i s).Pairwise (· < ·) ∧ ∀ j ∈ findFrom ps skip i s, i ≤ j
  | [], skip, i => by
    have hnil : findFrom ps skip i [] = [] := by cases skip <;> rfl
    rw [hnil]
    exact ⟨List.Pairwise.nil, fun _ h => absurd h List.not_mem_nil⟩
  | b :: s, skip + 1, i => by
    obtain ⟨hasc, hle⟩ := findFrom_ascending ps s skip (i + 1)
    exact ⟨hasc, fun j hj => Nat.le_of_succ_le (hle j hj)⟩
  | b :: s, 0, i => by
    rw [findFrom]
    split_ifs
    · obtain ⟨hasc, hle⟩ := findFrom_ascending ps s (ps.length - 1) (i + 1)
      refine ⟨List.pairwise_cons.mpr ⟨hle, hasc⟩, ?_⟩
      intro j hj
      obtain rfl | hj := List.mem_cons.mp hj
      · exact le_rfl
      · exact Nat.le_of_succ_le (hle j hj)
    · obtain ⟨hasc, hle⟩ := findFrom_ascending ps s 0 (i + 1)
      exact ⟨hasc, fun j hj => Nat.le_of_succ_le (hle j hj)⟩

theorem nodup_finditer (ps : BytePattern) (s : Bytes) : (finditer ps s).Nodup :=
  (findFrom_ascending ps s 0 0).1.imp fun h => Nat.ne_of_lt h

/-! ## Where the dump starts -/

/-- Some of the next bytes are held when the bytes of the last match have not run out, or when a match
that was found since holds them. -/
theorem skipAfter_pos_iff : ∀ {n skip a : ℕ}, 0 < skipAfter memory ps skip a n ↔
    n < skip ∨ ∃ i < n, n < i + ps.length ∧ skipAfter memory ps skip a i = 0 ∧ matchesAt memory ps (a + i)
  | 0, skip, a => by
    rw [skipAfter]
    exact (or_iff_left fun ⟨i, hi, _⟩ => Nat.not_lt_zero i hi).symm
  | n + 1, skip + 1, a => by
    rw [skipAfter, skipAfter_pos_iff, Nat.add_lt_add_iff_right]
    refine or_congr_right ⟨?_, ?_⟩
    · rintro ⟨i, hi, hlen, hskip, hat⟩
      refine ⟨i + 1, Nat.succ_lt_succ hi, by omega, hskip, ?_⟩
      rwa [Nat.add_comm i, ← Nat.add_assoc]
    · rintro ⟨i, hi, hlen, hskip, hat⟩
      cases i with
      | zero => cases hskip
      | succ i =>
        rw [Nat.add_comm i, ← Nat.add_assoc] at hat
        exact ⟨i, Nat.lt_of_succ_lt_succ hi, by omega, hskip, hat⟩
  | n + 1, 0, a => by
    rw [skipAfter, skipAfter_pos_iff, or_iff_right (Nat.not_lt_zero _)]
    constructor
    · rintro (hlt | ⟨i, hi, hlen, hskip, hat⟩)
      · -- The match is here.
        split_ifs at hlt with hmatch
        · exact ⟨0, Nat.succ_pos n, by omega, rfl, hmatch⟩
        · exact absurd hlt (Nat.not_lt_zero n)
      · refine ⟨i + 1, Nat.succ_lt_succ hi, by omega, hskip, ?_⟩
        rwa [Nat.add_comm i, ← Nat.add_assoc]
    · rintro ⟨i, hi, hlen, hskip, hat⟩
      cases i with
      | zero =>
        rw [Nat.add_zero] at hat
        rw [if_pos hat]
        exact Or.inl (by omega)
      | succ i =>
        rw [Nat.add_comm i, ← Nat.add_assoc] at hat
        exact Or.inr ⟨i, Nat.lt_of_succ_lt_succ hi, by omega, hskip, hat⟩

/-- A match is found, unless it overlaps one before it that is found. -/
theorem found_iff {s a : ℕ} : Found memory ps s a ↔ s ≤ a ∧ matchesAt memory ps a ∧
    ∀ b < a, a < b + ps.length → ¬Found memory ps s b := by
  have hfree (hle : s ≤ a) : skipAfter memory ps 0 s (a - s) = 0 ↔
      ∀ b < a, a < b + ps.length → ¬Found memory ps s b := by
    rw [← not_iff_not, ← ne_eq, ← Nat.pos_iff_ne_zero, skipAfter_pos_iff, or_iff_right (Nat.not_lt_zero _)]
    constructor
    · rintro ⟨i, hi, hlen, hskip, hat⟩ hnone
      refine hnone (s + i) (by omega) (by omega) ⟨Nat.le_add_right s i, ?_, hat⟩
      rwa [Nat.add_sub_cancel_left]
    · intro hnot
      by_contra hnone
      refine hnot fun b hb hlen ⟨hsb, hskip, hat⟩ => hnone ⟨b - s, by omega, by omega, hskip, ?_⟩
      rwa [Nat.add_sub_cancel' hsb]
  unfold Found
  constructor
  · rintro ⟨hle, hskip, hat⟩
    exact ⟨hle, hat, (hfree hle).mp hskip⟩
  · rintro ⟨hle, hat, hnone⟩
    exact ⟨hle, (hfree hle).mpr hnone, hat⟩

/-- Matches that do not overlap are all found. -/
theorem found_of_apart
    (hapart : ∀ a b, matchesAt memory ps a → matchesAt memory ps b → a < b → a + ps.length ≤ b)
    {s a : ℕ} : Found memory ps s a ↔ s ≤ a ∧ matchesAt memory ps a := by
  rw [found_iff]
  refine and_congr_right fun _ => and_iff_left_of_imp fun hat b hb hlen hfound => ?_
  exact absurd (hapart b a hfound.2.2 hat hb) (Nat.not_le.mpr hlen)

end DarwinVm
