import DarwinVm.Lib.Bytes
import Mathlib.Logic.Function.Iterate

/-!
# Cyclic redundancy checks

The remainder of bytes by a polynomial, with the bits of a byte and of the remainder reflected, of
any width. `byteBits` divides bit by bit, and `byteTable` takes eight bits at once from a table.
Since a step is linear (`step_xor`) and only moves the bits above the lowest (`step_shiftLeft`), both
are the same (`byteBits_eq_byteTable`).
-/

namespace DarwinVm.Crc

variable {w : ℕ} (poly : BitVec w)

/-- The division step for one bit. -/
def step (c : BitVec w) : BitVec w := (c >>> 1) ^^^ (if c.getLsbD 0 then poly else 0#w)

/-- The eight steps for a byte. -/
def byteBits (c : BitVec w) (b : UInt8) : BitVec w := (step poly)^[8] (c ^^^ b.toBitVec.setWidth w)

/-- The entry of the table for a byte. -/
def entry (i : BitVec 8) : BitVec w := (step poly)^[8] (i.setWidth w)

/-- A byte by the table. -/
def byteTable (c : BitVec w) (b : UInt8) : BitVec w :=
  entry poly (c.setWidth 8 ^^^ b.toBitVec) ^^^ (c >>> 8)

/-- The check of bytes, with the remainder inverted at the start and at the end. -/
def check (byte : BitVec w → UInt8 → BitVec w) (s : Bytes) : BitVec w :=
  s.foldl byte (BitVec.allOnes w) ^^^ BitVec.allOnes w

/-- A step is linear. -/
theorem step_xor (c d : BitVec w) : step poly (c ^^^ d) = step poly c ^^^ step poly d := by
  -- The polynomial is taken in or not, by the lowest bits of both.
  have h : ∀ p q : Bool, (if (p ^^ q) then poly else 0#w) =
      (if p then poly else 0#w) ^^^ (if q then poly else 0#w) := by
    intro p q
    cases p <;> cases q <;> simp
  unfold step
  rw [BitVec.getLsbD_xor, h, BitVec.ushiftRight_xor_distrib]
  ac_rfl

theorem iterate_step_xor (c d : BitVec w) :
    ∀ n : ℕ, (step poly)^[n] (c ^^^ d) = (step poly)^[n] c ^^^ (step poly)^[n] d
  | 0 => rfl
  | n + 1 => by
    rw [Function.iterate_succ_apply', Function.iterate_succ_apply', Function.iterate_succ_apply',
      iterate_step_xor c d n, step_xor]

/-- As long as the lowest bits are clear, the steps only move the bits. -/
theorem iterate_step_of_low {c : BitVec w} {n : ℕ} (h : ∀ i < n, c.getLsbD i = false) :
    (step poly)^[n] c = c >>> n := by
  induction n with
  | zero => rw [BitVec.ushiftRight_zero]; rfl
  | succ n ih =>
    have hlow : (c >>> n).getLsbD 0 = false := by
      rw [BitVec.getLsbD_ushiftRight]
      exact h n (Nat.lt_succ_self n)
    rw [Function.iterate_succ_apply', ih fun i hi => h i (Nat.lt_succ_of_lt hi), step, hlow,
      BitVec.shiftRight_add]
    simp

/-- A remainder is its lowest byte and the rest. -/
theorem eq_xor (c : BitVec w) : c = (c.setWidth 8).setWidth w ^^^ (c >>> 8 <<< 8) := by
  apply BitVec.eq_of_getLsbD_eq
  intro i hi
  rw [BitVec.getLsbD_xor, BitVec.getLsbD_setWidth, BitVec.getLsbD_setWidth, BitVec.getLsbD_shiftLeft,
    BitVec.getLsbD_ushiftRight]
  rcases Nat.lt_or_ge i 8 with h | h
  · simp [h, hi]
  · have hge : ¬i < 8 := Nat.not_lt.mpr h
    simp [hge, hi, Nat.add_sub_cancel' h]

theorem getLsbD_shiftLeft_of_lt (c : BitVec w) {i : ℕ} (h : i < 8) :
    (c <<< 8).getLsbD i = false := by
  rw [BitVec.getLsbD_shiftLeft]
  simp [h]

/-- A byte does not reach beyond the lowest eight bits. -/
theorem setWidth_ushiftRight (b : BitVec 8) : b.setWidth w >>> 8 = 0#w := by
  apply BitVec.eq_of_getLsbD_eq
  intro i hi
  rw [BitVec.getLsbD_ushiftRight, BitVec.getLsbD_setWidth,
    BitVec.getLsbD_of_ge b (8 + i) (Nat.le_add_right 8 i)]
  simp

/-- Clearing the lowest byte does not change the bits above it. -/
theorem shiftLeft_ushiftRight (c : BitVec w) : c >>> 8 <<< 8 >>> 8 = c >>> 8 := by
  apply BitVec.eq_of_getLsbD_eq
  intro i hi
  simp only [BitVec.getLsbD_ushiftRight, BitVec.getLsbD_shiftLeft]
  rcases Nat.lt_or_ge (8 + i) w with h | h
  · simp [h]
  · simp [BitVec.getLsbD_of_ge c (8 + i) h]

/-- The steps for a byte are those of the lowest byte, and move the rest down. -/
theorem byteBits_eq_byteTable (hw : 8 ≤ w) (c : BitVec w) (b : UInt8) :
    byteBits poly c b = byteTable poly c b := by
  have hlow : (c ^^^ b.toBitVec.setWidth w).setWidth 8 = c.setWidth 8 ^^^ b.toBitVec := by
    rw [BitVec.setWidth_xor, BitVec.setWidth_setWidth_of_le _ hw, BitVec.setWidth_eq]
  have hhigh : (c ^^^ b.toBitVec.setWidth w) >>> 8 = c >>> 8 := by
    rw [BitVec.ushiftRight_xor_distrib, setWidth_ushiftRight, BitVec.xor_zero]
  unfold byteBits byteTable entry
  rw [eq_xor (c ^^^ b.toBitVec.setWidth w), iterate_step_xor, hlow, hhigh,
    iterate_step_of_low poly fun i hi => getLsbD_shiftLeft_of_lt (c >>> 8) hi,
    shiftLeft_ushiftRight]

/-- The bitwise check is the one by the table. -/
theorem check_byteBits (hw : 8 ≤ w) (s : Bytes) :
    check (byteBits poly) s = check (byteTable poly) s := by
  have h : byteBits poly = byteTable poly := by
    funext c b
    exact byteBits_eq_byteTable poly hw c b
  rw [h]

end DarwinVm.Crc
