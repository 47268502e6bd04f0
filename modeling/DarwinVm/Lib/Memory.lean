import DarwinVm.Lib.Bytes
import Mathlib.Data.BitVec

/-!
# Memory

A memory of bytes under addresses of 64 bits, which wrap around. What is written is read back
(`read_write_self`), and bytes that lie apart from it are as they were (`read_write_apart`).
-/

namespace DarwinVm

/-- An address. -/
abbrev Addr := BitVec 64

/-- A memory. -/
abbrev Memory := Addr → UInt8

namespace Memory

/-- The `n` bytes from an address on. -/
def read (m : Memory) (a : Addr) : ℕ → Bytes
  | 0 => []
  | n + 1 => m a :: read m (a + 1) n

/-- The memory after bytes are written from an address on. -/
def write (m : Memory) (a : Addr) (bs : Bytes) : Memory := fun x =>
  if h : (x - a).toNat < bs.length then bs[(x - a).toNat] else m x

/-- The bytes stand at an address. -/
def Holds (m : Memory) (a : Addr) (bs : Bytes) : Prop := m.read a bs.length = bs

/-- None of the `n` bytes from `a` on is one of the `k` bytes from `b` on. -/
def Apart (a : Addr) (n : ℕ) (b : Addr) (k : ℕ) : Prop :=
  ∀ x : Addr, (x - a).toNat < n → k ≤ (x - b).toNat

end Memory

open Memory

variable {m m' : Memory} {a b x : Addr} {n k i j : ℕ} {bs cs : Bytes}

/-- The byte at a distance from an address is that far from it. -/
theorem toNat_add_ofNat_sub (a : Addr) (hn : n < 2 ^ 64) : (a + BitVec.ofNat 64 n - a).toNat = n := by
  rw [BitVec.add_comm, BitVec.add_sub_cancel, BitVec.toNat_ofNat, Nat.mod_eq_of_lt hn]

theorem add_ofNat_succ (a : Addr) (n : ℕ) : a + BitVec.ofNat 64 (n + 1) = a + 1 + BitVec.ofNat 64 n := by
  rw [Nat.add_comm, BitVec.ofNat_add, ← BitVec.add_assoc]
  rfl

@[simp] theorem length_read (m : Memory) (a : Addr) (n : ℕ) : (m.read a n).length = n := by
  induction n generalizing a with
  | zero => rfl
  | succ n ih => rw [Memory.read, List.length_cons, ih]

/-- A byte of those that are read. -/
theorem getElem_read (h : i < (m.read a n).length) :
    (m.read a n)[i] = m (a + BitVec.ofNat 64 i) := by
  induction n generalizing a i with
  | zero => exact absurd h (Nat.not_lt_zero _)
  | succ n ih =>
    cases i with
    | zero => exact (congrArg m (BitVec.add_zero a)).symm
    | succ i =>
      rw [add_ofNat_succ]
      exact ih _

theorem holds_iff : Holds m a bs ↔ ∀ i (h : i < bs.length), m (a + BitVec.ofNat 64 i) = bs[i] := by
  unfold Holds
  rw [List.ext_getElem_iff]
  simp only [length_read, true_and]
  exact ⟨fun h i hi => (getElem_read _).symm.trans (h i hi hi),
    fun h i hi hi' => (getElem_read _).trans (h i hi')⟩

/-- A part of bytes stands at its distance from them. -/
theorem Memory.Holds.slice (h : Holds m a bs) (hj : j ≤ bs.length) :
    Holds m (a + BitVec.ofNat 64 i) (DarwinVm.slice bs i j) := by
  rw [holds_iff] at h ⊢
  intro k hk
  have hlen : k < j - i := by
    rw [length_slice] at hk
    omega
  rw [BitVec.add_assoc, ← BitVec.ofNat_add, h (i + k) (by omega)]
  simp only [DarwinVm.slice, List.getElem_take, List.getElem_drop]

/-- Reads are equal if the bytes are. -/
theorem read_congr (h : ∀ x : Addr, (x - a).toNat < n → m' x = m x) (hn : n ≤ 2 ^ 64) :
    m'.read a n = m.read a n := by
  refine List.ext_getElem (by simp) fun i hi hi' => ?_
  rw [length_read] at hi
  rw [getElem_read, getElem_read]
  refine h _ ?_
  rwa [toNat_add_ofNat_sub _ (by omega)]

/-- Bytes outside of those that are written are as they were. -/
theorem write_apply_of_le (h : bs.length ≤ (x - a).toNat) : m.write a bs x = m x :=
  dif_neg (Nat.not_lt.mpr h)

/-- What lies apart from what is written is as it was. -/
theorem read_write_apart (h : Apart a n b bs.length) (hn : n ≤ 2 ^ 64) :
    (m.write b bs).read a n = m.read a n :=
  read_congr (fun x hx => write_apply_of_le (h x hx)) hn

/-- What is written is read. -/
theorem holds_write (hlen : bs.length ≤ 2 ^ 64) : Holds (m.write a bs) a bs := by
  rw [holds_iff]
  intro i hi
  have hsub := toNat_add_ofNat_sub a (Nat.lt_of_lt_of_le hi hlen)
  unfold write
  rw [dif_pos (by rwa [hsub])]
  simp only [hsub]

/-- A word that is written is read. -/
theorem leNat_read_write (hn : n < 256 ^ k) (hk : k ≤ 2 ^ 64) :
    leNat ((m.write a (leBytes k n)).read a k) = n := by
  have hholds := holds_write (m := m) (a := a) (by rwa [length_leBytes] : (leBytes k n).length ≤ 2 ^ 64)
  unfold Holds at hholds
  rw [length_leBytes] at hholds
  rw [hholds, leNat_leBytes_of_lt hn]

theorem Memory.Holds.write (h : Holds m a bs) (hapart : Apart a bs.length b cs.length)
    (hlen : bs.length ≤ 2 ^ 64) : Holds (m.write b cs) a bs :=
  (read_write_apart hapart hlen).trans h

/-- Ranges that do not wrap around lie apart if one ends before the other begins. -/
theorem apart_of_le (hab : a.toNat + n ≤ b.toNat) (hb : b.toNat + k ≤ 2 ^ 64) : Apart a n b k := by
  intro x hx
  rw [BitVec.toNat_sub] at hx ⊢
  have := x.isLt
  omega

theorem Memory.Apart.symm (h : Apart a n b k) : Apart b k a n := by
  intro x hx
  by_contra hlt
  exact absurd (h x (Nat.not_le.mp hlt)) (Nat.not_le.mpr hx)

end DarwinVm
