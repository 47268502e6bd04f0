import Mathlib.Data.List.DropRight
import Mathlib.Data.UInt
import Mathlib.Tactic.Ring
import Mathlib.Tactic.Linarith

/-!
# Byte strings

Byte strings as lists, with what C and Python do to them: ASCII text, little-endian words
(`leBytes`, `leNat`), slices, and padding (`ljust`, `roundUp4`).
-/

namespace DarwinVm

/-- A byte string. -/
abbrev Bytes := List UInt8

/-- The bytes of an ASCII text. -/
def ascii (s : List Char) : Bytes := s.map fun c => UInt8.ofNat c.toNat

/-- Python's `s[i:j]`, for `i` and `j` not negative. -/
def slice (s : Bytes) (i j : ℕ) : Bytes := (s.drop i).take (j - i)

/-- Python's `s.ljust(n, b"\0")`: pad with zeros up to `n` bytes. -/
def ljust (s : Bytes) (n : ℕ) : Bytes := s ++ List.replicate (n - s.length) 0

/-- The least multiple of four that is not below `n`. -/
def roundUp4 (n : ℕ) : ℕ := (n + 3) / 4 * 4

@[simp] theorem length_slice (s : Bytes) (i j : ℕ) :
    (slice s i j).length = min (j - i) (s.length - i) := by simp [slice]

@[simp] theorem length_ljust (s : Bytes) (n : ℕ) : (ljust s n).length = max s.length n := by
  simp only [ljust, List.length_append, List.length_replicate]
  omega

theorem ljust_of_length_le {s : Bytes} {n : ℕ} (h : n ≤ s.length) : ljust s n = s := by
  rw [ljust, Nat.sub_eq_zero_of_le h, List.replicate_zero, List.append_nil]

/-- The last byte of what is padded is zero. -/
theorem getLast?_ljust {s : Bytes} {n : ℕ} (h : s.length < n) :
    (ljust s n).getLast? = some 0 := by
  obtain ⟨k, hk⟩ : ∃ k, n - s.length = k + 1 := ⟨n - s.length - 1, by omega⟩
  rw [ljust, hk, List.replicate_succ', ← List.append_assoc, List.getLast?_append]
  rfl

/-- The end of a longer byte string is the end of its end. -/
theorem rtake_rtake_append (w : ℕ) (s t : Bytes) : (s.rtake w ++ t).rtake w = (s ++ t).rtake w := by
  have hleft : (s.rtake w ++ t).rtake w <:+ s ++ t := by
    obtain ⟨x, hx⟩ : s.rtake w <:+ s := List.drop_suffix ..
    refine (List.drop_suffix ..).trans ⟨x, ?_⟩
    rw [← List.append_assoc, hx]
  have hright : (s ++ t).rtake w <:+ s ++ t := List.drop_suffix ..
  have hlen : ((s.rtake w ++ t).rtake w).length = ((s ++ t).rtake w).length := by
    simp only [List.rtake, List.length_drop, List.length_append]
    omega
  exact (List.suffix_of_suffix_length_le hleft hright hlen.le).eq_of_length hlen

theorem le_roundUp4 (n : ℕ) : n ≤ roundUp4 n := by unfold roundUp4; omega

theorem roundUp4_lt (n : ℕ) : roundUp4 n < n + 4 := by unfold roundUp4; omega

theorem roundUp4_mod (n : ℕ) : roundUp4 n % 4 = 0 := by unfold roundUp4; omega

theorem roundUp4_of_mod {n : ℕ} (h : n % 4 = 0) : roundUp4 n = n := by unfold roundUp4; omega

/-! ## Little-endian words -/

/-- The `k` bytes of a word, least significant first; bits above them are dropped. -/
def leBytes : ℕ → ℕ → Bytes
  | 0, _ => []
  | k + 1, n => UInt8.ofNat n :: leBytes k (n / 256)

/-- The word that the bytes spell, least significant first. -/
def leNat : Bytes → ℕ
  | [] => 0
  | b :: s => b.toNat + 256 * leNat s

@[simp] theorem length_leBytes (k n : ℕ) : (leBytes k n).length = k := by
  induction k generalizing n with
  | zero => rfl
  | succ k ih => simp [leBytes, ih]

/-- Reading back a word gives the part of it that its bytes hold. -/
theorem leNat_leBytes (k n : ℕ) : leNat (leBytes k n) = n % 256 ^ k := by
  induction k generalizing n with
  | zero => simp [leBytes, leNat, Nat.mod_one]
  | succ k ih =>
    have hb : (UInt8.ofNat n).toNat = n % 256 := by simp
    rw [leBytes, leNat, ih, hb, pow_succ', Nat.mod_mul]

/-- A word that fits its bytes is read back unchanged. -/
theorem leNat_leBytes_of_lt {k n : ℕ} (h : n < 256 ^ k) : leNat (leBytes k n) = n := by
  rw [leNat_leBytes, Nat.mod_eq_of_lt h]

/-- `k` bytes spell a word below `256 ^ k`. -/
theorem leNat_lt (s : Bytes) : leNat s < 256 ^ s.length := by
  induction s with
  | nil => simp [leNat]
  | cons b s ih =>
    have hb : b.toNat < 256 := b.toNat_lt
    rw [leNat, List.length_cons, pow_succ']
    omega

/-- Writing back the word that bytes spell gives the bytes. -/
theorem leBytes_leNat (s : Bytes) : leBytes s.length (leNat s) = s := by
  induction s with
  | nil => rfl
  | cons b s ih =>
    have hb : b.toNat < 256 := b.toNat_lt
    have hdiv : (b.toNat + 256 * leNat s) / 256 = leNat s := by omega
    rw [List.length_cons, leNat, leBytes, hdiv, ih]
    congr 1
    apply UInt8.toNat_inj.1
    simp only [UInt8.toNat_ofNat']
    omega

/-! ## Parts -/

/-- A part of the bytes that stand at an offset. -/
theorem slice_of_isPrefix {a b c data : Bytes} {off : ℕ} (h : a ++ b ++ c <+: data.drop off) :
    slice data (off + a.length) (off + a.length + b.length) = b := by
  obtain ⟨t, ht⟩ := h
  have hd : data.drop (off + a.length) = b ++ (c ++ t) := by
    rw [← List.drop_drop, ← ht]
    simp only [List.append_assoc, List.drop_left]
  rw [slice, hd, Nat.add_sub_cancel_left, List.take_left]

theorem slice_zero (s : Bytes) (n : ℕ) : slice s 0 n = s.take n := by
  rw [slice, List.drop_zero, Nat.sub_zero]

/-- A part of the bytes that stand at an offset, by the offsets in them. -/
theorem slice_eq_of_isPrefix {raw data : Bytes} {off i j : ℕ} (h : raw <+: data.drop off)
    (hj : j ≤ raw.length) (hij : i ≤ j) : slice data (off + i) (off + j) = slice raw i j := by
  obtain ⟨t, ht⟩ := h
  rw [slice, slice, ← List.drop_drop, ← ht, List.drop_append_of_le_length (by omega),
    show off + j - (off + i) = j - i by omega,
    List.take_append_of_le_length (by rw [List.length_drop]; omega)]

/-- Bytes that stand at an offset fit the data. -/
theorem le_length_of_isPrefix {b data : Bytes} {off : ℕ} (h : b <+: data.drop off) (hb : b ≠ []) :
    off + b.length ≤ data.length := by
  have hl := h.length_le
  have hpos := List.length_pos_of_ne_nil hb
  rw [List.length_drop] at hl
  omega

/-! ## Order -/

/-- Bytes are ordered by their values, and so are byte strings, in the order of a dictionary. -/
instance linearOrderUInt8 : LinearOrder UInt8 where
  le_refl := UInt8.le_refl
  le_trans _ _ _ := UInt8.le_trans
  le_antisymm _ _ := UInt8.le_antisymm
  le_total := UInt8.le_total
  lt_iff_le_not_ge a b := by
    rw [UInt8.not_le]
    exact ⟨fun h => ⟨UInt8.le_of_lt h, h⟩, fun h => h.2⟩
  toDecidableLE := inferInstance

/-! ## Records -/

/-- Records of `k` bytes that stand after `pre` are read back. -/
theorem map_slice_flatten {k : ℕ} (pre : Bytes) : ∀ {rs : List Bytes}, (∀ r ∈ rs, r.length = k) →
    (List.range rs.length).map (fun i =>
      slice (pre ++ rs.flatten) (pre.length + i * k) (pre.length + (i + 1) * k)) = rs
  | [], _ => rfl
  | r :: rs, h => by
    rw [List.forall_mem_cons] at h
    have hrest := map_slice_flatten (pre ++ r) h.2
    rw [List.length_cons, List.range_succ_eq_map, List.map_cons, List.map_map, List.flatten_cons,
      ← List.append_assoc]
    congr 1
    · simp only [slice, Nat.zero_mul, Nat.add_zero, Nat.zero_add, Nat.one_mul, Nat.add_sub_cancel_left]
      rw [List.append_assoc, List.drop_left, ← h.1, List.take_left]
    · refine Eq.trans (List.map_congr_left fun i _ => ?_) hrest
      simp only [Function.comp_apply, Nat.succ_eq_add_one, List.length_append, h.1]
      congr 1 <;> ring

/-- Bytes whose length is that of `n` records of `k` bytes, after the first `off`, are those records. -/
theorem flatten_map_slice {k off : ℕ} {data : Bytes} : ∀ {n : ℕ}, off + n * k = data.length →
    ((List.range n).map fun i => slice data (off + i * k) (off + (i + 1) * k)).flatten = data.drop off
  | 0, h => by
    rw [Nat.zero_mul, Nat.add_zero] at h
    rw [h, List.drop_length]
    rfl
  | n + 1, h => by
    have hlen : off + k + n * k = data.length := by rw [← h]; ring
    have hrest := flatten_map_slice hlen
    rw [List.range_succ_eq_map, List.map_cons, List.map_map, List.flatten_cons]
    have hcongr : (List.range n).map ((fun i => slice data (off + i * k) (off + (i + 1) * k)) ∘
        Nat.succ) = (List.range n).map fun i => slice data (off + k + i * k) (off + k + (i + 1) * k) := by
      refine List.map_congr_left fun i _ => ?_
      simp only [Function.comp_apply, Nat.succ_eq_add_one]
      congr 1 <;> ring
    rw [hcongr, hrest]
    simp only [slice, Nat.zero_mul, Nat.add_zero, Nat.zero_add, Nat.one_mul, Nat.add_sub_cancel_left]
    rw [← List.drop_drop, List.take_append_drop]

theorem length_flatten_le {k : ℕ} : ∀ {rs : List Bytes}, (∀ r ∈ rs, r.length ≤ k) →
    rs.flatten.length ≤ rs.length * k
  | [], _ => Nat.zero_le _
  | r :: rs, h => by
    rw [List.forall_mem_cons] at h
    have := length_flatten_le h.2
    rw [List.flatten_cons, List.length_append, List.length_cons, Nat.add_one_mul]
    omega

/-- Records of at most `k` bytes that fill the place of as many of `k` bytes have `k` bytes each. -/
theorem length_eq_of_flatten {k : ℕ} : ∀ {rs : List Bytes}, (∀ r ∈ rs, r.length ≤ k) →
    rs.length * k ≤ rs.flatten.length → ∀ r ∈ rs, r.length = k
  | [], _, _ => nofun
  | r :: rs, hle, h => by
    rw [List.forall_mem_cons] at hle ⊢
    have hrest := length_flatten_le hle.2
    rw [List.flatten_cons, List.length_append, List.length_cons, Nat.add_one_mul] at h
    exact ⟨by omega, length_eq_of_flatten hle.2 (by omega)⟩

/-- Records of the same length are told apart by their bytes. -/
theorem flatten_inj {k : ℕ} {rs qs : List Bytes} (hr : ∀ r ∈ rs, r.length = k)
    (hq : ∀ q ∈ qs, q.length = k) (hlen : rs.length = qs.length) (h : rs.flatten = qs.flatten) :
    rs = qs := by
  rw [← map_slice_flatten [] hr, ← map_slice_flatten [] hq, hlen, h]

end DarwinVm
