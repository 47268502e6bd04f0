import DarwinVm.Lib.Bytes

/-!
# Big-endian words and slices that are assigned to

Big-endian words of a byte string (`beNat`, `be32`), and Python's assignment to a slice
(`assign`): it changes the slice and leaves every other byte (`getElem?_assign`).
-/

namespace DarwinVm

/-- The word that the bytes spell, most significant first. -/
def beNat (s : Bytes) : ℕ := s.foldl (fun n b => n * 256 + b.toNat) 0

/-- The 32-bit big-endian word at an offset. -/
def be32 (s : Bytes) (off : ℕ) : ℕ := beNat (slice s off (off + 4))

/-- The 64-bit big-endian word at an offset. -/
def be64 (s : Bytes) (off : ℕ) : ℕ := beNat (slice s off (off + 8))

/-- The byte at an offset. -/
def byteAt (s : Bytes) (off : ℕ) : ℕ := beNat (slice s off (off + 1))

/-- Python's `s[i:j] = v` on a `bytearray`, for `i` and `j` not negative. -/
def assign (s : Bytes) (i j : ℕ) (v : Bytes) : Bytes := s.take i ++ v ++ s.drop (max i j)

variable {s v : Bytes} {i j k : ℕ}

/-- A part of a part of the bytes. -/
theorem slice_slice {a b : ℕ} (h : a + j ≤ b) : slice (slice s a b) i j = slice s (a + i) (a + j) := by
  rw [slice, slice, slice, List.drop_take, List.take_take, List.drop_drop,
    Nat.min_eq_left (by omega), Nat.add_sub_add_left]

/-- The number of the byte at an offset. -/
theorem byteAt_of_getElem? {x : UInt8} (h : s[i]? = some x) : byteAt s i = x.toNat := by
  have hdrop : s.drop i = x :: s.drop (i + 1) := by
    obtain ⟨hi, rfl⟩ := List.getElem?_eq_some_iff.mp h
    exact List.drop_eq_getElem_cons hi
  rw [byteAt, slice, hdrop, Nat.add_sub_cancel_left, List.take_succ_cons, List.take_zero, beNat,
    List.foldl_cons, List.foldl_nil, Nat.zero_mul, Nat.zero_add]

/-- The length does not change if the new value is as long as the slice. -/
theorem length_assign (hij : i + v.length = j) (hj : j ≤ s.length) :
    (assign s i j v).length = s.length := by
  rw [assign, List.length_append, List.length_append, List.length_take, List.length_drop]
  omega

/-- The slice holds what has been assigned to it. -/
theorem slice_assign (hij : i + v.length = j) (hj : j ≤ s.length) :
    slice (assign s i j v) i j = v := by
  have hlen : (s.take i).length = i := by
    rw [List.length_take]
    omega
  have hdrop : (assign s i j v).drop i = v ++ s.drop (max i j) := by
    rw [assign, List.append_assoc, List.drop_append_of_le_length hlen.ge,
      List.drop_eq_nil_of_le hlen.le, List.nil_append]
  rw [slice, hdrop, List.take_append_of_le_length (by omega), List.take_of_length_le (by omega)]

/-- The bytes outside of the slice are left as they are. -/
theorem getElem?_assign (hij : i + v.length = j) (hj : j ≤ s.length) (hk : k < i ∨ j ≤ k) :
    (assign s i j v)[k]? = s[k]? := by
  have hlen : (s.take i).length = i := by
    rw [List.length_take]
    omega
  obtain hk | hk := hk
  · rw [assign, List.append_assoc, List.getElem?_append_left (by omega), List.getElem?_take_of_lt hk]
  · rw [assign, List.getElem?_append_right (by rw [List.length_append]; omega), List.length_append,
      hlen, List.getElem?_drop]
    congr 1
    omega

end DarwinVm
