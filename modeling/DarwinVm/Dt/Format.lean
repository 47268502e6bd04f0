import DarwinVm.Lib.Layout
import DarwinVm.Lib.Utf8
import Mathlib.Data.Nat.Bitwise

/-!
# Apple device trees

The well-formed device-tree blobs. A property is a record of a 32-byte name, a length word, and a
value padded to a multiple of four bytes; the top bit of the length word marks a placeholder. A
node is the counted properties and children. `DeviceTree` is a well-formed tree, and its `blob` the
bytes of it.
-/

namespace DarwinVm.Dt

/-- The placeholder bit of a length word. -/
def placeholderBit : ℕ := 0x80000000

/-- A well-formed property record. -/
structure Record where
  name : Text
  placeholder : Bool
  value : Bytes
  nul_notMem_name : nul ∉ name
  length_name_lt : (utf8 name).length < 32
  length_value_lt : value.length < placeholderBit

/-- The flags in the length word of a record. -/
def Record.flags (r : Record) : ℕ := if r.placeholder then placeholderBit else 0

/-- The bytes of a record. -/
def Record.bytes (r : Record) : Bytes :=
  ljust (utf8 r.name) 32 ++ leBytes 4 (r.value.length + r.flags) ++
    ljust r.value (roundUp4 r.value.length)

/-- A well-formed device tree. -/
structure DeviceTree where
  tree : Tree Record
  counted : tree.Counted

/-- The blob of a device tree. -/
def DeviceTree.blob (d : DeviceTree) : Bytes := (d.tree.map Record.bytes).layout

/-- The name in a name field, if the field holds the whole of it. -/
theorem cText_ljust_utf8 {t : Text} (h : nul ∉ t) (n : ℕ) : cText (ljust (utf8 t) n) = utf8 t := by
  have hne : ∀ b ∈ utf8 t, decide (b ≠ 0) = true := by
    rintro b hb
    rw [decide_eq_true_eq]
    rintro rfl
    exact h (zero_mem_utf8.1 hb)
  rw [cText, ljust, List.takeWhile_append_of_pos hne]
  cases n - (utf8 t).length with
  | zero => rw [List.replicate_zero, List.takeWhile_nil, List.append_nil]
  | succ k => rw [List.replicate_succ, List.takeWhile_cons_of_neg (by simp), List.append_nil]

/-- The flags and the length of a length word are apart. -/
theorem word_eq {n flags : ℕ} (hn : n < placeholderBit) (hf : flags = 0 ∨ flags = placeholderBit) :
    n ||| flags < 2 ^ 32 ∧ (n ||| flags) &&& 0x80000000 = flags ∧
      (n ||| flags) &&& 0x7FFFFFFF = n ∧ n ||| flags = n + flags := by
  have hbit : ∀ m, m &&& 0x80000000 = (m.testBit 31).toNat * 2 ^ 31 := fun m =>
    Nat.and_two_pow m 31
  have hlow : ∀ m, m &&& 0x7FFFFFFF = m % 2 ^ 31 := fun m => Nat.and_two_pow_sub_one_eq_mod m 31
  have hn' : n < 2 ^ 31 := hn
  rcases hf with rfl | rfl
  · rw [Nat.or_zero, hbit, hlow, Nat.testBit_lt_two_pow hn', Nat.mod_eq_of_lt hn']
    exact ⟨by omega, by simp, rfl, rfl⟩
  · have hor : n ||| placeholderBit = 2 ^ 31 + n := by
      rw [Nat.or_comm]
      exact (Nat.two_pow_add_eq_or_of_lt hn' 1).symm.trans (by rw [Nat.mul_one])
    have htop : (2 ^ 31 + n).testBit 31 = true := by
      rw [Nat.testBit_two_pow_add_eq, Nat.testBit_lt_two_pow hn']
      rfl
    rw [hor, hbit, hlow, htop, Nat.add_mod_left, Nat.mod_eq_of_lt hn']
    exact ⟨by omega, rfl, rfl, by rw [placeholderBit]; omega⟩

theorem Record.flags_eq (r : Record) : r.flags = 0 ∨ r.flags = placeholderBit := by
  cases h : r.placeholder <;> simp [Record.flags, h]

theorem Record.flags_eq_zero_iff (r : Record) : r.flags = 0 ↔ r.placeholder = false := by
  cases h : r.placeholder <;> simp [Record.flags, h, placeholderBit]

/-- The length and the flags of a record fit a word. -/
theorem Record.word_lt (r : Record) : r.value.length + r.flags < 2 ^ 32 := by
  have hlen := r.length_value_lt
  rw [placeholderBit] at hlen
  rcases r.flags_eq with h | h <;> rw [h]
  · omega
  · rw [placeholderBit]
    omega

/-! ## Fields of the data -/

/-- `struct.unpack_from("<I", data, off)`. -/
def unpackWord (data : Bytes) (off : ℕ) : Option ℕ :=
  if off + 4 ≤ data.length then some (leNat (slice data off (off + 4))) else none

/-- The counts at an offset, `struct.unpack_from("<II", data, off)`. -/
def unpackCounts (data : Bytes) (off : ℕ) : Option (ℕ × ℕ) :=
  if off + 8 ≤ data.length then
    some (leNat (slice data off (off + 4)), leNat (slice data (off + 4) (off + 8)))
  else none

theorem unpackWord_of_isPrefix {a c data : Bytes} {off n : ℕ} (hn : n < 256 ^ 4)
    (h : a ++ leBytes 4 n ++ c <+: data.drop off) :
    unpackWord data (off + a.length) = some n := by
  have hs := slice_of_isPrefix h
  have hl := le_length_of_isPrefix h (by simp [leBytes])
  rw [length_leBytes] at hs
  simp only [List.length_append, length_leBytes] at hl
  rw [unpackWord, if_pos (by omega), hs, leNat_leBytes_of_lt hn]

/-- A word in the bytes that stand at an offset. -/
theorem unpackWord_eq_of_isPrefix {raw data : Bytes} {off i : ℕ} (h : raw <+: data.drop off)
    (hi : i + 4 ≤ raw.length) : unpackWord data (off + i) = unpackWord raw i := by
  have hl := le_length_of_isPrefix h (List.ne_nil_of_length_pos (by omega))
  rw [unpackWord, unpackWord, if_pos (by omega), if_pos hi, Nat.add_assoc,
    slice_eq_of_isPrefix h hi (by omega)]

theorem unpackCounts_of_isPrefix {data : Bytes} {off n m : ℕ} (hn : n < 2 ^ 32) (hm : m < 2 ^ 32)
    (h : counts n m <+: data.drop off) : unpackCounts data off = some (n, m) := by
  have h₁ := slice_of_isPrefix (a := []) (b := leBytes 4 n) (c := leBytes 4 m) h
  have h₂ := slice_of_isPrefix (a := leBytes 4 n) (b := leBytes 4 m) (c := [])
    (by rwa [List.append_nil])
  have hl := le_length_of_isPrefix h (by simp [counts, leBytes])
  rw [length_counts] at hl
  simp only [length_leBytes, List.length_nil, Nat.add_zero] at h₁ h₂
  rw [unpackCounts, if_pos hl, h₁, h₂, leNat_leBytes_of_lt (by omega),
    leNat_leBytes_of_lt (by omega)]

/-- The counts that are read are those that stand in the data. -/
theorem prefix_of_unpackCounts {data : Bytes} {off n m : ℕ}
    (h : unpackCounts data off = some (n, m)) :
    n < 2 ^ 32 ∧ m < 2 ^ 32 ∧ counts n m <+: data.drop off := by
  rw [unpackCounts] at h
  split_ifs at h with hl
  cases h
  have l₁ : (slice data off (off + 4)).length = 4 := by rw [length_slice]; omega
  have l₂ : (slice data (off + 4) (off + 8)).length = 4 := by rw [length_slice]; omega
  have b₁ := leNat_lt (slice data off (off + 4))
  have b₂ := leNat_lt (slice data (off + 4) (off + 8))
  have e₁ := leBytes_leNat (slice data off (off + 4))
  have e₂ := leBytes_leNat (slice data (off + 4) (off + 8))
  rw [l₁] at b₁ e₁
  rw [l₂] at b₂ e₂
  refine ⟨by omega, by omega, ?_⟩
  rw [counts, e₁, e₂, slice, slice, ← List.drop_drop, Nat.add_sub_cancel_left,
    show off + 8 - (off + 4) = 4 by omega, ← List.take_add]
  exact List.take_prefix _ _

end DarwinVm.Dt
