import DarwinVm.Lib.Utf8
import Mathlib.Tactic.Positivity

/-!
# Python text conversions

What Python makes of texts: `hex(n)`, `int(s, 0)`, `bytes.fromhex(s)`, `s.partition(c)`, and
`s.rpartition(c)`, and the words that `struct.pack` makes of numbers. The conversions from texts
know the ASCII digits and white space only.
-/

namespace DarwinVm

/-- White space in a number. -/
def isPySpace (c : Char) : Bool := c = ' ' ∨ 9 ≤ c.toNat ∧ c.toNat ≤ 13

/-- The value of a digit, if it is one of the base. -/
def digitOf (base : ℕ) (c : Char) : Option ℕ :=
  let d :=
    if '0' ≤ c ∧ c ≤ '9' then c.toNat - 48
    else if 'a' ≤ c ∧ c ≤ 'z' then c.toNat - 87
    else if 'A' ≤ c ∧ c ≤ 'Z' then c.toNat - 55
    else base
  if d < base then some d else none

/-- The number that the digits so far and the next ones spell, and what is left of the text. Single
underscores may stand between the digits. -/
def readDigits (base : ℕ) : ℕ → Text → ℕ × Text
  | n, [] => (n, [])
  | n, '_' :: c :: s =>
    match digitOf base c with
    | some d => readDigits base (n * base + d) s
    | none => (n, '_' :: c :: s)
  | n, c :: s =>
    match digitOf base c with
    | some d => readDigits base (n * base + d) s
    | none => (n, c :: s)

/-- A number in the base that ends the text, but for white space. -/
def readNumber (base : ℕ) : Text → Option ℕ
  | [] => none
  | c :: s => do
    let d ← digitOf base c
    let (n, s) := readDigits base d s
    if s.all isPySpace then some n else none

/-- The text after the underscore that may follow a base prefix. -/
def dropUnderscore : Text → Text
  | '_' :: s => s
  | s => s

/-- An unsigned number, in the base that its prefix tells. A decimal number does not start with a
zero, unless it is zero. -/
def readPrefixed : Text → Option ℕ
  | '0' :: x :: s =>
    if x = 'x' ∨ x = 'X' then readNumber 16 (dropUnderscore s)
    else if x = 'o' ∨ x = 'O' then readNumber 8 (dropUnderscore s)
    else if x = 'b' ∨ x = 'B' then readNumber 2 (dropUnderscore s)
    else (readNumber 10 ('0' :: x :: s)).filter (· = 0)
  | s => readNumber 10 s

/-- `int(s, 0)`. -/
def int0 (s : Text) : Option ℤ :=
  match s.dropWhile isPySpace with
  | '-' :: s => (readPrefixed s).map fun n : ℕ => -(n : ℤ)
  | '+' :: s => (readPrefixed s).map fun n : ℕ => (n : ℤ)
  | s => (readPrefixed s).map fun n : ℕ => (n : ℤ)

/-- `hex(n)`. -/
def pyHex (n : ℕ) : Text := '0' :: 'x' :: Nat.toDigits 16 n

/-- `struct.pack("<I", n)` for `k = 4`, and `struct.pack("<Q", n)` for `k = 8`. -/
def packInt (k : ℕ) (n : ℤ) : Option Bytes :=
  if 0 ≤ n ∧ n < 256 ^ k then some (leBytes k n.toNat) else none

/-- `bytes.fromhex(s)`. -/
def fromHex : Text → Option Bytes
  | [] => some []
  | c :: s =>
    if isPySpace c then fromHex s
    else
      match s with
      | [] => none
      | d :: s => do
        let hi ← digitOf 16 c
        let lo ← digitOf 16 d
        let b ← fromHex s
        some (UInt8.ofNat (16 * hi + lo) :: b)

/-- `s.partition(c)`, without the separator. -/
def partition (c : Char) (s : Text) : Text × Text :=
  (s.takeWhile (· ≠ c), (s.dropWhile (· ≠ c)).drop 1)

/-- `s.rpartition(c)`, without the separator. -/
def rpartition (c : Char) (s : Text) : Text × Text :=
  (((s.reverse.dropWhile (· ≠ c)).drop 1).reverse, (s.reverse.takeWhile (· ≠ c)).reverse)

example : int0 " 0x_1F_0 ".toList = some 0x1F0 := by decide

example : partition '=' "a/b:key=u32:1".toList = ("a/b:key".toList, "u32:1".toList) := by decide

example : rpartition ':' "a/b:key".toList = ("a/b".toList, "key".toList) := by decide

/-! ## Numbers -/

theorem digitOf_lt {base : ℕ} {c : Char} {d : ℕ} (h : digitOf base c = some d) : d < base := by
  simp only [digitOf] at h
  split_ifs at h <;> simp_all

/-- The digits of a base are read to their end. -/
theorem readDigits_eq {base n : ℕ} {s : Text} (h : ∀ c ∈ s, (digitOf base c).isSome)
    (hu : digitOf base '_' = none) :
    readDigits base n s = (s.foldl (fun n c => n * base + (digitOf base c).getD 0) n, []) := by
  induction s generalizing n with
  | nil => rfl
  | cons c s ih =>
    rw [List.forall_mem_cons] at h
    obtain ⟨d, hd⟩ := Option.isSome_iff_exists.1 h.1
    have hne : c ≠ '_' := by
      rintro rfl
      rw [hu] at hd
      cases hd
    have hstep : readDigits base n (c :: s) = readDigits base (n * base + d) s := by
      rw [readDigits.eq_def]
      split
      · next heq => cases heq
      · next heq => exact absurd (List.cons.inj heq).1 hne
      · next heq =>
        obtain ⟨rfl, rfl⟩ := List.cons.inj heq
        rw [hd]
    rw [hstep, ih h.2, List.foldl_cons, hd, Option.getD_some]

/-- The digit of a value is read back. -/
theorem digitOf_digitChar {d : ℕ} (h : d < 16) : digitOf 16 d.digitChar = some d := by
  revert d
  decide

theorem foldl_toDigits (n : ℕ) :
    (∀ c ∈ Nat.toDigits 16 n, (digitOf 16 c).isSome) ∧
      (Nat.toDigits 16 n).foldl (fun n c => n * 16 + (digitOf 16 c).getD 0) 0 = n := by
  induction n using Nat.strongRecOn with
  | ind n ih =>
    by_cases h : n < 16
    · rw [Nat.toDigits_of_lt_base h]
      simp [digitOf_digitChar h]
    · rw [Nat.toDigits_of_base_le (by omega) (by omega)]
      obtain ⟨hall, hfold⟩ := ih (n / 16) (by omega)
      have hd := digitOf_digitChar (Nat.mod_lt n (show 16 > 0 by omega))
      constructor
      · intro c hc
        rcases List.mem_append.1 hc with hc | hc
        · exact hall c hc
        · rw [List.mem_singleton.1 hc, hd]
          rfl
      · rw [List.foldl_append, hfold, List.foldl_cons, List.foldl_nil, hd, Option.getD_some]
        omega

/-- `int(hex(n), 0) == n` -/
theorem int0_pyHex (n : ℕ) : int0 (pyHex n) = some (n : ℤ) := by
  obtain ⟨hall, hfold⟩ := foldl_toDigits n
  cases hs : Nat.toDigits 16 n with
  | nil => exact absurd hs Nat.toDigits_ne_nil
  | cons c s =>
    rw [hs] at hall hfold
    obtain ⟨d, hd⟩ := Option.isSome_iff_exists.1 (hall c List.mem_cons_self)
    have hne : c ≠ '_' := by
      rintro rfl
      rw [show digitOf 16 '_' = none by decide] at hd
      cases hd
    have hdrop : dropUnderscore (c :: s) = c :: s := by
      rw [dropUnderscore.eq_def]
      split
      · next heq => exact absurd (List.cons.inj heq).1 hne
      · rfl
    have hread := readDigits_eq (n := d) (fun c hc => hall c (List.mem_cons_of_mem _ hc))
      (by decide)
    rw [List.foldl_cons, hd, Option.getD_some, Nat.zero_mul, Nat.zero_add] at hfold
    have hnum : readNumber 16 (c :: s) = some n := by
      rw [readNumber, hd]
      simp only [bind, Option.bind, hread, hfold, List.all_nil, if_true]
    have hsp : (pyHex n).dropWhile isPySpace = '0' :: 'x' :: c :: s := by
      rw [pyHex, hs]
      rfl
    have hpre : readPrefixed ('0' :: 'x' :: c :: s) = some n := by
      rw [readPrefixed, if_pos (Or.inl rfl), hdrop, hnum]
    rw [int0, hsp]
    exact (congrArg (Option.map fun n : ℕ => (n : ℤ)) hpre).trans rfl

/-- A number is less than a power of the base with as many digits as its text. -/
theorem readDigits_lt {base n : ℕ} (hb : 0 < base) (s : Text) :
    (readDigits base n s).1 + 1 ≤ (n + 1) * base ^ s.length := by
  have hstep : ∀ {n d k m : ℕ}, d < base → m + 1 ≤ (n * base + d + 1) * base ^ k →
      m + 1 ≤ (n + 1) * base ^ (k + 1) := by
    intro n d k m hd hm
    calc m + 1 ≤ (n * base + d + 1) * base ^ k := hm
      _ ≤ (n * base + base) * base ^ k := Nat.mul_le_mul_right _ (by omega)
      _ = (n + 1) * base ^ (k + 1) := by ring
  have hend : ∀ n k : ℕ, n + 1 ≤ (n + 1) * base ^ k := fun n k =>
    Nat.le_mul_of_pos_right _ (Nat.pow_pos hb)
  fun_induction readDigits base n s with
  | case1 n => exact hend n _
  | case2 n c s d hd ih =>
    refine (hstep (digitOf_lt hd) ih).trans ?_
    rw [List.length_cons, List.length_cons]
    exact Nat.mul_le_mul_left _ (Nat.pow_le_pow_right hb (by omega))
  | case3 n c s hd => exact hend n _
  | case4 n c s hc d hd ih => exact hstep (digitOf_lt hd) ih
  | case5 n c s hc hd => exact hend n _

theorem readNumber_lt {base n : ℕ} {s : Text} (h : readNumber base s = some n) :
    n < base ^ s.length := by
  cases s with
  | nil => cases h
  | cons c s =>
    simp only [readNumber, bind, Option.bind_eq_some_iff] at h
    obtain ⟨d, hd, h⟩ := h
    split_ifs at h with hs
    cases h
    have hd := digitOf_lt hd
    have hle := readDigits_lt (n := d) (by omega : 0 < base) s
    calc (readDigits base d s).1 < (d + 1) * base ^ s.length := hle
      _ ≤ base * base ^ s.length := Nat.mul_le_mul_right _ (by omega)
      _ = base ^ (c :: s).length := by rw [List.length_cons, pow_succ, mul_comm]

theorem readPrefixed_lt {n : ℕ} {s : Text} (h : readPrefixed s = some n) :
    n < 16 ^ s.length := by
  have hbase : ∀ {base : ℕ} {s' : Text}, base ≤ 16 → s'.length ≤ s.length →
      readNumber base s' = some n → n < 16 ^ s.length := by
    intro base s' hb hl h
    calc n < base ^ s'.length := readNumber_lt h
      _ ≤ 16 ^ s'.length := Nat.pow_le_pow_left hb _
      _ ≤ 16 ^ s.length := Nat.pow_le_pow_right (by omega) hl
  have hdrop : ∀ s : Text, (dropUnderscore s).length ≤ s.length := by
    intro s
    rw [dropUnderscore.eq_def]
    split
    · simp
    · rfl
  rw [readPrefixed.eq_def] at h
  split at h
  · next x s =>
    have := hdrop s
    split_ifs at h
    · exact hbase (by omega) (by simp only [List.length_cons]; omega) h
    · exact hbase (by omega) (by simp only [List.length_cons]; omega) h
    · exact hbase (by omega) (by simp only [List.length_cons]; omega) h
    · exact hbase (by omega) le_rfl (Option.filter_eq_some_iff.1 h).1
  · exact hbase (by omega) le_rfl h

/-- A text of `n` characters spells no number from `16 ^ n` on. -/
theorem int0_lt {n : ℤ} {s : Text} (h : int0 s = some n) : n < 16 ^ s.length := by
  have hle : (s.dropWhile isPySpace).length ≤ s.length := (List.dropWhile_suffix _).length_le
  have hpow : ∀ {m k : ℕ}, m < 16 ^ k → k ≤ s.length → (m : ℤ) < 16 ^ s.length := by
    intro m k hm hk
    exact_mod_cast hm.trans_le (Nat.pow_le_pow_right (by omega) hk)
  rw [int0] at h
  split at h
  · obtain ⟨m, hm, rfl⟩ := Option.map_eq_some_iff.1 h
    have : (0 : ℤ) < 16 ^ s.length := by positivity
    omega
  · next heq =>
    obtain ⟨m, hm, rfl⟩ := Option.map_eq_some_iff.1 h
    rw [heq, List.length_cons] at hle
    exact hpow (readPrefixed_lt hm) (by omega)
  · obtain ⟨m, hm, rfl⟩ := Option.map_eq_some_iff.1 h
    exact hpow (readPrefixed_lt hm) hle

end DarwinVm
