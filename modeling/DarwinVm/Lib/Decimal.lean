import DarwinVm.Lib.Utf8
import Mathlib.Data.Char
import Mathlib.Data.List.Lex
import Mathlib.Tactic.IntervalCases

/-!
# Decimal numbers

`str(n)` and `'%0wd' % n`. Numbers below `10 ^ w` have `w` digits in the second form (`zeroPad_eq`),
and such texts have the order of the numbers (`padded_lt`). Above, neither holds.
-/

namespace DarwinVm

/-- `str(n)`. -/
def decimal (n : ℕ) : Text := Nat.toDigits 10 n

/-- `'%0wd' % n`. -/
def zeroPad (w n : ℕ) : Text := List.replicate (w - (decimal n).length) '0' ++ decimal n

/-- The last `w` digits of a number. -/
def padded : ℕ → ℕ → Text
  | 0, _ => []
  | w + 1, n => padded w (n / 10) ++ [(n % 10).digitChar]

@[simp] theorem length_padded : ∀ w n : ℕ, (padded w n).length = w
  | 0, _ => rfl
  | w + 1, n => by rw [padded, List.length_append, length_padded w, List.length_singleton]

theorem padded_zero : ∀ w : ℕ, padded w 0 = List.replicate w '0'
  | 0 => rfl
  | w + 1 => by
    rw [padded, Nat.zero_div, padded_zero w, List.replicate_succ']
    rfl

theorem length_zeroPad (w n : ℕ) : (zeroPad w n).length = max w (decimal n).length := by
  rw [zeroPad, List.length_append, List.length_replicate]
  omega

/-- The digits of a number, one by one. -/
theorem decimal_eq {n : ℕ} (h : 10 ≤ n) : decimal n = decimal (n / 10) ++ [(n % 10).digitChar] :=
  Nat.toDigits_of_base_le (by norm_num) h

theorem decimal_of_lt {n : ℕ} (h : n < 10) : decimal n = [n.digitChar] := Nat.toDigits_of_lt_base h

/-- A number is written in its own way. -/
theorem decimal_inj {m n : ℕ} (h : decimal m = decimal n) : m = n := by
  have hm := Nat.ofDigitChars_toDigits (b := 10) (n := m) (by norm_num) (by norm_num)
  have hn := Nat.ofDigitChars_toDigits (b := 10) (n := n) (by norm_num) (by norm_num)
  unfold decimal at h
  rw [← hm, h, hn]

theorem decimal_ne_nil (n : ℕ) : decimal n ≠ [] := Nat.toDigits_ne_nil

/-- A number below `10 ^ w` is written with `w` digits. -/
theorem zeroPad_eq : ∀ {w n : ℕ}, 0 < w → n < 10 ^ w → zeroPad w n = padded w n
  | 1, n, _, h => by
    have h10 : n < 10 := h
    rw [zeroPad, decimal_of_lt h10, padded, padded, Nat.mod_eq_of_lt h10]
    rfl
  | w + 2, n, _, h => by
    rcases Nat.lt_or_ge n 10 with hn | hn
    · rw [padded, zeroPad, decimal_of_lt hn, Nat.div_eq_of_lt hn, padded_zero, Nat.mod_eq_of_lt hn]
      rfl
    · have ih := zeroPad_eq (w := w + 1) (n := n / 10) (Nat.succ_pos w)
        (Nat.div_lt_of_lt_mul (by rwa [← Nat.pow_succ']))
      have hlen : w + 2 - ((decimal (n / 10)).length + 1) = w + 1 - (decimal (n / 10)).length := by
        omega
      rw [zeroPad] at ih
      rw [padded, ← ih, zeroPad, decimal_eq hn, List.length_append, List.length_singleton,
        ← List.append_assoc, hlen]

/-- The order of two texts of the same length that are not longer than their last character. -/
theorem concat_lt {a b : Char} : ∀ {x y : Text}, x.length = y.length → x < y ∨ x = y ∧ a < b →
    x ++ [a] < y ++ [b]
  | [], [], _, h => by
    obtain h | ⟨-, h⟩ := h
    · exact absurd h (List.lt_irrefl _)
    · exact List.cons_lt_cons_iff.mpr (Or.inl h)
  | c :: x, d :: y, hlen, h => by
    rw [List.length_cons, List.length_cons, Nat.succ_inj] at hlen
    rw [List.cons_append, List.cons_append, List.cons_lt_cons_iff]
    rw [List.cons_lt_cons_iff, List.cons.injEq] at h
    obtain (h | ⟨rfl, h⟩) | ⟨⟨rfl, rfl⟩, h⟩ := h
    · exact Or.inl h
    · exact Or.inr ⟨rfl, concat_lt hlen (Or.inl h)⟩
    · exact Or.inr ⟨rfl, concat_lt hlen (Or.inr ⟨rfl, h⟩)⟩

theorem digitChar_lt {m n : ℕ} (hmn : m < n) (hn : n < 10) : m.digitChar < n.digitChar := by
  have h : ∀ n < 10, ∀ m < n, m.digitChar < n.digitChar := by decide
  exact h n hn m hmn

/-- Texts of `w` digits have the order of their numbers. -/
theorem padded_lt : ∀ {w m n : ℕ}, m < n → n < 10 ^ w → padded w m < padded w n
  | 0, m, n, hmn, hn => by omega
  | w + 1, m, n, hmn, hn => by
    refine concat_lt (by rw [length_padded, length_padded]) ?_
    -- The number is smaller without its last digit, or in its last digit.
    rcases Nat.lt_or_ge (m / 10) (n / 10) with h | h
    · exact Or.inl (padded_lt h (Nat.div_lt_of_lt_mul (by rwa [← Nat.pow_succ'])))
    · have heq : m / 10 = n / 10 := by omega
      exact Or.inr ⟨congrArg _ heq, digitChar_lt (by omega) (Nat.mod_lt _ (by norm_num))⟩

/-! ## The characters -/

theorem isDigit_of_mem_decimal {c : Char} {n : ℕ} (h : c ∈ decimal n) : c.isDigit = true :=
  Nat.isDigit_of_mem_toDigits (by norm_num) (by norm_num) h

theorem isDigit_of_mem_zeroPad {c : Char} {w n : ℕ} (h : c ∈ zeroPad w n) : c.isDigit = true := by
  obtain h | h := List.mem_append.mp h
  · rw [List.eq_of_mem_replicate h]
    rfl
  · exact isDigit_of_mem_decimal h

/-- The digits are ASCII. -/
theorem lt_of_isDigit {c : Char} (h : c.isDigit = true) : c.toNat < 128 := by
  rw [Char.isDigit_iff_toNat] at h
  exact Nat.lt_of_le_of_lt h.2 (by decide)

end DarwinVm
