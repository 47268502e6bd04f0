import Mathlib.Data.List.Defs
import Mathlib.Tactic.Basic
import Mathlib.Order.Basic
import Mathlib.Data.Nat.Notation

/-!
# Mapping with a state

`mapAccum` maps a list from left to right with a state that each element may change, as a loop with
a counter does. The state before an element is that after the elements before it
(`getElem?_mapAccum`), so that a state which no element lowers is ordered as the elements are
(`mapAccum_take_le`).
-/

namespace DarwinVm

variable {α β σ : Type*} {f : σ → α → σ × β}

/-- Map a list with a state. -/
def mapAccum (f : σ → α → σ × β) : σ → List α → σ × List β
  | s, [] => (s, [])
  | s, a :: l => ((mapAccum f (f s a).1 l).1, (f s a).2 :: (mapAccum f (f s a).1 l).2)

/-- An element is mapped with the state that the elements before it leave. -/
theorem getElem?_mapAccum : ∀ (s : σ) (l : List α) (i : ℕ),
    (mapAccum f s l).2[i]? = l[i]?.map fun a => (f (mapAccum f s (l.take i)).1 a).2
  | _, [], _ => rfl
  | _, _ :: _, 0 => rfl
  | s, a :: l, i + 1 => by
    rw [mapAccum, List.getElem?_cons_succ, List.getElem?_cons_succ, getElem?_mapAccum _ l i]
    rfl

/-- The state after one more element. -/
theorem mapAccum_take_succ {a : α} : ∀ (s : σ) {l : List α} {i : ℕ}, l[i]? = some a →
    (mapAccum f s (l.take (i + 1))).1 = (f (mapAccum f s (l.take i)).1 a).1
  | _, [], _, h => by cases h
  | _, _ :: _, 0, h => by
    cases h
    rfl
  | s, b :: l, i + 1, h => mapAccum_take_succ (f s b).1 (l := l) h

/-- A list that no element changes stays as it is. -/
theorem mapAccum_eq_self {f : σ → α → σ × α} : ∀ {s : σ} {l : List α},
    (∀ a ∈ l, ∀ s, (f s a).2 = a) → (mapAccum f s l).2 = l
  | _, [], _ => rfl
  | s, a :: l, h => by
    rw [List.forall_mem_cons] at h
    rw [mapAccum, h.1 s, mapAccum_eq_self h.2]

section Order

variable [Preorder σ]

theorem le_mapAccum (hf : ∀ s a, s ≤ (f s a).1) : ∀ (s : σ) (l : List α), s ≤ (mapAccum f s l).1
  | _, [] => le_rfl
  | s, a :: l => (hf s a).trans (le_mapAccum hf _ l)

/-- A state that no element lowers is no lower after more of the elements. -/
theorem mapAccum_take_le (hf : ∀ s a, s ≤ (f s a).1) : ∀ (s : σ) (l : List α) {i j : ℕ}, i ≤ j →
    (mapAccum f s (l.take i)).1 ≤ (mapAccum f s (l.take j)).1
  | _, [], i, j, _ => by rw [List.take_nil, List.take_nil]
  | s, a :: l, 0, j, _ => le_mapAccum hf s _
  | s, a :: l, i + 1, j + 1, h => mapAccum_take_le hf (f s a).1 l (Nat.le_of_succ_le_succ h)

end Order

end DarwinVm
