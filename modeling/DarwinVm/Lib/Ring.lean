import Mathlib.Data.Nat.ModEq
import Mathlib.Logic.Function.Basic
import Mathlib.Data.List.Range

/-!
# Ring buffers

A ring of `cap` slots with a head and a length, as C keeps a bounded queue in an array. `toList` is
the queue that it stands for, oldest entry first, and `push`, `pop`, and `clear` are the queue's
operations on it (`toList_push`, `toList_pop`, `toList_clear`).
-/

namespace DarwinVm

universe u

/-- A queue of at most `cap` entries in an array of `cap` slots: `len` entries from slot `head` on,
wrapping around at the end of the array. -/
structure Ring (α : Type u) (cap : ℕ) where
  /-- The array. -/
  slot : Fin cap → α
  /-- The slot of the oldest entry. -/
  head : ℕ
  /-- The number of entries. -/
  len : ℕ
  /-- The array bounds the queue. -/
  len_le : len ≤ cap

namespace Ring

variable {α : Type u} {cap : ℕ} [NeZero cap]

/-- The entry at distance `i` from the head. -/
def get (q : Ring α cap) (i : ℕ) : α := q.slot (Fin.ofNat cap (q.head + i))

/-- The queue that the ring holds, oldest entry first. -/
def toList (q : Ring α cap) : List α := (List.range q.len).map q.get

/-- The empty ring over an array. -/
def empty (slot : Fin cap → α) : Ring α cap := ⟨slot, 0, 0, Nat.zero_le _⟩

/-- Append an entry, unless the array is full. -/
def push (q : Ring α cap) (x : α) : Option (Ring α cap) :=
  if h : q.len < cap then
    some ⟨Function.update q.slot (Fin.ofNat cap (q.head + q.len)) x, q.head, q.len + 1, h⟩
  else none

/-- Take the oldest entry out, if there is one. -/
def pop (q : Ring α cap) : Option (α × Ring α cap) :=
  if q.len = 0 then none
  else some (q.get 0, ⟨q.slot, (q.head + 1) % cap, q.len - 1, by have := q.len_le; omega⟩)

/-- Drop every entry. The array keeps its contents. -/
def clear (q : Ring α cap) : Ring α cap := ⟨q.slot, 0, 0, Nat.zero_le _⟩

@[simp] theorem length_toList (q : Ring α cap) : q.toList.length = q.len := by simp [toList]

@[simp] theorem toList_empty (slot : Fin cap → α) : (empty slot).toList = [] := rfl

@[simp] theorem toList_clear (q : Ring α cap) : q.clear.toList = [] := rfl

omit [NeZero cap] in
@[simp] theorem len_clear (q : Ring α cap) : q.clear.len = 0 := rfl

/-- Two distances below the capacity lead to the same slot only if they are equal. -/
theorem ofNat_add_inj {head i j : ℕ} (hi : i < cap) (hj : j < cap) :
    Fin.ofNat cap (head + i) = Fin.ofNat cap (head + j) ↔ i = j := by
  constructor
  · intro h
    have hmod : head + i ≡ head + j [MOD cap] := Fin.mk.inj h
    exact (Nat.ModEq.add_left_cancel' head hmod).eq_of_lt_of_lt hi hj
  · rintro rfl
    rfl

/-- A full ring refuses an entry. -/
theorem push_eq_none {q : Ring α cap} {x : α} : q.push x = none ↔ cap ≤ q.len := by
  simp [push]

/-- An entry that is not refused goes to the end of the queue. -/
theorem toList_push {q q' : Ring α cap} {x : α} (h : q.push x = some q') :
    q'.toList = q.toList ++ [x] := by
  unfold push at h
  split at h
  · rename_i hlt
    obtain rfl := Option.some.inj h
    simp only [toList, List.range_succ, List.map_append, List.map_cons, List.map_nil]
    congr 1
    · refine List.map_congr_left fun i hi => ?_
      have hi' : i < q.len := List.mem_range.1 hi
      have hne : Fin.ofNat cap (q.head + i) ≠ Fin.ofNat cap (q.head + q.len) := by
        rw [ne_eq, ofNat_add_inj (hi'.trans hlt) hlt]
        exact hi'.ne
      show Function.update q.slot _ x _ = q.slot _
      rw [Function.update_of_ne hne]
    · show [Function.update q.slot _ x _] = [x]
      rw [Function.update_self]
  · cases h

/-- An entry that is not refused makes the queue one longer. -/
theorem len_push {q q' : Ring α cap} {x : α} (h : q.push x = some q') : q'.len = q.len + 1 := by
  rw [← length_toList, toList_push h]
  simp

/-- There is nothing to pop exactly from the empty queue. -/
theorem pop_eq_none {q : Ring α cap} : q.pop = none ↔ q.toList = [] := by
  simp [pop, toList]

/-- `pop` takes the oldest entry out and leaves the others in order. -/
theorem toList_pop {q q' : Ring α cap} {x : α} (h : q.pop = some (x, q')) :
    q.toList = x :: q'.toList := by
  unfold pop at h
  split at h
  · cases h
  · rename_i hlen
    obtain ⟨n, hn⟩ := Nat.exists_eq_succ_of_ne_zero hlen
    obtain ⟨rfl, rfl⟩ := Prod.mk.inj (Option.some.inj h)
    simp only [toList, hn, List.range_succ_eq_map, List.map_cons, List.map_map]
    congr 1
    refine List.map_congr_left fun i _ => ?_
    simp only [Function.comp_apply, get]
    congr 1
    ext
    simp only [Fin.val_ofNat, Nat.succ_eq_add_one, Nat.mod_add_mod]
    congr 1
    omega

end Ring

end DarwinVm
