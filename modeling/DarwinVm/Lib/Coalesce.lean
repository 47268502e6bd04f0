import Mathlib.Data.List.Basic

/-!
# Coalesced sequences

A queue that coalesces keeps only some of the entries that are offered to it: an entry may be
superseded by the next one, unless the two differ in a key. `Coalesces` says which entries have been
kept. It grows with each entry that is appended (`Coalesces.append`), or that supersedes the last one
(`Coalesces.supersede`).
-/

namespace DarwinVm

universe u v

variable {α : Type u} {β : Type v}

/-- The entries whose marks are set. -/
def select : List Bool → List α → List α
  | true :: keep, a :: l => a :: select keep l
  | false :: keep, _ :: l => select keep l
  | _, _ => []

@[simp] theorem select_nil (keep : List Bool) : select keep ([] : List α) = [] := by
  cases keep with
  | nil => rfl
  | cons b keep => cases b <;> rfl

/-- Marks for two sequences. -/
theorem select_append {keep : List Bool} {l : List α} (h : keep.length = l.length)
    (keep' : List Bool) (l' : List α) :
    select (keep ++ keep') (l ++ l') = select keep l ++ select keep' l' := by
  induction keep generalizing l with
  | nil =>
    obtain rfl : l = [] := List.length_eq_zero_iff.1 h.symm
    rfl
  | cons b keep ih =>
    cases l with
    | nil => cases h
    | cons a l =>
      have hl : keep.length = l.length := Nat.succ.inj h
      cases b <;> simp [select, ih hl]

/-- The entries selected are a subsequence. -/
theorem select_sublist (keep : List Bool) (l : List α) : (select keep l).Sublist l := by
  induction l generalizing keep with
  | nil => simp
  | cons a l ih =>
    cases keep with
    | nil => exact List.nil_sublist _
    | cons b keep =>
      cases b with
      | true => exact (ih keep).cons_cons a
      | false => exact (ih keep).cons a

/-- Of the entries offered, those marked have been kept: an entry that has not been kept is followed by
one with the same key, and where the key changes, both entries have been kept. -/
structure Coalesces (key : α → β) (keep : List Bool) (offered kept : List α) : Prop where
  length : keep.length = offered.length
  kept : select keep offered = kept
  superseded : ∀ i, keep[i]? = some false →
    ∃ a b, offered[i]? = some a ∧ offered[i + 1]? = some b ∧ key a = key b
  transition : ∀ i a b, offered[i]? = some a → offered[i + 1]? = some b → key a ≠ key b →
    keep[i]? = some true ∧ keep[i + 1]? = some true

namespace Coalesces

variable {key : α → β} {keep : List Bool} {offered kept : List α}

/-- Nothing has been offered. -/
theorem nil (key : α → β) : Coalesces key [] [] [] :=
  ⟨rfl, rfl, fun i h => by simp at h, fun i a b h => by simp at h⟩

/-- What has been kept is a subsequence of what has been offered. -/
theorem sublist (h : Coalesces key keep offered kept) : kept.Sublist offered :=
  h.kept ▸ select_sublist keep offered

/-- The last entry has been kept: nothing has superseded it. -/
theorem latest (h : Coalesces key keep offered kept) (i : ℕ) (hi : i + 1 = offered.length) :
    keep[i]? = some true := by
  have hlt : i < keep.length := by
    rw [h.length]
    omega
  rw [List.getElem?_eq_getElem hlt]
  cases hb : keep[i] with
  | true => rfl
  | false =>
    obtain ⟨a, b, -, hb', -⟩ := h.superseded i (by rw [List.getElem?_eq_getElem hlt, hb])
    obtain ⟨hlt', -⟩ := List.getElem?_eq_some_iff.1 hb'
    omega

/-- A new entry is kept beside the others. -/
theorem append (h : Coalesces key keep offered kept) (a : α) :
    Coalesces key (keep ++ [true]) (offered ++ [a]) (kept ++ [a]) := by
  have hlength := h.length
  refine ⟨by simp [hlength], ?_, fun i hi => ?_, fun i x y hx hy hne => ?_⟩
  · rw [select_append hlength, h.kept]
    rfl
  · -- The entry superseded is one of the old ones, and so is the one after it.
    rcases Nat.lt_or_ge i keep.length with hlt | hge
    · rw [List.getElem?_append_left hlt] at hi
      obtain ⟨x, y, hx, hy, hkey⟩ := h.superseded i hi
      obtain ⟨hlt', -⟩ := List.getElem?_eq_some_iff.1 hy
      refine ⟨x, y, ?_, ?_, hkey⟩
      · rw [List.getElem?_append_left (by omega), hx]
      · rw [List.getElem?_append_left hlt', hy]
    · rw [List.getElem?_append_right hge] at hi
      cases hj : i - keep.length with
      | zero =>
        rw [hj] at hi
        cases hi
      | succ j =>
        rw [hj] at hi
        cases hi
  · have hy' := (List.getElem?_eq_some_iff.1 hy).1
    rw [List.length_append, List.length_singleton] at hy'
    rcases Nat.lt_or_ge (i + 1) offered.length with hlt | hge
    · rw [List.getElem?_append_left (by omega)] at hx
      rw [List.getElem?_append_left hlt] at hy
      rw [List.getElem?_append_left (by omega), List.getElem?_append_left (by omega)]
      exact h.transition i x y hx hy hne
    · -- The change is at the new entry; the last one before it has been kept.
      have hi : i + 1 = offered.length := by omega
      refine ⟨?_, ?_⟩
      · rw [List.getElem?_append_left (by omega)]
        exact h.latest i hi
      · rw [hi, ← hlength, List.getElem?_concat_length]

/-- A new entry supersedes the last one, if the two before it and the new one have the same key. -/
theorem supersede {o : List α} {z a b : α} (h : Coalesces key keep (o ++ [z, a]) (kept ++ [a]))
    (hz : key z = key a) (hb : key a = key b) :
    Coalesces key (keep.dropLast ++ [false, true]) (o ++ [z, a] ++ [b]) (kept ++ [b]) := by
  have hlength := h.length
  rw [List.length_append, List.length_cons, List.length_singleton] at hlength
  -- The last entry has been kept, under the last mark.
  obtain ⟨k, rfl⟩ : ∃ k, keep = k ++ [true] := by
    have hlast := h.latest (o.length + 1) (by simp)
    rcases List.eq_nil_or_concat keep with rfl | ⟨k, c, rfl⟩
    · cases hlength
    · rw [List.concat_eq_append] at hlength hlast
      rw [List.length_append, List.length_singleton] at hlength
      have hk : o.length + 1 = k.length := by omega
      rw [hk, List.getElem?_concat_length] at hlast
      exact ⟨k, by rw [List.concat_eq_append, Option.some.inj hlast]⟩
  rw [List.length_append, List.length_singleton] at hlength
  have hk : k.length = o.length + 1 := by omega
  have hza : (o ++ [z, a]).length = k.length + 1 := by simp [hk]
  have hat : ∀ i, i ≤ k.length → (o ++ [z, a] ++ [b])[i]? = (o ++ [z, a])[i]? :=
    fun i hi => List.getElem?_append_left (by omega)
  have hatz : (o ++ [z, a])[o.length]? = some z := by simp
  have hata : (o ++ [z, a])[k.length]? = some a := by simp [hk]
  have hatb : (o ++ [z, a] ++ [b])[k.length + 1]? = some b := by
    rw [← hza, List.getElem?_concat_length]
  rw [List.dropLast_concat]
  refine ⟨by simp [hk], ?_, fun i hi => ?_, fun i x y hx hy hne => ?_⟩
  · have hkz : k.length = (o ++ [z]).length := by simp [hk]
    have hkept := h.kept
    rw [show o ++ [z, a] = (o ++ [z]) ++ [a] by simp, select_append hkz] at hkept
    rw [show o ++ [z, a] ++ [b] = (o ++ [z]) ++ [a, b] by simp, select_append hkz,
      List.append_cancel_right hkept]
    rfl
  · rcases Nat.lt_trichotomy i k.length with hlt | rfl | hgt
    · rw [List.getElem?_append_left hlt] at hi
      obtain ⟨x, y, hx, hy, hkey⟩ := h.superseded i (by rw [List.getElem?_append_left hlt, hi])
      exact ⟨x, y, by rw [hat i (by omega), hx], by rw [hat (i + 1) (by omega), hy], hkey⟩
    · exact ⟨a, b, by rw [hat _ (Nat.le_refl _), hata], hatb, hb⟩
    · -- The mark of the new entry is set.
      obtain ⟨hlt, heq⟩ := List.getElem?_eq_some_iff.1 hi
      rw [List.length_append, List.length_cons, List.length_singleton] at hlt
      obtain rfl : i = k.length + 1 := by omega
      rw [List.getElem_append_right (by omega)] at heq
      simp at heq
  · rcases Nat.lt_trichotomy i k.length with hlt | rfl | hgt
    · rw [hat i (by omega)] at hx
      rw [hat (i + 1) (by omega)] at hy
      rcases Nat.lt_or_ge (i + 1) k.length with hlt' | hge
      · have hold := h.transition i x y hx hy hne
        rw [List.getElem?_append_left hlt, List.getElem?_append_left hlt'] at hold ⊢
        exact hold
      · obtain rfl : i = o.length := by omega
        rw [← hk, hata] at hy
        rw [hatz] at hx
        rw [← Option.some.inj hx, ← Option.some.inj hy] at hne
        exact absurd hz hne
    · rw [hat _ (Nat.le_refl _), hata] at hx
      rw [hatb] at hy
      rw [← Option.some.inj hx, ← Option.some.inj hy] at hne
      exact absurd hb hne
    · obtain ⟨hlt, -⟩ := List.getElem?_eq_some_iff.1 hy
      rw [List.length_append, List.length_singleton, hza] at hlt
      omega

end Coalesces

end DarwinVm
