import Mathlib.Data.List.Sort

/-!
# Lists with keys

Lists whose entries have keys in a linear order: `firsts` keeps the first entry of each key, and
`sortByKey` sorts by the key. A list that is strictly ascending by its keys is left as it is by both,
and is the only one with its entries (`eq_of_ascending`).
-/

namespace DarwinVm

variable {α κ : Type*} {seen : List κ} {l m : List α} {a : α}

/-! ## The first entry of each key -/

section Firsts

variable [DecidableEq κ] (key : α → κ)

/-- The entries with keys that are not in `seen` and that no earlier entry has. -/
def firsts : List κ → List α → List α
  | _, [] => []
  | seen, a :: l => if key a ∈ seen then firsts seen l else a :: firsts (key a :: seen) l

variable {key}

/-- An entry is kept if its key has not been seen, and no entry before it has the key. -/
theorem mem_firsts : ∀ {seen : List κ} {l : List α},
    a ∈ firsts key seen l ↔ key a ∉ seen ∧ l.find? (key · = key a) = some a
  | seen, [] => by simp [firsts]
  | seen, b :: l => by
    unfold firsts
    by_cases hab : key b = key a
    · rw [List.find?_cons_of_pos (by simpa using hab)]
      split
      · rename_i hb
        rw [mem_firsts, hab] at *
        exact ⟨fun h => absurd hb h.1, fun h => absurd hb h.1⟩
      · rename_i hb
        rw [List.mem_cons, mem_firsts, List.mem_cons, ← hab, Option.some.injEq]
        refine ⟨fun h => ?_, fun h => .inl h.2.symm⟩
        rcases h with h | ⟨h, -⟩
        · exact ⟨hb, h.symm⟩
        · exact absurd (.inl rfl) h
    · rw [List.find?_cons_of_neg (by simpa using hab)]
      split
      · exact mem_firsts
      · rw [List.mem_cons, mem_firsts, List.mem_cons]
        refine ⟨fun h => ?_, fun h => .inr ⟨fun hs => ?_, h.2⟩⟩
        · rcases h with rfl | h
          · exact absurd rfl hab
          · exact ⟨fun hs => h.1 (.inr hs), h.2⟩
        · rcases hs with hs | hs
          · exact hab hs.symm
          · exact h.1 hs

/-- The keys that are kept are those that have not been seen. -/
theorem mem_map_firsts {k : κ} : k ∈ (firsts key seen l).map key ↔ k ∉ seen ∧ k ∈ l.map key := by
  rw [List.mem_map]
  constructor
  · rintro ⟨a, ha, rfl⟩
    obtain ⟨hseen, hfind⟩ := mem_firsts.mp ha
    exact ⟨hseen, List.mem_map_of_mem (List.mem_of_find?_eq_some hfind)⟩
  · rintro ⟨hseen, hk⟩
    obtain ⟨b, hb, rfl⟩ := List.mem_map.mp hk
    have hsome : (l.find? (key · = key b)).isSome := by
      rw [List.find?_isSome]
      exact ⟨b, hb, by simp⟩
    obtain ⟨a, ha⟩ := Option.isSome_iff_exists.mp hsome
    have hkey : key a = key b := by simpa using List.find?_some ha
    exact ⟨a, mem_firsts.mpr ⟨hkey ▸ hseen, hkey ▸ ha⟩, hkey⟩

/-- No key is kept twice. -/
theorem nodup_map_firsts : ∀ (seen : List κ) (l : List α), ((firsts key seen l).map key).Nodup
  | _, [] => List.nodup_nil
  | seen, a :: l => by
    unfold firsts
    split
    · exact nodup_map_firsts seen l
    · rw [List.map_cons, List.nodup_cons]
      refine ⟨fun h => ?_, nodup_map_firsts _ l⟩
      exact (mem_map_firsts.mp h).1 (List.mem_cons_self ..)

/-- Only which keys have been seen matters. -/
theorem firsts_congr : ∀ {seen seen' : List κ} {l : List α}, (∀ k, k ∈ seen ↔ k ∈ seen') →
    firsts key seen l = firsts key seen' l
  | _, _, [], _ => rfl
  | seen, seen', a :: l, h => by
    have hcons : ∀ k, k ∈ key a :: seen ↔ k ∈ key a :: seen' := fun k => by
      rw [List.mem_cons, List.mem_cons, h]
    unfold firsts
    simp only [h (key a), firsts_congr h, firsts_congr hcons]

/-- What is kept of two lists after one another. -/
theorem firsts_append : ∀ {seen : List κ} {l : List α},
    firsts key seen (l ++ m) = firsts key seen l ++ firsts key (l.map key ++ seen) m
  | seen, [] => rfl
  | seen, a :: l => by
    rw [List.cons_append, firsts, firsts]
    split
    · rename_i ha
      rw [firsts_append]
      congr 1
      refine firsts_congr fun k => ?_
      rw [List.map_cons, List.cons_append, List.mem_cons, List.mem_append]
      exact ⟨.inr, fun h => h.elim (fun hk => .inr (hk ▸ ha)) id⟩
    · rw [firsts_append, List.cons_append]
      congr 2
      refine firsts_congr fun k => ?_
      rw [List.map_cons, List.cons_append, List.mem_cons, List.mem_append, List.mem_append,
        List.mem_cons]
      exact or_left_comm

/-- All of a list is kept if its keys differ and have not been seen. -/
theorem firsts_of_nodup : ∀ {seen : List κ} {l : List α}, (l.map key).Nodup →
    (∀ a ∈ l, key a ∉ seen) → firsts key seen l = l
  | _, [], _, _ => rfl
  | seen, a :: l, hnodup, hseen => by
    rw [List.map_cons, List.nodup_cons] at hnodup
    rw [List.forall_mem_cons] at hseen
    rw [firsts, if_neg hseen.1]
    congr 1
    refine firsts_of_nodup hnodup.2 fun b hb => ?_
    rw [List.mem_cons, not_or]
    exact ⟨fun he => hnodup.1 (he ▸ List.mem_map_of_mem hb), hseen.2 b hb⟩

/-- Nothing is kept of a list whose keys have all been seen. -/
theorem firsts_of_seen (h : ∀ a ∈ l, key a ∈ seen) : firsts key seen l = [] := by
  refine List.eq_nil_iff_forall_not_mem.mpr fun a ha => ?_
  obtain ⟨hseen, hfind⟩ := mem_firsts.mp ha
  exact hseen (h a (List.mem_of_find?_eq_some hfind))

end Firsts

/-! ## Order -/

section Order

variable [LinearOrder κ] (key : α → κ)

/-- The entries, sorted by their keys; those of the same key stay in their order. -/
def sortByKey (l : List α) : List α := l.insertionSort fun a b => key a ≤ key b

/-- The keys ascend strictly. -/
def Ascending (l : List α) : Prop := l.Pairwise fun a b => key a < key b

variable {key}

theorem perm_sortByKey (l : List α) : (sortByKey key l).Perm l := List.perm_insertionSort _ l

/-- Entries with keys that differ ascend strictly once they are sorted. -/
theorem ascending_sortByKey (h : (l.map key).Nodup) : Ascending key (sortByKey key l) := by
  have htotal : Std.Total fun a b : α => key a ≤ key b := ⟨fun a b => le_total (key a) (key b)⟩
  have htrans : IsTrans α fun a b => key a ≤ key b := ⟨fun _ _ _ => le_trans⟩
  have hsorted : (sortByKey key l).Pairwise fun a b => key a ≤ key b :=
    List.pairwise_insertionSort _ l
  have hnodup : ((sortByKey key l).map key).Nodup := ((perm_sortByKey l).map key).nodup_iff.mpr h
  have hne : (sortByKey key l).Pairwise fun a b => key a ≠ key b := List.pairwise_map.mp hnodup
  exact (hsorted.and hne).imp fun h => lt_of_le_of_ne h.1 h.2

/-- An ascending list is sorted. -/
theorem Ascending.sortByKey_eq (h : Ascending key l) : sortByKey key l = l :=
  List.Pairwise.insertionSort_eq (h.imp le_of_lt)

theorem Ascending.nodup (h : Ascending key l) : (l.map key).Nodup :=
  List.pairwise_map.mpr (h.imp ne_of_lt)

/-- Lists that ascend and have the same entries are equal. -/
theorem eq_of_ascending (hl : Ascending key l) (hm : Ascending key m) (h : l.Perm m) : l = m := by
  refine h.eq_of_pairwise (fun a b _ _ hab hba => ?_) hl hm
  exact absurd hba (lt_asymm hab)

end Order

end DarwinVm
