import DarwinVm.Lib.Bytes

/-!
# Where a byte string occurs

Python's `data.find(p, s)`, and the loop that looks for the next occurrence one byte after the start
of the last one (`findAll`). It finds every occurrence, also those that overlap, and each once
(`mem_findAll`, `nodup_findAll`).
-/

namespace DarwinVm

/-- `data.find(p, s)`, for a `p` of at least one byte. -/
def findBytes (p data : Bytes) (s : ℕ) : Option ℕ :=
  (List.range' s (data.length - s)).find? fun k => p <+: data.drop k

variable {p data : Bytes} {s k : ℕ}

/-- What is found is the first occurrence. -/
theorem findBytes_spec (h : findBytes p data s = some k) : s ≤ k ∧ k < data.length ∧
    p <+: data.drop k ∧ ∀ j, s ≤ j → j < k → ¬p <+: data.drop j := by
  rw [findBytes, List.find?_range'_eq_some] at h
  obtain ⟨hp, hmem, hfirst⟩ := h
  rw [List.mem_range'_1] at hmem
  refine ⟨hmem.1, by omega, of_decide_eq_true hp, fun j hs hj => ?_⟩
  simpa using hfirst j hs hj

/-- If nothing is found, there is no occurrence. -/
theorem not_prefix_of_findBytes (hp : p ≠ []) (h : findBytes p data s = none) (hs : s ≤ k) :
    ¬p <+: data.drop k := by
  intro hk
  have hpos := List.length_pos_iff.mpr hp
  have hlen := hk.length_le
  rw [List.length_drop] at hlen
  have hmem : k ∈ List.range' s (data.length - s) := by
    rw [List.mem_range'_1]
    omega
  have hnone := List.find?_eq_none.mp h k hmem
  exact hnone (decide_eq_true hk)

/-- The loop that looks for `p` from `s` on, and then from one byte after each start that is found. -/
def findAll (p data : Bytes) (s : ℕ) : List ℕ :=
  match h : findBytes p data s with
  | none => []
  | some k => k :: findAll p data (k + 1)
termination_by data.length - s
decreasing_by
  have := findBytes_spec h
  omega

/-- Every occurrence is found. -/
theorem mem_findAll (hp : p ≠ []) : k ∈ findAll p data s ↔ s ≤ k ∧ p <+: data.drop k := by
  fun_induction findAll p data s with
  | case1 s h =>
    refine iff_of_false List.not_mem_nil fun hk => ?_
    exact not_prefix_of_findBytes hp h hk.1 hk.2
  | case2 s i h ih =>
    obtain ⟨hs, -, hi, hfirst⟩ := findBytes_spec h
    rw [List.mem_cons, ih]
    constructor
    · rintro (rfl | ⟨hle, hk⟩)
      · exact ⟨hs, hi⟩
      · exact ⟨by omega, hk⟩
    · rintro ⟨hle, hk⟩
      by_cases hlt : k < i
      · exact absurd hk (hfirst k hle hlt)
      · obtain rfl | hne := eq_or_ne k i
        · exact Or.inl rfl
        · exact Or.inr ⟨by omega, hk⟩

/-- No occurrence is found twice. -/
theorem nodup_findAll (hp : p ≠ []) : (findAll p data s).Nodup := by
  fun_induction findAll p data s with
  | case1 => exact List.nodup_nil
  | case2 s i h ih =>
    rw [List.nodup_cons, mem_findAll hp]
    exact ⟨by omega, ih⟩

end DarwinVm
