import Mathlib.Data.List.DropRight
import DarwinVm.Lib.Bytes

/-!
# A marker on a line of its own

`search` is the search of the pattern `(?:^|[\r\n])marker(?:[\r\n]|$)` in bytes, and finds the marker
exactly when it stands on a line of its own (`search_iff`). A window on the bytes, the last `w` of the
first `n`, has the marker on a line of its own when the window holds a line of the bytes that has the
marker alone, or when an end of the window cuts the marker out of a longer line (`search_window_iff`).
-/

namespace DarwinVm

/-- `[\r\n]` -/
def isBreak (b : UInt8) : Bool := b = 13 ∨ b = 10

/-- `(?:[\r\n]|$)`, where `$` is the end or stands before a line feed at the end. -/
def lineEnd (s : Bytes) : Bool := s.head?.any isBreak ∨ s = [] ∨ s = [10]

/-- `marker(?:[\r\n]|$)` at the start of bytes. -/
def markerAt (marker s : Bytes) : Bool := marker.isPrefixOf s && lineEnd (s.drop marker.length)

/-- `[\r\n]marker(?:[\r\n]|$)` at any place. -/
def searchFrom (marker : Bytes) : Bytes → Bool
  | [] => false
  | b :: s => isBreak b && markerAt marker s || searchFrom marker s

/-- `re.search` of `(?:^|[\r\n])marker(?:[\r\n]|$)` -/
def search (marker s : Bytes) : Bool := markerAt marker s || searchFrom marker s

/-- A line can start after `u`. -/
def EndsLine (u : Bytes) : Prop := ∀ b ∈ u.getLast?, isBreak b

/-- A line can end before `v`. -/
def StartsBreak (v : Bytes) : Prop := ∀ b ∈ v.head?, isBreak b

/-- The marker is on a line of its own: it starts the bytes or follows a break, and ends the bytes or
is followed by one. -/
def OwnLine (marker s : Bytes) : Prop :=
  ∃ u v, s = u ++ marker ++ v ∧ EndsLine u ∧ StartsBreak v

/-- The marker after `u` lies in the last `w` of the first `n` bytes. -/
def InWindow (w n : ℕ) (marker u : Bytes) : Prop :=
  n ≤ u.length + w ∧ u.length + marker.length ≤ n

/-- A line that is the marker alone lies in the last `w` of the first `n` bytes of `s`. -/
def WholeLine (marker s : Bytes) (w n : ℕ) : Prop :=
  ∃ u v, s = u ++ marker ++ v ∧ InWindow w n marker u ∧ EndsLine u ∧ StartsBreak v

/-- The last `w` of the first `n` bytes of `s` start with the marker or end with it, which makes it look
like a line though it is a part of one. -/
def CutLine (marker s : Bytes) (w n : ℕ) : Prop :=
  ∃ u v, s = u ++ marker ++ v ∧ InWindow w n marker u ∧ ¬(EndsLine u ∧ StartsBreak v) ∧
    (EndsLine u ∨ u.length + w = n) ∧ (StartsBreak v ∨ u.length + marker.length = n)

variable {marker : Bytes}

/-! ## The search -/

theorem lineEnd_iff {s : Bytes} : lineEnd s = true ↔ StartsBreak s := by
  unfold lineEnd StartsBreak
  cases s with
  | nil => simp
  | cons b s =>
    rw [decide_eq_true_iff, List.head?_cons, Option.any_some]
    constructor
    · rintro (h | h | h) c hc
      · exact Option.some.inj hc ▸ h
      · cases h
      · obtain rfl := Option.some.inj hc
        obtain ⟨rfl, -⟩ := List.cons.inj h
        rfl
    · exact fun h => Or.inl (h b rfl)

theorem markerAt_iff {s : Bytes} : markerAt marker s = true ↔ ∃ v, s = marker ++ v ∧ StartsBreak v := by
  rw [markerAt, Bool.and_eq_true, List.isPrefixOf_iff_prefix, lineEnd_iff]
  constructor
  · rintro ⟨⟨v, rfl⟩, h⟩
    rw [List.drop_left] at h
    exact ⟨v, rfl, h⟩
  · rintro ⟨v, rfl, h⟩
    rw [List.drop_left]
    exact ⟨List.prefix_append _ _, h⟩

theorem searchFrom_iff : ∀ {s : Bytes}, searchFrom marker s = true ↔
    ∃ u b v, s = u ++ b :: (marker ++ v) ∧ isBreak b = true ∧ StartsBreak v
  | [] => by
    refine iff_of_false Bool.false_ne_true ?_
    rintro ⟨u, b, v, h, -⟩
    cases u <;> cases h
  | c :: s => by
    rw [searchFrom, Bool.or_eq_true, Bool.and_eq_true, markerAt_iff, searchFrom_iff]
    constructor
    · rintro (⟨hb, v, rfl, hv⟩ | ⟨u, b, v, rfl, h⟩)
      · exact ⟨[], c, v, rfl, hb, hv⟩
      · exact ⟨c :: u, b, v, rfl, h⟩
    · rintro ⟨u, b, v, h, hb, hv⟩
      cases u with
      | nil =>
        obtain ⟨rfl, rfl⟩ := List.cons.inj h
        exact Or.inl ⟨hb, v, rfl, hv⟩
      | cons a u =>
        obtain ⟨rfl, rfl⟩ := List.cons.inj h
        exact Or.inr ⟨u, b, v, rfl, hb, hv⟩

/-- The pattern finds a marker on a line of its own. -/
theorem search_iff {s : Bytes} : search marker s = true ↔ OwnLine marker s := by
  rw [search, Bool.or_eq_true, markerAt_iff, searchFrom_iff]
  constructor
  · rintro (⟨v, rfl, hv⟩ | ⟨u, b, v, rfl, hb, hv⟩)
    · exact ⟨[], v, rfl, nofun, hv⟩
    · refine ⟨u ++ [b], v, by simp, ?_, hv⟩
      rw [EndsLine, List.getLast?_concat]
      rintro c ⟨⟩
      exact hb
  · rintro ⟨u, v, rfl, hu, hv⟩
    obtain rfl | ⟨u, b, rfl⟩ := u.eq_nil_or_concat
    · exact Or.inl ⟨v, rfl, hv⟩
    · rw [List.concat_eq_append] at hu ⊢
      rw [EndsLine, List.getLast?_concat] at hu
      exact Or.inr ⟨u, b, v, by simp, hu b rfl, hv⟩

instance {s : Bytes} : Decidable (OwnLine marker s) := decidable_of_iff _ search_iff

/-! ## The window -/

theorem EndsLine.of_append {x u : Bytes} (h : EndsLine (x ++ u)) : EndsLine u := by
  unfold EndsLine at h ⊢
  intro b hb
  refine h b ?_
  rw [List.getLast?_append, hb]
  rfl

theorem StartsBreak.of_append {v z : Bytes} (h : StartsBreak (v ++ z)) : StartsBreak v := by
  unfold StartsBreak at h ⊢
  intro b hb
  refine h b ?_
  rw [List.head?_append, hb]
  rfl

/-- Only the last byte counts. -/
theorem EndsLine.append {x u : Bytes} (h : EndsLine u) (hu : u ≠ []) : EndsLine (x ++ u) := by
  unfold EndsLine at h ⊢
  rw [List.getLast?_append_of_ne_nil x hu]
  exact h

theorem StartsBreak.append {v z : Bytes} (h : StartsBreak v) (hv : v ≠ []) : StartsBreak (v ++ z) := by
  unfold StartsBreak at h ⊢
  rw [List.head?_append_of_ne_nil v hv]
  exact h

/-- What is found between two ends: a marker that is on a line of its own, or that an end cuts out. -/
theorem ownLine_middle_iff {x y z : Bytes} : OwnLine marker y ↔
    ∃ u v, x ++ y ++ z = u ++ marker ++ v ∧
      (x.length ≤ u.length ∧ u.length + marker.length ≤ x.length + y.length) ∧
      (EndsLine u ∨ u.length = x.length) ∧
      (StartsBreak v ∨ u.length + marker.length = x.length + y.length) := by
  constructor
  · rintro ⟨u, v, rfl, hu, hv⟩
    refine ⟨x ++ u, v ++ z, by simp, ?_, ?_, ?_⟩
    · simp only [List.length_append]
      omega
    · by_cases hnil : u = []
      · rw [hnil, List.append_nil]
        exact Or.inr rfl
      · exact Or.inl (hu.append hnil)
    · by_cases hnil : v = []
      · rw [hnil, List.append_nil, List.length_append, List.length_append]
        exact Or.inr (Nat.add_assoc ..)
      · exact Or.inl (hv.append hnil)
  · rintro ⟨u, v, h, ⟨hlo, hhi⟩, hu, hv⟩
    -- The bytes before the window are before the marker, and those after it are after it.
    obtain ⟨u, rfl⟩ : x <+: u := by
      have hx : x <+: x ++ y ++ z := ⟨y ++ z, (List.append_assoc ..).symm⟩
      have hu : u <+: x ++ y ++ z := ⟨marker ++ v, by rw [h, List.append_assoc]⟩
      exact List.prefix_of_prefix_length_le hx hu hlo
    obtain ⟨v, rfl⟩ : z <:+ v := by
      refine List.suffix_of_suffix_length_le ⟨x ++ y, rfl⟩ ⟨x ++ u ++ marker, h.symm⟩ ?_
      have hlen := congrArg List.length h
      simp only [List.length_append] at hlen hhi
      omega
    have hy : y = u ++ marker ++ v := by
      rw [List.append_assoc, List.append_assoc x, List.append_assoc, List.append_assoc,
        List.append_cancel_left_eq, ← List.append_assoc marker, ← List.append_assoc u,
        List.append_cancel_right_eq] at h
      rw [h, List.append_assoc]
    refine ⟨u, v, hy, ?_, ?_⟩
    · obtain hu | hu := hu
      · exact hu.of_append
      · rw [List.length_append, Nat.add_eq_left, List.length_eq_zero_iff] at hu
        rw [hu]
        exact nofun
    · obtain hv | hv := hv
      · exact hv.of_append
      · have hnil : v = [] := by
          rw [← List.length_eq_zero_iff]
          simp only [hy, List.length_append] at hv
          omega
        rw [hnil]
        exact nofun

/-- What the pattern finds in the last `w` of the first `n` bytes. -/
theorem search_window_iff {s : Bytes} {w n : ℕ} (hn : n ≤ s.length) :
    search marker ((s.take n).rtake w) = true ↔ WholeLine marker s w n ∨ CutLine marker s w n := by
  have hlen : (s.take n).length = n := List.length_take_of_le hn
  obtain ⟨x, hx⟩ : ∃ x, x = (s.take n).take (n - w) := ⟨_, rfl⟩
  obtain ⟨y, hy⟩ : ∃ y, y = (s.take n).rtake w := ⟨_, rfl⟩
  have hxlen : x.length = n - w := by
    rw [hx, List.length_take_of_le (by omega)]
  have hylen : x.length + y.length = n := by
    rw [hxlen, hy, List.rtake, List.length_drop, hlen]
    omega
  have hs : s = x ++ y ++ s.drop n := by
    rw [hx, hy, List.rtake, hlen, List.take_append_drop, List.take_append_drop]
  -- A window that is not full starts where the bytes do.
  have hstart (u : Bytes) : EndsLine u ∨ u.length = n - w ↔ EndsLine u ∨ u.length + w = n := by
    constructor
    · rintro (hu | hu)
      · exact Or.inl hu
      · by_cases hle : w ≤ n
        · exact Or.inr (by omega)
        · have hnil : u = [] := List.length_eq_zero_iff.mp (by omega)
          exact Or.inl (hnil ▸ nofun)
    · rintro (hu | hu)
      · exact Or.inl hu
      · exact Or.inr (by omega)
  have hlow (u : Bytes) : n - w ≤ u.length ↔ n ≤ u.length + w := Nat.sub_le_iff_le_add
  have hmiddle := @ownLine_middle_iff marker x y (s.drop n)
  rw [← hs, hylen, hxlen] at hmiddle
  simp only [hstart, hlow] at hmiddle
  rw [search_iff, ← hy, hmiddle]
  constructor
  · rintro ⟨u, v, hsplit, hin, hu, hv⟩
    by_cases hown : EndsLine u ∧ StartsBreak v
    · exact Or.inl ⟨u, v, hsplit, hin, hown⟩
    · exact Or.inr ⟨u, v, hsplit, hin, hown, hu, hv⟩
  · rintro (⟨u, v, hsplit, hin, hu, hv⟩ | ⟨u, v, hsplit, hin, -, hu, hv⟩)
    · exact ⟨u, v, hsplit, hin, Or.inl hu, Or.inl hv⟩
    · exact ⟨u, v, hsplit, hin, hu, hv⟩

theorem WholeLine.ownLine {s : Bytes} {w n : ℕ} (h : WholeLine marker s w n) : OwnLine marker s := by
  obtain ⟨u, v, hsplit, -, hown⟩ := h
  exact ⟨u, v, hsplit, hown⟩

end DarwinVm
