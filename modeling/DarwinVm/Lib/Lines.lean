import DarwinVm.Lib.Occurs
import Mathlib.Data.List.DropRight
import Mathlib.Data.List.Flatten

/-!
# Decoded lines

Line feeds and carriage returns stand for themselves in UTF-8, so that bytes can be cut at a line
feed and decoded line by line (`decode_lineFeed`), and carriage returns be stripped before or after
(`rdropWhile_cr_decode`). Bytes that are decoded in parts have the finished lines of the whole
exactly when no line is cut inside of a character (`finishedLines_flatMap_iff`).
-/

namespace DarwinVm

theorem decode_lineFeed (u v : Bytes) :
    utf8DecodeReplace (u ++ 10 :: v) = utf8DecodeReplace u ++ '\n' :: utf8DecodeReplace v := by
  have hlf : ¬Continues 10 := by
    unfold Continues
    decide
  have hv : utf8DecodeReplace (10 :: v) = '\n' :: utf8DecodeReplace v := utf8DecodeReplace_encode '\n' v
  rw [apart_of_not_continues hlf u v, hv]

theorem decode_cr (u : Bytes) : utf8DecodeReplace (u ++ [13]) = utf8DecodeReplace u ++ ['\r'] := by
  have hcr : ¬Continues 13 := by
    unfold Continues
    decide
  have hv : utf8DecodeReplace [13] = ['\r'] := utf8DecodeReplace_encode '\r' []
  rw [apart_of_not_continues hcr u [], hv]

/-- Bytes without a line feed are no text with one. -/
theorem lineFeed_notMem_decode {s : Bytes} (h : 10 ∉ s) : '\n' ∉ utf8DecodeReplace s := by
  intro hmem
  have hocc : ['\n'] <:+: utf8DecodeReplace s := by
    rw [List.singleton_infix_iff]
    exact hmem
  have hbytes : [10] <:+: s := (occurs_utf8DecodeReplace (by decide) s).mp hocc
  exact h (hbytes.subset (List.mem_singleton_self _))

theorem utf8_crs : ∀ n, utf8 (List.replicate n '\r') = List.replicate n 13
  | 0 => rfl
  | n + 1 => by
    rw [List.replicate_succ, List.replicate_succ, utf8_cons, utf8_crs n]
    rfl

/-- What is read with carriage returns at the end ends in their bytes. -/
theorem Reads.crs {s : Bytes} {t : Text} {n : ℕ} (h : Reads s (t ++ List.replicate n '\r')) :
    ∃ u, s = u ++ List.replicate n 13 := by
  obtain ⟨u, y, rfl, hy⟩ := h.of_append
  have hcrs : replacement ∉ List.replicate n '\r' := fun h =>
    absurd (List.eq_of_mem_replicate h) (by decide)
  exact ⟨u, by rw [hy.eq_utf8 hcrs, utf8_crs]⟩

/-- The carriage returns are stripped before or after the line is decoded. -/
theorem rdropWhile_cr_decode (s : Bytes) :
    (utf8DecodeReplace s).rdropWhile (· = '\r') = utf8DecodeReplace (s.rdropWhile (· = 13)) := by
  induction s using List.reverseRecOn with
  | nil => rfl
  | append_singleton s b ih =>
    by_cases hb : b = 13
    · subst hb
      rw [decode_cr, List.rdropWhile_concat_pos _ _ _ (by decide),
        List.rdropWhile_concat_pos _ _ _ (by decide)]
      exact ih
    · rw [List.rdropWhile_concat_neg _ _ _ (by simpa using hb),
        List.rdropWhile_eq_self_iff]
      intro hne hlast
      -- The decoder reads a carriage return only from one.
      have hread : Reads (s ++ [b]) (utf8DecodeReplace (s ++ [b])) := reads_utf8ReplaceUpTo le_rfl
      rw [← List.dropLast_append_getLast hne, of_decide_eq_true hlast] at hread
      obtain ⟨u, hu⟩ := hread.crs (n := 1)
      exact hb (List.append_inj_right' hu rfl |> List.singleton_inj.mp)

/-- Two texts with a line feed are equal if what comes before it is, and what comes after it. -/
theorem append_lineFeed_inj : ∀ {x y z w : Text}, '\n' ∉ x → '\n' ∉ y →
    (x ++ '\n' :: z = y ++ '\n' :: w ↔ x = y ∧ z = w)
  | [], [], _, _, _, _ => by simp
  | [], c :: y, _, _, _, hy => by
    rw [List.mem_cons, not_or] at hy
    simp [hy.1]
  | c :: x, [], _, _, hx, _ => by
    rw [List.mem_cons, not_or] at hx
    simp [Ne.symm hx.1]
  | c :: x, d :: y, z, w, hx, hy => by
    rw [List.mem_cons, not_or] at hx hy
    rw [List.cons_append, List.cons_append, List.cons.injEq, List.cons.injEq,
      append_lineFeed_inj hx.2 hy.2, and_assoc]

theorem decode_crs (u : Bytes) : ∀ n, utf8DecodeReplace (u ++ List.replicate n 13) =
    utf8DecodeReplace u ++ List.replicate n '\r'
  | 0 => by rw [List.replicate_zero, List.append_nil, List.replicate_zero, List.append_nil]
  | n + 1 => by
    rw [List.replicate_succ', ← List.append_assoc, decode_cr, decode_crs u n, List.append_assoc,
      ← List.replicate_succ']

/-- What is stripped from the end of a list. -/
theorem exists_replicate_rdropWhile {α : Type} [DecidableEq α] (c : α) (l : List α) :
    ∃ n, l = l.rdropWhile (· = c) ++ List.replicate n c := by
  refine ⟨(l.rtakeWhile (· = c)).length, ?_⟩
  have hall : l.rtakeWhile (· = c) = List.replicate (l.rtakeWhile (· = c)).length c := by
    rw [List.eq_replicate_iff]
    exact ⟨rfl, fun b hb => by simpa using List.mem_rtakeWhile_imp hb⟩
  rw [← hall, List.rdropWhile_append_rtakeWhile]

theorem rdropWhile_append_replicate {α : Type} [DecidableEq α] (c : α) (l : List α) : ∀ n : ℕ,
    (l ++ List.replicate n c).rdropWhile (· = c) = l.rdropWhile (· = c)
  | 0 => by rw [List.replicate_zero, List.append_nil]
  | n + 1 => by
    rw [List.replicate_succ', ← List.append_assoc, List.rdropWhile_concat_pos _ _ _ (by simp),
      rdropWhile_append_replicate c l n]

/-- A line that is decoded in parts has the text of the line, but for the carriage returns at its
end, when every cut is harmless. -/
theorem stripped_flatMap_eq_iff (us : List Bytes) :
    (us.flatMap utf8DecodeReplace).rdropWhile (· = '\r') =
        (utf8DecodeReplace us.flatten).rdropWhile (· = '\r') ↔ Seams us := by
  refine ⟨fun h => seams_of_length ?_, fun h => by rw [(flatMap_eq_iff us).mpr h]⟩
  -- The carriage returns at the end of the parts are at the end of the line.
  obtain ⟨n, hn⟩ := exists_replicate_rdropWhile '\r' (us.flatMap utf8DecodeReplace)
  have hread := reads_flatten us
  rw [hn] at hread
  obtain ⟨u, hu⟩ := hread.crs
  have hline : utf8DecodeReplace us.flatten = utf8DecodeReplace u ++ List.replicate n '\r' := by
    rw [hu, decode_crs]
  have hle : ((utf8DecodeReplace us.flatten).rdropWhile (· = '\r')).length ≤
      (utf8DecodeReplace u).length := by
    rw [rdropWhile_cr_decode, hu, rdropWhile_append_replicate, ← rdropWhile_cr_decode]
    exact (List.rdropWhile_prefix _ _).length_le
  calc (us.flatMap utf8DecodeReplace).length
      = ((us.flatMap utf8DecodeReplace).rdropWhile (· = '\r')).length + n := by
        conv_lhs => rw [hn, List.length_append, List.length_replicate]
    _ ≤ (utf8DecodeReplace u).length + n := by
        rw [h]
        exact Nat.add_le_add_right hle n
    _ = (utf8DecodeReplace us.flatten).length := by
        rw [hline, List.length_append, List.length_replicate]

/-! ## Lines that are read in parts -/

theorem takeWhile_line {s l r : Bytes} (hs : s = l ++ 10 :: r) (hl : 10 ∉ l) :
    s.takeWhile (· ≠ 10) = l := by
  have hall : ∀ b ∈ l, decide (b ≠ 10) = true := fun b hb => by
    rw [decide_eq_true_iff]
    rintro rfl
    exact hl hb
  rw [hs, List.takeWhile_append_of_pos hall]
  simp

/-- What comes after the last line feed does not depend on the lines before. -/
theorem rtakeWhile_line (l s : Bytes) :
    (l ++ 10 :: s).rtakeWhile (· ≠ 10) = s.rtakeWhile (· ≠ 10) := by
  induction s using List.reverseRecOn with
  | nil => rw [List.rtakeWhile_concat_neg _ _ _ (by decide), List.rtakeWhile_nil]
  | append_singleton s b ih =>
    rw [← List.cons_append, ← List.append_assoc, List.rtakeWhile_concat, List.rtakeWhile_concat, ih]

theorem rtakeWhile_of_notMem {s : Bytes} (h : 10 ∉ s) : s.rtakeWhile (· ≠ 10) = s := by
  rw [List.rtakeWhile_eq_self_iff]
  intro b hb
  rw [decide_eq_true_iff]
  rintro rfl
  exact h hb

/-- The lines of a text that are ended by a line feed, without the carriage returns at their ends. -/
def finishedLines (t : Text) : List Text :=
  (t.splitOn '\n').dropLast.map (·.rdropWhile (· = '\r'))

theorem finishedLines_of_notMem {t : Text} (h : '\n' ∉ t) : finishedLines t = [] := by
  rw [finishedLines, List.splitOn_eq_singleton h]
  rfl

/-- The first line. -/
theorem finishedLines_line {l : Text} (h : '\n' ∉ l) (t : Text) :
    finishedLines (l ++ '\n' :: t) = l.rdropWhile (· = '\r') :: finishedLines t := by
  rw [finishedLines, List.splitOn_append_cons_self_of_not_mem h,
    List.dropLast_cons_of_ne_nil (List.splitOn_ne_nil _ _), List.map_cons, finishedLines]

/-- Parts are cut where it is harmless: of every line that is finished in a later part, what stands
in a part can be decoded on its own. -/
def Uncut : List Bytes → Prop
  | [] => True
  | r :: rs =>
    (10 ∈ rs.flatten → Apart (r.rtakeWhile (· ≠ 10)) (rs.flatten.takeWhile (· ≠ 10))) ∧ Uncut rs

theorem uncut_of_notMem : ∀ {us : List Bytes}, 10 ∉ us.flatten → Uncut us
  | [], _ => trivial
  | u :: us, h => by
    rw [List.flatten_cons, List.mem_append, not_or] at h
    exact ⟨fun hmem => absurd hmem h.2, uncut_of_notMem h.2⟩

/-- The parts up to the first line feed. -/
theorem exists_firstLine : ∀ {us : List Bytes}, 10 ∈ us.flatten →
    ∃ ps l s vs, us = ps ++ (l ++ 10 :: s) :: vs ∧ 10 ∉ (ps ++ [l]).flatten
  | u :: us, h => by
    by_cases hu : 10 ∈ u
    · obtain ⟨l, s, rfl, hl⟩ := List.eq_append_cons_of_mem hu
      refine ⟨[], l, s, us, rfl, ?_⟩
      rwa [List.nil_append, List.flatten_singleton]
    · rw [List.flatten_cons, List.mem_append] at h
      obtain ⟨ps, l, s, vs, rfl, hl⟩ := exists_firstLine (h.resolve_left hu)
      refine ⟨u :: ps, l, s, vs, rfl, ?_⟩
      rw [List.cons_append, List.flatten_cons, List.mem_append, not_or]
      exact ⟨hu, hl⟩

/-- The bytes of the parts up to the first line feed, and those after it. -/
theorem flatten_firstLine (ps : List Bytes) (l s : Bytes) (vs : List Bytes) :
    (ps ++ (l ++ 10 :: s) :: vs).flatten = (ps ++ [l]).flatten ++ 10 :: (s :: vs).flatten := by
  simp only [List.flatten_append, List.flatten_cons, List.flatten_nil, List.append_assoc,
    List.append_nil, List.cons_append]

/-- The first line is cut where it is harmless, and the lines after it. -/
theorem uncut_firstLine {l s : Bytes} {vs : List Bytes} : ∀ {ps : List Bytes},
    10 ∉ (ps ++ [l]).flatten →
    (Uncut (ps ++ (l ++ 10 :: s) :: vs) ↔ Seams (ps ++ [l]) ∧ Uncut (s :: vs))
  | [], _ => by
    rw [List.nil_append, List.nil_append, Uncut, Uncut, rtakeWhile_line]
    exact (and_iff_right ⟨apart_nil_right l, trivial⟩).symm
  | p :: ps, h => by
    rw [List.cons_append, List.flatten_cons, List.mem_append, not_or] at h
    have hall := flatten_firstLine ps l s vs
    have hmem : 10 ∈ (ps ++ (l ++ 10 :: s) :: vs).flatten := by
      rw [hall]
      exact List.mem_append_right _ (List.mem_cons_self ..)
    rw [List.cons_append, List.cons_append, Uncut, Seams, uncut_firstLine h.2,
      rtakeWhile_of_notMem h.1, takeWhile_line hall h.2, and_assoc]
    exact and_congr_left fun _ => ⟨fun hp => hp hmem, fun hp _ => hp⟩

theorem lineFeed_notMem_flatMap {us : List Bytes} (h : 10 ∉ us.flatten) :
    '\n' ∉ us.flatMap utf8DecodeReplace := by
  intro hmem
  obtain ⟨u, hu, hmem⟩ := List.mem_flatMap.mp hmem
  exact lineFeed_notMem_decode (fun hlf => h (List.mem_flatten_of_mem hu hlf)) hmem

/-- Parts that are decoded one by one have the finished lines of the whole exactly when they are cut
where it is harmless. -/
theorem finishedLines_flatMap_iff (us : List Bytes) :
    finishedLines (us.flatMap utf8DecodeReplace) = finishedLines (utf8DecodeReplace us.flatten) ↔
      Uncut us := by
  -- By induction on the number of bytes: the first line is taken off.
  induction hn : us.flatten.length using Nat.strong_induction_on generalizing us with
  | _ n ih =>
    by_cases hlf : 10 ∈ us.flatten
    · obtain ⟨ps, l, s, vs, rfl, hl⟩ := exists_firstLine hlf
      have hparts : (ps ++ (l ++ 10 :: s) :: vs).flatMap utf8DecodeReplace =
          (ps ++ [l]).flatMap utf8DecodeReplace ++ '\n' :: (s :: vs).flatMap utf8DecodeReplace := by
        simp only [List.flatMap_append, List.flatMap_cons, List.flatMap_nil, decode_lineFeed,
          List.append_assoc, List.append_nil, List.cons_append]
      have hrest := ih (s :: vs).flatten.length (by
        rw [← hn, flatten_firstLine, List.length_append, List.length_cons]
        omega) (s :: vs) rfl
      rw [hparts, flatten_firstLine, decode_lineFeed, finishedLines_line (lineFeed_notMem_flatMap hl),
        finishedLines_line (lineFeed_notMem_decode hl), List.cons.injEq, stripped_flatMap_eq_iff,
        hrest, uncut_firstLine hl]
    · rw [finishedLines_of_notMem (lineFeed_notMem_flatMap hlf),
        finishedLines_of_notMem (lineFeed_notMem_decode hlf)]
      exact iff_of_true rfl (uncut_of_notMem hlf)

end DarwinVm
