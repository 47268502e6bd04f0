import DarwinVm.Lib.Seams

/-!
# Where a text occurs in decoded bytes

A text without replacement characters occurs in what bytes are decoded to, when its UTF-8 occurs in
the bytes (`occurs_utf8DecodeReplace`). Bytes that are decoded in parts have more replacement
characters, but no other text (`Reads.occurs`): a character whose bytes lie in one part starts where
a decoder of all bytes starts a character too, as no byte of another character can be its first.
-/

namespace DarwinVm

/-- `s` can be read as `t`: as the characters of `t`, with any bytes for a replacement character. -/
inductive Reads : Bytes → Text → Prop
  | nil : Reads [] []
  | char (c : Char) {s : Bytes} {t : Text} : Reads s t → Reads (String.utf8EncodeChar c ++ s) (c :: t)
  | bad (x : Bytes) {s : Bytes} {t : Text} : Reads s t → Reads (x ++ s) (replacement :: t)

theorem Reads.append {s s' : Bytes} {t t' : Text} (h : Reads s t) (h' : Reads s' t') :
    Reads (s ++ s') (t ++ t') := by
  induction h with
  | nil => exact h'
  | char c _ ih => rw [List.append_assoc]; exact ih.char c
  | bad x _ ih => rw [List.append_assoc]; exact ih.bad x

/-- The text after a part of what is read is read from the bytes after some. -/
theorem Reads.of_append {u t : Text} : ∀ {s : Bytes}, Reads s (u ++ t) →
    ∃ x y, s = x ++ y ∧ Reads y t := by
  induction u with
  | nil => exact fun {s} h => ⟨[], s, rfl, h⟩
  | cons c u ih =>
    intro s h
    generalize ht : c :: u ++ t = w at h
    cases h with
    | nil => cases ht
    | char c' h =>
      obtain ⟨rfl, rfl⟩ := List.cons.inj ht
      obtain ⟨x, y, rfl, hy⟩ := ih h
      exact ⟨_, y, (List.append_assoc ..).symm, hy⟩
    | bad z h =>
      obtain ⟨rfl, rfl⟩ := List.cons.inj ht
      obtain ⟨x, y, rfl, hy⟩ := ih h
      exact ⟨_, y, (List.append_assoc ..).symm, hy⟩

/-- A text without replacement characters is read from its UTF-8 only. -/
theorem Reads.utf8_of_append {p t : Text} (hp : replacement ∉ p) : ∀ {s : Bytes},
    Reads s (p ++ t) → ∃ y, s = utf8 p ++ y := by
  induction p with
  | nil => exact fun {s} _ => ⟨s, rfl⟩
  | cons c p ih =>
    intro s h
    rw [List.mem_cons, not_or] at hp
    generalize ht : c :: p ++ t = w at h
    cases h with
    | nil => cases ht
    | char c' h =>
      obtain ⟨rfl, rfl⟩ := List.cons.inj ht
      obtain ⟨y, rfl⟩ := ih hp.2 h
      exact ⟨y, by rw [utf8_cons, List.append_assoc]⟩
    | bad x h => exact absurd (List.cons.inj ht).1.symm hp.1

/-- A text without replacement characters is read from its UTF-8. -/
theorem Reads.eq_utf8 {s : Bytes} {t : Text} (h : Reads s t) (ht : replacement ∉ t) : s = utf8 t := by
  induction h with
  | nil => rfl
  | char c _ ih => rw [utf8_cons, ← ih (fun hmem => ht (List.mem_cons_of_mem c hmem))]
  | bad x _ ih => exact absurd (List.mem_cons_self ..) ht

/-- A text without replacement characters that occurs in what is read occurs in the bytes. -/
theorem Reads.occurs {s : Bytes} {p t : Text} (hp : replacement ∉ p) (h : Reads s t)
    (ht : p <:+: t) : utf8 p <:+: s := by
  obtain ⟨u, v, rfl⟩ := ht
  rw [List.append_assoc] at h
  obtain ⟨x, y, rfl, hy⟩ := h.of_append
  obtain ⟨z, rfl⟩ := hy.utf8_of_append hp
  exact ⟨x, z, List.append_assoc ..⟩

/-- Bytes are read by the decoder. -/
theorem reads_utf8ReplaceUpTo {k : ℕ} {s : Bytes} (h : s.length ≤ k) :
    Reads s (utf8ReplaceUpTo k s) := by
  induction k generalizing s with
  | zero =>
    obtain rfl := List.length_eq_zero_iff.mp (Nat.le_zero.mp h)
    exact Reads.nil
  | succ k ih =>
    match s with
    | [] => exact Reads.nil
    | b :: s =>
      rw [utf8ReplaceUpTo]
      split
      · next c hc =>
        have hs := eq_of_utf8Head? hc
        have hlt := c.utf8Size_pos
        conv => arg 1; rw [hs]
        refine Reads.char c (ih ?_)
        rw [List.length_drop]
        omega
      · obtain ⟨x, -, hx⟩ := exists_utf8SkipTail (n := (utf8Lead b).1) (utf8Lead_bounds b).1
          (utf8Lead_bounds b).2 s
        conv => arg 1; rw [hx, ← List.cons_append]
        refine Reads.bad _ (ih ?_)
        have := congrArg List.length hx
        rw [List.length_append] at this
        rw [List.length_cons] at h
        omega

/-- Parts that are decoded one by one are read. -/
theorem reads_flatten : ∀ chunks : List Bytes,
    Reads chunks.flatten (chunks.flatMap utf8DecodeReplace)
  | [] => Reads.nil
  | _ :: chunks => (reads_utf8ReplaceUpTo le_rfl).append (reads_flatten chunks)

/-- A text without replacement characters occurs in what is decoded from the bytes in which its
UTF-8 occurs. -/
theorem occurs_utf8DecodeReplace {p : Text} (hp : replacement ∉ p) (s : Bytes) :
    p <:+: utf8DecodeReplace s ↔ utf8 p <:+: s := by
  constructor
  · exact (reads_utf8ReplaceUpTo le_rfl).occurs hp
  · rintro ⟨x, r, rfl⟩
    match p with
    | [] => exact List.nil_infix
    | c :: p =>
      obtain ⟨b, l, hl⟩ := List.exists_cons_of_length_pos (length_utf8EncodeChar_pos c)
      have hb := (continues_utf8EncodeChar c).1 b l hl
      have hc : b :: (l ++ (utf8 p ++ r)) = utf8 (c :: p) ++ r := by
        rw [utf8_cons, hl, List.append_assoc, List.cons_append]
      -- The decoder starts a character at the first byte.
      have happ := apart_of_not_continues hb x (l ++ (utf8 p ++ r))
      rw [Apart, hc, utf8DecodeReplace_utf8_append] at happ
      rw [List.append_assoc, happ]
      exact ⟨_, _, List.append_assoc ..⟩

/-- A text without replacement characters that occurs in parts that are decoded one by one occurs
in the parts decoded as a whole. -/
theorem occurs_of_flatMap {p : Text} (hp : replacement ∉ p) {chunks : List Bytes}
    (h : p <:+: chunks.flatMap utf8DecodeReplace) : p <:+: utf8DecodeReplace chunks.flatten :=
  (occurs_utf8DecodeReplace hp _).mpr ((reads_flatten chunks).occurs hp h)

end DarwinVm
