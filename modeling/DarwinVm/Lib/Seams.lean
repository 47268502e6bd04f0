import DarwinVm.Lib.Utf8
import Mathlib.Tactic.SplitIfs

/-!
# Where bytes can be cut and decoded in parts

Decoding bytes in two parts gives the text of all bytes, or a longer one: then the second part starts
with a byte that continues a character, and the cut has torn a character, or a part of one
(`apart_or_lt`). So bytes that are decoded in many parts give the text of all bytes exactly when each
cut does (`flatMap_eq_iff`): what one cut adds, no other cut can take away.
-/

namespace DarwinVm

/-- A byte that continues a character. -/
def Continues (b : UInt8) : Prop := 0x80 ≤ b ∧ b ≤ 0xBF

/-- The first byte of a character does not continue one, and the others do. -/
theorem continues_utf8EncodeChar (c : Char) :
    (∀ b l, String.utf8EncodeChar c = b :: l → ¬Continues b) ∧
      ∀ b ∈ (String.utf8EncodeChar c).tail, Continues b := by
  have h128 : (0x80 : UInt8).toNat = 128 := rfl
  have h191 : (0xBF : UInt8).toNat = 191 := rfl
  have hc : c.val.toNat < 0x110000 := by
    have := c.valid
    unfold UInt32.isValidChar Nat.isValidChar at this
    omega
  rw [String.utf8EncodeChar]
  unfold Continues
  -- One case for each number of bytes.
  split_ifs
  all_goals
    simp only [List.cons.injEq, List.tail_cons, List.mem_cons, List.not_mem_nil, or_false, and_imp,
      forall_eq_or_imp, forall_eq, forall_eq', forall_apply_eq_imp_iff, UInt8.le_iff_toNat_le,
      UInt8.toNat_ofNat', h128, h191]
    constructor
    · omega
    · grind

/-! ## The decoder -/

/-- The bounds on the second byte are bounds for a byte that continues a character. -/
theorem utf8Lead_bounds (b : UInt8) : 0x80 ≤ (utf8Lead b).2.1 ∧ (utf8Lead b).2.2 ≤ 0xBF := by
  unfold utf8Lead
  split_ifs <;> exact ⟨by decide, by decide⟩

/-- What is skipped are bytes that continue a character. -/
theorem exists_utf8SkipTail {n : ℕ} {lo hi : UInt8} (hlo : 0x80 ≤ lo) (hhi : hi ≤ 0xBF) (s : Bytes) :
    ∃ x, (∀ b ∈ x, Continues b) ∧ s = x ++ utf8SkipTail n lo hi s := by
  induction n, lo, hi, s using utf8SkipTail.induct with
  | case1 | case2 => exact ⟨[], List.forall_mem_nil _, rfl⟩
  | case3 n lo hi b s h ih =>
    obtain ⟨x, hcont, hx⟩ := ih le_rfl le_rfl
    rw [utf8SkipTail, if_pos h]
    refine ⟨b :: x, List.forall_mem_cons.mpr ⟨?_, hcont⟩, by rw [List.cons_append, ← hx]⟩
    exact ⟨hlo.trans h.1, h.2.trans hhi⟩
  | case4 n lo hi b s h =>
    rw [utf8SkipTail, if_neg h]
    exact ⟨[], List.forall_mem_nil _, rfl⟩

/-- What is skipped in bytes with more bytes after them: no more than in the bytes, or all of them
and then some that continue a character. -/
theorem utf8SkipTail_append {n : ℕ} {lo hi : UInt8} (hlo : 0x80 ≤ lo) (hhi : hi ≤ 0xBF)
    (u v : Bytes) :
    utf8SkipTail n lo hi (u ++ v) = utf8SkipTail n lo hi u ++ v ∨
      utf8SkipTail n lo hi u = [] ∧
        ∃ x, (∀ b ∈ x, Continues b) ∧ v = x ++ utf8SkipTail n lo hi (u ++ v) := by
  induction n, lo, hi, u using utf8SkipTail.induct with
  | case1 => exact Or.inl rfl
  | case2 => exact Or.inr ⟨rfl, exists_utf8SkipTail hlo hhi v⟩
  | case3 n lo hi b s h ih =>
    rw [List.cons_append, utf8SkipTail, if_pos h, utf8SkipTail, if_pos h]
    exact ih le_rfl le_rfl
  | case4 n lo hi b s h =>
    rw [List.cons_append, utf8SkipTail, if_neg h, utf8SkipTail, if_neg h]
    exact Or.inl rfl

theorem length_utf8SkipBad_le (b : UInt8) (s : Bytes) : (utf8SkipBad b s).length ≤ s.length := by
  obtain ⟨x, -, hx⟩ := exists_utf8SkipTail (n := (utf8Lead b).1) (utf8Lead_bounds b).1
    (utf8Lead_bounds b).2 s
  have := congrArg List.length hx
  rw [List.length_append] at this
  unfold utf8SkipBad
  omega

/-- The bytes after the first character are fewer. -/
theorem length_drop_utf8Size_le (c : Char) (b : UInt8) (s : Bytes) :
    ((b :: s).drop c.utf8Size).length ≤ s.length := by
  have := c.utf8Size_pos
  rw [List.length_drop, List.length_cons]
  omega

/-- More steps than bytes make no difference. -/
theorem utf8ReplaceUpTo_eq_of_le : ∀ {k k' : ℕ} {s : Bytes}, s.length ≤ k → s.length ≤ k' →
    utf8ReplaceUpTo k s = utf8ReplaceUpTo k' s
  | 0, _, [], _, _ | _ + 1, 0, [], _, _ | _ + 1, _ + 1, [], _, _ => by
    simp only [utf8ReplaceUpTo]
  | k + 1, k' + 1, b :: s, h, h' => by
    rw [List.length_cons, Nat.succ_le_succ_iff] at h h'
    rw [utf8ReplaceUpTo, utf8ReplaceUpTo]
    split
    · next c _ =>
      have hlen := length_drop_utf8Size_le c b s
      rw [utf8ReplaceUpTo_eq_of_le (hlen.trans h) (hlen.trans h')]
    · have hlen := length_utf8SkipBad_le b s
      rw [utf8ReplaceUpTo_eq_of_le (hlen.trans h) (hlen.trans h')]

@[simp] theorem utf8DecodeReplace_nil : utf8DecodeReplace [] = [] := rfl

/-- Bytes that start with a character. -/
theorem utf8DecodeReplace_of_head {b : UInt8} {s : Bytes} {c : Char}
    (h : utf8Head? (b :: s) = some c) :
    utf8DecodeReplace (b :: s) = c :: utf8DecodeReplace ((b :: s).drop c.utf8Size) := by
  rw [utf8DecodeReplace, List.length_cons, utf8ReplaceUpTo, h]
  dsimp only
  rw [utf8ReplaceUpTo_eq_of_le (length_drop_utf8Size_le c b s) le_rfl, utf8DecodeReplace]

/-- Bytes that start with no character. -/
theorem utf8DecodeReplace_of_bad {b : UInt8} {s : Bytes} (h : utf8Head? (b :: s) = none) :
    utf8DecodeReplace (b :: s) = replacement :: utf8DecodeReplace (utf8SkipBad b s) := by
  rw [utf8DecodeReplace, List.length_cons, utf8ReplaceUpTo, h]
  dsimp only
  rw [utf8ReplaceUpTo_eq_of_le (length_utf8SkipBad_le b s) le_rfl, utf8DecodeReplace]

/-- The UTF-8 of a character, with what comes after it. -/
theorem utf8DecodeReplace_encode (c : Char) (s : Bytes) :
    utf8DecodeReplace (String.utf8EncodeChar c ++ s) = c :: utf8DecodeReplace s := by
  obtain ⟨b, l, hl⟩ := List.exists_cons_of_length_pos (length_utf8EncodeChar_pos c)
  have hhead : utf8Head? (b :: (l ++ s)) = some c := by
    rw [← List.cons_append, ← hl, utf8Head?_encode]
  have hdrop : (b :: (l ++ s)).drop c.utf8Size = s := by
    rw [← List.cons_append, ← hl, ← String.length_utf8EncodeChar, List.drop_left]
  rw [hl, List.cons_append, utf8DecodeReplace_of_head hhead, hdrop]

/-- The UTF-8 of a text, with what comes after it. -/
theorem utf8DecodeReplace_utf8_append (s : Bytes) : ∀ t : Text,
    utf8DecodeReplace (utf8 t ++ s) = t ++ utf8DecodeReplace s
  | [] => rfl
  | c :: t => by
    rw [utf8_cons, List.append_assoc, utf8DecodeReplace_encode, utf8DecodeReplace_utf8_append s t,
      List.cons_append]

/-- A byte that continues no character that was started is replaced. -/
theorem utf8DecodeReplace_continues {b : UInt8} (hb : Continues b) (s : Bytes) :
    utf8DecodeReplace (b :: s) = replacement :: utf8DecodeReplace s := by
  have hhead : utf8Head? (b :: s) = none := by
    rw [Option.eq_none_iff_forall_ne_some]
    intro c hc
    obtain ⟨b', l, hl⟩ := List.exists_cons_of_length_pos (length_utf8EncodeChar_pos c)
    have hs := eq_of_utf8Head? hc
    rw [hl, List.cons_append, List.cons.injEq] at hs
    exact (continues_utf8EncodeChar c).1 b' l hl (hs.1 ▸ hb)
  have hlead : (utf8Lead b).1 = 0 := by
    unfold Continues at hb
    rw [UInt8.le_iff_toNat_le, UInt8.le_iff_toNat_le] at hb
    have h128 : (0x80 : UInt8).toNat = 128 := rfl
    have h191 : (0xBF : UInt8).toNat = 191 := rfl
    unfold utf8Lead
    -- No byte that starts a character is at most `0xBF`.
    simp only [UInt8.le_iff_toNat_le, ← UInt8.toNat_inj]
    split_ifs <;> simp_all <;> omega
  rw [utf8DecodeReplace_of_bad hhead, utf8SkipBad, hlead]
  rfl

theorem length_utf8DecodeReplace_continues (s : Bytes) : ∀ {x : Bytes}, (∀ b ∈ x, Continues b) →
    (utf8DecodeReplace (x ++ s)).length = x.length + (utf8DecodeReplace s).length
  | [], _ => (Nat.zero_add _).symm
  | b :: x, h => by
    rw [List.forall_mem_cons] at h
    have ih := length_utf8DecodeReplace_continues s h.2
    rw [List.cons_append, utf8DecodeReplace_continues h.1, List.length_cons, List.length_cons, ih]
    omega

/-! ## One cut -/

/-- The bytes can be cut here: the parts, decoded one by one, give the text of both. -/
def Apart (u v : Bytes) : Prop :=
  utf8DecodeReplace (u ++ v) = utf8DecodeReplace u ++ utf8DecodeReplace v

/-- What comes after a cut is a part of what came before it, and decoding it on its own makes the
text longer. -/
def Torn (u v : Bytes) : Prop :=
  (∃ b r, v = b :: r ∧ Continues b) ∧
    (utf8DecodeReplace (u ++ v)).length < (utf8DecodeReplace u).length + (utf8DecodeReplace v).length

theorem apart_nil_left (v : Bytes) : Apart [] v := rfl

theorem apart_nil_right (u : Bytes) : Apart u [] := by
  rw [Apart, List.append_nil, utf8DecodeReplace_nil, List.append_nil]

/-- A character that the first part starts and the second part ends. -/
theorem torn_of_head {c : Char} {a : UInt8} {u v : Bytes} (hu : utf8Head? (a :: u) = none)
    (huv : utf8Head? (a :: u ++ v) = some c) : Torn (a :: u) v := by
  obtain ⟨b, l, hl⟩ := List.exists_cons_of_length_pos (length_utf8EncodeChar_pos c)
  have hs := eq_of_utf8Head? huv
  generalize hw : (a :: u ++ v).drop c.utf8Size = w at hs
  have hs' := hs
  rw [hl, List.cons_append, List.cons_append, List.cons.injEq] at hs'
  obtain ⟨rfl, happ⟩ := hs'
  obtain ⟨x, rfl, hv⟩ | ⟨x, hx, -⟩ := List.append_eq_append_iff.mp happ
  · -- The later bytes of the character are those of the first part and `x`.
    have hcont : ∀ b ∈ x, Continues b := by
      intro b hb
      apply (continues_utf8EncodeChar c).2
      rw [hl, List.tail_cons]
      exact List.mem_append_right _ hb
    match x with
    | [] =>
      -- The first part is the character.
      have h := utf8Head?_encode c []
      rw [hl, List.append_nil, List.append_nil, hu] at h
      cases h
    | b :: x =>
      refine ⟨⟨b, x ++ w, hv, hcont b (List.mem_cons_self ..)⟩, ?_⟩
      rw [hs, utf8DecodeReplace_encode, utf8DecodeReplace_of_bad hu, hv,
        length_utf8DecodeReplace_continues w hcont]
      simp only [List.length_cons]
      omega
  · have h := utf8Head?_encode c x
    rw [hl, List.cons_append, ← hx, hu] at h
    cases h

/-- A first character that the cut leaves alone. -/
theorem apart_or_torn_of_cons {c : Char} {u u' v : Bytes}
    (hu : utf8DecodeReplace u = c :: utf8DecodeReplace u')
    (huv : utf8DecodeReplace (u ++ v) = c :: utf8DecodeReplace (u' ++ v))
    (h : Apart u' v ∨ Torn u' v) : Apart u v ∨ Torn u v := by
  unfold Apart Torn at h ⊢
  rw [hu, huv, List.cons_append, List.cons.injEq, List.length_cons, List.length_cons]
  exact h.imp (fun h => ⟨rfl, h⟩) (fun h => ⟨h.1, by omega⟩)

/-- A cut is harmless, or it tears what it cuts. -/
theorem apart_or_torn_of_le : ∀ {k : ℕ} {u : Bytes} (v : Bytes), u.length ≤ k →
    Apart u v ∨ Torn u v
  | _, [], v, _ => Or.inl (apart_nil_left v)
  | 0, _ :: _, _, h => absurd h (by simp)
  | k + 1, a :: u, v, h => by
    rw [List.length_cons, Nat.succ_le_succ_iff] at h
    obtain hu | ⟨c, hu⟩ := Option.eq_none_or_eq_some (utf8Head? (a :: u))
    · obtain huv | ⟨c, huv⟩ := Option.eq_none_or_eq_some (utf8Head? (a :: u ++ v))
      · have hdu := utf8DecodeReplace_of_bad hu
        have hduv : utf8DecodeReplace (a :: u ++ v) = _ := utf8DecodeReplace_of_bad huv
        obtain hskip | ⟨hnil, x, hcont, hv⟩ := utf8SkipTail_append (n := (utf8Lead a).1)
          (utf8Lead_bounds a).1 (utf8Lead_bounds a).2 u v
        · -- What is skipped ends in the first part.
          refine apart_or_torn_of_cons hdu ?_
            (apart_or_torn_of_le v ((length_utf8SkipBad_le a u).trans h))
          rw [hduv]
          exact congrArg (fun s => replacement :: utf8DecodeReplace s) hskip
        · -- What is skipped goes on in the second part, with `x`.
          generalize hw : utf8SkipTail (utf8Lead a).1 (utf8Lead a).2.1 (utf8Lead a).2.2 (u ++ v) = w
            at hv
          have hduv : utf8DecodeReplace (a :: u ++ v) = replacement :: utf8DecodeReplace w := by
            rw [hduv, ← hw]
            rfl
          have hdu : utf8DecodeReplace (a :: u) = [replacement] := by
            rw [hdu, utf8SkipBad, hnil, utf8DecodeReplace_nil]
          match x with
          | [] =>
            rw [List.nil_append] at hv
            left
            rw [Apart, hduv, hdu, hv, List.singleton_append]
          | b :: x =>
            right
            refine ⟨⟨b, x ++ w, hv, hcont b (List.mem_cons_self ..)⟩, ?_⟩
            rw [hduv, hdu, hv, length_utf8DecodeReplace_continues w hcont]
            simp only [List.length_cons, List.length_nil]
            omega
      · exact Or.inr (torn_of_head hu huv)
    · -- The first character is in the first part.
      have hs := eq_of_utf8Head? hu
      generalize (a :: u).drop c.utf8Size = u' at hs
      have hlen : u'.length ≤ k := by
        have := congrArg List.length hs
        have hpos := length_utf8EncodeChar_pos c
        rw [List.length_cons, List.length_append] at this
        omega
      have hdu : utf8DecodeReplace (a :: u) = c :: utf8DecodeReplace u' := by
        rw [hs, utf8DecodeReplace_encode]
      refine apart_or_torn_of_cons hdu ?_ (apart_or_torn_of_le v hlen)
      rw [hs, List.append_assoc, utf8DecodeReplace_encode]

theorem apart_or_torn (u v : Bytes) : Apart u v ∨ Torn u v := apart_or_torn_of_le v le_rfl

/-- A cut before a byte that continues no character is harmless. -/
theorem apart_of_not_continues {b : UInt8} (hb : ¬Continues b) (u r : Bytes) : Apart u (b :: r) := by
  obtain h | ⟨⟨b', r', h, hb'⟩, -⟩ := apart_or_torn u (b :: r)
  · exact h
  · exact absurd ((List.cons.inj h).1 ▸ hb') hb

/-- Decoding in two parts makes no text shorter. -/
theorem length_utf8DecodeReplace_append_le (u v : Bytes) : (utf8DecodeReplace (u ++ v)).length ≤
    (utf8DecodeReplace u).length + (utf8DecodeReplace v).length := by
  obtain h | ⟨-, h⟩ := apart_or_torn u v
  · rw [h, List.length_append]
  · exact h.le

/-- A cut is harmless if the texts of the parts have the length of the whole text. -/
theorem apart_of_length {u v : Bytes} (h : (utf8DecodeReplace u).length +
    (utf8DecodeReplace v).length ≤ (utf8DecodeReplace (u ++ v)).length) : Apart u v := by
  obtain h' | ⟨-, h'⟩ := apart_or_torn u v
  · exact h'
  · omega

/-! ## Many cuts -/

/-- The bytes of all parts can be cut where the parts are. -/
def Seams : List Bytes → Prop
  | [] => True
  | u :: us => Apart u us.flatten ∧ Seams us

theorem length_utf8DecodeReplace_flatten_le : ∀ us : List Bytes,
    (utf8DecodeReplace us.flatten).length ≤ (us.flatMap utf8DecodeReplace).length
  | [] => le_rfl
  | u :: us => by
    have ih := length_utf8DecodeReplace_flatten_le us
    have := length_utf8DecodeReplace_append_le u us.flatten
    rw [List.flatten_cons, List.flatMap_cons, List.length_append]
    omega

/-- Every cut is harmless if the texts of the parts have the length of the whole text. -/
theorem seams_of_length : ∀ {us : List Bytes},
    (us.flatMap utf8DecodeReplace).length ≤ (utf8DecodeReplace us.flatten).length → Seams us
  | [], _ => trivial
  | u :: us, h => by
    rw [List.flatMap_cons, List.flatten_cons, List.length_append] at h
    have hus := length_utf8DecodeReplace_flatten_le us
    have hu : Apart u us.flatten := apart_of_length (by omega)
    refine ⟨hu, seams_of_length ?_⟩
    rw [hu, List.length_append] at h
    omega

/-- Parts that are decoded one by one give the text of the whole when every cut is harmless. -/
theorem flatMap_eq_iff (us : List Bytes) :
    us.flatMap utf8DecodeReplace = utf8DecodeReplace us.flatten ↔ Seams us := by
  refine ⟨fun h => seams_of_length (congrArg List.length h).le, fun h => ?_⟩
  induction us with
  | nil => rfl
  | cons u us ih => rw [List.flatMap_cons, List.flatten_cons, h.1, ih h.2]

end DarwinVm
