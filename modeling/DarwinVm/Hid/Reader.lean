import DarwinVm.Hid.Record

/-!
# The reader's framing

`reader` of `tools/input/dvm_hid.c` reads the console with `fgets` into a buffer of 200 bytes, drops
what does not fit, and acknowledges the records that it finds. `reader_eq` gives its
acknowledgements line by line: a line that contains a NUL is taken for one that does not fit, and the
draining then swallows the line after it. `reader_framing` says for which streams the acknowledgements
are those of the records on the lines of the stream.
-/

namespace DarwinVm.Hid

/-- The size of the buffer. -/
abbrev lineSize : ℕ := 200

/-- An acknowledgement: how many bytes the stream has before the line that it answers, and the
identity on the DVMI2A line. -/
abbrev Ack := ℕ × (UInt32 × UInt32)

/-- The loop of `reader`, after `off` bytes of the stream. Every record that it parses goes to
`handle` and is acknowledged. -/
def readerFrom : ℕ → ℕ → Bytes → List Ack
  | 0, _, _ => []
  | fuel + 1, off, s =>
    match fgets lineSize s with
    | none => []
    | some (line, rest) =>
      if strchr line newline then
        let acks := readerFrom fuel (off + (s.length - rest.length)) rest
        match strstr dvmi2Tag (cutLine line) with
        -- Console chatter, not ours.
        | none => acks
        | some p =>
          match parse p with
          | none => acks
          | some r => (off, r.ident) :: acks
      else
        -- An overlong or torn record.
        let rest := skipLine rest
        readerFrom fuel (off + (s.length - rest.length)) rest

/-- The acknowledgements of `reader` over a stream. -/
def reader (s : Bytes) : List Ack := readerFrom (s.length + 1) 0 s

/-! ## Lines and their records -/

/-- The identity of the record on a text, if the text from its first `DVMI2 ` onward is one. -/
def recordOn (l : Bytes) : Option (UInt32 × UInt32) :=
  ((strstr dvmi2Tag l).bind parse).map Record.ident

/-- The text before the first carriage return. -/
def beforeReturn (l : Bytes) : Bytes := l.takeWhile (· ≠ carriageReturn)

/-- The acknowledgements of the records on lines, the first of which starts after `off` bytes. A line
of more than 198 bytes does not fit the buffer with its newline and the final NUL. -/
def lineAcks : ℕ → List Bytes → List Ack
  | _, [] => []
  | off, l :: ls =>
    let acks := lineAcks (off + (l.length + 1)) ls
    if l.length ≤ lineSize - 2 then
      match recordOn l with
      | none => acks
      | some id => (off, id) :: acks
    else acks

/-- Lines on which the reader answers to the records on them, where `swallowed` says that the first
one is swallowed by the line before it: no line that contains a NUL has a record, nor has the line
that it swallows, and on the other lines a carriage return makes no difference to the record. -/
def Answerable : Bool → List Bytes → Prop
  | _, [] => True
  | true, l :: ls => (l.length ≤ lineSize - 2 → recordOn l = none) ∧ Answerable false ls
  | false, l :: ls =>
    if lineSize - 2 < l.length then Answerable false ls
    else if 0 ∈ l then recordOn l = none ∧ Answerable true ls
    else recordOn (beforeReturn l) = recordOn l ∧ Answerable false ls

/-- The acknowledgements of `reader`, line by line, where `swallowed` says that the first line is
swallowed by the line before it. -/
def readAcks : Bool → ℕ → List Bytes → List Ack
  | _, _, [] => []
  | true, off, l :: ls => readAcks false (off + (l.length + 1)) ls
  | false, off, l :: ls =>
    if lineSize - 2 < l.length then readAcks false (off + (l.length + 1)) ls
    else if 0 ∈ l then readAcks true (off + (l.length + 1)) ls
    else
      match recordOn (beforeReturn l) with
      | none => readAcks false (off + (l.length + 1)) ls
      | some id => (off, id) :: readAcks false (off + (l.length + 1)) ls

/-- A C string with a newline, before which it has no other, has a NUL before it or `strchr` finds
it. -/
theorem strchr_newline {l : Bytes} (hl : newline ∉ l) :
    strchr (l ++ [newline]) newline = true ↔ (0 : UInt8) ∉ l := by
  induction l with
  | nil => decide
  | cons b l ih =>
    simp only [List.mem_cons, not_or] at hl ⊢
    rw [← ih hl.2]
    by_cases hb : b = 0
    · simp [strchr, cText, hb]
    · have hne : ¬ newline = b := hl.1
      simp [strchr, cText, hb, Ne.symm hb, hne]

/-- `strchr` finds no newline in bytes without one. -/
theorem strchr_eq_false {l : Bytes} (hl : newline ∉ l) : strchr l newline = false := by
  unfold strchr cText
  rw [Bool.eq_false_iff, ne_eq, List.contains_iff_mem]
  exact fun h => hl (List.takeWhile_subset _ h)

/-- The text of a line without a NUL is cut at its first carriage return. -/
theorem cutLine_line {l : Bytes} (hl : newline ∉ l) (h0 : (0 : UInt8) ∉ l) :
    cutLine (l ++ [newline]) = beforeReturn l := by
  induction l with
  | nil => decide
  | cons b l ih =>
    simp only [List.mem_cons, not_or] at hl h0
    have hb : b ≠ newline := Ne.symm hl.1
    have hb0 : b ≠ 0 := Ne.symm h0.1
    have ih := ih hl.2 h0.2
    simp only [cutLine, cText, beforeReturn, List.cons_append] at ih ⊢
    rw [List.takeWhile_cons_of_pos (by simpa using hb0)]
    by_cases hr : b = carriageReturn
    · rw [List.takeWhile_cons_of_neg (by simp [hr]), List.takeWhile_cons_of_neg (by simp [hr])]
    · rw [List.takeWhile_cons_of_pos (by simp [hr, hb]), List.takeWhile_cons_of_pos (by simp [hr]),
        ih]

@[simp] theorem readerFrom_nil (fuel off : ℕ) : readerFrom fuel off [] = [] := by
  cases fuel <;> rfl

/-- One round of the loop over a line that has been read whole. -/
theorem readerFrom_whole {fuel off : ℕ} {s line rest : Bytes}
    (hread : fgets lineSize s = some (line, rest)) (hnewline : strchr line newline = true) :
    readerFrom (fuel + 1) off s =
      match recordOn (cutLine line) with
      | none => readerFrom fuel (off + (s.length - rest.length)) rest
      | some id => (off, id) :: readerFrom fuel (off + (s.length - rest.length)) rest := by
  simp only [readerFrom, hread, hnewline, if_true, recordOn]
  cases strstr dvmi2Tag (cutLine line) with
  | none => rfl
  | some p => cases hp : parse p <;> simp [hp]

/-- One round of the loop over a line that is dropped. -/
theorem readerFrom_dropped {fuel off : ℕ} {s line rest : Bytes}
    (hread : fgets lineSize s = some (line, rest)) (hnewline : strchr line newline = false) :
    readerFrom (fuel + 1) off s =
      readerFrom fuel (off + (s.length - (skipLine rest).length)) (skipLine rest) := by
  simp only [readerFrom, hread, hnewline, Bool.false_eq_true, if_false]

/-- The loop, line by line. -/
theorem readerFrom_unlines {fuel off : ℕ} {ls : List Bytes} {t : Bytes}
    (hls : ∀ l ∈ ls, newline ∉ l) (ht : newline ∉ t) (hfuel : (unlines ls t).length < fuel) :
    readerFrom fuel off (unlines ls t) = readAcks false off ls := by
  have hsize : lineSize = 200 := rfl
  induction fuel generalizing off ls with
  | zero => exact absurd hfuel (Nat.not_lt_zero _)
  | succ fuel ih =>
    cases ls with
    | nil =>
      -- What follows the last newline is read and dropped.
      rw [unlines_nil] at hfuel ⊢
      by_cases hnil : t = []
      · rw [hnil, readerFrom_nil]
        rfl
      · have hread := fgets_of_ne_nil lineSize hnil
        rw [takeLine_end ht] at hread
        have hend : skipLine (t.drop (lineSize - 1)) = [] :=
          skipLine_end fun h => ht (List.mem_of_mem_drop h)
        rw [readerFrom_dropped hread (strchr_eq_false fun h => ht (List.mem_of_mem_take h)), hend,
          readerFrom_nil]
        rfl
    | cons l ls =>
      simp only [List.mem_cons, forall_eq_or_imp] at hls
      obtain ⟨hl, hls⟩ := hls
      rw [unlines_cons] at hfuel ⊢
      generalize hs : l ++ newline :: unlines ls t = s at hfuel ⊢
      have hlength : s.length = l.length + 1 + (unlines ls t).length := by
        rw [← hs, List.length_append, List.length_cons]
        omega
      have hoff : s.length - (unlines ls t).length = l.length + 1 := by omega
      have hrest : (unlines ls t).length < fuel := by omega
      have hread : fgets lineSize s = some (takeLine (lineSize - 1) s) := by
        refine fgets_of_ne_nil lineSize fun hnil => ?_
        rw [hnil, List.length_nil] at hlength
        omega
      by_cases hlong : lineSize - 2 < l.length
      · -- The line does not fit: its rest is drained.
        rw [← hs, takeLine_long _ hl (by omega), hs] at hread
        have hdrain : skipLine (l.drop (lineSize - 1) ++ newline :: unlines ls t) = unlines ls t :=
          skipLine_line _ fun h => hl (List.mem_of_mem_drop h)
        rw [readerFrom_dropped hread (strchr_eq_false fun h => hl (List.mem_of_mem_take h)), hdrain,
          hoff, ih hls hrest, readAcks, if_pos hlong]
      · rw [← hs, takeLine_line _ hl (by omega), hs] at hread
        rw [readAcks, if_neg hlong]
        by_cases h0 : (0 : UInt8) ∈ l
        · -- The newline is hidden behind the NUL: the next line is drained.
          have hnewline : strchr (l ++ [newline]) newline = false :=
            Bool.eq_false_iff.2 fun h => (strchr_newline hl).1 h h0
          rw [readerFrom_dropped hread hnewline, if_pos h0]
          cases ls with
          | nil =>
            rw [unlines_nil, skipLine_end ht, readerFrom_nil]
            rfl
          | cons l' ls =>
            simp only [List.mem_cons, forall_eq_or_imp] at hls
            rw [unlines_cons, skipLine_line _ hls.1, readAcks]
            rw [unlines_cons, List.length_append, List.length_cons] at hlength hrest
            have hrest' : (unlines ls t).length < fuel := by omega
            have hoff' : s.length - (unlines ls t).length = l.length + 1 + (l'.length + 1) := by
              omega
            rw [hoff', ih hls.2 hrest', ← Nat.add_assoc off]
        · have hnewline : strchr (l ++ [newline]) newline = true := (strchr_newline hl).2 h0
          rw [readerFrom_whole hread hnewline, cutLine_line hl h0, hoff, ih hls hrest, if_neg h0]

/-- The acknowledgements of `reader` over a stream, line by line. -/
theorem reader_eq (s : Bytes) : reader s = readAcks false 0 (lines s) := by
  obtain ⟨ls, t, rfl, hls, ht⟩ := exists_unlines s
  rw [lines_unlines hls ht]
  exact readerFrom_unlines hls ht (Nat.lt_succ_self _)

/-- Acknowledgements of lines answer no line before them. -/
theorem le_of_mem_lineAcks {off : ℕ} {ls : List Bytes} {a : Ack} (h : a ∈ lineAcks off ls) :
    off ≤ a.1 := by
  induction ls generalizing off with
  | nil => cases h
  | cons l ls ih =>
    have hrest : a ∈ lineAcks (off + (l.length + 1)) ls → off ≤ a.1 :=
      fun h => (Nat.le_add_right _ _).trans (ih h)
    simp only [lineAcks] at h
    split at h
    · split at h
      · exact hrest h
      · rcases List.mem_cons.1 h with rfl | h
        · exact le_rfl
        · exact hrest h
    · exact hrest h

/-- Acknowledgements of the reader answer no line before them. -/
theorem le_of_mem_readAcks {swallowed : Bool} {off : ℕ} {ls : List Bytes} {a : Ack}
    (h : a ∈ readAcks swallowed off ls) : off ≤ a.1 := by
  induction ls generalizing off swallowed with
  | nil => cases h
  | cons l ls ih =>
    have hrest : ∀ b, a ∈ readAcks b (off + (l.length + 1)) ls → off ≤ a.1 :=
      fun b h => (Nat.le_add_right _ _).trans (ih h)
    cases swallowed with
    | true => exact hrest _ h
    | false =>
      rw [readAcks] at h
      split at h
      · exact hrest _ h
      · split at h
        · exact hrest _ h
        · split at h
          · exact hrest _ h
          · rcases List.mem_cons.1 h with rfl | h
            · exact le_rfl
            · exact hrest _ h

/-- Two lists of acknowledgements that each begin with that of a line at `off`, if it has one, are
equal only if these and the rests are. -/
theorem acks_eq_iff {off : ℕ} {o o' : Option (UInt32 × UInt32)} {as as' : List Ack}
    (has : ∀ a ∈ as, off < a.1) (has' : ∀ a ∈ as', off < a.1) :
    (match o with
      | none => as
      | some id => (off, id) :: as) =
      (match o' with
      | none => as'
      | some id => (off, id) :: as') ↔ o = o' ∧ as = as' := by
  cases o with
  | none =>
    cases o' with
    | none => simp
    | some id =>
      refine ⟨fun h => ?_, fun h => by cases h.1⟩
      have h : as = (off, id) :: as' := h
      exact absurd (has (off, id) (by rw [h]; exact List.mem_cons_self)) (lt_irrefl off)
  | some id =>
    cases o' with
    | none =>
      refine ⟨fun h => ?_, fun h => by cases h.1⟩
      have h : (off, id) :: as = as' := h
      exact absurd (has' (off, id) (by rw [← h]; exact List.mem_cons_self)) (lt_irrefl off)
    | some id' => simp

/-- The reader's acknowledgements are those of the records on the lines exactly on the lines on which
it answers. -/
theorem readAcks_eq_iff (swallowed : Bool) (off : ℕ) (ls : List Bytes) :
    readAcks swallowed off ls = lineAcks off ls ↔ Answerable swallowed ls := by
  induction ls generalizing off swallowed with
  | nil => cases swallowed <;> simp [readAcks, lineAcks, Answerable]
  | cons l ls ih =>
    have hread : ∀ b, ∀ a ∈ readAcks b (off + (l.length + 1)) ls, off < a.1 :=
      fun b a h => (Nat.lt_add_of_pos_right l.length.succ_pos).trans_le (le_of_mem_readAcks h)
    have hline : ∀ a ∈ lineAcks (off + (l.length + 1)) ls, off < a.1 :=
      fun a h => (Nat.lt_add_of_pos_right l.length.succ_pos).trans_le (le_of_mem_lineAcks h)
    have hnone : ∀ b, readAcks b (off + (l.length + 1)) ls = (match recordOn l with
        | none => lineAcks (off + (l.length + 1)) ls
        | some id => (off, id) :: lineAcks (off + (l.length + 1)) ls) ↔
        recordOn l = none ∧ Answerable b ls := by
      intro b
      rw [← ih, eq_comm (a := recordOn l)]
      exact acks_eq_iff (o := none) (hread b) hline
    rcases Nat.lt_or_ge (lineSize - 2) l.length with hlong | hshort
    · have hnot : ¬ l.length ≤ lineSize - 2 := Nat.not_le_of_lt hlong
      cases swallowed with
      | true =>
        rw [readAcks, lineAcks, Answerable, if_neg hnot, ih]
        exact ⟨fun h => ⟨fun hle => absurd hle hnot, h⟩, fun h => h.2⟩
      | false => rw [readAcks, lineAcks, Answerable, if_pos hlong, if_neg hnot, if_pos hlong, ih]
    · have hnot : ¬ lineSize - 2 < l.length := Nat.not_lt_of_le hshort
      cases swallowed with
      | true =>
        rw [readAcks, lineAcks, Answerable, if_pos hshort]
        exact (hnone false).trans (and_congr_left fun _ => ⟨fun h _ => h, fun h => h hshort⟩)
      | false =>
        rw [readAcks, lineAcks, Answerable, if_neg hnot, if_pos hshort, if_neg hnot]
        by_cases h0 : (0 : UInt8) ∈ l
        · rw [if_pos h0, if_pos h0]
          exact hnone true
        · rw [if_neg h0, if_neg h0, ← ih]
          exact acks_eq_iff (hread false) hline

/-- Over every stream: the reader acknowledges the record of each line of at most 198 bytes that has
one, once and in order, and nothing else, exactly when it answers on the lines of the stream. -/
theorem reader_framing (s : Bytes) :
    reader s = lineAcks 0 (lines s) ↔ Answerable false (lines s) := by
  rw [reader_eq]
  exact readAcks_eq_iff false 0 (lines s)

/-- A line with a NUL, and a ping after it. -/
def nulStream : Bytes := unlines [[120, 0, 121], ascii "DVMI2 2 7 P 0 0 0 0".toList] []

/-- The line with the NUL swallows the ping: nothing is acknowledged. -/
theorem reader_framing_nul : ¬ ∀ s : Bytes, reader s = lineAcks 0 (lines s) := by
  intro h
  have hacks := h nulStream
  revert hacks
  decide +kernel

end DarwinVm.Hid
