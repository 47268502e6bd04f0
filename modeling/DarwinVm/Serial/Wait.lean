import DarwinVm.Lib.Occurs
import Mathlib.Data.Finset.Card
import Mathlib.Data.List.Infix

/-!
# Waiting for text on the serial console

`wait_for_text` and `wait_for_markers` of `tools/serial.py` decode each chunk that `recv` returns on
its own, append it to a buffer, keep the last 16384 characters of the buffer (`tail`) and only then
search it. So they find a text that has an occurrence in the chunks, decoded one by one, which starts
at most 16384 characters before the end of a chunk (`Kept`), and they miss one that is cut inside a
character, or followed by too much in its own chunk. `waiting` says exactly for which streams and
splits the answer is whether the text occurs in the stream.

The printing and the logging of the lines are left out: no answer depends on them.
-/

namespace DarwinVm.Serial

/-- What a call of `s.recv(65536)` does: it returns bytes (none when the connection is closed), it
raises `BlockingIOError`, or it raises another `OSError`. -/
inductive Recv
  | data (chunk : Bytes)
  | blocked
  | reset

/-- `text[-n:]`. -/
def lastChars (n : ℕ) (t : Text) : Text := t.drop (t.length - n)

/-- `text[-16384:]`. -/
def tail (t : Text) : Text := lastChars 16384 t

/-- The search of the pattern `re.escape(p)`. -/
def literal (p t : Text) : Bool := p <:+: t

/-- The loop of `wait_for_text`, from a buffer, with what `recv` does until the deadline. -/
def textFrom (search : Text → Bool) : Text → List Recv → Bool
  | _, [] => false
  | buf, .blocked :: es => textFrom search buf es
  | _, .reset :: _ => false
  | buf, .data chunk :: es =>
    if chunk = [] then false
    else
      let buf := tail (buf ++ utf8DecodeReplace chunk)
      if search buf then true else textFrom search buf es

/-- The loop of `wait_for_markers`, from a buffer and a set of markers that were seen. -/
def markersFrom (wanted seen : Finset Text) : Text → List Recv → Bool
  | _, [] => false
  | buf, .blocked :: es => markersFrom wanted seen buf es
  | _, .reset :: _ => false
  | buf, .data chunk :: es =>
    if chunk = [] then false
    else
      let buf := tail (buf ++ utf8DecodeReplace chunk)
      let seen := seen ∪ wanted.filter (fun m => literal m buf)
      if seen.card = wanted.card then true else markersFrom wanted seen buf es

/-- `wait_for_text`. -/
def waitForText (search : Text → Bool) (es : List Recv) : Bool := textFrom search [] es

/-- `wait_for_markers`. -/
def waitForMarkers (markers : List Text) (es : List Recv) : Bool :=
  markersFrom markers.toFinset ∅ [] es

/-- The connection stays open: `recv` returns at least one byte, and at most 65536, or blocks. -/
def Open (es : List Recv) : Prop :=
  ∀ e ∈ es, e = .blocked ∨ ∃ chunk, e = .data chunk ∧ chunk ≠ [] ∧ chunk.length ≤ 65536

/-- The chunks that are received. -/
def received : List Recv → List Bytes
  | [] => []
  | .data chunk :: es => chunk :: received es
  | _ :: es => received es

/-- The text occurs in the decoded stream. -/
def Occurs (p : Text) (chunks : List Bytes) : Prop := p <:+: utf8DecodeReplace chunks.flatten

/-- The text occurs in the chunks, decoded one by one, and starts at most 16384 characters before the
end of a chunk. -/
def Kept (p : Text) (chunks : List Bytes) : Prop :=
  ∃ pre u v, pre ≠ [] ∧ pre <+: chunks ∧ pre.flatMap utf8DecodeReplace = u ++ p ++ v ∧
    (p ++ v).length ≤ 16384

/-! ## The buffer -/

/-- Only the last characters of what is appended to count. -/
theorem lastChars_append (n : ℕ) (t t' : Text) :
    lastChars n (lastChars n t ++ t') = lastChars n (t ++ t') := by
  unfold lastChars
  rw [List.length_append, List.length_drop, List.length_append]
  rcases Nat.le_total t.length n with h | h
  · rw [Nat.sub_eq_zero_of_le h, List.drop_zero, Nat.sub_zero]
  · have hlen : t.length - (t.length - n) + t'.length - n = t'.length := by omega
    have hsum : t.length + t'.length - n = (t.length - n) + t'.length := by omega
    rw [hlen, hsum, ← List.drop_drop, List.drop_append_of_le_length (Nat.sub_le ..)]

/-- A text occurs in the last characters if it starts there. -/
theorem infix_lastChars_iff {n : ℕ} {p t : Text} :
    p <:+: lastChars n t ↔ ∃ u v, t = u ++ p ++ v ∧ (p ++ v).length ≤ n := by
  unfold lastChars
  constructor
  · rintro ⟨x, v, h⟩
    refine ⟨t.take (t.length - n) ++ x, v, ?_, ?_⟩
    · rw [List.append_assoc, List.append_assoc, ← List.append_assoc x, h, List.take_append_drop]
    · have := congrArg List.length h
      rw [List.length_drop, List.length_append, List.length_append] at this
      rw [List.length_append]
      omega
  · rintro ⟨u, v, rfl, h⟩
    rw [List.append_assoc, List.length_append, List.drop_append_of_le_length (by omega)]
    exact ⟨_, v, by rw [List.append_assoc]⟩

theorem tail_append (t t' : Text) : tail (tail t ++ t') = tail (t ++ t') :=
  lastChars_append 16384 t t'

/-- The text is kept after the chunks that made `t`, when some of `chunks` come next. -/
def KeptAfter (t p : Text) (chunks : List Bytes) : Prop :=
  ∃ pre, pre ≠ [] ∧ pre <+: chunks ∧ p <:+: tail (t ++ pre.flatMap utf8DecodeReplace)

theorem keptAfter_nil_iff {p : Text} {chunks : List Bytes} :
    KeptAfter [] p chunks ↔ Kept p chunks := by
  simp only [KeptAfter, Kept, tail, List.nil_append, infix_lastChars_iff, ← exists_and_left]

/-- What is kept with one more chunk: what is in the buffer with it, and what is kept after it. -/
theorem keptAfter_cons_iff {t p : Text} {c : Bytes} {chunks : List Bytes} :
    KeptAfter t p (c :: chunks) ↔
      p <:+: tail (t ++ utf8DecodeReplace c) ∨ KeptAfter (t ++ utf8DecodeReplace c) p chunks := by
  constructor
  · rintro ⟨pre, hne, hpre, h⟩
    rw [List.prefix_cons_iff] at hpre
    obtain rfl | ⟨pre, rfl, hpre⟩ := hpre
    · exact absurd rfl hne
    · rw [List.flatMap_cons, ← List.append_assoc] at h
      obtain _ | ⟨c', pre⟩ := pre
      · rw [List.flatMap_nil, List.append_nil] at h
        exact Or.inl h
      · exact Or.inr ⟨c' :: pre, List.cons_ne_nil _ _, hpre, h⟩
  · rintro (h | ⟨pre, -, hpre, h⟩)
    · refine ⟨[c], List.cons_ne_nil _ _, ⟨chunks, rfl⟩, ?_⟩
      rwa [List.flatMap_singleton]
    · refine ⟨c :: pre, List.cons_ne_nil _ _, (List.prefix_cons_inj c).mpr hpre, ?_⟩
      rwa [List.flatMap_cons, ← List.append_assoc]

theorem not_keptAfter_nil {t p : Text} : ¬KeptAfter t p [] :=
  fun ⟨_, hne, hpre, _⟩ => hne (List.prefix_nil.mp hpre)

theorem Open.of_cons {e : Recv} {es : List Recv} (h : Open (e :: es)) : Open es :=
  fun e' he' => h e' (List.mem_cons_of_mem e he')

/-- A chunk that is received is not empty. -/
theorem Open.ne_nil {c : Bytes} {es : List Recv} (h : Open (.data c :: es)) : c ≠ [] := by
  obtain h | ⟨c', h, hne, -⟩ := h _ (List.mem_cons_self ..)
  · cases h
  · cases h
    exact hne

/-- The connection is not reset. -/
theorem Open.not_reset {es : List Recv} (h : Open (.reset :: es)) : False := by
  obtain h | ⟨c', h, -⟩ := h _ (List.mem_cons_self ..) <;> cases h

/-- `wait_for_text` finds what is kept. -/
theorem textFrom_iff {p : Text} : ∀ {es : List Recv} {t : Text}, Open es →
    (textFrom (literal p) (tail t) es = true ↔ KeptAfter t p (received es))
  | [], _, _ => iff_of_false Bool.false_ne_true not_keptAfter_nil
  | .blocked :: _, t, h => by
    have ih := textFrom_iff (p := p) (t := t) h.of_cons
    exact ih
  | .reset :: _, _, h => h.not_reset.elim
  | .data c :: es, t, h => by
    have ih := textFrom_iff (p := p) (t := t ++ utf8DecodeReplace c) h.of_cons
    rw [received, keptAfter_cons_iff, textFrom, if_neg h.ne_nil, tail_append, ← ih]
    unfold literal
    by_cases hp : p <:+: tail (t ++ utf8DecodeReplace c)
    · simp only [hp, decide_true, if_true, true_or]
    · simp only [hp, decide_false, Bool.false_eq_true, if_false, false_or]

/-- `wait_for_markers` finds the markers that it has not seen yet. -/
theorem markersFrom_iff {wanted : Finset Text} : ∀ {es : List Recv} {seen : Finset Text}
    {t : Text}, Open es → seen ⊆ wanted → (markersFrom wanted seen (tail t) es = true ↔
      received es ≠ [] ∧ ∀ m ∈ wanted, m ∈ seen ∨ KeptAfter t m (received es))
  | [], _, _, _, _ => iff_of_false Bool.false_ne_true fun h => h.1 rfl
  | .blocked :: _, _, t, h, hsub => by
    have ih := markersFrom_iff (t := t) h.of_cons hsub
    exact ih
  | .reset :: _, _, _, h, _ => h.not_reset.elim
  | .data c :: es, seen, t, h, hsub => by
    generalize hseen : seen ∪ wanted.filter (fun m => literal m (tail (t ++ utf8DecodeReplace c))) =
      seen'
    have hmem (m : Text) (hm : m ∈ wanted) :
        m ∈ seen ∨ KeptAfter t m (c :: received es) ↔
          m ∈ seen' ∨ KeptAfter (t ++ utf8DecodeReplace c) m (received es) := by
      rw [← hseen, Finset.mem_union, Finset.mem_filter, and_iff_right hm, keptAfter_cons_iff, literal,
        decide_eq_true_iff, or_assoc]
    have hsub' : seen' ⊆ wanted :=
      hseen ▸ Finset.union_subset hsub (Finset.filter_subset _ _)
    have ih := markersFrom_iff (t := t ++ utf8DecodeReplace c) h.of_cons hsub'
    rw [received, markersFrom, if_neg h.ne_nil, tail_append]
    dsimp only
    rw [hseen, forall₂_congr hmem]
    by_cases hall : seen'.card = wanted.card
    · rw [if_pos hall]
      have := Finset.eq_of_subset_of_card_le hsub' hall.ge
      exact iff_of_true rfl ⟨List.cons_ne_nil _ _, fun m hm => Or.inl (this ▸ hm)⟩
    · rw [if_neg hall, ih]
      refine and_congr_left fun hkept => iff_of_true (fun hnil => hall ?_) (List.cons_ne_nil _ _)
      -- A marker that is not seen yet is in a later chunk.
      refine congrArg _ (Finset.Subset.antisymm hsub' fun m hm => (hkept m hm).resolve_right ?_)
      rw [hnil]
      exact not_keptAfter_nil

/-! ## The answers -/

/-- The text is found if it occurs, and not found if it does not: an occurrence is kept, and if the
text has replacement characters, it is not made by a cut. -/
def Findable (p : Text) (chunks : List Bytes) : Prop :=
  (Occurs p chunks → Kept p chunks) ∧ (replacement ∈ p → Kept p chunks → Occurs p chunks)

/-- What is kept occurs in the chunks, decoded one by one. -/
theorem Kept.infix {p : Text} {chunks : List Bytes} (h : Kept p chunks) :
    p <:+: chunks.flatMap utf8DecodeReplace := by
  obtain ⟨pre, u, v, -, ⟨rest, rfl⟩, hp, -⟩ := h
  rw [List.flatMap_append, hp]
  exact ⟨u, v ++ rest.flatMap utf8DecodeReplace, by simp only [List.append_assoc]⟩

/-- A text without replacement characters that is kept occurs. -/
theorem Kept.occurs {p : Text} {chunks : List Bytes} (hp : replacement ∉ p) (h : Kept p chunks) :
    Occurs p chunks :=
  occurs_of_flatMap hp h.infix

theorem findable_iff {p : Text} {chunks : List Bytes} :
    Findable p chunks ↔ (Kept p chunks ↔ Occurs p chunks) := by
  constructor
  · rintro ⟨hkept, hoccurs⟩
    refine ⟨fun h => ?_, hkept⟩
    by_cases hp : replacement ∈ p
    · exact hoccurs hp h
    · exact h.occurs hp
  · exact fun h => ⟨h.mpr, fun _ => h.mp⟩

/-- The markers are found if all of them occur, and not if one does not. -/
def AllFindable (ms : List Text) (chunks : List Bytes) : Prop :=
  ((∀ m ∈ ms, Occurs m chunks) → chunks ≠ [] ∧ ∀ m ∈ ms, Kept m chunks) ∧
    ((∃ m ∈ ms, replacement ∈ m) → chunks ≠ [] ∧ (∀ m ∈ ms, Kept m chunks) →
      ∀ m ∈ ms, Occurs m chunks)

theorem allFindable_iff {ms : List Text} {chunks : List Bytes} : AllFindable ms chunks ↔
    (chunks ≠ [] ∧ (∀ m ∈ ms, Kept m chunks) ↔ ∀ m ∈ ms, Occurs m chunks) := by
  constructor
  · rintro ⟨hkept, hoccurs⟩
    refine ⟨fun h => ?_, hkept⟩
    by_cases hms : ∃ m ∈ ms, replacement ∈ m
    · exact hoccurs hms h
    · exact fun m hm => (h.2 m hm).occurs fun hr => hms ⟨m, hm, hr⟩
  · exact fun h => ⟨h.mpr, fun _ => h.mp⟩

/-- While the connection is open, `wait_for_text` says whether a text occurs in the stream exactly
when the text is findable in the chunks, and `wait_for_markers` whether all markers occur exactly
when all are. -/
theorem waiting {es : List Recv} (hes : Open es) :
    (∀ p, (waitForText (literal p) es = true ↔ Occurs p (received es)) ↔
        Findable p (received es)) ∧
      ∀ ms, (waitForMarkers ms es = true ↔ ∀ m ∈ ms, Occurs m (received es)) ↔
        AllFindable ms (received es) := by
  constructor
  · intro p
    have hwait := textFrom_iff (p := p) (t := []) hes
    rw [keptAfter_nil_iff] at hwait
    rw [findable_iff, ← hwait]
    rfl
  · intro ms
    have hwait := markersFrom_iff (t := []) hes (Finset.empty_subset ms.toFinset)
    simp only [List.mem_toFinset, Finset.notMem_empty, false_or, keptAfter_nil_iff] at hwait
    rw [allFindable_iff, ← hwait]
    rfl

/-- A text with `n` characters after it. -/
def flood (n : ℕ) : Bytes := utf8 (['o', 'k'] ++ List.replicate n '.')

theorem utf8_dots : ∀ n, utf8 (List.replicate n '.') = List.replicate n 46
  | 0 => rfl
  | n + 1 => by
    rw [List.replicate_succ, utf8_cons, utf8_dots n]
    rfl

theorem length_flood (n : ℕ) : (flood n).length = n + 2 := by
  rw [flood, utf8, List.flatMap_append, ← utf8, ← utf8, utf8_dots, List.length_append,
    List.length_replicate, Nat.add_comm]
  rfl

theorem open_flood {n : ℕ} (h : n ≤ 65534) : Open [.data (flood n)] := by
  intro e he
  obtain rfl := List.mem_singleton.mp he
  have hlen := length_flood n
  exact Or.inr ⟨_, rfl, List.ne_nil_of_length_pos (by omega), by omega⟩

/-- The text is not kept when the buffer holds only what comes after it. -/
theorem not_kept_flood {n : ℕ} (h : 16382 < n) : ¬Kept ['o', 'k'] [flood n] := by
  rintro ⟨pre, u, v, hne, hpre, huv, hlen⟩
  obtain rfl : pre = [flood n] := by
    rw [List.prefix_cons_iff] at hpre
    obtain rfl | ⟨pre, rfl, hpre⟩ := hpre
    · exact absurd rfl hne
    · rw [List.prefix_nil.mp hpre]
  rw [List.flatMap_singleton, flood, utf8DecodeReplace_utf8, List.append_assoc] at huv
  rw [List.length_append] at hlen
  have hok : ['o', 'k'].length = 2 := rfl
  match u with
  | [] =>
    have := List.append_cancel_left huv
    rw [← this, List.length_replicate] at hlen
    omega
  | a :: u =>
    -- The first letter occurs after the first character.
    have huv := (List.cons.inj huv).2
    have hmem : 'o' ∈ u ++ (['o', 'k'] ++ v) :=
      List.mem_append_right _ (List.mem_append_left _ (by decide))
    have huv' : 'k' :: List.replicate n '.' = u ++ (['o', 'k'] ++ v) := huv
    rw [← huv'] at hmem
    obtain h | h := List.mem_cons.mp hmem
    · exact absurd h (by decide)
    · exact absurd (List.eq_of_mem_replicate h) (by decide)

/-- What is waited for in a flood that fits the buffer. -/
theorem waiting_flood : Open [.data (flood 5)] ∧
    (∀ p, (waitForText (literal p) [.data (flood 5)] = true ↔ Occurs p [flood 5]) ↔
        Findable p [flood 5]) ∧
      ∀ ms, (waitForMarkers ms [.data (flood 5)] = true ↔ ∀ m ∈ ms, Occurs m [flood 5]) ↔
        AllFindable ms [flood 5] :=
  ⟨open_flood (by norm_num), waiting (open_flood (by norm_num))⟩

/-- A text that occurs is not found. -/
theorem not_waiting : ¬∀ es, Open es →
    (∀ p, waitForText (literal p) es = true ↔ Occurs p (received es)) ∧
      ∀ ms, waitForMarkers ms es = true ↔ ∀ m ∈ ms, Occurs m (received es) := by
  intro h
  have hopen : Open [.data (flood 16383)] := open_flood (by norm_num)
  have hocc : Occurs ['o', 'k'] [flood 16383] := by
    rw [Occurs, List.flatten_singleton, flood, utf8DecodeReplace_utf8]
    exact (List.prefix_append _ _).isInfix
  have hfrom := textFrom_iff (p := ['o', 'k']) (t := []) hopen
  rw [keptAfter_nil_iff] at hfrom
  exact not_kept_flood (by norm_num) (hfrom.mp (((h _ hopen).1 _).mpr hocc))

/-- The two bytes of a character, whole and cut. -/
example : waitForText (literal "é".toList) [.data [0xC3, 0xA9]] = true ∧
    waitForText (literal "é".toList) [.data [0xC3], .data [0xA9]] = false := by
  decide +kernel

/-! ## Whole texts -/

theorem utf8_flatten : ∀ ts : List Text, utf8 ts.flatten = (ts.map utf8).flatten
  | [] => rfl
  | t :: ts => by
    rw [List.flatten_cons, List.map_cons, List.flatten_cons, ← utf8_flatten ts]
    exact List.flatMap_append

/-- Chunks of whole texts are decoded to the texts. -/
theorem flatMap_utf8 (ts : List Text) : (ts.map utf8).flatMap utf8DecodeReplace = ts.flatten := by
  rw [List.flatMap_map, List.flatMap_def]
  simp only [utf8DecodeReplace_utf8, List.map_id']

/-- A text that occurs in texts, one after another, ends in one of them. -/
theorem exists_prefix_of_infix {p : Text} (hp : p ≠ []) : ∀ {ts : List Text} (t : Text),
    ¬p <:+: t → p <:+: t ++ ts.flatten →
      ∃ pre x u v, pre ++ [x] <+: ts ∧ t ++ (pre ++ [x]).flatten = u ++ p ++ v ∧ v.length < x.length
  | [], t, hno, h => absurd (by simpa using h) hno
  | x :: ts, t, hno, h => by
    by_cases hx : p <:+: t ++ x
    · obtain ⟨u, v, huv⟩ := hx
      refine ⟨[], x, u, v, ⟨ts, rfl⟩, by simpa using huv.symm, ?_⟩
      -- Otherwise `p` would end in `t`.
      refine Nat.lt_of_not_le fun hle => hno ?_
      obtain ⟨w, hw⟩ : ∃ w, t = u ++ p ++ w := by
        have : u ++ p <+: t := by
          apply List.prefix_of_prefix_length_le
          · exact ⟨v, huv⟩
          · exact List.prefix_append t x
          · have := congrArg List.length huv
            simp only [List.length_append] at this ⊢
            omega
        exact this.imp fun _ h => h.symm
      exact ⟨u, w, hw.symm⟩
    · have h' : p <:+: (t ++ x) ++ ts.flatten := by
        rwa [List.flatten_cons, ← List.append_assoc] at h
      obtain ⟨pre, y, u, v, hpre, huv, hlt⟩ := exists_prefix_of_infix hp (t ++ x) hx h'
      refine ⟨x :: pre, y, u, v, (List.prefix_cons_inj x).mpr hpre, ?_, hlt⟩
      rw [← huv, List.cons_append, List.flatten_cons, List.append_assoc]

/-- A text is findable in any split of a stream into whole texts that are not too long. -/
theorem findable_of_texts {p : Text} (hp : p ≠ []) {ts : List Text}
    (hts : ∀ t ∈ ts, p.length + t.length ≤ 16385) : Findable p (ts.map utf8) := by
  have hocc : Occurs p (ts.map utf8) ↔ p <:+: ts.flatten := by
    rw [Occurs, ← utf8_flatten, utf8DecodeReplace_utf8]
  refine findable_iff.mpr ⟨fun h => ?_, fun h => ?_⟩
  · have := h.infix
    rwa [flatMap_utf8, ← hocc] at this
  · rw [hocc, ← List.nil_append ts.flatten] at h
    have hno : ¬p <:+: [] := fun h => hp (List.infix_nil.mp h)
    obtain ⟨pre, x, u, v, hpre, huv, hlt⟩ := exists_prefix_of_infix hp [] hno h
    have hx := hts x (hpre.subset (by simp))
    refine ⟨(pre ++ [x]).map utf8, u, v, by simp, hpre.map utf8, ?_, ?_⟩
    · rw [flatMap_utf8, ← huv, List.nil_append]
    · rw [List.length_append]
      omega

end DarwinVm.Serial
