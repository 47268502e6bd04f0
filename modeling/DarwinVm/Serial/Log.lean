import DarwinVm.Lib.Lines
import DarwinVm.Serial.Wait
import Mathlib.Data.List.Flatten

/-!
# What the console readers log

`drain`, `wait_for_text` and `wait_for_markers` of `tools/serial.py` write each line that they
receive to the log without the carriage returns at its end, and the bytes of an unfinished line when
they return (`Call.run`). But the two waits return without those bytes when the connection is gone,
and a line that is received by two calls is decoded in two parts, each without the other.
`log_lossless` says for which calls the log is the text of all received bytes without the carriage
returns before a line feed: every line that a call leaves unfinished has to be such that nothing is
lost by it (`LinesOk`).

The printing of the lines is left out: nothing depends on it.
-/

namespace DarwinVm.Serial.Log

/-- `text.rstrip('\r')`. -/
def rstripCr (t : Text) : Text := t.rdropWhile (· = '\r')

/-- The loop `while b'\n' in buf`, with the bytes of the buffer that were looked at and are no line
yet: the lines, and what is left in the buffer. -/
def lines (line : Bytes) : Bytes → List Text × Bytes
  | [] => ([], line)
  | b :: buf =>
    if b = 10 then
      let r := lines [] buf
      (rstripCr (utf8DecodeReplace line) :: r.1, r.2)
    else lines (line ++ [b]) buf

/-- What is written to the log for the lines. -/
def logged (ls : List Text) : Text := ls.flatMap (· ++ ['\n'])

/-- A call that returned: its result, what it wrote to the log, and what `recv` did in it. -/
structure Outcome (α : Type) where
  /-- What is returned. -/
  result : α
  /-- What is written to the log. -/
  log : Text
  /-- What `recv` did until the call returned. -/
  read : List Recv

/-- One more `recv` before the rest of a call, with the lines that are logged in between. -/
def Outcome.after {α : Type} (e : Recv) (ls : List Text) (o : Outcome α) : Outcome α :=
  { o with log := logged ls ++ o.log, read := e :: o.read }

/-- The loop of `drain`, from a buffer and what is shown, with what `recv` does until the deadline or
until it was idle for too long. The lines for which `drops` holds are not shown. -/
def drainFrom (drops : Text → Bool) : List Text → Bytes → List Recv → Outcome (List Text)
  | shown, buf, [] => leave shown buf []
  | shown, buf, .blocked :: es =>
    let (ls, buf) := lines [] buf
    .after .blocked ls (drainFrom drops (shown ++ ls.filter (!drops ·)) buf es)
  | shown, buf, .reset :: _ => leave shown buf [.reset]
  | shown, buf, .data chunk :: es =>
    let (ls, buf) := lines [] (buf ++ chunk)
    .after (.data chunk) ls (drainFrom drops (shown ++ ls.filter (!drops ·)) buf es)
where
  /-- What `drain` does after its loop. -/
  leave (shown : List Text) (buf : Bytes) (read : List Recv) : Outcome (List Text) :=
    let text := utf8DecodeReplace buf
    ⟨if buf = [] ∨ drops text then shown else shown ++ [text], text, read⟩

/-- `drain`. -/
def drain (drops : Text → Bool) (es : List Recv) : Outcome (List Text) := drainFrom drops [] [] es

variable {σ : Type}

/-- The loop of `wait_for_text` and `wait_for_markers`, from what they keep of the texts and a buffer,
with what `recv` does until the deadline. -/
def waitFrom (next : σ → Text → σ) (stop : σ → Bool) : σ → Bytes → List Recv → Outcome Bool
  | _, lineBuf, [] => ⟨false, utf8DecodeReplace lineBuf, []⟩
  | st, lineBuf, .blocked :: es => .after .blocked [] (waitFrom next stop st lineBuf es)
  | _, _, .reset :: _ => ⟨false, [], [.reset]⟩
  | st, lineBuf, .data chunk :: es =>
    if chunk = [] then ⟨false, [], [.data []]⟩
    else
      let st := next st (utf8DecodeReplace chunk)
      let (ls, lineBuf) := lines [] (lineBuf ++ chunk)
      if stop st then .after (.data chunk) ls ⟨true, utf8DecodeReplace lineBuf, []⟩
      else .after (.data chunk) ls (waitFrom next stop st lineBuf es)

/-- `wait_for_text`. -/
def waitForText (search : Text → Bool) (es : List Recv) : Outcome Bool :=
  waitFrom (fun buf t => tail (buf ++ t)) search [] [] es

/-- What `wait_for_markers` keeps: the buffer, and the markers that were seen. -/
def seeMarkers (wanted : Finset Text) (st : Text × Finset Text) (t : Text) : Text × Finset Text :=
  let buf := tail (st.1 ++ t)
  (buf, st.2 ∪ wanted.filter (fun m => literal m buf))

/-- `wait_for_markers`. -/
def waitForMarkers (markers : List Text) (es : List Recv) : Outcome Bool :=
  waitFrom (seeMarkers markers.toFinset) (fun st => st.2.card = markers.toFinset.card) ([], ∅) [] es

/-- A call of one of the readers, with what `recv` does for it. -/
inductive Call
  | drain (drops : Text → Bool) (es : List Recv)
  | waitForText (search : Text → Bool) (es : List Recv)
  | waitForMarkers (markers : List Text) (es : List Recv)

/-- What a call writes to the log. -/
def Call.log : Call → Text
  | .drain drops es => (Log.drain drops es).log
  | .waitForText search es => (Log.waitForText search es).log
  | .waitForMarkers markers es => (Log.waitForMarkers markers es).log

/-- What `recv` did until a call returned. -/
def Call.read : Call → List Recv
  | .drain drops es => (Log.drain drops es).read
  | .waitForText search es => (Log.waitForText search es).read
  | .waitForMarkers markers es => (Log.waitForMarkers markers es).read

/-- The bytes that a call received. -/
def Call.received (c : Call) : Bytes := (Serial.received c.read).flatten

/-- The connection is gone: it is closed or reset. -/
def gone : Recv → Bool
  | .data chunk => chunk = []
  | .blocked => false
  | .reset => true

/-- A call flushes its buffer: `drain` does, and the others if the connection was not gone. -/
def Call.flushes : Call → Bool
  | .drain _ _ => true
  | c => !c.read.any gone

/-! ## What should be logged -/

/-- The text without the carriage returns that are directly before a line feed. -/
def dropCr : Text → Text
  | [] => []
  | c :: t => if c = '\r' ∧ (t.dropWhile (· = '\r')).head? = some '\n' then dropCr t else c :: dropCr t

/-- A part of a line: what one call received of it, and whether the call flushes its buffer. -/
structure Part where
  /-- The bytes. -/
  bytes : Bytes
  /-- The call flushes its buffer. -/
  flushed : Bool

/-- What the calls wrote to the log of the parts of an unfinished line. -/
def written (parts : List Part) : Text :=
  parts.flatMap fun p => if p.flushed then utf8DecodeReplace p.bytes else []

/-- The bytes of the parts. -/
def bytesOf (parts : List Part) : Bytes := parts.flatMap Part.bytes

/-- No bytes were left in the buffer when a call returned. -/
def Flushed (parts : List Part) : Prop := ∀ p ∈ parts, p.flushed ∨ p.bytes = []

/-- The last line of the stream, which is not finished: it is cut between characters. If a call lost
a part of it, the other parts have to make up its text. -/
def EndOk (parts : List Part) : Prop :=
  (Flushed parts → Seams (parts.map Part.bytes)) ∧
    (¬Flushed parts → written parts = utf8DecodeReplace (bytesOf parts))

/-- A line of which earlier calls received `parts`, and which a call finishes with the bytes `last`
before a line feed: it is cut between characters, and not in the carriage returns at its end. If a
call lost a part of it, the other parts have to make up its text. -/
def LineOk (parts : List Part) (last : Bytes) : Prop :=
  (Flushed parts → Seams (parts.map Part.bytes ++ [last]) ∧
    ((∀ b ∈ last, b = 13) → (bytesOf parts).getLast? ≠ some 13)) ∧
    (¬Flushed parts → written parts ++ rstripCr (utf8DecodeReplace last) =
      rstripCr (utf8DecodeReplace (bytesOf parts ++ last)))

/-- Every line that is cut is logged as it should be, when calls received `parts` of a line before. -/
def LinesOk : List Part → List Call → Prop
  | parts, [] => EndOk parts
  | parts, c :: cs =>
    if 10 ∈ c.received then
      LineOk parts (c.received.takeWhile (· ≠ 10)) ∧
        LinesOk [⟨c.received.rtakeWhile (· ≠ 10), c.flushes⟩] cs
    else LinesOk (parts ++ [⟨c.received, c.flushes⟩]) cs

/-! ## Lines -/

/-- What is in the buffer first is looked at first. -/
theorem lines_append (a b : Bytes) : ∀ line, lines line (a ++ b) =
    ((lines line a).1 ++ (lines (lines line a).2 b).1, (lines (lines line a).2 b).2) := by
  induction a with
  | nil => exact fun _ => rfl
  | cons c a ih =>
    intro line
    rw [List.cons_append, lines, lines]
    split_ifs
    · rw [ih, List.cons_append]
    · rw [ih]

/-- Bytes without a line feed are no line yet. -/
theorem lines_of_notMem : ∀ {s : Bytes} (line : Bytes), 10 ∉ s → lines line s = ([], line ++ s)
  | [], line, _ => by rw [lines, List.append_nil]
  | b :: s, line, h => by
    rw [List.mem_cons, not_or] at h
    rw [lines, if_neg (Ne.symm h.1), lines_of_notMem _ h.2, List.append_assoc, List.singleton_append]

/-- The bytes up to a line feed are a line. -/
theorem lines_cons {l : Bytes} (hl : 10 ∉ l) (line s : Bytes) : lines line (l ++ 10 :: s) =
    (rstripCr (utf8DecodeReplace (line ++ l)) :: (lines [] s).1, (lines [] s).2) := by
  rw [lines_append, lines_of_notMem line hl, lines, if_pos rfl, List.nil_append]

/-- The buffer holds what was looked at. -/
theorem lines_buffer {line : Bytes} (h : 10 ∉ line) (s : Bytes) :
    lines [] (line ++ s) = lines line s := by
  rw [lines_append, lines_of_notMem [] h, List.nil_append, List.nil_append]

/-- What is left in the buffer has no line feed. -/
theorem notMem_lines : ∀ (s : Bytes) {line : Bytes}, 10 ∉ line → 10 ∉ (lines line s).2
  | [], _, h => h
  | b :: s, line, h => by
    rw [lines]
    split_ifs with hb
    · exact notMem_lines s (List.not_mem_nil)
    · refine notMem_lines s ?_
      rw [List.mem_append, List.mem_singleton, not_or]
      exact ⟨h, Ne.symm hb⟩

/-- What is left after the last line feed. -/
theorem lines_eq_rtakeWhile (s : Bytes) : (lines [] s).2 = s.rtakeWhile (· ≠ 10) := by
  induction s using List.reverseRecOn with
  | nil => rfl
  | append_singleton s b ih =>
    rw [lines_append, List.rtakeWhile_concat, ih, lines]
    by_cases hb : b = 10
    · subst hb
      rfl
    · rw [if_neg hb, if_pos (decide_eq_true hb), lines]

/-- The carriage returns are stripped before or after the line is decoded. -/
theorem rstripCr_decode (s : Bytes) :
    rstripCr (utf8DecodeReplace s) = utf8DecodeReplace (s.rdropWhile (· = 13)) :=
  rdropWhile_cr_decode s

/-! ## The text without carriage returns -/

/-- Nothing is dropped from a text without line feeds. -/
theorem dropCr_of_notMem : ∀ {t : Text}, '\n' ∉ t → dropCr t = t
  | [], _ => rfl
  | c :: t, h => by
    rw [List.mem_cons, not_or] at h
    have hhead : (t.dropWhile (· = '\r')).head? ≠ some '\n' := by
      intro hsome
      exact h.2 ((List.dropWhile_sublist _).subset (List.mem_of_mem_head? hsome))
    rw [dropCr, if_neg (fun hc => hhead hc.2), dropCr_of_notMem h.2]

/-- Carriage returns are dropped if only carriage returns come before the line feed. -/
theorem head?_dropWhile_eq_iff (t : Text) : ∀ {l : Text}, '\n' ∉ l →
    (((l ++ '\n' :: t).dropWhile (· = '\r')).head? = some '\n' ↔ ∀ c ∈ l, c = '\r')
  | [], _ => iff_of_true rfl (List.forall_mem_nil _)
  | c :: l, h => by
    rw [List.mem_cons, not_or] at h
    have ih := head?_dropWhile_eq_iff t h.2
    rw [List.forall_mem_cons, ← ih, List.cons_append]
    by_cases hc : c = '\r'
    · rw [List.dropWhile_cons_of_pos (by simpa using hc), and_iff_right hc]
    · rw [List.dropWhile_cons_of_neg (by simpa using hc), List.head?_cons, Option.some.injEq]
      exact iff_of_false (Ne.symm h.1) (fun hl => hc hl.1)

/-- The carriage returns at the end of a text that starts with a character. -/
theorem rstripCr_cons (c : Char) (t : Text) :
    rstripCr (c :: t) = if c = '\r' ∧ ∀ d ∈ t, d = '\r' then [] else c :: rstripCr t := by
  induction t using List.reverseRecOn with
  | nil =>
    rw [rstripCr, List.rdropWhile_singleton]
    simp [rstripCr]
  | append_singleton t d ih =>
    unfold rstripCr at ih ⊢
    rw [← List.cons_append, List.rdropWhile_concat, List.rdropWhile_concat, ih]
    by_cases hd : d = '\r'
    · simp [hd, or_imp]
    · simp [hd]

/-- A line loses the carriage returns at its end. -/
theorem dropCr_line (t : Text) : ∀ {l : Text}, '\n' ∉ l →
    dropCr (l ++ '\n' :: t) = rstripCr l ++ '\n' :: dropCr t
  | [], _ => by
    rw [List.nil_append, dropCr, if_neg (fun h => absurd h.1 (by decide))]
    rfl
  | c :: l, h => by
    rw [List.mem_cons, not_or] at h
    have ih := dropCr_line t h.2
    have hhead := head?_dropWhile_eq_iff t h.2
    rw [List.cons_append, dropCr, rstripCr_cons, ih]
    by_cases hall : c = '\r' ∧ ∀ d ∈ l, d = '\r'
    · have hnil : rstripCr l = [] := List.rdropWhile_eq_nil_iff.mpr (by simpa using hall.2)
      rw [if_pos (hall.imp_right hhead.mpr), if_pos hall, hnil]
    · rw [if_neg (fun h => hall (h.imp_right hhead.mp)), if_neg hall, List.cons_append]

/-- What should be logged: the lines, and what is left. -/
theorem dropCr_decode {line : Bytes} (hline : 10 ∉ line) (s : Bytes) :
    dropCr (utf8DecodeReplace (line ++ s)) =
      logged (lines line s).1 ++ utf8DecodeReplace (lines line s).2 := by
  induction s generalizing line with
  | nil =>
    rw [List.append_nil, lines, dropCr_of_notMem (lineFeed_notMem_decode hline)]
    rfl
  | cons b s ih =>
    rw [lines]
    split_ifs with hb
    · have ih := ih List.not_mem_nil
      subst hb
      rw [decode_lineFeed, dropCr_line _ (lineFeed_notMem_decode hline), ← List.nil_append s, ih]
      simp only [logged, List.flatMap_cons, List.nil_append, List.append_assoc,
        List.cons_append]
    · rw [← List.singleton_append, ← List.append_assoc]
      refine ih ?_
      rw [List.mem_append, List.mem_singleton, not_or]
      exact ⟨hline, Ne.symm hb⟩

/-! ## Calls -/

/-- A call that starts with `line` in its buffer logs the lines that it receives, and what is left if
it flushes its buffer. -/
def Logs {α : Type} (line : Bytes) (flushes : Bool) (o : Outcome α) : Prop :=
  let r := lines line (Serial.received o.read).flatten
  o.log = logged r.1 ++ if flushes then utf8DecodeReplace r.2 else []

theorem Logs.data {α : Type} {line chunk : Bytes} {flushes : Bool} {o : Outcome α}
    (h : Logs (lines line chunk).2 flushes o) :
    Logs line flushes (o.after (.data chunk) (lines line chunk).1) := by
  unfold Logs at h ⊢
  dsimp only [Outcome.after] at h ⊢
  rw [h, Serial.received, List.flatten_cons, lines_append]
  simp only [logged, List.flatMap_append, List.append_assoc]

theorem Logs.blocked {α : Type} {line : Bytes} {flushes : Bool} {o : Outcome α}
    (h : Logs line flushes o) : Logs line flushes (o.after .blocked []) := h

/-- `drain` flushes its buffer. -/
theorem logs_drainFrom (drops : Text → Bool) : ∀ (es : List Recv) (shown : List Text) {buf : Bytes},
    10 ∉ buf → Logs buf true (drainFrom drops shown buf es)
  | [], _, _, _ => rfl
  | .reset :: _, _, _, _ => rfl
  | .blocked :: es, shown, buf, h => by
    rw [drainFrom, lines_of_notMem [] h]
    exact (logs_drainFrom drops es _ h).blocked
  | .data chunk :: es, shown, buf, h => by
    rw [drainFrom, lines_buffer h]
    exact (logs_drainFrom drops es _ (notMem_lines chunk h)).data

theorem any_gone_after {α : Type} {e : Recv} (he : gone e = false) (ls : List Text)
    (o : Outcome α) : (o.after e ls).read.any gone = o.read.any gone := by
  rw [Outcome.after, List.any_cons, he, Bool.false_or]

/-- A wait flushes its buffer if the connection is not gone. -/
theorem logs_waitFrom (next : σ → Text → σ) (stop : σ → Bool) : ∀ (es : List Recv) (st : σ)
    {buf : Bytes}, 10 ∉ buf →
      Logs buf (!(waitFrom next stop st buf es).read.any gone) (waitFrom next stop st buf es)
  | [], _, _, _ => rfl
  | .reset :: _, _, _, _ => rfl
  | .blocked :: es, st, buf, h => (logs_waitFrom next stop es st h).blocked
  | .data chunk :: es, st, buf, h => by
    rw [waitFrom, lines_buffer h]
    by_cases hchunk : chunk = []
    · -- The connection is closed.
      rw [if_pos hchunk]
      rfl
    · have hgone : gone (.data chunk) = false := decide_eq_false hchunk
      rw [if_neg hchunk]
      dsimp only
      split_ifs
      · have hleft : Logs (lines buf chunk).2 true
          (⟨true, utf8DecodeReplace (lines buf chunk).2, []⟩ : Outcome Bool) := rfl
        rw [any_gone_after hgone]
        exact hleft.data
      · have ih := logs_waitFrom next stop es (next st (utf8DecodeReplace chunk))
          (notMem_lines chunk h)
        rw [any_gone_after hgone]
        exact ih.data

/-- A call logs the lines that it receives, and what is left if it flushes its buffer. -/
theorem Call.log_eq (c : Call) : c.log = logged (lines [] c.received).1 ++
    if c.flushes then utf8DecodeReplace (lines [] c.received).2 else [] := by
  cases c with
  | drain drops es => exact logs_drainFrom drops es [] List.not_mem_nil
  | waitForText search es => exact logs_waitFrom _ _ es _ List.not_mem_nil
  | waitForMarkers ms es => exact logs_waitFrom _ _ es _ List.not_mem_nil

/-- The answer of `wait_for_text` does not depend on the log. -/
theorem waitForText_result (search : Text → Bool) (es : List Recv) :
    (waitForText search es).result = Serial.waitForText search es := by
  unfold waitForText Serial.waitForText
  generalize ([] : Text) = t, ([] : Bytes) = buf
  induction es generalizing t buf with
  | nil => rfl
  | cons e es ih =>
    cases e with
    | blocked => exact ih t buf
    | reset => rfl
    | data chunk =>
      rw [waitFrom, textFrom]
      dsimp only
      split_ifs
      · rfl
      · rfl
      · exact ih _ _

/-- The answer of `wait_for_markers` does not depend on the log. -/
theorem waitForMarkers_result (markers : List Text) (es : List Recv) :
    (waitForMarkers markers es).result = Serial.waitForMarkers markers es := by
  unfold waitForMarkers Serial.waitForMarkers
  generalize ([] : Text) = t, ([] : Bytes) = buf, (∅ : Finset Text) = seen
  induction es generalizing t buf seen with
  | nil => rfl
  | cons e es ih =>
    cases e with
    | blocked => exact ih t buf seen
    | reset => rfl
    | data chunk =>
      rw [waitFrom, markersFrom]
      dsimp only [seeMarkers]
      simp only [decide_eq_true_eq]
      split_ifs
      · rfl
      · rfl
      · exact ih _ _ _

/-! ## Lines that are cut -/

theorem written_append (parts : List Part) (p : Part) : written (parts ++ [p]) =
    written parts ++ if p.flushed then utf8DecodeReplace p.bytes else [] := by
  rw [written, List.flatMap_append, List.flatMap_singleton]
  rfl

theorem bytesOf_append (parts : List Part) (p : Part) :
    bytesOf (parts ++ [p]) = bytesOf parts ++ p.bytes := by
  rw [bytesOf, List.flatMap_append, List.flatMap_singleton]
  rfl

/-- If no part is lost, each is decoded. -/
theorem written_of_flushed {parts : List Part} (h : Flushed parts) :
    written parts = (parts.map Part.bytes).flatMap utf8DecodeReplace := by
  rw [written, List.flatMap_map]
  refine List.flatMap_congr fun p hp => ?_
  obtain hf | hnil := h p hp
  · rw [if_pos hf]
  · rw [hnil, utf8DecodeReplace_nil, ite_self]

theorem bytesOf_eq (parts : List Part) : bytesOf parts = (parts.map Part.bytes).flatten := by
  rw [bytesOf, List.flatMap_def]

/-- What the last line needs. -/
theorem endOk_iff (parts : List Part) :
    EndOk parts ↔ written parts = utf8DecodeReplace (bytesOf parts) := by
  unfold EndOk
  by_cases h : Flushed parts
  · rw [written_of_flushed h, bytesOf_eq, flatMap_eq_iff]
    exact ⟨fun hok => hok.1 h, fun hok => ⟨fun _ => hok, fun hnot => absurd h hnot⟩⟩
  · exact ⟨fun hok => hok.2 h, fun hok => ⟨fun hf => absurd hf h, fun _ => hok⟩⟩

theorem bytesOf_cons (p : Part) (parts : List Part) :
    bytesOf (p :: parts) = p.bytes ++ bytesOf parts :=
  List.flatMap_cons ..

theorem length_bytesOf_filter_le (parts : List Part) :
    (bytesOf (parts.filter Part.flushed)).length ≤ (bytesOf parts).length :=
  (List.filter_sublist.flatMap Part.bytes).length_le

/-- A part that was lost is missed in the length of the parts that were not. -/
theorem flushed_of_length : ∀ {parts : List Part},
    (bytesOf parts).length ≤ (bytesOf (parts.filter Part.flushed)).length → Flushed parts
  | [], _ => List.forall_mem_nil _
  | p :: parts, h => by
    have hle := length_bytesOf_filter_le parts
    rw [bytesOf_cons, List.length_append, List.filter_cons] at h
    unfold Flushed
    rw [List.forall_mem_cons]
    split_ifs at h with hp
    · rw [bytesOf_cons, List.length_append] at h
      exact ⟨Or.inl hp, flushed_of_length (by omega)⟩
    · exact ⟨Or.inr (List.eq_nil_of_length_eq_zero (by omega)), flushed_of_length (by omega)⟩

/-- What is written of the parts that were not lost. -/
theorem written_eq_flatMap : ∀ parts : List Part, written parts =
    ((parts.filter Part.flushed).map Part.bytes).flatMap utf8DecodeReplace
  | [] => rfl
  | p :: parts => by
    have ih := written_eq_flatMap parts
    rw [written] at ih ⊢
    rw [List.flatMap_cons, ih, List.filter_cons]
    split_ifs
    · rw [List.map_cons, List.flatMap_cons]
    · rw [List.nil_append]

/-- If a part of the last line is lost, the line is not logged as it should be, unless it is not
UTF-8. -/
theorem EndOk.flushed {parts : List Part} (h : EndOk parts)
    (htext : replacement ∉ utf8DecodeReplace (bytesOf parts)) : Flushed parts := by
  rw [endOk_iff, written_eq_flatMap] at h
  have hread := reads_flatten ((parts.filter Part.flushed).map Part.bytes)
  have hall : Reads (bytesOf parts) (utf8DecodeReplace (bytesOf parts)) :=
    reads_utf8ReplaceUpTo le_rfl
  rw [h, ← bytesOf_eq] at hread
  -- The parts that were not lost are all bytes.
  have hbytes := (hread.eq_utf8 htext).trans (hall.eq_utf8 htext).symm
  apply flushed_of_length
  rw [hbytes]

/-- What is stripped from bytes that do not end in carriage returns only. -/
theorem rdropWhile_append {u v : Bytes} (h : ¬∀ b ∈ v, b = 13) :
    (u ++ v).rdropWhile (· = 13) = u ++ v.rdropWhile (· = 13) := by
  have hne : ¬((v.reverse.dropWhile (· = 13)).isEmpty = true) := by
    rw [List.isEmpty_iff, List.dropWhile_eq_nil_iff]
    simpa using h
  rw [List.rdropWhile, List.rdropWhile, List.reverse_append, List.dropWhile_append, if_neg hne,
    List.reverse_append, List.reverse_reverse]

/-- What is stripped from bytes that end in carriage returns only. -/
theorem rdropWhile_append_crs (u : Bytes) {v : Bytes} (h : ∀ b ∈ v, b = 13) :
    (u ++ v).rdropWhile (· = 13) = u.rdropWhile (· = 13) := by
  have hnil : (v.reverse.dropWhile (· = 13)).isEmpty = true := by
    rw [List.isEmpty_iff, List.dropWhile_eq_nil_iff]
    simpa using h
  rw [List.rdropWhile, List.rdropWhile, List.reverse_append, List.dropWhile_append, if_pos hnil]

/-- Parts that are decoded one by one give no stripped text if they end in carriage returns. -/
theorem flatMap_eq_stripped_iff (us : List Bytes) :
    us.flatMap utf8DecodeReplace = utf8DecodeReplace (us.flatten.rdropWhile (· = 13)) ↔
      us.flatMap utf8DecodeReplace = utf8DecodeReplace us.flatten ∧
        us.flatten.getLast? ≠ some 13 := by
  obtain ⟨n, hn⟩ := exists_replicate_rdropWhile 13 us.flatten
  obtain _ | n := n
  · -- There are none.
    rw [List.replicate_zero, List.append_nil] at hn
    rw [← hn]
    refine (and_iff_left fun hlast => ?_).symm
    obtain ⟨u, hu⟩ := List.getLast?_eq_some_iff.mp hlast
    rw [hu, List.rdropWhile_concat_pos _ _ _ (by decide)] at hn
    have hlen := congrArg List.length hn
    have hpre := (List.rdropWhile_prefix (p := (· = 13)) (l := u)).length_le
    rw [List.length_append, List.length_singleton] at hlen
    omega
  · refine iff_of_false (fun h => ?_) (fun h => h.2 ?_)
    · have hle := length_utf8DecodeReplace_flatten_le us
      have hcrs := decode_crs (us.flatten.rdropWhile (· = 13)) (n + 1)
      rw [← hn] at hcrs
      rw [h, hcrs, List.length_append, List.length_replicate] at hle
      omega
    · rw [hn, List.replicate_succ', ← List.append_assoc, List.getLast?_concat]

/-- A line of which nothing was lost. -/
theorem lineOk_flushed_iff (us : List Bytes) (last : Bytes) :
    us.flatMap utf8DecodeReplace ++ rstripCr (utf8DecodeReplace last) =
        rstripCr (utf8DecodeReplace (us.flatten ++ last)) ↔
      Seams (us ++ [last]) ∧ ((∀ b ∈ last, b = 13) → us.flatten.getLast? ≠ some 13) := by
  rw [rstripCr_decode, rstripCr_decode, ← flatMap_eq_iff, List.flatMap_append, List.flatten_append,
    List.flatMap_singleton, List.flatten_singleton]
  obtain ⟨n, hn⟩ := exists_replicate_rdropWhile 13 last
  by_cases hall : ∀ b ∈ last, b = 13
  · -- The carriage returns at the end of the line may begin in the parts.
    have hnil : last.rdropWhile (· = 13) = [] := List.rdropWhile_eq_nil_iff.mpr (by simpa using hall)
    rw [hnil, List.nil_append] at hn
    have hlast := decode_crs [] n
    have hline := decode_crs us.flatten n
    rw [List.nil_append, ← hn, utf8DecodeReplace_nil, List.nil_append] at hlast
    rw [← hn, ← hlast] at hline
    rw [rdropWhile_append_crs us.flatten hall, hnil, utf8DecodeReplace_nil, List.append_nil, hline,
      List.append_cancel_right_eq, flatMap_eq_stripped_iff]
    exact and_congr_right fun _ => ⟨fun h _ => h, fun h => h hall⟩
  · rw [rdropWhile_append hall]
    have hlast := decode_crs (last.rdropWhile (· = 13)) n
    have hline := decode_crs (us.flatten ++ last.rdropWhile (· = 13)) n
    rw [List.append_assoc, ← hn] at hline
    rw [← hn] at hlast
    rw [hlast, hline, ← List.append_assoc, List.append_cancel_right_eq]
    exact (and_iff_left fun h => absurd h hall).symm

/-- What a line that is cut needs. -/
theorem lineOk_iff (parts : List Part) (last : Bytes) : LineOk parts last ↔
    written parts ++ rstripCr (utf8DecodeReplace last) =
      rstripCr (utf8DecodeReplace (bytesOf parts ++ last)) := by
  unfold LineOk
  by_cases h : Flushed parts
  · rw [written_of_flushed h, bytesOf_eq, lineOk_flushed_iff]
    exact ⟨fun hok => hok.1 h, fun hok => ⟨fun _ => hok, fun hnot => absurd h hnot⟩⟩
  · exact ⟨fun hok => hok.2 h, fun hok => ⟨fun hf => absurd hf h, fun _ => hok⟩⟩

/-! ## The log -/

/-- What should be logged of bytes that a call received, and of what comes after them. -/
theorem dropCr_decode_append (s r : Bytes) : dropCr (utf8DecodeReplace (s ++ r)) =
    logged (lines [] s).1 ++ dropCr (utf8DecodeReplace ((lines [] s).2 ++ r)) := by
  have hnil : (10 : UInt8) ∉ ([] : Bytes) := List.not_mem_nil
  have hall := dropCr_decode hnil (s ++ r)
  have hleft := dropCr_decode (notMem_lines s hnil) r
  rw [List.nil_append, lines_append] at hall
  rw [hall, hleft, logged, List.flatMap_append, List.append_assoc]
  rfl

theorem written_singleton (p : Part) :
    written [p] = if p.flushed then utf8DecodeReplace p.bytes else [] :=
  List.flatMap_singleton ..

theorem bytesOf_singleton (p : Part) : bytesOf [p] = p.bytes := List.flatMap_singleton ..

/-- A call of which no line is finished. -/
theorem log_of_notMem {c : Call} (h : 10 ∉ c.received) :
    c.log = if c.flushes then utf8DecodeReplace c.received else [] := by
  rw [c.log_eq, lines_of_notMem [] h]
  rfl

theorem lineFeed_notMem_rstripCr {s : Bytes} (h : 10 ∉ s) : '\n' ∉ rstripCr (utf8DecodeReplace s) :=
  fun hmem => lineFeed_notMem_decode h ((List.rdropWhile_prefix _ _).subset hmem)

theorem lineFeed_notMem_written {parts : List Part} (h : 10 ∉ bytesOf parts) :
    '\n' ∉ written parts := by
  intro hmem
  obtain ⟨p, hp, hmem⟩ := List.mem_flatMap.mp hmem
  have hbytes : 10 ∉ p.bytes := fun hlf => h (List.mem_flatMap.mpr ⟨p, hp, hlf⟩)
  split_ifs at hmem
  · exact lineFeed_notMem_decode hbytes hmem
  · cases hmem

/-- When parts of a line were received, the calls log what they should if every line that is cut is
logged as it should be. -/
theorem lossless_from : ∀ (cs : List Call) (parts : List Part), 10 ∉ bytesOf parts →
    (written parts ++ cs.flatMap Call.log =
        dropCr (utf8DecodeReplace (bytesOf parts ++ cs.flatMap Call.received)) ↔
      LinesOk parts cs)
  | [], parts, h => by
    rw [List.flatMap_nil, List.flatMap_nil, List.append_nil, List.append_nil, LinesOk, endOk_iff,
      dropCr_of_notMem (lineFeed_notMem_decode h)]
  | c :: cs, parts, h => by
    rw [List.flatMap_cons, List.flatMap_cons, LinesOk]
    by_cases hlf : 10 ∈ c.received
    · rw [if_pos hlf]
      obtain ⟨l, s, hs, hl⟩ := List.eq_append_cons_of_mem hlf
      have htake : c.received.takeWhile (· ≠ 10) = l := takeWhile_line hs hl
      have hlines := lines_cons hl [] s
      rw [← hs, List.nil_append] at hlines
      have hleft : (lines [] s).2 = c.received.rtakeWhile (· ≠ 10) := by
        rw [← lines_eq_rtakeWhile, hlines]
      have ih := lossless_from cs [⟨c.received.rtakeWhile (· ≠ 10), c.flushes⟩] (by
        rw [bytesOf_singleton, ← hleft]
        exact notMem_lines s List.not_mem_nil)
      rw [written_singleton, bytesOf_singleton] at ih
      have hlog : c.log = rstripCr (utf8DecodeReplace l) ++ '\n' :: (logged (lines [] s).1 ++
          if c.flushes then utf8DecodeReplace (c.received.rtakeWhile (· ≠ 10)) else []) := by
        rw [c.log_eq, hlines, hleft]
        simp only [logged, List.flatMap_cons, List.append_assoc, List.cons_append, List.nil_append]
      have hbytes : bytesOf parts ++ (c.received ++ cs.flatMap Call.received) =
          (bytesOf parts ++ l) ++ 10 :: (s ++ cs.flatMap Call.received) := by
        rw [hs, List.append_assoc, List.append_assoc, List.cons_append]
      have hline : 10 ∉ bytesOf parts ++ l := by
        rw [List.mem_append, not_or]
        exact ⟨h, hl⟩
      have hwritten : '\n' ∉ written parts ++ rstripCr (utf8DecodeReplace l) := by
        rw [List.mem_append, not_or]
        exact ⟨lineFeed_notMem_written h, lineFeed_notMem_rstripCr hl⟩
      rw [htake, lineOk_iff, ← ih, hbytes, decode_lineFeed, dropCr_line _ (lineFeed_notMem_decode hline),
        dropCr_decode_append, hleft, hlog, List.append_assoc, List.cons_append, ← List.append_assoc,
        append_lineFeed_inj hwritten (lineFeed_notMem_rstripCr hline), List.append_assoc, List.append_right_inj]
    · -- The line goes on.
      have ih := lossless_from cs (parts ++ [⟨c.received, c.flushes⟩]) (by
        rw [bytesOf_append, List.mem_append, not_or]
        exact ⟨h, hlf⟩)
      rw [if_neg hlf, ← ih, log_of_notMem hlf, written_append, bytesOf_append, List.append_assoc,
        List.append_assoc]

/-- The log of any calls is the text of the bytes that they received, without the carriage returns
before a line feed, exactly when every line that is cut is logged as it should be. -/
theorem log_lossless (calls : List Call) :
    calls.flatMap Call.log = dropCr (utf8DecodeReplace (calls.flatMap Call.received)) ↔
      LinesOk [] calls :=
  lossless_from calls [] List.not_mem_nil

/-- The last words before a reset are not logged. -/
theorem not_log_lossless : ¬∀ calls : List Call,
    calls.flatMap Call.log = dropCr (utf8DecodeReplace (calls.flatMap Call.received)) := by
  intro h
  have hpanic := h [.waitForText (literal "# ".toList) [.data (utf8 "panic".toList), .reset]]
  revert hpanic
  decide +kernel

end DarwinVm.Serial.Log
