import DarwinVm.Lib.OwnLine
import DarwinVm.Lib.Utf8

/-!
# Waiting for a marker in the serial log

`wait_for_serial` of `tools/re/install_staged_helpers.py` reads what QEMU adds to its serial log at each
poll, keeps the last 65536 bytes of it, and searches them for the marker of the caller. A poll then finds
the marker on a line of its own, unless more than 65536 bytes came before the next poll; and it takes for
one a marker in a longer line that an end of the kept bytes cuts out (`waitForSerial_iff`).
-/

namespace DarwinVm.Install

/-- What happens until the loop polls: QEMU creates the log or adds to it, or does neither, and it exits
or goes on. -/
structure Poll where
  written : Option Bytes
  returncode : Option ℤ
deriving Repr, DecidableEq

/-- The log after more is written. -/
def grow : Option Bytes → Option Bytes → Option Bytes
  | log, none => log
  | none, some w => some w
  | some content, some w => some (content ++ w)

/-- The bytes that are kept. -/
def tailSize : ℕ := 65536

def exited (code : ℤ) : Text := s!"QEMU exited {code} before serial condition".toList

/-- The loop of `wait_for_serial`, from a poll on. -/
def waitFrom (marker : Bytes) : List Poll → Option Bytes → ℕ → Bytes → Except Text (Bool × ℕ)
  | [], _, position, _ => .ok (false, position)
  | p :: polls, log, position, tail =>
    let log := grow log p.written
    let block := (log.getD []).drop position
    let position := position + block.length
    let tail := (tail ++ block).rtake tailSize
    -- A log that does not exist yet is not read and not searched.
    if log.isSome ∧ search marker tail then .ok (true, position)
    else
      match p.returncode with
      | some code => .error (exited code)
      | none => waitFrom marker polls log position tail

/-- `wait_for_serial`, with the pattern of the caller. `polls` is what happens before each poll until the
deadline. -/
def waitForSerial (marker : Bytes) (start : ℕ) (log : Option Bytes) (polls : List Poll) :
    Except Text (Bool × ℕ) :=
  waitFrom marker polls log start []

/-- The marker is found. -/
def Found (r : Except Text (Bool × ℕ)) : Prop := ∃ position, r = .ok (true, position)

/-- The lengths of the bytes after `start` at the polls that read the log, up to the one that finds
that QEMU exited. -/
def reads (start : ℕ) : Option Bytes → List Poll → List ℕ
  | _, [] => []
  | log, p :: polls =>
    let log := grow log p.written
    let later := if p.returncode.isSome then [] else reads start log polls
    log.elim later fun content => (content.drop start).length :: later

/-- The bytes after `start` at the deadline, when `rest` is written after the last poll. -/
def written (start : ℕ) (log : Option Bytes) (polls : List Poll) (rest : Option Bytes) : Bytes :=
  ((grow (polls.foldl (fun log p => grow log p.written) log) rest).getD []).drop start

variable {marker : Bytes} {start : ℕ}

/-! ## The log -/

/-- The log only grows. -/
theorem prefix_grow (log w : Option Bytes) : log.getD [] <+: (grow log w).getD [] := by
  cases w with
  | none => rw [grow]
  | some w =>
    cases log with
    | none => exact List.nil_prefix
    | some content => exact List.prefix_append content w

/-- What is there at one time is there at the deadline. -/
theorem prefix_written (start : ℕ) (rest : Option Bytes) : ∀ (polls : List Poll) (log : Option Bytes),
    (log.getD []).drop start <+: written start log polls rest
  | [], log => (prefix_grow log rest).drop start
  | p :: polls, log =>
    ((prefix_grow log p.written).drop start).trans (prefix_written start rest polls (grow log p.written))

/-- A poll reads what is new. -/
theorem append_block {seen content : Bytes} (h : seen <+: content.drop start) :
    seen ++ content.drop (start + seen.length) = content.drop start := by
  obtain ⟨t, ht⟩ := h
  rw [← List.drop_drop, ← ht, List.drop_left]

/-- Every poll that reads the log reads a first part of what is there at the deadline. -/
theorem le_of_mem_reads (rest : Option Bytes) : ∀ {polls : List Poll} {log : Option Bytes} {n : ℕ},
    n ∈ reads start log polls → n ≤ (written start log polls rest).length
  | p :: polls, log, n, h => by
    have hwritten : written start log (p :: polls) rest = written start (grow log p.written) polls rest :=
      rfl
    have hnow := (prefix_written start rest polls (grow log p.written)).length_le
    rw [reads] at h
    rw [hwritten]
    generalize grow log p.written = log at h hnow ⊢
    have hlater : n ∈ (if p.returncode.isSome then [] else reads start log polls) →
        n ≤ (written start log polls rest).length := by
      intro hn
      split_ifs at hn
      · cases hn
      · exact le_of_mem_reads rest hn
    cases log with
    | none => exact hlater h
    | some content =>
      obtain rfl | h := List.mem_cons.mp h
      · exact hnow
      · exact hlater h

/-! ## The loop -/

/-- The loop finds the marker when the pattern finds it in the bytes that are kept at a poll. `seen` is
what the polls so far have read. -/
theorem waitFrom_iff (rest : Option Bytes) : ∀ (polls : List Poll) {log : Option Bytes} {seen : Bytes},
    seen <+: (log.getD []).drop start →
    (Found (waitFrom marker polls log (start + seen.length) (seen.rtake tailSize)) ↔
      ∃ n ∈ reads start log polls,
        search marker (((written start log polls rest).take n).rtake tailSize) = true)
  | [], log, seen, _ => by
    refine iff_of_false ?_ ?_
    · rintro ⟨position, h⟩
      cases h
    · rintro ⟨n, h, -⟩
      cases h
  | p :: polls, log, seen, hseen => by
    have hseen : seen <+: ((grow log p.written).getD []).drop start :=
      hseen.trans ((prefix_grow log p.written).drop start)
    have ih := waitFrom_iff rest polls
      (List.prefix_refl (((grow log p.written).getD []).drop start))
    have hnow := prefix_written start rest polls (grow log p.written)
    have hwritten : written start log (p :: polls) rest = written start (grow log p.written) polls rest :=
      rfl
    rw [waitFrom, reads, hwritten]
    generalize grow log p.written = log at hseen ih hnow ⊢
    -- The kept bytes are the last ones of all bytes after `start`.
    rw [rtake_rtake_append, append_block hseen, Nat.add_assoc, ← List.length_append, append_block hseen]
    generalize written start log polls rest = s at ih hnow ⊢
    have hgo : Found (match p.returncode with
          | some code => .error (exited code)
          | none => waitFrom marker polls log (start + ((log.getD []).drop start).length)
            (((log.getD []).drop start).rtake tailSize)) ↔
        ∃ n ∈ (if p.returncode.isSome then [] else reads start log polls),
          search marker ((s.take n).rtake tailSize) = true := by
      cases p.returncode with
      | some code =>
        refine iff_of_false ?_ ?_
        · rintro ⟨position, h⟩
          cases h
        · rintro ⟨n, h, -⟩
          cases h
      | none => exact ih
    cases log with
    | none =>
      rw [if_neg fun h => Bool.false_ne_true h.1]
      exact hgo
    | some content =>
      rw [Option.getD_some] at hnow ⊢
      have htake : s.take (content.drop start).length = content.drop start :=
        (List.prefix_iff_eq_take.mp hnow).symm
      rw [Option.elim_some, List.exists_mem_cons_iff, htake]
      by_cases hfound : search marker ((content.drop start).rtake tailSize) = true
      · rw [if_pos ⟨rfl, hfound⟩]
        exact iff_of_true ⟨_, rfl⟩ (Or.inl hfound)
      · rw [if_neg fun h => hfound h.2, or_iff_right hfound]
        exact hgo

/-- The wait succeeds for a marker on a line of its own, and for nothing else, exactly when: if there is
such a line, then a poll has the whole of one among the last 65536 bytes so far, or a marker that an end of
them cuts out of another line; if there is none, then no poll has a marker that is cut out so. -/
theorem waitForSerial_iff (marker : Bytes) (start : ℕ) (log : Option Bytes) (polls : List Poll)
    (rest : Option Bytes) :
    (Found (waitForSerial marker start log polls) ↔ OwnLine marker (written start log polls rest)) ↔
      if OwnLine marker (written start log polls rest) then
        ∃ n ∈ reads start log polls, WholeLine marker (written start log polls rest) tailSize n ∨
          CutLine marker (written start log polls rest) tailSize n
      else ∀ n ∈ reads start log polls, ¬CutLine marker (written start log polls rest) tailSize n := by
  have hwait : Found (waitForSerial marker start log polls) ↔
      ∃ n ∈ reads start log polls, WholeLine marker (written start log polls rest) tailSize n ∨
        CutLine marker (written start log polls rest) tailSize n := by
    refine (waitFrom_iff rest polls List.nil_prefix).trans (exists_congr fun n => and_congr_right fun hn => ?_)
    exact search_window_iff (le_of_mem_reads rest hn)
  rw [hwait]
  by_cases hown : OwnLine marker (written start log polls rest)
  · rw [if_pos hown, iff_true_right hown]
  · rw [if_neg hown, iff_false_right hown]
    simp only [not_exists, not_and, not_or]
    refine forall_congr' fun n => imp_congr_right fun _ => ?_
    exact and_iff_right fun hwhole => hown hwhole.ownLine

/-- A poll ends after the marker, which its line goes on. -/
theorem not_waitForSerial : ¬∀ (marker : Bytes) (start : ℕ) (log : Option Bytes) (polls : List Poll)
    (rest : Option Bytes), Found (waitForSerial marker start log polls) ↔
      OwnLine marker (written start log polls rest) := by
  intro h
  have hfound := (h [68, 86, 77, 95, 65] 0 none [⟨some [68, 86, 77, 95, 65], none⟩] (some [66, 10])).mp
    ⟨5, by decide⟩
  rw [← search_iff] at hfound
  revert hfound
  decide

end DarwinVm.Install
