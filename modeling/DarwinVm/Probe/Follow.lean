import DarwinVm.Lib.Lines

/-!
# Following a log

`Follower.read_lines` of `tools/re/probe_watch.py` reads what has been appended to a file since the
last poll, and returns the lines that it finishes. It keeps the text of the last line, which is not
finished, but not its bytes: each poll decodes what it reads on its own, so that a character whose
bytes are read by two polls is lost. `follow_lines_iff` says for which polls the lines are those of
the file.
-/

namespace DarwinVm.Probe.Follow

/-- `Follower`, for a path. -/
structure Follower where
  offset : ℕ
  carry : Text
  deriving DecidableEq

/-- `Follower(path)` -/
def Follower.init : Follower := ⟨0, []⟩

/-- `read_lines`, with what `getsize` returns and what the file holds when it is read. Either is
`none` if there is an `OSError`. -/
def Follower.readLines (f : Follower) (size : Option ℕ) (file : Option Bytes) :
    List Text × Follower :=
  match size with
  | none => ([], f)
  | some size =>
    let f := if size < f.offset then ⟨0, []⟩ else f
    match file with
    | none => ([], f)
    | some file =>
      let data := file.drop f.offset
      let parts := (f.carry ++ utf8DecodeReplace data).splitOn '\n'
      (parts.dropLast.map (·.rdropWhile (· = '\r')), ⟨f.offset + data.length, parts.getLastD []⟩)

/-- What happens to a file that is never truncated. -/
inductive Event
  /-- Bytes are appended. The first make the file. -/
  | append (bytes : Bytes)
  /-- A poll: whether `getsize` returns a size, the bytes that are appended after that, and whether
  the file is then read. -/
  | poll (sized : Bool) (bytes : Bytes) (opened : Bool)

/-- The bytes that are appended. -/
def Event.appended : Event → Bytes
  | .append bytes => bytes
  | .poll _ bytes _ => bytes

/-- The file is read. -/
def Event.reads : Event → Bool
  | .append _ => false
  | .poll sized _ opened => sized && opened

/-- A file and its follower, with the lines that the polls have returned. -/
structure State where
  file : Bytes
  follower : Follower
  lines : List Text

def init : State := ⟨[], .init, []⟩

/-- One event. -/
def step (s : State) : Event → State
  | .append bytes => { s with file := s.file ++ bytes }
  | .poll sized bytes opened =>
    let file := s.file ++ bytes
    let size := if sized then some s.file.length else none
    let (ls, follower) := s.follower.readLines size (if opened then some file else none)
    ⟨file, follower, s.lines ++ ls⟩

/-- All events. -/
def run (es : List Event) : State := es.foldl step init

/-! ## What should be returned -/

/-- What the last poll that read the file has seen of it. -/
def polled (es : List Event) : Bytes := (es.rdropWhile (!·.reads)).flatMap Event.appended

/-- What the polls read, one by one, when `unread` has been appended since the last one. -/
def piecesFrom : Bytes → List Event → List Bytes
  | _, [] => []
  | unread, e :: es =>
    if e.reads then (unread ++ e.appended) :: piecesFrom [] es
    else piecesFrom (unread ++ e.appended) es

/-- What the polls read, one by one. -/
def pieces (es : List Event) : List Bytes := piecesFrom [] es

variable {s : State} {rs : List Bytes} {unread : Bytes} {es : List Event}

/-! ## Polls -/

/-- A text with more text after it is split into the lines that it finishes, and those of the last
line with the rest. -/
theorem splitOn_append (t u : Text) : (t ++ u).splitOn '\n' =
    (t.splitOn '\n').dropLast ++ ((t.splitOn '\n').getLastD [] ++ u).splitOn '\n' := by
  induction hn : t.length using Nat.strong_induction_on generalizing t with
  | _ n ih =>
    by_cases hlf : '\n' ∈ t
    · obtain ⟨l, r, rfl, hl⟩ := List.eq_append_cons_of_mem hlf
      have hne : r.splitOn '\n' ≠ [] := List.splitOn_ne_nil _ _
      have hrest := ih r.length (by rw [← hn, List.length_append, List.length_cons]; omega) r rfl
      rw [List.append_assoc, List.cons_append, List.splitOn_append_cons_self_of_not_mem hl,
        List.splitOn_append_cons_self_of_not_mem hl, hrest, List.dropLast_cons_of_ne_nil hne,
        List.cons_append, List.getLastD_cons]
      obtain ⟨a, as, has⟩ := List.exists_cons_of_ne_nil hne
      rw [has, List.getLastD_cons, List.getLastD_cons]
    · rw [List.splitOn_eq_singleton hlf]
      rfl

/-- After some polls: they have read `rs` and returned its lines, and `unread` has been appended. -/
structure Follows (rs : List Bytes) (unread : Bytes) (s : State) : Prop where
  file : s.file = rs.flatten ++ unread
  offset : s.follower.offset = rs.flatten.length
  lines : s.lines = finishedLines (rs.flatMap utf8DecodeReplace)
  carry : s.follower.carry = ((rs.flatMap utf8DecodeReplace).splitOn '\n').getLastD []

theorem follows_init : Follows [] [] init := ⟨rfl, rfl, rfl, rfl⟩

/-- An event that is no poll that reads the file. -/
theorem Follows.wait {e : Event} (h : Follows rs unread s) (he : e.reads = false) :
    Follows rs (unread ++ e.appended) (step s e) := by
  have hfile : s.file ++ e.appended = rs.flatten ++ (unread ++ e.appended) := by
    rw [h.file, List.append_assoc]
  match e with
  | .append bytes => exact ⟨hfile, h.offset, h.lines, h.carry⟩
  | .poll false bytes opened =>
    exact ⟨hfile, h.offset, (List.append_nil _).trans h.lines, h.carry⟩
  | .poll true bytes false =>
    -- The file has not become shorter.
    have hsize : ¬s.file.length < s.follower.offset := by
      rw [h.file, h.offset, List.length_append]
      omega
    have hread : s.follower.readLines (some s.file.length) none = ([], s.follower) := by
      rw [Follower.readLines, if_neg hsize]
    have hstep : step s (.poll true bytes false) = ⟨s.file ++ bytes, s.follower, s.lines ++ []⟩ := by
      rw [step]
      dsimp only
      rw [if_pos rfl, if_neg Bool.false_ne_true, hread]
    rw [hstep]
    exact ⟨hfile, h.offset, (List.append_nil _).trans h.lines, h.carry⟩

/-- A poll that reads the file. -/
theorem Follows.read {e : Event} (h : Follows rs unread s) (he : e.reads = true) :
    Follows (rs ++ [unread ++ e.appended]) [] (step s e) := by
  match e with
  | .poll true bytes true =>
    show Follows (rs ++ [unread ++ bytes]) [] _
    have hsize : ¬s.file.length < s.follower.offset := by
      rw [h.file, h.offset, List.length_append]
      omega
    have hdata : (s.file ++ bytes).drop s.follower.offset = unread ++ bytes := by
      rw [h.file, h.offset, List.append_assoc, List.drop_left]
    have htext : (rs ++ [unread ++ bytes]).flatMap utf8DecodeReplace =
        rs.flatMap utf8DecodeReplace ++ utf8DecodeReplace (unread ++ bytes) := by
      rw [List.flatMap_append, List.flatMap_singleton]
    have hsplit := splitOn_append (rs.flatMap utf8DecodeReplace) (utf8DecodeReplace (unread ++ bytes))
    rw [← htext, ← h.carry] at hsplit
    have hne := List.splitOn_ne_nil '\n' (s.follower.carry ++ utf8DecodeReplace (unread ++ bytes))
    have hstep : step s (.poll true bytes true) =
        ⟨s.file ++ bytes, ⟨s.follower.offset + (unread ++ bytes).length,
          ((s.follower.carry ++ utf8DecodeReplace (unread ++ bytes)).splitOn '\n').getLastD []⟩,
          s.lines ++ ((s.follower.carry ++ utf8DecodeReplace (unread ++ bytes)).splitOn '\n').dropLast.map
            (·.rdropWhile (· = '\r'))⟩ := by
      rw [step]
      dsimp only
      rw [if_pos rfl, if_pos rfl, Follower.readLines]
      dsimp only
      rw [if_neg hsize, hdata]
    rw [hstep]
    constructor
    · dsimp only
      rw [h.file, List.flatten_append, List.flatten_singleton, List.append_assoc, List.append_nil]
    · dsimp only
      rw [h.offset, List.flatten_append, List.flatten_singleton, ← List.length_append]
    · dsimp only
      rw [h.lines, finishedLines, finishedLines, hsplit, List.dropLast_append_of_ne_nil hne,
        List.map_append]
    · dsimp only
      rw [hsplit, List.getLastD_eq_getLast?, List.getLastD_eq_getLast?,
        List.getLast?_append_of_ne_nil _ hne]

/-- After more events. -/
theorem follows_run : ∀ (es : List Event) {rs : List Bytes} {unread : Bytes} {s : State},
    Follows rs unread s → ∃ left, Follows (rs ++ piecesFrom unread es) left (es.foldl step s)
  | [], rs, unread, s, h => ⟨unread, by rw [piecesFrom, List.append_nil]; exact h⟩
  | e :: es, rs, unread, s, h => by
    rw [piecesFrom, List.foldl_cons]
    by_cases he : e.reads
    · rw [if_pos he]
      obtain ⟨left, hrun⟩ := follows_run es (h.read he)
      rw [List.append_assoc, List.singleton_append] at hrun
      exact ⟨left, hrun⟩
    · rw [if_neg he]
      exact follows_run es (h.wait (Bool.eq_false_iff.mpr he))

/-- If no poll reads the file, nothing of it has been seen. -/
theorem polled_of_not_any (h : ¬es.any Event.reads) : polled es = [] := by
  have hall : es.rdropWhile (!·.reads) = [] := by
    rw [List.rdropWhile_eq_nil_iff]
    simpa using h
  rw [polled, hall, List.flatMap_nil]

/-- What has been seen of the file when one more event comes first. -/
theorem polled_cons (e : Event) (es : List Event) :
    polled (e :: es) = if (e :: es).any Event.reads then e.appended ++ polled es else [] := by
  rw [polled, List.rdropWhile, List.reverse_cons, List.dropWhile_append]
  by_cases h : es.any Event.reads
  · have hne : ¬(es.reverse.dropWhile (!·.reads)).isEmpty := by
      rw [List.isEmpty_iff, List.dropWhile_eq_nil_iff]
      simpa using h
    have hany : (e :: es).any Event.reads := by rw [List.any_cons, h, Bool.or_true]
    rw [if_neg hne, if_pos hany, List.reverse_append, List.flatMap_append, List.reverse_singleton,
      List.flatMap_singleton]
    rfl
  · have hnil : (es.reverse.dropWhile (!·.reads)).isEmpty := by
      rw [List.isEmpty_iff, List.dropWhile_eq_nil_iff]
      simpa using h
    have hany : (e :: es).any Event.reads = e.reads := by
      rw [List.any_cons, Bool.eq_false_iff.mpr h, Bool.or_false]
    rw [if_pos hnil, hany, polled_of_not_any h, List.append_nil]
    cases he : e.reads with
    | false => simp [he]
    | true => simp [he]

/-- The polls have read what the last one that read the file has seen of it. -/
theorem flatten_piecesFrom : ∀ (es : List Event) (unread : Bytes),
    (piecesFrom unread es).flatten = if es.any Event.reads then unread ++ polled es else []
  | [], _ => rfl
  | e :: es, unread => by
    rw [piecesFrom, polled_cons]
    by_cases he : e.reads
    · have hany : (e :: es).any Event.reads := by rw [List.any_cons, he, Bool.true_or]
      rw [if_pos he, if_pos hany, if_pos hany, List.flatten_cons, flatten_piecesFrom es,
        List.append_assoc, List.nil_append]
      split_ifs with h
      · rfl
      · rw [polled_of_not_any h]
    · have hany : (e :: es).any Event.reads = es.any Event.reads := by
        rw [List.any_cons, Bool.eq_false_iff.mpr he, Bool.false_or]
      rw [if_neg he, flatten_piecesFrom es, hany]
      split_ifs
      · rw [List.append_assoc]
      · rfl

/-- The polls return the finished lines of what they have seen of the file exactly when no poll stops
reading inside of a character of a line that is finished later. -/
theorem follow_lines_iff (es : List Event) :
    (run es).lines = finishedLines (utf8DecodeReplace (polled es)) ↔ Uncut (pieces es) := by
  obtain ⟨left, hrun⟩ := follows_run es follows_init
  rw [List.nil_append] at hrun
  have hseen : (pieces es).flatten = polled es := by
    rw [pieces, flatten_piecesFrom]
    split_ifs with h
    · rfl
    · exact (polled_of_not_any h).symm
  rw [← hseen, ← finishedLines_flatMap_iff]
  exact Eq.congr_left hrun.lines

/-- A poll between the two bytes of a character. -/
theorem not_follow_lines : ¬∀ es : List Event,
    (run es).lines = finishedLines (utf8DecodeReplace (polled es)) := by
  intro h
  have hcut := h [.append [0xC3], .poll true [] true, .append [0xA9, 10], .poll true [] true]
  revert hcut
  decide +kernel

end DarwinVm.Probe.Follow
