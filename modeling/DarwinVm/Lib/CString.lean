import DarwinVm.Lib.Bytes

/-!
# C input and C strings

The parts of the C library that a line reader uses, on byte strings: `fgets` and the draining of a
line with `getchar`, `strchr`, `strcspn`, and `strstr` on the text before the first NUL, and the
conversions of `sscanf` in the C locale. `%u`, `%d`, and `%lld` convert as `strtoumax` and
`strtoimax` do, which clamp to 64 bits, and then keep the low bits of the result type.

The second part splits a byte stream into its newline-terminated lines and relates the splitting to
`fgets`: a line that fits the buffer is read whole (`takeLine_line`), and a longer one is cut
(`takeLine_long`).
-/

namespace DarwinVm

/-- The newline byte. -/
def newline : UInt8 := 10

/-- The carriage-return byte. -/
def carriageReturn : UInt8 := 13

/-! ## Reading lines -/

/-- The next bytes of the input, up to `n` of them and up to the first newline, with what is left
of the input. -/
def takeLine : ℕ → Bytes → Bytes × Bytes
  | 0, s => ([], s)
  | _ + 1, [] => ([], [])
  | n + 1, b :: s => if b = newline then ([b], s) else (b :: (takeLine n s).1, (takeLine n s).2)

/-- `fgets(line, size, stdin)`: the bytes stored before the final NUL, with what is left of the
input, or nothing at the end of it. -/
def fgets (size : ℕ) : Bytes → Option (Bytes × Bytes)
  | [] => none
  | s => some (takeLine (size - 1) s)

/-- There is something to read before the end of the input. -/
theorem fgets_of_ne_nil (size : ℕ) {s : Bytes} (h : s ≠ []) :
    fgets size s = some (takeLine (size - 1) s) := by
  cases s with
  | nil => exact absurd rfl h
  | cons b s => rfl

/-- `while ((c = getchar()) != '\n' && c != EOF) {}`: what is left of the input. -/
def skipLine : Bytes → Bytes
  | [] => []
  | b :: s => if b = newline then s else skipLine s

/-! ## C strings -/

/-- The text of the C string in a buffer: the bytes before the first NUL. -/
def cText (s : Bytes) : Bytes := s.takeWhile (· ≠ 0)

/-- Does `strchr(line, c)` find the byte? -/
def strchr (s : Bytes) (c : UInt8) : Bool := (cText s).contains c

/-- The text of a C string once `line[strcspn(line, "\r\n")] = '\0'` has cut it. -/
def cutLine (s : Bytes) : Bytes := (cText s).takeWhile fun b => b ≠ carriageReturn ∧ b ≠ newline

/-- `strstr(s, pat)`: the text from the first occurrence of `pat` on. -/
def strstr (pat : Bytes) : Bytes → Option Bytes
  | [] => if pat = [] then some [] else none
  | b :: s => if pat.isPrefixOf (b :: s) then some (b :: s) else strstr pat s

/-! ## Conversions of `sscanf` -/

/-- `isspace` in the C locale. -/
def isSpace (b : UInt8) : Bool := b = 32 || (9 ≤ b && b ≤ 13)

/-- `isdigit`. -/
def isDigit (b : UInt8) : Bool := 48 ≤ b && b ≤ 57

/-- A white-space directive: skip any amount of white space. -/
def scanSpace (s : Bytes) : Bytes := s.dropWhile isSpace

/-- An ordinary character of the format: it must match. -/
def scanLiteral (pat s : Bytes) : Option Bytes :=
  if pat.isPrefixOf s then some (s.drop pat.length) else none

/-- `%c`: the next byte. -/
def scanChar : Bytes → Option (UInt8 × Bytes)
  | [] => none
  | b :: s => some (b, s)

/-- The number that decimal digits spell. -/
def digitsValue (s : Bytes) : ℕ := s.foldl (fun n b => 10 * n + (b.toNat - 48)) 0

/-- The subject of an integer conversion: white space, an optional sign, and at least one digit.
The result is the sign and the magnitude. -/
def scanInteger (s : Bytes) : Option ((Bool × ℕ) × Bytes) :=
  let s := scanSpace s
  let (neg, s) :=
    match s with
    | 45 :: t => (true, t)
    | 43 :: t => (false, t)
    | _ => (false, s)
  let digits := s.takeWhile isDigit
  if digits = [] then none else some ((neg, digitsValue digits), s.dropWhile isDigit)

/-- `strtoumax`: clamped to 64 bits, and negated modulo `2^64` after a minus sign. -/
def strtoumax (neg : Bool) (n : ℕ) : UInt64 :=
  if 2 ^ 64 ≤ n then UInt64.ofNat (2 ^ 64 - 1)
  else if neg then - UInt64.ofNat n else UInt64.ofNat n

/-- `strtoimax`: clamped to the range of a signed 64-bit integer. -/
def strtoimax (neg : Bool) (n : ℕ) : Int64 :=
  let z : ℤ := if neg then -n else n
  Int64.ofInt (max (-2 ^ 63) (min z (2 ^ 63 - 1)))

/-- `%u`: a 32-bit unsigned integer. -/
def scanU32 (s : Bytes) : Option (UInt32 × Bytes) :=
  (scanInteger s).map fun r => ((strtoumax r.1.1 r.1.2).toUInt32, r.2)

/-- `%d`: a 32-bit signed integer. -/
def scanI32 (s : Bytes) : Option (Int32 × Bytes) :=
  (scanInteger s).map fun r => ((strtoimax r.1.1 r.1.2).toInt32, r.2)

/-- `%lld`: a 64-bit signed integer. -/
def scanI64 (s : Bytes) : Option (Int64 × Bytes) :=
  (scanInteger s).map fun r => (strtoimax r.1.1 r.1.2, r.2)

/-! ## The lines of a stream -/

/-- The newline-terminated lines of a stream, each without its newline. What follows the last
newline is not a line. -/
def lines : Bytes → List Bytes
  | [] => []
  | b :: s =>
    if b = newline then [] :: lines s
    else
      match lines s with
      | [] => []
      | l :: ls => (b :: l) :: ls

/-- The stream that has given lines, and then `t` without a newline. -/
def unlines (ls : List Bytes) (t : Bytes) : Bytes := (ls.map (· ++ [newline])).flatten ++ t

@[simp] theorem unlines_nil (t : Bytes) : unlines [] t = t := rfl

@[simp] theorem unlines_cons (l : Bytes) (ls : List Bytes) (t : Bytes) :
    unlines (l :: ls) t = l ++ newline :: unlines ls t := by
  simp [unlines]

/-- A stream is its lines, and then what follows the last newline. -/
theorem exists_unlines (s : Bytes) :
    ∃ ls t, s = unlines ls t ∧ (∀ l ∈ ls, newline ∉ l) ∧ newline ∉ t := by
  induction s with
  | nil => exact ⟨[], [], rfl, by simp, by simp⟩
  | cons b s ih =>
    obtain ⟨ls, t, rfl, hls, ht⟩ := ih
    by_cases hb : b = newline
    · exact ⟨[] :: ls, t, by simp [hb], by simpa using hls, ht⟩
    · cases ls with
      | nil => exact ⟨[], b :: t, rfl, by simp, by simp [ht, Ne.symm hb]⟩
      | cons l ls =>
        refine ⟨(b :: l) :: ls, t, by simp, ?_, ht⟩
        simp only [List.mem_cons, forall_eq_or_imp, not_or] at hls ⊢
        exact ⟨⟨Ne.symm hb, hls.1⟩, hls.2⟩

/-- `lines` takes a stream apart into its lines. -/
theorem lines_unlines {ls : List Bytes} {t : Bytes} (hls : ∀ l ∈ ls, newline ∉ l)
    (ht : newline ∉ t) : lines (unlines ls t) = ls := by
  induction ls with
  | nil =>
    induction t with
    | nil => rfl
    | cons b t ih =>
      simp only [List.mem_cons, not_or] at ht
      have ih := ih ht.2
      simp only [unlines_nil] at ih ⊢
      simp [lines, Ne.symm ht.1, ih]
  | cons l ls ih =>
    simp only [List.mem_cons, forall_eq_or_imp] at hls
    have ih := ih hls.2
    have hl := hls.1
    rw [unlines_cons]
    clear hls
    induction l with
    | nil => simp [lines, ih]
    | cons b l ihl =>
      simp only [List.mem_cons, not_or] at hl
      simp [lines, Ne.symm hl.1, ihl hl.2]

/-- A line that fits the buffer with its newline is read whole. -/
theorem takeLine_line {n : ℕ} {l : Bytes} (s : Bytes) (hl : newline ∉ l) (hn : l.length < n) :
    takeLine n (l ++ newline :: s) = (l ++ [newline], s) := by
  induction l generalizing n with
  | nil =>
    obtain ⟨n, rfl⟩ := Nat.exists_eq_succ_of_ne_zero (Nat.ne_of_gt hn)
    simp [takeLine]
  | cons b l ih =>
    simp only [List.mem_cons, not_or] at hl
    obtain ⟨n, rfl⟩ := Nat.exists_eq_succ_of_ne_zero (Nat.ne_of_gt (Nat.zero_lt_of_lt hn))
    have hn' : l.length < n := by simpa using hn
    simp [takeLine, Ne.symm hl.1, ih hl.2 hn']

/-- Bytes without a newline that fill the buffer are read up to its size. -/
theorem takeLine_long {n : ℕ} {l : Bytes} (s : Bytes) (hl : newline ∉ l) (hn : n ≤ l.length) :
    takeLine n (l ++ s) = (l.take n, l.drop n ++ s) := by
  induction l generalizing n with
  | nil =>
    obtain rfl : n = 0 := by simpa using hn
    simp [takeLine]
  | cons b l ih =>
    simp only [List.mem_cons, not_or] at hl
    cases n with
    | zero => simp [takeLine]
    | succ n =>
      have hn' : n ≤ l.length := by simpa using hn
      simp [takeLine, Ne.symm hl.1, ih hl.2 hn']

/-- At the end of the input, the bytes that are left are read. -/
theorem takeLine_end {n : ℕ} {t : Bytes} (ht : newline ∉ t) :
    takeLine n t = (t.take n, t.drop n) := by
  rcases le_total n t.length with h | h
  · simpa using takeLine_long [] ht h
  · induction t generalizing n with
    | nil => cases n <;> rfl
    | cons b t ih =>
      simp only [List.mem_cons, not_or] at ht
      have hn : n ≠ 0 := by
        rw [List.length_cons] at h
        omega
      obtain ⟨n, rfl⟩ := Nat.exists_eq_succ_of_ne_zero hn
      have h' : t.length ≤ n := by simpa using h
      simp [takeLine, Ne.symm ht.1, ih ht.2 h']

/-- Draining goes on after the next newline. -/
theorem skipLine_line {l : Bytes} (s : Bytes) (hl : newline ∉ l) :
    skipLine (l ++ newline :: s) = s := by
  induction l with
  | nil => simp [skipLine]
  | cons b l ih =>
    simp only [List.mem_cons, not_or] at hl
    simp [skipLine, Ne.symm hl.1, ih hl.2]

/-- Without a newline, draining ends at the end of the input. -/
theorem skipLine_end {t : Bytes} (ht : newline ∉ t) : skipLine t = [] := by
  induction t with
  | nil => rfl
  | cons b t ih =>
    simp only [List.mem_cons, not_or] at ht
    simp [skipLine, Ne.symm ht.1, ih ht.2]

end DarwinVm
