import DarwinVm.Lib.Seams

/-!
# Texts of arbitrary bytes

Python's `decode(errors="surrogateescape")`, which makes a text of any bytes: a byte that is in no
character becomes a lone surrogate that stands for it (`Escaped.byte`). The bytes can be had back
(`unescape_decodeEscape`), so different bytes have different texts, and an ASCII byte is always a
character of its own (`decodeEscape_append_cons`).
-/

namespace DarwinVm

/-- A character, or a lone surrogate that stands for a byte. -/
inductive Escaped
  | char (c : Char)
  | byte (b : UInt8)
  deriving DecidableEq

/-- A text with lone surrogates. -/
abbrev EscapedText := List Escaped

/-- The text of at most `k` bytes. -/
def escapeUpTo : ℕ → Bytes → EscapedText
  | _, [] => []
  | 0, _ :: _ => []
  | k + 1, b :: s =>
    match utf8Head? (b :: s) with
    | some c => .char c :: escapeUpTo k ((b :: s).drop c.utf8Size)
    | none => .byte b :: escapeUpTo k s

/-- `s.decode(errors="surrogateescape")`. -/
def decodeEscape (s : Bytes) : EscapedText := escapeUpTo s.length s

/-- The bytes of a character, or the byte that a surrogate stands for. -/
def Escaped.bytes : Escaped → Bytes
  | .char c => String.utf8EncodeChar c
  | .byte b => [b]

/-- `t.encode(errors="surrogateescape")`. -/
def unescape (t : EscapedText) : Bytes := t.flatMap Escaped.bytes

theorem unescape_escapeUpTo : ∀ {k : ℕ} {s : Bytes}, s.length ≤ k → unescape (escapeUpTo k s) = s
  | _, [], _ => by
    rw [escapeUpTo]
    rfl
  | k + 1, b :: s, h => by
    rw [List.length_cons, Nat.succ_le_succ_iff] at h
    rw [escapeUpTo]
    split
    · next c hc =>
      have ih := unescape_escapeUpTo ((length_drop_utf8Size_le c b s).trans h)
      rw [unescape, List.flatMap_cons, ← unescape, ih]
      exact (eq_of_utf8Head? hc).symm
    · rw [unescape, List.flatMap_cons, ← unescape, unescape_escapeUpTo h]
      rfl

/-- The bytes of a text that has been decoded are had back. -/
@[simp] theorem unescape_decodeEscape (s : Bytes) : unescape (decodeEscape s) = s :=
  unescape_escapeUpTo le_rfl

theorem decodeEscape_injective : Function.Injective decodeEscape :=
  Function.LeftInverse.injective unescape_decodeEscape

@[simp] theorem decodeEscape_inj {s s' : Bytes} : decodeEscape s = decodeEscape s' ↔ s = s' :=
  decodeEscape_injective.eq_iff

/-- More steps than bytes make no difference. -/
theorem escapeUpTo_eq_of_le : ∀ {k k' : ℕ} {s : Bytes}, s.length ≤ k → s.length ≤ k' →
    escapeUpTo k s = escapeUpTo k' s
  | 0, _, [], _, _ | _ + 1, 0, [], _, _ | _ + 1, _ + 1, [], _, _ => by simp only [escapeUpTo]
  | k + 1, k' + 1, b :: s, h, h' => by
    rw [List.length_cons, Nat.succ_le_succ_iff] at h h'
    rw [escapeUpTo, escapeUpTo]
    split
    · next c _ =>
      have hlen := length_drop_utf8Size_le c b s
      rw [escapeUpTo_eq_of_le (hlen.trans h) (hlen.trans h')]
    · rw [escapeUpTo_eq_of_le h h']

@[simp] theorem decodeEscape_nil : decodeEscape [] = [] := rfl

/-- Bytes that start with a character. -/
theorem decodeEscape_of_head {s : Bytes} {c : Char} (h : utf8Head? s = some c) :
    decodeEscape s = .char c :: decodeEscape (s.drop c.utf8Size) := by
  match s with
  | [] =>
    have hlen := congrArg List.length (eq_of_utf8Head? h)
    have hpos := length_utf8EncodeChar_pos c
    rw [List.length_append, List.length_nil] at hlen
    omega
  | b :: s =>
    rw [decodeEscape, List.length_cons, escapeUpTo, h]
    dsimp only
    rw [escapeUpTo_eq_of_le (length_drop_utf8Size_le c b s) le_rfl, decodeEscape]

/-- Bytes that start with no character. -/
theorem decodeEscape_of_bad {b : UInt8} {s : Bytes} (h : utf8Head? (b :: s) = none) :
    decodeEscape (b :: s) = .byte b :: decodeEscape s := by
  rw [decodeEscape, List.length_cons, escapeUpTo, h]
  rfl

/-- A character that is in the bytes before others is read there. -/
theorem utf8Head?_append {u : Bytes} {c : Char} (h : utf8Head? u = some c) (v : Bytes) :
    utf8Head? (u ++ v) = some c := by
  rw [eq_of_utf8Head? h, List.append_assoc, utf8Head?_encode]

/-- An ASCII byte ends what comes before it, and is a character. -/
theorem decodeEscape_append_cons {b : UInt8} (hb : b < 128) (r : Bytes) : ∀ u : Bytes,
    decodeEscape (u ++ b :: r) =
      decodeEscape u ++ .char (Char.ofNat b.toNat) :: decodeEscape r
  | [] => by
    have hcont : String.utf8EncodeChar (Char.ofNat b.toNat) = [b] := by
      have := utf8_ascii (s := [b]) fun b' hb' => List.mem_singleton.mp hb' ▸ hb
      rwa [List.map_singleton, utf8_cons, utf8_nil, List.append_nil] at this
    have hsize : (Char.ofNat b.toNat).utf8Size = 1 := by
      rw [← String.length_utf8EncodeChar, hcont, List.length_singleton]
    have hhead : utf8Head? (b :: r) = some (Char.ofNat b.toNat) := by
      rw [← List.singleton_append, ← hcont, utf8Head?_encode]
    rw [List.nil_append, decodeEscape_of_head hhead, hsize]
    rfl
  | a :: u => by
    obtain hnone | ⟨c, hc⟩ := Option.eq_none_or_eq_some (utf8Head? (a :: u))
    · -- No character goes on with an ASCII byte.
      have hnone' : utf8Head? (a :: u ++ b :: r) = none := by
        by_contra hne
        obtain ⟨c, hc⟩ := Option.ne_none_iff_exists'.mp hne
        obtain ⟨⟨b', r', h, hcont⟩, -⟩ := torn_of_head hnone hc
        obtain rfl := (List.cons.inj h).1
        exact absurd (lt_of_lt_of_le hb hcont.1) (lt_irrefl _)
      have ih := decodeEscape_append_cons hb r u
      rw [decodeEscape_of_bad hnone, List.cons_append] at *
      rw [decodeEscape_of_bad hnone', ih, List.cons_append]
    · have hle := congrArg List.length (eq_of_utf8Head? hc)
      rw [List.length_append, String.length_utf8EncodeChar] at hle
      have hpos := c.utf8Size_pos
      have hdrop : (a :: u ++ b :: r).drop c.utf8Size = (a :: u).drop c.utf8Size ++ b :: r :=
        List.drop_append_of_le_length (by omega)
      have ih := decodeEscape_append_cons hb r ((a :: u).drop c.utf8Size)
      rw [decodeEscape_of_head (utf8Head?_append hc _), hdrop, ih, decodeEscape_of_head hc,
        List.cons_append]
termination_by u => u.length
decreasing_by
  all_goals
    simp only [List.length_drop, List.length_cons]
    omega

/-- An ASCII character that is in the text is in the bytes. -/
theorem mem_of_char_mem {b : UInt8} (hb : b < 128) {s : Bytes}
    (h : Escaped.char (Char.ofNat b.toNat) ∈ decodeEscape s) : b ∈ s := by
  have hcont : String.utf8EncodeChar (Char.ofNat b.toNat) = [b] := by
    have := utf8_ascii (s := [b]) fun b' hb' => List.mem_singleton.mp hb' ▸ hb
    rwa [List.map_singleton, utf8_cons, utf8_nil, List.append_nil] at this
  rw [← unescape_decodeEscape s, unescape, List.mem_flatMap]
  exact ⟨_, h, by rw [Escaped.bytes, hcont]; exact List.mem_singleton_self b⟩

end DarwinVm
