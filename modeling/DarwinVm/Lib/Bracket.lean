import Mathlib.Data.List.Basic
import Mathlib.Data.List.Induction

/-!
# Bracketed sequences

Sequences of opening, inner, and closing marks, and of atoms, which stand outside every bracket.
`bracketRun` accepts a sequence mark by mark, and `bracketRun_eq_some_iff` says what it accepts: atoms
and closed brackets, and at the end perhaps one bracket that is still open.
-/

namespace DarwinVm

/-- A mark of a bracketed sequence. A stray mark may stand nowhere. -/
inductive Mark
  | opening | inner | closing | atom | stray
  deriving DecidableEq, Repr

/-- The effect of a mark on whether a bracket is open, if the mark may stand there. -/
def bracketStep (isOpen : Bool) : Mark → Option Bool
  | .opening => if isOpen then none else some true
  | .inner => if isOpen then some true else none
  | .closing => if isOpen then some false else none
  | .atom => if isOpen then none else some false
  | .stray => none

/-- Whether a bracket is open after a sequence, if the sequence is bracketed. -/
def bracketRun : Bool → List Mark → Option Bool
  | isOpen, [] => some isOpen
  | isOpen, m :: l => (bracketStep isOpen m).bind fun isOpen => bracketRun isOpen l

/-- Whether the last mark leaves a bracket open, whatever stands before it. -/
def endsOpen (l : List Mark) : Bool := l.getLast? = some .opening ∨ l.getLast? = some .inner

/-- An atom, or a closed bracket. -/
inductive IsBlock : List Mark → Prop
  | atom : IsBlock [.atom]
  | bracket (n : ℕ) : IsBlock (.opening :: List.replicate n .inner ++ [.closing])

@[simp] theorem bracketRun_nil (b : Bool) : bracketRun b [] = some b := rfl

@[simp] theorem bracketRun_cons (b : Bool) (m : Mark) (l : List Mark) :
    bracketRun b (m :: l) = (bracketStep b m).bind fun b => bracketRun b l := rfl

@[simp] theorem bracketRun_append (b : Bool) (l l' : List Mark) :
    bracketRun b (l ++ l') = (bracketRun b l).bind fun b => bracketRun b l' := by
  induction l generalizing b with
  | nil => rfl
  | cons m l ih => cases h : bracketStep b m <;> simp [h, ih]

/-- Inner marks keep a bracket open. -/
theorem bracketRun_replicate_inner (n : ℕ) :
    bracketRun true (List.replicate n .inner) = some true := by
  induction n with
  | zero => rfl
  | succ n ih => simpa [List.replicate_succ, bracketStep] using ih

/-- A block leaves no bracket open. -/
theorem bracketRun_block {l : List Mark} (h : IsBlock l) : bracketRun false l = some false := by
  cases h with
  | atom => rfl
  | bracket n => simp [bracketStep, bracketRun_replicate_inner]

/-- Blocks leave no bracket open. -/
theorem bracketRun_flatten {bs : List (List Mark)} (h : ∀ l ∈ bs, IsBlock l) :
    bracketRun false bs.flatten = some false := by
  induction bs with
  | nil => rfl
  | cons l bs ih =>
    simp only [List.mem_cons, forall_eq_or_imp] at h
    simp [bracketRun_block h.1, ih h.2]

/-- The bracketed sequences: blocks, and then one open bracket or nothing. -/
theorem bracketRun_eq_some_iff {l : List Mark} {b : Bool} :
    bracketRun false l = some b ↔
      ∃ (bs : List (List Mark)) (tail : List Mark), (∀ l ∈ bs, IsBlock l) ∧ l = bs.flatten ++ tail ∧
        (b = false ∧ tail = [] ∨
          b = true ∧ ∃ n, tail = .opening :: List.replicate n .inner) := by
  constructor
  · induction l using List.reverseRecOn generalizing b with
    | nil =>
      intro h
      obtain rfl : b = false := by simpa using h.symm
      exact ⟨[], [], by simp, rfl, .inl ⟨rfl, rfl⟩⟩
    | append_singleton l m ih =>
      intro h
      rw [bracketRun_append] at h
      obtain ⟨b', hl, hm⟩ := Option.bind_eq_some_iff.1 h
      obtain ⟨bs, tail, hbs, rfl, htail⟩ := ih hl
      rcases htail with ⟨rfl, rfl⟩ | ⟨rfl, n, rfl⟩
      · -- Outside every bracket: an opening mark or an atom.
        cases m with
        | opening =>
          obtain rfl : b = true := by simpa [bracketStep] using hm.symm
          exact ⟨bs, [.opening], hbs, by simp, .inr ⟨rfl, 0, rfl⟩⟩
        | atom =>
          obtain rfl : b = false := by simpa [bracketStep] using hm.symm
          refine ⟨bs ++ [[.atom]], [], ?_, by simp, .inl ⟨rfl, rfl⟩⟩
          simpa [or_imp, forall_and] using ⟨hbs, IsBlock.atom⟩
        | inner => simp [bracketStep] at hm
        | closing => simp [bracketStep] at hm
        | stray => simp [bracketStep] at hm
      · -- Inside a bracket: an inner or a closing mark.
        cases m with
        | inner =>
          obtain rfl : b = true := by simpa [bracketStep] using hm.symm
          refine ⟨bs, .opening :: List.replicate (n + 1) .inner, hbs, ?_, .inr ⟨rfl, n + 1, rfl⟩⟩
          simp [List.replicate_succ']
        | closing =>
          obtain rfl : b = false := by simpa [bracketStep] using hm.symm
          refine ⟨bs ++ [.opening :: List.replicate n .inner ++ [.closing]], [], ?_, by simp,
            .inl ⟨rfl, rfl⟩⟩
          simpa [or_imp, forall_and] using ⟨hbs, IsBlock.bracket n⟩
        | opening => simp [bracketStep] at hm
        | atom => simp [bracketStep] at hm
        | stray => simp [bracketStep] at hm
  · rintro ⟨bs, tail, hbs, rfl, ⟨rfl, rfl⟩ | ⟨rfl, n, rfl⟩⟩
    · simp [bracketRun_flatten hbs]
    · simp [bracketRun_flatten hbs, bracketStep, bracketRun_replicate_inner]

@[simp] theorem endsOpen_nil : endsOpen [] = false := rfl

@[simp] theorem endsOpen_append_singleton (l : List Mark) (m : Mark) :
    endsOpen (l ++ [m]) = decide (m = .opening ∨ m = .inner) := by
  simp [endsOpen]

/-- The last mark of two sequences together is that of the second, unless it is empty. -/
theorem endsOpen_append (l l' : List Mark) :
    endsOpen (l ++ l') = if l' = [] then endsOpen l else endsOpen l' := by
  rcases List.eq_nil_or_concat l' with rfl | ⟨l', m, rfl⟩
  · rw [List.append_nil, if_pos rfl]
  · rw [if_neg (by simp), List.concat_eq_append, ← List.append_assoc, endsOpen_append_singleton,
      endsOpen_append_singleton]

/-- In a bracketed sequence, the last mark tells whether a bracket is open. -/
theorem endsOpen_of_bracketRun {l : List Mark} {b : Bool} (h : bracketRun false l = some b) :
    endsOpen l = b := by
  induction l using List.reverseRecOn with
  | nil => simpa using h
  | append_singleton l m _ =>
    rw [bracketRun_append] at h
    obtain ⟨b', -, hm⟩ := Option.bind_eq_some_iff.1 h
    rw [endsOpen_append_singleton]
    cases m <;> cases b' <;> simp_all [bracketStep]

end DarwinVm
