import Mathlib.Data.Option.Basic
import Mathlib.Tactic.Tauto

/-!
# Labelled systems and their runs

A system starts in one state and takes labelled steps; a label that is not enabled leads nowhere.
A run is a list of labels, read up to the first one that is not enabled. `Throughout` says that a
property holds in every state of a run, and `Meets` that every step taken meets a condition on the
state before it. `throughout_of_meets` is the invariant rule, and `meets_iff_throughout` is its
exact form: the runs that keep a property are those whose steps all meet the condition.
-/

namespace DarwinVm

universe u v

/-- A labelled system: its first state, and the state to which an enabled label leads. -/
structure System (σ : Type u) (α : Type v) where
  /-- The first state. -/
  init : σ
  /-- The step that a label takes, if it is enabled. -/
  step : σ → α → Option σ

namespace System

variable {σ : Type u} {α : Type v} (S : System σ α)

/-- The state after the labels of a run, if all of them are enabled. -/
def exec : σ → List α → Option σ
  | s, [] => some s
  | s, a :: as => (S.step s a).bind fun s' => exec s' as

/-- `P` holds in every state of the run, the first one included. -/
def Throughout (P : σ → Prop) : σ → List α → Prop
  | s, [] => P s
  | s, a :: as => P s ∧ ∀ s' ∈ S.step s a, Throughout P s' as

/-- Every step that the run takes meets `C`, a condition on the state before it and its label. -/
def Meets (C : σ → α → Prop) : σ → List α → Prop
  | _, [] => True
  | s, a :: as => ∀ s' ∈ S.step s a, C s a ∧ Meets C s' as

/-- A decidable property can be decided throughout a run. -/
instance decidableThroughout (P : σ → Prop) [DecidablePred P] :
    ∀ s as, Decidable (S.Throughout P s as)
  | s, [] => inferInstanceAs (Decidable (P s))
  | s, a :: as =>
    have : ∀ s', Decidable (S.Throughout P s' as) := fun s' => decidableThroughout P s' as
    inferInstanceAs (Decidable (P s ∧ ∀ s' ∈ S.step s a, S.Throughout P s' as))

/-- A decidable condition can be decided at every step of a run. -/
instance decidableMeets (C : σ → α → Prop) [∀ s a, Decidable (C s a)] :
    ∀ s as, Decidable (S.Meets C s as)
  | _, [] => inferInstanceAs (Decidable True)
  | s, a :: as =>
    have : ∀ s', Decidable (S.Meets C s' as) := fun s' => decidableMeets C s' as
    inferInstanceAs (Decidable (∀ s' ∈ S.step s a, C s a ∧ S.Meets C s' as))

variable {S} {P Q J : σ → Prop} {C D : σ → α → Prop} {s t : σ} {as : List α}

@[simp] theorem exec_nil : S.exec s [] = some s := rfl

@[simp] theorem exec_cons {a : α} :
    S.exec s (a :: as) = (S.step s a).bind fun s' => S.exec s' as := rfl

/-- A run in two parts. -/
theorem exec_append {bs : List α} :
    S.exec s (as ++ bs) = (S.exec s as).bind fun t => S.exec t bs := by
  induction as generalizing s with
  | nil => rfl
  | cons a as ih =>
    rw [List.cons_append, exec_cons, exec_cons, Option.bind_assoc]
    exact congrArg _ (funext fun s' => ih)

/-- A condition that is met in both parts of a run is met in the run. -/
theorem Meets.append {bs : List α} (hex : S.exec s as = some t) (h : S.Meets C s as)
    (h' : S.Meets C t bs) : S.Meets C s (as ++ bs) := by
  induction as generalizing s with
  | nil =>
    obtain rfl : s = t := by simpa using hex
    exact h'
  | cons a as ih =>
    intro s' hs'
    rw [exec_cons, hs', Option.bind_some] at hex
    exact ⟨(h s' hs').1, ih hex (h s' hs').2⟩

/-- A condition that the labels alone meet. -/
theorem Meets.of_labels (h : ∀ a ∈ as, ∀ s, C s a) : S.Meets C s as := by
  induction as generalizing s with
  | nil => trivial
  | cons a as ih =>
    exact fun s' _ => ⟨h a (List.mem_cons_self ..) s, ih fun b hb => h b (List.mem_cons_of_mem a hb)⟩

/-- A run whose first part meets a condition by its labels. -/
theorem Meets.append_of_labels {bs : List α} (hex : S.exec s as = some t)
    (h : ∀ a ∈ as, ∀ s, C s a) (h' : S.Meets C t bs) : S.Meets C s (as ++ bs) :=
  .append hex (.of_labels h) h'

/-- Two conditions that every step meets are met together. -/
theorem Meets.and (h : S.Meets C s as) (h' : S.Meets D s as) :
    S.Meets (fun s a => C s a ∧ D s a) s as := by
  induction as generalizing s with
  | nil => trivial
  | cons a as ih =>
    exact fun s' hs' => ⟨⟨(h s' hs').1, (h' s' hs').1⟩, ih (h s' hs').2 (h' s' hs').2⟩

/-- A property throughout a run holds in its first state. -/
theorem Throughout.head (h : S.Throughout P s as) : P s := by
  cases as with
  | nil => exact h
  | cons a as => exact h.1

/-- A property throughout a run holds in its last state. -/
theorem Throughout.last (h : S.Throughout P s as) (hex : S.exec s as = some t) : P t := by
  induction as generalizing s with
  | nil =>
    obtain rfl : s = t := by simpa using hex
    exact h
  | cons a as ih =>
    obtain ⟨s', hs, hex'⟩ := Option.bind_eq_some_iff.1 hex
    exact ih (h.2 s' hs) hex'

/-- A weaker property holds throughout as well. -/
theorem Throughout.mono (hPQ : ∀ s, P s → Q s) (h : S.Throughout P s as) :
    S.Throughout Q s as := by
  induction as generalizing s with
  | nil => exact hPQ s h
  | cons a as ih => exact ⟨hPQ s h.1, fun s' hs => ih (h.2 s' hs)⟩

/-- The invariant rule: what every step that meets the condition keeps holds throughout the runs
whose steps all meet it. -/
theorem throughout_of_meets (hstep : ∀ s a s', P s → C s a → S.step s a = some s' → P s')
    (hs : P s) (h : S.Meets C s as) : S.Throughout P s as := by
  induction as generalizing s with
  | nil => exact hs
  | cons a as ih =>
    exact ⟨hs, fun s' hs' => ih (hstep s a s' hs (h s' hs').1 hs') (h s' hs').2⟩

/-- The invariant rule without a condition: what every step keeps holds throughout every run. -/
theorem throughout_of_step (hstep : ∀ s a s', P s → S.step s a = some s' → P s') (hs : P s)
    (as : List α) : S.Throughout P s as := by
  induction as generalizing s with
  | nil => exact hs
  | cons a as ih => exact ⟨hs, fun s' hs' => ih (hstep s a s' hs hs')⟩

/-- What every step keeps holds after every run. -/
theorem exec_of_step (hstep : ∀ s a s', P s → S.step s a = some s' → P s') (hs : P s)
    (hex : S.exec s as = some t) : P t :=
  (throughout_of_step hstep hs as).last hex

/-- The step of a run at which a property begins to hold. -/
theorem exists_step_of_exec (hex : S.exec s as = some t) (hs : ¬P s) (ht : P t) :
    ∃ before a after u v, as = before ++ a :: after ∧ S.exec s before = some u ∧
      S.step u a = some v ∧ ¬P u ∧ P v := by
  induction as generalizing s with
  | nil =>
    obtain rfl : s = t := by simpa using hex
    exact absurd ht hs
  | cons a as ih =>
    obtain ⟨v, hv, hex'⟩ := Option.bind_eq_some_iff.1 hex
    by_cases hP : P v
    · exact ⟨[], a, as, s, v, rfl, rfl, hv, hs, hP⟩
    · obtain ⟨before, b, after, u, w, rfl, hbefore, hstep, hu, hw⟩ := ih hex' hP
      refine ⟨a :: before, b, after, u, w, rfl, ?_, hstep, hu, hw⟩
      rw [exec_cons, hv]
      exact hbefore

/-- The exact invariant rule, within the runs that stay in `Q`: when `J` implies `P`, a step that
meets the condition keeps `J`, and a step that does not breaks `P`, then the steps of a run all
meet the condition exactly when `P` holds throughout it. -/
theorem meets_iff_throughout (hJP : ∀ s, J s → P s)
    (hkeep : ∀ s a s', Q s → Q s' → J s → C s a → S.step s a = some s' → J s')
    (hbreak : ∀ s a s', Q s → Q s' → J s → ¬ C s a → S.step s a = some s' → ¬ P s')
    (hs : J s) (hQ : S.Throughout Q s as) : S.Meets C s as ↔ S.Throughout P s as := by
  induction as generalizing s with
  | nil => exact ⟨fun _ => hJP s hs, fun _ => trivial⟩
  | cons a as ih =>
    constructor
    · refine fun h => ⟨hJP s hs, fun s' hs' => ?_⟩
      have hQ' := hQ.2 s' hs'
      exact (ih (hkeep s a s' hQ.1 hQ'.head hs (h s' hs').1 hs') hQ').1 (h s' hs').2
    · refine fun h s' hs' => ?_
      have hQ' := hQ.2 s' hs'
      have hC : C s a := by
        by_contra hC
        exact hbreak s a s' hQ.1 hQ'.head hs hC hs' (h.2 s' hs').head
      exact ⟨hC, (ih (hkeep s a s' hQ.1 hQ'.head hs hC hs') hQ').2 (h.2 s' hs')⟩

end System

end DarwinVm
