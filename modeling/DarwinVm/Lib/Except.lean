import Mathlib.Tactic.TypeStar
import Mathlib.Logic.Basic

/-!
# Computations that may fail

When a computation in `Except` succeeds and when it fails, for two steps in a row (`bind_eq_ok`,
`bind_eq_error`) and for a step on each element of a list (`mapM_eq_ok_iff`, `mem_of_mapM`,
`exists_mapM`).
-/

universe u

namespace DarwinVm

/-- What succeeds after a step: the step, and what follows it. -/
theorem bind_eq_ok {ε : Type u} {β γ : Type*} {x : Except ε β} {f : β → Except ε γ} {c : γ} :
    x.bind f = .ok c ↔ ∃ b, x = .ok b ∧ f b = .ok c := by
  cases x with
  | error e => exact ⟨nofun, fun ⟨_, h, _⟩ => nomatch h⟩
  | ok b => exact ⟨fun h => ⟨b, rfl, h⟩, fun ⟨_, h, h'⟩ => by cases h; exact h'⟩

/-- A list is mapped with success if each element is. -/
theorem mapM_eq_ok_iff {β γ ε : Type} {f : β → Except ε γ} {P : β → Prop} {g : β → γ} {l : List β}
    {r : List γ} (h : ∀ b ∈ l, ∀ c, f b = .ok c ↔ P b ∧ c = g b) :
    l.mapM f = .ok r ↔ (∀ b ∈ l, P b) ∧ r = l.map g := by
  induction l generalizing r with
  | nil => simp [pure, Except.pure, eq_comm]
  | cons b l ih =>
    rw [List.forall_mem_cons] at h
    simp only [List.mapM_cons, bind, bind_eq_ok, h.1, ih h.2, pure, Except.pure, Except.ok.injEq,
      List.forall_mem_cons, List.map_cons]
    constructor
    · rintro ⟨c, ⟨hb, rfl⟩, r, ⟨hl, rfl⟩, rfl⟩
      exact ⟨⟨hb, hl⟩, rfl⟩
    · rintro ⟨⟨hb, hl⟩, rfl⟩
      exact ⟨_, ⟨hb, rfl⟩, _, ⟨hl, rfl⟩, rfl⟩

/-- A list is mapped with success if no element fails. -/
theorem mapM_eq_map {β γ ε : Type} {f : β → Except ε γ} {g : β → γ} {l : List β}
    (h : ∀ b ∈ l, f b = .ok (g b)) : l.mapM f = .ok (l.map g) := by
  refine (mapM_eq_ok_iff (P := fun _ => True) fun b hb c => ?_).mpr ⟨fun _ _ => trivial, rfl⟩
  rw [h b hb, Except.ok.injEq, true_and, eq_comm]

/-- What raises an error after a step: the step, or what follows it. -/
theorem bind_eq_error {ε : Type u} {β γ : Type*} {x : Except ε β} {f : β → Except ε γ} {e : ε} :
    x.bind f = .error e ↔ x = .error e ∨ ∃ b, x = .ok b ∧ f b = .error e := by
  cases x with
  | error e' =>
    have herr : (Except.error e' : Except ε β).bind f = .error e ↔ e' = e :=
      ⟨fun h => Except.error.inj h, fun h => congrArg Except.error h⟩
    rw [herr, Except.error.injEq]
    exact ⟨Or.inl, fun h => h.elim id fun ⟨_, h, _⟩ => nomatch h⟩
  | ok b =>
    exact ⟨fun h => Or.inr ⟨b, rfl, h⟩, fun h => h.elim (nomatch ·) fun ⟨_, h, h'⟩ => by
      cases h; exact h'⟩

/-- The elements of a list have the results of the list, and it has no others. -/
theorem mem_of_mapM {β γ ε : Type} {f : β → Except ε γ} : ∀ {l : List β} {r : List γ},
    l.mapM f = .ok r → (∀ b ∈ l, ∃ c ∈ r, f b = .ok c) ∧ ∀ c ∈ r, ∃ b ∈ l, f b = .ok c
  | [], r, h => by
    obtain rfl : [] = r := Except.ok.inj h
    exact ⟨nofun, nofun⟩
  | b :: l, r, h => by
    simp only [List.mapM_cons, bind, bind_eq_ok] at h
    obtain ⟨c, hc, s, hs, h⟩ := h
    obtain rfl : c :: s = r := Except.ok.inj h
    obtain ⟨hl, hr⟩ := mem_of_mapM hs
    rw [List.forall_mem_cons, List.forall_mem_cons]
    refine ⟨⟨⟨c, List.mem_cons_self .., hc⟩, fun b' hb' => ?_⟩,
      ⟨b, List.mem_cons_self .., hc⟩, fun c' hc' => ?_⟩
    · obtain ⟨c', hc', hf⟩ := hl b' hb'
      exact ⟨c', List.mem_cons_of_mem c hc', hf⟩
    · obtain ⟨b', hb', hf⟩ := hr c' hc'
      exact ⟨b', List.mem_cons_of_mem b hb', hf⟩

/-- A list of elements with results is mapped with success. -/
theorem exists_mapM {β γ ε : Type} {f : β → Except ε γ} {r : List γ} : ∀ {l : List β},
    (∀ b ∈ l, ∃ c ∈ r, f b = .ok c) → ∃ s, l.mapM f = .ok s ∧ s ⊆ r
  | [], _ => ⟨[], rfl, List.nil_subset r⟩
  | b :: l, h => by
    rw [List.forall_mem_cons] at h
    obtain ⟨⟨c, hc, hb⟩, hl⟩ := h
    obtain ⟨s, hs, hsub⟩ := exists_mapM hl
    refine ⟨c :: s, ?_, List.cons_subset.mpr ⟨hc, hsub⟩⟩
    simp only [List.mapM_cons, hb, hs, bind, Except.bind, pure, Except.pure]

theorem exists_of_isOk {α ε : Type} {x : Except ε α} (h : x.toOption.isSome) : ∃ a, x = .ok a := by
  cases x with
  | error e => cases h
  | ok a => exact ⟨a, rfl⟩

/-- A computation that is seen to succeed with a result of a kind. -/
theorem exists_of_any {α ε : Type} {x : Except ε α} {p : α → Prop} [DecidablePred p]
    (h : x.toOption.any p) : ∃ a, x = .ok a ∧ p a := by
  cases x with
  | error e => cases h
  | ok a => exact ⟨a, rfl, of_decide_eq_true h⟩

end DarwinVm
