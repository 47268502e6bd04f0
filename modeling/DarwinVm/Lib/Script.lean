import Mathlib.Data.List.Basic
import Mathlib.Tactic.SplitIfs

/-!
# Scripts that stop at a failure

Commands that are run one after the other until one of them fails (`runAll`), as a shell does after
`set -e`. A script that has come to a command has run all commands before it with success
(`runAll_append_ok`), what every command keeps is kept (`runAll_invariant`), and commands that only
look at a part of the state succeed all or stop the script with this part as it was (`runAll_tests`).
-/

namespace DarwinVm.Script

variable {γ σ ν : Type*} {exec : γ → σ → σ × Bool} {cs ds : List γ} {c : γ} {s : σ}

/-- The state after the commands, and whether none of them has failed. -/
def runAll (exec : γ → σ → σ × Bool) : List γ → σ → σ × Bool
  | [], s => (s, true)
  | c :: cs, s => if (exec c s).2 then runAll exec cs (exec c s).1 else ((exec c s).1, false)

theorem runAll_cons_of_ok (h : (exec c s).2 = true) :
    runAll exec (c :: cs) s = runAll exec cs (exec c s).1 := by
  rw [runAll, if_pos h]

theorem runAll_cons_of_failed (h : (exec c s).2 = false) :
    runAll exec (c :: cs) s = ((exec c s).1, false) := by
  rw [runAll, h]
  rfl

/-- Commands after others are run if the others succeed. -/
theorem runAll_append_of_ok : ∀ {cs : List γ} {s : σ}, (runAll exec cs s).2 = true →
    runAll exec (cs ++ ds) s = runAll exec ds (runAll exec cs s).1
  | [], _, _ => rfl
  | c :: cs, s, h => by
    cases hc : (exec c s).2 with
    | true =>
      rw [runAll_cons_of_ok hc] at h ⊢
      rw [List.cons_append, runAll_cons_of_ok hc]
      exact runAll_append_of_ok h
    | false =>
      rw [runAll_cons_of_failed hc] at h
      cases h

/-- A script that fails does so with whatever commands after it. -/
theorem runAll_append_of_failed : ∀ {cs : List γ} {s : σ}, (runAll exec cs s).2 = false →
    runAll exec (cs ++ ds) s = runAll exec cs s
  | c :: cs, s, h => by
    cases hc : (exec c s).2 with
    | true =>
      rw [runAll_cons_of_ok hc] at h ⊢
      rw [List.cons_append, runAll_cons_of_ok hc]
      exact runAll_append_of_failed h
    | false => rw [List.cons_append, runAll_cons_of_failed hc, runAll_cons_of_failed hc]

/-- A script succeeds if both of its parts do. -/
theorem runAll_append_ok : (runAll exec (cs ++ ds) s).2 = true ↔
    (runAll exec cs s).2 = true ∧ (runAll exec ds (runAll exec cs s).1).2 = true := by
  cases h : (runAll exec cs s).2 with
  | true => rw [runAll_append_of_ok h, eq_self, true_and]
  | false =>
    rw [runAll_append_of_failed h, h]
    exact ⟨nofun, fun h => h.1⟩

/-- What every command keeps is kept. -/
theorem runAll_invariant {P : σ → Prop} : ∀ {cs : List γ} {s : σ},
    (∀ c ∈ cs, ∀ s, P s → P (exec c s).1) → P s → P (runAll exec cs s).1
  | [], _, _, hs => hs
  | c :: cs, s, h, hs => by
    rw [List.forall_mem_cons] at h
    cases hc : (exec c s).2 with
    | true =>
      rw [runAll_cons_of_ok hc]
      exact runAll_invariant h.2 (h.1 s hs)
    | false =>
      rw [runAll_cons_of_failed hc]
      exact h.1 s hs

/-- Commands that keep a view of the state, and succeed or fail by it, leave it as it was and succeed
together if each of them does. -/
theorem runAll_tests (view : σ → ν) (holds : γ → ν → Prop) : ∀ {cs : List γ} {s : σ},
    (∀ c ∈ cs, ∀ s, view (exec c s).1 = view s ∧ ((exec c s).2 = true ↔ holds c (view s))) →
    view (runAll exec cs s).1 = view s ∧
      ((runAll exec cs s).2 = true ↔ ∀ c ∈ cs, holds c (view s))
  | [], _, _ => ⟨rfl, fun _ => List.forall_mem_nil _, fun _ => rfl⟩
  | c :: cs, s, h => by
    rw [List.forall_mem_cons] at h
    obtain ⟨hview, hok⟩ := h.1 s
    rw [List.forall_mem_cons]
    cases hc : (exec c s).2 with
    | true =>
      obtain ⟨ihview, ihok⟩ := runAll_tests view holds (s := (exec c s).1) h.2
      rw [runAll_cons_of_ok hc, ihview, ihok, hview]
      exact ⟨rfl, fun hcs => ⟨hok.mp hc, hcs⟩, fun hcs => hcs.2⟩
    | false =>
      rw [runAll_cons_of_failed hc]
      refine ⟨hview, nofun, fun hcs => ?_⟩
      rw [hok.mpr hcs.1] at hc
      cases hc

end DarwinVm.Script
