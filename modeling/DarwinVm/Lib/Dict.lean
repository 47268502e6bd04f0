import Mathlib.Data.List.Nodup
import Mathlib.Tactic.SplitIfs

/-!
# Dictionaries

Dictionaries, as lists of keys with values in the order of insertion: `setItem` replaces the value of a
key that is there, and puts a new key at the end. `getItem` reads a list of assignments, of which the
last one to a key counts, and two such lists are the same dictionary when they give each key the same
value (`SameItems`).
-/

namespace DarwinVm

variable {κ ν κ' ν' : Type*} [DecidableEq κ] [DecidableEq κ']

/-- `d[key] = value` -/
def setItem (d : List (κ × ν)) (e : κ × ν) : List (κ × ν) :=
  match d with
  | [] => [e]
  | e' :: d => if e'.1 = e.1 then e :: d else e' :: setItem d e

/-- The dictionary `d` with the items of a list set one after the other. -/
def setItems (d l : List (κ × ν)) : List (κ × ν) := l.foldl setItem d

/-- A new key goes to the end. -/
theorem setItem_of_notMem {e : κ × ν} : ∀ {d : List (κ × ν)}, e.1 ∉ d.map Prod.fst →
    setItem d e = d ++ [e]
  | [], _ => rfl
  | e' :: d, h => by
    rw [List.map_cons, List.mem_cons, not_or] at h
    rw [setItem, if_neg (Ne.symm h.1), setItem_of_notMem h.2, List.cons_append]

/-- Items with different new keys make the dictionary longer. -/
theorem setItems_of_nodup : ∀ {l d : List (κ × ν)}, ((d ++ l).map Prod.fst).Nodup →
    setItems d l = d ++ l
  | [], d, _ => (List.append_nil d).symm
  | e :: l, d, h => by
    have hnew : e.1 ∉ d.map Prod.fst := by
      rw [List.map_append, List.map_cons, List.nodup_append] at h
      exact fun hmem => h.2.2 e.1 hmem e.1 (List.mem_cons_self ..) rfl
    have h' : ((d ++ [e] ++ l).map Prod.fst).Nodup := by
      rwa [List.append_assoc, List.singleton_append]
    rw [setItems, List.foldl_cons, setItem_of_notMem hnew, ← setItems, setItems_of_nodup h',
      List.append_assoc, List.singleton_append]

/-- Keys and values can be renamed before or after an item is set. -/
theorem setItem_map {f : κ → κ'} (hf : Function.Injective f) (g : ν → ν') (e : κ × ν) :
    ∀ d : List (κ × ν), setItem (d.map (Prod.map f g)) (Prod.map f g e) =
      (setItem d e).map (Prod.map f g)
  | [] => rfl
  | e' :: d => by
    rw [List.map_cons, setItem, setItem]
    by_cases h : e'.1 = e.1
    · rw [if_pos h, if_pos (show (Prod.map f g e').1 = (Prod.map f g e).1 from congrArg f h), List.map_cons]
    · rw [if_neg h, if_neg (show ¬(Prod.map f g e').1 = (Prod.map f g e).1 from fun hfe => h (hf hfe)), List.map_cons,
        setItem_map hf g e d]

theorem setItems_map {f : κ → κ'} (hf : Function.Injective f) (g : ν → ν') :
    ∀ l d : List (κ × ν), setItems (d.map (Prod.map f g)) (l.map (Prod.map f g)) =
      (setItems d l).map (Prod.map f g)
  | [], _ => rfl
  | e :: l, d => by
    rw [List.map_cons, setItems, List.foldl_cons, setItem_map hf g e d]
    exact setItems_map hf g l (setItem d e)

/-! ## The values of the keys -/

/-- The value of a key, when the items are assigned in order. -/
def getItem (d : List (κ × ν)) (key : κ) : Option ν :=
  (d.reverse.find? fun e => e.1 = key).map Prod.snd

/-- `d == d'` -/
def SameItems (d d' : List (κ × ν)) : Prop := ∀ key, getItem d key = getItem d' key

theorem getItem_of_notMem {d : List (κ × ν)} {key : κ} (h : key ∉ d.map Prod.fst) :
    getItem d key = none := by
  have hnone : d.reverse.find? (fun e => e.1 = key) = none := by
    rw [List.find?_eq_none]
    intro e he hkey
    exact h (List.mem_map.mpr ⟨e, List.mem_reverse.mp he, of_decide_eq_true hkey⟩)
  rw [getItem, hnone, Option.map_none]

/-- Only the keys that are set have to be compared. -/
instance decidableSameItems [DecidableEq ν] (d d' : List (κ × ν)) : Decidable (SameItems d d') :=
  decidable_of_iff (∀ key ∈ (d ++ d').map Prod.fst, getItem d key = getItem d' key) <| by
    refine ⟨fun h key => ?_, fun h key _ => h key⟩
    by_cases hkey : key ∈ (d ++ d').map Prod.fst
    · exact h key hkey
    · rw [List.map_append, List.mem_append, not_or] at hkey
      rw [getItem_of_notMem hkey.1, getItem_of_notMem hkey.2]

theorem SameItems.refl (d : List (κ × ν)) : SameItems d d := fun _ => rfl

end DarwinVm
