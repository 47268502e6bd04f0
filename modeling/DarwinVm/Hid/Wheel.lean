import DarwinVm.Hid.Handle
import Mathlib.Algebra.Order.Field.Basic
import Mathlib.Algebra.Order.Ring.Rat
import Mathlib.Tactic.Linarith
import Mathlib.Tactic.NormNum
import Mathlib.Tactic.Positivity
import Mathlib.Tactic.Ring

/-!
# Wheel gestures

`scroll_gesture` of `tools/input/dvm_hid.c` turns the notches of a wheel into a drag of one finger,
whose end it keeps two hundredths away from the edges of the display. A drag that starts closer to an
edge than that and should go towards it goes the other way instead: `wheel_gesture` says that this is
all that can go wrong.
-/

namespace DarwinVm.Hid

/-- `WHEEL_STEP_FRACTION`. -/
def wheelStepFraction : ℚ := 5 / 100

/-- `WHEEL_MAX_FRACTION`. -/
def wheelMaxFraction : ℚ := 40 / 100

/-- A call of `post_touch_at`. -/
structure Post where
  x : ℚ
  y : ℚ
  down : Bool
  edge : Bool
  deriving DecidableEq

/-- How far a wheel of some notches drags the finger, if there is room. -/
def wheelDistance (notches : Int32) : ℚ :=
  let distance := notches.toInt * wheelStepFraction
  let distance := if distance > wheelMaxFraction then wheelMaxFraction else distance
  if distance < -wheelMaxFraction then -wheelMaxFraction else distance

/-- `y_end` of `scroll_gesture`. -/
def yEnd (y : ℚ) (notches : Int32) : ℚ :=
  let y_end := y + wheelDistance notches
  let y_end := if y_end < 2 / 100 then 2 / 100 else y_end
  if y_end > 98 / 100 then 98 / 100 else y_end

/-- The moves of `scroll_gesture`. -/
def wheelMoves (x y y_end : ℚ) : List Post :=
  (List.range 8).map fun i => ⟨x, y + (y_end - y) * (i + 1 : ℕ) / 8, true, false⟩

/-- `scroll_gesture`, when `dispatch` says which of its dispatches succeed: what it posts, and
whether it succeeds. -/
def scrollGesture (dispatch : ℕ → Bool) (x y : ℚ) (notches : Int32) : List Post × Bool :=
  let y_end := yEnd y notches
  let first : Post := ⟨x, y, true, true⟩
  if ¬dispatch 0 then ([first], false)
  else
    let ok := (List.range 8).foldl (fun ok i => dispatch (i + 1) && ok) true
    (first :: wheelMoves x y y_end ++ [⟨x, y_end, false, true⟩], dispatch 9 && ok)

/-- A drag of one finger: a down edge, eight moves that go straight to the end, and an up edge. -/
def IsDrag (posts : List Post) (x y y' : ℚ) : Prop :=
  ∃ ys : List ℚ, ys.length = 8 ∧ ys.getLast? = some y' ∧
    ((y :: ys).Pairwise (· ≤ ·) ∨ (y :: ys).Pairwise (· ≥ ·)) ∧
    posts = ⟨x, y, true, true⟩ :: ys.map (fun y => ⟨x, y, true, false⟩) ++ [⟨x, y', false, true⟩]

/-- The finger is on the display. -/
def Post.OnDisplay (p : Post) : Prop := (0 ≤ p.x ∧ p.x ≤ 1) ∧ 0 ≤ p.y ∧ p.y ≤ 1

/-- There is no room for a drag towards an edge. -/
def NoRoom (y : ℚ) (notches : Int32) : Prop := if 0 < notches then 98 / 100 ≤ y else y ≤ 2 / 100

/-- A displacement has the direction of the notches, or there is none because there is no room. -/
def Directed (y : ℚ) (notches : Int32) (d : ℚ) : Prop :=
  (if 0 < notches then 0 < d else d < 0) ∨ d = 0 ∧ NoRoom y notches

/-- What the posts of a wheel should be. -/
def WheelDrag (posts : List Post) (x y : ℚ) (notches : Int32) : Prop :=
  ∃ y', IsDrag posts x y y' ∧ (∀ p ∈ posts, p.OnDisplay) ∧ Directed y notches (y' - y) ∧
    |y' - y| ≤ 40 / 100

/-- The drag does not start between the margin and the edge that it should go to. -/
def InMargin (y : ℚ) (notches : Int32) : Prop :=
  if 0 < notches then y ≤ 98 / 100 else 2 / 100 ≤ y

/-! ## The end of the drag -/

/-- Notches in range move the finger by a twentieth of the display each. -/
theorem wheelDistance_eq {c : Int32} (hlo : -8 ≤ c.toInt) (hhi : c.toInt ≤ 8) :
    wheelDistance c = (c.toInt : ℚ) / 20 := by
  have hlo' : (-8 : ℚ) ≤ c.toInt := by exact_mod_cast hlo
  have hhi' : (c.toInt : ℚ) ≤ 8 := by exact_mod_cast hhi
  have hmax : ¬(c.toInt : ℚ) * wheelStepFraction > wheelMaxFraction := by
    unfold wheelStepFraction wheelMaxFraction
    linarith
  have hmin : ¬(c.toInt : ℚ) * wheelStepFraction < -wheelMaxFraction := by
    unfold wheelStepFraction wheelMaxFraction
    linarith
  unfold wheelDistance
  dsimp only
  rw [if_neg hmax, if_neg hmin, wheelStepFraction]
  ring

/-- The end is where the distance leads, or at a margin. -/
theorem yEnd_cases (y : ℚ) (c : Int32) :
    yEnd y c = 2 / 100 ∧ y + wheelDistance c < 2 / 100 ∨
      yEnd y c = 98 / 100 ∧ 98 / 100 < y + wheelDistance c ∨
      yEnd y c = y + wheelDistance c ∧ 2 / 100 ≤ y + wheelDistance c ∧
        y + wheelDistance c ≤ 98 / 100 := by
  unfold yEnd
  dsimp only
  by_cases hlo : y + wheelDistance c < 2 / 100
  · rw [if_pos hlo, if_neg (by norm_num)]
    exact Or.inl ⟨rfl, hlo⟩
  · rw [if_neg hlo]
    by_cases hhi : y + wheelDistance c > 98 / 100
    · rw [if_pos hhi]
      exact Or.inr (Or.inl ⟨rfl, hhi⟩)
    · rw [if_neg hhi]
      exact Or.inr (Or.inr ⟨rfl, not_lt.mp hlo, not_lt.mp hhi⟩)

/-- The end is inside the margins. -/
theorem yEnd_bounds (y : ℚ) (c : Int32) : 2 / 100 ≤ yEnd y c ∧ yEnd y c ≤ 98 / 100 := by
  rcases yEnd_cases y c with ⟨h, -⟩ | ⟨h, -⟩ | ⟨h, hlo, hhi⟩
  · rw [h]
    norm_num
  · rw [h]
    norm_num
  · rw [h]
    exact ⟨hlo, hhi⟩

/-- The drag is not longer than it may be. -/
theorem abs_yEnd_sub_le {y : ℚ} (h0 : 0 ≤ y) (h1 : y ≤ 1) {c : Int32} (hlo : -8 ≤ c.toInt)
    (hhi : c.toInt ≤ 8) : |yEnd y c - y| ≤ 40 / 100 := by
  have hlo' : (-8 : ℚ) ≤ c.toInt := by exact_mod_cast hlo
  have hhi' : (c.toInt : ℚ) ≤ 8 := by exact_mod_cast hhi
  have hcases := yEnd_cases y c
  rw [wheelDistance_eq hlo hhi] at hcases
  rw [abs_le]
  rcases hcases with ⟨h, _⟩ | ⟨h, _⟩ | ⟨h, _⟩ <;> rw [h] <;> constructor <;> linarith

/-- The drag has the direction of the notches exactly if it starts in the margin. -/
theorem directed_iff {y : ℚ} {c : Int32} (hlo : -8 ≤ c.toInt) (hhi : c.toInt ≤ 8) (hc : c ≠ 0) :
    Directed y c (yEnd y c - y) ↔ InMargin y c := by
  have hpos : 0 < c ↔ (0 : ℚ) < c.toInt := by
    rw [Int32.lt_iff_toInt_lt, Int.cast_pos]
    rfl
  have hne : (c.toInt : ℚ) ≠ 0 := by
    rw [Int.cast_ne_zero]
    exact fun h => hc (Int32.toInt_inj.mp h)
  have hcases := yEnd_cases y c
  rw [wheelDistance_eq hlo hhi] at hcases
  unfold Directed NoRoom InMargin
  by_cases h : 0 < c
  · have hc := hpos.mp h
    rw [if_pos h, if_pos h, if_pos h]
    constructor
    · rintro (hd | ⟨hd, -⟩) <;> rcases hcases with ⟨hy, _⟩ | ⟨hy, _⟩ | ⟨hy, _⟩ <;> linarith
    · intro hy
      rcases hcases with ⟨he, hlt⟩ | ⟨he, -⟩ | ⟨he, -⟩
      · left
        linarith
      · -- The end is at the margin, where the drag may start.
        rcases lt_or_eq_of_le hy with hlt | heq
        · left
          linarith
        · right
          exact ⟨by linarith, heq.ge⟩
      · left
        linarith
  · have hc : (c.toInt : ℚ) < 0 := lt_of_le_of_ne (not_lt.mp fun hc => h (hpos.mpr hc)) hne
    rw [if_neg h, if_neg h, if_neg h]
    constructor
    · rintro (hd | ⟨hd, -⟩) <;> rcases hcases with ⟨hy, _⟩ | ⟨hy, _⟩ | ⟨hy, _⟩ <;> linarith
    · intro hy
      rcases hcases with ⟨he, -⟩ | ⟨he, hlt⟩ | ⟨he, -⟩
      · rcases lt_or_eq_of_le hy with hlt | heq
        · left
          linarith
        · right
          exact ⟨by linarith, heq.ge⟩
      · left
        linarith
      · left
        linarith

/-! ## The drag -/

/-- The heights of a drag from `y` by eight times `d`. -/
theorem pairwise_heights (y d : ℚ) :
    ((List.range 9).map fun i : ℕ => y + d * i).Pairwise (· ≤ ·) ∨
      ((List.range 9).map fun i : ℕ => y + d * i).Pairwise (· ≥ ·) := by
  rw [List.pairwise_map, List.pairwise_map]
  have hrange := List.pairwise_lt_range (n := 9)
  rcases le_total 0 d with hd | hd
  · refine Or.inl (hrange.imp fun {i j} hij => ?_)
    have hij : (i : ℚ) ≤ j := by exact_mod_cast hij.le
    have := mul_le_mul_of_nonneg_left hij hd
    linarith
  · refine Or.inr (hrange.imp fun {i j} hij => ?_)
    have hij : (i : ℚ) ≤ j := by exact_mod_cast hij.le
    have := mul_le_mul_of_nonpos_left hij hd
    linarith

/-- The moves go straight to the end. -/
theorem wheelMoves_eq (x y y' : ℚ) : ∃ ys : List ℚ, ys.length = 8 ∧ ys.getLast? = some y' ∧
    ((y :: ys).Pairwise (· ≤ ·) ∨ (y :: ys).Pairwise (· ≥ ·)) ∧
    wheelMoves x y y' = ys.map (fun y => ⟨x, y, true, false⟩) := by
  refine ⟨(List.range 8).map fun i => y + (y' - y) * (i + 1 : ℕ) / 8, by simp, ?_, ?_, ?_⟩
  · have hlast : y + (y' - y) * (7 + 1) / 8 = y' := by ring
    simp [List.range_succ, hlast]
  · have hys : y :: ((List.range 8).map fun i => y + (y' - y) * (i + 1 : ℕ) / 8) =
        (List.range 9).map fun i : ℕ => y + (y' - y) / 8 * i := by
      rw [List.range_succ_eq_map (n := 8), List.map_cons, List.map_map]
      congr 1
      · simp
      · refine List.map_congr_left fun i _ => ?_
        rw [Function.comp_apply]
        ring
    rw [hys]
    exact pairwise_heights y _
  · rw [wheelMoves, List.map_map]
    rfl

/-- Between two heights on the display, all heights are. -/
theorem onDisplay_of_mem_wheelMoves {x y y' : ℚ} (hx : 0 ≤ x ∧ x ≤ 1) (hy : 0 ≤ y ∧ y ≤ 1)
    (hy' : 0 ≤ y' ∧ y' ≤ 1) {p : Post} (h : p ∈ wheelMoves x y y') : p.OnDisplay := by
  obtain ⟨i, hi, rfl⟩ := List.mem_map.mp h
  rw [List.mem_range] at hi
  have hi1 : ((i + 1 : ℕ) : ℚ) / 8 ≤ 1 := by
    rw [div_le_one (by norm_num)]
    exact_mod_cast hi
  have hi0 : 0 ≤ ((i + 1 : ℕ) : ℚ) / 8 := by positivity
  refine ⟨hx, ?_⟩
  dsimp only
  rw [mul_div_assoc]
  generalize ((i + 1 : ℕ) : ℚ) / 8 = t at hi0 hi1 ⊢
  constructor <;> nlinarith

/-- The end of a drag is where its last post is. -/
theorem IsDrag.end_eq {posts : List Post} {x y y' : ℚ} (h : IsDrag posts x y y') :
    posts.getLast? = some ⟨x, y', false, true⟩ := by
  obtain ⟨ys, -, -, -, rfl⟩ := h
  rw [List.getLast?_concat]

/-- A coordinate in range is on the display. -/
theorem coordinate_bounds {a : UInt32} (h : a ≤ 32767) : 0 ≤ coordinate a ∧ coordinate a ≤ 1 := by
  have ha : (a.toNat : ℚ) ≤ 32767 := by exact_mod_cast UInt32.le_iff_toNat_le.mp h
  have ha0 : (0 : ℚ) ≤ a.toNat := Nat.cast_nonneg _
  unfold coordinate
  rw [div_le_one (by norm_num)]
  exact ⟨by positivity, ha⟩

/-- What `parse` allows for a wheel. -/
theorem wheel_inRange {line : Bytes} {r : Record} (h : parse line = some r) (hk : r.kind = .W) :
    (r.a ≤ 32767 ∧ r.b ≤ 32767) ∧ r.c ≠ 0 ∧ -8 ≤ r.c.toInt ∧ r.c.toInt ≤ 8 := by
  have hr := inRange_of_parse h
  unfold Record.inRange at hr
  rw [hk] at hr
  simp only [Bool.and_eq_true, decide_eq_true_eq] at hr
  obtain ⟨⟨⟨⟨ha, hb⟩, hc⟩, hlo⟩, hhi⟩ := hr
  exact ⟨⟨ha, hb⟩, hc, Int32.le_iff_toInt_le.mp hlo, Int32.le_iff_toInt_le.mp hhi⟩

/-- A wheel record whose dispatches succeed gives the drag that it should exactly if the drag starts
in the margin. -/
theorem wheel_gesture {line : Bytes} {r : Record} (h : parse line = some r) (hk : r.kind = .W)
    {dispatch : ℕ → Bool}
    (hok : (scrollGesture dispatch (coordinate r.a) (coordinate r.b) r.c).2 = true) :
    WheelDrag (scrollGesture dispatch (coordinate r.a) (coordinate r.b) r.c).1 (coordinate r.a)
        (coordinate r.b) r.c ↔ InMargin (coordinate r.b) r.c := by
  obtain ⟨⟨ha, hb⟩, hc, hlo, hhi⟩ := wheel_inRange h hk
  have hx := coordinate_bounds ha
  have hy := coordinate_bounds hb
  generalize coordinate r.a = x, coordinate r.b = y at *
  have hend := yEnd_bounds y r.c
  have hend' : 0 ≤ yEnd y r.c ∧ yEnd y r.c ≤ 1 := ⟨by linarith, by linarith⟩
  obtain ⟨ys, hlen, hlast, hpair, hys⟩ := wheelMoves_eq x y (yEnd y r.c)
  have hdispatch : dispatch 0 = true := by
    by_contra hd
    rw [scrollGesture, if_pos hd] at hok
    cases hok
  have hposts : (scrollGesture dispatch x y r.c).1 =
      ⟨x, y, true, true⟩ :: wheelMoves x y (yEnd y r.c) ++ [⟨x, yEnd y r.c, false, true⟩] := by
    rw [scrollGesture, if_neg (not_not.mpr hdispatch)]
  rw [hposts, ← directed_iff hlo hhi hc]
  constructor
  · rintro ⟨y', hdrag, -, hdir, -⟩
    have := hdrag.end_eq
    rw [List.getLast?_concat, Option.some.injEq, Post.mk.injEq] at this
    rwa [this.2.1]
  · intro hdir
    refine ⟨yEnd y r.c, ⟨ys, hlen, hlast, hpair, by rw [hys]⟩, ?_, hdir,
      abs_yEnd_sub_le hy.1 hy.2 hlo hhi⟩
    intro p hp
    rw [List.mem_append, List.mem_cons, List.mem_singleton] at hp
    obtain (rfl | hp) | rfl := hp
    · exact ⟨hx, hy⟩
    · exact onDisplay_of_mem_wheelMoves hx hy hend' hp
    · exact ⟨hx, hend'⟩

/-- A wheel of one notch at the height `b`. -/
def notchAt (b : UInt32) : Record := ⟨1, 1, 100, b, 1, .W, 0⟩

theorem parse_notch : parse (ascii "DVMI2 1 1 W 100 20000 1 0".toList) = some (notchAt 20000) ∧
    parse (ascii "DVMI2 1 1 W 100 32700 1 0".toList) = some (notchAt 32700) := by
  decide +kernel

/-- A wheel in the middle of the display. -/
theorem wheel_gesture_middle :
    WheelDrag (scrollGesture (fun _ => true) (coordinate 100) (coordinate 20000) 1).1
        (coordinate 100) (coordinate 20000) 1 ↔ InMargin (coordinate 20000) 1 :=
  wheel_gesture (r := notchAt 20000) parse_notch.1 rfl rfl

/-- A wheel below the margin drags the finger up instead of down. -/
theorem not_wheel_gesture : ¬∀ (line : Bytes) (r : Record) (dispatch : ℕ → Bool),
    parse line = some r → r.kind = .W →
      (scrollGesture dispatch (coordinate r.a) (coordinate r.b) r.c).2 = true →
        WheelDrag (scrollGesture dispatch (coordinate r.a) (coordinate r.b) r.c).1 (coordinate r.a)
          (coordinate r.b) r.c := by
  intro h
  obtain ⟨y', hdrag, -, hdir, -⟩ := h _ (notchAt 32700) (fun _ => true) parse_notch.2 rfl rfl
  have hend := hdrag.end_eq
  have hlast : (scrollGesture (fun _ => true) (coordinate 100) (coordinate 32700) 1).1.getLast? =
      some ⟨coordinate 100, 98 / 100, false, true⟩ := by
    decide +kernel
  have hlast' := hlast.symm.trans hend
  rw [Option.some.injEq, Post.mk.injEq] at hlast'
  rw [← hlast'.2.1] at hdir
  revert hdir
  unfold Directed NoRoom
  decide +kernel

end DarwinVm.Hid
