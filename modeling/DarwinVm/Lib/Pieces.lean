import DarwinVm.Lib.Bytes
import DarwinVm.Lib.Except

/-!
# Reading a range in pieces

A range of virtual addresses is read piece by piece: each address is translated, and as much is read
from there as the unit of the translation holds and the range asks for. A translation is uniform in
blocks of a power of two, which may differ from address to address. Then the pieces are the parts of
the units in the range, wherever the reader starts (`readPieces_eq_ok_iff`), so that readers with
other units, and readers of the parts of a range, read the same.
-/

namespace DarwinVm

variable {ε : Type} {walk : ℕ → Except ε (ℕ × ℕ)} {physical : ℕ → ℕ → Except ε Bytes}
  {unit : ℕ → ℕ}

/-- Read a range piece by piece. `walk` translates an address and tells the size of its block, as a
power of two, and `unit` the size of the unit that is read at once. -/
def readPieces (walk : ℕ → Except ε (ℕ × ℕ)) (physical : ℕ → ℕ → Except ε Bytes) (unit : ℕ → ℕ) :
    ℕ → ℕ → ℕ → Except ε Bytes
  | 0, _, _ => .ok []
  | fuel + 1, va, size =>
    if size = 0 then .ok []
    else do
      let (pa, shift) ← walk va
      let count := min size (2 ^ unit shift - va % 2 ^ unit shift)
      let piece ← physical pa count
      let rest ← readPieces walk physical unit fuel (va + count) (size - count)
      .ok (piece ++ rest)

/-- The translation is uniform in each block. -/
def Uniform (walk : ℕ → Except ε (ℕ × ℕ)) : Prop :=
  ∀ x p s, walk x = .ok (p, s) → x % 2 ^ s ≤ p ∧
    ∀ y, y / 2 ^ s = x / 2 ^ s → walk y = .ok (p - x % 2 ^ s + y % 2 ^ s, s)

/-- The units are parts of the blocks. -/
def Fine (walk : ℕ → Except ε (ℕ × ℕ)) (unit : ℕ → ℕ) : Prop :=
  ∀ x p s, walk x = .ok (p, s) → unit s ≤ s

/-- The bytes of a memory. -/
def memoryBytes (memory : ℕ → UInt8) (a n : ℕ) : Bytes := (List.range n).map fun i => memory (a + i)

/-- The address that an address is translated to. -/
def translate (walk : ℕ → Except ε (ℕ × ℕ)) (x : ℕ) : ℕ :=
  ((walk x).toOption.map Prod.fst).getD 0

/-- The bytes of a range of translated addresses. -/
def translatedBytes (memory : ℕ → UInt8) (walk : ℕ → Except ε (ℕ × ℕ)) (va n : ℕ) : Bytes :=
  (List.range n).map fun i => memory (translate walk (va + i))

/-- The first address of the unit of an address in a range. -/
def pieceStart (va k x : ℕ) : ℕ := max va (x / 2 ^ k * 2 ^ k)

/-- The end of the unit of an address in a range. -/
def pieceEnd (stop k x : ℕ) : ℕ := min stop (x / 2 ^ k * 2 ^ k + 2 ^ k)

/-- An address of a range is translated, and what the range has of its unit can be read. -/
def PieceCovered (Covers : ℕ → ℕ → Prop) (walk : ℕ → Except ε (ℕ × ℕ)) (unit : ℕ → ℕ)
    (va stop x : ℕ) : Prop :=
  ∃ p s, walk x = .ok (p, s) ∧ Covers (p - (x - pieceStart va (unit s) x))
    (pieceEnd stop (unit s) x - pieceStart va (unit s) x)

/-- All addresses of a range are covered. -/
def RangeCovered (Covers : ℕ → ℕ → Prop) (walk : ℕ → Except ε (ℕ × ℕ)) (unit : ℕ → ℕ)
    (va n : ℕ) : Prop :=
  ∀ x, va ≤ x → x < va + n → PieceCovered Covers walk unit va (va + n) x

theorem translate_of_walk {x p s : ℕ} (h : walk x = .ok (p, s)) : translate walk x = p := by
  unfold translate
  rw [h]
  rfl

@[simp] theorem length_memoryBytes (memory : ℕ → UInt8) (a n : ℕ) :
    (memoryBytes memory a n).length = n := by rw [memoryBytes, List.length_map, List.length_range]

/-- A part of what is saved of a memory. -/
theorem slice_memoryBytes (memory : ℕ → UInt8) {base len a n : ℕ} (ha : base ≤ a)
    (hn : a + n ≤ base + len) :
    slice (memoryBytes memory base len) (a - base) (a - base + n) = memoryBytes memory a n := by
  refine List.ext_getElem? fun i => ?_
  unfold slice memoryBytes
  rw [Nat.add_sub_cancel_left, List.getElem?_take, List.getElem?_drop, List.getElem?_map,
    List.getElem?_map]
  split_ifs with hi
  · rw [List.getElem?_range (by omega), List.getElem?_range hi, Option.map_some, Option.map_some]
    congr 2
    omega
  · rw [List.getElem?_eq_none (by rw [List.length_range]; omega)]
    rfl

/-! ## Units -/

/-- Two addresses have the same unit if one lies in that of the other. -/
theorem div_eq_iff_mem {k x y : ℕ} :
    y / 2 ^ k = x / 2 ^ k ↔ x / 2 ^ k * 2 ^ k ≤ y ∧ y < x / 2 ^ k * 2 ^ k + 2 ^ k := by
  have hpos : 0 < 2 ^ k := Nat.two_pow_pos k
  constructor
  · intro h
    rw [← h]
    have hmod := Nat.div_add_mod' y (2 ^ k)
    have hlt := Nat.mod_lt y hpos
    omega
  · rintro ⟨hle, hlt⟩
    refine Nat.div_eq_of_lt_le hle ?_
    rwa [Nat.add_mul, Nat.one_mul]

theorem div_eq_of_le {k s x y : ℕ} (hks : k ≤ s) (h : y / 2 ^ k = x / 2 ^ k) :
    y / 2 ^ s = x / 2 ^ s := by
  obtain ⟨d, rfl⟩ := Nat.exists_eq_add_of_le hks
  rw [Nat.pow_add, ← Nat.div_div_eq_div_mul, ← Nat.div_div_eq_div_mul, h]

/-- The unit of an address after the unit of another starts after it. -/
theorem unit_end_le (hw : Uniform walk) (hunit : Fine walk unit) {x y p q s t : ℕ}
    (hx : walk x = .ok (p, s)) (hy : walk y = .ok (q, t))
    (hle : x / 2 ^ unit s * 2 ^ unit s + 2 ^ unit s ≤ y) :
    x / 2 ^ unit s * 2 ^ unit s + 2 ^ unit s ≤ y / 2 ^ unit t * 2 ^ unit t := by
  by_contra hlt
  have hpos : 0 < 2 ^ unit s := Nat.two_pow_pos _
  obtain ⟨-, hyt⟩ := (div_eq_iff_mem (k := unit t) (x := y)).mp rfl
  -- The last address of the first unit lies in both units, so that they are one.
  obtain ⟨z, hz⟩ : ∃ z, z + 1 = x / 2 ^ unit s * 2 ^ unit s + 2 ^ unit s :=
    ⟨x / 2 ^ unit s * 2 ^ unit s + 2 ^ unit s - 1, by omega⟩
  have hzx : z / 2 ^ unit s = x / 2 ^ unit s := div_eq_iff_mem.mpr ⟨by omega, by omega⟩
  have hzy : z / 2 ^ unit t = y / 2 ^ unit t := div_eq_iff_mem.mpr ⟨by omega, by omega⟩
  have hwx := (hw x p s hx).2 z (div_eq_of_le (hunit _ _ _ hx) hzx)
  have hwy := (hw y q t hy).2 z (div_eq_of_le (hunit _ _ _ hy) hzy)
  rw [hwx, Except.ok.injEq, Prod.mk.injEq] at hwy
  rw [← hwy.2] at hzy
  have hmem := (div_eq_iff_mem.mp (hzy.symm.trans hzx)).2
  omega

/-- The translation of another address in the unit. -/
theorem walk_in_unit (hw : Uniform walk) (hunit : Fine walk unit) {x y p s : ℕ}
    (hx : walk x = .ok (p, s)) (h : y / 2 ^ unit s = x / 2 ^ unit s) :
    ∃ q, walk y = .ok (q, s) ∧ q + x = p + y ∧ y % 2 ^ unit s ≤ q := by
  obtain ⟨hle, hy⟩ := hw x p s hx
  have hs := div_eq_of_le (hunit _ _ _ hx) h
  have hmodx := Nat.div_add_mod' x (2 ^ s)
  have hmody := Nat.div_add_mod' y (2 ^ s)
  have hmul : y / 2 ^ s * 2 ^ s = x / 2 ^ s * 2 ^ s := by rw [hs]
  refine ⟨_, hy y hs, by omega, ?_⟩
  have hdvd : 2 ^ unit s ∣ 2 ^ s := Nat.pow_dvd_pow 2 (hunit _ _ _ hx)
  have hmod : y % 2 ^ unit s ≤ y % 2 ^ s := by
    rw [← Nat.mod_mod_of_dvd y hdvd]
    exact Nat.mod_le _ _
  omega

theorem mod_unit_le (hw : Uniform walk) (hunit : Fine walk unit) {x p s : ℕ}
    (hx : walk x = .ok (p, s)) : x % 2 ^ unit s ≤ p := by
  obtain ⟨q, hq, -, hle⟩ := walk_in_unit hw hunit hx rfl
  rw [hx, Except.ok.injEq, Prod.mk.injEq] at hq
  rwa [← hq.1] at hle

/-! ## The reader -/

/-- The rest of a range after the first unit is covered as it is in the whole range. -/
theorem pieceCovered_rest {Covers : ℕ → ℕ → Prop} (hw : Uniform walk) (hunit : Fine walk unit)
    {va p s stop x : ℕ} (hva : walk va = .ok (p, s))
    (hx : va / 2 ^ unit s * 2 ^ unit s + 2 ^ unit s ≤ x) :
    PieceCovered Covers walk unit (va / 2 ^ unit s * 2 ^ unit s + 2 ^ unit s) stop x ↔
      PieceCovered Covers walk unit va stop x := by
  have hstart : ∀ q t, walk x = .ok (q, t) →
      pieceStart (va / 2 ^ unit s * 2 ^ unit s + 2 ^ unit s) (unit t) x =
        pieceStart va (unit t) x := by
    intro q t hq
    have hle := unit_end_le hw hunit hva hq hx
    obtain ⟨-, hlt⟩ := (div_eq_iff_mem (k := unit s) (x := va)).mp rfl
    unfold pieceStart
    omega
  unfold PieceCovered
  refine exists_congr fun q => exists_congr fun t => and_congr_right fun hq => ?_
  rw [hstart q t hq]

/-- The addresses of the first piece are covered if the piece is. -/
theorem pieceCovered_first {Covers : ℕ → ℕ → Prop} (hw : Uniform walk) (hunit : Fine walk unit)
    {va p s stop x : ℕ} (hva : walk va = .ok (p, s)) (hle : va ≤ x)
    (hx : x / 2 ^ unit s = va / 2 ^ unit s) :
    PieceCovered Covers walk unit va stop x ↔ Covers p (pieceEnd stop (unit s) va - va) := by
  obtain ⟨q, hq, hsum, -⟩ := walk_in_unit hw hunit hva hx
  obtain ⟨hbase, -⟩ := (div_eq_iff_mem (k := unit s) (x := va)).mp rfl
  have hstart : pieceStart va (unit s) x = va := by
    unfold pieceStart
    rw [hx]
    omega
  have hend : pieceEnd stop (unit s) x = pieceEnd stop (unit s) va := by
    unfold pieceEnd
    rw [hx]
  have hp : q - (x - va) = p := by omega
  constructor
  · rintro ⟨q', s', hq', hc⟩
    rw [hq, Except.ok.injEq, Prod.mk.injEq] at hq'
    obtain ⟨rfl, rfl⟩ := hq'
    rwa [hstart, hend, hp] at hc
  · intro hc
    refine ⟨q, s, hq, ?_⟩
    rwa [hstart, hend, hp]

/-- The bytes of a range and of what follows it. -/
theorem translatedBytes_add (memory : ℕ → UInt8) (va n m : ℕ) :
    translatedBytes memory walk va (n + m) =
      translatedBytes memory walk va n ++ translatedBytes memory walk (va + n) m := by
  unfold translatedBytes
  rw [List.range_add, List.map_append, List.map_map]
  simp only [Function.comp_def, Nat.add_assoc]

/-- A range is covered if its first piece is, and the range after it. -/
theorem rangeCovered_iff {Covers : ℕ → ℕ → Prop} (hw : Uniform walk) (hunit : Fine walk unit)
    {va size p s : ℕ} (hva : walk va = .ok (p, s)) (hsize : 0 < size) :
    RangeCovered Covers walk unit va size ↔
      Covers p (min size (2 ^ unit s - va % 2 ^ unit s)) ∧
        RangeCovered Covers walk unit (va + min size (2 ^ unit s - va % 2 ^ unit s))
          (size - min size (2 ^ unit s - va % 2 ^ unit s)) := by
  have hdm := Nat.div_add_mod' va (2 ^ unit s)
  have hmod := Nat.mod_lt va (Nat.two_pow_pos (unit s))
  obtain ⟨n, hn⟩ : ∃ n, n = min size (2 ^ unit s - va % 2 ^ unit s) := ⟨_, rfl⟩
  have hend : pieceEnd (va + size) (unit s) va - va = n := by
    unfold pieceEnd
    omega
  have hstop : va + n + (size - n) = va + size := by omega
  have hfull : n < size → va + n = va / 2 ^ unit s * 2 ^ unit s + 2 ^ unit s := by omega
  rw [← hn]
  unfold RangeCovered
  rw [hstop]
  constructor
  · intro hall
    refine ⟨?_, fun x hle hlt => ?_⟩
    · have hfirst := (pieceCovered_first hw hunit hva le_rfl rfl).mp
        (hall va le_rfl (by omega))
      rwa [hend] at hfirst
    · have hunit_end := hfull (by omega)
      rw [hunit_end, pieceCovered_rest hw hunit hva (by omega)]
      exact hall x (by omega) hlt
  · rintro ⟨hfirst, hrest⟩ x hle hlt
    by_cases hx : x < va + n
    · refine (pieceCovered_first hw hunit hva hle ?_).mpr (hend.symm ▸ hfirst)
      exact div_eq_iff_mem.mpr ⟨by omega, by omega⟩
    · have hx' := hrest x (not_lt.mp hx) hlt
      rwa [hfull (by omega), pieceCovered_rest hw hunit hva (by omega)] at hx'

/-- The bytes of the first piece. -/
theorem memoryBytes_first {memory : ℕ → UInt8} (hw : Uniform walk) (hunit : Fine walk unit)
    {va p s n : ℕ} (hva : walk va = .ok (p, s)) (hn : n ≤ 2 ^ unit s - va % 2 ^ unit s) :
    memoryBytes memory p n = translatedBytes memory walk va n := by
  have hdm := Nat.div_add_mod' va (2 ^ unit s)
  refine List.map_congr_left fun i hi => ?_
  rw [List.mem_range] at hi
  have hunit_eq : (va + i) / 2 ^ unit s = va / 2 ^ unit s :=
    div_eq_iff_mem.mpr ⟨by omega, by omega⟩
  obtain ⟨q, hq, hsum, -⟩ := walk_in_unit hw hunit hva hunit_eq
  rw [translate_of_walk hq]
  congr 1
  omega

/-- A reader reads a range if each of its addresses is covered, and reads the bytes that they are
translated to. -/
theorem readPieces_eq_ok_iff {memory : ℕ → UInt8} {Covers : ℕ → ℕ → Prop} (hw : Uniform walk)
    (hunit : Fine walk unit)
    (hp : ∀ a n b, physical a n = .ok b ↔ Covers a n ∧ b = memoryBytes memory a n) :
    ∀ {fuel va size : ℕ} {out : Bytes}, size ≤ fuel →
      (readPieces walk physical unit fuel va size = .ok out ↔
        RangeCovered Covers walk unit va size ∧ out = translatedBytes memory walk va size)
  | fuel, va, 0, out, _ => by
    have hnil : readPieces walk physical unit fuel va 0 = .ok [] := by
      cases fuel with
      | zero => rfl
      | succ fuel => exact if_pos rfl
    have hrange : RangeCovered Covers walk unit va 0 := fun x hle hlt => absurd hlt (not_lt.mpr hle)
    rw [hnil, Except.ok.injEq, eq_comm, and_iff_right hrange]
    rfl
  | 0, _, size + 1, _, h => absurd h (by omega)
  | fuel + 1, va, size + 1, out, hfuel => by
    have hsize : 0 < size + 1 := Nat.succ_pos size
    rw [readPieces, if_neg (Nat.succ_ne_zero size)]
    simp only [bind, bind_eq_ok, Prod.exists, hp, Except.ok.injEq]
    have hstep : ∀ {p s : ℕ}, walk va = .ok (p, s) →
        0 < min (size + 1) (2 ^ unit s - va % 2 ^ unit s) := by
      intro p s _
      have hmod := Nat.mod_lt va (Nat.two_pow_pos (unit s))
      omega
    have hbytes : ∀ {n : ℕ}, n ≤ size + 1 → translatedBytes memory walk va (size + 1) =
        translatedBytes memory walk va n ++
          translatedBytes memory walk (va + n) (size + 1 - n) := by
      intro n hn
      rw [← translatedBytes_add, Nat.add_sub_cancel' hn]
    constructor
    · rintro ⟨p, s, hva, _, ⟨hc, rfl⟩, rest, hrest, rfl⟩
      rw [readPieces_eq_ok_iff hw hunit hp (by have := hstep hva; omega)] at hrest
      obtain ⟨hcovered, rfl⟩ := hrest
      refine ⟨(rangeCovered_iff hw hunit hva hsize).mpr ⟨hc, hcovered⟩, ?_⟩
      rw [hbytes (min_le_left _ _), memoryBytes_first hw hunit hva (min_le_right _ _)]
    · rintro ⟨hall, rfl⟩
      obtain ⟨p, s, hva, -⟩ := hall va le_rfl (by omega)
      obtain ⟨hc, hcovered⟩ := (rangeCovered_iff hw hunit hva hsize).mp hall
      have hpos := hstep hva
      have hfuel' : size + 1 - min (size + 1) (2 ^ unit s - va % 2 ^ unit s) ≤ fuel := by omega
      have hrest := (readPieces_eq_ok_iff hw hunit hp hfuel').mpr ⟨hcovered, rfl⟩
      refine ⟨p, s, hva, _, ⟨hc, rfl⟩, _, hrest, ?_⟩
      rw [hbytes (min_le_left _ _), memoryBytes_first hw hunit hva (min_le_right _ _)]

/-- A part of a covered range is covered, if what is covered is covered in parts. -/
theorem RangeCovered.part {Covers : ℕ → ℕ → Prop}
    (hc : ∀ {a n b m}, Covers a n → a ≤ b → b + m ≤ a + n → Covers b m) (hw : Uniform walk)
    (hunit : Fine walk unit) {va n va' n' : ℕ} (h : RangeCovered Covers walk unit va n)
    (hle : va ≤ va') (hend : va' + n' ≤ va + n) : RangeCovered Covers walk unit va' n' := by
  intro x hx hlt
  obtain ⟨p, s, hp, hcov⟩ := h x (by omega) (by omega)
  refine ⟨p, s, hp, hc hcov ?_ ?_⟩
  · unfold pieceStart
    omega
  · have hmod := mod_unit_le hw hunit hp
    have hdm := Nat.div_add_mod' x (2 ^ unit s)
    have hlt' := Nat.mod_lt x (Nat.two_pow_pos (unit s))
    unfold pieceStart pieceEnd
    omega

/-- A range is covered, where each address is covered for itself, if all its addresses are. -/
theorem rangeCovered_of_forall {Covers : ℕ → ℕ → Prop} {Present : ℕ → Prop}
    (hc : ∀ {a n}, Covers a n ↔ ∀ i < n, Present (a + i)) (hw : Uniform walk)
    (hunit : Fine walk unit) {va n : ℕ} : RangeCovered Covers walk unit va n ↔
      ∀ x, va ≤ x → x < va + n → ∃ p s, walk x = .ok (p, s) ∧ Present p := by
  have hspan : ∀ {x p s : ℕ}, walk x = .ok (p, s) →
      x / 2 ^ unit s * 2 ^ unit s ≤ x ∧ x < x / 2 ^ unit s * 2 ^ unit s + 2 ^ unit s ∧
        x - x / 2 ^ unit s * 2 ^ unit s ≤ p := by
    intro x p s hx
    have hdm := Nat.div_add_mod' x (2 ^ unit s)
    have hmod := Nat.mod_lt x (Nat.two_pow_pos (unit s))
    have hle := mod_unit_le hw hunit hx
    exact ⟨by omega, by omega, by omega⟩
  unfold RangeCovered PieceCovered pieceStart pieceEnd
  constructor
  · intro hall x hle hlt
    obtain ⟨p, s, hp, hcov⟩ := hall x hle hlt
    obtain ⟨h₁, h₂, h₃⟩ := hspan hp
    have hx := hc.mp hcov (x - max va (x / 2 ^ unit s * 2 ^ unit s)) (by omega)
    rw [Nat.sub_add_cancel (by omega)] at hx
    exact ⟨p, s, hp, hx⟩
  · intro hall x hle hlt
    obtain ⟨p, s, hp, -⟩ := hall x hle hlt
    obtain ⟨h₁, h₂, h₃⟩ := hspan hp
    refine ⟨p, s, hp, hc.mpr fun i hi => ?_⟩
    -- The address that many after the start of the piece is in the same unit.
    obtain ⟨y, hy⟩ : ∃ y, y = max va (x / 2 ^ unit s * 2 ^ unit s) + i := ⟨_, rfl⟩
    obtain ⟨q, hq, hsum, -⟩ := walk_in_unit hw hunit hp
      (div_eq_iff_mem.mpr ⟨by omega, by omega⟩ : y / 2 ^ unit s = x / 2 ^ unit s)
    obtain ⟨q', s', hq', hpresent⟩ := hall y (by omega) (by omega)
    rw [hq, Except.ok.injEq, Prod.mk.injEq] at hq'
    rw [← hq'.1] at hpresent
    have haddr : p - (x - max va (x / 2 ^ unit s * 2 ^ unit s)) + i = q := by omega
    rwa [haddr]

end DarwinVm
