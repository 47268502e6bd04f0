import DarwinVm.Lib.Pieces
import Mathlib.Data.Nat.Bitwise

/-!
# Reading the memory of a task

The readers of a user address space: `Memory.user` of `tools/re/warm_boot_postmortem.py`, which reads
the files of a dump, and `PhysicalTaskMemory.read` of `tools/re/physical_task_memory.py`, which reads
the physical memory through the debugger. Both walk the page tables, the one a block at a time and
the other a page at a time.

The readers agree with each other, and with the bytes read one by one, if some byte cannot be read
at all, or if the range ends below the end of the address space and what is read at once lies in one
file (`Fits`). They look at the start of the range alone, so that a range over the end goes on at the
start of the tables.
-/

namespace DarwinVm.Postmortem

/-- How the readers fail. -/
inductive Error
  /-- `f'physical range absent: {address:#x}+{size:#x}'` -/
  | absent (address size : ℕ)
  /-- `f'user address outside supported geometry: {address:#x}'` -/
  | geometry (address : ℕ)
  /-- `f'unmapped user address: {va:#x}'` -/
  | unmapped (va : ℕ)
  /-- `"physical read failed at 0x%x: %s"`, or a short read -/
  | read (address : ℕ)
  /-- `"user address/size out of bounds"` -/
  | bounds
  /-- `"unmapped VA 0x%x level %d"` -/
  | unmappedLevel (va level : ℕ)
  deriving DecidableEq

/-- The files of a dump, with the address of each, and the physical memory that they were saved
from. -/
structure Memory where
  memory : ℕ → UInt8
  maps : List (ℕ × Bytes)
  holds : ∀ f ∈ maps, f.2 = memoryBytes memory f.1 f.2.length

namespace Memory

variable (m : Memory)

/-- `Memory.physical` -/
def physical (address size : ℕ) : Except Error Bytes :=
  match m.maps.find? fun f => f.1 ≤ address ∧ address + size ≤ f.1 + f.2.length with
  | some f => .ok (slice f.2 (address - f.1) (address - f.1 + size))
  | none => .error (.absent address size)

/-- The byte at an address is in a file. -/
def Present (address : ℕ) : Prop := ∃ f ∈ m.maps, f.1 ≤ address ∧ address < f.1 + f.2.length

/-- The bytes are in one file. -/
def InOneFile (address size : ℕ) : Prop :=
  ∃ f ∈ m.maps, f.1 ≤ address ∧ address + size ≤ f.1 + f.2.length

instance (address : ℕ) : Decidable (m.Present address) :=
  inferInstanceAs (Decidable (∃ f ∈ m.maps, _))

/-- `PhysicalTaskMemory.physical`, where the memory that the debugger reads is that of the dump. -/
def taskPhysical (address size : ℕ) : Except Error Bytes :=
  if ∀ i < size, m.Present (address + i) then .ok (memoryBytes m.memory address size)
  else .error (.read address)

end Memory

/-! ## The walk -/

/-- The loop over the levels of the tables, from the table of the first of them. The last level ends
the loop. -/
def walkLevels (physical : ℕ → ℕ → Except Error Bytes) (unmapped : ℕ → ℕ → Error) (paMask va : ℕ) :
    ℕ → List (ℕ × ℕ) → Except Error (ℕ × ℕ)
  | _, [] => .error (unmapped va 4)
  | table, (level, shift) :: levels => do
    let index := (va >>> shift) &&& (if level = 1 then 0x7f else 0x7ff)
    let raw ← physical (table + index * 8) 8
    let entry := leNat raw
    if entry &&& 1 = 0 ∨ level = 3 ∧ entry &&& 3 ≠ 3 then .error (unmapped va level)
    else if entry &&& 3 = 1 ∨ level = 3 then
      .ok (((entry &&& paMask) >>> shift) <<< shift ||| (va &&& (2 ^ shift - 1)), shift)
    else walkLevels physical unmapped paMask va (entry &&& 0x0000ffffffffc000) levels

/-- The levels, with the sizes of their blocks. -/
def levels : List (ℕ × ℕ) := [(1, 36), (2, 25), (3, 14)]

/-- The walk from the root. -/
def walk (physical : ℕ → ℕ → Except Error Bytes) (unmapped : ℕ → ℕ → Error) (paMask root va : ℕ) :
    Except Error (ℕ × ℕ) :=
  walkLevels physical unmapped paMask va (root &&& 0x0000fffffffffc00) levels

namespace Memory

variable (m : Memory)

/-- The walk of `Memory.user`. -/
def userWalk (root va : ℕ) : Except Error (ℕ × ℕ) :=
  walk m.physical (fun va _ => .unmapped va) 0x0000ffffffffc000 root va

/-- The walk of `PhysicalTaskMemory.read`. -/
def taskWalk (root va : ℕ) : Except Error (ℕ × ℕ) :=
  walk m.taskPhysical .unmappedLevel 0x0000ffffffffffff root va

/-- `Memory.user` -/
def user (root address size : ℕ) : Except Error Bytes :=
  if address < 2 ^ 43 then readPieces (m.userWalk root) m.physical id size address size
  else .error (.geometry address)

/-- `PhysicalTaskMemory.read` -/
def taskRead (root address size : ℕ) : Except Error Bytes :=
  if address < 2 ^ 43 ∧ size ≤ 0x100000 then
    readPieces (m.taskWalk root) m.taskPhysical (fun _ => 14) size address size
  else .error .bounds

/-! ## Agreement -/

/-- The bytes of a range, translated and read one by one. -/
def bytewise (root address size : ℕ) : Option Bytes :=
  ((List.range size).mapM fun i => (m.user root (address + i) 1).toOption).map List.flatten

/-- The readers agree on a range. -/
structure Agrees (root address size : ℕ) : Prop where
  /-- The range is read as its bytes are one by one. -/
  bytewise : (m.user root address size).toOption = m.bytewise root address size
  /-- It is read as its parts are, wherever it is split. -/
  split : ∀ n, 0 < n → n < size → (m.user root address size).toOption = do
    let a ← (m.user root address n).toOption
    let b ← (m.user root (address + n) (size - n)).toOption
    some (a ++ b)
  /-- The other reader reads the same. -/
  task : (m.user root address size).toOption = (m.taskRead root address size).toOption
  /-- A range with a byte that is unmapped or not below `2^43` is rejected. -/
  rejects : (∃ i < size, 2 ^ 43 ≤ address + i ∨ (m.userWalk root (address + i)).toOption = none) →
    (m.user root address size).toOption = none

/-- The byte at an address is translated, by tables in the memory, and is in the memory. -/
def Readable (root va : ℕ) : Prop := ∃ p s, m.taskWalk root va = .ok (p, s) ∧ m.Present p

/-- Each address of a range is translated, by entries that are each in one file, and what the range
has of its block or page is in one file. -/
def Whole (root address size : ℕ) : Prop :=
  RangeCovered m.InOneFile (m.userWalk root) id address size

/-- The readers are to agree: the range is not empty and starts above the address space, or it starts
in it, and some byte of it is not readable, or it ends in it and is whole. -/
def Fits (root address size : ℕ) : Prop :=
  2 ^ 43 ≤ address ∧ 0 < size ∨
    address < 2 ^ 43 ∧ ((∃ i < size, ¬m.Readable root (address + i)) ∨
      address + size ≤ 2 ^ 43 ∧ m.Whole root address size)

/-! ## Physical memory -/

theorem physical_eq_ok_iff (a n : ℕ) (b : Bytes) :
    m.physical a n = .ok b ↔ m.InOneFile a n ∧ b = memoryBytes m.memory a n := by
  unfold physical
  cases hf : m.maps.find? fun f => f.1 ≤ a ∧ a + n ≤ f.1 + f.2.length with
  | none =>
    refine ⟨nofun, ?_⟩
    rintro ⟨⟨f, hmem, hle⟩, -⟩
    exact absurd (decide_eq_true hle) (List.find?_eq_none.mp hf f hmem)
  | some f =>
    have hmem := List.mem_of_find?_eq_some hf
    have hle : f.1 ≤ a ∧ a + n ≤ f.1 + f.2.length := by
      simpa using List.find?_some hf
    have hbytes : slice f.2 (a - f.1) (a - f.1 + n) = memoryBytes m.memory a n := by
      rw [m.holds f hmem, slice_memoryBytes _ hle.1 hle.2]
    dsimp only
    rw [hbytes, Except.ok.injEq, and_iff_right ⟨f, hmem, hle⟩, eq_comm]

theorem taskPhysical_eq_ok_iff (a n : ℕ) (b : Bytes) : m.taskPhysical a n = .ok b ↔
    (∀ i < n, m.Present (a + i)) ∧ b = memoryBytes m.memory a n := by
  unfold taskPhysical
  split_ifs with h
  · rw [Except.ok.injEq, and_iff_right h, eq_comm]
  · exact ⟨nofun, fun hb => absurd hb.1 h⟩

variable {m}

theorem InOneFile.present {a n : ℕ} (h : m.InOneFile a n) : ∀ i < n, m.Present (a + i) := by
  obtain ⟨f, hmem, hle, hlt⟩ := h
  exact fun i hi => ⟨f, hmem, by omega, by omega⟩

theorem InOneFile.part {a n b k : ℕ} (h : m.InOneFile a n) (hle : a ≤ b) (hlt : b + k ≤ a + n) :
    m.InOneFile b k := by
  obtain ⟨f, hmem, h₁, h₂⟩ := h
  exact ⟨f, hmem, by omega, by omega⟩

/-- What is read from one file is read from the memory. -/
theorem taskPhysical_of_physical {a n : ℕ} {b : Bytes} (h : m.physical a n = .ok b) :
    m.taskPhysical a n = .ok b := by
  obtain ⟨hfile, rfl⟩ := (m.physical_eq_ok_iff a n b).mp h
  exact (m.taskPhysical_eq_ok_iff a n _).mpr ⟨hfile.present, rfl⟩

end Memory

/-! ## The walk is uniform -/

section Walk

variable {physical physical' : ℕ → ℕ → Except Error Bytes} {unmapped unmapped' : ℕ → ℕ → Error}
  {paMask paMask' : ℕ}

/-- A block and an offset in it. -/
theorem or_mod_eq (e va s : ℕ) :
    (e >>> s) <<< s ||| (va &&& (2 ^ s - 1)) = e / 2 ^ s * 2 ^ s + va % 2 ^ s := by
  rw [Nat.and_two_pow_sub_one_eq_mod, Nat.shiftRight_eq_div_pow, Nat.shiftLeft_eq,
    Nat.mul_comm (e / 2 ^ s), Nat.two_pow_add_eq_or_of_lt (Nat.mod_lt _ (Nat.two_pow_pos s))]

/-- A walk ends in a block, and so does the walk of each address in the block. -/
theorem walkLevels_uniform {x p s : ℕ} : ∀ {table : ℕ} {ls : List (ℕ × ℕ)},
    ls.Pairwise (fun a b => b.2 ≤ a.2) →
      walkLevels physical unmapped paMask x table ls = .ok (p, s) →
        (∃ l ∈ ls, l.2 = s) ∧ ∃ e, p = e * 2 ^ s + x % 2 ^ s ∧ ∀ y, y / 2 ^ s = x / 2 ^ s →
          walkLevels physical unmapped paMask y table ls = .ok (e * 2 ^ s + y % 2 ^ s, s)
  | _, [], _, h => by cases h
  | table, (level, shift) :: ls, hls, h => by
    obtain ⟨hle, hls⟩ := List.pairwise_cons.mp hls
    simp only [walkLevels, bind, bind_eq_ok] at h
    obtain ⟨raw, hraw, h⟩ := h
    have hindex : s ≤ shift → ∀ y, y / 2 ^ s = x / 2 ^ s → y >>> shift = x >>> shift := by
      intro hs y hy
      rw [Nat.shiftRight_eq_div_pow, Nat.shiftRight_eq_div_pow, div_eq_of_le hs hy]
    split_ifs at h with hinvalid hblock
    · rw [Except.ok.injEq, Prod.mk.injEq] at h
      obtain ⟨rfl, rfl⟩ := h
      refine ⟨⟨_, List.mem_cons_self .., rfl⟩, _, or_mod_eq _ _ _, fun y hy => ?_⟩
      simp only [walkLevels, bind, bind_eq_ok, hindex le_rfl y hy]
      refine ⟨raw, hraw, ?_⟩
      rw [if_neg hinvalid, if_pos hblock, or_mod_eq]
    · obtain ⟨⟨l, hl, rfl⟩, e, hp, hy⟩ := walkLevels_uniform hls h
      refine ⟨⟨l, List.mem_cons_of_mem _ hl, rfl⟩, e, hp, fun y hxy => ?_⟩
      simp only [walkLevels, bind, bind_eq_ok, hindex (hle l hl) y hxy]
      refine ⟨raw, hraw, ?_⟩
      rw [if_neg hinvalid, if_neg hblock, hy y hxy]

theorem levels_descend : levels.Pairwise fun a b => b.2 ≤ a.2 := by decide

theorem uniform_walk (root : ℕ) : Uniform (walk physical unmapped paMask root) := by
  intro x p s h
  obtain ⟨-, e, rfl, hy⟩ := walkLevels_uniform levels_descend h
  refine ⟨Nat.le_add_left _ _, fun y hxy => ?_⟩
  rw [Nat.add_sub_cancel]
  exact hy y hxy

theorem shift_le {root x p s : ℕ} (h : walk physical unmapped paMask root x = .ok (p, s)) :
    14 ≤ s := by
  obtain ⟨⟨l, hl, rfl⟩, -⟩ := walkLevels_uniform levels_descend h
  have hall : ∀ l ∈ levels, 14 ≤ l.2 := by decide
  exact hall l hl

/-- A walk through tables that can also be read otherwise ends there, if the masks differ only in
bits that no block has. -/
theorem walkLevels_mono {x p s : ℕ} (hphys : ∀ a n b, physical a n = .ok b → physical' a n = .ok b) :
    ∀ {table : ℕ} {ls : List (ℕ × ℕ)},
      (∀ l ∈ ls, ∀ e, (e &&& paMask) >>> l.2 = (e &&& paMask') >>> l.2) →
        walkLevels physical unmapped paMask x table ls = .ok (p, s) →
          walkLevels physical' unmapped' paMask' x table ls = .ok (p, s)
  | _, [], _, h => by cases h
  | table, (level, shift) :: ls, hmask, h => by
    rw [List.forall_mem_cons] at hmask
    simp only [walkLevels, bind, bind_eq_ok] at h ⊢
    obtain ⟨raw, hraw, h⟩ := h
    refine ⟨raw, hphys _ _ _ hraw, ?_⟩
    split_ifs at h ⊢ with hinvalid hblock
    · rwa [← hmask.1]
    · exact walkLevels_mono hphys hmask.2 h

end Walk

/-- The masks of the two walks differ only in bits below those of a page. -/
theorem mask_shiftRight {s : ℕ} (hs : 14 ≤ s) (e : ℕ) :
    (e &&& 0x0000ffffffffc000) >>> s = (e &&& 0x0000ffffffffffff) >>> s := by
  have hbit : ∀ k, 14 ≤ k →
      (0x0000ffffffffc000 : ℕ).testBit k = (0x0000ffffffffffff : ℕ).testBit k := by
    intro k hk
    rcases Nat.lt_or_ge k 48 with hlt | hge
    · have hall : ∀ k < 48, 14 ≤ k →
          (0x0000ffffffffc000 : ℕ).testBit k = (0x0000ffffffffffff : ℕ).testBit k := by decide
      exact hall k hlt hk
    · have hpow : 2 ^ 48 ≤ 2 ^ k := Nat.pow_le_pow_right (by decide) hge
      rw [Nat.testBit_lt_two_pow (Nat.lt_of_lt_of_le (by decide) hpow),
        Nat.testBit_lt_two_pow (Nat.lt_of_lt_of_le (by decide) hpow)]
  refine Nat.eq_of_testBit_eq fun j => ?_
  rw [Nat.testBit_shiftRight, Nat.testBit_shiftRight, Nat.testBit_and, Nat.testBit_and,
    hbit _ (by omega)]

namespace Memory

variable {m : Memory} {root address size : ℕ}

theorem uniform_userWalk : Uniform (m.userWalk root) := uniform_walk root

theorem uniform_taskWalk : Uniform (m.taskWalk root) := uniform_walk root

theorem fine_userWalk : Fine (m.userWalk root) id := fun _ _ _ _ => le_rfl

theorem fine_taskWalk : Fine (m.taskWalk root) fun _ => 14 := fun _ _ _ h => shift_le h

/-- What the one walk translates, the other does too. -/
theorem taskWalk_of_userWalk {x p s : ℕ} (h : m.userWalk root x = .ok (p, s)) :
    m.taskWalk root x = .ok (p, s) := by
  refine walkLevels_mono (fun a n b => taskPhysical_of_physical) (fun l hl e => ?_) h
  have hall : ∀ l ∈ levels, 14 ≤ l.2 := by decide
  exact mask_shiftRight (hall l hl) e

/-! ## The readers -/

/-- `Memory.user` reads what is whole. -/
theorem user_eq_ok_iff {out : Bytes} (ha : address < 2 ^ 43) :
    m.user root address size = .ok out ↔ m.Whole root address size ∧
      out = translatedBytes m.memory (m.userWalk root) address size := by
  unfold user
  rw [if_pos ha]
  exact readPieces_eq_ok_iff uniform_userWalk fine_userWalk m.physical_eq_ok_iff le_rfl

/-- `PhysicalTaskMemory.read` reads what is readable. -/
theorem taskRead_eq_ok_iff {out : Bytes} (ha : address < 2 ^ 43) (hs : size ≤ 0x100000) :
    m.taskRead root address size = .ok out ↔
      (∀ x, address ≤ x → x < address + size → m.Readable root x) ∧
        out = translatedBytes m.memory (m.taskWalk root) address size := by
  unfold taskRead
  rw [if_pos ⟨ha, hs⟩, readPieces_eq_ok_iff uniform_taskWalk fine_taskWalk
    m.taskPhysical_eq_ok_iff le_rfl]
  exact and_congr_left fun _ => rangeCovered_of_forall Iff.rfl uniform_taskWalk fine_taskWalk

theorem toOption_eq_none_iff {α ε : Type} {x : Except ε α} : x.toOption = none ↔ ∀ a, x ≠ .ok a := by
  cases x with
  | error e => exact ⟨fun _ => nofun, fun _ => rfl⟩
  | ok a => exact ⟨nofun, fun h => absurd rfl (h a)⟩

/-- A range that starts above the address space is rejected. -/
theorem user_of_ge (ha : 2 ^ 43 ≤ address) : (m.user root address size).toOption = none := by
  unfold user
  rw [if_neg (not_lt.mpr ha)]
  rfl

theorem taskRead_of_ge (ha : 2 ^ 43 ≤ address) : (m.taskRead root address size).toOption = none := by
  unfold taskRead
  rw [if_neg fun h => absurd h.1 (not_lt.mpr ha)]
  rfl

/-- What is whole is readable. -/
theorem Whole.readable (h : m.Whole root address size) {x : ℕ} (hle : address ≤ x)
    (hlt : x < address + size) : m.Readable root x := by
  have hx := RangeCovered.part (fun hc h₁ h₂ => InOneFile.part hc h₁ h₂) uniform_userWalk
    fine_userWalk h hle
    (by omega : x + 1 ≤ address + size) x le_rfl (Nat.lt_succ_self x)
  obtain ⟨p, s, hp, hfile⟩ := hx
  refine ⟨p, s, taskWalk_of_userWalk hp, ?_⟩
  obtain ⟨hbase, hend⟩ := (div_eq_iff_mem (k := s) (x := x)).mp rfl
  have hpresent := InOneFile.present hfile 0 (by unfold pieceStart pieceEnd id; omega)
  have hstart : pieceStart x (id s) x = x := by
    unfold pieceStart id
    omega
  rwa [hstart, Nat.sub_self, Nat.sub_zero, Nat.add_zero] at hpresent

theorem Whole.part (h : m.Whole root address size) {a n : ℕ} (hle : address ≤ a)
    (hlt : a + n ≤ address + size) : m.Whole root a n :=
  RangeCovered.part (fun hc h₁ h₂ => InOneFile.part hc h₁ h₂) uniform_userWalk fine_userWalk h hle
    hlt

/-- A range with a byte that is not readable is rejected by both readers. -/
theorem user_of_not_readable {i : ℕ} (hi : i < size) (h : ¬m.Readable root (address + i)) :
    (m.user root address size).toOption = none := by
  rcases Nat.lt_or_ge address (2 ^ 43) with ha | ha
  · refine toOption_eq_none_iff.mpr fun out hout => ?_
    exact h (((user_eq_ok_iff ha).mp hout).1.readable (by omega) (by omega))
  · exact user_of_ge ha

theorem taskRead_of_not_readable {i : ℕ} (hi : i < size) (hs : size ≤ 0x100000)
    (h : ¬m.Readable root (address + i)) : (m.taskRead root address size).toOption = none := by
  rcases Nat.lt_or_ge address (2 ^ 43) with ha | ha
  · refine toOption_eq_none_iff.mpr fun out hout => ?_
    exact h (((taskRead_eq_ok_iff ha hs).mp hout).1 _ (by omega) (by omega))
  · exact taskRead_of_ge ha

theorem toOption_of_ok {α ε : Type} {x : Except ε α} {a : α} (h : x = .ok a) :
    x.toOption = some a := by
  rw [h]
  rfl

/-- The reader of a list of parts fails if one of the parts does. -/
theorem mapM_eq_none {α β : Type} {f : α → Option β} : ∀ {l : List α} {a : α}, a ∈ l → f a = none →
    l.mapM f = none
  | b :: l, a, ha, h => by
    rw [List.mapM_cons]
    rcases List.mem_cons.mp ha with rfl | ha
    · rw [h]
      rfl
    · rw [mapM_eq_none ha h]
      cases f b <;> rfl

theorem mapM_eq_some {α β : Type} {f : α → Option β} {g : α → β} : ∀ {l : List α},
    (∀ a ∈ l, f a = some (g a)) → l.mapM f = some (l.map g)
  | [], _ => rfl
  | b :: l, h => by
    rw [List.forall_mem_cons] at h
    rw [List.mapM_cons, h.1, mapM_eq_some h.2]
    rfl

theorem bytewise_eq_none {i : ℕ} (hi : i < size)
    (h : (m.user root (address + i) 1).toOption = none) : m.bytewise root address size = none := by
  unfold bytewise
  rw [mapM_eq_none (List.mem_range.mpr hi) h]
  rfl

/-- The bytes of a whole range one by one. -/
theorem bytewise_of_whole (ha : address + size ≤ 2 ^ 43) (h : m.Whole root address size) :
    m.bytewise root address size =
      some (translatedBytes m.memory (m.userWalk root) address size) := by
  have hone : ∀ i ∈ List.range size, (m.user root (address + i) 1).toOption =
      some [m.memory (translate (m.userWalk root) (address + i))] := by
    intro i hi
    have hlt := List.mem_range.mp hi
    refine toOption_of_ok ((user_eq_ok_iff (by omega)).mpr ⟨h.part (by omega) (by omega), rfl⟩)
  unfold bytewise
  rw [mapM_eq_some hone, Option.map_some, ← List.flatMap_def, ← List.map_eq_flatMap]
  rfl

/-- The two walks translate a whole range to the same bytes. -/
theorem translatedBytes_taskWalk (h : m.Whole root address size) :
    translatedBytes m.memory (m.taskWalk root) address size =
      translatedBytes m.memory (m.userWalk root) address size := by
  refine List.map_congr_left fun i hi => ?_
  have hlt := List.mem_range.mp hi
  obtain ⟨p, s, hp, -⟩ := h (address + i) (by omega) (by omega)
  rw [translate_of_walk hp, translate_of_walk (taskWalk_of_userWalk hp)]

/-! ## When the readers agree -/

/-- A range with a byte that is not readable is rejected, however it is read. -/
theorem agrees_of_not_readable (hs : size ≤ 0x100000) {i : ℕ} (hi : i < size)
    (h : ¬m.Readable root (address + i)) : m.Agrees root address size where
  bytewise := by
    rw [user_of_not_readable hi h, bytewise_eq_none hi (user_of_not_readable Nat.one_pos h)]
  split := by
    intro n hn hlt
    rw [user_of_not_readable hi h]
    rcases Nat.lt_or_ge i n with hin | hin
    · rw [user_of_not_readable hin h]
      rfl
    · have hrest : ¬m.Readable root (address + n + (i - n)) := by
        rwa [Nat.add_assoc, Nat.add_sub_cancel' hin]
      rw [user_of_not_readable (by omega) hrest]
      cases (m.user root address n).toOption <;> rfl
  task := by rw [user_of_not_readable hi h, taskRead_of_not_readable hi hs h]
  rejects _ := user_of_not_readable hi h

/-- A whole range in the address space is read, however it is read. -/
theorem agrees_of_whole (hs : size ≤ 0x100000) (ha : address < 2 ^ 43)
    (hend : address + size ≤ 2 ^ 43) (h : m.Whole root address size) :
    m.Agrees root address size := by
  have huser : (m.user root address size).toOption =
      some (translatedBytes m.memory (m.userWalk root) address size) :=
    toOption_of_ok ((user_eq_ok_iff ha).mpr ⟨h, rfl⟩)
  refine ⟨?_, fun n hn hlt => ?_, ?_, ?_⟩
  · rw [huser, bytewise_of_whole hend h]
  · have hfirst := toOption_of_ok ((user_eq_ok_iff ha).mpr
      ⟨h.part (a := address) (n := n) le_rfl (by omega), rfl⟩)
    have hrest := toOption_of_ok ((user_eq_ok_iff (by omega)).mpr
      ⟨h.part (a := address + n) (n := size - n) (by omega) (by omega), rfl⟩)
    rw [huser, hfirst, hrest]
    simp only [bind, Option.bind_some]
    rw [← translatedBytes_add, Nat.add_sub_cancel' hlt.le]
  · have htask := (taskRead_eq_ok_iff ha hs).mpr ⟨fun x hle hlt => h.readable hle hlt, rfl⟩
    rw [huser, toOption_of_ok htask, translatedBytes_taskWalk h]
  · rintro ⟨i, hi, hge | hnone⟩
    · omega
    · obtain ⟨p, s, hp, -⟩ := h (address + i) (by omega) (by omega)
      rw [hp] at hnone
      cases hnone

/-- A range that is not empty and starts above the address space is rejected, however it is read. -/
theorem agrees_of_ge (hpos : 0 < size) (ha : 2 ^ 43 ≤ address) : m.Agrees root address size where
  bytewise := by
    rw [user_of_ge ha, bytewise_eq_none hpos (user_of_ge (by omega))]
  split := by
    intro n hn hlt
    rw [user_of_ge ha, user_of_ge ha]
    rfl
  task := by rw [user_of_ge ha, taskRead_of_ge ha]
  rejects _ := user_of_ge ha

/-- Readers that agree do so for the reasons above. -/
theorem fits_of_agrees (hs : size ≤ 0x100000) (h : m.Agrees root address size) :
    m.Fits root address size := by
  rcases Nat.lt_or_ge address (2 ^ 43) with ha | ha
  · refine Or.inr ⟨ha, ?_⟩
    by_cases hread : ∃ i < size, ¬m.Readable root (address + i)
    · exact Or.inl hread
    · -- The debugger reads the range, and so does the other reader.
      have hall : ∀ x, address ≤ x → x < address + size → m.Readable root x := by
        intro x hle hlt
        by_contra hx
        refine hread ⟨x - address, by omega, ?_⟩
        rwa [Nat.add_sub_cancel' hle]
      have htask := toOption_of_ok ((taskRead_eq_ok_iff ha hs).mpr ⟨hall, rfl⟩)
      have huser := h.task.trans htask
      have hend : address + size ≤ 2 ^ 43 := by
        by_contra hover
        have hnone := h.rejects ⟨2 ^ 43 - address, by omega, Or.inl (by omega)⟩
        rw [huser] at hnone
        cases hnone
      cases hu : m.user root address size with
      | error e => rw [hu] at huser; cases huser
      | ok out => exact Or.inr ⟨hend, ((user_eq_ok_iff ha).mp hu).1⟩
  · refine Or.inl ⟨ha, Nat.pos_of_ne_zero ?_⟩
    rintro rfl
    have hempty := h.bytewise
    rw [user_of_ge ha] at hempty
    cases hempty

/-- The readers agree on a range of at most a megabyte exactly if it fits. -/
theorem readers_agree (m : Memory) (root address size : ℕ) (hs : size ≤ 0x100000) :
    m.Agrees root address size ↔ m.Fits root address size := by
  refine ⟨fits_of_agrees hs, ?_⟩
  rintro (⟨ha, hpos⟩ | ⟨ha, ⟨i, hi, hread⟩ | ⟨hend, hwhole⟩⟩)
  · exact agrees_of_ge hpos ha
  · exact agrees_of_not_readable hs hi hread
  · exact agrees_of_whole hs ha hend hwhole

/-- A memory whose first word is a block that maps the first addresses to themselves, and whose
first two words were saved to two files. -/
def twoFiles : Memory where
  memory a := if a = 0 then 1 else 0
  maps := [(0, [1, 0, 0, 0, 0, 0, 0, 0]), (8, [0, 0, 0, 0, 0, 0, 0, 0])]
  holds := by decide

theorem readers_agree_twoFiles : twoFiles.Agrees 0 8 8 ↔ twoFiles.Fits 0 8 8 :=
  readers_agree twoFiles 0 8 8 (by norm_num)

/-- Four bytes of one file and four of the next are read one by one, and not at once. -/
theorem not_readers_agree :
    ¬∀ (m : Memory) (root address size : ℕ), size ≤ 0x100000 → m.Agrees root address size := by
  intro h
  have htask := (h twoFiles 0 4 8 (by norm_num)).task
  revert htask
  decide +kernel

end Memory

end DarwinVm.Postmortem
