import DarwinVm.Lib.Memory

/-!
# A64 instructions

A part of the A64 instruction set: the words of the instructions (`Form`, `decode`), which no two
forms share (`Form.eq_of_matches`), and what an instruction does to the registers and the memory of a
machine (`exec`, `step`). A call through a register has to arrive at a landing pad.
-/

namespace DarwinVm.A64

/-- A register, `31` for the zero register or the stack pointer. -/
abbrev Reg := BitVec 5

/-- What a register holds. -/
abbrev Word := BitVec 64

/-! ## Instructions -/

/-- An instruction. A wide one works on 64 bits, and another on 32. -/
inductive Insn
  | hint (op : BitVec 7)
  | mrs (rt : Reg) (sys : BitVec 15)
  | msr (sys : BitVec 15) (rt : Reg)
  | movz (wide : Bool) (rd : Reg) (imm : BitVec 16) (hw : BitVec 2)
  | movk (wide : Bool) (rd : Reg) (imm : BitVec 16) (hw : BitVec 2)
  | udiv (wide : Bool) (rd rn rm : Reg)
  | msub (wide : Bool) (rd rn rm ra : Reg)
  | str (wide : Bool) (rt rn : Reg) (imm : BitVec 12)
  | ldr (wide : Bool) (rt rn : Reg) (imm : BitVec 12)
  | add (rd rn : Reg) (imm : BitVec 12)
  | adrp (rd : Reg) (imm : BitVec 21)
  | b (link : Bool) (imm : BitVec 26)
  | cbz (wide nonzero : Bool) (rt : Reg) (imm : BitVec 19)
  | ret (rn : Reg)
  deriving DecidableEq

/-- A form of words. -/
inductive Form
  | hint | mrs | msr
  | movzX | movzW | movkX | movkW
  | udivX | udivW | msubX | msubW
  | strX | strW | ldrX | ldrW
  | add | adrp
  | b | bl
  | cbzX | cbnzX | cbzW | cbnzW
  | ret
  deriving DecidableEq

namespace Form

/-- The forms, in no order that matters. -/
def all : List Form :=
  [hint, mrs, msr, movzX, movzW, movkX, movkW, udivX, udivW, msubX, msubW, strX, strW, ldrX, ldrW,
    add, adrp, b, bl, cbzX, cbnzX, cbzW, cbnzW, ret]

/-- The bits that make the form. -/
def mask : Form → BitVec 32
  | hint => 0xFFFFF01F
  | mrs | msr => 0xFFF00000
  | movzX | movkX => 0xFF800000
  | movzW | movkW => 0xFFC00000
  | udivX | udivW => 0xFFE0FC00
  | msubX | msubW => 0xFFE08000
  | strX | strW | ldrX | ldrW | add => 0xFFC00000
  | adrp => 0x9F000000
  | b | bl => 0xFC000000
  | cbzX | cbnzX | cbzW | cbnzW => 0xFF000000
  | ret => 0xFFFFFC1F

/-- What they are. -/
def value : Form → BitVec 32
  | hint => 0xD503201F
  | mrs => 0xD5300000
  | msr => 0xD5100000
  | movzX => 0xD2800000
  | movzW => 0x52800000
  | movkX => 0xF2800000
  | movkW => 0x72800000
  | udivX => 0x9AC00800
  | udivW => 0x1AC00800
  | msubX => 0x9B008000
  | msubW => 0x1B008000
  | strX => 0xF9000000
  | strW => 0xB9000000
  | ldrX => 0xF9400000
  | ldrW => 0xB9400000
  | add => 0x91000000
  | adrp => 0x90000000
  | b => 0x14000000
  | bl => 0x94000000
  | cbzX => 0xB4000000
  | cbnzX => 0xB5000000
  | cbzW => 0x34000000
  | cbnzW => 0x35000000
  | ret => 0xD65F0000

/-- The word has the form. -/
def Matches (f : Form) (w : BitVec 32) : Prop := w &&& f.mask = f.value

instance (f : Form) (w : BitVec 32) : Decidable (f.Matches w) := inferInstanceAs (Decidable (_ = _))

/-- The instruction of a word of the form. -/
def insn (f : Form) (w : BitVec 32) : Insn :=
  let rd : Reg := w.extractLsb' 0 5
  let rn : Reg := w.extractLsb' 5 5
  let ra : Reg := w.extractLsb' 10 5
  let rm : Reg := w.extractLsb' 16 5
  let sys : BitVec 15 := w.extractLsb' 5 15
  let imm12 : BitVec 12 := w.extractLsb' 10 12
  let imm16 : BitVec 16 := w.extractLsb' 5 16
  let imm19 : BitVec 19 := w.extractLsb' 5 19
  let imm26 : BitVec 26 := w.extractLsb' 0 26
  let hw : BitVec 2 := w.extractLsb' 21 2
  match f with
  | hint => .hint (w.extractLsb' 5 7)
  | mrs => .mrs rd sys
  | msr => .msr sys rd
  | movzX => .movz true rd imm16 hw
  | movzW => .movz false rd imm16 hw
  | movkX => .movk true rd imm16 hw
  | movkW => .movk false rd imm16 hw
  | udivX => .udiv true rd rn rm
  | udivW => .udiv false rd rn rm
  | msubX => .msub true rd rn rm ra
  | msubW => .msub false rd rn rm ra
  | strX => .str true rd rn imm12
  | strW => .str false rd rn imm12
  | ldrX => .ldr true rd rn imm12
  | ldrW => .ldr false rd rn imm12
  | add => .add rd rn imm12
  | adrp => .adrp rd (w.extractLsb' 5 19 ++ w.extractLsb' 29 2)
  | b => .b false imm26
  | bl => .b true imm26
  | cbzX => .cbz true false rd imm19
  | cbnzX => .cbz true true rd imm19
  | cbzW => .cbz false false rd imm19
  | cbnzW => .cbz false true rd imm19
  | ret => .ret rn

theorem mem_all (f : Form) : f ∈ all := by
  cases f <;> decide

/-- Words of two forms differ in a bit that both of them fix. -/
theorem apart (f g : Form) (h : f ≠ g) : f.value &&& g.mask ≠ g.value &&& f.mask := by
  have hall : ∀ f ∈ all, ∀ g ∈ all, f ≠ g → f.value &&& g.mask ≠ g.value &&& f.mask := by decide
  exact hall f (mem_all f) g (mem_all g) h

/-- A word has one form. -/
theorem eq_of_matches {f g : Form} {w : BitVec 32} (hf : f.Matches w) (hg : g.Matches w) : f = g := by
  by_contra hne
  refine apart f g hne ?_
  rw [← hf, ← hg, BitVec.and_assoc, BitVec.and_assoc, BitVec.and_comm f.mask]

end Form

/-- The instruction of a word. -/
def decode (w : BitVec 32) : Option Insn :=
  (Form.all.find? fun f => f.Matches w).map fun f => f.insn w

/-- A word of a form is an instruction of it. -/
theorem decode_of_matches {f : Form} {w : BitVec 32} (h : f.Matches w) : decode w = some (f.insn w) := by
  unfold decode
  have hsome : (Form.all.find? fun f => f.Matches w).isSome :=
    List.find?_isSome.mpr ⟨f, Form.mem_all f, decide_eq_true h⟩
  obtain ⟨g, hg⟩ := Option.isSome_iff_exists.mp hsome
  have hmatches : g.Matches w := of_decide_eq_true (List.find?_some (p := fun f : Form => decide (f.Matches w)) hg)
  rw [hg, Form.eq_of_matches hmatches h]
  rfl

/-- More bits than those of the form are known. -/
theorem Form.matches_of_and {f : Form} {w m v : BitVec 32} (h : w &&& m = v)
    (hm : m &&& f.mask = f.mask) (hv : v &&& f.mask = f.value) : f.Matches w := by
  unfold Form.Matches
  rw [← hv, ← h, BitVec.and_assoc, hm]

/-- The word of a branch. -/
theorem decode_b (imm : BitVec 26) : decode (5#6 ++ imm) = some (.b false imm) := by
  have hmatches : Form.b.Matches (5#6 ++ imm) := by
    have hmask : Form.b.mask = 63#6 ++ 0#26 := rfl
    unfold Form.Matches
    rw [hmask, BitVec.and_append, BitVec.and_zero]
    rfl
  rw [decode_of_matches hmatches]
  exact congrArg (fun i => some (Insn.b false i)) BitVec.extractLsb'_append_eq_right

/-! ## The machine -/

/-- A machine. -/
structure State where
  x : Reg → Word
  sp : Word
  pc : Word
  sys : BitVec 15 → Word
  mem : Memory
  /-- A call through a register has not arrived yet. -/
  called : Bool

/-- The result of an operation, in its width. -/
def narrow (wide : Bool) (v : Word) : Word := if wide then v else v &&& 0xFFFFFFFF

namespace State

/-- The word that is executed next. -/
def fetch (s : State) : BitVec 32 := BitVec.ofNat 32 (leNat (s.mem.read s.pc 4))

/-- A register that is read. -/
def get (s : State) (r : Reg) : Word := if r = 31 then 0 else s.x r

/-- A register that is the base of an address. -/
def base (s : State) (r : Reg) : Word := if r = 31 then s.sp else s.x r

/-- A register that is written. -/
def set (s : State) (r : Reg) (v : Word) : State :=
  if r = 31 then s else { s with x := Function.update s.x r v }

/-- To the next instruction. -/
def next (s : State) : State := { s with pc := s.pc + 4 }

/-- To an instruction at a distance. -/
def jump (s : State) {n : ℕ} (imm : BitVec n) : State := { s with pc := s.pc + imm.signExtend 64 <<< 2 }

/-- The bytes of a value, in its width. -/
def store (s : State) (wide : Bool) (a : Addr) (v : Word) : State :=
  { s with mem := s.mem.write a (leBytes (if wide then 8 else 4) v.toNat) }

/-- The value of bytes, in its width. -/
def load (s : State) (wide : Bool) (a : Addr) : Word :=
  BitVec.ofNat 64 (leNat (s.mem.read a (if wide then 8 else 4)))

end State

/-- Where a load or a store with an offset goes. -/
def address (s : State) (wide : Bool) (rn : Reg) (imm : BitVec 12) : Addr :=
  s.base rn + imm.setWidth 64 <<< if wide then 3 else 2

/-- What an instruction does. -/
def exec (s : State) : Insn → State
  | .hint _ => s.next
  | .mrs rt sys => (s.set rt (s.sys sys)).next
  | .msr sys rt => { s with sys := Function.update s.sys sys (s.get rt) }.next
  | .movz _ rd imm hw => (s.set rd (imm.setWidth 64 <<< (16 * hw.toNat))).next
  | .movk wide rd imm hw =>
    let kept := s.get rd &&& ~~~(0xFFFF#64 <<< (16 * hw.toNat))
    (s.set rd (narrow wide (kept ||| imm.setWidth 64 <<< (16 * hw.toNat)))).next
  | .udiv wide rd rn rm =>
    (s.set rd (narrow wide (s.get rn) / narrow wide (s.get rm))).next
  | .msub wide rd rn rm ra =>
    (s.set rd (narrow wide (s.get ra - s.get rn * s.get rm))).next
  | .str wide rt rn imm => (s.store wide (address s wide rn imm) (s.get rt)).next
  | .ldr wide rt rn imm => (s.set rt (s.load wide (address s wide rn imm))).next
  | .add rd rn imm =>
    let v := s.base rn + imm.setWidth 64
    if rd = 31 then { s with sp := v }.next else (s.set rd v).next
  | .adrp rd imm => (s.set rd ((s.pc &&& ~~~0xFFF#64) + imm.signExtend 64 <<< 12)).next
  | .b link imm => (if link then s.set 30 (s.pc + 4) else s).jump imm
  | .cbz wide nonzero rt imm =>
    if decide (narrow wide (s.get rt) = 0) = nonzero then s.next else s.jump imm
  | .ret rn => { s with pc := s.get rn }

/-- The instruction takes a call through a register: `bti c`, `bti jc`, `paciasp` or `pacibsp`. -/
def Insn.isPad : Insn → Bool
  | .hint op => op = 34 ∨ op = 38 ∨ op = 25 ∨ op = 27
  | _ => false

/-- One step, unless the word is no instruction or a call does not arrive at a landing pad. -/
def step (s : State) : Option State :=
  match decode s.fetch with
  | none => none
  | some i => if s.called ∧ ¬i.isPad then none else some (exec { s with called := false } i)

/-- A number of steps. -/
def steps : ℕ → State → Option State
  | 0, s => some s
  | n + 1, s => (step s).bind (steps n)

/-! ## Registers -/

variable {s s' : State} {r r' : Reg} {v : Word} {wide : Bool} {a : Addr}

namespace State

@[simp] theorem get_set_self (h : r ≠ 31) : (s.set r v).get r = v := by
  unfold get set
  rw [if_neg h, if_neg h]
  exact Function.update_self ..

@[simp] theorem get_set_of_ne (h : r ≠ r') : (s.set r v).get r' = s.get r' := by
  unfold get
  by_cases hr : r' = 31
  · rw [if_pos hr, if_pos hr]
  · rw [if_neg hr, if_neg hr]
    unfold set
    split_ifs
    · rfl
    · exact Function.update_of_ne (Ne.symm h) v s.x

theorem base_eq_get (h : r ≠ 31) : s.base r = s.get r := by
  unfold base get
  rw [if_neg h, if_neg h]

@[simp] theorem mem_set : (s.set r v).mem = s.mem := by
  unfold set
  split_ifs <;> rfl

@[simp] theorem pc_set : (s.set r v).pc = s.pc := by
  unfold set
  split_ifs <;> rfl

@[simp] theorem sp_set : (s.set r v).sp = s.sp := by
  unfold set
  split_ifs <;> rfl

@[simp] theorem sys_set : (s.set r v).sys = s.sys := by
  unfold set
  split_ifs <;> rfl

@[simp] theorem called_set : (s.set r v).called = s.called := by
  unfold set
  split_ifs <;> rfl

@[simp] theorem get_next : s.next.get r = s.get r := rfl
@[simp] theorem mem_next : s.next.mem = s.mem := rfl
@[simp] theorem pc_next : s.next.pc = s.pc + 4 := rfl
@[simp] theorem sp_next : s.next.sp = s.sp := rfl
@[simp] theorem sys_next : s.next.sys = s.sys := rfl
@[simp] theorem called_next : s.next.called = s.called := rfl

@[simp] theorem mem_store :
    (s.store wide a v).mem = s.mem.write a (leBytes (if wide then 8 else 4) v.toNat) := rfl

@[simp] theorem get_store : (s.store wide a v).get r = s.get r := rfl
@[simp] theorem pc_store : (s.store wide a v).pc = s.pc := rfl
@[simp] theorem sp_store : (s.store wide a v).sp = s.sp := rfl
@[simp] theorem sys_store : (s.store wide a v).sys = s.sys := rfl
@[simp] theorem called_store : (s.store wide a v).called = s.called := rfl

end State

/-- A store without an offset goes where its base points to. -/
theorem address_zero (h : r ≠ 31) : address s wide r 0 = s.get r := by
  unfold address
  rw [State.base_eq_get h]
  cases wide <;> exact BitVec.add_zero _

theorem mem_exec_str {rt rn : Reg} {imm : BitVec 12} : (exec s (.str wide rt rn imm)).mem =
    s.mem.write (address s wide rn imm) (leBytes (if wide then 8 else 4) (s.get rt).toNat) := rfl

theorem get_exec_str {rt rn : Reg} {imm : BitVec 12} :
    (exec s (.str wide rt rn imm)).get r = s.get r := rfl

theorem exec_cbz_of_ne {rt : Reg} {imm : BitVec 19} (h : s.get rt ≠ 0) :
    exec s (.cbz true false rt imm) = s.next :=
  if_pos (decide_eq_false h)

theorem exec_cbz_of_eq {rt : Reg} {imm : BitVec 19} (h : s.get rt = 0) :
    exec s (.cbz true false rt imm) = s.jump imm :=
  if_neg fun hne => of_decide_eq_false hne h

/-- A branch goes four times as far as its immediate says. -/
theorem pc_jump {n : ℕ} (imm : BitVec n) :
    (s.jump imm).pc = s.pc + BitVec.ofInt 64 (4 * imm.toInt) := by
  have hfour : BitVec.twoPow 64 2 = BitVec.ofInt 64 4 := rfl
  unfold State.jump BitVec.signExtend
  dsimp only
  rw [BitVec.shiftLeft_eq_mul_twoPow, hfour, ← BitVec.ofInt_mul, Int.mul_comm]

/-! ## Steps -/

variable {w k n : ℕ} {ws : List ℕ} {i : Insn} {is : List Insn}

/-- The bytes of words. -/
def pack (ws : List ℕ) : Bytes := ws.flatMap (leBytes 4)

theorem length_pack (ws : List ℕ) : (pack ws).length = 4 * ws.length := by
  induction ws with
  | nil => rfl
  | cons w ws ih =>
    unfold pack at ih ⊢
    rw [List.flatMap_cons, List.length_append, length_leBytes, ih, List.length_cons]
    ring

/-- The bytes of the word with an index. -/
theorem slice_pack (h : ws[k]? = some w) : slice (pack ws) (4 * k) (4 * k + 4) = leBytes 4 w := by
  obtain ⟨hk, rfl⟩ := List.getElem?_eq_some_iff.mp h
  have hrecords := @map_slice_flatten 4 [] (ws.map (leBytes 4)) fun r hr => by
    obtain ⟨w, -, rfl⟩ := List.mem_map.mp hr
    exact length_leBytes 4 w
  have hget := congrArg (fun l => l[k]?) hrecords
  simp only [List.getElem?_map, List.length_map, List.getElem?_range hk, List.nil_append,
    List.length_nil, Nat.zero_add, Option.map_some, List.getElem?_eq_getElem hk] at hget
  unfold pack
  rw [List.flatMap_def, ← Option.some.inj hget]
  congr 1 <;> ring

/-- The word that is executed, in code that stands at an address. -/
theorem fetch_of_holds (h : s.mem.Holds a (pack ws)) (hw : ws[k]? = some w)
    (hpc : s.pc = a + BitVec.ofNat 64 (4 * k)) : s.fetch = BitVec.ofNat 32 w := by
  have hk : k < ws.length := (List.getElem?_eq_some_iff.mp hw).1
  have hslice := Memory.Holds.slice (i := 4 * k) (j := 4 * k + 4) h (by
    rw [length_pack]
    omega)
  rw [slice_pack hw, ← hpc] at hslice
  unfold Memory.Holds at hslice
  rw [length_leBytes] at hslice
  unfold State.fetch
  rw [hslice, leNat_leBytes]
  apply BitVec.eq_of_toNat_eq
  rw [BitVec.toNat_ofNat, BitVec.toNat_ofNat]
  exact Nat.mod_mod ..

/-- A step executes the instruction of the word. -/
theorem step_eq (hfetch : s.fetch = BitVec.ofNat 32 w) (hdecode : decode (BitVec.ofNat 32 w) = some i)
    (hcalled : s.called = false) : step s = some (exec s i) := by
  unfold step
  rw [hfetch, hdecode, hcalled]
  exact congrArg (fun t => some (exec t i)) (by rw [← hcalled])

/-- A call through a register arrives at a landing pad. -/
theorem step_pad (hfetch : s.fetch = BitVec.ofNat 32 w)
    (hdecode : decode (BitVec.ofNat 32 w) = some i) (hpad : i.isPad = true) :
    step s = some (exec { s with called := false } i) := by
  unfold step
  rw [hfetch, hdecode]
  exact if_neg fun h => h.2 hpad

/-- One step, and the steps after it. -/
theorem steps_cons (h : step s = some s') : steps (n + 1) s = steps n s' := by
  rw [steps, h]
  rfl

theorem steps_add (n m : ℕ) : ∀ s, steps (n + m) s = (steps n s).bind (steps m) := by
  induction n with
  | zero => exact fun s => by rw [Nat.zero_add]; rfl
  | succ n ih =>
    intro s
    rw [Nat.succ_add, steps, steps, Option.bind_assoc]
    exact congrArg _ (funext ih)

/-- At a landing pad, it does not matter whether there was a call. -/
theorem steps_pad (hfetch : s.fetch = BitVec.ofNat 32 w)
    (hdecode : decode (BitVec.ofNat 32 w) = some i) (hpad : i.isPad = true) :
    steps (n + 1) s = steps (n + 1) { s with called := false } := by
  rw [steps, steps, step_pad hfetch hdecode hpad, step_eq (s := { s with called := false }) hfetch
    hdecode rfl]

/-- A step in code that stands at an address. -/
theorem step_code (hcode : s.mem.Holds a (pack ws)) (hpc : s.pc = a + BitVec.ofNat 64 (4 * k))
    (hcalled : s.called = false) (hw : ws[k]? = some w)
    (hdecode : decode (BitVec.ofNat 32 w) = some i) : step s = some (exec s i) :=
  step_eq (fetch_of_holds hcode hw hpc) hdecode hcalled

/-- The words are those of the instructions. -/
def Encodes (ws : List ℕ) (is : List Insn) : Prop :=
  ∀ (k : ℕ) (i : Insn), is[k]? = some i →
    ∃ w, ws[k]? = some w ∧ decode (BitVec.ofNat 32 w) = some i

/-- A step in code that is known by its instructions. -/
theorem Encodes.step (hws : Encodes ws is) (hcode : s.mem.Holds a (pack ws))
    (hpc : s.pc = a + BitVec.ofNat 64 (4 * k)) (hcalled : s.called = false) (hi : is[k]? = some i) :
    step s = some (exec s i) := by
  obtain ⟨w, hw, hdecode⟩ := hws k i hi
  exact step_code hcode hpc hcalled hw hdecode

/-- The place of the next instruction. -/
theorem pc_succ (hpc : s.pc = a + BitVec.ofNat 64 (4 * k)) :
    s.pc + 4 = a + BitVec.ofNat 64 (4 * (k + 1)) := by
  rw [hpc, BitVec.add_assoc, Nat.mul_succ, BitVec.ofNat_add]
  rfl

/-- The instruction goes to the one after it. -/
def Insn.Straight : Insn → Prop
  | .b .. | .cbz .. | .ret _ => False
  | _ => True

instance (i : Insn) : Decidable i.Straight := by
  unfold Insn.Straight
  split <;> infer_instance

theorem pc_exec (h : i.Straight) : (exec s i).pc = s.pc + 4 := by
  cases i with
  | b | cbz | ret => exact h.elim
  | add rd rn imm =>
    unfold exec
    dsimp only
    split_ifs
    · rfl
    · rw [State.pc_next, State.pc_set]
  | _ => simp [exec]

theorem called_exec : (exec s i).called = s.called := by
  cases i with
  | add rd rn imm =>
    unfold exec
    dsimp only
    split_ifs
    · rfl
    · rw [State.called_next, State.called_set]
  | b link imm =>
    cases link
    · rfl
    · exact (State.called_set : (s.set 30 (s.pc + 4)).called = s.called)
  | cbz wide nonzero rt imm =>
    unfold exec
    dsimp only
    split_ifs <;> rfl
  | _ => simp [exec]

/-- Straight code executes its instructions, one after the other, as long as it stands in memory. -/
theorem steps_straight : ∀ {is : List Insn} {s : State} {k : ℕ},
    (∀ j, ∀ i, is[j]? = some i → i.Straight ∧
      ∃ w, ws[k + j]? = some w ∧ decode (BitVec.ofNat 32 w) = some i) →
    (∀ j < is.length, ((is.take j).foldl exec s).mem.Holds a (pack ws)) →
    s.pc = a + BitVec.ofNat 64 (4 * k) → s.called = false →
    steps is.length s = some (is.foldl exec s) ∧
      (is.foldl exec s).pc = a + BitVec.ofNat 64 (4 * (k + is.length)) ∧
      (is.foldl exec s).called = false
  | [], s, k, _, _, hpc, hcalled => ⟨rfl, hpc, hcalled⟩
  | i :: is, s, k, hwords, hmem, hpc, hcalled => by
    obtain ⟨hstraight, w, hw, hdecode⟩ := hwords 0 i rfl
    have hstep : step s = some (exec s i) :=
      step_code (hmem 0 (Nat.succ_pos _)) hpc hcalled hw hdecode
    have hrest := @steps_straight is (exec s i) (k + 1)
      (fun j i' hi => by
        have h := hwords (j + 1) i' hi
        rwa [Nat.add_comm j, ← Nat.add_assoc] at h)
      (fun j hj => hmem (j + 1) (Nat.succ_lt_succ hj))
      ((pc_exec hstraight).trans (pc_succ hpc)) (called_exec.trans hcalled)
    rw [List.length_cons, steps_cons hstep, List.foldl_cons, Nat.add_comm is.length, ← Nat.add_assoc]
    exact hrest

end DarwinVm.A64
