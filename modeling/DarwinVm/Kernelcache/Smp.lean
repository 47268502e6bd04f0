import DarwinVm.Kernelcache.Rtc

/-!
# Virtual processors

`smp_pv_patch.py` writes six patches over the code of a kernelcache, some of them branches that it
makes. A branch goes where it should, if that is not too far away (`step_branch`). Wherever the image
that is written is mapped for a kernel, each patch does what its comment says (`adapted_runs`).
-/

namespace DarwinVm.Kernelcache.Smp

open A64

/-! ## The image -/

/-- `SHA256` -/
def digest : List Char :=
  "dc0f5b6a6fa848053c301949c8376c216c6223c047203b93e408a93d3440f906".toList

/-- `branch` -/
def branch (src dst : ℤ) : ℕ := 0x14000000 ||| ((dst - src) / 4 % 0x4000000).toNat

/-- `put` -/
def put (address : ℕ) (words : List ℕ) : Patch := ⟨address - base, pack words⟩

/-- Where the service of the power management is looked up. -/
def serviceLookup : ℕ := 0xFFFFFFF00B2F8194

/-- Where the idle parameters of a processor are read, and where it is registered. -/
def idleParameters : ℕ := 0xFFFFFFF00B2F8314
def registration : ℕ := 0xFFFFFFF00B2F8344

/-- The timer of an idle processor. -/
def idleTimer : ℕ := 0xFFFFFFF00B2F8950

/-- What a processor does when it becomes idle, and when it is no longer. -/
def idleEnter : ℕ := 0xFFFFFFF00B2F898C

/-- Where `cpu_start` has the number of the processor, and where it goes on. -/
def cpuStart : ℕ := 0xFFFFFFF00AC61804
def cpuStarted : ℕ := 0xFFFFFFF00AC61834

/-- The end of `cpu_start`, after its epilogue. -/
def cpuReturn : ℕ := 0xFFFFFFF00AC61844

/-- BTI; CBZ timeout,+8; STR XZR,[timeout]; RET. -/
def timerWords : List ℕ := [0xD503245F, 0xB4000041, 0xF900003F, 0xD65F03C0]
def enterWords : List ℕ := [0xD503245F, 0xB4000042, 0xF900005F, 0xD65F03C0]

/-- `MSR S3_0_C15_C15_7,x1`, and a branch. -/
def startWords : List ℕ := [0xD518FFE1, branch (cpuStart + 4) cpuStarted]

/-- The calls of `put`, in order. -/
def puts : List Patch :=
  [put serviceLookup [0xD2800000],
    put idleParameters [branch idleParameters registration],
    put idleTimer timerWords,
    put idleEnter enterWords,
    put cpuStart startWords,
    put cpuReturn [0xD65F03C0]]

/-- The image that is written, from the one that is read. -/
def adapt (data : Bytes) : Bytes := Patch.writeAll puts data

/-- `main`, from the image that is read to the one that is written, if it is the supported one. -/
def main (sha256 : Bytes → List Char) (data : Bytes) : Option Bytes :=
  if sha256 data ≠ digest then none else some (adapt data)

/-! ## Branches -/

variable {s : State}

theorem ofNat_branch (src dst : ℤ) :
    BitVec.ofNat 32 (branch src dst) = 5#6 ++ BitVec.ofInt 26 ((dst - src) / 4) := by
  have hlt : ((dst - src) / 4 % 0x4000000).toNat < 2 ^ 26 := by omega
  have hor : branch src dst = 2 ^ 26 * 5 + ((dst - src) / 4 % 0x4000000).toNat :=
    (Nat.two_pow_add_eq_or_of_lt hlt 5).symm
  -- The code of the instruction has no bit in common with the immediate.
  have hfive : (5#6).toNat <<< 26 = 2 ^ 26 * 5 := rfl
  apply BitVec.eq_of_toNat_eq
  rw [BitVec.toNat_ofNat, Nat.mod_eq_of_lt (by omega), BitVec.toNat_append, BitVec.toNat_ofInt, hfive,
    hor]
  exact Nat.two_pow_add_eq_or_of_lt hlt 5

/-- A branch goes from its source to its destination, if they are not too far apart. -/
theorem step_branch {src dst : ℤ} (hfetch : s.fetch = BitVec.ofNat 32 (branch src dst))
    (hpc : s.pc = BitVec.ofInt 64 src) (hcalled : s.called = false) (halign : 4 ∣ dst - src)
    (hback : -2 ^ 27 ≤ dst - src) (hforth : dst - src < 2 ^ 27) :
    step s = some { s with pc := BitVec.ofInt 64 dst } := by
  have hdecode : decode (BitVec.ofNat 32 (branch src dst)) =
      some (.b false (BitVec.ofInt 26 ((dst - src) / 4))) := by
    rw [ofNat_branch, decode_b]
  -- The immediate is signed, and it counts words.
  have himm : (BitVec.ofInt 26 ((dst - src) / 4)).toInt = (dst - src) / 4 :=
    BitVec.toInt_ofInt_eq_self (by decide) (by omega) (by omega)
  have hpc' : (s.jump (BitVec.ofInt 26 ((dst - src) / 4))).pc = BitVec.ofInt 64 dst := by
    rw [pc_jump, himm, Int.mul_ediv_cancel' halign, hpc, ← BitVec.ofInt_add, add_sub_cancel]
  rw [step_eq hfetch hdecode hcalled, ← hpc']
  rfl

/-! ## Stubs -/

/-- The instructions of a stub that gives no deadline through a pointer. -/
def stub (r : Reg) : List Insn := [.hint 34, .cbz true false r 2, .str true 31 r 0, .ret 30]

/-- A pointer to a deadline that is not null gets zero, and nothing else changes. -/
structure NoDeadline (r : Reg) (s s' : State) : Prop where
  returns : s'.pc = s.get 30
  memory : s'.mem = if s.get r = 0 then s.mem else s.mem.write (s.get r) (leBytes 8 0)
  registers : ∀ q, s'.get q = s.get q
  sp : s'.sp = s.sp
  sys : s'.sys = s.sys

theorem encodes_stubs : Encodes timerWords (stub 1) ∧ Encodes enterWords (stub 2) := by
  constructor
  all_goals
    intro k i hi
    have hk : k < 4 := (List.getElem?_eq_some_iff.mp hi).1
    interval_cases k <;> cases hi <;> exact ⟨_, rfl, by decide⟩

variable {m : Memory} {r : Reg} {ws : List ℕ}

/-- A stub gives no deadline after a call has arrived. -/
theorem runs_arrived (hws : Encodes ws (stub r)) (hlen : ws.length = 4) (hr : r ≠ 31)
    (hcode : s.mem.Holds s.pc (pack ws)) (hcalled : s.called = false)
    (hapart : s.get r ≠ 0 → Memory.Apart s.pc 16 (s.get r) 8) :
    ∃ n s', steps (n + 1) s = some s' ∧ NoDeadline r s s' := by
  have hhint : step s = some s.next := hws.step (k := 0) hcode (BitVec.add_zero _).symm hcalled rfl
  have hcbz : step s.next = some (exec s.next (.cbz true false r 2)) :=
    hws.step (k := 1) hcode rfl hcalled rfl
  by_cases hnull : s.get r = 0
  · -- The store is jumped over.
    rw [exec_cbz_of_eq (s := s.next) hnull] at hcbz
    have hpc : (s.next.jump (2 : BitVec 19)).pc = s.pc + BitVec.ofNat 64 (4 * 3) := by
      rw [pc_jump, State.pc_next, BitVec.add_assoc]
      rfl
    have hret := hws.step (s := s.next.jump (2 : BitVec 19)) (k := 3) hcode hpc hcalled rfl
    refine ⟨2, exec (s.next.jump (2 : BitVec 19)) (.ret 30), ?_, rfl, (if_pos hnull).symm,
      fun q => rfl, rfl, rfl⟩
    rw [steps_cons hhint, steps_cons hcbz, steps_cons hret]
    rfl
  · -- Zero is stored, and the code still stands.
    rw [exec_cbz_of_ne (s := s.next) hnull] at hcbz
    have hpc : s.next.next.pc = s.pc + BitVec.ofNat 64 (4 * 2) := pc_succ rfl
    have hstr : step s.next.next = some (exec s.next.next (.str true 31 r 0)) :=
      hws.step (k := 2) hcode hpc hcalled rfl
    have hmem : (exec s.next.next (.str true 31 r 0)).mem = s.mem.write (s.get r) (leBytes 8 0) := by
      rw [mem_exec_str, address_zero hr]
      rfl
    have hpacked : (pack ws).length = 16 := by rw [length_pack, hlen]
    have hcode' : (exec s.next.next (.str true 31 r 0)).mem.Holds s.pc (pack ws) := by
      rw [hmem]
      exact hcode.write (by rw [hpacked, length_leBytes]; exact hapart hnull)
        (by rw [hpacked]; norm_num)
    have hret := hws.step (k := 3) hcode' (pc_succ hpc) hcalled rfl
    refine ⟨3, exec (exec s.next.next (.str true 31 r 0)) (.ret 30), ?_, rfl,
      hmem.trans (if_neg hnull).symm, fun q => rfl, rfl, rfl⟩
    rw [steps_cons hhint, steps_cons hcbz, steps_cons hstr, steps_cons hret]
    rfl

/-- A call of a stub gives no deadline, if the pointer does not point into its code. -/
theorem runs_stub (hws : Encodes ws (stub r)) (hlen : ws.length = 4) (hr : r ≠ 31)
    (hcode : s.mem.Holds s.pc (pack ws))
    (hapart : s.get r ≠ 0 → Memory.Apart s.pc 16 (s.get r) 8) :
    ∃ n s', steps n s = some s' ∧ NoDeadline r s s' := by
  obtain ⟨w, hw, hdecode⟩ := hws 0 (.hint 34) rfl
  obtain ⟨n, s', hsteps, hruns⟩ :=
    runs_arrived (s := { s with called := false }) hws hlen hr hcode rfl hapart
  refine ⟨n + 1, s', ?_, hruns.returns, hruns.memory, hruns.registers, hruns.sp, hruns.sys⟩
  rwa [steps_pad (fetch_of_holds (k := 0) hcode hw (BitVec.add_zero _).symm) hdecode rfl]

/-! ## The patches -/

variable {data : Bytes}

theorem stop_put (address : ℕ) (words : List ℕ) :
    (put address words).stop = address - base + 4 * words.length := by
  unfold Patch.stop put
  rw [length_pack]

/-- Words that stand one after the other do not meet. -/
theorem apart_put {address address' : ℕ} {ws' : List ℕ}
    (h : address - base + 4 * ws.length ≤ address' - base) :
    (put address ws).Apart (put address' ws') :=
  .inl (by rwa [stop_put])

theorem pairwise_puts : puts.Pairwise Patch.Apart := by
  unfold puts
  simp only [List.pairwise_cons, List.forall_mem_cons, List.not_mem_nil, false_implies, implies_true,
    and_true, List.Pairwise.nil]
  -- The patches are written in this order, but `cpu_start` lies before the others.
  refine ⟨⟨apart_put ?_, apart_put ?_, apart_put ?_, (apart_put ?_).symm, (apart_put ?_).symm⟩,
    ⟨apart_put ?_, apart_put ?_, (apart_put ?_).symm, (apart_put ?_).symm⟩,
    ⟨apart_put ?_, (apart_put ?_).symm, (apart_put ?_).symm⟩,
    ⟨(apart_put ?_).symm, (apart_put ?_).symm⟩, apart_put ?_⟩
  all_goals decide

/-- The words of a patch stand at its address, wherever the image is mapped. -/
theorem holds_put (address : ℕ) (hfits : ∀ p ∈ puts, p.stop ≤ data.length)
    (hm : m.Holds (BitVec.ofNat 64 base) (adapt data)) (hput : put address ws ∈ puts)
    (hbase : base ≤ address) : m.Holds (BitVec.ofNat 64 address) (pack ws) := by
  obtain ⟨hle, hbytes⟩ := Patch.holds_writeAll_of_mem hfits pairwise_puts hput
  have hslice := Memory.Holds.slice (i := (put address ws).offset) hm hle
  have hplace : BitVec.ofNat 64 base + BitVec.ofNat 64 (put address ws).offset =
      BitVec.ofNat 64 address := by
    rw [← BitVec.ofNat_add]
    exact congrArg (BitVec.ofNat 64) (Nat.add_sub_cancel' hbase)
  have hwords : slice (adapt data) (put address ws).offset (put address ws).stop = pack ws := hbytes
  rw [hwords, hplace] at hslice
  exact hslice

/-- The system register that starts a processor of the virtual machine, `S3_0_C15_C15_7`. -/
def startCpu : BitVec 15 := 0x47FF

/-- What the comments of the patches say of a kernel. -/
structure Adapted (s : State) : Prop where
  /-- There is no service of the power management. -/
  service : s.pc = BitVec.ofNat 64 serviceLookup → s.called = false → step s = some (s.set 0 0).next
  /-- The idle parameters are not read. -/
  idle : s.pc = BitVec.ofNat 64 idleParameters → s.called = false →
    step s = some { s with pc := BitVec.ofNat 64 registration }
  timer : s.pc = BitVec.ofNat 64 idleTimer → (s.get 1 ≠ 0 → Memory.Apart s.pc 16 (s.get 1) 8) →
    ∃ n s', steps n s = some s' ∧ NoDeadline 1 s s'
  enter : s.pc = BitVec.ofNat 64 idleEnter → (s.get 2 ≠ 0 → Memory.Apart s.pc 16 (s.get 2) 8) →
    ∃ n s', steps n s = some s' ∧ NoDeadline 2 s s'
  /-- The processor whose number was loaded is started. -/
  start : s.pc = BitVec.ofNat 64 cpuStart → s.called = false →
    steps 2 s = some { s with
      pc := BitVec.ofNat 64 cpuStarted
      sys := Function.update s.sys startCpu (s.get 1) }
  returns : s.pc = BitVec.ofNat 64 cpuReturn → s.called = false →
    step s = some { s with pc := s.get 30 }

/-- Two words write the number of a processor to the register that starts it, and go on. -/
theorem runs_start (hcode : s.mem.Holds (BitVec.ofNat 64 cpuStart) (pack startWords))
    (hpc : s.pc = BitVec.ofNat 64 cpuStart) (hcalled : s.called = false) :
    steps 2 s = some { s with
      pc := BitVec.ofNat 64 cpuStarted
      sys := Function.update s.sys startCpu (s.get 1) } := by
  have hpc₀ : s.pc = BitVec.ofNat 64 cpuStart + BitVec.ofNat 64 (4 * 0) :=
    hpc.trans (BitVec.add_zero _).symm
  have hmsr : step s = some (exec s (.msr startCpu 1)) := step_code hcode hpc₀ hcalled rfl (by decide)
  have hpc₁ : (exec s (.msr startCpu 1)).pc = BitVec.ofNat 64 cpuStart + BitVec.ofNat 64 (4 * 1) :=
    pc_succ hpc₀
  have hb := step_branch (fetch_of_holds (s := exec s (.msr startCpu 1)) (k := 1) hcode rfl hpc₁)
    (hpc₁.trans (by decide)) hcalled (by decide) (by decide) (by decide)
  rw [steps_cons hmsr, steps_cons hb, BitVec.ofInt_natCast]
  rfl

/-- What the tool writes has the length of the image, and its bytes outside of the patches. Where it
is mapped for a kernel, the patches do what their comments say. -/
theorem adapted_runs (hfits : ∀ p ∈ puts, p.stop ≤ data.length) :
    ((adapt data).length = data.length ∧
      ∀ k, (∀ p ∈ puts, ¬p.Covers k) → (adapt data)[k]? = data[k]?) ∧
    ∀ s : State, s.mem.Holds (BitVec.ofNat 64 base) (adapt data) → Adapted s := by
  refine ⟨⟨Patch.length_writeAll hfits, fun k hk => Patch.getElem?_writeAll hfits hk⟩, ?_⟩
  intro s hm
  -- The words that stand in memory, patch by patch.
  have hservice := holds_put serviceLookup hfits hm (.head _) (by decide)
  have hidle := holds_put idleParameters hfits hm (.tail _ (.head _)) (by decide)
  have htimer := holds_put idleTimer hfits hm (.tail _ (.tail _ (.head _))) (by decide)
  have henter := holds_put idleEnter hfits hm (.tail _ (.tail _ (.tail _ (.head _))))
    (by decide)
  have hstart := holds_put cpuStart hfits hm
    (.tail _ (.tail _ (.tail _ (.tail _ (.head _))))) (by decide)
  have hreturn := holds_put cpuReturn hfits hm
    (.tail _ (.tail _ (.tail _ (.tail _ (.tail _ (.head _)))))) (by decide)
  exact {
    service := fun hpc hcalled =>
      step_code (k := 0) hservice (hpc.trans (BitVec.add_zero _).symm) hcalled rfl
        (i := .movz true 0 0 0) (by decide)
    idle := fun hpc hcalled => by
      have hfetch := fetch_of_holds (k := 0) hidle rfl (hpc.trans (BitVec.add_zero _).symm)
      rw [← BitVec.ofInt_natCast] at hpc ⊢
      exact step_branch hfetch hpc hcalled (by decide) (by decide) (by decide)
    timer := fun hpc hapart => runs_stub encodes_stubs.1 rfl (by decide) (hpc ▸ htimer) hapart
    enter := fun hpc hapart => runs_stub encodes_stubs.2 rfl (by decide) (hpc ▸ henter) hapart
    start := runs_start hstart
    returns := fun hpc hcalled =>
      step_code (k := 0) hreturn (hpc.trans (BitVec.add_zero _).symm) hcalled rfl (i := .ret 30)
        (by decide) }

/-- An image of zeros, which ends where the last patch does. -/
@[irreducible] def kernelImage : Bytes := List.replicate (idleEnter - base + 16) 0

theorem fits_kernelImage : ∀ p ∈ puts, p.stop ≤ kernelImage.length := by
  have hlen : kernelImage.length = idleEnter - base + 16 := by
    unfold kernelImage
    exact List.length_replicate
  rw [hlen]
  unfold puts
  simp only [List.forall_mem_cons, List.not_mem_nil, false_implies, implies_true, and_true, stop_put]
  decide

/-- A call of the timer with a pointer to low memory. -/
def timerCall (result : Bytes) : State where
  x r := if r = 1 then 0x1000 else 0x2000
  sp := 0x8000
  pc := BitVec.ofNat 64 idleTimer
  sys _ := 0
  mem := Memory.write (fun _ => 0xFF) (BitVec.ofNat 64 base) result
  called := true

theorem adapted_runs_kernelImage : ∃ n s', steps n (timerCall (adapt kernelImage)) = some s' ∧
    NoDeadline 1 (timerCall (adapt kernelImage)) s' := by
  obtain ⟨⟨hlen, -⟩, hruns⟩ := adapted_runs fits_kernelImage
  have hlen' : (adapt kernelImage).length ≤ 2 ^ 64 := by
    have himage : kernelImage.length = 70207900 := by
      unfold kernelImage
      exact List.length_replicate
    rw [hlen, himage]
    norm_num
  -- From here on, the image is any that does what it should.
  generalize adapt kernelImage = result at hruns hlen'
  have hpc : (timerCall result).pc = BitVec.ofNat 64 idleTimer := rfl
  have h₁ : (timerCall result).get 1 = 0x1000#64 := rfl
  refine (hruns (timerCall result) (holds_write hlen')).timer hpc fun _ => ?_
  rw [hpc, h₁]
  exact (apart_of_le (by decide) (by decide)).symm

end DarwinVm.Kernelcache.Smp
