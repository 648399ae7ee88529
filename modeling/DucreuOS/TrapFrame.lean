import DucreuOS.Library.Rv64

/-! # Saving and resuming a process: spawn.S

The process frame starts at the address in `sscratch` and is mapped at that address under the
page tables of the process and of the kernel, so the switches of `satp` do not move it. -/
namespace TrapFrame

open Rv64 Rv64.Machine

def sp : Reg := 2
def t0 : Reg := 5
def t1 : Reg := 6
def t2 : Reg := 7
def t3 : Reg := 28
def t4 : Reg := 29
def t5 : Reg := 30
def t6 : Reg := 31

/-! Field offsets of `process_frame_t`. -/

def gpregs (i : Reg) : Word := BitVec.ofNat 64 (8 * i.val)
def fpregs (i : Reg) : Word := BitVec.ofNat 64 (8 * i.val + 256)
def SEPC : Word := 512
def SSTATUS : Word := 520
def SIE : Word := 528
def SATP : Word := 536
def SSCRATCH : Word := 544
def STVEC : Word := 552
def TRAP_SATP : Word := 560
def TRAP_STACK : Word := 568

def loadgp (i : Reg) : Instr := .ld i (gpregs i) t6
def loadfp (i : Reg) : Instr := .fld i (fpregs i) t6
def storegp (i : Reg) : Instr := .sd i (gpregs i) t6
def storefp (i : Reg) : Instr := .fsd i (fpregs i) t6

/-- `.rept n` with its counter starting at `i`. -/
def counted (i n : ℕ) : List Reg := (List.range' i n).map (Fin.ofNat 32)

/-- Skip a block when the FS field of the status word in `t1` is off. -/
def unlessFpOff (block : List Instr) : List Instr :=
  .srli t1 t1 13 :: .andi t1 t1 3 :: .beqz t1 block.length :: block

def loadAllGp : List Instr := (counted 1 31).map loadgp

/-- Both exits end with these loads; the base is in `t6` and the status in `t1`. -/
def restore : List Instr := unlessFpOff ((counted 0 32).map loadfp) ++ loadAllGp

/-- The part of `_spawn_kthread` that loads the CSRs from the frame. -/
def loadCsrs : List Instr :=
  [.csrr t6 .sscratch,
   .ld t0 SEPC t6, .ld t1 SSTATUS t6, .ld t2 SIE t6,
   .ld t3 SATP t6, .ld t4 SSCRATCH t6, .ld t5 STVEC t6,
   .csrw .sepc t0, .csrw .sstatus t1, .csrw .sie t2,
   .csrw .satp t3, .csrw .sscratch t4, .csrw .stvec t5,
   .csrr t6 .sscratch]

/-- `_spawn_kthread` up to its `sret`. -/
def spawnKthread : List Instr := loadCsrs ++ restore

def swapIn : List Instr := [.csrrw t6 .sscratch t6, .addi t0 t0 3]

/-- The part of `_spawn_trap` that stores `t6` itself and looks at the status. -/
def storeLast : List Instr :=
  [.addi t5 t6 0, .csrrw t6 .sscratch t6, .sd t6 248 t5, .csrr t6 .sscratch, .csrr t1 .sstatus]

def toKernel : List Instr := [.ld t1 TRAP_SATP t6, .ld sp TRAP_STACK t6, .csrw .satp t1]

/-- `_spawn_trap` up to `call os_trap_handler`. -/
def spawnTrapEntry : List Instr :=
  swapIn ++ ((counted 1 30).map storegp ++ (storeLast ++
    (unlessFpOff ((counted 0 32).map storefp) ++ toKernel)))

def fromKernel : List Instr :=
  [.csrr t6 .sscratch, .ld t1 SATP t6, .csrw .satp t1, .csrr t1 .sstatus]

/-- `_spawn_trap` from the return of `os_trap_handler` up to its `sret`. -/
def spawnTrapExit : List Instr := fromKernel ++ restore

/-- A hart running a process. -/
structure Hart where
  machine : Machine
  pc : Word
  supervisor : Bool

/-- SPIE takes SIE, SIE is cleared, SPP takes the privilege. -/
def trapStatus (supervisor : Bool) (s : Word) : Word :=
  (s &&& ~~~0x122#64) ||| (if s.getLsbD 1 then 0x20#64 else 0) |||
    (if supervisor then 0x100#64 else 0)

/-- SIE takes SPIE, SPIE is set, SPP is cleared. -/
def sretStatus (s : Word) : Word :=
  (s &&& ~~~0x102#64) ||| 0x20#64 ||| (if s.getLsbD 5 then 0x2#64 else 0)

/-- The hart takes a trap to S-mode. -/
def takeTrap (h : Hart) : Machine :=
  (h.machine.setCsr .sepc h.pc).setCsr .sstatus
    (trapStatus h.supervisor (h.machine.csr .sstatus))

def sret (m : Machine) : Hart :=
  ⟨m.setCsr .sstatus (sretStatus (m.csr .sstatus)), m.csr .sepc, (m.csr .sstatus).getLsbD 8⟩

/-- The FS field of a status word. -/
def fs (s : Word) : Word := (s >>> 13) &&& 3

/-- `m'` is reached from `m` without writing the saved registers in the frame, its own address
in it, or `sscratch`. -/
structure KeepsFrame (frame : Word) (m m' : Machine) : Prop where
  sscratch : m'.csr .sscratch = m.csr .sscratch
  gp (i : Reg) : m'.mem (frame + gpregs i) = m.mem (frame + gpregs i)
  fp (i : Reg) : m'.mem (frame + fpregs i) = m.mem (frame + fpregs i)
  own : m'.mem (frame + SSCRATCH) = m.mem (frame + SSCRATCH)

/-- `os_trap_handler` on a timer interrupt, before it calls `sched_invoke`. -/
def saveSepc (frame : Word) (m : Machine) : Machine := m.store (frame + SEPC) (m.csr .sepc)

/-- The process of `h` resumed after a trap whose handler does not write its saved registers. -/
inductive Resumed (frame : Word) (h : Hart) : Hart → Prop
  | returned (m : Machine) :
      KeepsFrame frame (run spawnTrapEntry (takeTrap h)) m →
      m.csr .sepc = (run spawnTrapEntry (takeTrap h)).csr .sepc →
      m.csr .sstatus = (run spawnTrapEntry (takeTrap h)).csr .sstatus →
      Resumed frame h (sret (run spawnTrapExit m))
  -- `sched_invoke` parks the process, other processes run, and `process_spawn` picks it again
  | parked (m m' : Machine) :
      KeepsFrame frame (run spawnTrapEntry (takeTrap h)) m →
      m.csr .sepc = (run spawnTrapEntry (takeTrap h)).csr .sepc →
      KeepsFrame frame (saveSepc frame m) m' →
      m'.mem (frame + SEPC) = (saveSepc frame m).mem (frame + SEPC) →
      Resumed frame h (sret (run spawnKthread m'))

/-! ## Offsets -/

theorem gpregs_injective : Function.Injective gpregs := by
  intro i j h
  have := congrArg BitVec.toNat h
  simp only [gpregs, BitVec.toNat_ofNat] at this
  apply Fin.ext
  omega

theorem fpregs_injective : Function.Injective fpregs := by
  intro i j h
  have := congrArg BitVec.toNat h
  simp only [fpregs, BitVec.toNat_ofNat] at this
  apply Fin.ext
  omega

theorem gpregs_ne_fpregs (i j : Reg) : gpregs i ≠ fpregs j := by
  intro h
  have := congrArg BitVec.toNat h
  simp only [gpregs, fpregs, BitVec.toNat_ofNat] at this
  omega

theorem sscratch_ne_gpregs (i : Reg) : SSCRATCH ≠ gpregs i := by
  revert i
  decide

theorem sscratch_ne_fpregs (i : Reg) : SSCRATCH ≠ fpregs i := by
  revert i
  decide

theorem sepc_ne_gpregs (i : Reg) : SEPC ≠ gpregs i := by
  revert i
  decide

theorem mem_counted_one_30 (i : Reg) : i ∈ counted 1 30 ↔ i ≠ 0 ∧ i ≠ t6 := by
  revert i
  decide

theorem mem_counted_zero_32 (i : Reg) : i ∈ counted 0 32 := by
  revert i
  decide

/-- The last load of the general registers is the one that overwrites the base. -/
theorem counted_split : counted 1 31 = counted 1 30 ++ [t6] := by decide

/-! ## The save -/

/-- The machine in which the block under `unlessFpOff` runs: `t1` holds the FS field. -/
def withFs (m : Machine) : Machine :=
  { m with x := Function.update m.x t1 (fs (m.x t1)) }

theorem withFs_x_t6 (m : Machine) : (withFs m).x t6 = m.x t6 :=
  Function.update_of_ne (show t6 ≠ t1 by decide) (fs (m.x t1)) m.x

@[simp] theorem withFs_f (m : Machine) : (withFs m).f = m.f := rfl
@[simp] theorem withFs_csr (m : Machine) : (withFs m).csr = m.csr := rfl
@[simp] theorem withFs_mem (m : Machine) : (withFs m).mem = m.mem := rfl

theorem run_unlessFpOff (m : Machine) (block is : List Instr)
    (hb : ∀ i ∈ block, straight i = true) :
    run (unlessFpOff block ++ is) m
      = run is (if fs (m.x t1) = 0 then withFs m else run block (withFs m)) := by
  have hx : (withFs m).reg t1 = fs (m.x t1) := by
    rw [reg_of_ne _ (by decide)]
    exact Function.update_self t1 (fs (m.x t1)) m.x
  have hrun : run (unlessFpOff block ++ is) m
      = run (.beqz t1 block.length :: (block ++ is)) (withFs m) := by
    change run (.beqz t1 block.length :: (block ++ is))
      ((m.setReg t1 (m.reg t1 >>> 13)).setReg t1
        ((m.setReg t1 (m.reg t1 >>> 13)).reg t1 &&& 3)) = _
    have h1 : t1 ≠ 0 := by decide
    simp only [setReg_of_ne _ h1, reg_of_ne _ h1, Function.update_self, Function.update_idem]
    rfl
  rw [hrun]
  by_cases h : fs (m.x t1) = 0
  · rw [if_pos h]
    exact run_beqz_taken _ (hx.trans h) ..
  · rw [if_neg h, run_beqz_not_taken _ (hx.symm ▸ h), run_append _ _ _ hb]

theorem run_storegp (m : Machine) : run ((counted 1 30).map storegp) m
    = { m with mem := saved (m.x t6) gpregs m.x (counted 1 30) m.mem } :=
  run_sd m t6 gpregs (counted 1 30) (by decide)

theorem run_storefp (m : Machine) : run ((counted 0 32).map storefp) m
    = { m with mem := saved (m.x t6) fpregs m.f (counted 0 32) m.mem } :=
  run_fsd m t6 fpregs (counted 0 32)

/-- The registers as `_spawn_trap` finds them when it stores them: `t0` has been changed. -/
def trapRegs (m : Machine) : Reg → Word := Function.update m.x t0 (m.x t0 + 3)

/-- The machine after the swap and the addition. -/
theorem run_swapIn (m : Machine) : run swapIn m
    = ⟨Function.update (trapRegs m) t6 (m.csr .sscratch), m.f,
        Function.update m.csr .sscratch (m.x t6), m.mem⟩ := by
  unfold trapRegs
  rw [Function.update_comm (by decide)]
  rfl

/-- Memory after the general registers are stored. -/
def savedGp (m : Machine) : Word → Word :=
  Function.update
    (saved (m.csr .sscratch) gpregs (Function.update (trapRegs m) t6 (m.csr .sscratch))
      (counted 1 30) m.mem)
    (m.csr .sscratch + gpregs t6) (m.x t6)

/-- Memory after all registers are stored. -/
def entryMem (m : Machine) : Word → Word :=
  if fs (m.csr .sstatus) = 0 then savedGp m
  else saved (m.csr .sscratch) fpregs m.f (counted 0 32) (savedGp m)

/-- The swap back, which stores the last general register and loses the temporaries. -/
theorem run_storeLast (m : Machine) :
    ∃ x, x t6 = m.x t6 ∧ x t1 = m.csr .sstatus ∧
      run storeLast m = ⟨x, m.f, Function.update m.csr .sscratch (m.x t6),
        Function.update m.mem (m.x t6 + gpregs t6) (m.csr .sscratch)⟩ := by
  refine ⟨(run storeLast m).x, rfl, rfl, ?_⟩
  have h0 : m.x t6 + 0 + gpregs t6 = m.x t6 + gpregs t6 :=
    congrArg (· + gpregs t6) (BitVec.add_zero (m.x t6))
  rw [← h0]
  rfl

/-- All general registers are in the frame and the CSRs are as the trap left them. -/
theorem run_saveGp (m : Machine) :
    ∃ k, run storeLast (run ((counted 1 30).map storegp) (run swapIn m)) = k ∧
      k.x t6 = m.csr .sscratch ∧ k.x t1 = m.csr .sstatus ∧ k.f = m.f ∧ k.csr = m.csr ∧
      k.mem = savedGp m := by
  have h6 : Function.update (trapRegs m) t6 (m.csr .sscratch) t6 = m.csr .sscratch :=
    Function.update_self ..
  have hs : Function.update m.csr .sscratch (m.x t6) .sscratch = m.x t6 := Function.update_self ..
  have hst : Function.update m.csr .sscratch (m.x t6) .sstatus = m.csr .sstatus :=
    Function.update_of_ne (show Csr.sstatus ≠ Csr.sscratch by decide) ..
  obtain ⟨x, hx6, hx1, hrun⟩ := run_storeLast (run ((counted 1 30).map storegp) (run swapIn m))
  rw [run_storegp, run_swapIn] at hx6 hx1 hrun ⊢
  simp only [h6, hs, hst, Function.update_idem, Function.update_eq_self] at hx6 hx1 hrun
  exact ⟨_, hrun, hx6, hx1, rfl, rfl, rfl⟩

theorem run_toKernel (m : Machine) :
    (run toKernel m).mem = m.mem ∧ ∀ c, c ≠ .satp → (run toKernel m).csr c = m.csr c :=
  ⟨rfl, fun _ hc => Function.update_of_ne hc _ _⟩

theorem run_spawnTrapEntry (m : Machine) :
    (run spawnTrapEntry m).mem = entryMem m ∧
      ∀ c, c ≠ .satp → (run spawnTrapEntry m).csr c = m.csr c := by
  obtain ⟨k, hk, h6, h1, hf, hcsr, hmem⟩ := run_saveGp m
  unfold spawnTrapEntry entryMem
  rw [run_append _ swapIn _ (by decide), run_append _ _ _ (by decide),
    run_append _ storeLast _ (by decide), hk, run_unlessFpOff _ _ _ (by decide), run_storefp,
    withFs_x_t6, h6, h1, (run_toKernel _).1]
  refine ⟨?_, fun c hc => ?_⟩
  · by_cases hfs : fs (m.csr .sstatus) = 0
    · rw [if_pos hfs, if_pos hfs, withFs_mem, hmem]
    · rw [if_neg hfs, if_neg hfs, withFs_mem, withFs_f, hmem, hf]
  · rw [(run_toKernel _).2 c hc, ← hcsr, apply_ite csr]
    exact congrFun (ite_self k.csr) c

theorem savedGp_gpregs (m : Machine) (i : Reg) (hi : i ≠ 0) :
    savedGp m (m.csr .sscratch + gpregs i) = trapRegs m i := by
  unfold savedGp
  by_cases h : i = t6
  · subst h
    rw [Function.update_self]
    exact (Function.update_of_ne (show t6 ≠ t0 by decide) ..).symm
  · have hne : m.csr .sscratch + gpregs i ≠ m.csr .sscratch + gpregs t6 := by
      intro e
      exact h (gpregs_injective ((BitVec.add_right_inj _).1 e))
    rw [Function.update_of_ne hne,
      saved_of_mem _ _ _ gpregs_injective _ _ _ ((mem_counted_one_30 i).2 ⟨hi, h⟩),
      Function.update_of_ne h]

theorem savedGp_of_ne (m : Machine) (off : Word) (h : ∀ i, off ≠ gpregs i) :
    savedGp m (m.csr .sscratch + off) = m.mem (m.csr .sscratch + off) := by
  have hne (i : Reg) : m.csr .sscratch + off ≠ m.csr .sscratch + gpregs i := by
    intro e
    exact h i ((BitVec.add_right_inj _).1 e)
  unfold savedGp
  rw [Function.update_of_ne (hne t6), saved_of_ne _ _ _ _ _ _ (fun i _ => hne i)]

/-- A trap does not change the FS field. -/
theorem fs_trapStatus (b : Bool) (s : Word) : fs (trapStatus b s) = fs s := by
  have hbit (i : ℕ) (hi : i = 0 ∨ i = 1) :
      (trapStatus b s).getLsbD (13 + i) = s.getLsbD (13 + i) := by
    unfold trapStatus
    rcases hi with rfl | rfl <;> split <;> split <;> simp
  have h3 : ∀ i < 64, ¬(i = 0 ∨ i = 1) → (3#64).getLsbD i = false := by decide
  unfold fs
  apply BitVec.eq_of_getLsbD_eq
  intro i hi
  simp only [BitVec.getLsbD_and, BitVec.getLsbD_ushiftRight]
  by_cases h01 : i = 0 ∨ i = 1
  · rw [hbit i h01]
  · have := h3 i hi h01
    simp [this]

theorem entryMem_gpregs (m : Machine) (i : Reg) (hi : i ≠ 0) :
    entryMem m (m.csr .sscratch + gpregs i) = trapRegs m i := by
  have hne (j : Reg) : m.csr .sscratch + gpregs i ≠ m.csr .sscratch + fpregs j :=
    fun e => gpregs_ne_fpregs i j ((BitVec.add_right_inj _).1 e)
  unfold entryMem
  split
  · exact savedGp_gpregs m i hi
  · rw [saved_of_ne _ _ _ _ _ _ (fun j _ => hne j), savedGp_gpregs m i hi]

theorem entryMem_fpregs (m : Machine) (i : Reg) (hfs : fs (m.csr .sstatus) ≠ 0) :
    entryMem m (m.csr .sscratch + fpregs i) = m.f i := by
  unfold entryMem
  rw [if_neg hfs]
  exact saved_of_mem _ _ _ fpregs_injective _ _ _ (mem_counted_zero_32 i)

theorem entryMem_of_ne (m : Machine) (off : Word) (hg : ∀ i, off ≠ gpregs i)
    (hf : ∀ i, off ≠ fpregs i) :
    entryMem m (m.csr .sscratch + off) = m.mem (m.csr .sscratch + off) := by
  have hne (j : Reg) : m.csr .sscratch + off ≠ m.csr .sscratch + fpregs j :=
    fun e => hf j ((BitVec.add_right_inj _).1 e)
  unfold entryMem
  split
  · exact savedGp_of_ne m off hg
  · rw [saved_of_ne _ _ _ _ _ _ (fun j _ => hne j), savedGp_of_ne m off hg]

/-! ## The restore -/

theorem run_loadAllGp (m : Machine) :
    (run loadAllGp m).csr = m.csr ∧ (run loadAllGp m).f = m.f ∧
      ∀ i, i ≠ 0 → (run loadAllGp m).x i = m.mem (m.x t6 + gpregs i) := by
  have h30 : run ((counted 1 30).map loadgp) m
      = { m with x := restored (m.x t6) gpregs m.mem (counted 1 30) m.x } :=
    run_ld m t6 gpregs (counted 1 30) (by decide) (by decide)
  have hbase : restored (m.x t6) gpregs m.mem (counted 1 30) m.x t6 = m.x t6 :=
    if_neg (by decide)
  have hrun : run loadAllGp m = run [loadgp t6]
      { m with x := restored (m.x t6) gpregs m.mem (counted 1 30) m.x } := by
    unfold loadAllGp
    rw [counted_split, List.map_append, run_append _ _ _ (by decide), h30]
    rfl
  rw [hrun]
  refine ⟨rfl, rfl, fun i hi => ?_⟩
  change Function.update (restored (m.x t6) gpregs m.mem (counted 1 30) m.x) t6
    (m.mem (restored (m.x t6) gpregs m.mem (counted 1 30) m.x t6 + gpregs t6)) i = _
  rw [hbase]
  by_cases h : i = t6
  · subst h
    exact Function.update_self ..
  · rw [Function.update_of_ne h]
    exact if_pos ((mem_counted_one_30 i).2 ⟨hi, h⟩)

theorem run_restore (m : Machine) :
    (run restore m).csr = m.csr ∧
      (∀ i, i ≠ 0 → (run restore m).x i = m.mem (m.x t6 + gpregs i)) ∧
      (fs (m.x t1) ≠ 0 → ∀ i, (run restore m).f i = m.mem (m.x t6 + fpregs i)) := by
  have hfp (k : Machine) : run ((counted 0 32).map loadfp) k
      = { k with f := restored (k.x t6) fpregs k.mem (counted 0 32) k.f } :=
    run_fld k t6 fpregs (counted 0 32)
  unfold restore
  rw [run_unlessFpOff _ _ _ (by decide), hfp]
  obtain ⟨hcsr, hf, hx⟩ := run_loadAllGp (if fs (m.x t1) = 0 then withFs m else
    { withFs m with
      f := restored ((withFs m).x t6) fpregs (withFs m).mem (counted 0 32) (withFs m).f })
  refine ⟨?_, fun i hi => ?_, fun hfs i => ?_⟩
  · rw [hcsr]
    split <;> rfl
  · rw [hx i hi, ← withFs_x_t6 m]
    split <;> rfl
  · rw [hf, if_neg hfs]
    change restored ((withFs m).x t6) fpregs m.mem (counted 0 32) m.f i = _
    rw [withFs_x_t6]
    exact if_pos (mem_counted_zero_32 i)

theorem run_fromKernel (m : Machine) :
    (run fromKernel m).mem = m.mem ∧ (run fromKernel m).x t6 = m.csr .sscratch ∧
      (run fromKernel m).x t1 = m.csr .sstatus ∧
      ∀ c, c ≠ .satp → (run fromKernel m).csr c = m.csr c :=
  ⟨rfl, rfl, rfl, fun _ hc => Function.update_of_ne hc _ _⟩

theorem run_loadCsrs (m : Machine) :
    (run loadCsrs m).mem = m.mem ∧
      (run loadCsrs m).x t6 = m.mem (m.csr .sscratch + SSCRATCH) ∧
      (run loadCsrs m).csr .sepc = m.mem (m.csr .sscratch + SEPC) :=
  ⟨rfl, rfl, rfl⟩

/-! ## A trap and the resumption -/

variable {frame : Word} {h : Hart}

/-- What the save leaves: the changed registers in the frame, and the CSRs of the trap. -/
theorem entry_frame (hs : h.machine.csr .sscratch = frame) :
    (∀ i, i ≠ 0 → (run spawnTrapEntry (takeTrap h)).mem (frame + gpregs i)
      = trapRegs h.machine i) ∧
    (run spawnTrapEntry (takeTrap h)).mem (frame + SSCRATCH) = h.machine.mem (frame + SSCRATCH) ∧
    (run spawnTrapEntry (takeTrap h)).csr .sscratch = frame ∧
    (run spawnTrapEntry (takeTrap h)).csr .sepc = h.pc := by
  obtain ⟨hmem, hcsr⟩ := run_spawnTrapEntry (takeTrap h)
  have hframe : (takeTrap h).csr .sscratch = frame := hs
  refine ⟨fun i hi => ?_, ?_, ?_, ?_⟩
  · rw [hmem, ← hframe, entryMem_gpregs _ i hi]
    rfl
  · rw [hmem, ← hframe, entryMem_of_ne _ _ sscratch_ne_gpregs sscratch_ne_fpregs]
    rfl
  · rw [hcsr _ (by decide), hframe]
  · rw [hcsr _ (by decide)]
    rfl

theorem returned_regs (hs : h.machine.csr .sscratch = frame) {m : Machine}
    (hk : KeepsFrame frame (run spawnTrapEntry (takeTrap h)) m)
    (hsepc : m.csr .sepc = (run spawnTrapEntry (takeTrap h)).csr .sepc) :
    (sret (run spawnTrapExit m)).pc = h.pc ∧
      ∀ i, i ≠ 0 → (sret (run spawnTrapExit m)).machine.x i = trapRegs h.machine i := by
  obtain ⟨hgp, -, hss, hpc⟩ := entry_frame hs
  obtain ⟨hmem, h6, -, hcsr⟩ := run_fromKernel m
  obtain ⟨hrcsr, hrx, -⟩ := run_restore (run fromKernel m)
  have hexit : run spawnTrapExit m = run restore (run fromKernel m) :=
    run_append _ _ _ (by decide)
  refine ⟨?_, fun i hi => ?_⟩
  · change (run spawnTrapExit m).csr .sepc = h.pc
    rw [hexit, hrcsr, hcsr _ (by decide), hsepc, hpc]
  · change (run spawnTrapExit m).x i = _
    rw [hexit, hrx i hi, hmem, h6, hk.sscratch, hss, hk.gp, hgp i hi]

/-- The floating-point registers survive a trap that returns directly. -/
theorem returned_fpregs (hs : h.machine.csr .sscratch = frame) {m : Machine}
    (hk : KeepsFrame frame (run spawnTrapEntry (takeTrap h)) m)
    (hst : m.csr .sstatus = (run spawnTrapEntry (takeTrap h)).csr .sstatus)
    (hfs : fs (h.machine.csr .sstatus) ≠ 0) :
    (sret (run spawnTrapExit m)).machine.f = h.machine.f := by
  obtain ⟨hmem, hcsr⟩ := run_spawnTrapEntry (takeTrap h)
  obtain ⟨hkmem, h6, h1, -⟩ := run_fromKernel m
  obtain ⟨-, -, hrf⟩ := run_restore (run fromKernel m)
  have hframe : (takeTrap h).csr .sscratch = frame := hs
  have hfst : fs ((takeTrap h).csr .sstatus) ≠ 0 := by
    change fs (trapStatus h.supervisor (h.machine.csr .sstatus)) ≠ 0
    rwa [fs_trapStatus]
  have hexit : run spawnTrapExit m = run restore (run fromKernel m) :=
    run_append _ _ _ (by decide)
  funext i
  change (run spawnTrapExit m).f i = _
  rw [hexit, hrf (by rwa [h1, hst, hcsr _ (by decide)]) i, hkmem, h6, hk.sscratch,
    hcsr _ (by decide), hframe, hk.fp, hmem, ← hframe, entryMem_fpregs _ i hfst]
  rfl

theorem parked_regs (hs : h.machine.csr .sscratch = frame)
    (hown : h.machine.mem (frame + SSCRATCH) = frame) {m m' : Machine}
    (hk : KeepsFrame frame (run spawnTrapEntry (takeTrap h)) m)
    (hsepc : m.csr .sepc = (run spawnTrapEntry (takeTrap h)).csr .sepc)
    (hp : KeepsFrame frame (saveSepc frame m) m')
    (hpsepc : m'.mem (frame + SEPC) = (saveSepc frame m).mem (frame + SEPC)) :
    (sret (run spawnKthread m')).pc = h.pc ∧
      ∀ i, i ≠ 0 → (sret (run spawnKthread m')).machine.x i = trapRegs h.machine i := by
  obtain ⟨hgp, hsc, hss, hpc⟩ := entry_frame hs
  obtain ⟨hmem, h6, hlsepc⟩ := run_loadCsrs m'
  obtain ⟨hrcsr, hrx, -⟩ := run_restore (run loadCsrs m')
  have hsave (off : Word) (hne : SEPC ≠ off) :
      (saveSepc frame m).mem (frame + off) = m.mem (frame + off) :=
    store_mem_of_ne m (fun e => hne ((BitVec.add_right_inj _).1 e).symm) _
  have hsaved : (saveSepc frame m).mem (frame + SEPC) = h.pc :=
    (store_mem_self m _ _).trans (hsepc.trans hpc)
  have hm' : m'.csr .sscratch = frame := hp.sscratch.trans (hk.sscratch.trans hss)
  have hbase : m'.mem (frame + SSCRATCH) = frame := by
    rw [hp.own, hsave SSCRATCH (by decide), hk.own, hsc, hown]
  have hexit : run spawnKthread m' = run restore (run loadCsrs m') :=
    run_append _ _ _ (by decide)
  refine ⟨?_, fun i hi => ?_⟩
  · have hret : (sret (run spawnKthread m')).pc = (run spawnKthread m').csr .sepc := rfl
    rw [hret, hexit, hrcsr, hlsepc, hm', hpsepc, hsaved]
  · have hret : (sret (run spawnKthread m')).machine.x = (run spawnKthread m').x := rfl
    rw [hret, hexit, hrx i hi, hmem, h6, hm', hbase, hp.gp, hsave _ (sepc_ne_gpregs i), hk.gp, hgp i hi]

/-- A resumed process has its program counter and its registers back, with 3 added to `t0`. -/
theorem resumed_regs (hs : h.machine.csr .sscratch = frame)
    (hown : h.machine.mem (frame + SSCRATCH) = frame) {h' : Hart} (hr : Resumed frame h h') :
    h'.pc = h.pc ∧ ∀ i, i ≠ 0 → h'.machine.x i = trapRegs h.machine i := by
  cases hr with
  | returned m hk hsepc _ => exact returned_regs hs hk hsepc
  | parked m m' hk hsepc hp hpsepc => exact parked_regs hs hown hk hsepc hp hpsepc

/-- The property asked of a trap: the general registers and the program counter come back. -/
def RegistersRestored (h h' : Hart) : Prop :=
  (∀ i, i ≠ 0 → h'.machine.x i = h.machine.x i) ∧ h'.pc = h.pc

/-- No trap restores the registers: `t0` always comes back changed, and only `t0` does. -/
theorem trap_changes_t0 (h h' : Hart) (frame : Word) (hs : h.machine.csr .sscratch = frame)
    (hown : h.machine.mem (frame + SSCRATCH) = frame) (hr : Resumed frame h h') :
    ¬ RegistersRestored h h' ∧ h'.machine.x t0 = h.machine.x t0 + 3 ∧
      (∀ i, i ≠ 0 → i ≠ t0 → h'.machine.x i = h.machine.x i) ∧ h'.pc = h.pc := by
  obtain ⟨hpc, hx⟩ := resumed_regs hs hown hr
  have h5 : h'.machine.x t0 = h.machine.x t0 + 3 :=
    (hx t0 (by decide)).trans (Function.update_self ..)
  refine ⟨fun hres => ?_, h5, fun i hi hi5 => ?_, hpc⟩
  · have hsame : h.machine.x t0 + 3 = h.machine.x t0 := h5.symm.trans (hres.1 t0 (by decide))
    exact absurd (BitVec.add_right_eq_self.1 hsame) (by decide)
  · rw [hx i hi]
    exact Function.update_of_ne hi5 ..

/-- A process with all registers zero whose frame is at address 0x1000. -/
def zeroHart : Hart where
  machine :=
    { x := fun _ => 0
      f := fun _ => 0
      csr := fun c => if c = .sscratch then 0x1000 else 0
      mem := fun a => if a = 0x1000 + SSCRATCH then 0x1000 else 0 }
  pc := 0x10000
  supervisor := false

theorem trap_changes_t0_zeroHart :
    (sret (run spawnTrapExit (run spawnTrapEntry (takeTrap zeroHart)))).machine.x t0
      = zeroHart.machine.x t0 + 3 :=
  (trap_changes_t0 zeroHart _ 0x1000 rfl rfl
    (.returned _ ⟨rfl, fun _ => rfl, fun _ => rfl, rfl⟩ rfl rfl)).2.1

theorem trap_not_transparent :
    ¬ ∀ (h h' : Hart) (frame : Word), h.machine.csr .sscratch = frame →
      h.machine.mem (frame + SSCRATCH) = frame → Resumed frame h h' → RegistersRestored h h' := by
  intro hall
  have hr : Resumed 0x1000 zeroHart
      (sret (run spawnTrapExit (run spawnTrapEntry (takeTrap zeroHart)))) :=
    .returned _ ⟨rfl, fun _ => rfl, fun _ => rfl, rfl⟩ rfl rfl
  have h5 := (hall zeroHart _ 0x1000 rfl rfl hr).1 t0 (by decide)
  obtain ⟨-, hx⟩ := @resumed_regs 0x1000 zeroHart rfl rfl _ hr
  rw [hx t0 (by decide)] at h5
  exact absurd h5 (by decide)

end TrapFrame
