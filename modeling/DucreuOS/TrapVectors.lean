import DucreuOS.TrapFrame

/-! # The trap vectors of the OS and of the SBI: trap.S

Both save the general registers at the address in the scratch register, call their handler and load
the registers back. In machine mode the names of the CSRs stand for the machine's own: `sscratch`
for `mscratch`, `sepc` for `mepc` and `sstatus` for `mstatus`. -/
namespace TrapVectors

open Rv64 Rv64.Machine TrapFrame

/-- The vectors up to `sd t6, 8*31(t5)`. What follows sets up a stack. -/
def saveContext : List Instr :=
  .csrrw t6 .sscratch t6 :: ((counted 1 30).map storegp ++
    [.addi t5 t6 0, .csrrw t6 .sscratch t6, .sd t6 (8 * 31) t5])

/-- The vectors from the return of the handler up to `sret` or `mret`. -/
def loadContext : List Instr := .csrr t6 .sscratch :: loadAllGp

/-- SPIE takes SIE, SIE is cleared, SPP is 1. -/
def trapStatusM (s : Word) : Word :=
  (s &&& ~~~0x1888#64) ||| (if s.getLsbD 3 then 0x80#64 else 0) ||| 0x800#64

/-- The mode in MPP. -/
def mpp (s : Word) : Word := (s >>> 11) &&& 3

/-! ## Saved and loaded -/

section Context

variable {m : Machine} {frame : Word} {i : Reg}

/-- Memory after all general registers are stored. -/
def contextMem (m : Machine) : Word → Word :=
  Function.update
    (saved (m.csr .sscratch) gpregs (Function.update m.x t6 (m.csr .sscratch)) (counted 1 30) m.mem)
    (m.csr .sscratch + gpregs t6) (m.x t6)

/-- The scratch register holds the address of the frame again. -/
theorem run_saveContext (m : Machine) :
    ∃ x, run saveContext m = ⟨x, m.f, m.csr, contextMem m⟩ := by
  have h6 : Function.update m.x t6 (m.csr .sscratch) t6 = m.csr .sscratch := Function.update_self ..
  have hs : Function.update m.csr .sscratch (m.x t6) .sscratch = m.x t6 := Function.update_self ..
  have hlast (k : Machine) : run [.addi t5 t6 0, .csrrw t6 .sscratch t6, .sd t6 (8 * 31) t5] k =
      ⟨Function.update (Function.update k.x t5 (k.x t6 + 0)) t6 (k.csr .sscratch), k.f,
        Function.update k.csr .sscratch (k.x t6),
        Function.update k.mem (k.x t6 + 0 + gpregs t6) (k.csr .sscratch)⟩ := rfl
  have hrun : run saveContext m = run ((counted 1 30).map storegp ++
      [.addi t5 t6 0, .csrrw t6 .sscratch t6, .sd t6 (8 * 31) t5])
      ⟨Function.update m.x t6 (m.csr .sscratch), m.f, Function.update m.csr .sscratch (m.x t6),
        m.mem⟩ := rfl
  rw [hrun, run_append _ _ _ (by decide), run_storegp, hlast]
  have h0 : m.csr .sscratch + 0 = m.csr .sscratch := BitVec.add_zero _
  simp only [h6, hs, h0, Function.update_idem, Function.update_eq_self]
  exact ⟨_, rfl⟩

theorem contextMem_gpregs (hs : m.csr .sscratch = frame) (hi : i ≠ 0) :
    contextMem m (frame + gpregs i) = m.x i := by
  subst hs
  rw [contextMem]
  by_cases h : i = t6
  · subst h
    exact Function.update_self ..
  · have hne : m.csr .sscratch + gpregs i ≠ m.csr .sscratch + gpregs t6 := fun e =>
      h (gpregs_injective ((BitVec.add_right_inj _).1 e))
    rw [Function.update_of_ne hne,
      saved_of_mem _ _ _ gpregs_injective _ _ _ ((mem_counted_one_30 i).2 ⟨hi, h⟩),
      Function.update_of_ne h]

/-- Nothing else is written. -/
theorem contextMem_of_ne (hs : m.csr .sscratch = frame) {a : Word}
    (ha : ∀ i, i ≠ 0 → a ≠ frame + gpregs i) : contextMem m a = m.mem a := by
  subst hs
  rw [contextMem, Function.update_of_ne (ha t6 (by decide)),
    saved_of_ne _ _ _ _ _ _ fun i hi => ha i ((mem_counted_one_30 i).1 hi).1]

theorem run_loadContext (m : Machine) : (run loadContext m).csr = m.csr ∧
    (run loadContext m).mem = m.mem ∧ (run loadContext m).f = m.f ∧
      ∀ i, i ≠ 0 → (run loadContext m).x i = m.mem (m.csr .sscratch + gpregs i) := by
  have hrun : run loadContext m =
      run loadAllGp { m with x := Function.update m.x t6 (m.csr .sscratch) } := rfl
  have hmem (is : List Reg) (k : Machine) : (run (is.map loadgp) k).mem = k.mem := by
    induction is generalizing k with
    | nil => rfl
    | cons i is ih => exact (ih _).trans (setReg_mem ..)
  obtain ⟨hcsr, hf, hx⟩ :=
    run_loadAllGp { m with x := Function.update m.x t6 (m.csr .sscratch) }
  rw [hrun]
  refine ⟨hcsr, hmem _ _, hf, fun i hi => ?_⟩
  exact (hx i hi).trans (congrArg (fun a => m.mem (a + gpregs i))
    (Function.update_self t6 (m.csr .sscratch) m.x))

end Context

/-! ## The OS is interrupted -/

/-- The handler leaves the frame, the scratch register and the CSRs of the trap as they were.
Registers and other memory may change. -/
structure Handled (frame : Word) (m m' : Machine) : Prop where
  sscratch : m'.csr .sscratch = m.csr .sscratch
  sepc : m'.csr .sepc = m.csr .sepc
  sstatus : m'.csr .sstatus = m.csr .sstatus
  registers : ∀ i, i ≠ 0 → m'.mem (frame + gpregs i) = m.mem (frame + gpregs i)

section Os

variable {h : Hart} {frame : Word} {m : Machine}

theorem trapStatus_spp (supervisor : Bool) (s : Word) :
    (trapStatus supervisor s).getLsbD 8 = supervisor := by
  rw [trapStatus]
  cases supervisor <;> cases s.getLsbD 1 <;> simp

/-- SIE comes back through SPIE. -/
theorem sretStatus_sie (supervisor : Bool) (s : Word) :
    (sretStatus (trapStatus supervisor s)).getLsbD 1 = s.getLsbD 1 := by
  rw [sretStatus, trapStatus]
  cases supervisor <;> cases hs : s.getLsbD 1 <;> simp

theorem sret_pc (m : Machine) : (sret m).pc = m.csr .sepc := rfl

theorem sret_supervisor (m : Machine) : (sret m).supervisor = (m.csr .sstatus).getLsbD 8 := rfl

theorem sret_x (m : Machine) : (sret m).machine.x = m.x := rfl

theorem sret_mem (m : Machine) : (sret m).machine.mem = m.mem := rfl

theorem sret_sstatus (m : Machine) : (sret m).machine.csr .sstatus = sretStatus (m.csr .sstatus) := by
  simp only [sret, setCsr, Function.update_self]

theorem sret_sscratch (m : Machine) : (sret m).machine.csr .sscratch = m.csr .sscratch := by
  have hne : Csr.sscratch ≠ .sstatus := by decide
  simp only [sret, setCsr, Function.update_of_ne hne]

/-- An interrupt of the kernel whose handler returns: the program counter, the mode, the general
registers and the interrupt enable come back, and the vector writes nothing but its frame. -/
theorem os_trap_transparent (hs : h.machine.csr .sscratch = frame)
    (hm : Handled frame (run saveContext (takeTrap h)) m) :
    let h' := sret (run loadContext m)
    h'.pc = h.pc ∧ h'.supervisor = h.supervisor ∧ (∀ i, i ≠ 0 → h'.machine.x i = h.machine.x i) ∧
      (h'.machine.csr .sstatus).getLsbD 1 = (h.machine.csr .sstatus).getLsbD 1 ∧
      h'.machine.csr .sscratch = frame ∧ h'.machine.mem = m.mem ∧
      ∀ a, (∀ i, i ≠ 0 → a ≠ frame + gpregs i) →
        (run saveContext (takeTrap h)).mem a = h.machine.mem a := by
  dsimp only
  obtain ⟨x, hsave⟩ := run_saveContext (takeTrap h)
  obtain ⟨hcsr, hmem, -, hx⟩ := run_loadContext m
  generalize run saveContext (takeTrap h) = k at hm hsave ⊢
  subst hsave
  have hframe : (takeTrap h).csr .sscratch = frame := hs
  have hscratch : m.csr .sscratch = frame := hm.sscratch.trans hframe
  have hsepc : m.csr .sepc = h.pc := hm.sepc
  have hstatus : m.csr .sstatus = trapStatus h.supervisor (h.machine.csr .sstatus) := hm.sstatus
  refine ⟨?_, ?_, fun i hi => ?_, ?_, ?_, ?_, fun a ha => contextMem_of_ne hframe ha⟩
  · rw [sret_pc, hcsr, hsepc]
  · rw [sret_supervisor, hcsr, hstatus, trapStatus_spp]
  · rw [sret_x, hx i hi, hscratch, hm.registers i hi]
    exact contextMem_gpregs hframe hi
  · rw [sret_sstatus, hcsr, hstatus, sretStatus_sie]
  · rw [sret_sscratch, hcsr, hscratch]
  · rw [sret_mem, hmem]

/-- The console of the kernel, in supervisor mode with interrupts on. -/
def kernelHart : Hart where
  machine :=
    { x := fun i => BitVec.ofNat 64 (16 * i.val)
      f := fun _ => 0
      csr := fun c => if c = .sscratch then 0x80100000 else if c = .sstatus then 0x2 else 0
      mem := fun _ => 0 }
  pc := 0x80052000
  supervisor := true

theorem os_trap_transparent_kernel :
    (sret (run loadContext (run saveContext (takeTrap kernelHart)))).pc = 0x80052000 ∧
      (sret (run loadContext (run saveContext (takeTrap kernelHart)))).machine.x t6 = 0x1f0 := by
  obtain ⟨hpc, -, hx, -⟩ := os_trap_transparent (h := kernelHart) rfl
    ⟨rfl, rfl, rfl, fun _ _ => rfl⟩
  exact ⟨hpc, hx t6 (by decide)⟩

end Os

end TrapVectors
