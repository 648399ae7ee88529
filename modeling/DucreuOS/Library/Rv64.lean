import Mathlib

/-! # Straight-line RV64 code that saves and restores registers

Loads, stores, moves and CSR accesses with forward branches. Memory is 8-byte words at
their addresses; code that accesses it at overlapping unaligned addresses is outside the model. -/
namespace Rv64

abbrev Word := BitVec 64
abbrev Reg := Fin 32

/-- There is a register `x0`. -/
instance neZero_regs : NeZero 32 := ⟨by decide⟩

inductive Csr
  | sepc | sstatus | sie | satp | sscratch | stvec
  deriving DecidableEq

structure Machine where
  x : Reg → Word
  f : Reg → Word
  csr : Csr → Word
  mem : Word → Word

inductive Instr
  | addi (rd rs : Reg) (imm : Word)
  | andi (rd rs : Reg) (imm : Word)
  | srli (rd rs : Reg) (shamt : ℕ)
  | ld (rd : Reg) (offset : Word) (base : Reg)
  | sd (rs : Reg) (offset : Word) (base : Reg)
  | fld (rd : Reg) (offset : Word) (base : Reg)
  | fsd (rs : Reg) (offset : Word) (base : Reg)
  | csrr (rd : Reg) (c : Csr)
  | csrw (c : Csr) (rs : Reg)
  | csrrw (rd : Reg) (c : Csr) (rs : Reg)
  | beqz (rs : Reg) (skip : ℕ)

namespace Machine

/-- `x0` reads as zero and ignores writes. -/
def reg (m : Machine) (r : Reg) : Word := if r = 0 then 0 else m.x r

def setReg (m : Machine) (r : Reg) (v : Word) : Machine :=
  if r = 0 then m else { m with x := Function.update m.x r v }

def setCsr (m : Machine) (c : Csr) (v : Word) : Machine :=
  { m with csr := Function.update m.csr c v }

def store (m : Machine) (a v : Word) : Machine :=
  { m with mem := Function.update m.mem a v }

def exec (m : Machine) : Instr → Machine
  | .addi rd rs imm => m.setReg rd (m.reg rs + imm)
  | .andi rd rs imm => m.setReg rd (m.reg rs &&& imm)
  | .srli rd rs shamt => m.setReg rd (m.reg rs >>> shamt)
  | .ld rd offset base => m.setReg rd (m.mem (m.reg base + offset))
  | .sd rs offset base => m.store (m.reg base + offset) (m.reg rs)
  | .fld rd offset base => { m with f := Function.update m.f rd (m.mem (m.reg base + offset)) }
  | .fsd rs offset base => m.store (m.reg base + offset) (m.f rs)
  | .csrr rd c => m.setReg rd (m.csr c)
  | .csrw c rs => m.setCsr c (m.reg rs)
  | .csrrw rd c rs => (m.setCsr c (m.reg rs)).setReg rd (m.csr c)
  | .beqz _ _ => m

/-- Run a block whose first `skip` instructions a taken branch jumps over. -/
def runFrom : ℕ → List Instr → Machine → Machine
  | _, [], m => m
  | n + 1, _ :: is, m => runFrom n is m
  | 0, .beqz rs skip :: is, m => runFrom (if m.reg rs = 0 then skip else 0) is m
  | 0, i :: is, m => runFrom 0 is (m.exec i)

def run (is : List Instr) (m : Machine) : Machine := runFrom 0 is m

variable (m : Machine)

theorem reg_of_ne {r : Reg} (h : r ≠ 0) : m.reg r = m.x r := if_neg h

theorem setReg_of_ne {r : Reg} (h : r ≠ 0) (v : Word) :
    m.setReg r v = { m with x := Function.update m.x r v } := if_neg h

@[simp] theorem setReg_f (r : Reg) (v : Word) : (m.setReg r v).f = m.f := by
  unfold setReg; split <;> rfl

@[simp] theorem setReg_csr (r : Reg) (v : Word) : (m.setReg r v).csr = m.csr := by
  unfold setReg; split <;> rfl

@[simp] theorem setReg_mem (r : Reg) (v : Word) : (m.setReg r v).mem = m.mem := by
  unfold setReg; split <;> rfl

@[simp] theorem setCsr_x (c : Csr) (v : Word) : (m.setCsr c v).x = m.x := rfl
@[simp] theorem setCsr_f (c : Csr) (v : Word) : (m.setCsr c v).f = m.f := rfl
@[simp] theorem setCsr_mem (c : Csr) (v : Word) : (m.setCsr c v).mem = m.mem := rfl
@[simp] theorem store_x (a v : Word) : (m.store a v).x = m.x := rfl
@[simp] theorem store_f (a v : Word) : (m.store a v).f = m.f := rfl
@[simp] theorem store_csr (a v : Word) : (m.store a v).csr = m.csr := rfl

theorem setCsr_csr_self (c : Csr) (v : Word) : (m.setCsr c v).csr c = v :=
  Function.update_self ..

theorem store_mem_self (a v : Word) : (m.store a v).mem a = v := by
  simp [store]

theorem store_mem_of_ne {a b : Word} (h : b ≠ a) (v : Word) : (m.store a v).mem b = m.mem b := by
  simp [store, h]

@[simp] theorem run_nil : run [] m = m := rfl

/-- Instructions that always go on to the next one. -/
def straight : Instr → Bool
  | .beqz _ _ => false
  | _ => true

theorem run_append (xs is : List Instr) (h : ∀ i ∈ xs, straight i = true) :
    run (xs ++ is) m = run is (run xs m) := by
  induction xs generalizing m with
  | nil => rfl
  | cons i xs ih =>
    have hi := h i List.mem_cons_self
    have ih := ih (m.exec i) (fun j hj => h j (List.mem_cons_of_mem _ hj))
    cases i <;> first | exact ih | cases hi

theorem runFrom_skip (xs is : List Instr) : runFrom xs.length (xs ++ is) m = run is m := by
  induction xs with
  | nil => rfl
  | cons i xs ih => exact ih

theorem run_beqz_taken {rs : Reg} (h : m.reg rs = 0) (xs is : List Instr) :
    run (.beqz rs xs.length :: (xs ++ is)) m = run is m := by
  rw [← runFrom_skip m xs is]
  change runFrom (if m.reg rs = 0 then xs.length else 0) (xs ++ is) m = _
  rw [if_pos h]

theorem run_beqz_not_taken {rs : Reg} (h : m.reg rs ≠ 0) (n : ℕ) (is : List Instr) :
    run (.beqz rs n :: is) m = run is m := by
  change runFrom (if m.reg rs = 0 then n else 0) is m = _
  rw [if_neg h]
  rfl

/-! ## Saving a list of registers -/

/-- Memory after the words `g r` are stored at `a + off r`, for the registers of a list in order. -/
def saved (a : Word) (off g : Reg → Word) (l : List Reg) (mem : Word → Word) : Word → Word :=
  l.foldl (fun mem r => Function.update mem (a + off r) (g r)) mem

theorem saved_of_ne (a : Word) (off g : Reg → Word) (l : List Reg) (mem : Word → Word) (b : Word)
    (h : ∀ r ∈ l, b ≠ a + off r) : saved a off g l mem b = mem b := by
  induction l generalizing mem with
  | nil => rfl
  | cons r l ih =>
    change saved a off g l (Function.update mem (a + off r) (g r)) b = _
    rw [ih _ (fun s hs => h s (List.mem_cons_of_mem _ hs)),
      Function.update_of_ne (h r List.mem_cons_self)]

theorem saved_of_mem (a : Word) (off g : Reg → Word) (hoff : Function.Injective off)
    (l : List Reg) (mem : Word → Word) (r : Reg) (h : r ∈ l) :
    saved a off g l mem (a + off r) = g r := by
  induction l generalizing mem with
  | nil => exact absurd h List.not_mem_nil
  | cons s l ih =>
    change saved a off g l (Function.update mem (a + off s) (g s)) (a + off r) = _
    by_cases hr : r ∈ l
    · exact ih _ hr
    · have hs : r = s := (List.mem_cons.1 h).resolve_right hr
      subst hs
      rw [saved_of_ne, Function.update_self]
      intro t ht e
      have : off r = off t := (BitVec.add_right_inj a).1 e
      exact hr (hoff this ▸ ht)

theorem run_sd (base : Reg) (off : Reg → Word) (rs : List Reg) (h0 : 0 ∉ rs) :
    run (rs.map fun r => .sd r (off r) base) m
      = { m with mem := saved (m.reg base) off m.x rs m.mem } := by
  induction rs generalizing m with
  | nil => rfl
  | cons r rs ih =>
    have hr : r ≠ 0 := fun e => h0 (e ▸ List.mem_cons_self)
    change run (rs.map _) (m.store (m.reg base + off r) (m.reg r)) = _
    rw [ih _ (fun h => h0 (List.mem_cons_of_mem _ h)), reg_of_ne m hr]
    rfl

theorem run_fsd (base : Reg) (off : Reg → Word) (rs : List Reg) :
    run (rs.map fun r => .fsd r (off r) base) m
      = { m with mem := saved (m.reg base) off m.f rs m.mem } := by
  induction rs generalizing m with
  | nil => rfl
  | cons r rs ih =>
    change run (rs.map _) (m.store (m.reg base + off r) (m.f r)) = _
    rw [ih]
    rfl

/-! ## Restoring a list of registers -/

/-- A register file after the registers of a list are loaded from `a + off r`. -/
def restored (a : Word) (off : Reg → Word) (mem : Word → Word) (l : List Reg) (g : Reg → Word) :
    Reg → Word :=
  fun r => if r ∈ l then mem (a + off r) else g r

theorem restored_cons (a : Word) (off : Reg → Word) (mem : Word → Word) (r : Reg) (l : List Reg)
    (g : Reg → Word) :
    restored a off mem (r :: l) g
      = restored a off mem l (Function.update g r (mem (a + off r))) := by
  funext s
  unfold restored
  by_cases hl : s ∈ l
  · rw [if_pos hl, if_pos (List.mem_cons_of_mem _ hl)]
  · rw [if_neg hl]
    by_cases hs : s = r
    · subst hs
      rw [if_pos List.mem_cons_self, Function.update_self]
    · rw [if_neg (by simp [hl, hs]), Function.update_of_ne hs]

/-- The base register must not be among the registers loaded: the load after it would use
the new value. -/
theorem run_ld (base : Reg) (off : Reg → Word) (rs : List Reg) (h0 : 0 ∉ rs) (hb : base ∉ rs) :
    run (rs.map fun r => .ld r (off r) base) m
      = { m with x := restored (m.reg base) off m.mem rs m.x } := by
  induction rs generalizing m with
  | nil => rfl
  | cons r rs ih =>
    have hr : r ≠ 0 := fun e => h0 (e ▸ List.mem_cons_self)
    have hbr : base ≠ r := fun e => hb (e ▸ List.mem_cons_self)
    change run (rs.map _) (m.setReg r (m.mem (m.reg base + off r))) = _
    rw [ih _ (fun h => h0 (List.mem_cons_of_mem _ h)) (fun h => hb (List.mem_cons_of_mem _ h)),
      setReg_of_ne m hr, restored_cons]
    have : reg { m with x := Function.update m.x r (m.mem (m.reg base + off r)) } base
        = m.reg base := by
      simp only [reg, Function.update_of_ne hbr]
    rw [this]

theorem run_fld (base : Reg) (off : Reg → Word) (rs : List Reg) :
    run (rs.map fun r => .fld r (off r) base) m
      = { m with f := restored (m.reg base) off m.mem rs m.f } := by
  induction rs generalizing m with
  | nil => rfl
  | cons r rs ih =>
    change run (rs.map _) { m with f := Function.update m.f r (m.mem (m.reg base + off r)) } = _
    rw [ih, restored_cons]
    rfl

/-! ## Code without stores -/

def stores : Instr → Bool
  | .sd _ _ _ => true
  | .fsd _ _ _ => true
  | _ => false

theorem exec_mem {i : Instr} (h : stores i = false) (m : Machine) : (m.exec i).mem = m.mem := by
  cases i with
  | sd | fsd => cases h
  | addi | andi | srli | ld | csrr => exact setReg_mem ..
  | csrrw => exact (setReg_mem ..).trans (setCsr_mem ..)
  | fld | csrw | beqz => rfl

theorem runFrom_mem {is : List Instr} (h : ∀ i ∈ is, stores i = false) (k : ℕ) (m : Machine) :
    (runFrom k is m).mem = m.mem := by
  induction is generalizing k m with
  | nil => cases k <;> rfl
  | cons i is ih =>
    have his := ih fun j hj => h j (List.mem_cons_of_mem i hj)
    cases k with
    | succ k => exact his k m
    | zero =>
      have hi := h i List.mem_cons_self
      cases i with
      | beqz rs skip => exact his _ m
      | _ => exact (his 0 _).trans (exec_mem hi m)

end Machine

end Rv64
