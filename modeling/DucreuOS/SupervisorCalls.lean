import DucreuOS.HartControl
import DucreuOS.TrapVectors
import DucreuOS.Uart

/-! # Supervisor calls

The wrappers of `sbi.c` load their arguments and the number of the call, and `ecall` leads through
the vector and `c_trap_handler` to `svrcall_handle`. A call of the SBI runs with interrupts off; the
functions on the hart records are here as one party runs them. -/
namespace SupervisorCalls

open Rv64 Rv64.Machine TrapFrame TrapVectors

abbrev Byte := ByteMemory.Byte

/-! ## The hart records -/

structure Harts where
  sbi_hart_lock : HartControl.Hart → Locks.Word
  sbi_hart_data : HartControl.Hart → HartControl.HartData
  /-- the `msip` words -/
  clint : ℤ → Bool

namespace Harts

variable (s : Harts)

def setLock (hart : HartControl.Hart) (mutex : Locks.Word) : Harts :=
  { s with sbi_hart_lock := Function.update s.sbi_hart_lock hart mutex }

def post (hart : HartControl.Hart) : Harts := s.setLock hart (Locks.mutexPost (s.sbi_hart_lock hart))

/-- `hart_start` and `hart_stop`, with the values of the call. -/
def request (r : HartControl.Request) : BitVec 32 × Harts :=
  let (acquired, mutex) := Locks.mutexTry (s.sbi_hart_lock r.hart)
  let s := s.setLock r.hart mutex
  if acquired = 0 then (1, s)
  else if (s.sbi_hart_data r.hart).status ≠ r.expected then (2, s.post r.hart)
  else
    let s := { s with
      sbi_hart_data := Function.update s.sbi_hart_data r.hart
        ⟨r.status, r.target_address, r.process_frame⟩
      clint := HartControl.clintSetMsip s.clint r.hart }
    (0, s.post r.hart)

end Harts

section Steps

variable {ι : Type*}

def ofState (s : HartControl.State ι) : Harts := ⟨s.sbi_hart_lock, s.sbi_hart_data, s.clint⟩

variable [DecidableEq ι] {s : HartControl.State ι} {i : ι} {r : HartControl.Request}

theorem request_step {step : HartControl.RequestStep} (hc : s.control i = .request r step) :
    HartControl.Step s (.go i) (HartControl.requestStep s i r step) := by
  refine ⟨?_, ?_⟩
  · change ¬ (s.control i).Free
    rw [hc]
    exact id
  · simp only [HartControl.next, hc]

theorem goto_control (s : HartControl.State ι) (c : HartControl.Control) :
    (s.goto i c).control i = c :=
  Function.update_self ..

theorem goto_step (s : HartControl.State ι) (step : HartControl.RequestStep) :
    HartControl.Step (s.goto i (.request r step)) (.go i)
      (HartControl.requestStep (s.goto i (.request r step)) i r step) :=
  request_step (goto_control ..)

theorem check_control (s : HartControl.State ι) (i : ι) (r : HartControl.Request) :
    (HartControl.requestStep s i r .check).control i =
      .request r (if (s.sbi_hart_data r.hart).status ≠ r.expected then .post 2 else .status) :=
  goto_control ..

open HartControl in
/-- The steps of a call that nobody disturbs. -/
theorem request_steps (hc : s.control i = .request r .lock) :
    ∃ t, Transition.Execution HartControl.Step s t ∧
      t.control i = .returned r ((ofState s).request r).1.toNat ∧
      ofState t = ((ofState s).request r).2 := by
  have hlock := request_step hc
  by_cases hheld : s.sbi_hart_lock r.hart = Locks.MUTEX_LOCKED
  · refine ⟨_, .single hlock, ?_, ?_⟩
    · simp [requestStep, Locks.mutexTry, hheld, goto_control, Harts.request, ofState]
    · simp [requestStep, Locks.mutexTry, hheld, Harts.request, ofState, Harts.setLock, State.setLock,
        State.goto]
  have hcheck : (requestStep s i r .lock).control i = .request r .check := by
    simp [requestStep, Locks.mutexTry, hheld, goto_control]
  have hdata : (requestStep s i r .lock).sbi_hart_data = s.sbi_hart_data := by
    simp [requestStep, Locks.mutexTry, hheld, State.setLock, State.goto]
  have hrun₂ := (Transition.Execution.single hlock).tail (request_step hcheck)
  by_cases hstatus : (s.sbi_hart_data r.hart).status = r.expected
  · have h₂ : (requestStep (requestStep s i r .lock) i r .check).control i = .request r .status := by
      rw [check_control, hdata, if_neg (not_not.mpr hstatus)]
    have hrun₃ := hrun₂.tail (request_step h₂)
    have hrun₄ := hrun₃.tail (goto_step _ .target)
    have hrun₅ := hrun₄.tail (goto_step _ .frame)
    have hrun₆ := hrun₅.tail (goto_step _ .msip)
    refine ⟨_, hrun₆.tail (goto_step _ (.post 0)), ?_, ?_⟩
    · simp [requestStep, Locks.mutexTry, hheld, hstatus, goto_control, Harts.request, ofState,
        Harts.setLock, Harts.post]
    · simp [requestStep, Locks.mutexTry, hheld, hstatus, Harts.request, ofState, Harts.setLock,
        Harts.post, State.setLock, State.setData, State.record, State.goto, Locks.mutexPost]
  · have h₂ : (requestStep (requestStep s i r .lock) i r .check).control i = .request r (.post 2) := by
      rw [check_control, hdata, if_pos hstatus]
    refine ⟨_, hrun₂.tail (request_step h₂), ?_, ?_⟩
    · simp [requestStep, Locks.mutexTry, hheld, hstatus, goto_control, Harts.request, ofState,
        Harts.setLock, Harts.post]
    · simp [requestStep, Locks.mutexTry, hheld, hstatus, Harts.request, ofState, Harts.setLock,
        Harts.post, State.setLock, State.goto, Locks.mutexPost]

end Steps

/-! ## The SBI on one hart -/

structure Sbi where
  port : Uart.Port
  transmitted : List Byte
  harts : Harts
  mtimecmp : ℤ → Word
  mip : Word
  /-- what has been written to the finisher of the machine -/
  finisher : Option (BitVec 16)

def SIP_STIP : Word := 1 <<< 5

def CLINT_MTIMECMP_INFINITE : Word := 0x7FFFFFFFFFFFFFFF

/-- `uart_put`, when the transmitter is no longer full. -/
def uartPut (s : Sbi) (c : Byte) : Sbi := { s with transmitted := s.transmitted ++ [c] }

def clintSetMtimecmp (s : Sbi) (hart : BitVec 32) (val : Word) : Sbi :=
  if HartControl.MAX_SUPPORTED_HARTS.sle hart then s
  else { s with mtimecmp := Function.update s.mtimecmp hart.toInt val }

/-- `time` is what `clint_get_time` reads. -/
def clintAddMtimecmp (time : Word) (s : Sbi) (hart : BitVec 32) (val : Word) : Sbi :=
  if HartControl.MAX_SUPPORTED_HARTS.sle hart then s else clintSetMtimecmp s hart (time + val)

/-- The values of the enumeration. -/
def hartStatusWord : HartControl.HartStatus → Word
  | .HS_STOPPED => 0
  | .HS_STARTING => 1
  | .HS_STARTED => 2
  | .HS_STOPPING => 3
  | .HS_INVALID => 4

def a0 : Reg := 10
def a1 : Reg := 11
def a2 : Reg := 12
def a7 : Reg := 17

def SVRCALL_GET_HART_STATUS : Word := 1
def SVRCALL_HART_START : Word := 2
def SVRCALL_HART_STOP : Word := 3
def SVRCALL_WHO_AM_I : Word := 4
def SVRCALL_PUTCHAR : Word := 10
def SVRCALL_GETCHAR : Word := 11
def SVRCALL_GET_CLINT_TIME : Word := 15
def SVRCALL_CLINT_SET_TIME : Word := 16
def SVRCALL_CLINT_ADD_TIME : Word := 17
def SVRCALL_CLINT_ACKNOWLEDGE : Word := 18
def SVRCALL_CLINT_SHOW_CMP : Word := 19
def SVRCALL_POWEROFF : Word := 215

/-- The registers in the frame, and the SBI. What is printed is left out. -/
def svrcallHandle (hart : BitVec 32) (time : Word) (mscratch : Reg → Word) (s : Sbi) :
    (Reg → Word) × Sbi :=
  let svrcall_num := mscratch a7
  let hartArg : BitVec 32 := (mscratch a0).setWidth 32
  if svrcall_num = SVRCALL_PUTCHAR then (mscratch, uartPut s ((mscratch a0).setWidth 8))
  else if svrcall_num = SVRCALL_GETCHAR then
    (Function.update mscratch a0 (s.port.getchar.1.setWidth 64), { s with port := s.port.getchar.2 })
  else if svrcall_num = SVRCALL_POWEROFF then (mscratch, { s with finisher := some 0x5555 })
  else if svrcall_num = SVRCALL_GET_HART_STATUS then
    (Function.update mscratch a0
      (hartStatusWord (HartControl.getHartStatus s.harts.sbi_hart_data hartArg)), s)
  else if svrcall_num = SVRCALL_HART_START then
    let (ret, harts) := s.harts.request (.hartStart hartArg (mscratch a1) (mscratch a2))
    (Function.update mscratch a0 (ret.signExtend 64), { s with harts := harts })
  else if svrcall_num = SVRCALL_HART_STOP then
    let (ret, harts) := s.harts.request (.hartStop hartArg)
    (Function.update mscratch a0 (ret.signExtend 64), { s with harts := harts })
  else if svrcall_num = SVRCALL_WHO_AM_I then
    (Function.update mscratch a0 (hart.signExtend 64), s)
  else if svrcall_num = SVRCALL_GET_CLINT_TIME then (Function.update mscratch a0 time, s)
  else if svrcall_num = SVRCALL_CLINT_SET_TIME then
    (mscratch, clintSetMtimecmp s hartArg (mscratch a1))
  else if svrcall_num = SVRCALL_CLINT_ADD_TIME then
    (mscratch, clintAddMtimecmp time s hartArg (mscratch a1))
  else if svrcall_num = SVRCALL_CLINT_ACKNOWLEDGE then
    (mscratch, { s with mip := s.mip &&& ~~~SIP_STIP })
  else (mscratch, s)

/-! ## The wrappers -/

/-- A function of `sbi.c`, with its arguments as they are in registers. -/
inductive Call
  | putchar (c : Byte)
  | getchar
  | poweroff
  | getHartStatus (hart : BitVec 32)
  | hartStart (hart : BitVec 32) (address frame : Word)
  | hartStop (hart : BitVec 32)
  | whoAmI
  | getClintTime
  | setClintTimer (hart : BitVec 32) (set : Word)
  | addClintTimer (hart : BitVec 32) (add : Word)
  | acknowledgeClintTimer
  | showClintTimer (hart : BitVec 32)

namespace Call

def number : Call → Word
  | putchar _ => SVRCALL_PUTCHAR
  | getchar => SVRCALL_GETCHAR
  | poweroff => SVRCALL_POWEROFF
  | getHartStatus _ => SVRCALL_GET_HART_STATUS
  | hartStart _ _ _ => SVRCALL_HART_START
  | hartStop _ => SVRCALL_HART_STOP
  | whoAmI => SVRCALL_WHO_AM_I
  | getClintTime => SVRCALL_GET_CLINT_TIME
  | setClintTimer _ _ => SVRCALL_CLINT_SET_TIME
  | addClintTimer _ _ => SVRCALL_CLINT_ADD_TIME
  | acknowledgeClintTimer => SVRCALL_CLINT_ACKNOWLEDGE
  | showClintTimer _ => SVRCALL_CLINT_SHOW_CMP

/-- What goes to `a0`, `a1` and `a2`. A 32-bit value is in its register with its sign. -/
def arguments : Call → List Word
  | putchar c => [c.setWidth 64]
  | getchar | poweroff | whoAmI | getClintTime | acknowledgeClintTimer => []
  | getHartStatus hart | hartStop hart | showClintTimer hart => [hart.signExtend 64]
  | hartStart hart address frame => [hart.signExtend 64, address, frame]
  | setClintTimer hart v | addClintTimer hart v => [hart.signExtend 64, v]

/-- The `mv`s in front of the `ecall`. -/
def loaded (c : Call) (x : Reg → Word) : Reg → Word :=
  (List.zip [a0, a1, a2] c.arguments).foldl (fun x p => Function.update x p.1 p.2)
    (Function.update x a7 c.number)

/-- What the call is for: the result in `a0`, if it has one, and the SBI after it. -/
def perform (hart : BitVec 32) (time : Word) (s : Sbi) : Call → Option Word × Sbi
  | putchar c => (none, uartPut s c)
  | getchar => (some (s.port.getchar.1.setWidth 64), { s with port := s.port.getchar.2 })
  | poweroff => (none, { s with finisher := some 0x5555 })
  | getHartStatus h =>
    (some (hartStatusWord (HartControl.getHartStatus s.harts.sbi_hart_data h)), s)
  | hartStart h address frame =>
    (some ((s.harts.request (.hartStart h address frame)).1.signExtend 64),
      { s with harts := (s.harts.request (.hartStart h address frame)).2 })
  | hartStop h =>
    (some ((s.harts.request (.hartStop h)).1.signExtend 64),
      { s with harts := (s.harts.request (.hartStop h)).2 })
  | whoAmI => (some (hart.signExtend 64), s)
  | getClintTime => (some time, s)
  | setClintTimer h set => (none, clintSetMtimecmp s h set)
  | addClintTimer h add => (none, clintAddMtimecmp time s h add)
  | acknowledgeClintTimer => (none, { s with mip := s.mip &&& ~~~SIP_STIP })
  | showClintTimer _ => (none, s)

end Call

section Dispatch

variable {hart : BitVec 32} {time : Word} {s : Sbi} {x y : Reg → Word} {c : Call} {i : Reg}

theorem setWidth_signExtend (h : BitVec 32) : (h.signExtend 64).setWidth 32 = h := by
  ext i hi
  simp [hi, BitVec.getLsbD_signExtend]
  omega

theorem loaded_a7 (c : Call) (x : Reg → Word) : c.loaded x a7 = c.number := by
  cases c <;> rfl

theorem loaded_arguments (c : Call) (x : Reg → Word) :
    c.arguments = [c.loaded x a0, c.loaded x a1, c.loaded x a2].take c.arguments.length := by
  cases c <;> rfl

/-- Every number leads to its case. -/
theorem svrcallHandle_loaded (c : Call) (x : Reg → Word) : svrcallHandle hart time (c.loaded x) s =
    ((c.perform hart time s).1.elim (c.loaded x) (Function.update (c.loaded x) a0),
      (c.perform hart time s).2) := by
  have hreg (h : BitVec 32) : (h.signExtend 64).setWidth 32 = h := setWidth_signExtend h
  cases c with
  | putchar c =>
    have hbyte : (c.setWidth 64).setWidth 8 = c := BitVec.setWidth_setWidth_of_le c (by decide)
    have hrun : svrcallHandle hart time ((Call.putchar c).loaded x) s =
        ((Call.putchar c).loaded x, uartPut s ((c.setWidth 64).setWidth 8)) := rfl
    rw [hrun, hbyte]
    rfl
  | getHartStatus h =>
    have hrun : svrcallHandle hart time ((Call.getHartStatus h).loaded x) s =
        (Function.update ((Call.getHartStatus h).loaded x) a0 (hartStatusWord
          (HartControl.getHartStatus s.harts.sbi_hart_data ((h.signExtend 64).setWidth 32))), s) := rfl
    rw [hrun, hreg]
    rfl
  | hartStart h address frame =>
    have hrun : svrcallHandle hart time ((Call.hartStart h address frame).loaded x) s =
        let r := s.harts.request (.hartStart ((h.signExtend 64).setWidth 32) address frame)
        (Function.update ((Call.hartStart h address frame).loaded x) a0 (r.1.signExtend 64),
          { s with harts := r.2 }) := rfl
    rw [hrun, hreg]
    rfl
  | hartStop h =>
    have hrun : svrcallHandle hart time ((Call.hartStop h).loaded x) s =
        let r := s.harts.request (.hartStop ((h.signExtend 64).setWidth 32))
        (Function.update ((Call.hartStop h).loaded x) a0 (r.1.signExtend 64),
          { s with harts := r.2 }) := rfl
    rw [hrun, hreg]
    rfl
  | setClintTimer h set =>
    have hrun : svrcallHandle hart time ((Call.setClintTimer h set).loaded x) s =
        ((Call.setClintTimer h set).loaded x,
          clintSetMtimecmp s ((h.signExtend 64).setWidth 32) set) := rfl
    rw [hrun, hreg]
    rfl
  | addClintTimer h add =>
    have hrun : svrcallHandle hart time ((Call.addClintTimer h add).loaded x) s =
        ((Call.addClintTimer h add).loaded x,
          clintAddMtimecmp time s ((h.signExtend 64).setWidth 32) add) := rfl
    rw [hrun, hreg]
    rfl
  | getchar | poweroff | whoAmI | getClintTime | acknowledgeClintTimer | showClintTimer _ => rfl

theorem loaded_congr (c : Call) (h : x i = y i) : c.loaded x i = c.loaded y i := by
  cases c <;> simp [Call.loaded, Call.arguments, Function.update_apply, h]

/-- The word in place of `x0` may be anything. -/
theorem svrcallHandle_frame (hart : BitVec 32) (time : Word) (s : Sbi)
    (hx : ∀ i, i ≠ 0 → y i = c.loaded x i) :
    (svrcallHandle hart time y s).2 = (c.perform hart time s).2 ∧
      ∀ i, i ≠ 0 → (svrcallHandle hart time y s).1 i =
        (c.perform hart time s).1.elim (c.loaded x) (Function.update (c.loaded x) a0) i := by
  have hzero : c.loaded (Function.update x 0 (y 0)) 0 = y 0 := by
    cases c <;> simp [Call.loaded, Call.arguments, a0, a1, a2, a7]
  have hother (i : Reg) (hi : i ≠ 0) : c.loaded (Function.update x 0 (y 0)) i = c.loaded x i :=
    loaded_congr c (Function.update_of_ne hi ..)
  have hy : y = c.loaded (Function.update x 0 (y 0)) := by
    funext i
    by_cases hi : i = 0
    · rw [hi, hzero]
    · rw [hother i hi, hx i hi]
  rw [hy, svrcallHandle_loaded]
  refine ⟨rfl, fun i hi => ?_⟩
  dsimp only
  cases (c.perform hart time s).1 with
  | none => exact hother i hi
  | some v =>
    rw [Option.elim_some, Option.elim_some, Function.update_apply, Function.update_apply]
    exact if_congr Iff.rfl rfl (hother i hi)

end Dispatch

/-! ## Through the vector -/

/-- The `ecall` in supervisor mode. -/
def ecall (h : Hart) : Machine :=
  (h.machine.setCsr .sepc h.pc).setCsr .sstatus (trapStatusM (h.machine.csr .sstatus))

/-- `c_trap_handler` with the cause 9, on a stack of the SBI. The words of the OS are not among those
that it writes. -/
structure Served (hart : BitVec 32) (time frame : Word) (os : Set Word) (m m' : Machine) (s s' : Sbi) :
    Prop where
  mscratch : m'.csr .sscratch = m.csr .sscratch
  mepc : m'.csr .sepc = m.csr .sepc + 4
  mstatus : m'.csr .sstatus = m.csr .sstatus
  registers : ∀ i, i ≠ 0 → m'.mem (frame + gpregs i) =
    (svrcallHandle hart time (fun i => m.mem (frame + gpregs i)) s).1 i
  os : ∀ a ∈ os, m'.mem a = m.mem a
  sbi : s' = (svrcallHandle hart time (fun i => m.mem (frame + gpregs i)) s).2

section Path

variable {hart : BitVec 32} {time frame : Word} {os : Set Word} {h : Hart} {m : Machine} {s s' : Sbi}
  {c : Call}

theorem mpp_trapStatusM (s : Word) : mpp (trapStatusM s) = 1 := by
  have hbits (i : ℕ) (hi : i = 0 ∨ i = 1) : (trapStatusM s).getLsbD (11 + i) = decide (i = 0) := by
    rw [trapStatusM]
    rcases hi with rfl | rfl <;> cases s.getLsbD 3 <;> simp
  have h3 : ∀ i < 64, ¬(i = 0 ∨ i = 1) → (3#64).getLsbD i = false ∧ (1#64).getLsbD i = false := by
    decide
  apply BitVec.eq_of_getLsbD_eq
  intro i hi
  rw [mpp, BitVec.getLsbD_and, BitVec.getLsbD_ushiftRight]
  by_cases h01 : i = 0 ∨ i = 1
  · rw [hbits i h01]
    rcases h01 with rfl | rfl <;> rfl
  · obtain ⟨hthree, hone⟩ := h3 i hi h01
    exact (congrArg _ hthree).trans ((Bool.and_false _).trans hone.symm)

/-- A wrapper of `sbi.c`: the `ecall` goes on behind it in supervisor mode, with the result of the
function in `a0` and no other register changed. -/
theorem sbi_call_returns {x : Reg → Word} (hx : h.machine.x = c.loaded x)
    (hs : h.machine.csr .sscratch = frame) (hos : ∀ a ∈ os, ∀ i, i ≠ 0 → a ≠ frame + gpregs i)
    (hserved : Served hart time frame os (run saveContext (ecall h)) m s s') :
    let m' := run loadContext m
    m'.csr .sepc = h.pc + 4 ∧ mpp (m'.csr .sstatus) = 1 ∧ m'.csr .sscratch = frame ∧
      (∀ i, i ≠ 0 → m'.x i =
        (c.perform hart time s).1.elim (c.loaded x) (Function.update (c.loaded x) a0) i) ∧
      (∀ a ∈ os, m'.mem a = h.machine.mem a) ∧ s' = (c.perform hart time s).2 := by
  dsimp only
  obtain ⟨y, hsave⟩ := run_saveContext (ecall h)
  obtain ⟨hcsr, hmem, -, hload⟩ := run_loadContext m
  generalize run saveContext (ecall h) = k at hserved hsave ⊢
  subst hsave
  have hframe : (ecall h).csr .sscratch = frame := hs
  have hscratch : m.csr .sscratch = frame := hserved.mscratch.trans hframe
  have hregs (i : Reg) (hi : i ≠ 0) : contextMem (ecall h) (frame + gpregs i) = c.loaded x i := by
    rw [contextMem_gpregs hframe hi, ← hx]
    rfl
  obtain ⟨hstate, hresult⟩ := svrcallHandle_frame hart time s hregs
  refine ⟨?_, ?_, ?_, fun i hi => ?_, fun a ha => ?_, ?_⟩
  · rw [hcsr, hserved.mepc]
    rfl
  · rw [hcsr, hserved.mstatus]
    exact mpp_trapStatusM _
  · rw [hcsr, hscratch]
  · rw [hload i hi, hscratch, hserved.registers i hi]
    exact hresult i hi
  · rw [hmem, hserved.os a ha]
    exact contextMem_of_ne hframe (hos a ha)
  · rw [hserved.sbi]
    exact hstate

/-- `sbi_getchar` on a hart with all registers zero. -/
def polling : Hart where
  machine :=
    { x := Call.getchar.loaded fun _ => 0
      f := fun _ => 0
      csr := fun c => if c = .sscratch then 0x80000000 else 0
      mem := fun _ => 0 }
  pc := 0x80050000
  supervisor := true

/-- The SBI after boot, with one byte in its buffer. -/
def oneByte : Sbi where
  port := ⟨[], ⟨fun _ => 0x41, 0, 1⟩⟩
  transmitted := []
  harts := ⟨fun _ => Locks.MUTEX_UNLOCKED, fun _ => ⟨.HS_STOPPED, 0, 0⟩, fun _ => false⟩
  mtimecmp := fun _ => CLINT_MTIMECMP_INFINITE
  mip := 0
  finisher := none

def trapped : Machine := run saveContext (ecall polling)

/-- The trap handler puts the byte into `a0`. -/
def answered : Machine :=
  { trapped with
    csr := Function.update trapped.csr .sepc (polling.pc + 4)
    mem := Function.update trapped.mem (0x80000000 + gpregs a0) 0x41 }

theorem served_answered : Served 0 0 0x80000000 {0x90000000} trapped answered oneByte
    (svrcallHandle 0 0 (fun i => trapped.mem (0x80000000 + gpregs i)) oneByte).2 where
  mscratch := rfl
  mepc := rfl
  mstatus := rfl
  registers := by decide +kernel
  os := by
    rintro a rfl
    decide +kernel
  sbi := rfl

theorem sbi_call_returns_getchar :
    (run loadContext answered).csr .sepc = 0x80050004 ∧ (run loadContext answered).x a0 = 0x41 := by
  obtain ⟨hpc, -, -, hx, -⟩ := sbi_call_returns (c := .getchar) (x := fun _ => 0) (h := polling) rfl rfl
    (by
      rintro a rfl
      decide +kernel) served_answered
  exact ⟨hpc, (hx a0 (by decide)).trans (by decide)⟩

end Path

end SupervisorCalls
