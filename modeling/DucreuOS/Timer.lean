import DucreuOS.Fairness
import DucreuOS.SupervisorCalls

/-! # The timer of a hart

`process_spawn` sets the comparator of the hart to the end of the quantum. The SBI hands the
interrupt on as STIP and takes the comparator back; the OS acknowledges STIP and calls the
scheduler. The machine timer comes at any point, so an interrupt for one process can be pending when
the next one is spawned. What sets the timer of a hart from elsewhere is left out: the command of
the console, and a call of the scheduler for a hart with a process on it. -/
namespace Timer

open Rv64 SupervisorCalls Transition
open Scheduler (PROCESS_DEFAULT_CONTEXT_TIMER slice slice_toNat)

/-- Case 7: "let the OS deal with it". -/
def cTrapHandler (mhartid : BitVec 32) (s : Sbi) : Sbi :=
  clintSetMtimecmp { s with mip := SIP_STIP } mhartid CLINT_MTIMECMP_INFINITE

inductive Control
  | stopped
  /-- `process_spawn` has set the timer -/
  | spawned
  | process
  /-- in a handler for something else -/
  | trap
  /-- in `os_trap_handler` with STIP -/
  | timer
  | acknowledged

structure State where
  sbi : Sbi
  /-- what `rdtime` reads -/
  time : Word
  control : Control
  /-- when the quantum of the process ends -/
  deadline : ℕ
  /-- STIP was pending before the process started -/
  stale : Bool

def State.mtimecmp (s : State) (hart : BitVec 32) : ℕ := (s.sbi.mtimecmp hart.toInt).toNat

def State.pending (s : State) : Bool := s.sbi.mip.getLsbD 5

/-- The clock does not come near the infinite comparator. -/
def TIME_LIMIT : ℕ := 2 ^ 62

/-- Calls that leave the comparator and STIP of the hart alone. -/
def Quiet (hart : BitVec 32) : Call → Prop
  | .setClintTimer h _ | .addClintTimer h _ => h ≠ hart
  | .acknowledgeClintTimer => False
  | _ => True

inductive Event
  | tick (time : Word)
  | machineTimer
  /-- any hart calls the SBI -/
  | call (h : BitVec 32) (c : Call)
  /-- the machine timer of another hart -/
  | other (h : BitVec 32)
  | supervisorTimer
  | acknowledge
  | trap
  | leave
  | spawn (quantum : BitVec 16)
  | enter

/-- Where the scheduler runs for the hart. -/
def Control.Scheduling : Control → Prop
  | .stopped | .trap | .acknowledged => True
  | _ => False

inductive Step (hart : BitVec 32) (s : State) : Event → State → Prop
  | tick (time : Word) (h : s.time ≤ time) (hlimit : time.toNat < TIME_LIMIT) :
      Step hart s (.tick time) { s with time := time }
  | machineTimer (h : s.mtimecmp hart ≤ s.time.toNat) :
      Step hart s .machineTimer { s with sbi := cTrapHandler hart s.sbi }
  | call (h : BitVec 32) (c : Call) (hc : Quiet hart c) :
      Step hart s (.call h c) { s with sbi := (c.perform h s.time s.sbi).2 }
  | other (h : BitVec 32) (hh : h ≠ hart) :
      Step hart s (.other h) { s with sbi := { cTrapHandler h s.sbi with mip := s.sbi.mip } }
  | supervisorTimer (hc : s.control = .process) (hp : s.pending = true) :
      Step hart s .supervisorTimer { s with control := .timer }
  | acknowledge (hc : s.control = .timer) :
      Step hart s .acknowledge
        { s with
          sbi := (Call.acknowledgeClintTimer.perform hart s.time s.sbi).2
          control := .acknowledged }
  | trap (hc : s.control = .process) : Step hart s .trap { s with control := .trap }
  | leave (hc : s.control = .trap) : Step hart s .leave { s with control := .process }
  | spawn (quantum : BitVec 16) (hc : s.control.Scheduling) :
      Step hart s (.spawn quantum)
        { s with
          sbi := ((Call.addClintTimer hart
            (quantum.setWidth 64 * PROCESS_DEFAULT_CONTEXT_TIMER)).perform hart s.time s.sbi).2
          control := .spawned
          deadline := s.time.toNat + slice quantum
          stale := s.pending }
  | enter (hc : s.control = .spawned) : Step hart s .enter { s with control := .process }

/-! ## The comparator and STIP -/

section Device

variable {hart h : BitVec 32} {s : Sbi} {c : Call} {time val : Word}

theorem clintSetMtimecmp_self (hhart : HartControl.MAX_SUPPORTED_HARTS.sle hart = false) :
    (clintSetMtimecmp s hart val).mtimecmp hart.toInt = val := by
  simp [clintSetMtimecmp, hhart]

theorem clintSetMtimecmp_of_ne (hh : h ≠ hart) :
    (clintSetMtimecmp s h val).mtimecmp hart.toInt = s.mtimecmp hart.toInt := by
  have hne : hart.toInt ≠ h.toInt := fun heq => hh (BitVec.eq_of_toInt_eq heq.symm)
  unfold clintSetMtimecmp
  split
  · rfl
  · exact Function.update_of_ne hne ..

theorem clintSetMtimecmp_mip : (clintSetMtimecmp s h val).mip = s.mip := by
  unfold clintSetMtimecmp
  split <;> rfl

theorem clintAddMtimecmp_self (hhart : HartControl.MAX_SUPPORTED_HARTS.sle hart = false) :
    (clintAddMtimecmp time s hart val).mtimecmp hart.toInt = time + val := by
  simp [clintAddMtimecmp, clintSetMtimecmp_self, hhart]

theorem clintAddMtimecmp_of_ne (hh : h ≠ hart) :
    (clintAddMtimecmp time s h val).mtimecmp hart.toInt = s.mtimecmp hart.toInt := by
  unfold clintAddMtimecmp
  split
  · rfl
  · exact clintSetMtimecmp_of_ne hh

theorem clintAddMtimecmp_mip : (clintAddMtimecmp time s h val).mip = s.mip := by
  unfold clintAddMtimecmp
  split
  · rfl
  · exact clintSetMtimecmp_mip

theorem cTrapHandler_pending (h : BitVec 32) (s : Sbi) :
    (cTrapHandler h s).mip.getLsbD 5 = true := by
  have hstip : SIP_STIP.getLsbD 5 = true := by decide
  rw [cTrapHandler, clintSetMtimecmp_mip, hstip]

theorem perform_quiet (h : BitVec 32) (time : Word) (s : Sbi) (hc : Quiet hart c) :
    (c.perform h time s).2.mip = s.mip ∧
      (c.perform h time s).2.mtimecmp hart.toInt = s.mtimecmp hart.toInt := by
  cases c with
  | setClintTimer => exact ⟨clintSetMtimecmp_mip, clintSetMtimecmp_of_ne hc⟩
  | addClintTimer => exact ⟨clintAddMtimecmp_mip, clintAddMtimecmp_of_ne hc⟩
  | acknowledgeClintTimer => exact hc.elim
  | putchar | getchar | poweroff | getHartStatus | hartStart | hartStop | whoAmI | getClintTime
    | showClintTimer => exact ⟨rfl, rfl⟩

theorem infinite_toNat : CLINT_MTIMECMP_INFINITE.toNat = 2 ^ 63 - 1 := rfl

theorem slice_le (quantum : BitVec 16) : slice quantum < 2 ^ 30 := by
  have hquantum := quantum.isLt
  have htimer : PROCESS_DEFAULT_CONTEXT_TIMER.toNat = 10000 := rfl
  rw [slice, htimer]
  omega

end Device

/-! ## The invariant -/

/-- From the first `process_spawn` on. After the acknowledgement STIP says nothing, unless the process
had its whole quantum. -/
structure Armed (hart : BitVec 32) (s : State) : Prop where
  bound : s.deadline < CLINT_MTIMECMP_INFINITE.toNat
  comparator : s.mtimecmp hart = s.deadline ∨
    (s.mtimecmp hart = CLINT_MTIMECMP_INFINITE.toNat ∧ s.deadline ≤ s.time.toNat)
  fired : s.control ≠ .acknowledged → s.mtimecmp hart = CLINT_MTIMECMP_INFINITE.toNat →
    s.pending = true
  due : s.pending = true → s.stale = true ∨ s.mtimecmp hart = CLINT_MTIMECMP_INFINITE.toNat
  stale : s.control ≠ .acknowledged → s.stale = true → s.pending = true
  timer : s.control = .timer → s.pending = true
  acknowledged : s.control = .acknowledged → s.stale = false →
    s.pending = false ∧ s.mtimecmp hart = CLINT_MTIMECMP_INFINITE.toNat

structure Good (hart : BitVec 32) (s : State) : Prop where
  time : s.time.toNat < TIME_LIMIT
  armed : s.control ≠ .stopped → Armed hart s

section Invariant

variable {hart : BitVec 32} {s t : State} {e : Event}

theorem Good.armed_of (hs : Good hart s) {control : Control} (hc : s.control = control)
    (hne : control ≠ .stopped) : Armed hart s :=
  hs.armed (hc ▸ hne)

/-- The quantum is over once the comparator is back. -/
theorem Armed.over (hs : Armed hart s)
    (hm : s.mtimecmp hart = CLINT_MTIMECMP_INFINITE.toNat) : s.deadline ≤ s.time.toNat := by
  rcases hs.comparator with heq | ⟨-, hle⟩
  · have := hs.bound
    omega
  · exact hle

/-- With a whole quantum, the interrupt is the one at its end. -/
theorem Armed.back (hs : Armed hart s) (hp : s.pending = true) (hstale : s.stale = false) :
    s.mtimecmp hart = CLINT_MTIMECMP_INFINITE.toNat :=
  (hs.due hp).resolve_left fun htrue => Bool.false_ne_true (hstale.symm.trans htrue)

/-- Neither the comparator nor STIP changes. -/
theorem Armed.quiet (hs : Armed hart s) {sbi : Sbi} (hmip : sbi.mip = s.sbi.mip)
    (hcmp : sbi.mtimecmp hart.toInt = s.sbi.mtimecmp hart.toInt) {time : Word}
    (htime : s.time ≤ time) : Armed hart { s with sbi := sbi, time := time } := by
  have hpending : State.pending { s with sbi := sbi, time := time } = s.pending :=
    congrArg (BitVec.getLsbD · 5) hmip
  have hmtimecmp : State.mtimecmp { s with sbi := sbi, time := time } hart = s.mtimecmp hart :=
    congrArg BitVec.toNat hcmp
  have hle : s.time.toNat ≤ time.toNat := htime
  constructor
  · exact hs.bound
  · rw [hmtimecmp]
    exact hs.comparator.imp_right fun ⟨hm, hd⟩ => ⟨hm, hd.trans hle⟩
  · rw [hmtimecmp, hpending]
    exact hs.fired
  · rw [hmtimecmp, hpending]
    exact hs.due
  · rw [hpending]
    exact hs.stale
  · rw [hpending]
    exact hs.timer
  · rw [hmtimecmp, hpending]
    exact hs.acknowledged

theorem Good.quiet (hs : Good hart s) {sbi : Sbi} (hmip : sbi.mip = s.sbi.mip)
    (hcmp : sbi.mtimecmp hart.toInt = s.sbi.mtimecmp hart.toInt) {time : Word}
    (htime : s.time ≤ time) (hlimit : time.toNat < TIME_LIMIT) :
    Good hart { s with sbi := sbi, time := time } :=
  ⟨hlimit, fun hc => (hs.armed hc).quiet hmip hcmp htime⟩

/-- The process, a handler for something else and the way into one see the same timer. -/
theorem Good.goto (hs : Good hart s) {control : Control} (hstopped : s.control ≠ .stopped)
    (hold : s.control ≠ .acknowledged) (hnew : control ≠ .acknowledged)
    (htimer : control = .timer → s.pending = true) : Good hart { s with control := control } := by
  have harmed := hs.armed hstopped
  refine ⟨hs.time, fun _ => ⟨harmed.bound, harmed.comparator, fun _ => harmed.fired hold,
    harmed.due, fun _ => harmed.stale hold, htimer, fun hc => (hnew hc).elim⟩⟩

theorem machineTimer_good (hhart : HartControl.MAX_SUPPORTED_HARTS.sle hart = false)
    (hs : Good hart s) (hm : s.mtimecmp hart ≤ s.time.toNat) :
    Good hart { s with sbi := cTrapHandler hart s.sbi } := by
  have hmtimecmp : State.mtimecmp { s with sbi := cTrapHandler hart s.sbi } hart =
      CLINT_MTIMECMP_INFINITE.toNat := congrArg BitVec.toNat (clintSetMtimecmp_self hhart)
  have hpending : State.pending { s with sbi := cTrapHandler hart s.sbi } = true :=
    cTrapHandler_pending hart s.sbi
  refine ⟨hs.time, fun hc => ?_⟩
  have harmed := hs.armed hc
  -- the comparator is not the infinite one, so it is the deadline
  have hfinite : s.mtimecmp hart ≠ CLINT_MTIMECMP_INFINITE.toNat := by
    have htime := hs.time
    have hinfinite := infinite_toNat
    unfold TIME_LIMIT at htime
    omega
  have hdeadline : s.mtimecmp hart = s.deadline :=
    harmed.comparator.resolve_right fun h => hfinite h.1
  constructor
  · exact harmed.bound
  · exact .inr ⟨hmtimecmp, hdeadline ▸ hm⟩
  · exact fun _ _ => hpending
  · exact fun _ => .inr hmtimecmp
  · exact fun _ _ => hpending
  · exact fun _ => hpending
  · exact fun hack hstale => (hfinite (harmed.acknowledged hack hstale).2).elim

theorem acknowledge_good (hs : Good hart s) (hc : s.control = .timer) :
    Good hart { s with
      sbi := (Call.acknowledgeClintTimer.perform hart s.time s.sbi).2
      control := .acknowledged } := by
  have harmed := hs.armed_of hc Control.noConfusion
  have hclear : (s.sbi.mip &&& ~~~SIP_STIP).getLsbD 5 = false := by
    rw [BitVec.getLsbD_and, BitVec.getLsbD_not]
    exact Bool.and_eq_false_imp.mpr fun _ => rfl
  refine ⟨hs.time, fun _ => ?_⟩
  constructor
  · exact harmed.bound
  · exact harmed.comparator
  · exact fun hne => (hne rfl).elim
  · exact fun hp => (Bool.false_ne_true (hclear.symm.trans hp)).elim
  · exact fun hne => (hne rfl).elim
  · exact Control.noConfusion
  · exact fun _ hstale => ⟨hclear, harmed.back (harmed.timer hc) hstale⟩

theorem spawn_good (hhart : HartControl.MAX_SUPPORTED_HARTS.sle hart = false) (hs : Good hart s)
    (quantum : BitVec 16) :
    Good hart { s with
      sbi := ((Call.addClintTimer hart
        (quantum.setWidth 64 * PROCESS_DEFAULT_CONTEXT_TIMER)).perform hart s.time s.sbi).2
      control := .spawned
      deadline := s.time.toNat + slice quantum
      stale := s.pending } := by
  have htime := hs.time
  have hslice := slice_le quantum
  have hinfinite := infinite_toNat
  unfold TIME_LIMIT at htime
  have hmtimecmp : ((clintAddMtimecmp s.time s.sbi hart
      (quantum.setWidth 64 * PROCESS_DEFAULT_CONTEXT_TIMER)).mtimecmp hart.toInt).toNat =
      s.time.toNat + slice quantum := by
    rw [clintAddMtimecmp_self hhart, BitVec.toNat_add, slice_toNat]
    exact Nat.mod_eq_of_lt (by omega)
  have hpending : (clintAddMtimecmp s.time s.sbi hart
      (quantum.setWidth 64 * PROCESS_DEFAULT_CONTEXT_TIMER)).mip.getLsbD 5 = s.pending :=
    congrArg (BitVec.getLsbD · 5) clintAddMtimecmp_mip
  have hfinite : s.time.toNat + slice quantum ≠ CLINT_MTIMECMP_INFINITE.toNat := by omega
  refine ⟨hs.time, fun _ => ?_⟩
  constructor
  · change s.time.toNat + slice quantum < CLINT_MTIMECMP_INFINITE.toNat
    omega
  · exact .inl hmtimecmp
  · exact fun _ hm => (hfinite (hmtimecmp.symm.trans hm)).elim
  · exact fun hp => .inl (hpending.symm.trans hp)
  · exact fun _ hstale => hpending.trans hstale
  · exact Control.noConfusion
  · exact Control.noConfusion

theorem step_good (hhart : HartControl.MAX_SUPPORTED_HARTS.sle hart = false) (hs : Good hart s)
    (h : Step hart s e t) : Good hart t := by
  cases h with
  | tick time h hlimit => exact hs.quiet rfl rfl h hlimit
  | machineTimer h => exact machineTimer_good hhart hs h
  | call h c hc =>
    obtain ⟨hmip, hcmp⟩ := perform_quiet h s.time s.sbi hc
    exact hs.quiet hmip hcmp (BitVec.le_refl _) hs.time
  | other h hh =>
    refine hs.quiet ?_ ?_ (BitVec.le_refl _) hs.time
    · rfl
    · exact clintSetMtimecmp_of_ne hh
  | supervisorTimer hc hp =>
    exact hs.goto (by simp [hc]) (by simp [hc]) Control.noConfusion fun _ => hp
  | acknowledge hc => exact acknowledge_good hs hc
  | trap hc => exact hs.goto (by simp [hc]) (by simp [hc]) Control.noConfusion Control.noConfusion
  | leave hc => exact hs.goto (by simp [hc]) (by simp [hc]) Control.noConfusion Control.noConfusion
  | spawn quantum hc => exact spawn_good hhart hs quantum
  | enter hc => exact hs.goto (by simp [hc]) (by simp [hc]) Control.noConfusion Control.noConfusion

end Invariant

/-! ## The quantum of a process -/

section Quantum

variable {hart : BitVec 32} {s t : State}

/-- The interrupt takes the process off at once, by way of the SBI if STIP is not yet pending. -/
theorem Good.preempts (hs : Good hart s) (hc : s.control = .process)
    (hd : s.deadline ≤ s.time.toNat) :
    ∃ t, Execution (Step hart) s t ∧ t.control = .timer ∧ t.time = s.time := by
  by_cases hp : s.pending = true
  · exact ⟨_, .single (.supervisorTimer hc hp), rfl, rfl⟩
  have harmed := hs.armed_of hc Control.noConfusion
  have hacknowledged : s.control ≠ .acknowledged := hc ▸ Control.noConfusion
  have hdeadline : s.mtimecmp hart = s.deadline :=
    harmed.comparator.resolve_right fun h => hp (harmed.fired hacknowledged h.1)
  have hmachine : Step hart s .machineTimer { s with sbi := cTrapHandler hart s.sbi } :=
    .machineTimer (hdeadline.trans_le hd)
  have hpending : State.pending { s with sbi := cTrapHandler hart s.sbi } = true :=
    cTrapHandler_pending hart s.sbi
  exact ⟨_, (Execution.single hmachine).tail (.supervisorTimer hc hpending), rfl, rfl⟩

/-- In every run of a hart, with the machine timer at any point: a process can be preempted from the
end of its quantum on, and before that only if STIP was pending when it was spawned. STIP is not
pending for the process that follows one with a whole quantum. -/
theorem quantum_kept (hhart : HartControl.MAX_SUPPORTED_HARTS.sle hart = false)
    (hs : s.control = .stopped) (htime : s.time.toNat < TIME_LIMIT)
    (h : Execution (Step hart) s t) :
    (t.control = .process → t.deadline ≤ t.time.toNat →
      ∃ u, Execution (Step hart) t u ∧ u.control = .timer ∧ u.time = t.time) ∧
    (t.control = .timer → t.stale = false → t.deadline ≤ t.time.toNat) ∧
    (t.control = .acknowledged → t.stale = false →
      ∀ quantum u, Step hart t (.spawn quantum) u → u.stale = false) ∧
    (t.control = .process → t.stale = true → ∃ u, Step hart t .supervisorTimer u) := by
  have hgood : Good hart t :=
    h.invariant (fun _ _ _ hs h => step_good hhart hs h) ⟨htime, fun hc => (hc hs).elim⟩
  refine ⟨hgood.preempts, fun hc hstale => ?_, fun hc hstale quantum u hu => ?_,
    fun hc hstale => ?_⟩
  · have harmed := hgood.armed_of hc Control.noConfusion
    exact harmed.over (harmed.back (harmed.timer hc) hstale)
  · have harmed := hgood.armed_of hc Control.noConfusion
    cases hu
    exact (harmed.acknowledged hc hstale).1
  · have harmed := hgood.armed_of hc Control.noConfusion
    exact ⟨_, .supervisorTimer hc (harmed.stale (hc ▸ Control.noConfusion) hstale)⟩

/-- One quantum from time 0. -/
def atBoot : State := ⟨oneByte, 0, .stopped, 0, false⟩

theorem quantum_kept_at_boot : ∃ t u, Execution (Step 0) atBoot t ∧ t.control = .process ∧
    t.time = 10000 ∧ Execution (Step 0) t u ∧ u.control = .timer ∧ u.time = 10000 := by
  have hspawn : Step 0 atBoot (.spawn 1) _ := .spawn 1 trivial
  have hrun := ((Execution.single hspawn).tail (.enter rfl)).tail
    (.tick 10000 (by decide) (by decide))
  obtain ⟨u, hu, hc, htime⟩ := (quantum_kept (by decide) rfl (by decide) hrun).1 rfl (by decide)
  exact ⟨_, u, hrun, rfl, rfl, hu, hc, htime⟩

/-- The timer of a process comes when it is in a system call that ends in the scheduler: the next
process is preempted with all of its quantum left. -/
theorem quantum_lost (hc : s.control = .trap) (hm : s.mtimecmp hart ≤ s.time.toNat)
    (quantum : BitVec 16) :
    ∃ t, Execution (Step hart) s t ∧ t.control = .timer ∧ t.time = s.time ∧
      t.deadline = t.time.toNat + slice quantum := by
  have hscheduling : s.control.Scheduling := hc ▸ trivial
  have hmachine : Step hart s .machineTimer _ := .machineTimer hm
  have hrun := ((Execution.single hmachine).tail (.spawn quantum hscheduling)).tail (.enter rfl)
  have hpending : (clintAddMtimecmp s.time (cTrapHandler hart s.sbi) hart
      (quantum.setWidth 64 * PROCESS_DEFAULT_CONTEXT_TIMER)).mip.getLsbD 5 = true := by
    rw [clintAddMtimecmp_mip]
    exact cTrapHandler_pending hart s.sbi
  exact ⟨_, hrun.tail (.supervisorTimer rfl hpending), rfl, rfl, rfl⟩

end Quantum

end Timer
