import DucreuOS.Scheduler
import DucreuOS.TrapVectors

/-! # Processes on the harts

`_spawn_trap`, `os_trap_handler`, `sched_invoke` and `process_spawn` together: a process is stopped,
parked in its frame and spawned again, on any hart. One step is a stretch of code of a process, one
pass through the assembly, a stretch of a handler, or one call of `sched_invoke`. The harts do so in
any order. Floating point registers and SYSCALL_CONSOLE are left out. -/
namespace ContextSwitch

open Rv64 Rv64.Machine TrapFrame Transition
open Scheduler (Proc Os)

/-- A hart, without the memory that all harts share. -/
structure Core where
  x : Reg → Word
  f : Reg → Word
  csr : Csr → Word
  pc : Word
  supervisor : Bool

def Core.machine (c : Core) (mem : Word → Word) : Machine := ⟨c.x, c.f, c.csr, mem⟩

def Core.hart (c : Core) (mem : Word → Word) : Hart := ⟨c.machine mem, c.pc, c.supervisor⟩

def coreOf (h : Hart) : Core := ⟨h.machine.x, h.machine.f, h.machine.csr, h.pc, h.supervisor⟩

/-- A hart is `trapped` from `_spawn_trap` on, up to its `sret` or that of `_spawn_kthread`. -/
structure System (n : ℕ) where
  os : Os n
  mem : Word → Word
  core : Fin n → Core
  trapped : Fin n → Bool

/-- What a process sees of itself; `x0` is zero. -/
structure Context where
  pc : Word
  x : Reg → Word

def regs (x : Reg → Word) : Reg → Word := fun i => if i = 0 then 0 else x i

def a0 : Reg := 10

inductive Event (n : ℕ)
  /-- a process runs, up to the context -/
  | exec (p : Proc) (c : Context)
  /-- `_spawn_trap` up to the handler -/
  | trap (p : Proc)
  /-- code of the kernel on a hart -/
  | kernel (hart : Fin n)
  /-- `syscall_handle`, with the word it stores as A0, if any -/
  | syscall (p : Proc) (result : Option Word)
  /-- `_spawn_trap` from the handler on -/
  | leave (p : Proc)
  /-- `sched_invoke` and `process_spawn` -/
  | invoke (e : Scheduler.Event n)
  /-- a new process, with the context that it is loaded with -/
  | add (p : Proc) (c : Context)

variable {n : ℕ}

/-- What an event does to the context of a process. -/
def advance (p : Proc) (c : Context) : Event n → Context
  | .exec q c' => if q = p then c' else c
  | .trap q => if q = p then { c with x := Function.update c.x t0 (c.x t0 + 3) } else c
  | .kernel _ => c
  | .syscall q result =>
    if q = p then ⟨c.pc + 4, result.elim c.x (Function.update c.x a0)⟩ else c
  | .leave _ => c
  | .invoke _ => c
  | .add q c' => if q = p then c' else c

/-- Neither freed nor yet to be made. -/
def Live (s : Os n) (p : Proc) : Prop := (∃ h, p = s.idle h) ∨ (p ∈ s.created ∧ p ∉ s.freed)

def InFrame (base a : Word) : Prop := (a - base).toNat < 576

section Steps

-- the addresses of the frames, and the trap stacks of the harts
variable (frame : Proc → Word) (process_trap_stacks : Fin n → Word)

/-- The frames of live processes are not written. -/
def KeepsFrames (s : System n) (mem : Word → Word) : Prop :=
  ∀ p, Live s.os p → ∀ a, InFrame (frame p) a → mem a = s.mem a

/-- The `process_frame.sepc` that the timer and SYSCALL_SLEEP store: SYSCALL_EXIT stores none, and
neither does the console. -/
def savedSepc (s : System n) (h : Fin n) : Scheduler.Event n → Word → Word
  | .exit _ _ _ => s.mem
  | _ => match s.os.current h with
    | none => s.mem
    | some p => Function.update s.mem (frame p + SEPC) ((s.core h).csr .sepc)

/-- `process_spawn` of `p` on the hart that calls it, up to the `sret` of `_spawn_kthread`. -/
def spawn (s : System n) (mem : Word → Word) (h : Fin n) (p : Proc) : Hart :=
  let m : Machine := ((s.core h).machine mem).store (frame p + TRAP_STACK) (process_trap_stacks h)
  sret (run spawnKthread (m.setCsr .sscratch (m.mem (frame p + SSCRATCH))))

/-- `syscall_handle` steps over the `ecall`, and stores its result. -/
def syscallResult (h : Hart) (result : Option Word) : Hart :=
  let m := h.machine.setCsr .sepc (h.machine.csr .sepc + 4)
  { h with machine := result.elim m (m.store (m.csr .sscratch + gpregs a0)) }

/-- The hart is at `h'`, with the memory of `h'`. -/
def System.put (s : System n) (h : Fin n) (h' : Hart) (trapped : Bool) : System n :=
  { s with
    mem := h'.machine.mem
    core := Function.update s.core h (coreOf h')
    trapped := Function.update s.trapped h trapped }

inductive Step (s : System n) : Event n → System n → Prop
  /-- A process can write neither the CSRs nor a frame. -/
  | exec (h : Fin n) (p : Proc) (h' : Hart) (hp : s.os.current h = some p)
      (ht : s.trapped h = false) (hcsr : h'.machine.csr = (s.core h).csr)
      (hmode : h'.supervisor = (s.core h).supervisor)
      (hmem : KeepsFrames frame s h'.machine.mem) :
      Step s (.exec p ⟨h'.pc, regs h'.machine.x⟩) (s.put h h' false)
  | trap (h : Fin n) (p : Proc) (pc : Word) (hp : s.os.current h = some p)
      (ht : s.trapped h = false) :
      Step s (.trap p)
        (s.put h ⟨run spawnTrapEntry (takeTrap ((s.core h).hart s.mem)), pc, true⟩ true)
  /-- A handler leaves the scratch register and the CSRs of the trap alone, and the frames. -/
  | kernel (h : Fin n) (h' : Hart) (ht : s.trapped h = true ∨ s.os.current h = none)
      (hcsr : ∀ c, c = .sscratch ∨ c = .sepc ∨ c = .sstatus →
        h'.machine.csr c = (s.core h).csr c)
      (hmem : KeepsFrames frame s h'.machine.mem) :
      Step s (.kernel h) (s.put h h' (s.trapped h))
  | syscall (h : Fin n) (p : Proc) (result : Option Word) (hp : s.os.current h = some p)
      (ht : s.trapped h = true) :
      Step s (.syscall p result) (s.put h (syscallResult ((s.core h).hart s.mem) result) true)
  | leave (h : Fin n) (p : Proc) (hp : s.os.current h = some p) (ht : s.trapped h = true) :
      Step s (.leave p) (s.put h (sret (run spawnTrapExit ((s.core h).machine s.mem))) false)
  /-- The scheduler is called by a handler, or by the console on a hart without a process. -/
  | invoke (h : Fin n) (e : Scheduler.Event n) (os : Os n) (p : Proc)
      {kmalloc : ProcessList.Kmalloc} {time : Word} (hi : e.invokes = some (kmalloc, time, h))
      (ht : s.trapped h = true ∨ s.os.current h = none)
      (hos : Scheduler.Step s.os e os) (hp : os.current h = some p) :
      Step s (.invoke e)
        { s.put h (spawn frame process_trap_stacks s (savedSepc frame s h e) h p) false with
          os := os }
  /-- `process_init_new` stores the address of the frame, which is a new block, in the frame. -/
  | add (p : Proc) (os : Os n) (mem : Word → Word) (kmalloc : ProcessList.Kmalloc)
      (hos : Scheduler.Step s.os (.add kmalloc p) os)
      (hnew : ∀ q, Live s.os q → ∀ a, InFrame (frame q) a → ¬ InFrame (frame p) a)
      (hown : mem (frame p + SSCRATCH) = frame p) (hmem : KeepsFrames frame s mem) :
      Step s (.add p ⟨mem (frame p + SEPC), regs fun i => mem (frame p + gpregs i)⟩)
        { s with os := os, mem := mem }

/-- The context of a process is in the registers of its hart, in its frame and the CSRs of its hart,
or in its frame. -/
def System.context (s : System n) (p : Proc) : Context :=
  let saved := regs fun i => s.mem (frame p + gpregs i)
  match (s.os.proc p).onHart with
  | none => ⟨s.mem (frame p + SEPC), saved⟩
  | some h =>
    if s.trapped h then ⟨(s.core h).csr .sepc, saved⟩
    else ⟨(s.core h).pc, regs (s.core h).x⟩

/-- The mode a process was made with. -/
def System.mode (s : System n) (p : Proc) : Bool := (s.mem (frame p + SSTATUS)).getLsbD 8

structure Good (s : System n) : Prop where
  sched : Scheduler.Invariant s.os
  apart (p q : Proc) : Live s.os p → Live s.os q → p ≠ q →
    ∀ a, InFrame (frame p) a → ¬ InFrame (frame q) a
  own (p : Proc) : Live s.os p → s.mem (frame p + SSCRATCH) = frame p
  running (h : Fin n) (p : Proc) : s.os.current h = some p →
    (s.core h).csr .sscratch = frame p
  trapped (h : Fin n) : s.trapped h = true → s.os.current h ≠ none
  user (h : Fin n) (p : Proc) : s.os.current h = some p → s.trapped h = false →
    (s.core h).supervisor = s.mode frame p
  kernel (h : Fin n) (p : Proc) : s.os.current h = some p → s.trapped h = true →
    ((s.core h).csr .sstatus).getLsbD 8 = s.mode frame p

end Steps

/-! ## Frames -/

theorem inFrame_add {base off : Word} (h : off.toNat < 576) : InFrame base (base + off) := by
  have hsub : base + off - base = off := by
    rw [BitVec.add_comm, BitVec.add_sub_cancel]
  rw [InFrame, hsub]
  exact h

theorem gpregs_lt (i : Reg) : (gpregs i).toNat < 576 := by
  revert i
  decide

theorem fpregs_lt (i : Reg) : (fpregs i).toNat < 576 := by
  revert i
  decide

theorem field_ne {base a b : Word} (h : a ≠ b) : base + a ≠ base + b := fun e =>
  h ((BitVec.add_right_inj base).1 e)

/-- `_spawn_trap` writes nothing outside of the frame. -/
theorem entryMem_outside {m : Machine} {a : Word} (ha : ¬ InFrame (m.csr .sscratch) a) :
    entryMem m a = m.mem a := by
  have hoff : m.csr .sscratch + (a - m.csr .sscratch) = a := by
    rw [BitVec.add_comm, BitVec.sub_add_cancel]
  have hmem := entryMem_of_ne m (a - m.csr .sscratch)
    (fun i e => ha (by rw [InFrame, e]; exact gpregs_lt i))
    (fun i e => ha (by rw [InFrame, e]; exact fpregs_lt i))
  rwa [hoff] at hmem

/-! ## Into and out of the frame -/

theorem run_restore_mem (m : Machine) : (run restore m).mem = m.mem :=
  runFrom_mem (by decide) 0 m

/-- The frame is loaded, and nothing is written. -/
theorem run_spawnKthread {m : Machine} {base : Word} (hs : m.csr .sscratch = base)
    (hown : m.mem (base + SSCRATCH) = base) :
    (run spawnKthread m).mem = m.mem ∧ (run spawnKthread m).csr .sscratch = base ∧
      (run spawnKthread m).csr .sepc = m.mem (base + SEPC) ∧
      (run spawnKthread m).csr .sstatus = m.mem (base + SSTATUS) ∧
      ∀ i, i ≠ 0 → (run spawnKthread m).x i = m.mem (base + gpregs i) := by
  subst hs
  have hrun : run spawnKthread m = run restore (run loadCsrs m) := run_append _ _ _ (by decide)
  obtain ⟨hmem, h6, hsepc⟩ := run_loadCsrs m
  obtain ⟨hcsr, hx, -⟩ := run_restore (run loadCsrs m)
  have hscratch : (run loadCsrs m).csr .sscratch = m.mem (m.csr .sscratch + SSCRATCH) := rfl
  have hstatus : (run loadCsrs m).csr .sstatus = m.mem (m.csr .sscratch + SSTATUS) := rfl
  rw [hrun, hcsr, run_restore_mem]
  refine ⟨hmem, hscratch.trans hown, hsepc, hstatus, fun i hi => ?_⟩
  rw [hx i hi, hmem, h6, hown]

theorem run_spawnTrapExit (m : Machine) :
    (run spawnTrapExit m).mem = m.mem ∧
      (∀ c, c ≠ .satp → (run spawnTrapExit m).csr c = m.csr c) ∧
      ∀ i, i ≠ 0 → (run spawnTrapExit m).x i = m.mem (m.csr .sscratch + gpregs i) := by
  have hrun : run spawnTrapExit m = run restore (run fromKernel m) := run_append _ _ _ (by decide)
  obtain ⟨hmem, h6, -, hcsr⟩ := run_fromKernel m
  obtain ⟨hrcsr, hx, -⟩ := run_restore (run fromKernel m)
  rw [hrun, hrcsr, run_restore_mem]
  refine ⟨hmem, hcsr, fun i hi => ?_⟩
  rw [hx i hi, hmem, h6]

/-! ## The scheduler -/

section Sched

open Scheduler

variable {o o' : Os n} {p : Proc} {h : Fin n} {e : Scheduler.Event n}
  {kmalloc : ProcessList.Kmalloc} {time : Word}

theorem onHart_iff (hs : Invariant o) : (o.proc p).onHart = some h ↔ o.current h = some p := by
  obtain ⟨⟨_, _, _, _, -, hp⟩, -⟩ := hs
  exact (hp.current p h).symm

theorem onHart_none (hs : Invariant o) (hn : ∀ h, o.current h ≠ some p) :
    (o.proc p).onHart = none := by
  cases ho : (o.proc p).onHart with
  | none => rfl
  | some h => exact absurd ((onHart_iff hs).1 ho) (hn h)

theorem current_unique (hs : Invariant o) {k : Fin n} (hh : o.current h = some p)
    (hk : o.current k = some p) : h = k := by
  obtain ⟨⟨_, _, _, _, -, hp⟩, -⟩ := hs
  exact hp.current_unique hh hk

theorem live_of_current (hs : Invariant o) (hc : o.current h = some p) : Live o p := by
  obtain ⟨⟨_, _, _, _, -, hp⟩, -⟩ := hs
  by_cases hi : p = o.idle h
  · exact Or.inl ⟨h, hi⟩
  · exact Or.inr ⟨(hp.running p h hc (by simp) hi).1, (hp.on_hart_not_listed hc).2.2⟩

theorem park_current (q : Queues n) : (q.park p h).current = q.current := by
  simp only [Queues.park, Queues.mapTable, Table.processFree]
  split_ifs <;> rfl

theorem switch_current (q : Queues n) {k : Fin n} (hk : k ≠ h) :
    (q.switch h).current k = q.current k := by
  have hspawn : (q.switch h).current k = (q.vacate h).current k :=
    (Table.processSpawn_current ..).trans (if_neg hk)
  have hdetach : (q.mapTable (·.detach (q.onHart h) h)).current k = q.current k :=
    (Table.detach_current ..).trans (if_neg hk)
  rw [hspawn, Queues.vacate, park_current, hdetach]

/-- What a call of the scheduler does to the harts and the processes: only the hart it is called on
gets another process, and a process that called exit is gone. -/
structure Invoked (o : Os n) (h : Fin n) (e : Scheduler.Event n) (o' : Os n) : Prop where
  invariant : Invariant o'
  current (k : Fin n) : k ≠ h → o'.current k = o.current k
  live (p : Proc) : Live o' p → Live o p
  exit (kmalloc : ProcessList.Kmalloc) (time : Word) (p : Proc) :
    e = .exit kmalloc time h → o.current h = some p → ¬ Live o' p

theorem invoked (hs : Invariant o) (hstep : Scheduler.Step o e o')
    (hi : e.invokes = some (kmalloc, time, h)) : Invoked o h e o' := by
  obtain ⟨he, hnext⟩ := hstep
  obtain ⟨w, hw, hinv⟩ := next_spec hs he
  obtain rfl : w = o' := Option.some.inj (hw.symm.trans hnext)
  obtain ⟨⟨lu, ls, us, ss, hl, hp⟩, -⟩ := hs
  have hq : Queued o us ss := ⟨⟨lu, ls, hl⟩, hp⟩
  obtain ⟨v, ps, r, hv, hwakes, -, ht, -⟩ := hq.invoke he hi
  obtain rfl : v = w := Option.some.inj (hv.symm.trans hnext)
  have hgrows := next_grows hnext
  have hcreates : e.creates = [] := by
    cases e with
    | add => cases hi
    | timer | sleep | exit => rfl
  have hcreated : v.created = o.created := by
    have hc := hgrows.created
    rw [hcreates] at hc
    exact hc
  refine ⟨hinv, fun k hk => ?_, fun p hlive => ?_, fun km t p hexit hc => ?_⟩
  · have henter : (o.toTable.enter e).current = o.current := by
      cases e <;> rfl
    rw [ht, switch_current r hk, hwakes.walked.current]
    exact congrFun henter k
  · rcases hlive with ⟨k, hk⟩ | ⟨hc, hf⟩
    · exact Or.inl ⟨k, hk.trans (congrFun hgrows.idle k)⟩
    · exact Or.inr ⟨hcreated ▸ hc, fun hm => hf (hgrows.freed p hm)⟩
  · subst hexit
    obtain ⟨-, -, -, hfr⟩ := (hp.ready he hi).vacate (q := ⟨_, us, ss⟩) hwakes
    have hon : (o.current h).getD (o.idle h) = p := by rw [hc]; rfl
    have hstate : ((o.toTable.setState ((o.current h).getD (o.idle h)) .asyncFree).proc
        ((o.current h).getD (o.idle h))).processState = .asyncFree := by
      rw [Table.setState_state, if_pos rfl]
    have hfreed : (r.vacate h).freed = (o.current h).getD (o.idle h) :: o.freed :=
      hfr.trans (if_pos hstate)
    have hmem : p ∈ v.freed := by
      rw [ht]
      change p ∈ (r.vacate h).freed
      rw [hfreed, hon]
      exact List.mem_cons_self
    obtain ⟨⟨_, _, _, _, -, hp'⟩, -⟩ := hinv
    rintro (⟨k, hk⟩ | ⟨-, hf⟩)
    · exact hp'.not_idle p (hp'.freed p hmem).1 k hk
    · exact hf hmem

/-- A new process is live and on no hart, and the others stay where they are. -/
structure Added (o : Os n) (p : Proc) (o' : Os n) : Prop where
  invariant : Invariant o'
  current : o'.current = o.current
  live (q : Proc) : Live o' q ↔ q = p ∨ Live o q
  fresh : ¬ Live o p

theorem added (hs : Invariant o) (hstep : Scheduler.Step o (.add kmalloc p) o') :
    Added o p o' := by
  obtain ⟨he, hnext⟩ := hstep
  obtain ⟨w, hw, hinv⟩ := next_spec hs he
  obtain rfl : w = o' := Option.some.inj (hw.symm.trans hnext)
  have hnf : p ∉ o.freed := hs.not_freed he.1
  obtain ⟨⟨lu, ls, us, ss, hl, hp⟩, -⟩ := hs
  have hq : Queued o us ss := ⟨⟨lu, ls, hl⟩, hp⟩
  obtain ⟨v, hv, ht, -⟩ := hq.add he
  obtain rfl : v = w := Option.some.inj (hv.symm.trans hnext)
  refine ⟨hinv, ?_, fun q => ?_, ?_⟩
  · rw [ht]
    rfl
  · have hidle : v.idle = o.idle := by
      rw [ht]
      rfl
    have hcreated : v.created = p :: o.created := by
      rw [ht]
      rfl
    have hfreed : v.freed = o.freed := by
      rw [ht]
      rfl
    rw [Live, Live, hidle, hcreated, hfreed, List.mem_cons]
    constructor
    · rintro (hi | ⟨rfl | hc, hf⟩)
      · exact Or.inr (Or.inl hi)
      · exact Or.inl rfl
      · exact Or.inr (Or.inr ⟨hc, hf⟩)
    · rintro (rfl | hi | ⟨hc, hf⟩)
      · exact Or.inr ⟨Or.inl rfl, hnf⟩
      · exact Or.inl hi
      · exact Or.inr ⟨Or.inr hc, hf⟩
  · rintro (⟨k, hk⟩ | ⟨hc, -⟩)
    · exact he.2 k hk
    · exact he.1 hc

end Sched

/-! ## One step -/

section Step

variable {frame : Proc → Word} {process_trap_stacks : Fin n → Word} {s u : System n}
  {e : Event n} {p q : Proc} {h k : Fin n} {h' : Hart} {b : Bool}

theorem put_core_self : (s.put h h' b).core h = coreOf h' := Function.update_self ..

theorem put_core_of_ne (hk : k ≠ h) : (s.put h h' b).core k = s.core k :=
  Function.update_of_ne hk ..

theorem put_trapped_self : (s.put h h' b).trapped h = b := Function.update_self ..

theorem put_trapped_of_ne (hk : k ≠ h) : (s.put h h' b).trapped k = s.trapped k :=
  Function.update_of_ne hk ..

theorem context_parked (hs : Scheduler.Invariant s.os) (hn : ∀ h, s.os.current h ≠ some p) :
    s.context frame p = ⟨s.mem (frame p + SEPC), regs fun i => s.mem (frame p + gpregs i)⟩ := by
  rw [System.context, onHart_none hs hn]

theorem context_trapped (hs : Scheduler.Invariant s.os) (hc : s.os.current h = some p)
    (ht : s.trapped h = true) :
    s.context frame p = ⟨(s.core h).csr .sepc, regs fun i => s.mem (frame p + gpregs i)⟩ := by
  rw [System.context, (onHart_iff hs).2 hc]
  exact if_pos ht

theorem context_running (hs : Scheduler.Invariant s.os) (hc : s.os.current h = some p)
    (ht : s.trapped h = false) :
    s.context frame p = ⟨(s.core h).pc, regs (s.core h).x⟩ := by
  rw [System.context, (onHart_iff hs).2 hc]
  exact if_neg (by rw [ht]; exact Bool.false_ne_true)

/-- Contexts are the same where the process is on the same hart, in the same state, and its frame
has the same words. -/
theorem context_congr (hs : Scheduler.Invariant s.os) (hu : Scheduler.Invariant u.os)
    (hcur : ∀ h, u.os.current h = some p ↔ s.os.current h = some p)
    (hcore : ∀ h, s.os.current h = some p → u.core h = s.core h ∧ u.trapped h = s.trapped h)
    (hmem : ∀ a, InFrame (frame p) a → u.mem a = s.mem a) :
    u.context frame p = s.context frame p := by
  have hsepc : u.mem (frame p + SEPC) = s.mem (frame p + SEPC) := hmem _ (inFrame_add (by decide))
  have hregs : (fun i => u.mem (frame p + gpregs i)) = fun i => s.mem (frame p + gpregs i) :=
    funext fun i => hmem _ (inFrame_add (gpregs_lt i))
  by_cases hon : ∃ h, s.os.current h = some p
  · obtain ⟨h, hc⟩ := hon
    obtain ⟨hcoreh, htrapped⟩ := hcore h hc
    cases ht : s.trapped h with
    | true =>
      rw [context_trapped hs hc ht, context_trapped hu ((hcur h).2 hc) (htrapped.trans ht), hcoreh,
        hregs]
    | false =>
      rw [context_running hs hc ht, context_running hu ((hcur h).2 hc) (htrapped.trans ht), hcoreh]
  · have hn (h : Fin n) : s.os.current h ≠ some p := fun hc => hon ⟨h, hc⟩
    rw [context_parked hs hn, context_parked hu (fun h hc => hn h ((hcur h).1 hc)), hsepc, hregs]

/-- What a step keeps: `advance` says what becomes of the context of every process. -/
structure Kept (frame : Proc → Word) (s : System n) (e : Event n) (u : System n) : Prop where
  good : Good frame u
  live (p : Proc) : Live u.os p → Live s.os p ∨ ∃ c, e = .add p c
  context (p : Proc) : Live u.os p → u.context frame p = advance p (s.context frame p) e
  mode (p : Proc) : Live u.os p → Live s.os p → u.mode frame p = s.mode frame p

/-- The hart `h` writes at most in the frame of its process, and not the words there that are set
once. -/
structure Local (frame : Proc → Word) (s : System n) (h : Fin n) (h' : Hart) : Prop where
  others (p : Proc) : Live s.os p → s.os.current h ≠ some p → ∀ a, InFrame (frame p) a →
    h'.machine.mem a = s.mem a
  own (p : Proc) : s.os.current h = some p →
    h'.machine.mem (frame p + SSCRATCH) = s.mem (frame p + SSCRATCH)
  sstatus (p : Proc) : s.os.current h = some p →
    h'.machine.mem (frame p + SSTATUS) = s.mem (frame p + SSTATUS)
  sscratch (p : Proc) : s.os.current h = some p →
    h'.machine.csr .sscratch = (s.core h).csr .sscratch

theorem Local.word (hl : Local frame s h h') (hp : Live s.os p) {off : Word}
    (hoff : off.toNat < 576) (hown : s.os.current h = some p →
      h'.machine.mem (frame p + off) = s.mem (frame p + off)) :
    h'.machine.mem (frame p + off) = s.mem (frame p + off) := by
  by_cases hc : s.os.current h = some p
  · exact hown hc
  · exact hl.others p hp hc _ (inFrame_add hoff)

/-- The mode of the process on a hart: its SPP while the hart is in the kernel. -/
def System.modeOn (s : System n) (h : Fin n) : Bool :=
  if s.trapped h then ((s.core h).csr .sstatus).getLsbD 8 else (s.core h).supervisor

theorem put_modeOn_self : (s.put h h' b).modeOn h =
    if b then (h'.machine.csr .sstatus).getLsbD 8 else h'.supervisor := by
  rw [System.modeOn, put_trapped_self, put_core_self]
  rfl

theorem put_modeOn_of_ne (hk : k ≠ h) : (s.put h h' b).modeOn k = s.modeOn k := by
  rw [System.modeOn, put_trapped_of_ne hk, put_core_of_ne hk, System.modeOn]

theorem Good.modeOn (hg : Good frame s) (hc : s.os.current h = some p) :
    s.modeOn h = s.mode frame p := by
  cases ht : s.trapped h with
  | true => exact (if_pos ht).trans (hg.kernel h p hc ht)
  | false =>
    rw [System.modeOn, ht]
    exact hg.user h p hc ht

/-- The invariant, with one fact about modes. -/
theorem good_of_modeOn (hs : Scheduler.Invariant s.os)
    (hapart : ∀ p q, Live s.os p → Live s.os q → p ≠ q →
      ∀ a, InFrame (frame p) a → ¬ InFrame (frame q) a)
    (hown : ∀ p, Live s.os p → s.mem (frame p + SSCRATCH) = frame p)
    (hrunning : ∀ h p, s.os.current h = some p → (s.core h).csr .sscratch = frame p)
    (htrapped : ∀ h, s.trapped h = true → s.os.current h ≠ none)
    (hmode : ∀ h p, s.os.current h = some p → s.modeOn h = s.mode frame p) : Good frame s := by
  refine ⟨hs, hapart, hown, hrunning, htrapped, fun h p hc ht => ?_, fun h p hc ht => ?_⟩
  · rw [← hmode h p hc, System.modeOn, ht]
    rfl
  · exact (if_pos ht).symm.trans (hmode h p hc)

/-- A hart goes on with its own process, in the kernel or in the process. -/
theorem put_good (hg : Good frame s) (hl : Local frame s h h')
    (ht : b = true → s.os.current h ≠ none)
    (hmode : ∀ p, s.os.current h = some p →
      (if b then (h'.machine.csr .sstatus).getLsbD 8 else h'.supervisor) = s.mode frame p) :
    Good frame (s.put h h' b) ∧
      ∀ p, Live s.os p → (s.put h h' b).mode frame p = s.mode frame p := by
  have hsame (p : Proc) (hp : Live s.os p) : (s.put h h' b).mode frame p = s.mode frame p :=
    congrArg (BitVec.getLsbD · 8) (hl.word hp (by decide) (hl.sstatus p))
  refine ⟨good_of_modeOn hg.sched hg.apart (fun p hp => ?_) (fun k p hc => ?_) (fun k hk => ?_)
    fun k p hc => ?_, hsame⟩
  · exact (hl.word hp (by decide) (hl.own p)).trans (hg.own p hp)
  · by_cases he : k = h
    · subst he
      rw [put_core_self]
      exact (hl.sscratch p hc).trans (hg.running k p hc)
    · rw [put_core_of_ne he]
      exact hg.running k p hc
  · by_cases he : k = h
    · subst he
      rw [put_trapped_self] at hk
      exact ht hk
    · rw [put_trapped_of_ne he] at hk
      exact hg.trapped k hk
  · rw [hsame p (live_of_current hg.sched hc)]
    by_cases he : k = h
    · subst he
      exact put_modeOn_self.trans (hmode p hc)
    · exact (put_modeOn_of_ne he).trans (hg.modeOn hc)

/-- The processes of other harts and those in their frames have their contexts. -/
theorem put_context_other (hg : Good frame s) (hl : Local frame s h h') (hp : Live s.os p)
    (hc : s.os.current h ≠ some p) : (s.put h h' b).context frame p = s.context frame p := by
  refine context_congr hg.sched hg.sched (fun _ => Iff.rfl) (fun k hk => ?_) (hl.others p hp hc)
  have hne : k ≠ h := fun e => hc (e ▸ hk)
  exact ⟨put_core_of_ne hne, put_trapped_of_ne hne⟩

/-- It is enough to look at the process on the hart. -/
theorem put_kept (hg : Good frame s) (hl : Local frame s h h')
    (ht : b = true → s.os.current h ≠ none)
    (hmode : ∀ p, s.os.current h = some p →
      (if b then (h'.machine.csr .sstatus).getLsbD 8 else h'.supervisor) = s.mode frame p)
    (hother : ∀ p c, s.os.current h ≠ some p → advance p c e = c)
    (hown : ∀ p, s.os.current h = some p →
      (s.put h h' b).context frame p = advance p (s.context frame p) e) :
    Kept frame s e (s.put h h' b) := by
  obtain ⟨hgood, hsame⟩ := put_good hg hl ht hmode
  refine ⟨hgood, fun p hp => Or.inl hp, fun p hp => ?_, fun p _ hp => hsame p hp⟩
  by_cases hc : s.os.current h = some p
  · exact hown p hc
  · rw [put_context_other hg hl hp hc, hother p _ hc]

/-- The same for a hart that has the process `p`. -/
theorem put_kept_on (hg : Good frame s) (hp : s.os.current h = some p)
    (hothers : ∀ q, Live s.os q → q ≠ p → ∀ a, InFrame (frame q) a → h'.machine.mem a = s.mem a)
    (hown : h'.machine.mem (frame p + SSCRATCH) = s.mem (frame p + SSCRATCH))
    (hsstatus : h'.machine.mem (frame p + SSTATUS) = s.mem (frame p + SSTATUS))
    (hsscratch : h'.machine.csr .sscratch = (s.core h).csr .sscratch)
    (hmode : (if b then (h'.machine.csr .sstatus).getLsbD 8 else h'.supervisor) = s.mode frame p)
    (hother : ∀ q c, p ≠ q → advance q c e = c)
    (hcontext : (s.put h h' b).context frame p = advance p (s.context frame p) e) :
    Kept frame s e (s.put h h' b) := by
  have hon (q : Proc) (hq : s.os.current h = some q) : p = q :=
    Option.some.inj (hp.symm.trans hq)
  have hlocal : Local frame s h h' :=
    ⟨fun q hq hc => hothers q hq fun e => hc (e ▸ hp), fun q hq => hon q hq ▸ hown,
      fun q hq => hon q hq ▸ hsstatus, fun _ _ => hsscratch⟩
  refine put_kept hg hlocal (fun _ hn => ?_) (fun q hq => hon q hq ▸ hmode) (fun q c hq => ?_)
    fun q hq => hon q hq ▸ hcontext
  · rw [hp] at hn
    cases hn
  · exact hother q c fun e => hq (e ▸ hp)

theorem KeepsFrames.toLocal (hm : KeepsFrames frame s h'.machine.mem) (hg : Good frame s)
    (hs : h'.machine.csr .sscratch = (s.core h).csr .sscratch) : Local frame s h h' :=
  ⟨fun p hp _ => hm p hp,
    fun p hc => hm p (live_of_current hg.sched hc) _ (inFrame_add (by decide)),
    fun p hc => hm p (live_of_current hg.sched hc) _ (inFrame_add (by decide)), fun _ _ => hs⟩

theorem regs_congr {x y : Reg → Word} (hxy : ∀ i, i ≠ 0 → x i = y i) : regs x = regs y := by
  funext i
  by_cases hi : i = 0
  · rw [regs, regs, if_pos hi, if_pos hi]
  · rw [regs, regs, if_neg hi, if_neg hi, hxy i hi]

theorem regs_update {x : Reg → Word} {r : Reg} (hr : r ≠ 0) (v : Word) :
    regs (Function.update x r v) = Function.update (regs x) r v := by
  funext i
  by_cases hi : i = r
  · subst hi
    rw [regs, if_neg hr, Function.update_self, Function.update_self]
  · rw [regs, Function.update_of_ne hi, Function.update_of_ne hi, regs]

theorem exec_kept (hg : Good frame s) (hp : s.os.current h = some p) (ht : s.trapped h = false)
    (hcsr : h'.machine.csr = (s.core h).csr) (hmode : h'.supervisor = (s.core h).supervisor)
    (hmem : KeepsFrames frame s h'.machine.mem) :
    Kept frame s (.exec p ⟨h'.pc, regs h'.machine.x⟩) (s.put h h' false) := by
  have hlive : Live s.os p := live_of_current hg.sched hp
  refine put_kept_on hg hp (fun q hq _ => hmem q hq) (hmem p hlive _ (inFrame_add (by decide)))
    (hmem p hlive _ (inFrame_add (by decide))) (congrFun hcsr .sscratch)
    (hmode.trans (hg.user h p hp ht)) (fun _ _ hne => if_neg hne) ?_
  rw [context_running (s := s.put h h' false) hg.sched hp put_trapped_self, put_core_self]
  exact (if_pos rfl).symm

theorem kernel_kept (hg : Good frame s) (ht : s.trapped h = true ∨ s.os.current h = none)
    (hcsr : ∀ c, c = .sscratch ∨ c = .sepc ∨ c = .sstatus →
      h'.machine.csr c = (s.core h).csr c)
    (hmem : KeepsFrames frame s h'.machine.mem) :
    Kept frame s (.kernel h) (s.put h h' (s.trapped h)) := by
  have hon (q : Proc) (hq : s.os.current h = some q) : s.trapped h = true :=
    ht.resolve_right fun hn => by rw [hn] at hq; cases hq
  refine put_kept hg (hmem.toLocal hg (hcsr _ (Or.inl rfl))) (hg.trapped h) (fun q hq => ?_)
    (fun _ _ _ => rfl) (fun q hq => ?_)
  · rw [hon q hq, if_pos rfl, hcsr _ (Or.inr (Or.inr rfl))]
    exact hg.kernel h q hq (hon q hq)
  · have hself : (s.put h h' (s.trapped h)).trapped h = true := put_trapped_self.trans (hon q hq)
    rw [context_trapped (s := s.put h h' (s.trapped h)) hg.sched hq hself,
      context_trapped hg.sched hq (hon q hq), put_core_self]
    refine congrArg₂ Context.mk (hcsr _ (Or.inr (Or.inl rfl))) (regs_congr fun i _ => ?_)
    exact hmem q (live_of_current hg.sched hq) _ (inFrame_add (gpregs_lt i))

/-- Words of frames are the same only where both the process and the field are. -/
theorem word_ne (hg : Good frame s) (hp : Live s.os p) (hq : Live s.os q) {a b : Word}
    (ha : a.toNat < 576) (hb : b.toNat < 576) (hne : p ≠ q ∨ a ≠ b) :
    frame p + a ≠ frame q + b := by
  by_cases hpq : p = q
  · subst hpq
    exact field_ne (hne.resolve_left fun hn => hn rfl)
  · intro heq
    exact hg.apart p q hp hq hpq _ (inFrame_add ha) (heq ▸ inFrame_add hb)

theorem sstatus_ne_gpregs (i : Reg) : SSTATUS ≠ gpregs i := by
  revert i
  decide

theorem sstatus_ne_fpregs (i : Reg) : SSTATUS ≠ fpregs i := by
  revert i
  decide

theorem trap_kept (hg : Good frame s) (pc : Word) (hp : s.os.current h = some p)
    (ht : s.trapped h = false) :
    Kept frame s (.trap p)
      (s.put h ⟨run spawnTrapEntry (takeTrap ((s.core h).hart s.mem)), pc, true⟩ true) := by
  have hframe : (takeTrap ((s.core h).hart s.mem)).csr .sscratch = frame p := hg.running h p hp
  obtain ⟨hregs, hown, hscratch, hsepc⟩ :=
    entry_frame (h := (s.core h).hart s.mem) (hg.running h p hp)
  obtain ⟨hmem, hcsr⟩ := run_spawnTrapEntry (takeTrap ((s.core h).hart s.mem))
  refine put_kept_on hg hp (fun q hq hne a ha => ?_) hown ?_
    (hscratch.trans (hg.running h p hp).symm) ?_ (fun _ _ hne => if_neg hne) ?_
  · have hout : ¬ InFrame ((takeTrap ((s.core h).hart s.mem)).csr .sscratch) a := by
      rw [hframe]
      exact hg.apart q p hq (live_of_current hg.sched hp) hne a ha
    exact (congrFun hmem a).trans (entryMem_outside hout)
  · rw [← hframe]
    exact (congrFun hmem _).trans (entryMem_of_ne _ _ sstatus_ne_gpregs sstatus_ne_fpregs)
  · rw [← hg.user h p hp ht, if_pos rfl, hcsr _ (by decide)]
    exact TrapVectors.trapStatus_spp ..
  · rw [context_trapped (s := s.put h _ true) hg.sched hp put_trapped_self,
      context_running hg.sched hp ht, put_core_self, advance, if_pos rfl]
    refine congrArg₂ Context.mk hsepc ?_
    have h5 : regs (s.core h).x t0 = (s.core h).x t0 := if_neg (by decide)
    change _ = Function.update (regs (s.core h).x) t0 (regs (s.core h).x t0 + 3)
    rw [h5, ← regs_update (by decide)]
    exact regs_congr hregs

theorem syscall_kept (hg : Good frame s) (result : Option Word) (hp : s.os.current h = some p)
    (ht : s.trapped h = true) :
    Kept frame s (.syscall p result)
      (s.put h (syscallResult ((s.core h).hart s.mem) result) true) := by
  have hlive : Live s.os p := live_of_current hg.sched hp
  have hframe : (s.core h).csr .sscratch = frame p := hg.running h p hp
  have hcsr : (syscallResult ((s.core h).hart s.mem) result).machine.csr =
      Function.update (s.core h).csr .sepc ((s.core h).csr .sepc + 4) := by
    cases result <;> rfl
  have hmem : (syscallResult ((s.core h).hart s.mem) result).machine.mem =
      result.elim s.mem (Function.update s.mem (frame p + gpregs a0)) := by
    rw [← hframe]
    cases result <;> rfl
  have hother {a : Word} (ha : a ≠ frame p + gpregs a0) :
      (syscallResult ((s.core h).hart s.mem) result).machine.mem a = s.mem a := by
    rw [hmem]
    cases result with
    | none => rfl
    | some v => exact Function.update_of_ne ha ..
  refine put_kept_on hg hp (fun q hq hne a ha => ?_) (hother (field_ne (by decide)))
    (hother (field_ne (by decide))) ?_ ?_ (fun _ _ hne => if_neg hne) ?_
  · exact hother fun e => hg.apart q p hq hlive hne a ha (e ▸ inFrame_add (by decide))
  · rw [hcsr]
    exact Function.update_of_ne (by decide) ..
  · rw [if_pos rfl, hcsr, ← hg.kernel h p hp ht]
    exact congrArg (BitVec.getLsbD · 8) (Function.update_of_ne (by decide) ..)
  · rw [context_trapped (s := s.put h _ true) hg.sched hp put_trapped_self,
      context_trapped hg.sched hp ht, put_core_self, advance, if_pos rfl]
    refine congrArg₂ Context.mk ?_ ?_
    · change (syscallResult ((s.core h).hart s.mem) result).machine.csr .sepc = _
      rw [hcsr]
      exact Function.update_self ..
    · change regs (fun i =>
        (syscallResult ((s.core h).hart s.mem) result).machine.mem (frame p + gpregs i)) = _
      rw [hmem]
      cases result with
      | none => rfl
      | some v =>
        change _ = Function.update (regs fun i => s.mem (frame p + gpregs i)) a0 v
        rw [← regs_update (by decide)]
        refine regs_congr fun i _ => ?_
        by_cases hi : i = a0
        · rw [hi, Function.update_self]
          exact Function.update_self ..
        · rw [Function.update_of_ne hi]
          exact Function.update_of_ne (field_ne fun e => hi (gpregs_injective e)) ..

theorem leave_kept (hg : Good frame s) (hp : s.os.current h = some p) (ht : s.trapped h = true) :
    Kept frame s (.leave p)
      (s.put h (sret (run spawnTrapExit ((s.core h).machine s.mem))) false) := by
  obtain ⟨hmem, hcsr, hx⟩ := run_spawnTrapExit ((s.core h).machine s.mem)
  have hsame (a : Word) :
      (sret (run spawnTrapExit ((s.core h).machine s.mem))).machine.mem a = s.mem a := by
    rw [TrapVectors.sret_mem, hmem]
    rfl
  refine put_kept_on hg hp (fun _ _ _ a _ => hsame a) (hsame _) (hsame _)
    ((TrapVectors.sret_sscratch _).trans (hcsr _ (by decide))) ?_ (fun _ _ _ => rfl) ?_
  · rw [if_neg Bool.false_ne_true, TrapVectors.sret_supervisor, hcsr _ (by decide)]
    exact hg.kernel h p hp ht
  · rw [context_running (s := s.put h _ false) hg.sched hp put_trapped_self,
      context_trapped hg.sched hp ht, put_core_self]
    refine congrArg₂ Context.mk (hcsr _ (by decide)) (regs_congr fun i hi => ?_)
    rw [← hg.running h p hp]
    exact hx i hi

/-! ## A call of the scheduler -/

section Invoke

variable {ev : Scheduler.Event n} {os : Os n}

theorem savedSepc_other {a : Word}
    (ha : ∀ q, s.os.current h = some q → a ≠ frame q + SEPC) :
    savedSepc frame s h ev a = s.mem a := by
  unfold savedSepc
  cases ev with
  | exit => rfl
  | add | timer | sleep =>
    dsimp only
    cases hc : s.os.current h with
    | none => rfl
    | some q => exact Function.update_of_ne (ha q hc) ..

theorem savedSepc_self (hc : s.os.current h = some q)
    (hev : ∀ kmalloc time k, ev ≠ .exit kmalloc time k) :
    savedSepc frame s h ev (frame q + SEPC) = (s.core h).csr .sepc := by
  unfold savedSepc
  cases ev with
  | exit kmalloc time k => exact absurd rfl (hev kmalloc time k)
  | add | timer | sleep =>
    dsimp only
    rw [hc]
    exact Function.update_self ..

/-- What `_spawn_kthread` gives a process that is spawned, and what has been written. -/
structure Spawned (frame : Proc → Word) (s : System n) (h : Fin n) (ev : Scheduler.Event n)
    (p : Proc) (h' : Hart) : Prop where
  other (a : Word) : (∀ q, s.os.current h = some q → a ≠ frame q + SEPC) →
    a ≠ frame p + TRAP_STACK → h'.machine.mem a = s.mem a
  sepc (q : Proc) : s.os.current h = some q → (∀ kmalloc time k, ev ≠ .exit kmalloc time k) →
    frame q + SEPC ≠ frame p + TRAP_STACK → h'.machine.mem (frame q + SEPC) = (s.core h).csr .sepc
  sscratch : h'.machine.csr .sscratch = frame p
  pc : h'.pc = h'.machine.mem (frame p + SEPC)
  mode : h'.supervisor = (h'.machine.mem (frame p + SSTATUS)).getLsbD 8
  x (i : Reg) : i ≠ 0 → h'.machine.x i = h'.machine.mem (frame p + gpregs i)

theorem spawned (hg : Good frame s) (hp : Live s.os p) :
    Spawned frame s h ev p (spawn frame process_trap_stacks s (savedSepc frame s h ev) h p) := by
  obtain ⟨m, hm⟩ : ∃ m : Machine, m = ((s.core h).machine (savedSepc frame s h ev)).store
      (frame p + TRAP_STACK) (process_trap_stacks h) := ⟨_, rfl⟩
  have hspawn : spawn frame process_trap_stacks s (savedSepc frame s h ev) h p =
      sret (run spawnKthread (m.setCsr .sscratch (m.mem (frame p + SSCRATCH)))) := by
    rw [hm]
    rfl
  have hother (a : Word) (ha : ∀ q, s.os.current h = some q → a ≠ frame q + SEPC)
      (hat : a ≠ frame p + TRAP_STACK) : m.mem a = s.mem a := by
    rw [hm, store_mem_of_ne _ hat]
    exact savedSepc_other ha
  have hsaved (q : Proc) (hq : s.os.current h = some q)
      (hev : ∀ kmalloc time k, ev ≠ .exit kmalloc time k)
      (hne : frame q + SEPC ≠ frame p + TRAP_STACK) :
      m.mem (frame q + SEPC) = (s.core h).csr .sepc := by
    rw [hm, store_mem_of_ne _ hne]
    exact savedSepc_self hq hev
  have hown : m.mem (frame p + SSCRATCH) = frame p := by
    refine (hother _ (fun q hq => ?_) (field_ne (by decide))).trans (hg.own p hp)
    exact word_ne hg hp (live_of_current hg.sched hq) (by decide) (by decide) (Or.inr (by decide))
  rw [hspawn, hown]
  obtain ⟨hmem, hs, hsepc, hstatus, hx⟩ :=
    run_spawnKthread (m := m.setCsr .sscratch (frame p)) (setCsr_csr_self ..) hown
  have hmem' : (sret (run spawnKthread (m.setCsr .sscratch (frame p)))).machine.mem = m.mem := hmem
  constructor
  · intro a ha hat
    rw [hmem']
    exact hother a ha hat
  · intro q hq hev hne
    rw [hmem']
    exact hsaved q hq hev hne
  · exact (TrapVectors.sret_sscratch _).trans hs
  · rw [hmem']
    exact hsepc
  · rw [hmem', TrapVectors.sret_supervisor, hstatus, setCsr_mem]
  · intro i hi
    rw [hmem']
    exact hx i hi

theorem invoke_kept {kmalloc : ProcessList.Kmalloc} {time : Word} (hg : Good frame s)
    (hi : ev.invokes = some (kmalloc, time, h))
    (ht : s.trapped h = true ∨ s.os.current h = none) (hos : Scheduler.Step s.os ev os)
    (hp : os.current h = some p) :
    Kept frame s (.invoke ev)
      { s.put h (spawn frame process_trap_stacks s (savedSepc frame s h ev) h p) false with
        os := os } := by
  obtain ⟨hinv, hcur, hlive, hexit⟩ := invoked hg.sched hos hi
  have hpl : Live os p := live_of_current hinv hp
  have hps : Live s.os p := hlive p hpl
  have hspawned : Spawned frame s h ev p
      (spawn frame process_trap_stacks s (savedSepc frame s h ev) h p) := spawned hg hps
  obtain ⟨hother, hsepc, hscratch, hpc, hmode, hx⟩ := hspawned
  generalize spawn frame process_trap_stacks s (savedSepc frame s h ev) h p = h' at *
  have hon (q : Proc) (hq : os.current h = some q) : q = p := Option.some.inj (hq.symm.trans hp)
  have hnotexit (q : Proc) (hq : s.os.current h = some q) (hql : Live os q)
      (km : ProcessList.Kmalloc) (t : Word) (k : Fin n) : ev ≠ .exit km t k := by
    rintro rfl
    cases hi
    exact hexit _ _ q rfl hq hql
  have hword (q : Proc) (hq : Live s.os q) {a : Word} (ha : a.toNat < 576) (hne : a ≠ SEPC)
      (hnt : a ≠ TRAP_STACK) : h'.machine.mem (frame q + a) = s.mem (frame q + a) :=
    hother _ (fun r hr => word_ne hg hq (live_of_current hg.sched hr) ha (by decide) (Or.inr hne))
      (word_ne hg hq hps ha (by decide) (Or.inr hnt))
  have hregs (q : Proc) (hq : Live s.os q) :
      regs (fun i => h'.machine.mem (frame q + gpregs i)) =
        regs fun i => s.mem (frame q + gpregs i) :=
    regs_congr fun i _ => hword q hq (gpregs_lt i) (sepc_ne_gpregs i).symm (by revert i; decide)
  have hsame (q : Proc) (hq : Live s.os q) :
      (h'.machine.mem (frame q + SSTATUS)).getLsbD 8 = s.mode frame q :=
    congrArg (BitVec.getLsbD · 8) (hword q hq (by decide) (by decide) (by decide))
  -- the word that the process on the hart is to go on from
  have hparked (q : Proc) (hq : s.os.current h = some q) (hql : Live os q) :
      s.context frame q = ⟨h'.machine.mem (frame q + SEPC),
        regs fun i => h'.machine.mem (frame q + gpregs i)⟩ := by
    have htrapped : s.trapped h = true := ht.resolve_right fun hn => by rw [hn] at hq; cases hq
    rw [context_trapped hg.sched hq htrapped, hregs q (hlive q hql)]
    refine congrArg₂ Context.mk (hsepc q hq (hnotexit q hq hql) ?_).symm rfl
    exact word_ne hg (hlive q hql) hps (by decide) (by decide) (Or.inr (by decide))
  have hself : (s.put h h' false).core h = coreOf h' := put_core_self
  have hcore (k : Fin n) (hk : k ≠ h) : (s.put h h' false).core k = s.core k := put_core_of_ne hk
  have hback : (s.put h h' false).trapped h = false := put_trapped_self
  have htrapped (k : Fin n) (hk : k ≠ h) : (s.put h h' false).trapped k = s.trapped k :=
    put_trapped_of_ne hk
  have hstays (q : Proc) (k : Fin n) (hk : k ≠ h) :
      os.current k = some q ↔ s.os.current k = some q := by
    rw [hcur k hk]
  refine ⟨good_of_modeOn hinv (fun q r hq hr => hg.apart q r (hlive q hq) (hlive r hr))
    (fun q hq => ?_) (fun k q hc => ?_) (fun k hk => ?_) (fun k q hc => ?_),
    fun q hq => Or.inl (hlive q hq), fun q hq => ?_, fun q _ hq => hsame q hq⟩
  · exact (hword q (hlive q hq) (by decide) (by decide) (by decide)).trans (hg.own q (hlive q hq))
  · by_cases he : k = h
    · subst he
      rw [hon q hc]
      exact (congrArg (fun c : Core => c.csr .sscratch) hself).trans hscratch
    · exact (congrArg (fun c : Core => c.csr .sscratch) (hcore k he)).trans
        (hg.running k q ((hstays q k he).1 hc))
  · by_cases he : k = h
    · subst he
      exact absurd (hback.symm.trans hk) Bool.false_ne_true
    · intro hn
      exact hg.trapped k ((htrapped k he).symm.trans hk) ((hcur k he).symm.trans hn)
  · change (s.put h h' false).modeOn k = _
    by_cases he : k = h
    · subst he
      rw [hon q hc]
      exact put_modeOn_self.trans hmode
    · have hc' := (hstays q k he).1 hc
      exact ((put_modeOn_of_ne he).trans (hg.modeOn hc')).trans
        (hsame q (live_of_current hg.sched hc')).symm
  · change _ = s.context frame q
    by_cases hqp : q = p
    · subst hqp
      refine (context_running (s := { s.put h h' false with os := os }) hinv hp
        hback).trans ?_
      have hnew : (⟨h'.pc, regs h'.machine.x⟩ : Context) = ⟨h'.machine.mem (frame q + SEPC),
          regs fun i => h'.machine.mem (frame q + gpregs i)⟩ :=
        congrArg₂ Context.mk hpc (regs_congr hx)
      have hhere : (⟨((s.put h h' false).core h).pc, regs ((s.put h h' false).core h).x⟩ :
          Context) = ⟨h'.pc, regs h'.machine.x⟩ := by
        rw [hself]
        rfl
      refine hhere.trans (hnew.trans ?_)
      by_cases hc : s.os.current h = some q
      · exact (hparked q hc hpl).symm
      · have hn (k : Fin n) : s.os.current k ≠ some q := by
          intro hk
          have hne : k ≠ h := fun e => hc (e ▸ hk)
          exact hne (current_unique hinv ((hstays q k hne).2 hk) hp)
        rw [context_parked hg.sched hn, hregs q hps]
        refine congrArg₂ Context.mk (hother _ (fun r hr => ?_) (field_ne (by decide))) rfl
        exact word_ne hg hps (live_of_current hg.sched hr) (by decide) (by decide)
          (Or.inl fun e => hc (e ▸ hr))
    · by_cases hc : s.os.current h = some q
      · have hn (k : Fin n) : os.current k ≠ some q := by
          intro hk
          by_cases he : k = h
          · exact hqp (hon q (he ▸ hk))
          · exact he (current_unique hg.sched ((hstays q k he).1 hk) hc)
        exact (context_parked (s := { s.put h h' false with os := os }) hinv hn).trans
          (hparked q hc hq).symm
      · refine context_congr hg.sched hinv (fun k => ?_) (fun k hk => ?_) (fun a ha => ?_)
        · by_cases he : k = h
          · rw [he]
            exact ⟨fun hk => absurd (hon q hk) hqp, fun hk => absurd hk hc⟩
          · exact hstays q k he
        · have hne : k ≠ h := fun e => hc (e ▸ hk)
          exact ⟨hcore k hne, htrapped k hne⟩
        · refine hother a (fun r hr e => ?_) fun e => ?_
          · have hqr : q ≠ r := fun e => hc (e ▸ hr)
            exact hg.apart q r (hlive q hq) (live_of_current hg.sched hr) hqr a ha
              (e ▸ inFrame_add (by decide))
          · exact hg.apart q p (hlive q hq) hps hqp a ha (e ▸ inFrame_add (by decide))

theorem add_kept {kmalloc : ProcessList.Kmalloc} {mem : Word → Word} (hg : Good frame s)
    (hos : Scheduler.Step s.os (.add kmalloc p) os)
    (hnew : ∀ q, Live s.os q → ∀ a, InFrame (frame q) a → ¬ InFrame (frame p) a)
    (hown : mem (frame p + SSCRATCH) = frame p) (hmem : KeepsFrames frame s mem) :
    Kept frame s (.add p ⟨mem (frame p + SEPC), regs fun i => mem (frame p + gpregs i)⟩)
      { s with os := os, mem := mem } := by
  obtain ⟨hinv, hcur, hlive, hfresh⟩ := added hg.sched hos
  have hmode (q : Proc) (hq : Live s.os q) :
      (mem (frame q + SSTATUS)).getLsbD 8 = s.mode frame q :=
    congrArg (BitVec.getLsbD · 8) (hmem q hq _ (inFrame_add (by decide)))
  have hon (k : Fin n) (q : Proc) (hc : os.current k = some q) : s.os.current k = some q := by
    rwa [← congrFun hcur k]
  refine ⟨good_of_modeOn hinv (fun q r hq hr hne a ha => ?_) (fun q hq => ?_) (fun k q hc => ?_)
    (fun k hk => ?_) (fun k q hc => ?_), fun q hq => ?_, fun q hq => ?_,
    fun q _ hq => hmode q hq⟩
  · rcases (hlive q).1 hq with rfl | hq
    · rcases (hlive r).1 hr with rfl | hr
      · exact absurd rfl hne
      · exact fun har => hnew r hr a har ha
    · rcases (hlive r).1 hr with rfl | hr
      · exact hnew q hq a ha
      · exact hg.apart q r hq hr hne a ha
  · rcases (hlive q).1 hq with rfl | hq
    · exact hown
    · exact (hmem q hq _ (inFrame_add (by decide))).trans (hg.own q hq)
  · exact hg.running k q (hon k q hc)
  · intro hn
    exact hg.trapped k hk ((congrFun hcur k).symm.trans hn)
  · exact (hg.modeOn (hon k q hc)).trans (hmode q (live_of_current hg.sched (hon k q hc))).symm
  · exact ((hlive q).1 hq).symm.imp_right fun e => ⟨_, by rw [e]⟩
  · rcases (hlive q).1 hq with rfl | hq
    · have hn (k : Fin n) : os.current k ≠ some q := fun hc =>
        hfresh (live_of_current hg.sched (hon k q hc))
      rw [context_parked hinv hn]
      exact (if_pos rfl).symm
    · have hne : p ≠ q := fun e => hfresh (e ▸ hq)
      rw [advance, if_neg hne]
      exact context_congr hg.sched hinv (fun k => by rw [congrFun hcur k])
        (fun _ _ => ⟨rfl, rfl⟩) (hmem q hq)

end Invoke

end Step

/-! ## Runs -/

section Run

variable {frame : Proc → Word} {process_trap_stacks : Fin n → Word} {s u : System n}
  {e : Event n} {es : List (Event n)} {p : Proc}

theorem step_kept (hg : Good frame s) (h : Step frame process_trap_stacks s e u) :
    Kept frame s e u := by
  cases h with
  | exec _ p h' hp ht hcsr hmode hmem => exact exec_kept hg hp ht hcsr hmode hmem
  | trap _ p pc hp ht => exact trap_kept hg pc hp ht
  | kernel _ h' ht hcsr hmem => exact kernel_kept hg ht hcsr hmem
  | syscall _ p result hp ht => exact syscall_kept hg result hp ht
  | leave _ p hp ht => exact leave_kept hg hp ht
  | invoke _ e os p hi ht hos hp => exact invoke_kept hg hi ht hos hp
  | add p os mem kmalloc hos hnew hown hmem => exact add_kept hg hos hnew hown hmem

/-- The context that a new process is loaded with is all there is of it. -/
theorem foldl_of_new (hg : Good frame s) (ht : Trace (Step frame process_trap_stacks) s es u)
    (hs : ¬ Live s.os p) (hu : Live u.os p) (c c' : Context) :
    es.foldl (advance p) c = es.foldl (advance p) c' := by
  induction ht generalizing c c' with
  | nil => exact absurd hu hs
  | @cons s t u e es hstep _ ih =>
    have hk := step_kept hg hstep
    by_cases hl : Live t.os p
    · obtain ⟨c₀, rfl⟩ := (hk.live p hl).resolve_left hs
      rw [List.foldl_cons, List.foldl_cons, advance, advance, if_pos rfl, if_pos rfl]
    · exact ih hk.good hl hu _ _

/-- Processes stay created, and harts keep their idle processes. -/
theorem step_grows (h : Step frame process_trap_stacks s e u) :
    (p ∈ s.os.created → p ∈ u.os.created) ∧ u.os.idle = s.os.idle := by
  have hgrows {ev : Scheduler.Event n} {os : Os n} (hos : Scheduler.Step s.os ev os) :
      (p ∈ s.os.created → p ∈ os.created) ∧ os.idle = s.os.idle := by
    have hg := Scheduler.next_grows hos.2
    refine ⟨fun hp => ?_, hg.idle⟩
    rw [hg.created]
    exact List.mem_append_right _ hp
  cases h with
  | exec | trap | kernel | syscall | leave => exact ⟨id, rfl⟩
  | invoke _ _ _ _ _ _ hos | add _ _ _ _ hos => exact hgrows hos

/-- A process that is gone does not come back. -/
theorem not_live_again (hg : Good frame s) (ht : Trace (Step frame process_trap_stacks) s es u)
    (hc : p ∈ s.os.created) (hs : ¬ Live s.os p) : ¬ Live u.os p := by
  induction ht with
  | nil => exact hs
  | @cons s t u e es hstep _ ih =>
    have hk := step_kept hg hstep
    refine ih hk.good ((step_grows hstep).1 hc) fun hl => ?_
    obtain ⟨c, rfl⟩ := (hk.live p hl).resolve_left hs
    cases hstep with
    | add _ _ _ _ hos => exact hos.1.1 hc

theorem mode_kept (hg : Good frame s) (ht : Trace (Step frame process_trap_stacks) s es u)
    (hs : Live s.os p) (hu : Live u.os p) : u.mode frame p = s.mode frame p := by
  induction ht with
  | nil => rfl
  | @cons s t u e es hstep htrace ih =>
    have hk := step_kept hg hstep
    obtain ⟨hcreated, hidle⟩ := step_grows (p := p) hstep
    have hl : Live t.os p := by
      by_contra hn
      rcases hs with ⟨h, hi⟩ | ⟨hc, -⟩
      · exact hn (Or.inl ⟨h, hi.trans (congrFun hidle h).symm⟩)
      · exact not_live_again hk.good htrace (hcreated hc) hn hu
    exact (ih hk.good hl hu).trans (hk.mode p hl hs)

/-- Whatever the harts do, in any order: what a process sees of itself in the end is what its own
code, traps and system calls have made of it, and it runs in the mode it was made with. -/
theorem contexts_kept (hg : Good frame s) (ht : Trace (Step frame process_trap_stacks) s es u) :
    (∀ p, Live u.os p → u.context frame p = es.foldl (advance p) (s.context frame p)) ∧
      ∀ h p, u.os.current h = some p → u.trapped h = false → Live s.os p →
        (u.core h).supervisor = s.mode frame p := by
  have hrun : Good frame u ∧
      ∀ p, Live u.os p → u.context frame p = es.foldl (advance p) (s.context frame p) := by
    induction ht with
    | nil => exact ⟨hg, fun _ _ => rfl⟩
    | @cons s t u e es hstep htrace ih =>
      have hk := step_kept hg hstep
      obtain ⟨hgood, hcontext⟩ := ih hk.good
      refine ⟨hgood, fun p hp => ?_⟩
      rw [hcontext p hp, List.foldl_cons]
      by_cases hl : Live t.os p
      · rw [hk.context p hl]
      · exact foldl_of_new hk.good htrace hl hp _ _
  refine ⟨hrun.2, fun h p hc hb hs => ?_⟩
  exact (hrun.1.user h p hc hb).trans
    (mode_kept hg ht hs (live_of_current hrun.1.sched hc))

end Run

/-! ## The harts after `sched_init` -/

section Initial

/-- Every hart but the first has been started in its idle process, the first one runs `main`. -/
def afterInit (frame : Proc → Word) (idle : Fin n → Proc) (mem : Word → Word)
    (reset : Fin n → Core) : System n where
  os := Scheduler.initial idle
  mem := mem
  core h :=
    if h.val = 0 then reset h
    else coreOf (sret (run spawnKthread
      (((reset h).machine mem).setCsr .sscratch (frame (idle h)))))
  trapped _ := false

variable {frame : Proc → Word} {idle : Fin n → Proc} {mem : Word → Word} {reset : Fin n → Core}

theorem afterInit_good (hidle : Function.Injective idle)
    (hapart : ∀ h k, h ≠ k → ∀ a, InFrame (frame (idle h)) a → ¬ InFrame (frame (idle k)) a)
    (hown : ∀ h, mem (frame (idle h) + SSCRATCH) = frame (idle h)) :
    Good frame (afterInit frame idle mem reset) := by
  have hlive (p : Proc) (hp : Live (Scheduler.initial idle) p) : ∃ h, p = idle h :=
    hp.resolve_right fun hc => List.not_mem_nil hc.1
  have hcur (h : Fin n) (p : Proc) (hc : (Scheduler.initial idle).current h = some p) :
      h.val ≠ 0 ∧ p = idle h := by
    change (if h.val = 0 then none else some (idle h)) = some p at hc
    by_cases h0 : h.val = 0
    · rw [if_pos h0] at hc
      cases hc
    · rw [if_neg h0] at hc
      exact ⟨h0, (Option.some.inj hc).symm⟩
  have hcore (h : Fin n) (h0 : h.val ≠ 0) : (afterInit frame idle mem reset).core h =
      coreOf (sret (run spawnKthread
        (((reset h).machine mem).setCsr .sscratch (frame (idle h))))) := if_neg h0
  have hrun (h : Fin n) := run_spawnKthread
    (m := ((reset h).machine mem).setCsr .sscratch (frame (idle h))) (setCsr_csr_self ..) (hown h)
  refine ⟨Scheduler.initial_invariant hidle, fun p q hp hq hne => ?_, fun p hp => ?_,
    fun h p hc => ?_, fun h ht => ?_, fun h p hc _ => ?_, fun h p _ ht => ?_⟩
  · obtain ⟨h, rfl⟩ := hlive p hp
    obtain ⟨k, rfl⟩ := hlive q hq
    exact hapart h k fun e => hne (congrArg idle e)
  · obtain ⟨h, rfl⟩ := hlive p hp
    exact hown h
  · obtain ⟨h0, rfl⟩ := hcur h p hc
    rw [hcore h h0]
    exact (TrapVectors.sret_sscratch _).trans (hrun h).2.1
  · cases ht
  · obtain ⟨h0, rfl⟩ := hcur h p hc
    rw [hcore h h0]
    exact congrArg (BitVec.getLsbD · 8) (hrun h).2.2.2.1
  · cases ht

end Initial

/-- Frames on pages of their own. -/
def frameOn (p : Proc) : Word := BitVec.ofNat 64 (0x1000 * p)

/-- The frames of the processes 7 and 100. -/
def loadedMem (a : Word) : Word :=
  if a = frameOn 7 + SSCRATCH then frameOn 7
  else if a = frameOn 7 + SEPC then 0x10000
  else if a = frameOn 100 + SSCRATCH then frameOn 100
  else 0

def resetCore (_ : Fin 1) : Core := ⟨fun _ => 0, fun _ => 0, fun _ => 0, 0, true⟩

/-- One hart: a process is made, it is spawned, and a timer interrupt stops it. -/
theorem contexts_kept_one_hart :
    ∃ u, Trace (Step frameOn fun _ => 0x9000)
        (afterInit frameOn (fun _ : Fin 1 => 100) loadedMem resetCore)
        [.add 7 ⟨0x10000, regs fun i => loadedMem (frameOn 7 + gpregs i)⟩,
          .invoke (.timer Scheduler.kmallocNext 5 0), .trap 7] u ∧
      (u.context frameOn 7).pc = 0x10000 ∧ (u.context frameOn 7).x t0 = 3 := by
  have hgood : Good frameOn (afterInit frameOn (fun _ : Fin 1 => 100) loadedMem resetCore) :=
    afterInit_good (fun h k _ => Subsingleton.elim h k)
      (fun h k hne => absurd (Subsingleton.elim h k) hne) fun _ => by decide
  have hapart (q : Proc) (hq : Live (Scheduler.initial fun _ : Fin 1 => 100) q) (a : Word) :
      InFrame (frameOn q) a → ¬ InFrame (frameOn 7) a := by
    obtain ⟨_, hidle⟩ := hq.resolve_right fun hc => List.not_mem_nil hc.1
    obtain rfl : q = 100 := hidle
    simp only [InFrame, frameOn]
    bv_omega
  obtain ⟨os, hos, hidle⟩ : ∃ os, Scheduler.next (Scheduler.initial fun _ : Fin 1 => 100)
      (.add Scheduler.kmallocNext 7) = some os ∧ os.current 0 = none := ⟨_, rfl, rfl⟩
  obtain ⟨os', hos', hc, hf, hcur⟩ : ∃ os', Scheduler.next os (.timer Scheduler.kmallocNext 5 0) =
      some os' ∧ os'.created = [7] ∧ os'.freed = [] ∧ os'.current 0 = some 7 := by
    cases hos
    exact ⟨_, rfl, rfl, rfl, rfl⟩
  obtain ⟨u, hrun, hu⟩ : ∃ u, Trace (Step frameOn fun _ => 0x9000)
      (afterInit frameOn (fun _ : Fin 1 => 100) loadedMem resetCore)
      [.add 7 ⟨0x10000, regs fun i => loadedMem (frameOn 7 + gpregs i)⟩,
        .invoke (.timer Scheduler.kmallocNext 5 0), .trap 7] u ∧ u.os = os' :=
    ⟨_, .cons (.add 7 os loadedMem Scheduler.kmallocNext ⟨by decide, hos⟩ hapart (by decide)
        fun _ _ _ _ => rfl)
      (.cons (.invoke 0 _ os' 7 rfl (Or.inr hidle) ⟨trivial, hos'⟩ hcur)
        (.cons (.trap 0 7 0 hcur rfl) (.nil _))), rfl⟩
  have hlive : Live u.os 7 := by
    rw [hu]
    exact Or.inr ⟨by rw [hc]; exact List.mem_singleton_self 7, by rw [hf]; exact List.not_mem_nil⟩
  refine ⟨u, hrun, ?_⟩
  rw [(contexts_kept hgood hrun).1 7 hlive]
  exact ⟨rfl, by decide⟩

end ContextSwitch
