import DucreuOS.Scheduler

/-! # Process ids

`elfread` makes a process, loads it and gives it a pid; the pid goes into the process's `satp` as
its ASID. The scheduler's runs are those of `Scheduler`; only the pids are added here. -/
namespace ProcessIds

open ProcessList Scheduler Transition

def MAX_SUPPORTED_HARTS : ℕ := 8
def KERNEL_ASID : BitVec 16 := 0xffff
def PROCESS_UNDEFINED_PID : BitVec 16 := 0xfffe - BitVec.ofNat 16 MAX_SUPPORTED_HARTS
def SATP_MODE_ON : Word := 8 <<< 60
def ASID_TO_SATP (x : BitVec 16) : Word := (x.setWidth 64 &&& 0xFFFF) <<< 44
def PPN_TO_SATP (x : Word) : Word := (x >>> 12) &&& 0xFFFFFFFFFFF

abbrev Hart := Fin MAX_SUPPORTED_HARTS

/-- The ASID field of a `satp`. -/
def asid (satp : Word) : BitVec 16 := (satp >>> 44).setWidth 16

def satpOf (pid : BitVec 16) (ptable : Word) : Word :=
  SATP_MODE_ON ||| ASID_TO_SATP pid ||| PPN_TO_SATP ptable

theorem asid_satpOf (pid : BitVec 16) (ptable : Word) : asid (satpOf pid ptable) = pid := by
  have hppn : ∀ i < 16, (0xFFFFFFFFFFF : Word).getLsbD (44 + i) = false := by decide
  have hmode : ∀ i < 16, SATP_MODE_ON.getLsbD (44 + i) = false := by decide
  have hmask : ∀ i < 16, (0xFFFF : Word).getLsbD i = true := by decide
  apply BitVec.eq_of_getLsbD_eq
  intro i hi
  have h64 : 44 + i < 64 := by omega
  have hi64 : i < 64 := by omega
  have h44 : 44 + i - 44 = i := by omega
  unfold asid satpOf ASID_TO_SATP PPN_TO_SATP
  rw [BitVec.getLsbD_setWidth, BitVec.getLsbD_ushiftRight, BitVec.getLsbD_or, BitVec.getLsbD_or,
    BitVec.getLsbD_and, BitVec.getLsbD_shiftLeft, hppn i hi, hmode i hi, h44,
    BitVec.getLsbD_and, BitVec.getLsbD_setWidth, hmask i hi]
  simp [hi, h64, hi64]

def idlePid (hart : Hart) : BitVec 16 := 0xfffe - BitVec.ofNat 16 hart

/-- `sched_pid` is the static counter of `sched_assign_pid`, and `pid`, `ptable` and `satp` are
fields of `process_t` (the last one in its frame). -/
structure State extends Os MAX_SUPPORTED_HARTS where
  schedPid : BitVec 32
  pid : Proc → BitVec 16
  ptable : Proc → Word
  satp : Proc → Word

namespace State

def setPid (s : State) (p : Proc) (pid : BitVec 16) : State :=
  { s with
    pid := Function.update s.pid p pid
    satp := Function.update s.satp p (satpOf pid (s.ptable p)) }

/-- What `process_init_new` does to the process's page table, pid and `satp`. -/
def processInitNew (s : State) (p : Proc) (ptable : Word) : State :=
  { s with ptable := Function.update s.ptable p ptable }.setPid p PROCESS_UNDEFINED_PID

def schedAssignPid (s : State) (p : Proc) : State :=
  { s.setPid p (s.schedPid.setWidth 16) with schedPid := s.schedPid + 1 }

def schedAssignIdlePid (s : State) (hart : Hart) (p : Proc) : State := s.setPid p (idlePid hart)

def withOs (s : State) (os : Os MAX_SUPPORTED_HARTS) : State := { s with toOs := os }

end State

inductive Event
  /-- `elfread`, with what `process_init_new` allocated and whether `elf_load` returned 0 -/
  | elfread (kmalloc : Kmalloc) (p : Proc) (ptable : Word) (loaded : Bool)
  /-- a timer interrupt, SYSCALL_SLEEP or SYSCALL_EXIT -/
  | sched (e : Scheduler.Event MAX_SUPPORTED_HARTS)

def Enabled (s : State) : Event → Prop
  | .elfread kmalloc p _ _ => Scheduler.Enabled s.toOs (.add kmalloc p)
  | .sched e => Scheduler.Enabled s.toOs e ∧ e.creates = []

def next (s : State) : Event → Option State
  | .elfread kmalloc p ptable loaded =>
    let s := s.processInitNew p ptable
    if loaded then
      let s := s.schedAssignPid p
      (Scheduler.next s.toOs (.add kmalloc p)).map s.withOs
    else some s
  | .sched e => (Scheduler.next s.toOs e).map s.withOs

def Step (s : State) (e : Event) (t : State) : Prop := Enabled s e ∧ next s e = some t

/-- After `sched_init`, with the page tables of the idle processes. -/
def initial (idle : Hart → Proc) (ptable : Proc → Word) : State :=
  (List.finRange MAX_SUPPORTED_HARTS).foldl
    (fun s hart => (s.processInitNew (idle hart) (ptable (idle hart))).schedAssignIdlePid
      hart (idle hart))
    { toOs := Scheduler.initial idle
      schedPid := 2
      pid := fun _ => 0
      ptable := fun _ => 0
      satp := fun _ => 0 }

def Live (s : State) (p : Proc) : Prop := p ∈ s.created ∧ p ∉ s.freed

structure DistinctPids (s : State) : Prop where
  distinct (p q : Proc) : Live s p → Live s q → s.pid p = s.pid q → p = q
  not_idle (p : Proc) (h : Hart) : Live s p → s.pid p ≠ idlePid h
  not_kernel (p : Proc) : Live s p → s.pid p ≠ KERNEL_ASID
  asid (p : Proc) : Live s p → asid (s.satp p) = s.pid p

/-- When the next pid is a good one: the number of processes so far does not take the counter to
an idle pid or the kernel's ASID, and no live process is a multiple of 65536 processes back. The
newest process stands first in `created`. -/
def Meets (s : State) : Event → Prop
  | .elfread _ _ _ true => (s.created.length + 2) % 65536 < 0xfff7 ∧
      ∀ q ∈ s.created, q ∉ s.freed → (s.created.idxOf q + 1) % 65536 ≠ 0
  | _ => True

def MeetsStep (s : State) (e : Event) (t : State) : Prop := Step s e t ∧ Meets s e

/-! ## The pids in terms of the history -/

/-- The pid of a process says how many were made before it. -/
structure Numbered (s : State) : Prop where
  sched : Scheduler.Invariant s.toOs
  counter : s.schedPid = BitVec.ofNat 32 (s.created.length + 2)
  pid (p : Proc) : p ∈ s.created →
    s.pid p = BitVec.ofNat 16 (s.created.length - s.created.idxOf p + 1)
  asid (p : Proc) : p ∈ s.created → ProcessIds.asid (s.satp p) = s.pid p
  idle (h : Hart) : s.pid (s.idle h) = idlePid h

theorem ofNat_eq_iff (a b : ℕ) : BitVec.ofNat 16 a = BitVec.ofNat 16 b ↔ a % 65536 = b % 65536 := by
  rw [← BitVec.toNat_inj, BitVec.toNat_ofNat, BitVec.toNat_ofNat]

theorem ofNat_eq_idlePid_or_kernel (a : ℕ) :
    ((∃ h, BitVec.ofNat 16 a = idlePid h) ∨ BitVec.ofNat 16 a = KERNEL_ASID) ↔
      0xfff7 ≤ a % 65536 := by
  have hidle (h : Hart) : idlePid h = BitVec.ofNat 16 (0xfffe - h) := by
    revert h
    decide
  have hkernel : KERNEL_ASID = BitVec.ofNat 16 0xffff := rfl
  simp only [hidle, hkernel, ofNat_eq_iff]
  have hlt := Nat.mod_lt a (show 0 < 65536 by omega)
  constructor
  · rintro (⟨h, hh⟩ | hk)
    · have := h.isLt
      simp only [MAX_SUPPORTED_HARTS] at this
      omega
    · omega
  · intro hge
    by_cases hk : a % 65536 = 65535
    · exact Or.inr hk
    · refine Or.inl ⟨⟨0xfffe - a % 65536, ?_⟩, ?_⟩
      · simp only [MAX_SUPPORTED_HARTS]
        omega
      · simp only
        omega

theorem initial_toOs (idle : Hart → Proc) (ptable : Proc → Word) :
    (initial idle ptable).toOs = Scheduler.initial idle ∧ (initial idle ptable).schedPid = 2 := by
  unfold initial
  apply List.foldlRecOn (motive := fun s : State => s.toOs = Scheduler.initial idle ∧ s.schedPid = 2)
  · exact ⟨rfl, rfl⟩
  · exact fun s hs _ _ => hs

theorem initial_idle_pid {idle : Hart → Proc} (hidle : Function.Injective idle)
    (ptable : Proc → Word) (h : Hart) : (initial idle ptable).pid (idle h) = idlePid h := by
  have hassign (s : State) (k : Hart) (hk : k = h ∨ s.pid (idle h) = idlePid h) :
      ((s.processInitNew (idle k) (ptable (idle k))).schedAssignIdlePid k (idle k)).pid (idle h)
        = idlePid h := by
    simp only [State.schedAssignIdlePid, State.processInitNew, State.setPid,
      Function.update_apply]
    by_cases hkh : k = h
    · rw [hkh, if_pos rfl]
    · have hne : idle h ≠ idle k := fun e => hkh (hidle e).symm
      rw [if_neg hne, if_neg hne]
      exact hk.resolve_left hkh
  have hfold (harts : List Hart) : ∀ s : State, h ∈ harts ∨ s.pid (idle h) = idlePid h →
      (harts.foldl (fun s hart => (s.processInitNew (idle hart) (ptable (idle hart))).schedAssignIdlePid
        hart (idle hart)) s).pid (idle h) = idlePid h := by
    induction harts with
    | nil => exact fun s hs => hs.resolve_left List.not_mem_nil
    | cons k harts ih =>
      intro s hs
      apply ih
      rcases hs with hm | hp
      · rcases List.mem_cons.1 hm with rfl | hm
        · exact Or.inr (hassign s h (Or.inl rfl))
        · exact Or.inl hm
      · exact Or.inr (hassign s k (Or.inr hp))
  exact hfold _ _ (Or.inl (List.mem_finRange h))

theorem initial_numbered {idle : Hart → Proc} (hidle : Function.Injective idle)
    (ptable : Proc → Word) : Numbered (initial idle ptable) := by
  obtain ⟨hos, hcounter⟩ := initial_toOs idle ptable
  have hcreated : (initial idle ptable).created = [] := by rw [hos]; rfl
  constructor
  · rw [hos]
    exact initial_invariant hidle
  · rw [hcounter, hcreated]
    rfl
  · intro p hp
    rw [hcreated] at hp
    cases hp
  · intro p hp
    rw [hcreated] at hp
    cases hp
  · intro h
    rw [hos]
    exact initial_idle_pid hidle ptable h

theorem next_elfread {s : State} {os : Os MAX_SUPPORTED_HARTS} {kmalloc : Kmalloc} {p : Proc}
    {ptable : Word} (hos : Scheduler.next s.toOs (.add kmalloc p) = some os) :
    next s (.elfread kmalloc p ptable true)
      = some (((s.processInitNew p ptable).schedAssignPid p).withOs os) := by
  change (Scheduler.next s.toOs (.add kmalloc p)).map _ = _
  rw [hos]
  rfl

theorem next_sched {s : State} {os : Os MAX_SUPPORTED_HARTS}
    {e : Scheduler.Event MAX_SUPPORTED_HARTS} (hos : Scheduler.next s.toOs e = some os) :
    next s (.sched e) = some (s.withOs os) := by
  change (Scheduler.next s.toOs e).map _ = _
  rw [hos]
  rfl

/-- What the step of a process that was loaded does. -/
structure Spawned (s : State) (p : Proc) (t : State) : Prop where
  fresh : p ∉ s.created ∧ p ∉ s.freed ∧ ∀ h, p ≠ s.idle h
  created : t.created = p :: s.created
  freed : t.freed = s.freed
  idle : t.idle = s.idle
  schedPid : t.schedPid = s.schedPid + 1
  pid (q : Proc) : t.pid q = if q = p then s.schedPid.setWidth 16 else s.pid q
  satp (q : Proc) : q ≠ p → t.satp q = s.satp q
  asid : asid (t.satp p) = t.pid p

/-- Every other step creates nothing and leaves the pids of the created processes alone. -/
structure Quiet (s t : State) : Prop where
  created : t.created = s.created
  freed (q : Proc) : q ∈ s.freed → q ∈ t.freed
  idle : t.idle = s.idle
  schedPid : t.schedPid = s.schedPid
  pid (q : Proc) : q ∈ s.created ∨ (∃ h, q = s.idle h) → t.pid q = s.pid q
  satp (q : Proc) : q ∈ s.created → t.satp q = s.satp q

theorem step_cases {s t : State} {e : Event} (hs : Scheduler.Invariant s.toOs) (h : Step s e t) :
    Scheduler.Invariant t.toOs ∧
    ((∃ kmalloc p ptable, e = .elfread kmalloc p ptable true ∧ Spawned s p t) ∨
      ((∀ kmalloc p ptable, e ≠ .elfread kmalloc p ptable true) ∧ Quiet s t)) := by
  obtain ⟨he, ht⟩ := h
  cases e with
  | elfread kmalloc p ptable loaded =>
    have hne (h : Hart) : s.idle h ≠ p := (he.2 h).symm
    cases loaded with
    | false =>
      obtain rfl := Option.some.inj ht
      refine ⟨hs, Or.inr ⟨by simp, rfl, fun _ => id, rfl, rfl, fun q hq => ?_, fun q hq => ?_⟩⟩
      · have hqp : q ≠ p := by
          rcases hq with hq | ⟨h, rfl⟩
          · exact fun e => he.1 (e ▸ hq)
          · exact hne h
        exact Function.update_of_ne hqp _ _
      · exact Function.update_of_ne (fun heq : q = p => he.1 (heq ▸ hq)) _ _
    | true =>
      obtain ⟨os, hos, hinv⟩ : ∃ os, Scheduler.next s.toOs (.add kmalloc p) = some os ∧
          Scheduler.Invariant os := Scheduler.next_spec hs he
      have htos : t = ((s.processInitNew p ptable).schedAssignPid p).withOs os :=
        Option.some.inj (ht.symm.trans (next_elfread hos))
      obtain ⟨hc, hi, -⟩ := next_grows hos
      subst htos
      refine ⟨hinv, Or.inl ⟨kmalloc, p, ptable, rfl, ⟨he.1, hs.not_freed he.1, he.2⟩, hc,
        next_add_freed hos, hi, rfl, fun q => ?_, fun q hq => ?_, ?_⟩⟩
      · simp only [State.withOs, State.schedAssignPid, State.processInitNew, State.setPid,
          Function.update_apply]
        split <;> rfl
      · simp only [State.withOs, State.schedAssignPid, State.processInitNew, State.setPid,
          Function.update_apply, if_neg hq]
      · simp only [State.withOs, State.schedAssignPid, State.processInitNew, State.setPid,
          Function.update_self]
        exact asid_satpOf _ _
  | sched e =>
    obtain ⟨os, hos, hinv⟩ := Scheduler.next_spec hs he.1
    have htos : t = s.withOs os := Option.some.inj (ht.symm.trans (next_sched hos))
    obtain ⟨hc, hi, hf⟩ := next_grows hos
    rw [he.2] at hc
    subst htos
    exact ⟨hinv, Or.inr ⟨by simp, hc, hf, hi, rfl, fun _ _ => rfl, fun _ _ => rfl⟩⟩

theorem step_numbered {s t : State} {e : Event} (hs : Numbered s) (h : Step s e t) :
    Numbered t := by
  obtain ⟨hinv, ⟨kmalloc, p, ptable, -, hsp⟩ | ⟨-, hq⟩⟩ := step_cases hs.sched h
  · obtain ⟨hpc, -, hpi⟩ := hsp.fresh
    refine ⟨hinv, ?_, fun q hq => ?_, fun q hq => ?_, fun k => ?_⟩
    · rw [hsp.schedPid, hs.counter, hsp.created, List.length_cons]
      exact (BitVec.ofNat_add (s.created.length + 2) 1).symm
    · rw [hsp.pid, hsp.created, List.length_cons]
      by_cases hqp : q = p
      · rw [if_pos hqp, hqp, List.idxOf_cons_self, hs.counter]
        apply BitVec.eq_of_toNat_eq
        simp only [BitVec.toNat_setWidth, BitVec.toNat_ofNat]
        omega
      · have hqc : q ∈ s.created := (List.mem_cons.1 (hsp.created ▸ hq)).resolve_left hqp
        rw [if_neg hqp, hs.pid q hqc, List.idxOf_cons_ne _ (Ne.symm hqp)]
        congr 1
        omega
    · by_cases hqp : q = p
      · rw [hqp]
        exact hsp.asid
      · have hqc : q ∈ s.created := (List.mem_cons.1 (hsp.created ▸ hq)).resolve_left hqp
        rw [hsp.satp q hqp, hsp.pid, if_neg hqp]
        exact hs.asid q hqc
    · rw [hsp.idle, hsp.pid, if_neg (hpi k).symm]
      exact hs.idle k
  · refine ⟨hinv, ?_, fun p hp => ?_, fun p hp => ?_, fun k => ?_⟩
    · rw [hq.schedPid, hq.created]
      exact hs.counter
    · rw [hq.created] at hp ⊢
      rw [hq.pid p (Or.inl hp)]
      exact hs.pid p hp
    · rw [hq.created] at hp
      rw [hq.satp p hp, hq.pid p (Or.inl hp)]
      exact hs.asid p hp
    · rw [hq.idle, hq.pid _ (Or.inr ⟨k, rfl⟩)]
      exact hs.idle k

/-- From a numbered state the condition is the exact one. -/
theorem Numbered.distinct_iff {s t : State} {e : Event} (hs : Numbered s) (hd : DistinctPids s)
    (h : Step s e t) : DistinctPids t ↔ Meets s e := by
  have ht := step_numbered hs h
  obtain ⟨-, ⟨kmalloc, p, ptable, rfl, hsp⟩ | ⟨hne, hq⟩⟩ := step_cases hs.sched h
  · obtain ⟨hpc, hpf, -⟩ := hsp.fresh
    have hpid : t.pid p = BitVec.ofNat 16 (s.created.length + 2) := by
      rw [hsp.pid, if_pos rfl, hs.counter]
      apply BitVec.eq_of_toNat_eq
      simp only [BitVec.toNat_setWidth, BitVec.toNat_ofNat]
      omega
    have hold (q : Proc) (hq : q ∈ s.created) : t.pid q = s.pid q := by
      rw [hsp.pid, if_neg fun heq : q = p => hpc (heq ▸ hq)]
    have hlive (q : Proc) : Live t q ↔ q = p ∨ Live s q := by
      unfold Live
      rw [hsp.created, hsp.freed, List.mem_cons]
      constructor
      · rintro ⟨rfl | hq, hf⟩
        · exact Or.inl rfl
        · exact Or.inr ⟨hq, hf⟩
      · rintro (rfl | ⟨hq, hf⟩)
        · exact ⟨Or.inl rfl, hpf⟩
        · exact ⟨Or.inr hq, hf⟩
    -- the new pid is an old one exactly a multiple of 65536 processes later
    have hclash (q : Proc) (hq : q ∈ s.created) :
        t.pid p = t.pid q ↔ (s.created.idxOf q + 1) % 65536 = 0 := by
      have hidx := List.idxOf_lt_length_of_mem hq
      rw [hpid, hold q hq, hs.pid q hq, ofNat_eq_iff]
      omega
    have hbad := ofNat_eq_idlePid_or_kernel (s.created.length + 2)
    constructor
    · intro hdt
      have hlp : Live t p := (hlive p).2 (Or.inl rfl)
      constructor
      · by_contra hge
        rcases hbad.2 (not_lt.1 hge) with ⟨k, hk⟩ | hk
        · exact hdt.not_idle p k hlp (hpid.trans hk)
        · exact hdt.not_kernel p hlp (hpid.trans hk)
      · intro q hq hf hz
        have hqp : p = q := hdt.distinct p q hlp ((hlive q).2 (Or.inr ⟨hq, hf⟩)) ((hclash q hq).2 hz)
        exact hpc (hqp ▸ hq)
    · rintro ⟨hlt, hfar⟩
      have hapart (q : Proc) (hq : Live s q) : t.pid p ≠ t.pid q :=
        fun heq => hfar q hq.1 hq.2 ((hclash q hq.1).1 heq)
      have hgood : ¬((∃ k, t.pid p = idlePid k) ∨ t.pid p = KERNEL_ASID) := by
        rw [hpid, hbad]
        exact not_le.2 hlt
      constructor
      · intro q r hq hr heq
        rcases (hlive q).1 hq with rfl | hq
        · rcases (hlive r).1 hr with rfl | hr
          · rfl
          · exact absurd heq (hapart r hr)
        · rcases (hlive r).1 hr with rfl | hr
          · exact absurd heq.symm (hapart q hq)
          · rw [hold q hq.1, hold r hr.1] at heq
            exact hd.distinct q r hq hr heq
      · intro q k hq
        rcases (hlive q).1 hq with rfl | hq
        · exact fun hk => hgood (Or.inl ⟨k, hk⟩)
        · rw [hold q hq.1]
          exact hd.not_idle q k hq
      · intro q hq
        rcases (hlive q).1 hq with rfl | hq
        · exact fun hk => hgood (Or.inr hk)
        · rw [hold q hq.1]
          exact hd.not_kernel q hq
      · exact fun q hq => ht.asid q hq.1
  · have hmeets : Meets s e := by
      match e with
      | .elfread _ _ _ true => exact absurd rfl (hne _ _ _)
      | .elfread _ _ _ false => trivial
      | .sched _ => trivial
    have hlive (q : Proc) (hl : Live t q) : Live s q :=
      ⟨hq.created ▸ hl.1, fun hf => hl.2 (hq.freed q hf)⟩
    have hpid (q : Proc) (hl : Live t q) : t.pid q = s.pid q :=
      hq.pid q (Or.inl (hlive q hl).1)
    refine iff_of_true ⟨?_, ?_, ?_, fun q hl => ht.asid q hl.1⟩ hmeets
    · intro q r hl hr heq
      rw [hpid q hl, hpid r hr] at heq
      exact hd.distinct q r (hlive q hl) (hlive r hr) heq
    · intro q k hl
      rw [hpid q hl]
      exact hd.not_idle q k (hlive q hl)
    · intro q hl
      rw [hpid q hl]
      exact hd.not_kernel q (hlive q hl)

theorem step_exists {s : State} {e : Event} (hs : Scheduler.Invariant s.toOs) (he : Enabled s e) :
    ∃ t, Step s e t := by
  cases e with
  | elfread kmalloc p ptable loaded =>
    cases loaded with
    | false => exact ⟨_, he, rfl⟩
    | true =>
      obtain ⟨os, hos, -⟩ : ∃ os, Scheduler.next s.toOs (.add kmalloc p) = some os ∧
          Scheduler.Invariant os := Scheduler.next_spec hs he
      exact ⟨_, he, next_elfread hos⟩
  | sched e =>
    obtain ⟨os, hos, -⟩ := Scheduler.next_spec hs he.1
    exact ⟨_, he, next_sched hos⟩

theorem initial_distinct (idle : Hart → Proc) (ptable : Proc → Word) :
    DistinctPids (initial idle ptable) := by
  have hnone (p : Proc) : ¬Live (initial idle ptable) p := by
    intro hp
    have hc := hp.1
    rw [(initial_toOs idle ptable).1] at hc
    cases hc
  exact ⟨fun p _ hp => absurd hp (hnone p), fun p _ hp => absurd hp (hnone p),
    fun p hp => absurd hp (hnone p), fun p hp => absurd hp (hnone p)⟩

/-- In every run whose steps meet the condition the pids are distinct in every state, and from
there a step keeps them distinct exactly if it meets the condition too. -/
theorem pids_distinct (idle : Hart → Proc) (hidle : Function.Injective idle)
    (ptable : Proc → Word) (s : State) (hrun : Execution MeetsStep (initial idle ptable) s) :
    DistinctPids s ∧ ∀ e t, Step s e t → (DistinctPids t ↔ Meets s e) := by
  have hboth : Numbered s ∧ DistinctPids s := by
    apply hrun.invariant (I := fun s => Numbered s ∧ DistinctPids s)
    · rintro s e t ⟨hs, hd⟩ ⟨h, hm⟩
      exact ⟨step_numbered hs h, (hs.distinct_iff hd h).2 hm⟩
    · exact ⟨initial_numbered hidle ptable, initial_distinct idle ptable⟩
  exact ⟨hboth.2, fun e t h => hboth.1.distinct_iff hboth.2 h⟩

/-! ## A run that reuses an idle pid

Each process runs, exits and is freed before the next one is made. -/

section Os

variable {n : ℕ} {os park : Os n} {h : Fin n} {p : Proc} {lu lu' : List ℕ} {us us' : List Proc}
  (kmalloc : Kmalloc) (time : Word)

theorem schedInvoke_no_sleepers (hl : Holds os lu [] us [])
    (hp : p = (os.current h).getD (os.idle h))
    (hpark : (os.mapTable (·.detach p h)).park kmalloc p h = some park)
    (hl' : Holds park lu' [] us' []) :
    ∃ u lu'', os.schedInvoke kmalloc time h = some u ∧ Holds u lu'' [] us'.tail [] ∧
      u.toTable = park.toTable.processSpawn (us'.head?.getD (park.idle h)) h := by
  have hwalk : os.schedWalkSleepingList kmalloc time = some os := by
    unfold Os.schedWalkSleepingList
    rw [hl.sleeping.head_eq]
    rfl
  obtain ⟨u, lu'', hget, ht, hu⟩ := hl'.schedGet
  refine ⟨u.mapTable (·.processSpawn (us'.head?.getD (u.idle h)) h), lu'', ?_, hu.mapTable _, ?_⟩
  · subst hp
    unfold Os.schedInvoke
    rw [hwalk]
    simp only [hpark, hget]
  · change u.toTable.processSpawn _ h = _
    rw [ht]

/-- The timer takes the idle process off the hart and puts the only runnable process there. -/
theorem timer_runs (hl : Holds os lu [] [p] [])
    (hc : os.current h = none ∨ os.current h = some (os.idle h))
    (hst : (os.proc (os.idle h)).processState = .uninit) :
    ∃ u lu', os.schedInvoke kmalloc time h = some u ∧ Holds u lu' [] [] [] ∧
      u.toTable = (os.toTable.detach (os.idle h) h).processSpawn p h := by
  have hidle : os.idle h = (os.current h).getD (os.idle h) := by
    rcases hc with hc | hc <;> rw [hc] <;> rfl
  have hdst : ((os.toTable.detach (os.idle h) h).proc (os.idle h)).processState = .uninit := by
    rw [Table.detach_state]
    exact hst
  have hpark : (os.mapTable (·.detach (os.idle h) h)).park kmalloc (os.idle h) h
      = some (os.mapTable (·.detach (os.idle h) h)) := by
    unfold Os.park
    rw [if_neg, if_neg]
    · exact if_pos rfl
    · exact fun e => absurd (hdst.symm.trans e) (by decide)
    · exact fun e => absurd (hdst.symm.trans e) (by decide)
  exact schedInvoke_no_sleepers kmalloc time hl hidle hpark (hl.mapTable _)

/-- A process that exits is freed and the idle process takes its hart. -/
theorem exit_frees (hl : Holds os lu [] [] []) (hc : os.current h = some p)
    (hst : (os.proc p).processState = .asyncFree) :
    ∃ u lu', os.schedInvoke kmalloc time h = some u ∧ Holds u lu' [] [] [] ∧
      u.toTable = ({ os.toTable.detach p h with freed := p :: os.freed }).processSpawn
        (os.idle h) h := by
  have hfree : (os.toTable.detach p h).processFree p
      = { os.toTable.detach p h with freed := p :: os.freed } := by
    unfold Table.processFree
    rw [Table.detach_onHart, if_pos rfl, if_neg (by simp)]
    rfl
  have hpark : (os.mapTable (·.detach p h)).park kmalloc p h
      = some ((os.mapTable (·.detach p h)).mapTable (·.processFree p)) := by
    unfold Os.park
    rw [if_pos]
    exact (Table.detach_state os.toTable p p h).trans hst
  obtain ⟨u, lu', hu, hlu, ht⟩ := schedInvoke_no_sleepers kmalloc time hl (by rw [hc]; rfl) hpark
    ((hl.mapTable _).mapTable _)
  refine ⟨u, lu', hu, hlu, ht.trans ?_⟩
  change ((os.toTable.detach p h).processFree p).processSpawn
    (((os.toTable.detach p h).processFree p).idle h) h = _
  rw [hfree]
  rfl

end Os

/-- Nothing is listed, the hart is idle, and every process made so far is below `k`. -/
structure Alone (s : State) (hart : Hart) (k : ℕ) : Prop where
  lists : ∃ lu, Holds s.toOs lu [] [] []
  current : s.current hart = none ∨ s.current hart = some (s.idle hart)
  idle_state : (s.proc (s.idle hart)).processState = .uninit
  idle_lt (h : Hart) : s.idle h < k
  created_lt (p : Proc) : p ∈ s.created → p < k

theorem Alone.cycle {s : State} {hart : Hart} {k : ℕ} (hs : Alone s hart k) :
    ∃ t, Execution Step s t ∧ Alone t hart (k + 1) ∧ t.created = k :: s.created := by
  obtain ⟨⟨lu, hl⟩, hc, hst, hi, hcr⟩ := hs
  have hik : s.idle hart ≠ k := (hi hart).ne
  have hfresh : Enabled s (.elfread kmallocNext k 0 true) :=
    ⟨fun hm => (hcr k hm).ne rfl, fun h => (hi h).ne'⟩
  obtain ⟨os₁, lu₁, hadd, ht₁, hl₁⟩ := (hl.mapTable fun t =>
    { t.setProc k (newProcess _) with created := k :: t.created }).schedAdd kmallocNext k
  rw [List.orderedInsert_nil] at hl₁
  have hidle₁ : os₁.idle hart = s.idle hart := by rw [ht₁]; rfl
  have hst₁ : (os₁.proc (os₁.idle hart)).processState = .uninit := by
    rw [hidle₁, ht₁]
    change ((s.toTable.setProc k _).proc (s.idle hart)).processState = _
    rw [Table.setProc_proc, if_neg hik]
    exact hst
  have hc₁ : os₁.current hart = none ∨ os₁.current hart = some (os₁.idle hart) := by
    rw [hidle₁, ht₁]
    exact hc
  obtain ⟨os₂, lu₂, htimer, hl₂, ht₂⟩ := timer_runs kmallocNext 0 hl₁ hc₁ hst₁
  have hc₂ : os₂.current hart = some k := by
    rw [ht₂, Table.processSpawn_current, if_pos rfl]
  have hidle₂ : os₂.idle = s.idle := by
    rw [ht₂]
    change os₁.idle = s.idle
    rw [ht₁]
    rfl
  have hcreated₂ : os₂.created = k :: s.created := by
    rw [ht₂]
    change os₁.created = _
    rw [ht₁]
    rfl
  have hst₂ : (os₂.proc (s.idle hart)).processState = .uninit := by
    rw [ht₂, Table.processSpawn_state, Table.detach_state, ← hidle₁]
    exact hst₁
  have hexit : ((os₂.toTable.setState k .asyncFree).proc k).processState = .asyncFree := by
    rw [Table.setState_state, if_pos rfl]
  obtain ⟨os₃, lu₃, hinv, hl₃, ht₃⟩ := exit_frees kmallocNext 0
    (hl₂.mapTable fun t => { t.setState k .asyncFree with exited := k :: t.exited }) hc₂ hexit
  have hidle₃ : os₃.idle = s.idle := by
    rw [ht₃]
    exact hidle₂
  have hcreated₃ : os₃.created = k :: s.created := by
    rw [ht₃]
    exact hcreated₂
  have hst₃ : (os₃.proc (s.idle hart)).processState = .uninit := by
    rw [ht₃, Table.processSpawn_state]
    change (((os₂.toTable.setState k .asyncFree).detach k hart).proc _).processState = _
    rw [Table.detach_state, Table.setState_state, if_neg hik]
    exact hst₂
  have hc₃ : os₃.current hart = some (os₃.idle hart) := by
    rw [hidle₃, ← hidle₂, ht₃, Table.processSpawn_current, if_pos rfl]
    rfl
  let s₁ := ((s.processInitNew k 0).schedAssignPid k).withOs os₁
  have hstep₁ : Step s (.elfread kmallocNext k 0 true) s₁ := ⟨hfresh, next_elfread hadd⟩
  have hstep₂ : Step s₁ (.sched (.timer kmallocNext 0 hart)) (s₁.withOs os₂) :=
    ⟨⟨trivial, rfl⟩, next_sched (s := s₁) htimer⟩
  have hstep₃ : Step (s₁.withOs os₂) (.sched (.exit kmallocNext 0 hart)) (s₁.withOs os₃) := by
    refine ⟨⟨⟨?_, ?_⟩, rfl⟩, ?_⟩
    · change os₂.current hart ≠ none
      rw [hc₂]
      exact Option.some_ne_none k
    · change os₂.current hart ≠ some (os₂.idle hart)
      rw [hc₂, hidle₂]
      exact fun e => hik (Option.some.inj e).symm
    · apply next_sched (s := s₁.withOs os₂)
      change Scheduler.next os₂ (.exit kmallocNext 0 hart) = some os₃
      simp only [Scheduler.next, hc₂, Option.getD_some]
      exact hinv
  refine ⟨s₁.withOs os₃, ((Execution.single hstep₁).tail hstep₂).tail hstep₃,
    ⟨⟨lu₃, hl₃⟩, Or.inr hc₃, ?_, fun h => ?_, fun p hp => ?_⟩, hcreated₃⟩
  · change (os₃.proc (os₃.idle hart)).processState = .uninit
    rw [hidle₃]
    exact hst₃
  · change os₃.idle h < k + 1
    rw [hidle₃]
    exact (hi h).trans (Nat.lt_succ_self k)
  · change p ∈ os₃.created at hp
    rw [hcreated₃] at hp
    rcases List.mem_cons.1 hp with rfl | hp
    · exact Nat.lt_succ_self p
    · exact (hcr p hp).trans (Nat.lt_succ_self k)

theorem Alone.cycles {s : State} {hart : Hart} {k : ℕ} (hs : Alone s hart k) (m : ℕ) :
    ∃ t, Execution Step s t ∧ Alone t hart (k + m) ∧
      t.created.length = s.created.length + m := by
  induction m with
  | zero => exact ⟨s, .refl s, hs, rfl⟩
  | succ m ih =>
    obtain ⟨t, hrun, ht, hlen⟩ := ih
    obtain ⟨u, hrun', hu, hc⟩ := ht.cycle
    refine ⟨u, hrun.trans hrun', hu, ?_⟩
    rw [hc, List.length_cons, hlen]
    rfl

def firstHart : Hart := ⟨0, by decide⟩

theorem initial_alone (ptable : Proc → Word) :
    Alone (initial (fun h => h.val) ptable) firstHart MAX_SUPPORTED_HARTS := by
  have hos := (initial_toOs (fun h => h.val) ptable).1
  constructor
  · rw [hos]
    have hnil : IsList (Scheduler.initial fun h : Hart => h.val).nodes none [] :=
      ⟨fun a ha => absurd ha List.not_mem_nil, none, by simp, List.isChain_pair.2 ⟨rfl, rfl⟩⟩
    exact ⟨[], hnil, hnil, by simp, rfl, rfl⟩
  · rw [hos]
    exact Or.inl rfl
  · rw [hos]
    rfl
  · rw [hos]
    exact fun h => h.isLt
  · rw [hos]
    intro p hp
    cases hp

/-- After 65525 processes that came and went, the next one gets the pid of an idle process. -/
theorem pid_of_idle_process : ¬∀ (idle : Hart → Proc) (ptable : Proc → Word) (s : State),
    Function.Injective idle → Execution Step (initial idle ptable) s → DistinctPids s := by
  intro hall
  have hidle : Function.Injective fun h : Hart => h.val := fun _ _ => Fin.ext
  obtain ⟨s, hrun, hs, hlen⟩ := (initial_alone fun _ => 0).cycles 65525
  have hnum : Numbered s := hrun.invariant (fun _ _ _ hs h => step_numbered hs h)
    (initial_numbered hidle _)
  let e : Event := .elfread kmallocNext (MAX_SUPPORTED_HARTS + 65525) 0 true
  have hfresh : Enabled s e := ⟨fun hm => (hs.created_lt _ hm).ne rfl, fun h => (hs.idle_lt h).ne'⟩
  obtain ⟨t, ht⟩ := step_exists hnum.sched hfresh
  have hmeets : Meets s e := (hnum.distinct_iff (hall _ _ s hidle hrun) ht).1
    (hall _ _ t hidle (hrun.tail ht))
  have hcreated : (initial (fun h : Hart => h.val) fun _ => 0).created = [] := by
    rw [(initial_toOs _ _).1]
    rfl
  have hlt := hmeets.1
  rw [hlen, hcreated] at hlt
  exact absurd hlt (by decide)

/-- The first process can be made, and it leaves the pids distinct. -/
theorem pids_distinct_first : ∃ s, (initial (fun h : Hart => h.val) fun _ => 0).created = [] ∧
    Step (initial (fun h : Hart => h.val) fun _ => 0) (.elfread kmallocNext 8 0x80000000 true) s ∧
    DistinctPids s := by
  have hidle : Function.Injective fun h : Hart => h.val := fun _ _ => Fin.ext
  have hcreated : (initial (fun h : Hart => h.val) fun _ => 0).created = [] := by
    rw [(initial_toOs _ _).1]
    rfl
  have hfresh : Enabled (initial (fun h : Hart => h.val) fun _ => 0)
      (.elfread kmallocNext 8 0x80000000 true) := by
    refine ⟨?_, fun h => ?_⟩
    · rw [hcreated]
      exact List.not_mem_nil
    · rw [(initial_toOs _ _).1]
      exact h.isLt.ne'
  obtain ⟨s, hs⟩ := step_exists (initial_numbered hidle _).sched hfresh
  have hmeets : Meets (initial (fun h : Hart => h.val) fun _ => 0)
      (.elfread kmallocNext 8 0x80000000 true) := by
    constructor
    · rw [hcreated]
      decide
    · rw [hcreated]
      simp
  exact ⟨s, hcreated, hs, (pids_distinct _ hidle _ s (.single ⟨hs, hmeets⟩)).1⟩

end ProcessIds
