import DucreuOS.Library.Transition
import DucreuOS.ProcessList

/-! # The scheduler

Processes move between `process_current`, the runnable list and the sleeping list. A process is
named by its allocation, so a `process_t` allocated again at the same address is another one.
One call of `sched_invoke` with its `process_spawn` is one step: `sched_mutex` is held meanwhile. -/
namespace Scheduler

open ProcessList Transition

abbrev Proc := ℕ

inductive ProcessState
  | dead | uninit | running | sleeping | waiting | asyncFree
  deriving DecidableEq

/-- The fields of `process_t` the scheduler uses; `on_hart` is -1 as `none`. -/
structure Process (n : ℕ) where
  processState : ProcessState
  sleepUntil : Word
  quantum : BitVec 16
  onHart : Option (Fin n)
  vruntime : Word

def PROCESS_DEFAULT_CONTEXT_TIMER : Word := 10000

/-- What `process_init_new` makes. -/
def newProcess (n : ℕ) : Process n := ⟨.uninit, 0, 100, none, 0⟩

/-- The process table. The last three fields are histories: the processes created, those that
called exit, and the calls of `process_free` that freed one. -/
structure Table (n : ℕ) where
  proc : Proc → Process n
  current : Fin n → Option Proc
  idle : Fin n → Proc
  created : List Proc
  exited : List Proc
  freed : List Proc

/-- The heads of `unsched_process_llist` and `sleeping_process_llist` and their nodes. -/
structure Os (n : ℕ) extends Table n where
  nodes : Nodes Proc
  unsched : Option ℕ
  sleeping : Option ℕ

variable {n : ℕ}

namespace Table

def setProc (t : Table n) (p : Proc) (v : Process n) : Table n :=
  { t with proc := Function.update t.proc p v }

def setState (t : Table n) (p : Proc) (st : ProcessState) : Table n :=
  t.setProc p { t.proc p with processState := st }

/-- `p->on_hart = -1; process_current[hart] = NULL;` -/
def detach (t : Table n) (p : Proc) (hart : Fin n) : Table n :=
  { t.setProc p { t.proc p with onHart := none } with
    current := Function.update t.current hart none }

/-- `process_free` of a process that is not null. -/
def processFree (t : Table n) (p : Proc) : Table n :=
  if (t.proc p).onHart ≠ none then t.setState p .asyncFree
  else { t with freed := p :: t.freed }

/-- `process_spawn` on the hart that calls it. -/
def processSpawn (t : Table n) (p : Proc) (hart : Fin n) : Table n :=
  { t.setProc p
      { t.proc p with
        onHart := some hart
        vruntime := (t.proc p).vruntime
          + (t.proc p).quantum.setWidth 64 * PROCESS_DEFAULT_CONTEXT_TIMER } with
    current := Function.update t.current hart (some p) }

end Table

namespace Os

def vruntime (s : Os n) (p : Proc) : Word := (s.proc p).vruntime

def schedAdd (kmalloc : Kmalloc) (s : Os n) (p : Proc) : Option (Os n) :=
  match processInsert s.vruntime kmalloc s.nodes s.unsched p with
  | none => none
  | some (nodes, unsched) => some { s with nodes := nodes, unsched := unsched }

def schedSleep (kmalloc : Kmalloc) (s : Os n) (p : Proc) : Option (Os n) :=
  match processInsert s.vruntime kmalloc s.nodes s.sleeping p with
  | none => none
  | some (nodes, sleeping) => some { s with nodes := nodes, sleeping := sleeping }

def removeSleeping (s : Os n) (p : Proc) : Option (Os n) :=
  match processRemove s.nodes s.sleeping p with
  | none => none
  | some (nodes, sleeping) => some { s with nodes := nodes, sleeping := sleeping }

def schedGet (s : Os n) : Option Proc × Os n :=
  let (p, nodes, unsched) := processRemoveLowest s.nodes s.unsched
  (p, { s with nodes := nodes, unsched := unsched })

def mapTable (s : Os n) (f : Table n → Table n) : Os n := { s with toTable := f s.toTable }

/-- The loop of `sched_walk_sleeping_list` at `pln`, for at most `fuel` rounds. After a wake-up
it starts again at the head and then takes the `pln->next` of the loop. -/
def walk (kmalloc : Kmalloc) (time : Word) : ℕ → Os n → Option ℕ → Option (Os n)
  | 0, _, _ => none
  | _ + 1, s, none => some s
  | fuel + 1, s, some pln =>
    let target := (s.nodes.node pln).p
    if (s.proc target).sleepUntil < time then
      match removeSleeping (s.mapTable (·.setState target .running)) target with
      | none => none
      | some s =>
        match s.schedAdd kmalloc target with
        | none => none
        | some s =>
          match s.sleeping with
          | none => some s
          | some head => walk kmalloc time fuel s (s.nodes.node head).next
    else walk kmalloc time fuel s (s.nodes.node pln).next

def schedWalkSleepingList (kmalloc : Kmalloc) (time : Word) (s : Os n) : Option (Os n) :=
  walk kmalloc time ((s.nodes.live.card + 1) * (s.nodes.live.card + 1)) s s.sleeping

/-- What `sched_invoke` does with the process it took off the hart. -/
def park (kmalloc : Kmalloc) (s : Os n) (p : Proc) (hart : Fin n) : Option (Os n) :=
  if (s.proc p).processState = .asyncFree then some (s.mapTable (·.processFree p))
  else if (s.proc p).processState = .sleeping then s.schedSleep kmalloc p
  else if p = s.idle hart then some s
  else s.schedAdd kmalloc p

def schedInvoke (kmalloc : Kmalloc) (time : Word) (s : Os n) (hart : Fin n) : Option (Os n) :=
  match s.schedWalkSleepingList kmalloc time with
  | none => none
  | some s =>
    let p := (s.current hart).getD (s.idle hart)
    match (s.mapTable (·.detach p hart)).park kmalloc p hart with
    | none => none
    | some s =>
      let (new, s) := s.schedGet
      let new := new.getD (s.idle hart)
      some (s.mapTable (·.processSpawn new hart))

end Os

/-- Each event brings the allocator's choices and the clint times it reads. -/
inductive Event (n : ℕ)
  /-- `sched_add` of a new process -/
  | add (kmalloc : Kmalloc) (p : Proc)
  /-- timer trap on a hart -/
  | timer (kmalloc : Kmalloc) (time : Word) (hart : Fin n)
  /-- SYSCALL_SLEEP of the process on a hart -/
  | sleep (kmalloc : Kmalloc) (curtime quantums time : Word) (hart : Fin n)
  /-- SYSCALL_EXIT of the process on a hart -/
  | exit (kmalloc : Kmalloc) (time : Word) (hart : Fin n)

/-- The idle process only waits for interrupts: it makes no system call. -/
def Enabled (s : Os n) : Event n → Prop
  | .add _ p => p ∉ s.created ∧ ∀ h, p ≠ s.idle h
  | .timer _ _ _ => True
  | .sleep _ _ _ _ h => s.current h ≠ none ∧ s.current h ≠ some (s.idle h)
  | .exit _ _ h => s.current h ≠ none ∧ s.current h ≠ some (s.idle h)

instance (s : Os n) : (e : Event n) → Decidable (Enabled s e)
  | .add _ _ => inferInstanceAs (Decidable (_ ∧ _))
  | .timer _ _ _ => inferInstanceAs (Decidable True)
  | .sleep _ _ _ _ _ => inferInstanceAs (Decidable (_ ∧ _))
  | .exit _ _ _ => inferInstanceAs (Decidable (_ ∧ _))

def next (s : Os n) : Event n → Option (Os n)
  | .add kmalloc p =>
    (s.mapTable fun t =>
      { t.setProc p (newProcess n) with created := p :: t.created }).schedAdd kmalloc p
  | .timer kmalloc time h => s.schedInvoke kmalloc time h
  | .sleep kmalloc curtime quantums time h =>
    let p := (s.current h).getD (s.idle h)
    (s.mapTable fun t => t.setProc p
      { t.proc p with
        processState := .sleeping
        sleepUntil := curtime + quantums * PROCESS_DEFAULT_CONTEXT_TIMER }).schedInvoke
      kmalloc time h
  | .exit kmalloc time h =>
    let p := (s.current h).getD (s.idle h)
    (s.mapTable fun t =>
      { t.setState p .asyncFree with exited := p :: t.exited }).schedInvoke kmalloc time h

def Step (s : Os n) (e : Event n) (u : Os n) : Prop := Enabled s e ∧ next s e = some u

/-- After `sched_init`: every hart but the first runs its idle process. -/
def initial (idle : Fin n → Proc) : Os n where
  proc p :=
    let hart := (List.finRange n).find? fun h => h.val ≠ 0 ∧ idle h = p
    { newProcess n with
      onHart := hart
      vruntime := if hart.isSome then 100 * PROCESS_DEFAULT_CONTEXT_TIMER else 0 }
  current h := if h.val = 0 then none else some (idle h)
  idle := idle
  created := []
  exited := []
  freed := []
  nodes := ⟨fun _ => ⟨0, none, none⟩, ∅⟩
  unsched := none
  sleeping := none

/-! ## The place of every process -/

def Runnable (st : ProcessState) : Prop := st ≠ .sleeping ∧ st ≠ .asyncFree

/-- `us` and `ss` are the processes of the runnable and of the sleeping list; `out` is the
process the scheduler is working on, if any, which may be on its way from one place to another. -/
structure Placed (t : Table n) (us ss : List Proc) (out : Option Proc) : Prop where
  current (p : Proc) (h : Fin n) : t.current h = some p ↔ (t.proc p).onHart = some h
  idle_injective : Function.Injective t.idle
  idle_hart (h k : Fin n) : (t.proc (t.idle h)).onHart = some k → k = h
  idle_state (h : Fin n) : Runnable (t.proc (t.idle h)).processState
  not_idle (p : Proc) : p ∈ t.created → ∀ h, p ≠ t.idle h
  unsched_nodup : us.Nodup
  sleeping_nodup : ss.Nodup
  unsched (p : Proc) : p ∈ us →
    p ∈ t.created ∧ (t.proc p).onHart = none ∧ Runnable (t.proc p).processState
  sleeping (p : Proc) : p ∈ ss →
    p ∈ t.created ∧ (t.proc p).onHart = none ∧ (t.proc p).processState = .sleeping
  running (p : Proc) (h : Fin n) : t.current h = some p → some p ≠ out → p ≠ t.idle h →
    p ∈ t.created ∧ Runnable (t.proc p).processState
  placed (p : Proc) : p ∈ t.created → p ∉ t.freed → some p ≠ out →
    p ∈ us ∨ p ∈ ss ∨ ∃ h, t.current h = some p
  freed (p : Proc) : p ∈ t.freed →
    p ∈ t.created ∧ (t.proc p).onHart = none ∧ p ∉ us ∧ p ∉ ss
  freed_nodup : t.freed.Nodup

namespace Table

variable (t : Table n) (p q : Proc) (v : Process n) (h k : Fin n)

theorem setProc_proc : (t.setProc p v).proc q = if q = p then v else t.proc q := by
  simp only [setProc, Function.update_apply]

@[simp] theorem setState_onHart (st : ProcessState) :
    ((t.setState p st).proc q).onHart = (t.proc q).onHart := by
  unfold setState
  rw [setProc_proc]
  split <;> simp_all

theorem setState_state (st : ProcessState) : ((t.setState p st).proc q).processState
    = if q = p then st else (t.proc q).processState := by
  unfold setState
  rw [setProc_proc]
  split <;> rfl

theorem detach_onHart : ((t.detach p h).proc q).onHart
    = if q = p then none else (t.proc q).onHart := by
  simp only [detach, setProc_proc]
  split <;> rfl

theorem detach_state : ((t.detach p h).proc q).processState = (t.proc q).processState := by
  simp only [detach, setProc_proc]
  split <;> simp_all

theorem detach_current : (t.detach p h).current k = if k = h then none else t.current k := by
  simp only [detach, Function.update_apply]

theorem processSpawn_onHart : ((t.processSpawn p h).proc q).onHart
    = if q = p then some h else (t.proc q).onHart := by
  simp only [processSpawn, setProc_proc]
  split <;> rfl

theorem processSpawn_state :
    ((t.processSpawn p h).proc q).processState = (t.proc q).processState := by
  simp only [processSpawn, setProc_proc]
  split <;> simp_all

theorem processSpawn_current :
    (t.processSpawn p h).current k = if k = h then some p else t.current k := by
  simp only [processSpawn, Function.update_apply]

end Table

variable {t : Table n} {us ss us' ss' : List Proc} {p : Proc} {out : Option Proc} {h : Fin n}

/-- A process sits on one hart only. -/
theorem Placed.current_unique (hp : Placed t us ss out) {k : Fin n} (hh : t.current h = some p)
    (hk : t.current k = some p) : h = k :=
  Option.some.inj (((hp.current p h).1 hh).symm.trans ((hp.current p k).1 hk))

theorem Placed.idle_not_listed (hp : Placed t us ss out) (h : Fin n) :
    t.idle h ∉ us ∧ t.idle h ∉ ss :=
  ⟨fun hm => hp.not_idle _ (hp.unsched _ hm).1 h rfl,
    fun hm => hp.not_idle _ (hp.sleeping _ hm).1 h rfl⟩

/-- A sleeper is woken: it goes to the runnable list. -/
theorem Placed.wake (hp : Placed t us ss out) (hps : p ∈ ss) (hout : some p ≠ out)
    (hus : us'.Perm (p :: us)) (hss : ss' = ss.erase p) :
    Placed (t.setState p .running) us' ss' out := by
  obtain ⟨hc, hoff, hst⟩ := hp.sleeping p hps
  have hpu : p ∉ us := fun hm => (hp.unsched p hm).2.2.1 hst
  have hidle (k : Fin n) : t.idle k ≠ p := (hp.not_idle p hc k).symm
  have hmem (q : Proc) : q ∈ ss' ↔ q ≠ p ∧ q ∈ ss := by
    rw [hss, hp.sleeping_nodup.mem_erase_iff]
  constructor
  · intro q k
    rw [Table.setState_onHart]
    exact hp.current q k
  · exact hp.idle_injective
  · intro k j
    rw [Table.setState_onHart]
    exact hp.idle_hart k j
  · intro k
    rw [Table.setState_state]
    exact (if_neg (hidle k)).symm ▸ hp.idle_state k
  · exact hp.not_idle
  · exact hus.nodup_iff.2 (List.nodup_cons.2 ⟨hpu, hp.unsched_nodup⟩)
  · rw [hss]
    exact hp.sleeping_nodup.erase p
  · intro q hq
    rw [Table.setState_onHart, Table.setState_state]
    by_cases hqp : q = p
    · subst hqp
      rw [if_pos rfl]
      exact ⟨hc, hoff, by decide, by decide⟩
    · rw [if_neg hqp]
      exact hp.unsched q ((List.mem_cons.1 (hus.mem_iff.1 hq)).resolve_left hqp)
  · intro q hq
    obtain ⟨hqp, hqs⟩ := (hmem q).1 hq
    rw [Table.setState_onHart, Table.setState_state, if_neg hqp]
    exact hp.sleeping q hqs
  · intro q k hq hqo hqi
    have hqp : q ≠ p := by
      rintro rfl
      rw [(hp.current q k).1 hq] at hoff
      exact absurd hoff (by simp)
    rw [Table.setState_state, if_neg hqp]
    exact hp.running q k hq hqo hqi
  · intro q hq hf hqo
    by_cases hqp : q = p
    · exact Or.inl (hus.mem_iff.2 (hqp ▸ List.mem_cons_self))
    · rcases hp.placed q hq hf hqo with hq | hq | hq
      · exact Or.inl (hus.mem_iff.2 (List.mem_cons_of_mem _ hq))
      · exact Or.inr (Or.inl ((hmem q).2 ⟨hqp, hq⟩))
      · exact Or.inr (Or.inr hq)
  · intro q hq
    obtain ⟨hqc, hqoff, hqu, hqs⟩ := hp.freed q hq
    have hqp : q ≠ p := by
      rintro rfl
      exact hqs hps
    rw [Table.setState_onHart]
    refine ⟨hqc, hqoff, fun hm => ?_, fun hm => hqs ((hmem q).1 hm).2⟩
    exact ((List.mem_cons.1 (hus.mem_iff.1 hm)).elim hqp hqu)
  · exact hp.freed_nodup

theorem Placed.weaken (hp : Placed t us ss none) (out : Option Proc) : Placed t us ss out :=
  { hp with
    running := fun q k hq _ => hp.running q k hq (by simp)
    placed := fun q hq hf _ => hp.placed q hq hf (by simp) }

theorem Placed.on_hart_not_listed (hp : Placed t us ss out) (hc : t.current h = some p) :
    p ∉ us ∧ p ∉ ss ∧ p ∉ t.freed := by
  have hon := (hp.current p h).1 hc
  refine ⟨fun hm => ?_, fun hm => ?_, fun hm => ?_⟩
  · rw [(hp.unsched p hm).2.1] at hon
    cases hon
  · rw [(hp.sleeping p hm).2.1] at hon
    cases hon
  · rw [(hp.freed p hm).2.1] at hon
    cases hon

/-- A system call changes the state of the process that makes it. -/
theorem Placed.changeState (hp : Placed t us ss none) (hc : t.current h = some p)
    (hpi : p ≠ t.idle h) {v : Process n} (hv : v.onHart = (t.proc p).onHart) :
    Placed (t.setProc p v) us ss (some p) := by
  obtain ⟨hpu, hps, hpf⟩ := hp.on_hart_not_listed hc
  have hcr : p ∈ t.created := (hp.running p h hc (by simp) hpi).1
  have hon (q : Proc) : ((t.setProc p v).proc q).onHart = (t.proc q).onHart := by
    rw [Table.setProc_proc]
    by_cases hq : q = p
    · rw [if_pos hq, hv, hq]
    · rw [if_neg hq]
  have hst (q : Proc) (hq : q ≠ p) : (t.setProc p v).proc q = t.proc q := by
    rw [Table.setProc_proc, if_neg hq]
  constructor
  · intro q k
    rw [hon]
    exact hp.current q k
  · exact hp.idle_injective
  · intro k j
    rw [hon]
    exact hp.idle_hart k j
  · intro k
    have hne : (t.setProc p v).idle k ≠ p := (hp.not_idle p hcr k).symm
    rw [hst _ hne]
    exact hp.idle_state k
  · exact hp.not_idle
  · exact hp.unsched_nodup
  · exact hp.sleeping_nodup
  · intro q hq
    rw [hst q (fun e => hpu (e ▸ hq))]
    exact hp.unsched q hq
  · intro q hq
    rw [hst q (fun e => hps (e ▸ hq))]
    exact hp.sleeping q hq
  · intro q k hq hqo hqi
    rw [hst q (fun e => hqo (congrArg some e))]
    exact hp.running q k hq (by simp) hqi
  · intro q hq hf _
    exact hp.placed q hq hf (by simp)
  · intro q hq
    rw [hst q (fun e => hpf (e ▸ hq))]
    exact hp.freed q hq
  · exact hp.freed_nodup

/-- The process is on no hart, in neither list and not freed. -/
structure Detached (t : Table n) (us ss : List Proc) (p : Proc) : Prop where
  placed : Placed t us ss (some p)
  onHart : (t.proc p).onHart = none
  unsched : p ∉ us
  sleeping : p ∉ ss
  freed : p ∉ t.freed

/-- The process `sched_invoke` takes off the hart: the idle one if there is none. -/
theorem Placed.on_hart_or_idle (hp : Placed t us ss out)
    (hcr : ∀ q, t.current h = some q → q ≠ t.idle h → q ∈ t.created) :
    let p := (t.current h).getD (t.idle h)
    p ∉ us ∧ p ∉ ss ∧ p ∉ t.freed ∧ (p ≠ t.idle h → p ∈ t.created) ∧
      ∀ k, t.current k = some p → k = h := by
  intro p
  cases hc : t.current h with
  | none =>
    have hpe : p = t.idle h := by rw [show p = (t.current h).getD (t.idle h) from rfl, hc]; rfl
    obtain ⟨hu, hs⟩ := hp.idle_not_listed h
    rw [hpe]
    refine ⟨hu, hs, fun hf => hp.not_idle _ (hp.freed _ hf).1 h rfl, fun e => absurd rfl e, ?_⟩
    intro k hk
    exact hp.idle_hart h k ((hp.current _ k).1 hk)
  | some q =>
    have hpe : p = q := by rw [show p = (t.current h).getD (t.idle h) from rfl, hc]; rfl
    obtain ⟨hu, hs, hf⟩ := hp.on_hart_not_listed hc
    rw [hpe]
    exact ⟨hu, hs, hf, hcr q hc, fun k hk => hp.current_unique hk hc⟩

theorem Placed.detach (hp : Placed t us ss (some p)) (hpe : p = (t.current h).getD (t.idle h))
    (hcr : ∀ q, t.current h = some q → q ≠ t.idle h → q ∈ t.created) :
    Detached (t.detach p h) us ss p ∧ (p ≠ t.idle h → p ∈ t.created) := by
  obtain ⟨hpu, hps, hpf, hpc, hph⟩ := hpe ▸ hp.on_hart_or_idle hcr
  have hon (q : Proc) (hq : q ≠ p) : ((t.detach p h).proc q).onHart = (t.proc q).onHart := by
    rw [Table.detach_onHart, if_neg hq]
  have hcur (q : Proc) (k : Fin n) :
      (t.detach p h).current k = some q ↔ q ≠ p ∧ t.current k = some q := by
    rw [Table.detach_current]
    by_cases hk : k = h
    · subst hk
      rw [if_pos rfl]
      constructor
      · intro e
        cases e
      · rintro ⟨hqp, hq⟩
        exact absurd (by rw [hpe, hq]; rfl) hqp
    · rw [if_neg hk]
      refine ⟨fun hq => ⟨?_, hq⟩, And.right⟩
      rintro rfl
      exact hk (hph k hq)
  refine ⟨⟨?_, ?_, hpu, hps, hpf⟩, hpc⟩
  · constructor
    · intro q k
      rw [hcur, Table.detach_onHart]
      by_cases hq : q = p
      · rw [if_pos hq]
        exact ⟨fun hc => absurd hq hc.1, fun e => by cases e⟩
      · rw [if_neg hq, ← hp.current q k]
        exact and_iff_right hq
    · exact hp.idle_injective
    · intro j k
      rw [Table.detach_onHart]
      split
      · intro e
        cases e
      · exact hp.idle_hart j k
    · intro j
      rw [Table.detach_state]
      exact hp.idle_state j
    · exact hp.not_idle
    · exact hp.unsched_nodup
    · exact hp.sleeping_nodup
    · intro q hq
      rw [hon q (fun e => hpu (e ▸ hq)), Table.detach_state]
      exact hp.unsched q hq
    · intro q hq
      rw [hon q (fun e => hps (e ▸ hq)), Table.detach_state]
      exact hp.sleeping q hq
    · intro q k hq hqo hqi
      rw [Table.detach_state]
      exact hp.running q k ((hcur q k).1 hq).2 hqo hqi
    · intro q hq hf hqo
      refine (hp.placed q hq hf hqo).imp_right (Or.imp_right ?_)
      rintro ⟨k, hk⟩
      exact ⟨k, (hcur q k).2 ⟨fun e => hqo (congrArg some e), hk⟩⟩
    · intro q hq
      rw [hon q (fun e => hpf (e ▸ hq))]
      exact hp.freed q hq
    · exact hp.freed_nodup
  · rw [Table.detach_onHart, if_pos rfl]

namespace Detached

variable (hd : Detached t us ss p)
include hd

theorem ne_of_current {q : Proc} {k : Fin n} (hq : t.current k = some q) : some q ≠ some p := by
  intro e
  have hon := (hd.placed.current q k).1 hq
  rw [Option.some.inj e, hd.onHart] at hon
  cases hon

/-- The process goes to the list its state asks for, or is an idle process and goes nowhere. -/
theorem close (hplace : p ∈ t.created → p ∈ us' ∨ p ∈ ss')
    (hus : us'.Nodup ∧ ∀ q ∈ us, q ∈ us') (hss : ss'.Nodup ∧ ∀ q ∈ ss, q ∈ ss')
    (hu : ∀ q ∈ us', q ∈ us ∨ q = p ∧ p ∈ t.created ∧ Runnable (t.proc p).processState)
    (hs : ∀ q ∈ ss', q ∈ ss ∨ q = p ∧ p ∈ t.created ∧ (t.proc p).processState = .sleeping) :
    Placed t us' ss' none := by
  have hp := hd.placed
  constructor
  · exact hp.current
  · exact hp.idle_injective
  · exact hp.idle_hart
  · exact hp.idle_state
  · exact hp.not_idle
  · exact hus.1
  · exact hss.1
  · intro q hq
    rcases hu q hq with hq | ⟨rfl, hc, hst⟩
    · exact hp.unsched q hq
    · exact ⟨hc, hd.onHart, hst⟩
  · intro q hq
    rcases hs q hq with hq | ⟨rfl, hc, hst⟩
    · exact hp.sleeping q hq
    · exact ⟨hc, hd.onHart, hst⟩
  · intro q k hq _ hqi
    exact hp.running q k hq (hd.ne_of_current hq) hqi
  · intro q hq hf _
    by_cases hqp : q = p
    · subst hqp
      exact (hplace hq).imp_right Or.inl
    · rcases hp.placed q hq hf (by simpa using hqp) with hq | hq | hq
      · exact Or.inl (hus.2 q hq)
      · exact Or.inr (Or.inl (hss.2 q hq))
      · exact Or.inr (Or.inr hq)
  · intro q hq
    obtain ⟨hc, hon, hqu, hqs⟩ := hp.freed q hq
    refine ⟨hc, hon, fun hm => ?_, fun hm => ?_⟩
    · rcases hu q hm with hm | ⟨rfl, -⟩
      · exact hqu hm
      · exact hd.freed hq
    · rcases hs q hm with hm | ⟨rfl, -⟩
      · exact hqs hm
      · exact hd.freed hq
  · exact hp.freed_nodup

theorem add (hc : p ∈ t.created) (hst : Runnable (t.proc p).processState)
    (hus : us'.Perm (p :: us)) : Placed t us' ss none := by
  have hmem (q : Proc) : q ∈ us' ↔ q = p ∨ q ∈ us := hus.mem_iff.trans List.mem_cons
  apply hd.close (fun _ => Or.inl ((hmem p).2 (Or.inl rfl)))
  · exact ⟨hus.nodup_iff.2 (List.nodup_cons.2 ⟨hd.unsched, hd.placed.unsched_nodup⟩),
      fun q hq => (hmem q).2 (Or.inr hq)⟩
  · exact ⟨hd.placed.sleeping_nodup, fun _ => id⟩
  · exact fun q hq => ((hmem q).1 hq).symm.imp_right fun e => ⟨e, hc, hst⟩
  · exact fun q hq => Or.inl hq

theorem sleep (hc : p ∈ t.created) (hst : (t.proc p).processState = .sleeping)
    (hss : ss'.Perm (p :: ss)) : Placed t us ss' none := by
  have hmem (q : Proc) : q ∈ ss' ↔ q = p ∨ q ∈ ss := hss.mem_iff.trans List.mem_cons
  apply hd.close (fun _ => Or.inr ((hmem p).2 (Or.inl rfl)))
  · exact ⟨hd.placed.unsched_nodup, fun _ => id⟩
  · exact ⟨hss.nodup_iff.2 (List.nodup_cons.2 ⟨hd.sleeping, hd.placed.sleeping_nodup⟩),
      fun q hq => (hmem q).2 (Or.inr hq)⟩
  · exact fun q hq => Or.inl hq
  · exact fun q hq => ((hmem q).1 hq).symm.imp_right fun e => ⟨e, hc, hst⟩

theorem idle (hpi : p = t.idle h) : Placed t us ss none := by
  apply hd.close (fun hc => absurd hpi (hd.placed.not_idle p hc h))
  · exact ⟨hd.placed.unsched_nodup, fun _ => id⟩
  · exact ⟨hd.placed.sleeping_nodup, fun _ => id⟩
  · exact fun q hq => Or.inl hq
  · exact fun q hq => Or.inl hq

theorem free (hc : p ∈ t.created) : Placed { t with freed := p :: t.freed } us ss none := by
  have hp := hd.placed
  exact
    { current := hp.current
      idle_injective := hp.idle_injective
      idle_hart := hp.idle_hart
      idle_state := hp.idle_state
      not_idle := hp.not_idle
      unsched_nodup := hp.unsched_nodup
      sleeping_nodup := hp.sleeping_nodup
      unsched := hp.unsched
      sleeping := hp.sleeping
      running := fun q k hq _ hqi => hp.running q k hq (hd.ne_of_current hq) hqi
      placed := by
        intro q hq hf _
        obtain ⟨hqp, hqf⟩ := not_or.1 (List.mem_cons.not.1 hf)
        exact hp.placed q hq hqf (by simpa using hqp)
      freed := by
        intro q hq
        rcases List.mem_cons.1 hq with rfl | hq
        · exact ⟨hc, hd.onHart, hd.unsched, hd.sleeping⟩
        · exact hp.freed q hq
      freed_nodup := List.nodup_cons.2 ⟨hd.freed, hp.freed_nodup⟩ }

end Detached

/-- `process_spawn` of a process that is in no place puts it on the free hart. -/
theorem Placed.spawn (hp : Placed t us ss none) (hh : t.current h = none)
    (hoff : (t.proc p).onHart = none) (hps : p ∉ ss) (hpf : p ∉ t.freed)
    (hpi : ∀ k, p = t.idle k → k = h)
    (hrun : p ≠ t.idle h → p ∈ t.created ∧ Runnable (t.proc p).processState)
    (hus : us'.Nodup ∧ p ∉ us' ∧ ∀ q, q ≠ p → (q ∈ us' ↔ q ∈ us)) :
    Placed (t.processSpawn p h) us' ss none := by
  obtain ⟨hnd, hpu, hmem⟩ := hus
  have hsub (q : Proc) (hq : q ∈ us') : q ≠ p ∧ q ∈ us := by
    have hqp : q ≠ p := fun e => hpu (e ▸ hq)
    exact ⟨hqp, (hmem q hqp).1 hq⟩
  have hcur (q : Proc) (k : Fin n) : (t.processSpawn p h).current k = some q ↔
      (k = h ∧ q = p) ∨ (k ≠ h ∧ t.current k = some q) := by
    rw [Table.processSpawn_current]
    by_cases hk : k = h
    · rw [if_pos hk, Option.some_inj]
      simp [hk, eq_comm]
    · rw [if_neg hk]
      simp [hk]
  constructor
  · intro q k
    rw [hcur, Table.processSpawn_onHart]
    by_cases hq : q = p
    · subst hq
      rw [if_pos rfl, Option.some_inj]
      constructor
      · rintro (⟨rfl, -⟩ | ⟨-, hk⟩)
        · rfl
        · rw [(hp.current q k).1 hk] at hoff
          cases hoff
      · rintro rfl
        exact Or.inl ⟨rfl, rfl⟩
    · rw [if_neg hq, ← hp.current q k]
      constructor
      · rintro (⟨-, rfl⟩ | ⟨-, hk⟩)
        · exact absurd rfl hq
        · exact hk
      · intro hk
        refine Or.inr ⟨?_, hk⟩
        rintro rfl
        rw [hh] at hk
        cases hk
  · exact hp.idle_injective
  · intro j k
    rw [Table.processSpawn_onHart]
    by_cases hj : (t.processSpawn p h).idle j = p
    · rw [if_pos hj, Option.some_inj]
      rintro rfl
      exact (hpi j hj.symm).symm
    · rw [if_neg hj]
      exact hp.idle_hart j k
  · intro j
    rw [Table.processSpawn_state]
    exact hp.idle_state j
  · exact hp.not_idle
  · exact hnd
  · exact hp.sleeping_nodup
  · intro q hq
    rw [Table.processSpawn_onHart, if_neg (hsub q hq).1, Table.processSpawn_state]
    exact hp.unsched q (hsub q hq).2
  · intro q hq
    have hqp : q ≠ p := fun e => hps (e ▸ hq)
    rw [Table.processSpawn_onHart, if_neg hqp, Table.processSpawn_state]
    exact hp.sleeping q hq
  · intro q k hq _ hqi
    rw [Table.processSpawn_state]
    rcases (hcur q k).1 hq with ⟨rfl, rfl⟩ | ⟨-, hk⟩
    · exact hrun hqi
    · exact hp.running q k hk (by simp) hqi
  · intro q hq hf _
    by_cases hqp : q = p
    · exact Or.inr (Or.inr ⟨h, (hcur q h).2 (Or.inl ⟨rfl, hqp⟩)⟩)
    · rcases hp.placed q hq hf (by simp) with hq | hq | ⟨k, hk⟩
      · exact Or.inl ((hmem q hqp).2 hq)
      · exact Or.inr (Or.inl hq)
      · refine Or.inr (Or.inr ⟨k, (hcur q k).2 (Or.inr ⟨?_, hk⟩)⟩)
        rintro rfl
        rw [hh] at hk
        cases hk
  · intro q hq
    obtain ⟨hc, hon, hqu, hqs⟩ := hp.freed q hq
    have hqp : q ≠ p := fun e => hpf (e ▸ hq)
    rw [Table.processSpawn_onHart, if_neg hqp]
    exact ⟨hc, hon, fun hm => hqu (hsub q hm).2, hqs⟩
  · exact hp.freed_nodup

/-! ## The scheduler without its memory -/

/-- The order of the lists. -/
def Table.before (t : Table n) (p q : Proc) : Prop := (t.proc p).vruntime ≤ (t.proc q).vruntime

instance (t : Table n) : DecidableRel t.before := fun p q =>
  inferInstanceAs (Decidable ((t.proc p).vruntime ≤ (t.proc q).vruntime))

/-- The process table, and the processes of the runnable and of the sleeping list in order. -/
structure Queues (n : ℕ) extends Table n where
  us : List Proc
  ss : List Proc

namespace Queues

def mapTable (q : Queues n) (f : Table n → Table n) : Queues n :=
  { q with toTable := f q.toTable }

def add (q : Queues n) (p : Proc) : Queues n := { q with us := q.us.orderedInsert q.before p }

def sleep (q : Queues n) (p : Proc) : Queues n := { q with ss := q.ss.orderedInsert q.before p }

/-- A sleeper goes to the runnable list. -/
def wake (q : Queues n) (p : Proc) : Queues n :=
  add { q.toTable.setState p .running, q with ss := q.ss.erase p } p

/-- The process `sched_invoke` takes off the hart. -/
def onHart (q : Queues n) (h : Fin n) : Proc := (q.current h).getD (q.idle h)

def park (q : Queues n) (p : Proc) (h : Fin n) : Queues n :=
  if (q.proc p).processState = .asyncFree then q.mapTable (·.processFree p)
  else if (q.proc p).processState = .sleeping then q.sleep p
  else if p = q.idle h then q
  else q.add p

/-- The first runnable process is spawned on the hart, or its idle process. -/
def dispatch (q : Queues n) (h : Fin n) : Queues n :=
  { q.toTable.processSpawn (q.us.head?.getD (q.idle h)) h, q with us := q.us.tail }

/-- The process on the hart is taken off and parked. -/
def vacate (q : Queues n) (h : Fin n) : Queues n :=
  (q.mapTable (·.detach (q.onHart h) h)).park (q.onHart h) h

/-- `sched_invoke` after the walk over the sleeping list. -/
def switch (q : Queues n) (h : Fin n) : Queues n := (q.vacate h).dispatch h

end Queues

/-- A walk wakes some of the sleepers whose time has come, one after the other. -/
inductive Wakes (time : Word) : Queues n → List Proc → Queues n → Prop
  | done (q : Queues n) : Wakes time q [] q
  | wake {q r : Queues n} {p : Proc} {ps : List Proc} (hp : p ∈ q.ss)
      (hdue : (q.proc p).sleepUntil < time) (h : Wakes time (q.wake p) ps r) :
      Wakes time q (p :: ps) r

variable {q r : Queues n} {time : Word} {ps : List Proc}

/-- What waking leaves alone: everything but the state of the sleepers. -/
structure Walked (t t' : Table n) (ss : List Proc) : Prop where
  proc (q : Proc) : q ∉ ss → t'.proc q = t.proc q
  current : t'.current = t.current
  idle : t'.idle = t.idle
  created : t'.created = t.created
  exited : t'.exited = t.exited
  freed : t'.freed = t.freed

theorem Wakes.walked (h : Wakes time q ps r) : Walked q.toTable r.toTable q.ss := by
  induction h with
  | done q => exact ⟨fun _ _ => rfl, rfl, rfl, rfl, rfl, rfl⟩
  | @wake q r p ps hp hdue _ ih =>
    refine ⟨fun p' hp' => ?_, ih.current, ih.idle, ih.created, ih.exited, ih.freed⟩
    have hne : p' ≠ p := fun e => hp' (e ▸ hp)
    rw [ih.proc p' fun he => hp' (List.mem_of_mem_erase he)]
    exact (q.setProc_proc p p' _).trans (if_neg hne)

theorem Wakes.placed (h : Wakes time q ps r) (hp : Placed q.toTable q.us q.ss out)
    (hout : ∀ p ∈ q.ss, some p ≠ out) : Placed r.toTable r.us r.ss out := by
  induction h with
  | done q => exact hp
  | wake hps hdue _ ih =>
    apply ih
    · exact hp.wake hps (hout _ hps) (List.perm_orderedInsert ..) rfl
    · exact fun p' hp' => hout p' (List.mem_of_mem_erase hp')

/-- The parked process goes where its state sends it. -/
theorem park_placed (hd : Detached q.toTable q.us q.ss p) (hcr : p ≠ q.idle h → p ∈ q.created)
    (hst : Runnable (q.proc p).processState ∨ p ≠ q.idle h) :
    Placed (q.park p h).toTable (q.park p h).us (q.park p h).ss none ∧
      (q.park p h).current = q.current ∧ (q.park p h).idle = q.idle ∧
      (q.park p h).created = q.created ∧ (q.park p h).exited = q.exited ∧
      (q.park p h).freed
        = if (q.proc p).processState = .asyncFree then p :: q.freed else q.freed := by
  unfold Queues.park
  by_cases ha : (q.proc p).processState = .asyncFree
  · have hpi : p ≠ q.idle h := hst.resolve_left fun hr => hr.2 ha
    have hfree : q.processFree p = { q.toTable with freed := p :: q.freed } := by
      unfold Table.processFree
      rw [hd.onHart, if_neg (by simp)]
    rw [if_pos ha, if_pos ha, Queues.mapTable, hfree]
    exact ⟨hd.free (hcr hpi), rfl, rfl, rfl, rfl, rfl⟩
  · rw [if_neg ha, if_neg ha]
    by_cases hs : (q.proc p).processState = .sleeping
    · have hpi : p ≠ q.idle h := hst.resolve_left fun hr => hr.1 hs
      rw [if_pos hs]
      exact ⟨hd.sleep (hcr hpi) hs (List.perm_orderedInsert ..), rfl, rfl, rfl, rfl, rfl⟩
    · rw [if_neg hs]
      by_cases hpi : p = q.idle h
      · rw [if_pos hpi]
        exact ⟨hd.idle hpi, rfl, rfl, rfl, rfl, rfl⟩
      · rw [if_neg hpi]
        exact ⟨hd.add (hcr hpi) ⟨hs, ha⟩ (List.perm_orderedInsert ..), rfl, rfl, rfl, rfl, rfl⟩

/-- The hart gets the first runnable process, or its idle one. -/
theorem dispatch_placed (hp : Placed q.toTable q.us q.ss none) (hc : q.current h = none) :
    Placed (q.dispatch h).toTable (q.dispatch h).us (q.dispatch h).ss none := by
  unfold Queues.dispatch
  cases hus : q.us with
  | nil =>
    have hoff : (q.proc (q.idle h)).onHart = none := by
      cases ho : (q.proc (q.idle h)).onHart with
      | none => rfl
      | some k =>
        obtain rfl := hp.idle_hart h k ho
        rw [(hp.current _ k).2 ho] at hc
        cases hc
    apply hp.spawn hc hoff (hp.idle_not_listed h).2
    · exact fun hf => hp.not_idle _ (hp.freed _ hf).1 h rfl
    · exact fun k hk => (hp.idle_injective hk).symm
    · exact fun hne => absurd rfl hne
    · exact ⟨List.nodup_nil, List.not_mem_nil, fun _ _ => by rw [hus]; rfl⟩
  | cons p us =>
    rw [hus] at hp
    obtain ⟨hpc, hoff, hrun⟩ := hp.unsched p List.mem_cons_self
    obtain ⟨hpu, hnd⟩ := List.nodup_cons.1 hp.unsched_nodup
    apply hp.spawn hc hoff
    · exact fun hs => hrun.1 (hp.sleeping p hs).2.2
    · exact fun hf => (hp.freed p hf).2.2.1 List.mem_cons_self
    · exact fun k hk => absurd hk (hp.not_idle p hpc k)
    · exact fun _ => ⟨hpc, hrun⟩
    · exact ⟨hnd, hpu, fun r hr => by simp [hr]⟩

theorem vacate_placed (hp : Placed q.toTable q.us q.ss (some (q.onHart h)))
    (hcr : ∀ p, q.current h = some p → p ≠ q.idle h → p ∈ q.created)
    (hst : Runnable (q.proc (q.onHart h)).processState ∨ q.onHart h ≠ q.idle h) :
    Placed (q.vacate h).toTable (q.vacate h).us (q.vacate h).ss none ∧
      (q.vacate h).current h = none ∧ (q.vacate h).exited = q.exited ∧
      (q.vacate h).freed = if (q.proc (q.onHart h)).processState = .asyncFree
        then q.onHart h :: q.freed else q.freed := by
  obtain ⟨hd, hpc⟩ := hp.detach rfl hcr
  have hstate : ((q.detach (q.onHart h) h).proc (q.onHart h)).processState
      = (q.proc (q.onHart h)).processState := Table.detach_state ..
  obtain ⟨hp', hcur, -, -, hexited, hfreed⟩ :=
    park_placed (q := q.mapTable (·.detach (q.onHart h) h)) hd hpc (by
      change Runnable ((q.detach (q.onHart h) h).proc (q.onHart h)).processState ∨ _
      rwa [hstate])
  refine ⟨hp', ?_, hexited, hfreed.trans (by rw [← hstate]; rfl)⟩
  exact (congrFun hcur h).trans ((Table.detach_current ..).trans (if_pos rfl))

/-- What neither the place nor the state of a process is part of. -/
structure Fixed {α : Type*} (f : Process n → α) : Prop where
  state (v : Process n) (st : ProcessState) : f { v with processState := st } = f v
  onHart (v : Process n) (o : Option (Fin n)) : f { v with onHart := o } = f v

section Fixed

variable {α : Type*} {f : Process n → α}

theorem Table.setProc_fixed (t : Table n) (p p' : Proc) {v : Process n}
    (hv : f v = f (t.proc p')) : f ((t.setProc p' v).proc p) = f (t.proc p) := by
  rw [Table.setProc_proc]
  split
  · rename_i he
    rw [hv, he]
  · rfl

theorem Table.detach_fixed (t : Table n) (hf : Fixed f) (p p' : Proc) :
    f ((t.detach p' h).proc p) = f (t.proc p) := t.setProc_fixed p p' (hf.onHart ..)

theorem Queues.vacate_fixed (hf : Fixed f) (p : Proc) :
    f ((q.vacate h).proc p) = f (q.proc p) := by
  rw [← q.detach_fixed hf p (q.onHart h)]
  unfold vacate park
  split_ifs
  · change f (((q.detach (q.onHart h) h).processFree (q.onHart h)).proc p) = _
    unfold Table.processFree
    split
    · exact Table.setProc_fixed _ p _ (hf.state ..)
    · rfl
  · rfl
  · rfl
  · rfl

end Fixed

theorem fixed_vruntime : Fixed (Process.vruntime : Process n → Word) :=
  ⟨fun _ _ => rfl, fun _ _ => rfl⟩

theorem fixed_quantum : Fixed (Process.quantum : Process n → BitVec 16) :=
  ⟨fun _ _ => rfl, fun _ _ => rfl⟩

theorem fixed_sleepUntil : Fixed (Process.sleepUntil : Process n → Word) :=
  ⟨fun _ _ => rfl, fun _ _ => rfl⟩

/-! ## The lists in memory -/

/-- The nodes `lu` and `ls` form the two lists and stand for the processes `us` and `ss`. -/
structure Holds (s : Os n) (lu ls : List ℕ) (us ss : List Proc) : Prop where
  unsched : IsList s.nodes s.unsched lu
  sleeping : IsList s.nodes s.sleeping ls
  apart (a : ℕ) : a ∈ lu → a ∉ ls
  us_eq : procs s.nodes lu = us
  ss_eq : procs s.nodes ls = ss

variable {s : Os n} {lu ls : List ℕ}

theorem Holds.mapTable (hl : Holds s lu ls us ss) (f : Table n → Table n) :
    Holds (s.mapTable f) lu ls us ss :=
  ⟨hl.unsched, hl.sleeping, hl.apart, hl.us_eq, hl.ss_eq⟩

theorem Holds.length_eq (hl : Holds s lu ls us ss) : ss.length = ls.length := by
  rw [← hl.ss_eq]
  exact List.length_map _

theorem Holds.schedAdd (hl : Holds s lu ls us ss) (kmalloc : Kmalloc) (p : Proc) :
    ∃ s' lu', s.schedAdd kmalloc p = some s' ∧ s'.toTable = s.toTable ∧
      Holds s' lu' ls (us.orderedInsert s.before p) ss := by
  obtain ⟨nodes, unsched, lu', heq, hi⟩ := processInsert_spec s.vruntime kmalloc hl.unsched p
  have hframe (a : ℕ) (ha : a ∈ ls) : nodes.node a = s.nodes.node a :=
    hi.frame a (hl.sleeping.live a ha) fun hu => hl.apart a hu ha
  obtain ⟨hsl, hss⟩ := hl.sleeping.frame hframe
    fun a ha => (hi.live a).2 (Or.inl (hl.sleeping.live a ha))
  refine ⟨{ s with nodes := nodes, unsched := unsched }, lu', ?_, rfl,
    ⟨hi.list, hsl, ?_, ?_, hss.trans hl.ss_eq⟩⟩
  · unfold Os.schedAdd
    rw [heq]
  · intro a ha hs
    rcases hi.nodes a ha with hu | hnew
    · exact hl.apart a hu hs
    · exact hnew (hl.sleeping.live a hs)
  · rw [← hl.us_eq]
    exact hi.procs_eq

theorem Holds.schedSleep (hl : Holds s lu ls us ss) (kmalloc : Kmalloc) (p : Proc) :
    ∃ s' ls', s.schedSleep kmalloc p = some s' ∧ s'.toTable = s.toTable ∧
      Holds s' lu ls' us (ss.orderedInsert s.before p) := by
  obtain ⟨nodes, sleeping, ls', heq, hi⟩ := processInsert_spec s.vruntime kmalloc hl.sleeping p
  have hframe (a : ℕ) (ha : a ∈ lu) : nodes.node a = s.nodes.node a :=
    hi.frame a (hl.unsched.live a ha) (hl.apart a ha)
  obtain ⟨hul, hus⟩ := hl.unsched.frame hframe
    fun a ha => (hi.live a).2 (Or.inl (hl.unsched.live a ha))
  refine ⟨{ s with nodes := nodes, sleeping := sleeping }, ls', ?_, rfl,
    ⟨hul, hi.list, ?_, hus.trans hl.us_eq, ?_⟩⟩
  · unfold Os.schedSleep
    rw [heq]
  · intro a ha hs
    rcases hi.nodes a hs with hs | hnew
    · exact hl.apart a ha hs
    · exact hnew (hl.unsched.live a ha)
  · rw [← hl.ss_eq]
    exact hi.procs_eq

theorem Holds.removeSleeping (hl : Holds s lu ls us ss) (hp : p ∈ ss) :
    ∃ s' ls', s.removeSleeping p = some s' ∧ s'.toTable = s.toTable ∧
      Holds s' lu ls' us (ss.erase p) := by
  obtain ⟨nodes, sleeping, ls', heq, hr, hps⟩ :=
    processRemove_spec hl.sleeping (hl.ss_eq.symm ▸ hp)
  have hframe (a : ℕ) (ha : a ∈ lu) : nodes.node a = s.nodes.node a :=
    hr.frame a (hl.apart a ha)
  obtain ⟨hul, hus⟩ := hl.unsched.frame hframe fun a ha =>
    (hr.live a).2 ⟨hl.unsched.live a ha, fun hs => absurd hs (hl.apart a ha)⟩
  refine ⟨{ s with nodes := nodes, sleeping := sleeping }, ls', ?_, rfl,
    ⟨hul, hr.list, fun a ha hs => hl.apart a ha (hr.nodes a hs), hus.trans hl.us_eq, ?_⟩⟩
  · unfold Os.removeSleeping
    rw [heq]
  · exact hps.trans (congrArg (List.erase · p) hl.ss_eq)

theorem Holds.schedGet (hl : Holds s lu ls us ss) :
    ∃ s' lu', s.schedGet = (us.head?, s') ∧ s'.toTable = s.toTable ∧
      Holds s' lu' ls us.tail ss := by
  obtain ⟨nodes, unsched, lu', heq, hr, hps⟩ := processRemoveLowest_spec hl.unsched
  have hframe (a : ℕ) (ha : a ∈ ls) : nodes.node a = s.nodes.node a :=
    hr.frame a fun hu => hl.apart a hu ha
  obtain ⟨hsl, hss⟩ := hl.sleeping.frame hframe fun a ha =>
    (hr.live a).2 ⟨hl.sleeping.live a ha, fun hu => absurd ha (hl.apart a hu)⟩
  refine ⟨{ s with nodes := nodes, unsched := unsched }, lu', ?_, rfl,
    ⟨hr.list, hsl, fun a ha => hl.apart a (hr.nodes a ha), ?_, hss.trans hl.ss_eq⟩⟩
  · unfold Os.schedGet
    rw [heq, hl.us_eq]
  · exact hps.trans (congrArg List.tail hl.us_eq)

/-! ## What a walk leaves asleep -/

/-- The time of a sleeper has come. -/
def Queues.due (q : Queues n) (time : Word) (p : Proc) : Bool := (q.proc p).sleepUntil < time

/-- What a walk leaves that passes over the head of the list. -/
def behindHead (due : Proc → Bool) : List Proc → List Proc
  | [] => []
  | head :: rest => head :: rest.filter fun p => !due p

/-- What a walk leaves that has passed some sleepers and waits to see the others. Once the first
of all is woken, it never looks at the new head. -/
def leaves (due : Proc → Bool) : List Proc → List Proc → List Proc
  | [], [] => []
  | [], p :: waiting => if due p then behindHead due waiting else behindHead due (p :: waiting)
  | head :: passed, waiting => behindHead due (head :: passed ++ waiting)

theorem Queues.wake_sleepUntil (q : Queues n) (target p : Proc) :
    ((q.wake target).proc p).sleepUntil = (q.proc p).sleepUntil :=
  Table.setProc_fixed q.toTable p target rfl

theorem Queues.wake_due (q : Queues n) (p : Proc) : (q.wake p).due time = q.due time := by
  funext p'
  exact congrArg (fun w : Word => decide (w < time)) (q.wake_sleepUntil p p')

section Leaves

variable {due : Proc → Bool} {passed waiting : List Proc}

theorem leaves_end (hpassed : ∀ p ∈ passed.tail, due p = false) :
    leaves due passed [] = passed := by
  cases passed with
  | nil => rfl
  | cons head passed =>
    rw [leaves, List.append_nil, behindHead]
    congr 1
    exact List.filter_eq_self.2 fun p hp => by simp [hpassed p hp]

theorem leaves_pass (hdue : due p = false) :
    leaves due (passed ++ [p]) waiting = leaves due passed (p :: waiting) := by
  cases passed with
  | nil => simp [leaves, hdue]
  | cons head passed => simp [leaves]

theorem passed_one_more (hpassed : ∀ p ∈ passed.tail, due p = false) (hdue : due p = false) :
    ∀ p' ∈ (passed ++ [p]).tail, due p' = false := by
  cases passed with
  | nil => simp
  | cons head passed =>
    intro p' hp'
    rcases List.mem_append.1 hp' with hp' | hp'
    · exact hpassed p' hp'
    · exact List.mem_singleton.1 hp' ▸ hdue

/-- Waking a sleeper: the walk starts again and passes over the head. -/
theorem leaves_wake (hdue : due p = true) (hnd : (passed ++ p :: waiting).Nodup) :
    behindHead due ((passed ++ p :: waiting).erase p) = leaves due passed (p :: waiting) := by
  cases passed with
  | nil => simp [leaves, hdue]
  | cons head passed =>
    have hhead : head ≠ p := by
      rintro rfl
      exact (List.nodup_cons.1 hnd).1 (List.mem_append_right _ List.mem_cons_self)
    have hrest : (passed ++ p :: waiting).Nodup := (List.nodup_cons.1 hnd).2
    simp only [List.cons_append, leaves]
    rw [List.erase_cons_tail (by simpa using hhead), behindHead, behindHead, hrest.erase_eq_filter,
      List.filter_filter]
    congr 1
    apply List.filter_congr
    intro p' _
    by_cases hp : p' = p
    · simp [hp, hdue]
    · simp [hp]

end Leaves

/-! ## The code refines the queues -/

/-- The lists in memory hold the queues. -/
structure Represents (s : Os n) (lu ls : List ℕ) (q : Queues n) : Prop where
  holds : Holds s lu ls q.us q.ss
  table : s.toTable = q.toTable

namespace Represents

variable (hr : Represents s lu ls q)
include hr

theorem mapTable (f : Table n → Table n) : Represents (s.mapTable f) lu ls (q.mapTable f) :=
  ⟨hr.holds.mapTable f, congrArg f hr.table⟩

theorem add (kmalloc : Kmalloc) (p : Proc) :
    ∃ s' lu', s.schedAdd kmalloc p = some s' ∧ Represents s' lu' ls (q.add p) := by
  obtain ⟨s', lu', heq, ht, hl⟩ := hr.holds.schedAdd kmalloc p
  rw [hr.table] at hl
  exact ⟨s', lu', heq, hl, ht.trans hr.table⟩

theorem sleep (kmalloc : Kmalloc) (p : Proc) :
    ∃ s' ls', s.schedSleep kmalloc p = some s' ∧ Represents s' lu ls' (q.sleep p) := by
  obtain ⟨s', ls', heq, ht, hl⟩ := hr.holds.schedSleep kmalloc p
  rw [hr.table] at hl
  exact ⟨s', ls', heq, hl, ht.trans hr.table⟩

theorem park (kmalloc : Kmalloc) (p : Proc) (h : Fin n) :
    ∃ s' lu' ls', s.park kmalloc p h = some s' ∧ Represents s' lu' ls' (q.park p h) := by
  unfold Os.park Queues.park
  rw [hr.table]
  by_cases ha : (q.proc p).processState = .asyncFree
  · rw [if_pos ha, if_pos ha]
    exact ⟨_, lu, ls, rfl, hr.mapTable _⟩
  · rw [if_neg ha, if_neg ha]
    by_cases hs : (q.proc p).processState = .sleeping
    · rw [if_pos hs, if_pos hs]
      obtain ⟨s', ls', heq, hr'⟩ := hr.sleep kmalloc p
      exact ⟨s', lu, ls', heq, hr'⟩
    · rw [if_neg hs, if_neg hs]
      by_cases hpi : p = q.idle h
      · rw [if_pos hpi, if_pos hpi]
        exact ⟨s, lu, ls, rfl, hr⟩
      · rw [if_neg hpi, if_neg hpi]
        obtain ⟨s', lu', heq, hr'⟩ := hr.add kmalloc p
        exact ⟨s', lu', ls, heq, hr'⟩

theorem dispatch (h : Fin n) : ∃ s' lu', s.schedGet = (q.us.head?, s') ∧
    Represents (s'.mapTable (·.processSpawn (q.us.head?.getD (s'.idle h)) h)) lu' ls
      (q.dispatch h) := by
  obtain ⟨s', lu', heq, ht, hl⟩ := hr.holds.schedGet
  refine ⟨s', lu', heq, hl.mapTable _, ?_⟩
  change s'.toTable.processSpawn _ h = _
  rw [ht, hr.table]
  rfl

/-- The first sleeper of the rest of the walk is woken. -/
theorem wake (kmalloc : Kmalloc) (hp : p ∈ q.ss) : ∃ s₁ s₂ lu' ls',
    (s.mapTable (·.setState p .running)).removeSleeping p = some s₁ ∧
      s₁.schedAdd kmalloc p = some s₂ ∧ Represents s₂ lu' ls' (q.wake p) := by
  obtain ⟨s₁, ls', hrem, ht, hl⟩ := (hr.holds.mapTable (·.setState p .running)).removeSleeping hp
  have hr₁ : Represents s₁ lu ls'
      { q.toTable.setState p .running, q with ss := q.ss.erase p } :=
    ⟨hl, ht.trans (congrArg (·.setState p .running) hr.table)⟩
  obtain ⟨s₂, lu', hadd, hr₂⟩ := hr₁.add kmalloc p
  exact ⟨s₁, s₂, lu', ls', hrem, hadd, hr₂⟩

end Represents

/-- The loop ends, and if some sleeper from `post` on is due it wakes one. The fuel bounds the
rounds: at most one pass for each sleeper. -/
theorem walk_refines (kmalloc : Kmalloc) (time : Word) (bound fuel : ℕ) (pre post : List ℕ)
    (hr : Represents s lu (pre ++ post) q) (hb : q.ss.length ≤ bound)
    (hf : q.ss.length * (bound + 1) + post.length < fuel) :
    ∃ s' lu' ls' ps r, s.walk kmalloc time fuel post.head? = some s' ∧
      Represents s' lu' ls' r ∧ Wakes time q ps r ∧
      ((∃ p ∈ procs s.nodes post, (q.proc p).sleepUntil < time) → ps ≠ []) ∧
      (q.ss.Nodup → (∀ p ∈ (procs s.nodes pre).tail, q.due time p = false) →
        r.ss = leaves (q.due time) (procs s.nodes pre) (procs s.nodes post)) := by
  induction fuel generalizing s lu q pre post with
  | zero => exact absurd hf (Nat.not_lt_zero _)
  | succ fuel ih =>
    have hss : q.ss = procs s.nodes pre ++ procs s.nodes post := by
      rw [← hr.holds.ss_eq, procs_append]
    cases post with
    | nil =>
      refine ⟨s, lu, _, [], q, rfl, hr, .done q, by simp, fun _ hpre => ?_⟩
      exact (hss.trans (List.append_nil _)).trans (leaves_end hpre).symm
    | cons pln post =>
      have hnext : (s.nodes.node pln).next = post.head? := hr.holds.sleeping.next_eq pre post
      have htarget : (s.nodes.node pln).p ∈ q.ss := by
        rw [hss, procs_cons]
        exact List.mem_append_right _ List.mem_cons_self
      have hpassed : procs s.nodes (pre ++ [pln]) = procs s.nodes pre ++ [(s.nodes.node pln).p] :=
        procs_append ..
      simp only [List.head?_cons, Os.walk, procs_cons, hr.table] at hss ⊢
      generalize (s.nodes.node pln).p = target at htarget hss hpassed
      by_cases hw : (q.proc target).sleepUntil < time
      · obtain ⟨s₁, s₂, lu₂, ls₂, hrem, hadd, hr₂⟩ := hr.wake kmalloc htarget
        have hlen : (q.ss.erase target).length + 1 = q.ss.length :=
          List.length_erase_add_one htarget
        have hhead := hr₂.holds.sleeping.head_eq
        have hdue : q.due time target = true := decide_eq_true hw
        have hleft (hnd : q.ss.Nodup) := leaves_wake hdue (hss ▸ hnd)
        rw [← hss] at hleft
        simp only [if_pos hw, hrem, hadd]
        cases ls₂ with
        | nil =>
          rw [hhead]
          have hempty : q.ss.erase target = [] := hr₂.holds.ss_eq.symm
          refine ⟨s₂, lu₂, [], [target], _, rfl, hr₂, .wake htarget hw (.done _), by simp, ?_⟩
          intro hnd _
          rw [← hleft hnd, hempty]
          exact hempty
        | cons head rest =>
          rw [hhead, List.head?_cons]
          have hrest : (q.ss.erase target).length = rest.length + 1 := hr₂.holds.length_eq
          simp only [hr₂.holds.sleeping.next_eq [] rest]
          rw [← hlen, Nat.add_one_mul] at hf
          obtain ⟨s', lu', ls', ps, r, heq, hr', hwakes, -, hleaves⟩ :=
            ih [head] rest hr₂ (show (q.ss.erase target).length ≤ bound by omega)
              (show (q.ss.erase target).length * (bound + 1) + rest.length < fuel by omega)
          refine ⟨s', lu', ls', target :: ps, r, heq, hr', .wake htarget hw hwakes, by simp, ?_⟩
          intro hnd _
          rw [hleaves (hnd.erase target) (by simp), q.wake_due, ← hleft hnd]
          exact congrArg (behindHead (q.due time)) hr₂.holds.ss_eq
      · rw [if_neg hw, hnext]
        rw [← List.singleton_append, ← List.append_assoc] at hr
        obtain ⟨s', lu', ls', ps, r, heq, hr', hwakes, hdue, hleaves⟩ :=
          ih _ _ hr hb (by simp only [List.length_cons] at hf; omega)
        refine ⟨s', lu', ls', ps, r, heq, hr', hwakes, ?_, fun hnd hpre => ?_⟩
        · rintro ⟨p, hp, hpd⟩
          rcases List.mem_cons.1 hp with rfl | hp
          · exact absurd hpd hw
          · exact hdue ⟨p, hp, hpd⟩
        · rw [hpassed] at hleaves
          have hnot : q.due time target = false := decide_eq_false hw
          rw [← leaves_pass hnot]
          exact hleaves hnd (passed_one_more hpre hnot)

theorem schedWalkSleepingList_refines (kmalloc : Kmalloc) (time : Word)
    (hr : Represents s lu ls q) :
    ∃ s' lu' ls' ps r, s.schedWalkSleepingList kmalloc time = some s' ∧
      Represents s' lu' ls' r ∧ Wakes time q ps r ∧
      ((∃ p ∈ q.ss, (q.proc p).sleepUntil < time) → ps ≠ []) ∧
      (q.ss.Nodup → r.ss = leaves (q.due time) [] q.ss) := by
  have hlen := hr.holds.sleeping.length_le
  have hss := hr.holds.length_eq
  have hmul := Nat.mul_le_mul_right (s.nodes.live.card + 1) (hss ▸ hlen)
  unfold Os.schedWalkSleepingList
  rw [hr.holds.sleeping.head_eq]
  obtain ⟨s', lu', ls', ps, r, heq, hr', hwakes, hdue, hleaves⟩ :=
    walk_refines kmalloc time s.nodes.live.card
      ((s.nodes.live.card + 1) * (s.nodes.live.card + 1)) [] ls hr (hss ▸ hlen)
      (by rw [Nat.add_one_mul s.nodes.live.card]; omega)
  rw [hr.holds.ss_eq] at hdue hleaves
  exact ⟨s', lu', ls', ps, r, heq, hr', hwakes, hdue, fun hnd => hleaves hnd (by simp [procs])⟩

/-- `sched_invoke` is a walk and a switch. -/
theorem schedInvoke_refines (kmalloc : Kmalloc) (time : Word) (hr : Represents s lu ls q)
    (h : Fin n) : ∃ s' lu' ls' ps r, s.schedInvoke kmalloc time h = some s' ∧
      Wakes time q ps r ∧ ((∃ p ∈ q.ss, (q.proc p).sleepUntil < time) → ps ≠ []) ∧
      Represents s' lu' ls' (r.switch h) := by
  obtain ⟨s₁, lu₁, ls₁, ps, r, hwalk, hr₁, hwakes, hdue, -⟩ :=
    schedWalkSleepingList_refines kmalloc time hr
  have hp : (s₁.current h).getD (s₁.idle h) = r.onHart h := by
    rw [hr₁.table]
    rfl
  obtain ⟨s₂, lu₂, ls₂, hpark, hr₂⟩ :=
    (hr₁.mapTable (·.detach (r.onHart h) h)).park kmalloc (r.onHart h) h
  obtain ⟨s₃, lu₃, hget, hr₃⟩ := hr₂.dispatch h
  refine ⟨_, lu₃, ls₂, ps, r, ?_, hwakes, hdue, hr₃⟩
  unfold Os.schedInvoke
  simp only [hwalk, hp, hpark, hget]

/-! ## Runs -/

/-- The lists in memory are well formed, every process has its place, and exactly the
processes that called exit have been freed. -/
structure Invariant (s : Os n) : Prop where
  placed : ∃ lu ls us ss, Holds s lu ls us ss ∧ Placed s.toTable us ss none
  freed_exited : s.freed = s.exited

theorem initial_invariant {idle : Fin n → Proc} (hidle : Function.Injective idle) :
    Invariant (initial idle) := by
  have hon (p : Proc) (h : Fin n) :
      ((initial idle).proc p).onHart = some h ↔ h.val ≠ 0 ∧ idle h = p := by
    change (List.finRange n).find? _ = some h ↔ _
    constructor
    · intro hf
      simpa using List.find?_some hf
    · intro hp
      obtain ⟨k, hk⟩ := Option.isSome_iff_exists.1
        (List.find?_isSome (p := fun k : Fin n => decide (k.val ≠ 0 ∧ idle k = p)).2
          ⟨h, List.mem_finRange h, by simpa using hp⟩)
      have hkp : k.val ≠ 0 ∧ idle k = p := by simpa using List.find?_some hk
      rw [hk, hidle (hkp.2.trans hp.2.symm)]
  have hempty : IsList (initial idle).nodes none [] :=
    ⟨fun a ha => absurd ha List.not_mem_nil, none, by simp,
      List.isChain_pair.2 ⟨rfl, rfl⟩⟩
  refine ⟨⟨[], [], [], [], ⟨hempty, hempty, by simp, rfl, rfl⟩, ?_⟩, rfl⟩
  constructor
  · intro p h
    rw [hon]
    change (if h.val = 0 then none else some (idle h)) = some p ↔ _
    by_cases h0 : h.val = 0 <;> simp [h0]
  · exact hidle
  · intro h k hk
    exact hidle ((hon _ k).1 hk).2
  · exact fun h => (⟨by decide, by decide⟩ : Runnable .uninit)
  · exact fun p hp => absurd hp List.not_mem_nil
  · exact List.nodup_nil
  · exact List.nodup_nil
  · exact fun p hp => absurd hp List.not_mem_nil
  · exact fun p hp => absurd hp List.not_mem_nil
  · intro p h hc _ hpi
    change (if h.val = 0 then none else some (idle h)) = some p at hc
    by_cases h0 : h.val = 0
    · rw [if_pos h0] at hc
      cases hc
    · rw [if_neg h0] at hc
      exact absurd (Option.some.inj hc).symm hpi
  · exact fun p hp => absurd hp List.not_mem_nil
  · exact fun p hp => absurd hp List.not_mem_nil
  · exact List.nodup_nil

theorem Placed.hart_state (hp : Placed t us ss none) :
    Runnable (t.proc ((t.current h).getD (t.idle h))).processState := by
  cases hc : t.current h with
  | none => exact hp.idle_state h
  | some q =>
    by_cases hq : q = t.idle h
    · exact hq ▸ hp.idle_state h
    · exact (hp.running q h hc (by simp) hq).2

theorem Placed.create (hp : Placed t us ss none) (hc : p ∉ t.created) (hi : ∀ h, p ≠ t.idle h) :
    Detached { t.setProc p (newProcess n) with created := p :: t.created } us ss p := by
  have hpu : p ∉ us := fun hm => hc (hp.unsched p hm).1
  have hps : p ∉ ss := fun hm => hc (hp.sleeping p hm).1
  have hpf : p ∉ t.freed := fun hm => hc (hp.freed p hm).1
  have hcur (k : Fin n) : t.current k ≠ some p := by
    intro hk
    exact hc (hp.running p k hk (by simp) (hi k)).1
  have hoff : (t.proc p).onHart = none := by
    cases ho : (t.proc p).onHart with
    | none => rfl
    | some k => exact absurd ((hp.current p k).2 ho) (hcur k)
  have hproc (q : Proc) (hq : q ≠ p) : (t.setProc p (newProcess n)).proc q = t.proc q := by
    rw [Table.setProc_proc, if_neg hq]
  have hon (q : Proc) : ((t.setProc p (newProcess n)).proc q).onHart = (t.proc q).onHart := by
    by_cases hq : q = p
    · rw [Table.setProc_proc, if_pos hq, hq, hoff]
      rfl
    · rw [hproc q hq]
  refine ⟨?_, (hon p).trans hoff, hpu, hps, hpf⟩
  constructor
  · intro q k
    change t.current k = some q ↔ ((t.setProc p (newProcess n)).proc q).onHart = some k
    rw [hon]
    exact hp.current q k
  · exact hp.idle_injective
  · intro j k
    change ((t.setProc p (newProcess n)).proc (t.idle j)).onHart = some k → k = j
    rw [hon]
    exact hp.idle_hart j k
  · intro j
    change Runnable ((t.setProc p (newProcess n)).proc (t.idle j)).processState
    rw [hproc _ (hi j).symm]
    exact hp.idle_state j
  · intro q hq
    rcases List.mem_cons.1 hq with rfl | hq
    · exact hi
    · exact hp.not_idle q hq
  · exact hp.unsched_nodup
  · exact hp.sleeping_nodup
  · intro q hq
    obtain ⟨hqc, hq'⟩ := hp.unsched q hq
    refine ⟨List.mem_cons_of_mem _ hqc, ?_⟩
    change ((t.setProc p (newProcess n)).proc q).onHart = none ∧
      Runnable ((t.setProc p (newProcess n)).proc q).processState
    rw [hproc q (fun e => hpu (e ▸ hq))]
    exact hq'
  · intro q hq
    obtain ⟨hqc, hq'⟩ := hp.sleeping q hq
    refine ⟨List.mem_cons_of_mem _ hqc, ?_⟩
    change ((t.setProc p (newProcess n)).proc q).onHart = none ∧
      ((t.setProc p (newProcess n)).proc q).processState = .sleeping
    rw [hproc q (fun e => hps (e ▸ hq))]
    exact hq'
  · intro q k hq hqo hqi
    obtain ⟨hqc, hst⟩ := hp.running q k hq (by simp) hqi
    refine ⟨List.mem_cons_of_mem _ hqc, ?_⟩
    change Runnable ((t.setProc p (newProcess n)).proc q).processState
    rw [hproc q (fun e => hqo (congrArg some e))]
    exact hst
  · intro q hq hf hqo
    exact hp.placed q ((List.mem_cons.1 hq).resolve_left fun e => hqo (congrArg some e)) hf
      (by simp)
  · intro q hq
    obtain ⟨hqc, hq', hqu, hqs⟩ := hp.freed q hq
    refine ⟨List.mem_cons_of_mem _ hqc, ?_, hqu, hqs⟩
    exact (hon q).trans hq'
  · exact hp.freed_nodup

/-- The process on the hart may be parked: only one that made a system call has a state of its
own. -/
structure Ready (t : Table n) (us ss : List Proc) (h : Fin n) : Prop where
  placed : Placed t us ss (some ((t.current h).getD (t.idle h)))
  created (p : Proc) : t.current h = some p → p ≠ t.idle h → p ∈ t.created
  state : Runnable (t.proc ((t.current h).getD (t.idle h))).processState ∨
    (t.current h).getD (t.idle h) ≠ t.idle h

/-- The walk and the parking put every process in its place, and free the process that was on
the hart if it called exit. -/
theorem Ready.vacate (hq : Ready q.toTable q.us q.ss h) (hw : Wakes time q ps r) :
    Placed (r.vacate h).toTable (r.vacate h).us (r.vacate h).ss none ∧
      (r.vacate h).current h = none ∧ (r.vacate h).exited = q.exited ∧
      (r.vacate h).freed = if (q.proc (q.onHart h)).processState = .asyncFree
        then q.onHart h :: q.freed else q.freed := by
  obtain ⟨hp, hcr, hst⟩ := hq
  have hps : q.onHart h ∉ q.ss := (hp.on_hart_or_idle hcr).2.1
  have hp' := hw.placed hp fun p hpss e => hps ((Option.some.inj e : p = q.onHart h) ▸ hpss)
  have hw := hw.walked
  have hon : r.onHart h = q.onHart h := by
    unfold Queues.onHart
    rw [hw.current, hw.idle]
  have hproc : r.proc (q.onHart h) = q.proc (q.onHart h) := hw.proc _ hps
  change Placed r.toTable r.us r.ss (some (q.onHart h)) at hp'
  rw [← hon] at hp'
  obtain ⟨hp'', hcur, hex, hfr⟩ := vacate_placed hp'
    (by rw [hw.current, hw.idle, hw.created]; exact hcr)
    (by rw [hon, hproc, hw.idle]; exact hst)
  refine ⟨hp'', hcur, hex.trans hw.exited, hfr.trans ?_⟩
  rw [hon, hproc, hw.freed]

/-- What an event does to the table before it calls the scheduler. -/
def Table.enter (t : Table n) : Event n → Table n
  | .add _ p => { t.setProc p (newProcess n) with created := p :: t.created }
  | .timer _ _ _ => t
  | .sleep _ curtime quantums _ h =>
    let p := (t.current h).getD (t.idle h)
    t.setProc p
      { t.proc p with
        processState := .sleeping
        sleepUntil := curtime + quantums * PROCESS_DEFAULT_CONTEXT_TIMER }
  | .exit _ _ h =>
    let p := (t.current h).getD (t.idle h)
    { t.setState p .asyncFree with exited := p :: t.exited }

/-- The call of `sched_invoke` an event ends with. -/
def Event.invokes : Event n → Option (Kmalloc × Word × Fin n)
  | .add _ _ => none
  | .timer kmalloc time h => some (kmalloc, time, h)
  | .sleep kmalloc _ _ time h => some (kmalloc, time, h)
  | .exit kmalloc time h => some (kmalloc, time, h)

variable {kmalloc : Kmalloc} {e : Event n}

theorem next_invokes (hi : e.invokes = some (kmalloc, time, h)) :
    next s e = (s.mapTable (·.enter e)).schedInvoke kmalloc time h := by
  cases e with
  | add k p => cases hi
  | timer k t h' =>
    cases hi
    rfl
  | sleep k c a t h' =>
    cases hi
    rfl
  | exit k t h' =>
    cases hi
    rfl

theorem Placed.ready (hp : Placed s.toTable us ss none) (he : Enabled s e)
    (hi : e.invokes = some (kmalloc, time, h)) : Ready (s.toTable.enter e) us ss h := by
  have hcalled (hc : s.current h ≠ none ∧ s.current h ≠ some (s.idle h)) :
      ∃ p, s.current h = some p ∧ p ≠ s.idle h ∧ p ∈ s.created := by
    obtain ⟨p, hcur⟩ := Option.ne_none_iff_exists'.1 hc.1
    have hpi : p ≠ s.idle h := fun e => hc.2 (hcur.trans (congrArg some e))
    exact ⟨p, hcur, hpi, (hp.running p h hcur (by simp) hpi).1⟩
  cases e with
  | add k p => cases hi
  | timer k t h' =>
    cases hi
    exact ⟨hp.weaken _, fun p hc hpi => (hp.running p h hc (by simp) hpi).1,
      Or.inl hp.hart_state⟩
  | sleep k c a t h' =>
    cases hi
    obtain ⟨p, hc, hpi, hcr⟩ := hcalled he
    have hon : (s.current h).getD (s.idle h) = p := by rw [hc]; rfl
    refine ⟨?_, fun r hr _ => Option.some.inj (hc.symm.trans hr) ▸ hcr, Or.inr (hon ▸ hpi)⟩
    change Placed (s.toTable.setProc ((s.current h).getD (s.idle h)) _) us ss
      (some ((s.current h).getD (s.idle h)))
    rw [hon]
    exact hp.changeState hc hpi rfl
  | exit k t h' =>
    cases hi
    obtain ⟨p, hc, hpi, hcr⟩ := hcalled he
    have hon : (s.current h).getD (s.idle h) = p := by rw [hc]; rfl
    refine ⟨?_, fun r hr _ => Option.some.inj (hc.symm.trans hr) ▸ hcr, Or.inr (hon ▸ hpi)⟩
    change Placed { s.toTable.setState ((s.current h).getD (s.idle h)) .asyncFree with
      exited := (s.current h).getD (s.idle h) :: s.exited } us ss
      (some ((s.current h).getD (s.idle h)))
    rw [hon]
    exact { hp.changeState hc hpi (v := { s.proc p with processState := .asyncFree }) rfl with }

/-- Exactly a process that calls exit is recorded and left to be freed. -/
theorem Placed.enter_exited (hp : Placed s.toTable us ss none)
    (hi : e.invokes = some (kmalloc, time, h)) :
    let t := s.toTable.enter e
    t.freed = s.freed ∧ t.exited
      = if (t.proc ((t.current h).getD (t.idle h))).processState = .asyncFree
        then (t.current h).getD (t.idle h) :: s.exited else s.exited := by
  cases e with
  | add k p => cases hi
  | timer k t h' =>
    cases hi
    exact ⟨rfl, (if_neg hp.hart_state.2).symm⟩
  | sleep k c a t h' =>
    cases hi
    refine ⟨rfl, (if_neg ?_).symm⟩
    change ((s.toTable.setProc ((s.current h).getD (s.idle h)) _).proc
      ((s.current h).getD (s.idle h))).processState ≠ _
    rw [Table.setProc_proc, if_pos rfl]
    exact nofun
  | exit k t h' =>
    cases hi
    refine ⟨rfl, (if_pos ?_).symm⟩
    change ((s.toTable.setState ((s.current h).getD (s.idle h)) _).proc
      ((s.current h).getD (s.idle h))).processState = _
    rw [Table.setState_state, if_pos rfl]

/-- The lists hold the processes `us` and `ss`, and every process has its place. -/
structure Queued (s : Os n) (us ss : List Proc) : Prop where
  holds : ∃ lu ls, Holds s lu ls us ss
  placed : Placed s.toTable us ss none

/-- A step that calls the scheduler is a walk, a parking and a dispatch. -/
theorem Queued.invoke (hq : Queued s us ss) (he : Enabled s e)
    (hi : e.invokes = some (kmalloc, time, h)) : ∃ u ps r, next s e = some u ∧
      Wakes time ⟨s.toTable.enter e, us, ss⟩ ps r ∧
      ((∃ p ∈ ss, ((s.toTable.enter e).proc p).sleepUntil < time) → ps ≠ []) ∧
      u.toTable = (r.switch h).toTable ∧ Queued u (r.switch h).us (r.switch h).ss := by
  obtain ⟨⟨lu, ls, hl⟩, hp⟩ := hq
  have hr : Represents s lu ls ⟨s.toTable, us, ss⟩ := ⟨hl, rfl⟩
  obtain ⟨u, lu', ls', ps, r, heq, hw, hdue, hr'⟩ :=
    schedInvoke_refines kmalloc time (hr.mapTable (·.enter e)) h
  obtain ⟨hp', hcur, -⟩ := (hp.ready he hi).vacate hw
  exact ⟨u, ps, r, (next_invokes hi).trans heq, hw, hdue, hr'.table,
    ⟨lu', ls', hr'.holds⟩, hr'.table ▸ dispatch_placed hp' hcur⟩

/-- A new process is put in the runnable list. -/
theorem Queued.add (hq : Queued s us ss) {p : Proc} (he : Enabled s (.add kmalloc p)) :
    ∃ u, next s (.add kmalloc p) = some u ∧ u.toTable = s.toTable.enter (.add kmalloc p) ∧
      Queued u (us.orderedInsert (s.toTable.enter (.add kmalloc p)).before p) ss := by
  obtain ⟨⟨lu, ls, hl⟩, hp⟩ := hq
  obtain ⟨u, lu', heq, ht, hl'⟩ := (hl.mapTable (·.enter (.add kmalloc p))).schedAdd kmalloc p
  refine ⟨u, heq, ht, ⟨lu', ls, hl'⟩, ?_⟩
  rw [ht]
  refine (hp.create he.1 he.2).add List.mem_cons_self ?_ (List.perm_orderedInsert ..)
  change Runnable ((s.toTable.setProc p (newProcess n)).proc p).processState
  rw [Table.setProc_proc, if_pos rfl]
  exact (⟨by decide, by decide⟩ : Runnable .uninit)

theorem Event.invokes_none (hi : e.invokes = none) : ∃ kmalloc p, e = .add kmalloc p := by
  cases e with
  | add kmalloc p => exact ⟨kmalloc, p, rfl⟩
  | timer | sleep | exit => cases hi

/-- An event that is enabled can be processed, and keeps the invariant. -/
theorem next_spec (hs : Invariant s) (he : Enabled s e) :
    ∃ s', next s e = some s' ∧ Invariant s' := by
  obtain ⟨⟨lu, ls, us, ss, hl, hp⟩, hfe⟩ := hs
  have hq : Queued s us ss := ⟨⟨lu, ls, hl⟩, hp⟩
  cases hi : e.invokes with
  | none =>
    obtain ⟨kmalloc, p, rfl⟩ := Event.invokes_none hi
    obtain ⟨u, hu, ht, ⟨lu', ls', hl'⟩, hp'⟩ := hq.add he
    exact ⟨u, hu, ⟨lu', ls', _, ss, hl', hp'⟩, by rw [ht]; exact hfe⟩
  | some call =>
    obtain ⟨kmalloc, time, h⟩ := call
    obtain ⟨u, ps, r, hu, hw, -, ht, ⟨lu', ls', hl'⟩, hp'⟩ := hq.invoke he hi
    obtain ⟨-, -, hex, hfr⟩ := (hp.ready he hi).vacate (q := ⟨_, us, ss⟩) hw
    obtain ⟨hfreed, hexited⟩ := hp.enter_exited hi
    refine ⟨u, hu, ⟨lu', ls', _, _, hl', hp'⟩, ?_⟩
    rw [ht]
    change (r.vacate h).freed = (r.vacate h).exited
    rw [hfr, hex]
    change (if _ then _ :: (s.toTable.enter e).freed else (s.toTable.enter e).freed) = _
    rw [hfreed, hfe]
    exact hexited.symm

theorem reachable_invariant {idle : Fin n → Proc} (hidle : Function.Injective idle) {s : Os n}
    (hrun : Execution Step (initial idle) s) : Invariant s := by
  refine hrun.invariant ?_ (initial_invariant hidle)
  rintro s e t hs ⟨he, heq⟩
  obtain ⟨s', heq', hs'⟩ := next_spec hs he
  exact Option.some.inj (heq'.symm.trans heq) ▸ hs'

/-! ## The histories over one step -/

theorem schedAdd_toTable {kmalloc : Kmalloc} {s u : Os n} (hu : s.schedAdd kmalloc p = some u) :
    u.toTable = s.toTable := by
  unfold Os.schedAdd at hu
  split at hu
  · cases hu
  · cases hu
    rfl

theorem schedSleep_toTable {kmalloc : Kmalloc} {s u : Os n}
    (hu : s.schedSleep kmalloc p = some u) : u.toTable = s.toTable := by
  unfold Os.schedSleep at hu
  split at hu
  · cases hu
  · cases hu
    rfl

theorem removeSleeping_toTable {s u : Os n} (hu : s.removeSleeping p = some u) :
    u.toTable = s.toTable := by
  unfold Os.removeSleeping at hu
  split at hu
  · cases hu
  · cases hu
    rfl

/-- Nothing is created, and what was freed stays freed. -/
structure Grows (t t' : Table n) : Prop where
  created : t'.created = t.created
  idle : t'.idle = t.idle
  freed (q : Proc) : q ∈ t.freed → q ∈ t'.freed

theorem Grows.trans {t t' t'' : Table n} (h : Grows t t') (k : Grows t' t'') : Grows t t'' :=
  ⟨k.created.trans h.created, k.idle.trans h.idle, fun q hq => k.freed q (h.freed q hq)⟩

theorem Grows.of_eq {t t' : Table n} (h : t' = t) : Grows t t' := by
  subst h
  exact ⟨rfl, rfl, fun _ => id⟩

theorem walk_grows {kmalloc : Kmalloc} {time : Word} {fuel : ℕ} {s u : Os n} {pln : Option ℕ}
    (hu : s.walk kmalloc time fuel pln = some u) : Grows s.toTable u.toTable := by
  induction fuel generalizing s pln with
  | zero => cases hu
  | succ fuel ih =>
    cases pln with
    | none =>
      cases hu
      exact .of_eq rfl
    | some pln =>
      unfold Os.walk at hu
      simp only at hu
      split at hu
      · split at hu
        · cases hu
        · next hr =>
          have hwake : Grows s.toTable (s.toTable.setState (s.nodes.node pln).p .running) :=
            ⟨rfl, rfl, fun _ => id⟩
          have hrem := hwake.trans (.of_eq (removeSleeping_toTable hr))
          split at hu
          · cases hu
          · next ha =>
            have hadd := hrem.trans (.of_eq (schedAdd_toTable ha))
            split at hu
            · cases hu
              exact hadd
            · exact hadd.trans (ih hu)
      · exact ih hu

theorem park_grows {kmalloc : Kmalloc} {s u : Os n} (hu : s.park kmalloc p h = some u) :
    Grows s.toTable u.toTable := by
  unfold Os.park at hu
  split at hu
  · cases hu
    show Grows s.toTable (s.toTable.processFree p)
    unfold Table.processFree
    split
    · exact ⟨rfl, rfl, fun _ => id⟩
    · exact ⟨rfl, rfl, fun _ => List.mem_cons_of_mem _⟩
  · split at hu
    · exact .of_eq (schedSleep_toTable hu)
    · split at hu
      · cases hu
        exact .of_eq rfl
      · exact .of_eq (schedAdd_toTable hu)

theorem schedInvoke_grows {kmalloc : Kmalloc} {time : Word} {s u : Os n}
    (hu : s.schedInvoke kmalloc time h = some u) : Grows s.toTable u.toTable := by
  unfold Os.schedInvoke at hu
  split at hu
  · cases hu
  · next w hw =>
    have hwalk : Grows s.toTable w.toTable := walk_grows hw
    simp only at hu
    split at hu
    · cases hu
    · next k hk =>
      have hpark : Grows w.toTable k.toTable := by
        obtain ⟨hc, hi, hf⟩ := park_grows hk
        exact ⟨hc, hi, hf⟩
      cases hu
      exact (hwalk.trans hpark).trans ⟨rfl, rfl, fun _ => id⟩

/-- The processes an event creates. -/
def Event.creates : Event n → List Proc
  | .add _ p => [p]
  | _ => []

theorem next_grows {s u : Os n} {e : Event n} (hu : next s e = some u) :
    Grows { s.toTable with created := e.creates ++ s.created } u.toTable := by
  cases e with
  | add kmalloc p =>
    have ht := schedAdd_toTable hu
    exact ⟨by rw [ht]; rfl, by rw [ht]; rfl, fun q hq => by rw [ht]; exact hq⟩
  | timer kmalloc time h =>
    obtain ⟨hc, hi, hf⟩ := schedInvoke_grows hu
    exact ⟨hc, hi, hf⟩
  | sleep kmalloc curtime quantums time h =>
    obtain ⟨hc, hi, hf⟩ := schedInvoke_grows hu
    exact ⟨hc, hi, hf⟩
  | exit kmalloc time h =>
    obtain ⟨hc, hi, hf⟩ := schedInvoke_grows hu
    exact ⟨hc, hi, hf⟩

theorem next_add_freed {s u : Os n} {kmalloc : Kmalloc} (hu : next s (.add kmalloc p) = some u) :
    u.freed = s.freed := by
  rw [schedAdd_toTable hu]
  rfl

theorem Invariant.not_freed {s : Os n} (hs : Invariant s) (hc : p ∉ s.created) : p ∉ s.freed := by
  obtain ⟨⟨_, _, _, _, -, hp⟩, -⟩ := hs
  exact fun hf => hc (hp.freed p hf).1

/-- Where every process is, `us` and `ss` being the processes of the two lists. -/
structure OnePlace (s : Os n) (us ss : List Proc) : Prop where
  one_place (p : Proc) : p ∈ s.created → p ∉ s.freed →
    ((∃! h, s.current h = some p) ∧ us.count p = 0 ∧ ss.count p = 0) ∨
    ((∀ h, s.current h ≠ some p) ∧ us.count p = 1 ∧ ss.count p = 0) ∨
    ((∀ h, s.current h ≠ some p) ∧ us.count p = 0 ∧ ss.count p = 1)
  on_hart (p : Proc) (h : Fin n) : (s.proc p).onHart = some h ↔ s.current h = some p
  unsched_state (p : Proc) : p ∈ us →
    (s.proc p).processState ≠ .sleeping ∧ (s.proc p).processState ≠ .asyncFree
  sleeping_state (p : Proc) : p ∈ ss → (s.proc p).processState = .sleeping
  idle_place (h : Fin n) : s.idle h ∉ us ∧ s.idle h ∉ ss ∧ ∀ k, s.current k = some (s.idle h) → k = h
  freed_place (p : Proc) : p ∈ s.freed → p ∉ us ∧ p ∉ ss ∧ ∀ h, s.current h ≠ some p
  freed_once : s.freed.Nodup
  freed_exited : s.freed = s.exited

theorem Invariant.onePlace (hs : Invariant s) : ∃ lu ls, IsList s.nodes s.unsched lu ∧
    IsList s.nodes s.sleeping ls ∧ OnePlace s (procs s.nodes lu) (procs s.nodes ls) := by
  obtain ⟨⟨lu, ls, us, ss, hl, hp⟩, hfe⟩ := hs
  refine ⟨lu, ls, hl.unsched, hl.sleeping, ?_⟩
  rw [hl.us_eq, hl.ss_eq]
  have hoff {p : Proc} (ho : (s.proc p).onHart = none) (h : Fin n) : s.current h ≠ some p := by
    intro hc
    rw [(hp.current p h).1 hc] at ho
    cases ho
  constructor
  · intro p hc hf
    rcases hp.placed p hc hf (by simp) with hu | hs | ⟨h, hh⟩
    · have hps : p ∉ ss := fun hs => (hp.unsched p hu).2.2.1 (hp.sleeping p hs).2.2
      exact Or.inr (Or.inl ⟨hoff (hp.unsched p hu).2.1,
        List.count_eq_one_of_mem hp.unsched_nodup hu, List.count_eq_zero_of_not_mem hps⟩)
    · have hpu : p ∉ us := fun hu => (hp.unsched p hu).2.2.1 (hp.sleeping p hs).2.2
      exact Or.inr (Or.inr ⟨hoff (hp.sleeping p hs).2.1,
        List.count_eq_zero_of_not_mem hpu, List.count_eq_one_of_mem hp.sleeping_nodup hs⟩)
    · obtain ⟨hpu, hps, -⟩ := hp.on_hart_not_listed hh
      exact Or.inl ⟨⟨h, hh, fun k hk => hp.current_unique hk hh⟩,
        List.count_eq_zero_of_not_mem hpu, List.count_eq_zero_of_not_mem hps⟩
  · exact fun p h => (hp.current p h).symm
  · exact fun p hu => (hp.unsched p hu).2.2
  · exact fun p hs => (hp.sleeping p hs).2.2
  · intro h
    obtain ⟨hu, hs⟩ := hp.idle_not_listed h
    exact ⟨hu, hs, fun k hk => hp.idle_hart h k ((hp.current _ k).1 hk)⟩
  · intro p hf
    obtain ⟨-, ho, hu, hs⟩ := hp.freed p hf
    exact ⟨hu, hs, hoff ho⟩
  · exact hp.freed_nodup
  · exact hfe

/-- In every state of every run each process is in its one place, and no event gets stuck. -/
theorem scheduler_run (idle : Fin n → Proc) (hidle : Function.Injective idle) (s : Os n)
    (hrun : Execution Step (initial idle) s) :
    (∃ lu ls, IsList s.nodes s.unsched lu ∧ IsList s.nodes s.sleeping ls ∧
      OnePlace s (procs s.nodes lu) (procs s.nodes ls)) ∧
    ∀ e, Enabled s e → ∃ u, Step s e u := by
  have hs := reachable_invariant hidle hrun
  refine ⟨hs.onePlace, fun e he => ?_⟩
  obtain ⟨u, hu, -⟩ := next_spec hs he
  exact ⟨u, he, hu⟩

/-- The allocator that returns the address after all others. -/
def kmallocNext : Kmalloc :=
  ⟨fun live => live.sup id + 1, fun _ hm => absurd (Finset.le_sup (f := id) hm)
    (Nat.not_succ_le_self _)⟩

/-- On two harts: a process is created, and the timer of the first hart can go off. -/
theorem scheduler_run_two_harts :
    ∃ s u lu ls, Execution Step (initial fun h : Fin 2 => 100 + h.val) s ∧ s.created = [7] ∧
      OnePlace s (procs s.nodes lu) (procs s.nodes ls) ∧ Step s (.timer kmallocNext 5 0) u := by
  have hidle : Function.Injective fun h : Fin 2 => 100 + h.val := by decide
  have he : Enabled (initial fun h : Fin 2 => 100 + h.val) (.add kmallocNext 7) := by decide
  obtain ⟨s, hs, hc⟩ : ∃ s, next (initial fun h : Fin 2 => 100 + h.val) (.add kmallocNext 7)
      = some s ∧ s.created = [7] := ⟨_, rfl, rfl⟩
  have hrun := @Execution.single _ _ Step _ _ _ ⟨he, hs⟩
  obtain ⟨⟨lu, ls, -, -, hone⟩, hstep⟩ := scheduler_run _ hidle s hrun
  obtain ⟨u, hu⟩ := hstep (.timer kmallocNext 5 0) trivial
  exact ⟨s, u, lu, ls, hrun, hc, hone, hu⟩

end Scheduler
