import DucreuOS.Scheduler

/-! # How long a process sleeps

SYSCALL_SLEEP computes the time to wake up in 64 bits. The process stays in the sleeping list
until that time; whether it sleeps as long as it asked for depends on the sum not wrapping. -/
namespace Scheduler

open ProcessList Transition

variable {n : ℕ} {s u : Os n} {q r : Queues n} {lu ls : List ℕ} {p : Proc} {h : Fin n}
  {time w : Word} {kmalloc : Kmalloc} {e : Event n} {ps : List Proc}

/-- What `sched_get` returns in a call of `sched_invoke`. -/
def Os.gets (kmalloc : Kmalloc) (time : Word) (s : Os n) (hart : Fin n) : Option Proc :=
  match s.schedWalkSleepingList kmalloc time with
  | none => none
  | some s =>
    let p := (s.current hart).getD (s.idle hart)
    match (s.mapTable (·.detach p hart)).park kmalloc p hart with
    | none => none
    | some s => s.schedGet.1

/-- What `sched_get` returns in a step. -/
def got (s : Os n) (e : Event n) : Option Proc :=
  match e.invokes with
  | none => none
  | some (kmalloc, time, h) => (s.mapTable (·.enter e)).gets kmalloc time h

/-- The clint time the walk over the sleeping list reads. -/
def Event.clock (e : Event n) : Option Word := e.invokes.map (·.2.1)

/-- `t + q * PROCESS_DEFAULT_CONTEXT_TIMER` -/
def deadline (curtime quantums : Word) : ℕ :=
  curtime.toNat + quantums.toNat * PROCESS_DEFAULT_CONTEXT_TIMER.toNat

/-- A step while the clint time is at most `D`. -/
def StepBy (D : ℕ) (s : Os n) (e : Event n) (u : Os n) : Prop :=
  Step s e u ∧ ∀ time ∈ e.clock, time.toNat ≤ D

theorem schedInvoke_gets (hu : s.schedInvoke kmalloc time h = some u) :
    u.current h = some ((s.gets kmalloc time h).getD (u.idle h)) := by
  unfold Os.schedInvoke at hu
  unfold Os.gets
  cases hw : s.schedWalkSleepingList kmalloc time with
  | none =>
    rw [hw] at hu
    cases hu
  | some s₁ =>
    simp only [hw] at hu ⊢
    cases hk : (s₁.mapTable (·.detach ((s₁.current h).getD (s₁.idle h)) h)).park kmalloc
        ((s₁.current h).getD (s₁.idle h)) h with
    | none =>
      rw [hk] at hu
      cases hu
    | some s₂ =>
      simp only [hk] at hu ⊢
      cases hu
      exact (Table.processSpawn_current ..).trans (if_pos rfl)

/-- The process `sched_get` returned is on a hart after the step. -/
theorem step_got (hu : next s e = some u) (hg : got s e = some p) :
    ∃ h, u.current h = some p := by
  unfold got at hg
  cases hi : e.invokes with
  | none =>
    rw [hi] at hg
    cases hg
  | some call =>
    obtain ⟨kmalloc, time, h⟩ := call
    simp only [hi] at hg
    rw [next_invokes hi] at hu
    have hc := schedInvoke_gets hu
    rw [hg] at hc
    exact ⟨h, hc⟩

/-! ## What leaves a sleeper alone -/

theorem enter_proc (hi : e.invokes = some (kmalloc, time, h))
    (hp : p ≠ (s.current h).getD (s.idle h)) : (s.toTable.enter e).proc p = s.proc p := by
  cases e with
  | add k p' => cases hi
  | timer k t h' => rfl
  | sleep k c a t h' =>
    cases hi
    exact (Table.setProc_proc ..).trans (if_neg hp)
  | exit k t h' =>
    cases hi
    exact (Table.setProc_proc ..).trans (if_neg hp)

/-- A sleeper whose time has not come is not woken. -/
theorem Wakes.asleep (hw : Wakes time q ps r) (hp : p ∈ q.ss)
    (hdue : ¬ (q.proc p).sleepUntil < time) : p ∈ r.ss ∧ r.proc p = q.proc p := by
  induction hw with
  | done q => exact ⟨hp, rfl⟩
  | @wake q r target ps htarget hdue' _ ih =>
    have hne : p ≠ target := by
      rintro rfl
      exact hdue hdue'
    have hproc : (q.wake target).proc p = q.proc p := (Table.setProc_proc ..).trans (if_neg hne)
    obtain ⟨hmem, hsame⟩ := ih ((List.mem_erase_of_ne hne).2 hp) (hproc ▸ hdue)
    exact ⟨hmem, hsame.trans hproc⟩

namespace Queues

theorem mem_switch_ss (hp : p ∈ q.ss) : p ∈ (q.switch h).ss := by
  change p ∈ (q.vacate h).ss
  unfold vacate park
  split_ifs
  · exact hp
  · exact (List.mem_orderedInsert _).2 (Or.inr hp)
  · exact hp
  · exact hp

theorem switch_sleepUntil : ((q.switch h).proc p).sleepUntil = (q.proc p).sleepUntil := by
  calc ((q.switch h).proc p).sleepUntil
      = ((q.vacate h).proc p).sleepUntil :=
        Table.setProc_fixed (f := Process.sleepUntil) (q.vacate h).toTable p _ rfl
    _ = (q.proc p).sleepUntil := vacate_fixed fixed_sleepUntil p

end Queues

/-- The process is in the sleeping list, until `w`. -/
def Asleep (p : Proc) (w : Word) (s : Os n) : Prop :=
  ∃ us ss, Queued s us ss ∧ p ∈ ss ∧ (s.proc p).sleepUntil = w

/-- A sleeper is on no hart. -/
theorem Asleep.current (ha : Asleep p w s) (h : Fin n) : s.current h ≠ some p := by
  obtain ⟨us, ss, hq, hps, -⟩ := ha
  exact fun hc => (hq.placed.on_hart_not_listed hc).2.1 hps

/-- No event touches a sleeper before it calls the scheduler. -/
theorem Queued.enter_sleeper {us ss : List Proc} (hq : Queued s us ss)
    (hi : e.invokes = some (kmalloc, time, h)) (hp : p ∈ ss) :
    (s.toTable.enter e).proc p = s.proc p := by
  apply enter_proc hi
  rintro rfl
  cases hc : s.current h with
  | none => exact (hq.placed.idle_not_listed h).2 (by simpa [hc] using hp)
  | some p' => exact (hq.placed.on_hart_not_listed hc).2.1 (by simpa [hc] using hp)

/-- One step while the sleeper's time has not come. -/
theorem Asleep.step (ha : Asleep p w s) (hstep : Step s e u)
    (hclock : ∀ time ∈ e.clock, ¬ w < time) : Asleep p w u := by
  obtain ⟨us, ss, hq, hps, hw⟩ := ha
  obtain ⟨he, hu⟩ := hstep
  cases hi : e.invokes with
  | none =>
    obtain ⟨kmalloc, p', rfl⟩ := Event.invokes_none hi
    have hne : p ≠ p' := fun h => he.1 (h ▸ (hq.placed.sleeping p hps).1)
    obtain ⟨u', hu', ht, hq'⟩ := hq.add he
    obtain rfl : u' = u := Option.some.inj (hu'.symm.trans hu)
    refine ⟨_, ss, hq', hps, ?_⟩
    rw [ht, ← hw]
    exact congrArg Process.sleepUntil ((Table.setProc_proc ..).trans (if_neg hne))
  | some call =>
    obtain ⟨kmalloc, time, h⟩ := call
    have hproc := hq.enter_sleeper hi hps
    obtain ⟨u', ps, r, hu', hwakes, -, ht, hq'⟩ := hq.invoke he hi
    obtain rfl : u' = u := Option.some.inj (hu'.symm.trans hu)
    have hdue : ¬ ((s.toTable.enter e).proc p).sleepUntil < time := by
      rw [hproc, hw]
      exact hclock time (by simp [Event.clock, hi])
    obtain ⟨hmem, hsame⟩ := hwakes.asleep hps hdue
    refine ⟨_, _, hq', Queues.mem_switch_ss hmem, ?_⟩
    rw [ht, Queues.switch_sleepUntil, hsame]
    exact (congrArg Process.sleepUntil hproc).trans hw

/-- The call puts the process to sleep, until the time it computes. -/
theorem Queued.sleep {us ss : List Proc} (hq : Queued s us ss) {curtime quantums : Word}
    (he : Enabled s (.sleep kmalloc curtime quantums time h)) (hp : s.current h = some p)
    (hu : next s (.sleep kmalloc curtime quantums time h) = some u) :
    Asleep p (curtime + quantums * PROCESS_DEFAULT_CONTEXT_TIMER) u := by
  have hps := (hq.placed.on_hart_not_listed hp).2.1
  obtain ⟨u', ps, r, hu', hwakes, -, ht, hq'⟩ := hq.invoke he rfl
  obtain rfl : u' = u := Option.some.inj (hu'.symm.trans hu)
  have hwalked := hwakes.walked
  have hon : r.onHart h = p := by
    unfold Queues.onHart
    rw [hwalked.current, hwalked.idle]
    change (s.current h).getD _ = p
    rw [hp]
    rfl
  have hproc : r.proc p = { s.proc p with
      processState := .sleeping
      sleepUntil := curtime + quantums * PROCESS_DEFAULT_CONTEXT_TIMER } := by
    rw [hwalked.proc p hps]
    change (s.toTable.setProc ((s.current h).getD _) _).proc p = _
    rw [hp]
    exact (Table.setProc_proc ..).trans (if_pos rfl)
  refine ⟨_, _, hq', ?_, ?_⟩
  · have hstate : ((r.mapTable (·.detach p h)).proc p).processState = .sleeping :=
      (Table.detach_state ..).trans (by rw [hproc])
    change p ∈ (r.vacate h).ss
    unfold Queues.vacate Queues.park
    rw [hon, hstate, if_neg (by decide), if_pos rfl]
    exact (List.mem_orderedInsert _).2 (Or.inl rfl)
  · rw [ht, Queues.switch_sleepUntil, hproc]

/-! ## What wakes a sleeper -/

/-- The last clint time there is. -/
def lastTime : Word := BitVec.allOnes 64

theorem Wakes.length (hw : Wakes time q ps r) :
    r.us.length + r.ss.length = q.us.length + q.ss.length := by
  induction hw with
  | done q => rfl
  | @wake q r p ps hp _ _ ih =>
    have hus : (q.wake p).us.length = q.us.length + 1 := List.orderedInsert_length ..
    have hss : (q.ss.erase p).length + 1 = q.ss.length := List.length_erase_add_one hp
    change _ = (q.wake p).us.length + (q.ss.erase p).length at ih
    omega

theorem Wakes.mem_us (hw : Wakes time q ps r) (hp : p ∈ q.us) : p ∈ r.us := by
  induction hw with
  | done q => exact hp
  | wake _ _ _ ih => exact ih ((List.mem_orderedInsert _).2 (Or.inr hp))

theorem Wakes.us_ne_nil (hw : Wakes time q ps r) (hps : ps ≠ []) : r.us ≠ [] := by
  cases hw with
  | done q => exact absurd rfl hps
  | wake _ _ h => exact List.ne_nil_of_mem (h.mem_us ((List.mem_orderedInsert _).2 (Or.inl rfl)))

/-- The process is runnable, or due at the last clint time. -/
def Due (p : Proc) (q : Queues n) : Prop :=
  p ∈ q.us ∨ p ∈ q.ss ∧ (q.proc p).sleepUntil < lastTime

theorem Wakes.due (hw : Wakes time q ps r) (hp : Due p q) : Due p r := by
  induction hw with
  | done q => exact hp
  | @wake q r target ps _ _ _ ih =>
    apply ih
    by_cases hpt : p = target
    · exact Or.inl ((List.mem_orderedInsert _).2 (Or.inl hpt))
    · refine hp.imp (fun hu => (List.mem_orderedInsert _).2 (Or.inr hu)) fun ⟨hs, hd⟩ => ?_
      refine ⟨(List.mem_erase_of_ne hpt).2 hs, ?_⟩
      change ((q.toTable.setProc target _).proc p).sleepUntil < lastTime
      rwa [Table.setProc_proc, if_neg hpt]

/-- The hart runs its idle process, or one that is to be freed: neither goes back to a list. -/
theorem Queues.vacate_lists (hst : (q.proc (q.onHart h)).processState = .asyncFree ∨
    q.onHart h = q.idle h ∧ Runnable (q.proc (q.onHart h)).processState) :
    (q.vacate h).us = q.us ∧ (q.vacate h).ss = q.ss := by
  have hstate : ((q.mapTable (·.detach (q.onHart h) h)).proc (q.onHart h)).processState
      = (q.proc (q.onHart h)).processState := Table.detach_state ..
  unfold Queues.vacate Queues.park
  rw [hstate]
  rcases hst with hfree | ⟨hidle, hrun⟩
  · rw [if_pos hfree]
    exact ⟨rfl, rfl⟩
  · have hidle' : q.onHart h = (q.mapTable (·.detach (q.onHart h) h)).idle h := hidle
    rw [if_neg hrun.2, if_neg hrun.1, if_pos hidle']
    exact ⟨rfl, rfl⟩

theorem enter_onHart (t : Table n) (e : Event n) :
    (t.enter e).current = t.current ∧ (t.enter e).idle = t.idle := by
  cases e <;> exact ⟨rfl, rfl⟩

/-- A call that parks nothing dispatches a process: the one that is due, or another one. -/
theorem Queued.advance {us ss : List Proc} (hq : Queued s us ss) (he : Enabled s e)
    (hi : e.invokes = some (kmalloc, lastTime, h)) (hdue : Due p ⟨s.toTable.enter e, us, ss⟩)
    (hst : ((s.toTable.enter e).proc ((s.current h).getD (s.idle h))).processState = .asyncFree ∨
      (s.current h).getD (s.idle h) = s.idle h ∧
        Runnable ((s.toTable.enter e).proc ((s.current h).getD (s.idle h))).processState) :
    ∃ u, next s e = some u ∧ (got s e = some p ∨ ∃ us' ss', Queued u us' ss' ∧
      Due p ⟨u.toTable, us', ss'⟩ ∧ us'.length + ss'.length < us.length + ss.length) := by
  obtain ⟨u, ps, r, hu, hw, hwoken, ht, hq'⟩ := hq.invoke he hi
  have hwalked := hw.walked
  obtain ⟨hcur, hidle⟩ := enter_onHart s.toTable e
  have hready := hq.placed.ready he hi
  have hon : r.onHart h = (s.current h).getD (s.idle h) := by
    unfold Queues.onHart
    rw [hwalked.current, hwalked.idle]
    exact congrArg₂ (fun c i => (c h).getD (i h)) hcur hidle
  have hproc : r.proc (r.onHart h) = (s.toTable.enter e).proc ((s.current h).getD (s.idle h)) := by
    have hnot := (hready.placed.on_hart_or_idle hready.created).2.1
    rw [hcur, hidle] at hnot
    rw [hon]
    exact hwalked.proc _ hnot
  obtain ⟨hus, hss⟩ : (r.vacate h).us = r.us ∧ (r.vacate h).ss = r.ss := by
    apply Queues.vacate_lists
    rw [hproc, hon, hwalked.idle]
    exact hst.imp_right fun h => ⟨h.1.trans (congrFun hidle.symm _), h.2⟩
  have hne : r.us ≠ [] := by
    rcases hdue with hu | hs
    · exact List.ne_nil_of_mem (hw.mem_us hu)
    · exact hw.us_ne_nil (hwoken ⟨p, hs⟩)
  obtain ⟨first, rest, hfirst⟩ := List.exists_cons_of_ne_nil hne
  have hswitch : (r.switch h).us = rest ∧ (r.switch h).ss = r.ss := by
    refine ⟨?_, hss⟩
    change (r.vacate h).us.tail = rest
    rw [hus, hfirst, List.tail_cons]
  have hlen := hw.length
  change r.us.length + r.ss.length = us.length + ss.length at hlen
  rw [hfirst, List.length_cons] at hlen
  rw [hswitch.1, hswitch.2] at hq'
  refine ⟨u, hu, ?_⟩
  by_cases hp : first = p
  · left
    have hspawn : u.current h = some p := by
      rw [ht]
      refine (Table.processSpawn_current ..).trans ((if_pos rfl).trans ?_)
      rw [hus, hfirst, List.head?_cons, Option.getD_some, hp]
    have hcreated : p ∈ (s.toTable.enter e).created := by
      rcases hdue with hu | hs
      · exact (hready.placed.unsched p hu).1
      · exact (hready.placed.sleeping p hs.1).1
    have hpi : p ≠ u.idle h := by
      rw [(next_grows hu).idle]
      exact hidle ▸ hready.placed.not_idle p hcreated h
    have hgets := schedInvoke_gets ((next_invokes hi).symm.trans hu)
    rw [hspawn] at hgets
    unfold got
    simp only [hi]
    cases hg : (s.mapTable (·.enter e)).gets kmalloc lastTime h with
    | none =>
      rw [hg] at hgets
      exact absurd (Option.some.inj hgets) hpi
    | some p' =>
      rw [hg] at hgets
      exact hgets.symm
  · refine Or.inr ⟨rest, r.ss, hq', ?_, by omega⟩
    rcases hw.due hdue with hu | ⟨hs, hd⟩
    · rw [hfirst] at hu
      exact Or.inl ((List.mem_cons.1 hu).resolve_left (Ne.symm hp))
    · refine Or.inr ⟨hs, ?_⟩
      change (u.proc p).sleepUntil < lastTime
      rwa [ht, Queues.switch_sleepUntil]

/-- From a state where a process is due, timer interrupts and exits on one hart lead to its
dispatch. -/
theorem Queued.dispatches {us ss : List Proc} (hq : Queued s us ss) (hdue : Due p ⟨s.toTable, us, ss⟩)
    (h : Fin n) {D : ℕ} (hD : 2 ^ 64 ≤ D) :
    ∃ v e w, Execution (StepBy D) s v ∧ StepBy D v e w ∧ got v e = some p := by
  induction hm : us.length + ss.length using Nat.strong_induction_on generalizing s us ss with
  | _ m ih =>
    obtain ⟨e, he, hi, hdue', hst⟩ : ∃ e, Enabled s e ∧
        e.invokes = some (kmallocNext, lastTime, h) ∧ Due p ⟨s.toTable.enter e, us, ss⟩ ∧
        (((s.toTable.enter e).proc ((s.current h).getD (s.idle h))).processState = .asyncFree ∨
          (s.current h).getD (s.idle h) = s.idle h ∧
            Runnable ((s.toTable.enter e).proc ((s.current h).getD (s.idle h))).processState) := by
      by_cases hc : s.current h ≠ none ∧ s.current h ≠ some (s.idle h)
      · refine ⟨.exit kmallocNext lastTime h, hc, rfl, ?_, Or.inl ?_⟩
        · refine hdue.imp_right fun ⟨hps, hd⟩ => ⟨hps, ?_⟩
          change ((s.toTable.enter (.exit kmallocNext lastTime h)).proc p).sleepUntil < lastTime
          rwa [hq.enter_sleeper rfl hps]
        · exact congrArg Process.processState ((Table.setProc_proc ..).trans (if_pos rfl))
      · have hidle : (s.current h).getD (s.idle h) = s.idle h := by
          cases hcur : s.current h with
          | none => rfl
          | some p' =>
            by_contra hne
            exact hc ⟨by simp [hcur], by rw [hcur]; exact fun e => hne (Option.some.inj e)⟩
        exact ⟨.timer kmallocNext lastTime h, trivial, rfl, hdue,
          Or.inr ⟨hidle, hq.placed.hart_state⟩⟩
    obtain ⟨u, hu, hnext⟩ := hq.advance he hi hdue' hst
    have hstep : StepBy D s e u := by
      refine ⟨⟨he, hu⟩, ?_⟩
      intro time htime
      have := time.isLt
      omega
    rcases hnext with hgot | ⟨us', ss', hq', hd', hlt⟩
    · exact ⟨s, e, u, .refl s, hstep, hgot⟩
    · obtain ⟨v, e', w, hrun, hlast, hgot⟩ := ih _ (hm ▸ hlt) hq' hd' rfl
      exact ⟨v, e', w, (Execution.single hstep).trans hrun, hlast, hgot⟩

/-! ## The promise -/

/-- While the clint time is at most `D`, no later step hands the process out. -/
def SleepsBy (D : ℕ) (p : Proc) (s : Os n) : Prop :=
  ∀ v e w, Execution (StepBy D) s v → StepBy D v e w → got v e ≠ some p

theorem Asleep.got {D : ℕ} (ha : Asleep p w s) (hw : ∀ time : Word, time.toNat ≤ D → ¬ w < time) :
    SleepsBy D p s := by
  intro v e x hrun hstep hgot
  have hkeep (s : Os n) (e : Event n) (u : Os n) (ha : Asleep p w s) (h : StepBy D s e u) :
      Asleep p w u := ha.step h.1 fun time ht => hw time (h.2 time ht)
  obtain ⟨h, hc⟩ := step_got hstep.1.2 hgot
  exact (hkeep v e x (hrun.invariant hkeep ha) hstep).current h hc

theorem wake_toNat (curtime quantums : Word) :
    (curtime + quantums * PROCESS_DEFAULT_CONTEXT_TIMER).toNat
      = deadline curtime quantums % 2 ^ 64 := by
  rw [BitVec.toNat_add, BitVec.toNat_mul, Nat.add_mod_mod]
  rfl

/-- A process that calls SYSCALL_SLEEP is handed out neither by that call nor while the clint
time is at most the deadline, exactly if the deadline fits 64 bits or wraps to the last time. -/
theorem sleep_respected_iff (idle : Fin n → Proc) (hidle : Function.Injective idle)
    (hrun : Execution Step (initial idle) s) {curtime quantums : Word} (hp : s.current h = some p)
    (hstep : Step s (.sleep kmalloc curtime quantums time h) u) :
    got s (.sleep kmalloc curtime quantums time h) ≠ some p ∧
      (SleepsBy (deadline curtime quantums) p u ↔
        deadline curtime quantums < 2 ^ 64 ∨
          deadline curtime quantums % 2 ^ 64 = 2 ^ 64 - 1) := by
  obtain ⟨⟨lu, ls, us, ss, hl, hplaced⟩, -⟩ := reachable_invariant hidle hrun
  have hq : Queued s us ss := ⟨⟨lu, ls, hl⟩, hplaced⟩
  have ha := hq.sleep hstep.1 hp hstep.2
  have hwake := wake_toNat curtime quantums
  refine ⟨fun hg => ?_, fun hsleeps => ?_, fun hcond => ?_⟩
  · obtain ⟨k, hc⟩ := step_got hstep.2 hg
    exact ha.current k hc
  · by_contra hcond
    obtain ⟨us', ss', hq', hps, hw⟩ := ha
    have hdue : Due p ⟨u.toTable, us', ss'⟩ := by
      refine Or.inr ⟨hps, ?_⟩
      change (u.proc p).sleepUntil < lastTime
      rw [hw, BitVec.lt_def, hwake]
      change _ < 2 ^ 64 - 1
      omega
    obtain ⟨v, e, w, hrun', hlast, hgot⟩ :=
      hq'.dispatches hdue h (D := deadline curtime quantums) (by omega)
    exact hsleeps v e w hrun' hlast hgot
  · apply ha.got
    intro time htime hlt
    rw [BitVec.lt_def, hwake] at hlt
    have := time.isLt
    omega

/-- On one hart a process is created and dispatched, and can call SYSCALL_SLEEP. -/
theorem sleeping_run (quantums : Word) : ∃ s u : Os 1,
    Execution Step (initial fun _ : Fin 1 => 100) s ∧ s.current 0 = some 7 ∧
    Step s (.sleep kmallocNext 5 quantums 5 0) u := by
  obtain ⟨s₁, hadd, s, htimer, hcur, hidle⟩ :
      ∃ s₁, next (initial fun _ : Fin 1 => 100) (.add kmallocNext 7) = some s₁ ∧
      ∃ s, next s₁ (.timer kmallocNext 1 0) = some s ∧ s.current 0 = some 7 ∧ s.idle 0 = 100 :=
    ⟨_, rfl, _, rfl, rfl, rfl⟩
  have henabled : Enabled s (.sleep kmallocNext 5 quantums 5 0) := by
    change s.current 0 ≠ none ∧ s.current 0 ≠ some (s.idle 0)
    rw [hcur, hidle]
    decide
  have hrun : Execution Step (initial fun _ : Fin 1 => 100) s :=
    (Execution.single (e := .add kmallocNext 7) ⟨by decide, hadd⟩).tail
      (e := .timer kmallocNext 1 0) ⟨trivial, htimer⟩
  have hidle : Function.Injective fun _ : Fin 1 => 100 := Function.injective_of_subsingleton _
  obtain ⟨u, hu, -⟩ := next_spec (reachable_invariant hidle hrun) henabled
  exact ⟨s, u, hrun, hcur, henabled, hu⟩

theorem sleep_respected_iff_one_quantum : ∃ s u : Os 1,
    Execution Step (initial fun _ : Fin 1 => 100) s ∧ s.current 0 = some 7 ∧
    Step s (.sleep kmallocNext 5 1 5 0) u ∧ deadline 5 1 = 10005 ∧ SleepsBy 10005 7 u := by
  obtain ⟨s, u, hrun, hcur, hstep⟩ := sleeping_run 1
  have hidle : Function.Injective fun _ : Fin 1 => 100 := Function.injective_of_subsingleton _
  have hiff := (sleep_respected_iff _ hidle hrun hcur hstep).2
  exact ⟨s, u, hrun, hcur, hstep, by decide, hiff.2 (Or.inl (by decide))⟩

/-- 2^60 quantums are no time at all modulo 2^64: the next timer interrupt wakes the process. -/
theorem sleep_cut_short : ∃ s u v : Os 1,
    Execution Step (initial fun _ : Fin 1 => 100) s ∧ s.current 0 = some 7 ∧
    Step s (.sleep kmallocNext 5 0x1000000000000000 5 0) u ∧
    StepBy (deadline 5 0x1000000000000000) u (.timer kmallocNext 6 0) v ∧
    got u (.timer kmallocNext 6 0) = some 7 := by
  obtain ⟨s₁, hadd, s, htimer, hcur, hidle, u, hsleep, v, hnext, hgot⟩ :
      ∃ s₁, next (initial fun _ : Fin 1 => 100) (.add kmallocNext 7) = some s₁ ∧
      ∃ s, next s₁ (.timer kmallocNext 1 0) = some s ∧ s.current 0 = some 7 ∧ s.idle 0 = 100 ∧
      ∃ u, next s (.sleep kmallocNext 5 0x1000000000000000 5 0) = some u ∧
      ∃ v, next u (.timer kmallocNext 6 0) = some v ∧
        got u (.timer kmallocNext 6 0) = some 7 :=
    ⟨_, rfl, _, rfl, rfl, rfl, _, rfl, _, rfl, rfl⟩
  have henabled : Enabled s (.sleep kmallocNext 5 0x1000000000000000 5 0) := by
    change s.current 0 ≠ none ∧ s.current 0 ≠ some (s.idle 0)
    rw [hcur, hidle]
    decide
  have hrun : Execution Step (initial fun _ : Fin 1 => 100) s :=
    (Execution.single (e := .add kmallocNext 7) ⟨by decide, hadd⟩).tail
      (e := .timer kmallocNext 1 0) ⟨trivial, htimer⟩
  refine ⟨s, u, v, hrun, hcur, ⟨henabled, hsleep⟩, ⟨⟨trivial, hnext⟩, ?_⟩, hgot⟩
  intro time htime
  obtain rfl := Option.some.inj htime
  decide

end Scheduler
