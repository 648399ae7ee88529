import DucreuOS.Scheduler

/-! # Fair scheduling

The runnable list is in order of vruntime in every run. Processes with one quantum that share a
hart stay within one slice of each other. -/
namespace Scheduler

open ProcessList Transition

variable {n : ℕ} {s t u : Os n} {q r : Queues n} {us ss ps : List Proc} {p : Proc} {h : Fin n}
  {time : Word} {kmalloc : Kmalloc} {e : Event n}

/-! ## The runnable list is in order -/

theorem sorted_congr {t t' : Table n} (hs : us.Pairwise t.before)
    (hv : ∀ p ∈ us, (t'.proc p).vruntime = (t.proc p).vruntime) : us.Pairwise t'.before := by
  refine List.Pairwise.imp_of_mem ?_ hs
  intro p r hp hr hpr
  unfold Table.before at hpr ⊢
  rwa [hv p hp, hv r hr]

theorem sorted_insert (t : Table n) (p : Proc) (hs : us.Pairwise t.before) :
    (us.orderedInsert t.before p).Pairwise t.before := by
  have : Std.Total t.before := ⟨fun p r => BitVec.le_total _ _⟩
  have : IsTrans Proc t.before := ⟨fun _ _ _ => BitVec.le_trans⟩
  exact hs.orderedInsert _ _

theorem Wakes.sorted (hw : Wakes time q ps r) (hs : q.us.Pairwise q.before) :
    r.us.Pairwise r.before := by
  induction hw with
  | done q => exact hs
  | @wake q r target ps _ _ _ ih =>
    apply ih
    apply sorted_insert
    exact sorted_congr hs fun p _ => q.setProc_fixed p target rfl

theorem Queues.vacate_sorted (hs : q.us.Pairwise q.before) :
    (q.vacate h).us.Pairwise (q.vacate h).before := by
  have hd : q.us.Pairwise (q.detach (q.onHart h) h).before :=
    sorted_congr hs fun p _ => q.detach_fixed fixed_vruntime p _
  have hv (p : Proc) : ((q.vacate h).proc p).vruntime
      = ((q.detach (q.onHart h) h).proc p).vruntime :=
    (vacate_fixed fixed_vruntime p).trans (q.detach_fixed fixed_vruntime p _).symm
  unfold vacate park at hv ⊢
  split_ifs at hv ⊢
  · exact sorted_congr hd fun p _ => hv p
  · exact hd
  · exact hd
  · exact sorted_insert _ _ hd

theorem Queues.dispatch_sorted (hs : q.us.Pairwise q.before) (hnd : q.us.Nodup) :
    (q.dispatch h).us.Pairwise (q.dispatch h).before := by
  cases hus : q.us with
  | nil =>
    change q.us.tail.Pairwise _
    rw [hus]
    exact List.Pairwise.nil
  | cons first rest =>
    rw [hus] at hs hnd
    change q.us.tail.Pairwise (q.processSpawn (q.us.head?.getD (q.idle h)) h).before
    rw [hus]
    refine sorted_congr hs.of_cons fun p hp => ?_
    have hne : p ≠ first := fun e => (List.nodup_cons.1 hnd).1 (e ▸ hp)
    exact congrArg Process.vruntime ((Table.setProc_proc ..).trans (if_neg hne))

theorem Queues.switch_sorted (hs : q.us.Pairwise q.before) (hnd : (q.vacate h).us.Nodup) :
    (q.switch h).us.Pairwise (q.switch h).before :=
  dispatch_sorted (vacate_sorted hs) hnd

theorem enter_vruntime (t : Table n) (hi : e.invokes = some (kmalloc, time, h)) (p : Proc) :
    ((t.enter e).proc p).vruntime = (t.proc p).vruntime := by
  cases e with
  | add k p' => cases hi
  | timer k c h' => rfl
  | sleep k c a c' h' => exact t.setProc_fixed p _ rfl
  | exit k c h' => exact t.setProc_fixed p _ rfl

/-- In every run the runnable list is in order. -/
theorem reachable_sorted {idle : Fin n → Proc} (hidle : Function.Injective idle)
    (hrun : Execution Step (initial idle) s) :
    ∃ us ss, Queued s us ss ∧ us.Pairwise s.before := by
  refine hrun.invariant (I := fun s => ∃ us ss, Queued s us ss ∧ us.Pairwise s.before) ?_ ?_
  · rintro s e u ⟨us, ss, hq, hs⟩ ⟨he, hu⟩
    cases hi : e.invokes with
    | none =>
      obtain ⟨kmalloc, p, rfl⟩ := Event.invokes_none hi
      obtain ⟨u', hu', ht, hq'⟩ := hq.add he
      obtain rfl : u' = u := Option.some.inj (hu'.symm.trans hu)
      refine ⟨_, ss, hq', ?_⟩
      rw [ht]
      apply sorted_insert
      refine sorted_congr hs fun r hr => ?_
      have hne : r ≠ p := fun h => he.1 (h ▸ (hq.placed.unsched r hr).1)
      exact congrArg Process.vruntime ((Table.setProc_proc ..).trans (if_neg hne))
    | some call =>
      obtain ⟨kmalloc, time, h⟩ := call
      obtain ⟨u', ps, r, hu', hw, -, ht, hq'⟩ := hq.invoke he hi
      obtain rfl : u' = u := Option.some.inj (hu'.symm.trans hu)
      refine ⟨_, _, hq', ?_⟩
      rw [ht]
      have henter : us.Pairwise (s.toTable.enter e).before :=
        sorted_congr hs fun p _ => enter_vruntime s.toTable hi p
      have hnd := ((hq.placed.ready he hi).vacate (q := ⟨_, us, ss⟩) hw).1.unsched_nodup
      exact Queues.switch_sorted (hw.sorted henter) hnd
  · obtain ⟨⟨lu, ls, us, ss, hl, hp⟩, -⟩ := initial_invariant hidle
    have hlu : lu = [] := List.head?_eq_none_iff.1 hl.unsched.head_eq.symm
    have hus : us = [] := by rw [← hl.us_eq, hlu, procs_nil]
    refine ⟨us, ss, ⟨⟨lu, ls, hl⟩, hp⟩, ?_⟩
    rw [hus]
    exact List.Pairwise.nil

/-! ## Processes that share a hart -/

/-- `q * PROCESS_DEFAULT_CONTEXT_TIMER` -/
def slice (quantum : BitVec 16) : ℕ := quantum.toNat * PROCESS_DEFAULT_CONTEXT_TIMER.toNat

/-- The vruntime as a number. -/
def Table.ran (t : Table n) (p : Proc) : ℕ := (t.proc p).vruntime.toNat

/-- The processes of `P` are runnable or on the hart, have one quantum, and are at most one slice
apart. -/
structure Competing (P : Set Proc) (quantum : BitVec 16) (h : Fin n) (s : Os n)
    (us ss : List Proc) : Prop where
  queued : Queued s us ss
  sorted : us.Pairwise s.before
  mem (p : Proc) : p ∈ P ↔ p ∈ us ∨ s.current h = some p ∧ p ≠ s.idle h
  same (p : Proc) : p ∈ P → (s.proc p).quantum = quantum
  close (p r : Proc) : p ∈ P → r ∈ P → s.ran p ≤ s.ran r + slice quantum

/-- A timer interrupt on the hart that wakes no sleeper, dispatches `p` and charges it without
wrapping. -/
structure Dispatch (h : Fin n) (s : Os n) (p : Proc) (u : Os n) : Prop where
  timer : ∃ kmalloc time, next s (.timer kmalloc time h) = some u ∧
    ∀ r, (s.proc r).processState = .sleeping → ¬ (s.proc r).sleepUntil < time
  current : u.current h = some p
  fits : s.ran p + slice (s.proc p).quantum < 2 ^ 64

inductive Dispatches (h : Fin n) : Os n → List Proc → Os n → Prop
  | nil (s : Os n) : Dispatches h s [] s
  | cons {s t u : Os n} {p : Proc} {ps : List Proc} (hd : Dispatch h s p t)
      (hr : Dispatches h t ps u) : Dispatches h s (p :: ps) u

/-- A walk with no sleeper due does nothing. -/
theorem Wakes.quiet (hw : Wakes time q ps r) (hquiet : ∀ p ∈ q.ss, ¬ (q.proc p).sleepUntil < time) :
    r = q := by
  cases hw with
  | done q => rfl
  | wake hp hdue _ => exact absurd hdue (hquiet _ hp)

/-- Taking a runnable process off the hart puts it back in the runnable list, the idle process
nowhere. -/
theorem Queues.vacate_runnable (hst : Runnable (q.proc (q.onHart h)).processState) :
    (q.vacate h).ss = q.ss ∧
      ∀ p, p ∈ (q.vacate h).us ↔ p ∈ q.us ∨ p = q.onHart h ∧ p ≠ q.idle h := by
  have hstate : ((q.mapTable (·.detach (q.onHart h) h)).proc (q.onHart h)).processState
      = (q.proc (q.onHart h)).processState := Table.detach_state ..
  unfold vacate park
  rw [hstate, if_neg hst.2, if_neg hst.1]
  by_cases hidle : q.onHart h = (q.mapTable (·.detach (q.onHart h) h)).idle h
  · rw [if_pos hidle]
    refine ⟨rfl, fun p => ⟨Or.inl, fun hp => hp.resolve_right ?_⟩⟩
    rintro ⟨rfl, hne⟩
    exact hne hidle
  · rw [if_neg hidle]
    refine ⟨rfl, fun p => (List.mem_orderedInsert _).trans ⟨?_, ?_⟩⟩
    · rintro (rfl | hp)
      · exact Or.inr ⟨rfl, hidle⟩
      · exact Or.inl hp
    · rintro (hp | ⟨rfl, -⟩)
      · exact Or.inr hp
      · exact Or.inl rfl

theorem slice_toNat (quantum : BitVec 16) :
    (quantum.setWidth 64 * PROCESS_DEFAULT_CONTEXT_TIMER).toNat = slice quantum := by
  have := quantum.isLt
  have htimer : PROCESS_DEFAULT_CONTEXT_TIMER.toNat = 10000 := rfl
  rw [BitVec.toNat_mul, BitVec.toNat_setWidth, slice, htimer, Nat.mod_eq_of_lt (a := quantum.toNat)]
  · exact Nat.mod_eq_of_lt (by omega)
  · omega

variable {P : Set Proc} {quantum : BitVec 16}

theorem Competing.not_idle (hc : Competing P quantum h s us ss) (hp : p ∈ P) : p ≠ s.idle h := by
  rcases (hc.mem p).1 hp with hu | ⟨-, hne⟩
  · exact hc.queued.placed.not_idle p (hc.queued.placed.unsched p hu).1 h
  · exact hne

/-- What a dispatch does: the process with the least vruntime gets one slice more. -/
structure Charged (P : Set Proc) (S : ℕ) (s : Os n) (p : Proc) (u : Os n) : Prop where
  mem : p ∈ P
  least (r : Proc) : r ∈ P → s.ran p ≤ s.ran r
  charge : u.ran p = s.ran p + S
  others (r : Proc) : r ≠ p → u.ran r = s.ran r

theorem Charged.close (hd : Charged P (slice quantum) s p u) (hc : Competing P quantum h s us ss)
    (a b : Proc) (ha : a ∈ P) (hb : b ∈ P) : u.ran a ≤ u.ran b + slice quantum := by
  have hab := hc.close a b ha hb
  have hpb := hd.least b hb
  have hap := hc.close a p ha hd.mem
  have hcharge := hd.charge
  by_cases hpa : a = p
  · subst hpa
    by_cases hpb' : b = a
    · rw [hpb']
      omega
    · rw [hd.others b hpb']
      omega
  · rw [hd.others a hpa]
    by_cases hpb' : b = p
    · rw [hpb']
      omega
    · rw [hd.others b hpb']
      exact hab

/-- The processes of `P` once the hart is free: all of them runnable. -/
theorem Competing.vacate (hc : Competing P quantum h s us ss) :
    let v := Queues.vacate ⟨s.toTable, us, ss⟩ h
    v.ss = ss ∧ (∀ r, r ∈ v.us ↔ r ∈ P) ∧ v.us.Pairwise v.before ∧ v.us.Nodup := by
  intro v
  let q : Queues n := ⟨s.toTable, us, ss⟩
  have hp := hc.queued.placed
  obtain ⟨hss, hmem⟩ := Queues.vacate_runnable (q := q) (hp.hart_state (h := h))
  have hready := hp.ready (e := .timer kmallocNext 0 h) trivial rfl
  have hquiet : Wakes 0 q [] q := .done q
  have hplaced := (hready.vacate hquiet).1
  refine ⟨hss, fun r => ?_, Queues.vacate_sorted hc.sorted, hplaced.unsched_nodup⟩
  rw [hmem, hc.mem]
  refine or_congr_right (and_congr_left fun hri => ?_)
  change r = (s.current h).getD (s.idle h) ↔ s.current h = some r
  cases hcur : s.current h with
  | none => exact ⟨fun hr => absurd hr hri, nofun⟩
  | some r' => exact ⟨fun hr => congrArg some hr.symm, fun hr => (Option.some.inj hr).symm⟩

/-- One timer interrupt, on the table and the lists. -/
theorem Competing.timer (hc : Competing P quantum h s us ss) (hne : P.Nonempty)
    (hd : Dispatch h s p u) :
    let v := Queues.vacate ⟨s.toTable, us, ss⟩ h
    ∃ rest, v.us = p :: rest ∧ u.toTable = v.processSpawn p h ∧ Queued u rest ss := by
  intro v
  obtain ⟨⟨kmalloc, time, hu, hquiet⟩, hcur, -⟩ := hd
  obtain ⟨hss, hP, -⟩ := hc.vacate
  obtain ⟨u', ps, r, hu', hw, -, ht, hq'⟩ :=
    hc.queued.invoke (e := .timer kmalloc time h) trivial rfl
  obtain rfl : u' = u := Option.some.inj (hu'.symm.trans hu)
  obtain rfl := hw.quiet fun r hr => hquiet r (hc.queued.placed.sleeping r hr).2.2
  obtain ⟨a, ha⟩ := hne
  obtain ⟨first, rest, hfirst⟩ := List.exists_cons_of_ne_nil (List.ne_nil_of_mem ((hP a).2 ha))
  have htable : u'.toTable = v.processSpawn first h := by
    rw [ht]
    change v.processSpawn (v.us.head?.getD _) h = _
    rw [hfirst]
    rfl
  have hspawned : first = p := by
    rw [htable, Table.processSpawn_current, if_pos rfl] at hcur
    exact Option.some.inj hcur
  change Queued u' v.us.tail v.ss at hq'
  rw [hfirst, hss, List.tail_cons] at hq'
  subst hspawned
  exact ⟨rest, hfirst, htable, hq'⟩

/-- One timer interrupt. -/
theorem Competing.step (hc : Competing P quantum h s us ss) (hne : P.Nonempty)
    (hd : Dispatch h s p u) :
    Charged P (slice quantum) s p u ∧ ∃ us', Competing P quantum h u us' ss := by
  obtain ⟨-, hP, hsorted, hnd⟩ := hc.vacate
  obtain ⟨rest, hus, htable, hq'⟩ := hc.timer hne hd
  obtain ⟨⟨kmalloc, time, hu, -⟩, hcur, hfits⟩ := hd
  generalize hv : Queues.vacate ⟨s.toTable, us, ss⟩ h = v at *
  have hran (r : Proc) : (v.proc r).vruntime = (s.proc r).vruntime := by
    rw [← hv]
    exact Queues.vacate_fixed fixed_vruntime r
  have hquantum (r : Proc) : (v.proc r).quantum = (s.proc r).quantum := by
    rw [← hv]
    exact Queues.vacate_fixed fixed_quantum r
  have hproc (r : Proc) (hr : r ≠ p) : u.proc r = v.proc r := by
    rw [htable]
    exact (Table.setProc_proc ..).trans (if_neg hr)
  have hpP : p ∈ P := (hP p).1 (hus ▸ List.mem_cons_self)
  have hcharged : Charged P (slice quantum) s p u := by
    refine ⟨hpP, fun r hr => ?_, ?_, fun r hr => ?_⟩
    · rw [hus] at hsorted
      have hr : r ∈ p :: rest := hus ▸ (hP r).2 hr
      rcases List.mem_cons.1 hr with rfl | hr
      · exact Nat.le_refl _
      · have hle := List.rel_of_pairwise_cons hsorted hr
        change (v.proc p).vruntime ≤ (v.proc r).vruntime at hle
        rwa [hran, hran] at hle
    · have hp : (u.proc p).vruntime
          = (v.proc p).vruntime + (v.proc p).quantum.setWidth 64 * PROCESS_DEFAULT_CONTEXT_TIMER := by
        rw [htable]
        exact congrArg Process.vruntime ((Table.setProc_proc ..).trans (if_pos rfl))
      rw [hran, hquantum, hc.same p hpP] at hp
      rw [hc.same p hpP] at hfits
      change (u.proc p).vruntime.toNat = _
      rw [hp, BitVec.toNat_add, slice_toNat]
      exact Nat.mod_eq_of_lt hfits
    · change (u.proc r).vruntime.toNat = _
      rw [hproc r hr, hran]
      rfl
  refine ⟨hcharged, rest, hq', ?_, fun r => ?_, fun r hr => ?_, hcharged.close hc⟩
  · rw [hus] at hsorted hnd
    refine sorted_congr hsorted.of_cons fun r hr => ?_
    have hne : r ≠ p := fun e => (List.nodup_cons.1 hnd).1 (e ▸ hr)
    rw [hproc r hne]
  · have hidle : p ≠ u.idle h := by
      rw [(next_grows hu).idle]
      exact hc.not_idle hpP
    rw [← hP, hus, List.mem_cons, hcur, Option.some_inj, or_comm]
    refine or_congr_right ⟨fun hr => ⟨hr.symm, hr ▸ hidle⟩, fun hr => hr.1.symm⟩
  · rw [htable, ← hc.same r hr, ← hquantum r]
    exact v.setProc_fixed (f := Process.quantum) r p rfl

/-! ## Runs -/

/-- Every state of a run has the processes of `P` at most one slice apart, and only they are
dispatched. -/
theorem Dispatches.competing (hr : Dispatches h s ps u) (hc : Competing P quantum h s us ss)
    (hne : P.Nonempty) : (∃ us', Competing P quantum h u us' ss) ∧ ∀ p ∈ ps, p ∈ P := by
  induction hr generalizing us with
  | nil s => exact ⟨⟨us, hc⟩, by simp⟩
  | cons hd _ ih =>
    obtain ⟨hcharged, us', hc'⟩ := hc.step hne hd
    obtain ⟨hu, hps⟩ := ih hc'
    refine ⟨hu, fun p hp => ?_⟩
    rcases List.mem_cons.1 hp with rfl | hp
    · exact hcharged.mem
    · exact hps p hp

theorem Dispatches.split {ps₁ ps₂ : List Proc} (hr : Dispatches h s (ps₁ ++ ps₂) u) :
    ∃ t, Dispatches h s ps₁ t ∧ Dispatches h t ps₂ u := by
  induction ps₁ generalizing s with
  | nil => exact ⟨s, .nil s, hr⟩
  | cons p ps₁ ih =>
    cases hr with
    | cons hd hr =>
      obtain ⟨t, h₁, h₂⟩ := ih hr
      exact ⟨t, .cons hd h₁, h₂⟩

/-- While `a` is not dispatched, a process dispatched `k + 1` times was `k` slices behind it. -/
theorem Dispatches.behind (hr : Dispatches h s ps u) (hc : Competing P quantum h s us ss)
    {a b : Proc} (ha : a ∈ P) (hnot : a ∉ ps) (k : ℕ) (hk : ps.count b = k + 1) :
    s.ran b + k * slice quantum ≤ s.ran a := by
  induction hr generalizing us k with
  | nil s => simp at hk
  | @cons s t u p ps hd _ ih =>
    obtain ⟨hcharged, us', hc'⟩ := hc.step ⟨a, ha⟩ hd
    obtain ⟨hap, hnot⟩ := not_or.1 (List.mem_cons.not.1 hnot)
    have hrest := ih hc' hnot
    rw [hcharged.others a hap] at hrest
    by_cases hpb : p = b
    · subst hpb
      rw [List.count_cons_self, Nat.add_right_cancel_iff] at hk
      cases k with
      | zero => simpa using hcharged.least a ha
      | succ k =>
        have := hrest k hk
        rw [hcharged.charge] at this
        rw [Nat.add_one_mul]
        omega
    · rw [List.count_cons_of_ne hpb] at hk
      have := hrest k hk
      rwa [hcharged.others b (Ne.symm hpb)] at this

/-- Processes that share a hart stay within one slice, and between two dispatches of one of them
no other one is dispatched more than twice. -/
theorem fair_scheduling (hq : 0 < quantum.toNat) (hc : Competing P quantum h s us ss)
    (hne : P.Nonempty) (hr : Dispatches h s ps u) :
    (∀ a ∈ P, ∀ b ∈ P, u.ran a ≤ u.ran b + slice quantum) ∧ (∀ p ∈ ps, p ∈ P) ∧
      ∀ pre mid post a b, ps = pre ++ a :: mid ++ a :: post → a ∉ mid → mid.count b ≤ 2 := by
  obtain ⟨⟨us', hc'⟩, hps⟩ := hr.competing hc hne
  refine ⟨fun a ha b hb => hc'.close a b ha hb, hps, ?_⟩
  rintro pre mid post a b rfl hnot
  by_contra hmany
  have ha : a ∈ P := hps a (by simp)
  have hb : b ∈ P := by
    apply hps b
    have : b ∈ mid := List.count_pos_iff.1 (by omega)
    simp [this]
  rw [List.append_assoc] at hr
  obtain ⟨t, hpre, hr⟩ := hr.split
  obtain ⟨⟨us₁, hc₁⟩, -⟩ := hpre.competing hc hne
  rw [List.cons_append] at hr
  cases hr with
  | cons hd hr =>
    obtain ⟨hcharged, us₂, hc₂⟩ := hc₁.step hne hd
    obtain ⟨w, hmid, -⟩ := hr.split
    have hbehind := hmid.behind (b := b) hc₂ ha hnot (mid.count b - 1) (by omega)
    have hclose := hc₂.close a b ha hb
    have hslice : 0 < slice quantum := Nat.mul_pos hq (by decide)
    have htwo : 2 * slice quantum ≤ (mid.count b - 1) * slice quantum :=
      Nat.mul_le_mul_right _ (by omega)
    omega

/-- Two new processes on one hart: the one that came last is dispatched and charged. -/
theorem fair_scheduling_two : ∃ s u : Os 1, Execution Step (initial fun _ : Fin 1 => 100) s ∧
    Dispatches 0 s [8] u ∧ u.ran 8 ≤ u.ran 7 + slice 100 ∧ u.ran 8 = 1000000 := by
  obtain ⟨s₁, hadd₁, hcreated₁, hidle₁, s, hadd₂, hcreated, hfreed, hcur, hproc, u,
      htimer, hcur', hran⟩ :
      ∃ s₁, next (initial fun _ : Fin 1 => 100) (.add kmallocNext 7) = some s₁ ∧
        s₁.created = [7] ∧ s₁.idle = (fun _ => 100) ∧
      ∃ s, next s₁ (.add kmallocNext 8) = some s ∧ s.created = [8, 7] ∧ s.freed = [] ∧
        s.current 0 = none ∧ (∀ r, s.proc r = newProcess 1) ∧
      ∃ u, next s (.timer kmallocNext 1 0) = some u ∧ u.current 0 = some 8 ∧
        u.ran 8 = 1000000 := by
    refine ⟨_, rfl, rfl, rfl, _, rfl, rfl, rfl, rfl, fun r => ?_, _, rfl, rfl, rfl⟩
    change Function.update (Function.update (initial fun _ : Fin 1 => 100).proc 7 (newProcess 1)) 8
      (newProcess 1) r = _
    simp only [Function.update_apply]
    split_ifs <;> rfl
  have hinj : Function.Injective fun _ : Fin 1 => 100 := Function.injective_of_subsingleton _
  have hrun : Execution Step (initial fun _ : Fin 1 => 100) s := by
    apply Execution.tail (Execution.single (e := .add kmallocNext 7) ⟨by decide, hadd₁⟩)
      (e := .add kmallocNext 8)
    refine ⟨⟨?_, ?_⟩, hadd₂⟩
    · rw [hcreated₁]
      decide
    · rw [hidle₁]
      decide
  obtain ⟨us, ss, hq, hsorted⟩ := reachable_sorted hinj hrun
  have hmem (p : Proc) : p ∈ ({7, 8} : Set Proc) ↔ p ∈ us := by
    have hcr : p ∈ ({7, 8} : Set Proc) ↔ p ∈ s.created := by
      rw [hcreated]
      simp [or_comm]
    rw [hcr]
    refine ⟨fun hp => ?_, fun hp => (hq.placed.unsched p hp).1⟩
    rcases hq.placed.placed p hp (by simp [hfreed]) (by simp) with hu | hs | ⟨h, hh⟩
    · exact hu
    · have hst := (hq.placed.sleeping p hs).2.2
      rw [hproc] at hst
      cases hst
    · obtain rfl : h = 0 := Subsingleton.elim _ _
      rw [hcur] at hh
      cases hh
  have hc : Competing {7, 8} 100 0 s us ss := by
    refine ⟨hq, hsorted, fun p => ?_, fun p _ => by rw [hproc]; rfl, fun p r _ _ => ?_⟩
    · rw [hmem, hcur]
      simp
    · simp only [Table.ran, hproc]
      exact Nat.le_add_right _ _
  have hd : Dispatches 0 s [8] u := by
    refine .cons ⟨⟨kmallocNext, 1, htimer, fun r hr => ?_⟩, hcur', ?_⟩ (.nil u)
    · rw [hproc] at hr
      cases hr
    · simp only [Table.ran, hproc]
      decide
  have hfair := (fair_scheduling (by decide) hc ⟨7, by simp⟩ hd).1
  exact ⟨s, u, hrun, hd, hfair 8 (by simp) 7 (by simp), hran⟩

end Scheduler
