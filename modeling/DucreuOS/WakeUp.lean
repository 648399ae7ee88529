import DucreuOS.Fairness

/-! # Who wakes up

`sched_walk_sleeping_list` starts again at the head after each process it wakes, and the loop then
steps over that head. It wakes every process that is due, unless the first two are due together:
then the second stays asleep. -/
namespace Scheduler

open ProcessList Transition

variable {n : ℕ} {s : Os n} {q r : Queues n} {lu ls : List ℕ} {p : Proc} {time : Word}
  {ps : List Proc} {due : Proc → Bool} {idle : Fin n → Proc}

/-- What a walk over the sleeping list is for. -/
structure AllWoken (time : Word) (q r : Queues n) : Prop where
  none_due (p : Proc) : p ∈ r.ss → ¬ (r.proc p).sleepUntil < time
  asleep (p : Proc) : p ∈ q.ss → ¬ (q.proc p).sleepUntil < time → r.ss.count p = 1
  woken (p : Proc) : p ∈ q.ss → p ∉ r.ss →
    (r.proc p).processState = .running ∧ r.us.count p = 1
  sorted : r.us.Pairwise r.before

/-- The first two sleepers are due together. -/
def HeadsDue (time : Word) (q : Queues n) : Prop :=
  ∃ first second rest, q.ss = first :: second :: rest ∧
    (q.proc first).sleepUntil < time ∧ (q.proc second).sleepUntil < time

theorem Wakes.sleepUntil (hw : Wakes time q ps r) (p : Proc) :
    (r.proc p).sleepUntil = (q.proc p).sleepUntil := by
  induction hw with
  | done q => rfl
  | @wake q r target ps _ _ _ ih =>
    exact ih.trans (q.wake_sleepUntil target p)

/-- A process that is not asleep is left alone. -/
theorem Wakes.apart (hw : Wakes time q ps r) (hp : p ∉ q.ss) :
    p ∉ r.ss ∧ r.us.count p = q.us.count p := by
  induction hw with
  | done q => exact ⟨hp, rfl⟩
  | @wake q r target ps htarget _ _ ih =>
    have hne : p ≠ target := fun h => hp (h ▸ htarget)
    obtain ⟨hss, hus⟩ := ih fun hmem => hp (List.mem_of_mem_erase hmem)
    refine ⟨hss, hus.trans ?_⟩
    change (q.us.orderedInsert _ target).count p = _
    rw [(List.perm_orderedInsert ..).count_eq, List.count_cons_of_ne hne.symm]

/-- A process that is woken is running, and once in the runnable list. -/
theorem Wakes.woken (hw : Wakes time q ps r) (hnd : q.ss.Nodup) (hd : ∀ p ∈ q.ss, p ∉ q.us)
    (hp : p ∈ q.ss) (hr : p ∉ r.ss) :
    (r.proc p).processState = .running ∧ r.us.count p = 1 := by
  induction hw with
  | done q => exact absurd hp hr
  | @wake q r target ps htarget _ hw ih =>
    by_cases hpt : p = target
    · subst hpt
      have hout : p ∉ (q.wake p).ss := fun hmem => (hnd.mem_erase_iff.1 hmem).1 rfl
      constructor
      · rw [hw.walked.proc p hout]
        exact (Table.setState_state ..).trans (if_pos rfl)
      · rw [(hw.apart hout).2]
        change (q.us.orderedInsert _ p).count p = 1
        rw [(List.perm_orderedInsert ..).count_eq, List.count_cons_self,
          List.count_eq_zero_of_not_mem (hd p hp)]
    · apply ih (hnd.erase target)
      · intro p' hp' hu
        obtain ⟨hne, hmem⟩ := hnd.mem_erase_iff.1 hp'
        rcases (List.mem_orderedInsert _).1 hu with he | hu
        · exact hne he
        · exact hd p' hmem hu
      · exact hnd.mem_erase_iff.2 ⟨hpt, hp⟩
      · exact hr

theorem behindHead_due {l : List Proc} (hp : p ∈ behindHead due l) :
    due p = false ∨ l.head? = some p := by
  cases l with
  | nil => cases hp
  | cons head rest =>
    rcases List.mem_cons.1 hp with rfl | hp
    · exact Or.inr rfl
    · exact Or.inl (by simpa using (List.mem_filter.1 hp).2)

/-- A process that is due and left asleep was the second, and the first was due too. -/
theorem leaves_due {l : List Proc} (hp : p ∈ leaves due [] l) (hdue : due p = true) :
    ∃ first rest, l = first :: p :: rest ∧ due first = true := by
  cases l with
  | nil => cases hp
  | cons first rest =>
    rw [leaves] at hp
    split_ifs at hp with hfirst
    · rcases behindHead_due hp with hno | hhead
      · rw [hdue] at hno
        cases hno
      · obtain ⟨tail, rfl⟩ := List.head?_eq_some_iff.1 hhead
        exact ⟨first, tail, rfl, hfirst⟩
    · rcases behindHead_due hp with hno | hhead
      · rw [hdue] at hno
        cases hno
      · obtain rfl := Option.some.inj hhead
        exact absurd hdue hfirst

theorem mem_leaves {first second : Proc} {rest : List Proc} (hfirst : due first = true) :
    second ∈ leaves due [] (first :: second :: rest) := by
  rw [leaves, if_pos hfirst]
  exact List.mem_cons_self

/-- A process named once that is not due is left asleep once. -/
theorem Wakes.asleep_once (hw : Wakes time q ps r) (hnd : q.ss.Nodup) (hp : p ∈ q.ss)
    (hdue : ¬ (q.proc p).sleepUntil < time) : r.ss.count p = 1 := by
  induction hw with
  | done q => exact List.count_eq_one_of_mem hnd hp
  | @wake q r target ps _ htarget _ ih =>
    have hne : p ≠ target := by
      rintro rfl
      exact hdue htarget
    apply ih (hnd.erase target) ((List.mem_erase_of_ne hne).2 hp)
    rwa [q.wake_sleepUntil]

/-- The lists the scheduler keeps are lists a walk is meant for. -/
theorem reachable_lists (hidle : Function.Injective idle)
    (hrun : Execution Step (initial idle) s) :
    ∃ lu ls q, Represents s lu ls q ∧ q.ss.Nodup ∧ (∀ p ∈ q.ss, p ∉ q.us) ∧
      q.us.Pairwise q.before := by
  obtain ⟨us, ss, hq, hs⟩ := reachable_sorted hidle hrun
  obtain ⟨lu, ls, hl⟩ := hq.holds
  refine ⟨lu, ls, ⟨s.toTable, us, ss⟩, ⟨hl, rfl⟩, hq.placed.sleeping_nodup, fun p hp hu => ?_, hs⟩
  exact (hq.placed.unsched p hu).2.2.1 (hq.placed.sleeping p hp).2.2

/-- On lists of any length the walk ends. It wakes every process that is due, and no other, exactly
when the first two are not due together. -/
theorem schedWalkSleepingList_iff (kmalloc : Kmalloc) (time : Word) (hr : Represents s lu ls q)
    (hnd : q.ss.Nodup) (hd : ∀ p ∈ q.ss, p ∉ q.us) (hs : q.us.Pairwise q.before) :
    ∃ s' lu' ls' r, s.schedWalkSleepingList kmalloc time = some s' ∧ Represents s' lu' ls' r ∧
      (AllWoken time q r ↔ ¬ HeadsDue time q) := by
  obtain ⟨s', lu', ls', ps, r, heq, hr', hw, -, hleaves⟩ :=
    schedWalkSleepingList_refines kmalloc time hr
  refine ⟨s', lu', ls', r, heq, hr', ?_, ?_⟩
  · rintro hall ⟨first, second, rest, hss, hfirst, hsecond⟩
    have hmem : second ∈ r.ss := by
      rw [hleaves hnd, hss]
      exact mem_leaves (decide_eq_true hfirst)
    apply hall.none_due second hmem
    rwa [hw.sleepUntil]
  · intro hnot
    refine ⟨fun p hp hdue => ?_, fun p hp => hw.asleep_once hnd hp, fun p => hw.woken hnd hd,
      hw.sorted hs⟩
    rw [hw.sleepUntil] at hdue
    rw [hleaves hnd] at hp
    obtain ⟨first, rest, hss, hfirst⟩ := leaves_due hp (decide_eq_true hdue)
    exact hnot ⟨first, p, rest, hss, of_decide_eq_true hfirst, hdue⟩

/-- Processes 7 and 8 sleep until the same time. -/
def twoSleepers : Os 1 where
  proc p :=
    if p = 100 then newProcess 1
    else { newProcess 1 with processState := .sleeping, sleepUntil := 10 }
  current _ := some 100
  idle _ := 100
  created := [8, 7]
  exited := []
  freed := []
  nodes := ⟨fun a => if a = 1 then ⟨7, some 2, none⟩ else ⟨8, none, some 1⟩, {1, 2}⟩
  unsched := none
  sleeping := some 1

/-- At time 10 both go on sleeping. -/
theorem schedWalkSleepingList_iff_two : ∃ s' lu' ls' r,
    twoSleepers.schedWalkSleepingList kmallocNext 10 = some s' ∧ Represents s' lu' ls' r ∧
      (AllWoken 10 ⟨twoSleepers.toTable, [], [7, 8]⟩ r ↔
        ¬ HeadsDue 10 ⟨twoSleepers.toTable, [], [7, 8]⟩) := by
  apply @schedWalkSleepingList_iff 1 twoSleepers ⟨twoSleepers.toTable, [], [7, 8]⟩ [] [1, 2]
  · refine ⟨⟨⟨by simp, none, by simp, ?_⟩, ⟨?_, some 2, by simp, ?_⟩, by simp, rfl, rfl⟩, rfl⟩
    all_goals decide
  · decide
  · simp
  · exact List.Pairwise.nil

/-- At time 20 both are due, and process 8 stays in the sleeping list. -/
theorem schedWalkSleepingList_leaves : ∃ s' head,
    twoSleepers.schedWalkSleepingList kmallocNext 20 = some s' ∧ s'.sleeping = some head ∧
      (s'.nodes.node head).p = 8 ∧ (s'.proc 8).sleepUntil < 20 := by
  refine ⟨_, 2, rfl, rfl, rfl, ?_⟩
  decide

end Scheduler
