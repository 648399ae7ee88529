import DucreuOS.HartControl

/-! # Booting the harts

`main` of the SBI, run by all harts at once. Hart 0 clears the memory, marks every hart as invalid
and opens `hart_lock`; the others wait for the lock, announce themselves and write their records.
One step is one access to the lock or to a record, or one announcement; the CSRs of a hart are its
own and are left out. -/
namespace Boot

open Transition Locks HartControl

/-- The place of a hart in the arrays. -/
def hartOf (j : Fin 8) : Hart := BitVec.ofNat 32 j.val

/-- What hart 0 does next. -/
inductive Main0
  | clearBss
  | invalid (j : Fin 8)
  | begins | post | status | target | frame | wait
  /-- `puts` of the greeting -/
  | puts
  | release
  /-- behind the `mret` -/
  | os
  deriving DecidableEq

/-- What another hart does next. -/
inductive Main
  | wait | begins | post | status | target | frame
  /-- in `sbi_hart_hang` -/
  | hang
  deriving DecidableEq

structure State where
  hart_lock : Word
  sbi_hart_data : Hart → HartData
  main0 : Main0
  /-- the harts from 1 on -/
  main : Fin 7 → Main

/-- `0xFFFFFFFFFFFFFFFFUL` -/
def NO_FRAME : Address := -1

namespace State

variable (s : State)

def goto0 (m : Main0) : State := { s with main0 := m }

def goto (i : Fin 7) (m : Main) : State := { s with main := Function.update s.main i m }

def setData (hart : Hart) (d : HartData) : State :=
  { s with sbi_hart_data := Function.update s.sbi_hart_data hart d }

/-- The arrays are zero after `clear_bss`. -/
def clearBss : State :=
  { s with
    hart_lock := 0
    sbi_hart_data := fun hart =>
      if hart < MAX_SUPPORTED_HARTS then ⟨.HS_STOPPED, 0, 0⟩ else s.sbi_hart_data hart }

end State

def step0 (s : State) : State :=
  let d := s.sbi_hart_data (hartOf 0)
  match s.main0 with
  | .clearBss => s.clearBss.goto0 (.invalid 0)
  | .invalid j =>
    (s.setData (hartOf j) { s.sbi_hart_data (hartOf j) with status := .HS_INVALID }).goto0
      (if h : j.val + 1 < 8 then .invalid ⟨j.val + 1, h⟩ else .begins)
  | .begins => s.goto0 .post
  | .post => { s with hart_lock := mutexPost s.hart_lock }.goto0 .status
  | .status => (s.setData (hartOf 0) { d with status := .HS_STARTED }).goto0 .target
  | .target => (s.setData (hartOf 0) { d with target_address := 0 }).goto0 .frame
  | .frame => (s.setData (hartOf 0) { d with process_frame := NO_FRAME }).goto0 .wait
  | .wait =>
    let (acquired, mutex) := mutexTry s.hart_lock
    { s with hart_lock := mutex }.goto0 (if acquired ≠ 1 then .wait else .puts)
  | .puts => s.goto0 .release
  | .release => { s with hart_lock := mutexPost s.hart_lock }.goto0 .os
  | .os => s

def step (s : State) (i : Fin 7) : State :=
  let d := s.sbi_hart_data (hartOf i.succ)
  match s.main i with
  | .wait =>
    let (acquired, mutex) := mutexTry s.hart_lock
    { s with hart_lock := mutex }.goto i (if acquired ≠ 1 then .wait else .begins)
  | .begins => s.goto i .post
  | .post => { s with hart_lock := mutexPost s.hart_lock }.goto i .status
  | .status => (s.setData (hartOf i.succ) { d with status := .HS_STOPPED }).goto i .target
  | .target => (s.setData (hartOf i.succ) { d with target_address := 0 }).goto i .frame
  | .frame => (s.setData (hartOf i.succ) { d with process_frame := NO_FRAME }).goto i .hang
  | .hang => s

/-- The next step is that of hart 0, or that of another one. -/
def next (s : State) : Option (Fin 7) → State
  | none => step0 s
  | some i => step s i

def Step (s : State) (e : Option (Fin 7)) (t : State) : Prop := t = next s e

/-- In front of `main`, with the lock as it is initialised. -/
structure Reset (s : State) : Prop where
  hart_lock : s.hart_lock = MUTEX_LOCKED
  main0 : s.main0 = .clearBss
  main : ∀ i, s.main i = .wait

/-! ## What a boot promises -/

/-- Hart 0 has not opened the lock. -/
def Main0.Early : Main0 → Prop
  | .clearBss | .invalid _ | .begins | .post => True
  | _ => False

/-- The harts that are at an announcement. -/
def Printing (s : State) : Option (Fin 7) → Prop
  | none => s.main0 = .begins ∨ s.main0 = .puts
  | some i => s.main i = .begins

def Finished (s : State) : Prop := s.main0 = .os ∧ ∀ i, s.main i = .hang

structure Safe (s : State) : Prop where
  /-- One announcement at a time. -/
  printing : ∀ p q, Printing s p → Printing s q → p = q
  /-- Nobody is past the lock before hart 0 has opened it. -/
  behind : ∀ i, s.main i ≠ .wait → ¬ s.main0.Early
  /-- A hart cannot be started before it has written its status. -/
  invalid : ¬ s.main0.Early → ∀ i, s.main i ∈ [Main.wait, .begins, .post, .status] →
    getHartStatus s.sbi_hart_data (hartOf i.succ) = .HS_INVALID
  /-- The record of a hart that is through. -/
  stopped : ∀ i, s.main i = .hang → s.sbi_hart_data (hartOf i.succ) = ⟨.HS_STOPPED, 0, NO_FRAME⟩
  /-- What the OS finds. -/
  started : s.main0 = .os → s.sbi_hart_data (hartOf 0) = ⟨.HS_STARTED, 0, NO_FRAME⟩ ∧
    ∀ hart < MAX_SUPPORTED_HARTS, ¬ Transitional (s.sbi_hart_data hart).status
  /-- The boot can be brought to its end. -/
  finishes : ∃ t, Execution Step s t ∧ Finished t

/-! ## The invariant -/

/-- The harts between `mutex_wait` and `mutex_post`. -/
def Holds (s : State) : Option (Fin 7) → Prop
  | none => s.main0 = .puts ∨ s.main0 = .release
  | some i => s.main i = .begins ∨ s.main i = .post

/-- Hart 0 has marked this hart as invalid. -/
def Main0.Past (j : Fin 8) : Main0 → Prop
  | .clearBss => False
  | .invalid k => j < k
  | _ => True

/-- What hart 0 has written to its record. -/
def Record0 (d : HartData) : Main0 → Prop
  | .status => d.status = .HS_INVALID
  | .target => d.status = .HS_STARTED
  | .frame => d.status = .HS_STARTED ∧ d.target_address = 0
  | .wait | .puts | .release | .os => d = ⟨.HS_STARTED, 0, NO_FRAME⟩
  | m => m.Past 0 → d.status = .HS_INVALID

/-- What another hart has written to its record. -/
def Record (past : Prop) (d : HartData) : Main → Prop
  | .target => d.status = .HS_STOPPED
  | .frame => d.status = .HS_STOPPED ∧ d.target_address = 0
  | .hang => d = ⟨.HS_STOPPED, 0, NO_FRAME⟩
  | _ => past → d.status = .HS_INVALID

structure Invariant (s : State) : Prop where
  early : s.main0.Early → s.hart_lock = MUTEX_LOCKED ∧ ∀ i, s.main i = .wait
  locked : ∀ p, Holds s p → s.hart_lock = MUTEX_LOCKED
  alone : ∀ p q, Holds s p → Holds s q → p = q
  unlocked : ¬ s.main0.Early → (∀ p, ¬ Holds s p) → s.hart_lock = MUTEX_UNLOCKED
  record0 : Record0 (s.sbi_hart_data (hartOf 0)) s.main0
  record : ∀ i, Record (s.main0.Past i.succ) (s.sbi_hart_data (hartOf i.succ)) (s.main i)

section Invariant

variable {s t : State} {i : Fin 7} {p : Option (Fin 7)}

theorem hartOf_injective : Function.Injective hartOf := by decide

theorem reset_invariant (h : Reset s) : Invariant s := by
  have hnone : ∀ p, ¬ Holds s p := by
    rintro (- | i) hp
    · simp [Holds, h.main0] at hp
    · simp [Holds, h.main] at hp
  refine ⟨fun _ => ⟨h.hart_lock, h.main⟩, fun p hp => absurd hp (hnone p),
    fun p _ hp => absurd hp (hnone p), fun hlate => ?_, ?_, fun i => ?_⟩
  · rw [h.main0] at hlate
    exact absurd trivial hlate
  · rw [h.main0]
    exact False.elim
  · rw [h.main0, h.main]
    exact False.elim

/-- A step of hart 0 that does not touch the lock. -/
theorem Invariant.move0 (h : Invariant s) {m : Main0} {d : Hart → HartData}
    (hearly : m.Early ↔ s.main0.Early) (hholds : m = .puts ∨ m = .release ↔ Holds s none)
    (hrecord0 : Record0 (d (hartOf 0)) m)
    (hrecord : ∀ i, Record (m.Past i.succ) (d (hartOf i.succ)) (s.main i)) :
    Invariant { s with sbi_hart_data := d, main0 := m } := by
  have hsame : ∀ p, Holds { s with sbi_hart_data := d, main0 := m } p ↔ Holds s p := by
    rintro (- | i)
    · exact hholds
    · exact Iff.rfl
  exact ⟨fun he => h.early (hearly.mp he), fun p hp => h.locked p ((hsame p).mp hp),
    fun p q hp hq => h.alone p q ((hsame p).mp hp) ((hsame q).mp hq),
    fun hlate hnone => h.unlocked (mt hearly.mpr hlate) fun p hp => hnone p ((hsame p).mpr hp),
    hrecord0, hrecord⟩

/-- A step of another hart that does not touch the lock. -/
theorem Invariant.move (h : Invariant s) {m : Main} {d : Hart → HartData}
    (hlate : ¬ s.main0.Early) (hholds : m = .begins ∨ m = .post ↔ Holds s (some i))
    (hrecord : Record (s.main0.Past i.succ) (d (hartOf i.succ)) m)
    (hother : ∀ j : Fin 8, j ≠ i.succ → d (hartOf j) = s.sbi_hart_data (hartOf j)) :
    Invariant { s with sbi_hart_data := d, main := Function.update s.main i m } := by
  have hsame : ∀ p, Holds { s with sbi_hart_data := d, main := Function.update s.main i m } p ↔
      Holds s p := by
    rintro (- | j)
    · exact Iff.rfl
    · by_cases hj : j = i
      · subst hj
        simp only [Holds, Function.update_self]
        exact hholds
      · simp only [Holds, Function.update_of_ne hj]
  refine ⟨fun he => absurd he hlate, fun p hp => h.locked p ((hsame p).mp hp),
    fun p q hp hq => h.alone p q ((hsame p).mp hp) ((hsame q).mp hq),
    fun _ hnone => h.unlocked hlate fun p hp => hnone p ((hsame p).mpr hp), ?_, fun j => ?_⟩
  · have hzero := h.record0
    rwa [← hother 0 (Fin.succ_ne_zero i).symm] at hzero
  · by_cases hj : j = i
    · subst hj
      simpa only [Function.update_self] using hrecord
    · have hne : j.succ ≠ i.succ := fun e => hj (Fin.succ_injective _ e)
      simpa only [Function.update_of_ne hj, hother _ hne] using h.record j

/-- The lock is open, so nobody has it, and now one party has. -/
theorem Invariant.acquire (h : Invariant s) (hopen : s.hart_lock ≠ MUTEX_LOCKED)
    (hearly : t.main0.Early ↔ s.main0.Early) (hlock : t.hart_lock = MUTEX_LOCKED)
    (hp : Holds t p) (hothers : ∀ q, q ≠ p → (Holds t q ↔ Holds s q))
    (hrecord0 : Record0 (t.sbi_hart_data (hartOf 0)) t.main0)
    (hrecord : ∀ i, Record (t.main0.Past i.succ) (t.sbi_hart_data (hartOf i.succ)) (t.main i)) :
    Invariant t := by
  have hnone : ∀ q, ¬ Holds s q := fun q hq => hopen (h.locked q hq)
  have honly : ∀ q, Holds t q → q = p := fun q hq => by
    by_contra hne
    exact hnone q ((hothers q hne).mp hq)
  exact ⟨fun he => absurd (h.early (hearly.mp he)).1 hopen, fun _ _ => hlock,
    fun q r hq hr => (honly q hq).trans (honly r hr).symm, fun _ hno => absurd hp (hno p),
    hrecord0, hrecord⟩

/-- The lock is opened by the one that has it, or for the first time. -/
theorem Invariant.release (hlate : ¬ t.main0.Early) (hlock : t.hart_lock = MUTEX_UNLOCKED)
    (hnone : ∀ q, ¬ Holds t q)
    (hrecord0 : Record0 (t.sbi_hart_data (hartOf 0)) t.main0)
    (hrecord : ∀ i, Record (t.main0.Past i.succ) (t.sbi_hart_data (hartOf i.succ)) (t.main i)) :
    Invariant t :=
  ⟨fun he => absurd he hlate, fun q hq => absurd hq (hnone q), fun q _ hq => absurd hq (hnone q),
    fun _ _ => hlock, hrecord0, hrecord⟩

theorem setData_self (s : State) (j : Fin 8) (d : HartData) :
    (s.setData (hartOf j) d).sbi_hart_data (hartOf j) = d :=
  Function.update_self ..

theorem setData_other {j k : Fin 8} (h : k ≠ j) (s : State) (d : HartData) :
    (s.setData (hartOf j) d).sbi_hart_data (hartOf k) = s.sbi_hart_data (hartOf k) :=
  Function.update_of_ne (hartOf_injective.ne h) ..

/-- A store of hart 0 to its own record. -/
theorem Invariant.write0 (h : Invariant s) {m : Main0} {d : HartData} (hearly : ¬ m.Early)
    (hlate : ¬ s.main0.Early) (hm : ¬ (m = .puts ∨ m = .release)) (hs : ¬ Holds s none)
    (hpast : ∀ j, m.Past j → s.main0.Past j) (hrecord0 : Record0 d m) :
    Invariant ((s.setData (hartOf 0) d).goto0 m) := by
  refine h.move0 (iff_of_false hearly hlate) (iff_of_false hm hs) ?_ fun i => ?_
  · rwa [setData_self]
  · rw [setData_other (Fin.succ_ne_zero i)]
    have hi := h.record i
    revert hi
    cases s.main i <;> first | exact fun hi hp => hi (hpast _ hp) | exact id

theorem Record.mono {past past' : Prop} {d : HartData} {m : Main} (hpast : past' → past)
    (h : Record past d m) : Record past' d m := by
  cases m <;> first | exact fun hp => h (hpast hp) | exact h

/-- While hart 0 marks the harts, all others wait. -/
theorem Invariant.marked (h : Invariant s) {j : Fin 8} (hm : s.main0 = .invalid j) {k : Fin 8}
    (hk : k < j) : (s.sbi_hart_data (hartOf k)).status = .HS_INVALID := by
  obtain ⟨-, hwait⟩ := h.early (by rw [hm]; trivial)
  cases k using Fin.cases with
  | zero =>
    have hzero := h.record0
    rw [hm] at hzero
    exact hzero hk
  | succ i =>
    have hi := h.record i
    rw [hm, hwait] at hi
    exact hi hk

theorem invalid_invariant (h : Invariant s) {j : Fin 8} (hm : s.main0 = .invalid j) :
    Invariant (step0 s) := by
  obtain ⟨-, hwait⟩ := h.early (by rw [hm]; trivial)
  have hnext : ∃ m : Main0, (m = .begins ∨ ∃ k, m = .invalid k) ∧ (∀ k, m.Past k → k ≤ j) ∧
      step0 s = (s.setData (hartOf j)
        { s.sbi_hart_data (hartOf j) with status := .HS_INVALID }).goto0 m := by
    refine ⟨if h : j.val + 1 < 8 then .invalid ⟨j.val + 1, h⟩ else .begins, ?_, fun k hk => ?_, ?_⟩
    · split_ifs
      · exact .inr ⟨_, rfl⟩
      · exact .inl rfl
    · split_ifs at hk with hlt
      · exact Nat.le_of_lt_succ hk
      · exact Fin.le_def.mpr (by omega)
    · simp only [step0, hm]
  obtain ⟨m, hearly, hpast, hstep⟩ := hnext
  have hset (k : Fin 8) (hk : m.Past k) : ((s.setData (hartOf j)
      { s.sbi_hart_data (hartOf j) with status := .HS_INVALID }).sbi_hart_data (hartOf k)).status
      = .HS_INVALID := by
    rcases (hpast k hk).lt_or_eq with hlt | rfl
    · rw [setData_other hlt.ne]
      exact h.marked hm hlt
    · rw [setData_self]
  rw [hstep]
  refine h.move0 (iff_of_true ?_ (by rw [hm]; trivial)) (iff_of_false ?_ ?_) ?_ fun i => ?_
  · rcases hearly with rfl | ⟨k, rfl⟩ <;> trivial
  · rcases hearly with rfl | ⟨k, rfl⟩ <;> simp
  · simp [Holds, hm]
  · rcases hearly with rfl | ⟨k, rfl⟩ <;> exact hset 0
  · rw [hwait]
    exact hset i.succ

theorem step0_invariant (h : Invariant s) : Invariant (step0 s) := by
  have hzero := h.record0
  have hrecord := h.record
  have hpast {m : Main0} (hall : ∀ j, s.main0.Past j) (i : Fin 7) :
      Record (m.Past i.succ) (s.sbi_hart_data (hartOf i.succ)) (s.main i) :=
    (hrecord i).mono fun _ => hall _
  cases hm : s.main0 with
  | clearBss =>
    obtain ⟨hlock, hwait⟩ := h.early (by rw [hm]; trivial)
    have hstep : step0 s = { s with
        sbi_hart_data := s.clearBss.sbi_hart_data, main0 := .invalid 0 } := by
      have hcleared : (0 : Word) = s.hart_lock := hlock.symm
      simp only [step0, hm, State.clearBss, State.goto0, hcleared]
    rw [hstep]
    refine h.move0 (iff_of_true trivial (by rw [hm]; trivial)) (iff_of_false (by simp) ?_) ?_ fun i => ?_
    · simp [Holds, hm]
    · exact fun hp => absurd hp (Fin.not_lt_zero _)
    · rw [hwait]
      exact fun hp => absurd hp (Fin.not_lt_zero _)
  | invalid j => exact invalid_invariant h hm
  | begins =>
    rw [hm] at hzero
    simp only [step0, hm]
    exact h.move0 (iff_of_true trivial (by rw [hm]; trivial)) (iff_of_false (by simp) (by simp [Holds, hm]))
      hzero (hpast fun _ => by rw [hm]; trivial)
  | post =>
    obtain ⟨-, hwait⟩ := h.early (by rw [hm]; trivial)
    rw [hm] at hzero
    simp only [step0, hm]
    refine .release id rfl ?_ (hzero trivial) (hpast fun _ => by rw [hm]; trivial)
    rintro (- | i) hp
    · simp [Holds, State.goto0] at hp
    · simp [Holds, State.goto0, hwait] at hp
  | status =>
    simp only [step0, hm]
    exact h.write0 id (by rw [hm]; exact id) (by simp) (by simp [Holds, hm])
      (fun _ _ => by rw [hm]; trivial) rfl
  | target =>
    rw [hm] at hzero
    simp only [step0, hm]
    exact h.write0 id (by rw [hm]; exact id) (by simp) (by simp [Holds, hm])
      (fun _ _ => by rw [hm]; trivial) ⟨hzero, rfl⟩
  | frame =>
    rw [hm] at hzero
    simp only [step0, hm]
    refine h.write0 id (by rw [hm]; exact id) (by simp) (by simp [Holds, hm])
      (fun _ _ => by rw [hm]; trivial) ?_
    change HartData.mk _ _ _ = _
    rw [hzero.1, hzero.2]
  | wait =>
    rw [hm] at hzero
    by_cases hlock : s.hart_lock = MUTEX_LOCKED
    · have hstep : step0 s = s := by
        obtain ⟨lock, d, m, others⟩ := s
        obtain rfl : m = .wait := hm
        obtain rfl : lock = MUTEX_LOCKED := hlock
        rfl
      rwa [hstep]
    · have hstep : step0 s = { s with hart_lock := MUTEX_LOCKED, main0 := .puts } := by
        simp [step0, hm, mutexTry, hlock, State.goto0]
      rw [hstep]
      refine h.acquire hlock (iff_of_false id (by rw [hm]; exact id)) rfl (p := none) (.inl rfl) ?_ hzero
        (hpast fun _ => by rw [hm]; trivial)
      rintro (- | i) hq
      · exact absurd rfl hq
      · exact Iff.rfl
  | puts =>
    rw [hm] at hzero
    simp only [step0, hm]
    exact h.move0 (iff_of_false id (by rw [hm]; exact id)) (iff_of_true (.inr rfl) (.inl hm)) hzero
      (hpast fun _ => by rw [hm]; trivial)
  | release =>
    have hheld : Holds s none := .inr hm
    rw [hm] at hzero
    simp only [step0, hm]
    refine .release id rfl ?_ hzero (hpast fun _ => by rw [hm]; trivial)
    rintro (- | i) hp
    · simp [Holds, State.goto0] at hp
    · cases h.alone none (some i) hheld hp
  | os =>
    have hstep : step0 s = s := by simp only [step0, hm]
    rwa [hstep]

theorem step_invariant (h : Invariant s) (i : Fin 7) : Invariant (step s i) := by
  have hi := h.record i
  have hlate (hm : s.main i ≠ .wait) : ¬ s.main0.Early := fun he => hm ((h.early he).2 i)
  have hwrite {m : Main} {d : HartData} (hm : s.main i ≠ .wait) (hnew : ¬ (m = .begins ∨ m = .post))
      (hold : ¬ Holds s (some i)) (hrecord : Record (s.main0.Past i.succ) d m) :
      Invariant ((s.setData (hartOf i.succ) d).goto i m) := by
    refine h.move (hlate hm) (iff_of_false hnew hold) ?_ fun j hj => setData_other hj s d
    rwa [setData_self]
  have hothers {m : Main} (lock : Word) (j : Fin 7) (hj : j ≠ i) :
      Holds ({ s with hart_lock := lock }.goto i m) (some j) ↔ Holds s (some j) := by
    simp only [Holds, State.goto, Function.update_of_ne hj]
  have hrecords {m : Main} (lock : Word)
      (hrecord : Record (s.main0.Past i.succ) (s.sbi_hart_data (hartOf i.succ)) m) (j : Fin 7) :
      Record (s.main0.Past j.succ) (s.sbi_hart_data (hartOf j.succ))
        (({ s with hart_lock := lock }.goto i m).main j) := by
    by_cases hj : j = i
    · subst hj
      simpa only [State.goto, Function.update_self] using hrecord
    · simpa only [State.goto, Function.update_of_ne hj] using h.record j
  cases hm : s.main i with
  | wait =>
    rw [hm] at hi
    by_cases hlock : s.hart_lock = MUTEX_LOCKED
    · have hstep : step s i = s := by
        have hself : Function.update s.main i .wait = s.main := by
          rw [← hm, Function.update_eq_self]
        have hsame : (⟨MUTEX_LOCKED, s.sbi_hart_data, s.main0, s.main⟩ : State) = s := by
          rw [← hlock]
        simpa [step, hm, mutexTry, hlock, State.goto, hself] using hsame
      rwa [hstep]
    · have hstep : step s i = { s with hart_lock := MUTEX_LOCKED }.goto i .begins := by
        simp [step, hm, mutexTry, hlock]
      rw [hstep]
      refine h.acquire hlock Iff.rfl rfl (p := some i) (.inl (Function.update_self ..)) ?_ h.record0
        (hrecords _ hi)
      rintro (- | j) hq
      · exact Iff.rfl
      · exact hothers _ j fun e => hq (congrArg some e)
  | begins =>
    rw [hm] at hi
    simp only [step, hm]
    exact h.move (hlate (by simp [hm])) (iff_of_true (.inr rfl) (.inl hm)) hi fun _ _ => rfl
  | post =>
    have hheld : Holds s (some i) := .inr hm
    rw [hm] at hi
    simp only [step, hm]
    refine .release (hlate (by simp [hm])) rfl ?_ h.record0 (hrecords _ hi)
    rintro (- | j) hp
    · cases h.alone (some i) none hheld hp
    · by_cases hj : j = i
      · subst hj
        simp [Holds, State.goto] at hp
      · cases h.alone (some i) (some j) hheld ((hothers _ j hj).mp hp)
        exact hj rfl
  | status =>
    simp only [step, hm]
    exact hwrite (by simp [hm]) (by simp) (by simp [Holds, hm]) rfl
  | target =>
    rw [hm] at hi
    simp only [step, hm]
    exact hwrite (by simp [hm]) (by simp) (by simp [Holds, hm]) ⟨hi, rfl⟩
  | frame =>
    rw [hm] at hi
    simp only [step, hm]
    refine hwrite (by simp [hm]) (by simp) (by simp [Holds, hm]) ?_
    change HartData.mk _ _ _ = _
    rw [hi.1, hi.2]
  | hang =>
    have hstep : step s i = s := by simp only [step, hm]
    rwa [hstep]

theorem step_preserves_invariant (h : Invariant s) {e : Option (Fin 7)} (hs : Step s e t) :
    Invariant t := by
  subst hs
  cases e with
  | none => exact step0_invariant h
  | some i => exact step_invariant h i

end Invariant

/-! ## The end of the boot -/

/-- The steps that are left. -/
def Main0.left : Main0 → ℕ
  | .clearBss => 19
  | .invalid j => 18 - j.val
  | .begins => 10
  | .post => 9
  | .status => 8
  | .target => 7
  | .frame => 6
  | .wait => 5
  | .puts => 4
  | .release => 3
  | .os => 0

def Main.left : Main → ℕ
  | .wait => 6
  | .begins => 5
  | .post => 4
  | .status => 3
  | .target => 2
  | .frame => 1
  | .hang => 0

def left (s : State) : ℕ := s.main0.left + ∑ i, (s.main i).left

section Progress

variable {s : State} {i : Fin 7}

/-- Hart 0 goes on unless it waits for a lock that is held. -/
theorem step0_left (hos : s.main0 ≠ .os) (hlock : s.main0 = .wait → s.hart_lock ≠ MUTEX_LOCKED) :
    left (step0 s) < left s := by
  have hmain : (step0 s).main = s.main := by
    rw [step0]
    split <;> rfl
  have hless : (step0 s).main0.left < s.main0.left := by
    cases hm : s.main0 with
    | invalid j =>
      simp only [step0, hm, State.goto0]
      split_ifs with hlt
      · simp only [Main0.left]
        omega
      · have := j.isLt
        simp only [Main0.left]
        omega
    | wait => simp [step0, hm, mutexTry, hlock hm, State.goto0, Main0.left]
    | os => exact absurd hm hos
    | _ => simp [step0, hm, State.goto0, Main0.left]
  rw [left, left, hmain]
  exact Nat.add_lt_add_right hless _

theorem step_left (hhang : s.main i ≠ .hang) (hlock : s.main i = .wait → s.hart_lock ≠ MUTEX_LOCKED) :
    left (step s i) < left s := by
  obtain ⟨m, hzero, hmain, hless⟩ : ∃ m, (step s i).main0 = s.main0 ∧
      (step s i).main = Function.update s.main i m ∧ m.left < (s.main i).left := by
    cases hm : s.main i with
    | wait => exact ⟨.begins, by simp [step, hm, mutexTry, hlock hm, State.goto, Main.left]⟩
    | begins => exact ⟨.post, by simp [step, hm, State.goto, Main.left]⟩
    | post => exact ⟨.status, by simp [step, hm, State.goto, Main.left]⟩
    | status => exact ⟨.target, by simp [step, hm, State.goto, State.setData, Main.left]⟩
    | target => exact ⟨.frame, by simp [step, hm, State.goto, State.setData, Main.left]⟩
    | frame => exact ⟨.hang, by simp [step, hm, State.goto, State.setData, Main.left]⟩
    | hang => exact absurd hm hhang
  have hsum : ∑ j, (Function.update s.main i m j).left < ∑ j, (s.main j).left := by
    refine Finset.sum_lt_sum (fun j _ => ?_) ⟨i, Finset.mem_univ i, ?_⟩
    · by_cases hj : j = i
      · subst hj
        rw [Function.update_self]
        exact hless.le
      · rw [Function.update_of_ne hj]
    · rwa [Function.update_self]
  rw [left, left, hzero, hmain]
  exact Nat.add_lt_add_left hsum _

/-- Somebody goes on. -/
theorem Invariant.progress (h : Invariant s) (hnot : ¬ Finished s) :
    ∃ e, left (next s e) < left s := by
  by_cases hearly : s.main0.Early
  · refine ⟨none, step0_left ?_ ?_⟩
    · intro hm
      rw [hm] at hearly
      exact hearly
    · intro hm
      rw [hm] at hearly
      exact absurd hearly id
  by_cases hheld : ∃ p, Holds s p
  · -- whoever has the lock
    obtain ⟨- | i, hp⟩ := hheld
    · refine ⟨none, step0_left ?_ ?_⟩ <;> rcases hp with hm | hm <;> simp [hm]
    · refine ⟨some i, step_left ?_ ?_⟩ <;> rcases hp with hm | hm <;> simp [hm]
  · have hopen : s.hart_lock ≠ MUTEX_LOCKED := by
      rw [h.unlocked hearly (not_exists.mp hheld)]
      decide
    by_cases hos : s.main0 = .os
    · obtain ⟨i, hi⟩ := not_forall.mp fun hall => hnot ⟨hos, hall⟩
      exact ⟨some i, step_left hi fun _ => hopen⟩
    · exact ⟨none, step0_left hos fun _ => hopen⟩

theorem Invariant.finishes (h : Invariant s) : ∃ t, Execution Step s t ∧ Finished t := by
  induction hn : left s using Nat.strong_induction_on generalizing s with
  | _ n ih =>
    subst hn
    by_cases hdone : Finished s
    · exact ⟨s, .refl s, hdone⟩
    · obtain ⟨e, hless⟩ := h.progress hdone
      have hstep : Step s e (next s e) := rfl
      obtain ⟨t, hrun, ht⟩ := ih _ hless (step_preserves_invariant h hstep) rfl
      exact ⟨t, (Execution.single hstep).trans hrun, ht⟩

end Progress

/-! ## Safety -/

section Safety

variable {s t : State}

theorem Invariant.printing_one (h : Invariant s) (p q : Option (Fin 7)) (hp : Printing s p)
    (hq : Printing s q) : p = q := by
  by_cases hearly : s.main0.Early
  · -- the others wait
    have hnone (i : Fin 7) : ¬ Printing s (some i) := fun hi => by
      have hwait := (h.early hearly).2 i
      rw [show s.main i = .begins from hi] at hwait
      cases hwait
    rcases p with - | i
    · rcases q with - | j
      · rfl
      · exact absurd hq (hnone j)
    · exact absurd hp (hnone i)
  · have hholds (r : Option (Fin 7)) (hr : Printing s r) : Holds s r := by
      rcases r with - | i
      · rcases hr with hm | hm
        · exact absurd (by rw [hm]; trivial) hearly
        · exact .inl hm
      · exact .inl hr
    exact h.alone p q (hholds p hp) (hholds q hq)

theorem Main0.past_of_late {m : Main0} (h : ¬ m.Early) (j : Fin 8) : m.Past j := by
  cases m <;> first | trivial | exact absurd trivial h

theorem exists_hartOf {hart : Hart} (h : hart < MAX_SUPPORTED_HARTS) : ∃ j, hart = hartOf j := by
  refine ⟨⟨hart.toNat, h⟩, ?_⟩
  rw [hartOf, BitVec.ofNat_toNat, BitVec.setWidth_eq]

theorem hartOf_supported (j : Fin 8) : ¬ MAX_SUPPORTED_HARTS ≤ hartOf j := by
  revert j
  decide

theorem Record.status {past : Prop} {d : HartData} {m : Main} (h : Record past d m) (hpast : past) :
    d.status = .HS_INVALID ∨ d.status = .HS_STOPPED := by
  cases m with
  | wait | begins | post | status => exact .inl (h hpast)
  | target => exact .inr h
  | frame => exact .inr h.1
  | hang => exact .inr (congrArg HartData.status h)

theorem Invariant.safe (h : Invariant s) : Safe s where
  printing := h.printing_one
  behind i hi he := hi ((h.early he).2 i)
  invalid hlate i hi := by
    have hrecord := h.record i
    have hpast := Main0.past_of_late hlate i.succ
    have hlt : ¬ MAX_SUPPORTED_HARTS ≤ hartOf i.succ := hartOf_supported i.succ
    rw [getHartStatus, if_neg hlt]
    simp only [List.mem_cons, List.not_mem_nil, or_false] at hi
    rcases hi with hm | hm | hm | hm
    all_goals
      rw [hm] at hrecord
      exact hrecord hpast
  stopped i hi := by
    have hrecord := h.record i
    rwa [hi] at hrecord
  started hos := by
    have hzero := h.record0
    rw [hos] at hzero
    refine ⟨hzero, fun hart hlt => ?_⟩
    obtain ⟨j, rfl⟩ := exists_hartOf hlt
    cases j using Fin.cases with
    | zero =>
      rw [show s.sbi_hart_data (hartOf 0) = ⟨.HS_STARTED, 0, NO_FRAME⟩ from hzero]
      simp [Transitional]
    | succ i =>
      have hpast : s.main0.Past i.succ := by
        rw [hos]
        trivial
      rcases (h.record i).status hpast with hstatus | hstatus
      all_goals simp [Transitional, hstatus]
  finishes := h.finishes

/-- In every order of steps. -/
theorem boot_safe (hreset : Reset s) (hrun : Execution Step s t) : Safe t :=
  (hrun.invariant (fun _ _ _ h hs => step_preserves_invariant h hs) (reset_invariant hreset)).safe

/-- Power has just come on. -/
def reset : State := ⟨MUTEX_LOCKED, fun _ => ⟨.HS_STOPPED, 0, 0⟩, .clearBss, fun _ => .wait⟩

theorem reset_reset : Reset reset := ⟨rfl, rfl, fun _ => rfl⟩

theorem boot_safe_reset : Reset reset ∧ Safe (step0 reset) :=
  ⟨reset_reset, boot_safe reset_reset (Execution.single (e := none) rfl)⟩

/-- The calls of the OS start from here. -/
def handed (ι : Type*) (s : State) : HartControl.State ι where
  sbi_hart_lock _ := MUTEX_UNLOCKED
  sbi_hart_data := s.sbi_hart_data
  clint _ := false
  control _ := .idle
  history _ := []

theorem Safe.handed_boot (h : Safe s) (hos : s.main0 = .os) (ι : Type*) :
    HartControl.Boot (handed ι s) where
  control _ := rfl
  unlocked _ _ := rfl
  clint _ _ := rfl
  status := (h.started hos).2
  history _ := rfl

end Safety

end Boot
