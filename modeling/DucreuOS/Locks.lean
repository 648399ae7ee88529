import DucreuOS.Library.Transition

/-! # Mutexes and semaphores

`lock.c` on 32-bit words. An `amoswap.w` or `amoadd.w` is one atomic step; what a party does
between two of them does not touch the word. -/
namespace Locks

open Transition

/-- `mutex_t` and `sem_t`. -/
abbrev Word := BitVec 32

def MUTEX_LOCKED : Word := 0
def MUTEX_UNLOCKED : Word := 1

/-- Returns 1 if the lock was acquired; the word is locked afterwards either way. -/
def mutexTry (mutex : Word) : Int × Word :=
  (if mutex = MUTEX_LOCKED then 0 else 1, MUTEX_LOCKED)

def mutexPost (_ : Word) : Word := MUTEX_UNLOCKED

/-- `amoadd.w`: the word before and the word after. -/
def amoadd (sem d : Word) : Word × Word := (sem, sem + d)

/-- No `amoadd` leaves the signed range. -/
theorem amoadd_toInt (sem d : Word) (hlo : -2 ^ 31 ≤ sem.toInt + d.toInt)
    (hhi : sem.toInt + d.toInt < 2 ^ 31) :
    (amoadd sem d).2.toInt = sem.toInt + d.toInt := by
  change (sem + d).toInt = _
  rw [BitVec.toInt_add, Int.bmod_eq_of_le]
  · simpa using hlo
  · simpa using hhi

/-! ## Parties -/

/-- Where a party is in its calls. -/
inductive Control
  | outside
  /-- between the two steps of a failed `sem_try` -/
  | restoring (waiting : Bool)
  /-- in the loop of `sem_wait`, before the next `sem_try` -/
  | spinning
  deriving DecidableEq

/-- `held` counts the successful acquires it has not posted yet. -/
structure Party where
  control : Control
  held : ℕ

/-- Failed tries of a party that have not restored the value yet. -/
def Party.owed (p : Party) : ℕ :=
  match p.control with
  | .restoring _ => 1
  | _ => 0

theorem Party.owed_le (p : Party) : p.owed ≤ 1 := by
  simp only [owed]
  split
  · exact Nat.le_refl 1
  · exact Nat.zero_le 1

structure State (ι : Type*) where
  sem : Word
  party : ι → Party

variable {ι : Type*}

def initial (N : ℕ) : State ι := ⟨BitVec.ofNat 32 N, fun _ => ⟨.outside, 0⟩⟩

section Counts

variable [Fintype ι]

def held (s : State ι) : ℕ := ∑ i, (s.party i).held

def owed (s : State ι) : ℕ := ∑ i, (s.party i).owed

def holders (s : State ι) : Finset ι := {i | 0 < (s.party i).held}

/-- The parties whose last try has failed and not restored the value. -/
def restoring (s : State ι) : Finset ι := {i | (s.party i).owed = 1}

theorem owed_le (s : State ι) : owed s ≤ Fintype.card ι := by
  calc owed s ≤ ∑ _ : ι, 1 := Finset.sum_le_sum fun i _ => (s.party i).owed_le
    _ = Fintype.card ι := by simp

theorem owed_eq (s : State ι) : owed s = (restoring s).card := by
  rw [restoring, Finset.card_filter]
  apply Finset.sum_congr rfl
  intro i _
  have := (s.party i).owed_le
  split <;> omega

theorem holders_le (s : State ι) : (holders s).card ≤ held s := by
  rw [holders, Finset.card_filter]
  apply Finset.sum_le_sum
  intro i _
  split <;> omega

/-- With at most one acquire each, what is held is the number of parties that hold. -/
theorem held_eq (s : State ι) (h1 : ∀ i, (s.party i).held ≤ 1) : held s = (holders s).card := by
  rw [holders, Finset.card_filter]
  apply Finset.sum_congr rfl
  intro i _
  have := h1 i
  split <;> omega

/-- The value is what is free, less the failed tries, and what is free is not negative. -/
structure Invariant (N : ℕ) (s : State ι) : Prop where
  value : s.sem.toInt = N - held s - owed s
  held_le : held s ≤ N

theorem initial_invariant {N : ℕ} (hN : N < 2 ^ 30) : Invariant N (initial N : State ι) := by
  have hheld : held (initial N : State ι) = 0 := Finset.sum_eq_zero fun _ _ => rfl
  have howed : owed (initial N : State ι) = 0 := Finset.sum_eq_zero fun _ _ => rfl
  constructor
  · rw [hheld, howed]
    change (BitVec.ofNat 32 N).toInt = _
    rw [BitVec.toInt_eq_toNat_of_lt]
    · simp only [BitVec.toNat_ofNat]
      omega
    · simp only [BitVec.toNat_ofNat]
      omega
  · rw [hheld]
    exact Nat.zero_le N

theorem Invariant.range {N : ℕ} {s : State ι} (h : Invariant N s) (hN : N < 2 ^ 30)
    (hι : Fintype.card ι < 2 ^ 30) : -2 ^ 30 < s.sem.toInt ∧ s.sem.toInt < 2 ^ 30 := by
  have := owed_le s
  have := h.value
  have := h.held_le
  omega

end Counts

/-! ## Steps -/

/-- The parties may be many and may hold the semaphore more than once. -/
inductive Event (ι : Type*)
  | semTry (i : ι)
  | semWait (i : ι)
  /-- another round of `sem_wait` -/
  | again (i : ι)
  /-- the `sem_post` of a failed `sem_try` -/
  | restore (i : ι)
  | semPost (i : ι)

def Enabled (s : State ι) : Event ι → Prop
  | .semTry i => (s.party i).control = .outside
  | .semWait i => (s.party i).control = .outside
  | .again i => (s.party i).control = .spinning
  | .restore i => ∃ waiting, (s.party i).control = .restoring waiting
  | .semPost i => (s.party i).control = .outside ∧ 0 < (s.party i).held

variable [DecidableEq ι]

/-- The first step of `sem_try`, called from the loop of `sem_wait` or not. -/
def attempt (s : State ι) (i : ι) (waiting : Bool) : State ι :=
  let (previous, sem) := amoadd s.sem (-1)
  let p := s.party i
  if previous.toInt ≤ 0 then ⟨sem, Function.update s.party i ⟨.restoring waiting, p.held⟩⟩
  else ⟨sem, Function.update s.party i ⟨.outside, p.held + 1⟩⟩

def next (s : State ι) : Event ι → State ι
  | .semTry i => attempt s i false
  | .semWait i => attempt s i true
  | .again i => attempt s i true
  | .restore i =>
    let control := if (s.party i).control = .restoring true then .spinning else .outside
    ⟨(amoadd s.sem 1).2, Function.update s.party i ⟨control, (s.party i).held⟩⟩
  | .semPost i =>
    ⟨(amoadd s.sem 1).2, Function.update s.party i ⟨.outside, (s.party i).held - 1⟩⟩

def Step (s : State ι) (e : Event ι) (u : State ι) : Prop := Enabled s e ∧ u = next s e

variable [Fintype ι] {N : ℕ} {s u : State ι} {i : ι}

/-- What one party counts for, and all the others. -/
theorem sum_update (f : Party → ℕ) (party : ι → Party) (i : ι) : ∃ rest,
    ∑ j, f (party j) = f (party i) + rest ∧
      ∀ p, ∑ j, f (Function.update party i p j) = f p + rest := by
  refine ⟨∑ j ∈ Finset.univ.erase i, f (party j), ?_, fun p => ?_⟩
  · exact (Finset.add_sum_erase _ (fun j => f (party j)) (Finset.mem_univ i)).symm
  · rw [← Finset.add_sum_erase _ _ (Finset.mem_univ i), Function.update_self]
    congr 1
    apply Finset.sum_congr rfl
    intro j hj
    rw [Function.update_of_ne (Finset.ne_of_mem_erase hj)]

/-- One step of a party that keeps the balance of the value with what it holds and owes. -/
theorem Invariant.of_update (h : Invariant N s) (hN : N < 2 ^ 30)
    (hι : Fintype.card ι < 2 ^ 30) (d : Word) (hd : d.toInt = 1 ∨ d.toInt = -1) (p : Party)
    (hbal : (p.held + p.owed : ℤ) + d.toInt = (s.party i).held + (s.party i).owed)
    (hle : p.held ≤ (s.party i).held ∨ p.owed = 0 ∧ 0 < s.sem.toInt) :
    Invariant N ⟨(amoadd s.sem d).2, Function.update s.party i p⟩ := by
  obtain ⟨hlo, hhi⟩ := h.range hN hι
  obtain ⟨restHeld, hheld, hheld'⟩ := sum_update Party.held s.party i
  obtain ⟨restOwed, howed, howed'⟩ := sum_update Party.owed s.party i
  have hvalue := h.value
  have hfits := h.held_le
  simp only [held, owed, hheld, howed] at hvalue hfits
  constructor
  · rw [amoadd_toInt _ _ (by omega) (by omega)]
    simp only [held, owed, hheld', howed']
    omega
  · simp only [held, hheld']
    omega

theorem Invariant.attempt (h : Invariant N s) (hN : N < 2 ^ 30) (hι : Fintype.card ι < 2 ^ 30)
    (hi : ∀ waiting, (s.party i).control ≠ .restoring waiting) (waiting : Bool) :
    Invariant N (attempt s i waiting) := by
  have hd : (-1 : Word).toInt = -1 := by decide
  have howed : (s.party i).owed = 0 := by
    cases hc : (s.party i).control with
    | outside => simp [Party.owed, hc]
    | restoring w => exact absurd hc (hi w)
    | spinning => simp [Party.owed, hc]
  by_cases hprev : s.sem.toInt ≤ 0
  · have he : Locks.attempt s i waiting = ⟨(amoadd s.sem (-1)).2,
        Function.update s.party i ⟨.restoring waiting, (s.party i).held⟩⟩ := if_pos hprev
    rw [he]
    apply h.of_update hN hι (-1) (Or.inr hd)
    · rw [howed, hd]
      simp [Party.owed]
    · exact Or.inl (Nat.le_refl _)
  · have he : Locks.attempt s i waiting = ⟨(amoadd s.sem (-1)).2,
        Function.update s.party i ⟨.outside, (s.party i).held + 1⟩⟩ := if_neg hprev
    rw [he]
    apply h.of_update hN hι (-1) (Or.inr hd)
    · rw [howed, hd]
      simp [Party.owed]
    · exact Or.inr ⟨rfl, not_le.1 hprev⟩

theorem step_preserves_invariant {e : Event ι} (h : Invariant N s)
    (hN : N < 2 ^ 30) (hι : Fintype.card ι < 2 ^ 30) (hs : Step s e u) : Invariant N u := by
  obtain ⟨he, rfl⟩ := hs
  have hd : (1 : Word).toInt = 1 := by decide
  cases e with
  | semTry i =>
    change (s.party i).control = .outside at he
    exact h.attempt hN hι (by simp [he]) false
  | semWait i =>
    change (s.party i).control = .outside at he
    exact h.attempt hN hι (by simp [he]) true
  | again i =>
    change (s.party i).control = .spinning at he
    exact h.attempt hN hι (by simp [he]) true
  | restore i =>
    obtain ⟨waiting, hc⟩ := he
    apply h.of_update hN hι 1 (Or.inl hd)
    · cases waiting <;> simp [Party.owed, hc]
    · exact Or.inl (Nat.le_refl _)
  | semPost i =>
    obtain ⟨hc, hpos⟩ := he
    apply h.of_update hN hι 1 (Or.inl hd)
    · simp only [Party.owed, hc, hd]
      omega
    · exact Or.inl (Nat.sub_le _ 1)

theorem reachable_invariant (hN : N < 2 ^ 30) (hι : Fintype.card ι < 2 ^ 30)
    (h : Execution Step (initial N) s) : Invariant N s :=
  h.invariant (fun _ _ _ hs ht => step_preserves_invariant hs hN hι ht) (initial_invariant hN)

/-- At most `N` hold the semaphore, and its value is `N` less what is held and owed. -/
theorem semaphore_safe (hN : N < 2 ^ 30) (hι : Fintype.card ι < 2 ^ 30)
    (h : Execution Step (initial N) s) :
    held s ≤ N ∧ (holders s).card ≤ N ∧
      s.sem.toInt = N - held s - (restoring s).card ∧
      ((∀ i, (s.party i).held ≤ 1) →
        s.sem.toInt = N - (holders s).card - (restoring s).card) := by
  have hs := reachable_invariant hN hι h
  have hvalue := hs.value
  rw [owed_eq] at hvalue
  refine ⟨hs.held_le, (holders_le s).trans hs.held_le, hvalue, fun h1 => ?_⟩
  rw [hvalue, held_eq s h1]

/-- Two parties and one permit: the second try fails, and the value is -1 until it is restored. -/
theorem semaphore_safe_two :
    let s : State Bool := attempt (attempt (initial 1) true false) false true
    Execution Step (initial 1) s ∧ (holders s).card ≤ 1 ∧
      s.sem.toInt = ((1 : ℕ) : ℤ) - held s - (restoring s).card ∧ s.sem.toInt = -1 := by
  intro s
  have hrun : Execution Step (initial 1) s := by
    apply Execution.tail (Execution.single (e := Event.semTry true) ⟨rfl, rfl⟩)
      (e := Event.semWait false)
    exact ⟨rfl, rfl⟩
  obtain ⟨-, hle, hvalue, -⟩ := semaphore_safe (by decide) (by decide) hrun
  exact ⟨hrun, hle, hvalue, by decide⟩

end Locks
