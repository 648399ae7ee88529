import DucreuOS.Library.Transition

/-! # The `active` flag of the GPU

`gpu_init`, the display branch of `gpu_irq_handler` and `gpu_transfer_and_flush_some`, run by any
parties in any order. One step is one request to the device, with its outcome, or one section
under `gpu_mutex`. The flag is given back by the last section of `gpu_transfer_and_flush_some`,
for whoever called it, and by no error return. -/
namespace Gpu

open Transition

/-- The steps of `gpu_transfer_and_flush_some`. -/
inductive FlushStep
  | transfer | flush
  /-- `active = 0` -/
  | release
  deriving DecidableEq

/-- The next step, or the value returned. -/
def FlushStep.next (ok : Bool) : FlushStep → FlushStep ⊕ ℕ
  | .transfer => if ok then .inl .flush else .inr 6
  | .flush => if ok then .inl .release else .inr 7
  | .release => .inr 0

/-- The steps of `gpu_init`. -/
inductive InitStep
  /-- test and set of the flag -/
  | check
  | displayInfo | create2d | attachBacking | setScanout | fill
  | flush (step : FlushStep)
  deriving DecidableEq

/-- Who waits for `gpu_init` to return. -/
inductive Caller
  | console
  /-- the interrupt handler, before there are pixels -/
  | firstDisplay
  /-- the interrupt handler, resizing -/
  | resize
  deriving DecidableEq

/-- The steps of the handler around its call of `gpu_init`. -/
inductive ResizeStep
  | check | unref | release
  /-- `active = 0` after `gpu_init` has returned -/
  | last
  deriving DecidableEq

inductive Control
  | idle
  | returned (ret : ℕ)
  | init (caller : Caller) (step : InitStep)
  | draw (step : FlushStep)
  | resize (step : ResizeStep)
  deriving DecidableEq

/-- What `gpu_init` returns to. -/
def Caller.back (ret : ℕ) : Caller → Control
  | .console => .returned ret
  | .firstDisplay => .idle
  | .resize => .resize .last

structure State (ι : Type*) where
  active : Bool
  /-- `fb.pixels != NULL` -/
  pixels : Bool
  control : ι → Control

variable {ι : Type*}

/-- At the end of the driver's setup. -/
def initial : State ι := ⟨false, false, fun _ => .idle⟩

section Steps

variable [DecidableEq ι]

def State.goto (s : State ι) (i : ι) (c : Control) : State ι :=
  { s with control := Function.update s.control i c }

/-- One step of `gpu_transfer_and_flush_some`; `back` is where its return value goes. -/
def flushStep (s : State ι) (i : ι) (ok : Bool) (step : FlushStep) (inside : FlushStep → Control)
    (back : ℕ → Control) : State ι :=
  let s := if step = .release then { s with active := false } else s
  match step.next ok with
  | .inl next => s.goto i (inside next)
  | .inr ret => s.goto i (back ret)

/-- One step of `gpu_init`. -/
def initStep (s : State ι) (i : ι) (ok : Bool) (caller : Caller) : InitStep → State ι
  | .check =>
    if s.active then s.goto i (caller.back 10)
    else { s with active := true }.goto i (.init caller .displayInfo)
  | .displayInfo =>
    if ok then { s with pixels := true }.goto i (.init caller .create2d)
    else s.goto i (caller.back 1)
  | .create2d => s.goto i (if ok then .init caller .attachBacking else caller.back 2)
  | .attachBacking => s.goto i (if ok then .init caller .setScanout else caller.back 2)
  | .setScanout => s.goto i (if ok then .init caller .fill else caller.back 3)
  | .fill => s.goto i (.init caller (.flush .transfer))
  | .flush step =>
    flushStep s i ok step (fun next => .init caller (.flush next))
      fun ret => caller.back (if ret ≠ 0 then 6 else 0)

/-- One step of the resizing branch. It goes on whatever the flag was, and whatever the device
answers. -/
def resizeStep (s : State ι) (i : ι) : ResizeStep → State ι
  | .check => { s with active := true }.goto i (.resize .unref)
  | .unref => s.goto i (.resize .release)
  | .release => { s with active := false }.goto i (.init .resize .check)
  | .last => { s with active := false }.goto i .idle

inductive Event (ι : Type*)
  | gpuInit (i : ι)
  | draw (i : ι)
  /-- an interrupt with `events_read != 0` -/
  | display (i : ι)
  /-- a step, and whether its request succeeds -/
  | go (i : ι) (ok : Bool)

def Control.Free : Control → Prop
  | .idle | .returned _ => True
  | _ => False

def Enabled (s : State ι) : Event ι → Prop
  | .gpuInit i => (s.control i).Free
  | .draw i => (s.control i).Free
  | .display i => (s.control i).Free
  | .go i _ => ¬ (s.control i).Free

def next (s : State ι) : Event ι → State ι
  | .gpuInit i => s.goto i (.init .console .check)
  | .draw i => s.goto i (.draw .transfer)
  | .display i => s.goto i (if s.pixels then .resize .check else .init .firstDisplay .check)
  | .go i ok =>
    match s.control i with
    | .init caller step => initStep s i ok caller step
    | .draw step => flushStep s i ok step .draw .returned
    | .resize step => resizeStep s i step
    | _ => s

def Step (s : State ι) (e : Event ι) (t : State ι) : Prop := Enabled s e ∧ t = next s e

end Steps

/-! ## The contract -/

/-- `gpu_init` past its test until it returns, and the handler from its test to the call of
`gpu_init`. -/
def Control.Initialising : Control → Prop
  | .init _ .check => False
  | .init _ _ => True
  | .resize .unref => True
  | .resize .release => True
  | _ => False

structure Contract (s : State ι) : Prop where
  flag : s.active = true ↔ ∃ i, (s.control i).Initialising
  single : ∀ i j, (s.control i).Initialising → (s.control j).Initialising → i = j
  /-- A failed initialisation leaves the flag free for the next one. -/
  retry : ∀ i ret, s.control i = .returned ret → ret ≠ 0 →
    (∀ j, ¬ (s.control j).Initialising) → s.active = false

/-- No party is initialising. -/
def Quiet (s : State ι) : Prop := ∀ j, ¬ (s.control j).Initialising

/-- No request of `gpu_init` fails, and no party that has not been let through by the test of the
flag writes to it during an initialisation. -/
def Undisturbed (s : State ι) : Event ι → Prop
  | .go i ok =>
    match s.control i with
    | .init _ .check => True
    | .init _ .fill => True
    | .init _ (.flush .release) => True
    | .init _ _ => ok = true
    | .draw .release => Quiet s
    | .resize .check => Quiet s
    | .resize .last => Quiet s
    | _ => True
  | _ => True

section Keeps

variable {s t : State ι} {i : ι} {c : Control}

theorem Contract.of_flag (hflag : s.active = true ↔ ∃ i, (s.control i).Initialising)
    (hsingle : ∀ i j, (s.control i).Initialising → (s.control j).Initialising → i = j) :
    Contract s := by
  refine ⟨hflag, hsingle, fun i ret _ _ hquiet => ?_⟩
  rw [← Bool.not_eq_true, hflag]
  exact fun ⟨j, hj⟩ => hquiet j hj

theorem Contract.quiet_iff (h : Contract s) : Quiet s ↔ s.active = false := by
  rw [← Bool.not_eq_true, h.flag, not_exists]
  rfl

/-- Nobody else initialises. -/
theorem Contract.others (h : Contract s) (hi : (s.control i).Initialising) :
    ∀ j ≠ i, ¬ (s.control j).Initialising := fun j hj hinit => hj (h.single j i hinit hi)

theorem initial_contract : Contract (initial : State ι) := by
  refine .of_flag (iff_of_false Bool.false_ne_true ?_) fun i j hi => hi.elim
  exact fun ⟨i, hi⟩ => hi

/-- The flag is cleared while another party initialises. -/
theorem not_contract_of_cleared {j : ι} (hj : (t.control j).Initialising)
    (hactive : t.active = false) : ¬ Contract t := by
  intro ht
  have htrue := ht.flag.mpr ⟨j, hj⟩
  rw [hactive] at htrue
  cases htrue

variable [DecidableEq ι]

/-- A party that moves without the flag. -/
theorem Contract.still (h : Contract s) (hactive : t.active = s.active)
    (hcontrol : t.control = Function.update s.control i c)
    (hc : c.Initialising ↔ (s.control i).Initialising) : Contract t := by
  have hsame : ∀ j, (t.control j).Initialising ↔ (s.control j).Initialising := by
    intro j
    rw [hcontrol]
    by_cases hj : j = i
    · rw [hj, Function.update_self, hc]
    · rw [Function.update_of_ne hj]
  refine .of_flag ?_ fun j k hj hk => h.single j k ((hsame j).mp hj) ((hsame k).mp hk)
  rw [hactive, h.flag]
  exact exists_congr fun j => (hsame j).symm

/-- The flag is taken. -/
theorem Contract.take (hquiet : Quiet s) (hactive : t.active = true)
    (hcontrol : t.control = Function.update s.control i c) (hc : c.Initialising) : Contract t := by
  have honly : ∀ j, (t.control j).Initialising → j = i := by
    intro j hj
    by_contra hne
    rw [hcontrol, Function.update_of_ne hne] at hj
    exact hquiet j hj
  refine .of_flag (iff_of_true hactive ⟨i, ?_⟩) fun j k hj hk => (honly j hj).trans (honly k hk).symm
  rw [hcontrol, Function.update_self]
  exact hc

/-- The flag is given back. -/
theorem Contract.give (hothers : ∀ j ≠ i, ¬ (s.control j).Initialising) (hactive : t.active = false)
    (hcontrol : t.control = Function.update s.control i c) (hc : ¬ c.Initialising) : Contract t := by
  have hnone : ∀ j, ¬ (t.control j).Initialising := by
    intro j
    rw [hcontrol]
    by_cases hj : j = i
    · rw [hj, Function.update_self]
      exact hc
    · rw [Function.update_of_ne hj]
      exact hothers j hj
  refine .of_flag (iff_of_false ?_ fun ⟨j, hj⟩ => hnone j hj) fun j k hj => absurd hj (hnone j)
  rw [hactive]
  exact Bool.false_ne_true

theorem not_initialising_back (caller : Caller) (ret : ℕ) : ¬ (caller.back ret).Initialising := by
  cases caller <;> exact id

theorem initStep_contract {caller : Caller} {step : InitStep} {ok : Bool} (h : Contract s)
    (hc : s.control i = .init caller step) (hu : Undisturbed s (.go i ok)) :
    Contract (initStep s i ok caller step) := by
  simp only [Undisturbed, hc] at hu
  cases step with
  | check =>
    have hi : ¬ (s.control i).Initialising := by rw [hc]; exact id
    by_cases ha : s.active = true
    · simp only [initStep, ha, if_true]
      exact h.still rfl rfl (iff_of_false (not_initialising_back caller 10) hi)
    · simp only [initStep, ha]
      exact .take (h.quiet_iff.mpr (by simpa using ha)) rfl rfl trivial
  | displayInfo =>
    have hi : (s.control i).Initialising := by rw [hc]; trivial
    obtain rfl : ok = true := hu
    exact h.still (t := initStep s i true caller .displayInfo) rfl rfl (iff_of_true trivial hi)
  | create2d =>
    have hi : (s.control i).Initialising := by rw [hc]; trivial
    obtain rfl : ok = true := hu
    exact h.still rfl rfl (iff_of_true trivial hi)
  | attachBacking =>
    have hi : (s.control i).Initialising := by rw [hc]; trivial
    obtain rfl : ok = true := hu
    exact h.still rfl rfl (iff_of_true trivial hi)
  | setScanout =>
    have hi : (s.control i).Initialising := by rw [hc]; trivial
    obtain rfl : ok = true := hu
    exact h.still rfl rfl (iff_of_true trivial hi)
  | fill =>
    have hi : (s.control i).Initialising := by rw [hc]; trivial
    exact h.still rfl rfl (iff_of_true trivial hi)
  | flush step =>
    have hi : (s.control i).Initialising := by rw [hc]; trivial
    cases step with
    | transfer =>
      obtain rfl : ok = true := hu
      exact h.still rfl rfl (iff_of_true trivial hi)
    | flush =>
      obtain rfl : ok = true := hu
      exact h.still rfl rfl (iff_of_true trivial hi)
    | release => exact .give (h.others hi) rfl rfl (not_initialising_back caller 0)

theorem drawStep_contract {step : FlushStep} {ok : Bool} (h : Contract s)
    (hc : s.control i = .draw step) (hu : Undisturbed s (.go i ok)) :
    Contract (flushStep s i ok step .draw .returned) := by
  simp only [Undisturbed, hc] at hu
  have hi : ¬ (s.control i).Initialising := by rw [hc]; exact id
  cases step with
  | transfer => cases ok <;> exact h.still rfl rfl (iff_of_false id hi)
  | flush => cases ok <;> exact h.still rfl rfl (iff_of_false id hi)
  | release =>
    have hquiet : Quiet s := hu
    exact .give (fun j _ => hquiet j) rfl rfl id

theorem resizeStep_contract {step : ResizeStep} {ok : Bool} (h : Contract s)
    (hc : s.control i = .resize step) (hu : Undisturbed s (.go i ok)) :
    Contract (resizeStep s i step) := by
  simp only [Undisturbed, hc] at hu
  cases step with
  | check => exact .take hu rfl rfl trivial
  | unref =>
    have hi : (s.control i).Initialising := by rw [hc]; trivial
    exact h.still rfl rfl (iff_of_true trivial hi)
  | release =>
    have hi : (s.control i).Initialising := by rw [hc]; trivial
    exact .give (h.others hi) rfl rfl id
  | last =>
    have hquiet : Quiet s := hu
    exact .give (fun j _ => hquiet j) rfl rfl id

theorem Control.Free.not_initialising (h : c.Free) : ¬ c.Initialising := by
  cases c <;> first | exact id | exact h.elim

theorem step_preserves_contract {e : Event ι} (h : Contract s) (hu : Undisturbed s e)
    (hs : Step s e t) : Contract t := by
  obtain ⟨he, rfl⟩ := hs
  cases e with
  | gpuInit i => exact h.still rfl rfl (iff_of_false id (Control.Free.not_initialising he))
  | draw i => exact h.still rfl rfl (iff_of_false id (Control.Free.not_initialising he))
  | display i =>
    refine h.still (c := if s.pixels then .resize .check else .init .firstDisplay .check) rfl rfl
      (iff_of_false ?_ (Control.Free.not_initialising he))
    split <;> exact id
  | go i ok =>
    cases hc : s.control i with
    | idle => exact absurd trivial (hc ▸ he : ¬ Control.idle.Free)
    | returned ret => exact absurd trivial (hc ▸ he : ¬ (Control.returned ret).Free)
    | init caller step =>
      simp only [next, hc]
      exact initStep_contract h hc hu
    | draw step =>
      simp only [next, hc]
      exact drawStep_contract h hc hu
    | resize step =>
      simp only [next, hc]
      exact resizeStep_contract h hc hu

/-! ## Where the contract is broken -/

/-- The party gives up without giving the flag back. -/
theorem Contract.lost (h : Contract s) (hi : (s.control i).Initialising)
    (hactive : t.active = s.active) (hcontrol : t.control = Function.update s.control i c)
    (hc : ¬ c.Initialising) : ¬ Contract t := by
  intro ht
  have htrue : t.active = true := hactive.trans (h.flag.mpr ⟨i, hi⟩)
  obtain ⟨j, hj⟩ := ht.flag.mp htrue
  rw [hcontrol] at hj
  by_cases hne : j = i
  · rw [hne, Function.update_self] at hj
    exact hc hj
  · rw [Function.update_of_ne hne] at hj
    exact h.others hi j hne hj

/-- A party with nothing to lose moves, and another one still initialises. -/
theorem still_initialising (hnot : ¬ Quiet s) (hi : ¬ (s.control i).Initialising)
    (hcontrol : t.control = Function.update s.control i c) :
    ∃ j ≠ i, (t.control j).Initialising := by
  simp only [Quiet, not_forall, not_not] at hnot
  obtain ⟨j, hj⟩ := hnot
  have hne : j ≠ i := by
    rintro rfl
    exact hi hj
  refine ⟨j, hne, ?_⟩
  rw [hcontrol, Function.update_of_ne hne]
  exact hj

theorem disturbed_breaks {e : Event ι} (h : Contract s) (hu : ¬ Undisturbed s e)
    (hs : Step s e t) : ¬ Contract t := by
  obtain ⟨-, rfl⟩ := hs
  cases e with
  | gpuInit i => exact absurd trivial hu
  | draw i => exact absurd trivial hu
  | display i => exact absurd trivial hu
  | go i ok =>
    cases hc : s.control i with
    | idle => exact absurd trivial (by simpa only [Undisturbed, hc] using hu)
    | returned ret => exact absurd trivial (by simpa only [Undisturbed, hc] using hu)
    | init caller step =>
      simp only [Undisturbed, hc] at hu
      simp only [next, hc]
      have hback := not_initialising_back caller
      cases step with
      | check => exact absurd trivial hu
      | fill => exact absurd trivial hu
      | displayInfo =>
        obtain rfl : ok = false := Bool.eq_false_of_not_eq_true hu
        exact h.lost (by rw [hc]; trivial) rfl rfl (hback 1)
      | create2d =>
        obtain rfl : ok = false := Bool.eq_false_of_not_eq_true hu
        exact h.lost (by rw [hc]; trivial) rfl rfl (hback 2)
      | attachBacking =>
        obtain rfl : ok = false := Bool.eq_false_of_not_eq_true hu
        exact h.lost (by rw [hc]; trivial) rfl rfl (hback 2)
      | setScanout =>
        obtain rfl : ok = false := Bool.eq_false_of_not_eq_true hu
        exact h.lost (by rw [hc]; trivial) rfl rfl (hback 3)
      | flush step =>
        cases step with
        | release => exact absurd trivial hu
        | transfer =>
          obtain rfl : ok = false := Bool.eq_false_of_not_eq_true hu
          exact h.lost (by rw [hc]; trivial) rfl rfl (hback 6)
        | flush =>
          obtain rfl : ok = false := Bool.eq_false_of_not_eq_true hu
          exact h.lost (by rw [hc]; trivial) rfl rfl (hback 6)
    | draw step =>
      have hi : ¬ (s.control i).Initialising := by rw [hc]; exact id
      simp only [Undisturbed, hc] at hu
      simp only [next, hc]
      cases step with
      | transfer => exact absurd trivial hu
      | flush => exact absurd trivial hu
      | release =>
        obtain ⟨j, -, hj⟩ := still_initialising (c := .returned 0) hu hi
          (t := flushStep s i ok .release .draw .returned) rfl
        exact not_contract_of_cleared hj rfl
    | resize step =>
      simp only [Undisturbed, hc] at hu
      simp only [next, hc]
      cases step with
      | unref => exact absurd trivial hu
      | release => exact absurd trivial hu
      | check =>
        -- two initialisations at a time
        have hi : ¬ (s.control i).Initialising := by rw [hc]; exact id
        obtain ⟨j, hne, hj⟩ := still_initialising (c := .resize .unref) hu hi
          (t := resizeStep s i .check) rfl
        refine fun ht => hne (ht.single j i hj ?_)
        change (Function.update s.control i (.resize .unref) i).Initialising
        rw [Function.update_self]
        trivial
      | last =>
        have hi : ¬ (s.control i).Initialising := by rw [hc]; exact id
        obtain ⟨j, -, hj⟩ := still_initialising (c := .idle) hu hi (t := resizeStep s i .last) rfl
        exact not_contract_of_cleared hj rfl

/-- Undisturbed runs keep the contract, and the first step that disturbs one breaks it. -/
theorem active_flag :
    (∀ t : State ι, Execution (fun s e t => Undisturbed s e ∧ Step s e t) initial t → Contract t) ∧
      ∀ (t u : State ι) e, Execution (fun s e t => Undisturbed s e ∧ Step s e t) initial t →
        Step t e u → ¬ Undisturbed t e → ¬ Contract u := by
  have hrun : ∀ t : State ι,
      Execution (fun s e t => Undisturbed s e ∧ Step s e t) initial t → Contract t :=
    fun t h => by
      apply h.invariant _ initial_contract
      exact fun _ _ _ hs ht => step_preserves_contract hs ht.1 ht.2
  exact ⟨hrun, fun t u e h hs hu => disturbed_breaks (hrun t h) hu hs⟩

end Keeps

/-- `gpu_init` has taken the flag. -/
theorem active_flag_taken : ∃ t : State Unit,
    Execution (fun s e t => Undisturbed s e ∧ Step s e t) initial t ∧ t.active = true ∧
      Contract t := by
  let s₁ : State Unit := next initial (.gpuInit ())
  let s₂ := next s₁ (.go () true)
  have hrun : Execution (fun s e t => Undisturbed s e ∧ Step s e t) initial s₂ :=
    .tail (e := .go () true) (.single (e := .gpuInit ()) ⟨trivial, trivial, rfl⟩)
      ⟨trivial, id, rfl⟩
  exact ⟨s₂, hrun, rfl, active_flag.1 s₂ hrun⟩

/-- `gpu_init` from the console, and the device does not answer with its display: the flag stays
set, and every later `gpu_init` returns 10. -/
theorem failed_init_keeps_flag : ∃ t u : State Unit, Execution Step initial t ∧
    t.control () = .returned 1 ∧ Quiet t ∧ t.active = true ∧ ¬ Contract t ∧
    Execution Step t u ∧ u.control () = .returned 10 := by
  let s₁ : State Unit := next initial (.gpuInit ())
  let s₂ := next s₁ (.go () true)
  let s₃ := next s₂ (.go () false)
  let s₄ := next s₃ (.gpuInit ())
  let s₅ := next s₄ (.go () true)
  have hrun : Execution Step initial s₃ :=
    .tail (e := .go () false) (.tail (e := .go () true)
      (.single (e := .gpuInit ()) ⟨trivial, rfl⟩) ⟨id, rfl⟩) ⟨id, rfl⟩
  have hlater : Execution Step s₃ s₅ :=
    .tail (e := .go () true) (.single (e := .gpuInit ()) ⟨trivial, rfl⟩) ⟨id, rfl⟩
  have hquiet : Quiet s₃ := fun _ => id
  refine ⟨s₃, s₅, hrun, rfl, hquiet, rfl, fun hcontract => ?_, hlater, rfl⟩
  cases hcontract.retry () 1 rfl (by decide) hquiet

end Gpu
