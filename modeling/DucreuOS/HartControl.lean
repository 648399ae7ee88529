import DucreuOS.Locks

/-! # Starting and stopping harts

`hart_start`, `hart_stop` and `hart_handle_msip` of the SBI, run by any parties in any order. One
step is one access to a lock, to a hart record or to the CLINT. The arrays have
`MAX_SUPPORTED_HARTS` entries; an index from there on reaches what lies behind them. -/
namespace HartControl

open Transition Locks

/-- `unsigned int hart` -/
abbrev Hart := BitVec 32

abbrev Address := BitVec 64

def MAX_SUPPORTED_HARTS : Hart := 8

inductive HartStatus
  | HS_STOPPED | HS_STARTING | HS_STARTED | HS_STOPPING | HS_INVALID
  deriving DecidableEq

/-- `hart_data_t` -/
structure HartData where
  status : HartStatus
  target_address : Address
  process_frame : Address

def getHartStatus (sbi_hart_data : Hart → HartData) (hart : Hart) : HartStatus :=
  if MAX_SUPPORTED_HARTS ≤ hart then .HS_INVALID else (sbi_hart_data hart).status

/-- The `int` parameter of `clint_set_msip` may come out negative. -/
def clintSetMsip (clint : ℤ → Bool) (hart : Hart) : ℤ → Bool :=
  if MAX_SUPPORTED_HARTS.toInt ≤ hart.toInt then clint else Function.update clint hart.toInt true

def clintClearMsip (clint : ℤ → Bool) (hart : Hart) : ℤ → Bool :=
  if MAX_SUPPORTED_HARTS.toInt ≤ hart.toInt then clint else Function.update clint hart.toInt false

/-! ## The calls -/

/-- A call from the supervisor. Its body is that of `hart_start`, with the values of the call. -/
inductive Request
  | hartStart (hart : Hart) (target frame_paddr : Address)
  | hartStop (hart : Hart)
  deriving DecidableEq

namespace Request

def hart : Request → Hart
  | hartStart hart _ _ => hart
  | hartStop hart => hart

/-- The only status in which the call is accepted. -/
def expected : Request → HartStatus
  | hartStart _ _ _ => .HS_STOPPED
  | hartStop _ => .HS_STARTED

def status : Request → HartStatus
  | hartStart _ _ _ => .HS_STARTING
  | hartStop _ => .HS_STOPPING

def target_address : Request → Address
  | hartStart _ target _ => target
  | hartStop _ => 0

def process_frame : Request → Address
  | hartStart _ _ frame_paddr => frame_paddr
  | hartStop _ => 0

end Request

/-- What a call of the supervisor does next. -/
inductive RequestStep
  | lock | check | status | target | frame | msip
  | post (ret : ℕ)

/-- What `hart_handle_msip` does next, with the values of the CSRs it has written. -/
inductive HandlerStep
  | lock | msip | check | starting | sscratch
  | mepc (sscratch : Address)
  | started (sscratch mepc : Address)
  | stopping | stopped | post

inductive Control
  | idle
  | request (r : Request) (step : RequestStep)
  | returned (r : Request) (ret : ℕ)
  | handler (hart : Hart) (step : HandlerStep)

/-- What happens to one hart. -/
inductive Occurrence
  /-- the call returned 0 -/
  | accepted (r : Request)
  /-- the hart went to `HS_STARTED` with these CSRs -/
  | started (mepc sscratch : Address)
  deriving DecidableEq

structure State (ι : Type*) where
  sbi_hart_lock : Hart → Word
  sbi_hart_data : Hart → HartData
  clint : ℤ → Bool
  control : ι → Control
  /-- newest first -/
  history : Hart → List Occurrence

section Steps

variable {ι : Type*} [DecidableEq ι]

namespace State

variable (s : State ι)

def goto (i : ι) (c : Control) : State ι := { s with control := Function.update s.control i c }

def setLock (hart : Hart) (mutex : Word) : State ι :=
  { s with sbi_hart_lock := Function.update s.sbi_hart_lock hart mutex }

def setData (hart : Hart) (d : HartData) : State ι :=
  { s with sbi_hart_data := Function.update s.sbi_hart_data hart d }

def record (hart : Hart) (o : Occurrence) : State ι :=
  { s with history := Function.update s.history hart (o :: s.history hart) }

end State

/-- One step of `hart_start` or `hart_stop`. -/
def requestStep (s : State ι) (i : ι) (r : Request) : RequestStep → State ι
  | .lock =>
    let (acquired, mutex) := mutexTry (s.sbi_hart_lock r.hart)
    (s.setLock r.hart mutex).goto i
      (if acquired = 0 then .returned r 1 else .request r .check)
  | .check =>
    s.goto i (.request r
      (if (s.sbi_hart_data r.hart).status ≠ r.expected then .post 2 else .status))
  | .status =>
    (s.setData r.hart { s.sbi_hart_data r.hart with status := r.status }).goto i
      (.request r .target)
  | .target =>
    (s.setData r.hart { s.sbi_hart_data r.hart with target_address := r.target_address }).goto i
      (.request r .frame)
  | .frame =>
    (s.setData r.hart { s.sbi_hart_data r.hart with process_frame := r.process_frame }).goto i
      (.request r .msip)
  | .msip => { s with clint := clintSetMsip s.clint r.hart }.goto i (.request r (.post 0))
  | .post ret =>
    let s := s.setLock r.hart (mutexPost (s.sbi_hart_lock r.hart))
    (if ret = 0 then s.record r.hart (.accepted r) else s).goto i (.returned r ret)

/-- One step of `hart_handle_msip`. The last `if` falls through without a `mutex_post`. -/
def handlerStep (s : State ι) (i : ι) (hart : Hart) : HandlerStep → State ι
  | .lock =>
    let (acquired, mutex) := mutexTry (s.sbi_hart_lock hart)
    (s.setLock hart mutex).goto i (.handler hart (if acquired ≠ 1 then .lock else .msip))
  | .msip => { s with clint := clintClearMsip s.clint hart }.goto i (.handler hart .check)
  | .check =>
    let status := (s.sbi_hart_data hart).status
    s.goto i (.handler hart
      (if status ≠ .HS_STARTING ∧ status ≠ .HS_STOPPING then .post else .starting))
  | .starting =>
    s.goto i (.handler hart
      (if (s.sbi_hart_data hart).status = .HS_STARTING then .sscratch else .stopping))
  | .sscratch => s.goto i (.handler hart (.mepc (s.sbi_hart_data hart).process_frame))
  | .mepc sscratch =>
    s.goto i (.handler hart (.started sscratch (s.sbi_hart_data hart).target_address))
  | .started sscratch mepc =>
    ((s.setData hart { s.sbi_hart_data hart with status := .HS_STARTED }).record hart
      (.started mepc sscratch)).goto i (.handler hart .post)
  | .stopping =>
    s.goto i (if (s.sbi_hart_data hart).status = .HS_STOPPING then .handler hart .stopped else .idle)
  | .stopped =>
    (s.setData hart { s.sbi_hart_data hart with status := .HS_STOPPED }).goto i
      (.handler hart .post)
  | .post => (s.setLock hart (mutexPost (s.sbi_hart_lock hart))).goto i .idle

inductive Event (ι : Type*)
  | call (i : ι) (r : Request)
  /-- a machine software interrupt -/
  | trap (i : ι) (hart : Hart)
  | go (i : ι)

/-- A party does one thing at a time. -/
def Control.Free : Control → Prop
  | .idle | .returned _ _ => True
  | _ => False

def Enabled (s : State ι) : Event ι → Prop
  | .call i _ => (s.control i).Free
  | .trap i _ => (s.control i).Free
  | .go i => ¬ (s.control i).Free

def next (s : State ι) : Event ι → State ι
  | .call i r => s.goto i (.request r .lock)
  | .trap i hart => s.goto i (.handler hart .lock)
  | .go i =>
    match s.control i with
    | .request r step => requestStep s i r step
    | .handler hart step => handlerStep s i hart step
    | _ => s

def Step (s : State ι) (e : Event ι) (t : State ι) : Prop := Enabled s e ∧ t = next s e

end Steps

/-! ## What the calls promise -/

/-- The lock or record that a call of the supervisor accesses next. -/
inductive Location
  | sbi_hart_lock (hart : Hart)
  | sbi_hart_data (hart : Hart)

def accessed (r : Request) : RequestStep → Option Location
  | .lock => some (.sbi_hart_lock r.hart)
  | .check => some (.sbi_hart_data r.hart)
  | .status => some (.sbi_hart_data r.hart)
  | .target => some (.sbi_hart_data r.hart)
  | .frame => some (.sbi_hart_data r.hart)
  | .msip => none
  | .post _ => some (.sbi_hart_lock r.hart)

def Transitional (status : HartStatus) : Prop := status = .HS_STARTING ∨ status = .HS_STOPPING

instance (status : HartStatus) : Decidable (Transitional status) := by
  unfold Transitional
  infer_instance

section Contract

variable {ι : Type*}

structure Contract (s : State ι) : Prop where
  /-- Beyond the limit nothing is accessed and nothing accepted. -/
  refused : ∀ i r, MAX_SUPPORTED_HARTS ≤ r.hart →
    (∀ step, s.control i = .request r step → accessed r step = none) ∧
      s.control i ≠ .returned r 0
  /-- While no call is between its `mutex_try` and its `mutex_post`. -/
  pending : ∀ hart < MAX_SUPPORTED_HARTS, s.sbi_hart_lock hart = MUTEX_UNLOCKED →
    (s.clint hart.toInt = true ↔ Transitional (getHartStatus s.sbi_hart_data hart))
  /-- After an accepted start, up to the next accepted call. -/
  delivered : ∀ hart < MAX_SUPPORTED_HARTS, ∀ newer target frame older,
    s.history hart = newer ++ .accepted (.hartStart hart target frame) :: older →
    (∀ r, Occurrence.accepted r ∉ newer) → newer = [] ∨ newer = [.started target frame]

/-- After boot, with all parties outside of the calls. -/
structure Boot (s : State ι) : Prop where
  control : ∀ i, s.control i = .idle
  unlocked : ∀ hart < MAX_SUPPORTED_HARTS, s.sbi_hart_lock hart = MUTEX_UNLOCKED
  clint : ∀ hart < MAX_SUPPORTED_HARTS, s.clint hart.toInt = false
  status : ∀ hart < MAX_SUPPORTED_HARTS, ¬ Transitional (s.sbi_hart_data hart).status
  history : ∀ hart, s.history hart = []

end Contract

/-! ## The invariant

A party between `mutex_try` and `mutex_post` is alone with its hart, so that what it has done so
far can be read off the hart. -/

/-- One hart. -/
structure View where
  data : HartData
  pending : Bool
  events : List Occurrence

/-- The hart a party has locked. -/
def Control.holds : Control → Option Hart
  | .request _ .lock => none
  | .request r _ => some r.hart
  | .handler _ .lock => none
  | .handler hart _ => some hart
  | _ => none

/-- The hart a call is about. -/
def Control.hart : Control → Option Hart
  | .request r _ => some r.hart
  | .returned r _ => some r.hart
  | .handler hart _ => some hart
  | .idle => none

/-- A start that has not been delivered is the last thing that happened. -/
def Linked (hart : Hart) (v : View) : Prop :=
  v.data.status = .HS_STARTING → v.events.head?
    = some (.accepted (.hartStart hart v.data.target_address v.data.process_frame))

/-- No call is at work on the hart. -/
structure Settled (hart : Hart) (v : View) : Prop where
  pending : v.pending = true ↔ Transitional v.data.status
  linked : Linked hart v

/-- What holds of the hart where a party has it locked. -/
def Local (hart : Hart) (v : View) : Control → Prop
  | .request r .status => Settled hart v ∧ v.data.status = r.expected
  | .request r .target => v.pending = false ∧ v.data.status = r.status
  | .request r .frame =>
    v.pending = false ∧ v.data.status = r.status ∧ v.data.target_address = r.target_address
  | .request r .msip =>
    v.pending = false ∧ v.data = ⟨r.status, r.target_address, r.process_frame⟩
  | .request r (.post 0) =>
    v.pending = true ∧ v.data = ⟨r.status, r.target_address, r.process_frame⟩
  | .handler _ .check => v.pending = false ∧ Linked hart v
  | .handler _ .starting => v.pending = false ∧ Linked hart v ∧ Transitional v.data.status
  | .handler _ .sscratch => v.pending = false ∧ Linked hart v ∧ v.data.status = .HS_STARTING
  | .handler _ (.mepc sscratch) => v.pending = false ∧ Linked hart v ∧
    v.data.status = .HS_STARTING ∧ sscratch = v.data.process_frame
  | .handler _ (.started sscratch mepc) => v.pending = false ∧ Linked hart v ∧
    v.data.status = .HS_STARTING ∧ sscratch = v.data.process_frame ∧ mepc = v.data.target_address
  | .handler _ .stopping => v.pending = false ∧ v.data.status = .HS_STOPPING
  | .handler _ .stopped => v.pending = false ∧ v.data.status = .HS_STOPPING
  | _ => Settled hart v

/-- Every start that is delivered directly follows the call that asked for it. -/
def Delivered (hart : Hart) : List Occurrence → Prop
  | [] => True
  | .started mepc sscratch :: older =>
    older.head? = some (.accepted (.hartStart hart mepc sscratch)) ∧ Delivered hart older
  | .accepted _ :: older => Delivered hart older

section Invariant

variable {ι : Type*} {s t : State ι} {i : ι} {c : Control} {hart : Hart}

def State.view (s : State ι) (hart : Hart) : View :=
  ⟨s.sbi_hart_data hart, s.clint hart.toInt, s.history hart⟩

/-- One hart, with the parties at work on it. -/
structure HartOk (s : State ι) (hart : Hart) : Prop where
  alone : ∀ i j, (s.control i).holds = some hart → (s.control j).holds = some hart → i = j
  here : ∀ i, (s.control i).holds = some hart →
    s.sbi_hart_lock hart = MUTEX_LOCKED ∧ Local hart (s.view hart) (s.control i)
  free : (∀ i, (s.control i).holds ≠ some hart) →
    s.sbi_hart_lock hart = MUTEX_UNLOCKED ∧ Settled hart (s.view hart)
  delivered : Delivered hart (s.history hart)

structure Invariant (s : State ι) : Prop where
  limit : ∀ i hart, (s.control i).hart = some hart → hart < MAX_SUPPORTED_HARTS
  ok : ∀ hart < MAX_SUPPORTED_HARTS, HartOk s hart

theorem Control.hart_of_holds (h : c.holds = some hart) : c.hart = some hart := by
  cases c with
  | idle => cases h
  | request r step => cases step <;> first | exact h | cases h
  | returned r ret => cases h
  | handler k step => cases step <;> first | exact h | cases h

theorem boot_invariant (h : Boot s) : Invariant s := by
  have hidle : ∀ i hart, (s.control i).holds ≠ some hart := fun i hart hh => by
    rw [h.control] at hh
    cases hh
  refine ⟨fun i hart hh => ?_, fun hart hlt => ⟨?_, ?_, fun _ => ⟨h.unlocked hart hlt, ?_⟩, ?_⟩⟩
  · rw [h.control] at hh
    cases hh
  · exact fun i j hh => absurd hh (hidle i hart)
  · exact fun i hh => absurd hh (hidle i hart)
  · have hstatus := h.status hart hlt
    refine ⟨?_, fun hs => absurd (Or.inl hs) hstatus⟩
    change s.clint hart.toInt = true ↔ _
    rw [h.clint hart hlt]
    exact iff_of_false Bool.false_ne_true hstatus
  · rw [h.history]
    trivial

variable [DecidableEq ι]

/-- A step on one hart leaves the others as they were. -/
theorem Invariant.step (h : Invariant s) (hcontrol : t.control = Function.update s.control i c)
    (hold : ∀ k ≠ hart, (s.control i).holds ≠ some k) (hnew : c.hart = some hart ∨ c.hart = none)
    (hlt : hart < MAX_SUPPORTED_HARTS)
    (hframe : ∀ k < MAX_SUPPORTED_HARTS, k ≠ hart →
      t.sbi_hart_lock k = s.sbi_hart_lock k ∧ t.view k = s.view k)
    (hok : HartOk t hart) : Invariant t := by
  have hself : t.control i = c := by rw [hcontrol, Function.update_self]
  have hstay : ∀ j ≠ i, t.control j = s.control j := fun j hj => by
    rw [hcontrol, Function.update_of_ne hj]
  have hchart : ∀ k, c.hart = some k → k = hart := fun k hk => by
    rcases hnew with hn | hn <;> rw [hn] at hk
    · exact (Option.some.inj hk).symm
    · cases hk
  refine ⟨fun j k hk => ?_, fun k hk => ?_⟩
  · by_cases hj : j = i
    · rw [hj, hself] at hk
      exact hchart k hk ▸ hlt
    · rw [hstay j hj] at hk
      exact h.limit j k hk
  · by_cases hne : k = hart
    · exact hne ▸ hok
    · -- the moving party holds another hart, before and after
      have hparty : ∀ j, (t.control j).holds = some k →
          (s.control j).holds = some k ∧ t.control j = s.control j := by
        intro j hj
        have hji : j ≠ i := by
          rintro rfl
          rw [hself] at hj
          exact hne (hchart k (Control.hart_of_holds hj))
        rw [hstay j hji] at hj
        exact ⟨hj, hstay j hji⟩
      obtain ⟨hlock, hview⟩ := hframe k hk hne
      have hk' := h.ok k hk
      refine ⟨fun j j' hj hj' => hk'.alone j j' (hparty j hj).1 (hparty j' hj').1,
        fun j hj => ?_, fun hfree => ?_, ?_⟩
      · rw [hlock, hview, (hparty j hj).2]
        exact hk'.here j (hparty j hj).1
      · rw [hlock, hview]
        refine hk'.free fun j hj => ?_
        by_cases hji : j = i
        · rw [hji] at hj
          exact hold k hne hj
        · exact hfree j (hstay j hji ▸ hj)
      · have hevents : t.history k = s.history k := congrArg View.events hview
        rw [hevents]
        exact hk'.delivered

/-- The party that has the hart locked goes on, and keeps it. -/
theorem HartOk.inside (h : HartOk s hart) (hi : (s.control i).holds = some hart)
    (hcontrol : t.control = Function.update s.control i c) (hc : c.holds = some hart)
    (hlock : t.sbi_hart_lock hart = s.sbi_hart_lock hart) (hlocal : Local hart (t.view hart) c)
    (hdel : Delivered hart (t.history hart)) : HartOk t hart := by
  have hself : t.control i = c := by rw [hcontrol, Function.update_self]
  have honly : ∀ j, (t.control j).holds = some hart → j = i := fun j hj => by
    by_contra hne
    rw [hcontrol, Function.update_of_ne hne] at hj
    exact hne (h.alone j i hj hi)
  refine ⟨fun j j' hj hj' => (honly j hj).trans (honly j' hj').symm, fun j hj => ?_,
    fun hfree => absurd (hself.symm ▸ hc) (hfree i), hdel⟩
  rw [honly j hj, hself, hlock]
  exact ⟨(h.here i hi).1, hlocal⟩

/-- `mutex_try` succeeds. -/
theorem HartOk.enter (h : HartOk s hart) (hopen : s.sbi_hart_lock hart ≠ MUTEX_LOCKED)
    (hcontrol : t.control = Function.update s.control i c)
    (hlock : t.sbi_hart_lock hart = MUTEX_LOCKED) (hview : t.view hart = s.view hart)
    (hlocal : Settled hart (s.view hart) → Local hart (s.view hart) c) (hc : c.holds = some hart) :
    HartOk t hart := by
  have hself : t.control i = c := by rw [hcontrol, Function.update_self]
  have hfree : ∀ j, (s.control j).holds ≠ some hart := fun j hj => hopen (h.here j hj).1
  have honly : ∀ j, (t.control j).holds = some hart → j = i := fun j hj => by
    by_contra hne
    rw [hcontrol, Function.update_of_ne hne] at hj
    exact hfree j hj
  have hevents : t.history hart = s.history hart := congrArg View.events hview
  refine ⟨fun j j' hj hj' => (honly j hj).trans (honly j' hj').symm, fun j hj => ?_,
    fun hno => absurd (hself.symm ▸ hc) (hno i), hevents ▸ h.delivered⟩
  rw [honly j hj, hself, hview]
  exact ⟨hlock, hlocal (h.free hfree).2⟩

/-- `mutex_post` -/
theorem HartOk.leave (h : HartOk s hart) (hi : (s.control i).holds = some hart)
    (hcontrol : t.control = Function.update s.control i c) (hc : c.holds = none)
    (hlock : t.sbi_hart_lock hart = MUTEX_UNLOCKED) (hset : Settled hart (t.view hart))
    (hdel : Delivered hart (t.history hart)) : HartOk t hart := by
  have hnone : ∀ j, (t.control j).holds ≠ some hart := fun j hj => by
    by_cases hne : j = i
    · rw [hcontrol, hne, Function.update_self, hc] at hj
      cases hj
    · rw [hcontrol, Function.update_of_ne hne] at hj
      exact hne (h.alone j i hj hi)
  exact ⟨fun j j' hj => absurd hj (hnone j), fun j hj => absurd hj (hnone j),
    fun _ => ⟨hlock, hset⟩, hdel⟩

/-- A party that does not have the hart locked moves. -/
theorem HartOk.outside (h : HartOk s hart) (hi : (s.control i).holds ≠ some hart)
    (hcontrol : t.control = Function.update s.control i c) (hc : c.holds ≠ some hart)
    (hlock : t.sbi_hart_lock hart = s.sbi_hart_lock hart) (hview : t.view hart = s.view hart) :
    HartOk t hart := by
  have hparty : ∀ j, (t.control j).holds = some hart →
      (s.control j).holds = some hart ∧ t.control j = s.control j := by
    intro j hj
    have hne : j ≠ i := by
      rintro rfl
      rw [hcontrol, Function.update_self] at hj
      exact hc hj
    rw [hcontrol, Function.update_of_ne hne] at hj
    exact ⟨hj, by rw [hcontrol, Function.update_of_ne hne]⟩
  have hevents : t.history hart = s.history hart := congrArg View.events hview
  refine ⟨fun j j' hj hj' => h.alone j j' (hparty j hj).1 (hparty j' hj').1, fun j hj => ?_,
    fun hfree => ?_, hevents ▸ h.delivered⟩
  · rw [hlock, hview, (hparty j hj).2]
    exact h.here j (hparty j hj).1
  · rw [hlock, hview]
    refine h.free fun j hj => ?_
    by_cases hne : j = i
    · exact hi (hne ▸ hj)
    · apply hfree j
      rwa [hcontrol, Function.update_of_ne hne]

/-- `mutex_try`, and where a party goes from there. -/
theorem Invariant.acquire (h : Invariant s) (hi : (s.control i).holds = none)
    (hlt : hart < MAX_SUPPORTED_HARTS) (refused acquired : Control)
    (hr : refused.holds = none ∧ refused.hart = some hart) (ha : acquired.holds = some hart)
    (hlocal : Settled hart (s.view hart) → Local hart (s.view hart) acquired) :
    Invariant ((s.setLock hart MUTEX_LOCKED).goto i
      (if s.sbi_hart_lock hart = MUTEX_LOCKED then refused else acquired)) := by
  have hold : ∀ k ≠ hart, (s.control i).holds ≠ some k := fun k _ hh => by
    rw [hi] at hh
    cases hh
  have hself : Function.update s.sbi_hart_lock hart MUTEX_LOCKED hart = MUTEX_LOCKED :=
    Function.update_self _ _ _
  have hframe (c : Control) : ∀ k < MAX_SUPPORTED_HARTS, k ≠ hart →
      ((s.setLock hart MUTEX_LOCKED).goto i c).sbi_hart_lock k = s.sbi_hart_lock k ∧
        ((s.setLock hart MUTEX_LOCKED).goto i c).view k = s.view k :=
    fun k _ hne => ⟨Function.update_of_ne hne _ _, rfl⟩
  by_cases hlock : s.sbi_hart_lock hart = MUTEX_LOCKED
  · rw [if_pos hlock]
    refine h.step rfl hold (Or.inl hr.2) hlt (hframe refused) ?_
    refine (h.ok hart hlt).outside (i := i) ?_ rfl ?_ (hself.trans hlock.symm) rfl
    · rw [hi]
      exact fun hh => by cases hh
    · rw [hr.1]
      exact fun hh => by cases hh
  · rw [if_neg hlock]
    exact h.step rfl hold (Or.inl (Control.hart_of_holds ha)) hlt (hframe acquired)
      ((h.ok hart hlt).enter hlock rfl hself rfl hlocal ha)

/-- A step of the party that has the hart locked. -/
theorem Invariant.work (h : Invariant s) (hi : (s.control i).holds = some hart)
    (hcontrol : t.control = Function.update s.control i c) (hc : c.holds = some hart)
    (hlock : t.sbi_hart_lock = s.sbi_hart_lock) (hview : ∀ k ≠ hart, t.view k = s.view k)
    (hlocal : Local hart (t.view hart) c) (hdel : Delivered hart (t.history hart)) :
    Invariant t := by
  have hlt := h.limit i hart (Control.hart_of_holds hi)
  refine h.step hcontrol (fun k hk hh => hk ?_) (Or.inl (Control.hart_of_holds hc)) hlt
    (fun k _ hne => ⟨by rw [hlock], hview k hne⟩)
    ((h.ok hart hlt).inside hi hcontrol hc (by rw [hlock]) hlocal hdel)
  exact Option.some.inj (hh.symm.trans hi)

/-- `mutex_post` -/
theorem Invariant.release (h : Invariant s) (hi : (s.control i).holds = some hart)
    (hcontrol : t.control = Function.update s.control i c) (hc : c.holds = none)
    (hhart : c.hart = some hart ∨ c.hart = none)
    (hlock : t.sbi_hart_lock = Function.update s.sbi_hart_lock hart MUTEX_UNLOCKED)
    (hview : ∀ k ≠ hart, t.view k = s.view k) (hset : Settled hart (t.view hart))
    (hdel : Delivered hart (t.history hart)) : Invariant t := by
  have hlt := h.limit i hart (Control.hart_of_holds hi)
  refine h.step hcontrol (fun k hk hh => hk ?_) hhart hlt
    (fun k _ hne => ⟨by rw [hlock, Function.update_of_ne hne], hview k hne⟩)
    ((h.ok hart hlt).leave hi hcontrol hc (by rw [hlock, Function.update_self]) hset hdel)
  exact Option.some.inj (hh.symm.trans hi)

end Invariant

/-! ## What one step does to a hart -/

section Views

variable {ι : Type*} {s : State ι} {hart k : Hart}

theorem below_limit (hlt : hart < MAX_SUPPORTED_HARTS) :
    ¬ MAX_SUPPORTED_HARTS.toInt ≤ hart.toInt := by
  have hnat : hart.toNat < 8 := hlt
  have hmax : MAX_SUPPORTED_HARTS.toInt = 8 := by decide
  rw [hmax, BitVec.toInt_eq_toNat_of_lt (by omega)]
  omega

theorem clintSetMsip_self (clint : ℤ → Bool) (hlt : hart < MAX_SUPPORTED_HARTS) :
    clintSetMsip clint hart hart.toInt = true := by
  rw [clintSetMsip, if_neg (below_limit hlt), Function.update_self]

theorem clintClearMsip_self (clint : ℤ → Bool) (hlt : hart < MAX_SUPPORTED_HARTS) :
    clintClearMsip clint hart hart.toInt = false := by
  rw [clintClearMsip, if_neg (below_limit hlt), Function.update_self]

theorem clintSetMsip_other (clint : ℤ → Bool) (hne : k ≠ hart) :
    clintSetMsip clint hart k.toInt = clint k.toInt := by
  unfold clintSetMsip
  split
  · rfl
  · exact Function.update_of_ne (fun he => hne (BitVec.toInt_inj.mp he)) _ _

theorem clintClearMsip_other (clint : ℤ → Bool) (hne : k ≠ hart) :
    clintClearMsip clint hart k.toInt = clint k.toInt := by
  unfold clintClearMsip
  split
  · rfl
  · exact Function.update_of_ne (fun he => hne (BitVec.toInt_inj.mp he)) _ _

theorem setData_view {d : HartData} (hne : k ≠ hart) : (s.setData hart d).view k = s.view k := by
  simp only [State.view, State.setData, Function.update_of_ne hne]

theorem record_view {o : Occurrence} (hne : k ≠ hart) : (s.record hart o).view k = s.view k := by
  simp only [State.view, State.record, Function.update_of_ne hne]

theorem setData_self {d : HartData} :
    (s.setData hart d).view hart = ⟨d, s.clint hart.toInt, s.history hart⟩ := by
  simp only [State.view, State.setData, Function.update_self]

theorem record_self {o : Occurrence} :
    (s.record hart o).view hart = ⟨s.sbi_hart_data hart, s.clint hart.toInt, o :: s.history hart⟩ := by
  simp only [State.view, State.record, Function.update_self]

theorem not_transitional_expected : (r : Request) → ¬ Transitional r.expected
  | .hartStart _ _ _ => by simp [Request.expected, Transitional]
  | .hartStop _ => by simp [Request.expected, Transitional]

theorem transitional_status : (r : Request) → Transitional r.status
  | .hartStart _ _ _ => Or.inl rfl
  | .hartStop _ => Or.inr rfl

/-- The record an accepted request leaves. -/
theorem linked_accepted (r : Request) {v : View}
    (hd : v.data = ⟨r.status, r.target_address, r.process_frame⟩)
    (he : v.events.head? = some (.accepted r)) : Linked r.hart v := by
  intro hs
  rw [hd] at hs ⊢
  cases r with
  | hartStart hart target frame => exact he
  | hartStop hart => cases hs

variable {i : ι}

/-- What holds of the hart that the party has locked. -/
theorem Invariant.local_of {c : Control} (h : Invariant s) (hc : s.control i = c)
    (hh : c.holds = some hart) : Local hart (s.view hart) c := by
  have hi : (s.control i).holds = some hart := by rw [hc, hh]
  have hlocal := ((h.ok hart (h.limit i hart (Control.hart_of_holds hi))).here i hi).2
  rwa [hc] at hlocal

variable [DecidableEq ι]

theorem requestStep_invariant {r : Request} {step : RequestStep} (h : Invariant s)
    (hc : s.control i = .request r step) : Invariant (requestStep s i r step) := by
  have hlt : r.hart < MAX_SUPPORTED_HARTS := h.limit i r.hart (by rw [hc]; rfl)
  have hdel := (h.ok r.hart hlt).delivered
  cases step with
  | lock =>
    have hacquire := h.acquire (i := i) (by rw [hc]; rfl) hlt (.returned r 1) (.request r .check)
      ⟨rfl, rfl⟩ rfl id
    simp only [requestStep, mutexTry]
    split <;> simp_all
  | check =>
    have hset : Settled r.hart (s.view r.hart) := h.local_of hc rfl
    have hi : (s.control i).holds = some r.hart := by rw [hc]; rfl
    simp only [requestStep]
    split
    · exact h.work hi rfl rfl rfl (fun _ _ => rfl) hset hdel
    · exact h.work hi rfl rfl rfl (fun _ _ => rfl) ⟨hset, not_not.mp ‹_›⟩ hdel
  | status =>
    obtain ⟨hset, hs⟩ : Settled r.hart (s.view r.hart) ∧ (s.view r.hart).data.status = r.expected :=
      h.local_of hc rfl
    have hi : (s.control i).holds = some r.hart := by rw [hc]; rfl
    refine h.work hi rfl rfl rfl (fun _ hne => setData_view hne) ?_ hdel
    change Local r.hart ((s.setData r.hart _).view r.hart) _
    rw [setData_self]
    have hidle : (s.view r.hart).pending ≠ true := fun hp =>
      not_transitional_expected r (hs ▸ hset.pending.mp hp)
    exact ⟨Bool.eq_false_of_not_eq_true hidle, rfl⟩
  | target =>
    obtain ⟨hp, hs⟩ : (s.view r.hart).pending = false ∧ (s.view r.hart).data.status = r.status :=
      h.local_of hc rfl
    have hi : (s.control i).holds = some r.hart := by rw [hc]; rfl
    refine h.work hi rfl rfl rfl (fun _ hne => setData_view hne) ?_ hdel
    change Local r.hart ((s.setData r.hart _).view r.hart) _
    rw [setData_self]
    exact ⟨hp, hs, rfl⟩
  | frame =>
    obtain ⟨hp, hs, ht⟩ : (s.view r.hart).pending = false ∧ (s.view r.hart).data.status = r.status ∧
      (s.view r.hart).data.target_address = r.target_address := h.local_of hc rfl
    have hi : (s.control i).holds = some r.hart := by rw [hc]; rfl
    refine h.work hi rfl rfl rfl (fun _ hne => setData_view hne) ?_ hdel
    change Local r.hart ((s.setData r.hart _).view r.hart) _
    rw [setData_self]
    refine ⟨hp, ?_⟩
    change HartData.mk (s.sbi_hart_data r.hart).status (s.sbi_hart_data r.hart).target_address _ = _
    rw [show (s.sbi_hart_data r.hart).status = r.status from hs,
      show (s.sbi_hart_data r.hart).target_address = r.target_address from ht]
  | msip =>
    obtain ⟨-, hd⟩ : (s.view r.hart).pending = false ∧
      (s.view r.hart).data = ⟨r.status, r.target_address, r.process_frame⟩ := h.local_of hc rfl
    have hi : (s.control i).holds = some r.hart := by rw [hc]; rfl
    refine h.work hi rfl rfl rfl (fun k hne => ?_) ⟨clintSetMsip_self s.clint hlt, hd⟩ hdel
    change View.mk _ (clintSetMsip s.clint r.hart k.toInt) _ = View.mk _ _ _
    rw [clintSetMsip_other s.clint hne]
    rfl
  | post ret =>
    have hi : (s.control i).holds = some r.hart := by rw [hc]; rfl
    have hlocal := h.local_of hc rfl
    cases ret with
    | zero =>
      obtain ⟨hp, hd⟩ : (s.view r.hart).pending = true ∧
        (s.view r.hart).data = ⟨r.status, r.target_address, r.process_frame⟩ := hlocal
      have hview : (requestStep s i r (.post 0)).view r.hart
          = (s.record r.hart (.accepted r)).view r.hart := rfl
      have hnow : Delivered r.hart ((s.record r.hart (.accepted r)).history r.hart) := by
        simp only [State.record, Function.update_self]
        exact hdel
      refine h.release hi rfl rfl (Or.inl rfl) rfl (fun _ hne => record_view (s := s) hne) ?_ hnow
      rw [hview, record_self]
      refine ⟨iff_of_true hp ?_, linked_accepted r hd rfl⟩
      change Transitional (s.view r.hart).data.status
      rw [hd]
      exact transitional_status r
    | succ ret => exact h.release hi rfl rfl (Or.inl rfl) rfl (fun _ _ => rfl) hlocal hdel

theorem handlerStep_invariant {step : HandlerStep} (h : Invariant s)
    (hc : s.control i = .handler hart step) : Invariant (handlerStep s i hart step) := by
  have hlt : hart < MAX_SUPPORTED_HARTS := h.limit i hart (by rw [hc]; rfl)
  have hdel := (h.ok hart hlt).delivered
  cases step with
  | lock =>
    have hacquire := h.acquire (i := i) (by rw [hc]; rfl) hlt (.handler hart .lock)
      (.handler hart .msip) ⟨rfl, rfl⟩ rfl id
    simp only [handlerStep, mutexTry]
    split <;> simp_all
  | msip =>
    have hset : Settled hart (s.view hart) := h.local_of hc rfl
    have hi : (s.control i).holds = some hart := by rw [hc]; rfl
    refine h.work hi rfl rfl rfl (fun k hne => ?_) ⟨clintClearMsip_self s.clint hlt, hset.linked⟩ hdel
    change View.mk _ (clintClearMsip s.clint hart k.toInt) _ = View.mk _ _ _
    rw [clintClearMsip_other s.clint hne]
    rfl
  | check =>
    obtain ⟨hp, hlink⟩ : (s.view hart).pending = false ∧ Linked hart (s.view hart) :=
      h.local_of hc rfl
    have hi : (s.control i).holds = some hart := by rw [hc]; rfl
    simp only [handlerStep]
    split
    · rename_i hs
      refine h.work hi rfl rfl rfl (fun _ _ => rfl) ⟨?_, hlink⟩ hdel
      change (s.view hart).pending = true ↔ _
      rw [hp]
      exact iff_of_false Bool.false_ne_true fun ht => ht.elim hs.1 hs.2
    · rename_i hs
      refine h.work hi rfl rfl rfl (fun _ _ => rfl) ⟨hp, hlink, ?_⟩ hdel
      by_contra hnot
      exact hs (not_or.mp hnot)
  | starting =>
    obtain ⟨hp, hlink, ht⟩ : (s.view hart).pending = false ∧ Linked hart (s.view hart) ∧
      Transitional (s.view hart).data.status := h.local_of hc rfl
    have hi : (s.control i).holds = some hart := by rw [hc]; rfl
    simp only [handlerStep]
    split
    · exact h.work hi rfl rfl rfl (fun _ _ => rfl) ⟨hp, hlink, ‹_›⟩ hdel
    · exact h.work hi rfl rfl rfl (fun _ _ => rfl) ⟨hp, ht.resolve_left ‹_›⟩ hdel
  | sscratch =>
    obtain ⟨hp, hlink, hs⟩ : (s.view hart).pending = false ∧ Linked hart (s.view hart) ∧
      (s.view hart).data.status = .HS_STARTING := h.local_of hc rfl
    have hi : (s.control i).holds = some hart := by rw [hc]; rfl
    exact h.work hi rfl rfl rfl (fun _ _ => rfl) ⟨hp, hlink, hs, rfl⟩ hdel
  | mepc sscratch =>
    obtain ⟨hp, hlink, hs, hf⟩ : (s.view hart).pending = false ∧ Linked hart (s.view hart) ∧
      (s.view hart).data.status = .HS_STARTING ∧ sscratch = (s.view hart).data.process_frame :=
      h.local_of hc rfl
    have hi : (s.control i).holds = some hart := by rw [hc]; rfl
    exact h.work hi rfl rfl rfl (fun _ _ => rfl) ⟨hp, hlink, hs, hf, rfl⟩ hdel
  | started sscratch mepc =>
    obtain ⟨hp, hlink, hs, rfl, rfl⟩ : (s.view hart).pending = false ∧ Linked hart (s.view hart) ∧
      (s.view hart).data.status = .HS_STARTING ∧ sscratch = (s.view hart).data.process_frame ∧
      mepc = (s.view hart).data.target_address := h.local_of hc rfl
    have hi : (s.control i).holds = some hart := by rw [hc]; rfl
    refine h.work hi rfl rfl rfl (fun k hne => ?_) ?_ ?_
    · exact (record_view hne).trans (setData_view hne)
    · change Settled hart (((s.setData hart _).record hart _).view hart)
      rw [record_self]
      refine ⟨?_, fun hst => ?_⟩
      · change s.clint hart.toInt = true ↔ Transitional (Function.update s.sbi_hart_data hart _ hart).status
        rw [Function.update_self, show s.clint hart.toInt = false from hp]
        exact iff_of_false Bool.false_ne_true (by simp [Transitional])
      · change (Function.update s.sbi_hart_data hart _ hart).status = _ at hst
        rw [Function.update_self] at hst
        cases hst
    · change Delivered hart (Function.update s.history hart _ hart)
      rw [Function.update_self]
      exact ⟨hlink hs, hdel⟩
  | stopping =>
    obtain ⟨hp, hs⟩ : (s.view hart).pending = false ∧ (s.view hart).data.status = .HS_STOPPING :=
      h.local_of hc rfl
    have hi : (s.control i).holds = some hart := by rw [hc]; rfl
    simp only [handlerStep, show (s.sbi_hart_data hart).status = .HS_STOPPING from hs, if_true]
    exact h.work hi rfl rfl rfl (fun _ _ => rfl) ⟨hp, hs⟩ hdel
  | stopped =>
    obtain ⟨hp, -⟩ : (s.view hart).pending = false ∧ (s.view hart).data.status = .HS_STOPPING :=
      h.local_of hc rfl
    have hi : (s.control i).holds = some hart := by rw [hc]; rfl
    refine h.work hi rfl rfl rfl (fun _ hne => setData_view hne) ?_ hdel
    change Settled hart ((s.setData hart _).view hart)
    rw [setData_self]
    refine ⟨?_, fun hst => by cases hst⟩
    rw [show s.clint hart.toInt = false from hp]
    exact iff_of_false Bool.false_ne_true (by simp [Transitional])
  | post =>
    have hset : Settled hart (s.view hart) := h.local_of hc rfl
    have hi : (s.control i).holds = some hart := by rw [hc]; rfl
    exact h.release hi rfl rfl (Or.inr rfl) rfl (fun _ _ => rfl) hset hdel

end Views

/-! ## Runs -/

section Runs

variable {ι : Type*} [DecidableEq ι] {s t u : State ι} {e : Event ι} {hart : Hart}

/-- Every hart number is below the limit. -/
def Event.InRange : Event ι → Prop
  | .call _ r => r.hart < MAX_SUPPORTED_HARTS
  | .trap _ hart => hart < MAX_SUPPORTED_HARTS
  | .go _ => True

omit [DecidableEq ι] in
theorem Control.Free.holds {c : Control} (h : c.Free) : c.holds = none := by
  cases c with
  | idle => rfl
  | request r step => exact h.elim
  | returned r ret => rfl
  | handler hart step => exact h.elim

/-- A party that was free goes to a lock. -/
theorem Invariant.begin {i : ι} {c : Control} (h : Invariant s) (hfree : (s.control i).Free)
    (hlt : hart < MAX_SUPPORTED_HARTS) (hhart : c.hart = some hart) (hc : c.holds = none) :
    Invariant (s.goto i c) := by
  have hnone : ∀ k, (s.control i).holds ≠ some k := fun k hh => by
    rw [hfree.holds] at hh
    cases hh
  refine h.step rfl (fun k _ => hnone k) (Or.inl hhart) hlt (fun _ _ _ => ⟨rfl, rfl⟩)
    ((h.ok hart hlt).outside (hnone hart) rfl ?_ rfl rfl)
  rw [hc]
  exact fun hh => by cases hh

theorem step_preserves_invariant (h : Invariant s) (he : e.InRange) (hs : Step s e t) :
    Invariant t := by
  obtain ⟨hen, rfl⟩ := hs
  cases e with
  | call i r => exact h.begin hen he rfl rfl
  | trap i hart => exact h.begin hen he rfl rfl
  | go i =>
    cases hc : s.control i with
    | idle =>
      change ¬ (s.control i).Free at hen
      rw [hc] at hen
      exact absurd trivial hen
    | request r step =>
      simp only [next, hc]
      exact requestStep_invariant h hc
    | returned r ret =>
      change ¬ (s.control i).Free at hen
      rw [hc] at hen
      exact absurd trivial hen
    | handler hart step =>
      simp only [next, hc]
      exact handlerStep_invariant h hc

/-- What follows an accepted start, up to the next accepted call. -/
theorem Delivered.newer {target frame : Address} {newer older : List Occurrence}
    (h : Delivered hart (newer ++ .accepted (.hartStart hart target frame) :: older))
    (hno : ∀ r, Occurrence.accepted r ∉ newer) :
    newer = [] ∨ newer = [.started target frame] := by
  cases newer with
  | nil => exact Or.inl rfl
  | cons o rest =>
    cases o with
    | accepted r => exact absurd List.mem_cons_self (hno r)
    | started mepc sscratch =>
      have hhead := h.1
      cases rest with
      | nil =>
        obtain ⟨-, rfl, rfl⟩ := Request.hartStart.inj (Occurrence.accepted.inj (Option.some.inj hhead))
        exact Or.inr rfl
      | cons o' rest =>
        obtain rfl := Option.some.inj hhead
        exact absurd (List.mem_cons_of_mem _ List.mem_cons_self) (hno _)

omit [DecidableEq ι] in
theorem Invariant.contract (h : Invariant s) : Contract s where
  refused i r hr := by
    have hlt : (s.control i).hart = some r.hart → False := fun hh =>
      absurd (h.limit i r.hart hh) (BitVec.not_lt.mpr hr)
    exact ⟨fun step hc => (hlt (by rw [hc]; rfl)).elim, fun hc => hlt (by rw [hc]; rfl)⟩
  pending hart hlt hopen := by
    have hok := h.ok hart hlt
    have hfree : ∀ i, (s.control i).holds ≠ some hart := fun i hi => by
      have hlocked := (hok.here i hi).1
      rw [hopen] at hlocked
      exact absurd hlocked (by decide)
    rw [getHartStatus, if_neg (BitVec.not_le.mpr hlt)]
    exact (hok.free hfree).2.pending
  delivered hart hlt newer target frame older hh hno := by
    have hdel := (h.ok hart hlt).delivered
    rw [hh] at hdel
    exact hdel.newer hno

/-- Runs with all hart numbers below the limit keep the contract; a call with one beyond it breaks
the contract at once. -/
theorem hart_requests (hboot : Boot s) :
    (∀ t, Execution (fun s e t => Event.InRange e ∧ Step s e t) s t → Contract t) ∧
      ∀ t u i r, Execution Step s t → MAX_SUPPORTED_HARTS ≤ Request.hart r →
        Step t (.call i r) u → ¬ Contract u := by
  refine ⟨fun t hrun => ?_, fun t u i r _ hr hstep hcontract => ?_⟩
  · apply Invariant.contract
    apply hrun.invariant _ (boot_invariant hboot)
    exact fun _ _ _ hs ht => step_preserves_invariant hs ht.1 ht.2
  · obtain ⟨-, rfl⟩ := hstep
    have hc : (next t (.call i r)).control i = .request r .lock := Function.update_self _ _ _
    cases (hcontract.refused i r hr).1 .lock hc

end Runs

/-- Two parties; whatever lies behind the arrays reads as an open lock and a stopped hart. -/
def booted : State Bool where
  sbi_hart_lock _ := MUTEX_UNLOCKED
  sbi_hart_data _ := ⟨.HS_STOPPED, 0, 0⟩
  clint _ := false
  control _ := .idle
  history _ := []

theorem booted_boot : Boot booted where
  control _ := rfl
  unlocked _ _ := rfl
  clint _ _ := rfl
  status _ _ := by
    change ¬ Transitional HartStatus.HS_STOPPED
    decide
  history _ := rfl

theorem hart_requests_booted : Boot booted ∧
    (∀ t, Execution (fun s e t => Event.InRange e ∧ Step s e t) booted t → Contract t) ∧
      ∀ t u i r, Execution Step booted t → MAX_SUPPORTED_HARTS ≤ Request.hart r →
        Step t (.call i r) u → ¬ Contract u :=
  ⟨booted_boot, hart_requests booted_boot⟩

/-- `hart_start(8, target, frame)` from the first party: it writes behind both arrays, sets no
interrupt and returns 0. -/
theorem hart_start_beyond_limit : ∃ t, Boot booted ∧ Execution Step booted t ∧
    t.control true = .returned (.hartStart 8 0x80000000 0x1000) 0 ∧
    t.sbi_hart_data 8 = ⟨.HS_STARTING, 0x80000000, 0x1000⟩ ∧ t.clint = booted.clint ∧
    ¬ Contract t := by
  let s₁ := next booted (.call true (.hartStart 8 0x80000000 0x1000))
  let s₂ := next s₁ (.go true)
  let s₃ := next s₂ (.go true)
  let s₄ := next s₃ (.go true)
  let s₅ := next s₄ (.go true)
  let s₆ := next s₅ (.go true)
  let s₇ := next s₆ (.go true)
  let s₈ := next s₇ (.go true)
  have hrun : Execution Step booted s₈ :=
    .tail (e := .go true) (.tail (e := .go true) (.tail (e := .go true) (.tail (e := .go true)
      (.tail (e := .go true) (.tail (e := .go true) (.tail (e := .go true)
        (.single (e := .call true (.hartStart 8 0x80000000 0x1000)) ⟨trivial, rfl⟩)
        ⟨id, rfl⟩) ⟨id, rfl⟩) ⟨id, rfl⟩) ⟨id, rfl⟩) ⟨id, rfl⟩) ⟨id, rfl⟩) ⟨id, rfl⟩
  have hreturned : s₈.control true = .returned (.hartStart 8 0x80000000 0x1000) 0 := rfl
  refine ⟨s₈, booted_boot, hrun, hreturned, rfl, rfl, fun hcontract => ?_⟩
  exact (hcontract.refused true (.hartStart 8 0x80000000 0x1000) (by decide)).2 hreturned

end HartControl
