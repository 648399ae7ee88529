import DucreuOS.VirtioPolling

/-! # What a block request leaves with the device

`block_read_write` puts three descriptors on the queue and frees the heap block with the request's
header and status when it returns. The queue is that of `VirtioPolling`; here are its requests and
the heap. The kernel allocates and frees other blocks in between. -/
namespace BlockRequests

open VirtioPolling Transition

/-- The driver refuses a device with another queue size. -/
def QUEUE_SIZE : ℕ := 256

def BRQ2_OFFSET : ℕ := 16
def BRQ3_OFFSET : ℕ := 24
def SIZEOF_DESC_1 : BitVec 32 := 16
def SIZEOF_DESC_3 : BitVec 32 := 1

/-- The arguments of `block_read_write`, and the heap block `brq` it got. -/
structure Request where
  brq : ℕ
  buffer : ℕ
  startByte : ℕ
  endByte : ℕ
  writeRequest : Bool
  doPoll : Bool

/-- The error `block_read_write` returns for its range, if any. -/
def checkRange (blockSize : ℕ) (r : Request) : Option ℕ :=
  if r.startByte % blockSize ≠ 0 then some 1
  else if r.endByte % blockSize ≠ 0 then some 1
  else if r.startByte > r.endByte then some 2
  else if r.startByte = r.endByte then some 3
  else none

variable (translate : ℕ → BitVec 64) (blockSize : ℕ)

/-- The chain of a request; `translate` is `mmu_translate` of the kernel's table. -/
def Request.call (r : Request) : Call :=
  .blockReadWrite (translate r.brq) (translate r.buffer) (translate (r.brq + BRQ3_OFFSET))
    SIZEOF_DESC_1 (BitVec.ofNat 32 (r.endByte - r.startByte)) SIZEOF_DESC_3 r.writeRequest r.doPoll

/-- `live` holds the heap blocks in use; `request` and `freed` are histories: the requests by
number, and whether the call has come to its `kfree`. -/
structure State extends Queue where
  live : Finset ℕ
  request : ℕ → Request
  freed : ℕ → Bool

inductive Event
  /-- `block_read_write` up to the notification -/
  | submit (r : Request)
  /-- the polling loops, the device and the interrupt handler -/
  | queue (e : VirtioPolling.Event)
  /-- the `kfree` with which the call of request `k` ends -/
  | kfreeBrq (k : ℕ)
  /-- other code allocates a block -/
  | kmalloc (a : ℕ)
  /-- other code frees a block of its own -/
  | kfree (a : ℕ)

/-- The heap block of a call that has not come to its `kfree`. -/
def Owned (s : State) (a : ℕ) : Prop :=
  ∃ k < s.submitted, s.freed k = false ∧ (s.request k).brq = a

def Enabled (s : State) : Event → Prop
  | .submit r => r.brq ∉ s.live
  | .queue e => VirtioPolling.Enabled .block s.toQueue e ∧ ∀ call, e ≠ .submit call
  | .kfreeBrq k => k < s.submitted ∧ s.freed k = false ∧
      (s.phase k = .async ∨ s.phase k = .returned)
  | .kmalloc a => a ∉ s.live
  | .kfree a => a ∈ s.live ∧ ¬Owned s a

def next (s : State) : Event → State
  | .submit r =>
    if (checkRange blockSize r).isSome then s
    else
      { s with
        toQueue := submit QUEUE_SIZE s.toQueue (r.call translate)
        live := insert r.brq s.live
        request := Function.update s.request s.submitted r
        freed := Function.update s.freed s.submitted false }
  | .queue e => { s with toQueue := VirtioPolling.next .block QUEUE_SIZE s.toQueue e }
  | .kfreeBrq k =>
    { s with
      live := s.live.erase (s.request k).brq
      freed := Function.update s.freed k true }
  | .kmalloc a => { s with live := insert a s.live }
  | .kfree a => { s with live := s.live.erase a }

def Step (s : State) (e : Event) (t : State) : Prop :=
  Enabled s e ∧ t = next translate blockSize s e

/-- The blocks that are in use before the first request. -/
def initial (live : Finset ℕ) : State where
  toQueue := VirtioPolling.initial
  live := live
  request := fun _ => ⟨0, 0, 0, 0, false, false⟩
  freed := fun _ => false

/-- The index of descriptor `i` of a chain with this head. -/
def slot (head i : ℕ) : ℕ := (head + i) % QUEUE_SIZE

/-- The descriptors of a request as it puts them on the queue. -/
def Request.desc (r : Request) (head : ℕ) : ℕ → Desc
  | 0 => ⟨translate r.brq, SIZEOF_DESC_1, VIRTQ_DESC_FLAG_NEXT, slot head 1⟩
  | 1 => ⟨translate r.buffer, BitVec.ofNat 32 (r.endByte - r.startByte),
      VIRTQ_DESC_FLAG_NEXT ||| if r.writeRequest then 0 else VIRTQ_DESC_FLAG_WRITE, slot head 2⟩
  | _ => ⟨translate (r.brq + BRQ3_OFFSET), SIZEOF_DESC_3, VIRTQ_DESC_FLAG_WRITE, 0⟩

/-- The device still works on request `k`. -/
def Outstanding (s : State) (k : ℕ) : Prop := k < s.submitted ∧ k ∉ s.completed

/-- Every outstanding request has its descriptors, which no later request wrote to, and its
heap block. -/
structure KeptForDevice (s : State) : Prop where
  descriptors (k i : ℕ) : Outstanding s k → i < 3 →
    s.descriptor (slot (s.head k) i) = (s.request k).desc translate (s.head k) i
  not_overwritten (j k i i' : ℕ) : Outstanding s j → j < k → k < s.submitted → i < 3 → i' < 3 →
    slot (s.head j) i ≠ slot (s.head k) i'
  allocated (k : ℕ) : Outstanding s k → (s.request k).brq ∈ s.live

/-- The condition on a step: no request is put on the queue 85 or more after an outstanding one, a
call that does not poll comes to its `kfree` after its request is completed, and polled calls meet
the condition under which they wait for their own request. -/
def Meets (s : State) : Event → Prop
  | .submit _ => ∀ k, Outstanding s k → s.submitted < k + 85
  | .queue e => VirtioPolling.Meets .block QUEUE_SIZE s.toQueue e
  | .kfreeBrq k => s.phase k = .async → k ∈ s.completed
  | _ => True

def MeetingStep (s : State) (e : Event) (t : State) : Prop :=
  Step translate blockSize s e t ∧ Meets s e

/-! ## The invariant -/

structure Invariant (s : State) : Prop where
  queue : VirtioPolling.Invariant .block QUEUE_SIZE s.toQueue
  requests_idx : s.requestsIdx = BitVec.ofNat 16 (3 * s.submitted)
  head (k : ℕ) : k < s.submitted → s.head k = 3 * k % QUEUE_SIZE
  window (k : ℕ) : Outstanding s k → s.submitted ≤ k + 85
  descriptors (k i : ℕ) : Outstanding s k → i < 3 →
    s.descriptor (slot (s.head k) i) = (s.request k).desc translate (s.head k) i
  owned (k : ℕ) : k < s.submitted → s.freed k = false → (s.request k).brq ∈ s.live
  apart (j k : ℕ) : j < s.submitted → k < s.submitted → s.freed j = false → s.freed k = false →
    (s.request j).brq = (s.request k).brq → j = k
  freed (k : ℕ) : k < s.submitted → s.freed k = true → k ∈ s.completed

variable {translate : ℕ → BitVec 64} {blockSize : ℕ}

/-- Requests fewer than 85 apart share no descriptor. -/
theorem slots_apart (j k i i' : ℕ) (hjk : j < k) (hlt : k < j + 85) (hi : i < 3) (hi' : i' < 3) :
    slot (3 * j % QUEUE_SIZE) i ≠ slot (3 * k % QUEUE_SIZE) i' := by
  unfold slot QUEUE_SIZE
  rw [Nat.mod_add_mod, Nat.mod_add_mod]
  intro h
  have hdvd := Nat.dvd_of_mod_eq_zero (Nat.sub_mod_eq_zero_of_mod_eq h.symm)
  have hzero := Nat.eq_zero_of_dvd_of_lt hdvd (by omega)
  omega

theorem Invariant.kept (hs : Invariant translate s) : KeptForDevice translate s := by
  refine ⟨hs.descriptors, fun j k i i' hj hjk hk hi hi' => ?_, fun k hk => ?_⟩
  · rw [hs.head j hj.1, hs.head k hk]
    exact slots_apart j k i i' hjk (Nat.lt_of_lt_of_le hk (hs.window j hj)) hi hi'
  · apply hs.owned k hk.1
    by_contra hf
    exact hk.2 (hs.freed k hk.1 (Bool.eq_true_of_not_eq_false hf))

theorem initial_invariant (live : Finset ℕ) : Invariant translate (initial live) := by
  have hnone (k : ℕ) : ¬k < (initial live).submitted := Nat.not_lt_zero k
  constructor
  · exact VirtioPolling.initial_invariant .block QUEUE_SIZE
  · rfl
  · exact fun k hk => absurd hk (hnone k)
  · exact fun k hk => absurd hk.1 (hnone k)
  · exact fun k i hk => absurd hk.1 (hnone k)
  · exact fun k hk => absurd hk (hnone k)
  · exact fun j k hj => absurd hj (hnone j)
  · exact fun k hk => absurd hk (hnone k)

/-- Indexes that wrap at 16 bits agree with the slots. -/
theorem toNat_mod (m : ℕ) : (BitVec.ofNat 16 m).toNat % QUEUE_SIZE = m % QUEUE_SIZE := by
  rw [BitVec.toNat_ofNat]
  exact Nat.mod_mod_of_dvd m (by decide)

/-- What putting a request on the queue does. -/
structure Submitted (translate : ℕ → BitVec 64) (s : State) (r : Request) (t : Queue) : Prop where
  requestsIdx : t.requestsIdx = s.requestsIdx + 1 + 1 + 1
  submitted : t.submitted = s.submitted + 1
  completed : t.completed = s.completed
  head (k : ℕ) : t.head k = if k = s.submitted then s.requestsIdx.toNat % QUEUE_SIZE else s.head k
  descriptor (a : ℕ) : (∀ i < 3, a ≠ slot (s.requestsIdx.toNat % QUEUE_SIZE) i) →
    t.descriptor a = s.descriptor a
  written (i : ℕ) : i < 3 → t.descriptor (slot (s.requestsIdx.toNat % QUEUE_SIZE) i)
    = r.desc translate (s.requestsIdx.toNat % QUEUE_SIZE) i

theorem slot_of_idx (idx : Idx) :
    (idx + 1).toNat % QUEUE_SIZE = slot (idx.toNat % QUEUE_SIZE) 1 ∧
    (idx + 1 + 1).toNat % QUEUE_SIZE = slot (idx.toNat % QUEUE_SIZE) 2 := by
  unfold slot QUEUE_SIZE
  have h1 : (1 : Idx).toNat = 1 := rfl
  simp only [BitVec.toNat_add, h1]
  omega

theorem slot_zero (idx : Idx) : slot (idx.toNat % QUEUE_SIZE) 0 = idx.toNat % QUEUE_SIZE :=
  Nat.mod_mod _ _

theorem slot_injective {head i i' : ℕ} (hi : i < 3) (hi' : i' < 3) (h : slot head i = slot head i') :
    i = i' := by
  unfold slot QUEUE_SIZE at h
  omega

theorem submit_spec (s : State) (r : Request) :
    Submitted translate s r (submit QUEUE_SIZE s.toQueue (r.call translate)) := by
  obtain ⟨h1, h2⟩ := slot_of_idx s.requestsIdx
  have h0 := slot_zero s.requestsIdx
  have hne {i i' : ℕ} (hi : i < 3) (hi' : i' < 3) (hii : i ≠ i') :
      slot (s.requestsIdx.toNat % QUEUE_SIZE) i ≠ slot (s.requestsIdx.toNat % QUEUE_SIZE) i' :=
    fun h => hii (slot_injective hi hi' h)
  refine ⟨rfl, rfl, rfl, fun k => ?_, fun a ha => ?_, fun i hi => ?_⟩
  · simp only [submit, Request.call, Call.chain, writeChain, Function.update_apply]
  · have ha0 := ha 0 (by decide)
    have ha1 := ha 1 (by decide)
    have ha2 := ha 2 (by decide)
    rw [h0] at ha0
    simp only [submit, Request.call, Call.chain, writeChain, h1, h2]
    rw [Function.update_of_ne ha2, Function.update_of_ne ha1, Function.update_of_ne ha0]
  · simp only [submit, Request.call, Call.chain, writeChain, h1, h2]
    obtain rfl | rfl | rfl : i = 0 ∨ i = 1 ∨ i = 2 := by omega
    · have h01 := hne (show 0 < 3 by decide) (show 1 < 3 by decide) (by decide)
      have h02 := hne (show 0 < 3 by decide) (show 2 < 3 by decide) (by decide)
      rw [Function.update_of_ne h02, Function.update_of_ne h01, h0, Function.update_self]
      simp [Request.desc]
    · have h12 := hne (show 1 < 3 by decide) (show 2 < 3 by decide) (by decide)
      rw [Function.update_of_ne h12, Function.update_self]
      cases hw : r.writeRequest <;> simp [Request.desc, hw]
    · rw [Function.update_self]
      simp [Request.desc]

variable {s : State}

theorem submit_preserves (hs : Invariant translate s) {r : Request} (he : r.brq ∉ s.live)
    (hm : Meets s (.submit r)) (hr : ¬(checkRange blockSize r).isSome) :
    Invariant translate (next translate blockSize s (.submit r)) := by
  have hspec := @submit_spec translate s r
  have hfirst : s.requestsIdx.toNat % QUEUE_SIZE = 3 * s.submitted % QUEUE_SIZE := by
    rw [hs.requests_idx]
    exact toNat_mod _
  rw [next, if_neg hr]
  -- the state after the call, field by field
  generalize htd : submit QUEUE_SIZE s.toQueue (r.call translate) = q at hspec ⊢
  have hold {k : ℕ} (hk : k < s.submitted) : q.head k = s.head k ∧
      Function.update s.request s.submitted r k = s.request k ∧
      Function.update s.freed s.submitted false k = s.freed k := by
    have hne := Nat.ne_of_lt hk
    exact ⟨by rw [hspec.head, if_neg hne], Function.update_of_ne hne _ _,
      Function.update_of_ne hne _ _⟩
  have hnew : q.head s.submitted = 3 * s.submitted % QUEUE_SIZE := by
    rw [hspec.head, if_pos rfl, hfirst]
  have hcases {k : ℕ} (hk : k < q.submitted) : k < s.submitted ∨ k = s.submitted := by
    rw [hspec.submitted] at hk
    omega
  have hnofree : s.submitted ∉ s.completed :=
    fun h => Nat.lt_irrefl _ (hs.queue.completed_lt _ h)
  have hout {k : ℕ} (hk : k < s.submitted) (hc : k ∉ q.completed) : Outstanding s k :=
    ⟨hk, hspec.completed ▸ hc⟩
  constructor
  · rw [← htd]
    apply hs.queue.submit
    intro k lookahead hk hkc
    have hks : k < s.submitted := hs.queue.phase_lt k (by rw [hk]; simp)
    have hlt := hm k ⟨hks, hkc⟩
    rw [hs.head k hks, hfirst]
    have hap := slots_apart k s.submitted 0 0 hks hlt (by decide) (by decide)
    exact fun heq => hap (congrArg (slot · 0) heq)
  · change q.requestsIdx = BitVec.ofNat 16 (3 * q.submitted)
    rw [hspec.requestsIdx, hspec.submitted, hs.requests_idx]
    rw [Nat.mul_add, BitVec.ofNat_add, add_assoc, add_assoc]
    rfl
  · intro k hk
    rcases hcases hk with hk | rfl
    · exact (hold hk).1.trans (hs.head k hk)
    · exact hnew
  · rintro k ⟨hk, hc⟩
    change q.submitted ≤ k + 85
    rw [hspec.submitted]
    rcases hcases hk with hk | rfl
    · exact hm k (hout hk hc)
    · omega
  · rintro k i ⟨hk, hc⟩ hi
    change q.descriptor (slot (q.head k) i)
      = (Function.update s.request s.submitted r k).desc translate (q.head k) i
    rcases hcases hk with hk | rfl
    · obtain ⟨hh, hreq, -⟩ := hold hk
      rw [hh, hreq, hspec.descriptor]
      · exact hs.descriptors k i (hout hk hc) hi
      · intro i' hi'
        rw [hs.head k hk, hfirst]
        exact slots_apart k s.submitted i i' hk (hm k (hout hk hc)) hi hi'
    · rw [Function.update_self, hnew, ← hfirst]
      exact hspec.written i hi
  · intro k hk hf
    change (Function.update s.request s.submitted r k).brq ∈ insert r.brq s.live
    rcases hcases hk with hk | rfl
    · obtain ⟨-, hreq, hfr⟩ := hold hk
      rw [hreq]
      exact Finset.mem_insert_of_mem (hs.owned k hk (hfr ▸ hf))
    · rw [Function.update_self]
      exact Finset.mem_insert_self _ _
  · have hfar {k : ℕ} (hk : k < s.submitted)
        (hf : Function.update s.freed s.submitted false k = false) : r.brq ≠ (s.request k).brq :=
      fun e => he (e ▸ hs.owned k hk ((hold hk).2.2 ▸ hf))
    intro j k hj hk hfj hfk hjk
    change (Function.update s.request s.submitted r j).brq
      = (Function.update s.request s.submitted r k).brq at hjk
    rcases hcases hj with hj | rfl
    · rw [(hold hj).2.1] at hjk
      rcases hcases hk with hk | rfl
      · rw [(hold hk).2.1] at hjk
        exact hs.apart j k hj hk ((hold hj).2.2 ▸ hfj) ((hold hk).2.2 ▸ hfk) hjk
      · rw [Function.update_self] at hjk
        exact absurd hjk.symm (hfar hj hfj)
    · rw [Function.update_self] at hjk
      rcases hcases hk with hk | rfl
      · rw [(hold hk).2.1] at hjk
        exact absurd hjk (hfar hk hfk)
      · rfl
  · intro k hk hf
    change k ∈ q.completed
    change Function.update s.freed s.submitted false k = true at hf
    rw [hspec.completed]
    rcases hcases hk with hk | rfl
    · exact hs.freed k hk ((hold hk).2.2 ▸ hf)
    · rw [Function.update_self] at hf
      cases hf

/-- The polls, the device and the handler leave the driver's side of the queue alone. -/
structure Served (q q' : Queue) : Prop where
  requestsIdx : q'.requestsIdx = q.requestsIdx
  descriptor : q'.descriptor = q.descriptor
  head : q'.head = q.head
  submitted : q'.submitted = q.submitted
  completed (k : ℕ) : k ∈ q.completed → k ∈ q'.completed

theorem next_served (q : Queue) {e : VirtioPolling.Event} (he : ∀ call, e ≠ .submit call) :
    Served q (VirtioPolling.next .block QUEUE_SIZE q e) := by
  cases e with
  | submit call => exact absurd rfl (he call)
  | startPoll k => exact ⟨rfl, rfl, rfl, rfl, fun _ => id⟩
  | poll k => exact ⟨rfl, rfl, rfl, rfl, fun _ => id⟩
  | complete k => exact ⟨rfl, rfl, rfl, rfl, fun _ h => List.mem_append_left _ h⟩
  | irq =>
    simp only [VirtioPolling.next, irqHandler]
    split <;> exact ⟨rfl, rfl, rfl, rfl, fun _ => id⟩

theorem queue_preserves (hs : Invariant translate s) {e : VirtioPolling.Event}
    (he : Enabled s (.queue e)) (hm : Meets s (.queue e)) :
    Invariant translate (next translate blockSize s (.queue e)) := by
  have hq := VirtioPolling.step_preserves_invariant hs.queue he.1 hm
  have hf := next_served s.toQueue he.2
  rw [next]
  generalize VirtioPolling.next .block QUEUE_SIZE s.toQueue e = q at hq hf ⊢
  have hout {k : ℕ} (hk : k < q.submitted) (hc : k ∉ q.completed) : Outstanding s k :=
    ⟨hf.submitted ▸ hk, fun h => hc (hf.completed k h)⟩
  constructor
  · exact hq
  · change q.requestsIdx = BitVec.ofNat 16 (3 * q.submitted)
    rw [hf.requestsIdx, hf.submitted]
    exact hs.requests_idx
  · intro k hk
    change q.head k = _
    rw [hf.head]
    exact hs.head k (hf.submitted ▸ hk)
  · rintro k ⟨hk, hc⟩
    change q.submitted ≤ k + 85
    rw [hf.submitted]
    exact hs.window k (hout hk hc)
  · rintro k i ⟨hk, hc⟩ hi
    change q.descriptor (slot (q.head k) i) = (s.request k).desc translate (q.head k) i
    rw [hf.descriptor, hf.head]
    exact hs.descriptors k i (hout hk hc) hi
  · exact fun k hk => hs.owned k (hf.submitted ▸ hk)
  · exact fun j k hj hk => hs.apart j k (hf.submitted ▸ hj) (hf.submitted ▸ hk)
  · exact fun k hk hkf => hf.completed k (hs.freed k (hf.submitted ▸ hk) hkf)

theorem kfreeBrq_preserves (hs : Invariant translate s) {k : ℕ} (he : Enabled s (.kfreeBrq k))
    (hm : Meets s (.kfreeBrq k)) :
    Invariant translate (next translate blockSize s (.kfreeBrq k)) := by
  obtain ⟨hk, hkf, hphase⟩ := he
  have hdone : k ∈ s.completed := by
    rcases hphase with ha | hr
    · exact hm ha
    · exact hs.queue.no_early_return k hr
  have hstill {j : ℕ} (hf : Function.update s.freed k true j = false) :
      j ≠ k ∧ s.freed j = false := by
    by_cases hjk : j = k
    · rw [hjk, Function.update_self] at hf
      cases hf
    · rw [Function.update_of_ne hjk] at hf
      exact ⟨hjk, hf⟩
  refine
    { queue := hs.queue
      requests_idx := hs.requests_idx
      head := hs.head
      window := hs.window
      descriptors := hs.descriptors
      owned := fun j hj hf => ?_
      apart := fun i j hi hj hfi hfj => hs.apart i j hi hj (hstill hfi).2 (hstill hfj).2
      freed := fun j hj hf => ?_ }
  · obtain ⟨hjk, hf⟩ := hstill hf
    change (s.request j).brq ∈ s.live.erase (s.request k).brq
    exact Finset.mem_erase_of_ne_of_mem (fun e => hjk (hs.apart j k hj hk hf hkf e))
      (hs.owned j hj hf)
  · change Function.update s.freed k true j = true at hf
    by_cases hjk : j = k
    · exact hjk ▸ hdone
    · rw [Function.update_of_ne hjk] at hf
      exact hs.freed j hj hf

theorem step_preserves_invariant (hs : Invariant translate s) {e : Event} (he : Enabled s e)
    (hm : Meets s e) : Invariant translate (next translate blockSize s e) := by
  cases e with
  | submit r =>
    by_cases hr : (checkRange blockSize r).isSome
    · rw [next, if_pos hr]
      exact hs
    · exact submit_preserves hs he hm hr
  | queue e => exact queue_preserves hs he hm
  | kfreeBrq k => exact kfreeBrq_preserves hs he hm
  | kmalloc a =>
    exact { hs with owned := fun k hk hf => Finset.mem_insert_of_mem (hs.owned k hk hf) }
  | kfree a =>
    exact { hs with owned := fun k hk hf =>
      Finset.mem_erase_of_ne_of_mem (fun e => he.2 ⟨k, hk, hf, e⟩) (hs.owned k hk hf) }

/-- In every run whose steps all meet the condition the device finds every outstanding request as
the driver left it. -/
theorem requests_kept (translate : ℕ → BitVec 64) (blockSize : ℕ) (live : Finset ℕ) (s : State)
    (hrun : Execution (MeetingStep translate blockSize) (initial live) s) :
    KeptForDevice translate s := by
  have hs : Invariant translate s := by
    refine hrun.invariant ?_ (initial_invariant live)
    rintro s e _ hs ⟨⟨he, rfl⟩, hm⟩
    exact step_preserves_invariant hs he hm
  exact hs.kept

/-- A polled read of one sector at heap block 4096. -/
def pollRead : Request := ⟨4096, 8192, 0, 512, false, true⟩

/-- A polled read on its way: the device has not completed it. -/
theorem requests_kept_one : KeptForDevice (fun a => BitVec.ofNat 64 a)
    (next (fun a => BitVec.ofNat 64 a) 512 (next (fun a => BitVec.ofNat 64 a) 512
      (initial ∅) (.submit pollRead)) (.queue (.startPoll 0))) := by
  apply requests_kept _ 512 ∅
  refine .tail (e := .queue (.startPoll 0)) (.single (e := .submit pollRead) ⟨⟨?_, rfl⟩, ?_⟩)
    ⟨⟨⟨rfl, fun _ h => nomatch h⟩, rfl⟩, ?_⟩
  · exact Finset.notMem_empty _
  · exact fun k hk => absurd hk.1 (Nat.not_lt_zero k)
  · intro j hj hj0
    have hj : j < 1 := hj
    omega

/-- A read that does not poll: its call returns, and frees the block, before the device is done. -/
def asyncRead : Request := ⟨4096, 8192, 0, 512, false, false⟩

theorem request_freed_early :
    ¬ ∀ (translate : ℕ → BitVec 64) (blockSize : ℕ) (live : Finset ℕ) (s : State),
      Execution (Step translate blockSize) (initial live) s → KeptForDevice translate s := by
  intro h
  let translate : ℕ → BitVec 64 := fun a => BitVec.ofNat 64 a
  let s := next translate 512 (initial ∅) (.submit asyncRead)
  have hsubmit : Step translate 512 (initial ∅) (.submit asyncRead) s :=
    ⟨Finset.notMem_empty _, rfl⟩
  have hfree : Step translate 512 s (.kfreeBrq 0) (next translate 512 s (.kfreeBrq 0)) :=
    ⟨⟨Nat.one_pos, rfl, Or.inl rfl⟩, rfl⟩
  have hkept := h translate 512 ∅ _ ((Execution.single hsubmit).tail hfree)
  have hout : Outstanding (next translate 512 s (.kfreeBrq 0)) 0 := ⟨Nat.one_pos, List.not_mem_nil⟩
  have hmem := hkept.allocated 0 hout
  exact absurd hmem (Finset.notMem_erase _ _)

end BlockRequests
