import DucreuOS.Library.Transition

/-! # Polled requests on a virtqueue

The drivers of the block, rng and gpu devices put chains of descriptors in the driver ring; the
device answers in its own ring, in any order. A polled call scans the device ring for the head
of its chain. Submissions, single rounds of a polling loop, completions and acknowledgements
interleave freely, and several calls may poll at a time. -/
namespace VirtioPolling

open Transition

abbrev Idx := BitVec 16

inductive Driver
  | block | rng | gpu
  deriving DecidableEq

def VIRTQ_DESC_FLAG_NEXT : Idx := 1
def VIRTQ_DESC_FLAG_WRITE : Idx := 2

/-- `virtq_desc_t` -/
structure Desc where
  address : BitVec 64
  length : BitVec 32
  flags : Idx
  next : ℕ

/-- One buffer of a chain; the device writes to it or reads from it. -/
structure Buffer where
  paddr : BitVec 64
  length : BitVec 32
  deviceWrites : Bool

/-- The calls that put a chain on the queue, with the physical addresses of their buffers. -/
inductive Call
  /-- `block_read_write` -/
  | blockReadWrite (paddr1 paddr2 paddr3 : BitVec 64) (len1 len2 len3 : BitVec 32)
      (write_request do_poll : Bool)
  /-- `rng_fill_poll` -/
  | rngFillPoll (paddr : BitVec 64) (size : BitVec 32)
  /-- `gpu_request_poll`; the data is optional -/
  | gpuRequestPoll (request : BitVec 64) (request_size : BitVec 32)
      (data : Option (BitVec 64 × BitVec 32)) (response : BitVec 64) (response_size : BitVec 32)
      (do_write : Bool)

namespace Call

def driver : Call → Driver
  | .blockReadWrite .. => .block
  | .rngFillPoll .. => .rng
  | .gpuRequestPoll .. => .gpu

def polls : Call → Bool
  | .blockReadWrite _ _ _ _ _ _ _ do_poll => do_poll
  | _ => true

def chain : Call → List Buffer
  | .blockReadWrite paddr1 paddr2 paddr3 len1 len2 len3 write_request _ =>
    [⟨paddr1, len1, false⟩, ⟨paddr2, len2, !write_request⟩, ⟨paddr3, len3, true⟩]
  | .rngFillPoll paddr size => [⟨paddr, size, true⟩]
  | .gpuRequestPoll request request_size none response response_size _ =>
    [⟨request, request_size, false⟩, ⟨response, response_size, true⟩]
  | .gpuRequestPoll request request_size (some (data, data_size)) response response_size do_write =>
    [⟨request, request_size, false⟩, ⟨data, data_size, !do_write⟩, ⟨response, response_size, true⟩]

end Call

/-- Where the call that made a request is. -/
inductive Phase
  /-- it does not poll -/
  | async
  /-- the device has been notified, the loop not started -/
  | notified
  /-- in the loop, at this `lookahead_idx` -/
  | polling (lookahead : ℕ)
  | returned
  deriving DecidableEq

/-- A queue and its driver's indexes. Requests are numbered in the order of their submission;
`head`, `phase` and `completed` are histories, the last in the order of the completions. -/
structure Queue where
  requestsIdx : Idx
  acknowledgedIdx : Idx
  driverIdx : Idx
  deviceIdx : Idx
  descriptor : ℕ → Desc
  driverRing : ℕ → ℕ
  deviceRing : ℕ → ℕ
  submitted : ℕ
  head : ℕ → ℕ
  phase : ℕ → Phase
  completed : List ℕ

/-- Write the descriptors of a chain, each at the next index of the driver. -/
def writeChain (queueSize : ℕ) : List Buffer → Queue → Queue
  | [], s => s
  | b :: bs, s =>
    let write : Idx := if b.deviceWrites then VIRTQ_DESC_FLAG_WRITE else 0
    let desc : Desc := match bs with
      | [] => ⟨b.paddr, b.length, write, 0⟩
      | _ :: _ => ⟨b.paddr, b.length, VIRTQ_DESC_FLAG_NEXT ||| write,
          (s.requestsIdx + 1).toNat % queueSize⟩
    writeChain queueSize bs { s with
      descriptor := Function.update s.descriptor (s.requestsIdx.toNat % queueSize) desc
      requestsIdx := s.requestsIdx + 1 }

def submit (queueSize : ℕ) (s : Queue) (call : Call) : Queue :=
  let first := s.requestsIdx.toNat % queueSize
  let s := writeChain queueSize call.chain s
  { s with
    driverRing := Function.update s.driverRing (s.driverIdx.toNat % queueSize) first
    driverIdx := s.driverIdx + 1
    submitted := s.submitted + 1
    head := Function.update s.head s.submitted first
    phase := Function.update s.phase s.submitted (if call.polls then .notified else .async) }

/-- `lookahead_idx += 1`: an `int` in the block driver, 16 bits in the others. -/
def lookaheadNext (d : Driver) (lookahead : ℕ) : ℕ :=
  match d with
  | .block => lookahead + 1
  | _ => (lookahead + 1) % 2 ^ 16

/-- One round of the polling loop of request `k`. -/
def pollRound (d : Driver) (queueSize : ℕ) (s : Queue) (k lookahead : ℕ) : Phase :=
  if lookahead ≠ s.deviceIdx.toNat then
    if s.deviceRing (lookahead % queueSize) = s.head k then .returned
    else .polling (lookaheadNext d lookahead)
  else .polling lookahead

/-- The device puts the head of chain `k` in its ring. -/
def deviceComplete (queueSize : ℕ) (s : Queue) (k : ℕ) : Queue :=
  { s with
    deviceRing := Function.update s.deviceRing (s.deviceIdx.toNat % queueSize) (s.head k)
    deviceIdx := s.deviceIdx + 1
    completed := s.completed ++ [k] }

/-- One round of the loop of `block_irq_handler`, or the assignment of the other handlers. -/
def irqHandler (d : Driver) (s : Queue) : Queue :=
  match d with
  | .block =>
    if s.acknowledgedIdx ≠ s.deviceIdx then { s with acknowledgedIdx := s.acknowledgedIdx + 1 }
    else s
  | _ => { s with acknowledgedIdx := s.deviceIdx }

inductive Event
  | submit (call : Call)
  | startPoll (k : ℕ)
  | poll (k : ℕ)
  | complete (k : ℕ)
  | irq

def lookahead? (s : Queue) (k : ℕ) : Option ℕ :=
  match s.phase k with
  | .polling lookahead => some lookahead
  | _ => none

def Enabled (d : Driver) (s : Queue) : Event → Prop
  | .submit call => call.driver = d
  | .startPoll k => s.phase k = .notified
  | .poll k => (lookahead? s k).isSome
  | .complete k => k < s.submitted ∧ k ∉ s.completed
  | .irq => True

instance (d : Driver) (s : Queue) : (e : Event) → Decidable (Enabled d s e)
  | .submit _ => inferInstanceAs (Decidable (_ = _))
  | .startPoll _ => inferInstanceAs (Decidable (_ = _))
  | .poll _ => inferInstanceAs (Decidable (_ = true))
  | .complete _ => inferInstanceAs (Decidable (_ ∧ _))
  | .irq => inferInstanceAs (Decidable True)

def next (d : Driver) (queueSize : ℕ) (s : Queue) : Event → Queue
  | .submit call => submit queueSize s call
  | .startPoll k =>
    { s with phase := Function.update s.phase k (.polling s.acknowledgedIdx.toNat) }
  | .poll k =>
    { s with phase := Function.update s.phase k (pollRound d queueSize s k ((lookahead? s k).getD 0)) }
  | .complete k => deviceComplete queueSize s k
  | .irq => irqHandler d s

/-- The queue as the device setup leaves it: every page of it is zeroed. -/
def initial : Queue where
  requestsIdx := 0
  acknowledgedIdx := 0
  driverIdx := 0
  deviceIdx := 0
  descriptor := fun _ => ⟨0, 0, 0, 0⟩
  driverRing := fun _ => 0
  deviceRing := fun _ => 0
  submitted := 0
  head := fun _ => 0
  phase := fun _ => .async
  completed := []

def Step (d : Driver) (queueSize : ℕ) (s : Queue) (e : Event) (t : Queue) : Prop :=
  Enabled d s e ∧ t = next d queueSize s e

/-- Completions that the handler has not acknowledged, as the 16-bit indexes count them. -/
def unacknowledged (s : Queue) : ℕ := (s.deviceIdx - s.acknowledgedIdx).toNat

/-- The condition on a step that keeps polled calls right: a polled request starts to poll when
every other request with its head is completed and acknowledged, its head is not given to
another request while it polls and is not completed, and the `lookahead_idx` of the block driver
stays within 16 bits. -/
def Meets (d : Driver) (queueSize : ℕ) (s : Queue) : Event → Prop
  | .submit _ => ∀ k lookahead, s.phase k = .polling lookahead → k ∉ s.completed →
      s.head k ≠ s.requestsIdx.toNat % queueSize
  | .startPoll k => ∀ j < s.submitted, j ≠ k → s.head j = s.head k →
      j ∈ s.completed.take (s.completed.length - unacknowledged s)
  | .poll k => d = .block → ∀ lookahead, s.phase k = .polling lookahead → lookahead < 2 ^ 16
  | _ => True

/-- No call has returned before its own request was completed. -/
def NoEarlyReturn (s : Queue) : Prop :=
  ∀ k, s.phase k = .returned → k ∈ s.completed

/-! ## The invariant -/

/-- The ring entry of the completion with number `l`. -/
def slot (queueSize l : ℕ) : ℕ := l % 2 ^ 16 % queueSize

/-- A polling request `k` that is not completed has looked at every completion before `l`,
and every other request with its head is among those. -/
structure Watching (s : Queue) (k lookahead l : ℕ) : Prop where
  le : l ≤ s.completed.length
  lookahead_eq : lookahead < 2 ^ 16 → lookahead = l % 2 ^ 16
  others (j : ℕ) : j < s.submitted → j ≠ k → s.head j = s.head k → j ∈ s.completed.take l

structure Invariant (d : Driver) (queueSize : ℕ) (s : Queue) : Prop where
  device_idx : s.deviceIdx = BitVec.ofNat 16 s.completed.length
  acknowledged : ∃ a ≤ s.completed.length, s.acknowledgedIdx = BitVec.ofNat 16 a
  completed_nodup : s.completed.Nodup
  completed_lt (k : ℕ) : k ∈ s.completed → k < s.submitted
  phase_lt (k : ℕ) : s.phase k ≠ .async → k < s.submitted
  ring (l : ℕ) : l < s.completed.length → ∃ i j, l ≤ i ∧ s.completed[i]? = some j ∧
    s.deviceRing (slot queueSize l) = s.head j
  watching (k lookahead : ℕ) : s.phase k = .polling lookahead → k ∉ s.completed →
    ∃ l, Watching s k lookahead l
  lookahead_lt (k lookahead : ℕ) : s.phase k = .polling lookahead → d ≠ .block → lookahead < 2 ^ 16
  no_early_return : NoEarlyReturn s

theorem initial_invariant (d : Driver) (queueSize : ℕ) : Invariant d queueSize initial := by
  constructor
  · rfl
  · exact ⟨0, le_refl 0, rfl⟩
  · exact List.nodup_nil
  · exact fun k hk => absurd hk List.not_mem_nil
  · exact fun k hk => absurd rfl hk
  · exact fun l hl => absurd hl (Nat.not_lt_zero l)
  · exact fun k lookahead hk => nomatch hk
  · exact fun k lookahead hk => nomatch hk
  · exact fun k hk => nomatch hk

/-- Writing descriptors touches nothing else but the index of the next one. -/
theorem writeChain_frame (queueSize : ℕ) (bs : List Buffer) (s : Queue) :
    ∃ descriptor requestsIdx, writeChain queueSize bs s
      = { s with descriptor := descriptor, requestsIdx := requestsIdx } := by
  induction bs generalizing s with
  | nil => exact ⟨s.descriptor, s.requestsIdx, rfl⟩
  | cons b bs ih => exact ih _

variable {d : Driver} {queueSize : ℕ} {s : Queue}

theorem Invariant.submit (hs : Invariant d queueSize s) (call : Call)
    (hm : Meets d queueSize s (.submit call)) : Invariant d queueSize (submit queueSize s call) := by
  obtain ⟨descriptor, requestsIdx, hw⟩ := writeChain_frame queueSize call.chain s
  have hphase (k : ℕ) : (VirtioPolling.submit queueSize s call).phase k
      = if k = s.submitted then (if call.polls then .notified else .async) else s.phase k := by
    simp only [VirtioPolling.submit, hw, Function.update_apply]
  have hhead (k : ℕ) : (VirtioPolling.submit queueSize s call).head k
      = if k = s.submitted then s.requestsIdx.toNat % queueSize else s.head k := by
    simp only [VirtioPolling.submit, hw, Function.update_apply]
  have hsub : (VirtioPolling.submit queueSize s call).submitted = s.submitted + 1 := by
    simp only [VirtioPolling.submit, hw]
  have hcomp : (VirtioPolling.submit queueSize s call).completed = s.completed := by
    simp only [VirtioPolling.submit, hw]
  have hring : (VirtioPolling.submit queueSize s call).deviceRing = s.deviceRing := by
    simp only [VirtioPolling.submit, hw]
  have hold {k : ℕ} (hk : k < s.submitted) :
      (VirtioPolling.submit queueSize s call).head k = s.head k := by
    rw [hhead, if_neg (Nat.ne_of_lt hk)]
  -- the new request does not poll yet
  have hpoll {k lookahead : ℕ}
      (hk : (VirtioPolling.submit queueSize s call).phase k = .polling lookahead) :
      s.phase k = .polling lookahead ∧ k < s.submitted := by
    rw [hphase] at hk
    by_cases hks : k = s.submitted
    · rw [if_pos hks] at hk
      split at hk <;> cases hk
    · rw [if_neg hks] at hk
      exact ⟨hk, hs.phase_lt k (by rw [hk]; simp)⟩
  constructor
  · rw [hcomp]
    simp only [VirtioPolling.submit, hw]
    exact hs.device_idx
  · rw [hcomp]
    simp only [VirtioPolling.submit, hw]
    exact hs.acknowledged
  · rw [hcomp]
    exact hs.completed_nodup
  · intro k hk
    rw [hcomp] at hk
    rw [hsub]
    exact Nat.lt_succ_of_lt (hs.completed_lt k hk)
  · intro k hk
    rw [hsub]
    rw [hphase] at hk
    by_cases hks : k = s.submitted
    · exact hks ▸ Nat.lt_succ_self _
    · rw [if_neg hks] at hk
      exact Nat.lt_succ_of_lt (hs.phase_lt k hk)
  · intro l hl
    rw [hcomp] at hl
    obtain ⟨i, j, hli, hj, hr⟩ := hs.ring l hl
    refine ⟨i, j, hli, by rw [hcomp]; exact hj, ?_⟩
    rw [hring, hr, hold (hs.completed_lt j (List.mem_of_getElem? hj))]
  · intro k lookahead hk hkc
    obtain ⟨hk, hks⟩ := hpoll hk
    rw [hcomp] at hkc
    obtain ⟨l, hw⟩ := hs.watching k lookahead hk hkc
    refine ⟨l, hcomp ▸ hw.le, hw.lookahead_eq, fun j hj hjk hjh => ?_⟩
    rw [hcomp]
    rw [hold hks] at hjh
    rw [hsub] at hj
    by_cases hjs : j = s.submitted
    · rw [hhead, if_pos hjs] at hjh
      exact absurd hjh.symm (hm k lookahead hk hkc)
    · have hj : j < s.submitted := Nat.lt_of_le_of_ne (Nat.le_of_lt_succ hj) hjs
      rw [hold hj] at hjh
      exact hw.others j hj hjk hjh
  · intro k lookahead hk
    exact hs.lookahead_lt k lookahead (hpoll hk).1
  · intro k hk
    rw [hcomp]
    rw [hphase] at hk
    by_cases hks : k = s.submitted
    · rw [if_pos hks] at hk
      split at hk <;> cases hk
    · rw [if_neg hks] at hk
      exact hs.no_early_return k hk

/-- Only the phase of one submitted request changes. -/
theorem Invariant.setPhase (hs : Invariant d queueSize s) {k : ℕ} {ph : Phase}
    (hk : k < s.submitted)
    (hwatch : ∀ lookahead, ph = .polling lookahead → k ∉ s.completed →
      ∃ l, Watching s k lookahead l)
    (hlt : ∀ lookahead, ph = .polling lookahead → d ≠ .block → lookahead < 2 ^ 16)
    (hret : ph = .returned → k ∈ s.completed) :
    Invariant d queueSize { s with phase := Function.update s.phase k ph } := by
  refine { hs with
    phase_lt := fun i hi => ?_
    watching := fun i lookahead hi hic => ?_
    lookahead_lt := fun i lookahead hi => ?_
    no_early_return := fun i hi => ?_ }
  · by_cases hik : i = k
    · exact hik ▸ hk
    · exact hs.phase_lt i (by simpa [hik] using hi)
  · by_cases hik : i = k
    · subst hik
      obtain ⟨l, hw⟩ := hwatch lookahead (by simpa using hi) hic
      exact ⟨l, hw.le, hw.lookahead_eq, hw.others⟩
    · obtain ⟨l, hw⟩ := hs.watching i lookahead (by simpa [hik] using hi) hic
      exact ⟨l, hw.le, hw.lookahead_eq, hw.others⟩
  · by_cases hik : i = k
    · subst hik
      exact hlt lookahead (by simpa using hi)
    · exact hs.lookahead_lt i lookahead (by simpa [hik] using hi)
  · by_cases hik : i = k
    · subst hik
      exact hret (by simpa using hi)
    · exact hs.no_early_return i (by simpa [hik] using hi)

/-- The index at which a poll starts: everything before it is acknowledged. -/
theorem Invariant.start_index (hs : Invariant d queueSize s) :
    s.acknowledgedIdx.toNat = (s.completed.length - unacknowledged s) % 2 ^ 16 := by
  obtain ⟨a, ha, hack⟩ := hs.acknowledged
  unfold unacknowledged
  rw [hs.device_idx, hack, BitVec.toNat_sub, BitVec.toNat_ofNat, BitVec.toNat_ofNat]
  omega

theorem Invariant.startPoll (hs : Invariant d queueSize s) {k : ℕ} (he : s.phase k = .notified)
    (hm : Meets d queueSize s (.startPoll k)) :
    Invariant d queueSize (next d queueSize s (.startPoll k)) := by
  apply hs.setPhase (hs.phase_lt k (by rw [he]; simp))
  · rintro _ ⟨⟩ -
    exact ⟨_, Nat.sub_le _ _, fun _ => hs.start_index, hm⟩
  · rintro _ ⟨⟩ -
    exact s.acknowledgedIdx.isLt
  · rintro ⟨⟩

/-- The ring entry at the position of a watching poll names no other request. -/
theorem Watching.entry (hs : Invariant d queueSize s) {k lookahead l : ℕ}
    (hw : Watching s k lookahead l) (hl : l < s.completed.length)
    (hr : s.deviceRing (slot queueSize l) = s.head k) : k ∈ s.completed := by
  obtain ⟨i, j, hli, hj, hrj⟩ := hs.ring l hl
  by_cases hjk : j = k
  · exact hjk ▸ List.mem_of_getElem? hj
  · -- `j` was completed before `l` and again at `i`
    have hjs := hs.completed_lt j (List.mem_of_getElem? hj)
    obtain ⟨m, hm, hmj⟩ := List.getElem_of_mem (hw.others j hjs hjk (hrj.symm.trans hr))
    rw [List.getElem_take] at hmj
    rw [List.length_take] at hm
    obtain ⟨hi, hij⟩ := List.getElem?_eq_some_iff.1 hj
    have := (hs.completed_nodup.getElem_inj_iff).1 (hmj.trans hij.symm)
    omega

theorem Invariant.poll (hs : Invariant d queueSize s) {k : ℕ} (he : (lookahead? s k).isSome)
    (hm : Meets d queueSize s (.poll k)) :
    Invariant d queueSize (next d queueSize s (.poll k)) := by
  obtain ⟨lookahead, hla⟩ := Option.isSome_iff_exists.1 he
  have hph : s.phase k = .polling lookahead := by
    unfold lookahead? at hla
    split at hla
    next la h => exact h.trans (congrArg Phase.polling (Option.some.inj hla))
    next => cases hla
  have hlt : lookahead < 2 ^ 16 := by
    by_cases hd : d = .block
    · exact hm hd lookahead hph
    · exact hs.lookahead_lt k lookahead hph hd
  have hdev : s.deviceIdx.toNat = s.completed.length % 2 ^ 16 := by
    rw [hs.device_idx, BitVec.toNat_ofNat]
  -- a watching poll that goes on is behind the device
  have hbehind {l : ℕ} (hw : Watching s k lookahead l) (hne : lookahead ≠ s.deviceIdx.toNat) :
      l < s.completed.length := by
    refine Nat.lt_of_le_of_ne hw.le fun e => hne ?_
    rw [hw.lookahead_eq hlt, hdev, e]
  have hnext : next d queueSize s (.poll k) =
      { s with phase := Function.update s.phase k (pollRound d queueSize s k lookahead) } := by
    rw [next, hla, Option.getD_some]
  rw [hnext]
  apply hs.setPhase (hs.phase_lt k (by rw [hph]; simp))
  · intro la hpr hkc
    obtain ⟨l, hw⟩ := hs.watching k lookahead hph hkc
    unfold pollRound at hpr
    split at hpr
    next hne =>
      split at hpr
      next => cases hpr
      next =>
        obtain rfl : lookaheadNext d lookahead = la := by simpa using hpr
        refine ⟨l + 1, hbehind hw hne, fun hla' => ?_, fun j hj hjk hjh => ?_⟩
        · have := hw.lookahead_eq hlt
          cases d <;> simp only [lookaheadNext] at hla' ⊢ <;> omega
        · exact List.take_subset_take_left _ (Nat.le_succ l) (hw.others j hj hjk hjh)
    next =>
      obtain rfl : lookahead = la := by simpa using hpr
      exact ⟨l, hw⟩
  · intro la hpr hd
    unfold pollRound at hpr
    split at hpr
    next =>
      split at hpr
      next => cases hpr
      next =>
        obtain rfl : lookaheadNext d lookahead = la := by simpa using hpr
        cases d with
        | block => exact absurd rfl hd
        | rng => exact Nat.mod_lt _ (by decide)
        | gpu => exact Nat.mod_lt _ (by decide)
    next =>
      obtain rfl : lookahead = la := by simpa using hpr
      exact hlt
  · intro hpr
    by_contra hkc
    obtain ⟨l, hw⟩ := hs.watching k lookahead hph hkc
    unfold pollRound at hpr
    split at hpr
    next hne =>
      split at hpr
      next hr =>
        rw [hw.lookahead_eq hlt] at hr
        exact hkc (hw.entry hs (hbehind hw hne) hr)
      next => cases hpr
    next => cases hpr

theorem Invariant.complete (hs : Invariant d queueSize s) {k : ℕ} (hk : k < s.submitted)
    (hkc : k ∉ s.completed) : Invariant d queueSize (deviceComplete queueSize s k) := by
  have hdev : s.deviceIdx.toNat % queueSize = slot queueSize s.completed.length := by
    rw [hs.device_idx, BitVec.toNat_ofNat]
    rfl
  have hsub (l : List ℕ) {j : ℕ} (hj : j ∈ l) : j ∈ l ++ [k] := List.mem_append_left _ hj
  constructor
  · simp only [deviceComplete, hs.device_idx, List.length_append, List.length_singleton,
      BitVec.ofNat_add]
    rfl
  · obtain ⟨a, ha, hack⟩ := hs.acknowledged
    refine ⟨a, ?_, hack⟩
    simp only [deviceComplete, List.length_append]
    omega
  · exact List.nodup_append.2 ⟨hs.completed_nodup, List.nodup_singleton k, by
      intro a ha b hb hab
      obtain rfl := List.mem_singleton.1 hb
      exact hkc (hab ▸ ha)⟩
  · intro i hi
    rcases List.mem_append.1 hi with hi | hi
    · exact hs.completed_lt i hi
    · exact List.mem_singleton.1 hi ▸ hk
  · exact hs.phase_lt
  · intro l hl
    change ∃ i j, l ≤ i ∧ (s.completed ++ [k])[i]? = some j ∧
      Function.update s.deviceRing (s.deviceIdx.toNat % queueSize) (s.head k) (slot queueSize l)
        = s.head j
    rw [hdev]
    simp only [deviceComplete, List.length_append, List.length_singleton] at hl
    by_cases hsl : slot queueSize l = slot queueSize s.completed.length
    · exact ⟨s.completed.length, k, Nat.le_of_lt_succ hl, by simp, by rw [hsl, Function.update_self]⟩
    · have hlt : l < s.completed.length := by
        refine Nat.lt_of_le_of_ne (Nat.le_of_lt_succ hl) fun e => hsl (congrArg _ e)
      obtain ⟨i, j, hli, hj, hr⟩ := hs.ring l hlt
      refine ⟨i, j, hli, ?_, by rw [Function.update_of_ne hsl, hr]⟩
      rw [List.getElem?_append_left (List.getElem?_eq_some_iff.1 hj).1]
      exact hj
  · intro i lookahead hi hic
    obtain ⟨l, hw⟩ := hs.watching i lookahead hi fun h => hic (hsub _ h)
    refine ⟨l, hw.le.trans (by simp [deviceComplete]), hw.lookahead_eq, fun j hj hji hjh => ?_⟩
    exact List.take_append_of_le_length hw.le ▸ hw.others j hj hji hjh
  · exact hs.lookahead_lt
  · exact fun i hi => hsub _ (hs.no_early_return i hi)

theorem Invariant.irq (hs : Invariant d queueSize s) : Invariant d queueSize (irqHandler d s) := by
  have hack (ack : Idx) (ha : ∃ a ≤ s.completed.length, ack = BitVec.ofNat 16 a) :
      Invariant d queueSize { s with acknowledgedIdx := ack } :=
    { hs with
      acknowledged := ha
      watching := fun k lookahead hk hkc =>
        (hs.watching k lookahead hk hkc).imp fun l hw => ⟨hw.le, hw.lookahead_eq, hw.others⟩ }
  have hall : Invariant d queueSize { s with acknowledgedIdx := s.deviceIdx } :=
    hack _ ⟨_, le_refl _, hs.device_idx⟩
  cases d with
  | block =>
    unfold irqHandler
    dsimp only
    split
    next hne =>
      obtain ⟨a, ha, hacka⟩ := hs.acknowledged
      apply hack
      refine ⟨a + 1, Nat.lt_of_le_of_ne ha fun e => hne ?_, ?_⟩
      · rw [hacka, hs.device_idx, e]
      · rw [hacka, BitVec.ofNat_add]
        rfl
    next => exact hs
  | rng => exact hall
  | gpu => exact hall

theorem step_preserves_invariant (hs : Invariant d queueSize s) {e : Event} (he : Enabled d s e)
    (hm : Meets d queueSize s e) : Invariant d queueSize (next d queueSize s e) := by
  cases e with
  | submit call => exact hs.submit call hm
  | startPoll k => exact hs.startPoll he hm
  | poll k => exact hs.poll he hm
  | complete k => exact hs.complete he.1 he.2
  | irq => exact hs.irq

/-- A step that meets the condition. -/
def MeetingStep (d : Driver) (queueSize : ℕ) (s : Queue) (e : Event) (t : Queue) : Prop :=
  Step d queueSize s e t ∧ Meets d queueSize s e

/-- In every run whose steps all meet the condition no polled call returns early. -/
theorem polls_complete (d : Driver) (queueSize : ℕ) (s : Queue)
    (hrun : Execution (MeetingStep d queueSize) initial s) : NoEarlyReturn s := by
  have hs : Invariant d queueSize s := by
    refine hrun.invariant ?_ (initial_invariant d queueSize)
    rintro s e _ hs ⟨⟨he, rfl⟩, hm⟩
    exact step_preserves_invariant hs he hm
  exact hs.no_early_return

def twoRequests : Queue :=
  next .rng 1024 (next .rng 1024 initial (.submit (.rngFillPoll 0x80000000 8)))
    (.submit (.rngFillPoll 0x80000100 8))

/-- Two outstanding requests; the second is completed first and its call returns. -/
theorem polls_complete_two_requests :
    NoEarlyReturn (next .rng 1024 (next .rng 1024 (next .rng 1024 twoRequests (.startPoll 1))
      (.complete 1)) (.poll 1)) := by
  apply polls_complete .rng 1024
  refine .tail (e := .poll 1) (.tail (e := .complete 1) (.tail (e := .startPoll 1) (.tail
    (e := .submit (.rngFillPoll 0x80000100 8)) (.single (e := .submit (.rngFillPoll 0x80000000 8))
      ⟨⟨rfl, rfl⟩, ?_⟩) ⟨⟨rfl, rfl⟩, ?_⟩) ⟨⟨rfl, rfl⟩, ?_⟩) ⟨⟨by decide, rfl⟩, trivial⟩)
    ⟨⟨rfl, rfl⟩, fun h => nomatch h⟩
  · intro k lookahead hk
    cases hk
  · intro k lookahead hk
    match k, hk with
    | 0, hk => cases hk
    | k + 1, hk => cases hk
  · intro j hj hj1 hh
    have hj : j < 2 := hj
    obtain rfl : j = 0 := by omega
    cases hh

/-- Run a list of events, each enabled. -/
def runEvents (d : Driver) (queueSize : ℕ) : Queue → List Event → Option Queue
  | s, [] => some s
  | s, e :: es => if Enabled d s e then runEvents d queueSize (next d queueSize s e) es else none

theorem runEvents_execution {es : List Event} {s t : Queue}
    (h : runEvents d queueSize s es = some t) : Execution (Step d queueSize) s t := by
  induction es generalizing s with
  | nil => exact Option.some.inj h ▸ .refl s
  | cons e es ih =>
    unfold runEvents at h
    split at h
    next he => exact (Execution.single ⟨he, rfl⟩).trans (ih h)
    next => cases h

/-- The gpu's queue has room for four chains of three descriptors. -/
def gpuRequest : Event :=
  .submit (.gpuRequestPoll 0x80000000 24 (some (0x80001000, 16)) 0x80002000 24 true)

/-- Four polled requests that the handler has not acknowledged yet, and a fifth with the head
of the first. -/
def staleRun : List Event :=
  [gpuRequest, .complete 0, .startPoll 0, .poll 0,
   gpuRequest, .complete 1, .startPoll 1, .poll 1, .poll 1,
   gpuRequest, .complete 2, .startPoll 2, .poll 2, .poll 2, .poll 2,
   gpuRequest, .complete 3, .startPoll 3, .poll 3, .poll 3, .poll 3, .poll 3,
   gpuRequest, .startPoll 4, .poll 4]

theorem polls_return_early :
    ¬ ∀ (d : Driver) (queueSize : ℕ) (s : Queue),
      Execution (Step d queueSize) initial s → NoEarlyReturn s := by
  intro h
  have hrun : ((runEvents .gpu 12 initial staleRun).map fun s => (s.phase 4, s.completed))
      = some (.returned, [0, 1, 2, 3]) := by decide +kernel
  obtain ⟨s, hs, he⟩ := Option.map_eq_some_iff.1 hrun
  obtain ⟨hphase, hcompleted⟩ := Prod.mk.inj he
  have := h .gpu 12 s (runEvents_execution hs) 4 hphase
  rw [hcompleted] at this
  exact absurd this (by decide)

end VirtioPolling
