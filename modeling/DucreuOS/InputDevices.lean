import DucreuOS.Library.Scan
import DucreuOS.Library.Transition
import DucreuOS.RingBuffer
import DucreuOS.VirtioPolling

/-! # Input devices

`virtio_pcie_input_driver` offers every buffer once; `input_irq_handler` pushes what the devices
have filled and offers it again. It takes the descriptors in turn instead of looking at the used
elements, and bumps the index of the driver without writing the ring. A device puts events in the
buffers at any time, also between two rounds of the handler. -/
namespace InputDevices

open Transition CircularBuffer RingBuffer
open VirtioPolling (Idx Desc VIRTQ_DESC_FLAG_WRITE)

/-- The driver gives up on a device that does not accept this size. -/
def queueSize : ℕ := 64

/-- `sizeof(input_event_t)` -/
def inputEventSize : BitVec 32 := 8

/-- `input_device_t` with its queue, and the event buffers by their physical addresses.
`outstanding` is what the device was offered and has not completed, the oldest first; `completed`
is a history of the events. -/
structure InputDevice where
  queueInterrupt : Bool
  descriptor : ℕ → Desc
  driverRing : ℕ → ℕ
  driverIdx : Idx
  deviceRing : ℕ → ℕ
  deviceIdx : Idx
  requestsIdx : Idx
  acknowledgedIdx : Idx
  buffer : BitVec 64 → InputEvent
  outstanding : List ℕ
  completed : List InputEvent

namespace InputDevice

/-- `driver->idx += 1`: the device finds one more descriptor in the driver ring. -/
def offer (q : InputDevice) : InputDevice :=
  { q with
    driverIdx := q.driverIdx + 1
    requestsIdx := q.requestsIdx + 1
    outstanding := q.outstanding ++ [q.driverRing (q.driverIdx.toNat % queueSize)] }

/-- Round `i` of the last loop of `virtio_pcie_input_driver`; `paddr i` is what `mmu_translate`
returns for the address of buffer `i`. -/
def setup (paddr : ℕ → BitVec 64) (i : ℕ) (q : InputDevice) : InputDevice :=
  offer { q with
    descriptor :=
      Function.update q.descriptor i ⟨paddr i, inputEventSize, VIRTQ_DESC_FLAG_WRITE, 0⟩
    driverRing := Function.update q.driverRing (q.driverIdx.toNat % queueSize) i }

/-- The queue as it is allocated. -/
def zeroed : InputDevice where
  queueInterrupt := false
  descriptor _ := ⟨0, 0, 0, 0⟩
  driverRing _ := 0
  driverIdx := 0
  deviceRing _ := 0
  deviceIdx := 0
  requestsIdx := 0
  acknowledgedIdx := 0
  buffer _ := .zero
  outstanding := []
  completed := []

def virtioPcieInputDriver (paddr : ℕ → BitVec 64) : InputDevice :=
  queueSize.fold (fun i _ => setup paddr i) zeroed

/-- The event in the buffer of a descriptor. -/
def event (q : InputDevice) (desc_idx : ℕ) : InputEvent :=
  q.buffer (q.descriptor desc_idx).address

/-- The device fills the buffer of a descriptor and names it in its ring. -/
def complete (q : InputDevice) (desc_idx : ℕ) (ev : InputEvent) : InputDevice :=
  { q with
    buffer := Function.update q.buffer (q.descriptor desc_idx).address ev
    deviceRing := Function.update q.deviceRing (q.deviceIdx.toNat % queueSize) desc_idx
    deviceIdx := q.deviceIdx + 1
    queueInterrupt := true
    outstanding := q.outstanding.erase desc_idx
    completed := q.completed ++ [ev] }

/-- One round of the inner loop of `input_irq_handler`. -/
def round (q : InputDevice) (rb : IeRingBuffer) : InputDevice × IeRingBuffer :=
  let desc_idx := q.acknowledgedIdx.toNat % queueSize
  (offer { q with acknowledgedIdx := q.acknowledgedIdx + 1 }, (rb.push (q.event desc_idx)).2)

/-- The inner loop, for at most `fuel` rounds. -/
def drain : ℕ → InputDevice → IeRingBuffer → Option (InputDevice × IeRingBuffer)
  | 0, _, _ => none
  | fuel + 1, q, rb =>
    if q.acknowledgedIdx ≠ q.deviceIdx then
      let (q, rb) := q.round rb
      drain fuel q rb
    else some (q, rb)

/-- Reading the interrupt status clears it. -/
def readIsr (q : InputDevice) : InputDevice := { q with queueInterrupt := false }

/-- The descriptors named by the used elements between `acknowledged_idx` and `device->idx`. -/
def named (q : InputDevice) : List ℕ :=
  window q.deviceRing queueSize (q.acknowledgedIdx.toNat % queueSize)
    (q.deviceIdx - q.acknowledgedIdx).toNat

/-- The events of these descriptors. -/
def events (q : InputDevice) : List InputEvent := q.named.map q.event

end InputDevice

/-- `input_devices` and `global_input_events_ring_buffer` -/
structure Inputs (m : ℕ) where
  device : Fin m → InputDevice
  ring : IeRingBuffer

variable {m : ℕ}

namespace Inputs

def setDevice (s : Inputs m) (i : Fin m) (q : InputDevice) : Inputs m :=
  { s with device := Function.update s.device i q }

/-- `input_irq_handler` from a device on. -/
def irqHandlerFrom : List (Fin m) → Inputs m → Option (Inputs m)
  | [], s => some s
  | i :: is, s =>
    if (s.device i).queueInterrupt then
      match (s.device i).readIsr.drain (2 ^ 16) s.ring with
      | none => none
      | some (q, rb) => irqHandlerFrom is { s.setDevice i q with ring := rb }
    else irqHandlerFrom is s

def inputIrqHandler (s : Inputs m) : Option (Inputs m) := irqHandlerFrom (List.finRange m) s

end Inputs

/-- What happens to the devices, in any order. -/
inductive Event (m : ℕ)
  /-- a device completes one of the buffers it was offered -/
  | complete (i : Fin m) (desc_idx : ℕ) (ev : InputEvent)
  /-- the handler looks at the interrupt status of a device -/
  | readIsr (i : Fin m)
  /-- the handler takes one event of a device -/
  | round (i : Fin m)

def Enabled (s : Inputs m) : Event m → Prop
  | .complete i desc_idx _ => desc_idx ∈ (s.device i).outstanding
  | .readIsr _ => True
  | .round i => (s.device i).acknowledgedIdx ≠ (s.device i).deviceIdx

instance (s : Inputs m) : (e : Event m) → Decidable (Enabled s e)
  | .complete _ _ _ => inferInstanceAs (Decidable (_ ∈ _))
  | .readIsr _ => inferInstanceAs (Decidable True)
  | .round _ => inferInstanceAs (Decidable (_ ≠ _))

def next (s : Inputs m) : Event m → Inputs m
  | .complete i desc_idx ev => s.setDevice i ((s.device i).complete desc_idx ev)
  | .readIsr i => s.setDevice i (s.device i).readIsr
  | .round i =>
    let (q, rb) := (s.device i).round s.ring
    { s.setDevice i q with ring := rb }

def Step (s : Inputs m) (e : Event m) (u : Inputs m) : Prop := Enabled s e ∧ u = next s e

def initial (paddr : Fin m → ℕ → BitVec 64) (rb : IeRingBuffer) : Inputs m :=
  ⟨fun i => .virtioPcieInputDriver (paddr i), rb⟩

/-- The device completes the buffer it was offered first. -/
def OldestFirst (s : Inputs m) : Event m → Prop
  | .complete i desc_idx _ => (s.device i).outstanding.head? = some desc_idx
  | _ => True

/-- A step of devices that complete the buffers in the order in which they are offered. -/
def OrderedStep (s : Inputs m) (e : Event m) (u : Inputs m) : Prop := Step s e u ∧ OldestFirst s e

/-! ## Descriptors in turn -/

/-- `n` descriptors in turn, from the one of position `k` of the ring on. -/
def inTurn (k n : ℕ) : List ℕ := (List.range n).map fun i => (k + i) % queueSize

section InTurn

variable {k n : ℕ}

@[simp] theorem inTurn_zero : inTurn k 0 = [] := rfl

@[simp] theorem length_inTurn : (inTurn k n).length = n := by simp [inTurn]

theorem inTurn_succ : inTurn k (n + 1) = k % queueSize :: inTurn (k + 1) n := by
  rw [inTurn, List.range_succ_eq_map, List.map_cons, List.map_map, inTurn]
  congr 1
  apply List.map_congr_left
  intro i _
  exact congrArg (· % queueSize) (by change k + (i + 1) = k + 1 + i; omega)

theorem inTurn_concat : inTurn k (n + 1) = inTurn k n ++ [(k + n) % queueSize] := by
  rw [inTurn, List.range_succ, List.map_append]
  rfl

/-- The queue size divides the range of the indexes. -/
theorem idx_mod (x : ℕ) : (BitVec.ofNat 16 x).toNat % queueSize = x % queueSize :=
  Nat.mod_mod_of_dvd x (by decide)

theorem ofNat_succ (x : ℕ) : BitVec.ofNat 16 x + 1 = BitVec.ofNat 16 (x + 1) :=
  (BitVec.ofNat_add x 1).symm

theorem idx_sub {a b : ℕ} (hle : a ≤ b) (hb : b ≤ a + queueSize) :
    (BitVec.ofNat 16 b - BitVec.ofNat 16 a).toNat = b - a := by
  unfold queueSize at hb
  rw [BitVec.toNat_sub, BitVec.toNat_ofNat, BitVec.toNat_ofNat]
  omega

end InTurn

/-! ## Devices that complete the oldest buffer first -/

/-- The device has completed `done` buffers, all of them in turn, and the handler has taken the
first `acked` of them. -/
structure InOrder (paddr : ℕ → BitVec 64) (q : InputDevice) (acked done : ℕ) : Prop where
  le : acked ≤ done
  bound : done ≤ acked + queueSize
  acknowledgedIdx : q.acknowledgedIdx = BitVec.ofNat 16 acked
  deviceIdx : q.deviceIdx = BitVec.ofNat 16 done
  driverIdx : q.driverIdx = BitVec.ofNat 16 (acked + queueSize)
  driverRing (k : ℕ) : k < queueSize → q.driverRing k = k
  address (k : ℕ) : k < queueSize → (q.descriptor k).address = paddr k
  outstanding : q.outstanding = inTurn done (acked + queueSize - done)
  deviceRing (k : ℕ) : acked ≤ k → k < done →
    q.deviceRing (k % queueSize) = k % queueSize
  completed : q.completed.length = done
  buffer (hd : Set.InjOn paddr (Set.Iio queueSize)) (k : ℕ) : acked ≤ k → k < done →
    q.completed[k]? = some (q.buffer (paddr (k % queueSize)))

namespace InOrder

variable {paddr : ℕ → BitVec 64} {q : InputDevice} {rb : IeRingBuffer} {acked done : ℕ}

theorem pending (h : InOrder paddr q acked done) : q.named = inTurn acked (done - acked) := by
  unfold InputDevice.named
  rw [h.acknowledgedIdx, h.deviceIdx, idx_sub h.le h.bound, idx_mod]
  apply List.map_congr_left
  intro i hi
  have hi := List.mem_range.1 hi
  rw [Nat.mod_add_mod]
  exact h.deviceRing (acked + i) (Nat.le_add_right _ _) (by omega)

/-- The loop of the handler goes on exactly while there are events to take. -/
theorem unequal_iff (h : InOrder paddr q acked done) :
    q.acknowledgedIdx ≠ q.deviceIdx ↔ acked < done := by
  have hsub := idx_sub h.le h.bound
  rw [h.acknowledgedIdx, h.deviceIdx]
  constructor
  · intro hne
    apply lt_of_le_of_ne h.le
    rintro rfl
    exact hne rfl
  · intro hlt he
    rw [he, BitVec.sub_self] at hsub
    change 0 = _ at hsub
    omega

theorem readIsr (h : InOrder paddr q acked done) : InOrder paddr q.readIsr acked done :=
  ⟨h.le, h.bound, h.acknowledgedIdx, h.deviceIdx, h.driverIdx, h.driverRing, h.address,
    h.outstanding, h.deviceRing, h.completed, h.buffer⟩

/-- The buffer completed next. -/
theorem head (h : InOrder paddr q acked done) {d : ℕ} (hd : q.outstanding.head? = some d) :
    done < acked + queueSize ∧ d = done % queueSize := by
  rw [h.outstanding] at hd
  cases hn : acked + queueSize - done with
  | zero =>
    rw [hn] at hd
    cases hd
  | succ n =>
    rw [hn, inTurn_succ] at hd
    exact ⟨by omega, (Option.some.inj hd).symm⟩

theorem complete (h : InOrder paddr q acked done) {d : ℕ} (hd : q.outstanding.head? = some d)
    (ev : InputEvent) : InOrder paddr (q.complete d ev) acked (done + 1) := by
  obtain ⟨hlt, rfl⟩ := h.head hd
  have hmod : done % queueSize < queueSize := Nat.mod_lt _ (by decide)
  have hne {k : ℕ} (hk : acked ≤ k) (hkd : k < done) : k % queueSize ≠ done % queueSize := by
    unfold queueSize at hlt ⊢
    omega
  have hout : q.outstanding
      = done % queueSize :: inTurn (done + 1) (acked + queueSize - (done + 1)) := by
    rw [h.outstanding, ← inTurn_succ]
    congr 1
    omega
  refine ⟨h.le.trans (Nat.le_succ done), hlt, h.acknowledgedIdx, ?_, h.driverIdx, h.driverRing,
    h.address, ?_, fun k hk hkd => ?_, ?_, fun hinj k hk hkd => ?_⟩
  · exact (congrArg (· + 1) h.deviceIdx).trans (ofNat_succ done)
  · change q.outstanding.erase _ = _
    rw [hout, List.erase_cons_head]
  · change Function.update q.deviceRing (q.deviceIdx.toNat % queueSize) _ _ = _
    rw [h.deviceIdx, idx_mod]
    by_cases hkd' : k = done
    · rw [hkd', Function.update_self]
    · have hkd : k < done := by omega
      rw [Function.update_of_ne (hne hk hkd)]
      exact h.deviceRing k hk hkd
  · change (q.completed ++ [ev]).length = _
    rw [List.length_append, h.completed]
    rfl
  · change (q.completed ++ [ev])[k]? = some (Function.update q.buffer _ ev _)
    rw [h.address _ hmod]
    by_cases hkd' : k = done
    · subst hkd'
      rw [Function.update_self, List.getElem?_append_right h.completed.le, h.completed,
        Nat.sub_self]
      rfl
    · have hkd : k < done := by omega
      have hapart : paddr (k % queueSize) ≠ paddr (done % queueSize) := fun he =>
        hne hk hkd (hinj (Nat.mod_lt _ (by decide)) hmod he)
      rw [Function.update_of_ne hapart, List.getElem?_append_left (h.completed ▸ hkd)]
      exact h.buffer hinj k hk hkd

/-- A round of the handler takes the next event and offers its descriptor again. -/
theorem round (h : InOrder paddr q acked done) (hlt : acked < done) (rb : IeRingBuffer) :
    InOrder paddr (q.round rb).1 (acked + 1) done ∧
      (q.round rb).1.outstanding = q.outstanding ++ [acked % queueSize] := by
  have hmod : acked % queueSize < queueSize := Nat.mod_lt _ (by decide)
  have hnew : (q.round rb).1.outstanding = q.outstanding ++ [acked % queueSize] := by
    change q.outstanding ++ [q.driverRing (q.driverIdx.toNat % queueSize)] = _
    rw [h.driverIdx, idx_mod, Nat.add_mod_right, h.driverRing _ hmod]
  refine ⟨⟨hlt, by have := h.bound; omega, ?_, h.deviceIdx, ?_, h.driverRing, h.address, ?_,
    fun k hk => h.deviceRing k (by omega), h.completed,
    fun hinj k hk => h.buffer hinj k (by omega)⟩, hnew⟩
  · exact (congrArg (· + 1) h.acknowledgedIdx).trans (ofNat_succ acked)
  · rw [Nat.add_right_comm]
    exact (congrArg (· + 1) h.driverIdx).trans (ofNat_succ _)
  · have hbound := h.bound
    obtain ⟨n, hn⟩ : ∃ n, acked + queueSize = done + n := ⟨acked + queueSize - done, by omega⟩
    have hlast : acked % queueSize = (done + n) % queueSize := by
      rw [← hn, Nat.add_mod_right]
    have hcount : acked + 1 + queueSize - done = n + 1 := by omega
    have hbefore : acked + queueSize - done = n := by omega
    rw [hnew, h.outstanding, hlast, hcount, hbefore, inTurn_concat]

/-- The inner loop of the handler ends. It pushes the events of the named descriptors and offers
exactly these descriptors again. -/
theorem drain (fuel : ℕ) (h : InOrder paddr q acked done) (hf : done - acked < fuel) :
    ∃ q' rb', q.drain fuel rb = some (q', rb') ∧ InOrder paddr q' done done ∧
      rb' = q.events.foldl (fun rb ev => (rb.push ev).2) rb ∧
      q'.outstanding = q.outstanding ++ q.named ∧ q'.queueInterrupt = q.queueInterrupt := by
  induction fuel generalizing q rb acked with
  | zero => omega
  | succ fuel ih =>
    by_cases hlt : acked < done
    · obtain ⟨h', hout⟩ := h.round hlt rb
      obtain ⟨q', rb', heq, hq', hrb, hoff, hflag⟩ :=
        @ih (q.round rb).1 (q.round rb).2 (acked + 1) h' (by omega)
      have hsplit : q.named = acked % queueSize :: (q.round rb).1.named := by
        rw [h.pending, h'.pending, ← inTurn_succ]
        congr 1
        omega
      refine ⟨q', rb', ?_, hq', ?_, ?_, hflag⟩
      · rw [InputDevice.drain, if_pos (h.unequal_iff.2 hlt)]
        exact heq
      · have hfirst : (q.round rb).2 = (rb.push (q.event (acked % queueSize))).2 := by
          change (rb.push (q.event (q.acknowledgedIdx.toNat % queueSize))).2 = _
          rw [h.acknowledgedIdx, idx_mod]
        rw [hrb, InputDevice.events, InputDevice.events, hsplit, List.map_cons, List.foldl_cons,
          hfirst]
        rfl
      · rw [hoff, hout, hsplit, List.append_assoc]
        rfl
    · obtain rfl : acked = done := le_antisymm h.le (not_lt.1 hlt)
      have hnone : q.named = [] := by
        rw [h.pending, Nat.sub_self]
        rfl
      refine ⟨q, rb, ?_, h, ?_, ?_, rfl⟩
      · rw [InputDevice.drain, if_neg (mt h.unequal_iff.1 hlt)]
      · rw [InputDevice.events, hnone]
        rfl
      · rw [hnone, List.append_nil]

/-- The events of the named descriptors are those completed last. -/
theorem events_eq (h : InOrder paddr q acked done) (hd : Set.InjOn paddr (Set.Iio queueSize)) :
    q.events = q.completed.drop acked := by
  apply List.ext_getElem?
  intro i
  rw [InputDevice.events, h.pending, List.getElem?_map, List.getElem?_drop]
  by_cases hi : i < done - acked
  · have hmod : (acked + i) % queueSize < queueSize := Nat.mod_lt _ (by decide)
    rw [h.buffer hd (acked + i) (Nat.le_add_right _ _) (by omega), inTurn, List.getElem?_map,
      List.getElem?_range hi]
    exact congrArg (fun a => some (q.buffer a)) (h.address _ hmod)
  · rw [List.getElem?_eq_none (by rw [length_inTurn]; omega),
      List.getElem?_eq_none (by rw [h.completed]; omega)]
    rfl

end InOrder

/-- The driver after `i` rounds of its last loop. -/
structure Offered (paddr : ℕ → BitVec 64) (i : ℕ) (q : InputDevice) : Prop where
  driverIdx : q.driverIdx = BitVec.ofNat 16 i
  driverRing (k : ℕ) : k < i → q.driverRing k = k
  address (k : ℕ) : k < i → (q.descriptor k).address = paddr k
  outstanding : q.outstanding = inTurn 0 i
  idle : q.acknowledgedIdx = 0 ∧ q.deviceIdx = 0 ∧ q.completed = []

theorem Offered.setup {paddr : ℕ → BitVec 64} {i : ℕ} {q : InputDevice} (hi : i < queueSize)
    (h : Offered paddr i q) : Offered paddr (i + 1) (q.setup paddr i) := by
  have hplace : q.driverIdx.toNat % queueSize = i := by
    rw [h.driverIdx, idx_mod, Nat.mod_eq_of_lt hi]
  refine ⟨?_, fun k hk => ?_, fun k hk => ?_, ?_, h.idle⟩
  · exact (congrArg (· + 1) h.driverIdx).trans (ofNat_succ i)
  · change Function.update q.driverRing (q.driverIdx.toNat % queueSize) i k = k
    rw [hplace]
    by_cases hki : k = i
    · rw [hki, Function.update_self]
    · rw [Function.update_of_ne hki]
      exact h.driverRing k (by omega)
  · change (Function.update q.descriptor i _ k).address = paddr k
    by_cases hki : k = i
    · rw [hki, Function.update_self]
    · rw [Function.update_of_ne hki]
      exact h.address k (by omega)
  · change q.outstanding ++ [Function.update q.driverRing (q.driverIdx.toNat % queueSize) i
      (q.driverIdx.toNat % queueSize)] = _
    rw [Function.update_self, h.outstanding, inTurn_concat, Nat.zero_add, Nat.mod_eq_of_lt hi]

theorem virtioPcieInputDriver_inOrder (paddr : ℕ → BitVec 64) :
    InOrder paddr (.virtioPcieInputDriver paddr) 0 0 := by
  have h : Offered paddr queueSize (.virtioPcieInputDriver paddr) := by
    apply Scan.fold_invariant queueSize
    · exact ⟨rfl, by simp, by simp, rfl, rfl, rfl, rfl⟩
    · exact fun i hi q hq => hq.setup hi
  obtain ⟨hack, hdev, hcomp⟩ := h.idle
  exact ⟨le_rfl, Nat.zero_le _, hack, hdev, h.driverIdx, h.driverRing, h.address, h.outstanding,
    fun k _ hk => absurd hk (Nat.not_lt_zero k), hcomp ▸ rfl,
    fun _ k _ hk => absurd hk (Nat.not_lt_zero k)⟩

/-! ## Runs -/

def Invariant (paddr : Fin m → ℕ → BitVec 64) (s : Inputs m) : Prop :=
  ∀ i, ∃ acked done, InOrder (paddr i) (s.device i) acked done

section Runs

variable {paddr : Fin m → ℕ → BitVec 64} {s u : Inputs m} {e : Event m} {rb : IeRingBuffer}

theorem Invariant.setDevice {q : InputDevice} {i : Fin m} {acked done : ℕ}
    (hs : Invariant paddr s) (hq : InOrder (paddr i) q acked done) (rb : IeRingBuffer) :
    Invariant paddr { s.setDevice i q with ring := rb } := by
  intro j
  change ∃ acked done, InOrder (paddr j) (Function.update s.device i q j) acked done
  by_cases hj : j = i
  · subst hj
    rw [Function.update_self]
    exact ⟨acked, done, hq⟩
  · rw [Function.update_of_ne hj]
    exact hs j

theorem step_invariant (hs : Invariant paddr s) (h : OrderedStep s e u) : Invariant paddr u := by
  obtain ⟨⟨he, rfl⟩, ho⟩ := h
  cases e with
  | complete i d ev =>
    obtain ⟨acked, done, hq⟩ := hs i
    exact hs.setDevice (hq.complete ho ev) s.ring
  | readIsr i =>
    obtain ⟨acked, done, hq⟩ := hs i
    exact hs.setDevice hq.readIsr s.ring
  | round i =>
    obtain ⟨acked, done, hq⟩ := hs i
    exact hs.setDevice (hq.round (hq.unequal_iff.1 he) s.ring).1 _

theorem reachable_invariant (hrun : Execution OrderedStep (initial paddr rb) s) :
    Invariant paddr s :=
  hrun.invariant (fun _ _ _ hs h => step_invariant hs h) fun i =>
    ⟨0, 0, virtioPcieInputDriver_inOrder (paddr i)⟩

/-- A device the handler has served: all used elements are taken, and exactly the descriptors they
name are offered again. -/
structure Served (q q' : InputDevice) : Prop where
  acknowledged : q'.acknowledgedIdx = q.deviceIdx
  offered : q'.outstanding = q.outstanding ++ q.named
  interrupt : q'.queueInterrupt = false

/-- The events of the devices that have raised their interrupt. -/
def raised (s : Inputs m) (is : List (Fin m)) : List InputEvent :=
  is.flatMap fun i => if (s.device i).queueInterrupt then (s.device i).events else []

theorem raised_congr {is : List (Fin m)} (h : ∀ i ∈ is, u.device i = s.device i) :
    raised u is = raised s is :=
  List.flatMap_congr fun i hi => by rw [h i hi]

theorem irqHandlerFrom_spec (is : List (Fin m)) (hnd : is.Nodup) (hs : Invariant paddr s) :
    ∃ s', Inputs.irqHandlerFrom is s = some s' ∧
      s'.ring = (raised s is).foldl (fun rb ev => (rb.push ev).2) s.ring ∧
      ∀ i, (i ∈ is → (s.device i).queueInterrupt = true → Served (s.device i) (s'.device i)) ∧
        (i ∉ is ∨ (s.device i).queueInterrupt = false → s'.device i = s.device i) := by
  induction is generalizing s with
  | nil => exact ⟨s, rfl, rfl, fun i => ⟨fun hi => absurd hi List.not_mem_nil, fun _ => rfl⟩⟩
  | cons i is ih =>
    obtain ⟨hi, hnd⟩ := List.nodup_cons.1 hnd
    by_cases hflag : (s.device i).queueInterrupt = true
    · obtain ⟨acked, done, hq⟩ := hs i
      have hbound := hq.bound
      obtain ⟨q, rb, heq, hq', hrb, hoff, hclear⟩ :=
        @InOrder.drain _ _ s.ring _ _ (2 ^ 16) hq.readIsr (by unfold queueSize at hbound; omega)
      have hother {j : Fin m} (hj : j ≠ i) :
          ({ s.setDevice i q with ring := rb } : Inputs m).device j = s.device j :=
        Function.update_of_ne hj _ _
      have hself : ({ s.setDevice i q with ring := rb } : Inputs m).device i = q :=
        Function.update_self ..
      obtain ⟨s', hrest, hring, hdev⟩ := ih hnd (hs.setDevice hq' rb)
      refine ⟨s', ?_, ?_, fun j => ?_⟩
      · simp only [Inputs.irqHandlerFrom, hflag, if_true, heq]
        exact hrest
      · rw [hring, raised_congr fun j hj => hother fun h => hi (h ▸ hj), raised, raised,
          List.flatMap_cons, if_pos hflag, List.foldl_append]
        change List.foldl _ rb _ = _
        rw [hrb]
        rfl
      · by_cases hj : j = i
        · subst hj
          have hkeep := (hdev j).2 (Or.inl hi)
          rw [hself] at hkeep
          refine ⟨fun _ _ => ?_, fun h => ?_⟩
          · rw [hkeep]
            exact ⟨hq'.acknowledgedIdx.trans hq.deviceIdx.symm, hoff, hclear⟩
          · rcases h with h | h
            · exact absurd List.mem_cons_self h
            · rw [hflag] at h
              cases h
        · have hjd := hdev j
          rw [hother hj] at hjd
          simpa only [List.mem_cons, hj, false_or] using hjd
    · obtain ⟨s', hrest, hring, hdev⟩ := ih hnd hs
      refine ⟨s', ?_, ?_, fun j => ?_⟩
      · rw [Inputs.irqHandlerFrom, if_neg hflag]
        exact hrest
      · rw [hring, raised, raised, List.flatMap_cons, if_neg hflag, List.nil_append]
      · by_cases hj : j = i
        · subst hj
          exact ⟨fun _ h => absurd h hflag, fun _ => (hdev j).2 (Or.inl hi)⟩
        · simpa only [List.mem_cons, hj, false_or] using hdev j

/-- The rounds of the inner loop are steps. -/
theorem drain_execution (fuel : ℕ) (i : Fin m) {q' : InputDevice} {rb' : IeRingBuffer}
    (h : (s.device i).drain fuel s.ring = some (q', rb')) :
    Execution OrderedStep s { s.setDevice i q' with ring := rb' } := by
  induction fuel generalizing s with
  | zero => cases h
  | succ fuel ih =>
    rw [InputDevice.drain] at h
    split_ifs at h with hne
    · have hself : (next s (.round i)).device i = ((s.device i).round s.ring).1 :=
        Function.update_self ..
      have hrest := ih (s := next s (.round i)) (by rw [hself]; exact h)
      have hagain : (next s (.round i)).setDevice i q' = { s.setDevice i q' with
          ring := ((s.device i).round s.ring).2 } := by
        simp only [next, Inputs.setDevice, Function.update_idem]
      rw [hagain] at hrest
      exact (Execution.single (e := .round i) ⟨⟨hne, rfl⟩, trivial⟩).trans hrest
    · have he := Option.some.inj h
      have hq : q' = s.device i := (congrArg Prod.fst he).symm
      have hrb : rb' = s.ring := (congrArg Prod.snd he).symm
      have hsame : s.setDevice i (s.device i) = s := by
        simp only [Inputs.setDevice, Function.update_eq_self]
      rw [hq, hrb, hsame]
      exact .refl s

/-- A call of the handler is a run of it. -/
theorem irqHandlerFrom_execution (is : List (Fin m)) (h : Inputs.irqHandlerFrom is s = some u) :
    Execution OrderedStep s u := by
  induction is generalizing s with
  | nil =>
    cases h
    exact .refl _
  | cons i is ih =>
    rw [Inputs.irqHandlerFrom] at h
    split_ifs at h
    · have hself : (next s (.readIsr i)).device i = (s.device i).readIsr :=
        Function.update_self ..
      cases hd : (s.device i).readIsr.drain (2 ^ 16) s.ring with
      | none =>
        rw [hd] at h
        cases h
      | some out =>
        obtain ⟨q, rb⟩ := out
        rw [hd] at h
        have hdrain :=
          drain_execution (s := next s (.readIsr i)) (2 ^ 16) i (by rw [hself]; exact hd)
        have hagain : (next s (.readIsr i)).setDevice i q = s.setDevice i q := by
          simp only [next, Inputs.setDevice, Function.update_idem]
        rw [hagain] at hdrain
        exact ((Execution.single (e := .readIsr i) ⟨⟨trivial, rfl⟩, trivial⟩).trans hdrain).trans
          (ih h)
    · exact ih h

/-- In every run of devices that complete the buffers in the order in which they are offered, each
call of the handler returns. It pushes exactly the events of the descriptors named by the used
elements, device by device and in their order, and offers exactly these descriptors again; they
are the events completed last. -/
theorem inputIrqHandler_run (hrun : Execution OrderedStep (initial paddr rb) s) :
    (∃ s', s.inputIrqHandler = some s' ∧ Execution OrderedStep s s' ∧
      s'.ring = (raised s (List.finRange m)).foldl (fun rb ev => (rb.push ev).2) s.ring ∧
      ∀ i, ((s.device i).queueInterrupt = true → Served (s.device i) (s'.device i)) ∧
        ((s.device i).queueInterrupt = false → s'.device i = s.device i)) ∧
    ∀ i, (s.device i).named.length ≤ queueSize ∧
      (Set.InjOn (paddr i) (Set.Iio queueSize) →
        (s.device i).events <:+ (s.device i).completed) := by
  have hs := reachable_invariant hrun
  obtain ⟨s', hcall, hring, hdev⟩ :=
    irqHandlerFrom_spec (List.finRange m) (List.nodup_finRange m) hs
  refine ⟨⟨s', hcall, irqHandlerFrom_execution _ hcall, hring, fun i => ?_⟩, fun i => ?_⟩
  · exact ⟨(hdev i).1 (List.mem_finRange i), fun h => (hdev i).2 (Or.inr h)⟩
  · obtain ⟨acked, done, hq⟩ := hs i
    have hbound := hq.bound
    refine ⟨?_, fun hd => ?_⟩
    · rw [hq.pending, length_inTurn]
      omega
    · rw [hq.events_eq hd]
      exact List.drop_suffix acked _

end Runs

/-- A ring of four events and one device with its buffers at 0, 8, 16 and so on. -/
def oneDevice : Inputs 1 :=
  initial (fun _ k => BitVec.ofNat 64 (8 * k))
    (ieRingBufferInit (fun _ => .zero) 4 RB_ASK_FOR_MANAGER)

def keyDown : InputEvent := ⟨1, 0x1e, 1⟩

/-- The device completes the first two buffers. -/
theorem inputIrqHandler_run_two : ∃ s : Inputs 1, Execution OrderedStep oneDevice s ∧
    (s.device 0).events = [keyDown, .zero] ∧
    ∃ s', s.inputIrqHandler = some s' ∧ Served (s.device 0) (s'.device 0) := by
  have hfirst : Execution OrderedStep oneDevice (next oneDevice (.complete 0 0 keyDown)) :=
    .single ⟨⟨by decide +kernel, rfl⟩, by change _ = _; decide +kernel⟩
  have hrun : Execution OrderedStep oneDevice
      (next (next oneDevice (.complete 0 0 keyDown)) (.complete 0 1 .zero)) :=
    .tail hfirst ⟨⟨by decide +kernel, rfl⟩, by change _ = _; decide +kernel⟩
  obtain ⟨⟨s', hcall, -, -, hserved⟩, -⟩ := inputIrqHandler_run hrun
  exact ⟨_, hrun, by decide +kernel, s', hcall, (hserved 0).1 (by decide +kernel)⟩

/-- The device completes buffer 1 first. The handler pushes the event of buffer 0, which is none,
and offers descriptor 0 again instead of 1. -/
theorem inputIrqHandler_out_of_order : ∃ s s' : Inputs 1, Execution Step oneDevice s ∧
    (s.device 0).queueInterrupt = true ∧ (s.device 0).named = [1] ∧
    (s.device 0).events = [keyDown] ∧ s.inputIrqHandler = some s' ∧
    s'.ring.occupied = 1 ∧ s'.ring.elements 0 = .zero ∧
    (s'.device 0).outstanding = (s.device 0).outstanding ++ [0] := by
  let s := next oneDevice (.complete 0 1 keyDown)
  have hcall : s.inputIrqHandler.map
      (fun s' => (s'.ring.occupied, s'.ring.elements 0, (s'.device 0).outstanding))
      = some (1, .zero, (s.device 0).outstanding ++ [0]) := by decide +kernel
  obtain ⟨s', hs', hout⟩ := Option.map_eq_some_iff.1 hcall
  have hrun : Execution Step oneDevice s := .single ⟨by decide +kernel, rfl⟩
  refine ⟨s, s', hrun, rfl, by decide +kernel, by decide +kernel, hs', ?_⟩
  exact ⟨congrArg Prod.fst hout, congrArg (·.2.1) hout, congrArg (·.2.2) hout⟩

end InputDevices
