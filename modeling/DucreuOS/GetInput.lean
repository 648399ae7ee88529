import DucreuOS.HeapRequests
import DucreuOS.RingBuffer
import DucreuOS.UserCopies

/-! # The system call for input events

`SYSCALL_GET_INPUT` takes its number of events from the process. It computes the bytes of the buffer
in 32 bits, stores as many events as were asked for, and looks neither at what `kmalloc` nor at what
`copy_to_user` returns. The ring's mutex serialises the pops. -/
namespace GetInput

open ByteMemory HeapRequests KernelHeap PageTable UserAccess
open RingBuffer (InputEvent IeRingBuffer Queue)

/-- The word of an `input_event_t`: type, code and value, from the lowest byte on. -/
def eventWord (ev : InputEvent) : BitVec 64 := ev.value ++ ev.code ++ ev.type

structure Filled where
  /-- the addresses that events are stored at, in order -/
  stores : List (ℕ × InputEvent)
  mem : Words
  ring : IeRingBuffer

/-- `n` rounds of the loop, from index `i` on. An event is a word of the memory. -/
def fillBuffer (os_buffer : ℕ) : (n i : ℕ) → Words → IeRingBuffer → Filled
  | 0, _, m, rb => ⟨[], m, rb⟩
  | n + 1, i, m, rb =>
    let addr := add64 os_buffer (8 * i)
    let r := fillBuffer os_buffer n (i + 1)
      (Function.update m addr (eventWord rb.pop.1).toNat) rb.pop.2
    { r with stores := (addr, rb.pop.1) :: r.stores }

/-- The memory as the kernel has it mapped: the heap's words at the heap's addresses. -/
def kernelBytes (heap : Heap) (mem : Mem) : Mem := fun x =>
  if KERNEL_HEAP_START_VADDR ≤ x ∧ x < heap.kernelHeapVaddr then
    leByte (BitVec.ofNat 64 (heap.mem (x / 8 * 8))) (x % 8)
  else mem x

structure System where
  heap : Heap
  ring : IeRingBuffer
  mem : Mem

structure Outcome where
  os_buffer : ℕ
  /-- the heap when the buffer has been allocated -/
  allocated : Heap
  stores : List (ℕ × InputEvent)
  ring : IeRingBuffer
  copied : Copied
  /-- the heap when the buffer has been freed, if `kfree` ends -/
  freed : Option Heap

/-- `len`, from register A1. -/
def len (a1 : Word) : BitVec 32 := a1.setWidth 32

/-- `len*sizeof(input_event_t)`, as an `uint32_t`. -/
def size (a1 : Word) : BitVec 32 := BitVec.setWidth 32 ((len a1).setWidth 64 * 8)

/-- The handler behind `kmalloc`, with the register A0. -/
def handOver (tables : ℕ → Word) (ptable : Word) (s : System) (a0 a1 : Word) (heap : Heap)
    (os_buffer : ℕ) : Outcome :=
  let r := fillBuffer os_buffer (len a1).toNat 0 heap.mem s.ring
  let filled : Heap := { heap with mem := r.mem }
  { os_buffer := os_buffer
    allocated := heap
    stores := r.stores
    ring := r.ring
    copied := copyToUser tables ptable (kernelBytes filled s.mem) (BitVec.ofNat 64 os_buffer) a0
      (size a1)
    freed := kfree filled os_buffer }

/-- There is no result where `kmalloc` has none. -/
def getInput (tables : ℕ → Word) (ptable : Word) (s : System) (a0 a1 : Word) (a : Answer) :
    Option Outcome :=
  (Entry.kmalloc.call s.heap ((size a1).setWidth 64) a).map fun r =>
    handOver tables ptable s a0 a1 r.1 r.2

/-! ## What the handler should do -/

/-- The results of `n` calls of `ie_ring_buffer_pop`. -/
def popped : ℕ → IeRingBuffer → List InputEvent
  | 0, _ => []
  | n + 1, rb => rb.pop.1 :: popped n rb.pop.2

/-- Events are stored only in a block with room for all of them, which overlaps neither the list
head nor a free node nor another block. -/
def Contained (live : ℕ → Option ℕ) (r : Outcome) : Prop :=
  r.stores ≠ [] → r.os_buffer ≠ 0 ∧
    GoodBlock live r.allocated.mem (8 * r.stores.length) r.os_buffer ∧
    ∀ w ∈ r.stores, r.os_buffer ≤ w.1 ∧
      w.1 + 8 ≤ r.os_buffer + KernelHeap.size r.allocated.mem (r.os_buffer - headerSize)

/-- If the copy succeeds the process has the events in its range, the last byte that lies at a
place, and nothing else of its memory is changed. -/
def Delivered (tables : ℕ → Word) (ptable : Word) (mem : Mem) (a0 : Word) (events : List InputEvent)
    (r : Outcome) : Prop :=
  r.stores.map Prod.snd = events ∧ (r.copied.ret = 0 →
    (∀ i ev, events[i / 8]? = some ev →
      (∀ j, i < j → j < 8 * events.length →
        userByte tables ptable a0 j ≠ userByte tables ptable a0 i) →
      r.copied.mem (userByte tables ptable a0 i) = leByte (eventWord ev) (i % 8)) ∧
    ∀ x < KERNEL_HEAP_START_VADDR,
      (∀ i < 8 * events.length, x ≠ userByte tables ptable a0 i) → r.copied.mem x = mem x)

/-- There is nothing to store, or the bytes fit 32 bits and there is a block for them. Without a
page for its tables `kmalloc` does not return at all. -/
def Sufficient (heap : Heap) (a1 : Word) (a : Answer) : Prop :=
  let served := Served heap (size a1).toNat false
  len a1 = 0 ∨ (len a1).toNat < 2 ^ 29 ∧ (served ∨ a.granted = true) ∨
    ¬ served ∧ a.granted = true ∧ a.tables = false

/-! ## The loop -/

variable {heapPages p n : ℕ} {live : ℕ → Option ℕ} {heap t : Heap} {m : Words} {rb : IeRingBuffer}
  {cells : List ℕ} {tables : ℕ → Word} {ptable a0 a1 : Word} {a : Answer} {s : System}

theorem length_popped (n : ℕ) (rb : IeRingBuffer) : (popped n rb).length = n := by
  induction n generalizing rb with
  | zero => rfl
  | succ n ih => exact congrArg (· + 1) (ih rb.pop.2)

/-- A ring that holds a queue gives its oldest events, and behind them events of zeros. -/
theorem popped_queue {q : Queue} (h : RingBuffer.Represents rb q) (n : ℕ) :
    popped n rb = (q.events ++ List.replicate n InputEvent.zero).take n := by
  induction n generalizing rb q with
  | zero => rfl
  | succ n ih =>
    obtain ⟨hev, hrest⟩ := h.pop
    rw [popped, ih hrest, hev]
    obtain ⟨c, behavior, events, hb⟩ := q
    cases events with
    | nil => simp [Queue.pop, List.replicate_succ]
    | cons ev events => simp [Queue.pop, List.replicate_succ', ← List.append_assoc, List.take_append]

/-- A store stays where later stores do not come. -/
theorem fillBuffer_mem (n i : ℕ) (m : Words) (rb : IeRingBuffer) (hfit : p + 8 * (i + n) < 2 ^ 64)
    {w : ℕ} (hw : w < p + 8 * i ∨ p + 8 * (i + n) ≤ w) :
    (fillBuffer p n i m rb).mem w = m w := by
  induction n generalizing i m rb with
  | zero => rfl
  | succ n ih =>
    simp only [fillBuffer]
    rw [ih (i + 1) _ _ (by omega) (by omega), add64_eq (by omega)]
    exact Function.update_of_ne (by omega) _ _

theorem fillBuffer_events (n i : ℕ) (m : Words) (rb : IeRingBuffer) :
    (fillBuffer p n i m rb).stores.map Prod.snd = popped n rb := by
  induction n generalizing i m rb with
  | zero => rfl
  | succ n ih => exact congrArg (rb.pop.1 :: ·) (ih (i + 1) _ _)

theorem fillBuffer_length (n i : ℕ) (m : Words) (rb : IeRingBuffer) :
    (fillBuffer p n i m rb).stores.length = n := by
  rw [← List.length_map Prod.snd, fillBuffer_events, length_popped]

theorem fillBuffer_stores (n i : ℕ) (m : Words) (rb : IeRingBuffer)
    (hfit : p + 8 * (i + n) < 2 ^ 64) :
    ∀ w ∈ (fillBuffer p n i m rb).stores, p ≤ w.1 ∧ w.1 + 8 ≤ p + 8 * (i + n) := by
  induction n generalizing i m rb with
  | zero => exact fun w hw => absurd hw List.not_mem_nil
  | succ n ih =>
    intro w hw
    rcases List.mem_cons.1 hw with rfl | hw
    · rw [add64_eq (by omega)]
      omega
    · have := ih (i + 1) _ _ (by omega) w hw
      omega

/-- The buffer holds the events in order. -/
theorem fillBuffer_word (n i : ℕ) (m : Words) (rb : IeRingBuffer)
    (hfit : p + 8 * (i + n) < 2 ^ 64) {k : ℕ} {ev : InputEvent} (hk : (popped n rb)[k]? = some ev) :
    (fillBuffer p n i m rb).mem (p + 8 * (i + k)) = (eventWord ev).toNat := by
  induction n generalizing i m rb k with
  | zero => cases hk
  | succ n ih =>
    simp only [fillBuffer]
    cases k with
    | zero =>
      obtain rfl := Option.some.inj hk
      rw [fillBuffer_mem n (i + 1) _ _ (by omega) (by omega), add64_eq (by omega)]
      exact Function.update_self _ _ _
    | succ k =>
      rw [← ih (i + 1) _ _ (by omega) hk, Nat.add_assoc, Nat.add_comm 1]

/-! ## Sizes -/

theorem size_toNat (a1 : Word) : (size a1).toNat = 8 * (len a1).toNat % 2 ^ 32 := by
  have := (len a1).isLt
  rw [size, BitVec.toNat_setWidth, BitVec.toNat_mul, BitVec.toNat_setWidth]
  change _ * 8 % 2 ^ 64 % 2 ^ 32 = _
  omega

theorem size_small (h : (len a1).toNat < 2 ^ 29) : (size a1).toNat = 8 * (len a1).toNat := by
  rw [size_toNat, Nat.mod_eq_of_lt (by omega)]

theorem request_toNat (a1 : Word) : ((size a1).setWidth 64 : BitVec 64).toNat = (size a1).toNat := by
  have := (size a1).isLt
  rw [BitVec.toNat_setWidth]
  omega

/-! ## The allocation -/

section Allocation

variable (h : KernelHeap.Represents heapPages live heap cells)
  (hpages : heapPages < 2 ^ 19)
  (ha : Admissible heapPages heap (size a1).toNat a)
include h

/-- `kmalloc` returns NULL exactly if there is neither a node nor pages for the request. -/
theorem kmalloc_null {bytes : BitVec 64} (hcall : Entry.kmalloc.call heap bytes a = some (t, p)) :
    p = 0 ↔ ¬ Served heap bytes.toNat false ∧ a.granted = false := by
  have hcall : HeapRequests.commonAlloc heap bytes.toNat false false a = some (t, p) := hcall
  by_cases hserved : Served heap bytes.toNat false
  · obtain ⟨q, -, -, hq⟩ := served_call false a h hserved
    obtain ⟨-, rfl⟩ := Prod.mk.inj (Option.some.inj (hq.symm.trans hcall))
    exact ⟨fun h0 => absurd h0 (Nat.succ_ne_zero _), fun hno => absurd hserved hno.1⟩
  · rw [not_served_call h hserved] at hcall
    cases hg : a.granted with
    | false =>
      rw [hg] at hcall
      obtain ⟨-, rfl⟩ := Prod.mk.inj (Option.some.inj hcall)
      exact ⟨fun _ => ⟨hserved, rfl⟩, fun _ => rfl⟩
    | true =>
      rw [hg, if_pos rfl] at hcall
      split at hcall
      · obtain ⟨-, rfl⟩ := Prod.mk.inj (Option.some.inj hcall)
        exact ⟨fun h0 => absurd h0 (Nat.succ_ne_zero _), fun hno => absurd hno.2 (by decide)⟩
      · cases hcall

/-- For want of a page for a table it has no result. -/
theorem kmalloc_stops (hserved : ¬ Served heap (size a1).toNat false) (hg : a.granted = true)
    (htables : a.tables = false) : Entry.kmalloc.call heap ((size a1).setWidth 64) a = none := by
  have hmapped : ¬ Mapped (roundUp (size a1).toNat) a := by
    intro hm
    rw [hm.1] at htables
    cases htables
  change HeapRequests.commonAlloc _ _ false false _ = _
  rw [request_toNat, not_served_call h hserved, hg, if_pos rfl, if_neg hmapped]

include hpages ha

/-- Unless it stops for want of a table, `kmalloc` returns NULL or a block. -/
theorem kmalloc_allocates (htables : ¬ (¬ Served heap (size a1).toNat false ∧ a.granted = true ∧
      a.tables = false)) :
    Allocates heapPages live heap (size a1).toNat false a.granted
      (Entry.kmalloc.call heap ((size a1).setWidth 64) a) := by
  have hlt := (size a1).isLt
  have hm : Meets heap (size a1).toNat false a := by
    by_cases hserved : Served heap (size a1).toNat false
    · exact Or.inl ⟨hserved, by omega⟩
    · refine Or.inr ⟨hserved, ?_⟩
      cases hg : a.granted with
      | false => exact Or.inl rfl
      | true =>
        refine Or.inr ⟨?_, by omega⟩
        by_contra hno
        exact htables ⟨hserved, hg, Bool.eq_false_of_not_eq_true hno⟩
  have hspec := commonAlloc_allocates false h hpages ha hm
  rw [Entry.call, request_toNat]
  exact hspec

end Allocation

/-- A block of the heap lies below the end of the largest heap. -/
theorem block_lt {bytes : ℕ} (hpages : heapPages < 2 ^ 19)
    (h : KernelHeap.Represents heapPages (Function.update live p (some bytes)) t cells) :
    KERNEL_HEAP_START_VADDR < p ∧ 8 ∣ p ∧
      p + KernelHeap.size t.mem (p - headerSize) ≤ t.kernelHeapVaddr ∧
      t.kernelHeapVaddr < KERNEL_HEAP_START_VADDR + 2 ^ 31 := by
  obtain ⟨c, hc, rfl⟩ := h.live_cell p (by simp)
  have hblock := KernelHeap.Represents.wellFormed
    (s := ⟨t, Function.update live (c + headerSize) (some bytes)⟩) h
  have halign := (hblock.block (c + headerSize) bytes (Function.update_self _ _ _)).2
  obtain ⟨hlo, hhi⟩ := h.tiled.bounds hc
  rw [Nat.add_sub_cancel]
  refine ⟨?_, halign, ?_, h.top_lt hpages⟩
  · unfold kmallocHead headerSize at *
    omega
  · unfold cell at hhi
    omega

/-! ## The copy -/

/-- The bytes of the buffer are the bytes of the events. -/
theorem kernelBytes_event {filled : Heap} {mem : Mem} {i : ℕ} {w : BitVec 64}
    (hp : KERNEL_HEAP_START_VADDR ≤ p) (h8 : 8 ∣ p) (hi : p + i < filled.kernelHeapVaddr)
    (hw : filled.mem (p + 8 * (i / 8)) = w.toNat) :
    kernelBytes filled mem (p + i) = leByte w (i % 8) := by
  have hword : (p + i) / 8 * 8 = p + 8 * (i / 8) := by omega
  have hbyte : (p + i) % 8 = i % 8 := by omega
  simp only [kernelBytes]
  rw [if_pos ⟨by omega, hi⟩, hword, hw, hbyte, BitVec.ofNat_toNat, BitVec.setWidth_eq]

/-- The buffer is in the heap and has room for the events. -/
def InHeap (heap : Heap) (p n : ℕ) : Prop :=
  KERNEL_HEAP_START_VADDR ≤ p ∧ 8 ∣ p ∧ p + 8 * n ≤ heap.kernelHeapVaddr ∧
    heap.kernelHeapVaddr < KERNEL_HEAP_START_VADDR + 2 ^ 31

theorem delivered (hsize : (size a1).toNat = 8 * (len a1).toNat)
    (hroom : (len a1).toNat ≠ 0 → InHeap t p (len a1).toNat)
    (hram : ∀ i < 8 * (len a1).toNat, Translates tables ptable a0 i →
      userByte tables ptable a0 i < KERNEL_HEAP_START_VADDR) :
    Delivered tables ptable s.mem a0 (popped (len a1).toNat s.ring)
      (handOver tables ptable s a0 a1 t p) := by
  refine ⟨fillBuffer_events _ _ _ _, fun hret => ?_⟩
  rw [length_popped]
  have hptr (h0 : (len a1).toNat ≠ 0) : (BitVec.ofNat 64 p).toNat = p := by
    obtain ⟨-, -, hend, htop⟩ := hroom h0
    rw [BitVec.toNat_ofNat, Nat.mod_eq_of_lt]
    unfold KERNEL_HEAP_START_VADDR at htop
    omega
  have hall : ∀ i < (size a1).toNat, Translates tables ptable a0 i := by
    intro i hi
    by_contra hno
    have hone : (handOver tables ptable s a0 a1 t p).copied.ret = 1 :=
      (copyLoop_ret (le_refl _)).2 ⟨i, hi, hno⟩
    rw [hone] at hret
    cases hret
  have hos : (BitVec.ofNat 64 p).toNat + (size a1).toNat ≤ 2 ^ 64 := by
    by_cases h0 : (len a1).toNat = 0
    · have := (BitVec.ofNat 64 p).isLt
      omega
    · obtain ⟨-, -, hend, htop⟩ := hroom h0
      unfold KERNEL_HEAP_START_VADDR at htop
      rw [hptr h0]
      omega
  have hbuffer : ∀ i < (size a1).toNat, ∀ j < (size a1).toNat,
      userByte tables ptable a0 i ≠ (BitVec.ofNat 64 p).toNat + j := by
    intro i hi j hj
    have h0 : (len a1).toNat ≠ 0 := by omega
    have hlow := hram i (by omega) (hall i hi)
    have hhigh := (hroom h0).1
    rw [hptr h0]
    omega
  obtain ⟨hbytes, hothers⟩ := copyLoop_last
    (m := kernelBytes { t with mem := (fillBuffer p (len a1).toNat 0 t.mem s.ring).mem } s.mem)
    (le_refl _) hos hbuffer hall
  constructor
  · intro i ev hev hlast
    have hi : i / 8 < (len a1).toNat := by
      have := (List.getElem?_eq_some_iff.1 hev).1
      rwa [length_popped] at this
    have h0 : (len a1).toNat ≠ 0 := by omega
    obtain ⟨hlo, h8, hend, htop⟩ := hroom h0
    unfold KERNEL_HEAP_START_VADDR at htop
    have hword := fillBuffer_word (p := p) (len a1).toNat 0 t.mem s.ring (by omega) hev
    rw [Nat.zero_add] at hword
    refine (hbytes i (by omega) fun j hij hj => hlast j hij (by omega)).trans ?_
    rw [hptr h0]
    exact kernelBytes_event hlo h8 (Nat.lt_of_lt_of_le (by omega) hend) hword
  · intro x hx hout
    refine (hothers x fun i hi => hout i (by omega)).trans ?_
    simp only [kernelBytes]
    rw [if_neg fun hc => Nat.not_lt.2 hc.1 hx]

/-! ## The handler -/

theorem stores_length : (handOver tables ptable s a0 a1 t p).stores.length = (len a1).toNat :=
  fillBuffer_length _ _ _ _

theorem contained (hpages : heapPages < 2 ^ 19) (hfresh : live p = none) (hp : p ≠ 0)
    (h : KernelHeap.Represents heapPages (Function.update live p (some (8 * (len a1).toNat))) t
      cells) : Contained live (handOver tables ptable s a0 a1 t p) := by
  intro _
  obtain ⟨-, -, hend, htop⟩ := block_lt hpages h
  have hgood := goodBlock_of_represents h hpages hfresh
  refine ⟨hp, by rw [stores_length]; exact hgood, fun w hw => ?_⟩
  have hroom : 8 * (len a1).toNat ≤ KernelHeap.size t.mem (p - headerSize) := hgood.room
  unfold KERNEL_HEAP_START_VADDR at htop
  have hstore := fillBuffer_stores (p := p) (len a1).toNat 0 t.mem s.ring (by omega) w hw
  change p ≤ w.1 ∧ w.1 + 8 ≤ p + KernelHeap.size t.mem (p - headerSize)
  omega

/-- Of 2^29 events and more the bytes do not fit 32 bits, and no block has room for them. -/
theorem not_contained (hpages : heapPages < 2 ^ 19) {bytes : ℕ} (hlen : 2 ^ 29 ≤ (len a1).toNat)
    (h : KernelHeap.Represents heapPages (Function.update live p (some bytes)) t cells) :
    ¬ Contained live (handOver tables ptable s a0 a1 t p) := by
  intro hc
  obtain ⟨-, hgood, -⟩ := hc (List.ne_nil_of_length_pos (by rw [stores_length]; omega))
  obtain ⟨hlo, -, hend, htop⟩ := block_lt hpages h
  have hroom : 8 * _ ≤ KernelHeap.size t.mem (p - headerSize) := hgood.room
  rw [stores_length] at hroom
  omega

/-- At NULL there is no block. -/
theorem not_contained_null (hlen : (len a1).toNat ≠ 0) :
    ¬ Contained live (handOver tables ptable s a0 a1 t 0) := by
  intro hc
  have hpos : 0 < (handOver tables ptable s a0 a1 t 0).stores.length := by
    rw [stores_length]
    omega
  exact (hc (List.ne_nil_of_length_pos hpos)).1 rfl

/-- A buffer with room for the events goes back to the heap, which has the blocks it had. -/
theorem buffer_freed (hpages : heapPages < 2 ^ 19) {bytes : ℕ} (hfresh : live p = none)
    (hroom : 8 * (len a1).toNat ≤ KernelHeap.size t.mem (p - headerSize))
    (h : KernelHeap.Represents heapPages (Function.update live p (some bytes)) t cells) :
    ∃ u, (handOver tables ptable s a0 a1 t p).freed = some u ∧ Invariant heapPages ⟨u, live⟩ := by
  obtain ⟨-, -, hend, htop⟩ := block_lt hpages h
  have hlive : Function.update live p (some bytes) p ≠ none := by simp
  obtain ⟨c, hc, rfl⟩ := h.live_cell p hlive
  rw [Nat.add_sub_cancel] at hroom hend
  unfold KERNEL_HEAP_START_VADDR at htop
  have hfilled := h.payload hc hlive fun w hw =>
    fillBuffer_mem (p := c + headerSize) (len a1).toNat 0 t.mem s.ring (by omega) (by
      unfold cell at hw
      omega)
  obtain ⟨u, cells', hu, hrep, -, -⟩ := hfilled.kfree hpages hlive
  refine ⟨u, hu, cells', ?_⟩
  rwa [Function.update_idem, ← hfresh, Function.update_eq_self] at hrep

/-- For every heap, ring, buffer address and length: the events are stored in a block of their own
and handed over, if and only if there are none, or their bytes fit 32 bits and there is a block.
The pages of a process are RAM, which lies below the addresses of the heap. -/
theorem get_input_iff (heapPages : ℕ) (hpages : heapPages < 2 ^ 19) (live : ℕ → Option ℕ)
    (s : System) (hs : Invariant heapPages ⟨s.heap, live⟩) (tables : ℕ → Word)
    (ptable a0 a1 : Word) (a : Answer) (ha : Admissible heapPages s.heap (size a1).toNat a)
    (hram : ∀ i < 8 * (len a1).toNat, Translates tables ptable a0 i →
      userByte tables ptable a0 i < KERNEL_HEAP_START_VADDR) :
    (∀ r, getInput tables ptable s a0 a1 a = some r → Contained live r ∧
        Delivered tables ptable s.mem a0 (popped (len a1).toNat s.ring) r) ↔
      Sufficient s.heap a1 a := by
  obtain ⟨cells, h⟩ := hs
  have h : KernelHeap.Represents heapPages live s.heap cells := h
  simp only [getInput, Sufficient]
  constructor
  · intro hall
    by_contra hno
    obtain ⟨h0, hno⟩ := not_or.1 hno
    obtain ⟨hblock, hstops⟩ := not_or.1 hno
    have hlen : (len a1).toNat ≠ 0 := fun hz => h0 (BitVec.eq_of_toNat_eq hz)
    have hret (t : Heap) (p : ℕ)
        (hcall : Entry.kmalloc.call s.heap ((size a1).setWidth 64) a = some (t, p)) :
        Contained live (handOver tables ptable s a0 a1 t p) := by
      rw [hcall] at hall
      exact (hall _ rfl).1
    have hnull : Entry.kmalloc.call s.heap ((size a1).setWidth 64) a ≠ some (s.heap, 0) := by
      intro hcall
      exact not_contained_null hlen (hret _ _ hcall)
    rcases kmalloc_allocates h hpages ha hstops with hcall | ⟨t, p, cells', hcall, hp, -, hr, -⟩
    · exact hnull hcall
    · refine not_contained hpages ?_ hr (hret t p hcall)
      by_contra hlt
      have hneither := fun hb => hblock ⟨Nat.lt_of_not_le hlt, hb⟩
      refine hp ((kmalloc_null h hcall).2 ?_)
      rw [request_toNat]
      exact ⟨fun hserved => hneither (Or.inl hserved),
        Bool.eq_false_of_not_eq_true fun hg => hneither (Or.inr hg)⟩
  · intro hsuff r hr
    obtain ⟨⟨t, p⟩, hcall, rfl⟩ := Option.map_eq_some_iff.1 hr
    rcases hsuff with h0 | ⟨hlt, hblock⟩ | ⟨hserved, hg, htables⟩
    · have hzero : (len a1).toNat = 0 := by rw [h0]; rfl
      refine ⟨fun hne => absurd ?_ hne, delivered ?_ (fun hne => absurd hzero hne) hram⟩
      · exact List.eq_nil_of_length_eq_zero (stores_length.trans hzero)
      · rw [size_toNat, hzero]
        rfl
    · have hstops : ¬ (¬ Served s.heap (size a1).toNat false ∧ a.granted = true ∧
          a.tables = false) := by
        rintro ⟨hserved, hg, htables⟩
        rw [kmalloc_stops h hserved hg htables] at hcall
        cases hcall
      have hp : p ≠ 0 := by
        rw [ne_eq, kmalloc_null h hcall, request_toNat]
        rintro ⟨hserved, hg⟩
        rcases hblock with hb | hb
        · exact hserved hb
        · rw [hb] at hg
          cases hg
      rcases kmalloc_allocates h hpages ha hstops with
        hcall' | ⟨t', p', cells', hcall', -, hfresh, hrep, -⟩
      · obtain ⟨-, rfl⟩ := Prod.mk.inj (Option.some.inj (hcall.symm.trans hcall'))
        exact absurd rfl hp
      · obtain ⟨rfl, rfl⟩ := Prod.mk.inj (Option.some.inj (hcall.symm.trans hcall'))
        rw [size_small hlt] at hrep
        obtain ⟨hlo, h8, hend, htop⟩ := block_lt hpages hrep
        have hroom := (goodBlock_of_represents hrep hpages hfresh).room
        have hin : InHeap t p (len a1).toNat := ⟨hlo.le, h8, by omega, htop⟩
        exact ⟨contained hpages hfresh hp hrep, delivered (size_small hlt) (fun _ => hin) hram⟩
    · rw [kmalloc_stops h hserved hg htables] at hcall
      cases hcall

/-- An empty ring, and a heap of one page. -/
def smallSystem : System :=
  ⟨initKernelHeap fun _ => 0, RingBuffer.ieRingBufferInit (fun _ => .zero) 1 0, fun _ => 0⟩

/-- One event to a range across two pages. -/
theorem get_input_iff_one : ∃ r,
    getInput scatteredTable 0x80001000#64 smallSystem 0x120000ffc#64 1#64 ⟨true, true⟩ = some r ∧
      Contained (fun _ => none) r ∧
      Delivered scatteredTable 0x80001000#64 smallSystem.mem 0x120000ffc#64
        (popped 1 smallSystem.ring) r := by
  have hram (i : ℕ) (hi : i < 8) :
      userByte scatteredTable 0x80001000#64 0x120000ffc#64 i < KERNEL_HEAP_START_VADDR := by
    rw [userByte, scattered_translate i hi, BitVec.toNat_ofNat]
    unfold KERNEL_HEAP_START_VADDR
    split_ifs <;> omega
  have hall := (get_input_iff 16 (by decide) (fun _ => none) smallSystem
    (initial_invariant (by decide) _) scatteredTable 0x80001000#64 0x120000ffc#64 1#64 ⟨true, true⟩
    (fun _ _ => by decide) fun i hi _ => hram i hi).2 (Or.inr (Or.inl ⟨by decide, Or.inr rfl⟩))
  have hreturns : (getInput scatteredTable 0x80001000#64 smallSystem 0x120000ffc#64 1#64
      ⟨true, true⟩).isSome := by
    rw [getInput, Option.isSome_map]
    decide +kernel
  obtain ⟨r, hr⟩ := Option.isSome_iff_exists.1 hreturns
  exact ⟨r, hr, hall r hr⟩

/-- 2^29 events go to a buffer of 0 bytes. -/
theorem get_input_overruns : ¬ ∀ (s : System) (live : ℕ → Option ℕ),
    Invariant 16 ⟨s.heap, live⟩ → ∀ (a : Answer) (tables : ℕ → Word) (ptable a0 a1 : Word),
      Admissible 16 s.heap (size a1).toNat a →
      (∀ i < 8 * (len a1).toNat, Translates tables ptable a0 i →
        userByte tables ptable a0 i < KERNEL_HEAP_START_VADDR) →
      ∀ r, getInput tables ptable s a0 a1 a = some r → Contained live r ∧
        Delivered tables ptable s.mem a0 (popped (len a1).toNat s.ring) r := by
  intro hall
  have hs : Invariant 16 ⟨smallSystem.heap, fun _ => none⟩ := initial_invariant (by decide) _
  have ha : Admissible 16 smallSystem.heap (size 0x20000000#64).toNat ⟨false, true⟩ := by
    rintro ⟨⟩
  have hno (i : ℕ) : ¬ Translates (fun _ => 0#64) 0x80001000#64 0#64 i := by
    rw [Translates, not_not, translate_invalid]
    simp [leafOf, leafFrom]
  have hreturn := hall smallSystem (fun _ => none) hs ⟨false, true⟩ (fun _ => 0#64) 0x80001000#64
    0#64 0x20000000#64 ha fun i _ ht => absurd ht (hno i)
  obtain ⟨cells, h⟩ := hs
  have hcontained (t : Heap) (p : ℕ) (hcall : Entry.kmalloc.call smallSystem.heap
      ((size 0x20000000#64).setWidth 64) ⟨false, true⟩ = some (t, p)) :
      Contained (fun _ => none) (handOver (fun _ => 0#64) 0x80001000#64 smallSystem 0#64
        0x20000000#64 t p) := by
    simp only [getInput, hcall] at hreturn
    exact (hreturn _ rfl).1
  rcases kmalloc_allocates h (by decide) ha (fun hstop => absurd hstop.2.1 (by decide)) with
    hcall | ⟨t, p, cells', hcall, -, -, hrep, -⟩
  · exact not_contained_null (by decide) (hcontained _ _ hcall)
  · exact not_contained (by decide) (by decide) hrep (hcontained t p hcall)

end GetInput
