import DucreuOS.KernelHeap

/-! # Requests of any size

The request is any `size_t`. Rounding it up, adding the header and narrowing the page count to an
`int` may each lose a part of it, and `page_znalloc` gives one page where it is asked for none or
for a negative number. -/
namespace HeapRequests

open KernelHeap LinkedRing Transition

/-- `page_znalloc` finds a run, and `page_zalloc` a page for each table that the run needs. -/
structure Answer where
  granted : Bool
  tables : Bool

/-- The run is mapped at the top. Of 0 bytes no page is mapped, and a negative count goes on until
there is no page for a table. A table that is missing is page 0, which the kernel does not map. -/
def Mapped (bytes : ℕ) (a : Answer) : Prop :=
  a.tables = true ∧ 0 < runBytes bytes ∧ runBytes bytes < 2 ^ 63

instance (bytes : ℕ) (a : Answer) : Decidable (Mapped bytes a) :=
  inferInstanceAs (Decidable (_ ∧ _))

/-- There is no result where a store goes to a page that is not mapped. -/
def commonAlloc (s : Heap) (bytes : ℕ) (doZero requestContiguous : Bool) (a : Answer) :
    Option (Heap × ℕ) :=
  let bytes := roundUp bytes
  match search (next s.mem) (fun p => p = kmallocHead ∨ ¬ size s.mem p < bytes) (fuel s)
      (next s.mem kmallocHead) with
  | none => none
  | some p =>
    if p = kmallocHead ∨ requestContiguous then
      if a.granted then
        if Mapped bytes a then
          some (finishAlloc (appendRun s bytes) s.kernelHeapVaddr bytes doZero)
        else none
      else some (s, 0)
    else some (finishAlloc s p bytes doZero)

inductive Entry
  | kmalloc
  | kzalloc
  | kcalloc

def Entry.doZero : Entry → Bool
  | .kmalloc => false
  | .kzalloc => true
  | .kcalloc => true

def Entry.contiguous : Entry → Bool
  | .kmalloc => false
  | .kzalloc => false
  | .kcalloc => true

def Entry.call (f : Entry) (s : Heap) (bytes : BitVec 64) (a : Answer) : Option (Heap × ℕ) :=
  commonAlloc s bytes.toNat f.doZero f.contiguous a

/-- The `len` bytes from `start` hold the address `w`; addresses wrap. -/
def Covers (start len w : ℕ) : Prop := sub64 w start < len

def Overlap (a la b lb : ℕ) : Prop := ∃ w < 2 ^ 64, Covers a la w ∧ Covers b lb w

/-- The block at `p` has room for the request and overlaps neither the list head nor a free node
nor a block that is live already. -/
structure GoodBlock (live : ℕ → Option ℕ) (m : Words) (bytes p : ℕ) : Prop where
  room : bytes ≤ size m (p - headerSize)
  apart : ∃ free, Linked (next m) (prev m) kmallocHead free ∧
    ∀ c, c = kmallocHead ∨ c ∈ free ∨ live (c + headerSize) ≠ none →
      ¬ Overlap (p - headerSize) (cell m (p - headerSize)) c (cell m c)

/-- The call returns, either 0 with the heap as it was or a good block. -/
def Sound (live : ℕ → Option ℕ) (s : Heap) (bytes : ℕ) (o : Option (Heap × ℕ)) : Prop :=
  ∃ t p, o = some (t, p) ∧ (p = 0 ∧ t = s ∨ p ≠ 0 ∧ GoodBlock live t.mem bytes p)

/-- A free node has room for the request and will do for it. -/
def Served (s : Heap) (bytes : ℕ) (requestContiguous : Bool) : Prop :=
  requestContiguous = false ∧ ∃ free, Linked (next s.mem) (prev s.mem) kmallocHead free ∧
    ∃ c ∈ free, roundUp bytes ≤ size s.mem c

/-- From a free node a request is served unless it wraps when rounded up. Without one it is
refused, or its pages fit an `int` and there are tables for them. -/
def Meets (s : Heap) (bytes : ℕ) (requestContiguous : Bool) (a : Answer) : Prop :=
  Served s bytes requestContiguous ∧ bytes < 2 ^ 64 - 7 ∨
    ¬ Served s bytes requestContiguous ∧
      (a.granted = false ∨ a.tables = true ∧ bytes ≤ 2 ^ 43 - 4120)

/-- Pages that are granted are pages of the machine. -/
def Admissible (heapPages : ℕ) (s : Heap) (bytes : ℕ) (a : Answer) : Prop :=
  a.granted = true → 1 ≤ (pagesToAlloc (roundUp bytes)).toInt →
    s.kernelHeapVaddr + PAGE_SIZE * (pagesToAlloc (roundUp bytes)).toInt.toNat ≤
      KERNEL_HEAP_START_VADDR + PAGE_SIZE * heapPages

/-! ## Sizes -/

variable {bytes : ℕ}

theorem roundUp_ge (h : bytes < 2 ^ 64 - 7) :
    bytes ≤ roundUp bytes ∧ roundUp bytes < bytes + 8 := by
  unfold roundUp add64
  omega

theorem pages_nat (h : bytes + headerSize + PAGE_SIZE - 1 < 2 ^ 64) :
    sub64 (add64 (add64 bytes headerSize) PAGE_SIZE) 1 = bytes + headerSize + (PAGE_SIZE - 1) := by
  unfold sub64 add64 headerSize PAGE_SIZE at *
  omega

/-- A page count that fits an `int` is not changed. -/
theorem pagesToAlloc_toInt (h : bytes ≤ 2 ^ 43 - 4120) : 1 ≤ (pagesToAlloc (roundUp bytes)).toInt ∧
    roundUp bytes + headerSize ≤ PAGE_SIZE * (pagesToAlloc (roundUp bytes)).toInt.toNat := by
  have hwrap : bytes < 2 ^ 64 - 7 := by omega
  obtain ⟨-, hlt⟩ := roundUp_ge hwrap
  have hb : roundUp bytes ≤ 2 ^ 43 - 4120 := by
    unfold roundUp add64
    omega
  have hfit : roundUp bytes + headerSize + PAGE_SIZE - 1 < 2 ^ 64 := by
    unfold headerSize PAGE_SIZE
    omega
  have hsub := pages_nat hfit
  unfold pagesToAlloc
  rw [hsub, BitVec.toInt_ofNat']
  unfold headerSize PAGE_SIZE
  rw [Int.bmod_eq_of_le (by omega) (by omega)]
  omega

/-- The count of a run that is mapped is below 2^31. -/
theorem runBytes_lt (h : runBytes bytes < 2 ^ 63) :
    ∃ k, runBytes bytes = PAGE_SIZE * k ∧ PAGE_SIZE * k < 2 ^ 31 := by
  unfold runBytes at h ⊢
  have hmul : (pagesToAlloc bytes * BitVec.ofNat 32 PAGE_SIZE).toNat
      = PAGE_SIZE * ((pagesToAlloc bytes).toNat % 2 ^ 20) := by
    rw [BitVec.toNat_mul, BitVec.toNat_ofNat]
    unfold PAGE_SIZE
    omega
  rw [BitVec.toNat_signExtend] at h ⊢
  cases hmsb : (pagesToAlloc bytes * BitVec.ofNat 32 PAGE_SIZE).msb with
  | true =>
    rw [hmsb, if_pos rfl] at h
    omega
  | false =>
    rw [BitVec.msb_eq_false_iff_two_mul_lt, hmul] at hmsb
    refine ⟨(pagesToAlloc bytes).toNat % 2 ^ 20, ?_, by omega⟩
    rw [if_neg Bool.false_ne_true, BitVec.toNat_setWidth, hmul]
    omega

/-- Where the sum with the header wraps there are no pages to allocate. -/
theorem runBytes_wrapped (h : bytes + headerSize + PAGE_SIZE - 1 ≥ 2 ^ 64)
    (hb : bytes + headerSize ≤ 2 ^ 64) : runBytes bytes = 0 := by
  have hzero : sub64 (add64 (add64 bytes headerSize) PAGE_SIZE) 1 / PAGE_SIZE = 0 := by
    unfold sub64 add64 headerSize PAGE_SIZE at *
    omega
  unfold runBytes pagesToAlloc
  rw [hzero]
  rfl

/-! ## Blocks -/

variable {heapPages a la b lb p : ℕ} {live : ℕ → Option ℕ} {s t : Heap} {m : Words}
  {cells : List ℕ}

theorem not_overlap (hab : a + la ≤ b ∨ b + lb ≤ a) (ha : a + la ≤ 2 ^ 64) (hb : b + lb ≤ 2 ^ 64) :
    ¬ Overlap a la b lb := by
  rintro ⟨w, hw, h1, h2⟩
  unfold Covers sub64 at h1 h2
  omega

/-- A block that is as large as the address space overlaps the list head. -/
theorem GoodBlock.lt (h : GoodBlock live m bytes p) : bytes < 2 ^ 64 - headerSize := by
  by_contra hle
  obtain ⟨hroom, free, -, hapart⟩ := h
  apply hapart kmallocHead (Or.inl rfl)
  refine ⟨kmallocHead, by decide, ?_, ?_⟩
  · have : sub64 kmallocHead (p - headerSize) < 2 ^ 64 := Nat.mod_lt _ (by decide)
    unfold Covers cell headerSize at *
    omega
  · unfold Covers cell sub64 headerSize kmallocHead KERNEL_HEAP_START_VADDR
    omega

/-- A block of the heap that was not live before is a good one. -/
theorem goodBlock_of_represents (h : Represents heapPages (Function.update live p (some bytes)) t cells)
    (hpages : heapPages < 2 ^ 19) (hfresh : live p = none) : GoodBlock live t.mem bytes p := by
  obtain ⟨c, hc, rfl⟩ := h.live_cell p (by simp)
  refine ⟨?_, _, h.linked, fun d hd => ?_⟩
  · rw [Nat.add_sub_cancel]
    exact h.requested c bytes hc (Function.update_self _ _ _)
  · have hdc : d ∈ kmallocHead :: cells ∧ c ≠ d := by
      rcases hd with rfl | hd | hd
      · exact ⟨List.mem_cons_self, fun e => head_notin_cells h (e ▸ hc)⟩
      · obtain ⟨hd, hfree⟩ := mem_freeNodes.1 hd
        refine ⟨List.mem_cons_of_mem _ hd, ?_⟩
        rintro rfl
        simp at hfree
      · have hne : c ≠ d := by
          rintro rfl
          exact hd hfresh
        obtain ⟨d', hd', he⟩ := h.live_cell (d + headerSize)
          (by rwa [Function.update_of_ne fun e => hne (Nat.add_right_cancel e).symm])
        obtain rfl := Nat.add_right_cancel he
        exact ⟨List.mem_cons_of_mem _ hd', hne⟩
    rw [Nat.add_sub_cancel]
    have hle {x : ℕ} (hx : x ∈ kmallocHead :: cells) : x + cell t.mem x ≤ 2 ^ 64 := by
      rcases List.mem_cons.1 hx with rfl | hx
      · rw [cell, h.head_size]
        decide
      · have := (h.cell_le hpages hx).2
        unfold KERNEL_HEAP_START_VADDR at this
        omega
    exact not_overlap (h.apart (List.mem_cons_of_mem _ hc) hdc.1 hdc.2)
      (hle (List.mem_cons_of_mem _ hc)) (hle hdc.1)

theorem sound_of_allocates {contiguous granted : Bool} {o : Option (Heap × ℕ)}
    (h : Allocates heapPages live s bytes contiguous granted o) (hpages : heapPages < 2 ^ 19) :
    Sound live s bytes o := by
  rcases h with rfl | ⟨t, p, cells', rfl, hp, hfresh, hr, -, -⟩
  · exact ⟨s, 0, rfl, Or.inl ⟨rfl, rfl⟩⟩
  · exact ⟨t, p, rfl, Or.inr ⟨hp, goodBlock_of_represents hr hpages hfresh⟩⟩

/-- A run that is too short for the request: all of it becomes the block. -/
theorem short_run (h : Represents heapPages live s cells) (hpages : heapPages < 2 ^ 19)
    {k : ℕ} (hrun : runBytes bytes = PAGE_SIZE * k) (hpos : 0 < runBytes bytes)
    (hlt : PAGE_SIZE * k < 2 ^ 31) (hshort : PAGE_SIZE * k ≤ bytes)
    (hwrap : bytes + headerSize < 2 ^ 64) (doZero : Bool) :
    ∃ t, finishAlloc (appendRun s bytes) s.kernelHeapVaddr bytes doZero =
        (t, s.kernelHeapVaddr + headerSize) ∧
      size t.mem s.kernelHeapVaddr < PAGE_SIZE * k := by
  have htop := h.top_lt hpages
  unfold KERNEL_HEAP_START_VADDR at htop
  have hk : 1 ≤ k := by
    rw [hrun] at hpos
    exact Nat.pos_of_mul_pos_left hpos
  -- the pages beyond the machine's own count do not matter here
  have hroom : s.kernelHeapVaddr + PAGE_SIZE * k ≤
      KERNEL_HEAP_START_VADDR + PAGE_SIZE * (heapPages + k) := by
    obtain ⟨j, -, hj, he⟩ := h.top
    rw [he]
    unfold PAGE_SIZE
    omega
  obtain ⟨j, hj, hjp, he⟩ := h.top
  have hmore : Represents (heapPages + k) live s cells :=
    { h with top := ⟨j, hj, by omega, he⟩ }
  obtain ⟨hr, -, hsize, hfree⟩ := hmore.appendRun hrun hk (by omega) (by omega) hroom
  obtain ⟨-, -, htake⟩ := hr.take hfree (Nat.zero_le _)
  have hnode : takeNode (appendRun s bytes).mem s.kernelHeapVaddr bytes =
      allocationDllDelete (appendRun s bytes).mem s.kernelHeapVaddr := by
    unfold takeNode
    rw [if_neg]
    have : 0 < headerSize := by decide
    rw [hsize, add64_eq hwrap]
    omega
  have hlast : size (takeNode (appendRun s bytes).mem s.kernelHeapVaddr bytes) s.kernelHeapVaddr
      < PAGE_SIZE * k := by
    rw [hnode, htake, hsize]
    exact Nat.sub_lt (hrun ▸ hpos) (by decide)
  cases doZero with
  | false => exact ⟨_, rfl, hlast⟩
  | true =>
    refine ⟨_, rfl, ?_⟩
    change memsetZero _ _ _ _ < _
    unfold memsetZero zeroRange
    rw [if_neg fun hw => absurd hw.1 (by unfold headerSize; omega)]
    exact hlast

/-! ## One request -/

theorem served_iff {contiguous : Bool} (h : Represents heapPages live s cells) :
    Served s bytes contiguous ↔
      contiguous = false ∧ ∃ c ∈ freeNodes live cells, roundUp bytes ≤ size s.mem c := by
  constructor
  · rintro ⟨hc, free, hl, c, hcf, hsize⟩
    exact ⟨hc, c, hl.unique h.linked ▸ hcf, hsize⟩
  · rintro ⟨hc, c, hcf, hsize⟩
    exact ⟨hc, _, h.linked, c, hcf, hsize⟩

/-- Served by a free node. -/
theorem served_call {contiguous : Bool} (doZero : Bool) (a : Answer)
    (h : Represents heapPages live s cells) (hserved : Served s bytes contiguous) :
    ∃ p ∈ freeNodes live cells, roundUp bytes ≤ size s.mem p ∧
      commonAlloc s bytes doZero contiguous a = some (finishAlloc s p (roundUp bytes) doZero) := by
  obtain ⟨rfl, c, hc, hroom⟩ := (served_iff h).1 hserved
  obtain ⟨p, hsearch, hp⟩ := h.search_fit (roundUp bytes)
  obtain ⟨hne, hmem, hsize⟩ := hp.resolve_left fun hp => Nat.not_lt.2 hroom (hp.2 c hc)
  refine ⟨p, hmem, hsize, ?_⟩
  simp only [commonAlloc, hsearch, hne, Bool.false_eq_true, or_self, if_false]

/-- Otherwise it asks for pages. -/
theorem not_served_call {contiguous doZero : Bool} {a : Answer}
    (h : Represents heapPages live s cells) (hserved : ¬ Served s bytes contiguous) :
    commonAlloc s bytes doZero contiguous a =
      if a.granted then
        if Mapped (roundUp bytes) a then
          some (finishAlloc (appendRun s (roundUp bytes)) s.kernelHeapVaddr (roundUp bytes) doZero)
        else none
      else some (s, 0) := by
  obtain ⟨p, hsearch, hp⟩ := h.search_fit (roundUp bytes)
  have hpages : p = kmallocHead ∨ contiguous = true := by
    rcases hp with hp | hp
    · exact Or.inl hp.1
    · refine Or.inr (Bool.eq_true_of_not_eq_false fun hc => hserved ?_)
      exact (served_iff h).2 ⟨hc, p, hp.2⟩
  simp only [commonAlloc, hsearch, hpages, if_true]

/-- A request that meets the condition is allocated or refused. -/
theorem commonAlloc_allocates {contiguous : Bool} {a : Answer} (doZero : Bool)
    (h : Represents heapPages live s cells) (hpages : heapPages < 2 ^ 19)
    (ha : Admissible heapPages s bytes a) (hm : Meets s bytes contiguous a) :
    Allocates heapPages live s bytes contiguous a.granted
      (commonAlloc s bytes doZero contiguous a) := by
  rcases hm with ⟨hserved, hlt⟩ | ⟨hserved, hm⟩
  · right
    obtain ⟨p, hp, hsize, hcall⟩ := served_call doZero a h hserved
    obtain ⟨t, cells', ht, hfree, hr, hk, htop⟩ := h.nodeAlloc hpages (roundUp_ge hlt).1 hp hsize
      doZero
    exact ⟨t, p + headerSize, cells', hcall.trans (congrArg some ht), Nat.succ_ne_zero _, hfree,
      hr, hk, Or.inl ⟨hserved.1, htop⟩⟩
  · rw [not_served_call h hserved]
    cases hg : a.granted with
    | false => exact Or.inl rfl
    | true =>
      right
      obtain ⟨htables, hle⟩ := hm.resolve_left (by simp [hg])
      obtain ⟨hone, hroom⟩ := pagesToAlloc_toInt hle
      have hfit := ha hg hone
      obtain ⟨j, hj, -, he⟩ := h.top
      have hbytes : bytes ≤ roundUp bytes := (roundUp_ge (by omega)).1
      -- the pages of the machine are so few that the size is below 2^31
      have hsmall : bytes < 2 ^ 31 - 8192 ∧ roundUp bytes ≤ 2 ^ 31 - 8192 := by
        rw [he] at hfit
        unfold headerSize PAGE_SIZE at *
        omega
      have hcount : runBytes (roundUp bytes) =
          PAGE_SIZE * (pagesToAlloc (roundUp bytes)).toInt.toNat := by
        obtain ⟨hlt, hpc⟩ := pagesToAlloc_eq hsmall.2
        rw [runBytes_eq hsmall.2, hpc]
        generalize (roundUp bytes + headerSize + (PAGE_SIZE - 1)) / PAGE_SIZE = n at hlt ⊢
        rw [BitVec.toInt_ofNat', Int.bmod_eq_of_le (by omega) (by omega), Int.toNat_natCast]
      rw [← hcount] at hfit hroom
      have hmapped : Mapped (roundUp bytes) a := by
        refine ⟨htables, ?_, ?_⟩
        · unfold headerSize at hroom
          omega
        · rw [he] at hfit
          unfold PAGE_SIZE at *
          omega
      obtain ⟨t, cells', ht, hfree, hr, hk, htop⟩ := h.runAlloc hpages hsmall.1 doZero hfit
      refine ⟨t, s.kernelHeapVaddr + headerSize, cells', ?_, Nat.succ_ne_zero _, hfree, hr, hk,
        Or.inr ⟨rfl, rfl, htop⟩⟩
      rw [if_pos rfl, if_pos hmapped, ht]

/-- What a sound request meets. -/
theorem meets_of_sound {contiguous : Bool} {a : Answer} {doZero : Bool}
    (h : Represents heapPages live s cells) (hpages : heapPages < 2 ^ 19) (hb : bytes < 2 ^ 64)
    (hs : Sound live s bytes (commonAlloc s bytes doZero contiguous a)) :
    Meets s bytes contiguous a := by
  obtain ⟨t, p, hcall, hs⟩ := hs
  by_cases hserved : Served s bytes contiguous
  · left
    refine ⟨hserved, ?_⟩
    obtain ⟨q, -, -, hq⟩ := served_call doZero a h hserved
    obtain ⟨-, rfl⟩ := Prod.mk.inj (Option.some.inj (hq.symm.trans hcall))
    have hgood := (hs.resolve_left fun hz => Nat.succ_ne_zero _ hz.1).2.lt
    unfold headerSize at hgood
    omega
  · right
    refine ⟨hserved, ?_⟩
    rw [not_served_call h hserved] at hcall
    cases hg : a.granted with
    | false => exact Or.inl rfl
    | true =>
      right
      rw [hg, if_pos rfl] at hcall
      split at hcall
      next hmapped =>
        refine ⟨hmapped.1, ?_⟩
        by_contra hlarge
        obtain ⟨-, hp⟩ := Prod.mk.inj (Option.some.inj hcall)
        have hp : s.kernelHeapVaddr + headerSize = p := hp
        have hgood := (hs.resolve_left fun hz => Nat.succ_ne_zero _ (hp.trans hz.1)).2
        have hlt := hgood.lt
        have hbytes : bytes < 2 ^ 64 - 7 := by
          unfold headerSize at hlt
          omega
        obtain ⟨hge, hround⟩ := roundUp_ge hbytes
        have h8 : 8 ∣ roundUp bytes := Nat.dvd_mul_left 8 _
        have hwrap : roundUp bytes + headerSize + PAGE_SIZE - 1 < 2 ^ 64 := by
          by_contra hwrap
          have := runBytes_wrapped (Nat.le_of_not_lt hwrap) (by unfold headerSize at *; omega)
          have := hmapped.2.1
          omega
        obtain ⟨k, hrun, hk⟩ := runBytes_lt hmapped.2.2
        obtain ⟨t', ht', hshort⟩ := short_run h hpages hrun hmapped.2.1 hk (by omega)
          (by unfold PAGE_SIZE at hwrap; omega) doZero
        obtain ⟨rfl, -⟩ := Prod.mk.inj (Option.some.inj (hcall.symm.trans (congrArg some ht')))
        have hroom := hgood.room
        rw [← hp, Nat.add_sub_cancel] at hroom
        omega
      next => cases hcall

/-! ## Runs -/

inductive Event
  | alloc (f : Entry) (bytes : BitVec 64) (a : Answer)
  | kfree (addr : ℕ)
  /-- the owner of a live block writes to it -/
  | write (w v : ℕ)

/-- A run whose requests meet the condition. -/
def Step (heapPages : ℕ) (s : State) (e : Event) (t : State) : Prop :=
  match e with
  | .alloc f bytes a => Admissible heapPages s.heap bytes.toNat a ∧
      Meets s.heap bytes.toNat f.contiguous a ∧
      ∃ r, f.call s.heap bytes a = some r ∧ t = (allocated s bytes.toNat r).1
  | .kfree addr => KernelHeap.Step heapPages s (.call (.kfree addr)) t
  | .write w v => KernelHeap.Step heapPages s (.write w v) t

theorem step_preserves_invariant (hpages : heapPages < 2 ^ 19) {s t : State} {e : Event}
    (hs : Invariant heapPages s) (h : Step heapPages s e t) : Invariant heapPages t := by
  cases e with
  | alloc f bytes a =>
    obtain ⟨ha, hm, r, hr, rfl⟩ := h
    have hinv := hs
    obtain ⟨cells, h⟩ := hs
    have hspec := commonAlloc_allocates f.doZero h hpages ha hm
    rcases hspec with hcall | ⟨t, p, cells', hcall, hp, -, hrep, -⟩
    · obtain rfl := Option.some.inj (hcall.symm.trans hr)
      exact hinv
    · obtain rfl := Option.some.inj (hcall.symm.trans hr)
      refine ⟨cells', ?_⟩
      simp only [allocated, if_neg hp]
      exact hrep
  | kfree addr => exact KernelHeap.step_preserves_invariant (e := .call (.kfree addr)) hpages hs h
  | write w v => exact KernelHeap.step_preserves_invariant (e := .write w v) hpages hs h

theorem reachable_invariant (hpos : 0 < heapPages) (hpages : heapPages < 2 ^ 19) {m : Words}
    {s : State} (hrun : Execution (Step heapPages) (initial m) s) : Invariant heapPages s :=
  hrun.invariant (fun _ _ _ hs h => step_preserves_invariant hpages hs h) (initial_invariant hpos m)

/-- In every state of every run whose requests meet the condition, a request of any size is sound
if and only if it meets it too. -/
theorem request_sound_iff (heapPages : ℕ) (hpos : 0 < heapPages) (hpages : heapPages < 2 ^ 19)
    (m : Words) (s : State) (hrun : Execution (Step heapPages) (initial m) s) (f : Entry)
    (bytes : BitVec 64) (a : Answer) (ha : Admissible heapPages s.heap bytes.toNat a) :
    Sound s.live s.heap bytes.toNat (f.call s.heap bytes a) ↔
      Meets s.heap bytes.toNat f.contiguous a := by
  obtain ⟨cells, h⟩ := reachable_invariant hpos hpages hrun
  constructor
  · exact meets_of_sound h hpages bytes.isLt
  · intro hm
    exact sound_of_allocates (commonAlloc_allocates f.doZero h hpages ha hm) hpages

/-- A run of one request, and the next one. -/
theorem request_sound_iff_second : ∃ t : State,
    (Entry.call .kmalloc (initial fun _ => 0).heap 100#64 ⟨true, true⟩).map Prod.fst = some t.heap ∧
      (Sound t.live t.heap 200 (Entry.call .kzalloc t.heap 200#64 ⟨false, true⟩) ↔
        Meets t.heap 200 false ⟨false, true⟩) := by
  have hm : Meets (initial fun _ => 0).heap 100 false ⟨true, true⟩ := by
    by_cases hserved : Served (initial fun _ => 0).heap 100 false
    · exact Or.inl ⟨hserved, by decide⟩
    · exact Or.inr ⟨hserved, Or.inr ⟨rfl, by decide⟩⟩
  have hsome : (Entry.call .kmalloc (initial fun _ => 0).heap 100#64 ⟨true, true⟩).isSome := by
    decide +kernel
  obtain ⟨r, hr⟩ := Option.isSome_iff_exists.1 hsome
  refine ⟨(allocated (initial fun _ => 0) 100 r).1, by rw [hr]; rfl, ?_⟩
  exact request_sound_iff 16 (by decide) (by decide) (fun _ => 0) _
    (.single (e := .alloc .kmalloc 100#64 ⟨true, true⟩) ⟨fun _ _ => by decide, hm, r, hr, rfl⟩)
    .kzalloc 200#64 ⟨false, true⟩ (by rintro ⟨⟩)

/-- `kcalloc` of -8 bytes: the one page it gets cannot keep them off the list head. -/
theorem kcalloc_minus_eight : ¬ ∀ (m : Words) (s : State),
    Execution (Step 16) (initial m) s → ∀ (f : Entry) (bytes : BitVec 64) (a : Answer),
      Admissible 16 s.heap bytes.toNat a →
        Sound s.live s.heap bytes.toNat (f.call s.heap bytes a) := by
  intro h
  have hsound := h (fun _ => 0) (initial fun _ => 0) (.refl _) .kcalloc (-8#64) ⟨true, true⟩
    (fun _ _ => by decide)
  obtain ⟨t, p, hcall, hs⟩ := hsound
  rcases hs with ⟨rfl, -⟩ | ⟨-, hgood⟩
  · have hne : (Entry.call .kcalloc (initial fun _ => 0).heap (-8#64) ⟨true, true⟩).map Prod.snd
        ≠ some 0 := by
      decide +kernel
    exact hne (by rw [hcall]; rfl)
  · exact absurd hgood.lt (by decide)

end HeapRequests
