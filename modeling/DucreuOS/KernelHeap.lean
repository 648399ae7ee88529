import DucreuOS.Library.LinkedRing
import DucreuOS.Library.Tiling
import DucreuOS.Library.Transition

/-! # The kernel heap

`kmalloc`, `kzalloc`, `kcalloc` and `kfree` over the words of the heap's virtual memory. Whether
`page_znalloc` succeeds is part of a call; the pages it gives are zeroed and are mapped at the
top. The lock serialises the calls. -/
namespace KernelHeap

open LinkedRing Tiling Transition

def PAGE_SIZE : ℕ := 4096
def KERNEL_HEAP_START_VADDR : ℕ := 0x120000000
/-- `sizeof(allocation_t)` -/
def headerSize : ℕ := 24

/-- The 64-bit words at the 8-byte aligned addresses. -/
abbrev Words := ℕ → ℕ

def add64 (a b : ℕ) : ℕ := (a + b) % 2 ^ 64
def sub64 (a b : ℕ) : ℕ := (a + (2 ^ 64 - b % 2 ^ 64)) % 2 ^ 64

theorem add64_eq {a b : ℕ} (h : a + b < 2 ^ 64) : add64 a b = a + b := Nat.mod_eq_of_lt h

theorem sub64_eq {a b : ℕ} (h : b ≤ a) (ha : a < 2 ^ 64) : sub64 a b = a - b := by
  unfold sub64
  omega

/-! ## The fields of `allocation_t` -/

def size (m : Words) (a : ℕ) : ℕ := m a
def prev (m : Words) (a : ℕ) : ℕ := m (a + 8)
def next (m : Words) (a : ℕ) : ℕ := m (a + 16)

def setSize (m : Words) (a v : ℕ) : Words := Function.update m a v
def setPrev (m : Words) (a v : ℕ) : Words := Function.update m (a + 8) v
def setNext (m : Words) (a v : ℕ) : Words := Function.update m (a + 16) v

/-- The list head, at the start of the heap. -/
def kmallocHead : ℕ := KERNEL_HEAP_START_VADDR

def allocationDllInsert (m : Words) (a b : ℕ) : Words :=
  if a = b then m
  else
    let m := setNext m b (next m a)
    let m := setPrev m b a
    let m := setNext m a b
    setPrev m (next m b) b

def allocationDllDelete (m : Words) (a : ℕ) : Words :=
  if next m a = a then m
  else
    let m := setPrev m (next m a) (prev m a)
    setNext m (prev m a) (next m a)

structure Heap where
  mem : Words
  kernelHeapVaddr : ℕ

/-- Zeros in a range of the memory. -/
def zeroRange (m : Words) (start stop : ℕ) : Words :=
  fun w => if start ≤ w ∧ w < stop then 0 else m w

/-- `init_kernel_heap`, on the page from `page_zalloc`. -/
def initKernelHeap (m : Words) : Heap :=
  let m := zeroRange m KERNEL_HEAP_START_VADDR (KERNEL_HEAP_START_VADDR + PAGE_SIZE)
  let m := setSize m kmallocHead 0
  let m := setNext m kmallocHead kmallocHead
  let m := setPrev m kmallocHead kmallocHead
  let p := kmallocHead + headerSize
  let m := setSize m p (PAGE_SIZE - 2 * headerSize)
  { mem := allocationDllInsert m kmallocHead p
    kernelHeapVaddr := KERNEL_HEAP_START_VADDR + PAGE_SIZE }

/-- No loop over the list runs longer. -/
def fuel (s : Heap) : ℕ := s.kernelHeapVaddr

/-- `((bytes + 7)/8)*8` -/
def roundUp (bytes : ℕ) : ℕ := add64 bytes 7 / 8 * 8

/-- `int pages_to_alloc` -/
def pagesToAlloc (bytes : ℕ) : BitVec 32 :=
  BitVec.ofNat 32 (sub64 (add64 (add64 bytes headerSize) PAGE_SIZE) 1 / PAGE_SIZE)

/-- The `int` `pages_to_alloc*PAGE_SIZE`, as 64 bits. -/
def runBytes (bytes : ℕ) : ℕ :=
  ((pagesToAlloc bytes * BitVec.ofNat 32 PAGE_SIZE).signExtend 64).toNat

/-- `memset` with zeros: its count is an `int`, and it writes eight bytes at a time. -/
def memsetZero (m : Words) (start count : ℕ) : Words :=
  zeroRange m start (start + 8 * ((BitVec.ofNat 32 count).toInt.tdiv 8).toNat)

/-- New pages at the top, as one free node at the end of the list. -/
def appendRun (s : Heap) (bytes : ℕ) : Heap :=
  let p := s.kernelHeapVaddr
  let top := add64 p (runBytes bytes)
  let m := zeroRange s.mem p top
  let m := setSize m p (sub64 (runBytes bytes) headerSize)
  { mem := allocationDllInsert m (prev m kmallocHead) p, kernelHeapVaddr := top }

/-- Take the first `bytes` of a free node, or all of it if the rest has no room for a header. -/
def takeNode (m : Words) (p bytes : ℕ) : Words :=
  if add64 bytes headerSize ≤ size m p then
    let q := add64 (p + headerSize) bytes
    let m := setSize m q (sub64 (sub64 (size m p) bytes) headerSize)
    let m := setSize m p bytes
    let m := allocationDllInsert m p q
    allocationDllDelete m p
  else allocationDllDelete m p

/-- The end of `common_alloc`, on the node it chose. -/
def finishAlloc (s : Heap) (p bytes : ℕ) (doZero : Bool) : Heap × ℕ :=
  let m := takeNode s.mem p bytes
  let m := if doZero then memsetZero m (p + headerSize) (size m p) else m
  ({ s with mem := m }, p + headerSize)

/-- The address of the block, or 0. There is no result if a loop does not end. -/
def commonAlloc (s : Heap) (bytes : ℕ) (doZero requestContiguous granted : Bool) :
    Option (Heap × ℕ) :=
  let bytes := roundUp bytes
  match search (next s.mem) (fun p => p = kmallocHead ∨ ¬ size s.mem p < bytes) (fuel s)
      (next s.mem kmallocHead) with
  | none => none
  | some p =>
    if p = kmallocHead ∨ requestContiguous then
      if granted then some (finishAlloc (appendRun s bytes) s.kernelHeapVaddr bytes doZero)
      else some (s, 0)
    else some (finishAlloc s p bytes doZero)

def kmalloc (s : Heap) (bytes : ℕ) : Bool → Option (Heap × ℕ) := commonAlloc s bytes false false
def kzalloc (s : Heap) (bytes : ℕ) : Bool → Option (Heap × ℕ) := commonAlloc s bytes true false
def kcalloc (s : Heap) (bytes : ℕ) : Bool → Option (Heap × ℕ) := commonAlloc s bytes true true

/-- The inner loop of `coalesce_free_list`. -/
def coalesceNode : ℕ → Words → ℕ → Option Words
  | 0, _, _ => none
  | n + 1, m, p =>
    if add64 p (add64 (size m p) headerSize) = next m p then
      let m := setSize m p (add64 (size m p) (add64 headerSize (size m (next m p))))
      coalesceNode n (allocationDllDelete m (next m p)) p
    else some m

def coalesceFrom (inner : ℕ) : ℕ → Words → ℕ → Option Words
  | 0, _, _ => none
  | n + 1, m, p =>
    if p = kmallocHead then some m
    else
      match coalesceNode inner m p with
      | none => none
      | some m => coalesceFrom inner n m (next m p)

def coalesceFreeList (s : Heap) : Option Heap :=
  (coalesceFrom (fuel s) (fuel s) s.mem (next s.mem kmallocHead)).map fun m => { s with mem := m }

/-- The loop of `heap_shrink`. -/
def shrinkFrom (last : ℕ) : ℕ → Heap → Option Heap
  | 0, _ => none
  | n + 1, s =>
    if add64 (last + headerSize) (size s.mem last) = s.kernelHeapVaddr ∧
        PAGE_SIZE ≤ size s.mem last then
      shrinkFrom last n
        { mem := setSize s.mem last (sub64 (size s.mem last) PAGE_SIZE)
          kernelHeapVaddr := sub64 s.kernelHeapVaddr PAGE_SIZE }
    else some s

def heapShrink (s : Heap) : Option Heap := shrinkFrom (prev s.mem kmallocHead) (fuel s) s

/-- The list after the node `q` has gone back to it. -/
def freeNode (s : Heap) (q : ℕ) : Option Heap :=
  match search (next s.mem) (fun p => ¬ (next s.mem p < q ∧ next s.mem p ≠ kmallocHead)) (fuel s)
      kmallocHead with
  | none => none
  | some p =>
    match coalesceFreeList { s with mem := allocationDllInsert s.mem p q } with
    | none => none
    | some s => heapShrink s

def kfree (s : Heap) (addr : ℕ) : Option Heap :=
  if addr = 0 then some s else freeNode s (sub64 addr headerSize)

/-! ## Links -/

/-- Headers at these places do not overlap. -/
def Separate (l : List ℕ) : Prop :=
  ∀ c ∈ l, ∀ d ∈ l, c ≠ d → c + headerSize ≤ d ∨ d + headerSize ≤ c

theorem allocationDllInsert_apply {m : Words} {a b : ℕ} (hab : a ≠ b) (w : ℕ) :
    allocationDllInsert m a b w = if w = next m a + 8 then b else if w = a + 16 then b
      else if w = b + 8 then a else if w = b + 16 then next m a else m w := by
  simp only [allocationDllInsert, if_neg hab, setNext, setPrev, next, Function.update_apply,
    Nat.add_right_cancel_iff, hab.symm, if_false, if_true, show b + 16 ≠ b + 8 by omega]
  rfl

theorem allocationDllDelete_apply {m : Words} {a : ℕ} (ha : next m a ≠ a)
    (hp : a + 8 ≠ next m a + 8) (hn : a + 16 ≠ next m a + 8) (w : ℕ) :
    allocationDllDelete m a w = if w = prev m a + 16 then next m a
      else if w = next m a + 8 then prev m a else m w := by
  unfold allocationDllDelete
  rw [if_neg ha]
  simp only [next] at hp hn
  simp only [setNext, setPrev, next, prev, Function.update_apply, hp, hn, if_false]
  rfl

variable {m m' : Words} {s a b c d p q w : ℕ} {xs ys l : List ℕ}

theorem Separate.next_ne_prev (h : Separate l) (hc : c ∈ l) (hd : d ∈ l) : c + 16 ≠ d + 8 := by
  by_cases hcd : c = d
  · omega
  · have := h c hc d hd hcd
    unfold headerSize at this
    omega

/-- `w` is no link of the nodes in the list. -/
def NoLink (l : List ℕ) (w : ℕ) : Prop := ∀ c ∈ l, w ≠ c + 8 ∧ w ≠ c + 16

theorem last_mem (ha : (s :: xs).getLast? = some a) : a ∈ s :: (xs ++ ys) := by
  have := List.mem_of_getLast? ha
  simp only [List.mem_cons, List.mem_append] at this ⊢
  exact this.imp_right Or.inl

theorem head_mem (hb : (ys ++ [s]).head? = some b) : b ∈ s :: (xs ++ ys) := by
  have := List.mem_of_head? hb
  simp only [List.mem_cons, List.mem_append, List.not_mem_nil, or_false] at this ⊢
  exact this.symm.imp_right Or.inr

theorem exists_head (ys : List ℕ) (s : ℕ) : ∃ b, (ys ++ [s]).head? = some b := by
  cases ys with
  | nil => exact ⟨s, rfl⟩
  | cons y ys => exact ⟨y, rfl⟩

theorem exists_last (s : ℕ) (xs : List ℕ) : ∃ a, (s :: xs).getLast? = some a :=
  ⟨_, List.getLast?_eq_some_getLast (List.cons_ne_nil s xs)⟩

theorem allocationDllInsert_linked (h : Linked (next m) (prev m) s (xs ++ ys))
    (hsep : Separate (b :: s :: (xs ++ ys))) (hb : b ∉ s :: (xs ++ ys))
    (ha : (s :: xs).getLast? = some a) :
    Linked (next (allocationDllInsert m a b)) (prev (allocationDllInsert m a b)) s
        (xs ++ b :: ys) ∧
      ∀ w, NoLink (b :: s :: (xs ++ ys)) w → allocationDllInsert m a b w = m w := by
  obtain ⟨d, hd⟩ := exists_head ys s
  have had : next m a = d := (h.next_eq xs ys ha hd).1
  have hal : a ∈ s :: (xs ++ ys) := last_mem ha
  have hdl : d ∈ s :: (xs ++ ys) := head_mem hd
  have hab : a ≠ b := fun e => hb (e ▸ hal)
  have hdb : d ≠ b := fun e => hb (e ▸ hdl)
  have hal' := List.mem_cons_of_mem b hal
  have hdl' := List.mem_cons_of_mem b hdl
  have hbl : b ∈ b :: s :: (xs ++ ys) := List.mem_cons_self
  have h1 := hsep.next_ne_prev hal' hdl'
  have h2 := hsep.next_ne_prev hal' hbl
  have h3 := hsep.next_ne_prev hbl hdl'
  have hw := allocationDllInsert_apply (m := m) hab
  rw [had] at hw
  constructor
  · apply Linked.insert h hb ha hd
    · rw [next, hw, if_neg h1, if_pos rfl]
    · rw [next, hw, if_neg h3, if_neg (by omega), if_neg (by omega), if_pos rfl]
    · rw [prev, hw, if_pos rfl]
    · rw [prev, hw, if_neg (by omega), if_neg h2.symm, if_pos rfl]
    · intro c hc hca
      have hcb : c ≠ b := fun e => hb (e ▸ hc)
      have hc' := List.mem_cons_of_mem b hc
      rw [next, hw, if_neg (hsep.next_ne_prev hc' hdl'), if_neg (by omega),
        if_neg (hsep.next_ne_prev hc' hbl), if_neg (by omega), next]
    · intro c hc hcd
      have hcb : c ≠ b := fun e => hb (e ▸ hc)
      have hc' := List.mem_cons_of_mem b hc
      rw [prev, hw, if_neg (by omega), if_neg (hsep.next_ne_prev hal' hc').symm,
        if_neg (by omega), if_neg (hsep.next_ne_prev hbl hc').symm, prev]
  · intro w hn
    rw [hw, if_neg (hn d hdl').1, if_neg (hn a hal').2, if_neg (hn b hbl).1, if_neg (hn b hbl).2]

theorem allocationDllDelete_linked (h : Linked (next m) (prev m) s (xs ++ a :: ys))
    (hsep : Separate (s :: (xs ++ a :: ys))) :
    Linked (next (allocationDllDelete m a)) (prev (allocationDllDelete m a)) s (xs ++ ys) ∧
      ∀ w, NoLink (s :: (xs ++ ys)) w → allocationDllDelete m a w = m w := by
  obtain ⟨b, hb⟩ := exists_last s xs
  obtain ⟨d, hd⟩ := exists_head ys s
  have hba : prev m a = b := (h.next_eq xs (a :: ys) hb rfl).2
  have had : next m a = d := by
    have hlast : (s :: (xs ++ [a])).getLast? = some a := by
      rw [← List.cons_append, List.getLast?_append]
      rfl
    have h' : Linked (next m) (prev m) s ((xs ++ [a]) ++ ys) := by simpa using h
    exact (h'.next_eq (xs ++ [a]) ys hlast hd).1
  have hsub : ∀ c ∈ s :: (xs ++ ys), c ∈ s :: (xs ++ a :: ys) := by
    intro c hc
    simp only [List.mem_cons, List.mem_append] at hc ⊢
    tauto
  have hal : a ∈ s :: (xs ++ a :: ys) := by simp
  have hbl := hsub b (last_mem hb)
  have hdl := hsub d (head_mem hd)
  have hda : d ≠ a := by
    rintro rfl
    have hnd := h.nodup
    simp only [List.nodup_cons, List.nodup_append, List.mem_append, List.mem_cons] at hnd
    have := List.mem_of_head? hd
    simp only [List.mem_append, List.mem_singleton] at this
    tauto
  have hw := allocationDllDelete_apply (m := m) (a := a) (had ▸ hda) (by omega)
    (hsep.next_ne_prev hal (had ▸ hdl))
  rw [had, hba] at hw
  constructor
  · apply Linked.remove h hb hd
    · rw [next, hw, if_pos rfl]
    · rw [prev, hw, if_neg (hsep.next_ne_prev hbl hdl).symm, if_pos rfl]
    · intro c hc hcb
      rw [next, hw, if_neg (by omega), if_neg (hsep.next_ne_prev (hsub c hc) hdl), next]
    · intro c hc hcd
      rw [prev, hw, if_neg (hsep.next_ne_prev hbl (hsub c hc)).symm, if_neg (by omega), prev]
  · intro w hn
    rw [hw, if_neg (hn b (last_mem hb)).2, if_neg (hn d (head_mem hd)).1]

/-! ## The cells of the heap -/

/-- Header and payload. -/
def cell (m : Words) (a : ℕ) : ℕ := headerSize + size m a

/-- The cells that no live block occupies; `live` maps the address of a live block to the bytes
that were requested for it. -/
def freeNodes (live : ℕ → Option ℕ) (cells : List ℕ) : List ℕ :=
  cells.filter fun c => (live (c + headerSize)).isNone

/-- The cells after the list head fill the heap, and the list holds the free ones. -/
structure Represents (heapPages : ℕ) (live : ℕ → Option ℕ) (s : Heap) (cells : List ℕ) : Prop where
  tiled : Tiled (cell s.mem) (kmallocHead + headerSize) cells s.kernelHeapVaddr
  head_size : size s.mem kmallocHead = 0
  linked : Linked (next s.mem) (prev s.mem) kmallocHead (freeNodes live cells)
  aligned (c : ℕ) : c ∈ cells → 8 ∣ size s.mem c
  live_cell (p : ℕ) : live p ≠ none → ∃ c ∈ cells, p = c + headerSize
  requested (c n : ℕ) : c ∈ cells → live (c + headerSize) = some n → n ≤ size s.mem c
  top : ∃ k, 1 ≤ k ∧ k ≤ heapPages ∧ s.kernelHeapVaddr = KERNEL_HEAP_START_VADDR + PAGE_SIZE * k

/-- `w` is outside the list head and the cells in the list. -/
def Outside (m : Words) (l : List ℕ) (w : ℕ) : Prop :=
  ∀ c ∈ kmallocHead :: l, w < c ∨ c + cell m c ≤ w

/-- The live blocks keep their sizes and payloads. -/
def Kept (live : ℕ → Option ℕ) (m m' : Words) : Prop :=
  ∀ c, live (c + headerSize) ≠ none → size m' c = size m c ∧
    ∀ w, c + headerSize ≤ w → w < c + cell m c → m' w = m w

theorem Kept.trans {live : ℕ → Option ℕ} {m m' m'' : Words} (h : Kept live m m')
    (h' : Kept live m' m'') : Kept live m m'' := by
  intro c hc
  obtain ⟨hs, hp⟩ := h c hc
  obtain ⟨hs', hp'⟩ := h' c hc
  refine ⟨hs'.trans hs, fun w h1 h2 => (hp' w h1 ?_).trans (hp w h1 h2)⟩
  rw [cell, hs]
  exact h2

theorem mem_freeNodes {live : ℕ → Option ℕ} {cells : List ℕ} :
    c ∈ freeNodes live cells ↔ c ∈ cells ∧ live (c + headerSize) = none := by
  simp [freeNodes]

section Represents

variable {heapPages : ℕ} {live : ℕ → Option ℕ} {s : Heap} {cells : List ℕ}

theorem cell_pos (m : Words) (c : ℕ) : 0 < cell m c :=
  Nat.lt_of_lt_of_le (by decide) (Nat.le_add_right headerSize (size m c))

/-- The list head and the cells do not overlap. -/
theorem Represents.apart (h : Represents heapPages live s cells) (hc : c ∈ kmallocHead :: cells)
    (hd : d ∈ kmallocHead :: cells) (hne : c ≠ d) :
    c + cell s.mem c ≤ d ∨ d + cell s.mem d ≤ c := by
  have htiled : Tiled (cell s.mem) kmallocHead (kmallocHead :: cells) s.kernelHeapVaddr := by
    refine ⟨rfl, ?_⟩
    rw [cell, h.head_size]
    exact h.tiled
  exact htiled.apart hc hd hne

theorem Represents.separate (h : Represents heapPages live s cells) (hl : l ⊆ kmallocHead :: cells) :
    Separate l := by
  intro c hc d hd hne
  have := h.apart (hl hc) (hl hd) hne
  unfold cell at this
  omega

theorem freeNodes_subset : kmallocHead :: freeNodes live cells ⊆ kmallocHead :: cells :=
  List.cons_subset_cons _ (List.filter_subset_self cells)

theorem head_notin_cells (h : Represents heapPages live s cells) : kmallocHead ∉ cells := by
  intro hc
  have := (h.tiled.bounds hc).1
  unfold headerSize at this
  omega

/-- What lies in a live block is outside the free nodes. -/
theorem Represents.outside (h : Represents heapPages live s cells)
    (hc : live (c + headerSize) ≠ none) (h1 : c ≤ w) (h2 : w < c + cell s.mem c) :
    Outside s.mem (freeNodes live cells) w := by
  obtain ⟨c', hc', he⟩ := h.live_cell _ hc
  obtain rfl := Nat.add_right_cancel he
  intro d hd
  have hne : c ≠ d := by
    rintro rfl
    rcases List.mem_cons.1 hd with rfl | hd
    · exact head_notin_cells h hc'
    · exact hc (mem_freeNodes.1 hd).2
  have := h.apart (List.mem_cons_of_mem _ hc') (freeNodes_subset hd) hne
  omega

/-- A change within the free nodes keeps the live blocks. -/
theorem Represents.kept (h : Represents heapPages live s cells)
    (hm : ∀ w, Outside s.mem (freeNodes live cells) w → m' w = s.mem w) : Kept live s.mem m' := by
  intro c hc
  refine ⟨?_, fun w h1 h2 => ?_⟩
  · exact hm c (h.outside hc (le_refl c) (Nat.lt_add_of_pos_right (cell_pos _ c)))
  · exact hm w (h.outside hc ((Nat.le_add_right c headerSize).trans h1) h2)

/-- What is outside some nodes is no link of theirs. -/
theorem Outside.noLink (h : Outside m l w) : NoLink (kmallocHead :: l) w := by
  intro c hc
  have := h c hc
  unfold cell headerSize at this
  omega

theorem Outside.subset {l' : List ℕ} (h : Outside m l w) (hl : l' ⊆ l) : Outside m l' w :=
  fun c hc => h c (List.cons_subset_cons _ hl hc)

/-- The size of a cell is no link. -/
theorem Represents.noLink (h : Represents heapPages live s cells) (hc : c ∈ kmallocHead :: cells)
    (hl : l ⊆ kmallocHead :: cells) : NoLink l c := by
  intro d hd
  by_cases hcd : c = d
  · omega
  · have := h.apart hc (hl hd) hcd
    unfold cell headerSize at this
    omega

theorem freeNodes_append : freeNodes live (xs ++ ys) = freeNodes live xs ++ freeNodes live ys :=
  List.filter_append xs ys

theorem freeNodes_free (hp : live (p + headerSize) = none) :
    freeNodes live (xs ++ p :: ys) = freeNodes live xs ++ p :: freeNodes live ys := by
  simp [freeNodes, hp]

theorem freeNodes_live (hp : live (p + headerSize) ≠ none) :
    freeNodes live (xs ++ p :: ys) = freeNodes live xs ++ freeNodes live ys := by
  simp [freeNodes, Option.isNone_iff_eq_none, hp]

theorem freeNodes_update (v : Option ℕ) (hp : p ∉ xs) :
    freeNodes (Function.update live (p + headerSize) v) xs = freeNodes live xs := by
  refine List.filter_congr fun c hc => ?_
  have : c + headerSize ≠ p + headerSize := fun e => hp (Nat.add_right_cancel e ▸ hc)
  rw [Function.update_of_ne this]

theorem Represents.notin (h : Represents heapPages live s (xs ++ p :: ys)) : p ∉ xs ∧ p ∉ ys := by
  obtain ⟨hxs, hys⟩ := tiled_middle.1 h.tiled
  have := cell_pos s.mem p
  constructor
  · intro hp
    have := (hxs.bounds hp).2
    omega
  · intro hp
    have := (hys.bounds hp).1
    omega

theorem Represents.head_ne (h : Represents heapPages live s (xs ++ p :: ys)) : kmallocHead ≠ p :=
  fun e => head_notin_cells h (e ▸ List.mem_append_right xs List.mem_cons_self)

theorem middle_subset : kmallocHead :: (freeNodes live xs ++ freeNodes live ys) ⊆
    kmallocHead :: (xs ++ p :: ys) := by
  intro c hc
  simp only [List.mem_cons, List.mem_append, mem_freeNodes] at hc ⊢
  tauto

theorem middle_subset_insert : xs ++ ys ⊆ xs ++ p :: ys := by
  intro c hc
  simp only [List.mem_append, List.mem_cons] at hc ⊢
  tauto

/-- A free node leaves the list and becomes a live block. -/
theorem Represents.take {n : ℕ} (h : Represents heapPages live s (xs ++ p :: ys))
    (hp : live (p + headerSize) = none) (hn : n ≤ size s.mem p) :
    Represents heapPages (Function.update live (p + headerSize) (some n))
        { s with mem := allocationDllDelete s.mem p } (xs ++ p :: ys) ∧
      Kept live s.mem (allocationDllDelete s.mem p) ∧
      size (allocationDllDelete s.mem p) p = size s.mem p := by
  obtain ⟨hpx, hpy⟩ := h.notin
  have hlinked := h.linked
  rw [freeNodes_free hp] at hlinked
  obtain ⟨hl, hm⟩ := allocationDllDelete_linked hlinked
    (h.separate fun c hc => freeNodes_subset (freeNodes_free hp ▸ hc))
  have hsize {c : ℕ} (hc : c ∈ kmallocHead :: (xs ++ p :: ys)) :
      size (allocationDllDelete s.mem p) c = size s.mem c := hm c (h.noLink hc middle_subset)
  refine ⟨⟨?_, ?_, ?_, ?_, ?_, ?_, h.top⟩, ?_, hsize (by simp)⟩
  · exact h.tiled.congr fun c hc => congrArg (headerSize + ·) (hsize (List.mem_cons_of_mem _ hc))
  · exact (hsize List.mem_cons_self).trans h.head_size
  · rw [freeNodes_live (by simp), freeNodes_update _ hpx, freeNodes_update _ hpy]
    exact hl
  · intro c hc
    rw [hsize (List.mem_cons_of_mem _ hc)]
    exact h.aligned c hc
  · intro a ha
    by_cases hap : a = p + headerSize
    · exact ⟨p, by simp, hap⟩
    · rw [Function.update_of_ne hap] at ha
      exact h.live_cell a ha
  · intro c n' hc hcn
    rw [hsize (List.mem_cons_of_mem _ hc)]
    by_cases hcp : c = p
    · subst hcp
      rw [Function.update_self] at hcn
      cases hcn
      exact hn
    · rw [Function.update_of_ne (fun e => hcp (Nat.add_right_cancel e))] at hcn
      exact h.requested c n' hc hcn
  · refine h.kept fun w hw => hm w (Outside.noLink (hw.subset ?_))
    rw [freeNodes_free hp]
    exact middle_subset_insert

/-- A live block enters the list as a free node. -/
theorem Represents.release (h : Represents heapPages live s (xs ++ q :: ys))
    (hq : live (q + headerSize) ≠ none)
    (ha : (kmallocHead :: freeNodes live xs).getLast? = some a) :
    Represents heapPages (Function.update live (q + headerSize) none)
        { s with mem := allocationDllInsert s.mem a q } (xs ++ q :: ys) ∧
      Kept (Function.update live (q + headerSize) none) s.mem (allocationDllInsert s.mem a q) := by
  obtain ⟨hqx, hqy⟩ := h.notin
  have hlinked := h.linked
  rw [freeNodes_live hq] at hlinked
  have hsub : q :: kmallocHead :: (freeNodes live xs ++ freeNodes live ys) ⊆
      kmallocHead :: (xs ++ q :: ys) := List.cons_subset.2 ⟨by simp, middle_subset⟩
  have hqn : q ∉ kmallocHead :: (freeNodes live xs ++ freeNodes live ys) := by
    have hqh : q ≠ kmallocHead := fun e => head_notin_cells h (e ▸ by simp)
    simp only [List.mem_cons, List.mem_append, mem_freeNodes]
    tauto
  obtain ⟨hl, hm⟩ := allocationDllInsert_linked hlinked (h.separate hsub) hqn ha
  have hsize {c : ℕ} (hc : c ∈ kmallocHead :: (xs ++ q :: ys)) :
      size (allocationDllInsert s.mem a q) c = size s.mem c := hm c (h.noLink hc hsub)
  refine ⟨⟨?_, ?_, ?_, ?_, ?_, ?_, h.top⟩, ?_⟩
  · exact h.tiled.congr fun c hc => congrArg (headerSize + ·) (hsize (List.mem_cons_of_mem _ hc))
  · exact (hsize List.mem_cons_self).trans h.head_size
  · rw [freeNodes_free (by simp), freeNodes_update _ hqx, freeNodes_update _ hqy]
    exact hl
  · intro c hc
    rw [hsize (List.mem_cons_of_mem _ hc)]
    exact h.aligned c hc
  · intro b hb
    by_cases hbq : b = q + headerSize
    · rw [hbq, Function.update_self] at hb
      exact absurd rfl hb
    · rw [Function.update_of_ne hbq] at hb
      exact h.live_cell b hb
  · intro c n hc hcn
    rw [hsize (List.mem_cons_of_mem _ hc)]
    by_cases hcq : c = q
    · rw [hcq, Function.update_self] at hcn
      cases hcn
    · rw [Function.update_of_ne (fun e => hcq (Nat.add_right_cancel e))] at hcn
      exact h.requested c n hc hcn
  · intro c hc
    have hcq : c + headerSize ≠ q + headerSize := by
      intro e
      rw [e, Function.update_self] at hc
      exact hc rfl
    rw [Function.update_of_ne hcq] at hc
    obtain ⟨c', hc', he⟩ := h.live_cell _ hc
    obtain rfl := Nat.add_right_cancel he
    refine ⟨hsize (List.mem_cons_of_mem _ hc'), fun w h1 h2 => hm w fun d hd => ?_⟩
    have hout : Outside s.mem (freeNodes live (xs ++ q :: ys)) w :=
      h.outside hc ((Nat.le_add_right c headerSize).trans h1) h2
    rw [freeNodes_live hq] at hout
    rcases List.mem_cons.1 hd with rfl | hd
    · have := h.apart (List.mem_cons_of_mem _ hc') (hsub hd) fun e => hcq (by rw [e])
      unfold cell headerSize at *
      omega
    · exact hout.noLink d hd

/-- The size word of a cell is changed, the links are not. -/
theorem Represents.linked_setSize (h : Represents heapPages live s cells) {v : ℕ}
    (hq : NoLink (kmallocHead :: freeNodes live cells) q) :
    Linked (next (setSize s.mem q v)) (prev (setSize s.mem q v)) kmallocHead
      (freeNodes live cells) := by
  apply h.linked.congr
  · intro c hc
    exact Function.update_of_ne (hq c hc).2.symm v s.mem
  · intro c hc
    exact Function.update_of_ne (hq c hc).1.symm v s.mem

/-- Two free nodes next to each other become one. -/
theorem Represents.merge {n : ℕ} (h : Represents heapPages live s (xs ++ p :: n :: ys))
    (hp : live (p + headerSize) = none) (hn : live (n + headerSize) = none)
    {m' : Words} (hm' : m' = allocationDllDelete
      (setSize s.mem p (size s.mem p + (headerSize + size s.mem n))) n) :
    Represents heapPages live { s with mem := m' } (xs ++ p :: ys) ∧ Kept live s.mem m' := by
  have hfree : freeNodes live (xs ++ p :: n :: ys)
      = (freeNodes live xs ++ [p]) ++ n :: freeNodes live ys := by
    rw [freeNodes_free hp, ← List.nil_append (n :: ys), freeNodes_free hn]
    simp [freeNodes]
  have hlinked := h.linked_setSize (v := size s.mem p + (headerSize + size s.mem n))
    (h.noLink (c := p) (by simp) freeNodes_subset)
  rw [hfree] at hlinked
  obtain ⟨hl, hm⟩ := allocationDllDelete_linked hlinked (hfree ▸ h.separate freeNodes_subset)
  rw [← hm'] at hl hm
  have hsub : kmallocHead :: (freeNodes live xs ++ [p] ++ freeNodes live ys) ⊆
      kmallocHead :: freeNodes live (xs ++ p :: n :: ys) := by
    rw [hfree]
    exact List.cons_subset_cons _ middle_subset_insert
  have hsize {c : ℕ} (hc : c ∈ kmallocHead :: (xs ++ p :: n :: ys)) : size m' c =
      if c = p then size s.mem p + (headerSize + size s.mem n) else size s.mem c := by
    rw [size, hm c (h.noLink hc fun d hd => freeNodes_subset (hsub hd)), setSize, Function.update_apply]
    rfl
  obtain ⟨hpx, hpy⟩ := h.notin
  have hcells {c : ℕ} (hc : c ∈ xs ++ p :: ys) : c ∈ xs ++ p :: n :: ys := by
    simp only [List.mem_append, List.mem_cons] at hc ⊢
    tauto
  have hsame {c : ℕ} (hc : c ∈ xs ++ p :: n :: ys) (hcp : c ≠ p) : size m' c = size s.mem c := by
    rw [hsize (List.mem_cons_of_mem _ hc), if_neg hcp]
  have hpp : size m' p = size s.mem p + (headerSize + size s.mem n) := by
    rw [hsize (by simp), if_pos rfl]
  refine ⟨⟨?_, ?_, ?_, ?_, ?_, ?_, h.top⟩, ?_⟩
  · obtain ⟨hxs, hnys⟩ := tiled_middle.1 h.tiled
    obtain ⟨hnp, hys⟩ := hnys
    refine tiled_middle.2 ⟨hxs.congr fun c hc => ?_, ?_⟩
    · exact congrArg (headerSize + ·) (hsame (by simp [hc]) fun e => hpx (e ▸ hc))
    · have hend : p + cell m' p = p + cell s.mem p + cell s.mem n := by
        rw [cell, hpp, cell, cell]
        omega
      rw [hend, ← hnp]
      rw [← hnp] at hys
      exact hys.congr fun c hc => congrArg (headerSize + ·)
        (hsame (by simp [hc]) fun e => hpy (List.mem_cons_of_mem _ (e ▸ hc)))
  · rw [hsize List.mem_cons_self, if_neg h.head_ne]
    exact h.head_size
  · rw [freeNodes_free hp]
    simpa using hl
  · intro c hc
    by_cases hcp : c = p
    · rw [hcp, hpp]
      have h1 := h.aligned p (by simp)
      have h2 := h.aligned n (by simp)
      unfold headerSize
      omega
    · rw [hsame (hcells hc) hcp]
      exact h.aligned c (hcells hc)
  · intro a ha
    obtain ⟨c, hc, rfl⟩ := h.live_cell a ha
    refine ⟨c, ?_, rfl⟩
    have hcn : c ≠ n := fun e => ha (e ▸ hn)
    simp only [List.mem_append, List.mem_cons] at hc ⊢
    tauto
  · intro c k hc hck
    have hcp : c ≠ p := by
      rintro rfl
      rw [hp] at hck
      cases hck
    rw [hsame (hcells hc) hcp]
    exact h.requested c k (hcells hc) hck
  · refine h.kept fun w hw => ?_
    have hwp : w ≠ p := by
      have := hw p (List.mem_cons_of_mem _ (mem_freeNodes.2 ⟨by simp, hp⟩))
      have := cell_pos s.mem p
      omega
    rw [hm w fun c hc => hw.noLink c (hsub hc), setSize, Function.update_of_ne hwp]

/-- A free node is cut in two. -/
theorem Represents.split {bytes : ℕ} (h : Represents heapPages live s (xs ++ p :: ys))
    (hp : live (p + headerSize) = none) (hb : bytes + headerSize ≤ size s.mem p) (h8 : 8 ∣ bytes)
    (hq : q = p + headerSize + bytes) {m' : Words} (hm' : m' = allocationDllInsert
      (setSize (setSize s.mem q (size s.mem p - bytes - headerSize)) p bytes) p q) :
    Represents heapPages live { s with mem := m' } (xs ++ p :: q :: ys) ∧ Kept live s.mem m' ∧
      size m' p = bytes := by
  have hsub : kmallocHead :: freeNodes live (xs ++ p :: ys) ⊆ kmallocHead :: (xs ++ p :: ys) :=
    freeNodes_subset
  have hsep := h.separate hsub
  have hpc : p ∈ kmallocHead :: (xs ++ p :: ys) := by simp
  have hin : p + headerSize ≤ q ∧ q + headerSize ≤ p + cell s.mem p := by
    unfold cell
    omega
  -- the new header lies in the payload of `p`
  have hfar {c : ℕ} (hc : c ∈ kmallocHead :: (xs ++ p :: ys)) :
      c + headerSize ≤ q ∨ q + headerSize ≤ c := by
    by_cases hcp : c = p
    · omega
    · have := h.apart hc hpc hcp
      unfold cell at this hin
      omega
  have hqc : q ∉ kmallocHead :: (xs ++ p :: ys) := by
    intro hqc
    have := hfar hqc
    unfold headerSize at this
    omega
  have hqlive : live (q + headerSize) = none := by
    by_contra hne
    obtain ⟨c, hc, he⟩ := h.live_cell _ hne
    obtain rfl := Nat.add_right_cancel he
    exact hqc (List.mem_cons_of_mem _ hc)
  have hfree : freeNodes live (xs ++ p :: ys) = freeNodes live xs ++ p :: freeNodes live ys :=
    freeNodes_free hp
  have hsepq : Separate (q :: kmallocHead :: freeNodes live (xs ++ p :: ys)) := by
    intro c hc d hd hne
    rcases List.mem_cons.1 hc with hcq | hc'
    · rcases List.mem_cons.1 hd with hdq | hd'
      · exact absurd (hcq.trans hdq.symm) hne
      · exact hcq ▸ (hfar (freeNodes_subset hd')).symm
    · rcases List.mem_cons.1 hd with hdq | hd'
      · exact hdq ▸ hfar (freeNodes_subset hc')
      · exact hsep c hc' d hd' hne
  have hqlink : NoLink (kmallocHead :: freeNodes live (xs ++ p :: ys)) q := by
    intro c hc
    have := hfar (freeNodes_subset hc)
    unfold headerSize at this
    omega
  have hlinked : Linked (next (setSize (setSize s.mem q (size s.mem p - bytes - headerSize)) p bytes))
      (prev (setSize (setSize s.mem q (size s.mem p - bytes - headerSize)) p bytes)) kmallocHead
      ((freeNodes live xs ++ [p]) ++ freeNodes live ys) := by
    have hplink := h.noLink hpc hsub
    have hl : Linked (next (setSize (setSize s.mem q (size s.mem p - bytes - headerSize)) p bytes))
        (prev (setSize (setSize s.mem q (size s.mem p - bytes - headerSize)) p bytes)) kmallocHead
        (freeNodes live (xs ++ p :: ys)) := by
      apply (h.linked_setSize hqlink).congr
      · intro c hc
        exact Function.update_of_ne (hplink c hc).2.symm _ _
      · intro c hc
        exact Function.update_of_ne (hplink c hc).1.symm _ _
    rw [hfree] at hl
    simpa using hl
  have hfree' : (freeNodes live xs ++ [p]) ++ freeNodes live ys = freeNodes live (xs ++ p :: ys) := by
    simp [hfree]
  obtain ⟨hl, hm⟩ := allocationDllInsert_linked hlinked (by rw [hfree']; exact hsepq)
    (by rw [hfree']; exact fun hq => hqc (freeNodes_subset hq))
    (a := p) (by rw [← List.cons_append, List.getLast?_append]; rfl)
  rw [← hm'] at hl hm
  rw [hfree'] at hm
  have hsize {c : ℕ} (hc : c ∈ kmallocHead :: (xs ++ p :: ys)) :
      size m' c = if c = p then bytes else size s.mem c := by
    have hcq : c ≠ q := fun e => hqc (e ▸ hc)
    have hlink : NoLink (q :: kmallocHead :: freeNodes live (xs ++ p :: ys)) c := by
      intro d hd
      rcases List.mem_cons.1 hd with rfl | hd
      · have := hfar hc
        unfold headerSize at this
        omega
      · exact h.noLink hc freeNodes_subset d hd
    simp only [size, hm c hlink, setSize, Function.update_apply, if_neg hcq]
  have hqsize : size m' q = size s.mem p - bytes - headerSize := by
    have hlink : NoLink (q :: kmallocHead :: freeNodes live (xs ++ p :: ys)) q := by
      intro d hd
      rcases List.mem_cons.1 hd with rfl | hd
      · omega
      · exact hqlink d hd
    have hqp : q ≠ p := fun e => hqc (e ▸ hpc)
    simp only [size, hm q hlink, setSize, Function.update_apply, if_neg hqp, if_true]
  obtain ⟨hpx, hpy⟩ := h.notin
  have hsame {c : ℕ} (hc : c ∈ xs ++ p :: ys) (hcp : c ≠ p) : size m' c = size s.mem c := by
    rw [hsize (List.mem_cons_of_mem _ hc), if_neg hcp]
  have hpp : size m' p = bytes := by rw [hsize hpc, if_pos rfl]
  have hcases {c : ℕ} (hc : c ∈ xs ++ p :: q :: ys) : c = q ∨ c ∈ xs ++ p :: ys := by
    simp only [List.mem_append, List.mem_cons] at hc ⊢
    tauto
  refine ⟨⟨?_, ?_, ?_, ?_, ?_, ?_, h.top⟩, ?_, hpp⟩
  · obtain ⟨hxs, hys⟩ := tiled_middle.1 h.tiled
    refine tiled_middle.2 ⟨hxs.congr fun c hc => ?_, ?_, ?_⟩
    · exact congrArg (headerSize + ·) (hsame (by simp [hc]) fun e => hpx (e ▸ hc))
    · rw [cell, hpp]
      omega
    · have hend : p + cell m' p + cell m' (p + cell m' p) = p + cell s.mem p := by
        have hpq : p + cell m' p = q := by
          rw [cell, hpp]
          omega
        rw [hpq, cell, hqsize, cell]
        omega
      rw [hend]
      exact hys.congr fun c hc => congrArg (headerSize + ·)
        (hsame (by simp [hc]) fun e => hpy (e ▸ hc))
  · rw [hsize List.mem_cons_self, if_neg h.head_ne]
    exact h.head_size
  · rw [freeNodes_free hp, ← List.nil_append (q :: ys), freeNodes_free hqlive]
    simpa [freeNodes] using hl
  · intro c hc
    rcases hcases hc with rfl | hc
    · rw [hqsize]
      have := h.aligned p (by simp)
      unfold headerSize at hb ⊢
      omega
    · by_cases hcp : c = p
      · rw [hcp, hpp]
        exact h8
      · rw [hsame hc hcp]
        exact h.aligned c hc
  · intro a ha
    obtain ⟨c, hc, rfl⟩ := h.live_cell a ha
    refine ⟨c, ?_, rfl⟩
    simp only [List.mem_append, List.mem_cons] at hc ⊢
    tauto
  · intro c k hc hck
    have hcp : c ≠ p := by
      rintro rfl
      rw [hp] at hck
      cases hck
    rcases hcases hc with rfl | hc
    · rw [hqlive] at hck
      cases hck
    · rw [hsame hc hcp]
      exact h.requested c k hc hck
  · refine h.kept fun w hw => ?_
    have hwp := hw p (List.mem_cons_of_mem _ (mem_freeNodes.2 ⟨by simp, hp⟩))
    have hlink : NoLink (q :: kmallocHead :: freeNodes live (xs ++ p :: ys)) w := by
      intro d hd
      rcases List.mem_cons.1 hd with rfl | hd
      · unfold headerSize at hin
        omega
      · exact hw.noLink d hd
    have := cell_pos s.mem p
    have hwq : w ≠ q := by
      unfold headerSize at hin
      omega
    have hwp' : w ≠ p := by omega
    simp only [hm w hlink, setSize, Function.update_apply, if_neg hwq, if_neg hwp']

/-- New pages at the top become a free node. -/
theorem Represents.grow {k : ℕ} (h : Represents heapPages live s cells) (hk : 1 ≤ k)
    (htop : s.kernelHeapVaddr + PAGE_SIZE * k ≤ KERNEL_HEAP_START_VADDR + PAGE_SIZE * heapPages)
    {m m' : Words} (hm : m = setSize (zeroRange s.mem s.kernelHeapVaddr
      (s.kernelHeapVaddr + PAGE_SIZE * k)) s.kernelHeapVaddr (PAGE_SIZE * k - headerSize))
    (hm' : m' = allocationDllInsert m (prev m kmallocHead) s.kernelHeapVaddr) :
    Represents heapPages live ⟨m', s.kernelHeapVaddr + PAGE_SIZE * k⟩
        (cells ++ [s.kernelHeapVaddr]) ∧ Kept live s.mem m' ∧
      size m' s.kernelHeapVaddr = PAGE_SIZE * k - headerSize ∧
      live (s.kernelHeapVaddr + headerSize) = none := by
  obtain ⟨k', hk', hkp, htop'⟩ := h.top
  obtain ⟨b, hb⟩ := exists_last kmallocHead (freeNodes live cells)
  have hlt {c : ℕ} (hc : c ∈ kmallocHead :: cells) : c + headerSize ≤ s.kernelHeapVaddr := by
    rcases List.mem_cons.1 hc with rfl | hc
    · exact h.tiled.le
    · have := (h.tiled.bounds hc).2
      unfold cell at this
      omega
  have hmem {w : ℕ} (hw : w < s.kernelHeapVaddr) : m w = s.mem w := by
    rw [hm, setSize, Function.update_of_ne (Nat.ne_of_lt hw), zeroRange,
      if_neg fun hw' => Nat.not_le_of_lt hw hw'.1]
  have htopn : s.kernelHeapVaddr ∉ kmallocHead :: cells := by
    intro hc
    have := hlt hc
    unfold headerSize at this
    omega
  have hlive : live (s.kernelHeapVaddr + headerSize) = none := by
    by_contra hne
    obtain ⟨c, hc, he⟩ := h.live_cell _ hne
    obtain rfl := Nat.add_right_cancel he
    exact htopn (List.mem_cons_of_mem _ hc)
  have hlinked : Linked (next m) (prev m) kmallocHead (freeNodes live cells ++ []) := by
    rw [List.append_nil]
    apply h.linked.congr
    · intro c hc
      have := hlt (freeNodes_subset hc)
      exact hmem (by unfold headerSize at this; omega)
    · intro c hc
      have := hlt (freeNodes_subset hc)
      exact hmem (by unfold headerSize at this; omega)
  have hsep : Separate (s.kernelHeapVaddr :: kmallocHead :: (freeNodes live cells ++ [])) := by
    rw [List.append_nil]
    intro c hc d hd hne
    rcases List.mem_cons.1 hc with hct | hc'
    · rcases List.mem_cons.1 hd with hdt | hd'
      · exact absurd (hct.trans hdt.symm) hne
      · exact hct ▸ Or.inr (hlt (freeNodes_subset hd'))
    · rcases List.mem_cons.1 hd with hdt | hd'
      · exact hdt ▸ Or.inl (hlt (freeNodes_subset hc'))
      · exact h.separate freeNodes_subset c hc' d hd' hne
  have hlast : prev m kmallocHead = b := (hlinked.next_eq _ _ hb rfl).2
  rw [hlast] at hm'
  obtain ⟨hl, hframe⟩ := allocationDllInsert_linked hlinked hsep
    (by rw [List.append_nil]; exact fun hc => htopn (freeNodes_subset hc)) hb
  rw [← hm'] at hl hframe
  rw [List.append_nil] at hframe
  have hlink {w : ℕ} (hn : NoLink (kmallocHead :: freeNodes live cells) w)
      (hw : w ≤ s.kernelHeapVaddr) : m' w = m w := by
    apply hframe
    intro c hc
    rcases List.mem_cons.1 hc with rfl | hc
    · omega
    · exact hn c hc
  have hsize {c : ℕ} (hc : c ∈ kmallocHead :: cells) : size m' c = size s.mem c := by
    have := hlt hc
    unfold headerSize at this
    exact (hlink (h.noLink hc freeNodes_subset) (by omega)).trans (hmem (by omega))
  have htsize : size m' s.kernelHeapVaddr = PAGE_SIZE * k - headerSize := by
    have hn : NoLink (kmallocHead :: freeNodes live cells) s.kernelHeapVaddr := by
      intro c hc
      have := hlt (freeNodes_subset hc)
      unfold headerSize at this
      omega
    rw [size, hlink hn (le_refl _), hm, setSize, Function.update_self]
  refine ⟨⟨?_, ?_, ?_, ?_, ?_, ?_, ?_⟩, ?_, htsize, hlive⟩
  · refine tiled_middle.2 ⟨h.tiled.congr fun c hc => ?_, ?_⟩
    · exact congrArg (headerSize + ·) (hsize (List.mem_cons_of_mem _ hc))
    · change s.kernelHeapVaddr + cell m' s.kernelHeapVaddr = s.kernelHeapVaddr + PAGE_SIZE * k
      rw [cell, htsize]
      unfold headerSize PAGE_SIZE
      omega
  · exact (hsize List.mem_cons_self).trans h.head_size
  · rw [freeNodes_append, show freeNodes live [s.kernelHeapVaddr] = [s.kernelHeapVaddr] by
      simp [freeNodes, hlive]]
    exact hl
  · intro c hc
    rcases List.mem_append.1 hc with hc | hc
    · rw [hsize (List.mem_cons_of_mem _ hc)]
      exact h.aligned c hc
    · rw [List.mem_singleton.1 hc, htsize]
      unfold headerSize PAGE_SIZE
      omega
  · intro a ha
    obtain ⟨c, hc, rfl⟩ := h.live_cell a ha
    exact ⟨c, List.mem_append_left _ hc, rfl⟩
  · intro c n hc hcn
    rcases List.mem_append.1 hc with hc | hc
    · rw [hsize (List.mem_cons_of_mem _ hc)]
      exact h.requested c n hc hcn
    · rw [List.mem_singleton.1 hc, hlive] at hcn
      cases hcn
  · refine ⟨k' + k, by omega, ?_, ?_⟩
    · unfold PAGE_SIZE at htop htop'
      omega
    · rw [htop', Nat.mul_add]
      exact Nat.add_assoc _ _ _
  · intro c hc
    obtain ⟨c', hc', he⟩ := h.live_cell _ hc
    obtain rfl := Nat.add_right_cancel he
    refine ⟨hsize (List.mem_cons_of_mem _ hc'), fun w h1 h2 => ?_⟩
    have hwt := (h.tiled.bounds hc').2
    have hout := h.outside hc ((Nat.le_add_right c headerSize).trans h1) h2
    exact (hlink hout.noLink (by omega)).trans (hmem (by omega))

/-- The last node gives up its last page. -/
theorem Represents.shrink (h : Represents heapPages live s (xs ++ [p]))
    (hp : live (p + headerSize) = none) (hsize : PAGE_SIZE ≤ size s.mem p) {m' : Words}
    (hm' : m' = setSize s.mem p (size s.mem p - PAGE_SIZE)) :
    Represents heapPages live ⟨m', s.kernelHeapVaddr - PAGE_SIZE⟩ (xs ++ [p]) ∧
      Kept live s.mem m' := by
  obtain ⟨k, hk, hkp, htop⟩ := h.top
  have hpc : p ∈ kmallocHead :: (xs ++ [p]) := by simp
  have hsub : kmallocHead :: freeNodes live (xs ++ [p]) ⊆ kmallocHead :: (xs ++ [p]) :=
    freeNodes_subset
  have hplink := h.noLink hpc hsub
  obtain ⟨hxs, hend⟩ := tiled_middle.1 h.tiled
  have hend : p + cell s.mem p = s.kernelHeapVaddr := hend
  have hple := hxs.le
  obtain ⟨hpx, -⟩ := h.notin
  have hpp : size m' p = size s.mem p - PAGE_SIZE := by
    rw [size, hm', setSize, Function.update_self]
  have hother {w : ℕ} (hw : w ≠ p) : m' w = s.mem w := by
    rw [hm', setSize, Function.update_of_ne hw]
  have hsame {c : ℕ} (hc : c ≠ p) : size m' c = size s.mem c := hother hc
  refine ⟨⟨?_, ?_, ?_, ?_, h.live_cell, ?_, k - 1, ?_, by omega, ?_⟩, ?_⟩
  · refine tiled_middle.2 ⟨hxs.congr fun c hc => ?_, ?_⟩
    · exact congrArg (headerSize + ·) (hother fun e => hpx (e ▸ hc))
    · change p + cell m' p = s.kernelHeapVaddr - PAGE_SIZE
      rw [← hend, cell, hpp, cell]
      omega
  · exact (hother h.head_ne).trans h.head_size
  · rw [hm']
    exact h.linked_setSize hplink
  · intro c hc
    by_cases hcp : c = p
    · rw [hcp, hpp]
      have := h.aligned p (by simp)
      unfold PAGE_SIZE at *
      omega
    · rw [hsame hcp]
      exact h.aligned c hc
  · intro c n hc hcn
    have hcp : c ≠ p := by
      rintro rfl
      rw [hp] at hcn
      cases hcn
    rw [hsame hcp]
    exact h.requested c n hc hcn
  · unfold cell kmallocHead headerSize PAGE_SIZE at *
    omega
  · change s.kernelHeapVaddr - PAGE_SIZE = _
    rw [htop]
    unfold PAGE_SIZE
    omega
  · refine h.kept fun w hw => hother ?_
    rintro rfl
    have := hw w (List.mem_cons_of_mem _ (mem_freeNodes.2 ⟨by simp, hp⟩))
    have := cell_pos s.mem w
    omega

/-- The bytes of a live block, its header apart, may change. -/
theorem Represents.payload (h : Represents heapPages live s cells) (hc : c ∈ cells)
    (hlive : live (c + headerSize) ≠ none)
    (hm : ∀ w, w < c + headerSize ∨ c + cell s.mem c ≤ w → m' w = s.mem w) :
    Represents heapPages live { s with mem := m' } cells := by
  have hsize {d : ℕ} (hd : d ∈ kmallocHead :: cells) : size m' d = size s.mem d := by
    apply hm
    by_cases hdc : d = c
    · unfold headerSize
      omega
    · have := h.apart hd (List.mem_cons_of_mem _ hc) hdc
      have := cell_pos s.mem d
      omega
  have hlink {d : ℕ} (hd : d ∈ kmallocHead :: freeNodes live cells) :
      m' (d + 8) = s.mem (d + 8) ∧ m' (d + 16) = s.mem (d + 16) := by
    have hdc : d ≠ c := by
      rintro rfl
      rcases List.mem_cons.1 hd with rfl | hd
      · exact head_notin_cells h hc
      · exact hlive (mem_freeNodes.1 hd).2
    have := h.apart (freeNodes_subset hd) (List.mem_cons_of_mem _ hc) hdc
    unfold cell headerSize at *
    exact ⟨hm _ (by omega), hm _ (by omega)⟩
  refine ⟨?_, ?_, ?_, ?_, h.live_cell, ?_, h.top⟩
  · exact h.tiled.congr fun d hd => congrArg (headerSize + ·) (hsize (List.mem_cons_of_mem _ hd))
  · exact (hsize List.mem_cons_self).trans h.head_size
  · exact h.linked.congr (fun d hd => (hlink hd).2) fun d hd => (hlink hd).1
  · intro d hd
    rw [hsize (List.mem_cons_of_mem _ hd)]
    exact h.aligned d hd
  · intro d n hd hdn
    rw [hsize (List.mem_cons_of_mem _ hd)]
    exact h.requested d n hd hdn

/-! ## The loops -/

section Loops

variable (hpages : heapPages < 2 ^ 19)
include hpages

theorem Represents.top_lt (h : Represents heapPages live s cells) :
    s.kernelHeapVaddr < KERNEL_HEAP_START_VADDR + 2 ^ 31 := by
  obtain ⟨k, -, hk, htop⟩ := h.top
  unfold PAGE_SIZE at htop
  omega

theorem Represents.cell_le (h : Represents heapPages live s cells) (hc : c ∈ cells) :
    kmallocHead + headerSize ≤ c ∧ c + cell s.mem c < KERNEL_HEAP_START_VADDR + 2 ^ 31 := by
  obtain ⟨h1, h2⟩ := h.tiled.bounds hc
  exact ⟨h1, Nat.lt_of_le_of_lt h2 (h.top_lt hpages)⟩

omit hpages in
theorem Represents.length_lt (h : Represents heapPages live s cells) : cells.length < fuel s := by
  have hm : ∀ c ∈ cells, headerSize ≤ cell s.mem c := fun c _ => Nat.le_add_right _ _
  have := h.tiled.length_le hm
  unfold fuel kmallocHead headerSize at *
  omega

/-- All of these cells are live blocks. -/
def AllLive (live : ℕ → Option ℕ) (l : List ℕ) : Prop := ∀ c ∈ l, live (c + headerSize) ≠ none

omit hpages in
/-- The node that follows in the list is the next free one. -/
theorem Represents.next_node (h : Represents heapPages live s (xs ++ ys))
    (hp : (kmallocHead :: freeNodes live xs).getLast? = some p) :
    next s.mem p = kmallocHead ∧ AllLive live ys ∨
      ∃ zs ws, ys = zs ++ next s.mem p :: ws ∧ live (next s.mem p + headerSize) = none ∧
        AllLive live zs := by
  have hlinked := h.linked
  rw [freeNodes_append] at hlinked
  obtain ⟨d, hd⟩ := exists_head (freeNodes live ys) kmallocHead
  rw [(hlinked.next_eq _ _ hp hd).1]
  cases hys : freeNodes live ys with
  | nil =>
    rw [hys] at hd
    refine Or.inl ⟨(Option.some.inj hd).symm, fun c hc hnone => ?_⟩
    have hmem := mem_freeNodes.2 ⟨hc, hnone⟩
    rw [hys] at hmem
    exact absurd hmem List.not_mem_nil
  | cons e es =>
    rw [hys] at hd
    obtain rfl : e = d := Option.some.inj hd
    obtain ⟨zs, ws, hzw, hzs, he, -⟩ := List.filter_eq_cons_iff.1 hys
    refine Or.inr ⟨zs, ws, hzw, Option.isNone_iff_eq_none.1 he, fun c hc hnone => hzs c hc ?_⟩
    exact Option.isNone_iff_eq_none.2 hnone

omit hpages in
theorem Represents.next_free (h : Represents heapPages live s (xs ++ p :: ys))
    (hp : live (p + headerSize) = none) :
    next s.mem p = kmallocHead ∧ AllLive live ys ∨
      ∃ zs ws, ys = zs ++ next s.mem p :: ws ∧ live (next s.mem p + headerSize) = none ∧
        AllLive live zs := by
  rw [List.append_cons] at h
  apply h.next_node
  rw [freeNodes_free hp, ← List.cons_append, List.getLast?_append]
  rfl

/-- No free cell has a free one right after it. -/
def Coalesced (live : ℕ → Option ℕ) (cells : List ℕ) : Prop :=
  cells.IsChain fun c d => live (c + headerSize) = none → live (d + headerSize) ≠ none

omit hpages in
theorem coalesced_of_allLive (h : AllLive live xs) : Coalesced live xs := by
  refine List.isChain_iff_forall_rel_of_append_cons_cons.2 fun {c d l r} hl hc => ?_
  exact absurd hc (h c (by rw [hl]; simp))

omit hpages in
/-- After a free cell come live ones, up to the next free cell. -/
theorem Coalesced.extend (h : Coalesced live (xs ++ [p])) (hys : AllLive live ys) :
    Coalesced live ((xs ++ [p]) ++ ys) := by
  refine List.isChain_append.2 ⟨h, coalesced_of_allLive hys, fun c _ d hd _ => ?_⟩
  exact hys d (List.mem_of_head? hd)

theorem Represents.coalesceNode (h : Represents heapPages live s (xs ++ p :: ys))
    (hp : live (p + headerSize) = none) {n : ℕ} (hn : ys.length < n) :
    ∃ m' ys', coalesceNode n s.mem p = some m' ∧
      Represents heapPages live { s with mem := m' } (xs ++ p :: ys') ∧ Kept live s.mem m' ∧
      ys' <:+ ys ∧ ∀ d ∈ ys'.head?, live (d + headerSize) ≠ none := by
  induction n generalizing s ys with
  | zero => exact absurd hn (Nat.not_lt_zero _)
  | succ n ih =>
    have hb := h.cell_le hpages (c := p) (by simp)
    unfold cell kmallocHead headerSize KERNEL_HEAP_START_VADDR at hb
    have hend : add64 p (add64 (size s.mem p) headerSize) = p + cell s.mem p := by
      unfold add64 cell headerSize
      omega
    rw [KernelHeap.coalesceNode, hend]
    by_cases hnext : p + cell s.mem p = next s.mem p
    · rw [if_pos hnext]
      obtain ⟨-, htiled⟩ := tiled_middle.1 h.tiled
      rcases h.next_free hp with ⟨hhead, -⟩ | ⟨zs, ws, hzw, hfree, -⟩
      · have := cell_pos s.mem p
        rw [← hnext] at hhead
        unfold kmallocHead KERNEL_HEAP_START_VADDR at hhead
        omega
      · -- the next free node starts where `p` ends, so no cell lies between them
        obtain rfl : zs = [] := by
          cases zs with
          | nil => rfl
          | cons z zs =>
            rw [hzw] at htiled
            have := (htiled.2.bounds (c := next s.mem p) (by simp)).1
            have := cell_pos s.mem (p + cell s.mem p)
            omega
        subst hzw
        have hbn := h.cell_le hpages (c := next s.mem p) (by simp)
        unfold cell kmallocHead headerSize KERNEL_HEAP_START_VADDR at hbn
        have hsum : add64 (size s.mem p) (add64 headerSize (size s.mem (next s.mem p))) =
            size s.mem p + (headerSize + size s.mem (next s.mem p)) := by
          unfold add64 headerSize
          omega
        have hnp : next (setSize s.mem p (size s.mem p + (headerSize + size s.mem (next s.mem p)))) p
            = next s.mem p := Function.update_of_ne (by omega) _ _
        dsimp only
        rw [hsum, hnp]
        obtain ⟨hr, hk⟩ := Represents.merge h hp hfree rfl
        obtain ⟨m', ys', hm', hr', hk', hsuf, hlive⟩ :=
          ih hr (Nat.lt_of_succ_lt_succ (by simpa using hn))
        exact ⟨m', ys', hm', hr', hk.trans hk', hsuf.trans (List.suffix_cons _ _), hlive⟩
    · rw [if_neg hnext]
      refine ⟨s.mem, ys, rfl, h, fun c _ => ⟨rfl, fun _ _ _ => rfl⟩, List.suffix_refl ys,
        fun d hd hnone => ?_⟩
      -- a free cell right after `p` would be the next node
      cases ys with
      | nil => cases hd
      | cons y ys =>
        obtain rfl : y = d := Option.some.inj hd
        rcases h.next_free hp with ⟨-, hall⟩ | ⟨zs, ws, hzw, -, hzs⟩
        · exact hall y List.mem_cons_self hnone
        · cases zs with
          | nil =>
            obtain ⟨-, hyp, -⟩ := tiled_middle.1 h.tiled
            exact hnext (hyp.symm.trans (List.cons.inj hzw).1)
          | cons z zs =>
            obtain rfl := (List.cons.inj hzw).1
            exact hzs y List.mem_cons_self hnone

theorem Represents.coalesceFrom (h : Represents heapPages live s cells) {inner n : ℕ}
    (hinner : cells.length < inner)
    (hp : (p = kmallocHead ∧ 0 < n ∧ Coalesced live cells) ∨ ∃ xs ys, cells = xs ++ p :: ys ∧
      live (p + headerSize) = none ∧ ys.length + 1 < n ∧ Coalesced live (xs ++ [p])) :
    ∃ m' cells', coalesceFrom inner n s.mem p = some m' ∧
      Represents heapPages live { s with mem := m' } cells' ∧ Kept live s.mem m' ∧
      Coalesced live cells' := by
  induction n generalizing s cells p with
  | zero => omega
  | succ n ih =>
    rw [KernelHeap.coalesceFrom]
    by_cases hhead : p = kmallocHead
    · rw [if_pos hhead]
      have hdone : Coalesced live cells := by
        rcases hp with ⟨-, -, hc⟩ | ⟨xs, ys, rfl, -⟩
        · exact hc
        · exact absurd (hhead ▸ h.head_ne) (by simp)
      exact ⟨s.mem, cells, rfl, h, fun c _ => ⟨rfl, fun _ _ _ => rfl⟩, hdone⟩
    · obtain ⟨xs, ys, rfl, hfree, hn, hc⟩ := hp.resolve_left fun hp => hhead hp.1
      rw [List.length_append, List.length_cons] at hinner
      obtain ⟨m₁, ys₁, hm₁, hr₁, hk₁, hsuf, hlive⟩ :=
        h.coalesceNode hpages hfree (n := inner) (by omega)
      rw [if_neg hhead, hm₁]
      have hlen := hsuf.length_le
      have hinner₁ : (xs ++ p :: ys₁).length < inner := by
        rw [List.length_append, List.length_cons]
        omega
      obtain ⟨m', cells', hm', hr', hk', hc'⟩ := ih hr₁ hinner₁ (p := next m₁ p) (by
        rcases hr₁.next_free hfree with ⟨hnext, hall⟩ | ⟨zs, ws, hzw, hnfree, hzs⟩
        · refine Or.inl ⟨hnext, by omega, ?_⟩
          rw [List.append_cons]
          exact hc.extend hall
        · refine Or.inr ⟨xs ++ p :: zs, ws, by rw [hzw]; simp, hnfree, ?_, ?_⟩
          · rw [hzw, List.length_append, List.length_cons] at hlen
            omega
          · rw [List.append_cons xs p zs]
            refine List.isChain_append.2 ⟨hc.extend hzs, List.isChain_singleton _, ?_⟩
            intro c hlast d hd hcfree
            obtain rfl : next m₁ p = d := Option.some.inj hd
            -- the cell before the next free one is live, for `p` itself has a live one behind it
            cases zs with
            | nil => exact hlive _ (by rw [hzw]; rfl)
            | cons z zs =>
              have hmem : c ∈ z :: zs := by
                rw [List.getLast?_append_of_ne_nil _ (List.cons_ne_nil z zs)] at hlast
                exact List.mem_of_getLast? hlast
              exact absurd hcfree (hzs c hmem))
      exact ⟨m', cells', hm', hr', hk₁.trans hk', hc'⟩

theorem Represents.coalesceFreeList (h : Represents heapPages live s cells) :
    ∃ t cells', coalesceFreeList s = some t ∧ Represents heapPages live t cells' ∧
      Kept live s.mem t.mem ∧ t.kernelHeapVaddr = s.kernelHeapVaddr ∧ Coalesced live cells' := by
  have hlen := h.length_lt
  have h' : Represents heapPages live s ([] ++ cells) := h
  obtain ⟨m', cells', hm', hr, hk, hc⟩ := h.coalesceFrom hpages hlen (n := fuel s)
    (p := next s.mem kmallocHead) (by
      rcases h'.next_node rfl with ⟨hnext, hall⟩ | ⟨zs, ws, hzw, hfree, hzs⟩
      · exact Or.inl ⟨hnext, Nat.zero_lt_of_lt hlen, coalesced_of_allLive hall⟩
      · refine Or.inr ⟨zs, ws, hzw, hfree, ?_, ?_⟩
        · have := congrArg List.length hzw
          rw [List.length_append, List.length_cons] at this
          omega
        · refine List.isChain_append.2 ⟨coalesced_of_allLive hzs, List.isChain_singleton _, ?_⟩
          intro c hlast d _ hcfree
          exact absurd hcfree (hzs c (List.mem_of_getLast? hlast)))
  refine ⟨_, cells', ?_, hr, hk, rfl, hc⟩
  rw [KernelHeap.coalesceFreeList, hm']
  rfl

theorem Represents.shrinkFrom (h : Represents heapPages live s cells)
    (hp : p = kmallocHead ∨ p ∈ cells ∧ live (p + headerSize) = none) {n : ℕ}
    (hn : size s.mem p < PAGE_SIZE * n) :
    ∃ t, shrinkFrom p n s = some t ∧ Represents heapPages live t cells ∧ Kept live s.mem t.mem ∧
      t.kernelHeapVaddr ≤ s.kernelHeapVaddr ∧
      ¬(p + cell t.mem p = t.kernelHeapVaddr ∧ PAGE_SIZE ≤ size t.mem p) := by
  induction n generalizing s with
  | zero => exact absurd hn (Nat.not_lt_zero _)
  | succ n ih =>
    rw [KernelHeap.shrinkFrom]
    split
    next hc =>
      obtain ⟨hend, hsize⟩ := hc
      rcases hp with rfl | ⟨hpc, hfree⟩
      · rw [h.head_size] at hsize
        exact absurd hsize (by decide)
      · have hb := h.cell_le hpages hpc
        have htop := h.top_lt hpages
        unfold cell kmallocHead headerSize KERNEL_HEAP_START_VADDR at hb
        unfold KERNEL_HEAP_START_VADDR at htop
        have hend : p + cell s.mem p = s.kernelHeapVaddr := by
          rw [← hend]
          unfold add64 cell headerSize
          omega
        obtain ⟨xs, rfl⟩ := h.tiled.last_cell (fun c _ => cell_pos s.mem c) hpc hend
        obtain ⟨hr, hk⟩ := h.shrink hfree hsize rfl
        rw [sub64_eq hsize (by omega), sub64_eq (b := PAGE_SIZE) (by
          unfold cell at hend
          omega) (by omega)]
        have hdec : size (setSize s.mem p (size s.mem p - PAGE_SIZE)) p < PAGE_SIZE * n := by
          rw [size, setSize, Function.update_self]
          rw [Nat.mul_succ] at hn
          omega
        obtain ⟨t, ht, hrt, hkt, hle, hlast⟩ := ih hr hdec
        exact ⟨t, ht, hrt, hk.trans hkt, hle.trans (Nat.sub_le _ _), hlast⟩
    next hc =>
      refine ⟨s, rfl, h, fun c _ => ⟨rfl, fun _ _ _ => rfl⟩, le_refl _,
        fun hboth => hc ⟨?_, hboth.2⟩⟩
      have htop := h.top_lt hpages
      unfold KERNEL_HEAP_START_VADDR at htop
      rw [← hboth.1] at htop ⊢
      unfold cell headerSize at htop ⊢
      rw [add64_eq (by omega)]
      omega

omit hpages in
/-- The last node of the list. -/
theorem Represents.prev_head (h : Represents heapPages live s cells) :
    (kmallocHead :: freeNodes live cells).getLast? = some (prev s.mem kmallocHead) ∧
      (prev s.mem kmallocHead = kmallocHead ∨ prev s.mem kmallocHead ∈ cells ∧
        live (prev s.mem kmallocHead + headerSize) = none) := by
  obtain ⟨b, hb⟩ := exists_last kmallocHead (freeNodes live cells)
  have hl := h.linked
  rw [← List.append_nil (freeNodes live cells)] at hl
  rw [(hl.next_eq _ [] hb rfl).2]
  have hmem := List.mem_of_getLast? hb
  rw [List.mem_cons, mem_freeNodes] at hmem
  exact ⟨hb, hmem⟩

theorem Represents.heapShrink (h : Represents heapPages live s cells) :
    ∃ t, heapShrink s = some t ∧ Represents heapPages live t cells ∧ Kept live s.mem t.mem ∧
      t.kernelHeapVaddr ≤ s.kernelHeapVaddr ∧
      ∀ p, (kmallocHead :: freeNodes live cells).getLast? = some p →
        ¬(p + cell t.mem p = t.kernelHeapVaddr ∧ PAGE_SIZE ≤ size t.mem p) := by
  obtain ⟨hlast, hp⟩ := h.prev_head
  have hfuel : size s.mem (prev s.mem kmallocHead) < PAGE_SIZE * fuel s := by
    rcases hp with hhead | ⟨hbc, -⟩
    · rw [hhead, h.head_size]
      have := h.length_lt
      exact Nat.mul_pos (by decide) (Nat.zero_lt_of_lt this)
    · have := (h.tiled.bounds hbc).2
      generalize prev s.mem kmallocHead = b at this ⊢
      unfold cell headerSize at this
      unfold PAGE_SIZE fuel
      omega
  obtain ⟨t, ht, hrt, hkt, hle, hend⟩ := h.shrinkFrom hpages hp hfuel
  refine ⟨t, ht, hrt, hkt, hle, fun p hlast' => ?_⟩
  obtain rfl := Option.some.inj (hlast'.symm.trans hlast)
  exact hend

/-- How `kfree` leaves the free nodes: no two of them meet, and the last one, if it ends at the
top, is smaller than a page. -/
structure Settled (live : ℕ → Option ℕ) (t : Heap) (cells : List ℕ) : Prop where
  coalesced : Coalesced live cells
  trimmed (p : ℕ) : (kmallocHead :: freeNodes live cells).getLast? = some p →
    ¬(p + cell t.mem p = t.kernelHeapVaddr ∧ PAGE_SIZE ≤ size t.mem p)

omit hpages in
/-- No two free nodes meet. -/
theorem Settled.apart (hs : Settled live s cells) (h : Represents heapPages live s cells)
    (hc : c ∈ freeNodes live cells) (hd : d ∈ freeNodes live cells) : c + cell s.mem c ≠ d := by
  intro hcd
  obtain ⟨hcc, hcfree⟩ := mem_freeNodes.1 hc
  obtain ⟨hdc, hdfree⟩ := mem_freeNodes.1 hd
  obtain ⟨xs, ys, rfl⟩ := List.append_of_mem hcc
  obtain ⟨hxs, hys⟩ := tiled_middle.1 h.tiled
  have hcpos := cell_pos s.mem c
  have hdy : d ∈ ys := by
    rcases List.mem_append.1 hdc with hdx | hdy
    · have hbound := (hxs.bounds hdx).2
      omega
    · exact (List.mem_cons.1 hdy).resolve_left (by omega)
  cases ys with
  | nil => exact absurd hdy List.not_mem_nil
  | cons y ys =>
    -- the cell right after `c` starts where `d` does
    obtain ⟨hy, hrest⟩ := hys
    have hyd : y = d := by
      rcases List.mem_cons.1 hdy with rfl | hdy
      · rfl
      · have hbound := (hrest.bounds hdy).1
        have hypos := cell_pos s.mem (c + cell s.mem c)
        omega
    exact (List.isChain_append_cons_cons.1 hs.coalesced).2.1 hcfree (hyd ▸ hdfree)

omit hpages in
/-- Without live blocks the heap is one free node in one page. -/
theorem Settled.empty (hs : Settled live s cells) (h : Represents heapPages live s cells)
    (hnone : ∀ a, live a = none) :
    s.kernelHeapVaddr = KERNEL_HEAP_START_VADDR + PAGE_SIZE ∧
      freeNodes live cells = [kmallocHead + headerSize] ∧
      size s.mem (kmallocHead + headerSize) = PAGE_SIZE - 2 * headerSize := by
  obtain ⟨k, hk, -, htop⟩ := h.top
  have htiled := h.tiled
  match cells, htiled with
  | [], htiled =>
    have hend : kmallocHead + headerSize = s.kernelHeapVaddr := htiled
    unfold kmallocHead headerSize PAGE_SIZE at *
    omega
  | [c], htiled =>
    obtain ⟨rfl, hend⟩ := htiled
    have hfree : freeNodes live [kmallocHead + headerSize] = [kmallocHead + headerSize] := by
      simp [freeNodes, hnone]
    have hend : kmallocHead + headerSize + cell s.mem (kmallocHead + headerSize)
        = s.kernelHeapVaddr := hend
    have htrim := hs.trimmed (kmallocHead + headerSize) (by rw [hfree]; rfl)
    have hsmall : size s.mem (kmallocHead + headerSize) < PAGE_SIZE :=
      Nat.lt_of_not_le fun hge => htrim ⟨hend, hge⟩
    unfold cell at hend
    unfold kmallocHead headerSize PAGE_SIZE at *
    exact ⟨by omega, hfree, by omega⟩
  | c :: d :: cells, _ =>
    exact absurd (hnone _) ((List.isChain_cons_cons.1 hs.coalesced).1 (hnone _))

/-- The node of a live block goes back to the list, and the list is coalesced. -/
theorem Represents.returned {q : ℕ} (h : Represents heapPages live s cells)
    (hq : live (q + headerSize) ≠ none) :
    sub64 (q + headerSize) headerSize = q ∧ ∃ b u cells',
      search (next s.mem) (fun p => ¬ (next s.mem p < q ∧ next s.mem p ≠ kmallocHead)) (fuel s)
        kmallocHead = some b ∧
      KernelHeap.coalesceFreeList { s with mem := allocationDllInsert s.mem b q } = some u ∧
      Represents heapPages (Function.update live (q + headerSize) none) u cells' ∧
      Kept (Function.update live (q + headerSize) none) s.mem u.mem ∧
      u.kernelHeapVaddr = s.kernelHeapVaddr ∧
      Coalesced (Function.update live (q + headerSize) none) cells' := by
  have hlen := h.length_lt
  obtain ⟨c, hqc, he⟩ := h.live_cell _ hq
  obtain rfl := Nat.add_right_cancel he
  have hb := h.cell_le hpages hqc
  obtain ⟨xs, ys, rfl⟩ := List.append_of_mem hqc
  obtain ⟨b, hlast⟩ := exists_last kmallocHead (freeNodes live xs)
  have hlinked := h.linked
  rw [freeNodes_live hq] at hlinked
  unfold cell kmallocHead headerSize KERNEL_HEAP_START_VADDR at hb
  have hsub : sub64 (q + headerSize) headerSize = q := by
    rw [sub64_eq (by unfold headerSize; omega) (by unfold headerSize; omega), Nat.add_sub_cancel]
  obtain ⟨hxs, hys⟩ := tiled_middle.1 h.tiled
  have hsearch : search (next s.mem)
      (fun p => ¬ (next s.mem p < q ∧ next s.mem p ≠ kmallocHead)) (fuel s) kmallocHead
      = some b := by
    refine hlinked.search_last (fun d => ¬ (d < q ∧ d ≠ kmallocHead)) ?_ ?_ hlast ?_
    · intro c hc
      have hcx := (mem_freeNodes.1 hc).1
      have h1 := hxs.bounds hcx
      have h2 := cell_pos s.mem c
      have h3 : c ≠ kmallocHead := fun e => head_notin_cells h (e ▸ List.mem_append_left _ hcx)
      simpa using ⟨by omega, h3⟩
    · intro c hc
      rcases List.mem_append.1 hc with hc | hc
      · have h1 := hys.bounds (mem_freeNodes.1 hc).1
        have h2 := cell_pos s.mem q
        simp only [decide_eq_true_eq]
        omega
      · simp [List.mem_singleton.1 hc]
    · have hl : (freeNodes live xs ++ freeNodes live ys).length ≤ (xs ++ ys).length := by
        rw [← freeNodes_append]
        exact List.length_filter_le _ _
      simp only [List.length_append, List.length_cons] at hl hlen ⊢
      omega
  obtain ⟨hr, hk⟩ := h.release hq hlast
  obtain ⟨u, cells', hu, hru, hku, htop, hc⟩ := hr.coalesceFreeList hpages
  exact ⟨hsub, b, u, cells', hsearch, hu, hru, hk.trans hku, htop, hc⟩

/-- `kfree` of a live block. -/
theorem Represents.kfree (h : Represents heapPages live s cells) (hq : live a ≠ none) :
    ∃ t cells', kfree s a = some t ∧
      Represents heapPages (Function.update live a none) t cells' ∧
      Kept (Function.update live a none) s.mem t.mem ∧
      t.kernelHeapVaddr ≤ s.kernelHeapVaddr ∧ Settled (Function.update live a none) t cells' := by
  obtain ⟨q, -, rfl⟩ := h.live_cell a hq
  obtain ⟨hsub, b, u, cells', hsearch, hu, hru, hku, htop, hc⟩ := h.returned hpages hq
  obtain ⟨t, ht, hrt, hkt, hle, htrim⟩ := hru.heapShrink hpages
  refine ⟨t, cells', ?_, hrt, hku.trans hkt, htop ▸ hle, hc, htrim⟩
  have hne : q + headerSize ≠ 0 := Nat.succ_ne_zero _
  rw [KernelHeap.kfree, if_neg hne, hsub]
  simp only [freeNode, hsearch, hu, ht]

/-! ## Allocation -/

omit hpages in
theorem roundUp_spec {bytes : ℕ} (hb : bytes < 2 ^ 31 - 8192) :
    bytes ≤ roundUp bytes ∧ roundUp bytes ≤ 2 ^ 31 - 8192 ∧ 8 ∣ roundUp bytes := by
  unfold roundUp add64
  omega

omit hpages in
theorem pagesToAlloc_eq {bytes : ℕ} (hb : bytes ≤ 2 ^ 31 - 8192) :
    (bytes + headerSize + (PAGE_SIZE - 1)) / PAGE_SIZE < 2 ^ 19 ∧
      pagesToAlloc bytes = BitVec.ofNat 32 ((bytes + headerSize + (PAGE_SIZE - 1)) / PAGE_SIZE) := by
  have hsub : sub64 (add64 (add64 bytes headerSize) PAGE_SIZE) 1
      = bytes + headerSize + (PAGE_SIZE - 1) := by
    unfold sub64 add64 headerSize PAGE_SIZE
    omega
  constructor
  · unfold headerSize PAGE_SIZE
    omega
  · unfold pagesToAlloc
    rw [hsub]

omit hpages in
theorem runBytes_eq {bytes : ℕ} (hb : bytes ≤ 2 ^ 31 - 8192) :
    runBytes bytes = PAGE_SIZE * ((bytes + headerSize + (PAGE_SIZE - 1)) / PAGE_SIZE) := by
  obtain ⟨hlt, hpages⟩ := pagesToAlloc_eq hb
  unfold runBytes
  rw [hpages]
  generalize (bytes + headerSize + (PAGE_SIZE - 1)) / PAGE_SIZE = k at hlt ⊢
  have hnat : (BitVec.ofNat 32 k * BitVec.ofNat 32 PAGE_SIZE).toNat = PAGE_SIZE * k := by
    rw [BitVec.toNat_mul, BitVec.toNat_ofNat, BitVec.toNat_ofNat]
    unfold PAGE_SIZE
    omega
  have hmsb : (BitVec.ofNat 32 k * BitVec.ofNat 32 PAGE_SIZE).msb = false := by
    rw [BitVec.msb_eq_false_iff_two_mul_lt, hnat]
    unfold PAGE_SIZE
    omega
  rw [BitVec.signExtend_eq_setWidth_of_msb_false hmsb, BitVec.toNat_setWidth, hnat]
  unfold PAGE_SIZE
  omega

/-- A free node with enough room, taken from the list. -/
theorem Represents.takeNode (h : Represents heapPages live s (xs ++ p :: ys))
    (hp : live (p + headerSize) = none) {n bytes : ℕ} (hn : n ≤ bytes)
    (hb : bytes ≤ size s.mem p) (h8 : 8 ∣ bytes) :
    ∃ ws, Represents heapPages (Function.update live (p + headerSize) (some n))
        { s with mem := takeNode s.mem p bytes } (xs ++ p :: ws) ∧
      Kept live s.mem (takeNode s.mem p bytes) := by
  have hle := h.cell_le hpages (c := p) (by simp)
  unfold cell kmallocHead headerSize KERNEL_HEAP_START_VADDR at hle
  have hroom : add64 bytes headerSize = bytes + headerSize :=
    add64_eq (by unfold headerSize; omega)
  unfold KernelHeap.takeNode
  rw [hroom]
  split
  next hsplit =>
    have hq : add64 (p + headerSize) bytes = p + headerSize + bytes :=
      add64_eq (by unfold headerSize; omega)
    have hrest : sub64 (sub64 (size s.mem p) bytes) headerSize
        = size s.mem p - bytes - headerSize := by
      rw [sub64_eq hb (by omega), sub64_eq (by omega) (by omega)]
    have hqp : size (setSize s.mem (p + headerSize + bytes)
        (size s.mem p - bytes - headerSize)) p = size s.mem p :=
      Function.update_of_ne (by unfold headerSize; omega) _ _
    dsimp only
    rw [hq, hrest]
    obtain ⟨hr, hk, hsize⟩ := h.split hp hsplit h8 rfl rfl
    obtain ⟨hr', hk', -⟩ := Represents.take hr hp (hn.trans (Nat.le_of_eq hsize.symm))
    exact ⟨_, hr', hk.trans hk'⟩
  next =>
    obtain ⟨hr, hk, -⟩ := h.take hp (hn.trans hb)
    exact ⟨ys, hr, hk⟩

omit hpages in
theorem Represents.appendRun (h : Represents heapPages live s cells) {bytes k : ℕ}
    (hrun : runBytes bytes = PAGE_SIZE * k) (hk : 1 ≤ k) (hlt : PAGE_SIZE * k < 2 ^ 32)
    (htop : s.kernelHeapVaddr + PAGE_SIZE * k < 2 ^ 64)
    (hroom : s.kernelHeapVaddr + PAGE_SIZE * k ≤ KERNEL_HEAP_START_VADDR + PAGE_SIZE * heapPages) :
    Represents heapPages live (appendRun s bytes) (cells ++ [s.kernelHeapVaddr]) ∧
      Kept live s.mem (KernelHeap.appendRun s bytes).mem ∧
      size (KernelHeap.appendRun s bytes).mem s.kernelHeapVaddr = PAGE_SIZE * k - headerSize ∧
      live (s.kernelHeapVaddr + headerSize) = none := by
  have hsub : sub64 (PAGE_SIZE * k) headerSize = PAGE_SIZE * k - headerSize := by
    apply sub64_eq
    · unfold PAGE_SIZE headerSize
      omega
    · omega
  unfold KernelHeap.appendRun
  dsimp only
  rw [hrun, add64_eq htop, hsub]
  exact h.grow hk hroom rfl rfl

/-- The end of an allocation, on a free node with enough room. -/
theorem Represents.finishAlloc (h : Represents heapPages live s (xs ++ p :: ys))
    (hp : live (p + headerSize) = none) {n bytes : ℕ} (hn : n ≤ bytes)
    (hb : bytes ≤ size s.mem p) (h8 : 8 ∣ bytes) (doZero : Bool) :
    ∃ t cells', finishAlloc s p bytes doZero = (t, p + headerSize) ∧
      Represents heapPages (Function.update live (p + headerSize) (some n)) t cells' ∧
      Kept live s.mem t.mem := by
  obtain ⟨ws, hr, hk⟩ := h.takeNode hpages hp hn hb h8
  cases doZero with
  | false => exact ⟨_, _, rfl, hr, hk⟩
  | true =>
    have hpc : p ∈ xs ++ p :: ws := by simp
    have hlive : Function.update live (p + headerSize) (some n) (p + headerSize) ≠ none := by simp
    have hle := hr.cell_le hpages hpc
    unfold kmallocHead headerSize KERNEL_HEAP_START_VADDR cell at hle
    have hcount : 8 * ((BitVec.ofNat 32 (size (KernelHeap.takeNode s.mem p bytes) p)).toInt.tdiv
        8).toNat = size (KernelHeap.takeNode s.mem p bytes) p := by
      have h8 := hr.aligned p hpc
      dsimp only at h8 hle
      generalize size (KernelHeap.takeNode s.mem p bytes) p = v at h8 hle ⊢
      rw [BitVec.toInt_ofNat', Int.bmod_eq_of_le (by omega) (by omega),
        Int.tdiv_eq_ediv_of_nonneg (by omega)]
      omega
    have hzero : ∀ w, w < p + headerSize ∨
        p + cell (KernelHeap.takeNode s.mem p bytes) p ≤ w →
        memsetZero (KernelHeap.takeNode s.mem p bytes) (p + headerSize)
          (size (KernelHeap.takeNode s.mem p bytes) p) w
          = KernelHeap.takeNode s.mem p bytes w := by
      intro w hw
      unfold memsetZero zeroRange
      rw [hcount, if_neg]
      unfold cell at hw
      omega
    refine ⟨_, _, rfl, hr.payload hpc hlive hzero, hk.trans ?_⟩
    intro c hc
    have hcp : c ≠ p := fun e => hc (e ▸ hp)
    have hc' : Function.update live (p + headerSize) (some n) (c + headerSize) ≠ none := by
      rw [Function.update_of_ne fun e => hcp (Nat.add_right_cancel e)]
      exact hc
    obtain ⟨d, hd, he⟩ := hr.live_cell _ hc'
    obtain rfl := Nat.add_right_cancel he
    have hapart := hr.apart (List.mem_cons_of_mem _ hd) (List.mem_cons_of_mem _ hpc) hcp
    dsimp only at hapart
    have hpos := cell_pos (KernelHeap.takeNode s.mem p bytes) c
    refine ⟨hzero c (by omega), fun w h1 h2 => hzero w ?_⟩
    unfold headerSize at h1 ⊢
    omega

/-- What `common_alloc` returns: 0 and the heap as it was, or a new block. The block is in a run
of new pages at the top if it has to be contiguous. -/
def Allocates (heapPages : ℕ) (live : ℕ → Option ℕ) (s : Heap) (bytes : ℕ)
    (contiguous granted : Bool) (o : Option (Heap × ℕ)) : Prop :=
  o = some (s, 0) ∨ ∃ t p cells', o = some (t, p) ∧ p ≠ 0 ∧ live p = none ∧
    Represents heapPages (Function.update live p (some bytes)) t cells' ∧ Kept live s.mem t.mem ∧
    (contiguous = false ∧ t.kernelHeapVaddr = s.kernelHeapVaddr ∨
      granted = true ∧ p = s.kernelHeapVaddr + headerSize ∧
        t.kernelHeapVaddr = s.kernelHeapVaddr + runBytes (roundUp bytes))

omit hpages in
/-- The loop of `common_alloc` stops at the first free node with enough room, or at the list
head. -/
theorem Represents.search_fit (h : Represents heapPages live s cells) (bytes : ℕ) :
    ∃ p, search (next s.mem) (fun p => p = kmallocHead ∨ ¬ size s.mem p < bytes) (fuel s)
        (next s.mem kmallocHead) = some p ∧
      (p = kmallocHead ∧ (∀ c ∈ freeNodes live cells, size s.mem c < bytes) ∨
        p ≠ kmallocHead ∧ p ∈ freeNodes live cells ∧ bytes ≤ size s.mem p) := by
  obtain ⟨d, hd⟩ := exists_head (freeNodes live cells) kmallocHead
  have hhead : next s.mem kmallocHead = d := (Linked.next_eq [] _ h.linked rfl hd).1
  obtain ⟨p, hp⟩ : ∃ p, (freeNodes live cells ++ [kmallocHead]).find?
      (fun p => p = kmallocHead ∨ ¬ size s.mem p < bytes) = some p := by
    rw [← Option.isSome_iff_exists, List.find?_isSome]
    exact ⟨kmallocHead, by simp, by simp⟩
  have hlen : (freeNodes live cells).length < fuel s :=
    Nat.lt_of_le_of_lt (List.length_filter_le _ _) h.length_lt
  refine ⟨p, hhead ▸ Linked.search_suffix [] _ h.linked hd hp hlen, ?_⟩
  have hmem := List.mem_of_find?_eq_some hp
  by_cases hne : p = kmallocHead
  · left
    subst hne
    refine ⟨rfl, fun c hc => ?_⟩
    -- a node with enough room would have been found before the list head
    by_contra hfit
    rw [List.find?_append, Option.or_eq_some_iff] at hp
    rcases hp with hp | ⟨hnone, -⟩
    · have hq := (mem_freeNodes.1 (List.mem_of_find?_eq_some hp)).1
      exact head_notin_cells h hq
    · have := List.find?_eq_none.1 hnone c hc
      simp [hfit] at this
  · right
    refine ⟨hne, ?_, ?_⟩
    · rcases List.mem_append.1 hmem with hp | hp
      · exact hp
      · exact absurd (List.mem_singleton.1 hp) hne
    · have := List.find?_some hp
      simpa [hne] using this

/-- A new run of pages at the top has room for the request. -/
theorem Represents.runAlloc (h : Represents heapPages live s cells) {bytes : ℕ}
    (hb : bytes < 2 ^ 31 - 8192) (doZero : Bool)
    (hg : s.kernelHeapVaddr + runBytes (roundUp bytes) ≤
      KERNEL_HEAP_START_VADDR + PAGE_SIZE * heapPages) :
    ∃ t cells', KernelHeap.finishAlloc (KernelHeap.appendRun s (roundUp bytes)) s.kernelHeapVaddr
        (roundUp bytes) doZero = (t, s.kernelHeapVaddr + headerSize) ∧
      live (s.kernelHeapVaddr + headerSize) = none ∧
      Represents heapPages (Function.update live (s.kernelHeapVaddr + headerSize) (some bytes)) t
        cells' ∧ Kept live s.mem t.mem ∧
      t.kernelHeapVaddr = s.kernelHeapVaddr + runBytes (roundUp bytes) := by
  obtain ⟨hround, hmax, h8⟩ := roundUp_spec hb
  have hrun := runBytes_eq hmax
  have htop := h.top_lt hpages
  unfold KERNEL_HEAP_START_VADDR at htop
  rw [hrun] at hg ⊢
  generalize hk : (roundUp bytes + headerSize + (PAGE_SIZE - 1)) / PAGE_SIZE = k at hrun hg ⊢
  have hk1 : 1 ≤ k ∧ k < 2 ^ 19 ∧ roundUp bytes + headerSize ≤ PAGE_SIZE * k := by
    unfold headerSize PAGE_SIZE at *
    omega
  obtain ⟨hr, hkept, hsize, hfree⟩ := h.appendRun hrun hk1.1 (by unfold PAGE_SIZE; omega)
    (by unfold PAGE_SIZE; omega) hg
  obtain ⟨t, cells', ht, hrt, hkt⟩ := hr.finishAlloc hpages hfree hround
    (by rw [hsize]; omega) h8 doZero
  refine ⟨t, cells', ht, hfree, hrt, hkept.trans hkt, ?_⟩
  have htop' := congrArg (fun r => r.1.kernelHeapVaddr) ht
  refine htop'.symm.trans ?_
  change add64 s.kernelHeapVaddr (runBytes (roundUp bytes)) = _
  rw [hrun]
  exact add64_eq (by unfold PAGE_SIZE; omega)

/-- A free node with enough room becomes the block. -/
theorem Represents.nodeAlloc (h : Represents heapPages live s cells) {bytes : ℕ}
    (hround : bytes ≤ roundUp bytes) (hp : p ∈ freeNodes live cells)
    (hsize : roundUp bytes ≤ size s.mem p) (doZero : Bool) :
    ∃ t cells', KernelHeap.finishAlloc s p (roundUp bytes) doZero = (t, p + headerSize) ∧
      live (p + headerSize) = none ∧
      Represents heapPages (Function.update live (p + headerSize) (some bytes)) t cells' ∧
      Kept live s.mem t.mem ∧ t.kernelHeapVaddr = s.kernelHeapVaddr := by
  obtain ⟨hpc, hfree⟩ := mem_freeNodes.1 hp
  obtain ⟨xs, ys, rfl⟩ := List.append_of_mem hpc
  obtain ⟨t, cells', ht, hrt, hkt⟩ := h.finishAlloc hpages hfree hround hsize
    (Nat.dvd_mul_left 8 _) doZero
  exact ⟨t, cells', ht, hfree, hrt, hkt, (congrArg (fun r => r.1.kernelHeapVaddr) ht).symm⟩

/-- `common_alloc` ends; without pages it changes nothing. -/
theorem Represents.commonAlloc (h : Represents heapPages live s cells) {bytes : ℕ}
    (hb : bytes < 2 ^ 31 - 8192) (doZero contiguous granted : Bool)
    (hg : granted = true → s.kernelHeapVaddr + runBytes (roundUp bytes) ≤
      KERNEL_HEAP_START_VADDR + PAGE_SIZE * heapPages) :
    Allocates heapPages live s bytes contiguous granted
      (commonAlloc s bytes doZero contiguous granted) := by
  obtain ⟨p, hsearch, hp⟩ := h.search_fit (roundUp bytes)
  unfold KernelHeap.commonAlloc
  dsimp only
  rw [hsearch]
  dsimp only
  split
  next =>
    cases granted with
    | false => exact Or.inl rfl
    | true =>
      right
      obtain ⟨t, cells', ht, hfree, hrt, hkt, htop⟩ := h.runAlloc hpages hb doZero (hg rfl)
      refine ⟨t, s.kernelHeapVaddr + headerSize, cells', ?_, Nat.succ_ne_zero _, hfree, hrt, hkt,
        Or.inr ⟨rfl, rfl, htop⟩⟩
      rw [if_pos rfl, ht]
  next hc =>
    right
    obtain ⟨hne, hcontiguous⟩ := not_or.1 hc
    obtain ⟨-, hmem, hsize⟩ := hp.resolve_left fun hp => hne hp.1
    obtain ⟨t, cells', ht, hfree, hrt, hkt, htop⟩ := h.nodeAlloc hpages (roundUp_spec hb).1 hmem
      hsize doZero
    exact ⟨t, _, cells', congrArg some ht, Nat.succ_ne_zero _, hfree, hrt, hkt,
      Or.inl ⟨Bool.eq_false_of_not_eq_true hcontiguous, htop⟩⟩

end Loops

end Represents

/-! ## Runs -/

/-- The heap and its live blocks: the bytes requested for the block at an address. -/
structure State where
  heap : Heap
  live : ℕ → Option ℕ

inductive Call
  | kmalloc (bytes : ℕ) (granted : Bool)
  | kzalloc (bytes : ℕ) (granted : Bool)
  | kcalloc (bytes : ℕ) (granted : Bool)
  | kfree (addr : ℕ)

inductive Event
  | call (c : Call)
  /-- the owner of a live block writes to it -/
  | write (w v : ℕ)

def initial (m : Words) : State := ⟨initKernelHeap m, fun _ => none⟩

/-- A block that was returned is live. -/
def allocated (s : State) (bytes : ℕ) (r : Heap × ℕ) : State × ℕ :=
  (⟨r.1, if r.2 = 0 then s.live else Function.update s.live r.2 (some bytes)⟩, r.2)

/-- The state after a call and the address it returns, 0 for `kfree`. -/
def apply (s : State) : Call → Option (State × ℕ)
  | .kmalloc bytes granted => (kmalloc s.heap bytes granted).map (allocated s bytes)
  | .kzalloc bytes granted => (kzalloc s.heap bytes granted).map (allocated s bytes)
  | .kcalloc bytes granted => (kcalloc s.heap bytes granted).map (allocated s bytes)
  | .kfree addr => (kfree s.heap addr).map fun h => (⟨h, Function.update s.live addr none⟩, 0)

/-- A request within bounds; pages that are granted are pages of the machine. -/
def Request (heapPages : ℕ) (s : State) (bytes : ℕ) (granted : Bool) : Prop :=
  bytes < 2 ^ 31 - 8192 ∧ (granted = true → s.heap.kernelHeapVaddr + runBytes (roundUp bytes) ≤
    KERNEL_HEAP_START_VADDR + PAGE_SIZE * heapPages)

def Enabled (heapPages : ℕ) (s : State) : Call → Prop
  | .kmalloc bytes granted => Request heapPages s bytes granted
  | .kzalloc bytes granted => Request heapPages s bytes granted
  | .kcalloc bytes granted => Request heapPages s bytes granted
  | .kfree addr => addr = 0 ∨ s.live addr ≠ none

/-- `w` is in the payload of the live block at `p`. -/
def InPayload (s : State) (p w : ℕ) : Prop :=
  s.live p ≠ none ∧ p ≤ w ∧ w < p + size s.heap.mem (p - headerSize)

def Step (heapPages : ℕ) (s : State) (e : Event) (t : State) : Prop :=
  match e with
  | .call c => Enabled heapPages s c ∧ ∃ p, apply s c = some (t, p)
  | .write w v => (∃ p, InPayload s p w) ∧ v < 2 ^ 64 ∧
      t = { s with heap := { s.heap with mem := Function.update s.heap.mem w v } }

def Invariant (heapPages : ℕ) (s : State) : Prop :=
  ∃ cells, Represents heapPages s.live s.heap cells

/-- The list head, the free nodes and the live blocks fill the heap without gap or overlap, the
list holds the free nodes in increasing order, and a block is aligned and has room for its
request. -/
structure WellFormed (s : State) (cells free : List ℕ) : Prop where
  tiled : Tiled (cell s.heap.mem) KERNEL_HEAP_START_VADDR (kmallocHead :: cells)
    s.heap.kernelHeapVaddr
  free_cell (c : ℕ) : c ∈ cells → (c ∈ free ↔ s.live (c + headerSize) = none)
  free_subset : free ⊆ cells
  live_cell (p : ℕ) : s.live p ≠ none → ∃ c ∈ cells, p = c + headerSize
  list : Linked (next s.heap.mem) (prev s.heap.mem) kmallocHead free
  increasing : free.Pairwise (· < ·)
  block (p n : ℕ) : s.live p = some n → n ≤ size s.heap.mem (p - headerSize) ∧ 8 ∣ p

/-- The call returns no live block, and it keeps the size and the payload of every live block but
the one it frees. -/
structure KeepsBlocks (s : State) (c : Call) (t : State) (r : ℕ) : Prop where
  fresh : s.live r = none
  kept (p : ℕ) : s.live p ≠ none → c ≠ .kfree p → t.live p = s.live p ∧
    size t.heap.mem (p - headerSize) = size s.heap.mem (p - headerSize) ∧
    ∀ w, InPayload s p w → t.heap.mem w = s.heap.mem w

theorem initial_invariant {heapPages : ℕ} (hpos : 0 < heapPages) (m : Words) :
    Invariant heapPages (initial m) := by
  obtain ⟨m', hm'⟩ : ∃ m', m' = setSize (setPrev (setNext (setSize (zeroRange m
    KERNEL_HEAP_START_VADDR (KERNEL_HEAP_START_VADDR + PAGE_SIZE)) kmallocHead 0) kmallocHead
    kmallocHead) kmallocHead kmallocHead) (kmallocHead + headerSize)
    (PAGE_SIZE - 2 * headerSize) := ⟨_, rfl⟩
  have hnext : next m' kmallocHead = kmallocHead := by
    simp [hm', next, setSize, setPrev, setNext, headerSize]
  have hprev : prev m' kmallocHead = kmallocHead := by
    simp [hm', prev, setSize, setPrev, setNext, headerSize]
  have hhead : size m' kmallocHead = 0 := by
    simp [hm', size, setSize, setPrev, setNext, headerSize]
  have hnode : size m' (kmallocHead + headerSize) = PAGE_SIZE - 2 * headerSize := by
    rw [size, hm', setSize, Function.update_self]
  have hempty : Linked (next m') (prev m') kmallocHead ([] ++ []) := by
    refine ⟨List.nodup_singleton _, ?_⟩
    simp [hnext, hprev]
  obtain ⟨hl, hframe⟩ := allocationDllInsert_linked (b := kmallocHead + headerSize) hempty
    (by simp [Separate, headerSize]) (by simp [headerSize]) rfl
  have hsize {c : ℕ} (hc : c = kmallocHead ∨ c = kmallocHead + headerSize) :
      size (initKernelHeap m).mem c = size m' c := by
    have hlink : NoLink [kmallocHead + headerSize, kmallocHead] c := by
      intro d hd
      simp only [List.mem_cons, List.not_mem_nil, or_false, headerSize] at hd hc
      omega
    rw [hm'] at hframe ⊢
    exact hframe c hlink
  refine ⟨[kmallocHead + headerSize], ⟨rfl, ?_⟩, ?_, ?_, ?_, ?_, ?_, 1, le_refl 1, hpos, rfl⟩
  · change kmallocHead + headerSize + cell (initKernelHeap m).mem (kmallocHead + headerSize) =
      KERNEL_HEAP_START_VADDR + PAGE_SIZE
    rw [cell, hsize (Or.inr rfl), hnode]
    rfl
  · exact (hsize (Or.inl rfl)).trans hhead
  · rw [hm'] at hl
    exact hl
  · intro c hc
    rw [List.mem_singleton.1 hc]
    exact (hsize (Or.inr rfl)).trans hnode ▸ (by decide)
  · exact fun p hp => absurd rfl hp
  · exact fun c n _ hn => nomatch hn

variable {heapPages : ℕ}

theorem Represents.wellFormed {s : State} {cells : List ℕ}
    (h : Represents heapPages s.live s.heap cells) :
    WellFormed s cells (freeNodes s.live cells) := by
  have haligned {c : ℕ} (hc : c ∈ cells) : 8 ∣ c :=
    h.tiled.dvd (by decide) (fun d hd => Nat.dvd_add (by decide) (h.aligned d hd)) hc
  refine ⟨?_, ?_, ?_, h.live_cell, h.linked, ?_, ?_⟩
  · refine ⟨rfl, ?_⟩
    have hhead : cell s.heap.mem KERNEL_HEAP_START_VADDR = headerSize := by
      rw [cell, show size s.heap.mem KERNEL_HEAP_START_VADDR = 0 from h.head_size, Nat.add_zero]
    rw [hhead]
    exact h.tiled
  · intro c hc
    rw [mem_freeNodes, and_iff_right hc]
  · exact List.filter_subset_self cells
  · refine List.Pairwise.filter _ (h.tiled.pairwise.imp fun {c d} hcd => ?_)
    have := cell_pos s.heap.mem c
    omega
  · intro p n hp
    obtain ⟨c, hc, rfl⟩ := h.live_cell p (by rw [hp]; exact Option.some_ne_none n)
    rw [Nat.add_sub_cancel]
    have := haligned hc
    exact ⟨h.requested c n hc hp, by unfold headerSize; omega⟩

/-- A new block. -/
theorem Invariant.allocated {s : State} (hs : Invariant heapPages s) {bytes : ℕ}
    {contiguous granted : Bool} {o : Option (Heap × ℕ)} {c : Call}
    (happly : apply s c = o.map (allocated s bytes))
    (h : Allocates heapPages s.live s.heap bytes contiguous granted o) :
    ∃ t p, apply s c = some (t, p) ∧ Invariant heapPages t ∧ KeepsBlocks s c t p := by
  have hzero : s.live 0 = none := by
    obtain ⟨cells, h⟩ := hs
    by_contra hne
    obtain ⟨c, -, he⟩ := h.live_cell 0 hne
    exact absurd he (Nat.succ_ne_zero _).symm
  rcases h with rfl | ⟨t, p, cells', rfl, hp, hfresh, hr, hk, -⟩
  · exact ⟨s, 0, happly, hs, hzero, fun p _ _ => ⟨rfl, rfl, fun _ _ => rfl⟩⟩
  · refine ⟨⟨t, Function.update s.live p (some bytes)⟩, p, ?_, ⟨cells', hr⟩, hfresh, ?_⟩
    · rw [happly, Option.map_some, KernelHeap.allocated, if_neg hp]
    · intro q hq _
      have hqp : q ≠ p := fun e => hq (e ▸ hfresh)
      obtain ⟨cells, h⟩ := hs
      obtain ⟨d, -, rfl⟩ := h.live_cell q hq
      obtain ⟨hsize, hpay⟩ := hk d hq
      refine ⟨Function.update_of_ne hqp _ _, ?_, ?_⟩
      · rw [Nat.add_sub_cancel]
        exact hsize
      · rintro w ⟨-, h1, h2⟩
        rw [Nat.add_sub_cancel] at h2
        exact hpay w h1 (by unfold cell; omega)

/-- One call keeps the invariant and the blocks. -/
theorem apply_spec (hpages : heapPages < 2 ^ 19) {s : State} (hs : Invariant heapPages s)
    {c : Call} (hc : Enabled heapPages s c) :
    ∃ t r, apply s c = some (t, r) ∧ Invariant heapPages t ∧ KeepsBlocks s c t r := by
  have hinv := hs
  obtain ⟨cells, h⟩ := hs
  cases c with
  | kmalloc bytes granted =>
    exact hinv.allocated rfl
      (h.commonAlloc hpages hc.1 false false granted hc.2)
  | kzalloc bytes granted =>
    exact hinv.allocated rfl
      (h.commonAlloc hpages hc.1 true false granted hc.2)
  | kcalloc bytes granted =>
    exact hinv.allocated rfl
      (h.commonAlloc hpages hc.1 true true granted hc.2)
  | kfree addr =>
    have hzero : s.live 0 = none := by
      by_contra hne
      obtain ⟨c, -, he⟩ := h.live_cell 0 hne
      exact absurd he (Nat.succ_ne_zero _).symm
    rcases hc with rfl | hlive
    · have hlive : Function.update s.live 0 none = s.live := by rw [← hzero, Function.update_eq_self]
      refine ⟨s, 0, ?_, hinv, hzero, fun p _ _ => ⟨rfl, rfl, fun _ _ => rfl⟩⟩
      rw [apply, KernelHeap.kfree, if_pos rfl, Option.map_some, hlive]
    · obtain ⟨t, cells', ht, hr, hk, -⟩ := h.kfree hpages hlive
      refine ⟨⟨t, Function.update s.live addr none⟩, 0, ?_, ⟨cells', hr⟩, hzero, ?_⟩
      · rw [apply, ht, Option.map_some]
      · intro p hp hpc
        have hpa : p ≠ addr := fun e => hpc (congrArg Call.kfree e.symm)
        have hp' : Function.update s.live addr none p = s.live p := Function.update_of_ne hpa _ _
        obtain ⟨d, -, rfl⟩ := h.live_cell p hp
        obtain ⟨hsize, hpay⟩ := hk d (by rw [hp']; exact hp)
        refine ⟨hp', ?_, ?_⟩
        · rw [Nat.add_sub_cancel]
          exact hsize
        · rintro w ⟨-, h1, h2⟩
          rw [Nat.add_sub_cancel] at h2
          exact hpay w h1 (by unfold cell; omega)

theorem step_preserves_invariant (hpages : heapPages < 2 ^ 19) {s t : State} {e : Event}
    (hs : Invariant heapPages s) (h : Step heapPages s e t) : Invariant heapPages t := by
  cases e with
  | call c =>
    obtain ⟨hc, r, hr⟩ := h
    obtain ⟨t', r', ht', hinv, -⟩ := apply_spec hpages hs hc
    obtain ⟨rfl, -⟩ := Prod.mk.inj (Option.some.inj (hr.symm.trans ht'))
    exact hinv
  | write w v =>
    obtain ⟨⟨p, hp, h1, h2⟩, -, rfl⟩ := h
    obtain ⟨cells, h⟩ := hs
    obtain ⟨c, hc, rfl⟩ := h.live_cell p hp
    refine ⟨cells, h.payload hc hp fun w' hw' => ?_⟩
    rw [Nat.add_sub_cancel] at h2
    apply Function.update_of_ne
    unfold cell at hw'
    omega

/-- In every run the heap is well formed, and every further call ends and keeps the blocks. -/
theorem kernel_heap_run (heapPages : ℕ) (hpos : 0 < heapPages) (hpages : heapPages < 2 ^ 19)
    (m : Words) (s : State) (hrun : Execution (Step heapPages) (initial m) s) :
    (∃ cells free, WellFormed s cells free) ∧
      ∀ c, Enabled heapPages s c → ∃ t r, apply s c = some (t, r) ∧ KeepsBlocks s c t r := by
  have hs : Invariant heapPages s :=
    hrun.invariant (fun _ _ _ hs h => step_preserves_invariant hpages hs h)
      (initial_invariant hpos m)
  constructor
  · obtain ⟨cells, h⟩ := hs
    exact ⟨cells, _, h.wellFormed⟩
  · intro c hc
    obtain ⟨t, r, ht, -, hk⟩ := apply_spec hpages hs hc
    exact ⟨t, r, ht, hk⟩

/-- The first block lies behind the list head and its own header. -/
theorem kernel_heap_run_kmalloc :
    ∃ t, apply (initial fun _ => 0) (.kmalloc 100 true) = some (t, 0x120000030) ∧
      (∃ cells free, WellFormed t cells free) ∧
      ∀ c, Enabled 16 t c → ∃ u r, apply t c = some (u, r) ∧ KeepsBlocks t c u r := by
  have hc : Enabled 16 (initial fun _ => 0) (.kmalloc 100 true) := ⟨by decide, fun _ => by decide⟩
  have hr : (apply (initial fun _ => 0) (.kmalloc 100 true)).map Prod.snd = some 0x120000030 := by
    decide +kernel
  obtain ⟨⟨t, r⟩, ht, rfl⟩ := Option.map_eq_some_iff.1 hr
  exact ⟨t, ht, kernel_heap_run 16 (by decide) (by decide) _ t
    (.single (e := .call (.kmalloc 100 true)) ⟨hc, _, ht⟩)⟩

end KernelHeap
