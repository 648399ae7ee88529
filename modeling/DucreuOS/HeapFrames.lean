import DucreuOS.PageAllocator
import DucreuOS.KernelHeap
import DucreuOS.UserProcess

/-! # The pages behind the kernel heap

`common_alloc` takes a run of pages from `page_znalloc` and maps it in `kernel_mmu_table` at the
top of the heap; `heap_shrink` gives the pages at the top back one by one. Which run and which
tables the page allocator hands out is arbitrary. The words of the heap are those at its virtual
addresses; `os.mem` is the physical memory, and what the heap stores into its pages is arbitrary
there. -/
namespace HeapFrames

open PageTable PointerTree UserProcess LinkedRing Transition
open PageAllocator (HeapSymbols pageAddr totalPages)
open KernelHeap (Heap Words Represents add64 sub64 size next prev setSize roundUp pagesToAlloc
  runBytes kmallocHead headerSize KERNEL_HEAP_START_VADDR)

/-- The virtual address of page `i` of the heap. -/
def heapPage (i : ℕ) : Word := BitVec.ofNat 64 (KERNEL_HEAP_START_VADDR + PAGE_SIZE * i)

def HEAP_BITS : Word := PTEB_READ ||| PTEB_WRITE

/-- `page_free`, which refuses what is outside the page heap. -/
def pageFree (h : HeapSymbols) (o : Os) (p : Word) : Os :=
  if p.toNat < h.start ∨ h.stop < p.toNat then o else o.pageFree p

/-- A run from `page_znalloc`, mapped at the top. -/
def mapRun (root run : Word) (top bytes : ℕ) (o : Os) : Os :=
  (o.pageZnalloc (pagesToAlloc bytes).toInt run).mapMultiple root (BitVec.ofNat 64 top) run
    (runBytes bytes) HEAP_BITS

/-- `common_alloc` where `page_znalloc` returns `run`. -/
def commonAlloc (root run : Word) (s : Heap) (o : Os) (bytes : ℕ)
    (doZero requestContiguous : Bool) : Option ((Heap × ℕ) × Os) :=
  let bytes := roundUp bytes
  match search (next s.mem) (fun p => p = kmallocHead ∨ ¬ size s.mem p < bytes) (KernelHeap.fuel s)
      (next s.mem kmallocHead) with
  | none => none
  | some p =>
    if p = kmallocHead ∨ requestContiguous then
      if run = 0#64 then some ((s, 0), o)
      else
        some (KernelHeap.finishAlloc (KernelHeap.appendRun s bytes) s.kernelHeapVaddr bytes doZero,
          mapRun root run s.kernelHeapVaddr bytes o)
    else some (KernelHeap.finishAlloc s p bytes doZero, o)

/-- The loop of `heap_shrink`. -/
def shrinkFrom (h : HeapSymbols) (root : Word) (last : ℕ) : ℕ → Heap → Os → Option (Heap × Os)
  | 0, _, _ => none
  | n + 1, s, o =>
    if add64 (last + headerSize) (size s.mem last) = s.kernelHeapVaddr ∧
        PAGE_SIZE ≤ size s.mem last then
      let top := sub64 s.kernelHeapVaddr PAGE_SIZE
      let vaddr := BitVec.ofNat 64 top
      let o := pageFree h o (mmuTranslate o.mem root vaddr)
      let o := o.run (mmuUnmap o.toMachine root vaddr)
      shrinkFrom h root last n
        { mem := setSize s.mem last (sub64 (size s.mem last) PAGE_SIZE), kernelHeapVaddr := top } o
    else some (s, o)

def heapShrink (h : HeapSymbols) (root : Word) (s : Heap) (o : Os) : Option (Heap × Os) :=
  shrinkFrom h root (prev s.mem kmallocHead) (KernelHeap.fuel s) s o

def kfree (h : HeapSymbols) (root : Word) (s : Heap) (o : Os) (addr : ℕ) : Option (Heap × Os) :=
  if addr = 0 then some (s, o)
  else
    let q := sub64 addr headerSize
    match search (next s.mem) (fun p => ¬ (next s.mem p < q ∧ next s.mem p ≠ kmallocHead))
        (KernelHeap.fuel s) kmallocHead with
    | none => none
    | some p =>
      match KernelHeap.coalesceFreeList { s with mem := KernelHeap.allocationDllInsert s.mem p q } with
      | none => none
      | some s => heapShrink h root s o

/-! ## Pages and blocks -/

/-- `p` is the address of a page of the page heap. -/
def InPageHeap (h : HeapSymbols) (p : Word) : Prop :=
  ∃ i, p.toNat = pageAddr h i ∧ i < totalPages h

/-- The page heap consists of pages, and physical addresses have 56 bits. -/
structure Placed (h : HeapSymbols) : Prop where
  fits : h.Fits
  aligned : PAGE_SIZE ∣ h.start
  below : pageAddr h (totalPages h) ≤ 2 ^ 56

/-- The pages of a run. -/
def runPages (run : Word) (k : ℕ) : List Word :=
  (List.range k).map fun j => run + BitVec.ofNat 64 (PAGE_SIZE * j)

section Pages
variable {h : HeapSymbols} {p q run : Word} {b c : Block} {i j k : ℕ}

theorem pageSize_eq : KernelHeap.PAGE_SIZE = PAGE_SIZE := rfl

theorem heapPage_toNat (hi : i < 2 ^ 20) :
    (heapPage i).toNat = KERNEL_HEAP_START_VADDR + PAGE_SIZE * i := by
  unfold heapPage
  rw [BitVec.toNat_ofNat]
  unfold KERNEL_HEAP_START_VADDR PAGE_SIZE
  omega

theorem heapPage_add (i j : ℕ) : heapPage i + BitVec.ofNat 64 (PAGE_SIZE * j) = heapPage (i + j) := by
  unfold heapPage
  rw [← BitVec.ofNat_add, Nat.mul_add, Nat.add_assoc]

theorem samePage_heapPage (hi : i < 2 ^ 20) (hj : j < 2 ^ 20) :
    SamePage (heapPage i) (heapPage j) ↔ i = j := by
  unfold SamePage
  rw [heapPage_toNat hi, heapPage_toNat hj]
  unfold KERNEL_HEAP_START_VADDR PAGE_SIZE
  omega

theorem Placed.pageAddr_lt (hp : Placed h) (hi : i < totalPages h) :
    PAGE_SIZE ∣ pageAddr h i ∧ pageAddr h i + PAGE_SIZE ≤ 2 ^ 56 := by
  obtain ⟨start, hstart⟩ := hp.aligned
  have hbelow := hp.below
  unfold pageAddr PageAllocator.roundToPage PageAllocator.PAGE_SIZE at hbelow ⊢
  unfold PAGE_SIZE at hstart ⊢
  omega

theorem InPageHeap.aligned (hp : Placed h) (hq : InPageHeap h q) : Aligned q := by
  obtain ⟨i, hi, hlt⟩ := hq
  unfold Aligned
  rw [hi]
  exact Nat.mod_eq_zero_of_dvd (hp.pageAddr_lt hlt).1

theorem InPageHeap.below (hp : Placed h) (hq : InPageHeap h q) :
    q.toNat + PAGE_SIZE ≤ 2 ^ 56 ∧ h.start ≤ q.toNat := by
  obtain ⟨i, hi, hlt⟩ := hq
  rw [hi]
  refine ⟨(hp.pageAddr_lt hlt).2, ?_⟩
  unfold pageAddr
  omega

/-- Distinct pages of the page heap are no more than it has. -/
theorem nodup_length_le {l : List Word} (hl : l.Nodup) (hin : ∀ p ∈ l, InPageHeap h p) :
    l.length ≤ totalPages h := by
  have hsub : l.map BitVec.toNat ⊆ (List.range (totalPages h)).map (pageAddr h) := by
    intro x hx
    obtain ⟨p, hpl, rfl⟩ := List.mem_map.1 hx
    obtain ⟨i, hi, hlt⟩ := hin p hpl
    exact List.mem_map.2 ⟨i, List.mem_range.2 hlt, hi.symm⟩
  have hnd : (l.map BitVec.toNat).Nodup := hl.map fun _ _ e => BitVec.eq_of_toNat_eq e
  have hlen := (hnd.subperm hsub).length_le
  rw [List.length_map, List.length_map, List.length_range] at hlen
  exact hlen

theorem runPages_length (run : Word) (k : ℕ) : (runPages run k).length = k := by
  unfold runPages
  rw [List.length_map, List.length_range]

theorem runPages_getElem? (run : Word) (k j : ℕ) :
    (runPages run k)[j]? = if j < k then some (run + BitVec.ofNat 64 (PAGE_SIZE * j)) else none := by
  unfold runPages
  rw [List.getElem?_map]
  split_ifs with hj
  · rw [List.getElem?_range hj, Option.map_some]
  · rw [List.getElem?_eq_none (by rw [List.length_range]; omega), Option.map_none]

end Pages

/-! ## What `page_free` leaves -/

/-- Block `b` holds the page `p`. -/
def Has (b : Block) (p : Word) : Prop :=
  b.start.toNat ≤ p.toNat ∧ p.toNat < b.start.toNat + PAGE_SIZE * b.pages

instance (b : Block) (p : Word) : Decidable (Has b p) := inferInstanceAs (Decidable (_ ∧ _))

/-- What is left of a block: nothing, or its pages before `p`. -/
def trim (p : Word) (b : Block) : Option Block :=
  if Has b p then
    if p = b.start then none else some ⟨b.start, (p.toNat - b.start.toNat) / PAGE_SIZE⟩
  else some b

/-- A change of blocks that keeps those without `p`, and of the one with `p` the pages before. -/
structure Cut (p : Word) (f : Block → Option Block) : Prop where
  shrinks (b c : Block) : f b = some c → c.start = b.start ∧ c.pages ≤ b.pages
  keeps (b : Block) : ¬Has b p → f b = some b
  before (b : Block) (q : Word) : Aligned b.start → Aligned p → Aligned q → Has b p → Has b q →
    q.toNat < p.toNat → ∃ c, f b = some c ∧ Has c q

section Blocks
variable {p q : Word} {a b c : Block} {f : Block → Option Block}

theorem has_trim (hb : Aligned b.start) (hp : Aligned p) (hq : Aligned q) (hbp : Has b p)
    (hc : trim p b = some c) : Has c q ↔ Has b q ∧ q.toNat < p.toNat := by
  unfold trim at hc
  rw [if_pos hbp] at hc
  split_ifs at hc
  obtain rfl := Option.some.inj hc
  unfold Has Aligned PAGE_SIZE at *
  dsimp only
  omega

theorem trim_cut (p : Word) : Cut p (trim p) := by
  refine ⟨fun b c hc => ?_, fun b hb => if_neg hb, fun b q hb hp hq hbp hbq hlt => ?_⟩
  · unfold trim at hc
    split_ifs at hc with hbp hne
    · obtain rfl := Option.some.inj hc
      refine ⟨rfl, ?_⟩
      unfold Has PAGE_SIZE at hbp
      unfold PAGE_SIZE
      dsimp only
      omega
    · obtain rfl := Option.some.inj hc
      exact ⟨rfl, le_refl _⟩
  · have hne : p ≠ b.start := by
      rintro rfl
      exact absurd hbq.1 (Nat.not_le.2 hlt)
    have htrim : trim p b = some ⟨b.start, (p.toNat - b.start.toNat) / PAGE_SIZE⟩ := by
      unfold trim
      rw [if_pos hbp, if_neg hne]
    exact ⟨_, htrim, (has_trim hb hp hq hbp htrim).2 ⟨hbq, hlt⟩⟩

theorem some_cut (p : Word) : Cut p some :=
  ⟨fun b c hc => by rw [Option.some.inj hc]; exact ⟨rfl, le_refl _⟩, fun _ _ => rfl,
    fun b _ _ _ _ _ hbq _ => ⟨b, rfl, hbq⟩⟩

theorem pageFree_blocks (h : HeapSymbols) (o : Os) (p : Word) : ∃ f, Cut p f ∧
    (pageFree h o p).blocks = o.blocks.filterMap f ∧
    (h.start ≤ p.toNat → p.toNat ≤ h.stop → f = trim p) := by
  unfold pageFree
  split_ifs with hout
  · refine ⟨some, some_cut p, by rw [List.filterMap_some], fun h1 h2 => ?_⟩
    omega
  · exact ⟨trim p, trim_cut p, rfl, fun _ _ => rfl⟩

theorem pageFree_machine (h : HeapSymbols) (o : Os) (p : Word) :
    (pageFree h o p).toMachine = o.toMachine := by
  unfold pageFree
  split_ifs <;> rfl

/-- Two blocks do not overlap. -/
def Apart (a b : Block) : Prop :=
  a.start.toNat + PAGE_SIZE * a.pages ≤ b.start.toNat ∨
    b.start.toNat + PAGE_SIZE * b.pages ≤ a.start.toNat

theorem Apart.shrinks {a' b' : Block} (h : Apart a b) (ha : a'.start = a.start ∧ a'.pages ≤ a.pages)
    (hb : b'.start = b.start ∧ b'.pages ≤ b.pages) : Apart a' b' := by
  unfold Apart PAGE_SIZE at *
  rw [ha.1, hb.1]
  omega

theorem Cut.has (hf : Cut p f) (hc : f b = some c) (hq : Has c q) : Has b q := by
  obtain ⟨hstart, hpages⟩ := hf.shrinks b c hc
  unfold Has PAGE_SIZE at *
  rw [hstart] at hq
  omega

theorem Apart.symm (h : Apart a b) : Apart b a := Or.symm h

theorem apart_of_misses (h : b.Misses p) : Apart ⟨p, 1⟩ b := h

/-- New blocks `P` next to the blocks `Q`. -/
theorem apart_or {P Q : Block → Prop} (hQ : ∀ a b, Q a → Q b → a ≠ b → Apart a b)
    (hP : ∀ a b, P a → P b → a ≠ b → Apart a b) (hPQ : ∀ a b, P a → Q b → Apart a b) (a b : Block)
    (ha : P a ∨ Q a) (hb : P b ∨ Q b) (hne : a ≠ b) : Apart a b := by
  rcases ha with ha | ha
  · rcases hb with hb | hb
    · exact hP a b ha hb hne
    · exact hPQ a b ha hb
  · rcases hb with hb | hb
    · exact (hPQ b a hb ha).symm
    · exact hQ a b ha hb hne

theorem Apart.has (h : Apart a b) (ha : Has a p) : ¬Has b p := by
  unfold Apart Has at *
  omega

end Blocks

/-! ## The frames of the heap -/

/-- `first` is the frame of the first page of the heap and `data` are those of the others, from the
bottom to the top; `base` are the blocks at the start. -/
structure Backed (h : HeapSymbols) (root : Word) (base : List Block) (first : Word) (o : Os)
    (data : List Word) : Prop where
  rooted : Rooted root o
  apart (a b : Block) : a ∈ o.blocks → b ∈ o.blocks → a ≠ b → Apart a b
  aligned (b : Block) : b ∈ o.blocks → Aligned b.start
  leaf (i : ℕ) (p : Word) : (first :: data)[i]? = some p →
    leafEntry o.mem root (heapPage i) = leafBits p (HEAP_BITS ||| PTEB_VALID)
  inHeap (p : Word) : p ∈ first :: data → InPageHeap h p
  noTable (p : Word) : p ∈ first :: data → ¬InTree (child o.mem) root 2 p
  owned (p : Word) : p ∈ first :: data → ∃ b ∈ o.blocks, Has b p
  ascending : (first :: data).Pairwise fun p q =>
    ∀ b ∈ o.blocks, Has b p → Has b q → p.toNat < q.toNat
  base_kept (b : Block) : b ∈ base → b ∈ o.blocks
  base_apart (p : Word) (b : Block) : p ∈ data → b ∈ base → ¬Has b p

section Backed
variable {h : HeapSymbols} {root first p run : Word} {base : List Block} {o : Os} {data : List Word}

theorem Backed.nodup (hb : Backed h root base first o data) : (first :: data).Nodup := by
  refine hb.ascending.imp_of_mem fun {p q} hp _ hpq hne => ?_
  obtain ⟨b, hbo, hbp⟩ := hb.owned p hp
  exact Nat.lt_irrefl _ (hne ▸ hpq b hbo hbp (hne ▸ hbp))

theorem Backed.length_le (hb : Backed h root base first o data) :
    data.length + 1 ≤ totalPages h :=
  nodup_length_le hb.nodup hb.inHeap

theorem Placed.totalPages_lt (hp : Placed h) : totalPages h < 2 ^ 19 := hp.fits.pages.2.1

theorem Backed.translate (hb : Backed h root base first o data) (hp : Placed h) {i r : ℕ}
    (hi : (first :: data)[i]? = some p) (hr : r < PAGE_SIZE) :
    (mmuTranslate o.mem root (BitVec.ofNat 64 (KERNEL_HEAP_START_VADDR + PAGE_SIZE * i + r))).toNat
      = p.toNat + r := by
  have hmem : p ∈ first :: data := List.mem_of_getElem? hi
  have hlt : i < data.length + 1 := (List.getElem?_eq_some_iff.1 hi).1
  have hlen := hb.length_le
  have htotal := hp.totalPages_lt
  have hnat : (BitVec.ofNat 64 (KERNEL_HEAP_START_VADDR + PAGE_SIZE * i + r)).toNat
      = KERNEL_HEAP_START_VADDR + PAGE_SIZE * i + r := by
    rw [BitVec.toNat_ofNat]
    unfold KERNEL_HEAP_START_VADDR PAGE_SIZE at *
    omega
  have hsame : SamePage (BitVec.ofNat 64 (KERNEL_HEAP_START_VADDR + PAGE_SIZE * i + r))
      (heapPage i) := by
    unfold SamePage
    rw [hnat, heapPage_toNat (by omega)]
    unfold KERNEL_HEAP_START_VADDR PAGE_SIZE at *
    omega
  have hbelow := (hb.inHeap p hmem).below hp
  have haligned := (hb.inHeap p hmem).aligned hp
  rw [hb.rooted.tree.translate_eq, leafEntry_samePage hsame, hb.leaf i p hi,
    translateEntry_leafBits (by unfold PAGE_SIZE at hbelow; omega) (by decide) (by decide), hnat]
  unfold Aligned at haligned
  unfold KERNEL_HEAP_START_VADDR PAGE_SIZE at *
  omega

/-- The frame of a heap page is no table, so the block of a table is another one. -/
theorem Backed.table_apart (hb : Backed h root base first o data) (hpl : Placed h)
    (hp : p ∈ first :: data) {a : Word} (ha : InTree (child o.mem) root 2 a) : ¬Has ⟨a, 1⟩ p := by
  intro hhas
  have hpa := (hb.inHeap p hp).aligned hpl
  have haa := hb.rooted.tree.aligned a ha
  refine hb.noTable p hp ((BitVec.eq_of_toNat_eq ?_ : a = p) ▸ ha)
  unfold Has Aligned PAGE_SIZE at *
  dsimp only at hhas
  omega

/-- `heap_shrink` gives the top page back and unmaps it. -/
def release (h : HeapSymbols) (root vaddr : Word) (o : Os) : Os :=
  let o := pageFree h o (mmuTranslate o.mem root vaddr)
  o.run (mmuUnmap o.toMachine root vaddr)

theorem Backed.release (hb : Backed h root base first o (data ++ [p])) (hpl : Placed h) :
    Backed h root base first (release h root (heapPage (data.length + 1)) o) data ∧
    ∃ f, Cut p f ∧ (p.toNat ≤ h.stop → f = trim p) ∧
      (∀ c, c ∈ (HeapFrames.release h root (heapPage (data.length + 1)) o).blocks ↔
        ∃ b ∈ o.blocks, f b = some c) ∧
      ∀ a, InTree (child (HeapFrames.release h root (heapPage (data.length + 1)) o).mem) root 2 a ↔
        InTree (child o.mem) root 2 a := by
  have hlen := hb.length_le
  have htotal := hpl.totalPages_lt
  rw [List.length_append, List.length_singleton] at hlen
  have htop : (first :: (data ++ [p]))[data.length + 1]? = some p := by simp
  have hpm : p ∈ first :: (data ++ [p]) := by simp
  have hpa := (hb.inHeap p hpm).aligned hpl
  have htranslate : mmuTranslate o.mem root (heapPage (data.length + 1)) = p := by
    have ht := hb.translate hpl htop (r := 0) (by decide)
    rw [Nat.add_zero, Nat.add_zero] at ht
    exact BitVec.eq_of_toNat_eq ht
  obtain ⟨f, hcut, hblocks, htrim⟩ := pageFree_blocks h o p
  have hmachine := pageFree_machine h o p
  have hleaf := hb.leaf _ _ htop
  have hmapped : leafEntry (pageFree h o p).mem root (heapPage (data.length + 1)) ≠ 0#64 := by
    rw [congrArg Machine.mem hmachine, hleaf]
    intro hzero
    exact leaf_valid _ _ (by rw [hzero]; decide)
  have htree : Tree (pageFree h o p).mem root := by
    rw [congrArg Machine.mem hmachine]
    exact hb.rooted.tree
  obtain ⟨htree', huses, hleaf'⟩ :=
    mmuSet_mapped (s := (pageFree h o p).toMachine) htree hmapped 0 0
  have htakes : Takes (pageFree h o p) ((pageFree h o p).run
      (mmuUnmap (pageFree h o p).toMachine root (heapPage (data.length + 1)))) [] :=
    run_takes huses.pages
  have hrel : HeapFrames.release h root (heapPage (data.length + 1)) o = (pageFree h o p).run
      (mmuUnmap (pageFree h o p).toMachine root (heapPage (data.length + 1))) := by
    unfold HeapFrames.release
    rw [htranslate]
  have hin (a : Word) : InTree (child (HeapFrames.release h root (heapPage (data.length + 1)) o).mem)
      root 2 a ↔ InTree (child o.mem) root 2 a := by
    rw [hrel, ← congrArg Machine.mem hmachine]
    exact (huses.inTree a).trans (by simp)
  have hmem (c : Block) : c ∈ (HeapFrames.release h root (heapPage (data.length + 1)) o).blocks ↔
      ∃ b ∈ o.blocks, f b = some c := by
    rw [hrel, htakes.blocks, hblocks, List.mem_filterMap]
    simp
  have hsub {q : Word} (hq : q ∈ first :: data) : q ∈ first :: (data ++ [p]) := by
    simp only [List.mem_cons, List.mem_append] at hq ⊢
    tauto
  have hpages : (HeapFrames.release h root (heapPage (data.length + 1)) o).pages = o.pages := by
    rw [hrel, ← congrArg Machine.pages hmachine, htakes.pages]
    rfl
  refine ⟨⟨⟨?_, ?_, fun a ha => ?_⟩, ?_, ?_, ?_, ?_, ?_, ?_, ?_, ?_, ?_⟩, f, hcut, ?_, hmem, hin⟩
  · -- the pages to come miss what is left of each block
    refine ⟨hpages ▸ hb.rooted.available.nodup, hpages ▸ hb.rooted.available.aligned,
      hpages ▸ hb.rooted.available.nonzero, fun q c hq hc => ?_⟩
    obtain ⟨b, hbo, hfc⟩ := (hmem c).1 hc
    have hmiss := hb.rooted.available.free q b (hpages ▸ hq) hbo
    obtain ⟨hstart, hless⟩ := hcut.shrinks b c hfc
    unfold Block.Misses PAGE_SIZE at *
    rw [hstart]
    omega
  · rw [hrel]
    exact htree'
  · have ha := (hin a).1 ha
    exact (hmem _).2 ⟨_, hb.rooted.owned a ha, hcut.keeps _ (hb.table_apart hpl hpm ha)⟩
  · intro c d hc hd hne
    obtain ⟨b, hbo, hfc⟩ := (hmem c).1 hc
    obtain ⟨b', hbo', hfd⟩ := (hmem d).1 hd
    have hbb : b ≠ b' := by
      rintro rfl
      exact hne (Option.some.inj (hfc.symm.trans hfd))
    exact (hb.apart b b' hbo hbo' hbb).shrinks (hcut.shrinks b c hfc) (hcut.shrinks b' d hfd)
  · intro c hc
    obtain ⟨b, hbo, hfc⟩ := (hmem c).1 hc
    rw [(hcut.shrinks b c hfc).1]
    exact hb.aligned b hbo
  · intro i q hi
    have hlt : i < data.length + 1 := (List.getElem?_eq_some_iff.1 hi).1
    have hne : ¬SamePage (heapPage i) (heapPage (data.length + 1)) := by
      rw [samePage_heapPage (by omega) (by omega)]
      omega
    have hi' : (first :: (data ++ [p]))[i]? = some q := by
      rw [← List.cons_append, List.getElem?_append_left (by simpa using hlt), hi]
    rw [hrel]
    exact (hleaf' _).trans ((if_neg hne).trans
      ((congrArg (leafEntry · root _) (congrArg Machine.mem hmachine)).trans (hb.leaf i q hi')))
  · exact fun q hq => hb.inHeap q (hsub hq)
  · exact fun q hq hq' => hb.noTable q (hsub hq) ((hin q).1 hq')
  · intro q hq
    obtain ⟨b, hbo, hbq⟩ := hb.owned q (hsub hq)
    by_cases hbp : Has b p
    · have hlt := (List.pairwise_append.1 hb.ascending).2.2 q hq p (by simp) b hbo hbq hbp
      obtain ⟨c, hfc, hcq⟩ := hcut.before b q (hb.aligned b hbo) hpa
        ((hb.inHeap q (hsub hq)).aligned hpl) hbp hbq hlt
      exact ⟨c, (hmem c).2 ⟨b, hbo, hfc⟩, hcq⟩
    · exact ⟨b, (hmem b).2 ⟨b, hbo, hcut.keeps b hbp⟩, hbq⟩
  · refine (List.pairwise_append.1 hb.ascending).1.imp fun {q q'} hqq c hc hcq hcq' => ?_
    obtain ⟨b, hbo, hfc⟩ := (hmem c).1 hc
    exact hqq b hbo (hcut.has hfc hcq) (hcut.has hfc hcq')
  · intro b hbase
    exact (hmem b).2 ⟨b, hb.base_kept b hbase, hcut.keeps b (hb.base_apart p b (by simp) hbase)⟩
  · exact fun q b hq hbase => hb.base_apart q b (List.mem_append_left _ hq) hbase
  · intro hstop
    exact htrim ((hb.inHeap p hpm).below hpl).2 hstop

/-- `run` is a run of `k` pages of the page heap. -/
def InPages (h : HeapSymbols) (run : Word) (k : ℕ) : Prop :=
  ∃ i, run.toNat = pageAddr h i ∧ i + k ≤ totalPages h

theorem InPages.page {k j : ℕ} (hin : InPages h run k) (hpl : Placed h) (hj : j < k) :
    (run + BitVec.ofNat 64 (PAGE_SIZE * j)).toNat = run.toNat + PAGE_SIZE * j ∧
      InPageHeap h (run + BitVec.ofNat 64 (PAGE_SIZE * j)) := by
  obtain ⟨i, hi, hlt⟩ := hin
  have hlast := (hpl.pageAddr_lt (i := i + j) (by omega)).2
  have haddr : pageAddr h (i + j) = run.toNat + PAGE_SIZE * j := by
    rw [hi]
    unfold pageAddr PAGE_SIZE PageAllocator.PAGE_SIZE
    omega
  have hnat : (run + BitVec.ofNat 64 (PAGE_SIZE * j)).toNat = run.toNat + PAGE_SIZE * j := by
    rw [haddr] at hlast
    rw [BitVec.toNat_add, BitVec.toNat_ofNat]
    unfold PAGE_SIZE at *
    omega
  exact ⟨hnat, i + j, hnat.trans haddr.symm, by omega⟩

theorem mem_runPages {k : ℕ} {q : Word} :
    q ∈ runPages run k ↔ ∃ j < k, q = run + BitVec.ofNat 64 (PAGE_SIZE * j) := by
  simp only [runPages, List.mem_map, List.mem_range]
  exact exists_congr fun j => and_congr_right fun _ => eq_comm

theorem InPages.mem_iff {k : ℕ} (hin : InPages h run k) (hpl : Placed h) {q : Word}
    (hrun : Aligned run) (hq : Aligned q) : q ∈ runPages run k ↔ Has ⟨run, k⟩ q := by
  rw [mem_runPages]
  constructor
  · rintro ⟨j, hj, rfl⟩
    have hnat := (hin.page hpl hj).1
    unfold Has PAGE_SIZE at *
    dsimp only
    omega
  · rintro ⟨hlow, hhigh⟩
    have hj : (q.toNat - run.toNat) / PAGE_SIZE < k := by
      unfold PAGE_SIZE at *
      dsimp only at hlow hhigh
      omega
    refine ⟨_, hj, BitVec.eq_of_toNat_eq ?_⟩
    rw [(hin.page hpl hj).1]
    unfold Aligned PAGE_SIZE at *
    dsimp only at hlow
    omega

/-- A run that is free has no page in common with a block. -/
theorem Free.not_has {k : ℕ} (hfree : Free o run k) (hin : InPages h run k) (hpl : Placed h)
    {q : Word} (hq : q ∈ runPages run k) {b : Block} (hb : b ∈ o.blocks) : ¬Has b q := by
  obtain ⟨j, hj, rfl⟩ := mem_runPages.1 hq
  have hnat := (hin.page hpl hj).1
  have hblocks := hfree.blocks b hb
  unfold Has PAGE_SIZE at *
  omega

theorem runPages_ascending {k : ℕ} (hin : InPages h run k) (hpl : Placed h) :
    (runPages run k).Pairwise fun p q => p.toNat < q.toNat := by
  unfold runPages
  rw [List.pairwise_map]
  refine (List.pairwise_lt_range (n := k)).imp_of_mem fun {i j} hi hj hij => ?_
  rw [(hin.page hpl (List.mem_range.1 hi)).1, (hin.page hpl (List.mem_range.1 hj)).1]
  unfold PAGE_SIZE
  omega

/-- A free run brings the frames to no more than the page heap has. -/
theorem Backed.room {k : ℕ} (hb : Backed h root base first o data) (hpl : Placed h)
    (hfree : Free o run k) (hin : InPages h run k) : data.length + 1 + k ≤ totalPages h := by
  have hnd : ((first :: data) ++ runPages run k).Nodup := by
    refine List.nodup_append.2 ⟨hb.nodup, ?_, fun p hp q hq e => ?_⟩
    · exact (runPages_ascending hin hpl).imp fun {a b} hlt (e : a = b) =>
        Nat.lt_irrefl _ (e ▸ hlt)
    · obtain ⟨b, hbo, hbp⟩ := hb.owned p hp
      exact Free.not_has hfree hin hpl hq hbo (e ▸ hbp)
  have hlen := nodup_length_le (h := h) hnd fun p hp => by
    rcases List.mem_append.1 hp with hp | hp
    · exact hb.inHeap p hp
    · obtain ⟨j, hj, rfl⟩ := mem_runPages.1 hp
      exact (hin.page hpl hj).2
  rw [List.length_append, runPages_length] at hlen
  exact hlen

theorem Backed.mapRun {k bytes : ℕ} (hb : Backed h root base first o data) (hpl : Placed h)
    (hk : 1 ≤ k) (hne : run ≠ 0#64) (hfree : Free o run k) (hin : InPages h run k)
    (hpages : (pagesToAlloc bytes).toInt = k) (hbytes : runBytes bytes = PAGE_SIZE * k)
    (hleft : (mapRun root run (KERNEL_HEAP_START_VADDR + PAGE_SIZE * (data.length + 1)) bytes
      o).pages ≠ []) :
    let o' := mapRun root run (KERNEL_HEAP_START_VADDR + PAGE_SIZE * (data.length + 1)) bytes o
    Backed h root base first o' (data ++ runPages run k) ∧ ∃ used : List Word,
      (∀ c, c ∈ o'.blocks ↔ (∃ q ∈ used, c = ⟨q, 1⟩) ∨ c = ⟨run, k⟩ ∨ c ∈ o.blocks) ∧
      ∀ a, InTree (child o'.mem) root 2 a ↔ a ∈ used ∨ InTree (child o.mem) root 2 a := by
  intro o'
  have hroom := hb.room hpl hfree hin
  have htotal := hpl.totalPages_lt
  have hmax : max ((k : ℕ) : ℤ).toNat 1 = k := by omega
  set o₁ := o.pageZnalloc (k : ℕ) run with ho₁
  have hblocks₁ : o₁.blocks = ⟨run, k⟩ :: o.blocks := by
    rw [ho₁, Os.pageZnalloc, if_neg hne, hmax]
  have hfree₁ : run ≠ 0#64 → Free o run (max ((k : ℕ) : ℤ).toNat 1) := fun _ => hmax.symm ▸ hfree
  obtain ⟨hrooted₁, hin₁, hleaf₁⟩ := UserProcess.pageZnalloc_rooted hb.rooted hfree₁
  have ho' : o' = o₁.mapMultiple root (heapPage (data.length + 1)) run (PAGE_SIZE * k) HEAP_BITS := by
    change (o.pageZnalloc (pagesToAlloc bytes).toInt run).mapMultiple root _ run _ _ = _
    rw [hpages, hbytes]
    rfl
  have hleft' : o'.pages ≠ [] := hleft
  rw [ho'] at hleft'
  obtain ⟨hrooted, hmaps, used, htakes, huses⟩ := mapMultiple_spec hrooted₁ (by decide) hleft'
  have hcount : (PAGE_SIZE * k + PAGE_SIZE - 1) / PAGE_SIZE = k := by
    unfold PAGE_SIZE
    omega
  rw [hcount] at hmaps
  rw [← ho'] at hrooted hmaps htakes huses
  have hmem (c : Block) : c ∈ o'.blocks ↔
      (∃ q ∈ used, c = ⟨q, 1⟩) ∨ c = ⟨run, k⟩ ∨ c ∈ o.blocks := by
    rw [htakes.blocks, hblocks₁, List.mem_cons]
  have htable (a : Word) : InTree (child o'.mem) root 2 a ↔
      a ∈ used ∨ InTree (child o.mem) root 2 a :=
    (huses.inTree a).trans (or_congr_right (hin₁ a))
  have hused {q : Word} (hq : q ∈ used) : q ∈ o₁.pages := by
    rw [htakes.pages]
    exact List.mem_append_left _ hq
  have hsupply : o₁.pages = o.pages := by
    rw [ho₁, Os.pageZnalloc, if_neg hne]
  have hrun (b : Block) (hbo : b ∈ o.blocks) : Apart ⟨run, k⟩ b := hfree.blocks b hbo
  -- a block with an old frame is an old block
  have hold {p : Word} (hp : p ∈ first :: data) {c : Block} (hc : c ∈ o'.blocks) (hcp : Has c p) :
      c ∈ o.blocks := by
    obtain ⟨b, hbo, hbp⟩ := hb.owned p hp
    rcases (hmem c).1 hc with ⟨q, hq, rfl⟩ | rfl | hc
    · have hmiss := hb.rooted.available.free q b (hsupply ▸ hused hq) hbo
      exact absurd hbp (Apart.has (apart_of_misses hmiss) hcp)
    · exact absurd hbp ((hrun b hbo).has hcp)
    · exact hc
  refine ⟨⟨hrooted, ?_, ?_, ?_, ?_, ?_, ?_, ?_, ?_, ?_⟩, used, hmem, htable⟩
  · have happart := apart_or (P := (· = ⟨run, k⟩)) (Q := (· ∈ o.blocks))
      (fun a b => hb.apart a b) (fun a b ha hb hne => absurd (ha.trans hb.symm) hne)
      (fun a b ha hbo => ha ▸ hrun b hbo)
    refine fun a b ha hbo => apart_or (P := fun c => ∃ q ∈ used, c = ⟨q, 1⟩) happart ?_ ?_ a b
      ((hmem a).1 ha) ((hmem b).1 hbo)
    · rintro _ _ ⟨q, hq, rfl⟩ ⟨q', hq', rfl⟩ hne
      apply misses_of_ne (hrooted₁.available.aligned q (hused hq))
        (hrooted₁.available.aligned q' (hused hq'))
      exact fun e => hne (congrArg (Block.mk · 1) e)
    · rintro _ b ⟨q, hq, rfl⟩ hbq
      refine apart_of_misses (hrooted₁.available.free q b (hused hq) ?_)
      rw [hblocks₁, List.mem_cons]
      exact hbq
  · intro c hc
    rcases (hmem c).1 hc with ⟨q, hq, rfl⟩ | rfl | hc
    · exact hrooted₁.available.aligned q (hused hq)
    · exact hfree.aligned
    · exact hb.aligned c hc
  · intro i p hi
    have hlt : i < data.length + 1 + k := by
      have := (List.getElem?_eq_some_iff.1 hi).1
      simp only [List.length_cons, List.length_append, runPages_length] at this
      omega
    rw [← List.cons_append, List.getElem?_append, List.length_cons] at hi
    rcases hmaps.leaf (heapPage i) with ⟨j, -, hj, hsame, hleaf⟩ | ⟨hnone, hleaf⟩
    · rw [heapPage_add, samePage_heapPage (by omega) (by omega)] at hsame
      rw [if_neg (by omega), runPages_getElem?, if_pos (by omega),
        show i - (data.length + 1) = j by omega] at hi
      rw [hleaf, Option.some.inj hi]
    · have hi' : i < data.length + 1 := by
        by_contra hge
        refine hnone (i - (data.length + 1)) (Nat.zero_le _) (by omega) ?_
        rw [heapPage_add, samePage_heapPage (by omega) (by omega)]
        omega
      rw [if_pos hi'] at hi
      rw [hleaf, hleaf₁]
      exact hb.leaf i p hi
  · intro p hp
    rw [← List.cons_append] at hp
    rcases List.mem_append.1 hp with hp | hp
    · exact hb.inHeap p hp
    · obtain ⟨j, hj, rfl⟩ := mem_runPages.1 hp
      exact (hin.page hpl hj).2
  · intro p hp hpt
    rw [← List.cons_append] at hp
    have hown : Has ⟨p, 1⟩ p := by
      unfold Has PAGE_SIZE
      dsimp only
      omega
    rcases List.mem_append.1 hp with hp | hp
    · rcases (htable p).1 hpt with hu | ht
      · obtain ⟨b, hbo, hbp⟩ := hb.owned p hp
        have hmiss := hb.rooted.available.free p b (hsupply ▸ hused hu) hbo
        exact Apart.has (apart_of_misses hmiss) hown hbp
      · exact hb.noTable p hp ht
    · rcases (htable p).1 hpt with hu | ht
      · have hmiss := hrooted₁.available.free p ⟨run, k⟩ (hused hu) (by
          rw [hblocks₁]
          exact List.mem_cons_self)
        have hpa := hrooted₁.available.aligned p (hused hu)
        exact Apart.has (apart_of_misses hmiss) hown ((hin.mem_iff hpl hfree.aligned hpa).1 hp)
      · exact Free.not_has hfree hin hpl hp (hb.rooted.owned p ht) hown
  · intro p hp
    rw [← List.cons_append] at hp
    rcases List.mem_append.1 hp with hp | hp
    · obtain ⟨b, hbo, hbp⟩ := hb.owned p hp
      exact ⟨b, (hmem b).2 (Or.inr (Or.inr hbo)), hbp⟩
    · obtain ⟨j, hj, rfl⟩ := mem_runPages.1 hp
      have hpa := (hin.page hpl hj).2.aligned hpl
      exact ⟨⟨run, k⟩, (hmem _).2 (Or.inr (Or.inl rfl)), (hin.mem_iff hpl hfree.aligned hpa).1 hp⟩
  · rw [← List.cons_append]
    refine List.pairwise_append.2 ⟨?_, ?_, ?_⟩
    · refine hb.ascending.imp_of_mem fun {p q} hp _ hpq b hbo hbp hbq => ?_
      exact hpq b (hold hp hbo hbp) hbp hbq
    · exact (runPages_ascending hin hpl).imp fun {p q} hlt _ _ _ _ => hlt
    · intro p hp q hq b hbo hbp hbq
      exact absurd hbq (Free.not_has hfree hin hpl hq (hold hp hbo hbp))
  · exact fun b hbase => (hmem b).2 (Or.inr (Or.inr (hb.base_kept b hbase)))
  · intro p b hp hbase
    rcases List.mem_append.1 hp with hp | hp
    · exact hb.base_apart p b hp hbase
    · exact Free.not_has hfree hin hpl hp (hb.base_kept b hbase)

/-! ## Pages that are given back -/

/-- Every block is one of those at the start, a table, or made of frames that `page_free`
takes back. -/
structure Accounted (h : HeapSymbols) (root : Word) (base : List Block) (o : Os)
    (data : List Word) : Prop where
  within (p : Word) : p ∈ data → p.toNat ≤ h.stop
  block (b : Block) : b ∈ o.blocks → b ∈ base ∨ (∃ a, InTree (child o.mem) root 2 a ∧ b = ⟨a, 1⟩) ∨
    0 < b.pages ∧ ∀ q, Aligned q → Has b q → q ∈ data

theorem Accounted.release (hacc : Accounted h root base o (data ++ [p]))
    (hb : Backed h root base first o (data ++ [p])) (hpl : Placed h) :
    Accounted h root base (release h root (heapPage (data.length + 1)) o) data := by
  obtain ⟨-, f, -, htrim, hmem, hin⟩ := hb.release hpl
  have hpm : p ∈ first :: (data ++ [p]) := by simp
  have hpa := (hb.inHeap p hpm).aligned hpl
  obtain rfl := htrim (hacc.within p (by simp))
  have hother {q : Word} (hq : q ∈ data ++ [p]) (hne : q ≠ p) : q ∈ data := by
    rcases List.mem_append.1 hq with hq | hq
    · exact hq
    · exact absurd (List.mem_singleton.1 hq) hne
  refine ⟨fun q hq => hacc.within q (List.mem_append_left _ hq), fun c hc => ?_⟩
  obtain ⟨b, hbo, hbc⟩ := (hmem c).1 hc
  by_cases hbp : Has b p
  · rcases hacc.block b hbo with hbase | ⟨a, ha, rfl⟩ | ⟨-, hall⟩
    · exact absurd hbp (hb.base_apart p b (by simp) hbase)
    · exact absurd hbp (hb.table_apart hpl hpm ha)
    · have hba := hb.aligned b hbo
      refine Or.inr (Or.inr ⟨?_, fun q hq hcq => ?_⟩)
      · have hne : p ≠ b.start := by
          rintro rfl
          simp [trim, hbp] at hbc
        have hne' : p.toNat ≠ b.start.toNat := fun e => hne (BitVec.eq_of_toNat_eq e)
        unfold trim at hbc
        rw [if_pos hbp, if_neg hne] at hbc
        obtain rfl := Option.some.inj hbc
        unfold Has Aligned PAGE_SIZE at *
        dsimp only
        omega
      · obtain ⟨hbq, hlt⟩ := (has_trim hba hpa hq hbp hbc).1 hcq
        exact hother (hall q hq hbq) fun e => Nat.lt_irrefl _ (e ▸ hlt)
  · obtain rfl : b = c := by
      unfold trim at hbc
      rw [if_neg hbp] at hbc
      exact Option.some.inj hbc
    rcases hacc.block b hbo with hbase | ⟨a, ha, rfl⟩ | ⟨hpos, hall⟩
    · exact Or.inl hbase
    · exact Or.inr (Or.inl ⟨a, (hin a).2 ha, rfl⟩)
    · exact Or.inr (Or.inr ⟨hpos, fun q hq hbq => hother (hall q hq hbq) fun e => hbp (e ▸ hbq)⟩)

/-- The end of the heap whose frames these are. -/
def topOf (data : List Word) : ℕ := KERNEL_HEAP_START_VADDR + PAGE_SIZE * (data.length + 1)

theorem Backed.shrinkFrom {last n : ℕ} {s t : Heap} (hb : Backed h root base first o data)
    (hpl : Placed h) (htop : s.kernelHeapVaddr = topOf data) (hlow : KERNEL_HEAP_START_VADDR ≤ last)
    (hsum : last + headerSize + size s.mem last < 2 ^ 64)
    (ht : KernelHeap.shrinkFrom last n s = some t) :
    ∃ o' data', shrinkFrom h root last n s o = some (t, o') ∧
      Backed h root base first o' data' ∧ t.kernelHeapVaddr = topOf data' ∧ data' <+: data ∧
      (Accounted h root base o data → Accounted h root base o' data') := by
  induction n generalizing s o data with
  | zero => cases ht
  | succ n ih =>
    rw [KernelHeap.shrinkFrom, pageSize_eq] at ht
    rw [HeapFrames.shrinkFrom]
    by_cases hc : add64 (last + headerSize) (size s.mem last) = s.kernelHeapVaddr ∧
        PAGE_SIZE ≤ size s.mem last
    · have hc' := hc
      rw [if_pos hc] at ht
      rw [if_pos hc]
      obtain ⟨hend, hsize⟩ := hc'
      rw [KernelHeap.add64_eq hsum, htop] at hend
      -- the node above the head is larger than a page, so the heap has more than one
      have hpos : 0 < data.length := by
        unfold topOf headerSize at *
        unfold PAGE_SIZE at *
        omega
      obtain ⟨data₀, p, rfl⟩ := List.eq_nil_or_concat' data |>.resolve_left
        (List.ne_nil_of_length_pos hpos)
      have hlen : (data₀ ++ [p]).length = data₀.length + 1 := by simp
      have hsub : sub64 s.kernelHeapVaddr PAGE_SIZE = topOf data₀ := by
        have hlast := hb.length_le
        have htotal := hpl.totalPages_lt
        rw [htop, KernelHeap.sub64_eq]
        all_goals
          unfold topOf at *
          rw [hlen] at *
          unfold KERNEL_HEAP_START_VADDR PAGE_SIZE at *
          omega
      obtain ⟨hb', -⟩ := hb.release hpl
      have hsub' : sub64 (size s.mem last) PAGE_SIZE = size s.mem last - PAGE_SIZE :=
        KernelHeap.sub64_eq hsize (by omega)
      have hsize' : size (setSize s.mem last (size s.mem last - PAGE_SIZE)) last =
          size s.mem last - PAGE_SIZE := Function.update_self ..
      obtain ⟨o', data', hrun, hbacked, htop', hpre, hacc⟩ :=
        ih (s := ⟨setSize s.mem last (sub64 (size s.mem last) PAGE_SIZE),
          sub64 s.kernelHeapVaddr PAGE_SIZE⟩) hb' hsub (by rw [hsub', hsize']; omega) ht
      refine ⟨o', data', ?_, hbacked, htop', hpre.trans (List.prefix_append _ _),
        fun ha => hacc (ha.release hb hpl)⟩
      rw [← hrun, hsub]
      rfl
    · rw [if_neg hc] at ht
      rw [if_neg hc]
      obtain rfl := Option.some.inj ht
      exact ⟨o, data, rfl, hb, htop, List.prefix_refl _, id⟩

theorem Accounted.mapRun {k bytes : ℕ} (hacc : Accounted h root base o data)
    (hb : Backed h root base first o data) (hpl : Placed h) (hk : 1 ≤ k) (hne : run ≠ 0#64)
    (hfree : Free o run k) (hin : InPages h run k) (hpages : (pagesToAlloc bytes).toInt = k)
    (hbytes : runBytes bytes = PAGE_SIZE * k)
    (hleft : (HeapFrames.mapRun root run (topOf data) bytes o).pages ≠ [])
    (hstop : run.toNat + PAGE_SIZE * k ≤ h.stop) :
    Accounted h root base (mapRun root run (topOf data) bytes o) (data ++ runPages run k) := by
  obtain ⟨hb', used, hmem, htable⟩ := hb.mapRun hpl hk hne hfree hin hpages hbytes hleft
  refine ⟨fun p hp => ?_, fun b hbo => ?_⟩
  · rcases List.mem_append.1 hp with hp | hp
    · exact hacc.within p hp
    · obtain ⟨j, hj, rfl⟩ := mem_runPages.1 hp
      rw [(hin.page hpl hj).1]
      unfold PAGE_SIZE at *
      omega
  · rcases (hmem b).1 hbo with ⟨q, hq, rfl⟩ | rfl | hbo
    · exact Or.inr (Or.inl ⟨q, (htable q).2 (Or.inl hq), rfl⟩)
    · refine Or.inr (Or.inr ⟨hk, fun q hq hbq => List.mem_append_right _ ?_⟩)
      exact (hin.mem_iff hpl hfree.aligned hq).2 hbq
    · rcases hacc.block b hbo with hbase | ⟨a, ha, rfl⟩ | ⟨hpos, hall⟩
      · exact Or.inl hbase
      · exact Or.inr (Or.inl ⟨a, (htable a).2 (Or.inr ha), rfl⟩)
      · exact Or.inr (Or.inr ⟨hpos, fun q hq hbq => List.mem_append_left _ (hall q hq hbq)⟩)

section Calls
variable {live : ℕ → Option ℕ} {s : Heap} {cells : List ℕ} {a : ℕ}

/-- `kfree` of a live block. -/
theorem Backed.kfree (hb : Backed h root base first o data) (hpl : Placed h)
    (htop : s.kernelHeapVaddr = topOf data) (hr : Represents (totalPages h) live s cells)
    (hq : live a ≠ none) :
    ∃ t o' cells' data', kfree h root s o a = some (t, o') ∧
      Represents (totalPages h) (Function.update live a none) t cells' ∧
      KernelHeap.Settled (Function.update live a none) t cells' ∧
      Backed h root base first o' data' ∧ t.kernelHeapVaddr = topOf data' ∧ data' <+: data ∧
      (Accounted h root base o data → Accounted h root base o' data') := by
  obtain ⟨q, -, rfl⟩ := hr.live_cell a hq
  obtain ⟨hsub, b, u, cells', hsearch, hu, hru, -, htopu, hc⟩ := hr.returned hpl.totalPages_lt hq
  obtain ⟨t, ht, hrt, -, -, htrim⟩ := hru.heapShrink hpl.totalPages_lt
  obtain ⟨hlow, hsum⟩ : KERNEL_HEAP_START_VADDR ≤ prev u.mem kmallocHead ∧
      prev u.mem kmallocHead + headerSize + size u.mem (prev u.mem kmallocHead) < 2 ^ 64 := by
    rcases hru.prev_head.2 with hhead | ⟨hmem, -⟩
    · rw [hhead, hru.head_size]
      exact ⟨le_refl _, by decide⟩
    · have hle := hru.cell_le hpl.totalPages_lt hmem
      generalize prev u.mem kmallocHead = last at hle ⊢
      unfold KernelHeap.cell kmallocHead headerSize KERNEL_HEAP_START_VADDR at *
      omega
  obtain ⟨o', data', hshrink, hb', htop', hpre, hacc⟩ :=
    hb.shrinkFrom hpl (htopu.trans htop) hlow hsum ht
  refine ⟨t, o', cells', data', ?_, hrt, ⟨hc, htrim⟩, hb', htop', hpre, hacc⟩
  have hne : q + headerSize ≠ 0 := Nat.succ_ne_zero _
  rw [HeapFrames.kfree, if_neg hne]
  simp only [hsub, hsearch, hu]
  exact hshrink

/-- The heap's part of an allocation. -/
theorem commonAlloc_heap {root run : Word} {s : Heap} {o : Os} {bytes : ℕ}
    {doZero contiguous : Bool} {r : (Heap × ℕ) × Os}
    (hr : commonAlloc root run s o bytes doZero contiguous = some r) :
    KernelHeap.commonAlloc s bytes doZero contiguous (run ≠ 0#64) = some r.1 ∧
      (r.2 = o ∧ r.1.1.kernelHeapVaddr = s.kernelHeapVaddr ∨
        run ≠ 0#64 ∧ r.2 = mapRun root run s.kernelHeapVaddr (roundUp bytes) o ∧
          r.1.1.kernelHeapVaddr = add64 s.kernelHeapVaddr (runBytes (roundUp bytes))) := by
  unfold HeapFrames.commonAlloc at hr
  unfold KernelHeap.commonAlloc
  simp only at hr ⊢
  generalize search (next s.mem) _ _ _ = found at hr ⊢
  cases found with
  | none => cases hr
  | some p =>
    simp only at hr ⊢
    by_cases hc : p = kmallocHead ∨ contiguous = true
    · rw [if_pos hc] at hr ⊢
      by_cases hrun : run = 0#64
      · rw [if_pos hrun] at hr
        obtain rfl := Option.some.inj hr
        exact ⟨by simp [hrun], Or.inl ⟨rfl, rfl⟩⟩
      · rw [if_neg hrun] at hr
        obtain rfl := Option.some.inj hr
        exact ⟨by simp [hrun], Or.inr ⟨hrun, rfl, rfl⟩⟩
    · rw [if_neg hc] at hr ⊢
      obtain rfl := Option.some.inj hr
      exact ⟨rfl, Or.inl ⟨rfl, rfl⟩⟩

/-- The run is free, and in the page heap. -/
structure Granted (h : HeapSymbols) (o : Os) (run : Word) (k : ℕ) : Prop where
  free : Free o run k
  inPages : InPages h run k

/-- The pages that `common_alloc` asks for. -/
def askedPages (bytes : ℕ) : ℕ := (pagesToAlloc (roundUp bytes)).toNat

theorem askedPages_eq {bytes : ℕ} (hbytes : bytes < 2 ^ 31 - 8192) :
    1 ≤ askedPages bytes ∧ (pagesToAlloc (roundUp bytes)).toInt = askedPages bytes ∧
      runBytes (roundUp bytes) = PAGE_SIZE * askedPages bytes := by
  obtain ⟨-, hmax, -⟩ := KernelHeap.roundUp_spec hbytes
  obtain ⟨hlt, hpages⟩ := KernelHeap.pagesToAlloc_eq hmax
  have hrun := KernelHeap.runBytes_eq hmax
  have hpos : 1 ≤ (roundUp bytes + headerSize + (KernelHeap.PAGE_SIZE - 1)) /
      KernelHeap.PAGE_SIZE := by
    unfold headerSize KernelHeap.PAGE_SIZE
    omega
  unfold askedPages
  rw [hpages, hrun]
  generalize (roundUp bytes + headerSize + (KernelHeap.PAGE_SIZE - 1)) / KernelHeap.PAGE_SIZE = k
    at hlt hpos ⊢
  have hnat : (BitVec.ofNat 32 k).toNat = k := by
    rw [BitVec.toNat_ofNat]
    omega
  rw [hnat, BitVec.toInt_eq_toNat_of_lt (by rw [hnat]; omega), hnat]
  exact ⟨hpos, rfl, rfl⟩

/-- `common_alloc` with what the page allocator gives it. -/
theorem Backed.commonAlloc (hb : Backed h root base first o data) (hpl : Placed h)
    (htop : s.kernelHeapVaddr = topOf data) (hr : Represents (totalPages h) live s cells) {bytes : ℕ}
    (hbytes : bytes < 2 ^ 31 - 8192) {doZero contiguous : Bool}
    (hgrant : run ≠ 0#64 → Granted h o run (askedPages bytes)) {r : (Heap × ℕ) × Os}
    (hres : commonAlloc root run s o bytes doZero contiguous = some r) (hleft : r.2.pages ≠ []) :
    ∃ data', Backed h root base first r.2 data' ∧ r.1.1.kernelHeapVaddr = topOf data' ∧
      (r.1 = (s, 0) ∧ data' = data ∨ r.1.2 ≠ 0 ∧ live r.1.2 = none ∧
        (∃ cells', Represents (totalPages h) (Function.update live r.1.2 (some bytes)) r.1.1 cells') ∧
        (contiguous = false ∧ data' = data ∨
          r.1.2 = topOf data + headerSize ∧ data' = data ++ runPages run (askedPages bytes))) ∧
      ((run ≠ 0#64 → run.toNat + PAGE_SIZE * askedPages bytes ≤ h.stop) →
        Accounted h root base o data → Accounted h root base r.2 data') := by
  obtain ⟨hk, hint, hrun⟩ := askedPages_eq hbytes
  obtain ⟨hheap, hos⟩ := commonAlloc_heap hres
  have hroom (hne : run ≠ 0#64) : topOf data + runBytes (roundUp bytes) ≤
      KERNEL_HEAP_START_VADDR + PAGE_SIZE * totalPages h := by
    have hroom := hb.room hpl (hgrant hne).free (hgrant hne).inPages
    rw [hrun]
    unfold topOf PAGE_SIZE
    omega
  have hspec := hr.commonAlloc hpl.totalPages_lt hbytes doZero contiguous (run ≠ 0#64)
    fun hg => htop ▸ hroom (of_decide_eq_true hg)
  rw [hheap] at hspec
  have hpos : 0 < runBytes (roundUp bytes) := by
    rw [hrun]
    unfold PAGE_SIZE
    omega
  rcases hos with ⟨hsame, htop'⟩ | ⟨hne, hmap, htop'⟩
  · -- no pages were taken
    rw [hsame]
    refine ⟨data, hb, htop'.trans htop, ?_, fun _ hacc => hacc⟩
    rcases hspec with heq | ⟨t, p, cells', heq, hp, hfresh, hr', -, hwhere⟩
    · exact Or.inl ⟨Option.some.inj heq, rfl⟩
    · rw [Option.some.inj heq] at htop' ⊢
      refine Or.inr ⟨hp, hfresh, ⟨cells', hr'⟩, Or.inl ⟨?_, rfl⟩⟩
      rcases hwhere with ⟨hc, -⟩ | ⟨-, -, hgrow⟩
      · exact hc
      · dsimp only at htop'
        omega
  · have hfree := (hgrant hne).free
    have hin := (hgrant hne).inPages
    have hadd : add64 s.kernelHeapVaddr (runBytes (roundUp bytes)) =
        topOf data + runBytes (roundUp bytes) := by
      have hle := hroom hne
      have htotal := hpl.totalPages_lt
      rw [htop]
      apply KernelHeap.add64_eq
      unfold KERNEL_HEAP_START_VADDR PAGE_SIZE at hle
      omega
    rw [htop] at hmap
    rw [hmap] at hleft ⊢
    have hgrown : topOf data + runBytes (roundUp bytes) =
        topOf (data ++ runPages run (askedPages bytes)) := by
      rw [hrun]
      unfold topOf
      rw [List.length_append, runPages_length]
      unfold PAGE_SIZE
      omega
    obtain ⟨hb', -⟩ := hb.mapRun hpl hk hne hfree hin hint hrun hleft
    refine ⟨_, hb', (htop'.trans hadd).trans hgrown, ?_, fun hstop hacc =>
      hacc.mapRun hb hpl hk hne hfree hin hint hrun hleft (hstop hne)⟩
    rcases hspec with heq | ⟨t, p, cells', heq, hp, hfresh, hr', -, hwhere⟩
    · rw [Option.some.inj heq] at htop'
      dsimp only at htop'
      omega
    · rw [Option.some.inj heq] at htop' ⊢
      refine Or.inr ⟨hp, hfresh, ⟨cells', hr'⟩, Or.inr ⟨?_, rfl⟩⟩
      rcases hwhere with ⟨-, hsame⟩ | ⟨-, hplace, -⟩
      · dsimp only at htop'
        omega
      · rw [← htop]
        exact hplace

end Calls

end Backed

/-! ## Runs -/

/-- The heap, its live blocks with the bytes requested for each, and the live blocks that `kcalloc`
returned. -/
structure State where
  heap : Heap
  os : Os
  live : ℕ → Option ℕ
  kcalloced : ℕ → Option ℕ

inductive Event
  | kmalloc (bytes : ℕ) (run : Word) (supply : List Word)
  | kzalloc (bytes : ℕ) (run : Word) (supply : List Word)
  | kcalloc (bytes : ℕ) (run : Word) (supply : List Word)
  | kfree (addr : ℕ)
  /-- the owner of a live block writes to it -/
  | write (w v : ℕ)
  /-- the memory behind the heap changes with the heap's words -/
  | store (y : ℕ) (v : Word)

/-- `init_kernel_heap` -/
def initKernelHeap (root : Word) (m : Words) (o : Os) : State :=
  let (p, o) := o.pageZalloc
  { heap := KernelHeap.initKernelHeap m
    os := o.run (mmuMap o.toMachine root (heapPage 0) p HEAP_BITS).2
    live := fun _ => none
    kcalloced := fun _ => none }

/-- A block that was returned is live. -/
def allocated (s : State) (bytes : ℕ) (contiguous : Bool) (r : (Heap × ℕ) × Os) : State where
  heap := r.1.1
  os := r.2
  live := if r.1.2 = 0 then s.live else Function.update s.live r.1.2 (some bytes)
  kcalloced := if r.1.2 = 0 ∨ contiguous = false then s.kcalloced
    else Function.update s.kcalloced r.1.2 (some bytes)

def freed (s : State) (addr : ℕ) (r : Heap × Os) : State where
  heap := r.1
  os := r.2
  live := Function.update s.live addr none
  kcalloced := Function.update s.kcalloced addr none

/-- An allocation that returns: its request is within bounds, `page_znalloc` gave it a free run or
0, and `page_zalloc` did not run out of pages for the tables. -/
def Allocation (h : HeapSymbols) (root : Word) (s : State) (bytes : ℕ) (run : Word)
    (supply : List Word) (doZero contiguous : Bool) (t : State) : Prop :=
  let o := { s.os with pages := supply }
  bytes < 2 ^ 31 - 8192 ∧ Available o ∧ (run ≠ 0#64 → Granted h o run (askedPages bytes)) ∧
    ∃ r, commonAlloc root run s.heap o bytes doZero contiguous = some r ∧ r.2.pages ≠ [] ∧
      t = allocated s bytes contiguous r

/-- `w` is in the payload of a live block. -/
def InBlock (s : State) (w : ℕ) : Prop :=
  ∃ p, s.live p ≠ none ∧ p ≤ w ∧ w < p + size s.heap.mem (p - headerSize)

/-- `y` is the physical address of a byte of the heap. -/
def BehindHeap (root : Word) (s : State) (y : ℕ) : Prop :=
  ∃ v, KERNEL_HEAP_START_VADDR ≤ v ∧ v < s.heap.kernelHeapVaddr ∧
    (mmuTranslate s.os.mem root (BitVec.ofNat 64 v)).toNat = y

def Step (h : HeapSymbols) (root : Word) (s : State) (e : Event) (t : State) : Prop :=
  match e with
  | .kmalloc bytes run supply => Allocation h root s bytes run supply false false t
  | .kzalloc bytes run supply => Allocation h root s bytes run supply true false t
  | .kcalloc bytes run supply => Allocation h root s bytes run supply true true t
  | .kfree addr => (addr = 0 ∨ s.live addr ≠ none) ∧
      ∃ r, kfree h root s.heap s.os addr = some r ∧ t = freed s addr r
  | .write w v => InBlock s w ∧ v < 2 ^ 64 ∧
      t = { s with heap := { s.heap with mem := Function.update s.heap.mem w v } }
  | .store y v => BehindHeap root s y ∧
      t = { s with os := { s.os with mem := Function.update s.os.mem y v } }

/-- `kernel_mmu_table` and the blocks handed out before `init_kernel_heap`. -/
structure Ready (h : HeapSymbols) (root : Word) (m : Words) (o : Os) : Prop where
  rooted : Rooted root o
  apart (a b : Block) : a ∈ o.blocks → b ∈ o.blocks → a ≠ b → Apart a b
  aligned (b : Block) : b ∈ o.blocks → Aligned b.start
  inHeap : InPageHeap h o.pageZalloc.1
  left : (initKernelHeap root m o).os.pages ≠ []

structure Invariant (h : HeapSymbols) (root : Word) (base : List Block) (first : Word) (s : State)
    (data : List Word) : Prop where
  heap : ∃ cells, Represents (totalPages h) s.live s.heap cells
  backed : Backed h root base first s.os data
  top : s.heap.kernelHeapVaddr = topOf data
  kcalloced (a n : ℕ) : s.kcalloced a = some n → s.live a = some n
  /-- the pages of a block lie one after the other in physical memory -/
  linear (a n : ℕ) : s.kcalloced a = some n → ∃ off : Word, ∀ j p,
    (first :: data)[j]? = some p → a < KERNEL_HEAP_START_VADDR + PAGE_SIZE * (j + 1) →
    KERNEL_HEAP_START_VADDR + PAGE_SIZE * j < a + n → p = off + BitVec.ofNat 64 (PAGE_SIZE * j)

/-! ## The first page -/

section Init
variable {h : HeapSymbols} {root : Word} {m : Words} {o : Os}

/-- A page from `page_zalloc` is none of a table. -/
theorem pageZalloc_rooted (hr : Rooted root o) (hleft : 1 ≤ o.pages.length) :
    Rooted root o.pageZalloc.2 ∧ Takes o o.pageZalloc.2 [o.pageZalloc.1] ∧
      ∀ a, InTree (child o.pageZalloc.2.mem) root 2 a ↔ InTree (child o.mem) root 2 a := by
  obtain ⟨p, hp, htakes, hal, -, hmem⟩ := pageZalloc_spec hr.available hleft
  have hpo : p ∈ o.pages := by
    rw [htakes.pages]
    exact List.mem_append_left _ List.mem_cons_self
  have hkeep (a : Word) (ha : InTree (child o.mem) root 2 a) (i : Fin 512) :
      o.pageZalloc.2.mem (entryAddr a i) = o.mem (entryAddr a i) := by
    rw [hmem]
    refine zeroPage_entry hal (hr.tree.aligned a ha) (fun e => ?_) i
    exact hr.freshPages.fresh p hpo (e ▸ ha)
  obtain ⟨htree, hin, -⟩ := hr.tree.congr hkeep
  rw [hp]
  exact ⟨⟨htakes.available hr.available, htree, fun a ha =>
    (htakes.blocks _).2 (Or.inr (hr.owned a ((hin a).1 ha)))⟩, htakes, hin⟩

theorem mmuMap_eq (o : Os) (root vaddr paddr : Word) :
    o.run (mmuMap o.toMachine root vaddr paddr HEAP_BITS).2 =
      o.mapMultiple root vaddr paddr PAGE_SIZE HEAP_BITS := by
  have hcount : (PAGE_SIZE + PAGE_SIZE - 1) / PAGE_SIZE = 1 := rfl
  unfold Os.mapMultiple mmuMapMultiple
  rw [hcount, mapPages, Nat.mul_zero]
  simp only [BitVec.add_zero]
  split_ifs <;> rfl

theorem Ready.backed (hr : Ready h root m o) :
    Backed h root (initKernelHeap root m o).os.blocks o.pageZalloc.1 (initKernelHeap root m o).os
      [] := by
  have hos : (initKernelHeap root m o).os =
      o.pageZalloc.2.mapMultiple root (heapPage 0) o.pageZalloc.1 PAGE_SIZE HEAP_BITS :=
    mmuMap_eq ..
  have hleft := hr.left
  rw [hos] at hleft
  have hleft₁ : 1 ≤ o.pageZalloc.2.pages.length :=
    List.length_pos_of_ne_nil (mapMultiple_left hleft)
  have hleft₀ : 1 ≤ o.pages.length :=
    pages_left (pageZalloc_suffix o.toMachine) (mapMultiple_left hleft)
  obtain ⟨hrooted₁, htakes₁, hin₁⟩ := pageZalloc_rooted hr.rooted hleft₀
  obtain ⟨hrooted, hmaps, used, htakes, huses⟩ := mapMultiple_spec hrooted₁ (by decide) hleft
  rw [← hos] at hrooted hmaps htakes huses
  have htotal := htakes₁.trans htakes
  have hheap := hr.inHeap
  generalize o.pageZalloc.1 = first at *
  generalize o.pageZalloc.2 = o₁ at *
  generalize (initKernelHeap root m o).os = o₂ at *
  have hmem {q : Word} (hq : q ∈ [first] ++ used) : q ∈ o.pages := by
    rw [htotal.pages]
    exact List.mem_append_left _ hq
  have hfirst : first ∈ o.pages := hmem (by simp)
  have hsingle {i : ℕ} {p : Word} (hi : [first][i]? = some p) : i = 0 ∧ p = first := by
    cases i with
    | zero => exact ⟨rfl, (Option.some.inj hi).symm⟩
    | succ i => cases hi
  refine ⟨hrooted, ?_, ?_, ?_, ?_, ?_, ?_, List.pairwise_singleton _ _, fun b hb => hb, ?_⟩
  · refine fun a b ha hb => apart_or (P := fun c => ∃ q ∈ [first] ++ used, c = ⟨q, 1⟩) hr.apart ?_ ?_
      a b ((htotal.blocks a).1 ha) ((htotal.blocks b).1 hb)
    · rintro _ _ ⟨q, hq, rfl⟩ ⟨q', hq', rfl⟩ hne
      apply misses_of_ne (hr.rooted.available.aligned q (hmem hq))
        (hr.rooted.available.aligned q' (hmem hq'))
      exact fun e => hne (congrArg (Block.mk · 1) e)
    · rintro _ b ⟨q, hq, rfl⟩ hb
      exact apart_of_misses (hr.rooted.available.free q b (hmem hq) hb)
  · intro b hb
    rcases (htotal.blocks b).1 hb with ⟨q, hq, rfl⟩ | hb
    · exact hr.rooted.available.aligned q (hmem hq)
    · exact hr.aligned b hb
  · intro i p hi
    obtain ⟨rfl, rfl⟩ := hsingle hi
    rcases hmaps.leaf (heapPage 0) with ⟨j, -, hj, -, hleaf⟩ | ⟨hnone, -⟩
    · have hj0 : j = 0 := by
        unfold PAGE_SIZE at hj
        omega
      rw [hleaf, hj0, Nat.mul_zero, BitVec.add_zero]
    · exact absurd (by rw [heapPage_add]; rfl) (hnone 0 (le_refl 0) (by decide))
  · intro p hp
    rw [List.mem_singleton.1 hp]
    exact hheap
  · intro p hp ht
    rw [List.mem_singleton.1 hp] at ht
    rcases (huses.inTree first).1 ht with hu | ht
    · have hnd := hr.rooted.available.nodup
      rw [htakes₁.pages, htakes.pages] at hnd
      exact (List.nodup_append.1 hnd).2.2 first (by simp) first (List.mem_append_left _ hu) rfl
    · exact hr.rooted.freshPages.fresh first hfirst ((hin₁ first).1 ht)
  · intro p hp
    rw [List.mem_singleton.1 hp]
    refine ⟨⟨first, 1⟩, (htotal.blocks _).2 (Or.inl ⟨first, by simp, rfl⟩), ?_⟩
    unfold Has PAGE_SIZE
    dsimp only
    omega
  · exact fun p b hp => absurd hp List.not_mem_nil

theorem initial_accounted (h : HeapSymbols) (root : Word) (m : Words) (o : Os) :
    Accounted h root (initKernelHeap root m o).os.blocks (initKernelHeap root m o).os [] :=
  ⟨fun _ hp => absurd hp List.not_mem_nil, fun _ hb => Or.inl hb⟩

theorem Ready.invariant (hr : Ready h root m o) :
    Invariant h root (initKernelHeap root m o).os.blocks o.pageZalloc.1 (initKernelHeap root m o)
      [] := by
  obtain ⟨i, -, hlt⟩ := hr.inHeap
  exact ⟨KernelHeap.initial_invariant (Nat.zero_lt_of_lt hlt) m, hr.backed, rfl,
    (fun a n hn => nomatch hn), (fun a n hn => nomatch hn)⟩

end Init

/-! ## Every step -/

section Steps
variable {h : HeapSymbols} {root first run : Word} {base : List Block} {s t : State}
  {data : List Word} {a n bytes : ℕ} {supply : List Word}

/-- A live block lies in the heap. -/
theorem Invariant.block_le (hi : Invariant h root base first s data) (ha : s.live a = some n) :
    KERNEL_HEAP_START_VADDR ≤ a ∧ a + n ≤ topOf data := by
  obtain ⟨cells, hr⟩ := hi.heap
  obtain ⟨c, hc, rfl⟩ := hr.live_cell a (by rw [ha]; exact Option.some_ne_none n)
  have hbounds := hr.tiled.bounds hc
  have hreq := hr.requested c n hc ha
  rw [hi.top] at hbounds
  unfold KernelHeap.cell kmallocHead at hbounds
  omega

theorem Invariant.live_zero (hi : Invariant h root base first s data) : s.live 0 = none := by
  obtain ⟨cells, hr⟩ := hi.heap
  by_contra hne
  obtain ⟨c, -, he⟩ := hr.live_cell 0 hne
  exact absurd he (Nat.succ_ne_zero _).symm

/-- Another supply of pages for the tables. -/
theorem Backed.supplied {o : Os} (hb : Backed h root base first o data)
    (hs : Available { o with pages := supply }) :
    Backed h root base first { o with pages := supply } data :=
  ⟨⟨hs, hb.rooted.tree, hb.rooted.owned⟩, hb.apart, hb.aligned, hb.leaf, hb.inHeap, hb.noTable,
    hb.owned, hb.ascending, hb.base_kept, hb.base_apart⟩

theorem Invariant.allocation {doZero contiguous : Bool}
    (hi : Invariant h root base first s data) (hpl : Placed h)
    (ht : Allocation h root s bytes run supply doZero contiguous t) :
    ∃ data', Invariant h root base first t data' ∧
      ((run ≠ 0#64 → run.toNat + PAGE_SIZE * askedPages bytes ≤ h.stop) →
        Accounted h root base s.os data → Accounted h root base t.os data') := by
  obtain ⟨hbytes, hs, hgrant, r, hres, hleft, rfl⟩ := ht
  obtain ⟨cells, hr⟩ := hi.heap
  obtain ⟨data', hb', htop', hcases, hacc⟩ :=
    (hi.backed.supplied hs).commonAlloc hpl hi.top hr hbytes hgrant hres hleft
  refine ⟨data', ?_, fun hstop ha => hacc hstop ⟨ha.within, ha.block⟩⟩
  rcases hcases with ⟨heq, rfl⟩ | ⟨hne, hfresh, hr', hwhere⟩
  · have hlive : allocated s bytes contiguous r = { s with os := r.2 } := by
      unfold allocated
      simp [heq]
    rw [hlive]
    exact ⟨⟨cells, hr⟩, hb', hi.top, hi.kcalloced, hi.linear⟩
  · have hlive : (allocated s bytes contiguous r).live =
        Function.update s.live r.1.2 (some bytes) := if_neg hne
    have hkcalloced (b k : ℕ) (hb : (allocated s bytes contiguous r).kcalloced b = some k) :
        s.kcalloced b = some k ∨ b = r.1.2 ∧ k = bytes ∧ contiguous = true := by
      unfold allocated at hb
      dsimp only at hb
      split_ifs at hb with hc
      · exact Or.inl hb
      · rw [Function.update_apply] at hb
        split_ifs at hb with hbr
        · exact Or.inr ⟨hbr, (Option.some.inj hb).symm,
            Bool.eq_true_of_not_eq_false fun hf => hc (Or.inr hf)⟩
        · exact Or.inl hb
    have hpre : data <+: data' := by
      rcases hwhere with ⟨-, rfl⟩ | ⟨-, rfl⟩
      · exact List.prefix_refl _
      · exact List.prefix_append _ _
    refine ⟨?_, hb', htop', fun b k hb => ?_, fun b k hb => ?_⟩
    · rw [hlive]
      exact hr'
    · rw [hlive]
      rcases hkcalloced b k hb with hold | ⟨rfl, rfl, -⟩
      · have hb := hi.kcalloced b k hold
        rw [Function.update_of_ne, hb]
        rintro rfl
        rw [hfresh] at hb
        cases hb
      · rw [Function.update_self]
    · rcases hkcalloced b k hb with hold | ⟨rfl, rfl, hc⟩
      · obtain ⟨off, hoff⟩ := hi.linear b k hold
        refine ⟨off, fun j p hj h1 h2 => hoff j p ?_ h1 h2⟩
        -- the pages of an older block are below those that were taken now
        have hle := (hi.block_le (hi.kcalloced b k hold)).2
        have hlt : j < (first :: data).length := by
          rw [List.length_cons]
          unfold topOf PAGE_SIZE at *
          omega
        obtain ⟨rest, rfl⟩ := hpre
        rw [← List.cons_append, List.getElem?_append_left hlt] at hj
        exact hj
      · rcases hwhere with ⟨hnc, -⟩ | ⟨hplace, rfl⟩
        · rw [hc] at hnc
          cases hnc
        · refine ⟨run - BitVec.ofNat 64 (PAGE_SIZE * (data.length + 1)), fun j p hj h1 h2 => ?_⟩
          have hge : data.length + 1 ≤ j := by
            rw [hplace] at h1
            unfold topOf PAGE_SIZE at *
            omega
          rw [← List.cons_append, List.getElem?_append_right hge, runPages_getElem?,
            List.length_cons] at hj
          split_ifs at hj
          rw [← Option.some.inj hj, BitVec.sub_eq_add_neg, BitVec.add_assoc]
          congr 1
          have hsplit : PAGE_SIZE * j = PAGE_SIZE * (data.length + 1) +
              PAGE_SIZE * (j - (data.length + 1)) := by
            rw [← Nat.mul_add, Nat.add_sub_cancel' hge]
          rw [hsplit, BitVec.ofNat_add, ← BitVec.add_assoc, BitVec.add_comm (-_),
            BitVec.add_neg_eq_sub, BitVec.sub_self, BitVec.zero_add]

/-- `kfree` of a live block ends and leaves the free nodes settled. -/
theorem Invariant.kfree (hi : Invariant h root base first s data) (hpl : Placed h)
    (ha : s.live a ≠ none) :
    ∃ r cells data', kfree h root s.heap s.os a = some r ∧
      Invariant h root base first (freed s a r) data' ∧
      Represents (totalPages h) (Function.update s.live a none) r.1 cells ∧
      KernelHeap.Settled (Function.update s.live a none) r.1 cells ∧
      (Accounted h root base s.os data → Accounted h root base r.2 data') := by
  obtain ⟨cells, hr⟩ := hi.heap
  obtain ⟨t, o', cells', data', hres, hr', hset, hb', htop', hpre, hacc⟩ :=
    hi.backed.kfree hpl hi.top hr ha
  have hkept (b k : ℕ) (hb : Function.update s.kcalloced a none b = some k) :
      b ≠ a ∧ s.kcalloced b = some k := by
    rw [Function.update_apply] at hb
    split_ifs at hb with hba
    exact ⟨hba, hb⟩
  refine ⟨(t, o'), cells', data', hres, ⟨⟨cells', hr'⟩, hb', htop', fun b k hb => ?_,
    fun b k hb => ?_⟩, hr', hset, hacc⟩
  · obtain ⟨hba, hb⟩ := hkept b k hb
    exact (Function.update_of_ne hba _ _).trans (hi.kcalloced b k hb)
  · obtain ⟨off, hoff⟩ := hi.linear b k (hkept b k hb).2
    refine ⟨off, fun j p hj => hoff j p ?_⟩
    obtain ⟨rest, rfl⟩ := hpre
    rw [← List.cons_append, List.getElem?_append_left (List.getElem?_eq_some_iff.1 hj).1]
    exact hj

/-- What the heap stores in its pages reaches no table. -/
theorem Invariant.store (hi : Invariant h root base first s data) (hpl : Placed h) {y : ℕ} {v : Word}
    (hy : BehindHeap root s y) :
    Invariant h root base first { s with os := { s.os with mem := Function.update s.os.mem y v } }
      data ∧
    (Accounted h root base s.os data →
      Accounted h root base { s.os with mem := Function.update s.os.mem y v } data) := by
  obtain ⟨w, hlow, hhigh, hy⟩ := hy
  have hb := hi.backed
  rw [hi.top] at hhigh
  obtain ⟨p, hp⟩ : ∃ p, (first :: data)[(w - KERNEL_HEAP_START_VADDR) / PAGE_SIZE]? = some p := by
    refine ⟨_, List.getElem?_eq_getElem ?_⟩
    rw [List.length_cons]
    unfold topOf PAGE_SIZE at *
    omega
  have hw : KERNEL_HEAP_START_VADDR + PAGE_SIZE * ((w - KERNEL_HEAP_START_VADDR) / PAGE_SIZE) +
      (w - KERNEL_HEAP_START_VADDR) % PAGE_SIZE = w := by
    rw [Nat.add_assoc, Nat.div_add_mod, Nat.add_sub_cancel' hlow]
  have htranslate := hb.translate hpl hp (Nat.mod_lt (w - KERNEL_HEAP_START_VADDR)
    (by decide : 0 < PAGE_SIZE))
  rw [hw, hy] at htranslate
  have hmod := Nat.mod_lt (w - KERNEL_HEAP_START_VADDR) (by decide : 0 < PAGE_SIZE)
  have hpm : p ∈ first :: data := List.mem_of_getElem? hp
  have hpa := (hb.inHeap p hpm).aligned hpl
  have hkeep (a : Word) (ha : InTree (child s.os.mem) root 2 a) (i : Fin 512) :
      Function.update s.os.mem y v (entryAddr a i) = s.os.mem (entryAddr a i) := by
    have hap := hb.table_apart hpl hpm ha
    have haa := hb.rooted.tree.aligned a ha
    have hlt := i.isLt
    refine Function.update_of_ne ?_ _ _
    unfold entryAddr
    unfold Has Aligned PAGE_SIZE at *
    dsimp only at hap
    omega
  obtain ⟨htree, hin, hleaf⟩ := hb.rooted.tree.congr hkeep
  have hs := hb.rooted.available
  refine ⟨⟨hi.heap, ⟨⟨⟨hs.nodup, hs.aligned, hs.nonzero, hs.free⟩, htree, fun a ha => hb.rooted.owned a ((hin a).1 ha)⟩,
    hb.apart, hb.aligned, fun i q hq => (hleaf _).trans (hb.leaf i q hq), hb.inHeap,
    fun q hq ht => hb.noTable q hq ((hin q).1 ht), hb.owned, hb.ascending, hb.base_kept,
    hb.base_apart⟩, hi.top, hi.kcalloced, hi.linear⟩, fun ha => ⟨ha.within, fun b hbo => ?_⟩⟩
  exact (ha.block b hbo).imp_right (Or.imp_left fun ⟨a, ht, he⟩ => ⟨a, (hin a).2 ht, he⟩)

theorem Invariant.write (hi : Invariant h root base first s data) {w v : ℕ} (hw : InBlock s w) :
    Invariant h root base first { s with heap := { s.heap with mem := Function.update s.heap.mem w v } }
      data := by
  obtain ⟨p, hp, h1, h2⟩ := hw
  obtain ⟨cells, hr⟩ := hi.heap
  obtain ⟨c, hc, rfl⟩ := hr.live_cell p hp
  refine ⟨⟨cells, hr.payload hc hp fun w' hw' => Function.update_of_ne ?_ _ _⟩, hi.backed, hi.top,
    hi.kcalloced, hi.linear⟩
  rw [Nat.add_sub_cancel] at h2
  unfold KernelHeap.cell at hw'
  omega

/-- The run of an allocation ends at or below the end of the page heap. -/
def Event.Within (h : HeapSymbols) : Event → Prop
  | .kmalloc bytes run _ => run ≠ 0#64 → run.toNat + PAGE_SIZE * askedPages bytes ≤ h.stop
  | .kzalloc bytes run _ => run ≠ 0#64 → run.toNat + PAGE_SIZE * askedPages bytes ≤ h.stop
  | .kcalloc bytes run _ => run ≠ 0#64 → run.toNat + PAGE_SIZE * askedPages bytes ≤ h.stop
  | _ => True

theorem step_preserves_invariant (hi : Invariant h root base first s data) (hpl : Placed h)
    {e : Event} (hs : Step h root s e t) :
    ∃ data', Invariant h root base first t data' ∧
      (e.Within h → Accounted h root base s.os data → Accounted h root base t.os data') := by
  cases e with
  | kmalloc bytes run supply => exact hi.allocation hpl hs
  | kzalloc bytes run supply => exact hi.allocation hpl hs
  | kcalloc bytes run supply => exact hi.allocation hpl hs
  | kfree addr =>
    obtain ⟨hlive, r, hr, rfl⟩ := hs
    by_cases hzero : addr = 0
    · subst hzero
      have hlive := hi.live_zero
      have hkc : s.kcalloced 0 = none := by
        cases hk : s.kcalloced 0 with
        | none => rfl
        | some n => exact nomatch hlive.symm.trans (hi.kcalloced 0 n hk)
      rw [HeapFrames.kfree, if_pos rfl] at hr
      obtain rfl := Option.some.inj hr
      have hsame : freed s 0 (s.heap, s.os) = s := by
        unfold freed
        rw [← hlive, Function.update_eq_self, hlive, ← hkc, Function.update_eq_self]
      rw [hsame]
      exact ⟨data, hi, fun _ ha => ha⟩
    · obtain ⟨r', -, data', hr', hi', -, -, hacc⟩ := hi.kfree hpl (hlive.resolve_left hzero)
      obtain rfl := Option.some.inj (hr.symm.trans hr')
      exact ⟨data', hi', fun _ => hacc⟩
  | write w v =>
    obtain ⟨hw, -, rfl⟩ := hs
    exact ⟨data, hi.write hw, fun _ ha => ha⟩
  | store y v =>
    obtain ⟨hy, rfl⟩ := hs
    obtain ⟨hi', hacc⟩ := hi.store hpl (v := v) hy
    exact ⟨data, hi', fun _ => hacc⟩

end Steps

/-! A heap of 64 pages: a root page, the first page of the kernel heap and one block. -/

def smallRoot : Word := 0x80202000#64

def smallOs : Os where
  mem := fun _ => 0
  pages := [0x80203000#64, 0x80204000#64, 0x80205000#64, 0x80206000#64]
  blocks := [⟨smallRoot, 1⟩]

def smallStart : State := initKernelHeap smallRoot (fun _ => 0) smallOs

def smallEvent : Event :=
  .kcalloc 100 0x80220000#64 [0x80210000#64, 0x80211000#64, 0x80212000#64]

theorem small_placed : Placed PageAllocator.smallHeap :=
  ⟨⟨by decide, by decide, by decide⟩, by decide, by decide⟩

theorem small_pages : ∀ p ∈ smallOs.pages, Aligned p ∧ p ≠ 0#64 ∧
    (Block.mk smallRoot 1).Misses p := by
  unfold Block.Misses
  intro p hp
  simp only [smallOs, List.mem_cons, List.not_mem_nil, or_false] at hp
  rcases hp with rfl | rfl | rfl | rfl <;> decide +kernel

theorem small_ready : Ready PageAllocator.smallHeap smallRoot (fun _ => 0) smallOs := by
  have hzero (i : Fin 512) : smallOs.mem (entryAddr smallRoot i) = 0 := rfl
  have hroot (a : Word) (ha : InTree (child smallOs.mem) smallRoot 2 a) : a = smallRoot := by
    obtain ⟨σ, -, hw⟩ := ha
    exact (zeroed_root_path hzero σ a hw).2
  refine ⟨⟨⟨by decide, fun p hp => (small_pages p hp).1, fun p hp => (small_pages p hp).2.1, ?_⟩,
    zeroed_root_tree (by decide) hzero, fun a ha => ?_⟩, ?_, ?_, ⟨2, by decide, by decide⟩, ?_⟩
  · intro p b hp hb
    rw [List.mem_singleton.1 hb]
    exact (small_pages p hp).2.2
  · rw [hroot a ha]
    exact List.mem_singleton.2 rfl
  · intro a b ha hb hne
    exact absurd ((List.mem_singleton.1 ha).trans (List.mem_singleton.1 hb).symm) hne
  · intro b hb
    rw [List.mem_singleton.1 hb]
    decide
  · have hlen := mmuMap_length smallOs.pageZalloc.2.toMachine smallRoot (heapPage 0)
      smallOs.pageZalloc.1 HEAP_BITS
    have hthree : smallOs.pageZalloc.2.pages.length = 3 := rfl
    rw [hthree] at hlen
    refine List.ne_nil_of_length_pos ?_
    change 0 < (mmuMap smallOs.pageZalloc.2.toMachine smallRoot (heapPage 0) smallOs.pageZalloc.1
      HEAP_BITS).2.pages.length
    omega

/-- The blocks after `init_kernel_heap` are single pages of these. -/
theorem small_blocks {b : Block} (hb : b ∈ smallStart.os.blocks) :
    b ∈ (smallRoot :: smallOs.pages).map (Block.mk · 1) := by
  have hleft := small_ready.left
  have hos : smallStart.os = smallOs.pageZalloc.2.mapMultiple smallRoot (heapPage 0)
      smallOs.pageZalloc.1 PAGE_SIZE HEAP_BITS := mmuMap_eq ..
  obtain ⟨hrooted₁, htakes₁, -⟩ := pageZalloc_rooted small_ready.rooted (by decide)
  change smallStart.os.pages ≠ [] at hleft
  rw [hos] at hleft hb
  obtain ⟨-, -, used, htakes, -⟩ := mapMultiple_spec hrooted₁ (by decide) hleft
  have htotal := htakes₁.trans htakes
  rw [List.map_cons, List.mem_cons]
  rcases (htotal.blocks b).1 hb with ⟨q, hq, rfl⟩ | hb
  · refine Or.inr (List.mem_map_of_mem ?_)
    rw [htotal.pages]
    exact List.mem_append_left _ hq
  · exact Or.inl (List.mem_singleton.1 hb)

theorem small_supply : ∀ p ∈ [0x80210000#64, 0x80211000#64, 0x80212000#64],
    Aligned p ∧ p ≠ 0#64 ∧
      (∀ b ∈ (smallRoot :: smallOs.pages).map (Block.mk · 1), b.Misses p) ∧
      p.toNat + PAGE_SIZE ≤ 0x80220000 := by
  unfold Block.Misses
  intro p hp
  simp only [List.mem_cons, List.not_mem_nil, or_false] at hp
  rcases hp with rfl | rfl | rfl <;> decide +kernel

theorem small_run : ∀ b ∈ (smallRoot :: smallOs.pages).map (Block.mk · 1),
    b.start.toNat + PAGE_SIZE * b.pages ≤ 0x80220000 := by
  decide +kernel

def smallSupplied : Os :=
  { smallStart.os with pages := [0x80210000#64, 0x80211000#64, 0x80212000#64] }

theorem small_left : (mapRun smallRoot 0x80220000#64 smallStart.heap.kernelHeapVaddr (roundUp 100)
    smallSupplied).pages ≠ [] := by
  have hlen := mapMultiple_length (smallSupplied.pageZnalloc (pagesToAlloc (roundUp 100)).toInt
    0x80220000#64) smallRoot (BitVec.ofNat 64 smallStart.heap.kernelHeapVaddr) 0x80220000#64
    (runBytes (roundUp 100)) HEAP_BITS
  have hcount : (runBytes (roundUp 100) + PAGE_SIZE - 1) / PAGE_SIZE = 1 := by decide
  have hthree : (smallSupplied.pageZnalloc (pagesToAlloc (roundUp 100)).toInt
      0x80220000#64).pages.length = 3 := by
    unfold Os.pageZnalloc
    split_ifs <;> rfl
  rw [hcount, hthree] at hlen
  refine List.ne_nil_of_length_pos ?_
  change 3 ≤ (mapRun smallRoot 0x80220000#64 smallStart.heap.kernelHeapVaddr (roundUp 100)
    smallSupplied).pages.length + 2 at hlen
  omega

theorem small_step : ∃ t, Step PageAllocator.smallHeap smallRoot smallStart smallEvent t ∧
    t.live 0x120001018 = some 100 ∧ t.kcalloced 0x120001018 = some 100 := by
  have hasked : askedPages 100 = 1 := by decide
  have hres : (commonAlloc smallRoot 0x80220000#64 smallStart.heap smallSupplied 100 true true).map
      (fun r => r.1.2) = some 0x120001018 := by
    decide +kernel
  obtain ⟨r, hr, haddr⟩ := Option.map_eq_some_iff.1 hres
  have hleft : r.2.pages ≠ [] := by
    rcases (commonAlloc_heap hr).2 with ⟨hsame, -⟩ | ⟨-, hmap, -⟩
    · rw [hsame]
      exact List.cons_ne_nil _ _
    · rw [hmap]
      exact small_left
  refine ⟨_, ⟨by decide, ?_, fun _ => ⟨⟨by decide, ?_, ?_⟩, 31, by decide, by decide⟩, r, hr, hleft,
    rfl⟩, ?_, ?_⟩
  · exact ⟨by decide, fun p hp => (small_supply p hp).1, fun p hp => (small_supply p hp).2.1,
      fun p b hp hb => (small_supply p hp).2.2.1 b (small_blocks hb)⟩
  · intro b hb
    rw [hasked]
    exact Or.inr (small_run b (small_blocks hb))
  · intro q hq
    exact Or.inr (small_supply q hq).2.2.2
  · unfold allocated
    rw [haddr]
    rfl
  · unfold allocated
    rw [haddr]
    rfl

/-! ## Contiguous blocks -/

section Results
variable {h : HeapSymbols} {root first : Word} {base : List Block} {s : State} {data : List Word}
  {a n : ℕ}


/-- Where the bytes of a block from `kcalloc` are in physical memory. -/
theorem Invariant.physical (hi : Invariant h root base first s data) (hpl : Placed h)
    (ha : s.kcalloced a = some n) :
    ∃ off : Word, ∀ o < n, ∃ j p, (first :: data)[j]? = some p ∧
      KERNEL_HEAP_START_VADDR + PAGE_SIZE * j ≤ a + o ∧
      a + o < KERNEL_HEAP_START_VADDR + PAGE_SIZE * (j + 1) ∧
      (mmuTranslate s.os.mem root (BitVec.ofNat 64 (a + o))).toNat =
        p.toNat + (a + o - (KERNEL_HEAP_START_VADDR + PAGE_SIZE * j)) ∧
      mmuTranslate s.os.mem root (BitVec.ofNat 64 (a + o)) = off + BitVec.ofNat 64 (a + o) := by
  obtain ⟨off, hoff⟩ := hi.linear a n ha
  obtain ⟨hlow, hhigh⟩ := hi.block_le (hi.kcalloced a n ha)
  refine ⟨off - BitVec.ofNat 64 KERNEL_HEAP_START_VADDR, fun o ho => ?_⟩
  obtain ⟨j, r, hr, hjr⟩ : ∃ j r, r < PAGE_SIZE ∧
      a + o = KERNEL_HEAP_START_VADDR + PAGE_SIZE * j + r := by
    refine ⟨(a + o - KERNEL_HEAP_START_VADDR) / PAGE_SIZE,
      (a + o - KERNEL_HEAP_START_VADDR) % PAGE_SIZE, Nat.mod_lt _ (by decide), ?_⟩
    rw [Nat.add_assoc, Nat.div_add_mod]
    omega
  obtain ⟨p, hp⟩ : ∃ p, (first :: data)[j]? = some p := by
    refine ⟨_, List.getElem?_eq_getElem ?_⟩
    rw [List.length_cons]
    unfold topOf PAGE_SIZE at *
    omega
  have htranslate := hi.backed.translate hpl hp hr
  rw [← hjr] at htranslate
  refine ⟨j, p, hp, by omega, by unfold PAGE_SIZE at *; omega, by rw [htranslate]; omega, ?_⟩
  have hpage := hoff j p hp (by unfold PAGE_SIZE at *; omega) (by omega)
  have hword : mmuTranslate s.os.mem root (BitVec.ofNat 64 (a + o)) = p + BitVec.ofNat 64 r := by
    apply BitVec.eq_of_toNat_eq
    have hbelow := ((hi.backed.inHeap p (List.mem_of_getElem? hp)).below hpl).1
    rw [htranslate, BitVec.toNat_add, BitVec.toNat_ofNat]
    unfold PAGE_SIZE at *
    omega
  rw [hword, hpage, hjr, BitVec.ofNat_add, BitVec.ofNat_add]
  generalize BitVec.ofNat 64 KERNEL_HEAP_START_VADDR = start
  generalize BitVec.ofNat 64 (PAGE_SIZE * j) = page
  generalize BitVec.ofNat 64 r = rest
  grind

/-- The block at `a` is mapped and contiguous in physical memory. -/
def Contiguous (mem : ℕ → Word) (root : Word) (a n : ℕ) : Prop :=
  ∀ o < n, mmuTranslate mem root (BitVec.ofNat 64 (a + o)) ≠ -1#64 ∧
    mmuTranslate mem root (BitVec.ofNat 64 (a + o)) =
      mmuTranslate mem root (BitVec.ofNat 64 a) + BitVec.ofNat 64 o

/-- No byte of one block is a byte of the other in physical memory. -/
def PhysicallyDisjoint (mem : ℕ → Word) (root : Word) (a n b k : ℕ) : Prop :=
  ∀ o < n, ∀ o' < k, mmuTranslate mem root (BitVec.ofNat 64 (a + o)) ≠
    mmuTranslate mem root (BitVec.ofNat 64 (b + o'))

theorem Invariant.contiguous (hi : Invariant h root base first s data) (hpl : Placed h)
    (ha : s.kcalloced a = some n) : Contiguous s.os.mem root a n := by
  obtain ⟨off, hoff⟩ := hi.physical hpl ha
  intro o ho
  obtain ⟨j, p, hp, hlow, hhigh, hnat, hword⟩ := hoff o ho
  obtain ⟨-, -, -, -, -, -, hstart⟩ := hoff 0 (Nat.zero_lt_of_lt ho)
  constructor
  · intro hbad
    have hbelow := ((hi.backed.inHeap p (List.mem_of_getElem? hp)).below hpl).1
    rw [hbad] at hnat
    have hmax : (-1#64).toNat = 2 ^ 64 - 1 := by decide
    rw [hmax] at hnat
    unfold PAGE_SIZE at *
    omega
  · rw [Nat.add_zero] at hstart
    rw [hword, hstart, BitVec.ofNat_add, BitVec.add_assoc]

theorem Invariant.disjoint (hi : Invariant h root base first s data) (hpl : Placed h) {b k : ℕ}
    (ha : s.kcalloced a = some n) (hb : s.kcalloced b = some k) (hne : a ≠ b) :
    PhysicallyDisjoint s.os.mem root a n b k := by
  obtain ⟨off, hoff⟩ := hi.physical hpl ha
  obtain ⟨off', hoff'⟩ := hi.physical hpl hb
  intro o ho o' ho' heq
  obtain ⟨j, p, hp, hlow, hhigh, hnat, -⟩ := hoff o ho
  obtain ⟨j', p', hp', hlow', hhigh', hnat', -⟩ := hoff' o' ho'
  have hpa := (hi.backed.inHeap p (List.mem_of_getElem? hp)).aligned hpl
  have hpa' := (hi.backed.inHeap p' (List.mem_of_getElem? hp')).aligned hpl
  rw [heq, hnat'] at hnat
  -- equal physical bytes are in one frame, hence in one page of the heap
  have hpp : p = p' := by
    apply BitVec.eq_of_toNat_eq
    unfold Aligned PAGE_SIZE at *
    omega
  subst hpp
  have hjj : j = j' := by
    have hlt := (List.getElem?_eq_some_iff.1 hp).1
    exact (List.getElem?_inj hlt hi.backed.nodup).1 (hp.trans hp'.symm)
  subst hjj
  -- the blocks are in cells that do not overlap
  obtain ⟨cells, hr⟩ := hi.heap
  have hla := hi.kcalloced a n ha
  have hlb := hi.kcalloced b k hb
  obtain ⟨c, hc, rfl⟩ := hr.live_cell a (by rw [hla]; exact Option.some_ne_none n)
  obtain ⟨d, hd, rfl⟩ := hr.live_cell b (by rw [hlb]; exact Option.some_ne_none k)
  have hreq := hr.requested c n hc hla
  have hreq' := hr.requested d k hd hlb
  have hapart := hr.apart (List.mem_cons_of_mem _ hc) (List.mem_cons_of_mem _ hd)
    fun e => hne (congrArg (· + headerSize) e)
  unfold KernelHeap.cell at hapart
  omega

/-- In every run the live blocks from `kcalloc` are contiguous and disjoint in physical memory. -/
theorem kcalloc_contiguous (hpl : Placed h) {m : Words} {o : Os} (hr : Ready h root m o)
    (hrun : Execution (Step h root) (initKernelHeap root m o) s) :
    (∀ a n, s.kcalloced a = some n → Contiguous s.os.mem root a n) ∧
      ∀ a n b k, s.kcalloced a = some n → s.kcalloced b = some k → a ≠ b →
        PhysicallyDisjoint s.os.mem root a n b k := by
  obtain ⟨data, hi⟩ : ∃ data, Invariant h root (initKernelHeap root m o).os.blocks o.pageZalloc.1
      s data := by
    refine hrun.invariant (I := fun s => ∃ data, Invariant h root _ _ s data) ?_ ⟨[], hr.invariant⟩
    rintro s e t ⟨data, hi⟩ hs
    obtain ⟨data', hi', -⟩ := step_preserves_invariant hi hpl hs
    exact ⟨data', hi'⟩
  exact ⟨fun a n ha => hi.contiguous hpl ha, fun a n b k ha hb hne => hi.disjoint hpl ha hb hne⟩

theorem kcalloc_contiguous_small : ∃ s : State,
    s.kcalloced 0x120001018 = some 100 ∧ Contiguous s.os.mem smallRoot 0x120001018 100 := by
  obtain ⟨t, hstep, -, hkc⟩ := small_step
  exact ⟨t, hkc, (kcalloc_contiguous small_placed small_ready (.single hstep)).1 _ _ hkc⟩

/-! ## What `kfree` gives back -/

/-- The heap as `init_kernel_heap` left it in `s₀`: one free node in its first page. The blocks
handed out since then are tables of `kernel_mmu_table`. -/
structure AsInitialised (root : Word) (s₀ t : State) (free : List ℕ) : Prop where
  top : t.heap.kernelHeapVaddr = KERNEL_HEAP_START_VADDR + PAGE_SIZE
  node : free = [kmallocHead + headerSize]
  node_size : size t.heap.mem (kmallocHead + headerSize) = PAGE_SIZE - 2 * headerSize
  page : leafEntry t.os.mem root (heapPage 0) = leafEntry s₀.os.mem root (heapPage 0)
  kept (b : Block) : b ∈ s₀.os.blocks → b ∈ t.os.blocks
  returned (b : Block) : b ∈ t.os.blocks →
    b ∈ s₀.os.blocks ∨ ∃ a, InTree (child t.os.mem) root 2 a ∧ b = ⟨a, 1⟩

/-- The free nodes after `kfree`, and the heap if no block is live. -/
structure Freed (root : Word) (s₀ t : State) (free : List ℕ) : Prop where
  list : Linked (next t.heap.mem) (prev t.heap.mem) kmallocHead free
  apart (c d : ℕ) : c ∈ free → d ∈ free → c + headerSize + size t.heap.mem c ≠ d
  trimmed (p : ℕ) : free.getLast? = some p →
    p + headerSize + size t.heap.mem p = t.heap.kernelHeapVaddr → size t.heap.mem p < PAGE_SIZE
  empty : (∀ a, t.live a = none) → AsInitialised root s₀ t free

theorem Invariant.freed {s₀ : State} {r : Heap × Os} {cells : List ℕ}
    (h₀ : Backed h root s₀.os.blocks first s₀.os [])
    (hi : Invariant h root s₀.os.blocks first (freed s a r) data)
    (hr : Represents (totalPages h) (Function.update s.live a none) r.1 cells)
    (hset : KernelHeap.Settled (Function.update s.live a none) r.1 cells)
    (hacc : Accounted h root s₀.os.blocks r.2 data) :
    Freed root s₀ (HeapFrames.freed s a r)
      (KernelHeap.freeNodes (Function.update s.live a none) cells) := by
  refine ⟨hr.linked, fun c d hc hd => ?_, fun p hp hend => ?_, fun hnone => ?_⟩
  · have hne := hset.apart hr hc hd
    unfold KernelHeap.cell at hne
    rw [← Nat.add_assoc] at hne
    exact hne
  · have hlast : (kmallocHead :: KernelHeap.freeNodes (Function.update s.live a none) cells).getLast?
        = some p := by
      cases hl : KernelHeap.freeNodes (Function.update s.live a none) cells with
      | nil =>
        rw [hl] at hp
        cases hp
      | cons c l =>
        rw [hl] at hp
        exact hp
    refine Nat.lt_of_not_le fun hge => hset.trimmed p hlast ⟨?_, hge⟩
    unfold KernelHeap.cell
    rw [← Nat.add_assoc]
    exact hend
  · obtain ⟨htop, hnode, hsize⟩ := hset.empty hr hnone
    have hdata : data = [] := by
      have hlen : topOf data = KERNEL_HEAP_START_VADDR + PAGE_SIZE := hi.top.symm.trans htop
      apply List.eq_nil_of_length_eq_zero
      unfold topOf PAGE_SIZE at hlen
      omega
    subst hdata
    refine ⟨htop, hnode, hsize, (hi.backed.leaf 0 first rfl).trans (h₀.leaf 0 first rfl).symm,
      hi.backed.base_kept, fun b hb => ?_⟩
    rcases hacc.block b hb with hbase | htable | ⟨hpos, hall⟩
    · exact Or.inl hbase
    · exact Or.inr htable
    · -- a block of data pages would have a frame in a heap without any
      refine absurd (hall b.start (hi.backed.aligned b hb) ⟨le_refl _, ?_⟩) List.not_mem_nil
      exact Nat.lt_add_of_pos_right (Nat.mul_pos (by decide) hpos)

/-- In every run whose runs of pages end at or below the end of the page heap, `kfree` of a live
block ends and leaves the free nodes settled; without live blocks the heap is as it was first. -/
theorem kfree_settles (hpl : Placed h) {m : Words} {o : Os} (hr : Ready h root m o)
    (hrun : Execution (fun s e t => Step h root s e t ∧ e.Within h) (initKernelHeap root m o) s)
    (ha : s.live a ≠ none) :
    ∃ r free, kfree h root s.heap s.os a = some r ∧
      Freed root (initKernelHeap root m o) (freed s a r) free := by
  obtain ⟨data, hi, hacc⟩ : ∃ data, Invariant h root (initKernelHeap root m o).os.blocks
      o.pageZalloc.1 s data ∧ Accounted h root (initKernelHeap root m o).os.blocks s.os data := by
    refine hrun.invariant (I := fun s => ∃ data, Invariant h root _ _ s data ∧
      Accounted h root _ s.os data) ?_ ⟨[], hr.invariant, initial_accounted h root m o⟩
    rintro s e t ⟨data, hi, hacc⟩ ⟨hs, hwithin⟩
    obtain ⟨data', hi', hacc'⟩ := step_preserves_invariant hi hpl hs
    exact ⟨data', hi', hacc' hwithin hacc⟩
  obtain ⟨r, cells, data', hres, hi', hr', hset, hacc'⟩ := hi.kfree hpl ha
  exact ⟨r, _, hres, hi'.freed hr.backed hr' hset (hacc' hacc)⟩

/-- After `kfree` of the only block the heap is as it was first. -/
theorem kfree_settles_small : ∃ (s : State) (r : Heap × Os) (free : List ℕ),
    s.live 0x120001018 = some 100 ∧
    kfree PageAllocator.smallHeap smallRoot s.heap s.os 0x120001018 = some r ∧
    Freed smallRoot smallStart (freed s 0x120001018 r) free := by
  obtain ⟨t, hstep, hlive, -⟩ := small_step
  have hwithin : smallEvent.Within PageAllocator.smallHeap := fun _ => by decide
  have hne : t.live 0x120001018 ≠ none := by
    rw [hlive]
    exact Option.some_ne_none 100
  obtain ⟨r, free, hr, hfreed⟩ :=
    kfree_settles small_placed small_ready (.single ⟨hstep, hwithin⟩) hne
  exact ⟨t, r, free, hlive, hr, hfreed⟩

end Results

end HeapFrames
