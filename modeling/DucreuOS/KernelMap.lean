import DucreuOS.HeapFrames
import DucreuOS.RangeMapping

/-! # The address space of the kernel

`main` maps the sections of the image, the page heap and the devices at their own addresses in
`kernel_mmu_table`; `init_kernel_heap` and then `common_alloc` and `heap_shrink` are all that
changes the table later. -/
namespace KernelMap

open PageTable PointerTree UserProcess Transition HeapFrames
open PageAllocator (HeapSymbols pageAddr totalPages)
open KernelHeap (Heap Words Represents add64 sub64 size next prev setSize roundUp pagesToAlloc
  runBytes kmallocHead headerSize KERNEL_HEAP_START_VADDR)

/-! ## How many tables a range needs -/

section Tables
variable {root v w start_vaddr start_paddr bits : Word} {s : Machine} {i k n : ℕ}

/-- The last table on the way to `v` is there. -/
def HasTable (mem : ℕ → Word) (root v : Word) : Prop :=
  ∃ t, walk (child mem) root [vpn v 1, vpn v 2] = some t

theorem hasTable_of_leaf {mem : ℕ → Word} (h : leafEntry mem root v ≠ 0#64) :
    HasTable mem root v := by
  unfold leafEntry at h
  cases hw : walk (child mem) root [vpn v 1, vpn v 2] with
  | none =>
    rw [hw] at h
    exact absurd rfl h
  | some t => exact ⟨t, hw⟩

/-- 512 pages share their tables. -/
theorem HasTable.same {mem : ℕ → Word} (h : HasTable mem root v)
    (hvw : v.toNat / 2 ^ 21 = w.toNat / 2 ^ 21) : HasTable mem root w := by
  have h1 : vpn w 1 = vpn v 1 := by
    apply Fin.ext
    simp only [vpn_val]
    norm_num
    omega
  have h2 : vpn w 2 = vpn v 2 := by
    apply Fin.ext
    simp only [vpn_val]
    norm_num
    omega
  obtain ⟨t, ht⟩ := h
  exact ⟨t, by rw [h1, h2, ht]⟩

theorem HasTable.supplied (h : HasTable s.mem root v) (paddr bits : Word) :
    Supplied root v s ∧ (mmuSet s root v paddr bits).pages = s.pages := by
  obtain ⟨t, hw⟩ := h
  rw [walk_cons, walk_cons, walk_nil, Option.bind_some] at hw
  obtain ⟨u, hu, ht⟩ := Option.bind_eq_some_iff.1 hw
  have hfirst : nextTable s root (vpn v 2) = (u, s) := nextTable_child hu
  refine ⟨⟨fun hnone => absurd (hu.symm.trans hnone) (Option.some_ne_none u), fun hnone => ?_⟩, ?_⟩
  · rw [hfirst] at hnone
    exact absurd (ht.symm.trans hnone) (Option.some_ne_none t)
  · simp only [mmuSet, hfirst, nextTable_child ht]

theorem mmuSet_length (s : Machine) (pt vaddr paddr bits : Word) :
    s.pages.length ≤ (mmuSet s pt vaddr paddr bits).pages.length + 2 :=
  (nextTable_length s pt (vpn vaddr 2)).trans
    (Nat.add_le_add_right (nextTable_length _ _ (vpn vaddr 1)) 1)

theorem supplied_of_two (hT : Tree s.mem root) (hf : FreshPages s.mem root s.pages)
    (hn : 2 ≤ s.pages.length) (v : Word) : Supplied root v s := by
  rw [supplied_iff hT hf]
  refine Nat.le_trans ?_ hn
  unfold missing
  split
  · exact le_refl 2
  · split <;> decide

/-- What one page of a range leaves: the tables of the pages that share its own. -/
theorem mmuSet_next (hT : Tree s.mem root) (hf : FreshPages s.mem root s.pages)
    (hs : Supplied root v s) (paddr bits : Word) :
    Tree (mmuSet s root v paddr (bits ||| PTEB_VALID)).mem root ∧
      FreshPages (mmuSet s root v paddr (bits ||| PTEB_VALID)).mem root
        (mmuSet s root v paddr (bits ||| PTEB_VALID)).pages ∧
      HasTable (mmuSet s root v paddr (bits ||| PTEB_VALID)).mem root v := by
  obtain ⟨hT', hf', hleaf, -⟩ := mmuSet_supplied hT hf v paddr (bits ||| PTEB_VALID) hs
  refine ⟨hT', hf', hasTable_of_leaf ?_⟩
  have hself : SamePage v v := rfl
  rw [hleaf, if_pos hself]
  intro hzero
  exact leaf_valid _ _ (by rw [hzero]; decide)

/-- The groups of 512 pages that begin among the pages `i, …, i + n - 1`. -/
def groups (i n : ℕ) : ℕ := (i + n + 511) / 512 - (i + 511) / 512

/-- Where the tables of the first page are there, unless it is the first of its group. -/
theorem mapPages_room (hrwx : bits &&& 0xe#64 ≠ 0#64) {p : ℕ}
    (haddr : start_vaddr.toNat = PAGE_SIZE * p) (hlow : p + i + n ≤ 2 ^ 27)
    (hT : Tree s.mem root) (hf : FreshPages s.mem root s.pages)
    (hhas : (p + i) % 512 ≠ 0 →
      HasTable s.mem root (start_vaddr + BitVec.ofNat 64 (PAGE_SIZE * i)))
    (hn : 2 * groups (p + i) n + k ≤ s.pages.length) :
    RangeSupplied root start_vaddr start_paddr bits n i s ∧
      k ≤ (mapPages root start_vaddr start_paddr bits n i s).pages.length := by
  induction n generalizing i s with
  | zero => exact ⟨trivial, Nat.le_of_add_left_le hn⟩
  | succ n ih =>
    set v := start_vaddr + BitVec.ofNat 64 (PAGE_SIZE * i) with hv
    set paddr := start_paddr + BitVec.ofNat 64 (PAGE_SIZE * i)
    have hvnat : v.toNat = PAGE_SIZE * (p + i) := by
      rw [hv, offset_toNat, haddr, Nat.mul_add]
      rw [haddr]
      unfold PAGE_SIZE
      omega
    have hnext : (start_vaddr + BitVec.ofNat 64 (PAGE_SIZE * (i + 1))).toNat =
        PAGE_SIZE * (p + i + 1) := by
      rw [offset_toNat, haddr, ← Nat.mul_add, Nat.add_assoc]
      rw [haddr]
      unfold PAGE_SIZE
      omega
    -- the first page of a group may take two tables, the others take none
    have hset : Supplied root v s ∧ 2 * groups (p + (i + 1)) n + k ≤
        (mmuSet s root v paddr (bits ||| PTEB_VALID)).pages.length := by
      by_cases hfirst : (p + i) % 512 = 0
      · have hlen := mmuSet_length s root v paddr (bits ||| PTEB_VALID)
        have hsplit : groups (p + i) (n + 1) = groups (p + (i + 1)) n + 1 := by
          unfold groups
          omega
        exact ⟨supplied_of_two hT hf (by omega) v, by omega⟩
      · obtain ⟨hs, hpages⟩ := (hhas hfirst).supplied paddr (bits ||| PTEB_VALID)
        have hsame : groups (p + i) (n + 1) = groups (p + (i + 1)) n := by
          unfold groups
          omega
        exact ⟨hs, by rw [hpages, ← hsame]; exact hn⟩
    obtain ⟨hT', hf', htable⟩ := mmuSet_next hT hf hset.1 paddr bits
    obtain ⟨hrest, hleft⟩ := ih (i := i + 1) (by omega) hT' hf' (fun hinner => by
      refine htable.same ?_
      rw [hvnat, hnext]
      unfold PAGE_SIZE
      omega) hset.2
    refine ⟨⟨hset.1, ?_⟩, ?_⟩
    · rw [mmuMap_set hrwx]
      exact hrest
    · rw [mapPages_succ hrwx]
      exact hleft

/-- The tables that are enough for `n` pages anywhere. -/
def tablesFor (n : ℕ) : ℕ := 2 + 2 * ((n + 510) / 512)

theorem mapMultiple_room (hrwx : bits &&& 0xe#64 ≠ 0#64) (ha : Aligned start_vaddr) {bytes : ℕ}
    (hlow : start_vaddr.toNat + PAGE_SIZE * steps bytes ≤ 2 ^ 39) {o : Os} (hr : Rooted root o)
    (hn : tablesFor (steps bytes) + k ≤ o.pages.length) :
    k ≤ (o.mapMultiple root start_vaddr start_paddr bytes bits).pages.length := by
  change k ≤ (mapPages root start_vaddr start_paddr bits (steps bytes) 0 o.toMachine).pages.length
  obtain ⟨p, hp⟩ := Nat.dvd_of_mod_eq_zero ha
  rw [hp] at hlow
  unfold PAGE_SIZE at hlow
  cases hsteps : steps bytes with
  | zero =>
    rw [hsteps] at hn
    exact Nat.le_of_add_left_le hn
  | succ n =>
    rw [hsteps] at hn hlow
    unfold tablesFor at hn
    rw [mapPages_succ hrwx, Nat.mul_zero, BitVec.add_zero, BitVec.add_zero]
    have hs := supplied_of_two hr.tree hr.freshPages (by omega) start_vaddr
    obtain ⟨hT, hf, htable⟩ := mmuSet_next hr.tree hr.freshPages hs start_paddr bits
    have hlen := mmuSet_length o.toMachine root start_vaddr start_paddr (bits ||| PTEB_VALID)
    refine (mapPages_room hrwx hp (by omega) hT hf (fun hinner => ?_) ?_).2
    · refine htable.same ?_
      rw [offset_toNat]
      · rw [hp]
        unfold PAGE_SIZE
        omega
      · rw [hp]
        unfold PAGE_SIZE
        omega
    · have hgroups : groups (p + (0 + 1)) n ≤ (n + 1 + 510) / 512 := by
        unfold groups
        omega
      omega

end Tables

/-! ## The segments -/

/-- `mmu_map_multiple` of `bytes` bytes at their own address. -/
structure Segment where
  start : Word
  bytes : ℕ
  bits : Word

/-- The bytes from `start` up to `stop`. -/
def Segment.range (start stop bits : Word) : Segment := ⟨start, (stop - start).toNat, bits⟩

/-- An address in the pages of a segment. -/
def Segment.Has (g : Segment) (v : Word) : Prop :=
  g.start.toNat ≤ v.toNat ∧ v.toNat < g.start.toNat + PAGE_SIZE * steps g.bytes

instance (g : Segment) (v : Word) : Decidable (g.Has v) := inferInstanceAs (Decidable (_ ∧ _))

def mapSegment (pt : Word) (o : Os) (g : Segment) : Os :=
  o.mapMultiple pt g.start g.start g.bytes g.bits

/-- A segment of pages below 4 GiB, with permissions for a leaf. -/
structure Segment.Proper (g : Segment) : Prop where
  aligned : Aligned g.start
  low : g.start.toNat + PAGE_SIZE * steps g.bytes ≤ 2 ^ 32
  leaf : g.bits &&& 0xe#64 ≠ 0#64

/-- The leaf of the page of `v`, mapped at its own address. -/
def ownLeaf (v bits : Word) : Word := leafBits (pageDown v) (bits ||| PTEB_VALID)

/-- After mapping `gs`: their pages at their own addresses, the others as before. -/
structure Adds (root : Word) (gs : List Segment) (o o' : Os) : Prop where
  rooted : Rooted root o'
  takes : ∃ used, Takes o o' used
  segment (g : Segment) (v : Word) : g ∈ gs → g.Has v →
    leafEntry o'.mem root v = ownLeaf v g.bits
  others (v : Word) : v.toNat < 2 ^ 39 → (∀ g ∈ gs, ¬g.Has v) →
    leafEntry o'.mem root v = leafEntry o.mem root v

section Segments
variable {root v : Word} {g : Segment} {gs : List Segment} {o : Os} {k : ℕ}

theorem pageDown_eq {j : ℕ} (ha : Aligned g.start) (hv : g.start.toNat ≤ v.toNat)
    (hj : (v.toNat - g.start.toNat) / PAGE_SIZE = j) :
    g.start + BitVec.ofNat 64 (PAGE_SIZE * j) = pageDown v := by
  have hlt := v.isLt
  unfold Aligned at ha
  unfold PAGE_SIZE at *
  apply BitVec.eq_of_toNat_eq
  have hpage : (4096#64).toNat = 4096 := rfl
  rw [offset_toNat _ (by omega), pageDown, BitVec.toNat_mul, BitVec.toNat_udiv, hpage]
  omega

/-- Which page of a segment has the entry of `v`. -/
theorem Segment.Proper.samePage (hg : g.Proper) (hv : v.toNat < 2 ^ 39) {j : ℕ}
    (hj : j < steps g.bytes) : SamePage v (g.start + BitVec.ofNat 64 (PAGE_SIZE * j)) ↔
      g.start.toNat ≤ v.toNat ∧ (v.toNat - g.start.toNat) / PAGE_SIZE = j := by
  have ha := hg.aligned
  have hlow := hg.low
  unfold Aligned at ha
  unfold SamePage
  unfold PAGE_SIZE at *
  rw [offset_toNat _ (by omega)]
  omega

theorem mapSegment_adds (hg : g.Proper) (hr : Rooted root o)
    (hn : tablesFor (steps g.bytes) + (k + 1) ≤ o.pages.length) :
    Adds root [g] o (mapSegment root o g) ∧ k + 1 ≤ (mapSegment root o g).pages.length := by
  have hroom : k + 1 ≤ (mapSegment root o g).pages.length :=
    mapMultiple_room hg.leaf hg.aligned (hg.low.trans (by decide)) hr hn
  have hleft : (mapSegment root o g).pages ≠ [] :=
    List.ne_nil_of_length_pos (Nat.lt_of_lt_of_le (Nat.succ_pos k) hroom)
  obtain ⟨hrooted, hmaps, used, htakes, -⟩ := mapMultiple_spec hr hg.leaf hleft
  have hlow := hg.low
  refine ⟨⟨hrooted, ⟨used, htakes⟩, fun g' v hmem hv => ?_, fun v hv hnot => ?_⟩, hroom⟩
  · obtain rfl := List.mem_singleton.1 hmem
    obtain ⟨hstart, hend⟩ := hv
    have hindex : (v.toNat - g'.start.toNat) / PAGE_SIZE < steps g'.bytes := by
      unfold PAGE_SIZE at *
      omega
    rcases hmaps.leaf v with ⟨j, -, hj, hsame, hleaf⟩ | ⟨hnone, -⟩
    · rw [Nat.zero_add] at hj
      obtain ⟨-, hpage⟩ := (hg.samePage (by omega) hj).1 hsame
      exact hleaf.trans (congrArg (leafBits · _) (pageDown_eq hg.aligned hstart hpage))
    · refine absurd ((hg.samePage (by omega) hindex).2 ⟨hstart, rfl⟩) (hnone _ (Nat.zero_le _) ?_)
      exact (Nat.zero_add (steps g'.bytes)).symm ▸ hindex
  · rcases hmaps.leaf v with ⟨j, -, hj, hsame, -⟩ | ⟨-, hleaf⟩
    · rw [Nat.zero_add] at hj
      obtain ⟨hstart, hpage⟩ := (hg.samePage hv hj).1 hsame
      refine absurd ⟨hstart, ?_⟩ (hnot g List.mem_cons_self)
      change j < steps g.bytes at hj
      unfold PAGE_SIZE at *
      omega
    · exact hleaf

/-- Segments one after the other; none has an address of another. -/
theorem mapSegments_adds (hgs : ∀ g ∈ gs, g.Proper)
    (hapart : gs.Pairwise fun g g' => ∀ v, g.Has v → ¬g'.Has v) (hr : Rooted root o)
    (hn : (gs.map fun g => tablesFor (steps g.bytes)).sum + (k + 1) ≤ o.pages.length) :
    Adds root gs o (gs.foldl (mapSegment root) o) ∧
      k + 1 ≤ (gs.foldl (mapSegment root) o).pages.length := by
  induction gs generalizing o with
  | nil =>
    rw [List.map_nil, List.sum_nil, Nat.zero_add] at hn
    exact ⟨⟨hr, ⟨[], rfl, fun b => by simp⟩, fun g v hmem => absurd hmem List.not_mem_nil,
      fun _ _ _ => rfl⟩, hn⟩
  | cons g gs ih =>
    rw [List.map_cons, List.sum_cons, Nat.add_assoc] at hn
    obtain ⟨hfirst, hroom⟩ := mapSegment_adds (hgs g List.mem_cons_self) hr
      (k := (gs.map fun g => tablesFor (steps g.bytes)).sum + k) hn
    obtain ⟨hne, hapart⟩ := List.pairwise_cons.1 hapart
    obtain ⟨hrest, hleft⟩ := ih (fun g hg => hgs g (List.mem_cons_of_mem _ hg)) hapart
      hfirst.rooted hroom
    obtain ⟨used, htakes⟩ := hfirst.takes
    obtain ⟨used', htakes'⟩ := hrest.takes
    refine ⟨⟨hrest.rooted, ⟨_, htakes.trans htakes'⟩, fun g' v hmem hv => ?_, fun v hv hnot => ?_⟩,
      hleft⟩
    · rcases List.mem_cons.1 hmem with rfl | hmem
      · have hlow := (hgs g' List.mem_cons_self).low
        have hv' : v.toNat < 2 ^ 39 := Nat.lt_of_lt_of_le hv.2 (hlow.trans (by decide))
        rw [List.foldl_cons, hrest.others v hv' fun g'' hg'' => hne g'' hg'' v hv]
        exact hfirst.segment g' v List.mem_cons_self hv
      · exact hrest.segment g' v hmem hv
    · rw [List.foldl_cons, hrest.others v hv fun g' hg' => hnot g' (List.mem_cons_of_mem _ hg')]
      refine hfirst.others v hv fun g' hg' => ?_
      rw [List.mem_singleton.1 hg']
      exact hnot g List.mem_cons_self

end Segments

/-! ## What `main` maps -/

/-- The addresses that the linker script provides. -/
structure Sections where
  textStart : Word
  textEnd : Word
  bssStart : Word
  bssEnd : Word
  rodataStart : Word
  rodataEnd : Word
  dataStart : Word
  dataEnd : Word
  stackStart : Word
  stackEnd : Word
  heapStart : Word
  heapEnd : Word

namespace Sections

/-- The segments in the order of `main`: six of the image, then the PLIC, ECAM and the virtio
BARs. -/
def segments (s : Sections) : List Segment :=
  [.range s.textStart s.textEnd (PTEB_READ ||| PTEB_EXECUTE),
   .range s.dataStart s.dataEnd (PTEB_READ ||| PTEB_WRITE),
   .range s.rodataStart s.rodataEnd PTEB_READ,
   .range s.bssStart s.bssEnd (PTEB_READ ||| PTEB_WRITE),
   .range s.stackStart s.stackEnd (PTEB_READ ||| PTEB_WRITE),
   .range s.heapStart s.heapEnd (PTEB_READ ||| PTEB_WRITE),
   .range 0x0c000000#64 0x0c2FFFFF#64 (PTEB_READ ||| PTEB_WRITE),
   .range 0x30000000#64 0x3FFFFFFF#64 (PTEB_READ ||| PTEB_WRITE),
   .range 0x40000000#64 0x4FFFFFFF#64 (PTEB_READ ||| PTEB_WRITE)]

/-- The page heap. -/
def heap (s : Sections) : HeapSymbols := ⟨s.heapStart.toNat, s.heapEnd.toNat⟩

/-- What the linker script promises: the sections in the order of the image, those after `.text` on
pages of their own, in a RAM of 220 MiB. -/
structure Linked (s : Sections) : Prop where
  text : s.textStart = 0x80050000#64
  text_end : s.textStart.toNat ≤ s.textEnd.toNat
  bss : Aligned s.bssStart ∧ s.textEnd.toNat ≤ s.bssStart.toNat
  bss_end : s.bssStart.toNat ≤ s.bssEnd.toNat
  rodata : Aligned s.rodataStart ∧ s.bssEnd.toNat ≤ s.rodataStart.toNat
  rodata_end : s.rodataStart.toNat ≤ s.rodataEnd.toNat
  data : Aligned s.dataStart ∧ s.rodataEnd.toNat ≤ s.dataStart.toNat
  data_end : s.dataStart.toNat ≤ s.dataEnd.toNat
  stack : Aligned s.stackStart ∧ s.dataEnd.toNat ≤ s.stackStart.toNat
  stack_end : s.stackEnd.toNat = s.stackStart.toNat + 0x10000
  heap : s.heapStart = s.stackEnd
  heap_end : s.heapEnd.toNat = 0x80050000 + 220 * 2 ^ 20 ∧ s.heapStart.toNat ≤ s.heapEnd.toNat

end Sections

/-- The root of `kernel_mmu_table` and what `main` has mapped before `init_kernel_heap`. -/
def mainMap (s : Sections) (o : Os) : Word × Os :=
  let (pt, o) := o.pageZalloc
  (pt, s.segments.foldl (mapSegment pt) o)

section Main
variable {s : Sections} {o : Os} {g : Segment} {v a b bits : Word}

/-- Where the pages of a section end. -/
theorem range_end (ha : Aligned a) (hab : a.toNat ≤ b.toNat) :
    a.toNat + PAGE_SIZE * steps (b - a).toNat = (b.toNat + 4095) / 4096 * 4096 := by
  rw [BitVec.toNat_sub_of_le hab]
  unfold Aligned PAGE_SIZE at ha
  unfold steps PAGE_SIZE
  omega

/-- A section below 4 GiB. -/
theorem range_proper (ha : Aligned a) (hab : a.toNat ≤ b.toNat) (hb : b.toNat < 2 ^ 32)
    (hleaf : bits &&& 0xe#64 ≠ 0#64) : (Segment.range a b bits).Proper := by
  refine ⟨ha, ?_, hleaf⟩
  unfold Segment.range
  dsimp only
  rw [range_end ha hab]
  omega

theorem range_has (ha : Aligned a) (hab : a.toNat ≤ b.toNat) :
    (Segment.range a b bits).Has v ↔
      a.toNat ≤ v.toNat ∧ v.toNat < (b.toNat + 4095) / 4096 * 4096 := by
  rw [← range_end ha hab]
  rfl

theorem Sections.Linked.text_toNat (hs : s.Linked) : s.textStart.toNat = 0x80050000 :=
  congrArg BitVec.toNat hs.text

theorem Sections.Linked.heap_aligned (hs : s.Linked) : Aligned s.heapStart := by
  have hstack := hs.stack.1
  have hend := hs.stack_end
  rw [hs.heap]
  unfold Aligned PAGE_SIZE at *
  omega

theorem Sections.Linked.text_aligned (hs : s.Linked) : Aligned s.textStart := by
  rw [hs.text]
  decide

/-- The image lies below 4 GiB, and its sections one after the other. -/
theorem Sections.Linked.order (hs : s.Linked) :
    s.textStart.toNat = 0x80050000 ∧ s.textEnd.toNat ≤ s.bssStart.toNat ∧
      s.bssEnd.toNat ≤ s.rodataStart.toNat ∧ s.rodataEnd.toNat ≤ s.dataStart.toNat ∧
      s.dataEnd.toNat ≤ s.stackStart.toNat ∧ s.stackEnd.toNat = s.heapStart.toNat ∧
      s.heapEnd.toNat < 2 ^ 32 := by
  refine ⟨hs.text_toNat, hs.bss.2, hs.rodata.2, hs.data.2, hs.stack.2, ?_, ?_⟩
  · rw [hs.heap]
  · rw [hs.heap_end.1]
    decide

theorem Sections.Linked.stack_le (hs : s.Linked) : s.stackStart.toNat ≤ s.stackEnd.toNat := by
  rw [hs.stack_end]
  omega

theorem Sections.Linked.proper (hs : s.Linked) (g : Segment) (hg : g ∈ s.segments) : g.Proper := by
  obtain ⟨htext, hbss, hrodata, hdata, hstack, hheap, hend⟩ := hs.order
  have h1 := hs.text_end
  have h2 := hs.bss_end
  have h3 := hs.rodata_end
  have h4 := hs.data_end
  have h5 := hs.stack_le
  have h6 := hs.heap_end.2
  simp only [segments, List.mem_cons, List.not_mem_nil, or_false] at hg
  rcases hg with rfl | rfl | rfl | rfl | rfl | rfl | rfl | rfl | rfl
  · exact range_proper hs.text_aligned h1 (by omega) (by decide)
  · exact range_proper hs.data.1 h4 (by omega) (by decide)
  · exact range_proper hs.rodata.1 h3 (by omega) (by decide)
  · exact range_proper hs.bss.1 h2 (by omega) (by decide)
  · exact range_proper hs.stack.1 h5 (by omega) (by decide)
  · exact range_proper hs.heap_aligned h6 (by omega) (by decide)
  all_goals exact range_proper (by decide) (by decide) (by decide) (by decide)

/-- No address is in two segments. -/
theorem Sections.Linked.apart (hs : s.Linked) :
    s.segments.Pairwise fun g g' => ∀ v, g.Has v → ¬g'.Has v := by
  obtain ⟨htext, hbss, hrodata, hdata, hstack, hheap, hend⟩ := hs.order
  have h1 := hs.text_end
  have h2 := hs.bss_end
  have h3 := hs.rodata_end
  have h4 := hs.data_end
  have h5 := hs.stack_le
  have h6 := hs.heap_end.2
  have a2 := hs.bss.1
  have a3 := hs.rodata.1
  have a4 := hs.data.1
  have a5 := hs.stack.1
  have a6 := hs.heap_aligned
  have hplic : (0x0c000000#64).toNat = 0x0c000000 ∧ (0x0c2FFFFF#64).toNat = 0x0c2FFFFF := ⟨rfl, rfl⟩
  have hecam : (0x30000000#64).toNat = 0x30000000 ∧ (0x3FFFFFFF#64).toNat = 0x3FFFFFFF := ⟨rfl, rfl⟩
  have hbars : (0x40000000#64).toNat = 0x40000000 ∧ (0x4FFFFFFF#64).toNat = 0x4FFFFFFF := ⟨rfl, rfl⟩
  simp only [segments, List.pairwise_cons, List.mem_cons, List.not_mem_nil, or_false,
    forall_eq_or_imp, forall_eq, List.Pairwise.nil, IsEmpty.forall_iff, implies_true, and_true,
    range_has hs.text_aligned h1, range_has a2 h2, range_has a3 h3, range_has a4 h4,
    range_has a5 h5, range_has a6 h6, @range_has _ 0x0c000000#64 0x0c2FFFFF#64 _ (by decide) (by decide),
    @range_has _ 0x30000000#64 0x3FFFFFFF#64 _ (by decide) (by decide),
    @range_has _ 0x40000000#64 0x4FFFFFFF#64 _ (by decide) (by decide)]
  unfold Aligned PAGE_SIZE at a2 a3 a4 a5 a6
  repeat' apply And.intro
  all_goals
    intro v h h'
    omega

/-- The tables for all segments. -/
theorem Sections.Linked.tables (hs : s.Linked) :
    (s.segments.map fun g => tablesFor (steps g.bytes)).sum ≤ 1000 := by
  obtain ⟨htext, hbss, hrodata, hdata, hstack, hheap, hend⟩ := hs.order
  have h1 := range_end hs.text_aligned hs.text_end
  have h2 := range_end hs.bss.1 hs.bss_end
  have h3 := range_end hs.rodata.1 hs.rodata_end
  have h4 := range_end hs.data.1 hs.data_end
  have h5 := range_end hs.stack.1 hs.stack_le
  have h6 := range_end hs.heap_aligned hs.heap_end.2
  have a2 := hs.bss.1
  have a3 := hs.rodata.1
  have a4 := hs.data.1
  have a5 := hs.stack.1
  have a6 := hs.heap_aligned
  have hplic : steps (0x0c2FFFFF#64 - 0x0c000000#64).toNat = 768 := by decide
  have hecam : steps (0x3FFFFFFF#64 - 0x30000000#64).toNat = 65536 := by decide
  have hbars : steps (0x4FFFFFFF#64 - 0x40000000#64).toNat = 65536 := by decide
  have htop := hs.heap_end.1
  simp only [segments, Segment.range, List.map_cons, List.map_nil, List.sum_cons, List.sum_nil,
    hplic, hecam, hbars]
  generalize steps (s.textEnd - s.textStart).toNat = n1 at *
  generalize steps (s.bssEnd - s.bssStart).toNat = n2 at *
  generalize steps (s.rodataEnd - s.rodataStart).toNat = n3 at *
  generalize steps (s.dataEnd - s.dataStart).toNat = n4 at *
  generalize steps (s.stackEnd - s.stackStart).toNat = n5 at *
  generalize steps (s.heapEnd - s.heapStart).toNat = n6 at *
  unfold Aligned PAGE_SIZE at *
  -- the image and the page heap are 220 MiB together
  have hpages : n1 + n2 + n3 + n4 + n5 + n6 ≤ 56320 := by omega
  unfold tablesFor
  omega

/-- A page of zeros as the root of a table. -/
theorem zeroed_rooted (ha : Available o) (hn : 1 ≤ o.pages.length) :
    Rooted o.pageZalloc.1 o.pageZalloc.2 ∧ Takes o o.pageZalloc.2 [o.pageZalloc.1] ∧
      ∀ v, leafEntry o.pageZalloc.2.mem o.pageZalloc.1 v = 0#64 := by
  obtain ⟨_, rfl, htakes, hal, -, hmem⟩ := pageZalloc_spec ha hn
  have hzero (i : Fin 512) : o.pageZalloc.2.mem (entryAddr o.pageZalloc.1 i) = 0 := by
    rw [hmem, zeroPage_own]
  refine ⟨⟨htakes.available ha, zeroed_root_tree hal hzero, fun a ⟨σ, _, hw⟩ => ?_⟩, htakes,
    fun v => ?_⟩
  · rw [(zeroed_root_path hzero σ a hw).2, htakes.blocks]
    exact Or.inl ⟨_, List.mem_singleton_self _, rfl⟩
  · unfold leafEntry
    cases hw : walk (child o.pageZalloc.2.mem) o.pageZalloc.1 [vpn v 1, vpn v 2] with
    | none => rfl
    | some t => exact absurd (zeroed_root_path hzero _ t hw).1 (by simp)

/-- `page_zalloc` right after `page_init`: pages of the page heap, more than the tables need. -/
structure Booted (s : Sections) (o : Os) : Prop where
  available : Available o
  blocks : o.blocks = []
  inHeap (p : Word) : p ∈ o.pages → InPageHeap s.heap p
  room : 1024 ≤ o.pages.length

/-- What `main` has mapped. -/
structure Mapped (s : Sections) (root : Word) (mem : ℕ → Word) : Prop where
  segment (g : Segment) (v : Word) : g ∈ s.segments → g.Has v →
    leafEntry mem root v = ownLeaf v g.bits
  others (v : Word) : v.toNat < 2 ^ 39 → (∀ g ∈ s.segments, ¬g.Has v) → leafEntry mem root v = 0#64

theorem mainMap_spec (hs : s.Linked) (hb : Booted s o) :
    Rooted (mainMap s o).1 (mainMap s o).2 ∧ Mapped s (mainMap s o).1 (mainMap s o).2.mem ∧
      (∃ used, Takes o (mainMap s o).2 used) ∧ 4 ≤ (mainMap s o).2.pages.length := by
  have hroom := hb.room
  obtain ⟨hrooted, htakes, hzero⟩ := zeroed_rooted hb.available (by omega)
  have hlen := congrArg List.length htakes.pages
  rw [List.length_append, List.length_singleton] at hlen
  have htables := hs.tables
  obtain ⟨hadds, hleft⟩ := mapSegments_adds (k := 3) hs.proper hs.apart hrooted (by omega)
  obtain ⟨used, htakes'⟩ := hadds.takes
  exact ⟨hadds.rooted, ⟨hadds.segment, fun v hv hnot => (hadds.others v hv hnot).trans (hzero v)⟩,
    ⟨_, htakes.trans htakes'⟩, hleft⟩

theorem Booted.placed (hs : s.Linked) (hb : Booted s o) : Placed s.heap := by
  have hlen := nodup_length_le hb.available.nodup hb.inHeap
  have hroom := hb.room
  have hend := hs.heap_end
  have htext := hs.order.1
  have halign := hs.heap_aligned
  unfold totalPages at hlen
  unfold Aligned at halign
  change 1024 ≤ o.pages.length at hroom
  have hstart : s.heap.start = s.heapStart.toNat := rfl
  have hstop : s.heap.stop = s.heapEnd.toNat := rfl
  rw [hstart, hstop] at hlen
  unfold PageAllocator.PAGE_SIZE at hlen
  refine ⟨⟨?_, ?_, ?_⟩, ?_, ?_⟩
  · rw [hstart, hstop]
    unfold PageAllocator.PAGE_SIZE
    omega
  · rw [hstart, hstop]
    have hlow := hs.bss.2
    have h1 := hs.order
    have h2 := hs.text_end
    have h3 := hs.bss_end
    have h4 := hs.rodata_end
    have h5 := hs.data_end
    have h6 := hs.stack_le
    omega
  · rw [hstop]
    omega
  · exact Nat.dvd_of_mod_eq_zero halign
  · unfold pageAddr PageAllocator.roundToPage PageAllocator.bookkeepingBytes totalPages
    rw [hstart, hstop]
    unfold PageAllocator.PAGE_SIZE
    omega

/-- `init_kernel_heap` takes its page and two tables at most. -/
theorem initKernelHeap_length (root : Word) (m : Words) (o : Os) :
    o.pages.length ≤ (initKernelHeap root m o).os.pages.length + 3 := by
  have hpage : o.pages.length ≤ o.pageZalloc.2.pages.length + 1 := pageZalloc_length o.toMachine
  have hos : (initKernelHeap root m o).os = o.pageZalloc.2.mapMultiple root (heapPage 0)
      o.pageZalloc.1 PAGE_SIZE HEAP_BITS := mmuMap_eq ..
  have hmap := mapMultiple_length o.pageZalloc.2 root (heapPage 0) o.pageZalloc.1 PAGE_SIZE
    HEAP_BITS
  have hcount : (PAGE_SIZE + PAGE_SIZE - 1) / PAGE_SIZE = 1 := rfl
  rw [hcount, ← hos] at hmap
  omega

theorem Booted.ready (hs : s.Linked) (hb : Booted s o) (m : Words) :
    Ready s.heap (mainMap s o).1 m (mainMap s o).2 := by
  obtain ⟨hrooted, -, ⟨used, htakes⟩, hleft⟩ := mainMap_spec hs hb
  generalize (mainMap s o).1 = root at *
  generalize (mainMap s o).2 = o₁ at *
  have hsingle (b : Block) (hmem : b ∈ o₁.blocks) : ∃ p ∈ o.pages, b = ⟨p, 1⟩ := by
    rcases (htakes.blocks b).1 hmem with ⟨p, hp, rfl⟩ | hmem
    · exact ⟨p, htakes.pages ▸ List.mem_append_left _ hp, rfl⟩
    · rw [hb.blocks] at hmem
      exact absurd hmem List.not_mem_nil
  have haligned (p : Word) (hp : p ∈ o.pages) : Aligned p := hb.available.aligned p hp
  refine ⟨hrooted, fun a b ha hb' hne => ?_, fun b hmem => ?_, ?_, ?_⟩
  · obtain ⟨p, hp, rfl⟩ := hsingle a ha
    obtain ⟨q, hq, rfl⟩ := hsingle b hb'
    exact misses_of_ne (haligned p hp) (haligned q hq) fun e => hne (congrArg (Block.mk · 1) e)
  · obtain ⟨p, hp, rfl⟩ := hsingle b hmem
    exact haligned p hp
  · obtain ⟨p, hp, -⟩ := pageZalloc_spec hrooted.available (by omega)
    obtain ⟨-, htakes', -⟩ := pageZalloc_rooted hrooted (by omega)
    refine hb.inHeap _ ?_
    rw [htakes.pages, htakes'.pages]
    exact List.mem_append_right _ (List.mem_append_left _ List.mem_cons_self)
  · have hlen := initKernelHeap_length root m o₁
    exact List.ne_nil_of_length_pos (by omega)

end Main

/-! ## What the heap changes -/

/-- A page that the kernel heap may grow to. -/
def HeapVirtual (v : Word) : Prop := ∃ i < 2 ^ 19, SamePage v (heapPage i)

/-- From a heap of `n` pages to one of `n'`: only pages of the heap change, and those above its
new top are unmapped or were above the old one. -/
structure Moves (root : Word) (n n' : ℕ) (o o' : Os) : Prop where
  frame (v : Word) : ¬HeapVirtual v → leafEntry o'.mem root v = leafEntry o.mem root v
  above (i : ℕ) : n' ≤ i → i < 2 ^ 19 →
    leafEntry o'.mem root (heapPage i) &&& PTEB_VALID = 0#64 ∨
      n ≤ i ∧ leafEntry o'.mem root (heapPage i) = leafEntry o.mem root (heapPage i)

section Moving
variable {h : HeapSymbols} {root first run p : Word} {base : List Block} {o o' o'' : Os}
  {data data' : List Word} {n n' n'' bytes : ℕ} {s t : State}

theorem Moves.refl (root : Word) (n : ℕ) (o : Os) : Moves root n n o o :=
  ⟨fun _ _ => rfl, fun _ hi _ => Or.inr ⟨hi, rfl⟩⟩

/-- Tables with the same leaves. -/
theorem Moves.of_leaf (hleaf : ∀ v, leafEntry o'.mem root v = leafEntry o.mem root v) :
    Moves root n n o o' :=
  ⟨fun v _ => hleaf v, fun i hi _ => Or.inr ⟨hi, hleaf (heapPage i)⟩⟩

theorem Moves.trans (h₁ : Moves root n n' o o') (h₂ : Moves root n' n'' o' o'') :
    Moves root n n'' o o'' := by
  refine ⟨fun v hv => (h₂.frame v hv).trans (h₁.frame v hv), fun i hi hlt => ?_⟩
  rcases h₂.above i hi hlt with hfree | ⟨hle, hsame⟩
  · exact Or.inl hfree
  · rw [hsame]
    exact h₁.above i hle hlt

theorem topOf_inj (htop : topOf data = topOf data') : data.length = data'.length := by
  unfold topOf PAGE_SIZE at htop
  omega

/-- A run that is mapped at the top. -/
theorem mapRun_moves {k : ℕ} (hb : Backed h root base first o data) (hpl : Placed h) (hk : 1 ≤ k)
    (hfree : Free o run k) (hin : InPages h run k)
    (hpages : (pagesToAlloc bytes).toInt = k) (hbytes : runBytes bytes = PAGE_SIZE * k)
    (hleft : (mapRun root run (topOf data) bytes o).pages ≠ []) :
    Moves root (data.length + 1) (data.length + 1 + k) o
      (mapRun root run (topOf data) bytes o) := by
  have hroom := hb.room hpl hfree hin
  have htotal := hpl.totalPages_lt
  have hmax : max ((k : ℕ) : ℤ).toNat 1 = k := by omega
  obtain ⟨hrooted, -, hleaf⟩ := pageZnalloc_rooted (n := (k : ℕ)) hb.rooted
    fun _ : run ≠ 0#64 => hmax.symm ▸ hfree
  have hmap : mapRun root run (topOf data) bytes o =
      (o.pageZnalloc (k : ℕ) run).mapMultiple root (heapPage (data.length + 1)) run (PAGE_SIZE * k)
        HEAP_BITS := by
    rw [mapRun, hpages, hbytes]
    rfl
  have hcount : (PAGE_SIZE * k + PAGE_SIZE - 1) / PAGE_SIZE = k := by
    unfold PAGE_SIZE
    omega
  rw [hmap] at hleft ⊢
  obtain ⟨-, hmaps, -⟩ := mapMultiple_spec hrooted (by decide) hleft
  rw [hcount] at hmaps
  refine ⟨fun v hv => ?_, fun i hi hlt => Or.inr ⟨by omega, ?_⟩⟩
  · rcases hmaps.leaf v with ⟨j, -, hj, hsame, -⟩ | ⟨-, hkept⟩
    · rw [heapPage_add] at hsame
      exact absurd ⟨_, by omega, hsame⟩ hv
    · exact hkept.trans (hleaf v)
  · rcases hmaps.leaf (heapPage i) with ⟨j, -, hj, hsame, -⟩ | ⟨-, hkept⟩
    · rw [heapPage_add, samePage_heapPage (by omega) (by omega)] at hsame
      omega
    · exact hkept.trans (hleaf _)

/-- `heap_shrink` unmaps the page at the top. -/
theorem release_moves (hb : Backed h root base first o (data ++ [p])) (hpl : Placed h) :
    Moves root (data.length + 2) (data.length + 1) o
      (release h root (heapPage (data.length + 1)) o) := by
  have hlen := hb.length_le
  have htotal := hpl.totalPages_lt
  rw [List.length_append, List.length_singleton] at hlen
  have htop : (first :: (data ++ [p]))[data.length + 1]? = some p := by simp
  generalize hq : mmuTranslate o.mem root (heapPage (data.length + 1)) = q
  have hmachine := pageFree_machine h o q
  have hmem : (pageFree h o q).mem = o.mem := congrArg Machine.mem hmachine
  have hmapped : leafEntry (pageFree h o q).mem root (heapPage (data.length + 1)) ≠ 0#64 := by
    rw [hmem, hb.leaf _ _ htop]
    intro hzero
    exact leaf_valid _ _ (by rw [hzero]; decide)
  have htree : Tree (pageFree h o q).mem root := by
    rw [hmem]
    exact hb.rooted.tree
  obtain ⟨-, -, hleaf⟩ := mmuSet_mapped (s := (pageFree h o q).toMachine) htree hmapped 0 0
  have hrelease : release h root (heapPage (data.length + 1)) o = (pageFree h o q).run
      (mmuUnmap (pageFree h o q).toMachine root (heapPage (data.length + 1))) := by
    rw [release, hq]
  have hkept (v : Word) : leafEntry (release h root (heapPage (data.length + 1)) o).mem root v =
      if SamePage v (heapPage (data.length + 1)) then leafBits 0 0 else leafEntry o.mem root v := by
    rw [hrelease, ← hmem]
    exact hleaf v
  refine ⟨fun v hv => ?_, fun i hi hlt => ?_⟩
  · rw [hkept, if_neg fun hsame => hv ⟨_, by omega, hsame⟩]
  · by_cases htopmost : i = data.length + 1
    · have hself : SamePage (heapPage (data.length + 1)) (heapPage (data.length + 1)) := rfl
      rw [htopmost, hkept, if_pos hself]
      exact Or.inl leaf_unmapped
    · rw [hkept, if_neg]
      · exact Or.inr ⟨by omega, rfl⟩
      · rw [samePage_heapPage (by omega) (by omega)]
        exact htopmost

theorem shrinkFrom_moves {last n : ℕ} {u w : Heap} (hb : Backed h root base first o data)
    (hpl : Placed h) (htop : u.kernelHeapVaddr = topOf data) (hlow : KERNEL_HEAP_START_VADDR ≤ last)
    (hsum : last + headerSize + size u.mem last < 2 ^ 64)
    (ht : shrinkFrom h root last n u o = some (w, o')) :
    ∃ data', w.kernelHeapVaddr = topOf data' ∧
      Moves root (data.length + 1) (data'.length + 1) o o' := by
  induction n generalizing u o data with
  | zero => cases ht
  | succ n ih =>
    rw [shrinkFrom] at ht
    by_cases hc : add64 (last + headerSize) (size u.mem last) = u.kernelHeapVaddr ∧
        PAGE_SIZE ≤ size u.mem last
    · have hc' := hc
      rw [if_pos hc] at ht
      obtain ⟨hend, hsize⟩ := hc'
      rw [KernelHeap.add64_eq hsum, htop] at hend
      have hpos : 0 < data.length := by
        unfold topOf headerSize at *
        unfold PAGE_SIZE at *
        omega
      obtain ⟨data₀, p, rfl⟩ := List.eq_nil_or_concat' data |>.resolve_left
        (List.ne_nil_of_length_pos hpos)
      have hlen : (data₀ ++ [p]).length = data₀.length + 1 := by simp
      have hsub : sub64 u.kernelHeapVaddr PAGE_SIZE = topOf data₀ := by
        have hlast := hb.length_le
        have htotal := hpl.totalPages_lt
        rw [htop, KernelHeap.sub64_eq]
        all_goals
          unfold topOf at *
          rw [hlen] at *
          unfold KERNEL_HEAP_START_VADDR PAGE_SIZE at *
          omega
      have hsub' : sub64 (size u.mem last) PAGE_SIZE = size u.mem last - PAGE_SIZE :=
        KernelHeap.sub64_eq hsize (by omega)
      have hsize' : size (setSize u.mem last (size u.mem last - PAGE_SIZE)) last =
          size u.mem last - PAGE_SIZE := Function.update_self ..
      obtain ⟨hb', -⟩ := hb.release hpl
      obtain ⟨data', htop', hmoves⟩ :=
        ih (u := ⟨setSize u.mem last (sub64 (size u.mem last) PAGE_SIZE),
          sub64 u.kernelHeapVaddr PAGE_SIZE⟩) hb' hsub (by rw [hsub', hsize']; omega) (by
            rw [← ht, hsub]
            rfl)
      rw [hlen]
      exact ⟨data', htop', (release_moves hb hpl).trans hmoves⟩
    · rw [if_neg hc] at ht
      obtain ⟨rfl, rfl⟩ := Prod.mk.inj (Option.some.inj ht)
      exact ⟨data, htop, .refl root _ _⟩

/-- The node before the head ends in the address space. -/
theorem last_node_bounds {live : ℕ → Option ℕ} {u : Heap} {cells : List ℕ} (hpl : Placed h)
    (hr : Represents (totalPages h) live u cells) :
    KERNEL_HEAP_START_VADDR ≤ prev u.mem kmallocHead ∧
      prev u.mem kmallocHead + headerSize + size u.mem (prev u.mem kmallocHead) < 2 ^ 64 := by
  rcases hr.prev_head.2 with hhead | ⟨hmem, -⟩
  · rw [hhead, hr.head_size]
    exact ⟨le_refl _, by decide⟩
  · have hle := hr.cell_le hpl.totalPages_lt hmem
    generalize prev u.mem kmallocHead = last at hle ⊢
    unfold KernelHeap.cell kmallocHead headerSize KERNEL_HEAP_START_VADDR at *
    omega

theorem kfree_moves {a : ℕ} {r : Heap × Os} (hi : Invariant h root base first s data)
    (hpl : Placed h) (ha : s.live a ≠ none) (hr : kfree h root s.heap s.os a = some r) :
    ∃ data', r.1.kernelHeapVaddr = topOf data' ∧
      Moves root (data.length + 1) (data'.length + 1) s.os r.2 := by
  obtain ⟨cells, hrep⟩ := hi.heap
  obtain ⟨q, -, rfl⟩ := hrep.live_cell a ha
  obtain ⟨hsub, b, u, cells', hsearch, hu, hru, -, htopu, -⟩ := hrep.returned hpl.totalPages_lt ha
  obtain ⟨hlow, hsum⟩ := last_node_bounds hpl hru
  have hne : q + headerSize ≠ 0 := Nat.succ_ne_zero _
  rw [kfree, if_neg hne] at hr
  simp only [hsub, hsearch, hu] at hr
  exact shrinkFrom_moves hi.backed hpl (htopu.trans hi.top) hlow hsum hr

theorem allocation_moves {supply : List Word} {doZero contiguous : Bool}
    (hi : Invariant h root base first s data) (hpl : Placed h)
    (ht : Allocation h root s bytes run supply doZero contiguous t)
    (htop : t.heap.kernelHeapVaddr = topOf data') :
    Moves root (data.length + 1) (data'.length + 1) s.os t.os := by
  obtain ⟨hbytes, hsupply, hgrant, r, hres, hleft, rfl⟩ := ht
  obtain ⟨hk, hint, hrun⟩ := askedPages_eq hbytes
  obtain ⟨-, ⟨hsame, htop'⟩ | ⟨hne, hmap, htop'⟩⟩ := commonAlloc_heap hres
  · have hlen := topOf_inj ((htop'.trans hi.top).symm.trans htop)
    have hos : (allocated s bytes contiguous r).os = { s.os with pages := supply } := hsame
    rw [← hlen, hos]
    exact .of_leaf fun _ => rfl
  · obtain ⟨hfree, hin⟩ := hgrant hne
    have hb := hi.backed.supplied hsupply
    have hroom := hb.room hpl hfree hin
    have htotal := hpl.totalPages_lt
    rw [hi.top] at hmap htop'
    have hlen : data'.length = data.length + askedPages bytes := by
      have hsum : topOf data + runBytes (roundUp bytes) < 2 ^ 64 := by
        rw [hrun]
        unfold topOf KERNEL_HEAP_START_VADDR PAGE_SIZE
        omega
      have heq := htop.symm.trans htop'
      rw [KernelHeap.add64_eq hsum, hrun] at heq
      unfold topOf PAGE_SIZE at heq
      omega
    have hmoves := mapRun_moves hb hpl hk hfree hin hint hrun (hmap ▸ hleft)
    rw [← hmap] at hmoves
    have hcount : data'.length + 1 = data.length + 1 + askedPages bytes := by omega
    rw [hcount]
    exact ⟨hmoves.frame, hmoves.above⟩

/-- What the heap stores behind its pages reaches no leaf. -/
theorem store_leaf (hi : Invariant h root base first s data) (hpl : Placed h) {y : ℕ} {x : Word}
    (hy : BehindHeap root s y) (v : Word) :
    leafEntry (Function.update s.os.mem y x) root v = leafEntry s.os.mem root v := by
  obtain ⟨w, hlow, hhigh, hy⟩ := hy
  have hb := hi.backed
  rw [hi.top] at hhigh
  obtain ⟨p, hp⟩ : ∃ p, (first :: data)[(w - KERNEL_HEAP_START_VADDR) / PAGE_SIZE]? = some p := by
    refine ⟨_, List.getElem?_eq_getElem ?_⟩
    rw [List.length_cons]
    unfold topOf PAGE_SIZE at *
    omega
  have hw : KERNEL_HEAP_START_VADDR + PAGE_SIZE * ((w - KERNEL_HEAP_START_VADDR) / PAGE_SIZE) +
      (w - KERNEL_HEAP_START_VADDR) % PAGE_SIZE = w := by
    rw [Nat.add_assoc, Nat.div_add_mod, Nat.add_sub_cancel' hlow]
  have hmod := Nat.mod_lt (w - KERNEL_HEAP_START_VADDR) (by decide : 0 < PAGE_SIZE)
  have htranslate := hb.translate hpl hp hmod
  rw [hw, hy] at htranslate
  have hpm : p ∈ first :: data := List.mem_of_getElem? hp
  have hpa := (hb.inHeap p hpm).aligned hpl
  refine (hb.rooted.tree.congr fun a ha i => Function.update_of_ne ?_ _ _).2.2 v
  have hap := hb.table_apart hpl hpm ha
  have haa := hb.rooted.tree.aligned a ha
  have hlt := i.isLt
  unfold entryAddr
  unfold Has Aligned PAGE_SIZE at *
  dsimp only at hap
  omega

theorem step_moves {e : Event} (hi : Invariant h root base first s data) (hpl : Placed h)
    (hs : HeapFrames.Step h root s e t) (htop : t.heap.kernelHeapVaddr = topOf data') :
    Moves root (data.length + 1) (data'.length + 1) s.os t.os := by
  cases e with
  | kmalloc bytes run supply => exact allocation_moves hi hpl hs htop
  | kzalloc bytes run supply => exact allocation_moves hi hpl hs htop
  | kcalloc bytes run supply => exact allocation_moves hi hpl hs htop
  | kfree addr =>
    obtain ⟨hlive, r, hr, rfl⟩ := hs
    by_cases hzero : addr = 0
    · rw [kfree, if_pos hzero] at hr
      obtain rfl := Option.some.inj hr
      rw [← topOf_inj (hi.top.symm.trans htop)]
      exact .refl root _ _
    · obtain ⟨data'', htop'', hmoves⟩ := kfree_moves hi hpl (hlive.resolve_left hzero) hr
      rw [← topOf_inj (htop''.symm.trans htop)]
      exact hmoves
  | write w v =>
    obtain ⟨-, -, rfl⟩ := hs
    rw [← topOf_inj (hi.top.symm.trans htop)]
    exact .refl root _ _
  | store y v =>
    obtain ⟨hy, rfl⟩ := hs
    rw [← topOf_inj (hi.top.symm.trans htop)]
    exact .of_leaf fun w => store_leaf hi hpl hy w

end Moving

/-! ## Every run of the heap -/

/-- The address space: each section and device at its own address with its permissions, the pages
of the kernel heap in frames of the page heap, and nothing else. -/
structure AddressSpace (s : Sections) (root : Word) (t : State) : Prop where
  own (g : Segment) (v : Word) : g ∈ s.segments → g.Has v →
    mmuTranslate t.os.mem root v = v ∧
      leafEntry t.os.mem root v &&& 0x3ff#64 = g.bits ||| PTEB_VALID
  heap (v : Word) : KERNEL_HEAP_START_VADDR ≤ v.toNat → v.toNat < t.heap.kernelHeapVaddr →
    ∃ p, InPageHeap s.heap p ∧
      (mmuTranslate t.os.mem root v).toNat = p.toNat + v.toNat % PAGE_SIZE ∧
      leafEntry t.os.mem root v &&& 0x3ff#64 = HEAP_BITS ||| PTEB_VALID
  unmapped (v : Word) : v.toNat < 2 ^ 39 → (∀ g ∈ s.segments, ¬g.Has v) →
    ¬(KERNEL_HEAP_START_VADDR ≤ v.toNat ∧ v.toNat < t.heap.kernelHeapVaddr) →
    mmuTranslate t.os.mem root v = -1#64
  /-- `.text` and `.rodata` cannot be written through any address -/
  readOnly (v : Word) (g : Segment) : v.toNat < 2 ^ 39 → mmuTranslate t.os.mem root v ≠ -1#64 →
    leafEntry t.os.mem root v &&& PTEB_WRITE ≠ 0#64 → g ∈ s.segments →
    g.bits &&& PTEB_WRITE = 0#64 → ¬g.Has (mmuTranslate t.os.mem root v)
  /-- nothing is for user mode, and what can be written cannot be executed -/
  kernel (v : Word) : v.toNat < 2 ^ 39 → mmuTranslate t.os.mem root v ≠ -1#64 →
    leafEntry t.os.mem root v &&& PTEB_USER = 0#64 ∧
      (leafEntry t.os.mem root v &&& PTEB_WRITE = 0#64 ∨
        leafEntry t.os.mem root v &&& PTEB_EXECUTE = 0#64)

section Runs
variable {s : Sections} {root first v : Word} {o : Os} {m : Words} {t : State} {data : List Word}
  {base : List Block} {g : Segment}

/-- A zeroed page is no part of a table. -/
theorem pageZalloc_leaf (hr : Rooted root o) (hleft : 1 ≤ o.pages.length) (v : Word) :
    leafEntry o.pageZalloc.2.mem root v = leafEntry o.mem root v := by
  obtain ⟨p, -, htakes, hal, -, hmem⟩ := pageZalloc_spec hr.available hleft
  have hpo : p ∈ o.pages := by
    rw [htakes.pages]
    exact List.mem_append_left _ List.mem_cons_self
  refine (hr.tree.congr fun a ha i => ?_).2.2 v
  rw [hmem]
  exact zeroPage_entry hal (hr.tree.aligned a ha) (fun e => hr.freshPages.fresh p hpo (e ▸ ha)) i

theorem initKernelHeap_moves {h : HeapSymbols} (hr : Ready h root m o) :
    Moves root 0 1 o (initKernelHeap root m o).os := by
  have hos : (initKernelHeap root m o).os =
      o.pageZalloc.2.mapMultiple root (heapPage 0) o.pageZalloc.1 PAGE_SIZE HEAP_BITS :=
    mmuMap_eq ..
  have hleft := hr.left
  rw [hos] at hleft ⊢
  have hleft₀ : 1 ≤ o.pages.length :=
    pages_left (pageZalloc_suffix o.toMachine) (mapMultiple_left hleft)
  obtain ⟨hrooted, -⟩ := pageZalloc_rooted hr.rooted hleft₀
  obtain ⟨-, hmaps, -⟩ := mapMultiple_spec hrooted (by decide) hleft
  have hcount : (PAGE_SIZE + PAGE_SIZE - 1) / PAGE_SIZE = 1 := rfl
  rw [hcount] at hmaps
  refine ⟨fun v hv => ?_, fun i hi hlt => Or.inr ⟨Nat.zero_le i, ?_⟩⟩
  · rcases hmaps.leaf v with ⟨j, -, hj, hsame, -⟩ | ⟨-, hkept⟩
    · rw [heapPage_add] at hsame
      exact absurd ⟨_, by omega, hsame⟩ hv
    · exact hkept.trans (pageZalloc_leaf hr.rooted hleft₀ v)
  · rcases hmaps.leaf (heapPage i) with ⟨j, -, hj, hsame, -⟩ | ⟨-, hkept⟩
    · rw [heapPage_add, samePage_heapPage (by omega) (by omega)] at hsame
      omega
    · exact hkept.trans (pageZalloc_leaf hr.rooted hleft₀ _)

theorem samePage_heapPage_iff (hv : v.toNat < 2 ^ 39) {i : ℕ} (hi : i < 2 ^ 19) :
    SamePage v (heapPage i) ↔ KERNEL_HEAP_START_VADDR + PAGE_SIZE * i ≤ v.toNat ∧
      v.toNat < KERNEL_HEAP_START_VADDR + PAGE_SIZE * (i + 1) := by
  unfold SamePage
  rw [heapPage_toNat (by omega)]
  unfold KERNEL_HEAP_START_VADDR PAGE_SIZE
  omega

/-- The segments lie below the kernel heap. -/
theorem Sections.Linked.below (hs : s.Linked) (hg : g ∈ s.segments) (hv : g.Has v) :
    v.toNat < 2 ^ 32 :=
  Nat.lt_of_lt_of_le hv.2 (hs.proper g hg).low

theorem Sections.Linked.not_heapVirtual (hs : s.Linked) (hg : g ∈ s.segments) (hv : g.Has v) :
    ¬HeapVirtual v := by
  intro ⟨i, hi, hsame⟩
  have hlow := hs.below hg hv
  have hpage := (samePage_heapPage_iff (by omega) hi).1 hsame
  unfold KERNEL_HEAP_START_VADDR at hpage
  omega

theorem segment_bits (hg : g ∈ s.segments) :
    (g.bits = PTEB_READ ||| PTEB_EXECUTE ∨ g.bits = PTEB_READ ||| PTEB_WRITE ∨
      g.bits = PTEB_READ) := by
  simp only [Sections.segments, List.mem_cons, List.not_mem_nil, or_false] at hg
  rcases hg with rfl | rfl | rfl | rfl | rfl | rfl | rfl | rfl | rfl <;>
    simp [Segment.range]

theorem ownLeaf_low (hg : g ∈ s.segments) :
    ownLeaf v g.bits &&& 0x3ff#64 = g.bits ||| PTEB_VALID := by
  rw [ownLeaf, leafBits_low]
  rcases segment_bits hg with hbits | hbits | hbits
  all_goals
    rw [hbits]
    decide

theorem translate_ownLeaf (hg : g ∈ s.segments) (hv : v.toNat < 2 ^ 32) :
    translateEntry (ownLeaf v g.bits) v = v := by
  have hpage : (pageDown v).toNat = v.toNat / 4096 * 4096 := by
    have h4096 : (4096#64).toNat = 4096 := rfl
    rw [pageDown, BitVec.toNat_mul, BitVec.toNat_udiv, h4096]
    omega
  have hbits : g.bits.toNat < 2 ^ 10 ∧ g.bits &&& 0xe#64 ≠ 0#64 := by
    rcases segment_bits hg with hbits | hbits | hbits
    all_goals
      rw [hbits]
      decide
  apply BitVec.eq_of_toNat_eq
  rw [ownLeaf, translateEntry_leafBits (by omega) hbits.1 hbits.2, hpage]
  unfold PAGE_SIZE
  omega

/-- The leaves of the table, after any run. -/
structure Leaves (s : Sections) (root : Word) (t : State) : Prop where
  tree : Tree t.os.mem root
  own (g : Segment) (v : Word) : g ∈ s.segments → g.Has v →
    leafEntry t.os.mem root v = ownLeaf v g.bits
  heap (v : Word) : KERNEL_HEAP_START_VADDR ≤ v.toNat → v.toNat < t.heap.kernelHeapVaddr →
    ∃ p, InPageHeap s.heap p ∧ leafEntry t.os.mem root v = leafBits p (HEAP_BITS ||| PTEB_VALID)
  unmapped (v : Word) : v.toNat < 2 ^ 39 → (∀ g ∈ s.segments, ¬g.Has v) →
    ¬(KERNEL_HEAP_START_VADDR ≤ v.toNat ∧ v.toNat < t.heap.kernelHeapVaddr) →
    leafEntry t.os.mem root v &&& PTEB_VALID = 0#64

theorem leaves_of_moves (hs : s.Linked) (hpl : Placed s.heap) (hm : Mapped s root o.mem)
    (hi : Invariant s.heap root base first t data)
    (hmoves : Moves root 0 (data.length + 1) o t.os) : Leaves s root t := by
  have hlen := hi.backed.length_le
  have htotal := hpl.totalPages_lt
  have htop := hi.top
  unfold topOf at htop
  refine ⟨hi.backed.rooted.tree, fun g v hg hv => ?_, fun v hlow hhigh => ?_,
    fun v hv hnot hout => ?_⟩
  · exact (hmoves.frame v (hs.not_heapVirtual hg hv)).trans (hm.segment g v hg hv)
  · obtain ⟨p, hp⟩ : ∃ p,
        (first :: data)[(v.toNat - KERNEL_HEAP_START_VADDR) / PAGE_SIZE]? = some p := by
      refine ⟨_, List.getElem?_eq_getElem ?_⟩
      rw [List.length_cons]
      unfold PAGE_SIZE at *
      omega
    have hindex : (v.toNat - KERNEL_HEAP_START_VADDR) / PAGE_SIZE < data.length + 1 :=
      (List.getElem?_eq_some_iff.1 hp).1
    have hsame : SamePage v (heapPage ((v.toNat - KERNEL_HEAP_START_VADDR) / PAGE_SIZE)) := by
      rw [samePage_heapPage_iff]
      all_goals
        unfold KERNEL_HEAP_START_VADDR PAGE_SIZE at *
        omega
    refine ⟨p, hi.backed.inHeap p (List.mem_of_getElem? hp), ?_⟩
    rw [leafEntry_samePage hsame]
    exact hi.backed.leaf _ p hp
  · by_cases hheap : HeapVirtual v
    · obtain ⟨i, hlt, hsame⟩ := hheap
      have hpage := (samePage_heapPage_iff hv hlt).1 hsame
      have hle : data.length + 1 ≤ i := by
        unfold PAGE_SIZE at *
        omega
      rw [leafEntry_samePage hsame]
      rcases hmoves.above i hle hlt with hfree | ⟨-, hkept⟩
      · exact hfree
      · have hnat := heapPage_toNat (i := i) (by omega)
        unfold KERNEL_HEAP_START_VADDR PAGE_SIZE at hnat
        rw [hkept, hm.others _ (by omega) fun g hg hhas => ?_]
        · decide
        · have hlow := hs.below hg hhas
          omega
    · rw [hmoves.frame v hheap, hm.others v hv hnot]
      decide

/-- Every run of `kmalloc`, `kzalloc`, `kcalloc`, `kfree` and of writes to the heap keeps the
leaves. -/
theorem run_leaves (hs : s.Linked) (hb : Booted s o)
    (hrun : Execution (HeapFrames.Step s.heap (mainMap s o).1)
      (initKernelHeap (mainMap s o).1 m (mainMap s o).2) t) : Leaves s (mainMap s o).1 t := by
  have hpl := hb.placed hs
  have hready := hb.ready hs m
  obtain ⟨-, hmapped, -⟩ := mainMap_spec hs hb
  obtain ⟨data, hi, hmoves⟩ : ∃ data, Invariant s.heap (mainMap s o).1
      (initKernelHeap (mainMap s o).1 m (mainMap s o).2).os.blocks (mainMap s o).2.pageZalloc.1 t
        data ∧
      Moves (mainMap s o).1 0 (data.length + 1) (mainMap s o).2 t.os := by
    refine hrun.invariant (I := fun t => ∃ data, Invariant s.heap (mainMap s o).1 _ _ t data ∧
      Moves (mainMap s o).1 0 (data.length + 1) (mainMap s o).2 t.os) ?_
      ⟨[], hready.invariant, initKernelHeap_moves hready⟩
    intro u e w ⟨data, hi, hmoves⟩ hstep
    obtain ⟨data', hi', -⟩ := step_preserves_invariant hi hpl hstep
    exact ⟨data', hi', hmoves.trans (step_moves hi hpl hstep hi'.top)⟩
  exact leaves_of_moves hs hpl hmapped hi hmoves

/-- An address that is mapped is in a segment or in the heap. -/
theorem Leaves.cases (hl : Leaves s root t) (hv : v.toNat < 2 ^ 39)
    (hm : mmuTranslate t.os.mem root v ≠ -1#64) :
    (∃ g ∈ s.segments, g.Has v) ∨
      KERNEL_HEAP_START_VADDR ≤ v.toNat ∧ v.toNat < t.heap.kernelHeapVaddr := by
  by_contra hnot
  rw [not_or] at hnot
  have hfree := hl.unmapped v hv (fun g hg hhas => hnot.1 ⟨g, hg, hhas⟩) hnot.2
  rw [hl.tree.translate_eq, translateEntry, if_pos hfree] at hm
  exact hm rfl

theorem Leaves.translate_own (hl : Leaves s root t) (hs : s.Linked) (hg : g ∈ s.segments)
    (hv : g.Has v) : mmuTranslate t.os.mem root v = v := by
  rw [hl.tree.translate_eq, hl.own g v hg hv]
  exact translate_ownLeaf hg (hs.below hg hv)

theorem Leaves.translate_heap (hl : Leaves s root t) (hpl : Placed s.heap)
    (hlow : KERNEL_HEAP_START_VADDR ≤ v.toNat) (hhigh : v.toNat < t.heap.kernelHeapVaddr) :
    ∃ p, InPageHeap s.heap p ∧
      leafEntry t.os.mem root v = leafBits p (HEAP_BITS ||| PTEB_VALID) ∧
      (mmuTranslate t.os.mem root v).toNat = p.toNat + v.toNat % PAGE_SIZE := by
  obtain ⟨p, hp, hleaf⟩ := hl.heap v hlow hhigh
  have hbelow := (hp.below hpl).1
  have haligned := hp.aligned hpl
  refine ⟨p, hp, hleaf, ?_⟩
  rw [hl.tree.translate_eq, hleaf,
    translateEntry_leafBits (by unfold PAGE_SIZE at hbelow; omega) (by decide) (by decide)]
  unfold Aligned PAGE_SIZE at haligned
  unfold PAGE_SIZE
  omega

theorem heapLeaf_low (p : Word) :
    leafBits p (HEAP_BITS ||| PTEB_VALID) &&& 0x3ff#64 = HEAP_BITS ||| PTEB_VALID := by
  rw [leafBits_low]
  decide

/-- The bits of a leaf that the low ones decide. -/
theorem and_of_low {e low b : Word} (h : e &&& 0x3ff#64 = low) (hb : 0x3ff#64 &&& b = b) :
    e &&& b = low &&& b := by
  rw [← h, BitVec.and_assoc, hb]

theorem Leaves.kernel (hl : Leaves s root t) (hpl : Placed s.heap) (hv : v.toNat < 2 ^ 39)
    (hm : mmuTranslate t.os.mem root v ≠ -1#64) :
    leafEntry t.os.mem root v &&& PTEB_USER = 0#64 ∧
      (leafEntry t.os.mem root v &&& PTEB_WRITE = 0#64 ∨
        leafEntry t.os.mem root v &&& PTEB_EXECUTE = 0#64) := by
  obtain ⟨bits, hlow, hbits⟩ : ∃ bits,
      leafEntry t.os.mem root v &&& 0x3ff#64 = bits ||| PTEB_VALID ∧
      (bits = PTEB_READ ||| PTEB_EXECUTE ∨ bits = PTEB_READ ||| PTEB_WRITE ∨ bits = PTEB_READ) := by
    rcases hl.cases hv hm with ⟨g, hg, hhas⟩ | ⟨hlow, hhigh⟩
    · refine ⟨g.bits, ?_, segment_bits hg⟩
      rw [hl.own g v hg hhas]
      exact ownLeaf_low hg
    · obtain ⟨p, -, hleaf, -⟩ := hl.translate_heap hpl hlow hhigh
      refine ⟨HEAP_BITS, ?_, Or.inr (Or.inl rfl)⟩
      rw [hleaf]
      exact heapLeaf_low p
  rw [and_of_low hlow (by decide), and_of_low hlow (by decide), and_of_low hlow (by decide)]
  rcases hbits with rfl | rfl | rfl <;> decide

theorem Sections.Linked.eq_of_has (hs : s.Linked) {g' : Segment} (hg : g ∈ s.segments)
    (hg' : g' ∈ s.segments) (hv : g.Has v) (hv' : g'.Has v) : g = g' := by
  by_contra hne
  have hsymm : Std.Symm fun g g' : Segment => ∀ v, g.Has v → ¬g'.Has v :=
    ⟨fun _ _ h v hb ha => h v ha hb⟩
  exact hs.apart.forall hg hg' hne v hv hv'

/-- `.text` and `.rodata` lie below the page heap. -/
theorem Sections.Linked.readOnly_below (hs : s.Linked) (hg : g ∈ s.segments)
    (hbits : g.bits &&& PTEB_WRITE = 0#64) (hv : g.Has v) : v.toNat < s.heapStart.toNat := by
  obtain ⟨htext, hbss, hrodata, hdata, hstack, hheap, hend⟩ := hs.order
  have h2 := hs.bss_end
  have h3 := hs.rodata_end
  have h4 := hs.data_end
  have h5 := hs.stack_le
  have a2 := hs.bss.1
  have a4 := hs.data.1
  unfold Aligned PAGE_SIZE at a2 a4
  have hwritable : (PTEB_READ ||| PTEB_WRITE) &&& PTEB_WRITE ≠ 0#64 := by decide
  simp only [Sections.segments, List.mem_cons, List.not_mem_nil, or_false] at hg
  rcases hg with rfl | rfl | rfl | rfl | rfl | rfl | rfl | rfl | rfl
  · obtain ⟨-, hlt⟩ := (range_has hs.text_aligned hs.text_end).1 hv
    omega
  · exact absurd hbits hwritable
  · obtain ⟨-, hlt⟩ := (range_has hs.rodata.1 h3).1 hv
    omega
  all_goals exact absurd hbits hwritable

theorem Leaves.readOnly (hl : Leaves s root t) (hs : s.Linked) (hpl : Placed s.heap)
    (hv : v.toNat < 2 ^ 39) (hm : mmuTranslate t.os.mem root v ≠ -1#64)
    (hwrite : leafEntry t.os.mem root v &&& PTEB_WRITE ≠ 0#64) (hg : g ∈ s.segments)
    (hbits : g.bits &&& PTEB_WRITE = 0#64) : ¬g.Has (mmuTranslate t.os.mem root v) := by
  intro hhas
  rcases hl.cases hv hm with ⟨g', hg', hhas'⟩ | ⟨hlow, hhigh⟩
  · rw [hl.translate_own hs hg' hhas'] at hhas
    obtain rfl := hs.eq_of_has hg hg' hhas hhas'
    have hlow : leafEntry t.os.mem root v &&& 0x3ff#64 = g.bits ||| PTEB_VALID := by
      rw [hl.own g v hg hhas]
      exact ownLeaf_low hg
    refine hwrite ?_
    rw [and_of_low hlow (by decide), BitVec.and_or_distrib_right, hbits]
    decide
  · obtain ⟨p, hp, -, htranslate⟩ := hl.translate_heap hpl hlow hhigh
    have hbelow := hs.readOnly_below hg hbits hhas
    have hheap := (hp.below hpl).2
    change s.heapStart.toNat ≤ p.toNat at hheap
    omega

theorem Leaves.addressSpace (hl : Leaves s root t) (hs : s.Linked) (hpl : Placed s.heap) :
    AddressSpace s root t where
  own g v hg hv := by
    refine ⟨hl.translate_own hs hg hv, ?_⟩
    rw [hl.own g v hg hv]
    exact ownLeaf_low hg
  heap v hlow hhigh := by
    obtain ⟨p, hp, hleaf, htranslate⟩ := hl.translate_heap hpl hlow hhigh
    refine ⟨p, hp, htranslate, ?_⟩
    rw [hleaf]
    exact heapLeaf_low p
  unmapped v hv hnot hout := by
    by_contra hm
    rcases hl.cases hv hm with ⟨g, hg, hhas⟩ | hheap
    · exact hnot g hg hhas
    · exact hout hheap
  readOnly v g hv hm hwrite hg hbits := hl.readOnly hs hpl hv hm hwrite hg hbits
  kernel v hv hm := hl.kernel hpl hv hm

/-- In every run after `main` has mapped the image, the address space of the kernel is the one
that `main` and the kernel heap ask for. -/
theorem kernel_address_space (hs : s.Linked) (hb : Booted s o)
    (hrun : Execution (HeapFrames.Step s.heap (mainMap s o).1)
      (initKernelHeap (mainMap s o).1 m (mainMap s o).2) t) : AddressSpace s (mainMap s o).1 t :=
  (run_leaves hs hb hrun).addressSpace hs (hb.placed hs)

end Runs

/-! An image of 140 KiB, and pages of its heap. -/

def imageSections : Sections where
  textStart := 0x80050000#64
  textEnd := 0x80060123#64
  bssStart := 0x80061000#64
  bssEnd := 0x80062000#64
  rodataStart := 0x80062000#64
  rodataEnd := 0x80062800#64
  dataStart := 0x80063000#64
  dataEnd := 0x80063040#64
  stackStart := 0x80064000#64
  stackEnd := 0x80074000#64
  heapStart := 0x80074000#64
  heapEnd := 0x8dc50000#64

def imagePages (n : ℕ) : List Word :=
  (List.range n).map fun i => BitVec.ofNat 64 (pageAddr imageSections.heap (i + 16))

def imageOs (n : ℕ) : Os where
  mem := fun _ => 0
  pages := imagePages n
  blocks := []

theorem image_linked : imageSections.Linked := by
  constructor <;> decide

theorem image_addr (i : ℕ) :
    pageAddr imageSections.heap (i + 16) = 0x80088000 + PAGE_SIZE * i := by
  have hbase : pageAddr imageSections.heap 0 = 0x80078000 := by decide +kernel
  unfold pageAddr at hbase ⊢
  unfold PAGE_SIZE
  unfold PageAllocator.PAGE_SIZE at hbase ⊢
  omega

theorem image_toNat {i : ℕ} (hi : i < 2 ^ 19) :
    (BitVec.ofNat 64 (pageAddr imageSections.heap (i + 16))).toNat =
      0x80088000 + PAGE_SIZE * i := by
  rw [image_addr, BitVec.toNat_ofNat]
  unfold PAGE_SIZE
  omega

theorem image_page {n : ℕ} (hn : n ≤ 2 ^ 19) {p : Word} (hp : p ∈ imagePages n) :
    ∃ i < n, p.toNat = 0x80088000 + PAGE_SIZE * i := by
  obtain ⟨i, hi, rfl⟩ := List.mem_map.1 hp
  have hlt := List.mem_range.1 hi
  exact ⟨i, hlt, image_toNat (by omega)⟩

theorem image_nodup {n : ℕ} (hn : n ≤ 2 ^ 19) : (imagePages n).Nodup := by
  refine List.Nodup.map_on (fun i hi j hj heq => ?_) List.nodup_range
  have hi' := List.mem_range.1 hi
  have hj' := List.mem_range.1 hj
  have hnat := congrArg BitVec.toNat heq
  rw [image_toNat (by omega), image_toNat (by omega)] at hnat
  unfold PAGE_SIZE at hnat
  omega

theorem image_available {n : ℕ} (hn : n ≤ 2 ^ 19) : Available (imageOs n) := by
  refine ⟨image_nodup hn, fun p hp => ?_, fun p hp hzero => ?_,
    fun p b hp hb => absurd hb List.not_mem_nil⟩
  · obtain ⟨i, -, hnat⟩ := image_page hn hp
    unfold Aligned
    rw [hnat]
    unfold PAGE_SIZE
    omega
  · obtain ⟨i, -, hnat⟩ := image_page hn hp
    have hnone : (0#64).toNat = 0 := rfl
    rw [hzero, hnone] at hnat
    omega

theorem image_inHeap {n : ℕ} (hn : n ≤ 2 ^ 15) {p : Word} (hp : p ∈ imagePages n) :
    InPageHeap imageSections.heap p := by
  obtain ⟨i, hi, hnat⟩ := image_page (by omega) hp
  have htotal : totalPages imageSections.heap = 56284 := by decide +kernel
  exact ⟨i + 16, by rw [hnat, image_addr], by rw [htotal]; omega⟩

theorem imagePages_length (n : ℕ) : (imagePages n).length = n := by
  rw [imagePages, List.length_map, List.length_range]

theorem image_booted {n : ℕ} (hlow : 1024 ≤ n) (hn : n ≤ 2 ^ 15) :
    Booted imageSections (imageOs n) :=
  ⟨image_available (by omega), rfl, fun _ hp => image_inHeap hn hp,
    hlow.trans (imagePages_length n).ge⟩

/-- The address space right after `init_kernel_heap`. -/
theorem kernel_address_space_image :
    AddressSpace imageSections (mainMap imageSections (imageOs 1024)).1
      (initKernelHeap (mainMap imageSections (imageOs 1024)).1 (fun _ => 0)
        (mainMap imageSections (imageOs 1024)).2) :=
  kernel_address_space image_linked (image_booted (by decide) (by decide)) (.refl _)

end KernelMap
