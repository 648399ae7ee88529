import DucreuOS.PageLimits
import DucreuOS.PageTable

/-! # Freeing a page table

`mmu_free` walks the tables and gives each to `page_free`. The bytes of the allocator's bits and
the words of the tables are two memories here: no page lies where the bits are. -/
namespace TableFree

open PageTable PointerTree Transition
open PageAllocator (HeapSymbols Block pageAddr totalPages)
open ByteMemory (Mem)

/-- `taken` are the pages that `page_zalloc` has returned for the tables and `freed` those that
`page_free` was given, the last ones first. -/
structure System where
  bits : Mem
  mem : ℕ → Word
  taken : List Word
  freed : List Word

def pageFree (h : HeapSymbols) (s : System) (p : Word) : Option System :=
  (PageAllocator.pageFree h (totalPages h + 1) s.bits p.toNat).map fun bits =>
    { s with bits := bits, freed := p :: s.freed }

/-- The loop of `mmu_free` over these entries. -/
def freeEntries (freeLower : System → Word → Option System) (pt : Word) :
    List (Fin 512) → System → Option System
  | [], s => some s
  | i :: l, s =>
    let entry := s.mem (entryAddr pt i)
    if entry &&& 1#64 ≠ 0#64 then
      if entry &&& 0xe#64 = 0#64 then
        match freeLower s (lower entry) with
        | none => none
        | some s => freeEntries freeLower pt l s
      else freeEntries freeLower pt l { s with mem := Function.update s.mem (entryAddr pt i) 0 }
    else freeEntries freeLower pt l s

/-- The body of `mmu_free`, where these are the indexes from 0 to 511. -/
def freeTable (h : HeapSymbols) (freeLower : System → Word → Option System)
    (indexes : List (Fin 512)) (s : System) (pt : Word) : Option System :=
  match freeEntries freeLower pt indexes s with
  | none => none
  | some s => pageFree h s pt

/-- `mmu_free`, with no more than `depth` calls one in the other. -/
def mmuFree (h : HeapSymbols) : ℕ → System → Word → Option System
  | 0, _, _ => none
  | depth + 1, s, pt => freeTable h (mmuFree h depth) (List.finRange 512) s pt

/-- Successive calls of `page_zalloc` return these pages. -/
inductive Grants (h : HeapSymbols) : Mem → List Word → Mem → Prop
  | nil (m : Mem) : Grants h m [] m
  | cons {m m' m'' : Mem} {p : ℕ} {ps : List Word}
      (hp : PageAllocator.pageZalloc h m = (some p, m')) (hps : Grants h m' ps m'') :
      Grants h m (BitVec.ofNat 64 p :: ps) m''

/-- No call of `page_zalloc` fails. -/
def Succeeds (root : Word) (s : Machine) : Op → Prop
  | .mmu_map vaddr _ bits => bits &&& 0xe#64 = 0#64 ∨ Supplied root vaddr s
  | .mmu_unmap vaddr => Supplied root vaddr s
  | .mmu_map_multiple start_vaddr start_paddr bytes bits => bits &&& 0xe#64 = 0#64 ∨
      RangeSupplied root start_vaddr start_paddr bits ((bytes + PAGE_SIZE - 1) / PAGE_SIZE) 0 s

/-- A call takes all the pages that the allocator grants meanwhile. -/
inductive Step (h : HeapSymbols) (root : Word) : System → Op → System → Prop
  | op (s : System) (o : Op) (pages : List Word) (bits : Mem) (hg : Grants h s.bits pages bits)
      (hs : Succeeds root ⟨s.mem, pages⟩ o) (hall : (perform root ⟨s.mem, pages⟩ o).pages = []) :
      Step h root s o
        ⟨bits, (perform root ⟨s.mem, pages⟩ o).mem, pages.reverse ++ s.taken, s.freed⟩

/-- The bits of every page are the same. -/
def SameBits (h : HeapSymbols) (m m' : Mem) : Prop :=
  ∀ k : ℕ, k < totalPages h →
    PageAllocator.isTaken m' h.start k = PageAllocator.isTaken m h.start k ∧
    PageAllocator.isLast m' h.start k = PageAllocator.isLast m h.start k

/-! ## Pages as blocks -/

/-- The page heap starts at a page. -/
structure PageHeap (h : HeapSymbols) : Prop where
  fits : h.Fits
  aligned : PAGE_SIZE ∣ h.start

def pageNumber (h : HeapSymbols) (w : Word) : ℕ := (w.toNat - pageAddr h 0) / PAGE_SIZE

def blockOf (h : HeapSymbols) (w : Word) : Block := ⟨pageNumber h w, 1⟩

/-- The live blocks are one for each of the pages, and the others. -/
structure Live (h : HeapSymbols) (others : List Block) (X : Finset Word) (bits : Mem) : Prop where
  inv : PageAllocator.Invariant h ⟨bits, X.toList.map (blockOf h) ++ others⟩
  page (w : Word) : w ∈ X → w.toNat = pageAddr h (pageNumber h w)

section Live
variable {h : HeapSymbols} {others : List Block} {X P Q : Finset Word} {bits bits' m m' : Mem}
  {p : ℕ} {w : Word}

theorem pageAddr_aligned (hh : PageHeap h) (i : ℕ) : PAGE_SIZE ∣ pageAddr h i := by
  obtain ⟨q, hq⟩ := hh.aligned
  unfold pageAddr PageAllocator.roundToPage PageAllocator.PAGE_SIZE
  unfold PAGE_SIZE at *
  omega

theorem Live.aligned (hl : Live h others X bits) (hh : PageHeap h) (hw : w ∈ X) : Aligned w := by
  unfold Aligned
  rw [hl.page w hw]
  exact Nat.mod_eq_zero_of_dvd (pageAddr_aligned hh _)

/-- One page lies within the heap. -/
theorem one_page_inside (hh : PageHeap h) {i : ℕ} (hi : i < totalPages h / 10) :
    pageAddr h i + PAGE_SIZE ≤ h.stop := by
  have hpages := hh.fits.pages
  have hend := (PageAllocator.pageAddr_end_iff (h := h) (i := i) (n := 1) (by omega)).2
  rw [Nat.one_mul] at hend
  apply hend
  unfold PageAllocator.pagesForBookkeeping PageAllocator.roundToPage
    PageAllocator.bookkeepingBytes PageAllocator.PAGE_SIZE
  omega

theorem pageNumber_ofNat {i : ℕ} (hi : pageAddr h i < 2 ^ 64) :
    (BitVec.ofNat 64 (pageAddr h i)).toNat = pageAddr h i ∧
      pageNumber h (BitVec.ofNat 64 (pageAddr h i)) = i := by
  have hnat : (BitVec.ofNat 64 (pageAddr h i)).toNat = pageAddr h i := by
    rw [BitVec.toNat_ofNat]
    exact Nat.mod_eq_of_lt hi
  refine ⟨hnat, ?_⟩
  unfold pageNumber
  rw [hnat]
  unfold pageAddr PageAllocator.PAGE_SIZE PAGE_SIZE
  omega

/-- A page from `page_zalloc` is a new one. -/
theorem Live.alloc (hl : Live h others X bits) (hh : PageHeap h)
    (hz : PageAllocator.pageZalloc h bits = (some p, bits')) :
    BitVec.ofNat 64 p ∉ X ∧ Live h others (insert (BitVec.ofNat 64 p) X) bits' := by
  obtain ⟨i, hfirst, rfl⟩ := PageAllocator.pageZnalloc_first (le_refl 1) hz
  have hend := one_page_inside hh hfirst.start
  have haddr := hh.fits.addressable
  obtain ⟨hnat, hnumber⟩ := pageNumber_ofNat (h := h) (i := i)
    (by unfold PAGE_SIZE at hend; omega)
  have hblock : blockOf h (BitVec.ofNat 64 (pageAddr h i)) = ⟨i, 1⟩ := by
    unfold blockOf
    rw [hnumber]
  have hinv : PageAllocator.Invariant h ⟨bits', ⟨i, 1⟩ :: (X.toList.map (blockOf h) ++ others)⟩ :=
    PageAllocator.step_preserves_invariant hh.fits hl.inv (.zalloc _ i bits' hz hend)
  have hnew : BitVec.ofNat 64 (pageAddr h i) ∉ X := by
    intro hw
    have hmem : (⟨i, 1⟩ : Block) ∈ X.toList.map (blockOf h) ++ others :=
      List.mem_append_left _ (List.mem_map.2 ⟨_, Finset.mem_toList.2 hw, hblock⟩)
    have hapart := (List.pairwise_cons.1 hinv.disjoint).1 _ hmem
    simp only [Block.Apart, Block.endAddr, PageAllocator.PAGE_SIZE] at hapart
    omega
  refine ⟨hnew, ⟨hinv.perm ?_, fun w hw => ?_⟩⟩
  · rw [← hblock, ← List.cons_append, ← List.map_cons]
    exact (((Finset.toList_insert hnew).map _).append_right others).symm
  · rcases Finset.mem_insert.1 hw with rfl | hw
    · rw [hnumber, hnat]
    · exact hl.page w hw

/-- One of the pages is freed. -/
theorem Live.free (hl : Live h others X bits) (hh : PageHeap h) (hw : w ∈ X) :
    ∃ bits', PageAllocator.pageFree h (totalPages h + 1) bits w.toNat = some bits' ∧
      Live h others (X.erase w) bits' := by
  have hperm : (X.toList.map (blockOf h) ++ others).Perm
      ([] ++ blockOf h w :: ((X.erase w).toList.map (blockOf h) ++ others)) := by
    have hins := Finset.toList_insert (Finset.notMem_erase w X)
    rw [Finset.insert_erase hw] at hins
    exact (hins.map (blockOf h)).append_right others
  have hinv := hl.inv.perm hperm
  obtain ⟨bits', hfree, -⟩ := PageAllocator.free_effect_fuel hh.fits hinv (b := blockOf h w)
    (k := 0) (by simp) Nat.one_pos
  have haddr : w.toNat = pageAddr h ((blockOf h w).first + 0) := hl.page w hw
  rw [← haddr] at hfree
  have hmore := PageAllocator.pageFree_more (totalPages h) hfree
  rw [show (blockOf h w).pages - 1 - 0 + 1 + totalPages h = totalPages h + 1 from
    Nat.add_comm 1 _] at hmore
  refine ⟨bits', hmore, ⟨?_, fun v hv => hl.page v (Finset.mem_of_mem_erase hv)⟩⟩
  have hstep := PageAllocator.step_preserves_invariant hh.fits hinv
    (.free _ [] ((X.erase w).toList.map (blockOf h) ++ others) (blockOf h w) 0
      (totalPages h + 1) bits' rfl Nat.one_pos (haddr ▸ hmore))
  exact hstep

/-- The live blocks determine the bits. -/
theorem sameBits_of_live (hl : Live h others X m) (hl' : Live h others X m') : SameBits h m m' := by
  refine fun k hk => ⟨Bool.eq_iff_iff.2 ?_, Bool.eq_iff_iff.2 ?_⟩
  · exact (hl'.inv.taken_iff k hk).trans (hl.inv.taken_iff k hk).symm
  · exact (hl'.inv.last_iff k hk).trans (hl.inv.last_iff k hk).symm

end Live

/-! ## What a walk frees -/

/-- The addresses in these pages. -/
def pagesOf (P : Finset Word) : Set ℕ := {y | ∃ w ∈ P, ¬Outside y w}

/-- The pages `P` of `X` were freed, each once, and no word changed but those of `W`. -/
structure Frees (h : HeapSymbols) (others : List Block) (X P : Finset Word) (W : Set ℕ)
    (s t : System) : Prop where
  live : Live h others (X \ P) t.bits
  frame (y : ℕ) : y ∉ W → t.mem y = s.mem y
  taken : t.taken = s.taken
  freed : ∃ l, t.freed = l ++ s.freed ∧ l.Nodup ∧ ∀ w, w ∈ l ↔ w ∈ P

section Frees
variable {h : HeapSymbols} {others : List Block} {X P Q : Finset Word} {W W' : Set ℕ}
  {s t u : System} {a b w : Word} {i j : Fin 512}

theorem Frees.none (hl : Live h others X s.bits) : Frees h others X ∅ ∅ s s :=
  ⟨by rwa [Finset.sdiff_empty], fun _ _ => rfl, rfl, [], rfl, List.nodup_nil, by simp⟩

theorem Frees.trans (hst : Frees h others X P W s t) (htu : Frees h others (X \ P) Q W' t u)
    (hPQ : Disjoint P Q) : Frees h others X (P ∪ Q) (W ∪ W') s u := by
  obtain ⟨l, hl, hnd, hmem⟩ := hst.freed
  obtain ⟨l', hl', hnd', hmem'⟩ := htu.freed
  refine ⟨?_, fun y hy => ?_, htu.taken.trans hst.taken, l' ++ l, ?_, ?_, fun w => ?_⟩
  · have hX : (X \ P) \ Q = X \ (P ∪ Q) := sdiff_sdiff _ _ _
    rw [← hX]
    exact htu.live
  · rw [htu.frame y fun hw => hy (Or.inr hw), hst.frame y fun hw => hy (Or.inl hw)]
  · rw [hl', hl, List.append_assoc]
  · refine List.nodup_append.2 ⟨hnd', hnd, fun v hv w hw hvw => ?_⟩
    exact Finset.disjoint_left.1 hPQ ((hmem w).1 hw) (hvw ▸ (hmem' v).1 hv)
  · rw [List.mem_append, hmem', hmem, Finset.mem_union, or_comm]

theorem Frees.mono (hst : Frees h others X P W s t) (hW : W ⊆ W') : Frees h others X P W' s t :=
  ⟨hst.live, fun y hy => hst.frame y fun hw => hy (hW hw), hst.taken, hst.freed⟩

/-- An entry of another table lies outside the page. -/
theorem entry_outside (ha : Aligned a) (hw : Aligned w) (hne : a ≠ w) (i : Fin 512) :
    Outside (entryAddr a i) w := by
  have hne' : a.toNat ≠ w.toNat := fun e => hne (BitVec.eq_of_toNat_eq e)
  have := i.isLt
  unfold Aligned PAGE_SIZE at ha hw
  unfold Outside entryAddr PAGE_SIZE
  omega

theorem entry_mem_pagesOf (hw : w ∈ P) (i : Fin 512) : entryAddr w i ∈ pagesOf P := by
  refine ⟨w, hw, ?_⟩
  have := i.isLt
  unfold Outside entryAddr PAGE_SIZE
  omega

/-- The page itself goes last. -/
theorem pageFree_frees (hl : Live h others X s.bits) (hh : PageHeap h) (hw : w ∈ X) :
    ∃ t, pageFree h s w = some t ∧ Frees h others X {w} ∅ s t := by
  obtain ⟨bits, hfree, hlive⟩ := hl.free hh hw
  refine ⟨{ s with bits := bits, freed := w :: s.freed }, ?_, ?_, fun _ _ => rfl, rfl, [w], rfl,
    List.nodup_singleton w, fun v => by simp⟩
  · rw [pageFree, hfree, Option.map_some]
  · rwa [Finset.sdiff_singleton_eq_erase]

/-! ## The loop over the entries of a table -/

/-- What the loop finds in an entry: nothing or a leaf, or a table below it for which `G`
holds with the pages `Q`. -/
def EntryFrees (G : (ℕ → Word) → Word → Finset Word → Prop) (mem : ℕ → Word) (a : Word)
    (i : Fin 512) (Q : Finset Word) : Prop :=
  (mem (entryAddr a i) &&& 1#64 = 0#64 ∨ mem (entryAddr a i) &&& 0xe#64 ≠ 0#64) ∧ Q = ∅ ∨
    mem (entryAddr a i) &&& 1#64 ≠ 0#64 ∧ mem (entryAddr a i) &&& 0xe#64 = 0#64 ∧
      G mem (lower (mem (entryAddr a i))) Q

/-- The tables below are freed by `freeLower`, and only their own pages matter for that. -/
structure FreesLower (h : HeapSymbols) (others : List Block)
    (freeLower : System → Word → Option System)
    (G : (ℕ → Word) → Word → Finset Word → Prop) : Prop where
  frees (s : System) (b : Word) (P X : Finset Word) : G s.mem b P → P ⊆ X →
    Live h others X s.bits → ∃ t, freeLower s b = some t ∧ Frees h others X P (pagesOf P) s t
  congr (mem mem' : ℕ → Word) (b : Word) (P : Finset Word) : G mem b P →
    (∀ y ∈ pagesOf P, mem' y = mem y) → G mem' b P

variable {freeLower : System → Word → Option System}
  {G : (ℕ → Word) → Word → Finset Word → Prop} {S : Fin 512 → Finset Word}

/-- One round of the loop. -/
theorem freeEntries_cons (hlow : FreesLower h others freeLower G)
    (he : EntryFrees G s.mem a i Q) (hQ : Q ⊆ X) (hl : Live h others X s.bits)
    (L : List (Fin 512)) : ∃ t, freeEntries freeLower a (i :: L) s = freeEntries freeLower a L t ∧
      Frees h others X Q (pagesOf Q ∪ {entryAddr a i}) s t := by
  rcases he with ⟨hentry, rfl⟩ | ⟨hvalid, hbranch, hgood⟩
  · by_cases hvalid : s.mem (entryAddr a i) &&& 1#64 = 0#64
    · refine ⟨s, ?_, (Frees.none hl).mono (Set.empty_subset _)⟩
      simp only [freeEntries, hvalid, ne_eq, not_true_eq_false, if_false]
    · have hleaf := hentry.resolve_left hvalid
      refine ⟨{ s with mem := Function.update s.mem (entryAddr a i) 0 }, ?_, ?_⟩
      · simp only [freeEntries, ne_eq, hvalid, not_false_eq_true, if_true, hleaf, if_false]
      · have hnone := Frees.none (s := s) hl
        refine ⟨hnone.live, fun y hy => ?_, rfl, hnone.freed⟩
        exact Function.update_of_ne (fun e => hy (Or.inr e)) _ _
  · obtain ⟨t, ht, hfrees⟩ := hlow.frees s _ Q X hgood hQ hl
    refine ⟨t, ?_, hfrees.mono Set.subset_union_left⟩
    simp only [freeEntries, ne_eq, hvalid, not_false_eq_true, if_true, hbranch, ht]

/-- The other entries are found as they were. -/
theorem EntryFrees.after (hlow : FreesLower h others freeLower G)
    (he : EntryFrees G s.mem a j (S j))
    (hst : Frees h others X (S i) (pagesOf (S i) ∪ {entryAddr a i}) s t) (ha : Aligned a)
    (hal : ∀ k, ∀ w ∈ S k, Aligned w ∧ w ≠ a) (hdisj : ∀ k l, k ≠ l → Disjoint (S k) (S l))
    (hij : i ≠ j) : EntryFrees G t.mem a j (S j) := by
  have hentry : t.mem (entryAddr a j) = s.mem (entryAddr a j) := by
    apply hst.frame
    rintro (⟨w, hw, hin⟩ | heq)
    · exact hin (entry_outside ha (hal i w hw).1 (hal i w hw).2.symm j)
    · exact hij (entryAddr_inj ha ha heq).2.symm
  have hpages : ∀ y ∈ pagesOf (S j), t.mem y = s.mem y := by
    rintro y ⟨w, hw, hin⟩
    apply hst.frame
    rintro (⟨v, hv, hin'⟩ | rfl)
    · have hne : v ≠ w := by
        rintro rfl
        exact Finset.disjoint_left.1 (hdisj i j hij) hv hw
      have hne' : v.toNat ≠ w.toNat := fun e => hne (BitVec.eq_of_toNat_eq e)
      have h1 := (hal i v hv).1
      have h2 := (hal j w hw).1
      unfold Aligned PAGE_SIZE at h1 h2
      unfold Outside PAGE_SIZE at hin hin'
      omega
    · exact hin (entry_outside ha (hal j w hw).1 (hal j w hw).2.symm i)
  unfold EntryFrees
  rw [hentry]
  exact he.imp_right fun hb => ⟨hb.1, hb.2.1, hlow.congr _ _ _ _ hb.2.2 hpages⟩

theorem freeEntries_frees (hlow : FreesLower h others freeLower G) (ha : Aligned a)
    (hal : ∀ k, ∀ w ∈ S k, Aligned w ∧ w ≠ a) (hdisj : ∀ k l, k ≠ l → Disjoint (S k) (S l))
    {L : List (Fin 512)} (hL : L.Nodup) (he : ∀ i ∈ L, EntryFrees G s.mem a i (S i))
    (hS : ∀ i ∈ L, S i ⊆ X) (hl : Live h others X s.bits) :
    ∃ t, freeEntries freeLower a L s = some t ∧
      Frees h others X (L.toFinset.biUnion S)
        (pagesOf (L.toFinset.biUnion S) ∪ {y | ∃ i, y = entryAddr a i}) s t := by
  induction L generalizing s X with
  | nil => exact ⟨s, rfl, (Frees.none hl).mono (Set.empty_subset _)⟩
  | cons i L ih =>
    obtain ⟨hi, hL⟩ := List.nodup_cons.1 hL
    obtain ⟨t, ht, hst⟩ := freeEntries_cons hlow (he i List.mem_cons_self) (hS i List.mem_cons_self)
      hl L
    have hne {k : Fin 512} (hk : k ∈ L) : i ≠ k := fun e => hi (e ▸ hk)
    obtain ⟨u, hu, htu⟩ := ih (s := t) (X := X \ S i) hL
      (fun k hk => (he k (List.mem_cons_of_mem _ hk)).after hlow hst ha hal hdisj (hne hk))
      (fun k hk => Finset.subset_sdiff.2
        ⟨hS k (List.mem_cons_of_mem _ hk), hdisj k i (hne hk).symm⟩)
      hst.live
    refine ⟨u, ht.trans hu, ?_⟩
    rw [List.toFinset_cons, Finset.biUnion_insert]
    have hrest : Disjoint (S i) (L.toFinset.biUnion S) := by
      rw [Finset.disjoint_biUnion_right]
      exact fun k hk => hdisj i k (hne (List.mem_toFinset.1 hk))
    refine (hst.trans htu hrest).mono ?_
    rintro y ((⟨w, hw, hin⟩ | rfl) | (⟨w, hw, hin⟩ | ⟨k, rfl⟩))
    · exact Or.inl ⟨w, Finset.mem_union_left _ hw, hin⟩
    · exact Or.inr ⟨i, rfl⟩
    · exact Or.inl ⟨w, Finset.mem_union_right _ hw, hin⟩
    · exact Or.inr ⟨k, rfl⟩

/-- A table: first what its entries lead to, then the table itself. -/
theorem mmuFree_table {depth : ℕ} (hh : PageHeap h)
    (hlow : FreesLower h others (mmuFree h depth) G) (ha : Aligned a)
    (hal : ∀ k, ∀ w ∈ S k, Aligned w ∧ w ≠ a) (hdisj : ∀ k l, k ≠ l → Disjoint (S k) (S l))
    (he : ∀ i, EntryFrees G s.mem a i (S i)) (hS : ∀ i, S i ⊆ X) (haX : a ∈ X)
    (hl : Live h others X s.bits) (hP : P = Finset.univ.biUnion S ∪ {a}) :
    ∃ t, mmuFree h (depth + 1) s a = some t ∧ Frees h others X P (pagesOf P) s t := by
  -- the list of all entries stays a variable: it must not be evaluated
  obtain ⟨L, hL⟩ : ∃ L, L = List.finRange 512 := ⟨_, rfl⟩
  obtain ⟨t, ht, hst⟩ := freeEntries_frees hlow ha hal hdisj (hL ▸ List.nodup_finRange 512)
    (fun i (_ : i ∈ L) => he i) (fun i _ => hS i) hl
  have hall : L.toFinset = Finset.univ := by
    ext i
    simp [hL]
  rw [hall] at hst
  have hnot : a ∉ Finset.univ.biUnion S := by
    rw [Finset.mem_biUnion]
    rintro ⟨i, -, hi⟩
    exact (hal i a hi).2 rfl
  generalize Finset.univ.biUnion S = U at hst hnot hP
  obtain ⟨u, hu, htu⟩ := pageFree_frees hst.live hh (Finset.mem_sdiff.2 ⟨haX, hnot⟩)
  refine ⟨u, ?_, ?_⟩
  · rw [mmuFree, ← hL, freeTable, ht]
    exact hu
  rw [hP]
  refine (hst.trans htu (Finset.disjoint_singleton_right.2 hnot)).mono ?_
  rintro y ((⟨w, hw, hin⟩ | ⟨i, rfl⟩) | hy)
  · exact ⟨w, Finset.mem_union_left _ hw, hin⟩
  · exact entry_mem_pagesOf (Finset.mem_union_right _ (Finset.mem_singleton_self a)) i
  · exact hy.elim

end Frees

/-! ## Subtrees -/

/-- A table with `d` levels of tables below it; `P` are the pages of all of them. -/
structure Sub (mem : ℕ → Word) (d : ℕ) (a : Word) (P : Finset Word) : Prop where
  noAlias : NoAlias (child mem) a d
  pages (w : Word) : w ∈ P ↔ InTree (child mem) a d w
  aligned (w : Word) : w ∈ P → Aligned w
  branch (σ : List (Fin 512)) (b : Word) (i : Fin 512) : σ.length < d →
    walk (child mem) a σ = some b → child mem b i ≠ none → mem (entryAddr b i) &&& 0xe#64 = 0#64
  leaf (σ : List (Fin 512)) (b : Word) (i : Fin 512) : σ.length = d →
    walk (child mem) a σ = some b → child mem b i ≠ none → mem (entryAddr b i) &&& 0xe#64 ≠ 0#64

section Sub
variable {h : HeapSymbols} {others : List Block} {X P : Finset Word} {s t : System}
  {mem mem' : ℕ → Word} {a b w root : Word} {d : ℕ} {i : Fin 512}

/-- The words outside the pages of a subtree do not matter for it. -/
theorem Sub.congr (hs : Sub mem d a P) (hm : ∀ y ∈ pagesOf P, mem' y = mem y) : Sub mem' d a P := by
  have hentry {w : Word} (hw : w ∈ P) (i : Fin 512) :
      mem' (entryAddr w i) = mem (entryAddr w i) := hm _ (entry_mem_pagesOf hw i)
  have hchild {w : Word} (hw : w ∈ P) (i : Fin 512) : child mem' w i = child mem w i := by
    simp only [child, hentry hw i]
  have hnode {σ : List (Fin 512)} (hσ : σ.length ≤ d) {b : Word}
      (hb : walk (child mem) a σ = some b) : b ∈ P := (hs.pages b).2 ⟨σ, hσ, hb⟩
  have hwalk : ∀ σ : List (Fin 512), σ.length ≤ d →
      walk (child mem') a σ = walk (child mem) a σ :=
    walk_congr fun σ hσ b hb i => hchild (hnode hσ.le hb) i
  refine ⟨?_, fun w => ?_, hs.aligned, ?_, ?_⟩
  · intro σ τ hσ hτ b h1 h2
    exact hs.noAlias σ τ hσ hτ b (hwalk σ hσ ▸ h1) (hwalk τ hτ ▸ h2)
  · rw [hs.pages]
    exact exists_congr fun σ => and_congr_right fun hσ => by rw [hwalk σ hσ]
  · intro σ b i hσ hb hc
    rw [hwalk σ hσ.le] at hb
    rw [hchild (hnode hσ.le hb)] at hc
    rw [hentry (hnode hσ.le hb)]
    exact hs.branch σ b i hσ hb hc
  · intro σ b i hσ hb hc
    rw [hwalk σ hσ.le] at hb
    rw [hchild (hnode hσ.le hb)] at hc
    rw [hentry (hnode hσ.le hb)]
    exact hs.leaf σ b i hσ hb hc

open scoped Classical in
/-- The subtree of a child. -/
theorem Sub.below (hs : Sub mem (d + 1) a P) (hb : child mem a i = some b) :
    Sub mem d b (P.filter fun w => InTree (child mem) b d w) := by
  refine ⟨hs.noAlias.child hb, fun w => ?_, fun w hw => ?_, ?_, ?_⟩
  · rw [Finset.mem_filter, hs.pages]
    exact and_iff_right_of_imp fun hw => inTree_succ.2 (Or.inr ⟨i, b, hb, hw⟩)
  · exact hs.aligned w (Finset.mem_filter.1 hw).1
  · intro σ c j hσ hc hj
    exact hs.branch (σ ++ [i]) c j (by simpa using hσ) ((walk_concat hb σ).trans hc) hj
  · intro σ c j hσ hc hj
    exact hs.leaf (σ ++ [i]) c j (by simpa using hσ) ((walk_concat hb σ).trans hc) hj

theorem child_entry (hb : child mem a i = some b) :
    mem (entryAddr a i) &&& 1#64 ≠ 0#64 ∧ lower (mem (entryAddr a i)) = b := by
  unfold child at hb
  by_cases hv : mem (entryAddr a i) &&& PTEB_VALID = 0#64
  · simp [hv] at hb
  · simp only [if_neg hv, Option.some.injEq] at hb
    exact ⟨hv, hb⟩

theorem child_none_entry (hb : child mem a i = none) : mem (entryAddr a i) &&& 1#64 = 0#64 := by
  by_contra hv
  exact Option.some_ne_none _ ((child_some hv).symm.trans hb)

/-- `mmu_free` of a subtree frees its pages. -/
theorem Sub.frees (hh : PageHeap h) (hs : Sub s.mem d a P) (hP : P ⊆ X)
    (hl : Live h others X s.bits) :
    ∃ t, mmuFree h (d + 1) s a = some t ∧ Frees h others X P (pagesOf P) s t := by
  have hroot : a ∈ P := (hs.pages a).2 ⟨[], Nat.zero_le _, rfl⟩
  induction d generalizing s a P X with
  | zero =>
    have hPa : P = {a} := by
      ext w
      rw [hs.pages, inTree_zero, Finset.mem_singleton]
    apply mmuFree_table (G := fun _ _ _ => False) (S := fun _ => ∅) hh
      ⟨fun _ _ _ _ hg => hg.elim, fun _ _ _ _ hg => hg.elim⟩ (hs.aligned a hroot)
    · exact fun _ w hw => absurd hw (Finset.notMem_empty w)
    · exact fun _ _ _ => Finset.disjoint_empty_left _
    · intro i
      refine Or.inl ⟨?_, rfl⟩
      cases hc : child s.mem a i with
      | none => exact Or.inl (child_none_entry hc)
      | some b => exact Or.inr (hs.leaf [] a i rfl rfl (by rw [hc]; exact Option.some_ne_none b))
    · exact fun _ => Finset.empty_subset _
    · exact hP hroot
    · exact hl
    · rw [hPa]
      ext w
      simp
  | succ d ih =>
    classical
    have hlow : FreesLower h others (mmuFree h (d + 1)) fun mem b P => Sub mem d b P :=
      ⟨fun s b P X hg hP hl => ih hg hP hl ((hg.pages b).2 ⟨[], Nat.zero_le _, rfl⟩),
        fun mem mem' b P hg hm => hg.congr hm⟩
    obtain ⟨S, hS⟩ : ∃ S : Fin 512 → Finset Word, ∀ i w, w ∈ S i ↔
        ∃ b, child s.mem a i = some b ∧ InTree (child s.mem) b d w := by
      refine ⟨fun i => P.filter fun w =>
        ∃ b, child s.mem a i = some b ∧ InTree (child s.mem) b d w, fun i w => ?_⟩
      rw [Finset.mem_filter, hs.pages]
      refine and_iff_right_of_imp ?_
      rintro ⟨b, hb, hw⟩
      exact inTree_succ.2 (Or.inr ⟨i, b, hb, hw⟩)
    have hSP (i : Fin 512) : S i ⊆ P := by
      intro w hw
      obtain ⟨b, hb, hw⟩ := (hS i w).1 hw
      exact (hs.pages w).2 (inTree_succ.2 (Or.inr ⟨i, b, hb, hw⟩))
    apply mmuFree_table (S := S) hh hlow (hs.aligned a hroot)
    · intro i w hw
      obtain ⟨b, hb, hw'⟩ := (hS i w).1 hw
      exact ⟨hs.aligned w (hSP i hw), hs.noAlias.child_ne hb hw'⟩
    · intro i j hij
      rw [Finset.disjoint_left]
      intro w hw hw'
      obtain ⟨b, hb, hw⟩ := (hS i w).1 hw
      obtain ⟨b', hb', hw'⟩ := (hS j w).1 hw'
      exact hs.noAlias.disjoint hb hb' hij hw hw'
    · intro i
      cases hc : child s.mem a i with
      | none =>
        refine Or.inl ⟨Or.inl (child_none_entry hc), ?_⟩
        rw [Finset.eq_empty_iff_forall_notMem]
        intro w hw
        obtain ⟨b, hb, -⟩ := (hS i w).1 hw
        exact Option.some_ne_none b (hb.symm.trans hc)
      | some b =>
        obtain ⟨hvalid, hlower⟩ := child_entry hc
        refine Or.inr ⟨hvalid, ?_, ?_⟩
        · exact hs.branch [] a i (Nat.succ_pos d) rfl (by rw [hc]; exact Option.some_ne_none b)
        · have hsub := hs.below hc
          have hSi : S i = P.filter fun w => InTree (child s.mem) b d w := by
            ext w
            rw [hS, Finset.mem_filter, hs.pages, hc]
            simp only [Option.some.injEq, exists_eq_left']
            refine (and_iff_right_of_imp fun hw => ?_).symm
            exact inTree_succ.2 (Or.inr ⟨i, b, hc, hw⟩)
          rw [hSi, hlower]
          exact hsub
    · exact fun i => (hSP i).trans hP
    · exact hP hroot
    · exact hl
    · ext w
      rw [hs.pages, inTree_succ, Finset.mem_union, Finset.mem_biUnion, Finset.mem_singleton,
        or_comm]
      simp only [Finset.mem_univ, true_and, hS]

end Sub

/-! ## Runs -/

/-- Every valid last-level entry has some of the R, W and X bits. -/
def Leaves (mem : ℕ → Word) (root : Word) : Prop :=
  ∀ v, leafEntry mem root v &&& PTEB_VALID ≠ 0#64 → leafEntry mem root v &&& 0xe#64 ≠ 0#64

section Runs
variable {h : HeapSymbols} {others : List Block} {X : Finset Word} {s t : System}
  {mem : ℕ → Word} {root vaddr paddr bits v : Word} {pages : List Word} {o : Op} {m m' : Mem}

/-- An address with these indexes. -/
theorem exists_vaddr (i j k : Fin 512) : ∃ v : Word, vpn v 2 = i ∧ vpn v 1 = j ∧ vpn v 0 = k := by
  have hi := i.isLt
  have hj := j.isLt
  have hk := k.isLt
  refine ⟨BitVec.ofNat 64 (2 ^ 30 * i.val + 2 ^ 21 * j.val + 2 ^ 12 * k.val), ?_, ?_, ?_⟩ <;>
  · rw [Fin.ext_iff, vpn_val, BitVec.toNat_ofNat]
    norm_num
    omega

/-- The whole table is a subtree of two levels below its root. -/
theorem sub_of_tree (hT : Tree mem root) (hleaf : Leaves mem root)
    (hX : ∀ w, w ∈ X ↔ InTree (child mem) root 2 w) : Sub mem 2 root X := by
  refine ⟨hT.noAlias, hX, fun w hw => hT.aligned w ((hX w).1 hw), ?_, ?_⟩
  · exact fun σ b i hσ hb hc => hT.branch σ hσ b hb i hc
  · intro σ b i hσ hb hc
    obtain ⟨j, k, rfl⟩ := List.length_eq_two.1 hσ
    obtain ⟨v, h2, h1, h0⟩ := exists_vaddr k j i
    have hentry : leafEntry mem root v = mem (entryAddr b i) := by
      rw [leafEntry, h1, h2, hb, h0]
    rw [← hentry]
    apply hleaf
    rw [hentry]
    obtain ⟨c, hc⟩ := Option.ne_none_iff_exists'.1 hc
    exact (child_entry hc).1

/-- What one call that gets its pages does to the tables. -/
structure Grows (root : Word) (s s' : Machine) : Prop where
  tree : Tree s'.mem root
  leaves : Leaves s'.mem root
  uses : ∃ used, Uses root s s' used

theorem mmuSet_grows {s : Machine} (hT : Tree s.mem root) (hf : FreshPages s.mem root s.pages)
    (hleaf : Leaves s.mem root) (hs : Supplied root vaddr s)
    (hbits : leafBits paddr bits &&& PTEB_VALID ≠ 0#64 → leafBits paddr bits &&& 0xe#64 ≠ 0#64) :
    Grows root s (mmuSet s root vaddr paddr bits) := by
  obtain ⟨hT', -, hl, hu⟩ := mmuSet_supplied hT hf vaddr paddr bits hs
  refine ⟨hT', fun v => ?_, hu⟩
  rw [hl]
  split_ifs
  · exact hbits
  · exact hleaf v

/-- `mmu_map_multiple` without any of the R, W and X bits maps nothing. -/
theorem mapPages_refused {start_vaddr start_paddr : Word} (hrwx : bits &&& 0xe#64 = 0#64)
    (n i : ℕ) (s : Machine) : mapPages root start_vaddr start_paddr bits n i s = s := by
  cases n with
  | zero => rfl
  | succ n =>
    have hmap : mmuMap s root (start_vaddr + BitVec.ofNat 64 (PAGE_SIZE * i))
        (start_paddr + BitVec.ofNat 64 (PAGE_SIZE * i)) bits = (-1, s) := if_pos hrwx
    rw [mapPages, hmap]
    rfl

theorem perform_grows {s : Machine} (hT : Tree s.mem root) (hf : FreshPages s.mem root s.pages)
    (hleaf : Leaves s.mem root) (hs : Succeeds root s o) : Grows root s (perform root s o) := by
  have hsame : Grows root s s := ⟨hT, hleaf, [], .refl root s⟩
  cases o with
  | mmu_map vaddr paddr bits =>
    by_cases hrwx : bits &&& 0xe#64 = 0#64
    · have hmap : perform root s (.mmu_map vaddr paddr bits) = s :=
        congrArg Prod.snd (if_pos hrwx)
      rw [hmap]
      exact hsame
    · have hmap : perform root s (.mmu_map vaddr paddr bits)
          = mmuSet s root vaddr paddr (bits ||| PTEB_VALID) := congrArg Prod.snd (mmuMap_set hrwx)
      rw [hmap]
      exact mmuSet_grows hT hf hleaf (hs.resolve_left hrwx) fun _ => leaf_rwx hrwx
  | mmu_unmap vaddr =>
    exact mmuSet_grows hT hf hleaf hs fun hv => absurd leaf_unmapped hv
  | mmu_map_multiple start_vaddr start_paddr bytes bits =>
    by_cases hrwx : bits &&& 0xe#64 = 0#64
    · have hmap : perform root s (.mmu_map_multiple start_vaddr start_paddr bytes bits) = s :=
        mapPages_refused hrwx _ 0 s
      rw [hmap]
      exact hsame
    · have hm := mapPages_supplied hrwx hT hf (hs.resolve_left hrwx)
      refine ⟨hm.tree, fun v hv => ?_, hm.uses⟩
      rcases hm.leaf v with ⟨j, -, -, -, hl⟩ | ⟨-, hl⟩
      · change leafEntry (mapPages _ _ _ _ _ _ _).mem root v &&& 0xe#64 ≠ 0#64
        rw [hl]
        exact leaf_rwx hrwx
      · change leafEntry (mapPages _ _ _ _ _ _ _).mem root v &&& 0xe#64 ≠ 0#64
        change leafEntry (mapPages _ _ _ _ _ _ _).mem root v &&& PTEB_VALID ≠ 0#64 at hv
        rw [hl] at hv ⊢
        exact hleaf v hv

/-- The pages that `page_zalloc` returns in turn are new ones. -/
theorem Grants.live (hg : Grants h m pages m') (hh : PageHeap h) (hl : Live h others X m) :
    pages.Nodup ∧ (∀ p ∈ pages, p ∉ X) ∧ Live h others (X ∪ pages.toFinset) m' := by
  induction hg generalizing X with
  | nil m => exact ⟨List.nodup_nil, by simp, by simpa using hl⟩
  | cons hp _ ih =>
    obtain ⟨hnew, hlive⟩ := hl.alloc hh hp
    obtain ⟨hnd, hout, hrest⟩ := ih hlive
    refine ⟨List.nodup_cons.2 ⟨fun hmem => ?_, hnd⟩, fun q hq => ?_, ?_⟩
    · exact hout _ hmem (Finset.mem_insert_self _ _)
    · rcases List.mem_cons.1 hq with rfl | hq
      · exact hnew
      · exact fun hX => hout q hq (Finset.mem_insert_of_mem hX)
    · rw [List.toFinset_cons, Finset.union_insert]
      rwa [Finset.insert_union] at hrest

/-- What holds while a table is built: its pages are those that `page_zalloc` has returned. -/
structure Growing (h : HeapSymbols) (others : List Block) (root : Word) (s : System)
    (X : Finset Word) : Prop where
  live : Live h others X s.bits
  tree : Tree s.mem root
  leaves : Leaves s.mem root
  pages (w : Word) : w ∈ X ↔ InTree (child s.mem) root 2 w
  taken : s.taken.Nodup ∧ ∀ w, w ∈ s.taken ↔ w ∈ X
  freed : s.freed = []

theorem step_growing (hh : PageHeap h) (hs : Growing h others root s X) (hst : Step h root s o t) :
    ∃ Y, Growing h others root t Y := by
  cases hst with
  | op pages bits hg hsucc hall =>
  obtain ⟨hnd, hout, hlive⟩ := hg.live hh hs.live
  have hfresh : FreshPages s.mem root pages :=
    ⟨hnd, fun p hp => hlive.aligned hh (Finset.mem_union_right _ (List.mem_toFinset.2 hp)),
      fun p hp hin => hout p hp ((hs.pages p).2 hin)⟩
  obtain ⟨htree, hleaves, used, huses⟩ :=
    perform_grows (s := ⟨s.mem, pages⟩) hs.tree hfresh hs.leaves hsucc
  have hused : used = pages := by
    have := huses.pages
    rw [hall, List.append_nil] at this
    exact this.symm
  refine ⟨X ∪ pages.toFinset, hlive, htree, hleaves, fun w => ?_, ⟨?_, fun w => ?_⟩, hs.freed⟩
  · rw [huses.inTree, hused, Finset.mem_union, List.mem_toFinset, hs.pages, or_comm]
  · refine List.nodup_append.2 ⟨List.nodup_reverse.2 hnd, hs.taken.1, fun v hv w hw hvw => ?_⟩
    exact hout v (List.mem_reverse.1 hv) (hvw ▸ (hs.taken.2 w).1 hw)
  · rw [List.mem_append, List.mem_reverse, hs.taken.2, Finset.mem_union, List.mem_toFinset, or_comm]

end Runs

/-- With a root from `page_zalloc`. -/
def withRoot (bits : Mem) (mem : ℕ → Word) (root : Word) : System :=
  ⟨bits, zeroPage mem root, [root], []⟩

/-- Whatever calls built the table, `mmu_free` of its root ends; the bits are as they were before
the root was allocated, and the pages that were freed are the tables, each once: those that
`page_zalloc` has returned. -/
theorem mmuFree_restores {h : HeapSymbols} (hh : PageHeap h) {s₀ : PageAllocator.State}
    (hr : PageAllocator.Reachable h s₀) {p : ℕ} {bits : Mem}
    (hz : PageAllocator.pageZalloc h s₀.mem = (some p, bits)) (mem : ℕ → Word) {s : System}
    (hrun : Execution (Step h (BitVec.ofNat 64 p)) (withRoot bits mem (BitVec.ofNat 64 p)) s) :
    ∃ t, mmuFree h 3 s (BitVec.ofNat 64 p) = some t ∧ SameBits h s₀.mem t.bits ∧
      t.freed.Nodup ∧ t.freed.Perm s.taken ∧
      ∀ w, w ∈ t.freed ↔ InTree (child s.mem) (BitVec.ofNat 64 p) 2 w := by
  have hl₀ : Live h s₀.live ∅ s₀.mem :=
    ⟨by simpa using PageAllocator.reachable_invariant hh.fits hr, by simp⟩
  obtain ⟨-, hlive⟩ := hl₀.alloc hh hz
  have hzero := zeroPage_own mem (BitVec.ofNat 64 p)
  have halign : Aligned (BitVec.ofNat 64 p) := hlive.aligned hh (Finset.mem_insert_self _ _)
  have hstart : Growing h s₀.live (BitVec.ofNat 64 p) (withRoot bits mem (BitVec.ofNat 64 p))
      {BitVec.ofNat 64 p} := by
    refine ⟨hlive, zeroed_root_tree halign hzero, fun v hv => ?_, fun w => ?_, ⟨?_, ?_⟩, rfl⟩
    · refine absurd ?_ hv
      unfold leafEntry
      cases hw : walk (child (withRoot bits mem (BitVec.ofNat 64 p)).mem) (BitVec.ofNat 64 p)
          [vpn v 1, vpn v 2] with
      | none => exact BitVec.zero_and
      | some t => exact absurd (zeroed_root_path hzero _ t hw).1 (List.cons_ne_nil _ _)
    · rw [Finset.mem_singleton]
      constructor
      · rintro rfl
        exact ⟨[], Nat.zero_le _, rfl⟩
      · rintro ⟨σ, -, hw⟩
        exact (zeroed_root_path hzero σ w hw).2
    · exact List.nodup_singleton _
    · exact fun w => by simp [withRoot]
  obtain ⟨X, hs⟩ := hrun.invariant (I := fun s => ∃ X, Growing h s₀.live (BitVec.ofNat 64 p) s X)
    (fun _ _ _ ⟨X, hs⟩ hst => step_growing hh hs hst) ⟨_, hstart⟩
  obtain ⟨t, ht, hfrees⟩ := (sub_of_tree hs.tree hs.leaves hs.pages).frees hh (Finset.Subset.refl X)
    hs.live
  obtain ⟨l, hl, hnd, hmem⟩ := hfrees.freed
  rw [hs.freed, List.append_nil] at hl
  refine ⟨t, ht, ?_, hl ▸ hnd, ?_, fun w => ?_⟩
  · have hlive' := hfrees.live
    rw [Finset.sdiff_self] at hlive'
    exact sameBits_of_live hl₀ hlive'
  · rw [hl, List.perm_ext_iff_of_nodup hnd hs.taken.1]
    exact fun w => (hmem w).trans (hs.taken.2 w).symm
  · rw [hl, hmem]
    exact hs.pages w

open PageAllocator (smallHeap smallStart) in
/-- A table with one mapping in a heap of 64 pages: the root and two tables are freed. -/
theorem mmuFree_restores_small : ∃ s t, mmuFree smallHeap 3 s 0x80202000#64 = some t ∧
    SameBits smallHeap smallStart.mem t.bits ∧
    t.freed.Perm [0x80204000#64, 0x80203000#64, 0x80202000#64] := by
  have hheap : PageHeap smallHeap := ⟨by constructor <;> decide +kernel, by decide⟩
  have hr : PageAllocator.Reachable smallHeap smallStart := ⟨fun _ => 0, fun _ _ _ => rfl, .refl _⟩
  have hroot : (PageAllocator.pageZalloc smallHeap smallStart.mem).1 = some 0x80202000 := by
    decide +kernel
  have hroot := Prod.fst_eq_iff.1 hroot
  have hfirst : (PageAllocator.pageZalloc smallHeap
      (PageAllocator.pageZalloc smallHeap smallStart.mem).2).1 = some 0x80203000 := by
    decide +kernel
  have hsecond : (PageAllocator.pageZalloc smallHeap (PageAllocator.pageZalloc smallHeap
      (PageAllocator.pageZalloc smallHeap smallStart.mem).2).2).1 = some 0x80204000 := by
    decide +kernel
  have hgrants := Grants.cons (Prod.fst_eq_iff.1 hfirst)
    (.cons (Prod.fst_eq_iff.1 hsecond) (.nil _))
  generalize (PageAllocator.pageZalloc smallHeap smallStart.mem).2 = bits at hroot hgrants
  have hsupplied : Supplied 0x80202000#64 0x120000000#64
      ⟨zeroPage (fun _ => 0) 0x80202000#64, [0x80203000#64, 0x80204000#64]⟩ :=
    ⟨fun _ => List.cons_ne_nil _ _, fun _ => by decide +kernel⟩
  have hall : (perform 0x80202000#64
      ⟨zeroPage (fun _ => 0) 0x80202000#64, [0x80203000#64, 0x80204000#64]⟩
      (.mmu_map 0x120000000#64 0x80220000#64 (PTEB_READ ||| PTEB_WRITE))).pages = [] := by
    decide +kernel
  have hstep := @Step.op smallHeap 0x80202000#64 (withRoot bits (fun _ => 0) 0x80202000#64)
    (.mmu_map 0x120000000#64 0x80220000#64 (PTEB_READ ||| PTEB_WRITE)) _ _ hgrants
    (.inr hsupplied) hall
  obtain ⟨t, ht, hbits, -, hperm, -⟩ := mmuFree_restores hheap hr hroot (fun _ => 0) (.single hstep)
  exact ⟨_, t, ht, hbits, hperm⟩

end TableFree
