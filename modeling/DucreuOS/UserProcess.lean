import DucreuOS.Library.ByteMemory
import DucreuOS.PageTable

/-! # User processes

`process_init_new` makes the page table of a process and maps the trampoline, its trap frame and
its stack; `process_free` gives pages back. Physical memory holds words, among them the tables of
every process and of the kernel. Which pages the allocator hands out is arbitrary: the supply
lists those of `page_zalloc` in order, and the blocks are the ones it has handed out so far. -/
namespace UserProcess

open ByteMemory PageTable PointerTree

def PROCESS_DEFAULT_STACK_POINTER : Word := 0x1defa0000#64
def SIZEOF_PROCESS_FRAME : ℕ := 576

/-- The addresses that asm/spawn.S exports. -/
structure Symbols where
  spawnThreadStart : Word
  spawnThreadEnd : Word
  spawnTrapStart : Word
  spawnTrapEnd : Word

/-- `process_priv_t` -/
inductive Priv
  | unknown | user | supervisor | machine
  deriving DecidableEq

/-- Pages from one call of `page_znalloc`. -/
structure Block where
  start : Word
  pages : ℕ
  deriving DecidableEq

structure Os extends Machine where
  blocks : List Block

/-- The fields of `process_t` that name memory; `frame` is the address of its `process_frame`, and
`NULL` is 0. -/
structure Process where
  frame : Word
  sepc : Word
  image : Word
  numImagePages : Word
  stack : Word
  numStackPages : Word
  heap : Word
  ptable : Word
  privilegeMode : Priv
  onHart : Option ℕ

/-- Round down and up to pages, in 64 bits. -/
def pageDown (v : Word) : Word := v / 4096#64 * 4096#64

def pageUp (v : Word) : Word := (v + 4096#64 - 1#64) / 4096#64 * 4096#64

namespace Os

/-- After calls that took pages from the supply. -/
def run (s : Os) (m : Machine) : Os :=
  { m with blocks := (s.pages.take (s.pages.length - m.pages.length)).map (Block.mk · 1) ++ s.blocks }

def pageZalloc (s : Os) : Word × Os :=
  ((PageTable.pageZalloc s.toMachine).1, s.run (PageTable.pageZalloc s.toMachine).2)

/-- `page_znalloc(n)` with its result; it takes one page if `n` is not positive. -/
def pageZnalloc (s : Os) (n : ℤ) (result : Word) : Os :=
  if result = 0#64 then s
  else
    let pages := max n.toNat 1
    { s with
      mem := fun x => if result.toNat ≤ x ∧ x < result.toNat + PAGE_SIZE * pages then 0 else s.mem x
      blocks := ⟨result, pages⟩ :: s.blocks }

/-- `page_free`: the pages of a block from this one on. -/
def pageFree (s : Os) (p : Word) : Os :=
  { s with blocks := s.blocks.filterMap fun b =>
      if b.start.toNat ≤ p.toNat ∧ p.toNat < b.start.toNat + PAGE_SIZE * b.pages then
        if p = b.start then none else some ⟨b.start, (p.toNat - b.start.toNat) / PAGE_SIZE⟩
      else some b }

def mapMultiple (s : Os) (pt start_vaddr start_paddr : Word) (bytes : ℕ) (bits : Word) : Os :=
  s.run (mmuMapMultiple s.toMachine pt start_vaddr start_paddr bytes bits)

end Os

/-- `p` is the block `kcalloc` gives. -/
def processInitNew (sym : Symbols) (kernel_mmu_table : Word) (mode : Priv) (p : Word) (s : Os) :
    Process × Os :=
  let (ptable, s) := s.pageZalloc
  let (stack, s) := s.pageZalloc
  let pa_tds := pageDown sym.spawnThreadStart
  let pa_tps := pageDown sym.spawnTrapStart
  let pa_tde := pageUp sym.spawnThreadEnd
  let pa_tpe := pageUp sym.spawnTrapEnd
  let paddr := mmuTranslate s.mem kernel_mmu_table sym.spawnThreadStart
  let s := s.mapMultiple ptable pa_tds paddr (pa_tde - pa_tds).toNat PTEB_EXECUTE
  let paddr := mmuTranslate s.mem kernel_mmu_table sym.spawnTrapStart
  let s := s.mapMultiple ptable pa_tps paddr (pa_tpe - pa_tps).toNat PTEB_EXECUTE
  let paddr := mmuTranslate s.mem kernel_mmu_table p
  let frame_pages := (SIZEOF_PROCESS_FRAME + PAGE_SIZE - 1) / PAGE_SIZE
  let s := s.mapMultiple ptable p paddr (frame_pages * PAGE_SIZE) (PTEB_READ ||| PTEB_WRITE)
  let mode := if mode = .user ∨ mode = .supervisor then mode else .user
  let mmu_priv_bits := PTEB_WRITE ||| PTEB_READ ||| if mode = .user then PTEB_USER else 0#64
  let s := s.mapMultiple ptable PROCESS_DEFAULT_STACK_POINTER stack (1 * PAGE_SIZE) mmu_priv_bits
  ({ frame := p
     sepc := 0
     image := 0
     numImagePages := 0
     stack := stack
     numStackPages := 1
     heap := 0
     ptable := ptable
     privilegeMode := mode
     onHart := none }, s)

/-- `process_free` of a process that is not null; `kfree` of the process itself is left out. -/
def processFree (s : Os) (p : Process) : Os :=
  if p.onHart ≠ none then s
  else
    let s := if p.image ≠ 0#64 then s.pageFree p.image else s
    let s := if p.stack ≠ 0#64 then s.pageFree p.stack else s
    let s := if p.heap ≠ 0#64 then s.pageFree p.heap else s
    if p.ptable ≠ 0#64 then s.pageFree p.ptable else s

/-! ## The allocator -/

/-- Page `p` and block `b` do not overlap. -/
def Block.Misses (b : Block) (p : Word) : Prop :=
  p.toNat + PAGE_SIZE ≤ b.start.toNat ∨ b.start.toNat + PAGE_SIZE * b.pages ≤ p.toNat

/-- The pages to come are pages, and in no block. -/
structure Available (s : Os) : Prop where
  nodup : s.pages.Nodup
  aligned (p : Word) : p ∈ s.pages → Aligned p
  nonzero (p : Word) : p ∈ s.pages → p ≠ 0#64
  free (p : Word) (b : Block) : p ∈ s.pages → b ∈ s.blocks → b.Misses p

/-- Pages were taken from the supply, each as a block of its own. -/
structure Takes (s s' : Os) (used : List Word) : Prop where
  pages : s.pages = used ++ s'.pages
  blocks (b : Block) : b ∈ s'.blocks ↔ (∃ p ∈ used, b = ⟨p, 1⟩) ∨ b ∈ s.blocks

theorem misses_of_ne {p q : Word} (hp : Aligned p) (hq : Aligned q) (hne : p ≠ q) :
    (Block.mk q 1).Misses p := by
  have hne' : p.toNat ≠ q.toNat := fun e => hne (BitVec.eq_of_toNat_eq e)
  unfold Aligned at hp hq
  unfold Block.Misses
  simp only [PAGE_SIZE] at hp hq ⊢
  omega

theorem Takes.available {s s' : Os} {used : List Word} (h : Takes s s' used) (hs : Available s) :
    Available s' := by
  have hmem (p : Word) (hp : p ∈ s'.pages) : p ∈ s.pages := h.pages ▸ List.mem_append_right used hp
  have hnd := hs.nodup
  rw [h.pages] at hnd
  obtain ⟨-, hnd', hapart⟩ := List.nodup_append.1 hnd
  refine ⟨hnd', fun p hp => hs.aligned p (hmem p hp), fun p hp => hs.nonzero p (hmem p hp), ?_⟩
  intro p b hp hb
  rcases (h.blocks b).1 hb with ⟨q, hq, rfl⟩ | hb
  · apply misses_of_ne (hs.aligned p (hmem p hp))
      (hs.aligned q (h.pages ▸ List.mem_append_left _ hq))
    exact fun e => hapart q hq p hp e.symm
  · exact hs.free p b (hmem p hp) hb

theorem Takes.trans {s s' s'' : Os} {used used' : List Word} (h : Takes s s' used)
    (h' : Takes s' s'' used') : Takes s s'' (used ++ used') := by
  refine ⟨?_, fun b => ?_⟩
  · rw [h.pages, h'.pages, List.append_assoc]
  · rw [h'.blocks, h.blocks]
    simp only [List.mem_append]
    constructor
    · rintro (⟨p, hp, rfl⟩ | ⟨p, hp, rfl⟩ | hb)
      · exact Or.inl ⟨p, Or.inr hp, rfl⟩
      · exact Or.inl ⟨p, Or.inl hp, rfl⟩
      · exact Or.inr hb
    · rintro (⟨p, hp | hp, rfl⟩ | hb)
      · exact Or.inr (Or.inl ⟨p, hp, rfl⟩)
      · exact Or.inl ⟨p, hp, rfl⟩
      · exact Or.inr (Or.inr hb)

theorem run_takes {s : Os} {m : Machine} {used : List Word} (hpages : s.pages = used ++ m.pages) :
    Takes s (s.run m) used := by
  refine ⟨hpages, fun b => ?_⟩
  have htake : s.pages.take (s.pages.length - m.pages.length) = used := by
    rw [hpages, List.length_append, Nat.add_sub_cancel, List.take_left']
    rfl
  unfold Os.run
  rw [htake, List.mem_append, List.mem_map]
  refine or_congr_left (exists_congr fun p => and_congr_right fun _ => eq_comm)

/-- Blocks stay when pages are taken. -/
theorem run_blocks {s : Os} (m : Machine) {b : Block} (hb : b ∈ s.blocks) : b ∈ (s.run m).blocks :=
  List.mem_append_right _ hb

theorem pageZalloc_spec {s : Os} (hs : Available s) (hn : 1 ≤ s.pages.length) :
    ∃ p, s.pageZalloc.1 = p ∧ Takes s s.pageZalloc.2 [p] ∧ Aligned p ∧ p ≠ 0#64 ∧
      (∀ y, s.pageZalloc.2.mem y = zeroPage s.mem p y) := by
  obtain ⟨p, ps, hps⟩ := List.exists_cons_of_length_pos hn
  have halloc : PageTable.pageZalloc s.toMachine = (p, ⟨zeroPage s.mem p, ps⟩) := by
    unfold PageTable.pageZalloc
    rw [hps]
  have hp : p ∈ s.pages := by rw [hps]; exact List.mem_cons_self
  refine ⟨p, ?_, ?_, hs.aligned p hp, hs.nonzero p hp, fun y => ?_⟩
  · unfold Os.pageZalloc
    rw [halloc]
  · unfold Os.pageZalloc
    rw [halloc]
    exact run_takes hps
  · unfold Os.pageZalloc
    rw [halloc]
    rfl

/-! ## The table of a process -/

/-- The table at `root` is made of pages that are live, and can grow by those of the supply. -/
structure Rooted (root : Word) (s : Os) : Prop where
  available : Available s
  tree : Tree s.mem root
  owned (a : Word) : InTree (child s.mem) root 2 a → ⟨a, 1⟩ ∈ s.blocks

theorem Rooted.freshPages {root : Word} {s : Os} (h : Rooted root s) :
    FreshPages s.mem root s.pages := by
  refine ⟨h.available.nodup, h.available.aligned, fun p hp hin => ?_⟩
  have hmiss := h.available.free p _ hp (h.owned p hin)
  unfold Block.Misses at hmiss
  simp only [PAGE_SIZE] at hmiss
  omega

/-- A call that left pages in the supply found some there. -/
theorem mapMultiple_left {s : Os} {pt start_vaddr start_paddr bits : Word} {bytes : ℕ}
    (h : (s.mapMultiple pt start_vaddr start_paddr bytes bits).pages ≠ []) : s.pages ≠ [] :=
  List.ne_nil_of_length_pos (pages_left (mapPages_suffix ..) h)

theorem mapMultiple_spec {root : Word} {s : Os} (h : Rooted root s)
    {start_vaddr start_paddr bits : Word} {bytes : ℕ} (hrwx : bits &&& 0xe#64 ≠ 0#64)
    (hleft : (s.mapMultiple root start_vaddr start_paddr bytes bits).pages ≠ []) :
    let s' := s.mapMultiple root start_vaddr start_paddr bytes bits
    Rooted root s' ∧
    Maps root start_vaddr start_paddr bits 0 ((bytes + PAGE_SIZE - 1) / PAGE_SIZE) s.toMachine
      s'.toMachine ∧
    ∃ used, Takes s s' used ∧ Uses root s.toMachine s'.toMachine used := by
  intro s'
  have hmaps : Maps root start_vaddr start_paddr bits 0 _ s.toMachine s'.toMachine :=
    mapPages_spec hrwx h.tree h.freshPages hleft
  obtain ⟨used, huses⟩ := hmaps.uses
  have htakes : Takes s s' used := run_takes huses.pages
  refine ⟨⟨htakes.available h.available, hmaps.tree, fun a ha => ?_⟩, hmaps, used, htakes, huses⟩
  rw [htakes.blocks]
  rcases (huses.inTree a).1 ha with hu | hold
  · exact Or.inl ⟨a, hu, rfl⟩
  · exact Or.inr (h.owned a hold)

/-- Pages that no one has and that `page_zalloc` will not hand out. -/
structure Free (s : Os) (start : Word) (pages : ℕ) : Prop where
  aligned : Aligned start
  blocks (b : Block) : b ∈ s.blocks → start.toNat + PAGE_SIZE * pages ≤ b.start.toNat ∨
    b.start.toNat + PAGE_SIZE * b.pages ≤ start.toNat
  supply (q : Word) : q ∈ s.pages → start.toNat + PAGE_SIZE * pages ≤ q.toNat ∨
    q.toNat + PAGE_SIZE ≤ start.toNat

theorem Free.takes {s s' : Os} {start : Word} {used : List Word} {pages : ℕ}
    (h : Free s start pages)
    (ht : Takes s s' used) : Free s' start pages := by
  refine ⟨h.aligned, fun b hb => ?_, fun q hq => ?_⟩
  · rcases (ht.blocks b).1 hb with ⟨q, hq, rfl⟩ | hb
    · exact h.supply q (ht.pages ▸ List.mem_append_left _ hq)
    · exact h.blocks b hb
  · exact h.supply q (ht.pages ▸ List.mem_append_right _ hq)

/-- Pages from `page_znalloc` are not part of a table. -/
theorem pageZnalloc_rooted {s : Os} {root image : Word} {n : ℤ} (h : Rooted root s)
    (hf : image ≠ 0#64 → Free s image (max n.toNat 1)) :
    Rooted root (s.pageZnalloc n image) ∧
      (∀ a, InTree (child (s.pageZnalloc n image).mem) root 2 a ↔ InTree (child s.mem) root 2 a) ∧
      ∀ v, leafEntry (s.pageZnalloc n image).mem root v = leafEntry s.mem root v := by
  unfold Os.pageZnalloc
  by_cases hi : image = 0#64
  · simp only [if_pos hi]
    exact ⟨h, fun a => trivial, fun v => trivial⟩
  · simp only [if_neg hi]
    have hfree := hf hi
    set mem' : ℕ → Word := fun x =>
      if image.toNat ≤ x ∧ x < image.toNat + PAGE_SIZE * max n.toNat 1 then 0 else s.mem x
    have hkeep (a : Word) (ha : InTree (child s.mem) root 2 a) (i : Fin 512) :
        mem' (entryAddr a i) = s.mem (entryAddr a i) := by
      have hi := i.isLt
      have happart := hfree.blocks _ (h.owned a ha)
      have hentry : entryAddr a i = a.toNat + 8 * i.val := rfl
      apply if_neg
      simp only [PAGE_SIZE] at happart ⊢
      omega
    obtain ⟨htree, hin, hleaf⟩ := h.tree.congr hkeep
    refine ⟨⟨⟨h.available.nodup, h.available.aligned, h.available.nonzero, ?_⟩, htree, ?_⟩, hin, hleaf⟩
    · intro q b hq hb
      rcases List.mem_cons.1 hb with rfl | hb
      · exact (hfree.supply q hq).symm
      · exact h.available.free q b hq hb
    · exact fun a ha => List.mem_cons_of_mem _ (h.owned a ((hin a).1 ha))

/-! ## What `process_init_new` leaves -/

/-- The bits that only the image of a program has together. -/
def USER_EXECUTE : Word := PTEB_USER ||| PTEB_EXECUTE

/-- A leaf's low bits are the permission bits it was written with. -/
theorem leafBits_low (paddr bits : Word) : leafBits paddr bits &&& 0x3ff#64 = bits &&& 0x3ff#64 := by
  have hmask (i : ℕ) : (0x3ff#64).getLsbD i = decide (i < 10) := low_mask 10 i (by omega)
  apply BitVec.eq_of_getLsbD_eq
  intro i hi
  simp only [leafBits, BitVec.getLsbD_and, BitVec.getLsbD_or, BitVec.getLsbD_shiftLeft, hmask]
  grind

theorem leafBits_user_execute (paddr bits : Word) :
    leafBits paddr (bits ||| PTEB_VALID) &&& USER_EXECUTE = bits &&& USER_EXECUTE := by
  have hmask : USER_EXECUTE = 0x3ff#64 &&& USER_EXECUTE := by decide
  have hvalid : PTEB_VALID &&& USER_EXECUTE = 0#64 := by decide
  rw [hmask, ← BitVec.and_assoc, leafBits_low, BitVec.and_assoc, ← hmask,
    BitVec.and_or_distrib_right, hvalid, BitVec.or_zero, hmask, ← BitVec.and_assoc]

/-- No leaf is open to the process for execution. -/
def NoUserExecute (mem : ℕ → Word) (root : Word) : Prop :=
  ∀ v, leafEntry mem root v &&& USER_EXECUTE ≠ USER_EXECUTE

theorem maps_no_user_execute {root start_vaddr start_paddr bits : Word} {i n : ℕ} {s s' : Machine}
    (hm : Maps root start_vaddr start_paddr bits i n s s') (hb : bits &&& USER_EXECUTE ≠ USER_EXECUTE)
    (h : NoUserExecute s.mem root) : NoUserExecute s'.mem root := by
  intro v
  rcases hm.leaf v with ⟨j, -, -, -, hleaf⟩ | ⟨-, hleaf⟩
  · rw [hleaf, leafBits_user_execute]
    exact hb
  · rw [hleaf]
    exact h v

/-- A user process as `process_init_new` leaves it. -/
structure Initialised (p : Word) (s : Os) (r : Process × Os) : Prop where
  rooted : Rooted r.1.ptable r.2
  no_user_execute : NoUserExecute r.2.mem r.1.ptable
  fields : r.1.frame = p ∧ r.1.privilegeMode = .user ∧ r.1.image = 0#64 ∧ r.1.heap = 0#64
  ptable_ne : r.1.ptable ≠ 0#64
  /-- One of the pages taken is a table below the root. -/
  takes : ∃ used, Takes s r.2 used ∧ r.1.stack ∈ used ∧ r.1.ptable ∈ used ∧
    ∃ t ∈ used, t ≠ r.1.ptable ∧ t ≠ r.1.stack

/-- The root and the stack page of a new process. -/
theorem root_and_stack {s : Os} (hs : Available s) (hleft : s.pageZalloc.2.pageZalloc.2.pages ≠ []) :
    let root := s.pageZalloc.1
    let stack := s.pageZalloc.2.pageZalloc.1
    let s' := s.pageZalloc.2.pageZalloc.2
    Takes s s' [root, stack] ∧ Rooted root s' ∧ root ≠ 0#64 ∧
      (∀ v, leafEntry s'.mem root v = 0#64) ∧ ∀ a, InTree (child s'.mem) root 2 a → a = root := by
  intro root stack s'
  have hleft1 : 1 ≤ s.pageZalloc.2.pages.length := pages_left (pageZalloc_suffix _) hleft
  have hleft0 : 1 ≤ s.pages.length :=
    pages_left (pageZalloc_suffix _) (List.ne_nil_of_length_pos hleft1)
  obtain ⟨_, rfl, htakes, hal, hne, hmem⟩ := pageZalloc_spec hs hleft0
  obtain ⟨_, rfl, htakes', hal', hne', hmem'⟩ := pageZalloc_spec (htakes.available hs) hleft1
  have htake : Takes s s' [root, stack] := htakes.trans htakes'
  have hapart : root ≠ stack := by
    have hnd := hs.nodup
    rw [htake.pages] at hnd
    exact fun e => (List.nodup_cons.1 hnd).1 (e ▸ List.mem_cons_self)
  have hzero (i : Fin 512) : s'.mem (entryAddr root i) = 0 := by
    change s.pageZalloc.2.pageZalloc.2.mem _ = 0
    rw [hmem', zeroPage_entry hal' hal hapart, hmem, zeroPage_own]
  have hroot (a : Word) (ha : InTree (child s'.mem) root 2 a) : a = root := by
    obtain ⟨σ, -, hw⟩ := ha
    exact (zeroed_root_path hzero σ a hw).2
  refine ⟨htake, ⟨htake.available hs, zeroed_root_tree hal hzero, fun a ha => ?_⟩, hne,
    fun v => ?_, hroot⟩
  · rw [hroot a ha, htake.blocks]
    exact Or.inl ⟨root, List.mem_cons_self, rfl⟩
  · unfold leafEntry
    cases hw : walk (child s'.mem) root [vpn v 1, vpn v 2] with
    | none => rfl
    | some t => exact absurd (zeroed_root_path hzero _ t hw).1 (by simp)

/-- What one mapping of `process_init_new` keeps, when it is not open to the process for
execution. -/
theorem mapMultiple_keeps {root : Word} {s : Os} (h : Rooted root s)
    (hnx : NoUserExecute s.mem root) {start_vaddr start_paddr bits : Word} {bytes : ℕ}
    (hrwx : bits &&& 0xe#64 ≠ 0#64) (hb : bits &&& USER_EXECUTE ≠ USER_EXECUTE)
    (hleft : (s.mapMultiple root start_vaddr start_paddr bytes bits).pages ≠ []) :
    let s' := s.mapMultiple root start_vaddr start_paddr bytes bits
    Rooted root s' ∧ NoUserExecute s'.mem root ∧
      ∃ used, Takes s s' used ∧ Uses root s.toMachine s'.toMachine used := by
  obtain ⟨hrooted, hmaps, hused⟩ := mapMultiple_spec h hrwx hleft
  exact ⟨hrooted, maps_no_user_execute hmaps hb hnx, hused⟩

/-- A page with a leaf has a table below the root. -/
theorem exists_lower_table {mem : ℕ → Word} {root v : Word} (hT : Tree mem root)
    (hv : leafEntry mem root v ≠ 0#64) : ∃ t, InTree (child mem) root 2 t ∧ t ≠ root := by
  unfold leafEntry at hv
  cases hw : walk (child mem) root [vpn v 1, vpn v 2] with
  | none =>
    rw [hw] at hv
    exact absurd rfl hv
  | some t =>
    refine ⟨t, ⟨_, by simp, hw⟩, fun e => ?_⟩
    subst e
    have hpath := hT.noAlias _ [] (by simp) (by simp) t hw (walk_nil _ t)
    simp at hpath

theorem processInitNew_spec {sym : Symbols} {kernel_mmu_table p : Word} {s : Os} (hs : Available s)
    (hleft : (processInitNew sym kernel_mmu_table .user p s).2.pages ≠ []) :
    Initialised p s (processInitNew sym kernel_mmu_table .user p s) := by
  unfold processInitNew at hleft ⊢
  simp only [true_or, if_true] at hleft ⊢
  have hleft₃ := mapMultiple_left hleft
  have hleft₂ := mapMultiple_left hleft₃
  have hleft₁ := mapMultiple_left hleft₂
  obtain ⟨htake₀, hrooted₀, hne, hleaf₀, htree₀⟩ := root_and_stack hs (mapMultiple_left hleft₁)
  generalize s.pageZalloc.1 = root at *
  generalize s.pageZalloc.2.pageZalloc.1 = stack at *
  generalize s.pageZalloc.2.pageZalloc.2 = s₀ at *
  have hnx₀ : NoUserExecute s₀.mem root := by
    intro v
    rw [hleaf₀ v]
    decide
  obtain ⟨hrooted₁, hnx₁, used₁, htake₁, huses₁⟩ :=
    mapMultiple_keeps hrooted₀ hnx₀ (by decide) (by decide) hleft₁
  generalize s₀.mapMultiple root _ _ _ PTEB_EXECUTE = s₁ at *
  obtain ⟨hrooted₂, hnx₂, used₂, htake₂, huses₂⟩ :=
    mapMultiple_keeps hrooted₁ hnx₁ (by decide) (by decide) hleft₂
  generalize s₁.mapMultiple root _ _ _ PTEB_EXECUTE = s₂ at *
  obtain ⟨hrooted₃, hnx₃, used₃, htake₃, huses₃⟩ :=
    mapMultiple_keeps hrooted₂ hnx₂ (by decide) (by decide) hleft₃
  generalize s₂.mapMultiple root _ _ _ (PTEB_READ ||| PTEB_WRITE) = s₃ at *
  obtain ⟨hrooted₄, hmaps₄, used₄, htake₄, huses₄⟩ := mapMultiple_spec hrooted₃ (by decide) hleft
  generalize s₃.mapMultiple root _ _ _ _ = s₄ at *
  have htake := ((htake₁.trans htake₂).trans htake₃).trans htake₄
  have huses := ((huses₁.trans huses₂).trans huses₃).trans huses₄
  generalize (used₁ ++ used₂ ++ used₃) ++ used₄ = used at *
  have htotal := htake₀.trans htake
  refine ⟨hrooted₄, maps_no_user_execute hmaps₄ (by decide) hnx₃, ⟨rfl, rfl, rfl, rfl⟩, hne,
    [root, stack] ++ used, htotal, by simp, by simp, ?_⟩
  -- the table that leads to the stack page is new
  have hleaf : leafEntry s₄.mem root PROCESS_DEFAULT_STACK_POINTER ≠ 0#64 := by
    rcases hmaps₄.leaf PROCESS_DEFAULT_STACK_POINTER with ⟨j, -, -, -, hleaf⟩ | ⟨hnone, -⟩
    · rw [hleaf]
      intro hzero
      exact leaf_valid _ _ (by rw [hzero]; decide)
    · exact absurd (by decide) (hnone 0 (le_refl 0) (by decide))
  obtain ⟨t, hin, ht⟩ := exists_lower_table hrooted₄.tree hleaf
  have hused : t ∈ used := by
    rcases (huses.inTree t).1 hin with hu | hold
    · exact hu
    · exact absurd (htree₀ t hold) ht
  refine ⟨t, List.mem_append_right _ hused, ht, fun e => ?_⟩
  have hnd := hs.nodup
  rw [htotal.pages, List.nodup_append] at hnd
  subst e
  exact (List.nodup_append.1 hnd.1).2.2 t (by simp) t hused rfl

/-! ## How many pages are enough -/

def threadPages (sym : Symbols) : ℕ :=
  ((pageUp sym.spawnThreadEnd - pageDown sym.spawnThreadStart).toNat + PAGE_SIZE - 1) / PAGE_SIZE

def trapPages (sym : Symbols) : ℕ :=
  ((pageUp sym.spawnTrapEnd - pageDown sym.spawnTrapStart).toNat + PAGE_SIZE - 1) / PAGE_SIZE

theorem mapMultiple_length (s : Os) (pt start_vaddr start_paddr : Word) (bytes : ℕ) (bits : Word) :
    s.pages.length ≤ (s.mapMultiple pt start_vaddr start_paddr bytes bits).pages.length +
      2 * ((bytes + PAGE_SIZE - 1) / PAGE_SIZE) :=
  mapPages_length ..

/-- `process_init_new` takes the root, the stack and two tables at most for each page it maps. -/
theorem processInitNew_length (sym : Symbols) (kernel_mmu_table : Word) (mode : Priv) (p : Word)
    (s : Os) :
    s.pages.length ≤ (processInitNew sym kernel_mmu_table mode p s).2.pages.length +
      (2 + 2 * (threadPages sym + trapPages sym + 1 + 1)) := by
  have h₀ := pageZalloc_length s.toMachine
  have h₁ := pageZalloc_length s.pageZalloc.2.toMachine
  change s.pages.length ≤ s.pageZalloc.2.pages.length + 1 at h₀
  change s.pageZalloc.2.pages.length ≤ s.pageZalloc.2.pageZalloc.2.pages.length + 1 at h₁
  unfold processInitNew
  simp only
  generalize s.pageZalloc.1 = root at *
  generalize s.pageZalloc.2.pageZalloc.1 = stack at *
  generalize s.pageZalloc.2.pageZalloc.2 = s₀ at *
  have h₂ := mapMultiple_length s₀ root (pageDown sym.spawnThreadStart)
    (mmuTranslate s₀.mem kernel_mmu_table sym.spawnThreadStart)
    (pageUp sym.spawnThreadEnd - pageDown sym.spawnThreadStart).toNat PTEB_EXECUTE
  generalize s₀.mapMultiple root _ _ _ PTEB_EXECUTE = s₁ at *
  have h₃ := mapMultiple_length s₁ root (pageDown sym.spawnTrapStart)
    (mmuTranslate s₁.mem kernel_mmu_table sym.spawnTrapStart)
    (pageUp sym.spawnTrapEnd - pageDown sym.spawnTrapStart).toNat PTEB_EXECUTE
  generalize s₁.mapMultiple root _ _ _ PTEB_EXECUTE = s₂ at *
  have h₄ := mapMultiple_length s₂ root p (mmuTranslate s₂.mem kernel_mmu_table p)
    ((SIZEOF_PROCESS_FRAME + PAGE_SIZE - 1) / PAGE_SIZE * PAGE_SIZE) (PTEB_READ ||| PTEB_WRITE)
  generalize s₂.mapMultiple root _ _ _ (PTEB_READ ||| PTEB_WRITE) = s₃ at *
  generalize PTEB_WRITE ||| PTEB_READ ||| _ = bits
  have h₅ := mapMultiple_length s₃ root PROCESS_DEFAULT_STACK_POINTER stack (1 * PAGE_SIZE) bits
  generalize s₃.mapMultiple root _ _ _ bits = s₄ at *
  simp only [SIZEOF_PROCESS_FRAME, PAGE_SIZE, threadPages, trapPages] at h₂ h₃ h₄ h₅ ⊢
  omega

end UserProcess
