import DucreuOS.UserProcess

/-! # Loading a program

`elf_load` finds the range of the loadable segments, copies them into pages of their own and maps
these for the process. The buffer holds the file and whatever follows it; addresses in it are
64-bit offsets. -/
namespace ElfLoader

open ByteMemory PageTable PointerTree UserProcess

def EM_RISCV : BitVec 16 := 243#16
def ET_EXEC : BitVec 16 := 2#16
def PT_LOAD : BitVec 32 := 1#32

/-- The fields of `Elf64_Phdr_t` that are read, and `p_filesz`. -/
structure Phdr where
  pType : BitVec 32
  pOffset : Word
  pVaddr : Word
  pFilesz : Word
  pMemsz : Word

/-- `memcmp(eh->e_ident, ELFMAG, SELFMAG)`; it is 1 if they agree. -/
def isElf (elf : Mem) : Bool :=
  elf 0 = 0x7f#8 ∧ elf 1 = 0x45#8 ∧ elf 2 = 0x4c#8 ∧ elf 3 = 0x46#8

def eType (elf : Mem) : BitVec 16 := load16 elf 16
def eMachine (elf : Mem) : BitVec 16 := load16 elf 18
def eEntry (elf : Mem) : Word := load64 elf 24
def ePhoff (elf : Mem) : Word := load64 elf 32
def ePhnum (elf : Mem) : BitVec 16 := load16 elf 56

/-- `ph[i]` -/
def phdr (elf : Mem) (i : ℕ) : Phdr :=
  let ph := ePhoff elf + BitVec.ofNat 64 (56 * i)
  { pType := load32 elf ph.toNat
    pOffset := load64 elf (ph + 8).toNat
    pVaddr := load64 elf (ph + 16).toNat
    pFilesz := load64 elf (ph + 32).toNat
    pMemsz := load64 elf (ph + 40).toNat }

def programHeaders (elf : Mem) : List Phdr := (List.range (ePhnum elf).toNat).map (phdr elf)

/-- The variables of the first loop. -/
structure Range where
  vaddrStart : Word
  vaddrEnd : Word
  programTableLoaded : Bool

def widen (r : Range) (ph : Phdr) : Range :=
  if ph.pType = PT_LOAD then
    if !r.programTableLoaded then ⟨ph.pVaddr, ph.pVaddr + ph.pMemsz, true⟩
    else
      { r with
        vaddrStart := if ph.pVaddr < r.vaddrStart then ph.pVaddr else r.vaddrStart
        vaddrEnd :=
          if r.vaddrEnd < ph.pVaddr + ph.pMemsz then ph.pVaddr + ph.pMemsz else r.vaddrEnd }
  else r

/-- The first loop; nothing sets `program_table_loaded` before it. -/
def imageRange (program_table_loaded : Bool) (elf : Mem) : Range :=
  (programHeaders elf).foldl widen ⟨0, 0, program_table_loaded⟩

/-- The bytes `memcpy` moves: its size is an `int`. -/
def Phdr.copySize (ph : Phdr) : ℕ := (ph.pMemsz.setWidth 32).toInt.toNat

def fileByte (elf : Mem) (ph : Phdr) (b : ℕ) : Byte := elf (ph.pOffset + BitVec.ofNat 64 b).toNat

/-- One round of the second loop. -/
def copySegment (elf : Mem) (image vaddr_start : Word) (mem : ℕ → Word) (ph : Phdr) : ℕ → Word :=
  if ph.pType = PT_LOAD then
    writeBytes mem (image + ph.pVaddr - vaddr_start).toNat ph.copySize (fileByte elf ph)
  else mem

def IMAGE_BITS : Word := PTEB_USER ||| PTEB_READ ||| PTEB_WRITE ||| PTEB_EXECUTE

structure Loaded where
  ret : ℕ
  process : Process
  os : Os

/-- `image` is what `page_znalloc` returns. -/
def elfLoad (sym : Symbols) (program_table_loaded : Bool) (image : Word) (s : Os) (p : Process)
    (elf : Mem) : Loaded :=
  if !isElf elf then ⟨1, p, s⟩
  else if eMachine elf ≠ EM_RISCV then ⟨2, p, s⟩
  else if eType elf ≠ ET_EXEC then ⟨3, p, s⟩
  else if p.ptable = 0#64 then ⟨5, p, s⟩
  else if p.privilegeMode ≠ .user then ⟨6, p, s⟩
  else
    let r := imageRange program_table_loaded elf
    if !r.programTableLoaded then ⟨4, p, s⟩
    else
      let pa_vaddr_start := pageDown r.vaddrStart
      let pa_vaddr_end := pageUp r.vaddrEnd
      let num_process_image_pages := (pa_vaddr_end - pa_vaddr_start) / 4096#64
      if (pa_vaddr_start < sym.spawnThreadStart ∧ sym.spawnThreadStart < pa_vaddr_end) ∨
          (sym.spawnThreadStart < pa_vaddr_start ∧ pa_vaddr_start < sym.spawnTrapEnd) then
        ⟨5, p, s⟩
      else
        let p := { p with
          sepc := eEntry elf
          numImagePages := num_process_image_pages
          image := image }
        let s := s.pageZnalloc (num_process_image_pages.setWidth 32).toInt image
        let s := { s with
          mem := (programHeaders elf).foldl (copySegment elf image r.vaddrStart) s.mem }
        ⟨0, p, s.mapMultiple p.ptable pa_vaddr_start image
          (num_process_image_pages * 4096#64).toNat IMAGE_BITS⟩

/-! ## The range of the segments -/

def loads (elf : Mem) : List Phdr := (programHeaders elf).filter (·.pType = PT_LOAD)

/-- The addresses the first loop takes the lowest of; 0 is one if its flag was set before it. -/
def starts (program_table_loaded : Bool) (elf : Mem) : Set Word :=
  {v | (program_table_loaded = true ∧ v = 0) ∨ ∃ ph ∈ loads elf, v = ph.pVaddr}

/-- Those it takes the highest of. -/
def stops (program_table_loaded : Bool) (elf : Mem) : Set Word :=
  {v | (program_table_loaded = true ∧ v = 0) ∨ ∃ ph ∈ loads elf, v = ph.pVaddr + ph.pMemsz}

/-- From lowest to highest, in whole pages. -/
def spanPages (start stop : Word) : Word := (pageUp stop - pageDown start) / 4096#64

theorem least_insert {P Q : Word → Prop} {m x : Word} (hm : IsLeast {v | P v} m)
    (hx : IsLeast {v | v = m ∨ Q v} x) : IsLeast {v | P v ∨ Q v} x := by
  refine ⟨?_, ?_⟩
  · rcases hx.1 with rfl | hb
    · exact Or.inl hm.1
    · exact Or.inr hb
  · rintro v (ht | hb)
    · exact BitVec.le_trans (hx.2 (Or.inl rfl)) (hm.2 ht)
    · exact hx.2 (Or.inr hb)

theorem greatest_insert {P Q : Word → Prop} {m x : Word} (hm : IsGreatest {v | P v} m)
    (hx : IsGreatest {v | v = m ∨ Q v} x) : IsGreatest {v | P v ∨ Q v} x := by
  refine ⟨?_, ?_⟩
  · rcases hx.1 with rfl | hb
    · exact Or.inl hm.1
    · exact Or.inr hb
  · rintro v (ht | hb)
    · exact BitVec.le_trans (hm.2 ht) (hx.2 (Or.inl rfl))
    · exact hx.2 (Or.inr hb)

/-- One round of the first loop takes the lower and the higher of two addresses. -/
theorem widen_load (r : Range) {ph : Phdr} (hl : ph.pType = PT_LOAD) :
    (widen r ph).programTableLoaded = true ∧
    IsLeast {v | (r.programTableLoaded = true ∧ v = r.vaddrStart) ∨ v = ph.pVaddr}
      (widen r ph).vaddrStart ∧
    IsGreatest {v | (r.programTableLoaded = true ∧ v = r.vaddrEnd) ∨ v = ph.pVaddr + ph.pMemsz}
      (widen r ph).vaddrEnd := by
  unfold widen
  rw [if_pos hl]
  obtain ⟨start, stop, loaded⟩ := r
  generalize ph.pVaddr + ph.pMemsz = last
  simp only [IsLeast, IsGreatest, lowerBounds, upperBounds, Set.mem_ofPred_eq, BitVec.le_def,
    BitVec.lt_def]
  cases loaded
  · simp
  · simp only [Bool.not_true, Bool.false_eq_true, if_false, true_and]
    refine ⟨⟨?_, ?_⟩, ?_, ?_⟩
    · split_ifs <;> simp
    · rintro v (rfl | rfl) <;> split_ifs <;> omega
    · split_ifs <;> simp
    · rintro v (rfl | rfl) <;> split_ifs <;> omega

theorem foldl_widen (phs : List Phdr) (r : Range)
    (h : (phs.foldl widen r).programTableLoaded = true) :
    IsLeast {v | (r.programTableLoaded = true ∧ v = r.vaddrStart) ∨
        ∃ ph ∈ phs.filter (·.pType = PT_LOAD), v = ph.pVaddr} (phs.foldl widen r).vaddrStart ∧
    IsGreatest {v | (r.programTableLoaded = true ∧ v = r.vaddrEnd) ∨
        ∃ ph ∈ phs.filter (·.pType = PT_LOAD), v = ph.pVaddr + ph.pMemsz}
      (phs.foldl widen r).vaddrEnd := by
  induction phs generalizing r with
  | nil =>
    refine ⟨⟨Or.inl ⟨h, rfl⟩, ?_⟩, Or.inl ⟨h, rfl⟩, ?_⟩
    · rintro v (⟨-, rfl⟩ | ⟨ph, hph, -⟩)
      · exact BitVec.le_refl _
      · exact absurd hph List.not_mem_nil
    · rintro v (⟨-, rfl⟩ | ⟨ph, hph, -⟩)
      · exact BitVec.le_refl _
      · exact absurd hph List.not_mem_nil
  | cons ph phs ih =>
    rw [List.foldl_cons] at h ⊢
    obtain ⟨hleast, hgreatest⟩ := ih _ h
    by_cases hl : ph.pType = PT_LOAD
    · obtain ⟨hset, hfirst, hlast⟩ := widen_load r hl
      rw [List.filter_cons_of_pos (by simpa using hl)]
      simp only [hset, true_and] at hleast hgreatest
      have hleast' := least_insert hfirst hleast
      have hgreatest' := greatest_insert hlast hgreatest
      simp only [or_assoc] at hleast' hgreatest'
      simpa only [List.mem_cons, exists_eq_or_imp] using And.intro hleast' hgreatest'
    · have hw : widen r ph = r := if_neg hl
      rw [List.filter_cons_of_neg (by simpa using hl)]
      rw [hw] at hleast hgreatest ⊢
      exact ⟨hleast, hgreatest⟩

theorem imageRange_spec {program_table_loaded : Bool} {elf : Mem}
    (h : (imageRange program_table_loaded elf).programTableLoaded = true) :
    IsLeast (starts program_table_loaded elf) (imageRange program_table_loaded elf).vaddrStart ∧
    IsGreatest (stops program_table_loaded elf) (imageRange program_table_loaded elf).vaddrEnd :=
  foldl_widen (programHeaders elf) ⟨0, 0, program_table_loaded⟩ h

theorem IsLeast.word_unique {T : Set Word} {v w : Word} (hv : IsLeast T v) (hw : IsLeast T w) :
    v = w :=
  BitVec.le_antisymm (hv.2 hw.1) (hw.2 hv.1)

theorem IsGreatest.word_unique {T : Set Word} {v w : Word} (hv : IsGreatest T v)
    (hw : IsGreatest T w) : v = w :=
  BitVec.le_antisymm (hw.2 hv.1) (hv.2 hw.1)

/-! ## What a load does -/

/-- The operating system when the segments are copied. -/
def copied (image : Word) (s : Os) (elf : Mem) (start stop : Word) : Os :=
  let s := s.pageZnalloc ((spanPages start stop).setWidth 32).toInt image
  { s with mem := (programHeaders elf).foldl (copySegment elf image start) s.mem }

variable {sym : Symbols} {program_table_loaded : Bool} {image start stop : Word} {s : Os}
  {p : Process} {elf : Mem} {size : ℕ}

theorem elfLoad_refused_or_loaded (sym : Symbols) (image : Word) (s : Os) (p : Process)
    (hstart : IsLeast (starts program_table_loaded elf) start)
    (hstop : IsGreatest (stops program_table_loaded elf) stop) :
    (elfLoad sym program_table_loaded image s p elf).ret ≠ 0 ∧
      (elfLoad sym program_table_loaded image s p elf).process = p ∧
      (elfLoad sym program_table_loaded image s p elf).os = s ∨
    elfLoad sym program_table_loaded image s p elf =
      ⟨0, { p with sepc := eEntry elf, numImagePages := spanPages start stop, image := image },
        (copied image s elf start stop).mapMultiple p.ptable (pageDown start) image
          (spanPages start stop * 4096#64).toNat IMAGE_BITS⟩ := by
  unfold elfLoad
  simp only
  split_ifs with h₁ h₂ h₃ h₄ h₅ h₆ h₇
  case neg =>
    obtain ⟨hfirst, hlast⟩ := imageRange_spec (by simpa using h₆)
    rw [IsLeast.word_unique hstart hfirst, IsGreatest.word_unique hstop hlast]
    exact Or.inr rfl
  all_goals exact Or.inl ⟨Nat.succ_ne_zero _, rfl, rfl⟩

/-- No copy falls into a table of the process. -/
def CopiesMiss (mem : ℕ → Word) (root : Word) (elf : Mem) (image start : Word) : Prop :=
  ∀ ph ∈ loads elf, ∀ a, InTree (child mem) root 2 a →
    (image + ph.pVaddr - start).toNat + ph.copySize ≤ a.toNat ∨
      a.toNat + PAGE_SIZE ≤ (image + ph.pVaddr - start).toNat

theorem foldl_copy_outside {mem : ℕ → Word} {y : ℕ} {phs : List Phdr}
    (h : ∀ ph ∈ phs, ph.pType = PT_LOAD → y + 8 ≤ (image + ph.pVaddr - start).toNat ∨
      (image + ph.pVaddr - start).toNat + ph.copySize ≤ y) :
    phs.foldl (copySegment elf image start) mem y = mem y := by
  induction phs generalizing mem with
  | nil => rfl
  | cons ph phs ih =>
    rw [List.foldl_cons, ih fun q hq => h q (List.mem_cons_of_mem _ hq)]
    unfold copySegment
    by_cases hl : ph.pType = PT_LOAD
    · rw [if_pos hl]
      exact writeBytes_outside (h ph List.mem_cons_self hl)
    · rw [if_neg hl]

theorem copied_rooted {root : Word} (h : Rooted root s)
    (hf : image ≠ 0#64 →
      Free s image (max ((spanPages start stop).setWidth 32).toInt.toNat 1))
    (hc : CopiesMiss s.mem root elf image start) :
    Rooted root (copied image s elf start stop) ∧
      (∀ v, leafEntry (copied image s elf start stop).mem root v = leafEntry s.mem root v) ∧
      ∀ a, InTree (child (copied image s elf start stop).mem) root 2 a →
        InTree (child s.mem) root 2 a := by
  obtain ⟨hrooted, hin, hleaf⟩ := pageZnalloc_rooted h hf
  unfold copied
  simp only
  generalize s.pageZnalloc _ image = s₁ at *
  have hkeep (a : Word) (ha : InTree (child s₁.mem) root 2 a) (i : Fin 512) :
      (programHeaders elf).foldl (copySegment elf image start) s₁.mem (entryAddr a i)
        = s₁.mem (entryAddr a i) := by
    refine foldl_copy_outside fun ph hph hl => ?_
    have hi := i.isLt
    have happart := hc ph (List.mem_filter.2 ⟨hph, by simpa using hl⟩) a ((hin a).1 ha)
    unfold entryAddr
    simp only [PAGE_SIZE] at happart
    omega
  obtain ⟨htree, hin', hleaf'⟩ := hrooted.tree.congr hkeep
  refine ⟨⟨⟨?_, ?_, ?_, ?_⟩, htree, fun a ha => hrooted.owned a ((hin' a).1 ha)⟩, fun v => ?_,
    fun a ha => ?_⟩
  · exact hrooted.available.nodup
  · exact hrooted.available.aligned
  · exact hrooted.available.nonzero
  · exact hrooted.available.free
  · exact (hleaf' v).trans (hleaf v)
  · exact (hin a).1 ((hin' a).1 ha)

theorem spanPages_bytes (start stop : Word) :
    (spanPages start stop * 4096#64).toNat = PAGE_SIZE * (spanPages start stop).toNat ∧
      ((spanPages start stop * 4096#64).toNat + PAGE_SIZE - 1) / PAGE_SIZE
        = (spanPages start stop).toNat := by
  have hdiv : (spanPages start stop).toNat = (pageUp stop - pageDown start).toNat / 4096 :=
    BitVec.toNat_udiv
  have hlt := (pageUp stop - pageDown start).isLt
  have hmul : (spanPages start stop * 4096#64).toNat = PAGE_SIZE * (spanPages start stop).toNat := by
    rw [BitVec.toNat_mul, BitVec.toNat_ofNat]
    simp only [PAGE_SIZE]
    omega
  refine ⟨hmul, ?_⟩
  rw [hmul]
  simp only [PAGE_SIZE]
  omega

/-- The pages `page_znalloc` is asked for: its argument is an `int`, and it takes one at least. -/
def askedPages (start stop : Word) : ℕ := max ((spanPages start stop).setWidth 32).toInt.toNat 1

/-- What is given for a load: the range of the segments, the pages `page_znalloc` finds, unless it
finds none, copies that spare the tables, and a supply that is not used up. -/
structure Run (sym : Symbols) (program_table_loaded : Bool) (image : Word) (s : Os) (p : Process)
    (elf : Mem) (start stop : Word) : Prop where
  least : IsLeast (starts program_table_loaded elf) start
  greatest : IsGreatest (stops program_table_loaded elf) stop
  free : image ≠ 0#64 → Free s image (askedPages start stop)
  copies : CopiesMiss s.mem p.ptable elf image start
  left : (elfLoad sym program_table_loaded image s p elf).os.pages ≠ []

theorem Run.maps (h : Run sym program_table_loaded image s p elf start stop)
    (hr : Rooted p.ptable s)
    (hret : (elfLoad sym program_table_loaded image s p elf).ret = 0) :
    let r := elfLoad sym program_table_loaded image s p elf
    r.process.ptable = p.ptable ∧ Rooted p.ptable r.os ∧
      Maps p.ptable (pageDown start) image IMAGE_BITS 0 (spanPages start stop).toNat
        (copied image s elf start stop).toMachine r.os.toMachine ∧
      ∃ used, Takes (copied image s elf start stop) r.os used ∧
        Uses p.ptable (copied image s elf start stop).toMachine r.os.toMachine used := by
  obtain ⟨hrooted, -⟩ := copied_rooted hr h.free h.copies
  have hleft := h.left
  rcases elfLoad_refused_or_loaded sym image s p h.least h.greatest with ⟨hne, -⟩ | heq
  · exact absurd hret hne
  · rw [heq] at hleft ⊢
    simp only at hleft ⊢
    obtain ⟨hroot, hmaps, huses⟩ :=
      mapMultiple_spec hrooted (show IMAGE_BITS &&& 0xe#64 ≠ 0#64 by decide) hleft
    rw [(spanPages_bytes start stop).2] at hmaps
    exact ⟨trivial, hroot, hmaps, huses⟩

/-! ## The supervisor's mappings -/

theorem elfLoad_left (h : (elfLoad sym program_table_loaded image s p elf).os.pages ≠ []) :
    s.pages ≠ [] := by
  unfold elfLoad at h
  simp only at h
  split_ifs at h
  case neg =>
    have hleft := mapMultiple_left h
    unfold Os.pageZnalloc at hleft
    split_ifs at hleft <;> exact hleft
  all_goals exact h

theorem copied_pages (image : Word) (s : Os) (elf : Mem) (start stop : Word) :
    (copied image s elf start stop).pages = s.pages := by
  simp only [copied, Os.pageZnalloc]
  split_ifs <;> rfl

theorem elfLoad_length (sym : Symbols) (image : Word) (s : Os) (p : Process) (hstart : IsLeast (starts program_table_loaded elf) start)
    (hstop : IsGreatest (stops program_table_loaded elf) stop) :
    s.pages.length ≤ (elfLoad sym program_table_loaded image s p elf).os.pages.length +
      2 * (spanPages start stop).toNat := by
  rcases elfLoad_refused_or_loaded sym image s p hstart hstop with ⟨-, -, heq⟩ | heq
  · rw [heq]
    exact Nat.le_add_right _ _
  · have hpages : (copied image s elf start stop).pages = s.pages := by
      simp only [copied, Os.pageZnalloc]
      split_ifs <;> rfl
    have hlen := mapMultiple_length (copied image s elf start stop) p.ptable (pageDown start) image
      (spanPages start stop * 4096#64).toNat IMAGE_BITS
    rw [(spanPages_bytes start stop).2, copied_pages] at hlen
    rw [heq]
    exact hlen

theorem elfLoad_accepts (h₁ : isElf elf = true) (h₂ : eMachine elf = EM_RISCV)
    (h₃ : eType elf = ET_EXEC) (h₄ : p.ptable ≠ 0#64) (h₅ : p.privilegeMode = .user) {r : Range}
    (h₆ : imageRange program_table_loaded elf = r) (h₇ : r.programTableLoaded = true)
    (h₈ : ¬((pageDown r.vaddrStart < sym.spawnThreadStart ∧
        sym.spawnThreadStart < pageUp r.vaddrEnd) ∨
      (sym.spawnThreadStart < pageDown r.vaddrStart ∧ pageDown r.vaddrStart < sym.spawnTrapEnd))) :
    (elfLoad sym program_table_loaded image s p elf).ret = 0 := by
  unfold elfLoad
  simp only [h₁, h₂, h₃, h₄, h₅, h₆, h₇, Bool.not_true, Bool.false_eq_true, ne_eq, not_true_eq_false,
    if_false]
  rw [if_neg h₈]

/-! ### Copies stay in the image -/

theorem copySize_le (ph : Phdr) : ph.copySize ≤ ph.pMemsz.toNat := by
  unfold Phdr.copySize
  have hlow : (ph.pMemsz.setWidth 32).toNat ≤ ph.pMemsz.toNat := by
    rw [BitVec.toNat_setWidth]
    exact Nat.mod_le _ _
  rw [BitVec.toInt_eq_toNat_cond]
  split_ifs <;> omega

/-- No segment runs past the end of the address space, rounded up to pages. -/
def NoWrap (elf : Mem) : Prop :=
  ∀ ph ∈ loads elf, ph.pVaddr.toNat + ph.pMemsz.toNat + PAGE_SIZE ≤ 2 ^ 64

/-- The span of segments that do not wrap, in whole numbers. -/
structure Span (elf : Mem) (start stop : Word) : Prop where
  inside (ph : Phdr) : ph ∈ loads elf →
    start.toNat ≤ ph.pVaddr.toNat ∧ ph.pVaddr.toNat + ph.pMemsz.toNat ≤ stop.toNat
  pages : (spanPages start stop).toNat =
    (stop.toNat + PAGE_SIZE - 1) / PAGE_SIZE - start.toNat / PAGE_SIZE
  start_eq : (pageDown start).toNat = start.toNat / PAGE_SIZE * PAGE_SIZE
  top : stop.toNat + PAGE_SIZE ≤ 2 ^ 64

theorem span (hw : NoWrap elf) (hstart : IsLeast (starts program_table_loaded elf) start)
    (hstop : IsGreatest (stops program_table_loaded elf) stop) : Span elf start stop := by
  have hsum (ph : Phdr) (hph : ph ∈ loads elf) :
      (ph.pVaddr + ph.pMemsz).toNat = ph.pVaddr.toNat + ph.pMemsz.toNat := by
    have hle := hw ph hph
    rw [BitVec.toNat_add]
    simp only [PAGE_SIZE] at hle
    omega
  have hinside (ph : Phdr) (hph : ph ∈ loads elf) :
      start.toNat ≤ ph.pVaddr.toNat ∧ ph.pVaddr.toNat + ph.pMemsz.toNat ≤ stop.toNat := by
    have hlow := BitVec.le_def.1 (hstart.2 (Or.inr ⟨ph, hph, rfl⟩))
    have hhigh := BitVec.le_def.1 (hstop.2 (Or.inr ⟨ph, hph, rfl⟩))
    rw [hsum ph hph] at hhigh
    exact ⟨hlow, hhigh⟩
  have horder : start.toNat ≤ stop.toNat := by
    rcases hstart.1 with ⟨-, rfl⟩ | ⟨ph, hph, rfl⟩
    · exact Nat.zero_le _
    · have h := (hinside ph hph).2
      omega
  have htop : stop.toNat + PAGE_SIZE ≤ 2 ^ 64 := by
    rcases hstop.1 with ⟨-, rfl⟩ | ⟨ph, hph, rfl⟩
    · decide
    · rw [hsum ph hph]
      exact hw ph hph
  have hdown : (pageDown start).toNat = start.toNat / PAGE_SIZE * PAGE_SIZE := by
    have hlt := start.isLt
    have hle := Nat.div_mul_le_self start.toNat 4096
    unfold pageDown
    rw [BitVec.toNat_mul, BitVec.toNat_udiv]
    change start.toNat / 4096 * 4096 % 2 ^ 64 = start.toNat / 4096 * 4096
    exact Nat.mod_eq_of_lt (by omega)
  have hup : (pageUp stop).toNat = (stop.toNat + PAGE_SIZE - 1) / PAGE_SIZE * PAGE_SIZE := by
    have hround : (stop + 4096#64 - 1#64).toNat = stop.toNat + 4095 := by
      rw [BitVec.toNat_sub, BitVec.toNat_add, BitVec.toNat_ofNat, BitVec.toNat_ofNat]
      simp only [PAGE_SIZE] at htop
      omega
    have hle := Nat.div_mul_le_self (stop.toNat + 4095) 4096
    unfold pageUp
    rw [BitVec.toNat_mul, BitVec.toNat_udiv, hround]
    simp only [PAGE_SIZE] at htop
    change (stop.toNat + 4095) / 4096 * 4096 % 2 ^ 64 = (stop.toNat + 4095) / 4096 * 4096
    exact Nat.mod_eq_of_lt (by omega)
  refine ⟨hinside, ?_, hdown, htop⟩
  have hle := (pageUp stop).isLt
  unfold spanPages
  rw [BitVec.toNat_udiv, BitVec.toNat_sub]
  change (2 ^ 64 - (pageDown start).toNat + (pageUp stop).toNat) % 2 ^ 64 / 4096 = _
  rw [hdown, hup]
  rw [hup] at hle
  simp only [PAGE_SIZE] at hle ⊢
  omega

/-- A segment's copy starts where the segment is in the image. -/
theorem copy_start (hspan : Span elf start stop) {ph : Phdr} (hph : ph ∈ loads elf)
    (himage : image.toNat + PAGE_SIZE * (spanPages start stop).toNat < 2 ^ 64) :
    (image + ph.pVaddr - start).toNat = image.toNat + (ph.pVaddr.toNat - start.toNat) ∧
      ph.pVaddr.toNat - start.toNat + ph.pMemsz.toNat ≤ PAGE_SIZE * (spanPages start stop).toNat := by
  obtain ⟨hlow, hhigh⟩ := hspan.inside ph hph
  have hpages := hspan.pages
  have hv := ph.pVaddr.isLt
  simp only [PAGE_SIZE] at *
  refine ⟨?_, by omega⟩
  rw [BitVec.toNat_sub, BitVec.toNat_add]
  omega

theorem copies_miss {root : Word} (hspan : Span elf start stop) (hr : Rooted root s)
    (hfree : Free s image (askedPages start stop))
    (hpages : (spanPages start stop).toNat ≤ askedPages start stop)
    (himage : image.toNat + PAGE_SIZE * (spanPages start stop).toNat < 2 ^ 64) :
    CopiesMiss s.mem root elf image start := by
  intro ph hph a ha
  obtain ⟨hdest, hin⟩ := copy_start hspan hph himage
  have hsize := copySize_le ph
  have happart := hfree.blocks _ (hr.owned a ha)
  have hmul := Nat.mul_le_mul_left PAGE_SIZE hpages
  rw [hdest]
  simp only [PAGE_SIZE] at *
  omega

/-- The headers of a file with one segment of two bytes, one of them in the file. -/
def sampleHeaders : Mem
  | 0 => 0x7f | 1 => 0x45 | 2 => 0x4c | 3 => 0x46
  | 16 => 2 | 18 => 243 | 32 => 64 | 56 => 1 | 64 => 1 | 96 => 1 | 104 => 2
  | _ => 0

def sampleElf (vaddr : Word) : Mem := blit sampleHeaders 80 8 (leByte vaddr)

def sampleSymbols : Symbols := ⟨0x80000100#64, 0x80000200#64, 0x80000200#64, 0x80000300#64⟩

/-- Forty free pages. -/
def sampleOs : Os :=
  { mem := fun _ => 0
    pages := (List.range 40).map fun i => BitVec.ofNat 64 (0x80101000 + 4096 * i)
    blocks := [] }

theorem sample_page {p : Word} (hp : p ∈ sampleOs.pages) :
    Aligned p ∧ 0x80101000 ≤ p.toNat ∧ p.toNat + 4096 ≤ 0x80200000 := by
  obtain ⟨i, hi, rfl⟩ := List.mem_map.1 hp
  have hlt := List.mem_range.1 hi
  have hi' : (BitVec.ofNat 64 (0x80101000 + 4096 * i)).toNat = 0x80101000 + 4096 * i := by
    rw [BitVec.toNat_ofNat]
    exact Nat.mod_eq_of_lt (by omega)
  unfold Aligned
  rw [hi']
  simp only [PAGE_SIZE]
  omega

theorem sample_available : Available sampleOs := by
  refine ⟨?_, fun p hp => (sample_page hp).1, fun p hp e => ?_, fun p b _ hb => ?_⟩
  · refine (List.nodup_range).map_on fun i hi j hj h => ?_
    have hlt := List.mem_range.1 hi
    have hlt' := List.mem_range.1 hj
    have heq := congrArg BitVec.toNat h
    simp only [BitVec.toNat_ofNat] at heq
    omega
  · have hge := (sample_page hp).2.1
    rw [e] at hge
    exact absurd hge (by decide)
  · exact absurd hb List.not_mem_nil

theorem sample_free : Free sampleOs 0x80200000#64 1 := by
  refine ⟨by decide, fun b hb => absurd hb List.not_mem_nil, fun q hq => Or.inr ?_⟩
  exact (sample_page hq).2.2

/-- The process that the sample loads are for. -/
def sampleProcess : Process × Os := processInitNew sampleSymbols 0#64 .user 0x120000018#64 sampleOs

theorem sample_pages : 20 ≤ sampleProcess.2.pages.length := by
  have hlen := processInitNew_length sampleSymbols 0#64 .user 0x120000018#64 sampleOs
  have hdemand : 2 + 2 * (threadPages sampleSymbols + trapPages sampleSymbols + 1 + 1) = 10 := by
    decide
  have hforty : sampleOs.pages.length = 40 := by decide
  unfold sampleProcess
  omega

theorem sample_initialised : Initialised 0x120000018#64 sampleOs sampleProcess :=
  processInitNew_spec sample_available (List.ne_nil_of_length_pos
    (Nat.lt_of_lt_of_le (by decide) sample_pages))

def sampleSegment (vaddr : Word) : Phdr := ⟨PT_LOAD, 0#64, vaddr, 1#64, 2#64⟩

theorem sample_headers (vaddr : Word) :
    programHeaders (sampleElf vaddr) = [sampleSegment vaddr] := by
  have hload (a : ℕ) (h : a + 8 ≤ 80 ∨ 88 ≤ a) :
      load64 (sampleElf vaddr) a = load64 sampleHeaders a := by
    unfold load64 sampleElf
    rw [load32_blit_disjoint (by omega), load32_blit_disjoint (by omega)]
  have hcount : ePhnum (sampleElf vaddr) = 1#16 := by
    have h := load16_blit_disjoint (m := sampleHeaders) (f := leByte vaddr)
      (show 56 + 2 ≤ 80 ∨ 80 + 8 ≤ 56 by omega)
    exact h.trans (by decide)
  have hoff : ePhoff (sampleElf vaddr) = 64#64 := (hload 32 (by omega)).trans (by decide)
  have htype : load32 (sampleElf vaddr) 64 = PT_LOAD := by
    have h := load32_blit_disjoint (m := sampleHeaders) (f := leByte vaddr)
      (show 64 + 4 ≤ 80 ∨ 80 + 8 ≤ 64 by omega)
    exact h.trans (by decide)
  have hvaddr : load64 (sampleElf vaddr) 80 = vaddr := by
    refine load64_leByte fun i hi => ?_
    unfold sampleElf
    rw [blit_inside (by omega) (by omega), Nat.add_sub_cancel_left]
  have hphdr : phdr (sampleElf vaddr) 0 = sampleSegment vaddr := by
    unfold phdr
    rw [hoff]
    simp only [sampleSegment, Phdr.mk.injEq]
    exact ⟨htype, (hload 72 (by omega)).trans (by decide), hvaddr,
      (hload 96 (by omega)).trans (by decide), (hload 104 (by omega)).trans (by decide)⟩
  unfold programHeaders
  rw [hcount]
  change [phdr (sampleElf vaddr) 0] = _
  rw [hphdr]

theorem sample_range (vaddr : Word) :
    imageRange false (sampleElf vaddr) = ⟨vaddr, vaddr + 2#64, true⟩ := by
  unfold imageRange
  rw [sample_headers]
  rfl

theorem sample_loads (vaddr : Word) : loads (sampleElf vaddr) = [sampleSegment vaddr] := by
  unfold loads
  rw [sample_headers]
  rfl

theorem sample_least (vaddr : Word) : IsLeast (starts false (sampleElf vaddr)) vaddr := by
  refine ⟨Or.inr ⟨sampleSegment vaddr, ?_, rfl⟩, ?_⟩
  · rw [sample_loads]
    exact List.mem_singleton_self _
  · rintro v (⟨h, -⟩ | ⟨ph, hph, rfl⟩)
    · exact absurd h (by decide)
    · rw [sample_loads] at hph
      obtain rfl := List.mem_singleton.1 hph
      exact BitVec.le_refl _

theorem sample_greatest (vaddr : Word) :
    IsGreatest (stops false (sampleElf vaddr)) (vaddr + 2#64) := by
  refine ⟨Or.inr ⟨sampleSegment vaddr, ?_, rfl⟩, ?_⟩
  · rw [sample_loads]
    exact List.mem_singleton_self _
  · rintro v (⟨h, -⟩ | ⟨ph, hph, rfl⟩)
    · exact absurd h (by decide)
    · rw [sample_loads] at hph
      obtain rfl := List.mem_singleton.1 hph
      exact BitVec.le_refl _

theorem sample_noWrap {vaddr : Word} (h : vaddr.toNat + 4098 ≤ 2 ^ 64) :
    NoWrap (sampleElf vaddr) := by
  intro ph hph
  rw [sample_loads] at hph
  obtain rfl := List.mem_singleton.1 hph
  change vaddr.toNat + 2 + 4096 ≤ _
  omega

/-- The sample file is loaded into the page at 0x80200000. -/
theorem sample_run (vaddr : Word) (hwrap : vaddr.toNat + 4098 ≤ 2 ^ 64)
    (hspan : spanPages vaddr (vaddr + 2#64) = 1#64) :
    Run sampleSymbols false 0x80200000#64 sampleProcess.2 sampleProcess.1 (sampleElf vaddr) vaddr
      (vaddr + 2#64) := by
  have hinit := sample_initialised
  obtain ⟨used, htakes, -⟩ := hinit.takes
  have hasked : askedPages vaddr (vaddr + 2#64) = 1 := by
    unfold askedPages
    rw [hspan]
    decide
  have hfree : Free sampleProcess.2 0x80200000#64 (askedPages vaddr (vaddr + 2#64)) := by
    rw [hasked]
    exact sample_free.takes htakes
  refine ⟨sample_least vaddr, sample_greatest vaddr, fun _ => hfree, ?_, ?_⟩
  · refine copies_miss (span (sample_noWrap hwrap) (sample_least vaddr) (sample_greatest vaddr))
      hinit.rooted hfree ?_ ?_
    · rw [hasked, hspan]
      decide
    · rw [hspan]
      decide
  · have hlen := elfLoad_length sampleSymbols 0x80200000#64 sampleProcess.2 sampleProcess.1
      (sample_least vaddr) (sample_greatest vaddr)
    have hpages := sample_pages
    rw [hspan] at hlen
    change _ ≤ _ + 2 * 1 at hlen
    exact List.ne_nil_of_length_pos (by omega)

theorem sample_accepted (image vaddr : Word) (h : ¬((pageDown vaddr < 0x80000100#64 ∧
      0x80000100#64 < pageUp (vaddr + 2#64)) ∨
    (0x80000100#64 < pageDown vaddr ∧ pageDown vaddr < 0x80000300#64))) :
    (elfLoad sampleSymbols false image sampleProcess.2 sampleProcess.1
      (sampleElf vaddr)).ret = 0 := by
  have hmagic : isElf (sampleElf vaddr) = isElf sampleHeaders := by
    unfold isElf sampleElf
    rw [blit_outside (by omega), blit_outside (by omega), blit_outside (by omega),
      blit_outside (by omega)]
  have hmachine : eMachine (sampleElf vaddr) = eMachine sampleHeaders :=
    load16_blit_disjoint (by omega)
  have htype : eType (sampleElf vaddr) = eType sampleHeaders := load16_blit_disjoint (by omega)
  exact elfLoad_accepts (hmagic.trans (by decide)) (hmachine.trans (by decide))
    (htype.trans (by decide)) sample_initialised.ptable_ne sample_initialised.fields.2.1
    (sample_range vaddr) rfl h

/-- Byte `x` is in a page that was handed out. -/
def Live (s : Os) (x : ℕ) : Prop :=
  ∃ b ∈ s.blocks, b.start.toNat ≤ x ∧ x < b.start.toNat + PAGE_SIZE * b.pages

theorem pageFree_keeps {b : Block} {q : Word} (hb : b ∈ s.blocks)
    (h : q.toNat < b.start.toNat ∨ b.start.toNat + PAGE_SIZE * b.pages ≤ q.toNat) :
    b ∈ (s.pageFree q).blocks := by
  refine List.mem_filterMap.2 ⟨b, hb, if_neg ?_⟩
  omega

theorem processFree_keeps {b : Block} (hb : b ∈ s.blocks)
    (h : ∀ q ∈ [p.image, p.stack, p.heap, p.ptable], q ≠ 0#64 →
      q.toNat < b.start.toNat ∨ b.start.toNat + PAGE_SIZE * b.pages ≤ q.toNat) :
    b ∈ (processFree s p).blocks := by
  have hfree {s : Os} {q : Word} (hq : q ∈ [p.image, p.stack, p.heap, p.ptable])
      (hb : b ∈ s.blocks) : b ∈ (if q ≠ 0#64 then s.pageFree q else s).blocks := by
    split_ifs with hne
    · exact pageFree_keeps hb (h q hq hne)
    · exact hb
  unfold processFree
  by_cases hhart : p.onHart ≠ none
  · rw [if_pos hhart]
    exact hb
  · rw [if_neg hhart]
    have himage := hfree (q := p.image) (by simp) hb
    have hstack := hfree (q := p.stack) (by simp) himage
    have hheap := hfree (q := p.heap) (by simp) hstack
    exact hfree (q := p.ptable) (by simp) hheap

theorem pageZnalloc_blocks {b : Block} (n : ℤ) (hb : b ∈ s.blocks) :
    b ∈ (s.pageZnalloc n image).blocks := by
  unfold Os.pageZnalloc
  split_ifs
  · exact hb
  · exact List.mem_cons_of_mem _ hb

/-- What a load, refused or not, leaves of the process and of the pages handed out. -/
theorem elfLoad_keeps (sym : Symbols) (program_table_loaded : Bool) (image : Word) (s : Os)
    (p : Process) (elf : Mem) :
    let l := elfLoad sym program_table_loaded image s p elf
    (l.process.image = p.image ∨ l.process.image = image) ∧ l.process.stack = p.stack ∧
      l.process.heap = p.heap ∧ l.process.ptable = p.ptable ∧
      ∀ b ∈ s.blocks, b ∈ l.os.blocks := by
  unfold elfLoad
  simp only
  split_ifs
  case neg =>
    exact ⟨Or.inr rfl, rfl, rfl, rfl, fun b hb => run_blocks _ (pageZnalloc_blocks _ hb)⟩
  all_goals exact ⟨Or.inl rfl, rfl, rfl, rfl, fun b hb => hb⟩

/-- A table below the root outlives the process, whatever the program. -/
theorem table_kept (program_table_loaded : Bool) (elf : Mem) {kernel_mmu_table frame : Word}
    (hs : Available s)
    (hleft : (processInitNew sym kernel_mmu_table .user frame s).2.pages ≠ [])
    (hfree : image ≠ 0#64 → Free (processInitNew sym kernel_mmu_table .user frame s).2 image 1) :
    let r := processInitNew sym kernel_mmu_table .user frame s
    let l := elfLoad sym program_table_loaded image r.2 r.1 elf
    ∃ x, Live (processFree l.os { l.process with onHart := none }) x ∧ ¬Live s x := by
  intro r l
  have hinit : Initialised frame s r := processInitNew_spec hs hleft
  obtain ⟨used, htakes, hstack, hroot, t, ht, htroot, htstack⟩ := hinit.takes
  obtain ⟨himage', hstack', hheap', hptable', hblocks⟩ :=
    elfLoad_keeps sym program_table_loaded image r.2 r.1 elf
  have hmem {q : Word} (hq : q ∈ used) : q ∈ s.pages := htakes.pages ▸ List.mem_append_left _ hq
  have hblock : (⟨t, 1⟩ : Block) ∈ r.2.blocks := (htakes.blocks _).2 (Or.inl ⟨t, ht, rfl⟩)
  have hmiss {q : Word} (hq : q ∈ used) (hne : t ≠ q) :
      q.toNat < t.toNat ∨ t.toNat + PAGE_SIZE * 1 ≤ q.toNat := by
    have h := misses_of_ne (hs.aligned q (hmem hq)) (hs.aligned t (hmem ht)) (Ne.symm hne)
    unfold Block.Misses at h
    simp only [PAGE_SIZE] at h ⊢
    omega
  have hkept : (⟨t, 1⟩ : Block) ∈ (processFree l.os { l.process with onHart := none }).blocks := by
    refine processFree_keeps (hblocks _ hblock) fun q hq hne => ?_
    simp only [List.mem_cons, List.not_mem_nil, or_false] at hq
    rcases hq with rfl | rfl | rfl | rfl
    · rcases himage' with h | h
      · exact absurd (h.trans hinit.fields.2.2.1) hne
      · have hapart := (hfree (h ▸ hne)).blocks _ hblock
        rw [h]
        simp only [PAGE_SIZE] at hapart ⊢
        omega
    · rw [hstack']
      exact hmiss hstack htstack
    · exact absurd (hheap'.trans hinit.fields.2.2.2) hne
    · rw [hptable']
      exact hmiss hroot htroot
  refine ⟨t.toNat, ⟨_, hkept, Nat.le_refl _, by simp [PAGE_SIZE]⟩, ?_⟩
  rintro ⟨b, hb, hlow, hhigh⟩
  have hout := hs.free t b (hmem ht) hb
  unfold Block.Misses at hout
  simp only [PAGE_SIZE] at hout hhigh
  omega

/-- Loading and freeing a process never gives all of its pages back. -/
theorem tables_not_returned (kernel_mmu_table frame : Word) (hs : Available s)
    (hleft : (processInitNew sym kernel_mmu_table .user frame s).2.pages ≠ [])
    (hfree : image ≠ 0#64 → Free (processInitNew sym kernel_mmu_table .user frame s).2 image 1) :
    let r := processInitNew sym kernel_mmu_table .user frame s
    let l := elfLoad sym program_table_loaded image r.2 r.1 elf
    ¬∀ x, Live (processFree l.os { l.process with onHart := none }) x → Live s x := by
  intro r l h
  have hkept : ∃ x, Live (processFree l.os { l.process with onHart := none }) x ∧ ¬Live s x :=
    table_kept program_table_loaded elf hs hleft hfree
  obtain ⟨x, hlive, hnot⟩ := hkept
  exact hnot (h x hlive)

theorem sample_image_free : Free sampleProcess.2 0x80200000#64 1 := by
  obtain ⟨used, htakes, -⟩ := sample_initialised.takes
  exact sample_free.takes htakes

theorem sample_left : sampleProcess.2.pages ≠ [] :=
  List.ne_nil_of_length_pos (Nat.lt_of_lt_of_le (by decide) sample_pages)

theorem tables_not_returned_low :
    let l := elfLoad sampleSymbols false 0x80200000#64 sampleProcess.2 sampleProcess.1
      (sampleElf 0x10000#64)
    ¬∀ x, Live (processFree l.os { l.process with onHart := none }) x → Live sampleOs x :=
  tables_not_returned 0#64 0x120000018#64 sample_available sample_left fun _ => sample_image_free

/-- A program of one page. -/
theorem low_tables_kept : ¬∀ (sym : Symbols) (program_table_loaded : Bool)
    (kernel_mmu_table frame image : Word) (s : Os) (elf : Mem),
    let r := processInitNew sym kernel_mmu_table .user frame s
    let l := elfLoad sym program_table_loaded image r.2 r.1 elf
    Available s → r.2.pages ≠ [] → (image ≠ 0#64 → Free r.2 image 1) → l.ret = 0 →
      ∀ x, Live (processFree l.os { l.process with onHart := none }) x → Live s x := by
  intro h
  have hkept : ∃ x, Live (processFree _ _) x ∧ ¬Live sampleOs x :=
    table_kept false (sampleElf 0x10000#64) sample_available
      sample_left fun _ => sample_image_free
  obtain ⟨x, hlive, hnot⟩ := hkept
  refine hnot (h sampleSymbols false 0#64 0x120000018#64 0x80200000#64 sampleOs
    (sampleElf 0x10000#64) sample_available sample_left (fun _ => sample_image_free)
    (sample_accepted 0x80200000#64 0x10000#64 (by decide)) x hlive)

/-! ## The bytes of the image -/

def Phdr.Covers (ph : Phdr) (x : ℕ) : Prop :=
  ph.pVaddr.toNat ≤ x ∧ x < ph.pVaddr.toNat + ph.pMemsz.toNat

/-- Segments that share no address. -/
def Phdr.Apart (ph ph' : Phdr) : Prop := ∀ x, ¬(ph.Covers x ∧ ph'.Covers x)

instance : Std.Symm Phdr.Apart := ⟨fun _ _ h x hx => h x hx.symm⟩

/-- What a file of `size` bytes keeps to: the part of a segment that is in the file is in it, and
no two segments meet. -/
structure WellFormed (size : ℕ) (elf : Mem) : Prop where
  filesz_le (ph : Phdr) : ph ∈ loads elf → ph.pFilesz.toNat ≤ ph.pMemsz.toNat
  in_buffer (ph : Phdr) : ph ∈ loads elf → ph.pOffset.toNat + ph.pFilesz.toNat ≤ size
  no_wrap : NoWrap elf
  apart : (loads elf).Pairwise Phdr.Apart

/-- Byte `b` of a segment, as its header has it. -/
def segmentByte (elf : Mem) (ph : Phdr) (b : ℕ) : Byte :=
  if b < ph.pFilesz.toNat then fileByte elf ph b else 0

/-- What the copies put at an address: a byte that follows the segment's offset in the file,
whether it is in the segment's part of the file or not, and 0 between segments. -/
def laidOut (phs : List Phdr) (elf : Mem) (a : ℕ) : Option Byte :=
  (phs.find? fun ph => ph.pVaddr.toNat ≤ a ∧ a < ph.pVaddr.toNat + ph.copySize).map fun ph =>
    fileByte elf ph (a - ph.pVaddr.toNat)

theorem laidOut_none {phs : List Phdr} {a : ℕ} (h : ∀ ph ∈ phs, ¬ph.Covers a) :
    laidOut phs elf a = none := by
  unfold laidOut
  rw [Option.map_eq_none_iff, List.find?_eq_none]
  intro ph hph hc
  have hsize := copySize_le ph
  have hbounds := of_decide_eq_true hc
  exact h ph hph ⟨hbounds.1, by omega⟩

theorem foldl_copy_bytes {phs : List Phdr} {mem : ℕ → Word} {a : ℕ} (ha : start.toNat ≤ a)
    (hstart : ∀ ph ∈ phs.filter (·.pType = PT_LOAD), start.toNat ≤ ph.pVaddr.toNat ∧
      (image + ph.pVaddr - start).toNat = image.toNat + (ph.pVaddr.toNat - start.toNat))
    (hapart : (phs.filter (·.pType = PT_LOAD)).Pairwise Phdr.Apart) :
    bytes (phs.foldl (copySegment elf image start) mem) (image.toNat + (a - start.toNat)) =
      (laidOut (phs.filter (·.pType = PT_LOAD)) elf a).getD
        (bytes mem (image.toNat + (a - start.toNat))) := by
  induction phs generalizing mem with
  | nil => rfl
  | cons ph phs ih =>
    rw [List.foldl_cons]
    by_cases hl : ph.pType = PT_LOAD
    · rw [List.filter_cons_of_pos (by simpa using hl)] at hstart hapart ⊢
      obtain ⟨hph, hrest⟩ := List.pairwise_cons.1 hapart
      obtain ⟨hlow, hdest⟩ := hstart ph List.mem_cons_self
      have hcopy : copySegment elf image start mem ph = writeBytes mem
          (image + ph.pVaddr - start).toNat ph.copySize (fileByte elf ph) := if_pos hl
      rw [ih (fun q hq => hstart q (List.mem_cons_of_mem _ hq)) hrest, hcopy, bytes_writeBytes, hdest]
      have hsize := copySize_le ph
      by_cases hin : ph.pVaddr.toNat ≤ a ∧ a < ph.pVaddr.toNat + ph.copySize
      -- the later segments leave the byte alone
      · rw [laidOut_none fun q hq hc => hph q hq a ⟨⟨hin.1, by omega⟩, hc⟩, Option.getD_none,
          blit_inside (by omega) (by omega)]
        have hfound : laidOut (ph :: phs.filter (·.pType = PT_LOAD)) elf a =
            some (fileByte elf ph (a - ph.pVaddr.toNat)) := by
          unfold laidOut
          rw [List.find?_cons_of_pos (by simpa using hin)]
          rfl
        rw [hfound, Option.getD_some]
        congr 1
        omega
      · have hskip : laidOut (ph :: phs.filter (·.pType = PT_LOAD)) elf a =
            laidOut (phs.filter (·.pType = PT_LOAD)) elf a := by
          unfold laidOut
          rw [List.find?_cons_of_neg (by simpa using hin)]
        rw [hskip, blit_outside (by omega)]
    · rw [List.filter_cons_of_neg (by simpa using hl)] at hstart hapart ⊢
      have hcopy : copySegment elf image start mem ph = mem := if_neg hl
      rw [hcopy, ih hstart hapart]

/-- `page_znalloc` finds the pages of the image, in the memory that three levels of tables reach. -/
structure ImageAvailable (s : Os) (image start stop : Word) : Prop where
  nonzero : image ≠ 0#64
  free : Free s image (max (spanPages start stop).toNat 1)
  bound : image.toNat + PAGE_SIZE * (spanPages start stop).toNat ≤ 2 ^ 39

theorem ImageAvailable.asked (h : ImageAvailable s image start stop) :
    ((spanPages start stop).setWidth 32).toInt.toNat = (spanPages start stop).toNat ∧
      askedPages start stop = max (spanPages start stop).toNat 1 := by
  have hbound := h.bound
  simp only [PAGE_SIZE] at hbound
  have hlow : ((spanPages start stop).setWidth 32).toNat = (spanPages start stop).toNat := by
    rw [BitVec.toNat_setWidth]
    exact Nat.mod_eq_of_lt (by omega)
  have hint : ((spanPages start stop).setWidth 32).toInt.toNat = (spanPages start stop).toNat := by
    rw [BitVec.toInt_eq_toNat_cond, hlow, if_pos (by omega)]
    exact Int.toNat_natCast _
  exact ⟨hint, by unfold askedPages; rw [hint]⟩

theorem ImageAvailable.run (h : ImageAvailable s image start stop) (hw : NoWrap elf)
    (hr : Rooted p.ptable s) (hstart : IsLeast (starts program_table_loaded elf) start)
    (hstop : IsGreatest (stops program_table_loaded elf) stop)
    (hleft : (elfLoad sym program_table_loaded image s p elf).os.pages ≠ []) :
    Run sym program_table_loaded image s p elf start stop := by
  have hfree : Free s image (askedPages start stop) := h.asked.2 ▸ h.free
  have hbound := h.bound
  refine ⟨hstart, hstop, fun _ => hfree, ?_, hleft⟩
  refine copies_miss (span hw hstart hstop) hr hfree ?_ (by omega)
  rw [h.asked.2]
  exact le_max_left _ _

theorem zeroed_byte (hne : image ≠ 0#64) (hal : Aligned image) (s : Os) (n : ℤ) {x : ℕ}
    (hx : x < PAGE_SIZE * max n.toNat 1) :
    bytes (s.pageZnalloc n image).mem (image.toNat + x) = 0 := by
  have hword : (s.pageZnalloc n image).mem (8 * ((image.toNat + x) / 8)) = 0 := by
    unfold Os.pageZnalloc
    rw [if_neg hne]
    apply if_pos
    unfold Aligned at hal
    simp only [PAGE_SIZE] at hal hx ⊢
    omega
  unfold bytes
  rw [hword, leByte_eq_iff]
  intro j _
  simp

/-- A byte of the image as it is mapped is the one that the copies put there. -/
theorem copied_byte (h : ImageAvailable s image start stop) (hw : WellFormed size elf)
    (hspan : Span elf start stop) {a : ℕ} (ha : start.toNat ≤ a)
    (hlt : a - start.toNat < PAGE_SIZE * (spanPages start stop).toNat) :
    bytes (copied image s elf start stop).mem (image.toNat + (a - start.toNat)) =
      (laidOut (loads elf) elf a).getD 0 := by
  have hbound := h.bound
  have hzero : bytes (s.pageZnalloc ((spanPages start stop).setWidth 32).toInt image).mem
      (image.toNat + (a - start.toNat)) = 0 := by
    refine zeroed_byte h.nonzero h.free.aligned s _ ?_
    rw [h.asked.1]
    exact hlt.trans_le (Nat.mul_le_mul_left _ (le_max_left _ _))
  refine (foldl_copy_bytes ha (fun ph hph => ⟨(hspan.inside ph hph).1,
    (copy_start hspan hph (by omega)).1⟩) hw.apart).trans ?_
  rw [hzero]
  rfl

theorem loaded_byte (h : ImageAvailable s image start stop) (hw : WellFormed size elf)
    (hr : Rooted p.ptable s) (hrun : Run sym program_table_loaded image s p elf start stop)
    (hret : (elfLoad sym program_table_loaded image s p elf).ret = 0) {ph : Phdr}
    (hph : ph ∈ loads elf) {b : ℕ} (hb : b < ph.pMemsz.toNat) :
    let l := elfLoad sym program_table_loaded image s p elf
    bytes l.os.mem (mmuTranslate l.os.mem l.process.ptable (ph.pVaddr + BitVec.ofNat 64 b)).toNat =
      (laidOut (loads elf) elf (ph.pVaddr.toNat + b + start.toNat % PAGE_SIZE)).getD 0 := by
  intro l
  have hspan := span hw.no_wrap hrun.least hrun.greatest
  obtain ⟨hptable, hroot, hmaps, used, htakes, huses⟩ := hrun.maps hr hret
  obtain ⟨hlow, hhigh⟩ := hspan.inside ph hph
  have hpages := hspan.pages
  have hbound := h.bound
  have htop := hspan.top
  set n := (spanPages start stop).toNat
  have hv : (ph.pVaddr + BitVec.ofNat 64 b).toNat = ph.pVaddr.toNat + b := by
    rw [BitVec.toNat_add, BitVec.toNat_ofNat]
    omega
  set v := ph.pVaddr + BitVec.ofNat 64 b
  have hpage {i : ℕ} (hi : i < n) :
      (pageDown start + BitVec.ofNat 64 (PAGE_SIZE * i)).toNat / PAGE_SIZE
        = start.toNat / PAGE_SIZE + i := by
    rw [BitVec.toNat_add, BitVec.toNat_ofNat, hspan.start_eq]
    simp only [PAGE_SIZE] at *
    omega
  -- the leaf of the address is that of its page in the image
  obtain ⟨i, hi, hiv, hleaf⟩ : ∃ i < n, v.toNat / PAGE_SIZE = start.toNat / PAGE_SIZE + i ∧
      leafEntry l.os.mem p.ptable v =
        leafBits (image + BitVec.ofNat 64 (PAGE_SIZE * i)) (IMAGE_BITS ||| PTEB_VALID) := by
    rcases hmaps.leaf v with ⟨i, -, hi, hsame, hleaf⟩ | ⟨hnone, -⟩
    · have hi : i < n := by omega
      refine ⟨i, hi, ?_, hleaf⟩
      unfold SamePage at hsame
      rw [hpage hi] at hsame
      simp only [PAGE_SIZE] at *
      omega
    · have hj : v.toNat / PAGE_SIZE - start.toNat / PAGE_SIZE < n := by
        simp only [PAGE_SIZE] at *
        omega
      refine absurd ?_ (hnone (v.toNat / PAGE_SIZE - start.toNat / PAGE_SIZE) (Nat.zero_le _) (by omega))
      unfold SamePage
      rw [hpage hj]
      congr 1
      simp only [PAGE_SIZE] at *
      omega
  have hpaddr : (image + BitVec.ofNat 64 (PAGE_SIZE * i)).toNat = image.toNat + PAGE_SIZE * i := by
    rw [BitVec.toNat_add, BitVec.toNat_ofNat]
    simp only [PAGE_SIZE] at *
    omega
  have hal := h.free.aligned
  have htranslate : (mmuTranslate l.os.mem l.process.ptable v).toNat =
      image.toNat + (ph.pVaddr.toNat + b + start.toNat % PAGE_SIZE - start.toNat) := by
    have hsmall : (image + BitVec.ofNat 64 (PAGE_SIZE * i)).toNat < 2 ^ 56 := by
      rw [hpaddr]
      simp only [PAGE_SIZE] at *
      omega
    have htable : mmuTranslate l.os.mem l.process.ptable v = mmuTranslate l.os.mem p.ptable v := by
      rw [hptable]
    rw [htable, hroot.tree.translate_eq, hleaf, translateEntry_leafBits hsmall (by decide)
      (by decide), hpaddr]
    unfold Aligned at hal
    simp only [PAGE_SIZE] at *
    omega
  have hlt : ph.pVaddr.toNat + b + start.toNat % PAGE_SIZE - start.toNat < PAGE_SIZE * n := by
    simp only [PAGE_SIZE] at *
    omega
  rw [htranslate, ← copied_byte h hw hspan (by omega) hlt]
  -- mapping the image writes none of its words
  refine bytes_congr (huses.frame _ fun a ha => ?_)
  have happart : image.toNat + PAGE_SIZE * max n 1 ≤ a.toNat ∨ a.toNat + PAGE_SIZE ≤ image.toNat := by
    rcases (huses.inTree a).1 ha with hu | hold
    · refine h.free.supply a ?_
      rw [← copied_pages image s elf start stop, htakes.pages]
      exact List.mem_append_left _ hu
    · have hblock := hr.owned a ((copied_rooted hr hrun.free hrun.copies).2.2 a hold)
      have hout := h.free.blocks _ hblock
      simpa using hout
  unfold Outside
  unfold Aligned at hal
  simp only [PAGE_SIZE] at *
  omega

/-- A segment's own bytes are laid out at its addresses. -/
theorem laidOut_own (hw : WellFormed size elf) {ph : Phdr} (hph : ph ∈ loads elf) {b : ℕ}
    (hb : b < ph.copySize) :
    laidOut (loads elf) elf (ph.pVaddr.toNat + b) = some (fileByte elf ph b) := by
  unfold laidOut
  cases hfind : (loads elf).find? (fun q => q.pVaddr.toNat ≤ ph.pVaddr.toNat + b ∧
      ph.pVaddr.toNat + b < q.pVaddr.toNat + q.copySize) with
  | none =>
    have hno := List.find?_eq_none.1 hfind ph hph
    simp only [decide_eq_true_eq, Nat.le_add_right, true_and] at hno
    omega
  | some q =>
    have hmem := List.mem_of_find?_eq_some hfind
    have hq := List.find?_some hfind
    simp only [decide_eq_true_eq] at hq
    have hsize := copySize_le ph
    have hsize' := copySize_le q
    have hsame : q = ph := by
      by_contra hne
      refine hw.apart.forall hmem hph hne (ph.pVaddr.toNat + b) ⟨⟨hq.1, ?_⟩, ?_, ?_⟩ <;> omega
    rw [hsame, Option.map_some, Nat.add_sub_cancel_left]

/-- With the lowest segment at the start of a page, only what follows a segment's part of the file
can be wrong. -/
theorem laidOut_right_iff (hw : WellFormed size elf) (hd : start.toNat % PAGE_SIZE = 0)
    (hint : ∀ ph ∈ loads elf, ph.copySize = ph.pMemsz.toNat) :
    (∀ ph ∈ loads elf, ∀ b < ph.pMemsz.toNat,
        (laidOut (loads elf) elf (ph.pVaddr.toNat + b + start.toNat % PAGE_SIZE)).getD 0 =
          segmentByte elf ph b) ↔
      ∀ ph ∈ loads elf, ∀ b < ph.pMemsz.toNat, ph.pFilesz.toNat ≤ b → fileByte elf ph b = 0 := by
  have hown {ph : Phdr} (hph : ph ∈ loads elf) {b : ℕ} (hb : b < ph.pMemsz.toNat) :
      (laidOut (loads elf) elf (ph.pVaddr.toNat + b + start.toNat % PAGE_SIZE)).getD 0 =
        fileByte elf ph b := by
    rw [hd, Nat.add_zero, laidOut_own hw hph (by rw [hint ph hph]; exact hb), Option.getD_some]
  constructor
  · intro h ph hph b hb hge
    have hbyte := h ph hph b hb
    rw [hown hph hb] at hbyte
    unfold segmentByte at hbyte
    rw [if_neg (by omega)] at hbyte
    exact hbyte
  · intro h ph hph b hb
    rw [hown hph hb]
    unfold segmentByte
    split_ifs with hlt
    · rfl
    · exact h ph hph b hb (by omega)

/-- A program is loaded right exactly if every byte of its segments is the one that the copies put
as far above it as the lowest segment is above the start of its page. -/
theorem loaded_right_iff (kernel_mmu_table frame : Word) (hs : Available s)
    (hw : WellFormed size elf) (hstart : IsLeast (starts program_table_loaded elf) start)
    (hstop : IsGreatest (stops program_table_loaded elf) stop)
    (himage : ImageAvailable (processInitNew sym kernel_mmu_table .user frame s).2 image start stop)
    (hleft : (elfLoad sym program_table_loaded image
      (processInitNew sym kernel_mmu_table .user frame s).2
      (processInitNew sym kernel_mmu_table .user frame s).1 elf).os.pages ≠ []) :
    let r := processInitNew sym kernel_mmu_table .user frame s
    let l := elfLoad sym program_table_loaded image r.2 r.1 elf
    l.ret = 0 →
      ((∀ ph ∈ loads elf, ∀ b < ph.pMemsz.toNat,
        bytes l.os.mem
          (mmuTranslate l.os.mem l.process.ptable (ph.pVaddr + BitVec.ofNat 64 b)).toNat =
          segmentByte elf ph b) ↔
      ∀ ph ∈ loads elf, ∀ b < ph.pMemsz.toNat,
        (laidOut (loads elf) elf (ph.pVaddr.toNat + b + start.toNat % PAGE_SIZE)).getD 0 =
          segmentByte elf ph b) := by
  intro r l hret
  have hr : Rooted r.1.ptable r.2 := (processInitNew_spec hs (elfLoad_left hleft)).rooted
  have hrun := himage.run hw.no_wrap hr hstart hstop hleft
  have hbyte {ph : Phdr} (hph : ph ∈ loads elf) {b : ℕ} (hb : b < ph.pMemsz.toNat) :=
    loaded_byte himage hw hr hrun hret hph hb
  constructor
  · intro h ph hph b hb
    rw [← hbyte hph hb]
    exact h ph hph b hb
  · intro h ph hph b hb
    rw [hbyte hph hb]
    exact h ph hph b hb

theorem sample_wellFormed : WellFormed 120 (sampleElf 0x10000#64) := by
  have hone {ph : Phdr} (hph : ph ∈ loads (sampleElf 0x10000#64)) :
      ph = sampleSegment 0x10000#64 := by
    rw [sample_loads] at hph
    exact List.mem_singleton.1 hph
  refine ⟨fun ph hph => ?_, fun ph hph => ?_, sample_noWrap (by decide), ?_⟩
  · rw [hone hph]
    decide
  · rw [hone hph]
    decide
  · rw [sample_loads]
    exact List.pairwise_singleton _ _

theorem sample_imageAvailable :
    ImageAvailable sampleProcess.2 0x80200000#64 0x10000#64 (0x10000#64 + 2#64) :=
  ⟨by decide, sample_image_free, by decide⟩

theorem loaded_right_iff_low :
    let l := elfLoad sampleSymbols false 0x80200000#64 sampleProcess.2 sampleProcess.1
      (sampleElf 0x10000#64)
    (∀ ph ∈ loads (sampleElf 0x10000#64), ∀ b < ph.pMemsz.toNat,
        bytes l.os.mem
          (mmuTranslate l.os.mem l.process.ptable (ph.pVaddr + BitVec.ofNat 64 b)).toNat =
          segmentByte (sampleElf 0x10000#64) ph b) ↔
      ∀ ph ∈ loads (sampleElf 0x10000#64), ∀ b < ph.pMemsz.toNat,
        (laidOut (loads (sampleElf 0x10000#64)) (sampleElf 0x10000#64)
          (ph.pVaddr.toNat + b + (0x10000#64).toNat % PAGE_SIZE)).getD 0 =
          segmentByte (sampleElf 0x10000#64) ph b :=
  loaded_right_iff 0#64 0x120000018#64 sample_available sample_wellFormed
    (sample_least 0x10000#64) (sample_greatest 0x10000#64) sample_imageAvailable
    (sample_run 0x10000#64 (by decide) (by decide)).left (sample_accepted 0x80200000#64 0x10000#64 (by decide))

/-- The sample's second byte is not in the file, and the copy takes the next one there. -/
theorem second_byte_not_zero : ¬∀ (sym : Symbols) (program_table_loaded : Bool)
    (kernel_mmu_table frame image start stop : Word) (s : Os) (elf : Mem) (size : ℕ),
    let r := processInitNew sym kernel_mmu_table .user frame s
    let l := elfLoad sym program_table_loaded image r.2 r.1 elf
    Available s → WellFormed size elf → IsLeast (starts program_table_loaded elf) start →
      IsGreatest (stops program_table_loaded elf) stop → ImageAvailable r.2 image start stop →
      l.os.pages ≠ [] → l.ret = 0 →
      ∀ ph ∈ loads elf, ∀ b < ph.pMemsz.toNat,
        bytes l.os.mem
          (mmuTranslate l.os.mem l.process.ptable (ph.pVaddr + BitVec.ofNat 64 b)).toNat =
          segmentByte elf ph b := by
  intro h
  have hrun := sample_run 0x10000#64 (by decide) (by decide)
  have hret := sample_accepted 0x80200000#64 0x10000#64 (by decide)
  have hph : sampleSegment 0x10000#64 ∈ loads (sampleElf 0x10000#64) := by
    rw [sample_loads]
    exact List.mem_singleton_self _
  have hzero := h sampleSymbols false 0#64 0x120000018#64 0x80200000#64 _ _ sampleOs
    (sampleElf 0x10000#64) 120 sample_available sample_wellFormed (sample_least 0x10000#64)
    (sample_greatest 0x10000#64) sample_imageAvailable hrun.left hret _ hph 1 (by decide)
  have hbyte := loaded_byte sample_imageAvailable sample_wellFormed sample_initialised.rooted hrun
    hret hph (show 1 < 2 by decide)
  have hlaid := laidOut_own sample_wellFormed hph (show 1 < (sampleSegment 0x10000#64).copySize by
    decide)
  have hfile : fileByte (sampleElf 0x10000#64) (sampleSegment 0x10000#64) 1 = 0x45#8 := by decide
  have hpage : (0x10000#64).toNat % PAGE_SIZE = 0 := by decide
  rw [hpage, Nat.add_zero, hlaid, hfile] at hbyte
  exact absurd (hbyte.symm.trans hzero) (by decide)

end ElfLoader
