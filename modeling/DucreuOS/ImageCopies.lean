import DucreuOS.ElfLoader

/-! # Where a load writes

The headers are read as they come: sums of addresses wrap, the page count is narrowed to an `int`,
and nothing looks at what `page_znalloc` returns. -/
namespace ElfLoader

open ByteMemory PageTable UserProcess

/-- One `memcpy` of the second loop. -/
structure Copy where
  dest : Word
  src : Word
  size : ℕ

def segmentCopy (image vaddr_start : Word) (ph : Phdr) : Copy :=
  ⟨image + ph.pVaddr - vaddr_start, ph.pOffset, ph.copySize⟩

def memcpy (elf : Mem) (mem : ℕ → Word) (c : Copy) : ℕ → Word :=
  writeBytes mem c.dest.toNat c.size fun b => elf (c.src + BitVec.ofNat 64 b).toNat

def copies (program_table_loaded : Bool) (image : Word) (elf : Mem) : List Copy :=
  (loads elf).map (segmentCopy image (imageRange program_table_loaded elf).vaddrStart)

/-- All bytes of the copy go to these pages. -/
def Copy.Inside (c : Copy) (start : Word) (pages : ℕ) : Prop :=
  start.toNat ≤ c.dest.toNat ∧ c.dest.toNat + c.size ≤ start.toNat + PAGE_SIZE * pages

/-- The block that `page_znalloc` hands out if it returns `image`. -/
def imageBlock (image start stop : Word) : Option Block :=
  if image = 0#64 then none else some ⟨image, askedPages start stop⟩

/-- The load gives up, and changes nothing. -/
def GivesUp (s : Os) (p : Process) (l : Loaded) : Prop :=
  l.ret ≠ 0 ∧ l.process = p ∧ l.os = s

/-- The load has pages of its own, and copies only into those that it records for the process. -/
def Contained (program_table_loaded : Bool) (image : Word) (elf : Mem) (l : Loaded) : Prop :=
  let r := imageRange program_table_loaded elf
  l.ret = 0 ∧ ∃ b ∈ imageBlock image r.vaddrStart r.vaddrEnd, b ∈ l.os.blocks ∧
    l.process.image = b.start ∧ ∀ c ∈ copies program_table_loaded image elf, 0 < c.size →
      c.Inside l.process.image l.process.numImagePages.toNat ∧ c.Inside b.start b.pages

/-- One of the checks fails. -/
def Refused (sym : Symbols) (program_table_loaded : Bool) (p : Process) (elf : Mem) : Prop :=
  let r := imageRange program_table_loaded elf
  isElf elf = false ∨ eMachine elf ≠ EM_RISCV ∨ eType elf ≠ ET_EXEC ∨ p.ptable = 0#64 ∨
    p.privilegeMode ≠ .user ∨ r.programTableLoaded = false ∨
    (pageDown r.vaddrStart < sym.spawnThreadStart ∧ sym.spawnThreadStart < pageUp r.vaddrEnd) ∨
    (sym.spawnThreadStart < pageDown r.vaddrStart ∧ pageDown r.vaddrStart < sym.spawnTrapEnd)

/-- From the lowest address on there are as many pages as a segment with bytes to copy needs, both
in the span of the segments and in its `int`. -/
def SegmentsFit (elf : Mem) (start stop : Word) : Prop :=
  ∀ ph ∈ loads elf, 0 < ph.copySize → ph.pVaddr.toNat + ph.copySize ≤
    start.toNat + PAGE_SIZE * min (spanPages start stop).toNat (askedPages start stop)

variable {sym : Symbols} {program_table_loaded : Bool} {image start stop : Word} {s : Os}
  {p : Process} {elf : Mem}

theorem foldl_copySegment (phs : List Phdr) (mem : ℕ → Word) :
    phs.foldl (copySegment elf image start) mem =
      ((phs.filter (·.pType = PT_LOAD)).map (segmentCopy image start)).foldl (memcpy elf) mem := by
  induction phs generalizing mem with
  | nil => rfl
  | cons ph phs ih =>
    rw [List.foldl_cons, ih, copySegment]
    by_cases hl : ph.pType = PT_LOAD
    · rw [if_pos hl, List.filter_cons_of_pos (by simpa using hl)]
      rfl
    · rw [if_neg hl, List.filter_cons_of_neg (by simpa using hl)]

/-- These are the copies the second loop makes, in order. -/
theorem copied_copies (s : Os) (stop : Word) :
    (copied image s elf (imageRange program_table_loaded elf).vaddrStart stop).mem =
      (copies program_table_loaded image elf).foldl (memcpy elf)
        (s.pageZnalloc ((spanPages (imageRange program_table_loaded elf).vaddrStart
          stop).setWidth 32).toInt image).mem :=
  foldl_copySegment _ _

/-! ## The checks -/

theorem refused_ret (h : Refused sym program_table_loaded p elf) :
    GivesUp s p (elfLoad sym program_table_loaded image s p elf) := by
  simp only [elfLoad]
  split_ifs with h₁ h₂ h₃ h₄ h₅ h₆ h₇
  case neg =>
    exfalso
    simp only [Bool.not_eq_true', Bool.not_eq_false] at h₁ h₆
    obtain h | h | h | h | h | h | h := h
    · rw [h₁] at h
      cases h
    · exact h₂ h
    · exact h₃ h
    · exact h₄ h
    · exact h₅ h
    · rw [h₆] at h
      cases h
    · exact h₇ h
  all_goals exact ⟨Nat.succ_ne_zero _, rfl, rfl⟩

/-- Otherwise the program is loaded. -/
theorem accepted_eq (image : Word) (s : Os) (h : ¬ Refused sym program_table_loaded p elf) :
    let r := imageRange program_table_loaded elf
    elfLoad sym program_table_loaded image s p elf =
      ⟨0, { p with
          sepc := eEntry elf
          numImagePages := spanPages r.vaddrStart r.vaddrEnd
          image := image },
        (copied image s elf r.vaddrStart r.vaddrEnd).mapMultiple p.ptable (pageDown r.vaddrStart)
          image (spanPages r.vaddrStart r.vaddrEnd * 4096#64).toNat IMAGE_BITS⟩ := by
  intro r
  simp only [Refused, not_or, not_not] at h
  obtain ⟨h₁, h₂, h₃, h₄, h₅, h₆, h₇⟩ := h
  have hloaded : r.programTableLoaded = true := Bool.eq_true_of_not_eq_false h₆
  obtain ⟨hfirst, hlast⟩ := imageRange_spec hloaded
  have hret : (elfLoad sym program_table_loaded image s p elf).ret = 0 :=
    elfLoad_accepts (Bool.eq_true_of_not_eq_false h₁) h₂ h₃ h₄ h₅ rfl hloaded (not_or.2 h₇)
  rcases elfLoad_refused_or_loaded sym image s p hfirst hlast with ⟨hne, -⟩ | heq
  · exact absurd hret hne
  · exact heq

/-- The loaded process owns the block, if there is one. -/
theorem imageBlock_owned (h : ¬ Refused sym program_table_loaded p elf) {b : Block}
    (hb : b ∈ imageBlock image (imageRange program_table_loaded elf).vaddrStart
      (imageRange program_table_loaded elf).vaddrEnd) :
    b ∈ (elfLoad sym program_table_loaded image s p elf).os.blocks := by
  rw [accepted_eq image s h]
  unfold imageBlock at hb
  split_ifs at hb with h0
  · cases hb
  · obtain rfl := Option.some.inj hb
    refine List.mem_append_right _ ?_
    simp only [copied, Os.pageZnalloc, if_neg h0]
    exact List.mem_cons_self

/-! ## The copies -/

/-- No segment starts below the range. -/
theorem start_le (h : (imageRange program_table_loaded elf).programTableLoaded = true) {ph : Phdr}
    (hph : ph ∈ loads elf) :
    (imageRange program_table_loaded elf).vaddrStart.toNat ≤ ph.pVaddr.toNat :=
  BitVec.le_def.1 ((imageRange_spec h).1.2 (Or.inr ⟨ph, hph, rfl⟩))

/-- A copy is inside as many pages from the image on as the segment needs from the lowest address
on; a destination that wraps lies below the image. -/
theorem inside_iff {ph : Phdr} {pages : ℕ} (hle : start.toNat ≤ ph.pVaddr.toNat)
    (hpos : 0 < ph.copySize) (htop : image.toNat + PAGE_SIZE * pages ≤ 2 ^ 64) :
    (segmentCopy image start ph).Inside image pages ↔
      ph.pVaddr.toNat + ph.copySize ≤ start.toNat + PAGE_SIZE * pages := by
  have hdest : (segmentCopy image start ph).dest.toNat =
      (image.toNat + (ph.pVaddr.toNat - start.toNat)) % 2 ^ 64 := by
    change (image + ph.pVaddr - start).toNat = _
    rw [BitVec.toNat_sub, BitVec.toNat_add]
    omega
  have himage := image.isLt
  have hv := ph.pVaddr.isLt
  simp only [Copy.Inside]
  rw [hdest]
  change _ ≤ _ ∧ _ + ph.copySize ≤ _ ↔ _
  generalize PAGE_SIZE * pages = n at *
  generalize ph.copySize = c at *
  constructor
  · rintro ⟨hlow, hhigh⟩
    omega
  · intro hfit
    omega

theorem Copy.inside_min {c : Copy} {a b : ℕ} :
    c.Inside image (min a b) ↔ c.Inside image a ∧ c.Inside image b := by
  simp only [Copy.Inside, PAGE_SIZE]
  omega

/-- For every file, process and supply of pages, and whatever the flag was: the load gives up or
keeps its copies in pages of its own, if and only if a check fails, or `page_znalloc` finds pages
and the segments fit in them. -/
theorem image_contained_iff (sym : Symbols) (program_table_loaded : Bool) (image : Word) (s : Os)
    (p : Process) (elf : Mem)
    (hram : image ≠ 0#64 → image.toNat + PAGE_SIZE * askedPages
      (imageRange program_table_loaded elf).vaddrStart
      (imageRange program_table_loaded elf).vaddrEnd ≤ 2 ^ 64) :
    let r := imageRange program_table_loaded elf
    let l := elfLoad sym program_table_loaded image s p elf
    GivesUp s p l ∨ Contained program_table_loaded image elf l ↔
      Refused sym program_table_loaded p elf ∨
        image ≠ 0#64 ∧ SegmentsFit elf r.vaddrStart r.vaddrEnd := by
  intro r l
  by_cases href : Refused sym program_table_loaded p elf
  · exact ⟨fun _ => Or.inl href, fun _ => Or.inl (refused_ret href)⟩
  have hl := accepted_eq image s href
  have hret : l.ret = 0 := congrArg Loaded.ret hl
  have himage : l.process.image = image := congrArg (fun l => l.process.image) hl
  have hpages : l.process.numImagePages = spanPages r.vaddrStart r.vaddrEnd :=
    congrArg (fun l => l.process.numImagePages) hl
  have hloaded : r.programTableLoaded = true := by
    simp only [Refused, not_or] at href
    exact Bool.eq_true_of_not_eq_false href.2.2.2.2.2.1
  have hcopy (hne : image ≠ 0#64) {ph : Phdr} (hph : ph ∈ loads elf) (hpos : 0 < ph.copySize) :
      (segmentCopy image r.vaddrStart ph).Inside image (spanPages r.vaddrStart r.vaddrEnd).toNat ∧
        (segmentCopy image r.vaddrStart ph).Inside image (askedPages r.vaddrStart r.vaddrEnd) ↔
      ph.pVaddr.toNat + ph.copySize ≤ r.vaddrStart.toNat + PAGE_SIZE *
        min (spanPages r.vaddrStart r.vaddrEnd).toNat (askedPages r.vaddrStart r.vaddrEnd) := by
    rw [← Copy.inside_min]
    refine inside_iff (start_le hloaded hph) hpos (Nat.le_trans ?_ (hram hne))
    exact Nat.add_le_add_left (Nat.mul_le_mul_left _ (Nat.min_le_right _ _)) _
  constructor
  · rintro (⟨hne, -⟩ | ⟨-, b, hb, -, -, hinside⟩)
    · exact absurd hret hne
    · right
      unfold imageBlock at hb
      split_ifs at hb with h0
      · cases hb
      · obtain rfl := Option.some.inj hb
        refine ⟨h0, fun ph hph hpos => (hcopy h0 hph hpos).1 ?_⟩
        have hin := hinside _ (List.mem_map_of_mem hph) hpos
        rwa [himage, hpages] at hin
  · rintro (hr | ⟨h0, hfit⟩)
    · exact absurd hr href
    · right
      have hb : ⟨image, askedPages r.vaddrStart r.vaddrEnd⟩ ∈
          imageBlock image r.vaddrStart r.vaddrEnd := if_neg h0
      refine ⟨hret, _, hb, imageBlock_owned href hb, himage, fun c hc hpos => ?_⟩
      obtain ⟨ph, hph, rfl⟩ := List.mem_map.1 hc
      rw [himage, hpages]
      exact (hcopy h0 hph hpos).2 (hfit ph hph hpos)

/-- Segments fit if their addresses do not wrap and their pages are an `int`. -/
theorem segmentsFit_of_noWrap (hw : NoWrap elf)
    (hstart : IsLeast (starts program_table_loaded elf) start)
    (hstop : IsGreatest (stops program_table_loaded elf) stop)
    (hint : (spanPages start stop).toNat < 2 ^ 31) : SegmentsFit elf start stop := by
  intro ph hph hpos
  have hspan := span hw hstart hstop
  obtain ⟨hlow, hhigh⟩ := hspan.inside ph hph
  have hsize := copySize_le ph
  have hpages := hspan.pages
  have hasked : (spanPages start stop).toNat ≤ askedPages start stop := by
    simp only [askedPages]
    rw [BitVec.toInt_eq_toNat_cond, BitVec.toNat_setWidth]
    split_ifs <;> omega
  rw [Nat.min_eq_left hasked, hpages]
  simp only [PAGE_SIZE]
  omega

/-- The sample, with a page for it. -/
theorem image_contained_iff_low :
    Contained false 0x80200000#64 (sampleElf 0x10000#64)
      (elfLoad sampleSymbols false 0x80200000#64 sampleProcess.2 sampleProcess.1
        (sampleElf 0x10000#64)) := by
  have hspan : spanPages 0x10000#64 (0x10000#64 + 2#64) = 1#64 := by decide
  have hfit : SegmentsFit (sampleElf 0x10000#64) 0x10000#64 (0x10000#64 + 2#64) :=
    segmentsFit_of_noWrap (sample_noWrap (by decide)) (sample_least _) (sample_greatest _)
      (by rw [hspan]; decide)
  have hiff := image_contained_iff sampleSymbols false 0x80200000#64 sampleProcess.2
    sampleProcess.1 (sampleElf 0x10000#64) (fun _ => by
      rw [sample_range, askedPages, hspan]
      decide)
  have hret := sample_accepted 0x80200000#64 0x10000#64 (by decide)
  rw [sample_range] at hiff
  rcases hiff.2 (Or.inr ⟨by decide, hfit⟩) with hgives | hcontained
  · exact absurd hret hgives.1
  · exact hcontained

/-- Without a page for it, the sample is copied to address 0. -/
theorem sample_copied_to_null : ¬ ∀ (sym : Symbols) (program_table_loaded : Bool) (image : Word)
    (s : Os) (p : Process) (elf : Mem), (image ≠ 0#64 → image.toNat + PAGE_SIZE * askedPages
      (imageRange program_table_loaded elf).vaddrStart
      (imageRange program_table_loaded elf).vaddrEnd ≤ 2 ^ 64) →
    let l := elfLoad sym program_table_loaded image s p elf
    GivesUp s p l ∨ Contained program_table_loaded image elf l := by
  intro hall
  rcases hall sampleSymbols false 0#64 sampleProcess.2 sampleProcess.1 (sampleElf 0x10000#64)
    (fun h => absurd rfl h) with hgives | ⟨-, b, hb, -⟩
  · exact hgives.1 (sample_accepted 0#64 0x10000#64 (by decide))
  · cases hb

end ElfLoader
