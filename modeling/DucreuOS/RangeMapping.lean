import DucreuOS.PageTable

/-! # Mapping a range

`mmu_map_multiple` counts the bytes from the start of the range in steps of a page, while each
step maps the whole page around its address. The walk uses 39 bits of a virtual address, so pages
are the same here modulo `2 ^ 39`. -/
namespace PageTable

/-- The range touches the page of `v`. -/
def Touched (start : Word) (bytes : ℕ) (v : Word) : Prop :=
  ∃ o < bytes, SamePage v (start + BitVec.ofNat 64 o)

structure MapsRange (mem mem' : ℕ → Word) (root start_vaddr start_paddr : Word) (bytes : ℕ) :
    Prop where
  mapped (o : ℕ) : o < bytes → mmuTranslate mem' root (start_vaddr + BitVec.ofNat 64 o) =
    start_paddr + BitVec.ofNat 64 o
  others (v : Word) : ¬Touched start_vaddr bytes v →
    mmuTranslate mem' root v = mmuTranslate mem root v

/-- The steps of the loop. -/
def steps (bytes : ℕ) : ℕ := (bytes + PAGE_SIZE - 1) / PAGE_SIZE

/-- The physical addresses exist, no two pages of the range share an entry, and the range reaches
no page after those that the loop maps, or that page was mapped right before. -/
structure Covered (mem : ℕ → Word) (root start_vaddr start_paddr : Word) (bytes : ℕ) : Prop where
  physical : start_paddr.toNat + bytes ≤ 2 ^ 56
  distinct : start_vaddr.toNat % PAGE_SIZE + bytes ≤ PAGE_SIZE * 2 ^ 27
  last : start_vaddr.toNat % PAGE_SIZE + bytes ≤ PAGE_SIZE * steps bytes ∨
    ∀ o < bytes, PAGE_SIZE * steps bytes ≤ start_vaddr.toNat % PAGE_SIZE + o →
      mmuTranslate mem root (start_vaddr + BitVec.ofNat 64 o) = start_paddr + BitVec.ofNat 64 o

section Range
variable {s s' : Machine} {root start_vaddr start_paddr bits v : Word} {bytes o j n : ℕ}

theorem offset_toNat (start : Word) (h : start.toNat + o < 2 ^ 64) :
    (start + BitVec.ofNat 64 o).toNat = start.toNat + o := by
  rw [BitVec.toNat_add, BitVec.toNat_ofNat]
  omega

/-- Two addresses of a range that has no more than 2^27 pages. -/
theorem samePage_offset (hv : start_vaddr.toNat + bytes ≤ 2 ^ 64) (ho : o < bytes)
    (hj : PAGE_SIZE * j < bytes) (hd : start_vaddr.toNat % PAGE_SIZE + bytes ≤ PAGE_SIZE * 2 ^ 27) :
    SamePage (start_vaddr + BitVec.ofNat 64 o)
        (start_vaddr + BitVec.ofNat 64 (PAGE_SIZE * j)) ↔
      (start_vaddr.toNat % PAGE_SIZE + o) / PAGE_SIZE = j := by
  unfold SamePage
  rw [offset_toNat _ (by omega), offset_toNat _ (by omega)]
  unfold PAGE_SIZE at *
  omega

theorem steps_lt (hj : j < steps bytes) : PAGE_SIZE * j < bytes := by
  unfold steps PAGE_SIZE at *
  omega

theorem steps_pos (hpos : 0 < bytes) : 0 < steps bytes := by
  unfold steps PAGE_SIZE
  omega

/-- A page of the loop is touched by the range. -/
theorem touched_of_step (hj : j < steps bytes)
    (h : SamePage v (start_vaddr + BitVec.ofNat 64 (PAGE_SIZE * j))) :
    Touched start_vaddr bytes v :=
  ⟨PAGE_SIZE * j, steps_lt hj, h⟩

/-- The entry of an address within the pages of the loop. -/
theorem Maps.leaf_mapped
    (hm : Maps root start_vaddr start_paddr bits 0 (steps bytes) s s')
    (hv : start_vaddr.toNat + bytes ≤ 2 ^ 64) (ho : o < bytes)
    (hd : start_vaddr.toNat % PAGE_SIZE + bytes ≤ PAGE_SIZE * 2 ^ 27)
    (hin : start_vaddr.toNat % PAGE_SIZE + o < PAGE_SIZE * steps bytes) :
    leafEntry s'.mem root (start_vaddr + BitVec.ofNat 64 o) =
      leafBits (start_paddr + BitVec.ofNat 64 (PAGE_SIZE *
        ((start_vaddr.toNat % PAGE_SIZE + o) / PAGE_SIZE))) (bits ||| PTEB_VALID) := by
  rcases hm.leaf (start_vaddr + BitVec.ofNat 64 o) with ⟨j, -, hj, hsame, hleaf⟩ | ⟨hnone, -⟩
  · rw [Nat.zero_add] at hj
    rw [(samePage_offset hv ho (steps_lt hj) hd).1 hsame]
    exact hleaf
  · have hj : (start_vaddr.toNat % PAGE_SIZE + o) / PAGE_SIZE < steps bytes :=
      Nat.div_lt_of_lt_mul hin
    refine absurd ?_ (hnone _ (Nat.zero_le _) ((Nat.zero_add (steps bytes)).symm ▸ hj))
    exact (samePage_offset hv ho (steps_lt hj) hd).2 rfl

/-- The entry of an address after the pages of the loop. -/
theorem Maps.leaf_last
    (hm : Maps root start_vaddr start_paddr bits 0 (steps bytes) s s')
    (hv : start_vaddr.toNat + bytes ≤ 2 ^ 64) (ho : o < bytes)
    (hd : start_vaddr.toNat % PAGE_SIZE + bytes ≤ PAGE_SIZE * 2 ^ 27)
    (hout : PAGE_SIZE * steps bytes ≤ start_vaddr.toNat % PAGE_SIZE + o) :
    leafEntry s'.mem root (start_vaddr + BitVec.ofNat 64 o) =
      leafEntry s.mem root (start_vaddr + BitVec.ofNat 64 o) := by
  rcases hm.leaf (start_vaddr + BitVec.ofNat 64 o) with ⟨j, -, hj, hsame, -⟩ | ⟨-, hleaf⟩
  · rw [Nat.zero_add] at hj
    have := (samePage_offset hv ho (steps_lt hj) hd).1 hsame
    unfold PAGE_SIZE at *
    omega
  · exact hleaf

/-- The other pages keep their translations. -/
theorem Maps.others (hm : Maps root start_vaddr start_paddr bits 0 (steps bytes) s s')
    (hT : Tree s.mem root) (hnot : ¬Touched start_vaddr bytes v) :
    mmuTranslate s'.mem root v = mmuTranslate s.mem root v := by
  rw [hm.tree.translate_eq, hT.translate_eq]
  rcases hm.leaf v with ⟨j, -, hj, hsame, -⟩ | ⟨-, hleaf⟩
  · exact absurd (touched_of_step (Nat.zero_add (steps bytes) ▸ hj) hsame) hnot
  · rw [hleaf]

/-- A range that is covered is mapped. -/
theorem Covered.mapsRange (h : Covered s.mem root start_vaddr start_paddr bytes)
    (hm : Maps root start_vaddr start_paddr bits 0 (steps bytes) s s') (hT : Tree s.mem root)
    (hcong : start_vaddr.toNat % PAGE_SIZE = start_paddr.toNat % PAGE_SIZE)
    (hv : start_vaddr.toNat + bytes ≤ 2 ^ 64) (hrwx : bits &&& 0xe#64 ≠ 0#64)
    (hb : bits.toNat < 2 ^ 10) : MapsRange s.mem s'.mem root start_vaddr start_paddr bytes := by
  have hp := h.physical
  refine ⟨fun o ho => ?_, fun v hv => hm.others hT hv⟩
  by_cases hin : start_vaddr.toNat % PAGE_SIZE + o < PAGE_SIZE * steps bytes
  · have hpage : PAGE_SIZE * ((start_vaddr.toNat % PAGE_SIZE + o) / PAGE_SIZE) < bytes :=
      steps_lt (Nat.div_lt_of_lt_mul hin)
    apply BitVec.eq_of_toNat_eq
    rw [hm.tree.translate_eq, hm.leaf_mapped hv ho h.distinct hin,
      translateEntry_leafBits (by rw [offset_toNat _ (by omega)]; omega) hb hrwx,
      offset_toNat _ (by omega), offset_toNat _ (by omega), offset_toNat _ (by omega)]
    unfold PAGE_SIZE at *
    omega
  · have hout := Nat.le_of_not_lt hin
    rw [hm.tree.translate_eq, hm.leaf_last hv ho h.distinct hout, ← hT.translate_eq]
    rcases h.last with hlast | hlast
    · omega
    · exact hlast o ho hout

/-- Addresses of one entry that are translated to different pages. -/
theorem MapsRange.distinct (h : MapsRange s.mem s'.mem root start_vaddr start_paddr bytes)
    (hT' : Tree s'.mem root) (hpos : 0 < bytes) (hv : start_vaddr.toNat + bytes ≤ 2 ^ 64)
    (hp : start_paddr.toNat + bytes ≤ 2 ^ 64) :
    start_vaddr.toNat % PAGE_SIZE + bytes ≤ PAGE_SIZE * 2 ^ 27 := by
  by_contra hlong
  -- the first address of the page that has the entry of the first one
  have hr : start_vaddr.toNat % PAGE_SIZE < PAGE_SIZE := Nat.mod_lt _ (by decide)
  obtain ⟨o, ho⟩ : ∃ o, o + start_vaddr.toNat % PAGE_SIZE = PAGE_SIZE * 2 ^ 27 :=
    ⟨PAGE_SIZE * 2 ^ 27 - start_vaddr.toNat % PAGE_SIZE, by unfold PAGE_SIZE at *; omega⟩
  have hsame : SamePage (start_vaddr + BitVec.ofNat 64 o) (start_vaddr + BitVec.ofNat 64 0) := by
    unfold SamePage
    rw [offset_toNat _ (by omega), offset_toNat _ (by omega)]
    unfold PAGE_SIZE at *
    omega
  have h0 := congrArg BitVec.toNat (h.mapped 0 hpos)
  have ho' := congrArg BitVec.toNat (h.mapped o (by omega))
  rw [hT'.translate_eq, offset_toNat start_paddr (by omega)] at h0 ho'
  rw [leafEntry_samePage hsame] at ho'
  rcases translateEntry_page (leafEntry s'.mem root (start_vaddr + BitVec.ofNat 64 0)) with
    hnone | ⟨base, -, hbase⟩
  · rw [hnone] at h0 ho'
    unfold PAGE_SIZE at *
    omega
  · rw [hbase, offset_toNat _ (by omega)] at h0 ho'
    unfold PAGE_SIZE at *
    omega

/-- What a range that is mapped met. -/
theorem MapsRange.covered (h : MapsRange s.mem s'.mem root start_vaddr start_paddr bytes)
    (hm : Maps root start_vaddr start_paddr bits 0 (steps bytes) s s') (hT : Tree s.mem root)
    (hpos : 0 < bytes) (hv : start_vaddr.toNat + bytes ≤ 2 ^ 64)
    (hp : start_paddr.toNat + bytes ≤ 2 ^ 64) (hrwx : bits &&& 0xe#64 ≠ 0#64) :
    Covered s.mem root start_vaddr start_paddr bytes := by
  have hd := h.distinct hm.tree hpos hv hp
  have hbelow {o : ℕ} (ho : o < bytes) :
      start_paddr.toNat + o < 2 ^ 56 ∨ start_paddr.toNat + o = 2 ^ 64 - 1 := by
    have heq := congrArg BitVec.toNat (h.mapped o ho)
    rw [hm.tree.translate_eq, offset_toNat start_paddr (by omega)] at heq
    rcases translateEntry_page (leafEntry s'.mem root (start_vaddr + BitVec.ofNat 64 o)) with
      hnone | ⟨base, hle, hbase⟩
    · right
      rw [hnone] at heq
      exact heq.symm
    · left
      rw [hbase] at heq
      unfold PAGE_SIZE at *
      omega
  have hfirst : start_paddr.toNat < 2 ^ 56 := by
    have heq := congrArg BitVec.toNat (h.mapped 0 hpos)
    have hin : start_vaddr.toNat % PAGE_SIZE + 0 < PAGE_SIZE * steps bytes := by
      have := steps_pos hpos
      have : start_vaddr.toNat % PAGE_SIZE < PAGE_SIZE := Nat.mod_lt _ (by decide)
      unfold PAGE_SIZE at *
      omega
    rw [hm.tree.translate_eq, hm.leaf_mapped hv hpos hd hin, offset_toNat start_paddr (by omega)]
      at heq
    obtain ⟨base, hle, hbase⟩ := translateEntry_mapped (leaf_valid _ bits) (leaf_rwx hrwx)
    rw [hbase] at heq
    unfold PAGE_SIZE at *
    omega
  refine ⟨?_, hd, ?_⟩
  · have hlast := hbelow (o := bytes - 1) (by omega)
    unfold PAGE_SIZE at hd
    omega
  · right
    intro o ho hout
    rw [hT.translate_eq, ← hm.leaf_last hv ho hd hout, ← hm.tree.translate_eq]
    exact h.mapped o ho

/-- The range is mapped, and nothing else changed, if and only if it is covered. -/
theorem mmuMapMultiple_iff (s : Machine) (root start_vaddr start_paddr bits : Word) (bytes : ℕ)
    (hT : Tree s.mem root) (hf : FreshPages s.mem root s.pages) (hpos : 0 < bytes)
    (hcong : start_vaddr.toNat % PAGE_SIZE = start_paddr.toNat % PAGE_SIZE)
    (hv : start_vaddr.toNat + bytes ≤ 2 ^ 64) (hp : start_paddr.toNat + bytes ≤ 2 ^ 64)
    (hrwx : bits &&& 0xe#64 ≠ 0#64) (hb : bits.toNat < 2 ^ 10)
    (hs : RangeSupplied root start_vaddr start_paddr bits (steps bytes) 0 s) :
    MapsRange s.mem (mmuMapMultiple s root start_vaddr start_paddr bytes bits).mem root start_vaddr
        start_paddr bytes ↔
      Covered s.mem root start_vaddr start_paddr bytes := by
  have hm := mapPages_supplied hrwx hT hf hs
  constructor
  · intro h
    exact h.covered hm hT hpos hv hp hrwx
  · intro h
    exact h.mapsRange hm hT hcong hv hrwx hb

end Range

/-! The frame of a process that lies across two pages. -/

def frameMachine : Machine := ⟨fun _ => 0, [0x80002000#64, 0x80003000#64, 0x80004000#64]⟩

theorem frameMachine_zero (i : Fin 512) : frameMachine.mem (entryAddr 0x80001000#64 i) = 0 := rfl

theorem frameMachine_fresh : FreshPages frameMachine.mem 0x80001000#64 frameMachine.pages :=
  zeroed_root_fresh frameMachine_zero (by decide)
    (List.forall_iff_forall_mem.1 (by decide)) (by decide)

theorem frameMachine_supplied : RangeSupplied 0x80001000#64 0x120000e18#64 0x80400e18#64
    (PTEB_READ ||| PTEB_WRITE) (steps 4096) 0 frameMachine := by
  apply rangeSupplied_of_left (by decide)
  decide +kernel

theorem mmuMapMultiple_iff_frame :
    MapsRange frameMachine.mem (mmuMapMultiple frameMachine 0x80001000#64 0x120000e18#64
        0x80400e18#64 4096 (PTEB_READ ||| PTEB_WRITE)).mem 0x80001000#64 0x120000e18#64
        0x80400e18#64 4096 ↔
      Covered frameMachine.mem 0x80001000#64 0x120000e18#64 0x80400e18#64 4096 :=
  mmuMapMultiple_iff frameMachine _ _ _ _ 4096 (zeroed_root_tree (by decide) frameMachine_zero)
    frameMachine_fresh (by decide) (by decide) (by decide) (by decide) (by decide) (by decide)
    frameMachine_supplied

/-- Its second page has no translation. -/
theorem frame_not_mapped : ¬ ∀ (s : Machine) (root start_vaddr start_paddr bits : Word) (bytes : ℕ),
    Tree s.mem root → FreshPages s.mem root s.pages → 0 < bytes →
    start_vaddr.toNat % PAGE_SIZE = start_paddr.toNat % PAGE_SIZE →
    start_vaddr.toNat + bytes ≤ 2 ^ 64 → start_paddr.toNat + bytes ≤ 2 ^ 64 →
    bits &&& 0xe#64 ≠ 0#64 → bits.toNat < 2 ^ 10 →
    RangeSupplied root start_vaddr start_paddr bits (steps bytes) 0 s →
    MapsRange s.mem (mmuMapMultiple s root start_vaddr start_paddr bytes bits).mem root start_vaddr
      start_paddr bytes := by
  intro h
  have hmaps := h frameMachine 0x80001000#64 0x120000e18#64 0x80400e18#64
    (PTEB_READ ||| PTEB_WRITE) 4096 (zeroed_root_tree (by decide) frameMachine_zero)
    frameMachine_fresh (by decide) (by decide) (by decide) (by decide) (by decide) (by decide)
    frameMachine_supplied
  have hlast := hmaps.mapped 0x1e8 (by decide)
  revert hlast
  decide +kernel

end PageTable
