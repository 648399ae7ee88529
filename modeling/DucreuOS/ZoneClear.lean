import DucreuOS.ZoneTree

/-! # Clearing the zones of a file

`minix3_clear_all_zones` is a walk of its own. It frees the data zones it comes to and stops as
soon as the remaining size is used up. Of the pointer blocks it frees those that the inode names:
a block below the doubly indirect one stays marked, and below the triply indirect one the walk
takes the first bytes of the device for a doubly indirect block. -/
namespace Minix3

open ByteMemory Scan

/-- The variables of the walk, the buffer of the last pointer block among them. -/
structure Clear where
  disk : Mem
  inode : Inode
  remaining : ℕ
  buffer_I : Mem

section Clearing

-- what lies behind `buffer_I` on the heap when round `k` of the doubly indirect loop reads it
variable (bs : ℕ) (beyond : ℕ → Word)

def Clear.free (c : Clear) (zone : Word) : Clear :=
  { c with disk := setZoneUnoccupied bs c.disk zone }

/-- A pointer of the inode, with the zone it names. -/
def Clear.freePointer (c : Clear) (slot : Fin 10) : Clear :=
  { c.free bs (c.inode.zones slot) with inode := c.inode.setZone slot 0 }

/-- One direct pointer. -/
def clearDirectSlot (i : ℕ) (c : Clear) : Clear :=
  if c.inode.zones (Fin.ofNat 10 i) ≠ 0 then
    { c with remaining := c.remaining - bs }.freePointer bs (Fin.ofNat 10 i)
  else c

/-- Slot `j` of `zones`, the contents of `buffer_I`. -/
def clearSlot (j : ℕ) (c : Clear) : Clear :=
  let zone := load32 c.buffer_I (4 * j)
  if zone ≠ 0 then
    { c.free bs zone with
      remaining := c.remaining - bs
      buffer_I := store32 c.buffer_I (4 * j) 0 }
  else c

/-- Read the block that `zone` names and free what it names. -/
def clearBlock (zone : Word) (c : Clear) : Clear :=
  (ppz bs).fold (fun j _ => clearSlot bs j)
    { c with buffer_I := window c.disk (baddr32 bs zone) }

def clearDirect (c : Clear) : Clear := (7 : ℕ).fold (fun i _ => clearDirectSlot bs i) c

def clearIndirect (c : Clear) : Clear :=
  if c.inode.zones MX3_IDZONE ≠ 0 then
    (clearBlock bs (c.inode.zones MX3_IDZONE) c).freePointer bs MX3_IDZONE
  else c

/-- Slot `k` of `Izones`. The block itself should be freed, but `zones[j]` with the `j` that ended
the loop is the word behind the buffer. -/
def clearDoublySlot (Izones : Mem) (k : ℕ) (c : Clear) : Clear :=
  if load32 Izones (4 * k) ≠ 0 then
    (clearBlock bs (load32 Izones (4 * k)) c).free bs (beyond k)
  else c

def clearDoubly (c : Clear) : Clear :=
  if c.inode.zones MX3_IIDZONE ≠ 0 then
    let Izones := window c.disk (baddr32 bs (c.inode.zones MX3_IIDZONE))
    ((ppz bs).fold (fun k _ => clearDoublySlot bs beyond Izones k) c).freePointer bs MX3_IIDZONE
  else c

/-- The zone in slot `s` of `buffer_I`, freed in place of a pointer block. -/
def Clear.freeSlot (c : Clear) (s : ℕ) : Clear :=
  { c.free bs (load32 c.buffer_I (4 * s)) with buffer_I := store32 c.buffer_I (4 * s) 0 }

def clearSecondSlot (Izones : Mem) (k : ℕ) (c : Clear) : Clear :=
  if load32 Izones (4 * k) ≠ 0 then
    (clearBlock bs (load32 Izones (4 * k)) c).freeSlot bs k
  else c

/-- Slot `l` of `IIzones`: the block that is read is the one of `zones[MX3_IIDZONE]`. -/
def clearTriplySlot (IIzones : Mem) (l : ℕ) (c : Clear) : Clear :=
  if load32 IIzones (4 * l) ≠ 0 then
    let Izones := window c.disk (baddr32 bs (c.inode.zones MX3_IIDZONE))
    ((ppz bs).fold (fun k _ => clearSecondSlot bs Izones k) c).freeSlot bs l
  else c

def clearTriply (c : Clear) : Clear :=
  if c.inode.zones MX3_IIIDZONE ≠ 0 then
    let IIzones := window c.disk (baddr32 bs (c.inode.zones MX3_IIIDZONE))
    ((ppz bs).fold (fun l _ => clearTriplySlot bs IIzones l) c).freePointer bs MX3_IIIDZONE
  else c

/-- The buffers come zeroed from `kcalloc`. -/
def Clear.start (disk : Mem) (f_inode : Inode) : Clear :=
  ⟨disk, f_inode, f_inode.size.toNat, fun _ => 0⟩

/-- `minix3_clear_all_zones` -/
def clearAllZones (disk : Mem) (f_inode : Inode) : Clear :=
  let c := clearDirect bs (Clear.start disk f_inode)
  if c.remaining = 0 then c else
  let c := clearIndirect bs c
  if c.remaining = 0 then c else
  let c := clearDoubly bs beyond c
  if c.remaining = 0 then c else clearTriply bs c

end Clearing

/-! ## Bits that are cleared -/

section Freed

variable {bs : ℕ} {disk disk' : Mem} {S T : Set Word} {zone : Word}

/-- The zone bitmap lies between the superblock and the zones. -/
structure MapLayout (bs : ℕ) (disk : Mem) : Prop where
  super : superEnd ≤ (getSuperblock disk).zmapStart bs
  bitmap : zmapEnd bs disk ≤ dataStart bs disk

/-- The bit of a zone of the device. -/
def zoneBit (disk : Mem) (zone : Word) : ℕ := zone.toNat - (getSuperblock disk).firstZone.toNat

/-- The bits of the zones of `S` are clear; nothing else has changed. -/
structure Freed (bs : ℕ) (S : Set Word) (disk disk' : Mem) : Prop where
  outside : ∀ x, x < (getSuperblock disk).zmapStart bs ∨ zmapEnd bs disk ≤ x → disk' x = disk x
  bits : ∀ bit, bitAt disk' ((getSuperblock disk).zmapStart bs) bit = true ↔
    bitAt disk ((getSuperblock disk).zmapStart bs) bit = true ∧
      ∀ z ∈ S, isZoneInRange disk z = true → zoneBit disk z ≠ bit

theorem MapLayout.first_pos (hl : MapLayout bs disk) : 0 < (getSuperblock disk).firstZone.toNat := by
  have h := hl.super.trans ((Nat.le_add_right _ _).trans hl.bitmap)
  apply Nat.pos_of_ne_zero
  intro hz
  rw [dataStart, hz, Nat.zero_mul] at h
  exact absurd h (by decide)

theorem zoneBit_injective (hz : isZoneInRange disk zone = true) {w : Word}
    (hw : isZoneInRange disk w = true) (h : zoneBit disk w = zoneBit disk zone) : w = zone := by
  have hz := inRange_iff.mp hz
  have hw := inRange_iff.mp hw
  unfold zoneBit at h
  exact BitVec.eq_of_toNat_eq (by omega)

namespace Freed

theorem refl (bs : ℕ) (disk : Mem) : Freed bs ∅ disk disk :=
  ⟨fun _ _ => rfl, fun bit => by simp⟩

theorem super (hf : Freed bs S disk disk') (hl : MapLayout bs disk) :
    getSuperblock disk' = getSuperblock disk :=
  getSuperblock_congr fun x hx => hf.outside x (Or.inl (hx.trans_le hl.super))

theorem data (hf : Freed bs S disk disk') (hl : MapLayout bs disk) {x : ℕ}
    (hx : dataStart bs disk ≤ x) : disk' x = disk x :=
  hf.outside x (Or.inr (hl.bitmap.trans hx))

/-- Only the zones on the device count. -/
theorem congr (hf : Freed bs S disk disk')
    (h : ∀ z, isZoneInRange disk z = true → (z ∈ S ↔ z ∈ T)) : Freed bs T disk disk' := by
  refine ⟨hf.outside, fun bit => (hf.bits bit).trans (and_congr_right fun _ => ?_)⟩
  constructor
  · exact fun hs z hz hr => hs z ((h z hr).mpr hz) hr
  · exact fun ht z hz hr => ht z ((h z hr).mp hz) hr

theorem range_eq (hf : Freed bs S disk disk') (hl : MapLayout bs disk) (z : Word) :
    isZoneInRange disk' z = isZoneInRange disk z := by
  simp only [isZoneInRange, hf.super hl]

theorem occupied_iff (hf : Freed bs S disk disk') (hl : MapLayout bs disk)
    (hm : Marked bs disk zone) : isZoneOccupied bs disk' zone = true ↔ zone ∉ S := by
  have hr : isZoneInRange disk' zone = true := by rw [hf.range_eq hl, hm.1]
  have hbit := hf.bits (zoneBit disk zone)
  rw [occupied_inRange hr, hf.super hl]
  refine hbit.trans ⟨fun h hs => h.2 zone hs hm.1 rfl, fun hs => ⟨?_, fun z hz hzr he => ?_⟩⟩
  · have hocc := hm.2
    rwa [occupied_inRange hm.1] at hocc
  · rw [zoneBit_injective hm.1 hzr he] at hz
    exact hs hz

/-- One call of `minix3_set_zone_unoccupied`. -/
theorem free (hf : Freed bs S disk disk') (hl : MapLayout bs disk) (zone : Word) :
    Freed bs (insert zone S) disk (setZoneUnoccupied bs disk' zone) := by
  have hs := hf.super hl
  by_cases hr : isZoneInRange disk zone = true
  · have hr' : isZoneInRange disk' zone = true := by rw [hf.range_eq hl, hr]
    have hlt : ¬ zone < (getSuperblock disk).firstZone := by
      rw [BitVec.lt_def]
      exact not_lt.mpr (inRange_iff.mp hr).1
    by_cases hocc : isZoneOccupied bs disk' zone = true
    · have hset : setZoneUnoccupied bs disk' zone
          = clearBit disk' ((getSuperblock disk).zmapStart bs) (zoneBit disk zone) := by
        simp only [setZoneUnoccupied, setZoneAs, hs, hlt, hocc, hr', inRange_sub hr, zoneBit,
          if_false, Bool.not_true, Bool.false_eq_true]
      rw [hset]
      have hbyte := ZoneLayout.bit_lt bs hr
      refine ⟨fun x hx => ?_, fun bit => ?_⟩
      · rw [clearBit_apart (by unfold zoneBit; omega)]
        exact hf.outside x hx
      · rw [bitAt_clearBit, Bool.and_eq_true, hf.bits, Set.forall_mem_insert]
        simp only [Bool.not_eq_true', decide_eq_false_iff_not]
        constructor
        · exact fun h => ⟨h.2.1, fun _ he => h.1 he.symm, h.2.2⟩
        · exact fun h => ⟨fun he => h.2.1 hr he.symm, h.1, h.2.2⟩
    · have hset : setZoneUnoccupied bs disk' zone = disk' := by
        simp only [setZoneUnoccupied, setZoneAs, hs, hlt, hocc, if_false, Bool.not_false,
          if_true, Bool.false_eq_true]
      rw [hset]
      refine ⟨hf.outside, fun bit => ?_⟩
      rw [Set.forall_mem_insert]
      refine ⟨fun h => ⟨((hf.bits bit).mp h).1, fun _ he => ?_, ((hf.bits bit).mp h).2⟩,
        fun h => (hf.bits bit).mpr ⟨h.1, h.2.2⟩⟩
      -- the bit is clear already
      subst he
      rw [occupied_inRange hr', hs] at hocc
      exact hocc h
  · have hset : setZoneUnoccupied bs disk' zone = disk' := by
      have hr' : isZoneInRange disk' zone = false := by rw [hf.range_eq hl]; simpa using hr
      simp only [setZoneUnoccupied, setZoneAs, hr', Bool.not_false, if_true, Bool.false_eq_true,
        ite_self]
    rw [hset]
    apply hf.congr
    intro z hz
    have hne : z ≠ zone := by
      rintro rfl
      exact hr hz
    simp [hne]

end Freed

end Freed

/-! ## What each part of the walk frees -/

section Stages

variable {bs : ℕ} {disk : Mem} {inode : Inode} {S : Set Word} {gone i j : ℕ} {c : Clear}

/-- The zones with an index below `i`. -/
def dataBelow (bs : ℕ) (disk : Mem) (inode : Inode) (i : ℕ) : Set Word :=
  {z | ∃ j < i, fileZone bs disk inode j = z}

/-- The walk has come to index `i`: freed are the data zones below it and the zones of `S`, and
the first `gone` pointers of the inode are zero. -/
structure ClearedTo (bs : ℕ) (disk : Mem) (inode : Inode) (S : Set Word) (gone i : ℕ)
    (c : Clear) : Prop where
  freed : Freed bs (dataBelow bs disk inode i ∪ S) disk c.disk
  remaining : c.remaining = remainingAt bs inode (fileZone bs disk inode) i
  pointers : ∀ r : Fin 10, c.inode.zones r = if r.val < gone then 0 else inode.zones r

/-- Pointer block `b` in `buffer_I`, the slots in front of `s` cleared. -/
def Slots (bs : ℕ) (disk : Mem) (inode : Inode) (b s : ℕ) (c : Clear) : Prop :=
  ∀ t < ppz bs, load32 c.buffer_I (4 * t)
    = if t < s then 0 else fileZone bs disk inode (blockStart bs b + t)

def Blank (bs : ℕ) (c : Clear) : Prop := ∀ t < ppz bs, load32 c.buffer_I (4 * t) = 0

theorem Freed.data_succ {d : Mem} (hf : Freed bs (dataBelow bs disk inode i ∪ S) disk d)
    (hl : MapLayout bs disk) : Freed bs (dataBelow bs disk inode (i + 1) ∪ S) disk
      (setZoneUnoccupied bs d (fileZone bs disk inode i)) := by
  apply (hf.free hl (fileZone bs disk inode i)).congr
  intro z _
  constructor
  · rintro (rfl | ⟨m, hm, rfl⟩ | hz)
    · exact Or.inl ⟨i, Nat.lt_succ_self i, rfl⟩
    · exact Or.inl ⟨m, Nat.lt_succ_of_lt hm, rfl⟩
    · exact Or.inr hz
  · rintro (⟨m, hm, rfl⟩ | hz)
    · rcases Nat.lt_succ_iff_lt_or_eq.mp hm with hlt | rfl
      · exact Or.inr (Or.inl ⟨m, hlt, rfl⟩)
      · exact Or.inl rfl
    · exact Or.inr (Or.inr hz)

theorem MapLayout.ne_zero (hl : MapLayout bs disk) {zone : Word}
    (h : isZoneInRange disk zone = true) : zone ≠ 0 := by
  rintro rfl
  have hle : (getSuperblock disk).firstZone.toNat ≤ 0 := (inRange_iff.mp h).1
  have := hl.first_pos
  omega

/-- Indices without a zone. -/
theorem ClearedTo.skip (h : ClearedTo bs disk inode S gone i c) (hl : MapLayout bs disk)
    (hij : i ≤ j) (hz : ∀ m, i ≤ m → m < j → fileZone bs disk inode m = 0) :
    ClearedTo bs disk inode S gone j c := by
  refine ⟨h.freed.congr fun z hr => or_congr_left ?_, ?_, h.pointers⟩
  · constructor
    · exact fun ⟨m, hm, he⟩ => ⟨m, by omega, he⟩
    · rintro ⟨m, hm, rfl⟩
      refine ⟨m, ?_, rfl⟩
      by_contra hge
      exact hl.ne_zero hr (hz m (by omega) hm)
  · rw [remainingAt_quiet hij hz]
    exact h.remaining

theorem ClearedTo.free (h : ClearedTo bs disk inode S gone i c) (hl : MapLayout bs disk)
    (zone : Word) : ClearedTo bs disk inode (insert zone S) gone i (c.free bs zone) := by
  refine ⟨(h.freed.free hl zone).congr fun z _ => ?_, h.remaining, h.pointers⟩
  rw [Set.union_insert]

theorem ClearedTo.freePointer (h : ClearedTo bs disk inode S gone i c) (hl : MapLayout bs disk)
    {slot : Fin 10} (hs : slot.val = gone) :
    ClearedTo bs disk inode (insert (inode.zones slot) S) (gone + 1) i (c.freePointer bs slot) := by
  have hslot : c.inode.zones slot = inode.zones slot := by
    rw [h.pointers, if_neg (by omega)]
  refine ⟨hslot ▸ (h.free hl (c.inode.zones slot)).freed, h.remaining, fun r => ?_⟩
  change Function.update c.inode.zones slot 0 r = _
  by_cases hr : r = slot
  · subst hr
    rw [Function.update_self, if_pos (by omega)]
  · have hne : r.val ≠ slot.val := fun he => hr (Fin.ext he)
    rw [Function.update_of_ne hr, h.pointers]
    exact if_congr (by omega) rfl rfl

/-- Zone 0 is in front of the first data zone. -/
theorem free_zero (hf : Freed bs S disk c.disk) (hl : MapLayout bs disk) : c.free bs 0 = c := by
  have hlt : (0 : Word) < (getSuperblock disk).firstZone := hl.first_pos
  simp only [Clear.free, setZoneUnoccupied, setZoneAs, hf.super hl, hlt, if_true]

/-- A pointer that is zero already. -/
theorem ClearedTo.no_pointer (h : ClearedTo bs disk inode S gone i c) {r : Fin 10}
    (hs : r.val = gone) (hz : inode.zones r = 0) :
    ClearedTo bs disk inode S (gone + 1) i c := by
  refine ⟨h.freed, h.remaining, fun q => ?_⟩
  rw [h.pointers]
  by_cases hq : q = r
  · subst hq
    rw [hz, ite_self, ite_self]
  · have hne : q.val ≠ r.val := fun he => hq (Fin.ext he)
    exact if_congr (by omega) rfl rfl

theorem clearDirectSlot_step (h : ClearedTo bs disk inode ∅ i i c) (hl : MapLayout bs disk)
    (hi : i < 7) : ClearedTo bs disk inode ∅ (i + 1) (i + 1) (clearDirectSlot bs i c) := by
  have hval : (Fin.ofNat 10 i).val = i := Nat.mod_eq_of_lt (by omega)
  have hzone : fileZone bs disk inode i = inode.zones (Fin.ofNat 10 i) := zoneUnder_direct hi
  have hslot : c.inode.zones (Fin.ofNat 10 i) = inode.zones (Fin.ofNat 10 i) := by
    rw [h.pointers, if_neg (by omega)]
  by_cases hz : inode.zones (Fin.ofNat 10 i) = 0
  · have hskip := (h.no_pointer hval hz).skip (j := i + 1) hl (Nat.le_succ i) fun m hm hm' => by
      rw [show m = i by omega, hzone, hz]
    simpa only [clearDirectSlot, hslot, hz, ne_eq, not_true, if_false] using hskip
  · have hpointers := (h.freePointer hl hval).pointers
    simp only [clearDirectSlot, hslot, ne_eq, hz, not_false_eq_true, if_true]
    refine ⟨?_, ?_, hpointers⟩
    · change Freed bs _ disk (setZoneUnoccupied bs c.disk (c.inode.zones (Fin.ofNat 10 i)))
      rw [hslot, ← hzone]
      exact h.freed.data_succ hl
    · rw [remainingAt_succ, if_pos (hzone ▸ hz), ← h.remaining]
      rfl

/-- One slot of pointer block `b` in the buffer. -/
theorem clearSlot_step {b s : ℕ} (h : ClearedTo bs disk inode S gone (blockStart bs b + s) c)
    (hl : MapLayout bs disk) (hs : s < ppz bs)
    (hslots : Slots bs disk inode b s c) :
    ClearedTo bs disk inode S gone (blockStart bs b + (s + 1)) (clearSlot bs s c) ∧
      Slots bs disk inode b (s + 1) (clearSlot bs s c) := by
  have hslot : load32 c.buffer_I (4 * s) = fileZone bs disk inode (blockStart bs b + s) := by
    rw [hslots s hs, if_neg (Nat.lt_irrefl s)]
  rw [← Nat.add_assoc]
  by_cases hz : fileZone bs disk inode (blockStart bs b + s) = 0
  · have hskip := h.skip (j := blockStart bs b + s + 1) hl (Nat.le_succ _) fun m hm hm' => by
      rwa [show m = blockStart bs b + s by omega]
    simp only [clearSlot, hslot, hz, ne_eq, not_true, if_false]
    refine ⟨hskip, fun t ht => ?_⟩
    rw [hslots t ht]
    by_cases hts : t = s
    · subst hts
      rw [hz, ite_self, ite_self]
    · exact if_congr (by omega) rfl rfl
  · simp only [clearSlot, hslot, ne_eq, hz, not_false_eq_true, if_true]
    refine ⟨⟨h.freed.data_succ hl, ?_, h.pointers⟩, fun t ht => ?_⟩
    · rw [remainingAt_succ, if_pos hz, ← h.remaining]
    · change load32 (store32 c.buffer_I (4 * s) 0) (4 * t) = _
      by_cases hts : t = s
      · subst hts
        rw [load32_store32, if_pos (Nat.lt_succ_self t)]
      · rw [store32, load32_blit_disjoint (by omega), hslots t ht]
        exact if_congr (by omega) rfl rfl

/-- Pointer block `b`, read where 32 bits reach. -/
theorem clearBlock_spec {b : ℕ} (h : ClearedTo bs disk inode S gone (blockStart bs b) c)
    (hl : MapLayout bs disk) (hb : pointerBlock bs disk inode b ≠ 0)
    (hr : isZoneInRange disk (pointerBlock bs disk inode b) = true)
    (ha : baddr bs (pointerBlock bs disk inode b) < 2 ^ 32) :
    ClearedTo bs disk inode S gone (blockStart bs (b + 1))
        (clearBlock bs (pointerBlock bs disk inode b) c) ∧
      Blank bs (clearBlock bs (pointerBlock bs disk inode b) c) := by
  have hread : Slots bs disk inode b 0 { c with
      buffer_I := window c.disk (baddr32 bs (pointerBlock bs disk inode b)) } := by
    intro t ht
    have hdata := ZoneLayout.dataStart_le bs hr
    rw [if_neg (Nat.not_lt_zero t), load32_window, baddr32_eq ha, fileZone, zoneUnder_block b ht,
      blockSlot, if_neg hb]
    exact load32_congr fun i _ => h.freed.data hl (by omega)
  have hinit : ClearedTo bs disk inode S gone (blockStart bs b + 0) { c with
      buffer_I := window c.disk (baddr32 bs (pointerBlock bs disk inode b)) } :=
    ⟨h.freed, h.remaining, h.pointers⟩
  have hrun := fold_invariant (P := fun s c => ClearedTo bs disk inode S gone (blockStart bs b + s) c
      ∧ Slots bs disk inode b s c) (ppz bs) ⟨hinit, hread⟩
    fun s hs c hc => clearSlot_step hc.1 hl hs hc.2
  rw [blockStart_succ]
  exact ⟨hrun.1, fun t ht => (hrun.2 t ht).trans (if_pos ht)⟩

theorem ClearedTo.insert_zero (h : ClearedTo bs disk inode S gone i c) (hl : MapLayout bs disk) :
    ClearedTo bs disk inode (insert 0 S) gone i c :=
  free_zero h.freed hl ▸ h.free hl 0

/-- Below blocks that are not there are no zones. -/
theorem no_blocks {b b' m : ℕ} (hb : ∀ k, b ≤ k → k < b' → pointerBlock bs disk inode k = 0)
    (hm : blockStart bs b ≤ m) (hm' : m < blockStart bs b') : fileZone bs disk inode m = 0 := by
  unfold blockStart at hm hm'
  have hppz : 0 < ppz bs := by
    apply Nat.pos_of_ne_zero
    intro h0
    rw [h0] at hm hm'
    omega
  have hlo : b ≤ (m - 7) / ppz bs := (Nat.le_div_iff_mul_le hppz).mpr (by omega)
  have hhi : (m - 7) / ppz bs < b' := (Nat.div_lt_iff_lt_mul hppz).mpr (by omega)
  rw [fileZone, zoneUnder, if_neg (by omega), hb _ hlo hhi]
  exact if_pos rfl

theorem no_block {b m : ℕ} (hb : pointerBlock bs disk inode b = 0) (hm : blockStart bs b ≤ m)
    (hm' : m < blockStart bs (b + 1)) : fileZone bs disk inode m = 0 :=
  no_blocks (fun k hk hk' => by rwa [show k = b by omega]) hm hm'

/-- The blocks that are read lie where 32 bits reach. -/
def Reachable32 (bs : ℕ) (zone : Word) : Prop := zone ≠ 0 → baddr bs zone < 2 ^ 32

theorem clearDirect_spec (hl : MapLayout bs disk) (inode : Inode) :
    ClearedTo bs disk inode ∅ 7 (blockStart bs 0) (clearDirect bs (Clear.start disk inode)) ∧
      Blank bs (clearDirect bs (Clear.start disk inode)) := by
  have hinit : ClearedTo bs disk inode ∅ 0 0 (Clear.start disk inode) := by
    refine ⟨(Freed.refl bs disk).congr fun z _ => ?_, ?_, fun r => rfl⟩
    · simp [dataBelow]
    · simp [Clear.start, remainingAt]
  have hblank : Blank bs (Clear.start disk inode) := fun t _ => by
    simp [Clear.start, load32]
  rw [blockStart, Nat.zero_mul]
  refine fold_invariant (P := fun i c => ClearedTo bs disk inode ∅ i i c ∧ Blank bs c) 7
    ⟨hinit, hblank⟩ fun i hi c hc => ⟨clearDirectSlot_step hc.1 hl hi, ?_⟩
  unfold clearDirectSlot
  split <;> exact hc.2

theorem clearIndirect_spec (h : ClearedTo bs disk inode S 7 (blockStart bs 0) c)
    (hl : MapLayout bs disk) (hm : MarkedZones bs disk inode) (hb : Blank bs c)
    (ha : Reachable32 bs (inode.zones MX3_IDZONE)) :
    ClearedTo bs disk inode (insert (inode.zones MX3_IDZONE) S) 8 (blockStart bs 1)
      (clearIndirect bs c) ∧ Blank bs (clearIndirect bs c) := by
  have hslot : c.inode.zones MX3_IDZONE = inode.zones MX3_IDZONE := h.pointers MX3_IDZONE
  by_cases hz : inode.zones MX3_IDZONE = 0
  · have hskip := h.skip hl (blockStart_mono bs (Nat.zero_le 1)) fun m hm => no_block hz hm
    simp only [clearIndirect, hslot, hz, ne_eq, not_true, if_false]
    exact ⟨(hskip.no_pointer (r := MX3_IDZONE) rfl hz).insert_zero hl, hb⟩
  · have hmark := hm (.block 0) (by unfold Node.In blocks; omega) hz
    have hblock := clearBlock_spec h hl hz hmark.1 (ha hz)
    simp only [clearIndirect, hslot, ne_eq, hz, not_false_eq_true, if_true]
    exact ⟨hblock.1.freePointer hl rfl, hblock.2⟩

theorem clearDoublySlot_step {Izones : Mem} {k : ℕ}
    (h : ClearedTo bs disk inode S gone (blockStart bs (1 + k)) c) (hl : MapLayout bs disk)
    (hm : MarkedZones bs disk inode) (hk : k < ppz bs) (hb : Blank bs c)
    (hz : load32 Izones (4 * k) = pointerBlock bs disk inode (1 + k))
    (ha : Reachable32 bs (pointerBlock bs disk inode (1 + k))) :
    ClearedTo bs disk inode S gone (blockStart bs (1 + (k + 1)))
      (clearDoublySlot bs (fun _ => 0) Izones k c) ∧
      Blank bs (clearDoublySlot bs (fun _ => 0) Izones k c) := by
  rw [← Nat.add_assoc]
  by_cases hp : pointerBlock bs disk inode (1 + k) = 0
  · simp only [clearDoublySlot, hz, hp, ne_eq, not_true, if_false]
    exact ⟨h.skip hl (blockStart_mono bs (Nat.le_succ _)) fun m hm => no_block hp hm, hb⟩
  · have hmark := hm (.block (1 + k)) (by unfold Node.In blocks; omega) hp
    have hblock := clearBlock_spec h hl hp hmark.1 (ha hp)
    simp only [clearDoublySlot, hz, ne_eq, hp, not_false_eq_true, if_true,
      free_zero hblock.1.freed hl]
    exact hblock

theorem clearDoubly_spec (h : ClearedTo bs disk inode S 8 (blockStart bs 1) c)
    (hl : MapLayout bs disk) (hm : MarkedZones bs disk inode) (hb : Blank bs c)
    (ha : Reachable32 bs (inode.zones MX3_IIDZONE))
    (ha' : ∀ k < ppz bs, Reachable32 bs (pointerBlock bs disk inode (1 + k))) :
    ClearedTo bs disk inode (insert (inode.zones MX3_IIDZONE) S) 9 (blockStart bs (1 + ppz bs))
      (clearDoubly bs (fun _ => 0) c) ∧ Blank bs (clearDoubly bs (fun _ => 0) c) := by
  have hslot : c.inode.zones MX3_IIDZONE = inode.zones MX3_IIDZONE := h.pointers MX3_IIDZONE
  have hpointer : ∀ k < ppz bs, pointerBlock bs disk inode (1 + k)
      = blockSlot disk (baddr bs) (inode.zones MX3_IIDZONE) k := fun k hk => by
    rw [pointerBlock, if_neg (by omega), if_pos (by omega), Nat.add_sub_cancel_left]
  by_cases hz : inode.zones MX3_IIDZONE = 0
  · have hskip := h.skip hl (blockStart_mono bs (Nat.le_add_right 1 (ppz bs))) fun m hm =>
      no_blocks (fun k hk hk' => by
        rw [show k = 1 + (k - 1) by omega, hpointer _ (by omega), hz]
        exact if_pos rfl) hm
    simp only [clearDoubly, hslot, hz, ne_eq, not_true, if_false]
    exact ⟨(hskip.no_pointer (r := MX3_IIDZONE) rfl hz).insert_zero hl, hb⟩
  · have hmark := hm .doubly trivial hz
    have hdata := ZoneLayout.dataStart_le bs hmark.1
    have hread : ∀ k < ppz bs, load32 (window c.disk (baddr32 bs (inode.zones MX3_IIDZONE))) (4 * k)
        = pointerBlock bs disk inode (1 + k) := by
      intro k hk
      change dataStart bs disk ≤ baddr bs (inode.zones MX3_IIDZONE) at hdata
      rw [hpointer k hk, load32_window, baddr32_eq (ha hz), blockSlot, if_neg hz]
      exact load32_congr fun i _ => h.freed.data hl (by omega)
    have hrun := fold_invariant (P := fun k c => ClearedTo bs disk inode S 8 (blockStart bs (1 + k)) c
        ∧ Blank bs c) (ppz bs) ⟨h, hb⟩ fun k hk c hc =>
      clearDoublySlot_step hc.1 hl hm hk hc.2 (hread k hk) (ha' k hk)
    simp only [clearDoubly, hslot, ne_eq, hz, not_false_eq_true, if_true]
    exact ⟨hrun.1.freePointer hl rfl, hrun.2⟩

/-- Blank slots freed in place of pointer blocks change nothing. -/
theorem ClearedTo.freeSlot (h : ClearedTo bs disk inode S gone i c) (hl : MapLayout bs disk)
    (hb : Blank bs c) {s : ℕ} (hs : s < ppz bs) :
    ClearedTo bs disk inode S gone i (c.freeSlot bs s) ∧ Blank bs (c.freeSlot bs s) := by
  simp only [Clear.freeSlot, hb s hs, free_zero h.freed hl]
  refine ⟨⟨h.freed, h.remaining, h.pointers⟩, fun t ht => ?_⟩
  change load32 (store32 c.buffer_I (4 * s) 0) (4 * t) = 0
  by_cases hts : t = s
  · rw [hts, load32_store32]
  · rw [store32, load32_blit_disjoint (by omega), hb t ht]

theorem clearTriplySlot_step (IIzones : Mem) {l : ℕ} (h : ClearedTo bs disk inode S 9 i c)
    (hl : MapLayout bs disk) (hb : Blank bs c) (hlt : l < ppz bs)
    (hboot : ∀ k < ppz bs, load32 disk (4 * k) = 0) :
    ClearedTo bs disk inode S 9 i (clearTriplySlot bs IIzones l c) ∧
      Blank bs (clearTriplySlot bs IIzones l c) := by
  unfold clearTriplySlot
  split
  · have hzero : c.inode.zones MX3_IIDZONE = 0 := h.pointers MX3_IIDZONE
    have haddr : baddr32 bs (c.inode.zones MX3_IIDZONE) = 0 := by simp [hzero, baddr32]
    have hblank : ∀ k < ppz bs, load32 (window c.disk 0) (4 * k) = 0 := by
      intro k hk
      rw [load32_window, Nat.zero_add, ← hboot k hk]
      refine load32_congr fun m _ => h.freed.outside _ (Or.inl ?_)
      unfold ppz at hk
      unfold Superblock.zmapStart
      omega
    have hinner := fold_invariant (P := fun _ c => ClearedTo bs disk inode S 9 i c ∧ Blank bs c)
      (f := clearSecondSlot bs (window c.disk 0)) (ppz bs) ⟨h, hb⟩ fun k hk d hd => by
        rw [clearSecondSlot, hblank k hk, if_neg (not_not.mpr rfl)]
        exact hd
    rw [haddr]
    exact hinner.1.freeSlot hl hinner.2 hlt
  · exact ⟨h, hb⟩

/-- With no words in the first block of the device, nothing below the triply indirect block is
freed. -/
theorem clearTriply_spec (h : ClearedTo bs disk inode S 9 i c) (hl : MapLayout bs disk)
    (hb : Blank bs c) (hboot : ∀ k < ppz bs, load32 disk (4 * k) = 0) :
    ClearedTo bs disk inode (insert (inode.zones MX3_IIIDZONE) S) 10 i (clearTriply bs c) := by
  have hslot : c.inode.zones MX3_IIIDZONE = inode.zones MX3_IIIDZONE := h.pointers MX3_IIIDZONE
  by_cases hz : inode.zones MX3_IIIDZONE = 0
  · simp only [clearTriply, hslot, hz, ne_eq, not_true, if_false]
    exact (h.no_pointer (r := MX3_IIIDZONE) rfl hz).insert_zero hl
  · have hrun := fold_invariant (P := fun _ c => ClearedTo bs disk inode S 9 i c ∧ Blank bs c)
      (f := clearTriplySlot bs (window c.disk (baddr32 bs (inode.zones MX3_IIIDZONE)))) (ppz bs)
      ⟨h, hb⟩ fun l hlt d hd => clearTriplySlot_step _ hd.1 hl hd.2 hlt hboot
    have hnine : MX3_IIIDZONE.val = 9 := rfl
    simp only [clearTriply, hslot, ne_eq, hz, not_false_eq_true, if_true]
    exact hrun.1.freePointer hl hnine

end Stages

/-! ## When the whole file is cleared -/

section Files

variable {bs : ℕ} {disk : Mem} {inode : Inode}

/-- The size is the block size for each mapped zone, up to the last partial one. -/
def SizeOfZones (bs : ℕ) (disk : Mem) (inode : Inode) : Prop :=
  let mapped := Nat.count (fun j => fileZone bs disk inode j ≠ 0) (blockStart bs (blocks bs))
  inode.size.toNat ≤ bs * mapped ∧ bs * mapped < inode.size.toNat + bs

/-- Whatever lies behind the buffer, every zone of the file is marked free and no other bit of the
zone bitmap has changed. -/
def ClearsFile (bs : ℕ) (disk : Mem) (inode : Inode) : Prop :=
  ∀ beyond : ℕ → Word,
    (∀ n : Node, n.In bs → nodeZone bs disk inode n ≠ 0 →
      isZoneOccupied bs (clearAllZones bs beyond disk inode).disk (nodeZone bs disk inode n) = false) ∧
    ∀ bit, (∀ n : Node, n.In bs → nodeZone bs disk inode n ≠ 0 →
        zoneBit disk (nodeZone bs disk inode n) ≠ bit) →
      bitAt (clearAllZones bs beyond disk inode).disk ((getSuperblock disk).zmapStart bs) bit
        = bitAt disk ((getSuperblock disk).zmapStart bs) bit

/-- No doubly and no triply indirect block, and an indirect block only where 32 bits reach it and
with a data zone below. -/
def Shallow (bs : ℕ) (disk : Mem) (inode : Inode) : Prop :=
  inode.zones MX3_IIDZONE = 0 ∧ inode.zones MX3_IIIDZONE = 0 ∧
    (inode.zones MX3_IDZONE ≠ 0 → baddr bs (inode.zones MX3_IDZONE) < 2 ^ 32 ∧
      ∃ j, 7 ≤ j ∧ j < blockStart bs 1 ∧ fileZone bs disk inode j ≠ 0)

/-- The places of pointer blocks. -/
def Node.IsBlock : Node → Prop
  | .data _ => False
  | _ => True

/-- The walk takes bytes for a pointer block that are none: it cuts an address to 32 bits, or it
finds words in the first block of the device, which it reads below a triply indirect block. -/
def Astray (bs : ℕ) (disk : Mem) (inode : Inode) : Prop :=
  (∃ n : Node, n.In bs ∧ n.IsBlock ∧ ¬ Reachable32 bs (nodeZone bs disk inode n)) ∨
    ((∃ j, blockStart bs (1 + ppz bs) ≤ j ∧ j < blockStart bs (blocks bs) ∧
      fileZone bs disk inode j ≠ 0) ∧ ∃ k < ppz bs, load32 disk (4 * k) ≠ 0)

theorem remainingAt_zero_iff (hs : SizeOfZones bs disk inode) {i : ℕ}
    (hi : i ≤ blockStart bs (blocks bs)) : remainingAt bs inode (fileZone bs disk inode) i = 0 ↔
      ∀ j, i ≤ j → j < blockStart bs (blocks bs) → fileZone bs disk inode j = 0 := by
  constructor
  · intro hzero j hij hj
    by_contra hz
    have hcount : Nat.count (fun j => fileZone bs disk inode j ≠ 0) i + 1
        ≤ Nat.count (fun j => fileZone bs disk inode j ≠ 0) (blockStart bs (blocks bs)) := by
      have hj1 : Nat.count (fun j => fileZone bs disk inode j ≠ 0) (j + 1)
          = Nat.count (fun j => fileZone bs disk inode j ≠ 0) j + 1 := by
        rw [Nat.count_succ, if_pos hz]
      have hmono := Nat.count_monotone (fun j => fileZone bs disk inode j ≠ 0)
      have := hmono hij
      have := hmono (show j + 1 ≤ blockStart bs (blocks bs) by omega)
      omega
    have hle := Nat.mul_le_mul_left bs hcount
    have hsize := hs.2
    unfold remainingAt at hzero
    rw [Nat.mul_add, Nat.mul_one] at hle
    omega
  · intro hz
    rw [← remainingAt_quiet hi hz]
    exact Nat.sub_eq_zero_of_le hs.1

/-- The zones of the file, all freed. -/
theorem Freed.file {d : Mem} {S : Set Word} (hf : Freed bs S disk d) (hl : MapLayout bs disk)
    (hm : MarkedZones bs disk inode)
    (hS : ∀ n : Node, n.In bs → nodeZone bs disk inode n ≠ 0 → nodeZone bs disk inode n ∈ S)
    (hS' : ∀ z ∈ S, z ≠ 0 → ∃ n : Node, n.In bs ∧ nodeZone bs disk inode n = z) :
    (∀ n : Node, n.In bs → nodeZone bs disk inode n ≠ 0 →
        isZoneOccupied bs d (nodeZone bs disk inode n) = false) ∧
      ∀ bit, (∀ n : Node, n.In bs → nodeZone bs disk inode n ≠ 0 →
          zoneBit disk (nodeZone bs disk inode n) ≠ bit) →
        bitAt d ((getSuperblock disk).zmapStart bs) bit
          = bitAt disk ((getSuperblock disk).zmapStart bs) bit := by
  refine ⟨fun n hn hz => ?_, fun bit hbit => Bool.eq_iff_iff.mpr ?_⟩
  · rw [← Bool.not_eq_true, hf.occupied_iff hl (hm n hn hz)]
    exact fun h => h (hS n hn hz)
  · refine (hf.bits bit).trans (and_iff_left fun z hz hr => ?_)
    obtain ⟨n, hn, rfl⟩ := hS' z hz (hl.ne_zero hr)
    exact hbit n hn (hl.ne_zero hr)

/-- Without doubly and triply indirect blocks there is only the indirect one. -/
theorem no_pointerBlock (h8 : inode.zones MX3_IIDZONE = 0) (h9 : inode.zones MX3_IIIDZONE = 0)
    {b : ℕ} (hb : 0 < b) : pointerBlock bs disk inode b = 0 := by
  simp only [pointerBlock, h8, h9, blockSlot, if_true, ite_self]
  exact if_neg (Nat.ne_of_gt hb)

theorem shallow_nodes (h8 : inode.zones MX3_IIDZONE = 0) (h9 : inode.zones MX3_IIIDZONE = 0)
    {n : Node} (hn : n.In bs) (hz : nodeZone bs disk inode n ≠ 0) :
    (∃ j < blockStart bs 1, n = .data j) ∨ n = .block 0 := by
  cases n with
  | data j =>
    refine Or.inl ⟨j, ?_, rfl⟩
    by_contra hge
    exact hz (no_blocks (fun k hk _ => no_pointerBlock h8 h9 hk) (not_lt.mp hge) hn)
  | block b =>
    refine Or.inr ?_
    by_contra hb
    refine hz (no_pointerBlock h8 h9 (Nat.pos_of_ne_zero ?_))
    rintro rfl
    exact hb rfl
  | doubly => exact absurd h8 hz
  | triply => exact absurd h9 hz
  | second l =>
    refine absurd ?_ hz
    simp only [nodeZone, h9, blockSlot, if_true]

theorem blockStart_le_max {b : ℕ} (hb : b ≤ blocks bs) : blockStart bs b ≤ blockStart bs (blocks bs) :=
  blockStart_mono bs hb

/-- The zones of a shallow file are freed, and only they. -/
theorem freed_of_shallow (hl : MapLayout bs disk) (hm : MarkedZones bs disk inode)
    (hs : SizeOfZones bs disk inode) (hsh : Shallow bs disk inode) (beyond : ℕ → Word) :
    Freed bs {z | ∃ n : Node, n.In bs ∧ nodeZone bs disk inode n = z} disk
      (clearAllZones bs beyond disk inode).disk := by
  obtain ⟨h8, h9, h7⟩ := hsh
  obtain ⟨hdirect, hblank⟩ := clearDirect_spec hl inode
  by_cases hz : inode.zones MX3_IDZONE = 0
  · -- direct zones only
    have hnone : ∀ j, blockStart bs 0 ≤ j → j < blockStart bs (blocks bs) →
        fileZone bs disk inode j = 0 := fun j hj hj' => no_blocks (fun k hk hk' => by
      rcases Nat.eq_zero_or_pos k with rfl | hpos
      · exact hz
      · exact no_pointerBlock h8 h9 hpos) hj hj'
    have hdone := hdirect.remaining.trans
      ((remainingAt_zero_iff hs (blockStart_le_max (Nat.zero_le _))).mpr hnone)
    have hall : clearAllZones bs beyond disk inode
        = clearDirect bs (Clear.start disk inode) := by
      simp only [clearAllZones, hdone, if_true]
    rw [hall]
    refine hdirect.freed.congr fun z hr => ⟨?_, ?_⟩
    · rintro (⟨j, hj, rfl⟩ | hz)
      · exact ⟨.data j, hj.trans_le (blockStart_le_max (Nat.zero_le _)), rfl⟩
      · exact absurd hz (Set.notMem_empty z)
    · rintro ⟨n, hn, rfl⟩
      have hnz := hl.ne_zero hr
      rcases shallow_nodes h8 h9 hn hnz with ⟨j, -, rfl⟩ | rfl
      · refine Or.inl ⟨j, ?_, rfl⟩
        by_contra hge
        exact hnz (hnone j (not_lt.mp hge) hn)
      · exact absurd hz hnz
  · -- the indirect block, and nothing behind it
    obtain ⟨haddr, j, hj, hj', hjz⟩ := h7 hz
    have hone : 1 ≤ blocks bs := by unfold blocks; omega
    have hindirect := clearIndirect_spec hdirect hl hm hblank fun _ => haddr
    have hopen : (clearDirect bs (Clear.start disk inode)).remaining ≠ 0 := by
      rw [hdirect.remaining, ne_eq, remainingAt_zero_iff hs (blockStart_le_max (Nat.zero_le _))]
      exact fun hnone => hjz (hnone j (by unfold blockStart; omega)
        (hj'.trans_le (blockStart_le_max hone)))
    have hdone := hindirect.1.remaining.trans
      ((remainingAt_zero_iff hs (blockStart_le_max hone)).mpr fun m hm hm' =>
        no_blocks (fun k hk _ => no_pointerBlock h8 h9 hk) hm hm')
    have hall : clearAllZones bs beyond disk inode
        = clearIndirect bs (clearDirect bs (Clear.start disk inode)) := by
      simp only [clearAllZones, hopen, hdone, if_true, if_false]
    rw [hall]
    refine hindirect.1.freed.congr fun z hr => ⟨?_, ?_⟩
    · rintro (⟨j, hj, rfl⟩ | rfl | hz)
      · exact ⟨.data j, hj.trans_le (blockStart_le_max hone), rfl⟩
      · exact ⟨.block 0, hone, rfl⟩
      · exact absurd hz (Set.notMem_empty z)
    · rintro ⟨n, hn, rfl⟩
      rcases shallow_nodes h8 h9 hn (hl.ne_zero hr) with ⟨j, hlt, rfl⟩ | rfl
      · exact Or.inl ⟨j, hlt, rfl⟩
      · exact Or.inr (Or.inl rfl)

theorem clears_of_shallow (hl : MapLayout bs disk) (hm : MarkedZones bs disk inode)
    (hs : SizeOfZones bs disk inode) (hsh : Shallow bs disk inode) : ClearsFile bs disk inode :=
  fun beyond => (freed_of_shallow hl hm hs hsh beyond).file hl hm (fun n hn _ => ⟨n, hn, rfl⟩)
    fun _ hz _ => hz

/-- A pointer block that is freed is one of those the walk frees by their pointer in the inode. -/
theorem cleared_block (hl : MapLayout bs disk) (hd : DistinctZones bs disk inode)
    (hm : MarkedZones bs disk inode) (hclears : ClearsFile bs disk inode) {S : Set Word} {i : ℕ}
    (hi : i ≤ blockStart bs (blocks bs))
    (hf : Freed bs (dataBelow bs disk inode i ∪ S) disk
      (clearAllZones bs (fun _ => 0) disk inode).disk) {n : Node} (hn : n.In bs)
    (hb : n.IsBlock) (hz : nodeZone bs disk inode n ≠ 0) : nodeZone bs disk inode n ∈ S := by
  have hfree := (hclears fun _ => 0).1 n hn hz
  rw [← Bool.not_eq_true, hf.occupied_iff hl (hm n hn hz), not_not] at hfree
  rcases hfree with ⟨j, hj, he⟩ | hS
  · have hdata : n = .data j := hd n (.data j) hn (hj.trans_le hi) hz he.symm
    rw [hdata] at hb
    exact hb.elim
  · exact hS

/-- The parts of a walk that does not go astray, with nothing behind its buffer. -/
structure Parts (bs : ℕ) (disk : Mem) (inode : Inode) (c₀ c₁ c₂ c₃ : Clear) : Prop where
  direct : ClearedTo bs disk inode ∅ 7 (blockStart bs 0) c₀
  indirect : ClearedTo bs disk inode {inode.zones MX3_IDZONE} 8 (blockStart bs 1) c₁
  doubly : ClearedTo bs disk inode {inode.zones MX3_IIDZONE, inode.zones MX3_IDZONE} 9
    (blockStart bs (1 + ppz bs)) c₂
  triply : c₂.remaining ≠ 0 → ClearedTo bs disk inode
    {inode.zones MX3_IIIDZONE, inode.zones MX3_IIDZONE, inode.zones MX3_IDZONE} 10
    (blockStart bs (1 + ppz bs)) c₃
  whole : clearAllZones bs (fun _ => 0) disk inode
    = if c₀.remaining = 0 then c₀ else if c₁.remaining = 0 then c₁ else
      if c₂.remaining = 0 then c₂ else c₃

theorem exists_parts (hl : MapLayout bs disk) (hm : MarkedZones bs disk inode)
    (hs : SizeOfZones bs disk inode) (hastray : ¬ Astray bs disk inode) :
    ∃ c₀ c₁ c₂ c₃, Parts bs disk inode c₀ c₁ c₂ c₃ := by
  have hreach : ∀ n : Node, n.In bs → n.IsBlock → Reachable32 bs (nodeZone bs disk inode n) :=
    fun n hn hb => by
      by_contra hr
      exact hastray (Or.inl ⟨n, hn, hb, hr⟩)
  have hone : 1 ≤ blocks bs := by unfold blocks; omega
  obtain ⟨hdirect, hblank⟩ := clearDirect_spec hl inode
  have hindirect := clearIndirect_spec hdirect hl hm hblank (hreach (.block 0) hone trivial)
  have hdoubly := clearDoubly_spec hindirect.1 hl hm hindirect.2 (hreach .doubly trivial trivial)
    fun k hk => hreach (.block (1 + k)) (by unfold Node.In blocks; omega) trivial
  have hempty : insert (inode.zones MX3_IDZONE) (∅ : Set Word) = {inode.zones MX3_IDZONE} :=
    insert_empty_eq _
  rw [hempty] at hindirect hdoubly
  let c₀ := clearDirect bs (Clear.start disk inode)
  let c₁ := clearIndirect bs c₀
  let c₂ := clearDoubly bs (fun _ => 0) c₁
  refine ⟨c₀, c₁, c₂, clearTriply bs c₂, hdirect, hindirect.1, hdoubly.1, fun hopen => ?_, rfl⟩
  refine clearTriply_spec hdoubly.1 hl hdoubly.2 fun k hk => ?_
  rw [hdoubly.1.remaining, ne_eq,
    remainingAt_zero_iff hs (blockStart_le_max (by unfold blocks; omega))] at hopen
  push Not at hopen
  by_contra hword
  exact hastray (Or.inr ⟨hopen, k, hk, hword⟩)

/-- A data zone behind the indirect range: its pointer block stays marked. -/
theorem not_clears_of_deep (hl : MapLayout bs disk) (hd : DistinctZones bs disk inode)
    (hm : MarkedZones bs disk inode) (hs : SizeOfZones bs disk inode)
    (hastray : ¬ Astray bs disk inode) {j : ℕ} (hj : blockStart bs 1 ≤ j)
    (hj' : j < blockStart bs (blocks bs)) (hz : fileZone bs disk inode j ≠ 0) :
    ¬ ClearsFile bs disk inode := by
  intro hclears
  obtain ⟨c₀, c₁, c₂, c₃, hp⟩ := exists_parts hl hm hs hastray
  have hone : 1 ≤ blocks bs := by unfold blocks; omega
  have htwo : blockStart bs (1 + ppz bs) ≤ blockStart bs (blocks bs) :=
    blockStart_le_max (by unfold blocks; omega)
  have hopen₀ : c₀.remaining ≠ 0 := by
    rw [hp.direct.remaining, ne_eq, remainingAt_zero_iff hs (blockStart_le_max (Nat.zero_le _))]
    exact fun h => hz (h j ((blockStart_mono bs (Nat.zero_le 1)).trans hj) hj')
  have hopen₁ : c₁.remaining ≠ 0 := by
    rw [hp.indirect.remaining, ne_eq, remainingAt_zero_iff hs (blockStart_le_max hone)]
    exact fun h => hz (h j hj hj')
  -- the pointer block above `j`
  have hppz : 0 < ppz bs := by
    apply Nat.pos_of_ne_zero
    intro h0
    unfold blockStart at hj hj'
    rw [h0] at hj hj'
    omega
  have h7 : 7 ≤ j := le_trans (Nat.le_add_right 7 _) hj
  have hpos : 1 ≤ (j - 7) / ppz bs := by
    rw [Nat.le_div_iff_mul_le hppz]
    unfold blockStart at hj
    omega
  have hin : (Node.block ((j - 7) / ppz bs)).In bs := block_lt hppz h7 hj'
  have hblock : pointerBlock bs disk inode ((j - 7) / ppz bs) ≠ 0 := by
    intro h0
    rw [fileZone, zoneUnder, if_neg (by omega), h0] at hz
    exact hz (if_pos rfl)
  have hne : ∀ n : Node, n.In bs → nodeZone bs disk inode (.block ((j - 7) / ppz bs))
      = nodeZone bs disk inode n → Node.block ((j - 7) / ppz bs) = n :=
    fun n hn he => hd _ n hin hn hblock he
  have hfirst : nodeZone bs disk inode (.block ((j - 7) / ppz bs)) ≠ inode.zones MX3_IDZONE := by
    intro he
    have := Node.block.inj (hne (.block 0) hone he)
    omega
  have hsecond : nodeZone bs disk inode (.block ((j - 7) / ppz bs)) ≠ inode.zones MX3_IIDZONE :=
    fun he => by cases hne .doubly trivial he
  have hthird : nodeZone bs disk inode (.block ((j - 7) / ppz bs)) ≠ inode.zones MX3_IIIDZONE :=
    fun he => by cases hne .triply trivial he
  have hwhole := hp.whole
  rw [if_neg hopen₀, if_neg hopen₁] at hwhole
  by_cases hdone : c₂.remaining = 0
  · rw [if_pos hdone] at hwhole
    have hmem := cleared_block hl hd hm hclears htwo (hwhole ▸ hp.doubly.freed) hin trivial hblock
    rcases hmem with he | he
    · exact hsecond he
    · exact hfirst he
  · rw [if_neg hdone] at hwhole
    have hmem := cleared_block hl hd hm hclears htwo (hwhole ▸ (hp.triply hdone).freed) hin trivial
      hblock
    rcases hmem with he | he | he
    · exact hthird he
    · exact hsecond he
    · exact hfirst he

theorem shallow_of_clears (hl : MapLayout bs disk) (hd : DistinctZones bs disk inode)
    (hm : MarkedZones bs disk inode) (hs : SizeOfZones bs disk inode)
    (hclears : ClearsFile bs disk inode) (hastray : ¬ Astray bs disk inode) :
    Shallow bs disk inode := by
  have hone : 1 ≤ blocks bs := by unfold blocks; omega
  have h0max : blockStart bs 0 ≤ blockStart bs (blocks bs) := blockStart_le_max (Nat.zero_le _)
  have h1 : ∀ j, blockStart bs 1 ≤ j → j < blockStart bs (blocks bs) →
      fileZone bs disk inode j = 0 := fun j hj hj' => by
    by_contra hz
    exact not_clears_of_deep hl hd hm hs hastray hj hj' hz hclears
  obtain ⟨c₀, c₁, c₂, c₃, hp⟩ := exists_parts hl hm hs hastray
  have hwhole := hp.whole
  by_cases h0 : c₀.remaining = 0
  · -- the walk ends after the direct zones, and frees no pointer block
    rw [if_pos h0] at hwhole
    have hnone : ∀ n : Node, n.In bs → n.IsBlock → nodeZone bs disk inode n = 0 := by
      intro n hn hb
      by_contra hz
      exact cleared_block hl hd hm hclears h0max (hwhole ▸ hp.direct.freed) hn hb hz
    exact ⟨hnone .doubly trivial trivial, hnone .triply trivial trivial,
      fun h7 => absurd (hnone (.block 0) hone trivial) h7⟩
  · -- it ends after the indirect zones
    have hdone := hp.indirect.remaining.trans
      ((remainingAt_zero_iff hs (blockStart_le_max hone)).mpr h1)
    rw [if_neg h0, if_pos hdone] at hwhole
    have honly : ∀ n : Node, n.In bs → n.IsBlock → n ≠ .block 0 → nodeZone bs disk inode n = 0 := by
      intro n hn hb hne
      by_contra hz
      have he := cleared_block hl hd hm hclears (blockStart_le_max hone)
        (hwhole ▸ hp.indirect.freed) hn hb hz
      exact hne (hd n (.block 0) hn hone hz he)
    refine ⟨honly .doubly trivial trivial (by simp), honly .triply trivial trivial (by simp),
      fun h7 => ⟨?_, ?_⟩⟩
    · by_contra haddr
      exact hastray (Or.inl ⟨.block 0, hone, trivial, fun hr => haddr (hr h7)⟩)
    · rw [hp.direct.remaining, remainingAt_zero_iff hs h0max] at h0
      push Not at h0
      obtain ⟨j, hj, hj', hjz⟩ := h0
      refine ⟨j, by unfold blockStart at hj; omega, ?_, hjz⟩
      by_contra hge
      exact hjz (h1 j (not_lt.mp hge) hj')

/-- The file is cleared when it is shallow; a file that is cleared otherwise leads the walk
astray. -/
theorem clearAllZones_iff (hl : MapLayout bs disk) (hd : DistinctZones bs disk inode)
    (hm : MarkedZones bs disk inode) (hs : SizeOfZones bs disk inode) :
    (Shallow bs disk inode → ClearsFile bs disk inode) ∧
      (ClearsFile bs disk inode → Shallow bs disk inode ∨ Astray bs disk inode) := by
  refine ⟨clears_of_shallow hl hm hs, fun hclears => ?_⟩
  by_contra hnot
  push Not at hnot
  exact hnot.1 (shallow_of_clears hl hd hm hs hclears hnot.2)

end Files

/-! A file of ten data zones on a device with blocks of 8 bytes: seven direct ones, two below the
indirect block 139, and zone 144 below block 143 of the doubly indirect block 142. -/

def deepDevice : Mem := fun x =>
  if x = 1030 then 2 else if x = 1034 then 132 else if x = 1044 then 16
  else if x = 1048 then 0xff else if x = 1049 then 0x1f
  else if x = 1112 then 140 else if x = 1116 then 141
  else if x = 1136 then 143 else if x = 1144 then 144 else 0

def deepInode : Inode :=
  { Inode.zero with
    size := 80
    zones := fun r => if r.val < 8 then BitVec.ofNat 32 (132 + r.val) else if r = 8 then 142 else 0 }

/-- The place of each zone of the file. -/
def deepPlace (zone : Word) : Option Node :=
  if 132 ≤ zone ∧ zone < 139 then some (.data (zone.toNat - 132))
  else if zone = 139 then some (.block 0)
  else if zone = 140 then some (.data 7)
  else if zone = 141 then some (.data 8)
  else if zone = 142 then some .doubly
  else if zone = 143 then some (.block 1)
  else if zone = 144 then some (.data 9)
  else none

theorem deep_nodes (n : Node) (hn : n.In 8) (hz : nodeZone 8 deepDevice deepInode n ≠ 0) :
    deepPlace (nodeZone 8 deepDevice deepInode n) = some n ∧
      (isZoneInRange deepDevice (nodeZone 8 deepDevice deepInode n) = true ∧
        isZoneOccupied 8 deepDevice (nodeZone 8 deepDevice deepInode n) = true) ∧
      nodeZone 8 deepDevice deepInode n < 200 := by
  cases n with
  | data j =>
    have h : ∀ j < 21, fileZone 8 deepDevice deepInode j ≠ 0 →
        deepPlace (fileZone 8 deepDevice deepInode j) = some (.data j) ∧
          (isZoneInRange deepDevice (fileZone 8 deepDevice deepInode j) = true ∧
            isZoneOccupied 8 deepDevice (fileZone 8 deepDevice deepInode j) = true) ∧
          fileZone 8 deepDevice deepInode j < 200 := by decide
    exact h j hn hz
  | block b =>
    have h : ∀ b < 7, pointerBlock 8 deepDevice deepInode b ≠ 0 →
        deepPlace (pointerBlock 8 deepDevice deepInode b) = some (.block b) ∧
          (isZoneInRange deepDevice (pointerBlock 8 deepDevice deepInode b) = true ∧
            isZoneOccupied 8 deepDevice (pointerBlock 8 deepDevice deepInode b) = true) ∧
          pointerBlock 8 deepDevice deepInode b < 200 := by decide
    exact h b hn hz
  | doubly => decide
  | triply => exact absurd rfl hz
  | second l => exact absurd rfl hz

theorem deep_layout : MapLayout 8 deepDevice := ⟨by decide, by decide⟩

theorem deep_distinct : DistinctZones 8 deepDevice deepInode := fun m n hm hn hz he =>
  Option.some.inj (((deep_nodes m hm hz).1.symm.trans (congrArg deepPlace he)).trans
    (deep_nodes n hn (he ▸ hz)).1)

theorem deep_marked : MarkedZones 8 deepDevice deepInode := fun n hn hz => (deep_nodes n hn hz).2.1

theorem deep_size : SizeOfZones 8 deepDevice deepInode := by
  unfold SizeOfZones
  decide

theorem clearAllZones_iff_deep : MapLayout 8 deepDevice ∧ DistinctZones 8 deepDevice deepInode ∧
    MarkedZones 8 deepDevice deepInode ∧ SizeOfZones 8 deepDevice deepInode ∧
    (Shallow 8 deepDevice deepInode → ClearsFile 8 deepDevice deepInode) ∧
      (ClearsFile 8 deepDevice deepInode →
        Shallow 8 deepDevice deepInode ∨ Astray 8 deepDevice deepInode) :=
  ⟨deep_layout, deep_distinct, deep_marked, deep_size,
    clearAllZones_iff deep_layout deep_distinct deep_marked deep_size⟩

/-- Block 143 stays marked. -/
theorem clearAllZones_leaks : MapLayout 8 deepDevice ∧ DistinctZones 8 deepDevice deepInode ∧
    MarkedZones 8 deepDevice deepInode ∧ SizeOfZones 8 deepDevice deepInode ∧
    ¬ ClearsFile 8 deepDevice deepInode := by
  have hastray : ¬ Astray 8 deepDevice deepInode := by
    rintro (⟨n, hn, -, hr⟩ | ⟨⟨j, hj, hj', hz⟩, -⟩)
    · refine hr fun hz => ?_
      have hlt : (nodeZone 8 deepDevice deepInode n).toNat < 200 := (deep_nodes n hn hz).2.2
      unfold baddr
      omega
    · have h : ∀ j < 21, 13 ≤ j → fileZone 8 deepDevice deepInode j = 0 := by decide
      exact hz (h j hj' hj)
  exact ⟨deep_layout, deep_distinct, deep_marked, deep_size,
    not_clears_of_deep deep_layout deep_distinct deep_marked deep_size hastray
      (by decide : blockStart 8 1 ≤ 9) (by decide) (by decide)⟩

end Minix3
